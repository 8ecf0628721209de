import Cppkg.Diff.MyersScript

/-!
# The number of edits alone

`myers_diff_min_edit` runs the search of `myers_diff_trace` again, without recording a trace. Its
loop over the diagonals is the other one's (`minEditRow_eq`), with one more variable: where the
corner is met, the edit count is noted down. Its loop over the edit counts stops one short,
before the count of all elements of both arrays, which is the answer it starts out with. No row
is lost by that: the corner is met in the row of the distance (`traceRow_of_eq`), and a distance
that reaches the last count is that answer.

The array of costs is measured in `size_t` here, so its length does not bound the sizes. The
counters do: `k += 2` leaves the 16-bit range in a row with more than `32765` edits.
-/

namespace Cppkg.Differ

open EditGraph

variable {α : Type}

section Search

variable (comparator : α → α → Bool) (orig updated : List α)

/-- The loop over the diagonals of one edit count, as in `myers_diff_trace`. It returns the
costs, the edits and whether to go on. -/
def minEditRow (n m : IndexT) (ncost : ℕ) (iedit : IndexT) :
    ℕ → IndexT → List IndexT → IndexT → Bool → Except Fault (List IndexT × IndexT × Bool)
  | 0, _, _, _, _ => .error .outOfFuel
  | fuel + 1, k, costs, minEdits, cont =>
    if k ≤ iedit ∧ cont then do
      let (x, y, costs) ← searchDiagonal comparator orig updated n m ncost iedit k costs
      if x ≥ n ∧ y ≥ m then
        minEditRow n m ncost iedit fuel (toInt16 (k + 2)) costs iedit false
      else minEditRow n m ncost iedit fuel (toInt16 (k + 2)) costs minEdits cont
    else .ok (costs, minEdits, cont)

/-- The loop over the edit counts,
`for (IndexT iedit = 0; iedit < max_edit && cont; ++iedit)`. -/
def minEditRows (n m maxEdit : IndexT) (ncost rowFuel : ℕ) :
    ℕ → IndexT → List IndexT → IndexT → Bool → Except Fault IndexT
  | 0, _, _, _, _ => .error .outOfFuel
  | fuel + 1, iedit, costs, minEdits, cont =>
    if iedit < maxEdit ∧ cont then do
      let (costs, minEdits, cont) ← minEditRow comparator orig updated n m ncost iedit rowFuel
        (toInt16 (-iedit)) costs minEdits cont
      minEditRows n m maxEdit ncost rowFuel fuel (toInt16 (iedit + 1)) costs minEdits cont
    else .ok minEdits

/-- `myers_diff_min_edit`: the least number of edits between two arrays. -/
def myersDiffMinEdit (fuel : ℕ) : Except Fault ℕ :=
  let n := toInt16 orig.length
  let m := toInt16 updated.length
  let maxEdit := toInt16 (n + m)
  let ncost := toSizeT (2 * maxEdit + 1)
  if ncost ≤ vectorMaxSize then do
    let minEdits ← minEditRows comparator orig updated n m maxEdit ncost fuel fuel 0
      (List.replicate ncost 0) maxEdit true
    .ok (toSizeT minEdits)
  else .error .lengthError

end Search

variable {comparator : α → α → Bool} {orig updated : List α}

/-- **One row.** The row of the second search is the row of the first; where that stops, the edit
count is the answer. The induction is on the iterations granted. -/
theorem minEditRow_eq (n m : IndexT) (ncost : ℕ) (iedit minEdits : IndexT) (fuel : ℕ) (k : IndexT)
    (costs : List IndexT) :
    minEditRow comparator orig updated n m ncost iedit fuel k costs minEdits true =
      (traceRow comparator orig updated n m ncost iedit fuel k costs true).map fun r ↦
        (r.1, if r.2 then minEdits else iedit, r.2) := by
  induction fuel generalizing k costs with
  | zero => rfl
  | succ fuel ih =>
    rw [minEditRow, traceRow]
    split
    · cases searchDiagonal comparator orig updated n m ncost iedit k costs with
      | error e => rfl
      | ok r =>
        obtain ⟨x, y, costs⟩ := r
        simp only [ok_bind]
        by_cases hgo : x < n ∨ y < m
        · have hmiss : ¬ (x ≥ n ∧ y ≥ m) := by rwa [not_and_or, not_le, not_le]
          rw [if_neg hmiss, decide_eq_true hgo, ih]
        · -- the corner is met: neither loop makes another iteration
          have hhit : x ≥ n ∧ y ≥ m := by rwa [not_or, not_lt, not_lt] at hgo
          rw [if_pos hhit, decide_eq_false hgo]
          cases fuel with
          | zero => rfl
          | succ fuel => simp [minEditRow, traceRow, Except.map]
    · rfl

/-- The row that meets the corner is the last one. -/
theorem minEditRows_of_hit {n m maxEdit : IndexT} {ncost rowFuel : ℕ} {iedit minEdits : IndexT}
    {costs costs' : List IndexT} {edits : IndexT} (fuel : ℕ) (hgo : iedit < maxEdit)
    (hrow : minEditRow comparator orig updated n m ncost iedit rowFuel (toInt16 (-iedit)) costs
      minEdits true = .ok (costs', edits, false)) :
    minEditRows comparator orig updated n m maxEdit ncost rowFuel (fuel + 2) iedit costs minEdits
      true = .ok edits := by
  rw [minEditRows, if_pos ⟨hgo, rfl⟩, hrow, ok_bind]
  dsimp only
  rw [minEditRows, if_neg (by simp)]

/-- **All rows.** The search ends with the distance. The induction is on the iterations granted;
the row invariant of the first search carries it. -/
theorem minEditRows_spec (hN : orig.length + updated.length ≤ 32766) (fuel rowFuel : ℕ) {d : ℕ}
    {costs : List IndexT} (hd : d ≤ distance comparator orig updated)
    (inv : RowInv comparator orig updated d (-(d : ℤ)) costs)
    (hfuel : distance comparator orig updated + 2 ≤ d + fuel)
    (hrow : distance comparator orig updated + 2 ≤ rowFuel) :
    minEditRows comparator orig updated orig.length updated.length
        ((orig.length + updated.length : ℕ) : ℤ) (rowLength orig updated) rowFuel fuel d costs
        ((orig.length + updated.length : ℕ) : ℤ) true =
      .ok (distance comparator orig updated : ℤ) := by
  have hDN : distance comparator orig updated ≤ orig.length + updated.length :=
    distance_le_add _ _ _
  have hN' : orig.length + updated.length ≤ 32767 := by omega
  induction fuel generalizing d costs with
  | zero => omega
  | succ fuel ih =>
    have hstart : toInt16 (-(d : ℤ)) = -(d : ℤ) := toInt16_of_bounds (by omega) (by omega)
    by_cases hgo : (d : ℤ) < ((orig.length + updated.length : ℕ) : ℤ)
    · rcases Nat.lt_or_eq_of_le hd with hlt | heq
      · obtain ⟨costs', hrun, inv'⟩ := traceRow_of_lt hN' hlt (by omega) rowFuel inv (by omega)
          le_rfl (by omega) (by omega)
        have hnext : toInt16 ((d : ℤ) + 1) = ((d + 1 : ℕ) : ℤ) :=
          toInt16_of_bounds (by omega) (by omega)
        rw [minEditRows, if_pos ⟨hgo, rfl⟩, hstart, minEditRow_eq, hrun, hnext]
        exact ih hlt inv'.start (by omega)
      · -- the corner's row: its edit count is the answer
        obtain ⟨hc₁, hc₂, -⟩ := onRow_distance comparator orig updated
        obtain ⟨costs', hrun⟩ := traceRow_of_eq hN' heq rowFuel inv (by omega) le_rfl
          (by omega) (by omega)
        obtain ⟨fuel, rfl⟩ : ∃ f, fuel = f + 1 := ⟨fuel - 1, by omega⟩
        have hmin : minEditRow comparator orig updated orig.length updated.length
            (rowLength orig updated) d rowFuel (toInt16 (-(d : ℤ))) costs
              ((orig.length + updated.length : ℕ) : ℤ) true = .ok (costs', (d : ℤ), false) := by
          rw [hstart, minEditRow_eq, hrun]
          rfl
        rw [minEditRows_of_hit fuel hgo hmin, heq]
    · -- every element is an edit
      have hall : distance comparator orig updated = orig.length + updated.length := by omega
      rw [minEditRows, if_neg fun h ↦ hgo h.1, hall]

/-- `myers_diff_min_edit` returns the distance. -/
theorem myersDiffMinEdit_eq_distance (comparator : α → α → Bool)
    (hN : orig.length + updated.length ≤ 32766) {fuel : ℕ}
    (hfuel : orig.length + updated.length + 2 ≤ fuel) :
    myersDiffMinEdit comparator orig updated fuel = .ok (distance comparator orig updated) := by
  have hD := distance_le_add comparator orig updated
  obtain ⟨hn, hm, hmax, hcost, hsize⟩ := narrowed_lengths
    (show orig.length + updated.length ≤ 32767 by omega)
  have hrows := minEditRows_spec hN fuel fuel (Nat.zero_le (distance comparator orig updated))
    rowInv_zero (by omega) (by omega)
  rw [Nat.cast_zero] at hrows
  simp only [myersDiffMinEdit, hn, hm, hmax, hcost, if_pos hsize, hrows, ok_bind]
  rw [toSizeT_of_bounds (by omega) (by omega), Int.toNat_natCast]

/-- **`myers_diff_min_edit` counts the edits of a shortest script.** It returns, without leaving
any of its arrays, the least number of insertions and deletions, which a longest common
subsequence under the comparator settles. Where the difference list exists too, it has as many
changes. -/
theorem myersDiffMinEdit_minimal (comparator : α → α → Bool) (orig updated : List α)
    (h : orig.length + updated.length ≤ 32766) :
    ∃ edits, (∀ fuel, orig.length + updated.length + 2 ≤ fuel →
        myersDiffMinEdit comparator orig updated fuel = .ok edits) ∧
      IsLeast {c | ∃ p, Path (Compares comparator orig updated) 0 0 p orig.length
        updated.length ∧ cost p = c} edits ∧
      (∃ l, IsGreatest {l | ∃ ps, Matching (Compares comparator orig updated) ps ∧
          ps.length = l} l ∧
        edits + 2 * l = orig.length + updated.length) ∧
      (orig.length + updated.length ≤ 16383 → ∃ diffs,
        (∀ fuel, orig.length + updated.length + 2 ≤ fuel →
          myersDiff comparator orig updated fuel = .ok diffs) ∧
        editCount diffs = edits) := by
  have hM := confined_compares comparator orig updated
  refine ⟨distance comparator orig updated,
    fun fuel hfuel ↦ myersDiffMinEdit_eq_distance comparator h hfuel,
    isLeast_editDistance _ _ _, exists_isGreatest_matching hM, fun hN ↦ ?_⟩
  obtain ⟨diffs, hdiffs, hrun⟩ := myersDiff_spec comparator hN
  refine ⟨diffs, hrun, ?_⟩
  rw [hdiffs.editCount_eq]
  exact (shortestPath_spec hM).2

/-- The least number of edits between two short words. -/
theorem myersDiffMinEdit_minimal_words :
    ∃ edits, (∀ fuel, 9 ≤ fuel →
        myersDiffMinEdit (fun a b : ℕ ↦ a == b) [1, 2, 3, 1] [3, 2, 1] fuel = .ok edits) ∧
      IsLeast {c | ∃ p, Path (Compares (fun a b : ℕ ↦ a == b) [1, 2, 3, 1] [3, 2, 1]) 0 0 p 4 3 ∧
        cost p = c} edits ∧
      (∃ l, IsGreatest {l | ∃ ps, Matching
          (Compares (fun a b : ℕ ↦ a == b) [1, 2, 3, 1] [3, 2, 1]) ps ∧ ps.length = l} l ∧
        edits + 2 * l = 7) ∧
      (7 ≤ 16383 → ∃ diffs, (∀ fuel, 9 ≤ fuel →
          myersDiff (fun a b : ℕ ↦ a == b) [1, 2, 3, 1] [3, 2, 1] fuel = .ok diffs) ∧
        editCount diffs = edits) :=
  myersDiffMinEdit_minimal (fun a b : ℕ ↦ a == b) [1, 2, 3, 1] [3, 2, 1] (by decide)

end Cppkg.Differ
