import Cppkg.Diff.MyersDiff
import Cppkg.Lib.ShortestPath

/-!
# The trace holds the furthest reaching points

The search of `myers_diff_trace`, related to the edit graph of its comparison (`Compares`):
before edit count `d + 1`, the slot of every diagonal that `d` moves can end on holds the
furthest reaching point there (`Snapshot`), and the trace is the list of these snapshots,
up to and including the row in which the corner is reached (`myersDiffTrace_spec`). Read
entry by entry, this says how far the paths of each edit count get (`myersDiffTrace_furthest`).

One array is updated in place. While edit count `d` is processed it holds two rows at once
(`RowInv`): the diagonals below the current one already hold row `d`, those of the other
parity still hold row `d - 1`. That the two do not interfere is a fact about slots
(`diagSlot_ne`): different diagonals within the two bounds have different slots.

The values stored never leave the 16-bit range because no row before the corner's goes
beyond `n + m`. The only counter that may wrap is `k += 2`, at the end of a row with more
than `32765` edits; the hypothesis of `traceRow_of_lt` excludes it.
-/

namespace Cppkg.Differ

open EditGraph

variable {α : Type} (comparator : α → α → Bool) (orig updated : List α)

/-- The diagonal steps of a comparison: both positions exist and compare. -/
def Compares (i j : ℕ) : Prop :=
  ∃ a b, orig[i]? = some a ∧ updated[j]? = some b ∧ comparator a b = true

/-- The number of edits of a shortest script. -/
noncomputable def distance : ℕ :=
  editDistance (Compares comparator orig updated) orig.length updated.length

/-- The number of entries of a row. -/
abbrev rowLength : ℕ := 2 * (orig.length + updated.length) + 1

/-- Every diagonal that `d` moves can end on holds its furthest reaching point. -/
def Snapshot (d : ℕ) (costs : List IndexT) : Prop :=
  ∀ k, OnRow d k → costs[diagSlot (rowLength orig updated) k]? =
    some (furthest (Compares comparator orig updated) d k : ℤ)

/-- The costs while edit count `d` is processed, before diagonal `k`. -/
structure RowInv (d : ℕ) (k : ℤ) (costs : List IndexT) : Prop where
  length_eq : costs.length = rowLength orig updated
  /-- Before the first edit count every entry is zero. -/
  fresh : d = 0 → k ≤ 0 → costs = List.replicate (rowLength orig updated) 0
  /-- The entries of the diagonals that `d` moves do not reach are zero. -/
  unreached : ∀ i, d < i → i + d < rowLength orig updated → costs[i]? = some 0
  /-- The previous row is still there. -/
  prev : ∀ d', d = d' + 1 → Snapshot comparator orig updated d' costs
  /-- The diagonals below `k` are done. -/
  done : ∀ j, OnRow d j → j < k → costs[diagSlot (rowLength orig updated) j]? =
    some (furthest (Compares comparator orig updated) d j : ℤ)

/-- The trace after `d` rows. -/
structure TraceInv (d : ℕ) (traces : List IndexT) : Prop where
  length_eq : traces.length = d * rowLength orig updated
  zero : 0 < d → ∀ i < rowLength orig updated, traces[i]? = some 0
  row : ∀ r, r + 1 < d → ∀ k, OnRow r k →
    traces[(r + 1) * rowLength orig updated + diagSlot (rowLength orig updated) k]? =
      some (furthest (Compares comparator orig updated) r k : ℤ)

theorem confined_compares :
    Confined (Compares comparator orig updated) orig.length updated.length := by
  rintro i j ⟨a, b, ha, hb, -⟩
  exact ⟨(List.getElem?_eq_some_iff.1 ha).1, (List.getElem?_eq_some_iff.1 hb).1⟩

theorem distance_le_add :
    distance comparator orig updated ≤ orig.length + updated.length :=
  editDistance_le_add _ _ _

theorem onRow_distance :
    OnRow (distance comparator orig updated) ((orig.length : ℤ) - updated.length) :=
  onRow_editDistance _ _ _

theorem furthest_distance :
    furthest (Compares comparator orig updated) (distance comparator orig updated)
      ((orig.length : ℤ) - updated.length) = orig.length :=
  furthest_editDistance (confined_compares comparator orig updated)

variable {comparator orig updated}

theorem diagSlot_lt_rowLength (k : ℤ) :
    diagSlot (rowLength orig updated) k < rowLength orig updated :=
  Nat.mod_lt _ (Nat.succ_pos _)

/-! ### Following a diagonal -/

theorem compares_iff {x y : ℕ} {a b : α} (ha : orig[x]? = some a) (hb : updated[y]? = some b) :
    Compares comparator orig updated x y ↔ comparator a b = true := by
  constructor
  · rintro ⟨a', b', ha', hb', hab⟩
    rw [ha] at ha'
    rw [hb] at hb'
    cases ha'
    cases hb'
    exact hab
  · exact fun hab ↦ ⟨a, b, ha, hb, hab⟩

/-- One iteration of the inner loop, inside both arrays. -/
theorem followDiagonal_succ (comparator : α → α → Bool)
    (hN : orig.length + updated.length ≤ 32767) {t x y : ℕ} {a b : α} (hx : x < orig.length)
    (hy : y < updated.length) (ha : readAt orig x = .ok a) (hb : readAt updated y = .ok b) :
    followDiagonal comparator orig updated orig.length updated.length (t + 1) x y =
      if comparator a b then
        followDiagonal comparator orig updated orig.length updated.length t
          ((x + 1 : ℕ) : ℤ) ((y + 1 : ℕ) : ℤ)
      else .ok ((x : ℤ), (y : ℤ)) := by
  have hlt : (x : ℤ) < orig.length ∧ (y : ℤ) < updated.length := by omega
  have hx₁ : toInt16 ((x : ℤ) + 1) = ((x + 1 : ℕ) : ℤ) := toInt16_of_bounds (by omega) (by omega)
  have hy₁ : toInt16 ((y : ℤ) + 1) = ((y + 1 : ℕ) : ℤ) := toInt16_of_bounds (by omega) (by omega)
  rw [followDiagonal, if_pos hlt, ha, hb, hx₁, hy₁]
  rfl

/-- The inner loop walks exactly the snake that starts at its point. -/
theorem followDiagonal_spec (comparator : α → α → Bool)
    (hN : orig.length + updated.length ≤ 32767) {t x y : ℕ} (ht : orig.length - x ≤ t) :
    ∃ e, IsSnake (Compares comparator orig updated) (x - y) x e ∧
      followDiagonal comparator orig updated orig.length updated.length t x y =
        .ok ((e : ℤ), ((y + (e - x) : ℕ) : ℤ)) := by
  have hin : ∀ {x y : ℕ}, Compares comparator orig updated x y →
      x < orig.length ∧ y < updated.length := fun h ↦ confined_compares _ _ _ _ _ h
  induction t generalizing x y with
  | zero =>
    refine ⟨x, isSnake_self rfl fun h ↦ ?_, by simp [followDiagonal]⟩
    have hx := (hin h).1
    omega
  | succ t ih =>
    by_cases hxy : x < orig.length ∧ y < updated.length
    · obtain ⟨hx, hy⟩ := hxy
      obtain ⟨a, ha, hra⟩ := exists_readAt hx
      obtain ⟨b, hb, hrb⟩ := exists_readAt hy
      rw [followDiagonal_succ comparator hN hx hy hra hrb]
      by_cases hab : comparator a b = true
      · obtain ⟨e, hs, he⟩ := ih (x := x + 1) (y := y + 1) (by omega)
        have hle := hs.le
        rw [show ((x + 1 : ℕ) : ℤ) - (y + 1 : ℕ) = x - y by omega] at hs
        refine ⟨e, hs.extend rfl ((compares_iff ha hb).2 hab), ?_⟩
        rw [if_pos hab, he]
        congr 3
        omega
      · rw [if_neg hab]
        exact ⟨x, isSnake_self rfl fun h ↦ hab ((compares_iff ha hb).1 h), by simp⟩
    · refine ⟨x, isSnake_self rfl fun h ↦ hxy (hin h), ?_⟩
      have hge : ¬ ((x : ℤ) < orig.length ∧ (y : ℤ) < updated.length) := by omega
      rw [followDiagonal, if_neg hge]
      simp

/-! ### Slots -/

section Slots

variable {N : ℕ} {j k : ℤ}

theorem diagSlot_of_nonneg (hN : N ≤ 32767) (h₁ : 0 ≤ k) (h₂ : k ≤ 2 * N) :
    diagSlot (2 * N + 1) k = k.toNat := by
  rw [diagSlot, toSizeT_of_bounds (by omega) (by push_cast; omega),
    show (((2 * N + 1 : ℕ) : ℤ) + k).toNat = k.toNat + (2 * N + 1) by omega,
    Nat.add_mod_right, Nat.mod_eq_of_lt (by omega)]

theorem diagSlot_of_neg (hN : N ≤ 32767) (h₁ : k < 0) (h₂ : -(2 * N + 1) ≤ k) :
    diagSlot (2 * N + 1) k = (2 * N + 1 + k).toNat := by
  rw [diagSlot, toSizeT_of_bounds (by omega) (by push_cast; omega),
    Nat.mod_eq_of_lt (by omega)]
  omega

/-- Different diagonals have different slots. -/
theorem diagSlot_ne (hN : N ≤ 32767) (hj₁ : -N ≤ j) (hj₂ : j ≤ N) (hk₁ : -N ≤ k)
    (hk₂ : k ≤ N) (h : j ≠ k) : diagSlot (2 * N + 1) j ≠ diagSlot (2 * N + 1) k := by
  rcases lt_or_ge j 0 with hj | hj <;> rcases lt_or_ge k 0 with hk | hk
  · rw [diagSlot_of_neg hN hj (by omega), diagSlot_of_neg hN hk (by omega)]
    omega
  · rw [diagSlot_of_neg hN hj (by omega), diagSlot_of_nonneg hN hk (by omega)]
    omega
  · rw [diagSlot_of_nonneg hN hj (by omega), diagSlot_of_neg hN hk (by omega)]
    omega
  · rw [diagSlot_of_nonneg hN hj (by omega), diagSlot_of_nonneg hN hk (by omega)]
    omega

end Slots

/-! ### One diagonal -/

section Row

variable {d : ℕ} {k : ℤ} {costs : List IndexT}

/-- Rows up to the corner's stay within both sides together. -/
theorem rowEntry_bounds (hd : d ≤ distance comparator orig updated) (hk : OnRow d k) :
    ∃ y : ℕ, (rowEntry (Compares comparator orig updated) d k : ℤ) - y = k ∧
      rowEntry (Compares comparator orig updated) d k ≤ orig.length + updated.length ∧
      y ≤ orig.length + updated.length := by
  obtain ⟨y, hy, hr⟩ := reach_rowEntry (confined_compares comparator orig updated) hk
  exact ⟨y, hy, hr.le_add_of_le_editDistance (confined_compares _ _ _) hd⟩

/-- What the slot of a neighbour holds. -/
theorem RowInv.eq_furthest (inv : RowInv comparator orig updated (d + 1) k costs) {j v : ℤ}
    (hj : OnRow d j) (hv : costs[diagSlot (rowLength orig updated) j]? = some v) :
    v = (furthest (Compares comparator orig updated) d j : ℤ) :=
  Option.some.inj (hv.symm.trans (inv.prev d rfl j hj))

/-- The comparison of the two neighbours enters the diagonal where the row does. -/
theorem RowInv.entry (hN : orig.length + updated.length ≤ 32767)
    (hd : d ≤ distance comparator orig updated)
    (inv : RowInv comparator orig updated d k costs) (hk : OnRow d k) {prevk nextk : ℤ}
    (hp : costs[diagSlot (rowLength orig updated) (k - 1)]? = some prevk)
    (hn : costs[diagSlot (rowLength orig updated) (k + 1)]? = some nextk) :
    (if k = -(d : ℤ) ∨ (k ≠ d ∧ prevk < nextk) then nextk else toInt16 (prevk + 1)) =
      (rowEntry (Compares comparator orig updated) d k : ℤ) := by
  cases d with
  | zero =>
    obtain rfl : k = 0 := by simp only [OnRow] at hk; omega
    rw [inv.fresh rfl le_rfl, List.getElem?_replicate] at hn
    have hzero : nextk = 0 := by
      split at hn
      · exact (Option.some.inj hn).symm
      · cases hn
    simp [hzero, rowEntry]
  | succ d =>
    have hlow : -((d + 1 : ℕ) : ℤ) ≤ k := hk.1
    have hhigh : k ≤ ((d + 1 : ℕ) : ℤ) := hk.2.1
    have hpar : (((d + 1 : ℕ) : ℤ) + k) % 2 = 0 := hk.2.2
    -- at a border of the row only one neighbour belongs to the previous row
    by_cases ht : TakesIns (Compares comparator orig updated) d k
    · have hnextk := inv.eq_furthest (ht.onRow hk) hn
      rw [rowEntry, rowStart_of_takesIns ht, ← hnextk]
      refine if_pos ?_
      rcases ht with ht | ⟨hne, hlt⟩
      · exact Or.inl ht
      · by_cases hborder : k = -((d + 1 : ℕ) : ℤ)
        · exact Or.inl hborder
        · have hprevk := inv.eq_furthest (j := k - 1) ⟨by omega, by omega, by omega⟩ hp
          exact Or.inr ⟨hne, by omega⟩
    · have hprevk := inv.eq_furthest (onRow_of_not_takesIns hk ht) hp
      obtain ⟨y, -, hx, -⟩ := rowEntry_bounds hd hk
      rw [rowEntry, rowStart_of_not_takesIns ht] at hx ⊢
      rw [if_neg, toInt16_of_bounds (z := prevk + 1) (by omega) (by omega), hprevk]
      · push_cast
        rfl
      · rintro (hborder | ⟨hne, hlt⟩)
        · exact ht (Or.inl hborder)
        · have hborder : k ≠ -((d + 1 : ℕ) : ℤ) := fun h ↦ ht (Or.inl h)
          have hnextk := inv.eq_furthest (j := k + 1) ⟨by omega, by omega, by omega⟩ hn
          exact ht (Or.inr ⟨hne, by omega⟩)

/-- One iteration finds the furthest reaching point of its diagonal. -/
theorem searchDiagonal_spec (hN : orig.length + updated.length ≤ 32767)
    (hd : d ≤ distance comparator orig updated)
    (inv : RowInv comparator orig updated d k costs) (hk : OnRow d k) :
    searchDiagonal comparator orig updated orig.length updated.length
        (rowLength orig updated) d k costs =
      .ok ((furthest (Compares comparator orig updated) d k : ℤ),
        (furthest (Compares comparator orig updated) d k : ℤ) - k,
        costs.set (diagSlot (rowLength orig updated) k)
          (furthest (Compares comparator orig updated) d k : ℤ)) := by
  have hslot : ∀ j, diagSlot (rowLength orig updated) j < costs.length := by
    intro j
    rw [inv.length_eq]
    exact diagSlot_lt_rowLength j
  obtain ⟨prevk, hp, hrp⟩ := exists_readAt (hslot (k - 1))
  obtain ⟨nextk, hn, hrn⟩ := exists_readAt (hslot (k + 1))
  obtain ⟨y, hy, hxN, hyN⟩ := rowEntry_bounds hd hk
  have hentry := inv.entry hN hd hk hp hn
  obtain ⟨e, hs, he⟩ := followDiagonal_spec comparator hN
    (t := ((orig.length : ℤ) - rowEntry (Compares comparator orig updated) d k).toNat)
    (x := rowEntry (Compares comparator orig updated) d k) (y := y) (by omega)
  have hle := hs.le
  rw [hy] at hs
  rw [furthest_eq_of_isSnake (confined_compares _ _ _) hk hs]
  have hy' : toInt16 ((rowEntry (Compares comparator orig updated) d k : ℤ) - k) = y := by
    rw [toInt16_of_bounds (by omega) (by omega)]
    omega
  have hend : ((y + (e - rowEntry (Compares comparator orig updated) d k) : ℕ) : ℤ) = e - k := by
    omega
  simp only [searchDiagonal, hrp, hrn, bind, Except.bind]
  rw [hentry, hy', he]
  simp only [writeAt_of_lt (hslot k), hend]

/-- Recording the furthest reaching point of a diagonal finishes the diagonal. -/
theorem RowInv.next (hN : orig.length + updated.length ≤ 32767)
    (hd : d ≤ distance comparator orig updated)
    (inv : RowInv comparator orig updated d k costs) (hk : OnRow d k) :
    RowInv comparator orig updated d (k + 2)
      (costs.set (diagSlot (rowLength orig updated) k)
        (furthest (Compares comparator orig updated) d k : ℤ)) := by
  have hdN : d ≤ orig.length + updated.length := hd.trans (distance_le_add _ _ _)
  obtain ⟨hk₁, hk₂, hk₃⟩ := hk
  have hne : ∀ j : ℤ, -(d : ℤ) ≤ j → j ≤ d → k ≠ j →
      diagSlot (rowLength orig updated) k ≠ diagSlot (rowLength orig updated) j := by
    intro j hj₁ hj₂ hkj
    refine diagSlot_ne hN ?_ ?_ ?_ ?_ hkj <;> push_cast <;> omega
  constructor
  · rw [List.length_set, inv.length_eq]
  · intro hd₀ hk₀
    omega
  · -- the slots beyond the row belong to none of its diagonals
    intro i hi hi'
    rw [List.getElem?_set_ne, inv.unreached i hi hi']
    rw [rowLength] at hi'
    rcases lt_or_ge k 0 with hk | hk
    · rw [diagSlot_of_neg hN hk (by omega)]
      omega
    · rw [diagSlot_of_nonneg hN hk (by omega)]
      omega
  · -- the previous row has the other parity
    rintro d' rfl j hj
    obtain ⟨hj₁, hj₂, hj₃⟩ := hj
    rw [List.getElem?_set_ne (hne j (by omega) (by omega) (by omega))]
    exact inv.prev d' rfl j ⟨hj₁, hj₂, hj₃⟩
  · intro j hj hlt
    obtain ⟨hj₁, hj₂, hj₃⟩ := hj
    by_cases hkj : k = j
    · subst hkj
      rw [List.getElem?_set_self (by rw [inv.length_eq]; exact diagSlot_lt_rowLength k)]
    · rw [List.getElem?_set_ne (hne j hj₁ hj₂ hkj)]
      exact inv.done j ⟨hj₁, hj₂, hj₃⟩ (by omega)

/-- The row of the next edit count starts from a finished row. -/
theorem RowInv.start (inv : RowInv comparator orig updated d (d + 2) costs) :
    RowInv comparator orig updated (d + 1) (-((d + 1 : ℕ) : ℤ)) costs where
  length_eq := inv.length_eq
  fresh h := absurd h (Nat.succ_ne_zero d)
  unreached i hi hi' := inv.unreached i (by omega) (by omega)
  prev := by
    rintro d' hd k hk
    obtain rfl : d = d' := by omega
    exact inv.done k hk (by have := hk.2.1; omega)
  done j hj hlt := absurd hj.1 (by omega)

/-! ### One row -/

/-- The corner is met in its own row only, and on its own diagonal only. -/
theorem eq_corner_of_hit (hd : d ≤ distance comparator orig updated) (hk : OnRow d k)
    (hx : (orig.length : ℤ) ≤ furthest (Compares comparator orig updated) d k)
    (hy : (updated.length : ℤ) ≤ furthest (Compares comparator orig updated) d k - k) :
    d = distance comparator orig updated ∧ k = orig.length - updated.length := by
  obtain ⟨y, hy', hr⟩ := reach_furthest (confined_compares comparator orig updated) hk
  obtain ⟨hxn, hym, hdist⟩ :=
    hr.eq_of_le_editDistance (confined_compares _ _ _) hd (by omega) (by omega)
  exact ⟨hdist, by omega⟩

/-- Anywhere else the search goes on. -/
theorem miss_of_ne (hd : d ≤ distance comparator orig updated) (hk : OnRow d k)
    (hne : d ≠ distance comparator orig updated ∨ k ≠ orig.length - updated.length) :
    (furthest (Compares comparator orig updated) d k : ℤ) < orig.length ∨
      (furthest (Compares comparator orig updated) d k : ℤ) - k < updated.length := by
  by_contra hhit
  push Not at hhit
  obtain ⟨hdist, hdiag⟩ := eq_corner_of_hit hd hk hhit.1 hhit.2
  exact hne.elim (fun h ↦ h hdist) fun h ↦ h hdiag

/-- One iteration of the loop over the diagonals. -/
theorem traceRow_step (hN : orig.length + updated.length ≤ 32767)
    (hd : d ≤ distance comparator orig updated)
    (inv : RowInv comparator orig updated d k costs) (hk : OnRow d k) (fuel : ℕ) :
    traceRow comparator orig updated orig.length updated.length (rowLength orig updated) d
        (fuel + 1) k costs true =
      traceRow comparator orig updated orig.length updated.length (rowLength orig updated) d
        fuel (toInt16 (k + 2))
        (costs.set (diagSlot (rowLength orig updated) k)
          (furthest (Compares comparator orig updated) d k : ℤ))
        (decide ((furthest (Compares comparator orig updated) d k : ℤ) < orig.length ∨
          (furthest (Compares comparator orig updated) d k : ℤ) - k < updated.length)) := by
  rw [traceRow, if_pos ⟨hk.2.1, rfl⟩, searchDiagonal_spec hN hd inv hk]
  rfl

/-- A row before the corner's is processed to its end. The induction is on the iterations
granted; the row invariant carries it. -/
theorem traceRow_of_lt (hN : orig.length + updated.length ≤ 32767)
    (hd : d < distance comparator orig updated) (hwrap : d + 2 ≤ 32767) (fuel : ℕ)
    (inv : RowInv comparator orig updated d k costs) (hpar : ((d : ℤ) + k) % 2 = 0)
    (h₁ : -(d : ℤ) ≤ k) (h₂ : k ≤ d + 2) (hfuel : (d : ℤ) + 4 ≤ k + 2 * fuel) :
    ∃ costs', traceRow comparator orig updated orig.length updated.length
        (rowLength orig updated) d fuel k costs true = .ok (costs', true) ∧
      RowInv comparator orig updated d (d + 2) costs' := by
  induction fuel generalizing k costs with
  | zero => omega
  | succ fuel ih =>
    rcases lt_or_ge (d : ℤ) k with hlt | hge
    · obtain rfl : k = d + 2 := by omega
      have hstop : ¬ ((d : ℤ) + 2 ≤ d ∧ true = true) := by omega
      exact ⟨costs, by rw [traceRow, if_neg hstop], inv⟩
    · have hk : OnRow d k := ⟨h₁, hge, hpar⟩
      rw [traceRow_step hN hd.le inv hk, decide_eq_true (miss_of_ne hd.le hk (.inl hd.ne)),
        toInt16_of_bounds (z := k + 2) (by omega) (by omega)]
      exact ih (inv.next hN hd.le hk) (by omega) (by omega) (by omega) (by omega)

/-- The corner's row ends at the corner's diagonal. -/
theorem traceRow_of_eq (hN : orig.length + updated.length ≤ 32767)
    (hd : d = distance comparator orig updated) (fuel : ℕ)
    (inv : RowInv comparator orig updated d k costs) (hpar : ((d : ℤ) + k) % 2 = 0)
    (h₁ : -(d : ℤ) ≤ k) (h₂ : k ≤ orig.length - updated.length)
    (hfuel : (orig.length : ℤ) - updated.length + 4 ≤ k + 2 * fuel) :
    ∃ costs', traceRow comparator orig updated orig.length updated.length
        (rowLength orig updated) d fuel k costs true = .ok (costs', false) := by
  obtain ⟨hc₁, hc₂, hc₃⟩ := onRow_distance comparator orig updated
  have hdN : d ≤ orig.length + updated.length := hd ▸ distance_le_add comparator orig updated
  induction fuel generalizing k costs with
  | zero => omega
  | succ fuel ih =>
    have hk : OnRow d k := ⟨h₁, by omega, hpar⟩
    rw [traceRow_step hN hd.le inv hk]
    rcases eq_or_lt_of_le h₂ with heq | hlt
    · have hhit : ¬ ((furthest (Compares comparator orig updated) d k : ℤ) < orig.length ∨
          (furthest (Compares comparator orig updated) d k : ℤ) - k < updated.length) := by
        rw [heq, hd, furthest_distance]
        omega
      obtain ⟨fuel, rfl⟩ : ∃ f, fuel = f + 1 := ⟨fuel - 1, by omega⟩
      rw [decide_eq_false hhit, traceRow, if_neg (fun h ↦ absurd h.2 (by simp))]
      exact ⟨_, rfl⟩
    · rw [decide_eq_true (miss_of_ne hd.le hk (.inr hlt.ne)),
        toInt16_of_bounds (z := k + 2) (by omega) (by omega)]
      exact ih (inv.next hN hd.le hk) (by omega) (by omega) (by omega) (by omega)

/-! ### All rows -/

variable {traces : List IndexT}

/-- The costs before an edit count become its row of the trace. -/
theorem TraceInv.append (tinv : TraceInv comparator orig updated d traces)
    (inv : RowInv comparator orig updated d (-(d : ℤ)) costs) :
    TraceInv comparator orig updated (d + 1) (traces ++ costs) := by
  have hlen := tinv.length_eq
  constructor
  · rw [List.length_append, hlen, inv.length_eq, Nat.succ_mul]
  · intro _ i hi
    cases d with
    | zero =>
      rw [Nat.zero_mul] at hlen
      rw [List.eq_nil_of_length_eq_zero hlen, List.nil_append, inv.fresh rfl (by simp)]
      exact List.getElem?_replicate_of_lt hi
    | succ d =>
      rw [List.getElem?_append_left]
      · exact tinv.zero (Nat.succ_pos d) i hi
      · rw [hlen, Nat.succ_mul]
        omega
  · -- row `r` of the furthest points is row `r + 1` of the trace
    intro r hr k hk
    rcases Nat.lt_or_ge (r + 1) d with hlt | hge
    · rw [List.getElem?_append_left]
      · exact tinv.row r hlt k hk
      · have hslot := @diagSlot_lt_rowLength _ orig updated k
        have hle := Nat.mul_le_mul_right (rowLength orig updated) (Nat.succ_le_of_lt hlt)
        rw [Nat.succ_eq_add_one, Nat.succ_mul] at hle
        rw [hlen]
        omega
    · obtain rfl : d = r + 1 := by omega
      rw [List.getElem?_append_right (by omega), hlen, Nat.add_sub_cancel_left]
      exact inv.prev r rfl k hk

/-- The search records a row for every edit count up to the distance. -/
theorem traceRows_spec (hN : orig.length + updated.length ≤ 32767)
    (hD : distance comparator orig updated ≤ 32766) (fuel rowFuel : ℕ)
    (hd : d ≤ distance comparator orig updated)
    (inv : RowInv comparator orig updated d (-(d : ℤ)) costs)
    (tinv : TraceInv comparator orig updated d traces)
    (hfuel : distance comparator orig updated + 2 ≤ d + fuel)
    (hrow : distance comparator orig updated + 2 ≤ rowFuel) :
    ∃ traces', traceRows comparator orig updated orig.length updated.length
        ((orig.length + updated.length : ℕ) : ℤ) (rowLength orig updated) rowFuel fuel d costs
        traces true = .ok traces' ∧
      TraceInv comparator orig updated (distance comparator orig updated + 1) traces' := by
  have hDN : distance comparator orig updated ≤ orig.length + updated.length :=
    distance_le_add _ _ _
  induction fuel generalizing d costs traces with
  | zero => omega
  | succ fuel ih =>
    have hneg : toInt16 (-(d : ℤ)) = -(d : ℤ) := toInt16_of_bounds (by omega) (by omega)
    have hiedit : ((d : ℤ) ≤ ((orig.length + updated.length : ℕ) : ℤ)) ∧ true = true :=
      ⟨by omega, rfl⟩
    rw [traceRows, if_pos hiedit, hneg]
    rcases Nat.lt_or_eq_of_le hd with hlt | heq
    · obtain ⟨costs', hrun, inv'⟩ := traceRow_of_lt hN hlt (by omega) rowFuel inv
        (by omega) le_rfl (by omega) (by omega)
      have hnext : toInt16 ((d : ℤ) + 1) = ((d + 1 : ℕ) : ℤ) :=
        toInt16_of_bounds (by omega) (by omega)
      rw [hrun]
      simp only [bind, Except.bind, hnext]
      exact ih hlt inv'.start (tinv.append inv) (by omega)
    · -- the corner's row: the search stops, and its costs are still recorded
      obtain ⟨hc₁, hc₂, -⟩ := onRow_distance comparator orig updated
      obtain ⟨costs', hrun⟩ := traceRow_of_eq hN heq rowFuel inv (by omega) le_rfl
        (by omega) (by omega)
      rw [hrun]
      simp only [bind, Except.bind]
      obtain ⟨fuel, rfl⟩ : ∃ f, fuel = f + 1 := ⟨fuel - 1, by omega⟩
      rw [traceRows, if_neg (fun h ↦ absurd h.2 (by simp)), ← heq]
      exact ⟨_, rfl, tinv.append inv⟩

end Row

theorem rowInv_zero : RowInv comparator orig updated 0 (-((0 : ℕ) : ℤ))
    (List.replicate (rowLength orig updated) 0) where
  length_eq := List.length_replicate
  fresh _ _ := rfl
  unreached _ _ hi := List.getElem?_replicate_of_lt hi
  prev d' h := absurd h (by omega)
  done j hj hlt := absurd hj.1 (by omega)

theorem traceInv_zero : TraceInv comparator orig updated 0 [] where
  length_eq := by simp
  zero h := absurd h (by omega)
  row r h := absurd h (by omega)

/-- The sizes as the search stores them. -/
theorem narrowed_lengths (hN : orig.length + updated.length ≤ 32767) :
    toInt16 (orig.length : ℤ) = orig.length ∧ toInt16 (updated.length : ℤ) = updated.length ∧
      toInt16 ((orig.length : ℤ) + updated.length) = ((orig.length + updated.length : ℕ) : ℤ) ∧
      toSizeT (2 * ((orig.length + updated.length : ℕ) : ℤ) + 1) = rowLength orig updated ∧
      rowLength orig updated ≤ vectorMaxSize := by
  refine ⟨toInt16_of_bounds (by omega) (by omega), toInt16_of_bounds (by omega) (by omega),
    ?_, ?_, ?_⟩
  · rw [toInt16_of_bounds (by omega) (by omega)]
    push_cast
    rfl
  · rw [toSizeT_of_bounds (by omega) (by push_cast; omega), rowLength]
    omega
  · simp only [vectorMaxSize, rowLength]
    omega

/-- **The trace.** One row for every edit count up to the distance, each holding the
furthest reaching points of the row before it. -/
theorem myersDiffTrace_spec (comparator : α → α → Bool)
    (hN : orig.length + updated.length ≤ 32767)
    (hD : distance comparator orig updated ≤ 32766) {fuel : ℕ}
    (hfuel : distance comparator orig updated + 2 ≤ fuel) :
    ∃ traces, myersDiffTrace comparator orig updated fuel = .ok traces ∧
      TraceInv comparator orig updated (distance comparator orig updated + 1) traces := by
  obtain ⟨hn, hm, hmax, hcost, hsize⟩ := narrowed_lengths hN
  obtain ⟨traces, hrun, tinv⟩ := traceRows_spec hN hD fuel fuel (Nat.zero_le _) rowInv_zero
    traceInv_zero (by omega) hfuel
  refine ⟨traces, ?_, tinv⟩
  simp only [myersDiffTrace, hn, hm, hmax, hcost, if_pos hsize]
  exact hrun

/-! ### The entries of the trace -/

theorem onRow_iff_abs_le {d : ℕ} {k : ℤ} : OnRow d k ↔ |k| ≤ d ∧ (k - d) % 2 = 0 := by
  rw [OnRow, abs_le]
  omega

/-- The slot of a diagonal, with the remainder of an integer. -/
theorem diagSlot_eq_emod {N : ℕ} {k : ℤ} (hN : N ≤ 32767) (h₁ : -N ≤ k) (h₂ : k ≤ N) :
    diagSlot (2 * N + 1) k = (((2 * N + 1 : ℕ) + k) % (2 * N + 1 : ℕ)).toNat := by
  rw [diagSlot, toSizeT_of_bounds (by omega) (by omega), Int.toNat_emod (by omega) (by omega),
    Int.toNat_natCast]

/-- The furthest points of these rows stay within both sides together, too. -/
theorem furthest_bounds {d : ℕ} {k : ℤ} (hd : d ≤ distance comparator orig updated)
    (hk : OnRow d k) :
    furthest (Compares comparator orig updated) d k ≤ orig.length + updated.length ∧
      0 ≤ (furthest (Compares comparator orig updated) d k : ℤ) - k ∧
      (furthest (Compares comparator orig updated) d k : ℤ) - k ≤
        (orig.length + updated.length : ℕ) := by
  obtain ⟨y, hy, hr⟩ := reach_furthest (confined_compares comparator orig updated) hk
  have hle := hr.le_add_of_le_editDistance (confined_compares _ _ _) hd
  omega

/-- **Every entry of the trace.** With `D` the least number of insertions and deletions, the trace
has `D + 1` rows; the entry of row `d` that belongs to a diagonal of `d - 1` moves is how far along
the first array a path with `d - 1` insertions and deletions gets on that diagonal. -/
theorem myersDiffTrace_furthest (comparator : α → α → Bool) (orig updated : List α)
    (h : orig.length + updated.length ≤ 16383) :
    ∃ D, IsLeast {c | ∃ p, Path (Compares comparator orig updated) 0 0 p orig.length
          updated.length ∧ cost p = c} D ∧
      ∀ fuel, orig.length + updated.length + 2 ≤ fuel →
        ∃ traces, myersDiffTrace comparator orig updated fuel = .ok traces ∧
          traces.length = (D + 1) * (2 * (orig.length + updated.length) + 1) ∧
          ∀ d, 1 ≤ d → d ≤ D → ∀ k : ℤ, |k| ≤ (d - 1 : ℕ) → (k - (d - 1 : ℕ)) % 2 = 0 →
            ∃ x : ℕ,
              traces[d * (2 * (orig.length + updated.length) + 1) +
                (((2 * (orig.length + updated.length) + 1 : ℕ) + k) %
                  (2 * (orig.length + updated.length) + 1 : ℕ)).toNat]? = some (x : ℤ) ∧
              IsGreatest {x : ℕ | ∃ y p, Path (Compares comparator orig updated) 0 0 p x y ∧
                cost p = d - 1 ∧ (x : ℤ) - y = k} x ∧
              x ≤ orig.length + updated.length ∧ 0 ≤ (x : ℤ) - k ∧
              (x : ℤ) - k ≤ (orig.length + updated.length : ℕ) := by
  have hD := distance_le_add comparator orig updated
  refine ⟨distance comparator orig updated, isLeast_editDistance _ _ _, fun fuel hfuel ↦ ?_⟩
  have hN : orig.length + updated.length ≤ 32767 := by omega
  have hmoves : distance comparator orig updated + 2 ≤ fuel := by omega
  obtain ⟨traces, hrun, tinv⟩ := myersDiffTrace_spec comparator hN (by omega) hmoves
  refine ⟨traces, hrun, tinv.length_eq, fun d h₁ hd k habs hpar ↦ ?_⟩
  obtain ⟨r, rfl⟩ : ∃ r, d = r + 1 := ⟨d - 1, by omega⟩
  rw [Nat.add_sub_cancel] at habs hpar ⊢
  have hk : OnRow r k := onRow_iff_abs_le.2 ⟨habs, hpar⟩
  have hk₁ : -(r : ℤ) ≤ k := hk.1
  have hk₂ : k ≤ r := hk.2.1
  refine ⟨furthest (Compares comparator orig updated) r k, ?_,
    isGreatest_furthest (confined_compares _ _ _) hk, furthest_bounds (by omega) hk⟩
  rw [← diagSlot_eq_emod (by omega) (by omega) (by omega)]
  exact tinv.row r (by omega) k hk

/-- The trace of two short words. -/
theorem myersDiffTrace_furthest_words :
    ∃ D, IsLeast {c | ∃ p, Path (Compares (fun a b : ℕ ↦ a == b) [1, 2, 3, 1] [3, 2, 1]) 0 0 p 4 3 ∧
          cost p = c} D ∧
      ∀ fuel, 9 ≤ fuel →
        ∃ traces, myersDiffTrace (fun a b : ℕ ↦ a == b) [1, 2, 3, 1] [3, 2, 1] fuel = .ok traces ∧
          traces.length = (D + 1) * 15 ∧
          ∀ d, 1 ≤ d → d ≤ D → ∀ k : ℤ, |k| ≤ (d - 1 : ℕ) → (k - (d - 1 : ℕ)) % 2 = 0 →
            ∃ x : ℕ,
              traces[d * 15 + (((15 : ℕ) + k) % (15 : ℕ)).toNat]? = some (x : ℤ) ∧
              IsGreatest {x : ℕ | ∃ y p,
                Path (Compares (fun a b : ℕ ↦ a == b) [1, 2, 3, 1] [3, 2, 1]) 0 0 p x y ∧
                cost p = d - 1 ∧ (x : ℤ) - y = k} x ∧
              x ≤ 7 ∧ 0 ≤ (x : ℤ) - k ∧ (x : ℤ) - k ≤ (7 : ℕ) :=
  myersDiffTrace_furthest (fun a b : ℕ ↦ a == b) [1, 2, 3, 1] [3, 2, 1] (by decide)

end Cppkg.Differ
