import Cppkg.Diff.MyersMinEdit
import Cppkg.Lib.EditMetric

/-!
# What the edits measure

The least number of edits by the recursion over both lists (`plainEdits`), which takes
exponentially many steps, and the two functions that find it on the diagonals:
`myers_diff_min_edit` returns it and the changes of `myers_diff` are as many, for any comparator.

For a comparator that is an equivalence the number of edits is a metric on lists, up to elements
that compare equal.
-/

namespace Cppkg.Differ

open EditGraph

variable {α : Type} (comparator : α → α → Bool)

/-- One row of the recursion: the edits of `a :: orig`, given those of `orig`. -/
def plainRow (row : List α → ℕ) (a : α) : List α → ℕ
  | [] => row [] + 1
  | b :: updated =>
    if comparator a b then row updated
    else min (row (b :: updated)) (plainRow row a updated) + 1

/-- The least number of insertions and deletions, by recursion over both lists. -/
def plainEdits : List α → List α → ℕ
  | [] => List.length
  | a :: orig => plainRow comparator (plainEdits orig) a

variable {comparator} {a b : α} {orig updated : List α}

/-! ### The recursion -/

theorem compares_cons_cons :
    (fun i j ↦ Compares comparator (a :: orig) (b :: updated) (i + 1) (j + 1)) =
      Compares comparator orig updated := rfl

theorem compares_cons_left :
    (fun i j ↦ Compares comparator (a :: orig) updated (i + 1) j) =
      Compares comparator orig updated := rfl

theorem compares_cons_right :
    (fun i j ↦ Compares comparator orig (b :: updated) i (j + 1)) =
      Compares comparator orig updated := rfl

theorem compares_zero_zero :
    Compares comparator (a :: orig) (b :: updated) 0 0 ↔ comparator a b = true :=
  compares_iff rfl rfl

theorem distance_nil_left (updated : List α) : distance comparator [] updated = updated.length := by
  rw [distance, editDistance_of_not fun i j ⟨a, _, ha, _⟩ ↦ by simp at ha]
  exact Nat.zero_add _

theorem distance_nil_right (orig : List α) : distance comparator orig [] = orig.length := by
  rw [distance, editDistance_of_not fun i j ⟨_, b, _, hb, _⟩ ↦ by simp at hb]
  exact Nat.add_zero _

theorem distance_cons_cons_of_eq (h : comparator a b = true) :
    distance comparator (a :: orig) (b :: updated) = distance comparator orig updated := by
  rw [distance, distance, List.length_cons, List.length_cons,
    editDistance_succ_of_rel (compares_zero_zero.2 h), compares_cons_cons]

theorem distance_cons_cons_of_ne (h : ¬ comparator a b = true) :
    distance comparator (a :: orig) (b :: updated) =
      min (distance comparator orig (b :: updated)) (distance comparator (a :: orig) updated) +
        1 := by
  rw [distance, distance, distance, List.length_cons, List.length_cons,
    editDistance_succ_of_not (mt compares_zero_zero.1 h), compares_cons_left, compares_cons_right]

theorem distance_eq_plainEdits (orig updated : List α) :
    distance comparator orig updated = plainEdits comparator orig updated := by
  induction orig generalizing updated with
  | nil => exact distance_nil_left updated
  | cons a orig ih =>
    induction updated with
    | nil =>
      rw [distance_nil_right, plainEdits, plainRow, ← ih [], distance_nil_right]
      rfl
    | cons b updated ihu =>
      rw [plainEdits, plainRow]
      split
      next h => rw [distance_cons_cons_of_eq h, ih]
      next h => rw [distance_cons_cons_of_ne h, ih, ihu, plainEdits]

/-- **The searches agree with the recursion.** For every comparator `myers_diff_min_edit` returns
what the recursion over both lists computes, and the difference list, where it exists, has as many
changes. -/
theorem myersDiff_edits_eq_plain (comparator : α → α → Bool) (orig updated : List α)
    (h : orig.length + updated.length ≤ 32766) :
    (∀ fuel, orig.length + updated.length + 2 ≤ fuel →
      myersDiffMinEdit comparator orig updated fuel =
        .ok (plainEdits comparator orig updated)) ∧
    (orig.length + updated.length ≤ 16383 → ∃ diffs,
      (∀ fuel, orig.length + updated.length + 2 ≤ fuel →
        myersDiff comparator orig updated fuel = .ok diffs) ∧
      editCount diffs = plainEdits comparator orig updated) := by
  rw [← distance_eq_plainEdits]
  refine ⟨fun fuel hfuel ↦ myersDiffMinEdit_eq_distance comparator h hfuel, fun hN ↦ ?_⟩
  obtain ⟨diffs, hdiffs, hrun⟩ := myersDiff_spec comparator hN
  refine ⟨diffs, hrun, ?_⟩
  rw [hdiffs.editCount_eq]
  exact (shortestPath_spec (confined_compares comparator orig updated)).2

/-- Two short words, four edits apart. -/
theorem myersDiff_edits_eq_plain_words :
    (∀ fuel, 10 ≤ fuel → myersDiffMinEdit (fun a b : ℕ ↦ a == b) [1, 2, 3, 1] [3, 2, 1, 4] fuel =
      .ok 4) ∧
    (8 ≤ 16383 → ∃ diffs, (∀ fuel, 10 ≤ fuel →
        myersDiff (fun a b : ℕ ↦ a == b) [1, 2, 3, 1] [3, 2, 1, 4] fuel = .ok diffs) ∧
      editCount diffs = 4) :=
  myersDiff_edits_eq_plain (fun a b : ℕ ↦ a == b) [1, 2, 3, 1] [3, 2, 1, 4] (by decide)

/-! ### A metric -/

theorem distance_comm (hsymm : ∀ {a b}, comparator a b = true → comparator b a = true)
    (orig updated : List α) :
    distance comparator orig updated = distance comparator updated orig := by
  have hcomp : Compares comparator updated orig =
      fun j i ↦ Compares comparator orig updated i j := by
    funext j i
    refine propext ⟨?_, ?_⟩
    · rintro ⟨b, a, hb, ha, hba⟩
      exact ⟨a, b, ha, hb, hsymm hba⟩
    · rintro ⟨a, b, ha, hb, hab⟩
      exact ⟨b, a, hb, ha, hsymm hab⟩
  rw [distance, distance, hcomp, editDistance_flip]

theorem distance_triangle
    (htrans : ∀ {a b c}, comparator a b = true → comparator b c = true → comparator a c = true)
    (first second third : List α) :
    distance comparator first third ≤
      distance comparator first second + distance comparator second third := by
  refine editDistance_triangle ?_ _ _ _
  rintro i j k ⟨a, b, ha, hb, hab⟩ ⟨b', c, hb', hc, hbc⟩
  obtain rfl : b = b' := Option.some.inj (hb.symm.trans hb')
  exact ⟨a, c, ha, hc, htrans hab hbc⟩

theorem distance_eq_zero_iff :
    distance comparator orig updated = 0 ↔
      List.Forall₂ (fun a b ↦ comparator a b = true) orig updated := by
  rw [distance, editDistance_eq_zero_iff, List.forall₂_iff_get]
  refine and_congr_right fun hlen ↦ ⟨fun h i hi hi' ↦ ?_, fun h i hi ↦ ?_⟩
  · exact (compares_iff (List.getElem?_eq_getElem hi) (List.getElem?_eq_getElem hi')).1 (h i hi)
  · have hi' : i < updated.length := hlen ▸ hi
    exact (compares_iff (List.getElem?_eq_getElem hi) (List.getElem?_eq_getElem hi')).2 (h i hi hi')

/-- **The number of edits is a metric.** For a comparator that is an equivalence,
`myers_diff_min_edit` measures a distance: it is zero exactly for lists that compare equal element
by element, the same in both directions, and meets the triangle inequality. -/
theorem myersDiffMinEdit_isMetric (comparator : α → α → Bool)
    (heq : Equivalence fun a b ↦ comparator a b = true) :
    ∃ dist : List α → List α → ℕ,
      (∀ orig updated, orig.length + updated.length ≤ 32766 →
        ∀ fuel, orig.length + updated.length + 2 ≤ fuel →
          myersDiffMinEdit comparator orig updated fuel = .ok (dist orig updated)) ∧
      (∀ orig updated, dist orig updated = 0 ↔
        List.Forall₂ (fun a b ↦ comparator a b = true) orig updated) ∧
      (∀ orig updated, dist orig updated = dist updated orig) ∧
      ∀ first second third, dist first third ≤ dist first second + dist second third :=
  ⟨distance comparator,
    fun _ _ h _ hfuel ↦ myersDiffMinEdit_eq_distance comparator h hfuel,
    fun _ _ ↦ distance_eq_zero_iff, distance_comm heq.symm, distance_triangle heq.trans⟩

/-- Numbers compared by their last bit. -/
theorem myersDiffMinEdit_isMetric_parity :
    ∃ dist : List ℕ → List ℕ → ℕ,
      (∀ orig updated, orig.length + updated.length ≤ 32766 →
        ∀ fuel, orig.length + updated.length + 2 ≤ fuel →
          myersDiffMinEdit (fun a b ↦ a % 2 == b % 2) orig updated fuel =
            .ok (dist orig updated)) ∧
      (∀ orig updated, dist orig updated = 0 ↔
        List.Forall₂ (fun a b ↦ (a % 2 == b % 2) = true) orig updated) ∧
      (∀ orig updated, dist orig updated = dist updated orig) ∧
      ∀ first second third, dist first third ≤ dist first second + dist second third :=
  myersDiffMinEdit_isMetric (fun a b : ℕ ↦ a % 2 == b % 2)
    ⟨fun _ ↦ by simp, fun h ↦ by simpa using (beq_iff_eq.1 h).symm,
      fun h h' ↦ by simpa using (beq_iff_eq.1 h).trans (beq_iff_eq.1 h')⟩

end Cppkg.Differ
