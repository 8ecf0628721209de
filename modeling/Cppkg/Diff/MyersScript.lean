import Cppkg.Diff.MyersBacktrace

/-!
# The difference list is a shortest edit script

What `myers_diff` promises its callers, read off from the path its entries record
(`Entries`, `myersDiff_spec`):

* `myersDiff_isEditScript`: the entries are a valid edit script (`IsEditScript`), that is,
  the positions and values of both arrays appear in order, and only elements that compare
  are matched;
* `myersDiff_minimal`: no edit script has fewer insertions and deletions.
-/

namespace Cppkg.Differ

open EditGraph

variable {α : Type} {comparator : α → α → Bool} {orig updated : List α}

/-- The entries that stand for an element of the original array. -/
def Diff.inOrig (e : Diff α) : Bool := e.action != .add

/-- The entries that stand for an element of the updated array. -/
def Diff.inUpdated (e : Diff α) : Bool := e.action != .del

/-- The values of the original array that a difference list goes through. -/
def origVals (diffs : List (Diff α)) : List α := (diffs.filter Diff.inOrig).map Diff.val

/-- The values of the updated array that a difference list goes through. -/
def updatedVals (diffs : List (Diff α)) : List α := (diffs.filter Diff.inUpdated).map Diff.val

/-- The number of insertions and deletions. -/
def editCount (diffs : List (Diff α)) : ℕ := diffs.countP fun e ↦ e.action != .eq

/-- A valid edit script from `orig` to `updated`. -/
structure IsEditScript (comparator : α → α → Bool) (orig updated : List α)
    (diffs : List (Diff α)) : Prop where
  /-- Matched and deleted entries go through the original array in order. -/
  orig_positions : (diffs.filter Diff.inOrig).map Diff.orig =
    (List.range orig.length).map fun i : ℕ ↦ (i : ℤ)
  orig_val : ∀ e ∈ diffs, e.inOrig = true → readAt orig e.orig = .ok e.val
  /-- Matched and added entries go through the updated array in order. -/
  updated_positions : (diffs.filter Diff.inUpdated).map Diff.updated =
    (List.range updated.length).map fun j : ℕ ↦ (j : ℤ)
  added_val : ∀ e ∈ diffs, e.action = .add → readAt updated e.updated = .ok e.val
  del_updated : ∀ e ∈ diffs, e.action = .del → e.updated = -1
  add_orig : ∀ e ∈ diffs, e.action = .add → e.orig = -1
  /-- Only elements that compare are matched. -/
  eq_compares : ∀ e ∈ diffs, e.action = .eq → ∃ a b, readAt orig e.orig = .ok a ∧
    readAt updated e.updated = .ok b ∧ comparator a b = true

/-! ### Entries of a path -/

section Entries

variable {i j n m : ℕ} {p : List Move} {ds : List (Diff α)}

theorem Entries.orig_positions (h : Entries orig updated i j p ds) :
    (ds.filter Diff.inOrig).map Diff.orig =
      (List.range' i (width p)).map fun i : ℕ ↦ (i : ℤ) := by
  induction h with
  | nil => rfl
  | keep _ _ ih =>
    rw [width_keep, List.range'_succ, List.map_cons, ← ih]
    rfl
  | del _ _ ih =>
    rw [width_del, List.range'_succ, List.map_cons, ← ih]
    rfl
  | ins _ _ ih =>
    rw [width_ins, ← ih]
    rfl

theorem Entries.updated_positions (h : Entries orig updated i j p ds) :
    (ds.filter Diff.inUpdated).map Diff.updated =
      (List.range' j (height p)).map fun j : ℕ ↦ (j : ℤ) := by
  induction h with
  | nil => rfl
  | keep _ _ ih =>
    rw [height_keep, List.range'_succ, List.map_cons, ← ih]
    rfl
  | del _ _ ih =>
    rw [height_del, ← ih]
    rfl
  | ins _ _ ih =>
    rw [height_ins, List.range'_succ, List.map_cons, ← ih]
    rfl

/-- The shape of every entry of a path whose diagonal steps are matches. -/
theorem Entries.forall_mem (hp : Path (Compares comparator orig updated) i j p n m)
    (h : Entries orig updated i j p ds) : ∀ e ∈ ds,
      (e.action = .eq ∧ readAt orig e.orig = .ok e.val ∧
        ∃ b, readAt updated e.updated = .ok b ∧ comparator e.val b = true) ∨
      (e.action = .add ∧ e.orig = -1 ∧ readAt updated e.updated = .ok e.val) ∨
      (e.action = .del ∧ e.updated = -1 ∧ readAt orig e.orig = .ok e.val) := by
  induction h with
  | nil => simp
  | keep ha _ ih =>
    cases hp with
    | keep hM hp =>
      refine List.forall_mem_cons.2 ⟨Or.inl ⟨rfl, readAt_of_getElem? ha, ?_⟩, ih hp⟩
      obtain ⟨a, b, ha', hb, hab⟩ := hM
      rw [ha] at ha'
      cases ha'
      exact ⟨b, readAt_of_getElem? hb, hab⟩
  | del ha _ ih =>
    cases hp with
    | del hp =>
      exact List.forall_mem_cons.2 ⟨Or.inr (Or.inr ⟨rfl, rfl, readAt_of_getElem? ha⟩), ih hp⟩
  | ins hb _ ih =>
    cases hp with
    | ins hp =>
      exact List.forall_mem_cons.2 ⟨Or.inr (Or.inl ⟨rfl, rfl, readAt_of_getElem? hb⟩), ih hp⟩

theorem Entries.origVals_eq (h : Entries orig updated i j p ds) :
    origVals ds = (orig.drop i).take (width p) := by
  induction h with
  | nil => simp [origVals]
  | keep ha _ ih =>
    obtain ⟨hlt, ha⟩ := List.getElem?_eq_some_iff.1 ha
    rw [width_keep, List.drop_eq_getElem_cons hlt, List.take_succ_cons, ← ih, ha]
    rfl
  | del ha _ ih =>
    obtain ⟨hlt, ha⟩ := List.getElem?_eq_some_iff.1 ha
    rw [width_del, List.drop_eq_getElem_cons hlt, List.take_succ_cons, ← ih, ha]
    rfl
  | ins _ _ ih =>
    rw [width_ins, ← ih]
    rfl

theorem Entries.updatedVals_eq (hcmp : ∀ a b, comparator a b = true → a = b)
    (hp : Path (Compares comparator orig updated) i j p n m)
    (h : Entries orig updated i j p ds) :
    updatedVals ds = (updated.drop j).take (height p) := by
  induction h with
  | nil => simp [updatedVals]
  | @keep _ _ _ _ a ha _ ih =>
    cases hp with
    | keep hM hp =>
      obtain ⟨a', b, ha', hb, hab⟩ := hM
      rw [ha] at ha'
      cases ha'
      obtain ⟨hlt, hb⟩ := List.getElem?_eq_some_iff.1 hb
      rw [height_keep, List.drop_eq_getElem_cons hlt, List.take_succ_cons, ← ih hp, hb,
        ← hcmp a b hab]
      rfl
  | del _ _ ih =>
    cases hp with
    | del hp =>
      rw [height_del, ← ih hp]
      rfl
  | ins hb _ ih =>
    cases hp with
    | ins hp =>
      obtain ⟨hlt, hb⟩ := List.getElem?_eq_some_iff.1 hb
      rw [height_ins, List.drop_eq_getElem_cons hlt, List.take_succ_cons, ← ih hp, hb]
      rfl

theorem Entries.editCount_eq (h : Entries orig updated i j p ds) : editCount ds = cost p := by
  induction h with
  | nil => rfl
  | keep _ _ ih =>
    rw [cost_keep, ← ih]
    simp [editCount]
  | del _ _ ih =>
    rw [cost_del, ← ih]
    simp [editCount]
  | ins _ _ ih =>
    rw [cost_ins, ← ih]
    simp [editCount]

/-- The entries of a path across both arrays are an edit script. -/
theorem Entries.isEditScript
    (hp : Path (Compares comparator orig updated) 0 0 p orig.length updated.length)
    (h : Entries orig updated 0 0 p ds) : IsEditScript comparator orig updated ds := by
  obtain ⟨hw, hh⟩ := hp.end_eq
  rw [Nat.zero_add] at hw hh
  have hmem := h.forall_mem hp
  refine ⟨?_, ?_, ?_, ?_, ?_, ?_, ?_⟩
  · rw [h.orig_positions, ← hw, List.range_eq_range']
  · intro e he hin
    rcases hmem e he with ⟨-, hv, -⟩ | ⟨ha, -⟩ | ⟨-, -, hv⟩
    · exact hv
    · simp [Diff.inOrig, ha] at hin
    · exact hv
  · rw [h.updated_positions, ← hh, List.range_eq_range']
  · intro e he ha
    rcases hmem e he with ⟨ha', -⟩ | ⟨-, -, hv⟩ | ⟨ha', -⟩
    · simp [ha] at ha'
    · exact hv
    · simp [ha] at ha'
  · intro e he ha
    rcases hmem e he with ⟨ha', -⟩ | ⟨ha', -⟩ | ⟨-, hu, -⟩
    · simp [ha] at ha'
    · simp [ha] at ha'
    · exact hu
  · intro e he ha
    rcases hmem e he with ⟨ha', -⟩ | ⟨-, ho, -⟩ | ⟨ha', -⟩
    · simp [ha] at ha'
    · exact ho
    · simp [ha] at ha'
  · intro e he ha
    rcases hmem e he with ⟨-, hv, b, hb, hab⟩ | ⟨ha', -⟩ | ⟨ha', -⟩
    · exact ⟨e.val, b, hv, hb, hab⟩
    · simp [ha] at ha'
    · simp [ha] at ha'

end Entries

/-! ### The two guarantees -/

/-- **`myers_diff` returns an edit script.** It does so without leaving any of its arrays,
as an access outside of one would be a fault, and for an equality comparison the two value
sequences are the arrays themselves. -/
theorem myersDiff_isEditScript (comparator : α → α → Bool) (orig updated : List α)
    (h : orig.length + updated.length ≤ 16383) :
    ∃ diffs, (∀ fuel, orig.length + updated.length + 2 ≤ fuel →
        myersDiff comparator orig updated fuel = .ok diffs) ∧
      IsEditScript comparator orig updated diffs ∧
      origVals diffs = orig ∧
      ((∀ a b, comparator a b = true → a = b) → updatedVals diffs = updated) := by
  obtain ⟨hp, -⟩ := shortestPath_spec (confined_compares comparator orig updated)
  obtain ⟨hw, hh⟩ := hp.end_eq
  rw [Nat.zero_add] at hw hh
  obtain ⟨ds, hds, hrun⟩ := myersDiff_spec comparator h
  refine ⟨ds, hrun, hds.isEditScript hp, ?_, fun hcmp ↦ ?_⟩
  · rw [hds.origVals_eq, ← hw, List.drop_zero, List.take_length]
  · rw [hds.updatedVals_eq hcmp hp, ← hh, List.drop_zero, List.take_length]

/-- The edit script of two short words. -/
theorem myersDiff_isEditScript_words :
    ∃ diffs, (∀ fuel, 9 ≤ fuel →
        myersDiff (fun a b : ℕ ↦ a == b) [1, 2, 3, 1] [3, 2, 1] fuel = .ok diffs) ∧
      IsEditScript (fun a b : ℕ ↦ a == b) [1, 2, 3, 1] [3, 2, 1] diffs ∧
      origVals diffs = [1, 2, 3, 1] ∧
      ((∀ a b : ℕ, (a == b) = true → a = b) → updatedVals diffs = [3, 2, 1]) :=
  myersDiff_isEditScript (fun a b : ℕ ↦ a == b) [1, 2, 3, 1] [3, 2, 1] (by decide)

/-- **`myers_diff` is minimal.** No path between the same corners has fewer insertions and
deletions, and their number is settled by a longest common subsequence, that is, by a
longest matching under the comparator. -/
theorem myersDiff_minimal (comparator : α → α → Bool) (orig updated : List α)
    (h : orig.length + updated.length ≤ 16383) :
    ∃ diffs, (∀ fuel, orig.length + updated.length + 2 ≤ fuel →
        myersDiff comparator orig updated fuel = .ok diffs) ∧
      (∀ p, Path (Compares comparator orig updated) 0 0 p orig.length updated.length →
        editCount diffs ≤ cost p) ∧
      ∃ l, IsGreatest {l | ∃ ps, Matching (Compares comparator orig updated) ps ∧
          ps.length = l} l ∧
        editCount diffs + 2 * l = orig.length + updated.length := by
  have hM := confined_compares comparator orig updated
  obtain ⟨ds, hds, hrun⟩ := myersDiff_spec comparator h
  refine ⟨ds, hrun, fun p hp ↦ ?_, ?_⟩
  · rw [hds.editCount_eq]
    exact cost_shortestPath_le hM hp
  · rw [hds.editCount_eq, (shortestPath_spec hM).2]
    exact exists_isGreatest_matching hM

/-- The least number of edits between two short words. -/
theorem myersDiff_minimal_words :
    ∃ diffs, (∀ fuel, 9 ≤ fuel →
        myersDiff (fun a b : ℕ ↦ a == b) [1, 2, 3, 1] [3, 2, 1] fuel = .ok diffs) ∧
      (∀ p, Path (Compares (fun a b : ℕ ↦ a == b) [1, 2, 3, 1] [3, 2, 1]) 0 0 p 4 3 →
        editCount diffs ≤ cost p) ∧
      ∃ l, IsGreatest {l | ∃ ps, Matching
          (Compares (fun a b : ℕ ↦ a == b) [1, 2, 3, 1] [3, 2, 1]) ps ∧ ps.length = l} l ∧
        editCount diffs + 2 * l = 7 :=
  myersDiff_minimal (fun a b : ℕ ↦ a == b) [1, 2, 3, 1] [3, 2, 1] (by decide)

end Cppkg.Differ
