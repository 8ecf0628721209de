import Cppkg.Diff.Batches

/-!
# The order of the changes

A shortest script is not unique, and `myers_diff` settles which one it returns by the comparison
of two entries of the trace: the insertion is preferred only where it is strictly ahead. So the
moves of the path that its entries record never delete after an insertion
(`isChain_shortestPath`), and between two matches all deletions come before all insertions.
-/

namespace Cppkg.Differ

open EditGraph

variable {α : Type}

/-- Entries whose moves delete first, and then insert. -/
theorem exists_dels_adds {run : List (Diff α)} {a b : ℕ}
    (h : run.map Diff.move = List.replicate a .del ++ List.replicate b .ins) :
    ∃ dels adds, run = dels ++ adds ∧ (∀ e ∈ dels, e.action = .del) ∧
      ∀ e ∈ adds, e.action = .add := by
  obtain ⟨dels, adds, rfl, hdels, hadds⟩ := List.map_eq_append_iff.1 h
  refine ⟨dels, adds, rfl, fun e he ↦ ?_, fun e he ↦ ?_⟩
  · exact Diff.move_eq_del.1 ((List.eq_replicate_iff.1 hdels).2 _ (List.mem_map_of_mem he))
  · exact Diff.move_eq_ins.1 ((List.eq_replicate_iff.1 hadds).2 _ (List.mem_map_of_mem he))

/-- **Deletions first.** In the list that `myers_diff` returns no added element is directly
followed by a deleted one, and every run of changes is deletions, followed by additions. -/
theorem myersDiff_deletions_first (comparator : α → α → Bool) (orig updated : List α)
    (h : orig.length + updated.length ≤ 16383) :
    ∃ diffs, (∀ fuel, orig.length + updated.length + 2 ≤ fuel →
        myersDiff comparator orig updated fuel = .ok diffs) ∧
      (∀ i e e', diffs[i]? = some e → diffs[i + 1]? = some e' →
        ¬ (e.action = .add ∧ e'.action = .del)) ∧
      ∀ run, run <:+: diffs → (∀ e ∈ run, e.action ≠ .eq) →
        ∃ dels adds, run = dels ++ adds ∧ (∀ e ∈ dels, e.action = .del) ∧
          ∀ e ∈ adds, e.action = .add := by
  obtain ⟨diffs, hdiffs, hrun⟩ := myersDiff_spec comparator h
  have hchain := isChain_shortestPath (confined_compares comparator orig updated)
  rw [← hdiffs.map_move] at hchain
  refine ⟨diffs, hrun, ?_, fun run hwindow hchange ↦ ?_⟩
  · rintro i e e' he he' ⟨hadd, hdel⟩
    obtain ⟨hi', rfl⟩ := List.getElem?_eq_some_iff.1 he'
    obtain ⟨hi, rfl⟩ := List.getElem?_eq_some_iff.1 he
    refine List.isChain_iff_getElem.1 hchain i (by simpa using hi') ?_
    simp [Diff.move, hadd, hdel]
  · have hmoves := hchain.infix (hwindow.map Diff.move)
    obtain ⟨a, b, hab⟩ := exists_eq_replicate_append hmoves fun hkeep ↦ by
      obtain ⟨e, he, hk⟩ := List.mem_map.1 hkeep
      exact hchange e he (Diff.move_eq_keep.1 hk)
    exact exists_dels_adds hab

/-- The order of the changes between two short words. -/
theorem myersDiff_deletions_first_words :
    ∃ diffs, (∀ fuel, 9 ≤ fuel →
        myersDiff (fun a b : ℕ ↦ a == b) [1, 2, 3, 1] [3, 2, 1] fuel = .ok diffs) ∧
      (∀ i e e', diffs[i]? = some e → diffs[i + 1]? = some e' →
        ¬ (e.action = .add ∧ e'.action = .del)) ∧
      ∀ run, run <:+: diffs → (∀ e ∈ run, e.action ≠ .eq) →
        ∃ dels adds, run = dels ++ adds ∧ (∀ e ∈ dels, e.action = .del) ∧
          ∀ e ∈ adds, e.action = .add :=
  myersDiff_deletions_first (fun a b : ℕ ↦ a == b) [1, 2, 3, 1] [3, 2, 1] (by decide)

end Cppkg.Differ
