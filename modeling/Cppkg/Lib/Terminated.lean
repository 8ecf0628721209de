import Mathlib.Data.List.Basic

/-!
# Terminated blocks

A text made of blocks that each end in a terminator and do not contain it otherwise has only
one reading: `append_cons_inj` for its first block, `flatten_inj` for all of them.
-/

namespace Terminated

variable {α : Type*} {c : α}

/-- A block ends at the first terminator. -/
theorem append_cons_inj {xs ys us vs : List α} (hx : c ∉ xs) (hy : c ∉ ys) :
    xs ++ c :: us = ys ++ c :: vs ↔ xs = ys ∧ us = vs := by
  constructor
  · intro h
    induction xs generalizing ys with
    | nil =>
      cases ys with
      | nil => exact ⟨rfl, (List.cons.inj h).2⟩
      | cons y ys => exact absurd ((List.cons.inj h).1 ▸ List.mem_cons_self) hy
    | cons x xs ih =>
      cases ys with
      | nil => exact absurd ((List.cons.inj h).1 ▸ List.mem_cons_self) hx
      | cons y ys =>
        obtain ⟨hxy, h⟩ := List.cons.inj h
        obtain ⟨rfl, rfl⟩ :=
          ih (fun hc ↦ hx (List.mem_cons_of_mem _ hc)) (fun hc ↦ hy (List.mem_cons_of_mem _ hc)) h
        exact ⟨by rw [hxy], rfl⟩
  · rintro ⟨rfl, rfl⟩
    rfl

/-- A block with its terminator. -/
def IsBlock (c : α) (l : List α) : Prop := ∃ b, c ∉ b ∧ l = b ++ [c]

theorem IsBlock.ne_nil {l : List α} (h : IsBlock c l) : l ≠ [] := by
  obtain ⟨b, -, rfl⟩ := h
  simp

/-- A text has only one list of blocks. -/
theorem flatten_inj {as bs : List (List α)} (ha : ∀ a ∈ as, IsBlock c a)
    (hb : ∀ b ∈ bs, IsBlock c b) (h : as.flatten = bs.flatten) : as = bs := by
  induction as generalizing bs with
  | nil =>
    cases bs with
    | nil => rfl
    | cons b bs => exact absurd (List.append_eq_nil_iff.1 h.symm).1 (hb b List.mem_cons_self).ne_nil
  | cons a as ih =>
    cases bs with
    | nil => exact absurd (List.append_eq_nil_iff.1 h).1 (ha a List.mem_cons_self).ne_nil
    | cons b bs =>
      rw [List.forall_mem_cons] at ha hb
      obtain ⟨xs, hx, rfl⟩ := ha.1
      obtain ⟨ys, hy, rfl⟩ := hb.1
      rw [List.flatten_cons, List.flatten_cons, List.append_assoc, List.append_assoc,
        List.singleton_append, List.singleton_append, append_cons_inj hx hy] at h
      rw [h.1, ih ha.2 hb.2 h.2]

end Terminated
