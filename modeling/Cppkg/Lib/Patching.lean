import Mathlib.Data.List.Basic

/-!
# Patches

An alignment goes through two lists at once and keeps, inserts or removes one element at a time.
Its changes are a patch: each is told with its position, an insertion by that in the second list
and a removal by that in the first, and what is kept lies between them. `apply` reads a patch
against the first list and fails where it does not fit; the patch of an alignment leads from the
first list to the second (`apply_changes`). Read backwards (`Change.flip`) it leads from the second
to the first.
-/

namespace Patching

variable {α : Type*}

/-- One step of an alignment. -/
inductive Move (α : Type*) where
  | keep (a : α)
  | insert (a : α)
  | remove (a : α)

/-- An element that is inserted or removed at a position. -/
inductive Change (α : Type*) where
  | insert (n : ℕ) (a : α)
  | remove (n : ℕ) (a : α)
  deriving DecidableEq, Repr

/-- The first list of an alignment. -/
def source : List (Move α) → List α
  | [] => []
  | .keep a :: ms => a :: source ms
  | .insert _ :: ms => source ms
  | .remove a :: ms => a :: source ms

/-- The second list of an alignment. -/
def target : List (Move α) → List α
  | [] => []
  | .keep a :: ms => a :: target ms
  | .insert a :: ms => a :: target ms
  | .remove _ :: ms => target ms

/-- The changes of an alignment behind `o` and `u` elements of the two lists. -/
def changes : ℕ → ℕ → List (Move α) → List (Change α)
  | _, _, [] => []
  | o, u, .keep _ :: ms => changes (o + 1) (u + 1) ms
  | o, u, .insert a :: ms => .insert u a :: changes o (u + 1) ms
  | o, u, .remove a :: ms => .remove o a :: changes (o + 1) u ms

/-- The change is behind `o` and `u` elements. -/
def Change.Behind (o u : ℕ) : Change α → Prop
  | insert n _ => u ≤ n
  | remove n _ => o ≤ n

theorem Change.Behind.mono {c : Change α} {o u o' u' : ℕ} (h : c.Behind o' u') (ho : o ≤ o')
    (hu : u ≤ u') : c.Behind o u := by
  cases c with
  | insert n a => exact Nat.le_trans hu h
  | remove n a => exact Nat.le_trans ho h

theorem behind_of_mem_changes {ms : List (Move α)} {o u : ℕ} {c : Change α}
    (h : c ∈ changes o u ms) : c.Behind o u := by
  induction ms generalizing o u with
  | nil => cases h
  | cons m ms ih =>
    cases m with
    | keep a => exact (ih h).mono (Nat.le_succ o) (Nat.le_succ u)
    | insert a =>
      rcases List.mem_cons.1 h with rfl | h
      · exact Nat.le_refl u
      · exact (ih h).mono (Nat.le_refl o) (Nat.le_succ u)
    | remove a =>
      rcases List.mem_cons.1 h with rfl | h
      · exact Nat.le_refl o
      · exact (ih h).mono (Nat.le_succ o) (Nat.le_refl u)

section Apply

variable [DecidableEq α]

/-- Changes are applied to what is left of the first list behind `o` elements, of which `u` of the
second have come. -/
def apply : ℕ → ℕ → List (Change α) → List α → Option (List α)
  | _, _, [], l => some l
  | o, u, .insert n a :: cs, l =>
    if u ≤ n ∧ n - u ≤ l.length then
      (apply (o + (n - u)) (n + 1) cs (l.drop (n - u))).map (l.take (n - u) ++ a :: ·)
    else none
  | o, u, .remove n a :: cs, l =>
    if o ≤ n ∧ l[n - o]? = some a then
      (apply (n + 1) (u + (n - o)) cs (l.drop (n - o + 1))).map (l.take (n - o) ++ ·)
    else none

/-- An element in front of all changes is kept. -/
theorem apply_cons {o u : ℕ} {cs : List (Change α)} (h : ∀ c ∈ cs, c.Behind (o + 1) (u + 1))
    (a : α) (l : List α) :
    apply o u cs (a :: l) = (apply (o + 1) (u + 1) cs l).map (a :: ·) := by
  cases cs with
  | nil => rfl
  | cons c cs =>
    have hc := h c List.mem_cons_self
    cases c with
    | insert n b =>
      obtain ⟨k, rfl⟩ := Nat.exists_eq_add_of_le hc
      have hk : u + 1 + k - u = k + 1 := by omega
      have hk' : u + 1 + k - (u + 1) = k := by omega
      have ho : o + (k + 1) = o + 1 + k := by omega
      simp only [apply, hk, hk', ho, List.length_cons, List.drop_succ_cons, List.take_succ_cons,
        Nat.add_le_add_iff_right]
      by_cases hl : k ≤ l.length
      · rw [if_pos ⟨by omega, hl⟩, if_pos ⟨by omega, hl⟩, Option.map_map]
        rfl
      · rw [if_neg fun hcond ↦ hl hcond.2, if_neg fun hcond ↦ hl hcond.2]
        rfl
    | remove n b =>
      obtain ⟨k, rfl⟩ := Nat.exists_eq_add_of_le hc
      have hk : o + 1 + k - o = k + 1 := by omega
      have hk' : o + 1 + k - (o + 1) = k := by omega
      have hu : u + (k + 1) = u + 1 + k := by omega
      simp only [apply, hk, hk', hu, List.getElem?_cons_succ, List.drop_succ_cons,
        List.take_succ_cons]
      by_cases hl : l[k]? = some b
      · rw [if_pos ⟨by omega, hl⟩, if_pos ⟨by omega, hl⟩, Option.map_map]
        rfl
      · rw [if_neg fun hcond ↦ hl hcond.2, if_neg fun hcond ↦ hl hcond.2]
        rfl

/-- **The changes of an alignment lead from its first list to its second.** -/
theorem apply_changes (o u : ℕ) (ms : List (Move α)) :
    apply o u (changes o u ms) (source ms) = some (target ms) := by
  induction ms generalizing o u with
  | nil => rfl
  | cons m ms ih =>
    cases m with
    | keep a =>
      rw [changes, source, target, apply_cons (fun c hc ↦ behind_of_mem_changes hc), ih]
      rfl
    | insert a => simp [changes, source, target, apply, ih]
    | remove a => simp [changes, source, target, apply, ih]

end Apply

/-! ### Backwards -/

/-- The step with the two lists exchanged. -/
def Move.flip : Move α → Move α
  | keep a => keep a
  | insert a => remove a
  | remove a => insert a

/-- The change that takes this one back. -/
def Change.flip : Change α → Change α
  | insert n a => remove n a
  | remove n a => insert n a

theorem source_map_flip (ms : List (Move α)) : source (ms.map Move.flip) = target ms := by
  induction ms with
  | nil => rfl
  | cons m ms ih => cases m <;> simp [Move.flip, source, target, ih]

theorem target_map_flip (ms : List (Move α)) : target (ms.map Move.flip) = source ms := by
  induction ms with
  | nil => rfl
  | cons m ms ih => cases m <;> simp [Move.flip, source, target, ih]

theorem changes_map_flip (o u : ℕ) (ms : List (Move α)) :
    changes u o (ms.map Move.flip) = (changes o u ms).map Change.flip := by
  induction ms generalizing o u with
  | nil => rfl
  | cons m ms ih => cases m <;> simp [Move.flip, Change.flip, changes, ih]

/-- **The changes taken back lead from the second list to the first.** -/
theorem apply_flip_changes [DecidableEq α] (o u : ℕ) (ms : List (Move α)) :
    apply u o ((changes o u ms).map Change.flip) (target ms) = some (source ms) := by
  rw [← changes_map_flip, ← source_map_flip, apply_changes, target_map_flip]

end Patching
