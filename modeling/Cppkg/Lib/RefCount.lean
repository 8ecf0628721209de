import Mathlib.Data.Set.Card
import Mathlib.Logic.Function.Basic

/-!
# Reference counts

Handles share objects: a handle holds at most one object, and an object may be held by many. Its
reference count is the number of handles that hold it (`Counts`). The count goes up by one when an
empty handle is given the object, and down by one when a handle lets go of it, so it comes to zero
exactly when no handle is left.

The loop rules are for code that gives or takes the objects of many handles one after the other:
what every turn preserves, with the handles as they stand then, holds at the end with the handles
all filled (`foldl_fill`) or all empty (`foldl_clear`).
-/

open Function

namespace RefCount

variable {H T σ : Type*}

/-- Every object is counted once for each handle that holds it. -/
structure Counts (hold : H → Option T) (count : T → ℕ) : Prop where
  finite : ∀ t, {h | hold h = some t}.Finite
  ncard_eq : ∀ t, {h | hold h = some t}.ncard = count t

variable {hold : H → Option T} {count : T → ℕ} {h : H} {t : T}

namespace Counts

theorem empty : Counts (fun _ : H ↦ (none : Option T)) fun _ ↦ 0 := by
  constructor <;> simp

/-- An object is held exactly when its count is positive. -/
theorem pos_iff (hc : Counts hold count) : 0 < count t ↔ ∃ h, hold h = some t := by
  rw [← hc.ncard_eq, Set.ncard_pos (hc.finite t)]
  rfl

variable [DecidableEq H] [DecidableEq T]

/-- An empty handle is given an object. -/
theorem acquire (hc : Counts hold count) (hh : hold h = none) :
    Counts (update hold h (some t)) (update count t (count t + 1)) := by
  have hholders : ∀ u, {k | update hold h (some t) k = some u} =
      if u = t then insert h {k | hold k = some u} else {k | hold k = some u} := by
    intro u
    ext k
    by_cases hk : k = h
    · by_cases hu : u = t
      · simp [hk, hu]
      · simp [hk, hu, hh, Ne.symm hu]
    · by_cases hu : u = t <;> simp [hk, hu]
  refine ⟨fun u ↦ ?_, fun u ↦ ?_⟩
  · rw [hholders]
    split
    · exact (hc.finite u).insert h
    · exact hc.finite u
  · rw [hholders]
    by_cases hu : u = t
    · rw [if_pos hu, Set.ncard_insert_of_notMem (by simp [hh]) (hc.finite u), hc.ncard_eq, hu,
        update_self]
    · rw [if_neg hu, hc.ncard_eq, update_of_ne hu]

/-- A handle lets go of its object. -/
theorem release (hc : Counts hold count) (hh : hold h = some t) :
    Counts (update hold h none) (update count t (count t - 1)) := by
  have hholders : ∀ u, {k | update hold h none k = some u} = {k | hold k = some u} \ {h} := by
    intro u
    ext k
    by_cases hk : k = h <;> simp [hk]
  refine ⟨fun u ↦ ?_, fun u ↦ ?_⟩
  · rw [hholders]
    exact (hc.finite u).sdiff
  · rw [hholders]
    by_cases hu : u = t
    · subst hu
      rw [Set.ncard_sdiff_singleton_of_mem (show h ∈ {k | hold k = some u} from hh), hc.ncard_eq,
        update_self]
    · have hnot : h ∉ {k | hold k = some u} := fun hmem ↦
        hu (Option.some.inj ((show hold h = some u from hmem).symm.trans hh))
      rw [Set.sdiff_singleton_eq_self hnot, hc.ncard_eq, update_of_ne hu]

end Counts

/-! ### Loops over handles -/

variable [DecidableEq H]

/-- The handles are given their objects, one after the other. -/
def fill (hold : H → Option T) (l : List (H × T)) : H → Option T :=
  l.foldl (fun hold p ↦ update hold p.1 (some p.2)) hold

/-- The handles let go of their objects, one after the other. -/
def clear (hold : H → Option T) (l : List (H × T)) : H → Option T :=
  l.foldl (fun hold p ↦ update hold p.1 none) hold

theorem clear_apply {l : List (H × T)} :
    clear hold l h = if h ∈ l.map Prod.fst then none else hold h := by
  induction l generalizing hold with
  | nil => simp [clear]
  | cons p l ih =>
    refine (@ih (update hold p.1 none)).trans ?_
    by_cases hp : h = p.1
    · simp [hp]
    · simp only [List.map_cons, List.mem_cons, hp, false_or, update_of_ne hp]

theorem fill_eq_some_iff {l : List (H × T)} (hl : (l.map Prod.fst).Nodup) :
    fill hold l h = some t ↔ (h, t) ∈ l ∨ h ∉ l.map Prod.fst ∧ hold h = some t := by
  induction l generalizing hold with
  | nil => simp [fill]
  | cons p l ih =>
    rw [List.map_cons, List.nodup_cons] at hl
    refine (@ih (update hold p.1 (some p.2)) hl.2).trans ?_
    by_cases hp : h = p.1
    · subst hp
      have hnot : (p.1, t) ∉ l := fun hmem ↦ hl.1 (List.mem_map.2 ⟨_, hmem, rfl⟩)
      simp [hl.1, hnot, Prod.ext_iff, eq_comm]
    · simp [hp, Prod.ext_iff]

/-- **The rule for a loop that fills handles** with objects that are held elsewhere. -/
theorem foldl_fill {P : (H → Option T) → σ → Prop} {retain : σ → T → σ}
    (hstep : ∀ hold s h t, P hold s → hold h = none → (∃ k, hold k = some t) →
      P (update hold h (some t)) (retain s t))
    {l : List (H × T)} (hl : (l.map Prod.fst).Nodup) (hnone : ∀ p ∈ l, hold p.1 = none)
    (hheld : ∀ p ∈ l, ∃ k, hold k = some p.2) {s : σ} (h : P hold s) :
    P (fill hold l) ((l.map Prod.snd).foldl retain s) := by
  induction l generalizing hold s with
  | nil => exact h
  | cons p l ih =>
    rw [List.map_cons, List.nodup_cons] at hl
    rw [List.forall_mem_cons] at hnone hheld
    refine ih hl.2 (fun q hq ↦ ?_) (fun q hq ↦ ?_) (hstep hold s p.1 p.2 h hnone.1 hheld.1)
    · have hne : q.1 ≠ p.1 := fun heq ↦ hl.1 (heq ▸ List.mem_map_of_mem (f := Prod.fst) hq)
      exact (update_of_ne hne _ _).trans (hnone.2 q hq)
    · obtain ⟨k, hk⟩ := hheld.2 q hq
      have hne : k ≠ p.1 := by
        rintro rfl
        simp [hnone.1] at hk
      exact ⟨k, (update_of_ne hne _ _).trans hk⟩

/-- **The rule for a loop that empties handles.** -/
theorem foldl_clear {P : (H → Option T) → σ → Prop} {release : σ → T → σ}
    (hstep : ∀ hold s h t, P hold s → hold h = some t → P (update hold h none) (release s t))
    {l : List (H × T)} (hl : (l.map Prod.fst).Nodup) (hhold : ∀ p ∈ l, hold p.1 = some p.2) {s : σ}
    (h : P hold s) : P (clear hold l) ((l.map Prod.snd).foldl release s) := by
  induction l generalizing hold s with
  | nil => exact h
  | cons p l ih =>
    rw [List.map_cons, List.nodup_cons] at hl
    rw [List.forall_mem_cons] at hhold
    refine ih hl.2 (fun q hq ↦ ?_) (hstep hold s p.1 p.2 h hhold.1)
    have hne : q.1 ≠ p.1 := fun heq ↦ hl.1 (heq ▸ List.mem_map_of_mem (f := Prod.fst) hq)
    exact (update_of_ne hne _ _).trans (hhold.2 q hq)

end RefCount
