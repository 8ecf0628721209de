import Mathlib.Data.List.Nodup
import Mathlib.Logic.Function.Basic

/-!
# Renaming one after the other

A store maps locations to contents, and a move takes the contents of one location to another, in
place of what is there. Moving a location to itself changes nothing, and moving from where there is
nothing fails. `moves` makes a list of moves in its order.

The list is one of pairs of a source and a destination, some of which may be left out because they
go nowhere (`Skips`). When is such a list as good as moving everything at once, so that no move
replaces anything and all contents arrive (`Lossless`)? If the destinations are distinct and none
of them is the source of an *earlier* move, exactly when the sources are distinct and the
destinations are free at the beginning (`Skips.lossless_iff`). Without the second assumption an
earlier move may make room for a later one.
-/

open Function

namespace Renames

variable {L γ : Type*} [DecidableEq L]

/-- The store with the contents of the first location at the second. -/
def moved (fs : L → Option γ) (m : L × L) : L → Option γ :=
  if m.1 = m.2 then fs else update (update fs m.2 (fs m.1)) m.1 none

/-- One move. -/
def move (fs : L → Option γ) (m : L × L) : Option (L → Option γ) :=
  if (fs m.1).isNone then none else some (moved fs m)

/-- Moves in their order, up to one that fails. -/
def moves : (L → Option γ) → List (L × L) → Option (L → Option γ)
  | fs, [] => some fs
  | fs, m :: ms => (move fs m).bind fun fs' ↦ moves fs' ms

/-- Whatever is moved goes to a free location, or stays. -/
def NeverReplaces : (L → Option γ) → List (L × L) → Prop
  | _, [] => True
  | fs, m :: ms => (m.1 = m.2 ∨ fs m.2 = none) ∧ NeverReplaces (moved fs m) ms

/-- The moves `ms` succeed, replace nothing, and take the contents to where `es` says. -/
def Lossless (fs : L → Option γ) (es ms : List (L × L)) : Prop :=
  ∃ fs', moves fs ms = some fs' ∧ NeverReplaces fs ms ∧ ∀ e ∈ es, fs' e.2 = fs e.1

/-- The second list is the first without some moves that go nowhere. -/
inductive Skips : List (L × L) → List (L × L) → Prop
  | nil : Skips [] []
  | keep {es ms : List (L × L)} (e : L × L) (h : Skips es ms) : Skips (e :: es) (e :: ms)
  | skip {es ms : List (L × L)} {e : L × L} (he : e.1 = e.2) (h : Skips es ms) :
      Skips (e :: es) ms

variable {fs fs' : L → Option γ} {m e e' : L × L} {es ms : List (L × L)} {l : L}

/-! ### One move -/

theorem moved_of_eq (h : m.1 = m.2) : moved fs m = fs := if_pos h

theorem moved_dst (m : L × L) : moved fs m m.2 = fs m.1 := by
  by_cases h : m.1 = m.2
  · rw [moved_of_eq h, h]
  · rw [moved, if_neg h, update_of_ne (Ne.symm h), update_self]

theorem moved_src (h : m.1 ≠ m.2) : moved fs m m.1 = none := by
  rw [moved, if_neg h, update_self]

theorem moved_of_ne (h₁ : l ≠ m.1) (h₂ : l ≠ m.2) : moved fs m l = fs l := by
  by_cases h : m.1 = m.2
  · rw [moved_of_eq h]
  · rw [moved, if_neg h, update_of_ne h₁, update_of_ne h₂]

/-- What is not moved away stays where it is, unless it is replaced. -/
theorem moved_eq_of_ne_src (h : l ≠ m.1) (hfree : m.1 = m.2 ∨ fs m.2 = none) (hl : fs l ≠ none) :
    moved fs m l = fs l := by
  by_cases h₂ : l = m.2
  · subst h₂
    rcases hfree with heq | hnone
    · exact absurd heq.symm h
    · exact absurd hnone hl
  · exact moved_of_ne h h₂

/-- A free location that nothing is moved to stays free. -/
theorem moved_eq_none (h : l ≠ m.2) (hl : fs l = none) : moved fs m l = none := by
  by_cases h₁ : l = m.1
  · subst h₁
    exact moved_src h
  · rw [moved_of_ne h₁ h, hl]

theorem moves_cons (h : moves fs (m :: ms) = some fs') :
    fs m.1 ≠ none ∧ moves (moved fs m) ms = some fs' := by
  obtain ⟨fs₁, hmove, hrest⟩ := Option.bind_eq_some_iff.1 h
  rw [move] at hmove
  split at hmove
  · cases hmove
  next hsome =>
    obtain rfl := Option.some.inj hmove
    exact ⟨fun hnone ↦ hsome (by rw [hnone]; rfl), hrest⟩

theorem moves_cons_eq (h : fs m.1 ≠ none) : moves fs (m :: ms) = moves (moved fs m) ms := by
  rw [moves, move, if_neg (by rwa [Option.isNone_iff_eq_none])]
  rfl

namespace Skips

/-- The first entry, whether it was left out or not. -/
theorem exists_of_cons (h : Skips (e :: es) ms) (hocc : fs e.1 ≠ none) :
    ∃ ms', Skips es ms' ∧ moves fs ms = moves (moved fs e) ms' ∧
      (NeverReplaces fs ms ↔ (e.1 = e.2 ∨ fs e.2 = none) ∧ NeverReplaces (moved fs e) ms') := by
  cases h with
  | @keep _ ms _ h => exact ⟨ms, h, moves_cons_eq hocc, Iff.rfl⟩
  | skip he h => exact ⟨ms, h, by rw [moved_of_eq he], by simp [moved_of_eq he, he]⟩

/-! ### When the destinations are free -/

/-- **Moves between distinct and free locations.** All contents arrive, and where nothing arrives
there is what was not moved away. The induction is on the list: a move keeps its assumptions for
the rest. -/
theorem exists_moves (h : Skips es ms) (hsrc : (es.map Prod.fst).Nodup)
    (hdst : (es.map Prod.snd).Nodup) (hocc : ∀ e ∈ es, fs e.1 ≠ none)
    (hfree : ∀ e ∈ es, e.1 = e.2 ∨ fs e.2 = none) :
    ∃ fs', moves fs ms = some fs' ∧ NeverReplaces fs ms ∧ (∀ e ∈ es, fs' e.2 = fs e.1) ∧
      ∀ l ∉ es.map Prod.snd, fs' l = if l ∈ es.map Prod.fst then none else fs l := by
  induction es generalizing fs ms with
  | nil =>
    cases h
    exact ⟨fs, rfl, trivial, by simp, by simp⟩
  | cons e es ih =>
    rw [List.map_cons, List.nodup_cons] at hsrc hdst
    rw [List.forall_mem_cons] at hocc hfree
    obtain ⟨hsrc₁, hsrc⟩ := hsrc
    obtain ⟨hdst₁, hdst⟩ := hdst
    have hocc' : ∀ e' ∈ es, moved fs e e'.1 = fs e'.1 := fun e' he' ↦
      moved_eq_of_ne_src (fun heq ↦ hsrc₁ (heq ▸ List.mem_map_of_mem he')) hfree.1 (hocc.2 e' he')
    have hfree' : ∀ e' ∈ es, e'.1 = e'.2 ∨ moved fs e e'.2 = none := fun e' he' ↦
      (hfree.2 e' he').imp id fun hnone ↦
        moved_eq_none (fun heq ↦ hdst₁ (heq ▸ List.mem_map_of_mem he')) hnone
    obtain ⟨ms', h', hmoves, hnever⟩ := h.exists_of_cons hocc.1
    obtain ⟨fs', hrun, hnever', harrive, hframe⟩ :=
      ih h' hsrc hdst (fun e' he' ↦ by rw [hocc' e' he']; exact hocc.2 e' he') hfree'
    -- what arrives at `e.2` is not moved on
    have hsrc₂ : e.2 ∉ es.map Prod.fst := by
      intro hmem
      obtain ⟨e', he', heq⟩ := List.mem_map.1 hmem
      rcases hfree.1 with hstay | hnone
      · exact hsrc₁ (hstay ▸ hmem)
      · exact hocc.2 e' he' (heq ▸ hnone)
    refine ⟨fs', hmoves.trans hrun, hnever.2 ⟨hfree.1, hnever'⟩, ?_, fun l hl ↦ ?_⟩
    · refine List.forall_mem_cons.2 ⟨?_, fun e' he' ↦ (harrive e' he').trans (hocc' e' he')⟩
      rw [hframe e.2 hdst₁, if_neg hsrc₂, moved_dst]
    · rw [List.map_cons, List.mem_cons, not_or] at hl
      rw [hframe l hl.2, List.map_cons]
      by_cases hle : l = e.1
      · subst hle
        rw [if_neg hsrc₁, if_pos List.mem_cons_self, moved_src hl.1]
      · simp only [List.mem_cons, hle, false_or, moved_of_ne hle hl.1]

/-! ### When the moves are lossless -/

theorem eq_none_of_moves (h : Skips es ms) (hrun : moves fs ms = some fs') (hl : fs l = none)
    (hdst : l ∉ es.map Prod.snd) : fs' l = none := by
  induction h generalizing fs with
  | nil => exact Option.some.inj hrun ▸ hl
  | keep e _ ih =>
    rw [List.map_cons, List.mem_cons, not_or] at hdst
    exact ih (moves_cons hrun).2 (moved_eq_none hdst.1 hl) hdst.2
  | skip _ _ ih =>
    rw [List.map_cons, List.mem_cons, not_or] at hdst
    exact ih hrun hl hdst.2

/-- A source that nothing is moved to was there, and is free at the end. -/
theorem source_of_moves (h : Skips es ms) (hrun : moves fs ms = some fs') (he : e ∈ es)
    (hne : e.1 ≠ e.2) (hdst : e.1 ∉ es.map Prod.snd) : fs e.1 ≠ none ∧ fs' e.1 = none := by
  induction h generalizing fs with
  | nil => cases he
  | keep e₀ h ih =>
    rw [List.map_cons, List.mem_cons, not_or] at hdst
    obtain ⟨hsome, hrun⟩ := moves_cons hrun
    rcases List.mem_cons.1 he with rfl | he
    · exact ⟨hsome, h.eq_none_of_moves hrun (moved_src hne) hdst.2⟩
    · obtain ⟨hocc, hend⟩ := ih hrun he hdst.2
      exact ⟨fun hnone ↦ hocc (moved_eq_none hdst.1 hnone), hend⟩
  | skip he₀ _ ih =>
    rw [List.map_cons, List.mem_cons, not_or] at hdst
    rcases List.mem_cons.1 he with rfl | he
    · exact absurd he₀ hne
    · exact ih hrun he hdst.2

/-- **What lossless moves need.** The induction is on the list. A second entry for the first
source would find nothing there, or take away what has to stay. -/
theorem of_lossless (h : Skips es ms) (hdst : (es.map Prod.snd).Nodup)
    (hfresh : es.Pairwise fun e e' ↦ e.1 ≠ e'.2) (hocc : ∀ e ∈ es, fs e.1 ≠ none)
    (hl : Lossless fs es ms) :
    (es.map Prod.fst).Nodup ∧ ∀ e ∈ es, e.1 = e.2 ∨ fs e.2 = none := by
  obtain ⟨fs', hrun, hnever, harrive⟩ := hl
  induction es generalizing fs ms with
  | nil => exact ⟨List.nodup_nil, by simp⟩
  | cons e es ih =>
    rw [List.map_cons, List.nodup_cons] at hdst
    rw [List.pairwise_cons] at hfresh
    rw [List.forall_mem_cons] at hocc harrive
    obtain ⟨ms', h', hmoves, hiff⟩ := h.exists_of_cons hocc.1
    obtain ⟨hfree, hnever'⟩ := hiff.1 hnever
    rw [hmoves] at hrun
    have hnew : e.1 ∉ es.map Prod.snd := by
      intro hmem
      obtain ⟨e', he', heq⟩ := List.mem_map.1 hmem
      exact hfresh.1 e' he' heq.symm
    have hsrc : e.1 ∉ es.map Prod.fst := by
      intro hmem
      obtain ⟨e', he', heq⟩ := List.mem_map.1 hmem
      have hne : e'.1 ≠ e'.2 := by
        rw [heq]
        exact hfresh.1 e' he'
      obtain ⟨hsome, hnone⟩ := h'.source_of_moves hrun he' hne (heq ▸ hnew)
      rw [heq] at hsome hnone
      by_cases hstay : e.1 = e.2
      · rw [← hstay, hnone] at harrive
        exact hocc.1 harrive.1.symm
      · exact hsome (moved_src hstay)
    have hocc' : ∀ e' ∈ es, moved fs e e'.1 = fs e'.1 := fun e' he' ↦
      moved_eq_of_ne_src (fun heq ↦ hsrc (heq ▸ List.mem_map_of_mem he')) hfree (hocc.2 e' he')
    obtain ⟨hnodup, hrest⟩ := ih h' hdst.2 hfresh.2
      (fun e' he' ↦ by rw [hocc' e' he']; exact hocc.2 e' he') hrun hnever'
      fun e' he' ↦ by rw [hocc' e' he', harrive.2 e' he']
    refine ⟨by rw [List.map_cons, List.nodup_cons]; exact ⟨hsrc, hnodup⟩,
      List.forall_mem_cons.2 ⟨hfree, fun e' he' ↦ (hrest e' he').imp id fun hnone ↦ ?_⟩⟩
    have h₂ : e'.2 ≠ e.2 := fun heq ↦ hdst.1 (heq ▸ List.mem_map_of_mem he')
    rwa [moved_of_ne (Ne.symm (hfresh.1 e' he')) h₂] at hnone

/-- **When moves are lossless.** -/
theorem lossless_iff (h : Skips es ms) (hdst : (es.map Prod.snd).Nodup)
    (hfresh : es.Pairwise fun e e' ↦ e.1 ≠ e'.2) (hocc : ∀ e ∈ es, fs e.1 ≠ none) :
    Lossless fs es ms ↔
      (es.map Prod.fst).Nodup ∧ ∀ e ∈ es, e.1 = e.2 ∨ fs e.2 = none := by
  refine ⟨h.of_lossless hdst hfresh hocc, ?_⟩
  rintro ⟨hsrc, hfree⟩
  obtain ⟨fs', hrun, hnever, harrive, -⟩ := h.exists_moves hsrc hdst hocc hfree
  exact ⟨fs', hrun, hnever, harrive⟩

end Skips

end Renames
