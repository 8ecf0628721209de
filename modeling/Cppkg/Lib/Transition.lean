import Mathlib.Algebra.GroupWithZero.Nat
import Mathlib.Data.List.Basic

/-!
# Labelled transition systems

Systems with labelled steps, their finite runs, and the rules by which a statement about one
step becomes one about every run: an invariant holds in every state a run ends in
(`Run.invariant`), and a simulation turns a run into a run of the other system with the same
labels (`Simulation.run`).

`System.restrict` keeps the steps that meet a condition. A run of the restricted system is a
run all of whose steps meet it (`Run.of_restrict`).

A `Path` begins in any state. The potential rule (`Path.countP_le`) bounds how many of its steps
can have a label of some kind, the cost rule (`Path.length_le`) how many steps it can have.
-/

namespace Transition

variable {σ τ ℓ : Type*}

/-- A system with initial states and labelled steps. -/
structure System (σ ℓ : Type*) where
  init : σ → Prop
  step : σ → ℓ → σ → Prop

/-- `Run S tr s`: the steps labelled `tr` lead from an initial state to `s`. -/
inductive Run (S : System σ ℓ) : List ℓ → σ → Prop
  | nil {s : σ} (h : S.init s) : Run S [] s
  | snoc {tr : List ℓ} {s s' : σ} {a : ℓ} (h : Run S tr s) (hstep : S.step s a s') :
      Run S (tr ++ [a]) s'

variable {S : System σ ℓ} {tr : List ℓ} {s : σ}

/-- **The invariant rule.** What holds initially and is preserved by every step holds at the
end of every run. -/
theorem Run.invariant {I : σ → Prop} (hinit : ∀ s, S.init s → I s)
    (hstep : ∀ s a s', I s → S.step s a s' → I s') (h : Run S tr s) : I s := by
  induction h with
  | nil h => exact hinit _ h
  | snoc _ hs ih => exact hstep _ _ _ ih hs

/-- The steps of `S` that meet a condition. -/
def System.restrict (S : System σ ℓ) (C : σ → ℓ → Prop) : System σ ℓ where
  init := S.init
  step s a s' := S.step s a s' ∧ C s a

theorem Run.of_restrict {C : σ → ℓ → Prop} (h : Run (S.restrict C) tr s) : Run S tr s := by
  induction h with
  | nil h => exact .nil h
  | snoc _ hs ih => exact .snoc ih hs.1

theorem Run.mono {C D : σ → ℓ → Prop} (hCD : ∀ s a, C s a → D s a)
    (h : Run (S.restrict C) tr s) : Run (S.restrict D) tr s := by
  induction h with
  | nil h => exact .nil h
  | snoc _ hs ih => exact .snoc ih ⟨hs.1, hCD _ _ hs.2⟩

/-- The steps of a run whose labels all meet a condition meet it. -/
theorem Run.restrict_and {C : σ → ℓ → Prop} {P : ℓ → Prop} (h : Run (S.restrict C) tr s)
    (hP : ∀ a ∈ tr, P a) : Run (S.restrict fun s a ↦ C s a ∧ P a) tr s := by
  induction h with
  | nil h => exact .nil h
  | snoc _ hs ih =>
    simp only [List.mem_append, List.mem_singleton, or_imp, forall_and, forall_eq] at hP
    exact .snoc (ih hP.1) ⟨hs.1, hs.2, hP.2⟩

/-- `R` relates the states of `S` to states of `A` that can do the same steps. -/
structure Simulation (S : System σ ℓ) (A : System τ ℓ) (R : σ → τ → Prop) : Prop where
  init : ∀ s, S.init s → ∃ t, A.init t ∧ R s t
  step : ∀ s t a s', R s t → S.step s a s' → ∃ t', A.step t a t' ∧ R s' t'

/-- **The simulation rule.** Every run of `S` is a run of `A`. -/
theorem Simulation.run {A : System τ ℓ} {R : σ → τ → Prop} (hsim : Simulation S A R)
    (h : Run S tr s) : ∃ t, Run A tr t ∧ R s t := by
  induction h with
  | nil h =>
    obtain ⟨t, ht, hR⟩ := hsim.init _ h
    exact ⟨t, .nil ht, hR⟩
  | snoc _ hs ih =>
    obtain ⟨t, ht, hR⟩ := ih
    obtain ⟨t', ht', hR'⟩ := hsim.step _ _ _ _ hR hs
    exact ⟨t', .snoc ht ht', hR'⟩

/-! ### Paths -/

/-- `Path S s tr s'`: the steps labelled `tr` lead from `s` to `s'`. -/
inductive Path (S : System σ ℓ) (s : σ) : List ℓ → σ → Prop
  | nil : Path S s [] s
  | snoc {tr : List ℓ} {t t' : σ} {a : ℓ} (h : Path S s tr t) (hstep : S.step t a t') :
      Path S s (tr ++ [a]) t'

variable {s' : σ}

/-- The invariant rule for the states and the labels of a path, whose labels all meet `C`. -/
theorem Path.invariant {C P : ℓ → Prop} {I : σ → Prop} (hs : I s)
    (hstep : ∀ s a s', I s → C a → S.step s a s' → P a ∧ I s') (h : Path S s tr s')
    (hC : ∀ a ∈ tr, C a) : (∀ a ∈ tr, P a) ∧ I s' := by
  induction h with
  | nil => exact ⟨by simp, hs⟩
  | snoc _ hst ih =>
    simp only [List.mem_append, List.mem_singleton, or_imp, forall_and, forall_eq] at hC ⊢
    obtain ⟨hP, hI⟩ := ih hC.1
    obtain ⟨hPa, hI'⟩ := hstep _ _ _ hI hC.2 hst
    exact ⟨⟨hP, hPa⟩, hI'⟩

/-- **The potential rule.** When every step labelled in `p` consumes potential, and no other step
gains any, a path has no more labels in `p` than its first state has potential. -/
theorem Path.countP_le {C : ℓ → Prop} {I : σ → Prop} {μ : σ → ℕ} {p : ℓ → Bool} (hs : I s)
    (hstep : ∀ s a s', I s → C a → S.step s a s' →
      I s' ∧ (if p a then 1 else 0) + μ s' ≤ μ s)
    (h : Path S s tr s') (hC : ∀ a ∈ tr, C a) : tr.countP p ≤ μ s := by
  suffices hle : I s' ∧ tr.countP p + μ s' ≤ μ s from
    Nat.le_trans (Nat.le_add_right _ _) hle.2
  induction h with
  | nil => exact ⟨hs, by simp⟩
  | snoc _ hst ih =>
    simp only [List.mem_append, List.mem_singleton, or_imp, forall_and, forall_eq] at hC
    obtain ⟨hI, hle⟩ := ih hC.1
    obtain ⟨hI', hle'⟩ := hstep _ _ _ hI hC.2 hst
    refine ⟨hI', ?_⟩
    simp only [List.countP_append, List.countP_singleton]
    omega

/-- **The cost rule.** When every step spends potential, up to what its label allows, a path is no
longer than its first state has potential and its labels allow. -/
theorem Path.length_le {C : ℓ → Prop} {I : σ → Prop} {μ : σ → ℕ} {cost : ℓ → ℕ} (hs : I s)
    (hstep : ∀ s a s', I s → C a → S.step s a s' → I s' ∧ μ s' < μ s + cost a)
    (h : Path S s tr s') (hC : ∀ a ∈ tr, C a) : tr.length ≤ μ s + (tr.map cost).sum := by
  suffices hle : I s' ∧ tr.length + μ s' ≤ μ s + (tr.map cost).sum from
    Nat.le_trans (Nat.le_add_right _ _) hle.2
  induction h with
  | nil => exact ⟨hs, by simp⟩
  | snoc _ hst ih =>
    simp only [List.mem_append, List.mem_singleton, or_imp, forall_and, forall_eq] at hC
    obtain ⟨hI, hle⟩ := ih hC.1
    obtain ⟨hI', hlt⟩ := hstep _ _ _ hI hC.2 hst
    refine ⟨hI', ?_⟩
    simp only [List.length_append, List.length_singleton, List.map_append, List.map_singleton,
      List.sum_append, List.sum_singleton]
    omega

end Transition
