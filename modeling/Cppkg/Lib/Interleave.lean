import Mathlib.Algebra.BigOperators.Group.Finset.Piecewise
import Mathlib.Data.Sum.Basic
import Cppkg.Lib.Transition

/-!
# Systems side by side

Systems that share nothing and go on independently: a step of the whole is a step of one of them.
`System.family` has a member for every index, `System.both` has two parts. A run of the whole gives
every member, and both parts, a run of their own, labelled by their part of the trace.
-/

namespace Transition

variable {ι σ τ ℓ μ : Type*}

section

variable [DecidableEq ι] {S : ι → System σ ℓ} {tr : List (ι × ℓ)} {s : ι → σ}

/-- A member takes the step. -/
def System.family (S : ι → System σ ℓ) : System (ι → σ) (ι × ℓ) where
  init s := ∀ i, (S i).init (s i)
  step s a s' := ∃ t, (S a.1).step (s a.1) a.2 t ∧ s' = Function.update s a.1 t

theorem System.step_member {i : ι} {a : ℓ} {t : σ} (h : (S i).step (s i) a t) :
    (System.family S).step s (i, a) (Function.update s i t) := ⟨t, h, rfl⟩

/-- The label of member `i`. -/
def labelOf (i : ι) (a : ι × ℓ) : Option ℓ := if a.1 = i then some a.2 else none

/-- **A run of the family gives every member a run.** -/
theorem Run.member (h : Run (System.family S) tr s) (i : ι) :
    Run (S i) (tr.filterMap (labelOf i)) (s i) := by
  induction h with
  | nil hi => exact .nil (hi i)
  | @snoc tr s s' a _ hs ih =>
    obtain ⟨t, ht, rfl⟩ := hs
    rw [List.filterMap_append]
    by_cases ha : a.1 = i
    · subst ha
      rw [Function.update_self]
      have hlabel : [a].filterMap (labelOf a.1) = [a.2] := by simp [labelOf]
      rw [hlabel]
      exact ih.snoc ht
    · rw [Function.update_of_ne (Ne.symm ha)]
      have hlabel : [a].filterMap (labelOf i) = [] := by simp [labelOf, ha]
      rwa [hlabel, List.append_nil]

/-- The steps of the family are those of its members. -/
theorem length_eq_sum_labelOf [Fintype ι] (tr : List (ι × ℓ)) :
    tr.length = ∑ i, (tr.filterMap (labelOf i)).length := by
  induction tr with
  | nil => simp
  | cons a tr ih =>
    have hcons : ∀ i, ((a :: tr).filterMap (labelOf i)).length =
        (if a.1 = i then 1 else 0) + (tr.filterMap (labelOf i)).length := fun i ↦ by
      by_cases ha : a.1 = i
      · simp [labelOf, ha, Nat.add_comm]
      · simp [labelOf, ha]
    simp only [hcons, Finset.sum_add_distrib, Finset.sum_ite_eq, Finset.mem_univ, if_true,
      List.length_cons]
    rw [ih, Nat.add_comm]

end

section

variable {S : System σ ℓ} {T : System τ μ} {tr : List (ℓ ⊕ μ)} {s : σ × τ}

/-- One of the two parts takes the step. -/
def System.both (S : System σ ℓ) (T : System τ μ) : System (σ × τ) (ℓ ⊕ μ) where
  init s := S.init s.1 ∧ T.init s.2
  step s a s' :=
    match a with
    | .inl a => S.step s.1 a s'.1 ∧ s'.2 = s.2
    | .inr a => T.step s.2 a s'.2 ∧ s'.1 = s.1

theorem System.step_left {a : ℓ} {t : σ} (h : S.step s.1 a t) :
    (S.both T).step s (.inl a) (t, s.2) := ⟨h, rfl⟩

theorem System.step_right {a : μ} {t : τ} (h : T.step s.2 a t) :
    (S.both T).step s (.inr a) (s.1, t) := ⟨h, rfl⟩

/-- **A run of both gives the first part a run.** -/
theorem Run.left (h : Run (S.both T) tr s) : Run S (tr.filterMap Sum.getLeft?) s.1 := by
  induction h with
  | nil hi => exact .nil hi.1
  | @snoc tr s s' a _ hs ih =>
    rw [List.filterMap_append]
    cases a with
    | inl a => exact ih.snoc hs.1
    | inr a =>
      obtain ⟨-, heq⟩ := hs
      have hlabel : [Sum.inr a].filterMap (Sum.getLeft? : ℓ ⊕ μ → Option ℓ) = [] := rfl
      rwa [hlabel, List.append_nil, heq]

/-- **A run of both gives the second part a run.** -/
theorem Run.right (h : Run (S.both T) tr s) : Run T (tr.filterMap Sum.getRight?) s.2 := by
  induction h with
  | nil hi => exact .nil hi.2
  | @snoc tr s s' a _ hs ih =>
    rw [List.filterMap_append]
    cases a with
    | inl a =>
      obtain ⟨-, heq⟩ := hs
      have hlabel : [Sum.inl a].filterMap (Sum.getRight? : ℓ ⊕ μ → Option μ) = [] := rfl
      rwa [hlabel, List.append_nil, heq]
    | inr a => exact ih.snoc hs.1

/-- The steps of both are those of the two parts. -/
theorem length_eq_getLeft_add_getRight (tr : List (ℓ ⊕ μ)) :
    tr.length = (tr.filterMap Sum.getLeft?).length + (tr.filterMap Sum.getRight?).length := by
  induction tr with
  | nil => rfl
  | cons a tr ih =>
    cases a with
    | inl a =>
      calc tr.length + 1
          = (tr.filterMap Sum.getLeft?).length + (tr.filterMap Sum.getRight?).length + 1 :=
            congrArg (· + 1) ih
        _ = ((tr.filterMap Sum.getLeft?).length + 1) + (tr.filterMap Sum.getRight?).length :=
            Nat.add_right_comm ..
    | inr a => exact congrArg (· + 1) ih

end

end Transition
