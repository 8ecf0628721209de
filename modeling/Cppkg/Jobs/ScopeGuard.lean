import Cppkg.Lib.Ledger
import Cppkg.Lib.Transition

/-!
# ScopeGuard runs every deferred function once

`ScopeGuard` of `scope_guard.h`, and a system of any number of guards to which its special member
functions are applied in any order. The functions that guards are constructed from are numbered:
two guards constructed from equal functions are given two of them.

A function that was moved from has an unspecified value. The model leaves it with any value at
all, until the guard clears it.

The guards are a ledger of functions, and the member functions are operations of the ledger: a
construction issues a function, a move transfers one, and a guard that is destroyed or assigned
to spends the one it holds. Nothing is ever dropped.
-/

namespace Cppkg.Jobs

open Function Transition

/-- `GuardOpF`: a function, by its number, or an empty one. -/
abbrev GuardOpF := Option ℕ

/-- `ScopeGuard`. -/
structure ScopeGuard where
  /-- `term_`. -/
  term : GuardOpF

namespace ScopeGuard

/-- The functions run by `if (term_) { term_(); }`. -/
def runTerm (guard : ScopeGuard) : List ℕ := guard.term.toList

/-- The move constructor: the new guard, and `other` afterwards. The move leaves `left` in
`other.term_`. -/
def moveConstruct (other : ScopeGuard) (left : GuardOpF) : ScopeGuard × ScopeGuard :=
  let guard : ScopeGuard := { term := other.term }
  let other := { other with term := left }
  (guard, { other with term := none })

/-- The move assignment from another guard: the functions run, and the two guards afterwards. -/
def moveAssign (guard other : ScopeGuard) (left : GuardOpF) :
    List ℕ × ScopeGuard × ScopeGuard :=
  let ran := guard.runTerm
  let guard := { guard with term := other.term }
  let other := { other with term := left }
  (ran, guard, { other with term := none })

end ScopeGuard

/-- Guards by number, the functions given to them so far, and those that have run. -/
structure Guards where
  /-- The guards that are alive. -/
  guard : ℕ → Option ScopeGuard
  given : List ℕ
  ran : List ℕ

namespace Guards

/-- No guards. -/
def initial : Guards where
  guard _ := none
  given := []
  ran := []

inductive Action where
  | construct (i : ℕ) (f : GuardOpF)
  | moveConstruct (i j : ℕ)
  | moveAssign (i j : ℕ)
  | destroy (i : ℕ)

/-- A member function is called. -/
inductive Step (s : Guards) : Action → Guards → Prop
  | construct {i : ℕ} {f : GuardOpF} (hi : s.guard i = none) (hf : ∀ g, f = some g → g ∉ s.given) :
      Step s (.construct i f)
        { s with
          guard := update s.guard i (some ⟨f⟩)
          given := s.given ++ f.toList }
  | moveConstruct {i j : ℕ} {other : ScopeGuard} (left : GuardOpF) (hi : s.guard i = none)
      (hj : s.guard j = some other) :
      Step s (.moveConstruct i j)
        { s with
          guard := update (update s.guard i (some (other.moveConstruct left).1)) j
            (some (other.moveConstruct left).2) }
  /-- The move assignment of a guard to itself. -/
  | selfAssign {i : ℕ} {guard : ScopeGuard} (hi : s.guard i = some guard) :
      Step s (.moveAssign i i) s
  | moveAssign {i j : ℕ} {guard other : ScopeGuard} (left : GuardOpF) (hij : i ≠ j)
      (hi : s.guard i = some guard) (hj : s.guard j = some other) :
      Step s (.moveAssign i j)
        { s with
          guard := update (update s.guard i (some (guard.moveAssign other left).2.1)) j
            (some (guard.moveAssign other left).2.2)
          ran := s.ran ++ (guard.moveAssign other left).1 }
  | destroy {i : ℕ} {guard : ScopeGuard} (hi : s.guard i = some guard) :
      Step s (.destroy i)
        { s with
          guard := update s.guard i none
          ran := s.ran ++ guard.runTerm }

/-- Any number of guards. -/
def guards : System Guards Action where
  init s := s = initial
  step := Step

/-- The guard holds the function. -/
def Holds (s : Guards) (i f : ℕ) : Prop := ∃ guard, s.guard i = some guard ∧ guard.term = some f

/-- The functions as tokens of the guards. -/
def ledger (s : Guards) : Ledger ℕ ℕ where
  hold i := (s.guard i).bind ScopeGuard.term
  issued := s.given
  spent := s.ran
  dropped := []

variable {s s' : Guards} {a : Action} {i j f : ℕ}

theorem holds_iff : s.Holds i f ↔ s.ledger.hold i = some f := by
  simp only [Holds, ledger, Option.bind_eq_some_iff]

/-! ### The member functions as operations of the ledger -/

/-- **A step is an operation of the ledger**, and keeps it accounted. -/
theorem accounted_step (h : s.ledger.Accounted) (hs : Step s a s') : s'.ledger.Accounted := by
  cases hs with
  | @construct i f hi hf =>
    have hnone : s.ledger.hold i = none := by simp [ledger, hi]
    cases f with
    | none =>
      have heq : update s.ledger.hold i none = s.ledger.hold := update_eq_self_iff.2 hnone.symm
      simp only [ledger, Ledger.bind_update, Option.bind_some, Option.toList_none,
        List.append_nil] at heq ⊢
      rwa [heq]
    | some f =>
      have hl := h.issue (t := f) hnone (hf f rfl)
      simpa [ledger, Ledger.bind_update, Ledger.issue] using hl
  | @moveConstruct i j other left hi hj =>
    have hji : j ≠ i := by
      rintro rfl
      simp [hi] at hj
    have hl := h.transfer hji (by simp [ledger, hi])
    simpa [ledger, Ledger.bind_update, Ledger.transfer, ScopeGuard.moveConstruct, hj] using hl
  | selfAssign => exact h
  | @moveAssign i j guard other left hij hi hj =>
    have hl := (h.spend i).transfer hij.symm (by simp [Ledger.spend])
    simpa [ledger, Ledger.bind_update, Ledger.transfer, Ledger.spend, ScopeGuard.moveAssign,
      ScopeGuard.runTerm, hi, hj, hij.symm] using hl
  | @destroy i guard hi =>
    have hl := h.spend i
    simpa [ledger, Ledger.bind_update, Ledger.spend, ScopeGuard.runTerm, hi] using hl

theorem accounted_of_run {tr : List Action} (h : Run guards tr s) : s.ledger.Accounted := by
  refine h.invariant (I := fun s ↦ s.ledger.Accounted) ?_ ?_
  · rintro _ rfl
    exact Ledger.Accounted.empty
  · exact fun _ _ _ hl hs ↦ accounted_step hl hs

/-- **Every deferred function runs exactly once.** At every point a function given to a guard is
held by exactly one guard and has not run, or is held by none and has run once. When no guard is
left, each has run once. A function whose guard is assigned to runs at the assignment. -/
theorem scopeGuard_once {tr : List Action} (h : Run guards tr s) :
    (∀ f ∈ s.given,
      (∃! i, s.Holds i f) ∧ s.ran.count f = 0 ∨ (∀ i, ¬ s.Holds i f) ∧ s.ran.count f = 1) ∧
    ((∀ i, s.guard i = none) → ∀ f ∈ s.given, s.ran.count f = 1) ∧
    ∀ i j f s', i ≠ j → s.Holds i f → Step s (.moveAssign i j) s' → s'.ran = s.ran ++ [f] := by
  have hl := accounted_of_run h
  refine ⟨?_, ?_, ?_⟩
  · intro f hf
    simp only [holds_iff]
    exact hl.once rfl hf
  · intro hnone
    exact (hl.spent_iff_dropped_eq_nil fun i ↦ by simp [ledger, hnone i]).2 rfl
  · intro i j f s' hij hheld hs
    obtain ⟨guard, hguard, hterm⟩ := hheld
    cases hs with
    | selfAssign => exact absurd rfl hij
    | moveAssign _ _ hi _ =>
      obtain rfl := Option.some.inj (hguard.symm.trans hi)
      simp [ScopeGuard.moveAssign, ScopeGuard.runTerm, hterm]

/-- The second of two guards is assigned to the first, and both are destroyed. -/
theorem scopeGuard_once_two : ∃ s, Run guards [.construct 0 (some 7), .construct 1 (some 8),
    .moveAssign 0 1, .destroy 1, .destroy 0] s ∧ s.ran = [7, 8] ∧
    ∀ f ∈ s.given, s.ran.count f = 1 := by
  have h := (((((Run.nil (S := guards) rfl).snoc
    (Step.construct (i := 0) (f := some 7) rfl (by simp [initial]))).snoc
    (Step.construct (i := 1) (f := some 8) rfl (by simp [initial]))).snoc
    (Step.moveAssign (i := 0) (j := 1) (some 8) (by decide) rfl rfl)).snoc
    (Step.destroy (i := 1) rfl)).snoc (Step.destroy (i := 0) rfl)
  refine ⟨_, h, rfl, (scopeGuard_once h).2.1 fun i ↦ ?_⟩
  rcases i with _ | _ | i <;> rfl

end Guards

end Cppkg.Jobs
