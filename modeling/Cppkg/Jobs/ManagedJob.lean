import Cppkg.Lib.Ledger
import Cppkg.Lib.Transition
import Mathlib.Logic.Function.Basic

/-!
# The lifecycle of a ManagedJob

`ManagedJob` of `managed_job.h`, and a system of any number of them to which one thread applies
constructions, `stop`, `join`, move assignments and destructions in any order. A promise and its
futures share a state, which is numbered and set or not. The thread of a job ends only once the
state it waits for is set; until then `join` does not return.

`Phase` says what becomes of an object, read off the operations alone: it has no thread, a thread
that runs, or a thread that was told to stop and is not joined. `Tracks` ties the two levels
together. An operation then fails in exactly one case, which is about the phases: it signals a
job that was told to stop before (`Phases.SignalsTwice`).
-/

namespace Cppkg.Jobs

open Function Transition

/-- The shared state of a promise and its futures. -/
abbrev Signal := ℕ

/-- `ManagedJob`. -/
structure ManagedJob where
  /-- The state of `exit_future_`, when it is valid. -/
  exitFuture : Option Signal
  /-- The state of `exit_signal_`, when it has one. -/
  exitSignal : Option Signal
  /-- The state the thread `job_` waits for, when it is joinable. -/
  job : Option Signal

/-- Why an operation does not complete. -/
inductive Halt where
  /-- `set_value` on a promise that is satisfied throws. -/
  | alreadySatisfied
  /-- `set_value` on a promise without a state throws. -/
  | noState
  /-- A joinable thread is destroyed or overwritten, which terminates the program. -/
  | joinable
  /-- The thread to join never ends. -/
  | blocked
  deriving DecidableEq, Repr

namespace ManagedJob

/-- `job_.joinable()`. -/
def joinable (m : ManagedJob) : Bool := m.job.isSome

/-- `set_value` on a promise. -/
def setValue (promise : Option Signal) (set : Signal → Bool) : Except Halt (Signal → Bool) :=
  match promise with
  | none => .error .noState
  | some g => if set g then .error .alreadySatisfied else .ok (update set g true)

/-- `stop`. -/
def stop (m : ManagedJob) (set : Signal → Bool) : Except Halt (Signal → Bool) :=
  if m.joinable then setValue m.exitSignal set else .ok set

/-- `join`. -/
def join (m : ManagedJob) (set : Signal → Bool) : Except Halt ManagedJob :=
  match m.job with
  | none => .ok m
  | some g => if set g then .ok { m with job := none } else .error .blocked

/-- The destructor, and the destruction of `job_`. -/
def destroy (m : ManagedJob) (set : Signal → Bool) : Except Halt (Signal → Bool) := do
  let set ← if m.joinable && m.exitFuture.isSome then setValue m.exitSignal set else .ok set
  let m ← m.join set
  if m.joinable then .error .joinable else .ok set

/-- What the move assignment does first: `exit_signal_.set_value()` and `job_.detach()`. -/
def signalAndDetach (m : ManagedJob) (set : Signal → Bool) :
    Except Halt (ManagedJob × (Signal → Bool)) :=
  if m.joinable && m.exitFuture.isSome then do
    let set ← setValue m.exitSignal set
    .ok ({ m with job := none }, set)
  else .ok (m, set)

/-- The objects and the states after a move assignment. -/
structure Moved where
  target : ManagedJob
  source : ManagedJob
  set : Signal → Bool

/-- The move assignment from another object. -/
def moveAssign (m other : ManagedJob) (set : Signal → Bool) : Except Halt Moved := do
  let r ← m.signalAndDetach set
  let m := { r.1 with exitSignal := other.exitSignal }
  let other := { other with exitSignal := none }
  let m := { m with exitFuture := other.exitFuture }
  let other := { other with exitFuture := none }
  if m.joinable then .error .joinable
  else .ok ⟨{ m with job := other.job }, { other with job := none }, r.2⟩

/-! ### The operations on an object that owns the signal of its thread -/

/-- The thread of the object waits for the state of `exit_signal_` and `exit_future_`. -/
def Owns (m : ManagedJob) : Prop :=
  ∀ g, m.job = some g → m.exitSignal = some g ∧ m.exitFuture = some g

variable {m other : ManagedJob} {set : Signal → Bool} {g : Signal}

theorem stop_of_none (hm : m.job = none) : m.stop set = .ok set := by
  simp [stop, joinable, hm]

theorem stop_of_some (ho : m.Owns) (hm : m.job = some g) :
    m.stop set = if set g then .error .alreadySatisfied else .ok (update set g true) := by
  simp [stop, joinable, hm, setValue, (ho g hm).1]

theorem destroy_of_none (hm : m.job = none) : m.destroy set = .ok set := by
  simp [destroy, joinable, hm, join, bind, Except.bind]

theorem destroy_of_some (ho : m.Owns) (hm : m.job = some g) :
    m.destroy set = if set g then .error .alreadySatisfied else .ok (update set g true) := by
  cases hg : set g <;>
    simp [destroy, joinable, hm, setValue, (ho g hm).1, (ho g hm).2, hg, join, bind, Except.bind]

theorem moveAssign_of_none (hm : m.job = none) :
    m.moveAssign other set = .ok ⟨other, ⟨none, none, none⟩, set⟩ := by
  simp [moveAssign, signalAndDetach, joinable, hm, bind, Except.bind]

theorem moveAssign_of_some (ho : m.Owns) (hm : m.job = some g) :
    m.moveAssign other set =
      if set g then .error .alreadySatisfied
      else .ok ⟨other, ⟨none, none, none⟩, update set g true⟩ := by
  cases hg : set g <;>
    simp [moveAssign, signalAndDetach, joinable, hm, setValue, (ho g hm).1, (ho g hm).2, hg, bind,
      Except.bind]

end ManagedJob

/-- Objects by number, and the shared states of their promises. -/
structure ManagedJobs where
  /-- The objects that are alive. -/
  job : ℕ → Option ManagedJob
  /-- Whether a shared state is set. -/
  set : Signal → Bool
  /-- The next shared state. -/
  next : Signal

namespace ManagedJobs

inductive Action where
  | construct (i : ℕ)
  | constructDefault (i : ℕ)
  | stop (i : ℕ)
  | join (i : ℕ)
  | moveAssign (i j : ℕ)
  | destroy (i : ℕ)
  deriving DecidableEq, Repr

/-- No objects. -/
def initial : ManagedJobs where
  job _ := none
  set _ := false
  next := 0

/-- What an operation does. It is defined for objects that are alive, and for a construction of
one that is not. -/
def apply (s : ManagedJobs) : Action → Option (Except Halt ManagedJobs)
  | .construct i => match s.job i with
    | some _ => none
    | none => some (.ok
        { s with
          job := update s.job i (some ⟨some s.next, some s.next, some s.next⟩)
          next := s.next + 1 })
  | .constructDefault i => match s.job i with
    | some _ => none
    | none => some (.ok
        { s with
          job := update s.job i (some ⟨some s.next, some s.next, none⟩)
          next := s.next + 1 })
  | .stop i => do
    let m ← s.job i
    some ((m.stop s.set).map fun set ↦ { s with set := set })
  | .join i => do
    let m ← s.job i
    some ((m.join s.set).map fun m ↦ { s with job := update s.job i (some m) })
  | .moveAssign i j => do
    let m ← s.job i
    let other ← s.job j
    if i = j then some (.ok s)
    else some ((m.moveAssign other s.set).map fun r ↦
      { s with
        job := update (update s.job i (some r.target)) j (some r.source)
        set := r.set })
  | .destroy i => do
    let m ← s.job i
    some ((m.destroy s.set).map fun set ↦ { s with job := update s.job i none, set := set })

/-- Any number of objects, as long as no operation halts. -/
def managedJobs : System ManagedJobs Action where
  init s := s = initial
  step s a s' := s.apply a = some (.ok s')

/-- The operation throws or terminates the program. -/
def Fails (s : ManagedJobs) (a : Action) : Prop :=
  ∃ e, s.apply a = some (.error e) ∧ e ≠ .blocked

end ManagedJobs

/-! ### The phases of an object -/

/-- What has become of the thread of an object. -/
inductive Phase where
  /-- There is none. -/
  | idle
  | running
  /-- It was told to stop, and is not joined. -/
  | stopped
  deriving DecidableEq, Repr

/-- The phases of the objects that are alive. -/
abbrev Phases := ℕ → Option Phase

namespace Phases

open ManagedJobs

/-- The phases after an operation. -/
def after (p : Phases) : Action → Phases
  | .construct i => update p i (some .running)
  | .constructDefault i => update p i (some .idle)
  | .stop i => if p i = some .running then update p i (some .stopped) else p
  | .join i => update p i (some .idle)
  | .moveAssign i j => if i = j then p else update (update p i (p j)) j (some .idle)
  | .destroy i => update p i none

/-- The phases after the operations, of objects that did not exist before. -/
def lifecycle (tr : List Action) : Phases := tr.foldl after fun _ ↦ none

/-- The operation signals a thread that was told to stop before. -/
def SignalsTwice (p : Phases) : Action → Prop
  | .stop i => p i = some .stopped
  | .moveAssign i j => i ≠ j ∧ p i = some .stopped
  | .destroy i => p i = some .stopped
  | .construct _ | .constructDefault _ | .join _ => False

instance (p : Phases) : ∀ a, Decidable (p.SignalsTwice a)
  | .stop i => inferInstanceAs (Decidable (p i = some .stopped))
  | .moveAssign i j => inferInstanceAs (Decidable (i ≠ j ∧ p i = some .stopped))
  | .destroy i => inferInstanceAs (Decidable (p i = some .stopped))
  | .construct _ | .constructDefault _ | .join _ => inferInstanceAs (Decidable False)

end Phases

/-- The phase of an object. -/
def ManagedJob.phase (m : ManagedJob) (set : Signal → Bool) : Phase :=
  match m.job with
  | none => .idle
  | some g => if set g then .stopped else .running

namespace ManagedJobs

open ManagedJob

/-- The signal that the thread of an object waits for. -/
def thread (s : ManagedJobs) (i : ℕ) : Option Signal := (s.job i).bind ManagedJob.job

/-- The objects are in their phases, and own the signals of their threads. -/
structure Tracks (s : ManagedJobs) (p : Phases) : Prop where
  phase_eq : ∀ i, (s.job i).map (ManagedJob.phase · s.set) = p i
  owns : ∀ i m, s.job i = some m → m.Owns
  thread_inj : ∀ {i j g}, s.thread i = some g → s.thread j = some g → i = j
  thread_lt : ∀ {i g}, s.thread i = some g → g < s.next
  unset : ∀ g, s.next ≤ g → s.set g = false

namespace Tracks

variable {s s' : ManagedJobs} {p : Phases} {a : Action} {i j : ℕ} {m : ManagedJob} {g : Signal}

theorem initial : Tracks ManagedJobs.initial fun _ ↦ none := by
  constructor <;> simp [ManagedJobs.initial, thread]

theorem thread_of_some (hi : s.job i = some m) : s.thread i = m.job := by simp [thread, hi]

theorem phase_of_some (h : Tracks s p) (hi : s.job i = some m) : p i = some (m.phase s.set) := by
  rw [← h.phase_eq i, hi]
  rfl

theorem phase_eq_idle (h : Tracks s p) (hi : s.job i = some m) (hm : m.job = none) :
    p i = some .idle := by
  simp [h.phase_of_some hi, ManagedJob.phase, hm]

theorem phase_eq_of_job (h : Tracks s p) (hi : s.job i = some m) (hm : m.job = some g) :
    p i = some (if s.set g then .stopped else .running) := by
  simp [h.phase_of_some hi, ManagedJob.phase, hm]

/-- The signal of a thread is set. -/
theorem signal (h : Tracks s p) (hi : s.job i = some m) (hm : m.job = some g) :
    Tracks { s with set := update s.set g true } (update p i (some .stopped)) where
  phase_eq k := by
    by_cases hk : k = i
    · subst hk
      simp [hi, ManagedJob.phase, hm]
    · rw [update_of_ne hk, ← h.phase_eq k]
      cases hn : s.job k with
      | none => rfl
      | some n =>
        cases hg : n.job with
        | none => simp [ManagedJob.phase, hg]
        | some g' =>
          -- no other thread waits for this signal
          have hne : g' ≠ g := by
            rintro rfl
            exact hk (h.thread_inj ((thread_of_some hn).trans hg) ((thread_of_some hi).trans hm))
          simp [ManagedJob.phase, hg, hne]
  owns := h.owns
  thread_inj := h.thread_inj
  thread_lt := h.thread_lt
  unset g' hg' := by
    have hne : g' ≠ g := by
      rintro rfl
      exact Nat.not_lt.2 hg' (h.thread_lt ((thread_of_some hi).trans hm))
    dsimp only
    rw [update_of_ne hne, h.unset g' hg']

/-- An object goes, or stays without a thread. -/
theorem clear {o : Option ManagedJob} (h : Tracks s p) (ho : o.bind ManagedJob.job = none)
    (howns : ∀ n, o = some n → n.Owns) :
    Tracks { s with job := update s.job i o } (update p i (o.map fun _ ↦ .idle)) := by
  have hthread : thread { s with job := update s.job i o } = update s.thread i none := by
    rw [← ho]
    exact Ledger.bind_update s.job ManagedJob.job i o
  refine ⟨?_, ?_, ?_, ?_, h.unset⟩
  · refine (forall_update_iff s.job fun k n ↦
      n.map (ManagedJob.phase · s.set) = update p i (o.map fun _ ↦ .idle) k).2 ⟨?_, ?_⟩
    · cases o with
      | none => simp
      | some n => simp_all [ManagedJob.phase]
    · intro k hk
      rw [update_of_ne hk, h.phase_eq k]
  · exact (forall_update_iff s.job fun k n ↦ ∀ m, n = some m → m.Owns).2
      ⟨howns, fun k _ ↦ h.owns k⟩
  · rw [hthread]
    exact fun hj hk ↦ h.thread_inj (Ledger.hold_update_none.1 hj).2 (Ledger.hold_update_none.1 hk).2
  · rw [hthread]
    exact fun hj ↦ h.thread_lt (Ledger.hold_update_none.1 hj).2

/-- A thread goes from one object to another. -/
theorem move {other : ManagedJob} (h : Tracks s p) (hij : i ≠ j) (hj : s.job j = some other) :
    Tracks { s with job := update (update s.job i (some other)) j (some ⟨none, none, none⟩) }
      (update (update p i (p j)) j (some .idle)) := by
  have hthread : ∀ {k g}, thread { s with
      job := update (update s.job i (some other)) j (some ⟨none, none, none⟩) } k = some g →
      k = i ∧ s.thread j = some g ∨ k ≠ j ∧ s.thread k = some g := by
    intro k g hk
    by_cases hkj : k = j
    · simp [thread, hkj] at hk
    · by_cases hki : k = i <;> simp_all [thread]
  refine ⟨fun k ↦ ?_, fun k n hn ↦ ?_, fun hk hl ↦ ?_, fun hk ↦ ?_, h.unset⟩
  · by_cases hkj : k = j
    · simp [hkj, ManagedJob.phase]
    · by_cases hki : k = i
      · simp [hki, hij, h.phase_of_some hj]
      · simpa [hkj, hki] using h.phase_eq k
  · by_cases hkj : k = j
    · obtain rfl : ⟨none, none, none⟩ = n := by simpa [hkj] using hn
      simp [Owns]
    · by_cases hki : k = i
      · exact h.owns j n (by simp_all)
      · exact h.owns k n (by simp_all)
  · rcases hthread hk with ⟨e₁, t₁⟩ | ⟨n₁, t₁⟩ <;> rcases hthread hl with ⟨e₂, t₂⟩ | ⟨n₂, t₂⟩
    · exact e₁.trans e₂.symm
    · exact absurd (h.thread_inj t₂ t₁) n₂
    · exact absurd (h.thread_inj t₁ t₂) n₁
    · exact h.thread_inj t₁ t₂
  · rcases hthread hk with ⟨-, hk⟩ | ⟨-, hk⟩ <;> exact h.thread_lt hk

/-- A new object, with or without a thread. -/
theorem construct {o : Option Signal} (h : Tracks s p) (hi : s.job i = none)
    (ho : o = none ∨ o = some s.next) :
    Tracks { s with
      job := update s.job i (some ⟨some s.next, some s.next, o⟩)
      next := s.next + 1 }
      (update p i (some (if o = none then .idle else .running))) := by
  have hthread : ∀ {k g}, thread { s with
      job := update s.job i (some ⟨some s.next, some s.next, o⟩)
      next := s.next + 1 } k = some g →
      k = i ∧ g = s.next ∨ k ≠ i ∧ s.thread k = some g := by
    intro k g hk
    by_cases hki : k = i
    · rcases ho with rfl | rfl <;> simp_all [thread]
    · simp_all [thread]
  refine ⟨fun k ↦ ?_, fun k n hn ↦ ?_, fun hk hl ↦ ?_, fun hk ↦ ?_, fun g hg ↦ ?_⟩
  · by_cases hki : k = i
    · rcases ho with rfl | rfl <;> simp [hki, ManagedJob.phase, h.unset]
    · simpa [hki] using h.phase_eq k
  · by_cases hki : k = i
    · obtain rfl : ⟨some s.next, some s.next, o⟩ = n := by simpa [hki] using hn
      rcases ho with rfl | rfl <;> simp [Owns]
    · exact h.owns k n (by simp_all)
  · rcases hthread hk with ⟨e₁, t₁⟩ | ⟨-, t₁⟩ <;> rcases hthread hl with ⟨e₂, t₂⟩ | ⟨-, t₂⟩
    · exact e₁.trans e₂.symm
    · exact absurd (t₁ ▸ h.thread_lt t₂) (Nat.lt_irrefl _)
    · exact absurd (t₂ ▸ h.thread_lt t₁) (Nat.lt_irrefl _)
    · exact h.thread_inj t₁ t₂
  · rcases hthread hk with ⟨-, rfl⟩ | ⟨-, hk⟩
    · exact Nat.lt_succ_self _
    · exact Nat.lt_succ_of_lt (h.thread_lt hk)
  · exact h.unset g (Nat.le_of_succ_le hg)

/-- The result of an operation is what the phases say: it fails exactly when it signals a thread
twice, and otherwise leads to the next phases. -/
structure Agrees (p : Phases) (a : Action) (r : Except Halt ManagedJobs) : Prop where
  fails_iff : (∃ e, r = .error e ∧ e ≠ .blocked) ↔ p.SignalsTwice a
  tracks : ∀ s', r = .ok s' → Tracks s' (p.after a)

theorem Agrees.ok (ha : ¬ p.SignalsTwice a) (ht : Tracks s (p.after a)) : Agrees p a (.ok s) :=
  ⟨by simp [ha], by rintro _ ⟨⟩; exact ht⟩

theorem Agrees.twice (ha : p.SignalsTwice a) : Agrees p a (.error .alreadySatisfied) :=
  ⟨by simp [ha], by simp⟩

theorem Agrees.blocked (ha : ¬ p.SignalsTwice a) : Agrees p a (.error .blocked) :=
  ⟨by simp [ha], by simp⟩

theorem agrees_stop (h : Tracks s p) (hi : s.job i = some m) :
    Agrees p (.stop i) ((m.stop s.set).map fun set ↦ { s with set := set }) := by
  cases hm : m.job with
  | none =>
    have hp := h.phase_eq_idle hi hm
    rw [stop_of_none hm]
    exact .ok (by simp [Phases.SignalsTwice, hp]) (by simpa [Phases.after, hp] using h)
  | some g =>
    have hp := h.phase_eq_of_job hi hm
    rw [stop_of_some (h.owns i m hi) hm]
    cases hg : s.set g with
    | true => exact .twice (by simp [Phases.SignalsTwice, hp, hg])
    | false =>
      exact .ok (by simp [Phases.SignalsTwice, hp, hg])
        (by simpa [Phases.after, hp, hg] using h.signal hi hm)

theorem agrees_join (h : Tracks s p) (hi : s.job i = some m) :
    Agrees p (.join i) ((m.join s.set).map fun m ↦ { s with job := update s.job i (some m) }) := by
  cases hm : m.job with
  | none =>
    rw [ManagedJob.join, hm]
    exact .ok id (h.clear (o := some m) hm fun n hn ↦ Option.some.inj hn ▸ h.owns i m hi)
  | some g =>
    rw [ManagedJob.join, hm]
    cases hg : s.set g with
    | true =>
      simp only [hg, if_true]
      exact .ok id (h.clear (o := some { m with job := none }) rfl (by simp [Owns]))
    | false =>
      simp only [hg]
      exact .blocked id

theorem agrees_moveAssign {other : ManagedJob} (h : Tracks s p) (hi : s.job i = some m)
    (hj : s.job j = some other) (hij : i ≠ j) :
    Agrees p (.moveAssign i j) ((m.moveAssign other s.set).map fun r ↦
      { s with
        job := update (update s.job i (some r.target)) j (some r.source)
        set := r.set }) := by
  cases hm : m.job with
  | none =>
    have hp := h.phase_eq_idle hi hm
    rw [moveAssign_of_none hm]
    exact .ok (by simp [Phases.SignalsTwice, hp]) (by simpa [Phases.after, hij] using h.move hij hj)
  | some g =>
    have hp := h.phase_eq_of_job hi hm
    rw [moveAssign_of_some (h.owns i m hi) hm]
    cases hg : s.set g with
    | true => exact .twice (by simp [Phases.SignalsTwice, hp, hg, hij])
    | false =>
      refine .ok (by simp [Phases.SignalsTwice, hp, hg]) ?_
      simpa [Phases.after, hij, hij.symm] using (h.signal hi hm).move hij hj

theorem agrees_destroy (h : Tracks s p) (hi : s.job i = some m) :
    Agrees p (.destroy i)
      ((m.destroy s.set).map fun set ↦ { s with job := update s.job i none, set := set }) := by
  cases hm : m.job with
  | none =>
    have hp := h.phase_eq_idle hi hm
    rw [destroy_of_none hm]
    exact .ok (by simp [Phases.SignalsTwice, hp]) (h.clear (o := none) rfl (by simp))
  | some g =>
    have hp := h.phase_eq_of_job hi hm
    rw [destroy_of_some (h.owns i m hi) hm]
    cases hg : s.set g with
    | true => exact .twice (by simp [Phases.SignalsTwice, hp, hg])
    | false =>
      refine .ok (by simp [Phases.SignalsTwice, hp, hg]) ?_
      simpa [Phases.after] using (h.signal hi hm).clear (i := i) (o := none) rfl (by simp)

/-- **An operation agrees with the phases.** -/
theorem agrees {r : Except Halt ManagedJobs} (h : Tracks s p) (hr : s.apply a = some r) :
    Agrees p a r := by
  cases a with
  | construct i =>
    cases hi : s.job i with
    | some m => simp [apply, hi] at hr
    | none =>
      simp only [apply, hi, Option.some.injEq] at hr
      subst hr
      exact .ok id (h.construct hi (.inr rfl))
  | constructDefault i =>
    cases hi : s.job i with
    | some m => simp [apply, hi] at hr
    | none =>
      simp only [apply, hi, Option.some.injEq] at hr
      subst hr
      exact .ok id (h.construct hi (.inl rfl))
  | stop i =>
    obtain ⟨m, hi, hr⟩ := Option.bind_eq_some_iff.1 hr
    exact Option.some.inj hr ▸ h.agrees_stop hi
  | join i =>
    obtain ⟨m, hi, hr⟩ := Option.bind_eq_some_iff.1 hr
    exact Option.some.inj hr ▸ h.agrees_join hi
  | moveAssign i j =>
    obtain ⟨m, hi, hr⟩ := Option.bind_eq_some_iff.1 hr
    obtain ⟨other, hj, hr⟩ := Option.bind_eq_some_iff.1 hr
    by_cases hij : i = j
    · rw [if_pos hij] at hr
      refine Option.some.inj hr ▸ .ok (by simp [Phases.SignalsTwice, hij]) ?_
      simpa [Phases.after, hij] using h
    · rw [if_neg hij] at hr
      exact Option.some.inj hr ▸ h.agrees_moveAssign hi hj hij
  | destroy i =>
    obtain ⟨m, hi, hr⟩ := Option.bind_eq_some_iff.1 hr
    exact Option.some.inj hr ▸ h.agrees_destroy hi

end Tracks

/-! ### Every run -/

variable {s : ManagedJobs} {tr : List Action}

theorem tracks_of_run (h : Run managedJobs tr s) : Tracks s (Phases.lifecycle tr) := by
  induction h with
  | nil hi =>
    obtain rfl := hi
    exact Tracks.initial
  | snoc _ hs ih =>
    rw [Phases.lifecycle, List.foldl_append]
    exact (ih.agrees hs).tracks _ rfl

/-- **When an operation fails.** After any operations none of which has halted, an operation on
objects that are alive throws or terminates the program if and only if it stops, destroys or
assigns to an object whose thread was told to stop before and was not joined. -/
theorem fails_iff_signalsTwice (h : Run managedJobs tr s) {a : Action}
    (ha : s.apply a ≠ none) : s.Fails a ↔ (Phases.lifecycle tr).SignalsTwice a := by
  obtain ⟨r, hr⟩ := Option.ne_none_iff_exists'.1 ha
  rw [← ((tracks_of_run h).agrees hr).fails_iff]
  simp [Fails, hr]

theorem run_snoc {s' : ManagedJobs} (h : Run managedJobs tr s) (a : Action)
    (ha : s.apply a = some (.ok s')) : Run managedJobs (tr ++ [a]) s' := h.snoc ha

/-- A job that was told to stop is joined, and then destroyed. -/
theorem fails_iff_signalsTwice_joined : ∃ s, Run managedJobs [.construct 0, .stop 0, .join 0] s ∧
    (s.Fails (.destroy 0) ↔
      (Phases.lifecycle [.construct 0, .stop 0, .join 0]).SignalsTwice (.destroy 0)) ∧
    ¬ s.Fails (.destroy 0) := by
  have h := run_snoc (run_snoc (run_snoc (.nil rfl) (.construct 0) rfl) (.stop 0) rfl) (.join 0) rfl
  have hiff := fails_iff_signalsTwice h (a := .destroy 0) (by decide)
  exact ⟨_, h, hiff, fun hf ↦ absurd (hiff.1 hf) (by decide)⟩

/-- A job that was told to stop is destroyed. -/
theorem fails_destroy_stopped : ¬ ∀ tr s, Run managedJobs tr s → ∀ a, ¬ s.Fails a := by
  intro hall
  have h := run_snoc (run_snoc (.nil rfl) (.construct 0) rfl) (.stop 0) rfl
  exact hall _ _ h (.destroy 0) ⟨.alreadySatisfied, rfl, by decide⟩

end ManagedJobs

end Cppkg.Jobs
