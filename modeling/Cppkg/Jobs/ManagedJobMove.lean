import Cppkg.Jobs.ManagedJob

/-!
# Move construction of a ManagedJob

A promise gives its future once: `get_future` throws on the second call. The constructors of
`managed_job.h` retrieve the future of the promise they make, and the move constructor calls
`get_future` on the promise that it takes over.

`Promises` adds to the objects which futures were retrieved. In every state that is reached these
are the futures of all promises there are (`Retrieves`), so no move construction completes, and a
run is a run of `managedJobs` (`base_of_run`). The way by a default construction and a move
assignment does complete, and hands on the thread with its signal.
-/

namespace Cppkg.Jobs

open Function Transition

/-- Why an operation does not complete, `get_future` included. -/
inductive Failure where
  /-- `get_future` throws on a promise whose future was retrieved. -/
  | futureAlreadyRetrieved
  | halt (h : Halt)
  deriving DecidableEq, Repr

/-- `get_future` of a promise, and the futures retrieved then. -/
def getFuture (promise : Option Signal) (retrieved : Signal → Bool) :
    Except Failure (Signal × (Signal → Bool)) :=
  match promise with
  | none => .error (.halt .noState)
  | some g =>
    if retrieved g then .error .futureAlreadyRetrieved else .ok (g, update retrieved g true)

namespace ManagedJob

variable (retrieved : Signal → Bool)

/-- The default constructor, with a new promise. -/
def constructDefault (promise : Signal) : Except Failure (ManagedJob × (Signal → Bool)) :=
  (getFuture (some promise) retrieved).map fun r ↦ (⟨some r.1, some promise, none⟩, r.2)

/-- The constructor with a job, whose thread waits for a copy of `exit_future_`. -/
def construct (promise : Signal) : Except Failure (ManagedJob × (Signal → Bool)) :=
  (getFuture (some promise) retrieved).map fun r ↦ (⟨some r.1, some promise, some r.1⟩, r.2)

/-- The move constructor. -/
def moveConstruct (other : ManagedJob) (set : Signal → Bool) :
    Except Failure (Moved × (Signal → Bool)) :=
  let m : ManagedJob := ⟨none, other.exitSignal, other.job⟩
  let other := { other with exitSignal := none, job := none }
  match getFuture m.exitSignal retrieved with
  | .ok r => .ok (⟨{ m with exitFuture := some r.1 }, other, set⟩, r.2)
  -- the exception leaves the constructor and destroys the members
  | .error e => .error (if m.joinable then .halt .joinable else e)

end ManagedJob

/-- The objects, and the states whose futures were retrieved. -/
structure Promises where
  jobs : ManagedJobs
  retrieved : Signal → Bool

namespace Promises

open ManagedJobs

inductive Op where
  | base (a : Action)
  | moveConstruct (i j : ℕ)
  deriving DecidableEq, Repr

/-- No objects. -/
def initial : Promises := ⟨ManagedJobs.initial, fun _ ↦ false⟩

/-- What an operation does. -/
def apply (s : Promises) : Op → Option (Except Failure Promises)
  | .base (.construct i) => match s.jobs.job i with
    | some _ => none
    | none => some ((ManagedJob.construct s.retrieved s.jobs.next).map fun r ↦
        ⟨{ s.jobs with job := update s.jobs.job i (some r.1), next := s.jobs.next + 1 }, r.2⟩)
  | .base (.constructDefault i) => match s.jobs.job i with
    | some _ => none
    | none => some ((ManagedJob.constructDefault s.retrieved s.jobs.next).map fun r ↦
        ⟨{ s.jobs with job := update s.jobs.job i (some r.1), next := s.jobs.next + 1 }, r.2⟩)
  | .base a => (s.jobs.apply a).map fun r ↦
      (r.mapError .halt).map fun jobs ↦ { s with jobs := jobs }
  | .moveConstruct i j => match s.jobs.job i with
    | some _ => none
    | none => (s.jobs.job j).map fun other ↦
        (other.moveConstruct s.retrieved s.jobs.set).map fun r ↦
          ⟨{ s.jobs with
              job := update (update s.jobs.job i (some r.1.target)) j (some r.1.source)
              set := r.1.set }, r.2⟩

/-- Any number of objects with move constructions, as long as no operation halts. -/
def promises : System Promises Op where
  init s := s = initial
  step s a s' := s.apply a = some (.ok s')

/-- A new object constructed from another, and the other. -/
def byConstruction (s : Promises) (a : ManagedJob) : Except Failure ManagedJob.Moved :=
  (a.moveConstruct s.retrieved s.jobs.set).map Prod.fst

/-- A new object that is default-constructed and then assigned from another, and the other. -/
def byAssignment (s : Promises) (a : ManagedJob) : Except Failure ManagedJob.Moved := do
  let b ← ManagedJob.constructDefault s.retrieved s.jobs.next
  (b.1.moveAssign a s.jobs.set).mapError .halt

/-- The new object controls the thread of the other, its promise and its future are those the
thread waits for, and the other is not joinable. -/
structure Transfers (a : ManagedJob) (r : ManagedJob.Moved) : Prop where
  job : r.target.job = a.job
  owns : r.target.Owns
  joinable : r.source.joinable = false

/-- Moving an object is the same by construction and by assignment. -/
def MovesAlike (s : Promises) (a : ManagedJob) : Prop :=
  ∃ r, s.byConstruction a = .ok r ∧ s.byAssignment a = .ok r ∧ Transfers a r

/-! ### The futures that were retrieved -/

/-- The future of every promise was retrieved, and every promise of an object is one of these. -/
structure Retrieves (s : Promises) : Prop where
  retrieved_iff : ∀ g, s.retrieved g = true ↔ g < s.jobs.next
  signal_lt : ∀ i m, s.jobs.job i = some m → ∀ g, m.exitSignal = some g → g < s.jobs.next

variable {s s' : Promises} {a : Action} {i : ℕ} {m : ManagedJob}

theorem Retrieves.initial : Retrieves initial where
  retrieved_iff g := by simp [Promises.initial, ManagedJobs.initial]
  signal_lt i m h := by simp [Promises.initial, ManagedJobs.initial] at h

theorem Retrieves.getFuture_next (hs : Retrieves s) :
    getFuture (some s.jobs.next) s.retrieved =
      .ok (s.jobs.next, update s.retrieved s.jobs.next true) := by
  have hnew : s.retrieved s.jobs.next = false := by
    rw [← Bool.not_eq_true, hs.retrieved_iff]
    exact Nat.lt_irrefl _
  simp [getFuture, hnew]

/-- An object with the new promise is added. -/
theorem Retrieves.construct (hs : Retrieves s) (hm : m.exitSignal = some s.jobs.next) :
    Retrieves ⟨{ s.jobs with job := update s.jobs.job i (some m), next := s.jobs.next + 1 },
      update s.retrieved s.jobs.next true⟩ where
  retrieved_iff g := by
    by_cases hg : g = s.jobs.next
    · simp [hg]
    · dsimp only
      rw [update_of_ne hg, hs.retrieved_iff, Nat.lt_succ_iff_lt_or_eq, or_iff_left hg]
  signal_lt := by
    refine (forall_update_iff s.jobs.job fun _ o ↦
      ∀ m, o = some m → ∀ g, m.exitSignal = some g → g < s.jobs.next + 1).2 ⟨?_, ?_⟩
    · rintro _ ⟨⟩ g hg
      obtain rfl := Option.some.inj (hm.symm.trans hg)
      exact Nat.lt_succ_self _
    · exact fun k _ n hn g hg ↦ Nat.lt_succ_of_lt (hs.signal_lt k n hn g hg)

/-- An object is replaced by one that has no other promise than those there are. -/
theorem Retrieves.put {o : Option ManagedJob} {set : Signal → Bool} (hs : Retrieves s)
    (ho : ∀ m, o = some m → ∀ g, m.exitSignal = some g → g < s.jobs.next) :
    Retrieves ⟨{ s.jobs with job := update s.jobs.job i o, set := set }, s.retrieved⟩ where
  retrieved_iff := hs.retrieved_iff
  signal_lt := (forall_update_iff s.jobs.job fun _ o ↦
    ∀ m, o = some m → ∀ g, m.exitSignal = some g → g < s.jobs.next).2
      ⟨ho, fun k _ ↦ hs.signal_lt k⟩

theorem exists_of_map_eq_ok {ε α β : Type*} {x : Except ε α} {f : α → β} {y : β}
    (h : x.map f = .ok y) : ∃ a, x = .ok a ∧ f a = y := by
  cases x with
  | error => cases h
  | ok a => exact ⟨a, rfl, Except.ok.inj h⟩

theorem apply_of_map (h : (s.jobs.apply a).map (fun r ↦
      (r.mapError Failure.halt).map fun jobs ↦ { s with jobs := jobs }) = some (.ok s')) :
    ∃ jobs, s.jobs.apply a = some (.ok jobs) ∧ s' = ⟨jobs, s.retrieved⟩ := by
  obtain ⟨r, hr, h⟩ := Option.map_eq_some_iff.1 h
  cases r with
  | error => cases h
  | ok jobs => exact ⟨jobs, hr, (Except.ok.inj h).symm⟩

theorem signal_of_moveAssign {other : ManagedJob} {set : Signal → Bool} {r : ManagedJob.Moved}
    (h : m.moveAssign other set = .ok r) :
    r.target.exitSignal = other.exitSignal ∧ r.source.exitSignal = none := by
  simp only [ManagedJob.moveAssign, bind, Except.bind] at h
  split at h
  next => cases h
  next =>
    split at h
    next => cases h
    next =>
      obtain rfl := Except.ok.inj h
      exact ⟨rfl, rfl⟩

theorem signal_of_join {set : Signal → Bool} {m' : ManagedJob} (h : m.join set = .ok m') :
    m'.exitSignal = m.exitSignal := by
  simp only [ManagedJob.join] at h
  split at h
  next => exact congrArg _ (Except.ok.inj h).symm
  next =>
    split at h
    next =>
      obtain rfl := Except.ok.inj h
      rfl
    next => cases h

/-- **The operations other than move construction** are those of the system without promises. -/
theorem Retrieves.apply_base (hs : Retrieves s) (h : s.apply (.base a) = some (.ok s')) :
    s.jobs.apply a = some (.ok s'.jobs) ∧ Retrieves s' := by
  cases a with
  | construct i =>
    cases hi : s.jobs.job i with
    | some m => simp [apply, hi] at h
    | none =>
      simp only [apply, hi, ManagedJob.construct, hs.getFuture_next] at h
      obtain rfl := Except.ok.inj (Option.some.inj h)
      exact ⟨by simp [ManagedJobs.apply, hi], hs.construct rfl⟩
  | constructDefault i =>
    cases hi : s.jobs.job i with
    | some m => simp [apply, hi] at h
    | none =>
      simp only [apply, hi, ManagedJob.constructDefault, hs.getFuture_next] at h
      obtain rfl := Except.ok.inj (Option.some.inj h)
      exact ⟨by simp [ManagedJobs.apply, hi], hs.construct rfl⟩
  | stop i =>
    obtain ⟨jobs, hr, rfl⟩ := apply_of_map h
    refine ⟨hr, ?_⟩
    obtain ⟨m, -, hr⟩ := Option.bind_eq_some_iff.1 hr
    obtain ⟨set, -, rfl⟩ := exists_of_map_eq_ok (Option.some.inj hr)
    exact ⟨hs.retrieved_iff, hs.signal_lt⟩
  | join i =>
    obtain ⟨jobs, hr, rfl⟩ := apply_of_map h
    refine ⟨hr, ?_⟩
    obtain ⟨m, hi, hr⟩ := Option.bind_eq_some_iff.1 hr
    obtain ⟨m', hm', rfl⟩ := exists_of_map_eq_ok (Option.some.inj hr)
    refine hs.put fun n hn g hg ↦ hs.signal_lt i m hi g ?_
    obtain rfl := Option.some.inj hn
    rwa [← signal_of_join hm']
  | moveAssign i j =>
    obtain ⟨jobs, hr, rfl⟩ := apply_of_map h
    refine ⟨hr, ?_⟩
    obtain ⟨m, hi, hr⟩ := Option.bind_eq_some_iff.1 hr
    obtain ⟨other, hj, hr⟩ := Option.bind_eq_some_iff.1 hr
    split at hr
    next =>
      obtain rfl := Except.ok.inj (Option.some.inj hr)
      exact hs
    next =>
      obtain ⟨r, hmove, rfl⟩ := exists_of_map_eq_ok (Option.some.inj hr)
      obtain ⟨htarget, hsource⟩ := signal_of_moveAssign hmove
      have htargets : Retrieves ⟨{ s.jobs with job := update s.jobs.job i (some r.target) },
          s.retrieved⟩ := hs.put fun n hn g hg ↦ by
        obtain rfl := Option.some.inj hn
        exact hs.signal_lt j other hj g (htarget ▸ hg)
      refine htargets.put fun n hn g hg ↦ ?_
      obtain rfl := Option.some.inj hn
      simp [hsource] at hg
  | destroy i =>
    obtain ⟨jobs, hr, rfl⟩ := apply_of_map h
    refine ⟨hr, ?_⟩
    obtain ⟨m, -, hr⟩ := Option.bind_eq_some_iff.1 hr
    obtain ⟨set, -, rfl⟩ := exists_of_map_eq_ok (Option.some.inj hr)
    exact hs.put (by simp)

/-- **No move construction completes.** -/
theorem Retrieves.byConstruction (hs : Retrieves s) (hi : s.jobs.job i = some m) :
    s.byConstruction m = .error (if m.joinable then .halt .joinable
      else if m.exitSignal.isSome then .futureAlreadyRetrieved else .halt .noState) := by
  cases hm : m.exitSignal with
  | none =>
    simp only [Promises.byConstruction, ManagedJob.moveConstruct, getFuture, hm, Except.map]
    rfl
  | some g =>
    have hg := (hs.retrieved_iff g).2 (hs.signal_lt i m hi g hm)
    simp only [Promises.byConstruction, ManagedJob.moveConstruct, getFuture, hm, hg, if_true,
      Except.map]
    rfl

theorem Retrieves.not_moveConstruct {i j : ℕ} (hs : Retrieves s) :
    s.apply (.moveConstruct i j) ≠ some (.ok s') := by
  intro h
  simp only [apply] at h
  split at h
  next => cases h
  next =>
    obtain ⟨m, hj, h⟩ := Option.map_eq_some_iff.1 h
    obtain ⟨r, hr, -⟩ := exists_of_map_eq_ok h
    have hb := hs.byConstruction hj
    rw [Promises.byConstruction, hr] at hb
    cases hb

/-- A default construction and a move assignment hand on the thread. -/
theorem Retrieves.byAssignment (hs : Retrieves s) :
    s.byAssignment m = .ok ⟨m, ⟨none, none, none⟩, s.jobs.set⟩ := by
  simp [Promises.byAssignment, ManagedJob.constructDefault, hs.getFuture_next, Except.map, bind,
    Except.bind, ManagedJob.moveAssign_of_none, Except.mapError]

/-! ### Every run -/

variable {tr : List Op}

theorem retrieves_of_run (h : Run promises tr s) : Retrieves s := by
  induction h with
  | nil hi =>
    obtain rfl := hi
    exact Retrieves.initial
  | @snoc _ _ _ a _ hstep ih =>
    cases a with
    | base a => exact (ih.apply_base hstep).2
    | moveConstruct i j => exact absurd hstep ih.not_moveConstruct

/-- **A run is a run of the system without promises**: move constructions do not occur. -/
theorem base_of_run (h : Run promises tr s) :
    ∃ tr', tr = tr'.map .base ∧ Run managedJobs tr' s.jobs := by
  induction h with
  | nil hi =>
    obtain rfl := hi
    exact ⟨[], rfl, .nil rfl⟩
  | @snoc _ _ _ a hrun hstep ih =>
    have hs := retrieves_of_run hrun
    obtain ⟨tr', rfl, hrun'⟩ := ih
    cases a with
    | base a => exact ⟨tr' ++ [a], by simp, hrun'.snoc (hs.apply_base hstep).1⟩
    | moveConstruct i j => exact absurd hstep hs.not_moveConstruct

/-- **Moving an object is never the same by construction and by assignment.** In every state
that is reached, the move construction from any object that is alive throws or terminates the
program, where the default construction and the move assignment complete and hand on the thread
with its signal. -/
theorem not_movesAlike (h : Run promises tr s) (hi : s.jobs.job i = some m) :
    ¬ s.MovesAlike m ∧ (∃ e, s.byConstruction m = .error e) ∧
      ∃ r, s.byAssignment m = .ok r ∧ Transfers m r := by
  have hs := retrieves_of_run h
  obtain ⟨tr', -, hrun⟩ := base_of_run h
  have howns : m.Owns := (tracks_of_run hrun).owns i m hi
  have herror := hs.byConstruction hi
  refine ⟨?_, ⟨_, herror⟩, _, hs.byAssignment, rfl, howns, rfl⟩
  rintro ⟨r, hr, -⟩
  rw [herror] at hr
  cases hr

theorem run_snoc {o : Op} (h : Run promises tr s) (hs : s.apply o = some (.ok s')) :
    Run promises (tr ++ [o]) s' := h.snoc hs

/-- A job that was told to stop is not joined yet. -/
theorem not_movesAlike_stopped : ∃ s m,
    Run promises [.base (.construct 0), .base (.stop 0)] s ∧ s.jobs.job 0 = some m ∧
      ¬ s.MovesAlike m := by
  have h := run_snoc (run_snoc (.nil rfl) (o := .base (.construct 0)) rfl)
    (o := .base (.stop 0)) rfl
  exact ⟨_, _, h, rfl, (not_movesAlike (i := 0) h rfl).1⟩

/-- A job that runs. -/
theorem not_movesAlike_running : ¬ ∀ tr s, Run promises tr s →
    ∀ i m, s.jobs.job i = some m → s.MovesAlike m := by
  intro hall
  have h := run_snoc (.nil rfl) (o := .base (.construct 0)) rfl
  obtain ⟨r, hr, -⟩ := hall _ _ h 0 _ rfl
  cases hr

end Promises

end Cppkg.Jobs
