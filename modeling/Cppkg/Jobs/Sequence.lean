import Cppkg.Lib.Transition
import Mathlib.Logic.Function.Basic

/-!
# Sequence as a transition system

`Sequence` of `sequence.h` and the parts of `ManagedJob` it runs on. The parties are any number
of client threads, which call `attach_job`, `stop` and `join`, the master thread, the threads
it launches for the tasks, and the destructor. A critical section under `queue_mutex_` is one
step, and so is every access to a future, a promise or a member outside of one.

Tasks are numbered as `attach_job` assigns their futures to `last_future_`. A task becomes
ready when its thread has run it, or when it is destroyed without having run: a broken promise.
`cisab::logs::fatal` throws, so an attach that meets `stopped_` destroys its task.

A timed wait for a signal times out as long as the signal is not set. A notification only
reaches a master that is waiting. A wait may also end without one (`wake`).

`pushed`, `started`, `cleared`, `rejected` and `returned` record what has happened. Of these a
step depends on `cleared` and `rejected` only: they say which promises are broken.
-/

namespace Cppkg.Jobs

open Function Transition

/-- The number of a task, in the order of the assignments to `last_future_`. -/
abbrev Task := ℕ

/-- Where the master thread is. -/
inductive MasterPc where
  /-- About to lock the mutex and to evaluate the predicate of the wait. -/
  | testing
  /-- Blocked in `condition_.wait`. -/
  | waiting
  /-- Holding a popped task, before its thread is launched. -/
  | holding (t : Task)
  /-- In `thd.join()`. -/
  | joining (t : Task)
  /-- About to evaluate the loop condition of `ManagedJob`. -/
  | looping
  | exited
  deriving DecidableEq, Repr

/-- Where the thread of a task is. -/
inductive ThreadPc where
  /-- About to call `job(i)`. -/
  | calling (i : ℕ)
  /-- In the body of `job(i)`. -/
  | body (i : ℕ)
  /-- About to evaluate the loop condition, after `job(i)` returned false. -/
  | polling (i : ℕ)
  /-- The task is finished, its future ready. -/
  | done
  deriving DecidableEq, Repr

/-- How far the calls of `attach_job` have come at some moment. -/
structure Moment where
  /-- The number of assignments to `last_future_`. -/
  assigned : ℕ
  /-- The number of tasks pushed. -/
  pushed : ℕ
  deriving DecidableEq, Repr

/-- Where a client thread is. -/
inductive ClientPc where
  | idle
  /-- In `attach_job`, with its future assigned, before the critical section. -/
  | attaching (t : Task)
  /-- In `attach_job`, after the critical section. -/
  | notifying
  /-- In `join`, waiting for task `t`. The call began at moment `m`. -/
  | joining (t : Task) (m : Moment)
  deriving DecidableEq, Repr

/-- Where the destructor is. -/
inductive DtorPc where
  | alive
  /-- `stopped_` is set. -/
  | marked
  /-- `stop()` has returned. -/
  | stopped
  /-- `master_.stop()` has returned. -/
  | signalled
  | destroyed
  deriving DecidableEq, Repr

/-- The state of a sequence and of its parties. -/
structure State where
  /-- `tasks_`. -/
  tasks : List Task
  /-- Whether `stop_signal_` is set. -/
  stopSignal : Bool
  /-- `stopped_`. -/
  stopped : Bool
  /-- The task of `last_future_`. -/
  lastFuture : Option Task
  /-- Whether the exit signal of `master_` is set. -/
  exitSignal : Bool
  master : MasterPc
  thread : Task → Option ThreadPc
  client : ℕ → ClientPc
  dtor : DtorPc
  /-- The number of the next task. -/
  next : Task
  /-- The tasks pushed so far, in order. -/
  pushed : List Task
  /-- The tasks whose job has started, in order. -/
  started : List Task
  /-- The tasks `stop` destroyed. -/
  cleared : List Task
  /-- The tasks destroyed when their `attach_job` threw. -/
  rejected : List Task
  /-- For every `join` that has returned, the moment it began. -/
  returned : List Moment

/-- A newly constructed sequence. -/
def State.initial : State where
  tasks := []
  stopSignal := false
  stopped := false
  lastFuture := none
  exitSignal := false
  master := .testing
  thread _ := none
  client _ := .idle
  dtor := .alive
  next := 0
  pushed := []
  started := []
  cleared := []
  rejected := []
  returned := []

/-- The master once `condition_.notify_one()` was called. -/
def MasterPc.notified : MasterPc → MasterPc
  | .waiting => .testing
  | pc => pc

/-- `stop`. -/
def State.stop (s : State) : State :=
  { s with
    tasks := []
    cleared := s.cleared ++ s.tasks
    stopSignal := true
    master := s.master.notified }

/-- The task has run to its end. -/
def State.Finished (s : State) (t : Task) : Prop := s.thread t = some .done

/-- The thread of the task has been launched, and the task has not run to its end. -/
def State.InProgress (s : State) (t : Task) : Prop := ∃ pc, s.thread t = some pc ∧ pc ≠ .done

/-- The future of the task is ready. -/
def State.Ready (s : State) (t : Task) : Prop :=
  s.Finished t ∨ t ∈ s.cleared ∨ t ∈ s.rejected

/-- This moment. -/
def State.moment (s : State) : Moment := ⟨s.next, s.pushed.length⟩

/-- The steps by the party that takes them: a client (`c`), the master, the thread of a task
(`t`), the destructor. -/
inductive Action where
  | assign (c : ℕ)
  | push (c : ℕ)
  | reject (c : ℕ)
  | notify (c : ℕ)
  | stop (c : ℕ)
  | joinNone (c : ℕ)
  | joinBegin (c : ℕ)
  | joinReturn (c : ℕ)
  | wake
  | sleep
  | leave
  | pop
  | launch
  | reap
  | again
  | exit
  | call (t : Task)
  | finish (t : Task)
  | unfinished (t : Task)
  | timeout (t : Task)
  | signal (t : Task)
  | markStopped
  | dtorStop
  | masterStop
  | masterJoin

/-- The steps from a state of a sequence. -/
inductive Step (s : State) : Action → State → Prop
  /-- `attach_job`: `last_future_ = tsk.get_future()`. -/
  | assign {c : ℕ} (hc : s.client c = .idle) :
      Step s (.assign c)
        { s with
          lastFuture := some s.next
          next := s.next + 1
          client := update s.client c (.attaching s.next) }
  /-- `attach_job`: the critical section. -/
  | push {c : ℕ} {t : Task} (hc : s.client c = .attaching t) (hs : s.stopped = false) :
      Step s (.push c)
        { s with
          tasks := s.tasks ++ [t]
          pushed := s.pushed ++ [t]
          client := update s.client c .notifying }
  /-- `attach_job`: the critical section of a stopped sequence, which throws. -/
  | reject {c : ℕ} {t : Task} (hc : s.client c = .attaching t) (hs : s.stopped = true) :
      Step s (.reject c)
        { s with
          rejected := s.rejected ++ [t]
          client := update s.client c .idle }
  /-- `attach_job`: `condition_.notify_one()`. -/
  | notify {c : ℕ} (hc : s.client c = .notifying) :
      Step s (.notify c)
        { s with
          master := s.master.notified
          client := update s.client c .idle }
  /-- `stop`, one critical section. -/
  | stop {c : ℕ} (hc : s.client c = .idle) : Step s (.stop c) s.stop
  /-- `join` without a valid future. -/
  | joinNone {c : ℕ} (hc : s.client c = .idle) (hl : s.lastFuture = none) :
      Step s (.joinNone c) { s with returned := s.returned ++ [s.moment] }
  /-- `join` starts to wait. -/
  | joinBegin {c : ℕ} {t : Task} (hc : s.client c = .idle) (hl : s.lastFuture = some t) :
      Step s (.joinBegin c)
        { s with client := update s.client c (.joining t s.moment) }
  /-- `join` returns. -/
  | joinReturn {c : ℕ} {t : Task} {m : Moment} (hc : s.client c = .joining t m) (hr : s.Ready t) :
      Step s (.joinReturn c)
        { s with
          returned := s.returned ++ [m]
          client := update s.client c .idle }
  /-- A wait that ends without a notification. -/
  | wake (hm : s.master = .waiting) : Step s .wake { s with master := .testing }
  /-- The predicate is false. -/
  | sleep (hm : s.master = .testing) (he : s.exitSignal = false) (ht : s.tasks = []) :
      Step s .sleep { s with master := .waiting }
  /-- The predicate is true by the exit signal, and there is no task. -/
  | leave (hm : s.master = .testing) (he : s.exitSignal = true) (ht : s.tasks = []) :
      Step s .leave { s with master := .looping }
  /-- The predicate is true, and the front of the queue is popped. -/
  | pop {t : Task} {rest : List Task} (hm : s.master = .testing) (ht : s.tasks = t :: rest) :
      Step s .pop { s with master := .holding t, tasks := rest }
  /-- `std::thread thd(std::move(tsk))`. -/
  | launch {t : Task} (hm : s.master = .holding t) :
      Step s .launch
        { s with master := .joining t, thread := update s.thread t (some (.calling 0)) }
  /-- `thd.join()` returns. -/
  | reap {t : Task} (hm : s.master = .joining t) (ht : s.thread t = some .done) :
      Step s .reap { s with master := .looping }
  /-- The loop condition of `ManagedJob` times out. -/
  | again (hm : s.master = .looping) (he : s.exitSignal = false) :
      Step s .again { s with master := .testing }
  /-- The loop of `ManagedJob` ends. -/
  | exit (hm : s.master = .looping) (he : s.exitSignal = true) :
      Step s .exit { s with master := .exited }
  /-- `job(i)` is called. -/
  | call {t : Task} {i : ℕ} (ht : s.thread t = some (.calling i)) :
      Step s (.call t)
        { s with
          thread := update s.thread t (some (.body i))
          started := if i = 0 then s.started ++ [t] else s.started }
  /-- `job(i)` returns true, or throws. -/
  | finish {t : Task} {i : ℕ} (ht : s.thread t = some (.body i)) :
      Step s (.finish t) { s with thread := update s.thread t (some .done) }
  /-- `job(i)` returns false. -/
  | unfinished {t : Task} {i : ℕ} (ht : s.thread t = some (.body i)) :
      Step s (.unfinished t) { s with thread := update s.thread t (some (.polling i)) }
  /-- The loop condition of the task times out. -/
  | timeout {t : Task} {i : ℕ} (ht : s.thread t = some (.polling i)) (hs : s.stopSignal = false) :
      Step s (.timeout t) { s with thread := update s.thread t (some (.calling (i + 1))) }
  /-- The loop of the task ends. -/
  | signal {t : Task} {i : ℕ} (ht : s.thread t = some (.polling i)) (hs : s.stopSignal = true) :
      Step s (.signal t) { s with thread := update s.thread t (some .done) }
  /-- `~Sequence`: `stopped_ = true`. -/
  | markStopped (hd : s.dtor = .alive) :
      Step s .markStopped { s with stopped := true, dtor := .marked }
  /-- `~Sequence`: `stop()`. -/
  | dtorStop (hd : s.dtor = .marked) : Step s .dtorStop { s.stop with dtor := .stopped }
  /-- `~Sequence`: `master_.stop()`. -/
  | masterStop (hd : s.dtor = .stopped) :
      Step s .masterStop { s with exitSignal := true, dtor := .signalled }
  /-- `~Sequence`: `master_.join()` returns. -/
  | masterJoin (hd : s.dtor = .signalled) (hm : s.master = .exited) :
      Step s .masterJoin { s with dtor := .destroyed }

/-- A sequence and its parties, from its construction on. -/
def sequence : System State Action where
  init s := s = State.initial
  step := Step

end Cppkg.Jobs
