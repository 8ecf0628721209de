import Mathlib.Algebra.Order.BigOperators.Group.Finset
import Mathlib.Data.Nat.Find
import Cppkg.Egrpc.ClientAsync
import Cppkg.Egrpc.ClientAsyncStream
import Cppkg.Lib.Interleave

/-!
# Waiting for calls

`wait_for` of `iclient_async.cc`. For a promise it takes the future, polls it until it is ready, and
passes an error on to `err_handle`. For a list of promises it does so with the first one, which it
then removes, until the list is empty.

A thread in `wait_for` runs beside the calls that set the promises. `Calls` is what it sees of
them; a promise that is set stays as it is, and while one is unset some call can go on
(`Calls.Lawful`). The handlers of `client_async.h` and `client_async_stream.h` are such calls, any
number of them side by side.
-/

namespace Cppkg.Egrpc

open Transition

/-- Calls and the promises they set. -/
structure Calls (σ ℓ π : Type*) where
  system : System σ ℓ
  promise : σ → π → ErrPromiseT

namespace Calls

variable {σ τ ℓ μ π ρ ι : Type*}

/-- What `wait_for` relies on. -/
structure Lawful (C : Calls σ ℓ π) : Prop where
  stable : ∀ {tr s a s' p err}, Run C.system tr s → C.system.step s a s' →
    C.promise s p = some err → C.promise s' p = some err
  exists_step : ∀ {tr s p}, Run C.system tr s → C.promise s p = none →
    ∃ a s', C.system.step s a s'

/-- Calls side by side, each with its promise. -/
def family [DecidableEq ι] (S : ι → System σ ℓ) (promise : σ → ErrPromiseT) :
    Calls (ι → σ) (ι × ℓ) ι where
  system := System.family S
  promise s i := promise (s i)

/-- The calls of `C` and those of `D`. -/
def both (C : Calls σ ℓ π) (D : Calls τ μ ρ) : Calls (σ × τ) (ℓ ⊕ μ) (π ⊕ ρ) where
  system := C.system.both D.system
  promise s := Sum.elim (C.promise s.1) (D.promise s.2)

namespace Lawful

/-- A call that goes on as long as its promise is unset, and no longer. -/
theorem family [DecidableEq ι] {S : ι → System σ ℓ} {promise : σ → ErrPromiseT}
    (hunset : ∀ {i tr s a s'}, Run (S i) tr s → (S i).step s a s' → promise s = none)
    (hstep : ∀ {i tr s}, Run (S i) tr s → promise s = none → ∃ a s', (S i).step s a s') :
    (Calls.family S promise).Lawful where
  stable {tr s a s' p err} h hs hp := by
    obtain ⟨t, ht, rfl⟩ := hs
    have hne : p ≠ a.1 := by
      rintro rfl
      exact Option.some_ne_none _ (hp.symm.trans (hunset (h.member a.1) ht))
    simpa [Calls.family, hne] using hp
  exists_step {tr s p} h hp := by
    obtain ⟨a, t, ht⟩ := hstep (h.member p) hp
    exact ⟨(p, a), _, System.step_member ht⟩

theorem both {C : Calls σ ℓ π} {D : Calls τ μ ρ} (hC : C.Lawful) (hD : D.Lawful) :
    (C.both D).Lawful where
  stable {tr s a s' p err} h hs hp := by
    cases a with
    | inl a =>
      obtain ⟨hs, heq⟩ := hs
      cases p with
      | inl p => exact hC.stable h.left hs hp
      | inr p => exact (congrArg (D.promise · p) heq).trans hp
    | inr a =>
      obtain ⟨hs, heq⟩ := hs
      cases p with
      | inl p => exact (congrArg (C.promise · p) heq).trans hp
      | inr p => exact hD.stable h.right hs hp
  exists_step {tr s p} h hp := by
    cases p with
    | inl p =>
      obtain ⟨a, t, ht⟩ := hC.exists_step h.left hp
      exact ⟨.inl a, _, System.step_left ht⟩
    | inr p =>
      obtain ⟨a, t, ht⟩ := hD.exists_step h.right hp
      exact ⟨.inr a, _, System.step_right ht⟩

end Lawful

end Calls

namespace WaitFor

/-- Where `wait_for` stands. -/
inductive Pc (π : Type*) where
  /-- At the head of the loop. -/
  | loop
  /-- It polls the future of a promise. -/
  | polls (p : π)
  /-- `get_future` has thrown. -/
  | thrown

/-- Calls, and a thread in `wait_for`. -/
structure Waiter (σ π : Type*) where
  calls : σ
  /-- The promises whose future was taken. -/
  retrieved : List π
  promises : List π
  pc : Pc π
  /-- What `err_handle` was called with. -/
  handled : List ErrptrT

/-- What happens next. -/
inductive Action (ℓ : Type*) where
  /-- A call goes on. -/
  | call (a : ℓ)
  | getFuture
  /-- The promise is not set, and `wait_for` polls it again. -/
  | timeout
  /-- The promise is set. -/
  | ready

namespace Action

variable {ℓ : Type*}

/-- The step of a call. -/
def called : Action ℓ → Option ℓ
  | .call a => some a
  | _ => none

/-- `wait_for` takes a future, or is done with one. -/
def isWait : Action ℓ → Bool
  | .getFuture => true
  | .ready => true
  | _ => false

def isTimeout : Action ℓ → Bool
  | .timeout => true
  | _ => false

theorem length_eq (tr : List (Action ℓ)) :
    tr.length =
      tr.countP isWait + tr.countP isTimeout + (tr.filterMap Action.called).length := by
  induction tr with
  | nil => rfl
  | cons a tr ih =>
    cases a <;> simp [List.countP_cons, List.filterMap_cons, isWait, isTimeout, called, ih] <;>
      omega

end Action

variable {σ ℓ π : Type*}

/-- `wait_for` calls `err_handle` if it is set and there is an error. -/
def report (err_handle : Bool) (err : ErrptrT) : List ErrptrT :=
  if err.isSome && err_handle then [err] else []

/-- The steps of the calls and of the thread. -/
inductive Step [DecidableEq π] (C : Calls σ ℓ π) (err_handle : Bool) (s : Waiter σ π) :
    Action ℓ → Waiter σ π → Prop
  | call {a : ℓ} {calls : σ} (hs : C.system.step s.calls a calls) :
      Step C err_handle s (.call a) { s with calls := calls }
  | getFuture {p : π} {rest : List π} (hpc : s.pc = .loop) (hp : s.promises = p :: rest) :
      Step C err_handle s .getFuture
        (if p ∈ s.retrieved then { s with pc := .thrown }
        else { s with retrieved := s.retrieved ++ [p], pc := .polls p })
  | timeout {p : π} (hpc : s.pc = .polls p) (hp : C.promise s.calls p = none) :
      Step C err_handle s .timeout s
  | ready {p : π} {err : ErrptrT} (hpc : s.pc = .polls p) (hp : C.promise s.calls p = some err) :
      Step C err_handle s .ready
        { s with
          promises := s.promises.tail
          pc := .loop
          handled := s.handled ++ report err_handle err }

/-- Calls, and a thread that enters `wait_for` with a list of promises. No future was taken. -/
def system [DecidableEq π] (C : Calls σ ℓ π) (err_handle : Bool) (promises : List π) :
    System (Waiter σ π) (Action ℓ) where
  init s := C.system.init s.calls ∧ s.retrieved = [] ∧ s.promises = promises ∧ s.pc = .loop ∧
    s.handled = []
  step := Step C err_handle

/-! ### What was waited for -/

/-- Where the thread stands when it is done with the promises `done`. -/
def Pc.After (done : List π) (s : Waiter σ π) : Prop :=
  match s.pc with
  | .loop => s.retrieved = done
  | .polls p => s.retrieved = done ++ [p] ∧ p ∉ done ∧ ∃ rest, s.promises = p :: rest
  | .thrown => ∃ p ∈ done, ∃ rest, s.promises = p :: rest

/-- The invariant of a thread in `wait_for`, which is done with the promises `done`. -/
structure Waited (C : Calls σ ℓ π) (err_handle : Bool) (promises done : List π)
    (tr : List (Action ℓ)) (s : Waiter σ π) : Prop where
  calls : Run C.system (tr.filterMap Action.called) s.calls
  promises_eq : promises = done ++ s.promises
  nodup : done.Nodup
  set : ∀ p ∈ done, (C.promise s.calls p).isSome
  handled : s.handled = (done.filterMap (C.promise s.calls)).flatMap (report err_handle)
  pc : Pc.After done s
  countP : tr.countP Action.isWait = 2 * done.length + match s.pc with | .loop => 0 | _ => 1

section

variable {C : Calls σ ℓ π} {err_handle : Bool} {promises done : List π}
  {tr : List (Action ℓ)} {s s' : Waiter σ π}

namespace Waited

/-- A call goes on. The promises that are set stay as they are. -/
theorem call (hC : C.Lawful) (hw : Waited C err_handle promises done tr s) {a : ℓ} {calls : σ}
    (hs : C.system.step s.calls a calls) :
    Waited C err_handle promises done (tr ++ [.call a]) { s with calls := calls } := by
  have hsame : ∀ p ∈ done, C.promise calls p = C.promise s.calls p := fun p hp ↦ by
    obtain ⟨err, herr⟩ := Option.isSome_iff_exists.1 (hw.set p hp)
    rw [herr, hC.stable hw.calls hs herr]
  refine ⟨?_, hw.promises_eq, hw.nodup, fun p hp ↦ ?_, ?_, hw.pc, ?_⟩
  · rw [List.filterMap_append]
    exact hw.calls.snoc hs
  · rw [hsame p hp]
    exact hw.set p hp
  · rw [hw.handled, List.filterMap_congr hsame]
  · rw [List.countP_append, hw.countP]
    rfl

theorem timeout (hw : Waited C err_handle promises done tr s) :
    Waited C err_handle promises done (tr ++ [.timeout]) s := by
  refine ⟨?_, hw.promises_eq, hw.nodup, hw.set, hw.handled, hw.pc, ?_⟩
  · simpa [List.filterMap_append, List.filterMap_cons, Action.called] using hw.calls
  · rw [List.countP_append, hw.countP]
    rfl

/-- The thread is done with one more promise. -/
theorem ready (hw : Waited C err_handle promises done tr s) {p : π} {err : ErrptrT}
    (hpc : s.pc = .polls p) (hp : C.promise s.calls p = some err) :
    Waited C err_handle promises (done ++ [p]) (tr ++ [.ready])
      { s with
        promises := s.promises.tail
        pc := .loop
        handled := s.handled ++ report err_handle err } := by
  obtain ⟨hretrieved, hnew, rest, hrest⟩ :
      s.retrieved = done ++ [p] ∧ p ∉ done ∧ ∃ rest, s.promises = p :: rest := by
    simpa [Pc.After, hpc] using hw.pc
  have hnodup : (done ++ [p]).Nodup := by
    rw [← List.concat_eq_append]
    exact hw.nodup.concat hnew
  refine ⟨?_, ?_, hnodup, ?_, ?_, hretrieved, ?_⟩
  · simpa [List.filterMap_append, List.filterMap_cons, Action.called] using hw.calls
  · rw [hw.promises_eq, hrest, List.tail_cons, List.append_assoc, List.singleton_append]
  · intro q hq
    rcases List.mem_append.1 hq with hq | hq
    · exact hw.set q hq
    · rw [List.mem_singleton.1 hq, hp]
      rfl
  · rw [hw.handled, List.filterMap_append, List.flatMap_append]
    simp [hp]
  · rw [List.countP_append, hw.countP, hpc, List.length_append]
    simp [Action.isWait, Nat.mul_add]

variable [DecidableEq π]

theorem getFuture (hw : Waited C err_handle promises done tr s) {p : π} {rest : List π}
    (hpc : s.pc = .loop) (hp : s.promises = p :: rest) :
    Waited C err_handle promises done (tr ++ [.getFuture])
      (if p ∈ s.retrieved then { s with pc := .thrown }
      else { s with retrieved := s.retrieved ++ [p], pc := .polls p }) := by
  have hretrieved : s.retrieved = done := by simpa [Pc.After, hpc] using hw.pc
  have hcalls : Run C.system ((tr ++ [Action.getFuture]).filterMap Action.called) s.calls := by
    simpa [List.filterMap_append, List.filterMap_cons, Action.called] using hw.calls
  have hcount : (tr ++ [Action.getFuture]).countP Action.isWait = 2 * done.length + 1 := by
    rw [List.countP_append, hw.countP, hpc]
    rfl
  split
  next hmem => exact ⟨hcalls, hw.promises_eq, hw.nodup, hw.set, hw.handled,
    ⟨p, hretrieved ▸ hmem, rest, hp⟩, hcount⟩
  next hmem => exact ⟨hcalls, hw.promises_eq, hw.nodup, hw.set, hw.handled,
    ⟨congrArg (· ++ [p]) hretrieved, hretrieved ▸ hmem, rest, hp⟩, hcount⟩

end Waited

theorem waited_of_run [DecidableEq π] (hC : C.Lawful)
    (h : Run (system C err_handle promises) tr s) :
    ∃ done, Waited C err_handle promises done tr s := by
  induction h with
  | @nil s hi =>
    obtain ⟨hcalls, hretrieved, hpromises, hpc, hhandled⟩ := hi
    exact ⟨[], .nil hcalls, hpromises.symm, List.nodup_nil, by simp, by simp [hhandled],
      by simp [Pc.After, hpc, hretrieved], by simp [hpc]⟩
  | snoc _ hs ih =>
    obtain ⟨done, hw⟩ := ih
    cases hs with
    | call hs => exact ⟨done, hw.call hC hs⟩
    | getFuture hpc hp => exact ⟨done, hw.getFuture hpc hp⟩
    | timeout => exact ⟨done, hw.timeout⟩
    | ready hpc hp => exact ⟨_, hw.ready hpc hp⟩

end

end WaitFor

/-! ### The calls of a client -/

namespace AsyncClientHandler

variable {RES : Type*} {A : Client RES} {N : ℕ} {tr : List ℕ} {w w' : Chain RES}

/-- What the promise of a request with `N` retries is set to. -/
def outcome (A : Client RES) (N : ℕ) : ErrptrT :=
  if (List.range (N + 1)).any fun k ↦ (A.status k).ok then none
  else Egrpc.error (A.status N).message

theorem outcome_of_firstOk {i : ℕ} (hin : i ≤ N) (hi : FirstOk A i) : outcome A N = none :=
  if_pos (List.any_eq_true.2 ⟨i, List.mem_range.2 (Nat.lt_succ_of_le hin), hi.1⟩)

theorem outcome_of_fail (hfail : ∀ i ≤ N, (A.status i).ok = false) :
    outcome A N = Egrpc.error (A.status N).message := by
  refine if_neg fun hany ↦ ?_
  obtain ⟨i, hi, hok⟩ := List.any_eq_true.1 hany
  exact Bool.false_ne_true ((hfail i (Nat.le_of_lt_succ (List.mem_range.1 hi))).symm.trans hok)

theorem exists_firstOk_or_fail (A : Client RES) (N : ℕ) :
    (∃ i ≤ N, FirstOk A i) ∨ ∀ i ≤ N, (A.status i).ok = false := by
  by_cases hex : ∃ i, (A.status i).ok = true
  · have hfirst : FirstOk A (Nat.find hex) :=
      ⟨Nat.find_spec hex, fun j hj ↦ Bool.eq_false_iff.2 (Nat.find_min hex hj)⟩
    rcases Nat.lt_or_ge N (Nat.find hex) with hlt | hle
    · exact .inr fun i hi ↦ hfirst.2 i (Nat.lt_of_le_of_lt hi hlt)
    · exact .inl ⟨_, hle, hfirst⟩
  · exact .inr fun i _ ↦ Bool.eq_false_iff.2 fun hok ↦ hex ⟨i, hok⟩

/-- A request that has no attempt in flight has come to its end. -/
theorem ended_of_run [Inhabited RES] (h : Run (system A N) tr w) (hnil : w.pool.inflight = []) :
    (∀ i ≤ N, FirstOk A i → Ended w (i + 1) (if A.cb then [A.reply i] else []) none) ∧
      ((∀ i ≤ N, (A.status i).ok = false) →
        Ended w (N + 1) [] (Egrpc.error (A.status N).message)) := by
  have hl := (retrying_of_run h).leaves
  have hlog : w.log = attempts A N 0 := by
    cases hl.settles with
    | done _ hlog => exact hlog
    | waits hinflight => simp [hnil] at hinflight
  refine ⟨fun i hin hok ↦ .of_log hl.balanced hl.recorded hnil ?_,
    fun hfail ↦ .of_log hl.balanced hl.recorded hnil ?_⟩
  · rw [hlog, attempts_of_firstOk hin hok, succeed]
    split <;> simp
  · rw [hlog, attempts_of_fail hfail]
    simp

/-- A request goes on until its promise is set, to the outcome of its attempts. -/
theorem outcome_of_run [Inhabited RES] (h : Run (system A N) tr w) :
    w.promise = none ∧ (∃ k w', Step A N w k w') ∨
      w.pool.inflight = [] ∧ w.promise = some (outcome A N) := by
  cases hw : w.pool.inflight with
  | cons op rest =>
    have hk : (op.1, ()) ∈ w.pool.inflight := hw ▸ List.mem_cons_self
    obtain ⟨hunset, w', hw', -⟩ := (retrying_of_run h).exists_deliver hk
    exact .inl ⟨hunset, _, w', .handle hk hw'⟩
  | nil =>
    obtain ⟨hok, hfailed⟩ := ended_of_run h hw
    refine .inr ⟨rfl, ?_⟩
    rcases exists_firstOk_or_fail A N with ⟨i, hin, hi⟩ | hfail
    · rw [outcome_of_firstOk hin hi, (hok i hin hi).promise]
    · rw [outcome_of_fail hfail, (hfailed hfail).promise]

/-- A request that goes on has not set its promise. -/
theorem unset_of_step [Inhabited RES] {k : ℕ} (h : Run (system A N) tr w)
    (hs : Step A N w k w') : w.promise = none := by
  cases hs with
  | handle hk _ => exact ((retrying_of_run h).exists_deliver hk).1

end AsyncClientHandler

namespace AsyncClientStreamHandler

variable {DATA : Type*} [Inhabited DATA] {tr : List (Completion DATA)} {s s' : Stream DATA}
  {c : Completion DATA}

/-- A stream goes on until its promise is set. -/
theorem exists_step_of_unset (h : Run system tr s) (hp : s.promise = none) :
    ∃ c s', Step s c s' := by
  have hs := streaming_of_run h
  cases hg : s.handler with
  | none =>
    obtain ⟨-, -, -, d, -, -, -, -, hpromise, -⟩ := hs.of_deleted hg
    exact absurd (hpromise.symm.trans hp) (Option.some_ne_none _)
  | some g =>
    obtain ⟨⟨op, hop⟩, -⟩ := hs.of_handler hg
    obtain ⟨g', s', hg', hs', -⟩ := hs.exists_handle (c := ⟨op, true, default, .okStatus⟩)
      (by simp [hop])
    exact ⟨_, s', .handle (by simp [hop]) hg' hs'⟩

/-- A stream that goes on has not set its promise. -/
theorem unset_of_step (h : Run system tr s) (hs : Step s c s') : s.promise = none := by
  cases hs with
  | handle _ hh _ => exact ((streaming_of_run h).of_handler hh).2.1

end AsyncClientStreamHandler

namespace WaitFor

variable {RES DATA ι κ : Type*} [Inhabited RES] [Inhabited DATA] [DecidableEq ι] [DecidableEq κ]

/-- Requests and streams of a client, side by side. -/
def clientCalls (A : ι → Client RES) (N : ι → ℕ) :
    Calls ((ι → AsyncClientHandler.Chain RES) × (κ → AsyncClientStreamHandler.Stream DATA))
      (ι × ℕ ⊕ κ × AsyncClientStreamHandler.Completion DATA) (ι ⊕ κ) :=
  .both
    (.family (fun i ↦ AsyncClientHandler.system (A i) (N i)) AsyncClientHandler.Chain.promise)
    (.family (fun _ ↦ AsyncClientStreamHandler.system) AsyncClientStreamHandler.Stream.promise)

theorem lawful_clientCalls (A : ι → Client RES) (N : ι → ℕ) :
    (clientCalls A N : Calls _ (ι × ℕ ⊕ κ × AsyncClientStreamHandler.Completion DATA) _).Lawful :=
  .both
    (.family AsyncClientHandler.unset_of_step fun h hp ↦
      ((AsyncClientHandler.outcome_of_run h).resolve_right fun hset ↦
        Option.some_ne_none _ (hset.2.symm.trans hp)).2)
    (.family AsyncClientStreamHandler.unset_of_step AsyncClientStreamHandler.exists_step_of_unset)

/-- The completions of stream `j`. -/
def completions (j : κ)
    (tr : List (Action (ι × ℕ ⊕ κ × AsyncClientStreamHandler.Completion DATA))) :
    List (AsyncClientStreamHandler.Completion DATA) :=
  ((tr.filterMap Action.called).filterMap Sum.getRight?).filterMap (labelOf j)

/-- The error of a call: the outcome of the attempts of a request, the final status of a stream. -/
def errorOf (A : ι → Client RES) (N : ι → ℕ)
    (tr : List (Action (ι × ℕ ⊕ κ × AsyncClientStreamHandler.Completion DATA))) :
    ι ⊕ κ → ErrPromiseT :=
  Sum.elim (fun i ↦ some (AsyncClientHandler.outcome (A i) (N i)))
    fun j ↦ (completions j tr).getLast?.map AsyncClientStreamHandler.Completion.error

variable {A : ι → Client RES} {N : ι → ℕ} {err_handle : Bool} {promises : List (ι ⊕ κ)}
  {tr : List (Action (ι × ℕ ⊕ κ × AsyncClientStreamHandler.Completion DATA))}
  {s : Waiter _ (ι ⊕ κ)}

/-- A request whose promise is set has come to its end. -/
theorem Waited.request {done : List (ι ⊕ κ)}
    (hw : Waited (clientCalls A N) err_handle promises done tr s) {i : ι} (hi : .inl i ∈ done) :
    (s.calls.1 i).pool.inflight = [] ∧
      (clientCalls A N).promise s.calls (.inl i) = errorOf A N tr (.inl i) := by
  have hset := hw.set _ hi
  refine (AsyncClientHandler.outcome_of_run (hw.calls.left.member i)).resolve_left fun hunset ↦ ?_
  change (s.calls.1 i).promise.isSome at hset
  rw [hunset.1] at hset
  cases hset

/-- A stream whose promise is set has come to its end. -/
theorem Waited.stream {done : List (ι ⊕ κ)}
    (hw : Waited (clientCalls A N) err_handle promises done tr s) {j : κ} (hj : .inr j ∈ done) :
    (s.calls.2 j).handler = none ∧
      (clientCalls A N).promise s.calls (.inr j) = errorOf A N tr (.inr j) := by
  have hset := hw.set _ hj
  have hs := AsyncClientStreamHandler.streaming_of_run (hw.calls.right.member j)
  change (s.calls.2 j).promise.isSome at hset
  cases hg : (s.calls.2 j).handler with
  | some g =>
    rw [(hs.of_handler hg).2.1] at hset
    cases hset
  | none =>
    obtain ⟨-, pre, c, d, htr, -, -, -, hpromise, -⟩ := hs.of_deleted hg
    refine ⟨rfl, hpromise.trans ?_⟩
    change _ = (completions j tr).getLast?.map AsyncClientStreamHandler.Completion.error
    rw [completions, htr]
    simp

/-- **`wait_for` reports the errors of the calls it has waited for.** At any time it is done with a
first part of the list, without repetition, whose calls have all come to an end: no attempt of
a request is in flight, and the handler of a stream is deleted. If it is set, `err_handle` was
called with the errors of these calls that failed, in the order of the list, and with no other.
`get_future` throws if and only if the promise is listed a second time. -/
theorem wait_for_reports (h : Run (system (clientCalls A N) err_handle promises) tr s) :
    ∃ done, promises = done ++ s.promises ∧ done.Nodup ∧
      (∀ i, .inl i ∈ done → (s.calls.1 i).pool.inflight = []) ∧
      (∀ j, .inr j ∈ done → (s.calls.2 j).handler = none) ∧
      s.handled = (done.filterMap (errorOf A N tr)).flatMap (report err_handle) ∧
      ∀ s', Step (clientCalls A N) err_handle s .getFuture s' →
        (s'.pc = .thrown ↔ ∃ p ∈ done, s.promises.head? = some p) := by
  obtain ⟨done, hw⟩ := waited_of_run (lawful_clientCalls A N) h
  refine ⟨done, hw.promises_eq, hw.nodup, fun i hi ↦ (hw.request hi).1,
    fun j hj ↦ (hw.stream hj).1, ?_, fun s' hs ↦ ?_⟩
  · rw [hw.handled, List.filterMap_congr]
    rintro (i | j) hp
    · exact (hw.request hp).2
    · exact (hw.stream hp).2
  · cases hs with
    | @getFuture p rest hpc hp =>
      have hretrieved : s.retrieved = done := by simpa [Pc.After, hpc] using hw.pc
      rw [hretrieved, hp]
      split
      next hmem => simpa using hmem
      next hmem => simpa using hmem

/-- **`wait_for` comes to its end.** As long as promises are left and none is listed twice, some
call or the thread can go on. The number of steps is bounded, up to the completions of the streams
and the polls that time out, by the number of promises and that of attempts. -/
theorem wait_for_returns [Fintype ι] (h : Run (system (clientCalls A N) err_handle promises) tr s) :
    (promises.Nodup → s.promises ≠ [] → ∃ a s', Step (clientCalls A N) err_handle s a s' ∧
      a.isTimeout = false) ∧
    tr.length ≤ 2 * promises.length + ∑ i, (N i + 1) + tr.countP Action.isTimeout +
      ((tr.filterMap Action.called).filterMap Sum.getRight?).length := by
  obtain ⟨done, hw⟩ := waited_of_run (lawful_clientCalls A N) h
  constructor
  · intro hnodup hne
    have hpc := hw.pc
    unfold Pc.After at hpc
    cases hs : s.pc with
    | loop =>
      obtain ⟨p, rest, hp⟩ := List.exists_cons_of_ne_nil hne
      exact ⟨_, _, .getFuture hs hp, rfl⟩
    | polls p =>
      cases hp : (clientCalls A N).promise s.calls p with
      | none =>
        obtain ⟨a, calls, ha⟩ := (lawful_clientCalls A N).exists_step hw.calls hp
        exact ⟨_, _, .call ha, rfl⟩
      | some err => exact ⟨_, _, .ready hs hp, rfl⟩
    | thrown =>
      simp only [hs] at hpc
      obtain ⟨p, hp, rest, hrest⟩ := hpc
      rw [hw.promises_eq, hrest] at hnodup
      exact absurd rfl ((List.nodup_append.1 hnodup).2.2 p hp p List.mem_cons_self)
  · have hwait : tr.countP Action.isWait ≤ 2 * promises.length := by
      have hpc := hw.pc
      unfold Pc.After at hpc
      rw [hw.countP, hw.promises_eq, List.length_append]
      cases hs : s.pc with
      | loop => exact Nat.mul_le_mul_left 2 (Nat.le_add_right ..)
      | polls p =>
        simp only [hs] at hpc ⊢
        obtain ⟨-, -, rest, hrest⟩ := hpc
        rw [hrest, List.length_cons]
        omega
      | thrown =>
        simp only [hs] at hpc ⊢
        obtain ⟨p, -, rest, hrest⟩ := hpc
        rw [hrest, List.length_cons]
        omega
    have hrequests : ((tr.filterMap Action.called).filterMap Sum.getLeft?).length ≤
        ∑ i, (N i + 1) := by
      rw [length_eq_sum_labelOf]
      exact Finset.sum_le_sum fun i _ ↦
        (AsyncClientHandler.retrying_of_run (hw.calls.left.member i)).length_le
    have hlength := Action.length_eq tr
    rw [length_eq_getLeft_add_getRight (tr.filterMap Action.called)] at hlength
    omega

/-- A request that fails, beside a stream. -/
theorem run_one : ∃ (tr : _) (s : Waiter ((Unit → AsyncClientHandler.Chain ℕ) ×
    (Unit → AsyncClientStreamHandler.Stream ℕ)) (Unit ⊕ Unit)),
    Run (system (clientCalls (fun _ : Unit ↦ ⟨true, fun _ ↦ ⟨13, "error"⟩, id,
      fun _ ↦ false⟩ : Unit → Client ℕ) fun _ ↦ 0) true [.inl ()]) tr s ∧
      s.promises = [] ∧ s.handled = [some "error"] := by
  have h := ((((Run.nil (S := system (clientCalls (κ := Unit)
      (fun _ : Unit ↦ ⟨true, fun _ ↦ ⟨13, "error"⟩, id, fun _ ↦ false⟩ : Unit → Client ℕ)
      fun _ ↦ 0) true [.inl ()])
      (s := ⟨(_, fun _ ↦ (AsyncClientStreamHandler.started : AsyncClientStreamHandler.Stream ℕ)),
        [], [.inl ()], .loop, []⟩)
      ⟨⟨fun _ ↦ rfl, fun _ ↦ rfl⟩, rfl, rfl, rfl, rfl⟩).snoc
    (Step.getFuture rfl rfl)).snoc
    (Step.timeout (p := .inl ()) rfl rfl)).snoc
    (Step.call (System.step_left
      (System.step_member (i := ()) (.handle List.mem_cons_self rfl))))).snoc
    (Step.ready (p := .inl ()) rfl rfl)
  exact ⟨_, _, h, rfl, rfl⟩

theorem wait_for_reports_one : ∃ (tr : _) (s : Waiter ((Unit → AsyncClientHandler.Chain ℕ) ×
    (Unit → AsyncClientStreamHandler.Stream ℕ)) (Unit ⊕ Unit)),
    Run (system (clientCalls (fun _ : Unit ↦ ⟨true, fun _ ↦ ⟨13, "error"⟩, id,
      fun _ ↦ false⟩ : Unit → Client ℕ) fun _ ↦ 0) true [.inl ()]) tr s ∧
      s.handled = [some "error"] ∧ (s.calls.1 ()).pool.inflight = [] := by
  obtain ⟨tr, s, h, hnil, hhandled⟩ := run_one
  obtain ⟨done, hdone, -, hrequests, -⟩ := wait_for_reports h
  rw [hnil, List.append_nil] at hdone
  exact ⟨tr, s, h, hhandled, hrequests () (hdone ▸ List.mem_cons_self)⟩

theorem wait_for_returns_one : ∃ (tr : _) (s : Waiter ((Unit → AsyncClientHandler.Chain ℕ) ×
    (Unit → AsyncClientStreamHandler.Stream ℕ)) (Unit ⊕ Unit)),
    Run (system (clientCalls (fun _ : Unit ↦ ⟨true, fun _ ↦ ⟨13, "error"⟩, id,
      fun _ ↦ false⟩ : Unit → Client ℕ) fun _ ↦ 0) true [.inl ()]) tr s ∧
      tr.length ≤ 3 + tr.countP Action.isTimeout +
        ((tr.filterMap Action.called).filterMap Sum.getRight?).length := by
  obtain ⟨tr, s, h, -⟩ := run_one
  exact ⟨tr, s, h, (wait_for_returns h).2⟩

end WaitFor

end Cppkg.Egrpc
