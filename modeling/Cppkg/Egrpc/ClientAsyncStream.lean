import Cppkg.Egrpc.ClientHandler
import Cppkg.Lib.Transition

/-!
# Client streams

`AsyncClientStreamHandler` of `client_async_stream.h`. The handler is called for each operation
that completes: after the start of the call and after each successful read it reads on, after the
first event that fails it asks for the final status, and when that has come it deletes itself,
which sets the promise.

`Streaming` ties the status of the handler to the one operation that is outstanding and to the
completions so far: all of them are ok, or all but the last one, which `Finish` answers, or the
last one is that of `Finish`. What the handler has done is a function of the completions.
-/

namespace Cppkg.Egrpc

open Transition

namespace AsyncClientStreamHandler

/-- `CallStatus`. -/
inductive CallStatus where
  | startup
  | process
  | finish
  deriving DecidableEq, Repr

end AsyncClientStreamHandler

/-- `AsyncClientStreamHandler`. -/
structure AsyncClientStreamHandler (DATA : Type*) extends ClientHandler where
  /-- `status_`. -/
  status : Status
  /-- `reply_`. -/
  reply : DATA
  /-- `call_status_`. -/
  callStatus : AsyncClientStreamHandler.CallStatus

namespace AsyncClientStreamHandler

/-- The operations of a client stream. -/
inductive Op where
  /-- `StartCall`. -/
  | start
  | read
  | finish
  deriving DecidableEq, Repr

/-- What the handler does. -/
inductive Event (DATA : Type*) where
  /-- `Read` is issued. -/
  | read
  /-- `Finish` is issued. -/
  | finish
  /-- `handler_` is called. -/
  | handler (data : DATA)
  /-- The promise is set. -/
  | setValue (err : ErrptrT)

/-- The completion of an operation. -/
structure Completion (DATA : Type*) where
  op : Op
  /-- The event is true. -/
  ok : Bool
  /-- What a read leaves in `reply_`. -/
  data : DATA
  /-- What `Finish` leaves in `status_`. -/
  status : Status

/-- A handler, until it is deleted, the operations outstanding, the promise and what the handler
has done. -/
structure Stream (DATA : Type*) where
  handler : Option (AsyncClientStreamHandler DATA)
  outstanding : List Op
  promise : ErrPromiseT
  log : List (Event DATA)

variable {DATA : Type*}

namespace Stream

/-- `reader_->Read`. -/
def read (s : Stream DATA) : Stream DATA :=
  { s with outstanding := s.outstanding ++ [.read], log := s.log ++ [.read] }

/-- `reader_->Finish`. -/
def finish (s : Stream DATA) : Stream DATA :=
  { s with outstanding := s.outstanding ++ [.finish], log := s.log ++ [.finish] }

/-- `delete this`, for the handler `h`. -/
def destroy (s : Stream DATA) (h : ClientHandler) : Option (Stream DATA) :=
  (h.destructor s.promise).map fun promise ↦
    { s with handler := none, promise := promise, log := s.log ++ h.values.map .setValue }

/-- `handle`. -/
def handle (s : Stream DATA) (event_status : Bool) : Option (Stream DATA) :=
  match s.handler with
  | none => none
  | some h =>
    match h.callStatus with
    | .startup =>
      if event_status then some { s with handler := some { h with callStatus := .process } }.read
      else some { s with handler := some { h with callStatus := .finish } }.finish
    | .process =>
      if event_status then some { s with log := s.log ++ [Event.handler h.reply] }.read
      else some { s with handler := some { h with callStatus := .finish } }.finish
    | .finish =>
      if h.status.ok then s.destroy h.toClientHandler
      else s.destroy { h.toClientHandler with error := Egrpc.error h.status.message }

end Stream

/-- What a completion writes to the handler. -/
def receive (c : Completion DATA) (h : AsyncClientStreamHandler DATA) :
    AsyncClientStreamHandler DATA :=
  match c.op with
  | .start => h
  | .read => { h with reply := c.data }
  | .finish => { h with status := c.status }

/-- The completion of an operation, which is no longer outstanding, is written. -/
def written (s : Stream DATA) (c : Completion DATA) (h : AsyncClientStreamHandler DATA) :
    Stream DATA :=
  { s with handler := some (receive c h), outstanding := s.outstanding.erase c.op }

/-- An outstanding operation completes. -/
inductive Step (s : Stream DATA) : Completion DATA → Stream DATA → Prop
  | handle {c : Completion DATA} {h : AsyncClientStreamHandler DATA} {s' : Stream DATA}
      (hop : c.op ∈ s.outstanding) (hh : s.handler = some h)
      (hs : (written s c h).handle c.ok = some s') : Step s c s'

/-- A handler whose `StartCall` is outstanding. -/
def started [Inhabited DATA] : Stream DATA where
  handler := some ⟨⟨true, none⟩, .okStatus, default, .startup⟩
  outstanding := [.start]
  promise := none
  log := []

/-- A client stream. -/
def system [Inhabited DATA] : System (Stream DATA) (Completion DATA) where
  init s := s = started
  step := Step

/-! ### What a handler does -/

namespace Event

/-- The data `handler_` is called with. -/
def handled : Event DATA → Option DATA
  | .handler data => some data
  | _ => none

/-- The value the promise is set to. -/
def value : Event DATA → Option ErrptrT
  | .setValue err => some err
  | _ => none

/-- The event issues `Finish`. -/
def isFinish : Event DATA → Bool
  | .finish => true
  | _ => false

end Event

namespace Completion

/-- The data of a successful read. -/
def received (c : Completion DATA) : Option DATA :=
  if c.op = .read ∧ c.ok = true then some c.data else none

/-- What a handler does on a completion that is ok, before it has issued `Finish`. -/
def answer (c : Completion DATA) : List (Event DATA) :=
  if c.op = .read then [.handler c.data, .read] else [.read]

/-- The error of the final status. -/
def error (c : Completion DATA) : ErrptrT :=
  if c.status.ok then none else Egrpc.error c.status.message

end Completion

/-- The completions are ok, and none is that of `Finish`. -/
def Goes (tr : List (Completion DATA)) : Prop := ∀ c ∈ tr, c.ok = true ∧ c.op ≠ .finish

/-- The handler has the promise, which is not set, and no error. -/
structure Unset (s : Stream DATA) (h : AsyncClientStreamHandler DATA) : Prop where
  handler : s.handler = some h
  completePromise : h.completePromise = true
  error : h.error = none
  promise : s.promise = none

/-- Where a handler stands after the completions `tr`. -/
inductive Streaming (tr : List (Completion DATA)) (s : Stream DATA) : Prop
  | startup {h : AsyncClientStreamHandler DATA} (hu : Unset s h) (hst : h.callStatus = .startup)
      (htr : tr = []) (hop : s.outstanding = [.start]) (hlog : s.log = [])
  | process {h : AsyncClientStreamHandler DATA} (hu : Unset s h) (hst : h.callStatus = .process)
      (htr : Goes tr) (hop : s.outstanding = [.read]) (hlog : s.log = tr.flatMap Completion.answer)
  | finish {h : AsyncClientStreamHandler DATA} {pre : List (Completion DATA)}
      {c : Completion DATA} (hu : Unset s h) (hst : h.callStatus = .finish)
      (htr : tr = pre ++ [c]) (hpre : Goes pre) (hc : c.ok = false)
      (hop : s.outstanding = [.finish])
      (hlog : s.log = pre.flatMap Completion.answer ++ [.finish])
  | deleted {pre : List (Completion DATA)} {c d : Completion DATA} (hh : s.handler = none)
      (htr : tr = pre ++ [c, d]) (hpre : Goes pre) (hc : c.ok = false) (hd : d.op = .finish)
      (hop : s.outstanding = [])
      (hlog : s.log = pre.flatMap Completion.answer ++ [.finish, .setValue d.error])
      (hpromise : s.promise = some d.error)

section

variable {tr pre : List (Completion DATA)} {c : Completion DATA} {s s' : Stream DATA}
  {h : AsyncClientStreamHandler DATA}

/-! ### What a call of `handle()` does -/

namespace Stream

theorem handle_startup (hh : s.handler = some h) (hst : h.callStatus = .startup) :
    s.handle true = some { s with handler := some { h with callStatus := .process } }.read := by
  simp [handle, hh, hst]

theorem handle_process (hh : s.handler = some h) (hst : h.callStatus = .process) :
    s.handle true = some { s with log := s.log ++ [Event.handler h.reply] }.read := by
  simp [handle, hh, hst]

/-- The first event that fails. -/
theorem handle_false (hh : s.handler = some h) (hst : h.callStatus ≠ .finish) :
    s.handle false = some { s with handler := some { h with callStatus := .finish } }.finish := by
  cases hc : h.callStatus with
  | finish => exact absurd hc hst
  | _ => simp [handle, hh, hc]

theorem handle_finish (hu : Unset s h) (hst : h.callStatus = .finish) (event_status : Bool) :
    s.handle event_status = some { s with
      handler := none
      promise := some (if h.status.ok then none else Egrpc.error h.status.message)
      log := s.log ++
        [Event.setValue (if h.status.ok then none else Egrpc.error h.status.message)] } := by
  obtain ⟨hh, hpromise, herror, hunset⟩ := hu
  cases hok : h.status.ok <;>
    simp [handle, hh, hst, hok, destroy, ClientHandler.destructor_of_promise, hpromise, hunset,
      ClientHandler.values, herror]

end Stream

@[simp] theorem callStatus_receive : (receive c h).callStatus = h.callStatus := by
  unfold receive
  split <;> rfl

theorem Unset.written (hu : Unset s h) (c : Completion DATA) :
    Unset (written s c h) (receive c h) := by
  refine ⟨rfl, ?_, ?_, hu.promise⟩ <;> unfold receive <;> split <;>
    first | exact hu.completePromise | exact hu.error

theorem Goes.append (htr : Goes tr) (hok : c.ok = true) (hop : c.op ≠ .finish) :
    Goes (tr ++ [c]) := by
  intro d hd
  rcases List.mem_append.1 hd with hd | hd
  · exact htr d hd
  · rw [List.mem_singleton.1 hd]
    exact ⟨hok, hop⟩

/-- The first event that fails is answered by `Finish`. -/
theorem exists_handle_false (hu : Unset s h) (hst : h.callStatus ≠ .finish) (htr : Goes tr)
    (hout : s.outstanding = [c.op]) (hlog : s.log = tr.flatMap Completion.answer)
    (hok : c.ok = false) :
    ∃ s', (written s c h).handle c.ok = some s' ∧ Streaming (tr ++ [c]) s' := by
  have hu' := hu.written c
  rw [hok]
  refine ⟨_, Stream.handle_false rfl (by simpa using hst), .finish
    ⟨rfl, hu'.completePromise, hu'.error, hu'.promise⟩ rfl (Eq.refl (tr ++ [c])) htr hok ?_ ?_⟩
  · simp [written, Stream.finish, hout]
  · simp [written, Stream.finish, hlog]

/-- An event that is ok, before `Finish` was issued, is answered by a read. -/
theorem exists_handle_true (hu : Unset s h)
    (hst : h.callStatus = .startup ∧ c.op = .start ∨ h.callStatus = .process ∧ c.op = .read)
    (htr : Goes tr) (hout : s.outstanding = [c.op]) (hlog : s.log = tr.flatMap Completion.answer)
    (hok : c.ok = true) :
    ∃ s', (written s c h).handle c.ok = some s' ∧ Streaming (tr ++ [c]) s' := by
  have hu' := hu.written c
  have hgoes : Goes (tr ++ [c]) := htr.append hok (by rcases hst with hst | hst <;> simp [hst.2])
  rw [hok]
  rcases hst with ⟨hst, hstart⟩ | ⟨hst, hread⟩
  · refine ⟨_, Stream.handle_startup rfl (by simpa using hst), .process
      ⟨rfl, hu'.completePromise, hu'.error, hu'.promise⟩ rfl hgoes ?_ ?_⟩
    · simp [written, Stream.read, hout]
    · simp [written, Stream.read, hlog, Completion.answer, hstart]
  · refine ⟨_, Stream.handle_process rfl (by simpa using hst), .process
      ⟨rfl, hu'.completePromise, hu'.error, hu'.promise⟩ (by simpa using hst) hgoes ?_ ?_⟩
    · simp [written, Stream.read, hout]
    · simp [written, Stream.read, hlog, Completion.answer, hread, receive]

theorem exists_handle_finish {e : Completion DATA} (hu : Unset s h)
    (hst : h.callStatus = .finish) (hpre : Goes pre) (he : e.ok = false)
    (hout : s.outstanding = [.finish]) (hfinish : c.op = .finish)
    (hlog : s.log = pre.flatMap Completion.answer ++ [.finish]) :
    ∃ s', (written s c h).handle c.ok = some s' ∧ Streaming (pre ++ [e, c]) s' := by
  have hstatus : (receive c h).status = c.status := by simp [receive, hfinish]
  refine ⟨_, Stream.handle_finish (hu.written c) (by simpa using hst) c.ok,
    .deleted rfl rfl hpre he hfinish ?_ ?_ ?_⟩
  · simp [written, hout, hfinish]
  · simp [written, hlog, hstatus, Completion.error]
  · simp [hstatus, Completion.error]

/-- A completion before `Finish` was issued is handled. -/
theorem exists_handle_of_goes (hu : Unset s h)
    (hst : h.callStatus = .startup ∧ c.op = .start ∨ h.callStatus = .process ∧ c.op = .read)
    (htr : Goes tr) (hout : s.outstanding = [c.op])
    (hlog : s.log = tr.flatMap Completion.answer) :
    ∃ h s', s.handler = some h ∧ (written s c h).handle c.ok = some s' ∧
      Streaming (tr ++ [c]) s' := by
  have hne : h.callStatus ≠ .finish := by rcases hst with hst | hst <;> simp [hst.1]
  obtain ⟨s', hs'⟩ : ∃ s', (written s c h).handle c.ok = some s' ∧ Streaming (tr ++ [c]) s' := by
    cases hok : c.ok with
    | false => exact hok ▸ exists_handle_false hu hne htr hout hlog hok
    | true => exact hok ▸ exists_handle_true hu hst htr hout hlog hok
  exact ⟨h, s', hu.handler, hs'⟩

/-- **A completion is handled**, and the handler stands as the completions tell. -/
theorem Streaming.exists_handle (hs : Streaming tr s) (hop : c.op ∈ s.outstanding) :
    ∃ h s', s.handler = some h ∧ (written s c h).handle c.ok = some s' ∧
      Streaming (tr ++ [c]) s' := by
  cases hs with
  | startup hu hst htr hout hlog =>
    have hstart : c.op = .start := by simpa [hout] using hop
    exact exists_handle_of_goes hu (.inl ⟨hst, hstart⟩) (by simp [htr, Goes])
      (by rw [hout, hstart]) (by simp [htr, hlog])
  | process hu hst htr hout hlog =>
    have hread : c.op = .read := by simpa [hout] using hop
    exact exists_handle_of_goes hu (.inr ⟨hst, hread⟩) htr (by rw [hout, hread]) hlog
  | finish hu hst htr hpre he hout hlog =>
    have hfinish : c.op = .finish := by simpa [hout] using hop
    obtain ⟨s', hs'⟩ := exists_handle_finish hu hst hpre he hout hfinish hlog
    rw [htr, List.append_assoc]
    exact ⟨_, s', hu.handler, hs'⟩
  | deleted _ _ _ _ _ hout => simp [hout] at hop

end

/-! ### Runs -/

section

variable {tr pre : List (Completion DATA)} {s : Stream DATA}

theorem streaming_of_run [Inhabited DATA] (h : Run system tr s) : Streaming tr s := by
  induction h with
  | nil hi =>
    obtain rfl := hi
    exact .startup ⟨rfl, rfl, rfl, rfl⟩ rfl rfl rfl rfl
  | snoc _ hstep ih =>
    cases hstep with
    | handle hop hh hs =>
      obtain ⟨g, s', hg, hs', hstr⟩ := ih.exists_handle hop
      obtain rfl := Option.some.inj (hg.symm.trans hh)
      obtain rfl := Option.some.inj (hs'.symm.trans hs)
      exact hstr

theorem handled_answer (hpre : ∀ c ∈ pre, c.ok = true) :
    (pre.flatMap Completion.answer).filterMap Event.handled =
      pre.filterMap Completion.received := by
  induction pre with
  | nil => rfl
  | cons c pre ih =>
    have hok := hpre c List.mem_cons_self
    rw [List.flatMap_cons, List.filterMap_append,
      ih fun d hd ↦ hpre d (List.mem_cons_of_mem c hd), List.filterMap_cons]
    by_cases hread : c.op = .read <;>
      simp [Completion.answer, Completion.received, hread, hok, Event.handled]

theorem mem_answer {e : Event DATA} (he : e ∈ pre.flatMap Completion.answer) :
    e.isFinish = false ∧ e.value = none := by
  obtain ⟨c, -, he⟩ := List.mem_flatMap.1 he
  unfold Completion.answer at he
  split at he
  · rcases List.mem_cons.1 he with rfl | he
    · exact ⟨rfl, rfl⟩
    · rw [List.mem_singleton.1 he]
      exact ⟨rfl, rfl⟩
  · rw [List.mem_singleton.1 he]
    exact ⟨rfl, rfl⟩

/-- Nothing is handled after `Finish` was issued. -/
def Closes (log : List (Event DATA)) : Prop :=
  log.Pairwise fun a b ↦ a.isFinish = true → b.handled = none

theorem closes_answer {tail : List (Event DATA)} (htail : Closes tail) :
    Closes (pre.flatMap Completion.answer ++ tail) := by
  have hnever : ∀ a ∈ pre.flatMap Completion.answer, ∀ b : Event DATA,
      a.isFinish = true → b.handled = none := fun a ha b hfinish ↦ by
    simp [(mem_answer ha).1] at hfinish
  refine List.pairwise_append.2 ⟨?_, htail, fun a ha b _ ↦ hnever a ha b⟩
  exact List.pairwise_of_forall_mem_list fun a ha b _ ↦ hnever a ha b

theorem countP_answer : (pre.flatMap Completion.answer).countP Event.isFinish = 0 :=
  List.countP_eq_zero.2 fun e he ↦ by simp [(mem_answer he).1]

theorem value_answer : (pre.flatMap Completion.answer).filterMap Event.value = [] :=
  List.filterMap_eq_nil_iff.2 fun _ he ↦ (mem_answer he).2

namespace Streaming

theorem log_eq (hs : Streaming tr s) :
    s.log.filterMap Event.handled = tr.filterMap Completion.received ∧ Closes s.log ∧
      s.log.countP Event.isFinish = if tr.all Completion.ok then 0 else 1 := by
  cases hs with
  | startup _ _ htr _ hlog => simp [htr, hlog, Closes]
  | process _ _ htr _ hlog =>
    have hok : ∀ c ∈ tr, c.ok = true := fun c hc ↦ (htr c hc).1
    refine ⟨by rw [hlog, handled_answer hok], ?_, ?_⟩
    · rw [hlog, ← List.append_nil (tr.flatMap _)]
      exact closes_answer List.Pairwise.nil
    · rw [hlog, countP_answer, if_pos (List.all_eq_true.2 hok)]
  | @finish _ pre c _ _ htr hpre hc _ hlog =>
    have hok : ∀ c ∈ pre, c.ok = true := fun c hc ↦ (hpre c hc).1
    refine ⟨?_, ?_, ?_⟩
    · simp [hlog, htr, handled_answer hok, List.filterMap_cons, Completion.received, hc,
        Event.handled]
    · rw [hlog]
      exact closes_answer (List.pairwise_singleton ..)
    · simp [hlog, htr, countP_answer, hc, Event.isFinish]
  | @deleted pre c d _ htr hpre hc hd _ hlog _ =>
    have hok : ∀ c ∈ pre, c.ok = true := fun c hc ↦ (hpre c hc).1
    refine ⟨?_, ?_, ?_⟩
    · simp [hlog, htr, handled_answer hok, List.filterMap_cons, Completion.received, hc, hd,
        Event.handled]
    · rw [hlog]
      exact closes_answer (by simp [Closes, Event.handled])
    · simp [hlog, htr, countP_answer, hc, List.countP_cons, Event.isFinish]

theorem of_handler {g : AsyncClientStreamHandler DATA} (hs : Streaming tr s)
    (hg : s.handler = some g) :
    (∃ op, s.outstanding = [op]) ∧ s.promise = none ∧ s.log.filterMap Event.value = [] := by
  cases hs with
  | startup hu _ _ hop hlog => exact ⟨⟨_, hop⟩, hu.promise, by rw [hlog]; rfl⟩
  | process hu _ _ hop hlog => exact ⟨⟨_, hop⟩, hu.promise, by rw [hlog, value_answer]⟩
  | finish hu _ _ _ _ hop hlog =>
    refine ⟨⟨_, hop⟩, hu.promise, ?_⟩
    rw [hlog, List.filterMap_append, value_answer]
    rfl
  | deleted hh _ _ _ _ _ _ _ => simp [hh] at hg

theorem of_deleted (hs : Streaming tr s) (hnone : s.handler = none) :
    s.outstanding = [] ∧ ∃ pre c d, tr = pre ++ [c, d] ∧ (∀ e ∈ pre, e.ok = true) ∧
      c.ok = false ∧ d.op = .finish ∧ s.promise = some d.error ∧
      s.log.filterMap Event.value = [d.error] := by
  cases hs with
  | deleted _ htr hpre hc hd hop hlog hpromise =>
    refine ⟨hop, _, _, _, htr, fun e he ↦ (hpre e he).1, hc, hd, hpromise, ?_⟩
    rw [hlog, List.filterMap_append, value_answer]
    rfl
  | startup hu | process hu | finish hu => simp [hu.handler] at hnone

end Streaming

/-- **The protocol of a client stream.** Until the handler is deleted exactly one operation is
outstanding, and its completion can be handled; then none is. `handler_` is called with the data of
the successful reads, in order, and not after `Finish` was issued. `Finish` is issued once, on the
first event that fails. The promise is set once, on the event that follows `Finish`, to the error
of the final status. -/
theorem stream_protocol [Inhabited DATA] (h : Run system tr s) :
    (∀ g, s.handler = some g → s.promise = none ∧ s.log.filterMap Event.value = [] ∧
      ∃ op, s.outstanding = [op] ∧ ∀ c, c.op = op → ∃ s', Step s c s') ∧
    s.log.filterMap Event.handled = tr.filterMap Completion.received ∧
    Closes s.log ∧
    s.log.countP Event.isFinish = (if tr.all Completion.ok then 0 else 1) ∧
    (s.handler = none → s.outstanding = [] ∧ ∃ pre c d, tr = pre ++ [c, d] ∧
      (∀ e ∈ pre, e.ok = true) ∧ c.ok = false ∧ d.op = .finish ∧ s.promise = some d.error ∧
      s.log.filterMap Event.value = [d.error]) := by
  have hs := streaming_of_run h
  obtain ⟨hhandled, hcloses, hfinish⟩ := hs.log_eq
  refine ⟨fun g hg ↦ ?_, hhandled, hcloses, hfinish, hs.of_deleted⟩
  obtain ⟨⟨op, hop⟩, hpromise, hvalue⟩ := hs.of_handler hg
  refine ⟨hpromise, hvalue, op, hop, fun c hc ↦ ?_⟩
  obtain ⟨g', s', hg', hs', -⟩ := hs.exists_handle (c := c) (by simp [hop, hc])
  exact ⟨s', .handle (by simp [hop, hc]) hg' hs'⟩

end

/-- One read succeeds, the next one fails, and the final status is not ok. -/
theorem stream_protocol_one : ∃ s : Stream ℕ,
    Run system [⟨.start, true, 0, .okStatus⟩, ⟨.read, true, 7, .okStatus⟩,
      ⟨.read, false, 0, .okStatus⟩, ⟨.finish, true, 0, ⟨13, "error"⟩⟩] s ∧
    s.outstanding = [] ∧ s.log.filterMap Event.handled = [7] ∧
    s.promise = some (some "error") := by
  have h := ((((Run.nil (S := (system : System (Stream ℕ) _)) rfl).snoc
    (Step.handle (c := ⟨.start, true, 0, .okStatus⟩) List.mem_cons_self rfl rfl)).snoc
    (Step.handle (c := ⟨.read, true, 7, .okStatus⟩) List.mem_cons_self rfl rfl)).snoc
    (Step.handle (c := ⟨.read, false, 0, .okStatus⟩) List.mem_cons_self rfl rfl)).snoc
    (Step.handle (c := ⟨.finish, true, 0, ⟨13, "error"⟩⟩) List.mem_cons_self rfl rfl)
  obtain ⟨-, hhandled, -, -, hdeleted⟩ := stream_protocol h
  exact ⟨_, h, (hdeleted rfl).1, hhandled, rfl⟩

end AsyncClientStreamHandler

end Cppkg.Egrpc
