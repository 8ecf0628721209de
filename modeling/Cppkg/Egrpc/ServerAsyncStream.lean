import Cppkg.Egrpc.Grpc
import Cppkg.Egrpc.ServerCall
import Cppkg.Lib.While

/-!
# Server stream calls

`AsyncServerStreamCall` of `server_async_stream.h`. A call waits for a request. When one arrives
it creates its successor, asks the init callback for a range and hands the elements of the range
to the write callback, until that has filled a reply to write or the range is at its end. Each
write that completes resumes the loop; at the end of the range the call issues `finish`, and it
deletes itself when that has completed.

The lifetime of the calls of a server is safe as long as none is shut down in mid-stream
(`Graceful`), for `shutdown()` then issues an operation and deletes the call at once.
-/

namespace Cppkg.Egrpc

open Function Transition

/-- `CallStatus`. -/
inductive CallStatus where
  | startup
  | process
  | finish
  deriving DecidableEq, Repr

/-- `AsyncServerStreamCall`. -/
structure AsyncServerStreamCall (REQ α : Type*) where
  /-- `req_`. -/
  req : REQ
  /-- `ranges_`. -/
  ranges : List α
  /-- `it_`, as a position in the range. -/
  it : ℕ
  /-- `status_`. -/
  status : CallStatus

namespace AsyncServerStreamCall

/-- The operations of a stream call. -/
inductive Op where
  /-- The wait for a request. -/
  | request
  | write
  | finish
  deriving DecidableEq, Repr

/-- What a stream call does. -/
inductive Event (RES α : Type*) where
  /-- It creates its successor. -/
  | create
  /-- The init callback is run and leaves a range. -/
  | initCall (ranges : List α) (status : Status)
  /-- The write callback is run on the element at a position. -/
  | writeCall (it : ℕ) (wrote : Bool) (reply : RES)
  | write (reply : RES)
  | finish (status : Status)
  | delete

/-- The result of the init callback. -/
structure Inited (κ α : Type*) where
  env : κ
  ranges : List α
  status : Status

/-- The result of the write callback, which may move the iterator. -/
structure Wrote (κ RES : Type*) where
  env : κ
  it : ℕ
  reply : RES
  wrote : Bool

/-- The callbacks of a call. -/
structure Callbacks (κ REQ RES α : Type*) where
  /-- `init_call_`. -/
  initCall : κ → List α → REQ → Inited κ α
  /-- `write_call_`. -/
  writeCall : κ → REQ → List α → ℕ → RES → Wrote κ RES

variable {κ REQ RES α : Type*}

/-- A new call. -/
def new [Inhabited REQ] : AsyncServerStreamCall REQ α where
  req := default
  ranges := []
  it := 0
  status := .startup

/-- `shutdown`. -/
def shutdown (call : AsyncServerStreamCall REQ α) : List (Event RES α) :=
  (if call.status = .process then [.finish .cancelled] else []) ++ [.delete]

/-- The state of the loop over the range. -/
structure Loop (κ RES α : Type*) where
  env : κ
  it : ℕ
  reply : RES
  wrote : Bool
  events : List (Event RES α)

/-- The condition of the loop over the range. -/
def Loop.goesOn (ranges : List α) (l : Loop κ RES α) : Bool :=
  l.wrote == false && l.it != ranges.length

/-- The body of the loop over the range. The next position is taken even where the write callback
has moved the iterator to the end and `++it_` is undefined. -/
def Loop.next (cb : Callbacks κ REQ RES α) (req : REQ) (ranges : List α) (l : Loop κ RES α) :
    Loop κ RES α :=
  let r := cb.writeCall l.env req ranges l.it l.reply
  ⟨r.env, r.it + 1, r.reply, r.wrote, l.events ++ [.writeCall l.it r.wrote r.reply]⟩

/-- The end of `case PROCESS`. -/
def finishAtEnd (env : κ) (call : AsyncServerStreamCall REQ α) (events : List (Event RES α)) :
    Served κ (AsyncServerStreamCall REQ α) (Event RES α) :=
  if call.it = call.ranges.length then
    ⟨env, { call with status := .finish }, events ++ [.finish .okStatus]⟩
  else ⟨env, call, events⟩

/-- `case PROCESS` of `serve`, after the events of `case STARTUP`. -/
def process [Inhabited RES] (cb : Callbacks κ REQ RES α) (fuel : ℕ) (env : κ)
    (call : AsyncServerStreamCall REQ α) (events : List (Event RES α)) :
    Option (Served κ (AsyncServerStreamCall REQ α) (Event RES α)) :=
  let call := { call with status := .process }
  if call.it ≠ call.ranges.length then
    (While.run (Loop.goesOn call.ranges) (Loop.next cb call.req call.ranges) fuel
      ⟨env, call.it, default, false, events⟩).map fun l ↦
        let call := { call with it := l.it }
        if l.wrote then ⟨l.env, call, l.events ++ [.write l.reply]⟩
        else finishAtEnd l.env call l.events
  else some (finishAtEnd env call events)

/-- `serve`. -/
def serve [Inhabited RES] (cb : Callbacks κ REQ RES α) (fuel : ℕ) (env : κ)
    (call : AsyncServerStreamCall REQ α) :
    Option (Served κ (AsyncServerStreamCall REQ α) (Event RES α)) :=
  match call.status with
  | .startup =>
    let r := cb.initCall env call.ranges call.req
    let call := { call with ranges := r.ranges }
    let events := [.create, .initCall r.ranges r.status]
    if r.status.ok = false then
      some ⟨r.env, { call with status := .finish }, events ++ [.finish r.status]⟩
    else process cb fuel r.env { call with it := 0 } events
  | .process => process cb fuel env call []
  | .finish => some ⟨env, call, call.shutdown⟩

/-- The constructor issues a wait for a request, `write` and `finish` an operation each. -/
def Event.effect [Inhabited REQ] :
    Event RES α → Option (Pool.Effect (AsyncServerStreamCall REQ α) Op)
  | .create => some (.spawn new .request)
  | .initCall _ _ => none
  | .writeCall _ _ _ => none
  | .write _ => some (.issue .write)
  | .finish _ => some (.issue .finish)
  | .delete => some .delete

/-- The completion of a wait writes the request. -/
def receive (op : Op) (req : REQ) (call : AsyncServerStreamCall REQ α) :
    AsyncServerStreamCall REQ α :=
  match op with
  | .request => { call with req := req }
  | _ => call

/-- Stream calls, with their callbacks. -/
def kind [Inhabited REQ] [Inhabited RES] (cb : Callbacks κ REQ RES α) :
    CallKind κ REQ (AsyncServerStreamCall REQ α) Op (Event RES α) where
  receive := receive
  serve := serve cb
  shutdown := shutdown
  effect := Event.effect
  first := (new, .request)

/-! ### What a call does to the pool -/

/-- The operation a call has in flight. -/
def op (call : AsyncServerStreamCall REQ α) : Op :=
  match call.status with
  | .startup => .request
  | .process => .write
  | .finish => .finish

@[simp] theorem status_receive {call : AsyncServerStreamCall REQ α} (o : Op) (req : REQ) :
    (receive o req call).status = call.status := by
  cases o <;> rfl

theorem shutdown_of_ne_process {call : AsyncServerStreamCall REQ α} (hs : call.status ≠ .process) :
    (call.shutdown : List (Event RES α)) = [.delete] := by
  simp [shutdown, hs]

section

variable (REQ) [Inhabited REQ]

/-- The effects of events on the pool. -/
def effects (events : List (Event RES α)) :
    List (Pool.Effect (AsyncServerStreamCall REQ α) Op) :=
  events.filterMap Event.effect

@[simp] theorem effects_append (evs evs' : List (Event RES α)) :
    effects REQ (evs ++ evs') = effects REQ evs ++ effects REQ evs' := List.filterMap_append

@[simp] theorem effects_nil : effects REQ ([] : List (Event RES α)) = [] := rfl

@[simp] theorem effects_cons (e : Event RES α) (evs : List (Event RES α)) :
    effects REQ (e :: evs) = e.effect.toList ++ effects REQ evs := by
  cases e <;> rfl

variable {REQ} {cb : Callbacks κ REQ RES α} {fuel : ℕ} {env : κ}
  {call : AsyncServerStreamCall REQ α} {events : List (Event RES α)}

/-- The loop over the range has no effect on the pool, and ends with a reply to write or at the
end of the range. -/
theorem effects_run {l : Loop κ RES α} {reply : RES} {it : ℕ}
    (h : While.run (Loop.goesOn call.ranges) (Loop.next cb call.req call.ranges) fuel
      ⟨env, it, reply, false, events⟩ = some l) :
    effects REQ l.events = effects REQ events ∧
      (l.wrote = true ∨ l.it = call.ranges.length) := by
  obtain ⟨hevs, hc⟩ := While.run_invariant
    (I := fun l : Loop κ RES α ↦ effects REQ l.events = effects REQ events) rfl
    (fun l hl _ ↦ by simp [Loop.next, hl, Event.effect]) h
  refine ⟨hevs, ?_⟩
  simpa [Loop.goesOn, or_iff_not_imp_left] using hc

theorem effects_finishAtEnd (hit : call.it = call.ranges.length) :
    effects REQ (finishAtEnd env call events).events =
      effects REQ events ++ [.issue (op (finishAtEnd env call events).call)] := by
  simp [finishAtEnd, hit, Event.effect, op]

variable [Inhabited RES]

/-- `case PROCESS` issues one operation. -/
theorem effects_process {r : Served κ (AsyncServerStreamCall REQ α) (Event RES α)}
    (h : process cb fuel env call events = some r) :
    effects REQ r.events = effects REQ events ++ [.issue (op r.call)] := by
  simp only [process] at h
  split at h
  next =>
    obtain ⟨l, hl, rfl⟩ := Option.map_eq_some_iff.1 h
    obtain ⟨hevs, hend⟩ := effects_run hl
    cases hw : l.wrote with
    | true => simp [hevs, Event.effect, op]
    | false =>
      have hit : l.it = call.ranges.length := hend.resolve_left (by simp [hw])
      rw [if_neg (by simp), effects_finishAtEnd hit, hevs]
  next hit =>
    obtain rfl := Option.some.inj h
    exact effects_finishAtEnd (not_not.1 hit)

/-- A call that has not finished issues one operation, and creates its successor first when it
waited for a request. -/
theorem effects_serve {r : Served κ (AsyncServerStreamCall REQ α) (Event RES α)}
    (hs : call.status ≠ .finish) (h : serve cb fuel env call = some r) :
    effects REQ r.events =
      (if call.status = .startup then [.spawn new .request] else []) ++ [.issue (op r.call)] := by
  cases hst : call.status with
  | finish => exact absurd hst hs
  | process =>
    simp only [serve, hst] at h
    simpa using effects_process h
  | startup =>
    simp only [serve, hst] at h
    split at h
    next =>
      obtain rfl := Option.some.inj h
      simp [Event.effect, op]
    next => simpa [Event.effect] using effects_process h

omit [Inhabited REQ] in
theorem eq_of_serve_finish {r : Served κ (AsyncServerStreamCall REQ α) (Event RES α)}
    (hs : call.status = .finish) (h : serve cb fuel env call = some r) :
    r = ⟨env, call, [.delete]⟩ := by
  simpa [serve, shutdown, hs] using h.symm

end

/-! ### The lifetime of the calls of a server -/

/-- A server of stream calls. -/
abbrev StreamServer (κ REQ RES α : Type*) :=
  Server κ (AsyncServerStreamCall REQ α) Op (Event RES α)

/-- No call is shut down in mid-stream: a write does not complete with `ok` false. -/
def Graceful (a : Server.Action Op REQ) : Prop := ∀ h req, a ≠ .complete h .write false req

/-- The pool is balanced, and the operation of a call is the one its status tells. -/
structure Attended (s : StreamServer κ REQ RES α) : Prop where
  balanced : s.pool.Balanced ∅
  matches_op : s.pool.Matches op

section

variable [Inhabited REQ] [Inhabited RES] {cb : Callbacks κ REQ RES α}
  {s s' : StreamServer κ REQ RES α} {h : ℕ} {o : Op} {call : AsyncServerStreamCall REQ α}
  {a : Server.Action Op REQ} {tr : List (Server.Action Op REQ)}

theorem attended_start (env : κ) : Attended (Server.start (kind cb) env) where
  balanced := Server.balanced_start env
  matches_op := Server.matches_start env rfl

namespace Attended

theorem record {env : κ} {events : List (Event RES α)} (hs : Attended s)
    (ho : (h, o) ∈ s.pool.inflight) (hrests : Pool.rests (effects REQ events) = 1)
    (hfits : ∀ e ∈ effects REQ events, e.Fits op call) :
    Attended (Server.record (kind cb)
      { s with pool := (s.pool.complete (h, o)).put h call, env := env } h events) where
  balanced := Server.balanced_record hs.balanced ho hrests
  matches_op := Server.matches_record hs.balanced hs.matches_op ho hrests hfits

/-- **A completion keeps the server attended**, unless it shuts a call down in mid-stream. -/
theorem step (hs : Attended s) (hstep : Server.Step (kind cb) s a s') (ha : Graceful a) :
    Attended s' := by
  cases hstep with
  | @serve h o call r req fuel ho hcall hr =>
    by_cases hf : call.status = .finish
    · obtain rfl := eq_of_serve_finish ((status_receive o req).trans hf) hr
      exact hs.record ho rfl (by simp [Event.effect, Pool.Effect.Fits])
    · have hne : (receive o req call).status ≠ .finish := by rwa [status_receive]
      have heff := effects_serve hne hr
      refine hs.record ho ?_ ?_
      · rw [heff]
        split <;> rfl
      · rw [heff]
        split <;> simp [Pool.Effect.Fits, op, new]
  | @shutdown h o call req ho hcall =>
    have hne : call.status ≠ .process := fun hp ↦
      ha h req (by rw [hs.matches_op h o call ho hcall, op, hp])
    have hevs : (kind cb).shutdown (receive o req call) = [.delete] :=
      shutdown_of_ne_process (by simpa using hne)
    rw [show (kind cb).receive o req call = receive o req call from rfl, hevs]
    exact hs.record ho rfl (by simp [Event.effect, Pool.Effect.Fits])

/-- **A call that is shut down in mid-stream leaves its `finish` in flight**, and is gone. -/
theorem not_safe (hs : Attended s) (hstep : Server.Step (kind cb) s a s') (ha : ¬ Graceful a) :
    ¬ s'.Safe := by
  simp only [Graceful, not_forall, not_not] at ha
  obtain ⟨k, req, rfl⟩ := ha
  cases hstep with
  | @shutdown _ _ call _ ho hcall =>
    have hp : call.status = .process := by
      have hop := hs.matches_op k .write call ho hcall
      cases hst : call.status with
      | startup => simp [op, hst] at hop
      | process => rfl
      | finish => simp [op, hst] at hop
    intro hsafe
    have hlive := (hsafe.live k .finish ?_).1
    · simp [Server.record, kind, shutdown, receive, hp, Pool.perform, Pool.act, Pool.delete,
        Event.effect] at hlive
    · simp [Server.record, kind, shutdown, receive, hp, Pool.perform, Pool.act, Pool.delete,
        Pool.issue, Event.effect]

theorem safe_iff_graceful (hs : Attended s) (hstep : Server.Step (kind cb) s a s') :
    s'.Safe ↔ Graceful a :=
  ⟨fun hsafe ↦ not_not.1 fun ha ↦ hs.not_safe hstep ha hsafe,
    fun ha ↦ .of_balanced (hs.step hstep ha).balanced⟩

end Attended

theorem attended_of_run (h : Run ((Server.system (kind cb)).restrict fun _ ↦ Graceful) tr s) :
    Attended s := by
  refine h.invariant ?_ ?_
  · rintro _ ⟨env, rfl⟩
    exact attended_start env
  · exact fun _ _ _ hs hstep ↦ hs.step hstep.1 hstep.2

/-- **The lifetime of stream calls is safe as long as no write fails.** In every run in which no
call is shut down in mid-stream, every live call has exactly one operation in flight, and no
operation in flight carries the tag of a call that was deleted. -/
theorem stream_lifetime_safe
    (h : Run ((Server.system (kind cb)).restrict fun _ ↦ Graceful) tr s) : s.Safe :=
  .of_balanced (attended_of_run h).balanced

end

/-- Callbacks that hand out a range and keep its elements below the request. -/
def keepBelow (ranges : List ℕ) : Callbacks Unit ℕ ℕ ℕ where
  initCall _ _ _ := ⟨(), ranges, .okStatus⟩
  writeCall _ req ranges it _ := ⟨(), it, ranges.getD it 0, decide (ranges.getD it 0 < req)⟩

/-- A range of one element is delivered, and the server is shut down while the successor waits. -/
theorem stream_lifetime_safe_one : ∃ s,
    Run ((Server.system (kind (keepBelow [7]))).restrict fun _ ↦ Graceful)
      [.complete 0 .request true 9, .complete 0 .write true 5, .complete 0 .finish true 5,
        .complete 1 .request false 5] s ∧
    s.pool.deleted = [0, 1] ∧ s.Safe := by
  have h := ((((Run.nil (S := (Server.system (kind (keepBelow [7]))).restrict fun _ ↦ Graceful)
    ⟨(), rfl⟩).snoc
    ⟨.serve (o := .request) 9 3 List.mem_cons_self rfl rfl, by simp [Graceful]⟩).snoc
    ⟨.serve (h := 0) (o := .write) 5 3 (by decide) rfl rfl, by simp [Graceful]⟩).snoc
    ⟨.serve (h := 0) (o := .finish) 5 3 (by decide) rfl rfl, by simp [Graceful]⟩).snoc
    ⟨.shutdown (h := 1) (o := .request) 5 (by decide) rfl, by simp [Graceful]⟩
  exact ⟨_, h, rfl, stream_lifetime_safe h⟩

/-- The write of the first element fails: the call is deleted with a `finish` in flight. -/
theorem not_safe_failed_write : ¬ ∀ (cb : Callbacks Unit ℕ ℕ ℕ) tr s,
    Run (Server.system (kind cb)) tr s → s.Safe := by
  intro hsafe
  have h := ((Run.nil (S := Server.system (kind (keepBelow [7]))) ⟨(), rfl⟩).snoc
    (Server.Step.serve (h := 0) (o := Op.request) 9 3 List.mem_cons_self rfl rfl)).snoc
    (Server.Step.shutdown (h := 0) (o := Op.write) 5 (by decide) rfl)
  have hlive := ((hsafe _ _ _ h).live 0 .finish (by decide)).1
  exact absurd hlive (by decide)

end AsyncServerStreamCall

end Cppkg.Egrpc
