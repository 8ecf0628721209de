import Cppkg.Egrpc.ClientAsyncStream
import Cppkg.Egrpc.StreamRange

/-!
# A stream from one end to the other

A stream call of a server (`AsyncServerStreamCall`, served as in `StreamRange`) and the client
stream that made it (`AsyncClientStreamHandler`), with what `grpc` promises of the connection
between them:

* messages arrive in the order in which they are written, and the final status arrives behind
  them; a read fails when there is nothing in front of that status;
* the connection may break at any time (a deadline, a cancellation, a lost peer). From then on
  operations may fail, and the client may get a final status that is not ok and that the server
  never sent. Messages on their way may still be read.

Both ends go on at their own pace. `Inv` is the invariant: what the client has handled, followed by
what is on the wire, is what the server has written, and that is what its write callback kept. What
the server has noted of its callbacks is what they have returned, for the request it was first
served with (`tells_of_run`).
-/

namespace Cppkg.Egrpc

open Transition

/-- The two ends of a stream and the connection between them. -/
structure StreamRpc (REQ RES α : Type*) where
  server : AsyncServerStreamCall.OneCall REQ RES α
  client : AsyncClientStreamHandler.Stream RES
  /-- The messages that were written and not read yet. -/
  wire : List RES
  /-- The final status, if the server has sent it. -/
  trailer : Option Status
  broken : Bool

namespace StreamRpc

open AsyncServerStreamCall (OneCall Callbacks Stands Delivered Midway Tells op serves)
open AsyncClientStreamHandler (Completion Streaming)

variable {κ REQ RES α : Type*}

/-- The message an event writes. -/
def written : AsyncServerStreamCall.Event RES α → Option RES
  | .write reply => some reply
  | _ => none

/-- The final status an event sends. -/
def finished : AsyncServerStreamCall.Event RES α → Option Status
  | .finish status => some status
  | _ => none

/-- The server has done something. -/
def serverDid (s : StreamRpc REQ RES α) (call : Option (AsyncServerStreamCall REQ α))
    (events : List (AsyncServerStreamCall.Event RES α)) : StreamRpc REQ RES α :=
  { s with
    server := ⟨call, s.server.events ++ events⟩
    wire := s.wire ++ events.filterMap written
    trailer := s.trailer.or (events.filterMap finished).head? }

/-- The steps of the two ends, and the end of the connection. -/
inductive Action (κ REQ RES : Type*) where
  /-- The operation of the server completes with `ok` true. -/
  | serve (env : κ) (req : REQ)
  /-- The operation of the server completes with `ok` false. -/
  | shutdown
  /-- The connection breaks. -/
  | sever
  /-- The operation of the client completes. -/
  | complete (c : Completion RES)

namespace Action

/-- The completion of an operation of the client. -/
def completion : Action κ REQ RES → Option (Completion RES)
  | .complete c => some c
  | _ => none

/-- The environment and the request of a `serve()`. -/
def served : Action κ REQ RES → Option (κ × REQ)
  | .serve env req => some (env, req)
  | _ => none

def isServe : Action κ REQ RES → Bool
  | .serve _ _ => true
  | _ => false

def isSever : Action κ REQ RES → Bool
  | .sever => true
  | _ => false

end Action

variable [Inhabited RES]

/-- The steps from a state. What a call does with a message that fails is up to its `serve()` and
`shutdown()`, and to the `handle()` of the client. -/
inductive Step (cb : Callbacks κ REQ RES α) (s : StreamRpc REQ RES α) :
    Action κ REQ RES → StreamRpc REQ RES α → Prop
  | serve (env : κ) (req : REQ) {call : AsyncServerStreamCall REQ α}
      {r : Served κ (AsyncServerStreamCall REQ α) (AsyncServerStreamCall.Event RES α)} (fuel : ℕ)
      (hc : s.server.call = some call)
      (hr : AsyncServerStreamCall.serve cb fuel env (.receive (op call) req call) = some r) :
      Step cb s (.serve env req)
        (s.serverDid
          (if r.events.any AsyncServerStreamCall.Event.isDelete then none else some r.call)
          r.events)
  | shutdown {call : AsyncServerStreamCall REQ α} (hb : s.broken = true)
      (hc : s.server.call = some call) : Step cb s .shutdown (s.serverDid none call.shutdown)
  | sever : Step cb s .sever { s with broken := true }
  /-- The call is started, or it fails. -/
  | start {c : Completion RES} {client : AsyncClientStreamHandler.Stream RES} (hop : c.op = .start)
      (hok : c.ok = true ∨ s.broken = true)
      (hs : AsyncClientStreamHandler.Step s.client c client) :
      Step cb s (.complete c) { s with client := client }
  /-- The next message is read. -/
  | message {c : Completion RES} {client : AsyncClientStreamHandler.Stream RES} {rest : List RES}
      (hop : c.op = .read) (hok : c.ok = true) (hw : s.wire = c.data :: rest)
      (hs : AsyncClientStreamHandler.Step s.client c client) :
      Step cb s (.complete c) { s with client := client, wire := rest }
  /-- There are no more messages. -/
  | noMessage {c : Completion RES} {client : AsyncClientStreamHandler.Stream RES}
      (hop : c.op = .read) (hok : c.ok = false)
      (hend : s.wire = [] ∧ s.trailer ≠ none ∨ s.broken = true)
      (hs : AsyncClientStreamHandler.Step s.client c client) :
      Step cb s (.complete c) { s with client := client }
  /-- The final status arrives. -/
  | status {c : Completion RES} {client : AsyncClientStreamHandler.Stream RES}
      (hop : c.op = .finish)
      (hst : s.wire = [] ∧ s.trailer = some c.status ∨ s.broken = true ∧ c.status.ok = false)
      (hs : AsyncClientStreamHandler.Step s.client c client) :
      Step cb s (.complete c) { s with client := client }

/-- A call that waits for a request, and a client whose `StartCall` is outstanding. -/
def started [Inhabited REQ] : StreamRpc REQ RES α where
  server := ⟨some .new, []⟩
  client := AsyncClientStreamHandler.started
  wire := []
  trailer := none
  broken := false

/-- A stream with both its ends. -/
def system [Inhabited REQ] (cb : Callbacks κ REQ RES α) :
    System (StreamRpc REQ RES α) (Action κ REQ RES) where
  init s := s = started
  step := Step cb

/-! ### What the server has sent -/

section

omit [Inhabited RES]

variable {evs : List (AsyncServerStreamCall.Event RES α)} {ranges : List α} {n it : ℕ}

theorem filterMap_written (evs : List (AsyncServerStreamCall.Event RES α)) :
    (evs.filter AsyncServerStreamCall.Event.isOp).filterMap written = evs.filterMap written := by
  rw [List.filterMap_filter]
  refine List.filterMap_congr fun e _ ↦ ?_
  cases e <;> rfl

theorem filterMap_finished (evs : List (AsyncServerStreamCall.Event RES α)) :
    (evs.filter AsyncServerStreamCall.Event.isOp).filterMap finished = evs.filterMap finished := by
  rw [List.filterMap_filter]
  refine List.filterMap_congr fun e _ ↦ ?_
  cases e <;> rfl

theorem filterMap_map_write (replies : List RES) :
    (replies.map .write : List (AsyncServerStreamCall.Event RES α)).filterMap written = replies ∧
      (replies.map .write : List (AsyncServerStreamCall.Event RES α)).filterMap finished = [] := by
  induction replies with
  | nil => exact ⟨rfl, rfl⟩
  | cons reply replies ih => simpa [List.filterMap_cons, written, finished] using ih

/-- In the midst of its range a call has written what it kept, and has not finished. -/
theorem of_midway (hm : Midway ranges n it [] evs) :
    evs.filterMap written = evs.filterMap AsyncServerStreamCall.Event.kept ∧
      evs.filterMap finished = [] := by
  have hops : evs.filter AsyncServerStreamCall.Event.isOp =
      (evs.filterMap AsyncServerStreamCall.Event.kept).map .write := by
    rw [hm.kept, List.map_nil, List.append_nil]
  rw [← filterMap_written, ← filterMap_finished, hops]
  exact filterMap_map_write _

/-- A call that has run its init callback on a range, and what it has sent if it has finished
with status `st`: everything it kept of the whole range, or nothing. -/
structure Sent (st : Status) (evs : List (AsyncServerStreamCall.Event RES α)) : Prop where
  written_eq : evs.filterMap written = evs.filterMap AsyncServerStreamCall.Event.kept
  finished_eq : evs.filterMap finished = [st]
  inited : ∃ ranges status,
    evs.filterMap AsyncServerStreamCall.Event.inited = [(ranges, status)] ∧
      if status.ok then
        st = .okStatus ∧
          evs.filterMap AsyncServerStreamCall.Event.position = List.range ranges.length
      else st = status ∧ evs.filterMap AsyncServerStreamCall.Event.kept = []

theorem Sent.of_delivered {status : Status} (hd : Delivered ranges status n evs) :
    ∃ st, Sent st evs := by
  have hinited := hd.inited
  have hd := hd.delivered
  split at hd
  next hok =>
    obtain ⟨hpos, hops, -⟩ := hd
    refine ⟨.okStatus, ?_, ?_, ranges, status, hinited, by rw [if_pos hok]; exact ⟨rfl, hpos⟩⟩
    · rw [← filterMap_written, hops, List.filterMap_append, (filterMap_map_write _).1]
      simp [written]
    · rw [← filterMap_finished, hops, List.filterMap_append, (filterMap_map_write _).2]
      rfl
  next hok =>
    obtain ⟨hpos, hops, -⟩ := hd
    have hle := AsyncServerStreamCall.length_kept_le evs
    rw [hpos, List.length_nil, Nat.le_zero] at hle
    have hkept := List.eq_nil_of_length_eq_zero hle
    refine ⟨status, ?_, ?_, ranges, status, hinited, by rw [if_neg hok]; exact ⟨rfl, hkept⟩⟩
    · rw [← filterMap_written, hops, hkept]
      rfl
    · rw [← filterMap_finished, hops]
      rfl

/-- Where the server stands that was served `n` times. It is only shut down on a connection that
has broken. -/
inductive ServerStands (broken : Bool) (n : ℕ) : OneCall REQ RES α → Prop
  | live {call : AsyncServerStreamCall REQ α} {evs : List (AsyncServerStreamCall.Event RES α)}
      (h : Stands n call evs) : ServerStands broken n ⟨some call, evs⟩
  | gone {m : ℕ} {ranges : List α} {status : Status}
      {evs : List (AsyncServerStreamCall.Event RES α)} (h : Delivered ranges status m evs)
      (hn : n ≤ m) : ServerStands broken n ⟨none, evs⟩
  /-- The wait for a request has failed. -/
  | refused (hb : broken = true) (h : n = 0) : ServerStands broken n ⟨none, [.delete]⟩
  /-- A write has failed. -/
  | cut {ranges : List α} {it : ℕ} {evs : List (AsyncServerStreamCall.Event RES α)}
      (hb : broken = true) (h : Midway ranges n it [] evs) :
      ServerStands broken n ⟨none, evs ++ [.finish .cancelled, .delete]⟩

namespace ServerStands

variable {server : OneCall REQ RES α} {call : AsyncServerStreamCall REQ α} {broken : Bool}

theorem sever (hs : ServerStands broken n server) : ServerStands true n server := by
  cases hs with
  | live h => exact .live h
  | gone h hn => exact .gone h hn
  | refused _ h => exact .refused rfl h
  | cut _ h => exact .cut rfl h

/-- What has been written is what has been kept, of the first elements of the range. -/
theorem written_eq (hs : ServerStands broken n server) :
    server.events.filterMap written =
        server.events.filterMap AsyncServerStreamCall.Event.kept ∧
      ∃ it, server.events.filterMap AsyncServerStreamCall.Event.position = List.range it := by
  have hdelivered : ∀ {m} {ranges : List α} {status : Status}
      {evs : List (AsyncServerStreamCall.Event RES α)}, Delivered ranges status m evs →
      ∃ it, evs.filterMap AsyncServerStreamCall.Event.position = List.range it := by
    intro m ranges status evs hd
    have hd := hd.delivered
    split at hd
    · exact ⟨_, hd.1⟩
    · exact ⟨0, hd.1⟩
  cases hs with
  | @live call evs h =>
    unfold Stands at h
    cases hst : call.status with
    | startup =>
      simp only [hst] at h
      exact ⟨by simp [h.2], 0, by simp [h.2]⟩
    | process =>
      simp only [hst] at h
      exact ⟨(of_midway h).1, _, h.positions⟩
    | finish =>
      simp only [hst] at h
      obtain ⟨_, _, hd⟩ := h
      obtain ⟨st, hsent⟩ := Sent.of_delivered hd
      exact ⟨hsent.written_eq, hdelivered hd⟩
  | gone h =>
    obtain ⟨st, hsent⟩ := Sent.of_delivered h
    exact ⟨hsent.written_eq, hdelivered h⟩
  | refused => exact ⟨rfl, 0, rfl⟩
  | @cut ranges it evs hb h =>
    refine ⟨?_, it, ?_⟩
    · simpa [List.filterMap_cons, written, AsyncServerStreamCall.Event.kept] using (of_midway h).1
    · simpa [List.filterMap_cons, AsyncServerStreamCall.Event.position] using h.positions

/-- Where a final status has come from. -/
theorem of_finished {st : Status} (hs : ServerStands broken n server)
    (hst : (server.events.filterMap finished).head? = some st) :
    (∀ call, server.call = some call → call.status = .finish) ∧
      (Sent st server.events ∨ broken = true ∧ st = .cancelled) := by
  have hsent : ∀ {evs : List (AsyncServerStreamCall.Event RES α)}, (∃ st', Sent st' evs) →
      (evs.filterMap finished).head? = some st → Sent st evs := by
    rintro evs ⟨st', hsent⟩ hst
    rw [hsent.finished_eq, List.head?_cons, Option.some.injEq] at hst
    rwa [← hst]
  cases hs with
  | @live call evs h =>
    unfold Stands at h
    cases hcs : call.status with
    | startup =>
      simp only [hcs] at h
      simp [h.2] at hst
    | process =>
      simp only [hcs] at h
      simp [(of_midway h).2] at hst
    | finish =>
      simp only [hcs] at h
      obtain ⟨_, _, hd⟩ := h
      refine ⟨fun call' hcall ↦ ?_, .inl (hsent (Sent.of_delivered hd) hst)⟩
      rwa [← Option.some.inj hcall]
  | gone h => exact ⟨by simp, .inl (hsent (Sent.of_delivered h) hst)⟩
  | refused => simp [finished] at hst
  | cut hb h =>
    refine ⟨by simp, .inr ⟨hb, ?_⟩⟩
    simpa [(of_midway h).2, finished, eq_comm] using hst

/-- A call that is shut down writes nothing more. -/
theorem shutdown {evs : List (AsyncServerStreamCall.Event RES α)}
    (hs : ServerStands broken n (⟨some call, evs⟩ : OneCall REQ RES α)) (hb : broken = true) :
    ServerStands broken n (⟨none, evs ++ call.shutdown⟩ : OneCall REQ RES α) := by
  cases hs with
  | live h =>
    unfold Stands at h
    cases hst : call.status with
    | startup =>
      simp only [hst] at h
      obtain ⟨hn, rfl⟩ := h
      rw [AsyncServerStreamCall.shutdown_of_ne_process (by simp [hst])]
      exact .refused hb hn
    | process =>
      simp only [hst] at h
      rw [AsyncServerStreamCall.shutdown, if_pos hst]
      exact .cut hb h
    | finish =>
      simp only [hst] at h
      obtain ⟨_, _, hd⟩ := h
      rw [AsyncServerStreamCall.shutdown_of_ne_process (by simp [hst])]
      exact .gone hd.delete (Nat.le_succ n)

/-- A call that is served stands one `serve()` further. If it has finished it only deletes
itself. -/
theorem serve [Inhabited REQ] [Inhabited RES] {cb : Callbacks κ REQ RES α} (hstay : cb.Stays)
    {env : κ} {req : REQ} {fuel : ℕ} {evs : List (AsyncServerStreamCall.Event RES α)}
    {r : Served κ (AsyncServerStreamCall REQ α) (AsyncServerStreamCall.Event RES α)}
    (hs : ServerStands broken n (⟨some call, evs⟩ : OneCall REQ RES α))
    (hr : AsyncServerStreamCall.serve cb fuel env (.receive (op call) req call) = some r) :
    ServerStands broken (n + 1)
        ⟨if r.events.any AsyncServerStreamCall.Event.isDelete then none else some r.call,
          evs ++ r.events⟩ ∧
      (call.status = .finish → r.events = [.delete]) := by
  cases hs with
  | live h =>
    have hstep : AsyncServerStreamCall.Serves cb ⟨some call, evs⟩ (env, req) _ :=
      .serve env req fuel rfl hr
    by_cases hf : call.status = .finish
    · have hf' := (AsyncServerStreamCall.status_receive (op call) req).trans hf
      obtain rfl := AsyncServerStreamCall.eq_of_serve_finish hf' hr
      simp only [Stands, hf] at h
      obtain ⟨_, _, hd⟩ := h
      exact ⟨.gone hd.delete (Nat.le_refl _), fun _ ↦ rfl⟩
    · obtain ⟨call', hcall', hstands⟩ := hstep.of_ne_finish hstay rfl hf h
      dsimp only at hcall' hstands
      rw [hcall']
      exact ⟨.live hstands, fun hf' ↦ absurd hf' hf⟩

end ServerStands

end

/-! ### What the client has received -/

section

variable {tr : List (Completion RES)} {client client' : AsyncClientStreamHandler.Stream RES}
  {c : Completion RES}

/-- A completion is handled: the data of a successful read. -/
theorem handled_of_step (h : Run AsyncClientStreamHandler.system tr client)
    (hs : AsyncClientStreamHandler.Step client c client') :
    client'.log.filterMap AsyncClientStreamHandler.Event.handled =
      client.log.filterMap AsyncClientStreamHandler.Event.handled ++ c.received.toList := by
  have hbefore := (AsyncClientStreamHandler.streaming_of_run h).log_eq.1
  have hafter := (AsyncClientStreamHandler.streaming_of_run (h.snoc hs)).log_eq.1
  rw [hafter, hbefore, List.filterMap_append]
  cases hc : c.received <;> simp [hc]

/-- The promise is set when `Finish` completes, to the error of the final status. -/
theorem promise_of_step (h : Run AsyncClientStreamHandler.system tr client)
    (hs : AsyncClientStreamHandler.Step client c client') {err : ErrptrT}
    (hp : client'.promise = some err) : c.op = .finish ∧ err = c.error := by
  have hstreaming := AsyncClientStreamHandler.streaming_of_run (h.snoc hs)
  cases hh : client'.handler with
  | some g =>
    rw [(hstreaming.of_handler hh).2.1] at hp
    cases hp
  | none =>
    obtain ⟨-, pre, e, d, htr, -, -, hd, hpromise, -⟩ := hstreaming.of_deleted hh
    obtain rfl : c = d := by
      rw [show pre ++ [e, d] = (pre ++ [e]) ++ [d] by simp] at htr
      exact List.singleton_inj.1 (List.append_inj' htr rfl).2
    exact ⟨hd, Option.some.inj (hp.symm.trans hpromise)⟩

end

/-! ### Every interleaving -/

/-- The error that a final status is reported as. -/
def reported (st : Status) : ErrptrT := if st.ok then none else Egrpc.error st.message

/-- What holds of a stream after the steps `tr`. -/
structure Inv (tr : List (Action κ REQ RES)) (s : StreamRpc REQ RES α) : Prop where
  server : ServerStands s.broken (tr.countP Action.isServe) s.server
  client : Run AsyncClientStreamHandler.system (tr.filterMap Action.completion) s.client
  carried : s.client.log.filterMap AsyncClientStreamHandler.Event.handled ++ s.wire =
    s.server.events.filterMap written
  trailer : s.trailer = (s.server.events.filterMap finished).head?
  /-- A final status that the server sent is reported behind its messages. -/
  reported : ∀ err, s.client.promise = some err →
    s.wire = [] ∧ (∃ st, s.trailer = some st ∧ err = reported st) ∨ s.broken = true ∧ err ≠ none
  drained : s.broken = false → (∃ c ∈ tr.filterMap Action.completion, c.ok = false) →
    s.wire = [] ∧ s.trailer ≠ none

section

variable {cb : Callbacks κ REQ RES α} {tr : List (Action κ REQ RES)} {s s' : StreamRpc REQ RES α}
  {a : Action κ REQ RES}

theorem Inv.started [Inhabited REQ] :
    Inv ([] : List (Action κ REQ RES)) (started : StreamRpc REQ RES α) where
  server := .live ⟨rfl, rfl⟩
  client := .nil rfl
  carried := rfl
  trailer := rfl
  reported err h := by cases h
  drained _ h := by simp at h

/-- The server goes on, and writes nothing behind its final status. -/
theorem Inv.serverDid {call : Option (AsyncServerStreamCall REQ α)}
    {evs : List (AsyncServerStreamCall.Event RES α)} (h : Inv tr s)
    (hcompletion : a.completion = none)
    (hserver : ServerStands s.broken ((tr ++ [a]).countP Action.isServe)
      ⟨call, s.server.events ++ evs⟩)
    (hlast : s.trailer ≠ none → evs.filterMap written = []) :
    Inv (tr ++ [a]) (s.serverDid call evs) := by
  have hcompletions : (tr ++ [a]).filterMap Action.completion = tr.filterMap Action.completion := by
    simp [hcompletion]
  -- what was drained stays so
  have hwire : s.wire = [] → s.trailer ≠ none → s.wire ++ evs.filterMap written = [] := by
    intro hw ht
    rw [hw, hlast ht, List.append_nil]
  have htrailer : ∀ st, s.trailer = some st →
      s.trailer.or (evs.filterMap finished).head? = some st := by
    rintro st hst
    rw [hst, Option.some_or]
  refine ⟨hserver, ?_, ?_, ?_, fun err herr ↦ ?_, fun hb hc ↦ ?_⟩
  · rw [hcompletions]
    exact h.client
  · simp only [StreamRpc.serverDid, List.filterMap_append, ← h.carried, List.append_assoc]
  · simp only [StreamRpc.serverDid, List.filterMap_append, List.head?_append, h.trailer]
  · rcases h.reported err herr with ⟨hw, st, hst, heq⟩ | hbroken
    · exact .inl ⟨hwire hw (by simp [hst]), st, htrailer st hst, heq⟩
    · exact .inr hbroken
  · rw [hcompletions] at hc
    obtain ⟨hw, ht⟩ := h.drained hb hc
    obtain ⟨st, hst⟩ := Option.ne_none_iff_exists'.1 ht
    refine ⟨hwire hw ht, ?_⟩
    simp [StreamRpc.serverDid, hst]

theorem Inv.serve [Inhabited REQ] (hstay : cb.Stays) {env : κ} {req : REQ} {fuel : ℕ}
    {call : AsyncServerStreamCall REQ α}
    {r : Served κ (AsyncServerStreamCall REQ α) (AsyncServerStreamCall.Event RES α)}
    (h : Inv tr s) (hc : s.server.call = some call)
    (hr : AsyncServerStreamCall.serve cb fuel env (.receive (op call) req call) = some r) :
    Inv (tr ++ [.serve env req]) (s.serverDid
      (if r.events.any AsyncServerStreamCall.Event.isDelete then none else some r.call)
      r.events) := by
  have hserver := h.server
  rw [show s.server = ⟨some call, s.server.events⟩ by rw [← hc]] at hserver
  obtain ⟨hnext, hdelete⟩ := hserver.serve hstay hr
  refine h.serverDid rfl (by simpa [Action.isServe] using hnext) fun ht ↦ ?_
  obtain ⟨st, hst⟩ := Option.ne_none_iff_exists'.1 ht
  rw [hdelete ((h.server.of_finished (h.trailer ▸ hst)).1 call hc)]
  rfl

theorem Inv.shutdown {call : AsyncServerStreamCall REQ α} (h : Inv tr s)
    (hb : s.broken = true) (hc : s.server.call = some call) :
    Inv (tr ++ [.shutdown]) (s.serverDid none call.shutdown) := by
  have hserver := h.server
  rw [show s.server = ⟨some call, s.server.events⟩ by rw [← hc]] at hserver
  refine h.serverDid rfl (by simpa [Action.isServe] using hserver.shutdown hb) fun _ ↦ ?_
  unfold AsyncServerStreamCall.shutdown
  split <;> rfl

theorem Inv.sever (h : Inv tr s) : Inv (tr ++ [.sever]) { s with broken := true } where
  server := by simpa [Action.isServe] using h.server.sever
  client := by simpa [Action.completion, List.filterMap_cons] using h.client
  carried := h.carried
  trailer := h.trailer
  reported err herr := (h.reported err herr).imp id fun hb ↦ ⟨rfl, hb.2⟩
  drained hb := by cases hb

/-- The client goes on, and takes what it reads off the wire. -/
theorem Inv.complete {c : Completion RES} {client : AsyncClientStreamHandler.Stream RES}
    {wire : List RES} (h : Inv tr s) (hs : AsyncClientStreamHandler.Step s.client c client)
    (hwire : s.wire = c.received.toList ++ wire)
    (hfinish : c.op = .finish →
      wire = [] ∧ s.trailer = some c.status ∨ s.broken = true ∧ c.status.ok = false)
    (hend : s.broken = false → c.ok = false → wire = [] ∧ s.trailer ≠ none) :
    Inv (tr ++ [.complete c]) { s with client := client, wire := wire } where
  server := by simpa [Action.isServe] using h.server
  client := by simpa [Action.completion] using h.client.snoc hs
  carried := by
    rw [handled_of_step h.client hs, List.append_assoc, ← hwire]
    exact h.carried
  trailer := h.trailer
  reported err herr := by
    obtain ⟨hop, rfl⟩ := promise_of_step h.client hs herr
    rcases hfinish hop with ⟨hw, ht⟩ | ⟨hb, hst⟩
    · exact .inl ⟨hw, c.status, ht, rfl⟩
    · exact .inr ⟨hb, by simp [Completion.error, hst, Egrpc.error]⟩
  drained hb hc := by
    obtain ⟨d, hd, hok⟩ := hc
    rw [List.filterMap_append, List.mem_append] at hd
    rcases hd with hd | hd
    · obtain ⟨hw, ht⟩ := h.drained hb ⟨d, hd, hok⟩
      rw [hw] at hwire
      exact ⟨(List.append_eq_nil_iff.1 hwire.symm).2, ht⟩
    · obtain rfl : d = c := by simpa [Action.completion] using hd
      exact hend hb hok

/-- **The invariant is preserved.** -/
theorem Inv.step [Inhabited REQ] (hstay : cb.Stays) (h : Inv tr s) (hs : Step cb s a s') :
    Inv (tr ++ [a]) s' := by
  cases hs with
  | serve env req fuel hc hr => exact h.serve hstay hc hr
  | shutdown hb hc => exact h.shutdown hb hc
  | sever => exact h.sever
  | @start c client hop hok hs =>
    refine h.complete hs (by simp [Completion.received, hop]) (by simp [hop]) fun hb hfail ↦ ?_
    simp [hb, hfail] at hok
  | @message c client rest hop hok hw hs =>
    exact h.complete hs (by simp [Completion.received, hop, hok, hw]) (by simp [hop])
      (by simp [hok])
  | @noMessage c client hop hok hend hs =>
    refine h.complete hs (by simp [Completion.received, hok]) (by simp [hop]) fun hb _ ↦ ?_
    exact hend.resolve_right (by simp [hb])
  | @status c client hop hst hs =>
    refine h.complete hs (by simp [Completion.received, hop]) (fun _ ↦ hst) fun hb _ ↦ ?_
    obtain ⟨hw, ht⟩ := hst.resolve_right fun hbroken ↦ by simp [hb] at hbroken
    exact ⟨hw, by simp [ht]⟩

theorem inv_of_run [Inhabited REQ] (hstay : cb.Stays) (h : Run (system cb) tr s) : Inv tr s := by
  induction h with
  | nil hi =>
    obtain rfl := hi
    exact Inv.started
  | snoc _ hs ih => exact ih.step hstay hs

theorem Inv.in_order (hi : Inv tr s) :
    (∃ it, s.server.events.filterMap AsyncServerStreamCall.Event.position = List.range it) ∧
      s.client.log.filterMap AsyncClientStreamHandler.Event.handled ++ s.wire =
        s.server.events.filterMap AsyncServerStreamCall.Event.kept := by
  obtain ⟨hwritten, hpositions⟩ := hi.server.written_eq
  exact ⟨hpositions, hi.carried.trans hwritten⟩

theorem Inv.of_promise_null (hi : Inv tr s) (hp : s.client.promise = some none) :
    s.wire = [] ∧ ∃ ranges status,
      s.server.events.filterMap AsyncServerStreamCall.Event.inited = [(ranges, status)] ∧
      status.ok = true ∧
      s.server.events.filterMap AsyncServerStreamCall.Event.position = List.range ranges.length ∧
      s.client.log.filterMap AsyncClientStreamHandler.Event.handled =
        s.server.events.filterMap AsyncServerStreamCall.Event.kept := by
  have horder := hi.in_order.2
  obtain ⟨hw, st, hst, herr⟩ := (hi.reported none hp).resolve_right fun hb ↦ hb.2 rfl
  have hok : st.ok = true := by
    cases hok : st.ok with
    | true => rfl
    | false => simp [StreamRpc.reported, hok, Egrpc.error] at herr
  rcases (hi.server.of_finished (hi.trailer ▸ hst)).2 with hsent | ⟨-, rfl⟩
  · obtain ⟨ranges, status, hinited, hsent⟩ := hsent.inited
    split at hsent
    next hstatus =>
      refine ⟨hw, ranges, status, hinited, hstatus, hsent.2, ?_⟩
      rwa [hw, List.append_nil] at horder
    next hstatus => exact absurd (hsent.1 ▸ hok) hstatus
  · cases hok

theorem Inv.of_promise_error (hi : Inv tr s) {msg : String}
    (hp : s.client.promise = some (some msg)) : s.broken = true ∨ ∃ ranges status,
      s.server.events.filterMap AsyncServerStreamCall.Event.inited = [(ranges, status)] ∧
      status.ok = false ∧ status.message = msg ∧
      s.client.log.filterMap AsyncClientStreamHandler.Event.handled = [] ∧
      s.server.events.filterMap AsyncServerStreamCall.Event.kept = [] := by
  have horder := hi.in_order.2
  rcases hi.reported (some msg) hp with ⟨hw, st, hst, herr⟩ | ⟨hb, -⟩
  · rcases (hi.server.of_finished (hi.trailer ▸ hst)).2 with hsent | ⟨hb, -⟩
    · obtain ⟨ranges, status, hinited, hsent⟩ := hsent.inited
      split at hsent
      · simp [hsent.1, StreamRpc.reported, Status.ok, Status.okStatus] at herr
      next hstatus =>
        obtain ⟨rfl, hkept⟩ := hsent
        rw [StreamRpc.reported, if_neg hstatus] at herr
        rw [hkept] at horder
        exact .inr ⟨ranges, st, hinited, Bool.eq_false_iff.2 hstatus,
          (Option.some.inj herr).symm, (List.append_eq_nil_iff.1 horder).1, hkept⟩
    · exact .inl hb
  · exact .inl hb

/-- The server by itself is served time and again, until it is shut down. -/
theorem serves_of_run [Inhabited REQ] (h : Run (system cb) tr s) :
    ∃ u, Run (serves cb) (tr.filterMap Action.served) u ∧
      (s.server = u ∨
        ∃ call : AsyncServerStreamCall REQ α, s.server = ⟨none, u.events ++ call.shutdown⟩) := by
  induction h with
  | nil hi =>
    obtain rfl := hi
    exact ⟨_, .nil rfl, .inl rfl⟩
  | @snoc tr s s' a _ hs ih =>
    obtain ⟨u, hu, hserver⟩ := ih
    have hlive : ∀ {call}, s.server.call = some call → s.server = u := fun hc ↦
      hserver.resolve_right fun ⟨_, hgone⟩ ↦ by simp [hgone] at hc
    cases hs with
    | serve env req fuel hc hr =>
      obtain rfl := hlive hc
      refine ⟨_, ?_, .inl rfl⟩
      rw [List.filterMap_append]
      exact hu.snoc (.serve env req fuel hc hr)
    | @shutdown call hb hc =>
      obtain rfl := hlive hc
      exact ⟨s.server, by simpa [Action.served, List.filterMap_cons] using hu, .inr ⟨call, rfl⟩⟩
    | sever | start | message | noMessage | status =>
      exact ⟨u, by simpa [Action.served, List.filterMap_cons] using hu, hserver⟩

/-- What the server has noted of its callbacks is what they have returned, for the environment and
the request it was first served with. -/
theorem tells_of_run [Inhabited REQ] (h : Run (system cb) tr s) (d : κ × REQ) :
    Tells cb ((tr.filterMap Action.served).headD d) s.server.events := by
  obtain ⟨u, hu, hserver⟩ := serves_of_run h
  have htells := AsyncServerStreamCall.tells_of_run hu d
  rcases hserver with rfl | ⟨call, hgone⟩
  · exact htells
  · rw [hgone]
    exact htells.shutdown call

/-- A server that has run its init callback was served with some request. -/
theorem exists_tells [Inhabited REQ] (h : Run (system cb) tr s) {ranges : List α} {status : Status}
    (hi : s.server.events.filterMap AsyncServerStreamCall.Event.inited = [(ranges, status)]) :
    ∃ b, (tr.filterMap Action.served).head? = some b ∧ Tells cb b s.server.events ∧
      ranges = (cb.inited b).ranges ∧ status = (cb.inited b).status := by
  have hmem : .initCall ranges status ∈ s.server.events :=
    AsyncServerStreamCall.mem_inited.2 (by simp [hi])
  obtain ⟨u, hu, hserver⟩ := serves_of_run h
  cases hserved : tr.filterMap Action.served with
  | cons b served =>
    have htells : Tells cb b s.server.events := by
      simpa only [hserved, List.headD_cons] using tells_of_run h b
    exact ⟨b, rfl, htells, htells.eq_inited hmem⟩
  | nil =>
    obtain ⟨-, rfl⟩ | ⟨_, _, hnil, -⟩ := AsyncServerStreamCall.recounts_of_run hu
    · rcases hserver with hnew | ⟨call, hgone⟩
      · simp [hnew] at hmem
      · rw [hgone, AsyncServerStreamCall.shutdown] at hmem
        split at hmem <;> simp at hmem
    · rw [hserved] at hnil
      cases hnil

/-- **Nothing is lost, repeated or overtaken.** At every moment the write callback was run once on
each of the first elements of the range, in order, and the data the client has handled, followed by
the messages on the wire, are the replies it kept. What is noted of the callbacks is what they have
returned, for the request that was accepted. -/
theorem transfer_in_order [Inhabited REQ] (hstay : cb.Stays) (h : Run (system cb) tr s) :
    (∃ it, s.server.events.filterMap AsyncServerStreamCall.Event.position = List.range it) ∧
      s.client.log.filterMap AsyncClientStreamHandler.Event.handled ++ s.wire =
        s.server.events.filterMap AsyncServerStreamCall.Event.kept ∧
      ∀ d, Tells cb ((tr.filterMap Action.served).headD d) s.server.events := by
  obtain ⟨hpositions, hhandled⟩ := (inv_of_run hstay h).in_order
  exact ⟨hpositions, hhandled, tells_of_run h⟩

/-- **What is reported is true.** When the promise is set to null, a request was accepted whose init
callback has succeeded, the whole range that it has left was delivered, and the client has handled
everything that was kept. When it is set to an error, the connection has broken, or the init
callback has failed with this error and nothing was sent. -/
theorem reports_truly [Inhabited REQ] (hstay : cb.Stays) (h : Run (system cb) tr s) :
    (s.client.promise = some none → s.wire = [] ∧
      ∃ b, (tr.filterMap Action.served).head? = some b ∧ Tells cb b s.server.events ∧
        s.server.events.filterMap AsyncServerStreamCall.Event.inited =
          [((cb.inited b).ranges, (cb.inited b).status)] ∧
        (cb.inited b).status.ok = true ∧
        s.server.events.filterMap AsyncServerStreamCall.Event.position =
          List.range (cb.inited b).ranges.length ∧
        s.client.log.filterMap AsyncClientStreamHandler.Event.handled =
          s.server.events.filterMap AsyncServerStreamCall.Event.kept) ∧
    ∀ msg, s.client.promise = some (some msg) → s.broken = true ∨
      ∃ b, (tr.filterMap Action.served).head? = some b ∧ Tells cb b s.server.events ∧
        s.server.events.filterMap AsyncServerStreamCall.Event.inited =
          [((cb.inited b).ranges, (cb.inited b).status)] ∧
        (cb.inited b).status.ok = false ∧ (cb.inited b).status.message = msg ∧
        s.client.log.filterMap AsyncClientStreamHandler.Event.handled = [] ∧
        s.server.events.filterMap AsyncServerStreamCall.Event.kept = [] := by
  have hi := inv_of_run hstay h
  refine ⟨fun hp ↦ ?_, fun msg hp ↦ ?_⟩
  · obtain ⟨hwire, ranges, status, hinited, hdelivered⟩ := hi.of_promise_null hp
    obtain ⟨b, hb, htells, rfl, rfl⟩ := exists_tells h hinited
    exact ⟨hwire, b, hb, htells, hinited, hdelivered⟩
  · refine (hi.of_promise_error hp).imp_right fun ⟨ranges, status, hinited, hfailed⟩ ↦ ?_
    obtain ⟨b, hb, htells, rfl, rfl⟩ := exists_tells h hinited
    exact ⟨b, hb, htells, hinited, hfailed⟩

end

/-- One element is kept and handled, and the connection breaks before the final status. -/
theorem transfer_in_order_one : ∃ (tr : _) (s : StreamRpc ℕ ℕ ℕ),
    Run (system (AsyncServerStreamCall.keepBelow [7])) tr s ∧ s.broken = true ∧
      s.client.log.filterMap AsyncClientStreamHandler.Event.handled ++ s.wire =
        s.server.events.filterMap AsyncServerStreamCall.Event.kept := by
  have h := ((((Run.nil (S := system (AsyncServerStreamCall.keepBelow [7])) rfl).snoc
    (Step.serve () 9 3 rfl rfl)).snoc
    (Step.start (c := ⟨.start, true, 0, .okStatus⟩) rfl (.inl rfl)
      (.handle List.mem_cons_self rfl rfl))).snoc
    (Step.message (c := ⟨.read, true, 7, .okStatus⟩) rfl rfl rfl
      (.handle List.mem_cons_self rfl rfl))).snoc Step.sever
  exact ⟨_, _, h, rfl, (transfer_in_order (fun _ _ _ _ _ ↦ rfl) h).2.1⟩

/-! ### A connection that does not break -/

/-- How many completions the handler still waits for, but for messages. -/
def budget (client : AsyncClientStreamHandler.Stream RES) : ℕ :=
  match client.handler with
  | none => 0
  | some h =>
    match h.callStatus with
    | .startup => 3
    | .process => 2
    | .finish => 1

/-- All but three completions are those of messages. -/
theorem length_add_budget {tr : List (Completion RES)}
    {client : AsyncClientStreamHandler.Stream RES}
    (h : Run AsyncClientStreamHandler.system tr client) :
    tr.length + budget client ≤ (tr.filterMap Completion.received).length + 3 := by
  induction h with
  | nil hi =>
    obtain rfl := hi
    exact Nat.le_refl 3
  | @snoc tr client client' c h hs ih =>
    have hbefore := AsyncClientStreamHandler.streaming_of_run h
    have hafter := AsyncClientStreamHandler.streaming_of_run (h.snoc hs)
    obtain ⟨g, hop, hg⟩ : ∃ g, c.op ∈ client.outstanding ∧ client.handler = some g := by
      cases hs with
      | handle hop hh _ => exact ⟨_, hop, hh⟩
    have hle : (tr.filterMap Completion.received).length ≤
        ((tr ++ [c]).filterMap Completion.received).length := by
      rw [List.filterMap_append, List.length_append]
      exact Nat.le_add_right _ _
    have hlength : (tr ++ [c]).length = tr.length + 1 := by simp
    -- whatever the client stood before, it has one completion less to wait for now, or a message
    cases hafter with
    | startup _ _ htr => simp at htr
    | @process h' hu hst htr =>
      have hbudget : budget client' = 2 := by simp [budget, hu.handler, hst]
      cases hbefore with
      | startup _ _ htr' => simp [htr', hbudget]
      | @process h₀ hu₀ hst₀ _ hout =>
        have hread : c.op = .read := by simpa [hout] using hop
        have hreceived : c.received = some c.data := by
          simp [Completion.received, hread, (htr c (by simp)).1]
        have hbudget₀ : budget client = 2 := by simp [budget, hu₀.handler, hst₀]
        simp only [List.filterMap_append, List.length_append, List.filterMap_cons, hreceived,
          List.filterMap_nil, List.length_singleton]
        omega
      | @finish _ pre e _ _ htr' _ he =>
        have hok := (htr e (by simp [htr'])).1
        simp [he] at hok
      | deleted hnone => simp [hnone] at hg
    | @finish h' pre e hu hst htr hpre =>
      have hbudget : budget client' = 1 := by simp [budget, hu.handler, hst]
      obtain rfl := (List.append_inj' htr rfl).1
      cases hbefore with
      | startup _ _ htr' => simp [htr', hbudget]
      | process hu₀ hst₀ =>
        have hbudget₀ : budget client = 2 := by simp [budget, hu₀.handler, hst₀]
        omega
      | @finish _ pre' e' _ _ htr' _ he =>
        have hok := (hpre e' (by simp [htr'])).1
        simp [he] at hok
      | deleted hnone => simp [hnone] at hg
    | deleted hnone =>
      have hbudget : budget client' = 0 := by simp [budget, hnone]
      have hpos : 1 ≤ budget client := by
        simp only [budget, hg]
        split <;> simp
      omega

/-- An operation of the client that is outstanding can complete. -/
theorem exists_client_step {tr : List (Completion RES)}
    {client : AsyncClientStreamHandler.Stream RES}
    (h : Run AsyncClientStreamHandler.system tr client) {c : Completion RES}
    (hop : c.op ∈ client.outstanding) :
    ∃ client', AsyncClientStreamHandler.Step client c client' := by
  obtain ⟨g, client', hg, hs, -⟩ :=
    (AsyncClientStreamHandler.streaming_of_run h).exists_handle hop
  exact ⟨client', .handle hop hg hs⟩

/-- `Finish` was issued because some event had failed. -/
theorem exists_fail_of_finish {tr : List (Completion RES)}
    {client : AsyncClientStreamHandler.Stream RES}
    (h : Run AsyncClientStreamHandler.system tr client)
    (hout : client.outstanding = [.finish]) : ∃ c ∈ tr, c.ok = false := by
  cases AsyncClientStreamHandler.streaming_of_run h with
  | startup _ _ _ hop => simp [hop] at hout
  | process _ _ _ hop => simp [hop] at hout
  | finish _ _ htr _ hc => exact ⟨_, by simp [htr], hc⟩
  | deleted _ _ _ _ _ hop => simp [hop] at hout

section

variable {cb : Callbacks κ REQ RES α} {tr : List (Action κ REQ RES)} {s s' : StreamRpc REQ RES α}
  {a : Action κ REQ RES}

/-- While the connection holds, the steps are calls of `serve()` and completions of the client. -/
theorem unbroken_of_run [Inhabited REQ]
    (h : Run ((system cb).restrict fun _ a ↦ a.isSever = false) tr s) :
    s.broken = false ∧
      tr.length = tr.countP Action.isServe + (tr.filterMap Action.completion).length := by
  induction h with
  | nil hi =>
    obtain rfl := hi
    exact ⟨rfl, rfl⟩
  | @snoc tr s s' a _ hs ih =>
    obtain ⟨hb, hlength⟩ := ih
    obtain ⟨hs, ha⟩ := hs
    have hcomplete : ∀ c : Completion RES, (tr ++ [Action.complete c]).length =
        (tr ++ [Action.complete c]).countP Action.isServe +
          ((tr ++ [Action.complete c]).filterMap Action.completion).length := fun c ↦ by
      simp [Action.isServe, Action.completion, hlength, Nat.add_assoc]
    cases hs with
    | serve =>
      refine ⟨hb, ?_⟩
      simp [Action.isServe, Action.completion, List.filterMap_cons, hlength, Nat.add_right_comm]
    | shutdown hbroken => simp [hb] at hbroken
    | sever => simp [Action.isSever] at ha
    | start | message | noMessage | status => exact ⟨hb, hcomplete _⟩

/-- A connection that holds has not been severed. -/
theorem restrict_of_unbroken [Inhabited REQ] (h : Run (system cb) tr s) (hb : s.broken = false) :
    Run ((system cb).restrict fun _ a ↦ a.isSever = false) tr s := by
  induction h with
  | nil hi => exact .nil hi
  | @snoc tr s s' a _ hs ih =>
    have hstep : a.isSever = false ∧ s.broken = false := by
      cases hs with
      | sever => cases hb
      | serve | shutdown | start | message | noMessage | status => exact ⟨rfl, hb⟩
    exact (ih hstep.2).snoc ⟨hs, hstep.1⟩

omit [Inhabited RES] in
/-- A server that was served `n` times and not shut down: its range bounds what it has done. -/
theorem ServerStands.le {n : ℕ} {server : OneCall REQ RES α} {ranges : List α} {status : Status}
    (hs : ServerStands false n server) (hi : .initCall ranges status ∈ server.events) :
    n ≤ ranges.length + 2 ∧
      (server.events.filterMap AsyncServerStreamCall.Event.kept).length ≤ ranges.length := by
  have hle := AsyncServerStreamCall.length_kept_le server.events
  have hdelivered : ∀ {m} {evs : List (AsyncServerStreamCall.Event RES α)},
      Delivered ranges status m evs →
      (evs.filterMap AsyncServerStreamCall.Event.position).length ≤ ranges.length := by
    intro m evs hd
    have hd := hd.delivered
    split at hd
    · rw [hd.1, List.length_range]
    · rw [hd.1]
      exact Nat.zero_le _
  cases hs with
  | @live call evs h =>
    refine ⟨h.le hi, Nat.le_trans hle ?_⟩
    unfold Stands at h
    cases hst : call.status with
    | startup =>
      simp only [hst] at h
      simp [h.2]
    | process =>
      simp only [hst] at h
      obtain ⟨status', -, hinited⟩ := h.inited
      rw [AsyncServerStreamCall.mem_inited, hinited, List.mem_singleton] at hi
      obtain ⟨rfl, -⟩ := Prod.mk.inj hi
      rw [h.positions, List.length_range]
      exact h.le_length
    | finish =>
      simp only [hst] at h
      obtain ⟨_, _, hd⟩ := h
      obtain ⟨rfl, rfl⟩ := hd.eq_of_mem hi
      exact hdelivered hd
  | gone hd hn =>
    obtain ⟨rfl, rfl⟩ := hd.eq_of_mem hi
    exact ⟨Nat.le_trans hn hd.le, Nat.le_trans hle (hdelivered hd)⟩
  | refused hb => cases hb
  | cut hb => cases hb

/-- While the connection holds, the client can go on when the server is gone. -/
theorem Inv.exists_complete (h : Inv tr s) (hb : s.broken = false) (hgone : s.server.call = none)
    {g : AsyncClientStreamHandler RES} (hg : s.client.handler = some g) :
    ∃ c s', Step cb s (.complete c) s' := by
  have hserver := h.server
  rw [hb] at hserver
  obtain ⟨st, hst⟩ : ∃ st, s.trailer = some st := by
    cases hs : s.server with
    | mk call evs =>
      rw [hs] at hserver hgone
      cases hserver with
      | live => cases hgone
      | gone hd =>
        obtain ⟨st, hsent⟩ := Sent.of_delivered hd
        exact ⟨st, by rw [h.trailer, hs, hsent.finished_eq, List.head?_cons]⟩
      | refused hb => cases hb
      | cut hb => cases hb
  have hstreaming := AsyncClientStreamHandler.streaming_of_run h.client
  obtain ⟨⟨o, hout⟩, -⟩ := hstreaming.of_handler hg
  cases o with
  | start =>
    obtain ⟨client, hs⟩ := exists_client_step h.client
      (c := ⟨.start, true, default, .okStatus⟩) (by simp [hout])
    exact ⟨_, _, .start rfl (.inl rfl) hs⟩
  | read =>
    cases hw : s.wire with
    | nil =>
      obtain ⟨client, hs⟩ := exists_client_step h.client
        (c := ⟨.read, false, default, .okStatus⟩) (by simp [hout])
      exact ⟨_, _, .noMessage rfl rfl (.inl ⟨hw, by simp [hst]⟩) hs⟩
    | cons data rest =>
      obtain ⟨client, hs⟩ := exists_client_step h.client
        (c := ⟨.read, true, data, .okStatus⟩) (by simp [hout])
      exact ⟨_, _, .message rfl rfl hw hs⟩
  | finish =>
    obtain ⟨hw, -⟩ := h.drained hb (exists_fail_of_finish h.client hout)
    obtain ⟨client, hs⟩ := exists_client_step h.client
      (c := ⟨.finish, true, default, st⟩) (by simp [hout])
    exact ⟨_, _, .status rfl (.inl ⟨hw, hst⟩) hs⟩

omit [Inhabited RES] in
/-- A call that was not shut down can be served again. -/
theorem ServerStands.exists_serve [Inhabited REQ] [Inhabited RES] (hstay : cb.Stays) {n : ℕ}
    {call : AsyncServerStreamCall REQ α} {evs : List (AsyncServerStreamCall.Event RES α)}
    (hs : ServerStands false n (⟨some call, evs⟩ : OneCall REQ RES α)) (env : κ) (req : REQ) :
    ∃ fuel r,
      AsyncServerStreamCall.serve cb fuel env (.receive (op call) req call) = some r := by
  cases hs with
  | live hstands =>
    obtain ⟨fuel, hsome⟩ := AsyncServerStreamCall.exists_isSome_serve env hstay
      (hstands.receive (op call) req)
    exact ⟨fuel, Option.isSome_iff_exists.1 hsome⟩

/-- The range bounds the steps, while the connection holds. -/
theorem Inv.length_le (hi : Inv tr s) (hb : s.broken = false)
    (hlength : tr.length = tr.countP Action.isServe + (tr.filterMap Action.completion).length)
    {ranges : List α} {status : Status} (hinit : .initCall ranges status ∈ s.server.events) :
    tr.length ≤ 2 * ranges.length + 5 := by
  obtain ⟨hn, hkept⟩ := (hb ▸ hi.server).le hinit
  have hbudget := length_add_budget hi.client
  have hreceived := (AsyncClientStreamHandler.streaming_of_run hi.client).log_eq.1
  have hhandled := congrArg List.length hi.in_order.2
  rw [List.length_append, hreceived] at hhandled
  omega

/-- What a client has come to that is deleted, if the connection has held. -/
theorem Inv.of_ended (hi : Inv tr s) (hb : s.broken = false) (hnone : s.client.handler = none) :
    ∃ ranges status,
      s.server.events.filterMap AsyncServerStreamCall.Event.inited = [(ranges, status)] ∧
      s.client.promise = some (StreamRpc.reported status) ∧
      s.client.log.filterMap AsyncClientStreamHandler.Event.handled =
        s.server.events.filterMap AsyncServerStreamCall.Event.kept ∧
      if status.ok then
        s.server.events.filterMap AsyncServerStreamCall.Event.position = List.range ranges.length
      else s.server.events.filterMap AsyncServerStreamCall.Event.kept = [] := by
  have horder := hi.in_order.2
  obtain ⟨-, pre, c, d, htr, -, -, hd, hpromise, -⟩ :=
    (AsyncClientStreamHandler.streaming_of_run hi.client).of_deleted hnone
  obtain ⟨hw, st, hst, herr⟩ := (hi.reported _ hpromise).resolve_right fun hbroken ↦ by
    simp [hb] at hbroken
  rw [hw, List.append_nil] at horder
  obtain ⟨ranges, status, hinited, hsent⟩ :=
    ((hi.server.of_finished (hi.trailer ▸ hst)).2.resolve_right fun hbroken ↦ by
      simp [hb] at hbroken).inited
  refine ⟨ranges, status, hinited, ?_, horder, ?_⟩ <;>
    by_cases hok : status.ok = true <;> simp only [hok, if_true] at hsent ⊢
  · rw [hpromise, herr, hsent.1, StreamRpc.reported, StreamRpc.reported, if_pos hok]
    rfl
  · rw [hpromise, herr, hsent.1]
  · exact hsent.2
  · exact hsent.2

/-- **A stream comes to its end while the connection holds.** A server call that is not deleted can
always be served, and when it is deleted the client can go on, until it is deleted too. The number
of steps is bounded by the range. When both are deleted the promise is set to the error that the
init callback has returned for the request that was accepted, and either nothing was sent, or
everything that was kept of the whole range it has left was handled. -/
theorem transfer_ends [Inhabited REQ] (hstay : cb.Stays)
    (h : Run ((system cb).restrict fun _ a ↦ a.isSever = false) tr s) :
    (∀ call, s.server.call = some call → ∀ env req, ∃ s', Step cb s (.serve env req) s') ∧
    (∀ g, s.server.call = none → s.client.handler = some g → ∃ c s', Step cb s (.complete c) s') ∧
    (∀ ranges status, .initCall ranges status ∈ s.server.events →
      tr.length ≤ 2 * ranges.length + 5) ∧
    (s.server.call = none → s.client.handler = none →
      ∃ b, (tr.filterMap Action.served).head? = some b ∧ Tells cb b s.server.events ∧
        s.server.events.filterMap AsyncServerStreamCall.Event.inited =
          [((cb.inited b).ranges, (cb.inited b).status)] ∧
        s.client.promise = some (reported (cb.inited b).status) ∧
        s.client.log.filterMap AsyncClientStreamHandler.Event.handled =
          s.server.events.filterMap AsyncServerStreamCall.Event.kept ∧
        if (cb.inited b).status.ok then
          s.server.events.filterMap AsyncServerStreamCall.Event.position =
            List.range (cb.inited b).ranges.length
        else s.server.events.filterMap AsyncServerStreamCall.Event.kept = []) := by
  obtain ⟨hb, hlength⟩ := unbroken_of_run h
  have hi := inv_of_run hstay h.of_restrict
  refine ⟨fun call hcall env req ↦ ?_, fun g hgone hg ↦ hi.exists_complete hb hgone hg,
    fun ranges status hinit ↦ hi.length_le hb hlength hinit, fun _ hnone ↦ ?_⟩
  · have hserver := hi.server
    rw [hb, show s.server = ⟨some call, s.server.events⟩ by rw [← hcall]] at hserver
    obtain ⟨fuel, r, hr⟩ := hserver.exists_serve hstay env req
    exact ⟨_, .serve env req fuel hcall hr⟩
  · obtain ⟨ranges, status, hinited, hend⟩ := hi.of_ended hb hnone
    obtain ⟨b, hhead, htells, rfl, rfl⟩ := exists_tells h.of_restrict hinited
    exact ⟨b, hhead, htells, hinited, hend⟩

end

/-- One element is kept and handled, up to the end. -/
theorem run_one : ∃ (tr : _) (s : StreamRpc ℕ ℕ ℕ),
    Run ((system (AsyncServerStreamCall.keepBelow [7])).restrict fun _ a ↦ a.isSever = false) tr s ∧
      s.client.promise = some none ∧ s.server.call = none ∧ s.client.handler = none := by
  have h := (((((((Run.nil (S := (system (AsyncServerStreamCall.keepBelow [7])).restrict
      fun _ a ↦ a.isSever = false) rfl).snoc
    ⟨Step.serve () 9 3 rfl rfl, rfl⟩).snoc
    ⟨Step.start (c := ⟨.start, true, 0, .okStatus⟩) rfl (.inl rfl)
      (.handle List.mem_cons_self rfl rfl), rfl⟩).snoc
    ⟨Step.message (c := ⟨.read, true, 7, .okStatus⟩) rfl rfl rfl
      (.handle List.mem_cons_self rfl rfl), rfl⟩).snoc
    ⟨Step.serve () 0 3 rfl rfl, rfl⟩).snoc
    ⟨Step.noMessage (c := ⟨.read, false, 0, .okStatus⟩) rfl rfl (.inl ⟨rfl, by decide⟩)
      (.handle List.mem_cons_self rfl rfl), rfl⟩).snoc
    ⟨Step.status (c := ⟨.finish, true, 0, .okStatus⟩) rfl (.inl ⟨rfl, rfl⟩)
      (.handle List.mem_cons_self rfl rfl), rfl⟩).snoc
    ⟨Step.serve () 0 3 rfl rfl, rfl⟩
  exact ⟨_, _, h, rfl, rfl, rfl⟩

theorem reports_truly_one : ∃ (tr : _) (s : StreamRpc ℕ ℕ ℕ),
    Run (system (AsyncServerStreamCall.keepBelow [7])) tr s ∧ s.wire = [] := by
  obtain ⟨tr, s, h, hp, -⟩ := run_one
  exact ⟨tr, s, h.of_restrict,
    ((reports_truly (fun _ _ _ _ _ ↦ rfl) h.of_restrict).1 hp).1⟩

theorem transfer_ends_one : ∃ (tr : _) (s : StreamRpc ℕ ℕ ℕ),
    Run ((system (AsyncServerStreamCall.keepBelow [7])).restrict fun _ a ↦ a.isSever = false) tr s ∧
      s.client.log.filterMap AsyncClientStreamHandler.Event.handled =
        s.server.events.filterMap AsyncServerStreamCall.Event.kept := by
  obtain ⟨tr, s, h, -, hcall, hhandler⟩ := run_one
  obtain ⟨-, -, -, hend⟩ := transfer_ends (fun _ _ _ _ _ ↦ rfl) h
  obtain ⟨-, -, -, -, -, hhandled, -⟩ := hend hcall hhandler
  exact ⟨tr, s, h, hhandled⟩

end StreamRpc

end Cppkg.Egrpc
