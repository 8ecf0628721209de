import Cppkg.Egrpc.StreamTransfer

/-!
# Many streams on one server

Any number of clients that have each opened a stream (`AsyncClientStreamHandler`), and the server
that serves them all (`AsyncServerStreamCall`, in its driver). Every stream has a connection of its
own, which keeps what `StreamTransfer` asks of it; a stream that was opened is accepted by a call
that waits for a request, and what that call writes is sent to it from then on. The calls share the
pool of the server and the environment of their callbacks, and their operations complete in any
order. No call is shut down in mid-stream.

`view` is what there is to one stream: its client, its connection and its call. `Inv` is that every
view is `Alone`: whatever the other streams do, it comes about by a run of a single one, on which
only the request of its own client is served. So what is known of a single stream holds of each
(`streams_kept_apart`). As long as a call waits for requests, no stream keeps another waiting
(`streams_end`).
-/

namespace Cppkg.Egrpc

open Function Transition

/-- A stream that a client has opened. -/
structure Link (RES : Type*) where
  client : AsyncClientStreamHandler.Stream RES
  wire : List RES
  trailer : Option Status
  broken : Bool
  /-- The call of the server that has accepted it. -/
  peer : Option ℕ

/-- A server of stream calls, and the streams that were opened on it. -/
structure Streams (ι κ REQ RES α : Type*) where
  server : AsyncServerStreamCall.StreamServer κ REQ RES α
  links : ι → Link RES

namespace Streams

open AsyncServerStreamCall (Attended Callbacks Graceful OneCall Op Serves StreamServer Tells kind
  new seen)
open AsyncClientStreamHandler (Completion)

variable {ι κ REQ RES α : Type*}

/-- The stream of a client, seen by itself. Before it is accepted a new call is to serve it. -/
def view [Inhabited REQ] (s : Streams ι κ REQ RES α) (i : ι) : StreamRpc REQ RES α where
  server := ((s.links i).peer.map (seen s.server)).getD ⟨some new, []⟩
  client := (s.links i).client
  wire := (s.links i).wire
  trailer := (s.links i).trailer
  broken := (s.links i).broken

/-- Call `k` of the server has done something, for client `i`. -/
def served [DecidableEq ι] (s : Streams ι κ REQ RES α) (i : ι) (k : ℕ)
    (server : StreamServer κ REQ RES α) : Streams ι κ REQ RES α :=
  let events := (server.events k).drop (s.server.events k).length
  { server := server
    links := update s.links i
      { s.links i with
        wire := (s.links i).wire ++ events.filterMap StreamRpc.written
        trailer := (s.links i).trailer.or (events.filterMap StreamRpc.finished).head?
        peer := some k } }

/-- What happens next. -/
inductive Action (ι RES : Type*) where
  /-- Call `k` accepts the stream of client `i`. -/
  | accept (i : ι) (k : ℕ)
  /-- An operation of the call of client `i` completes with `ok` true. -/
  | serve (i : ι)
  /-- The `finish` of the call of client `i` completes with `ok` false. -/
  | shutdown (i : ι)
  /-- The wait of call `k` for a request fails. -/
  | refuse (k : ℕ)
  /-- The connection of client `i` breaks. -/
  | sever (i : ι)
  /-- An operation of client `i` completes. -/
  | complete (i : ι) (c : Completion RES)

namespace Action

/-- The client whose stream goes on. -/
def client : Action ι RES → Option ι
  | .accept i _ => some i
  | .serve i => some i
  | .shutdown i => some i
  | .refuse _ => none
  | .sever i => some i
  | .complete i _ => some i

/-- Nothing breaks or is refused. -/
def isSound : Action ι RES → Bool
  | .refuse _ => false
  | .sever _ => false
  | _ => true

end Action

variable [DecidableEq ι] [Inhabited REQ] [Inhabited RES]

/-- The steps of the server and of the clients, which open their streams with a request each. A
completion that accepts nothing brings no request along. -/
inductive Step (cb : Callbacks κ REQ RES α) (request : ι → REQ) (s : Streams ι κ REQ RES α) :
    Action ι RES → Streams ι κ REQ RES α → Prop
  | accept {i : ι} {k : ℕ} {call : AsyncServerStreamCall REQ α}
      {r : Served κ (AsyncServerStreamCall REQ α) (AsyncServerStreamCall.Event RES α)} (fuel : ℕ)
      (hpeer : (s.links i).peer = none) (ho : (k, .request) ∈ s.server.pool.inflight)
      (hc : s.server.pool.object k = some call)
      (hr : AsyncServerStreamCall.serve cb fuel s.server.env
        (.receive .request (request i) call) = some r) :
      Step cb request s (.accept i k) (s.served i k (Server.record (kind cb)
        { s.server with
          pool := (s.server.pool.complete (k, .request)).put k r.call
          env := r.env } k r.events))
  | serve {i : ι} {k : ℕ} {o : Op} {server : StreamServer κ REQ RES α}
      (hpeer : (s.links i).peer = some k)
      (hs : Server.Step (kind cb) s.server (.complete k o true default) server) :
      Step cb request s (.serve i) (s.served i k server)
  | shutdown {i : ι} {k : ℕ} {server : StreamServer κ REQ RES α}
      (hpeer : (s.links i).peer = some k) (hb : (s.links i).broken = true)
      (hs : Server.Step (kind cb) s.server (.complete k .finish false default) server) :
      Step cb request s (.shutdown i) (s.served i k server)
  | refuse {k : ℕ} {server : StreamServer κ REQ RES α}
      (hs : Server.Step (kind cb) s.server (.complete k .request false default) server) :
      Step cb request s (.refuse k) { s with server := server }
  | sever (i : ι) :
      Step cb request s (.sever i)
        { s with links := update s.links i { s.links i with broken := true } }
  /-- The client of a stream goes on as that of a single one does. -/
  | complete {i : ι} {c : Completion RES} {t : StreamRpc REQ RES α}
      (hs : StreamRpc.Step cb (s.view i) (.complete c) t) :
      Step cb request s (.complete i c)
        { s with links := update s.links i { s.links i with client := t.client, wire := t.wire } }

/-- A server with one call that waits, and clients whose `StartCall` is outstanding. -/
def system (cb : Callbacks κ REQ RES α) (request : ι → REQ) :
    System (Streams ι κ REQ RES α) (Action ι RES) where
  init s := ∃ env, s =
    ⟨Server.start (kind cb) env, fun _ ↦ ⟨AsyncClientStreamHandler.started, [], none, false, none⟩⟩
  step := Step cb request

/-! ### Which call serves which client -/

section

omit [DecidableEq ι] [Inhabited REQ]

variable {cb : Callbacks κ REQ RES α} {fuel : ℕ} {env : κ} {call : AsyncServerStreamCall REQ α}
  {events : List (AsyncServerStreamCall.Event RES α)} {s s' : OneCall REQ RES α} {a : κ × REQ}
  {r : Served κ (AsyncServerStreamCall REQ α) (AsyncServerStreamCall.Event RES α)}

omit [Inhabited RES] in
theorem status_finishAtEnd (hne : call.status ≠ .startup) :
    (AsyncServerStreamCall.finishAtEnd env call events).call.status ≠ .startup := by
  unfold AsyncServerStreamCall.finishAtEnd
  split
  · exact fun h ↦ by cases h
  · exact hne

theorem status_process (h : AsyncServerStreamCall.process cb fuel env call events = some r) :
    r.call.status ≠ .startup := by
  simp only [AsyncServerStreamCall.process] at h
  split at h
  · obtain ⟨l, -, rfl⟩ := Option.map_eq_some_iff.1 h
    split
    · exact fun h ↦ by cases h
    · exact status_finishAtEnd fun h ↦ by cases h
  · obtain rfl := Option.some.inj h
    exact status_finishAtEnd fun h ↦ by cases h

/-- A call that was served does not wait for a request any more. -/
theorem status_serve (h : AsyncServerStreamCall.serve cb fuel env call = some r) :
    r.call.status ≠ .startup := by
  cases hst : call.status with
  | startup =>
    simp only [AsyncServerStreamCall.serve, hst] at h
    split at h
    · obtain rfl := Option.some.inj h
      exact fun h ↦ by cases h
    · exact status_process h
  | process =>
    simp only [AsyncServerStreamCall.serve, hst] at h
    exact status_process h
  | finish =>
    obtain rfl := AsyncServerStreamCall.eq_of_serve_finish hst h
    exact fun h ↦ by rw [hst] at h; cases h

theorem status_of_serves (hs : Serves cb s a s') (hc : s'.call = some call) :
    call.status ≠ .startup := by
  cases hs with
  | serve env req fuel hcall hr =>
    dsimp only at hc
    split at hc
    · cases hc
    · rw [← Option.some.inj hc]
      exact status_serve hr

theorem events_of_serves (hs : Serves cb s a s') : ∃ evs, s'.events = s.events ++ evs := by
  cases hs with
  | serve => exact ⟨_, rfl⟩

/-- Only a call that waits looks at the request. -/
theorem serves_relabel (hs : Serves cb s a s') (hc : s.call = some call)
    (hst : call.status ≠ .startup) (req : REQ) : Serves cb s (a.1, req) s' := by
  cases hs with
  | @serve env req' call' r fuel hcall hr =>
    obtain rfl := Option.some.inj (hc.symm.trans hcall)
    have hreceive : ∀ req, AsyncServerStreamCall.receive (AsyncServerStreamCall.op call) req call =
        call := fun req ↦ by
      cases hs : call.status with
      | startup => exact absurd hs hst
      | process => simp [AsyncServerStreamCall.op, hs, AsyncServerStreamCall.receive]
      | finish => simp [AsyncServerStreamCall.op, hs, AsyncServerStreamCall.receive]
    rw [hreceive] at hr
    exact .serve env req fuel hcall (by rwa [hreceive])

end

section

omit [DecidableEq ι]

variable {cb : Callbacks κ REQ RES α} {server server' : StreamServer κ REQ RES α} {h k : ℕ} {o : Op}
  {ok : Bool} {req : REQ} {call : AsyncServerStreamCall REQ α}

omit [Inhabited REQ] [Inhabited RES] in
theorem status_of_request (hs : Attended server) (ho : (k, .request) ∈ server.pool.inflight)
    (hc : server.pool.object k = some call) : call.status = .startup := by
  have hop := hs.matches_op k .request call ho hc
  cases hst : call.status with
  | startup => rfl
  | process => simp [AsyncServerStreamCall.op, hst] at hop
  | finish => simp [AsyncServerStreamCall.op, hst] at hop

/-- A call that is shut down, but not in mid-stream, is gone. -/
theorem seen_shutdown (hs : Attended server)
    (hstep : Server.Step (kind cb) server (.complete k o false req) server')
    (ha : Graceful (.complete k o false req)) :
    ∃ call, server.pool.object k = some call ∧
      seen server' k = ⟨none, server.events k ++ call.shutdown⟩ := by
  cases hstep with
  | @shutdown _ _ call _ ho hc =>
    have hne : call.status ≠ .process := fun hp ↦
      ha k req (by rw [hs.matches_op k o call ho hc, AsyncServerStreamCall.op, hp])
    have hevs : (kind cb).shutdown ((kind cb).receive o req call) = [.delete] :=
      AsyncServerStreamCall.shutdown_of_ne_process
        (by rw [show (kind cb).receive o req call = .receive o req call from rfl]; simpa using hne)
    refine ⟨call, hc, ?_⟩
    unfold seen
    rw [Server.events_record, if_pos rfl, hevs,
      AsyncServerStreamCall.shutdown_of_ne_process hne]
    congr 1
    exact update_self ..

theorem seen_of_ne (hstep : Server.Step (kind cb) server (.complete h o ok req) server')
    (hk : k ≠ h) (hlt : k < server.pool.next) : seen server' k = seen server k := by
  obtain ⟨hevents, hobject, -⟩ := AsyncServerStreamCall.seen_of_ne hstep hk
  rw [seen, seen, hevents, hobject hlt]

/-- The calls that the streams of the clients belong to. No two streams have the same, and a call
that waits has none. -/
structure Assigned (server : StreamServer κ REQ RES α) (peer : ι → Option ℕ) : Prop where
  attended : Attended server
  inj : ∀ {i j h}, peer i = some h → peer j = some h → i = j
  lt_next : ∀ {i h}, peer i = some h → h < server.pool.next
  waiting : ∀ {h call}, server.pool.object h = some call → call.status = .startup →
    call = new ∧ server.events h = [] ∧ ∀ i, peer i ≠ some h
  fresh : ∀ h, server.pool.next ≤ h → server.events h = []

namespace Assigned

variable {peer : ι → Option ℕ} {i : ι}

theorem start (cb : Callbacks κ REQ RES α) (env : κ) :
    Assigned (Server.start (kind cb) env) fun _ : ι ↦ none where
  attended := AsyncServerStreamCall.attended_start env
  inj h := by cases h
  lt_next h := by cases h
  waiting {h call} hc _ := by
    refine ⟨?_, rfl, fun _ h ↦ by cases h⟩
    rcases Pool.object_of_perform (p := Pool.empty) (h := 0) hc with hc | ⟨o, ho⟩
    · simp [Pool.empty] at hc
    · exact (Pool.Effect.spawn.inj (List.mem_singleton.1 ho)).1
  fresh _ _ := rfl

theorem status_of_step (hs : Attended server)
    (hstep : Server.Step (kind cb) server (.complete h o ok req) server')
    (ha : Graceful (.complete h o ok req)) (hc : server'.pool.object h = some call) :
    call.status ≠ .startup := by
  cases ok with
  | true =>
    exact status_of_serves (AsyncServerStreamCall.serves_seen hs hstep) hc
  | false =>
    obtain ⟨_, -, hseen⟩ := seen_shutdown hs hstep ha
    rw [show server'.pool.object h = none from congrArg OneCall.call hseen] at hc
    cases hc

/-- **A completion leaves the streams with their calls**, and the call it belongs to does not wait
any more. -/
theorem step (hs : Assigned server peer)
    (hstep : Server.Step (kind cb) server (.complete h o ok req) server')
    (ha : Graceful (.complete h o ok req)) : Assigned server' peer where
  attended := hs.attended.step hstep ha
  inj := hs.inj
  lt_next hi := Nat.lt_of_lt_of_le (hs.lt_next hi) (AsyncServerStreamCall.next_le_of_step hstep)
  waiting {k call} hc hst := by
    have hk : k ≠ h := by
      rintro rfl
      exact status_of_step hs.attended hstep ha hc hst
    obtain ⟨hevents, hold, hnew⟩ := AsyncServerStreamCall.seen_of_ne hstep hk
    rw [hevents]
    rcases Nat.lt_or_ge k server.pool.next with hlt | hle
    · rw [hold hlt] at hc
      exact hs.waiting hc hst
    · have hlt := (hs.attended.step hstep ha).balanced.lt_next k (by simp [hc])
      rw [hnew hle hlt] at hc
      exact ⟨(Option.some.inj hc).symm, hs.fresh k hle,
        fun i hi ↦ absurd (hs.lt_next hi) (Nat.not_lt.2 hle)⟩
  fresh k hle := by
    have hle' := Nat.le_trans (AsyncServerStreamCall.next_le_of_step hstep) hle
    have hk : k ≠ h := fun hk ↦
      absurd (hs.attended.lt_next hstep) (Nat.not_lt.2 (hk ▸ hle'))
    rw [(AsyncServerStreamCall.seen_of_ne hstep hk).1]
    exact hs.fresh k hle'

omit [Inhabited RES] in
/-- A stream that has no call gets one that does not wait and has no stream. -/
theorem assign [DecidableEq ι] (hs : Assigned server peer) (hlt : k < server.pool.next)
    (hfree : ∀ j, peer j ≠ some k)
    (hbusy : ∀ call, server.pool.object k = some call → call.status ≠ .startup) :
    Assigned server (update peer i (some k)) where
  attended := hs.attended
  inj {j j' h} hj hj' := by
    by_cases hji : j = i <;> by_cases hji' : j' = i
    · exact hji.trans hji'.symm
    · rw [hji, update_self] at hj
      rw [update_of_ne hji'] at hj'
      exact absurd (hj'.trans hj.symm) (hfree j')
    · rw [hji', update_self] at hj'
      rw [update_of_ne hji] at hj
      exact absurd (hj.trans hj'.symm) (hfree j)
    · rw [update_of_ne hji] at hj
      rw [update_of_ne hji'] at hj'
      exact hs.inj hj hj'
  lt_next {j h} hj := by
    by_cases hji : j = i
    · rw [hji, update_self] at hj
      exact Option.some.inj hj ▸ hlt
    · rw [update_of_ne hji] at hj
      exact hs.lt_next hj
  waiting {h call} hc hst := by
    obtain ⟨hnew, hevents, hpeer⟩ := hs.waiting hc hst
    refine ⟨hnew, hevents, fun j hj ↦ ?_⟩
    by_cases hji : j = i
    · rw [hji, update_self] at hj
      obtain rfl := Option.some.inj hj
      exact hbusy call hc hst
    · rw [update_of_ne hji] at hj
      exact hpeer j hj
  fresh := hs.fresh

end Assigned

end

/-! ### What a client sees -/

/-- A single stream can come to `t` in `n` steps, and only `req` is served on it. -/
def Alone (cb : Callbacks κ REQ RES α) (req : REQ) (n : ℕ) (t : StreamRpc REQ RES α) : Prop :=
  ∃ tr, Run (StreamRpc.system cb) tr t ∧ tr.length = n ∧
    ∀ env req', .serve env req' ∈ tr → req' = req

section

variable {cb : Callbacks κ REQ RES α} {request : ι → REQ} {s s' : Streams ι κ REQ RES α} {i j : ι}
  {k : ℕ} {n : ι → ℕ} {server : StreamServer κ REQ RES α} {tr : List (Action ι RES)}
  {a : Action ι RES}

omit [DecidableEq ι] in
theorem Alone.snoc {req : REQ} {n : ℕ} {t t' : StreamRpc REQ RES α}
    {b : StreamRpc.Action κ REQ RES} (ht : Alone cb req n t) (hs : StreamRpc.Step cb t b t')
    (hb : ∀ env req', b = .serve env req' → req' = req) : Alone cb req (n + 1) t' := by
  obtain ⟨tr, hr, hlen, hreq⟩ := ht
  refine ⟨_, hr.snoc hs, by simp [hlen], fun env req' hmem ↦ ?_⟩
  rcases List.mem_append.1 hmem with hmem | hmem
  · exact hreq env req' hmem
  · exact hb env req' (List.mem_singleton.1 hmem).symm

omit [DecidableEq ι] in
theorem Alone.serve {req : REQ} {n : ℕ} {env : κ} {t : StreamRpc REQ RES α}
    {u : OneCall REQ RES α} {evs : List (AsyncServerStreamCall.Event RES α)}
    (ht : Alone cb req n t) (hs : Serves cb t.server (env, req) u)
    (hevs : u.events = t.server.events ++ evs) :
    Alone cb req (n + 1) (t.serverDid u.call evs) := by
  refine ht.snoc (b := .serve env req) ?_ fun env' req' hb ↦ (StreamRpc.Action.serve.inj hb).2.symm
  cases hs with
  | serve _ _ fuel hc hr =>
    obtain rfl := List.append_cancel_left hevs
    exact .serve env req fuel hc hr

omit [Inhabited RES] in
/-- The client of a call sees what that has done. -/
theorem view_served {evs : List (AsyncServerStreamCall.Event RES α)}
    (hevents : (s.view i).server.events = s.server.events k)
    (hevs : server.events k = s.server.events k ++ evs) :
    (s.served i k server).view i = (s.view i).serverDid (seen server k).call evs := by
  have hseen : seen server k = ⟨(seen server k).call, (s.view i).server.events ++ evs⟩ := by
    rw [hevents, ← hevs]
    rfl
  simp only [view, served, update_self, Option.map_some, Option.getD_some, hevs, List.drop_left,
    StreamRpc.serverDid]
  rw [hseen]
  rfl

omit [DecidableEq ι] [Inhabited RES] in
theorem view_of_peer (hpeer : (s.links i).peer = some k) :
    (s.view i).server = seen s.server k := by
  simp [view, hpeer]

omit [Inhabited RES] in
/-- The other clients do not see it. -/
theorem view_served_of_ne (hj : j ≠ i) (hseen : ∀ l, (s.links j).peer = some l →
    seen server l = seen s.server l) : (s.served i k server).view j = s.view j := by
  simp only [view, served, update_of_ne hj]
  cases hpeer : (s.links j).peer with
  | none => rfl
  | some l =>
    rw [Option.map_some, Option.map_some, hseen l hpeer]

/-- The calls and the streams belong together, and the stream of client `i` has gone `n i` steps,
without seeing anything of another. -/
structure Inv (cb : Callbacks κ REQ RES α) (request : ι → REQ) (n : ι → ℕ)
    (s : Streams ι κ REQ RES α) : Prop where
  assigned : Assigned s.server fun i ↦ (s.links i).peer
  view : ∀ i, Alone cb (request i) (n i) (s.view i)

namespace Inv

theorem served {o : Op} {ok : Bool} {req : REQ} (hi : Inv cb request n s)
    (hs : Server.Step (kind cb) s.server (.complete k o ok req) server)
    (hassigned : Assigned server (update (fun j ↦ (s.links j).peer) i (some k)))
    (hview : Alone cb (request i) (n i + 1) ((s.served i k server).view i)) :
    Inv cb request (update n i (n i + 1)) (s.served i k server) where
  assigned := by
    have hpeers : (fun j ↦ ((s.served i k server).links j).peer) =
        update (fun j ↦ (s.links j).peer) i (some k) := by
      funext j
      by_cases hj : j = i
      · simp [Streams.served, hj]
      · simp [Streams.served, hj]
    rw [hpeers]
    exact hassigned
  view j := by
    by_cases hj : j = i
    · rw [hj, update_self]
      exact hview
    · rw [update_of_ne hj, view_served_of_ne hj fun l hl ↦ ?_]
      · exact hi.view j
      · refine seen_of_ne hs (fun hlk ↦ hj ?_) (hi.assigned.lt_next hl)
        refine hassigned.inj (i := j) (j := i) (h := k) ?_ (update_self ..)
        rw [update_of_ne hj, hl, hlk]

omit [DecidableEq ι] in
/-- A step of the server that is no business of the clients. -/
theorem of_forall_ne {o : Op} {ok : Bool} {req : REQ} (hi : Inv cb request n s)
    (hs : Server.Step (kind cb) s.server (.complete k o ok req) server)
    (ha : Graceful (.complete k o ok req)) (hfree : ∀ i, (s.links i).peer ≠ some k) :
    Inv cb request n { s with server := server } where
  assigned := hi.assigned.step hs ha
  view i := by
    have hview : Streams.view { s with server := server } i = s.view i := by
      simp only [Streams.view]
      cases hpeer : (s.links i).peer with
      | none => rfl
      | some l =>
        have hne : l ≠ k := fun hlk ↦ hfree i (hlk ▸ hpeer)
        rw [Option.map_some, Option.map_some, seen_of_ne hs hne (hi.assigned.lt_next hpeer)]
    rw [hview]
    exact hi.view i

/-- The stream of a client goes on, its call does not. -/
theorem relink {l : Link RES} (hi : Inv cb request n s) (hpeer : l.peer = (s.links i).peer)
    (hview : Alone cb (request i) (n i + 1)
      (Streams.view { s with links := update s.links i l } i)) :
    Inv cb request (update n i (n i + 1)) { s with links := update s.links i l } where
  assigned := by
    have hpeers : (fun j ↦ (update s.links i l j).peer) = fun j ↦ (s.links j).peer := by
      funext j
      by_cases hj : j = i
      · simp [hj, hpeer]
      · simp [hj]
    rw [hpeers]
    exact hi.assigned
  view j := by
    by_cases hj : j = i
    · rw [hj, update_self]
      exact hview
    · have hview : Streams.view { s with links := update s.links i l } j = s.view j := by
        simp [Streams.view, hj]
      rw [update_of_ne hj, hview]
      exact hi.view j

/-- A client sees its call being served with its request. -/
theorem alone_served {env : κ} (hi : Inv cb request n s)
    (hview : (s.view i).server = seen s.server k)
    (hserves : Serves cb (seen s.server k) (env, request i) (seen server k)) :
    Alone cb (request i) (n i + 1) ((s.served i k server).view i) := by
  obtain ⟨evs, hevs⟩ : ∃ evs, server.events k = s.server.events k ++ evs :=
    events_of_serves hserves
  rw [view_served (congrArg OneCall.events hview) hevs]
  exact (hi.view i).serve (hview ▸ hserves) (by rw [hview]; exact hevs)

theorem accept (hi : Inv cb request n s) {call : AsyncServerStreamCall REQ α} {fuel : ℕ}
    {r : Served κ (AsyncServerStreamCall REQ α) (AsyncServerStreamCall.Event RES α)}
    (hpeer : (s.links i).peer = none) (ho : (k, .request) ∈ s.server.pool.inflight)
    (hc : s.server.pool.object k = some call)
    (hr : AsyncServerStreamCall.serve cb fuel s.server.env
      (.receive .request (request i) call) = some r) :
    Inv cb request (update n i (n i + 1)) (s.served i k (Server.record (kind cb)
      { s.server with
        pool := (s.server.pool.complete (k, .request)).put k r.call
        env := r.env } k r.events)) := by
  have hs := Server.Step.serve (K := kind cb) (request i) fuel ho hc hr
  have hgraceful : Graceful (.complete k .request true (request i)) := fun h req hh ↦ by cases hh
  have hattended := hi.assigned.attended
  have hserves := AsyncServerStreamCall.serves_seen_record hattended ho hc hr
  obtain ⟨rfl, hnil, hfree⟩ := hi.assigned.waiting hc (status_of_request hattended ho hc)
  have hview : (s.view i).server = seen s.server k := by
    simp [Streams.view, hpeer, seen, hc, hnil]
  refine hi.served hs ?_ (hi.alone_served hview hserves)
  have hlt := Nat.lt_of_lt_of_le (hattended.lt_next hs) (AsyncServerStreamCall.next_le_of_step hs)
  exact (hi.assigned.step hs hgraceful).assign hlt hfree fun call hcall ↦
    Assigned.status_of_step hattended hs hgraceful hcall

/-- A call that has a stream goes on. -/
theorem of_peer {o : Op} {ok : Bool} {req : REQ} (hi : Inv cb request n s)
    (hpeer : (s.links i).peer = some k)
    (hs : Server.Step (kind cb) s.server (.complete k o ok req) server)
    (ha : Graceful (.complete k o ok req))
    (hview : Alone cb (request i) (n i + 1) ((s.served i k server).view i)) :
    Inv cb request (update n i (n i + 1)) (s.served i k server) := by
  refine hi.served hs ?_ hview
  rw [← hpeer, update_eq_self]
  exact hi.assigned.step hs ha

theorem serve {o : Op} (hi : Inv cb request n s) (hpeer : (s.links i).peer = some k)
    (hs : Server.Step (kind cb) s.server (.complete k o true default) server) :
    Inv cb request (update n i (n i + 1)) (s.served i k server) := by
  refine hi.of_peer hpeer hs (fun h req hh ↦ by cases hh) ?_
  have hserves := AsyncServerStreamCall.serves_seen hi.assigned.attended hs
  obtain ⟨call, hc⟩ : ∃ call, s.server.pool.object k = some call := by
    cases hs with
    | serve _ _ _ hc _ => exact ⟨_, hc⟩
  have hst : call.status ≠ .startup := fun hst ↦ (hi.assigned.waiting hc hst).2.2 i hpeer
  exact hi.alone_served (view_of_peer hpeer) (serves_relabel hserves hc hst (request i))

theorem shutdown (hi : Inv cb request n s) (hpeer : (s.links i).peer = some k)
    (hb : (s.links i).broken = true)
    (hs : Server.Step (kind cb) s.server (.complete k .finish false default) server) :
    Inv cb request (update n i (n i + 1)) (s.served i k server) := by
  have hgraceful : Graceful (.complete k .finish false (default : REQ)) :=
    fun h req hh ↦ by cases hh
  refine hi.of_peer hpeer hs hgraceful ?_
  obtain ⟨call, hc, hseen⟩ := seen_shutdown hi.assigned.attended hs hgraceful
  have hview : (s.view i).server = seen s.server k := view_of_peer hpeer
  rw [view_served (congrArg OneCall.events hview) (congrArg OneCall.events hseen), hseen]
  exact (hi.view i).snoc (b := .shutdown) (.shutdown hb (by rw [hview]; exact hc))
    fun _ _ h ↦ by cases h

omit [DecidableEq ι] in
theorem refuse (hi : Inv cb request n s)
    (hs : Server.Step (kind cb) s.server (.complete k .request false default) server) :
    Inv cb request n { s with server := server } := by
  refine hi.of_forall_ne hs (fun h req hh ↦ by cases hh) ?_
  cases hs with
  | shutdown req ho hc =>
    exact (hi.assigned.waiting hc (status_of_request hi.assigned.attended ho hc)).2.2

theorem sever (hi : Inv cb request n s) (i : ι) : Inv cb request (update n i (n i + 1))
    { s with links := update s.links i { s.links i with broken := true } } := by
  refine hi.relink rfl ?_
  have hview : Streams.view { s with
      links := update s.links i { s.links i with broken := true } } i =
      { s.view i with broken := true } := by
    simp [Streams.view]
  rw [hview]
  exact (hi.view i).snoc .sever fun _ _ h ↦ by cases h

theorem complete {c : Completion RES} {t : StreamRpc REQ RES α} (hi : Inv cb request n s)
    (hs : StreamRpc.Step cb (s.view i) (.complete c) t) :
    Inv cb request (update n i (n i + 1)) { s with
      links := update s.links i { s.links i with client := t.client, wire := t.wire } } := by
  refine hi.relink rfl ?_
  have hview : Streams.view { s with
      links := update s.links i { s.links i with client := t.client, wire := t.wire } } i = t := by
    have ht : t = { s.view i with client := t.client, wire := t.wire } := by cases hs <;> rfl
    rw [ht]
    simp [Streams.view]
  rw [hview]
  exact (hi.view i).snoc hs fun _ _ h ↦ by cases h

/-- **The invariant is preserved**, and the stream that the step belongs to goes on. -/
theorem step (hi : Inv cb request n s) (hs : Step cb request s a s') :
    Inv cb request (fun i ↦ n i + if a.client = some i then 1 else 0) s' := by
  have hone : ∀ {i}, a.client = some i →
      (fun j ↦ n j + if a.client = some j then 1 else 0) = update n i (n i + 1) := by
    intro i ha
    funext j
    by_cases hj : j = i
    · simp [hj, ha]
    · simp [hj, ha, Ne.symm hj]
  cases hs with
  | accept fuel hpeer ho hc hr => exact hone rfl ▸ hi.accept hpeer ho hc hr
  | serve hpeer hs => exact hone rfl ▸ hi.serve hpeer hs
  | shutdown hpeer hb hs => exact hone rfl ▸ hi.shutdown hpeer hb hs
  | refuse hs => exact hi.refuse hs
  | sever i => exact hone rfl ▸ hi.sever i
  | complete hs => exact hone rfl ▸ hi.complete hs

end Inv

/-- **Every stream is a stream of its own.** -/
theorem inv_of_run (h : Run (system cb request) tr s) :
    Inv cb request (fun i ↦ tr.countP fun a ↦ a.client = some i) s := by
  induction h with
  | nil hi =>
    obtain ⟨env, rfl⟩ := hi
    exact ⟨.start cb env, fun i ↦ ⟨[], .nil rfl, rfl, fun _ _ h ↦ by cases h⟩⟩
  | snoc _ hs ih =>
    have hnext := ih.step hs
    simpa only [List.countP_append, List.countP_singleton, decide_eq_true_eq] using hnext

omit [Inhabited REQ] [Inhabited RES] in
/-- The first request that is served is the one that all are. -/
theorem eq_of_head_served {req : REQ} {tr' : List (StreamRpc.Action κ REQ RES)} {b : κ × REQ}
    (hreq : ∀ env req', .serve env req' ∈ tr' → req' = req)
    (hhead : (tr'.filterMap StreamRpc.Action.served).head? = some b) : b.2 = req := by
  obtain ⟨a, ha, hserved⟩ := List.mem_filterMap.1 (List.mem_of_head? hhead)
  cases a with
  | serve env req' =>
    obtain rfl := Option.some.inj hserved
    exact hreq env req' ha
  | _ => cases hserved

end

/-! ### Connections that do not break -/

section

variable {cb : Callbacks κ REQ RES α} {request : ι → REQ} {s s' : Streams ι κ REQ RES α} {i : ι}
  {k : ℕ} {n : ι → ℕ} {tr : List (Action ι RES)} {a : Action ι RES}

omit [DecidableEq ι] [Inhabited REQ] [Inhabited RES] in
/-- A live call has the operation in flight that its status tells. -/
theorem mem_inflight {server : StreamServer κ REQ RES α} {call : AsyncServerStreamCall REQ α}
    (hs : Attended server) (hc : server.pool.object k = some call) :
    (k, AsyncServerStreamCall.op call) ∈ server.pool.inflight := by
  have htag : k ∈ server.pool.tags :=
    (hs.balanced.mem_tags k).2 ⟨by simp [hc], Set.notMem_empty k⟩
  obtain ⟨⟨k', o⟩, ho, rfl⟩ := List.mem_map.1 htag
  rwa [← hs.matches_op k' o call ho hc]

/-- Every connection holds, and a call waits for a request. -/
structure Open (s : Streams ι κ REQ RES α) : Prop where
  unbroken : ∀ i, (s.links i).broken = false
  waits : ∃ k call, s.server.pool.object k = some call ∧ call.status = .startup

theorem Open.step (ho : Open s) (hi : Inv cb request n s) (hs : Step cb request s a s')
    (ha : a.isSound = true) : Open s' := by
  have hserved : ∀ i k server, ∀ j, ((s.served i k server).links j).broken = false := by
    intro i k server j
    by_cases hj : j = i
    · simpa [served, hj] using ho.unbroken i
    · simpa [served, hj] using ho.unbroken j
  obtain ⟨l, call, hcall, hst⟩ := ho.waits
  cases hs with
  | @accept i k call' r fuel hpeer hinflight hc hr =>
    refine ⟨hserved i k _, s.server.pool.next, new, ?_, rfl⟩
    have hstep := Server.Step.serve (K := kind cb) (request i) fuel hinflight hc hr
    have hstatus := status_of_request hi.assigned.attended hinflight hc
    have hnext := congrArg Pool.next (AsyncServerStreamCall.perform_serve
      (p := (s.server.pool.complete (k, .request)).put k r.call) (h := k) hr)
    rw [AsyncServerStreamCall.status_receive, hstatus] at hnext
    refine (AsyncServerStreamCall.seen_of_ne hstep ?_).2.2 (Nat.le_refl _) ?_
    · exact (hi.assigned.attended.lt_next hstep).ne'
    · exact (Nat.lt_succ_self _).trans_eq hnext.symm
  | @serve i k o server hpeer hs =>
    have hne : l ≠ k := fun hlk ↦ (hi.assigned.waiting hcall hst).2.2 i (hlk ▸ hpeer)
    have hlt := hi.assigned.attended.balanced.lt_next l (by simp [hcall])
    exact ⟨hserved i k _, l, call,
      ((AsyncServerStreamCall.seen_of_ne hs hne).2.1 hlt).trans hcall, hst⟩
  | shutdown hpeer hb hs => simp [ho.unbroken] at hb
  | refuse hs => cases ha
  | sever i => cases ha
  | @complete i c t hs =>
    refine ⟨fun j ↦ ?_, l, call, hcall, hst⟩
    by_cases hj : j = i
    · simpa [hj] using ho.unbroken i
    · simpa [hj] using ho.unbroken j

theorem open_of_run
    (h : Run ((system cb request).restrict fun _ a ↦ a.isSound = true) tr s) : Open s := by
  induction h with
  | nil hi =>
    obtain ⟨env, rfl⟩ := hi
    exact ⟨fun _ ↦ rfl, 0, new, rfl, rfl⟩
  | snoc hr hs ih => exact ih.step (inv_of_run hr.of_restrict) hs.1 hs.2

/-- A stream that was opened can be accepted. -/
theorem Open.exists_accept (ho : Open s) (hi : Inv cb request n s) (hstay : cb.Stays)
    (hpeer : (s.links i).peer = none) :
    ∃ a s', Step cb request s a s' ∧ a.isSound = true ∧ a.client = some i := by
  obtain ⟨k, call, hc, hst⟩ := ho.waits
  have hinflight := mem_inflight hi.assigned.attended hc
  obtain ⟨rfl, -, -⟩ := hi.assigned.waiting hc hst
  have hstands : AsyncServerStreamCall.Stands 0 (new : AsyncServerStreamCall REQ α)
      ([] : List (AsyncServerStreamCall.Event RES α)) := ⟨rfl, rfl⟩
  obtain ⟨fuel, hsome⟩ := AsyncServerStreamCall.exists_isSome_serve s.server.env hstay
    (hstands.receive .request (request i))
  obtain ⟨r, hr⟩ := Option.isSome_iff_exists.1 hsome
  exact ⟨_, _, .accept fuel hpeer hinflight hc hr, rfl, rfl⟩

/-- **No stream keeps another waiting.** While connections hold and no wait for a request fails, the
steps of a stream are bounded by its own range, and whatever the other streams have come to, it can
go on by a step of its own, until its call and its client are deleted. Then the promise is set to
the error that the init callback has returned for the request of the client, and either nothing was
sent, or everything that was kept of the whole range it has left was handled. -/
theorem streams_end (hstay : cb.Stays)
    (h : Run ((system cb request).restrict fun _ a ↦ a.isSound = true) tr s) (i : ι) :
    (∀ k ranges status, (s.links i).peer = some k → .initCall ranges status ∈ s.server.events k →
      (tr.countP fun a ↦ a.client = some i) ≤ 2 * ranges.length + 5) ∧
    ((∃ a s', Step cb request s a s' ∧ a.isSound = true ∧ a.client = some i) ∨
      ∃ k env, let r := cb.inited (env, request i)
        (s.links i).peer = some k ∧ s.server.pool.object k = none ∧
        (s.links i).client.handler = none ∧ Tells cb (env, request i) (s.server.events k) ∧
        (s.server.events k).filterMap AsyncServerStreamCall.Event.inited =
          [(r.ranges, r.status)] ∧
        (s.links i).client.promise = some (StreamRpc.reported r.status) ∧
        (s.links i).client.log.filterMap AsyncClientStreamHandler.Event.handled =
          (s.server.events k).filterMap AsyncServerStreamCall.Event.kept ∧
        if r.status.ok then
          (s.server.events k).filterMap AsyncServerStreamCall.Event.position =
            List.range r.ranges.length
        else (s.server.events k).filterMap AsyncServerStreamCall.Event.kept = []) := by
  have hi := inv_of_run h.of_restrict
  have hopen := open_of_run h
  have hb : (s.view i).broken = false := hopen.unbroken i
  obtain ⟨tr', hr, hlen, hreq⟩ := hi.view i
  have hview := StreamRpc.inv_of_run hstay hr
  refine ⟨fun k ranges status hpeer hinit ↦ ?_, ?_⟩
  · have hlength := (StreamRpc.unbroken_of_run (StreamRpc.restrict_of_unbroken hr hb)).2
    rw [← hlen]
    exact hview.length_le hb hlength (by rw [view_of_peer hpeer]; exact hinit)
  · cases hpeer : (s.links i).peer with
    | none => exact .inl (hopen.exists_accept hi hstay hpeer)
    | some k =>
      have hserver := view_of_peer hpeer
      cases hc : s.server.pool.object k with
      | some call =>
        -- the call is served
        have hstands := hview.server
        rw [hb, hserver, seen, hc] at hstands
        obtain ⟨fuel, r, hserve⟩ := hstands.exists_serve hstay s.server.env default
        have hinflight := mem_inflight hi.assigned.attended hc
        exact .inl ⟨_, _, .serve hpeer (.serve default fuel hinflight hc hserve), rfl, rfl⟩
      | none =>
        cases hh : (s.links i).client.handler with
        | some g =>
          obtain ⟨c, t, hs⟩ :=
            hview.exists_complete hb ((congrArg OneCall.call hserver).trans hc) hh
          exact .inl ⟨_, _, .complete hs, rfl, rfl⟩
        | none =>
          obtain ⟨ranges, status, hinited, hend⟩ := hview.of_ended hb hh
          obtain ⟨⟨env, req⟩, hhead, htells, rfl, rfl⟩ := StreamRpc.exists_tells hr hinited
          obtain rfl := eq_of_head_served hreq hhead
          rw [hserver] at hinited hend htells
          exact .inr ⟨k, env, rfl, hc, rfl, htells, hinited, hend⟩

end

/-- Two clients have asked for different parts of one range. The one that gets nothing is accepted
before the other is served to the end. -/
theorem run_two : ∃ (tr : _) (s : Streams Bool Unit ℕ ℕ ℕ),
    Run ((system (AsyncServerStreamCall.keepBelow [7]) fun b ↦ if b then 9 else 5).restrict
      fun _ a ↦ a.isSound = true) tr s ∧
    (s.links true).peer = some 0 ∧ (s.links false).peer = some 1 ∧
    (s.links true).client.promise = some none ∧
    .initCall [7] .okStatus ∈ s.server.events 0 := by
  have h := (((((((Run.nil (S := (system (AsyncServerStreamCall.keepBelow [7])
      fun b : Bool ↦ if b then 9 else 5).restrict fun _ a ↦ a.isSound = true) ⟨(), rfl⟩).snoc
    ⟨Step.accept (i := true) (k := 0) 3 rfl List.mem_cons_self rfl rfl, rfl⟩).snoc
    ⟨Step.accept (i := false) (k := 1) 3 rfl (by decide) rfl rfl, rfl⟩).snoc
    ⟨Step.complete (i := true) (c := ⟨.start, true, 0, .okStatus⟩)
      (.start rfl (.inl rfl) (.handle List.mem_cons_self rfl rfl)), rfl⟩).snoc
    ⟨Step.complete (i := true) (c := ⟨.read, true, 7, .okStatus⟩)
      (.message rfl rfl rfl (.handle List.mem_cons_self rfl rfl)), rfl⟩).snoc
    ⟨Step.serve (i := true) (k := 0) (o := .write) rfl
      (.serve 0 3 (by decide) rfl rfl), rfl⟩).snoc
    ⟨Step.complete (i := true) (c := ⟨.read, false, 0, .okStatus⟩)
      (.noMessage rfl rfl (.inl ⟨rfl, by decide⟩) (.handle List.mem_cons_self rfl rfl)), rfl⟩).snoc
    ⟨Step.complete (i := true) (c := ⟨.finish, true, 0, .okStatus⟩)
      (.status rfl (.inl ⟨rfl, rfl⟩) (.handle List.mem_cons_self rfl rfl)), rfl⟩
  exact ⟨_, _, h, rfl, rfl, rfl, List.mem_cons_of_mem _ List.mem_cons_self⟩

theorem streams_end_two : ∃ (tr : _) (s : Streams Bool Unit ℕ ℕ ℕ),
    Run ((system (AsyncServerStreamCall.keepBelow [7]) fun b ↦ if b then 9 else 5).restrict
      fun _ a ↦ a.isSound = true) tr s ∧
    (tr.countP fun a ↦ a.client = some true) ≤ 7 := by
  obtain ⟨tr, s, h, htrue, -, -, hinit⟩ := run_two
  exact ⟨tr, s, h, (streams_end (fun _ _ _ _ _ ↦ rfl) h true).1 0 [7] _ htrue hinit⟩

end Streams

end Cppkg.Egrpc
