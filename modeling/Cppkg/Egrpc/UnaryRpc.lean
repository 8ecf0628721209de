import Mathlib.Data.Set.Card
import Cppkg.Egrpc.ServerAsync
import Cppkg.Egrpc.WaitFor

/-!
# Requests from one end to the other

Any number of client requests (`AsyncClientHandler`, with their retries) and a server of unary
calls (`AsyncServerCall`), with what `grpc` promises of the attempts between them: the request of an
attempt is accepted at most once, by a call that waits for one; the attempt completes with the
answer of that call, or it is lost, and completes with a status that is not ok. A lost attempt may
have been accepted all the same.

Attempts do not complete inside `init_` here, as they go through the completion queue. What an
attempt came to is recorded when it completes, so that a client is the `Client` of its results
(`Peers.client`). `Inv` relates both ends: a server call has served at most one attempt, each
attempt was served by at most one call, and an attempt that was ok has the answer of its call.
-/

namespace Cppkg.Egrpc

open Function Transition

/-! ### Attempts that do not complete at once -/

namespace AsyncClientHandler

variable {RES : Type*} {A B : Client RES} {w w' : Chain RES} {k n N : ℕ}

/-- No attempt completes inside `init_`. -/
def Async (A : Client RES) : Prop := ∀ k, A.sync k = false

theorem construct_of_async [Inhabited RES] (hA : Async A) (hB : Async B) (fuel : ℕ) :
    construct A (fuel + 1) = construct B (fuel + 1) := by
  funext w n promise
  simp only [construct, hA w.pool.next, hB w.pool.next]
  rfl

/-- What an attempt does depends on its own result only. -/
theorem deliver_congr {c : Chain RES → ℕ → Bool → Option (Chain RES)} (hcb : A.cb = B.cb)
    (hstatus : A.status k = B.status k) (hreply : A.reply k = B.reply k) :
    deliver A c w k = deliver B c w k := by
  simp only [deliver, handle, hcb, hstatus, hreply]

theorem pool_of_destroy (h : w.destroy k = some w') :
    w'.pool.inflight = w.pool.inflight ∧ w'.pool.next = w.pool.next := by
  unfold Chain.destroy at h
  split at h
  · cases h
  · obtain ⟨promise, -, rfl⟩ := Option.map_eq_some_iff.1 h
    exact ⟨rfl, rfl⟩

/-- A completion is the last one of the chain, or one more attempt is in flight. -/
theorem pool_of_deliver [Inhabited RES] (hA : Async A)
    (h : deliver A (construct A (n + 1)) w k = some w') :
    w'.pool.inflight = w.pool.inflight ∧ w'.pool.next = w.pool.next ∨
      w'.pool.inflight = w.pool.inflight ++ [(w.pool.next, ())] ∧
        w'.pool.next = w.pool.next + 1 := by
  unfold deliver at h
  split at h
  · cases h
  next g hg =>
    unfold handle at h
    simp only [Chain.emit, Pool.put, update_self] at h
    split at h
    · split at h <;>
      · have hpool := pool_of_destroy h
        exact .inl hpool
    · split at h
      · simp only [construct, hA _, Bool.false_eq_true, if_false, Option.bind_eq_bind,
          Option.bind_some] at h
        obtain ⟨g', -, h⟩ := Option.bind_eq_some_iff.1 h
        have hpool := pool_of_destroy h
        exact .inr hpool
      · have hpool := pool_of_destroy h
        exact .inl hpool

/-- The attempts complete one after the other. The next one is in flight, or there is none. -/
theorem range_of_run [Inhabited RES] (hA : Async A) {tr : List ℕ}
    (h : Run (system A N) tr w) :
    tr = List.range tr.length ∧
      (w.pool.inflight = [(tr.length, ())] ∧ w.pool.next = tr.length + 1 ∨
        w.pool.inflight = [] ∧ w.pool.next = tr.length) := by
  induction h with
  | @nil w hw =>
    change construct A (N + 1) start N true = some w at hw
    simp only [construct, hA _, Bool.false_eq_true, if_false] at hw
    obtain rfl := Option.some.inj hw
    exact ⟨rfl, .inl ⟨rfl, rfl⟩⟩
  | @snoc tr w w' k _ hs ih =>
    obtain ⟨hrange, hpool⟩ := ih
    cases hs with
    | handle hk hw =>
      obtain ⟨hinflight, hnext⟩ := hpool.resolve_right fun hnil ↦ by simp [hnil.1] at hk
      obtain rfl : k = tr.length := by simpa [hinflight] using hk
      refine ⟨?_, ?_⟩
      · rw [List.length_append, List.length_singleton, List.range_succ, ← hrange]
      · rw [List.length_append, List.length_singleton]
        have hnone : (w.pool.complete (tr.length, ())).inflight = [] := by
          simp [Pool.complete, hinflight]
        rcases pool_of_deliver hA hw with ⟨hi, hn⟩ | ⟨hi, hn⟩
        · exact .inr ⟨hi.trans hnone, hn.trans hnext⟩
        · refine .inl ⟨?_, hn.trans (congrArg (· + 1) hnext)⟩
          rw [hi, hnone, List.nil_append]
          exact congrArg (fun k ↦ [(k, ())]) hnext

/-- Clients whose attempts come to the same have the same runs. -/
theorem run_congr [Inhabited RES] (hA : Async A) (hB : Async B) (hcb : A.cb = B.cb) {tr : List ℕ}
    (h : Run (system A N) tr w)
    (hagree : ∀ k ∈ tr, A.status k = B.status k ∧ A.reply k = B.reply k) :
    Run (system B N) tr w := by
  induction h with
  | nil hi =>
    refine .nil ?_
    change construct B (N + 1) start N true = some _
    rw [← construct_of_async hA hB]
    exact hi
  | @snoc tr w w' k _ hs ih =>
    obtain ⟨hstatus, hreply⟩ := hagree k (by simp)
    refine (ih fun j hj ↦ hagree j (List.mem_append_left _ hj)).snoc ?_
    cases hs with
    | handle hk hw =>
      rw [deliver_congr hcb hstatus hreply, construct_of_async hA hB] at hw
      exact .handle hk hw

end AsyncClientHandler

/-! ### Both ends -/

/-- The answer of a unary call. The reply of an attempt that fails is not used. -/
def AsyncServerCall.Event.answer {REQ RES : Type*} [Inhabited RES] :
    AsyncServerCall.Event REQ RES → Option (Status × RES)
  | .finish reply status => some (status, reply)
  | .finishWithError status => some (status, default)
  | _ => none

/-- What the two ends are set up with. -/
structure Peers (ι κ REQ RES : Type*) where
  /-- The write callback of the server. -/
  writeCall : κ → REQ → RES → AsyncServerCall.Written κ RES
  /-- The request that `init_` sends for an attempt. -/
  request : ι → ℕ → REQ
  /-- `cb_` is set. -/
  cb : ι → Bool
  nretries : ι → ℕ

/-- A client whose attempts came to `results`. -/
def Peers.client {ι κ REQ RES : Type*} (P : Peers ι κ REQ RES) (results : ι → ℕ → Status × RES)
    (i : ι) : Client RES where
  cb := P.cb i
  status k := (results i k).1
  reply k := (results i k).2
  sync _ := false

/-- A server, the requests of clients, and what is between them. -/
structure UnaryRpc (ι κ REQ RES : Type*) where
  server : AsyncServerCall.UnaryServer κ REQ RES
  clients : ι → AsyncClientHandler.Chain RES
  /-- The attempt whose request a call of the server has accepted. -/
  serves : ℕ → Option (ι × ℕ)
  /-- What the attempts that have completed came to. -/
  results : ι → ℕ → Status × RES

namespace UnaryRpc

open AsyncServerCall (Written exchange)

variable {ι κ REQ RES : Type*}

/-- What happens next. -/
inductive Action (ι : Type*) where
  /-- Call `h` accepts the request of attempt `k` of client `i`. -/
  | accept (h : ℕ) (i : ι) (k : ℕ)
  /-- The answer of call `h` completes. -/
  | answered (h : ℕ) (ok : Bool)
  /-- The wait of call `h` fails. -/
  | refuse (h : ℕ)
  /-- The attempt completes with the answer of its call. -/
  | respond (i : ι) (k : ℕ)
  /-- The attempt is lost. -/
  | lose (i : ι) (k : ℕ)

namespace Action

/-- What it is to the server. A completion that accepts nothing brings no request along. -/
def server [Inhabited REQ] (P : Peers ι κ REQ RES) :
    Action ι → Option (Server.Action AsyncServerCall.Op REQ)
  | .accept h i k => some (.complete h .request true (P.request i k))
  | .answered h ok => some (.complete h .finish ok default)
  | .refuse h => some (.complete h .request false default)
  | _ => none

/-- The attempt that completes. -/
def completes : Action ι → Option (ι × ℕ)
  | .respond i k => some (i, k)
  | .lose i k => some (i, k)
  | _ => none

/-- The attempt that is accepted. -/
def accepts : Action ι → Option (ι × ℕ)
  | .accept _ i k => some (i, k)
  | _ => none

def isAnswered : Action ι → Bool
  | .answered _ _ => true
  | _ => false

/-- Nothing is lost or refused. -/
def isSound : Action ι → Bool
  | .refuse _ => false
  | .lose _ _ => false
  | _ => true

end Action

/-- The results after an attempt has come to `r`. -/
def recordResult [DecidableEq ι] (results : ι → ℕ → Status × RES) (i : ι) (k : ℕ)
    (r : Status × RES) : ι → ℕ → Status × RES :=
  update results i (update (results i) k r)

section

variable [DecidableEq ι] [Inhabited REQ] [Inhabited RES]

/-- The steps of both ends. -/
inductive Step (P : Peers ι κ REQ RES) (s : UnaryRpc ι κ REQ RES) :
    Action ι → UnaryRpc ι κ REQ RES → Prop
  | accept {h : ℕ} {i : ι} {k : ℕ} {call : AsyncServerCall REQ}
      {r : Served κ (AsyncServerCall REQ) (AsyncServerCall.Event REQ RES)}
      (hk : (k, ()) ∈ (s.clients i).pool.inflight) (hnew : ∀ h', s.serves h' ≠ some (i, k))
      (ho : (h, .request) ∈ s.server.pool.inflight) (hc : s.server.pool.object h = some call)
      (hr : AsyncServerCall.serve P.writeCall s.server.env
        (AsyncServerCall.receive .request (P.request i k) call) = r) :
      Step P s (.accept h i k)
        { s with
          server := Server.record (AsyncServerCall.kind P.writeCall)
            { s.server with
              pool := (s.server.pool.complete (h, .request)).put h r.call
              env := r.env } h r.events
          serves := update s.serves h (some (i, k)) }
  | answered {h : ℕ} {ok : Bool} {server : AsyncServerCall.UnaryServer κ REQ RES}
      (hs : Server.Step (AsyncServerCall.kind P.writeCall) s.server
        (.complete h .finish ok default) server) :
      Step P s (.answered h ok) { s with server := server }
  | refuse {h : ℕ} {server : AsyncServerCall.UnaryServer κ REQ RES}
      (hs : Server.Step (AsyncServerCall.kind P.writeCall) s.server
        (.complete h .request false default) server) :
      Step P s (.refuse h) { s with server := server }
  | respond {h : ℕ} {i : ι} {k : ℕ} {w : AsyncClientHandler.Chain RES} {r : Status × RES}
      (hserves : s.serves h = some (i, k))
      (hr : r ∈ (s.server.events h).filterMap AsyncServerCall.Event.answer)
      (hs : AsyncClientHandler.Step (P.client (recordResult s.results i k r) i) (P.nretries i)
        (s.clients i) k w) :
      Step P s (.respond i k)
        { s with clients := update s.clients i w, results := recordResult s.results i k r }
  | lose {i : ι} {k : ℕ} {w : AsyncClientHandler.Chain RES} (status : Status)
      (hst : status.ok = false)
      (hs : AsyncClientHandler.Step (P.client (recordResult s.results i k (status, default)) i)
        (P.nretries i) (s.clients i) k w) :
      Step P s (.lose i k)
        { s with
          clients := update s.clients i w
          results := recordResult s.results i k (status, default) }

/-- A server with one call that waits, and clients whose first attempts are in flight. -/
def system (P : Peers ι κ REQ RES) : System (UnaryRpc ι κ REQ RES) (Action ι) where
  init s := (∃ env, s.server = Server.start (AsyncServerCall.kind P.writeCall) env) ∧
    (∀ i, (AsyncClientHandler.system (P.client s.results i) (P.nretries i)).init (s.clients i)) ∧
    s.serves = fun _ ↦ none
  step := Step P

/-! ### The invariant -/

section

variable {P : Peers ι κ REQ RES} {server server' : AsyncServerCall.UnaryServer κ REQ RES}
  {tr : List (Server.Action AsyncServerCall.Op REQ)} {h : ℕ}

omit [DecidableEq ι] [Inhabited REQ] in
theorem answer_exchange (req : REQ) (r : Written κ RES) :
    (exchange req r).filterMap AsyncServerCall.Event.answer =
      [if r.status.ok then (r.status, r.reply) else (r.status, default)] := by
  cases hok : r.status.ok <;> simp only [exchange, hok] <;> rfl

omit [DecidableEq ι] [Inhabited REQ] in
theorem filterMap_answer_work (h : ℕ) :
    (AsyncServerCall.work server h).filterMap AsyncServerCall.Event.answer =
      (server.events h).filterMap AsyncServerCall.Event.answer := by
  rw [AsyncServerCall.work, List.filterMap_filter]
  refine List.filterMap_congr fun e _ ↦ ?_
  cases e <;> rfl

omit [DecidableEq ι] in
/-- A call that waits serves the request: it creates its successor and issues the answer. -/
theorem of_accept (hs : AsyncServerCall.Serving P.writeCall tr server)
    (ho : (h, .request) ∈ server.pool.inflight) {call : AsyncServerCall REQ}
    (hc : server.pool.object h = some call) (req : REQ)
    {r : Served κ (AsyncServerCall REQ) (AsyncServerCall.Event REQ RES)}
    (hr : AsyncServerCall.serve P.writeCall server.env
      (AsyncServerCall.receive .request req call) = r)
    (hserver : Server.record (AsyncServerCall.kind P.writeCall)
      { server with pool := (server.pool.complete (h, .request)).put h r.call, env := r.env } h
      r.events = server') :
    server'.pool.inflight =
        server.pool.inflight.erase (h, .request) ++ [(server.pool.next, .request)] ++
          [(h, .finish)] ∧
      AsyncServerCall.work server h = [] ∧ ∃ env, ∀ l,
        AsyncServerCall.work server' l = AsyncServerCall.work server l ++
          if l = h then exchange req (P.writeCall env req default) else [] := by
  have hd : call.done = false := by
    have hop := hs.matches_op h _ call ho hc
    cases hd : call.done with
    | false => rfl
    | true => simp [AsyncServerCall.op, hd] at hop
  have hd' : (AsyncServerCall.receive .request req call).done = false := hd
  have hevents := (AsyncServerCall.events_serve P.writeCall server.env hd').1
  have heffects := AsyncServerCall.effects_serve P.writeCall server.env hd'
  rw [hr] at hevents
  subst hserver
  refine ⟨?_, (hs.untouched h (.inr ⟨call, hc, hd⟩)).2, server.env, fun l ↦ ?_⟩
  · rw [Server.record, ← hr, heffects]
    rfl
  · rw [AsyncServerCall.Serving.work_record, hevents, AsyncServerCall.filter_isWork_exchange]
    rfl

omit [DecidableEq ι] in
/-- A call whose answer completes, or whose wait fails, is deleted and does no more. -/
theorem of_delete (hs : AsyncServerCall.Serving P.writeCall tr server) {o : AsyncServerCall.Op}
    {ok : Bool} {req : REQ} (ha : o = .finish ∨ ok = false)
    (hstep : Server.Step (AsyncServerCall.kind P.writeCall) server (.complete h o ok req)
      server') :
    (h, o) ∈ server.pool.inflight ∧ server'.pool.inflight = server.pool.inflight.erase (h, o) ∧
      ∀ k, AsyncServerCall.work server' k = AsyncServerCall.work server k := by
  cases hstep with
  | @serve _ _ call r req fuel ho hc hr =>
    obtain rfl : AsyncServerCall.serve P.writeCall server.env
      (AsyncServerCall.receive o req call) = r := Option.some.inj hr
    obtain rfl := ha.resolve_right (by simp)
    have hop := hs.matches_op h _ call ho hc
    have hd : (AsyncServerCall.receive .finish req call).done = true := by
      cases hd : call.done with
      | true => exact hd
      | false => simp [AsyncServerCall.op, hd] at hop
    rw [AsyncServerCall.serve_of_done hd]
    refine ⟨ho, rfl, fun k ↦ ?_⟩
    rw [AsyncServerCall.Serving.work_record]
    simp [AsyncServerCall.Event.isWork, AsyncServerCall.work, Server.events]
  | shutdown req ho hc =>
    refine ⟨ho, rfl, fun k ↦ ?_⟩
    rw [AsyncServerCall.Serving.work_record]
    simp [AsyncServerCall.kind, AsyncServerCall.shutdown, AsyncServerCall.Event.isWork,
      AsyncServerCall.work, Server.events]

end

/-- The invariant of both ends. -/
structure Inv (P : Peers ι κ REQ RES) (tr : List (Action ι)) (s : UnaryRpc ι κ REQ RES) :
    Prop where
  server : Run (Server.system (AsyncServerCall.kind P.writeCall))
    (tr.filterMap (Action.server P)) s.server
  client : ∀ i, Run (AsyncClientHandler.system (P.client s.results i) (P.nretries i))
    ((tr.filterMap Action.completes).filterMap (labelOf i)) (s.clients i)
  idle : ∀ {h}, s.serves h = none → AsyncServerCall.work s.server h = []
  busy : ∀ {h i k}, s.serves h = some (i, k) → k ≤ P.nretries i ∧
    ∃ env, AsyncServerCall.work s.server h =
      exchange (P.request i k) (P.writeCall env (P.request i k) default)
  inj : ∀ {h h' i k}, s.serves h = some (i, k) → s.serves h' = some (i, k) → h = h'
  result : ∀ i, ∀ k ∈ (tr.filterMap Action.completes).filterMap (labelOf i),
    (s.results i k).1.ok = true → ∃ h env, s.serves h = some (i, k) ∧
      let r := P.writeCall env (P.request i k) default
      AsyncServerCall.work s.server h = exchange (P.request i k) r ∧
        s.results i k = (r.status, r.reply)


variable {P : Peers ι κ REQ RES} {tr : List (Action ι)} {s s' : UnaryRpc ι κ REQ RES}
  {a : Action ι} {i : ι} {k : ℕ}

omit [DecidableEq ι] [Inhabited REQ] [Inhabited RES] in
theorem async_client (P : Peers ι κ REQ RES) (results : ι → ℕ → Status × RES) (i : ι) :
    AsyncClientHandler.Async (P.client results i) := fun _ ↦ rfl

namespace Inv

theorem serving (hi : Inv P tr s) :
    AsyncServerCall.Serving P.writeCall (tr.filterMap (Action.server P)) s.server :=
  AsyncServerCall.serving_of_run hi.server

/-- The attempts of a client that have completed, and the one in flight. -/
theorem range (hi : Inv P tr s) (i : ι) :
    let n := ((tr.filterMap Action.completes).filterMap (labelOf i)).length
    (tr.filterMap Action.completes).filterMap (labelOf i) = List.range n ∧
      ((s.clients i).pool.inflight = [(n, ())] ∧ (s.clients i).pool.next = n + 1 ∨
        (s.clients i).pool.inflight = [] ∧ (s.clients i).pool.next = n) :=
  AsyncClientHandler.range_of_run (async_client P s.results i) (hi.client i)

/-- An attempt in flight is one of those the client may make. -/
theorem le_nretries (hi : Inv P tr s) (hk : (k, ()) ∈ (s.clients i).pool.inflight) :
    k ≤ P.nretries i := by
  cases (AsyncClientHandler.retrying_of_run (hi.client i)).leaves.settles with
  | done hinflight => simp [hinflight, AsyncClientHandler.start, Pool.empty] at hk
  | waits hinflight _ _ _ hlast =>
    obtain rfl := by simpa [hinflight, AsyncClientHandler.start, Pool.empty] using hk
    exact hlast ▸ Nat.le_add_right ..

/-- The run of a client does not depend on what an attempt in flight will come to. -/
theorem client_recordResult (hi : Inv P tr s) (hk : (k, ()) ∈ (s.clients i).pool.inflight)
    (r : Status × RES) :
    (∀ j ∈ (tr.filterMap Action.completes).filterMap (labelOf i),
      recordResult s.results i k r i j = s.results i j) ∧
    Run (AsyncClientHandler.system (P.client (recordResult s.results i k r) i) (P.nretries i))
      ((tr.filterMap Action.completes).filterMap (labelOf i)) (s.clients i) := by
  have hsame : ∀ j ∈ (tr.filterMap Action.completes).filterMap (labelOf i),
      recordResult s.results i k r i j = s.results i j := fun j hj ↦ by
    obtain ⟨hrange, hpool⟩ := hi.range i
    rw [hrange, List.mem_range] at hj
    obtain ⟨hinflight, -⟩ := hpool.resolve_right fun hnil ↦ by simp [hnil.1] at hk
    obtain rfl : k = _ := by simpa [hinflight] using hk
    rw [recordResult, update_self, update_of_ne (Nat.ne_of_lt hj)]
  refine ⟨hsame, AsyncClientHandler.run_congr (async_client P s.results i)
    (async_client P (recordResult s.results i k r) i) rfl (hi.client i) fun l hl ↦ ?_⟩
  simp [Peers.client, hsame l hl]

/-- An attempt completes. If it was ok, it has the answer of its call. -/
theorem complete (hi : Inv P tr s) {r : Status × RES} {w : AsyncClientHandler.Chain RES}
    (hs : AsyncClientHandler.Step (P.client (recordResult s.results i k r) i) (P.nretries i)
      (s.clients i) k w)
    (hserver : a.server P = none) (hcompletes : a.completes = some (i, k))
    (hr : r.1.ok = true → ∃ h env, s.serves h = some (i, k) ∧
      let r' := P.writeCall env (P.request i k) default
      AsyncServerCall.work s.server h = exchange (P.request i k) r' ∧ r = (r'.status, r'.reply)) :
    Inv P (tr ++ [a])
      { s with clients := update s.clients i w, results := recordResult s.results i k r } := by
  have htr : ∀ j, ((tr ++ [a]).filterMap Action.completes).filterMap (labelOf j) =
      (tr.filterMap Action.completes).filterMap (labelOf j) ++ if i = j then [k] else [] := by
    intro j
    by_cases hj : i = j <;> simp [hcompletes, labelOf, hj]
  have hother : ∀ j, j ≠ i → recordResult s.results i k r j = s.results j := fun j hj ↦
    update_of_ne hj ..
  have hk : (k, ()) ∈ (s.clients i).pool.inflight := by
    cases hs with
    | handle hk _ => exact hk
  obtain ⟨hsame, hrun⟩ := hi.client_recordResult hk r
  refine ⟨by simpa [hserver] using hi.server, fun j ↦ ?_, hi.idle, hi.busy, hi.inj, fun j l hl ↦ ?_⟩
  · rw [htr]
    by_cases hj : i = j
    · subst hj
      dsimp only
      rw [if_pos rfl, update_self]
      exact hrun.snoc hs
    · dsimp only
      rw [if_neg hj, List.append_nil, update_of_ne (Ne.symm hj)]
      have hclient : P.client (recordResult s.results i k r) j = P.client s.results j := by
        simp only [Peers.client, hother j (Ne.symm hj)]
      rw [hclient]
      exact hi.client j
  · rw [htr] at hl
    by_cases hj : i = j
    · subst hj
      rw [if_pos rfl, List.mem_append, List.mem_singleton] at hl
      dsimp only
      rcases hl with hl | rfl
      · rw [hsame l hl]
        exact hi.result i l hl
      · rw [recordResult, update_self, update_self]
        exact hr
    · rw [if_neg hj, List.append_nil] at hl
      dsimp only
      rw [hother j (Ne.symm hj)]
      exact hi.result j l hl

/-- A call that served a request is deleted, or one whose wait has failed. -/
theorem delete (hi : Inv P tr s) {h : ℕ} {o : AsyncServerCall.Op} {ok : Bool}
    {server : AsyncServerCall.UnaryServer κ REQ RES} (ho : o = .finish ∨ ok = false)
    (hs : Server.Step (AsyncServerCall.kind P.writeCall) s.server (.complete h o ok default) server)
    (hserver : a.server P = some (.complete h o ok default)) (hcompletes : a.completes = none) :
    Inv P (tr ++ [a]) { s with server := server } := by
  obtain ⟨-, -, hwork⟩ := of_delete hi.serving ho hs
  have htr : (tr ++ [a]).filterMap Action.completes = tr.filterMap Action.completes := by
    simp [hcompletes]
  refine ⟨?_, by simpa only [htr] using hi.client, fun {h} hh ↦ ?_, fun {h i k} hh ↦ ?_, hi.inj,
    fun i k hk hok ↦ ?_⟩
  · rw [List.filterMap_append]
    have hlabel : [a].filterMap (Action.server P) = [.complete h o ok default] := by
      simp [hserver]
    rw [hlabel]
    exact hi.server.snoc hs
  · rw [hwork]
    exact hi.idle hh
  · rw [hwork]
    exact hi.busy hh
  · rw [htr] at hk
    obtain ⟨h, env, hserves, hw, hr⟩ := hi.result i k hk hok
    exact ⟨h, env, hserves, (hwork h).trans hw, hr⟩

/-- A call that waits accepts the request of an attempt. -/
theorem accept (hi : Inv P tr s) {h : ℕ} {server : AsyncServerCall.UnaryServer κ REQ RES}
    {env : κ} (hk : (k, ()) ∈ (s.clients i).pool.inflight)
    (hnew : ∀ h', s.serves h' ≠ some (i, k))
    (hs : Server.Step (AsyncServerCall.kind P.writeCall) s.server
      (.complete h .request true (P.request i k)) server)
    (hnone : AsyncServerCall.work s.server h = [])
    (hwork : ∀ l, AsyncServerCall.work server l = AsyncServerCall.work s.server l ++
      if l = h then exchange (P.request i k) (P.writeCall env (P.request i k) default) else []) :
    Inv P (tr ++ [.accept h i k])
      { s with server := server, serves := update s.serves h (some (i, k)) } := by
  have hfree : s.serves h = none := by
    cases hserves : s.serves h with
    | none => rfl
    | some served =>
      obtain ⟨-, env, hw⟩ := hi.busy hserves
      simp [hnone, exchange] at hw
  have hsame : ∀ {l}, l ≠ h → update s.serves h (some (i, k)) l = s.serves l ∧
      AsyncServerCall.work server l = AsyncServerCall.work s.server l := fun hl ↦ by
    rw [update_of_ne hl, hwork, if_neg hl, List.append_nil]
    exact ⟨rfl, rfl⟩
  have htr : (tr ++ [Action.accept h i k]).filterMap Action.completes =
      tr.filterMap Action.completes := by simp [Action.completes]
  refine ⟨?_, by simpa only [htr] using hi.client, fun {l} hl ↦ ?_, fun {l j m} hl ↦ ?_,
    fun {l l' j m} hl hl' ↦ ?_, fun j m hm hok ↦ ?_⟩
  · rw [List.filterMap_append]
    exact hi.server.snoc hs
  · have hlh : l ≠ h := by
      rintro rfl
      simp at hl
    obtain ⟨hserves, hw⟩ := hsame hlh
    exact hw.trans (hi.idle (hserves.symm.trans hl))
  · by_cases hlh : l = h
    · subst hlh
      obtain ⟨rfl, rfl⟩ : i = j ∧ k = m := by simpa using hl
      exact ⟨hi.le_nretries hk, env, by rw [hwork, hnone, if_pos rfl]; rfl⟩
    · obtain ⟨hserves, hw⟩ := hsame hlh
      simp only [hw]
      exact hi.busy (hserves.symm.trans hl)
  · -- only call `h` serves the new attempt
    have hserved : ∀ {l}, update s.serves h (some (i, k)) l = some (j, m) →
        l = h ∧ i = j ∧ k = m ∨ l ≠ h ∧ s.serves l = some (j, m) := fun {l} hl ↦ by
      by_cases hlh : l = h
      · subst hlh
        exact .inl ⟨rfl, by simpa using hl⟩
      · exact .inr ⟨hlh, (hsame hlh).1.symm.trans hl⟩
    rcases hserved hl with ⟨rfl, rfl, rfl⟩ | ⟨hlh, hl⟩
    · rcases hserved hl' with ⟨rfl, -⟩ | ⟨-, hl'⟩
      · rfl
      · exact absurd hl' (hnew _)
    · rcases hserved hl' with ⟨-, rfl, rfl⟩ | ⟨-, hl'⟩
      · exact absurd hl (hnew l)
      · exact hi.inj hl hl'
  · rw [htr] at hm
    obtain ⟨l, env, hl, hw, hr⟩ := hi.result j m hm hok
    have hlh : l ≠ h := by
      rintro rfl
      exact Option.some_ne_none _ (hl.symm.trans hfree)
    obtain ⟨hserves, hw'⟩ := hsame hlh
    exact ⟨l, env, hserves.trans hl, hw'.trans hw, hr⟩

/-- **Every step keeps the invariant.** -/
theorem step (hi : Inv P tr s) (hs : Step P s a s') : Inv P (tr ++ [a]) s' := by
  cases hs with
  | @accept h i k call r hk hnew ho hc hr =>
    obtain ⟨-, hnone, env, hwork⟩ := of_accept hi.serving ho hc (P.request i k) hr rfl
    exact hi.accept hk hnew (.serve (P.request i k) 0 ho hc (congrArg some hr)) hnone hwork
  | answered hs => exact hi.delete (.inl rfl) hs rfl rfl
  | refuse hs => exact hi.delete (.inr rfl) hs rfl rfl
  | @respond h i k w r hserves hr hs =>
    refine hi.complete hs rfl rfl fun hok ↦ ?_
    obtain ⟨-, env, hw⟩ := hi.busy hserves
    rw [← filterMap_answer_work, hw, answer_exchange, List.mem_singleton] at hr
    split at hr
    next hst => exact ⟨h, env, hserves, hw, hr⟩
    next hst => simp [hr, hst] at hok
  | lose _ hst hs => exact hi.complete hs rfl rfl fun hok ↦ absurd hok (Bool.eq_false_iff.1 hst)

end Inv

theorem inv_of_run (h : Run (system P) tr s) : Inv P tr s := by
  induction h with
  | nil hi =>
    obtain ⟨⟨env, hserver⟩, hclients, hserves⟩ := hi
    refine ⟨.nil ⟨env, hserver⟩, fun i ↦ .nil (hclients i), fun _ ↦ ?_, ?_, ?_, ?_⟩
    · rw [hserver]
      rfl
    · simp [hserves]
    · simp [hserves]
    · simp
  | snoc _ hs ih => exact ih.step hs

/-- A request that has succeeded. The call that served its last attempt has the reply. -/
theorem Inv.succeeded (hi : Inv P tr s) (hp : (s.clients i).promise = some none) :
    ∃ h k env, s.serves h = some (i, k) ∧
      let r := P.writeCall env (P.request i k) default
      r.status.ok = true ∧ AsyncServerCall.work s.server h = exchange (P.request i k) r ∧
      AsyncClientHandler.FirstOk (P.client s.results i) k ∧ (s.clients i).pool.next = k + 1 ∧
      AsyncClientHandler.Ended (s.clients i) (k + 1) (if P.cb i then [r.reply] else []) none := by
  obtain ⟨hnil, hset⟩ := (AsyncClientHandler.outcome_of_run (hi.client i)).resolve_left
    fun hunset ↦ Option.some_ne_none _ (hp.symm.trans hunset.1)
  rcases AsyncClientHandler.exists_firstOk_or_fail (P.client s.results i) (P.nretries i) with
    ⟨k, hk, hok⟩ | hfail
  · have hended := (AsyncClientHandler.ended_of_run (hi.client i) hnil).1 k hk hok
    obtain ⟨hrange, hpool⟩ := hi.range i
    obtain ⟨-, hnext⟩ := hpool.resolve_left fun hsome ↦ by simp [hnil] at hsome
    have hlast : (s.clients i).pool.next = k + 1 := by
      have hinits := (AsyncClientHandler.retrying_of_run (hi.client i)).leaves.recorded.inits
      rw [hended.log, List.filterMap_append, AsyncClientHandler.inited_tries] at hinits
      simpa [List.filterMap_cons, AsyncClientHandler.Event.inited] using
        (congrArg List.length hinits).symm
    have hmem : k ∈ (tr.filterMap Action.completes).filterMap (labelOf i) := by
      rw [hrange, ← hnext, hlast, List.mem_range]
      exact Nat.lt_succ_self k
    obtain ⟨h, env, hserves, hw, hr⟩ := hi.result i k hmem hok.1
    have hstatus : (s.results i k).1.ok = true := hok.1
    simp only [Peers.client, hr] at hstatus hended
    exact ⟨h, k, env, hserves, hstatus, hw, hok, hlast, hended⟩
  · rw [AsyncClientHandler.outcome_of_fail hfail] at hset
    cases hp.symm.trans hset

/-- **Requests are executed at least once if they succeed, and at most once for each attempt.** A
call of the server has done nothing, or it has created its successor, run the write callback once on
the request of an attempt and issued one answer, with what the callback returned. No two calls serve
the same attempt, so that a request with `n` retries is executed at most `n + 1` times. When the
promise of a request is set to null, the attempts before some attempt `k` have failed, a call has
served attempt `k` and its write callback has returned a status that is ok, and if it is set `cb_`
was called once, with the reply that the callback has left. When it is set to an error, all `n + 1`
attempts were made. -/
theorem requests_executed (h : Run (system P) tr s) :
    (∀ h, s.serves h = none ∧ AsyncServerCall.work s.server h = [] ∨ ∃ i k,
      s.serves h = some (i, k) ∧
        AsyncServerCall.Answered P.writeCall (P.request i k) (AsyncServerCall.work s.server h)) ∧
    (∀ h h' i k, s.serves h = some (i, k) → s.serves h' = some (i, k) → h = h') ∧
    (∀ i, {h | ∃ k, s.serves h = some (i, k)}.encard ≤ P.nretries i + 1) ∧
    (∀ i, (s.clients i).promise = some none → ∃ h k env, s.serves h = some (i, k) ∧
      let r := P.writeCall env (P.request i k) default
      r.status.ok = true ∧ AsyncServerCall.work s.server h = exchange (P.request i k) r ∧
      AsyncClientHandler.Ended (s.clients i) (k + 1) (if P.cb i then [r.reply] else []) none) ∧
    ∀ i msg, (s.clients i).promise = some (some msg) →
      AsyncClientHandler.Ended (s.clients i) (P.nretries i + 1) [] (some msg) := by
  have hi := inv_of_run h
  refine ⟨fun h ↦ ?_, fun h h' i k ↦ hi.inj, fun i ↦ ?_, fun i hp ↦ ?_, fun i msg hp ↦ ?_⟩
  · cases hserves : s.serves h with
    | none => exact .inl ⟨rfl, hi.idle hserves⟩
    | some served =>
      obtain ⟨-, env, hw⟩ := hi.busy hserves
      exact .inr ⟨_, _, rfl, env, hw⟩
  · -- each call is taken to the attempt it serves
    have hmaps : Set.MapsTo (fun h ↦ ((s.serves h).map Prod.snd).getD 0)
        {h | ∃ k, s.serves h = some (i, k)} (Finset.range (P.nretries i + 1)) := by
      rintro h ⟨k, hk⟩
      simpa [hk, Nat.lt_succ_iff] using (hi.busy hk).1
    have hinjOn : Set.InjOn (fun h ↦ ((s.serves h).map Prod.snd).getD 0)
        {h | ∃ k, s.serves h = some (i, k)} := by
      rintro h ⟨k, hk⟩ h' ⟨k', hk'⟩ heq
      obtain rfl : k = k' := by simpa [hk, hk'] using heq
      exact hi.inj hk hk'
    refine (Set.encard_le_encard_of_injOn hmaps hinjOn).trans_eq ?_
    rw [Set.encard_coe_eq_coe_finsetCard, Finset.card_range]
    rfl
  · obtain ⟨h, k, env, hserves, hok, hw, -, -, hended⟩ := hi.succeeded hp
    exact ⟨h, k, env, hserves, hok, hw, hended⟩
  · obtain ⟨hnil, hset⟩ := (AsyncClientHandler.outcome_of_run (hi.client i)).resolve_left
      fun hunset ↦ Option.some_ne_none _ (hp.symm.trans hunset.1)
    have hmsg : some msg = AsyncClientHandler.outcome (P.client s.results i) (P.nretries i) :=
      Option.some.inj (hp.symm.trans hset)
    rcases AsyncClientHandler.exists_firstOk_or_fail (P.client s.results i) (P.nretries i) with
      ⟨k, hk, hok⟩ | hfail
    · rw [AsyncClientHandler.outcome_of_firstOk hk hok] at hmsg
      cases hmsg
    · rw [AsyncClientHandler.outcome_of_fail hfail] at hmsg
      rw [hmsg]
      exact (AsyncClientHandler.ended_of_run (hi.client i) hnil).2 hfail

/-! ### When nothing is lost -/

/-- What has been accepted, answered and completed, when nothing is lost or refused. -/
structure Counts (tr : List (Action ι)) (s : UnaryRpc ι κ REQ RES) : Prop where
  sound : ∀ a ∈ tr, a.isSound = true
  nodup : (tr.filterMap Action.accepts).Nodup
  mem_accepts : ∀ {p}, p ∈ tr.filterMap Action.accepts ↔ ∃ h, s.serves h = some p
  answers : tr.countP Action.isAnswered +
    s.server.pool.inflight.countP (·.2 = AsyncServerCall.Op.finish) =
      (tr.filterMap Action.accepts).length
  lt_next : ∀ {h i k}, s.serves h = some (i, k) → k < (s.clients i).pool.next
  served : ∀ i, ∀ k ∈ (tr.filterMap Action.completes).filterMap (labelOf i),
    ∃ h, s.serves h = some (i, k) ∧
      s.results i k ∈ (AsyncServerCall.work s.server h).filterMap AsyncServerCall.Event.answer

omit [DecidableEq ι] [Inhabited REQ] [Inhabited RES] in
theorem length_eq (hsound : ∀ a ∈ tr, a.isSound = true) :
    tr.length = (tr.filterMap Action.accepts).length + tr.countP Action.isAnswered +
      (tr.filterMap Action.completes).length := by
  induction tr with
  | nil => rfl
  | cons a tr ih =>
    have hcons := ih fun b hb ↦ hsound b (List.mem_cons_of_mem a hb)
    cases a with
    | refuse => exact absurd (hsound _ List.mem_cons_self) Bool.false_ne_true
    | lose => exact absurd (hsound _ List.mem_cons_self) Bool.false_ne_true
    | _ =>
      simp [Action.accepts, Action.isAnswered, Action.completes, List.countP_cons,
        List.filterMap_cons, hcons]
      omega

namespace Counts

/-- A call accepts the request of an attempt. -/
theorem accept (hc : Counts tr s) (hi : Inv P tr s) {h : ℕ}
    {server : AsyncServerCall.UnaryServer κ REQ RES} {env : κ}
    (hk : (k, ()) ∈ (s.clients i).pool.inflight) (hnew : ∀ h', s.serves h' ≠ some (i, k))
    (ho : (h, .request) ∈ s.server.pool.inflight)
    (hinflight : server.pool.inflight = s.server.pool.inflight.erase (h, .request) ++
      [(s.server.pool.next, .request)] ++ [(h, .finish)])
    (hnone : AsyncServerCall.work s.server h = [])
    (hwork : ∀ l, AsyncServerCall.work server l = AsyncServerCall.work s.server l ++
      if l = h then exchange (P.request i k) (P.writeCall env (P.request i k) default) else []) :
    Counts (tr ++ [.accept h i k])
      { s with server := server, serves := update s.serves h (some (i, k)) } := by
  have hfree : s.serves h = none := by
    cases hserves : s.serves h with
    | none => rfl
    | some served =>
      obtain ⟨-, env, hw⟩ := hi.busy hserves
      simp [hnone, exchange] at hw
  have hserved : ∀ {l p}, update s.serves h (some (i, k)) l = some p ↔
      l = h ∧ (i, k) = p ∨ s.serves l = some p := fun {l p} ↦ by
    by_cases hl : l = h
    · subst hl
      simp [hfree]
    · simp [hl]
  have hfilter : (tr ++ [Action.accept h i k]).filterMap Action.accepts =
      tr.filterMap Action.accepts ++ [(i, k)] := by simp [Action.accepts]
  have htr : (tr ++ [Action.accept h i k]).filterMap Action.completes =
      tr.filterMap Action.completes := by simp [Action.completes]
  refine ⟨?_, ?_, fun {p} ↦ ?_, ?_, fun {l j m} hl ↦ ?_, fun j m hm ↦ ?_⟩
  · simpa [or_imp, forall_and, Action.isSound] using hc.sound
  · rw [hfilter, ← List.concat_eq_append]
    refine hc.nodup.concat fun hmem ↦ ?_
    obtain ⟨l, hl⟩ := hc.mem_accepts.1 hmem
    exact hnew l hl
  · rw [hfilter, List.mem_append, List.mem_singleton, hc.mem_accepts]
    simp only [hserved, exists_or, and_comm (a := _ = h), exists_eq_right]
    exact ⟨fun hp ↦ hp.elim .inr fun hp ↦ .inl hp.symm, fun hp ↦ hp.elim (.inr ·.symm) .inl⟩
  · have hcount := hc.answers
    rw [(List.perm_cons_erase ho).countP_eq, List.countP_cons] at hcount
    rw [hfilter, hinflight]
    simp only [List.countP_append, List.countP_singleton, List.length_append, Action.isAnswered,
      List.length_singleton] at hcount ⊢
    simp at hcount ⊢
    omega
  · rcases hserved.1 hl with ⟨-, hjm⟩ | hl
    · obtain ⟨rfl, rfl⟩ := Prod.mk.inj hjm
      have hb := (AsyncClientHandler.retrying_of_run (hi.client i)).leaves.balanced
      exact hb.lt_next k (hb.live hk)
    · exact hc.lt_next hl
  · rw [htr] at hm
    obtain ⟨l, hl, hr⟩ := hc.served j m hm
    have hlh : l ≠ h := by
      rintro rfl
      exact Option.some_ne_none _ (hl.symm.trans hfree)
    refine ⟨l, hserved.2 (.inr hl), ?_⟩
    dsimp only
    rwa [hwork, if_neg hlh, List.append_nil]

/-- The answer of a call completes. -/
theorem answered (hc : Counts tr s) (hi : Inv P tr s) {h : ℕ} {ok : Bool}
    {server : AsyncServerCall.UnaryServer κ REQ RES}
    (hs : Server.Step (AsyncServerCall.kind P.writeCall) s.server
      (.complete h .finish ok default) server) :
    Counts (tr ++ [.answered h ok]) { s with server := server } := by
  obtain ⟨ho, hinflight, hwork⟩ := of_delete hi.serving (.inl rfl) hs
  have hfilter : (tr ++ [Action.answered h ok]).filterMap Action.accepts =
      tr.filterMap Action.accepts := by simp [Action.accepts]
  refine ⟨?_, by rw [hfilter]; exact hc.nodup, by rw [hfilter]; exact hc.mem_accepts, ?_,
    hc.lt_next, ?_⟩
  · simpa [or_imp, forall_and, Action.isSound] using hc.sound
  · have hcount := hc.answers
    rw [(List.perm_cons_erase ho).countP_eq, List.countP_cons] at hcount
    rw [hfilter, hinflight, ← hcount]
    simp [Action.isAnswered]
    omega
  · simpa [Action.completes, hwork] using hc.served

/-- An attempt completes with the answer of its call. -/
theorem respond (hc : Counts tr s) (hi : Inv P tr s) {h : ℕ} {r : Status × RES}
    {w : AsyncClientHandler.Chain RES} (hserves : s.serves h = some (i, k))
    (hr : r ∈ (s.server.events h).filterMap AsyncServerCall.Event.answer)
    (hs : AsyncClientHandler.Step (P.client (recordResult s.results i k r) i) (P.nretries i)
      (s.clients i) k w) :
    Counts (tr ++ [.respond i k])
      { s with clients := update s.clients i w, results := recordResult s.results i k r } := by
  have hk : (k, ()) ∈ (s.clients i).pool.inflight := by
    cases hs with
    | handle hk _ => exact hk
  obtain ⟨hsame, hrun⟩ := hi.client_recordResult hk r
  have hnext : (s.clients i).pool.next ≤ w.pool.next := by
    obtain ⟨-, hpool⟩ := hi.range i
    obtain ⟨-, hnext⟩ := hpool.resolve_right fun hnil ↦ by simp [hnil.1] at hk
    obtain ⟨-, hpool'⟩ := AsyncClientHandler.range_of_run (async_client P _ i) (hrun.snoc hs)
    simp only [List.length_append, List.length_singleton] at hpool'
    omega
  have hcompletes : ∀ j, ((tr ++ [Action.respond i k]).filterMap Action.completes).filterMap
      (labelOf j) = (tr.filterMap Action.completes).filterMap (labelOf j) ++
        if i = j then [k] else [] := by
    intro j
    by_cases hj : i = j <;> simp [Action.completes, labelOf, hj]
  have hfilter : (tr ++ [Action.respond i k]).filterMap Action.accepts =
      tr.filterMap Action.accepts := by simp [Action.accepts]
  refine ⟨?_, by rw [hfilter]; exact hc.nodup, by rw [hfilter]; exact hc.mem_accepts, ?_,
    fun {l j m} hl ↦ ?_, fun j m hm ↦ ?_⟩
  · simpa [or_imp, forall_and, Action.isSound] using hc.sound
  · rw [hfilter, ← hc.answers]
    simp [Action.isAnswered]
  · by_cases hj : j = i
    · subst hj
      dsimp only
      rw [update_self]
      exact Nat.lt_of_lt_of_le (hc.lt_next hl) hnext
    · dsimp only
      rw [update_of_ne hj]
      exact hc.lt_next hl
  · rw [hcompletes] at hm
    dsimp only
    by_cases hj : i = j
    · subst hj
      rw [if_pos rfl, List.mem_append, List.mem_singleton] at hm
      rcases hm with hm | rfl
      · rw [hsame m hm]
        exact hc.served i m hm
      · refine ⟨h, hserves, ?_⟩
        rw [recordResult, update_self, update_self, filterMap_answer_work]
        exact hr
    · rw [if_neg hj, List.append_nil] at hm
      rw [recordResult, update_of_ne (Ne.symm hj)]
      exact hc.served j m hm

end Counts

theorem counts_of_run (h : Run ((system P).restrict fun _ a ↦ a.isSound = true) tr s) :
    Counts tr s := by
  induction h with
  | nil hi =>
    obtain ⟨⟨env, hserver⟩, hclients, hserves⟩ := hi
    refine ⟨by simp, List.nodup_nil, by simp [hserves], ?_, by simp [hserves], by simp⟩
    rw [hserver]
    rfl
  | snoc h hs ih =>
    obtain ⟨hs, hsound⟩ := hs
    have hi := inv_of_run h.of_restrict
    cases hs with
    | @accept h i k call r hk hnew ho hcall hr =>
      obtain ⟨hinflight, hnone, env, hwork⟩ :=
        of_accept hi.serving ho hcall (P.request i k) hr rfl
      exact ih.accept hi hk hnew ho hinflight hnone hwork
    | answered hs => exact ih.answered hi hs
    | refuse hs => exact absurd hsound Bool.false_ne_true
    | respond hserves hr hs => exact ih.respond hi hserves hr hs
    | lose _ hst hs => exact absurd hsound Bool.false_ne_true

/-- A call waits for a request as long as no wait has failed. -/
theorem Inv.exists_request (hi : Inv P tr s) (hsound : ∀ a ∈ tr, a.isSound = true) :
    ∃ h call, (h, .request) ∈ s.server.pool.inflight ∧ s.server.pool.object h = some call := by
  have hs := hi.serving
  have hrefused : ¬ AsyncServerCall.Refused (tr.filterMap (Action.server P)) := by
    rintro ⟨h, req, hmem⟩
    obtain ⟨a, ha, hserver⟩ := List.mem_filterMap.1 hmem
    cases a with
    | refuse => exact Bool.false_ne_true (hsound _ ha)
    | accept | answered | respond | lose => simp [Action.server] at hserver
  obtain ⟨h, call, hcall, hd⟩ := hs.waiting_exists hrefused
  have htag : h ∈ s.server.pool.tags :=
    (hs.balanced.mem_tags h).2 ⟨by rw [hcall]; rfl, Set.notMem_empty h⟩
  obtain ⟨⟨h', o⟩, ho, rfl⟩ := List.mem_map.1 htag
  obtain rfl : o = .request := by
    rw [hs.matches_op _ o call ho hcall, AsyncServerCall.op, hd]
    rfl
  exact ⟨h', call, ho, hcall⟩

/-- An attempt in flight is accepted, or completes with the answer of its call. -/
theorem Inv.exists_step (hi : Inv P tr s) (hsound : ∀ a ∈ tr, a.isSound = true)
    (hk : (k, ()) ∈ (s.clients i).pool.inflight) :
    ∃ a s', Step P s a s' ∧ a.isSound = true := by
  by_cases hserved : ∃ h, s.serves h = some (i, k)
  · obtain ⟨h, hserves⟩ := hserved
    obtain ⟨-, env, hw⟩ := hi.busy hserves
    let r := P.writeCall env (P.request i k) default
    have hr : (if r.status.ok then (r.status, r.reply) else (r.status, default)) ∈
        (s.server.events h).filterMap AsyncServerCall.Event.answer := by
      rw [← filterMap_answer_work, hw, answer_exchange]
      exact List.mem_cons_self
    obtain ⟨-, hrun⟩ := hi.client_recordResult hk
      (if r.status.ok then (r.status, r.reply) else (r.status, default))
    obtain ⟨-, w, hw, -⟩ := (AsyncClientHandler.retrying_of_run hrun).exists_deliver hk
    exact ⟨_, _, .respond hserves hr (.handle hk hw), rfl⟩
  · obtain ⟨h, call, ho, hcall⟩ := hi.exists_request hsound
    exact ⟨_, _, .accept hk (fun h' hh' ↦ hserved ⟨h', hh'⟩) ho hcall rfl, rfl⟩

/-- **When nothing is lost, requests come to their end and succeed once.** As long as a promise is
not set, an attempt can be accepted or answered, and the number of steps is bounded by that of
attempts. When the promise of a request is set, each of its attempts was executed, and if it was
set to null exactly one execution has had a status that is ok. -/
theorem requests_end [Fintype ι]
    (h : Run ((system P).restrict fun _ a ↦ a.isSound = true) tr s) :
    (∀ i, (s.clients i).promise = none → ∃ a s', Step P s a s' ∧ a.isSound = true) ∧
    tr.length ≤ 3 * ∑ i, (P.nretries i + 1) ∧
    (∀ i, (s.clients i).promise ≠ none → ∀ k,
      (∃ h, s.serves h = some (i, k)) ↔ k < (s.clients i).pool.next) ∧
    ∀ i, (s.clients i).promise = some none → ∃! h, ∃ k env, s.serves h = some (i, k) ∧
      let r := P.writeCall env (P.request i k) default
      r.status.ok = true ∧ AsyncServerCall.work s.server h = exchange (P.request i k) r := by
  have hi := inv_of_run h.of_restrict
  have hc := counts_of_run h
  refine ⟨fun i hp ↦ ?_, ?_, fun i hp k ↦ ⟨fun ⟨h, hserves⟩ ↦ hc.lt_next hserves, fun hk ↦ ?_⟩,
    fun i hp ↦ ?_⟩
  · obtain ⟨-, k, w, hs⟩ := (AsyncClientHandler.outcome_of_run (hi.client i)).resolve_right
      fun hset ↦ Option.some_ne_none _ (hset.2.symm.trans hp)
    cases hs with
    | handle hk _ => exact hi.exists_step hc.sound hk
  · have haccepts : (tr.filterMap Action.accepts).length ≤ ∑ i, (P.nretries i + 1) := by
      rw [length_eq_sum_labelOf]
      refine Finset.sum_le_sum fun i _ ↦ ?_
      have hnodup : ((tr.filterMap Action.accepts).filterMap (labelOf i)).Nodup := by
        refine hc.nodup.filterMap fun p q k hp hq ↦ ?_
        simp only [labelOf, Option.mem_def, Option.ite_none_right_eq_some,
          Option.some.injEq] at hp hq
        exact Prod.ext (hp.1.trans hq.1.symm) (hp.2.trans hq.2.symm)
      rw [← List.length_range (n := P.nretries i + 1)]
      refine (hnodup.subperm fun k hk ↦ ?_).length_le
      obtain ⟨⟨j, l⟩, hp, hlabel⟩ := List.mem_filterMap.1 hk
      simp only [labelOf, Option.ite_none_right_eq_some, Option.some.injEq] at hlabel
      obtain ⟨rfl, rfl⟩ := hlabel
      obtain ⟨h, hserves⟩ := hc.mem_accepts.1 hp
      exact List.mem_range.2 (Nat.lt_succ_of_le (hi.busy hserves).1)
    have hcompletes : (tr.filterMap Action.completes).length ≤ ∑ i, (P.nretries i + 1) := by
      rw [length_eq_sum_labelOf]
      exact Finset.sum_le_sum fun i _ ↦
        (AsyncClientHandler.retrying_of_run (hi.client i)).length_le
    have hanswers := hc.answers
    have hlength := length_eq hc.sound
    omega
  · obtain ⟨hnil, -⟩ := (AsyncClientHandler.outcome_of_run (hi.client i)).resolve_left
      fun hunset ↦ hp hunset.1
    obtain ⟨hrange, hpool⟩ := hi.range i
    obtain ⟨-, hnext⟩ := hpool.resolve_left fun hsome ↦ by simp [hnil] at hsome
    obtain ⟨h, hserves, -⟩ := hc.served i k (by rw [hrange, ← hnext]; exact List.mem_range.2 hk)
    exact ⟨h, hserves⟩
  · obtain ⟨h, k, env, hserves, hok, hw, hfirst, hlast, -⟩ := hi.succeeded hp
    refine ⟨h, ⟨k, env, hserves, hok, hw⟩, ?_⟩
    rintro h' ⟨k', env', hserves', hok', hw'⟩
    have hk' : k' < k + 1 := hlast ▸ hc.lt_next hserves'
    rcases Nat.eq_or_lt_of_le (Nat.le_of_lt_succ hk') with rfl | hlt
    · exact hi.inj hserves' hserves
    · -- an attempt before the last one has failed
      have hfailed : (s.results i k').1.ok = false := hfirst.2 k' hlt
      obtain ⟨hrange, hpool⟩ := hi.range i
      have hmem : k' ∈ (tr.filterMap Action.completes).filterMap (labelOf i) := by
        rw [hrange, List.mem_range]
        omega
      obtain ⟨h'', hserves'', hr⟩ := hc.served i k' hmem
      obtain rfl := hi.inj hserves'' hserves'
      rw [hw', answer_exchange, if_pos hok', List.mem_singleton] at hr
      rw [hr, hok'] at hfailed
      cases hfailed

end

/-- The first attempt is lost, the second one is served. -/
theorem requests_executed_two : ∃ (tr : _) (s : UnaryRpc Unit ℕ ℕ ℕ),
    Run (system ⟨fun env req _ ↦ ⟨env + 1, req + env, .okStatus⟩, fun _ _ ↦ 5, fun _ ↦ true,
      fun _ ↦ 1⟩) tr s ∧ (s.clients ()).promise = some none ∧
      ∃ h k env, s.serves h = some ((), k) ∧ AsyncServerCall.work s.server h =
        exchange 5 (⟨env + 1, 5 + env, .okStatus⟩ : Written ℕ ℕ) := by
  have h := ((Run.nil (S := system (ι := Unit) ⟨fun (env : ℕ) (req _ : ℕ) ↦
      ⟨env + 1, req + env, .okStatus⟩, fun _ _ ↦ 5, fun _ ↦ true, fun _ ↦ 1⟩)
      (s := ⟨_, _, _, fun _ _ ↦ (.okStatus, 0)⟩) ⟨⟨0, rfl⟩, fun _ ↦ rfl, rfl⟩).snoc
    (Step.lose (i := ()) (k := 0) .cancelled rfl
      (.handle List.mem_cons_self rfl))).snoc
    (Step.accept (i := ()) (k := 1) (h := 0) List.mem_cons_self (fun _ ↦ nofun)
      List.mem_cons_self rfl rfl) |>.snoc
    (Step.respond (h := 0) (r := (.okStatus, 5)) rfl List.mem_cons_self
      (.handle List.mem_cons_self rfl))
  obtain ⟨h', k, env, hserves, -, hw, -⟩ := (requests_executed h).2.2.2.1 () rfl
  exact ⟨_, _, h, rfl, h', k, env, hserves, hw⟩

/-- A request is served, and its answer completes. -/
theorem requests_end_one : ∃ (tr : _) (s : UnaryRpc Unit ℕ ℕ ℕ),
    Run ((system ⟨fun env req _ ↦ ⟨env + 1, req + env, .okStatus⟩, fun _ _ ↦ 5, fun _ ↦ true,
      fun _ ↦ 1⟩).restrict fun _ a ↦ a.isSound = true) tr s ∧
      ∃! h, ∃ k env, s.serves h = some ((), k) ∧
        let r : Written ℕ ℕ := ⟨env + 1, 5 + env, .okStatus⟩
        r.status.ok = true ∧ AsyncServerCall.work s.server h = exchange 5 r := by
  have h := ((Run.nil (S := (system (ι := Unit) ⟨fun (env : ℕ) (req _ : ℕ) ↦
      ⟨env + 1, req + env, .okStatus⟩, fun _ _ ↦ 5, fun _ ↦ true,
      fun _ ↦ 1⟩).restrict fun _ a ↦ a.isSound = true)
      (s := ⟨_, _, _, fun _ _ ↦ (.okStatus, 0)⟩) ⟨⟨0, rfl⟩, fun _ ↦ rfl, rfl⟩).snoc
    ⟨Step.accept (i := ()) (k := 0) (h := 0) List.mem_cons_self (fun _ ↦ nofun)
      List.mem_cons_self rfl rfl, rfl⟩).snoc
    ⟨Step.respond (h := 0) (r := (.okStatus, 5)) rfl List.mem_cons_self
      (.handle List.mem_cons_self rfl), rfl⟩ |>.snoc
    ⟨Step.answered (h := 0)
      (.serve (o := AsyncServerCall.Op.finish) default 0 (by decide) rfl rfl), rfl⟩
  exact ⟨_, _, h, (requests_end h).2.2.2 () rfl⟩

end UnaryRpc

end Cppkg.Egrpc
