import Cppkg.Egrpc.Grpc
import Cppkg.Egrpc.ServerCall

/-!
# Unary server calls

`AsyncServerCall` of `server_async.h`. A call waits for a request. When one arrives it creates
its successor, which waits for the next one, runs the write callback and issues one answer; it
deletes itself when the answer has completed, or when the driver shuts it down.

`Serving` is the invariant of a server of such calls: the pool is balanced, the operation of a
call is the one `done_` tells, at most one call waits, and what a call has done is `Answered` for
the request it has accepted, if it has accepted one.
-/

namespace Cppkg.Egrpc

open Function Transition

/-- `AsyncServerCall`. -/
structure AsyncServerCall (REQ : Type*) where
  /-- `req_`. -/
  req : REQ
  /-- `done_`. -/
  done : Bool

namespace AsyncServerCall

/-- The operations of a unary call. -/
inductive Op where
  /-- The wait for a request. -/
  | request
  /-- The answer. -/
  | finish
  deriving DecidableEq, Repr

/-- What a unary call does. -/
inductive Event (REQ RES : Type*) where
  /-- It creates its successor. -/
  | create
  | writeCall (req : REQ) (reply : RES) (status : Status)
  | finish (reply : RES) (status : Status)
  | finishWithError (status : Status)
  | delete

/-- The result of the write callback. -/
structure Written (κ RES : Type*) where
  env : κ
  reply : RES
  status : Status

variable {κ REQ RES : Type*}

/-- A new call. -/
def new [Inhabited REQ] : AsyncServerCall REQ where
  req := default
  done := false

/-- `shutdown`. -/
def shutdown (_ : AsyncServerCall REQ) : List (Event REQ RES) := [.delete]

/-- `serve`. -/
def serve [Inhabited RES] (writeCall : κ → REQ → RES → Written κ RES) (env : κ)
    (call : AsyncServerCall REQ) :
    Served κ (AsyncServerCall REQ) (Event REQ RES) :=
  if call.done then ⟨env, call, call.shutdown⟩
  else
    let call := { call with done := true }
    let r := writeCall env call.req default
    let answer : Event REQ RES :=
      if r.status.ok then .finish r.reply r.status else .finishWithError r.status
    ⟨r.env, call, [.create, .writeCall call.req r.reply r.status, answer]⟩

/-- The constructor issues a wait for a request, `finish` and `finish_with_error` an answer. -/
def Event.effect [Inhabited REQ] : Event REQ RES → Option (Pool.Effect (AsyncServerCall REQ) Op)
  | .create => some (.spawn new .request)
  | .writeCall _ _ _ => none
  | .finish _ _ => some (.issue .finish)
  | .finishWithError _ => some (.issue .finish)
  | .delete => some .delete

/-- The completion of a wait writes the request. -/
def receive (op : Op) (req : REQ) (call : AsyncServerCall REQ) : AsyncServerCall REQ :=
  match op with
  | .request => { call with req := req }
  | .finish => call

/-- Unary calls, with their write callback. -/
def kind [Inhabited REQ] [Inhabited RES] (writeCall : κ → REQ → RES → Written κ RES) :
    CallKind κ REQ (AsyncServerCall REQ) Op (Event REQ RES) where
  receive := receive
  serve _ env call := some (serve writeCall env call)
  shutdown := shutdown
  effect := Event.effect
  first := (new, .request)

/-! ### What a call does when it is served -/

/-- The operation a call has in flight. -/
def op (call : AsyncServerCall REQ) : Op := if call.done then .finish else .request

/-- What a call does, its deletion apart. -/
def Event.isWork : Event REQ RES → Bool
  | .delete => false
  | _ => true

/-- What a call does with a request on which the write callback returns `r`: it creates its
successor, runs the write callback once and issues one answer, `finish` if and only if the status
is ok. -/
def exchange (req : REQ) (r : Written κ RES) : List (Event REQ RES) :=
  [.create, .writeCall req r.reply r.status,
    if r.status.ok then .finish r.reply r.status else .finishWithError r.status]

/-- The call has answered the request, with what the write callback makes of a new reply in some
environment. -/
def Answered [Inhabited RES] (writeCall : κ → REQ → RES → Written κ RES) (req : REQ)
    (evs : List (Event REQ RES)) : Prop :=
  ∃ env, evs = exchange req (writeCall env req default)

theorem filter_isWork_exchange (req : REQ) (r : Written κ RES) :
    (exchange req r).filter Event.isWork = exchange req r := by
  cases hok : r.status.ok <;> simp [exchange, hok, Event.isWork]

@[simp] theorem done_receive {call : AsyncServerCall REQ} (o : Op) (req : REQ) :
    (receive o req call).done = call.done := by
  cases o <;> rfl

section

variable [Inhabited RES] {writeCall : κ → REQ → RES → Written κ RES} {call : AsyncServerCall REQ}
  {env : κ}

theorem serve_of_done (hd : call.done = true) :
    serve writeCall env call = ⟨env, call, [.delete]⟩ := by
  simp [serve, hd, shutdown]

variable (writeCall env)

theorem events_serve (hd : call.done = false) :
    (serve writeCall env call).events = exchange call.req (writeCall env call.req default) ∧
    (serve writeCall env call).call.done = true := by
  simp [serve, hd, exchange]

theorem effects_serve [Inhabited REQ] (hd : call.done = false) :
    (serve writeCall env call).events.filterMap (kind writeCall).effect =
      [.spawn new .request, .issue .finish] := by
  cases hok : (writeCall env call.req default).status.ok <;> simp only [serve, hd, hok] <;> rfl

end

/-! ### The invariant of a server -/

/-- A server of unary calls. -/
abbrev UnaryServer (κ REQ RES : Type*) := Server κ (AsyncServerCall REQ) Op (Event REQ RES)

/-- A live call waits for a request. -/
def Waiting (s : UnaryServer κ REQ RES) (h : ℕ) : Prop :=
  ∃ call, s.pool.object h = some call ∧ call.done = false

/-- What a call has done, its deletion apart. -/
def work (s : UnaryServer κ REQ RES) (h : ℕ) : List (Event REQ RES) :=
  (s.events h).filter Event.isWork

/-- The requests the call has accepted. -/
def requests (tr : List (Server.Action Op REQ)) (h : ℕ) : List REQ :=
  tr.filterMap fun
    | .complete k .request true req => if h = k then some req else none
    | _ => none

/-- A wait for a request has failed. -/
def Refused (tr : List (Server.Action Op REQ)) : Prop :=
  ∃ h req, .complete h .request false req ∈ tr

variable {s s' : UnaryServer κ REQ RES} {tr tr' : List (Server.Action Op REQ)} {h k : ℕ} {o : Op}
  {ok : Bool} {req : REQ} {call : AsyncServerCall REQ}

theorem requests_append : requests (tr ++ [.complete h o ok req]) k =
    requests tr k ++ if k = h ∧ o = .request ∧ ok = true then [req] else [] := by
  rw [requests, List.filterMap_append, ← requests]
  cases o <;> cases ok <;> by_cases hk : k = h <;> simp [hk]

/-- The invariant of a server of unary calls. -/
structure Serving [Inhabited RES] (writeCall : κ → REQ → RES → Written κ RES)
    (tr : List (Server.Action Op REQ)) (s : UnaryServer κ REQ RES) : Prop where
  balanced : s.pool.Balanced ∅
  matches_op : s.pool.Matches op
  waiting_unique : ∀ {h k}, Waiting s h → Waiting s k → h = k
  waiting_exists : ¬ Refused tr → ∃ h, Waiting s h
  untouched : ∀ h, s.pool.next ≤ h ∨ Waiting s h → requests tr h = [] ∧ work s h = []
  answered : ∀ h, requests tr h = [] ∧ work s h = [] ∨
    ∃ req, requests tr h = [req] ∧ Answered writeCall req (work s h)

namespace Serving

variable [Inhabited RES] {writeCall : κ → REQ → RES → Written κ RES}

/-- A waiting call is replaced by its successor, and has answered its request. -/
theorem of_accept [Inhabited REQ] {c : AsyncServerCall REQ} {evs : List (Event REQ RES)}
    (hs : Serving writeCall tr s) (hwaits : Waiting s h)
    (hbalanced : s'.pool.Balanced ∅) (hmatches : s'.pool.Matches op)
    (hobject : s'.pool.object = update (update s.pool.object h (some c)) s.pool.next (some new))
    (hdone : c.done = true) (hnext : s'.pool.next = s.pool.next + 1)
    (hevs : Answered writeCall req evs)
    (hwork : ∀ k, work s' k = work s k ++ if k = h then evs else [])
    (hrequests : ∀ k, requests tr' k = requests tr k ++ if k = h then [req] else []) :
    Serving writeCall tr' s' := by
  have ⟨call, hcall, _⟩ := hwaits
  have hlt : h < s.pool.next := hs.balanced.lt_next h (by rw [hcall]; rfl)
  have hwaiting : ∀ k, Waiting s' k → k = s.pool.next := by
    rintro k ⟨d, hd, hnot⟩
    by_contra hk
    rw [hobject, update_of_ne hk] at hd
    by_cases hkh : k = h
    · rw [hkh, update_self, Option.some.injEq] at hd
      simp [← hd, hdone] at hnot
    · rw [update_of_ne hkh] at hd
      exact hkh (hs.waiting_unique ⟨d, hd, hnot⟩ hwaits)
  have hsame : ∀ k, k ≠ h → requests tr' k = requests tr k ∧ work s' k = work s k :=
    fun k hk ↦ by simp [hrequests, hwork, hk]
  refine ⟨hbalanced, hmatches, fun hk hl ↦ (hwaiting _ hk).trans (hwaiting _ hl).symm,
    fun _ ↦ ⟨s.pool.next, new, by rw [hobject, update_self], rfl⟩, fun k hk ↦ ?_, fun k ↦ ?_⟩
  · have hle : s.pool.next ≤ k := by
      rcases hk with hk | hk
      · exact Nat.le_of_succ_le (hnext.ge.trans hk)
      · exact (hwaiting k hk).ge
    obtain ⟨hr, hw⟩ := hsame k (hlt.trans_le hle).ne'
    rw [hr, hw]
    exact hs.untouched k (.inl hle)
  · by_cases hk : k = h
    · obtain ⟨hr, hw⟩ := hs.untouched h (.inr hwaits)
      exact .inr ⟨req, by rw [hrequests, hk, hr]; simp, by rw [hwork, hk, hw]; simpa using hevs⟩
    · obtain ⟨hr, hw⟩ := hsame k hk
      rw [hr, hw]
      exact hs.answered k

/-- A call deletes itself. -/
theorem of_delete (hs : Serving writeCall tr s) (hcall : s.pool.object h = some call)
    (hbalanced : s'.pool.Balanced ∅) (hmatches : s'.pool.Matches op)
    (hobject : s'.pool.object = update s.pool.object h none) (hnext : s'.pool.next = s.pool.next)
    (hwork : ∀ k, work s' k = work s k) (hrequests : ∀ k, requests tr' k = requests tr k)
    (hrefused : Refused tr → Refused tr') (hwaits : call.done = false → Refused tr') :
    Serving writeCall tr' s' := by
  have hwaiting : ∀ k, Waiting s' k ↔ k ≠ h ∧ Waiting s k := by
    intro k
    by_cases hk : k = h
    · simp [Waiting, hobject, hk]
    · simp [Waiting, hobject, hk]
  refine ⟨hbalanced, hmatches, fun hk hl ↦ ?_, fun hr ↦ ?_, fun k hk ↦ ?_, fun k ↦ ?_⟩
  · exact hs.waiting_unique ((hwaiting _).1 hk).2 ((hwaiting _).1 hl).2
  · obtain ⟨k, d, hd, hnot⟩ := hs.waiting_exists fun ht ↦ hr (hrefused ht)
    refine ⟨k, (hwaiting k).2 ⟨?_, d, hd, hnot⟩⟩
    rintro rfl
    exact hr (hwaits (Option.some.inj (hcall.symm.trans hd) ▸ hnot))
  · rw [hrequests, hwork]
    exact hs.untouched k (hk.imp (fun hle ↦ hnext ▸ hle) fun hw ↦ ((hwaiting k).1 hw).2)
  · rw [hrequests, hwork]
    exact hs.answered k

variable [Inhabited REQ]

theorem work_record {evs : List (Event REQ RES)} :
    work (Server.record (kind writeCall) s h evs) k =
      work s k ++ if k = h then evs.filter Event.isWork else [] := by
  rw [work, Server.events_record, List.filter_append, work]
  split <;> simp

theorem start (env : κ) : Serving writeCall [] (Server.start (kind writeCall) env) where
  balanced := Server.balanced_start env
  matches_op := Server.matches_start env rfl
  waiting_unique {h k} hh hk := by
    have hzero : ∀ {j}, Waiting (Server.start (kind writeCall) env) j → j = 0 := by
      rintro j ⟨call, hj, -⟩
      exact Nat.lt_one_iff.1 ((Server.balanced_start env).lt_next j (by rw [hj]; rfl))
    exact (hzero hh).trans (hzero hk).symm
  waiting_exists _ := ⟨0, new, rfl, rfl⟩
  untouched h _ := ⟨rfl, rfl⟩
  answered h := .inl ⟨rfl, rfl⟩

/-- A completion at which a call that has nothing more to do deletes itself. -/
theorem delete {c : AsyncServerCall REQ} {env : κ} (hs : Serving writeCall tr s)
    (ho : (h, o) ∈ s.pool.inflight) (hcall : s.pool.object h = some call)
    (hok : ok = true → call.done = true) :
    Serving writeCall (tr ++ [.complete h o ok req])
      (Server.record (kind writeCall)
        { s with pool := (s.pool.complete (h, o)).put h c, env := env } h [.delete]) := by
  have hop := hs.matches_op h o call ho hcall
  refine hs.of_delete hcall (Server.balanced_record hs.balanced ho rfl)
    (Server.matches_record hs.balanced hs.matches_op ho rfl ?_) ?_ rfl ?_ ?_ ?_ ?_
  · simp [kind, Event.effect, Pool.Effect.Fits]
  · exact update_idem ..
  · intro k
    rw [work_record]
    simp [Event.isWork, work, Server.events]
  · intro k
    rw [requests_append, if_neg, List.append_nil]
    rintro ⟨-, rfl, hok'⟩
    simp [op, hok hok'] at hop
  · rintro ⟨k, req', hk⟩
    exact ⟨k, req', List.mem_append_left _ hk⟩
  · intro hd
    cases ok with
    | true => simp [hok rfl] at hd
    | false => exact ⟨h, req, List.mem_append_right _ (by simp [hop, op, hd])⟩

/-- A completion at which a waiting call is served, with the request it has written. -/
theorem accept (hs : Serving writeCall tr s) (ho : (h, o) ∈ s.pool.inflight)
    (hcall : s.pool.object h = some call) (hd : call.done = false) :
    Serving writeCall (tr ++ [.complete h o true req])
      (Server.record (kind writeCall)
        { s with
          pool := (s.pool.complete (h, o)).put h (serve writeCall s.env (receive o req call)).call
          env := (serve writeCall s.env (receive o req call)).env } h
        (serve writeCall s.env (receive o req call)).events) := by
  obtain rfl : o = .request := by rw [hs.matches_op h o call ho hcall, op, hd]; rfl
  have hc : (receive .request req call).done = false := hd
  obtain ⟨hevents, hdone⟩ := events_serve writeCall s.env hc
  have heff := effects_serve writeCall s.env hc
  refine hs.of_accept ⟨call, hcall, hd⟩
    (Server.balanced_record hs.balanced ho (by rw [heff]; rfl))
    (Server.matches_record hs.balanced hs.matches_op ho (by rw [heff]; rfl) ?_) ?_ hdone ?_
    (show Answered writeCall req _ from ⟨s.env, rfl⟩) ?_ ?_
  · rw [heff]
    simp [Pool.Effect.Fits, op, hdone, new]
  · rw [Server.record, Pool.perform, heff]
    rfl
  · rw [Server.record, Pool.perform, heff]
    rfl
  · intro k
    rw [work_record, hevents, filter_isWork_exchange]
    rfl
  · intro k
    simp [requests_append]

/-- **A completion keeps the server serving.** -/
theorem step {a : Server.Action Op REQ} (hs : Serving writeCall tr s)
    (hstep : Server.Step (kind writeCall) s a s') : Serving writeCall (tr ++ [a]) s' := by
  cases hstep with
  | @serve h o call r req fuel ho hcall hr =>
    obtain rfl : serve writeCall s.env (receive o req call) = r := Option.some.inj hr
    cases hd : call.done with
    | false => exact hs.accept ho hcall hd
    | true =>
      rw [serve_of_done (by rw [done_receive, hd])]
      exact hs.delete ho hcall fun _ ↦ hd
  | @shutdown h o call req ho hcall => exact hs.delete ho hcall (by simp)

end Serving

section

variable [Inhabited REQ] [Inhabited RES] {writeCall : κ → REQ → RES → Written κ RES}

theorem serving_of_run (h : Run (Server.system (kind writeCall)) tr s) :
    Serving writeCall tr s := by
  induction h with
  | nil hi =>
    obtain ⟨env, rfl⟩ := hi
    exact Serving.start env
  | snoc _ hs ih => exact ih.step hs

/-- **Unary calls re-arm and answer exactly once.** Every live call has exactly one operation in
flight, and no operation in flight belongs to a call that is gone. At most one live call waits
for a request, and exactly one as long as no wait has failed. Each call has accepted no request
and done nothing, or has accepted one, created its successor, run the write callback once on that
request and issued one answer with what it returned, `finish` if and only if the status was ok. -/
theorem unary_calls_serve (h : Run (Server.system (kind writeCall)) tr s) :
    s.Safe ∧
    (∀ k l, Waiting s k → Waiting s l → k = l) ∧
    (¬ Refused tr → ∃! k, Waiting s k) ∧
    ∀ k, requests tr k = [] ∧ work s k = [] ∨
      ∃ req, requests tr k = [req] ∧ Answered writeCall req (work s k) := by
  have hs := serving_of_run h
  refine ⟨.of_balanced hs.balanced, fun _ _ ↦ hs.waiting_unique, fun hr ↦ ?_, hs.answered⟩
  obtain ⟨k, hk⟩ := hs.waiting_exists hr
  exact ⟨k, hk, fun l hl ↦ hs.waiting_unique hl hk⟩

end

/-- A request is answered, and the server is shut down while the successor waits. -/
theorem unary_calls_serve_one : ∃ s : UnaryServer ℕ ℕ ℕ,
    Run (Server.system (kind fun env req _ ↦ ⟨env + 1, req, .okStatus⟩))
      [.complete 0 .request true 5, .complete 0 .finish true 5, .complete 1 .request false 5] s ∧
    s.pool.deleted = [0, 1] ∧ s.Safe ∧
    Answered (fun env req _ ↦ ⟨env + 1, req, .okStatus⟩) 5 (work s 0) := by
  have h := ((Run.nil (S := Server.system (kind fun (env : ℕ) (req : ℕ) (_ : ℕ) ↦
      ⟨env + 1, req, .okStatus⟩)) ⟨0, rfl⟩).snoc
    (Server.Step.serve (h := 0) (o := Op.request) 5 0 List.mem_cons_self rfl rfl)).snoc
    (Server.Step.serve (h := 0) (o := Op.finish) 5 0 (by decide) rfl rfl) |>.snoc
    (Server.Step.shutdown (h := 1) (o := Op.request) 5 (by decide) rfl)
  obtain ⟨hsafe, -, -, hanswered⟩ := unary_calls_serve h
  obtain ⟨req, hreq, hans⟩ := (hanswered 0).resolve_left fun h0 ↦ absurd h0.1 (by decide)
  obtain rfl : 5 = req := List.singleton_inj.1 hreq
  exact ⟨_, h, rfl, hsafe, hans⟩

end AsyncServerCall

end Cppkg.Egrpc
