import Cppkg.Egrpc.ServerAsync
import Cppkg.Egrpc.StreamRange

/-!
# Servers that drain

When the waits for a request fail, as they do once a server is shut down, no call is created any
more and the operations in flight complete one after the other. `Drained` is where that ends:
nothing is in flight and every call the server ever created has deleted itself, once.

A unary server drains in exactly as many completions as there are operations in flight. A stream
call may still have to write what is left of its range, so the bound is the `Pool.load` of
`AsyncServerStreamCall.left`, for a write callback that does not move the iterator.
-/

namespace Cppkg.Egrpc

open Function Transition

/-- A request is accepted: a call completes the operation the first call was started with. -/
def CallKind.accepts {κ R C O E : Type*} [BEq O] (K : CallKind κ R C O E) :
    Server.Action O R → Bool
  | .complete _ o ok _ => o == K.first.2 && ok

namespace Server

section

variable {κ R C O E : Type*} {K : CallKind κ R C O E} {s : Server κ C O E} {h k : ℕ} {o o' : O}
  {call c : C} {env : κ} {evs : List E} {μ : C → ℕ}

/-- No call is left, and every call was deleted once. -/
structure Drained (s : Server κ C O E) : Prop where
  dead : ∀ h, s.pool.object h = none
  deleted : s.pool.deleted.Perm (List.range s.pool.next)

theorem Drained.of_balanced (hb : s.pool.Balanced ∅) (hnil : s.pool.inflight = []) :
    s.Drained := by
  obtain ⟨hdead, hdeleted⟩ := hb.deleted_perm hnil
  exact ⟨hdead, hdeleted⟩

theorem Drained.length_deleted (hd : s.Drained) : s.pool.deleted.length = s.pool.next := by
  rw [hd.deleted.length_eq, List.length_range]

variable [BEq O] [LawfulBEq O]

/-- The call of a completion has deleted itself. -/
theorem load_record_delete (c : C) (env : κ) (hb : s.pool.Balanced ∅)
    (ho : (h, o) ∈ s.pool.inflight) (hcall : s.pool.object h = some call)
    (hevs : evs.filterMap K.effect = [.delete]) :
    (record K { s with pool := (s.pool.complete (h, o)).put h c, env := env } h
      evs).pool.load μ + μ call = s.pool.load μ := by
  have htag : h ∉ ((s.pool.complete (h, o)).put h c).tags := fun ht ↦
    (((hb.complete ho).mem_tags h).1 ht).2 (Set.mem_insert h ∅)
  have hpool : (record K { s with pool := (s.pool.complete (h, o)).put h c, env := env } h
      evs).pool = ((s.pool.complete (h, o)).put h c).delete h := by
    rw [record, hevs]
    rfl
  rw [hpool, Pool.load_delete htag, ← hb.load_complete ho hcall]

/-- The call of a completion has issued its next operation. -/
theorem load_record_issue (c : C) (env : κ) (hb : s.pool.Balanced ∅)
    (ho : (h, o) ∈ s.pool.inflight) (hcall : s.pool.object h = some call)
    (hevs : evs.filterMap K.effect = [.issue o']) :
    (record K { s with pool := (s.pool.complete (h, o)).put h c, env := env } h
      evs).pool.load μ + μ call = s.pool.load μ + μ c := by
  have hobject : ((s.pool.complete (h, o)).put h c).object h = some c := by simp [Pool.put]
  have hpool : (record K { s with pool := (s.pool.complete (h, o)).put h c, env := env } h
      evs).pool = ((s.pool.complete (h, o)).put h c).issue h o' := by
    rw [record, hevs]
    rfl
  rw [hpool, Pool.load_issue hobject, hb.load_complete ho hcall c]
  omega

omit [LawfulBEq O] in
/-- What holds of every live call, of the call that is served and of those it creates, holds of
every live call after a completion. -/
theorem forall_object_record {P : C → Prop} (hs : ∀ k d, s.pool.object k = some d → P d)
    (hc : P c) (hspawn : ∀ d o', Pool.Effect.spawn d o' ∈ evs.filterMap K.effect → P d) {d : C}
    (hd : (record K { s with pool := (s.pool.complete (h, o)).put h c, env := env } h
      evs).pool.object k = some d) : P d := by
  rcases Pool.object_of_perform (p := (s.pool.complete (h, o)).put h c) hd with hd | ⟨o', ho'⟩
  · by_cases hk : k = h
    · obtain rfl : c = d := by simpa [Pool.put, hk] using hd
      exact hc
    · exact hs k d (by simpa [Pool.put, hk] using hd)
  · exact hspawn d o' ho'

end

end Server

/-! ### Unary calls -/

namespace AsyncServerCall

section

variable {κ REQ RES : Type*} [Inhabited REQ] [Inhabited RES]
  {writeCall : κ → REQ → RES → Written κ RES} {s s' : UnaryServer κ REQ RES}
  {tr : List (Server.Action Op REQ)} {a : Server.Action Op REQ}

/-- **A completion either accepts a request** and creates a call, or is the last of its call. -/
theorem Serving.completion (hs : Serving writeCall tr s)
    (hstep : Server.Step (kind writeCall) s a s') :
    if (kind writeCall).accepts a then
      s'.pool.next = s.pool.next + 1 ∧ s'.pool.inflight.length = s.pool.inflight.length + 1
    else s'.pool.next = s.pool.next ∧ s'.pool.inflight.length + 1 = s.pool.inflight.length := by
  cases hstep with
  | @serve h o call r req fuel ho hcall hr =>
    obtain rfl : serve writeCall s.env (receive o req call) = r := Option.some.inj hr
    have hlen := List.length_erase_add_one ho
    have hop := hs.matches_op h o call ho hcall
    cases hd : call.done with
    | false =>
      obtain rfl : o = .request := by rw [hop, op, hd]; rfl
      have hd' : (receive .request req call).done = false := hd
      have heff := effects_serve writeCall s.env hd'
      have haccepts : (kind writeCall).accepts (.complete h .request true req) = true := rfl
      rw [if_pos haccepts, Server.record, heff]
      exact ⟨rfl, by simp [Pool.perform, Pool.act, Pool.issue, Pool.put, Pool.create,
        Pool.complete, ← hlen]⟩
    | true =>
      obtain rfl : o = .finish := by rw [hop, op, hd]; rfl
      rw [if_neg (by simp [CallKind.accepts, kind]),
        serve_of_done (by rw [done_receive, hd])]
      exact ⟨rfl, hlen⟩
  | @shutdown h o call req ho hcall =>
    rw [if_neg (by simp [CallKind.accepts])]
    exact ⟨rfl, List.length_erase_add_one ho⟩

theorem next_of_run (h : Run (Server.system (kind writeCall)) tr s) :
    s.pool.next = tr.countP (kind writeCall).accepts + 1 := by
  induction h with
  | nil hi =>
    obtain ⟨env, rfl⟩ := hi
    rfl
  | @snoc tr s s' a hr hstep ih =>
    have hc := (serving_of_run hr).completion hstep
    rw [List.countP_append, List.countP_singleton]
    split at hc
    next ha => rw [hc.1, ih, if_pos ha]
    next ha => rw [hc.1, ih, if_neg ha]

/-- An operation in flight can complete without a request being accepted. -/
theorem Serving.exists_step (hs : Serving writeCall tr s) (hflight : s.pool.inflight ≠ []) :
    ∃ a s', (kind writeCall).accepts a = false ∧ Server.Step (kind writeCall) s a s' := by
  obtain ⟨⟨h, o⟩, ho⟩ := List.exists_mem_of_ne_nil _ hflight
  obtain ⟨call, hcall⟩ := Option.isSome_iff_exists.1 (hs.balanced.live ho)
  exact ⟨.complete h o false default, _, by simp [CallKind.accepts], .shutdown default ho hcall⟩

/-- As long as no request is accepted, every completion leaves one operation less in flight. -/
theorem Serving.length_path {tr' : List (Server.Action Op REQ)} (hs : Serving writeCall tr s)
    (hpath : Path (Server.system (kind writeCall)) s tr' s')
    (haccepts : ∀ a ∈ tr', (kind writeCall).accepts a = false) :
    (∃ tr'', Serving writeCall tr'' s') ∧
      tr'.length + s'.pool.inflight.length = s.pool.inflight.length := by
  induction hpath with
  | nil => exact ⟨⟨tr, hs⟩, Nat.zero_add _⟩
  | @snoc tr' s₁ s₂ a _ hstep ih =>
    simp only [List.mem_append, List.mem_singleton, or_imp, forall_and, forall_eq] at haccepts
    obtain ⟨⟨tr₁, hs₁⟩, hlen⟩ := ih haccepts.1
    have hc := hs₁.completion hstep
    rw [haccepts.2, if_neg Bool.false_ne_true] at hc
    refine ⟨⟨_, hs₁.step hstep⟩, ?_⟩
    rw [List.length_append, List.length_singleton]
    omega

/-- **A server of unary calls drains.** Once no request is accepted any more, every completion is
the last of a call: the server is empty after as many completions as there are operations in
flight, and until then one can happen. Every call created was then deleted once, and there was one
call more than requests were accepted. -/
theorem unary_server_drains (h : Run (Server.system (kind writeCall)) tr s) :
    (∀ tr' s', Path (Server.system (kind writeCall)) s tr' s' →
      (∀ a ∈ tr', (kind writeCall).accepts a = false) →
      tr'.length + s'.pool.inflight.length = s.pool.inflight.length) ∧
    (s.pool.inflight ≠ [] →
      ∃ a s', (kind writeCall).accepts a = false ∧ Server.Step (kind writeCall) s a s') ∧
    (s.pool.inflight = [] →
      s.Drained ∧ s.pool.deleted.length = tr.countP (kind writeCall).accepts + 1) := by
  have hs := serving_of_run h
  refine ⟨fun tr' s' hpath ha ↦ (hs.length_path hpath ha).2, hs.exists_step, fun hnil ↦ ?_⟩
  have hd := Server.Drained.of_balanced hs.balanced hnil
  exact ⟨hd, hd.length_deleted.trans (next_of_run h)⟩

end

/-- Two requests are answered, and the wait for a third one fails. -/
theorem unary_server_drains_two : ∃ s : UnaryServer ℕ ℕ ℕ,
    Run (Server.system (kind fun env req _ ↦ ⟨env + 1, req, .okStatus⟩))
      [.complete 0 .request true 5, .complete 1 .request true 6, .complete 1 .finish true 0,
        .complete 2 .request false 0, .complete 0 .finish true 0] s ∧
    s.pool.deleted = [1, 2, 0] ∧ s.Drained := by
  have h := (((((Run.nil (S := Server.system (kind fun (env : ℕ) (req : ℕ) (_ : ℕ) ↦
      ⟨env + 1, req, .okStatus⟩)) ⟨0, rfl⟩).snoc
    (Server.Step.serve (h := 0) (o := Op.request) 5 0 (by decide) rfl rfl)).snoc
    (Server.Step.serve (h := 1) (o := Op.request) 6 0 (by decide) rfl rfl)).snoc
    (Server.Step.serve (h := 1) (o := Op.finish) 0 0 (by decide) rfl rfl)).snoc
    (Server.Step.shutdown (h := 2) (o := Op.request) 0 (by decide) rfl)).snoc
    (Server.Step.serve (h := 0) (o := Op.finish) 0 0 (by decide) rfl rfl)
  exact ⟨_, h, rfl, ((unary_server_drains h).2.2 rfl).1⟩

end AsyncServerCall

/-! ### Stream calls -/

namespace AsyncServerStreamCall

variable {κ REQ RES α : Type*} {cb : Callbacks κ REQ RES α} {call : AsyncServerStreamCall REQ α}

/-- The iterator of a call in mid-stream is within the range. -/
def InRange (call : AsyncServerStreamCall REQ α) : Prop :=
  call.status = .process → call.it ≤ call.ranges.length

/-- The most completions a call has left when it accepts no request. -/
def left (call : AsyncServerStreamCall REQ α) : ℕ :=
  match call.status with
  | .process => call.ranges.length - call.it + 2
  | _ => 1

theorem left_pos (call : AsyncServerStreamCall REQ α) : 0 < call.left := by
  unfold left
  split
  · exact Nat.succ_pos _
  · exact Nat.one_pos

section

variable {fuel : ℕ} {env : κ} {events : List (Event RES α)} {ranges : List α} {req : REQ} {it : ℕ}
  {reply : RES} {l : Loop κ RES α}

/-- The loop over the range moves the iterator on, either to the end or past the element whose reply
it has filled. -/
theorem it_run (hstay : cb.Stays) (hle : it ≤ ranges.length)
    (h : While.run (Loop.goesOn ranges) (Loop.next cb req ranges) fuel
      ⟨env, it, reply, false, events⟩ = some l) :
    l.it ≤ ranges.length ∧ (l.wrote = true → it < l.it) ∧
      (l.wrote = true ∨ l.it = ranges.length) := by
  obtain ⟨⟨hle', -, hlt⟩, hend⟩ := While.run_invariant (I := fun l : Loop κ RES α ↦
    l.it ≤ ranges.length ∧ it ≤ l.it ∧ (l.wrote = true → it < l.it))
    ⟨hle, Nat.le_refl _, fun hw ↦ absurd hw Bool.false_ne_true⟩ (fun l hl hgo ↦ by
      have hlt := (lt_length_of_goesOn hl.1 hgo).1
      have hit : (l.next cb req ranges).it = l.it + 1 := by rw [Loop.next, hstay]
      rw [hit]
      exact ⟨hlt, Nat.le_succ_of_le hl.2.1, fun _ ↦ Nat.lt_succ_of_le hl.2.1⟩) h
  refine ⟨hle', hlt, ?_⟩
  simpa [Loop.goesOn, or_iff_not_imp_left] using hend

variable [Inhabited RES] {r : Served κ (AsyncServerStreamCall REQ α) (Event RES α)}

omit [Inhabited RES] in
theorem status_finishAtEnd (hit : call.it = call.ranges.length) :
    (finishAtEnd env call events).call.status = .finish := by
  simp [finishAtEnd, hit]

theorem left_process (hstay : cb.Stays) (hle : call.it ≤ call.ranges.length)
    (h : process cb fuel env call events = some r) :
    r.call.InRange ∧ r.call.left < call.ranges.length - call.it + 2 := by
  have hfinish : ∀ c : AsyncServerStreamCall REQ α, c.status = .finish →
      c.InRange ∧ c.left < call.ranges.length - call.it + 2 := fun c hc ↦ by
    refine ⟨fun hp ↦ ?_, by simp [left, hc]⟩
    rw [hc] at hp
    cases hp
  simp only [process] at h
  split at h
  next =>
    obtain ⟨l, hl, rfl⟩ := Option.map_eq_some_iff.1 h
    obtain ⟨hle', hlt, hend⟩ := it_run hstay hle hl
    cases hw : l.wrote with
    | true =>
      have hlt := hlt hw
      refine ⟨fun _ ↦ by simpa using hle', ?_⟩
      simp only [if_true, left]
      omega
    | false =>
      have hit : l.it = call.ranges.length := hend.resolve_left (by simp [hw])
      rw [if_neg Bool.false_ne_true]
      exact hfinish _ (status_finishAtEnd hit)
  next hit =>
    obtain rfl := Option.some.inj h
    exact hfinish _ (status_finishAtEnd (not_not.1 hit))

theorem InRange.serve (hstay : cb.Stays) (hc : call.InRange)
    (h : serve cb fuel env call = some r) : r.call.InRange := by
  cases hst : call.status with
  | startup =>
    simp only [AsyncServerStreamCall.serve, hst] at h
    split at h
    next =>
      obtain rfl := Option.some.inj h
      exact fun hp ↦ by cases hp
    next => exact (left_process hstay (Nat.zero_le _) h).1
  | process =>
    simp only [AsyncServerStreamCall.serve, hst] at h
    exact (left_process hstay (hc hst) h).1
  | finish =>
    obtain rfl := eq_of_serve_finish hst h
    exact hc

/-- A call that is served in mid-stream has fewer completions left. -/
theorem InRange.left_serve (hstay : cb.Stays) (hc : call.InRange) (hst : call.status = .process)
    (h : AsyncServerStreamCall.serve cb fuel env call = some r) : r.call.left < call.left := by
  simp only [AsyncServerStreamCall.serve, hst] at h
  simpa only [left, hst] using (left_process hstay (hc hst) h).2

end

section

variable [Inhabited REQ] [Inhabited RES] {s s' : StreamServer κ REQ RES α}
  {tr : List (Server.Action Op REQ)} {a : Server.Action Op REQ}

/-- The server is attended, and the iterators of its calls are within their ranges. -/
structure Ranging (s : StreamServer κ REQ RES α) : Prop where
  attended : Attended s
  inRange : ∀ h c, s.pool.object h = some c → c.InRange

omit [Inhabited RES] in
theorem effects_spawn {evs : List (Event RES α)} {d : AsyncServerStreamCall REQ α} {o : Op}
    (h : Pool.Effect.spawn d o ∈ effects REQ evs) : d.InRange := by
  obtain ⟨e, -, he⟩ := List.mem_filterMap.1 h
  cases e with
  | create =>
    obtain ⟨rfl, -⟩ := Pool.Effect.spawn.inj (Option.some.inj he)
    exact fun hp ↦ by cases hp
  | _ => simp [Event.effect] at he

theorem ranging_start (env : κ) : Ranging (Server.start (kind cb) env) where
  attended := attended_start env
  inRange h c hc := by
    rcases Pool.object_of_perform (p := Pool.empty) (h := 0) hc with hc | ⟨o, ho⟩
    · simp [Pool.empty] at hc
    · obtain ⟨rfl, -⟩ := Pool.Effect.spawn.inj (List.mem_singleton.1 ho)
      exact fun hp ↦ by cases hp

/-- **A completion keeps the iterators in range**, and leaves fewer completions to do unless it
accepts a request, which creates a call. -/
theorem Ranging.step (hstay : cb.Stays) (hs : Ranging s) (hstep : Server.Step (kind cb) s a s')
    (ha : Graceful a) : Ranging s' ∧
      if (kind cb).accepts a then s'.pool.next = s.pool.next + 1
      else s'.pool.next = s.pool.next ∧ s'.pool.load left < s.pool.load left := by
  have hattended := hs.attended.step hstep ha
  have hb := hs.attended.balanced
  cases hstep with
  | @serve h o call r req fuel ho hcall hr =>
    have hserve : serve cb fuel s.env (receive o req call) = some r := hr
    have hc : (receive o req call).InRange := by
      cases o <;> exact hs.inRange h call hcall
    refine ⟨⟨hattended, fun k d ↦ Server.forall_object_record hs.inRange (hc.serve hstay hserve)
      fun d o' ho' ↦ effects_spawn ho'⟩, ?_⟩
    have hop := hs.attended.matches_op h o call ho hcall
    have hperform := perform_serve (p := (s.pool.complete (h, o)).put h r.call) (h := h) hserve
    simp only [status_receive] at hperform
    cases hst : call.status with
    | startup =>
      obtain rfl : o = .request := by rw [hop, op, hst]
      have haccepts : (kind cb).accepts (.complete h .request true req) = true := rfl
      rw [hst] at hperform
      rw [if_pos haccepts]
      exact congrArg Pool.next hperform
    | process =>
      obtain rfl : o = .write := by rw [hop, op, hst]
      rw [hst] at hperform
      have heff := effects_serve (by rw [status_receive, hst]; exact fun hf ↦ by cases hf) hserve
      rw [status_receive, if_neg (by rw [hst]; exact fun hp ↦ by cases hp)] at heff
      have hload := Server.load_record_issue (K := kind cb) (μ := left) r.call r.env hb ho hcall
        heff
      have hlt := hc.left_serve hstay hst hserve
      exact ⟨(congrArg Pool.next hperform).trans rfl,
        Nat.lt_of_add_lt_add_right (hload.trans_lt (Nat.add_lt_add_left hlt _))⟩
    | finish =>
      obtain rfl : o = .finish := by rw [hop, op, hst]
      obtain rfl := eq_of_serve_finish (by rw [status_receive, hst]) hserve
      have hevs : [Event.delete].filterMap (kind cb).effect = [.delete] := rfl
      have hload := Server.load_record_delete (K := kind cb) (μ := left) (receive .finish req call)
        s.env hb ho hcall hevs
      exact ⟨rfl, (Nat.lt_add_of_pos_right (left_pos call)).trans_eq hload⟩
  | @shutdown h o call req ho hcall =>
    have hne : call.status ≠ .process := fun hp ↦
      ha h req (by rw [hs.attended.matches_op h o call ho hcall, op, hp])
    have hevs : (kind cb).shutdown (receive o req call) = [.delete] :=
      shutdown_of_ne_process (by simpa using hne)
    have hc : (receive o req call).InRange := by
      cases o <;> exact hs.inRange h call hcall
    have hload := Server.load_record_delete (K := kind cb) (μ := left) (receive o req call) s.env
      hb ho hcall (congrArg _ hevs)
    rw [show (kind cb).receive o req call = receive o req call from rfl] at hattended ⊢
    refine ⟨⟨hattended, fun k d ↦ Server.forall_object_record hs.inRange hc
      fun d o' ho' ↦ effects_spawn ho'⟩, ?_⟩
    rw [if_neg (by simp [CallKind.accepts])]
    refine ⟨?_, (Nat.lt_add_of_pos_right (left_pos call)).trans_eq hload⟩
    rw [hevs]
    rfl

theorem ranging_of_run (hstay : cb.Stays)
    (h : Run ((Server.system (kind cb)).restrict fun _ ↦ Graceful) tr s) : Ranging s := by
  refine h.invariant ?_ ?_
  · rintro _ ⟨env, rfl⟩
    exact ranging_start env
  · exact fun _ _ _ hs hstep ↦ (hs.step hstay hstep.1 hstep.2).1

theorem next_of_run (hstay : cb.Stays)
    (h : Run ((Server.system (kind cb)).restrict fun _ ↦ Graceful) tr s) :
    s.pool.next = tr.countP (kind cb).accepts + 1 := by
  induction h with
  | nil hi =>
    obtain ⟨env, rfl⟩ := hi
    rfl
  | @snoc tr s s' a hr hstep ih =>
    have hnext := ((ranging_of_run hstay hr).step hstay hstep.1 hstep.2).2
    rw [List.countP_append, List.countP_singleton]
    split at hnext
    next ha => rw [hnext, ih, if_pos ha]
    next ha => rw [hnext.1, ih, if_neg ha]

/-- A call in mid-stream can be served, the others can be deleted. -/
theorem Ranging.exists_step (hstay : cb.Stays) (hs : Ranging s) (hflight : s.pool.inflight ≠ []) :
    ∃ a s', (kind cb).accepts a = false ∧ Graceful a ∧ Server.Step (kind cb) s a s' := by
  obtain ⟨⟨h, o⟩, ho⟩ := List.exists_mem_of_ne_nil _ hflight
  obtain ⟨call, hcall⟩ := Option.isSome_iff_exists.1 (hs.attended.balanced.live ho)
  have hop := hs.attended.matches_op h o call ho hcall
  cases hst : call.status with
  | process =>
    have hsome : (process cb (call.ranges.length - call.it + 1) s.env call []).isSome :=
      isSome_process hstay (hs.inRange h call hcall hst) (Nat.lt_succ_self _)
    obtain ⟨r, hr⟩ := Option.isSome_iff_exists.1 hsome
    have hserve : serve cb (call.ranges.length - call.it + 1) s.env (receive .write default call) =
        some r := by
      simpa [serve, receive, hst] using hr
    obtain rfl : o = .write := by rw [hop, op, hst]
    exact ⟨.complete h .write true default, _, rfl, by simp [Graceful],
      .serve default _ ho hcall hserve⟩
  | startup | finish =>
    have hgraceful : Graceful (.complete h o false (default : REQ)) := by
      simp [Graceful, hop, op, hst]
    exact ⟨.complete h o false default, _, by simp [CallKind.accepts], hgraceful,
      .shutdown default ho hcall⟩

/-- **A server of stream calls drains**, when no write fails. Once no request is accepted any more,
the number of completions is bounded by what is left of the ranges, and until nothing is in flight
one can happen. Every call created was then deleted once, there was one call more than requests
were accepted, and each call none of whose operations failed has accepted a request and delivered
the range that its init callback has left for it. -/
theorem stream_server_drains (hstay : cb.Stays)
    (h : Run ((Server.system (kind cb)).restrict fun _ ↦ Graceful) tr s) :
    (∀ tr' s', Path ((Server.system (kind cb)).restrict fun _ ↦ Graceful) s tr' s' →
      (∀ a ∈ tr', (kind cb).accepts a = false) → tr'.length ≤ s.pool.load left) ∧
    (s.pool.inflight ≠ [] →
      ∃ a s', (kind cb).accepts a = false ∧ Graceful a ∧ Server.Step (kind cb) s a s') ∧
    (s.pool.inflight = [] →
      s.Drained ∧ s.pool.deleted.length = tr.countP (kind cb).accepts + 1 ∧
      ∀ k < s.pool.next, (∀ o req, .complete k o false req ∉ tr) →
        ∃ env req served, .complete k .request true req ∈ tr ∧ Tells cb (env, req) (s.events k) ∧
          Delivered (cb.inited (env, req)).ranges (cb.inited (env, req)).status served
            (s.events k)) := by
  have hs := ranging_of_run hstay h
  refine ⟨fun tr' s' hpath haccepts ↦ ?_, hs.exists_step hstay, fun hnil ↦ ?_⟩
  · have hspend : ∀ s₁ a s₂, Ranging s₁ → (kind cb).accepts a = false →
        ((Server.system (kind cb)).restrict fun _ ↦ Graceful).step s₁ a s₂ →
        Ranging s₂ ∧ s₂.pool.load left < s₁.pool.load left + 0 := fun s₁ a s₂ hs₁ ha hstep ↦ by
      obtain ⟨hs₂, hload⟩ := hs₁.step hstay hstep.1 hstep.2
      rw [ha, if_neg Bool.false_ne_true] at hload
      exact ⟨hs₂, hload.2⟩
    simpa using Path.length_le hs hspend hpath haccepts
  · have hd := Server.Drained.of_balanced hs.attended.balanced hnil
    refine ⟨hd, hd.length_deleted.trans (next_of_run hstay h), fun k hk hfail ↦ ?_⟩
    have hgood := h.restrict_and (P := fun a ↦ ∀ o req, a ≠ .complete k o false req)
      fun a ha o req hao ↦ hfail o req (hao ▸ ha)
    exact delivered_of_deleted hstay hgood (hd.deleted.mem_iff.2 (List.mem_range.2 hk))

end

/-- A range of two elements is delivered after the wait of the successor has failed. -/
theorem stream_server_drains_two : ∃ s,
    Run ((Server.system (kind (keepBelow [7, 8]))).restrict fun _ ↦ Graceful)
      [.complete 0 .request true 9, .complete 1 .request false 0, .complete 0 .write true 0,
        .complete 0 .write true 0, .complete 0 .finish true 0] s ∧
    s.pool.deleted = [1, 0] ∧ s.Drained ∧
    ∃ served, Delivered [7, 8] .okStatus served (s.events 0) := by
  have h := (((((Run.nil (S := (Server.system (kind (keepBelow [7, 8]))).restrict
      fun _ ↦ Graceful) ⟨(), rfl⟩).snoc
    ⟨.serve (h := 0) (o := .request) 9 3 (by decide) rfl rfl, by simp [Graceful]⟩).snoc
    ⟨.shutdown (h := 1) (o := .request) 0 (by decide) rfl, by simp [Graceful]⟩).snoc
    ⟨.serve (h := 0) (o := .write) 0 3 (by decide) rfl rfl, by simp [Graceful]⟩).snoc
    ⟨.serve (h := 0) (o := .write) 0 3 (by decide) rfl rfl, by simp [Graceful]⟩).snoc
    ⟨.serve (h := 0) (o := .finish) 0 3 (by decide) rfl rfl, by simp [Graceful]⟩
  obtain ⟨hdrained, -, hdelivered⟩ := (stream_server_drains (fun _ _ _ _ _ ↦ rfl) h).2.2 rfl
  obtain ⟨env, req, served, -, -, hd⟩ := hdelivered 0 (by decide) (by simp)
  exact ⟨_, h, rfl, hdrained, served, hd⟩

end AsyncServerStreamCall

end Cppkg.Egrpc
