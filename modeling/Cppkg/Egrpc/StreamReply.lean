import Cppkg.Egrpc.StreamRange

/-!
# What a rejected element leaves behind

Inside one `serve()` a stream call hands the same reply to its write callback time and again, until
an element is kept. A callback may fill the reply and return false, and then the next element of
the range is offered what was filled in. The replies written over a whole range are `keptFrom`, a
recursion over the range that threads the reply through rejected elements and starts with a new
one behind each element kept.

`Sending` is the invariant: the messages written so far, followed by those of the rest of the
range, are those of the whole range. So every message is what the callback makes of a new reply if
and only if it makes the same of the replies that rejected elements leave (`Forgets`).
-/

namespace Cppkg.Egrpc

open Transition

namespace AsyncServerStreamCall

variable {κ REQ RES α : Type*}

/-- The write callback is a function of the request, the element and the reply, and does not move
the iterator. -/
structure Callbacks.Computes (cb : Callbacks κ REQ RES α)
    (write : REQ → α → RES → Bool × RES) : Prop where
  stays : cb.Stays
  wrote_eq : ∀ env req ranges it reply a, ranges[it]? = some a →
    (cb.writeCall env req ranges it reply).wrote = (write req a reply).1
  reply_eq : ∀ env req ranges it reply a, ranges[it]? = some a →
    (cb.writeCall env req ranges it reply).reply = (write req a reply).2

/-- The messages written so far, each with the position it was written for, and the position last
handed to the write callback. -/
structure Messages (RES : Type*) where
  last : Option ℕ
  written : List (Option ℕ × RES)

/-- The messages after an event. -/
def Messages.after (m : Messages RES) : Event RES α → Messages RES
  | .writeCall it _ _ => { m with last := some it }
  | .write reply => { m with written := m.written ++ [(m.last, reply)] }
  | _ => m

/-- The messages of a list of events. -/
def messages (evs : List (Event RES α)) : Messages RES := evs.foldl Messages.after ⟨none, []⟩

@[simp] theorem messages_nil : messages ([] : List (Event RES α)) = ⟨none, []⟩ := rfl

@[simp] theorem messages_append_singleton (evs : List (Event RES α)) (e : Event RES α) :
    messages (evs ++ [e]) = (messages evs).after e := by
  simp [messages]

variable [Inhabited RES]

/-- The message is what the callback makes of a new reply, for the element it was written for. -/
def Fresh (f : α → RES → Bool × RES) (ranges : List α) (p : Option ℕ × RES) : Prop :=
  ∃ i a, p.1 = some i ∧ ranges[i]? = some a ∧ p.2 = (f a default).2

/-- The messages of the rest of a range, from position `i` on, when the next element is offered
`reply`. -/
def keptFrom (f : α → RES → Bool × RES) : ℕ → RES → List α → List (Option ℕ × RES)
  | _, _, [] => []
  | i, reply, a :: rest =>
    if (f a reply).1 then (some i, (f a reply).2) :: keptFrom f (i + 1) default rest
    else keptFrom f (i + 1) (f a reply).2 rest

/-- An element that is kept is given the same reply as from a new one, whatever the rejected
elements before it have left; `reply` is what the next element is offered. -/
def Forgets (f : α → RES → Bool × RES) : RES → List α → Prop
  | _, [] => True
  | reply, a :: rest =>
    ((f a reply).1 = true → (f a reply).2 = (f a default).2) ∧
      Forgets f (if (f a reply).1 then default else (f a reply).2) rest

/-- **Messages are fresh when the callback forgets.** The induction is on the rest of the range. -/
theorem fresh_keptFrom_iff {f : α → RES → Bool × RES} {ranges rest : List α} {i : ℕ} {reply : RES}
    (hrest : ranges.drop i = rest) :
    (∀ p ∈ keptFrom f i reply rest, Fresh f ranges p) ↔ Forgets f reply rest := by
  induction rest generalizing i reply with
  | nil => simp [keptFrom, Forgets]
  | cons a rest ih =>
    have hi : ranges[i]? = some a := by
      have := congrArg (·[0]?) hrest
      simpa using this
    have hdrop : ranges.drop (i + 1) = rest := by
      rw [← List.drop_drop, hrest]
      rfl
    have hfresh : Fresh f ranges (some i, (f a reply).2) ↔ (f a reply).2 = (f a default).2 := by
      constructor
      · rintro ⟨j, b, hj, hb, heq⟩
        obtain rfl := Option.some.inj hj
        obtain rfl := Option.some.inj (hi.symm.trans hb)
        exact heq
      · exact fun heq ↦ ⟨i, a, rfl, hi, heq⟩
    rw [keptFrom, Forgets]
    cases hkept : (f a reply).1 with
    | true =>
      rw [if_pos rfl, if_pos rfl, List.forall_mem_cons, hfresh, ih hdrop]
      simp
    | false =>
      rw [if_neg Bool.false_ne_true, if_neg Bool.false_ne_true, ih hdrop]
      simp

/-- A callback forgets that does not touch the reply of an element it rejects. -/
theorem forgets_of_untouched {f : α → RES → Bool × RES}
    (hf : ∀ a, (f a default).1 = false → (f a default).2 = default) (ranges : List α) :
    Forgets f default ranges := by
  induction ranges with
  | nil => trivial
  | cons a rest ih =>
    refine ⟨fun _ ↦ rfl, ?_⟩
    cases hkept : (f a default).1 with
    | true => exact ih
    | false =>
      rw [if_neg Bool.false_ne_true, hf a hkept]
      exact ih

/-! ### The loop over the range -/

section

variable {cb : Callbacks κ REQ RES α} {write : REQ → α → RES → Bool × RES} {req : REQ}
  {ranges : List α} {l l' : Loop κ RES α} {pre events : List (Event RES α)} {fuel : ℕ} {env : κ}
  {call : AsyncServerStreamCall REQ α}

/-- The messages that are still to come, in the loop over the range. -/
def Loop.rest (write : REQ → α → RES → Bool × RES) (req : REQ) (ranges : List α)
    (last : Option ℕ) (l : Loop κ RES α) : List (Option ℕ × RES) :=
  if l.wrote then (last, l.reply) :: keptFrom (write req) l.it default (ranges.drop l.it)
  else keptFrom (write req) l.it l.reply (ranges.drop l.it)

/-- The messages written so far and those to come are those of the whole range. -/
def Loop.Sending (write : REQ → α → RES → Bool × RES) (req : REQ) (ranges : List α)
    (pre : List (Event RES α)) (l : Loop κ RES α) : Prop :=
  l.it ≤ ranges.length ∧
    (messages (pre ++ l.events)).written ++
      l.rest write req ranges (messages (pre ++ l.events)).last =
        keptFrom (write req) 0 default ranges

/-- **One turn of the loop** offers the next element the reply that it has. -/
theorem sending_next (hcb : cb.Computes write) (hl : l.Sending write req ranges pre)
    (hgo : l.goesOn ranges = true) : (l.next cb req ranges).Sending write req ranges pre := by
  obtain ⟨hle, hsent⟩ := hl
  obtain ⟨hlt, hwrote⟩ := lt_length_of_goesOn hle hgo
  have ha : ranges[l.it]? = some ranges[l.it] := List.getElem?_eq_getElem hlt
  have hit : (l.next cb req ranges).it = l.it + 1 := by rw [Loop.next, hcb.stays]
  have hw : (l.next cb req ranges).wrote = (write req ranges[l.it] l.reply).1 :=
    hcb.wrote_eq _ _ _ _ _ _ ha
  have hr : (l.next cb req ranges).reply = (write req ranges[l.it] l.reply).2 :=
    hcb.reply_eq _ _ _ _ _ _ ha
  have hevs : pre ++ (l.next cb req ranges).events = (pre ++ l.events) ++
      [.writeCall l.it (l.next cb req ranges).wrote (l.next cb req ranges).reply] :=
    (List.append_assoc ..).symm
  refine ⟨by rw [hit]; exact hlt, ?_⟩
  rw [Loop.rest, hwrote, if_neg (by simp), List.drop_eq_getElem_cons hlt, keptFrom] at hsent
  rw [hevs, messages_append_singleton, Loop.rest, hw, hr, hit]
  exact hsent

theorem sending_run (hcb : cb.Computes write) (hl : l.Sending write req ranges pre)
    (h : While.run (Loop.goesOn ranges) (Loop.next cb req ranges) fuel l = some l') :
    l'.Sending write req ranges pre ∧ (l'.wrote = true ∨ l'.it = ranges.length) := by
  obtain ⟨hl', hc⟩ := While.run_invariant
    (I := fun l : Loop κ RES α ↦ l.Sending write req ranges pre) hl
    (fun _ hl hgo ↦ sending_next hcb hl hgo) h
  refine ⟨hl', ?_⟩
  simpa [Loop.goesOn, or_iff_not_imp_left] using hc

/-! ### One call of `serve()` -/

/-- All messages of a call, by what its init callback leaves. -/
def sent (write : REQ → α → RES → Bool × RES) (req : REQ) (i : Inited κ α) :
    List (Option ℕ × RES) :=
  if i.status.ok = true then keptFrom (write req) 0 default i.ranges else []

/-- A call whose request was `req` and whose init callback left `i`. While it is in its range, the
messages written so far and those to come are all its messages. -/
def Replying (write : REQ → α → RES → Bool × RES) (req : REQ) (i : Inited κ α)
    (call : AsyncServerStreamCall REQ α) (evs : List (Event RES α)) : Prop :=
  match call.status with
  | .startup => False
  | .process => call.req = req ∧ call.ranges = i.ranges ∧ i.status.ok = true ∧
      Loop.Sending write req i.ranges evs (⟨(), call.it, default, false, []⟩ : Loop Unit RES α)
  | .finish => (messages evs).written = sent write req i

variable {i : Inited κ α} {r : Served κ (AsyncServerStreamCall REQ α) (Event RES α)}

theorem Loop.Sending.written (hl : l.Sending write req ranges pre) (hwrote : l.wrote = false)
    (hend : l.it = ranges.length) :
    (messages (pre ++ l.events)).written = keptFrom (write req) 0 default ranges := by
  have hsent := hl.2
  rwa [Loop.rest, hwrote, if_neg Bool.false_ne_true, hend, List.drop_length, keptFrom,
    List.append_nil] at hsent

theorem replying_finishAtEnd (hranges : call.ranges = i.ranges) (hok : i.status.ok = true)
    (hit : call.it = i.ranges.length)
    (hwritten : (messages (pre ++ events)).written = keptFrom (write req) 0 default i.ranges) :
    Replying write req i (finishAtEnd env call events).call
      (pre ++ (finishAtEnd env call events).events) := by
  rw [finishAtEnd, if_pos (by rw [hit, hranges])]
  show (messages (pre ++ (events ++ [.finish .okStatus]))).written = sent write req i
  rw [← List.append_assoc, messages_append_singleton, sent, if_pos hok]
  exact hwritten

theorem replying_process (hcb : cb.Computes write) (hreq : call.req = req)
    (hranges : call.ranges = i.ranges) (hok : i.status.ok = true)
    (hl : Loop.Sending write req i.ranges pre
      (⟨env, call.it, default, false, events⟩ : Loop κ RES α))
    (h : process cb fuel env call events = some r) :
    Replying write req i r.call (pre ++ r.events) := by
  simp only [process] at h
  rw [hreq, hranges] at h
  split at h
  next =>
    obtain ⟨l', hl', rfl⟩ := Option.map_eq_some_iff.1 h
    obtain ⟨hsending, hend⟩ := sending_run hcb hl hl'
    cases hw : l'.wrote with
    | true =>
      rw [if_pos rfl]
      refine ⟨rfl, rfl, hok, hsending.1, ?_⟩
      have hsent := hsending.2
      rw [Loop.rest, hw, if_pos rfl, List.append_cons] at hsent
      simpa [Loop.rest, ← List.append_assoc, Messages.after] using hsent
    | false =>
      have hit : l'.it = i.ranges.length := hend.resolve_left (by simp [hw])
      rw [if_neg Bool.false_ne_true]
      exact replying_finishAtEnd rfl hok hit (hsending.written hw hit)
  next hit =>
    obtain rfl := Option.some.inj h
    exact replying_finishAtEnd rfl hok (not_not.1 hit) (hl.written rfl (not_not.1 hit))

theorem replying_serve (hcb : cb.Computes write) (hr : Replying write req i call pre)
    (hf : call.status ≠ .finish) (h : serve cb fuel env call = some r) :
    Replying write req i r.call (pre ++ r.events) := by
  cases hst : call.status with
  | startup =>
    simp only [Replying, hst] at hr
  | finish => exact absurd hst hf
  | process =>
    simp only [serve, Replying, hst] at h hr
    obtain ⟨hreq, hranges, hok, hl⟩ := hr
    exact replying_process hcb hreq hranges hok (by simpa [Loop.Sending, Loop.rest] using hl) h

/-- The first call of `serve()` runs the init callback. -/
theorem replying_serve_new [Inhabited REQ] (hcb : cb.Computes write)
    (h : serve cb fuel env (receive .request req new) = some r) :
    Replying write req (cb.initCall env [] req) r.call r.events := by
  have hnew : receive .request req new =
      (⟨req, [], 0, .startup⟩ : AsyncServerStreamCall REQ α) := rfl
  rw [hnew] at h
  simp only [serve] at h
  split at h
  next hok =>
    obtain rfl := Option.some.inj h
    simp [Replying, sent, hok, messages, Messages.after]
  next hok =>
    have hl : Loop.Sending write req (cb.initCall env [] req).ranges []
        ⟨(cb.initCall env [] req).env, 0, default, false,
          [.create, .initCall (cb.initCall env [] req).ranges (cb.initCall env [] req).status]⟩ :=
      ⟨Nat.zero_le _, by simp [Loop.rest, messages, Messages.after]⟩
    exact replying_process hcb rfl rfl (by simpa using hok) hl h

end

/-! ### Runs of `serve()` -/

section

variable [Inhabited REQ] {cb : Callbacks κ REQ RES α} {write : REQ → α → RES → Bool × RES}
  {req : REQ} {i : Inited κ α} {s s' : OneCall REQ RES α} {tr : List (κ × REQ)} {a : κ × REQ}
  {ranges : List α} {status : Status}

/-- The invariant of a run, once the request has arrived. -/
def Replies (write : REQ → α → RES → Bool × RES) (req : REQ) (i : Inited κ α)
    (s : OneCall REQ RES α) : Prop :=
  match s.call with
  | some call => Replying write req i call s.events
  | none => (messages s.events).written = sent write req i

theorem Replies.step (hcb : cb.Computes write) (hs : Replies write req i s)
    (hstep : Serves cb s a s') : Replies write req i s' := by
  obtain ⟨call, hcall⟩ : ∃ call, s.call = some call := by
    cases hstep with
    | serve _ _ _ hc _ => exact ⟨_, hc⟩
  simp only [Replies, hcall] at hs
  by_cases hf : call.status = .finish
  · obtain rfl := hstep.of_finish hcall hf
    simp only [Replying, hf] at hs
    simpa [Replies, Messages.after] using hs
  · cases hstep with
    | @serve env req' call' r fuel hc hr =>
      obtain rfl := Option.some.inj (hcall.symm.trans hc)
      have hf' : (AsyncServerStreamCall.receive (op call) req' call).status ≠ .finish := by
        rwa [status_receive]
      have hreceive : Replying write req i (AsyncServerStreamCall.receive (op call) req' call)
          s.events := by
        cases hst : call.status with
        | startup => simp only [Replying, hst] at hs
        | finish => exact absurd hst hf
        | process =>
          have heq : AsyncServerStreamCall.receive (op call) req' call = call := by
            simp [op, hst, AsyncServerStreamCall.receive]
          rwa [heq]
      simpa [Replies, any_isDelete_serve hf' hr] using replying_serve hcb hreceive hf' hr

/-- **The run invariant**: the first request and the range that the init callback makes of it
decide what is written. -/
theorem replies_of_run (hcb : cb.Computes write) (h : Run (serves cb) tr s) :
    (tr = [] ∧ s = ⟨some new, []⟩) ∨ ∃ env req tr',
      tr = (env, req) :: tr' ∧ Replies write req (cb.initCall env [] req) s := by
  induction h with
  | nil hi => exact .inl ⟨rfl, hi⟩
  | @snoc tr s s' a _ hstep ih =>
    obtain ⟨rfl, rfl⟩ | ⟨env, req, tr', rfl, hs⟩ := ih
    · cases hstep with
      | @serve env req call r fuel hc hr =>
        obtain rfl := Option.some.inj hc
        refine .inr ⟨env, req, [], rfl, ?_⟩
        simpa [Replies, any_isDelete_serve (by simp [new]) hr] using replying_serve_new hcb hr
    · exact .inr ⟨env, req, tr' ++ [a], rfl, hs.step hcb hstep⟩

omit [Inhabited REQ] in
/-- The messages written so far are the first ones of all. -/
theorem Replies.written_isPrefix (hs : Replies write req i s) :
    (messages s.events).written <+: sent write req i := by
  cases hcall : s.call with
  | none =>
    simp only [Replies, hcall] at hs
    exact hs ▸ List.prefix_refl _
  | some call =>
    simp only [Replies, hcall] at hs
    cases hst : call.status with
    | startup => simp only [Replying, hst] at hs
    | finish =>
      simp only [Replying, hst] at hs
      exact hs ▸ List.prefix_refl _
    | process =>
      simp only [Replying, hst] at hs
      obtain ⟨-, -, hok, -, hsent⟩ := hs
      simp only [List.append_nil] at hsent
      exact ⟨_, hsent.trans (if_pos hok).symm⟩

/-- A run goes on until the call is deleted. -/
theorem exists_run_deleted (hstay : cb.Stays) (a : κ × REQ) {n : ℕ} (h : Run (serves cb) tr s)
    (hi : .initCall ranges status ∈ s.events) (hn : ranges.length + 2 < tr.length + n) :
    ∃ tr' s', Run (serves cb) (tr ++ tr') s' ∧ s'.call = none := by
  induction n generalizing tr s with
  | zero => exact absurd ((delivering_of_run hstay h).le hi) (Nat.not_le.2 hn)
  | succ n ih =>
    cases hcall : s.call with
    | none => exact ⟨[], s, by simpa using h, hcall⟩
    | some call =>
      have hd := delivering_of_run hstay h
      simp only [Delivering, hcall] at hd
      obtain ⟨s', hstep⟩ := hd.exists_serves hstay hcall a
      have hi' : .initCall ranges status ∈ s'.events := by
        cases hstep with
        | serve _ _ _ _ _ => exact List.mem_append_left _ hi
      obtain ⟨tr', s'', hrun, hnone⟩ := ih (h.snoc hstep) hi' (by simp; omega)
      exact ⟨a :: tr', s'', by simpa using hrun, hnone⟩

theorem exists_run_sent (hcb : cb.Computes write) (env : κ) (req : REQ) :
    ∃ tr s, Run (serves cb) ((env, req) :: tr) s ∧
      (messages s.events).written = sent write req (cb.initCall env [] req) := by
  have hinit : Run (serves cb) [] ⟨some new, []⟩ := .nil rfl
  have hnew : Stands 0 (new : AsyncServerStreamCall REQ α) ([] : List (Event RES α)) := ⟨rfl, rfl⟩
  obtain ⟨s, hstep⟩ := hnew.exists_serves (s := ⟨some new, []⟩) hcb.stays rfl (env, req)
  obtain ⟨call, -, hs⟩ := hstep.of_ne_finish hcb.stays rfl (by simp [new]) hnew
  obtain ⟨ranges, status, hi⟩ := hs.exists_inited
  obtain ⟨tr, s', hrun, hnone⟩ := exists_run_deleted (n := ranges.length + 2) hcb.stays (env, req)
    (hinit.snoc hstep) hi (by simp)
  refine ⟨tr, s', hrun, ?_⟩
  obtain ⟨h, -⟩ | ⟨env', req', tr', h, hs⟩ := replies_of_run hcb hrun
  · simp at h
  · obtain ⟨⟨rfl, rfl⟩, rfl⟩ : (env = env' ∧ req = req') ∧ tr = tr' := by simpa using h
    simpa only [Replies, hnone] using hs

/-- Rejected elements leave no trace: every message of a call is what the callback makes of a new
reply. -/
def LeavesNoTrace (cb : Callbacks κ REQ RES α) (write : REQ → α → RES → Bool × RES) (env : κ)
    (req : REQ) : Prop :=
  ∀ tr s, Run (serves cb) ((env, req) :: tr) s →
    ∀ p ∈ (messages s.events).written, Fresh (write req) (cb.initCall env [] req).ranges p

/-- **When rejected elements leave no trace.** Every message of every run of a call is fresh if
and only if the init callback fails, or the write callback makes the same of the reply that
rejected elements leave as of a new one, for every element that is kept. -/
theorem leavesNoTrace_iff (hcb : cb.Computes write) (env : κ) (req : REQ) :
    LeavesNoTrace cb write env req ↔ ((cb.initCall env [] req).status.ok = true →
      Forgets (write req) default (cb.initCall env [] req).ranges) := by
  constructor
  · intro h hok
    obtain ⟨tr, s, hrun, hwritten⟩ := exists_run_sent hcb env req
    have hfresh := h tr s hrun
    rw [hwritten, sent, if_pos hok] at hfresh
    exact (fresh_keptFrom_iff List.drop_zero).1 hfresh
  · intro h tr s hrun p hp
    obtain ⟨htr, -⟩ | ⟨env', req', tr', htr, hs⟩ := replies_of_run hcb hrun
    · simp at htr
    obtain ⟨⟨rfl, rfl⟩, rfl⟩ : (env = env' ∧ req = req') ∧ tr = tr' := by simpa using htr
    have hmem := hs.written_isPrefix.subset hp
    rw [sent] at hmem
    split at hmem
    next hok => exact (fresh_keptFrom_iff List.drop_zero).2 (h hok) p hmem
    next => simp at hmem

end

/-- A write callback that puts the element into the reply, and keeps those that are small. -/
def fill (req a : ℕ) (reply : List ℕ) : Bool × List ℕ := (decide (a < req), reply ++ [a])

/-- Calls over a range with that write callback. -/
def filling (ranges : List ℕ) : Callbacks Unit ℕ (List ℕ) ℕ where
  initCall _ _ _ := ⟨(), ranges, .okStatus⟩
  writeCall _ req ranges it reply :=
    ⟨(), it, (fill req (ranges.getD it 0) reply).2, (fill req (ranges.getD it 0) reply).1⟩

theorem filling_computes (ranges : List ℕ) : (filling ranges).Computes fill where
  stays _ _ _ _ _ := rfl
  wrote_eq _ _ _ _ _ _ ha := by simp [filling, ha]
  reply_eq _ _ _ _ _ _ ha := by simp [filling, ha]

/-- Where no element is rejected in front of one that is kept. -/
theorem leavesNoTrace_iff_two : LeavesNoTrace (filling [2, 3, 9]) fill () 5 :=
  (leavesNoTrace_iff (filling_computes [2, 3, 9]) () 5).2 fun _ ↦ by
    simp [filling, Forgets, fill]

/-- The element 9 is rejected, and stands in the message for the element 2. -/
theorem not_leavesNoTrace : ¬ ∀ (cb : Callbacks Unit ℕ (List ℕ) ℕ) write, cb.Computes write →
    ∀ env req, LeavesNoTrace cb write env req := by
  intro hall
  have h := (Run.nil (S := serves (filling [9, 2])) rfl).snoc (.serve () 5 9 rfl rfl)
  obtain ⟨i, a, hi, ha, heq⟩ := hall _ _ (filling_computes [9, 2]) () 5 _ _ h
    (some 1, [9, 2]) (List.mem_singleton.2 rfl)
  obtain rfl := Option.some.inj hi
  obtain rfl := Option.some.inj (ha : some 2 = some a)
  exact absurd heq (by decide)

end AsyncServerStreamCall

end Cppkg.Egrpc
