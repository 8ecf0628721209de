import Cppkg.Egrpc.StreamCallbacks

/-!
# What a stream call delivers

One stream call that is served time and again, each time after its operation has completed
(`serves`). Between two calls of `serve()` the callbacks may find any environment, for other calls
run them too.

A call of a server, seen by itself, is such a run (`exists_run_serves`).

`Midway` is the invariant of the loop over the range, inside one call of `serve()` and from one to
the next: the positions handed to the write callback are those before the iterator, and the
replies it kept are written, but for one that is pending. At the end of the range it turns into
`Delivered`. Both speak of what the call has noted of its callbacks, which is what these have
returned (`tells_of_run`).
-/

namespace Cppkg.Egrpc

open Transition

namespace AsyncServerStreamCall

variable {κ REQ RES α : Type*}

namespace Event

def isDelete : Event RES α → Bool
  | .delete => true
  | _ => false

def isCreate : Event RES α → Bool
  | .create => true
  | _ => false

/-- The event issues an operation of the call. -/
def isOp : Event RES α → Bool
  | .write _ => true
  | .finish _ => true
  | _ => false

/-- The range and the status the init callback leaves. -/
def inited : Event RES α → Option (List α × Status)
  | .initCall ranges status => some (ranges, status)
  | _ => none

/-- The position handed to the write callback. -/
def position : Event RES α → Option ℕ
  | .writeCall it _ _ => some it
  | _ => none

/-- The reply of a write callback that returned true. -/
def kept : Event RES α → Option RES
  | .writeCall _ wrote reply => if wrote then some reply else none
  | _ => none

end Event

/-- One call, until it deletes itself, and what it has done. -/
structure OneCall (REQ RES α : Type*) where
  call : Option (AsyncServerStreamCall REQ α)
  events : List (Event RES α)

/-- The call is served, in an environment. -/
inductive Serves [Inhabited RES] (cb : Callbacks κ REQ RES α) (s : OneCall REQ RES α) :
    κ × REQ → OneCall REQ RES α → Prop
  | serve (env : κ) (req : REQ) {call : AsyncServerStreamCall REQ α}
      {r : Served κ (AsyncServerStreamCall REQ α) (Event RES α)} (fuel : ℕ)
      (hc : s.call = some call) (hr : serve cb fuel env (receive (op call) req call) = some r) :
      Serves cb s (env, req)
        ⟨if r.events.any Event.isDelete then none else some r.call, s.events ++ r.events⟩

/-- One call that is served time and again. -/
def serves [Inhabited REQ] [Inhabited RES] (cb : Callbacks κ REQ RES α) :
    System (OneCall REQ RES α) (κ × REQ) where
  init s := s = ⟨some new, []⟩
  step := Serves cb

/-- The call has come to position `it` of its range and was served `served` times. The replies
its write callback kept are written, but for those pending. -/
structure Midway (ranges : List α) (served it : ℕ) (pending : List RES)
    (evs : List (Event RES α)) : Prop where
  created : evs.countP Event.isCreate = 1
  inited : ∃ status : Status, status.ok = true ∧ evs.filterMap Event.inited = [(ranges, status)]
  positions : evs.filterMap Event.position = List.range it
  le_length : it ≤ ranges.length
  kept : (evs.filterMap Event.kept).map .write = evs.filter Event.isOp ++ pending.map .write
  served : (evs.filter Event.isOp).length = served

/-- The call has created its successor and run its init callback, which has left `ranges` and
`status`. When that failed, it has issued one `finish` with the status. Otherwise it has run its
write callback once on each position of the range, in order, and has issued a write for each reply
kept and then one `finish`. -/
structure Delivered (ranges : List α) (status : Status) (served : ℕ)
    (evs : List (Event RES α)) : Prop where
  created : evs.countP Event.isCreate = 1
  inited : evs.filterMap Event.inited = [(ranges, status)]
  delivered :
    if status.ok then
      evs.filterMap Event.position = List.range ranges.length ∧
      evs.filter Event.isOp = (evs.filterMap Event.kept).map .write ++ [.finish .okStatus] ∧
      served = (evs.filterMap Event.kept).length + 2
    else
      evs.filterMap Event.position = [] ∧ evs.filter Event.isOp = [.finish status] ∧ served = 2

/-- Where a call stands that was served `served` times. -/
def Stands (served : ℕ) (call : AsyncServerStreamCall REQ α) (evs : List (Event RES α)) : Prop :=
  match call.status with
  | .startup => served = 0 ∧ evs = []
  | .process => Midway call.ranges served call.it [] evs
  | .finish => ∃ ranges status, Delivered ranges status (served + 1) evs

/-! ### The loop over the range -/

namespace Midway

variable {ranges : List α} {n it : ℕ} {reply : RES} {evs : List (Event RES α)}

/-- The reply that is pending is written. -/
theorem write (hm : Midway ranges n it [reply] evs) :
    Midway ranges (n + 1) it [] (evs ++ [.write reply]) where
  created := by simp [hm.created, Event.isCreate]
  inited := by simpa [List.filterMap_cons, Event.inited] using hm.inited
  positions := by simp [hm.positions, Event.position]
  le_length := hm.le_length
  kept := by simp [hm.kept, List.filterMap_cons, List.filter_cons, Event.kept, Event.isOp]
  served := by simp [hm.served, List.filter_cons, Event.isOp]

theorem length_kept (hm : Midway ranges n it [] evs) :
    (evs.filterMap Event.kept).length = n := by
  rw [← List.length_map (f := Event.write), hm.kept]
  simp [hm.served]

/-- The end of the range. -/
theorem finish (hm : Midway ranges n ranges.length [] evs) :
    ∃ status, Delivered ranges status (n + 2) (evs ++ [.finish .okStatus]) := by
  obtain ⟨status, hok, hinited⟩ := hm.inited
  refine ⟨status, by simp [hm.created, Event.isCreate], by simp [hinited, Event.inited], ?_⟩
  rw [if_pos hok]
  refine ⟨by simp [hm.positions, Event.position], ?_, by simp [hm.length_kept, Event.kept]⟩
  simp [hm.kept, List.filterMap_cons, List.filter_cons, Event.kept, Event.isOp]

end Midway

/-- The reply that is pending. -/
def Loop.pending (l : Loop κ RES α) : List RES := if l.wrote then [l.reply] else []

/-- A write callback that does not move the iterator. -/
def Callbacks.Stays (cb : Callbacks κ REQ RES α) : Prop :=
  ∀ env req ranges it reply, (cb.writeCall env req ranges it reply).it = it

section

variable {cb : Callbacks κ REQ RES α} {call : AsyncServerStreamCall REQ α} {n fuel : ℕ} {env : κ}
  {pre events : List (Event RES α)} {l : Loop κ RES α} {ranges : List α} {req : REQ}

theorem lt_length_of_goesOn (hle : l.it ≤ ranges.length) (hgo : l.goesOn ranges = true) :
    l.it < ranges.length ∧ l.wrote = false := by
  simp only [Loop.goesOn, Bool.and_eq_true, beq_iff_eq, bne_iff_ne] at hgo
  exact ⟨Nat.lt_of_le_of_ne hle hgo.2, hgo.1⟩

/-- **One turn of the loop** hands the next element to the write callback. -/
theorem midway_next (hstay : cb.Stays)
    (hm : Midway ranges n l.it l.pending (pre ++ l.events)) (hgo : l.goesOn ranges = true) :
    Midway ranges n (l.next cb req ranges).it (l.next cb req ranges).pending
      (pre ++ (l.next cb req ranges).events) := by
  obtain ⟨hlt, hwrote⟩ := lt_length_of_goesOn hm.le_length hgo
  have hit : (l.next cb req ranges).it = l.it + 1 := by rw [Loop.next, hstay]
  have hpending : l.pending = [] := by simp [Loop.pending, hwrote]
  have hevs : pre ++ (l.next cb req ranges).events = (pre ++ l.events) ++
      [.writeCall l.it (l.next cb req ranges).wrote (l.next cb req ranges).reply] :=
    (List.append_assoc ..).symm
  have hkept := hm.kept
  rw [hpending] at hkept
  rw [hevs, hit]
  refine ⟨?_, ?_, ?_, hlt, ?_, ?_⟩
  · simpa [Event.isCreate] using hm.created
  · simpa [List.filterMap_cons, Event.inited] using hm.inited
  · rw [List.filterMap_append, hm.positions, List.range_succ]
    rfl
  · rw [List.filterMap_append, List.map_append, hkept, List.filter_append]
    cases hw : (l.next cb req ranges).wrote <;> simp [Loop.pending, hw, Event.kept, Event.isOp]
  · simpa [Event.isOp] using hm.served

theorem midway_run (hstay : cb.Stays) (hm : Midway ranges n l.it l.pending (pre ++ l.events))
    {l' : Loop κ RES α}
    (h : While.run (Loop.goesOn ranges) (Loop.next cb req ranges) fuel l = some l') :
    Midway ranges n l'.it l'.pending (pre ++ l'.events) ∧
      (l'.wrote = true ∨ l'.it = ranges.length) := by
  obtain ⟨hm', hc⟩ := While.run_invariant
    (I := fun l : Loop κ RES α ↦ Midway ranges n l.it l.pending (pre ++ l.events)) hm
    (fun _ hl hgo ↦ midway_next hstay hl hgo) h
  refine ⟨hm', ?_⟩
  simpa [Loop.goesOn, or_iff_not_imp_left] using hc

/-- **The loop over the range ends**: every turn moves the iterator on. -/
theorem isSome_run (hstay : cb.Stays) (hle : l.it ≤ ranges.length)
    (hfuel : ranges.length - l.it < fuel) :
    (While.run (Loop.goesOn ranges) (Loop.next cb req ranges) fuel l).isSome := by
  refine While.isSome_run (I := fun l : Loop κ RES α ↦ l.it ≤ ranges.length)
    (μ := fun l ↦ ranges.length - l.it) hle (fun l hle hgo ↦ ?_) hfuel
  have hlt := (lt_length_of_goesOn hle hgo).1
  have hit : (l.next cb req ranges).it = l.it + 1 := by rw [Loop.next, hstay]
  rw [hit]
  exact ⟨hlt, by omega⟩

/-! ### One call of `serve()` -/

variable [Inhabited RES] {r : Served κ (AsyncServerStreamCall REQ α) (Event RES α)}

omit [Inhabited RES] in
theorem stands_finishAtEnd (hit : call.it = call.ranges.length)
    (hm : Midway call.ranges n call.it [] (pre ++ events)) :
    Stands (n + 1) (finishAtEnd env call events).call
      (pre ++ (finishAtEnd env call events).events) := by
  rw [hit] at hm
  obtain ⟨status, hd⟩ := hm.finish
  rw [finishAtEnd, if_pos hit, ← List.append_assoc]
  exact ⟨call.ranges, status, hd⟩

theorem stands_process (hstay : cb.Stays) (hm : Midway call.ranges n call.it [] (pre ++ events))
    (h : process cb fuel env call events = some r) : Stands (n + 1) r.call (pre ++ r.events) := by
  simp only [process] at h
  split at h
  next =>
    obtain ⟨l, hl, rfl⟩ := Option.map_eq_some_iff.1 h
    obtain ⟨hm', hend⟩ := midway_run (l := ⟨env, call.it, default, false, events⟩) hstay hm hl
    cases hw : l.wrote with
    | true =>
      have hwrite := Midway.write (by simpa [Loop.pending, hw] using hm')
      simpa [Stands] using hwrite
    | false =>
      have hit : l.it = call.ranges.length := hend.resolve_left (by simp [hw])
      rw [if_neg (by simp)]
      exact stands_finishAtEnd hit (by simpa [Loop.pending, hw] using hm')
  next hit =>
    obtain rfl := Option.some.inj h
    exact stands_finishAtEnd (not_not.1 hit) hm

/-- **A call that is served** stands one operation further. -/
theorem stands_serve (hstay : cb.Stays) (hs : Stands n call pre) (hf : call.status ≠ .finish)
    (h : serve cb fuel env call = some r) : Stands (n + 1) r.call (pre ++ r.events) := by
  cases hst : call.status with
  | finish => exact absurd hst hf
  | process =>
    simp only [serve, Stands, hst] at h hs
    exact stands_process hstay (by simpa using hs) h
  | startup =>
    simp only [serve, Stands, hst] at h hs
    obtain ⟨rfl, rfl⟩ := hs
    split at h
    next hok =>
      obtain rfl := Option.some.inj h
      refine ⟨_, _, rfl, rfl, ?_⟩
      simp [hok, List.filterMap_cons, List.filter_cons, Event.position, Event.isOp]
    next hok =>
      refine stands_process hstay ⟨rfl, ⟨_, by simpa using hok, rfl⟩, ?_, Nat.zero_le _, ?_, ?_⟩ h
      · rfl
      · rfl
      · rfl

theorem isSome_process (hstay : cb.Stays) (hle : call.it ≤ call.ranges.length)
    (hfuel : call.ranges.length - call.it < fuel) :
    (process cb fuel env call events).isSome := by
  simp only [process]
  split
  · simpa using isSome_run (l := ⟨env, call.it, default, false, events⟩) hstay hle hfuel
  · rfl

/-- **`serve()` returns.** -/
theorem exists_isSome_serve (env : κ) (hstay : cb.Stays) (hs : Stands n call pre) :
    ∃ fuel, (serve cb fuel env call).isSome := by
  cases hst : call.status with
  | finish => exact ⟨0, by simp [serve, hst]⟩
  | process =>
    simp only [Stands, hst] at hs
    simp only [serve, hst]
    exact ⟨_, isSome_process hstay hs.le_length (Nat.lt_succ_self _)⟩
  | startup =>
    simp only [serve, hst]
    refine ⟨(cb.initCall env call.ranges call.req).ranges.length + 1, ?_⟩
    split
    · rfl
    · exact isSome_process hstay (Nat.zero_le _) (Nat.lt_succ_self _)

/-- A call that has not finished does not delete itself when it is served. -/
theorem any_isDelete_serve [Inhabited REQ] (hf : call.status ≠ .finish)
    (h : serve cb fuel env call = some r) : r.events.any Event.isDelete = false := by
  rw [Bool.eq_false_iff]
  intro hany
  obtain ⟨e, he, hdel⟩ := List.any_eq_true.1 hany
  cases e with
  | delete =>
    have hmem : Pool.Effect.delete ∈ effects REQ r.events := List.mem_filterMap.2 ⟨_, he, rfl⟩
    rw [effects_serve hf h] at hmem
    split at hmem <;> simp at hmem
  | _ => exact absurd hdel (by simp [Event.isDelete])

end

/-! ### Runs of `serve()` -/

section

variable {call : AsyncServerStreamCall REQ α} {n : ℕ} {ranges : List α} {status : Status}
  {evs : List (Event RES α)}

/-- Every reply kept was filled at a position of its own. -/
theorem length_kept_le (evs : List (Event RES α)) :
    (evs.filterMap Event.kept).length ≤ (evs.filterMap Event.position).length := by
  induction evs with
  | nil => exact Nat.le_refl _
  | cons e evs ih =>
    cases e with
    | writeCall it wrote reply =>
      cases wrote with
      | true => simpa [List.filterMap_cons, Event.kept, Event.position] using ih
      | false => exact Nat.le_succ_of_le ih
    | _ => exact ih

theorem mem_inited : .initCall ranges status ∈ evs ↔
    (ranges, status) ∈ evs.filterMap Event.inited := by
  refine ⟨fun h ↦ List.mem_filterMap.2 ⟨_, h, rfl⟩, fun h ↦ ?_⟩
  obtain ⟨e, he, hi⟩ := List.mem_filterMap.1 h
  cases e with
  | initCall ranges' status' =>
    obtain ⟨rfl, rfl⟩ := Prod.mk.inj (Option.some.inj hi)
    exact he
  | _ => exact absurd hi (by simp [Event.inited])

theorem Midway.le {it : ℕ} (hm : Midway ranges n it [] evs) : n ≤ ranges.length := by
  have hle := length_kept_le evs
  rw [hm.length_kept, hm.positions, List.length_range] at hle
  exact Nat.le_trans hle hm.le_length

theorem Delivered.mem (hd : Delivered ranges status n evs) : .initCall ranges status ∈ evs :=
  mem_inited.2 (by simp [hd.inited])

theorem Delivered.eq_of_mem (hd : Delivered ranges status n evs) {ranges' : List α}
    {status' : Status} (hi : .initCall ranges' status' ∈ evs) :
    ranges' = ranges ∧ status' = status := by
  rw [mem_inited, hd.inited, List.mem_singleton] at hi
  exact Prod.mk.inj hi

theorem Delivered.le (hd : Delivered ranges status n evs) : n ≤ ranges.length + 2 := by
  have hd := hd.delivered
  split at hd
  · obtain ⟨hpos, -, rfl⟩ := hd
    have hle := length_kept_le evs
    rw [hpos, List.length_range] at hle
    exact Nat.add_le_add_right hle 2
  · obtain ⟨-, -, rfl⟩ := hd
    exact Nat.le_add_left 2 _

/-- The deletion of a call delivers nothing. -/
theorem Delivered.delete (hd : Delivered ranges status n evs) :
    Delivered ranges status n (evs ++ [.delete]) where
  created := by simpa [Event.isCreate] using hd.created
  inited := by simpa [List.filterMap_cons, Event.inited] using hd.inited
  delivered := by
    simpa [List.filterMap_cons, List.filter_cons, Event.position, Event.kept, Event.isOp]
      using hd.delivered

/-- What the callbacks of the call have returned, when these are noted truly. -/
theorem Delivered.of_tells [Inhabited RES] {cb : Callbacks κ REQ RES α} {a : κ × REQ}
    (hd : Delivered ranges status n evs) (ht : Tells cb a evs) :
    Delivered (cb.inited a).ranges (cb.inited a).status n evs := by
  obtain ⟨rfl, rfl⟩ := ht.eq_inited hd.mem
  exact hd

namespace Stands

theorem le (hs : Stands n call evs) (hi : .initCall ranges status ∈ evs) :
    n ≤ ranges.length + 2 := by
  cases hst : call.status with
  | startup =>
    simp only [Stands, hst] at hs
    simp [hs]
  | process =>
    simp only [Stands, hst] at hs
    obtain ⟨status', -, hinited⟩ := hs.inited
    rw [mem_inited, hinited, List.mem_singleton] at hi
    obtain ⟨rfl, -⟩ := Prod.mk.inj hi
    exact Nat.le_add_right_of_le hs.le
  | finish =>
    simp only [Stands, hst] at hs
    obtain ⟨_, _, hd⟩ := hs
    obtain ⟨rfl, rfl⟩ := hd.eq_of_mem hi
    exact Nat.le_of_succ_le hd.le

theorem exists_inited (hs : Stands (n + 1) call evs) :
    ∃ ranges status, .initCall ranges status ∈ evs := by
  cases hst : call.status with
  | startup =>
    simp only [Stands, hst] at hs
    exact absurd hs.1 (Nat.succ_ne_zero n)
  | process =>
    simp only [Stands, hst] at hs
    obtain ⟨status, -, hinited⟩ := hs.inited
    exact ⟨call.ranges, status, mem_inited.2 (by simp [hinited])⟩
  | finish =>
    simp only [Stands, hst] at hs
    obtain ⟨ranges, status, hd⟩ := hs
    exact ⟨ranges, status, hd.mem⟩

theorem receive (hs : Stands n call evs) (o : Op) (req : REQ) :
    Stands n (receive o req call) evs := by
  cases o <;> exact hs

end Stands

end

section

variable [Inhabited REQ] [Inhabited RES] {cb : Callbacks κ REQ RES α}
  {s s' : OneCall REQ RES α} {tr : List (κ × REQ)} {a : κ × REQ}

/-- The invariant of a run of `serve()` calls. -/
def Delivering (tr : List (κ × REQ)) (s : OneCall REQ RES α) : Prop :=
  match s.call with
  | some call => Stands tr.length call s.events
  | none => ∃ ranges status, Delivered ranges status tr.length s.events

omit [Inhabited REQ] in
theorem Serves.of_finish {call : AsyncServerStreamCall REQ α} (hstep : Serves cb s a s')
    (hcall : s.call = some call) (hf : call.status = .finish) :
    s' = ⟨none, s.events ++ [.delete]⟩ := by
  cases hstep with
  | @serve env req call' r fuel hc hr =>
    obtain rfl := Option.some.inj (hcall.symm.trans hc)
    obtain rfl := eq_of_serve_finish ((status_receive _ req).trans hf) hr
    rfl

theorem Serves.of_ne_finish {call : AsyncServerStreamCall REQ α} (hstay : cb.Stays)
    (hstep : Serves cb s a s') (hcall : s.call = some call) (hf : call.status ≠ .finish)
    (hs : Stands n call s.events) :
    ∃ call', s'.call = some call' ∧ Stands (n + 1) call' s'.events := by
  cases hstep with
  | @serve env req call' r fuel hc hr =>
    obtain rfl := Option.some.inj (hcall.symm.trans hc)
    have hf' : (AsyncServerStreamCall.receive (op call) req call).status ≠ .finish := by
      rwa [status_receive]
    refine ⟨r.call, ?_, stands_serve hstay (hs.receive _ req) hf' hr⟩
    simp [any_isDelete_serve hf' hr]

theorem Delivering.step (hstay : cb.Stays) (hd : Delivering tr s) (hstep : Serves cb s a s') :
    Delivering (tr ++ [a]) s' := by
  obtain ⟨call, hcall⟩ : ∃ call, s.call = some call := by
    cases hstep with
    | serve _ _ _ hc _ => exact ⟨_, hc⟩
  simp only [Delivering, hcall] at hd
  by_cases hf : call.status = .finish
  · obtain rfl := hstep.of_finish hcall hf
    simp only [Stands, hf] at hd
    obtain ⟨ranges, status, hd⟩ := hd
    exact ⟨ranges, status, by simpa using hd.delete⟩
  · obtain ⟨call', hcall', hs⟩ := hstep.of_ne_finish hstay hcall hf hd
    simpa [Delivering, hcall'] using hs

theorem delivering_of_run (hstay : cb.Stays) (h : Run (serves cb) tr s) : Delivering tr s := by
  induction h with
  | nil hi =>
    obtain rfl := hi
    exact ⟨rfl, rfl⟩
  | snoc _ hstep ih => exact ih.step hstay hstep

omit [Inhabited REQ] in
/-- A call that is not deleted can be served again. -/
theorem Stands.exists_serves {call : AsyncServerStreamCall REQ α} (hstay : cb.Stays)
    (hs : Stands n call s.events) (hcall : s.call = some call) (a : κ × REQ) :
    ∃ s', Serves cb s a s' := by
  obtain ⟨fuel, hsome⟩ := exists_isSome_serve a.1 hstay (hs.receive (op call) a.2)
  obtain ⟨r, hr⟩ := Option.isSome_iff_exists.1 hsome
  exact ⟨_, .serve a.1 a.2 fuel hcall hr⟩

omit [Inhabited REQ] [Inhabited RES] in
/-- A run does not go on for longer than the range allows. -/
theorem Delivering.le {ranges : List α} {status : Status} (hd : Delivering tr s)
    (hi : .initCall ranges status ∈ s.events) : tr.length ≤ ranges.length + 2 := by
  cases hcall : s.call with
  | some call =>
    simp only [Delivering, hcall] at hd
    exact hd.le hi
  | none =>
    simp only [Delivering, hcall] at hd
    obtain ⟨_, _, hd⟩ := hd
    obtain ⟨rfl, rfl⟩ := hd.eq_of_mem hi
    exact hd.le

omit [Inhabited REQ] [Inhabited RES] in
/-- The first `serve()` runs the init callback. -/
theorem Delivering.exists_inited {b : κ × REQ} (hd : Delivering (b :: tr) s) :
    ∃ ranges status, .initCall ranges status ∈ s.events := by
  cases hcall : s.call with
  | some call =>
    simp only [Delivering, hcall] at hd
    exact Stands.exists_inited hd
  | none =>
    simp only [Delivering, hcall] at hd
    obtain ⟨ranges, status, hd⟩ := hd
    exact ⟨ranges, status, hd.mem⟩

/-- What has been told when the call was first served with `a`. -/
def Recounts (cb : Callbacks κ REQ RES α) (a : κ × REQ) (s : OneCall REQ RES α) : Prop :=
  match s.call with
  | some call => Telling cb a call s.events
  | none => Tells cb a s.events

omit [Inhabited REQ] in
theorem Recounts.tells {b : κ × REQ} (hs : Recounts cb b s) : Tells cb b s.events := by
  cases hcall : s.call with
  | none => simpa only [Recounts, hcall] using hs
  | some call =>
    simp only [Recounts, hcall] at hs
    cases hst : call.status with
    | startup => simp only [Telling, hst] at hs
    | process =>
      simp only [Telling, hst] at hs
      exact ⟨b.1, default, hs.2.2 b.1⟩
    | finish => simpa only [Telling, hst] using hs

theorem Recounts.step {b : κ × REQ} (hs : Recounts cb b s) (hstep : Serves cb s a s') :
    Recounts cb b s' := by
  cases hstep with
  | @serve env req call r fuel hc hr =>
    simp only [Recounts, hc] at hs
    by_cases hf : call.status = .finish
    · obtain rfl := eq_of_serve_finish ((status_receive _ req).trans hf) hr
      simp only [Telling, hf] at hs
      obtain ⟨env', given, htold⟩ := hs
      exact ⟨env', given, htold.delete⟩
    · have heq : AsyncServerStreamCall.receive (op call) req call = call := by
        cases hst : call.status with
        | startup => simp only [Telling, hst] at hs
        | finish => exact absurd hst hf
        | process => simp [op, hst, AsyncServerStreamCall.receive]
      rw [heq] at hr
      simpa [Recounts, any_isDelete_serve hf hr] using hs.serve hf hr

/-- **The run invariant of the callbacks**: they are told truly, for the environment and the
request that the call was first served with. -/
theorem recounts_of_run (h : Run (serves cb) tr s) :
    (tr = [] ∧ s = ⟨some new, []⟩) ∨ ∃ b tr', tr = b :: tr' ∧ Recounts cb b s := by
  induction h with
  | nil hi => exact .inl ⟨rfl, hi⟩
  | @snoc tr s s' a _ hstep ih =>
    obtain ⟨rfl, rfl⟩ | ⟨b, tr', rfl, hs⟩ := ih
    · cases hstep with
      | @serve env req call r fuel hc hr =>
        obtain rfl := Option.some.inj hc
        refine .inr ⟨(env, req), [], rfl, ?_⟩
        simpa [Recounts, any_isDelete_serve (by simp [new]) hr] using
          telling_serve_new (a := (env, req)) hr
    · exact .inr ⟨b, tr' ++ [a], rfl, hs.step hstep⟩

theorem tells_of_run (h : Run (serves cb) tr s) (d : κ × REQ) :
    Tells cb (tr.headD d) s.events := by
  obtain ⟨rfl, rfl⟩ | ⟨b, tr', rfl, hs⟩ := recounts_of_run h
  · exact ⟨d.1, default, .nil⟩
  · exact hs.tells

end

section

variable [Inhabited REQ] [Inhabited RES] {cb : Callbacks κ REQ RES α}
  {s s' : StreamServer κ REQ RES α} {h k : ℕ} {o : Op} {ok : Bool} {req : REQ}
  {tr : List (Server.Action Op REQ)}

/-- What is seen of a call of a server. -/
def seen (s : StreamServer κ REQ RES α) (k : ℕ) : OneCall REQ RES α :=
  ⟨s.pool.object k, s.events k⟩

/-- What a call that is served does to the pool. -/
theorem perform_serve {p : Pool (AsyncServerStreamCall REQ α) Op} {fuel : ℕ} {env : κ}
    {call : AsyncServerStreamCall REQ α} {r : Served κ (AsyncServerStreamCall REQ α) (Event RES α)}
    (hr : serve cb fuel env call = some r) :
    p.perform h (effects REQ r.events) =
      match call.status with
      | .startup => ((p.create new).issue p.next .request).issue h (op r.call)
      | .process => p.issue h (op r.call)
      | .finish => p.delete h := by
  cases hst : call.status with
  | startup =>
    rw [effects_serve (by simp [hst]) hr, if_pos hst]
    rfl
  | process =>
    rw [effects_serve (by simp [hst]) hr, if_neg (by simp [hst])]
    rfl
  | finish =>
    obtain rfl := eq_of_serve_finish hst hr
    rfl

theorem Attended.lt_next (hs : Attended s)
    (hstep : Server.Step (kind cb) s (.complete h o ok req) s') : h < s.pool.next := by
  cases hstep with
  | serve _ fuel ho hcall hr => exact hs.balanced.lt_next h (by simp [hcall])
  | shutdown _ ho hcall => exact hs.balanced.lt_next h (by simp [hcall])

/-- The call whose operation completes is served, with the request the completion has written. -/
theorem serves_seen_record (hs : Attended s) {fuel : ℕ} {call : AsyncServerStreamCall REQ α}
    {r : Served κ (AsyncServerStreamCall REQ α) (Event RES α)}
    (ho : (h, o) ∈ s.pool.inflight) (hcall : s.pool.object h = some call)
    (hr : serve cb fuel s.env (receive o req call) = some r) :
    Serves cb (seen s h) (s.env, req) (seen (Server.record (kind cb)
      { s with pool := (s.pool.complete (h, o)).put h r.call, env := r.env } h r.events) h) := by
  have hne : h ≠ s.pool.next := (hs.balanced.lt_next h (by simp [hcall])).ne
  obtain rfl := hs.matches_op h o call ho hcall
  have hobject : (((s.pool.complete (h, op call)).put h r.call).perform h
      (effects REQ r.events)).object h =
        if r.events.any Event.isDelete then none else some r.call := by
    rw [perform_serve hr, status_receive]
    cases hst : call.status with
    | startup =>
      rw [any_isDelete_serve (by simp [hst]) hr]
      simp [Pool.create, Pool.issue, Pool.put, Pool.complete, hne]
    | process =>
      rw [any_isDelete_serve (by simp [hst]) hr]
      simp [Pool.issue, Pool.put]
    | finish =>
      obtain rfl := eq_of_serve_finish ((status_receive _ req).trans hst) hr
      simp [Pool.delete, Event.isDelete]
  have hserve : Serves cb (seen s h) (s.env, req) _ := .serve s.env req fuel hcall hr
  rw [← hobject] at hserve
  unfold seen
  rw [Server.events_record, if_pos rfl]
  exact hserve

theorem serves_seen (hs : Attended s)
    (hstep : Server.Step (kind cb) s (.complete h o true req) s') :
    Serves cb (seen s h) (s.env, req) (seen s' h) := by
  cases hstep with
  | serve _ fuel ho hcall hr => exact serves_seen_record hs ho hcall hr

theorem next_le_of_step {a : Server.Action Op REQ} (hstep : Server.Step (kind cb) s a s') :
    s.pool.next ≤ s'.pool.next := by
  cases hstep with
  | @serve h o _ r _ _ _ _ _ =>
    exact Pool.next_le_perform ((s.pool.complete (h, o)).put h r.call) h _
  | @shutdown h o call req _ _ =>
    exact Pool.next_le_perform ((s.pool.complete (h, o)).put h (receive o req call)) h _

/-- The other calls are not changed, but for those that are created. -/
theorem seen_of_ne (hstep : Server.Step (kind cb) s (.complete h o ok req) s') (hk : k ≠ h) :
    s'.events k = s.events k ∧
      (k < s.pool.next → s'.pool.object k = s.pool.object k) ∧
      (s.pool.next ≤ k → k < s'.pool.next → s'.pool.object k = some new) := by
  obtain ⟨c, evs, hpool, hevents⟩ : ∃ c evs,
      s'.pool = ((s.pool.complete (h, o)).put h c).perform h (effects REQ evs) ∧
      s'.events k = s.events k ++ if k = h then evs else [] := by
    cases hstep with
    | serve _ fuel ho hcall hr => exact ⟨_, _, rfl, Server.events_record⟩
    | shutdown _ ho hcall => exact ⟨_, _, rfl, Server.events_record⟩
  rw [if_neg hk, List.append_nil] at hevents
  rw [hpool]
  refine ⟨hevents, fun hlt ↦ ?_, fun hle hlt ↦ ?_⟩
  · refine (Pool.object_perform (p := (s.pool.complete (h, o)).put h c) _ hk hlt).trans ?_
    simp [Pool.put, hk]
  · obtain ⟨c', o', hmem, hobject⟩ :=
      Pool.exists_spawn_of_perform (p := (s.pool.complete (h, o)).put h c) hk hle hlt
    obtain ⟨e, -, he⟩ := List.mem_filterMap.1 hmem
    cases e with
    | create =>
      obtain ⟨rfl, -⟩ := Pool.Effect.spawn.inj (Option.some.inj he)
      exact hobject
    | _ => simp [Event.effect] at he

/-- No operation of call `k` fails, and no other call is shut down in mid-stream. -/
def Spares (k : ℕ) (a : Server.Action Op REQ) : Prop :=
  Graceful a ∧ ∀ o req, a ≠ .complete k o false req

/-- **Every call of a server, seen by itself, is served time and again**, in every run that spares
it, and first with the request that it has accepted. -/
theorem exists_run_serves
    (hr : Run ((Server.system (kind cb)).restrict fun _ ↦ Spares k) tr s) :
    (k < s.pool.next → ∃ tr', Run (serves cb) tr' (seen s k) ∧
      ∀ a tr'', tr' = a :: tr'' → .complete k .request true a.2 ∈ tr) ∧
      (s.pool.next ≤ k → s.events k = []) := by
  induction hr with
  | nil hi =>
    obtain ⟨env, rfl⟩ := hi
    refine ⟨fun hk ↦ ⟨[], .nil ?_, fun _ _ h ↦ by cases h⟩, fun _ ↦ rfl⟩
    obtain rfl := Nat.lt_one_iff.1 hk
    rfl
  | @snoc tr s s' a hr hstep ih =>
    obtain ⟨hstep, hgraceful, hfail⟩ := hstep
    have hs : Attended s := attended_of_run (hr.mono fun _ _ ha ↦ ha.1)
    obtain ⟨h, o, ok, req⟩ := a
    have hlt := hs.lt_next hstep
    have hnext := next_le_of_step hstep
    by_cases hk : k = h
    · subst hk
      obtain rfl : ok = true := by
        cases ok with
        | true => rfl
        | false => exact absurd rfl (hfail o req)
      obtain ⟨tr', htr', hfirst⟩ := ih.1 hlt
      refine ⟨fun _ ↦ ⟨_, htr'.snoc (serves_seen hs hstep), fun a tr'' htr ↦ ?_⟩,
        fun hle ↦ absurd hlt (Nat.not_lt.2 (Nat.le_trans hnext hle))⟩
      cases tr' with
      | cons b tr' =>
        obtain rfl : b = a := (List.cons.inj htr).1
        exact List.mem_append_left _ (hfirst b tr' rfl)
      | nil =>
        -- a call that was not served yet waits for its request
        obtain rfl : (s.env, req) = a := (List.cons.inj htr).1
        have hnew : seen s k = ⟨some new, []⟩ :=
          (recounts_of_run htr').elim And.right fun ⟨_, _, hnil, _⟩ ↦ by cases hnil
        cases hstep with
        | serve _ fuel ho hcall hserve =>
          obtain rfl : o = .request := hs.matches_op k o new ho (congrArg OneCall.call hnew)
          exact List.mem_append_right _ (List.mem_singleton_self _)
    · obtain ⟨hevents, hold, hnew⟩ := seen_of_ne hstep hk
      refine ⟨fun hlt' ↦ ?_, fun hle ↦ ?_⟩
      · rcases Nat.lt_or_ge k s.pool.next with hlt | hle
        · rw [seen, hevents, hold hlt]
          obtain ⟨tr', htr', hfirst⟩ := ih.1 hlt
          exact ⟨tr', htr', fun a tr'' htr ↦ List.mem_append_left _ (hfirst a tr'' htr)⟩
        · rw [seen, hevents, hnew hle hlt', ih.2 hle]
          exact ⟨[], .nil rfl, fun _ _ h ↦ by cases h⟩
      · rw [hevents]
        exact ih.2 (Nat.le_trans hnext hle)

/-- A call of a server that was deleted has accepted a request and delivered the range that its
init callback has left for it. -/
theorem delivered_of_deleted (hstay : cb.Stays)
    (hr : Run ((Server.system (kind cb)).restrict fun _ ↦ Spares k) tr s)
    (hk : k ∈ s.pool.deleted) :
    ∃ env req served, .complete k .request true req ∈ tr ∧ Tells cb (env, req) (s.events k) ∧
      Delivered (cb.inited (env, req)).ranges (cb.inited (env, req)).status served
        (s.events k) := by
  have hs : Attended s := attended_of_run (hr.mono fun _ _ ha ↦ ha.1)
  obtain ⟨hlt, hnone⟩ := (hs.balanced.mem_deleted k).1 hk
  obtain ⟨tr', htr', hfirst⟩ := (exists_run_serves hr).1 hlt
  have hd := delivering_of_run hstay htr'
  simp only [Delivering, seen, hnone] at hd
  obtain ⟨ranges, status, hd⟩ := hd
  obtain ⟨-, hnew⟩ | ⟨a, tr'', rfl, hrecounts⟩ := recounts_of_run htr'
  · exact absurd ((congrArg OneCall.call hnew).symm.trans hnone) (Option.some_ne_none _)
  · exact ⟨a.1, a.2, _, hfirst a tr'' rfl, hrecounts.tells, hd.of_tells hrecounts.tells⟩

end

end AsyncServerStreamCall

end Cppkg.Egrpc
