import Cppkg.Egrpc.ServerAsyncStream

/-!
# What the callbacks of a stream call have returned

A stream call notes what its callbacks return (`Event.initCall`, `Event.writeCall`). `Told` says
what such a note is worth: the init callback has been run on the request that was accepted and an
empty range, the write callback on that request, the range that the init callback has left, and the
reply that the element before has left if it was rejected, and these are their results.

`Telling` is the invariant of a call that is served time and again. Between two calls of `serve()`
the environment of the callbacks may change in any way, for other calls run them too.
-/

namespace Cppkg.Egrpc

namespace AsyncServerStreamCall

variable {κ REQ RES α : Type*} [Inhabited RES]

/-- What the init callback returns to a new call, in an environment and for a request. -/
def Callbacks.inited (cb : Callbacks κ REQ RES α) (a : κ × REQ) : Inited κ α :=
  cb.initCall a.1 [] a.2

/-- A call that was first served in the environment `a.1`, with the request `a.2`, has done `evs`,
and every callback in it has returned what is noted. The next write callback is to find the
environment `env` and to be handed the reply `given`. -/
inductive Told (cb : Callbacks κ REQ RES α) (a : κ × REQ) :
    κ → RES → List (Event RES α) → Prop
  | nil : Told cb a a.1 default []
  | initCall : Told cb a (cb.inited a).env default
      [.create, .initCall (cb.inited a).ranges (cb.inited a).status]
  | writeCall {env : κ} {given : RES} {evs : List (Event RES α)} {r : Wrote κ RES} (it : ℕ)
      (h : Told cb a env given evs)
      (hr : cb.writeCall env a.2 (cb.inited a).ranges it given = r) :
      Told cb a r.env r.reply (evs ++ [.writeCall it r.wrote r.reply])
  /-- The reply is written. The next `serve()` finds any environment, and starts with a new one. -/
  | write {env : κ} {given : RES} {evs : List (Event RES α)} (env' : κ)
      (h : Told cb a env given evs) : Told cb a env' default (evs ++ [.write given])
  | finish {env : κ} {given : RES} {evs : List (Event RES α)} (status : Status)
      (h : Told cb a env given evs) : Told cb a env given (evs ++ [.finish status])
  | delete {env : κ} {given : RES} {evs : List (Event RES α)} (h : Told cb a env given evs) :
      Told cb a env given (evs ++ [.delete])

/-- Every callback in `evs` has returned what is noted, for a call that was first served in the
environment `a.1`, with the request `a.2`. -/
def Tells (cb : Callbacks κ REQ RES α) (a : κ × REQ) (evs : List (Event RES α)) : Prop :=
  ∃ env given, Told cb a env given evs

/-- A call that was first served with `a`, between two calls of `serve()`. -/
def Telling (cb : Callbacks κ REQ RES α) (a : κ × REQ) (call : AsyncServerStreamCall REQ α)
    (evs : List (Event RES α)) : Prop :=
  match call.status with
  | .startup => False
  | .process => call.req = a.2 ∧ call.ranges = (cb.inited a).ranges ∧
      ∀ env, Told cb a env default evs
  | .finish => Tells cb a evs

section

variable {cb : Callbacks κ REQ RES α} {a : κ × REQ} {call : AsyncServerStreamCall REQ α}
  {env : κ} {given : RES} {pre events evs : List (Event RES α)} {fuel : ℕ}
  {r : Served κ (AsyncServerStreamCall REQ α) (Event RES α)}

/-- The init callback is run once, in front of everything else. -/
theorem Told.eq_inited (h : Told cb a env given evs) {ranges : List α} {status : Status}
    (hi : .initCall ranges status ∈ evs) :
    ranges = (cb.inited a).ranges ∧ status = (cb.inited a).status := by
  induction h with
  | nil => simp at hi
  | initCall => simpa using hi
  | writeCall _ _ _ ih | write _ _ ih | finish _ _ ih | delete _ ih => exact ih (by simpa using hi)

theorem Tells.eq_inited (h : Tells cb a evs) {ranges : List α} {status : Status}
    (hi : .initCall ranges status ∈ evs) :
    ranges = (cb.inited a).ranges ∧ status = (cb.inited a).status := by
  obtain ⟨_, _, h⟩ := h
  exact h.eq_inited hi

/-- What a call does when it is shut down is up to no callback. -/
theorem Tells.shutdown (h : Tells cb a evs) (call : AsyncServerStreamCall REQ α) :
    Tells cb a (evs ++ call.shutdown) := by
  obtain ⟨env, given, h⟩ := h
  unfold AsyncServerStreamCall.shutdown
  split
  · refine ⟨env, given, ?_⟩
    rw [← List.append_assoc]
    exact (h.finish _).delete
  · exact ⟨env, given, h.delete⟩

/-- **One turn of the loop** notes what the write callback returns. -/
theorem told_next {l : Loop κ RES α} (h : Told cb a l.env l.reply (pre ++ l.events)) :
    Told cb a (l.next cb a.2 (cb.inited a).ranges).env (l.next cb a.2 (cb.inited a).ranges).reply
      (pre ++ (l.next cb a.2 (cb.inited a).ranges).events) := by
  rw [Loop.next, ← List.append_assoc]
  exact h.writeCall l.it rfl

theorem telling_finishAtEnd (hit : call.it = call.ranges.length)
    (h : Told cb a env given (pre ++ events)) :
    Telling cb a (finishAtEnd env call events).call
      (pre ++ (finishAtEnd env call events).events) := by
  rw [finishAtEnd, if_pos hit, ← List.append_assoc]
  exact ⟨env, given, h.finish _⟩

theorem telling_process (hreq : call.req = a.2) (hranges : call.ranges = (cb.inited a).ranges)
    (h : Told cb a env default (pre ++ events)) (hr : process cb fuel env call events = some r) :
    Telling cb a r.call (pre ++ r.events) := by
  simp only [process] at hr
  split at hr
  next =>
    obtain ⟨l, hl, rfl⟩ := Option.map_eq_some_iff.1 hr
    rw [hreq, hranges] at hl
    obtain ⟨htold, hend⟩ := While.run_invariant
      (I := fun l : Loop κ RES α ↦ Told cb a l.env l.reply (pre ++ l.events)) h
      (fun _ hl _ ↦ told_next hl) hl
    cases hw : l.wrote with
    | true =>
      rw [if_pos rfl, ← List.append_assoc]
      exact ⟨hreq, hranges, fun env' ↦ htold.write env'⟩
    | false =>
      have hit : l.it = call.ranges.length := by simpa [Loop.goesOn, hw, hranges] using hend
      rw [if_neg Bool.false_ne_true]
      exact telling_finishAtEnd hit htold
  next hit =>
    obtain rfl := Option.some.inj hr
    exact telling_finishAtEnd (not_not.1 hit) h

/-- **A call that is served** notes what its callbacks return. -/
theorem Telling.serve (ht : Telling cb a call pre) (hf : call.status ≠ .finish)
    (hr : serve cb fuel env call = some r) : Telling cb a r.call (pre ++ r.events) := by
  cases hst : call.status with
  | startup => simp only [Telling, hst] at ht
  | finish => exact absurd hst hf
  | process =>
    simp only [AsyncServerStreamCall.serve, Telling, hst] at hr ht
    obtain ⟨hreq, hranges, htold⟩ := ht
    exact telling_process hreq hranges (by simpa using htold env) hr

/-- The first call of `serve()` runs the init callback. -/
theorem telling_serve_new [Inhabited REQ]
    (hr : serve cb fuel a.1 (receive .request a.2 new) = some r) :
    Telling cb a r.call r.events := by
  have hnew : receive .request a.2 new =
      (⟨a.2, [], 0, .startup⟩ : AsyncServerStreamCall REQ α) := rfl
  rw [hnew] at hr
  simp only [AsyncServerStreamCall.serve] at hr
  split at hr
  next =>
    obtain rfl := Option.some.inj hr
    exact ⟨_, _, Told.initCall.finish _⟩
  next => exact telling_process rfl rfl (show Told cb a _ _ ([] ++ _) from .initCall) hr

end

end AsyncServerStreamCall

end Cppkg.Egrpc
