import Cppkg.Lib.Pool
import Cppkg.Lib.Transition

/-!
# Server calls and their driver

A server is a pool of calls (`iServerCall` of `iserver_async.h`) and the operations they have in
flight. The driver takes any operation in flight, completes it with `ok` true or false, and calls
`serve()` on its tag when it is ok and `shutdown()` when it is not, as the loops over the
completion queue in the tests of the repository do.

`CallKind` is what the driver needs of a kind of call; the unary and the stream call are two of
them. The callbacks of a call may read and change an environment, which all calls share. What a
call does is a list of events; those that create a call, issue an operation or delete the call
are effects on the pool. A tag whose call was deleted must not be completed: there is no step.
-/

namespace Cppkg.Egrpc

open Transition

/-- What a `serve()` leaves behind: the environment, the call and what it did. -/
structure Served (κ C E : Type*) where
  env : κ
  call : C
  events : List E

/-- A kind of server call: `κ` is the environment of its callbacks, `R` its requests, `C` its
state, `O` its operations, `E` its events. -/
structure CallKind (κ R C O E : Type*) where
  /-- What the completion of an operation writes to the call. -/
  receive : O → R → C → C
  /-- `serve`, with fuel for its loops. -/
  serve : ℕ → κ → C → Option (Served κ C E)
  /-- `shutdown`. -/
  shutdown : C → List E
  /-- The effect of an event on the pool, if it has one. -/
  effect : E → Option (Pool.Effect C O)
  /-- The call the server is started with, and its operation. -/
  first : C × O

/-- A server. -/
structure Server (κ C O E : Type*) where
  pool : Pool C O
  env : κ
  /-- What the calls have done, in order. -/
  log : List (ℕ × E)

namespace Server

variable {κ R C O E : Type*} (K : CallKind κ R C O E)

/-- The server is started with one call. -/
def start (env : κ) : Server κ C O E where
  pool := Pool.empty.perform 0 [.spawn K.first.1 K.first.2]
  env := env
  log := []

/-- The call with number `h` has done something. -/
def record (s : Server κ C O E) (h : ℕ) (events : List E) : Server κ C O E :=
  { s with
    pool := s.pool.perform h (events.filterMap K.effect)
    log := s.log ++ events.map (h, ·) }

/-- An operation of call `h` completes, with `ok` true or false. If it is a wait for a request, it
writes `req`. -/
inductive Action (O R : Type*) where
  | complete (h : ℕ) (o : O) (ok : Bool) (req : R)

/-- The driver completes an operation in flight. -/
inductive Step [BEq O] (s : Server κ C O E) : Action O R → Server κ C O E → Prop
  | serve {h : ℕ} {o : O} {call : C} {r : Served κ C E} (req : R) (fuel : ℕ)
      (ho : (h, o) ∈ s.pool.inflight) (hc : s.pool.object h = some call)
      (hr : K.serve fuel s.env (K.receive o req call) = some r) :
      Step s (.complete h o true req)
        (record K { s with pool := (s.pool.complete (h, o)).put h r.call, env := r.env } h r.events)
  | shutdown {h : ℕ} {o : O} {call : C} (req : R) (ho : (h, o) ∈ s.pool.inflight)
      (hc : s.pool.object h = some call) :
      Step s (.complete h o false req)
        (record K { s with pool := (s.pool.complete (h, o)).put h (K.receive o req call) } h
          (K.shutdown (K.receive o req call)))

/-- A server and its driver. -/
def system [BEq O] : System (Server κ C O E) (Action O R) where
  init s := ∃ env, s = start K env
  step := Step K

/-- The events of a call, in order. -/
def events (s : Server κ C O E) (h : ℕ) : List E :=
  s.log.filterMap fun e ↦ if e.1 = h then some e.2 else none

/-- **The lifetime of the calls is safe.** Every live call has exactly one operation in flight,
and no operation in flight carries the tag of a call that was deleted. -/
structure Safe (s : Server κ C O E) : Prop where
  one_op : ∀ k, (s.pool.object k).isSome → s.pool.tags.count k = 1
  live : ∀ k o, (k, o) ∈ s.pool.inflight → (s.pool.object k).isSome ∧ k ∉ s.pool.deleted

theorem Safe.of_balanced {s : Server κ C O E} (hb : s.pool.Balanced ∅) : s.Safe where
  one_op k hk := hb.count_tags hk (Set.notMem_empty k)
  live k o ho := by
    have hlive := hb.live ho
    refine ⟨hlive, fun hd ↦ ?_⟩
    simp [((hb.mem_deleted k).1 hd).2] at hlive

/-! ### What a completion does to the pool -/

section

variable {K} {s : Server κ C O E} {h k : ℕ} {o : O} {call : C} {env : κ} {evs : List E}
  {kind : C → O}

@[simp] theorem events_start (env : κ) : (start K env).events h = [] := rfl

theorem events_record :
    (record K s h evs).events k = s.events k ++ if k = h then evs else [] := by
  simp only [events, record, List.filterMap_append, List.filterMap_map]
  congr 1
  by_cases hk : k = h
  · subst hk
    simp
  · simp [hk, Ne.symm hk]

theorem balanced_start (env : κ) : (start K env).pool.Balanced ∅ := Pool.Balanced.empty.spawn _ _

theorem matches_start (env : κ) (hfirst : K.first.2 = kind K.first.1) :
    (start K env).pool.Matches kind := by
  have hm := Pool.Matches.spawn (Pool.Matches.empty : Pool.empty.Matches kind)
    Pool.Balanced.empty K.first.1
  rwa [← hfirst] at hm

variable [BEq O] [LawfulBEq O]

/-- **A completion balances the pool**, when exactly one event brings the call to rest. -/
theorem balanced_record (hb : s.pool.Balanced ∅) (ho : (h, o) ∈ s.pool.inflight)
    (hes : Pool.rests (evs.filterMap K.effect) = 1) :
    (record K { s with pool := (s.pool.complete (h, o)).put h call, env := env } h
      evs).pool.Balanced ∅ := by
  have hput := (hb.complete ho).put (hb.live ho) call
  have hdone := hput.perform (Set.mem_insert h ∅) hes
  rwa [Set.insert_sdiff_self_of_notMem (Set.notMem_empty h)] at hdone

theorem matches_record (hb : s.pool.Balanced ∅) (hm : s.pool.Matches kind)
    (ho : (h, o) ∈ s.pool.inflight) (hes : Pool.rests (evs.filterMap K.effect) = 1)
    (hfits : ∀ e ∈ evs.filterMap K.effect, e.Fits kind call) :
    (record K { s with pool := (s.pool.complete (h, o)).put h call, env := env } h
      evs).pool.Matches kind :=
  (hm.complete_put hb ho call).perform ((hb.complete ho).put (hb.live ho) call)
    (Set.mem_insert h ∅) (by simp [Pool.put]) hfits hes

end

end Server

end Cppkg.Egrpc
