import Mathlib.Algebra.BigOperators.Group.List.Basic
import Mathlib.Algebra.GroupWithZero.Nat
import Mathlib.Data.List.Nodup
import Mathlib.Logic.Function.Basic
import Mathlib.Order.BooleanAlgebra.Set

/-!
# Objects that wait for their operations

A pool of objects that are created, issue operations and delete themselves, and the operations in
flight, each tagged with the object that issued it. Objects are numbered by their creation.

A pool is `Balanced` when every live object has exactly one operation in flight, those at work
(`busy`) excepted, which have none, and no operation in flight belongs to an object that is gone.
The completion of an operation makes its object busy; a busy object comes to rest by issuing an
operation or by deleting itself. What an object does at a completion is a list of `Effect`s, and
the pool is balanced again when exactly one of them brings it to rest (`Balanced.perform`).
-/

open Function

/-- Live objects, operations in flight with their tags, and the objects deleted. -/
structure Pool (C O : Type*) where
  /-- The live objects. -/
  object : ℕ → Option C
  /-- The number of the next object. -/
  next : ℕ
  inflight : List (ℕ × O)
  deleted : List ℕ

namespace Pool

variable {C O : Type*} {p : Pool C O} {busy : Set ℕ} {h : ℕ} {c : C} {o : O}

/-- The tags of the operations in flight. -/
def tags (p : Pool C O) : List ℕ := p.inflight.map Prod.fst

/-- No objects. -/
def empty : Pool C O where
  object _ := none
  next := 0
  inflight := []
  deleted := []

/-- A new object. -/
def create (p : Pool C O) (c : C) : Pool C O :=
  { p with object := update p.object p.next (some c), next := p.next + 1 }

/-- An object changes. -/
def put (p : Pool C O) (h : ℕ) (c : C) : Pool C O := { p with object := update p.object h (some c) }

/-- An object issues an operation. -/
def issue (p : Pool C O) (h : ℕ) (o : O) : Pool C O := { p with inflight := p.inflight ++ [(h, o)] }

/-- An object is deleted. -/
def delete (p : Pool C O) (h : ℕ) : Pool C O :=
  { p with object := update p.object h none, deleted := p.deleted ++ [h] }

/-- An operation completes. -/
def complete [BEq O] (p : Pool C O) (op : ℕ × O) : Pool C O :=
  { p with inflight := p.inflight.erase op }

@[simp] theorem object_issue : (p.issue h o).object = p.object := rfl

@[simp] theorem object_complete [BEq O] (op : ℕ × O) : (p.complete op).object = p.object := rfl

theorem tags_issue : (p.issue h o).tags = p.tags ++ [h] := by simp [tags, issue]

theorem tags_complete [BEq O] [LawfulBEq O] (ho : (h, o) ∈ p.inflight) :
    p.tags.Perm (h :: (p.complete (h, o)).tags) := (List.perm_cons_erase ho).map Prod.fst

theorem nodup_append_singleton {l : List ℕ} (hl : l.Nodup) (hh : h ∉ l) : (l ++ [h]).Nodup :=
  List.nodup_append.2 ⟨hl, List.nodup_singleton h, by
    rintro k hk _ hh' rfl
    exact hh (List.mem_singleton.1 hh' ▸ hk)⟩

/-- Every live object that is not busy has exactly one operation in flight, and no other
operations are in flight. -/
structure Balanced (p : Pool C O) (busy : Set ℕ) : Prop where
  nodup : p.tags.Nodup
  mem_tags : ∀ h, h ∈ p.tags ↔ (p.object h).isSome ∧ h ∉ busy
  busy_live : ∀ h ∈ busy, (p.object h).isSome
  lt_next : ∀ h, (p.object h).isSome → h < p.next
  deleted_nodup : p.deleted.Nodup
  mem_deleted : ∀ h, h ∈ p.deleted ↔ h < p.next ∧ p.object h = none

namespace Balanced

theorem empty : (empty : Pool C O).Balanced ∅ := by
  constructor <;> simp [Pool.empty, tags]

theorem create (hb : p.Balanced busy) (c : C) : (p.create c).Balanced (insert p.next busy) where
  nodup := hb.nodup
  mem_tags h := by
    refine (hb.mem_tags h).trans ?_
    by_cases hh : h = p.next
    · subst hh
      have hnot : ¬ (p.object p.next).isSome := fun hs ↦ Nat.lt_irrefl _ (hb.lt_next _ hs)
      simp [hnot]
    · simp [Pool.create, hh]
  busy_live h hh := by
    by_cases hn : h = p.next
    · simp [Pool.create, hn]
    · simpa [Pool.create, hn] using hb.busy_live h (Set.mem_of_mem_insert_of_ne hh hn)
  lt_next h hh := by
    by_cases hn : h = p.next
    · exact hn ▸ Nat.lt_succ_self _
    · exact Nat.lt_succ_of_lt (hb.lt_next h (by simpa [Pool.create, hn] using hh))
  deleted_nodup := hb.deleted_nodup
  mem_deleted h := by
    refine (hb.mem_deleted h).trans ?_
    by_cases hn : h = p.next
    · simp [Pool.create, hn]
    · have hlt : h < p.next ↔ h < p.next + 1 := by
        rw [Nat.lt_succ_iff_lt_or_eq, or_iff_left hn]
      simp [Pool.create, hn, hlt]

theorem put (hb : p.Balanced busy) (hh : (p.object h).isSome) (c : C) :
    (p.put h c).Balanced busy := by
  have hlive : ∀ k, ((p.put h c).object k).isSome ↔ (p.object k).isSome := by
    intro k
    by_cases hk : k = h <;> simp_all [Pool.put]
  refine ⟨hb.nodup, fun k ↦ ?_, fun k hk ↦ ?_, fun k hk ↦ ?_, hb.deleted_nodup, fun k ↦ ?_⟩
  · rw [hlive]
    exact hb.mem_tags k
  · exact (hlive k).2 (hb.busy_live k hk)
  · exact hb.lt_next k ((hlive k).1 hk)
  · refine (hb.mem_deleted k).trans (and_congr_right' ?_)
    rw [← Option.not_isSome_iff_eq_none, ← Option.not_isSome_iff_eq_none, hlive]

theorem issue (hb : p.Balanced busy) (hh : h ∈ busy) (o : O) :
    (p.issue h o).Balanced (busy \ {h}) where
  nodup := by
    have hnot : h ∉ p.tags := fun ht ↦ ((hb.mem_tags h).1 ht).2 hh
    rw [tags_issue]
    exact nodup_append_singleton hb.nodup hnot
  mem_tags k := by
    have hlive := hb.busy_live h hh
    have hk := hb.mem_tags k
    simp only [tags_issue, List.mem_append, List.mem_singleton, Set.mem_sdiff,
      Set.mem_singleton_iff, hk]
    by_cases hkh : k = h
    · simp [hkh, hlive]
    · simp [hkh]
  busy_live k hk := hb.busy_live k hk.1
  lt_next := hb.lt_next
  deleted_nodup := hb.deleted_nodup
  mem_deleted := hb.mem_deleted

theorem delete (hb : p.Balanced busy) (hh : h ∈ busy) : (p.delete h).Balanced (busy \ {h}) := by
  have hlive := hb.busy_live h hh
  have hsome : ∀ k, ((p.delete h).object k).isSome ↔ k ≠ h ∧ (p.object k).isSome := by
    intro k
    by_cases hk : k = h <;> simp [Pool.delete, hk]
  refine ⟨hb.nodup, fun k ↦ ?_, fun k hk ↦ ?_, fun k hk ↦ ?_, ?_, fun k ↦ ?_⟩
  · rw [hsome]
    refine (hb.mem_tags k).trans ?_
    by_cases hk : k = h
    · simp [hk, hh]
    · simp [hk]
  · exact (hsome k).2 ⟨hk.2, hb.busy_live k hk.1⟩
  · exact hb.lt_next k ((hsome k).1 hk).2
  · have hnot : h ∉ p.deleted := fun hd ↦ by simp [((hb.mem_deleted h).1 hd).2] at hlive
    exact nodup_append_singleton hb.deleted_nodup hnot
  · have hk := hb.mem_deleted k
    by_cases hkh : k = h
    · simp [Pool.delete, hkh, hb.lt_next h hlive]
    · simpa [Pool.delete, hkh] using hk

theorem complete [BEq O] [LawfulBEq O] (hb : p.Balanced busy) (ho : (h, o) ∈ p.inflight) :
    (p.complete (h, o)).Balanced (insert h busy) := by
  have hperm := tags_complete ho
  obtain ⟨hnot, hnodup⟩ := List.nodup_cons.1 (hperm.nodup_iff.1 hb.nodup)
  have hmem : ∀ k, k ∈ p.tags ↔ k = h ∨ k ∈ (p.complete (h, o)).tags := fun k ↦ by
    rw [hperm.mem_iff, List.mem_cons]
  have hlive : (p.object h).isSome := ((hb.mem_tags h).1 ((hmem h).2 (.inl rfl))).1
  refine ⟨hnodup, fun k ↦ ?_, fun k hk ↦ ?_, hb.lt_next, hb.deleted_nodup, hb.mem_deleted⟩
  · by_cases hk : k = h
    · simp [hk, hnot]
    · refine (or_iff_right hk).symm.trans ((hmem k).symm.trans ((hb.mem_tags k).trans ?_))
      simp [hk]
  · rcases hk with rfl | hk
    · exact hlive
    · exact hb.busy_live k hk

/-- **A live object that is not busy has exactly one operation in flight.** -/
theorem count_tags (hb : p.Balanced busy) (hh : (p.object h).isSome) (hbusy : h ∉ busy) :
    p.tags.count h = 1 :=
  List.count_eq_one_of_mem hb.nodup ((hb.mem_tags h).2 ⟨hh, hbusy⟩)

/-- **An operation in flight belongs to a live object.** -/
theorem live (hb : p.Balanced busy) (ho : (h, o) ∈ p.inflight) : (p.object h).isSome :=
  ((hb.mem_tags h).1 (List.mem_map_of_mem (f := Prod.fst) ho)).1

/-- **When nothing is in flight every object was deleted**, and each of them once. -/
theorem deleted_perm (hb : p.Balanced ∅) (hnil : p.inflight = []) :
    (∀ h, p.object h = none) ∧ p.deleted.Perm (List.range p.next) := by
  have hdead : ∀ h, p.object h = none := fun h ↦ by
    have hlive := hb.mem_tags h
    simpa [tags, hnil] using hlive
  refine ⟨hdead, (List.perm_ext_iff_of_nodup hb.deleted_nodup List.nodup_range).2 fun h ↦ ?_⟩
  rw [hb.mem_deleted, List.mem_range, and_iff_left (hdead h)]

end Balanced

/-! ### What is left to do -/

section

variable {μ : C → ℕ}

/-- The potential of the objects that have an operation in flight. -/
def load (μ : C → ℕ) (p : Pool C O) : ℕ :=
  (p.inflight.map fun op ↦ (p.object op.1).elim 0 μ).sum

theorem load_congr {q : Pool C O} (hinflight : q.inflight = p.inflight)
    (hobject : ∀ k ∈ p.tags, q.object k = p.object k) : q.load μ = p.load μ := by
  rw [load, load, hinflight]
  refine congrArg List.sum (List.map_congr_left fun op hop ↦ ?_)
  rw [hobject op.1 (List.mem_map_of_mem hop)]

theorem load_issue (hc : p.object h = some c) : (p.issue h o).load μ = p.load μ + μ c := by
  simp [load, issue, hc]

theorem load_delete (hh : h ∉ p.tags) : (p.delete h).load μ = p.load μ :=
  load_congr rfl fun k hk ↦ by
    have hkh : k ≠ h := fun hkh ↦ hh (hkh ▸ hk)
    simp [Pool.delete, hkh]

/-- A completion takes the potential of its object, which may take any state. -/
theorem Balanced.load_complete [BEq O] [LawfulBEq O] (hb : p.Balanced busy)
    (ho : (h, o) ∈ p.inflight) (hc : p.object h = some c) (c' : C) :
    p.load μ = ((p.complete (h, o)).put h c').load μ + μ c := by
  have htag : h ∉ (p.complete (h, o)).tags := fun ht ↦
    (((hb.complete ho).mem_tags h).1 ht).2 (Set.mem_insert h busy)
  have hput : ((p.complete (h, o)).put h c').load μ = (p.complete (h, o)).load μ :=
    load_congr rfl fun k hk ↦ by
      have hkh : k ≠ h := fun hkh ↦ htag (hkh ▸ hk)
      simp [Pool.put, hkh]
  have hperm := (List.perm_cons_erase ho).map fun op ↦ (p.object op.1).elim 0 μ
  rw [hput, load, hperm.sum_eq, List.map_cons, List.sum_cons, hc, Option.elim_some, Nat.add_comm]
  rfl

end

/-! ### What an object does at a completion -/

/-- What an object does to the pool. -/
inductive Effect (C O : Type*)
  /-- It creates an object, which issues an operation. -/
  | spawn (c : C) (o : O)
  | issue (o : O)
  | delete

/-- How many of the effects bring the object to rest. -/
def rests : List (Effect C O) → ℕ
  | [] => 0
  | .spawn _ _ :: es => rests es
  | .issue _ :: es => rests es + 1
  | .delete :: es => rests es + 1

/-- An object has an effect. -/
def act (h : ℕ) (p : Pool C O) : Effect C O → Pool C O
  | .spawn c o => (p.create c).issue p.next o
  | .issue o => p.issue h o
  | .delete => p.delete h

/-- An object has effects, one after the other. -/
def perform (p : Pool C O) (h : ℕ) (es : List (Effect C O)) : Pool C O := es.foldl (act h) p

/-! Effects leave the other objects alone and number the objects they create from `next` on. -/

variable {k : ℕ}

theorem next_le_perform (p : Pool C O) (h : ℕ) (es : List (Effect C O)) :
    p.next ≤ (p.perform h es).next := by
  induction es generalizing p with
  | nil => exact Nat.le_refl _
  | cons e es ih =>
    refine Nat.le_trans ?_ (ih (act h p e))
    cases e with
    | spawn c o => exact Nat.le_succ _
    | _ => exact Nat.le_refl _

theorem object_perform (es : List (Effect C O)) (hk : k ≠ h) (hlt : k < p.next) :
    (p.perform h es).object k = p.object k := by
  induction es generalizing p with
  | nil => rfl
  | cons e es ih =>
    have hact : (act h p e).object k = p.object k := by
      cases e with
      | spawn c o => simp [act, create, Nat.ne_of_lt hlt]
      | issue o => rfl
      | delete => simp [act, Pool.delete, hk]
    refine (ih (Nat.lt_of_lt_of_le hlt ?_)).trans hact
    exact next_le_perform p h [e]

/-- Effects put no object in a state but those they create. -/
theorem object_of_perform {es : List (Effect C O)} (hk : (p.perform h es).object k = some c) :
    p.object k = some c ∨ ∃ o, Effect.spawn c o ∈ es := by
  induction es generalizing p with
  | nil => exact .inl hk
  | cons e es ih =>
    rcases ih (p := act h p e) hk with hk' | ⟨o, ho⟩
    · cases e with
      | spawn c' o =>
        by_cases hkn : k = p.next
        · subst hkn
          obtain rfl : c' = c := by simpa [act, create] using hk'
          exact .inr ⟨o, List.mem_cons_self⟩
        · exact .inl (by simpa [act, create, hkn] using hk')
      | issue o => exact .inl hk'
      | delete =>
        by_cases hkh : k = h
        · simp [act, Pool.delete, hkh] at hk'
        · exact .inl (by simpa [act, Pool.delete, hkh] using hk')
    · exact .inr ⟨o, List.mem_cons_of_mem _ ho⟩

theorem exists_spawn_of_perform {es : List (Effect C O)} (hk : k ≠ h) (hle : p.next ≤ k)
    (hlt : k < (p.perform h es).next) :
    ∃ c o, Effect.spawn c o ∈ es ∧ (p.perform h es).object k = some c := by
  induction es generalizing p with
  | nil => exact absurd hlt (Nat.not_lt.2 hle)
  | cons e es ih =>
    cases e with
    | spawn c o =>
      rcases Nat.eq_or_lt_of_le hle with rfl | hgt
      · have hnew : (act h p (.spawn c o)).object p.next = some c := by simp [act, create]
        exact ⟨c, o, List.mem_cons_self,
          (object_perform es hk (Nat.lt_succ_self _)).trans hnew⟩
      · obtain ⟨c', o', hmem, hobject⟩ := ih (p := act h p (.spawn c o)) hgt hlt
        exact ⟨c', o', List.mem_cons_of_mem _ hmem, hobject⟩
    | issue o =>
      obtain ⟨c', o', hmem, hobject⟩ := ih (p := act h p (.issue o)) hle hlt
      exact ⟨c', o', List.mem_cons_of_mem _ hmem, hobject⟩
    | delete =>
      obtain ⟨c', o', hmem, hobject⟩ := ih (p := act h p .delete) hle hlt
      exact ⟨c', o', List.mem_cons_of_mem _ hmem, hobject⟩

namespace Balanced

theorem spawn (hb : p.Balanced busy) (c : C) (o : O) :
    ((p.create c).issue p.next o).Balanced busy := by
  have hnext : p.next ∉ busy := fun hh ↦ Nat.lt_irrefl _ (hb.lt_next _ (hb.busy_live _ hh))
  have hissue := (hb.create c).issue (Set.mem_insert _ _) o
  rwa [Set.insert_sdiff_self_of_notMem hnext] at hissue

/-- An object at rest may still create others. -/
theorem perform_of_rests_eq_zero {es : List (Effect C O)} (hb : p.Balanced busy)
    (hes : rests es = 0) : (p.perform h es).Balanced busy := by
  induction es generalizing p with
  | nil => exact hb
  | cons e es ih =>
    cases e with
    | spawn c o => exact ih (hb.spawn c o) hes
    | issue o => exact absurd hes (Nat.succ_ne_zero _)
    | delete => exact absurd hes (Nat.succ_ne_zero _)

/-- **A busy object comes to rest** by exactly one of its effects. -/
theorem perform {es : List (Effect C O)} (hb : p.Balanced busy) (hh : h ∈ busy)
    (hes : rests es = 1) : (p.perform h es).Balanced (busy \ {h}) := by
  induction es generalizing p with
  | nil => exact absurd hes Nat.zero_ne_one
  | cons e es ih =>
    cases e with
    | spawn c o => exact ih (hb.spawn c o) hes
    | issue o => exact (hb.issue hh o).perform_of_rests_eq_zero (Nat.succ.inj hes)
    | delete => exact (hb.delete hh).perform_of_rests_eq_zero (Nat.succ.inj hes)

end Balanced

/-! ### Which operation is in flight -/

variable {kind : C → O}

/-- The operation an object has in flight is the one its state tells. -/
def Matches (kind : C → O) (p : Pool C O) : Prop :=
  ∀ h o c, (h, o) ∈ p.inflight → p.object h = some c → o = kind c

/-- The effect of an object in state `c` leaves the operation its state tells. -/
def Effect.Fits (kind : C → O) (c : C) : Effect C O → Prop
  | .spawn c' o => o = kind c'
  | .issue o => o = kind c
  | .delete => True

namespace Matches

theorem empty : (empty : Pool C O).Matches kind := by
  intro h o c ho
  simp [Pool.empty] at ho

/-- The object of a completed operation may take any state. -/
theorem complete_put [BEq O] [LawfulBEq O] (hm : p.Matches kind) (hb : p.Balanced busy)
    (ho : (h, o) ∈ p.inflight) (c : C) : ((p.complete (h, o)).put h c).Matches kind := by
  intro k o' c' ho' hc'
  have htag : h ∉ (p.complete (h, o)).tags := fun ht ↦
    (((hb.complete ho).mem_tags h).1 ht).2 (Set.mem_insert h busy)
  have hk : k ≠ h := by
    rintro rfl
    exact htag (List.mem_map_of_mem (f := Prod.fst) ho')
  refine hm k o' c' (List.mem_of_mem_erase ho') ?_
  simpa [put, hk] using hc'

theorem spawn (hm : p.Matches kind) (hb : p.Balanced busy) (c : C) :
    ((p.create c).issue p.next (kind c)).Matches kind := by
  intro k o' c' ho' hc'
  rcases List.mem_append.1 ho' with ho' | ho'
  · have hk : k ≠ p.next := fun hk ↦ Nat.lt_irrefl _ (hb.lt_next _ (hk ▸ hb.live ho'))
    exact hm k o' c' ho' (by simpa [create, hk] using hc')
  · obtain ⟨rfl, rfl⟩ := Prod.mk.inj (List.mem_singleton.1 ho')
    simp only [object_issue, create, update_self, Option.some.injEq] at hc'
    rw [hc']

theorem issue (hm : p.Matches kind) (hh : p.object h = some c) :
    (p.issue h (kind c)).Matches kind := by
  intro k o' c' ho' hc'
  rcases List.mem_append.1 ho' with ho' | ho'
  · exact hm k o' c' ho' hc'
  · obtain ⟨rfl, rfl⟩ := Prod.mk.inj (List.mem_singleton.1 ho')
    exact congrArg kind (Option.some.inj (hh.symm.trans hc'))

theorem delete (hm : p.Matches kind) (h : ℕ) : (p.delete h).Matches kind := by
  intro k o' c' ho' hc'
  by_cases hk : k = h
  · simp [Pool.delete, hk] at hc'
  · exact hm k o' c' ho' (by simpa [Pool.delete, hk] using hc')

theorem perform_of_rests_eq_zero {es : List (Effect C O)} (hm : p.Matches kind)
    (hb : p.Balanced busy) (hfits : ∀ e ∈ es, e.Fits kind c) (hes : rests es = 0) :
    (p.perform h es).Matches kind := by
  induction es generalizing p with
  | nil => exact hm
  | cons e es ih =>
    have hfits' := fun e' he' ↦ hfits e' (List.mem_cons_of_mem e he')
    cases e with
    | spawn c' o =>
      obtain rfl := hfits _ List.mem_cons_self
      exact ih (hm.spawn hb c') (hb.spawn c' _) hfits' hes
    | issue o => exact absurd hes (Nat.succ_ne_zero _)
    | delete => exact absurd hes (Nat.succ_ne_zero _)

/-- **A busy object comes to rest** with the operation its state tells. -/
theorem perform {es : List (Effect C O)} (hm : p.Matches kind) (hb : p.Balanced busy)
    (hbusy : h ∈ busy) (hh : p.object h = some c) (hfits : ∀ e ∈ es, e.Fits kind c)
    (hes : rests es = 1) : (p.perform h es).Matches kind := by
  induction es generalizing p with
  | nil => exact absurd hes Nat.zero_ne_one
  | cons e es ih =>
    have hfits' := fun e' he' ↦ hfits e' (List.mem_cons_of_mem e he')
    cases e with
    | spawn c' o =>
      obtain rfl := hfits _ List.mem_cons_self
      have hne : h ≠ p.next := (hb.lt_next h (hb.busy_live h hbusy)).ne
      exact ih (hm.spawn hb c') (hb.spawn c' _) (by simpa [act, create, hne] using hh)
        hfits' hes
    | issue o =>
      obtain rfl := hfits _ List.mem_cons_self
      exact (hm.issue hh).perform_of_rests_eq_zero (hb.issue hbusy _) hfits' (Nat.succ.inj hes)
    | delete =>
      exact (hm.delete h).perform_of_rests_eq_zero (hb.delete hbusy) hfits' (Nat.succ.inj hes)

end Matches

end Pool
