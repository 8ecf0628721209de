import Cppkg.Estd.HashList
import Mathlib.Data.List.Perm.Basic

/-!
# A hash list is an ordered list of distinct values

The two sides of a hash list agree when no node and no value occurs twice in the linked list
and the index maps exactly the values of the list to their nodes (`Linked`). What a mutator
does to the linked list is, up to order, to add one element or to remove one, and to the index,
to set or to clear its entry; either preserves the agreement wherever the element stands
(`Linked.cons`, `Linked.of_cons`).

The steps of a hash list are labelled by events (`Event`) that speak of positions instead of
iterators, both for the argument of `insert` and for the iterators returned, and of values instead
of references. What is undefined leads to no hash list. The steps are those of any number of nodes
`used` elsewhere, which the allocator does not give out again.

One operation destroys what its argument may refer to: an element that is erased through a
reference to itself is read after its node is gone (`Linked.erase_element`). As long as the
arguments outlive the calls (`Event.Outlives`), the runs are runs of a list of distinct values
(`Spec.system`), with the same events (`hashList_refines`).
-/

namespace Cppkg.Estd

open Transition

variable {T : Type}

/-- What a caller sees of an operation: positions stand for iterators. -/
inductive Event (T : Type) where
  | pushBack (val : T) (result : Option ℕ)
  | popBack
  | insert (pos : ℕ) (val : T) (result : Option ℕ)
  /-- `own` tells whether the argument refers to an element of the list itself. -/
  | erase (val : T) (own : Bool)
  | clear

/-- The argument outlives the call: no element is erased through a reference to itself. -/
def Event.Outlives : Event T → Prop
  | .erase _ own => own = false
  | _ => True

/-! ### The specification -/

namespace Spec

variable [DecidableEq T]

/-- An absent value goes to the end. -/
def push (l : List T) (val : T) : List T := if val ∈ l then l else l ++ [val]

/-- An absent value goes immediately before the position. -/
def insertAt (l : List T) (pos : ℕ) (val : T) : List T :=
  if val ∈ l then l else l.insertIdx pos val

/-- The steps of an ordered list of distinct values. -/
inductive Step : List T → Event T → List T → Prop
  | pushBack (l : List T) (val : T) :
      Step l (.pushBack val (some ((push l val).idxOf val))) (push l val)
  | popBack (l : List T) : Step l .popBack l.dropLast
  | insert (l : List T) (pos : ℕ) (val : T) (hpos : pos ≤ l.length) :
      Step l (.insert pos val (some ((insertAt l pos val).idxOf val))) (insertAt l pos val)
  | erase (l : List T) (val : T) (own : Bool) : Step l (.erase val own) (l.erase val)
  | clear (l : List T) : Step l .clear []

/-- The list of distinct values built from `range`. -/
def system (range : List T) : System (List T) (Event T) where
  init l := l = range.foldl push []
  step := Step

end Spec

/-! ### The steps of a hash list -/

namespace HashList

section Step

/-- The argument refers to an element of the list. -/
def Arg.isElement : Arg T → Bool
  | .value _ => false
  | .element _ => true

/-- The position of the iterator that is returned. -/
def result (r : Option (Iter × HashList T)) : Option ℕ := r.bind fun r ↦ position r.2.lst r.1

variable [DecidableEq T]

/-- The steps of a hash list, with a node of its own for an insertion. They lead to nothing when
the operation is undefined. -/
inductive Step (used : List Node) (h : HashList T) : Event T → Option (HashList T) → Prop
  | pushBack (arg : Arg T) {val : T} (fresh : Node) {r : Option (Iter × HashList T)}
      (hval : arg.read h.lst = some val) (hfresh : fresh ∉ h.nodes ++ used)
      (hrun : h.pushBack arg fresh = r) :
      Step used h (.pushBack val (result r)) (r.map Prod.snd)
  | popBack : Step used h .popBack (some h.popBack)
  | insert (pos : Iter) {p : ℕ} (arg : Arg T) {val : T} (fresh : Node)
      {r : Option (Iter × HashList T)} (hpos : position h.lst pos = some p)
      (hval : arg.read h.lst = some val) (hfresh : fresh ∉ h.nodes ++ used)
      (hrun : h.insert pos arg fresh = r) :
      Step used h (.insert p val (result r)) (r.map Prod.snd)
  | erase (arg : Arg T) {val : T} {s : Option (HashList T)} (hval : arg.read h.lst = some val)
      (hrun : h.erase arg = s) : Step used h (.erase val arg.isElement) s
  | clear : Step used h .clear (some h.clear)

/-- The steps as long as nothing undefined has happened. -/
inductive Calls : Option (HashList T) → Event T → Option (HashList T) → Prop
  | step {h : HashList T} {e : Event T} {s : Option (HashList T)} (hstep : Step [] h e s) :
      Calls (some h) e s

/-- The hash list built from `range`, whose values get different nodes. -/
def system (range : List T) : System (Option (HashList T)) (Event T) where
  init s := ∃ fresh : List Node, fresh.length = range.length ∧ fresh.Nodup ∧
    fromRange (range.zip fresh) = s
  step := Calls

/-- Every operation is defined, for every position of this list and every argument that outlives
it, and returns a position of the list. -/
structure Defined (used : List Node) (h : HashList T) : Prop where
  pushBack : ∀ arg val, Arg.read h.lst arg = some val → ∀ fresh ∉ h.nodes ++ used, ∃ it h' i,
    h.pushBack arg fresh = some (it, h') ∧ position h'.lst it = some i
  insert : ∀ pos p, position h.lst pos = some p → ∀ arg val, Arg.read h.lst arg = some val →
    ∀ fresh ∉ h.nodes ++ used, ∃ it h' i,
      h.insert pos arg fresh = some (it, h') ∧ position h'.lst it = some i
  erase : ∀ val, ∃ h', h.erase (.value val) = some h'

end Step

/-! ### The agreement of list and index -/

/-- The index maps exactly the values of the list to their nodes. -/
structure Linked (h : HashList T) : Prop where
  nodes_nodup : h.nodes.Nodup
  values_nodup : h.values.Nodup
  index : ∀ val it, h.umap val = some it ↔ ∃ n, (n, val) ∈ h.lst ∧ it = .node n

theorem linked_empty : Linked (empty : HashList T) where
  nodes_nodup := List.nodup_nil
  values_nodup := List.nodup_nil
  index val it := by simp [empty]

theorem Linked.not_mem_of_none {h : HashList T} (hl : Linked h) {val : T}
    (hnone : h.umap val = none) : val ∉ h.values := by
  intro hmem
  obtain ⟨⟨n, w⟩, hn, rfl⟩ := List.mem_map.1 hmem
  rw [(hl.index w (.node n)).2 ⟨n, hn, rfl⟩] at hnone
  cases hnone

variable [DecidableEq T]

/-- Adding an element with a new node and a new value, anywhere. -/
theorem Linked.cons {h : HashList T} (hl : Linked h) {lst : List (Node × T)} {n : Node}
    {val : T} (hn : n ∉ h.nodes) (hval : val ∉ h.values) (hperm : lst.Perm ((n, val) :: h.lst)) :
    Linked ⟨lst, Function.update h.umap val (some (.node n))⟩ where
  nodes_nodup := ((hperm.map Prod.fst).nodup_iff).2 (List.nodup_cons.2 ⟨hn, hl.nodes_nodup⟩)
  values_nodup := ((hperm.map Prod.snd).nodup_iff).2 (List.nodup_cons.2 ⟨hval, hl.values_nodup⟩)
  index w it := by
    simp only [hperm.mem_iff, List.mem_cons, Prod.mk.injEq]
    -- the entry of another value is untouched
    by_cases hw : w = val
    · subst hw
      have hnone : ∀ m, (m, w) ∉ h.lst := fun m hm ↦ hval (List.mem_map_of_mem hm)
      rw [Function.update_self]
      constructor
      · intro h'
        exact ⟨n, Or.inl ⟨rfl, rfl⟩, (Option.some.inj h').symm⟩
      · rintro ⟨m, ⟨rfl, -⟩ | hm, rfl⟩
        · rfl
        · exact absurd hm (hnone m)
    · rw [Function.update_of_ne hw, hl.index]
      simp [hw]

/-- Removing an element, wherever it stands. -/
theorem Linked.of_cons {h : HashList T} (hl : Linked h) {lst : List (Node × T)} {n : Node}
    {val : T} (hperm : h.lst.Perm ((n, val) :: lst)) :
    Linked ⟨lst, Function.update h.umap val none⟩ := by
  obtain ⟨hn, hnodes⟩ := List.nodup_cons.1 (((hperm.map Prod.fst).nodup_iff).1 hl.nodes_nodup)
  obtain ⟨hv, hvalues⟩ := List.nodup_cons.1 (((hperm.map Prod.snd).nodup_iff).1 hl.values_nodup)
  refine ⟨hnodes, hvalues, fun w it ↦ ?_⟩
  by_cases hw : w = val
  · subst hw
    have hnone : ∀ m, (m, w) ∉ lst := fun m hm ↦ hv (List.mem_map.2 ⟨(m, w), hm, rfl⟩)
    simp [hnone]
  · show Function.update h.umap val none w = some it ↔ _
    rw [Function.update_of_ne hw, hl.index]
    simp only [hperm.mem_iff, List.mem_cons, Prod.mk.injEq, hw, and_false, false_or]

/-! ### Positions -/

section Linked

variable {h : HashList T} (hl : Linked h)

include hl

/-- A node and its value stand at the same position. -/
theorem Linked.position_eq {n : Node} {val : T} (hn : (n, val) ∈ h.lst) :
    position h.lst (.node n) = some (h.values.idxOf val) ∧
      h.lst[h.values.idxOf val]? = some (n, val) := by
  obtain ⟨i, hi, hget⟩ := List.mem_iff_getElem.1 hn
  have hi₁ : i < h.nodes.length := by simpa [nodes] using hi
  have hi₂ : i < h.values.length := by simpa [values] using hi
  have hnode : h.nodes[i] = n := by simp [nodes, hget]
  have hvalue : h.values[i] = val := by simp [values, hget]
  have hidx : h.nodes.idxOf n = i := by
    rw [← hnode]
    exact hl.nodes_nodup.idxOf_getElem i _
  have hidx' : h.values.idxOf val = i := by
    rw [← hvalue]
    exact hl.values_nodup.idxOf_getElem i _
  have hmem : n ∈ h.lst.map Prod.fst := List.mem_map_of_mem hn
  refine ⟨?_, by rw [hidx', List.getElem?_eq_getElem hi, hget]⟩
  rw [position, if_pos hmem, hidx', ← hidx]
  rfl

/-- A value with an entry is in the list, at the position of the entry. -/
theorem Linked.position_of_entry {val : T} {it : Iter} (humap : h.umap val = some it) :
    val ∈ h.values ∧ position h.lst it = some (h.values.idxOf val) := by
  obtain ⟨n, hn, rfl⟩ := (hl.index val it).1 humap
  exact ⟨List.mem_map.2 ⟨(n, val), hn, rfl⟩, (hl.position_eq hn).1⟩

/-! ### The operations -/

omit [DecidableEq T] in
/-- A node that is read holds the value. -/
theorem Linked.index_of_lookup {n : Node} {val : T} (hval : h.lst.lookup n = some val) :
    (n, val) ∈ h.lst ∧ h.umap val = some (.node n) := by
  obtain ⟨l₁, l₂, hlst, -⟩ := List.lookup_eq_some_iff.1 hval
  have hn : (n, val) ∈ h.lst := by simp [hlst]
  exact ⟨hn, (hl.index val _).2 ⟨n, hn, rfl⟩⟩

omit [DecidableEq T] in
/-- An argument with an absent value does not refer to an element of the list. -/
theorem Linked.eq_value_of_none {arg : Arg T} {val : T} (hval : arg.read h.lst = some val)
    (hnone : h.umap val = none) : arg = .value val := by
  cases arg with
  | value w => rw [Option.some.inj hval]
  | element n =>
    rw [(hl.index_of_lookup hval).2] at hnone
    cases hnone

/-- `push_back` is defined, and adds an absent value at the end. -/
theorem Linked.pushBack {arg : Arg T} {val : T} (hval : arg.read h.lst = some val) {fresh : Node}
    (hfresh : fresh ∉ h.nodes) :
    ∃ it h', h.pushBack arg fresh = some (it, h') ∧ Linked h' ∧
      h'.values = Spec.push h.values val ∧
      position h'.lst it = some (h'.values.idxOf val) := by
  cases humap : h.umap val with
  | some it =>
    obtain ⟨hmem, hposition⟩ := hl.position_of_entry humap
    refine ⟨it, h, by simp [HashList.pushBack, hval, humap], hl, ?_, hposition⟩
    rw [Spec.push, if_pos hmem]
  | none =>
    have habsent := hl.not_mem_of_none humap
    have hl' := hl.cons hfresh habsent (List.perm_append_singleton _ _)
    obtain rfl := hl.eq_value_of_none hval humap
    refine ⟨.node fresh, _, ?_, hl', ?_, (hl'.position_eq ?_).1⟩
    · simp [HashList.pushBack, Arg.read, humap, beforeEnd]
    · rw [Spec.push, if_neg habsent]
      simp [values]
    · simp

/-- `insert` is defined at a position of the list, and adds an absent value before it. -/
theorem Linked.insert {pos : Iter} {p : ℕ} (hpos : position h.lst pos = some p) {arg : Arg T}
    {val : T} (hval : arg.read h.lst = some val) {fresh : Node} (hfresh : fresh ∉ h.nodes) :
    p ≤ h.values.length ∧ ∃ it h', h.insert pos arg fresh = some (it, h') ∧ Linked h' ∧
      h'.values = Spec.insertAt h.values p val ∧
      position h'.lst it = some (h'.values.idxOf val) := by
  have hp : p ≤ h.lst.length := by
    cases pos with
    | stop => exact Nat.le_of_eq (Option.some.inj hpos).symm
    | node n =>
      rw [position] at hpos
      split at hpos
      · rename_i hn
        rw [← Option.some.inj hpos, ← List.length_map Prod.fst]
        exact List.idxOf_le_length
      · cases hpos
  refine ⟨by rwa [values, List.length_map], ?_⟩
  cases humap : h.umap val with
  | some it =>
    obtain ⟨hmem, hposition⟩ := hl.position_of_entry humap
    refine ⟨it, h, by simp [HashList.insert, hval, humap], hl, ?_, hposition⟩
    rw [Spec.insertAt, if_pos hmem]
  | none =>
    have habsent := hl.not_mem_of_none humap
    have hl' := hl.cons hfresh habsent (List.perm_insertIdx (fresh, val) h.lst hp)
    obtain rfl := hl.eq_value_of_none hval humap
    refine ⟨.node fresh, _, ?_, hl', ?_, (hl'.position_eq ?_).1⟩
    · simp [HashList.insert, Arg.read, humap, listInsert, hpos]
    · rw [Spec.insertAt, if_neg habsent]
      exact List.map_insertIdx Prod.snd h.lst p (fresh, val)
    · exact (List.mem_insertIdx hp).2 (Or.inl rfl)

/-- The node that holds a value is erased. -/
theorem Linked.listErase {n : Node} {val : T} (hn : (n, val) ∈ h.lst) :
    ∃ lst, listErase h.lst (.node n) = some lst ∧ h.lst.Perm ((n, val) :: lst) ∧
      lst.map Prod.snd = h.values.erase val := by
  obtain ⟨hpos, hget⟩ := hl.position_eq hn
  obtain ⟨hlt, hget⟩ := List.getElem?_eq_some_iff.1 hget
  refine ⟨_, by simp [HashList.listErase, hpos, hlt],
    hget ▸ (List.getElem_cons_eraseIdx_perm hlt).symm, ?_⟩
  rw [← List.eraseIdx_idxOf_eq_erase]
  exact (List.eraseIdx_map Prod.snd h.lst _).symm

/-- `erase` is defined for an argument that outlives it, and removes the value. -/
theorem Linked.erase (val : T) :
    ∃ h', h.erase (.value val) = some h' ∧ Linked h' ∧ h'.values = h.values.erase val := by
  cases humap : h.umap val with
  | none =>
    refine ⟨h, by simp [HashList.erase, Arg.read, humap], hl, ?_⟩
    rw [List.erase_of_not_mem (hl.not_mem_of_none humap)]
  | some it =>
    obtain ⟨n, hn, rfl⟩ := (hl.index val it).1 humap
    obtain ⟨lst, hlst, hperm, hvalues⟩ := hl.listErase hn
    exact ⟨_, by simp [HashList.erase, Arg.read, humap, hlst], hl.of_cons hperm, hvalues⟩

/-- **An element that is erased through a reference to itself** is read after its node is gone. -/
theorem Linked.erase_element {n : Node} {val : T} (hval : h.lst.lookup n = some val) :
    h.erase (.element n) = none := by
  obtain ⟨hn, humap⟩ := hl.index_of_lookup hval
  obtain ⟨lst, hlst, hperm, -⟩ := hl.listErase hn
  have hgone : n ∉ lst.map Prod.fst :=
    (List.nodup_cons.1 (((hperm.map Prod.fst).nodup_iff).1 hl.nodes_nodup)).1
  have hnone : lst.lookup n = none :=
    List.lookup_eq_none_iff.2 fun e he ↦ bne_iff_ne.2 fun hne ↦
      hgone (List.mem_map.2 ⟨e, he, hne.symm⟩)
  simp [HashList.erase, Arg.read, hval, humap, hlst, hnone]

/-- `pop_back` removes the last value. -/
theorem Linked.popBack : Linked h.popBack ∧ h.popBack.values = h.values.dropLast := by
  rcases List.eq_nil_or_concat h.lst with hnil | ⟨init, e, hconcat⟩
  · have hpop : h.popBack = h := by
      rw [HashList.popBack, hnil]
      rfl
    rw [hpop]
    exact ⟨hl, by simp [values, hnil]⟩
  · have hpop : h.popBack = ⟨init, Function.update h.umap e.2 none⟩ := by
      rw [HashList.popBack, hconcat]
      simp
    rw [hpop]
    refine ⟨hl.of_cons (n := e.1) ?_, by simp [values, hconcat]⟩
    rw [hconcat, List.concat_eq_append]
    exact List.perm_append_singleton _ _

end Linked

/-! ### Runs -/

theorem nodes_pushBack {h h' : HashList T} {val : T} {fresh : Node} {it : Iter}
    (hrun : h.pushBack (.value val) fresh = some (it, h')) {n : Node} (hn : n ∈ h'.nodes) :
    n = fresh ∨ n ∈ h.nodes := by
  cases humap : h.umap val with
  | some _ =>
    simp only [HashList.pushBack, Arg.read, humap, Option.bind_eq_bind, Option.bind_some,
      Option.some.injEq, Prod.mk.injEq] at hrun
    exact Or.inr (hrun.2 ▸ hn)
  | none =>
    simp only [HashList.pushBack, Arg.read, humap, beforeEnd, List.getLast?_concat,
      Option.map_some, Option.bind_eq_bind, Option.bind_some, Option.some.injEq,
      Prod.mk.injEq] at hrun
    rw [← hrun.2] at hn
    simpa [nodes, or_comm] using hn

/-- The range constructor pushes the values in order. -/
theorem Linked.foldlM_pushBack {range : List T} {fresh : List Node} {h : HashList T}
    (hl : Linked h) (hlen : fresh.length = range.length) (hnodup : fresh.Nodup)
    (hfresh : ∀ n ∈ fresh, n ∉ h.nodes) :
    ∃ h', (range.zip fresh).foldlM
        (fun h e ↦ (h.pushBack (.value e.1) e.2).map Prod.snd) h = some h' ∧
      Linked h' ∧ h'.values = range.foldl Spec.push h.values := by
  induction range generalizing fresh h with
  | nil => exact ⟨h, rfl, hl, rfl⟩
  | cons val range ih =>
    cases fresh with
    | nil => cases hlen
    | cons n fresh =>
      obtain ⟨hn, hnodup⟩ := List.nodup_cons.1 hnodup
      obtain ⟨it, h₁, hrun, hl₁, hvalues, -⟩ :=
        hl.pushBack (show (Arg.value val).read h.lst = some val from rfl)
          (hfresh n List.mem_cons_self)
      obtain ⟨h', hruns, hl', hvalues'⟩ := ih hl₁ (Nat.succ.inj hlen) hnodup
        (fun m hm hmem ↦ by
          -- the nodes to come are neither the one just used nor older ones
          rcases nodes_pushBack hrun hmem with rfl | hmem
          · exact hn hm
          · exact hfresh m (List.mem_cons_of_mem _ hm) hmem)
      refine ⟨h', ?_, hl', by rw [hvalues', hvalues]; rfl⟩
      rw [List.zip_cons_cons, List.foldlM_cons, hrun]
      exact hruns

/-- **What one step does.** It keeps the agreement and is a step of the specification, unless an
element is erased through a reference to itself. -/
theorem Linked.step {used : List Node} {h : HashList T} {e : Event T} {s : Option (HashList T)}
    (hl : Linked h) (hstep : Step used h e s) :
    e.Outlives ∧ (∃ h', s = some h' ∧ Linked h' ∧ Spec.Step h.values e h'.values) ∨
      ¬ e.Outlives ∧ s = none := by
  cases hstep with
  | pushBack _ _ hval hfresh hrun =>
    obtain ⟨it, h', hrun', hl', hvalues, hpos⟩ :=
      hl.pushBack hval (fun hmem ↦ hfresh (List.mem_append_left _ hmem))
    obtain rfl := hrun.symm.trans hrun'
    refine .inl ⟨trivial, h', rfl, hl', ?_⟩
    rw [show result (some (it, h')) = _ from hpos, hvalues]
    exact .pushBack _ _
  | popBack =>
    obtain ⟨hl', hvalues⟩ := hl.popBack
    exact .inl ⟨trivial, _, rfl, hl', hvalues ▸ .popBack _⟩
  | insert _ _ _ hpos hval hfresh hrun =>
    obtain ⟨hp, it, h', hrun', hl', hvalues, hpos'⟩ :=
      hl.insert hpos hval (fun hmem ↦ hfresh (List.mem_append_left _ hmem))
    obtain rfl := hrun.symm.trans hrun'
    refine .inl ⟨trivial, h', rfl, hl', ?_⟩
    rw [show result (some (it, h')) = _ from hpos', hvalues]
    exact .insert _ _ _ hp
  | erase arg hval hrun =>
    cases arg with
    | value w =>
      obtain rfl := Option.some.inj hval
      obtain ⟨h', hrun', hl', hvalues⟩ := hl.erase w
      exact .inl ⟨rfl, h', hrun.symm.trans hrun', hl', hvalues ▸ .erase _ _ _⟩
    | element n =>
      exact .inr ⟨Bool.noConfusion, hrun.symm.trans (hl.erase_element hval)⟩
  | clear => exact .inl ⟨trivial, _, rfl, linked_empty, .clear _⟩

theorem Linked.of_step {used : List Node} {h h' : HashList T} {e : Event T} (hl : Linked h)
    (hstep : Step used h e (some h')) : Linked h' ∧ Spec.Step h.values e h'.values := by
  rcases hl.step hstep with ⟨-, h'', hh, hl', hspec⟩ | ⟨-, hnone⟩
  · obtain rfl := Option.some.inj hh
    exact ⟨hl', hspec⟩
  · cases hnone

/-- No operation is undefined while the two sides agree, as long as its argument outlives it. -/
theorem Linked.defined {h : HashList T} (hl : Linked h) (used : List Node) :
    Defined used h where
  pushBack arg val hval fresh hfresh := by
    obtain ⟨it, h', hrun, -, -, hpos⟩ :=
      hl.pushBack hval (fun hmem ↦ hfresh (List.mem_append_left _ hmem))
    exact ⟨it, h', _, hrun, hpos⟩
  insert pos p hp arg val hval fresh hfresh := by
    obtain ⟨-, it, h', hrun, -, -, hpos⟩ :=
      hl.insert hp hval (fun hmem ↦ hfresh (List.mem_append_left _ hmem))
    exact ⟨it, h', _, hrun, hpos⟩
  erase val := by
    obtain ⟨h', hrun, -⟩ := hl.erase val
    exact ⟨h', hrun⟩

/-- The hash lists simulate the specification by their values, as long as they are defined. -/
theorem simulation (range : List T) :
    Simulation ((system range).restrict fun _ ↦ Event.Outlives) (Spec.system range)
      fun s l ↦ ∃ h, s = some h ∧ Linked h ∧ h.values = l where
  init s hinit := by
    obtain ⟨fresh, hlen, hnodup, rfl⟩ := hinit
    obtain ⟨h, hrun, hl, hvalues⟩ := linked_empty.foldlM_pushBack hlen hnodup
      (fun n _ ↦ List.not_mem_nil)
    exact ⟨_, rfl, h, hrun, hl, hvalues⟩
  step s l e s' hR hstep := by
    obtain ⟨h, rfl, hl, rfl⟩ := hR
    obtain ⟨⟨hstep⟩, houtlives⟩ := hstep
    obtain ⟨-, h', rfl, hl', hspec⟩ := (hl.step hstep).resolve_right fun hbad ↦ hbad.1 houtlives
    exact ⟨_, hspec, h', rfl, hl', rfl⟩

/-- The two sides agree in every hash list that is reached. -/
theorem linked_of_run {range : List T} {tr : List (Event T)} {h : HashList T}
    (hrun : Run (system range) tr (some h)) : Linked h := by
  suffices hall : ∀ s, Run (system range) tr s → ∀ h, s = some h → Linked h from hall _ hrun h rfl
  intro s hrun
  refine hrun.invariant (I := fun s ↦ ∀ h, s = some h → Linked h) ?_ ?_
  · rintro s ⟨fresh, hlen, hnodup, rfl⟩ h hh
    obtain ⟨h', hrun', hl, -⟩ := linked_empty.foldlM_pushBack hlen hnodup
      (fun n _ ↦ List.not_mem_nil)
    obtain rfl := Option.some.inj (hh.symm.trans hrun')
    exact hl
  · rintro s e s' hs ⟨hstep⟩ h rfl
    exact ((hs _ rfl).of_step hstep).1

/-- What holds of a hash list at the end of a run. -/
structure Refines (range : List T) (tr : List (Event T)) (h : HashList T) : Prop where
  values_nodup : h.values.Nodup
  /-- The index has the values of the list as its keys. -/
  keys : ∀ val, (h.umap val).isSome ↔ val ∈ h.values
  /-- It maps a value to the node that holds it, -/
  index : ∀ val it, h.umap val = some it ↔ ∃ n, it = .node n ∧ (n, val) ∈ h.lst
  /-- which stands at the position of the value. -/
  index_position : ∀ val it, h.umap val = some it →
    position h.lst it = some (h.values.idxOf val)
  /-- Iteration sees what the specification holds after the same events. -/
  spec : Run (Spec.system range) tr h.values
  defined : Defined [] h

theorem Linked.refines {range : List T} {tr : List (Event T)} {h : HashList T} (hl : Linked h)
    (hspec : Run (Spec.system range) tr h.values) : Refines range tr h := by
  refine ⟨hl.values_nodup, fun val ↦ ?_, fun val it ↦ ?_,
    fun val it hit ↦ (hl.position_of_entry hit).2, hspec, hl.defined []⟩
  · rw [Option.isSome_iff_exists]
    constructor
    · rintro ⟨it, hit⟩
      exact (hl.position_of_entry hit).1
    · intro hmem
      obtain ⟨⟨n, w⟩, hn, rfl⟩ := List.mem_map.1 hmem
      exact ⟨.node n, (hl.index w _).2 ⟨n, hn, rfl⟩⟩
  · rw [hl.index]
    simp only [and_comm]

/-- **A hash list is an ordered list of distinct values**, in every state of a run in which no
element is erased through a reference to itself. A further step leads to such a state again if and
only if it is none of those. -/
theorem hashList_refines {range : List T} {tr : List (Event T)} {s : Option (HashList T)}
    (hrun : Run ((system range).restrict fun _ ↦ Event.Outlives) tr s) :
    (∃ h, s = some h ∧ Refines range tr h) ∧
    ∀ e s', (system range).step s e s' →
      ((∃ h', s' = some h' ∧ Refines range (tr ++ [e]) h') ↔ e.Outlives) := by
  obtain ⟨l, hspec, h, rfl, hl, rfl⟩ := (simulation range).run hrun
  refine ⟨⟨h, rfl, hl.refines hspec⟩, fun e s' hstep ↦ ?_⟩
  cases hstep with
  | step hstep =>
    rcases hl.step hstep with ⟨houtlives, h', rfl, hl', hnext⟩ | ⟨hbad, rfl⟩
    · exact ⟨fun _ ↦ houtlives, fun _ ↦ ⟨h', rfl, hl'.refines (hspec.snoc hnext)⟩⟩
    · exact ⟨fun ⟨_, hnone, _⟩ ↦ (Option.some_ne_none _ hnone.symm).elim,
        fun houtlives ↦ absurd houtlives hbad⟩

/-- A list of one value: a second one is inserted before it, it is pushed again through a reference
to itself, and then it is erased. -/
theorem hashList_refines_two : ∃ h,
    Run ((system [5]).restrict fun _ ↦ Event.Outlives)
      [.insert 0 2 (some 0), .pushBack 5 (some 1), .erase 5 false] (some h) ∧
    Refines [5] [.insert 0 2 (some 0), .pushBack 5 (some 1), .erase 5 false] h := by
  have hinit : Run ((system [5]).restrict fun _ ↦ Event.Outlives) []
      (some ⟨[(0, 5)], Function.update (fun _ ↦ none) 5 (some (.node 0))⟩) :=
    .nil ⟨[0], rfl, by decide, rfl⟩
  have hrun := ((hinit.snoc
    ⟨.step (.insert (.node 0) (.value 2) 1 rfl rfl (by decide) rfl), trivial⟩).snoc
    ⟨.step (.pushBack (.element 0) 2 rfl (by decide) rfl), trivial⟩).snoc
    ⟨.step (.erase (.value 5) rfl rfl), rfl⟩
  obtain ⟨⟨h, hh, hrefines⟩, -⟩ := hashList_refines hrun
  exact ⟨h, hh ▸ hrun, hrefines⟩

/-- The element of a list of one value is erased through a reference to itself. -/
theorem not_refines : ¬ ∀ (range : List ℕ) tr s, Run (system range) tr s →
    ∃ h, s = some h ∧ Refines range tr h := by
  intro hall
  have hinit : Run (system [5]) []
      (some ⟨[(0, 5)], Function.update (fun _ ↦ none) 5 (some (.node 0))⟩) :=
    .nil ⟨[0], rfl, by decide, rfl⟩
  obtain ⟨h, hh, -⟩ := hall [5] _ none (hinit.snoc (.step (.erase (.element 0) rfl rfl)))
  exact Option.some_ne_none h hh.symm

end HashList

end Cppkg.Estd
