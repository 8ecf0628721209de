import Cppkg.Estd.HashListRefinement

/-!
# Copies of a hash list

The class declares no copy operations. Its implicit ones copy member by member: the linked list
into nodes of its own, the index value by value, so that the iterators of the copied index
still denote nodes of the original.

Two hash lists side by side are a system whose steps are those of either one (`pair`), with
nodes that neither has in use. They are independent (`Independent`) when in every state of
every run the index of each refers to its own nodes, each does what the specification of its
own contents does, and nothing is undefined whose arguments outlive the call. A list and its copy
are so if and only if the list was empty (`copy_independent_iff`): the entry of any value is an
entry of the other list.
-/

namespace Cppkg.Estd

open Transition

variable {T : Type} [DecidableEq T]

namespace Spec

/-- Two lists of distinct values side by side. -/
inductive PairStep : List T × List T → Event T ⊕ Event T → List T × List T → Prop
  | left {l l' m : List T} {e : Event T} (h : Step l e l') : PairStep (l, m) (.inl e) (l', m)
  | right {l m m' : List T} {e : Event T} (h : Step m e m') : PairStep (l, m) (.inr e) (l, m')

/-- Two lists with the contents `l` and `m`. -/
def pair (l m : List T) : System (List T × List T) (Event T ⊕ Event T) where
  init s := s = (l, m)
  step := PairStep

end Spec

namespace HashList

/-- Two hash lists side by side. -/
inductive PairStep : HashList T × HashList T → Event T ⊕ Event T → HashList T × HashList T → Prop
  | left {a a' b : HashList T} {e : Event T} (h : Step b.nodes a e (some a')) :
      PairStep (a, b) (.inl e) (a', b)
  | right {a b b' : HashList T} {e : Event T} (h : Step a.nodes b e (some b')) :
      PairStep (a, b) (.inr e) (a, b')

/-- The two hash lists `a` and `b`. -/
def pair (a b : HashList T) : System (HashList T × HashList T) (Event T ⊕ Event T) where
  init s := s = (a, b)
  step := PairStep

/-- Every entry of the index refers to a node of the list itself, the one of its value. -/
def OwnsIndex (h : HashList T) : Prop :=
  ∀ val it, h.umap val = some it → ∃ n, it = .node n ∧ (n, val) ∈ h.lst

/-- Whatever is done with either of two hash lists, each behaves as one built from its values,
and the other keeps its contents. -/
def Independent (a b : HashList T) : Prop :=
  ∀ tr a' b', Run (pair a b) tr (a', b') →
    OwnsIndex a' ∧ OwnsIndex b' ∧
      Run (Spec.pair a.values b.values) tr (a'.values, b'.values) ∧
      Defined b'.nodes a' ∧ Defined a'.nodes b'

/-- `b` is a copy of `a`, in nodes that `a` does not use. -/
def IsCopy (a b : HashList T) : Prop :=
  ∃ fresh : List Node, fresh.length = a.lst.length ∧ fresh.Nodup ∧ (∀ n ∈ fresh, n ∉ a.nodes) ∧
    b = a.copy fresh

omit [DecidableEq T] in
theorem Linked.ownsIndex {h : HashList T} (hl : Linked h) : OwnsIndex h := fun val it hit ↦ by
  obtain ⟨n, hn, rfl⟩ := (hl.index val it).1 hit
  exact ⟨n, rfl, hn⟩

/-- Hash lists in good order are independent. -/
theorem Linked.independent {a b : HashList T} (ha : Linked a) (hb : Linked b) :
    Independent a b := by
  have hsim : Simulation (pair a b) (Spec.pair a.values b.values) fun s t ↦
      (Linked s.1 ∧ Linked s.2) ∧ t = (s.1.values, s.2.values) :=
    { init := fun s hs ↦ ⟨_, rfl, by rw [hs]; exact ⟨ha, hb⟩, by rw [hs]⟩
      step := by
        rintro s t e s' ⟨⟨h₁, h₂⟩, rfl⟩ hstep
        cases hstep with
        | left h =>
          obtain ⟨hl, hspec⟩ := h₁.of_step h
          exact ⟨_, .left hspec, ⟨hl, h₂⟩, rfl⟩
        | right h =>
          obtain ⟨hl, hspec⟩ := h₂.of_step h
          exact ⟨_, .right hspec, ⟨h₁, hl⟩, rfl⟩ }
  intro tr a' b' hrun
  obtain ⟨t, hspec, ⟨ha', hb'⟩, rfl⟩ := hsim.run hrun
  exact ⟨ha'.ownsIndex, hb'.ownsIndex, hspec, ha'.defined _, hb'.defined _⟩

/-- **When a copy is independent.** Exactly when there was nothing to copy. -/
theorem copy_independent_iff {range : List T} {tr : List (Event T)} {a b : HashList T}
    (hrun : Run (system range) tr (some a)) (hcopy : IsCopy a b) :
    Independent a b ↔ a.lst = [] := by
  obtain ⟨fresh, hlen, hnodup, hfresh, rfl⟩ := hcopy
  have hl := linked_of_run hrun
  constructor
  · intro hind
    -- the first value of the original: its entry in the copy refers to the original's node
    by_contra hne
    obtain ⟨⟨n, val⟩, rest, hlst⟩ := List.exists_cons_of_ne_nil hne
    have hn : (n, val) ∈ a.lst := hlst ▸ List.mem_cons_self
    obtain ⟨-, howns, -⟩ := hind [] _ _ (.nil rfl)
    obtain ⟨m, hm, hmem⟩ := howns val (.node n) ((hl.index val _).2 ⟨n, hn, rfl⟩)
    cases hm
    exact hfresh n (List.of_mem_zip hmem).1 (List.mem_map.2 ⟨(n, val), hn, rfl⟩)
  · intro hnil
    have hzip : (a.copy fresh).lst = [] := by
      simp [copy, values, hnil]
    refine hl.independent ⟨?_, ?_, fun val it ↦ ?_⟩
    · rw [nodes, hzip]
      exact List.nodup_nil
    · rw [values, hzip]
      exact List.nodup_nil
    · rw [hzip]
      exact (hl.index val it).trans (by rw [hnil])

/-- A list of one value and its copy. -/
theorem copy_independent_iff_one :
    ∃ a b, Run (system [5]) [] (some a) ∧ IsCopy a b ∧ (Independent a b ↔ a.lst = []) := by
  have hrun : Run (system [5]) []
      (some ⟨[(0, 5)], Function.update (fun _ ↦ none) 5 (some (.node 0))⟩) :=
    .nil ⟨[0], rfl, by decide, rfl⟩
  have hcopy : IsCopy ⟨[(0, 5)], Function.update (fun _ ↦ none) 5 (some (.node 0))⟩ _ :=
    ⟨[1], rfl, by decide, by decide, rfl⟩
  exact ⟨_, _, hrun, hcopy, copy_independent_iff hrun hcopy⟩

/-- The index of the copy refers to the node of the original, through which the copy cannot
erase the value. -/
theorem copy_not_independent :
    ∃ a b, Run (system [5]) [] (some a) ∧ IsCopy a b ∧ ¬Independent a b ∧
      b.erase (.value 5) = none := by
  refine ⟨⟨[(0, 5)], Function.update (fun _ ↦ none) 5 (some (.node 0))⟩, _,
    .nil ⟨[0], rfl, by decide, rfl⟩, ⟨[1], rfl, by decide, by decide, rfl⟩, ?_, rfl⟩
  intro hind
  obtain ⟨-, howns, -⟩ := hind [] _ _ (.nil rfl)
  obtain ⟨n, hn, hmem⟩ := howns 5 (.node 0) rfl
  cases hn
  exact absurd hmem (by decide)

end HashList

end Cppkg.Estd
