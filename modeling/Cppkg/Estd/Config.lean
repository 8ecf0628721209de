import Cppkg.Lib.Ledger
import Cppkg.Lib.Transition

/-!
# ConfigEntry and the resources it releases

`ConfigEntry` of `config.h`, and a system of any number of entries to which its special member
functions are applied in any order. Deletions are numbered by the construction they were given
at. A `std::function` that was moved from is taken to be empty; moving a `void*` copies it.

The entries are a ledger of deletions, each with the data it was constructed with. An entry that
is destroyed spends its deletion. The move assignment does not invoke the deletion of the entry
it assigns to, and so drops it, where the move assignment of `ScopeGuard` spends it.
-/

namespace Cppkg.Estd

open Function Transition

variable {α : Type*}

/-- `EntryDelF`: a deletion, by its number, or an empty function. -/
abbrev EntryDelF := Option ℕ

/-- `ConfigEntry`. -/
structure ConfigEntry (α : Type*) where
  /-- `data_`. -/
  data : α
  /-- `deletion_`. -/
  deletion : EntryDelF

namespace ConfigEntry

/-- The deletion of an entry, with the data it would be invoked on. -/
def release (entry : ConfigEntry α) : Option (ℕ × α) := entry.deletion.map (·, entry.data)

/-- The move constructor: the new entry, and `other` afterwards. -/
def moveConstruct (other : ConfigEntry α) : ConfigEntry α × ConfigEntry α :=
  ({ data := other.data, deletion := other.deletion }, { other with deletion := none })

/-- The move assignment from another entry: the two entries afterwards. -/
def moveAssign (entry other : ConfigEntry α) : ConfigEntry α × ConfigEntry α :=
  let entry := { entry with data := other.data }
  let entry := { entry with deletion := other.deletion }
  (entry, { other with deletion := none })

end ConfigEntry

/-- Entries by number, the deletions given to them so far, and the invocations of deletions. -/
structure Entries (α : Type*) where
  /-- The entries that are alive. -/
  entry : ℕ → Option (ConfigEntry α)
  given : List (ℕ × α)
  /-- The deletions invoked, with the data they were invoked on. -/
  released : List (ℕ × α)
  /-- The deletions overwritten by a move assignment. -/
  lost : List (ℕ × α)

namespace Entries

/-- No entries. -/
def initial : Entries α where
  entry _ := none
  given := []
  released := []
  lost := []

inductive Action (α : Type*) where
  | construct (i : ℕ) (data : α) (deletion : EntryDelF)
  | moveConstruct (i j : ℕ)
  | moveAssign (i j : ℕ)
  | destroy (i : ℕ)

/-- A member function is called. -/
inductive Step (s : Entries α) : Action α → Entries α → Prop
  | construct (i : ℕ) (data : α) (deletion : EntryDelF) (hi : s.entry i = none)
      (hd : ∀ d, deletion = some d → d ∉ s.given.map Prod.fst) :
      Step s (.construct i data deletion)
        { s with
          entry := update s.entry i (some ⟨data, deletion⟩)
          given := s.given ++ (ConfigEntry.mk data deletion).release.toList }
  | moveConstruct {i j : ℕ} {other : ConfigEntry α} (hi : s.entry i = none)
      (hj : s.entry j = some other) :
      Step s (.moveConstruct i j)
        { s with
          entry := update (update s.entry i (some other.moveConstruct.1)) j
            (some other.moveConstruct.2) }
  /-- The move assignment of an entry to itself. -/
  | selfAssign {i : ℕ} {entry : ConfigEntry α} (hi : s.entry i = some entry) :
      Step s (.moveAssign i i) s
  | moveAssign {i j : ℕ} {entry other : ConfigEntry α} (hij : i ≠ j)
      (hi : s.entry i = some entry) (hj : s.entry j = some other) :
      Step s (.moveAssign i j)
        { s with
          entry := update (update s.entry i (some (entry.moveAssign other).1)) j
            (some (entry.moveAssign other).2)
          lost := s.lost ++ entry.release.toList }
  | destroy {i : ℕ} {entry : ConfigEntry α} (hi : s.entry i = some entry) :
      Step s (.destroy i)
        { s with
          entry := update s.entry i none
          released := s.released ++ entry.release.toList }

/-- Any number of entries. -/
def entries : System (Entries α) (Action α) where
  init s := s = initial
  step := Step

/-- Deletions and their data as tokens of the entries. -/
def ledger (s : Entries α) : Ledger ℕ (ℕ × α) where
  hold i := (s.entry i).bind ConfigEntry.release
  issued := s.given
  spent := s.released
  dropped := s.lost

variable {s s' : Entries α} {a : Action α} {tr : List (Action α)}

/-! ### The member functions as operations of the ledger -/

/-- **A step is an operation of the ledger**, and keeps it accounted. -/
theorem accounted_step (h : s.ledger.Accounted) (hs : Step s a s') : s'.ledger.Accounted := by
  cases hs with
  | construct i data deletion hi hd =>
    have hnone : s.ledger.hold i = none := by simp [ledger, hi]
    cases deletion with
    | none =>
      have heq : update s.ledger.hold i none = s.ledger.hold := update_eq_self_iff.2 hnone.symm
      simp only [ledger, Ledger.bind_update, ConfigEntry.release, Option.bind_some, Option.map_none,
        Option.toList_none, List.append_nil] at heq ⊢
      rwa [heq]
    | some d =>
      have hnew : (d, data) ∉ s.ledger.issued := fun hmem ↦
        hd d rfl (List.mem_map_of_mem (f := Prod.fst) hmem)
      have hl := h.issue hnone hnew
      simpa [ledger, Ledger.bind_update, Ledger.issue, ConfigEntry.release] using hl
  | @moveConstruct i j other hi hj =>
    have hji : j ≠ i := by
      rintro rfl
      simp [hi] at hj
    have hl := h.transfer hji (by simp [ledger, hi])
    simpa [ledger, Ledger.bind_update, Ledger.transfer, ConfigEntry.moveConstruct,
      ConfigEntry.release, hj] using hl
  | selfAssign => exact h
  | @moveAssign i j entry other hij hi hj =>
    have hl := (h.drop i).transfer hij.symm (by simp [Ledger.drop])
    simpa [ledger, Ledger.bind_update, Ledger.transfer, Ledger.drop, ConfigEntry.moveAssign,
      ConfigEntry.release, hi, hj, hij.symm] using hl
  | @destroy i entry hi =>
    have hl := h.spend i
    simpa [ledger, Ledger.bind_update, Ledger.spend, hi] using hl

/-- The ledger is accounted, and the deletions given are distinct. -/
structure Consistent (s : Entries α) : Prop where
  accounted : s.ledger.Accounted
  nodup : (s.given.map Prod.fst).Nodup

theorem Consistent.step (h : Consistent s) (hs : Step s a s') : Consistent s' := by
  refine ⟨accounted_step h.accounted hs, ?_⟩
  cases hs with
  | construct i data deletion hi hd =>
    cases deletion with
    | none => simpa [ConfigEntry.release] using h.nodup
    | some d =>
      simp only [ConfigEntry.release, Option.map_some, Option.toList_some, List.map_append,
        List.map_cons, List.map_nil]
      exact List.nodup_append.2 ⟨h.nodup, List.nodup_singleton d, by
        rintro u hu v hv rfl
        exact hd d rfl (List.mem_singleton.1 hv ▸ hu)⟩
  | _ => exact h.nodup

theorem consistent_of_run (h : Run entries tr s) : Consistent s := by
  refine h.invariant ?_ ?_
  · rintro _ rfl
    exact ⟨Ledger.Accounted.empty, List.nodup_nil⟩
  · exact fun _ _ _ hc hs ↦ hc.step hs

/-! ### Every run -/

/-- A deletion given was invoked exactly once, on its data. -/
def Released (s : Entries α) (d : ℕ) (data : α) : Prop :=
  s.released.filter (fun r ↦ r.1 = d) = [(d, data)]

/-- Once all entries are destroyed, the deletions were invoked once, on their data, unless one
was overwritten. -/
theorem Consistent.released_iff (h : Consistent s) (hend : ∀ i, s.entry i = none) :
    (∀ d data, (d, data) ∈ s.given → s.Released d data) ↔ s.lost = [] := by
  classical
  have hl := h.accounted
  refine Iff.trans ⟨?_, ?_⟩ (hl.spent_iff_dropped_eq_nil fun i ↦ by simp [ledger, hend i])
  · rintro hr ⟨d, data⟩ hgiven
    have hfilter := congrArg (List.count (d, data)) (hr d data hgiven)
    rw [List.count_filter (by simp), List.count_singleton_self] at hfilter
    exact hfilter
  · intro hcount d data hgiven
    -- the deletion comes with one data only
    have hpair : ∀ r ∈ s.released, decide (r.1 = d) = decide (r = (d, data)) := by
      intro r hr
      have hr' : r ∈ s.given := (hl.issued_iff r).2 (.inr (List.mem_append_left _ hr))
      refine decide_eq_decide.2 ⟨fun hd ↦ ?_, fun hd ↦ by rw [hd]⟩
      exact List.inj_on_of_nodup_map h.nodup hr' hgiven hd
    rw [Released, List.filter_congr hpair, List.filter_eq]
    exact congrArg (List.replicate · (d, data)) (hcount _ hgiven)

/-- The entry that is assigned to holds no deletion. -/
def KeepsTarget (s : Entries α) (a : Action α) : Prop :=
  ∀ i j entry, a = .moveAssign i j → i ≠ j → s.entry i = some entry → entry.deletion = none

theorem lost_eq_nil_iff (h : Run entries tr s) :
    s.lost = [] ↔ Run (entries.restrict KeepsTarget) tr s := by
  constructor
  · intro hlost
    induction h with
    | nil hi => exact .nil hi
    | @snoc tr s s' a _ hs ih =>
      have hkeep : s.lost = [] ∧ KeepsTarget s a := by
        cases hs with
        | selfAssign => exact ⟨hlost, by rintro i j entry ⟨rfl, rfl⟩ hij; exact absurd rfl hij⟩
        | @moveAssign i j entry other hij hi hj =>
          obtain ⟨hlost, hnone⟩ := List.append_eq_nil_iff.1 hlost
          refine ⟨hlost, ?_⟩
          rintro _ _ entry' ⟨rfl, rfl⟩ - hi'
          obtain rfl := Option.some.inj (hi.symm.trans hi')
          simpa [ConfigEntry.release] using hnone
        | _ => exact ⟨hlost, by simp [KeepsTarget]⟩
      exact (ih hkeep.1).snoc ⟨hs, hkeep.2⟩
  · intro hr
    refine hr.invariant (I := fun s ↦ s.lost = []) ?_ ?_
    · rintro _ rfl
      rfl
    · rintro s a s' hlost ⟨hs, hkeep⟩
      cases hs with
      | @moveAssign i j entry other hij hi hj =>
        simp [hlost, ConfigEntry.release, hkeep i j entry rfl hij hi]
      | _ => exact hlost

/-- **Every deletion is invoked exactly once, on its data**, in a run that ends with all entries
destroyed, if and only if no entry that holds a deletion is assigned to. -/
theorem released_once_iff (h : Run entries tr s) (hend : ∀ i, s.entry i = none) :
    (∀ d data, (d, data) ∈ s.given → s.Released d data) ↔
      Run (entries.restrict KeepsTarget) tr s :=
  ((consistent_of_run h).released_iff hend).trans (lost_eq_nil_iff h)

/-- An entry is constructed from another one, assigned to the first, and both are destroyed. -/
theorem released_once_iff_moved : ∃ s : Entries ℕ, Run entries [.construct 0 5 (some 0),
    .moveConstruct 1 0, .moveAssign 0 1, .destroy 1, .destroy 0] s ∧ s.released = [(0, 5)] ∧
    Run (entries.restrict KeepsTarget) [.construct 0 5 (some 0), .moveConstruct 1 0,
      .moveAssign 0 1, .destroy 1, .destroy 0] s := by
  have h := (((((Run.nil (S := entries (α := ℕ)) rfl).snoc
    (Step.construct 0 5 (some 0) rfl (by simp [initial]))).snoc
    (Step.moveConstruct (i := 1) (j := 0) rfl rfl)).snoc
    (Step.moveAssign (i := 0) (j := 1) (by decide) rfl rfl)).snoc
    (Step.destroy (i := 1) rfl)).snoc (Step.destroy (i := 0) rfl)
  refine ⟨_, h, rfl, (released_once_iff h fun i ↦ ?_).1 ?_⟩
  · rcases i with _ | _ | i <;> rfl
  · rintro d data hgiven
    obtain ⟨rfl, rfl⟩ := Prod.mk.inj (List.mem_singleton.1 hgiven)
    rfl

/-- The second of two entries is assigned to the first, and both are destroyed. -/
theorem not_released_moveAssign : ¬ ∀ (tr : List (Action ℕ)) (s : Entries ℕ),
    Run entries tr s → (∀ i, s.entry i = none) →
    ∀ d data, (d, data) ∈ s.given → s.Released d data := by
  intro hall
  have h := (((((Run.nil (S := entries (α := ℕ)) rfl).snoc
    (Step.construct 0 5 (some 0) rfl (by simp [initial]))).snoc
    (Step.construct 1 6 (some 1) rfl
      (by simp [initial, ConfigEntry.release]))).snoc
    (Step.moveAssign (i := 0) (j := 1) (by decide) rfl rfl)).snoc
    (Step.destroy (i := 1) rfl)).snoc (Step.destroy (i := 0) rfl)
  have hr := hall _ _ h (fun i ↦ by rcases i with _ | _ | i <;> rfl) 0 5 List.mem_cons_self
  -- only the second deletion was invoked
  have hnil : ([] : List (ℕ × ℕ)) = [(0, 5)] := hr
  simp at hnil

end Entries

end Cppkg.Estd
