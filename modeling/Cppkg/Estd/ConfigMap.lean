import Cppkg.Estd.Config
import Cppkg.Lib.RefCount
import Mathlib.Data.List.AList

/-!
# ConfigMap and the entries it shares

`ConfigMap` of `config.h`, and a system of any number of maps that are filled, copied, assigned
and destroyed in any order. A map holds its entries by shared pointers, so a copy holds the entries
of the map it was copied from; the destructor of an entry runs when the last shared pointer to it
goes. Entries are numbered by the `make_shared` that made them. The data of entries are pointers
other than null.

`Backs` ties the entries to the keys of the maps that hold them: an entry is there exactly when
some key of some map holds it, and was destroyed once otherwise (`Story`). The order in which a map
that is destroyed or assigned to lets go of its entries is that of its keys here; a hash table may
have any.
-/

namespace Cppkg.Estd

open Function Transition RefCount

variable {K α : Type*}

/-- What becomes of an entry. -/
inductive EntryEvent (K α : Type*) where
  /-- The init function is run for a key of a map, and the entry made of its result. -/
  | init (m : ℕ) (key : K) (e : ℕ) (object : ConfigEntry α)
  /-- The destructor of the entry is run. -/
  | destruct (e : ℕ) (object : ConfigEntry α)

namespace EntryEvent

/-- The entry it is about. -/
def entry : EntryEvent K α → ℕ
  | .init _ _ e _ => e
  | .destruct e _ => e

@[simp] theorem entry_init (m : ℕ) (key : K) (e : ℕ) (object : ConfigEntry α) :
    (init m key e object).entry = e := rfl

@[simp] theorem entry_destruct (e : ℕ) (object : ConfigEntry α) :
    (destruct e object : EntryEvent K α).entry = e := rfl

/-- The deletion it invokes, with the data it is invoked on. -/
def invoked : EntryEvent K α → Option (ℕ × α)
  | .init _ _ _ _ => none
  | .destruct _ object => object.release

/-- Whether data is there after the event: an init function returns it, a deletion deletes it. -/
def after [DecidableEq α] (data : α) (live : Bool) : EntryEvent K α → Bool
  | .init _ _ _ object => decide (object.data = data) || live
  | .destruct _ object => !(object.deletion.isSome && decide (object.data = data)) && live

end EntryEvent

/-- The entries behind the shared pointers. -/
structure EntryHeap (K α : Type*) where
  /-- The entries that are not destroyed. -/
  entry : ℕ → Option (ConfigEntry α)
  /-- The number of shared pointers to an entry. -/
  useCount : ℕ → ℕ
  /-- The next entry. -/
  next : ℕ
  log : List (EntryEvent K α)

namespace EntryHeap

/-- No entries. -/
def empty : EntryHeap K α where
  entry _ := none
  useCount _ := 0
  next := 0
  log := []

/-- The init function returns, and `make_shared` makes an entry for a key of a map. -/
def makeShared (heap : EntryHeap K α) (m : ℕ) (key : K) (object : ConfigEntry α) :
    ℕ × EntryHeap K α :=
  (heap.next,
    { entry := update heap.entry heap.next (some object)
      useCount := update heap.useCount heap.next 1
      next := heap.next + 1
      log := heap.log ++ [.init m key heap.next object] })

/-- A shared pointer is copied. -/
def retain (heap : EntryHeap K α) (e : ℕ) : EntryHeap K α :=
  { heap with useCount := update heap.useCount e (heap.useCount e + 1) }

/-- A shared pointer is destroyed. -/
def release (heap : EntryHeap K α) (e : ℕ) : EntryHeap K α :=
  let useCount := update heap.useCount e (heap.useCount e - 1)
  if heap.useCount e = 1 then
    { heap with
      entry := update heap.entry e none
      useCount := useCount
      log := heap.log ++ ((heap.entry e).map (EntryEvent.destruct e)).toList }
  else { heap with useCount := useCount }

/-- Whether an init function has returned the data, and no deletion has deleted it since. -/
def live [DecidableEq α] (heap : EntryHeap K α) (data : α) : Bool :=
  heap.log.foldl (EntryEvent.after data) false

end EntryHeap

/-- `ConfigMap`. -/
structure ConfigMap (K : Type*) where
  /-- `entries_`, with the numbers of the entries pointed to. -/
  entries : AList fun _ : K ↦ ℕ

namespace ConfigMap

/-- The default constructor. -/
def empty : ConfigMap K := ⟨∅⟩

/-- `get_keys`. -/
def getKeys (map : ConfigMap K) : List K := map.entries.keys

/-- The shared pointers of a map. -/
def pointers (map : ConfigMap K) : List ℕ := map.entries.entries.map Sigma.snd

variable [DecidableEq K]

/-- `has_key`. -/
def hasKey (map : ConfigMap K) (key : K) : Bool := decide (key ∈ map.entries)

/-- `get_obj`: data, or the null pointer. It is not defined when the entry was destroyed. -/
def getObj (map : ConfigMap K) (heap : EntryHeap K α) (key : K) : Option (Option α) :=
  match map.entries.lookup key with
  | some e => (heap.entry e).map fun object ↦ some object.data
  | none => some none

/-- `add_entry` on map number `m`, with what the init function returns when it is run. -/
def addEntry (map : ConfigMap K) (heap : EntryHeap K α) (m : ℕ) (key : K) (init : α)
    (del : EntryDelF) : ConfigMap K × EntryHeap K α :=
  if map.hasKey key = false then
    let r := heap.makeShared m key ⟨init, del⟩
    (⟨map.entries.insert key r.1⟩, r.2)
  else (map, heap)

/-- `rm_entry`. -/
def rmEntry (map : ConfigMap K) (heap : EntryHeap K α) (key : K) : ConfigMap K × EntryHeap K α :=
  match map.entries.lookup key with
  | some e => (⟨map.entries.erase key⟩, heap.release e)
  | none => (map, heap)

omit [DecidableEq K] in
/-- The copy constructor. -/
def copyConstruct (other : ConfigMap K) (heap : EntryHeap K α) : ConfigMap K × EntryHeap K α :=
  (other, other.pointers.foldl EntryHeap.retain heap)

omit [DecidableEq K] in
/-- The destructor. -/
def destroy (map : ConfigMap K) (heap : EntryHeap K α) : EntryHeap K α :=
  map.pointers.foldl EntryHeap.release heap

omit [DecidableEq K] in
/-- The copy assignment from another map. -/
def copyAssign (map other : ConfigMap K) (heap : EntryHeap K α) : ConfigMap K × EntryHeap K α :=
  other.copyConstruct (map.destroy heap)

end ConfigMap

/-- Maps by number, and the entries they share. -/
structure ConfigMaps (K α : Type*) where
  /-- The maps that are alive. -/
  map : ℕ → Option (ConfigMap K)
  heap : EntryHeap K α

namespace ConfigMaps

inductive Action (K α : Type*) where
  | create (m : ℕ)
  | addEntry (m : ℕ) (key : K) (init : α) (del : EntryDelF)
  | rmEntry (m : ℕ) (key : K)
  | copyConstruct (m j : ℕ)
  | copyAssign (m j : ℕ)
  | destroy (m : ℕ)

/-- The map that the operation is on. -/
def Action.target : Action K α → ℕ
  | .create m | .addEntry m _ _ _ | .rmEntry m _ | .copyConstruct m _ | .copyAssign m _
  | .destroy m => m

/-- No maps. -/
def initial : ConfigMaps K α := ⟨fun _ ↦ none, .empty⟩

/-- Map number `m` becomes what the operation makes of it. -/
def put (s : ConfigMaps K α) (m : ℕ) (r : ConfigMap K × EntryHeap K α) : ConfigMaps K α :=
  ⟨update s.map m (some r.1), r.2⟩

variable [DecidableEq K]

/-- What an operation does. It is defined for maps that are alive, and for a construction of one
that is not. -/
def apply (s : ConfigMaps K α) : Action K α → Option (ConfigMaps K α)
  | .create m => match s.map m with
    | some _ => none
    | none => some (s.put m (.empty, s.heap))
  | .addEntry m key init del =>
    (s.map m).map fun map ↦ s.put m (map.addEntry s.heap m key init del)
  | .rmEntry m key => (s.map m).map fun map ↦ s.put m (map.rmEntry s.heap key)
  | .copyConstruct m j => match s.map m with
    | some _ => none
    | none => (s.map j).map fun other ↦ s.put m (other.copyConstruct s.heap)
  | .copyAssign m j => (s.map m).bind fun map ↦ (s.map j).map fun other ↦
      -- a table that is assigned to itself is left alone
      if m = j then s else s.put m (map.copyAssign other s.heap)
  | .destroy m => (s.map m).map fun map ↦ ⟨update s.map m none, map.destroy s.heap⟩

/-- Any number of maps. -/
def configMaps : System (ConfigMaps K α) (Action K α) where
  init s := s = initial
  step s a s' := s.apply a = some s'

/-- An init function that is run returns fresh data. -/
def Fresh [DecidableEq α] (s : ConfigMaps K α) : Action K α → Prop
  | .addEntry m key init _ =>
    ∀ map, s.map m = some map → map.hasKey key = false → s.heap.live init = false
  | _ => True

end ConfigMaps

/-! ### What the entries are to the keys that hold them -/

/-- What has become of an entry: its object while it is there, and its events. -/
inductive Story (e : ℕ) : Option (ConfigEntry α) → List (EntryEvent K α) → Prop
  | unborn : Story e none []
  | alive (m : ℕ) (key : K) (object : ConfigEntry α) :
      Story e (some object) [.init m key e object]
  | dead (m : ℕ) (key : K) (object : ConfigEntry α) :
      Story e none [.init m key e object, .destruct e object]

namespace EntryHeap

/-- The events of an entry. -/
def events (heap : EntryHeap K α) (e : ℕ) : List (EntryEvent K α) :=
  heap.log.filter fun ev ↦ ev.entry = e

theorem events_of_log (heap : EntryHeap K α) {heap' : EntryHeap K α} {ev : EntryEvent K α}
    (h : heap'.log = heap.log ++ [ev]) (e : ℕ) :
    heap'.events e = heap.events e ++ if ev.entry = e then [ev] else [] := by
  simp [events, h, List.filter_cons]

variable [DecidableEq α]

theorem live_of_log (heap : EntryHeap K α) {heap' : EntryHeap K α} {ev : EntryEvent K α}
    (h : heap'.log = heap.log ++ [ev]) (data : α) :
    heap'.live data = ev.after data (heap.live data) := by
  simp [live, h]

/-- The entries that are there are those some handle holds, and are counted once for each. Their
data is there, and is not that of another entry. -/
structure Backs (heap : EntryHeap K α) (hold : ℕ × K → Option ℕ) : Prop where
  counts : Counts hold heap.useCount
  isSome_entry : ∀ e, (heap.entry e).isSome = true ↔ 0 < heap.useCount e
  story : ∀ e, Story e (heap.entry e) (heap.events e)
  lt_next : ∀ ev ∈ heap.log, ev.entry < heap.next
  live : ∀ e object, heap.entry e = some object → heap.live object.data = true
  data_inj : ∀ e e' object object', heap.entry e = some object → heap.entry e' = some object' →
    object.data = object'.data → e = e'

theorem Backs.empty : (empty : EntryHeap K α).Backs fun _ ↦ none where
  counts := .empty
  isSome_entry e := by simp [EntryHeap.empty]
  story e := .unborn
  lt_next ev h := by simp [EntryHeap.empty] at h
  live e object h := by simp [EntryHeap.empty] at h
  data_inj e e' object object' h := by simp [EntryHeap.empty] at h

variable {heap : EntryHeap K α} {hold : ℕ × K → Option ℕ} {h : ℕ × K} {e m : ℕ} {key : K}
  {object : ConfigEntry α}

namespace Backs

theorem isSome_iff (hb : heap.Backs hold) : (heap.entry e).isSome = true ↔ ∃ h, hold h = some e :=
  (hb.isSome_entry e).trans hb.counts.pos_iff

/-- An entry that a key holds is there. -/
theorem exists_entry (hb : heap.Backs hold) (hh : hold h = some e) :
    ∃ object, heap.entry e = some object :=
  Option.isSome_iff_exists.1 (hb.isSome_iff.2 ⟨h, hh⟩)

theorem entry_of_next_le (hb : heap.Backs hold) (he : heap.next ≤ e) :
    heap.events e = [] ∧ heap.entry e = none := by
  have hevents : heap.events e = [] := by
    refine List.filter_eq_nil_iff.2 fun ev hev ↦ ?_
    have hlt := hb.lt_next ev hev
    simp only [decide_eq_true_eq]
    omega
  have hs := hb.story e
  rw [hevents] at hs
  generalize heap.entry e = o at hs
  cases hs
  exact ⟨hevents, rfl⟩

theorem lt_of_hold (hb : heap.Backs hold) (hh : hold h = some e) : e < heap.next := by
  obtain ⟨object, ho⟩ := hb.exists_entry hh
  refine Nat.lt_of_not_le fun hle ↦ ?_
  simp [(hb.entry_of_next_le hle).2] at ho

variable [DecidableEq K]

/-- **A shared pointer is copied**, for a key that holds nothing. -/
theorem retain (hb : heap.Backs hold) (hh : hold h = none) (he : ∃ k, hold k = some e) :
    (heap.retain e).Backs (update hold h (some e)) where
  counts := hb.counts.acquire hh
  isSome_entry e' := by
    by_cases hee : e' = e
    · subst hee
      simp [EntryHeap.retain, hb.isSome_iff, he]
    · simpa [EntryHeap.retain, hee] using hb.isSome_entry e'
  story := hb.story
  lt_next := hb.lt_next
  live := hb.live
  data_inj := hb.data_inj

/-- **An entry is made** of fresh data, for a key that holds nothing. -/
theorem makeShared (hb : heap.Backs hold) (hh : hold h = none)
    (hfresh : heap.live object.data = false) :
    (heap.makeShared m key object).2.Backs (update hold h (some heap.next)) where
  counts := by
    have hnone := (hb.entry_of_next_le (Nat.le_refl heap.next)).2
    have hzero : heap.useCount heap.next = 0 := by
      rw [← Nat.le_zero, ← Nat.not_lt, ← hb.isSome_entry, hnone]
      simp
    have hc := hb.counts.acquire (t := heap.next) hh
    rwa [hzero] at hc
  isSome_entry e := by
    by_cases he : e = heap.next
    · simp [EntryHeap.makeShared, he]
    · simpa [EntryHeap.makeShared, he] using hb.isSome_entry e
  story e := by
    rw [events_of_log heap rfl, EntryEvent.entry_init]
    by_cases he : e = heap.next
    · subst he
      rw [(hb.entry_of_next_le (Nat.le_refl heap.next)).1, if_pos rfl]
      simpa [EntryHeap.makeShared] using Story.alive m key object
    · rw [if_neg (Ne.symm he), List.append_nil]
      simpa [EntryHeap.makeShared, he] using hb.story e
  lt_next ev hev := by
    rcases List.mem_append.1 hev with hev | hev
    · exact Nat.lt_succ_of_lt (hb.lt_next ev hev)
    · obtain rfl := List.mem_singleton.1 hev
      exact Nat.lt_succ_self _
  live e object' he := by
    rw [live_of_log heap rfl, EntryEvent.after]
    by_cases hnext : e = heap.next
    · obtain rfl : object = object' := by simpa [EntryHeap.makeShared, hnext] using he
      simp
    · simp [hb.live e object' (by simpa [EntryHeap.makeShared, hnext] using he)]
  data_inj e e' o o' he he' hdata := by
    by_cases hnext : e = heap.next <;> by_cases hnext' : e' = heap.next <;>
      simp only [EntryHeap.makeShared, hnext, hnext', update_self, ne_eq, not_false_eq_true,
        update_of_ne, Option.some.injEq] at he he'
    · exact hnext.trans hnext'.symm
    · subst he
      simp [hdata, hb.live e' o' he'] at hfresh
    · subst he'
      simp [← hdata, hb.live e o he] at hfresh
    · exact hb.data_inj e e' o o' he he' hdata

/-- The last shared pointer to an entry is destroyed. -/
theorem release_last (hb : heap.Backs hold) (hh : hold h = some e) (hone : heap.useCount e = 1)
    (ho : heap.entry e = some object) :
    EntryHeap.Backs { heap with
        entry := update heap.entry e none
        useCount := update heap.useCount e 0
        log := heap.log ++ [.destruct e object] } (update hold h none) where
  counts := by
    have hc := hb.counts.release hh
    rwa [hone] at hc
  isSome_entry e' := by
    by_cases hee : e' = e
    · simp [hee]
    · simpa [hee] using hb.isSome_entry e'
  story e' := by
    rw [events_of_log heap rfl, EntryEvent.entry_destruct]
    have hs := hb.story e'
    by_cases hee : e' = e
    · subst hee
      rw [ho] at hs
      simp only [if_true, update_self]
      generalize heap.events e' = evs at hs
      cases hs with
      | alive m key => exact .dead m key object
    · rw [if_neg (Ne.symm hee), List.append_nil]
      simpa [hee] using hs
  lt_next ev hev := by
    rcases List.mem_append.1 hev with hev | hev
    · exact hb.lt_next ev hev
    · obtain rfl := List.mem_singleton.1 hev
      exact hb.lt_of_hold hh
  live e' object' he' := by
    obtain ⟨hee, he'⟩ := Ledger.hold_update_none.1 he'
    -- the data that is deleted is that of no other entry
    have hdata : object.data ≠ object'.data := fun hdata ↦
      hee (hb.data_inj e e' object object' ho he' hdata).symm
    rw [live_of_log heap rfl, EntryEvent.after]
    simp [hdata, hb.live e' object' he']
  data_inj e₁ e₂ o₁ o₂ h₁ h₂ := hb.data_inj e₁ e₂ o₁ o₂ (Ledger.hold_update_none.1 h₁).2
    (Ledger.hold_update_none.1 h₂).2

/-- **A shared pointer is destroyed**, for a key that holds the entry. -/
theorem release (hb : heap.Backs hold) (hh : hold h = some e) :
    (heap.release e).Backs (update hold h none) := by
  obtain ⟨object, ho⟩ := hb.exists_entry hh
  rw [EntryHeap.release]
  by_cases hone : heap.useCount e = 1
  · rw [if_pos hone, ho, hone]
    exact hb.release_last hh hone ho
  · rw [if_neg hone]
    refine ⟨hb.counts.release hh, fun e' ↦ ?_, hb.story, hb.lt_next, hb.live, hb.data_inj⟩
    by_cases hee : e' = e
    · subst hee
      have hpos : 0 < heap.useCount e' := hb.counts.pos_iff.2 ⟨h, hh⟩
      simp only [ho, Option.isSome_some, update_self, true_iff]
      omega
    · simpa [hee] using hb.isSome_entry e'

end Backs

end EntryHeap

end Cppkg.Estd
