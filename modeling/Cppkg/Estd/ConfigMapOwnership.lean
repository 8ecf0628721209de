import Cppkg.Estd.ConfigMap
import Mathlib.Data.List.DropRight

/-!
# Who owns the entries of a ConfigMap

Runs of any number of maps. Every operation keeps the entries backed by the keys that hold them
(`backs_of_run`). So the deletion of an entry is invoked once, by the operation after which no map
holds it any more, and not before (`Owned`, `Shares`).

`history` is what was done to a map, and before that to the map it was copied from. The data found
at a key is that of the first addition since the key was last removed (`firstAdd`), read off the
history alone.
-/

namespace Cppkg.Estd

open Function Transition RefCount

variable {K α : Type*}

/-! ### The destructors that run -/

namespace EntryHeap

/-- Between two heaps nothing happens but that destructors run. -/
structure Ends (heap heap' : EntryHeap K α) : Prop where
  entry : ∀ e object, heap'.entry e = some object → heap.entry e = some object
  log : ∃ evs, heap'.log = heap.log ++ evs ∧
    ∀ ev ∈ evs, ∃ e object, ev = EntryEvent.destruct e object

variable {heap heap' heap'' : EntryHeap K α}

theorem Ends.refl (heap : EntryHeap K α) : heap.Ends heap :=
  ⟨fun _ _ ↦ id, [], by simp, by simp⟩

theorem Ends.trans (h : heap.Ends heap') (h' : heap'.Ends heap'') : heap.Ends heap'' := by
  obtain ⟨evs, hlog, hevs⟩ := h.log
  obtain ⟨evs', hlog', hevs'⟩ := h'.log
  refine ⟨fun e object he ↦ h.entry e object (h'.entry e object he), evs ++ evs', ?_, ?_⟩
  · rw [hlog', hlog, List.append_assoc]
  · exact List.forall_mem_append.2 ⟨hevs, hevs'⟩

theorem Ends.foldl {f : EntryHeap K α → ℕ → EntryHeap K α} (hf : ∀ heap e, Ends heap (f heap e))
    (es : List ℕ) (heap : EntryHeap K α) : heap.Ends (es.foldl f heap) := by
  induction es generalizing heap with
  | nil => exact .refl heap
  | cons e es ih => exact (hf heap e).trans (ih (f heap e))

theorem ends_retain (heap : EntryHeap K α) (e : ℕ) : heap.Ends (heap.retain e) :=
  ⟨fun _ _ ↦ id, [], by simp [retain], by simp⟩

theorem ends_release (heap : EntryHeap K α) (e : ℕ) : heap.Ends (heap.release e) := by
  rw [release]
  split
  · refine ⟨fun e' object he' ↦ (Ledger.hold_update_none.1 he').2, _, rfl, fun ev hev ↦ ?_⟩
    obtain ⟨object, -, rfl⟩ := Option.map_eq_some_iff.1 (Option.mem_toList.1 hev)
    exact ⟨e, object, rfl⟩
  · exact ⟨fun _ _ ↦ id, [], by simp, by simp⟩

end EntryHeap

namespace ConfigMap

variable {heap : EntryHeap K α} {map other : ConfigMap K} {m : ℕ} {key : K} {e : ℕ}

theorem ends_copyConstruct : heap.Ends (other.copyConstruct heap).2 :=
  .foldl EntryHeap.ends_retain _ heap

theorem ends_destroy : heap.Ends (map.destroy heap) :=
  .foldl EntryHeap.ends_release _ heap

theorem ends_copyAssign : heap.Ends (map.copyAssign other heap).2 :=
  ends_destroy.trans ends_copyConstruct

variable [DecidableEq K]

theorem ends_rmEntry : heap.Ends (map.rmEntry heap key).2 := by
  rw [rmEntry]
  split
  · exact EntryHeap.ends_release heap _
  · exact .refl heap

/-! ### The keys of a map as handles -/

/-- The keys of a map, with the entries they hold. -/
def handles (map : ConfigMap K) (m : ℕ) : List ((ℕ × K) × ℕ) :=
  map.entries.entries.map fun p ↦ ((m, p.1), p.2)

theorem mem_handles {h : ℕ × K} :
    (h, e) ∈ map.handles m ↔ h.1 = m ∧ map.entries.lookup h.2 = some e := by
  rw [handles, List.mem_map, ← Option.mem_def, AList.mem_lookup_iff]
  constructor
  · rintro ⟨p, hp, heq⟩
    obtain ⟨rfl, rfl⟩ := Prod.mk.inj heq
    exact ⟨rfl, hp⟩
  · rintro ⟨rfl, hp⟩
    exact ⟨_, hp, rfl⟩

theorem mem_map_fst_handles {h : ℕ × K} :
    h ∈ (map.handles m).map Prod.fst ↔ h.1 = m ∧ (map.entries.lookup h.2).isSome := by
  simp [List.mem_map, mem_handles, Option.isSome_iff_exists]

omit [DecidableEq K] in
theorem map_snd_handles : (map.handles m).map Prod.snd = map.pointers := by
  simp [handles, pointers]

omit [DecidableEq K] in
theorem nodup_handles : ((map.handles m).map Prod.fst).Nodup := by
  have hfst : (map.handles m).map Prod.fst = map.entries.keys.map (Prod.mk m) := by
    simp [handles, AList.keys, List.keys]
  rw [hfst]
  exact map.entries.keys_nodup.map fun _ _ heq ↦ (Prod.mk.inj heq).2

end ConfigMap

namespace ConfigMaps

variable [DecidableEq K]

/-- The entry that a key of a map holds. -/
def slots (maps : ℕ → Option (ConfigMap K)) (h : ℕ × K) : Option ℕ :=
  (maps h.1).bind fun map ↦ map.entries.lookup h.2

variable {maps : ℕ → Option (ConfigMap K)} {m j : ℕ} {map other : ConfigMap K} {key : K} {e : ℕ}

theorem slots_of_some {h : ℕ × K} (hm : maps h.1 = some map) :
    slots maps h = map.entries.lookup h.2 := by
  simp [slots, hm]

theorem slots_update {h : ℕ × K} {o : Option (ConfigMap K)} : slots (update maps m o) h =
    if h.1 = m then o.bind fun map ↦ map.entries.lookup h.2 else slots maps h := by
  by_cases hm : h.1 = m <;> simp [slots, hm]

theorem clear_handles (hm : maps m = some map) :
    clear (slots maps) (map.handles m) = slots (update maps m none) := by
  funext h
  rw [clear_apply, slots_update]
  by_cases hh : h.1 = m
  · rw [if_pos hh]
    split
    next => rfl
    next hnot =>
      rw [ConfigMap.mem_map_fst_handles, not_and] at hnot
      rw [slots_of_some (hh ▸ hm)]
      simpa using hnot hh
  · rw [if_neg hh, if_neg fun hmem ↦ hh (ConfigMap.mem_map_fst_handles.1 hmem).1]

theorem fill_handles (hm : maps m = none) :
    fill (slots maps) (other.handles m) = slots (update maps m (some other)) := by
  funext h
  ext e
  rw [fill_eq_some_iff ConfigMap.nodup_handles, ConfigMap.mem_handles,
    ConfigMap.mem_map_fst_handles, slots_update]
  by_cases hh : h.1 = m
  · simp [hh, slots, hm]
  · simp [hh]

/-- One key of a map holds something else. -/
theorem update_slots {o : Option ℕ} (hm : maps m = some map) (hkey : other.entries.lookup key = o)
    (hne : ∀ k, k ≠ key → other.entries.lookup k = map.entries.lookup k) :
    update (slots maps) (m, key) o = slots (update maps m (some other)) := by
  funext h
  rw [slots_update]
  by_cases hh : h = (m, key)
  · subst hh
    simp [hkey]
  · rw [update_of_ne hh]
    by_cases hhm : h.1 = m
    · have hk : h.2 ≠ key := fun hk ↦ hh (Prod.ext hhm hk)
      rw [if_pos hhm, slots_of_some (hhm ▸ hm)]
      exact (hne h.2 hk).symm
    · rw [if_neg hhm]

/-! ### What the operations keep -/

variable [DecidableEq α] {heap : EntryHeap K α} {s s' : ConfigMaps K α} {a : Action K α} {init : α}
  {del : EntryDelF}

theorem backs_destroy (hb : heap.Backs (slots maps)) (hm : maps m = some map) :
    (map.destroy heap).Backs (slots (update maps m none)) := by
  have h := foldl_clear (P := fun hold heap ↦ EntryHeap.Backs heap hold)
    (fun _ _ _ _ hb hh ↦ hb.release hh) ConfigMap.nodup_handles (l := map.handles m)
    (fun p hp ↦ ?_) hb
  · rwa [clear_handles hm, ConfigMap.map_snd_handles] at h
  · obtain ⟨hpm, hp⟩ := ConfigMap.mem_handles.1 hp
    exact (slots_of_some (hpm ▸ hm)).trans hp

theorem backs_copyConstruct (hb : heap.Backs (slots maps)) (hm : maps m = none)
    (hj : maps j = some other) :
    (other.copyConstruct heap).2.Backs (slots (update maps m (some other))) := by
  have h := foldl_fill (P := fun hold heap ↦ EntryHeap.Backs heap hold)
    (fun _ _ _ _ hb hh ht ↦ hb.retain hh ht) ConfigMap.nodup_handles (l := other.handles m)
    (fun p hp ↦ ?_) (fun p hp ↦ ?_) hb
  · rwa [fill_handles hm, ConfigMap.map_snd_handles] at h
  · obtain ⟨hpm, -⟩ := ConfigMap.mem_handles.1 hp
    simp [slots, hpm, hm]
  · obtain ⟨-, hp⟩ := ConfigMap.mem_handles.1 hp
    exact ⟨(j, p.1.2), (slots_of_some hj).trans hp⟩

theorem backs_copyAssign (hb : heap.Backs (slots maps)) (hmj : m ≠ j) (hm : maps m = some map)
    (hj : maps j = some other) :
    (map.copyAssign other heap).2.Backs (slots (update maps m (some other))) := by
  have hd := backs_destroy hb hm
  have hj' : update maps m none j = some other := by rw [update_of_ne hmj.symm, hj]
  have hc := backs_copyConstruct hd (update_self m none maps) hj'
  rwa [update_idem] at hc

theorem backs_rmEntry (hb : heap.Backs (slots maps)) (hm : maps m = some map) :
    (map.rmEntry heap key).2.Backs (slots (update maps m (some (map.rmEntry heap key).1))) := by
  rw [ConfigMap.rmEntry]
  split
  next e he =>
    have hr := hb.release ((slots_of_some (h := (m, key)) hm).trans he)
    rwa [update_slots hm (map.entries.lookup_erase key) fun k hk ↦ AList.lookup_erase_ne hk] at hr
  next => rwa [← hm, update_eq_self]

theorem hasKey_eq_false : map.hasKey key = false ↔ map.entries.lookup key = none := by
  simp [ConfigMap.hasKey, AList.lookup_eq_none]

theorem backs_addEntry (hb : heap.Backs (slots maps)) (hm : maps m = some map)
    (hfresh : map.hasKey key = false → heap.live init = false) :
    (map.addEntry heap m key init del).2.Backs
      (slots (update maps m (some (map.addEntry heap m key init del).1))) := by
  rw [ConfigMap.addEntry]
  split
  next hkey =>
    have hnone := (slots_of_some (h := (m, key)) hm).trans (hasKey_eq_false.1 hkey)
    have hr : (heap.makeShared m key ⟨init, del⟩).2.Backs _ := hb.makeShared hnone (hfresh hkey)
    rwa [update_slots hm (map.entries.lookup_insert) fun k hk ↦ AList.lookup_insert_ne hk] at hr
  next => rwa [← hm, update_eq_self]

/-- What an operation does to the maps and to the entries. -/
structure Acts (s : ConfigMaps K α) (a : Action K α) (s' : ConfigMaps K α) : Prop where
  backs : s'.heap.Backs (slots s'.map)
  frame : ∀ m, m ≠ a.target → s'.map m = s.map m
  heap : s.heap.Ends s'.heap ∨ ∃ m key init del map, a = .addEntry m key init del ∧
    s.map m = some map ∧ map.hasKey key = false ∧
    s'.heap = (s.heap.makeShared m key ⟨init, del⟩).2

/-- **One operation** keeps the entries backed. -/
theorem acts_of_step (hb : s.heap.Backs (slots s.map)) (hfresh : Fresh s a)
    (hs : s.apply a = some s') : Acts s a s' := by
  cases a with
  | create m =>
    simp only [apply] at hs
    split at hs
    next => cases hs
    next hm =>
      obtain rfl := Option.some.inj hs
      refine ⟨?_, fun k hk ↦ update_of_ne hk _ _, .inl (.refl _)⟩
      have hslots : slots (update s.map m (some .empty)) = slots s.map := by
        funext h
        rw [slots_update]
        by_cases hh : h.1 = m <;> simp [hh, slots, hm, ConfigMap.empty]
      show s.heap.Backs (slots (update s.map m (some .empty)))
      rwa [hslots]
  | addEntry m key init del =>
    obtain ⟨map, hm, rfl⟩ := Option.map_eq_some_iff.1 hs
    refine ⟨backs_addEntry hb hm (hfresh map hm), fun k hk ↦ update_of_ne hk _ _, ?_⟩
    by_cases hkey : map.hasKey key = false
    · refine .inr ⟨m, key, init, del, map, rfl, hm, hkey, ?_⟩
      simp [put, ConfigMap.addEntry, hkey]
    · refine .inl ?_
      rw [put, ConfigMap.addEntry, if_neg hkey]
      exact .refl s.heap
  | rmEntry m key =>
    obtain ⟨map, hm, rfl⟩ := Option.map_eq_some_iff.1 hs
    exact ⟨backs_rmEntry hb hm, fun k hk ↦ update_of_ne hk _ _, .inl ConfigMap.ends_rmEntry⟩
  | copyConstruct m j =>
    simp only [apply] at hs
    split at hs
    next => cases hs
    next hm =>
      obtain ⟨other, hj, rfl⟩ := Option.map_eq_some_iff.1 hs
      exact ⟨backs_copyConstruct hb hm hj, fun k hk ↦ update_of_ne hk _ _,
        .inl ConfigMap.ends_copyConstruct⟩
  | copyAssign m j =>
    obtain ⟨map, hm, hs⟩ := Option.bind_eq_some_iff.1 hs
    obtain ⟨other, hj, rfl⟩ := Option.map_eq_some_iff.1 hs
    by_cases hmj : m = j
    · rw [if_pos hmj]
      exact ⟨hb, fun _ _ ↦ rfl, .inl (.refl _)⟩
    · rw [if_neg hmj]
      exact ⟨backs_copyAssign hb hmj hm hj, fun k hk ↦ update_of_ne hk _ _,
        .inl ConfigMap.ends_copyAssign⟩
  | destroy m =>
    obtain ⟨map, hm, rfl⟩ := Option.map_eq_some_iff.1 hs
    exact ⟨backs_destroy hb hm, fun k hk ↦ update_of_ne hk _ _, .inl ConfigMap.ends_destroy⟩

/-! ### The history of a map -/

/-- What is done to the keys of a map. -/
inductive Change (K α : Type*) where
  | add (key : K) (data : α)
  | rm (key : K)

/-- The changes of every map after an operation. A copy has those of the map it was copied from. -/
def change (changes : ℕ → List (Change K α)) : Action K α → ℕ → List (Change K α)
  | .create m => update changes m []
  | .addEntry m key init _ => update changes m (changes m ++ [.add key init])
  | .rmEntry m key => update changes m (changes m ++ [.rm key])
  | .copyConstruct m j => update changes m (changes j)
  | .copyAssign m j => update changes m (changes j)
  | .destroy m => update changes m []

/-- What was done to the keys of a map in the course of the operations. -/
def history (tr : List (Action K α)) : ℕ → List (Change K α) := tr.foldl change fun _ ↦ []

namespace Change

/-- The change removes the key. -/
def removes (key : K) : Change K α → Bool
  | .add _ _ => false
  | .rm key' => decide (key' = key)

/-- The data the change adds for the key. -/
def adds (key : K) : Change K α → Option α
  | .add key' data => if key' = key then some data else none
  | .rm _ => none

end Change

/-- The data of the first addition for a key since the key was last removed. -/
def firstAdd (key : K) (changes : List (Change K α)) : Option α :=
  (changes.rtakeWhile fun c ↦ !c.removes key).findSome? (Change.adds key)

variable {changes : List (Change K α)} {k : K} {data : α}

omit [DecidableEq α] in
@[simp] theorem firstAdd_nil : firstAdd key ([] : List (Change K α)) = none := by simp [firstAdd]

omit [DecidableEq α] in
theorem firstAdd_add : firstAdd k (changes ++ [.add key data]) =
    (firstAdd k changes).or (if key = k then some data else none) := by
  rw [firstAdd, List.rtakeWhile_concat_pos _ _ _ rfl, List.findSome?_append]
  simp [firstAdd, Change.adds]

omit [DecidableEq α] in
theorem firstAdd_rm : firstAdd k (changes ++ [.rm key]) =
    if key = k then none else firstAdd k changes := by
  rw [firstAdd, List.rtakeWhile_concat]
  by_cases hk : key = k
  · simp [Change.removes, hk]
  · simp [Change.removes, Change.adds, hk, firstAdd, List.findSome?_append]

/-- The data found at the keys of the maps is that of their histories. -/
def Recalls (tr : List (Action K α)) (s : ConfigMaps K α) : Prop :=
  ∀ m map, s.map m = some map →
    ∀ key, map.getObj s.heap key = some (firstAdd key (history tr m))

omit [DecidableEq α] in
theorem getObj_of_none (hkey : map.entries.lookup key = none) :
    map.getObj heap key = some none := by
  simp only [ConfigMap.getObj, hkey]

omit [DecidableEq α] in
theorem getObj_of_some {object : ConfigEntry α} (hkey : map.entries.lookup key = some e)
    (he : heap.entry e = some object) : map.getObj heap key = some (some object.data) := by
  simp [ConfigMap.getObj, hkey, he]

/-- An entry that is held before and after an operation is not changed. -/
theorem Acts.entry_eq (ha : Acts s a s') (hb : s.heap.Backs (slots s.map))
    (he : ∃ h, slots s.map h = some e) (he' : ∃ h, slots s'.map h = some e) :
    s'.heap.entry e = s.heap.entry e := by
  obtain ⟨object, hentry⟩ := Option.isSome_iff_exists.1 (ha.backs.isSome_iff.2 he')
  obtain hends | ⟨m, key, init, del, map, -, -, -, hheap⟩ := ha.heap
  · rw [hentry, hends.entry e object hentry]
  · obtain ⟨h, hh⟩ := he
    rw [hheap]
    exact update_of_ne (hb.lt_of_hold hh).ne _ _

/-- A key that holds what a key of a map held before is found with the same data. -/
theorem Acts.getObj_eq (ha : Acts s a s') (hb : s.heap.Backs (slots s.map))
    (hm : s.map m = some map) (hj : s'.map j = some other)
    (hkey : other.entries.lookup key = map.entries.lookup key) :
    other.getObj s'.heap key = map.getObj s.heap key := by
  rw [ConfigMap.getObj, ConfigMap.getObj, hkey]
  cases he : map.entries.lookup key with
  | none => rfl
  | some e =>
    have heq := ha.entry_eq hb ⟨(m, key), (slots_of_some hm).trans he⟩
      ⟨(j, key), (slots_of_some hj).trans (hkey.trans he)⟩
    simp only [heq]

omit [DecidableEq K] [DecidableEq α] in
theorem change_of_ne {changes : ℕ → List (Change K α)} (hm : m ≠ a.target) :
    change changes a m = changes m := by
  cases a <;> exact update_of_ne hm _ _

omit [DecidableEq K] [DecidableEq α] in
theorem history_snoc (tr : List (Action K α)) (a : Action K α) :
    history (tr ++ [a]) = change (history tr) a := by
  simp [history]

variable {tr : List (Action K α)}

theorem Recalls.addEntry (hr : Recalls tr s) (hb : s.heap.Backs (slots s.map))
    (ha : Acts s (.addEntry m key init del) s') (hm : s.map m = some map)
    (hs : s' = s.put m (map.addEntry s.heap m key init del)) (hj : s'.map m = some other) (k : K) :
    other.getObj s'.heap k = some (firstAdd k (history tr m ++ [.add key init])) := by
  rw [firstAdd_add]
  have hother : (map.addEntry s.heap m key init del).1 = other := by simpa [hs, put] using hj
  rw [ConfigMap.addEntry] at hother
  by_cases hkey : map.hasKey key = false
  · rw [if_pos hkey] at hother
    have hnone := hasKey_eq_false.1 hkey
    by_cases hk : k = key
    · subst hk
      have hfirst := (hr m map hm k).symm.trans (getObj_of_none hnone)
      rw [Option.some.inj hfirst, if_pos rfl]
      have hlookup : other.entries.lookup k = some s.heap.next := by
        simp [← hother, EntryHeap.makeShared]
      have hentry : s'.heap.entry s.heap.next = some ⟨init, del⟩ := by
        simp [hs, put, ConfigMap.addEntry, hkey, EntryHeap.makeShared]
      exact getObj_of_some hlookup hentry
    · rw [if_neg (Ne.symm hk), Option.or_none, ← hr m map hm k]
      refine ha.getObj_eq hb hm hj ?_
      rw [← hother]
      exact AList.lookup_insert_ne hk
  · rw [if_neg hkey] at hother
    have hkept : other.getObj s'.heap k = map.getObj s.heap k :=
      ha.getObj_eq hb hm hj (by rw [← hother])
    rw [hkept, hr m map hm k]
    by_cases hk : key = k
    · subst hk
      obtain ⟨e, he⟩ := Option.ne_none_iff_exists'.1 (mt hasKey_eq_false.2 hkey)
      obtain ⟨object, hobject⟩ := hb.exists_entry ((slots_of_some (h := (m, key)) hm).trans he)
      have hfirst := (hr m map hm key).symm.trans (getObj_of_some he hobject)
      rw [Option.some.inj hfirst]
      rfl
    · rw [if_neg hk, Option.or_none]

theorem Recalls.rmEntry (hr : Recalls tr s) (hb : s.heap.Backs (slots s.map))
    (ha : Acts s (.rmEntry m key) s') (hm : s.map m = some map)
    (hs : s' = s.put m (map.rmEntry s.heap key)) (hj : s'.map m = some other) (k : K) :
    other.getObj s'.heap k = some (firstAdd k (history tr m ++ [.rm key])) := by
  rw [firstAdd_rm]
  have hother : (map.rmEntry s.heap key).1 = other := by simpa [hs, put] using hj
  have herase : ∀ k, other.entries.lookup k = if key = k then none else map.entries.lookup k := by
    intro k
    rw [← hother, ConfigMap.rmEntry]
    by_cases hk : key = k
    · subst hk
      split
      next => simp
      next hnone => simp [hnone]
    · rw [if_neg hk]
      split
      next => exact AList.lookup_erase_ne (Ne.symm hk)
      next => rfl
  by_cases hk : key = k
  · rw [if_pos hk]
    exact getObj_of_none (by rw [herase, if_pos hk])
  · rw [if_neg hk, ← hr m map hm k]
    exact ha.getObj_eq hb hm hj (by rw [herase, if_neg hk])

/-- **An operation and the history** change the data found in the same way. -/
theorem Recalls.step (hr : Recalls tr s) (hb : s.heap.Backs (slots s.map)) (ha : Acts s a s')
    (hs : s.apply a = some s') : Recalls (tr ++ [a]) s' := by
  intro k other hk key
  rw [history_snoc]
  by_cases hne : k = a.target
  swap
  · rw [change_of_ne hne]
    have hk' : s.map k = some other := (ha.frame k hne).symm.trans hk
    exact (ha.getObj_eq hb hk' hk rfl).trans (hr k other hk' key)
  subst hne
  cases a with
  | create m =>
    rw [change, Action.target, update_self, firstAdd_nil]
    simp only [apply] at hs
    split at hs
    next => cases hs
    next =>
      obtain rfl := Option.some.inj hs
      obtain rfl : ConfigMap.empty = other := by simpa [put, Action.target] using hk
      exact getObj_of_none (AList.lookup_empty key)
  | addEntry m key' init del =>
    obtain ⟨map, hm, hs⟩ := Option.map_eq_some_iff.1 hs
    rw [change, Action.target, update_self]
    exact hr.addEntry hb ha hm hs.symm hk key
  | rmEntry m key' =>
    obtain ⟨map, hm, hs⟩ := Option.map_eq_some_iff.1 hs
    rw [change, Action.target, update_self]
    exact hr.rmEntry hb ha hm hs.symm hk key
  | copyConstruct m j =>
    rw [change, Action.target, update_self]
    simp only [apply] at hs
    split at hs
    next => cases hs
    next =>
      obtain ⟨map, hj, rfl⟩ := Option.map_eq_some_iff.1 hs
      obtain rfl : map = other := by
        simpa [put, Action.target, ConfigMap.copyConstruct] using hk
      rw [← hr j map hj key]
      exact ha.getObj_eq hb hj hk rfl
  | copyAssign m j =>
    rw [change, Action.target, update_self]
    obtain ⟨map, hm, hs⟩ := Option.bind_eq_some_iff.1 hs
    obtain ⟨map', hj, rfl⟩ := Option.map_eq_some_iff.1 hs
    obtain rfl : map' = other := by
      by_cases hmj : m = j
      · subst hmj
        simpa [hj, Action.target] using hk
      · simpa [hmj, put, Action.target, ConfigMap.copyAssign, ConfigMap.copyConstruct] using hk
    rw [← hr j map' hj key]
    exact ha.getObj_eq hb hj hk rfl
  | destroy m =>
    obtain ⟨map, hm, rfl⟩ := Option.map_eq_some_iff.1 hs
    simp [Action.target] at hk

/-! ### Every run -/

/-- Some map that is alive holds the entry. -/
def Held (s : ConfigMaps K α) (e : ℕ) : Prop :=
  ∃ m map key, s.map m = some map ∧ map.entries.lookup key = some e

omit [DecidableEq α] in
theorem held_iff : s.Held e ↔ ∃ h, slots s.map h = some e := by
  constructor
  · rintro ⟨m, map, key, hm, hkey⟩
    exact ⟨(m, key), (slots_of_some hm).trans hkey⟩
  · rintro ⟨h, hh⟩
    obtain ⟨map, hm, hkey⟩ := Option.bind_eq_some_iff.1 hh
    exact ⟨h.1, map, h.2, hm, hkey⟩

end ConfigMaps

/-- The invocations of the deletion of an entry, with the data it was invoked on. -/
def EntryHeap.invocations (heap : EntryHeap K α) (e : ℕ) : List (ℕ × α) :=
  (heap.events e).filterMap EntryEvent.invoked

namespace ConfigMaps

variable [DecidableEq K] [DecidableEq α] {s s' : ConfigMaps K α} {a : Action K α}
  {tr : List (Action K α)} {m e : ℕ} {key : K} {map : ConfigMap K} {object : ConfigEntry α}

/-- What holds of the entries and of the data after a run. -/
structure Owned (tr : List (Action K α)) (s : ConfigMaps K α) : Prop where
  /-- The deletion of an entry is not invoked while a map holds it, and was invoked once on the
  data of the entry when none does. -/
  invocations : ∀ m key e object, .init m key e object ∈ s.heap.log →
    (s.Held e → s.heap.invocations e = []) ∧
    (¬ s.Held e → s.heap.invocations e = object.release.toList)
  /-- The data found at a key is that of the first addition since the key was last removed. -/
  recalls : ∀ m map, s.map m = some map →
    ∀ key, map.getObj s.heap key = some (firstAdd key (history tr m))
  /-- A map has a key exactly when it finds data there that is not deleted. -/
  hasKey_iff : ∀ m map, s.map m = some map → ∀ key, map.hasKey key = true ↔
    ∃ data, map.getObj s.heap key = some (some data) ∧ s.heap.live data = true

/-- What holds of an operation. -/
structure Shares (s : ConfigMaps K α) (a : Action K α) (s' : ConfigMaps K α) : Prop where
  /-- An init function is only run by an addition to a map that does not have the key. -/
  init : ∃ evs, s'.heap.log = s.heap.log ++ evs ∧ ∀ m key e object, .init m key e object ∈ evs →
    a = .addEntry m key object.data object.deletion ∧
      ∃ map, s.map m = some map ∧ map.hasKey key = false
  /-- The deletion of an entry is invoked, once, when the operation leaves no map that holds it, and
  not otherwise. -/
  invocations : ∀ m key e object, .init m key e object ∈ s.heap.log →
    (s.Held e ∧ ¬ s'.Held e →
      s'.heap.invocations e = s.heap.invocations e ++ object.release.toList) ∧
    (¬ (s.Held e ∧ ¬ s'.Held e) → s'.heap.invocations e = s.heap.invocations e)
  /-- The keys and the data of the other maps stay as they are. -/
  frame : ∀ m, m ≠ a.target → s'.map m = s.map m ∧ ∀ map, s.map m = some map →
    ∀ key, map.getObj s'.heap key = map.getObj s.heap key

theorem invocations_eq (hb : s.heap.Backs (slots s.map))
    (hinit : .init m key e object ∈ s.heap.log) :
    (s.Held e → s.heap.invocations e = []) ∧
      (¬ s.Held e → s.heap.invocations e = object.release.toList) := by
  have hmem : .init m key e object ∈ s.heap.events e :=
    List.mem_filter.2 ⟨hinit, by simp⟩
  have hs := hb.story e
  rw [held_iff, ← hb.isSome_iff, EntryHeap.invocations]
  generalize s.heap.events e = evs at hs hmem
  generalize s.heap.entry e = o at hs
  cases hs with
  | unborn => simp at hmem
  | alive m' key' object' => simp [EntryEvent.invoked]
  | dead m' key' object' =>
    obtain ⟨rfl, rfl, rfl⟩ : m = m' ∧ key = key' ∧ object = object' := by simpa using hmem
    cases hrelease : object.release <;>
      simp [List.filterMap_cons, EntryEvent.invoked, hrelease]

theorem hasKey_iff (hb : s.heap.Backs (slots s.map)) (hm : s.map m = some map) :
    map.hasKey key = true ↔
      ∃ data, map.getObj s.heap key = some (some data) ∧ s.heap.live data = true := by
  rw [← not_iff_not, Bool.not_eq_true, hasKey_eq_false]
  cases hkey : map.entries.lookup key with
  | none => simp [getObj_of_none hkey]
  | some e =>
    obtain ⟨object, he⟩ := hb.exists_entry ((slots_of_some (h := (m, key)) hm).trans hkey)
    simp [getObj_of_some hkey he, hb.live e object he]

/-- An entry that no map holds is not held again. -/
theorem Acts.held_of_held (ha : Acts s a s') (hb : s.heap.Backs (slots s.map))
    (hinit : .init m key e object ∈ s.heap.log) (he : s'.Held e) : s.Held e := by
  rw [held_iff, ← ha.backs.isSome_iff] at he
  rw [held_iff, ← hb.isSome_iff]
  obtain ⟨object', he⟩ := Option.isSome_iff_exists.1 he
  obtain hends | ⟨m', key', init, del, map, -, -, -, hheap⟩ := ha.heap
  · rw [hends.entry e object' he]
    rfl
  · have hlt : e < s.heap.next := hb.lt_next _ hinit
    rw [hheap] at he
    have hentry : s.heap.entry e = some object' := (update_of_ne hlt.ne _ _).symm.trans he
    rw [hentry]
    rfl

theorem Acts.exists_log (ha : Acts s a s') :
    ∃ evs, s'.heap.log = s.heap.log ++ evs ∧ ∀ m key e object, .init m key e object ∈ evs →
      a = .addEntry m key object.data object.deletion ∧
        ∃ map, s.map m = some map ∧ map.hasKey key = false := by
  obtain hends | ⟨m, key, init, del, map, rfl, hm, hkey, hheap⟩ := ha.heap
  · obtain ⟨evs, hlog, hevs⟩ := hends.log
    refine ⟨evs, hlog, fun m key e object hmem ↦ ?_⟩
    obtain ⟨e', object', heq⟩ := hevs _ hmem
    cases heq
  · refine ⟨_, by rw [hheap]; rfl, fun m' key' e object hmem ↦ ?_⟩
    obtain ⟨rfl, rfl, -, rfl⟩ := EntryEvent.init.inj (List.mem_singleton.1 hmem)
    exact ⟨rfl, map, hm, hkey⟩

/-- **What an operation does**: init functions, deletions, and the other maps. -/
theorem Acts.shares (ha : Acts s a s') (hb : s.heap.Backs (slots s.map)) : Shares s a s' where
  init := ha.exists_log
  invocations m key e object hinit := by
    obtain ⟨evs, hlog, -⟩ := ha.exists_log
    have hinit' : .init m key e object ∈ s'.heap.log := by
      rw [hlog]
      exact List.mem_append_left _ hinit
    obtain ⟨hheld, hnot⟩ := invocations_eq hb hinit
    obtain ⟨hheld', hnot'⟩ := invocations_eq ha.backs hinit'
    constructor
    · rintro ⟨h, h'⟩
      rw [hheld h, hnot' h', List.nil_append]
    · intro h
      by_cases he : s.Held e
      · rw [hheld he, hheld' (not_not.1 fun h' ↦ h ⟨he, h'⟩)]
      · rw [hnot he, hnot' fun h' ↦ he (ha.held_of_held hb hinit h')]
  frame m hm := by
    have hmap := ha.frame m hm
    exact ⟨hmap, fun map hsome key ↦ ha.getObj_eq hb hsome (hmap.trans hsome) rfl⟩

/-- **The run invariant**: the entries are backed, and the data found is that of the histories. -/
theorem backs_of_run (h : Run (configMaps.restrict Fresh) tr s) :
    s.heap.Backs (slots s.map) ∧ Recalls tr s := by
  induction h with
  | nil hi =>
    obtain rfl := hi
    refine ⟨?_, fun m map hm ↦ by simp [initial] at hm⟩
    exact EntryHeap.Backs.empty
  | snoc _ hstep ih =>
    obtain ⟨hb, hr⟩ := ih
    have ha := acts_of_step hb hstep.2 hstep.1
    exact ⟨ha.backs, hr.step hb ha hstep.1⟩

/-- **Shared ownership.** After any operations on any number of maps, with init functions that
return fresh data, the deletion of every entry was invoked once if no map holds the entry, and not
otherwise; what is found at a key is the data first added since the key was last removed, which is
not deleted, and null for the other keys. Every further operation runs an init function only for
a key that its map does not have, invokes exactly the deletions of the entries that it leaves
without a map, and does not change what is seen of another map. -/
theorem shared_ownership (h : Run (configMaps.restrict Fresh) tr s) :
    Owned tr s ∧ ∀ a s', (configMaps.restrict Fresh).step s a s' → Shares s a s' := by
  obtain ⟨hb, hr⟩ := backs_of_run h
  refine ⟨⟨fun _ _ _ _ hinit ↦ invocations_eq hb hinit, hr, fun _ _ hm _ ↦ hasKey_iff hb hm⟩, ?_⟩
  exact fun a s' hstep ↦ (acts_of_step hb hstep.2 hstep.1).shares hb

theorem run_snoc (h : Run (configMaps.restrict Fresh) tr s)
    (hs : s.apply a = some s') (hfresh : Fresh s a) :
    Run (configMaps.restrict Fresh) (tr ++ [a]) s' :=
  h.snoc ⟨hs, hfresh⟩

/-- An entry is shared by a copy, and destroyed when the copy is. -/
theorem shared_ownership_copy : ∃ s : ConfigMaps ℕ ℕ, Run (configMaps.restrict Fresh)
      [.create 0, .addEntry 0 7 100 (some 1), .copyConstruct 1 0, .rmEntry 0 7, .destroy 1] s ∧
    s.heap.invocations 0 = [(1, 100)] ∧
    Owned [.create 0, .addEntry 0 7 100 (some 1), .copyConstruct 1 0, .rmEntry 0 7, .destroy 1]
      s := by
  have h₁ := run_snoc (K := ℕ) (α := ℕ) (a := .create 0) (.nil rfl) rfl trivial
  have h₂ := run_snoc (a := .addEntry 0 7 100 (some 1)) h₁ rfl fun _ _ _ ↦ rfl
  have h₃ := run_snoc (a := .copyConstruct 1 0) h₂ rfl trivial
  have h₄ := run_snoc (a := .rmEntry 0 7) h₃ rfl trivial
  have h₅ := run_snoc (a := .destroy 1) h₄ rfl trivial
  exact ⟨_, h₅, rfl, (shared_ownership h₅).1⟩

end ConfigMaps

end Cppkg.Estd
