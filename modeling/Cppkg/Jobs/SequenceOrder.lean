import Cppkg.Jobs.Sequence
import Mathlib.Data.List.Nodup

/-!
# The jobs of a sequence run one at a time and in order

At every moment the tasks pushed so far are, in order: the past, the task the master has popped
and is not done with, a gap, and the queue. Every task of the past has run to its end or was
cleared, and every task of the gap was cleared: the gap is what `stop` has taken from the queue
while the master was busy. `Layout` is this invariant, with what it says about the threads and
about the record of starts. Only `push`, `stop`, `pop` and `reap` move a border; the other steps
leave the layout as it is (`Layout.frame`) or move one thread (`Layout.update_thread`).

`Numbered` is the invariant of the numbers the tasks have, and makes the pushed tasks distinct.
-/

namespace Cppkg.Jobs

open Function Transition

variable {s s' : State} {a : Action} {past gap : List Task}

/-! ### The task at the master -/

/-- The task the master has popped and is not done with. -/
def MasterPc.current : MasterPc → Option Task
  | .holding t => some t
  | .joining t => some t
  | _ => none

/-- The task whose thread the master joins. -/
def MasterPc.joined : MasterPc → Option Task
  | .joining t => some t
  | _ => none

@[simp] theorem MasterPc.current_notified (pc : MasterPc) : pc.notified.current = pc.current := by
  cases pc <;> rfl

@[simp] theorem MasterPc.joined_notified (pc : MasterPc) : pc.notified.joined = pc.joined := by
  cases pc <;> rfl

theorem MasterPc.current_of_joined {pc : MasterPc} {t : Task} (h : pc.joined = some t) :
    pc.current = some t := by
  cases pc <;> simp_all [joined, current]

/-! ### The numbers of the tasks -/

/-- The tasks pushed are distinct, and a task being attached has not been pushed. -/
structure Numbered (s : State) : Prop where
  nodup : s.pushed.Nodup
  pushed_lt : ∀ t ∈ s.pushed, t < s.next
  attaching_lt : ∀ c t, s.client c = .attaching t → t < s.next
  attaching_notMem : ∀ c t, s.client c = .attaching t → t ∉ s.pushed
  attaching_inj : ∀ c d t, s.client c = .attaching t → s.client d = .attaching t → c = d
  rejected_lt : ∀ t ∈ s.rejected, t < s.next
  rejected_stopped : ∀ t ∈ s.rejected, s.stopped = true

theorem Numbered.initial : Numbered State.initial := by
  constructor <;> simp [State.initial]

/-- A client that is set to another place than an attach. -/
theorem attaching_of_update {pc : ClientPc} {c d : ℕ} {t : Task}
    (hpc : ∀ u, pc ≠ .attaching u) (h : update s.client c pc d = .attaching t) :
    d ≠ c ∧ s.client d = .attaching t := by
  by_cases hd : d = c
  · subst hd
    rw [update_self] at h
    exact absurd h (hpc t)
  · exact ⟨hd, by rwa [update_of_ne hd] at h⟩

/-- A step that starts no attach and pushes nothing. -/
theorem Numbered.frame (h : Numbered s) (hnext : s'.next = s.next) (hpushed : s'.pushed = s.pushed)
    (hclient : ∀ c t, s'.client c = .attaching t → s.client c = .attaching t)
    (hrejected : s'.rejected = s.rejected) (hstopped : s.stopped = true → s'.stopped = true) :
    Numbered s' where
  nodup := hpushed ▸ h.nodup
  pushed_lt t ht := hnext ▸ h.pushed_lt t (hpushed ▸ ht)
  attaching_lt c t hc := hnext ▸ h.attaching_lt c t (hclient c t hc)
  attaching_notMem c t hc := hpushed ▸ h.attaching_notMem c t (hclient c t hc)
  attaching_inj c d t hc hd := h.attaching_inj c d t (hclient c t hc) (hclient d t hd)
  rejected_lt t ht := hnext ▸ h.rejected_lt t (hrejected ▸ ht)
  rejected_stopped t ht := hstopped (h.rejected_stopped t (hrejected ▸ ht))

theorem Numbered.assign (h : Numbered s) (c : ℕ) :
    Numbered { s with
      lastFuture := some s.next
      next := s.next + 1
      client := update s.client c (.attaching s.next) } := by
  have hclient : ∀ d t, update s.client c (.attaching s.next) d = .attaching t →
      d = c ∧ t = s.next ∨ d ≠ c ∧ s.client d = .attaching t := by
    intro d t hd
    by_cases hdc : d = c
    · subst hdc
      rw [update_self] at hd
      exact .inl ⟨rfl, (ClientPc.attaching.inj hd).symm⟩
    · exact .inr ⟨hdc, by rwa [update_of_ne hdc] at hd⟩
  constructor
  · exact h.nodup
  · exact fun t ht ↦ Nat.lt_succ_of_lt (h.pushed_lt t ht)
  · intro d t hd
    rcases hclient d t hd with ⟨-, rfl⟩ | ⟨-, hd⟩
    · exact Nat.lt_succ_self _
    · exact Nat.lt_succ_of_lt (h.attaching_lt d t hd)
  · intro d t hd ht
    rcases hclient d t hd with ⟨-, rfl⟩ | ⟨-, hd⟩
    · exact Nat.lt_irrefl _ (h.pushed_lt _ ht)
    · exact h.attaching_notMem d t hd ht
  · intro d e t hd he
    rcases hclient d t hd with ⟨rfl, rfl⟩ | ⟨-, hd⟩
    · rcases hclient e _ he with ⟨rfl, -⟩ | ⟨-, he⟩
      · rfl
      · exact absurd (h.attaching_lt e _ he) (Nat.lt_irrefl _)
    · rcases hclient e t he with ⟨-, rfl⟩ | ⟨-, he⟩
      · exact absurd (h.attaching_lt d _ hd) (Nat.lt_irrefl _)
      · exact h.attaching_inj d e t hd he
  · exact fun t ht ↦ Nat.lt_succ_of_lt (h.rejected_lt t ht)
  · exact h.rejected_stopped

theorem Numbered.push {c : ℕ} {t : Task} (h : Numbered s) (hc : s.client c = .attaching t) :
    Numbered { s with
      tasks := s.tasks ++ [t]
      pushed := s.pushed ++ [t]
      client := update s.client c .notifying } := by
  have hclient : ∀ d u, update s.client c .notifying d = .attaching u →
      d ≠ c ∧ s.client d = .attaching u := fun d u hd ↦ attaching_of_update (by simp) hd
  constructor
  · exact List.nodup_append.2 ⟨h.nodup, List.nodup_singleton t, by
      rintro u hu v hv rfl
      exact h.attaching_notMem c t hc (List.mem_singleton.1 hv ▸ hu)⟩
  · intro u hu
    rcases List.mem_append.1 hu with hu | hu
    · exact h.pushed_lt u hu
    · exact List.mem_singleton.1 hu ▸ h.attaching_lt c t hc
  · exact fun d u hd ↦ h.attaching_lt d u (hclient d u hd).2
  · intro d u hd hu
    obtain ⟨hdc, hd⟩ := hclient d u hd
    rcases List.mem_append.1 hu with hu | hu
    · exact h.attaching_notMem d u hd hu
    · exact hdc (h.attaching_inj d c t (List.mem_singleton.1 hu ▸ hd) hc)
  · exact fun d e u hd he ↦ h.attaching_inj d e u (hclient d u hd).2 (hclient e u he).2
  · exact h.rejected_lt
  · exact h.rejected_stopped

theorem Numbered.reject {c : ℕ} {t : Task} (h : Numbered s) (hc : s.client c = .attaching t)
    (hs : s.stopped = true) :
    Numbered { s with
      rejected := s.rejected ++ [t]
      client := update s.client c .idle } := by
  have hclient : ∀ d u, update s.client c .idle d = .attaching u → s.client d = .attaching u :=
    fun d u hd ↦ (attaching_of_update (by simp) hd).2
  constructor
  · exact h.nodup
  · exact h.pushed_lt
  · exact fun d u hd ↦ h.attaching_lt d u (hclient d u hd)
  · exact fun d u hd ↦ h.attaching_notMem d u (hclient d u hd)
  · exact fun d e u hd he ↦ h.attaching_inj d e u (hclient d u hd) (hclient e u he)
  · intro u hu
    rcases List.mem_append.1 hu with hu | hu
    · exact h.rejected_lt u hu
    · exact List.mem_singleton.1 hu ▸ h.attaching_lt c t hc
  · exact fun _ _ ↦ hs

/-- **Numbering is preserved.** -/
theorem Numbered.step (h : Numbered s) (hs : Step s a s') : Numbered s' := by
  cases hs with
  | @assign c _ => exact h.assign c
  | push hc _ => exact h.push hc
  | reject hc hs => exact h.reject hc hs
  | notify | joinBegin | joinReturn =>
    exact h.frame rfl rfl (fun d u hd ↦ (attaching_of_update (by simp) hd).2) rfl id
  | markStopped => exact h.frame rfl rfl (fun _ _ h ↦ h) rfl fun _ ↦ rfl
  | _ => exact h.frame rfl rfl (fun _ _ h ↦ h) rfl id

/-! ### The layout of the pushed tasks -/

theorem sublist_of_append_singleton {l m : List Task} {t : Task} (h : l.Sublist (m ++ [t]))
    (ht : t ∉ l) : l.Sublist m := by
  obtain ⟨l₁, l₂, rfl, h₁, h₂⟩ := List.sublist_append_iff.1 h
  rcases List.sublist_singleton.1 h₂ with rfl | rfl
  · simpa using h₁
  · simp at ht

/-- The tasks pushed so far are the past, the current task, the gap and the queue. -/
structure Layout (s : State) (past gap : List Task) : Prop where
  pushed_eq : s.pushed = past ++ (s.master.current.toList ++ (gap ++ s.tasks))
  gap_eq_nil : s.master.current = none → gap = []
  past_settled : ∀ t ∈ past, s.Finished t ∨ t ∈ s.cleared
  gap_cleared : ∀ t ∈ gap, t ∈ s.cleared
  cleared_mem : ∀ t ∈ s.cleared, t ∈ past ∨ t ∈ gap
  /-- A task with a thread is of the past, or its thread is the one the master joins. -/
  launched : ∀ t, s.thread t ≠ none → t ∈ past ∨ s.master.joined = some t
  cleared_thread : ∀ t ∈ s.cleared, s.thread t = none
  started_sublist : s.started.Sublist (past ++ s.master.current.toList)
  started_thread : ∀ t ∈ s.started, s.thread t ≠ none ∧ s.thread t ≠ some (.calling 0)

namespace Layout

theorem initial : Layout State.initial [] [] := by
  constructor <;> simp [State.initial, MasterPc.current, State.Finished]

/-- A step of no consequence for the tasks. -/
theorem frame (h : Layout s past gap) (hcurrent : s'.master.current = s.master.current)
    (hjoined : s'.master.joined = s.master.joined) (htasks : s'.tasks = s.tasks)
    (hpushed : s'.pushed = s.pushed) (hcleared : s'.cleared = s.cleared)
    (hthread : s'.thread = s.thread) (hstarted : s'.started = s.started) :
    Layout s' past gap := by
  obtain ⟨h₁, h₂, h₃, h₄, h₅, h₆, h₇, h₈, h₉⟩ := h
  constructor <;> simp only [State.Finished, hcurrent, hjoined, htasks, hpushed, hcleared,
    hthread, hstarted] <;> assumption

/-- The current task is neither of the past, nor of the gap, nor in the queue. -/
theorem current_notMem {t : Task} (h : Layout s past gap) (hn : Numbered s)
    (ht : s.master.current = some t) : t ∉ past ∧ t ∉ gap ∧ t ∉ s.tasks := by
  have hd := hn.nodup
  rw [h.pushed_eq, ht] at hd
  simp [List.nodup_append] at hd
  grind

/-- A task in the queue is neither of the past nor of the gap, nor the current one. -/
theorem notMem_of_mem_tasks {t : Task} (h : Layout s past gap) (hn : Numbered s)
    (ht : t ∈ s.tasks) : t ∉ past ∧ t ∉ gap ∧ s.master.current ≠ some t := by
  refine ⟨fun hp ↦ ?_, fun hg ↦ ?_, fun hc ↦ (h.current_notMem hn hc).2.2 ht⟩ <;>
  · have hd := hn.nodup
    rw [h.pushed_eq] at hd
    simp only [List.nodup_append, List.mem_append] at hd
    grind

/-- The current task has not been cleared. -/
theorem current_notMem_cleared {t : Task} (h : Layout s past gap) (hn : Numbered s)
    (ht : s.master.current = some t) : t ∉ s.cleared := fun hc ↦
  (h.cleared_mem t hc).elim (h.current_notMem hn ht).1 (h.current_notMem hn ht).2.1

/-- Only the thread the master joins is in progress. -/
theorem joined_of_inProgress {t : Task} (h : Layout s past gap) (ht : s.InProgress t) :
    s.master.joined = some t := by
  obtain ⟨pc, hpc, hdone⟩ := ht
  refine (h.launched t (by simp [hpc])).resolve_left fun hp ↦ ?_
  rcases h.past_settled t hp with hf | hc
  · rw [State.Finished, hpc] at hf
    exact hdone (Option.some.inj hf)
  · simp [h.cleared_thread t hc] at hpc

theorem thread_eq_none_of_mem_tasks {t : Task} (h : Layout s past gap) (hn : Numbered s)
    (ht : t ∈ s.tasks) : s.thread t = none := by
  obtain ⟨hp, -, hc⟩ := h.notMem_of_mem_tasks hn ht
  by_contra hne
  exact (h.launched t hne).elim hp fun hj ↦ hc (MasterPc.current_of_joined hj)

/-- A task that is popped has no thread before its launch. -/
theorem thread_eq_none_of_holding {t : Task} (h : Layout s past gap) (hn : Numbered s)
    (hm : s.master = .holding t) : s.thread t = none := by
  by_contra hne
  exact (h.launched t hne).elim (h.current_notMem hn (by rw [hm]; rfl)).1
    (by simp [hm, MasterPc.joined])

/-! ### The steps that move a border -/

theorem push (h : Layout s past gap) (c : ℕ) (t : Task) :
    Layout { s with
      tasks := s.tasks ++ [t]
      pushed := s.pushed ++ [t]
      client := update s.client c .notifying } past gap where
  __ := h
  pushed_eq := by simp [h.pushed_eq]

/-- While the master is busy, `stop` moves the queue to the gap. -/
theorem stop_of_current {t : Task} (h : Layout s past gap) (hn : Numbered s)
    (ht : s.master.current = some t) : Layout s.stop past (gap ++ s.tasks) where
  pushed_eq := by simp [State.stop, h.pushed_eq]
  gap_eq_nil hnone := by simp [State.stop, ht] at hnone
  past_settled u hu := (h.past_settled u hu).imp id fun hc ↦ List.mem_append_left _ hc
  gap_cleared u hu := (List.mem_append.1 hu).elim
    (fun hg ↦ List.mem_append_left _ (h.gap_cleared u hg)) fun hq ↦ List.mem_append_right _ hq
  cleared_mem u hu := (List.mem_append.1 hu).elim
    (fun hc ↦ (h.cleared_mem u hc).imp id fun hg ↦ List.mem_append_left _ hg)
    fun hq ↦ .inr (List.mem_append_right _ hq)
  launched u hu := by simpa [State.stop] using h.launched u hu
  cleared_thread u hu := (List.mem_append.1 hu).elim (h.cleared_thread u)
    (h.thread_eq_none_of_mem_tasks hn)
  started_sublist := by simpa [State.stop] using h.started_sublist
  started_thread := h.started_thread

/-- While the master has no task, `stop` moves the queue to the past. -/
theorem stop_of_current_eq_none (h : Layout s past gap) (hn : Numbered s)
    (hnone : s.master.current = none) : Layout s.stop (past ++ s.tasks) [] where
  pushed_eq := by simp [State.stop, h.pushed_eq, hnone, h.gap_eq_nil hnone]
  gap_eq_nil _ := rfl
  past_settled u hu := (List.mem_append.1 hu).elim
    (fun hp ↦ (h.past_settled u hp).imp id fun hc ↦ List.mem_append_left _ hc)
    fun hq ↦ .inr (List.mem_append_right _ hq)
  gap_cleared u hu := by simp at hu
  cleared_mem u hu := (List.mem_append.1 hu).elim
    (fun hc ↦ .inl (List.mem_append_left _ ((h.cleared_mem u hc).resolve_right
      (by simp [h.gap_eq_nil hnone]))))
    fun hq ↦ .inl (List.mem_append_right _ hq)
  launched u hu := (h.launched u hu).imp (List.mem_append_left _) fun hj ↦ by
    simpa [State.stop] using hj
  cleared_thread u hu := (List.mem_append.1 hu).elim (h.cleared_thread u)
    (h.thread_eq_none_of_mem_tasks hn)
  started_sublist := by
    have hsub := h.started_sublist
    simp only [hnone, Option.toList_none, List.append_nil] at hsub
    simpa [State.stop, hnone] using hsub.trans (List.sublist_append_left past s.tasks)
  started_thread := h.started_thread

theorem stop (h : Layout s past gap) (hn : Numbered s) :
    ∃ past' gap', Layout s.stop past' gap' := by
  cases hc : s.master.current with
  | none => exact ⟨_, _, h.stop_of_current_eq_none hn hc⟩
  | some t => exact ⟨_, _, h.stop_of_current hn hc⟩

/-- `pop` makes the head of the queue the current task. -/
theorem pop {t : Task} {rest : List Task} (h : Layout s past gap) (hm : s.master = .testing)
    (ht : s.tasks = t :: rest) : Layout { s with master := .holding t, tasks := rest } past [] where
  __ := h
  pushed_eq := by
    have hgap : gap = [] := h.gap_eq_nil (by rw [hm]; rfl)
    simp [h.pushed_eq, hm, ht, hgap, MasterPc.current]
  gap_eq_nil _ := rfl
  gap_cleared u hu := by simp at hu
  cleared_mem u hu := by simpa [h.gap_eq_nil (by rw [hm]; rfl)] using h.cleared_mem u hu
  launched u hu := by simpa [hm, MasterPc.joined] using h.launched u hu
  started_sublist := by
    have hsub := h.started_sublist
    simp only [hm, MasterPc.current, Option.toList_none, List.append_nil] at hsub
    exact hsub.trans (List.sublist_append_left _ _)

theorem launch {t : Task} (h : Layout s past gap) (hn : Numbered s) (hm : s.master = .holding t) :
    Layout { s with
      master := .joining t
      thread := update s.thread t (some (.calling 0)) } past gap := by
  obtain ⟨hp, -, -⟩ := h.current_notMem hn (t := t) (by rw [hm]; rfl)
  have hcleared := h.current_notMem_cleared hn (t := t) (by rw [hm]; rfl)
  have hthread := h.thread_eq_none_of_holding hn hm
  refine { h with pushed_eq := ?_, gap_eq_nil := ?_, past_settled := ?_, launched := ?_,
                  cleared_thread := ?_, started_sublist := ?_, started_thread := ?_ }
  · simpa [hm, MasterPc.current] using h.pushed_eq
  · simp [MasterPc.current]
  · intro u hu
    have hut : u ≠ t := fun hut ↦ hp (hut ▸ hu)
    simpa [State.Finished, update_of_ne hut] using h.past_settled u hu
  · intro u hu
    by_cases hut : u = t
    · exact .inr (by simp [MasterPc.joined, hut])
    · dsimp only at hu
      rw [update_of_ne hut] at hu
      exact (h.launched u hu).imp id (by simp [hm, MasterPc.joined])
  · intro u hu
    have hut : u ≠ t := fun hut ↦ hcleared (hut ▸ hu)
    simpa [update_of_ne hut] using h.cleared_thread u hu
  · simpa [hm, MasterPc.current] using h.started_sublist
  · intro u hu
    have hut : u ≠ t := fun hut ↦ (h.started_thread u hu).1 (hut ▸ hthread)
    simpa [update_of_ne hut] using h.started_thread u hu

/-- `reap` moves the current task and the gap to the past. -/
theorem reap {t : Task} (h : Layout s past gap) (hm : s.master = .joining t)
    (ht : s.thread t = some .done) :
    Layout { s with master := .looping } (past ++ t :: gap) [] where
  pushed_eq := by simp [h.pushed_eq, hm, MasterPc.current]
  gap_eq_nil _ := rfl
  past_settled u hu := by
    rcases List.mem_append.1 hu with hu | hu
    · exact h.past_settled u hu
    · rcases List.mem_cons.1 hu with rfl | hu
      · exact .inl ht
      · exact .inr (h.gap_cleared u hu)
  gap_cleared u hu := by simp at hu
  cleared_mem u hu := .inl <| (h.cleared_mem u hu).elim (List.mem_append_left _)
    fun hg ↦ List.mem_append_right _ (List.mem_cons_of_mem t hg)
  launched u hu := .inl <| (h.launched u hu).elim (List.mem_append_left _) fun hj ↦ by
    simp only [hm, MasterPc.joined, Option.some.injEq] at hj
    simp [hj]
  cleared_thread := h.cleared_thread
  started_sublist := by
    have hsub := h.started_sublist
    simp only [hm, MasterPc.current, Option.toList_some] at hsub
    simpa [MasterPc.current] using hsub.trans
      ((List.Sublist.refl past).append ((List.nil_sublist gap).cons_cons t))
  started_thread := h.started_thread

/-! ### The steps of the thread of a task -/

/-- A thread in progress moves on. -/
theorem update_thread {t : Task} {pc : ThreadPc} (h : Layout s past gap) (ht : s.InProgress t)
    (hpc : pc ≠ .calling 0) :
    Layout { s with thread := update s.thread t (some pc) } past gap := by
  have hj := h.joined_of_inProgress ht
  obtain ⟨pc₀, hpc₀, hdone⟩ := ht
  refine { h with past_settled := ?_, launched := ?_, cleared_thread := ?_, started_thread := ?_ }
  · intro u hu
    by_cases hut : u = t
    · -- a thread in progress is not of the past, unless it was cleared
      subst hut
      rcases h.past_settled u hu with hf | hc
      · exact absurd (Option.some.inj (hpc₀.symm.trans hf)) hdone
      · exact .inr hc
    · simpa [State.Finished, update_of_ne hut] using h.past_settled u hu
  · intro u hu
    by_cases hut : u = t
    · exact .inr (hut ▸ hj)
    · dsimp only at hu
      rw [update_of_ne hut] at hu
      exact h.launched u hu
  · intro u hu
    have hut : u ≠ t := by
      rintro rfl
      simp [h.cleared_thread u hu] at hpc₀
    simpa [update_of_ne hut] using h.cleared_thread u hu
  · intro u hu
    by_cases hut : u = t
    · simpa [hut] using hpc
    · simpa [update_of_ne hut] using h.started_thread u hu

/-- The first call of a job adds the current task to the starts. -/
theorem start {t : Task} (h : Layout s past gap) (ht : s.thread t = some (.calling 0)) :
    Layout { s with
      thread := update s.thread t (some (.body 0))
      started := s.started ++ [t] } past gap := by
  have hprogress : s.InProgress t := ⟨_, ht, by simp⟩
  have hcurrent := MasterPc.current_of_joined (h.joined_of_inProgress hprogress)
  have hnew : t ∉ s.started := fun hs ↦ (h.started_thread t hs).2 ht
  have hmove : Layout { s with thread := update s.thread t (some (.body 0)) } past gap :=
    h.update_thread hprogress (by simp)
  refine { hmove with started_sublist := ?_, started_thread := ?_ }
  · -- the task is new, so what has started before is of the past
    have hsub := h.started_sublist
    rw [hcurrent, Option.toList_some] at hsub ⊢
    exact (sublist_of_append_singleton hsub hnew).append (List.Sublist.refl [t])
  · intro u hu
    rcases List.mem_append.1 hu with hu | hu
    · exact hmove.started_thread u hu
    · simp [List.mem_singleton.1 hu]

/-- **The layout is preserved**, with borders moved. -/
theorem step (h : Layout s past gap) (hn : Numbered s) (hs : Step s a s') :
    ∃ past' gap', Layout s' past' gap' := by
  cases hs with
  | @push c t _ _ => exact ⟨past, gap, h.push c t⟩
  | stop => exact h.stop hn
  | dtorStop =>
    obtain ⟨past', gap', h'⟩ := h.stop hn
    exact ⟨past', gap', h'.frame rfl rfl rfl rfl rfl rfl rfl⟩
  | pop hm ht => exact ⟨past, [], h.pop hm ht⟩
  | launch hm => exact ⟨past, gap, h.launch hn hm⟩
  | reap hm ht => exact ⟨_, _, h.reap hm ht⟩
  | @call t i ht =>
    -- only the first call is a start
    cases i with
    | zero => exact ⟨past, gap, h.start ht⟩
    | succ i => exact ⟨past, gap, h.update_thread ⟨_, ht, by simp⟩ (by simp)⟩
  | finish ht | unfinished ht | signal ht =>
    exact ⟨past, gap, h.update_thread ⟨_, ht, by simp⟩ (by simp)⟩
  | timeout ht => exact ⟨past, gap, h.update_thread ⟨_, ht, by simp⟩ (by simp)⟩
  | notify => exact ⟨past, gap, h.frame (by simp) (by simp) rfl rfl rfl rfl rfl⟩
  | wake hm | sleep hm | leave hm | again hm | exit hm =>
    exact ⟨past, gap, h.frame (by simp [hm, MasterPc.current]) (by simp [hm, MasterPc.joined])
      rfl rfl rfl rfl rfl⟩
  | _ => exact ⟨past, gap, h.frame rfl rfl rfl rfl rfl rfl rfl⟩

/-- What was pushed before a task of the past, or before the current one, is of the past. -/
theorem before_subset_past {t : Task} {A B : List Task} (h : Layout s past gap) (hn : Numbered s)
    (hAB : s.pushed = A ++ t :: B) (ht : t ∈ past ∨ s.master.current = some t) : A ⊆ past := by
  have hd := hn.nodup
  rw [hAB] at hd
  have htA : t ∉ A := fun hA ↦ (List.nodup_append.1 hd).2.2 t hA t List.mem_cons_self rfl
  have hsplit := hAB.symm.trans h.pushed_eq
  rcases List.append_eq_append_iff.1 hsplit with ⟨l, hpast, -⟩ | ⟨l, hA, hrest⟩
  · exact hpast ▸ List.subset_append_left A l
  · -- the task would stand behind the whole past
    rcases ht with ht | ht
    · exact absurd (hA ▸ List.mem_append_left l ht) htA
    · rw [ht, Option.toList_some, List.singleton_append] at hrest
      cases l with
      | nil => simp [hA]
      | cons u l =>
        have hut : t = u := (List.cons.inj hrest).1
        exact absurd (by simp [hA, hut]) htA

theorem mem_pushed_of_thread {t : Task} (h : Layout s past gap) (ht : s.thread t ≠ none) :
    t ∈ s.pushed := by
  rw [h.pushed_eq]
  rcases h.launched t ht with hp | hj
  · exact List.mem_append_left _ hp
  · simp [MasterPc.current_of_joined hj]

theorem mem_pushed_of_mem_cleared {t : Task} (h : Layout s past gap) (ht : t ∈ s.cleared) :
    t ∈ s.pushed := by
  rw [h.pushed_eq]
  rcases h.cleared_mem t ht with hp | hg
  · exact List.mem_append_left _ hp
  · simp [hg]

theorem mem_of_mem_started {t : Task} (h : Layout s past gap) (ht : t ∈ s.started) :
    t ∈ past ∨ s.master.current = some t := by
  simpa using h.started_sublist.subset ht

end Layout

/-! ### Every run -/

theorem numbered_of_run {tr : List Action} (h : Run sequence tr s) : Numbered s :=
  h.invariant (by rintro _ rfl; exact Numbered.initial) fun _ _ _ hn hs ↦ hn.step hs

theorem layout_of_run {tr : List Action} (h : Run sequence tr s) :
    ∃ past gap, Layout s past gap := by
  induction h with
  | nil hi =>
    obtain rfl := hi
    exact ⟨[], [], Layout.initial⟩
  | snoc h hs ih =>
    obtain ⟨past, gap, hl⟩ := ih
    exact hl.step (numbered_of_run h) hs

/-- The jobs have run one at a time and in order. -/
structure Serial (s : State) : Prop where
  /-- No two jobs are in progress. -/
  one_at_a_time : ∀ t u, s.InProgress t → s.InProgress u → t = u
  /-- No job has started twice. -/
  starts_once : s.started.Nodup
  /-- The jobs have started in the order of the pushes, and no task was pushed twice. -/
  in_order : s.started.Sublist s.pushed ∧ s.pushed.Nodup
  /-- The tasks pushed before a job that has started have run to their ends or were cleared. -/
  waits : ∀ A t B, s.pushed = A ++ t :: B → t ∈ s.started →
    ∀ u ∈ A, s.Finished u ∨ u ∈ s.cleared
  /-- The job of a task that was cleared has not started. -/
  cleared_notMem : ∀ t ∈ s.cleared, t ∉ s.started

theorem Layout.serial (h : Layout s past gap) (hn : Numbered s) : Serial s where
  one_at_a_time t u ht hu :=
    Option.some.inj ((h.joined_of_inProgress ht).symm.trans (h.joined_of_inProgress hu))
  starts_once := by
    have hd := hn.nodup
    rw [h.pushed_eq, ← List.append_assoc] at hd
    exact h.started_sublist.nodup hd.of_append_left
  in_order := by
    refine ⟨?_, hn.nodup⟩
    rw [h.pushed_eq, ← List.append_assoc]
    exact h.started_sublist.trans (List.sublist_append_left _ _)
  waits A t B hAB ht u hu :=
    h.past_settled u (h.before_subset_past hn hAB (h.mem_of_mem_started ht) hu)
  cleared_notMem t hc ht := (h.started_thread t ht).1 (h.cleared_thread t hc)

/-- **The jobs run one at a time and in order**, in every run of a sequence. -/
theorem sequence_serial {tr : List Action} (h : Run sequence tr s) : Serial s := by
  obtain ⟨past, gap, hl⟩ := layout_of_run h
  exact hl.serial (numbered_of_run h)

/-- Client 2 stops the sequence while the job of task 0 runs and task 1 is in the queue. -/
theorem sequence_serial_two : ∃ s, Run sequence
    [.assign 0, .push 0, .assign 1, .push 1, .pop, .launch, .call 0, .stop 2] s ∧
    s.thread 0 = some (.body 0) ∧ s.started = [0] ∧ s.cleared = [1] ∧ Serial s := by
  have h₄ := (((Run.nil (S := sequence) rfl).snoc (Step.assign (c := 0) rfl)).snoc
    (Step.push (c := 0) rfl rfl)).snoc (Step.assign (c := 1) rfl) |>.snoc
    (Step.push (c := 1) rfl rfl)
  have h := (((h₄.snoc (Step.pop rfl rfl)).snoc (Step.launch rfl)).snoc
    (Step.call (t := 0) rfl)).snoc (Step.stop (c := 2) rfl)
  exact ⟨_, h, rfl, rfl, rfl, sequence_serial h⟩

end Cppkg.Jobs
