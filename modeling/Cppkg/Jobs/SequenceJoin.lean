import Cppkg.Jobs.SequenceOrder
import Mathlib.Data.Nat.Basic

/-!
# What join waits for

`join` waits for one future, that of the task last assigned to `last_future_`. It is meant to
return when all jobs are complete: the sequence is idle (`State.Idle`) as long as nothing was
attached since the call began (`State.JoinsAll`). Since the jobs run in order, the wait for the
last task pushed would do, were its future ready only when the task has run. A task that is
destroyed has a ready future too, so that a join returns at once after a `stop` that meets a
running job and a queue (`not_joinsAll_stop`). And two calls of `attach_job` may push in the
other order than they assigned.

`InTurn` excludes the steps that do so: a push behind the task of `last_future_`, and the
destruction of a task a join waits for, or would wait for, while another one is not done. In a
run without such steps every join waits for all jobs (`joinsAll_of_run`). What carries the proof
is that an awaited task which has been pushed is the last one, and that an awaited task is ready
only in an idle sequence (`Joins`).
-/

namespace Cppkg.Jobs

open Function Transition

variable {s s' : State} {a : Action} {past gap : List Task} {t : Task}

/-! ### What join is for -/

/-- No task is at the master before its launch, and no task is in progress. -/
def State.Quiet (s : State) : Prop := (∀ t, s.master ≠ .holding t) ∧ ∀ t, ¬ s.InProgress t

/-- No task is in the queue, at the master or in progress. -/
def State.Idle (s : State) : Prop := s.tasks = [] ∧ s.Quiet

/-- The sequence is idle if a join has returned and nothing was attached since it began, be it
that no call has assigned its future or that none has pushed its task. -/
def State.JoinsAll (s : State) : Prop :=
  ∀ m ∈ s.returned, m.assigned = s.next ∨ m.pushed = s.pushed.length → s.Idle

/-- A join that begins now waits for the task, or a join waits for it that began after the last
push. -/
def State.Awaited (s : State) (t : Task) : Prop :=
  s.lastFuture = some t ∨ ∃ c m, s.client c = .joining t m ∧ m.pushed = s.pushed.length

/-- The step does not push a task behind the task of `last_future_`, and it does not destroy an
awaited task while another one is not done. -/
def InTurn (s : State) : Action → Prop
  | .push _ => ∀ t, s.lastFuture = some t → t ∉ s.pushed
  | .stop _ | .dtorStop => (∃ t ∈ s.tasks, s.Awaited t) → s.Quiet
  | .reject c => (∃ t, s.client c = .attaching t ∧ s.Awaited t) → s.Idle
  | _ => True

/-- **A join that returns too early.** The job of task 0 runs and task 1 is in the queue when
client 1 stops the sequence. Client 2 then joins, and returns at once. -/
theorem not_joinsAll_stop : ∃ s, Run sequence
    [.assign 0, .push 0, .notify 0, .assign 0, .push 0, .pop, .launch, .call 0, .stop 1,
      .joinBegin 2, .joinReturn 2] s ∧
    s.thread 0 = some (.body 0) ∧ ¬ s.JoinsAll := by
  have h₅ := (((((Run.nil (S := sequence) rfl).snoc (Step.assign (c := 0) rfl)).snoc
    (Step.push (c := 0) rfl rfl)).snoc (Step.notify (c := 0) rfl)).snoc
    (Step.assign (c := 0) rfl)).snoc (Step.push (c := 0) rfl rfl)
  have h₈ := ((h₅.snoc (Step.pop rfl rfl)).snoc (Step.launch rfl)).snoc (Step.call (t := 0) rfl)
  have h := ((h₈.snoc (Step.stop (c := 1) rfl)).snoc (Step.joinBegin (c := 2) rfl rfl)).snoc
    (Step.joinReturn (c := 2) rfl (.inr (.inl (by simp [State.stop]))))
  refine ⟨_, h, rfl, fun hall ↦ ?_⟩
  obtain ⟨-, -, hquiet⟩ := hall ⟨2, 2⟩ (by simp [State.initial, State.stop, State.moment])
    (.inl rfl)
  exact hquiet 0 ⟨_, rfl, by simp⟩

/-! ### A sequence that is idle -/

theorem State.Idle.frame (h : s.Idle) (htasks : s'.tasks = []) (hm : ∀ t, s'.master ≠ .holding t)
    (hthread : s'.thread = s.thread) : s'.Idle :=
  ⟨htasks, hm, by simpa only [State.InProgress, hthread] using h.2.2⟩

theorem MasterPc.notified_ne_holding {pc : MasterPc} (h : ∀ t, pc ≠ .holding t) (t : Task) :
    pc.notified ≠ .holding t := by
  cases pc with
  | holding u => exact absurd rfl (h u)
  | _ => simp [notified]

theorem State.Quiet.idle_stop (h : s.Quiet) : s.stop.Idle :=
  ⟨rfl, MasterPc.notified_ne_holding h.1, h.2⟩

/-- Only a push ends idleness. -/
theorem State.Idle.step (h : s.Idle) (hs : Step s a s') (ha : ∀ c, a ≠ .push c) : s'.Idle := by
  cases hs with
  | @push c => exact absurd rfl (ha c)
  | stop | dtorStop => exact h.2.idle_stop.frame rfl h.2.idle_stop.2.1 rfl
  | notify => exact h.frame h.1 (MasterPc.notified_ne_holding h.2.1) rfl
  | wake | sleep | leave | reap | again | exit => exact h.frame h.1 (by simp) rfl
  | pop _ ht => simp [h.1] at ht
  | launch hm => exact absurd hm (h.2.1 _)
  | call ht | finish ht | unfinished ht | timeout ht | signal ht =>
    exact absurd ⟨_, ht, by simp⟩ (h.2.2 _)
  | _ => exact h.frame h.1 h.2.1 rfl

/-- Before the first push the sequence is idle. -/
theorem Layout.idle_of_pushed_eq_nil (h : Layout s past gap) (hnil : s.pushed = []) :
    s.Idle := by
  have heq := h.pushed_eq
  rw [hnil, eq_comm] at heq
  simp only [List.append_eq_nil_iff, Option.toList_eq_nil_iff] at heq
  obtain ⟨-, hcurrent, -, htasks⟩ := heq
  refine ⟨htasks, fun t hm ↦ by simp [hm, MasterPc.current] at hcurrent, fun t ht ↦ ?_⟩
  simp [MasterPc.current_of_joined (h.joined_of_inProgress ht)] at hcurrent

/-- When the last task pushed has run to its end, the sequence is idle. -/
theorem Layout.idle_of_last (h : Layout s past gap) (hn : Numbered s) (ht : s.InProgress t)
    (hlast : s.pushed.getLast? = some t) :
    State.Idle { s with thread := update s.thread t (some .done) } := by
  have hj := h.joined_of_inProgress ht
  have hbehind : gap ++ s.tasks = [] := by
    obtain ⟨-, hgap, hqueue⟩ := h.current_notMem hn (MasterPc.current_of_joined hj)
    rcases (gap ++ s.tasks).eq_nil_or_concat with hnil | ⟨l, u, hu⟩
    · exact hnil
    · -- the last task would be one of the gap or of the queue
      rw [h.pushed_eq, hu] at hlast
      have hut : u = t := by simpa using hlast
      have hmem : t ∈ gap ++ s.tasks := by simp [hu, hut]
      exact ((List.mem_append.1 hmem).elim hgap hqueue).elim
  refine ⟨(List.append_eq_nil_iff.1 hbehind).2, fun u hm ↦ ?_, fun u hu ↦ ?_⟩
  · dsimp only at hm
    simp [hm, MasterPc.joined] at hj
  · obtain ⟨pc, hpc, hdone⟩ := hu
    dsimp only at hpc
    by_cases hut : u = t
    · rw [hut, update_self] at hpc
      exact hdone (Option.some.inj hpc).symm
    · rw [update_of_ne hut] at hpc
      exact hut (Option.some.inj ((h.joined_of_inProgress ⟨pc, hpc, hdone⟩).symm.trans hj))

/-! ### The moments of the joins -/

/-- A client that is set to another place than a join. -/
theorem joining_of_update {pc : ClientPc} {c d : ℕ} {m : Moment}
    (hpc : ∀ u m, pc ≠ .joining u m) (h : update s.client c pc d = .joining t m) :
    s.client d = .joining t m := by
  by_cases hd : d = c
  · subst hd
    rw [update_self] at h
    exact absurd h (hpc t m)
  · rwa [update_of_ne hd] at h

/-- A client that is set to a join. -/
theorem joining_of_update_joining {c d : ℕ} {u : Task} {m m₀ : Moment}
    (h : update s.client c (.joining u m₀) d = .joining t m) :
    (t = u ∧ m = m₀) ∨ s.client d = .joining t m := by
  by_cases hd : d = c
  · subst hd
    rw [update_self] at h
    exact .inl ⟨(ClientPc.joining.inj h).1.symm, (ClientPc.joining.inj h).2.symm⟩
  · exact .inr (by rwa [update_of_ne hd] at h)

/-- What the moments record, and which task a join waits for as long as nothing is assigned. -/
structure Moments (s : State) : Prop where
  next_eq_zero : s.lastFuture = none → s.next = 0
  last_lt : ∀ t, s.lastFuture = some t → t < s.next
  joining_le : ∀ c t m, s.client c = .joining t m →
    m.assigned ≤ s.next ∧ m.pushed ≤ s.pushed.length
  joining_last : ∀ c t m, s.client c = .joining t m → m.assigned = s.next → s.lastFuture = some t
  returned_le : ∀ m ∈ s.returned, m.assigned ≤ s.next ∧ m.pushed ≤ s.pushed.length

namespace Moments

theorem initial : Moments State.initial := by
  constructor <;> simp [State.initial]

/-- A step that assigns nothing. -/
theorem frame (h : Moments s) (hlast : s'.lastFuture = s.lastFuture) (hnext : s'.next = s.next)
    (hpushed : s.pushed.length ≤ s'.pushed.length)
    (hclient : ∀ c t m, s'.client c = .joining t m → s.client c = .joining t m)
    (hreturned : ∀ m ∈ s'.returned, m.assigned ≤ s.next ∧ m.pushed ≤ s.pushed.length) :
    Moments s' where
  next_eq_zero hn := hnext ▸ h.next_eq_zero (hlast ▸ hn)
  last_lt t ht := hnext ▸ h.last_lt t (hlast ▸ ht)
  joining_le c t m hc := by
    have hle := h.joining_le c t m (hclient c t m hc)
    exact ⟨hnext ▸ hle.1, Nat.le_trans hle.2 hpushed⟩
  joining_last c t m hc hm := hlast ▸ h.joining_last c t m (hclient c t m hc) (hnext ▸ hm)
  returned_le m hm :=
    ⟨hnext ▸ (hreturned m hm).1, Nat.le_trans (hreturned m hm).2 hpushed⟩

theorem assign (h : Moments s) (c : ℕ) :
    Moments { s with
      lastFuture := some s.next
      next := s.next + 1
      client := update s.client c (.attaching s.next) } := by
  have hclient : ∀ d t m, update s.client c (.attaching s.next) d = .joining t m →
      s.client d = .joining t m := fun d t m hd ↦ joining_of_update (by simp) hd
  constructor
  · simp
  · rintro t ⟨⟩
    exact Nat.lt_succ_self _
  · intro d t m hd
    have hle := h.joining_le d t m (hclient d t m hd)
    exact ⟨Nat.le_succ_of_le hle.1, hle.2⟩
  · intro d t m hd hm
    have hle := (h.joining_le d t m (hclient d t m hd)).1
    exact absurd (hm ▸ hle) (Nat.not_succ_le_self _)
  · exact fun m hm ↦ ⟨Nat.le_succ_of_le (h.returned_le m hm).1, (h.returned_le m hm).2⟩

theorem joinBegin {c : ℕ} (h : Moments s) (hl : s.lastFuture = some t) :
    Moments { s with client := update s.client c (.joining t s.moment) } := by
  refine { h with joining_le := ?_, joining_last := ?_ }
  · intro d u m hd
    rcases joining_of_update_joining hd with ⟨-, rfl⟩ | hd
    · exact ⟨le_rfl, le_rfl⟩
    · exact h.joining_le d u m hd
  · intro d u m hd hm
    rcases joining_of_update_joining hd with ⟨rfl, -⟩ | hd
    · exact hl
    · exact h.joining_last d u m hd hm

theorem step (h : Moments s) (hs : Step s a s') : Moments s' := by
  cases hs with
  | @assign c => exact h.assign c
  | joinBegin _ hl => exact h.joinBegin hl
  | push | reject | notify =>
    exact h.frame rfl rfl (by simp) (fun _ _ _ hd ↦ joining_of_update (by simp) hd) h.returned_le
  | joinNone =>
    refine h.frame rfl rfl le_rfl (fun _ _ _ hd ↦ hd) fun m hm ↦ ?_
    rcases List.mem_append.1 hm with hm | hm
    · exact h.returned_le m hm
    · exact List.mem_singleton.1 hm ▸ ⟨le_rfl, le_rfl⟩
  | @joinReturn c t m₀ hc =>
    refine h.frame rfl rfl le_rfl (fun _ _ _ hd ↦ joining_of_update (by simp) hd) fun m hm ↦ ?_
    rcases List.mem_append.1 hm with hm | hm
    · exact h.returned_le m hm
    · exact List.mem_singleton.1 hm ▸ h.joining_le c t m₀ hc
  | _ => exact h.frame rfl rfl le_rfl (fun _ _ _ hd ↦ hd) h.returned_le

end Moments

/-! ### What one step does to what is awaited, ready and returned -/

theorem pushed_of_step (hs : Step s a s') (ha : ∀ c, a ≠ .push c) : s'.pushed = s.pushed := by
  cases hs with
  | @push c => exact absurd rfl (ha c)
  | _ => rfl

theorem lastFuture_of_step (hs : Step s a s') (ha : ∀ c, a ≠ .assign c) :
    s'.lastFuture = s.lastFuture ∧ s'.next = s.next := by
  cases hs with
  | @assign c => exact absurd rfl (ha c)
  | _ => exact ⟨rfl, rfl⟩

theorem State.Awaited.frame (h : s'.Awaited t) (hlast : s'.lastFuture = s.lastFuture)
    (hpushed : s'.pushed = s.pushed)
    (hclient : ∀ c m, s'.client c = .joining t m → s.client c = .joining t m) : s.Awaited t := by
  rcases h with h | ⟨c, m, hc, hm⟩
  · exact .inl (hlast ▸ h)
  · exact .inr ⟨c, m, hclient c m hc, hpushed ▸ hm⟩

/-- After a push only the task of `last_future_` is awaited. -/
theorem State.Awaited.of_push {c : ℕ} (h : s'.Awaited t) (hs : Step s (.push c) s')
    (hm : Moments s) : s.lastFuture = some t := by
  cases hs with
  | push _ _ =>
    rcases h with h | ⟨d, m, hd, hp⟩
    · exact h
    · have hle := (hm.joining_le d t m (joining_of_update (by simp) hd)).2
      simp only [List.length_append, List.length_singleton] at hp
      omega

/-- After an assignment, the new task is awaited and what was awaited before. -/
theorem State.Awaited.of_assign {c : ℕ} (h : s'.Awaited t) (hs : Step s (.assign c) s') :
    t = s.next ∨ s.Awaited t := by
  cases hs with
  | assign _ =>
    rcases h with h | ⟨d, m, hd, hp⟩
    · exact .inl (Option.some.inj h).symm
    · exact .inr (.inr ⟨d, m, joining_of_update (by simp) hd, hp⟩)

/-- The other steps let nothing become awaited. -/
theorem State.Awaited.of_step (h : s'.Awaited t) (hs : Step s a s')
    (hpush : ∀ c, a ≠ .push c) (hassign : ∀ c, a ≠ .assign c) : s.Awaited t := by
  cases hs with
  | @push c => exact absurd rfl (hpush c)
  | @assign c => exact absurd rfl (hassign c)
  | reject | notify | joinReturn =>
    exact h.frame rfl rfl fun _ _ hd ↦ joining_of_update (by simp) hd
  | @joinBegin c u _ hl =>
    rcases h with h | ⟨d, m, hd, hp⟩
    · exact .inl h
    · rcases joining_of_update_joining hd with ⟨rfl, -⟩ | hd
      · exact .inl hl
      · exact .inr ⟨d, m, hd, hp⟩
  | _ => exact h.frame rfl rfl fun _ _ hd ↦ hd

theorem finished_of_update {u : Task} {pc : ThreadPc}
    (h : update s.thread u (some pc) t = some .done) : (t = u ∧ pc = .done) ∨ s.Finished t := by
  by_cases htu : t = u
  · rw [htu, update_self] at h
    exact .inl ⟨htu, Option.some.inj h⟩
  · exact .inr (by rwa [update_of_ne htu] at h)

theorem finished_update {u : Task} {pc : ThreadPc} (hu : ¬ s.Finished u) (h : s.Finished t) :
    update s.thread u (some pc) t = some .done := by
  have htu : t ≠ u := fun htu ↦ hu (htu ▸ h)
  rwa [update_of_ne htu]

/-- **What makes a future ready**: the end of its job, a `stop` that finds its task in the
queue, and an attach that throws. -/
theorem State.Ready.of_step (h : s'.Ready t) (hs : Step s a s') :
    s.Ready t ∨
    (s.InProgress t ∧ s' = { s with thread := update s.thread t (some .done) }) ∨
    (t ∈ s.tasks ∧ ((∃ c, a = .stop c) ∨ a = .dtorStop)) ∨
    ∃ c, a = .reject c ∧ s.client c = .attaching t := by
  cases hs with
  | stop | dtorStop =>
    rcases h with hf | hc | hr
    · exact .inl (.inl hf)
    · rcases List.mem_append.1 hc with hc | hq
      · exact .inl (.inr (.inl hc))
      · exact .inr (.inr (.inl ⟨hq, by simp⟩))
    · exact .inl (.inr (.inr hr))
  | @reject c u hc =>
    rcases h with hf | hcl | hr
    · exact .inl (.inl hf)
    · exact .inl (.inr (.inl hcl))
    · rcases List.mem_append.1 hr with hr | hr
      · exact .inl (.inr (.inr hr))
      · exact .inr (.inr (.inr ⟨c, rfl, by rw [hc, List.mem_singleton.1 hr]⟩))
  | @finish u i hu | @signal u i hu =>
    rcases h with hf | hr
    · rcases finished_of_update hf with ⟨rfl, -⟩ | hf
      · exact .inr (.inl ⟨⟨_, hu, by simp⟩, rfl⟩)
      · exact .inl (.inl hf)
    · exact .inl (.inr hr)
  | launch | call | unfinished | timeout =>
    exact .inl (h.imp (fun hf ↦ (finished_of_update hf).resolve_left (by simp)) id)
  | _ => exact .inl h

/-- A future stays ready. -/
theorem State.Ready.step (h : s.Ready t) (hl : Layout s past gap) (hn : Numbered s)
    (hs : Step s a s') : s'.Ready t := by
  cases hs with
  | stop | dtorStop => exact h.imp id fun h ↦ h.imp (List.mem_append_left _) id
  | reject => exact h.imp id fun h ↦ h.imp id (List.mem_append_left _)
  | launch hm =>
    have hnone := hl.thread_eq_none_of_holding hn hm
    exact h.imp (finished_update (by simp [State.Finished, hnone])) id
  | call hu | finish hu | unfinished hu | timeout hu | signal hu =>
    exact h.imp (finished_update (by simp [State.Finished, hu])) id
  | _ => exact h

/-- A join returns when there is no future to wait for, or when its future is ready. -/
theorem mem_returned_of_step {m : Moment} (hs : Step s a s') (hm : m ∈ s'.returned) :
    m ∈ s.returned ∨ s.lastFuture = none ∨
      ∃ c t, s.client c = .joining t m ∧ s.Ready t := by
  cases hs with
  | joinNone _ hl => exact .inr (.inl hl)
  | @joinReturn c t m₀ hc hr =>
    rcases List.mem_append.1 hm with hm | hm
    · exact .inl hm
    · exact .inr (.inr ⟨c, t, List.mem_singleton.1 hm ▸ hc, hr⟩)
  | _ => exact .inl hm

/-! ### The invariant of the awaited task -/

/-- The awaited task is the last one, and it is ready only in an idle sequence. -/
structure Joins (s : State) : Prop where
  awaited_last : ∀ t, s.Awaited t → t ∈ s.pushed → s.pushed.getLast? = some t
  awaited_ready : ∀ t, s.Awaited t → s.Ready t → s.Idle
  returned_pushed : ∀ m ∈ s.returned, m.pushed = s.pushed.length → s.Idle
  returned_assigned : ∀ m ∈ s.returned, m.assigned = s.next →
    s.Idle ∧ ∀ t, s.lastFuture = some t → s.Ready t

namespace Joins

theorem initial : Joins State.initial := by
  constructor <;> simp [State.initial, State.Awaited]

theorem push {c : ℕ} (h : Joins s) (hl : Layout s past gap) (hn : Numbered s) (hm : Moments s)
    (hs : Step s (.push c) s') (hturn : InTurn s (.push c)) : Joins s' := by
  have hs' := hs
  cases hs' with
  | @push _ u hc hstopped =>
    -- the task of `last_future_` has not been pushed, so its future is not ready
    have hready : ∀ t, s.lastFuture = some t → ¬ s.Ready t := by
      rintro t ht (hf | hcleared | hrejected)
      · exact hturn t ht (hl.mem_pushed_of_thread (by rw [hf]; simp))
      · exact hturn t ht (hl.mem_pushed_of_mem_cleared hcleared)
      · simp [hn.rejected_stopped t hrejected] at hstopped
    constructor
    · intro t ht hmem
      rcases List.mem_append.1 hmem with hmem | hmem
      · exact absurd hmem (hturn t (ht.of_push hs hm))
      · simp [List.mem_singleton.1 hmem]
    · exact fun t ht hr ↦ absurd hr (hready t (ht.of_push hs hm))
    · intro m hmem heq
      have hle := (hm.returned_le m hmem).2
      simp only [List.length_append, List.length_singleton] at heq
      omega
    · -- a join that has seen the last assignment has returned with its task ready
      intro m hmem heq
      cases hlast : s.lastFuture with
      | none =>
        have hlt := hn.attaching_lt c u hc
        rw [hm.next_eq_zero hlast] at hlt
        exact absurd hlt (Nat.not_lt_zero u)
      | some t => exact absurd ((h.returned_assigned m hmem heq).2 t hlast) (hready t hlast)

theorem assign {c : ℕ} (h : Joins s) (hl : Layout s past gap) (hn : Numbered s) (hm : Moments s)
    (hs : Step s (.assign c) s') : Joins s' := by
  have hs' := hs
  cases hs' with
  | assign hc =>
    have hnext : s.next ∉ s.pushed := fun hmem ↦ Nat.lt_irrefl _ (hn.pushed_lt _ hmem)
    have hready : ¬ s.Ready s.next := by
      rintro (hf | hcleared | hrejected)
      · exact hnext (hl.mem_pushed_of_thread (by rw [hf]; simp))
      · exact hnext (hl.mem_pushed_of_mem_cleared hcleared)
      · exact Nat.lt_irrefl _ (hn.rejected_lt _ hrejected)
    constructor
    · intro t ht hmem
      rcases ht.of_assign hs with rfl | ht
      · exact absurd hmem hnext
      · exact h.awaited_last t ht hmem
    · intro t ht hr
      rcases ht.of_assign hs with rfl | ht
      · exact absurd hr hready
      · exact (h.awaited_ready t ht hr).step hs (by simp)
    · exact fun m hmem heq ↦ (h.returned_pushed m hmem heq).step hs (by simp)
    · intro m hmem heq
      have hle := (hm.returned_le m hmem).1
      exact absurd (heq ▸ hle) (Nat.not_succ_le_self _)

/-- An awaited task is ready only in an idle sequence, after a step other than a push or an
assignment. -/
theorem awaited_ready_step (h : Joins s) (hl : Layout s past gap) (hn : Numbered s)
    (hs : Step s a s') (hturn : InTurn s a) (hpush : ∀ c, a ≠ .push c)
    (ht : s.Awaited t) (hr : s'.Ready t) : s'.Idle := by
  rcases hr.of_step hs with hr | ⟨hprogress, rfl⟩ | ⟨hq, ⟨c, rfl⟩ | rfl⟩ | ⟨c, rfl, hc⟩
  · exact (h.awaited_ready t ht hr).step hs hpush
  · -- the job ends: its task was the last one pushed
    obtain ⟨pc, hpc, -⟩ := id hprogress
    exact hl.idle_of_last hn hprogress
      (h.awaited_last t ht (hl.mem_pushed_of_thread (by simp [hpc])))
  · cases hs with
    | stop => exact (hturn ⟨t, hq, ht⟩).idle_stop
  · cases hs with
    | dtorStop =>
      have hidle := (hturn ⟨t, hq, ht⟩).idle_stop
      exact hidle.frame rfl hidle.2.1 rfl
  · exact (hturn ⟨t, hc, ht⟩).step hs (by simp)

/-- **The invariant is preserved** by the steps in turn. -/
theorem step (h : Joins s) (hl : Layout s past gap) (hn : Numbered s) (hm : Moments s)
    (hs : Step s a s') (hturn : InTurn s a) : Joins s' := by
  by_cases hpush : ∃ c, a = .push c
  · obtain ⟨c, rfl⟩ := hpush
    exact h.push hl hn hm hs hturn
  by_cases hassign : ∃ c, a = .assign c
  · obtain ⟨c, rfl⟩ := hassign
    exact h.assign hl hn hm hs
  have hpush' : ∀ c, a ≠ .push c := fun c hc ↦ hpush ⟨c, hc⟩
  have hassign' : ∀ c, a ≠ .assign c := fun c hc ↦ hassign ⟨c, hc⟩
  have hpushed := pushed_of_step hs hpush'
  obtain ⟨hlast, hnext⟩ := lastFuture_of_step hs hassign'
  -- without a future, nothing has been pushed
  have hnone : s.lastFuture = none → s.Idle := fun hnone ↦ by
    refine hl.idle_of_pushed_eq_nil (List.eq_nil_iff_forall_not_mem.2 fun t ht ↦ ?_)
    have hlt := hn.pushed_lt t ht
    rw [hm.next_eq_zero hnone] at hlt
    exact Nat.not_lt_zero t hlt
  constructor
  · intro t ht hmem
    rw [hpushed] at hmem ⊢
    exact h.awaited_last t (ht.of_step hs hpush' hassign') hmem
  · exact fun t ht hr ↦
      h.awaited_ready_step hl hn hs hturn hpush' (ht.of_step hs hpush' hassign') hr
  · -- a join that returns now has waited for an awaited task
    intro m hmem heq
    rw [hpushed] at heq
    refine State.Idle.step ?_ hs hpush'
    rcases mem_returned_of_step hs hmem with hmem | hnil | ⟨c, t, hc, hr⟩
    · exact h.returned_pushed m hmem heq
    · exact hnone hnil
    · exact h.awaited_ready t (.inr ⟨c, m, hc, heq⟩) hr
  · intro m hmem heq
    rw [hnext] at heq
    have hidle : s.Idle ∧ ∀ t, s.lastFuture = some t → s.Ready t := by
      rcases mem_returned_of_step hs hmem with hmem | hnil | ⟨c, t, hc, hr⟩
      · exact h.returned_assigned m hmem heq
      · exact ⟨hnone hnil, by simp [hnil]⟩
      · have ht := hm.joining_last c t m hc heq
        exact ⟨h.awaited_ready t (.inl ht) hr, fun u hu ↦ Option.some.inj (ht.symm.trans hu) ▸ hr⟩
    exact ⟨hidle.1.step hs hpush', fun t ht ↦ (hidle.2 t (hlast ▸ ht)).step hl hn hs⟩

end Joins

/-! ### Every run -/

theorem moments_of_run {tr : List Action} (h : Run sequence tr s) : Moments s :=
  h.invariant (by rintro _ rfl; exact Moments.initial) fun _ _ _ hm hs ↦ hm.step hs

theorem joins_of_run {tr : List Action} (h : Run (sequence.restrict InTurn) tr s) : Joins s := by
  induction h with
  | nil hi =>
    obtain rfl := hi
    exact Joins.initial
  | snoc h hs ih =>
    obtain ⟨past, gap, hl⟩ := layout_of_run h.of_restrict
    exact ih.step hl (numbered_of_run h.of_restrict) (moments_of_run h.of_restrict) hs.1 hs.2

/-- **A join waits for all jobs**, in every run whose steps are in turn. -/
theorem joinsAll_of_run {tr : List Action} (h : Run (sequence.restrict InTurn) tr s) :
    s.JoinsAll := by
  have hj := joins_of_run h
  rintro m hm (ha | hp)
  · exact (hj.returned_assigned m hm ha).1
  · exact hj.returned_pushed m hm hp

/-- A task is attached, a join waits for it, and it runs. -/
theorem joinsAll_of_run_one : ∃ s, Run (sequence.restrict InTurn)
    [.assign 0, .push 0, .joinBegin 1, .pop, .launch, .call 0, .finish 0, .joinReturn 1] s ∧
    s.returned = [⟨1, 1⟩] ∧ s.JoinsAll := by
  have h₃ := (((Run.nil (S := sequence.restrict InTurn) rfl).snoc
    ⟨Step.assign (c := 0) rfl, trivial⟩).snoc
    ⟨Step.push (c := 0) rfl rfl, fun _ _ ↦ List.not_mem_nil⟩).snoc
    ⟨Step.joinBegin (c := 1) rfl rfl, trivial⟩
  have h := ((((h₃.snoc ⟨Step.pop rfl rfl, trivial⟩).snoc ⟨Step.launch rfl, trivial⟩).snoc
    ⟨Step.call (t := 0) rfl, trivial⟩).snoc ⟨Step.finish (t := 0) rfl, trivial⟩).snoc
    ⟨Step.joinReturn (c := 1) rfl (.inl rfl), trivial⟩
  exact ⟨_, h, rfl, joinsAll_of_run h⟩

end Cppkg.Jobs
