import Cppkg.Jobs.SequenceJoin

/-!
# What is_running says about a sequence

`is_running` of `sequence.h` asks whether `last_future_` is valid. A future becomes valid when
`attach_job` assigns it, and nothing makes it invalid again: `wait` leaves it valid, and so do the
end of its task and the destruction of the task by `stop`. The answer is therefore whether a job
was ever attached.

What it should say is whether a job is there to run: queued, popped, or in its thread
(`State.Pending`). By the layout of the pushed tasks these are the pushed tasks that have neither
run to their ends nor been cleared (`pending_iff`).
-/

namespace Cppkg.Jobs

open Function Transition

variable {s s' : State} {a : Action} {past gap : List Task} {t : Task} {tr : List Action}

/-- `is_running`. -/
def State.isRunning (s : State) : Bool := s.lastFuture.isSome

/-- The task is queued, popped or executing. -/
def State.Pending (s : State) (t : Task) : Prop :=
  t ∈ s.tasks ∨ s.master = .holding t ∨ s.InProgress t

/-- A client is in `attach_job`. -/
def ClientPc.inAttach : ClientPc → Bool
  | .attaching _ | .notifying => true
  | _ => false

/-! ### The future -/

/-- The future is valid from the first attach on. -/
theorem isRunning_iff (h : Run sequence tr s) :
    s.isRunning = true ↔ ∃ c, Action.assign c ∈ tr := by
  induction h with
  | nil hi =>
    obtain rfl := hi
    simp [State.isRunning, State.initial]
  | @snoc tr s s' a _ hs ih =>
    by_cases ha : ∃ c, a = .assign c
    · obtain ⟨c, rfl⟩ := ha
      cases hs
      simp [State.isRunning]
    · have hne : ∀ c, a ≠ .assign c := fun c hc ↦ ha ⟨c, hc⟩
      rw [State.isRunning, (lastFuture_of_step hs hne).1, ← State.isRunning, ih]
      simp only [List.mem_append, List.mem_singleton]
      exact exists_congr fun c ↦ ⟨.inl, fun hc ↦ hc.resolve_right fun hca ↦ hne c hca.symm⟩

/-! ### The tasks that are left -/

/-- The thread of the task the master joins has been launched. -/
theorem launched_step (h : ∀ t, s.master = .joining t → s.thread t ≠ none) (hs : Step s a s')
    (hm : s'.master = .joining t) : s'.thread t ≠ none := by
  have hupdate : ∀ {u : Task} {pc : ThreadPc} {f : Task → Option ThreadPc}, f t ≠ none →
      update f u (some pc) t ≠ none := by
    intro u pc f hf
    by_cases hut : t = u
    · simp [hut]
    · rwa [update_of_ne hut]
  have hnotified : ∀ {pc : MasterPc}, pc.notified = .joining t → pc = .joining t := by
    intro pc hpc
    cases pc <;> simp_all [MasterPc.notified]
  cases hs with
  | launch =>
    obtain rfl := MasterPc.joining.inj hm
    simp
  | call | finish | unfinished | timeout | signal => exact hupdate (h t hm)
  | notify | stop | dtorStop => exact h t (hnotified hm)
  | wake | sleep | leave | pop | reap | again | exit => cases hm
  | _ => exact h t hm

theorem launched_of_run (h : Run sequence tr s) :
    ∀ t, s.master = .joining t → s.thread t ≠ none := by
  induction h with
  | nil hi =>
    obtain rfl := hi
    intro t hm
    cases hm
  | snoc _ hs ih => exact fun t hm ↦ launched_step ih hs hm

namespace Layout

theorem mem_pushed_of_mem_tasks (h : Layout s past gap) (ht : t ∈ s.tasks) : t ∈ s.pushed := by
  rw [h.pushed_eq]
  simp [ht]

theorem mem_pushed_of_current (h : Layout s past gap) (ht : s.master.current = some t) :
    t ∈ s.pushed := by
  rw [h.pushed_eq, ht]
  simp

/-- A task is left when it was pushed and has neither run to its end nor been cleared. -/
theorem pending_iff (h : Layout s past gap) (hn : Numbered s)
    (hl : ∀ t, s.master = .joining t → s.thread t ≠ none) :
    s.Pending t ↔ t ∈ s.pushed ∧ ¬ s.Finished t ∧ t ∉ s.cleared := by
  constructor
  · rintro (ht | hm | ht)
    · obtain ⟨hp, hg, -⟩ := h.notMem_of_mem_tasks hn ht
      have hthread := h.thread_eq_none_of_mem_tasks hn ht
      exact ⟨h.mem_pushed_of_mem_tasks ht, by simp [State.Finished, hthread],
        fun hc ↦ (h.cleared_mem t hc).elim hp hg⟩
    · have hcurrent : s.master.current = some t := by rw [hm]; rfl
      have hthread := h.thread_eq_none_of_holding hn hm
      exact ⟨h.mem_pushed_of_current hcurrent, by simp [State.Finished, hthread],
        h.current_notMem_cleared hn hcurrent⟩
    · have hcurrent := MasterPc.current_of_joined (h.joined_of_inProgress ht)
      obtain ⟨pc, hpc, hdone⟩ := ht
      refine ⟨h.mem_pushed_of_current hcurrent, ?_, h.current_notMem_cleared hn hcurrent⟩
      rw [State.Finished, hpc]
      exact fun heq ↦ hdone (Option.some.inj heq)
  · rintro ⟨hpushed, hfinished, hcleared⟩
    rw [h.pushed_eq] at hpushed
    rcases List.mem_append.1 hpushed with hp | hrest
    · exact (h.past_settled t hp).elim (absurd · hfinished) (absurd · hcleared)
    · rcases List.mem_append.1 hrest with hc | hrest
      · -- the task at the master: popped, or its thread launched
        have hcurrent : s.master.current = some t := Option.mem_toList.1 hc
        cases hm : s.master with
        | holding u =>
          rw [hm] at hcurrent
          obtain rfl := Option.some.inj hcurrent
          exact .inr (.inl hm)
        | joining u =>
          rw [hm] at hcurrent
          obtain rfl := Option.some.inj hcurrent
          obtain ⟨pc, hpc⟩ := Option.ne_none_iff_exists'.1 (hl u hm)
          refine .inr (.inr ⟨pc, hpc, ?_⟩)
          rintro rfl
          exact hfinished hpc
        | testing | waiting | looping | exited =>
          rw [hm] at hcurrent
          cases hcurrent
      · rcases List.mem_append.1 hrest with hg | ht
        · exact absurd (h.gap_cleared t hg) hcleared
        · exact .inl ht

end Layout

/-- The pushed tasks have assigned their futures. -/
theorem assigned_of_mem_pushed (h : Run sequence tr s) (ht : t ∈ s.pushed) :
    ∃ c, Action.assign c ∈ tr := by
  rw [← isRunning_iff h, State.isRunning, Option.isSome_iff_ne_none]
  intro hnone
  have hlt := (numbered_of_run h).pushed_lt t ht
  rw [(moments_of_run h).next_eq_zero hnone] at hlt
  exact absurd hlt (Nat.not_lt_zero t)

/-- **When is_running tells the truth.** In every state of every run, it says whether some job is
queued, popped or executing if and only if no job was attached so far, or some job pushed so far
has neither run to its end nor been cleared by `stop`. -/
theorem isRunning_truthful_iff (h : Run sequence tr s) :
    (s.isRunning = true ↔ ∃ t, s.Pending t) ↔
      (∀ c, Action.assign c ∉ tr) ∨ ∃ t ∈ s.pushed, ¬ s.Finished t ∧ t ∉ s.cleared := by
  obtain ⟨past, gap, hl⟩ := layout_of_run h
  have hpending : ∀ t, s.Pending t ↔ t ∈ s.pushed ∧ ¬ s.Finished t ∧ t ∉ s.cleared := fun t ↦
    hl.pending_iff (numbered_of_run h) (launched_of_run h)
  simp only [isRunning_iff h, hpending]
  constructor
  · intro hiff
    by_cases hassign : ∃ c, Action.assign c ∈ tr
    · exact .inr (hiff.1 hassign)
    · exact .inl fun c hc ↦ hassign ⟨c, hc⟩
  · rintro (hnone | hleft)
    · constructor
      · rintro ⟨c, hc⟩
        exact absurd hc (hnone c)
      · rintro ⟨t, ht, -⟩
        exact assigned_of_mem_pushed h ht
    · obtain ⟨t, ht, hrest⟩ := hleft
      exact ⟨fun _ ↦ ⟨t, ht, hrest⟩, fun _ ↦ assigned_of_mem_pushed h ht⟩

/-- While the only job runs, the answer is right. -/
theorem isRunning_truthful_iff_body : ∃ s, Run sequence
    [.assign 0, .push 0, .notify 0, .pop, .launch, .call 0] s ∧
    ((s.isRunning = true ↔ ∃ t, s.Pending t) ↔
      (∀ c, Action.assign c ∉ [Action.assign 0, .push 0, .notify 0, .pop, .launch, .call 0]) ∨
        ∃ t ∈ s.pushed, ¬ s.Finished t ∧ t ∉ s.cleared) := by
  have h := ((((((Run.nil (S := sequence) rfl).snoc (Step.assign (c := 0) rfl)).snoc
    (Step.push (c := 0) rfl rfl)).snoc (Step.notify (c := 0) rfl)).snoc
    (Step.pop rfl rfl)).snoc (Step.launch rfl)).snoc (Step.call (t := 0) rfl)
  exact ⟨_, h, isRunning_truthful_iff h⟩

/-- **Running after the end.** The only job has returned and was reaped, no call is in progress,
and `is_running` still returns true. -/
theorem not_isRunning_truthful :
    ¬ ∀ tr s, Run sequence tr s → (∀ c, (s.client c).inAttach = false) →
      (s.isRunning = true ↔ ∃ t, s.Pending t) := by
  intro hall
  have h₆ := ((((((Run.nil (S := sequence) rfl).snoc (Step.assign (c := 0) rfl)).snoc
    (Step.push (c := 0) rfl rfl)).snoc (Step.notify (c := 0) rfl)).snoc
    (Step.pop rfl rfl)).snoc (Step.launch rfl)).snoc (Step.call (t := 0) rfl)
  have h := (h₆.snoc (Step.finish (t := 0) rfl)).snoc (Step.reap rfl rfl)
  obtain ⟨t, ht⟩ := (hall _ _ h fun c ↦ by
    by_cases hc : c = 0
    · subst hc
      rfl
    · simp [update_of_ne hc, State.initial, ClientPc.inAttach]).1 rfl
  obtain ⟨past, gap, hl⟩ := layout_of_run h
  obtain ⟨hpushed, hfinished, -⟩ :=
    (hl.pending_iff (numbered_of_run h) (launched_of_run h)).1 ht
  obtain rfl : t = 0 := List.mem_singleton.1 hpushed
  exact hfinished rfl

end Cppkg.Jobs
