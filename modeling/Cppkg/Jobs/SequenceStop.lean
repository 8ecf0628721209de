import Cppkg.Jobs.SequenceOrder

/-!
# Stopping and destroying a sequence

After a `stop` the stop signal is set and the queue is empty. As long as nothing is pushed, both
stay so. The only call of a job that is still to come is then that of the task at the master, if
its thread is not launched or has not made the call it is about to make. `State.callsLeft` is
this potential: a call consumes it, and no step adds to it.

The destructor waits for the master after `master_.stop()`, which sets the exit signal and
notifies nobody. A master that sleeps at that moment is not woken, since the notification of
`stop()` came before. A master that does not sleep then never sleeps again.
-/

namespace Cppkg.Jobs

open Function Transition

variable {s s' s'' : State} {a : Action} {tr tr' : List Action} {t : Task}

/-! ### What is left to run after a stop -/

/-- The step is a call of `stop()`, by a client or by the destructor. -/
def Action.IsStop (a : Action) : Prop := a = .dtorStop ∨ ∃ c, a = .stop c

/-- The step calls `job(i)`. -/
def Action.isCall : Action → Bool
  | .call _ => true
  | _ => false

/-- Whether the thread is about to call its job. -/
def ThreadPc.callsLeft : ThreadPc → ℕ
  | .calling _ => 1
  | _ => 0

/-- The calls of jobs still to come when the sequence is stopped and nothing is pushed. -/
def State.callsLeft (s : State) : ℕ :=
  match s.master with
  | .holding _ => 1
  | .joining t => (s.thread t).elim 0 ThreadPc.callsLeft
  | _ => 0

theorem State.callsLeft_le_one (s : State) : s.callsLeft ≤ 1 := by
  cases hm : s.master with
  | joining t =>
    rcases ht : s.thread t with _ | _ | _ <;> simp [callsLeft, hm, ht, ThreadPc.callsLeft]
  | _ => simp [callsLeft, hm]

/-- What the thread of the task at the master says about the calls that are left. -/
theorem State.callsLeft_of_joined {f : Task → Option ThreadPc} (h : s.master.joined = some t) :
    ({ s with thread := f } : State).callsLeft = (f t).elim 0 ThreadPc.callsLeft := by
  cases hm : s.master <;> simp_all [MasterPc.joined, callsLeft]

theorem State.callsLeft_of_notified (hm : s'.master = s.master.notified)
    (ht : s'.thread = s.thread) : s'.callsLeft = s.callsLeft := by
  unfold callsLeft
  rw [hm, ht]
  cases s.master <;> rfl

/-- Stopped, with nothing queued. -/
structure Drained (s : State) : Prop where
  numbered : Numbered s
  layout : ∃ past gap, Layout s past gap
  stopSignal : s.stopSignal = true
  tasks : s.tasks = []

theorem Drained.of_stop (hn : Numbered s) (hl : ∃ past gap, Layout s past gap)
    (ha : a.IsStop) (hs : Step s a s') : Drained s' := by
  obtain ⟨past, gap, hl⟩ := hl
  refine ⟨hn.step hs, hl.step hn hs, ?_, ?_⟩ <;>
  · rcases ha with rfl | ⟨c, rfl⟩ <;> cases hs <;> rfl

/-- A thread in progress is that of the task at the master. -/
theorem Drained.callsLeft_update {pc : ThreadPc} (h : Drained s) (pc' : ThreadPc)
    (ht : s.thread t = some pc) (hpc : pc ≠ .done) :
    s.callsLeft = pc.callsLeft ∧
    ({ s with thread := update s.thread t (some pc') } : State).callsLeft = pc'.callsLeft := by
  obtain ⟨past, gap, hl⟩ := h.layout
  have hj := hl.joined_of_inProgress ⟨pc, ht, hpc⟩
  refine ⟨?_, ?_⟩
  · simpa [ht] using State.callsLeft_of_joined (f := s.thread) hj
  · simpa using State.callsLeft_of_joined (f := update s.thread t (some pc')) hj

/-- **A step of a drained sequence.** It stays drained, and a call is one of the calls left. -/
theorem Drained.step (h : Drained s) (ha : ∀ c, a ≠ .push c) (hs : Step s a s') :
    Drained s' ∧ (if a.isCall then 1 else 0) + s'.callsLeft ≤ s.callsLeft := by
  obtain ⟨past, gap, hl⟩ := h.layout
  have hn := h.numbered.step hs
  have hl' := hl.step h.numbered hs
  have hsignal := h.stopSignal
  have htasks := h.tasks
  cases hs with
  | @push c => exact absurd rfl (ha c)
  | stop | dtorStop =>
    refine ⟨⟨hn, hl', rfl, rfl⟩, Nat.le_of_eq ((Nat.zero_add _).trans ?_)⟩
    exact State.callsLeft_of_notified rfl rfl
  | notify =>
    refine ⟨⟨hn, hl', hsignal, htasks⟩, Nat.le_of_eq ((Nat.zero_add _).trans ?_)⟩
    exact State.callsLeft_of_notified rfl rfl
  | pop _ ht => simp [htasks] at ht
  | timeout _ hs => simp [hsignal] at hs
  | launch hm | wake hm | sleep hm | leave hm | again hm | exit hm | reap hm =>
    refine ⟨⟨hn, hl', hsignal, htasks⟩, ?_⟩
    simp [Action.isCall, State.callsLeft, ThreadPc.callsLeft, hm]
  | @call t i ht =>
    obtain ⟨hs, hs'⟩ := h.callsLeft_update (.body i) ht (by simp)
    exact ⟨⟨hn, hl', hsignal, htasks⟩, Nat.le_of_eq (by rw [hs]; exact congrArg (1 + ·) hs')⟩
  | @finish t i ht | @signal t i ht =>
    obtain ⟨-, hs'⟩ := h.callsLeft_update .done ht (by simp)
    exact ⟨⟨hn, hl', hsignal, htasks⟩, by rw [hs']; exact Nat.zero_le _⟩
  | @unfinished t i ht =>
    obtain ⟨-, hs'⟩ := h.callsLeft_update (.polling i) ht (by simp)
    exact ⟨⟨hn, hl', hsignal, htasks⟩, by rw [hs']; exact Nat.zero_le _⟩
  | _ => exact ⟨⟨hn, hl', hsignal, htasks⟩, by simp [Action.isCall, State.callsLeft]⟩

/-- In a drained sequence the master gets no new task. -/
theorem Drained.current_of_step {u : Task} (h : Drained s) (hs : Step s a s')
    (hu : s'.master.current = some u) : s.master.current = some u := by
  cases hs with
  | pop _ ht => simp [h.tasks] at ht
  | stop | dtorStop => simpa [State.stop] using hu
  | notify => simpa using hu
  | launch hm => simpa [hm, MasterPc.current] using hu
  | wake | sleep | leave | again | exit | reap => simp [MasterPc.current] at hu
  | _ => exact hu

theorem Drained.current_of_call (h : Drained s) (hs : Step s (.call t) s') :
    s.master.current = some t := by
  obtain ⟨past, gap, hl⟩ := h.layout
  cases hs with
  | call ht => exact MasterPc.current_of_joined (hl.joined_of_inProgress ⟨_, ht, by simp⟩)

/-- The job of a task that was cleared is not called. -/
theorem call_ne_of_mem_cleared (hl : ∃ past gap, Layout s past gap) (ht : t ∈ s.cleared)
    (hs : Step s a s') : a ≠ .call t := by
  obtain ⟨past, gap, hl⟩ := hl
  rintro rfl
  cases hs with
  | call hc => simp [hl.cleared_thread t ht] at hc

theorem mem_cleared_of_step (ht : t ∈ s.cleared) (hs : Step s a s') : t ∈ s'.cleared := by
  cases hs with
  | stop | dtorStop => exact List.mem_append_left _ ht
  | _ => exact ht

theorem mem_cleared_of_stop (ht : t ∈ s.tasks) (ha : a.IsStop) (hs : Step s a s') :
    t ∈ s'.cleared := by
  rcases ha with rfl | ⟨c, rfl⟩ <;> cases hs <;> exact List.mem_append_right _ ht

/-- **A stop bounds further work.** After a `stop()`, as long as nothing is pushed, there is at
most one further call of a job, a call for the task the master had popped at the stop. The job of
a task that was in the queue at the stop never begins. -/
theorem stop_bounds_calls (h : Run sequence tr s) (ha : a.IsStop) (hs : Step s a s')
    (hp : Path sequence s' tr' s'') (hpush : ∀ c, Action.push c ∉ tr') :
    tr'.countP Action.isCall ≤ 1 ∧
    (∀ t, Action.call t ∈ tr' → s.master.current = some t) ∧
    ∀ t ∈ s.tasks, Action.call t ∉ tr' ∧ t ∉ s''.started := by
  have hn := numbered_of_run h
  have hl := layout_of_run h
  have hd := Drained.of_stop hn hl ha hs
  have hC : ∀ b ∈ tr', ∀ c, b ≠ Action.push c := fun b hb c hbc ↦ hpush c (hbc ▸ hb)
  refine ⟨?_, ?_, ?_⟩
  · exact Nat.le_trans (hp.countP_le hd (fun _ _ _ hI hb hst ↦ hI.step hb hst) hC)
      s'.callsLeft_le_one
  · -- every call is for the task at the master, which no step after the stop brings there
    have hcurrent : s'.master.current = s.master.current := by
      rcases ha with rfl | ⟨c, rfl⟩ <;> cases hs <;> simp [State.stop]
    have hcalls := hp.invariant (P := fun b ↦ ∀ u, b = .call u → s.master.current = some u)
      (I := fun r ↦ Drained r ∧ ∀ u, r.master.current = some u → s.master.current = some u)
      ⟨hd, fun u hu ↦ hcurrent ▸ hu⟩ (fun r b r' hI hb hst ↦ ⟨?_, ?_, ?_⟩) hC
    · exact fun u hu ↦ hcalls.1 _ hu u rfl
    · rintro u rfl
      exact hI.2 u (hI.1.current_of_call hst)
    · exact (hI.1.step hb hst).1
    · exact fun u hu ↦ hI.2 u (hI.1.current_of_step hst hu)
  · intro t ht
    have hcleared := hp.invariant (P := fun b ↦ b ≠ .call t)
      (I := fun r ↦ Drained r ∧ t ∈ r.cleared) ⟨hd, mem_cleared_of_stop ht ha hs⟩
      (fun r b r' hI hb hst ↦ ⟨?_, ?_, ?_⟩) hC
    · obtain ⟨hcalls, hdr, hmem⟩ := hcleared
      obtain ⟨past, gap, hl⟩ := hdr.layout
      exact ⟨fun hcall ↦ hcalls _ hcall rfl, (hl.serial hdr.numbered).cleared_notMem t hmem⟩
    · exact call_ne_of_mem_cleared hI.1.layout hI.2 hst
    · exact (hI.1.step hb hst).1
    · exact mem_cleared_of_step hI.2 hst

/-- Client 2 stops the sequence when task 0 is popped and task 1 is in the queue. -/
theorem stop_bounds_calls_two : ∃ s s' s'', Run sequence
    [.assign 0, .push 0, .assign 1, .push 1, .pop] s ∧ Step s (.stop 2) s' ∧
    Path sequence s' [.launch, .call 0, .unfinished 0, .signal 0] s'' ∧
    ([.launch, .call 0, .unfinished 0, .signal 0] : List Action).countP Action.isCall ≤ 1 ∧
    s.tasks = [1] ∧ 1 ∉ s''.started := by
  have h := ((((Run.nil (S := sequence) rfl).snoc (Step.assign (c := 0) rfl)).snoc
    (Step.push (c := 0) rfl rfl)).snoc (Step.assign (c := 1) rfl) |>.snoc
    (Step.push (c := 1) rfl rfl)).snoc (Step.pop rfl rfl)
  have hb := @stop_bounds_calls _ _ _ _ _ [.launch, .call 0, .unfinished 0, .signal 0] h
    (.inr ⟨2, rfl⟩) (Step.stop (c := 2) rfl)
    ((((Path.nil.snoc (Step.launch rfl)).snoc (Step.call (t := 0) rfl)).snoc
      (Step.unfinished (t := 0) rfl)).snoc (Step.signal (t := 0) rfl rfl)) (by simp)
  refine ⟨_, _, _, h, Step.stop (c := 2) rfl, ?_, hb.1, rfl, (hb.2.2 1 (by decide)).2⟩
  exact (((Path.nil.snoc (Step.launch rfl)).snoc (Step.call (t := 0) rfl)).snoc
    (Step.unfinished (t := 0) rfl)).snoc (Step.signal (t := 0) rfl rfl)

/-! ### The destructor -/

/-- The destructor is blocked in `master_.join()` while the master is blocked in
`condition_.wait`, and nobody is about to notify it. -/
def State.Deadlocked (s : State) : Prop :=
  s.dtor = .signalled ∧ s.master = .waiting ∧ ∀ c, s.client c ≠ .notifying

/-- `master_.stop()` is not called while the master sleeps, unless a notification is on its
way. -/
def Timely (s : State) (a : Action) : Prop :=
  a = .masterStop → s.master = .waiting → ∃ c, s.client c = .notifying

/-- Once the exit signal is set, a master that sleeps will be notified. -/
structure Roused (s : State) : Prop where
  exitSignal : s.dtor = .signalled → s.exitSignal = true
  notifying : s.exitSignal = true → s.master = .waiting → ∃ c, s.client c = .notifying

theorem notifying_update {pc : ClientPc} {d : ℕ} (hd : s.client d ≠ .notifying)
    (h : ∃ c, s.client c = .notifying) : ∃ c, update s.client d pc c = .notifying := by
  obtain ⟨c, hc⟩ := h
  have hcd : c ≠ d := fun hcd ↦ hd (hcd ▸ hc)
  exact ⟨c, by rwa [update_of_ne hcd]⟩

theorem MasterPc.notified_ne_waiting (pc : MasterPc) : pc.notified ≠ .waiting := by
  cases pc <;> simp [notified]

/-- **A timely step keeps the master roused.** -/
theorem Roused.step (h : Roused s) (ha : Timely s a) (hs : Step s a s') : Roused s' := by
  cases hs with
  | assign hc | reject hc | joinBegin hc | joinReturn hc =>
    exact ⟨h.exitSignal, fun he hm ↦ notifying_update (by simp [hc]) (h.notifying he hm)⟩
  | @push c => exact ⟨h.exitSignal, fun _ _ ↦ ⟨c, update_self ..⟩⟩
  | stop => exact ⟨h.exitSignal, fun _ hm ↦ absurd hm (MasterPc.notified_ne_waiting _)⟩
  | notify => exact ⟨h.exitSignal, fun _ hm ↦ absurd hm (MasterPc.notified_ne_waiting _)⟩
  | dtorStop => exact ⟨by simp, fun _ hm ↦ absurd hm (MasterPc.notified_ne_waiting _)⟩
  | sleep _ he => exact ⟨h.exitSignal, fun he' ↦ by simp [he] at he'⟩
  | markStopped => exact ⟨by simp, h.notifying⟩
  | masterStop => exact ⟨fun _ ↦ rfl, fun _ hm ↦ ha rfl hm⟩
  | masterJoin => exact ⟨by simp, h.notifying⟩
  | joinNone | call | finish | unfinished | timeout | signal => exact ⟨h.exitSignal, h.notifying⟩
  | _ => exact ⟨h.exitSignal, by simp⟩

/-- **The destructor does not deadlock** in a run in which every `master_.stop()` is timely. -/
theorem not_deadlocked_of_run (h : Run (sequence.restrict Timely) tr s) : ¬ s.Deadlocked := by
  rintro ⟨hd, hm, hnone⟩
  have hr : Roused s := by
    refine h.invariant ?_ ?_
    · rintro _ rfl
      exact ⟨by simp [State.initial], by simp [State.initial]⟩
    · exact fun _ _ _ hr hs ↦ hr.step hs.2 hs.1
  obtain ⟨c, hc⟩ := hr.notifying (hr.exitSignal hd) hm
  exact hnone c hc

/-- The master does not go to sleep between `stop()` and `master_.stop()`. -/
def Awake (s : State) (a : Action) : Prop := a = .sleep → s.dtor ≠ .stopped

theorem Awake.step (h : s.dtor = .stopped → s.master ≠ .waiting) (ha : Awake s a)
    (hs : Step s a s') : s'.dtor = .stopped → s'.master ≠ .waiting := by
  cases hs with
  | stop | notify | dtorStop => exact fun _ ↦ MasterPc.notified_ne_waiting _
  | sleep => exact fun hd ↦ absurd hd (ha rfl)
  | markStopped | masterStop | masterJoin => simp
  | wake | leave | pop | launch | reap | again | exit => simp
  | _ => exact h

/-- An untimely `master_.stop()` comes after a sleep that began after `stop()`: after the
notification of `stop()` the master does not sleep unless it evaluates its predicate again. -/
theorem timely_of_awake (h : Run (sequence.restrict Awake) tr s) :
    Run (sequence.restrict Timely) tr s ∧ (s.dtor = .stopped → s.master ≠ .waiting) := by
  induction h with
  | nil hi =>
    obtain rfl := hi
    exact ⟨.nil rfl, by simp [State.initial]⟩
  | snoc _ hs ih =>
    refine ⟨ih.1.snoc ⟨hs.1, ?_⟩, Awake.step ih.2 hs.2 hs.1⟩
    rintro rfl hm
    cases hs.1 with
    | masterStop hd => exact absurd hm (ih.2 hd)

/-- The master leaves its wait after the exit signal. -/
theorem not_deadlocked_of_run_exit : ∃ s, Run (sequence.restrict Timely)
    [.sleep, .markStopped, .dtorStop, .masterStop, .leave, .exit] s ∧ s.master = .exited ∧
    ¬ s.Deadlocked := by
  have h := ((((Run.nil (S := sequence.restrict Timely) rfl).snoc
    ⟨Step.sleep rfl rfl rfl, by simp [Timely]⟩).snoc
    ⟨Step.markStopped rfl, by simp [Timely]⟩).snoc ⟨Step.dtorStop rfl, by simp [Timely]⟩).snoc
    ⟨Step.masterStop rfl, by simp [Timely, State.stop, MasterPc.notified]⟩ |>.snoc
    ⟨Step.leave rfl rfl rfl, by simp [Timely]⟩ |>.snoc ⟨Step.exit rfl rfl, by simp [Timely]⟩
  exact ⟨_, h, rfl, not_deadlocked_of_run h⟩

/-- The master evaluates its predicate between `stop()` and `master_.stop()`. -/
theorem deadlocked_lost_wakeup : ¬ ∀ tr s, Run sequence tr s → ¬ s.Deadlocked := by
  intro h
  have hr := (((Run.nil (S := sequence) rfl).snoc (Step.markStopped rfl)).snoc
    (Step.dtorStop rfl)).snoc (Step.sleep rfl rfl rfl) |>.snoc (Step.masterStop rfl)
  exact h _ _ hr ⟨rfl, rfl, fun c ↦ by simp [State.stop, State.initial]⟩

end Cppkg.Jobs
