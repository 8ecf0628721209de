import Mathlib.Algebra.Order.BigOperators.Group.Finset
import Cppkg.Jobs.SequenceRunning
import Cppkg.Jobs.SequenceStop

/-!
# A sequence comes to rest

What a sequence still has to do is bounded, as long as its jobs return true sooner or later and no
further call is made of it: every push, notification, pop, launch, call of a job and join spends
some of `State.left`, and only a wait that ends without a notification costs more than it spends.

And nothing is forgotten on the way. No wakeup of the master is lost while the sequence is alive:
it does not sleep on a queue that is not empty unless a client is about to notify it
(`Progress.roused`). So a state in which no party can take a step is one in which every call has
returned, every task pushed was run to its end or cleared, and the destructor has not begun or
has returned, but for the deadlock of the destructor with a sleeping master.
-/

namespace Cppkg.Jobs

open Function Transition

variable {r : Task → ℕ} {s s' : State} {a : Action} {tr tr' : List Action} {t : Task}
  {F : Finset ℕ}

/-- Job `t` returns true at its call `r t - 1`, if not before. -/
def Returns (r : Task → ℕ) (s : State) (a : Action) : Prop :=
  ∀ t i, a = .unfinished t → s.thread t = some (.body i) → i + 1 < r t

/-- The step begins a call of `attach_job`, `join`, `stop` or the destructor. -/
def Action.begins : Action → Bool
  | .assign _ | .stop _ | .joinNone _ | .joinBegin _ | .markStopped => true
  | _ => false

/-! ### What is left to do -/

/-- The steps left to a thread whose job is called at most `n` times. -/
def ThreadPc.left (n : ℕ) : ThreadPc → ℕ
  | .calling i => 3 * (n - i)
  | .body i => 3 * (n - i) - 1
  | .polling i => 3 * (n - i) - 2
  | .done => 0

/-- The steps a task in the queue will take. -/
def taskLeft (r : Task → ℕ) (t : Task) : ℕ := 3 * r t + 4

/-- The steps left to the master, with the task it has popped. -/
def State.masterLeft (r : Task → ℕ) (s : State) : ℕ :=
  match s.master with
  | .testing => if s.exitSignal then 3 else 1
  | .waiting => 0
  | .holding t => taskLeft r t
  | .joining t => 3 + (s.thread t).elim 0 (ThreadPc.left (r t))
  | .looping => 2
  | .exited => 0

/-- The steps left to a client in a call, and those of the task it attaches. -/
def ClientPc.left (r : Task → ℕ) : ClientPc → ℕ
  | .idle => 0
  | .attaching t => taskLeft r t + 5
  | .notifying => 4
  | .joining _ _ => 1

/-- The steps left to the destructor. -/
def DtorPc.left : DtorPc → ℕ
  | .alive => 0
  | .marked => 9
  | .stopped => 5
  | .signalled => 1
  | .destroyed => 0

/-- The steps left when no call begins. `F` contains the clients that are in a call. -/
def State.left (r : Task → ℕ) (F : Finset ℕ) (s : State) : ℕ :=
  (s.tasks.map (taskLeft r)).sum + s.masterLeft r + ∑ c ∈ F, (s.client c).left r + s.dtor.left

/-- A job is not called more often than `r` says. -/
structure Bounded (r : Task → ℕ) (s : State) : Prop where
  calling : ∀ {t i}, s.thread t = some (.calling i) → i < r t
  body : ∀ {t i}, s.thread t = some (.body i) → i < r t
  polling : ∀ {t i}, s.thread t = some (.polling i) → i + 1 < r t

/-- The clients in `F` are the only ones in a call. -/
def Covers (F : Finset ℕ) (s : State) : Prop := ∀ c, s.client c ≠ .idle → c ∈ F

theorem Bounded.initial : Bounded r State.initial := by
  constructor <;> simp [State.initial]

/-- The thread of one task moves on. -/
theorem Bounded.of_thread (pc : ThreadPc) (h : Bounded r s)
    (hs' : s'.thread = update s.thread t (some pc)) (hcalling : ∀ i, pc = .calling i → i < r t)
    (hbody : ∀ i, pc = .body i → i < r t) (hpolling : ∀ i, pc = .polling i → i + 1 < r t) :
    Bounded r s' := by
  have hthread : ∀ {u pc'}, s'.thread u = some pc' →
      u = t ∧ pc = pc' ∨ s.thread u = some pc' := by
    intro u pc' hu
    rw [hs'] at hu
    by_cases hut : u = t
    · subst hut
      rw [update_self] at hu
      exact .inl ⟨rfl, Option.some.inj hu⟩
    · exact .inr (by rwa [update_of_ne hut] at hu)
  refine ⟨fun hu ↦ ?_, fun hu ↦ ?_, fun hu ↦ ?_⟩
  · exact (hthread hu).elim (fun ⟨hut, hpc⟩ ↦ hut ▸ hcalling _ hpc) h.calling
  · exact (hthread hu).elim (fun ⟨hut, hpc⟩ ↦ hut ▸ hbody _ hpc) h.body
  · exact (hthread hu).elim (fun ⟨hut, hpc⟩ ↦ hut ▸ hpolling _ hpc) h.polling

theorem Bounded.step (hr : ∀ t, 0 < r t) (h : Bounded r s) (ha : Returns r s a)
    (hs : Step s a s') : Bounded r s' := by
  cases hs with
  | @launch t =>
    refine h.of_thread (t := t) (.calling 0) rfl ?_ nofun nofun
    rintro i ⟨⟩
    exact hr t
  | @call t i ht =>
    refine h.of_thread (t := t) (.body i) rfl nofun ?_ nofun
    rintro j ⟨⟩
    exact h.calling ht
  | @unfinished t i ht =>
    refine h.of_thread (t := t) (.polling i) rfl nofun nofun ?_
    rintro j ⟨⟩
    exact ha t i rfl ht
  | @timeout t i ht =>
    refine h.of_thread (t := t) (.calling (i + 1)) rfl ?_ nofun nofun
    rintro j ⟨⟩
    exact h.polling ht
  | @finish t | @signal t => exact h.of_thread (t := t) .done rfl nofun nofun nofun
  | _ => exact ⟨h.calling, h.body, h.polling⟩

/-- Covering is preserved as long as no call begins. -/
theorem Covers.step (h : Covers F s) (ha : a.begins = false) (hs : Step s a s') :
    Covers F s' := by
  have hupdate : ∀ {c pc}, s.client c ≠ .idle → ∀ d, update s.client c pc d ≠ .idle → d ∈ F := by
    intro c pc hc d hd
    by_cases hdc : d = c
    · exact hdc ▸ h c hc
    · rw [update_of_ne hdc] at hd
      exact h d hd
  cases hs with
  | assign | stop | joinNone | joinBegin | markStopped => cases ha
  | push hc | reject hc | notify hc | joinReturn hc => exact hupdate (by simp [hc])
  | _ => exact h

/-! ### What a step spends -/

theorem sum_client_left_update {c : ℕ} {pc : ClientPc} (hc : s.client c = pc) (hF : c ∈ F)
    (pc' : ClientPc) :
    ∑ d ∈ F, (update s.client c pc' d).left r + pc.left r =
      ∑ d ∈ F, (s.client d).left r + pc'.left r := by
  have hrest : ∑ d ∈ F.erase c, (update s.client c pc' d).left r =
      ∑ d ∈ F.erase c, (s.client d).left r :=
    Finset.sum_congr rfl fun d hd ↦ by rw [update_of_ne (Finset.ne_of_mem_erase hd)]
  rw [← Finset.add_sum_erase F _ hF, ← Finset.add_sum_erase F (fun d ↦ (s.client d).left r) hF,
    hrest, update_self, hc]
  omega

theorem State.masterLeft_of_joined {f : Task → Option ThreadPc} (h : s.master.joined = some t) :
    ({ s with thread := f } : State).masterLeft r = 3 + (f t).elim 0 (ThreadPc.left (r t)) := by
  cases hm : s.master with
  | joining u =>
    rw [hm] at h
    obtain rfl := Option.some.inj h
    simp [masterLeft]
  | _ => simp [hm, MasterPc.joined] at h

/-- A notification costs the master at most one more evaluation of its predicate. -/
theorem State.masterLeft_of_notified (s s' : State) (hm : s'.master = s.master.notified)
    (ht : s'.thread = s.thread) (he : s'.exitSignal = s.exitSignal) :
    s'.masterLeft r ≤ s.masterLeft r + 3 := by
  unfold masterLeft
  rw [hm, ht, he]
  cases s.master with
  | waiting =>
    simp only [MasterPc.notified]
    split <;> omega
  | _ => exact Nat.le_add_right ..

/-- A wait ends without a notification. -/
def Action.isWake : Action → Bool
  | .wake => true
  | _ => false

/-- What a step may add to what is left. -/
def Action.cost : Action → ℕ
  | .wake => 4
  | _ => 0

/-- The master, or the thread it joins, moves on. -/
theorem State.left_lt_of_master (htasks : s'.tasks = s.tasks) (hclient : s'.client = s.client)
    (hdtor : s'.dtor = s.dtor) (hlt : s'.masterLeft r < s.masterLeft r) :
    s'.left r F < s.left r F := by
  simp only [left, htasks, hclient, hdtor]
  omega

/-- A client moves on. -/
theorem State.left_lt_of_client (hmaster : s'.master = s.master) (hthread : s'.thread = s.thread)
    (he : s'.exitSignal = s.exitSignal) (hdtor : s'.dtor = s.dtor)
    (hlt : (s'.tasks.map (taskLeft r)).sum + ∑ c ∈ F, (s'.client c).left r <
      (s.tasks.map (taskLeft r)).sum + ∑ c ∈ F, (s.client c).left r) :
    s'.left r F < s.left r F := by
  simp only [left, masterLeft, hmaster, hthread, he, hdtor]
  omega

/-- The thread the master joins moves on. -/
theorem State.masterLeft_lt_of_thread {pc pc' : ThreadPc} (hl : ∃ past gap, Layout s past gap)
    (ht : s.thread t = some pc) (hpc : pc ≠ .done) (hlt : pc'.left (r t) < pc.left (r t)) :
    ({ s with thread := update s.thread t (some pc') } : State).masterLeft r < s.masterLeft r := by
  obtain ⟨past, gap, hl⟩ := hl
  have hj := hl.joined_of_inProgress ⟨pc, ht, hpc⟩
  have hbefore : s.masterLeft r = 3 + (s.thread t).elim 0 (ThreadPc.left (r t)) :=
    masterLeft_of_joined (f := s.thread) hj
  rw [masterLeft_of_joined hj, hbefore, ht, update_self, Option.elim_some, Option.elim_some]
  omega

/-- **A step spends some of what is left**, as long as no call begins. -/
theorem State.left_lt (hl : ∃ past gap, Layout s past gap) (hb : Bounded r s) (hF : Covers F s)
    (ha : a.begins = false) (hret : Returns r s a) (hs : Step s a s') :
    s'.left r F < s.left r F + a.cost := by
  cases hs with
  | assign | stop | joinNone | joinBegin | markStopped => cases ha
  | @push c t hc =>
    have hsum : ∑ d ∈ F, (update s.client c .notifying d).left r + (taskLeft r t + 5) =
        ∑ d ∈ F, (s.client d).left r + 4 :=
      sum_client_left_update hc (hF c (by simp [hc])) .notifying
    refine left_lt_of_client rfl rfl rfl rfl ?_
    simp only [List.map_append, List.map_singleton, List.sum_append, List.sum_singleton]
    omega
  | @reject c t hc =>
    have hsum : ∑ d ∈ F, (update s.client c .idle d).left r + (taskLeft r t + 5) =
        ∑ d ∈ F, (s.client d).left r :=
      sum_client_left_update hc (hF c (by simp [hc])) .idle
    refine left_lt_of_client rfl rfl rfl rfl ?_
    simp only
    omega
  | @notify c hc =>
    have hsum : ∑ d ∈ F, (update s.client c .idle d).left r + 4 =
        ∑ d ∈ F, (s.client d).left r :=
      sum_client_left_update hc (hF c (by simp [hc])) .idle
    have hmaster := masterLeft_of_notified (r := r) s
      { s with master := s.master.notified, client := update s.client c .idle } rfl rfl rfl
    simp only [left, Action.cost]
    omega
  | @joinReturn c t m hc =>
    have hsum : ∑ d ∈ F, (update s.client c .idle d).left r + 1 =
        ∑ d ∈ F, (s.client d).left r :=
      sum_client_left_update hc (hF c (by simp [hc])) .idle
    refine left_lt_of_client rfl rfl rfl rfl ?_
    simp only
    omega
  | wake hm =>
    simp only [left, masterLeft, hm, Action.cost]
    split <;> omega
  | sleep hm he | leave hm he | again hm he | exit hm he =>
    exact left_lt_of_master rfl rfl rfl (by simp [masterLeft, hm, he])
  | launch hm =>
    refine left_lt_of_master rfl rfl rfl ?_
    simp only [masterLeft, hm, taskLeft, update_self, Option.elim_some, ThreadPc.left]
    omega
  | reap hm ht =>
    refine left_lt_of_master rfl rfl rfl ?_
    simp only [masterLeft, hm]
    omega
  | pop hm ht =>
    simp only [left, masterLeft, hm, ht, List.map_cons, List.sum_cons, Action.cost]
    split <;> omega
  | @call t i ht =>
    have hi := hb.calling ht
    refine left_lt_of_master rfl rfl rfl (masterLeft_lt_of_thread hl ht (by simp) ?_)
    simp only [ThreadPc.left]
    omega
  | @finish t i ht | @unfinished t i ht =>
    have hi := hb.body ht
    refine left_lt_of_master rfl rfl rfl (masterLeft_lt_of_thread hl ht (by simp) ?_)
    simp only [ThreadPc.left]
    omega
  | @timeout t i ht | @signal t i ht =>
    have hi := hb.polling ht
    refine left_lt_of_master rfl rfl rfl (masterLeft_lt_of_thread hl ht (by simp) ?_)
    simp only [ThreadPc.left]
    omega
  | dtorStop hd =>
    have hmaster := masterLeft_of_notified (r := r) s { s.stop with dtor := .stopped } rfl rfl rfl
    simp only [left, State.stop, hd, DtorPc.left, Action.cost, List.map_nil, List.sum_nil]
      at hmaster ⊢
    omega
  | masterStop hd =>
    cases hm : s.master <;> simp [left, masterLeft, hd, hm, DtorPc.left, Action.cost]
    split <;> omega
  | masterJoin hd =>
    simp [left, masterLeft, hd, DtorPc.left, Action.cost]

/-! ### What is not forgotten -/

/-- The master does not sleep on a queue that is not empty, unless it is about to be notified. -/
def Attentive (s : State) : Prop :=
  s.master = .waiting → s.tasks = [] ∨ ∃ c, s.client c = .notifying

theorem Attentive.step (h : Attentive s) (hs : Step s a s') : Attentive s' := by
  cases hs with
  | assign hc | reject hc | joinBegin hc | joinReturn hc =>
    exact fun hm ↦ (h hm).imp id (notifying_update (by simp [hc]))
  | @push c => exact fun _ ↦ .inr ⟨c, update_self ..⟩
  | stop | notify | dtorStop => exact fun hm ↦ absurd hm (MasterPc.notified_ne_waiting _)
  | sleep _ _ ht => exact fun _ ↦ .inl ht
  | wake | leave | pop | launch | reap | again | exit => exact nofun
  | _ => exact h

/-- How far the destructor is, and what it has left behind. -/
structure Closing (s : State) : Prop where
  exitSignal : s.exitSignal = true ↔ s.dtor = .signalled ∨ s.dtor = .destroyed
  stopped : s.stopped = true ↔ s.dtor ≠ .alive
  tasks : s.dtor = .stopped ∨ s.exitSignal = true → s.tasks = []
  exited : s.master = .exited → s.exitSignal = true
  destroyed : s.dtor = .destroyed → s.master = .exited

theorem MasterPc.notified_eq_exited {pc : MasterPc} : pc.notified = .exited ↔ pc = .exited := by
  cases pc <;> simp [notified]

theorem Closing.initial : Closing State.initial := by
  constructor <;> simp [State.initial]

theorem Closing.step (h : Closing s) (hs : Step s a s') : Closing s' := by
  have hnotdestroyed : s.master ≠ .exited → s.dtor ≠ .destroyed := fun hm hd ↦ hm (h.destroyed hd)
  cases hs with
  | @push c t _ hstopped =>
    have hd : s.dtor = .alive := by
      by_contra hd
      rw [h.stopped.2 hd] at hstopped
      cases hstopped
    refine { h with tasks := fun hor ↦ ?_ }
    rcases hor with hd' | he
    · cases hd.symm.trans hd'
    · rcases h.exitSignal.1 he with hd' | hd' <;> cases hd.symm.trans hd'
  | stop => exact { h with
      tasks := fun _ ↦ rfl
      exited := fun hm ↦ h.exited (MasterPc.notified_eq_exited.1 hm)
      destroyed := fun hd ↦ MasterPc.notified_eq_exited.2 (h.destroyed hd) }
  | notify => exact { h with
      exited := fun hm ↦ h.exited (MasterPc.notified_eq_exited.1 hm)
      destroyed := fun hd ↦ MasterPc.notified_eq_exited.2 (h.destroyed hd) }
  | pop hm ht => exact { h with
      tasks := fun hor ↦ by
        have hnil := h.tasks hor
        simp [ht] at hnil
      exited := fun hm ↦ by cases hm
      destroyed := fun hd ↦ absurd hd (hnotdestroyed (by simp [hm])) }
  | wake hm | sleep hm | leave hm | launch hm | reap hm | again hm => exact { h with
      exited := fun hm ↦ by cases hm
      destroyed := fun hd ↦ absurd hd (hnotdestroyed (by simp [hm])) }
  | exit hm he => exact { h with
      exited := fun _ ↦ he
      destroyed := fun _ ↦ rfl }
  | markStopped hd =>
    have he : ¬ s.exitSignal = true := fun he ↦ by simpa [hd] using h.exitSignal.1 he
    exact { h with
      exitSignal := by simpa using he
      stopped := by simp
      tasks := fun hor ↦ (hor.elim (fun hd ↦ by cases hd) he).elim
      destroyed := fun hd ↦ by cases hd }
  | dtorStop hd =>
    have he : ¬ s.exitSignal = true := fun he ↦ by simpa [hd] using h.exitSignal.1 he
    have hstopped : s.stopped = true := h.stopped.2 (by simp [hd])
    exact {
      exitSignal := by simpa [State.stop] using he
      stopped := by simpa [State.stop] using hstopped
      tasks := fun _ ↦ rfl
      exited := fun hm ↦ absurd (h.exited (MasterPc.notified_eq_exited.1 hm)) he
      destroyed := fun hd ↦ by cases hd }
  | masterStop hd => exact { h with
      exitSignal := by simp
      stopped := by simpa using h.stopped.2 (by simp [hd])
      tasks := fun _ ↦ h.tasks (.inl hd)
      exited := fun _ ↦ rfl
      destroyed := fun hd ↦ by cases hd }
  | masterJoin hd hm =>
    have he : s.exitSignal = true := h.exitSignal.2 (.inl hd)
    exact { h with
      exitSignal := by simpa using he
      stopped := by simpa using h.stopped.2 (by simp [hd])
      tasks := fun _ ↦ h.tasks (.inr he)
      destroyed := fun _ ↦ hm }
  | _ => exact { h with }

/-- Every task that was numbered is being attached, or it was pushed or rejected. -/
structure Attached (s : State) : Prop where
  settled : ∀ t < s.next, (∃ c, s.client c = .attaching t) ∨ t ∈ s.pushed ∨ t ∈ s.rejected
  joining_lt : ∀ c t m, s.client c = .joining t m → t < s.next

theorem attaching_update {pc : ClientPc} {c : ℕ} (hc : ∀ t, s.client c ≠ .attaching t)
    (h : ∃ d, s.client d = .attaching t) : ∃ d, update s.client c pc d = .attaching t := by
  obtain ⟨d, hd⟩ := h
  have hdc : d ≠ c := fun hdc ↦ hc t (hdc ▸ hd)
  exact ⟨d, by rwa [update_of_ne hdc]⟩

/-- The client that attaches a task moves on, the task is settled in another way. -/
theorem Attached.of_attaching {pc : ClientPc} {c : ℕ} {u : Task} (h : Attached s)
    (hc : s.client c = .attaching t) (hclient : s'.client = update s.client c pc)
    (hpushed : ∀ v, v ∈ s.pushed → v ∈ s'.pushed)
    (hrejected : ∀ v, v ∈ s.rejected → v ∈ s'.rejected)
    (ht : t ∈ s'.pushed ∨ t ∈ s'.rejected) (hu : u < s.next) :
    (∃ d, s'.client d = .attaching u) ∨ u ∈ s'.pushed ∨ u ∈ s'.rejected := by
  rcases h.settled u hu with ⟨d, hd⟩ | hu' | hu'
  · by_cases hdc : d = c
    · subst hdc
      obtain rfl := ClientPc.attaching.inj (hc.symm.trans hd)
      exact .inr ht
    · exact .inl ⟨d, by rw [hclient, update_of_ne hdc, hd]⟩
  · exact .inr (.inl (hpushed u hu'))
  · exact .inr (.inr (hrejected u hu'))

theorem Attached.step (h : Attached s) (hm : Moments s) (hs : Step s a s') : Attached s' := by
  cases hs with
  | @assign c hc =>
    refine ⟨fun t ht ↦ ?_, fun d t m hd ↦ Nat.lt_succ_of_lt (h.joining_lt d t m
      (joining_of_update (by simp) hd))⟩
    rcases Nat.eq_or_lt_of_le (Nat.le_of_lt_succ ht) with rfl | hlt
    · exact .inl ⟨c, update_self ..⟩
    · exact (h.settled t hlt).imp (attaching_update (by simp [hc])) id
  | @push c t hc =>
    exact ⟨fun u hu ↦ h.of_attaching hc rfl (fun v ↦ List.mem_append_left _) (fun _ ↦ id)
      (.inl (by simp)) hu, fun d t m hd ↦ h.joining_lt d t m (joining_of_update (by simp) hd)⟩
  | @reject c t hc =>
    exact ⟨fun u hu ↦ h.of_attaching hc rfl (fun _ ↦ id) (fun v ↦ List.mem_append_left _)
      (.inr (by simp)) hu, fun d t m hd ↦ h.joining_lt d t m (joining_of_update (by simp) hd)⟩
  | notify hc | joinReturn hc =>
    exact ⟨fun t ht ↦ (h.settled t ht).imp (attaching_update (by simp [hc])) id,
      fun d t m hd ↦ h.joining_lt d t m (joining_of_update (by simp) hd)⟩
  | joinBegin hc hl =>
    refine ⟨fun t ht ↦ (h.settled t ht).imp (attaching_update (by simp [hc])) id,
      fun d t m hd ↦ ?_⟩
    rcases joining_of_update_joining hd with ⟨rfl, -⟩ | hd
    · exact hm.last_lt _ hl
    · exact h.joining_lt d t m hd
  | _ => exact ⟨h.settled, h.joining_lt⟩

/-! ### Rest -/

/-- No party can take a step, unless a call begins or a wait ends without a notification. -/
def State.Quiescent (s : State) : Prop := ∀ a s', Step s a s' → a.begins = true ∨ a.isWake = true

/-- Every call has returned, and there is nothing left to run. -/
structure State.AtRest (s : State) : Prop where
  tasks : s.tasks = []
  settled : ∀ t ∈ s.pushed, s.Finished t ∨ t ∈ s.cleared
  threads : ∀ t, ¬ s.InProgress t
  clients : ∀ c, s.client c = .idle
  dtor : s.dtor = .alive ∨ s.dtor = .destroyed

/-- The invariants of a run. -/
structure Progress (s : State) : Prop where
  numbered : Numbered s
  layout : ∃ past gap, Layout s past gap
  launched : ∀ t, s.master = .joining t → s.thread t ≠ none
  attentive : Attentive s
  closing : Closing s
  attached : Attached s

theorem progress_of_run (h : Run sequence tr s) : Progress s := by
  refine ⟨numbered_of_run h, layout_of_run h, launched_of_run h, ?_, ?_, ?_⟩
  · refine h.invariant ?_ fun _ _ _ hi hs ↦ hi.step hs
    rintro _ rfl
    exact nofun
  · refine h.invariant ?_ fun _ _ _ hi hs ↦ hi.step hs
    rintro _ rfl
    exact Closing.initial
  · suffices hsuff : Attached s ∧ Moments s from hsuff.1
    refine h.invariant (I := fun s ↦ Attached s ∧ Moments s) ?_
      fun _ _ _ hi hs ↦ ⟨hi.1.step hi.2 hs, hi.2.step hs⟩
    rintro _ rfl
    exact ⟨by constructor <;> simp [State.initial], Moments.initial⟩

namespace Progress

/-- When nothing can move, the master sleeps or is gone. -/
theorem master_of_quiescent (h : Progress s) (hq : s.Quiescent) :
    s.master = .waiting ∨ s.master = .exited := by
  cases hm : s.master with
  | waiting => exact .inl rfl
  | exited => exact .inr rfl
  | testing =>
    cases ht : s.tasks with
    | cons t rest => simpa [Action.begins, Action.isWake] using hq _ _ (.pop hm ht)
    | nil =>
      cases he : s.exitSignal with
      | false => simpa [Action.begins, Action.isWake] using hq _ _ (.sleep hm he ht)
      | true => simpa [Action.begins, Action.isWake] using hq _ _ (.leave hm he ht)
  | holding t => simpa [Action.begins, Action.isWake] using hq _ _ (.launch hm)
  | joining t =>
    obtain ⟨pc, ht⟩ := Option.ne_none_iff_exists'.1 (h.launched t hm)
    cases pc with
    | calling i => simpa [Action.begins, Action.isWake] using hq _ _ (.call ht)
    | body i => simpa [Action.begins, Action.isWake] using hq _ _ (.finish ht)
    | polling i =>
      cases hs : s.stopSignal with
      | false => simpa [Action.begins, Action.isWake] using hq _ _ (.timeout ht hs)
      | true => simpa [Action.begins, Action.isWake] using hq _ _ (.signal ht hs)
    | done => simpa [Action.begins, Action.isWake] using hq _ _ (.reap hm ht)
  | looping =>
    cases he : s.exitSignal with
    | false => simpa [Action.begins, Action.isWake] using hq _ _ (.again hm he)
    | true => simpa [Action.begins, Action.isWake] using hq _ _ (.exit hm he)

/-- When nothing can move, a client is idle, or it waits for a task that is not ready. -/
theorem client_of_quiescent (hq : s.Quiescent) (c : ℕ) :
    s.client c = .idle ∨ ∃ t m, s.client c = .joining t m ∧ ¬ s.Ready t := by
  cases hc : s.client c with
  | idle => exact .inl rfl
  | attaching t =>
    cases hs : s.stopped with
    | false => simpa [Action.begins, Action.isWake] using hq _ _ (.push hc hs)
    | true => simpa [Action.begins, Action.isWake] using hq _ _ (.reject hc hs)
  | notifying => simpa [Action.begins, Action.isWake] using hq _ _ (.notify hc)
  | joining t m =>
    refine .inr ⟨t, m, rfl, fun hready ↦ ?_⟩
    simpa [Action.begins, Action.isWake] using hq _ _ (.joinReturn hc hready)

/-- **A state in which nothing can move is at rest**, or the destructor waits for a master that
sleeps. -/
theorem atRest_of_quiescent (h : Progress s) (hq : s.Quiescent) : s.AtRest ∨ s.Deadlocked := by
  have hmaster := h.master_of_quiescent hq
  have hclient := client_of_quiescent hq
  obtain ⟨past, gap, hl⟩ := h.layout
  have hcurrent : s.master.current = none := by rcases hmaster with hm | hm <;> rw [hm] <;> rfl
  have htasks : s.tasks = [] := by
    rcases hmaster with hm | hm
    · refine (h.attentive hm).resolve_right fun ⟨c, hc⟩ ↦ ?_
      rcases hclient c with hc' | ⟨t, m, hc', -⟩ <;> cases hc.symm.trans hc'
    · exact h.closing.tasks (.inr (h.closing.exited hm))
  have hsettled : ∀ t ∈ s.pushed, s.Finished t ∨ t ∈ s.cleared := fun t ht ↦ by
    rw [hl.pushed_eq, hcurrent, hl.gap_eq_nil hcurrent, htasks] at ht
    exact hl.past_settled t (by simpa using ht)
  have hidle : ∀ c, s.client c = .idle := fun c ↦ by
    refine (hclient c).resolve_right fun ⟨t, m, hc, hready⟩ ↦ hready ?_
    -- the task a join waits for was pushed or rejected, as nobody attaches one
    rcases h.attached.settled t (h.attached.joining_lt c t m hc) with ⟨d, hd⟩ | ht | ht
    · rcases hclient d with hd' | ⟨u, m', hd', -⟩ <;> cases hd.symm.trans hd'
    · exact (hsettled t ht).imp id .inl
    · exact .inr (.inr ht)
  have hthreads : ∀ t, ¬ s.InProgress t := fun t ht ↦ by
    have hj := MasterPc.current_of_joined (hl.joined_of_inProgress ht)
    rw [hcurrent] at hj
    cases hj
  cases hd : s.dtor with
  | alive => exact .inl ⟨htasks, hsettled, hthreads, hidle, .inl hd⟩
  | marked => simpa [Action.begins, Action.isWake] using hq _ _ (.dtorStop hd)
  | stopped => simpa [Action.begins, Action.isWake] using hq _ _ (.masterStop hd)
  | signalled =>
    rcases hmaster with hm | hm
    · exact .inr ⟨hd, hm, fun c ↦ by simp [hidle c]⟩
    · simpa [Action.begins, Action.isWake] using hq _ _ (.masterJoin hd hm)
  | destroyed => exact .inl ⟨htasks, hsettled, hthreads, hidle, .inr hd⟩

end Progress

theorem bounded_of_run (hr : ∀ t, 0 < r t) (h : Run (sequence.restrict (Returns r)) tr s) :
    Bounded r s := by
  induction h with
  | nil hi =>
    obtain rfl := hi
    exact Bounded.initial
  | snoc _ hs ih => exact ih.step hr hs.2 hs.1

/-- Only finitely many clients are in a call. -/
theorem exists_covers (h : Run sequence tr s) : ∃ F, Covers F s := by
  induction h with
  | nil hi =>
    obtain rfl := hi
    exact ⟨∅, fun c hc ↦ absurd rfl hc⟩
  | @snoc tr s s' a _ hs ih =>
    obtain ⟨F, hF⟩ := ih
    have hupdate : ∀ {c pc}, Covers (insert c F) { s with client := update s.client c pc } := by
      intro c pc d hd
      by_cases hdc : d = c
      · exact hdc ▸ Finset.mem_insert_self ..
      · exact Finset.mem_insert_of_mem (hF d (by simpa [hdc] using hd))
    cases hs with
    | assign | push | reject | notify | joinBegin | joinReturn => exact ⟨_, hupdate⟩
    | _ => exact ⟨F, hF⟩

theorem sum_cost (tr : List Action) : (tr.map Action.cost).sum = 4 * tr.countP Action.isWake := by
  induction tr with
  | nil => rfl
  | cons a tr ih =>
    rw [List.map_cons, List.sum_cons, ih, List.countP_cons]
    cases a <;> simp [Action.cost, Action.isWake, Nat.mul_add, Nat.add_comm]

/-- **A sequence comes to rest.** Let every job return true sooner or later. From any reachable
state, the number of steps is bounded as long as no call begins, but for the waits that end
without a notification. And when no party can take a step, every call of `attach_job` and `join`
has returned, every task pushed was run to its end or cleared by `stop`, no job is in progress, and
the destructor has not begun or has returned; or it waits for a master that sleeps. -/
theorem sequence_rests (hr : ∀ t, 0 < r t) (h : Run (sequence.restrict (Returns r)) tr s) :
    (∃ n, ∀ tr' s', Path (sequence.restrict (Returns r)) s tr' s' →
      (∀ a ∈ tr', a.begins = false) → tr'.length ≤ n + 4 * tr'.countP Action.isWake) ∧
    (s.Quiescent → s.AtRest ∨ s.Deadlocked) := by
  have hp := progress_of_run h.of_restrict
  refine ⟨?_, hp.atRest_of_quiescent⟩
  obtain ⟨F, hF⟩ := exists_covers h.of_restrict
  refine ⟨s.left r F, fun tr' s' hpath hbegins ↦ ?_⟩
  rw [← sum_cost]
  refine hpath.length_le (μ := State.left r F)
    (I := fun s ↦ Numbered s ∧ (∃ past gap, Layout s past gap) ∧ Bounded r s ∧ Covers F s)
    ⟨hp.numbered, hp.layout, bounded_of_run hr h, hF⟩ ?_ hbegins
  rintro s₁ a s₂ ⟨hn, hl, hb, hF⟩ ha ⟨hs, hret⟩
  refine ⟨⟨hn.step hs, ?_, hb.step hr hret hs, hF.step ha hs⟩, State.left_lt hl hb hF ha hret hs⟩
  obtain ⟨past, gap, hl⟩ := hl
  exact hl.step hn hs

/-- A job is attached, run and joined; then nothing can move. -/
theorem sequence_rests_one : ∃ s, Run (sequence.restrict (Returns fun _ ↦ 1))
    [.assign 0, .push 0, .notify 0, .pop, .launch, .call 0, .finish 0, .reap, .again, .sleep] s ∧
    s.pushed = [0] ∧ s.AtRest := by
  have h := (((((Run.nil (S := sequence.restrict (Returns fun _ ↦ 1)) rfl).snoc
    ⟨Step.assign (c := 0) rfl, nofun⟩).snoc ⟨Step.push (c := 0) rfl rfl, nofun⟩).snoc
    ⟨Step.notify (c := 0) rfl, nofun⟩).snoc ⟨Step.pop rfl rfl, nofun⟩).snoc
    ⟨Step.launch rfl, nofun⟩ |>.snoc ⟨Step.call (t := 0) rfl, nofun⟩ |>.snoc
    ⟨Step.finish (t := 0) rfl, nofun⟩ |>.snoc ⟨Step.reap rfl rfl, nofun⟩ |>.snoc
    ⟨Step.again rfl rfl, nofun⟩ |>.snoc ⟨Step.sleep rfl rfl rfl, nofun⟩
  refine ⟨_, h, rfl, ((sequence_rests (fun _ ↦ Nat.one_pos) h).2 fun a s' hs ↦ ?_).resolve_right ?_⟩
  · cases hs <;>
      simp_all [State.initial, update_apply, Action.begins, Action.isWake]
  · exact fun hd ↦ by simpa [State.initial] using hd.1

end Cppkg.Jobs
