import Cppkg.Jobs.ManagedJob

/-!
# The threads of managed jobs

The objects of `ManagedJob.lean` together with the threads of their jobs, which run their bodies
and look at their signals at their own pace. `join` returns once the thread has ended, and a
destructor is two steps: it sets the signal, and it is done when the join in it returns. A move
assignment is one step: no thread moves between the signal that it sets and `job_.detach()`.

A thread is a token in the sense of `Ledger`: the object it is joinable from holds it, a join
spends it, and the move assignment to an object with a thread drops it, by `job_.detach()`.
`started`, `joined` and `detached` record this; no step depends on them. A thread that was joined
has ended, so the threads that have not ended and are held by no object are among the detached
ones (`Inv.noOrphan_iff`).

A thread that is detached was told to stop a moment ago, but it has not ended then: it may be
anywhere in its job.
-/

namespace Cppkg.Jobs

open Function Transition

namespace ManagedJob

/-- `is_running`. -/
def isRunning (m : ManagedJob) : Bool := m.joinable

/-- What the destructor does first: it tells the thread to stop. -/
def signalAtEnd (m : ManagedJob) (set : Signal → Bool) : Except Halt (Signal → Bool) :=
  if m.joinable && m.exitFuture.isSome then setValue m.exitSignal set else .ok set

/-- The destructor tells the thread to stop, and then joins it. -/
theorem destroy_eq (m : ManagedJob) (set : Signal → Bool) :
    m.destroy set = (m.signalAtEnd set).bind fun set ↦ (m.join set).bind fun m ↦
      if m.joinable then .error .joinable else .ok set := by
  rw [destroy, signalAtEnd]
  split <;> rfl

variable {m m' other : ManagedJob} {set set' : Signal → Bool} {g : Signal}

theorem update_mono (k : Signal) (hg : set g = true) : update set k true g = true := by
  by_cases hgk : g = k
  · simp [hgk]
  · rwa [update_of_ne hgk]

theorem setValue_mono {promise : Option Signal} (h : setValue promise set = .ok set')
    (hg : set g = true) : set' g = true := by
  cases promise with
  | none => cases h
  | some k =>
    rw [setValue] at h
    split at h
    · cases h
    · obtain rfl := Except.ok.inj h
      exact update_mono k hg

theorem stop_mono (h : m.stop set = .ok set') (hg : set g = true) : set' g = true := by
  rw [stop] at h
  split at h
  · exact setValue_mono h hg
  · exact Except.ok.inj h ▸ hg

theorem signalAtEnd_mono (h : m.signalAtEnd set = .ok set') (hg : set g = true) :
    set' g = true := by
  rw [signalAtEnd] at h
  split at h
  · exact setValue_mono h hg
  · exact Except.ok.inj h ▸ hg

/-- After a join the object has no thread. -/
theorem job_of_join (h : m.join set = .ok m') : m'.job = none := by
  rw [join] at h
  split at h
  next hm => exact Except.ok.inj h ▸ hm
  next =>
    split at h
    · obtain rfl := Except.ok.inj h
      rfl
    · cases h

/-- A move assignment hands on what the other object has. A thread that it detaches has not been
told to stop before. -/
theorem of_moveAssign {r : Moved} (ho : m.Owns) (h : m.moveAssign other set = .ok r) :
    r.target = other ∧ r.source = ⟨none, none, none⟩ ∧ (∀ g, m.job = some g → set g = false) ∧
      ∀ g, set g = true → r.set g = true := by
  cases hm : m.job with
  | none =>
    rw [moveAssign_of_none hm] at h
    obtain rfl := Except.ok.inj h
    exact ⟨rfl, rfl, by simp, fun _ hg ↦ hg⟩
  | some k =>
    rw [moveAssign_of_some ho hm] at h
    split at h
    · cases h
    · next hk =>
      obtain rfl := Except.ok.inj h
      refine ⟨rfl, rfl, ?_, fun g hg ↦ update_mono k hg⟩
      rintro g ⟨⟩
      simpa using hk

end ManagedJob

namespace ManagedJobs

variable {s s' : ManagedJobs} {i j : ℕ}

/-- The threads of the objects, when one of the objects changes. -/
theorem thread_update (s : ManagedJobs) (i : ℕ) (o : Option ManagedJob) (set : Signal → Bool)
    (next : Signal) :
    thread ⟨update s.job i o, set, next⟩ = update s.thread i (o.bind ManagedJob.job) :=
  Ledger.bind_update s.job ManagedJob.job i o

theorem of_construct (h : s.apply (.construct i) = some (.ok s')) :
    s.thread i = none ∧ s'.thread = update s.thread i (some s.next) ∧ s'.set = s.set ∧
      s'.next = s.next + 1 := by
  cases hi : s.job i with
  | some m => simp [apply, hi] at h
  | none =>
    simp only [apply, hi, Option.some.injEq, Except.ok.injEq] at h
    subst h
    exact ⟨by simp [thread, hi], thread_update s i _ _ _, rfl, rfl⟩

theorem of_constructDefault (h : s.apply (.constructDefault i) = some (.ok s')) :
    s'.thread = s.thread ∧ s'.set = s.set ∧ s'.next = s.next + 1 := by
  cases hi : s.job i with
  | some m => simp [apply, hi] at h
  | none =>
    simp only [apply, hi, Option.some.injEq, Except.ok.injEq] at h
    subst h
    refine ⟨(thread_update s i _ _ _).trans ?_, rfl, rfl⟩
    exact update_eq_self_iff.2 (by simp [thread, hi])

theorem of_stop (h : s.apply (.stop i) = some (.ok s')) :
    s'.thread = s.thread ∧ (∀ g, s.set g = true → s'.set g = true) ∧ s'.next = s.next := by
  obtain ⟨m, -, h⟩ := Option.bind_eq_some_iff.1 h
  cases hstop : m.stop s.set with
  | error e => simp [hstop, Except.map] at h
  | ok set =>
    simp only [hstop, Except.map, Option.some.injEq, Except.ok.injEq] at h
    subst h
    exact ⟨rfl, fun g hg ↦ ManagedJob.stop_mono hstop hg, rfl⟩

theorem of_join (h : s.apply (.join i) = some (.ok s')) :
    s'.thread = update s.thread i none ∧ s'.set = s.set ∧ s'.next = s.next := by
  obtain ⟨m, -, h⟩ := Option.bind_eq_some_iff.1 h
  cases hjoin : m.join s.set with
  | error e => simp [hjoin, Except.map] at h
  | ok m' =>
    simp only [hjoin, Except.map, Option.some.injEq, Except.ok.injEq] at h
    subst h
    refine ⟨(thread_update s i _ _ _).trans ?_, rfl, rfl⟩
    rw [Option.bind_some, ManagedJob.job_of_join hjoin]

theorem of_moveAssign {p : Phases} (ht : Tracks s p) (hij : i ≠ j)
    (h : s.apply (.moveAssign i j) = some (.ok s')) :
    s'.thread = update (update s.thread i (s.thread j)) j none ∧
      (∀ g, s.thread i = some g → s.set g = false) ∧
      (∀ g, s.set g = true → s'.set g = true) ∧ s'.next = s.next := by
  obtain ⟨m, hi, h⟩ := Option.bind_eq_some_iff.1 h
  obtain ⟨other, hj, h⟩ := Option.bind_eq_some_iff.1 h
  rw [if_neg hij] at h
  cases hmove : m.moveAssign other s.set with
  | error e => simp [hmove, Except.map] at h
  | ok r =>
    simp only [hmove, Except.map, Option.some.injEq, Except.ok.injEq] at h
    subst h
    obtain ⟨htarget, hsource, hset, hmono⟩ := ManagedJob.of_moveAssign (ht.owns i m hi) hmove
    refine ⟨?_, fun g hg ↦ hset g (by simpa [thread, hi] using hg), hmono, rfl⟩
    funext k
    by_cases hkj : k = j
    · simp [thread, hkj, hsource]
    · by_cases hki : k = i
      · subst hki
        simp [thread, hkj, hj, htarget]
      · simp [thread, hkj, hki]

/-- The beginning of a destructor keeps track of the objects. -/
theorem Tracks.signalAtEnd {p : Phases} {m : ManagedJob} {set : Signal → Bool} (ht : Tracks s p)
    (hm : s.job i = some m) (h : m.signalAtEnd s.set = .ok set) :
    ∃ p', Tracks { s with set := set } p' := by
  rw [ManagedJob.signalAtEnd] at h
  cases hg : m.job with
  | none =>
    rw [if_neg (by simp [ManagedJob.joinable, hg])] at h
    exact ⟨p, Except.ok.inj h ▸ ht⟩
  | some g =>
    obtain ⟨hsignal, hfuture⟩ := ht.owns i m hm g hg
    rw [if_pos (by simp [ManagedJob.joinable, hg, hfuture]), hsignal, ManagedJob.setValue] at h
    split at h
    · cases h
    · exact ⟨_, Except.ok.inj h ▸ ht.signal hm hg⟩

end ManagedJobs

/-- Where the thread of a job is. -/
inductive JobPc where
  /-- In the job. -/
  | body
  /-- Waiting for the exit signal. -/
  | polling
  | done
  deriving DecidableEq, Repr

/-- The objects and their threads. A thread is named by the state it waits for. -/
structure JobThreads where
  jobs : ManagedJobs
  pc : Signal → Option JobPc
  /-- The objects in their destructor. -/
  closing : ℕ → Bool
  /-- The threads that were launched. -/
  started : List Signal
  /-- The threads that were joined. -/
  joined : List Signal
  /-- The threads that were detached. -/
  detached : List Signal

namespace JobThreads

/-- The steps, of the thread that uses the objects and of the threads of the jobs (`g`). -/
inductive Action where
  | construct (i : ℕ)
  | constructDefault (i : ℕ)
  | stop (i : ℕ)
  | join (i : ℕ)
  | moveAssign (i j : ℕ)
  /-- A destructor begins. -/
  | close (i : ℕ)
  /-- A destructor ends. -/
  | destroy (i : ℕ)
  | finish (g : Signal)
  | timeout (g : Signal)
  | leave (g : Signal)
  deriving DecidableEq, Repr

/-- The thread of the object has ended, if there is one. -/
def Ended (s : JobThreads) (i : ℕ) : Prop :=
  ∀ g, s.jobs.thread i = some g → s.pc g = some .done

/-- The steps from a state. An object in its destructor is not used any more. -/
inductive Step (s : JobThreads) : Action → JobThreads → Prop
  | construct {i : ℕ} {jobs : ManagedJobs} (h : s.jobs.apply (.construct i) = some (.ok jobs)) :
      Step s (.construct i)
        { s with
          jobs := jobs
          pc := update s.pc s.jobs.next (some .body)
          started := s.started ++ [s.jobs.next] }
  | constructDefault {i : ℕ} {jobs : ManagedJobs}
      (h : s.jobs.apply (.constructDefault i) = some (.ok jobs)) :
      Step s (.constructDefault i) { s with jobs := jobs }
  | stop {i : ℕ} {jobs : ManagedJobs} (hi : s.closing i = false)
      (h : s.jobs.apply (.stop i) = some (.ok jobs)) : Step s (.stop i) { s with jobs := jobs }
  | join {i : ℕ} {jobs : ManagedJobs} (hi : s.closing i = false) (he : s.Ended i)
      (h : s.jobs.apply (.join i) = some (.ok jobs)) :
      Step s (.join i)
        { s with jobs := jobs, joined := s.joined ++ (s.jobs.thread i).toList }
  | moveAssign {i j : ℕ} {jobs : ManagedJobs} (hi : s.closing i = false)
      (hj : s.closing j = false) (h : s.jobs.apply (.moveAssign i j) = some (.ok jobs)) :
      Step s (.moveAssign i j)
        { s with
          jobs := jobs
          detached := s.detached ++ if i = j then [] else (s.jobs.thread i).toList }
  | close {i : ℕ} {m : ManagedJob} {set : Signal → Bool} (hi : s.closing i = false)
      (hm : s.jobs.job i = some m) (h : m.signalAtEnd s.jobs.set = .ok set) :
      Step s (.close i)
        { s with jobs := { s.jobs with set := set }, closing := update s.closing i true }
  | destroy {i : ℕ} {m m' : ManagedJob} (hi : s.closing i = true) (he : s.Ended i)
      (hm : s.jobs.job i = some m) (h : m.join s.jobs.set = .ok m') (h' : m'.joinable = false) :
      Step s (.destroy i)
        { s with
          jobs := { s.jobs with job := update s.jobs.job i none }
          closing := update s.closing i false
          joined := s.joined ++ (s.jobs.thread i).toList }
  /-- The job returns. -/
  | finish {g : Signal} (hg : s.pc g = some .body) :
      Step s (.finish g) { s with pc := update s.pc g (some .polling) }
  /-- The loop condition times out, and the job is called again. -/
  | timeout {g : Signal} (hg : s.pc g = some .polling) (hs : s.jobs.set g = false) :
      Step s (.timeout g) { s with pc := update s.pc g (some .body) }
  /-- The loop ends. -/
  | leave {g : Signal} (hg : s.pc g = some .polling) (hs : s.jobs.set g = true) :
      Step s (.leave g) { s with pc := update s.pc g (some .done) }

/-- No objects. -/
def initial : JobThreads where
  jobs := ManagedJobs.initial
  pc _ := none
  closing _ := false
  started := []
  joined := []
  detached := []

/-- Any number of objects with their threads, as long as no operation halts. -/
def jobThreads : System JobThreads Action where
  init s := s = initial
  step := Step

/-! ### What is to hold -/

/-- The thread was launched and has not ended. -/
def Unfinished (s : JobThreads) (g : Signal) : Prop := ∃ pc, s.pc g = some pc ∧ pc ≠ .done

/-- No job outlives its manager. -/
structure NoOrphan (s : JobThreads) : Prop where
  /-- A thread that has not ended is joinable from exactly one object. -/
  owned : ∀ g, s.Unfinished g → ∃! i, s.jobs.thread i = some g
  /-- With the last object gone, no job is executing. -/
  ended : (∀ i, s.jobs.job i = none) → ∀ g, s.pc g ≠ some .body
  /-- `is_running` of the owner is true for as long as the thread has not ended. -/
  running : ∀ g, s.Unfinished g →
    ∃ i m, s.jobs.job i = some m ∧ m.job = some g ∧ m.isRunning = true

/-- The step does not assign another object to one with a thread. -/
def Keeps (s : JobThreads) : Action → Prop
  | .moveAssign i j => i = j ∨ s.jobs.thread i = none
  | _ => True

/-- Which object holds which thread. -/
def ledger (s : JobThreads) : Ledger ℕ Signal where
  hold := s.jobs.thread
  issued := s.started
  spent := s.joined
  dropped := s.detached

/-- What holds in every state that is reached. -/
structure Inv (s : JobThreads) : Prop where
  tracks : ∃ p, s.jobs.Tracks p
  accounted : s.ledger.Accounted
  started_iff : ∀ g, g ∈ s.started ↔ s.pc g ≠ none
  started_lt : ∀ g ∈ s.started, g < s.jobs.next
  joined_done : ∀ g ∈ s.joined, s.pc g = some .done
  done_set : ∀ g, s.pc g = some .done → s.jobs.set g = true

variable {s s' : JobThreads} {a : Action} {tr : List Action}

theorem Inv.initial : Inv initial where
  tracks := ⟨_, ManagedJobs.Tracks.initial⟩
  accounted := Ledger.Accounted.empty
  started_iff := by simp [JobThreads.initial]
  started_lt := by simp [JobThreads.initial]
  joined_done := by simp [JobThreads.initial]
  done_set := by simp [JobThreads.initial]

/-- **Orphans are detached.** Every job is owned exactly if the detached threads have ended. -/
theorem Inv.noOrphan_iff (h : Inv s) :
    s.NoOrphan ↔ ∀ g ∈ s.detached, s.pc g = some .done := by
  constructor
  · intro ho g hg
    have hstarted : g ∈ s.started :=
      (h.accounted.issued_iff g).2 (.inr (List.mem_append_right _ hg))
    obtain ⟨pc, hpc⟩ := Option.ne_none_iff_exists'.1 ((h.started_iff g).1 hstarted)
    by_contra hne
    obtain ⟨i, hi, -⟩ := ho.owned g ⟨pc, hpc, fun hdone ↦ hne (hdone ▸ hpc)⟩
    exact h.accounted.loose g (List.mem_append_right _ hg) i hi
  · intro hdone
    have howned : ∀ g, s.Unfinished g → ∃ i, s.jobs.thread i = some g := by
      rintro g ⟨pc, hpc, hne⟩
      have hstarted : g ∈ s.started := (h.started_iff g).2 (by simp [hpc])
      refine ((h.accounted.issued_iff g).1 hstarted).resolve_right fun hgone ↦ hne ?_
      have hend : s.pc g = some .done :=
        (List.mem_append.1 hgone).elim (h.joined_done g) (hdone g)
      exact Option.some.inj (hpc.symm.trans hend)
    refine ⟨fun g hg ↦ ?_, fun hempty g hg ↦ ?_, fun g hg ↦ ?_⟩
    · obtain ⟨i, hi⟩ := howned g hg
      exact ⟨i, hi, fun k hk ↦ h.accounted.hold_inj hk hi⟩
    · obtain ⟨i, hi⟩ := howned g ⟨_, hg, by simp⟩
      simp [ManagedJobs.thread, hempty i] at hi
    · obtain ⟨i, hi⟩ := howned g hg
      obtain ⟨m, hm, hmg⟩ := Option.bind_eq_some_iff.1 hi
      exact ⟨i, m, hm, hmg, by simp [ManagedJob.isRunning, ManagedJob.joinable, hmg]⟩

/-! ### Every step -/

/-- A step of the thread that uses the objects, which launches nothing. -/
theorem Inv.frame {jobs : ManagedJobs} {closing : ℕ → Bool} {joined detached : List Signal}
    (h : Inv s) (ht : ∃ p, jobs.Tracks p) (hnext : s.jobs.next ≤ jobs.next)
    (hset : ∀ g, s.jobs.set g = true → jobs.set g = true)
    (hledger : Ledger.Accounted ⟨jobs.thread, s.started, joined, detached⟩)
    (hjoined : ∀ g ∈ joined, s.pc g = some .done) :
    Inv ⟨jobs, s.pc, closing, s.started, joined, detached⟩ where
  tracks := ht
  accounted := hledger
  started_iff := h.started_iff
  started_lt g hg := Nat.lt_of_lt_of_le (h.started_lt g hg) hnext
  joined_done := hjoined
  done_set g hg := hset g (h.done_set g hg)

/-- A thread that has not ended goes on. -/
theorem Inv.update_pc {g : Signal} {pc pc' : JobPc} (h : Inv s) (hg : s.pc g = some pc)
    (hne : pc ≠ .done) (hset : pc' = .done → s.jobs.set g = true) :
    Inv { s with pc := update s.pc g (some pc') } where
  tracks := h.tracks
  accounted := h.accounted
  started_iff k := by
    rw [h.started_iff k]
    by_cases hk : k = g
    · simp [hk, hg]
    · dsimp only
      rw [update_of_ne hk]
  started_lt := h.started_lt
  joined_done k hk := by
    have hdone := h.joined_done k hk
    have hkg : k ≠ g := by
      rintro rfl
      exact hne (Option.some.inj (hg.symm.trans hdone))
    dsimp only
    rwa [update_of_ne hkg]
  done_set k hk := by
    by_cases hkg : k = g
    · subst hkg
      dsimp only at hk
      rw [update_self] at hk
      exact hset (Option.some.inj hk)
    · dsimp only at hk
      rw [update_of_ne hkg] at hk
      exact h.done_set k hk

/-- A thread is launched. -/
theorem Inv.construct {i : ℕ} {jobs : ManagedJobs} (h : Inv s)
    (hs : s.jobs.apply (.construct i) = some (.ok jobs)) :
    Inv { s with
      jobs := jobs
      pc := update s.pc s.jobs.next (some .body)
      started := s.started ++ [s.jobs.next] } := by
  obtain ⟨hnone, hthread, hset, hnext⟩ := ManagedJobs.of_construct hs
  obtain ⟨p, hp⟩ := h.tracks
  have hfresh : s.jobs.next ∉ s.started := fun hmem ↦ Nat.lt_irrefl _ (h.started_lt _ hmem)
  have hne : ∀ g ∈ s.started, g ≠ s.jobs.next := fun g hg heq ↦ hfresh (heq ▸ hg)
  constructor
  · exact ⟨_, (hp.agrees hs).tracks _ rfl⟩
  · have hissue := h.accounted.issue (h := i) hnone hfresh
    rw [ledger, hthread]
    exact hissue
  · intro g
    by_cases hg : g = s.jobs.next
    · simp [hg]
    · simp [hg, h.started_iff]
  · intro g hg
    dsimp only
    rw [hnext]
    rcases List.mem_append.1 hg with hg | hg
    · exact Nat.lt_succ_of_lt (h.started_lt g hg)
    · exact List.mem_singleton.1 hg ▸ Nat.lt_succ_self _
  · intro g hg
    have hdone := h.joined_done g hg
    dsimp only
    rwa [update_of_ne (hne g ((h.started_iff g).2 (by simp [hdone])))]
  · intro g hg
    dsimp only at hg ⊢
    rw [hset]
    by_cases hgn : g = s.jobs.next
    · simp [hgn] at hg
    · rw [update_of_ne hgn] at hg
      exact h.done_set g hg

/-- The threads joined so far and the one joined now have ended. -/
theorem Inv.forall_joined {i : ℕ} (h : Inv s) (he : s.Ended i) :
    ∀ g ∈ s.joined ++ (s.jobs.thread i).toList, s.pc g = some .done := by
  intro g hg
  rcases List.mem_append.1 hg with hg | hg
  · exact h.joined_done g hg
  · exact he g (Option.mem_toList.1 hg)

theorem Inv.moveAssign {i j : ℕ} {jobs : ManagedJobs} (h : Inv s)
    (hs : s.jobs.apply (.moveAssign i j) = some (.ok jobs)) :
    Inv { s with
      jobs := jobs
      detached := s.detached ++ if i = j then [] else (s.jobs.thread i).toList } := by
  obtain ⟨p, hp⟩ := h.tracks
  have ht : ∃ p, jobs.Tracks p := ⟨_, (hp.agrees hs).tracks _ rfl⟩
  by_cases hij : i = j
  · -- a self-assignment does nothing
    obtain ⟨m, -, hs⟩ := Option.bind_eq_some_iff.1 hs
    obtain ⟨other, -, hs⟩ := Option.bind_eq_some_iff.1 hs
    rw [if_pos hij] at hs
    obtain rfl := Except.ok.inj (Option.some.inj hs)
    rw [if_pos hij, List.append_nil]
    exact h
  · obtain ⟨hthread, -, hset, hnext⟩ := ManagedJobs.of_moveAssign hp hij hs
    have hmove := (h.accounted.drop i).transfer (Ne.symm hij) (by simp [Ledger.drop])
    rw [if_neg hij]
    refine h.frame ht (Nat.le_of_eq hnext.symm) hset ?_ h.joined_done
    rw [hthread]
    simpa [Ledger.transfer, Ledger.drop, ledger, Ne.symm hij] using hmove

/-- **The invariant is preserved.** -/
theorem Inv.step (h : Inv s) (hs : Step s a s') : Inv s' := by
  obtain ⟨p, hp⟩ := h.tracks
  cases hs with
  | construct hs => exact h.construct hs
  | constructDefault hs =>
    obtain ⟨hthread, hset, hnext⟩ := ManagedJobs.of_constructDefault hs
    refine h.frame ⟨_, (hp.agrees hs).tracks _ rfl⟩ (hnext ▸ Nat.le_succ _) (by simp [hset]) ?_
      h.joined_done
    rw [hthread]
    exact h.accounted
  | stop _ hs =>
    obtain ⟨hthread, hset, hnext⟩ := ManagedJobs.of_stop hs
    refine h.frame ⟨_, (hp.agrees hs).tracks _ rfl⟩ (Nat.le_of_eq hnext.symm) hset ?_ h.joined_done
    rw [hthread]
    exact h.accounted
  | @join i _ _ he hs =>
    obtain ⟨hthread, hset, hnext⟩ := ManagedJobs.of_join hs
    refine h.frame ⟨_, (hp.agrees hs).tracks _ rfl⟩ (Nat.le_of_eq hnext.symm) (by simp [hset]) ?_
      (h.forall_joined he)
    rw [hthread]
    exact h.accounted.spend i
  | moveAssign _ _ hs => exact h.moveAssign hs
  | close _ hm hs =>
    exact h.frame (hp.signalAtEnd hm hs) (Nat.le_refl _)
      (fun g hg ↦ ManagedJob.signalAtEnd_mono hs hg) h.accounted h.joined_done
  | @destroy i m m' _ he hm hs hs' =>
    refine h.frame ⟨_, hp.clear (o := none) rfl (by simp)⟩ (Nat.le_refl _) (fun _ hg ↦ hg) ?_
      (h.forall_joined he)
    rw [ManagedJobs.thread_update]
    exact h.accounted.spend i
  | finish hg => exact h.update_pc hg (by simp) (by simp)
  | timeout hg => exact h.update_pc hg (by simp) (by simp)
  | leave hg hset => exact h.update_pc hg (by simp) fun _ ↦ hset

theorem inv_of_run (h : Run jobThreads tr s) : Inv s :=
  h.invariant (by rintro _ rfl; exact Inv.initial) fun _ _ _ hi hs ↦ hi.step hs

/-! ### Detached threads -/

/-- Only a move assignment that does not keep the threads detaches one. -/
theorem detached_of_keeps (hs : Step s a s') (ha : s.Keeps a) : s'.detached = s.detached := by
  cases hs with
  | @moveAssign i j _ _ _ _ =>
    rcases ha with hij | hnone
    · simp [hij]
    · simp [hnone]
  | _ => rfl

theorem detached_of_run (h : Run (jobThreads.restrict Keeps) tr s) : s.detached = [] := by
  induction h with
  | nil hi =>
    obtain rfl := hi
    rfl
  | snoc _ hs ih => exact (detached_of_keeps hs.1 hs.2).trans ih

/-- A thread has not ended when it is detached. -/
theorem Inv.detaches (h : Inv s) (hs : Step s a s') (ha : ¬ s.Keeps a) :
    ∃ g ∈ s'.detached, s'.pc g ≠ some .done := by
  cases hs with
  | @moveAssign i j jobs _ _ hs =>
    obtain ⟨hij, hsome⟩ := not_or.1 ha
    obtain ⟨p, hp⟩ := h.tracks
    obtain ⟨g, hg⟩ := Option.ne_none_iff_exists'.1 hsome
    obtain ⟨-, hunset, -⟩ := ManagedJobs.of_moveAssign hp hij hs
    refine ⟨g, by simp [hij, hg], fun hdone ↦ ?_⟩
    exact Bool.false_ne_true ((hunset g hg).symm.trans (h.done_set g hdone))
  | _ => exact absurd trivial ha

/-- **When no job outlives its manager.** As long as no object is assigned to one with a thread,
every thread that has not ended is joinable from exactly one object, and a step keeps it so if and
only if it is not such an assignment either. -/
theorem noOrphan_of_run (h : Run (jobThreads.restrict Keeps) tr s) :
    s.NoOrphan ∧ ∀ a s', Step s a s' → (s'.NoOrphan ↔ s.Keeps a) := by
  have hinv := inv_of_run h.of_restrict
  have hnone := detached_of_run h
  refine ⟨hinv.noOrphan_iff.2 (by simp [hnone]), fun a s' hs ↦ ?_⟩
  rw [(hinv.step hs).noOrphan_iff]
  constructor
  · intro hdone
    by_contra ha
    obtain ⟨g, hg, hne⟩ := hinv.detaches hs ha
    exact hne (hdone g hg)
  · intro ha
    simp [detached_of_keeps hs ha, hnone]

/-- A job is handed to an object without a thread. -/
theorem noOrphan_of_run_handover : ∃ s,
    Run (jobThreads.restrict Keeps) [.construct 0, .constructDefault 1, .moveAssign 1 0] s ∧
      s.NoOrphan ∧ ∀ a s', Step s a s' → (s'.NoOrphan ↔ s.Keeps a) := by
  have h := (((Run.nil (S := jobThreads.restrict Keeps) rfl).snoc
    ⟨Step.construct (i := 0) rfl, trivial⟩).snoc
    ⟨Step.constructDefault (i := 1) rfl, trivial⟩).snoc
    ⟨Step.moveAssign (i := 1) (j := 0) rfl rfl rfl, .inr rfl⟩
  exact ⟨_, h, noOrphan_of_run h⟩

/-- **A job that outlives its manager.** The object of a job is assigned to, and all objects are
destroyed while the job is still executing. -/
theorem not_noOrphan : ¬ ∀ tr s, Run jobThreads tr s → s.NoOrphan := by
  intro hall
  have h₃ := (((Run.nil (S := jobThreads) rfl).snoc (Step.construct (i := 0) rfl)).snoc
    (Step.constructDefault (i := 1) rfl)).snoc (Step.moveAssign (i := 0) (j := 1) rfl rfl rfl)
  have h := (((h₃.snoc (Step.close (i := 0) rfl rfl rfl)).snoc
    (Step.destroy (i := 0) rfl (by rintro g ⟨⟩) rfl rfl rfl)).snoc
    (Step.close (i := 1) rfl rfl rfl)).snoc
    (Step.destroy (i := 1) rfl (by rintro g ⟨⟩) rfl rfl rfl)
  refine (hall _ _ h).ended (fun i ↦ ?_) 0 rfl
  by_cases h₁ : i = 1
  · subst h₁
    rfl
  · by_cases h₀ : i = 0
    · subst h₀
      rfl
    · simp [ManagedJobs.initial, JobThreads.initial, h₀, h₁]

end JobThreads

end Cppkg.Jobs
