import Cppkg.Egrpc.ClientHandler
import Cppkg.Lib.Pool
import Cppkg.Lib.Transition

/-!
# Client requests and their retries

`AsyncClientHandler` of `client_async.h`. A handler starts an attempt when it is constructed. When
the attempt has completed the handler deletes itself; one that failed with retries left constructs
its successor first and hands the promise on to it; the destructor of a handler sets the promise
if the handler still has it.

An attempt may complete inside `init_`, so that the whole rest of the chain runs inside the
constructor of a successor. `construct` is that recursion, with fuel for its depth; it fails when a
handler that is gone is used or a promise is set twice. Handlers are numbered by their
construction, so that handler `k` makes attempt `k`.

`Client.attempts` is what a chain does from its beginning to its end. A call of the constructor or
of `handle()` does a first part of it, up to the next attempt that stays in flight (`Leaves`).
-/

namespace Cppkg.Egrpc

open Function Transition

/-- `AsyncClientHandler`. -/
structure AsyncClientHandler (RES : Type*) extends ClientHandler where
  /-- `status_`. -/
  status : Status
  /-- `reply_`. -/
  reply : RES
  /-- `nretries_`. -/
  nretries : ℕ

/-- A client, and what its attempts come to. -/
structure Client (RES : Type*) where
  /-- `cb_` is set. -/
  cb : Bool
  status : ℕ → Status
  reply : ℕ → RES
  /-- The attempt completes inside `init_`. -/
  sync : ℕ → Bool

namespace AsyncClientHandler

/-- What the handlers do. -/
inductive Event (RES : Type*) where
  /-- `init_` is called on a handler. -/
  | init (k : ℕ)
  /-- An attempt completes, and its handler is called. -/
  | complete (k : ℕ)
  /-- `cb_` is called. -/
  | cb (reply : RES)
  /-- The promise is set. -/
  | setValue (err : ErrptrT)
  deriving DecidableEq

/-- The handlers of a client, the promise they share and what they have done. -/
structure Chain (RES : Type*) where
  pool : Pool (AsyncClientHandler RES) Unit
  promise : ErrPromiseT
  log : List (Event RES)

variable {RES : Type*}

/-- No handlers. -/
def start : Chain RES where
  pool := .empty
  promise := none
  log := []

namespace Chain

def emit (w : Chain RES) (e : Event RES) : Chain RES := { w with log := w.log ++ [e] }

/-- `delete this`. -/
def destroy (w : Chain RES) (k : ℕ) : Option (Chain RES) :=
  match w.pool.object k with
  | none => none
  | some h => (h.destructor w.promise).map fun promise ↦
    { pool := w.pool.delete k, promise := promise, log := w.log ++ h.values.map .setValue }

end Chain

variable (A : Client RES)

/-- `handle`. The successor is constructed by `construct`. -/
def handle (construct : Chain RES → ℕ → Bool → Option (Chain RES)) (w : Chain RES) (k : ℕ) :
    Option (Chain RES) :=
  match w.pool.object k with
  | none => none
  | some h =>
    if h.status.ok then (if A.cb then w.emit (.cb h.reply) else w).destroy k
    else if h.nretries > 0 then do
      let w ← construct w (h.nretries - 1) h.completePromise
      let h ← w.pool.object k
      { w with pool := w.pool.put k { h with completePromise := false } }.destroy k
    else
      let h := { h with error := Egrpc.error h.status.message }
      { w with pool := w.pool.put k h }.destroy k

/-- An attempt completes: its status and its reply are written, and the handler is called. -/
def deliver (construct : Chain RES → ℕ → Bool → Option (Chain RES)) (w : Chain RES) (k : ℕ) :
    Option (Chain RES) :=
  match w.pool.object k with
  | none => none
  | some h =>
    let h := { h with status := A.status k, reply := A.reply k }
    handle A construct ({ w with pool := w.pool.put k h }.emit (.complete k)) k

/-- The constructor. `init_` starts an attempt, which may complete there and then. -/
def construct [Inhabited RES] : ℕ → Chain RES → ℕ → Bool → Option (Chain RES)
  | 0, _, _, _ => none
  | fuel + 1, w, nretries, promise =>
    let k := w.pool.next
    let h := ⟨⟨promise, none⟩, .okStatus, default, nretries⟩
    let w := { w with pool := w.pool.create h }.emit (.init k)
    if A.sync k then deliver A (construct fuel) w k
    else some { w with pool := w.pool.issue k () }

/-- Attempt `k` completes after the constructor has returned. -/
inductive Step [Inhabited RES] (nretries : ℕ) (w : Chain RES) : ℕ → Chain RES → Prop
  | handle {k : ℕ} {w' : Chain RES} (hk : (k, ()) ∈ w.pool.inflight)
      (hw : deliver A (construct A (nretries + 1)) { w with pool := w.pool.complete (k, ()) } k =
        some w') : Step nretries w k w'

/-- A client that is constructed with a number of retries. -/
def system [Inhabited RES] (nretries : ℕ) : System (Chain RES) ℕ where
  init w := construct A (nretries + 1) start nretries true = some w
  step := Step A nretries

/-! ### What a chain does -/

/-- What follows the completion of attempt `k` when it has succeeded. -/
def succeed (k : ℕ) : List (Event RES) :=
  (if A.cb then [.cb (A.reply k)] else []) ++ [.setValue none]

/-- What follows the completion of attempt `k` when there are `n` retries left. -/
def rest : ℕ → ℕ → List (Event RES)
  | 0, k =>
    if (A.status k).ok then succeed A k else [.setValue (Egrpc.error (A.status k).message)]
  | n + 1, k =>
    if (A.status k).ok then succeed A k
    else .init (k + 1) :: .complete (k + 1) :: rest n (k + 1)

/-- What a chain does that begins with attempt `k` and has `n` retries. -/
def attempts (n k : ℕ) : List (Event RES) := .init k :: .complete k :: rest A n k

theorem rest_of_ok {k : ℕ} (hok : (A.status k).ok = true) (n : ℕ) :
    rest A n k = succeed A k := by
  cases n <;> simp [rest, hok]

/-- The value the promise is set to. -/
def Event.value : Event RES → Option ErrptrT
  | .setValue err => some err
  | _ => none

/-- The handler `init_` is called on. -/
def Event.inited : Event RES → Option ℕ
  | .init k => some k
  | _ => none

/-- The record tells how the promise is set, and which handlers were constructed. -/
structure Recorded (w : Chain RES) : Prop where
  values : w.log.filterMap Event.value = w.promise.toList
  inits : w.log.filterMap Event.inited = List.range w.pool.next

/-- What is to be done is done, or a new attempt is in flight. Its handler is the last of the chain
and in possession of the promise, and what is left to do follows its completion. Attempt `last`
is the last one. -/
inductive Settles (last : ℕ) (w : Chain RES) (todo : List (Event RES)) (w' : Chain RES) : Prop
  | done (hinflight : w'.pool.inflight = w.pool.inflight) (hlog : w'.log = w.log ++ todo)
  | waits {k : ℕ} {h : AsyncClientHandler RES}
      (hinflight : w'.pool.inflight = w.pool.inflight ++ [(k, ())])
      (hobject : w'.pool.object k = some h) (hnew : w.pool.next ≤ k)
      (hnext : w'.pool.next = k + 1) (hlast : k + h.nretries = last)
      (hpromise : h.completePromise = true) (herror : h.error = none) (hunset : w'.promise = none)
      (hlog : w'.log ++ .complete k :: rest A h.nretries k = w.log ++ todo)

/-- A first part of what is to be done is done. The handlers that are at work stay as they are. -/
structure Leaves (last : ℕ) (busy : Set ℕ) (w : Chain RES) (todo : List (Event RES))
    (w' : Chain RES) : Prop where
  balanced : w'.pool.Balanced busy
  recorded : Recorded w'
  object : ∀ j ∈ busy, w'.pool.object j = w.pool.object j
  settles : Settles A last w todo w'

namespace Recorded

variable {w : Chain RES}

theorem of_next {p : Pool (AsyncClientHandler RES) Unit} (hr : Recorded w)
    (hp : p.next = w.pool.next) : Recorded { w with pool := p } where
  values := hr.values
  inits := by simpa [hp] using hr.inits

theorem emit {e : Event RES} (hr : Recorded w) (hv : e.value = none) (hi : e.inited = none) :
    Recorded (w.emit e) where
  values := by simpa [Chain.emit, List.filterMap_cons, hv] using hr.values
  inits := by simpa [Chain.emit, List.filterMap_cons, hi] using hr.inits

theorem create (hr : Recorded w) (h : AsyncClientHandler RES) :
    Recorded ({ w with pool := w.pool.create h }.emit (.init w.pool.next)) where
  values := by simpa [Chain.emit, List.filterMap_cons, Event.value] using hr.values
  inits := by simp [Chain.emit, Event.inited, hr.inits, Pool.create, List.range_succ]

theorem setValue (hr : Recorded w) (hunset : w.promise = none) (err : ErrptrT) :
    Recorded { w.emit (.setValue err) with promise := some err } where
  values := by simp [Chain.emit, Event.value, hr.values, hunset]
  inits := by simpa [Chain.emit, List.filterMap_cons, Event.inited] using hr.inits

end Recorded

variable {A} {busy : Set ℕ} {w w' w₁ : Chain RES} {todo pre : List (Event RES)} {k n last : ℕ}
  {h : AsyncClientHandler RES}

namespace Leaves

/-- What was done before is done, too. -/
theorem of_log (hl : Leaves A last busy w₁ todo w') (hlog : w₁.log = w.log ++ pre)
    (hinflight : w₁.pool.inflight = w.pool.inflight) (hnext : w.pool.next ≤ w₁.pool.next)
    (hobject : ∀ j ∈ busy, w₁.pool.object j = w.pool.object j) :
    Leaves A last busy w (pre ++ todo) w' where
  balanced := hl.balanced
  recorded := hl.recorded
  object j hj := (hl.object j hj).trans (hobject j hj)
  settles := by
    cases hl.settles with
    | done hi hd => exact .done (hi.trans hinflight) (by rw [hd, hlog, List.append_assoc])
    | waits hi ho hnew hn hlast hp he hu hd =>
      exact .waits (hi.trans (by rw [hinflight])) ho (Nat.le_trans hnext hnew) hn hlast hp he hu
        (by rw [hd, hlog, List.append_assoc])

end Leaves

/-! ### The end of a handler -/

/-- A handler in possession of the promise sets it when it deletes itself. -/
theorem exists_destroy (hb : w.pool.Balanced busy) (hr : Recorded w) (hunset : w.promise = none)
    (hk : k ∈ busy) (hobject : w.pool.object k = some h) (hpromise : h.completePromise = true) :
    ∃ w', w.destroy k = some w' ∧ Leaves A last (busy \ {k}) w [.setValue h.error] w' := by
  have hdestroy : w.destroy k = some
      { { w with pool := w.pool.delete k }.emit (.setValue h.error) with
        promise := some h.error } := by
    simp [Chain.destroy, hobject, ClientHandler.destructor_of_promise hpromise hunset,
      ClientHandler.values, hpromise, Chain.emit]
  refine ⟨_, hdestroy, hb.delete hk, ?_, fun j hj ↦ update_of_ne hj.2 .., .done rfl rfl⟩
  exact Recorded.setValue (w := { w with pool := w.pool.delete k }) (hr.of_next rfl) hunset h.error

/-- A handler that has handed its promise on deletes itself and no more. -/
theorem Leaves.destroy (hl : Leaves A last busy w todo w') (hk : k ∈ busy)
    (h : AsyncClientHandler RES) :
    ∃ w₂, { w' with pool := w'.pool.put k { h with completePromise := false } }.destroy k =
      some w₂ ∧ Leaves A last (busy \ {k}) w todo w₂ := by
  have hdestroy : { w' with pool := w'.pool.put k { h with completePromise := false } }.destroy k =
      some { w' with pool := (w'.pool.put k { h with completePromise := false }).delete k } := by
    simp [Chain.destroy, Pool.put, ClientHandler.destructor_of_null, ClientHandler.values]
  have hobject : ∀ j, j ≠ k →
      ((w'.pool.put k { h with completePromise := false }).delete k).object j =
        w'.pool.object j := fun j hj ↦ by simp [Pool.delete, Pool.put, hj]
  have hbalanced := (hl.balanced.put (hl.balanced.busy_live k hk)
    { h with completePromise := false }).delete hk
  refine ⟨_, hdestroy, hbalanced, hl.recorded.of_next rfl, fun j hj ↦ ?_, ?_⟩
  · exact (hobject j hj.2).trans (hl.object j hj.1)
  · cases hl.settles with
    | done hi hd => exact .done hi hd
    | @waits j g hi ho hnew hn hlast hp he hu hd =>
      -- a handler at work has no attempt in flight
      have hj : j ≠ k := by
        rintro rfl
        have htag : j ∈ w'.pool.tags := by simp [Pool.tags, hi]
        exact ((hl.balanced.mem_tags j).1 htag).2 hk
      exact .waits hi ((hobject j hj).trans ho) hnew hn hlast hp he hu hd

/-! ### The rest of a chain -/

/-- The constructor does a first part of the attempts with `n` retries. -/
def Constructs (A : Client RES) (c : Chain RES → Option (Chain RES)) (n : ℕ) : Prop :=
  ∀ {busy : Set ℕ} {w : Chain RES}, w.pool.Balanced busy → Recorded w → w.promise = none →
    ∃ w', c w = some w' ∧
      Leaves A (w.pool.next + n) busy w (attempts A n w.pool.next) w'

/-- **`handle()` does a first part of what follows the completion of an attempt.** -/
theorem exists_handle {c : Chain RES → ℕ → Bool → Option (Chain RES)}
    (hc : ∀ m, n = m + 1 → Constructs A (c · m true) m) (hb : w.pool.Balanced busy)
    (hr : Recorded w) (hunset : w.promise = none) (hk : k ∈ busy) (hnext : w.pool.next = k + 1)
    (hobject : w.pool.object k = some ⟨⟨true, none⟩, A.status k, A.reply k, n⟩) :
    ∃ w', handle A c w k = some w' ∧ Leaves A (k + n) (busy \ {k}) w (rest A n k) w' := by
  cases hok : (A.status k).ok with
  | true =>
    simp only [handle, hobject, hok, if_true, rest_of_ok A hok, succeed]
    split
    · obtain ⟨w', hw', hl⟩ := exists_destroy (A := A) (w := w.emit (.cb (A.reply k))) hb
        (hr.emit rfl rfl) hunset hk hobject rfl
      exact ⟨w', hw', hl.of_log rfl rfl (Nat.le_refl _) fun _ _ ↦ rfl⟩
    · exact exists_destroy hb hr hunset hk hobject rfl
  | false =>
    cases n with
    | zero =>
      let g : AsyncClientHandler RES :=
        ⟨⟨true, Egrpc.error (A.status k).message⟩, A.status k, A.reply k, 0⟩
      have hput : (w.pool.put k g).Balanced busy := hb.put (hb.busy_live k hk) g
      obtain ⟨w', hw', hl⟩ := exists_destroy (A := A) (w := { w with pool := w.pool.put k g }) hput
        (hr.of_next rfl) hunset hk (update_self ..) rfl
      refine ⟨w', by simpa [handle, hobject, hok] using hw', ?_⟩
      rw [rest, if_neg (by simp [hok])]
      exact hl.of_log (w := w) (List.append_nil _).symm rfl (Nat.le_refl _)
        fun j hj ↦ update_of_ne hj.2 ..
    | succ m =>
      obtain ⟨w₁, hw₁, hl⟩ := hc m rfl hb hr hunset
      obtain ⟨w', hw', hl'⟩ := hl.destroy hk ⟨⟨true, none⟩, A.status k, A.reply k, m + 1⟩
      refine ⟨w', ?_, ?_⟩
      · simp [handle, hobject, hok, hw₁, hl.object k hk, hw']
      · have hlast : k + 1 + m = k + (m + 1) := by omega
        simpa [rest, hok, attempts, hnext, hlast] using hl'

theorem exists_deliver {c : Chain RES → ℕ → Bool → Option (Chain RES)}
    (hc : ∀ m, h.nretries = m + 1 → Constructs A (c · m true) m) (hb : w.pool.Balanced busy)
    (hr : Recorded w) (hunset : w.promise = none) (hk : k ∈ busy) (hnext : w.pool.next = k + 1)
    (hobject : w.pool.object k = some h) (hpromise : h.completePromise = true)
    (herror : h.error = none) :
    ∃ w', deliver A c w k = some w' ∧
      Leaves A (k + h.nretries) (busy \ {k}) w (.complete k :: rest A h.nretries k) w' := by
  let g := { h with status := A.status k, reply := A.reply k }
  have hput : (w.pool.put k g).Balanced busy := hb.put (hb.busy_live k hk) g
  have hr₁ : Recorded { w with pool := w.pool.put k g } := hr.of_next rfl
  have hg : (w.pool.put k g).object k = some
      ⟨⟨true, none⟩, A.status k, A.reply k, h.nretries⟩ := by
    simp [Pool.put, g, ← hpromise, ← herror]
  obtain ⟨w', hw', hl⟩ := exists_handle (w := { w with pool := w.pool.put k g }.emit (.complete k))
    hc hput (hr₁.emit rfl rfl) hunset hk hnext hg
  refine ⟨w', by simpa [deliver, hobject] using hw', ?_⟩
  exact hl.of_log (w := w) rfl rfl (Nat.le_refl _) fun j hj ↦ update_of_ne hj.2 ..

theorem constructs_succ [Inhabited RES] {fuel : ℕ}
    (hc : ∀ m, n = m + 1 → Constructs A (construct A fuel · m true) m) :
    Constructs A (construct A (fuel + 1) · n true) n := by
  intro busy w hb hr hunset
  let g : AsyncClientHandler RES := ⟨⟨true, none⟩, .okStatus, default, n⟩
  let w₁ := { w with pool := w.pool.create g }.emit (.init w.pool.next)
  have hbusy : w.pool.next ∉ busy := fun hk ↦ Nat.lt_irrefl _ (hb.lt_next _ (hb.busy_live _ hk))
  have hb₁ : w₁.pool.Balanced (insert w.pool.next busy) := hb.create g
  have hg : w₁.pool.object w.pool.next = some g := update_self ..
  have hobject : ∀ j ∈ busy, w₁.pool.object j = w.pool.object j := fun j hj ↦
    update_of_ne (ne_of_mem_of_not_mem hj hbusy) ..
  cases hs : A.sync w.pool.next with
  | true =>
    obtain ⟨w', hw', hl⟩ := exists_deliver (A := A) (c := construct A fuel) (h := g) hc hb₁
      (hr.create g) hunset (Set.mem_insert _ _) rfl hg rfl rfl
    rw [Set.insert_sdiff_self_of_notMem hbusy] at hl
    exact ⟨w', by simpa [construct, hs] using hw',
      hl.of_log (w := w) rfl rfl (Nat.le_succ _) hobject⟩
  | false =>
    have hissue := hb₁.issue (Set.mem_insert _ _) ()
    rw [Set.insert_sdiff_self_of_notMem hbusy] at hissue
    refine ⟨{ w₁ with pool := w₁.pool.issue w.pool.next () }, by simp [construct, hs, w₁, g],
      hissue, (hr.create g).of_next rfl, hobject, ?_⟩
    exact .waits rfl hg (Nat.le_refl _) rfl rfl rfl rfl hunset (List.append_assoc ..)

/-- **The constructor does a first part of the attempts**, when there is fuel for all of them. -/
theorem constructs_construct [Inhabited RES] {fuel : ℕ} (hn : n < fuel) :
    Constructs A (construct A fuel · n true) n := by
  induction n generalizing fuel with
  | zero =>
    obtain ⟨fuel, rfl⟩ := Nat.exists_eq_succ_of_ne_zero (Nat.ne_of_gt hn)
    exact constructs_succ fun m hm ↦ absurd hm (Nat.zero_ne_add_one m)
  | succ n ih =>
    obtain ⟨fuel, rfl⟩ := Nat.exists_eq_succ_of_ne_zero (Nat.ne_of_gt (Nat.zero_lt_of_lt hn))
    refine constructs_succ fun m hm ↦ ?_
    obtain rfl := Nat.succ.inj hm
    exact ih (Nat.lt_of_succ_lt_succ hn)

/-! ### What a whole chain does -/

/-- The first attempts, one after the other. -/
def tries (n : ℕ) : List (Event RES) := (List.range n).flatMap fun k ↦ [.init k, .complete k]

theorem tries_succ (n : ℕ) :
    (tries (n + 1) : List (Event RES)) = tries n ++ [.init n, .complete n] := by
  simp [tries, List.range_succ]

variable (A) in
/-- Attempt `i` is the first one that succeeds. -/
def FirstOk (i : ℕ) : Prop := (A.status i).ok = true ∧ ∀ j < i, (A.status j).ok = false

theorem tries_append_rest {i : ℕ} (hin : i ≤ n) (hfail : ∀ j < i, (A.status (k + j)).ok = false) :
    tries (k + 1) ++ rest A n k = tries (k + i + 1) ++ rest A (n - i) (k + i) := by
  induction i generalizing n k with
  | zero => rfl
  | succ i ih =>
    obtain ⟨n, rfl⟩ := Nat.exists_eq_succ_of_ne_zero (Nat.ne_of_gt (Nat.zero_lt_of_lt hin))
    have hk : (A.status k).ok = false := hfail 0 (Nat.succ_pos i)
    have hrest : rest A (n + 1) k = .init (k + 1) :: .complete (k + 1) :: rest A n (k + 1) := by
      rw [rest, if_neg (by simp [hk])]
    have hfail' : ∀ j < i, (A.status (k + 1 + j)).ok = false := fun j hj ↦ by
      rw [Nat.add_right_comm, Nat.add_assoc]
      exact hfail (j + 1) (Nat.succ_lt_succ hj)
    calc tries (k + 1) ++ rest A (n + 1) k
        = tries (k + 1 + 1) ++ rest A n (k + 1) := by rw [hrest, tries_succ (k + 1)]; simp
      _ = tries (k + 1 + i + 1) ++ rest A (n - i) (k + 1 + i) :=
          ih (Nat.le_of_succ_le_succ hin) hfail'
      _ = tries (k + (i + 1) + 1) ++ rest A (n + 1 - (i + 1)) (k + (i + 1)) := by
          rw [Nat.add_right_comm k 1 i, Nat.add_assoc k i 1, Nat.add_sub_add_right]

theorem attempts_of_firstOk {i : ℕ} (hin : i ≤ n) (hi : FirstOk A i) :
    attempts A n 0 = tries (i + 1) ++ succeed A i := by
  have happend := tries_append_rest (k := 0) hin fun j hj ↦ by rw [Nat.zero_add]; exact hi.2 j hj
  simp only [Nat.zero_add, rest_of_ok A hi.1] at happend
  exact happend

theorem attempts_of_fail (hfail : ∀ j ≤ n, (A.status j).ok = false) :
    attempts A n 0 = tries (n + 1) ++ [.setValue (Egrpc.error (A.status n).message)] := by
  have happend := tries_append_rest (k := 0) (Nat.le_refl n) fun j hj ↦ by
    rw [Nat.zero_add]; exact hfail j hj.le
  simp only [Nat.zero_add, Nat.sub_self] at happend
  rw [rest, if_neg (by simp [hfail n (Nat.le_refl n)])] at happend
  exact happend

/-! ### Runs -/

/-- `n` attempts were made, in order. After the last one has completed, `cb_` was called with
`replies`, and the promise was set to `err`. Every handler was deleted, exactly once. -/
structure Ended (w : Chain RES) (n : ℕ) (replies : List RES) (err : ErrptrT) : Prop where
  log : w.log = tries n ++ replies.map .cb ++ [.setValue err]
  promise : w.promise = some err
  deleted : w.pool.deleted.Perm (List.range n)

theorem value_tries (n : ℕ) (replies : List RES) :
    (tries n ++ replies.map .cb : List (Event RES)).filterMap Event.value = [] := by
  induction n with
  | zero => simp [tries, List.filterMap_eq_nil_iff, Event.value]
  | succ n ih => simpa [tries_succ, List.filterMap_cons, Event.value] using ih

theorem inited_tries (n : ℕ) (replies : List RES) :
    (tries n ++ replies.map .cb : List (Event RES)).filterMap Event.inited = List.range n := by
  have hcb : (replies.map Event.cb).filterMap Event.inited = [] := by
    simp [List.filterMap_eq_nil_iff, Event.inited]
  rw [List.filterMap_append, hcb, List.append_nil]
  induction n with
  | zero => rfl
  | succ n ih => rw [tries_succ, List.filterMap_append, ih, List.range_succ]; rfl

theorem Ended.of_log {replies : List RES} {err : ErrptrT} (hb : w.pool.Balanced ∅)
    (hr : Recorded w) (hinflight : w.pool.inflight = [])
    (hlog : w.log = tries n ++ replies.map .cb ++ [.setValue err]) : Ended w n replies err where
  log := hlog
  promise := by
    have hvalues := hr.values
    rw [hlog, List.filterMap_append, value_tries] at hvalues
    exact (Option.toList_eq_singleton_iff.1 hvalues.symm)
  deleted := by
    have hinits := hr.inits
    rw [hlog, List.filterMap_append, inited_tries] at hinits
    have hnext : n = w.pool.next := by
      simpa [List.filterMap_cons, Event.inited] using congrArg List.length hinits
    have hgone : ∀ k, w.pool.object k = none := fun k ↦ by
      have htag := hb.mem_tags k
      simpa [Pool.tags, hinflight] using htag
    refine (List.perm_ext_iff_of_nodup hb.deleted_nodup List.nodup_range).2 fun k ↦ ?_
    rw [hb.mem_deleted, List.mem_range, hnext]
    exact and_iff_left (hgone k)

section

variable [Inhabited RES] {N : ℕ} {tr : List ℕ}

/-- The invariant of a run. -/
structure Retrying (A : Client RES) (N : ℕ) (tr : List ℕ) (w : Chain RES) : Prop where
  leaves : Leaves A N ∅ start (attempts A N 0) w
  length_le : tr.length ≤ N + 1
  length_le_of_mem : ∀ k, (k, ()) ∈ w.pool.inflight → tr.length ≤ k

theorem exists_start (A : Client RES) (N : ℕ) :
    ∃ w, construct A (N + 1) start N true = some w ∧
      Leaves A N ∅ start (attempts A N 0) w := by
  obtain ⟨w, hw, hl⟩ := constructs_construct (A := A) (Nat.lt_succ_self N) (w := start)
    Pool.Balanced.empty ⟨rfl, rfl⟩ rfl
  refine ⟨w, hw, ?_⟩
  rwa [show (start : Chain RES).pool.next = 0 from rfl, Nat.zero_add] at hl

theorem Retrying.exists_deliver (hi : Retrying A N tr w) (hk : (k, ()) ∈ w.pool.inflight) :
    w.promise = none ∧ ∃ w', deliver A (construct A (N + 1))
      { w with pool := w.pool.complete (k, ()) } k = some w' ∧ Retrying A N (tr ++ [k]) w' := by
  have hb := hi.leaves.balanced
  have hlength := hi.length_le_of_mem k hk
  cases hi.leaves.settles with
  | done hinflight _ => simp [hinflight, start, Pool.empty] at hk
  | @waits j h hinflight hobject _ hnext hlast hpromise herror hunset hlog =>
    obtain rfl : k = j := by simpa [hinflight, start, Pool.empty] using hk
    have hbusy : insert k ∅ \ {k} = (∅ : Set ℕ) :=
      Set.insert_sdiff_self_of_notMem (Set.notMem_empty k)
    have hnone : (w.pool.complete (k, ())).inflight = [] := by
      simp [Pool.complete, hinflight, start, Pool.empty]
    obtain ⟨w', hw', hl⟩ := AsyncClientHandler.exists_deliver (A := A)
      (w := { w with pool := w.pool.complete (k, ()) }) (c := construct A (N + 1))
      (fun m hm ↦ constructs_construct (by omega)) (hb.complete hk)
      (hi.leaves.recorded.of_next rfl) hunset (Set.mem_insert k ∅) hnext hobject hpromise herror
    rw [hbusy, hlast] at hl
    refine ⟨hunset, w', hw', ⟨hl.balanced, hl.recorded,
      fun j hj ↦ absurd hj (Set.notMem_empty j), ?_⟩, ?_, ?_⟩
    · cases hl.settles with
      | done hi' hd => exact .done (hi'.trans hnone) (hd.trans hlog)
      | waits hi' ho _ hn hlast' hp he hu hd =>
        exact .waits (hi'.trans (by rw [hnone]; rfl)) ho (Nat.zero_le _) hn hlast' hp he hu
          (hd.trans hlog)
    · simp only [List.length_append, List.length_singleton]
      omega
    · intro j hj
      cases hl.settles with
      | done hi' _ => simp [hi', hnone] at hj
      | @waits j' _ hi' _ hnew _ _ _ _ _ _ =>
        obtain rfl : j = j' := by simpa [hi', hnone] using hj
        have hlt : k + 1 ≤ j := hnext.symm.le.trans hnew
        simp only [List.length_append, List.length_singleton]
        omega

theorem retrying_of_run (h : Run (system A N) tr w) : Retrying A N tr w := by
  induction h with
  | @nil w hw =>
    obtain ⟨w', hw', hl⟩ := exists_start A N
    obtain rfl := Option.some.inj (hw'.symm.trans hw)
    exact ⟨hl, Nat.zero_le _, fun _ _ ↦ Nat.zero_le _⟩
  | snoc _ hstep ih =>
    cases hstep with
    | handle hk hw =>
      obtain ⟨-, w', hw', hi⟩ := ih.exists_deliver hk
      obtain rfl := Option.some.inj (hw'.symm.trans hw)
      exact hi

/-- **A client request completes exactly once.** The constructor returns. A run handles at most
`N + 1` completions. While an attempt is in flight the promise is not set, and the completion can
be handled. When none is, every handler was deleted exactly once, and the promise was set once,
after the last attempt: to null, after `cb_` was called with the reply, if one of the first `N + 1`
attempts was the first to succeed, which was the last one made; to the error of attempt `N`
otherwise. -/
theorem client_completes_once (A : Client RES) (N : ℕ) :
    (∃ w, (system A N).init w) ∧
    ∀ tr w, Run (system A N) tr w →
      tr.length ≤ N + 1 ∧
      (w.pool.inflight ≠ [] →
        w.promise = none ∧ (∀ err, .setValue err ∉ w.log) ∧ ∃ k w', Step A N w k w') ∧
      (w.pool.inflight = [] →
        (∀ i ≤ N, FirstOk A i →
          Ended w (i + 1) (if A.cb then [A.reply i] else []) none) ∧
        ((∀ i ≤ N, (A.status i).ok = false) →
          Ended w (N + 1) [] (Egrpc.error (A.status N).message))) := by
  refine ⟨(exists_start A N).imp fun _ ↦ And.left, fun tr w h ↦ ?_⟩
  have hi := retrying_of_run h
  have hb := hi.leaves.balanced
  have hr := hi.leaves.recorded
  refine ⟨hi.length_le, fun hne ↦ ?_, fun hnil ↦ ?_⟩
  · obtain ⟨⟨k, _⟩, hk⟩ := List.exists_mem_of_ne_nil _ hne
    obtain ⟨hunset, w', hw', -⟩ := hi.exists_deliver hk
    refine ⟨hunset, fun err hmem ↦ ?_, k, w', .handle hk hw'⟩
    have hvalue : err ∈ w.log.filterMap Event.value := List.mem_filterMap.2 ⟨_, hmem, rfl⟩
    rw [hr.values, hunset] at hvalue
    exact List.not_mem_nil hvalue
  · have hlog : w.log = attempts A N 0 := by
      cases hi.leaves.settles with
      | done _ hlog => exact hlog
      | waits hinflight => simp [hnil] at hinflight
    refine ⟨fun i hin hok ↦ .of_log hb hr hnil ?_, fun hfail ↦ .of_log hb hr hnil ?_⟩
    · rw [hlog, attempts_of_firstOk hin hok, succeed]
      split <;> simp
    · rw [hlog, attempts_of_fail hfail]
      simp

end

/-- The first attempt fails inside `init_`, the second one succeeds. -/
theorem client_completes_once_two :
    ∃ w, Run (system ⟨true, fun k ↦ ⟨if k = 0 then 13 else 0, "error"⟩, id, (· == 0)⟩ 3) [1] w ∧
      w.pool.inflight = [] ∧ Ended w 2 [1] none := by
  have h := (Run.nil (S := system
    (⟨true, fun k ↦ ⟨if k = 0 then 13 else 0, "error"⟩, id, (· == 0)⟩ : Client ℕ) 3) rfl).snoc
    (Step.handle List.mem_cons_self rfl)
  exact ⟨_, h, rfl, ((client_completes_once _ 3).2 _ _ h).2.2 rfl |>.1 1 (by decide)
    ⟨rfl, by decide⟩⟩

end AsyncClientHandler

end Cppkg.Egrpc
