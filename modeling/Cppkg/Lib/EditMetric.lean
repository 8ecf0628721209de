import Cppkg.Lib.ShortestPath

/-!
# Edit distance as a metric

Edit paths between two sequences can be read backwards, with deletions and insertions exchanged
(`Path.flip`), and edit paths over a common sequence in the middle can be composed: what one path
inserts and the other deletes cancels out (`Path.comp`). For the edit distances this is symmetry
and the triangle inequality, each between the relations of the sequences involved.

The recursive equations (`editDistance_succ_of_rel`, `editDistance_succ_of_not`) compute the edit
distance from those of shorter sequences. That a diagonal step at the start may always be taken
rests on `Path.skip`: to leave out one element of a sequence costs no more than one move.
-/

namespace EditGraph

variable {M N P : ℕ → ℕ → Prop} {i j k n m l : ℕ} {p q : List Move}

/-! ### Backwards -/

/-- The move seen from the other sequence. -/
def Move.flip : Move → Move
  | .keep => .keep
  | .del => .ins
  | .ins => .del

theorem cost_map_flip (p : List Move) : cost (p.map Move.flip) = cost p := by
  induction p with
  | nil => rfl
  | cons a p ih => cases a <;> simp [Move.flip, ih]

theorem Path.flip (h : Path M i j p n m) :
    Path (fun b a ↦ M a b) j i (p.map Move.flip) m n := by
  induction h with
  | nil => exact .nil _ _
  | keep hM _ ih => exact .keep hM ih
  | del _ ih => exact .ins ih
  | ins _ ih => exact .del ih

theorem editDistance_flip_le (M : ℕ → ℕ → Prop) (n m : ℕ) :
    editDistance (fun b a ↦ M a b) m n ≤ editDistance M n m := by
  obtain ⟨p, hp, hc⟩ := reach_iff_path.1 (reach_editDistance M n m)
  rw [← hc, ← cost_map_flip p]
  exact editDistance_le_cost hp.flip

/-- **Symmetry.** -/
theorem editDistance_flip (M : ℕ → ℕ → Prop) (n m : ℕ) :
    editDistance (fun b a ↦ M a b) m n = editDistance M n m :=
  Nat.le_antisymm (editDistance_flip_le M n m) (editDistance_flip_le (fun b a ↦ M a b) m n)

/-! ### Composition -/

/-- A path that stays where it is in the first sequence consists of insertions, which may be
made anywhere. -/
theorem Path.of_width_eq_zero (h : Path N j k q m l) (hw : width q = 0) (i : ℕ) :
    Path P i k q i l := by
  induction h with
  | nil => exact .nil _ _
  | keep => simp at hw
  | del => simp at hw
  | ins _ ih => exact .ins (ih (by simpa using hw))

/-- **Composition.** The induction is on the path on the left; a position in the middle that it
inserts or keeps is met by the path on the right after some insertions of its own. -/
theorem Path.comp (hcomp : ∀ i j k, M i j → N j k → P i k) (hp : Path M i j p n m)
    (hq : Path N j k q m l) : ∃ r, Path P i k r n l ∧ cost r ≤ cost p + cost q := by
  induction hp generalizing k q with
  | nil i j =>
    have hw : width q = 0 := by
      have := hq.end_eq.1
      omega
    exact ⟨q, hq.of_width_eq_zero hw i, Nat.le_add_left _ _⟩
  | @del i j n m p h ih =>
    obtain ⟨r, hr, hc⟩ := ih hq
    refine ⟨.del :: r, .del hr, ?_⟩
    rw [cost_del, cost_del]
    omega
  | @keep i j n m p hM h ih =>
    induction q generalizing k with
    | nil =>
      have hend := h.end_eq.2
      cases hq
      omega
    | cons a q ihq =>
      cases hq with
      | keep hN hq =>
        obtain ⟨r, hr, hc⟩ := ih hq
        exact ⟨.keep :: r, .keep (hcomp _ _ _ hM hN) hr, by simpa using hc⟩
      | del hq =>
        obtain ⟨r, hr, hc⟩ := ih hq
        refine ⟨.del :: r, .del hr, ?_⟩
        rw [cost_keep, cost_del, cost_del]
        omega
      | ins hq =>
        obtain ⟨r, hr, hc⟩ := ihq hq
        refine ⟨.ins :: r, .ins hr, ?_⟩
        rw [cost_ins, cost_ins]
        omega
  | @ins i j n m p h ih =>
    induction q generalizing k with
    | nil =>
      have hend := h.end_eq.2
      cases hq
      omega
    | cons a q ihq =>
      cases hq with
      | keep hN hq =>
        obtain ⟨r, hr, hc⟩ := ih hq
        refine ⟨.ins :: r, .ins hr, ?_⟩
        rw [cost_ins, cost_ins, cost_keep]
        omega
      | del hq =>
        -- inserted on the left and deleted on the right
        obtain ⟨r, hr, hc⟩ := ih hq
        refine ⟨r, hr, ?_⟩
        rw [cost_ins, cost_del]
        omega
      | ins hq =>
        obtain ⟨r, hr, hc⟩ := ihq hq
        refine ⟨.ins :: r, .ins hr, ?_⟩
        rw [cost_ins (p := r), cost_ins (p := q)]
        omega

/-- **The triangle inequality.** -/
theorem editDistance_triangle (hcomp : ∀ i j k, M i j → N j k → P i k) (n m l : ℕ) :
    editDistance P n l ≤ editDistance M n m + editDistance N m l := by
  obtain ⟨p, hp, hcp⟩ := reach_iff_path.1 (reach_editDistance M n m)
  obtain ⟨q, hq, hcq⟩ := reach_iff_path.1 (reach_editDistance N m l)
  obtain ⟨r, hr, hc⟩ := hp.comp hcomp hq
  rw [← hcp, ← hcq]
  exact (editDistance_le_cost hr).trans hc

/-! ### Distances that are known -/

/-- **Identity.** Only sequences that agree position by position have no distance. -/
theorem editDistance_eq_zero_iff : editDistance M n m = 0 ↔ n = m ∧ ∀ i < n, M i i := by
  constructor
  · intro h
    have hr := reach_editDistance M n m
    have hrow := onRow_editDistance M n m
    rw [h] at hr hrow
    obtain rfl : n = m := by
      simp only [OnRow] at hrow
      omega
    exact ⟨rfl, reach_zero_iff.1 hr⟩
  · rintro ⟨rfl, h⟩
    exact Nat.le_zero.1 (editDistance_le (reach_zero_iff.2 h))

/-! ### Recursive equations -/

theorem Path.skip (h : Path M i j p n m) (hj : j < m) :
    ∃ q, Path M i (j + 1) q n m ∧ cost q ≤ cost p + 1 := by
  induction h with
  | nil => exact absurd hj (Nat.lt_irrefl _)
  | @keep i j n m p hM h _ =>
    refine ⟨.del :: p, .del h, ?_⟩
    rw [cost_del, cost_keep]
  | @del i j n m p h ih =>
    obtain ⟨q, hq, hc⟩ := ih hj
    refine ⟨.del :: q, .del hq, ?_⟩
    rw [cost_del, cost_del]
    omega
  | @ins i j n m p h _ =>
    refine ⟨p, h, ?_⟩
    rw [cost_ins]
    omega

theorem Path.skip_left (h : Path M i j p n m) (hi : i < n) :
    ∃ q, Path M (i + 1) j q n m ∧ cost q ≤ cost p + 1 := by
  obtain ⟨q, hq, hc⟩ := h.flip.skip hi
  rw [cost_map_flip] at hc
  exact ⟨_, hq.flip, (cost_map_flip q).le.trans hc⟩

/-- The origin may be moved. -/
theorem path_shift (a b : ℕ) :
    Path (fun i j ↦ M (i + a) (j + b)) i j p n m ↔ Path M (i + a) (j + b) p (n + a) (m + b) := by
  constructor
  · intro h
    induction h with
    | nil => exact .nil _ _
    | keep hM _ ih => exact .keep hM (by rwa [Nat.add_right_comm, Nat.add_right_comm _ 1 b] at ih)
    | del _ ih => exact .del (by rwa [Nat.add_right_comm] at ih)
    | ins _ ih => exact .ins (by rwa [Nat.add_right_comm _ 1 b] at ih)
  · intro h
    induction p generalizing i j with
    | nil =>
      obtain ⟨hi, hj⟩ := h.end_eq
      obtain rfl : n = i := by simpa using hi
      obtain rfl : m = j := by simpa using hj
      exact .nil _ _
    | cons c p ih =>
      cases h with
      | keep hM h => exact .keep hM (ih (by rwa [Nat.add_right_comm, Nat.add_right_comm _ 1 b]))
      | del h => exact .del (ih (by rwa [Nat.add_right_comm]))
      | ins h => exact .ins (ih (by rwa [Nat.add_right_comm _ 1 b]))

theorem editDistance_shift_le_cost {a b : ℕ} (h : Path M a b p (n + a) (m + b)) :
    editDistance (fun i j ↦ M (i + a) (j + b)) n m ≤ cost p := by
  refine editDistance_le_cost ((path_shift a b).2 ?_)
  rwa [Nat.zero_add, Nat.zero_add]

theorem exists_path_shift (M : ℕ → ℕ → Prop) (a b n m : ℕ) :
    ∃ p, Path M a b p (n + a) (m + b) ∧
      cost p = editDistance (fun i j ↦ M (i + a) (j + b)) n m := by
  obtain ⟨p, hp, hc⟩ :=
    reach_iff_path.1 (reach_editDistance (fun i j ↦ M (i + a) (j + b)) n m)
  have hp' := (path_shift a b).1 hp
  rw [Nat.zero_add, Nat.zero_add] at hp'
  exact ⟨p, hp', hc⟩

/-- **A diagonal step at the start is taken.** -/
theorem editDistance_succ_of_rel (h : M 0 0) (n m : ℕ) :
    editDistance M (n + 1) (m + 1) = editDistance (fun i j ↦ M (i + 1) (j + 1)) n m := by
  apply Nat.le_antisymm
  · obtain ⟨p, hp, hc⟩ := exists_path_shift M 1 1 n m
    rw [← hc, ← cost_keep p]
    exact editDistance_le_cost (.keep h hp)
  · obtain ⟨p, hp, hc⟩ := reach_iff_path.1 (reach_editDistance M (n + 1) (m + 1))
    rw [← hc]
    cases hp with
    | keep _ hp => simpa using editDistance_shift_le_cost hp
    | del hp =>
      obtain ⟨q, hq, hle⟩ := hp.skip (Nat.succ_pos m)
      rw [cost_del]
      exact (editDistance_shift_le_cost hq).trans hle
    | ins hp =>
      obtain ⟨q, hq, hle⟩ := hp.skip_left (Nat.succ_pos n)
      rw [cost_ins]
      exact (editDistance_shift_le_cost hq).trans hle

/-- **Without one, the shorter way of the two begins with a unit move.** -/
theorem editDistance_succ_of_not (h : ¬ M 0 0) (n m : ℕ) :
    editDistance M (n + 1) (m + 1) =
      min (editDistance (fun i j ↦ M (i + 1) j) n (m + 1))
        (editDistance (fun i j ↦ M i (j + 1)) (n + 1) m) + 1 := by
  apply Nat.le_antisymm
  · rw [← Nat.add_min_add_right]
    refine le_min ?_ ?_
    · obtain ⟨p, hp, hc⟩ := exists_path_shift M 1 0 n (m + 1)
      have hle := editDistance_le_cost (.del hp)
      rw [cost_del, hc] at hle
      exact hle
    · obtain ⟨p, hp, hc⟩ := exists_path_shift M 0 1 (n + 1) m
      have hle := editDistance_le_cost (.ins hp)
      rw [cost_ins, hc] at hle
      exact hle
  · obtain ⟨p, hp, hc⟩ := reach_iff_path.1 (reach_editDistance M (n + 1) (m + 1))
    rw [← hc]
    cases hp with
    | keep hM _ => exact absurd hM h
    | @del _ _ _ _ p hp =>
      rw [cost_del]
      have hle : editDistance (fun i j ↦ M (i + 1) j) n (m + 1) ≤ cost p :=
        editDistance_shift_le_cost (a := 1) (b := 0) hp
      exact Nat.succ_le_succ ((min_le_left _ _).trans hle)
    | @ins _ _ _ _ p hp =>
      rw [cost_ins]
      have hle : editDistance (fun i j ↦ M i (j + 1)) (n + 1) m ≤ cost p :=
        editDistance_shift_le_cost (a := 0) (b := 1) hp
      exact Nat.succ_le_succ ((min_le_right _ _).trans hle)

end EditGraph
