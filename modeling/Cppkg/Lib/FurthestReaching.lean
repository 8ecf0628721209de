import Cppkg.Lib.EditGraph
import Mathlib.Tactic.Linarith

/-!
# Furthest reaching points of an edit graph

On the diagonal `k` (points with `x - y = k`) the points reachable with `d` unit moves are
dominated by the one with the largest `x`, `furthest M d k`. Two facts make these points
computable row by row:

* `furthest_eq_of_isSnake`: the furthest point of row `d + 1` on diagonal `k` is found by
  entering the diagonal from the better of the two neighbours in row `d` (`rowStart`) and
  following it as long as diagonal steps are allowed (`IsSnake`);
* rows only have entries on diagonals of their own parity (`OnRow`), so successive rows do
  not interfere.

The choice between the two neighbours (`TakesIns`) prefers the insertion exactly when the
insertion side is **strictly** ahead; at the two border diagonals only one side exists. The
greedy path (`greedyPath`) follows these choices backwards from a furthest point to the
origin, and is a shortest path there (`greedyPath_spec`).
-/

namespace EditGraph

variable {M : ℕ → ℕ → Prop} {n m d x y : ℕ} {k : ℤ}

/-! ### Rows and diagonals -/

/-- The diagonals that `d` unit moves can end on. -/
def OnRow (d : ℕ) (k : ℤ) : Prop :=
  -d ≤ k ∧ k ≤ d ∧ (d + k) % 2 = 0

instance (d : ℕ) (k : ℤ) : Decidable (OnRow d k) :=
  inferInstanceAs (Decidable (-d ≤ k ∧ k ≤ d ∧ (d + k) % 2 = 0))

theorem Reach.onRow (h : Reach M d x y) : OnRow d (x - y) := by
  induction h with
  | zero => simp [OnRow]
  | keep _ _ ih => simp only [OnRow] at ih ⊢; omega
  | del _ ih => simp only [OnRow] at ih ⊢; omega
  | ins _ ih => simp only [OnRow] at ih ⊢; omega

/-- The first coordinates of the points of diagonal `k` reachable with `d` unit moves. -/
def reachSet (M : ℕ → ℕ → Prop) (d : ℕ) (k : ℤ) : Set ℕ :=
  {x | ∃ y : ℕ, (x : ℤ) - y = k ∧ Reach M d x y}

/-- The furthest reaching point of diagonal `k` with `d` unit moves. -/
noncomputable def furthest (M : ℕ → ℕ → Prop) (d : ℕ) (k : ℤ) : ℕ :=
  sSup (reachSet M d k)

theorem Reach.le_add (hM : Confined M n m) (h : Reach M d x y) : x ≤ n + d := by
  induction h with
  | zero => omega
  | @keep d x y _ hk _ => have := (hM _ _ hk).1; omega
  | del _ ih => omega
  | ins _ ih => omega

theorem bddAbove_reachSet (hM : Confined M n m) (d : ℕ) (k : ℤ) :
    BddAbove (reachSet M d k) :=
  ⟨n + d, fun _ ⟨_, _, h⟩ ↦ h.le_add hM⟩

theorem OnRow.reachSet_nonempty (hk : OnRow d k) : (reachSet M d k).Nonempty := by
  obtain ⟨h₁, h₂, h₃⟩ := hk
  obtain ⟨a, ha⟩ : ∃ a : ℕ, (a : ℤ) = (d + k) / 2 := ⟨((d + k) / 2).toNat, by omega⟩
  obtain ⟨b, hb⟩ : ∃ b : ℕ, (b : ℤ) = (d - k) / 2 := ⟨((d - k) / 2).toNat, by omega⟩
  have hd : d = a + b := by omega
  exact ⟨a, b, by omega, hd ▸ reach_add M a b⟩

theorem le_furthest (hM : Confined M n m) (h : Reach M d x y) (hk : (x : ℤ) - y = k) :
    x ≤ furthest M d k :=
  le_csSup (bddAbove_reachSet hM d k) ⟨y, hk, h⟩

theorem reach_furthest (hM : Confined M n m) (hk : OnRow d k) :
    ∃ y : ℕ, (furthest M d k : ℤ) - y = k ∧ Reach M d (furthest M d k) y :=
  Nat.sSup_mem hk.reachSet_nonempty (bddAbove_reachSet hM d k)

/-- A point is furthest when it is reachable and nothing beyond it is. -/
theorem furthest_eq (hM : Confined M n m) (h : Reach M d x y) (hk : (x : ℤ) - y = k)
    (hmax : ∀ x' y' : ℕ, Reach M d x' y' → (x' : ℤ) - y' = k → x' ≤ x) :
    furthest M d k = x := by
  have hrow : OnRow d k := hk ▸ h.onRow
  obtain ⟨y', hy', hr⟩ := reach_furthest hM hrow
  exact le_antisymm (hmax _ _ hr hy') (le_furthest hM h hk)

/-- The furthest reaching point in terms of paths. -/
theorem isGreatest_furthest (hM : Confined M n m) (hk : OnRow d k) :
    IsGreatest {x : ℕ | ∃ y p, Path M 0 0 p x y ∧ cost p = d ∧ (x : ℤ) - y = k}
      (furthest M d k) := by
  constructor
  · obtain ⟨y, hy, hr⟩ := reach_furthest hM hk
    obtain ⟨p, hp, hc⟩ := reach_iff_path.1 hr
    exact ⟨y, p, hp, hc, hy⟩
  · rintro x ⟨y, p, hp, hc, hy⟩
    exact le_furthest hM (reach_iff_path.2 ⟨p, hp, hc⟩) hy

/-! ### Snakes -/

/-- A snake on diagonal `k`: the diagonal steps from `s` on are all allowed up to `e`, and
the one at `e` is not. -/
structure IsSnake (M : ℕ → ℕ → Prop) (k : ℤ) (s e : ℕ) : Prop where
  le : s ≤ e
  step : ∀ i j : ℕ, s ≤ i → i < e → (i : ℤ) - j = k → M i j
  stop : ∀ j : ℕ, (e : ℤ) - j = k → ¬ M e j

theorem exists_isSnake (hM : Confined M n m) (k : ℤ) (s : ℕ) : ∃ e, IsSnake M k s e := by
  classical
  have hex : ∃ t, ∀ j : ℕ, ((s + t : ℕ) : ℤ) - j = k → ¬ M (s + t) j :=
    ⟨n, fun j _ h ↦ by have := (hM _ _ h).1; omega⟩
  -- up to the first place where the diagonal stops
  refine ⟨s + Nat.find hex, by omega, fun i j hs hi hk ↦ ?_, Nat.find_spec hex⟩
  have hmin := Nat.find_min hex (m := i - s) (by omega)
  rw [show s + (i - s) = i by omega] at hmin
  push Not at hmin
  obtain ⟨j', hj', hM'⟩ := hmin
  rwa [show j = j' by omega]

/-- A snake that cannot leave its start. -/
theorem isSnake_self (hk : (x : ℤ) - y = k) (h : ¬ M x y) : IsSnake M k x x where
  le := le_rfl
  step i j hx he := by omega
  stop j hj := by rwa [show j = y by omega]

/-- A snake with one more diagonal step at its start. -/
theorem IsSnake.extend {e : ℕ} (hs : IsSnake M k (x + 1) e) (hk : (x : ℤ) - y = k) (h : M x y) :
    IsSnake M k x e where
  le := (Nat.le_succ x).trans hs.le
  step i j hx he hj := by
    rcases Nat.eq_or_lt_of_le hx with rfl | hlt
    · rwa [show j = y by omega]
    · exact hs.step i j hlt he hj
  stop := hs.stop

/-- The diagonal steps of a snake. -/
theorem IsSnake.path {e : ℕ} (hs : IsSnake M k x e) (hk : (x : ℤ) - y = k) :
    Path M x y (List.replicate (e - x) .keep) e (y + (e - x)) := by
  have hp : Path M x y (List.replicate (e - x) .keep) (x + (e - x)) (y + (e - x)) :=
    path_replicate_keep.2 fun t ht ↦ hs.step _ _ (by omega) (by omega) (by push_cast; omega)
  rwa [Nat.add_sub_cancel' hs.le] at hp

theorem Reach.snake {e : ℕ} (hs : IsSnake M k x e) (h : Reach M d x y)
    (hk : (x : ℤ) - y = k) : Reach M d e (y + (e - x)) := by
  have hr := h.trans (hs.path hk)
  rwa [cost_replicate_keep, Nat.add_zero] at hr

/-- Nothing passes the end of a snake without having entered the diagonal beyond its
start. The induction is on the last move: a diagonal step from `e` is not allowed, and any
other last move is an entry. -/
theorem Reach.le_of_isSnake {s e : ℕ} (hs : IsSnake M k s e)
    (hdel : ∀ d' x' y', d = d' + 1 → Reach M d' x' y' → (x' : ℤ) - y' = k - 1 → x' + 1 ≤ s)
    (hins : ∀ d' x' y', d = d' + 1 → Reach M d' x' y' → (x' : ℤ) - y' = k + 1 → x' ≤ s)
    (h : Reach M d x y) (hk : (x : ℤ) - y = k) : x ≤ e := by
  have hle := hs.le
  induction h with
  | zero => omega
  | @keep d x y _ hM ih =>
    have hx : x ≤ e := ih hdel hins (by omega)
    rcases Nat.lt_or_ge x e with hlt | hge
    · omega
    · have hxe : x = e := by omega
      exact absurd (hxe ▸ hM) (hs.stop y (by omega))
  | @del d x y h _ =>
    have := hdel d x y rfl h (by omega)
    omega
  | @ins d x y h _ =>
    have := hins d x y rfl h (by omega)
    omega

/-! ### The recurrence -/

/-- On entering diagonal `k` in row `d + 1`, the insertion from diagonal `k + 1` is taken
when `k` is the lower border, or when the other side exists and is strictly behind. -/
def TakesIns (M : ℕ → ℕ → Prop) (d : ℕ) (k : ℤ) : Prop :=
  k = -((d + 1 : ℕ) : ℤ) ∨
    (k ≠ ((d + 1 : ℕ) : ℤ) ∧ furthest M d (k - 1) < furthest M d (k + 1))

open Classical in
/-- Where row `d + 1` enters diagonal `k`. -/
noncomputable def rowStart (M : ℕ → ℕ → Prop) (d : ℕ) (k : ℤ) : ℕ :=
  if TakesIns M d k then furthest M d (k + 1) else furthest M d (k - 1) + 1

theorem rowStart_of_takesIns (h : TakesIns M d k) : rowStart M d k = furthest M d (k + 1) :=
  if_pos h

theorem rowStart_of_not_takesIns (h : ¬ TakesIns M d k) :
    rowStart M d k = furthest M d (k - 1) + 1 :=
  if_neg h

/-- The neighbour an insertion comes from is on the previous row. -/
theorem TakesIns.onRow (hk : OnRow (d + 1) k) (h : TakesIns M d k) : OnRow d (k + 1) := by
  obtain ⟨h₁, h₂, h₃⟩ := hk
  rcases h with h | ⟨h, -⟩ <;> refine ⟨?_, ?_, ?_⟩ <;> omega

/-- The neighbour a deletion comes from is on the previous row. -/
theorem onRow_of_not_takesIns (hk : OnRow (d + 1) k) (h : ¬ TakesIns M d k) :
    OnRow d (k - 1) := by
  obtain ⟨h₁, h₂, h₃⟩ := hk
  have hne : k ≠ -((d + 1 : ℕ) : ℤ) := fun he ↦ h (Or.inl he)
  refine ⟨?_, ?_, ?_⟩ <;> omega

theorem reach_rowStart (hM : Confined M n m) (hk : OnRow (d + 1) k) :
    ∃ y : ℕ, (rowStart M d k : ℤ) - y = k ∧ Reach M (d + 1) (rowStart M d k) y := by
  by_cases ht : TakesIns M d k
  · obtain ⟨y, hy, hr⟩ := reach_furthest hM (ht.onRow hk)
    rw [rowStart_of_takesIns ht]
    exact ⟨y + 1, by push_cast; omega, hr.ins⟩
  · obtain ⟨y, hy, hr⟩ := reach_furthest hM (onRow_of_not_takesIns hk ht)
    rw [rowStart_of_not_takesIns ht]
    exact ⟨y, by push_cast; omega, hr.del⟩

/-- The start of a row is at least as far as either neighbour allows. -/
theorem le_rowStart_of_del (hM : Confined M n m) (h : Reach M d x y)
    (hk : (x : ℤ) - y = k - 1) : x + 1 ≤ rowStart M d k := by
  have hx := le_furthest hM h hk
  have hrow := h.onRow
  by_cases ht : TakesIns M d k
  · rw [rowStart_of_takesIns ht]
    rcases ht with ht | ⟨-, ht⟩
    · -- at the lower border there is no such neighbour
      simp only [OnRow] at hrow; omega
    · omega
  · rw [rowStart_of_not_takesIns ht]
    omega

theorem le_rowStart_of_ins (hM : Confined M n m) (h : Reach M d x y)
    (hk : (x : ℤ) - y = k + 1) : x ≤ rowStart M d k := by
  have hx := le_furthest hM h hk
  have hrow := h.onRow
  by_cases ht : TakesIns M d k
  · rw [rowStart_of_takesIns ht]
    omega
  · rw [rowStart_of_not_takesIns ht]
    have hne : k ≠ ((d + 1 : ℕ) : ℤ) := fun he ↦ by simp only [OnRow] at hrow; omega
    have hge : ¬ furthest M d (k - 1) < furthest M d (k + 1) :=
      fun hlt ↦ ht (Or.inr ⟨hne, hlt⟩)
    omega

/-- Where row `d` enters diagonal `k`; row `0` starts at the origin. -/
noncomputable def rowEntry (M : ℕ → ℕ → Prop) : ℕ → ℤ → ℕ
  | 0, _ => 0
  | d + 1, k => rowStart M d k

theorem reach_rowEntry (hM : Confined M n m) (hk : OnRow d k) :
    ∃ y : ℕ, (rowEntry M d k : ℤ) - y = k ∧ Reach M d (rowEntry M d k) y := by
  cases d with
  | zero =>
    obtain rfl : k = 0 := by simp only [OnRow] at hk; omega
    exact ⟨0, by simp [rowEntry], Reach.zero⟩
  | succ d => exact reach_rowStart hM hk

/-- **The furthest reaching recurrence.** The furthest point of a row on a diagonal is the
end of the snake from the row's entry. -/
theorem furthest_eq_of_isSnake {e : ℕ} (hM : Confined M n m) (hk : OnRow d k)
    (hs : IsSnake M k (rowEntry M d k) e) : furthest M d k = e := by
  obtain ⟨y, hy, hr⟩ := reach_rowEntry hM hk
  have hle := hs.le
  refine furthest_eq hM (hr.snake hs hy) (by push_cast; omega) fun x' y' h hk' ↦ ?_
  refine h.le_of_isSnake hs ?_ ?_ hk'
  · rintro d' x' y' rfl h hk'
    exact le_rowStart_of_del hM h hk'
  · rintro d' x' y' rfl h hk'
    exact le_rowStart_of_ins hM h hk'

theorem isSnake_furthest (hM : Confined M n m) (hk : OnRow d k) :
    IsSnake M k (rowEntry M d k) (furthest M d k) := by
  obtain ⟨e, he⟩ := exists_isSnake hM k (rowEntry M d k)
  rwa [furthest_eq_of_isSnake hM hk he]

/-! ### The greedy path -/

open Classical in
/-- The path that leads from the origin to the furthest reaching point `(x, y)` of row `d`,
read off backwards: undo the snake, undo the unit move the row entered the diagonal with,
and go on from the furthest reaching point of the previous row. -/
noncomputable def greedyPath (M : ℕ → ℕ → Prop) : ℕ → ℕ → ℕ → List Move
  | 0, x, _ => List.replicate x .keep
  | d + 1, x, y =>
    let k : ℤ := x - y
    let s := rowStart M d k
    if TakesIns M d k then
      greedyPath M d s (s - (k + 1)).toNat ++ .ins :: List.replicate (x - s) .keep
    else
      greedyPath M d (s - 1) (s - k).toNat ++ .del :: List.replicate (x - s) .keep

theorem greedyPath_zero (x y : ℕ) : greedyPath M 0 x y = List.replicate x .keep :=
  rfl

theorem greedyPath_of_takesIns (hk : (x : ℤ) - y = k) (ht : TakesIns M d k) :
    greedyPath M (d + 1) x y =
      greedyPath M d (furthest M d (k + 1)) (furthest M d (k + 1) - (k + 1)).toNat ++
        .ins :: List.replicate (x - rowStart M d k) .keep := by
  subst hk
  simp only [greedyPath, if_pos ht, rowStart_of_takesIns ht]

theorem greedyPath_of_not_takesIns (hk : (x : ℤ) - y = k) (ht : ¬ TakesIns M d k) :
    greedyPath M (d + 1) x y =
      greedyPath M d (furthest M d (k - 1)) (furthest M d (k - 1) - (k - 1)).toNat ++
        .del :: List.replicate (x - rowStart M d k) .keep := by
  subst hk
  simp only [greedyPath, if_neg ht, rowStart_of_not_takesIns ht, Nat.add_sub_cancel]
  congr 2
  push_cast
  omega

/-- The greedy path to a furthest reaching point is a path with exactly `d` unit moves. -/
theorem greedyPath_spec (hM : Confined M n m) (hk : (x : ℤ) - y = k) (hrow : OnRow d k)
    (hx : x = furthest M d k) :
    Path M 0 0 (greedyPath M d x y) x y ∧ cost (greedyPath M d x y) = d := by
  induction d generalizing x y k with
  | zero =>
    obtain rfl : k = 0 := by simp only [OnRow] at hrow; omega
    obtain rfl : y = x := by omega
    have hs := isSnake_furthest hM hrow
    rw [← hx, rowEntry] at hs
    have hp := hs.path (y := 0) rfl
    rw [Nat.sub_zero, Nat.zero_add] at hp
    exact ⟨hp, cost_replicate_keep y⟩
  | succ d ih =>
    have hs := isSnake_furthest hM hrow
    rw [← hx, rowEntry] at hs
    have hle := hs.le
    by_cases ht : TakesIns M d k
    · obtain ⟨y', hy', hr⟩ := reach_furthest hM (ht.onRow hrow)
      have hstart := rowStart_of_takesIns ht
      have hy'' : (furthest M d (k + 1) - (k + 1)).toNat = y' := by omega
      obtain ⟨hp, hc⟩ := ih hy' (ht.onRow hrow) rfl
      rw [greedyPath_of_takesIns hk ht, hy'', cost_append, cost_ins, cost_replicate_keep, hc]
      refine ⟨hp.append (.ins ?_), rfl⟩
      have hsnake := hs.path (y := y' + 1) (by omega)
      rw [show y' + 1 + (x - rowStart M d k) = y by omega] at hsnake
      rwa [← hstart]
    · have hrow' := onRow_of_not_takesIns hrow ht
      obtain ⟨y', hy', hr⟩ := reach_furthest hM hrow'
      have hstart := rowStart_of_not_takesIns ht
      have hy'' : (furthest M d (k - 1) - (k - 1)).toNat = y' := by omega
      obtain ⟨hp, hc⟩ := ih hy' hrow' rfl
      rw [greedyPath_of_not_takesIns hk ht, hy'', cost_append, cost_del, cost_replicate_keep,
        hc]
      refine ⟨hp.append (.del ?_), rfl⟩
      have hsnake := hs.path (y := y') (by omega)
      rw [show y' + (x - rowStart M d k) = y by omega] at hsnake
      rwa [← hstart]

end EditGraph
