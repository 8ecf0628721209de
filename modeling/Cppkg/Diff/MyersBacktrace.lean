import Cppkg.Diff.MyersTrace

/-!
# The backtrace follows the greedy path

From the corner back, the backtrace makes at every row the choice the search made when it
entered the diagonal (`prevDiagonal_spec`), because it compares the same two entries of the
row before. So the points it lists are the starts of the moves of the shortest path that
the search found, in reverse (`myersDiffBacktrace_spec`), and the difference list holds one
entry for every move (`Entries`), in order: `myersDiff_spec` is the characterization every
property of `myers_diff` is read off from.

The last row has no row before it. Its entries are all zero, so the backtrace steps to the
fictitious point `(0, -1)` on diagonal `1`, and the walk back stops at the origin.

The bound `16383` is where the row length stops fitting the 16-bit `ncost`.
-/

namespace Cppkg.Differ

open EditGraph

variable {α : Type} {comparator : α → α → Bool} {orig updated : List α}

/-- A point of the edit graph as the code stores it. -/
def toPoint (q : ℕ × ℕ) : PointT := ((q.1 : ℤ), (q.2 : ℤ))

/-! ### Walking back along a snake -/

theorem walkBack_spec {prevX prevY : ℤ} {s s' l : ℕ} (t : ℕ) (hx : prevX ≤ s) (hy : prevY ≤ s')
    (hstop : ¬ (prevX < s ∧ prevY < s')) (hs : s + l ≤ 32767) (hs' : s' + l ≤ 32767)
    (ht : l ≤ t) (points : List PointT) :
    walkBack prevX prevY t ((s + l : ℕ) : ℤ) ((s' + l : ℕ) : ℤ) points =
      points ++ ((starts s s' (List.replicate l .keep)).reverse.map toPoint) := by
  induction l generalizing t points with
  | zero =>
    cases t with
    | zero => simp [walkBack]
    | succ t =>
      simp only [Nat.add_zero]
      rw [walkBack, if_neg hstop]
      simp
  | succ l ih =>
    obtain ⟨t, rfl⟩ : ∃ u, t = u + 1 := ⟨t - 1, by omega⟩
    have hgo : prevX < ((s + (l + 1) : ℕ) : ℤ) ∧ prevY < ((s' + (l + 1) : ℕ) : ℤ) := by omega
    have hx' : toInt16 (((s + (l + 1) : ℕ) : ℤ) - 1) = ((s + l : ℕ) : ℤ) := by
      rw [toInt16_of_bounds (by omega) (by omega)]
      omega
    have hy' : toInt16 (((s' + (l + 1) : ℕ) : ℤ) - 1) = ((s' + l : ℕ) : ℤ) := by
      rw [toInt16_of_bounds (by omega) (by omega)]
      omega
    rw [walkBack, if_pos hgo, hx', hy', ih t (by omega) (by omega) (by omega),
      starts_replicate_keep_succ, List.reverse_append, List.map_append, List.append_assoc]
    rfl

/-! ### Reading the trace -/

/-- The `int` expression of the backtrace and the `size_t` expression of the search agree. -/
theorem traceSlot_eq {L iedit : ℕ} {k : ℤ} (h₁ : 0 ≤ L + k)
    (h₂ : L + k < 18446744073709551616) :
    traceSlot (L : ℤ) (iedit : ℤ) k = ((iedit * L + diagSlot L k : ℕ) : ℤ) := by
  rw [traceSlot, Int.tmod_eq_emod_of_nonneg h₁, diagSlot, toSizeT_of_bounds h₁ h₂]
  push_cast
  rw [Int.toNat_of_nonneg h₁]

section Trace

variable {d : ℕ} {k : ℤ} {traces : List IndexT}

theorem TraceInv.readAt_row (hN : orig.length + updated.length ≤ 16383)
    (tinv : TraceInv comparator orig updated (distance comparator orig updated + 1) traces)
    (hd : d + 1 ≤ distance comparator orig updated) (hk : OnRow d k) :
    readAt traces (traceSlot (rowLength orig updated : ℤ) ((d + 1 : ℕ) : ℤ) k) =
      .ok (furthest (Compares comparator orig updated) d k : ℤ) := by
  have hdN := hd.trans (distance_le_add _ _ _)
  have hk₁ := hk.1
  have hk₂ := hk.2.1
  rw [traceSlot_eq (by push_cast; omega) (by push_cast; omega)]
  exact readAt_of_getElem? (tinv.row d (by omega) k hk)

/-- The backtrace chooses the neighbour the search entered the diagonal from. -/
theorem prevDiagonal_spec (hN : orig.length + updated.length ≤ 16383)
    (tinv : TraceInv comparator orig updated (distance comparator orig updated + 1) traces)
    (hd : d + 1 ≤ distance comparator orig updated) (hk : OnRow (d + 1) k) :
    (TakesIns (Compares comparator orig updated) d k →
      prevDiagonal traces (rowLength orig updated : ℤ) ((d + 1 : ℕ) : ℤ) k = .ok (k + 1)) ∧
    (¬ TakesIns (Compares comparator orig updated) d k →
      prevDiagonal traces (rowLength orig updated : ℤ) ((d + 1 : ℕ) : ℤ) k = .ok (k - 1)) := by
  have hdN := hd.trans (distance_le_add _ _ _)
  have hk' := hk
  obtain ⟨hk₁, hk₂, hk₃⟩ := hk'
  have hup : toInt16 (k + 1) = k + 1 := toInt16_of_bounds (by omega) (by omega)
  have hdown : toInt16 (k - 1) = k - 1 := toInt16_of_bounds (by omega) (by omega)
  by_cases hlow : k = -((d + 1 : ℕ) : ℤ)
  · refine ⟨fun _ ↦ by rw [prevDiagonal, if_pos hlow, hup], fun h ↦ absurd (Or.inl hlow) h⟩
  · by_cases hhigh : k = ((d + 1 : ℕ) : ℤ)
    · -- at the upper border nothing is read
      refine ⟨fun h ↦ ?_, fun _ ↦ ?_⟩
      · rcases h with h | ⟨h, -⟩
        · exact absurd h hlow
        · exact absurd hhigh h
      · rw [prevDiagonal, if_neg hlow, if_neg (not_not.2 hhigh), hdown]
    · have hprev : OnRow d (k - 1) := ⟨by omega, by omega, by omega⟩
      have hnext : OnRow d (k + 1) := ⟨by omega, by omega, by omega⟩
      have hiff : TakesIns (Compares comparator orig updated) d k ↔
          (furthest (Compares comparator orig updated) d (k - 1) : ℤ) <
            furthest (Compares comparator orig updated) d (k + 1) := by
        rw [TakesIns, Nat.cast_lt]
        exact ⟨fun h ↦ h.elim (fun h ↦ absurd h hlow) And.right, fun h ↦ Or.inr ⟨hhigh, h⟩⟩
      rw [prevDiagonal, if_neg hlow, if_pos hhigh, tinv.readAt_row hN hd hprev,
        tinv.readAt_row hN hd hnext, hup, hdown]
      simp only [bind, Except.bind]
      exact ⟨fun h ↦ by rw [if_pos (hiff.1 h)], fun h ↦ by rw [if_neg (mt hiff.2 h)]⟩

/-! ### The rows of the backtrace -/

/-- One row of the backtrace: back along the snake from `(s, s')`, then to the point
`(px, py)` that the snake was entered from. -/
theorem backtraceRows_step {ncost : ℤ} {px py s s' l x y : ℕ} {points : List PointT}
    (hprev : prevDiagonal traces ncost ((d + 1 : ℕ) : ℤ) (toInt16 ((x : ℤ) - y)) = .ok k)
    (hread : readAt traces (traceSlot ncost ((d + 1 : ℕ) : ℤ) k) = .ok (px : ℤ))
    (hpy : (px : ℤ) - py = k) (hx : px ≤ s) (hy : py ≤ s') (hstop : ¬ (px < s ∧ py < s'))
    (hxs : s + l = x) (hys : s' + l = y) (hxN : x ≤ 32767) (hyN : y ≤ 32767) :
    backtraceRows traces ncost (d + 1 + 1) x y points =
      backtraceRows traces ncost (d + 1) px py
        (points ++ (starts s s' (List.replicate l .keep)).reverse.map toPoint ++
          [toPoint (px, py)]) := by
  have hprevY : toInt16 ((px : ℤ) - k) = py := by
    rw [toInt16_of_bounds (by omega) (by omega)]
    omega
  have hwalk : walkBack px py ((x : ℤ) - px).toNat x y points =
      points ++ (starts s s' (List.replicate l .keep)).reverse.map toPoint := by
    subst hxs hys
    exact walkBack_spec _ (by omega) (by omega) (by omega) hxN hyN (by omega) points
  rw [backtraceRows, hprev, ok_bind, hread, ok_bind]
  dsimp only
  rw [hprevY, hwalk, if_pos (Nat.succ_pos d)]
  rfl

/-- The starts of a path that extends the greedy path to a furthest reaching point. -/
theorem starts_greedyPath_append {x y : ℕ} {q : List Move}
    (hxy : (furthest (Compares comparator orig updated) d k : ℤ) - y = k) (hk : OnRow d k)
    (hx : x = furthest (Compares comparator orig updated) d k) :
    starts 0 0 (greedyPath (Compares comparator orig updated) d x y ++ q) =
      starts 0 0 (greedyPath (Compares comparator orig updated) d x y) ++ starts x y q := by
  obtain ⟨hp, -⟩ := greedyPath_spec (confined_compares _ _ _) (hx ▸ hxy) hk hx
  have hend := hp.end_eq
  rw [Nat.zero_add, Nat.zero_add] at hend
  rw [starts_append, Nat.zero_add, Nat.zero_add, ← hend.1, ← hend.2]

/-- Row 0: the walk down the main diagonal ends at the virtual point before the origin. -/
theorem backtraceRows_zero (hN : orig.length + updated.length ≤ 16383)
    (tinv : TraceInv comparator orig updated (distance comparator orig updated + 1) traces)
    {x : ℕ} (hx : x = furthest (Compares comparator orig updated) 0 0) (points : List PointT) :
    backtraceRows traces (rowLength orig updated : ℤ) 1 x x points =
      .ok (points ++ ((starts 0 0
        (greedyPath (Compares comparator orig updated) 0 x x)).reverse.map toPoint)) := by
  obtain ⟨y, -, hr⟩ :=
    reach_furthest (confined_compares comparator orig updated) (d := 0) (k := 0) (by simp [OnRow])
  have hxN := (hr.le_add_of_le_editDistance (confined_compares _ _ _) (Nat.zero_le _)).1
  rw [← hx] at hxN
  have hread : readAt traces (traceSlot (rowLength orig updated : ℤ) ((0 : ℕ) : ℤ) 1) =
      .ok 0 := by
    rw [traceSlot_eq (by omega) (by push_cast; omega), Nat.zero_mul, Nat.zero_add]
    exact readAt_of_getElem? (tinv.zero (Nat.succ_pos _) _ (diagSlot_lt_rowLength 1))
  have hwalk : walkBack 0 (-1) x ((0 + x : ℕ) : ℤ) ((0 + x : ℕ) : ℤ) points =
      points ++ (starts 0 0 (List.replicate x .keep)).reverse.map toPoint :=
    walkBack_spec x (by omega) (by omega) (by omega) (by omega) (by omega) le_rfl points
  simp only [Nat.zero_add] at hwalk
  have hprev : prevDiagonal traces (rowLength orig updated : ℤ) ((0 : ℕ) : ℤ)
      (toInt16 ((x : ℤ) - x)) = .ok 1 := by
    rw [sub_self]
    rfl
  rw [backtraceRows, hprev, ok_bind, hread, ok_bind]
  dsimp only
  rw [show toInt16 ((0 : ℤ) - 1) = -1 from rfl, Int.sub_zero, Int.toNat_natCast, hwalk,
    if_neg (Nat.lt_irrefl 0)]
  rfl

/-- From a furthest reaching point the backtrace lists the greedy path to it, backwards. The
induction is on the row. -/
theorem backtraceRows_spec (hN : orig.length + updated.length ≤ 16383)
    (tinv : TraceInv comparator orig updated (distance comparator orig updated + 1) traces)
    {x y : ℕ} (hd : d ≤ distance comparator orig updated) (hxy : (x : ℤ) - y = k)
    (hk : OnRow d k) (hx : x = furthest (Compares comparator orig updated) d k)
    (points : List PointT) :
    backtraceRows traces (rowLength orig updated : ℤ) (d + 1) x y points =
      .ok (points ++ ((starts 0 0
        (greedyPath (Compares comparator orig updated) d x y)).reverse.map toPoint)) := by
  induction d generalizing x y k points with
  | zero =>
    obtain rfl : k = 0 := by simp only [OnRow] at hk; omega
    obtain rfl : y = x := by omega
    exact backtraceRows_zero hN tinv hx points
  | succ d ih =>
    have hdN := hd.trans (distance_le_add _ _ _)
    obtain ⟨yEnd, hyEnd, hrEnd⟩ :=
      reach_furthest (confined_compares comparator orig updated) hk
    obtain ⟨hxN, hyN⟩ := hrEnd.le_add_of_le_editDistance (confined_compares _ _ _) hd
    rw [← hx] at hyEnd hxN
    have hyy : yEnd = y := by omega
    rw [hyy] at hyN
    have hk₁ := hk.1
    have hk₂ := hk.2.1
    have hkk : toInt16 ((x : ℤ) - y) = k := by
      rw [toInt16_of_bounds (by omega) (by omega), hxy]
    have hs := isSnake_furthest (confined_compares comparator orig updated) hk
    rw [← hx, rowEntry] at hs
    have hle := hs.le
    -- the row was entered by the move the search preferred
    by_cases ht : TakesIns (Compares comparator orig updated) d k
    · have hrow := ht.onRow hk
      obtain ⟨y', hy', -⟩ :=
        reach_furthest (confined_compares comparator orig updated) hrow
      rw [rowStart_of_takesIns ht] at hle
      rw [backtraceRows_step (hkk.symm ▸ (prevDiagonal_spec hN tinv hd hk).1 ht)
        (tinv.readAt_row hN hd hrow) hy' le_rfl (Nat.le_succ y') (by omega)
        (l := x - furthest (Compares comparator orig updated) d (k + 1)) (by omega) (by omega)
        (by omega) (by omega), ih (by omega) hy' hrow rfl, greedyPath_of_takesIns hxy ht,
        rowStart_of_takesIns ht,
        show (furthest (Compares comparator orig updated) d (k + 1) - (k + 1)).toNat = y' by
          omega,
        starts_greedyPath_append hy' hrow rfl, starts_ins]
      simp [toPoint]
    · have hrow := onRow_of_not_takesIns hk ht
      obtain ⟨y', hy', -⟩ :=
        reach_furthest (confined_compares comparator orig updated) hrow
      rw [rowStart_of_not_takesIns ht] at hle
      rw [backtraceRows_step (hkk.symm ▸ (prevDiagonal_spec hN tinv hd hk).2 ht)
        (tinv.readAt_row hN hd hrow) hy' (Nat.le_succ _) le_rfl (by omega)
        (l := x - (furthest (Compares comparator orig updated) d (k - 1) + 1)) (by omega)
        (by omega) (by omega) (by omega), ih (by omega) hy' hrow rfl,
        greedyPath_of_not_takesIns hxy ht, rowStart_of_not_takesIns ht,
        show (furthest (Compares comparator orig updated) d (k - 1) - (k - 1)).toNat = y' by
          omega,
        starts_greedyPath_append hy' hrow rfl, starts_del]
      simp [toPoint]

end Trace

/-- **The backtrace.** The starts of the moves of the shortest path, from the corner back. -/
theorem myersDiffBacktrace_spec (hN : orig.length + updated.length ≤ 16383) {fuel : ℕ}
    (hfuel : orig.length + updated.length + 2 ≤ fuel) :
    myersDiffBacktrace comparator orig updated fuel =
      .ok ((starts 0 0 (shortestPath (Compares comparator orig updated) orig.length
        updated.length)).reverse.map toPoint) := by
  have hD := distance_le_add comparator orig updated
  obtain ⟨traces, hrun, tinv⟩ := myersDiffTrace_spec comparator (by omega) (by omega)
    (show distance comparator orig updated + 2 ≤ fuel by omega)
  have hn : toInt16 (orig.length : ℤ) = orig.length := toInt16_of_bounds (by omega) (by omega)
  have hm : toInt16 (updated.length : ℤ) = updated.length :=
    toInt16_of_bounds (by omega) (by omega)
  have hcost : toInt16 (2 * ((orig.length : ℤ) + updated.length) + 1) =
      (rowLength orig updated : ℤ) := by
    rw [toInt16_of_bounds (by omega) (by omega)]
    push_cast
    rfl
  have hsize : toSizeT (rowLength orig updated : ℤ) = rowLength orig updated := by
    rw [toSizeT_of_bounds (by omega) (by push_cast; omega), Int.toNat_natCast]
  have hrows : toInt16 ((traces.length / toSizeT (rowLength orig updated : ℤ) : ℕ) : ℤ) =
      ((distance comparator orig updated + 1 : ℕ) : ℤ) := by
    rw [hsize, tinv.length_eq, Nat.mul_div_cancel _ (Nat.succ_pos _),
      toInt16_of_bounds (by omega) (by omega)]
  rw [myersDiffBacktrace, hrun, ok_bind]
  dsimp only
  rw [hn, hm, hcost, hrows, Int.toNat_natCast]
  exact backtraceRows_spec hN tinv le_rfl rfl (onRow_distance _ _ _)
    (furthest_distance _ _ _).symm []

/-! ### From points to entries -/

/-- The entries of a path from `(i, j)`: one for every move, with the positions it starts
at. -/
inductive Entries (orig updated : List α) : ℕ → ℕ → List Move → List (Diff α) → Prop
  | nil (i j : ℕ) : Entries orig updated i j [] []
  | keep {i j : ℕ} {p : List Move} {ds : List (Diff α)} {a : α} (ha : orig[i]? = some a)
      (h : Entries orig updated (i + 1) (j + 1) p ds) :
      Entries orig updated i j (.keep :: p) (⟨a, i, j, .eq⟩ :: ds)
  | del {i j : ℕ} {p : List Move} {ds : List (Diff α)} {a : α} (ha : orig[i]? = some a)
      (h : Entries orig updated (i + 1) j p ds) :
      Entries orig updated i j (.del :: p) (⟨a, i, -1, .del⟩ :: ds)
  | ins {i j : ℕ} {p : List Move} {ds : List (Diff α)} {b : α} (hb : updated[j]? = some b)
      (h : Entries orig updated i (j + 1) p ds) :
      Entries orig updated i j (.ins :: p) (⟨b, -1, j, .add⟩ :: ds)

theorem Entries.append {i j : ℕ} {p q : List Move} {ds es : List (Diff α)}
    (h : Entries orig updated i j p ds)
    (h' : Entries orig updated (i + width p) (j + height p) q es) :
    Entries orig updated i j (p ++ q) (ds ++ es) := by
  induction h with
  | nil => simpa using h'
  | keep ha _ ih =>
    rw [width_keep, height_keep, ← Nat.add_assoc, ← Nat.add_assoc] at h'
    exact .keep ha (ih (by simpa only [Nat.add_right_comm] using h'))
  | del ha _ ih =>
    rw [width_del, height_del, ← Nat.add_assoc] at h'
    exact .del ha (ih (by simpa only [Nat.add_right_comm] using h'))
  | ins hb _ ih =>
    rw [width_ins, height_ins, ← Nat.add_assoc] at h'
    exact .ins hb (ih (by simpa only [Nat.add_right_comm] using h'))

/-- A step of the backtrace becomes the entry of its move. -/
theorem pointDiff_spec {M : ℕ → ℕ → Prop} {a : Move} {i j x y : ℕ} (h : Path M i j [a] x y)
    (hx : x ≤ orig.length) (hy : y ≤ updated.length) :
    ∃ d, Entries orig updated i j [a] [d] ∧
      pointDiff orig updated (toPoint (x, y)) (toPoint (i, j)) = .ok d := by
  cases h with
  | keep _ h =>
    obtain ⟨hx', hy'⟩ := h.end_eq
    simp only [width_nil, height_nil, Nat.add_zero] at hx' hy'
    obtain ⟨v, hv, hr⟩ := exists_readAt (show i < orig.length by omega)
    refine ⟨_, .keep hv (.nil _ _), ?_⟩
    have h₁ : (i : ℤ) ≠ x := by omega
    have h₂ : (j : ℤ) ≠ y := by omega
    simp [pointDiff, toPoint, h₁, h₂, hr, bind, Except.bind]
  | del h =>
    obtain ⟨hx', hy'⟩ := h.end_eq
    simp only [width_nil, height_nil, Nat.add_zero] at hx' hy'
    obtain ⟨v, hv, hr⟩ := exists_readAt (show i < orig.length by omega)
    refine ⟨_, .del hv (.nil _ _), ?_⟩
    have h₁ : (i : ℤ) ≠ x := by omega
    simp [pointDiff, toPoint, h₁, hy', hr, bind, Except.bind]
  | ins h =>
    obtain ⟨hx', hy'⟩ := h.end_eq
    simp only [width_nil, height_nil, Nat.add_zero] at hx' hy'
    obtain ⟨v, hv, hr⟩ := exists_readAt (show j < updated.length by omega)
    refine ⟨_, .ins hv (.nil _ _), ?_⟩
    simp [pointDiff, toPoint, hx', hr, bind, Except.bind]

/-- The loop over the points turns each step of the backtrace into the entry of its move.
The induction is on the path from its end, as the backtrace lists it. -/
theorem pointDiffs_spec {M : ℕ → ℕ → Prop} {p : List Move} {x y : ℕ} (hp : Path M 0 0 p x y)
    (hx : x ≤ orig.length) (hy : y ≤ updated.length) (acc : List (Diff α)) :
    ∃ ds, Entries orig updated 0 0 p ds ∧
      pointDiffs orig updated (toPoint (x, y)) ((starts 0 0 p).reverse.map toPoint) acc =
        .ok (acc ++ ds.reverse) := by
  induction p using List.reverseRecOn generalizing x y acc with
  | nil => exact ⟨[], .nil 0 0, by simp [pointDiffs]⟩
  | append_singleton p a ih =>
    obtain ⟨hp, hlast⟩ := hp.split
    rw [Nat.zero_add, Nat.zero_add] at hp hlast
    obtain ⟨d, hd, hrun⟩ := pointDiff_spec hlast hx hy
    obtain ⟨hwx, hwy⟩ := hlast.end_eq
    obtain ⟨ds, hds, hruns⟩ := ih hp (by omega) (by omega) (acc ++ [d])
    refine ⟨ds ++ [d], hds.append (by simpa using hd), ?_⟩
    have hlist : (starts 0 0 (p ++ [a])).reverse.map toPoint =
        toPoint (width p, height p) :: (starts 0 0 p).reverse.map toPoint := by
      rw [starts_append, Nat.zero_add, Nat.zero_add]
      cases a <;> simp
    rw [hlist, pointDiffs, hrun]
    simp only [bind, Except.bind, hruns]
    simp

/-- **The difference list.** `myers_diff` returns the entries of the shortest path. -/
theorem myersDiff_spec (comparator : α → α → Bool)
    (hN : orig.length + updated.length ≤ 16383) :
    ∃ ds, Entries orig updated 0 0
        (shortestPath (Compares comparator orig updated) orig.length updated.length) ds ∧
      ∀ fuel, orig.length + updated.length + 2 ≤ fuel →
        myersDiff comparator orig updated fuel = .ok ds := by
  obtain ⟨hp, -⟩ := shortestPath_spec (confined_compares comparator orig updated)
  obtain ⟨ds, hds, hrun⟩ := pointDiffs_spec hp le_rfl le_rfl []
  refine ⟨ds, hds, fun fuel hfuel ↦ ?_⟩
  have hn : toInt16 (orig.length : ℤ) = orig.length := toInt16_of_bounds (by omega) (by omega)
  have hm : toInt16 (updated.length : ℤ) = updated.length :=
    toInt16_of_bounds (by omega) (by omega)
  rw [toPoint] at hrun
  rw [myersDiff, myersDiffBacktrace_spec hN hfuel, ok_bind, hn, hm, hrun, ok_bind]
  simp

end Cppkg.Differ
