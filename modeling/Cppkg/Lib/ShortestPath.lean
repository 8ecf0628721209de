import Cppkg.Lib.FurthestReaching
import Mathlib.Data.List.Chain
import Mathlib.Order.Bounds.Basic

/-!
# Shortest paths to a corner

The greedy path to the corner `(n, m)` of a confined edit graph is a shortest one
(`shortestPath_spec`, `cost_shortestPath_le`). Three further facts about it:

* it opens with every diagonal step the origin offers (`replicate_keep_prefix_shortestPath`);
* between two diagonal steps it deletes before it inserts (`isChain_shortestPath`);
* its length is settled by the longest matching, an increasing chain of points where the
  diagonal step is allowed (`exists_isGreatest_matching`).

Where no diagonal step is allowed at all, the furthest reaching points are known outright
(`furthest_of_not`).
-/

namespace EditGraph

variable {M : ℕ → ℕ → Prop} {n m d x y : ℕ} {k : ℤ}

/-- The corner is the furthest reaching point of its diagonal in the row of its distance. -/
theorem furthest_editDistance (hM : Confined M n m) :
    furthest M (editDistance M n m) (n - m) = n := by
  have hcorner := reach_editDistance M n m
  refine furthest_eq hM hcorner rfl fun x' y' h hk ↦ ?_
  by_contra hlt
  have := h.eq_of_le_editDistance hM le_rfl (by omega) (by omega)
  omega

theorem onRow_editDistance (M : ℕ → ℕ → Prop) (n m : ℕ) :
    OnRow (editDistance M n m) (n - m) :=
  (reach_editDistance M n m).onRow

/-- The greedy path to the corner. -/
noncomputable def shortestPath (M : ℕ → ℕ → Prop) (n m : ℕ) : List Move :=
  greedyPath M (editDistance M n m) n m

theorem shortestPath_spec (hM : Confined M n m) :
    Path M 0 0 (shortestPath M n m) n m ∧
      cost (shortestPath M n m) = editDistance M n m :=
  greedyPath_spec hM rfl (onRow_editDistance M n m) (furthest_editDistance hM).symm

/-- No path to the corner has fewer unit moves. -/
theorem cost_shortestPath_le (hM : Confined M n m) {p : List Move}
    (h : Path M 0 0 p n m) : cost (shortestPath M n m) ≤ cost p :=
  (shortestPath_spec hM).2 ▸ editDistance_le_cost h

/-- The distance of the corner is the least cost of a path to it. -/
theorem isLeast_editDistance (M : ℕ → ℕ → Prop) (n m : ℕ) :
    IsLeast {c | ∃ p, Path M 0 0 p n m ∧ cost p = c} (editDistance M n m) := by
  constructor
  · exact reach_iff_path.1 (reach_editDistance M n m)
  · rintro _ ⟨p, hp, rfl⟩
    exact editDistance_le_cost hp

/-! ### The opening run of diagonal steps -/

theorem replicate_keep_prefix_greedyPath (hM : Confined M n m) (hk : (x : ℤ) - y = k)
    (hrow : OnRow d k) (hx : x = furthest M d k) :
    List.replicate (furthest M 0 0) .keep <+: greedyPath M d x y := by
  induction d generalizing x y k with
  | zero =>
    obtain rfl : k = 0 := by simp only [OnRow] at hrow; omega
    rw [greedyPath_zero, hx]
  | succ d ih =>
    by_cases ht : TakesIns M d k
    · obtain ⟨y', hy', -⟩ := reach_furthest hM (ht.onRow hrow)
      rw [greedyPath_of_takesIns hk ht,
        show (furthest M d (k + 1) - (k + 1)).toNat = y' by omega]
      exact (ih hy' (ht.onRow hrow) rfl).trans (List.prefix_append _ _)
    · have hrow' := onRow_of_not_takesIns hrow ht
      obtain ⟨y', hy', -⟩ := reach_furthest hM hrow'
      rw [greedyPath_of_not_takesIns hk ht,
        show (furthest M d (k - 1) - (k - 1)).toNat = y' by omega]
      exact (ih hy' hrow' rfl).trans (List.prefix_append _ _)

theorem reach_zero_iff : Reach M 0 x x ↔ ∀ i < x, M i i := by
  constructor
  · intro h
    obtain ⟨p, hp, hc⟩ := reach_iff_path.1 h
    have hw : width p = x := by have := hp.end_eq.1; omega
    rw [eq_replicate_keep_of_cost hc, hw] at hp
    have hp' : Path M 0 0 (List.replicate x .keep) (0 + x) (0 + x) := by
      rwa [Nat.zero_add]
    intro i hi
    simpa using path_replicate_keep.1 hp' i hi
  · intro h
    have hp : Path M 0 0 (List.replicate x .keep) (0 + x) (0 + x) :=
      path_replicate_keep.2 fun t ht ↦ by simpa using h t ht
    simpa using Reach.zero.trans hp

/-- The greedy path opens with every diagonal step that the origin offers. -/
theorem replicate_keep_prefix_shortestPath (hM : Confined M n m) {r : ℕ}
    (h : ∀ i < r, M i i) : List.replicate r .keep <+: shortestPath M n m := by
  have hr : r ≤ furthest M 0 0 := le_furthest hM (reach_zero_iff.2 h) (by simp)
  refine List.IsPrefix.trans ?_ (replicate_keep_prefix_greedyPath hM rfl
    (onRow_editDistance M n m) (furthest_editDistance hM).symm)
  exact ⟨List.replicate (furthest M 0 0 - r) .keep, by
    rw [← List.replicate_add, Nat.add_sub_cancel' hr]⟩

/-! ### The order of the unit moves -/

theorem getLast?_cons_replicate_keep (a : Move) (l : ℕ) :
    (a :: List.replicate l Move.keep).getLast? = some (if l = 0 then a else .keep) := by
  cases l with
  | zero => rfl
  | succ l => simp [List.getLast?_cons, List.getLast?_replicate]

/-- A greedy path whose last move is an insertion ends where its row was entered. -/
theorem exists_of_getLast?_greedyPath (hM : Confined M n m) (hk : (x : ℤ) - y = k)
    (hrow : OnRow d k) (hx : x = furthest M d k)
    (hlast : (greedyPath M d x y).getLast? = some .ins) :
    ∃ d', d = d' + 1 ∧ TakesIns M d' k ∧ x = furthest M d' (k + 1) := by
  cases d with
  | zero =>
    rw [greedyPath_zero, List.getLast?_replicate] at hlast
    split at hlast <;> simp at hlast
  | succ d =>
    have hle := (isSnake_furthest hM hrow).le
    rw [← hx, rowEntry] at hle
    by_cases ht : TakesIns M d k
    · rw [greedyPath_of_takesIns hk ht, List.getLast?_append, getLast?_cons_replicate_keep] at hlast
      have hend : x - rowStart M d k = 0 := by
        by_contra hne
        simp [hne] at hlast
      rw [rowStart_of_takesIns ht] at hend hle
      exact ⟨d, rfl, ht, by omega⟩
    · rw [greedyPath_of_not_takesIns hk ht, List.getLast?_append, getLast?_cons_replicate_keep]
        at hlast
      split at hlast <;> simp at hlast

/-- **A deletion never follows an insertion.** Where the greedy path deletes next, its last move
is not an insertion: the insertion would come from a point whose deletion puts the other
neighbour strictly ahead. -/
theorem getLast?_greedyPath_ne_ins (hM : Confined M n m) (hrow : OnRow (d + 1) k)
    (ht : ¬ TakesIns M d k) (hk : (x : ℤ) - y = k - 1) (hx : x = furthest M d (k - 1)) :
    (greedyPath M d x y).getLast? ≠ some .ins := by
  intro hlast
  have hrow' := onRow_of_not_takesIns hrow ht
  obtain ⟨d, rfl, ht', hx'⟩ := exists_of_getLast?_greedyPath hM hk hrow' hx hlast
  have hback := ht'.onRow hrow'
  rw [Int.sub_add_cancel] at hx' hback
  -- the insertion is not on the upper border, so the deletion is not either
  have hborder : k ≠ ((d + 1 + 1 : ℕ) : ℤ) := by
    rcases ht' with ht' | ⟨hne, -⟩ <;> omega
  obtain ⟨y', hy', hr⟩ := reach_furthest hM hback
  have hahead := le_furthest (k := k + 1) hM hr.del (by push_cast; omega)
  exact ht (.inr ⟨hborder, by omega⟩)

/-- In the greedy path no insertion is followed by a deletion. -/
theorem isChain_greedyPath (hM : Confined M n m) (hk : (x : ℤ) - y = k) (hrow : OnRow d k)
    (hx : x = furthest M d k) :
    (greedyPath M d x y).IsChain fun a b ↦ ¬ (a = .ins ∧ b = .del) := by
  induction d generalizing x y k with
  | zero =>
    rw [greedyPath_zero]
    exact List.isChain_replicate_of_rel x (by simp)
  | succ d ih =>
    have hkeeps : ∀ a l, (a :: List.replicate l Move.keep).IsChain
        fun a b ↦ ¬ (a = .ins ∧ b = .del) := fun a l ↦
      List.isChain_cons.2 ⟨by cases l <;> simp [List.replicate_succ],
        List.isChain_replicate_of_rel l (by simp)⟩
    by_cases ht : TakesIns M d k
    · have hrow' := ht.onRow hrow
      obtain ⟨y', hy', -⟩ := reach_furthest hM hrow'
      rw [greedyPath_of_takesIns hk ht,
        show (furthest M d (k + 1) - (k + 1)).toNat = y' by omega]
      exact (ih hy' hrow' rfl).append (hkeeps _ _) (by simp)
    · have hrow' := onRow_of_not_takesIns hrow ht
      obtain ⟨y', hy', -⟩ := reach_furthest hM hrow'
      have hne := getLast?_greedyPath_ne_ins hM hrow ht hy' rfl
      rw [greedyPath_of_not_takesIns hk ht,
        show (furthest M d (k - 1) - (k - 1)).toNat = y' by omega]
      refine (ih hy' hrow' rfl).append (hkeeps _ _) ?_
      rintro a ha b - ⟨rfl, -⟩
      exact hne ha

/-- In the greedy path to the corner no insertion is followed by a deletion. -/
theorem isChain_shortestPath (hM : Confined M n m) :
    (shortestPath M n m).IsChain fun a b ↦ ¬ (a = .ins ∧ b = .del) :=
  isChain_greedyPath hM rfl (onRow_editDistance M n m) (furthest_editDistance hM).symm

/-- Between two diagonal steps all deletions come before all insertions. -/
theorem exists_eq_replicate_append {p : List Move}
    (h : p.IsChain fun a b ↦ ¬ (a = .ins ∧ b = .del)) (hkeep : .keep ∉ p) :
    ∃ a b, p = List.replicate a .del ++ List.replicate b .ins := by
  induction p with
  | nil => exact ⟨0, 0, rfl⟩
  | cons c p ih =>
    obtain ⟨hhead, hchain⟩ := List.isChain_cons.1 h
    obtain ⟨a, b, rfl⟩ := ih hchain fun hp ↦ hkeep (List.mem_cons_of_mem _ hp)
    cases c with
    | keep => exact absurd List.mem_cons_self hkeep
    | del => exact ⟨a + 1, b, rfl⟩
    | ins =>
      -- a deletion behind the insertion would be next to it
      cases a with
      | zero => exact ⟨0, b + 1, rfl⟩
      | succ a => exact absurd ⟨rfl, rfl⟩ (hhead .del (by simp [List.replicate_succ]))

/-! ### Matchings -/

/-- A matching: points where the diagonal step is allowed, increasing in both coordinates. -/
def Matching (M : ℕ → ℕ → Prop) (ps : List (ℕ × ℕ)) : Prop :=
  ps.Pairwise (fun a b ↦ a.1 < b.1 ∧ a.2 < b.2) ∧ ∀ a ∈ ps, M a.1 a.2

theorem Path.exists_matching {i j : ℕ} {p : List Move} (h : Path M i j p n m) :
    ∃ ps, Matching M ps ∧ (∀ a ∈ ps, i ≤ a.1 ∧ j ≤ a.2) ∧
      cost p + 2 * ps.length + (i + j) = n + m := by
  induction h with
  | nil i j => exact ⟨[], ⟨List.Pairwise.nil, by simp⟩, by simp, by simp⟩
  | @keep i j n m p hM _ ih =>
    obtain ⟨ps, ⟨hlt, hps⟩, hle, hlen⟩ := ih
    refine ⟨(i, j) :: ps, ⟨List.Pairwise.cons (fun a ha ↦ ?_) hlt, ?_⟩, ?_, ?_⟩
    · exact hle a ha
    · exact List.forall_mem_cons.2 ⟨hM, hps⟩
    · refine List.forall_mem_cons.2 ⟨⟨le_rfl, le_rfl⟩, fun a ha ↦ ?_⟩
      have := hle a ha
      omega
    · rw [cost_keep, List.length_cons]
      omega
  | del _ ih =>
    obtain ⟨ps, hps, hle, hlen⟩ := ih
    refine ⟨ps, hps, fun a ha ↦ ?_, by rw [cost_del]; omega⟩
    have := hle a ha
    omega
  | ins _ ih =>
    obtain ⟨ps, hps, hle, hlen⟩ := ih
    refine ⟨ps, hps, fun a ha ↦ ?_, by rw [cost_ins]; omega⟩
    have := hle a ha
    omega

theorem Matching.exists_path (hM : Confined M n m) {ps : List (ℕ × ℕ)} (h : Matching M ps)
    {i j : ℕ} (hi : i ≤ n) (hj : j ≤ m) (hle : ∀ a ∈ ps, i ≤ a.1 ∧ j ≤ a.2) :
    ∃ p, Path M i j p n m ∧ cost p + 2 * ps.length + (i + j) = n + m := by
  induction ps generalizing i j with
  | nil =>
    refine ⟨_, path_straight M hi hj, ?_⟩
    rw [cost_append, cost_replicate_del, cost_replicate_ins, List.length_nil]
    omega
  | cons a ps ih =>
    obtain ⟨hpw, hM'⟩ := h
    obtain ⟨hlt, hpw⟩ := List.pairwise_cons.1 hpw
    obtain ⟨ha, hM'⟩ := List.forall_mem_cons.1 hM'
    obtain ⟨hia, hja⟩ := hle a List.mem_cons_self
    obtain ⟨han, ham⟩ := hM _ _ ha
    obtain ⟨p, hp, hc⟩ := ih ⟨hpw, hM'⟩ han ham hlt
    -- straight to the first point, then its diagonal step
    refine ⟨_, (path_straight M hia hja).append (.keep ha hp), ?_⟩
    rw [cost_append, cost_append, cost_keep, cost_replicate_del, cost_replicate_ins,
      List.length_cons]
    omega

/-- **Distance and matching.** The longest matching has length `L` with
`distance + 2 L = n + m`. -/
theorem exists_isGreatest_matching (hM : Confined M n m) :
    ∃ l, IsGreatest {l | ∃ ps, Matching M ps ∧ ps.length = l} l ∧
      editDistance M n m + 2 * l = n + m := by
  obtain ⟨hp, hc⟩ := shortestPath_spec hM
  obtain ⟨ps, hps, -, hlen⟩ := hp.exists_matching
  refine ⟨ps.length, ⟨⟨ps, hps, rfl⟩, ?_⟩, by omega⟩
  -- a longer matching would be a path with fewer unit moves
  rintro _ ⟨qs, hqs, rfl⟩
  obtain ⟨q, hq, hlen'⟩ :=
    hqs.exists_path hM (Nat.zero_le n) (Nat.zero_le m) fun a _ ↦ ⟨Nat.zero_le _, Nat.zero_le _⟩
  have := editDistance_le_cost hq
  omega

/-! ### Graphs without diagonal steps -/

theorem Reach.add_eq_of_not (hnone : ∀ i j, ¬M i j) (h : Reach M d x y) : x + y = d := by
  induction h with
  | zero => rfl
  | keep _ hM _ => exact absurd hM (hnone _ _)
  | del _ ih => omega
  | ins _ ih => omega

theorem editDistance_of_not (hnone : ∀ i j, ¬M i j) (n m : ℕ) : editDistance M n m = n + m :=
  ((reach_editDistance M n m).add_eq_of_not hnone).symm

theorem furthest_of_not (hnone : ∀ i j, ¬M i j) (hrow : OnRow d k) :
    2 * (furthest M d k : ℤ) = d + k := by
  have hM : Confined M 0 0 := fun i j h ↦ absurd h (hnone i j)
  obtain ⟨y, hy, hr⟩ := reach_furthest hM hrow
  have := hr.add_eq_of_not hnone
  omega

/-- A distance of all elements means that no diagonal step is allowed. -/
theorem not_of_editDistance_eq_add (hM : Confined M n m) (h : editDistance M n m = n + m)
    (i j : ℕ) : ¬M i j := by
  intro hij
  obtain ⟨l, hl, hlen⟩ := exists_isGreatest_matching hM
  have hmatch : Matching M [(i, j)] := ⟨List.pairwise_singleton _ _, by simpa using hij⟩
  have : ([(i, j)] : List (ℕ × ℕ)).length ≤ l := hl.2 ⟨_, hmatch, rfl⟩
  rw [List.length_singleton] at this
  omega

end EditGraph
