import Mathlib.Data.List.Basic
import Mathlib.Data.List.Count
import Mathlib.Order.Lattice.Nat

/-!
# Edit graphs

The graph whose points are pairs of positions `(i, j)` in two sequences, with a deletion
`(i, j) → (i + 1, j)` and an insertion `(i, j) → (i, j + 1)` at every point and a diagonal
step `(i, j) → (i + 1, j + 1)` wherever a relation `M i j` holds. Nothing here knows where
`M` comes from: a comparison of two arrays, of two texts, or anything else.

The points are **not** clipped to a rectangle: the two unit moves are available everywhere.
Searches over this graph usually do not clip either, and `Reach.le_add_of_le_editDistance`
and `Reach.eq_of_le_editDistance` say why they may: a point beyond the corner is never
reached before the corner itself, as long as the diagonal steps are confined to the
rectangle (`Confined`).

* `Path` is a list of moves between two points, `Reach` its shadow "reachable from the
  origin with `d` unit moves", which is the form inductions on the last move want;
* `editDistance` is the least number of unit moves to a point;
* `Reach.editDistance_le` is what confinement gives: no point reached early lies far outside of
  the rectangle.
-/

namespace EditGraph

/-- One move of an edit path. -/
inductive Move where
  | keep
  | del
  | ins
  deriving DecidableEq, Repr

/-- How far a path goes in the first sequence: every move but an insertion advances it. -/
def width (p : List Move) : ℕ := p.countP (· ≠ .ins)

/-- How far a path goes in the second sequence: every move but a deletion advances it. -/
def height (p : List Move) : ℕ := p.countP (· ≠ .del)

/-- The number of unit moves of a path. -/
def cost (p : List Move) : ℕ := p.countP (· ≠ .keep)

@[simp] theorem width_nil : width [] = 0 := rfl
@[simp] theorem height_nil : height [] = 0 := rfl
@[simp] theorem cost_nil : cost [] = 0 := rfl

@[simp] theorem width_keep (p : List Move) : width (.keep :: p) = width p + 1 := by simp [width]
@[simp] theorem width_del (p : List Move) : width (.del :: p) = width p + 1 := by simp [width]
@[simp] theorem width_ins (p : List Move) : width (.ins :: p) = width p := by simp [width]
@[simp] theorem height_keep (p : List Move) : height (.keep :: p) = height p + 1 := by
  simp [height]
@[simp] theorem height_del (p : List Move) : height (.del :: p) = height p := by simp [height]
@[simp] theorem height_ins (p : List Move) : height (.ins :: p) = height p + 1 := by
  simp [height]
@[simp] theorem cost_keep (p : List Move) : cost (.keep :: p) = cost p := by simp [cost]
@[simp] theorem cost_del (p : List Move) : cost (.del :: p) = cost p + 1 := by simp [cost]
@[simp] theorem cost_ins (p : List Move) : cost (.ins :: p) = cost p + 1 := by simp [cost]

@[simp] theorem width_append (p q : List Move) : width (p ++ q) = width p + width q :=
  List.countP_append

@[simp] theorem height_append (p q : List Move) : height (p ++ q) = height p + height q :=
  List.countP_append

@[simp] theorem cost_append (p q : List Move) : cost (p ++ q) = cost p + cost q :=
  List.countP_append

@[simp] theorem width_replicate_keep (l : ℕ) : width (List.replicate l .keep) = l := by
  simp [width, List.countP_replicate]

@[simp] theorem height_replicate_keep (l : ℕ) : height (List.replicate l .keep) = l := by
  simp [height, List.countP_replicate]

@[simp] theorem cost_replicate_keep (l : ℕ) : cost (List.replicate l .keep) = 0 := by
  simp [cost, List.countP_replicate]

theorem length_le_width_add_height (p : List Move) : p.length ≤ width p + height p := by
  induction p with
  | nil => exact Nat.zero_le _
  | cons a p ih =>
    cases a <;> simp <;> omega

/-- A path without unit moves is a run of diagonal steps. -/
theorem eq_replicate_keep_of_cost {p : List Move} (h : cost p = 0) :
    p = List.replicate (width p) .keep := by
  induction p with
  | nil => rfl
  | cons a p ih =>
    cases a with
    | keep =>
      rw [cost_keep] at h
      rw [width_keep, List.replicate_succ, ← ih h]
    | del => simp at h
    | ins => simp at h

/-! ### Paths -/

/-- `Path M i j p n m`: the moves `p` lead from `(i, j)` to `(n, m)`, diagonal steps being
taken only where `M` allows them. -/
inductive Path (M : ℕ → ℕ → Prop) : ℕ → ℕ → List Move → ℕ → ℕ → Prop
  | nil (i j : ℕ) : Path M i j [] i j
  | keep {i j n m : ℕ} {p : List Move} (hM : M i j) (h : Path M (i + 1) (j + 1) p n m) :
      Path M i j (.keep :: p) n m
  | del {i j n m : ℕ} {p : List Move} (h : Path M (i + 1) j p n m) :
      Path M i j (.del :: p) n m
  | ins {i j n m : ℕ} {p : List Move} (h : Path M i (j + 1) p n m) :
      Path M i j (.ins :: p) n m

variable {M : ℕ → ℕ → Prop} {i j n m : ℕ} {p q : List Move}

/-- The end of a path is determined by its moves. -/
theorem Path.end_eq (h : Path M i j p n m) : n = i + width p ∧ m = j + height p := by
  induction h with
  | nil => simp
  | keep _ _ ih => simp only [width_keep, height_keep]; omega
  | del _ ih => simp only [width_del, height_del]; omega
  | ins _ ih => simp only [width_ins, height_ins]; omega

theorem Path.append {a b : ℕ} (h : Path M i j p a b) (h' : Path M a b q n m) :
    Path M i j (p ++ q) n m := by
  induction h with
  | nil => exact h'
  | keep hM _ ih => exact .keep hM (ih h')
  | del _ ih => exact .del (ih h')
  | ins _ ih => exact .ins (ih h')

/-- A path splits wherever its move list does. -/
theorem Path.split (h : Path M i j (p ++ q) n m) :
    Path M i j p (i + width p) (j + height p) ∧
      Path M (i + width p) (j + height p) q n m := by
  induction p generalizing i j with
  | nil => exact ⟨.nil i j, h⟩
  | cons a p ih =>
    cases h with
    | keep hM h =>
      obtain ⟨h₁, h₂⟩ := ih h
      rw [width_keep, height_keep, show i + (width p + 1) = i + 1 + width p by omega,
        show j + (height p + 1) = j + 1 + height p by omega]
      exact ⟨.keep hM h₁, h₂⟩
    | del h =>
      obtain ⟨h₁, h₂⟩ := ih h
      rw [width_del, height_del, show i + (width p + 1) = i + 1 + width p by omega]
      exact ⟨.del h₁, h₂⟩
    | ins h =>
      obtain ⟨h₁, h₂⟩ := ih h
      rw [width_ins, height_ins, show j + (height p + 1) = j + 1 + height p by omega]
      exact ⟨.ins h₁, h₂⟩

/-- A run of diagonal steps is a path exactly when every one of them is allowed. -/
theorem path_replicate_keep {l : ℕ} :
    Path M i j (List.replicate l .keep) (i + l) (j + l) ↔ ∀ t < l, M (i + t) (j + t) := by
  induction l generalizing i j with
  | zero => exact ⟨fun _ t ht ↦ absurd ht (Nat.not_lt_zero t), fun _ ↦ .nil i j⟩
  | succ l ih =>
    rw [List.replicate_succ, show i + (l + 1) = i + 1 + l by omega,
      show j + (l + 1) = j + 1 + l by omega]
    constructor
    · intro h t ht
      cases h with
      | keep hM h =>
        cases t with
        | zero => exact hM
        | succ t =>
          rw [show i + (t + 1) = i + 1 + t by omega, show j + (t + 1) = j + 1 + t by omega]
          exact ih.1 h t (by omega)
    · intro h
      refine .keep (h 0 (by omega)) (ih.2 fun t ht ↦ ?_)
      rw [show i + 1 + t = i + (t + 1) by omega, show j + 1 + t = j + (t + 1) by omega]
      exact h (t + 1) (by omega)

theorem path_replicate_del (l : ℕ) : Path M i j (List.replicate l .del) (i + l) j := by
  induction l generalizing i with
  | zero => exact .nil i j
  | succ l ih =>
    rw [List.replicate_succ, show i + (l + 1) = i + 1 + l by omega]
    exact .del ih

theorem path_replicate_ins (l : ℕ) : Path M i j (List.replicate l .ins) i (j + l) := by
  induction l generalizing j with
  | zero => exact .nil i j
  | succ l ih =>
    rw [List.replicate_succ, show j + (l + 1) = j + 1 + l by omega]
    exact .ins ih

@[simp] theorem cost_replicate_del (l : ℕ) : cost (List.replicate l .del) = l := by
  simp [cost, List.countP_replicate]

@[simp] theorem cost_replicate_ins (l : ℕ) : cost (List.replicate l .ins) = l := by
  simp [cost, List.countP_replicate]

/-- The points at which the moves of a path from `(i, j)` start, in their order. -/
def starts : ℕ → ℕ → List Move → List (ℕ × ℕ)
  | _, _, [] => []
  | i, j, .keep :: p => (i, j) :: starts (i + 1) (j + 1) p
  | i, j, .del :: p => (i, j) :: starts (i + 1) j p
  | i, j, .ins :: p => (i, j) :: starts i (j + 1) p

@[simp] theorem starts_nil : starts i j [] = [] := rfl

@[simp] theorem starts_keep : starts i j (.keep :: p) = (i, j) :: starts (i + 1) (j + 1) p :=
  rfl

@[simp] theorem starts_del : starts i j (.del :: p) = (i, j) :: starts (i + 1) j p := rfl

@[simp] theorem starts_ins : starts i j (.ins :: p) = (i, j) :: starts i (j + 1) p := rfl

theorem starts_append :
    starts i j (p ++ q) = starts i j p ++ starts (i + width p) (j + height p) q := by
  induction p generalizing i j with
  | nil => rfl
  | cons a p ih => cases a <;> simp [ih, Nat.add_assoc, Nat.add_comm 1]

theorem starts_replicate_keep_succ (i j l : ℕ) :
    starts i j (List.replicate (l + 1) .keep) =
      starts i j (List.replicate l .keep) ++ [(i + l, j + l)] := by
  rw [List.replicate_succ', starts_append]
  simp

/-! ### Reachability from the origin -/

/-- `Reach M d x y`: the point `(x, y)` is reachable from the origin with exactly `d` unit
moves and any number of diagonal steps. -/
inductive Reach (M : ℕ → ℕ → Prop) : ℕ → ℕ → ℕ → Prop
  | zero : Reach M 0 0 0
  | keep {d x y : ℕ} (h : Reach M d x y) (hM : M x y) : Reach M d (x + 1) (y + 1)
  | del {d x y : ℕ} (h : Reach M d x y) : Reach M (d + 1) (x + 1) y
  | ins {d x y : ℕ} (h : Reach M d x y) : Reach M (d + 1) x (y + 1)

variable {d x y : ℕ}

theorem Reach.trans (h : Reach M d i j) (hp : Path M i j p n m) :
    Reach M (d + cost p) n m := by
  induction hp generalizing d with
  | nil => exact h
  | keep hM _ ih =>
    rw [cost_keep]
    exact ih (h.keep hM)
  | @del _ _ _ _ p _ ih =>
    rw [cost_del, show d + (cost p + 1) = d + 1 + cost p by omega]
    exact ih h.del
  | @ins _ _ _ _ p _ ih =>
    rw [cost_ins, show d + (cost p + 1) = d + 1 + cost p by omega]
    exact ih h.ins

/-- Reachability is the existence of a path. -/
theorem reach_iff_path : Reach M d x y ↔ ∃ p, Path M 0 0 p x y ∧ cost p = d := by
  constructor
  · intro h
    induction h with
    | zero => exact ⟨[], .nil 0 0, rfl⟩
    | keep _ hM ih =>
      obtain ⟨p, hp, rfl⟩ := ih
      exact ⟨p ++ [.keep], hp.append (.keep hM (.nil _ _)), by simp⟩
    | del _ ih =>
      obtain ⟨p, hp, rfl⟩ := ih
      exact ⟨p ++ [.del], hp.append (.del (.nil _ _)), by simp⟩
    | ins _ ih =>
      obtain ⟨p, hp, rfl⟩ := ih
      exact ⟨p ++ [.ins], hp.append (.ins (.nil _ _)), by simp⟩
  · rintro ⟨p, hp, rfl⟩
    simpa using Reach.zero.trans hp

/-- A path between two points that takes no diagonal step. -/
theorem path_straight (M : ℕ → ℕ → Prop) (hi : i ≤ n) (hj : j ≤ m) :
    Path M i j (List.replicate (n - i) .del ++ List.replicate (m - j) .ins) n m := by
  have hp : Path M i j (List.replicate (n - i) .del ++ List.replicate (m - j) .ins)
      (i + (n - i)) (j + (m - j)) := (path_replicate_del _).append (path_replicate_ins _)
  rwa [Nat.add_sub_cancel' hi, Nat.add_sub_cancel' hj] at hp

/-- Reaching a point and then walking straight to a further one. -/
theorem Reach.extend (h : Reach M d x y) (hx : x ≤ n) (hy : y ≤ m) :
    Reach M (d + (n - x) + (m - y)) n m := by
  have hr := h.trans (path_straight M hx hy)
  rwa [cost_append, cost_replicate_del, cost_replicate_ins, ← Nat.add_assoc] at hr

/-- Without diagonal steps a point costs the sum of its coordinates. -/
theorem reach_add (M : ℕ → ℕ → Prop) (x y : ℕ) : Reach M (x + y) x y := by
  have hr := (Reach.zero (M := M)).extend (Nat.zero_le x) (Nat.zero_le y)
  rwa [Nat.zero_add, Nat.sub_zero, Nat.sub_zero] at hr

/-! ### Edit distance -/

/-- The least number of unit moves from the origin to `(n, m)`. -/
noncomputable def editDistance (M : ℕ → ℕ → Prop) (n m : ℕ) : ℕ :=
  sInf {d | Reach M d n m}

theorem reach_editDistance (M : ℕ → ℕ → Prop) (n m : ℕ) :
    Reach M (editDistance M n m) n m :=
  Nat.sInf_mem (s := {d | Reach M d n m}) ⟨n + m, reach_add M n m⟩

theorem editDistance_le (h : Reach M d n m) : editDistance M n m ≤ d :=
  Nat.sInf_le h

theorem editDistance_le_add (M : ℕ → ℕ → Prop) (n m : ℕ) : editDistance M n m ≤ n + m :=
  editDistance_le (reach_add M n m)

theorem editDistance_le_cost (h : Path M 0 0 p n m) : editDistance M n m ≤ cost p :=
  editDistance_le (reach_iff_path.2 ⟨p, h, rfl⟩)

/-! ### Points beyond the corner

The diagonal steps of a comparison stay inside its rectangle. A path that leaves the
rectangle has then paid for every position beyond it, so projecting its end back to the
border saves exactly that much. -/

/-- Every diagonal step starts inside the rectangle `n × m`. -/
def Confined (M : ℕ → ℕ → Prop) (n m : ℕ) : Prop :=
  ∀ i j, M i j → i < n ∧ j < m

theorem Reach.clip (hM : Confined M n m) (h : Reach M d x y) :
    ∃ d', Reach M d' (min x n) (min y m) ∧ d' + (x - n) + (y - m) ≤ d := by
  induction h with
  | zero => exact ⟨0, by simpa using Reach.zero, by simp⟩
  | @keep d x y _ hk ih =>
    obtain ⟨d', hr, hle⟩ := ih
    obtain ⟨hx, hy⟩ := hM _ _ hk
    rw [min_eq_left hx.le, min_eq_left hy.le] at hr
    rw [min_eq_left (Nat.succ_le_of_lt hx), min_eq_left (Nat.succ_le_of_lt hy)]
    exact ⟨d', hr.keep hk, by omega⟩
  | @del d x y _ ih =>
    obtain ⟨d', hr, hle⟩ := ih
    rcases Nat.lt_or_ge x n with hx | hx
    · rw [min_eq_left hx.le] at hr
      rw [min_eq_left (Nat.succ_le_of_lt hx)]
      exact ⟨d' + 1, hr.del, by omega⟩
    · -- a move beyond the border is paid for, and the projection does not make it
      rw [min_eq_right hx] at hr
      rw [show min (x + 1) n = n from min_eq_right (by omega)]
      exact ⟨d', hr, by omega⟩
  | @ins d x y _ ih =>
    obtain ⟨d', hr, hle⟩ := ih
    rcases Nat.lt_or_ge y m with hy | hy
    · rw [min_eq_left hy.le] at hr
      rw [min_eq_left (Nat.succ_le_of_lt hy)]
      exact ⟨d' + 1, hr.ins, by omega⟩
    · rw [min_eq_right hy] at hr
      rw [show min (y + 1) m = m from min_eq_right (by omega)]
      exact ⟨d', hr, by omega⟩

/-- What a point costs bounds the distance of the corner. -/
theorem Reach.editDistance_le (hM : Confined M n m) (h : Reach M d x y) :
    editDistance M n m + (x - n) + (y - m) ≤ d + (n - x) + (m - y) := by
  obtain ⟨d', hr, hle⟩ := h.clip hM
  have hc := EditGraph.editDistance_le (hr.extend (min_le_right x n) (min_le_right y m))
  omega

/-- Up to the distance of the corner, no point is further out than both sides together. -/
theorem Reach.le_add_of_le_editDistance (hM : Confined M n m) (h : Reach M d x y)
    (hd : d ≤ editDistance M n m) : x ≤ n + m ∧ y ≤ n + m := by
  have := h.editDistance_le hM
  omega

/-- Up to the distance of the corner, the corner is the only point at or beyond it. -/
theorem Reach.eq_of_le_editDistance (hM : Confined M n m) (h : Reach M d x y)
    (hd : d ≤ editDistance M n m) (hx : n ≤ x) (hy : m ≤ y) :
    x = n ∧ y = m ∧ d = editDistance M n m := by
  have := h.editDistance_le hM
  omega

end EditGraph
