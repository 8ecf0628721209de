import Cppkg.Machine

/-!
# Myers' difference algorithm

The functions of `myers_diff.h` on lists of any element type under any Boolean comparator.
`IndexT` is the 16-bit signed type every position, diagonal and edit count is stored in, so
every assignment to such a variable goes through `toInt16`; the arithmetic in between is
that of `int`, or of `size_t` where an operand is one.

A diagonal `k` is stored in the slot `(ncost + k) % ncost` of an array of
`ncost = 2 (n + m) + 1` entries, so the negative diagonals wrap around to its end. The same
expression is evaluated in `size_t` in the search (`diagSlot`) and in `int` in the
backtrace, where `ncost` is itself an `IndexT`.
-/

namespace Cppkg.Differ

/-- `IndexT`, the index type: a 16-bit signed integer. -/
abbrev IndexT := ℤ

/-- `PointT`: a position in the original and one in the updated array. -/
abbrev PointT := IndexT × IndexT

/-- `std::vector<IndexT>::max_size()`. -/
def vectorMaxSize : ℕ := 4611686018427387903

variable {α : Type}

/-! ### The search -/

section Search

variable (comparator : α → α → Bool) (orig updated : List α)

/-- The slot of diagonal `k`: `(ncost + k) % ncost`, in `size_t`. -/
def diagSlot (ncost : ℕ) (k : ℤ) : ℕ := toSizeT (ncost + k) % ncost

/-- The loop `while (x < n && y < m && comparator(...)) { ++x; ++y; }`. It makes at most
`n - x` iterations, the first argument; the counters do not wrap, as they stay at most
`n` and `m`. -/
def followDiagonal (n m : IndexT) : ℕ → IndexT → IndexT → Except Fault (IndexT × IndexT)
  | 0, x, y => .ok (x, y)
  | t + 1, x, y =>
    if x < n ∧ y < m then do
      let a ← readAt orig x
      let b ← readAt updated y
      if comparator a b then followDiagonal n m t (toInt16 (x + 1)) (toInt16 (y + 1))
      else .ok (x, y)
    else .ok (x, y)

/-- One iteration over the diagonals: choose where to enter diagonal `k`, follow it, and
record how far it went. Returns the point reached and the costs. -/
def searchDiagonal (n m : IndexT) (ncost : ℕ) (iedit k : IndexT) (costs : List IndexT) :
    Except Fault (IndexT × IndexT × List IndexT) := do
  let prevk ← readAt costs (diagSlot ncost (k - 1))
  let nextk ← readAt costs (diagSlot ncost (k + 1))
  let x := if k = -iedit ∨ (k ≠ iedit ∧ prevk < nextk) then nextk else toInt16 (prevk + 1)
  let y := toInt16 (x - k)
  let (x, y) ← followDiagonal comparator orig updated n m (n - x).toNat x y
  let costs ← writeAt costs (diagSlot ncost k) x
  .ok (x, y, costs)

/-- The loop over the diagonals of one edit count,
`for (IndexT k = -iedit; k <= iedit && cont; k += 2)`. -/
def traceRow (n m : IndexT) (ncost : ℕ) (iedit : IndexT) :
    ℕ → IndexT → List IndexT → Bool → Except Fault (List IndexT × Bool)
  | 0, _, _, _ => .error .outOfFuel
  | fuel + 1, k, costs, cont =>
    if k ≤ iedit ∧ cont then do
      let (x, y, costs) ← searchDiagonal comparator orig updated n m ncost iedit k costs
      traceRow n m ncost iedit fuel (toInt16 (k + 2)) costs (decide (x < n ∨ y < m))
    else .ok (costs, cont)

/-- The loop over the edit counts,
`for (IndexT iedit = 0; iedit <= max_edit && cont; ++iedit)`. -/
def traceRows (n m maxEdit : IndexT) (ncost rowFuel : ℕ) :
    ℕ → IndexT → List IndexT → List IndexT → Bool → Except Fault (List IndexT)
  | 0, _, _, _, _ => .error .outOfFuel
  | fuel + 1, iedit, costs, trace, cont =>
    if iedit ≤ maxEdit ∧ cont then do
      let (costs', cont) ←
        traceRow comparator orig updated n m ncost iedit rowFuel (toInt16 (-iedit)) costs true
      traceRows n m maxEdit ncost rowFuel fuel (toInt16 (iedit + 1)) costs' (trace ++ costs)
        cont
    else .ok trace

/-- `myers_diff_trace`: the costs before each edit count, one row of `ncost` entries after
the other. -/
def myersDiffTrace (fuel : ℕ) : Except Fault (List IndexT) :=
  let n := toInt16 orig.length
  let m := toInt16 updated.length
  let maxEdit := toInt16 (n + m)
  let ncost := toSizeT (2 * maxEdit + 1)
  if ncost ≤ vectorMaxSize then
    traceRows comparator orig updated n m maxEdit ncost fuel fuel 0 (List.replicate ncost 0) []
      true
  else .error .lengthError

end Search

/-! ### The backtrace -/

/-- The loop `while (x > prev_x && y > prev_y) points.push_back({--x, --y})`, of at most
`x - prev_x` iterations. -/
def walkBack (prevX prevY : IndexT) : ℕ → IndexT → IndexT → List PointT → List PointT
  | 0, _, _, points => points
  | t + 1, x, y, points =>
    if prevX < x ∧ prevY < y then
      walkBack prevX prevY t (toInt16 (x - 1)) (toInt16 (y - 1))
        (points ++ [(toInt16 (x - 1), toInt16 (y - 1))])
    else points

/-- The position of diagonal `k` in row `iedit` of the traces, in `int`. -/
def traceSlot (ncost iedit k : IndexT) : ℤ := iedit * ncost + (ncost + k).tmod ncost

/-- The diagonal the backtrace goes on with, compared as in the search. -/
def prevDiagonal (traces : List IndexT) (ncost iedit k : IndexT) : Except Fault IndexT :=
  if k = -iedit then .ok (toInt16 (k + 1))
  else if k ≠ iedit then do
    let prevk ← readAt traces (traceSlot ncost iedit (k - 1))
    let nextk ← readAt traces (traceSlot ncost iedit (k + 1))
    .ok (if prevk < nextk then toInt16 (k + 1) else toInt16 (k - 1))
  else .ok (toInt16 (k - 1))

/-- The loop `for (IndexT iedit = ntraces - 1; iedit >= 0; --iedit)`, where the first
argument is `iedit + 1`. -/
def backtraceRows (traces : List IndexT) (ncost : IndexT) :
    ℕ → IndexT → IndexT → List PointT → Except Fault (List PointT)
  | 0, _, _, points => .ok points
  | iedit + 1, x, y, points => do
    let prevK ← prevDiagonal traces ncost iedit (toInt16 (x - y))
    let prevX ← readAt traces (traceSlot ncost iedit prevK)
    let prevY := toInt16 (prevX - prevK)
    let points := walkBack prevX prevY (x - prevX).toNat x y points
    let points := if 0 < iedit then points ++ [(prevX, prevY)] else points
    backtraceRows traces ncost iedit prevX prevY points

variable (comparator : α → α → Bool) (orig updated : List α)

/-- `myers_diff_backtrace`: the points of a shortest path, from the corner back. -/
def myersDiffBacktrace (fuel : ℕ) : Except Fault (List PointT) := do
  let x := toInt16 orig.length
  let y := toInt16 updated.length
  let ncost := toInt16 (2 * (x + y) + 1)
  let traces ← myersDiffTrace comparator orig updated fuel
  let ntraces := toInt16 ((traces.length / toSizeT ncost : ℕ) : ℤ)
  backtraceRows traces ncost ntraces.toNat x y []

/-! ### The difference list -/

/-- `Action`: what an entry does. -/
inductive Action where
  | eq
  | add
  | del
  deriving DecidableEq, Repr

/-- `Diff`: one entry of a difference list. -/
structure Diff (α : Type) where
  /-- The element being edited. -/
  val : α
  /-- Its position in the original array, `-1` when it is not there. -/
  orig : IndexT
  /-- Its position in the updated array, `-1` when it is not there. -/
  updated : IndexT
  action : Action
  deriving DecidableEq, Repr

/-- The entry for the step between two successive points of the backtrace. -/
def pointDiff (prev next : PointT) : Except Fault (Diff α) :=
  if next.1 = prev.1 then do
    let val ← readAt updated next.2
    .ok ⟨val, -1, next.2, .add⟩
  else if next.2 = prev.2 then do
    let val ← readAt orig next.1
    .ok ⟨val, next.1, -1, .del⟩
  else do
    let val ← readAt orig next.1
    .ok ⟨val, next.1, next.2, .eq⟩

/-- The loop over the points. -/
def pointDiffs : PointT → List PointT → List (Diff α) → Except Fault (List (Diff α))
  | _, [], diffs => .ok diffs
  | prev, next :: points, diffs => do
    let diff ← pointDiff orig updated prev next
    pointDiffs next points (diffs ++ [diff])

/-- `myers_diff`: the differences between two arrays, in their order. -/
def myersDiff (fuel : ℕ) : Except Fault (List (Diff α)) := do
  let points ← myersDiffBacktrace comparator orig updated fuel
  let diffs ← pointDiffs orig updated (toInt16 orig.length, toInt16 updated.length) points []
  .ok diffs.reverse

end Cppkg.Differ
