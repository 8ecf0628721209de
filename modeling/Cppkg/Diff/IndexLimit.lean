import Cppkg.Diff.LongMessages

/-!
# Beyond the index type

`diff_lines` compares up to 32767 lines a side at once, the largest number of an `IndexT`, but
the algorithm computes with larger ones: the sum of both lengths, twice that sum for the length
of a row, and counters that leave the range before their loop ends. With `n` and `m` lines in
one batch:

* up to `n + m = 16383` everything stays in range (`myersDiff_spec`);
* from there to `n + m = 32767` the length of a row wraps to a negative number in the
  backtrace, which then finds no row at all: the difference list is empty
  (`myersDiff_of_wrapped_row`), for equal lists and for others;
* at `n + m = 32767` without a single match the search itself does not end: in row 32766 the
  counter of the diagonals wraps from 32768 to -32768 and goes through the row again
  (`myersDiff_diverges`);
* from `n + m = 32768` on the sum is negative and the array of costs cannot be allocated
  (`myersDiff_of_wrapped_sum`).

`diffLines_tellsApart_iff` puts them together.
-/

namespace Cppkg.Differ

open EditGraph

variable {α : Type} {comparator : α → α → Bool} {orig updated : List α}

/-! ### A row length that wraps -/

theorem toInt16_of_gt {z : ℤ} (h₁ : 32768 ≤ z) (h₂ : z < 98304) : toInt16 z = z - 65536 := by
  unfold toInt16
  omega

theorem toSizeT_of_neg {z : ℤ} (h₁ : -18446744073709551616 ≤ z) (h₂ : z < 0) :
    (toSizeT z : ℤ) = z + 18446744073709551616 := by
  unfold toSizeT
  omega

/-- The backtrace finds no row, and the difference list is empty. -/
theorem myersDiff_of_wrapped_row (comparator : α → α → Bool)
    (hlow : 16384 ≤ orig.length + updated.length)
    (hhigh : orig.length + updated.length ≤ 32767)
    (hD : distance comparator orig updated ≤ 32766) {fuel : ℕ}
    (hfuel : distance comparator orig updated + 2 ≤ fuel) :
    myersDiff comparator orig updated fuel = .ok [] := by
  obtain ⟨traces, hrun, tinv⟩ := myersDiffTrace_spec comparator hhigh hD hfuel
  have hlen : traces.length ≤ 32767 * 65535 := by
    rw [tinv.length_eq]
    exact Nat.mul_le_mul (by omega) (by rw [rowLength]; omega)
  have hn : toInt16 (orig.length : ℤ) = orig.length := toInt16_natCast (by omega)
  have hm : toInt16 (updated.length : ℤ) = updated.length := toInt16_natCast (by omega)
  have hrows : traces.length /
      toSizeT (toInt16 (2 * ((orig.length : ℤ) + updated.length) + 1)) = 0 := by
    have hcost := toInt16_of_gt (z := 2 * ((orig.length : ℤ) + updated.length) + 1) (by omega)
      (by omega)
    -- as a `size_t` the negative row length exceeds that of any trace
    refine Nat.div_eq_of_lt ?_
    have := toSizeT_of_neg (z := 2 * ((orig.length : ℤ) + updated.length) + 1 - 65536)
      (by omega) (by omega)
    rw [hcost]
    omega
  have hback : myersDiffBacktrace comparator orig updated fuel = .ok [] := by
    rw [myersDiffBacktrace, hrun, ok_bind, hn, hm, hrows]
    rfl
  rw [myersDiff, hback, ok_bind, pointDiffs, ok_bind]
  rfl

/-! ### A sum that wraps -/

/-- The array of costs has a negative length, a huge one for its allocation. -/
theorem myersDiff_of_wrapped_sum (comparator : α → α → Bool) (hn : orig.length ≤ 32767)
    (hm : updated.length ≤ 32767) (hN : 32768 ≤ orig.length + updated.length) (fuel : ℕ) :
    myersDiff comparator orig updated fuel = .error .lengthError := by
  have hmax := toInt16_of_gt (z := (orig.length : ℤ) + updated.length) (by omega) (by omega)
  have hcost := toSizeT_of_neg (z := 2 * ((orig.length : ℤ) + updated.length - 65536) + 1)
    (by omega) (by omega)
  have hsize : ¬toSizeT (2 * ((orig.length : ℤ) + updated.length - 65536) + 1) ≤
      vectorMaxSize := by
    rw [vectorMaxSize]
    omega
  have htrace : myersDiffTrace comparator orig updated fuel = .error .lengthError := by
    simp only [myersDiffTrace, toInt16_natCast hn, toInt16_natCast hm, hmax, if_neg hsize]
  rw [myersDiff, myersDiffBacktrace, htrace]
  rfl

/-! ### A search that does not end

The last row before the corner's, `32766`, of a batch of 32767 lines without a match. Its loop
goes through the even diagonals up to 32766; the next one, 32768, wraps to -32768, whose two
neighbours share their slots with the diagonals 32766 and -32767. -/

section Diverges

variable {k : ℤ} {costs : List IndexT}

/-- The costs in row 32766, before diagonal `k`: the previous row and the slot beyond it. -/
structure WrapInv (k : ℤ) (costs : List IndexT) : Prop where
  length_eq : costs.length = 65535
  even : k % 2 = 0
  low : -32768 ≤ k
  high : k ≤ 32766
  /-- The previous row is never overwritten. -/
  prev : ∀ j, OnRow 32765 j → ∃ v : ℤ, costs[diagSlot 65535 j]? = some v ∧ 2 * v = 32765 + j
  border : costs[32768]? = some 0
  /-- The wrapped diagonal comes right after the last one of the row. -/
  wrapped : k = -32768 → costs[32766]? = some 32766

theorem slot_of_nonneg (h₁ : 0 ≤ k) (h₂ : k ≤ 65534) : diagSlot 65535 k = k.toNat :=
  diagSlot_of_nonneg (N := 32767) le_rfl h₁ (by omega)

theorem slot_of_neg (h₁ : k < 0) (h₂ : -65535 ≤ k) : diagSlot 65535 k = (65535 + k).toNat :=
  diagSlot_of_neg (N := 32767) le_rfl h₁ (by omega)

/-- Every slot the loop writes to belongs to an even diagonal or to the wrapped one. -/
theorem WrapInv.slot (inv : WrapInv k costs) :
    (∀ j, OnRow 32765 j → diagSlot 65535 k ≠ diagSlot 65535 j) ∧ diagSlot 65535 k ≠ 32768 := by
  have heven := inv.even
  have hlow := inv.low
  have hhigh := inv.high
  rcases lt_or_ge k 0 with hk | hk
  · rw [slot_of_neg hk (by omega)]
    refine ⟨fun j hj ↦ ?_, by omega⟩
    obtain ⟨hj₁, hj₂, hj₃⟩ := hj
    rcases lt_or_ge j 0 with hj | hj
    · rw [slot_of_neg hj (by omega)]
      omega
    · rw [slot_of_nonneg hj (by omega)]
      omega
  · rw [slot_of_nonneg hk (by omega)]
    refine ⟨fun j hj ↦ ?_, by omega⟩
    obtain ⟨hj₁, hj₂, hj₃⟩ := hj
    rcases lt_or_ge j 0 with hj | hj
    · rw [slot_of_neg hj (by omega)]
      omega
    · rw [slot_of_nonneg hj (by omega)]
      omega

theorem WrapInv.set (inv : WrapInv k costs) {x : ℤ} (hx : k = 32766 → x = 32766) :
    WrapInv (toInt16 (k + 2)) (costs.set (diagSlot 65535 k) x) := by
  have heven := inv.even
  have hlow := inv.low
  have hhigh := inv.high
  obtain ⟨hprev, hborder⟩ := inv.slot
  have hnext : toInt16 (k + 2) = if k = 32766 then -32768 else k + 2 := by
    split
    · rename_i hk
      rw [hk]
      rfl
    · exact toInt16_of_bounds (by omega) (by omega)
  rw [hnext]
  constructor
  · rw [List.length_set, inv.length_eq]
  · split <;> omega
  · split <;> omega
  · split <;> omega
  · intro j hj
    rw [List.getElem?_set_ne (hprev j hj)]
    exact inv.prev j hj
  · rw [List.getElem?_set_ne hborder]
    exact inv.border
  · intro hwrap
    have hk : k = 32766 := by
      split at hwrap <;> omega
    have hslot : diagSlot 65535 k = 32766 := by
      rw [hk]
      rfl
    rw [hslot, List.getElem?_set_self (by rw [inv.length_eq]; decide), hx hk]

theorem WrapInv.slot_lt (inv : WrapInv k costs) (j : ℤ) : diagSlot 65535 j < costs.length := by
  rw [inv.length_eq]
  exact Nat.mod_lt _ (by decide)

/-- The wrapped diagonal starts beyond both arrays: its neighbours are the slot of diagonal
32766 and the slot beyond the previous row. -/
theorem WrapInv.step_wrapped (hN : orig.length + updated.length = 32767)
    (inv : WrapInv (-32768) costs) :
    searchDiagonal comparator orig updated orig.length updated.length 65535 32766 (-32768) costs =
      .ok (32767, -1, costs.set (diagSlot 65535 (-32768)) 32767) := by
  have hrp : readAt costs (diagSlot 65535 (-32768 - 1)) = .ok 32766 := by
    rw [show diagSlot 65535 (-32768 - 1) = 32766 from rfl]
    exact readAt_of_getElem? (inv.wrapped rfl)
  have hrn : readAt costs (diagSlot 65535 (-32768 + 1)) = .ok 0 := by
    rw [show diagSlot 65535 (-32768 + 1) = 32768 from rfl]
    exact readAt_of_getElem? inv.border
  have hentry : (if (-32768 : ℤ) = -32766 ∨ ((-32768 : ℤ) ≠ 32766 ∧ (32766 : ℤ) < 0) then
      (0 : ℤ) else toInt16 (32766 + 1)) = 32767 := rfl
  rw [searchDiagonal, hrp, ok_bind, hrn, ok_bind]
  dsimp only
  rw [hentry, show toInt16 (32767 - -32768) = -1 from rfl,
    show ((orig.length : ℤ) - 32767).toNat = 0 by omega, followDiagonal, ok_bind]
  dsimp only
  rw [writeAt_of_lt (inv.slot_lt _), ok_bind]

/-- The entry point of a diagonal of the row, whose neighbours belong to the previous row. -/
theorem WrapInv.entry (inv : WrapInv k costs) (hk : -32768 < k) {prevk nextk : ℤ}
    (hp : costs[diagSlot 65535 (k - 1)]? = some prevk)
    (hn : costs[diagSlot 65535 (k + 1)]? = some nextk) :
    ∃ x : ℕ, 2 * (x : ℤ) = 32766 + k ∧
      (if k = -(32766 : ℤ) ∨ (k ≠ 32766 ∧ prevk < nextk) then nextk
        else toInt16 (prevk + 1)) = x := by
  have heven := inv.even
  have hhigh := inv.high
  have hprev : k ≠ -32766 → 2 * prevk = 32764 + k := fun hne ↦ by
    obtain ⟨v, hv, hval⟩ := inv.prev (k - 1) ⟨by omega, by omega, by omega⟩
    rw [hp] at hv
    cases hv
    omega
  have hnext : k ≠ 32766 → 2 * nextk = 32766 + k := fun hne ↦ by
    obtain ⟨v, hv, hval⟩ := inv.prev (k + 1) ⟨by omega, by omega, by omega⟩
    rw [hn] at hv
    cases hv
    omega
  refine ⟨((32766 + k) / 2).toNat, by omega, ?_⟩
  by_cases htop : k = 32766
  · have hne : k ≠ -32766 := by omega
    have := hprev hne
    rw [if_neg (by omega), toInt16_of_bounds (by omega) (by omega)]
    omega
  · have := hnext htop
    rw [if_pos]
    · omega
    · by_cases hbottom : k = -32766
      · exact Or.inl hbottom
      · have := hprev hbottom
        exact Or.inr ⟨htop, by omega⟩

/-- One iteration goes on with the next diagonal, or with the wrapped one. -/
theorem WrapInv.step (hnone : ∀ i j, ¬Compares comparator orig updated i j)
    (hN : orig.length + updated.length = 32767) (inv : WrapInv k costs) :
    ∃ x y : ℤ, searchDiagonal comparator orig updated orig.length updated.length 65535 32766 k
        costs = .ok (x, y, costs.set (diagSlot 65535 k) x) ∧
      (x < orig.length ∨ y < updated.length) ∧ (k = 32766 → x = 32766) := by
  rcases eq_or_lt_of_le inv.low with rfl | hk
  · exact ⟨32767, -1, inv.step_wrapped hN, Or.inr (by omega), by omega⟩
  · have hhigh := inv.high
    obtain ⟨prevk, hp, hrp⟩ : ∃ v : ℤ, _ := exists_readAt (inv.slot_lt (k - 1))
    obtain ⟨nextk, hn, hrn⟩ : ∃ v : ℤ, _ := exists_readAt (inv.slot_lt (k + 1))
    obtain ⟨x, hx, hentry⟩ := inv.entry hk hp hn
    obtain ⟨y, hy⟩ : ∃ y : ℕ, (x : ℤ) - y = k := ⟨(x - k).toNat, by omega⟩
    obtain ⟨e, hs, he⟩ := followDiagonal_spec comparator (show orig.length + updated.length ≤ 32767
      by omega) (t := ((orig.length : ℤ) - x).toNat) (x := x) (y := y) (by omega)
    -- nothing compares, so the diagonal ends where it starts
    obtain rfl : e = x := by
      by_contra hne
      have hle := hs.le
      exact hnone x y (hs.step x y le_rfl (by omega) rfl)
    rw [Nat.sub_self, Nat.add_zero] at he
    refine ⟨e, y, ?_, by omega, by omega⟩
    rw [searchDiagonal, hrp, ok_bind, hrn, ok_bind]
    dsimp only
    rw [hentry, toInt16_of_bounds (z := (e : ℤ) - k) (by omega) (by omega),
      show (e : ℤ) - k = y by omega, he, ok_bind]
    dsimp only
    rw [writeAt_of_lt (inv.slot_lt _), ok_bind]

/-- **The row never ends.** -/
theorem traceRow_diverges (hnone : ∀ i j, ¬Compares comparator orig updated i j)
    (hN : orig.length + updated.length = 32767) (inv : WrapInv k costs) (fuel : ℕ) :
    traceRow comparator orig updated orig.length updated.length 65535 32766 fuel k costs true =
      .error .outOfFuel := by
  induction fuel generalizing k costs with
  | zero => rfl
  | succ fuel ih =>
    obtain ⟨x, y, hrun, hcont, hx⟩ := inv.step hnone hN
    rw [traceRow, if_pos ⟨inv.high, rfl⟩, hrun, ok_bind]
    dsimp only
    rw [decide_eq_true hcont]
    exact ih (inv.set hx)

theorem RowInv.wrapInv (hnone : ∀ i j, ¬Compares comparator orig updated i j)
    (hN : orig.length + updated.length = 32767)
    (inv : RowInv comparator orig updated 32766 (-32766) costs) : WrapInv (-32766) costs where
  length_eq := by rw [inv.length_eq, rowLength, hN]
  even := rfl
  low := by decide
  high := by decide
  prev j hj := by
    have hsnap := inv.prev 32765 rfl j hj
    rw [rowLength, hN] at hsnap
    exact ⟨_, hsnap, furthest_of_not hnone hj⟩
  border := inv.unreached 32768 (by decide) (by rw [rowLength, hN]; decide)
  wrapped h := absurd h (by decide)

/-- The search runs through the rows below 32766 and stays in that row. -/
theorem traceRows_diverges (hnone : ∀ i j, ¬Compares comparator orig updated i j)
    (hN : orig.length + updated.length = 32767) {d : ℕ} (hd : d ≤ 32766)
    (inv : RowInv comparator orig updated d (-(d : ℤ)) costs) (fuel rowFuel : ℕ)
    (hfuel : 32767 ≤ d + fuel) (hrow : 32769 ≤ rowFuel) (traces : List IndexT) :
    traceRows comparator orig updated orig.length updated.length 32767 65535 rowFuel fuel d costs
      traces true = .error .outOfFuel := by
  have hrowLength : rowLength orig updated = 65535 := by rw [rowLength, hN]
  have hD : distance comparator orig updated = 32767 := by
    rw [distance, editDistance_of_not hnone, hN]
  induction fuel generalizing d costs traces with
  | zero => omega
  | succ fuel ih =>
    have hiedit : (d : ℤ) ≤ 32767 ∧ true = true := ⟨by omega, rfl⟩
    rw [traceRows, if_pos hiedit, toInt16_of_bounds (z := -(d : ℤ)) (by omega) (by omega)]
    rcases Nat.lt_or_eq_of_le hd with hlt | rfl
    · obtain ⟨costs', hrun, inv'⟩ := traceRow_of_lt hN.le (by omega) (by omega) rowFuel inv
        (by omega) le_rfl (by omega) (by omega)
      rw [hrowLength] at hrun
      rw [hrun, ok_bind]
      dsimp only
      rw [show toInt16 ((d : ℤ) + 1) = ((d + 1 : ℕ) : ℤ) from
        toInt16_of_bounds (by omega) (by omega)]
      exact ih (by omega) inv'.start (by omega) _
    · have hdiv := traceRow_diverges hnone hN (inv.wrapInv hnone hN) rowFuel
      rw [show -((32766 : ℕ) : ℤ) = -32766 from rfl, show ((32766 : ℕ) : ℤ) = 32766 from rfl,
        hdiv]
      rfl

/-- **The search does not end.** No number of iterations is enough. -/
theorem myersDiff_diverges (comparator : α → α → Bool)
    (hnone : ∀ i j, ¬Compares comparator orig updated i j)
    (hN : orig.length + updated.length = 32767) {fuel : ℕ} (hfuel : 32769 ≤ fuel) :
    myersDiff comparator orig updated fuel = .error .outOfFuel := by
  have hn : toInt16 (orig.length : ℤ) = orig.length := toInt16_natCast (by omega)
  have hm : toInt16 (updated.length : ℤ) = updated.length := toInt16_natCast (by omega)
  have hmax : toInt16 ((orig.length : ℤ) + updated.length) = 32767 := by
    rw [toInt16_of_bounds (by omega) (by omega)]
    omega
  have hcost : toSizeT (2 * 32767 + 1) = 65535 := rfl
  have hsize : 65535 ≤ vectorMaxSize := by decide
  have hstart := @rowInv_zero _ comparator orig updated
  have htrace : myersDiffTrace comparator orig updated fuel = .error .outOfFuel := by
    have hrows := traceRows_diverges hnone hN (Nat.zero_le _) hstart fuel fuel (by omega) hfuel []
    rw [rowLength, hN] at hrows
    simp only [myersDiffTrace, hn, hm, hmax, hcost, if_pos hsize]
    exact hrows
  rw [myersDiff, myersDiffBacktrace, htrace]
  rfl

end Diverges

/-! ### Texts -/

theorem safeDiffMsg_of_error {expect got : StringsT} {b fuel : ℕ} {fault : Fault}
    (h : myersDiff lineEq (expect.take b) (got.take b) fuel = .error fault) :
    safeDiffMsg expect got b (fuel + 1) = .error fault := by
  have hbatch : safeDiffMsgBatch expect got b fuel = .error fault := by
    rw [safeDiffMsgBatch]
    split
    · rename_i hle
      rw [List.take_of_length_le hle.1, List.take_of_length_le hle.2] at h
      rw [h, error_bind]
    · extract_lets exbatch gobatch
      have hexbatch : exbatch = expect.take b := List.take_eq_take_min.symm
      have hgobatch : gobatch = got.take b := List.take_eq_take_min.symm
      rw [hexbatch, hgobatch, h, error_bind]
  rw [safeDiffMsg, safeDiffMsgHelper, hbatch, error_bind, error_bind]

theorem safeDiffMsg_of_nil {expect got : StringsT} {b fuel : ℕ} (hexpect : expect.length ≤ b)
    (hgot : got.length ≤ b) (h : myersDiff lineEq expect got fuel = .ok []) :
    safeDiffMsg expect got b (fuel + 1) = .ok [] := by
  have hbatch : safeDiffMsgBatch expect got b fuel = .ok ([], none) := by
    rw [safeDiffMsgBatch, if_pos ⟨hexpect, hgot⟩, h]
    rfl
  rw [safeDiffMsg, safeDiffMsgHelper, hbatch]
  rfl

theorem distance_self (expect : StringsT) : distance lineEq expect expect = 0 :=
  Nat.le_zero.1 (editDistance_le (reach_zero_iff.2 fun _ hi ↦ compares_of_take_eq rfl le_rfl hi))

/-- Up to the sum at which the length of a row wraps, messages tell lists apart. -/
theorem tellsApart_of_le {b : ℕ} (hb : 1 ≤ b) {expect got : StringsT}
    (hN : expect.length + got.length ≤ 16383) : TellsApart b expect got := by
  obtain ⟨ds, hmove, horig, hupd, -⟩ := safeDiffMsgHelper_spec hb
    (Nat.lt_add_one (expect.length + got.length)) (by omega)
  rw [← batchedScript] at hmove
  have hw := width_map_move ds
  have hh := height_map_move ds
  have hle := length_le_width_add_height (batchedScript b expect got)
  have hwle : width (batchedScript b expect got) ≤ entryCount b expect got :=
    List.countP_le_length
  have hhle : height (batchedScript b expect got) ≤ entryCount b expect got :=
    List.countP_le_length
  rw [← entryCount] at hle
  rw [hmove, horig] at hw
  rw [hmove, hupd] at hh
  have hcount : toInt16 (entryCount b expect got) = entryCount b expect got :=
    toInt16_natCast (by omega)
  have hspec := (safeDiffMsg_spec hb expect got (by omega)).1
  rw [hcount, Int.toNat_natCast, List.take_of_length_le (by omega),
    List.take_of_length_le (by omega)] at hspec
  exact hspec (Int.natCast_nonneg _)

/-- What a caller expects of `diff_lines`: it returns, and with an empty message exactly when
the lines it compares are the same. -/
def TextsToldApart (trim : Line → Line) (expect got : List Char)
    (ignoreEmptyLines trimSpaces : Bool) : Prop :=
  ∃ msg, (∃ bound, ∀ fuel, bound ≤ fuel →
    diffLines trim expect got ignoreEmptyLines trimSpaces fuel = .ok msg) ∧
    (msg = [] ↔ processLines trim expect ignoreEmptyLines trimSpaces =
      processLines trim got ignoreEmptyLines trimSpaces)

/-- Lists for which the backtrace finds no row have an empty message. -/
theorem safeDiffMsg_of_wrapped_row {expect got : StringsT}
    (hlow : 16384 ≤ expect.length + got.length) (hhigh : expect.length + got.length ≤ 32767)
    (hD : distance lineEq expect got ≤ 32766) {fuel : ℕ}
    (hfuel : distance lineEq expect got + 3 ≤ fuel) :
    safeDiffMsg expect got defaultBatchLimit fuel = .ok [] := by
  obtain ⟨fuel, rfl⟩ := Nat.exists_eq_add_one_of_ne_zero (show fuel ≠ 0 by omega)
  exact safeDiffMsg_of_nil (show _ ≤ 32767 by omega) (show _ ≤ 32767 by omega)
    (myersDiff_of_wrapped_row lineEq hlow hhigh hD (by omega))

/-- Lists of 32767 lines together without a match have no message. -/
theorem safeDiffMsg_of_no_match {expect got : StringsT}
    (hN : expect.length + got.length = 32767) (hD : distance lineEq expect got = 32767)
    {fuel : ℕ} (hfuel : 32770 ≤ fuel) :
    safeDiffMsg expect got defaultBatchLimit fuel = .error .outOfFuel := by
  obtain ⟨fuel, rfl⟩ := Nat.exists_eq_add_one_of_ne_zero (show fuel ≠ 0 by omega)
  refine safeDiffMsg_of_error ?_
  have hlimit : defaultBatchLimit = 32767 := rfl
  rw [List.take_of_length_le (by omega), List.take_of_length_le (by omega)]
  exact myersDiff_diverges lineEq (not_of_editDistance_eq_add (confined_compares _ _ _)
    (hD.trans hN.symm)) hN (by omega)

/-- Lists of more lines together have no message either. -/
theorem safeDiffMsg_of_gt {expect got : StringsT} (hN : 32767 < expect.length + got.length)
    {fuel : ℕ} (hfuel : 32770 ≤ fuel) :
    ∃ fault, safeDiffMsg expect got defaultBatchLimit fuel = .error fault := by
  obtain ⟨fuel, rfl⟩ := Nat.exists_eq_add_one_of_ne_zero (show fuel ≠ 0 by omega)
  have hexpect : (expect.take defaultBatchLimit).length = min 32767 expect.length :=
    List.length_take
  have hgot : (got.take defaultBatchLimit).length = min 32767 got.length := List.length_take
  rcases Nat.lt_or_ge 32767
    ((expect.take defaultBatchLimit).length + (got.take defaultBatchLimit).length) with hgt | hle
  · exact ⟨_, safeDiffMsg_of_error
      (myersDiff_of_wrapped_sum lineEq (by omega) (by omega) hgt fuel)⟩
  · -- one list is empty, and the other fills its batch
    refine ⟨_, safeDiffMsg_of_error (myersDiff_diverges lineEq (fun i j h ↦ ?_) (by omega)
      (by omega))⟩
    have := confined_compares _ _ _ _ _ h
    omega

/-- **When texts are told apart.** As long as the lines compared are at most 16383 on both
sides together, and up to 32767 when they are the same. -/
theorem diffLines_tellsApart_iff (trim : Line → Line) (expect got : List Char)
    (ignoreEmptyLines trimSpaces : Bool) :
    TextsToldApart trim expect got ignoreEmptyLines trimSpaces ↔
      (processLines trim expect ignoreEmptyLines trimSpaces).length +
          (processLines trim got ignoreEmptyLines trimSpaces).length ≤ 16383 ∨
        ((processLines trim expect ignoreEmptyLines trimSpaces).length +
            (processLines trim got ignoreEmptyLines trimSpaces).length ≤ 32767 ∧
          processLines trim expect ignoreEmptyLines trimSpaces =
            processLines trim got ignoreEmptyLines trimSpaces) := by
  simp only [TextsToldApart, diffLines]
  generalize processLines trim expect ignoreEmptyLines trimSpaces = exlines
  generalize processLines trim got ignoreEmptyLines trimSpaces = golines
  constructor
  · rintro ⟨msg, ⟨bound, hrun⟩, hmsg⟩
    have hrun := hrun (max bound 40000) (le_max_left _ _)
    have hfuel : 40000 ≤ max bound 40000 := le_max_right _ _
    by_contra hlimit
    push Not at hlimit
    obtain ⟨hlow, hne⟩ := hlimit
    -- too many lines: the run fails, does not end, or prints nothing for lists that differ
    rcases Nat.lt_or_ge 32767 (exlines.length + golines.length) with hgt | hle
    · obtain ⟨fault, hfault⟩ := safeDiffMsg_of_gt hgt (hfuel.trans' (by decide))
      cases hrun.symm.trans hfault
    · rcases Nat.lt_or_ge 32766 (distance lineEq exlines golines) with hD | hD
      · have hDN := distance_le_add lineEq exlines golines
        cases hrun.symm.trans (safeDiffMsg_of_no_match (by omega) (by omega)
          (hfuel.trans' (by decide)))
      · cases hrun.symm.trans (safeDiffMsg_of_wrapped_row hlow hle hD
          (hfuel.trans' (by omega)))
        exact hne hle (hmsg.1 rfl)
  · intro hlimit
    rcases Nat.lt_or_ge 16383 (exlines.length + golines.length) with hgt | hle
    · obtain ⟨hle, rfl⟩ := hlimit.resolve_left (by omega)
      refine ⟨[], ⟨3, fun fuel hfuel ↦ ?_⟩, iff_of_true rfl rfl⟩
      exact safeDiffMsg_of_wrapped_row hgt hle (by rw [distance_self]; decide)
        (by rw [distance_self]; exact hfuel)
    · obtain ⟨msg, hprints, hmsg⟩ := tellsApart_of_le (b := defaultBatchLimit) (by decide) hle
      exact ⟨msg, ⟨_, hprints⟩, hmsg⟩

theorem processLinesLoop_newlines (trim : Line → Line) (t : ℕ) (lines : StringsT) :
    processLinesLoop trim false false t (List.replicate t '\n') lines =
      lines ++ List.replicate t [] := by
  induction t generalizing lines with
  | zero => simp [processLinesLoop]
  | succ t ih =>
    have hline : getline (List.replicate (t + 1) '\n') = some ([], List.replicate t '\n') := by
      simp [getline, List.replicate_succ]
    rw [processLinesLoop, hline]
    dsimp only
    rw [if_pos (Or.inl rfl), if_neg (by decide), ih, List.append_assoc, List.replicate_succ]
    rfl

/-- Lists of 16384 to 32766 lines have an empty message against no line at all. -/
theorem safeDiffMsg_nil {expect : StringsT} (hlow : 16384 ≤ expect.length)
    (hhigh : expect.length ≤ 32766) {fuel : ℕ} (hfuel : 32769 ≤ fuel) :
    safeDiffMsg expect [] defaultBatchLimit fuel = .ok [] := by
  have hD := distance_le_add lineEq expect []
  rw [List.length_nil, Nat.add_zero] at hD
  refine safeDiffMsg_of_wrapped_row ?_ ?_ (by omega) (by omega)
  · rwa [List.length_nil, Nat.add_zero]
  · rw [List.length_nil]
    omega

/-- A text of empty lines is reported equal to the empty text. -/
theorem not_textsToldApart_newlines :
    ¬TextsToldApart (fun l ↦ l) (List.replicate 16384 '\n') [] false false := by
  have hex : processLines (fun l ↦ l) (List.replicate 16384 '\n') false false =
      List.replicate 16384 [] := by
    rw [processLines, List.length_replicate, processLinesLoop_newlines, List.nil_append]
  have hgot : processLines (fun l ↦ l) [] false false = [] := rfl
  rintro ⟨msg, ⟨bound, hrun⟩, hmsg⟩
  have hrun := hrun (max bound 40000) (le_max_left _ _)
  have hfuel : 40000 ≤ max bound 40000 := le_max_right _ _
  have hlen : (List.replicate 16384 ([] : Line)).length = 16384 := List.length_replicate
  rw [hex, hgot] at hmsg
  rw [diffLines, hex, hgot] at hrun
  cases hrun.symm.trans (safeDiffMsg_nil hlen.ge (hlen.le.trans (by decide))
    (hfuel.trans' (by decide)))
  exact absurd ((List.replicate_eq_nil_iff _).1 (hmsg.1 rfl)) (by decide)

end Cppkg.Differ
