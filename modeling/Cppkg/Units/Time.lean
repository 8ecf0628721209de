import Mathlib.Algebra.BigOperators.Intervals
import Mathlib.Algebra.Order.BigOperators.Ring.Finset
import Mathlib.Algebra.Order.Field.Basic
import Mathlib.Algebra.Order.Ring.Rat
import Mathlib.Tactic.IntervalCases
import Mathlib.Tactic.NormNum
import Mathlib.Tactic.Ring

/-!
# Readable times

`human_readable_time` of `time.cc`, up to the call of `sprintf` that prints a number and the name
of a unit. The number is read as an exact rational. The loop promotes a time to the largest unit
of which there is at least one (`promote_spec`).

The number is computed by one of two formulas. From a unit of at least `10000` starting units on
it is the quotient in ten-thousandths, narrowed to 32 bits. Below that it is the time itself,
whatever the unit. So the number shown is right when the unit is the starting one, or when it is
large and the quotient fits 32 bits (`shows_iff_scale`); in terms of the time, `ShownRight`.
-/

namespace Cppkg.Units

/-- `TimeUnit`. -/
inductive TimeUnit where
  | nano
  | micro
  | milli
  | centi
  | deci
  | one
  deriving DecidableEq, Repr

/-- The value of an enumerator. -/
def TimeUnit.index : TimeUnit → ℕ
  | .nano => 0
  | .micro => 1
  | .milli => 2
  | .centi => 3
  | .deci => 4
  | .one => 5

/-- `TimeUnit::_MAX_SUPPORTED`. -/
def maxSupported : ℕ := 6

/-- `time_unit_fmt`. -/
def timeUnitFmt : List String := ["ns", "μs", "ms", "cs", "ds", "s"]

/-- `time_incr`: how many of a unit make one of the next. -/
def timeIncr : List ℕ := [1000, 1000, 10, 10, 10]

/-- The loop
`for (; u < TimeUnit::_MAX_SUPPORTED-1 && (time / denom) >= time_incr[u]; ++u)`. It makes at most
one iteration for each unit, the first argument. -/
def promote (time : ℕ) : ℕ → ℕ → ℕ → ℕ × ℕ
  | 0, u, denom => (u, denom)
  | t + 1, u, denom =>
    if u < maxSupported - 1 ∧ time / denom ≥ timeIncr.getD u 0 then
      promote time t (u + 1) (denom * timeIncr.getD u 0)
    else (u, denom)

/-- The number that is printed, as an exact rational. -/
def number (time denom : ℕ) : ℚ :=
  if denom ≥ 10000 then ((time / (denom / 10000) % 2 ^ 32 : ℕ) : ℚ) / 10000 else time

/-- What reaches the call of `sprintf`: the number, and the index of the unit. -/
def readableTime (time : UInt64) (unit : TimeUnit) : ℚ × ℕ :=
  let r := promote time.toNat maxSupported unit.index 1
  (number time.toNat r.2, r.1)

/-- `human_readable_time`. -/
def humanReadableTime (sprintf : String → ℚ → String → String) (time : UInt64)
    (unit : TimeUnit) : String :=
  sprintf "%.5g%s" (readableTime time unit).1 (timeUnitFmt.getD (readableTime time unit).2 "")

/-! ### The unit -/

/-- The size of unit `u`, measured in unit `i`. -/
def scale (i u : ℕ) : ℕ := ∏ j ∈ Finset.Ico i u, timeIncr.getD j 0

@[simp] theorem scale_self (i : ℕ) : scale i i = 1 := by simp [scale]

theorem scale_succ {i u : ℕ} (h : i ≤ u) : scale i (u + 1) = scale i u * timeIncr.getD u 0 :=
  Finset.prod_Ico_succ_top h _

theorem timeIncr_pos : ∀ j < maxSupported - 1, 0 < timeIncr.getD j 0 := by decide

theorem scale_pos (i : ℕ) {u : ℕ} (hu : u < maxSupported) : 0 < scale i u :=
  Finset.prod_pos fun j hj ↦ timeIncr_pos j (by have := (Finset.mem_Ico.1 hj).2; omega)

/-- A unit that is as large as `10000` others consists of ten-thousandths. -/
theorem dvd_scale : ∀ i < maxSupported, ∀ u < maxSupported, 10000 ≤ scale i u →
    10000 ∣ scale i u := by
  decide

/-- The unit `u` is the right one for a time in units `i`: it is at most the seconds, there are
too few of it to make one of the next, and unless it is the unit `i` there is at least one. -/
structure Promoted (time i u : ℕ) : Prop where
  le : i ≤ u
  lt_maxSupported : u < maxSupported
  lt_incr : u < maxSupported - 1 → time / scale i u < timeIncr.getD u 0
  scale_le : i < u → scale i u ≤ time

theorem Promoted.lt_of_one_lt_scale {time i u : ℕ} (h : Promoted time i u)
    (hone : 1 < scale i u) : i < u := by
  refine Nat.lt_of_le_of_ne h.le ?_
  rintro rfl
  simp at hone

/-- **The loop promotes**: it ends in the right unit, with its size as the denominator. The
induction is on the iterations granted. -/
theorem promote_spec {time i t u : ℕ} (hle : i ≤ u) (hmax : u < maxSupported)
    (ht : maxSupported - u ≤ t) (hscale : i < u → scale i u ≤ time) :
    ∃ u', promote time t u (scale i u) = (u', scale i u') ∧ Promoted time i u' := by
  induction t generalizing u with
  | zero => omega
  | succ t ih =>
    rw [promote]
    split
    · rename_i hgo
      obtain ⟨hlt, hge⟩ := hgo
      rw [← scale_succ hle]
      refine ih (by omega) (by omega) (by omega) fun _ ↦ ?_
      rw [scale_succ hle, Nat.mul_comm]
      exact (Nat.le_div_iff_mul_le (scale_pos i hmax)).1 hge
    · rename_i hstop
      exact ⟨u, rfl, hle, hmax, fun hu ↦ by_contra fun hge ↦ hstop ⟨hu, Nat.not_lt.1 hge⟩, hscale⟩

theorem TimeUnit.index_lt (unit : TimeUnit) : unit.index < maxSupported := by
  cases unit <;> decide

/-- The unit that is printed, and the denominator the number is computed with. -/
theorem exists_promote (time : ℕ) (unit : TimeUnit) :
    ∃ u, promote time maxSupported unit.index 1 = (u, scale unit.index u) ∧
      Promoted time unit.index u := by
  have hscale : unit.index < unit.index → scale unit.index unit.index ≤ time := fun hlt ↦
    absurd hlt (Nat.lt_irrefl _)
  have h := promote_spec le_rfl unit.index_lt (Nat.sub_le maxSupported _) hscale
  rwa [scale_self] at h

/-! ### The number -/

/-- The number stands for the time, to a ten-thousandth of a unit of size `s`. -/
def Stands (time s : ℕ) (d : ℚ) : Prop := d * s ≤ time ∧ time < (d + 1 / 10000) * s

/-- The time itself stands for it in the starting unit only. -/
theorem stands_number_of_lt {time s : ℕ} (hpos : 0 < s) (hs : s < 10000)
    (htime : 1 < s → s ≤ time) : Stands time s (number time s) ↔ s = 1 := by
  rw [number, if_neg (Nat.not_le.2 hs), Stands]
  constructor
  · rintro ⟨hle, -⟩
    by_contra hne
    have hle' : time * s ≤ time := by exact_mod_cast hle
    have htwo := Nat.mul_le_mul_left time (show 2 ≤ s by omega)
    have := htime (by omega)
    omega
  · rintro rfl
    norm_num

/-- A quotient in ten-thousandths stands for the time as long as it fits 32 bits. -/
theorem stands_number_of_le {time c : ℕ} (hpos : 0 < c) :
    Stands time (10000 * c) (number time (10000 * c)) ↔ time / c < 2 ^ 32 := by
  have hc : 10000 * c / 10000 = c := Nat.mul_div_cancel_left c (by decide)
  have hscale : ∀ q : ℕ, (q : ℚ) / 10000 * ((10000 * c : ℕ) : ℚ) = ((q * c : ℕ) : ℚ) := fun q ↦ by
    push_cast
    ring
  have hmod := Nat.mod_le (time / c) (2 ^ 32)
  rw [number, if_pos (by omega), hc, Stands, ← add_div, hscale, ← Nat.cast_add_one, hscale,
    Nat.cast_le, Nat.cast_lt]
  have hlow : time / c % 2 ^ 32 * c ≤ time :=
    (Nat.mul_le_mul_right c hmod).trans (Nat.div_mul_le_self time c)
  rw [← Nat.div_lt_iff_lt_mul hpos]
  refine (and_iff_right hlow).trans ⟨fun hlt ↦ ?_, fun hlt ↦ ?_⟩
  · have := Nat.mod_lt (time / c) (show 0 < 2 ^ 32 by decide)
    omega
  · rw [Nat.mod_eq_of_lt hlt]
    exact Nat.lt_succ_self _

/-- The times that are shown right. Those in between are printed undivided, or narrowed. -/
def ShownRight (unit : TimeUnit) (time : ℕ) : Prop :=
  match unit with
  | .nano => time < 1000 ∨ 1000000 ≤ time ∧ time < 2 ^ 32 * 100000
  | .micro => time < 1000 ∨ 10000 ≤ time ∧ time < 2 ^ 32 * 100
  | .milli | .centi | .deci => time < 10
  | .one => True

/-- **When the number stands for the time**: in the starting unit, and in a unit of at least
`10000` of them as long as the quotient fits 32 bits. -/
theorem stands_number_iff {time i u : ℕ} (h : Promoted time i u) :
    Stands time (scale i u) (number time (scale i u)) ↔
      scale i u = 1 ∨ 10000 ≤ scale i u ∧ time / (scale i u / 10000) < 2 ^ 32 := by
  have hpos := scale_pos i h.lt_maxSupported
  rcases Nat.lt_or_ge (scale i u) 10000 with hlt | hge
  · rw [stands_number_of_lt hpos hlt fun hone ↦ h.scale_le (h.lt_of_one_lt_scale hone)]
    omega
  · have hi : i < maxSupported := Nat.lt_of_le_of_lt h.le h.lt_maxSupported
    obtain ⟨c, hc⟩ := dvd_scale i hi u h.lt_maxSupported hge
    have hquot : 10000 * c / 10000 = c := Nat.mul_div_cancel_left c (by decide)
    rw [hc, stands_number_of_le (by omega), hquot]
    omega

/-- The sizes of the units, measured in each starting unit. -/
def sizes : TimeUnit → List ℕ
  | .nano => [1, 1000, 1000000, 10000000, 100000000, 1000000000]
  | .micro => [1, 1, 1000, 10000, 100000, 1000000]
  | .milli => [1, 1, 1, 10, 100, 1000]
  | .centi => [1, 1, 1, 1, 10, 100]
  | .deci => [1, 1, 1, 1, 1, 10]
  | .one => [1, 1, 1, 1, 1, 1]

theorem scale_eq_sizes (unit : TimeUnit) :
    ∀ u < maxSupported, scale unit.index u = (sizes unit).getD u 0 := by
  cases unit <;> decide

/-- In terms of the time, for each starting unit and each unit it is promoted to. -/
theorem stands_iff_shownRight {time u : ℕ} {unit : TimeUnit} (h : Promoted time unit.index u) :
    Stands time (scale unit.index u) (number time (scale unit.index u)) ↔ ShownRight unit time := by
  rw [stands_number_iff h]
  obtain ⟨hle, hmax, hincr, hscale⟩ := h
  have hu : u < 6 := hmax
  rw [scale_eq_sizes unit u hmax] at *
  -- with both units known, the bounds of the time are numbers
  cases unit <;> simp only [TimeUnit.index, ShownRight] at * <;> interval_cases u
  all_goals simp [sizes, timeIncr, maxSupported] at *
  all_goals omega

/-! ### Readable times -/

/-- The number and the unit that are printed show the time: the number stands for it to a
ten-thousandth of the unit, and the unit is the one the time is promoted to. -/
def Shows (time : UInt64) (unit : TimeUnit) : Prop :=
  Stands time.toNat (scale unit.index (readableTime time unit).2) (readableTime time unit).1 ∧
    Promoted time.toNat unit.index (readableTime time unit).2

theorem shows_iff_of_promoted {time : UInt64} {unit : TimeUnit} {u : ℕ}
    (hrun : promote time.toNat maxSupported unit.index 1 = (u, scale unit.index u))
    (hu : Promoted time.toNat unit.index u) : Shows time unit ↔ ShownRight unit time.toNat := by
  rw [Shows, readableTime, hrun]
  exact (and_iff_left hu).trans (stands_iff_shownRight hu)

/-- **Which times are shown right.** The unit is always the right one. The number is for a time
that is printed in its starting unit, and otherwise for one that is promoted to at least `10000`
starting units and has a quotient of less than `2 ^ 32` ten-thousandths. -/
theorem shows_iff_shownRight (time : UInt64) (unit : TimeUnit) :
    Shows time unit ↔ ShownRight unit time.toNat := by
  obtain ⟨u, hrun, hu⟩ := exists_promote time.toNat unit
  exact shows_iff_of_promoted hrun hu

/-- Two thousand microseconds are shown as two thousand milliseconds, and five days of nanoseconds
as less than an hour. -/
theorem not_shows : ¬ Shows 2000 .micro ∧ ¬ Shows 432000000000000 .nano := by
  constructor
  · obtain ⟨u, hrun, hu⟩ := exists_promote (UInt64.toNat 2000) .micro
    rw [shows_iff_of_promoted hrun hu]
    simp [ShownRight]
  · obtain ⟨u, hrun, hu⟩ := exists_promote (UInt64.toNat 432000000000000) .nano
    rw [shows_iff_of_promoted hrun hu]
    simp [ShownRight]

end Cppkg.Units
