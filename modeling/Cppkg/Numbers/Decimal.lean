import Mathlib.Algebra.Field.Rat
import Mathlib.Algebra.Order.Field.Basic
import Mathlib.Algebra.Order.Ring.Rat
import Mathlib.Data.Nat.Log
import Mathlib.Tactic.NormNum
import Mathlib.Tactic.Ring

/-!
# Fractions and the guard of their multiplication

`Fraction` of `decimal.h`, with its numerator read as an exact rational and its denominator as a
64-bit word, and the functions of `decimal.cc`. The constructor asserts that the numerator is at
most the denominator: `Fraction.new` is `none` where it stops the program.

A product of denominators may wrap. `mulIsSafe` is to exclude that, and looks at the positions of
the highest bits: a product of two words has its own highest bit at their sum or one above it, so
words whose positions add up to at most 62 have a product that fits. The guard admits sums up to
64. Sums of 64 always wrap, and sums of 63 where the product carries (`mulIsSafe_sound_iff`).
-/

namespace Cppkg.Numbers

/-- `Fraction`. -/
structure Fraction where
  /-- `num_`. -/
  num : ℚ
  /-- `denom_`. -/
  denom : UInt64

namespace Fraction

/-- The constructor, unless its assertion fails. -/
def new (numerator : ℚ) (denominator : UInt64) : Option Fraction :=
  if numerator ≤ denominator.toNat then some ⟨numerator, denominator⟩ else none

/-- `operator double`. -/
def value (f : Fraction) : ℚ := f.num / f.denom.toNat

end Fraction

/-- The loop `while (val >>= 1) r++`. It makes at most as many iterations as there are bits, the
first argument. -/
def countShifts : ℕ → UInt64 → UInt8 → UInt8
  | 0, _, r => r
  | t + 1, val, r => if val >>> 1 ≠ 0 then countShifts t (val >>> 1) (r + 1) else r

/-- `highest_1bit`: the position of the highest bit that is set, 0 for no bit. -/
def highest1bit (val : UInt64) : UInt8 := countShifts 64 val 0

/-- `mul_is_safe`: the guard of a multiplication. -/
def mulIsSafe (a b : UInt64) : Bool :=
  decide ((highest1bit a).toNat + (highest1bit b).toNat ≤ 64)

namespace Fraction

/-- `operator *` up to the constructor of its result. The test whether the product of the
numerators is finite is left out, as an exact rational is. -/
def product (l r : Fraction) : Fraction :=
  let projNum := l.num * r.num
  if projNum > 1000000 ∨ mulIsSafe l.denom r.denom = false then
    ⟨l.value * r.num, r.denom⟩
  else ⟨l.num * r.num, l.denom * r.denom⟩

/-- `operator *`. -/
def mul (l r : Fraction) : Option Fraction := new (l.product r).num (l.product r).denom

/-- `pow`. -/
def pow (l : Fraction) (r : UInt64) : Option Fraction :=
  if h₀ : r = 0 then new 1 1
  else if r = 1 then some l
  else do
    let half ← pow l (r / 2)
    let out ← half.mul half
    if r % 2 ≠ 0 then out.mul l else some out
termination_by r.toNat
decreasing_by
  have : r.toNat ≠ 0 := fun h ↦ h₀ (UInt64.toNat_inj.1 h)
  rw [UInt64.toNat_div]
  exact Nat.div_lt_self (by omega) (by decide)

end Fraction

/-! ### The guard -/

theorem toNat_shiftRight_one (val : UInt64) : (val >>> 1).toNat = val.toNat / 2 := by
  rw [UInt64.toNat_shiftRight]
  exact Nat.shiftRight_eq_div_pow _ _

/-- The loop counts the binary logarithm. The induction is on the iterations granted. -/
theorem toNat_countShifts {t : ℕ} {val : UInt64} {r : UInt8} (hval : val.toNat < 2 ^ t)
    (hr : r.toNat + t < 256) : (countShifts t val r).toNat = r.toNat + Nat.log2 val.toNat := by
  induction t generalizing val r with
  | zero =>
    obtain hzero : val.toNat = 0 := by omega
    simp [countShifts, hzero]
  | succ t ih =>
    have hhalf := toNat_shiftRight_one val
    have hnext : (r + 1).toNat = r.toNat + 1 := by
      rw [UInt8.toNat_add]
      exact Nat.mod_eq_of_lt (by simp; omega)
    rw [countShifts]
    split
    · rename_i hne
      have hpos : val.toNat / 2 ≠ 0 := fun h ↦ hne (UInt64.toNat_inj.1 (hhalf.trans h))
      rw [ih (by rw [hhalf, Nat.div_lt_iff_lt_mul (by decide), ← Nat.pow_succ]; exact hval)
        (by omega), hhalf, hnext, Nat.log2_def val.toNat, if_pos (by omega)]
      omega
    · rename_i heq
      rw [not_not, ← UInt64.toNat_inj, hhalf] at heq
      have hsmall : val.toNat < 2 := by simp at heq; omega
      rw [Nat.log2_def, if_neg (by omega), Nat.add_zero]

/-- **The highest bit** is at the binary logarithm. -/
theorem toNat_highest1bit (val : UInt64) : (highest1bit val).toNat = Nat.log2 val.toNat := by
  rw [highest1bit, toNat_countShifts val.toNat_lt (by decide)]
  simp

theorem mulIsSafe_iff {a b : UInt64} :
    mulIsSafe a b = true ↔ Nat.log2 a.toNat + Nat.log2 b.toNat ≤ 64 := by
  rw [mulIsSafe, decide_eq_true_iff, toNat_highest1bit, toNat_highest1bit]

/-- The guard decides about the two words as it should: the positions of their highest bits do
not add up to 64, and where they add up to 63 the product does not carry. -/
def GuardFits (a b : UInt64) : Prop :=
  (highest1bit a).toNat + (highest1bit b).toNat ≠ 64 ∧
    ((highest1bit a).toNat + (highest1bit b).toNat = 63 → a.toNat * b.toNat < 2 ^ 64)

instance (a b : UInt64) : Decidable (GuardFits a b) :=
  inferInstanceAs (Decidable (_ ∧ (_ → _)))

theorem ne_zero_of_log2_pos {a : ℕ} (h : 0 < Nat.log2 a) : a ≠ 0 := by
  rintro rfl
  simp at h

theorem log2_toNat_lt (a : UInt64) : Nat.log2 a.toNat < 64 := by
  by_cases ha : a.toNat = 0
  · simp [ha]
  · exact (Nat.log2_lt ha).2 a.toNat_lt

/-- A product of two words, by the positions of their highest bits. -/
theorem mul_lt_two_pow (a b : ℕ) : a * b < 2 ^ (Nat.log2 a + Nat.log2 b + 2) := by
  rw [show Nat.log2 a + Nat.log2 b + 2 = (Nat.log2 a + 1) + (Nat.log2 b + 1) by omega, pow_add]
  exact Nat.mul_lt_mul'' Nat.lt_log2_self Nat.lt_log2_self

theorem two_pow_le_mul {a b : ℕ} (ha : a ≠ 0) (hb : b ≠ 0) :
    2 ^ (Nat.log2 a + Nat.log2 b) ≤ a * b := by
  rw [pow_add]
  exact Nat.mul_le_mul (Nat.log2_self_le ha) (Nat.log2_self_le hb)

/-- **Where the guard is right.** A product that it admits fits 64 bits, unless the positions of
the highest bits add up to 64, or to 63 and the product carries. -/
theorem mulIsSafe_sound_iff (a b : UInt64) :
    (mulIsSafe a b = true → a.toNat * b.toNat < 2 ^ 64) ↔ GuardFits a b := by
  rw [mulIsSafe_iff, GuardFits, toNat_highest1bit, toNat_highest1bit]
  constructor
  · refine fun h ↦ ⟨fun hsum ↦ ?_, fun hsum ↦ h (by omega)⟩
    -- both words have a bit beyond the lowest, so the product is no smaller than its bits say
    have ha := log2_toNat_lt a
    have hb := log2_toNat_lt b
    have hle := two_pow_le_mul (ne_zero_of_log2_pos (by omega : 0 < Nat.log2 a.toNat))
      (ne_zero_of_log2_pos (by omega : 0 < Nat.log2 b.toNat))
    rw [hsum] at hle
    exact absurd (h (by omega)) (Nat.not_lt.2 hle)
  · rintro ⟨h64, h63⟩ hle
    rcases Nat.lt_or_ge (Nat.log2 a.toNat + Nat.log2 b.toNat) 63 with hlt | hge
    · exact (mul_lt_two_pow _ _).trans_le (Nat.pow_le_pow_right (by decide) (by omega))
    · exact h63 (by omega)

/-! ### Multiplication -/

namespace Fraction

variable {l r : Fraction}

/-- The product has a denominator, and exactly the value it should have. -/
def MulExact (l r : Fraction) : Prop :=
  (l.product r).denom ≠ 0 ∧ (l.product r).value = l.value * r.value

/-- The left value goes into the numerator. -/
def Folds (l r : Fraction) : Prop :=
  l.num * r.num > 1000000 ∨ mulIsSafe l.denom r.denom = false

theorem product_of_folds (h : l.Folds r) : l.product r = ⟨l.value * r.num, r.denom⟩ := if_pos h

theorem product_of_not_folds (h : ¬ l.Folds r) :
    l.product r = ⟨l.num * r.num, l.denom * r.denom⟩ := if_neg h

theorem toNat_ne_zero {a : UInt64} (h : a ≠ 0) : a.toNat ≠ 0 := fun h' ↦
  h (UInt64.toNat_inj.1 h')

/-- **Folding is exact**, whatever the words. -/
theorem mulExact_of_folds (hr : r.denom ≠ 0) (h : l.Folds r) : l.MulExact r := by
  rw [MulExact, product_of_folds h]
  exact ⟨hr, mul_div_assoc _ _ _⟩

theorem toNat_mul_of_lt {a b : UInt64} (h : a.toNat * b.toNat < 2 ^ 64) :
    (a * b).toNat = a.toNat * b.toNat := by
  rw [UInt64.toNat_mul, Nat.mod_eq_of_lt h]

/-- **The plain product is exact** when the denominators fit. -/
theorem mulExact_of_lt (hl : l.denom ≠ 0) (hr : r.denom ≠ 0) (h : ¬ l.Folds r)
    (hfit : l.denom.toNat * r.denom.toNat < 2 ^ 64) : l.MulExact r := by
  rw [MulExact, product_of_not_folds h]
  constructor
  · intro (hzero : l.denom * r.denom = 0)
    have := toNat_mul_of_lt hfit
    rw [hzero] at this
    exact mul_ne_zero (toNat_ne_zero hl) (toNat_ne_zero hr) this.symm
  · rw [value, value, value, toNat_mul_of_lt hfit, Nat.cast_mul, div_mul_div_comm]

/-- A product of denominators that wraps is another number, so that the value is right only if
it is zero. -/
theorem mulExact_iff_of_le (h : ¬ l.Folds r) (hwrap : 2 ^ 64 ≤ l.denom.toNat * r.denom.toNat) :
    l.MulExact r ↔ l.num * r.num = 0 ∧ l.denom * r.denom ≠ 0 := by
  have hlt : (l.denom * r.denom).toNat < l.denom.toNat * r.denom.toNat :=
    (UInt64.toNat_lt _).trans_le hwrap
  have hvalue : l.value * r.value = l.num * r.num / ((l.denom.toNat * r.denom.toNat : ℕ) : ℚ) := by
    rw [value, value, div_mul_div_comm, Nat.cast_mul]
  rw [MulExact, product_of_not_folds h, hvalue, value]
  constructor
  · rintro ⟨hne, heq⟩
    refine ⟨by_contra fun hnum ↦ hlt.ne ?_, hne⟩
    rw [div_eq_mul_inv, div_eq_mul_inv] at heq
    exact_mod_cast inv_injective (mul_left_cancel₀ hnum heq)
  · rintro ⟨hnum, hne⟩
    exact ⟨hne, by rw [hnum, zero_div, zero_div]⟩

/-- **When a multiplication is exact**: the left value is folded into the numerator, or the guard
decides about the denominators as it should, or both sides are zero over a denominator that wraps
to another one. -/
theorem mulExact_iff (hl : l.denom ≠ 0) (hr : r.denom ≠ 0) :
    l.MulExact r ↔ l.num * r.num > 1000000 ∨ GuardFits l.denom r.denom ∨
      l.num * r.num = 0 ∧ l.denom * r.denom ≠ 0 := by
  by_cases hfold : l.Folds r
  · refine iff_of_true (mulExact_of_folds hr hfold) (hfold.imp_right fun hsafe ↦ .inl ?_)
    exact (mulIsSafe_sound_iff _ _).1 fun h ↦ absurd (hsafe.symm.trans h) (by decide)
  · obtain ⟨hnum, hsafe⟩ := not_or.1 hfold
    have hguard : GuardFits l.denom r.denom ↔ l.denom.toNat * r.denom.toNat < 2 ^ 64 :=
      (mulIsSafe_sound_iff _ _).symm.trans ⟨fun h ↦ h (by simpa using hsafe), fun h _ ↦ h⟩
    rw [hguard]
    by_cases hfit : l.denom.toNat * r.denom.toNat < 2 ^ 64
    · exact iff_of_true (mulExact_of_lt hl hr hfold hfit) (.inr (.inl hfit))
    · rw [mulExact_iff_of_le hfold (Nat.not_lt.1 hfit)]
      simp only [hnum, hfit, false_or]

end Fraction

/-- **The guard and the multiplication.** What the guard admits fits 64 bits, but for the words that
`GuardFits` excludes. A multiplication is exact when it folds because of its numerators, or when
the guard is right about its denominators; otherwise only when the product is zero and its
denominator is not. -/
theorem guard_sound_iff (a b : UInt64) (l r : Fraction) (hl : l.denom ≠ 0) (hr : r.denom ≠ 0) :
    ((mulIsSafe a b = true → a.toNat * b.toNat < 2 ^ 64) ↔ GuardFits a b) ∧
      (l.MulExact r ↔ l.num * r.num > 1000000 ∨ GuardFits l.denom r.denom ∨
        l.num * r.num = 0 ∧ l.denom * r.denom ≠ 0) :=
  ⟨mulIsSafe_sound_iff a b, Fraction.mulExact_iff hl hr⟩

/-- A half of a third. -/
theorem guard_sound_iff_third :
    (mulIsSafe 2 3 = true → (2 : UInt64).toNat * (3 : UInt64).toNat < 2 ^ 64) ∧
      Fraction.MulExact ⟨1, 2⟩ ⟨1, 3⟩ := by
  have h := guard_sound_iff 2 3 ⟨1, 2⟩ ⟨1, 3⟩ (by decide) (by decide)
  exact ⟨h.1.2 (by decide), h.2.2 (.inr (.inl (by decide)))⟩

/-- The denominators `2 ^ 32` pass the guard, their product is zero, and the square of a fraction
with such a denominator has none. -/
theorem not_guard_sound :
    (¬ ∀ a b, mulIsSafe a b = true → a.toNat * b.toNat < 2 ^ 64) ∧
      ¬ ∀ l r : Fraction, l.denom ≠ 0 → r.denom ≠ 0 → l.MulExact r := by
  refine ⟨fun h ↦ ?_, fun h ↦ ?_⟩
  · exact absurd (h 4294967296 4294967296 (by decide)) (by decide)
  · have hexact := h ⟨1, 4294967296⟩ ⟨1, 4294967296⟩ (by decide) (by decide)
    rw [Fraction.mulExact_iff (by decide) (by decide)] at hexact
    rcases hexact with hnum | hguard | ⟨hnum, -⟩
    · norm_num at hnum
    · exact absurd hguard (by decide)
    · norm_num at hnum

end Cppkg.Numbers
