import Cppkg.Numbers.Decimal

/-!
# Powers of fractions

`pow` squares and multiplies with `operator *`, which may return either of two representations
of a product: the plain one, or one with the left value in its numerator. What the two have in
common is `Represents`: the value, a numerator between zero and the denominator, and a bound for
the denominator. Multiplication keeps it whichever branch it takes (`Represents.mul`), as long as
the product of the bounds fits 64 bits, and no assertion fails on the way.
-/

namespace Cppkg.Numbers

namespace Fraction

variable {f l r : Fraction} {p q : ℚ} {b c : ℕ}

/-- A fraction of value `q` between zero and one, with a denominator of at most `bound`. -/
structure Represents (f : Fraction) (q : ℚ) (bound : ℕ) : Prop where
  value_eq : f.value = q
  num_nonneg : 0 ≤ f.num
  num_le : f.num ≤ f.denom.toNat
  denom_pos : 1 ≤ f.denom.toNat
  denom_le : f.denom.toNat ≤ bound

namespace Represents

theorem value_nonneg (hf : f.Represents q b) : 0 ≤ q := by
  rw [← hf.value_eq]
  exact div_nonneg hf.num_nonneg (Nat.cast_nonneg _)

theorem value_le_one (hf : f.Represents q b) : q ≤ 1 := by
  rw [← hf.value_eq]
  exact div_le_one_of_le₀ hf.num_le (Nat.cast_nonneg _)

theorem bound_pos (hf : f.Represents q b) : 1 ≤ b := hf.denom_pos.trans hf.denom_le

theorem mono (hf : f.Represents q b) (h : b ≤ c) : f.Represents q c :=
  { hf with denom_le := hf.denom_le.trans h }

/-- The constructor accepts what represents a value. -/
theorem new (hf : f.Represents q b) : Fraction.new f.num f.denom = some f := if_pos hf.num_le

/-- Folding the left value into the numerator keeps the right denominator. -/
theorem fold (hl : l.Represents p b) (hr : r.Represents q c) :
    Represents ⟨l.value * r.num, r.denom⟩ (p * q) (b * c) where
  value_eq := by rw [value, mul_div_assoc, hl.value_eq, ← value, hr.value_eq]
  num_nonneg := by
    rw [hl.value_eq]
    exact mul_nonneg hl.value_nonneg hr.num_nonneg
  num_le := by
    rw [hl.value_eq]
    exact (mul_le_of_le_one_left hr.num_nonneg hl.value_le_one).trans hr.num_le
  denom_pos := hr.denom_pos
  denom_le := hr.denom_le.trans (Nat.le_mul_of_pos_left c hl.bound_pos)

/-- The plain product, when its denominator fits. -/
theorem plain (hl : l.Represents p b) (hr : r.Represents q c) (hfit : b * c < 2 ^ 64) :
    Represents ⟨l.num * r.num, l.denom * r.denom⟩ (p * q) (b * c) := by
  have hle := Nat.mul_le_mul hl.denom_le hr.denom_le
  have hdenom := toNat_mul_of_lt (hle.trans_lt hfit)
  refine ⟨?_, mul_nonneg hl.num_nonneg hr.num_nonneg, ?_, ?_, ?_⟩
  · rw [value, hdenom, Nat.cast_mul, ← div_mul_div_comm, ← value, ← value, hl.value_eq,
      hr.value_eq]
  · rw [hdenom, Nat.cast_mul]
    exact mul_le_mul hl.num_le hr.num_le hr.num_nonneg (Nat.cast_nonneg _)
  · rw [hdenom]
    exact Nat.mul_pos hl.denom_pos hr.denom_pos
  · rw [hdenom]
    exact hle

/-- **A multiplication represents the product of the values**, whichever branch it takes. -/
theorem mul (hl : l.Represents p b) (hr : r.Represents q c) (hfit : b * c < 2 ^ 64) :
    ∃ f, l.mul r = some f ∧ f.Represents (p * q) (b * c) := by
  refine ⟨l.product r, ?_⟩
  have hproduct : (l.product r).Represents (p * q) (b * c) := by
    by_cases h : l.Folds r
    · rw [product_of_folds h]
      exact hl.fold hr
    · rw [product_of_not_folds h]
      exact hl.plain hr hfit
  exact ⟨hproduct.new, hproduct⟩

theorem one : Represents ⟨1, 1⟩ 1 1 := by
  constructor <;> simp [value]

/-- **Square and multiply.** A power represents the power of the value, with the power of the
bound. The induction is that of the recursion; a square of the half power has the bound of the
largest even power. -/
theorem pow (hl : l.Represents q b) (r : UInt64) (hfit : b ^ r.toNat < 2 ^ 64) :
    ∃ f, l.pow r = some f ∧ f.Represents (q ^ r.toNat) (b ^ r.toNat) := by
  induction r using Fraction.pow.induct with
  | case1 =>
    rw [Fraction.pow, dif_pos rfl]
    exact ⟨_, one.new, by simpa using one⟩
  | case2 =>
    rw [Fraction.pow, dif_neg (by decide), if_pos rfl]
    exact ⟨l, rfl, by simpa using hl⟩
  | case3 r h₀ h₁ ih =>
    have hhalf : (r / 2).toNat = r.toNat / 2 := UInt64.toNat_div r 2
    have hmod : (r % 2).toNat = r.toNat % 2 := UInt64.toNat_mod r 2
    have hsquare : b ^ (r.toNat / 2) * b ^ (r.toNat / 2) < 2 ^ 64 := by
      rw [← pow_add]
      exact (Nat.pow_le_pow_right hl.bound_pos (by omega)).trans_lt hfit
    obtain ⟨half, hrun, hr⟩ := ih ((Nat.pow_le_pow_right hl.bound_pos (by omega)).trans_lt hfit)
    rw [hhalf] at hr
    obtain ⟨out, hout, ho⟩ := hr.mul hr hsquare
    rw [Fraction.pow, dif_neg h₀, if_neg h₁, hrun, Option.bind_eq_bind, Option.bind_some, hout,
      Option.bind_some]
    rw [← pow_add, ← pow_add] at ho
    split
    · -- an odd power takes one more multiplication
      rename_i hne
      have hr₁ : r.toNat / 2 + r.toNat / 2 + 1 = r.toNat := by
        have := toNat_ne_zero hne
        omega
      have hodd := ho.mul hl (by rwa [← pow_succ, hr₁])
      rwa [← pow_succ, ← pow_succ, hr₁] at hodd
    · rename_i heq
      have hr₀ : r.toNat / 2 + r.toNat / 2 = r.toNat := by
        have := congrArg UInt64.toNat (not_not.1 heq)
        simp only [UInt64.toNat_zero] at this
        omega
      rw [hr₀] at ho
      exact ⟨out, rfl, ho⟩

end Represents

/-- **A power is exact.** For a fraction between zero and one and an exponent for which the power
of its denominator fits 64 bits, `pow` returns: no multiplication on the way fails its assertion.
The result has the value of the power, a numerator between zero and its denominator, and a
denominator no larger than the power of the denominator. -/
theorem pow_exact (l : Fraction) (r : UInt64) (hnum : 0 ≤ l.num) (hle : l.num ≤ l.denom.toNat)
    (hdenom : 1 ≤ l.denom.toNat) (hfit : l.denom.toNat ^ r.toNat < 2 ^ 64) :
    ∃ f, l.pow r = some f ∧ f.value = (l.num / l.denom.toNat) ^ r.toNat ∧
      0 ≤ f.num ∧ f.num ≤ f.denom.toNat ∧
      1 ≤ f.denom.toNat ∧ f.denom.toNat ≤ l.denom.toNat ^ max r.toNat 1 := by
  have hl : l.Represents l.value l.denom.toNat := ⟨rfl, hnum, hle, hdenom, le_rfl⟩
  obtain ⟨f, hrun, hf⟩ := hl.pow r hfit
  have hmax := hf.mono (Nat.pow_le_pow_right hdenom (le_max_left r.toNat 1))
  exact ⟨f, hrun, hf.value_eq, hf.num_nonneg, hf.num_le, hf.denom_pos, hmax.denom_le⟩

/-- The fifth power of two thirds. -/
theorem pow_exact_fifth : ∃ f, Fraction.pow ⟨2, 3⟩ 5 = some f ∧ f.value = (2 / 3) ^ 5 ∧
    0 ≤ f.num ∧ f.num ≤ f.denom.toNat ∧ 1 ≤ f.denom.toNat ∧ f.denom.toNat ≤ 3 ^ 5 :=
  pow_exact ⟨2, 3⟩ 5 (by norm_num) (by norm_num [show UInt64.toNat 3 = 3 from rfl]) (by decide)
    (by decide)

end Fraction

end Cppkg.Numbers
