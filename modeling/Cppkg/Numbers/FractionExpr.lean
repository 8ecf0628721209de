import Cppkg.Numbers.FractionPow

/-!
# Expressions over fractions

Multiplication, `pow` and `reverse`, put together in any way. Each may return one of several
representations of its value, or stop the program by the assertion of the constructor; which it is
depends on words and numerators that the expression does not show. `eval` is what the program
computes, `denote` the rational number that is meant. They agree as long as `bound`, the product of
the denominators that are multiplied, fits 64 bits (`eval_exact`).
-/

namespace Cppkg.Numbers

namespace Fraction

/-- `reverse`: one minus the fraction. -/
def reverse (fraction : Fraction) : Option Fraction :=
  new (fraction.denom.toNat - fraction.num) fraction.denom

/-- A fraction between zero and one. -/
structure Proper where
  fraction : Fraction
  num_nonneg : 0 ≤ fraction.num
  num_le : fraction.num ≤ fraction.denom.toNat
  denom_pos : 1 ≤ fraction.denom.toNat

theorem Proper.represents (p : Proper) :
    p.fraction.Represents p.fraction.value p.fraction.denom.toNat :=
  ⟨rfl, p.num_nonneg, p.num_le, p.denom_pos, le_rfl⟩

theorem Represents.reverse {f : Fraction} {q : ℚ} {b : ℕ} (hf : f.Represents q b) :
    ∃ g, f.reverse = some g ∧ g.Represents (1 - q) b := by
  have hdenom : (f.denom.toNat : ℚ) ≠ 0 :=
    Nat.cast_ne_zero.2 (Nat.one_le_iff_ne_zero.1 hf.denom_pos)
  have hg : Represents ⟨f.denom.toNat - f.num, f.denom⟩ (1 - q) b :=
    { value_eq := by rw [value, sub_div, div_self hdenom, ← hf.value_eq, value]
      num_nonneg := sub_nonneg.2 hf.num_le
      num_le := sub_le_self _ hf.num_nonneg
      denom_pos := hf.denom_pos
      denom_le := hf.denom_le }
  exact ⟨_, hg.new, hg⟩

/-- An expression. -/
inductive Expr where
  | literal (p : Proper)
  | mul (l r : Expr)
  | pow (l : Expr) (r : UInt64)
  | reverse (e : Expr)

namespace Expr

/-- What the program computes, unless an assertion fails. -/
def eval : Expr → Option Fraction
  | literal p => some p.fraction
  | mul l r => do (← l.eval).mul (← r.eval)
  | pow l r => do (← l.eval).pow r
  | reverse e => do (← e.eval).reverse

/-- The number that is meant. -/
def denote : Expr → ℚ
  | literal p => p.fraction.value
  | mul l r => l.denote * r.denote
  | pow l r => l.denote ^ r.toNat
  | reverse e => 1 - e.denote

/-- The product of the denominators. A power computes its base at least once. -/
def bound : Expr → ℕ
  | literal p => p.fraction.denom.toNat
  | mul l r => l.bound * r.bound
  | pow l r => l.bound ^ max r.toNat 1
  | reverse e => e.bound

theorem bound_pos (e : Expr) : 1 ≤ e.bound := by
  induction e with
  | literal p => exact p.denom_pos
  | mul l r ihl ihr => exact Nat.mul_pos ihl ihr
  | pow l r ih => exact Nat.pow_pos ih
  | reverse e ih => exact ih

/-- **An expression represents its number.** The induction is on the expression; a bound that fits
fits all the parts. -/
theorem eval_represents (e : Expr) (hfit : e.bound < 2 ^ 64) :
    ∃ f, e.eval = some f ∧ f.Represents e.denote e.bound := by
  induction e with
  | literal p => exact ⟨p.fraction, rfl, p.represents⟩
  | mul l r ihl ihr =>
    obtain ⟨f, hf, hfl⟩ := ihl
      ((Nat.le_mul_of_pos_right l.bound r.bound_pos).trans_lt hfit)
    obtain ⟨g, hg, hgr⟩ := ihr
      ((Nat.le_mul_of_pos_left r.bound l.bound_pos).trans_lt hfit)
    obtain ⟨out, hout, ho⟩ := hfl.mul hgr hfit
    exact ⟨out, by rw [eval, hf, hg]; exact hout, ho⟩
  | pow l r ih =>
    have hbase : l.bound ≤ l.bound ^ max r.toNat 1 :=
      Nat.le_self_pow (Nat.one_le_iff_ne_zero.1 (le_max_right _ _)) _
    have hpow : l.bound ^ r.toNat ≤ l.bound ^ max r.toNat 1 :=
      Nat.pow_le_pow_right l.bound_pos (le_max_left _ _)
    obtain ⟨f, hf, hfl⟩ := ih (hbase.trans_lt hfit)
    obtain ⟨out, hout, ho⟩ := hfl.pow r (hpow.trans_lt hfit)
    exact ⟨out, by rw [eval, hf]; exact hout, ho.mono hpow⟩
  | reverse e ih =>
    obtain ⟨f, hf, hfe⟩ := ih hfit
    obtain ⟨out, hout, ho⟩ := hfe.reverse
    exact ⟨out, by rw [eval, hf]; exact hout, ho⟩

/-- **Expressions are exact.** When the product of the denominators fits 64 bits no assertion fails,
however multiplications, powers and reversals are nested, and the result has exactly the value that
is meant, which is between zero and one. -/
theorem eval_exact (e : Expr) (hfit : e.bound < 2 ^ 64) : ∃ f, e.eval = some f ∧
    f.value = e.denote ∧ 0 ≤ e.denote ∧ e.denote ≤ 1 ∧ f.denom.toNat ≤ e.bound := by
  obtain ⟨f, hf, hr⟩ := e.eval_represents hfit
  exact ⟨f, hf, hr.value_eq, hr.value_nonneg, hr.value_le_one, hr.denom_le⟩

/-- The odds that one of five draws has not failed. -/
theorem eval_exact_five : ∃ p : Proper, p.fraction = ⟨2, 3⟩ ∧
    ∃ f, eval (.reverse (.pow (.reverse (.literal p)) 5)) = some f ∧
      f.value = 1 - (1 - 2 / 3) ^ 5 := by
  let p : Proper :=
    ⟨⟨2, 3⟩, by norm_num, by norm_num [show UInt64.toNat 3 = 3 from rfl], by decide⟩
  obtain ⟨f, hf, hvalue, -⟩ := eval_exact (.reverse (.pow (.reverse (.literal p)) 5)) (by decide)
  exact ⟨p, rfl, f, hf, hvalue⟩

end Expr

end Fraction

end Cppkg.Numbers
