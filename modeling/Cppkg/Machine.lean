import Mathlib.Data.List.Basic
import Mathlib.Data.Nat.Notation
import Mathlib.Data.Int.Notation

/-!
# Machine integers and checked accesses

What the C++ sources take from the machine: the narrowing conversions to the two integer
types they store values in, and containers whose element accesses are only defined in
range. Arithmetic itself is done on unbounded integers, as C++ promotes its operands to
`int` before computing; only a store narrows.

A run of the program that does not return a value ends in a `Fault`. Two kinds of fault are
behaviour of the program (`lengthError` is an exception it throws, `outOfRange` and
`negativeBound` are undefined behaviour it runs into); `outOfFuel` is not: loops that are
not bounded by their own counter carry a number of iterations they may still make, and a
result is only ever claimed for runs that do not use it up.
-/

namespace Cppkg

/-- Why a run does not return. -/
inductive Fault where
  /-- An element access or an iterator outside of its container. -/
  | outOfRange
  /-- `std::length_error`: a container larger than its `max_size()` was requested. -/
  | lengthError
  /-- An automatic array with a negative number of elements. -/
  | negativeBound
  /-- The iterations granted to the run are used up. -/
  | outOfFuel
  deriving DecidableEq, Repr

theorem ok_bind {α β : Type} (a : α) (f : α → Except Fault β) : (Except.ok a >>= f) = f a :=
  rfl

theorem error_bind {α β : Type} (e : Fault) (f : α → Except Fault β) :
    (Except.error e >>= f) = .error e :=
  rfl

/-- A run that returns has returned from its first part. -/
theorem exists_of_bind {α β : Type} {x : Except Fault α} {f : α → Except Fault β} {b : β}
    (h : (x >>= f) = .ok b) : ∃ a, x = .ok a ∧ f a = .ok b := by
  cases x with
  | error e => cases h
  | ok a => exact ⟨a, rfl, h⟩

/-- Conversion to a 16-bit signed integer. -/
def toInt16 (z : ℤ) : ℤ := (z + 32768) % 65536 - 32768

/-- Conversion to a 64-bit unsigned integer. -/
def toSizeT (z : ℤ) : ℕ := (z % 18446744073709551616).toNat

theorem toInt16_of_bounds {z : ℤ} (h₁ : -32768 ≤ z) (h₂ : z ≤ 32767) : toInt16 z = z := by
  unfold toInt16
  omega

theorem toInt16_natCast {n : ℕ} (h : n ≤ 32767) : toInt16 n = n :=
  toInt16_of_bounds (by omega) (by omega)

/-- Counts are narrowed to their remainder as long as that is not negative. -/
theorem toInt16_natCast_of_mod_lt {n : ℕ} (h : n % 65536 < 32768) :
    toInt16 n = (n % 65536 : ℕ) := by
  unfold toInt16
  omega

theorem toInt16_natCast_neg {n : ℕ} (h : 32768 ≤ n % 65536) : toInt16 n < 0 := by
  unfold toInt16
  omega

theorem toInt16_le (z : ℤ) : toInt16 z ≤ 32767 := by
  unfold toInt16
  omega

theorem toSizeT_of_bounds {z : ℤ} (h₁ : 0 ≤ z) (h₂ : z < 18446744073709551616) :
    toSizeT z = z.toNat := by
  unfold toSizeT
  omega

variable {α : Type*}

/-- `xs[i]`, undefined outside of the container. -/
def readAt (xs : List α) (i : ℤ) : Except Fault α :=
  if i < 0 then .error .outOfRange
  else
    match xs[i.toNat]? with
    | some a => .ok a
    | none => .error .outOfRange

/-- `xs[i] = a`, undefined outside of the container. -/
def writeAt (xs : List α) (i : ℕ) (a : α) : Except Fault (List α) :=
  if i < xs.length then .ok (xs.set i a) else .error .outOfRange

/-- `std::memset(xs + start, a, count)`, undefined outside of the array. -/
def memsetAt (xs : List α) (start : ℤ) (count : ℕ) (a : α) : Except Fault (List α) :=
  if 0 ≤ start ∧ start.toNat + count ≤ xs.length then
    .ok (xs.take start.toNat ++ List.replicate count a ++ xs.drop (start.toNat + count))
  else .error .outOfRange

/-- The suffix from the iterator `xs.begin() + off` on, undefined past the end. -/
def suffixFrom (xs : List α) (off : ℤ) : Except Fault (List α) :=
  if 0 ≤ off ∧ off.toNat ≤ xs.length then .ok (xs.drop off.toNat) else .error .outOfRange

theorem readAt_of_getElem? {xs : List α} {i : ℕ} {a : α} (h : xs[i]? = some a) :
    readAt xs i = .ok a := by
  rw [readAt, if_neg (by omega), Int.toNat_natCast, h]

theorem exists_readAt {xs : List α} {i : ℕ} (h : i < xs.length) :
    ∃ a, xs[i]? = some a ∧ readAt xs i = .ok a :=
  ⟨xs[i], List.getElem?_eq_getElem h, readAt_of_getElem? (List.getElem?_eq_getElem h)⟩

theorem writeAt_of_lt {xs : List α} {i : ℕ} (h : i < xs.length) (a : α) :
    writeAt xs i a = .ok (xs.set i a) :=
  if_pos h

theorem suffixFrom_of_le {xs : List α} {off : ℕ} (h : off ≤ xs.length) :
    suffixFrom xs off = .ok (xs.drop off) := by
  rw [suffixFrom, if_pos (by simpa using h), Int.toNat_natCast]

/-- A fill of an array that is given by its entries. -/
theorem memsetAt_map_range (f g : ℕ → α) {n : ℕ} (first count : ℕ) {a : α}
    (hle : first + count ≤ n)
    (hin : ∀ i, first ≤ i → i < first + count → g i = a)
    (hout : ∀ i < n, i < first ∨ first + count ≤ i → g i = f i) :
    memsetAt ((List.range n).map f) first count a = .ok ((List.range n).map g) := by
  rw [memsetAt, if_pos (by simpa using hle), Int.toNat_natCast]
  congr 1
  refine List.ext_getElem (by simp; omega) fun i h₁ h₂ ↦ ?_
  simp only [List.getElem_append, List.getElem_map, List.getElem_range, List.getElem_take,
    List.getElem_drop, List.getElem_replicate, List.length_append, List.length_take,
    List.length_map, List.length_range, List.length_replicate]
  have hi : i < n := by simpa using h₂
  split_ifs with h₃ h₄
  · rw [hout i hi (by omega)]
  · rw [hin i (by omega) (by omega)]
  · rw [hout i hi (by omega)]
    congr 1
    omega

/-! ### Counting loops

A loop `for (i = 0; i < n; ++i)` whose bound and counter have the same type is a fold over
the first `n` numbers: the counter stays below `n` and never wraps. -/

/-- The invariant rule of a counting loop: what each iteration hands on, the loop hands on
from its start to its end. -/
theorem foldlM_range {σ : Type*} {f : σ → ℕ → Except Fault σ} {P : ℕ → σ → Prop} {n : ℕ}
    {s : σ} (hstart : P 0 s)
    (hstep : ∀ i < n, ∀ s, P i s → ∃ s', f s i = .ok s' ∧ P (i + 1) s') :
    ∃ s', (List.range n).foldlM f s = .ok s' ∧ P n s' := by
  induction n with
  | zero => exact ⟨s, rfl, hstart⟩
  | succ n ih =>
    obtain ⟨s₁, hrun, hP⟩ := ih fun i hi ↦ hstep i (by omega)
    obtain ⟨s₂, hlast, hP'⟩ := hstep n (by omega) s₁ hP
    refine ⟨s₂, ?_, hP'⟩
    rw [List.range_succ, List.foldlM_append, hrun]
    simp [bind, Except.bind, hlast, pure, Except.pure]

end Cppkg
