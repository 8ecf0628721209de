import Cppkg.Machine
import Mathlib.Data.List.Infix

/-!
# Prefix and suffix tests

`has_prefix` and `has_affix` of `strs.cc`. Both hand a range of the string and the start of the
pattern to `std::equal`, which reads as many characters of the pattern as its range holds
(`equal`): past the end of the pattern that is undefined. Neither function gets there
(`hasPrefix_eq`, `hasAffix_eq`), but they see to it in different ways. `has_affix` refuses a
pattern longer than the string; `has_prefix` shortens the range it compares to the shorter of the
two, so a pattern that goes on beyond the string passes as well.
-/

namespace Cppkg.Estd

/-- `std::equal(first, last, first2)`, over the characters from `first` to `last` and those from
`first2` on. -/
def equal : List Char → List Char → Except Fault Bool
  | [], _ => .ok true
  | _ :: _, [] => .error .outOfRange
  | a :: range, b :: rest => if a = b then equal range rest else .ok false

/-- `has_prefix`. -/
def hasPrefix (str pattern : List Char) : Except Fault Bool :=
  let n := str.length
  let nprefix := pattern.length
  equal (str.take (min n nprefix)) pattern

/-- `has_affix`. -/
def hasAffix (str affix : List Char) : Except Fault Bool :=
  let n := str.length
  let naffix := affix.length
  if n < naffix then .ok false else equal (str.drop (n - naffix)) affix

/-- The comparison stays inside the pattern when its range is not the longer of the two. -/
theorem equal_eq {range rest : List Char} (h : range.length ≤ rest.length) :
    equal range rest = .ok (decide (range <+: rest)) := by
  induction range generalizing rest with
  | nil => simp [equal]
  | cons a range ih =>
    cases rest with
    | nil => simp at h
    | cons b rest =>
      rw [equal, ih (by simpa using h)]
      by_cases hab : a = b
      · simp [hab]
      · simp [hab]

theorem take_min_prefix_iff {str pattern : List Char} :
    str.take (min str.length pattern.length) <+: pattern ↔ str <+: pattern ∨ pattern <+: str := by
  rcases Nat.le_total str.length pattern.length with hle | hle
  · rw [Nat.min_eq_left hle, List.take_length]
    refine ⟨.inl, fun h ↦ h.elim id fun hp ↦ ?_⟩
    rw [hp.eq_of_length_le hle]
  · rw [Nat.min_eq_right hle]
    constructor
    · intro h
      have htake : str.take pattern.length = pattern :=
        h.eq_of_length (by rw [List.length_take, Nat.min_eq_left hle])
      exact .inr (htake ▸ List.take_prefix _ _)
    · rintro (hs | hp)
      · exact (List.take_prefix _ _).trans hs
      · rw [← List.prefix_iff_eq_take.1 hp]

/-- `has_prefix` returns, and asks whether one of the two begins with the other. -/
theorem hasPrefix_eq (str pattern : List Char) :
    hasPrefix str pattern = .ok (decide (str <+: pattern ∨ pattern <+: str)) := by
  have hlen : (str.take (min str.length pattern.length)).length ≤ pattern.length := by
    rw [List.length_take]
    omega
  rw [hasPrefix, equal_eq hlen]
  simp only [take_min_prefix_iff]

/-- `has_affix` returns, and is exact. -/
theorem hasAffix_eq (str affix : List Char) :
    hasAffix str affix = .ok (decide (affix <:+ str)) := by
  rw [hasAffix]
  by_cases hlt : str.length < affix.length
  · rw [if_pos hlt, decide_eq_false fun h : affix <:+ str ↦ absurd h.length_le (by omega)]
  · have hlen : (str.drop (str.length - affix.length)).length = affix.length := by
      rw [List.length_drop]
      omega
    rw [if_neg hlt, equal_eq hlen.le]
    congr 1
    refine decide_eq_decide.2 ⟨fun h ↦ ?_, fun h ↦ ?_⟩
    · exact h.eq_of_length hlen ▸ List.drop_suffix _ _
    · rw [← List.suffix_iff_eq_drop.1 h]

/-- **Exactness.** The suffix test is exact. The prefix test is exact, and the mirror image of the
suffix test, unless the pattern is the string with something behind it. -/
theorem hasPrefix_hasAffix_exact_iff (s p : List Char) :
    ((∃ b, hasPrefix s p = .ok b ∧ (b = true ↔ ∃ t, s = p ++ t)) ∧
        (∃ b, hasAffix s p = .ok b ∧ (b = true ↔ ∃ t, s = t ++ p)) ∧
        hasPrefix s p = hasAffix s.reverse p.reverse) ↔
      ∀ t, p = s ++ t → t = [] := by
  have hpre : (∃ t, s = p ++ t) ↔ p <+: s := by simp only [List.IsPrefix, eq_comm]
  have haff : (∃ t, s = t ++ p) ↔ p <:+ s := by simp only [List.IsSuffix, eq_comm]
  simp only [hasPrefix_eq, hasAffix_eq, Except.ok.injEq, exists_eq_left', decide_eq_true_eq, hpre,
    haff, List.reverse_suffix, decide_eq_decide, true_and]
  constructor
  · rintro ⟨hexact, -⟩ t rfl
    -- the string begins with a pattern that is longer
    have hp : s ++ t <+: s := hexact.1 (.inl (List.prefix_append s t))
    have hlen := hp.length_le
    rw [List.length_append] at hlen
    exact List.eq_nil_of_length_eq_zero (by omega)
  · intro h
    have hexact : s <+: p ∨ p <+: s ↔ p <+: s := by
      refine ⟨fun hor ↦ hor.elim ?_ id, .inr⟩
      rintro ⟨t, rfl⟩
      rw [h t rfl, List.append_nil]
    exact ⟨hexact, hexact⟩

/-- The prefix test accepts a pattern longer than the string. -/
theorem not_hasPrefix_exact :
    ¬ ∀ s p : List Char,
      (∃ b, hasPrefix s p = .ok b ∧ (b = true ↔ ∃ t, s = p ++ t)) ∧
        (∃ b, hasAffix s p = .ok b ∧ (b = true ↔ ∃ t, s = t ++ p)) ∧
        hasPrefix s p = hasAffix s.reverse p.reverse := by
  intro h
  obtain ⟨-, -, hmirror⟩ := h ['a'] ['a', 'b']
  exact absurd hmirror (by decide)

end Cppkg.Estd
