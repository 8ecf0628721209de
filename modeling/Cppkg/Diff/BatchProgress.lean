import Cppkg.Diff.Batches
import Mathlib.Logic.Relation

/-!
# Whether the batches come to an end

The recursive calls that `safe_diff_msg_helper` makes, as a relation between the lists of a call
and those of the call it makes (`Recurses`). A batch takes a line off the lists as long as it may
take any: for a limit of at least one every call is on fewer lines than the one before it. With
the limit zero a batch is empty, and the helper calls itself with the lists it was given
(`recurses_zero`), time and again (`safeDiffMsgHelper_zero`).
-/

namespace Cppkg.Differ

open EditGraph Relation

variable {b : ℕ} {p q : StringsT × StringsT} {expect got : StringsT}

/-- The number of lines of both lists. -/
def lineCount (p : StringsT × StringsT) : ℕ := p.1.length + p.2.length

/-- The call on `p` makes a recursive call on `q`, when it is granted enough iterations. -/
def Recurses (b : ℕ) (p q : StringsT × StringsT) : Prop :=
  ∃ batch, ∀ fuel, lineCount p + 2 ≤ fuel →
    safeDiffMsgBatch p.1 p.2 b fuel = .ok (batch, some q)

/-- Every recursive call that a call on the two lists leads to is on fewer lines than the call
that makes it, and the call returns. -/
def Progresses (b : ℕ) (expect got : StringsT) : Prop :=
  (∀ p q, ReflTransGen (Recurses b) (expect, got) p → Recurses b p q → lineCount q < lineCount p) ∧
  ∃ fuel diffs, safeDiffMsgHelper b fuel [] expect got = .ok diffs

/-- What a recursive call is on: the lists behind the moves of the batch. -/
theorem recurses_iff (hN : lineCount p ≤ 16383) : Recurses b p q ↔
    ¬ (p.1.length ≤ b ∧ p.2.length ≤ b) ∧
      q = (p.1.drop (width (batchScript b p.1 p.2)),
        p.2.drop (height (batchScript b p.1 p.2))) := by
  by_cases hfits : p.1.length ≤ b ∧ p.2.length ≤ b
  · obtain ⟨ds, -, -, -, hrun⟩ := safeDiffMsgBatch_of_le hfits.1 hfits.2 hN
    refine iff_of_false ?_ fun h ↦ h.1 hfits
    rintro ⟨batch, hb⟩
    have := (hb _ le_rfl).symm.trans (hrun _ le_rfl)
    simp at this
  · have hbatch : (p.1.take b).length + (p.2.take b).length ≤ 16383 :=
      (Nat.add_le_add (List.length_take_le' _ _) (List.length_take_le' _ _)).trans hN
    obtain ⟨ds, -, -, -, hrun⟩ := safeDiffMsgBatch_of_lt hfits hbatch
    constructor
    · rintro ⟨batch, hb⟩
      have := (hb _ le_rfl).symm.trans (hrun _ le_rfl)
      simp only [Except.ok.injEq, Prod.mk.injEq, Option.some.injEq] at this
      exact ⟨hfits, this.2⟩
    · rintro ⟨-, rfl⟩
      exact ⟨ds, hrun⟩

theorem Recurses.lineCount_le (hN : lineCount p ≤ 16383) (h : Recurses b p q) :
    lineCount q ≤ lineCount p := by
  obtain ⟨-, rfl⟩ := (recurses_iff hN).1 h
  simp only [lineCount, List.length_drop]
  omega

/-- **A batch takes a line off the lists.** -/
theorem Recurses.lineCount_lt (hb : 1 ≤ b) (hN : lineCount p ≤ 16383) (h : Recurses b p q) :
    lineCount q < lineCount p := by
  obtain ⟨hlong, rfl⟩ := (recurses_iff hN).1 h
  obtain ⟨hw, hh, hpos⟩ := batchScript_spec b p.1 p.2
  have hadvance := hpos hb (by omega)
  simp only [lineCount, List.length_drop]
  omega

/-- The calls that a call leads to are on no more lines. -/
theorem lineCount_le_of_reflTransGen (hN : lineCount p ≤ 16383)
    (h : ReflTransGen (Recurses b) p q) : lineCount q ≤ lineCount p := by
  induction h with
  | refl => exact le_rfl
  | tail _ hs ih => exact (hs.lineCount_le (ih.trans hN)).trans ih

/-- An empty batch. -/
theorem batchScript_zero (expect got : StringsT) :
    width (batchScript 0 expect got) = 0 ∧ height (batchScript 0 expect got) = 0 := by
  obtain ⟨hw, hh⟩ := batchScript_le 0 expect got
  exact ⟨Nat.le_zero.1 hw, Nat.le_zero.1 hh⟩

/-- **With the limit zero a call leads to itself.** -/
theorem recurses_zero (hN : lineCount p ≤ 16383) (hne : 0 < lineCount p) : Recurses 0 p p := by
  obtain ⟨hw, hh⟩ := batchScript_zero p.1 p.2
  rw [lineCount] at hne
  rw [recurses_iff hN, hw, hh, List.drop_zero, List.drop_zero]
  exact ⟨by omega, rfl⟩

theorem myersDiff_nil_nil (fuel : ℕ) : myersDiff lineEq [] [] fuel =
    if fuel < 2 then .error .outOfFuel else .ok [] := by
  rcases fuel with _ | _ | fuel
  · rfl
  · rfl
  · rw [if_neg (by omega)]
    rfl

theorem safeDiffMsgBatch_zero (hne : 0 < expect.length + got.length) (fuel : ℕ) :
    safeDiffMsgBatch expect got 0 fuel =
      if fuel < 2 then .error .outOfFuel else .ok ([], some (expect, got)) := by
  have hlong : ¬ (expect.length ≤ 0 ∧ got.length ≤ 0) := by omega
  rw [safeDiffMsgBatch, if_neg hlong, Nat.zero_min, Nat.zero_min, List.take_zero, List.take_zero]
  refine (congrArg (fun r : Except Fault _ ↦ r >>= _) (myersDiff_nil_nil fuel)).trans ?_
  by_cases hfuel : fuel < 2
  · rw [if_pos hfuel, if_pos hfuel]
    rfl
  · rw [if_neg hfuel, if_neg hfuel]
    rfl

/-- **With the limit zero the helper does not return**, unless there are no lines. -/
theorem safeDiffMsgHelper_zero (hne : 0 < expect.length + got.length) (fuel : ℕ)
    (diffs : MsgDiffT) :
    safeDiffMsgHelper 0 fuel diffs expect got = .error .outOfFuel := by
  induction fuel generalizing diffs with
  | zero => rfl
  | succ fuel ih =>
    rw [safeDiffMsgHelper, safeDiffMsgBatch_zero hne]
    split
    · rfl
    · exact ih _

/-- **Batches come to an end** exactly when a batch may take a line, or there are none. -/
theorem progresses_iff (b : ℕ) (expect got : StringsT)
    (hN : expect.length + got.length ≤ 16383) :
    Progresses b expect got ↔ b ≠ 0 ∨ expect = [] ∧ got = [] := by
  constructor
  · rintro ⟨hlt, -⟩
    by_contra hzero
    push Not at hzero
    obtain ⟨rfl, hne⟩ := hzero
    have hpos : 0 < lineCount (expect, got) := by
      cases expect with
      | nil => exact Nat.add_pos_right _ (List.length_pos_iff.2 (hne rfl))
      | cons a expect => exact Nat.add_pos_left (Nat.succ_pos _) _
    exact absurd (hlt _ _ .refl (recurses_zero hN hpos)) (Nat.lt_irrefl _)
  · rintro (hb | ⟨rfl, rfl⟩)
    · have hb : 1 ≤ b := Nat.one_le_iff_ne_zero.2 hb
      refine ⟨fun p q hp hq ↦ ?_, ?_⟩
      · have hle := lineCount_le_of_reflTransGen (p := (expect, got)) hN hp
        exact hq.lineCount_lt hb (hle.trans hN)
      · obtain ⟨ds, -, -, -, hrun⟩ := safeDiffMsgHelper_spec hb
          (Nat.lt_succ_self (expect.length + got.length)) (by omega)
        exact ⟨_, _, hrun _ le_rfl []⟩
    · -- two empty lists fit any batch
      obtain ⟨ds, -, -, -, hrun⟩ := @safeDiffMsgBatch_of_le [] [] b (Nat.zero_le b) (Nat.zero_le b)
        (by decide)
      refine ⟨fun p q hp hq ↦ ?_, 3, ds, ?_⟩
      · have hle : lineCount p ≤ 0 := lineCount_le_of_reflTransGen (by decide) hp
        rw [lineCount] at hle
        exact absurd ⟨by omega, by omega⟩ ((recurses_iff (by rw [lineCount]; omega)).1 hq).1
      · rw [safeDiffMsgHelper, hrun 2 le_rfl]
        rfl

/-- Three lines against two make progress in batches of two. -/
theorem progresses_iff_three :
    (Progresses 2 [['a'], ['b'], ['c']] [['b'], ['c']] ↔
      2 ≠ 0 ∨ [['a'], ['b'], ['c']] = [] ∧ [['b'], ['c']] = []) ∧
    Progresses 2 [['a'], ['b'], ['c']] [['b'], ['c']] := by
  have h := progresses_iff 2 [['a'], ['b'], ['c']] [['b'], ['c']] (by decide)
  exact ⟨h, h.2 (.inl (by decide))⟩

/-- One line and the limit zero. -/
theorem not_progresses_zero : ¬ ∀ (b : ℕ) (expect got : StringsT),
    expect.length + got.length ≤ 16383 → Progresses b expect got := by
  intro h
  have hself : Recurses 0 ([['a']], []) ([['a']], []) := recurses_zero (by decide) (by decide)
  exact absurd ((h 0 [['a']] [] (by decide)).1 _ _ .refl hself) (by decide)

end Cppkg.Differ
