import Cppkg.Diff.Msg
import Cppkg.Diff.MyersScript

/-!
# Batches cut both lists consistently

`safe_diff_msg_helper` compares the first lines of both lists, keeps the entries up to the
last match, and goes on with the lines behind that match. In terms of the shortest path of
a batch it keeps the moves `batchMoves`: those up to the last diagonal step, or all of them
when there is none. The offsets it computes from its entries are the width and the height
of these moves (`lastMatch_spec`), so both lists are cut at one point of the edit graph.

The whole recursion then follows the path `batchPath`, which is a function of the two lists
and the limit alone (`safeDiffMsgHelper_spec`). Every batch takes at least one line off the
lists (`batchMoves_advances`), for a limit of at least one.
-/

namespace Cppkg.Differ

open EditGraph

/-! ### The moves of a difference list -/

/-- The move an entry stands for. -/
def Diff.move {α : Type} (e : Diff α) : Move :=
  match e.action with
  | .eq => .keep
  | .add => .ins
  | .del => .del

section

variable {α : Type} {e : Diff α}

theorem Diff.move_eq_keep : e.move = .keep ↔ e.action = .eq := by
  unfold Diff.move
  cases e.action <;> simp

theorem Diff.move_eq_ins : e.move = .ins ↔ e.action = .add := by
  unfold Diff.move
  cases e.action <;> simp

theorem Diff.move_eq_del : e.move = .del ↔ e.action = .del := by
  unfold Diff.move
  cases e.action <;> simp

end

theorem Entries.map_move {α : Type} {orig updated : List α} {i j : ℕ} {p : List Move}
    {ds : List (Diff α)} (h : Entries orig updated i j p ds) : ds.map Diff.move = p := by
  induction h with
  | nil => rfl
  | keep _ _ ih => rw [List.map_cons, ih]; rfl
  | del _ _ ih => rw [List.map_cons, ih]; rfl
  | ins _ _ ih => rw [List.map_cons, ih]; rfl

theorem Entries.take {α : Type} {orig updated : List α} {i j : ℕ} {p : List Move}
    {ds : List (Diff α)} (h : Entries orig updated i j p ds) (l : ℕ) :
    Entries orig updated i j (p.take l) (ds.take l) := by
  induction h generalizing l with
  | nil => simpa using Entries.nil _ _
  | keep ha _ ih =>
    cases l with
    | zero => exact .nil _ _
    | succ l => exact .keep ha (ih l)
  | del ha _ ih =>
    cases l with
    | zero => exact .nil _ _
    | succ l => exact .del ha (ih l)
  | ins hb _ ih =>
    cases l with
    | zero => exact .nil _ _
    | succ l => exact .ins hb (ih l)

/-- The moves up to and including the last diagonal step. -/
def uptoLastKeep : List Move → List Move
  | [] => []
  | a :: p => if a = .keep ∨ .keep ∈ p then a :: uptoLastKeep p else []

theorem uptoLastKeep_prefix (p : List Move) : uptoLastKeep p <+: p := by
  induction p with
  | nil => exact List.prefix_rfl
  | cons a p ih =>
    rw [uptoLastKeep]
    split
    · exact List.cons_prefix_cons.2 ⟨rfl, ih⟩
    · exact List.nil_prefix

theorem uptoLastKeep_eq_nil {p : List Move} (h : .keep ∉ p) : uptoLastKeep p = [] := by
  cases p with
  | nil => rfl
  | cons a p =>
    rw [uptoLastKeep, if_neg]
    rintro (rfl | h')
    · exact h List.mem_cons_self
    · exact h (List.mem_cons_of_mem _ h')

theorem uptoLastKeep_cons {a : Move} {p : List Move} (h : a = .keep ∨ .keep ∈ p) :
    uptoLastKeep (a :: p) = a :: uptoLastKeep p :=
  if_pos h

/-- The moves that a batch contributes. -/
def batchMoves (p : List Move) : List Move := if .keep ∈ p then uptoLastKeep p else p

theorem batchMoves_prefix (p : List Move) : batchMoves p <+: p := by
  rw [batchMoves]
  split
  · exact uptoLastKeep_prefix p
  · exact List.prefix_rfl

/-- A nonempty batch contributes at least one line of one list. -/
theorem batchMoves_advances {p : List Move} (h : p ≠ []) :
    0 < width (batchMoves p) + height (batchMoves p) := by
  have hne : batchMoves p ≠ [] := by
    rw [batchMoves]
    split
    · rename_i hkeep
      cases p with
      | nil => exact absurd rfl h
      | cons a p =>
        rw [uptoLastKeep_cons (by simpa [eq_comm] using hkeep)]
        exact List.cons_ne_nil _ _
    · exact h
  obtain ⟨a, q, hq⟩ := List.exists_cons_of_ne_nil hne
  rw [hq]
  cases a <;> simp

/-! ### The last match -/

/-- The loop over the entries of a path finds the end of its last diagonal step. The
induction is on the path; the offsets found so far are kept where no match follows. -/
theorem lastMatch_spec {orig updated : StringsT} {i j l : ℕ} {p : List Move} {ds : MsgDiffT}
    (h : Entries orig updated i j p ds) (hl : l + p.length ≤ 32767)
    (hi : i + width p ≤ 32767) (hj : j + height p ≤ 32767) (ends : IndexT × IndexT × IndexT) :
    lastMatch l ds ends =
      if .keep ∈ p then
        (((l + (uptoLastKeep p).length : ℕ) : ℤ), ((i + width (uptoLastKeep p) : ℕ) : ℤ),
          ((j + height (uptoLastKeep p) : ℕ) : ℤ))
      else ends := by
  induction h generalizing l ends with
  | nil => rfl
  | @keep i j p ds a _ _ ih =>
    rw [List.length_cons] at hl
    rw [width_keep] at hi
    rw [height_keep] at hj
    have h₁ : toInt16 ((l : ℤ) + 1) = ((l + 1 : ℕ) : ℤ) := toInt16_of_bounds (by omega) (by omega)
    have h₂ : toInt16 ((i : ℤ) + 1) = ((i + 1 : ℕ) : ℤ) := toInt16_of_bounds (by omega) (by omega)
    have h₃ : toInt16 ((j : ℤ) + 1) = ((j + 1 : ℕ) : ℤ) := toInt16_of_bounds (by omega) (by omega)
    rw [lastMatch, if_pos rfl, h₁, h₂, h₃, ih (by omega) (by omega) (by omega),
      if_pos List.mem_cons_self, uptoLastKeep_cons (Or.inl rfl)]
    split
    · simp only [List.length_cons, width_keep, height_keep, Nat.add_assoc, Nat.add_comm 1]
    · -- the last match: the offsets are those behind it
      rename_i hkeep
      rw [uptoLastKeep_eq_nil hkeep]
      simp
  | @del i j p ds a _ _ ih =>
    rw [List.length_cons] at hl
    rw [width_del] at hi
    rw [height_del] at hj
    have h₁ : toInt16 ((l : ℤ) + 1) = ((l + 1 : ℕ) : ℤ) := toInt16_of_bounds (by omega) (by omega)
    rw [lastMatch, if_neg (by simp), h₁, ih (by omega) (by omega) (by omega)]
    by_cases hkeep : .keep ∈ p
    · rw [if_pos hkeep, if_pos (List.mem_cons_of_mem _ hkeep), uptoLastKeep_cons (Or.inr hkeep)]
      simp only [List.length_cons, width_del, height_del, Nat.add_assoc, Nat.add_comm 1]
    · rw [if_neg hkeep, if_neg (by simpa using hkeep)]
  | @ins i j p ds b _ _ ih =>
    rw [List.length_cons] at hl
    rw [width_ins] at hi
    rw [height_ins] at hj
    have h₁ : toInt16 ((l : ℤ) + 1) = ((l + 1 : ℕ) : ℤ) := toInt16_of_bounds (by omega) (by omega)
    rw [lastMatch, if_neg (by simp), h₁, ih (by omega) (by omega) (by omega)]
    by_cases hkeep : .keep ∈ p
    · rw [if_pos hkeep, if_pos (List.mem_cons_of_mem _ hkeep), uptoLastKeep_cons (Or.inr hkeep)]
      simp only [List.length_cons, width_ins, height_ins, Nat.add_assoc, Nat.add_comm 1]
    · rw [if_neg hkeep, if_neg (by simpa using hkeep)]

/-! ### One batch -/

/-- The moves of the shortest path between two lists of lines. -/
noncomputable def scriptOf (expect got : StringsT) : List Move :=
  shortestPath (Compares lineEq expect got) expect.length got.length

theorem eq_of_lineEq (a b : Line) (h : lineEq a b = true) : a = b :=
  beq_iff_eq.1 h

theorem scriptOf_spec (expect got : StringsT) :
    Path (Compares lineEq expect got) 0 0 (scriptOf expect got) expect.length got.length ∧
      width (scriptOf expect got) = expect.length ∧
      height (scriptOf expect got) = got.length := by
  obtain ⟨hp, -⟩ := shortestPath_spec (confined_compares lineEq expect got)
  obtain ⟨hw, hh⟩ := hp.end_eq
  exact ⟨hp, by rw [scriptOf]; omega, by rw [scriptOf]; omega⟩

/-- What the entries of a path say about the two lists: its values go through both. -/
theorem Entries.lines {expect got : StringsT} {p q : List Move} {ds : MsgDiffT}
    (hp : Path (Compares lineEq expect got) 0 0 (p ++ q) expect.length got.length)
    (h : Entries expect got 0 0 p ds) :
    ds.map Diff.move = p ∧ origVals ds = expect.take (width p) ∧
      updatedVals ds = got.take (height p) := by
  obtain ⟨hp, -⟩ := hp.split
  refine ⟨h.map_move, ?_, ?_⟩
  · rw [h.origVals_eq, List.drop_zero]
  · rw [h.updatedVals_eq eq_of_lineEq hp, List.drop_zero]

/-- The last batch: both lists fit the limit. -/
theorem safeDiffMsgBatch_of_le {expect got : StringsT} {b : ℕ} (hexpect : expect.length ≤ b)
    (hgot : got.length ≤ b) (hN : expect.length + got.length ≤ 16383) :
    ∃ ds : MsgDiffT, ds.map Diff.move = scriptOf expect got ∧ origVals ds = expect ∧
      updatedVals ds = got ∧ ∀ fuel, expect.length + got.length + 2 ≤ fuel →
        safeDiffMsgBatch expect got b fuel = .ok (ds, none) := by
  obtain ⟨ds, hds, hrun⟩ := myersDiff_spec lineEq hN
  obtain ⟨hp, hw, hh⟩ := scriptOf_spec expect got
  obtain ⟨hmove, horig, hupd⟩ := Entries.lines (q := []) (by rw [List.append_nil]; exact hp) hds
  rw [← scriptOf] at hmove horig hupd
  rw [hw, List.take_length] at horig
  rw [hh, List.take_length] at hupd
  have hlen : ds.length ≤ 16383 := by
    have := length_le_width_add_height (scriptOf expect got)
    rw [← hmove, List.length_map, hmove] at this
    omega
  have hn : toInt16 (ds.length : ℤ) = ds.length := toInt16_of_bounds (by omega) (by omega)
  refine ⟨ds, hmove, horig, hupd, fun fuel hfuel ↦ ?_⟩
  rw [safeDiffMsgBatch, if_pos ⟨hexpect, hgot⟩, hrun fuel hfuel]
  simp [bind, Except.bind, hn]

/-- The moves of a batch that does not take both lists whole. -/
noncomputable def batchScript (b : ℕ) (expect got : StringsT) : List Move :=
  batchMoves (scriptOf (expect.take b) (got.take b))

/-- A batch takes no more lines than there are, and at least one. -/
theorem batchScript_spec (b : ℕ) (expect got : StringsT) :
    width (batchScript b expect got) ≤ expect.length ∧
      height (batchScript b expect got) ≤ got.length ∧
      (1 ≤ b → 0 < expect.length + got.length →
        0 < width (batchScript b expect got) + height (batchScript b expect got)) := by
  obtain ⟨-, hw, hh⟩ := scriptOf_spec (expect.take b) (got.take b)
  obtain ⟨q, hq⟩ := batchMoves_prefix (scriptOf (expect.take b) (got.take b))
  rw [← batchScript] at hq
  rw [List.length_take] at hw hh
  refine ⟨?_, ?_, fun hb hne ↦ batchMoves_advances ?_⟩
  · have := congrArg width hq
    rw [width_append] at this
    omega
  · have := congrArg height hq
    rw [height_append] at this
    omega
  · -- a batch without a move would be one of two empty lists
    intro hnil
    rw [hnil] at hw hh
    rw [width_nil] at hw
    rw [height_nil] at hh
    omega

theorem Entries.length_eq {α : Type} {orig updated : List α} {i j : ℕ} {p : List Move}
    {ds : List (Diff α)} (h : Entries orig updated i j p ds) : ds.length = p.length := by
  rw [← h.map_move, List.length_map]

/-- The offsets of a batch, which the loop over its entries ends with. -/
theorem lastMatch_batch {exbatch gobatch : StringsT} {ds : MsgDiffT}
    (h : Entries exbatch gobatch 0 0 (scriptOf exbatch gobatch) ds)
    (hN : exbatch.length + gobatch.length ≤ 16383) :
    toInt16 (ds.length : ℤ) = ds.length ∧
    lastMatch 0 ds (ds.length, exbatch.length, gobatch.length) =
      (((batchMoves (scriptOf exbatch gobatch)).length : ℤ),
        (width (batchMoves (scriptOf exbatch gobatch)) : ℤ),
        (height (batchMoves (scriptOf exbatch gobatch)) : ℤ)) := by
  obtain ⟨-, hw, hh⟩ := scriptOf_spec exbatch gobatch
  have hlen := length_le_width_add_height (scriptOf exbatch gobatch)
  have hdl := h.length_eq
  refine ⟨toInt16_of_bounds (by omega) (by omega), ?_⟩
  have hlast := lastMatch_spec (l := 0) h (by omega) (by omega) (by omega)
    (ds.length, exbatch.length, gobatch.length)
  rw [Nat.cast_zero] at hlast
  rw [hlast, batchMoves]
  split
  · simp only [Nat.zero_add]
  · rw [hdl, hw, hh]

/-- A batch takes no more lines than its limit. -/
theorem batchScript_le (b : ℕ) (expect got : StringsT) :
    width (batchScript b expect got) ≤ b ∧ height (batchScript b expect got) ≤ b := by
  obtain ⟨-, hw, hh⟩ := scriptOf_spec (expect.take b) (got.take b)
  obtain ⟨q, hq⟩ := batchMoves_prefix (scriptOf (expect.take b) (got.take b))
  rw [← batchScript] at hq
  have hwidth := congrArg width hq
  have hheight := congrArg height hq
  rw [width_append, hw] at hwidth
  rw [height_append, hh] at hheight
  exact ⟨(Nat.le.intro hwidth).trans (List.length_take_le _ _),
    (Nat.le.intro hheight).trans (List.length_take_le _ _)⟩

/-- A batch cuts both lists at the end of its moves. -/
theorem safeDiffMsgBatch_of_lt {expect got : StringsT} {b : ℕ}
    (hlong : ¬(expect.length ≤ b ∧ got.length ≤ b))
    (hN : (expect.take b).length + (got.take b).length ≤ 16383) :
    ∃ ds : MsgDiffT, ds.map Diff.move = batchScript b expect got ∧
      origVals ds = expect.take (width (batchScript b expect got)) ∧
      updatedVals ds = got.take (height (batchScript b expect got)) ∧
      ∀ fuel, expect.length + got.length + 2 ≤ fuel →
        safeDiffMsgBatch expect got b fuel =
          .ok (ds, some (expect.drop (width (batchScript b expect got)),
            got.drop (height (batchScript b expect got)))) := by
  obtain ⟨ds, hds, hrun⟩ := myersDiff_spec lineEq hN
  rw [← scriptOf] at hds
  obtain ⟨hn, hends⟩ := lastMatch_batch hds hN
  obtain ⟨hp, -⟩ := scriptOf_spec (expect.take b) (got.take b)
  obtain ⟨hw, hh, -⟩ := batchScript_spec b expect got
  obtain ⟨q, hq⟩ := batchMoves_prefix (scriptOf (expect.take b) (got.take b))
  rw [← batchScript] at hq hends
  obtain ⟨hwb, hhb⟩ := batchScript_le b expect got
  have htake := hds.take (batchScript b expect got).length
  rw [← hq, List.take_left' rfl] at htake
  rw [← hq] at hp
  obtain ⟨hmove, horig, hupd⟩ := Entries.lines hp htake
  refine ⟨_, hmove, ?_, ?_, fun fuel hfuel ↦ ?_⟩
  · rw [horig, List.take_take, min_eq_left hwb]
  · rw [hupd, List.take_take, min_eq_left hhb]
  · have hfuel' : (expect.take b).length + (got.take b).length + 2 ≤ fuel :=
      le_trans (Nat.add_le_add_right (Nat.add_le_add (List.length_take_le' _ _)
        (List.length_take_le' _ _)) 2) hfuel
    have he := toInt16_natCast (le_trans ((Nat.le_add_right _ _).trans hN) (by decide))
    have hg := toInt16_natCast (le_trans ((Nat.le_add_left _ _).trans hN) (by decide))
    rw [safeDiffMsgBatch, if_neg hlong]
    extract_lets exbatch gobatch
    have hexbatch : exbatch = expect.take b := List.take_eq_take_min.symm
    have hgobatch : gobatch = got.take b := List.take_eq_take_min.symm
    rw [hexbatch, hgobatch, hrun fuel hfuel', ok_bind, ← List.length_take, ← List.length_take,
      hn, he, hg]
    extract_lets n
    rw [show n.toNat = ds.length from Int.toNat_natCast _, List.take_length, hends]
    dsimp only
    rw [suffixFrom_of_le hw, ok_bind, suffixFrom_of_le hh, ok_bind, Int.toNat_natCast]

/-! ### The whole list -/

/-- The moves of all batches, of which there are at most `t`. -/
noncomputable def batchPath (b : ℕ) : ℕ → StringsT → StringsT → List Move
  | 0, _, _ => []
  | t + 1, expect, got =>
    if expect.length ≤ b ∧ got.length ≤ b then scriptOf expect got
    else batchScript b expect got ++
      batchPath b t (expect.drop (width (batchScript b expect got)))
        (got.drop (height (batchScript b expect got)))

theorem origVals_append {α : Type} (ds es : List (Diff α)) :
    origVals (ds ++ es) = origVals ds ++ origVals es := by
  rw [origVals, List.filter_append, List.map_append, origVals, origVals]

theorem updatedVals_append {α : Type} (ds es : List (Diff α)) :
    updatedVals (ds ++ es) = updatedVals ds ++ updatedVals es := by
  rw [updatedVals, List.filter_append, List.map_append, updatedVals, updatedVals]

/-- **The batches.** The entries of all batches follow `batchPath` and go through both lists.
The induction is on a bound for the number of lines left, which every batch lowers. -/
theorem safeDiffMsgHelper_spec {b t : ℕ} (hb : 1 ≤ b) {expect got : StringsT}
    (ht : expect.length + got.length < t)
    (hN : min b expect.length + min b got.length ≤ 16383) :
    ∃ ds : MsgDiffT, ds.map Diff.move = batchPath b t expect got ∧ origVals ds = expect ∧
      updatedVals ds = got ∧ ∀ fuel, expect.length + got.length + 3 ≤ fuel → ∀ diffs,
        safeDiffMsgHelper b fuel diffs expect got = .ok (diffs ++ ds) := by
  induction t generalizing expect got with
  | zero => exact absurd ht (Nat.not_lt_zero _)
  | succ t ih =>
    rw [batchPath]
    split
    · rename_i hle
      obtain ⟨ds, hmove, horig, hupd, hrun⟩ :=
        safeDiffMsgBatch_of_le hle.1 hle.2 (by omega)
      refine ⟨ds, hmove, horig, hupd, fun fuel hfuel diffs ↦ ?_⟩
      obtain ⟨fuel, rfl⟩ := Nat.exists_eq_add_one_of_ne_zero (show fuel ≠ 0 by omega)
      rw [safeDiffMsgHelper, hrun fuel (by omega)]
      rfl
    · rename_i hlong
      obtain ⟨ds, hmove, horig, hupd, hrun⟩ := safeDiffMsgBatch_of_lt hlong
        (by rwa [List.length_take, List.length_take])
      obtain ⟨hw, hh, hpos⟩ := batchScript_spec b expect got
      -- the batch takes a line, so fewer are left for the recursive call
      have hpos := hpos hb (by omega)
      have hlt : (expect.drop (width (batchScript b expect got))).length +
          (got.drop (height (batchScript b expect got))).length < t := by
        rw [List.length_drop, List.length_drop]
        omega
      obtain ⟨es, hmove', horig', hupd', hrun'⟩ :=
        ih hlt (by rw [List.length_drop, List.length_drop]; omega)
      refine ⟨ds ++ es, ?_, ?_, ?_, fun fuel hfuel diffs ↦ ?_⟩
      · rw [List.map_append, hmove, hmove']
      · rw [origVals_append, horig, horig', List.take_append_drop]
      · rw [updatedVals_append, hupd, hupd', List.take_append_drop]
      · obtain ⟨fuel, rfl⟩ := Nat.exists_eq_add_one_of_ne_zero (show fuel ≠ 0 by omega)
        rw [safeDiffMsgHelper, hrun fuel (by omega)]
        simp only [bind, Except.bind]
        rw [hrun' fuel (by rw [List.length_drop, List.length_drop]; omega),
          List.append_assoc]

/-- **No line is lost between batches.** For every limit that keeps a batch inside the index
type, the helper returns, and its entries go through both lists, whatever their lengths. -/
theorem safeDiffMsgHelper_lines {b : ℕ} (hb : 1 ≤ b) (hlimit : b ≤ 8191)
    (expect got : StringsT) :
    ∃ diffs, (∀ fuel, expect.length + got.length + 3 ≤ fuel →
        safeDiffMsgHelper b fuel [] expect got = .ok diffs) ∧
      origVals diffs = expect ∧ updatedVals diffs = got := by
  obtain ⟨ds, -, horig, hupd, hrun⟩ := safeDiffMsgHelper_spec hb
    (Nat.lt_succ_self (expect.length + got.length)) (by omega)
  exact ⟨ds, fun fuel hfuel ↦ by simpa using hrun fuel hfuel [], horig, hupd⟩

/-- Three lines against two, in batches of two. -/
theorem safeDiffMsgHelper_lines_three :
    ∃ diffs, (∀ fuel, 8 ≤ fuel →
        safeDiffMsgHelper 2 fuel [] [['a'], ['b'], ['c']] [['b'], ['c']] = .ok diffs) ∧
      origVals diffs = [['a'], ['b'], ['c']] ∧ updatedVals diffs = [['b'], ['c']] :=
  safeDiffMsgHelper_lines (by decide) (by decide) [['a'], ['b'], ['c']] [['b'], ['c']]

end Cppkg.Differ
