import Cppkg.Diff.Patch
import Cppkg.Diff.Whitespace
import Cppkg.Lib.Patching

/-!
# Applying a message

A reader of messages, and what it makes of the messages of `safe_diff_msg`. `readMessage` takes the
lines of a message apart and keeps the changes, each with its number; the lines around them are
skipped. The changes of a message are those of the alignment that its difference list stands for
(`readMessage_shownLines`), so they can be applied to the first list, which gives the second, and
taken back from the second.
-/

namespace Cppkg.Differ

open Patching Terminated

/-! ### The reader -/

/-- A number, and the text behind the tab after it. -/
def readNumber (text : Line) : Option (ℕ × Line) :=
  match text.dropWhile (· ≠ '\t') with
  | [] => none
  | _ :: rest => some (Nat.ofDigitChars 10 (text.takeWhile (· ≠ '\t')) 0, rest)

/-- The change that a line of a message shows. -/
def readChange : Line → Option (Change Line)
  | '+' :: ' ' :: ' ' :: '\t' :: text => (readNumber text).map fun r ↦ .insert r.1 r.2
  | '-' :: ' ' :: text =>
    match readNumber text with
    | some (n, ' ' :: '\t' :: val) => some (.remove n val)
    | _ => none
  | _ => none

/-- The changes that a message shows. -/
def readMessage (msg : Line) : List (Change Line) :=
  (processLines id msg false false).filterMap readChange

/-- The list that a message leads to from `lines`. -/
def applyMessage (lines : StringsT) (msg : Line) : Option StringsT :=
  apply 0 0 (readMessage msg) lines

/-- The list that a message leads to `lines` from. -/
def revertMessage (lines : StringsT) (msg : Line) : Option StringsT :=
  apply 0 0 ((readMessage msg).map Change.flip) lines

/-! ### One line -/

theorem readNumber_decimal (n : ℕ) (rest : Line) :
    readNumber (decimal n ++ '\t' :: rest) = some (n, rest) := by
  have hall : ∀ c ∈ decimal n, (decide (c ≠ '\t')) = true := fun c hc ↦
    decide_eq_true fun heq ↦ notMem_decimal (c := '\t') rfl n (heq ▸ hc)
  rw [readNumber, List.dropWhile_append_of_pos hall, List.takeWhile_append_of_pos hall]
  simp [decimal_natCast, Nat.ofDigitChars_ten_toDigits]

/-- What the line of an entry is read as, behind `o` and `u` lines of the two lists. -/
theorem readChange_dropLast (val : Line) (action : Action) (o u : ℕ) :
    readChange (diffLineFormat val action o u).dropLast =
      match action with
      | .eq => none
      | .add => some (.insert u val)
      | .del => some (.remove o val) := by
  cases action with
  | eq =>
    rw [diffLineFormat, List.dropLast_concat]
    rfl
  | add =>
    rw [diffLineFormat, List.dropLast_concat]
    simp [addToken, readChange, readNumber_decimal u val]
  | del =>
    rw [diffLineFormat, List.dropLast_concat]
    simp [delToken, readChange, readNumber_decimal o (' ' :: '\t' :: val)]

/-! ### All lines -/

/-- The step of an alignment that an entry stands for. -/
def Diff.align {α : Type} (e : Diff α) : Patching.Move α :=
  match e.action with
  | .eq => .keep e.val
  | .add => .insert e.val
  | .del => .remove e.val

theorem source_align {α : Type} (ds : List (Diff α)) :
    source (ds.map Diff.align) = origVals ds := by
  induction ds with
  | nil => rfl
  | cons e ds ih =>
    rw [origVals] at ih ⊢
    cases ha : e.action <;> simp [Diff.align, Diff.inOrig, ha, source, ih]

theorem target_align {α : Type} (ds : List (Diff α)) :
    target (ds.map Diff.align) = updatedVals ds := by
  induction ds with
  | nil => rfl
  | cons e ds ih =>
    rw [updatedVals] at ih ⊢
    cases ha : e.action <;> simp [Diff.align, Diff.inUpdated, ha, target, ih]

/-- The lines of the changes are read as the changes of the alignment. -/
theorem filterMap_edits (o u : ℕ) (ds : MsgDiffT) :
    (edits o u ds).filterMap (fun l ↦ readChange l.dropLast) = changes o u (ds.map Diff.align) := by
  induction ds generalizing o u with
  | nil => rfl
  | cons e ds ih =>
    cases ha : e.action with
    | eq =>
      rw [edits_of_eq ha, ih, List.map_cons, Diff.align, ha]
      rfl
    | add =>
      rw [edits_of_ne (by simp [ha]), List.filterMap_cons, ha, readChange_dropLast, ih,
        List.map_cons, Diff.align, ha, Diff.inOrig, Diff.inUpdated, ha]
      rfl
    | del =>
      rw [edits_of_ne (by simp [ha]), List.filterMap_cons, ha, readChange_dropLast, ih,
        List.map_cons, Diff.align, ha, Diff.inOrig, Diff.inUpdated, ha]
      rfl

/-- Lines that end in a newline are read back one by one. -/
theorem processLines_flatten {ls : List Line} (h : ∀ l ∈ ls, IsBlock '\n' l) :
    processLines id ls.flatten false false = ls.map List.dropLast := by
  induction ls with
  | nil => rfl
  | cons l ls ih =>
    rw [List.forall_mem_cons] at h
    obtain ⟨⟨line, hline, rfl⟩, h⟩ := h
    rw [List.flatten_cons, List.append_assoc, List.singleton_append, processLines_line hline,
      ih h, List.map_cons, List.dropLast_concat]
    rfl

/-- **A message is read as the changes of its difference list.** -/
theorem readMessage_shownLines {ds : MsgDiffT}
    (h : ∀ l ∈ shownLines ds ds.length, IsBlock '\n' l) :
    readMessage (shownLines ds ds.length).flatten = changes 0 0 (ds.map Diff.align) := by
  have hskip : ∀ l : Line, isEditLine l = false → readChange l.dropLast = none := by
    intro l hl
    obtain ⟨rest, rfl⟩ : ∃ rest, l = ' ' :: rest :=
      List.head?_eq_some_iff.1 (by simpa [isEditLine] using hl)
    cases rest <;> rfl
  rw [readMessage, processLines_flatten h, List.filterMap_map, ← filterMap_edits,
    ← filter_shownLines, List.filterMap_filter]
  refine List.filterMap_congr fun l _ ↦ ?_
  cases hl : isEditLine l with
  | true => rfl
  | false => exact hskip l hl

/-- **Round trip.** As long as each batch fits one index and so do all entries, the message of two
lists, applied to the first list, gives the second, and taken back from the second it gives the
first. -/
theorem applyMessage_safeDiffMsg {b : ℕ} (hb : 1 ≤ b) {expect got : StringsT}
    (hexpect : ∀ l ∈ expect, '\n' ∉ l) (hgot : ∀ l ∈ got, '\n' ∉ l)
    (hbatch : min b expect.length + min b got.length ≤ 16383)
    (hN : expect.length + got.length ≤ 32767) :
    ∃ msg, Prints b expect got msg ∧ applyMessage expect msg = some got ∧
      revertMessage got msg = some expect := by
  obtain ⟨ds, rfl, rfl, hprints⟩ := exists_prints_of_batches hb hbatch hN
  have hread := readMessage_shownLines fun l hl ↦ isBlock_shownLines hexpect hgot hl
  refine ⟨_, hprints, ?_, ?_⟩
  · rw [applyMessage, hread, ← source_align, ← target_align, apply_changes]
  · rw [revertMessage, hread, ← source_align, ← target_align, apply_flip_changes]

/-- Lists that take two batches. -/
theorem applyMessage_safeDiffMsg_two :
    ∃ msg, Prints 2 [['a'], ['b'], ['c']] [['b'], ['c'], ['d']] msg ∧
      applyMessage [['a'], ['b'], ['c']] msg = some [['b'], ['c'], ['d']] ∧
      revertMessage [['b'], ['c'], ['d']] msg = some [['a'], ['b'], ['c']] :=
  applyMessage_safeDiffMsg (by decide) (by decide) (by decide) (by decide) (by decide)

end Cppkg.Differ
