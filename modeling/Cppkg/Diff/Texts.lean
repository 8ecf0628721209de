import Cppkg.Diff.IndexLimit
import Cppkg.Diff.Whitespace

/-!
# Which texts are told apart

For every setting of its options, `process_lines` reads the same lines from two texts if and only
if a chain of changes leads from one to the other that the options say are not to be seen
(`Unseen`): an empty line more or less, whitespace at an end of a line, and, whatever the options,
the newline behind the last line. So each option ignores what it says and nothing else.

Every text is connected with a normal form, the lines that are compared with a newline behind each
(`unlines`). Two shapes of the changes matter when lines are trimmed but empty ones are kept:

* whitespace in front of nothing is a line of its own, so `Unseen.leading` asks for a text behind;
* a newline at the end of a text that ends in one is a line of its own, so `Unseen.newline` asks
  for a last line without one.
-/

namespace Cppkg.Differ

open Relation

/-- The text of lines, with a newline behind each. -/
def unlines (lines : StringsT) : List Char := lines.flatMap (· ++ ['\n'])

@[simp] theorem unlines_nil : unlines [] = [] := rfl

@[simp] theorem unlines_singleton (line : Line) : unlines [line] = line ++ ['\n'] := by
  simp [unlines]

@[simp] theorem unlines_append (lines lines' : StringsT) :
    unlines (lines ++ lines') = unlines lines ++ unlines lines' := List.flatMap_append

/-- One change of a text that is not to be seen. -/
inductive Unseen (isSpace : Char → Bool) (ignoreEmptyLines trimSpaces : Bool) :
    List Char → List Char → Prop
  /-- An empty line, where empty lines are ignored. -/
  | emptyLine {before : List Char} (behind : List Char) (hignore : ignoreEmptyLines = true)
      (h : StartsLine before) :
      Unseen isSpace ignoreEmptyLines trimSpaces (before ++ behind) (before ++ '\n' :: behind)
  /-- Whitespace at the start of a line, where lines are trimmed. -/
  | leading {before behind : List Char} (ws : List Char) (htrims : trimSpaces = true)
      (h : StartsLine before) (hws : Blank isSpace ws) (hne : behind ≠ []) :
      Unseen isSpace ignoreEmptyLines trimSpaces (before ++ behind) (before ++ (ws ++ behind))
  /-- Whitespace in front of a newline, where lines are trimmed. -/
  | trailing (before behind ws : List Char) (htrims : trimSpaces = true)
      (hws : Blank isSpace ws) :
      Unseen isSpace ignoreEmptyLines trimSpaces (before ++ '\n' :: behind)
        (before ++ (ws ++ '\n' :: behind))
  /-- The newline behind the last line. -/
  | newline {text : List Char} (h : ¬ StartsLine text) :
      Unseen isSpace ignoreEmptyLines trimSpaces text (text ++ ['\n'])

section

variable {isSpace : Char → Bool} {trim : Line → Line} {ignoreEmptyLines trimSpaces : Bool}
  {line ws : Line} {text text' before : List Char}

theorem startsLine_cons (line : Line) (h : StartsLine text) :
    StartsLine (line ++ '\n' :: text) := by
  rcases h with rfl | ⟨lines, rfl⟩
  · exact .inr ⟨line, rfl⟩
  · exact .inr ⟨line ++ '\n' :: lines, by simp⟩

theorem not_startsLine_of_not_mem (h : '\n' ∉ line) (hne : line ≠ []) : ¬ StartsLine line := by
  rintro (rfl | ⟨lines, rfl⟩)
  · exact hne rfl
  · exact h (by simp)

/-! ### What is not to be seen is not seen -/

theorem processLines_nil : processLines trim [] ignoreEmptyLines trimSpaces = [] := rfl

/-- What stands in front of a line is read by itself. -/
theorem processLines_append_of_startsLine (h : StartsLine before) (text : List Char) :
    processLines trim (before ++ text) ignoreEmptyLines trimSpaces =
      processLines trim before ignoreEmptyLines trimSpaces ++
        processLines trim text ignoreEmptyLines trimSpaces := by
  rcases h with rfl | ⟨lines, rfl⟩
  · rfl
  · induction lines using text_induction with
    | last line h =>
      rw [List.append_assoc, List.singleton_append, processLines_line h, processLines_line h,
        processLines_nil, List.append_nil]
    | cons line rest h ih =>
      have hassoc : ∀ u v, line ++ '\n' :: u ++ v = line ++ '\n' :: (u ++ v) := fun u v ↦
        List.append_assoc ..
      rw [hassoc, hassoc, processLines_line h, processLines_line h, ih, List.append_assoc]

theorem Trims.keptLine_eq (htrim : Trims isSpace trim) (htrims : trimSpaces = true) {line' : Line}
    (h : '\n' ∉ line) (h' : '\n' ∉ line') (heq : strip isSpace line = strip isSpace line') :
    keptLine trim ignoreEmptyLines trimSpaces line =
      keptLine trim ignoreEmptyLines trimSpaces line' := by
  simp only [keptLine, htrims, if_true, htrim line h, htrim line' h', heq]

theorem Blank.not_mem_append (hws : Blank isSpace ws) (h : '\n' ∉ line) : '\n' ∉ ws ++ line :=
  fun hmem ↦ (List.mem_append.1 hmem).elim hws.newline_not_mem h

theorem Unseen.processLines_eq (htrim : Trims isSpace trim)
    (h : Unseen isSpace ignoreEmptyLines trimSpaces text text') :
    processLines trim text ignoreEmptyLines trimSpaces =
      processLines trim text' ignoreEmptyLines trimSpaces := by
  cases h with
  | emptyLine behind hignore h =>
    have hempty : keptLine trim ignoreEmptyLines trimSpaces [] = [] := by
      have hnil := htrim.nil
      cases trimSpaces <;> simp [keptLine, hignore, hnil]
    have hline : '\n' ∉ ([] : Line) := List.not_mem_nil
    rw [processLines_append_of_startsLine h, processLines_append_of_startsLine h,
      ← List.nil_append ('\n' :: behind), processLines_line hline, hempty, List.nil_append]
  | @leading before behind ws htrims h hws hne =>
    rw [processLines_append_of_startsLine h, processLines_append_of_startsLine h]
    congr 1
    -- only the first line of the text behind is changed
    induction behind using text_induction with
    | last line hline =>
      have hne' : ws ++ line ≠ [] := List.append_ne_nil_of_right_ne_nil _ hne
      rw [processLines_last hline hne, processLines_last (hws.not_mem_append hline) hne']
      exact htrim.keptLine_eq htrims hline (hws.not_mem_append hline)
        (strip_append_left hws line).symm
    | cons line rest hline _ =>
      rw [← List.append_assoc, processLines_line hline,
        processLines_line (hws.not_mem_append hline)]
      congr 1
      exact htrim.keptLine_eq htrims hline (hws.not_mem_append hline)
        (strip_append_left hws line).symm
  | trailing before behind ws htrims hws =>
    induction before using text_induction with
    | last line hline =>
      have hline' : '\n' ∉ line ++ ws := fun hmem ↦
        (List.mem_append.1 hmem).elim hline hws.newline_not_mem
      rw [← List.append_assoc, processLines_line hline, processLines_line hline']
      congr 1
      exact htrim.keptLine_eq htrims hline hline' (strip_append_right line hws).symm
    | cons line rest hline ih =>
      rw [List.append_assoc, List.cons_append, List.append_assoc, List.cons_append,
        processLines_line hline, processLines_line hline, ih]
  | newline h =>
    induction text using text_induction with
    | last line hline =>
      have hne : line ≠ [] := fun hnil ↦ h (.inl hnil)
      rw [processLines_last hline hne, processLines_line hline, processLines_nil, List.append_nil]
    | cons line rest hline ih =>
      rw [List.append_assoc, List.cons_append, processLines_line hline, processLines_line hline,
        ih fun hstarts ↦ h (startsLine_cons line hstarts)]

/-! ### The normal form -/

theorem startsLine_of_cons (line : Line) (h : StartsLine (line ++ '\n' :: text)) :
    StartsLine text := by
  obtain hnil | ⟨lines, hlines⟩ := h
  · simp at hnil
  · rcases List.eq_nil_or_concat text with rfl | ⟨front, c, rfl⟩
    · exact .inl rfl
    · have hlast : line ++ '\n' :: front ++ [c] = lines ++ ['\n'] := by simpa using hlines
      obtain ⟨-, hc⟩ := List.append_inj' hlast rfl
      exact .inr ⟨front, by rw [List.concat_eq_append, hc]⟩

theorem Unseen.cons (line : Line) (h : Unseen isSpace ignoreEmptyLines trimSpaces text text') :
    Unseen isSpace ignoreEmptyLines trimSpaces (line ++ '\n' :: text) (line ++ '\n' :: text') := by
  cases h with
  | emptyLine behind hignore h =>
    simpa using Unseen.emptyLine behind hignore (startsLine_cons line h)
  | leading ws htrims h hws hne =>
    simpa using Unseen.leading ws htrims (startsLine_cons line h) hws hne
  | trailing before behind ws htrims hws =>
    simpa using Unseen.trailing (line ++ '\n' :: before) behind ws htrims hws
  | newline h =>
    simpa using Unseen.newline fun hstarts ↦ h (startsLine_of_cons line hstarts)

theorem eqvGen_line (line : Line)
    (h : EqvGen (Unseen isSpace ignoreEmptyLines trimSpaces) text text') :
    EqvGen (Unseen isSpace ignoreEmptyLines trimSpaces) (line ++ '\n' :: text)
      (line ++ '\n' :: text') := by
  induction h with
  | rel _ _ h => exact .rel _ _ (h.cons line)
  | refl _ => exact .refl _
  | symm _ _ _ ih => exact .symm _ _ ih
  | trans _ _ _ _ _ ih₁ ih₂ => exact .trans _ _ _ ih₁ ih₂

/-- A line is whitespace, what is left when it is trimmed, and whitespace. -/
theorem exists_blank_strip (isSpace : Char → Bool) (h : '\n' ∉ line) :
    ∃ pre post, line = pre ++ (strip isSpace line ++ post) ∧ Blank isSpace pre ∧
      Blank isSpace post := by
  have hline : line = line.takeWhile isSpace ++ (strip isSpace line ++
      (line.dropWhile isSpace).rtakeWhile isSpace) := by
    rw [strip, List.rdropWhile_append_rtakeWhile, List.takeWhile_append_dropWhile]
  refine ⟨_, _, hline, fun c hc ↦ ⟨List.mem_takeWhile_imp hc, ?_⟩,
    fun c hc ↦ ⟨List.mem_rtakeWhile_imp hc, ?_⟩⟩
  · rintro rfl
    exact h ((List.takeWhile_prefix isSpace).subset hc)
  · rintro rfl
    exact h ((List.dropWhile_suffix isSpace).subset ((List.rtakeWhile_suffix isSpace _).subset hc))

/-- A line may be trimmed, where lines are. -/
theorem Trims.eqvGen_trim (htrim : Trims isSpace trim) (htrims : trimSpaces = true)
    (h : '\n' ∉ line) (rest : List Char) :
    EqvGen (Unseen isSpace ignoreEmptyLines trimSpaces) (line ++ '\n' :: rest)
      (trim line ++ '\n' :: rest) := by
  obtain ⟨pre, post, hline, hpre, hpost⟩ := exists_blank_strip isSpace h
  have heq : line ++ '\n' :: rest =
      [] ++ (pre ++ (strip isSpace line ++ (post ++ '\n' :: rest))) := by
    conv_lhs => rw [hline]
    simp
  rw [htrim line h, heq]
  exact .trans _ _ _ (.symm _ _ (.rel _ _ (.leading pre htrims (.inl rfl) hpre (by simp))))
    (.symm _ _ (.rel _ _ (.trailing _ rest post htrims hpost)))

/-- A line may be replaced by what is read of it. -/
theorem Trims.eqvGen_keptLine (htrim : Trims isSpace trim) (h : '\n' ∉ line) (rest : List Char) :
    EqvGen (Unseen isSpace ignoreEmptyLines trimSpaces) (line ++ '\n' :: rest)
      (unlines (keptLine trim ignoreEmptyLines trimSpaces line) ++ rest) := by
  have hkept : ∀ line' : Line, EqvGen (Unseen isSpace ignoreEmptyLines trimSpaces)
      (line' ++ '\n' :: rest)
      (unlines (if ignoreEmptyLines = false ∨ 0 < line'.length then [line'] else []) ++ rest) := by
    intro line'
    split
    next => simpa using EqvGen.refl _
    next hdrop =>
      push Not at hdrop
      obtain rfl : line' = [] := List.length_eq_zero_iff.1 (Nat.le_zero.1 hdrop.2)
      exact .symm _ _ (.rel _ _ (.emptyLine rest (by simpa using hdrop.1) (.inl rfl)))
  unfold keptLine
  split
  next htrims => exact .trans _ _ _ (htrim.eqvGen_trim htrims h rest) (hkept _)
  next => exact hkept _

/-- **Every text is connected with its normal form.** -/
theorem Trims.eqvGen_unlines (htrim : Trims isSpace trim) (text : List Char) :
    EqvGen (Unseen isSpace ignoreEmptyLines trimSpaces) text
      (unlines (processLines trim text ignoreEmptyLines trimSpaces)) := by
  induction text using text_induction with
  | last line h =>
    by_cases hne : line = []
    · subst hne
      exact .refl _
    · rw [processLines_last h hne, ← List.append_nil (unlines _)]
      exact .trans _ _ _ (.rel _ _ (.newline (not_startsLine_of_not_mem h hne)))
        (htrim.eqvGen_keptLine h [])
  | cons line rest h ih =>
    rw [processLines_line h, unlines_append]
    exact .trans _ _ _ (eqvGen_line line ih) (htrim.eqvGen_keptLine h _)

/-- **Exactly the unseen changes are not seen.** -/
theorem Trims.processLines_eq_iff (htrim : Trims isSpace trim) :
    processLines trim text ignoreEmptyLines trimSpaces =
        processLines trim text' ignoreEmptyLines trimSpaces ↔
      EqvGen (Unseen isSpace ignoreEmptyLines trimSpaces) text text' := by
  constructor
  · intro heq
    refine .trans _ _ _ (htrim.eqvGen_unlines text) (.symm _ _ ?_)
    rw [heq]
    exact htrim.eqvGen_unlines text'
  · intro h
    induction h with
    | rel _ _ h => exact h.processLines_eq htrim
    | refl _ => rfl
    | symm _ _ _ ih => exact ih.symm
    | trans _ _ _ _ _ ih₁ ih₂ => exact ih₁.trans ih₂

/-- **Which texts are told apart.** For every setting of the options, the message of two texts whose
lines are within the range of the index type is empty if and only if a chain of changes that are
not to be seen leads from one text to the other. -/
theorem diffLines_empty_iff_unseen (htrim : Trims isSpace trim) (expect got : List Char)
    (hN : (processLines trim expect ignoreEmptyLines trimSpaces).length +
      (processLines trim got ignoreEmptyLines trimSpaces).length ≤ 16383) :
    ∃ msg, (∃ bound, ∀ fuel, bound ≤ fuel →
        diffLines trim expect got ignoreEmptyLines trimSpaces fuel = .ok msg) ∧
      (msg = [] ↔ EqvGen (Unseen isSpace ignoreEmptyLines trimSpaces) expect got) := by
  obtain ⟨msg, hprints, hmsg⟩ := tellsApart_of_le (b := defaultBatchLimit) (by decide) hN
  exact ⟨msg, ⟨_, hprints⟩, hmsg.trans htrim.processLines_eq_iff⟩

end

/-- An indented line, and an empty line too many. -/
theorem diffLines_empty_iff_unseen_words :
    ∃ msg, (∃ bound, ∀ fuel, bound ≤ fuel →
        diffLines (strip (· ∈ [' ', '\t'])) [' ', 'a', '\n', 'b'] ['a', '\n', '\n', 'b'] true true
          fuel = .ok msg) ∧
      (msg = [] ↔ EqvGen (Unseen (· ∈ [' ', '\t']) true true) [' ', 'a', '\n', 'b']
        ['a', '\n', '\n', 'b']) :=
  diffLines_empty_iff_unseen (fun _ _ ↦ rfl) _ _ (by decide)

end Cppkg.Differ
