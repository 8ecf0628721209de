import Cppkg.Diff.Msg
import Mathlib.Data.List.DropRight
import Mathlib.Logic.Relation

/-!
# Whitespace in compared texts

What `process_lines` keeps of a text when it ignores empty lines and trims the others, and which
changes of the text it does not see (`Reformat`): whitespace-only lines put in between, whitespace
put before or behind a line, and the newline at the end.

The loop reads line by line, so the lines of a text are those before a newline followed by those
behind it (`processLines_line`). A line that is trimmed away is not kept, and then a newline may
also stand where there is no line at all (`processLines_append`). The order of the two tests in the
loop matters here: it is the trimmed line that is tested for being empty.
-/

namespace Cppkg.Differ

open Relation

/-! ### Reading line by line -/

/-- A text is a last line without a newline, or a line in front of a text. -/
theorem text_induction {motive : List Char → Prop} (last : ∀ line, '\n' ∉ line → motive line)
    (cons : ∀ line rest, '\n' ∉ line → motive rest → motive (line ++ '\n' :: rest))
    (str : List Char) : motive str := by
  induction hn : str.length using Nat.strong_induction_on generalizing str with
  | _ n ih =>
    by_cases hnl : '\n' ∈ str
    · obtain ⟨line, rest, rfl, hline⟩ := List.eq_append_cons_of_mem hnl
      rw [List.length_append, List.length_cons] at hn
      exact cons line rest hline (ih rest.length (by omega) rest rfl)
    · exact last str hnl

theorem getline_line {line : Line} (h : '\n' ∉ line) (rest : List Char) :
    getline (line ++ '\n' :: rest) = some (line, rest) := by
  have hall : ∀ c ∈ line, (decide (c ≠ '\n')) = true := fun c hc ↦
    decide_eq_true fun heq ↦ h (heq ▸ hc)
  rw [getline, if_neg (by simp), List.takeWhile_append_of_pos hall,
    List.dropWhile_append_of_pos hall]
  simp

theorem getline_last {line : Line} (h : '\n' ∉ line) (hne : line ≠ []) :
    getline line = some (line, []) := by
  have hall : ∀ c ∈ line, (decide (c ≠ '\n')) = true := fun c hc ↦
    decide_eq_true fun heq ↦ h (heq ▸ hc)
  rw [getline, if_neg hne, List.takeWhile_eq_self_iff.2 hall, List.dropWhile_eq_nil_iff.2 hall]
  rfl

section Lines

variable (trim : Line → Line) (ignoreEmptyLines trimSpaces : Bool)

/-- What one line adds to the lines that are compared. -/
def keptLine (line : Line) : StringsT :=
  let line := if trimSpaces then trim line else line
  if ignoreEmptyLines = false ∨ 0 < line.length then [line] else []

variable {trim ignoreEmptyLines trimSpaces} {line : Line} {t : ℕ} {str : List Char}

theorem append_keptLine (lines : StringsT) :
    lines ++ keptLine trim ignoreEmptyLines trimSpaces line =
      let line := if trimSpaces then trim line else line
      if ignoreEmptyLines = false ∨ 0 < line.length then lines ++ [line] else lines := by
  simp only [keptLine]
  split_ifs <;> simp

theorem processLinesLoop_line (h : '\n' ∉ line) (rest : List Char) (lines : StringsT) :
    processLinesLoop trim ignoreEmptyLines trimSpaces (t + 1) (line ++ '\n' :: rest) lines =
      processLinesLoop trim ignoreEmptyLines trimSpaces t rest
        (lines ++ keptLine trim ignoreEmptyLines trimSpaces line) := by
  rw [processLinesLoop, getline_line h, append_keptLine]

theorem processLinesLoop_nil (lines : StringsT) :
    processLinesLoop trim ignoreEmptyLines trimSpaces t [] lines = lines := by
  cases t <;> rfl

theorem processLinesLoop_last (h : '\n' ∉ line) (hne : line ≠ []) (lines : StringsT) :
    processLinesLoop trim ignoreEmptyLines trimSpaces (t + 1) line lines =
      lines ++ keptLine trim ignoreEmptyLines trimSpaces line := by
  rw [processLinesLoop, getline_last h hne, append_keptLine]
  exact processLinesLoop_nil _

/-- The loop appends to what it starts with, and more iterations than characters change nothing. -/
theorem processLinesLoop_eq (ht : str.length ≤ t) (lines : StringsT) :
    processLinesLoop trim ignoreEmptyLines trimSpaces t str lines =
      lines ++ processLines trim str ignoreEmptyLines trimSpaces := by
  induction str using text_induction generalizing t lines with
  | last line h =>
    by_cases hne : line = []
    · subst hne
      simp [processLines, processLinesLoop_nil]
    · have hpos := List.length_pos_iff.2 hne
      obtain ⟨t, rfl⟩ : ∃ n, t = n + 1 := ⟨t - 1, by omega⟩
      obtain ⟨n, hn⟩ : ∃ n, line.length = n + 1 := ⟨line.length - 1, by omega⟩
      rw [processLines, hn, processLinesLoop_last h hne, processLinesLoop_last h hne,
        List.nil_append]
  | cons line rest h ih =>
    rw [List.length_append, List.length_cons] at ht
    obtain ⟨t, rfl⟩ : ∃ n, t = n + 1 := ⟨t - 1, by omega⟩
    obtain ⟨n, hn⟩ : ∃ n, (line ++ '\n' :: rest).length = n + 1 := ⟨line.length + rest.length, by
      rw [List.length_append, List.length_cons]
      omega⟩
    have hrest : rest.length ≤ n := by
      rw [List.length_append, List.length_cons] at hn
      omega
    rw [processLines, hn, processLinesLoop_line h, processLinesLoop_line h, ih (by omega),
      ih hrest, List.nil_append, List.append_assoc]

theorem processLines_line (h : '\n' ∉ line) (rest : List Char) :
    processLines trim (line ++ '\n' :: rest) ignoreEmptyLines trimSpaces =
      keptLine trim ignoreEmptyLines trimSpaces line ++
        processLines trim rest ignoreEmptyLines trimSpaces := by
  rw [processLines, List.length_append, List.length_cons, ← Nat.add_assoc,
    processLinesLoop_line h, processLinesLoop_eq (by omega), List.nil_append]

theorem processLines_last (h : '\n' ∉ line) (hne : line ≠ []) :
    processLines trim line ignoreEmptyLines trimSpaces =
      keptLine trim ignoreEmptyLines trimSpaces line := by
  have hpos := List.length_pos_iff.2 hne
  rw [processLines, show line.length = line.length - 1 + 1 by omega, processLinesLoop_last h hne,
    List.nil_append]

end Lines

/-! ### Changes of whitespace -/

/-- Whitespace inside of a line. -/
def Blank (isSpace : Char → Bool) (ws : Line) : Prop :=
  ∀ c ∈ ws, isSpace c = true ∧ c ≠ '\n'

/-- The position behind `before` starts a line. -/
def StartsLine (before : List Char) : Prop :=
  before = [] ∨ ∃ text, before = text ++ ['\n']

/-- The position in front of `behind` ends a line. -/
def EndsLine (behind : List Char) : Prop :=
  behind = [] ∨ ∃ text, behind = '\n' :: text

/-- One change of the whitespace of a text. -/
inductive Reformat (isSpace : Char → Bool) : List Char → List Char → Prop
  /-- A whitespace-only line in front of a line, or at the end. -/
  | blankLine {before : List Char} (behind ws : List Char) (h : StartsLine before)
      (hws : Blank isSpace ws) :
      Reformat isSpace (before ++ behind) (before ++ ws ++ '\n' :: behind)
  /-- Whitespace at the start of a line. -/
  | leading {before : List Char} (behind ws : List Char) (h : StartsLine before)
      (hws : Blank isSpace ws) : Reformat isSpace (before ++ behind) (before ++ ws ++ behind)
  /-- Whitespace at the end of a line. -/
  | trailing (before : List Char) {behind : List Char} (ws : List Char) (h : EndsLine behind)
      (hws : Blank isSpace ws) : Reformat isSpace (before ++ behind) (before ++ ws ++ behind)
  /-- A newline at the end of the text. -/
  | addNewline (text : List Char) : Reformat isSpace text (text ++ ['\n'])
  /-- No newline at the end of the text. -/
  | dropNewline (text : List Char) : Reformat isSpace (text ++ ['\n']) text

/-- The line without the whitespace at its two ends. -/
def strip (isSpace : Char → Bool) (line : Line) : Line :=
  (line.dropWhile isSpace).rdropWhile isSpace

/-- A trimming function removes the leading and the trailing whitespace of a line. -/
def Trims (isSpace : Char → Bool) (trim : Line → Line) : Prop :=
  ∀ line, '\n' ∉ line → trim line = strip isSpace line

section Whitespace

variable {isSpace : Char → Bool} {ws line : Line}

theorem Blank.newline_not_mem (h : Blank isSpace ws) : '\n' ∉ ws :=
  fun hmem ↦ (h _ hmem).2 rfl

theorem rdropWhile_append_of_pos {p : Char → Bool} (l : List Char) {ws : List Char}
    (h : ∀ c ∈ ws, p c = true) : (l ++ ws).rdropWhile p = l.rdropWhile p := by
  have hrev : ∀ c ∈ ws.reverse, p c = true := fun c hc ↦ h c (List.mem_reverse.1 hc)
  rw [List.rdropWhile, List.reverse_append, List.dropWhile_append_of_pos hrev, List.rdropWhile]

theorem strip_append_left (h : Blank isSpace ws) (line : Line) :
    strip isSpace (ws ++ line) = strip isSpace line := by
  rw [strip, List.dropWhile_append_of_pos fun c hc ↦ (h c hc).1, strip]

theorem strip_append_right (line : Line) (h : Blank isSpace ws) :
    strip isSpace (line ++ ws) = strip isSpace line := by
  have hall : ∀ c ∈ ws, isSpace c = true := fun c hc ↦ (h c hc).1
  rw [strip, strip, List.dropWhile_append]
  by_cases hline : (line.dropWhile isSpace).isEmpty = true
  · -- whitespace only: nothing is left on either side
    rw [if_pos hline, List.isEmpty_iff.1 hline, List.dropWhile_eq_nil_iff.2 hall]
  · rw [if_neg hline, rdropWhile_append_of_pos _ hall]

theorem strip_blank (h : Blank isSpace ws) : strip isSpace ws = [] := by
  have := strip_append_right [] h
  rwa [List.nil_append] at this

variable {trim : Line → Line}

/-- With both options on, a newline may also stand where there is no line. -/
theorem processLines_append (hnil : trim [] = []) (a b : List Char) :
    processLines trim (a ++ '\n' :: b) true true =
      processLines trim a true true ++ processLines trim b true true := by
  induction a using text_induction with
  | last line h =>
    rw [processLines_line h]
    by_cases hne : line = []
    · subst hne
      simp [keptLine, hnil, processLines, processLinesLoop]
    · rw [processLines_last h hne]
  | cons line rest h ih =>
    rw [List.append_assoc, List.cons_append, processLines_line h, processLines_line h, ih,
      List.append_assoc]

/-- With both options on, the last line is kept as the others are. -/
theorem processLines_of_not_mem (hnil : trim [] = []) (h : '\n' ∉ line) :
    processLines trim line true true = keptLine trim true true line := by
  by_cases hne : line = []
  · subst hne
    simp [keptLine, hnil, processLines, processLinesLoop]
  · exact processLines_last h hne

theorem Trims.nil (htrim : Trims isSpace trim) : trim [] = [] :=
  htrim [] (by simp)

theorem Trims.processLines_blank (htrim : Trims isSpace trim) (hws : Blank isSpace ws) :
    processLines trim ws true true = [] := by
  have hnil := htrim.nil
  rw [processLines_of_not_mem hnil hws.newline_not_mem, keptLine, if_pos rfl,
    htrim ws hws.newline_not_mem, strip_blank hws]
  rfl

theorem Trims.keptLine_congr (htrim : Trims isSpace trim) {line' : Line} (h : '\n' ∉ line)
    (h' : '\n' ∉ line') (heq : strip isSpace line = strip isSpace line') :
    keptLine trim true true line = keptLine trim true true line' := by
  simp only [keptLine, if_true, htrim line h, htrim line' h', heq]

/-- Whitespace at the start of a text. -/
theorem Trims.processLines_leading (htrim : Trims isSpace trim) (hws : Blank isSpace ws)
    (text : List Char) :
    processLines trim (ws ++ text) true true = processLines trim text true true := by
  have hnil := htrim.nil
  have hline : ∀ line, '\n' ∉ line → '\n' ∉ ws ++ line := fun line h hmem ↦
    (List.mem_append.1 hmem).elim hws.newline_not_mem h
  induction text using text_induction with
  | last line h =>
    rw [processLines_of_not_mem hnil (hline line h), processLines_of_not_mem hnil h]
    exact htrim.keptLine_congr (hline line h) h (strip_append_left hws line)
  | cons line rest h _ =>
    rw [← List.append_assoc, processLines_line (hline line h), processLines_line h,
      htrim.keptLine_congr (hline line h) h (strip_append_left hws line)]

/-- Whitespace at the end of a text. The induction is on the lines of the text: only the last one
changes. -/
theorem Trims.processLines_trailing (htrim : Trims isSpace trim) (text : List Char)
    (hws : Blank isSpace ws) :
    processLines trim (text ++ ws) true true = processLines trim text true true := by
  have hnil := htrim.nil
  induction text using text_induction with
  | last line h =>
    have hline : '\n' ∉ line ++ ws := fun hmem ↦
      (List.mem_append.1 hmem).elim h hws.newline_not_mem
    rw [processLines_of_not_mem hnil hline, processLines_of_not_mem hnil h]
    exact htrim.keptLine_congr hline h (strip_append_right line hws)
  | cons line rest h ih =>
    rw [List.append_assoc, List.cons_append, processLines_line h, processLines_line h, ih]

/-- What holds in front of every text holds at the start of every line. -/
theorem Trims.processLines_startsLine (htrim : Trims isSpace trim)
    {before text text' : List Char} (h : StartsLine before)
    (heq : processLines trim text true true = processLines trim text' true true) :
    processLines trim (before ++ text) true true =
      processLines trim (before ++ text') true true := by
  have hnil := htrim.nil
  rcases h with rfl | ⟨lines, rfl⟩
  · exact heq
  · rw [List.append_assoc, List.append_assoc, List.singleton_append, List.singleton_append,
      processLines_append hnil, processLines_append hnil, heq]

/-- One change of whitespace is not seen. -/
theorem Reformat.processLines_eq (htrim : Trims isSpace trim) {text text' : List Char}
    (h : Reformat isSpace text text') :
    processLines trim text true true = processLines trim text' true true := by
  have hnil := htrim.nil
  have hempty : processLines trim [] true true = [] := rfl
  cases h with
  | blankLine behind ws h hws =>
    rw [List.append_assoc]
    refine htrim.processLines_startsLine h ?_
    rw [processLines_append hnil, htrim.processLines_blank hws, List.nil_append]
  | leading behind ws h hws =>
    rw [List.append_assoc]
    exact htrim.processLines_startsLine h (htrim.processLines_leading hws behind).symm
  | trailing before ws h hws =>
    rcases h with rfl | ⟨text, rfl⟩
    · rw [List.append_nil, List.append_nil, htrim.processLines_trailing before hws]
    · rw [processLines_append hnil, processLines_append hnil,
        htrim.processLines_trailing before hws]
  | addNewline => rw [processLines_append hnil, hempty, List.append_nil]
  | dropNewline => rw [processLines_append hnil, hempty, List.append_nil]

/-- Any number of changes of whitespace is not seen. -/
theorem Trims.processLines_reformat (htrim : Trims isSpace trim) {text text' : List Char}
    (h : ReflTransGen (Reformat isSpace) text text') :
    processLines trim text true true = processLines trim text' true true := by
  induction h with
  | refl => rfl
  | tail _ hstep ih => exact ih.trans (hstep.processLines_eq htrim)

end Whitespace

/-- **Whitespace invariance.** With both options on, the message of two texts, its line numbers
included, does not depend on the whitespace around their lines, on lines of whitespace, or on the
newline at the end. -/
theorem diffLines_reformat (isSpace : Char → Bool) (trim : Line → Line)
    (htrim : Trims isSpace trim)
    {expect got expect' got' : List Char}
    (hexpect : ReflTransGen (Reformat isSpace) expect expect')
    (hgot : ReflTransGen (Reformat isSpace) got got') (fuel : ℕ) :
    diffLines trim expect got true true fuel = diffLines trim expect' got' true true fuel := by
  rw [diffLines, diffLines, htrim.processLines_reformat hexpect, htrim.processLines_reformat hgot]

/-- Two texts of short lines, each in two formats. -/
theorem diffLines_reformat_words :
    diffLines (strip (· ∈ [' ', '\t'])) ['a', '\n', 'b'] ['a', '\n'] true true 9 =
      diffLines (strip (· ∈ [' ', '\t'])) [' ', 'a', '\n', '\t', '\n', 'b', '\n'] ['a', ' '] true
        true 9 := by
  refine diffLines_reformat (· ∈ [' ', '\t']) _ (fun _ _ ↦ rfl) ?_ ?_ 9
  · have h₁ := @Reformat.leading (· ∈ [' ', '\t']) [] ['a', '\n', 'b'] [' '] (.inl rfl)
      (by simp [Blank])
    have h₂ := @Reformat.blankLine (· ∈ [' ', '\t']) [' ', 'a', '\n'] ['b'] ['\t']
      (.inr ⟨[' ', 'a'], rfl⟩) (by simp [Blank])
    exact ((ReflTransGen.single h₁).tail h₂).tail (.addNewline _)
  · have h := @Reformat.trailing (· ∈ [' ', '\t']) ['a'] [] [' '] (.inl rfl)
      (by simp [Blank])
    exact (ReflTransGen.single (.dropNewline ['a'])).tail h

end Cppkg.Differ
