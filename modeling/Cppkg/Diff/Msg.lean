import Cppkg.Diff.MyersDiff

/-!
# Difference messages

The functions of `msg.cc` and `format.h`. A line is a list of characters, and the trimming
function that lines may go through is a parameter (`trim`), as it comes from another
library.

The renderer (`MsgDiffT.toString`) counts entries in an `IndexT` again and uses the count as
the size of an automatic array. A negative size is undefined; a size of zero is taken as an
empty array, which is what an empty difference list needs.

`safe_diff_msg_helper` is split into one batch (`safeDiffMsgBatch`), which returns the
entries it adds and the lists it goes on with, and the recursion over the batches
(`safeDiffMsgHelper`).
-/

namespace Cppkg.Differ

/-- `std::string`. -/
abbrev Line := List Char

/-- `cisab::types::StringsT`. -/
abbrev StringsT := List Line

/-- `MsgDiffT`. -/
abbrev MsgDiffT := List (Diff Line)

/-! ### Formatting -/

/-- Symbol for added lines. -/
def addToken : Char := '+'

/-- Symbol for removed lines. -/
def delToken : Char := '-'

/-- Number of lines to display before lines where differences occured. -/
def linesBefore : ℤ := 3

/-- Number of lines to display after lines where differences occured. -/
def linesAfter : ℤ := 3

/-- A signed integer as `operator<<` prints it. -/
def decimal (z : ℤ) : Line :=
  if z < 0 then '-' :: Nat.toDigits 10 z.natAbs else Nat.toDigits 10 z.toNat

/-- `diff_line_format`: one line of a message. -/
def diffLineFormat (val : Line) (action : Action) (orig updated : ℤ) : Line :=
  (match action with
    | .eq => [' ', ' '] ++ decimal orig ++ ['\t'] ++ decimal updated
    | .add => [addToken, ' ', ' ', '\t'] ++ decimal updated
    | .del => [delToken, ' '] ++ decimal orig ++ ['\t', ' ']) ++
  ['\t'] ++ val ++ ['\n']

/-- One iteration of the loop that marks the lines to show: a change shows the lines around
it, clamped to the message. -/
def markShow (diffs : MsgDiffT) (ndiffs : IndexT) (show' : List Bool) (i : ℕ) :
    Except Fault (List Bool) := do
  let diff ← readAt diffs i
  if diff.action ≠ .eq then
    let first := toInt16 (max 0 (i - linesBefore))
    let last := toInt16 (min (ndiffs - 1) (i + linesAfter))
    memsetAt show' first (toSizeT (last - first + 1)) true
  else .ok show'

/-- The counters of the output loop and its output. -/
structure Output where
  oidx : ℕ
  uidx : ℕ
  out : Line

/-- One iteration of the output loop. -/
def printEntry (diffs : MsgDiffT) (show' : List Bool) (s : Output) (i : ℕ) :
    Except Fault Output := do
  let shown ← readAt show' i
  let diff ← readAt diffs i
  let out := if shown then s.out ++ diffLineFormat diff.val diff.action s.oidx s.uidx else s.out
  match diff.action with
  | .eq => .ok ⟨s.oidx + 1, s.uidx + 1, out⟩
  | .add => .ok ⟨s.oidx, s.uidx + 1, out⟩
  | .del => .ok ⟨s.oidx + 1, s.uidx, out⟩

/-- `to_string`: the changes of a difference list with the lines around them. -/
def MsgDiffT.toString (diffs : MsgDiffT) : Except Fault Line := do
  let ndiffs := toInt16 diffs.length
  if ndiffs < 0 then .error .negativeBound
  else
    let show' ← (List.range ndiffs.toNat).foldlM (markShow diffs ndiffs)
      (List.replicate ndiffs.toNat false)
    let s ← (List.range ndiffs.toNat).foldlM (printEntry diffs show') ⟨0, 0, []⟩
    .ok s.out

/-! ### Batches -/

/-- `std::equal_to` on lines. -/
def lineEq (a b : Line) : Bool := a == b

/-- The loop that looks for the last match of a batch: the length of the list up to it, and
the positions behind it in the two arrays. -/
def lastMatch : IndexT → MsgDiffT → IndexT × IndexT × IndexT → IndexT × IndexT × IndexT
  | _, [], ends => ends
  | i, diff :: diffs, ends =>
    lastMatch (toInt16 (i + 1)) diffs
      (if diff.action = .eq then
        (toInt16 (i + 1), toInt16 (diff.orig + 1), toInt16 (diff.updated + 1))
      else ends)

/-- The body of `safe_diff_msg_helper`: the entries it adds and, unless the lists fit one
batch, the lists of the recursive call. -/
def safeDiffMsgBatch (expect got : StringsT) (batchLimit fuel : ℕ) :
    Except Fault (MsgDiffT × Option (StringsT × StringsT)) := do
  let nexpect := expect.length
  let ngot := got.length
  if nexpect ≤ batchLimit ∧ ngot ≤ batchLimit then
    let mdiffs ← myersDiff lineEq expect got fuel
    let n := toInt16 mdiffs.length
    .ok (mdiffs.take n.toNat, none)
  else
    let exbatch := expect.take (min batchLimit nexpect)
    let gobatch := got.take (min batchLimit ngot)
    let mdiffs ← myersDiff lineEq exbatch gobatch fuel
    let n := toInt16 mdiffs.length
    let (diffEnd, eoffset, goffset) := lastMatch 0 (mdiffs.take n.toNat)
      (n, toInt16 (min batchLimit nexpect : ℕ), toInt16 (min batchLimit ngot : ℕ))
    let expect' ← suffixFrom expect eoffset
    let got' ← suffixFrom got goffset
    .ok (mdiffs.take diffEnd.toNat, some (expect', got'))

/-- `safe_diff_msg_helper`: the differences batch by batch, appended to `diffs`. -/
def safeDiffMsgHelper (batchLimit : ℕ) :
    ℕ → MsgDiffT → StringsT → StringsT → Except Fault MsgDiffT
  | 0, _, _, _ => .error .outOfFuel
  | fuel + 1, diffs, expect, got => do
    match ← safeDiffMsgBatch expect got batchLimit fuel with
    | (batch, none) => .ok (diffs ++ batch)
    | (batch, some (expect', got')) =>
      safeDiffMsgHelper batchLimit fuel (diffs ++ batch) expect' got'

/-- `diff_msg`: the message of two lists compared at once. -/
def diffMsg (expect got : StringsT) (fuel : ℕ) : Except Fault Line := do
  let diffs ← myersDiff lineEq expect got fuel
  MsgDiffT.toString diffs

/-- `safe_diff_msg`: the message of two lists compared in batches. -/
def safeDiffMsg (expect got : StringsT) (batchLimit fuel : ℕ) : Except Fault Line := do
  let diff ← safeDiffMsgHelper batchLimit fuel [] expect got
  MsgDiffT.toString diff

/-! ### Lines of a text -/

/-- `std::getline`: the next line and the text behind it, nothing at the end of the text. -/
def getline (str : List Char) : Option (Line × List Char) :=
  if str = [] then none
  else some (str.takeWhile (· ≠ '\n'), (str.dropWhile (· ≠ '\n')).tail)

section Text

variable (trim : Line → Line)

/-- The loop of `process_lines`. Every line read takes at least one character off the text,
whose length is the first argument. -/
def processLinesLoop (ignoreEmptyLines trimSpaces : Bool) :
    ℕ → List Char → StringsT → StringsT
  | 0, _, lines => lines
  | t + 1, str, lines =>
    match getline str with
    | none => lines
    | some (line, rest) =>
      let line := if trimSpaces then trim line else line
      let lines := if ignoreEmptyLines = false ∨ 0 < line.length then lines ++ [line] else lines
      processLinesLoop ignoreEmptyLines trimSpaces t rest lines

/-- `process_lines`: the lines of a text that are compared. -/
def processLines (str : List Char) (ignoreEmptyLines trimSpaces : Bool) : StringsT :=
  processLinesLoop trim ignoreEmptyLines trimSpaces str.length str []

/-- The default `batch_limit`, `std::numeric_limits<IndexT>::max()`. -/
def defaultBatchLimit : ℕ := 32767

/-- `diff_lines`: the message of two texts. -/
def diffLines (expect got : List Char) (ignoreEmptyLines trimSpaces : Bool) (fuel : ℕ) :
    Except Fault Line :=
  let exlines := processLines trim expect ignoreEmptyLines trimSpaces
  let golines := processLines trim got ignoreEmptyLines trimSpaces
  safeDiffMsg exlines golines defaultBatchLimit fuel

end Text

end Cppkg.Differ
