import Cppkg.Diff.Msg
import Cppkg.Diff.MyersScript

/-!
# What a message shows

`to_string` marks the entries around each change in a first loop and prints the marked ones in
a second, which also counts the lines of both lists it has passed. Its result is described
here without either loop: the line of entry `i` (`lineAt`) is shown if some change is at most
three entries away (`shown`), and its numbers count the entries before it (`toString_eq`).

The number of entries is narrowed to an `IndexT` first. The specification is therefore about
the entries up to the narrowed count, for a count that stays non-negative; a negative one is
the size of an automatic array (`toString_of_neg`).
-/

namespace Cppkg.Differ

/-! ### The description -/

/-- Whether entry `j` is a change. -/
def changed (diffs : MsgDiffT) (j : ℕ) : Bool := (diffs[j]?).any fun e ↦ e.action != .eq

/-- Whether one of the first `n` entries is a change that shows entry `i`. -/
def shownBy (diffs : MsgDiffT) (n i : ℕ) : Bool :=
  (List.range n).any fun j ↦ changed diffs j && decide (i ≤ j + 3) && decide (j ≤ i + 3)

/-- Whether entry `i` is shown: some change is at most three entries away. -/
def shown (diffs : MsgDiffT) (i : ℕ) : Bool := shownBy diffs diffs.length i

/-- The line of entry `i`, with the numbers of the lines of both lists before it. -/
def lineAt (diffs : MsgDiffT) (i : ℕ) : Line :=
  match diffs[i]? with
  | some e => diffLineFormat e.val e.action ((diffs.take i).countP Diff.inOrig : ℕ)
      ((diffs.take i).countP Diff.inUpdated : ℕ)
  | none => []

/-- The lines of the first `n` entries that are shown. -/
def shownLines (diffs : MsgDiffT) (n : ℕ) : List Line :=
  ((List.range n).filter (shown diffs)).map (lineAt diffs)

theorem changed_iff {diffs : MsgDiffT} {j : ℕ} :
    changed diffs j = true ↔ ∃ e, diffs[j]? = some e ∧ e.action ≠ .eq := by
  simp [changed, Option.any_eq_true]

theorem shown_iff {diffs : MsgDiffT} {i : ℕ} :
    shown diffs i = true ↔ ∃ j, changed diffs j = true ∧ i ≤ j + 3 ∧ j ≤ i + 3 := by
  simp only [shown, shownBy, List.any_eq_true, List.mem_range, Bool.and_eq_true,
    decide_eq_true_eq, and_assoc]
  refine ⟨fun ⟨j, _, h⟩ ↦ ⟨j, h⟩, fun ⟨j, hc, h⟩ ↦ ⟨j, ?_, hc, h⟩⟩
  obtain ⟨e, he, -⟩ := changed_iff.1 hc
  exact (List.getElem?_eq_some_iff.1 he).1

/-- A change is always shown. -/
theorem shown_of_changed {diffs : MsgDiffT} {i : ℕ} (h : changed diffs i = true) :
    shown diffs i = true :=
  shown_iff.2 ⟨i, h, by omega, by omega⟩

theorem shownBy_succ (diffs : MsgDiffT) (n i : ℕ) :
    shownBy diffs (n + 1) i =
      (shownBy diffs n i || (changed diffs n && decide (i ≤ n + 3) && decide (n ≤ i + 3))) := by
  rw [shownBy, List.range_succ, List.any_append]
  simp [shownBy]

/-! ### The two loops

Both loops run over the entries up to the narrowed count, `shows`, and read them in the whole
list, `diffs`. -/

section Loops

variable {diffs shows : MsgDiffT} {i : ℕ}

/-- The marks after `n` iterations of the first loop. -/
def marks (diffs : MsgDiffT) (n : ℕ) : List Bool :=
  (List.range diffs.length).map (shownBy diffs n)

theorem marks_length (diffs : MsgDiffT) :
    marks diffs diffs.length = (List.range diffs.length).map (shown diffs) :=
  rfl

theorem markShow_spec (hread : diffs[i]? = shows[i]?) (hi : i < shows.length)
    (hr : shows.length ≤ 32767) :
    markShow diffs shows.length (marks shows i) i = .ok (marks shows (i + 1)) := by
  obtain ⟨e, he, -⟩ := exists_readAt hi
  rw [markShow, readAt_of_getElem? (hread.trans he)]
  by_cases hchange : e.action = .eq
  · have hc : changed shows i = false := by simp [changed, he, hchange]
    have hmarks : marks shows (i + 1) = marks shows i := by
      refine List.map_congr_left fun t _ ↦ ?_
      rw [shownBy_succ, hc, Bool.false_and, Bool.false_and, Bool.or_false]
    rw [hmarks]
    simp [bind, Except.bind, hchange]
  · -- a change marks the lines around it, clipped to the entries
    have hc : changed shows i = true := changed_iff.2 ⟨e, he, hchange⟩
    have hfirst : toInt16 (max 0 (i - linesBefore)) = ((i - 3 : ℕ) : ℤ) := by
      rw [linesBefore, toInt16_of_bounds (by omega) (by omega)]
      omega
    have hlast : toInt16 (min ((shows.length : ℤ) - 1) (i + linesAfter)) =
        ((min (shows.length - 1) (i + 3) : ℕ) : ℤ) := by
      rw [linesAfter, toInt16_of_bounds (by omega) (by omega)]
      omega
    have hcount : toSizeT (((min (shows.length - 1) (i + 3) : ℕ) : ℤ) - ((i - 3 : ℕ) : ℤ) + 1) =
        min (shows.length - 1) (i + 3) + 1 - (i - 3) := by
      rw [toSizeT_of_bounds (by omega) (by omega)]
      omega
    have hle : i - 3 + (min (shows.length - 1) (i + 3) + 1 - (i - 3)) ≤ shows.length := by omega
    have hfill := memsetAt_map_range (shownBy shows i) (shownBy shows (i + 1)) (i - 3)
      (min (shows.length - 1) (i + 3) + 1 - (i - 3)) (a := true) hle
      (fun t h₁ h₂ ↦ by
        rw [shownBy_succ, hc, decide_eq_true (show t ≤ i + 3 by omega),
          decide_eq_true (show i ≤ t + 3 by omega)]
        simp)
      (fun t ht h ↦ by
        have hfar : (decide (t ≤ i + 3) && decide (i ≤ t + 3)) = false := by
          rw [Bool.and_eq_false_iff, decide_eq_false_iff_not, decide_eq_false_iff_not]
          omega
        rw [shownBy_succ, hc, Bool.true_and, hfar, Bool.or_false])
    simp only [bind, Except.bind, hchange, ne_eq, not_false_eq_true, if_true, hfirst, hlast,
      hcount]
    exact hfill

theorem markShow_loop (hread : ∀ i < shows.length, diffs[i]? = shows[i]?)
    (hr : shows.length ≤ 32767) :
    (List.range shows.length).foldlM (markShow diffs shows.length)
      (List.replicate shows.length false) = .ok (marks shows shows.length) := by
  have hstart : List.replicate shows.length false = marks shows 0 := by
    refine List.ext_getElem (by simp [marks]) fun i _ _ ↦ ?_
    simp [marks, shownBy]
  obtain ⟨s, hrun, rfl⟩ := foldlM_range (P := fun n s ↦ s = marks shows n) hstart
    fun i hi s hs ↦ ⟨_, hs ▸ markShow_spec (hread i hi) hi hr, rfl⟩
  exact hrun

/-- The state of the output loop after `n` iterations. -/
def output (diffs : MsgDiffT) (n : ℕ) : Output :=
  ⟨(diffs.take n).countP Diff.inOrig, (diffs.take n).countP Diff.inUpdated,
    (shownLines diffs n).flatten⟩

theorem shownLines_succ (diffs : MsgDiffT) (n : ℕ) :
    (shownLines diffs (n + 1)).flatten = (shownLines diffs n).flatten ++
      if shown diffs n then lineAt diffs n else [] := by
  rw [shownLines, List.range_succ, List.filter_append, List.map_append, List.flatten_append,
    ← shownLines]
  split <;> simp [*]

theorem printEntry_spec (hread : diffs[i]? = shows[i]?) (hi : i < shows.length) :
    printEntry diffs (marks shows shows.length) (output shows i) i =
      .ok (output shows (i + 1)) := by
  obtain ⟨⟨val, orig, updated, action⟩, he, -⟩ := exists_readAt hi
  have hmark : (marks shows shows.length)[i]? = some (shown shows i) := by
    simp [marks_length, hi]
  have hline : lineAt shows i = diffLineFormat val action
      ((shows.take i).countP Diff.inOrig : ℕ) ((shows.take i).countP Diff.inUpdated : ℕ) := by
    rw [lineAt, he]
  have htake : shows.take (i + 1) = shows.take i ++ [⟨val, orig, updated, action⟩] := by
    rw [List.take_add_one, he]
    rfl
  rw [printEntry, readAt_of_getElem? hmark, readAt_of_getElem? (hread.trans he)]
  simp only [bind, Except.bind, output, ← hline, htake, shownLines_succ, List.countP_append,
    List.countP_singleton, Diff.inOrig, Diff.inUpdated]
  cases shown shows i <;> cases action <;> simp

theorem printEntry_loop (hread : ∀ i < shows.length, diffs[i]? = shows[i]?) :
    (List.range shows.length).foldlM (printEntry diffs (marks shows shows.length)) ⟨0, 0, []⟩ =
      .ok (output shows shows.length) := by
  obtain ⟨s, hrun, rfl⟩ := foldlM_range (P := fun n s ↦ s = output shows n) rfl
    fun i hi s hs ↦ ⟨_, hs ▸ printEntry_spec (hread i hi) hi, rfl⟩
  exact hrun

end Loops

/-! ### The message -/

theorem toInt16_le_self {n : ℕ} (h : 0 ≤ toInt16 n) : (toInt16 n).toNat ≤ n := by
  unfold toInt16 at *
  omega

/-- **The message.** For a narrowed count that is not negative, the lines shown among the
entries up to it. -/
theorem toString_eq {diffs : MsgDiffT} (h : 0 ≤ toInt16 diffs.length) {shows : MsgDiffT}
    (hshows : diffs.take (toInt16 diffs.length).toNat = shows) :
    MsgDiffT.toString diffs = .ok (shownLines shows shows.length).flatten := by
  have hlen : shows.length = (toInt16 diffs.length).toNat := by
    rw [← hshows, List.length_take, min_eq_left (toInt16_le_self h)]
  have hbound : shows.length ≤ 32767 := by
    have := toInt16_le (diffs.length : ℤ)
    omega
  have hread : ∀ i < shows.length, diffs[i]? = shows[i]? := fun i hi ↦ by
    rw [← hshows, List.getElem?_take_of_lt (hlen ▸ hi)]
  have hcount : toInt16 (diffs.length : ℤ) = shows.length := by omega
  rw [MsgDiffT.toString, hcount, if_neg (by omega), Int.toNat_natCast, markShow_loop hread hbound]
  simp only [bind, Except.bind, printEntry_loop hread]
  rfl

/-- For a negative narrowed count the array of marks has no size. -/
theorem toString_of_neg {diffs : MsgDiffT} (h : toInt16 diffs.length < 0) :
    MsgDiffT.toString diffs = .error .negativeBound := by
  rw [MsgDiffT.toString, if_pos h]

theorem lineAt_ne_nil {diffs : MsgDiffT} {i : ℕ} (hi : i < diffs.length) :
    lineAt diffs i ≠ [] := by
  obtain ⟨e, he, -⟩ := exists_readAt hi
  rw [lineAt, he]
  simp [diffLineFormat]

/-- A message is empty when nothing it shows is a change. -/
theorem shownLines_flatten_eq_nil {diffs : MsgDiffT} :
    (shownLines diffs diffs.length).flatten = [] ↔ ∀ e ∈ diffs, e.action = .eq := by
  constructor
  · intro h e he
    by_contra hchange
    obtain ⟨i, hi, rfl⟩ := List.mem_iff_getElem.1 he
    have hc : changed diffs i = true :=
      changed_iff.2 ⟨diffs[i], List.getElem?_eq_getElem hi, hchange⟩
    refine lineAt_ne_nil hi (List.flatten_eq_nil_iff.1 h _ (List.mem_map_of_mem ?_))
    exact List.mem_filter.2 ⟨List.mem_range.2 hi, shown_of_changed hc⟩
  · intro h
    have hnone : (List.range diffs.length).filter (shown diffs) = [] := by
      refine List.filter_eq_nil_iff.2 fun i _ hs ↦ ?_
      obtain ⟨j, hc, -⟩ := shown_iff.1 hs
      obtain ⟨e, he, hchange⟩ := changed_iff.1 hc
      exact hchange (h e (List.mem_of_getElem? he))
    rw [shownLines, hnone]
    rfl

/-! ### Context -/

theorem lineAt_eq {diffs : MsgDiffT} {i : ℕ} {e : Diff Line}
    (he : diffs[i]? = some e) :
    lineAt diffs i = diffLineFormat e.val e.action
      ((diffs.take i).countP fun e ↦ e.action = .eq ∨ e.action = .del : ℕ)
      ((diffs.take i).countP fun e ↦ e.action = .eq ∨ e.action = .add : ℕ) := by
  have horig : ∀ e : Diff Line, e.inOrig = decide (e.action = .eq ∨ e.action = .del) := fun e ↦ by
    cases ha : e.action <;> simp [Diff.inOrig, ha]
  have hupdated : ∀ e : Diff Line, e.inUpdated = decide (e.action = .eq ∨ e.action = .add) :=
    fun e ↦ by cases ha : e.action <;> simp [Diff.inUpdated, ha]
  rw [lineAt, he]
  simp only [funext horig, funext hupdated]

/-- **Changes are shown in context.** A message of no more entries than the index type counts is
rendered without an access outside of the array of marks. It consists of the lines of those
entries that have a change at most three entries away, in their order. The numbers of a line
count the entries before it, shown or not, and not the positions that its entry carries. -/
theorem toString_context (diffs : MsgDiffT) (h : diffs.length ≤ 32767) :
    ∃ shows : List ℕ, MsgDiffT.toString diffs = .ok (shows.map (lineAt diffs)).flatten ∧
      shows.Pairwise (· < ·) ∧
      (∀ i, i ∈ shows ↔ i < diffs.length ∧
        ∃ (j : ℕ) (e : Diff Line), diffs[j]? = some e ∧ e.action ≠ .eq ∧ |(i : ℤ) - j| ≤ 3) ∧
      ∀ i e, diffs[i]? = some e → lineAt diffs i = diffLineFormat e.val e.action
        ((diffs.take i).countP fun e ↦ e.action = .eq ∨ e.action = .del : ℕ)
        ((diffs.take i).countP fun e ↦ e.action = .eq ∨ e.action = .add : ℕ) := by
  have hcount : toInt16 (diffs.length : ℤ) = diffs.length := toInt16_natCast h
  have hshows : diffs.take (toInt16 diffs.length).toNat = diffs := by
    rw [hcount, Int.toNat_natCast, List.take_length]
  have hrun := toString_eq (by omega) hshows
  refine ⟨(List.range diffs.length).filter (shown diffs), hrun,
    List.pairwise_lt_range.filter _, fun i ↦ ?_, fun i e he ↦ lineAt_eq he⟩
  rw [List.mem_filter, List.mem_range, shown_iff]
  refine and_congr_right fun _ ↦ ⟨?_, ?_⟩
  · rintro ⟨j, hc, h₁, h₂⟩
    obtain ⟨e, he, hchange⟩ := changed_iff.1 hc
    exact ⟨j, e, he, hchange, abs_le.2 (by omega)⟩
  · rintro ⟨j, e, he, hchange, hnear⟩
    rw [abs_le] at hnear
    exact ⟨j, changed_iff.2 ⟨e, he, hchange⟩, by omega, by omega⟩

/-- An entry is added behind a match, and both are shown. -/
theorem toString_context_two :
    ∃ shows : List ℕ, MsgDiffT.toString [⟨['a'], 0, 0, .eq⟩, ⟨['b'], -1, 1, .add⟩] =
        .ok (shows.map (lineAt [⟨['a'], 0, 0, .eq⟩, ⟨['b'], -1, 1, .add⟩])).flatten ∧
      0 ∈ shows ∧ 1 ∈ shows := by
  obtain ⟨shows, hrun, -, hmem, -⟩ :=
    toString_context [⟨['a'], 0, 0, .eq⟩, ⟨['b'], -1, 1, .add⟩] (by decide)
  exact ⟨shows, hrun, (hmem 0).2 ⟨by decide, 1, _, rfl, by decide, by decide⟩,
    (hmem 1).2 ⟨by decide, 1, _, rfl, by decide, by decide⟩⟩

end Cppkg.Differ
