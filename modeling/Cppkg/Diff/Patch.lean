import Cppkg.Diff.LongMessages
import Cppkg.Lib.Terminated

/-!
# A message is a patch

Two lists are recovered from one of them and their message. The message is a text of lines,
each ended by a newline that no line contains (`Terminated.flatten_inj`). Its lines that do not
start with a space are those of the changes, in order (`filter_shownLines`), and such a line
gives the action, the value and the number on its side back (`diffLineFormat_inj`).

The matches that are not printed are recovered by position: at a match, both counters move on,
so every later change is printed with a larger number than a change at that position would be
(`edits_ne_of_eq`).
-/

namespace Cppkg.Differ

open EditGraph Terminated

/-! ### One line -/

theorem decimal_natCast (n : ℕ) : decimal n = Nat.toDigits 10 n := by
  rw [decimal, if_neg (by omega), Int.toNat_natCast]

theorem decimal_inj {m n : ℕ} (h : decimal m = decimal n) : m = n := by
  rw [decimal_natCast, decimal_natCast] at h
  rw [← Nat.ofDigitChars_ten_toDigits (n := m), h, Nat.ofDigitChars_ten_toDigits]

theorem notMem_decimal {c : Char} (hc : c.isDigit = false) (n : ℕ) : c ∉ decimal n := by
  rw [decimal_natCast]
  intro h
  rw [Nat.isDigit_of_mem_toDigits (by decide) (by decide) h] at hc
  exact Bool.noConfusion hc

theorem isBlock_diffLineFormat {val : Line} (h : '\n' ∉ val) (action : Action) (o u : ℕ) :
    IsBlock '\n' (diffLineFormat val action o u) := by
  have ho := notMem_decimal (c := '\n') rfl o
  have hu := notMem_decimal (c := '\n') rfl u
  refine ⟨_, ?_, rfl⟩
  cases action <;> simp [addToken, delToken, h, ho, hu]

/-- Whether a line is that of a change. -/
def isEditLine (l : Line) : Bool := l.head? != some ' '

theorem isEditLine_diffLineFormat (val : Line) (action : Action) (o u : ℤ) :
    isEditLine (diffLineFormat val action o u) = (action != .eq) := by
  cases action <;> rfl

/-- The line of a change has one reading. -/
theorem diffLineFormat_inj {v v' : Line} {a a' : Action} {o u o' u' : ℕ} (ha : a ≠ .eq)
    (ha' : a' ≠ .eq) (h : diffLineFormat v a o u = diffLineFormat v' a' o' u') :
    a = a' ∧ v = v' ∧ (a = .add → u = u') ∧ (a = .del → o = o') := by
  have hdec : ∀ n : ℕ, '\t' ∉ decimal n := notMem_decimal rfl
  cases a with
  | eq => exact absurd rfl ha
  | add =>
    cases a' with
    | eq => exact absurd rfl ha'
    | add =>
      simp only [diffLineFormat, List.append_assoc, List.cons_append, List.nil_append,
        List.cons.injEq, true_and] at h
      obtain ⟨hnum, hval⟩ := (append_cons_inj (hdec u) (hdec u')).1 h
      exact ⟨rfl, List.append_cancel_right hval, fun _ ↦ decimal_inj hnum, by simp⟩
    | del => simp [diffLineFormat, addToken, delToken] at h
  | del =>
    cases a' with
    | eq => exact absurd rfl ha'
    | add => simp [diffLineFormat, addToken, delToken] at h
    | del =>
      simp only [diffLineFormat, List.append_assoc, List.cons_append, List.nil_append,
        List.cons.injEq, true_and] at h
      obtain ⟨hnum, hval⟩ := (append_cons_inj (hdec o) (hdec o')).1 h
      simp only [List.cons.injEq, true_and] at hval
      exact ⟨rfl, List.append_cancel_right hval, by simp, fun _ ↦ decimal_inj hnum⟩

/-! ### The lines of the changes -/

/-- The lines of the changes of a difference list behind `o` and `u` lines of both lists. -/
def edits : ℕ → ℕ → MsgDiffT → List Line
  | _, _, [] => []
  | o, u, e :: ds =>
    (if e.action = .eq then [] else [diffLineFormat e.val e.action o u]) ++
      edits (o + e.inOrig.toNat) (u + e.inUpdated.toNat) ds

/-- The line of entry `i` of a difference list behind `o` and `u` lines of both lists. -/
def lineFrom (o u : ℕ) (diffs : MsgDiffT) (i : ℕ) : Line :=
  match diffs[i]? with
  | some e => diffLineFormat e.val e.action (o + (diffs.take i).countP Diff.inOrig : ℕ)
      (u + (diffs.take i).countP Diff.inUpdated : ℕ)
  | none => []

theorem lineFrom_zero (diffs : MsgDiffT) : lineFrom 0 0 diffs = lineAt diffs := by
  funext i
  unfold lineFrom lineAt
  cases diffs[i]? with
  | none => rfl
  | some e => simp only [Nat.zero_add]

theorem lineFrom_succ (o u : ℕ) (e : Diff Line) (ds : MsgDiffT) (i : ℕ) :
    lineFrom o u (e :: ds) (i + 1) =
      lineFrom (o + e.inOrig.toNat) (u + e.inUpdated.toNat) ds i := by
  simp only [lineFrom, List.getElem?_cons_succ, List.take_succ_cons, List.countP_cons]
  cases e.inOrig <;> cases e.inUpdated <;> simp [Nat.add_assoc, Nat.add_comm 1]

/-- The lines of the changed entries are the edits. The induction is on the entries, with the
counters moving on. -/
theorem map_lineFrom_filter_changed (o u : ℕ) (ds : MsgDiffT) :
    ((List.range ds.length).filter (changed ds)).map (lineFrom o u ds) = edits o u ds := by
  induction ds generalizing o u with
  | nil => rfl
  | cons e ds ih =>
    rw [List.length_cons, List.range_succ_eq_map, List.filter_cons, List.filter_map, edits,
      ← ih]
    have hchanged : changed (e :: ds) ∘ Nat.succ = changed ds := rfl
    have hline : lineFrom o u (e :: ds) ∘ Nat.succ =
        lineFrom (o + e.inOrig.toNat) (u + e.inUpdated.toNat) ds :=
      funext (lineFrom_succ o u e ds)
    have hzero : changed (e :: ds) 0 = (e.action != .eq) := rfl
    rw [hchanged, hzero]
    by_cases ha : e.action = .eq
    · simp [ha, hline]
    · simp [ha, hline, lineFrom]

/-- The lines of a message that do not start with a space are those of the changes. -/
theorem filter_shownLines (ds : MsgDiffT) :
    (shownLines ds ds.length).filter isEditLine = edits 0 0 ds := by
  rw [← map_lineFrom_filter_changed, lineFrom_zero, shownLines, List.filter_map,
    List.filter_filter]
  congr 1
  -- every change is shown, and its line is the only kind that does not start with a space
  refine List.filter_congr fun i hi ↦ ?_
  obtain ⟨e, he, -⟩ := exists_readAt (List.mem_range.1 hi)
  have hedit : (isEditLine ∘ lineAt ds) i = changed ds i := by
    simp only [Function.comp, lineAt, changed, he, isEditLine_diffLineFormat, Option.any_some]
  rw [hedit]
  cases hc : changed ds i with
  | false => rfl
  | true => rw [shown_of_changed hc]; rfl

/-! ### From the edits to the entries -/

theorem edits_of_eq {e : Diff Line} (he : e.action = .eq) (o u : ℕ) (ds : MsgDiffT) :
    edits o u (e :: ds) = edits (o + 1) (u + 1) ds := by
  rw [edits, if_pos he, List.nil_append, Diff.inOrig, Diff.inUpdated, he]
  rfl

theorem edits_of_ne {e : Diff Line} (he : e.action ≠ .eq) (o u : ℕ) (ds : MsgDiffT) :
    edits o u (e :: ds) = diffLineFormat e.val e.action o u ::
      edits (o + e.inOrig.toNat) (u + e.inUpdated.toNat) ds := by
  rw [edits, if_neg he, List.singleton_append]

/-- The numbers in later lines are at least the counters. -/
theorem edits_numbers {o u : ℕ} {ds : MsgDiffT} {l : Line} (h : l ∈ edits o u ds) :
    ∃ v a o' u', a ≠ .eq ∧ l = diffLineFormat v a (o' : ℕ) (u' : ℕ) ∧ o ≤ o' ∧ u ≤ u' := by
  induction ds generalizing o u with
  | nil => simp [edits] at h
  | cons e ds ih =>
    by_cases he : e.action = .eq
    · rw [edits_of_eq he] at h
      obtain ⟨v, a, o', u', ha, hl, ho, hu⟩ := ih h
      exact ⟨v, a, o', u', ha, hl, by omega, by omega⟩
    · rw [edits_of_ne he] at h
      rcases List.mem_cons.1 h with rfl | h
      · exact ⟨e.val, e.action, o, u, he, rfl, le_rfl, le_rfl⟩
      · obtain ⟨v, a, o', u', ha, hl, ho, hu⟩ := ih h
        exact ⟨v, a, o', u', ha, hl, by omega, by omega⟩

/-- A match and a change never lead to the same edits: behind the match, no line has the
number of the change. -/
theorem edits_ne_of_eq {e e' : Diff Line} (he : e.action = .eq) (he' : e'.action ≠ .eq)
    (o u : ℕ) (ds es : MsgDiffT) : edits o u (e :: ds) ≠ edits o u (e' :: es) := by
  intro h
  rw [edits_of_eq he, edits_of_ne he'] at h
  have hmem : diffLineFormat e'.val e'.action o u ∈ edits (o + 1) (u + 1) ds :=
    h ▸ List.mem_cons_self
  obtain ⟨v, a, o', u', ha, hl, ho, hu⟩ := edits_numbers hmem
  obtain ⟨-, -, hadd, hdel⟩ := diffLineFormat_inj he' ha hl
  cases ha' : e'.action with
  | eq => exact he' ha'
  | add =>
    have := hadd ha'
    omega
  | del =>
    have := hdel ha'
    omega

/-- The values on one side of a difference list, as the actions in `side` are on it. -/
def sideVals (side : Action → Bool) (ds : MsgDiffT) : List Line :=
  (ds.filter fun e ↦ side e.action).map Diff.val

theorem eq_nil_of_edits {side : Action → Bool} (hside : side .eq = true) {o u : ℕ}
    {ds : MsgDiffT} (h : edits o u ds = []) (hvals : sideVals side ds = []) : ds = [] := by
  cases ds with
  | nil => rfl
  | cons e ds =>
    by_cases he : e.action = .eq
    · simp [sideVals, he, hside] at hvals
    · simp [edits_of_ne he] at h

/-- **The entries are recovered from the edits and the values of one side.** The induction
goes through both difference lists at once. -/
theorem entries_eq_of_edits {side : Action → Bool} (hside : side .eq = true) {o u : ℕ}
    {ds es : MsgDiffT} (h : edits o u ds = edits o u es)
    (hvals : sideVals side ds = sideVals side es) :
    ds.map (fun e ↦ (e.action, e.val)) = es.map (fun e ↦ (e.action, e.val)) := by
  induction ds generalizing o u es with
  | nil => rw [eq_nil_of_edits hside h.symm hvals.symm]
  | cons d ds ih =>
    cases es with
    | nil => rw [eq_nil_of_edits hside h hvals]
    | cons e es =>
      by_cases hd : d.action = .eq
      · by_cases he : e.action = .eq
        · rw [edits_of_eq hd, edits_of_eq he] at h
          simp only [sideVals, List.filter_cons, hd, he, hside, if_true, List.map_cons,
            List.cons.injEq] at hvals
          rw [List.map_cons, List.map_cons, ih h hvals.2, hd, he, hvals.1]
        · exact absurd h (edits_ne_of_eq hd he o u ds es)
      · by_cases he : e.action = .eq
        · exact absurd h.symm (edits_ne_of_eq he hd o u es ds)
        · rw [edits_of_ne hd, edits_of_ne he] at h
          obtain ⟨hline, h⟩ := List.cons.inj h
          obtain ⟨ha, hv, -⟩ := diffLineFormat_inj hd he hline
          rw [Diff.inOrig, Diff.inUpdated, Diff.inOrig, Diff.inUpdated, ha] at h
          have hvals : sideVals side ds = sideVals side es := by
            unfold sideVals at hvals
            rw [List.filter_cons, List.filter_cons, ha] at hvals
            split at hvals
            · exact (List.cons.inj hvals).2
            · exact hvals
          rw [List.map_cons, List.map_cons, ih h hvals, ha, hv]

theorem vals_eq_of_map_eq {ds es : MsgDiffT}
    (h : ds.map (fun e ↦ (e.action, e.val)) = es.map (fun e ↦ (e.action, e.val))) :
    origVals ds = origVals es ∧ updatedVals ds = updatedVals es := by
  have hvals : ∀ (side : Action → Bool) (fs : MsgDiffT),
      sideVals side fs =
        ((fs.map fun e ↦ (e.action, e.val)).filter fun e ↦ side e.1).map Prod.snd :=
    fun side fs ↦ by rw [List.filter_map, List.map_map]; rfl
  constructor
  · exact (hvals (· != .add) ds).trans (h ▸ (hvals (· != .add) es).symm)
  · exact (hvals (· != .del) ds).trans (h ▸ (hvals (· != .del) es).symm)

/-! ### From the message to the lists -/

theorem lines_of_mem {ds : MsgDiffT} {e : Diff Line} (he : e ∈ ds) :
    e.val ∈ origVals ds ∨ e.val ∈ updatedVals ds := by
  by_cases ha : e.action = .add
  · refine Or.inr (List.mem_map_of_mem (List.mem_filter.2 ⟨he, ?_⟩))
    rw [Diff.inUpdated, ha]
    rfl
  · exact Or.inl (List.mem_map_of_mem (List.mem_filter.2 ⟨he, by simpa [Diff.inOrig] using ha⟩))

theorem isBlock_shownLines {ds : MsgDiffT} (horig : ∀ l ∈ origVals ds, '\n' ∉ l)
    (hupd : ∀ l ∈ updatedVals ds, '\n' ∉ l) {l : Line} (hl : l ∈ shownLines ds ds.length) :
    IsBlock '\n' l := by
  obtain ⟨i, hi, rfl⟩ := List.mem_map.1 hl
  obtain ⟨e, he, -⟩ := exists_readAt (List.mem_range.1 (List.mem_filter.1 hi).1)
  rw [lineAt, he]
  refine isBlock_diffLineFormat ?_ _ _ _
  rcases lines_of_mem (List.mem_of_getElem? he) with h | h
  · exact horig _ h
  · exact hupd _ h

/-- The message of two lists whose batches fit one index, as do their entries: the lines shown among
entries that go through both lists. -/
theorem exists_prints_of_batches {b : ℕ} (hb : 1 ≤ b) {expect got : StringsT}
    (hbatch : min b expect.length + min b got.length ≤ 16383)
    (hN : expect.length + got.length ≤ 32767) :
    ∃ ds : MsgDiffT, origVals ds = expect ∧ updatedVals ds = got ∧
      Prints b expect got (shownLines ds ds.length).flatten := by
  obtain ⟨ds, hmove, horig, hupd, hrun⟩ := safeDiffMsgHelper_spec hb
    (Nat.lt_add_one (expect.length + got.length)) hbatch
  refine ⟨ds, horig, hupd, fun fuel hfuel ↦ ?_⟩
  have hlen : ds.length ≤ 32767 := by
    have := length_le_width_add_height (ds.map Diff.move)
    rw [width_map_move, height_map_move, List.length_map, horig, hupd] at this
    exact this.trans hN
  have hcount : toInt16 (ds.length : ℤ) = ds.length := toInt16_natCast hlen
  rw [safeDiffMsg, hrun fuel hfuel, ok_bind, List.nil_append]
  refine toString_eq (by rw [hcount]; exact Int.natCast_nonneg _) ?_
  rw [hcount, Int.toNat_natCast, List.take_length]

/-- The message of two lists that fit one index. -/
theorem exists_prints {b : ℕ} (hb : 1 ≤ b) {expect got : StringsT}
    (hN : expect.length + got.length ≤ 16383) :
    ∃ ds : MsgDiffT, origVals ds = expect ∧ updatedVals ds = got ∧
      Prints b expect got (shownLines ds ds.length).flatten :=
  exists_prints_of_batches hb (by omega) (by omega)

/-- The message and the values of one side settle both lists. -/
theorem vals_eq_of_message (side : Action → Bool) (hside : side .eq = true) {ds es : MsgDiffT}
    (hds : ∀ l ∈ shownLines ds ds.length, IsBlock '\n' l)
    (hes : ∀ l ∈ shownLines es es.length, IsBlock '\n' l)
    (h : (shownLines ds ds.length).flatten = (shownLines es es.length).flatten)
    (hvals : sideVals side ds = sideVals side es) :
    origVals ds = origVals es ∧ updatedVals ds = updatedVals es := by
  have hlines := flatten_inj hds hes h
  have hedits : edits 0 0 ds = edits 0 0 es := by
    rw [← filter_shownLines, hlines, filter_shownLines]
  exact vals_eq_of_map_eq (entries_eq_of_edits hside hedits hvals)

/-- **A message is a patch.** Applied to the same first list, equal messages stand for equal
second lists, and the other way around. -/
theorem safeDiffMsg_patch (b : ℕ) (hb : 1 ≤ b) :
    (∀ expect got₁ got₂ : StringsT,
      (∀ l ∈ expect, '\n' ∉ l) → (∀ l ∈ got₁, '\n' ∉ l) → (∀ l ∈ got₂, '\n' ∉ l) →
      expect.length + got₁.length ≤ 16383 → expect.length + got₂.length ≤ 16383 →
      ∃ msg₁ msg₂, Prints b expect got₁ msg₁ ∧ Prints b expect got₂ msg₂ ∧
        (msg₁ = msg₂ → got₁ = got₂)) ∧
    (∀ expect₁ expect₂ got : StringsT,
      (∀ l ∈ expect₁, '\n' ∉ l) → (∀ l ∈ expect₂, '\n' ∉ l) → (∀ l ∈ got, '\n' ∉ l) →
      expect₁.length + got.length ≤ 16383 → expect₂.length + got.length ≤ 16383 →
      ∃ msg₁ msg₂, Prints b expect₁ got msg₁ ∧ Prints b expect₂ got msg₂ ∧
        (msg₁ = msg₂ → expect₁ = expect₂)) := by
  constructor
  · intro expect got₁ got₂ hexpect hgot₁ hgot₂ hN₁ hN₂
    obtain ⟨ds, rfl, rfl, hds⟩ := exists_prints hb hN₁
    obtain ⟨es, horig, rfl, hes⟩ := exists_prints hb hN₂
    refine ⟨_, _, hds, hes, fun h ↦ ?_⟩
    exact (vals_eq_of_message (· != .add) rfl
      (fun _ ↦ isBlock_shownLines hexpect hgot₁)
      (fun _ ↦ isBlock_shownLines (horig ▸ hexpect) hgot₂) h horig.symm).2
  · intro expect₁ expect₂ got hexpect₁ hexpect₂ hgot hN₁ hN₂
    obtain ⟨ds, rfl, rfl, hds⟩ := exists_prints hb hN₁
    obtain ⟨es, rfl, hupd, hes⟩ := exists_prints hb hN₂
    refine ⟨_, _, hds, hes, fun h ↦ ?_⟩
    exact (vals_eq_of_message (· != .del) rfl
      (fun _ ↦ isBlock_shownLines hexpect₁ hgot)
      (fun _ ↦ isBlock_shownLines hexpect₂ (hupd ▸ hgot)) h hupd.symm).1

/-- The messages of two short lists. -/
theorem safeDiffMsg_patch_two :
    (∃ msg₁ msg₂, Prints 2 [['a']] [['a'], ['b']] msg₁ ∧ Prints 2 [['a']] [['c']] msg₂ ∧
      (msg₁ = msg₂ → [['a'], ['b']] = [['c']])) ∧
    (∃ msg₁ msg₂, Prints 2 [['a'], ['b']] [['a']] msg₁ ∧ Prints 2 [['c']] [['a']] msg₂ ∧
      (msg₁ = msg₂ → [['a'], ['b']] = [['c']])) :=
  ⟨(safeDiffMsg_patch 2 (by decide)).1 [['a']] [['a'], ['b']] [['c']] (by decide) (by decide)
      (by decide) (by decide) (by decide),
    (safeDiffMsg_patch 2 (by decide)).2 [['a'], ['b']] [['c']] [['a']] (by decide) (by decide)
      (by decide) (by decide) (by decide)⟩

end Cppkg.Differ
