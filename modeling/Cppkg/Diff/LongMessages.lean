import Cppkg.Diff.Batches
import Cppkg.Diff.Render

/-!
# Messages of long lists

For a limit that keeps every batch inside the index type, the batches of `safe_diff_msg` make
up an edit script of two lists of any length. What is narrowed afterwards is the number of
entries: the renderer only shows those up to `entryCount b expect got % 65536`, and has no
array for them from 32768 on.

The moves of the batches open with as many matches as the lists have equal lines in front
(`replicate_keep_prefix_batchPath`). So the entries up to a number `r` are all matches exactly
when the first `r` lines of both lists agree (`forall_take_eq_iff`), and the message tells two
lists apart exactly under the condition of `safeDiffMsg_tellsApart_iff`.
-/

namespace Cppkg.Differ

open EditGraph

/-- The moves of all batches of two lists. -/
noncomputable def batchedScript (b : ℕ) (expect got : StringsT) : List Move :=
  batchPath b (expect.length + got.length + 1) expect got

/-- The number of moves of all batches of two lists. -/
noncomputable def entryCount (b : ℕ) (expect got : StringsT) : ℕ :=
  (batchedScript b expect got).length

/-! ### The opening run -/

theorem compares_of_take_eq {expect got : StringsT} {r : ℕ} (h : expect.take r = got.take r)
    (hr : r ≤ expect.length) {i : ℕ} (hi : i < r) : Compares lineEq expect got i i := by
  have hget : expect[i]? = got[i]? := by
    rw [← List.getElem?_take_of_lt hi, h, List.getElem?_take_of_lt hi]
  obtain ⟨a, ha, -⟩ := exists_readAt (show i < expect.length by omega)
  exact ⟨a, a, ha, hget ▸ ha, beq_self_eq_true a⟩

theorem replicate_keep_prefix_scriptOf {expect got : StringsT} {r : ℕ}
    (h : expect.take r = got.take r) (hr : r ≤ expect.length) :
    List.replicate r .keep <+: scriptOf expect got :=
  replicate_keep_prefix_shortestPath (confined_compares lineEq expect got)
    fun _ hi ↦ compares_of_take_eq h hr hi

theorem replicate_keep_prefix_uptoLastKeep {p : List Move} {l : ℕ}
    (h : List.replicate l .keep <+: p) : List.replicate l .keep <+: uptoLastKeep p := by
  induction l generalizing p with
  | zero => exact List.nil_prefix
  | succ l ih =>
    obtain ⟨q, rfl⟩ := h
    rw [List.replicate_succ, List.cons_append, uptoLastKeep_cons (Or.inl rfl)]
    exact List.cons_prefix_cons.2 ⟨rfl, ih (List.prefix_append _ _)⟩

theorem replicate_keep_prefix_batchMoves {p : List Move} {l : ℕ}
    (h : List.replicate l .keep <+: p) : List.replicate l .keep <+: batchMoves p := by
  rw [batchMoves]
  split
  · exact replicate_keep_prefix_uptoLastKeep h
  · exact h

/-- A path that is no wider than its opening run and no higher is that run. -/
theorem eq_replicate_keep_of_le {p : List Move} {l : ℕ} (h : List.replicate l .keep <+: p)
    (hw : width p ≤ l) (hh : height p ≤ l) : p = List.replicate l .keep := by
  obtain ⟨q, rfl⟩ := h
  have hlen := length_le_width_add_height q
  rw [width_append, width_replicate_keep] at hw
  rw [height_append, height_replicate_keep] at hh
  have hq : q = [] := List.length_eq_zero_iff.1 (by omega)
  rw [hq, List.append_nil]

/-- The moves of the batches open with a match for every equal line in front. The induction
is on the batches: a batch inside the equal lines is a run of matches itself. -/
theorem replicate_keep_prefix_batchPath {b t r : ℕ} (hb : 1 ≤ b) {expect got : StringsT}
    (ht : expect.length + got.length < t) (h : expect.take r = got.take r)
    (hexpect : r ≤ expect.length) (hgot : r ≤ got.length) :
    List.replicate r .keep <+: batchPath b t expect got := by
  induction t generalizing r expect got with
  | zero => exact absurd ht (Nat.not_lt_zero _)
  | succ t ih =>
    rw [batchPath]
    split
    · exact replicate_keep_prefix_scriptOf h hexpect
    · have hbatch : List.replicate (min r b) .keep <+: batchScript b expect got := by
        refine replicate_keep_prefix_batchMoves (replicate_keep_prefix_scriptOf ?_ ?_)
        · rw [List.take_take, List.take_take, min_eq_left (min_le_right r b), min_comm,
            ← List.take_take, h, List.take_take]
        · rw [List.length_take]
          omega
      rcases le_or_gt r b with hrb | hrb
      · rw [min_eq_left hrb] at hbatch
        exact hbatch.trans (List.prefix_append _ _)
      · -- the batch ends inside the equal lines, and the next one starts there
        rw [min_eq_right hrb.le] at hbatch
        obtain ⟨hw, hh⟩ := batchScript_le b expect got
        rw [eq_replicate_keep_of_le hbatch hw hh, width_replicate_keep,
          height_replicate_keep, ← Nat.add_sub_cancel' hrb.le, List.replicate_add]
        refine (List.prefix_append_right_inj _).2 (ih ?_ ?_ ?_ ?_)
        · rw [List.length_drop, List.length_drop]
          omega
        · rw [← List.drop_take, ← List.drop_take, h]
        · rw [List.length_drop]
          omega
        · rw [List.length_drop]
          omega

/-! ### The entries up to a number -/

theorem vals_of_forall_eq {α : Type} {ds : List (Diff α)} (h : ∀ e ∈ ds, e.action = .eq) :
    origVals ds = ds.map Diff.val ∧ updatedVals ds = ds.map Diff.val := by
  constructor
  · rw [origVals, List.filter_eq_self.2 fun e he ↦ by rw [Diff.inOrig, h e he]; rfl]
  · rw [updatedVals, List.filter_eq_self.2 fun e he ↦ by rw [Diff.inUpdated, h e he]; rfl]

theorem width_map_move {α : Type} (ds : List (Diff α)) :
    width (ds.map Diff.move) = (origVals ds).length := by
  rw [origVals, List.length_map, ← List.countP_eq_length_filter, width, List.countP_map]
  refine List.countP_congr fun e _ ↦ ?_
  obtain ⟨_, _, _, action⟩ := e
  cases action <;> simp [Diff.move, Diff.inOrig]

theorem height_map_move {α : Type} (ds : List (Diff α)) :
    height (ds.map Diff.move) = (updatedVals ds).length := by
  rw [updatedVals, List.length_map, ← List.countP_eq_length_filter, height, List.countP_map]
  refine List.countP_congr fun e _ ↦ ?_
  obtain ⟨_, _, _, action⟩ := e
  cases action <;> simp [Diff.move, Diff.inUpdated]

/-- Equal lists are matched throughout. -/
theorem batchedScript_self {b : ℕ} (hb : 1 ≤ b) {expect : StringsT} {ds : MsgDiffT}
    (hmove : ds.map Diff.move = batchedScript b expect expect) (horig : origVals ds = expect)
    (hupd : updatedVals ds = expect) :
    batchedScript b expect expect = List.replicate expect.length .keep := by
  refine eq_replicate_keep_of_le (replicate_keep_prefix_batchPath hb (Nat.lt_succ_self _) rfl
    le_rfl le_rfl) ?_ ?_
  · rw [← hmove, width_map_move, horig]
  · rw [← hmove, height_map_move, hupd]

/-- The entries up to `r` are matches exactly when the first `r` lines agree. -/
theorem forall_take_eq_iff {b r : ℕ} (hb : 1 ≤ b) {expect got : StringsT} {ds : MsgDiffT}
    (hmove : ds.map Diff.move = batchedScript b expect got) (horig : origVals ds = expect)
    (hupd : updatedVals ds = got) (hr : r ≤ ds.length) :
    (∀ e ∈ ds.take r, e.action = .eq) ↔ expect.take r = got.take r := by
  constructor
  · intro h
    obtain ⟨ho, hu⟩ := vals_of_forall_eq h
    have hlen : ((ds.take r).map Diff.val).length = r := by
      rw [List.length_map, List.length_take, min_eq_left hr]
    rw [← horig, ← hupd, ← List.take_append_drop r ds, origVals_append, updatedVals_append, ho,
      hu, List.take_left' hlen, List.take_left' hlen]
  · intro h
    have hprefix : List.replicate r .keep <+: batchedScript b expect got := by
      by_cases hle : r ≤ expect.length ∧ r ≤ got.length
      · exact replicate_keep_prefix_batchPath hb (Nat.lt_succ_self _) h hle.1 hle.2
      · -- one list is a prefix of length less than `r`, so the lists are equal
        have hlen := congrArg List.length h
        rw [List.length_take, List.length_take] at hlen
        rw [List.take_of_length_le (by omega), List.take_of_length_le (by omega)] at h
        subst h
        rw [← List.length_map Diff.move, hmove, batchedScript_self hb hmove horig hupd,
          List.length_replicate] at hr
        omega
    have htake : (ds.take r).map Diff.move = List.replicate r .keep := by
      have hr' := List.prefix_iff_eq_take.1 hprefix
      rw [List.length_replicate] at hr'
      rw [List.map_take, hmove, ← hr']
    intro e he
    have hmem : e.move ∈ (ds.take r).map Diff.move := List.mem_map_of_mem he
    rw [htake] at hmem
    exact Diff.move_eq_keep.1 (List.eq_of_mem_replicate hmem)

/-! ### The message -/

/-- `safe_diff_msg` returns `msg`. -/
def Prints (b : ℕ) (expect got : StringsT) (msg : Line) : Prop :=
  ∀ fuel, expect.length + got.length + 3 ≤ fuel → safeDiffMsg expect got b fuel = .ok msg

/-- What a caller expects of `safe_diff_msg`: it returns, and with an empty message exactly
when the lists are equal. -/
def TellsApart (b : ℕ) (expect got : StringsT) : Prop :=
  ∃ msg, Prints b expect got msg ∧ (msg = [] ↔ expect = got)

/-- The message in terms of the narrowed number of entries. -/
theorem safeDiffMsg_spec {b : ℕ} (hb : 1 ≤ b) (expect got : StringsT)
    (hN : min b expect.length + min b got.length ≤ 16383) :
    (0 ≤ toInt16 (entryCount b expect got) →
      ∃ msg, Prints b expect got msg ∧
        (msg = [] ↔ expect.take (toInt16 (entryCount b expect got)).toNat =
          got.take (toInt16 (entryCount b expect got)).toNat)) ∧
    (toInt16 (entryCount b expect got) < 0 → ∀ fuel, expect.length + got.length + 3 ≤ fuel →
      safeDiffMsg expect got b fuel = .error .negativeBound) := by
  obtain ⟨ds, hmove, horig, hupd, hrun⟩ := safeDiffMsgHelper_spec hb (Nat.lt_succ_self _) hN
  have hlen : ds.length = entryCount b expect got := by
    rw [entryCount, batchedScript, ← hmove, List.length_map]
  have hmsg : ∀ fuel, expect.length + got.length + 3 ≤ fuel →
      safeDiffMsg expect got b fuel = MsgDiffT.toString ds := fun fuel hfuel ↦ by
    rw [safeDiffMsg, hrun fuel hfuel, ok_bind, List.nil_append]
  rw [← hlen]
  refine ⟨fun h ↦ ⟨_, fun fuel hfuel ↦ (hmsg fuel hfuel).trans (toString_eq h rfl), ?_⟩,
    fun h fuel hfuel ↦ (hmsg fuel hfuel).trans (toString_of_neg h)⟩
  rw [shownLines_flatten_eq_nil, forall_take_eq_iff hb hmove horig hupd (toInt16_le_self h)]

/-- **When long lists are told apart.** The narrowed number of entries must not be negative,
and lists that differ must do so in a line before it. -/
theorem safeDiffMsg_tellsApart_iff (b : ℕ) (expect got : StringsT) (hb : 1 ≤ b)
    (hlimit : b ≤ 8191) :
    TellsApart b expect got ↔
      entryCount b expect got % 65536 < 32768 ∧
        (expect.take (entryCount b expect got % 65536) =
          got.take (entryCount b expect got % 65536) → expect = got) := by
  obtain ⟨hspec, hneg⟩ := safeDiffMsg_spec hb expect got (by omega)
  rcases lt_or_ge (entryCount b expect got % 65536) 32768 with hr | hr
  · rw [toInt16_natCast_of_mod_lt hr, Int.toNat_natCast] at hspec
    obtain ⟨msg, hrun, hmsg⟩ := hspec (Int.natCast_nonneg _)
    constructor
    · rintro ⟨msg', hrun', hmsg'⟩
      cases (hrun _ le_rfl).symm.trans (hrun' _ le_rfl)
      exact ⟨hr, fun h ↦ hmsg'.1 (hmsg.2 h)⟩
    · rintro ⟨-, h⟩
      exact ⟨msg, hrun, fun he ↦ h (hmsg.1 he), fun he ↦ hmsg.2 (he ▸ rfl)⟩
  · -- a negative number of entries: the array of marks is not defined
    refine ⟨fun ⟨msg, hrun, _⟩ ↦ ?_, fun h ↦ absurd hr (not_le.2 h.1)⟩
    cases (hneg (toInt16_natCast_neg hr) _ le_rfl).symm.trans (hrun _ le_rfl)

/-- Two lines against the same two lines with one in between are told apart. -/
theorem safeDiffMsg_tellsApart_iff_three :
    TellsApart 2 [['a'], ['b']] [['a'], ['c'], ['b']] ↔
      entryCount 2 [['a'], ['b']] [['a'], ['c'], ['b']] % 65536 < 32768 ∧
        ([['a'], ['b']].take (entryCount 2 [['a'], ['b']] [['a'], ['c'], ['b']] % 65536) =
          [['a'], ['c'], ['b']].take
            (entryCount 2 [['a'], ['b']] [['a'], ['c'], ['b']] % 65536) →
          [['a'], ['b']] = [['a'], ['c'], ['b']]) :=
  safeDiffMsg_tellsApart_iff 2 [['a'], ['b']] [['a'], ['c'], ['b']] (by decide) (by decide)

/-- Against no line at all, every line is an entry of its own. -/
theorem entryCount_nil {b : ℕ} (hb : 1 ≤ b) (hlimit : b ≤ 16383) (expect : StringsT) :
    entryCount b expect [] = expect.length := by
  obtain ⟨ds, hmove, horig, hupd, -⟩ := safeDiffMsgHelper_spec hb
    (Nat.lt_add_one (expect.length + ([] : StringsT).length))
    (by rw [List.length_nil]; omega)
  rw [← batchedScript] at hmove
  have hw := width_map_move ds
  have hh := height_map_move ds
  rw [hmove, horig] at hw
  rw [hmove, hupd] at hh
  have hle := length_le_width_add_height (batchedScript b expect [])
  have hge : width (batchedScript b expect []) ≤ (batchedScript b expect []).length :=
    List.countP_le_length
  rw [hw, hh] at hle
  rw [hw] at hge
  exact le_antisymm hle hge

/-- As many lines as the count wraps around at are reported equal to no line at all. -/
theorem not_tellsApart_replicate :
    ¬TellsApart 8191 (List.replicate 65536 ['x']) [] := by
  have hcount := entryCount_nil (b := 8191) (by decide) (by decide) (List.replicate 65536 ['x'])
  rw [List.length_replicate] at hcount
  have hspec := (safeDiffMsg_spec (b := 8191) (by decide) (List.replicate 65536 ['x']) []
    (by rw [List.length_nil]; omega)).1
  have hzero : toInt16 ((65536 : ℕ) : ℤ) = 0 := rfl
  rw [hcount, hzero] at hspec
  obtain ⟨msg, hrun, hmsg⟩ := hspec le_rfl
  rintro ⟨msg', hrun', hmsg'⟩
  cases (hrun _ le_rfl).symm.trans (hrun' _ le_rfl)
  have heq := (List.replicate_eq_nil_iff _).1 (hmsg'.1 (hmsg.2 rfl))
  exact absurd heq (by decide)

end Cppkg.Differ
