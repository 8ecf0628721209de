import Mathlib.Data.List.Forall2
import Mathlib.Data.List.Infix

/-!
# Searching and replacing patterns in a text

A pattern is a list of letters and dots; a dot is matched by any letter but `nl`, the one that ends
a line. `sub` replaces the matches in a text, from the left and without overlaps, and `findAll`
collects what stands between two words where everything that follows the first is searched for the
second, as far as the line goes and from its end (a greedy `.*`).

Both go through the text letter by letter, with the number of letters that belong to the last match
and are still to be passed over. Neither sees across the end of a line: a text can be taken line by
line (`sub_append_nl`, `findAll_append_nl`).
-/

namespace WordPattern

variable {α : Type*}

/-- A place in a pattern. -/
inductive Atom (α : Type*)
  | lit (a : α)
  | dot
  deriving DecidableEq

section Matching

variable (nl : α)

/-- A letter is matched by itself, a dot by every letter but `nl`. -/
def Accepts : Atom α → α → Prop
  | .lit a, x => x = a
  | .dot, x => x ≠ nl

/-- A pattern is matched by words of its length. -/
abbrev Matches (p : List (Atom α)) (w : List α) : Prop := List.Forall₂ (Accepts nl) p w

/-- The text starts with a match. -/
def StartsWith (p : List (Atom α)) (t : List α) : Prop := Matches nl p (t.take p.length)

variable [DecidableEq α]

instance : ∀ a x, Decidable (Accepts nl a x)
  | .lit a, x => inferInstanceAs (Decidable (x = a))
  | .dot, x => inferInstanceAs (Decidable (x ≠ nl))

instance (p : List (Atom α)) (t : List α) : Decidable (StartsWith nl p t) :=
  inferInstanceAs (Decidable (List.Forall₂ _ _ _))

/-- `sub` where letters of the last match are still to be passed over. -/
def subFrom (p : List (Atom α)) (r : List α) : ℕ → List α → List α
  | _, [] => []
  | k + 1, _ :: t => subFrom p r k t
  | 0, x :: t =>
    if StartsWith nl p (x :: t) then r ++ subFrom p r (p.length - 1) t
    else x :: subFrom p r 0 t

/-- Every match of `p` replaced by `r`. -/
def sub (p : List (Atom α)) (r t : List α) : List α := subFrom nl p r 0 t

/-- The longest run of letters other than `nl` that `after` follows. -/
def greedy (after : List α) : List α → Option (List α)
  | [] => if after = [] then some [] else none
  | x :: t =>
    match if x = nl then none else greedy after t with
    | some g => some (x :: g)
    | none => if after <+: x :: t then some [] else none

/-- What is between `before`, at the beginning of the text, and `after`. -/
def capture (before after t : List α) : Option (List α) :=
  if before <+: t then greedy nl after (t.drop before.length) else none

/-- `findAll` where letters of the last match are still to be passed over. -/
def findAllFrom (before after : List α) : ℕ → List α → List (List α)
  | _, [] => []
  | k + 1, _ :: t => findAllFrom before after k t
  | 0, x :: t =>
    match capture nl before after (x :: t) with
    | some g => g :: findAllFrom before after (before.length + g.length + after.length - 1) t
    | none => findAllFrom before after 0 t

/-- Everything that is found between `before` and `after`. -/
def findAll (before after t : List α) : List (List α) := findAllFrom nl before after 0 t

end Matching

variable {nl : α} {p : List (Atom α)} {e r t u w : List α}

/-! ### Matches -/

theorem matches_map_lit : Matches nl (w.map .lit) u ↔ u = w := by
  rw [Matches, List.forall₂_map_left_iff, ← List.forall₂_eq_eq_eq]
  exact ⟨List.Forall₂.flip, List.Forall₂.flip⟩

theorem notMem_of_matches (hp : .lit nl ∉ p) (h : Matches nl p w) : nl ∉ w := by
  induction h with
  | nil => exact List.not_mem_nil
  | @cons a x p w hax _ ih =>
    rw [List.mem_cons, not_or] at hp ⊢
    refine ⟨fun hx ↦ ?_, ih hp.2⟩
    cases a with
    | lit a => exact hp.1 (congrArg Atom.lit (hx.trans hax))
    | dot => exact hax hx.symm

theorem startsWith_iff : StartsWith nl p t ↔ ∃ w u, t = w ++ u ∧ Matches nl p w := by
  constructor
  · intro h
    exact ⟨_, _, (List.take_append_drop p.length t).symm, h⟩
  · rintro ⟨w, u, rfl, h⟩
    rw [StartsWith, h.length_eq, List.take_left]
    exact h

theorem startsWith_append (h : Matches nl p w) : StartsWith nl p (w ++ u) :=
  startsWith_iff.2 ⟨w, u, rfl, h⟩

/-- What matches a pattern in two parts. -/
theorem matches_append {p' : List (Atom α)} :
    Matches nl (p ++ p') w ↔ ∃ u v, w = u ++ v ∧ Matches nl p u ∧ Matches nl p' v := by
  constructor
  · intro h
    refine ⟨w.take p.length, w.drop p.length, (List.take_append_drop _ _).symm, ?_, ?_⟩
    · simpa using List.forall₂_take p.length h
    · simpa using List.forall₂_drop p.length h
  · rintro ⟨u, v, rfl, h, h'⟩
    exact List.rel_append h h'

/-- A match does not go on behind the end of the line. -/
theorem startsWith_append_nl (hp : .lit nl ∉ p) :
    StartsWith nl p (t ++ nl :: u) ↔ StartsWith nl p t := by
  constructor
  · intro h
    have hle : p.length ≤ t.length := by
      by_contra hlt
      refine notMem_of_matches hp h ?_
      rw [List.take_append, List.take_of_length_le (by omega)]
      obtain ⟨k, hk⟩ := Nat.exists_eq_add_of_lt (Nat.lt_of_not_le hlt)
      simp [hk, Nat.add_assoc]
    rwa [StartsWith, List.take_append_of_le_length hle] at h
  · intro h
    obtain ⟨w, v, rfl, hw⟩ := startsWith_iff.1 h
    rw [List.append_assoc]
    exact startsWith_append hw

/-- A word that repeats its first letter nowhere cannot begin shortly before another of its kind. -/
theorem prefix_of_prefix_append {a : α} (ha : a ∉ w) (ht : t ≠ [])
    (h : a :: w <+: t ++ a :: u) : a :: w <+: t := by
  rcases List.prefix_or_prefix_of_prefix h (List.prefix_append t (a :: u)) with h' | ⟨v, hv⟩
  · exact h'
  · rw [← hv, List.prefix_append_right_inj] at h
    obtain ⟨x, t, rfl⟩ := List.exists_cons_of_ne_nil ht
    rw [List.cons_append, List.cons.injEq] at hv
    cases v with
    | nil => exact ⟨[], by rw [List.append_nil, hv.1, ← hv.2, List.append_nil]⟩
    | cons y v =>
      obtain ⟨rfl, -⟩ := List.cons_prefix_cons.1 h
      exact absurd (hv.2 ▸ List.mem_append_right _ List.mem_cons_self) ha

/-- A line that is shorter than what is to be found at its end. -/
theorem not_prefix_line (he : nl ∉ e) (hlt : t.length < e.length) :
    ¬ e ++ [nl] <+: t ++ nl :: u := by
  intro h
  have hline : t ++ [nl] <+: t ++ nl :: u := (List.prefix_append_right_inj t).2 ⟨u, rfl⟩
  have hpre : t ++ [nl] <+: e :=
    List.prefix_of_prefix_length_le hline ((List.prefix_append e [nl]).trans h)
      (by rwa [List.length_append, List.length_singleton])
  exact he (hpre.subset (by simp))

/-- Nor does a word. -/
theorem prefix_line (hw : nl ∉ w) (h : w <+: t ++ nl :: u) : w <+: t := by
  rcases List.prefix_or_prefix_of_prefix h (List.prefix_append t (nl :: u)) with h' | ⟨v, rfl⟩
  · exact h'
  · rw [List.prefix_append_right_inj] at h
    cases v with
    | nil => simp
    | cons y v =>
      obtain ⟨rfl, -⟩ := List.cons_prefix_cons.1 h
      exact absurd (List.mem_append_right t List.mem_cons_self) hw

/-! ### Replacing -/

section Replacing

variable [DecidableEq α]

theorem subFrom_eq (k : ℕ) : subFrom nl p r k t = sub nl p r (t.drop k) := by
  induction k generalizing t with
  | zero => rfl
  | succ k ih =>
    cases t with
    | nil => rfl
    | cons x t => exact ih

theorem sub_cons_of_not {x : α} (h : ¬ StartsWith nl p (x :: t)) :
    sub nl p r (x :: t) = x :: sub nl p r t := if_neg h

theorem sub_append_of_matches (hw : w ≠ []) (h : Matches nl p w) :
    sub nl p r (w ++ u) = r ++ sub nl p r u := by
  obtain ⟨x, w, rfl⟩ := List.exists_cons_of_ne_nil hw
  have hstart : StartsWith nl p (x :: (w ++ u)) := startsWith_append h
  rw [List.cons_append, sub, subFrom, if_pos hstart, subFrom_eq, h.length_eq, List.length_cons,
    Nat.add_sub_cancel, List.drop_left]

theorem sub_nil : sub nl p r [] = [] := rfl

theorem sub_of_matches (hw : w ≠ []) (h : Matches nl p w) : sub nl p r w = r := by
  have := sub_append_of_matches (r := r) (u := []) hw h
  rwa [List.append_nil, sub_nil, List.append_nil] at this

/-- Where no match begins nothing changes. -/
theorem sub_append_of_forall_not
    (h : ∀ s, s ≠ [] → s <:+ t → ¬ StartsWith nl p (s ++ u)) :
    sub nl p r (t ++ u) = t ++ sub nl p r u := by
  induction t with
  | nil => rfl
  | cons x t ih =>
    have hx : ¬ StartsWith nl p (x :: (t ++ u)) := h _ (List.cons_ne_nil x t) List.suffix_rfl
    rw [List.cons_append, sub_cons_of_not hx,
      ih fun s hs hst ↦ h s hs (hst.trans (List.suffix_cons x t)), List.cons_append]

theorem sub_eq_self (h : ∀ s, s ≠ [] → s <:+ t → ¬ StartsWith nl p s) : sub nl p r t = t := by
  have := sub_append_of_forall_not (r := r) (u := []) fun s hs hst ↦ by
    rw [List.append_nil]
    exact h s hs hst
  rwa [List.append_nil, sub_nil, List.append_nil] at this

/-- **Line by line.** The induction is on the line, for all numbers of letters to be passed over. -/
theorem sub_append_nl (hp : .lit nl ∉ p) (hne : p ≠ []) (ht : nl ∉ t) :
    sub nl p r (t ++ nl :: u) = sub nl p r t ++ nl :: sub nl p r u := by
  suffices h : ∀ k ≤ t.length,
      subFrom nl p r k (t ++ nl :: u) = subFrom nl p r k t ++ nl :: sub nl p r u from
    h 0 (Nat.zero_le _)
  induction t with
  | nil =>
    intro k hk
    obtain rfl := Nat.le_zero.1 hk
    refine sub_cons_of_not fun h ↦ ?_
    have hnil : StartsWith nl p [] := (startsWith_append_nl (t := []) hp).1 h
    rw [StartsWith, List.take_nil, Matches, List.forall₂_nil_right_iff] at hnil
    exact hne hnil
  | cons x t ih =>
    intro k hk
    have ih := ih fun h ↦ ht (List.mem_cons_of_mem x h)
    cases k with
    | succ k => exact ih k (Nat.le_of_succ_le_succ hk)
    | zero =>
      rw [List.cons_append, subFrom, subFrom]
      have hiff : StartsWith nl p (x :: (t ++ nl :: u)) ↔ StartsWith nl p (x :: t) :=
        startsWith_append_nl (t := x :: t) hp
      by_cases h : StartsWith nl p (x :: t)
      · have hlen : p.length ≤ t.length + 1 := by
          have := List.Forall₂.length_eq h
          rw [List.length_take, List.length_cons] at this
          omega
        rw [if_pos (hiff.2 h), if_pos h, ih _ (by omega), List.append_assoc]
      · rw [if_neg (mt hiff.1 h), if_neg h, ih 0 (Nat.zero_le _), List.cons_append]

end Replacing

/-! ### Finding -/

section Finding

variable [DecidableEq α] {before after : List α}

theorem findAllFrom_eq (k : ℕ) :
    findAllFrom nl before after k t = findAll nl before after (t.drop k) := by
  induction k generalizing t with
  | zero => rfl
  | succ k ih =>
    cases t with
    | nil => rfl
    | cons x t => exact ih

/-- Where the first word does not begin nothing is found. -/
theorem findAll_append_of_forall_not (h : ∀ s, s ≠ [] → s <:+ t → ¬ before <+: s ++ u) :
    findAll nl before after (t ++ u) = findAll nl before after u := by
  induction t with
  | nil => rfl
  | cons x t ih =>
    have hnone : capture nl before after (x :: (t ++ u)) = none :=
      if_neg (h _ (List.cons_ne_nil x t) List.suffix_rfl)
    rw [List.cons_append, findAll, findAllFrom, hnone]
    exact ih fun s hs hst ↦ h s hs (hst.trans (List.suffix_cons x t))

/-- **A line in which nothing is found.** -/
theorem findAll_append_nl (hb : nl ∉ before) (h : ¬ before <:+: t) :
    findAll nl before after (t ++ nl :: u) = findAll nl before after u := by
  have hnot : ∀ s, s <:+ t → ¬ before <+: s ++ nl :: u := fun s hs hpre ↦
    h ((prefix_line hb hpre).isInfix.trans hs.isInfix)
  rw [findAll_append_of_forall_not fun s _ hs ↦ hnot s hs]
  exact findAll_append_of_forall_not (t := [nl]) fun s hs hst ↦ by
    rcases List.suffix_cons_iff.1 hst with rfl | hst
    · exact hnot [] t.nil_suffix
    · exact absurd (List.suffix_nil.1 hst) hs

theorem findAll_eq_nil (h : ¬ before <:+: t) : findAll nl before after t = [] := by
  have hnot : ∀ s, s ≠ [] → s <:+ t → ¬ before <+: s ++ [] := fun s _ hs hpre ↦
    h ((List.append_nil s ▸ hpre : before <+: s).isInfix.trans hs.isInfix)
  rw [← List.append_nil t, findAll_append_of_forall_not hnot]
  rfl

theorem greedy_eq_none (he : nl ∉ e) (ht : nl ∉ t) (hlt : t.length < e.length) :
    greedy nl (e ++ [nl]) (t ++ nl :: u) = none := by
  have hend := not_prefix_line (u := u) he hlt
  induction t with
  | nil =>
    rw [List.nil_append] at hend ⊢
    rw [greedy, if_pos rfl]
    exact if_neg hend
  | cons x t ih =>
    rw [List.mem_cons, not_or] at ht
    have hlt' : t.length < e.length := Nat.lt_of_succ_lt hlt
    rw [List.cons_append, greedy, if_neg (Ne.symm ht.1), ih ht.2 hlt' (not_prefix_line he hlt')]
    exact if_neg hend

/-- What is in front of the end of the line. -/
theorem greedy_line (he : nl ∉ e) (hw : nl ∉ w) :
    greedy nl (e ++ [nl]) (w ++ (e ++ nl :: u)) = some w := by
  induction w with
  | nil =>
    have hend : e ++ [nl] <+: e ++ nl :: u := (List.prefix_append_right_inj e).2 ⟨u, rfl⟩
    rw [List.nil_append]
    cases e with
    | nil =>
      rw [List.nil_append, List.nil_append] at hend ⊢
      rw [greedy, if_pos rfl]
      exact if_pos hend
    | cons x e =>
      rw [List.mem_cons, not_or] at he
      have hnone := greedy_eq_none (u := u) (e := x :: e) (t := e) (by simp [he]) he.2 (by simp)
      rw [List.cons_append] at hend hnone ⊢
      rw [List.cons_append, greedy, if_neg (Ne.symm he.1), hnone]
      exact if_pos hend
  | cons x w ih =>
    rw [List.mem_cons, not_or] at hw
    rw [List.cons_append, greedy, if_neg (Ne.symm hw.1), ih hw.2]

/-- **A line in which something is found.** -/
theorem findAll_append_line (he : nl ∉ e) (hw : nl ∉ w) (hbefore : before ≠ []) :
    findAll nl before (e ++ [nl]) (before ++ (w ++ (e ++ nl :: u))) =
      w :: findAll nl before (e ++ [nl]) u := by
  have hcap : capture nl before (e ++ [nl]) (before ++ (w ++ (e ++ nl :: u))) = some w := by
    rw [capture, if_pos (List.prefix_append _ _), List.drop_left, greedy_line he hw]
  obtain ⟨x, before, rfl⟩ := List.exists_cons_of_ne_nil hbefore
  rw [List.cons_append] at hcap ⊢
  rw [findAll, findAllFrom, hcap]
  show w :: findAllFrom _ _ _ _ _ = _
  have hsplit : before ++ (w ++ (e ++ nl :: u)) = (before ++ (w ++ (e ++ [nl]))) ++ u := by simp
  rw [findAllFrom_eq, hsplit, List.drop_left' (by simp; omega)]

end Finding

end WordPattern
