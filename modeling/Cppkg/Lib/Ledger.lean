import Mathlib.Data.List.Nodup
import Mathlib.Logic.Function.Basic

/-!
# Tokens with owners

A ledger records which handle holds which token, and what became of the tokens that no handle
holds any more: they were spent, or dropped. It is `Accounted` when every token issued is in
exactly one of these places, once. Each of the operations keeps a ledger accounted: issuing a new
token, moving one from a handle to an empty one, and spending or dropping the one a handle holds.

In an accounted ledger that has dropped nothing, a token is held by exactly one handle and not
spent, or held by none and spent exactly once (`Accounted.once`). When all handles are empty,
every token was spent exactly once if and only if nothing was dropped
(`Accounted.spent_iff_dropped_eq_nil`).
-/

open Function

variable {H T : Type*}

/-- Which handle holds which token, and which tokens are gone. -/
structure Ledger (H T : Type*) where
  hold : H → Option T
  issued : List T
  spent : List T
  dropped : List T

namespace Ledger

/-- No handle holds the token. -/
def Loose (l : Ledger H T) (t : T) : Prop := ∀ h, l.hold h ≠ some t

/-- Every token issued is held by one handle, was spent once, or was dropped once. -/
structure Accounted (l : Ledger H T) : Prop where
  hold_inj : ∀ {h h' t}, l.hold h = some t → l.hold h' = some t → h = h'
  nodup : (l.spent ++ l.dropped).Nodup
  loose : ∀ t ∈ l.spent ++ l.dropped, l.Loose t
  issued_iff : ∀ t, t ∈ l.issued ↔ (∃ h, l.hold h = some t) ∨ t ∈ l.spent ++ l.dropped

/-- A ledger with no tokens. -/
def empty : Ledger H T where
  hold _ := none
  issued := []
  spent := []
  dropped := []

theorem Accounted.empty : (empty : Ledger H T).Accounted := by
  constructor <;> simp [Ledger.empty]

variable {l : Ledger H T} {h h' : H} {t u : T}

/-! ### The operations -/

section Operations

variable [DecidableEq H]

/-- A new token, for a handle. -/
def issue (l : Ledger H T) (h : H) (t : T) : Ledger H T :=
  { l with hold := update l.hold h (some t), issued := l.issued ++ [t] }

/-- What a handle holds goes to another handle. -/
def transfer (l : Ledger H T) (h h' : H) : Ledger H T :=
  { l with hold := update (update l.hold h' (l.hold h)) h none }

/-- What a handle holds is spent. -/
def spend (l : Ledger H T) (h : H) : Ledger H T :=
  { l with hold := update l.hold h none, spent := l.spent ++ (l.hold h).toList }

/-- What a handle holds is dropped. -/
def drop (l : Ledger H T) (h : H) : Ledger H T :=
  { l with hold := update l.hold h none, dropped := l.dropped ++ (l.hold h).toList }

/-- The tokens of objects, when one of the objects changes. -/
theorem bind_update {β : Type*} (g : H → Option β) (f : β → Option T) (h : H) (b : Option β) :
    (fun k ↦ (update g h b k).bind f) = update (fun k ↦ (g k).bind f) h (b.bind f) := by
  funext k
  by_cases hk : k = h
  · subst hk
    simp
  · simp [hk]

theorem hold_update_none {f : H → Option T} :
    update f h none h' = some t ↔ h' ≠ h ∧ f h' = some t := by
  by_cases hh : h' = h
  · subst hh
    simp
  · simp [hh]

theorem hold_update_some {f : H → Option T} :
    update f h (some t) h' = some u ↔ h' = h ∧ t = u ∨ h' ≠ h ∧ f h' = some u := by
  by_cases hh : h' = h
  · subst hh
    simp
  · simp [hh]

theorem hold_transfer {k : H} (hne : h ≠ h') : (l.transfer h h').hold k = some u ↔
    k = h' ∧ l.hold h = some u ∨ k ≠ h ∧ k ≠ h' ∧ l.hold k = some u := by
  refine hold_update_none.trans ?_
  by_cases hk : k = h'
  · subst hk
    simp [hne.symm]
  · simp [hk]

theorem Accounted.issue (hl : l.Accounted) (hh : l.hold h = none) (ht : t ∉ l.issued) :
    (l.issue h t).Accounted := by
  have hgone : t ∉ l.spent ++ l.dropped := fun hg ↦ ht ((hl.issued_iff t).2 (.inr hg))
  have hfree : l.Loose t := fun h' hh' ↦ ht ((hl.issued_iff t).2 (.inl ⟨h', hh'⟩))
  constructor
  · intro h₁ h₂ u h₁u h₂u
    simp only [Ledger.issue, hold_update_some] at h₁u h₂u
    rcases h₁u with ⟨rfl, rfl⟩ | ⟨-, h₁u⟩ <;> rcases h₂u with ⟨rfl, htu⟩ | ⟨-, h₂u⟩
    · rfl
    · exact absurd h₂u (hfree h₂)
    · exact absurd (htu ▸ h₁u) (hfree h₁)
    · exact hl.hold_inj h₁u h₂u
  · exact hl.nodup
  · intro u hu h' hu'
    simp only [Ledger.issue, hold_update_some] at hu'
    rcases hu' with ⟨-, rfl⟩ | ⟨-, hu'⟩
    · exact hgone hu
    · exact hl.loose u hu h' hu'
  · intro u
    simp only [Ledger.issue, List.mem_append, List.mem_singleton, hold_update_some] at *
    rw [hl.issued_iff u, List.mem_append]
    constructor
    · rintro ((⟨h', hu⟩ | hu) | rfl)
      · exact .inl ⟨h', .inr ⟨fun hh' ↦ by simp [hh', hh] at hu, hu⟩⟩
      · exact .inr hu
      · exact .inl ⟨h, .inl ⟨rfl, rfl⟩⟩
    · rintro (⟨h', ⟨-, rfl⟩ | ⟨-, hu⟩⟩ | hu)
      · exact .inr rfl
      · exact .inl (.inl ⟨h', hu⟩)
      · exact .inl (.inr hu)

/-- Emptying a handle onto the tokens that are gone. -/
theorem Accounted.release {spent dropped : List T} (hl : l.Accounted)
    (hgone : (spent ++ dropped).Perm (l.spent ++ l.dropped ++ (l.hold h).toList)) :
    Accounted { l with hold := update l.hold h none, spent := spent, dropped := dropped } := by
  constructor
  · intro h₁ h₂ u h₁u h₂u
    exact hl.hold_inj (hold_update_none.1 h₁u).2 (hold_update_none.1 h₂u).2
  · refine hgone.nodup_iff.2 (List.nodup_append.2 ⟨hl.nodup, ?_, ?_⟩)
    · cases l.hold h <;> simp
    · intro u hu v hv huv
      exact hl.loose u hu h (by simpa [huv] using hv)
  · intro u hu h' hu'
    obtain ⟨hne, hu'⟩ := hold_update_none.1 hu'
    rcases List.mem_append.1 (hgone.subset hu) with hu | hu
    · exact hl.loose u hu h' hu'
    · exact hne (hl.hold_inj hu' (by simpa using hu))
  · intro u
    dsimp only
    rw [hl.issued_iff u, hgone.mem_iff, List.mem_append (s := l.spent ++ l.dropped),
      Option.mem_toList]
    constructor
    · rintro (⟨h', hu⟩ | hu)
      · by_cases hh : h' = h
        · exact .inr (.inr (hh ▸ hu))
        · exact .inl ⟨h', hold_update_none.2 ⟨hh, hu⟩⟩
      · exact .inr (.inl hu)
    · rintro (⟨h', hu⟩ | hu | hu)
      · exact .inl ⟨h', (hold_update_none.1 hu).2⟩
      · exact .inr hu
      · exact .inl ⟨h, hu⟩

theorem Accounted.spend (hl : l.Accounted) (h : H) : (l.spend h).Accounted :=
  hl.release (by
    rw [List.append_assoc, List.append_assoc]
    exact List.perm_append_comm.append_left _)

theorem Accounted.drop (hl : l.Accounted) (h : H) : (l.drop h).Accounted :=
  hl.release (by rw [List.append_assoc])

theorem Accounted.transfer (hl : l.Accounted) (hne : h ≠ h') (hh' : l.hold h' = none) :
    (l.transfer h h').Accounted := by
  have hmove : ∀ {k u}, (l.transfer h h').hold k = some u →
      k = h' ∧ l.hold h = some u ∨ k ≠ h ∧ l.hold k = some u :=
    fun hk ↦ ((hold_transfer hne).1 hk).imp id fun hk ↦ ⟨hk.1, hk.2.2⟩
  constructor
  · intro h₁ h₂ u hu₁ hu₂
    rcases hmove hu₁ with ⟨e₁, k₁⟩ | ⟨n₁, k₁⟩ <;> rcases hmove hu₂ with ⟨e₂, k₂⟩ | ⟨n₂, k₂⟩
    · exact e₁.trans e₂.symm
    · exact absurd (hl.hold_inj k₂ k₁) n₂
    · exact absurd (hl.hold_inj k₁ k₂) n₁
    · exact hl.hold_inj k₁ k₂
  · exact hl.nodup
  · intro u hu k hk
    rcases hmove hk with ⟨-, hk⟩ | ⟨-, hk⟩
    · exact hl.loose u hu h hk
    · exact hl.loose u hu k hk
  · intro u
    refine (hl.issued_iff u).trans (or_congr ⟨?_, ?_⟩ Iff.rfl)
    · rintro ⟨k, hk⟩
      by_cases hkh : k = h
      · exact ⟨h', (hold_transfer hne).2 (.inl ⟨rfl, hkh ▸ hk⟩)⟩
      · refine ⟨k, (hold_transfer hne).2 (.inr ⟨hkh, ?_, hk⟩)⟩
        rintro rfl
        simp [hh'] at hk
    · rintro ⟨k, hk⟩
      rcases hmove hk with ⟨-, hk⟩ | ⟨-, hk⟩
      · exact ⟨h, hk⟩
      · exact ⟨k, hk⟩

end Operations

/-! ### What an accounted ledger says -/

namespace Accounted

variable [BEq T] [LawfulBEq T]

/-- **Held or spent, once.** -/
theorem once (hl : l.Accounted) (hd : l.dropped = []) (ht : t ∈ l.issued) :
    (∃! h, l.hold h = some t) ∧ l.spent.count t = 0 ∨ l.Loose t ∧ l.spent.count t = 1 := by
  have hspent : t ∈ l.spent ↔ t ∈ l.spent ++ l.dropped := by simp [hd]
  have hnodup : l.spent.Nodup := hl.nodup.of_append_left
  rcases (hl.issued_iff t).1 ht with ⟨h, hh⟩ | hgone
  · refine .inl ⟨⟨h, hh, fun k hk ↦ hl.hold_inj hk hh⟩, List.count_eq_zero.2 fun hs ↦ ?_⟩
    exact hl.loose t (hspent.1 hs) h hh
  · exact .inr ⟨hl.loose t hgone, List.count_eq_one_of_mem hnodup (hspent.2 hgone)⟩

/-- **When all handles are empty**, every token was spent once, unless one was dropped. -/
theorem spent_iff_dropped_eq_nil (hl : l.Accounted) (hempty : ∀ h, l.hold h = none) :
    (∀ t ∈ l.issued, l.spent.count t = 1) ↔ l.dropped = [] := by
  constructor
  · intro hs
    refine List.eq_nil_iff_forall_not_mem.2 fun t ht ↦ ?_
    have hissued := (hl.issued_iff t).2 (.inr (List.mem_append_right _ ht))
    have hspent : t ∈ l.spent := List.count_pos_iff.1 (by rw [hs t hissued]; exact Nat.one_pos)
    exact (List.nodup_append.1 hl.nodup).2.2 t hspent t ht rfl
  · intro hd t ht
    rcases hl.once hd ht with ⟨⟨h, hh, -⟩, -⟩ | ⟨-, hcount⟩
    · simp [hempty h] at hh
    · exact hcount

end Accounted

end Ledger
