import Mathlib.Order.Basic

/-!
# While loops

`while (c s) s = f s`, with fuel for the evaluations of its condition. The invariant rule
(`run_invariant`) tells what holds when the loop ends, the variant rule (`isSome_run`) tells that
it ends and how much fuel is enough.
-/

namespace While

variable {σ : Type*} {c : σ → Bool} {f : σ → σ} {n : ℕ} {s s' : σ}

/-- The state in which the loop ends. -/
def run (c : σ → Bool) (f : σ → σ) : ℕ → σ → Option σ
  | 0, _ => none
  | n + 1, s => if c s then run c f n (f s) else some s

/-- **The invariant rule.** What holds at first and is kept by the body holds at the end, where
the condition fails. -/
theorem run_invariant {I : σ → Prop} (hs : I s) (hstep : ∀ s, I s → c s = true → I (f s))
    (h : run c f n s = some s') : I s' ∧ c s' = false := by
  induction n generalizing s with
  | zero => exact absurd h (by simp [run])
  | succ n ih =>
    rw [run] at h
    split at h
    next hc => exact ih (hstep s hs hc) h
    next hc =>
      obtain rfl := Option.some.inj h
      exact ⟨hs, Bool.eq_false_iff.2 hc⟩

/-- **The variant rule.** A loop whose body decreases a number ends. -/
theorem isSome_run {I : σ → Prop} {μ : σ → ℕ} (hs : I s)
    (hstep : ∀ s, I s → c s = true → I (f s) ∧ μ (f s) < μ s) (hn : μ s < n) :
    (run c f n s).isSome := by
  induction n generalizing s with
  | zero => exact absurd hn (Nat.not_lt_zero _)
  | succ n ih =>
    rw [run]
    split
    next hc =>
      obtain ⟨hI, hlt⟩ := hstep s hs hc
      exact ih hI (Nat.lt_of_lt_of_le hlt (Nat.le_of_lt_succ hn))
    next => rfl

end While
