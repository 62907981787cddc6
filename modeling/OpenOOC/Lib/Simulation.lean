import Mathlib.Algebra.BigOperators.Group.Finset.Basic
import Mathlib.Tactic.Common

/-! Runs of a step relation, counted, and simulations whose silent steps use up a
measure. Then the two sides take the same time, up to a factor, and end together. -/

namespace Simulation

variable {S A : Type*}

inductive RunsIn (step : S → S → Prop) (s₀ : S) : ℕ → S → Prop
  | start : RunsIn step s₀ 0 s₀
  | step {n : ℕ} {s s' : S} (hr : RunsIn step s₀ n s) (hs : step s s') : RunsIn step s₀ (n + 1) s'

/-- A step is silent and uses up some of what is left, or it is one of the other side's
and brings back less than `K`. -/
def Ranked (step : S → S → Prop) (astep : A → A → Prop) (R : S → A → Prop) (left : S → ℕ) (K : ℕ) :
    Prop :=
  ∀ s s' a, R s a → step s s' → (R s' a ∧ left s' < left s) ∨ ∃ a', astep a a' ∧ R s' a' ∧
    left s' < left s + K

variable {step : S → S → Prop} {astep : A → A → Prop} {R : S → A → Prop} {left : S → ℕ} {K N n : ℕ}
  {s₀ s : S} {a₀ : A}

theorem RunsIn.invariant {I : S → Prop} (hr : RunsIn step s₀ n s) (h₀ : I s₀)
    (hstep : ∀ s s', I s → step s s' → I s') : I s := by
  induction hr with
  | start => exact h₀
  | step _ hs ih => exact hstep _ _ ih hs

theorem RunsIn.mono {step' : S → S → Prop} (hr : RunsIn step s₀ n s)
    (h : ∀ s s', step s s' → step' s s') : RunsIn step' s₀ n s := by
  induction hr with
  | start => exact .start
  | step _ hs ih => exact ih.step (h _ _ hs)

theorem Ranked.runs (h : Ranked step astep R left K) (h₀ : R s₀ a₀) (hr : RunsIn step s₀ n s) :
    ∃ k a, RunsIn astep a₀ k a ∧ R s a ∧ n + left s ≤ left s₀ + K * k := by
  induction hr with
  | start => exact ⟨0, a₀, .start, h₀, by omega⟩
  | step _ hs ih =>
    obtain ⟨k, a, ha, hR, hle⟩ := ih
    rcases h _ _ a hR hs with ⟨hR', hlt⟩ | ⟨a', ha', hR', hlt⟩
    · exact ⟨k, a, ha, hR', by omega⟩
    · refine ⟨k + 1, a', ha.step ha', hR', ?_⟩
      rw [Nat.mul_succ]
      omega

/-- Steps that are determined lead to one state. -/
theorem RunsIn.unique (hu : ∀ s s' s'', step s s' → step s s'' → s' = s'') {s' : S}
    (hr : RunsIn step s₀ n s) (hr' : RunsIn step s₀ n s') : s = s' := by
  induction hr generalizing s' with
  | start =>
    cases hr' with
    | start => rfl
  | step _ hs ih =>
    cases hr' with
    | step hr' hs' =>
      rw [ih hr'] at hs
      exact hu _ _ _ hs hs'

theorem RunsIn.trans {k : ℕ} {s' : S} (hr : RunsIn step s₀ n s) (hr' : RunsIn step s k s') :
    RunsIn step s₀ (n + k) s' := by
  induction hr' with
  | start => exact hr
  | step _ hs ih => exact ih.step hs

section

variable {T P : Type*} [Fintype T] [DecidableEq T]

/-- What all threads together have left, when one of them goes on. -/
theorem sum_update (f : P → ℕ) (pc : T → P) (t : T) (p : P) :
    (∑ t', f (Function.update pc t p t')) + f (pc t) = (∑ t', f (pc t')) + f p := by
  have hrest : ∑ t' ∈ Finset.univ.erase t, f (Function.update pc t p t') = ∑ t' ∈
      Finset.univ.erase t, f (pc t') := by
    apply Finset.sum_congr rfl
    intro t' ht
    rw [Function.update_of_ne (Finset.ne_of_mem_erase ht)]
  have h₁ := Finset.sum_erase_add Finset.univ (fun t' => f (Function.update pc t p t'))
    (Finset.mem_univ t)
  have h₂ := Finset.sum_erase_add Finset.univ (fun t' => f (pc t')) (Finset.mem_univ t)
  rw [Function.update_self] at h₁
  omega

end

end Simulation
