import Mathlib.Logic.Function.Basic
import Mathlib.Tactic.Common

/-! One thread of control with saved contexts: `makecontext`, `swapcontext` and
`setcontext` on numbered slots. A context is a point at which the program goes on.
Where the context that a swap saves is set later on, and not overwritten before, the
swap is a call. -/

namespace Contexts

variable {K S G : Type*}

/-- How a step ends: the point at which the program goes on, or a context operation. -/
inductive Op (K S : Type*)
  | goto (k : K)
  | make (c : S) (entry k : K)
  | swap (save : S) (k : K) (load : S)
  | set (load : S)

/-- The point that is executed, the contexts, and everything else. -/
structure State (K S G : Type*) where
  now : K
  saved : S → Option K
  mem : G

abbrev Program (K S G : Type*) := K → G → Option (G × Op K S)

variable [DecidableEq S]

def next (P : Program K S G) (s : State K S G) : Option (State K S G) :=
  match P s.now s.mem with
  | none => none
  | some (g, .goto k) => some ⟨k, s.saved, g⟩
  | some (g, .make c entry k) => some ⟨k, Function.update s.saved c (some entry), g⟩
  | some (g, .swap a k b) => (Function.update s.saved a (some k) b).map fun k' =>
      ⟨k', Function.update s.saved a (some k), g⟩
  | some (g, .set b) => (s.saved b).map fun k' => ⟨k', s.saved, g⟩

inductive Reaches (P : Program K S G) : State K S G → State K S G → Prop
  | refl {s : State K S G} : Reaches P s s
  | head {s s' s'' : State K S G} (h : next P s = some s') (hr : Reaches P s' s'') : Reaches P s s''

variable {P : Program K S G} {s s' s'' : State K S G} {k k' k₁ : K} {g g₁ g₂ : G} {a b : S}
  {saved saved₁ : S → Option K}

theorem Reaches.trans (h : Reaches P s s') (h' : Reaches P s' s'') : Reaches P s s'' := by
  induction h with
  | refl => exact h'
  | head h _ ih => exact .head h (ih h')

theorem next_goto (h : P k g = some (g₁, .goto k')) :
    next P ⟨k, saved, g⟩ = some ⟨k', saved, g₁⟩ := by
  simp [next, h]

theorem next_make (h : P k g = some (g₁, .make a k₁ k')) :
    next P ⟨k, saved, g⟩ = some ⟨k', Function.update saved a (some k₁), g₁⟩ := by
  simp [next, h]

theorem next_swap (h : P k g = some (g₁, .swap a k₁ b)) (hab : b ≠ a) (hb : saved b = some k') :
    next P ⟨k, saved, g⟩ = some ⟨k', Function.update saved a (some k₁), g₁⟩ := by
  simp [next, h, Function.update_of_ne hab, hb]

theorem next_set (h : P k g = some (g₁, .set a)) (ha : saved a = some k') :
    next P ⟨k, saved, g⟩ = some ⟨k', saved, g₁⟩ := by
  simp [next, h, ha]

/-- A swap whose own context is set in the end is a call. -/
theorem Reaches.call (h : P k g = some (g₁, .swap a k₁ b)) (hab : b ≠ a) (hb : saved b = some k')
    {k₂ : K} {g₃ : G}
    (hrun : Reaches P ⟨k', Function.update saved a (some k₁), g₁⟩ ⟨k₂, saved₁, g₂⟩)
    (hset : P k₂ g₂ = some (g₃, .set a))
    (hkept : saved₁ a = some k₁) : Reaches P ⟨k, saved, g⟩ ⟨k₁, saved₁, g₃⟩ :=
  .head (next_swap h hab hb) (hrun.trans (.head (next_set hset hkept) .refl))

/-- A run that ends, ends in one state. -/
theorem Reaches.final_unique (hr : Reaches P s s') (hr' : Reaches P s s'') (hs' : next P s' = none)
    (hs'' : next P s'' = none) :
    s' = s'' := by
  induction hr with
  | refl =>
    cases hr' with
    | refl => rfl
    | head h _ => simp [hs'] at h
  | head h _ ih =>
    cases hr' with
    | refl => simp [hs''] at h
    | head h' hr' =>
      obtain rfl := Option.some.inj (h.symm.trans h')
      exact ih hr' hs'

/-- What every step carries back to the state before it, a run carries back to its start. -/
theorem Reaches.back {I : State K S G → Prop} {Q : State K S G → Prop} (hr : Reaches P s s')
    (hstep : ∀ s s', I s → next P s = some s' → I s' ∧ (Q s' → Q s)) (hi : I s) (hq : Q s') :
    Q s := by
  induction hr with
  | refl => exact hq
  | head h _ ih =>
    obtain ⟨hi', hback⟩ := hstep _ _ hi h
    exact hback (ih hi' hq)

end Contexts
