import Mathlib.Tactic.Common

/-! Programs that may fail, as options: a postcondition for whatever a program
returns, with one rule for each way to build a program. -/

namespace Returns

variable {α β : Type*} {m : Option α} {f : α → Option β} {P P' : α → Prop} {Q : β → Prop}

/-- If the program returns, its result is as `P` says. -/
def Ensures (m : Option α) (P : α → Prop) : Prop := ∀ x, m = some x → P x

namespace Ensures

theorem some {x : α} (h : P x) : Ensures (some x) P := fun _ he => Option.some.inj he ▸ h

theorem fails : Ensures none P := fun _ he => nomatch he

theorem mono (h : Ensures m P) (hP : ∀ x, P x → P' x) : Ensures m P' := fun x he => hP x (h x he)

theorem and (h : Ensures m P) (h' : Ensures m P') : Ensures m fun x => P x ∧ P' x :=
  fun x he => ⟨h x he, h' x he⟩

theorem any (m : Option α) : Ensures m fun _ => True := fun _ _ => trivial

theorem bind (h : Ensures m P) (hf : ∀ x, P x → Ensures (f x) Q) : Ensures (m.bind f) Q :=
  fun y he => by
  obtain ⟨x, hx, hy⟩ := Option.bind_eq_some_iff.mp he
  exact hf x (h x hx) y hy

/-- With what the first program returns, and nothing more known about it. -/
theorem bind_eq (hf : ∀ x, m = Option.some x → Ensures (f x) Q) : Ensures (m.bind f) Q :=
  fun y he => by
  obtain ⟨x, hx, hy⟩ := Option.bind_eq_some_iff.mp he
  exact hf x hx y hy

theorem ite {c : Prop} [Decidable c] {m m' : Option α} (h : c → Ensures m P)
    (h' : ¬ c → Ensures m' P) :
    Ensures (if c then m else m') P := by
  split_ifs with hc
  · exact h hc
  · exact h' hc

end Ensures

end Returns
