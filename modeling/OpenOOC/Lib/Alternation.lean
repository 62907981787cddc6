import Mathlib.Data.List.Basic
import Mathlib.Tactic.Common

/-! Events that open and close something. They alternate in a list when nothing
is opened twice without a closing between, and nothing closed twice without an
opening between. -/

namespace Alternation

variable {E : Type*} {opens closes : E → Bool} {o o' o'' : Bool} {l l' : List E} {e a b : E}

/-- What an event makes of a thing that is open (`true`) or closed. -/
def turn (opens closes : E → Bool) (o : Bool) (e : E) : Option Bool :=
  if opens e then if o then none else some true
  else if closes e then if o then some false else none
  else some o

/-- The events lead from `o` to `o'`, with openings and closings in turns. -/
def Alternates (opens closes : E → Bool) : Bool → List E → Bool → Prop
  | o, [], o' => o = o'
  | o, e :: l, o' => ∃ u, turn opens closes o e = some u ∧ Alternates opens closes u l o'

theorem turn_open (h : opens e) (ho : turn opens closes o e = some o') : o = false ∧ o' = true := by
  rw [turn, if_pos h] at ho
  cases o <;> simp_all

theorem turn_close (h : opens e = false) (hc : closes e) (ho : turn opens closes o e = some o') :
    o = true ∧ o' = false := by
  rw [turn, if_neg (by simp [h]), if_pos hc] at ho
  cases o <;> simp_all

theorem turn_other (h : opens e = false) (hc : closes e = false) :
    turn opens closes o e = some o := by
  simp [turn, h, hc]

theorem alternates_append :
    Alternates opens closes o (l ++ l') o'' ↔
      ∃ o', Alternates opens closes o l o' ∧ Alternates opens closes o' l' o'' := by
  induction l generalizing o with
  | nil => simp [Alternates]
  | cons e l ih =>
    simp only [List.cons_append, Alternates, ih]
    constructor
    · rintro ⟨u, hu, o', h, h'⟩
      exact ⟨o', ⟨u, hu, h⟩, h'⟩
    · rintro ⟨o', ⟨u, hu, h⟩, h'⟩
      exact ⟨u, hu, o', h, h'⟩

theorem Alternates.snoc (h : Alternates opens closes o l o')
    (he : turn opens closes o' e = some o'') :
    Alternates opens closes o (l ++ [e]) o'' :=
  alternates_append.mpr ⟨o', h, o'', he, rfl⟩

theorem Alternates.snoc_other (h : Alternates opens closes o l o') (he : opens e = false)
    (hc : closes e = false) : Alternates opens closes o (l ++ [e]) o' :=
  h.snoc (turn_other he hc)

section

variable (hdisj : ∀ e, opens e → closes e = false)

include hdisj

/-- As many openings as closings, but for what is open at the ends. -/
theorem Alternates.count (h : Alternates opens closes o l o') :
    l.countP opens + o.toNat = l.countP closes + o'.toNat := by
  induction l generalizing o with
  | nil =>
    cases h
    simp
  | cons e l ih =>
    obtain ⟨u, hu, h⟩ := h
    have := ih h
    rw [List.countP_cons, List.countP_cons]
    cases he : opens e with
    | true =>
      obtain ⟨rfl, rfl⟩ := turn_open he hu
      simp only [hdisj e he, Bool.toNat_true, Bool.toNat_false, if_true, Bool.false_eq_true,
        if_false] at *
      omega
    | false =>
      cases hc : closes e with
      | true =>
        obtain ⟨rfl, rfl⟩ := turn_close he hc hu
        simp only [Bool.toNat_true, Bool.toNat_false, if_true, Bool.false_eq_true, if_false] at *
        omega
      | false =>
        rw [turn_other he hc] at hu
        cases hu
        simpa using this

/-- Between two openings that follow each other there is exactly one closing. -/
theorem Alternates.between_opens {l₁ l₂ l₃ : List E}
    (h : Alternates opens closes o (l₁ ++ a :: l₂ ++ b :: l₃) o') (ha : opens a) (hb : opens b)
    (hno : ∀ e ∈ l₂, opens e = false) : l₂.countP closes = 1 := by
  rw [List.append_assoc, alternates_append] at h
  obtain ⟨u, -, v, hv, h⟩ := h
  obtain ⟨w, h₂, x, hx, -⟩ := alternates_append.mp h
  obtain ⟨-, rfl⟩ := turn_open ha hv
  obtain ⟨rfl, -⟩ := turn_open hb hx
  have hc := h₂.count hdisj
  rw [List.countP_eq_zero.mpr fun e he => by simp [hno e he]] at hc
  simpa using hc.symm

/-- What has been opened and not closed since is open. -/
theorem Alternates.open_after {l₁ l₂ : List E} (h : Alternates opens closes o (l₁ ++ a :: l₂) o')
    (ha : opens a) (hno : ∀ e ∈ l₂, closes e = false) : o' = true := by
  obtain ⟨u, -, v, hv, h⟩ := alternates_append.mp h
  obtain ⟨-, rfl⟩ := turn_open ha hv
  have hc := h.count hdisj
  have hzero : l₂.countP closes = 0 := List.countP_eq_zero.mpr fun e he => by simp [hno e he]
  cases o' with
  | true => rfl
  | false => simp [hzero] at hc

/-- When all is closed in the end, each opening has one closing before the next. -/
theorem Alternates.closed_after {l₁ l₂ : List E}
    (h : Alternates opens closes o (l₁ ++ a :: l₂) false)
    (ha : opens a) : (l₂.takeWhile fun e => !opens e).countP closes = 1 := by
  have hno : ∀ e ∈ l₂.takeWhile fun e => !opens e, opens e = false := fun e he => by
    simpa using List.all_eq_true.mp List.all_takeWhile e he
  cases hd : l₂.dropWhile fun e => !opens e with
  | nil =>
    have hl := List.takeWhile_append_dropWhile (p := fun e => !opens e) (l := l₂)
    rw [hd, List.append_nil] at hl
    rw [hl] at hno ⊢
    obtain ⟨u, -, v, hv, h⟩ := alternates_append.mp h
    obtain ⟨-, rfl⟩ := turn_open ha hv
    have hc := h.count hdisj
    rw [List.countP_eq_zero.mpr fun e he => by simp [hno e he]] at hc
    simpa using hc.symm
  | cons b l₃ =>
    have hb : opens b := by
      have := List.head_dropWhile_not (l := l₂) (fun e => !opens e) (by simp [hd])
      simpa [hd] using this
    rw [← List.takeWhile_append_dropWhile (p := fun e => !opens e) (l := l₂), hd,
      ← List.cons_append,
      ← List.append_assoc] at h
    exact h.between_opens hdisj ha hb hno

end

end Alternation
