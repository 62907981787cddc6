import OpenOOC.Lib.Alternation
import OpenOOC.Lib.LockMachine

/-! The lock operations of a run, in order, and runs that are computed step by step.
Where a thread lets go only of what it holds, taking and letting go alternate, for
each lock and for each thread and lock. -/

namespace LockMachine

open Alternation

variable {T L P M E : Type*} [DecidableEq T] [DecidableEq L]

structure LockEvent (T L : Type*) where
  thread : T
  lock : L
  taken : Bool

namespace LockEvent

def takes (ℓ : L) (e : LockEvent T L) : Bool := e.lock = ℓ && e.taken

def lets (ℓ : L) (e : LockEvent T L) : Bool := e.lock = ℓ && !e.taken

def takesBy (t : T) (ℓ : L) (e : LockEvent T L) : Bool := e.thread = t && e.takes ℓ

def letsBy (t : T) (ℓ : L) (e : LockEvent T L) : Bool := e.thread = t && e.lets ℓ

theorem letsBy_of_takesBy (t : T) (ℓ : L) (e : LockEvent T L) (h : e.takesBy t ℓ) :
    e.letsBy t ℓ = false := by
  simp only [takesBy, takes, letsBy, lets, Bool.and_eq_true] at h ⊢
  simp [h.2.2]

end LockEvent

/-- What a step of thread `t` does to the locks. -/
def events (K : Machine T L P M E) (s : State T L P M) (t : T) : List (LockEvent T L) :=
  match K.instr t (s.pc t) with
  | .get ℓ _ => [⟨t, ℓ, true⟩]
  | .drop ℓ _ => [⟨t, ℓ, false⟩]
  | .code => []

/-- Runs with the lock operations made so far. -/
inductive TracedRuns (K : Machine T L P M E) (ok : State T L P M → T → Prop) (s₀ : State T L P M) :
    List (LockEvent T L) → State T L P M → Prop
  | start : TracedRuns K ok s₀ [] s₀
  | step {l : List (LockEvent T L)} {s s' : State T L P M} {t : T} (hr : TracedRuns K ok s₀ l s)
    (hok : ok s t)
      (hs : Step K s t s') : TracedRuns K ok s₀ (l ++ events K s t) s'

variable {K : Machine T L P M E} {ok : State T L P M → T → Prop} {s₀ s s' : State T L P M} {t : T}
  {ℓ : L}
  {l : List (LockEvent T L)} {holds : T → P → L → Prop}

theorem TracedRuns.runs (hr : TracedRuns K ok s₀ l s) : Runs K ok s₀ s := by
  induction hr with
  | start => exact .start
  | step _ hok hs ih => exact ih.step hok hs

/-- Where only held locks are let go, the locks agree with the program points throughout. -/
theorem Runs.owned (hr : Runs K ok s₀ s) (hd : Disciplined K holds)
    (hown : ∀ t p ℓ p', K.instr t p = .drop ℓ p' → holds t p ℓ) (h₀ : Owned holds s₀) :
    Owned holds s :=
  hr.invariant h₀ fun _ _ _ ho _ hs => ho.step hd hs fun _ _ hi => Or.inl (hown _ _ _ _ hi)

theorem TracedRuns.alternates_by (hr : TracedRuns K ok s₀ l s) (hd : Disciplined K holds)
    (hown : ∀ t p ℓ p', K.instr t p = .drop ℓ p' → holds t p ℓ) (h₀ : Owned holds s₀)
    (hnone : ∀ ℓ, s₀.lock ℓ = none)
    (t : T) (ℓ : L) :
    ∃ o, Alternates (LockEvent.takesBy t ℓ) (LockEvent.letsBy t ℓ) false l o ∧
      (o = true ↔ s.lock ℓ = some t) := by
  induction hr with
  | start => exact ⟨false, rfl, by simp [hnone]⟩
  | @step l s s' t' hr hok hs ih =>
    obtain ⟨o, ho, hlock⟩ := ih
    cases hs with
    | @get k p hi hfree =>
      rw [events, hi]
      dsimp only
      by_cases hk : k = ℓ
      · subst hk
        rw [Function.update_self]
        obtain rfl : o = false := by simpa [hfree] using hlock
        by_cases ht : t' = t
        · subst ht
          exact ⟨true, ho.snoc (by simp [turn, LockEvent.takesBy, LockEvent.takes]), by simp⟩
        · exact ⟨false, ho.snoc_other (by simp [LockEvent.takesBy, ht])
            (by simp [LockEvent.letsBy, ht]), by simpa using ht⟩
      · rw [Function.update_of_ne (Ne.symm hk)]
        exact ⟨o, ho.snoc_other (by simp [LockEvent.takesBy, LockEvent.takes, hk])
          (by simp [LockEvent.letsBy, LockEvent.lets, hk]), hlock⟩
    | @drop k p hi =>
      rw [events, hi]
      dsimp only
      have hheld := (hr.runs.owned hd hown h₀ k t').mpr (hown _ _ _ _ hi)
      by_cases hk : k = ℓ
      · subst hk
        rw [Function.update_self]
        by_cases ht : t' = t
        · subst ht
          obtain rfl : o = true := hlock.mpr hheld
          exact ⟨false, ho.snoc
            (by simp [turn, LockEvent.takesBy, LockEvent.takes, LockEvent.letsBy, LockEvent.lets]),
            by simp⟩
        · obtain rfl : o = false := by simpa [hheld, ht] using hlock
          exact ⟨false, ho.snoc_other (by simp [LockEvent.takesBy, ht])
            (by simp [LockEvent.letsBy, ht]), by simp⟩
      · rw [Function.update_of_ne (Ne.symm hk)]
        exact ⟨o, ho.snoc_other (by simp [LockEvent.takesBy, LockEvent.takes, hk])
          (by simp [LockEvent.letsBy, LockEvent.lets, hk]), hlock⟩
    | code hi he hc =>
      rw [events, hi, List.append_nil]
      exact ⟨o, ho, hlock⟩

/-- A thread that does not hold the lock in the end has let it go exactly once each time
that it had taken it, before it took it again. -/
theorem TracedRuns.let_once (hr : TracedRuns K ok s₀ l s) (hd : Disciplined K holds)
    (hown : ∀ t p ℓ p', K.instr t p = .drop ℓ p' → holds t p ℓ) (h₀ : Owned holds s₀)
    (hnone : ∀ ℓ, s₀.lock ℓ = none)
    {t : T} {ℓ : L} (hfree : s.lock ℓ ≠ some t) {l₁ l₂ : List (LockEvent T L)} {a : LockEvent T L}
    (hl : l = l₁ ++ a :: l₂)
    (ha : a.takesBy t ℓ) : (l₂.takeWhile fun e => !e.takesBy t ℓ).countP (LockEvent.letsBy t ℓ) =
    1 := by
  obtain ⟨o, ho, hlock⟩ := hr.alternates_by hd hown h₀ hnone t ℓ
  obtain rfl : o = false := by simpa [hfree] using hlock
  subst hl
  exact ho.closed_after (LockEvent.letsBy_of_takesBy t ℓ) ha

/-! ### Runs that are computed -/

/-- A machine with a test for its inputs, and its code in a form that can be evaluated. -/
structure Computed (K : Machine T L P M E) where
  inputOk : P → M → E → Bool
  code : T → P → M → E → Option (M × P)
  sound : ∀ p m e, inputOk p m e = true → K.input p m e
  code_eq : ∀ t p m e, inputOk p m e = true → code t p m e = K.code t p m e

namespace Computed

def stepOf (C : Computed K) (s : State T L P M) (t : T) (e : E) : Option (State T L P M) :=
  match K.instr t (s.pc t) with
  | .get ℓ p =>
    if s.lock ℓ = none then
      some ⟨s.mem, Function.update s.lock ℓ (some t), Function.update s.pc t p⟩
    else none
  | .drop ℓ p => some ⟨s.mem, Function.update s.lock ℓ none, Function.update s.pc t p⟩
  | .code =>
    if C.inputOk (s.pc t) s.mem e then
      (C.code t (s.pc t) s.mem e).map fun r => ⟨r.1, s.lock, Function.update s.pc t r.2⟩
    else none

/-- A schedule: which thread goes next, and what it gets from outside. Each step has to
meet `ok`. -/
def exec (C : Computed K) (ok : State T L P M → T → Bool) :
    List (T × E) → State T L P M → Option (State T L P M)
  | [], s => some s
  | (t, e) :: l, s => if ok s t then (C.stepOf s t e).bind (C.exec ok l) else none

variable {C : Computed K} {okb : State T L P M → T → Bool} {e : E} {sched : List (T × E)}

theorem stepOf_step (h : C.stepOf s t e = some s') : Step K s t s' := by
  unfold stepOf at h
  split at h
  · rename_i ℓ p hi
    split_ifs at h with hl
    cases h
    exact .get hi hl
  · rename_i ℓ p hi
    cases h
    exact .drop hi
  · rename_i hi
    split_ifs at h with hok
    obtain ⟨r, hr, rfl⟩ := Option.map_eq_some_iff.mp h
    exact .code hi (C.sound _ _ _ hok) ((C.code_eq _ _ _ _ hok).symm.trans hr)

theorem exec_traced (hok : ∀ s t, okb s t = true → ok s t) (hr : TracedRuns K ok s₀ l s)
    (h : C.exec okb sched s = some s') : ∃ l', TracedRuns K ok s₀ l' s' := by
  induction sched generalizing l s with
  | nil =>
    cases h
    exact ⟨l, hr⟩
  | cons a sched ih =>
    unfold exec at h
    split_ifs at h with ho
    obtain ⟨s₁, h₁, h₂⟩ := Option.bind_eq_some_iff.mp h
    exact ih (hr.step (hok _ _ ho) (stepOf_step h₁)) h₂

theorem exec_any (hok : ∀ s t, okb s t = true → ok s t) (hr : TracedRuns K ok s₀ l s)
    {P : State T L P M → Bool} (h : (C.exec okb sched s).any P = true) :
    ∃ l' s', TracedRuns K ok s₀ l' s' ∧ P s' = true := by
  obtain ⟨s', hs, hP⟩ := (Option.any_eq_true _ _).mp h
  obtain ⟨l', hl⟩ := exec_traced hok hr hs
  exact ⟨l', s', hl, hP⟩

end Computed

end LockMachine
