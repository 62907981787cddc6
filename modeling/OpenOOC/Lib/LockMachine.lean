import Mathlib.Logic.Function.Basic
import Mathlib.Logic.Relation
import Mathlib.Tactic.Common

/-! Threads that share memory and mutual-exclusion locks. A step is one lock
operation, or the code of one thread between two of them. What a thread holds is
read off its program point; that this agrees with the locks is proved once here. -/

namespace LockMachine

/-- What a thread does next: take a lock, let a lock go, or run code. -/
inductive Instr (L P : Type*)
  | get (ℓ : L) (p : P)
  | drop (ℓ : L) (p : P)
  | code

/-- A program for threads `T` with locks `L`, program points `P`, memory `M` and
inputs `E` from outside. Code that cannot go on has no result. -/
structure Machine (T L P M E : Type*) where
  instr : T → P → Instr L P
  input : P → M → E → Prop
  code : T → P → M → E → Option (M × P)
  reachable : M → L → Prop

structure State (T L P M : Type*) where
  mem : M
  lock : L → Option T
  pc : T → P

variable {T L P M E : Type*}

inductive Step [DecidableEq T] [DecidableEq L] (K : Machine T L P M E) (s : State T L P M) (t : T) :
    State T L P M → Prop
  | get {ℓ : L} {p : P} (hi : K.instr t (s.pc t) = .get ℓ p) (hfree : s.lock ℓ = none) :
      Step K s t ⟨s.mem, Function.update s.lock ℓ (some t), Function.update s.pc t p⟩
  | drop {ℓ : L} {p : P} (hi : K.instr t (s.pc t) = .drop ℓ p) :
      Step K s t ⟨s.mem, Function.update s.lock ℓ none, Function.update s.pc t p⟩
  | code {e : E} {m : M} {p : P} (hi : K.instr t (s.pc t) = .code) (he : K.input (s.pc t) s.mem e)
      (hc : K.code t (s.pc t) s.mem e = some (m, p)) :
      Step K s t ⟨m, s.lock, Function.update s.pc t p⟩

/-- The next instruction goes wrong: a lock in memory that is gone, or code
without a result. -/
def Faults (K : Machine T L P M E) (s : State T L P M) (t : T) : Prop :=
  match K.instr t (s.pc t) with
  | .get ℓ _ => ¬ K.reachable s.mem ℓ
  | .drop ℓ _ => ¬ K.reachable s.mem ℓ
  | .code => ∃ e, K.input (s.pc t) s.mem e ∧ K.code t (s.pc t) s.mem e = none

/-! ### Who holds what -/

/-- The locks are held as the program points say. -/
def Owned (holds : T → P → L → Prop) (s : State T L P M) : Prop :=
  ∀ ℓ t, s.lock ℓ = some t ↔ holds t (s.pc t) ℓ

/-- A program whose points say what is held there. -/
structure Disciplined (K : Machine T L P M E) (holds : T → P → L → Prop) : Prop where
  get : ∀ t p ℓ p', K.instr t p = .get ℓ p' → ∀ k, holds t p' k ↔ k = ℓ ∨ holds t p k
  drop : ∀ t p ℓ p', K.instr t p = .drop ℓ p' → ∀ k, holds t p' k ↔ k ≠ ℓ ∧ holds t p k
  code : ∀ t p m e m' p', K.instr t p = .code → K.code t p m e = some (m', p') →
    ∀ k, holds t p' k ↔ holds t p k

section

variable {holds : T → P → L → Prop} {s : State T L P M}

theorem Owned.unique (ho : Owned holds s) {t t' : T} {ℓ : L} (h : holds t (s.pc t) ℓ)
    (h' : holds t' (s.pc t') ℓ) : t = t' :=
  Option.some.inj (((ho ℓ t).mpr h).symm.trans ((ho ℓ t').mpr h'))

theorem Owned.not_held (ho : Owned holds s) {t : T} {ℓ : L} (h : s.lock ℓ = none) :
    ¬ holds t (s.pc t) ℓ := fun hh => by
  have := (ho ℓ t).mpr hh
  rw [h] at this
  cases this

end

/-! ### Runs -/

variable [DecidableEq T] [DecidableEq L]

/-- The states of the runs from `s₀` whose steps all meet `ok` when they are taken. -/
inductive Runs (K : Machine T L P M E) (ok : State T L P M → T → Prop) (s₀ : State T L P M) :
    State T L P M → Prop
  | start : Runs K ok s₀ s₀
  | step {s s' : State T L P M} {t : T} (hr : Runs K ok s₀ s) (hok : ok s t) (hs : Step K s t s') :
      Runs K ok s₀ s'

variable {K : Machine T L P M E} {ok ok' : State T L P M → T → Prop} {s₀ s s' : State T L P M}
  {t : T}

theorem Runs.mono (hr : Runs K ok s₀ s) (hok : ∀ s t, ok s t → ok' s t) : Runs K ok' s₀ s := by
  induction hr with
  | start => exact .start
  | step _ ho hs ih => exact ih.step (hok _ _ ho) hs

/-- What holds at the start and is kept by every step that meets `ok` holds throughout. -/
theorem Runs.invariant {I : State T L P M → Prop} (hr : Runs K ok s₀ s) (h₀ : I s₀)
    (hstep : ∀ s t s', I s → ok s t → Step K s t s' → I s') : I s := by
  induction hr with
  | start => exact h₀
  | step _ ho hs ih => exact hstep _ _ _ ih ho hs

variable {holds : T → P → L → Prop}

/-- A step keeps the locks in agreement with the program points, if a lock that
is let go is the thread's own, or nobody's. -/
theorem Owned.step (hd : Disciplined K holds) (ho : Owned holds s) (hs : Step K s t s')
    (hown : ∀ ℓ p, K.instr t (s.pc t) = .drop ℓ p → holds t (s.pc t) ℓ ∨ s.lock ℓ = none) :
    Owned holds s' := by
  intro k t'
  cases hs with
  | @get ℓ p hi hfree =>
    dsimp only
    by_cases ht : t' = t
    · subst ht
      rw [Function.update_self, hd.get _ _ _ _ hi]
      by_cases hk : k = ℓ
      · subst hk
        simp
      · rw [Function.update_of_ne hk, ho]
        simp [hk]
    · rw [Function.update_of_ne ht]
      by_cases hk : k = ℓ
      · subst hk
        rw [Function.update_self]
        have hn := ho.not_held (t := t') hfree
        simp [Ne.symm ht, hn]
      · rw [Function.update_of_ne hk]
        exact ho k t'
  | @drop ℓ p hi =>
    dsimp only
    by_cases ht : t' = t
    · subst ht
      rw [Function.update_self, hd.drop _ _ _ _ hi]
      by_cases hk : k = ℓ
      · subst hk
        simp
      · rw [Function.update_of_ne hk, ho]
        simp [hk]
    · rw [Function.update_of_ne ht]
      by_cases hk : k = ℓ
      · subst hk
        rw [Function.update_self]
        have hn : ¬ holds t' (s.pc t') k := by
          rcases hown _ _ hi with h | h
          · exact fun h' => ht (ho.unique h' h)
          · exact ho.not_held h
        simp [hn]
      · rw [Function.update_of_ne hk]
        exact ho k t'
  | @code e m p hi he hc =>
    dsimp only
    by_cases ht : t' = t
    · subst ht
      rw [Function.update_self, hd.code _ _ _ _ _ _ hi hc]
      exact ho k t'
    · rw [Function.update_of_ne ht]
      exact ho k t'

/-! ### Waiting -/

def WaitsFor (K : Machine T L P M E) (s : State T L P M) (t t' : T) : Prop :=
  ∃ ℓ p, K.instr t (s.pc t) = .get ℓ p ∧ s.lock ℓ = some t'

/-- Some threads wait for each other in a cycle. -/
def Deadlock (K : Machine T L P M E) (s : State T L P M) : Prop :=
  ∃ t, Relation.TransGen (WaitsFor K s) t t

omit [DecidableEq T] [DecidableEq L] in
/-- There is no cycle if a rank goes down along each wait. -/
theorem no_deadlock_of_rank (rank : T → ℕ) (h : ∀ t t', WaitsFor K s t t' → rank t' < rank t) :
    ¬ Deadlock K s := by
  rintro ⟨t, hc⟩
  have hlt : ∀ t', Relation.TransGen (WaitsFor K s) t t' → rank t' < rank t := by
    intro t' ht
    induction ht with
    | single hw => exact h _ _ hw
    | tail _ hw ih => exact Nat.lt_trans (h _ _ hw) ih
  exact Nat.lt_irrefl _ (hlt t hc)

omit [DecidableEq T] [DecidableEq L] in
/-- Whoever waits, waits in the end for a thread that does not. -/
theorem exists_not_waiting (rank : T → ℕ) (h : ∀ t t', WaitsFor K s t t' → rank t' < rank t)
    (t : T) :
    ∃ t', Relation.ReflTransGen (WaitsFor K s) t t' ∧ ∀ t'', ¬ WaitsFor K s t' t'' := by
  induction hn : rank t using Nat.strongRecOn generalizing t with
  | ind n ih =>
    by_cases hw : ∃ t', WaitsFor K s t t'
    · obtain ⟨t', ht'⟩ := hw
      obtain ⟨t'', hr, hnot⟩ := ih _ (hn ▸ h t t' ht') t' rfl
      exact ⟨t'', .head ht' hr, hnot⟩
    · exact ⟨t, .refl, fun t'' ht => hw ⟨t'', ht⟩⟩

/-- A thread that does not wait and does not go wrong can go on. -/
theorem step_of_not_waiting (hw : ∀ t', ¬ WaitsFor K s t t') (hf : ¬ Faults K s t)
    (he : K.instr t (s.pc t) = .code → ∃ e, K.input (s.pc t) s.mem e) : ∃ s', Step K s t s' := by
  cases hi : K.instr t (s.pc t) with
  | get ℓ p =>
    cases hl : s.lock ℓ with
    | none => exact ⟨_, .get hi hl⟩
    | some t' => exact absurd ⟨ℓ, p, hi, hl⟩ (hw t')
  | drop ℓ p => exact ⟨_, .drop hi⟩
  | code =>
    obtain ⟨e, he⟩ := he hi
    cases hc : K.code t (s.pc t) s.mem e with
    | none =>
      exfalso
      apply hf
      unfold Faults
      rw [hi]
      exact ⟨e, he, hc⟩
    | some r => exact ⟨_, .code hi he hc⟩

/-! ### Serial runs -/

def Alone (idle : P) (s : State T L P M) (t : T) : Prop := ∀ t', t' ≠ t → s.pc t' = idle

end LockMachine
