import OpenOOC.Vma.Points
import OpenOOC.Vma.Schedules
import OpenOOC.Vma.Threads

/-! Who lets go of which lock. The locks are balanced until the last stolen block
of a superblock is returned: then `S_block_unlock_and_return` unlocks the
superblock, and `S_superblock_unlock_and_put` unlocks it again. -/

namespace OpenOOC.Vma

open LockMachine

variable {Tid : Type} [DecidableEq Tid] {Λ : Layout} {s s' s₀ : State Tid} {t : Tid}

/-- Locks are let go by their holders, destroyed when they are free, and not kept
by a call that returns. -/
structure LocksBalanced (s : State Tid) : Prop where
  lets : ∀ t ℓ p, instr t (s.pc t) = .drop ℓ p → s.lock ℓ = some t
  frees : ∀ t sb, s.pc t = .putDestroy sb →
    s.lock (.superblock sb) = none ∧ ∀ b ∈ blocksOf sb, s.lock (.block b) = none
  returns : ∀ t, s.pc t = .idle ∨ (∃ r, s.pc t = .allocReturn r) → ∀ ℓ, s.lock ℓ ≠ some t

def Empties (s : State Tid) (t : Tid) : Prop :=
  ∃ b sb, s.pc t = .returnPush b sb ∧ (s.mem.superblock sb).bctr = 1

omit [DecidableEq Tid] in
/-- A lock is let go by the thread that holds it, except for the superblock's on
the way to the system. -/
theorem drop_own {p p' : Pc Tid} {ℓ : LockId Tid} (hi : instr t p = .drop ℓ p') :
    Holds t p ℓ ∨ ∃ sb, p = .putLetSuperblock sb ∧ ℓ = .superblock sb := by
  cases p <;> cases hi <;> simp [Holds, heldBy]

omit [DecidableEq Tid] in
theorem puts_next {m : Mem Tid} {p p' : Pc Tid} (h : Next m p p') (hp : p.puts = none) :
    p'.puts = none ∨ ∃ b sb, p = .returnPush b sb ∧ (m.superblock sb).bctr = 1 := by
  cases h <;> first | exact Or.inl rfl | exact Or.inr ⟨_, _, rfl, ‹_›⟩ | cases hp

def Kept (s : State Tid) : Prop := Owned Holds s ∧ ∀ t, (s.pc t).puts = none

theorem Kept.step (hk : Kept s) (hn : ¬ Empties s t) (hs : Step (slab Tid Λ) s t s') : Kept s' := by
  obtain ⟨ho, hp⟩ := hk
  refine ⟨ho.step (slab_disciplined Tid Λ) hs fun ℓ p hi => ?_, fun t' => ?_⟩
  · rcases drop_own hi with h | ⟨sb, h, -⟩
    · exact Or.inl h
    · have := hp t
      rw [h] at this
      cases this
  · have hput : ∀ p', p'.puts = none → (Function.update s.pc t p' t').puts = none := by
      intro p' h
      by_cases htt : t' = t
      · subst htt
        rwa [Function.update_self]
      · rw [Function.update_of_ne htt]
        exact hp t'
    cases hs with
    | get hi _ => exact hput _ ((lock_tokens (Or.inl hi)).2.2.2.1.trans (hp t))
    | drop hi => exact hput _ ((lock_tokens (Or.inr hi)).2.2.2.1.trans (hp t))
    | code _ _ hc =>
      refine hput _ ((puts_next (code_next hc) (hp t)).resolve_right ?_)
      rintro ⟨b, sb, h, h1⟩
      exact hn ⟨b, sb, h, h1⟩

omit [DecidableEq Tid] in
theorem Kept.balanced (hk : Kept s) : LocksBalanced s := by
  obtain ⟨ho, hp⟩ := hk
  refine ⟨fun t ℓ p hi => ?_, fun t sb h => ?_, fun t h ℓ hl => ?_⟩
  · rcases drop_own hi with h | ⟨sb, h, -⟩
    · exact (ho ℓ t).mpr h
    · have := hp t
      rw [h] at this
      cases this
  · have := hp t
    rw [h] at this
    cases this
  · have hh := (ho ℓ t).mp hl
    rcases h with h | ⟨r, h⟩ <;> rw [h] at hh <;> simp [Holds, heldBy] at hh

/-- In every run in which no superblock loses its last stolen block, the locks
are balanced throughout. -/
theorem runs_keep_locks_balanced (h₀ : Initial s₀)
    (hr : Runs (slab Tid Λ) (fun s t => ¬ Empties s t) s₀ s) : LocksBalanced s := by
  have hk : Kept s := hr.invariant
    ⟨fun ℓ t => by simp [h₀.lock, h₀.pc, Holds, heldBy], fun t => by rw [h₀.pc]; rfl⟩
    fun _ _ _ => Kept.step
  exact hk.balanced

/-- Two threads allocate structs of two blocks, and the first one frees its struct: the
block goes back to the superblock, from which another one is still stolen. -/
theorem runs_keep_locks_balanced_free : ∃ s : State (Fin 2),
    Runs (slab (Fin 2) lp64) (fun s t => ¬ Empties s t) zeroState s ∧
      s.mem.log = [.sysAlloc 4096, .alloc 0 (some 8256), .alloc 1 (some 12352), .free 0 8256] ∧
      s.pc 0 = .idle ∧ LocksBalanced s := by
  obtain ⟨s, hr, hs⟩ := exec_any (Λ := lp64) zeroState
    (fun s t => match s.pc t with
      | .returnPush _ sb => (s.mem.superblock sb).bctr != 1
      | _ => true)
    (firstAlloc 0 ++ (1, .callAlloc) :: steps 1 2 ++ (1, .sysAlloc none) :: steps 1 11 ++
      (0, .callFree 8256) :: steps 0 10)
    (fun s => decide (s.mem.log =
      [.sysAlloc 4096, .alloc 0 (some 8256), .alloc 1 (some 12352), .free 0 8256] ∧
        s.pc 0 = .idle)) (by decide +kernel)
  obtain ⟨hlog, hidle⟩ := of_decide_eq_true hs
  have hr' : Runs (slab (Fin 2) lp64) (fun s t => ¬ Empties s t) zeroState s :=
    hr.mono fun s t hok => by
      rintro ⟨b, sb, h, h1⟩
      simp [h, h1] at hok
  exact ⟨s, hr', hlog, hidle, runs_keep_locks_balanced zeroState_initial hr'⟩

/-- One thread allocates a struct and frees it: it lets go of the lock of the
superblock twice. -/
theorem put_unlocks_free_superblock :
    ∃ s₀ s : State (Fin 2), Initial s₀ ∧ Runs (slab (Fin 2) lp64) (fun _ _ => True) s₀ s ∧
      ¬ LocksBalanced s := by
  obtain ⟨s, hr, hs⟩ := exec_any (Λ := lp64) zeroState (fun _ _ => true)
    (firstAlloc 0 ++ (0, .callFree 8256) :: steps 0 13)
    (fun s => decide (s.pc 0 = .putLetSuperblock 4096 ∧ s.lock (.superblock 4096) = none))
    (by decide +kernel)
  obtain ⟨hp, hl⟩ := of_decide_eq_true hs
  refine ⟨zeroState, s, zeroState_initial, hr.mono fun _ _ _ => trivial, fun h => ?_⟩
  have := h.lets 0 (.superblock 4096) (.putDestroy 4096) (by rw [hp]; rfl)
  rw [hl] at this
  cases this

end OpenOOC.Vma
