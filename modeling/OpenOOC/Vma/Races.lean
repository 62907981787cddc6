import OpenOOC.Vma.Events
import OpenOOC.Vma.Locks
import OpenOOC.Vma.Steps

/-! Runs of the slab in which every order of steps is allowed. Without a race the
invariant is kept and no step goes wrong. -/

namespace OpenOOC.Vma

open LockMachine Links Alternation

variable {Tid : Type} [DecidableEq Tid] {Λ : Layout} {s s' s₀ : State Tid} {t : Tid}

omit [DecidableEq Tid] in
theorem Initial.inv (h : Initial s) : Inv Λ s := by
  have hno : ∀ b, ¬ IsBlock s.mem b := not_isBlock h.held
  refine ⟨fun ℓ t => by simp [h.lock, h.pc, Holds, heldBy], Ghost.empty Tid,
    Rep.empty h.held h.gpoolHead h.mpoolHead, fun t => ?_, fun b hb => absurd hb (hno b),
    by rw [h.held]; nofun, by rw [h.held]; nofun, by rw [h.held]; nofun, fun t t' x hx => ?_,
    fun t t' x hx => ?_, by rw [h.live]; exact List.nodup_nil, by rw [h.live]; nofun,
    fun b hb => absurd hb (hno b)⟩
  · rw [h.pc]
    exact ⟨nofun, nofun, nofun, nofun, nofun, nofun, nofun⟩
  · rw [h.pc] at hx
    cases hx
  · rw [h.pc] at hx
    cases hx

/-! ### Locks -/

omit [DecidableEq Tid] in
/-- The lock of a superblock that is given back is free. -/
theorem Threads.put_unlocked {g : Ghost Tid} (ht : Threads Λ s.mem g s.pc) (ho : Owned Holds s)
    {sb : ℕ}
    (hp : s.pc t = .putLetSuperblock sb) : s.lock (.superblock sb) = none := by
  cases hl : s.lock (.superblock sb) with
  | none => rfl
  | some t' =>
    have hh := (ho _ _).mp hl
    have hs := Pc.holds_super hh
    have hput := ((ht.loc t).super sb (by rw [hp]; rfl)).2
    rw [hp] at hput
    have hputs := (Pc.puts_iff hs ((ht.loc t').super sb hs).2).mpr (Or.inr hput)
    obtain rfl := ht.puts t' t sb hputs (by rw [hp]; rfl)
    rw [hp] at hh
    simp [Holds, heldBy] at hh

omit [DecidableEq Tid] in
theorem Inv.drop_own (hi : Inv Λ s) {p' : Pc Tid} {ℓ : LockId Tid}
    (h : instr t (s.pc t) = .drop ℓ p') :
    Holds t (s.pc t) ℓ ∨ s.lock ℓ = none := by
  obtain ⟨ho, g, -, ht⟩ := hi
  rcases Vma.drop_own h with hh | ⟨sb, hp, rfl⟩
  · exact Or.inl hh
  · exact Or.inr (ht.put_unlocked ho hp)

/-! ### Steps and runs -/

theorem Inv.step (hi : Inv Λ s) (hn : ¬ Race s t) (hs : Step (slab Tid Λ) s t s') : Inv Λ s' := by
  refine ⟨hi.1.step (slab_disciplined Tid Λ) hs fun ℓ p h => hi.drop_own h, ?_⟩
  obtain ⟨ho, g, hr, ht⟩ := hi
  cases hs with
  | get h hfree => exact ⟨g, hr, ht.get hr ho hn h hfree⟩
  | drop h => exact ⟨g, hr, ht.drop h⟩
  | code h he hc =>
    obtain ⟨m', p', g', heq, hr', ht'⟩ := good_code hr ht ho hn h he
    have hsome := heq.symm.trans hc
    cases hsome
    exact ⟨g', hr', ht'⟩

omit [DecidableEq Tid] in
theorem Local.lock_mapped {m : Mem Tid} {g : Ghost Tid} {p p' : Pc Tid} {ℓ : LockId Tid}
    (hl : Local Λ m g t p) (hr : Rep Λ m g) (hi : instr t p = .get ℓ p' ∨ instr t p = .drop ℓ p') :
    LockMapped m ℓ := by
  have hblock : ∀ b, p.block = some b → m.Mapped b := fun b hb => mapped_block (hl.block b hb).1
  have hsuper : ∀ x, p.super = some x → m.Mapped x :=
    fun x hx => mapped_superblock (hl.super x hx).1
  have htop : ∀ x, p.top = some x → m.Mapped x := fun x hx =>
    mapped_superblock ((hr.gpool.mem_iff x).mp (List.mem_of_head? (hl.top x hx))).1
  have hpair : ∀ b x, p.pair = some (b, x) → m.Mapped x :=
    fun b x hx => mapped_superblock (hl.pair b x hx).1
  have hfirst : ∀ x b, p.first = some (x, b) → m.Mapped b := by
    intro x b hx
    have hs : x ∈ m.held := (hl.super x (by cases p <;> cases hx <;> rfl)).1
    have hb := ((hr.super x hs).mem_iff b).mp (List.mem_of_head? (hl.first x b hx))
    exact mapped_block ⟨x, hs, hb.1⟩
  rcases hi with h | h <;> cases p <;> cases h <;>
    first
      | trivial
      | exact hblock _ rfl
      | exact hsuper _ rfl
      | exact htop _ rfl
      | exact hpair _ _ rfl
      | exact hfirst _ _ rfl

theorem Inv.no_fault (hi : Inv Λ s) (hn : ¬ Race s t) : ¬ Faults (slab Tid Λ) s t := by
  obtain ⟨ho, g, hr, ht⟩ := hi
  have hlock (p' : Pc Tid) (ℓ : LockId Tid)
      (hi : instr t (s.pc t) = .get ℓ p' ∨ instr t (s.pc t) = .drop ℓ p') :
      LockMapped s.mem ℓ := (ht.loc t).lock_mapped hr hi
  intro hf
  unfold Faults at hf
  cases h : instr t (s.pc t) with
  | get ℓ p =>
    have : (slab Tid Λ).instr t (s.pc t) = .get ℓ p := h
    rw [this] at hf
    exact hf (hlock p ℓ (Or.inl h))
  | drop ℓ p =>
    have : (slab Tid Λ).instr t (s.pc t) = .drop ℓ p := h
    rw [this] at hf
    exact hf (hlock p ℓ (Or.inr h))
  | code =>
    have : (slab Tid Λ).instr t (s.pc t) = .code := h
    rw [this] at hf
    obtain ⟨e, he, hc⟩ := hf
    obtain ⟨m', p', g', heq, -⟩ := good_code hr ht ho hn h he
    have := heq.symm.trans hc
    cases this

theorem Inv.runs (h₀ : Initial s₀) (hr : Runs (slab Tid Λ) (fun s t => ¬ Race s t) s₀ s) :
    Inv Λ s :=
  hr.invariant h₀.inv fun _ _ _ => Inv.step

/-! ### The log -/

theorem Initial.logOk (h : Initial s) : LogOk s.mem := by
  refine ⟨fun v => ?_, fun x => ?_⟩
  · rw [h.log, h.live]
    rfl
  · rw [h.log, h.held]
    rfl

theorem LogOk.sysAlloc {m : Mem Tid} (hl : LogOk m) {x : ℕ} (hx : x ∉ m.held) {m' : Mem Tid}
    (hheld : m'.held = x :: m.held) (hlive : m'.live = m.live)
    (hlog : m'.log = m.log ++ [.sysAlloc x]) :
    LogOk m' := by
  refine ⟨fun v => ?_, fun y => ?_⟩
  · rw [hlive, hlog]
    exact (hl.vma v).snoc_other rfl rfl
  · rw [hheld, hlog]
    refine (hl.superblock y).snoc ?_
    by_cases hy : x = y
    · subst hy
      simp [turn, Event.sysAllocates, hx]
    · simp [turn, Event.sysAllocates, Event.sysFrees, hy, Ne.symm hy]

theorem LogOk.sysFree {m : Mem Tid} (hl : LogOk m) {x : ℕ} (hnd : m.held.Nodup) (hx : x ∈ m.held) :
    LogOk { m with held := m.held.erase x, log := m.log ++ [.sysFree x] } := by
  refine ⟨fun v => (hl.vma v).snoc_other rfl rfl, fun y => (hl.superblock y).snoc ?_⟩
  by_cases hy : x = y
  · subst hy
    simp [turn, Event.sysAllocates, Event.sysFrees, hx, hnd.mem_erase_iff]
  · simp [turn, Event.sysAllocates, Event.sysFrees, hy, hnd.mem_erase_iff, Ne.symm hy]

theorem LogOk.allocReturn {m : Mem Tid} (hl : LogOk m) {r : Option ℕ}
    (hr : ∀ v, r = some v → v ∉ m.live) :
    LogOk (allocReturn t m r) := by
  refine ⟨fun v => (hl.vma v).snoc ?_, fun y => (hl.superblock y).snoc_other rfl rfl⟩
  cases r with
  | none => rfl
  | some w =>
    have hw := hr w rfl
    by_cases hv : w = v
    · subst hv
      simp [turn, Event.allocates, OpenOOC.Vma.allocReturn, hw]
    · simp [turn, Event.allocates, Event.frees, OpenOOC.Vma.allocReturn, hv, Ne.symm hv]

theorem LogOk.freeCall {m : Mem Tid} (hl : LogOk m) {w : ℕ} (hnd : m.live.Nodup) (hw : w ∈ m.live) :
    LogOk (freeCall t m w).1 := by
  refine ⟨fun v => (hl.vma v).snoc ?_, fun y => (hl.superblock y).snoc_other rfl rfl⟩
  by_cases hv : w = v
  · subst hv
    simp [turn, Event.allocates, Event.frees, OpenOOC.Vma.freeCall, hw, hnd.mem_erase_iff]
  · simp [turn, Event.allocates, Event.frees, OpenOOC.Vma.freeCall, hv, hnd.mem_erase_iff,
      Ne.symm hv]

theorem LogOk.unseen {m m' : Mem Tid} (hl : LogOk m) (h : m.Unseen m') : LogOk m' :=
  ⟨fun v => by rw [h.log, h.live]; exact hl.vma v,
    fun x => by rw [h.log, h.held]; exact hl.superblock x⟩

theorem LogOk.step (hl : LogOk s.mem) (hi : Inv Λ s) (hs : Step (slab Tid Λ) s t s') :
    LogOk s'.mem := by
  obtain ⟨ho, g, hr, ht⟩ := hi
  cases hs with
  | get h hfree => exact hl
  | drop h => exact hl
  | @code e m p h he hc =>
    change LogOk m
    change InputOk (s.pc t) s.mem e at he
    change code Λ t (s.pc t) s.mem e = some (m, p) at hc
    by_cases hv : (s.pc t).Visible
    swap
    · exact hl.unseen (code_unseen hv hc)
    have hloc := ht.loc t
    cases hp : s.pc t <;> rw [hp] at hv he hc hloc <;> try exact hv.elim
    case idle =>
      cases e with
      | callAlloc =>
        cases hc
        exact hl
      | callFree w =>
        cases hc
        exact hl.freeCall (t := t) ht.nodup he
      | _ => cases hc
    case allocReturn r =>
      cases hc
      exact hl.allocReturn fun v hv => (hloc.flight v hv).2.2.2
    case stealFind =>
      cases e with
      | sysAlloc r =>
        simp only [code, stealFind, Option.some.injEq] at hc
        split at hc
        · cases hc
          exact hl
        · split at hc
          · cases hc
            exact hl
          · rename_i x
            cases hc
            have hf : Fresh s.mem x := he x rfl
            have hx : x ∉ s.mem.held := fun hx => by
              rcases hf.2 x hx with h | h <;> simp only [superblock_size] at h <;> omega
            rw [newSuperblock_eq Λ.fits s.mem hf.1]
            exact hl.sysAlloc hx rfl rfl rfl
      | _ => cases hc
    case putSysFree x =>
      simp only [code, putSysFree, Option.bind_eq_bind, Option.bind_eq_some_iff, Option.pure_def]
        at hc
      obtain ⟨_, hx, hc⟩ := hc
      cases hc
      have hx' : x ∈ s.mem.held := by
        by_contra hn
        simp [guard, hn] at hx
      exact hl.sysFree hr.held.nodup hx'

end OpenOOC.Vma
