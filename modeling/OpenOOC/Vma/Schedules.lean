import OpenOOC.Lib.LockTrace
import OpenOOC.Vma.Setup

/-! Runs of the slab that are given step by step, and can be computed. -/

namespace OpenOOC.Vma

open LockMachine

variable {Tid : Type} [DecidableEq Tid] {Λ : Layout} {t : Tid} {i : Input}

instance (m : Mem Tid) (s : ℕ) : Decidable (Fresh m s) := inferInstanceAs (Decidable (_ ∧ _))

def inputOk (p : Pc Tid) (m : Mem Tid) (i : Input) : Bool :=
  match p, i with
  | .idle, .callAlloc => true
  | .idle, .callFree v => decide (v ∈ m.live)
  | .stealFind, .sysAlloc none => true
  | .stealFind, .sysAlloc (some s) => decide (Fresh m s)
  | .idle, _ => false
  | .stealFind, _ => false
  | _, .nothing => true
  | _, _ => false

omit [DecidableEq Tid] in
theorem InputOk.of_inputOk {p : Pc Tid} {m : Mem Tid} (h : inputOk p m i = true) :
    InputOk p m i := by
  unfold inputOk at h
  split at h
  case h_3 => nofun
  case h_4 => simpa [InputOk] using h
  case h_7 hidle hfind =>
    cases p <;> first | rfl | exact (hidle rfl).elim | exact (hfind rfl).elim
  all_goals simp_all [InputOk]

/-- `code`, with what setting up a superblock leaves in closed form. -/
def codeAt (Λ : Layout) (t : Tid) (p : Pc Tid) (m : Mem Tid) (i : Input) :
    Option (Mem Tid × Pc Tid) :=
  match p, i, m.gpoolHead with
  | .stealFind, .sysAlloc (some s), none => some ({ m with
      held := s :: m.held, log := m.log ++ [.sysAlloc s], gpoolHead := some s,
      superblock := Function.update m.superblock s ⟨0, some (s + BLOCK_SIZE), none, none⟩,
      block := fun x =>
        if AtBlock (s + BLOCK_SIZE) SUPERBLOCK_CTR_FULL x then
          { setupHeader Λ.toSizes s (s + BLOCK_SIZE) SUPERBLOCK_CTR_FULL x (m.block x) with
            prev := if x = s + BLOCK_SIZE then none else some (x - BLOCK_SIZE) }
        else m.block x,
      vmNext := fun x =>
        if AtSlot Λ.toSizes (s + BLOCK_SIZE) SUPERBLOCK_CTR_FULL x then
          slotNext Λ.toSizes (sVma2block x) x
        else m.vmNext x }, .stealGetSuperblock s)
  | _, _, _ => code Λ t p m i

theorem codeAt_eq {p : Pc Tid} {m : Mem Tid} (hi : inputOk p m i = true) :
    codeAt Λ t p m i = code Λ t p m i := by
  unfold codeAt
  split
  · rename_i s hg
    have hf : Fresh m s := by simpa [inputOk] using hi
    simp only [code, stealFind, hg, newSuperblock_eq Λ.fits m hf.1]
  · rfl

def computed (Tid : Type) [DecidableEq Tid] (Λ : Layout) : Computed (slab Tid Λ) :=
  ⟨inputOk, codeAt Λ, fun _ _ _ => InputOk.of_inputOk, fun _ _ _ _ => codeAt_eq⟩

theorem exec_any (s₀ : State Tid) (ok : State Tid → Tid → Bool) (l : List (Tid × Input))
    (P : State Tid → Bool) (h : ((computed Tid Λ).exec ok l s₀).any P = true) :
    ∃ s, Runs (slab Tid Λ) (fun s t => ok s t = true) s₀ s ∧ P s = true := by
  obtain ⟨_, s, hr, hs⟩ := Computed.exec_any (fun _ _ h => h) .start h
  exact ⟨s, hr.runs, hs⟩

/-! ### Two threads -/

def zeroState : State (Fin 2) where
  mem := ⟨fun _ => ⟨0, none, 0, none, none, none⟩, fun _ => ⟨0, none, none, none⟩, fun _ => none,
    none,
    fun _ => false, fun _ => none, [], [], []⟩
  lock := fun _ => none
  pc := fun _ => .idle

theorem zeroState_initial : Initial zeroState :=
  ⟨rfl, rfl, fun _ => rfl, fun _ => rfl, rfl, rfl, fun _ => rfl, fun _ => rfl⟩

def steps (t : Fin 2) (n : ℕ) : List (Fin 2 × Input) := List.replicate n (t, .nothing)

/-- Thread `t` calls `vma_alloc`, gets the superblock at `4096` from the system,
and returns the first struct of its first block, which is at `8256`. -/
def firstAlloc (t : Fin 2) : List (Fin 2 × Input) :=
  (t, .callAlloc) :: steps t 2 ++ (t, .sysAlloc (some 4096)) :: steps t 11

end OpenOOC.Vma
