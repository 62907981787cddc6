import OpenOOC.Vma.Rep

/-! The program points: the locks that a thread holds there, where the code leads,
and the block, the superblock and the struct that the thread is working on. -/

namespace OpenOOC.Vma

open LockMachine

variable {Tid : Type}

/-! ### Locks -/

/-- The locks that a thread holds. -/
def heldBy (t : Tid) : Pc Tid → List (LockId Tid)
  | .allocGetMpool b => [.block b]
  | .allocTake b => [.block b, .mpool t]
  | .allocGetMpoolNew b => [.block b]
  | .allocPush b => [.block b, .mpool t]
  | .allocLetMpool b _ => [.block b, .mpool t]
  | .allocLetBlock b _ => [.block b]
  | .stealFind => [.gpool]
  | .stealLetGpoolFail => [.gpool]
  | .stealGetSuperblock _ => [.gpool]
  | .stealRead s => [.gpool, .superblock s]
  | .stealGetBlock s _ => [.gpool, .superblock s]
  | .stealTake s b => [.gpool, .superblock s, .block b]
  | .stealLetSuperblock s b => [.gpool, .superblock s, .block b]
  | .stealLetGpool b => [.gpool, .block b]
  | .freePush b _ => [.block b]
  | .freeGetMpoolEmpty b _ => [.block b]
  | .freeUnlink b p => [.block b, .mpool p]
  | .freeLetMpoolEmpty b p => [.block b, .mpool p]
  | .freeGetMpoolFull b _ => [.block b]
  | .freePrepend b p => [.block b, .mpool p]
  | .freeLetMpoolFull b p => [.block b, .mpool p]
  | .freeCheck b => [.block b]
  | .freeLetBlock b => [.block b]
  | .returnRead b => [.block b]
  | .returnGetSuperblock b _ => [.block b]
  | .returnPush b s => [.block b, .superblock s]
  | .returnLetSuperblockEmpty b s => [.block b, .superblock s]
  | .returnLetBlockEmpty b _ => [.block b]
  | .returnGetGpool b s => [.block b, .superblock s]
  | .returnPrepend b s => [.block b, .superblock s, .gpool]
  | .returnLetGpool b s => [.block b, .superblock s, .gpool]
  | .returnCheck b s => [.block b, .superblock s]
  | .returnLetSuperblock b s => [.block b, .superblock s]
  | .returnLetBlock b _ => [.block b]
  | .putUnlink _ => [.gpool]
  | .putLetGpool _ => [.gpool]
  | .putLetGpoolStats _ => [.gpool]
  | _ => []

def Holds (t : Tid) (p : Pc Tid) (ℓ : LockId Tid) : Prop := ℓ ∈ heldBy t p

/-! ### What a thread works on -/

namespace Pc

def block : Pc Tid → Option ℕ
  | allocGetBlock b => some b
  | allocGetMpool b => some b
  | allocTake b => some b
  | allocGetMpoolNew b => some b
  | allocPush b => some b
  | allocLetMpool b _ => some b
  | allocLetBlock b _ => some b
  | allocReturn r => r.map sVma2block
  | stealLetSuperblock _ b => some b
  | stealLetGpool b => some b
  | freeGetBlock b _ => some b
  | freePush b _ => some b
  | freeGetMpoolEmpty b _ => some b
  | freeUnlink b _ => some b
  | freeLetMpoolEmpty b _ => some b
  | freeGetMpoolFull b _ => some b
  | freePrepend b _ => some b
  | freeLetMpoolFull b _ => some b
  | freeCheck b => some b
  | freeLetBlock b => some b
  | returnRead b => some b
  | returnGetSuperblock b _ => some b
  | returnPush b _ => some b
  | returnLetSuperblockEmpty b _ => some b
  | returnLetBlockEmpty b _ => some b
  | returnGetGpool b _ => some b
  | returnPrepend b _ => some b
  | returnLetGpool b _ => some b
  | returnCheck b _ => some b
  | returnLetSuperblock b _ => some b
  | returnLetBlock b _ => some b
  | _ => none

/-- Where that block is, and how many of its structs are free. -/
def BlockOk (t : Tid) : Pc Tid → Place Tid → ℕ → Prop
  | allocGetBlock _, q, _ => q = .pooled t ∨ q = .emptied t
  | allocGetMpool _, q, _ => q = .pooled t
  | allocTake _, q, _ => q = .pooled t
  | allocGetMpoolNew _, q, _ => q = .stolen
  | allocPush _, q, _ => q = .stolen
  | allocLetMpool _ _, q, _ => q.owner = some t
  | allocLetBlock _ _, q, _ => q.owner = some t
  | allocReturn _, q, _ => q.owner = some t
  | stealLetSuperblock _ _, q, _ => q = .stolen
  | stealLetGpool _, q, _ => q = .stolen
  | freePush _ _, q, _ => ∃ p, q = .pooled p ∨ q = .full p
  | freeGetMpoolEmpty _ p, q, _ => q = .emptied p
  | freeUnlink _ p, q, _ => q = .emptied p
  | freeLetMpoolEmpty _ _, q, _ => q = .returning
  | freeGetMpoolFull _ p, q, _ => q = .refilled p
  | freePrepend _ p, q, _ => q = .refilled p
  | freeLetMpoolFull _ _, q, k => q ≠ .free ∧ k = 1
  | freeCheck _, q, k => q ≠ .free ∧ k = 1
  | freeLetBlock _, q, _ => q ≠ .free
  | returnRead _, q, _ => q = .returning
  | returnGetSuperblock _ _, q, _ => q = .returning
  | returnPush _ _, q, _ => q = .returning
  | returnLetSuperblockEmpty _ _, q, _ => q = .free
  | returnLetBlockEmpty _ _, q, _ => q = .free
  | returnGetGpool _ _, q, _ => q = .free
  | returnPrepend _ _, q, _ => q = .free
  | returnLetGpool _ _, q, _ => q = .free
  | returnCheck _ _, q, _ => q = .free
  | returnLetSuperblock _ _, q, _ => q = .free
  | returnLetBlock _ _, q, _ => q = .free
  | _, _, _ => True

def super : Pc Tid → Option ℕ
  | stealRead s => some s
  | stealGetBlock s _ => some s
  | stealTake s _ => some s
  | stealLetSuperblock s _ => some s
  | returnPush _ s => some s
  | returnLetSuperblockEmpty _ s => some s
  | returnLetBlockEmpty _ s => some s
  | returnGetGpool _ s => some s
  | returnPrepend _ s => some s
  | returnLetGpool _ s => some s
  | returnCheck _ s => some s
  | returnLetSuperblock _ s => some s
  | putGetGpool s => some s
  | putUnlink s => some s
  | putLetGpool s => some s
  | putLetSuperblock s => some s
  | putDestroy s => some s
  | putGetGpoolStats s => some s
  | putLetGpoolStats s => some s
  | putSysFree s => some s
  | _ => none

/-- How far that superblock is, and how many of its blocks are stolen. -/
def SuperOk : Pc Tid → Stage → ℕ → Prop
  | stealRead _, σ, _ => σ = .fresh ∨ σ = .listed
  | stealGetBlock _ _, σ, _ => σ = .fresh ∨ σ = .listed
  | stealTake _ _, σ, _ => σ = .fresh ∨ σ = .listed
  | stealLetSuperblock _ _, σ, _ => σ = .listed ∨ σ = .off
  | returnPush _ _, σ, _ => σ = .listed ∨ σ = .off
  | returnLetSuperblockEmpty _ _, σ, _ => σ = .putting
  | returnLetBlockEmpty _ _, σ, _ => σ = .putting
  | returnGetGpool _ _, σ, _ => σ = .relist
  | returnPrepend _ _, σ, _ => σ = .relist
  | returnLetGpool _ _, σ, k => σ = .listed ∧ k + 1 = SUPERBLOCK_CTR_FULL
  | returnCheck _ _, σ, k => σ = .listed ∧ k + 1 = SUPERBLOCK_CTR_FULL
  | returnLetSuperblock _ _, σ, _ => σ = .listed
  | putGetGpool _, σ, _ => σ = .putting
  | putUnlink _, σ, _ => σ = .putting
  | putLetGpool _, σ, _ => σ = .detached
  | putLetSuperblock _, σ, _ => σ = .detached
  | putDestroy _, σ, _ => σ = .detached
  | putGetGpoolStats _, σ, _ => σ = .detached
  | putLetGpoolStats _, σ, _ => σ = .detached
  | putSysFree _, σ, _ => σ = .detached
  | _, _, _ => True

def pair : Pc Tid → Option (ℕ × ℕ)
  | stealLetSuperblock s b => some (b, s)
  | returnGetSuperblock b s => some (b, s)
  | returnPush b s => some (b, s)
  | returnLetSuperblockEmpty b s => some (b, s)
  | returnLetBlockEmpty b s => some (b, s)
  | returnGetGpool b s => some (b, s)
  | returnPrepend b s => some (b, s)
  | returnLetGpool b s => some (b, s)
  | returnCheck b s => some (b, s)
  | returnLetSuperblock b s => some (b, s)
  | returnLetBlock b s => some (b, s)
  | _ => none

def flight : Pc Tid → Option ℕ
  | allocLetMpool _ v => some v
  | allocLetBlock _ v => some v
  | allocReturn r => r
  | freeGetBlock _ v => some v
  | freePush _ v => some v
  | _ => none

/-- The superblock at the front of the global list. -/
def top : Pc Tid → Option ℕ
  | stealGetSuperblock s => some s
  | stealRead s => some s
  | stealGetBlock s _ => some s
  | stealTake s _ => some s
  | _ => none

def first : Pc Tid → Option (ℕ × ℕ)
  | stealGetBlock s b => some (s, b)
  | stealTake s b => some (s, b)
  | _ => none

/-- The thread fills its own pool, which it has initialised. -/
def Fills : Pc Tid → Prop
  | stealGetGpool => True
  | stealFind => True
  | stealGetSuperblock _ => True
  | stealRead _ => True
  | stealGetBlock _ _ => True
  | stealTake _ _ => True
  | stealLetSuperblock _ _ => True
  | stealLetGpool _ => True
  | allocGetMpoolNew _ => True
  | allocPush _ => True
  | _ => False

def moves : Pc Tid → Option ℕ
  | allocGetMpoolNew b => some b
  | allocPush b => some b
  | stealLetSuperblock _ b => some b
  | stealLetGpool b => some b
  | freeGetMpoolEmpty b _ => some b
  | freeUnlink b _ => some b
  | freeLetMpoolEmpty b _ => some b
  | freeGetMpoolFull b _ => some b
  | freePrepend b _ => some b
  | returnRead b => some b
  | returnGetSuperblock b _ => some b
  | returnPush b _ => some b
  | _ => none

def puts : Pc Tid → Option ℕ
  | returnLetSuperblockEmpty _ s => some s
  | returnLetBlockEmpty _ s => some s
  | putGetGpool s => some s
  | putUnlink s => some s
  | putLetGpool s => some s
  | putLetSuperblock s => some s
  | putDestroy s => some s
  | putGetGpoolStats s => some s
  | putLetGpoolStats s => some s
  | putSysFree s => some s
  | _ => none

def relists : Pc Tid → Option ℕ
  | returnGetGpool _ s => some s
  | returnPrepend _ s => some s
  | _ => none

section

variable {t : Tid} {p p' : Pc Tid} {b s : ℕ} {ℓ : LockId Tid}

attribute [local simp] Holds heldBy BlockOk SuperOk flight pair super puts relists

theorem moves_holds (h : p.moves = some b) : Holds t p (.block b) := by
  cases p <;> cases h <;> simp

/-- A thread that works on a block without its lock is about to get the lock, or
has let it go to return a struct. -/
theorem block_holds (h : p.block = some b) : Holds t p (.block b) ∨ p = .allocGetBlock b ∨
    (∃ v, p = .freeGetBlock b v) ∨ ∃ v, p = .allocReturn (some v) ∧ sVma2block v = b := by
  cases p with
  | allocReturn r =>
    obtain ⟨v, rfl, hv⟩ := Option.map_eq_some_iff.mp h
    exact Or.inr (Or.inr (Or.inr ⟨v, rfl, hv⟩))
  | _ => cases h <;> simp

theorem super_holds (h : p.super = some s) : Holds t p (.superblock s) ∨ p.puts = some s := by
  cases p <;> cases h <;> simp

theorem holds_super (h : Holds t p (.superblock s)) : p.super = some s := by
  cases p <;> simp at h ⊢ <;> exact h.symm

theorem puts_super (h : p.puts = some s) : p.super = some s := by
  cases p <;> cases h <;> rfl

theorem pair_block (h : p.pair = some (b, s)) : p.block = some b := by
  cases p <;> cases h <;> rfl

/-- A thread whose block is free has a struct of it, or has just returned it. -/
theorem block_free {k : ℕ} (h : p.block = some b) (hok : p.BlockOk t .free k) :
    (∃ v, p.flight = some v) ∨ ∃ s, p.pair = some (b, s) ∧
      (p.super = some s ∨ p = .returnLetBlock b s) := by
  cases p with
  | allocReturn r =>
    obtain ⟨v, rfl, -⟩ := Option.map_eq_some_iff.mp h
    exact Or.inl ⟨v, rfl⟩
  | _ => cases h <;> simp_all

/-- A superblock that is given back is worked on by the threads that do so, and
no other superblock is. -/
theorem puts_iff {σ : Stage} {k : ℕ} (h : p.super = some s) (hs : p.SuperOk σ k) :
    p.puts = some s ↔ σ = .putting ∨ σ = .detached := by
  cases p <;> cases h <;> simp_all <;> grind

theorem top_holds (h : p.top = some s) : Holds t p .gpool := by
  cases p <;> cases h <;> simp

theorem first_holds (h : p.first = some (s, b)) : Holds t p .gpool ∧ Holds t p (.superblock s) := by
  cases p <;> cases h <;> simp

theorem top_cases (h : p.top = some s) : p = .stealGetSuperblock s ∨ Holds t p (.superblock s) := by
  cases p <;> cases h <;> simp

theorem relists_holds (h : p.relists = some s) : Holds t p (.superblock s) := by
  cases p <;> cases h <;> simp

end

end Pc

/-! ### Where code leads -/

/-- The points that the code at a point can lead to. A superblock is given back
only after its last stolen block has been returned. -/
inductive Next (m : Mem Tid) : Pc Tid → Pc Tid → Prop
  | callAlloc : Next m .idle .allocRead
  | callFree (v : ℕ) : Next m .idle (.freeGetBlock (sVma2block v) v)
  | readNone : Next m .allocRead .stealGetGpool
  | readSome (b : ℕ) : Next m .allocRead (.allocGetBlock b)
  | take (b v : ℕ) : Next m (.allocTake b) (.allocLetMpool b v)
  | push (b v : ℕ) : Next m (.allocPush b) (.allocLetMpool b v)
  | ret (r : Option ℕ) : Next m (.allocReturn r) .idle
  | findNone : Next m .stealFind .stealLetGpoolFail
  | find (s : ℕ) : Next m .stealFind (.stealGetSuperblock s)
  | stealRead (s b : ℕ) : Next m (.stealRead s) (.stealGetBlock s b)
  | stealTake (s b : ℕ) : Next m (.stealTake s b) (.stealLetSuperblock s b)
  | fileEmpty (b v : ℕ) (p : Tid) : Next m (.freePush b v) (.freeGetMpoolEmpty b p)
  | fileFull (b v : ℕ) (p : Tid) : Next m (.freePush b v) (.freeGetMpoolFull b p)
  | file (b v : ℕ) : Next m (.freePush b v) (.freeLetBlock b)
  | unlink (b : ℕ) (p : Tid) : Next m (.freeUnlink b p) (.freeLetMpoolEmpty b p)
  | prepend (b : ℕ) (p : Tid) : Next m (.freePrepend b p) (.freeLetMpoolFull b p)
  | check (b : ℕ) : Next m (.freeCheck b) (.freeLetBlock b)
  | returnRead (b s : ℕ) : Next m (.returnRead b) (.returnGetSuperblock b s)
  | returnEmpty (b s : ℕ) (h : (m.superblock s).bctr = 1) :
      Next m (.returnPush b s) (.returnLetSuperblockEmpty b s)
  | returnFull (b s : ℕ) : Next m (.returnPush b s) (.returnGetGpool b s)
  | return (b s : ℕ) : Next m (.returnPush b s) (.returnLetSuperblock b s)
  | returnPrepend (b s : ℕ) : Next m (.returnPrepend b s) (.returnLetGpool b s)
  | returnCheck (b s : ℕ) : Next m (.returnCheck b s) (.returnLetSuperblock b s)
  | putUnlink (s : ℕ) : Next m (.putUnlink s) (.putLetGpool s)
  | putDestroy (s : ℕ) : Next m (.putDestroy s) (.putGetGpoolStats s)
  | putSysFree (s : ℕ) : Next m (.putSysFree s) .idle

theorem heldBy_next {m : Mem Tid} {p p' : Pc Tid} (t : Tid) (h : Next m p p') :
    heldBy t p' = heldBy t p := by
  cases h <;> rfl

section

variable {m m' : Mem Tid} {b s v : ℕ} {p' : Pc Tid}

theorem freePush_next (h : freePush m b v = some (m', p')) : Next m (.freePush b v) p' := by
  simp only [freePush, Option.bind_eq_bind, Option.bind_eq_some_iff, Option.pure_def] at h
  obtain ⟨B, -, m1, -, m2, -, h⟩ := h
  split_ifs at h
  · obtain ⟨p, -, h⟩ := Option.bind_eq_some_iff.mp h
    cases h
    exact .fileEmpty b v p
  · obtain ⟨p, -, h⟩ := Option.bind_eq_some_iff.mp h
    cases h
    exact .fileFull b v p
  · cases h
    exact .file b v

theorem stealTake_next (h : stealTake m s b = some (m', p')) : Next m (.stealTake s b) p' := by
  simp only [stealTake, Option.bind_eq_bind, Option.bind_eq_some_iff, Option.pure_def] at h
  obtain ⟨B, -, m1, -, m2, -, m3, -, S, -, h⟩ := h
  split_ifs at h
  · simp only [Option.bind_eq_some_iff] at h
    obtain ⟨_, -, _, -, h⟩ := h
    cases h
    exact .stealTake s b
  · cases h
    exact .stealTake s b

theorem decr_eq_zero {n : ℕ} (h : decr n = 0) : n = 1 := by
  unfold decr at h
  split_ifs at h
  omega

theorem returnPush_next (h : returnPush m b s = some (m', p')) : Next m (.returnPush b s) p' := by
  simp only [returnPush, Option.bind_eq_bind, Option.bind_eq_some_iff, Option.pure_def] at h
  obtain ⟨S, hS, m1, -, m2, -, m3, -, h⟩ := h
  split_ifs at h with h0
  · cases h
    refine .returnEmpty b s ?_
    simp only [Mem.getSuperblock, Option.ite_none_right_eq_some, Option.some.injEq] at hS
    exact hS.2 ▸ decr_eq_zero h0
  · cases h
    exact .returnFull b s
  · cases h
    exact .return b s

end

variable [DecidableEq Tid] {Λ : Layout} {t : Tid} {m m' : Mem Tid} {p p' : Pc Tid} {i : Input}

theorem allocTake_pc {b : ℕ} (h : allocTake Λ t m b = some (m', p')) :
    ∃ v, p' = .allocLetMpool b v := by
  simp only [allocTake, Option.bind_eq_bind, Option.bind_eq_some_iff, Option.pure_def] at h
  obtain ⟨B, -, v, -, n, -, m1, -, h⟩ := h
  refine ⟨v, ?_⟩
  split_ifs at h
  · simp only [Option.bind_eq_some_iff] at h
    obtain ⟨_, -, _, -, h⟩ := h
    cases h
    rfl
  · cases h
    rfl

attribute [local simp] code allocRead returnRead returnCheck putSysFree

theorem code_next (h : code Λ t p m i = some (m', p')) : Next m p p' := by
  cases p <;> simp only [code, reduceCtorEq] at h
  case idle =>
    cases i <;> cases h
    · exact .callAlloc
    · exact .callFree _
  case allocRead =>
    simp only [allocRead, Option.some.injEq] at h
    split at h <;> cases h
    · exact .readNone
    · exact .readSome _
  case allocTake b =>
    obtain ⟨v, rfl⟩ := allocTake_pc h
    exact .take b v
  case allocPush b =>
    simp only [allocPush, Option.bind_eq_bind, Option.bind_eq_some_iff] at h
    obtain ⟨m1, -, h⟩ := h
    obtain ⟨v, rfl⟩ := allocTake_pc h
    exact .push b v
  case allocReturn r =>
    cases h
    exact .ret r
  case stealFind =>
    cases i <;> simp only [stealFind, reduceCtorEq, Option.some.injEq] at h
    split at h
    · cases h
      exact .find _
    · split at h <;> cases h
      · exact .findNone
      · exact .find _
  case stealRead s =>
    simp only [stealRead, Option.map_eq_some_iff, Option.bind_eq_bind, Option.bind_eq_some_iff,
      Option.pure_def] at h
    obtain ⟨_, ⟨S, -, b, -, h'⟩, h⟩ := h
    cases h'
    cases h
    exact .stealRead s b
  case stealTake s b => exact stealTake_next h
  case freePush b v => exact freePush_next h
  case freeUnlink b q =>
    simp only [freeUnlink, Option.bind_eq_bind, Option.bind_eq_some_iff, Option.pure_def] at h
    obtain ⟨_, -, _, -, _, -, _, -, h⟩ := h
    cases h
    exact .unlink b q
  case freePrepend b q =>
    simp only [freePrepend, Option.bind_eq_bind, Option.bind_eq_some_iff, Option.pure_def] at h
    obtain ⟨_, -, _, -, h⟩ := h
    cases h
    exact .prepend b q
  case freeCheck b =>
    simp only [freeCheck, Option.map_eq_some_iff, Option.bind_eq_bind, Option.bind_eq_some_iff,
      Option.pure_def] at h
    obtain ⟨_, ⟨_, -, _, -, h'⟩, h⟩ := h
    cases h'
    cases h
    exact .check b
  case returnRead b =>
    simp only [returnRead, Option.map_eq_some_iff, Option.bind_eq_bind, Option.bind_eq_some_iff,
      Option.pure_def] at h
    obtain ⟨_, ⟨_, -, h'⟩, h⟩ := h
    cases h'
    cases h
    exact .returnRead b _
  case returnPush b s => exact returnPush_next h
  case returnPrepend b s =>
    simp only [returnPrepend, Option.bind_eq_bind, Option.bind_eq_some_iff, Option.pure_def] at h
    obtain ⟨_, -, _, -, h⟩ := h
    cases h
    exact .returnPrepend b s
  case returnCheck b s =>
    simp only [returnCheck, Option.map_eq_some_iff, Option.bind_eq_bind, Option.bind_eq_some_iff,
      Option.pure_def] at h
    obtain ⟨_, ⟨_, -, _, -, h'⟩, h⟩ := h
    cases h'
    cases h
    exact .returnCheck b s
  case putUnlink s =>
    simp only [putUnlink, Option.bind_eq_bind, Option.bind_eq_some_iff, Option.pure_def] at h
    obtain ⟨_, -, _, -, _, -, _, -, h⟩ := h
    cases h
    exact .putUnlink s
  case putDestroy s =>
    simp only [putDestroy, Option.bind_eq_bind, Option.bind_eq_some_iff, Option.pure_def] at h
    obtain ⟨_, -, h⟩ := h
    cases h
    exact .putDestroy s
  case putSysFree s =>
    simp only [putSysFree, Option.bind_eq_bind, Option.bind_eq_some_iff, Option.pure_def] at h
    obtain ⟨_, -, h⟩ := h
    cases h
    exact .putSysFree s

theorem slab_disciplined (Tid : Type) [DecidableEq Tid] (Λ : Layout) :
    Disciplined (slab Tid Λ) Holds := by
  refine ⟨fun t p ℓ p' hi k => ?_, fun t p ℓ p' hi k => ?_, fun t p m e m' p' _ hc k => ?_⟩
  · cases p <;> cases hi <;> simp [Holds, heldBy, or_comm, or_left_comm]
  · cases p <;> cases hi <;> simp [Holds, heldBy] <;> grind
  · unfold Holds
    rw [heldBy_next t (code_next hc)]

end OpenOOC.Vma
