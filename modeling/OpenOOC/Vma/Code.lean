import OpenOOC.Common
import OpenOOC.Lib.LockMachine

/-! `vma_alloc.c`, cut at its lock operations: each program point is a `LOCK_GET`,
a `LOCK_LET`, or the code up to the next one. The wait counters and the debug
output are left out; initialising or destroying a lock does nothing, as such a
lock is free. -/

namespace OpenOOC.Vma

open LockMachine

/-! ### Constants and records -/

def SUPERBLOCK_SIZE : ℕ := 262144

structure Sizes where
  block : ℕ
  vmArea : ℕ

def BLOCK_CTR_FULL (sz : Sizes) : ℕ := (BLOCK_SIZE - sz.block) / sz.vmArea

def SUPERBLOCK_CTR_FULL : ℕ := (SUPERBLOCK_SIZE - BLOCK_SIZE) / BLOCK_SIZE

/-- Sizes that leave room for two structs in a block. -/
structure Layout extends Sizes where
  vmArea_pos : 0 < vmArea
  two_le : 2 ≤ BLOCK_CTR_FULL toSizes

/-- The sizes on a 64-bit system whose lock fits into a word. -/
def lp64 : Layout := ⟨⟨64, 72⟩, by decide, by decide⟩

structure Block (Tid : Type) where
  vctr : ℕ
  head : Option ℕ
  superblock : ℕ
  mpool : Option Tid
  prev : Option ℕ
  next : Option ℕ

structure Superblock where
  bctr : ℕ
  head : Option ℕ
  prev : Option ℕ
  next : Option ℕ

inductive Event (Tid : Type)
  | alloc (t : Tid) (vma : Option ℕ)
  | free (t : Tid) (vma : ℕ)
  | sysAlloc (superblock : ℕ)
  | sysFree (superblock : ℕ)
  deriving DecidableEq

/-- Memory as addresses of records, the pools, the superblocks that are held from
the system, and the live structs with all that has happened. Of a struct that is
in a list only `vm_next` matters. -/
structure Mem (Tid : Type) where
  block : ℕ → Block Tid
  superblock : ℕ → Superblock
  vmNext : ℕ → Option ℕ
  gpoolHead : Option ℕ
  init : Tid → Bool
  mpoolHead : Tid → Option ℕ
  held : List ℕ
  live : List ℕ
  log : List (Event Tid)

inductive LockId (Tid : Type)
  | gpool
  | superblock (s : ℕ)
  | block (b : ℕ)
  | mpool (t : Tid)
  deriving DecidableEq

variable {Tid : Type} [DecidableEq Tid]

namespace Mem

variable (m : Mem Tid)

/-- The address lies in a superblock that is held from the system. -/
def Mapped (a : ℕ) : Prop := ∃ s ∈ m.held, s ≤ a ∧ a < s + SUPERBLOCK_SIZE

instance (a : ℕ) : Decidable (m.Mapped a) := inferInstanceAs (Decidable (∃ s ∈ m.held, _))

def getBlock (b : ℕ) : Option (Block Tid) := if m.Mapped b then some (m.block b) else none

def setBlock (b : ℕ) (f : Block Tid → Block Tid) : Option (Mem Tid) :=
  if m.Mapped b then some { m with block := Function.update m.block b (f (m.block b)) } else none

def setBlockIf (p : Option ℕ) (f : Block Tid → Block Tid) : Option (Mem Tid) :=
  match p with
  | none => some m
  | some b => m.setBlock b f

def getSuperblock (s : ℕ) : Option Superblock := if m.Mapped s then some (m.superblock s) else none

def setSuperblock (s : ℕ) (f : Superblock → Superblock) : Option (Mem Tid) :=
  if m.Mapped s then
    some { m with superblock := Function.update m.superblock s (f (m.superblock s)) }
  else none

def setSuperblockIf (p : Option ℕ) (f : Superblock → Superblock) : Option (Mem Tid) :=
  match p with
  | none => some m
  | some s => m.setSuperblock s f

def getVma (v : ℕ) : Option (Option ℕ) := if m.Mapped v then some (m.vmNext v) else none

def setVma (v : ℕ) (p : Option ℕ) : Option (Mem Tid) :=
  if m.Mapped v then some { m with vmNext := Function.update m.vmNext v p } else none

@[simps -fullyApplied] def setMpoolHead (t : Tid) (p : Option ℕ) : Mem Tid :=
  { m with mpoolHead := Function.update m.mpoolHead t p }

end Mem

/-! ### Superblocks -/

def sVma2block (vma : ℕ) : ℕ := vma / BLOCK_SIZE * BLOCK_SIZE

/-- The inner loop of `S_superblock_list_setup`, with the steps to go. -/
def setupVmas (sz : Sizes) : ℕ → ℕ → (ℕ → Option ℕ) → ℕ → Option ℕ
  | 0, vma, vmNext => Function.update vmNext vma none
  | k + 1, vma, vmNext =>
    setupVmas sz k (vma + sz.vmArea) (Function.update vmNext vma (some (vma + sz.vmArea)))

/-- One round of the outer loop of `S_superblock_list_setup`; `next` is where the
following block lies, if there is one. -/
def setupBlock (sz : Sizes) (s b : ℕ) (next : Option ℕ) (m : Mem Tid) : Mem Tid :=
  let blk := Function.update m.block b { m.block b with
    vctr := 0, head := some (b + sz.block), superblock := s, next := next }
  { m with
    block := match next with
      | none => blk
      | some c => Function.update blk c { blk c with prev := some b }
    vmNext := setupVmas sz (BLOCK_CTR_FULL sz - 1) (b + sz.block) m.vmNext }

/-- The outer loop of `S_superblock_list_setup`, with the rounds to go. -/
def setupBlocks (sz : Sizes) (s : ℕ) : ℕ → ℕ → Mem Tid → Mem Tid
  | 0, _, m => m
  | 1, b, m => setupBlock sz s b none m
  | k + 2, b, m =>
    setupBlocks sz s (k + 1) (b + BLOCK_SIZE) (setupBlock sz s b (some (b + BLOCK_SIZE)) m)

def sSuperblockListSetup (sz : Sizes) (s : ℕ) (m : Mem Tid) : Mem Tid :=
  let b := s + BLOCK_SIZE
  let m := { m with
    superblock := Function.update m.superblock s { m.superblock s with head := some b } }
  let m := { m with block := Function.update m.block b { m.block b with prev := none } }
  setupBlocks sz s SUPERBLOCK_CTR_FULL b m

def destroyBlock (sz : Sizes) (b : ℕ) (next : Option ℕ) (m : Mem Tid) : Mem Tid :=
  { m with block :=
      Function.update m.block b { m.block b with head := some (b + sz.block), next := next } }

def destroyBlocks (sz : Sizes) : ℕ → ℕ → Mem Tid → Mem Tid
  | 0, _, m => m
  | 1, b, m => destroyBlock sz b none m
  | k + 2, b, m =>
    destroyBlocks sz (k + 1) (b + BLOCK_SIZE) (destroyBlock sz b (some (b + BLOCK_SIZE)) m)

def sSuperblockListDestroy (sz : Sizes) (s : ℕ) (m : Mem Tid) : Mem Tid :=
  let b := s + BLOCK_SIZE
  let m := { m with
    superblock := Function.update m.superblock s { m.superblock s with head := some b } }
  destroyBlocks sz SUPERBLOCK_CTR_FULL b m

/-- `S_superblock_get_and_lock` after `CALL_SYS_ALLOC` has returned `s`. -/
def newSuperblock (sz : Sizes) (s : ℕ) (m : Mem Tid) : Mem Tid :=
  let m : Mem Tid :=
    { m with held := s :: m.held, log := m.log ++ [.sysAlloc s], gpoolHead := some s }
  let S := { m.superblock s with prev := none, next := none, bctr := 0 }
  let m := { m with superblock := Function.update m.superblock s S }
  sSuperblockListSetup sz s m

/-! ### Program points -/

/-- Where a thread is. `Get` and `Let` points are a `LOCK_GET` and a `LOCK_LET`;
the others are the code up to the next lock operation. -/
inductive Pc (Tid : Type)
  | idle
  -- `vma_alloc`
  | allocRead
  | allocGetBlock (b : ℕ)
  | allocGetMpool (b : ℕ)
  | allocTake (b : ℕ)
  | allocGetMpoolNew (b : ℕ)
  | allocPush (b : ℕ)
  | allocLetMpool (b v : ℕ)
  | allocLetBlock (b v : ℕ)
  | allocReturn (r : Option ℕ)
  -- `S_block_steal_and_lock`, `S_superblock_get_and_lock`
  | stealGetGpool
  | stealFind
  | stealLetGpoolFail
  | stealGetSuperblock (s : ℕ)
  | stealRead (s : ℕ)
  | stealGetBlock (s b : ℕ)
  | stealTake (s b : ℕ)
  | stealLetSuperblock (s b : ℕ)
  | stealLetGpool (b : ℕ)
  -- `vma_free`
  | freeGetBlock (b v : ℕ)
  | freePush (b v : ℕ)
  | freeGetMpoolEmpty (b : ℕ) (p : Tid)
  | freeUnlink (b : ℕ) (p : Tid)
  | freeLetMpoolEmpty (b : ℕ) (p : Tid)
  | freeGetMpoolFull (b : ℕ) (p : Tid)
  | freePrepend (b : ℕ) (p : Tid)
  | freeLetMpoolFull (b : ℕ) (p : Tid)
  | freeCheck (b : ℕ)
  | freeLetBlock (b : ℕ)
  -- `S_block_unlock_and_return`
  | returnRead (b : ℕ)
  | returnGetSuperblock (b s : ℕ)
  | returnPush (b s : ℕ)
  | returnLetSuperblockEmpty (b s : ℕ)
  | returnLetBlockEmpty (b s : ℕ)
  | returnGetGpool (b s : ℕ)
  | returnPrepend (b s : ℕ)
  | returnLetGpool (b s : ℕ)
  | returnCheck (b s : ℕ)
  | returnLetSuperblock (b s : ℕ)
  | returnLetBlock (b s : ℕ)
  -- `S_superblock_unlock_and_put`
  | putGetGpool (s : ℕ)
  | putUnlink (s : ℕ)
  | putLetGpool (s : ℕ)
  | putLetSuperblock (s : ℕ)
  | putDestroy (s : ℕ)
  | putGetGpoolStats (s : ℕ)
  | putLetGpoolStats (s : ℕ)
  | putSysFree (s : ℕ)
  deriving DecidableEq

/-! ### The code between lock operations -/

section code

variable (Λ : Layout) (t : Tid) (m : Mem Tid)

/-- `vma_alloc` up to the unlocked read of `S_mpool.head`. -/
def allocRead : Mem Tid × Pc Tid :=
  let m := if m.init t then m
    else { m.setMpoolHead t none with init := Function.update m.init t true }
  match m.mpoolHead t with
  | none => (m, .stealGetGpool)
  | some b => (m, .allocGetBlock b)

/-- From `vma = block->head` to the end of the lists' part of `vma_alloc`. -/
def allocTake (b : ℕ) : Option (Mem Tid × Pc Tid) := do
  let B ← m.getBlock b
  let vma ← B.head
  let vmNext ← m.getVma vma
  let m ← m.setBlock b fun B => { B with head := vmNext, vctr := B.vctr + 1 }
  if vmNext = none then
    let m := m.setMpoolHead t B.next
    let m ← m.setBlockIf B.next fun N => { N with prev := B.prev }
    guard (BLOCK_CTR_FULL Λ.toSizes = B.vctr + 1)
    return (m, .allocLetMpool b vma)
  else return (m, .allocLetMpool b vma)

/-- A stolen block becomes the only one of the pool, and gives its first struct. -/
def allocPush (b : ℕ) : Option (Mem Tid × Pc Tid) := do
  let m := m.setMpoolHead t (some b)
  let m ← m.setBlock b fun B => { B with prev := none, next := none, mpool := some t }
  allocTake Λ t m b

def allocReturn (r : Option ℕ) : Mem Tid :=
  { m with live := r.toList ++ m.live, log := m.log ++ [.alloc t r] }

/-- `S_superblock_get_and_lock` up to the lock; `r` is what the system gives. -/
def stealFind (r : Option ℕ) : Mem Tid × Pc Tid :=
  match m.gpoolHead with
  | some s => (m, .stealGetSuperblock s)
  | none =>
    match r with
    | none => (m, .stealLetGpoolFail)
    | some s => (newSuperblock Λ.toSizes s m, .stealGetSuperblock s)

def stealRead (s : ℕ) : Option (Pc Tid) := do
  let S ← m.getSuperblock s
  let b ← S.head
  return .stealGetBlock s b

def stealTake (s b : ℕ) : Option (Mem Tid × Pc Tid) := do
  let B ← m.getBlock b
  let m ← m.setSuperblock s fun S => { S with head := B.next }
  let m ← m.setBlockIf B.next fun N => { N with prev := B.prev }
  let m ← m.setSuperblock s fun S => { S with bctr := S.bctr + 1 }
  let S ← m.getSuperblock s
  if S.head = none then
    let m := { m with gpoolHead := S.next }
    let m ← m.setSuperblockIf S.next fun N => { N with prev := S.prev }
    guard (SUPERBLOCK_CTR_FULL = S.bctr)
    return (m, .stealLetSuperblock s b)
  else return (m, .stealLetSuperblock s b)

def freeCall (v : ℕ) : Mem Tid × Pc Tid :=
  ({ m with live := m.live.erase v, log := m.log ++ [.free t v] }, .freeGetBlock (sVma2block v) v)

def decr (n : ℕ) : ℕ := if n = 0 then 2 ^ 64 - 1 else n - 1

def freePush (b v : ℕ) : Option (Mem Tid × Pc Tid) := do
  let B ← m.getBlock b
  let m ← m.setVma v B.head
  let m ← m.setBlock b fun B => { B with head := some v, vctr := decr B.vctr }
  if decr B.vctr = 0 then
    let p ← B.mpool
    return (m, .freeGetMpoolEmpty b p)
  else if B.head = none then
    let p ← B.mpool
    return (m, .freeGetMpoolFull b p)
  else return (m, .freeLetBlock b)

/-- The neighbour or the head that leads to the block now leads past it. -/
def freeUnlinkPrev (b : ℕ) (p : Tid) (B : Block Tid) : Option (Mem Tid) :=
  if m.mpoolHead p = some b then some (m.setMpoolHead p B.next)
  else B.prev.bind fun q => m.setBlock q fun Q => { Q with next := B.next }

def freeUnlink (b : ℕ) (p : Tid) : Option (Mem Tid × Pc Tid) := do
  let B ← m.getBlock b
  let m ← freeUnlinkPrev m b p B
  let B ← m.getBlock b
  let m ← m.setBlockIf B.next fun N => { N with prev := B.prev }
  return (m, .freeLetMpoolEmpty b p)

def freePrepend (b : ℕ) (p : Tid) : Option (Mem Tid × Pc Tid) := do
  let m ← m.setBlock b fun B => { B with next := m.mpoolHead p }
  let m ← m.setBlockIf (m.mpoolHead p) fun N => { N with prev := some b }
  return (m.setMpoolHead p (some b), .freeLetMpoolFull b p)

def freeCheck (b : ℕ) : Option (Pc Tid) := do
  let B ← m.getBlock b
  guard (BLOCK_CTR_FULL Λ.toSizes - 1 = B.vctr)
  return .freeLetBlock b

def returnRead (b : ℕ) : Option (Pc Tid) := do
  let B ← m.getBlock b
  return .returnGetSuperblock b B.superblock

def returnPush (b s : ℕ) : Option (Mem Tid × Pc Tid) := do
  let S ← m.getSuperblock s
  let m ← m.setBlock b fun B => { B with next := S.head }
  let m ← m.setBlockIf S.head fun N => { N with prev := some b }
  let m ← m.setSuperblock s fun S => { S with head := some b, bctr := decr S.bctr }
  if decr S.bctr = 0 then return (m, .returnLetSuperblockEmpty b s)
  else if S.head = none then return (m, .returnGetGpool b s)
  else return (m, .returnLetSuperblock b s)

def returnPrepend (b s : ℕ) : Option (Mem Tid × Pc Tid) := do
  let m ← m.setSuperblock s fun S => { S with next := m.gpoolHead }
  let m ← m.setSuperblockIf m.gpoolHead fun N => { N with prev := some s }
  return ({ m with gpoolHead := some s }, .returnLetGpool b s)

def returnCheck (b s : ℕ) : Option (Pc Tid) := do
  let S ← m.getSuperblock s
  guard (SUPERBLOCK_CTR_FULL - 1 = S.bctr)
  return .returnLetSuperblock b s

/-- The neighbour or the head that leads to the superblock now leads past it. -/
def putUnlinkPrev (s : ℕ) (S : Superblock) : Option (Mem Tid) :=
  if m.gpoolHead = some s then some { m with gpoolHead := S.next }
  else S.prev.bind fun q => m.setSuperblock q fun Q => { Q with next := S.next }

def putUnlink (s : ℕ) : Option (Mem Tid × Pc Tid) := do
  let S ← m.getSuperblock s
  let m ← putUnlinkPrev m s S
  let S ← m.getSuperblock s
  let m ← m.setSuperblockIf S.next fun N => { N with prev := S.prev }
  return (m, .putLetGpool s)

def putDestroy (s : ℕ) : Option (Mem Tid × Pc Tid) := do
  guard (m.Mapped s)
  return (sSuperblockListDestroy Λ.toSizes s m, .putGetGpoolStats s)

/-- `CALL_SYS_FREE`; only what the system gave can be given back. -/
def putSysFree (s : ℕ) : Option (Mem Tid × Pc Tid) := do
  guard (s ∈ m.held)
  return ({ m with held := m.held.erase s, log := m.log ++ [.sysFree s] }, .idle)

end code

/-! ### The machine -/

/-- What comes from outside: a call, or the answer of the system. -/
inductive Input
  | nothing
  | callAlloc
  | callFree (v : ℕ)
  | sysAlloc (r : Option ℕ)

/-- A superblock that the system may give: aligned, and apart from those held. -/
def Fresh (m : Mem Tid) (s : ℕ) : Prop :=
  s % BLOCK_SIZE = 0 ∧ ∀ s' ∈ m.held, s + SUPERBLOCK_SIZE ≤ s' ∨ s' + SUPERBLOCK_SIZE ≤ s

/-- A resting thread calls `vma_alloc`, or `vma_free` on a live struct. -/
def InputOk : Pc Tid → Mem Tid → Input → Prop
  | .idle, _, .callAlloc => True
  | .idle, m, .callFree v => v ∈ m.live
  | .stealFind, m, .sysAlloc r => ∀ s, r = some s → Fresh m s
  | .idle, _, _ => False
  | .stealFind, _, _ => False
  | _, _, i => i = .nothing

def instr (t : Tid) : Pc Tid → Instr (LockId Tid) (Pc Tid)
  | .allocGetBlock b => .get (.block b) (.allocGetMpool b)
  | .allocGetMpool b => .get (.mpool t) (.allocTake b)
  | .allocGetMpoolNew b => .get (.mpool t) (.allocPush b)
  | .allocLetMpool b v => .drop (.mpool t) (.allocLetBlock b v)
  | .allocLetBlock b v => .drop (.block b) (.allocReturn (some v))
  | .stealGetGpool => .get .gpool .stealFind
  | .stealLetGpoolFail => .drop .gpool (.allocReturn none)
  | .stealGetSuperblock s => .get (.superblock s) (.stealRead s)
  | .stealGetBlock s b => .get (.block b) (.stealTake s b)
  | .stealLetSuperblock s b => .drop (.superblock s) (.stealLetGpool b)
  | .stealLetGpool b => .drop .gpool (.allocGetMpoolNew b)
  | .freeGetBlock b v => .get (.block b) (.freePush b v)
  | .freeGetMpoolEmpty b p => .get (.mpool p) (.freeUnlink b p)
  | .freeLetMpoolEmpty b p => .drop (.mpool p) (.returnRead b)
  | .freeGetMpoolFull b p => .get (.mpool p) (.freePrepend b p)
  | .freeLetMpoolFull b p => .drop (.mpool p) (.freeCheck b)
  | .freeLetBlock b => .drop (.block b) .idle
  | .returnGetSuperblock b s => .get (.superblock s) (.returnPush b s)
  | .returnLetSuperblockEmpty b s => .drop (.superblock s) (.returnLetBlockEmpty b s)
  | .returnLetBlockEmpty b s => .drop (.block b) (.putGetGpool s)
  | .returnGetGpool b s => .get .gpool (.returnPrepend b s)
  | .returnLetGpool b s => .drop .gpool (.returnCheck b s)
  | .returnLetSuperblock b s => .drop (.superblock s) (.returnLetBlock b s)
  | .returnLetBlock b _ => .drop (.block b) .idle
  | .putGetGpool s => .get .gpool (.putUnlink s)
  | .putLetGpool s => .drop .gpool (.putLetSuperblock s)
  | .putLetSuperblock s => .drop (.superblock s) (.putDestroy s)
  | .putGetGpoolStats s => .get .gpool (.putLetGpoolStats s)
  | .putLetGpoolStats s => .drop .gpool (.putSysFree s)
  | _ => .code

def code (Λ : Layout) (t : Tid) (p : Pc Tid) (m : Mem Tid) (i : Input) :
    Option (Mem Tid × Pc Tid) :=
  match p with
  | .idle =>
    match i with
    | .callAlloc => some (m, .allocRead)
    | .callFree v => some (freeCall t m v)
    | _ => none
  | .allocRead => some (allocRead t m)
  | .allocTake b => allocTake Λ t m b
  | .allocPush b => allocPush Λ t m b
  | .allocReturn r => some (allocReturn t m r, .idle)
  | .stealFind =>
    match i with
    | .sysAlloc r => some (stealFind Λ m r)
    | _ => none
  | .stealRead s => (stealRead m s).map fun p => (m, p)
  | .stealTake s b => stealTake m s b
  | .freePush b v => freePush m b v
  | .freeUnlink b p => freeUnlink m b p
  | .freePrepend b p => freePrepend m b p
  | .freeCheck b => (freeCheck Λ m b).map fun p => (m, p)
  | .returnRead b => (returnRead m b).map fun p => (m, p)
  | .returnPush b s => returnPush m b s
  | .returnPrepend b s => returnPrepend m b s
  | .returnCheck b s => (returnCheck m b s).map fun p => (m, p)
  | .putUnlink s => putUnlink m s
  | .putDestroy s => putDestroy Λ m s
  | .putSysFree s => putSysFree m s
  | _ => none

/-- A lock in a block or a superblock is gone with the superblock. -/
def LockMapped (m : Mem Tid) : LockId Tid → Prop
  | .superblock s => m.Mapped s
  | .block b => m.Mapped b
  | _ => True

def slab (Tid : Type) [DecidableEq Tid] (Λ : Layout) :
    Machine Tid (LockId Tid) (Pc Tid) (Mem Tid) Input where
  instr := instr
  input := InputOk
  code := code Λ
  reachable := LockMapped

abbrev State (Tid : Type) := LockMachine.State Tid (LockId Tid) (Pc Tid) (Mem Tid)

/-- Nothing is held from the system, and no thread has called anything. The
contents of memory are arbitrary; a pool is zero until its thread initialises it. -/
structure Initial (s : State Tid) : Prop where
  held : s.mem.held = []
  gpoolHead : s.mem.gpoolHead = none
  init : ∀ t, s.mem.init t = false
  mpoolHead : ∀ t, s.mem.mpoolHead t = none
  live : s.mem.live = []
  log : s.mem.log = []
  lock : ∀ ℓ, s.lock ℓ = none
  pc : ∀ t, s.pc t = .idle

end OpenOOC.Vma
