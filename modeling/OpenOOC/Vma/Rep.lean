import OpenOOC.Vma.Setup

/-! What the lists of the slab hold. A ghost state names the contents of every
list, where each block is, and how far each superblock is; `Rep` says that the
memory is laid out as the ghost state says. -/

namespace OpenOOC.Vma

open Links

variable {Tid : Type}

/-- Where a block is. From `stolen`, `emptied`, `refilled` and `returning` a
thread is moving it on. -/
inductive Place (Tid : Type)
  | free
  | stolen
  | pooled (p : Tid)
  | emptied (p : Tid)
  | full (p : Tid)
  | refilled (p : Tid)
  | returning

namespace Place

/-- The pool whose list the block is on. -/
def onList : Place Tid → Option Tid
  | pooled p => some p
  | emptied p => some p
  | _ => none

def owner : Place Tid → Option Tid
  | pooled p => some p
  | emptied p => some p
  | full p => some p
  | refilled p => some p
  | _ => none

@[simp] theorem onList_free : (free : Place Tid).onList = none := rfl
@[simp] theorem onList_stolen : (stolen : Place Tid).onList = none := rfl
@[simp] theorem onList_pooled (p : Tid) : (pooled p).onList = some p := rfl
@[simp] theorem onList_emptied (p : Tid) : (emptied p).onList = some p := rfl
@[simp] theorem onList_full (p : Tid) : (full p).onList = none := rfl
@[simp] theorem onList_refilled (p : Tid) : (refilled p).onList = none := rfl
@[simp] theorem onList_returning : (returning : Place Tid).onList = none := rfl

def Len (n k : ℕ) : Place Tid → Prop
  | pooled _ => 0 < k ∧ k < n
  | full _ => k = 0
  | refilled _ => k = 1
  | _ => k = n

def Transient : Place Tid → Prop
  | free => False
  | pooled _ => False
  | full _ => False
  | _ => True

end Place

/-- How far a superblock is: new, on the global list, full and off it, about to
go back on it, about to be unlinked for good, or unlinked. -/
inductive Stage
  | fresh
  | listed
  | off
  | relist
  | putting
  | detached
  deriving DecidableEq

namespace Stage

def Linked : Stage → Prop
  | fresh => True
  | listed => True
  | putting => True
  | _ => False

def Bctr (k : ℕ) : Stage → Prop
  | listed => 0 < k ∧ k < SUPERBLOCK_CTR_FULL
  | off => k = SUPERBLOCK_CTR_FULL
  | relist => k + 1 = SUPERBLOCK_CTR_FULL
  | _ => k = 0

def Transient : Stage → Prop
  | listed => False
  | off => False
  | _ => True

end Stage

attribute [local simp] Place.owner Place.Len Place.Transient Stage.Linked Stage.Bctr

structure Ghost (Tid : Type) where
  gl : List ℕ
  fl : ℕ → List ℕ
  vl : ℕ → List ℕ
  pl : Tid → List ℕ
  place : ℕ → Place Tid
  stage : ℕ → Stage

def IsBlock (m : Mem Tid) (b : ℕ) : Prop := ∃ s ∈ m.held, b ∈ blocksOf s

structure HeldRep (m : Mem Tid) : Prop where
  nodup : m.held.Nodup
  aligned : ∀ s ∈ m.held, s % BLOCK_SIZE = 0
  apart : ∀ s ∈ m.held, ∀ s' ∈ m.held, s ≠ s' → s + SUPERBLOCK_SIZE ≤ s' ∨ s' + SUPERBLOCK_SIZE ≤ s

structure GpoolRep (m : Mem Tid) (g : Ghost Tid) : Prop where
  head : m.gpoolHead = g.gl.head?
  seg : Seg (fun s => (m.superblock s).next) (fun s => (m.superblock s).prev) none g.gl none
  nodup : g.gl.Nodup
  mem_iff : ∀ s, s ∈ g.gl ↔ s ∈ m.held ∧ (g.stage s).Linked
  off_prev : ∀ s ∈ m.held, g.stage s = .off ∨ g.stage s = .relist → (m.superblock s).prev = none

structure SuperRep (m : Mem Tid) (g : Ghost Tid) (s : ℕ) : Prop where
  count : (m.superblock s).bctr + (g.fl s).length = SUPERBLOCK_CTR_FULL
  stage : (g.stage s).Bctr (m.superblock s).bctr
  chain : g.stage s ≠ .detached →
    Chain (fun b => (m.block b).next) (m.superblock s).head (g.fl s)
  nodup : (g.fl s).Nodup
  mem_iff : ∀ b, b ∈ g.fl s ↔ b ∈ blocksOf s ∧ g.place b = .free

structure BlockRep (Λ : Layout) (m : Mem Tid) (g : Ghost Tid) (s b : ℕ) : Prop where
  superblock : (m.block b).superblock = s
  count : (m.block b).vctr + (g.vl b).length = BLOCK_CTR_FULL Λ.toSizes
  chain : g.stage s ≠ .detached → Chain m.vmNext (m.block b).head (g.vl b)
  nodup : (g.vl b).Nodup
  sub : ∀ v ∈ g.vl b, v ∈ slotsOf Λ.toSizes b
  len : (g.place b).Len (BLOCK_CTR_FULL Λ.toSizes) (g.vl b).length
  owner : ∀ p, (g.place b).owner = some p → (m.block b).mpool = some p ∧ m.init p = true
  off_prev : ∀ p, g.place b = .full p ∨ g.place b = .refilled p → (m.block b).prev = none

structure PoolRep (m : Mem Tid) (g : Ghost Tid) (p : Tid) : Prop where
  head : m.mpoolHead p = (g.pl p).head?
  seg : Seg (fun b => (m.block b).next) (fun b => (m.block b).prev) none (g.pl p) none
  nodup : (g.pl p).Nodup
  mem_iff : ∀ b, b ∈ g.pl p ↔ IsBlock m b ∧ (g.place b).onList = some p

structure Rep (Λ : Layout) (m : Mem Tid) (g : Ghost Tid) : Prop where
  held : HeldRep m
  gpool : GpoolRep m g
  super : ∀ s ∈ m.held, SuperRep m g s
  block : ∀ s ∈ m.held, ∀ b ∈ blocksOf s, BlockRep Λ m g s b
  pool : ∀ p, PoolRep m g p

/-! ### Addresses -/

section

variable {Λ : Layout} {m : Mem Tid}

theorem HeldRep.block_unique (hh : HeldRep m) {s s' b : ℕ} (hs : s ∈ m.held) (hs' : s' ∈ m.held)
    (hb : b ∈ blocksOf s) (hb' : b ∈ blocksOf s') : s = s' := by
  by_contra hne
  have h1 := blocksOf_range hb
  have h2 := blocksOf_range hb'
  rcases hh.apart s hs s' hs' hne with h | h <;> simp only [block_size, superblock_size] at * <;>
    omega

theorem HeldRep.block_aligned (hh : HeldRep m) {b : ℕ} (hb : IsBlock m b) : b % BLOCK_SIZE = 0 := by
  obtain ⟨s, hs, hb⟩ := hb
  rw [(blocksOf_range hb).2.2, hh.aligned s hs]

theorem HeldRep.slot_block (hh : HeldRep m) {b v : ℕ} (hb : IsBlock m b)
    (hv : v ∈ slotsOf Λ.toSizes b) :
    sVma2block v = b := sVma2block_slot Λ.fits (hh.block_aligned hb) hv

theorem mapped_superblock {s : ℕ} (hs : s ∈ m.held) : m.Mapped s :=
  ⟨s, hs, le_refl _, by simp only [superblock_size]; omega⟩

theorem mapped_block {b : ℕ} (hb : IsBlock m b) : m.Mapped b := by
  obtain ⟨s, hs, hb⟩ := hb
  have h := blocksOf_range hb
  refine ⟨s, hs, ?_, ?_⟩ <;> simp only [block_size, superblock_size] at * <;> omega

theorem mapped_slot {b v : ℕ} (hb : IsBlock m b) (hv : v ∈ slotsOf Λ.toSizes b) : m.Mapped v := by
  obtain ⟨s, hs, hb⟩ := hb
  have h := blocksOf_range hb
  have h' := slotsOf_range Λ.fits hv
  have hp := Λ.vmArea_pos
  refine ⟨s, hs, ?_, ?_⟩ <;> simp only [block_size, superblock_size] at * <;> omega

end

/-! ### Writes -/

section

variable {m : Mem Tid}

@[simps -fullyApplied] def Mem.modBlock (m : Mem Tid) (b : ℕ) (f : Block Tid → Block Tid) :
    Mem Tid :=
  { m with block := fun x => if x = b then f (m.block x) else m.block x }

/-- `if (p) p->f = …;` on a block. -/
@[simps -fullyApplied] def Mem.modBlockIf (m : Mem Tid) (p : Option ℕ) (f : Block Tid → Block Tid) :
    Mem Tid :=
  { m with block := fun x => if p = some x then f (m.block x) else m.block x }

@[simps -fullyApplied] def Mem.modSuperblock (m : Mem Tid) (s : ℕ) (f : Superblock → Superblock) :
    Mem Tid :=
  { m with superblock := fun x => if x = s then f (m.superblock x) else m.superblock x }

@[simps -fullyApplied] def Mem.modSuperblockIf (m : Mem Tid) (p : Option ℕ)
    (f : Superblock → Superblock) : Mem Tid :=
  { m with superblock := fun x => if p = some x then f (m.superblock x) else m.superblock x }

theorem update_eq_ite {α : Type*} (f : ℕ → α) (b : ℕ) (h : α → α) :
    Function.update f b (h (f b)) = fun x => if x = b then h (f x) else f x := by
  funext x
  by_cases hx : x = b
  · subst hx; simp
  · simp [hx]

theorem getBlock_eq {b : ℕ} (hb : m.Mapped b) : m.getBlock b = some (m.block b) := if_pos hb

theorem setBlock_eq {b : ℕ} (hb : m.Mapped b) (f : Block Tid → Block Tid) :
    m.setBlock b f = some (m.modBlock b f) := by
  rw [Mem.setBlock, if_pos hb, update_eq_ite]
  rfl

theorem getSuperblock_eq {s : ℕ} (hs : m.Mapped s) : m.getSuperblock s = some (m.superblock s) :=
  if_pos hs

theorem setSuperblock_eq {s : ℕ} (hs : m.Mapped s) (f : Superblock → Superblock) :
    m.setSuperblock s f = some (m.modSuperblock s f) := by
  rw [Mem.setSuperblock, if_pos hs, update_eq_ite]
  rfl

theorem getVma_eq {v : ℕ} (hv : m.Mapped v) : m.getVma v = some (m.vmNext v) := if_pos hv

theorem setVma_eq {v : ℕ} (hv : m.Mapped v) (p : Option ℕ) :
    m.setVma v p = some { m with vmNext := Function.update m.vmNext v p } := if_pos hv

theorem guard_pos {p : Prop} [Decidable p] (h : p) : (guard p : Option Unit) = some () := if_pos h

theorem setBlockIf_eq {p : Option ℕ} (hp : ∀ b, p = some b → m.Mapped b)
    (f : Block Tid → Block Tid) :
    m.setBlockIf p f = some (m.modBlockIf p f) := by
  cases p with
  | none => rfl
  | some b =>
    rw [Mem.setBlockIf, setBlock_eq (hp b rfl)]
    simp only [Mem.modBlock, Mem.modBlockIf, Option.some.injEq, eq_comm]

theorem setSuperblockIf_eq {p : Option ℕ} (hp : ∀ s, p = some s → m.Mapped s)
    (f : Superblock → Superblock) : m.setSuperblockIf p f = some (m.modSuperblockIf p f) := by
  cases p with
  | none => rfl
  | some s =>
    rw [Mem.setSuperblockIf, setSuperblock_eq (hp s rfl)]
    simp only [Mem.modSuperblock, Mem.modSuperblockIf, Option.some.injEq, eq_comm]

end

/-! ### What the parts depend on -/

section

variable {Λ : Layout} {m m' : Mem Tid} {g g' : Ghost Tid} {s b : ℕ} {p : Tid}

theorem SuperRep.congr (h : SuperRep m g s) (hsb : m'.superblock s = m.superblock s)
    (hst : g'.stage s = g.stage s) (hfl : g'.fl s = g.fl s)
    (hnext : ∀ b ∈ g.fl s, (m'.block b).next = (m.block b).next)
    (hplace : ∀ b ∈ blocksOf s, g'.place b = .free ↔ g.place b = .free) : SuperRep m' g' s := by
  refine ⟨by rw [hsb, hfl]; exact h.count, by rw [hsb, hst]; exact h.stage, fun hd => ?_,
    hfl ▸ h.nodup, fun b => ?_⟩
  · rw [hsb, hfl]
    exact (h.chain (hst ▸ hd)).congr hnext
  · rw [hfl, h.mem_iff]
    exact and_congr_right fun hb => (hplace b hb).symm

theorem BlockRep.congr (h : BlockRep Λ m g s b)
    (hsb : (m'.block b).superblock = (m.block b).superblock)
    (hv : (m'.block b).vctr = (m.block b).vctr) (hh : (m'.block b).head = (m.block b).head)
    (hm : (m'.block b).mpool = (m.block b).mpool) (hvl : g'.vl b = g.vl b)
    (hplace : g'.place b = g.place b) (hst : g'.stage s ≠ .detached → g.stage s ≠ .detached)
    (hvm : ∀ v ∈ g.vl b, m'.vmNext v = m.vmNext v) (hi : ∀ p, m.init p = true → m'.init p = true)
    (hprev : ∀ p, g.place b = .full p ∨ g.place b = .refilled p →
      (m'.block b).prev = (m.block b).prev) : BlockRep Λ m' g' s b := by
  refine ⟨hsb.trans h.superblock, by rw [hv, hvl]; exact h.count, fun hd => ?_, hvl ▸ h.nodup,
    hvl ▸ h.sub, by rw [hplace, hvl]; exact h.len, fun p hp => ?_, fun p hp => ?_⟩
  · rw [hh, hvl]
    exact (h.chain (hst hd)).congr hvm
  · obtain ⟨h1, h2⟩ := h.owner p (hplace ▸ hp)
    exact ⟨hm.trans h1, hi p h2⟩
  · rw [hplace] at hp
    rw [hprev p hp, h.off_prev p hp]

theorem PoolRep.congr (h : PoolRep m g p) (hhead : m'.mpoolHead p = m.mpoolHead p)
    (hpl : g'.pl p = g.pl p)
    (hlink : ∀ b ∈ g.pl p, (m'.block b).next = (m.block b).next ∧
    (m'.block b).prev = (m.block b).prev)
    (hblock : ∀ b, IsBlock m' b ∧ (g'.place b).onList = some p ↔
      IsBlock m b ∧ (g.place b).onList = some p) : PoolRep m' g' p := by
  refine ⟨by rw [hhead, hpl]; exact h.head, ?_, hpl ▸ h.nodup, fun b => ?_⟩
  · rw [hpl]
    exact h.seg.congr (fun b hb => (hlink b hb).1) fun b hb => (hlink b hb).2
  · rw [hpl, h.mem_iff, hblock]

theorem mapped_congr (h : m'.held = m.held) {a : ℕ} : m'.Mapped a ↔ m.Mapped a := by
  unfold Mem.Mapped
  rw [h]

theorem isBlock_congr (h : m'.held = m.held) : IsBlock m' b ↔ IsBlock m b := by
  unfold IsBlock
  rw [h]

/-- A block on a pool's list is not on a superblock's. -/
theorem Rep.not_mem_fl (hr : Rep Λ m g) (hs : s ∈ m.held) (hb : g.place b ≠ .free) : b ∉ g.fl s :=
  fun hm => hb (((hr.super s hs).mem_iff b).mp hm).2

theorem Rep.not_mem_pl (hr : Rep Λ m g) (hb : (g.place b).onList ≠ some p) : b ∉ g.pl p :=
  fun hm => hb (((hr.pool p).mem_iff b).mp hm).2

theorem Rep.slot_ne (hr : Rep Λ m g) {b b' v v' : ℕ} (hb : IsBlock m b) (hb' : IsBlock m b')
    (hne : b ≠ b') (hv : v ∈ g.vl b) (hv' : v' ∈ slotsOf Λ.toSizes b') : v ≠ v' := by
  rintro rfl
  obtain ⟨s, hs, hbs⟩ := id hb
  have h1 := hr.held.slot_block hb ((hr.block s hs b hbs).sub v hv)
  have h2 := hr.held.slot_block hb' hv'
  exact hne (h1.symm.trans h2)

end

/-! ### The start -/

def Ghost.empty (Tid : Type) : Ghost Tid :=
  ⟨[], fun _ => [], fun _ => [], fun _ => [], fun _ => .free, fun _ => .fresh⟩

theorem not_isBlock {m : Mem Tid} (h : m.held = []) (b : ℕ) : ¬ IsBlock m b := by
  rintro ⟨x, hx, -⟩
  rw [h] at hx
  cases hx

theorem Rep.empty {Λ : Layout} {m : Mem Tid} (hheld : m.held = []) (hg : m.gpoolHead = none)
    (hp : ∀ p, m.mpoolHead p = none) : Rep Λ m (Ghost.empty Tid) := by
  refine ⟨⟨?_, ?_, ?_⟩, ?_, ?_, ?_, fun p => ?_⟩
  · rw [hheld]; exact List.nodup_nil
  · rw [hheld]; nofun
  · rw [hheld]; nofun
  · exact ⟨hg, trivial, List.nodup_nil, by rw [hheld]; simp [Ghost.empty], by rw [hheld]; nofun⟩
  · rw [hheld]; nofun
  · rw [hheld]; nofun
  · exact ⟨hp p, trivial, List.nodup_nil, fun b => by simp [Ghost.empty]⟩

end OpenOOC.Vma
