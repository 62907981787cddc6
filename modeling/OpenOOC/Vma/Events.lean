import OpenOOC.Lib.Alternation
import OpenOOC.Vma.Threads

/-! The events of a run. Which superblocks are held and which structs are live can
be read off them, and for each of the two getting and giving back alternate. -/

namespace OpenOOC.Vma

open LockMachine Alternation

variable {Tid : Type}

namespace Event

def allocates (v : ℕ) : Event Tid → Bool
  | alloc _ (some w) => w == v
  | _ => false

def frees (v : ℕ) : Event Tid → Bool
  | free _ w => w == v
  | _ => false

def sysAllocates (s : ℕ) : Event Tid → Bool
  | sysAlloc x => x == s
  | _ => false

def sysFrees (s : ℕ) : Event Tid → Bool
  | sysFree x => x == s
  | _ => false

theorem frees_of_allocates (v : ℕ) (e : Event Tid) (h : e.allocates v) : e.frees v = false := by
  cases e <;> first | rfl | cases h

theorem sysFrees_of_sysAllocates (s : ℕ) (e : Event Tid) (h : e.sysAllocates s) :
    e.sysFrees s = false := by
  cases e <;> first | rfl | cases h

end Event

/-- The log agrees with what is live and what is held. -/
structure LogOk [DecidableEq Tid] (m : Mem Tid) : Prop where
  vma : ∀ v, Alternates (Event.allocates v) (Event.frees v) false m.log (decide (v ∈ m.live))
  superblock : ∀ s, Alternates (Event.sysAllocates s) (Event.sysFrees s) false m.log
    (decide (s ∈ m.held))

/-! ### Code that is not seen outside -/

structure Mem.Unseen (m m' : Mem Tid) : Prop where
  held : m'.held = m.held
  live : m'.live = m.live
  log : m'.log = m.log

section

variable {m m' m'' : Mem Tid} {b s v : ℕ} {p : Option ℕ}

theorem Mem.Unseen.refl (m : Mem Tid) : m.Unseen m := ⟨rfl, rfl, rfl⟩

theorem Mem.Unseen.trans (h : m.Unseen m') (h' : m'.Unseen m'') : m.Unseen m'' :=
  ⟨h'.held.trans h.held, h'.live.trans h.live, h'.log.trans h.log⟩

theorem Mem.Unseen.setBlock {f : Block Tid → Block Tid} (h : m.setBlock b f = some m') :
    m.Unseen m' := by
  unfold Mem.setBlock at h
  split_ifs at h
  cases h
  exact ⟨rfl, rfl, rfl⟩

theorem Mem.Unseen.setBlockIf {f : Block Tid → Block Tid} (h : m.setBlockIf p f = some m') :
    m.Unseen m' := by
  cases p with
  | none =>
    cases h
    exact .refl m
  | some b => exact .setBlock h

theorem Mem.Unseen.setSuperblock {f : Superblock → Superblock} (h : m.setSuperblock s f = some m') :
    m.Unseen m' := by
  unfold Mem.setSuperblock at h
  split_ifs at h
  cases h
  exact ⟨rfl, rfl, rfl⟩

theorem Mem.Unseen.setSuperblockIf {f : Superblock → Superblock}
    (h : m.setSuperblockIf p f = some m') :
    m.Unseen m' := by
  cases p with
  | none =>
    cases h
    exact .refl m
  | some s => exact .setSuperblock h

theorem Mem.Unseen.setVma (h : m.setVma v p = some m') : m.Unseen m' := by
  unfold Mem.setVma at h
  split_ifs at h
  cases h
  exact ⟨rfl, rfl, rfl⟩

end

def Pc.Visible : Pc Tid → Prop
  | idle => True
  | allocReturn _ => True
  | stealFind => True
  | putSysFree _ => True
  | _ => False

variable [DecidableEq Tid] {Λ : Layout} {t : Tid} {m m' : Mem Tid} {p p' : Pc Tid} {i : Input}
  {b s v : ℕ}

theorem allocTake_unseen (h : allocTake Λ t m b = some (m', p')) : m.Unseen m' := by
  simp only [allocTake, Option.bind_eq_bind, Option.bind_eq_some_iff, Option.pure_def] at h
  obtain ⟨B, -, v, -, n, -, m₁, h₁, h⟩ := h
  have hu := Mem.Unseen.setBlock h₁
  split_ifs at h
  · simp only [Option.bind_eq_some_iff] at h
    obtain ⟨m₂, h₂, _, -, h⟩ := h
    have hu₂ := Mem.Unseen.setBlockIf h₂
    cases h
    exact hu.trans ⟨hu₂.held, hu₂.live, hu₂.log⟩
  · cases h
    exact hu

theorem code_unseen (hp : ¬ p.Visible) (h : code Λ t p m i = some (m', p')) : m.Unseen m' := by
  cases p <;> simp only [code, reduceCtorEq] at h
  case idle => exact absurd trivial hp
  case allocReturn r => exact absurd trivial hp
  case stealFind => exact absurd trivial hp
  case putSysFree s => exact absurd trivial hp
  case allocRead =>
    have hu : m.Unseen (allocRead t m).1 := by
      unfold allocRead
      by_cases hi : m.init t = true
      · simp only [hi, if_true]
        split <;> exact .refl m
      · simp only [hi]
        split <;> exact ⟨rfl, rfl, rfl⟩
    rw [Option.some.inj h] at hu
    exact hu
  case allocTake b => exact allocTake_unseen h
  case allocPush b =>
    simp only [allocPush, Option.bind_eq_bind, Option.bind_eq_some_iff] at h
    obtain ⟨m₁, h₁, h⟩ := h
    have hu := Mem.Unseen.setBlock h₁
    exact Mem.Unseen.trans ⟨hu.held, hu.live, hu.log⟩ (allocTake_unseen h)
  case stealRead s =>
    obtain ⟨q, -, h⟩ := Option.map_eq_some_iff.mp h
    cases h
    exact .refl m
  case stealTake s b =>
    simp only [stealTake, Option.bind_eq_bind, Option.bind_eq_some_iff, Option.pure_def] at h
    obtain ⟨B, -, m₁, h₁, m₂, h₂, m₃, h₃, S, -, h⟩ := h
    have hu := ((Mem.Unseen.setSuperblock h₁).trans (.setBlockIf h₂)).trans (.setSuperblock h₃)
    split_ifs at h
    · simp only [Option.bind_eq_some_iff] at h
      obtain ⟨m₄, h₄, _, -, h⟩ := h
      have hu₄ := Mem.Unseen.setSuperblockIf h₄
      cases h
      exact hu.trans ⟨hu₄.held, hu₄.live, hu₄.log⟩
    · cases h
      exact hu
  case freePush b v =>
    simp only [freePush, Option.bind_eq_bind, Option.bind_eq_some_iff, Option.pure_def] at h
    obtain ⟨B, -, m₁, h₁, m₂, h₂, h⟩ := h
    have hu := (Mem.Unseen.setVma h₁).trans (.setBlock h₂)
    split_ifs at h
    · obtain ⟨q, -, h⟩ := Option.bind_eq_some_iff.mp h
      cases h
      exact hu
    · obtain ⟨q, -, h⟩ := Option.bind_eq_some_iff.mp h
      cases h
      exact hu
    · cases h
      exact hu
  case freeUnlink b q =>
    simp only [freeUnlink, Option.bind_eq_bind, Option.bind_eq_some_iff, Option.pure_def] at h
    obtain ⟨B, -, m₁, h₁, B', -, m₂, h₂, h⟩ := h
    cases h
    refine Mem.Unseen.trans ?_ (.setBlockIf h₂)
    unfold freeUnlinkPrev at h₁
    split_ifs at h₁
    · cases h₁
      exact ⟨rfl, rfl, rfl⟩
    · obtain ⟨x, -, hx⟩ := Option.bind_eq_some_iff.mp h₁
      exact .setBlock hx
  case freePrepend b q =>
    simp only [freePrepend, Option.bind_eq_bind, Option.bind_eq_some_iff, Option.pure_def] at h
    obtain ⟨m₁, h₁, m₂, h₂, h⟩ := h
    cases h
    have hu := (Mem.Unseen.setBlock h₁).trans (.setBlockIf h₂)
    exact ⟨hu.held, hu.live, hu.log⟩
  case freeCheck b =>
    obtain ⟨q, -, h⟩ := Option.map_eq_some_iff.mp h
    cases h
    exact .refl m
  case returnRead b =>
    obtain ⟨q, -, h⟩ := Option.map_eq_some_iff.mp h
    cases h
    exact .refl m
  case returnPush b s =>
    simp only [returnPush, Option.bind_eq_bind, Option.bind_eq_some_iff, Option.pure_def] at h
    obtain ⟨S, -, m₁, h₁, m₂, h₂, m₃, h₃, h⟩ := h
    have hu := ((Mem.Unseen.setBlock h₁).trans (.setBlockIf h₂)).trans (.setSuperblock h₃)
    split_ifs at h <;> cases h <;> exact hu
  case returnPrepend b s =>
    simp only [returnPrepend, Option.bind_eq_bind, Option.bind_eq_some_iff, Option.pure_def] at h
    obtain ⟨m₁, h₁, m₂, h₂, h⟩ := h
    cases h
    have hu := (Mem.Unseen.setSuperblock h₁).trans (.setSuperblockIf h₂)
    exact ⟨hu.held, hu.live, hu.log⟩
  case returnCheck b s =>
    obtain ⟨q, -, h⟩ := Option.map_eq_some_iff.mp h
    cases h
    exact .refl m
  case putUnlink s =>
    simp only [putUnlink, Option.bind_eq_bind, Option.bind_eq_some_iff, Option.pure_def] at h
    obtain ⟨S, -, m₁, h₁, S', -, m₂, h₂, h⟩ := h
    cases h
    refine Mem.Unseen.trans ?_ (.setSuperblockIf h₂)
    unfold putUnlinkPrev at h₁
    split_ifs at h₁
    · cases h₁
      exact ⟨rfl, rfl, rfl⟩
    · obtain ⟨x, -, hx⟩ := Option.bind_eq_some_iff.mp h₁
      exact .setSuperblock hx
  case putDestroy s =>
    simp only [putDestroy, Option.bind_eq_bind, Option.bind_eq_some_iff, Option.pure_def] at h
    obtain ⟨_, -, h⟩ := h
    cases h
    obtain ⟨blk, he, -⟩ := sSuperblockListDestroy_eq Λ.toSizes s m
    rw [he]
    exact ⟨rfl, rfl, rfl⟩

end OpenOOC.Vma
