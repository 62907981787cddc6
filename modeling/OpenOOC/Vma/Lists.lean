import OpenOOC.Vma.PoolSteps

/-! The lists of the slab as they can be read off memory. -/

namespace OpenOOC.Vma

open Links

variable {Tid : Type} {Λ : Layout} {m : Mem Tid} {g : Ghost Tid} {b s v : ℕ} {p : Tid}
  {l l' : List ℕ}

/-- `l` is the list of the pool, and `prev` leads back along it. -/
def PoolList (m : Mem Tid) (p : Tid) (l : List ℕ) : Prop :=
  m.mpoolHead p = l.head? ∧ Seg (fun b => (m.block b).next) (fun b => (m.block b).prev) none l none

def GpoolList (m : Mem Tid) (l : List ℕ) : Prop :=
  m.gpoolHead = l.head? ∧
    Seg (fun s => (m.superblock s).next) (fun s => (m.superblock s).prev) none l none

def FreeBlocks (m : Mem Tid) (s : ℕ) (l : List ℕ) : Prop :=
  Chain (fun b => (m.block b).next) (m.superblock s).head l

def FreeVmas (m : Mem Tid) (b : ℕ) (l : List ℕ) : Prop := Chain m.vmNext (m.block b).head l

def Stolen (m : Mem Tid) (b : ℕ) : Prop :=
  ∃ s ∈ m.held, b ∈ blocksOf s ∧ ∃ l, FreeBlocks m s l ∧ b ∉ l

theorem Rep.poolList (hr : Rep Λ m g) (p : Tid) : PoolList m p (g.pl p) :=
  ⟨(hr.pool p).head, (hr.pool p).seg⟩

theorem Rep.gpoolList (hr : Rep Λ m g) : GpoolList m g.gl := ⟨hr.gpool.head, hr.gpool.seg⟩

theorem Rep.freeBlocks (hr : Rep Λ m g) (hs : s ∈ m.held) (hσ : g.stage s ≠ .detached) :
    FreeBlocks m s (g.fl s) := (hr.super s hs).chain hσ

theorem Rep.freeVmas (hr : Rep Λ m g) (hs : s ∈ m.held) (hb : b ∈ blocksOf s)
    (hσ : g.stage s ≠ .detached) :
    FreeVmas m b (g.vl b) := (hr.block s hs b hb).chain hσ

theorem Rep.stolen (hr : Rep Λ m g) (hb : IsBlock m b) (hq : g.place b ≠ .free) : Stolen m b := by
  obtain ⟨s, hs, hbs⟩ := hb
  exact ⟨s, hs, hbs, g.fl s, hr.freeBlocks hs (hr.stage_ne hs hbs hq), hr.not_mem_fl hs hq⟩

theorem Rep.ne_free_of_stolen (hr : Rep Λ m g) (hσ : ∀ s ∈ m.held, g.stage s ≠ .detached)
    (hb : Stolen m b) : g.place b ≠ .free := by
  obtain ⟨s, hs, hbs, l, hl, hbl⟩ := hb
  rw [hl.unique (hr.freeBlocks hs (hσ s hs))] at hbl
  exact fun hq => hbl (((hr.super s hs).mem_iff b).mpr ⟨hbs, hq⟩)

end OpenOOC.Vma
