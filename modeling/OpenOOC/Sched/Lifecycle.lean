import OpenOOC.Sched.Memory

/-! What holds in every state of a process whose threads allocate, access and free:
who works on which allocation, and what a thread knows of it at each point. -/

namespace OpenOOC.Sched

open LockMachine

/-! ### The lock operations -/

inductive GetStep : Point → LockId → Point → Prop
  | insert {a : Alloc} : GetStep (.insertGet a) .tree (.insert a)
  | find {c : Caller} : GetStep (.findGet c) .tree (.find c)
  | node {c : Caller} {z : Addr} {k : ℕ} : GetStep (.findGetNode c z k) (.node z k) (.findLet c z k)
  | remove {z : Addr} {k vmAddr : ℕ} : GetStep (.removeGet z k vmAddr) .tree (.remove z k vmAddr)

inductive DropStep : Point → LockId → Point → Prop
  | insert {a : Alloc} : DropStep (.insertLet a) .tree (.mallocReturn a)
  | found {c : Caller} {z : Addr} {k : ℕ} : DropStep (.findLet c z k) .tree (c.found z k)
  | handle {x : Access} {z : Addr} {k : ℕ} :
    DropStep (.handleLet x z k) (.node z k) (.access { x with faults := x.faults + 1 })
  | remove {z : Addr} {k : ℕ} : DropStep (.removeLet z k) .tree (.unmap z k)

theorem getStep_of {p p' : Pc} {ℓ : LockId} (h : instr p = .get ℓ p') :
    GetStep p.now ℓ p'.now ∧ p'.kept = p.kept := by
  unfold instr at h
  cases hq : p.now <;> rw [hq] at h <;> cases h <;> exact ⟨by constructor, rfl⟩

theorem dropStep_of {p p' : Pc} {ℓ : LockId} (h : instr p = .drop ℓ p') :
    DropStep p.now ℓ p'.now ∧ p'.kept = p.kept.filter (· ≠ ℓ) := by
  unfold instr at h
  cases hq : p.now <;> rw [hq] at h <;> cases h <;> exact ⟨by constructor, rfl⟩

/-! ### What a thread works on -/

def Caller.Of (ps : PageSize) (a : Alloc) : Caller → Prop
  | handler x => a.Owns ps x.addr
  | free ptr => a.vmStart ps = ptr

namespace Point

/-- The allocation that a thread works on. -/
def On (ps : PageSize) (a : Alloc) : Point → Prop
  | rest => False
  | insertGet b => a = b
  | insert b => a = b
  | insertLet b => a = b
  | mallocReturn b => a = b
  | access x => a.Owns ps x.addr
  | findGet c => c.Of ps a
  | find c => c.Of ps a
  | findGetNode c z _ => a.vma = z ∧ c.Of ps a
  | findLet c z _ => a.vma = z ∧ c.Of ps a
  | handle x z _ => a.vma = z ∧ a.Owns ps x.addr
  | protect x z _ _ => a.vma = z ∧ a.Owns ps x.addr
  | handleLet x z _ => a.vma = z ∧ a.Owns ps x.addr
  | freeRead z _ => a.vma = z
  | removeGet z _ _ => a.vma = z
  | remove z _ _ => a.vma = z
  | removeLet z _ => a.vma = z
  | unmap z _ => a.vma = z

def inMalloc : Point → Bool
  | insertGet _ => true
  | insert _ => true
  | insertLet _ => true
  | mallocReturn _ => true
  | _ => false

/-- The allocation is not returned yet, or its freeing has begun. -/
def Own (q : Point) : Prop := q.inMalloc ∨ q.inFree

def Listed : Point → Prop
  | insertGet _ => False
  | insert _ => False
  | removeLet .. => False
  | unmap .. => False
  | _ => True

def access? : Point → Option Access
  | access x => some x
  | findGet (.handler x) => some x
  | find (.handler x) => some x
  | findGetNode (.handler x) _ _ => some x
  | findLet (.handler x) _ _ => some x
  | handle x _ _ => some x
  | protect x _ _ _ => some x
  | handleLet x _ _ => some x
  | _ => none

def node? : Point → Option (Addr × ℕ)
  | findGetNode _ z k => some (z, k)
  | findLet _ z k => some (z, k)
  | handle _ z k => some (z, k)
  | protect _ z k _ => some (z, k)
  | handleLet _ z k => some (z, k)
  | freeRead z k => some (z, k)
  | removeGet z k _ => some (z, k)
  | remove z k _ => some (z, k)
  | removeLet z k => some (z, k)
  | unmap z k => some (z, k)
  | _ => none

def Fixes : Point → Prop
  | insertGet _ => True
  | insert _ => True
  | protect .. => True
  | _ => False

end Point

/-- A fault is a write's. It is the access's first or second, and before the second
the node was marked as read. -/
def Faulting (f : BitVec 64) (x : Access) : Prop :=
  x.write = true ∧ x.faults ≤ 1 ∧ (x.faults = 1 → f ≠ 0)

def Caller.Fine (f : BitVec 64) : Caller → Prop
  | handler x => Faulting f x
  | free _ => True

/-- What a thread knows of the allocation `a` that it works on. -/
def Local (ps : PageSize) (m : Mem) (g : Ghost) (a : Alloc) : Point → Prop
  | .insertGet _ => g.flags a = 0
  | .insert _ => g.flags a = 0
  | .access x => x.faults ≤ 2 ∧ (x.faults ≠ 0 → g.flags a ≠ 0) ∧
      (x.faults = 2 → m.prot x.addr.toNat = some PROT_RW)
  | .findGet c => c.Fine (g.flags a)
  | .find c => c.Fine (g.flags a) ∧ a.Owns ps c.addr
  | .findGetNode c _ _ => c.Fine (g.flags a)
  | .findLet c _ _ => c.Fine (g.flags a)
  | .handle x _ _ => Faulting (g.flags a) x
  | .protect x _ _ ans => x.write = true ∧ x.faults ≤ 1 ∧ (x.faults = 1 → ans.prot = PROT_RW) ∧
      Fits (g.flags a) ans
  | .handleLet x _ _ => x.write = true ∧ x.faults ≤ 1 ∧ g.flags a ≠ 0 ∧
      (x.faults = 1 → m.prot x.addr.toNat = some PROT_RW)
  | .removeGet _ _ s => s = (a.vmStart ps).toNat
  | .remove _ _ s => s = (a.vmStart ps).toNat
  | .removeLet .. => ∃ f, m.heap.range (.vma a.vma) =
      some (f, (a.vmStart ps).toNat, (a.vmEnd ps).toNat)
  | .unmap .. => ∃ f, m.heap.range (.vma a.vma) = some (f, (a.vmStart ps).toNat, (a.vmEnd ps).toNat)
  | _ => True

structure At (ps : PageSize) (m : Mem) (g : Ghost) (a : Alloc) (q : Point) : Prop where
  on : q.On ps a
  mapped : a ∈ g.mapped
  listed : a ∈ g.listed ↔ q.Listed
  inits : ∀ z k, q.node? = some (z, k) → a.vma = z ∧ k = m.inits z
  locals : Local ps m g a q

/-- Whatever happens to `m` and `g` leaves a thread at `q` that works on `a` where it is. -/
structure Keeps (ps : PageSize) (m m' : Mem) (g g' : Ghost) (a : Alloc) (q : Point) : Prop where
  mapped : a ∈ g'.mapped
  listed : a ∈ g'.listed ↔ a ∈ g.listed
  inits : m'.inits a.vma = m.inits a.vma
  range : ∀ f s e, m.heap.range (.vma a.vma) = some (f, s, e) →
    ∃ f', m'.heap.range (.vma a.vma) = some (f', s, e)
  marked : g.flags a ≠ 0 → g'.flags a ≠ 0
  fixed : q.Fixes → g'.flags a = g.flags a
  prot : ∀ y, a.InData ps y → m.prot y = some PROT_RW → m'.prot y = some PROT_RW

variable {ps : PageSize} {m m' : Mem} {g g' : Ghost} {a b : Alloc} {q q' : Point} {f f' : BitVec 64}

theorem Faulting.mono {x : Access} (h : Faulting f x) (hf : f ≠ 0 → f' ≠ 0) : Faulting f' x :=
  ⟨h.1, h.2.1, fun hx => hf (h.2.2 hx)⟩

theorem Caller.Fine.mono {c : Caller} (h : c.Fine f) (hf : f ≠ 0 → f' ≠ 0) : c.Fine f' := by
  cases c with
  | handler x => exact Faulting.mono h hf
  | free ptr => trivial

theorem At.keep (h : At ps m g a q) (hr : Region ps a) (hk : Keeps ps m m' g g' a q) :
    At ps m' g' a q := by
  have hprot {addr : Addr} (ho : a.Owns ps addr) (hp : m.prot addr.toNat = some PROT_RW) :
      m'.prot addr.toNat = some PROT_RW :=
    hk.prot _ (hr.inData_of_owns ho) hp
  refine ⟨h.on, hk.mapped, hk.listed.trans h.listed, fun z k hn => ?_, ?_⟩
  · obtain ⟨hz, hki⟩ := h.inits z k hn
    refine ⟨hz, ?_⟩
    rw [← hz, hk.inits, hz]
    exact hki
  · have hl := h.locals
    have ho := h.on
    cases q with
    | insertGet _ => exact (hk.fixed trivial).trans hl
    | insert _ => exact (hk.fixed trivial).trans hl
    | access x => exact ⟨hl.1, fun hx => hk.marked (hl.2.1 hx), fun hx => hprot ho (hl.2.2 hx)⟩
    | findGet c => exact Caller.Fine.mono hl hk.marked
    | find c => exact ⟨hl.1.mono hk.marked, hl.2⟩
    | findGetNode c _ _ => exact Caller.Fine.mono hl hk.marked
    | findLet c _ _ => exact Caller.Fine.mono hl hk.marked
    | handle x _ _ => exact Faulting.mono hl hk.marked
    | protect x _ _ ans => exact ⟨hl.1, hl.2.1, hl.2.2.1, by rw [hk.fixed trivial]; exact hl.2.2.2⟩
    | handleLet x _ _ => exact ⟨hl.1, hl.2.1, hk.marked hl.2.2.1,
        fun hx => hprot ho.2 (hl.2.2.2 hx)⟩
    | removeLet _ _ =>
      obtain ⟨f, hf⟩ := hl
      exact hk.range _ _ _ hf
    | unmap _ _ =>
      obtain ⟨f, hf⟩ := hl
      exact hk.range _ _ _ hf
    | _ => exact hl

/-- A thread that owns an allocation works on no other one. -/
theorem At.unique (h : At ps m g a q) (hm : MemOk ps m g) (hq : q.Own) (hb : b ∈ g.mapped)
    (ho : q.On ps b) : b = a := by
  have ha := h.mapped
  have hoa := h.on
  have hstart {ptr : Addr} (h1 : b.vmStart ps = ptr) (h2 : a.vmStart ps = ptr) : b = a :=
    hm.eq_of_vmStart hb ha (h1.trans h2.symm)
  have hvma {z : Addr} (h1 : b.vma = z) (h2 : a.vma = z) : b = a :=
    hm.eq_of_vma hb ha (h1.trans h2.symm)
  cases q with
  | insertGet _ => exact Eq.trans ho (Eq.symm hoa)
  | insert _ => exact Eq.trans ho (Eq.symm hoa)
  | insertLet _ => exact Eq.trans ho (Eq.symm hoa)
  | mallocReturn _ => exact Eq.trans ho (Eq.symm hoa)
  | findGet c =>
    cases c with
    | free ptr => exact hstart ho hoa
    | handler x => rcases hq with hq | hq <;> cases hq
  | find c =>
    cases c with
    | free ptr => exact hstart ho hoa
    | handler x => rcases hq with hq | hq <;> cases hq
  | findGetNode _ _ _ => exact hvma ho.1 hoa.1
  | findLet _ _ _ => exact hvma ho.1 hoa.1
  | freeRead _ _ => exact hvma ho hoa
  | removeGet _ _ _ => exact hvma ho hoa
  | remove _ _ _ => exact hvma ho hoa
  | removeLet _ _ => exact hvma ho hoa
  | unmap _ _ => exact hvma ho hoa
  | _ => rcases hq with hq | hq <;> cases hq

/-- A thread is at rest, makes an access, or owns an allocation. -/
theorem Point.cases (q : Point) : q = .rest ∨ (∃ x, q.access? = some x ∧ ¬ q.Own) ∨ q.Own := by
  unfold Point.Own
  cases q with
  | findGet c => cases c <;> simp [Point.access?, Point.inMalloc, Point.inFree]
  | find c => cases c <;> simp [Point.access?, Point.inMalloc, Point.inFree]
  | findGetNode c z k => cases c <;> simp [Point.access?, Point.inMalloc, Point.inFree]
  | findLet c z k => cases c <;> simp [Point.access?, Point.inMalloc, Point.inFree]
  | _ => simp [Point.access?, Point.inMalloc, Point.inFree]

theorem Point.owns_of_access {x : Access} (h : q.access? = some x) (ho : q.On ps a) :
    a.Owns ps x.addr := by
  cases q with
  | findGet c => cases c <;> cases h; exact ho
  | find c => cases c <;> cases h; exact ho
  | findGetNode c z k => cases c <;> cases h; exact ho.2
  | findLet c z k => cases c <;> cases h; exact ho.2
  | access y => cases h; exact ho
  | handle y z k => cases h; exact ho.2
  | protect y z k ans => cases h; exact ho.2
  | handleLet y z k => cases h; exact ho.2
  | _ => cases h

end OpenOOC.Sched
