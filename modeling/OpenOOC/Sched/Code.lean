import OpenOOC.Lib.LockMachine
import OpenOOC.Malloc.Runs

/-! `S_sigsegv_handler` of `sched.c`, and threads that call `ooc_malloc` and
`ooc_free` and access what they were given. A step is one lock operation, or what a
thread does between two of them. -/

namespace OpenOOC.Sched

open LockMachine

/-! ### The handler -/

def PROT_READ : BitVec 32 := 0x1
def PROT_WRITE : BitVec 32 := 0x2

/-- `addr&(~(S_ps-1))`. -/
def pageAlign (ps : PageSize) (addr : Addr) : Addr := addr &&& ~~~(ps.word - 1)

/-- How a fault is answered: whether the page is taken for resident, and what the
page is given. -/
structure Answer where
  resident : Bool
  prot : BitVec 32
  deriving DecidableEq

/-- The test and the update of `vm_flags`. Where `0x10` is set and `0x1` is not,
nothing more happens: no async-io is posted yet. -/
def answer (vmFlags : BitVec 64) : BitVec 64 × Answer :=
  if vmFlags &&& 0x1 = 0 then (vmFlags ||| 0x1, ⟨false, PROT_READ⟩)
  else (vmFlags ||| 0x10, ⟨true, PROT_READ ||| PROT_WRITE⟩)

/-! ### The process -/

/-- `vma_tree` and the structs in memory, the protection of the page in which an
address lies (`none`: not mapped), how often the lock of a struct was initialised,
and the allocations that were returned and that nobody has begun to free. -/
structure Mem where
  heap : Heap
  prot : ℕ → Option (BitVec 32)
  inits : Addr → ℕ
  live : List Alloc

def setProt (prot : ℕ → Option (BitVec 32)) (addr len : ℕ) (p : Option (BitVec 32)) :
    ℕ → Option (BitVec 32) :=
  fun x => if addr ≤ x ∧ x < addr + len then p else prot x

def Allowed (p : Option (BitVec 32)) (write : Bool) : Prop :=
  ∃ b, p = some b ∧ b &&& (if write then PROT_WRITE else PROT_READ) ≠ 0

instance (p : Option (BitVec 32)) (write : Bool) : Decidable (Allowed p write) :=
  match p with
  | none => isFalse nofun
  | some b => decidable_of_iff (b &&& (if write then PROT_WRITE else PROT_READ) ≠ 0)
      (by simp [Allowed])

/-- `mmap` returns pages that were not mapped. -/
structure MmapOk (ps : PageSize) (m : Mem) (a : Alloc) : Prop where
  aligned : a.vma.toNat % ps.bytes = 0
  nonempty : 0 < (a.mmapSz ps).toNat
  fits : a.vma.toNat + (a.mmapSz ps).toNat < 2 ^ 64
  fresh : ∀ x, a.vma.toNat ≤ x → x < a.vma.toNat + (a.mmapSz ps).toNat → m.prot x = none

/-! ### Threads -/

/-- `vma_tree.lock`, and the lock that a struct got when it was initialised for the
`k`-th time. -/
inductive LockId
  | tree
  | node (z : Addr) (k : ℕ)
  deriving DecidableEq

structure Access where
  addr : Addr
  write : Bool
  faults : ℕ
  deriving DecidableEq

inductive Caller
  | handler (x : Access)
  | free (ptr : Addr)
  deriving DecidableEq

def Caller.addr : Caller → Addr
  | handler x => x.addr
  | free ptr => ptr

/-- What a thread is about to do. -/
inductive Point
  | rest
  -- `ooc_malloc`, from `sp_tree_insert` on
  | insertGet (a : Alloc)
  | insert (a : Alloc)
  | insertLet (a : Alloc)
  | mallocReturn (a : Alloc)
  | access (x : Access)
  -- `sp_tree_find_and_lock`
  | findGet (c : Caller)
  | find (c : Caller)
  | findGetNode (c : Caller) (z : Addr) (k : ℕ)
  | findLet (c : Caller) (z : Addr) (k : ℕ)
  -- `S_sigsegv_handler`, with the node found
  | handle (x : Access) (z : Addr) (k : ℕ)
  | protect (x : Access) (z : Addr) (k : ℕ) (ans : Answer)
  | handleLet (x : Access) (z : Addr) (k : ℕ)
  -- `ooc_free`, with the node found
  | freeRead (z : Addr) (k : ℕ)
  | removeGet (z : Addr) (k : ℕ) (vmAddr : ℕ)
  | remove (z : Addr) (k : ℕ) (vmAddr : ℕ)
  | removeLet (z : Addr) (k : ℕ)
  | unmap (z : Addr) (k : ℕ)
  deriving DecidableEq

/-- A thread, with the locks that it still held when an operation of it was over. -/
structure Pc where
  now : Point
  kept : List LockId
  deriving DecidableEq

/-- What a thread decides to do next, with what the system answers. -/
inductive Input
  | malloc (size : BitVec 64) (mmapRet : Option Addr) (mprotectOk : Bool)
  | access (addr : Addr) (write : Bool)
  | free (ptr : Addr)
  | nothing
  deriving DecidableEq

def Caller.found (z : Addr) (k : ℕ) : Caller → Point
  | handler x => .handle x z k
  | free _ => .freeRead z k

def Pc.get (p : Pc) (ℓ : LockId) (q : Point) : Instr LockId Pc := .get ℓ ⟨q, p.kept⟩

def Pc.drop (p : Pc) (ℓ : LockId) (q : Point) : Instr LockId Pc :=
  .drop ℓ ⟨q, p.kept.filter (· ≠ ℓ)⟩

def instr (p : Pc) : Instr LockId Pc :=
  match p.now with
  | .insertGet a => p.get .tree (.insert a)
  | .insertLet a => p.drop .tree (.mallocReturn a)
  | .findGet c => p.get .tree (.find c)
  | .findGetNode c z k => p.get (.node z k) (.findLet c z k)
  | .findLet c z k => p.drop .tree (c.found z k)
  | .handleLet x z k => p.drop (.node z k) (.access { x with faults := x.faults + 1 })
  | .removeGet z k s => p.get .tree (.remove z k s)
  | .removeLet z k => p.drop .tree (.unmap z k)
  | _ => .code

/-- The part of `ooc_malloc` before `sp_tree_insert`. The struct is written to when it
is inserted; nobody else can see it before. -/
def mallocStart (ps : PageSize) (m : Mem) (size : BitVec 64) (mmapRet : Option Addr)
    (mprotectOk : Bool) : Mem × Point :=
  match mmapRet with
  | none => (m, .rest)
  | some vma =>
    let a : Alloc := ⟨vma, size⟩
    let prot := setProt m.prot vma.toNat (a.mmapSz ps).toNat (some PROT_READ)
    if mprotectOk then
      ({ m with
          prot := setProt prot vma.toNat (ALIGN ps SIZEOF_VM_AREA).toNat
            (some (PROT_READ ||| PROT_WRITE)) },
        .insertGet a)
    else ({ m with prot := setProt prot vma.toNat (a.mmapSz ps).toNat none }, .rest)

/-- `sp_tree_insert` between taking and releasing the tree's lock. `S_sp_node_init`
makes a new lock. -/
def insert (ps : PageSize) (m : Mem) (a : Alloc) : Option Mem :=
  (spTreeInsert (m.heap.put (.vma a.vma) (some (a.vmArea ps))) (some (.vma a.vma))).map fun h =>
    { m with heap := h, inits := Function.update m.inits a.vma (m.inits a.vma + 1) }

def find (m : Mem) (c : Caller) : Option (Mem × Point) :=
  match spTreeFindAndLock m.heap c.addr.toNat with
  | some (h, some (.vma z)) => some ({ m with heap := h }, .findGetNode c z (m.inits z))
  | _ => none

/-- The handler's update of the flags. -/
def handle (m : Mem) (z : Addr) : Option (Mem × Answer) := do
  let v ← m.heap.cell (.vma z)
  let h ← m.heap.upd (some (.vma z)) fun v => { v with vmFlags := (answer v.vmFlags).1 }
  return ({ m with heap := h }, (answer v.vmFlags).2)

def protect (ps : PageSize) (m : Mem) (addr : Addr) (ans : Answer) : Option Mem := do
  guard (m.prot (pageAlign ps addr).toNat ≠ none)
  return { m with prot := setProt m.prot (pageAlign ps addr).toNat ps.bytes (some ans.prot) }

/-- The end of `ooc_free`, when the node has been removed. -/
def unmap (ps : PageSize) (m : Mem) (z : Addr) : Option Mem := do
  let v ← m.heap.cell (.vma z)
  let dataSz := ALIGN ps (BitVec.ofNat 64 v.vmEnd - BitVec.ofNat 64 v.vmStart)
  let mmapSz := ALIGN ps SIZEOF_VM_AREA + dataSz
  return { m with
    heap := m.heap.put (.vma z) none
    prot := setProt m.prot z.toNat mmapSz.toNat none }

def codePoint (ps : PageSize) (q : Point) (m : Mem) (i : Input) : Option (Mem × Point) :=
  match q, i with
  | .rest, .malloc size mmapRet mprotectOk => some (mallocStart ps m size mmapRet mprotectOk)
  | .rest, .access addr write => some (m, .access ⟨addr, write, 0⟩)
  | .rest, .free ptr => some ({ m with live := m.live.filter fun a => a.vmStart ps ≠ ptr },
      .findGet (.free ptr))
  | .insert a, _ => (insert ps m a).map fun m => (m, .insertLet a)
  | .mallocReturn a, _ => some ({ m with live := a :: m.live }, .rest)
  | .access x, _ => some (m, if Allowed (m.prot x.addr.toNat) x.write then .rest
      else .findGet (.handler x))
  | .find c, _ => find m c
  | .handle x z k, _ => (handle m z).map fun r => (r.1, .protect x z k r.2)
  | .protect x z k ans, _ => (protect ps m x.addr ans).map fun m => (m, .handleLet x z k)
  | .freeRead z k, _ => (m.heap.cell (.vma z)).map fun v => (m, .removeGet z k v.vmStart)
  | .remove z k s, _ => (spTreeRemove m.heap s).map fun h => ({ m with heap := h }, .removeLet z k)
  | .unmap z _, _ => (unmap ps m z).map fun m => (m, .rest)
  | _, _ => none

/-- When `ooc_free` is over, the thread still holds the lock of the node. -/
def Point.keeps : Point → List LockId
  | .unmap z k => [.node z k]
  | _ => []

def code (ps : PageSize) (p : Pc) (m : Mem) (i : Input) : Option (Mem × Pc) :=
  (codePoint ps p.now m i).map fun r => (r.1, ⟨r.2, p.now.keeps ++ p.kept⟩)

/-- Programs access and free what they were given and have not freed. -/
def InputOk (ps : PageSize) (p : Pc) (m : Mem) (i : Input) : Prop :=
  match p.now, i with
  | .rest, .malloc size mmapRet _ => ∀ vma, mmapRet = some vma → MmapOk ps m ⟨vma, size⟩
  | .rest, .access addr _ => ∃ a ∈ m.live, a.Owns ps addr
  | .rest, .free ptr => ∃ a ∈ m.live, a.vmStart ps = ptr
  | .rest, .nothing => False
  | _, i => i = .nothing

def LockMapped (m : Mem) : LockId → Prop
  | .tree => True
  | .node z _ => m.heap.cell (.vma z) ≠ none

def threads (Tid : Type) (ps : PageSize) : Machine Tid LockId Pc Mem Input where
  instr := fun _ => instr
  input := InputOk ps
  code := fun _ => code ps
  reachable := LockMapped

abbrev State (Tid : Type) := LockMachine.State Tid LockId Pc Mem

/-- Nothing is allocated and no thread has done anything. -/
structure Start {Tid : Type} (s : State Tid) : Prop where
  root : s.mem.heap.root = none
  stack : s.mem.heap.cell .stack = none
  prot : ∀ x, s.mem.prot x = none
  live : s.mem.live = []
  lock : ∀ ℓ, s.lock ℓ = none
  pc : ∀ t, s.pc t = ⟨.rest, []⟩

end OpenOOC.Sched
