import Mathlib.Data.BitVec
import Mathlib.Logic.Function.Basic
import Mathlib.Tactic.Common

/-! The data of `common.h` as `sp_tree.c` sees it: `struct vm_area`, the memory
that holds such structs, and what passes between the tree and the slab. -/

namespace OpenOOC

/-- Address of a struct; pointers are 64 bits wide. -/
abbrev Addr := BitVec 64

/-- What a non-NULL `struct sp_node *` may point to: a struct in memory, or the
local variable `n` of `S_sp_tree_splay`. -/
inductive Ref
  | stack
  | vma (a : Addr)
  deriving DecidableEq

abbrev Ptr := Option Ref

/-- `struct vm_area`, also `struct sp_node`. Range ends are address values. -/
structure VmArea where
  vmNext : Ptr
  vmPrev : Ptr
  spP : Ptr
  spL : Ptr
  spR : Ptr
  vmFlags : BitVec 64
  vmStart : ℕ
  vmEnd : ℕ
  deriving DecidableEq

/-- A call that `sp_tree.c` makes to the slab, with its argument or result. -/
inductive VmaCall
  | alloc (r : Option Addr)
  | free (a : Addr)
  deriving DecidableEq

/-- The structs in memory (`none`: no struct of the caller's is at that place),
the tree, and the slab's side: the structs that the next calls of `vma_alloc`
hand out, with their stale contents, and the calls made so far. -/
structure Heap where
  cell : Ref → Option VmArea
  root : Ptr
  supply : List (Option (Addr × VmArea))
  calls : List VmaCall

namespace Heap

/-- `*p`; NULL and structs that are not the caller's cannot be read. -/
def get (h : Heap) : Ptr → Option VmArea
  | none => none
  | some r => h.cell r

/-- `*p = f(*p)`. -/
def upd (h : Heap) (p : Ptr) (f : VmArea → VmArea) : Option Heap :=
  match p with
  | none => none
  | some r => (h.cell r).map fun v => { h with cell := Function.update h.cell r (some (f v)) }

/-- `if (p) *p = f(*p)`. -/
def updIf (h : Heap) (p : Ptr) (f : VmArea → VmArea) : Option Heap :=
  if p = none then some h else h.upd p f

def put (h : Heap) (r : Ref) (v : Option VmArea) : Heap :=
  { h with cell := Function.update h.cell r v }

end Heap

def BLOCK_SIZE : ℕ := 4096

/-- `OOC_PAGE_SIZE`: what `sysconf(_SC_PAGESIZE)` returns is a power of two, and
no less than `BLOCK_SIZE`. -/
structure PageSize where
  bits : ℕ
  block_le : 12 ≤ bits
  lt_word : bits < 64

namespace PageSize

variable (ps : PageSize)

def bytes : ℕ := 2 ^ ps.bits

def word : BitVec 64 := BitVec.ofNat 64 ps.bytes

def small : PageSize := ⟨12, by decide, by decide⟩

end PageSize

/-- No loop that ends takes more steps than there are addresses: it visits
distinct structs. -/
def LOOP_BOUND : ℕ := 2 ^ 64

end OpenOOC
