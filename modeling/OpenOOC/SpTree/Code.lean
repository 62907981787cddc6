import OpenOOC.Common

/-! `sp_tree.c`: each function is what its C text does between taking and
releasing the tree's lock. `none` is a failed assert, a NULL dereference, an
access to a struct that has been given back, or a loop that does not end. -/

namespace OpenOOC

/-! ### Macros -/

inductive Which
  | spL
  | spR
  deriving DecidableEq

def VmArea.setChild (v : VmArea) (b : Ptr) : Which → VmArea
  | .spL => { v with spL := b }
  | .spR => { v with spR := b }

/-- `MAKE_CHILD(A, WHICH, B)`. The last line clears a parent link that points
back at the new child; with no child and no parent it rewrites NULL. -/
def makeChild (h : Heap) (a : Ptr) (which : Which) (b : Ptr) : Option Heap := do
  let h ← h.upd a fun v => v.setChild b which
  let h ← h.updIf b fun v => { v with spP := a }
  let va ← h.get a
  if va.spP = b then h.upd a fun v => { v with spP := none } else pure h

/-- `FIX_LISTLT(A, B)`: puts `a` into the list just before `b`. -/
def fixListLt (h : Heap) (a b : Ptr) : Option Heap := do
  let vb ← h.get b
  let h ← h.upd a fun v => { v with vmPrev := vb.vmPrev }
  let h ← h.upd a fun v => { v with vmNext := b }
  let va ← h.get a
  let h ← h.updIf va.vmPrev fun v => { v with vmNext := a }
  h.upd b fun v => { v with vmPrev := a }

/-- `FIX_LISTGT(A, B)`: puts `a` into the list just after `b`. -/
def fixListGt (h : Heap) (a b : Ptr) : Option Heap := do
  let h ← h.upd a fun v => { v with vmPrev := b }
  let vb ← h.get b
  let h ← h.upd a fun v => { v with vmNext := vb.vmNext }
  let va ← h.get a
  let h ← h.updIf va.vmNext fun v => { v with vmPrev := a }
  h.upd b fun v => { v with vmNext := a }

def fixListRm (h : Heap) (a : Ptr) : Option Heap := do
  let va ← h.get a
  let h ← h.updIf va.vmPrev fun v => { v with vmNext := va.vmNext }
  let va ← h.get a
  h.updIf va.vmNext fun v => { v with vmPrev := va.vmPrev }

def VM_PROT_NONE : BitVec 64 := 0x0
def VM_PROT_READ : BitVec 64 := 0x1
def VM_PROT_WRITE : BitVec 64 := 0x3

def VM_PROT_PROMOTE (prot : BitVec 64) : BitVec 64 :=
  (prot &&& ~~~(0x3 : BitVec 64)) ||| (((prot &&& 0x3) <<< 1) ||| 0x1)

/-! ### Nodes -/

/-- `S_sp_node_init`, less the lock. -/
def sSpNodeInit (h : Heap) (n : Ptr) : Option Heap :=
  h.upd n fun v =>
    { v with spP := none, spL := none, spR := none, vmPrev := none, vmNext := none }

/-- The number that a pointer is. The stack address is not known. -/
def Ref.toNat : Ptr → Option ℕ
  | none => some 0
  | some (.vma a) => some a.toNat
  | some .stack => none

def Ref.ofNat (n : ℕ) : Ptr :=
  if n = 0 then none else some (.vma (BitVec.ofNat 64 n))

def dec64 (n : ℕ) : ℕ := if n = 0 then 2 ^ 64 - 1 else n - 1

/-- What `vma_free` does to a struct that lies at the start of a block, so that
`S_vma_2block` takes the struct for its own block header. The words of the two
records coincide: `vctr` is `vm_next`, the lock is in `sp_p`, `head` is `sp_l`.
The lock must read as free; then `vma->vm_next = block->head; block->head = vma;
block->vctr--;`. A count of 0 would lead into a pool at the address that the
flags word holds. Otherwise `vma->vm_next`, being `vctr`, is not NULL either and
nothing more happens. -/
def vmaFreeHeader (a : Addr) (v : VmArea) : Option VmArea := do
  guard (v.spP = none)
  let head ← Ref.toNat v.spL
  let vctr := dec64 head
  guard (vctr ≠ 0)
  return { v with vmNext := Ref.ofNat vctr, spL := some (.vma a) }

/-- `vma_free` as its caller sees it. A struct inside a block goes back to the
slab and is no longer the caller's. -/
def vmaFree (h : Heap) (n : Ptr) : Option Heap := do
  match n with
  | some (.vma a) =>
    let v ← h.cell (.vma a)
    let h := { h with calls := h.calls ++ [VmaCall.free a] }
    if a.toNat % BLOCK_SIZE = 0 then
      let v ← vmaFreeHeader a v
      return h.put (.vma a) (some v)
    else
      return h.put (.vma a) none
  | _ => none

def sSpNodeFree (h : Heap) (n : Ptr) : Option Heap := vmaFree h n

/-- `vma_alloc` as its caller sees it: the next struct of the supply, or NULL. -/
def vmaAlloc (h : Heap) : Heap × Ptr :=
  match h.supply with
  | some (a, v) :: rest =>
    ({ h with supply := rest, calls := h.calls ++ [VmaCall.alloc (some a)] }.put (.vma a) (some v),
      some (.vma a))
  | none :: rest => ({ h with supply := rest, calls := h.calls ++ [VmaCall.alloc none] }, none)
  | [] => ({ h with calls := h.calls ++ [VmaCall.alloc none] }, none)

/-! ### Splaying -/

/-- `MAKE_CHILD(r, sp_l, t); r = t; t = t->sp_l;` and its mirror image: the new
end of the partial tree and the new current node. -/
def splayLink (h : Heap) (side : Ptr) (which : Which) (t : Ptr) : Option (Heap × Ptr × Ptr) := do
  let h ← makeChild h side which t
  let vt ← h.get t
  match which with
  | .spL => return (h, t, vt.spL)
  | .spR => return (h, t, vt.spR)

/-- The `for (;;)` of `S_sp_tree_splay`, up to a `break`. -/
def splayLoop (vmAddr : ℕ) : ℕ → Heap → Ptr → Ptr → Ptr → Option (Heap × Ptr × Ptr × Ptr)
  | 0, _, _, _, _ => none
  | fuel + 1, h, l, r, t => do
    let vt ← h.get t
    if vmAddr < vt.vmStart then
      if vt.spL = none then return (h, l, r, t)
      let y := vt.spL
      let vy ← h.get y
      if vmAddr < vy.vmStart then
        let h ← makeChild h t .spL vy.spR      -- rotate right
        let h ← makeChild h y .spR t
        let t := y
        let vt ← h.get t
        if vt.spL = none then return (h, l, r, t)
        let (h, r, t) ← splayLink h r .spL t   -- link right
        splayLoop vmAddr fuel h l r t
      else
        let (h, r, t) ← splayLink h r .spL t
        splayLoop vmAddr fuel h l r t
    else if vt.vmStart < vmAddr then
      if vt.spR = none then return (h, l, r, t)
      let y := vt.spR
      let vy ← h.get y
      if vy.vmStart < vmAddr then
        let h ← makeChild h t .spR vy.spL      -- rotate left
        let h ← makeChild h y .spL t
        let t := y
        let vt ← h.get t
        if vt.spR = none then return (h, l, r, t)
        let (h, l, t) ← splayLink h l .spR t   -- link left
        splayLoop vmAddr fuel h l r t
      else
        let (h, l, t) ← splayLink h l .spR t
        splayLoop vmAddr fuel h l r t
    else return (h, l, r, t)

/-- The node `n` of `S_sp_tree_splay` when it is entered. -/
def splayN : VmArea := ⟨none, none, none, none, none, 0, 0, 0⟩

/-- What follows the loop: the two partial trees get the remaining parts, and
the root gets the partial trees. -/
def splayAssemble (h : Heap) (l r t : Ptr) : Option Heap := do
  let n : Ptr := some .stack
  let vt ← h.get t
  let h ← makeChild h l .spR vt.spL
  let vt ← h.get t
  let h ← makeChild h r .spL vt.spR
  let vn ← h.get n
  let h ← makeChild h t .spL vn.spR
  let vn ← h.get n
  let h ← makeChild h t .spR vn.spL
  h.upd t fun v => { v with spP := none }

/-- `S_sp_tree_splay`. The local `n` is gone when the function returns. -/
def sSpTreeSplay (h : Heap) (vmAddr : ℕ) (t : Ptr) : Option (Heap × Ptr) := do
  if t = none then return (h, t)
  let n : Ptr := some .stack
  let h := h.put .stack (some splayN)
  let (h, l, r, t) ← splayLoop vmAddr LOOP_BOUND h n n t
  let h ← splayAssemble h l r t
  return (h.put .stack none, t)

/-! ### Insertion and removal below a splayed root -/

def sSpTreeInsertHelper (h : Heap) (t z : Ptr) : Option Heap := do
  if h.root = none then return { h with root := z }
  let vz ← h.get z
  let vt ← h.get t
  if vz.vmStart < vt.vmStart then
    let h ← fixListLt h z t
    let vt ← h.get t
    let h ← makeChild h z .spL vt.spL
    let h ← makeChild h z .spR t
    let h ← h.upd t fun v => { v with spL := none }
    return { h with root := z }
  else
    guard (vt.vmStart < vz.vmStart)
    let h ← fixListGt h z t
    let vt ← h.get t
    let h ← makeChild h z .spR vt.spR
    let h ← makeChild h z .spL t
    let h ← h.upd t fun v => { v with spR := none }
    return { h with root := z }

def sSpTreeRemoveHelper (h : Heap) (t : Ptr) : Option Heap := do
  let h ← fixListRm h t
  let vt ← h.get t
  if vt.spL ≠ none then
    let (h, z) ← sSpTreeSplay h vt.vmStart vt.spL
    let h ← h.upd z fun v => { v with spP := none }
    let vt ← h.get t
    let h ← makeChild h z .spR vt.spR
    return { h with root := z }
  else
    let z := vt.spR
    let h ← h.updIf z fun v => { v with spP := none }
    return { h with root := z }

/-! ### The tree's operations -/

def spTreeInit (h : Heap) : Heap := { h with root := none }

def spTreeInsert (h : Heap) (z : Ptr) : Option Heap := do
  let h ← sSpNodeInit h z
  let vz ← h.get z
  let (h, t) ← sSpTreeSplay h vz.vmStart h.root
  sSpTreeInsertHelper h t z

def spTreeRemove (h : Heap) (vmAddr : ℕ) : Option Heap := do
  guard (h.root ≠ none)
  let (h, t) ← sSpTreeSplay h vmAddr h.root
  let vt ← h.get t
  guard (vmAddr = vt.vmStart)
  let h ← sSpTreeRemoveHelper h t
  sSpNodeFree h t

/-- The `while` of `sp_tree_free`. -/
def spTreeFreeLoop : ℕ → Heap → Option Heap
  | 0, _ => none
  | fuel + 1, h => do
    if h.root = none then return h
    let v ← h.get h.root
    let h ← spTreeRemove h v.vmStart
    spTreeFreeLoop fuel h

def spTreeFree (h : Heap) : Option Heap := spTreeFreeLoop LOOP_BOUND h

/-- `sp_tree_find_and_lock`, up to the choice of the node whose `vm_lock` it
takes. -/
def spTreeFindAndLock (h : Heap) (vmAddr : ℕ) : Option (Heap × Ptr) := do
  guard (h.root ≠ none)
  let (h, t) ← sSpTreeSplay h vmAddr h.root
  let h := { h with root := t }
  let vr ← h.get h.root
  if vr.vmStart ≤ vmAddr then
    guard (vmAddr < vr.vmEnd)
    return (h, h.root)
  else
    let vp ← h.get vr.vmPrev
    guard (vp.vmStart ≤ vmAddr)
    guard (vmAddr < vp.vmEnd)
    return (h, vr.vmPrev)

end OpenOOC
