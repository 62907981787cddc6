import OpenOOC.SpTree.Code

/-! `sp_tree_find_mod_and_lock`, up to the choice of the node whose `vm_lock` it
takes: one definition for each way in which it changes the tree. -/

namespace OpenOOC

/-- `(void*)((char*)vm_addr+OOC_PAGE_SIZE)`. -/
def PageSize.after (ps : PageSize) (vmAddr : ℕ) : ℕ := (vmAddr + ps.bytes) % 2 ^ 64

/-- A struct from `vma_alloc` with its range, and with its flags if they are set. -/
def newNode (h : Heap) (vmStart vmEnd : ℕ) (vmFlags : Option (BitVec 64)) :
    Option (Heap × Ptr) := do
  let (h, z) := vmaAlloc h
  let h ← h.upd z fun v => { v with vmStart := vmStart }
  let h ← h.upd z fun v => { v with vmEnd := vmEnd }
  let h ← match vmFlags with
    | some f => h.upd z fun v => { v with vmFlags := f }
    | none => pure h
  let h ← sSpNodeInit h z
  return (h, z)

/-- `z->vm_prev && z->vm_prev->vm_end == z->vm_start && z->vm_prev->vm_flags == flags`. -/
def prevMatches (h : Heap) (z : Ptr) (flags : BitVec 64) : Option Bool := do
  let vz ← h.get z
  if vz.vmPrev = none then return false
  let vp ← h.get vz.vmPrev
  return vp.vmEnd = vz.vmStart ∧ vp.vmFlags = flags

/-- `z->vm_next && z->vm_next->vm_start == z->vm_end && z->vm_next->vm_flags == flags`. -/
def nextMatches (h : Heap) (z : Ptr) (flags : BitVec 64) : Option Bool := do
  let vz ← h.get z
  if vz.vmNext = none then return false
  let vn ← h.get vz.vmNext
  return vn.vmStart = vz.vmEnd ∧ vn.vmFlags = flags

/-- `Do prefix merge.`: `z` goes away and its range goes to `vm_prev`. -/
def prefixMerge (h : Heap) (z : Ptr) : Option (Heap × Ptr) := do
  let vz ← h.get z
  let h ← sSpTreeRemoveHelper h z
  let h ← sSpNodeFree h z
  let h ← h.upd vz.vmPrev fun v => { v with vmEnd := vz.vmEnd }
  return (h, vz.vmPrev)

/-- `Do suffix merge.`: `z` goes away and its range goes to `vm_next`. -/
def suffixMerge (h : Heap) (z : Ptr) : Option (Heap × Ptr) := do
  let vz ← h.get z
  let h ← sSpTreeRemoveHelper h z
  let h ← sSpNodeFree h z
  let h ← h.upd vz.vmNext fun v => { v with vmStart := vz.vmStart }
  return (h, vz.vmNext)

/-- A prefix merge, if `vm_prev` touches `z` and has these flags. -/
def mergePrev (h : Heap) (z : Ptr) (flags : BitVec 64) : Option (Heap × Ptr) := do
  if ← prevMatches h z flags then prefixMerge h z else return (h, z)

def mergeNext (h : Heap) (z : Ptr) (flags : BitVec 64) : Option (Heap × Ptr) := do
  if ← nextMatches h z flags then suffixMerge h z else return (h, z)

/-- A page that no node covers; `t` is the splayed root. -/
def addPage (ps : PageSize) (h : Heap) (vmAddr : ℕ) (t : Ptr) : Option (Heap × Ptr) := do
  let (h, z) ← newNode h vmAddr (ps.after vmAddr) (some VM_PROT_READ)
  let h ← sSpTreeInsertHelper h t z
  let vz ← h.get z
  let (h, z) ← mergePrev h z vz.vmFlags
  let vz ← h.get z
  mergeNext h z vz.vmFlags

/-- `Do mid split`. The two insertions start at `sp->root`. -/
def midSplit (ps : PageSize) (h : Heap) (vmAddr : ℕ) (n : Ptr) : Option (Heap × Ptr) := do
  let vn ← h.get n
  let (h, z) ← newNode h vmAddr (ps.after vmAddr) (some (VM_PROT_PROMOTE vn.vmFlags))
  let vz ← h.get z
  let vn ← h.get n
  let (h, t) ← newNode h vz.vmEnd vn.vmEnd (some vn.vmFlags)
  let h ← h.upd n fun v => { v with vmEnd := vz.vmStart }
  let h ← sSpTreeInsertHelper h h.root t
  let h ← sSpTreeInsertHelper h h.root z
  return (h, z)

/-- `Do prefix migrate.`: the page goes to the node before `n`. -/
def prefixMigrate (ps : PageSize) (h : Heap) (vmAddr : ℕ) (t n : Ptr) : Option (Heap × Ptr) := do
  let vn ← h.get n
  let vmPrev := vn.vmPrev
  let h ← if ps.after vmAddr = vn.vmEnd then do
      let h ← sSpTreeRemoveHelper h n
      sSpNodeFree h n
    else h.upd n fun v => { v with vmStart := ps.after vmAddr }
  let h ← h.upd vmPrev fun v => { v with vmEnd := ps.after vmAddr }
  let vp ← h.get vmPrev
  let (h, n) ← sSpTreeSplay h vp.vmStart t
  return ({ h with root := n }, n)

/-- `Do prefix split.`: a new node for the page, whose `vm_flags` nobody sets. -/
def prefixSplit (ps : PageSize) (h : Heap) (vmAddr : ℕ) (n : Ptr) : Option (Heap × Ptr) := do
  let (h, z) ← newNode h vmAddr (ps.after vmAddr) none
  let vz ← h.get z
  let h ← h.upd n fun v => { v with vmStart := vz.vmEnd }
  let h ← sSpTreeInsertHelper h h.root z
  return (h, z)

def suffixMigrate (h : Heap) (vmAddr : ℕ) (t n : Ptr) : Option (Heap × Ptr) := do
  let vn ← h.get n
  let vmNext := vn.vmNext
  let h ← if vmAddr = vn.vmStart then do
      let h ← sSpTreeRemoveHelper h n
      sSpNodeFree h n
    else h.upd n fun v => { v with vmEnd := vmAddr }
  let h ← h.upd vmNext fun v => { v with vmStart := vmAddr }
  let vx ← h.get vmNext
  let (h, n) ← sSpTreeSplay h vx.vmStart t
  return ({ h with root := n }, n)

def suffixSplit (ps : PageSize) (h : Heap) (vmAddr : ℕ) (n : Ptr) : Option (Heap × Ptr) := do
  let (h, z) ← newNode h vmAddr (ps.after vmAddr) none
  let vz ← h.get z
  let h ← h.upd n fun v => { v with vmEnd := vz.vmStart }
  let h ← sSpTreeInsertHelper h h.root z
  return (h, z)

/-- The test before the suffix merge of `Try 3-way merge.`: it looks at the range of
`vm_next` and at the flags of `vm_prev`, which may be NULL. -/
def threeWayMatches (h : Heap) (n : Ptr) : Option Bool := do
  let vn ← h.get n
  if vn.vmNext = none then return false
  let vx ← h.get vn.vmNext
  if vx.vmStart = vn.vmEnd then
    let vp ← h.get vn.vmPrev
    return vp.vmFlags = VM_PROT_PROMOTE vn.vmFlags
  else return false

/-- `Try 3-way merge.`: a node of one page. -/
def threeWayMerge (h : Heap) (n : Ptr) : Option (Heap × Ptr) := do
  let vn ← h.get n
  let (h, n) ← mergePrev h n (VM_PROT_PROMOTE vn.vmFlags)
  if ← threeWayMatches h n then suffixMerge h n else return (h, n)

/-- A page that node `n` covers; `t` is the splayed root. -/
def modPage (ps : PageSize) (h : Heap) (vmAddr : ℕ) (t n : Ptr) : Option (Heap × Ptr) := do
  let vn ← h.get n
  if vn.vmStart ≠ vmAddr ∧ vn.vmEnd ≠ ps.after vmAddr then midSplit ps h vmAddr n
  else if vn.vmStart = vmAddr ∧ vn.vmEnd ≠ ps.after vmAddr then
    if ← prevMatches h n (VM_PROT_PROMOTE vn.vmFlags) then prefixMigrate ps h vmAddr t n
    else prefixSplit ps h vmAddr n
  else if vn.vmStart ≠ vmAddr ∧ vn.vmEnd = ps.after vmAddr then
    if ← nextMatches h n (VM_PROT_PROMOTE vn.vmFlags) then suffixMigrate h vmAddr t n
    else suffixSplit ps h vmAddr n
  else threeWayMerge h n

/-- The node that covers the address: the splayed root `t`, the node before it, or none. -/
def coveringNode (h : Heap) (vmAddr : ℕ) (t : Ptr) : Option Ptr := do
  let vt ← h.get t
  if vt.vmStart ≤ vmAddr ∧ vmAddr < vt.vmEnd then return t
  if vt.vmPrev = none then return none
  let vp ← h.get vt.vmPrev
  return if vp.vmStart ≤ vmAddr ∧ vmAddr < vp.vmEnd then vt.vmPrev else none

/-- `sp_tree_find_mod_and_lock`. `sp->root` stays as it was when the splay is done. -/
def spTreeFindMod (ps : PageSize) (h : Heap) (vmAddr : ℕ) : Option (Heap × Ptr) := do
  if h.root = none then
    let (h, z) ← newNode h vmAddr (ps.after vmAddr) (some VM_PROT_READ)
    return ({ h with root := z }, z)
  let (h, t) ← sSpTreeSplay h vmAddr h.root
  let n ← coveringNode h vmAddr t
  if n = none then addPage ps h vmAddr t else modPage ps h vmAddr t n

end OpenOOC
