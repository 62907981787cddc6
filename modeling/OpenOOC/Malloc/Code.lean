import OpenOOC.SpTree.Code

/-! `malloc.c`. What the system answers is passed in: the address that `mmap`
returns, and whether `mprotect` succeeds. -/

namespace OpenOOC

def ALIGN (ps : PageSize) (m : BitVec 64) : BitVec 64 := (m + ps.word - 1) &&& ~~~(ps.word - 1)

/-- `sizeof(struct vm_area)`: eight words and the lock. -/
def SIZEOF_VM_AREA : BitVec 64 := 72

/-- A system call that maps or unmaps memory, with its result where it has one. -/
inductive SysCall
  | mmap (len : BitVec 64) (r : Option Addr)
  | munmap (vma : Addr) (len : BitVec 64)
  deriving DecidableEq

/-- The process as `malloc.c` sees it: `vma_tree` with the structs in memory, the
system calls made, and what `ooc_malloc` has returned, oldest first. -/
structure Proc where
  heap : Heap
  sys : List SysCall
  rets : List Addr

def Proc.init (h : Heap) : Proc := ⟨spTreeInit h, [], []⟩

/-- `ooc_malloc`. A new mapping reads as zero. `sp_tree_insert` never fails. -/
def oocMalloc (ps : PageSize) (p : Proc) (size : BitVec 64) (mmapRet : Option Addr)
    (mprotectOk : Bool) : Option (Proc × Addr) :=
  let dataSz := ALIGN ps size
  let infoSz := ALIGN ps SIZEOF_VM_AREA
  let mmapSz := infoSz + dataSz
  let sys := p.sys ++ [.mmap mmapSz mmapRet]
  match mmapRet with
  | none => some ({ p with sys := sys, rets := p.rets ++ [0] }, 0)
  | some vma =>
    if mprotectOk then do
      let vmStart := vma + infoSz
      let vmEnd := vmStart + size
      let v : VmArea := ⟨none, none, none, none, none, 0, vmStart.toNat, vmEnd.toNat⟩
      let heap ← spTreeInsert (p.heap.put (.vma vma) (some v)) (some (.vma vma))
      return ({ heap := heap, sys := sys, rets := p.rets ++ [vmStart] }, vmStart)
    else some ({ p with sys := sys ++ [.munmap vma mmapSz], rets := p.rets ++ [0] }, 0)

/-- `ooc_free`. The struct of a removed node is read once more before its page
goes away with the mapping. -/
def oocFree (ps : PageSize) (p : Proc) (ptr : Addr) : Option Proc := do
  let (h, vma) ← spTreeFindAndLock p.heap ptr.toNat
  let v ← h.get vma
  let h ← spTreeRemove h v.vmStart
  let v ← h.get vma
  let dataSz := ALIGN ps (BitVec.ofNat 64 v.vmEnd - BitVec.ofNat 64 v.vmStart)
  let infoSz := ALIGN ps SIZEOF_VM_AREA
  let mmapSz := infoSz + dataSz
  match vma with
  | some (.vma a) =>
    return { p with heap := h.put (.vma a) none, sys := p.sys ++ [.munmap a mmapSz] }
  | _ => none

end OpenOOC
