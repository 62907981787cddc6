import OpenOOC.Malloc.Code
import OpenOOC.SpTree.Runs

/-! Runs of `ooc_malloc` and `ooc_free`. The abstract state is the set of live
allocations; it determines the nodes of the tree and the next system call. -/

namespace OpenOOC

open SplayTree SplayTree.Tree

/-! ### Rounding -/

section

variable (ps : PageSize)

theorem bytes_lt : ps.bytes < 2 ^ 64 := Nat.pow_lt_pow_right Nat.one_lt_two ps.lt_word

theorem block_dvd_bytes : BLOCK_SIZE ∣ ps.bytes := pow_dvd_pow 2 ps.block_le

theorem bytes_ge : BLOCK_SIZE ≤ ps.bytes := Nat.le_of_dvd (Nat.two_pow_pos _) (block_dvd_bytes ps)

theorem word_toNat : ps.word.toNat = ps.bytes := Nat.mod_eq_of_lt (bytes_lt ps)

/-- The mask of `ALIGN` clears the bits below a page. -/
theorem mask_toNat (x : BitVec 64) :
    (x &&& ~~~(ps.word - 1)).toNat = x.toNat / ps.bytes * ps.bytes := by
  have hm : ps.word - 1 = BitVec.ofNat 64 (2 ^ ps.bits - 1) := by
    apply BitVec.eq_of_toNat_eq
    have h1 := bytes_ge ps
    have h2 := bytes_lt ps
    have h3 : BLOCK_SIZE = 4096 := rfl
    rw [BitVec.toNat_sub, word_toNat, BitVec.toNat_ofNat]
    unfold PageSize.bytes at *
    simp
    omega
  have hshift : x &&& ~~~(ps.word - 1) = (x >>> ps.bits) <<< ps.bits := by
    rw [hm]
    apply BitVec.eq_of_getLsbD_eq
    intro i hi
    simp only [BitVec.getLsbD_and, BitVec.getLsbD_not, BitVec.getLsbD_ofNat, hi, decide_true,
      Bool.true_and, Nat.testBit_two_pow_sub_one, BitVec.getLsbD_shiftLeft,
        BitVec.getLsbD_ushiftRight]
    by_cases hib : i < ps.bits
    · simp [hib]
    · simp [hib, Nat.add_sub_cancel' (Nat.le_of_not_lt hib)]
  rw [hshift, BitVec.toNat_shiftLeft, BitVec.toNat_ushiftRight, Nat.shiftRight_eq_div_pow,
    Nat.shiftLeft_eq]
  exact Nat.mod_eq_of_lt (lt_of_le_of_lt (Nat.div_mul_le_self _ _) x.isLt)

def roundUp (m : ℕ) : ℕ := (m + ps.bytes - 1) / ps.bytes * ps.bytes

theorem ALIGN_toNat {m : BitVec 64} (hm : m.toNat + ps.bytes ≤ 2 ^ 64) :
    (ALIGN ps m).toNat = roundUp ps m.toNat := by
  have h1 := bytes_ge ps
  have h2 := bytes_lt ps
  have h3 : BLOCK_SIZE = 4096 := rfl
  have hsum : (m + ps.word - 1).toNat = m.toNat + ps.bytes - 1 := by
    rw [BitVec.toNat_sub, BitVec.toNat_add, word_toNat]
    simp
    omega
  rw [ALIGN, mask_toNat, hsum, roundUp]

theorem roundUp_ge (m : ℕ) : m ≤ roundUp ps m := by
  have h1 := bytes_ge ps
  have h3 : BLOCK_SIZE = 4096 := rfl
  have h4 := Nat.div_add_mod (m + ps.bytes - 1) ps.bytes
  have h5 := Nat.mod_lt (m + ps.bytes - 1) (show 0 < ps.bytes by omega)
  have h6 := Nat.mul_comm ps.bytes ((m + ps.bytes - 1) / ps.bytes)
  unfold roundUp
  omega

theorem infoSz_toNat : (ALIGN ps SIZEOF_VM_AREA).toNat = ps.bytes := by
  have h1 := bytes_ge ps
  have h3 : BLOCK_SIZE = 4096 := rfl
  have h64 : (2 : ℕ) ^ 64 = 2 ^ ps.bits * 2 ^ (64 - ps.bits) := by
    rw [← pow_add, Nat.add_sub_cancel' ps.lt_word.le]
  have hpow : 2 ≤ 2 ^ (64 - ps.bits) := by
    calc 2 = 2 ^ 1 := rfl
      _ ≤ 2 ^ (64 - ps.bits) := Nat.pow_le_pow_right Nat.two_pos (by have := ps.lt_word; omega)
  have hle : ps.bytes * 2 ≤ 2 ^ 64 := by
    rw [h64]
    exact Nat.mul_le_mul_left _ hpow
  have h72 : SIZEOF_VM_AREA.toNat = 72 := rfl
  rw [ALIGN_toNat ps (by omega), h72, roundUp]
  have hdiv : (72 + ps.bytes - 1) / ps.bytes = 1 := by
    rw [show 72 + ps.bytes - 1 = 71 + ps.bytes * 1 by omega, Nat.add_mul_div_left _ _ (by omega),
      Nat.div_eq_of_lt (by omega)]
  rw [hdiv, one_mul]

end

/-! ### The abstract state -/

/-- A live allocation: the region's base and the size that was asked for. -/
structure Alloc where
  vma : Addr
  size : BitVec 64
  deriving DecidableEq

namespace Alloc

variable (ps : PageSize) (a : Alloc)

def ptr : ℕ := a.vma.toNat + ps.bytes

/-- The length of the region: one page for the struct, then whole pages. -/
def len : ℕ := ps.bytes + roundUp ps a.size.toNat

def node : Node := ⟨a.vma, 0, a.ptr ps, a.ptr ps + a.size.toNat⟩

def dataSz : BitVec 64 := ALIGN ps a.size
def mmapSz : BitVec 64 := ALIGN ps SIZEOF_VM_AREA + a.dataSz ps
def vmStart : Addr := a.vma + ALIGN ps SIZEOF_VM_AREA
def vmEnd : Addr := a.vmStart ps + a.size

/-- The header, in memory that reads as zero. -/
def vmArea : VmArea := ⟨none, none, none, none, none, 0, (a.vmStart ps).toNat, (a.vmEnd ps).toNat⟩

/-- The address is one of those that were asked for. -/
def Owns (addr : Addr) : Prop := (a.vmStart ps).toNat ≤ addr.toNat ∧ addr.toNat < (a.vmEnd ps).toNat

instance (addr : Addr) : Decidable (a.Owns ps addr) := inferInstanceAs (Decidable (_ ∧ _))

end Alloc

/-- A successful `ooc_malloc` with the address that `mmap` returns in it, or an
`ooc_free`. -/
inductive MemOp
  | malloc (size : BitVec 64) (vma : Addr)
  | free (ptr : Addr)

def MemOp.exec (ps : PageSize) (p : Proc) : MemOp → Option Proc
  | .malloc size vma => (oocMalloc ps p size (some vma) true).map (·.1)
  | .free ptr => oocFree ps p ptr

def MemOp.live (ps : PageSize) (S : List Alloc) : MemOp → List Alloc
  | .malloc size vma => ⟨vma, size⟩ :: S
  | .free ptr => S.filter fun a => a.ptr ps ≠ ptr.toNat

/-- The system call that belongs to a call: an allocation is unmapped as it was mapped. -/
def MemOp.sys (ps : PageSize) (S : List Alloc) : MemOp → List SysCall
  | .malloc size vma => [.mmap (BitVec.ofNat 64 (Alloc.len ps ⟨vma, size⟩)) (some vma)]
  | .free ptr => (S.filter fun a => a.ptr ps = ptr.toNat).map fun a =>
      .munmap a.vma (BitVec.ofNat 64 (a.len ps))

def MemOp.rets (ps : PageSize) : MemOp → List Addr
  | .malloc size vma => [BitVec.ofNat 64 (Alloc.ptr ps ⟨vma, size⟩)]
  | .free _ => []

/-- No sum of `ooc_malloc` overflows, and `mmap` returns a fresh page-aligned
region: one that ends inside the address space and meets no live one. A freed
pointer is that of a live allocation. -/
def MemPre (ps : PageSize) (S : List Alloc) : MemOp → Prop
  | .malloc size vma =>
    size.toNat + ps.bytes ≤ 2 ^ 64 ∧ vma.toNat % ps.bytes = 0 ∧
      vma.toNat + Alloc.len ps ⟨vma, size⟩ < 2 ^ 64 ∧
      ∀ a ∈ S, a.vma.toNat + a.len ps ≤ vma.toNat ∨
        vma.toNat + Alloc.len ps ⟨vma, size⟩ ≤ a.vma.toNat
  | .free ptr => ∃ a ∈ S, a.ptr ps = ptr.toNat

/-- An allocation that a call frees has at least one byte. -/
def FreesNonempty (ps : PageSize) (S : List Alloc) : MemOp → Prop
  | .malloc .. => True
  | .free ptr => ∀ a ∈ S, a.ptr ps = ptr.toNat → a.size ≠ 0

def execMem (ps : PageSize) (p : Proc) : List MemOp → Option Proc
  | [] => some p
  | op :: ops => (op.exec ps p).bind fun p => execMem ps p ops

def liveMem (ps : PageSize) (S : List Alloc) : List MemOp → List Alloc
  | [] => S
  | op :: ops => liveMem ps (op.live ps S) ops

def sysMem (ps : PageSize) (S : List Alloc) : List MemOp → List SysCall
  | [] => []
  | op :: ops => op.sys ps S ++ sysMem ps (op.live ps S) ops

def retsMem (ps : PageSize) (ops : List MemOp) : List Addr := ops.flatMap (·.rets ps)

def EachMem (ps : PageSize) (pre : List Alloc → MemOp → Prop) (S : List Alloc) : List MemOp → Prop
  | [] => True
  | op :: ops => pre S op ∧ EachMem ps pre (op.live ps S) ops

def nodesMem (ps : PageSize) (S : List Alloc) : Finset Node := (S.map (·.node ps)).toFinset

/-! ### One call -/

/-- The tree holds the nodes of the live allocations, whose regions are apart. -/
structure MemHolds (ps : PageSize) (p : Proc) (S : List Alloc) (T : Tree Ref) : Prop where
  tree : Holds p.heap (nodesMem ps S) T
  size_le : ∀ a ∈ S, a.size.toNat + ps.bytes ≤ 2 ^ 64
  aligned : ∀ a ∈ S, a.vma.toNat % ps.bytes = 0
  fits : ∀ a ∈ S, a.vma.toNat + a.len ps < 2 ^ 64
  distinct : (S.map (·.vma)).Nodup

section

variable {ps : PageSize} {p : Proc} {S : List Alloc} {T : Tree Ref}

theorem mem_nodesMem {n : Node} : n ∈ nodesMem ps S ↔ ∃ a ∈ S, a.node ps = n := by
  simp [nodesMem]

theorem vma_aligned {z : Addr} (hz : z.toNat % ps.bytes = 0) :
    z.toNat % BLOCK_SIZE = 0 ∧ z.toNat % 8 = 0 := by
  have h1 := Nat.mod_eq_zero_of_dvd ((block_dvd_bytes ps).trans (Nat.dvd_of_mod_eq_zero hz))
  have h2 : BLOCK_SIZE = 4096 := rfl
  rw [h2] at h1 ⊢
  omega

theorem mmapSz_eq {size : BitVec 64} (hs : size.toNat + ps.bytes ≤ 2 ^ 64) :
    ALIGN ps SIZEOF_VM_AREA + ALIGN ps size =
      BitVec.ofNat 64 (ps.bytes + roundUp ps size.toNat) := by
  apply BitVec.eq_of_toNat_eq
  rw [BitVec.toNat_add, infoSz_toNat, ALIGN_toNat ps hs, BitVec.toNat_ofNat]

theorem malloc_range {size : BitVec 64} {vma : Addr}
    (hfit : vma.toNat + Alloc.len ps ⟨vma, size⟩ < 2 ^ 64) :
    (vma + ALIGN ps SIZEOF_VM_AREA).toNat = Alloc.ptr ps ⟨vma, size⟩ ∧
      (vma + ALIGN ps SIZEOF_VM_AREA + size).toNat = Alloc.ptr ps ⟨vma, size⟩ + size.toNat := by
  have hlen : Alloc.len ps ⟨vma, size⟩ = ps.bytes + roundUp ps size.toNat := rfl
  have hptr : Alloc.ptr ps ⟨vma, size⟩ = vma.toNat + ps.bytes := rfl
  have hge := roundUp_ge ps size.toNat
  have hstart : (vma + ALIGN ps SIZEOF_VM_AREA).toNat = Alloc.ptr ps ⟨vma, size⟩ := by
    rw [BitVec.toNat_add, infoSz_toNat]
    exact Nat.mod_eq_of_lt (by omega)
  refine ⟨hstart, ?_⟩
  rw [BitVec.toNat_add, hstart]
  exact Nat.mod_eq_of_lt (by omega)

theorem MemHolds.malloc (hh : MemHolds ps p S T) {size : BitVec 64} {vma : Addr}
    (hpre : MemPre ps S (.malloc size vma)) :
    ∃ p' T', (MemOp.malloc size vma).exec ps p = some p' ∧
      p'.sys = p.sys ++ (MemOp.malloc size vma).sys ps S ∧
      p'.rets = p.rets ++ (MemOp.malloc size vma).rets ps ∧
      MemHolds ps p' ((MemOp.malloc size vma).live ps S) T' := by
  obtain ⟨hsz, hal, hfit, hfresh⟩ := hpre
  have hlen : Alloc.len ps ⟨vma, size⟩ = ps.bytes + roundUp ps size.toNat := rfl
  have hpos : 0 < ps.bytes := Nat.two_pow_pos _
  obtain ⟨hstart, hstop⟩ := malloc_range hfit
  have hnew : ∀ a ∈ S, a.vma ≠ vma := fun a ha he => by
    have hla : 0 < a.len ps := Nat.add_pos_left hpos _
    rcases hfresh a ha with hf | hf
    · rw [he] at hf
      omega
    · rw [he] at hf
      omega
  set v : VmArea := ⟨none, none, none, none, none, 0, (vma + ALIGN ps SIZEOF_VM_AREA).toNat,
    (vma + ALIGN ps SIZEOF_VM_AREA + size).toNat⟩ with hv
  have hnode : v.node vma = Alloc.node ps ⟨vma, size⟩ := by
    rw [Alloc.node, VmArea.node, hv]
    simp only [hstart, hstop]
  obtain ⟨h', T', he, hh'⟩ := hh.tree.insert (z := vma) (v := v)
    ⟨(vma_aligned hal).2, fun n hn => by
    obtain ⟨a, ha, rfl⟩ := mem_nodesMem.mp hn
    refine ⟨hnew a ha, fun hs => hnew a ha (BitVec.eq_of_toNat_eq ?_)⟩
    have hs' : a.ptr ps = Alloc.ptr ps ⟨vma, size⟩ := hs.trans hstart
    simp only [Alloc.ptr] at hs'
    omega⟩
  have he' : spTreeInsert (p.heap.put (.vma vma) (some v)) (some (.vma vma)) = some h' := he
  have hret : vma + ALIGN ps SIZEOF_VM_AREA = BitVec.ofNat 64 (Alloc.ptr ps ⟨vma, size⟩) := by
    rw [← hstart, BitVec.ofNat_toNat, BitVec.setWidth_eq]
  refine ⟨_, T', by simp only [MemOp.exec, oocMalloc, if_true, ← hv, he', Option.bind_eq_bind,
    Option.bind_some, Option.pure_def, Option.map_some]; rfl, ?_, ?_, ?_, ?_, ?_, ?_, ?_⟩
  · simp only [MemOp.sys, hlen, mmapSz_eq hsz]
  · simp only [MemOp.rets, hret]
  · have hset : nodesMem ps ((MemOp.malloc size vma).live ps S) =
        (TreeOp.insert vma v).live (nodesMem ps S) := by
      simp only [nodesMem, MemOp.live, TreeOp.live, List.map_cons, List.toFinset_cons, hnode]
    rw [hset]
    exact hh'
  · exact List.forall_mem_cons.mpr ⟨hsz, hh.size_le⟩
  · exact List.forall_mem_cons.mpr ⟨hal, hh.aligned⟩
  · exact List.forall_mem_cons.mpr ⟨hfit, hh.fits⟩
  · refine List.nodup_cons.mpr ⟨fun hm => ?_, hh.distinct⟩
    obtain ⟨a, ha, hav⟩ := List.mem_map.mp hm
    exact hnew a ha hav

theorem MemHolds.eq_of_ptr (hh : MemHolds ps p S T) {a b : Alloc} (ha : a ∈ S) (hb : b ∈ S)
    (he : a.ptr ps = b.ptr ps) : a = b := by
  refine List.inj_on_of_nodup_map hh.distinct ha hb (BitVec.eq_of_toNat_eq ?_)
  unfold Alloc.ptr at he
  omega

theorem MemHolds.node_mem {a : Alloc} (ha : a ∈ S) : a.node ps ∈ nodesMem ps S :=
  mem_nodesMem.mpr ⟨a, ha, rfl⟩

/-- An allocation of at least one byte is found, taken out and unmapped as a whole. -/
theorem MemHolds.free (hh : MemHolds ps p S T) {a : Alloc} (ha : a ∈ S) {ptr : Addr}
    (hptr : a.ptr ps = ptr.toNat) (hsz : a.size ≠ 0) :
    ∃ p' T', (MemOp.free ptr).exec ps p = some p' ∧
      p'.sys = p.sys ++ (MemOp.free ptr).sys ps S ∧ p'.rets = p.rets ∧
      MemHolds ps p' ((MemOp.free ptr).live ps S) T' := by
  have hn : a.node ps ∈ nodesMem ps S := MemHolds.node_mem ha
  have hpos : 0 < a.size.toNat := by
    rcases Nat.eq_zero_or_pos a.size.toNat with h0 | h0
    · exact absurd (BitVec.eq_of_toNat_eq h0) hsz
    · exact h0
  have hal := vma_aligned (hh.aligned a ha)
  obtain ⟨h1, he1⟩ := hh.tree.find_spec (k := a.ptr ps) hn
    ⟨le_refl _, Nat.lt_add_of_pos_right hpos⟩ fun m _ hm => hm
  obtain ⟨T1, hh1⟩ := hh.tree.find he1
  have hr1 := ((hh1.node_iff _).mp hn).2
  obtain ⟨v1, hv1, hv1e⟩ := Option.map_eq_some_iff.mp hr1
  obtain ⟨h2, T2, he2, hh2, hnot, hpage⟩ := hh1.remove hn
  obtain ⟨v2, hv2, hv2e⟩ := Option.map_eq_some_iff.mp ((hpage hal.1).trans hr1)
  simp only [Alloc.node, Prod.mk.injEq] at hv1e hv2e
  have hcell {x : Ref} (hx : x ∈ T2.toList) : (h2.put (.vma a.vma) none).cell x = h2.cell x := by
    rw [cell_put, if_neg]
    rintro rfl
    exact hnot hx
  have hfit := hh.fits a ha
  have hge := roundUp_ge ps a.size.toNat
  have hlen : a.len ps = ps.bytes + roundUp ps a.size.toNat := rfl
  have hptr' : a.ptr ps = a.vma.toNat + ps.bytes := rfl
  -- the range's length is the size that was asked for
  have hdiff : BitVec.ofNat 64 v2.vmEnd - BitVec.ofNat 64 v2.vmStart = a.size := by
    rw [hv2e.2.1, hv2e.2.2]
    apply BitVec.eq_of_toNat_eq
    rw [BitVec.toNat_sub, BitVec.toNat_ofNat, BitVec.toNat_ofNat]
    omega
  have hsys : (MemOp.free ptr).sys ps S = [.munmap a.vma (BitVec.ofNat 64 (a.len ps))] := by
    have hone : (S.filter fun b => b.ptr ps = ptr.toNat) = [a] := by
      have hnd : (S.filter fun b => b.ptr ps = ptr.toNat).Nodup :=
        (List.Nodup.of_map _ hh.distinct).filter _
      refine List.perm_singleton.mp ((List.perm_ext_iff_of_nodup hnd (List.nodup_singleton a)).mpr
        fun b => ?_)
      simp only [List.mem_filter, decide_eq_true_eq, List.mem_singleton]
      exact ⟨fun hb => hh.eq_of_ptr hb.1 ha (hb.2.trans hptr.symm),
        fun he => by subst he; exact ⟨ha, hptr⟩⟩
    simp only [MemOp.sys, hone, List.map_cons, List.map_nil]
  have hlive : nodesMem ps ((MemOp.free ptr).live ps S) =
      (TreeOp.remove (a.node ps).start).live (nodesMem ps S) := by
    ext m
    simp only [TreeOp.live, MemOp.live, Finset.mem_filter, mem_nodesMem, List.mem_filter,
      decide_eq_true_eq]
    constructor
    · rintro ⟨b, ⟨hb, hne⟩, rfl⟩
      exact ⟨⟨b, hb, rfl⟩, fun he => hne (he.trans hptr)⟩
    · rintro ⟨⟨b, hb, rfl⟩, hne⟩
      exact ⟨b, ⟨hb, fun he => hne (he.trans hptr.symm)⟩, rfl⟩
  refine ⟨{ p with heap := h2.put (.vma a.vma) none,
                   sys := p.sys ++ [.munmap a.vma (BitVec.ofNat 64 (a.len ps))] }, T2, ?_, ?_, rfl,
    ⟨?_, ?_, ?_, ?_, ?_⟩⟩
  · have he1' : spTreeFindAndLock p.heap ptr.toNat = some (h1, some (.vma a.vma)) := hptr ▸ he1
    have he2' : spTreeRemove h1 v1.vmStart = some h2 := by
      rw [hv1e.2.1]
      exact he2
    have hv1' : h1.cell (.vma a.vma) = some v1 := hv1
    have hv2' : h2.cell (.vma a.vma) = some v2 := hv2
    simp only [MemOp.exec, oocFree, he1', Heap.get_some, hv1', he2', hv2', hdiff,
      mmapSz_eq (hh.size_le a ha), hlen, Option.bind_eq_bind, Option.bind_some, Option.pure_def]
  · rw [hsys]
  · rw [hlive]
    refine ⟨hh2.rep.of_cell rfl ?_ fun x hx => hcell hx, hh2.aligned, fun n => ?_⟩
    · rw [cell_put, if_neg (by simp)]
      exact hh2.rep.stack
    · rw [hh2.node_iff]
      refine and_congr_right fun hn => ?_
      unfold Heap.range
      rw [hcell hn]
  · exact fun b hb => hh.size_le b (List.mem_of_mem_filter hb)
  · exact fun b hb => hh.aligned b (List.mem_of_mem_filter hb)
  · exact fun b hb => hh.fits b (List.mem_of_mem_filter hb)
  · exact hh.distinct.sublist (List.filter_sublist.map _)

/-- An allocation of no bytes fails the assert of the lookup. -/
theorem MemHolds.free_empty (hh : MemHolds ps p S T) {a : Alloc} (ha : a ∈ S) {ptr : Addr}
    (hptr : a.ptr ps = ptr.toNat) (hsz : a.size = 0) : (MemOp.free ptr).exec ps p = none := by
  have hn : a.node ps ∈ nodesMem ps S := MemHolds.node_mem ha
  obtain ⟨hs, he⟩ := hh.tree.start hn
  have hnone := spTreeFindAndLock_empty hh.tree.rep (hh.tree.ref_mem hn) (by
    rw [hs, he, Alloc.node, hsz]
    exact le_refl _)
  have hnone' : spTreeFindAndLock p.heap ptr.toNat = none := by
    rw [hs] at hnone
    rw [← hptr]
    exact hnone
  simp only [MemOp.exec, oocFree, hnone', Option.bind_eq_bind, Option.bind_none]

/-! ### Runs -/

/-- A run does what the abstract state says exactly if it frees no empty allocation. -/
theorem MemHolds.run_iff (hh : MemHolds ps p S T) {ops : List MemOp}
    (hl : EachMem ps (MemPre ps) S ops) :
    (∃ p' T', execMem ps p ops = some p' ∧ p'.sys = p.sys ++ sysMem ps S ops ∧
      p'.rets = p.rets ++ retsMem ps ops ∧
      RepInv p'.heap (nodesMem ps (liveMem ps S ops)) T') ↔
        EachMem ps (FreesNonempty ps) S ops := by
  induction ops generalizing p S T with
  | nil =>
    refine ⟨fun _ => trivial, fun _ => ⟨p, T, rfl, ?_, ?_, hh.tree.repInv⟩⟩
    · simp [sysMem]
    · simp [retsMem]
  | cons op ops ih =>
    obtain ⟨hpre, hl⟩ := hl
    -- a call that returns as it should leaves the question to the rest of the run
    have hrest {p1 : Proc} {T1 : Tree Ref} (he : op.exec ps p = some p1)
        (hsys : p1.sys = p.sys ++ op.sys ps S) (hrets : p1.rets = p.rets ++ op.rets ps)
        (hh1 : MemHolds ps p1 (op.live ps S) T1) (hne : FreesNonempty ps S op) :
        (∃ p' T', execMem ps p (op :: ops) = some p' ∧ p'.sys = p.sys ++ sysMem ps S (op :: ops) ∧
          p'.rets = p.rets ++ retsMem ps (op :: ops) ∧
          RepInv p'.heap (nodesMem ps (liveMem ps S (op :: ops))) T') ↔
        EachMem ps (FreesNonempty ps) S (op :: ops) := by
      have hih := ih hh1 hl
      simp only [execMem, he, Option.bind_some, sysMem, retsMem, List.flatMap_cons, liveMem,
        EachMem,
        hne, true_and]
      simpa only [hsys, hrets, List.append_assoc, retsMem] using hih
    cases op with
    | malloc size vma =>
      obtain ⟨p1, T1, he, hsys, hrets, hh1⟩ := hh.malloc hpre
      exact hrest he hsys hrets hh1 trivial
    | free ptr =>
      obtain ⟨a, ha, hptr⟩ := hpre
      by_cases hsz : a.size = 0
      · refine ⟨?_, fun hne => absurd hsz (hne.1 a ha hptr)⟩
        rintro ⟨p', T', he, -⟩
        simp [execMem, hh.free_empty ha hptr hsz] at he
      · obtain ⟨p1, T1, he, hsys, hrets, hh1⟩ := hh.free ha hptr hsz
        refine hrest he hsys (by simpa [MemOp.rets] using hrets) hh1 fun b hb hbp => ?_
        rwa [hh.eq_of_ptr hb ha (hbp.trans hptr.symm)]

end

theorem memHolds_init {ps : PageSize} {h : Heap} (hst : h.cell .stack = none) :
    MemHolds ps (.init h) [] nil :=
  ⟨holds_init hst, by simp, by simp, by simp, by simp⟩

/-- From `sp_tree_init`, a run of successful `ooc_malloc` and of `ooc_free` on live
pointers fails no assert, unmaps exactly what was mapped and leaves exactly the
other live allocations in the tree, if and only if every allocation it frees has
at least one byte. -/
theorem malloc_run_exact_iff {ps : PageSize} {h : Heap} {ops : List MemOp}
    (hst : h.cell .stack = none) (hl : EachMem ps (MemPre ps) [] ops) :
    (∃ p' T, execMem ps (.init h) ops = some p' ∧ p'.sys = sysMem ps [] ops ∧
      p'.rets = retsMem ps ops ∧ RepInv p'.heap (nodesMem ps (liveMem ps [] ops)) T) ↔
    EachMem ps (FreesNonempty ps) [] ops := by
  have hinit : MemHolds ps (.init h) [] nil := memHolds_init hst
  have hiff := hinit.run_iff hl
  simpa only [Proc.init, List.nil_append] using hiff

theorem memPre_malloc_free (size : BitVec 64) (hs : size = 0 ∨ size = 1) :
    EachMem .small (MemPre .small) [] [.malloc size 0x10000, .free 0x11000] := by
  refine ⟨?_, ⟨⟨0x10000, size⟩, by simp [MemOp.live], rfl⟩, trivial⟩
  rcases hs with rfl | rfl
  · exact ⟨by decide, by decide, by decide, by simp⟩
  · exact ⟨by decide, by decide, by decide, by simp⟩

theorem malloc_run_exact_iff_one_byte :
    (∃ p' T, execMem .small (.init .empty) [.malloc 1 0x10000, .free 0x11000] = some p' ∧
      p'.sys = sysMem .small [] [.malloc 1 0x10000, .free 0x11000] ∧
      p'.rets = retsMem .small [.malloc 1 0x10000, .free 0x11000] ∧
      RepInv p'.heap (nodesMem .small (liveMem .small [] [.malloc 1 0x10000, .free 0x11000])) T) ↔
    EachMem .small (FreesNonempty .small) [] [.malloc 1 0x10000, .free 0x11000] :=
  malloc_run_exact_iff rfl (memPre_malloc_free 1 (Or.inr rfl))

/-- Freeing what `ooc_malloc(0)` returned fails `assert(vm_addr < sp->root->vm_end)`. -/
theorem free_of_empty_allocation_fails :
    ¬ ∀ (ps : PageSize) (h : Heap) (ops : List MemOp), h.cell .stack = none →
      EachMem ps (MemPre ps) [] ops →
      ∃ p' T, execMem ps (.init h) ops = some p' ∧ p'.sys = sysMem ps [] ops ∧
        p'.rets = retsMem ps ops ∧ RepInv p'.heap (nodesMem ps (liveMem ps [] ops)) T := by
  intro hall
  obtain ⟨p', T, he, -⟩ := hall .small .empty [.malloc 0 0x10000, .free 0x11000] rfl
    (memPre_malloc_free 0 (Or.inl rfl))
  have hnone : (execMem .small (.init .empty) [.malloc 0 0x10000, .free 0x11000]).isNone := by
    decide
  rw [he] at hnone
  simp at hnone

end OpenOOC
