import OpenOOC.Malloc.Runs

/-! One call of `ooc_malloc`, for every size and every answer of the system. The
sum of the two segments wraps to 0, and `mmap` refuses it; where `ALIGN` itself
wraps, a region of one page is mapped for a range that leaves it. -/

namespace OpenOOC

open SplayTree SplayTree.Tree

variable {ps : PageSize} {p : Proc} {S : List Alloc} {N : Finset Node} {T : Tree Ref}
  {size : BitVec 64} {vma : Addr}
  {mmapRet : Option Addr} {mprotectOk : Bool}

/-- `vma_tree` holds the nodes of the live allocations, with any flags. -/
structure LiveNodes (ps : PageSize) (h : Heap) (S : List Alloc) (N : Finset Node) (T : Tree Ref) :
    Prop where
  tree : Holds h N T
  node : ∀ n ∈ N, ∃ a ∈ S, n.addr = a.vma ∧ n.start = a.ptr ps ∧ n.stop = a.ptr ps + a.size.toNat

/-- `mmap` of `len` bytes fails for 0 bytes, and otherwise returns pages that are
not in the region of a live allocation. -/
structure MapsFresh (ps : PageSize) (S : List Alloc) (len : BitVec 64) (vma : Addr) : Prop where
  aligned : vma.toNat % ps.bytes = 0
  nonempty : 0 < len.toNat
  fits : vma.toNat + len.toNat < 2 ^ 64
  fresh : ∀ a ∈ S, a.vma.toNat + a.len ps ≤ vma.toNat ∨ vma.toNat + len.toNat ≤ a.vma.toNat

/-- NULL is returned, the tree is as it was, and a region that was mapped is gone. -/
structure FailsClean (p p' : Proc) (ret : Addr) : Prop where
  null : ret = 0
  tree : p'.heap = p.heap
  unmapped : ∃ len, p'.sys = p.sys ++ [.mmap len none] ∨
    ∃ vma, p'.sys = p.sys ++ [.mmap len (some vma), .munmap vma len]

/-- The range from `ret` on is inside the region that was mapped, behind the struct,
apart from the other allocations, and the range of the one new node. -/
structure ReturnsRange (ps : PageSize) (S : List Alloc) (N : Finset Node) (size : BitVec 64)
    (p p' : Proc) (ret : Addr) :
    Prop where
  noWrap : ret.toNat + size.toNat < 2 ^ 64
  mapped : ∃ vma len T', p'.sys = p.sys ++ [.mmap len (some vma)] ∧
    vma.toNat + (ALIGN ps SIZEOF_VM_AREA).toNat ≤ ret.toNat ∧
    ret.toNat + size.toNat ≤ vma.toNat + len.toNat ∧
    (∀ n ∈ N, n.addr ≠ vma) ∧ Holds p'.heap
      (Insert.insert ⟨vma, 0, ret.toNat, ret.toNat + size.toNat⟩ N) T'
  apart : ∀ a ∈ S, a.ptr ps + a.size.toNat ≤ ret.toNat ∨ ret.toNat + size.toNat ≤ a.ptr ps

/-- `ooc_malloc` fails cleanly, or returns a range of its own. -/
def MallocServes (ps : PageSize) (S : List Alloc) (N : Finset Node) (size : BitVec 64) (p : Proc)
    (r : Option (Proc × Addr)) :
    Prop :=
  ∃ p' ret, r = some (p', ret) ∧ (FailsClean p p' ret ∨ ReturnsRange ps S N size p p' ret)

theorem mmapSz_cases (hs : size.toNat + ps.bytes ≤ 2 ^ 64) :
    (ALIGN ps SIZEOF_VM_AREA + ALIGN ps size).toNat = 0 ∨
      (ALIGN ps SIZEOF_VM_AREA + ALIGN ps size).toNat = ps.bytes + roundUp ps size.toNat := by
  have hle : ps.bytes + roundUp ps size.toNat ≤ 2 ^ 64 := by
    obtain ⟨c, hc⟩ : ps.bytes ∣ 2 ^ 64 := pow_dvd_pow 2 ps.lt_word.le
    have hlt : (size.toNat + ps.bytes - 1) / ps.bytes < c := by
      apply Nat.div_lt_of_lt_mul
      have := bytes_ge ps
      have : BLOCK_SIZE = 4096 := rfl
      omega
    have := Nat.mul_le_mul_right ps.bytes (Nat.succ_le_of_lt hlt)
    rw [Nat.succ_mul, Nat.mul_comm c] at this
    unfold roundUp
    omega
  rw [mmapSz_eq hs, BitVec.toNat_ofNat]
  rcases Nat.lt_or_eq_of_le hle with hlt | heq
  · exact .inr (Nat.mod_eq_of_lt hlt)
  · exact .inl (by rw [heq, Nat.mod_self])

/-- Where `ALIGN` wraps, the data segment has no page. -/
theorem ALIGN_of_wrap (hs : 2 ^ 64 < size.toNat + ps.bytes) : (ALIGN ps size).toNat = 0 := by
  have h1 := bytes_ge ps
  have h2 := bytes_lt ps
  have h3 : BLOCK_SIZE = 4096 := rfl
  have hsz := size.isLt
  have hsum : (size + ps.word - 1).toNat = size.toNat + ps.bytes - 1 - 2 ^ 64 := by
    rw [BitVec.toNat_sub, BitVec.toNat_add, word_toNat]
    simp
    omega
  rw [ALIGN, mask_toNat, hsum, Nat.div_eq_of_lt (by omega), Nat.zero_mul]

theorem LiveNodes.insert (hl : LiveNodes ps p.heap S N T)
    (hm : MapsFresh ps S (ALIGN ps SIZEOF_VM_AREA + ALIGN ps size) vma)
    (hs : size.toNat + ps.bytes ≤ 2 ^ 64) :
    ∃ p' ret, oocMalloc ps p size (some vma) true = some (p', ret) ∧
      ReturnsRange ps S N size p p' ret := by
  have hmap : (ALIGN ps SIZEOF_VM_AREA + ALIGN ps size).toNat = Alloc.len ps ⟨vma, size⟩ := by
    rcases mmapSz_cases hs with h0 | h0
    · exact absurd h0 (Nat.pos_iff_ne_zero.mp hm.nonempty)
    · exact h0
  have hfit := hm.fits
  rw [hmap] at hfit
  obtain ⟨hstart, hstop⟩ := malloc_range hfit
  have hlen : Alloc.len ps ⟨vma, size⟩ = ps.bytes + roundUp ps size.toNat := rfl
  have hptr : Alloc.ptr ps ⟨vma, size⟩ = vma.toNat + ps.bytes := rfl
  have hge := roundUp_ge ps size.toNat
  have hpos : 0 < ps.bytes := Nat.two_pow_pos _
  have hnew : ∀ a ∈ S, a.vma ≠ vma := by
    intro a ha he
    have hla : 0 < a.len ps := Nat.add_pos_left hpos _
    have hf := hm.fresh a ha
    rw [he, hmap] at hf
    omega
  set v : VmArea := ⟨none, none, none, none, none, 0, (vma + ALIGN ps SIZEOF_VM_AREA).toNat,
    (vma + ALIGN ps SIZEOF_VM_AREA + size).toNat⟩ with hv
  have hnode : v.node vma = ⟨vma, 0, (vma + ALIGN ps SIZEOF_VM_AREA).toNat,
      (vma + ALIGN ps SIZEOF_VM_AREA).toNat + size.toNat⟩ := by
    rw [VmArea.node, hv]
    simp only [hstop, hstart]
  have hnotin : ∀ n ∈ N, n.addr ≠ vma := by
    intro n hn
    obtain ⟨a, ha, hav, -⟩ := hl.node n hn
    rw [hav]
    exact hnew a ha
  obtain ⟨h', T', he, hh'⟩ := hl.tree.insert (z := vma) (v := v)
    ⟨(vma_aligned hm.aligned).2, fun n hn => by
    refine ⟨hnotin n hn, fun hns => ?_⟩
    obtain ⟨a, ha, -, has, -⟩ := hl.node n hn
    apply hnew a ha
    apply BitVec.eq_of_toNat_eq
    have h1 : a.ptr ps = Alloc.ptr ps ⟨vma, size⟩ := by rw [← has, hns, ← hstart]
    have h2 : a.ptr ps = a.vma.toNat + ps.bytes := rfl
    omega⟩
  have he' : spTreeInsert (p.heap.put (.vma vma) (some v)) (some (.vma vma)) = some h' := he
  rw [TreeOp.live, hnode] at hh'
  refine ⟨_, _, by
    simp only [oocMalloc, if_true, ← hv, he', Option.bind_eq_bind, Option.bind_some,
      Option.pure_def]
    rfl, ?_⟩
  refine ⟨by omega, ⟨vma, _, T', rfl, by rw [hstart, infoSz_toNat, hptr], ?_, hnotin, hh'⟩, ?_⟩
  · rw [hstart, hmap]
    omega
  · intro a ha
    have h1 : a.len ps = ps.bytes + roundUp ps a.size.toNat := rfl
    have h2 : a.ptr ps = a.vma.toNat + ps.bytes := rfl
    have h3 := roundUp_ge ps a.size.toNat
    have hf := hm.fresh a ha
    rw [hmap] at hf
    rw [hstart]
    omega

/-- With a wrapped `ALIGN` the range leaves the one page that is mapped. -/
theorem not_serves_of_wrap (hm : MapsFresh ps S (ALIGN ps SIZEOF_VM_AREA + ALIGN ps size) vma)
    (hs : 2 ^ 64 < size.toNat + ps.bytes) :
    ¬ MallocServes ps S N size p (oocMalloc ps p size (some vma) true) := by
  have h1 := bytes_ge ps
  have h2 : BLOCK_SIZE = 4096 := rfl
  have hb := bytes_lt ps
  have hmap : (ALIGN ps SIZEOF_VM_AREA + ALIGN ps size).toNat = ps.bytes := by
    rw [BitVec.toNat_add, infoSz_toNat, ALIGN_of_wrap hs]
    exact Nat.mod_eq_of_lt hb
  have hfit := hm.fits
  rw [hmap] at hfit
  have hret : (vma + ALIGN ps SIZEOF_VM_AREA).toNat = vma.toNat + ps.bytes := by
    rw [BitVec.toNat_add, infoSz_toNat]
    exact Nat.mod_eq_of_lt hfit
  rintro ⟨p', ret, he, hr⟩
  simp only [oocMalloc, if_true, Option.bind_eq_bind, Option.bind_eq_some_iff, Option.pure_def,
    Option.some.injEq,
    Prod.mk.injEq] at he
  obtain ⟨h', -, -, rfl⟩ := he
  rcases hr with hr | hr
  · have := congrArg BitVec.toNat hr.null
    rw [hret] at this
    simp at this
    omega
  · have := hr.noWrap
    rw [hret] at this
    omega

/-- `ooc_malloc` fails cleanly or returns a range of its own, unless a size within a
page of `SIZE_MAX` is mapped. -/
theorem malloc_serves_iff (hl : LiveNodes ps p.heap S N T)
    (hm : ∀ vma, mmapRet = some vma →
    MapsFresh ps S (ALIGN ps SIZEOF_VM_AREA + ALIGN ps size) vma) :
    MallocServes ps S N size p (oocMalloc ps p size mmapRet mprotectOk) ↔
      size.toNat + ps.bytes ≤ 2 ^ 64 ∨ mmapRet = none ∨ mprotectOk = false := by
  cases mmapRet with
  | none =>
    refine ⟨fun _ => .inr (.inl rfl), fun _ => ?_⟩
    exact ⟨_, 0, rfl, .inl ⟨rfl, rfl, _, .inl rfl⟩⟩
  | some vma =>
    cases mprotectOk with
    | false =>
      refine ⟨fun _ => .inr (.inr rfl), fun _ => ?_⟩
      exact ⟨_, 0, rfl, .inl ⟨rfl, rfl, _, .inr ⟨vma, by simp; rfl⟩⟩⟩
    | true =>
      constructor
      · intro hserves
        by_contra hs
        simp only [reduceCtorEq, or_false, not_le] at hs
        exact not_serves_of_wrap (hm vma rfl) hs hserves
      · intro hs
        simp only [reduceCtorEq, or_false] at hs
        obtain ⟨p', ret, he, hr⟩ := hl.insert (hm vma rfl) hs
        exact ⟨p', ret, he, .inr hr⟩

theorem live_init {h : Heap} (hst : h.cell .stack = none) :
    LiveNodes ps (Proc.init h).heap [] ∅ nil :=
  ⟨holds_init hst, by simp⟩

theorem LiveNodes.alone {h : Heap} {n : Node} {a : Alloc} (hh : Holds h {n} T)
    (hn : n.addr = a.vma ∧ n.start = a.ptr ps ∧ n.stop = a.ptr ps + a.size.toNat) :
    LiveNodes ps h [a] {n} T := by
  refine ⟨hh, fun m hm => ⟨a, List.mem_singleton_self a, ?_⟩⟩
  rw [Finset.mem_singleton.mp hm]
  exact hn

/-- One byte, in a process that has allocated one byte before. -/
theorem malloc_serves_second : ∃ p N T, LiveNodes .small p.heap [⟨0x10000, 1⟩] N T ∧
    N = {⟨0x10000, 0, 0x11000, 0x11001⟩} ∧
    MallocServes .small [⟨0x10000, 1⟩] N 1 p (oocMalloc .small p 1 (some 0x20000) true) := by
  have hm : MapsFresh .small [] (ALIGN .small SIZEOF_VM_AREA + ALIGN .small 1) 0x10000 :=
    ⟨by decide, by decide, by decide, by simp⟩
  obtain ⟨p, ret, he, hr⟩ := (live_init rfl).insert hm (p := .init .empty) (by decide)
  obtain ⟨vma, len, T, hsys, -, -, -, hh⟩ := hr.mapped
  simp only [oocMalloc, if_true, Option.bind_eq_bind, Option.bind_eq_some_iff, Option.pure_def,
    Option.some.injEq, Prod.mk.injEq] at he
  obtain ⟨h, -, hp, rfl⟩ := he
  rw [← hp] at hsys
  cases hsys
  have hl : LiveNodes .small p.heap [⟨0x10000, 1⟩] {⟨0x10000, 0, 0x11000, 0x11001⟩} T :=
    .alone hh ⟨rfl, by decide, by decide⟩
  refine ⟨p, _, T, hl, rfl, (malloc_serves_iff hl fun vma hv => ?_).mpr (.inl (by decide))⟩
  obtain rfl := Option.some.inj hv
  refine ⟨by decide, by decide, by decide, fun a ha => ?_⟩
  rw [List.mem_singleton.mp ha]
  decide

/-- `ooc_malloc(SIZE_MAX)` maps one page and succeeds. -/
theorem malloc_size_max_overruns : ∃ p S N T, ∃ size : BitVec 64, ∃ vma :
    Addr, LiveNodes .small p.heap S N T ∧
    MapsFresh .small S (ALIGN .small SIZEOF_VM_AREA + ALIGN .small size) vma ∧
    (oocMalloc .small p size (some vma) true).isSome ∧
    ¬ MallocServes .small S N size p (oocMalloc .small p size (some vma) true) := by
  have hm : MapsFresh .small [] (ALIGN .small SIZEOF_VM_AREA + ALIGN .small 0xFFFFFFFFFFFFFFFF)
      0x10000 :=
    ⟨by decide, by decide, by decide, by simp⟩
  exact ⟨.init .empty, [], ∅, nil, 0xFFFFFFFFFFFFFFFF, 0x10000, live_init rfl, hm, by decide,
    not_serves_of_wrap hm (by decide)⟩

end OpenOOC
