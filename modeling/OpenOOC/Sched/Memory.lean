import OpenOOC.Sched.Regions
import OpenOOC.SpTree.Linked

/-! The memory of a process whose threads allocate, access and free: which region every
address belongs to, which allocations have a node in the tree, and what the protection
of a page has to do with the flags of its node. One lemma for each thing that a thread
does to it. -/

namespace OpenOOC.Sched

open LockMachine

/-! ### The abstract state -/

/-- The allocations whose region is mapped, those of them whose node is in the tree,
and the flags of the nodes. -/
structure Ghost where
  mapped : Finset Alloc
  listed : Finset Alloc
  flags : Alloc → BitVec 64

namespace Ghost

def node (ps : PageSize) (g : Ghost) (a : Alloc) : Node :=
  ⟨a.vma, g.flags a, (a.vmStart ps).toNat, (a.vmEnd ps).toNat⟩

def nodes (ps : PageSize) (g : Ghost) : Finset Node := g.listed.image (g.node ps)

def setFlags (g : Ghost) (a : Alloc) (f : BitVec 64) : Ghost :=
  { g with flags := Function.update g.flags a f }

theorem flags_self (g : Ghost) (a : Alloc) (f : BitVec 64) : (g.setFlags a f).flags a = f :=
  Function.update_self _ _ _

theorem flags_of_ne (g : Ghost) {a b : Alloc} (f : BitVec 64) (h : b ≠ a) :
    (g.setFlags a f).flags b = g.flags b :=
  Function.update_of_ne h _ _

end Ghost

def PROT_RW : BitVec 32 := PROT_READ ||| PROT_WRITE

/-- Memory, apart from what the threads are about to do. A page can be written to
only if its node is marked dirty. -/
structure MemOk (ps : PageSize) (m : Mem) (g : Ghost) : Prop where
  tree : ∃ T, OpenOOC.Holds m.heap (g.nodes ps) T
  listed : g.listed ⊆ g.mapped
  live : ∀ a ∈ m.live, a ∈ g.listed
  region : ∀ a ∈ g.mapped, Region ps a
  away : ∀ a ∈ g.mapped, ∀ b ∈ g.mapped, a ≠ b → Away ps a b
  covered : ∀ x, m.prot x ≠ none → ∃ a ∈ g.mapped, a.InRegion ps x
  header : ∀ a ∈ g.mapped, ∀ x, a.InHeader ps x → m.prot x = some PROT_RW
  data : ∀ a ∈ g.mapped, ∀ x, a.InData ps x → m.prot x = some PROT_READ ∨ m.prot x = some PROT_RW ∧
    g.flags a = 0x11
  flags : ∀ a ∈ g.mapped, g.flags a = 0 ∨ g.flags a = 0x1 ∨ g.flags a = 0x11

variable {ps : PageSize} {m m' : Mem} {g : Ghost} {a b : Alloc} {h' : Heap} {x : ℕ}

theorem mem_nodes {n : Node} : n ∈ g.nodes ps ↔ ∃ a ∈ g.listed, g.node ps a = n := by
  simp [Ghost.nodes]

/-- The answer's flags, from those that a node can have. -/
theorem answer_flags {f : BitVec 64} (hf : f = 0 ∨ f = 0x1 ∨ f = 0x11) :
    f = 0 ∧ answer f = (0x1, ⟨false, PROT_READ⟩) ∨ (f = 0x1 ∨ f = 0x11) ∧
    answer f = (0x11, ⟨true, PROT_RW⟩) := by
  rcases hf with rfl | rfl | rfl <;> decide

def Fits (f : BitVec 64) (ans : Answer) : Prop :=
  ans = ⟨false, PROT_READ⟩ ∧ f = 0x1 ∨ ans = ⟨true, PROT_RW⟩ ∧ f = 0x11

namespace MemOk

variable (hm : MemOk ps m g)

include hm

theorem eq_of_vma (ha : a ∈ g.mapped) (hb : b ∈ g.mapped) (he : a.vma = b.vma) : a = b := by
  by_contra hne
  exact (hm.away a ha b hb hne).vma_ne (hm.region a ha) (hm.region b hb) he

theorem eq_of_vmStart (ha : a ∈ g.mapped) (hb : b ∈ g.mapped) (he : a.vmStart ps = b.vmStart ps) :
    a = b := by
  by_contra hne
  exact (hm.away a ha b hb hne).vmStart_ne (hm.region a ha) (hm.region b hb) he

theorem eq_of_inRegion (ha : a ∈ g.mapped) (hb : b ∈ g.mapped) (hax : a.InRegion ps x)
    (hbx : b.InRegion ps x) : a = b := by
  by_contra hne
  exact (hm.away a ha b hb hne).not_inRegion hax hbx

theorem eq_of_owns {addr : Addr} (ha : a ∈ g.mapped) (hb : b ∈ g.mapped) (hao : a.Owns ps addr)
    (hbo : b.Owns ps addr) :
    a = b :=
  hm.eq_of_inRegion ha hb (Region.inRegion_of_inData ((hm.region a ha).inData_of_owns hao))
    (Region.inRegion_of_inData ((hm.region b hb).inData_of_owns hbo))

theorem cell (ha : a ∈ g.listed) : ∃ v, m.heap.cell (.vma a.vma) = some v ∧ v.vmFlags = g.flags a ∧
    v.vmStart = (a.vmStart ps).toNat ∧ v.vmEnd = (a.vmEnd ps).toNat := by
  obtain ⟨T, hT⟩ := hm.tree
  have hr := ((hT.node_iff _).mp (mem_nodes.mpr ⟨a, ha, rfl⟩)).2
  obtain ⟨v, hv, he⟩ := Option.map_eq_some_iff.mp hr
  simp only [Ghost.node, Prod.mk.injEq] at he
  exact ⟨v, hv, he⟩

theorem aligned (ha : a ∈ g.mapped) : a.vma.toNat % BLOCK_SIZE = 0 ∧ a.vma.toNat % 8 = 0 :=
  vma_aligned (hm.region a ha).aligned

theorem readable (ha : a ∈ g.mapped) (hx : a.InData ps x) : Allowed (m.prot x) false := by
  rcases hm.data a ha x hx with h | ⟨h, -⟩ <;> rw [h] <;> decide

/-! #### The tree's operations -/

theorem find (ha : a ∈ g.listed) {addr : Addr} (ho : a.Owns ps addr) :
    ∃ h', spTreeFindAndLock m.heap addr.toNat = some (h', some (.vma a.vma)) := by
  obtain ⟨T, hT⟩ := hm.tree
  have hra := hm.region a (hm.listed ha)
  have hxa := hra.inData_of_owns ho
  refine hT.find_spec (n := g.node ps a) (mem_nodes.mpr ⟨a, ha, rfl⟩) ho fun n hn hle => ?_
  obtain ⟨b, hb, rfl⟩ := mem_nodes.mp hn
  by_cases hab : a = b
  · rw [hab]
  · have hrb := hm.region b (hm.listed hb)
    have haway := hm.away a (hm.listed ha) b (hm.listed hb) hab
    have hsa := hra.vmStart_toNat
    have hsb := hrb.vmStart_toNat
    have hlb := hrb.bytes_le
    change (b.vmStart ps).toNat ≤ addr.toNat at hle
    change (b.vmStart ps).toNat ≤ (a.vmStart ps).toNat
    unfold Away at haway
    unfold Alloc.InData at hxa
    omega

theorem found {k : ℕ} {p : Ptr} (he : spTreeFindAndLock m.heap k = some (h', p)) :
    MemOk ps { m with heap := h' } g ∧ ∀ x, h'.range x = m.heap.range x := by
  obtain ⟨T, hT⟩ := hm.tree
  obtain ⟨-, -, -, hf⟩ := rep_of_spTreeFindAndLock hT.rep he
  exact ⟨⟨hT.find he, hm.listed, hm.live, hm.region, hm.away, hm.covered, hm.header, hm.data,
    hm.flags⟩, hf.range⟩

theorem inserted (ha : a ∈ g.mapped) (hna : a ∉ g.listed) (hf : g.flags a = 0) :
    ∃ m', Sched.insert ps m a = some m' ∧
      MemOk ps m' { g with listed := Insert.insert a g.listed } ∧
      m'.prot = m.prot ∧ m'.live = m.live ∧
      m'.inits = Function.update m.inits a.vma (m.inits a.vma + 1) ∧
      ∀ x, x ≠ .vma a.vma → m'.heap.range x = m.heap.range x := by
  obtain ⟨T, hT⟩ := hm.tree
  have hnode : (a.vmArea ps).node a.vma = g.node ps a := by
    unfold Ghost.node
    rw [hf]
    rfl
  have hpre : Insertable (g.nodes ps) a.vma (a.vmArea ps) := by
    refine ⟨(hm.aligned ha).2, fun n hn => ?_⟩
    obtain ⟨b, hb, rfl⟩ := mem_nodes.mp hn
    have hne : b ≠ a := fun he => hna (he ▸ hb)
    have haway := hm.away b (hm.listed hb) a ha hne
    have hrb := hm.region b (hm.listed hb)
    refine ⟨haway.vma_ne hrb (hm.region a ha), fun he => ?_⟩
    exact haway.vmStart_ne hrb (hm.region a ha) (BitVec.eq_of_toNat_eq he)
  obtain ⟨h', T', he, hT', -, hr⟩ := hT.insert_frame hpre
  change spTreeInsert (m.heap.put (.vma a.vma) (some (a.vmArea ps))) (some (.vma a.vma)) =
    some h' at he
  have hset : ({ g with listed := Insert.insert a g.listed } : Ghost).nodes ps =
      (TreeOp.insert a.vma (a.vmArea ps)).live (g.nodes ps) := by
    rw [TreeOp.live, hnode]
    exact Finset.image_insert _ _ _
  have hins : Sched.insert ps m a = some { m with
      heap := h', inits := Function.update m.inits a.vma (m.inits a.vma + 1) } := by
    rw [Sched.insert, he, Option.map_some]
  refine ⟨_, hins, ⟨⟨T', by rw [hset]; exact hT'⟩, ?_, ?_, hm.region, hm.away,
    hm.covered, hm.header, hm.data, hm.flags⟩, rfl, rfl, rfl, hr⟩
  · exact Finset.insert_subset ha hm.listed
  · exact fun b hb => Finset.mem_insert_of_mem (hm.live b hb)

theorem removed (ha : a ∈ g.listed) (hl : a ∉ m.live) :
    ∃ h', spTreeRemove m.heap (a.vmStart ps).toNat = some h' ∧
      MemOk ps { m with heap := h' } { g with listed := g.listed.erase a } ∧ ∀ x,
        h'.range x = m.heap.range x := by
  obtain ⟨T, hT⟩ := hm.tree
  obtain ⟨h', T', he, hT', -, hpage, -, hr⟩ :=
    hT.remove_frame (n := g.node ps a) (mem_nodes.mpr ⟨a, ha, rfl⟩)
  have hset : ({ g with listed := g.listed.erase a } : Ghost).nodes ps =
      (TreeOp.remove (a.vmStart ps).toNat).live (g.nodes ps) := by
    ext n
    rw [TreeOp.live, Finset.mem_filter, mem_nodes, mem_nodes]
    constructor
    · rintro ⟨b, hb, rfl⟩
      obtain ⟨hne, hb⟩ := Finset.mem_erase.mp hb
      refine ⟨⟨b, hb, rfl⟩, fun hs => hne ?_⟩
      exact hm.eq_of_vmStart (hm.listed hb) (hm.listed ha) (BitVec.eq_of_toNat_eq hs)
    · rintro ⟨⟨b, hb, rfl⟩, hne⟩
      refine ⟨b, Finset.mem_erase.mpr ⟨fun hba => hne (by rw [hba]; rfl), hb⟩, rfl⟩
  refine ⟨h', he, ⟨⟨T', by rw [hset]; exact hT'⟩, ?_, fun b hb => ?_, hm.region, hm.away,
    hm.covered, hm.header,
    hm.data, hm.flags⟩, fun x => ?_⟩
  · exact (Finset.erase_subset _ _).trans hm.listed
  · exact Finset.mem_erase.mpr ⟨fun he => hl (he ▸ hb), hm.live b hb⟩
  · by_cases hx : x = (g.node ps a).ref
    · rw [hx]
      exact hpage (hm.aligned (hm.listed ha)).1
    · exact hr x hx

/-- `munmap` takes away what `mmap` gave, by the range in the struct. -/
theorem unmapped (ha : a ∈ g.mapped) (hna : a ∉ g.listed) {f : BitVec 64}
    (hr : m.heap.range (.vma a.vma) = some (f, (a.vmStart ps).toNat, (a.vmEnd ps).toNat)) :
    ∃ m', unmap ps m a.vma = some m' ∧ MemOk ps m' { g with mapped := g.mapped.erase a } ∧
      m'.live = m.live ∧ m'.inits = m.inits ∧
      (∀ x, x ≠ .vma a.vma → m'.heap.range x = m.heap.range x) ∧
      ∀ x, ¬ a.InRegion ps x → m'.prot x = m.prot x := by
  obtain ⟨v, hv, he⟩ := Option.map_eq_some_iff.mp hr
  simp only [Prod.mk.injEq] at he
  have hsize : BitVec.ofNat 64 v.vmEnd - BitVec.ofNat 64 v.vmStart = a.size := by
    rw [he.2.1, he.2.2, BitVec.ofNat_toNat, BitVec.ofNat_toNat, BitVec.setWidth_eq,
      BitVec.setWidth_eq, Alloc.vmEnd]
    exact add_sub_cancel_left _ _
  have hun : unmap ps m a.vma = some { m with
      heap := m.heap.put (.vma a.vma) none
      prot := setProt m.prot a.vma.toNat (a.mmapSz ps).toNat none } := by
    unfold unmap
    simp only [hv, hsize, Option.bind_eq_bind, Option.bind_some, Option.pure_def]
    rfl
  have hcell {x : Ref} (hx : x ≠ .vma a.vma) :
      (m.heap.put (.vma a.vma) none).cell x = m.heap.cell x := by
    rw [cell_put, if_neg hx]
  have hout {x : ℕ} (hx : ¬ a.InRegion ps x) :
      setProt m.prot a.vma.toNat (a.mmapSz ps).toNat none x = m.prot x :=
    setProt_of_out hx
  have hother {b : Alloc} (hb : b ∈ g.mapped.erase a) {x : ℕ} (hx : b.InRegion ps x) :
      ¬ a.InRegion ps x := fun hax => by
    obtain ⟨hne, hb⟩ := Finset.mem_erase.mp hb
    exact hne (hm.eq_of_inRegion hb ha hx hax)
  obtain ⟨T, hT⟩ := hm.tree
  have hnotin : .vma a.vma ∉ T.toList := fun hx => by
    obtain ⟨n, hn, hnx, -⟩ := hT.node_of_mem hx
    obtain ⟨b, hb, rfl⟩ := mem_nodes.mp hn
    exact hna (hm.eq_of_vma (hm.listed hb) ha (Ref.vma.inj hnx) ▸ hb)
  have htree : OpenOOC.Holds (m.heap.put (.vma a.vma) none) (g.nodes ps) T := by
    have hne {x : Ref} (hx : x ∈ T.toList) : x ≠ .vma a.vma := fun he => hnotin (he ▸ hx)
    refine ⟨hT.rep.of_cell rfl ?_ fun x hx => hcell (hne hx), hT.aligned, fun n => ?_⟩
    · rw [hcell (by simp)]
      exact hT.rep.stack
    · rw [hT.node_iff]
      refine and_congr_right fun hn => ?_
      unfold Heap.range
      rw [hcell (hne hn)]
  refine ⟨_, hun, ⟨⟨T, htree⟩, fun b hb => ?_, hm.live, fun b hb => ?_, fun b hb c hc => ?_,
    fun x hx => ?_,
    fun b hb x hx => ?_, fun b hb x hx => ?_, fun b hb => ?_⟩, rfl, rfl, fun x hx => ?_, fun x hx =>
      hout hx⟩
  · exact Finset.mem_erase.mpr ⟨fun he => hna (he ▸ hb), hm.listed hb⟩
  · exact hm.region b (Finset.mem_of_mem_erase hb)
  · exact hm.away b (Finset.mem_of_mem_erase hb) c (Finset.mem_of_mem_erase hc)
  · by_cases hax : a.InRegion ps x
    · exact absurd (setProt_of_in hax) hx
    · change setProt m.prot a.vma.toNat (a.mmapSz ps).toNat none x ≠ none at hx
      rw [hout hax] at hx
      obtain ⟨b, hb, hbx⟩ := hm.covered x hx
      exact ⟨b, Finset.mem_erase.mpr ⟨fun he => hax (he ▸ hbx), hb⟩, hbx⟩
  · have hb' := Finset.mem_of_mem_erase hb
    exact (hout (hother hb ((hm.region b hb').inRegion_of_inHeader hx))).trans
      (hm.header b hb' x hx)
  · change setProt m.prot a.vma.toNat (a.mmapSz ps).toNat none x = _ ∨
      setProt m.prot a.vma.toNat (a.mmapSz ps).toNat none x = _ ∧ _
    rw [hout (hother hb (Region.inRegion_of_inData hx))]
    exact hm.data b (Finset.mem_of_mem_erase hb) x hx
  · exact hm.flags b (Finset.mem_of_mem_erase hb)
  · unfold Heap.range
    rw [hcell hx]

/-! #### The handler's operations -/

theorem handled (ha : a ∈ g.listed) : ∃ m', handle m a.vma = some (m', (answer (g.flags a)).2) ∧
    MemOk ps m' (g.setFlags a (answer (g.flags a)).1) ∧
    m'.prot = m.prot ∧ m'.live = m.live ∧ m'.inits = m.inits ∧
    ∀ x, x ≠ .vma a.vma → m'.heap.range x = m.heap.range x := by
  obtain ⟨T, hT⟩ := hm.tree
  obtain ⟨v, hv, hvf, -, -⟩ := hm.cell ha
  set g' := g.setFlags a (answer (g.flags a)).1 with hg'
  have hn : g.node ps a ∈ g.nodes ps := mem_nodes.mpr ⟨a, ha, rfl⟩
  have hga : g'.flags a = (answer (g.flags a)).1 := g.flags_self a _
  obtain ⟨h', he, hl, hroot, -, -, hout⟩ := hT.linked.modify hn (m := g'.node ps a)
    (f := fun v => { v with vmFlags := (answer v.vmFlags).1 }) rfl
    ⟨fun _ => rfl, fun _ => rfl, fun _ => rfl, fun w _ => by cases w <;> rfl⟩
    (fun v hf hs he => by rw [Ghost.node, hga, hf, hs, he]; rfl) (fun _ _ h => h) fun _ _ h => h
  have hset : g'.nodes ps = g.nodes ps \ {g.node ps a} ∪ {g'.node ps a} := by
    ext n
    rw [mem_nodes, Finset.mem_union, Finset.mem_sdiff, Finset.mem_singleton, Finset.mem_singleton,
      mem_nodes]
    have hsame {b : Alloc} (hb : b ≠ a) : g'.node ps b = g.node ps b := by
      unfold Ghost.node
      rw [hg', g.flags_of_ne _ hb]
    constructor
    · rintro ⟨b, hb, rfl⟩
      by_cases hba : b = a
      · exact Or.inr (by rw [hba])
      · refine Or.inl ⟨⟨b, hb, (hsame hba).symm⟩, fun he => hba ?_⟩
        exact hm.eq_of_vma (hm.listed hb) (hm.listed ha) (congrArg Node.addr he)
    · rintro (⟨⟨b, hb, rfl⟩, hne⟩ | rfl)
      · exact ⟨b, hb, hsame fun hba => hne (by rw [hba])⟩
      · exact ⟨a, ha, rfl⟩
  have hupd : handle m a.vma = some ({ m with heap := h' }, (answer (g.flags a)).2) := by
    unfold handle
    change m.heap.upd (some (.vma a.vma)) _ = some h' at he
    simp only [hv, he, hvf, Option.bind_eq_bind, Option.bind_some, Option.pure_def]
  have hcases := answer_flags (hm.flags a (hm.listed ha))
  refine ⟨_, hupd, ⟨⟨T, ?_⟩, hm.listed, hm.live, hm.region, hm.away, hm.covered, hm.header,
    fun b hb x hx => ?_,
    fun b hb => ?_⟩, rfl, rfl, rfl, fun x hx => ?_⟩
  · rw [hset]
    exact hl.holds_of_root (hroot.trans hT.rep.root)
  · rcases hm.data b hb x hx with h | ⟨h, hfb⟩
    · exact Or.inl h
    · refine Or.inr ⟨h, ?_⟩
      by_cases hba : b = a
      · subst hba
        rw [hga]
        rcases hcases with ⟨h0, -⟩ | ⟨-, he⟩
        · rw [h0] at hfb
          cases hfb
        · rw [he]
      · rw [hg', g.flags_of_ne _ hba, hfb]
  · by_cases hba : b = a
    · rw [hba, hga]
      rcases hcases with ⟨-, he⟩ | ⟨-, he⟩ <;> rw [he] <;> decide
    · rw [hg', g.flags_of_ne _ hba]
      exact hm.flags b hb
  · unfold Heap.range
    rw [hout x hx]

theorem protected_ (ha : a ∈ g.mapped) {addr : Addr} (hx : a.InData ps addr.toNat) {ans : Answer}
    (hf : Fits (g.flags a) ans) :
    ∃ m', protect ps m addr ans = some m' ∧ MemOk ps m' g ∧ m'.heap = m.heap ∧ m'.live = m.live ∧
      m'.inits = m.inits ∧ m'.prot addr.toNat = some ans.prot ∧
      ∀ y, m'.prot y = m.prot y ∨ a.InData ps y ∧ m'.prot y = some ans.prot := by
  have hra := hm.region a ha
  have hmem := @mem_page ps addr
  have hstart : a.InData ps (pageAlign ps addr).toNat := page_inData hra hx ⟨le_refl _, by omega⟩
  have hmap : m.prot (pageAlign ps addr).toNat ≠ none := fun hn => by
    rcases hm.data a ha _ hstart with h | ⟨h, -⟩ <;> rw [hn] at h <;> cases h
  have hcases (y : ℕ) :
      setProt m.prot (pageAlign ps addr).toNat ps.bytes (some ans.prot) y = m.prot y ∨
        a.InData ps y ∧
          setProt m.prot (pageAlign ps addr).toNat ps.bytes (some ans.prot) y = some ans.prot := by
    by_cases hy : (pageAlign ps addr).toNat ≤ y ∧ y < (pageAlign ps addr).toNat + ps.bytes
    · exact Or.inr ⟨page_inData hra hx hy, setProt_of_in hy⟩
    · exact Or.inl (setProt_of_out hy)
  have hp : protect ps m addr ans = some
      { m with prot := setProt m.prot (pageAlign ps addr).toNat ps.bytes (some ans.prot) } := by
    unfold protect
    simp only [hmap, ne_eq, not_false_eq_true, guard_true, Option.bind_eq_bind, Option.bind_some,
      Option.pure_def]
  refine ⟨_, hp, ⟨hm.tree, hm.listed, hm.live, hm.region, hm.away, fun y hy => ?_,
    fun b hb y hy => ?_, fun b hb y hy => ?_,
    hm.flags⟩, rfl, rfl, rfl, setProt_of_in hmem, hcases⟩
  · rcases hcases y with he | ⟨hay, -⟩
    · exact hm.covered y (he ▸ hy)
    · exact ⟨a, ha, Region.inRegion_of_inData hay⟩
  · rcases hcases y with he | ⟨hay, -⟩
    · exact he.trans (hm.header b hb y hy)
    · exfalso
      have hab := hm.eq_of_inRegion ha hb (Region.inRegion_of_inData hay)
        ((hm.region b hb).inRegion_of_inHeader hy)
      subst hab
      unfold Alloc.InData at hay
      unfold Alloc.InHeader at hy
      omega
  · rcases hcases y with he | ⟨hay, he⟩
    · change setProt _ _ _ _ y = _ ∨ setProt _ _ _ _ y = _ ∧ _
      rw [he]
      exact hm.data b hb y hy
    · obtain rfl := hm.eq_of_inRegion ha hb (Region.inRegion_of_inData hay)
        (Region.inRegion_of_inData hy)
      rcases hf with ⟨rfl, -⟩ | ⟨rfl, hfa⟩
      · exact Or.inl he
      · exact Or.inr ⟨he, hfa⟩

/-! #### Allocations that come and go -/

theorem fresh (hok : MmapOk ps m a) : a ∉ g.mapped ∧ ∀ b ∈ g.mapped, Away ps a b := by
  have haway (b : Alloc) (hb : b ∈ g.mapped) : Away ps a b := by
    by_contra hno
    have hrb := hm.region b hb
    have h1 := hok.nonempty
    have h2 := hrb.nonempty
    unfold Away at hno
    -- the larger of the two starts is in both regions
    obtain ⟨x, hxa, hxb⟩ : ∃ x, a.InRegion ps x ∧ b.InRegion ps x := by
      unfold Alloc.InRegion
      rcases Nat.le_total a.vma.toNat b.vma.toNat with hle | hle
      · exact ⟨b.vma.toNat, by omega, by omega⟩
      · exact ⟨a.vma.toNat, by omega, by omega⟩
    have hn := hok.fresh x hxa.1 hxa.2
    rcases Region.cases_of_inRegion hxb with hx | hx
    · rw [hm.header b hb x hx] at hn
      cases hn
    · rcases hm.data b hb x hx with h | ⟨h, -⟩ <;> rw [hn] at h <;> cases h
  refine ⟨fun ha => ?_, haway⟩
  exact (haway a ha).vma_ne (hm.region a ha) (hm.region a ha) rfl

theorem mapped (hok : MmapOk ps m a) : MemOk ps { m with prot := mapProt ps m.prot a }
    { g.setFlags a 0 with mapped := Insert.insert a g.mapped } := by
  obtain ⟨hna, haway⟩ := hm.fresh hok
  have hra : Region ps a := ⟨hok.aligned, hok.nonempty, hok.fits⟩
  have hin {x : ℕ} (hx : a.InHeader ps x) : mapProt ps m.prot a x = some PROT_RW := by
    unfold mapProt
    rw [setProt_of_in (by rw [infoSz_toNat]; exact hx)]
    rfl
  have hdata {x : ℕ} (hx : a.InData ps x) : mapProt ps m.prot a x = some PROT_READ := by
    have hreg := Region.inRegion_of_inData hx
    unfold Alloc.InData at hx
    unfold mapProt
    rw [setProt_of_out (by rw [infoSz_toNat]; omega), setProt_of_in hreg]
  have hout {x : ℕ} (hx : ¬ a.InRegion ps x) : mapProt ps m.prot a x = m.prot x := by
    have hnh := mt (hra.inRegion_of_inHeader (x := x)) hx
    unfold mapProt
    rw [setProt_of_out (by rw [infoSz_toNat]; exact hnh), setProt_of_out hx]
  have hne {b : Alloc} (hb : b ∈ g.mapped) : b ≠ a := fun he => hna (he ▸ hb)
  have hout' {b : Alloc} (hb : b ∈ g.mapped) {x : ℕ} (hx : b.InRegion ps x) :
      mapProt ps m.prot a x = m.prot x :=
    hout ((haway b hb).symm.not_inRegion hx)
  have hflags {b : Alloc} (hb : b ∈ g.mapped) : (g.setFlags a 0).flags b = g.flags b :=
    g.flags_of_ne _ (hne hb)
  obtain ⟨T, hT⟩ := hm.tree
  have hset : Ghost.nodes ps { g.setFlags a 0 with mapped := Insert.insert a g.mapped } =
      g.nodes ps := by
    refine Finset.image_congr fun b hb => ?_
    have hfb := hflags (hm.listed hb)
    unfold Ghost.node
    dsimp only
    rw [hfb]
  refine ⟨⟨T, by rw [hset]; exact hT⟩, hm.listed.trans (Finset.subset_insert _ _), hm.live, ?_, ?_,
    ?_, ?_, ?_, ?_⟩
  · exact fun b hb => (Finset.mem_insert.mp hb).elim (fun he => he ▸ hra) (hm.region b)
  · intro b hb c hc hbc
    rcases Finset.mem_insert.mp hb with hba | hbg
    · rw [hba] at hbc ⊢
      exact haway c ((Finset.mem_insert.mp hc).resolve_left (Ne.symm hbc))
    · rcases Finset.mem_insert.mp hc with hca | hcg
      · rw [hca]
        exact (haway b hbg).symm
      · exact hm.away b hbg c hcg hbc
  · intro x hx
    by_cases hax : a.InRegion ps x
    · exact ⟨a, Finset.mem_insert_self _ _, hax⟩
    · obtain ⟨b, hb, hbx⟩ := hm.covered x (by rw [← hout hax]; exact hx)
      exact ⟨b, Finset.mem_insert_of_mem hb, hbx⟩
  · intro b hb x hx
    rcases Finset.mem_insert.mp hb with rfl | hb
    · exact hin hx
    · exact (hout' hb ((hm.region b hb).inRegion_of_inHeader hx)).trans (hm.header b hb x hx)
  · intro b hb x hx
    rcases Finset.mem_insert.mp hb with rfl | hb
    · exact Or.inl (hdata hx)
    · dsimp only
      rw [hout' hb (Region.inRegion_of_inData hx), hflags hb]
      exact hm.data b hb x hx
  · intro b hb
    rcases Finset.mem_insert.mp hb with rfl | hb
    · exact Or.inl (g.flags_self _ _)
    · dsimp only
      rw [hflags hb]
      exact hm.flags b hb

end MemOk

end OpenOOC.Sched
