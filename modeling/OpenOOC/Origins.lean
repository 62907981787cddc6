import OpenOOC.Malloc.Runs
import OpenOOC.Sched.Code
import OpenOOC.SpTree.FreeLoop
import OpenOOC.SpTree.GivenBack
import OpenOOC.Vma.Serial

/-! Where the structs come from that `S_sp_node_free` gives to `vma_free`. The tree
holds structs that `vma_alloc` handed out and those that `ooc_malloc` put at the start
of its mappings, and it does not tell them apart. -/

namespace OpenOOC.Origins

open Alternation LockMachine SplayTree SplayTree.Tree

/-! ### Runs -/

/-- What `S_sigsegv_handler` does to the structs. -/
def touch (h : Heap) (addr : Addr) : Option Heap := do
  let (h, n) ← spTreeFindAndLock h addr.toNat
  h.upd n fun v => { v with vmFlags := (Sched.answer v.vmFlags).1 }

/-- A struct from `vma_alloc`, with the caller's range, is put into the tree. -/
def insertNew (h : Heap) (vmStart vmEnd : ℕ) : Option Heap := do
  let (h, z) := vmaAlloc h
  let h ← h.upd z fun v => { v with vmStart := vmStart, vmEnd := vmEnd }
  spTreeInsert h z

def inTree (p : Proc) (m : Option Heap) : Option Proc := m.map fun h => { p with heap := h }

/-- A use of the library, with what the system and `vma_alloc` answer. -/
inductive Call
  | oocMalloc (size : BitVec 64) (mmapRet : Option Addr) (mprotectOk : Bool)
  | oocFree (ptr : Addr)
  | touch (addr : Addr)
  | insert (vmStart vmEnd : ℕ) (supply : List (Option (Addr × VmArea)))
  | remove (vmAddr : ℕ)
  | freeTree
  | findMod (c : Touch)

namespace Call

def mmapRet : Call → Option Addr
  | oocMalloc _ r _ => r
  | _ => none

def supply : Call → List (Option (Addr × VmArea))
  | insert _ _ supply => supply
  | findMod c => c.supply
  | _ => []

def exec (ps : PageSize) (p : Proc) : Call → Option Proc
  | oocMalloc size mmapRet mprotectOk =>
    (OpenOOC.oocMalloc ps p size mmapRet mprotectOk).map (·.1)
  | oocFree ptr => OpenOOC.oocFree ps p ptr
  | touch addr => inTree p (Origins.touch p.heap addr)
  | insert vmStart vmEnd supply =>
    inTree p (insertNew { p.heap with supply := supply } vmStart vmEnd)
  | remove vmAddr => inTree p (spTreeRemove p.heap vmAddr)
  | freeTree => inTree p (spTreeFree p.heap)
  | findMod c => inTree p ((c.exec ps p.heap).map (·.1))

/-- A mapping starts at a page, and a struct of `vma_alloc` lies behind the header of its
block; neither is in use. -/
structure Legal (ps : PageSize) (h : Heap) (c : Call) : Prop where
  mapping : ∀ a ∈ c.mmapRet, a.toNat % ps.bytes = 0 ∧ h.cell (.vma a) = none
  struct : ∀ u, some u ∈ c.supply → h.cell (.vma u.1) = none ∧ u.1.toNat % 8 = 0 ∧
    u.1.toNat % BLOCK_SIZE ≠ 0
  distinct : ∀ z v y w rest, c.supply = some (z, v) :: some (y, w) :: rest → z ≠ y

end Call

/-- The states that legal calls reach, where each call meets a condition on the state
in which it is made. -/
inductive Reached (ps : PageSize) (meets : Proc → Call → Prop) : Proc → Prop
  | init : Reached ps meets (.init emptyHeap)
  | call {p p' : Proc} {c : Call} (hr : Reached ps meets p) (hc : c.Legal ps p.heap)
    (hm : meets p c) (he : c.exec ps p = some p') : Reached ps meets p'

/-! ### What reaches `vma_free` -/

/-- After these calls the struct is one that `vma_alloc` handed out and that has not been
freed since. -/
def HandedOut (a : Addr) (L : List VmaCall) : Prop :=
  ∃ l₁ l₂, L = l₁ ++ .alloc (some a) :: l₂ ∧ .free a ∉ l₂

def FreesHandedOut (L : List VmaCall) : Prop :=
  ∀ l₁ a l₂, L = l₁ ++ .free a :: l₂ → HandedOut a l₁

def seenByTree : VmaCall → Option ℕ ⊕ ℕ
  | .alloc r => .inl (r.map BitVec.toNat)
  | .free a => .inr a.toNat

def seenBySlab {Tid : Type} : Vma.Event Tid → Option (Option ℕ ⊕ ℕ)
  | .alloc _ r => some (.inl r)
  | .free _ v => some (.inr v)
  | _ => none

/-- Where the slab, used by one thread at a time, has served the calls made so far,
`S_vma_2block` takes the struct to a block of the slab that the struct was carved from. -/
def FreesFromBlocks (L : List VmaCall) : Prop :=
  ∀ l₁ a l₂, L = l₁ ++ .free a :: l₂ →
    ∀ (Tid : Type) [DecidableEq Tid] (Λ : Vma.Layout) (s₀ s : Vma.State Tid), Vma.Initial s₀ →
      Runs (Vma.slab Tid Λ) (fun s t => Alone .idle s t) s₀ s →
      s.mem.log.filterMap seenBySlab = l₁.map seenByTree →
      Vma.IsBlock s.mem (Vma.sVma2block a.toNat) ∧
        a.toNat ∈ Vma.slotsOf Λ.toSizes (Vma.sVma2block a.toNat)

/-! ### The condition -/

/-- Where `ooc_malloc` has mapped memory; it puts a struct there. -/
def headers (p : Proc) : List Addr := p.sys.filterMap fun
  | .mmap _ r => r
  | .munmap _ _ => none

namespace Call

/-- What a function asks of its caller, and of `vma_alloc`. -/
def Served (ps : PageSize) (h : Heap) (S : Finset Node) : Call → Prop
  | oocMalloc size mmapRet _ => ∀ vma ∈ mmapRet, ∀ n ∈ S,
      n.start ≠ (Alloc.vmStart ps ⟨vma, size⟩).toNat
  | oocFree ptr => NearestPre S (.find ptr.toNat)
  | touch addr => NearestPre S (.find addr.toNat)
  | insert vmStart _ supply => Serves supply 1 ∧ ∀ n ∈ S, n.start ≠ vmStart
  | remove vmAddr => NearestPre S (.remove vmAddr)
  | freeTree => True
  | findMod c => PageServed ps h S c

/-- The call gives no header back to the slab. `ooc_free` does so whenever it returns. -/
def SparesHeaders (ps : PageSize) (p : Proc) (S : Finset Node) : Call → Prop
  | oocFree _ => False
  | remove vmAddr => ∀ n ∈ S, n.start = vmAddr → n.addr ∉ headers p
  | freeTree => ∀ n ∈ S, n.addr ∉ headers p
  | findMod c => ∀ n, MergedAway ps S c.vmAddr n → n.addr ∉ headers p
  | _ => True

end Call

def IsServed (ps : PageSize) (p : Proc) (c : Call) : Prop :=
  ∀ S T, Holds p.heap S T → c.Served ps p.heap S

def KeepsHeaders (ps : PageSize) (p : Proc) (c : Call) : Prop :=
  ∀ S T, Holds p.heap S T → c.Served ps p.heap S ∧ c.SparesHeaders ps p S

/-! ### Calls of `vma_alloc` and `vma_free` -/

variable {ps : PageSize} {p p' : Proc} {h : Heap} {S S' : Finset Node} {T T' : Tree Ref}
  {L L' : List VmaCall} {a : Addr} {k : ℕ} {got freed : List Addr}

theorem HandedOut.append (ha : HandedOut a L) (hL : .free a ∉ L') : HandedOut a (L ++ L') := by
  obtain ⟨l₁, l₂, rfl, hl⟩ := ha
  exact ⟨l₁, l₂ ++ L', by simp, by simp [hl, hL]⟩

theorem handedOut_got (L : List VmaCall) (ha : a ∈ got) :
    HandedOut a (L ++ got.map fun b => .alloc (some b)) := by
  obtain ⟨g₁, g₂, rfl⟩ := List.append_of_mem ha
  exact ⟨L ++ g₁.map fun b => .alloc (some b), g₂.map fun b => .alloc (some b), by simp, by simp⟩

theorem FreesHandedOut.snoc (hL : FreesHandedOut L) {e : VmaCall}
    (he : ∀ a, e = .free a → HandedOut a L) : FreesHandedOut (L ++ [e]) := by
  intro l₁ a l₂ hl
  rcases List.eq_nil_or_concat l₂ with rfl | ⟨l₂, e', rfl⟩
  · obtain ⟨rfl, he'⟩ := List.append_inj' hl rfl
    exact he a (List.singleton_inj.mp he')
  · rw [List.concat_eq_append, ← List.cons_append, ← List.append_assoc] at hl
    exact hL l₁ a l₂ (List.append_inj' hl rfl).1

theorem FreesHandedOut.allocs (hL : FreesHandedOut L) (got : List Addr) :
    FreesHandedOut (L ++ got.map fun b => .alloc (some b)) := by
  induction got generalizing L with
  | nil => simpa using hL
  | cons b got ih =>
    rw [List.map_cons, List.append_cons]
    exact ih (hL.snoc (by simp))

theorem FreesHandedOut.frees (hL : FreesHandedOut L) (hd : freed.Nodup)
    (hout : ∀ b ∈ freed, HandedOut b L) : FreesHandedOut (L ++ freed.map .free) := by
  induction freed generalizing L with
  | nil => simpa using hL
  | cons b freed ih =>
    obtain ⟨hb, hd⟩ := List.nodup_cons.mp hd
    rw [List.map_cons, List.append_cons]
    refine ih (hL.snoc fun a he => VmaCall.free.inj he ▸ hout b List.mem_cons_self) hd
      fun c hc => (hout c (List.mem_cons_of_mem _ hc)).append ?_
    rw [List.mem_singleton, VmaCall.free.injEq]
    exact fun he => hb (he ▸ hc)

theorem FreesHandedOut.fromBlocks (hL : FreesHandedOut L) : FreesFromBlocks L := by
  intro l₁ a l₂ hl Tid _ Λ s₀ s h₀ hr hlog
  have hi : Vma.SerialInv Λ s := .runs h₀ hr
  obtain ⟨m₁, m₂, rfl, hfree⟩ := hL l₁ a l₂ hl
  rw [List.map_append, List.map_cons, List.filterMap_eq_append_iff] at hlog
  obtain ⟨g₁, g₂, hg, -, hlog⟩ := hlog
  obtain ⟨g₃, e, g₄, rfl, -, he, hlog⟩ := List.filterMap_eq_cons_iff.mp hlog
  have hopen := hi.log.vma a.toNat
  rw [hg, ← List.append_assoc] at hopen
  have hlive : a.toNat ∈ s.mem.live := by
    refine of_decide_eq_true (hopen.open_after (Vma.Event.frees_of_allocates _) ?_ fun e' he' => ?_)
    · cases e <;> simp_all [seenBySlab, seenByTree, Vma.Event.allocates]
    · cases e' <;> try rfl
      rename_i t v
      have hv : Sum.inr v ∈ m₂.map seenByTree :=
        hlog ▸ List.mem_filterMap.mpr ⟨_, he', rfl⟩
      obtain ⟨c, hc, hcv⟩ := List.mem_map.mp hv
      cases c with
      | alloc r => cases hcv
      | free b =>
        obtain rfl : b.toNat = v := Sum.inr.inj hcv
        have hne : b ≠ a := fun hba => hfree (hba ▸ hc)
        simpa [Vma.Event.frees] using fun hba => hne (BitVec.eq_of_toNat_eq hba)
  obtain ⟨-, g, -, ht⟩ := hi.inv
  obtain ⟨hb, hs, -⟩ := ht.live _ hlive
  exact ⟨hb, hs⟩

/-! ### What the tree holds -/

/-- Every node is a header or a struct that has been handed out, and every struct that was
freed had been handed out. Headers start a page, the structs of `vma_alloc` do not. -/
structure Traced (p : Proc) (S : Finset Node) (T : Tree Ref) : Prop where
  tree : Holds p.heap S T
  aligned : ∀ a ∈ headers p, a.toNat % BLOCK_SIZE = 0
  inBlock : ∀ a, .alloc (some a) ∈ p.heap.calls → a.toNat % BLOCK_SIZE ≠ 0
  origin : ∀ n ∈ S, n.addr ∉ headers p → HandedOut n.addr p.heap.calls
  freed : FreesHandedOut p.heap.calls

/-- A call takes structs from the slab and then gives structs back. Those it gives back are
new or nodes that are no headers, and none of them is in the tree afterwards. -/
structure Exchanges (p p' : Proc) (S S' : Finset Node) (more got freed : List Addr) : Prop where
  headers : headers p' = headers p ++ more
  aligned : ∀ a ∈ more, a.toNat % BLOCK_SIZE = 0
  calls : p'.heap.calls = p.heap.calls ++ got.map (fun a => .alloc (some a)) ++ freed.map .free
  inBlock : ∀ a ∈ got, a.toNat % BLOCK_SIZE ≠ 0
  once : freed.Nodup
  back : ∀ a ∈ freed, a ∈ got ∨ ∃ n ∈ S, n.addr = a ∧ a ∉ Origins.headers p
  live : ∀ m ∈ S', m.addr ∈ more ∨ m.addr ∉ freed ∧ (m.addr ∈ got ∨ ∃ n ∈ S, n.addr = m.addr)

theorem Traced.exchange (ht : Traced p S T) (more got freed : List Addr)
    (hh : Holds p'.heap S' T') (hx : Exchanges p p' S S' more got freed) : Traced p' S' T' := by
  have hgot {a : Addr} (ha : a ∈ got) :
      HandedOut a (p.heap.calls ++ got.map fun b => .alloc (some b)) := handedOut_got _ ha
  have hold {a : Addr} (ha : HandedOut a p.heap.calls) :
      HandedOut a (p.heap.calls ++ got.map fun b => .alloc (some b)) := ha.append (by simp)
  refine ⟨hh, fun a ha => ?_, fun a ha => ?_, fun m hm hnot => ?_, ?_⟩
  · rw [hx.headers] at ha
    exact (List.mem_append.mp ha).elim (ht.aligned a) (hx.aligned a)
  · rw [hx.calls] at ha
    simp only [List.mem_append, List.mem_map, VmaCall.alloc.injEq, Option.some.injEq,
      exists_eq_right, reduceCtorEq, and_false, exists_false, or_false] at ha
    exact ha.elim (ht.inBlock a) (hx.inBlock a)
  · rw [hx.headers, List.mem_append, not_or] at hnot
    obtain ⟨hfreed, hm⟩ := (hx.live m hm).resolve_left hnot.2
    have hlast {a : Addr} (ha : a ∉ freed) : VmaCall.free a ∉ freed.map .free := by simpa using ha
    rw [hx.calls]
    rcases hm with hm | ⟨n, hn, hnm⟩
    · exact (hgot hm).append (hlast hfreed)
    · rw [← hnm] at hfreed hnot ⊢
      exact (hold (ht.origin n hn hnot.1)).append (hlast hfreed)
  · rw [hx.calls]
    refine (ht.freed.allocs got).frees hx.once fun a ha => ?_
    rcases hx.back a ha with ha | ⟨n, hn, rfl, hnot⟩
    · exact hgot ha
    · exact hold (ht.origin n hn hnot)

theorem Traced.not_freed (ht : Traced p S T) (ha : a.toNat % BLOCK_SIZE = 0)
    (hL : ∀ b, .alloc (some b) ∈ L → b.toNat % BLOCK_SIZE ≠ 0)
    (hf : FreesHandedOut (p.heap.calls ++ L)) : .free a ∉ L := fun hm => by
  obtain ⟨l₁, l₂, rfl⟩ := List.append_of_mem hm
  obtain ⟨m₁, m₂, hm, -⟩ := hf (p.heap.calls ++ l₁) a l₂ (by simp)
  have hin : .alloc (some a) ∈ p.heap.calls ++ l₁ := by simp [hm]
  rcases List.mem_append.mp hin with hin | hin
  · exact ht.inBlock a hin ha
  · exact hL a (List.mem_append_left _ hin) ha

/-! ### Calls -/

/-- The call returns, and what it leaves is traced. -/
def ReturnsTraced (res : Option Proc) : Prop := ∃ p' S T, res = some p' ∧ Traced p' S T

namespace Traced

theorem supplied (ht : Traced p S T) {c : Call} (hc : c.Legal ps p.heap) :
    Supplied S c.supply := by
  refine ⟨fun u hu => ⟨(hc.struct u hu).2.1, fun n hn hnu => ?_⟩, hc.distinct⟩
  obtain ⟨v, hv, -⟩ := ht.tree.linked.cell hn
  have hnone : p.heap.cell (.vma u.1) = none := (hc.struct u hu).1
  rw [← hnu] at hnone
  exact nomatch hnone.symm.trans hv

/-- A call that neither takes a struct from the slab nor gives one back. -/
theorem same (ht : Traced p S T) (hh : Holds p'.heap S' T') (hs : p'.sys = p.sys)
    (hc : p'.heap.calls = p.heap.calls) (hS : ∀ m ∈ S', ∃ n ∈ S, n.addr = m.addr) :
    Traced p' S' T' := by
  have hheaders : headers p' = headers p := by rw [headers, hs, headers]
  exact ht.exchange [] [] [] hh
    ⟨by simp [hheaders], by simp, by simp [hc], by simp, by simp, by simp,
      fun m hm => Or.inr ⟨by simp, Or.inr (hS m hm)⟩⟩

theorem touch (ht : Traced p S T) {addr : Addr} (hs : NearestPre S (.find addr.toNat)) :
    ReturnsTraced (inTree p (Origins.touch p.heap addr)) := by
  obtain ⟨n, hn, hk, hmax⟩ := hs
  obtain ⟨h1, he1⟩ := ht.tree.find_spec hn hk hmax
  obtain ⟨T1, hh1⟩ := ht.tree.find he1
  obtain ⟨-, -, -, hl1⟩ := rep_of_spTreeFindAndLock ht.tree.rep he1
  obtain ⟨h2, he2, hl2, hroot2, -, hcalls2, -⟩ := hh1.linked.modify hn
    (m := { n with flags := (Sched.answer n.flags).1 })
    (f := fun v => { v with vmFlags := (Sched.answer v.vmFlags).1 }) rfl
    ⟨fun _ => rfl, fun _ => rfl, fun _ => rfl, fun w _ => by cases w <;> rfl⟩
    (fun v hf hs he => by rw [hf, hs, he]) (fun _ _ h => h) fun _ _ h => h
  have hrun : Origins.touch p.heap addr = some h2 := by
    simp only [Origins.touch, he1, Option.bind_eq_bind, Option.bind_some, he2]
  refine ⟨{ p with heap := h2 }, _, T1, by rw [hrun]; rfl,
    ht.same (hl2.holds_of_root (hroot2.trans hh1.rep.root)) rfl (hcalls2.trans hl1.calls)
      fun m hm => ?_⟩
  rcases Finset.mem_union.mp hm with hm | hm
  · exact ⟨m, (Finset.mem_sdiff.mp hm).1, rfl⟩
  · obtain rfl := Finset.mem_singleton.mp hm
    exact ⟨n, hn, rfl⟩

theorem insert (ht : Traced p S T) {vmStart vmEnd : ℕ} {supply : List (Option (Addr × VmArea))}
    (hc : (Call.insert vmStart vmEnd supply).Legal ps p.heap) (hserves : Serves supply 1)
    (hs : ∀ n ∈ S, n.start ≠ vmStart) :
    ReturnsTraced (inTree p (insertNew { p.heap with supply := supply } vmStart vmEnd)) := by
  obtain ⟨z, v, rest, rfl⟩ := serves_one.mp hserves
  have hz : Fresh S z := (ht.supplied hc).fresh (z, v) List.mem_cons_self
  obtain ⟨-, -, hblock⟩ := hc.struct (z, v) List.mem_cons_self
  have hl : Linked { p.heap with
      supply := rest, calls := p.heap.calls ++ [.alloc (some z)] } S T :=
    ht.tree.linked.of_cell ht.tree.rep.stack fun _ _ => rfl
  obtain ⟨h', T', he, hh', hcalls, -⟩ := (hl.holds_of_root ht.tree.rep.root).insert_frame (z := z)
    (v := { v with vmStart := vmStart, vmEnd := vmEnd }) ⟨hz.1, fun n hn => ⟨hz.2 n hn, hs n hn⟩⟩
  have hrun : insertNew { p.heap with supply := some (z, v) :: rest } vmStart vmEnd = some h' := by
    change spTreeInsert _ _ = some h' at he
    simpa [insertNew, vmaAlloc, Heap.upd, Heap.put] using he
  refine ⟨{ p with heap := h' }, _, T', by rw [hrun]; rfl,
    ht.exchange [] [z] [] hh'
      ⟨by simp [headers], by simp, by simp [hcalls], by simpa using hblock, by simp, by simp,
        fun m hm => Or.inr ⟨by simp, ?_⟩⟩⟩
  rcases Finset.mem_insert.mp hm with rfl | hm
  · exact Or.inl (by simp [VmArea.node])
  · exact Or.inr ⟨m, hm, rfl⟩

theorem remove (ht : Traced p S T) (hs : NearestPre S (.remove k))
    (hspare : ∀ n ∈ S, n.start = k → n.addr ∉ headers p) :
    ReturnsTraced (inTree p (spTreeRemove p.heap k)) := by
  obtain ⟨n, hn, rfl⟩ := hs
  obtain ⟨h', T', he, hh', hnot, -, hcalls, -⟩ := ht.tree.remove_frame hn
  have hrun : spTreeRemove p.heap n.start = some h' := he
  refine ⟨{ p with heap := h' }, _, T', by rw [hrun]; rfl,
    ht.exchange [] [] [n.addr] hh'
      ⟨by simp [headers], by simp, by simp [hcalls], by simp, by simp, fun a ha => ?_,
        fun m hm => Or.inr ⟨fun ha => ?_, Or.inr ⟨m, (Finset.mem_filter.mp hm).1, rfl⟩⟩⟩⟩
  · obtain rfl := List.mem_singleton.mp ha
    exact Or.inr ⟨n, hn, rfl, hspare n hn rfl⟩
  · have hmn : m.ref = n.ref := congrArg Ref.vma (List.mem_singleton.mp ha)
    exact hnot (hmn ▸ hh'.ref_mem hm)

theorem freeTree (ht : Traced p S T) (hspare : ∀ n ∈ S, n.addr ∉ headers p) :
    ReturnsTraced (inTree p (spTreeFree p.heap)) := by
  have hslab : ∀ x ∈ T.toList, SlabRef x := fun x hx => by
    obtain ⟨n, hn, rfl, -⟩ := ht.tree.node_of_mem hx
    obtain ⟨l₁, l₂, hout, -⟩ := ht.origin n hn (hspare n hn)
    exact ⟨ht.tree.aligned _ hx, ht.inBlock _ (by simp [hout])⟩
  obtain ⟨h', he, hf⟩ := spTreeFree_frees_all ht.tree.rep hslab
  obtain ⟨freed, hcalls, hperm⟩ := hf.once
  have hh' : Holds h' ∅ nil := ⟨hf.empty, by simp, by simp⟩
  refine ⟨{ p with heap := h' }, ∅, nil, by rw [he]; rfl,
    ht.exchange [] [] freed hh'
      ⟨by simp [headers], by simp, by simp [hcalls], by simp, ?_, fun a ha => ?_, by simp⟩⟩
  · exact List.Nodup.of_map _ (hperm.nodup_iff.mpr ht.tree.rep.nodup)
  · have hx : Ref.vma a ∈ T.toList := hperm.mem_iff.mp (List.mem_map_of_mem ha)
    obtain ⟨n, hn, hna, -⟩ := ht.tree.node_of_mem hx
    obtain rfl : n.addr = a := Ref.vma.inj hna
    exact Or.inr ⟨n, hn, rfl, hspare n hn⟩

theorem findMod (ht : Traced p S T) {c : Touch} (hc : (Call.findMod c).Legal ps p.heap)
    (hs : PageServed ps p.heap S c)
    (hspare : ∀ n, MergedAway ps S c.vmAddr n → n.addr ∉ headers p) :
    ReturnsTraced (inTree p ((c.exec ps p.heap).map (·.1))) := by
  obtain ⟨h', S', T', y, used, freed, he, hh', hused, hcalls, hback, -⟩ :=
    hs.givesBack ht.tree (ht.supplied hc)
  refine ⟨{ p with heap := h' }, S', T', by rw [he]; rfl,
    ht.exchange [] (used.map (·.1)) freed hh'
      ⟨by simp [headers], by simp, by simp [hcalls, Function.comp_def], fun a ha => ?_, hback.once,
        fun a ha => (hback.back a ha).imp_right fun ⟨n, hn, hna, hm⟩ =>
          ⟨n, hn, hna, hna ▸ hspare n hm⟩, fun m hm => Or.inr (hback.live m hm)⟩⟩
  obtain ⟨u, hu, rfl⟩ := List.mem_map.mp ha
  exact (hc.struct u (hused u hu)).2.2

theorem oocMalloc (ht : Traced p S T) {size : BitVec 64} {r : Option Addr} {ok : Bool}
    (hc : (Call.oocMalloc size r ok).Legal ps p.heap)
    (hs : ∀ vma ∈ r, ∀ n ∈ S, n.start ≠ (Alloc.vmStart ps ⟨vma, size⟩).toNat) :
    ReturnsTraced ((OpenOOC.oocMalloc ps p size r ok).map (·.1)) := by
  -- without a mapping that is kept nothing comes into the tree
  have hfails {p' : Proc} (more : List Addr) (hh : p'.heap = p.heap)
      (hm : headers p' = headers p ++ more) (ha : ∀ a ∈ more, a.toNat % BLOCK_SIZE = 0) :
      Traced p' S T :=
    ht.exchange more [] [] (hh ▸ ht.tree)
      ⟨hm, ha, by simp [hh], by simp, by simp, by simp,
        fun m hm => Or.inr ⟨by simp, Or.inr ⟨m, hm, rfl⟩⟩⟩
  cases r with
  | none => exact ⟨_, S, T, rfl, hfails [] rfl (by simp [headers]) (by simp)⟩
  | some vma =>
    have hpage : ∀ a ∈ [vma], a.toNat % BLOCK_SIZE = 0 := fun a ha => by
      obtain rfl := List.mem_singleton.mp ha
      exact (vma_aligned (hc.mapping a rfl).1).1
    cases ok with
    | false => exact ⟨_, S, T, rfl, hfails [vma] rfl (by simp [headers]) hpage⟩
    | true =>
      obtain ⟨hstart, hnone⟩ := hc.mapping vma rfl
      have hpre : Insertable S vma (Alloc.vmArea ps ⟨vma, size⟩) := by
        refine ⟨(vma_aligned hstart).2, fun n hn => ⟨fun he => ?_, hs vma rfl n hn⟩⟩
        obtain ⟨v, hv, -⟩ := ht.tree.linked.cell hn
        rw [← he] at hnone
        exact nomatch hnone.symm.trans hv
      obtain ⟨h', T', he, hh', hcalls, -⟩ := ht.tree.insert_frame hpre
      set sys := p.sys ++ [.mmap (ALIGN ps SIZEOF_VM_AREA + ALIGN ps size) (some vma)] with hsys
      have hrun : OpenOOC.oocMalloc ps p size (some vma) true = some (⟨h', sys, p.rets ++
          [Alloc.vmStart ps ⟨vma, size⟩]⟩, Alloc.vmStart ps ⟨vma, size⟩) := by
        change (spTreeInsert (p.heap.put (.vma vma) (some (Alloc.vmArea ps ⟨vma, size⟩)))
          (some (.vma vma))).bind _ = _
        rw [show spTreeInsert _ _ = some h' from he]
        rfl
      refine ⟨_, _, T', by rw [hrun]; rfl, ht.exchange [vma] [] [] hh'
        ⟨by simp [headers, hsys], hpage, by simp [hcalls], by simp, by simp, by simp,
          fun m hm => ?_⟩⟩
      rcases Finset.mem_insert.mp hm with rfl | hm
      · exact Or.inl (by simp [VmArea.node])
      · exact Or.inr ⟨by simp, Or.inr ⟨m, hm, rfl⟩⟩

end Traced

theorem traced_empty : Traced (.init emptyHeap) ∅ nil := by
  refine ⟨holds_init (h := emptyHeap) rfl, fun a ha => absurd ha List.not_mem_nil,
    fun a ha => absurd ha List.not_mem_nil, by simp, fun l₁ a l₂ hl => ?_⟩
  exact absurd hl.symm (List.append_ne_nil_of_right_ne_nil l₁ (List.cons_ne_nil _ l₂))

theorem Traced.call (ht : Traced p S T) {c : Call} (hc : c.Legal ps p.heap)
    (hs : c.Served ps p.heap S) (hspare : c.SparesHeaders ps p S) :
    ReturnsTraced (c.exec ps p) := by
  cases c with
  | oocMalloc size r ok => exact ht.oocMalloc hc hs
  | oocFree ptr => exact hspare.elim
  | touch addr => exact ht.touch hs
  | insert s e supply => exact ht.insert hc hs.1 hs.2
  | remove k => exact ht.remove hs hspare
  | freeTree => exact ht.freeTree hspare
  | findMod c => exact ht.findMod hc hs hspare

theorem Reached.traced (hr : Reached ps (KeepsHeaders ps) p) : ∃ S T, Traced p S T := by
  induction hr with
  | init => exact ⟨∅, nil, traced_empty⟩
  | call hr hc hm he ih =>
    obtain ⟨S, T, ht⟩ := ih
    obtain ⟨hs, hspare⟩ := hm S T ht.tree
    obtain ⟨p', S', T', he', ht'⟩ := ht.call hc hs hspare
    obtain rfl := Option.some.inj (he.symm.trans he')
    exact ⟨S', T', ht'⟩

/-! ### Headers that are given back -/

namespace Traced

/-- What is removed and can still be read is a header. -/
theorem oocFree_frees (ht : Traced p S T) {ptr : Addr} (hs : NearestPre S (.find ptr.toNat))
    (he : oocFree ps p ptr = some p') : ∃ a : Addr, a.toNat % BLOCK_SIZE = 0 ∧
      p'.heap.calls = p.heap.calls ++ [.free a] := by
  obtain ⟨n, hn, hk, hmax⟩ := hs
  obtain ⟨h1, he1⟩ := ht.tree.find_spec hn hk hmax
  obtain ⟨T1, hh1⟩ := ht.tree.find he1
  obtain ⟨-, -, -, hl1⟩ := rep_of_spTreeFindAndLock ht.tree.rep he1
  obtain ⟨v, hv, -, -, -, hvs, -⟩ := hh1.linked.get_ref hn
  obtain ⟨h2, T2, -, -, he2, -, -, -, -, hcalls2, -, hfree⟩ :=
    spTreeRemove_spec hh1.rep hh1.aligned (hh1.ref_mem hn)
  have hstart : h1.start (.vma n.addr) = n.start := (hh1.start hn).1
  rw [hstart] at he2
  obtain ⟨out, hout, he⟩ := Option.bind_eq_some_iff.mp he
  obtain rfl := Option.some.inj (he1.symm.trans hout)
  obtain ⟨v', hv', he⟩ := Option.bind_eq_some_iff.mp he
  obtain rfl : v = v' := Option.some.inj (hv.symm.trans hv')
  obtain ⟨h3, he3, he⟩ := Option.bind_eq_some_iff.mp he
  rw [hvs, he2] at he3
  obtain rfl := Option.some.inj he3
  obtain ⟨w, hw, he⟩ := Option.bind_eq_some_iff.mp he
  obtain rfl := Option.some.inj he
  refine ⟨n.addr, ?_, hcalls2.trans (by rw [hl1.calls])⟩
  by_contra hne
  rw [if_neg hne] at hfree
  have hnone : h2.get (some n.ref) = none := hfree
  rw [hnone] at hw
  cases hw

/-- A call that leaves the property spares the headers. -/
theorem spares (ht : Traced p S T) {c : Call} (hc : c.Legal ps p.heap)
    (hs : c.Served ps p.heap S) (he : c.exec ps p = some p')
    (hf : FreesHandedOut p'.heap.calls) : c.SparesHeaders ps p S := by
  cases c with
  | oocFree ptr =>
    obtain ⟨a, ha, hcalls⟩ := ht.oocFree_frees hs he
    exact ht.not_freed ha (by simp) (hcalls ▸ hf) (by simp)
  | remove k =>
    intro n hn hk ha
    subst hk
    obtain ⟨h', T', he', -, -, -, hcalls, -⟩ := ht.tree.remove_frame hn
    have he' : spTreeRemove p.heap n.start = some h' := he'
    have he : inTree p (spTreeRemove p.heap n.start) = some p' := he
    rw [he'] at he
    obtain rfl := Option.some.inj he
    exact ht.not_freed (ht.aligned _ ha) (by simp) (hcalls ▸ hf) (by simp)
  | freeTree =>
    intro n hn ha
    obtain ⟨h', he', rfl⟩ := Option.map_eq_some_iff.mp he
    obtain ⟨freed, hcalls, hall⟩ := calls_of_spTreeFreeLoop _ ht.tree he'
    exact ht.not_freed (ht.aligned _ ha) (by simp) (hcalls ▸ hf) (by simpa using hall n hn)
  | findMod c =>
    intro n hn ha
    obtain ⟨h', S', T', y, used, freed, he', -, hused, hcalls, -, hgone⟩ :=
      PageServed.givesBack hs ht.tree (ht.supplied hc)
    have he : inTree p ((c.exec ps p.heap).map (·.1)) = some p' := he
    rw [he'] at he
    obtain rfl := Option.some.inj he
    have hf : FreesHandedOut h'.calls := hf
    rw [hcalls, List.append_assoc] at hf
    refine ht.not_freed (ht.aligned _ ha) (fun b hb => ?_) hf (by simpa using hgone n hn)
    obtain ⟨u, hu, rfl⟩ : ∃ u ∈ used, u.1 = b := by simpa using hb
    exact (hc.struct u (hused u hu)).2.2
  | _ => trivial

end Traced

/-- In every run whose calls are served and give no header back, each struct that reaches
`vma_free` has been handed out by `vma_alloc` and not been freed since, and lies in a block
of the slab. A further call that is served returns and leaves it so exactly if it gives no
header back either. -/
theorem freed_structs_are_handed_out (hr : Reached ps (KeepsHeaders ps) p) :
    (FreesHandedOut p.heap.calls ∧ FreesFromBlocks p.heap.calls) ∧
      ∀ c : Call, c.Legal ps p.heap → IsServed ps p c →
        ((∃ p', c.exec ps p = some p' ∧ FreesHandedOut p'.heap.calls) ↔ KeepsHeaders ps p c) := by
  obtain ⟨S, T, ht⟩ := hr.traced
  refine ⟨⟨ht.freed, ht.freed.fromBlocks⟩, fun c hc hm => ⟨?_, fun hkeep => ?_⟩⟩
  · rintro ⟨p', he, hf⟩ S' T' hh
    obtain rfl := ht.tree.unique hh
    exact ⟨hm S T' hh, ht.spares hc (hm S T' hh) he hf⟩
  · obtain ⟨hs, hspare⟩ := hkeep S T ht.tree
    obtain ⟨p', S', T', he, ht'⟩ := ht.call hc hs hspare
    exact ⟨p', he, ht'.freed⟩

/-! ### Runs that are executed -/

def legal (ps : PageSize) (h : Heap) (c : Call) : Bool :=
  (c.mmapRet.all fun a => a.toNat % ps.bytes == 0 && (h.cell (.vma a)).isNone) &&
    (c.supply.all fun u => u.all fun u => (h.cell (.vma u.1)).isNone && u.1.toNat % 8 == 0 &&
      u.1.toNat % BLOCK_SIZE != 0) &&
    match c.supply with
    | some (z, _) :: some (y, _) :: _ => z != y
    | _ => true

theorem legal_of {c : Call} (hc : legal ps h c = true) : c.Legal ps h := by
  simp only [legal, Bool.and_eq_true] at hc
  obtain ⟨⟨hp, hu⟩, hd⟩ := hc
  refine ⟨fun a ha => ?_, fun u hm => ?_, fun z v y w rest he => ?_⟩
  · rw [Option.mem_def.mp ha] at hp
    simpa using hp
  · simpa [and_assoc] using List.all_eq_true.mp hu (some u) hm
  · rw [he] at hd
    simpa using hd

/-- The call is served in a tree with these nodes. A page that is covered lies in the middle
of its node, and `sp->root` is not stale. -/
def served (ps : PageSize) (h : Heap) (l : List Node) : Call → Bool
  | .oocMalloc size r _ => r.all fun vma => l.all fun n =>
      n.start != (Alloc.vmStart ps ⟨vma, size⟩).toNat
  | .oocFree addr | .touch addr => l.any fun n => decide (n.Covers addr.toNat) &&
      l.all fun m => !decide (m.start ≤ addr.toNat) || decide (m.start ≤ n.start)
  | .insert vmStart _ supply => supply.head?.any (·.isSome) && l.all fun n => n.start != vmStart
  | .remove vmAddr => l.any fun n => n.start == vmAddr
  | .freeTree => true
  | .findMod c => (l.all fun n => decide (n.start < n.stop) &&
      l.all fun m => decide (n = m ∨ n.stop ≤ m.start ∨ m.stop ≤ n.start)) &&
    decide (c.vmAddr + ps.bytes < 2 ^ 64) &&
    (l.all fun n => !decide (n.Covers c.vmAddr) ||
      decide (n.start < c.vmAddr ∧ c.vmAddr + ps.bytes < n.stop) &&
      (h.root.any fun r => decide (h.start r < c.vmAddr ∧ h.child .spR r = none)) &&
      match c.supply with
      | [some _, some _] => true
      | _ => false) &&
    ((l.any fun n => decide (n.Covers c.vmAddr)) || c.supply.head?.any (·.isSome) &&
      l.all fun n => decide (n.stop ≤ c.vmAddr ∨ c.vmAddr + ps.bytes ≤ n.start))

/-- No header is asked for, or touches the page that is. -/
def spares (p : Proc) (l : List Node) : Call → Bool
  | .oocFree _ => false
  | .remove vmAddr => l.all fun n => n.start != vmAddr || !(headers p).contains n.addr
  | .freeTree => l.all fun n => !(headers p).contains n.addr
  | .findMod c => l.all fun n => n.start != c.vmAddr && n.stop != c.vmAddr ||
      !(headers p).contains n.addr
  | _ => true

theorem serves_of_head {supply : List (Option (Addr × VmArea))}
    (hs : supply.head?.any (·.isSome) = true) : Serves supply 1 := by
  obtain _ | ⟨_ | ⟨z, v⟩, rest⟩ := supply
  · cases hs
  · cases hs
  · exact serves_one.mpr ⟨z, v, rest, rfl⟩

theorem served_of {l : List Node} {c : Call} (hS : ∀ n, n ∈ S ↔ n ∈ l)
    (hc : served ps h l c = true) : c.Served ps h S := by
  have hall {q : Node → Bool} (hq : l.all q = true) {n : Node} (hn : n ∈ S) : q n = true :=
    List.all_eq_true.mp hq n ((hS n).mp hn)
  cases c with
  | oocMalloc size r ok =>
    intro vma hr n hn
    rw [Option.mem_def.mp hr] at hc
    simpa using hall hc hn
  | oocFree addr | touch addr =>
    obtain ⟨n, hn, hc⟩ := List.any_eq_true.mp hc
    obtain ⟨hk, hmax⟩ := Bool.and_eq_true_iff.mp hc
    refine ⟨n, (hS n).mpr hn, of_decide_eq_true hk, fun m hm hle => ?_⟩
    simpa [hle] using hall hmax hm
  | insert s e supply =>
    obtain ⟨hs, hne⟩ := Bool.and_eq_true_iff.mp hc
    exact ⟨serves_of_head hs, fun n hn => by simpa using hall hne hn⟩
  | remove k =>
    obtain ⟨n, hn, hk⟩ := List.any_eq_true.mp hc
    exact ⟨n, (hS n).mpr hn, by simpa using hk⟩
  | freeTree => trivial
  | findMod c =>
    simp only [served, Bool.and_eq_true] at hc
    obtain ⟨⟨⟨hp, hwrap⟩, hcov⟩, hout⟩ := hc
    refine ⟨.of_apart ⟨fun n hn => ?_, fun n hn m hm hne => ?_⟩, of_decide_eq_true hwrap,
      fun n hn hcn => ?_, fun hno => ?_⟩
    · exact of_decide_eq_true (Bool.and_eq_true_iff.mp (hall hp hn)).1
    · have hall' := (Bool.and_eq_true_iff.mp (hall hp hn)).2
      exact (of_decide_eq_true (hall hall' hm)).resolve_left hne
    · have htest := hall hcov hn
      simp only [hcn, decide_true, Bool.not_true, Bool.false_or, Bool.and_eq_true] at htest
      obtain ⟨⟨hmid, hroot⟩, hsup⟩ := htest
      obtain ⟨hs, he⟩ := of_decide_eq_true hmid
      obtain ⟨r, hr, hr'⟩ := (Option.any_eq_true _ _).mp hroot
      have hstays : RootStays h c.vmAddr := ⟨r, hr, Or.inr (Or.inr (of_decide_eq_true hr'))⟩
      have hserves : Serves c.supply 2 := by
        split at hsup
        · rename_i u v hs
          exact ⟨[u, v], [], rfl, hs⟩
        · cases hsup
      exact ⟨he.le, fun _ _ => ⟨hstays, hserves⟩, fun h => absurd h hs.ne,
        fun _ h => absurd h he.ne', fun h => absurd h hs.ne, fun h => absurd h hs.ne⟩
    · rcases Bool.or_eq_true_iff.mp hout with hout | hout
      · obtain ⟨n, hn, hcn⟩ := List.any_eq_true.mp hout
        exact absurd (of_decide_eq_true hcn) (hno n ((hS n).mpr hn))
      · obtain ⟨hs, hout⟩ := Bool.and_eq_true_iff.mp hout
        exact ⟨fun n hn => of_decide_eq_true (hall hout hn), serves_of_head hs⟩

theorem spares_of {l : List Node} {c : Call} (hS : ∀ n, n ∈ S ↔ n ∈ l)
    (hc : spares p l c = true) : c.SparesHeaders ps p S := by
  have hall {q : Node → Bool} (hq : l.all q = true) {n : Node} (hn : n ∈ S) : q n = true :=
    List.all_eq_true.mp hq n ((hS n).mp hn)
  cases c with
  | oocFree addr => cases hc
  | remove k =>
    intro n hn hk
    simpa [hk] using hall hc hn
  | freeTree =>
    intro n hn
    simpa using hall hc hn
  | findMod c =>
    intro n hm
    obtain ⟨hn, hk⟩ : n ∈ S ∧ (n.start = c.vmAddr ∨ n.stop = c.vmAddr) := by
      cases hm with
      | joined _ hl _ => exact ⟨hl.1, Or.inr hl.2.1⟩
      | merged hn hs _ _ => exact ⟨hn, Or.inl hs⟩
      | mergedPrev _ _ _ hl _ => exact ⟨hl.1, Or.inr hl.2.1⟩
    have := hall hc hn
    rcases hk with hk | hk <;> simpa [hk] using this
  | _ => trivial

def isServed (ps : PageSize) (p : Proc) (c : Call) : Bool :=
  (p.heap.readNodes 4).any fun l => served ps p.heap l c

def keepsHeaders (ps : PageSize) (p : Proc) (c : Call) : Bool :=
  (p.heap.readNodes 4).any fun l => served ps p.heap l c && spares p l c

theorem isServed_of {c : Call} (hc : isServed ps p c = true) : IsServed ps p c := fun S T hh => by
  obtain ⟨l, hl, hc⟩ := (Option.any_eq_true _ _).mp hc
  exact served_of (hh.mem_read hl) hc

theorem keepsHeaders_of {c : Call} (hc : keepsHeaders ps p c = true) :
    KeepsHeaders ps p c := fun S T hh => by
  obtain ⟨l, hl, hc⟩ := (Option.any_eq_true _ _).mp hc
  obtain ⟨hs, hspare⟩ := Bool.and_eq_true_iff.mp hc
  exact ⟨served_of (hh.mem_read hl) hs, spares_of (hh.mem_read hl) hspare⟩

/-- Calls one after the other, as long as they are legal and pass the test. -/
def callAll (ps : PageSize) (ok : Proc → Call → Bool) (p : Proc) : List Call → Option Proc
  | [] => some p
  | c :: cs =>
    if legal ps p.heap c && ok p c then (c.exec ps p).bind fun p => callAll ps ok p cs else none

theorem reached_callAll {meets : Proc → Call → Prop} {ok : Proc → Call → Bool} {cs : List Call}
    (hr : Reached ps meets p) (hm : ∀ p c, ok p c = true → meets p c)
    (he : callAll ps ok p cs = some p') : Reached ps meets p' := by
  induction cs generalizing p with
  | nil => exact Option.some.inj he ▸ hr
  | cons c cs ih =>
    unfold callAll at he
    split_ifs at he with hc
    obtain ⟨hl, hok⟩ := Bool.and_eq_true_iff.mp hc
    obtain ⟨q, he1, he2⟩ := Option.bind_eq_some_iff.mp he
    exact ih (.call hr (legal_of hl) (hm p c hok) he1) he2

/-- Three pages are touched and merged, and the one in the middle is split off again. An
allocation is made and touched, then two of the nodes that are no header are removed. The
slab has served the calls before the last one. -/
theorem freed_structs_are_handed_out_split : ∃ p, Reached pages4096 (KeepsHeaders pages4096) p ∧
    p.heap.calls = [.alloc (some 8256), .alloc (some 8328), .free 8328, .alloc (some 8328),
      .free 8328, .alloc (some 8328), .alloc (some 8400), .free 8400, .free 8256] ∧
    headers p = [0x10000] ∧
    p.heap.readNodes 3 = some [⟨8328, VM_PROT_WRITE, 4096, 8192⟩, ⟨0x10000, 1, 0x11000, 0x11001⟩] ∧
    ((FreesHandedOut p.heap.calls ∧ FreesFromBlocks p.heap.calls) ∧
      ∀ c : Call, c.Legal pages4096 p.heap → IsServed pages4096 p c →
        ((∃ p', c.exec pages4096 p = some p' ∧ FreesHandedOut p'.heap.calls) ↔
          KeepsHeaders pages4096 p c)) ∧
    ∃ s : Vma.State (Fin 2), Runs (Vma.slab (Fin 2) Vma.lp64) (fun s t => Alone .idle s t)
      Vma.zeroState s ∧ s.mem.log.filterMap seenBySlab = [.inl (some 8256), .inl (some 8328),
        .inr 8328, .inl (some 8328), .inr 8328, .inl (some 8328), .inl (some 8400), .inr 8400] := by
  have hrun : (callAll pages4096 (keepsHeaders pages4096) (.init emptyHeap) [
      .findMod ⟨0, [staleZero 8256]⟩, .findMod ⟨4096, [staleZero 8328]⟩,
      .findMod ⟨8192, [staleZero 8328]⟩, .findMod ⟨4096, [staleZero 8328, staleZero 8400]⟩,
      .oocMalloc 1 (some 0x10000) true, .touch 0x11000, .remove 8192, .remove 0]).any (fun p =>
        p.heap.calls = [.alloc (some 8256), .alloc (some 8328), .free 8328, .alloc (some 8328),
          .free 8328, .alloc (some 8328), .alloc (some 8400), .free 8400, .free 8256] ∧
        headers p = [0x10000] ∧ p.heap.readNodes 3 =
          some [⟨8328, VM_PROT_WRITE, 4096, 8192⟩, ⟨0x10000, 1, 0x11000, 0x11001⟩]) = true := by
    decide +kernel
  obtain ⟨p, he, hp⟩ := (Option.any_eq_true _ _).mp hrun
  obtain ⟨hcalls, hheaders, hnodes⟩ := of_decide_eq_true hp
  have hr : Reached pages4096 (KeepsHeaders pages4096) p :=
    reached_callAll .init (fun _ _ => keepsHeaders_of) he
  obtain ⟨s, hs, hlog⟩ := Vma.exec_serial
    (Vma.firstAlloc 0 ++ (0, .callAlloc) :: Vma.steps 0 7 ++ (0, .callFree 8328) :: Vma.steps 0 3 ++
      (0, .callAlloc) :: Vma.steps 0 7 ++ (0, .callFree 8328) :: Vma.steps 0 3 ++
      (0, .callAlloc) :: Vma.steps 0 7 ++ (0, .callAlloc) :: Vma.steps 0 7 ++
      (0, .callFree 8400) :: Vma.steps 0 3)
    (fun s => s.mem.log.filterMap seenBySlab = [.inl (some 8256), .inl (some 8328),
      .inr 8328, .inl (some 8328), .inr 8328, .inl (some 8328), .inl (some 8400), .inr 8400])
    (by decide +kernel)
  exact ⟨p, hr, hcalls, hheaders, hnodes, freed_structs_are_handed_out hr, s, hs,
    of_decide_eq_true hlog⟩

/-- An allocation is made and freed: `sp_tree_remove` gives its header to `vma_free`. -/
theorem freed_header_is_not_handed_out : ∃ p, Reached pages4096 (IsServed pages4096) p ∧
    p.heap.calls = [.free 0x10000] ∧ ¬ FreesHandedOut p.heap.calls := by
  have hrun : (callAll pages4096 (isServed pages4096) (.init emptyHeap)
      [.oocMalloc 1 (some 0x10000) true, .oocFree 0x11000]).any
      (fun p => p.heap.calls = [.free 0x10000]) = true := by
    decide +kernel
  obtain ⟨p, he, hp⟩ := (Option.any_eq_true _ _).mp hrun
  have hcalls : p.heap.calls = [.free 0x10000] := of_decide_eq_true hp
  refine ⟨p, reached_callAll .init (fun _ _ => isServed_of) he, hcalls, fun hfreed => ?_⟩
  obtain ⟨l₁, l₂, hl, -⟩ := hfreed [] 0x10000 [] hcalls
  exact absurd hl (by simp)

end OpenOOC.Origins
