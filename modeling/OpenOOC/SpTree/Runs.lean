import Mathlib.Data.Finset.Basic
import Mathlib.Data.Finset.Filter
import OpenOOC.SpTree.Ops

/-! Runs of insertions, removals and lookups from `sp_tree_init`. The abstract
state is the set of live nodes; the heap represents it after every operation. -/

namespace OpenOOC

open Links SplayTree SplayTree.Tree

/-! ### The abstract state -/

/-- A live node: its struct, and the flags and the range that the caller gave it. -/
structure Node where
  addr : Addr
  flags : BitVec 64
  start : ℕ
  stop : ℕ
  deriving DecidableEq

def VmArea.node (z : Addr) (v : VmArea) : Node := ⟨z, v.vmFlags, v.vmStart, v.vmEnd⟩

def Node.ref (n : Node) : Ref := .vma n.addr

def Node.Covers (n : Node) (k : ℕ) : Prop := n.start ≤ k ∧ k < n.stop

instance (n : Node) (k : ℕ) : Decidable (n.Covers k) := inferInstanceAs (Decidable (_ ∧ _))

/-- An operation with what the caller passes. An inserted struct arrives with
any contents; its `vm_start`, `vm_end` and `vm_flags` are the caller's. -/
inductive TreeOp
  | insert (z : Addr) (v : VmArea)
  | remove (vmAddr : ℕ)
  | find (vmAddr : ℕ)

def TreeOp.exec (h : Heap) : TreeOp → Option Heap
  | .insert z v => spTreeInsert (h.put (.vma z) (some v)) (some (.vma z))
  | .remove vmAddr => spTreeRemove h vmAddr
  | .find vmAddr => (spTreeFindAndLock h vmAddr).map (·.1)

def TreeOp.live (S : Finset Node) : TreeOp → Finset Node
  | .insert z v => Insert.insert (v.node z) S
  | .remove vmAddr => S.filter (·.start ≠ vmAddr)
  | .find _ => S

def execAll (h : Heap) : List TreeOp → Option Heap
  | [] => some h
  | op :: ops => (op.exec h).bind fun h => execAll h ops

def liveAll (S : Finset Node) : List TreeOp → Finset Node
  | [] => S
  | op :: ops => liveAll (op.live S) ops

def LegalRun (pre : Finset Node → TreeOp → Prop) (S : Finset Node) : List TreeOp → Prop
  | [] => True
  | op :: ops => pre S op ∧ LegalRun pre (op.live S) ops

/-- A struct that is not in the tree, with a `vm_start` that is not in the tree. -/
def Insertable (S : Finset Node) (z : Addr) (v : VmArea) : Prop :=
  z.toNat % 8 = 0 ∧ ∀ n ∈ S, n.addr ≠ z ∧ n.start ≠ v.vmStart

/-- Only insertions have a precondition; a run may try any removal and lookup. -/
def InsertPre (S : Finset Node) : TreeOp → Prop
  | .insert z v => Insertable S z v
  | _ => True

/-- Lookups are of covered addresses, removals of addresses where a node starts. -/
def CoveredPre (S : Finset Node) : TreeOp → Prop
  | .insert z v => Insertable S z v
  | .remove vmAddr => ∃ n ∈ S, n.start = vmAddr
  | .find vmAddr => ∃ n ∈ S, n.Covers vmAddr

/-- A lookup's address is covered by the last node that does not start above it. -/
def NearestPre (S : Finset Node) : TreeOp → Prop
  | .insert z v => Insertable S z v
  | .remove vmAddr => ∃ n ∈ S, n.start = vmAddr
  | .find vmAddr => ∃ n ∈ S, n.Covers vmAddr ∧ ∀ m ∈ S, m.start ≤ vmAddr → m.start ≤ n.start

/-! ### The representation invariant -/

/-- `T` is what is met by following `sp_l` and `sp_r` from `p`. -/
def TreeAt (h : Heap) : Ptr → Tree Ref → Prop
  | p, nil => p = none
  | p, node l a r => p = some a ∧ TreeAt h (h.child .spL a) l ∧ TreeAt h (h.child .spR a) r

/-- The representation invariant of a tree whose live nodes are `S`. -/
structure RepInv (h : Heap) (S : Finset Node) (T : Tree Ref) : Prop where
  walk : TreeAt h h.root T
  ascending : T.toList.Pairwise fun a b => h.start a < h.start b
  live : ∀ x, x ∈ T.toList ↔ ∃ n ∈ S, n.ref = x
  contents : ∀ n ∈ S, h.range n.ref = some (n.flags, n.start, n.stop)
  next_chain : Chain h.next T.toList.head? T.toList
  prev_chain : Chain h.prev T.toList.getLast? T.toList.reverse
  child_par : ∀ x ∈ T.toList, ∀ w c, h.child w x = some c → h.par c = some x
  root_par : ∀ x, h.root = some x → h.par x = none

structure Holds (h : Heap) (S : Finset Node) (T : Tree Ref) : Prop where
  rep : Rep h T
  aligned : ∀ x ∈ T.toList, x.Aligned
  node_iff : ∀ n : Node, n ∈ S ↔ n.ref ∈ T.toList ∧ h.range n.ref = some (n.flags, n.start, n.stop)

theorem Shape.treeAt {h : Heap} {T : Tree Ref} (hs : Shape h T) : TreeAt h T.root? T := by
  induction T with
  | nil => rfl
  | node l a r ihl ihr =>
    obtain ⟨-, hl, hr, -, -, hsl, hsr⟩ := hs
    exact ⟨rfl, hl ▸ ihl hsl, hr ▸ ihr hsr⟩

theorem Shape.child_par {h : Heap} {T : Tree Ref} (hs : Shape h T) :
    ∀ x ∈ T.toList, ∀ w c, h.child w x = some c → h.par c = some x := by
  induction T with
  | nil => simp
  | node l a r ihl ihr =>
    obtain ⟨-, hl, hr, hul, hur, hsl, hsr⟩ := hs
    intro x hx w c hc
    simp only [toList_node, List.mem_append, List.mem_cons] at hx
    rcases hx with hx | rfl | hx
    · exact ihl hsl x hx w c hc
    · cases w
      · exact hul c (hl ▸ hc)
      · exact hur c (hr ▸ hc)
    · exact ihr hsr x hx w c hc

theorem ref_inj {n m : Node} (h : n.ref = m.ref) : n.addr = m.addr := Ref.vma.inj h

section

variable {h : Heap} {S : Finset Node} {T : Tree Ref}

theorem range_of_ok {x : Ref} (hx : h.Ok x) :
    h.range x = some (h.flags x, h.start x, h.stop x) := by
  obtain ⟨v, hv⟩ := Option.isSome_iff_exists.mp hx
  simp [Heap.range, Heap.flags, Heap.start, Heap.stop, hv]

theorem views_of_range {x : Ref} {f : BitVec 64} {s e : ℕ} (hr : h.range x = some (f, s, e)) :
    h.flags x = f ∧ h.start x = s ∧ h.stop x = e := by
  obtain ⟨v, hv, hve⟩ := Option.map_eq_some_iff.mp hr
  simp only [Prod.mk.injEq] at hve
  simpa [Heap.flags, Heap.start, Heap.stop, hv] using hve

theorem Holds.start (hh : Holds h S T) {n : Node} (hn : n ∈ S) :
    h.start n.ref = n.start ∧ h.stop n.ref = n.stop :=
  (views_of_range ((hh.node_iff n).mp hn).2).2

theorem Holds.ref_mem (hh : Holds h S T) {n : Node} (hn : n ∈ S) : n.ref ∈ T.toList :=
  ((hh.node_iff n).mp hn).1

theorem Holds.node_of_mem (hh : Holds h S T) {x : Ref} (hx : x ∈ T.toList) :
    ∃ n ∈ S, n.ref = x ∧ n.start = h.start x := by
  obtain ⟨a, rfl⟩ := ref_ne_stack fun he => hh.rep.stack_notMem (he ▸ hx)
  refine ⟨⟨a, h.flags (.vma a), h.start (.vma a), h.stop (.vma a)⟩, (hh.node_iff _).mpr ⟨hx, ?_⟩,
    rfl, rfl⟩
  exact range_of_ok (hh.rep.ok hx)

/-- Two structs of the tree with one start are one. -/
theorem Rep.eq_of_start (hr : Rep h T) {x y : Ref} (hx : x ∈ T.toList) (hy : y ∈ T.toList)
    (he : h.start x = h.start y) : x = y := by
  refine List.inj_on_of_nodup_map (f := h.start) ?_ hx hy he
  exact List.pairwise_map.mpr (hr.sorted.imp fun {a b} hab => by omega)

theorem Holds.repInv (hh : Holds h S T) : RepInv h S T := by
  refine ⟨?_, hh.rep.sorted, fun x => ⟨fun hx => ?_, ?_⟩, fun n hn => ((hh.node_iff n).mp hn).2,
    hh.rep.list.chain_next, hh.rep.list.chain_prev, hh.rep.shape.child_par, fun x hx => ?_⟩
  · rw [hh.rep.root]
    exact hh.rep.shape.treeAt
  · obtain ⟨n, hn, hnx, -⟩ := hh.node_of_mem hx
    exact ⟨n, hn, hnx⟩
  · rintro ⟨n, hn, rfl⟩
    exact hh.ref_mem hn
  · exact hh.rep.root_par x (hh.rep.root ▸ hx)

/-! ### One operation -/

/-- An insertion leaves the ranges of the other structs alone, also of those that are not
in the tree. -/
theorem Holds.insert_frame (hh : Holds h S T) {z : Addr} {v : VmArea} (hpre : Insertable S z v) :
    ∃ h' T', (TreeOp.insert z v).exec h = some h' ∧ Holds h' ((TreeOp.insert z v).live S) T' ∧
      h'.calls = h.calls ∧ ∀ x, x ≠ .vma z → h'.range x = h.range x := by
  obtain ⟨hal, hnew⟩ := hpre
  have hzT : .vma z ∉ T.toList := fun hx => by
    obtain ⟨n, hn, hnx, -⟩ := hh.node_of_mem hx
    exact (hnew n hn).1 (Ref.vma.inj hnx)
  set h0 := h.put (.vma z) (some v) with hh0
  have hc0 {x : Ref} (hx : x ≠ .vma z) : h0.cell x = h.cell x := by rw [hh0, cell_put, if_neg hx]
  have hr0 : Rep h0 T := hh.rep.of_cell rfl ((hc0 (by simp)).trans hh.rep.stack)
    fun x hx => hc0 fun he => hzT (he ▸ hx)
  have hz0 : h0.range (.vma z) = some (v.vmFlags, v.vmStart, v.vmEnd) := by
    simp [Heap.range, hh0]
  have hstart0 : h0.start (.vma z) = v.vmStart := (views_of_range hz0).2.1
  have hrange0 {x : Ref} (hx : x ≠ .vma z) : h0.range x = h.range x := by
    unfold Heap.range
    rw [hc0 hx]
  obtain ⟨h', T', L1, L2, he, hr', hT, hT', hf⟩ := spTreeInsert_spec hr0
    (by simp [Heap.Ok, hh0]) hzT fun a ha => by
      obtain ⟨n, hn, rfl, hns⟩ := hh.node_of_mem ha
      rw [(range_views (hrange0 fun he => hzT (he ▸ ha))).2.1, hstart0, ← hns]
      exact (hnew n hn).2
  have hmem {x : Ref} : x ∈ T'.toList ↔ x = .vma z ∨ x ∈ T.toList := by
    rw [hT', hT]
    simp only [List.mem_append, List.mem_cons]
    tauto
  refine ⟨h', T', he, ⟨hr', fun x hx => ?_, fun n => ?_⟩, hf.calls,
    fun x hx => (hf.range x).trans (hrange0 hx)⟩
  · rcases hmem.mp hx with rfl | hx
    · exact hal
    · exact hh.aligned x hx
  · rw [TreeOp.live, Finset.mem_insert, hmem, hf.range, hh.node_iff]
    by_cases hn : n.ref = .vma z
    · have hz : n.addr = z := Ref.vma.inj hn
      rw [hn, hz0]
      obtain ⟨a, f, s, e⟩ := n
      obtain rfl : a = z := hz
      simp only [VmArea.node, Node.mk.injEq, Option.some.injEq, Prod.mk.injEq, true_and, hzT,
        false_and,
        or_false]
      tauto
    · rw [hrange0 hn]
      have : n ≠ v.node z := fun he => hn (he ▸ rfl)
      tauto

theorem Holds.insert (hh : Holds h S T) {z : Addr} {v : VmArea} (hpre : Insertable S z v) :
    ∃ h' T', (TreeOp.insert z v).exec h = some h' ∧ Holds h' ((TreeOp.insert z v).live S) T' := by
  obtain ⟨h', T', he, hh', -⟩ := hh.insert_frame hpre
  exact ⟨h', T', he, hh'⟩

theorem Holds.remove_frame (hh : Holds h S T) {n : Node} (hn : n ∈ S) :
    ∃ h' T', (TreeOp.remove n.start).exec h = some h' ∧
      Holds h' ((TreeOp.remove n.start).live S) T' ∧ n.ref ∉ T'.toList ∧
      (n.addr.toNat % BLOCK_SIZE = 0 → h'.range n.ref = h.range n.ref) ∧
      h'.calls = h.calls ++ [.free n.addr] ∧ ∀ x, x ≠ n.ref → h'.range x = h.range x := by
  have hnT := hh.ref_mem hn
  obtain ⟨h', T', L1, L2, he, hr', hT, hT', -, hcalls, hrange, hfree⟩ :=
    spTreeRemove_spec hh.rep hh.aligned hnT
  have hns : h.start (.vma n.addr) = n.start := (hh.start hn).1
  rw [hns] at he
  have hnd := hh.rep.nodup
  rw [hT] at hnd
  have hnot : n.ref ∉ L1 ++ L2 := (List.nodup_cons.mp (List.perm_middle.nodup_iff.mp hnd)).1
  have hmem {x : Ref} : x ∈ T'.toList ↔ x ≠ n.ref ∧ x ∈ T.toList := by
    rw [hT', hT, List.perm_middle.mem_iff, List.mem_cons]
    refine ⟨fun hx => ⟨fun he => hnot (he ▸ hx), Or.inr hx⟩, fun hx => ?_⟩
    exact hx.2.resolve_left hx.1
  refine ⟨h', T', he, ⟨hr', fun x hx => hh.aligned x (hmem.mp hx).2, fun m => ?_⟩,
    fun hx => (hmem.mp hx).1 rfl, fun hpg => by rwa [if_pos hpg] at hfree, hcalls,
    hrange⟩
  rw [TreeOp.live, Finset.mem_filter, hmem]
  constructor
  · rintro ⟨hm, hne⟩
    have hmn : m.ref ≠ n.ref := fun he => hne (by
      rw [← (hh.start hm).1, he, (hh.start hn).1])
    exact ⟨⟨hmn, hh.ref_mem hm⟩, by rw [hrange _ hmn, ((hh.node_iff m).mp hm).2]⟩
  · rintro ⟨⟨hmn, hmT⟩, hmr⟩
    rw [hrange _ hmn] at hmr
    have hm := (hh.node_iff m).mpr ⟨hmT, hmr⟩
    refine ⟨hm, fun he => hmn ?_⟩
    exact hh.rep.eq_of_start hmT hnT (by rw [(hh.start hm).1, (hh.start hn).1, he])

theorem Holds.remove (hh : Holds h S T) {n : Node} (hn : n ∈ S) :
    ∃ h' T', (TreeOp.remove n.start).exec h = some h' ∧
      Holds h' ((TreeOp.remove n.start).live S) T' ∧ n.ref ∉ T'.toList ∧
      (n.addr.toNat % BLOCK_SIZE = 0 → h'.range n.ref = h.range n.ref) := by
  obtain ⟨h', T', he, hh', hnot, hpage, -⟩ := hh.remove_frame hn
  exact ⟨h', T', he, hh', hnot, hpage⟩

theorem Holds.find (hh : Holds h S T) {k : ℕ} {h' : Heap} {p : Ptr}
    (he : spTreeFindAndLock h k = some (h', p)) : ∃ T', Holds h' S T' := by
  obtain ⟨T', hr', hT', hf⟩ := rep_of_spTreeFindAndLock hh.rep he
  refine ⟨T', hr', fun x hx => hh.aligned x (hT' ▸ hx), fun n => ?_⟩
  rw [hh.node_iff, hT', hf.range]

theorem Holds.find_spec (hh : Holds h S T) {k : ℕ} {n : Node} (hn : n ∈ S) (hk : n.Covers k)
    (hmax : ∀ m ∈ S, m.start ≤ k → m.start ≤ n.start) :
    ∃ h', spTreeFindAndLock h k = some (h', some n.ref) := by
  obtain ⟨hs, he⟩ := hh.start hn
  refine spTreeFindAndLock_spec hh.rep (hh.ref_mem hn) (hs ▸ hk.1) (he ▸ hk.2) fun b hb hbk => ?_
  obtain ⟨m, hm, rfl, hms⟩ := hh.node_of_mem hb
  rw [← hms] at hbk ⊢
  rw [hs]
  exact hmax m hm hbk

/-- Whatever returns keeps the representation, if insertions are legal. -/
theorem Holds.step (hh : Holds h S T) {op : TreeOp} {h' : Heap} (hpre : InsertPre S op)
    (he : op.exec h = some h') : ∃ T', Holds h' (op.live S) T' := by
  cases op with
  | insert z v =>
    obtain ⟨h1, T', he1, hh1⟩ := hh.insert hpre
    obtain rfl := Option.some.inj (he1.symm.trans he)
    exact ⟨T', hh1⟩
  | remove k =>
    obtain ⟨x, hx, hxk⟩ := start_of_spTreeRemove hh.rep he
    obtain ⟨n, hn, -, hns⟩ := hh.node_of_mem hx
    obtain rfl : n.start = k := hns.trans hxk
    obtain ⟨h1, T', he1, hh1, -⟩ := hh.remove hn
    obtain rfl := Option.some.inj (he1.symm.trans he)
    exact ⟨T', hh1⟩
  | find k =>
    obtain ⟨⟨h1, p⟩, he1, rfl⟩ := Option.map_eq_some_iff.mp he
    exact hh.find he1

/-- No assert fails when the precondition holds. -/
theorem Holds.progress (hh : Holds h S T) {op : TreeOp} (hpre : NearestPre S op) :
    ∃ h', op.exec h = some h' := by
  cases op with
  | insert z v =>
    obtain ⟨h', -, he, -⟩ := hh.insert hpre
    exact ⟨h', he⟩
  | remove k =>
    obtain ⟨n, hn, rfl⟩ := hpre
    obtain ⟨h', -, he, -⟩ := hh.remove hn
    exact ⟨h', he⟩
  | find k =>
    obtain ⟨n, hn, hk, hmax⟩ := hpre
    obtain ⟨h', he⟩ := hh.find_spec hn hk hmax
    exact ⟨h', by simp [TreeOp.exec, he]⟩

end

/-! ### Runs -/

theorem holds_init {h : Heap} (hst : h.cell .stack = none) : Holds (spTreeInit h) ∅ nil :=
  ⟨⟨rfl, trivial, by simp, trivial, List.Pairwise.nil, hst⟩, by simp, by simp⟩

theorem Holds.run {h h' : Heap} {S : Finset Node} {T : Tree Ref} {ops : List TreeOp}
    (hh : Holds h S T) (hl : LegalRun InsertPre S ops) (he : execAll h ops = some h') :
    ∃ T', Holds h' (liveAll S ops) T' := by
  induction ops generalizing h S T with
  | nil =>
    obtain rfl : h = h' := by simpa [execAll] using he
    exact ⟨T, hh⟩
  | cons op ops ih =>
    obtain ⟨h1, he1, he2⟩ := Option.bind_eq_some_iff.mp he
    obtain ⟨T1, hh1⟩ := hh.step hl.1 he1
    exact ih hh1 hl.2 he2

theorem insertPre_of_nearestPre {S : Finset Node} {op : TreeOp} (hp : NearestPre S op) :
    InsertPre S op := by
  cases op with
  | insert z v => exact hp
  | remove k => trivial
  | find k => trivial

/-- A run whose operations meet their preconditions returns. -/
theorem Holds.run_progress {h : Heap} {S : Finset Node} {T : Tree Ref} {ops : List TreeOp}
    (hh : Holds h S T) (hl : LegalRun NearestPre S ops) :
    ∃ h' T', execAll h ops = some h' ∧ Holds h' (liveAll S ops) T' := by
  induction ops generalizing h S T with
  | nil => exact ⟨h, T, rfl, hh⟩
  | cons op ops ih =>
    obtain ⟨h1, he1⟩ := hh.progress hl.1
    obtain ⟨T1, hh1⟩ := hh.step (insertPre_of_nearestPre hl.1) he1
    obtain ⟨h2, T2, he2, hh2⟩ := ih hh1 hl.2
    exact ⟨h2, T2, by simp [execAll, he1, he2], hh2⟩

/-! ### Evaluating runs -/

instance (S : Finset Node) (z : Addr) (v : VmArea) : Decidable (Insertable S z v) :=
  inferInstanceAs (Decidable (_ ∧ _))

instance : (S : Finset Node) → (op : TreeOp) → Decidable (InsertPre S op)
  | _, .insert .. => inferInstanceAs (Decidable (Insertable ..))
  | _, .remove _ => inferInstanceAs (Decidable True)
  | _, .find _ => inferInstanceAs (Decidable True)

instance : (S : Finset Node) → (op : TreeOp) → Decidable (CoveredPre S op)
  | _, .insert .. => inferInstanceAs (Decidable (Insertable ..))
  | _, .remove _ => inferInstanceAs (Decidable (∃ n ∈ _, _))
  | _, .find _ => inferInstanceAs (Decidable (∃ n ∈ _, _))

instance : (S : Finset Node) → (op : TreeOp) → Decidable (NearestPre S op)
  | _, .insert .. => inferInstanceAs (Decidable (Insertable ..))
  | _, .remove _ => inferInstanceAs (Decidable (∃ n ∈ _, _))
  | _, .find _ => inferInstanceAs (Decidable (∃ n ∈ _, _ ∧ _))

instance LegalRun.decidable (pre : Finset Node → TreeOp → Prop) [∀ S op, Decidable (pre S op)] :
    (S : Finset Node) → (ops : List TreeOp) → Decidable (LegalRun pre S ops)
  | _, [] => inferInstanceAs (Decidable True)
  | S, op :: ops =>
    have := LegalRun.decidable pre (op.live S) ops
    inferInstanceAs (Decidable (_ ∧ _))

def Heap.empty : Heap := ⟨fun _ => none, none, [], []⟩

def VmArea.ofRange (s e : ℕ) : VmArea := ⟨none, none, none, none, none, 0, s, e⟩

/-! ### The tree over whole runs -/

/-- After every run from `sp_tree_init` whose operations meet their
preconditions, the representation invariant holds, and no assert has failed. -/
theorem tree_runs_keep_repInv {h : Heap} {ops : List TreeOp} (hst : h.cell .stack = none)
    (hl : LegalRun NearestPre ∅ ops) :
    ∃ h' T, execAll (spTreeInit h) ops = some h' ∧ RepInv h' (liveAll ∅ ops) T := by
  obtain ⟨h', T, he, hh⟩ := (holds_init hst).run_progress hl
  exact ⟨h', T, he, hh.repInv⟩

theorem tree_runs_keep_repInv_four :
    ∃ h' T, execAll (spTreeInit .empty) [.insert 16 (.ofRange 0 10), .insert 32 (.ofRange 10 20),
      .find 15, .remove 0] = some h' ∧ RepInv h' (liveAll ∅ [.insert 16 (.ofRange 0 10),
        .insert 32 (.ofRange 10 20), .find 15, .remove 0]) T :=
  tree_runs_keep_repInv rfl (by decide)

/-- A lookup inside a range can still fail its assert: a later range that starts
inside the first one hides the rest of it. -/
theorem covered_lookup_can_fail :
    ¬ ∀ (h : Heap) (ops : List TreeOp), h.cell .stack = none → LegalRun CoveredPre ∅ ops →
      ∃ h' T, execAll (spTreeInit h) ops = some h' ∧ RepInv h' (liveAll ∅ ops) T := by
  intro hall
  obtain ⟨h', T, he, -⟩ := hall .empty [.insert 16 (.ofRange 0 10), .insert 32 (.ofRange 5 6),
    .find 7] rfl (by decide)
  have hnone : (execAll (spTreeInit .empty) [.insert 16 (.ofRange 0 10), .insert 32 (.ofRange 5 6),
    .find 7]).isNone := by decide
  rw [he] at hnone
  simp at hnone

/-! ### Lookup in disjoint ranges -/

def DisjointRanges (S : Finset Node) : Prop :=
  ∀ a ∈ S, ∀ b ∈ S, a ≠ b → ∀ k, ¬ (a.Covers k ∧ b.Covers k)

def EmptyOutside (S : Finset Node) : Prop :=
  ∀ a ∈ S, ∀ b ∈ S, b.stop ≤ b.start → ¬ a.Covers b.start

/-- Among disjoint ranges the covering one is the last that does not start above. -/
theorem nearest_of_disjoint {S : Finset Node} (hd : DisjointRanges S) (he : EmptyOutside S)
    {n m : Node}
    {k : ℕ} (hn : n ∈ S) (hm : m ∈ S) (hk : n.Covers k) (hmk : m.start ≤ k) :
    m.start ≤ n.start := by
  by_contra hlt
  have hin : n.Covers m.start := ⟨by omega, lt_of_le_of_lt hmk hk.2⟩
  by_cases hem : m.stop ≤ m.start
  · exact he n hn m hm hem hin
  · refine hd n hn m hm (fun heq => ?_) m.start ⟨hin, le_refl _, by omega⟩
    subst heq
    omega

/-- In every tree that a run builds, if the live ranges are disjoint and no empty
one starts inside another, `sp_tree_find_and_lock` returns the node that covers the
address, and the live nodes stay as they are. -/
theorem find_returns_covering_node {h h' : Heap} {ops : List TreeOp} (hst : h.cell .stack = none)
    (hl : LegalRun InsertPre ∅ ops) (he : execAll (spTreeInit h) ops = some h')
    (hd : DisjointRanges (liveAll ∅ ops)) (hem : EmptyOutside (liveAll ∅ ops)) {n : Node} {k : ℕ}
    (hn : n ∈ liveAll ∅ ops) (hk : n.Covers k) :
    ∃ h'' T, spTreeFindAndLock h' k = some (h'', some n.ref) ∧ RepInv h'' (liveAll ∅ ops) T := by
  obtain ⟨T, hh⟩ := (holds_init hst).run hl he
  obtain ⟨h'', hf⟩ := hh.find_spec hn hk fun m hm hmk => nearest_of_disjoint hd hem hn hm hk hmk
  obtain ⟨T'', hh''⟩ := hh.find hf
  exact ⟨h'', T'', hf, hh''.repInv⟩

theorem find_returns_covering_node_two :
    ∃ h' h'' T, execAll (spTreeInit .empty) [.insert 16 (.ofRange 0 10),
      .insert 32 (.ofRange 10 20)] = some h' ∧
      spTreeFindAndLock h' 3 = some (h'', some (Node.ref ⟨16, 0, 0, 10⟩)) ∧
      RepInv h'' (liveAll ∅ [.insert 16 (.ofRange 0 10), .insert 32 (.ofRange 10 20)]) T := by
  have hpre : LegalRun NearestPre ∅ [.insert 16 (.ofRange 0 10), .insert 32 (.ofRange 10 20)] := by
    decide
  obtain ⟨h', -, he, -⟩ := (holds_init (h := .empty) rfl).run_progress hpre
  have hlive : liveAll ∅ [.insert 16 (.ofRange 0 10), .insert 32 (.ofRange 10 20)] =
    {⟨32, 0, 10, 20⟩, ⟨16, 0, 0, 10⟩} := by decide
  obtain ⟨h'', T, hf, hr⟩ := find_returns_covering_node (n := ⟨16, 0, 0, 10⟩) (k := 3) rfl
    (by decide) he
    (by
      rw [hlive]
      intro a ha b hb hne k hk
      simp only [Finset.mem_insert, Finset.mem_singleton] at ha hb
      obtain ⟨⟨ha1, ha2⟩, hb1, hb2⟩ := hk
      rcases ha with rfl | rfl <;> rcases hb with rfl | rfl <;> simp_all <;> omega)
    (by unfold EmptyOutside; decide) (by decide) (by decide)
  exact ⟨h', h'', T, he, hf, hr⟩

/-- With an empty range inside another one, the lookup of an address behind the
empty range fails its assert, though no address is in two ranges. -/
theorem find_can_fail_at_empty_range :
    ¬ ∀ (h h' : Heap) (ops : List TreeOp), h.cell .stack = none → LegalRun InsertPre ∅ ops →
      execAll (spTreeInit h) ops = some h' → DisjointRanges (liveAll ∅ ops) →
      ∀ n ∈ liveAll ∅ ops, ∀ k, n.Covers k →
        ∃ h'' T, spTreeFindAndLock h' k = some (h'', some n.ref) ∧
          RepInv h'' (liveAll ∅ ops) T := by
  intro hall
  have hpre : LegalRun NearestPre ∅ [.insert 16 (.ofRange 0 10), .insert 32 (.ofRange 5 5)] := by
    decide
  obtain ⟨h', -, he, -⟩ := (holds_init (h := .empty) rfl).run_progress hpre
  have hlive : liveAll ∅ [.insert 16 (.ofRange 0 10), .insert 32 (.ofRange 5 5)] =
    {⟨32, 0, 5, 5⟩, ⟨16, 0, 0, 10⟩} := by decide
  obtain ⟨h'', T, hf, -⟩ := hall .empty h' _ rfl (by decide) he
    (by
      rw [hlive]
      intro a ha b hb hne k hk
      simp only [Finset.mem_insert, Finset.mem_singleton] at ha hb
      obtain ⟨⟨ha1, ha2⟩, hb1, hb2⟩ := hk
      rcases ha with rfl | rfl <;> rcases hb with rfl | rfl <;> simp_all <;> omega)
    ⟨16, 0, 0, 10⟩ (by decide) 7 (by decide)
  have hnone : ((execAll (spTreeInit .empty) [.insert 16 (.ofRange 0 10),
    .insert 32 (.ofRange 5 5)]).bind fun h => spTreeFindAndLock h 7).isNone := by decide
  rw [he, Option.bind_some, hf] at hnone
  simp at hnone

end OpenOOC
