import OpenOOC.SpTree.Pages

/-! The tree of the live nodes apart from `sp->root`, which
`sp_tree_find_mod_and_lock` leaves behind while it works: one lemma for each thing
that it does to the tree, stated for the set of live nodes. -/

namespace OpenOOC

open Links SplayTree SplayTree.Tree

variable {h h' : Heap} {S : Finset Node} {T l r : Tree Ref} {n m p q z : Node} {a : Addr} {k : ℕ}

/-- The live nodes are linked as `T`, whatever `sp->root` points to. -/
structure Linked (h : Heap) (S : Finset Node) (T : Tree Ref) : Prop where
  shape : Shape h T
  root_par : ∀ a, T.root? = some a → h.par a = none
  list : Seg h.next h.prev none T.toList none
  sorted : T.toList.Pairwise fun a b => h.start a < h.start b
  stack : h.cell .stack = none
  aligned : ∀ x ∈ T.toList, x.Aligned
  node_iff : ∀ n : Node, n ∈ S ↔ n.ref ∈ T.toList ∧ h.range n.ref = some (n.flags, n.start, n.stop)

theorem Holds.linked (hh : Holds h S T) : Linked h S T :=
  ⟨hh.rep.shape, hh.rep.root_par, hh.rep.list, hh.rep.sorted, hh.rep.stack, hh.aligned, hh.node_iff⟩

namespace Linked

theorem holds (hl : Linked h S T) {p : Ptr} (hp : p = T.root?) : Holds { h with root := p } S T :=
  ⟨rep_setRoot hp hl.shape hl.root_par hl.list hl.sorted hl.stack, hl.aligned, hl.node_iff⟩

theorem holds_of_root (hl : Linked h S T) (hp : h.root = T.root?) : Holds h S T := hl.holds hp

theorem ref_mem (hl : Linked h S T) (hn : n ∈ S) : n.ref ∈ T.toList := ((hl.node_iff n).mp hn).1

theorem views (hl : Linked h S T) (hn : n ∈ S) :
    h.flags n.ref = n.flags ∧ h.start n.ref = n.start ∧ h.stop n.ref = n.stop :=
  views_of_range ((hl.node_iff n).mp hn).2

theorem ok (hl : Linked h S T) (hn : n ∈ S) : h.Ok n.ref := hl.shape.ok_mem (hl.ref_mem hn)

theorem nodup (hl : Linked h S T) : T.toList.Nodup :=
  hl.sorted.imp fun {a b} hab he => by subst he; omega

theorem stack_notMem (hl : Linked h S T) : .stack ∉ T.toList := hl.shape.stack_notMem hl.stack

theorem node_of_mem (hl : Linked h S T) {x : Ref} (hx : x ∈ T.toList) : ∃ n ∈ S, n.ref = x := by
  obtain ⟨n, hn, he, -⟩ := (hl.holds rfl).node_of_mem hx
  exact ⟨n, hn, he⟩

theorem eq_of_ref (hl : Linked h S T) (hn : n ∈ S) (hm : m ∈ S) (he : n.ref = m.ref) : n = m := by
  have h1 := ((hl.node_iff n).mp hn).2
  have h2 := ((hl.node_iff m).mp hm).2
  rw [he, h2] at h1
  obtain ⟨a, f, s, e⟩ := n
  obtain ⟨a', f', s', e'⟩ := m
  obtain rfl : a = a' := ref_inj he
  simp only [Option.some.injEq, Prod.mk.injEq] at h1
  obtain ⟨rfl, rfl, rfl⟩ := h1
  rfl

theorem eq_of_start (hl : Linked h S T) (hn : n ∈ S) (hm : m ∈ S) (he : n.start = m.start) :
    n = m := by
  refine hl.eq_of_ref hn hm ((hl.holds rfl).rep.eq_of_start (hl.ref_mem hn) (hl.ref_mem hm) ?_)
  exact (hl.views hn).2.1.trans (he.trans (hl.views hm).2.1.symm)

theorem cell (hl : Linked h S T) (hn : n ∈ S) :
    ∃ v, h.cell n.ref = some v ∧ v.vmPrev = h.prev n.ref ∧
    v.vmNext = h.next n.ref ∧ v.vmFlags = n.flags ∧ v.vmStart = n.start ∧ v.vmEnd = n.stop := by
  obtain ⟨v, hv, -, -, hvn, hvp, hvs, hve, hvf⟩ := h.cell_eq (hl.ok hn)
  obtain ⟨hf, hs, he⟩ := hl.views hn
  exact ⟨v, hv, hvp, hvn, hvf.trans hf, hvs.trans hs, hve.trans he⟩

/-- A tree that is linked in another order of the same structs. -/
theorem of_linksOnly {T' : Tree Ref} (hl : Linked h S T) (hf : LinksOnly h h') (hs : Shape h' T')
    (hp : ∀ a, T'.root? = some a → h'.par a = none)
    (hlist : Seg h'.next h'.prev none T'.toList none)
    (hT : T'.toList = T.toList) : Linked h' S T' := by
  refine ⟨hs, hp, hlist, ?_, hf.stack hl.stack, by rw [hT]; exact hl.aligned, fun n => ?_⟩
  · rw [hT]
    exact hf.sorted hl.sorted
  · rw [hl.node_iff, hT, hf.range]

theorem of_cell (hl : Linked h S T) (hst : h'.cell .stack = none)
    (hc : ∀ x ∈ T.toList, h'.cell x = h.cell x) :
    Linked h' S T := by
  have hr : Rep { h' with root := T.root? } T := (hl.holds rfl).rep.of_cell rfl hst hc
  refine ⟨hr.shape.of_cell fun _ _ => rfl, hr.root_par, hr.list, hr.sorted, hst, hl.aligned,
    fun n => ?_⟩
  rw [hl.node_iff]
  refine and_congr_right fun hn => ?_
  unfold Heap.range
  rw [hc _ hn]

/-! ### Neighbours -/

theorem split_sorted (hl : Linked h S T) {L1 L2 : List Ref} (hT : T.toList = L1 ++ n.ref :: L2)
    (hn : n ∈ S)
    (hm : m ∈ S) : (m.ref ∈ L1 ∧ m.start < n.start) ∨ m = n ∨ (m.ref ∈ L2 ∧ n.start < m.start) := by
  have hsort := hl.sorted
  have hmT := hl.ref_mem hm
  rw [hT] at hsort hmT
  obtain ⟨-, h2, h3⟩ := List.pairwise_append.mp hsort
  simp only [List.mem_append, List.mem_cons] at hmT
  rw [← (hl.views hn).2.1, ← (hl.views hm).2.1]
  rcases hmT with hx | hx | hx
  · exact Or.inl ⟨hx, h3 _ hx _ (by simp)⟩
  · exact Or.inr (Or.inl (hl.eq_of_ref hm hn hx))
  · exact Or.inr (Or.inr ⟨hx, (List.pairwise_cons.mp h2).1 _ hx⟩)

theorem start_lt (hl : Linked h S T) {L1 L2 : List Ref} (hT : T.toList = L1 ++ L2) (hm : m ∈ S)
    (hn : n ∈ S)
    (h1 : m.ref ∈ L1) (h2 : n.ref ∈ L2) : m.start < n.start := by
  have hsort := hl.sorted
  rw [hT] at hsort
  have := (List.pairwise_append.mp hsort).2.2 _ h1 _ h2
  rwa [(hl.views hm).2.1, (hl.views hn).2.1] at this

theorem isPrev_unique (hl : Linked h S T) (hp : IsPrev S n p) (hq : IsPrev S n q) : p = q :=
  hl.eq_of_start hp.1 hq.1 (le_antisymm (hq.2.2 p hp.1 hp.2.1) (hp.2.2 q hq.1 hq.2.1))

theorem isNext_unique (hl : Linked h S T) (hp : IsNext S n p) (hq : IsNext S n q) : p = q :=
  hl.eq_of_start hp.1 hq.1 (le_antisymm (hp.2.2 q hq.1 hq.2.1) (hq.2.2 p hp.1 hp.2.1))

theorem prev_cases (hl : Linked h S T) (hn : n ∈ S) :
    (h.prev n.ref = none ∧ ∀ m ∈ S, n.start ≤ m.start) ∨ ∃ p, IsPrev S n p ∧
      h.prev n.ref = some p.ref := by
  obtain ⟨L1, L2, hT⟩ := List.append_of_mem (hl.ref_mem hn)
  have hlist := hl.list
  rw [hT] at hlist
  have hprev : h.prev n.ref = L1.getLast? := by rw [hlist.prev_of_mem, Option.or_none]
  rcases List.eq_nil_or_concat' L1 with rfl | ⟨L, x, rfl⟩
  · refine Or.inl ⟨hprev, fun m hm => ?_⟩
    rcases hl.split_sorted hT hn hm with ⟨hx, -⟩ | rfl | ⟨-, hx⟩
    · simp at hx
    · exact le_refl _
    · omega
  · obtain ⟨p, hp, rfl⟩ := hl.node_of_mem (x := x) (by simp [hT])
    refine Or.inr ⟨p, ⟨hp, hl.start_lt hT hp hn (by simp) (by simp), fun m hm hlt => ?_⟩,
      by simp [hprev]⟩
    rcases hl.split_sorted hT hn hm with ⟨hx, -⟩ | rfl | ⟨-, hx⟩
    · rcases List.mem_append.mp hx with hx | hx
      · exact (hl.start_lt (by rw [hT, List.append_assoc]) hm hp hx (by simp)).le
      · rw [hl.eq_of_ref hm hp (List.mem_singleton.mp hx)]
    · omega
    · omega

theorem next_cases (hl : Linked h S T) (hn : n ∈ S) :
    (h.next n.ref = none ∧ ∀ m ∈ S, m.start ≤ n.start) ∨ ∃ q, IsNext S n q ∧
      h.next n.ref = some q.ref := by
  obtain ⟨L1, L2, hT⟩ := List.append_of_mem (hl.ref_mem hn)
  have hlist := hl.list
  rw [hT] at hlist
  have hnext : h.next n.ref = L2.head? := by rw [hlist.next_of_mem, Option.or_none]
  have hT' : T.toList = (L1 ++ [n.ref]) ++ L2 := by simp [hT]
  cases L2 with
  | nil =>
    refine Or.inl ⟨hnext, fun m hm => ?_⟩
    rcases hl.split_sorted hT hn hm with ⟨-, hx⟩ | rfl | ⟨hx, -⟩
    · omega
    · exact le_refl _
    · simp at hx
  | cons x L =>
    obtain ⟨q, hq, rfl⟩ := hl.node_of_mem (x := x) (by simp [hT])
    refine Or.inr ⟨q, ⟨hq, hl.start_lt hT' hn hq (by simp) (by simp), fun m hm hlt => ?_⟩, hnext⟩
    rcases hl.split_sorted hT hn hm with ⟨-, hx⟩ | rfl | ⟨hx, -⟩
    · omega
    · omega
    · rcases List.mem_cons.mp hx with hx | hx
      · rw [hl.eq_of_ref hm hq hx]
      · exact (hl.start_lt (show T.toList = (L1 ++ [n.ref, q.ref]) ++ _ by simp [hT]) hq hm
          (by simp) hx).le

/-! ### Splaying, new structs and range ends -/

theorem splay (hl : Linked h S T) (k : ℕ) (hT : T ≠ nil) :
    ∃ h1 l t r, t ∈ S ∧ sSpTreeSplay h k T.root? = some (h1, some t.ref) ∧
      Linked h1 S (node l t.ref r) ∧
      LinksOnly h h1 ∧ h1.root = h.root ∧ l.toList ++ t.ref :: r.toList = T.toList ∧
      splay (heapCmp h k) T = node l t.ref r ∧ (∀ b ∈ S, b.start < t.start → b.start < k) ∧
      ∀ b ∈ S, t.start < b.start → k < b.start := by
  obtain ⟨h1, l, x, r, hsp, he, hs, hp, -, hf, hlist, hlk, hrk⟩ :=
    sSpTreeSplay_spec k hl.shape hl.sorted hl.stack hT
  obtain ⟨t, ht, rfl⟩ := hl.node_of_mem (x := x) (by rw [← hlist]; simp)
  refine ⟨h1, l, t, r, ht, he, ?_, hf.linksOnly,
    by rw [hf.same], hlist, hsp, fun b hb hbt => ?_, fun b hb hbt => ?_⟩
  · refine hl.of_linksOnly hf.linksOnly hs (fun a ha => ?_) ?_ hlist
    · obtain rfl : t.ref = a := by simpa using ha
      exact hp
    · rw [toList_node, hlist]
      exact hf.seg hl.list
  · rcases hl.split_sorted hlist.symm ht hb with ⟨hx, -⟩ | rfl | ⟨-, hx⟩
    · rw [← (hl.views hb).2.1]
      exact hlk _ hx
    · omega
    · omega
  · rcases hl.split_sorted hlist.symm ht hb with ⟨-, hx⟩ | rfl | ⟨hx, -⟩
    · omega
    · omega
    · rw [← (hl.views hb).2.1]
      exact hrk _ hx

end Linked

/-- Memory after `vma_alloc` has handed out the next struct, which then got its contents. -/
def Heap.withNode (h : Heap) (a : Addr) (v : VmArea) : Heap :=
  { h with
    cell := Function.update h.cell (.vma a) (some v)
    supply := h.supply.tail
    calls := h.calls ++ [.alloc (some a)] }

theorem cell_withNode {v : VmArea} (x : Ref) :
    (h.withNode a v).cell x = if x = .vma a then some v else h.cell x := by
  by_cases hx : x = .vma a
  · subst hx; simp [Heap.withNode]
  · simp [Heap.withNode, hx]

theorem newNode_eq {v : VmArea} {rest : List (Option (Addr × VmArea))}
    (hs : h.supply = some (a, v) :: rest)
    (s e : ℕ) (f : Option (BitVec 64)) : newNode h s e f =
      some (h.withNode a ⟨none, none, none, none, none, f.getD v.vmFlags, s, e⟩,
        some (.vma a)) := by
  cases f <;>
    simp [newNode, vmaAlloc, hs, Heap.upd, Heap.put, sSpNodeInit, Heap.withNode]

/-- Without a struct from `vma_alloc` the first write goes through NULL. -/
theorem newNode_none (hs : ∀ a v rest, h.supply ≠ some (a, v) :: rest) (s e : ℕ)
    (f : Option (BitVec 64)) :
    newNode h s e f = none := by
  unfold newNode vmaAlloc
  cases hsup : h.supply with
  | nil => rfl
  | cons r rest =>
    cases r with
    | none => rfl
    | some r => exact absurd hsup (hs r.1 r.2 rest)

namespace Linked

theorem withNode (hl : Linked h S T) {v : VmArea} (ha : .vma a ∉ T.toList) :
    Linked (h.withNode a v) S T := by
  refine hl.of_cell ?_ fun x hx => ?_
  · rw [cell_withNode, if_neg (by simp), hl.stack]
  · have hne : x ≠ .vma a := fun he => ha (he ▸ hx)
    rw [cell_withNode, if_neg hne]

end Linked

theorem bind_modify {β : Type} {f : VmArea → VmArea} {g : VmArea → Option β}
    (hg : ∀ v, g (f v) = g v) (r x : Ref) :
    ((h.modify r f).cell x).bind g = (h.cell x).bind g := by
  rw [Heap.cell_modify]
  split_ifs
  · cases h.cell x <;> simp [hg]
  · rfl

/-- A write to a struct that keeps its links. -/
structure KeepsLinks (f : VmArea → VmArea) : Prop where
  next : ∀ v, (f v).vmNext = v.vmNext
  prev : ∀ v, (f v).vmPrev = v.vmPrev
  par : ∀ v, (f v).spP = v.spP
  child : ∀ w v, (f v).child w = v.child w

theorem Node.ext_ref {n m : Node} (hr : n.ref = m.ref)
    (he : (n.flags, n.start, n.stop) = (m.flags, m.start, m.stop)) : n = m := by
  obtain ⟨a, f, s, e⟩ := n
  obtain ⟨a', f', s', e'⟩ := m
  obtain rfl : a = a' := ref_inj hr
  simp only [Prod.mk.injEq] at he
  obtain ⟨rfl, rfl, rfl⟩ := he
  rfl

namespace Linked

/-- A struct of the tree gets another range, at the same place in the order. -/
theorem modify (hl : Linked h S T) (hn : n ∈ S) {f : VmArea → VmArea} (hm : m.addr = n.addr)
    (hk : KeepsLinks f)
    (hf : ∀ v, v.vmFlags = n.flags → v.vmStart = n.start → v.vmEnd = n.stop →
      ((f v).vmFlags, (f v).vmStart, (f v).vmEnd) = (m.flags, m.start, m.stop))
    (hlo : ∀ b ∈ S, b.start < n.start → b.start < m.start)
    (hhi : ∀ b ∈ S, n.start < b.start → m.start < b.start) :
    ∃ h', h.upd (some n.ref) f = some h' ∧ Linked h' (S \ {n} ∪ {m}) T ∧ h'.root = h.root ∧
      h'.supply = h.supply ∧ h'.calls = h.calls ∧ ∀ x, x ≠ n.ref → h'.cell x = h.cell x := by
  obtain ⟨v, hv, -, -, hvf, hvs, hve⟩ := hl.cell hn
  have href : m.ref = n.ref := congrArg Ref.vma hm
  have hrn : (h.modify n.ref f).range n.ref = some (m.flags, m.start, m.stop) := by
    rw [Heap.range, Heap.cell_modify, if_pos rfl, hv, Option.map_some, Option.map_some,
      hf v hvf hvs hve]
  have hrange {x : Ref} (hx : x ≠ n.ref) : (h.modify n.ref f).range x = h.range x := by
    rw [Heap.range, Heap.cell_modify, if_neg hx, Heap.range]
  have hmem (b : Node) : b ∈ S \ {n} ∪ {m} ↔
      b.ref ∈ T.toList ∧ (h.modify n.ref f).range b.ref = some (b.flags, b.start, b.stop) := by
    rw [Finset.mem_union, Finset.mem_sdiff, Finset.mem_singleton, Finset.mem_singleton]
    by_cases hbn : b.ref = n.ref
    · rw [hbn, hrn]
      constructor
      · rintro (⟨hb, hne⟩ | rfl)
        · exact absurd (hl.eq_of_ref hb hn hbn) hne
        · exact ⟨hl.ref_mem hn, rfl⟩
      · rintro ⟨-, he⟩
        exact Or.inr (Node.ext_ref (hbn.trans href.symm) (Option.some.inj he).symm)
    · rw [hrange hbn, ← hl.node_iff]
      constructor
      · rintro (⟨hb, -⟩ | rfl)
        · exact hb
        · exact absurd href hbn
      · exact fun hb => Or.inl ⟨hb, fun he => hbn (he ▸ rfl)⟩
  have hstart {b : Node} (hb : b ∈ S) : (h.modify n.ref f).start b.ref = if b = n then m.start
      else b.start := by
    split_ifs with hbn
    · subst hbn
      exact (views_of_range hrn).2.1
    · rw [(range_views (hrange fun he => hbn (hl.eq_of_ref hb hn he))).2.1, (hl.views hb).2.1]
  refine ⟨h.modify n.ref f, h.upd_eq (hl.ok hn) f,
    ⟨?_, fun a ha => ?_, ?_, ?_, ?_, hl.aligned, hmem⟩, rfl, rfl, rfl,
    fun x hx => by rw [Heap.cell_modify, if_neg hx]⟩
  · exact hl.shape.congr (fun x _ hx => (h.ok_modify _ _ _).mpr hx)
      (fun x _ w => bind_modify (hk.child w) _ x)
      fun x _ => bind_modify hk.par _ x
  · exact (bind_modify hk.par _ a).trans (hl.root_par a ha)
  · exact hl.list.congr (fun x _ => bind_modify hk.next _ x) fun x _ => bind_modify hk.prev _ x
  · refine hl.sorted.imp_of_mem fun {x y} hx hy hxy => ?_
    obtain ⟨b1, hb1, rfl⟩ := hl.node_of_mem hx
    obtain ⟨b2, hb2, rfl⟩ := hl.node_of_mem hy
    rw [(hl.views hb1).2.1, (hl.views hb2).2.1] at hxy
    rw [hstart hb1, hstart hb2]
    split_ifs with h1 h2 h2
    · subst h1 h2
      omega
    · subst h1
      exact hhi b2 hb2 hxy
    · subst h2
      exact hlo b1 hb1 hxy
    · exact hxy
  · have hne : Ref.stack ≠ n.ref := fun he => hl.stack_notMem (he ▸ hl.ref_mem hn)
    rw [Heap.cell_modify, if_neg hne, hl.stack]

theorem setStart (hl : Linked h S T) (hn : n ∈ S) (s : ℕ)
    (hlo : ∀ b ∈ S, b.start < n.start → b.start < s)
    (hhi : ∀ b ∈ S, n.start < b.start → s < b.start) :
    ∃ h', (h.upd (some n.ref) fun v => { v with vmStart := s }) = some h' ∧
      Linked h' (S \ {n} ∪ {{ n with start := s }}) T ∧ h'.root = h.root ∧ h'.supply = h.supply ∧
      h'.calls = h.calls ∧ ∀ x, x ≠ n.ref → h'.cell x = h.cell x :=
  hl.modify hn (m := { n with start := s }) rfl
    ⟨fun _ => rfl, fun _ => rfl, fun _ => rfl, fun w _ => by cases w <;> rfl⟩
    (fun _ hf _ he => by rw [hf, he]) hlo hhi

theorem setStop (hl : Linked h S T) (hn : n ∈ S) (e : ℕ) :
    ∃ h', (h.upd (some n.ref) fun v => { v with vmEnd := e }) = some h' ∧
      Linked h' (S \ {n} ∪ {{ n with stop := e }}) T ∧ h'.root = h.root ∧ h'.supply = h.supply ∧
      h'.calls = h.calls ∧ ∀ x, x ≠ n.ref → h'.cell x = h.cell x :=
  hl.modify hn (m := { n with stop := e }) rfl
    ⟨fun _ => rfl, fun _ => rfl, fun _ => rfl, fun w _ => by cases w <;> rfl⟩
    (fun _ hf hs _ => by rw [hf, hs]) (fun _ _ h => h) fun _ _ h => h

/-! ### Insertion and removal -/

end Linked

theorem root_of_insertHelper {t z : Ptr} (he : sSpTreeInsertHelper h t z = some h') :
    h'.root = z := by
  unfold sSpTreeInsertHelper at he
  simp only [Option.bind_eq_bind, Option.pure_def] at he
  split_ifs at he
  · cases he
    rfl
  · simp only [Option.bind_eq_some_iff] at he
    obtain ⟨_, _, _, _, he⟩ := he
    split_ifs at he <;> simp only [Option.bind_eq_some_iff, Option.some.injEq] at he
    · obtain ⟨_, _, _, _, _, _, _, _, _, _, rfl⟩ := he
      rfl
    · obtain ⟨_, _, _, _, _, _, _, _, _, _, _, _, rfl⟩ := he
      rfl

theorem node_of_root? {x : Ref} (hT : T.root? = some x) : ∃ l r, T = node l x r := by
  cases T with
  | nil => cases hT
  | node l a r =>
    obtain rfl : a = x := by simpa using hT
    exact ⟨l, r, rfl⟩

namespace Linked

/-- `S_sp_tree_insert_helper` puts `z` next to the root. -/
theorem insert (hl : Linked h S (node l n.ref r)) (hn : n ∈ S) (hroot : h.root ≠ none)
    (hz : h.range z.ref = some (z.flags, z.start, z.stop)) (hzp : h.par z.ref = none)
    (hal : z.ref.Aligned)
    (hzT : z.ref ∉ (node l n.ref r).toList) (hne : n.start ≠ z.start)
    (hlo : ∀ b ∈ S, b.start < n.start → b.start < z.start)
    (hhi : ∀ b ∈ S, n.start < b.start → z.start < b.start) :
    ∃ h' l' r', sSpTreeInsertHelper h (some n.ref) (some z.ref) = some h' ∧
      Holds h' (Insert.insert z S) (node l' z.ref r') ∧ LinksOnly h h' ∧
      (∀ x, x ≠ .stack → x ∉ z.ref :: (node l n.ref r).toList → h'.par x = h.par x) ∧
      Rooted l n.ref r z.ref (node l' z.ref r') := by
  have hzv := views_of_range hz
  have hmemT {b : Ref} (hb : b ∈ (node l n.ref r).toList) : ∃ m ∈ S, m.ref = b := hl.node_of_mem hb
  have hlt {m : Node} (hm : m ∈ S) (hx : m.ref ∈ l.toList) : m.start < n.start :=
    hl.start_lt (toList_node l r n.ref) hm hn hx (by simp)
  have hgt {m : Node} (hm : m ∈ S) (hx : m.ref ∈ r.toList) : n.start < m.start :=
    hl.start_lt (show _ = (l.toList ++ [n.ref]) ++ r.toList by simp) hn hm (by simp) hx
  have hzok : h.Ok z.ref := by
    unfold Heap.range at hz
    unfold Heap.Ok
    cases hc : h.cell z.ref <;> simp [hc] at hz ⊢
  obtain ⟨h', T', L1, L2, he, hr, hL, hL', hf, hout, hT'⟩ :=
    insertHelper_spec (z := z.ref) hl.shape hl.list hl.sorted hl.stack hroot hzok hzp hzT
    (fun b hb => by
      obtain ⟨m, hm, rfl⟩ := hmemT (b := b) (by simp [hb])
      rw [(hl.views hm).2.1, hzv.2.1]
      exact hlo m hm (hlt hm hb))
    (fun b hb => by
      obtain ⟨m, hm, rfl⟩ := hmemT (b := b) (by simp [hb])
      rw [(hl.views hm).2.1, hzv.2.1]
      exact hhi m hm (hgt hm hb))
    (by rw [(hl.views hn).2.1, hzv.2.1]; exact hne)
  obtain ⟨l', r', rfl⟩ := node_of_root? (hr.root.symm.trans (root_of_insertHelper he))
  have hmem {x : Ref} : x ∈ (node l' z.ref r').toList ↔
      x = z.ref ∨ x ∈ (node l n.ref r).toList := by
    rw [hL', hL]
    simp only [List.mem_append, List.mem_cons]
    tauto
  refine ⟨h', l', r', he, ⟨hr, fun x hx => ?_, fun m => ?_⟩, hf, hout, hT'⟩
  · rcases hmem.mp hx with rfl | hx
    · exact hal
    · exact hl.aligned x hx
  · rw [Finset.mem_insert, hmem, hf.range, hl.node_iff]
    constructor
    · rintro (rfl | ⟨hm, hmr⟩)
      · exact ⟨Or.inl rfl, hz⟩
      · exact ⟨Or.inr hm, hmr⟩
    · rintro ⟨hm | hm, hmr⟩
      · exact Or.inl (Node.ext_ref hm (Option.some.inj (hmr.symm.trans (hm ▸ hz))))
      · exact Or.inr ⟨hm, hmr⟩

/-- `S_sp_tree_remove_helper` and `S_sp_node_free` on the root: the node before it
becomes the root. -/
theorem drop (hl : Linked h S (node l n.ref r)) (hn : n ∈ S) :
    ∃ h1 h2 T', sSpTreeRemoveHelper h (some n.ref) = some h1 ∧
      sSpNodeFree h1 (some n.ref) = some h2 ∧
      Holds h2 (S.erase n) T' ∧ h2.supply = h.supply ∧ h2.calls = h.calls ++ [.free n.addr] ∧
      (∀ p, IsPrev S n p → T'.root? = some p.ref) ∧ Joined l r T' := by
  obtain ⟨h1, T', he1, hr, hT', hf, hp, hc, hjoin⟩ :=
    removeHelper_spec hl.shape (hl.root_par _ rfl) hl.list hl.sorted
    hl.stack
  have hns := hl.stack_notMem
  obtain ⟨h2, he2, hroot, hsup, hcalls, hout, -⟩ :=
    vmaFree_spec (a := n.addr) ((hf.ok _).mpr (hl.ok hn)) hp hc
    fun x hx => by
      have hxT : x ∈ (node l n.ref r).toList := by simp [root?_mem hx]
      exact ⟨fun he => hns (he ▸ hxT), hl.aligned x hxT⟩
  have hnd := hl.nodup
  rw [toList_node] at hnd
  have hnotin : n.ref ∉ T'.toList := by
    rw [hT']
    exact (List.nodup_cons.mp (List.perm_middle.nodup_iff.mp hnd)).1
  have hmem {x : Ref} : x ∈ T'.toList ↔ x ≠ n.ref ∧ x ∈ (node l n.ref r).toList := by
    rw [toList_node, List.perm_middle.mem_iff, List.mem_cons, ← hT']
    refine ⟨fun hx => ⟨fun he => hnotin (he ▸ hx), Or.inr hx⟩, fun hx => hx.2.resolve_left hx.1⟩
  refine ⟨h1, h2, T', he1, he2,
    ⟨hr.of_cell hroot ?_ fun x hx => hout x fun (he : x = n.ref) => hnotin (he ▸ hx),
    fun x hx => hl.aligned x (hmem.mp hx).2, fun m => ?_⟩, hsup.trans hf.supply, by
      rw [hcalls, hf.calls], fun p hpn => ?_, hjoin⟩
  · rw [hout _ (by simp), hr.stack]
  · rw [Finset.mem_erase, hmem]
    constructor
    · rintro ⟨hmn, hm⟩
      have hne : m.ref ≠ n.ref := fun he => hmn (hl.eq_of_ref hm hn he)
      refine ⟨⟨hne, hl.ref_mem hm⟩, ?_⟩
      rw [Heap.range, hout _ hne, ← Heap.range, hf.range]
      exact ((hl.node_iff m).mp hm).2
    · rintro ⟨⟨hne, hm⟩, hmr⟩
      rw [Heap.range, hout _ hne, ← Heap.range, hf.range] at hmr
      exact ⟨fun he => hne (he ▸ rfl), (hl.node_iff m).mpr ⟨hm, hmr⟩⟩
  · rcases hl.prev_cases hn with ⟨-, hmin⟩ | ⟨q, hq, hprev⟩
    · have := hmin p hpn.1
      have := hpn.2.1
      omega
    · have hqp : q = p := hl.isPrev_unique hq hpn
      have hlast' : h.prev n.ref = l.toList.getLast? := by
        have := hl.list
        rw [toList_node] at this
        rw [this.prev_of_mem, Option.or_none]
      have hne : l ≠ nil := by
        rintro rfl
        rw [hlast'] at hprev
        cases hprev
      rw [hjoin.root? hne, ← hlast', hprev, hqp]

end Linked

end OpenOOC
