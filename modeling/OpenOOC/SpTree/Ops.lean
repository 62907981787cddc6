import OpenOOC.SpTree.ListLinks

/-! One lemma for each operation of the tree: from a represented tree, what the
call leaves in memory and what it returns. -/

namespace OpenOOC

open Links SplayTree SplayTree.Tree

/-- The heap holds `T` as a tree from `root`, and its in-order sequence as the
doubly linked list. -/
structure Rep (h : Heap) (T : Tree Ref) : Prop where
  root : h.root = T.root?
  shape : Shape h T
  root_par : ∀ a, T.root? = some a → h.par a = none
  list : Seg h.next h.prev none T.toList none
  sorted : T.toList.Pairwise fun a b => h.start a < h.start b
  stack : h.cell .stack = none

def Heap.range (h : Heap) (x : Ref) : Option (BitVec 64 × ℕ × ℕ) :=
  (h.cell x).map fun v => (v.vmFlags, v.vmStart, v.vmEnd)

theorem range_views {h h' : Heap} {x : Ref} (hr : h'.range x = h.range x) :
    (h'.Ok x ↔ h.Ok x) ∧ h'.start x = h.start x ∧ h'.stop x = h.stop x ∧
    h'.flags x = h.flags x := by
  unfold Heap.range at hr
  unfold Heap.Ok Heap.start Heap.stop Heap.flags
  cases h1 : h'.cell x <;> cases h2 : h.cell x <;> simp_all

structure LinksOnly (h h' : Heap) : Prop where
  supply : h'.supply = h.supply
  calls : h'.calls = h.calls
  range : ∀ x, h'.range x = h.range x

namespace LinksOnly

variable {h h' h'' : Heap}

theorem refl (h : Heap) : LinksOnly h h := ⟨rfl, rfl, fun _ => rfl⟩

theorem trans (h1 : LinksOnly h h') (h2 : LinksOnly h' h'') : LinksOnly h h'' :=
  ⟨h2.supply.trans h1.supply, h2.calls.trans h1.calls, fun x => (h2.range x).trans (h1.range x)⟩

theorem ok (hl : LinksOnly h h') (x : Ref) : h'.Ok x ↔ h.Ok x := (range_views (hl.range x)).1

theorem start (hl : LinksOnly h h') (x : Ref) : h'.start x = h.start x :=
  (range_views (hl.range x)).2.1

theorem stop (hl : LinksOnly h h') (x : Ref) : h'.stop x = h.stop x :=
  (range_views (hl.range x)).2.2.1

theorem flags (hl : LinksOnly h h') (x : Ref) : h'.flags x = h.flags x :=
  (range_views (hl.range x)).2.2.2

theorem stack (hl : LinksOnly h h') (hs : h.cell .stack = none) : h'.cell .stack = none := by
  have := hl.ok .stack
  simpa [Heap.Ok, hs] using this

theorem setRoot (hl : LinksOnly h h') (p : Ptr) : LinksOnly h { h' with root := p } :=
  ⟨hl.supply, hl.calls, hl.range⟩

theorem sorted (hl : LinksOnly h h') {L : List Ref}
    (hs : L.Pairwise fun a b => h.start a < h.start b) :
    L.Pairwise fun a b => h'.start a < h'.start b :=
  hs.imp fun {a b} hab => by rwa [hl.start, hl.start]

end LinksOnly

theorem range_of_data {h h' : Heap} {x : Ref} (hd : h'.data x = h.data x) :
    h'.range x = h.range x ∧ h'.next x = h.next x ∧ h'.prev x = h.prev x := by
  unfold Heap.data at hd
  unfold Heap.range Heap.next Heap.prev
  cases h1 : h'.cell x <;> cases h2 : h.cell x <;> simp_all [VmArea.data]

theorem TreeLinksOnly.linksOnly {N : List Ref} {h h' : Heap} (hf : TreeLinksOnly N h h') :
    LinksOnly h h' :=
  ⟨by rw [hf.same], by rw [hf.same], fun x => (range_of_data (hf.data x)).1⟩

theorem TreeLinksOnly.seg {N L : List Ref} {p q : Ptr} {h h' : Heap} (hf : TreeLinksOnly N h h')
    (hs : Seg h.next h.prev p L q) : Seg h'.next h'.prev p L q :=
  hs.congr (fun x _ => (range_of_data (hf.data x)).2.1) fun x _ => (range_of_data (hf.data x)).2.2

theorem ListLinksOnly.linksOnly {h h' : Heap} (hf : ListLinksOnly h h') : LinksOnly h h' := by
  refine ⟨by rw [hf.same], by rw [hf.same], fun x => ?_⟩
  have := hf.treePart x
  unfold Heap.treePart at this
  unfold Heap.range
  cases h1 : h'.cell x <;> cases h2 : h.cell x <;> simp_all [VmArea.treePart]

theorem Rep.nodup {h : Heap} {T : Tree Ref} (hr : Rep h T) : T.toList.Nodup :=
  hr.sorted.imp fun {a b} hab he => by subst he; omega

theorem Rep.stack_notMem {h : Heap} {T : Tree Ref} (hr : Rep h T) : .stack ∉ T.toList :=
  hr.shape.stack_notMem hr.stack

theorem Rep.ok {h : Heap} {T : Tree Ref} (hr : Rep h T) {x : Ref} (hx : x ∈ T.toList) : h.Ok x :=
  hr.shape.ok_mem hx

/-- A represented tree only depends on its own structs. -/
theorem Rep.of_cell {h h' : Heap} {T : Tree Ref} (hr : Rep h T) (hroot : h'.root = h.root)
    (hst : h'.cell .stack = none) (hc : ∀ x ∈ T.toList, h'.cell x = h.cell x) : Rep h' T := by
  refine ⟨hroot.trans hr.root, hr.shape.of_cell hc, fun a ha => ?_, ?_, ?_, hst⟩
  · rw [par_of_cell (hc a (root?_mem ha)), hr.root_par a ha]
  · refine hr.list.congr (fun x hx => ?_) fun x hx => ?_
    · unfold Heap.next; rw [hc x hx]
    · unfold Heap.prev; rw [hc x hx]
  · refine hr.sorted.imp_of_mem fun {a b} ha hb hab => ?_
    unfold Heap.start at hab ⊢
    rwa [hc a ha, hc b hb]

theorem rep_setRoot {h : Heap} {T : Tree Ref} {p : Ptr} (hp : p = T.root?) (hs : Shape h T)
    (hpar : ∀ a, T.root? = some a → h.par a = none) (hlist : Seg h.next h.prev none T.toList none)
    (hsort : T.toList.Pairwise fun a b => h.start a < h.start b) (hst : h.cell .stack = none) :
    Rep { h with root := p } T :=
  ⟨hp, hs.of_cell fun _ _ => rfl, hpar, hlist, hsort, hst⟩

theorem root?_ne_none {T : Tree Ref} (hT : T ≠ nil) : T.root? ≠ none := mt root?_eq_none.mp hT

/-! ### Insertion -/

/-- The tree surgery of `S_sp_tree_insert_helper`: `z` takes the splayed root
`t` on one side and what `t` has on the other side on that side. -/
theorem newRoot_spec {h : Heap} {w : Which} {s c : Tree Ref} {t z : Ref} (hz : h.Ok z)
    (hzp : h.par z = none) (hT : Shape h (branch w s t c)) (hnd : (branch w s t c).toList.Nodup)
    (hzT : z ∉ (branch w s t c).toList) :
    ∃ h1 h2 h3, makeChild h (some z) w s.root? = some h1 ∧
      makeChild h1 (some z) w.flip (some t) = some h2 ∧
      (h2.upd (some t) fun v => v.setChild none w) = some h3 ∧
      Shape h3 (branch w s z (branch w nil t c)) ∧ h3.par z = none ∧
      TreeLinksOnly (z :: (branch w s t c).toList) h h3 := by
  obtain ⟨ht, hts, htc, hus, huc, hs, hc⟩ := shape_branch.mp hT
  obtain ⟨htn, hndsc⟩ := List.nodup_cons.mp (branch_nodup.mp hnd)
  obtain ⟨hnds, hndc, hdis⟩ := List.nodup_append.mp hndsc
  simp only [mem_branch, not_or] at hzT
  simp only [List.mem_append, not_or] at htn
  obtain ⟨he1, hs1, hus1, hout1⟩ := hs.adopt (w := w) hz hzT.2.1 hnds
  set h1 := h.linkChild z w s.root? with hh1
  have hz1 : h1.Ok z := (ok_linkChild z).mpr hz
  have ht1 : h1.Ok t := (ok_linkChild t).mpr ht
  have hct1 : h1.cell t = h.cell t := hout1 t (Ne.symm hzT.1) htn.1
  have he2 := makeChild_eq w.flip hz1 (b := some t) (by simp [ht1, Ne.symm hzT.1])
  set h2 := h1.linkChild z w.flip (some t) with hh2
  have hout2 {x : Ref} (hxz : x ≠ z) (hxt : x ≠ t) : h2.cell x = h1.cell x :=
    linkChild_of_ne hxz (by simpa using hxt)
  have hz2 : h2.Ok z := (ok_linkChild z).mpr hz1
  have ht2 : h2.Ok t := (ok_linkChild t).mpr ht1
  have hpar1 := par_linkChild (w := w) (b := s.root?) hz fun x hx =>
    ⟨hs.root_ok hx, fun he => hzT.2.1 (he ▸ root?_mem hx)⟩
  have hpar2 := par_linkChild (w := w.flip) (b := some t) hz1 (by simp [ht1, Ne.symm hzT.1])
  have hzp1 : h1.par z = none := by rw [hh1, hpar1, if_pos rfl, hzp, ite_self]
  have hcell3 {x : Ref} (hxt : x ≠ t) : (h2.clearChild t w).cell x = h2.cell x :=
    cell_clearChild_of_ne hxt
  have hsz {x : Ref} (hx : x ∈ s.toList) : x ≠ z ∧ x ≠ t :=
    ⟨fun he => hzT.2.1 (he ▸ hx), fun he => htn.1 (he ▸ hx)⟩
  have hcz {x : Ref} (hx : x ∈ c.toList) : x ≠ z ∧ x ≠ t :=
    ⟨fun he => hzT.2.2 (he ▸ hx), fun he => htn.2 (he ▸ hx)⟩
  have hs3 {x : Ref} (hx : x ∈ s.toList) : (h2.clearChild t w).cell x = h1.cell x := by
    rw [hcell3 (hsz hx).2, hout2 (hsz hx).1 (hsz hx).2]
  have hc3 {x : Ref} (hx : x ∈ c.toList) : (h2.clearChild t w).cell x = h.cell x := by
    rw [hcell3 (hcz hx).2, hout2 (hcz hx).1 (hcz hx).2,
      hout1 x (hcz hx).1 fun hx' => hdis x hx' x hx rfl]
  refine ⟨h1, h2, h2.clearChild t w, he1, he2, h2.upd_eq ht2 _, ?_, ?_, ?_⟩
  · refine shape_branch.mpr ⟨(ok_clearChild z).mpr hz2, ?_, ?_, ?_, ?_, ?_,
      shape_branch.mpr ⟨(ok_clearChild t).mpr ht2, ?_, ?_, ?_, ?_, trivial, ?_⟩⟩
    · rw [child_of_cell (hcell3 hzT.1), hh2, child_linkChild hz1, if_neg (by simp), hh1,
        child_linkChild hz, if_pos ⟨rfl, rfl⟩]
    · rw [child_of_cell (hcell3 hzT.1), hh2, child_linkChild hz1, if_pos ⟨rfl, rfl⟩, root?_branch]
    · intro x hx
      rw [par_of_cell (hs3 (root?_mem hx)), hus1 x hx]
    · intro x hx
      obtain rfl : t = x := by simpa using hx
      rw [par_clearChild, hh2, hpar2, if_neg (Ne.symm hzT.1), if_pos rfl]
    · exact hs1.of_cell fun x hx => hs3 hx
    · rw [child_clearChild, if_pos ⟨rfl, rfl⟩, root?_nil]
    · rw [child_clearChild, if_neg (by simp), hh2, child_linkChild hz1,
        if_neg fun he => hzT.1 he.1.symm, child_of_cell hct1, htc]
    · simp [Up]
    · intro x hx
      rw [par_of_cell (hc3 (root?_mem hx)), huc x hx]
    · exact hc.of_cell fun x hx => hc3 hx
  · rw [par_of_cell (hcell3 hzT.1), hh2, hpar2, if_pos rfl, hzp1, ite_self]
  · have hf1 : TreeLinksOnly (z :: (branch w s t c).toList) h h1 :=
      treeLinksOnly_linkChild (by simp) fun x hx => by simp [root?_mem hx]
    have hf2 : TreeLinksOnly (z :: (branch w s t c).toList) h1 h2 :=
      treeLinksOnly_linkChild (by simp) fun x hx => by
        obtain rfl : t = x := by simpa using hx
        simp
    refine (hf1.trans hf2).trans ⟨rfl, ok_clearChild, data_clearChild, fun x _ hx => hcell3 ?_⟩
    rintro rfl
    simp at hx

theorem insertHelper_spec {h : Heap} {l r : Tree Ref} {t z : Ref} (hs : Shape h (node l t r))
    (hlist : Seg h.next h.prev none (node l t r).toList none)
    (hsort : (node l t r).toList.Pairwise fun a b => h.start a < h.start b)
    (hst : h.cell .stack = none) (hroot : h.root ≠ none) (hz : h.Ok z) (hzp : h.par z = none)
    (hzT : z ∉ (node l t r).toList) (hl : ∀ b ∈ l.toList, h.start b < h.start z)
    (hr : ∀ b ∈ r.toList, h.start z < h.start b) (hne : h.start t ≠ h.start z) :
    ∃ h' T' L1 L2, sSpTreeInsertHelper h (some t) (some z) = some h' ∧ Rep h' T' ∧
      (node l t r).toList = L1 ++ L2 ∧ T'.toList = L1 ++ z :: L2 ∧ LinksOnly h h' ∧
      (∀ x, x ≠ .stack → x ∉ z :: (node l t r).toList → h'.par x = h.par x) ∧
      Rooted l t r z T' := by
  have hnd : (node l t r).toList.Nodup := hsort.imp fun {a b} hab he => by subst he; omega
  have ht : h.Ok t := hs.1
  have hzt : z ≠ t := fun he => hzT (by simp [he])
  obtain ⟨vz, hvz, -, -, -, -, hvzs, -⟩ := h.cell_eq hz
  obtain ⟨vt, hvt, -, -, -, -, hvts, -⟩ := h.cell_eq ht
  have hsort' := hsort
  rw [toList_node] at hlist hnd hzT hsort hsort'
  simp only [List.mem_append, List.mem_cons, not_or] at hzT
  unfold sSpTreeInsertHelper
  rw [if_neg hroot]
  simp only [Heap.get_some, hvz, hvt, hvzs, hvts, Option.bind_eq_bind, Option.bind_some]
  by_cases hlt : h.start z < h.start t
  · -- `z` goes between the left part and the splayed root
    rw [if_pos hlt]
    have hprev : h.prev t = l.toList.getLast? := by rw [hlist.prev_of_mem, Option.or_none]
    obtain ⟨h1, he1, hf1, hn1, hp1⟩ := fixListLt_eq hz ht hzt fun x hx => by
      have hxl := List.mem_of_getLast? (hprev ▸ hx)
      exact ⟨hs.ok_mem (by simp [hxl]), fun he => hzT.1 (he ▸ hxl)⟩
    have hT1 : Shape h1 (branch .spL l t r) := hf1.shape hs
    obtain ⟨vt1, hvt1, hvtc1, -⟩ := h1.cell_eq ((hf1.ok t).mpr ht)
    have hvtl : vt1.spL = l.root? := by rw [← hT1.2.1, ← hvtc1]; rfl
    obtain ⟨h2, h3, h4, he2, he3, he4, hs4, hpz, hf4⟩ := newRoot_spec (w := .spL)
      ((hf1.ok z).mpr hz) (((hf1.views z).2.1).trans hzp) hT1 hnd (by simp [hzT])
    have hf := hf1.linksOnly.trans hf4.linksOnly
    refine ⟨{ h4 with root := some z }, node l z (node nil t r), l.toList, t :: r.toList, ?_,
      rep_setRoot rfl hs4 ?_ ?_ ?_ (hf.stack hst), rfl, rfl, hf.setRoot _,
      fun x hx hxT => (par_of_cell (hf4.outside x hx hxT)).trans (hf1.views x).2.1, .inl rfl⟩
    · have he4' : (h3.upd (some t) fun v => { v with spL := none }) = some h4 := he4
      have he3' : makeChild h2 (some z) .spR (some t) = some h3 := he3
      simp only [he1, hvt1, hvtl, he2, he3', he4', Option.bind_some, Option.pure_def]
    · rintro a ha
      obtain rfl : z = a := by simpa using ha
      exact hpz
    · refine @Seg.congr _ h1.next h1.prev _ _ _ _ _ ?_
        (fun x _ => (range_of_data (hf4.data x)).2.1) fun x _ => (range_of_data (hf4.data x)).2.2
      simp only [toList_node, toList_nil, List.nil_append]
      refine hlist.link ?_ ?_ ?_ (fun b hb => ?_) fun b hb => ?_
      · rw [List.perm_middle.nodup_iff, List.nodup_cons]
        exact ⟨by simp [hzT], hnd⟩
      · rw [hn1, if_pos rfl]; rfl
      · rw [hp1, if_pos rfl, hprev, Option.or_none]
      · rw [hn1, if_neg (by rintro rfl; simp [hzT] at hb), hprev]
      · rw [hp1, if_neg (by rintro rfl; simp [hzT] at hb)]
        simp only [List.head?_cons, Option.some.injEq, eq_comm]
    · refine @LinksOnly.sorted _ h4 hf _ ?_
      simp only [toList_node, toList_nil, List.nil_append]
      obtain ⟨hsl, hsr, hslr⟩ := List.pairwise_append.mp hsort
      refine List.pairwise_append.mpr ⟨hsl, List.pairwise_cons.mpr ⟨fun b hb => ?_, hsr⟩,
        fun a ha b hb => ?_⟩
      · rcases List.mem_cons.mp hb with rfl | hb
        · exact hlt
        · exact hr b hb
      · rcases List.mem_cons.mp hb with rfl | hb
        · exact hl a ha
        · exact hslr a ha b hb
  · -- `z` goes between the splayed root and the right part
    have hgt : h.start t < h.start z := by omega
    rw [if_neg hlt]
    have hnext : h.next t = r.toList.head? := by rw [hlist.next_of_mem, Option.or_none]
    obtain ⟨h1, he1, hf1, hn1, hp1⟩ := fixListGt_eq hz ht hzt fun x hx => by
      have hxr := List.mem_of_head? (hnext ▸ hx)
      exact ⟨hs.ok_mem (by simp [hxr]), fun he => hzT.2.2 (he ▸ hxr)⟩
    have hT1 : Shape h1 (branch .spR r t l) := hf1.shape hs
    obtain ⟨vt1, hvt1, hvtc1, -⟩ := h1.cell_eq ((hf1.ok t).mpr ht)
    have hvtr : vt1.spR = r.root? := by rw [← hT1.2.2.1, ← hvtc1]; rfl
    obtain ⟨h2, h3, h4, he2, he3, he4, hs4, hpz, hf4⟩ := newRoot_spec (w := .spR)
      ((hf1.ok z).mpr hz) (((hf1.views z).2.1).trans hzp) hT1 hnd (by simp [branch, hzT])
    have hf := hf1.linksOnly.trans hf4.linksOnly
    refine ⟨{ h4 with root := some z }, node (node l t nil) z r, l.toList ++ [t], r.toList, ?_,
      rep_setRoot rfl hs4 ?_ ?_ ?_ (hf.stack hst), by simp, by simp, hf.setRoot _,
      fun x hx hxT => (par_of_cell (hf4.outside x hx hxT)).trans (hf1.views x).2.1, .inr rfl⟩
    · have he4' : (h3.upd (some t) fun v => { v with spR := none }) = some h4 := he4
      have he3' : makeChild h2 (some z) .spL (some t) = some h3 := he3
      simp only [hgt, guard_true, he1, hvt1, hvtr, he2, he3', he4', Option.bind_some,
        Option.pure_def]
    · rintro a ha
      obtain rfl : z = a := by simpa using ha
      exact hpz
    · refine @Seg.congr _ h1.next h1.prev _ _ _ _ _ ?_
        (fun x _ => (range_of_data (hf4.data x)).2.1) fun x _ => (range_of_data (hf4.data x)).2.2
      have hl' : l.toList ++ t :: r.toList = (l.toList ++ [t]) ++ r.toList := by simp
      rw [hl'] at hlist
      have hT' : (node (node l t nil) z r).toList = (l.toList ++ [t]) ++ z :: r.toList := by simp
      rw [hT']
      refine hlist.link ?_ ?_ ?_ (fun b hb => ?_) fun b hb => ?_
      · rw [List.perm_middle.nodup_iff, List.nodup_cons]
        exact ⟨by simp [hzT], by simpa using hnd⟩
      · rw [hn1, if_pos rfl, hnext, Option.or_none]
      · rw [hp1, if_pos rfl]; simp
      · rw [hn1, if_neg (by rintro rfl; simp [hzT] at hb)]
        simp only [List.getLast?_append, List.getLast?_singleton, Option.some_or, Option.some.injEq,
          eq_comm]
      · rw [hp1, if_neg (by rintro rfl; simp [hzT] at hb), hnext]
    · refine @LinksOnly.sorted _ h4 hf _ ?_
      simp only [toList_node, toList_nil, List.append_assoc, List.singleton_append]
      obtain ⟨hsl, hsr, hslr⟩ := List.pairwise_append.mp hsort
      obtain ⟨htr, hsr⟩ := List.pairwise_cons.mp hsr
      refine List.pairwise_append.mpr ⟨hsl, List.pairwise_cons.mpr ⟨fun b hb => ?_,
        List.pairwise_cons.mpr ⟨hr, hsr⟩⟩, fun a ha b hb => ?_⟩
      · rcases List.mem_cons.mp hb with rfl | hb
        · exact hgt
        · exact htr b hb
      · rcases List.mem_cons.mp hb with rfl | hb
        · exact hslr a ha _ (by simp)
        · rcases List.mem_cons.mp hb with rfl | hb
          · exact hl a ha
          · exact hslr a ha b (by simp [hb])

theorem nodeInit_spec {h : Heap} {z : Ref} (hz : h.Ok z) :
    ∃ h', sSpNodeInit h (some z) = some h' ∧ LinksOnly h h' ∧ h'.root = h.root ∧
      h'.par z = none ∧ (∀ w, h'.child w z = none) ∧ h'.next z = none ∧ h'.prev z = none ∧
      ∀ x, x ≠ z → h'.cell x = h.cell x := by
  obtain ⟨v, hv⟩ := Option.isSome_iff_exists.mp hz
  refine ⟨_, h.upd_eq hz _, ⟨rfl, rfl, fun x => ?_⟩, rfl, ?_, fun w => ?_, ?_, ?_, fun x hx => ?_⟩
  · unfold Heap.range
    rw [Heap.cell_modify]
    split_ifs
    · simp [Option.map_map, Function.comp_def]
    · rfl
  · simp [Heap.par, Heap.cell_modify, hv]
  · cases w <;> simp [Heap.child, VmArea.child, Heap.cell_modify, hv]
  · simp [Heap.next, Heap.cell_modify, hv]
  · simp [Heap.prev, Heap.cell_modify, hv]
  · rw [Heap.cell_modify, if_neg hx]

/-- `sp_tree_insert` adds `z` at its place in the order, as the root. -/
theorem spTreeInsert_splays {h : Heap} {T : Tree Ref} {z : Ref} (hr : Rep h T) (hz : h.Ok z)
    (hzT : z ∉ T.toList) (hne : ∀ a ∈ T.toList, h.start a ≠ h.start z) :
    ∃ h' T' L1 L2, spTreeInsert h (some z) = some h' ∧ Rep h' T' ∧
      T.toList = L1 ++ L2 ∧ T'.toList = L1 ++ z :: L2 ∧ LinksOnly h h' ∧
      Placed (heapCmp h (h.start z)) T z T' := by
  obtain ⟨h1, he1, hf1, hroot1, hzp1, hzc1, hzn1, hzv1, hout1⟩ := nodeInit_spec hz
  have hr1 : Rep h1 T := hr.of_cell hroot1 (hf1.stack hr.stack)
    fun x hx => hout1 x fun he => hzT (he ▸ hx)
  have hz1 : h1.Ok z := (hf1.ok z).mpr hz
  obtain ⟨vz, hvz, -, -, -, -, hvzs, -⟩ := h1.cell_eq hz1
  unfold spTreeInsert
  simp only [he1, Heap.get_some, hvz, hvzs, Option.bind_eq_bind, Option.bind_some, hr1.root]
  cases T with
  | nil =>
    have hroot : h1.root = none := hr1.root
    refine ⟨{ h1 with root := some z }, node nil z nil, [], [], ?_, ?_, rfl, rfl, hf1.setRoot _,
      .inl ⟨rfl, rfl⟩⟩
    · simp [sSpTreeSplay, sSpTreeInsertHelper, hroot]
    · refine rep_setRoot rfl ⟨hz1, hzc1 _, hzc1 _, by simp [Up], by simp [Up], trivial, trivial⟩ ?_
        ⟨hzv1, hzn1, trivial⟩ (by simp) hr1.stack
      rintro a ha
      obtain rfl : z = a := by simpa using ha
      exact hzp1
  | node l a r =>
    obtain ⟨h2, l2, t, r2, hsp2, he2, hs2, -, hst2, hf2, hlist2, hl2, hr2⟩ :=
      sSpTreeSplay_spec (h1.start z)
      hr1.shape hr1.sorted hr1.stack (by simp)
    have hf := hf2.linksOnly
    have hT : (node l2 t r2).toList = (node l a r).toList := hlist2
    have hcz : h2.cell z = h1.cell z := hf2.outside z
      (fun he => by rw [he, Heap.Ok, hr1.stack] at hz1; simp at hz1) hzT
    rw [he2, Option.bind_some]
    obtain ⟨h3, T', L1, L2, he3, hr3, hL, hT', hf3, -, hrooted⟩ := insertHelper_spec (z := z) hs2
      (by rw [hT]; exact hf2.seg hr1.list) (by rw [hT]; exact hf.sorted hr1.sorted) hst2
      (by rw [hf2.same, hr1.root]; simp) ((hf.ok z).mpr hz1) ((par_of_cell hcz).trans hzp1)
      (by rwa [hT]) (fun b hb => by rw [hf.start, hf.start]; exact hl2 b hb)
      (fun b hb => by rw [hf.start, hf.start]; exact hr2 b hb)
      (by rw [hf.start, hf.start, hf1.start, hf1.start]; exact hne t (hT ▸ by simp))
    rw [hf1.start, heapCmp_of_start hf1.start] at hsp2
    exact ⟨h3, T', L1, L2, he3, hr3, hT ▸ hL, hT', (hf1.trans hf).trans hf3,
      .inr ⟨l2, t, r2, hsp2, hrooted⟩⟩

theorem spTreeInsert_spec {h : Heap} {T : Tree Ref} {z : Ref} (hr : Rep h T) (hz : h.Ok z)
    (hzT : z ∉ T.toList) (hne : ∀ a ∈ T.toList, h.start a ≠ h.start z) :
    ∃ h' T' L1 L2, spTreeInsert h (some z) = some h' ∧ Rep h' T' ∧
      T.toList = L1 ++ L2 ∧ T'.toList = L1 ++ z :: L2 ∧ LinksOnly h h' := by
  obtain ⟨h', T', L1, L2, he, hr', hL, hL', hf, -⟩ := spTreeInsert_splays hr hz hzT hne
  exact ⟨h', T', L1, L2, he, hr', hL, hL', hf⟩

/-! ### Removal -/

theorem graft_spec {h : Heap} {l r : Tree Ref} {z : Ref} (hs : Shape h (node l z nil))
    (hr : Shape h r) (hzp : h.par z = none) (hnd : (l.toList ++ z :: r.toList).Nodup) :
    ∃ h', makeChild h (some z) .spR r.root? = some h' ∧ Shape h' (node l z r) ∧ h'.par z = none ∧
      TreeLinksOnly (z :: r.toList) h h' := by
  obtain ⟨hz, hzl, -, hul, -, hl, -⟩ := hs
  obtain ⟨-, hndr, hdis⟩ := List.nodup_append.mp hnd
  obtain ⟨hzr, hndr⟩ := List.nodup_cons.mp hndr
  obtain ⟨he, hr', hur', hout⟩ := hr.adopt (w := .spR) hz hzr hndr
  have hlc {x : Ref} (hx : x ∈ l.toList) : (h.linkChild z .spR r.root?).cell x = h.cell x :=
    hout x (hdis x hx z (by simp)) fun hx' => hdis x hx x (by simp [hx']) rfl
  refine ⟨_, he, ⟨(ok_linkChild z).mpr hz, ?_, ?_, ?_, hur', ?_, hr'⟩, ?_, ?_⟩
  · rw [child_linkChild hz, if_neg (by simp), hzl]
  · rw [child_linkChild hz, if_pos ⟨rfl, rfl⟩]
  · intro x hx
    rw [par_of_cell (hlc (root?_mem hx)), hul x hx]
  · exact hl.of_cell fun x hx => hlc hx
  · rw [par_linkChild hz fun x hx => ⟨hr.root_ok hx, fun he => hzr (he ▸ root?_mem hx)⟩, if_pos rfl,
      hzp, ite_self]
  · exact treeLinksOnly_linkChild (by simp) fun x hx => by simp [root?_mem hx]

theorem dropPar_spec {h : Heap} {r : Tree Ref} (hs : Shape h r) (hnd : r.toList.Nodup) :
    ∃ h', (h.updIf r.root? fun v => { v with spP := none }) = some h' ∧ Shape h' r ∧
      (∀ a, r.root? = some a → h'.par a = none) ∧ TreeLinksOnly r.toList h h' := by
  cases r with
  | nil => exact ⟨h, rfl, hs, by simp, .refl _ _⟩
  | node l a r =>
    refine ⟨h.clearPar a, h.updIf_eq hs.1 _, ?_, fun b hb => ?_, treeLinksOnly_clearPar (by simp)⟩
    · refine hs.congr (fun x _ => (ok_clearPar x).mpr) (fun x _ w => child_clearPar w x)
        fun x hx => ?_
      rw [par_clearPar, if_neg]
      rintro rfl
      exact below_ne_root hnd hx rfl
    · obtain rfl : a = b := by simpa using hb
      rw [par_clearPar, if_pos rfl]

/-- `S_sp_tree_remove_helper` takes the splayed root `t` out, and the struct before
it, splayed to the root of what is left of `t`, becomes the root; `t` itself keeps its left
child and its NULL parent. -/
theorem removeHelper_splays {h : Heap} {l r : Tree Ref} {t : Ref} (hs : Shape h (node l t r))
    (htp : h.par t = none) (hlist : Seg h.next h.prev none (node l t r).toList none)
    (hsort : (node l t r).toList.Pairwise fun a b => h.start a < h.start b)
    (hst : h.cell .stack = none) :
    ∃ h' T', sSpTreeRemoveHelper h (some t) = some h' ∧ Rep h' T' ∧
      T'.toList = l.toList ++ r.toList ∧ LinksOnly h h' ∧ h'.par t = none ∧
      h'.child .spL t = l.root? ∧ Merged (heapCmp h (h.start t)) l r T' ∧
      ∃ h1, fixListRm h (some t) = some h1 ∧ ListLinksOnly h h1 := by
  have hnd : (node l t r).toList.Nodup := hsort.imp fun {a b} hab he => by subst he; omega
  have hns := hs.stack_notMem hst
  have ht : h.Ok t := hs.1
  rw [toList_node] at hlist hnd hsort hns
  simp only [List.mem_append, List.mem_cons, not_or] at hns
  obtain ⟨hndl, hndtr, hdis⟩ := List.nodup_append.mp hnd
  obtain ⟨htr, hndr⟩ := List.nodup_cons.mp hndtr
  have htl : t ∉ l.toList := fun hx => hdis t hx t (by simp) rfl
  have hdlr {x : Ref} (hx : x ∈ l.toList) : x ∉ r.toList :=
    fun hx' => hdis x hx x (by simp [hx']) rfl
  have hprev : h.prev t = l.toList.getLast? := by rw [hlist.prev_of_mem, Option.or_none]
  have hnext : h.next t = r.toList.head? := by rw [hlist.next_of_mem, Option.or_none]
  obtain ⟨h1, he1, hf1, hn1, hp1⟩ := fixListRm_eq ht
    (fun x hx => by
      have hxl := List.mem_of_getLast? (hprev ▸ hx)
      exact ⟨hs.ok_mem (by simp [hxl]), fun he => htl (he ▸ hxl)⟩)
    fun x hx => by
      have hxr := List.mem_of_head? (hnext ▸ hx)
      exact ⟨hs.ok_mem (by simp [hxr]), fun he => htr (he ▸ hxr)⟩
  have hlist1 : Seg h1.next h1.prev none (l.toList ++ r.toList) none :=
    hlist.unlink hnd (fun b _ => by rw [hn1, hprev, hnext, Option.or_none])
      fun b _ => by rw [hp1, hprev, hnext, Option.or_none]
  obtain ⟨hok1, hcl1, hcr1, hul1, hur1, hsl1, hsr1⟩ := hf1.shape hs
  obtain ⟨vt, hvt, hvtc, -, -, -, hvts, -⟩ := h1.cell_eq hok1
  have hvtl : vt.spL = l.root? := by rw [← hcl1, ← hvtc]; rfl
  have hvtr : vt.spR = r.root? := by rw [← hcr1, ← hvtc]; rfl
  have htp1 : h1.par t = none := (hf1.views t).2.1.trans htp
  have hst1 := hf1.linksOnly.stack hst
  obtain ⟨hsortl, hsortr, hlr⟩ := List.pairwise_append.mp hsort
  obtain ⟨htlt, hsortr⟩ := List.pairwise_cons.mp hsortr
  have hsort1 : (l.toList ++ r.toList).Pairwise fun a b => h1.start a < h1.start b :=
    hf1.linksOnly.sorted (List.pairwise_append.mpr
      ⟨hsortl, hsortr, fun a ha b hb => hlr a ha b (by simp [hb])⟩)
  unfold sSpTreeRemoveHelper
  simp only [he1, Heap.get_some, hvt, hvtl, hvtr, hvts, Option.bind_eq_bind, Option.bind_some]
  by_cases hl : l = nil
  · -- no left part: the right one moves up
    subst hl
    simp only [root?_nil, ne_eq, not_true_eq_false, if_false]
    obtain ⟨h2, he2, hs2, hp2, hf2⟩ := dropPar_spec hsr1 hndr
    have hf := hf1.linksOnly.trans hf2.linksOnly
    have hc2 : h2.cell t = h1.cell t := hf2.outside t (Ne.symm hns.2.1) htr
    refine ⟨{ h2 with root := r.root? }, r, by simp only [he2, Option.bind_some, Option.pure_def],
      rep_setRoot rfl hs2 hp2 (hf2.seg hlist1) (hf2.linksOnly.sorted hsort1) (hf.stack hst), rfl,
      hf.setRoot _, (par_of_cell hc2).trans htp1, (child_of_cell hc2 _).trans hcl1, .inl ⟨rfl, rfl⟩,
      h1, rfl, hf1⟩
  · rw [if_pos (root?_ne_none hl)]
    obtain ⟨h2, l2, z, r2, hsp2, he2, hs2, hzp2, hst2, hf2, hlist2, -, hr2⟩ := sSpTreeSplay_spec
      (h1.start t) hsl1 (List.pairwise_append.mp hsort1).1 hst1 hl
    -- every struct of the left part starts below `t`, so splaying for `t` leaves no right part
    have hr2nil : r2 = nil := by
      cases r2 with
      | nil => rfl
      | node rl b rr =>
        have hb : b ∈ l.toList := by rw [← hlist2]; simp
        have h3 := hr2 b (by simp)
        have h4 := hlr b hb t (by simp)
        rw [(hf1.views b).2.2.1, (hf1.views t).2.2.1] at h3
        omega
    subst hr2nil
    have hzl : z ∈ l.toList := by rw [← hlist2]; simp
    have hout2 {x : Ref} (hx : x ≠ .stack) (hxl : x ∉ l.toList) : h2.cell x = h1.cell x :=
      hf2.outside x hx hxl
    have hct2 : h2.cell t = h1.cell t := hout2 (Ne.symm hns.2.1) htl
    obtain ⟨h3, he3, hs3, hp3, hf3⟩ := dropPar_spec hs2 (by rw [toList_node, hlist2]; exact hndl)
    have he3' : (h2.upd (some z) fun v => { v with spP := none }) = some h3 := he3
    rw [toList_node, hlist2] at hf3
    have hout3 {x : Ref} (hx : x ≠ .stack) (hxl : x ∉ l.toList) : h3.cell x = h1.cell x :=
      (hf3.outside x hx hxl).trans (hout2 hx hxl)
    have hr3 : Shape h3 r := hsr1.of_cell fun x hx =>
      hout3 (fun he => hns.2.2 (he ▸ hx)) fun hx' => hdlr hx' hx
    obtain ⟨h4, he4, hs4, hp4, hf4⟩ := graft_spec hs3 hr3 (hp3 z rfl) (by
      have hl2 : l2.toList ++ z :: r.toList = l.toList ++ r.toList := by rw [← hlist2]; simp
      rw [hl2]
      exact List.nodup_append.mpr ⟨hndl, hndr, fun a ha b hb => hdis a ha b (by simp [hb])⟩)
    have hct4 : h4.cell t = h1.cell t := by
      rw [hf4.outside t (Ne.symm hns.2.1), hout3 (Ne.symm hns.2.1) htl]
      simp only [List.mem_cons, not_or]
      exact ⟨fun he => htl (he ▸ hzl), htr⟩
    have hf14 : LinksOnly h1 h4 := (hf2.linksOnly.trans hf3.linksOnly).trans hf4.linksOnly
    have hf := hf1.linksOnly.trans hf14
    have hT' : (node l2 z r).toList = l.toList ++ r.toList := by rw [← hlist2]; simp
    have hsplay : splay (heapCmp h (h.start t)) l = node l2 z nil := by
      rw [← hsp2, (hf1.views t).2.2.1, heapCmp_of_start fun x => (hf1.views x).2.2.1]
    refine ⟨{ h4 with root := some z }, node l2 z r, ?_, ?_, hT', hf.setRoot _,
      (par_of_cell hct4).trans htp1, (child_of_cell hct4 _).trans hcl1, .inr ⟨l2, z, hsplay, rfl⟩,
        h1, rfl, hf1⟩
    · have hvt3 : h3.cell t = some vt := (hout3 (Ne.symm hns.2.1) htl).trans hvt
      simp only [he2, he3', hvt3, hvtr, he4, Option.bind_some, Option.pure_def]
    · refine rep_setRoot rfl hs4 ?_ ?_ ?_ (hf.stack hst)
      · rintro a ha
        obtain rfl : z = a := by simpa using ha
        exact hp4
      · rw [hT']
        exact hf4.seg (hf3.seg (hf2.seg hlist1))
      · rw [hT']
        exact hf14.sorted hsort1

theorem removeHelper_spec {h : Heap} {l r : Tree Ref} {t : Ref} (hs : Shape h (node l t r))
    (htp : h.par t = none) (hlist : Seg h.next h.prev none (node l t r).toList none)
    (hsort : (node l t r).toList.Pairwise fun a b => h.start a < h.start b)
    (hst : h.cell .stack = none) :
    ∃ h' T', sSpTreeRemoveHelper h (some t) = some h' ∧ Rep h' T' ∧
      T'.toList = l.toList ++ r.toList ∧ LinksOnly h h' ∧ h'.par t = none ∧
      h'.child .spL t = l.root? ∧ Joined l r T' := by
  obtain ⟨h', T', he, hr, hT', hf, hp, hc, hm, -⟩ := removeHelper_splays hs htp hlist hsort hst
  exact ⟨h', T', he, hr, hT', hf, hp, hc, hm.joined⟩

/-- Structs are aligned to 8 bytes. -/
def Ref.Aligned : Ref → Prop
  | .stack => True
  | .vma a => a.toNat % 8 = 0

/-- A count that is a struct's address, or NULL, does not reach 0 by `n--`. -/
theorem dec64_ne_zero {n : ℕ} (h8 : n % 8 = 0) : dec64 n ≠ 0 := by
  unfold dec64
  split_ifs
  · decide
  · omega

theorem vmaFreeHeader_spec {a : Addr} {v : VmArea} (hp : v.spP = none)
    (hl : ∀ x, v.spL = some x → x ≠ .stack ∧ x.Aligned) :
    ∃ v', vmaFreeHeader a v = some v' ∧
      v'.vmFlags = v.vmFlags ∧ v'.vmStart = v.vmStart ∧ v'.vmEnd = v.vmEnd := by
  obtain ⟨head, hhead, hne⟩ : ∃ head, Ref.toNat v.spL = some head ∧ dec64 head ≠ 0 := by
    match hs : v.spL with
    | none => exact ⟨0, rfl, dec64_ne_zero rfl⟩
    | some .stack => exact absurd rfl (hl _ hs).1
    | some (.vma b) => exact ⟨b.toNat, rfl, dec64_ne_zero (hl _ hs).2⟩
  refine ⟨{ v with vmNext := Ref.ofNat (dec64 head), spL := some (.vma a) }, ?_, rfl, rfl, rfl⟩
  simp only [vmaFreeHeader, hp, guard_true, hhead, hne, ne_eq, not_false_eq_true,
    Option.bind_eq_bind, Option.bind_some, Option.pure_def]

/-- `vma_free` on a removed node. A struct at the start of a page keeps its
memory and its range; any other is gone. -/
theorem vmaFree_spec {h : Heap} {a : Addr} {l : Ptr} (ha : h.Ok (.vma a))
    (hp : h.par (.vma a) = none) (hl : h.child .spL (.vma a) = l)
    (hla : ∀ x, l = some x → x ≠ .stack ∧ x.Aligned) :
    ∃ h', vmaFree h (some (.vma a)) = some h' ∧ h'.root = h.root ∧ h'.supply = h.supply ∧
      h'.calls = h.calls ++ [.free a] ∧ (∀ x, x ≠ .vma a → h'.cell x = h.cell x) ∧
      if a.toNat % BLOCK_SIZE = 0 then h'.range (.vma a) = h.range (.vma a)
        else h'.cell (.vma a) = none := by
  obtain ⟨v, hv, hvc, hvp, -⟩ := h.cell_eq ha
  have hvl : v.spL = l := by rw [← hl, ← hvc]; rfl
  unfold vmaFree
  simp only [hv, Option.bind_eq_bind, Option.bind_some, Option.pure_def]
  split_ifs with hpg
  · obtain ⟨v', hv', hrange⟩ := vmaFreeHeader_spec (a := a) (hvp.trans hp)
      (hvl.symm ▸ hla : ∀ x, v.spL = some x → _)
    rw [hv', Option.bind_some]
    exact ⟨_, rfl, rfl, rfl, rfl, fun x hx => by rw [cell_put, if_neg hx], by
      simp [Heap.range, hv, hrange]⟩
  · exact ⟨_, rfl, rfl, rfl, rfl, fun x hx => by rw [cell_put, if_neg hx], by simp⟩

theorem ref_ne_stack {x : Ref} (hx : x ≠ .stack) : ∃ a, x = .vma a := by
  cases x with
  | stack => exact absurd rfl hx
  | vma a => exact ⟨a, rfl⟩

theorem root_of_start {h : Heap} {l r : Tree Ref} {t x : Ref} {k : ℕ}
    (hx : x ∈ l.toList ++ t :: r.toList) (hk : h.start x = k) (hl : ∀ b ∈ l.toList, h.start b < k)
    (hr : ∀ b ∈ r.toList, k < h.start b) : x = t := by
  simp only [List.mem_append, List.mem_cons] at hx
  rcases hx with hx | rfl | hx
  · have := hl x hx
    omega
  · rfl
  · have := hr x hx
    omega

/-- `sp_tree_remove` takes out the struct that starts at the address and frees it. -/
theorem spTreeRemove_splays {h : Heap} {T : Tree Ref} {a : Addr} (hr : Rep h T)
    (hal : ∀ x ∈ T.toList, x.Aligned) (haT : .vma a ∈ T.toList) :
    ∃ h' T' L1 L2, spTreeRemove h (h.start (.vma a)) = some h' ∧ Rep h' T' ∧
      T.toList = L1 ++ .vma a :: L2 ∧ T'.toList = L1 ++ L2 ∧ h'.supply = h.supply ∧
      h'.calls = h.calls ++ [.free a] ∧ (∀ x, x ≠ .vma a → h'.range x = h.range x) ∧
      (if a.toNat % BLOCK_SIZE = 0 then h'.range (.vma a) = h.range (.vma a)
        else h'.cell (.vma a) = none) ∧
      ∃ l r, splay (heapCmp h (h.start (.vma a))) T = node l (.vma a) r ∧
        Merged (heapCmp h (h.start (.vma a))) l r T' := by
  have hT : T ≠ nil := by
    rintro rfl
    simp at haT
  obtain ⟨h1, l, t, r, hsp1, he1, hs1, hp1, hst1, hf1, hlist1, hl1, hr1⟩ := sSpTreeSplay_spec
    (h.start (.vma a)) hr.shape hr.sorted hr.stack hT
  have hf := hf1.linksOnly
  obtain rfl : .vma a = t := root_of_start (hlist1 ▸ haT) rfl hl1 hr1
  have hT1 : (node l (.vma a) r).toList = T.toList := hlist1
  obtain ⟨h2, T', he2, hr2, hT', hf2, hp2, hc2, hmerged, -⟩ := removeHelper_splays hs1 hp1
    (by rw [hT1]; exact hf1.seg hr.list) (by rw [hT1]; exact hf.sorted hr.sorted) hst1
  have hf12 := hf.trans hf2
  obtain ⟨h3, he3, hroot3, hsup3, hcalls3, hout3, hfree⟩ := vmaFree_spec (l := l.root?)
    ((hf12.ok _).mpr (hr.ok haT)) hp2 hc2 fun x hx => by
      have hxT : x ∈ T.toList := by
        rw [← hlist1]
        simp [root?_mem hx]
      exact ⟨fun he => hr.stack_notMem (he ▸ hxT), hal x hxT⟩
  have hnd := hr.nodup
  rw [← hlist1] at hnd
  have hnotin : .vma a ∉ T'.toList := by
    rw [hT']
    exact (List.nodup_cons.mp (List.perm_middle.nodup_iff.mp hnd)).1
  rw [hf.start, heapCmp_of_start hf.start] at hmerged
  refine ⟨h3, T', l.toList, r.toList, ?_, ?_, hlist1.symm, hT', hsup3.trans hf12.supply,
    by rw [hcalls3, hf12.calls], fun x hx => ?_, ?_, l, r, hsp1, hmerged⟩
  · obtain ⟨va, hva, -, -, -, -, hvas, -⟩ := h1.cell_eq hs1.1
    unfold spTreeRemove
    simp only [hr.root, root?_ne_none hT, ne_eq, not_false_eq_true, guard_true, he1, Heap.get_some,
      hva,
      hvas, hf.start, he2, sSpNodeFree, he3, Option.bind_eq_bind, Option.bind_some, Option.pure_def]
  · refine hr2.of_cell hroot3 ?_ fun x hx => hout3 x fun he => hnotin (he ▸ hx)
    rw [hout3 _ (by simp), hr2.stack]
  · rw [← hf12.range x]
    unfold Heap.range
    rw [hout3 x hx]
  · rwa [hf12.range] at hfree

theorem spTreeRemove_spec {h : Heap} {T : Tree Ref} {a : Addr} (hr : Rep h T)
    (hal : ∀ x ∈ T.toList, x.Aligned) (haT : .vma a ∈ T.toList) :
    ∃ h' T' L1 L2, spTreeRemove h (h.start (.vma a)) = some h' ∧ Rep h' T' ∧
      T.toList = L1 ++ .vma a :: L2 ∧ T'.toList = L1 ++ L2 ∧ h'.supply = h.supply ∧
      h'.calls = h.calls ++ [.free a] ∧ (∀ x, x ≠ .vma a → h'.range x = h.range x) ∧
      if a.toNat % BLOCK_SIZE = 0 then h'.range (.vma a) = h.range (.vma a)
        else h'.cell (.vma a) = none := by
  obtain ⟨h', T', L1, L2, he, hr', hL, hL', hsup, hcalls, hrange, hfree, -⟩ :=
    spTreeRemove_splays hr hal haT
  exact ⟨h', T', L1, L2, he, hr', hL, hL', hsup, hcalls, hrange, hfree⟩

theorem start_of_spTreeRemove {h h' : Heap} {T : Tree Ref} {k : ℕ} (hr : Rep h T)
    (he : spTreeRemove h k = some h') : ∃ x ∈ T.toList, h.start x = k := by
  have hT : T ≠ nil := by
    rintro rfl
    simp [spTreeRemove, hr.root] at he
  obtain ⟨h1, l, t, r, -, he1, hs1, -, -, hf1, hlist1, -⟩ := sSpTreeSplay_spec k hr.shape hr.sorted
    hr.stack hT
  obtain ⟨vt, hvt, -, -, -, -, hvts, -⟩ := h1.cell_eq hs1.1
  refine ⟨t, by rw [← hlist1]; simp, ?_⟩
  unfold spTreeRemove at he
  simp only [hr.root, root?_ne_none hT, ne_eq, not_false_eq_true, guard_true, he1, Heap.get_some,
    hvt,
    hvts, hf1.linksOnly.start, Option.bind_eq_bind, Option.bind_some, Option.pure_def] at he
  by_contra hne
  rw [show (guard (k = h.start t) : Option Unit) = none from if_neg (Ne.symm hne)] at he
  simp at he

/-! ### Lookup -/

/-- The part that `sp_tree_find_and_lock` plays before it looks at the root. -/
theorem splayToRoot_spec {h : Heap} {T : Tree Ref} (k : ℕ) (hr : Rep h T) (hT : T ≠ nil) :
    ∃ h1 l t r, sSpTreeSplay h k T.root? = some (h1, some t) ∧
      Rep { h1 with root := some t } (node l t r) ∧ l.toList ++ t :: r.toList = T.toList ∧
      LinksOnly h h1 ∧ (∀ b ∈ l.toList, h.start b < k) ∧ (∀ b ∈ r.toList, k < h.start b) ∧
      splay (heapCmp h k) T = node l t r := by
  obtain ⟨h1, l, t, r, hsp1, he1, hs1, hp1, hst1, hf1, hlist1, hl1, hr1⟩ := sSpTreeSplay_spec
    k hr.shape hr.sorted hr.stack hT
  refine ⟨h1, l, t, r, he1, rep_setRoot rfl hs1 ?_ ?_ ?_ hst1, hlist1,
    hf1.linksOnly, hl1, hr1, hsp1⟩
  · rintro a ha
    obtain rfl : t = a := by simpa using ha
    exact hp1
  · rw [toList_node, hlist1]
    exact hf1.seg hr.list
  · rw [toList_node, hlist1]
    exact hf1.linksOnly.sorted hr.sorted

theorem rep_splay_of_spTreeFindAndLock {h h' : Heap} {T : Tree Ref} {k : ℕ} {p : Ptr} (hr : Rep h T)
    (he : spTreeFindAndLock h k = some (h', p)) :
    Rep h' (splay (heapCmp h k) T) ∧ LinksOnly h h' := by
  have hT : T ≠ nil := by
    rintro rfl
    simp [spTreeFindAndLock, hr.root] at he
  obtain ⟨h1, l, t, r, he1, hrep, -, hf, -, -, hsp⟩ := splayToRoot_spec k hr hT
  obtain rfl : h' = { h1 with root := some t } := by
    unfold spTreeFindAndLock at he
    simp only [hr.root, he1, Option.bind_eq_bind, Option.bind_some, Option.bind_eq_some_iff,
      Heap.get_some] at he
    obtain ⟨-, -, vr, -, he⟩ := he
    split_ifs at he <;>
      simp only [Option.bind_eq_some_iff, Option.pure_def, Option.some.injEq, Prod.mk.injEq] at he
    · obtain ⟨-, -, rfl, -⟩ := he
      rfl
    · obtain ⟨-, -, -, -, -, -, rfl, -⟩ := he
      rfl
  rw [hsp]
  exact ⟨hrep, hf.setRoot _⟩

theorem rep_of_spTreeFindAndLock {h h' : Heap} {T : Tree Ref} {k : ℕ} {p : Ptr} (hr : Rep h T)
    (he : spTreeFindAndLock h k = some (h', p)) :
    ∃ T', Rep h' T' ∧ T'.toList = T.toList ∧ LinksOnly h h' := by
  obtain ⟨hr', hf⟩ := rep_splay_of_spTreeFindAndLock hr he
  exact ⟨_, hr', toList_splay _ _, hf⟩

/-- `sp_tree_find_and_lock` returns the struct with the greatest start not above
the address, if that struct covers the address. -/
theorem spTreeFindAndLock_spec {h : Heap} {T : Tree Ref} {k : ℕ} {c : Ref} (hr : Rep h T)
    (hc : c ∈ T.toList) (hck : h.start c ≤ k) (hkc : k < h.stop c)
    (hmax : ∀ b ∈ T.toList, h.start b ≤ k → h.start b ≤ h.start c) :
    ∃ h', spTreeFindAndLock h k = some (h', some c) := by
  have hT : T ≠ nil := by
    rintro rfl
    simp at hc
  obtain ⟨h1, l, t, r, he1, hrep, hlist1, hf, hl1, hr1, -⟩ := splayToRoot_spec k hr hT
  have hseg : Seg h1.next h1.prev none (l.toList ++ t :: r.toList) none := hrep.list
  have hsort : (l.toList ++ t :: r.toList).Pairwise fun a b => h.start a < h.start b := by
    rw [hlist1]
    exact hr.sorted
  obtain ⟨vt, hvt, -, -, -, hvtp, hvts, hvte, -⟩ := h1.cell_eq hrep.shape.1
  rw [hf.start] at hvts
  rw [hf.stop] at hvte
  refine ⟨{ h1 with root := some t }, ?_⟩
  unfold spTreeFindAndLock
  simp only [he1, hr.root, root?_ne_none hT, ne_eq, not_false_eq_true, guard_true, Heap.get_some,
    hvt,
    hvts, hvte, hvtp, Option.bind_eq_bind, Option.bind_some, Option.pure_def]
  have hcT := hc
  rw [← hlist1, List.mem_append, List.mem_cons] at hcT
  by_cases htk : h.start t ≤ k
  · -- the root is the predecessor, or starts at the address
    rw [if_pos htk]
    have hle := hmax t (by rw [← hlist1]; simp) htk
    obtain rfl : c = t := by
      rcases hcT with hcl | rfl | hcr
      · have := (List.pairwise_append.mp hsort).2.2 c hcl t (by simp)
        omega
      · rfl
      · have := hr1 c hcr
        omega
    simp [hkc]
  · -- the root is the successor, so the predecessor is before it in the list
    rw [if_neg htk]
    have hprev : h1.prev t = l.toList.getLast? := by rw [hseg.prev_of_mem, Option.or_none]
    obtain ⟨hsl, -, hlr⟩ := List.pairwise_append.mp hsort
    have hcl : c ∈ l.toList := by
      rcases hcT with hcl | rfl | hcr
      · exact hcl
      · exact absurd hck htk
      · have := hr1 c hcr
        omega
    have hlast : l.toList.getLast? = some c := by
      obtain ⟨L, e, hLe⟩ : ∃ L e, l.toList = L ++ [e] :=
        ⟨_, _, (List.dropLast_append_getLast (List.ne_nil_of_mem hcl)).symm⟩
      rw [hLe, List.getLast?_concat]
      have hel : e ∈ l.toList := by rw [hLe]; simp
      have hle := hmax e (by rw [← hlist1]; simp [hel]) (le_of_lt (hl1 e hel))
      rw [hLe, List.mem_append, List.mem_singleton] at hcl
      rcases hcl with hcl | rfl
      · rw [hLe] at hsl
        have := (List.pairwise_append.mp hsl).2.2 c hcl e (by simp)
        omega
      · rfl
    have hokc : h1.Ok c := hrep.shape.ok_mem (x := c) (by simp [hcl])
    obtain ⟨vc, hvc, -, -, -, -, hvcs, hvce, -⟩ := h1.cell_eq hokc
    rw [hf.start] at hvcs
    rw [hf.stop] at hvce
    simp [hprev, hlast, hvc, hvcs, hvce, hck, hkc]

/-- A struct that starts at the address but does not reach past it fails the assert. -/
theorem spTreeFindAndLock_empty {h : Heap} {T : Tree Ref} {c : Ref} (hr : Rep h T)
    (hc : c ∈ T.toList)
    (he : h.stop c ≤ h.start c) : spTreeFindAndLock h (h.start c) = none := by
  have hT : T ≠ nil := by
    rintro rfl
    simp at hc
  obtain ⟨h1, l, t, r, he1, hrep, hlist1, hf, hl1, hr1, -⟩ := splayToRoot_spec (h.start c) hr hT
  obtain rfl : c = t := root_of_start (hlist1 ▸ hc) rfl hl1 hr1
  obtain ⟨vt, hvt, -, -, -, -, hvts, hvte, -⟩ := h1.cell_eq hrep.shape.1
  rw [hf.start] at hvts
  rw [hf.stop] at hvte
  have hnot : ¬ h.start c < h.stop c := by omega
  unfold spTreeFindAndLock
  simp [he1, hr.root, hvt, hvts, hvte, hnot]

end OpenOOC
