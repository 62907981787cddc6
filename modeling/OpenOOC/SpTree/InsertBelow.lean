import OpenOOC.SpTree.Lost

/-! `S_sp_tree_insert_helper` below any struct of the tree, the root or not: it
returns, and what is found from the structs stays among them and the new one. -/

namespace OpenOOC

open Links SplayTree SplayTree.Tree Returns

variable {h : Heap} {S : Finset Node} {T : Tree Ref} {X : Ref → Prop} {t z : Ref} {b : Ptr}
  {w : Which}

structure Sound (h : Heap) (X : Ref → Prop) : Prop where
  ok : ∀ x, X x → h.Ok x
  child : ClosedUnder h X
  next : ∀ x, X x → ∀ y, h.next x = some y → X y
  prev : ∀ x, X x → ∀ y, h.prev x = some y → X y

theorem Linked.sound (hl : Linked h S T) : Sound h (· ∈ T.toList) := by
  refine ⟨fun x hx => hl.shape.ok_mem hx, hl.shape.closedUnder, fun x hx y hy => ?_,
    fun x hx y hy => ?_⟩
  · obtain ⟨n, hn, rfl⟩ := hl.node_of_mem hx
    rcases hl.next_cases hn with ⟨hnext, -⟩ | ⟨q, hq, hnext⟩
    · rw [hnext] at hy
      cases hy
    · obtain rfl : q.ref = y := Option.some.inj (hnext.symm.trans hy)
      exact hl.ref_mem hq.1
  · obtain ⟨n, hn, rfl⟩ := hl.node_of_mem hx
    rcases hl.prev_cases hn with ⟨hprev, -⟩ | ⟨p, hp, hprev⟩
    · rw [hprev] at hy
      cases hy
    · obtain rfl : p.ref = y := Option.some.inj (hprev.symm.trans hy)
      exact hl.ref_mem hp.1

/-! ### The list -/

def ListGets (h h' : Heap) (t z : Ref) : Prop :=
  ∀ L, Seg h.next h.prev none L none → L.Nodup → t ∈ L → z ∉ L →
    ∃ L', Seg h'.next h'.prev none L' none ∧ ∀ x, x ∈ L' ↔ x = z ∨ x ∈ L

structure PutNext (h h' : Heap) (X : Ref → Prop) (t z : Ref) : Prop where
  links : ListLinksOnly h h'
  next : ∀ x, x = z ∨ X x → ∀ y, h'.next x = some y → y = z ∨ X y
  prev : ∀ x, x = z ∨ X x → ∀ y, h'.prev x = some y → y = z ∨ X y
  list : ListGets h h' t z

theorem Sound.putBefore (hX : Sound h X) (ht : X t) (hz : h.Ok z) (hzX : ¬ X z) :
    ∃ h', fixListLt h (some z) (some t) = some h' ∧ PutNext h h' X t z := by
  have hzt : z ≠ t := fun he => hzX (he ▸ ht)
  obtain ⟨h', he, hf, hn, hp⟩ := fixListLt_eq hz (hX.ok t ht) hzt fun x hx =>
    ⟨hX.ok x (hX.prev t ht x hx), fun he => hzX (he ▸ hX.prev t ht x hx)⟩
  refine ⟨h', he, hf, fun x hx y hy => ?_, fun x hx y hy => ?_, fun L hL hnd htL hzL => ?_⟩
  · rw [hn] at hy
    split_ifs at hy with hxz hxp
    · exact Or.inr (Option.some.inj hy ▸ ht)
    · exact Or.inl (Option.some.inj hy).symm
    · exact Or.inr (hX.next x (hx.resolve_left hxz) y hy)
  · rw [hp] at hy
    split_ifs at hy with hxz hxt
    · exact Or.inr (hX.prev t ht y hy)
    · exact Or.inl (Option.some.inj hy).symm
    · exact Or.inr (hX.prev x (hx.resolve_left hxz) y hy)
  · obtain ⟨L1, L2, rfl⟩ := List.append_of_mem htL
    have hprev : h.prev t = L1.getLast? := by rw [hL.prev_of_mem, Option.or_none]
    have hzL' : ∀ b ∈ L1 ++ t :: L2, b ≠ z := fun b hb he => hzL (he ▸ hb)
    refine ⟨L1 ++ z :: t :: L2, hL.link ?_ ?_ ?_ (fun b hb => ?_) fun b hb => ?_, fun x => ?_⟩
    · exact List.perm_middle.nodup_iff.mpr (List.nodup_cons.mpr ⟨hzL, hnd⟩)
    · rw [hn, if_pos rfl]
      rfl
    · rw [hp, if_pos rfl, hprev, Option.or_none]
    · rw [hn, if_neg (hzL' b hb), hprev]
    · rw [hp, if_neg (hzL' b hb)]
      simp only [List.head?_cons, Option.some.injEq, eq_comm]
    · simp only [List.mem_append, List.mem_cons]
      tauto

theorem Sound.putAfter (hX : Sound h X) (ht : X t) (hz : h.Ok z) (hzX : ¬ X z) :
    ∃ h', fixListGt h (some z) (some t) = some h' ∧ PutNext h h' X t z := by
  have hzt : z ≠ t := fun he => hzX (he ▸ ht)
  obtain ⟨h', he, hf, hn, hp⟩ := fixListGt_eq hz (hX.ok t ht) hzt fun x hx =>
    ⟨hX.ok x (hX.next t ht x hx), fun he => hzX (he ▸ hX.next t ht x hx)⟩
  refine ⟨h', he, hf, fun x hx y hy => ?_, fun x hx y hy => ?_, fun L hL hnd htL hzL => ?_⟩
  · rw [hn] at hy
    split_ifs at hy with hxz hxt
    · exact Or.inr (hX.next t ht y hy)
    · exact Or.inl (Option.some.inj hy).symm
    · exact Or.inr (hX.next x (hx.resolve_left hxz) y hy)
  · rw [hp] at hy
    split_ifs at hy with hxz hxn
    · exact Or.inr (Option.some.inj hy ▸ ht)
    · exact Or.inl (Option.some.inj hy).symm
    · exact Or.inr (hX.prev x (hx.resolve_left hxz) y hy)
  · obtain ⟨L1, L2, rfl⟩ := List.append_of_mem htL
    have hnext : h.next t = L2.head? := by rw [hL.next_of_mem, Option.or_none]
    have hzL' : ∀ b ∈ (L1 ++ [t]) ++ L2, b ≠ z := fun b hb he => hzL (he ▸ by simpa using hb)
    have hL' : Seg h.next h.prev none ((L1 ++ [t]) ++ L2) none := by simpa using hL
    refine ⟨(L1 ++ [t]) ++ z :: L2, hL'.link ?_ ?_ ?_ (fun b hb => ?_) fun b hb => ?_, fun x => ?_⟩
    · refine List.perm_middle.nodup_iff.mpr
        (List.nodup_cons.mpr ⟨by simpa using hzL, by simpa using hnd⟩)
    · rw [hn, if_pos rfl, hnext, Option.or_none]
    · rw [hp, if_pos rfl]
      simp
    · rw [hn, if_neg (hzL' b hb)]
      simp only [List.getLast?_append, List.getLast?_singleton, Option.some_or, Option.some.injEq,
        eq_comm]
    · rw [hp, if_neg (hzL' b hb), hnext]
    · simp only [List.mem_append, List.mem_cons, List.not_mem_nil, or_false]
      tauto

/-! ### The tree -/

/-- The tree surgery of the insertion, with `b` the child of `t` that moves to `z`. -/
theorem newRoot_returns (hz : h.Ok z) (ht : h.Ok t) (hzt : z ≠ t) (hzp : h.par z = none)
    (hb : ∀ x, b = some x → h.Ok x ∧ x ≠ z) :
    ∃ h1 h2 h3, makeChild h (some z) w b = some h1 ∧
      makeChild h1 (some z) w.flip (some t) = some h2 ∧
      (h2.upd (some t) fun v => v.setChild none w) = some h3 ∧ h3.par z = none ∧
      h3.child w.flip z = some t ∧
      (∀ x, h3.data x = h.data x) ∧ ∀ x, x ≠ z → x ≠ t → some x ≠ b → h3.par x = h.par x := by
  set h1 := h.linkChild z w b with hh1
  have hz1 : h1.Ok z := (ok_linkChild z).mpr hz
  have ht1 : h1.Ok t := (ok_linkChild t).mpr ht
  have hbt : ∀ x, some t = some x → h1.Ok x ∧ x ≠ z := by
    intro x hx
    obtain rfl := Option.some.inj hx
    exact ⟨ht1, hzt.symm⟩
  set h2 := h1.linkChild z w.flip (some t) with hh2
  have ht2 : h2.Ok t := (ok_linkChild t).mpr ht1
  have hpar1 := par_linkChild (w := w) hz hb
  have hpar2 := par_linkChild (w := w.flip) hz1 hbt
  have hzp1 : h1.par z = none := by rw [hh1, hpar1, if_pos rfl, hzp, ite_self]
  refine ⟨h1, h2, h2.clearChild t w, makeChild_eq w hz hb, makeChild_eq w.flip hz1 hbt,
    h2.upd_eq ht2 _, ?_, ?_, ?_, ?_⟩
  · rw [par_clearChild, hh2, hpar2, if_pos rfl, hzp1, ite_self]
  · rw [child_clearChild, if_neg (by simp), hh2, child_linkChild hz1, if_pos ⟨rfl, rfl⟩]
  · intro x
    rw [data_clearChild, hh2, data_linkChild, hh1, data_linkChild]
  · intro x hxz hxt hxb
    rw [par_clearChild, hh2, hpar2, if_neg hxz, if_neg (by simpa using hxt), hh1, hpar1, if_neg hxz,
      if_neg hxb]

/-- `h'` is `h` after `z` was put above `t`. -/
structure PutAbove (h h' : Heap) (X : Ref → Prop) (t z : Ref) : Prop where
  sound : Sound h' fun x => x = z ∨ X x
  root : h'.root = some z
  par : h'.par z = none
  child : ∃ w, h'.child w z = some t
  links : LinksOnly h h'
  outside : ∀ x, x ≠ z → ¬ X x → h'.par x = h.par x
  list : ListGets h h' t z

/-- The insertion ends with the new root, once the list is done. -/
theorem PutNext.above {h1 h4 : Heap} (hn : PutNext h h1 X t z) (hX : Sound h X) (ht : X t)
    (hz : h.Ok z)
    (hroot : h.root ≠ none) (he : sSpTreeInsertHelper h (some t) (some z) =
    some { h4 with root := some z })
    (hp4 : h4.par z = none) (hc4 : h4.child w.flip z = some t) (hd4 : ∀ x, h4.data x = h1.data x)
    (ho4 : ∀ x, x ≠ z → x ≠ t → some x ≠ h1.child w t → h4.par x = h1.par x) :
    PutAbove h { h4 with root := some z } X t z := by
  have hl := sSpTreeInsertHelper_linksOnly (.refl h) _ he
  refine ⟨⟨fun x hx => (hl.ok x).mpr ?_, insertHelper_closed hX.child ht hroot _ he, ?_, ?_⟩, rfl,
    hp4, ⟨_, hc4⟩, hl, ?_, ?_⟩
  · rcases hx with rfl | hx
    · exact hz
    · exact hX.ok x hx
  · intro x hx y hy
    exact hn.next x hx y ((range_of_data (hd4 x)).2.1 ▸ hy)
  · intro x hx y hy
    exact hn.prev x hx y ((range_of_data (hd4 x)).2.2 ▸ hy)
  · intro x hxz hxX
    obtain ⟨hc, hp, -⟩ := hn.links.views x
    have hb : some x ≠ h1.child w t := fun hb =>
      hxX (hX.child t ht w x (((hn.links.views t).1 w).symm.trans hb.symm))
    exact (ho4 x hxz (fun he => hxX (he ▸ ht)) hb).trans hp
  · intro L hL hnd htL hzL
    obtain ⟨L', hL', hmem⟩ := hn.list L hL hnd htL hzL
    exact ⟨L', hL'.congr (fun x _ => (range_of_data (hd4 x)).2.1) fun x _ =>
      (range_of_data (hd4 x)).2.2, hmem⟩

/-- The insertion returns wherever it starts. -/
theorem Sound.insert (hX : Sound h X) (ht : X t) (hz : h.Ok z) (hzX : ¬ X z) (hzp : h.par z = none)
    (hroot : h.root ≠ none) (hne : h.start t ≠ h.start z) :
    ∃ h', sSpTreeInsertHelper h (some t) (some z) = some h' ∧ PutAbove h h' X t z := by
  have hto := hX.ok t ht
  have hzt : z ≠ t := fun he => hzX (he ▸ ht)
  obtain ⟨vz, hvz, -, -, -, -, hvzs, -⟩ := h.cell_eq hz
  obtain ⟨vt, hvt, -, -, -, -, hvts, -⟩ := h.cell_eq hto
  have hsurgery {h1 : Heap} (hn : PutNext h h1 X t z) (w : Which) :=
    newRoot_returns (w := w) ((hn.links.ok z).mpr hz) ((hn.links.ok t).mpr hto) hzt
      ((hn.links.views z).2.1.trans hzp) (b := h1.child w t) fun x hx => by
        have hxX := hX.child t ht w x (((hn.links.views t).1 w).symm.trans hx)
        exact ⟨(hn.links.ok x).mpr (hX.ok x hxX), fun he => hzX (he ▸ hxX)⟩
  by_cases hlt : h.start z < h.start t
  · obtain ⟨h1, he1, hn⟩ := hX.putBefore ht hz hzX
    obtain ⟨h2, h3, h4, he2, he3, he4, hp4, hc4, hd4, ho4⟩ := hsurgery hn .spL
    obtain ⟨vt1, hvt1, hvtc1, -⟩ := h1.cell_eq ((hn.links.ok t).mpr hto)
    have he2' : makeChild h1 (some z) .spL vt1.spL = some h2 := by rw [← he2, ← hvtc1]; rfl
    have he3' : makeChild h2 (some z) .spR (some t) = some h3 := he3
    have he4' : (h3.upd (some t) fun v => { v with spL := none }) = some h4 := he4
    have he : sSpTreeInsertHelper h (some t) (some z) = some { h4 with root := some z } := by
      unfold sSpTreeInsertHelper
      rw [if_neg hroot]
      simp only [Heap.get_some, hvz, hvt, hvzs, hvts, if_pos hlt, he1, hvt1, he2', he3', he4',
        Option.bind_eq_bind,
        Option.bind_some, Option.pure_def]
    exact ⟨_, he, hn.above hX ht hz hroot he hp4 hc4 hd4 ho4⟩
  · have hgt : h.start t < h.start z := by omega
    obtain ⟨h1, he1, hn⟩ := hX.putAfter ht hz hzX
    obtain ⟨h2, h3, h4, he2, he3, he4, hp4, hc4, hd4, ho4⟩ := hsurgery hn .spR
    obtain ⟨vt1, hvt1, hvtc1, -⟩ := h1.cell_eq ((hn.links.ok t).mpr hto)
    have he2' : makeChild h1 (some z) .spR vt1.spR = some h2 := by rw [← he2, ← hvtc1]; rfl
    have he3' : makeChild h2 (some z) .spL (some t) = some h3 := he3
    have he4' : (h3.upd (some t) fun v => { v with spR := none }) = some h4 := he4
    have he : sSpTreeInsertHelper h (some t) (some z) = some { h4 with root := some z } := by
      unfold sSpTreeInsertHelper
      rw [if_neg hroot]
      simp only [Heap.get_some, hvz, hvt, hvzs, hvts, if_neg hlt, hgt, guard_true, he1, hvt1, he2',
        he3', he4',
        Option.bind_eq_bind, Option.bind_some, Option.pure_def]
    exact ⟨_, he, hn.above hX ht hz hroot he hp4 hc4 hd4 ho4⟩

end OpenOOC
