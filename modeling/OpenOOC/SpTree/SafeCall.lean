import OpenOOC.SpTree.Coalesced
import OpenOOC.SpTree.StaleRoot

/-! Which calls of `sp_tree_find_mod_and_lock` reach their end, on any tree of disjoint
ranges: no struct from `vma_alloc` may be missing, and the 3-way merge must not ask a
`vm_prev` that is NULL. -/

namespace OpenOOC

open Links SplayTree SplayTree.Tree Returns

variable {ps : PageSize} {h h' : Heap} {S : Finset Node} {T l r : Tree Ref} {n p t : Node} {k : ℕ}
  {z : Addr}

/-! ### Safe calls -/

/-- The `assert` of `S_sp_tree_insert_helper` does not hold. -/
def InsertAsserts (h : Heap) (t z : Ptr) : Prop :=
  ∃ vt vz, h.get t = some vt ∧ h.get z = some vz ∧ ¬ vz.vmStart < vt.vmStart ∧
    ¬ vt.vmStart < vz.vmStart

/-- The call gets as far as the first insertion of a mid split, and the assert stops it there. -/
def StopsAtAssert (ps : PageSize) (h : Heap) (k : ℕ) : Prop :=
  ∃ h1 t n v h2 z y, sSpTreeSplay h k h.root = some (h1, t) ∧ coveringNode h1 k t = some n ∧
    h1.get n = some v ∧
    v.vmStart ≠ k ∧ v.vmEnd ≠ ps.after k ∧ midSplitNodes ps h1 k n = some (h2, z, y) ∧
    InsertAsserts h2 h2.root y

theorem InsertAsserts.stops {y : Ptr} (ha : InsertAsserts h h.root y) :
    sSpTreeInsertHelper h h.root y = none := by
  obtain ⟨vt, vz, ht, hz, h1, h2⟩ := ha
  have hroot : h.root ≠ none := fun hr => by
    rw [hr] at ht
    exact nomatch ht
  unfold sSpTreeInsertHelper
  simp [hroot, ht, hz, h1, h2]

theorem StopsAtAssert.stops (hs : StopsAtAssert ps h k) : spTreeFindMod ps h k = none := by
  obtain ⟨h1, t, n, v, h2, z, y, e1, hcov, hv, hvs, hve, e2, ha⟩ := hs
  have hn : n ≠ none := fun hn => by
    rw [hn] at hv
    exact nomatch hv
  have hroot : h.root ≠ none := fun hr => by
    rw [hr] at e1
    obtain ⟨-, rfl⟩ := Prod.mk.inj (Option.some.inj e1)
    exact nomatch hcov
  unfold spTreeFindMod
  rw [if_neg hroot]
  simp only [e1, hcov, Option.bind_eq_bind, Option.bind_some, if_neg hn]
  unfold modPage
  simp only [hv, Option.bind_eq_bind, Option.bind_some]
  rw [if_pos ⟨hvs, hve⟩, midSplit_eq_bind, e2, Option.bind_some, ha.stops]
  rfl

def AllocFailed (h h' : Heap) : Prop := ∃ new, h'.calls = h.calls ++ new ∧ VmaCall.alloc none ∈ new

/-- The call neither reads nor writes through NULL or in a struct that it gave back, and
if `vma_alloc` fails, the nodes are those of before. -/
def SafeCall (ps : PageSize) (h : Heap) (S : Finset Node) (k : ℕ) : Prop :=
  StopsAtAssert ps h k ∨
    ∃ h' z, spTreeFindMod ps h k = some (h', z) ∧ (AllocFailed h h' → ∃ T', Holds h' S T')

/-- What a call for an address of `n` asks of `vma_alloc` and of the neighbours. -/
structure CallServed (ps : PageSize) (S : Finset Node) (n : Node) (k : ℕ)
    (supply : List (Option (Addr × VmArea))) :
    Prop where
  mid (hs : n.start ≠ k) (he : n.stop ≠ ps.after k) : Serves supply 2
  prefixSplit (hs : n.start = k) (he : n.stop ≠ ps.after k)
    (hl : ∀ p, ¬ LeftOf S k (VM_PROT_PROMOTE n.flags) p) :
    Serves supply 1
  suffixSplit (hs : n.start ≠ k) (he : n.stop = ps.after k)
    (hr : ∀ q, ¬ RightOf S (ps.after k) (VM_PROT_PROMOTE n.flags) q) : Serves supply 1
  prev (hs : n.start = k) (he : n.stop = ps.after k) : ¬ ReadsNull S n

def AllocsServed (h h' : Heap) : Prop := ∃ got freed : List Addr,
  h'.calls = h.calls ++ got.map (fun a => .alloc (some a)) ++ freed.map .free

theorem AllocsServed.not_failed (hs : AllocsServed h h') : ¬ AllocFailed h h' := by
  rintro ⟨new, hnew, hmem⟩
  obtain ⟨got, freed, hcalls⟩ := hs
  rw [hcalls, List.append_assoc] at hnew
  rw [← List.append_cancel_left hnew] at hmem
  simp at hmem

theorem allocsServed_append (hc : h'.calls = h.calls) : AllocsServed h h' := ⟨[], [], by simp [hc]⟩

/-! ### Calls that return -/

theorem midSplitNodes_serves {c : Ptr} : Ensures (midSplitNodes ps h k c) fun _ =>
    Serves h.supply 2 :=
  .bind (.any _) fun _ _ => .bind newNode_serves fun ⟨h1, _⟩ ⟨u, hu⟩ => .bind (.any _) fun _ _ =>
  .bind (.any _) fun _ _ =>
  .bind newNode_serves fun ⟨h2, _⟩ ⟨u', hu'⟩ => fun _ _ =>
  ⟨[u, u'], h2.supply, rfl, by rw [hu, hu']; rfl⟩

theorem after_ne (hk : k < 2 ^ 64) : ps.after k ≠ k := by
  have hpos := ps.bytes_pos
  have hlt : ps.bytes < 2 ^ 64 := Nat.pow_lt_pow_right (by decide) ps.lt_word
  unfold PageSize.after
  by_cases hwrap : k + ps.bytes < 2 ^ 64
  · rw [Nat.mod_eq_of_lt hwrap]
    omega
  · rw [Nat.mod_eq_sub_mod (by omega), Nat.mod_eq_of_lt (by omega)]
    omega

theorem Holds.root_node {x : Ref} (hh : Holds h S (node l x r)) : IsRoot h (some x) := by
  obtain ⟨v, hv, -, hvp, -⟩ := h.cell_eq (hh.rep.ok (x := x) (by simp))
  exact ⟨hh.rep.root, v, hv, hvp.trans (hh.rep.root_par _ rfl)⟩

namespace Linked

theorem prefixMigrate_returns (hl : Linked h S (node l t.ref r)) (hn : n ∈ S) (hpn : IsPrev S n p)
    (hne : n.stop ≠ ps.after k) :
    ∃ h' a, OpenOOC.prefixMigrate ps h k (some t.ref) (some n.ref) = some (h', some a) ∧
      IsRoot h' (some a) ∧
      h'.calls = h.calls ∧ a ∈ (node l t.ref r).toList ∧
      (∀ x, h'.next x = h.next x ∧ h'.prev x = h.prev x) ∧
      h'.range n.ref = some (n.flags, ps.after k, n.stop) ∧
      h'.range p.ref = some (p.flags, p.start, ps.after k) := by
  obtain ⟨v, hv, hvp, -, hvf, -, hve⟩ := hl.get_ref hn
  have hprev : h.prev n.ref = some p.ref := by
    rcases hl.prev_cases hn with ⟨-, hmin⟩ | ⟨p1, hp1, hprev⟩
    · have := hmin p hpn.1
      have := hpn.2.1
      omega
    · rw [hprev, hl.isPrev_unique hp1 hpn]
  set h1 := h.modify n.ref fun v => { v with vmStart := ps.after k } with hh1
  set h2 := h1.modify p.ref fun v => { v with vmEnd := ps.after k } with hh2
  have hs : SameLinks (fun _ => False) h h2 :=
    (SameLinks.modify (keepsLinks_start _) n.ref).trans (.modify (keepsLinks_stop _) p.ref)
  have hok {x : Ref} : h2.Ok x ↔ h.Ok x := hs.ok x not_false
  have hshape : Shape h2 (node l t.ref r) :=
    hl.shape.congr (fun x _ hx => hok.mpr hx) (fun x _ w => hs.child w x not_false)
    fun x _ => hs.par x not_false
  obtain ⟨w, hw⟩ := Option.isSome_iff_exists.mp (hok.mpr (hl.ok hpn.1))
  have hst : h2.cell .stack = none := by
    rw [← Option.not_isSome_iff_eq_none]
    exact fun hx => absurd (hok.mp hx) (by simp [Heap.Ok, hl.stack])
  obtain ⟨h3, l3, a, r3, hsp, e3, hs3, hpar, -, hf⟩ :=
    sSpTreeSplay_eq w.vmStart hshape hl.nodup hst (by simp)
  have hnp : n.ref ≠ p.ref := fun he => by
    have := hpn.2.1
    rw [hl.eq_of_ref hn hpn.1 he] at this
    exact lt_irrefl _ this
  refine ⟨{ h3 with root := some a }, a, ?_, ⟨rfl, ?_⟩, ?_, ?_, fun x => ?_, ?_, ?_⟩
  · unfold OpenOOC.prefixMigrate
    simp only [hv, hvp, hve, hprev, if_neg hne.symm, Option.bind_eq_bind, Option.bind_some,
      Option.pure_def]
    rw [Heap.upd_eq _ (hl.ok hn), Option.bind_some,
      Heap.upd_eq _ ((h.ok_modify _ _ _).mpr (hl.ok hpn.1)), Option.bind_some]
    change (h2.cell p.ref).bind _ = _
    rw [hw, Option.bind_some]
    change (sSpTreeSplay h2 w.vmStart (node l t.ref r).root?).bind _ = _
    rw [e3]
    rfl
  · obtain ⟨u, hu, -, hup, -⟩ := h3.cell_eq hs3.1
    exact ⟨u, hu, hup.trans hpar⟩
  · change h3.calls = _
    rw [hf.same]
    rfl
  · rw [← toList_splay (heapCmp h2 w.vmStart), hsp]
    simp
  · obtain ⟨-, hn3, hp3⟩ := range_of_data (hf.data x)
    exact ⟨hn3.trans (hs.next x not_false), hp3.trans (hs.prev x not_false)⟩
  · refine ((range_of_data (hf.data n.ref)).1).trans ?_
    rw [Heap.range, hh2, Heap.cell_modify, if_neg hnp, hh1, Heap.cell_modify, if_pos rfl]
    change Option.map _ (Option.map _ (h.get (some n.ref))) = _
    rw [hv]
    simp [hvf, hve]
  · refine ((range_of_data (hf.data p.ref)).1).trans ?_
    obtain ⟨u, hu, -, -, huf, hus, -⟩ := hl.get_ref hpn.1
    rw [Heap.range, hh2, Heap.cell_modify, if_pos rfl, hh1, Heap.cell_modify, if_neg hnp.symm]
    change Option.map _ (Option.map _ (h.get (some p.ref))) = _
    rw [hu]
    simp [huf, hus]

/-- A mid split whose rest starts where `sp->root` does. -/
theorem midSplit_asserts (hl : Linked h S T) (hn : n ∈ S) {x : Ref} (hroot : h.root = some x)
    (hx : x ∈ T.toList)
    (hsup : Supplied S h.supply) (hs : Serves h.supply 2) (hxk : h.start x = ps.after k) :
    ∃ h2 z y, midSplitNodes ps h k (some n.ref) = some (h2, z, y) ∧ InsertAsserts h2 h2.root y := by
  obtain ⟨z, v, y, w, rest, hsupply⟩ := serves_two.mp hs
  have hz : Fresh S z := hsup.fresh (z, v) (by simp [hsupply])
  have hy : Fresh S y := hsup.fresh (y, w) (by simp [hsupply])
  obtain ⟨u, hu, -⟩ := hl.cell hn
  refine ⟨_, _, _, midSplitNodes_eq hsupply hu (hl.ref_ne hn hz) (hl.ref_ne hn hy), ?_⟩
  set h2 := h.splitMid n.ref z y u.vmFlags k (ps.after k) u.vmEnd with hh2
  obtain ⟨m, hm, rfl⟩ := hl.node_of_mem hx
  have hl1 : Linked (h.withPage z (VM_PROT_PROMOTE u.vmFlags) k (ps.after k)) S T :=
    hl.withNode (hl.fresh_notMem hz)
  have hmstart : h2.start m.ref = ps.after k :=
    (hl1.start_setStop hn hy hm).trans ((hl.views hm).2.1.symm.trans hxk)
  have hycell : h2.cell (.vma y) = some
      ⟨none, none, none, none, none, u.vmFlags, ps.after k, u.vmEnd⟩ := by
    rw [hh2, Heap.splitMid, Heap.cell_modify, if_neg (hl.ref_ne hn hy).symm, cell_withPage,
      if_pos rfl]
  have hok : h2.Ok m.ref := by
    rw [hh2, Heap.splitMid, Heap.ok_modify, Heap.Ok, cell_withPage, if_neg (hl.ref_ne hm hy)]
    exact hl1.ok hm
  obtain ⟨a, ha, -, -, -, -, has, -⟩ := h2.cell_eq hok
  refine ⟨a, _, ?_, hycell, ?_⟩
  · change h2.get h.root = _
    rw [hroot]
    exact ha
  · simp only [has, hmstart, lt_irrefl, not_false_eq_true, and_self]

/-- A page of a node with other addresses: the node for the page is the root, unless the
assert stops the call. -/
theorem modPage_returns (hl : Linked h S (node l t.ref r)) (ps : PageSize) (hp : RangesOk S)
    (hk : k < 2 ^ 64) (ht : t ∈ S)
    (hlo : ∀ b ∈ S, b.start < t.start → b.start < k) (hn : n ∈ S) (hc : n.Covers k)
    (htn : n = t ∨ IsPrev S t n) {x : Ref}
    (hroot : h.root = some x) (hx : x ∈ (node l t.ref r).toList) (hsup : Supplied S h.supply)
    (hs : CallServed ps S n k h.supply) :
    (∃ h' c, OpenOOC.modPage ps h k (some t.ref) (some n.ref) = some (h', c) ∧ AllocsServed h h' ∧
      (¬ (n.start = k ∧ n.stop = ps.after k) → IsRoot h' c)) ∨
    (n.start ≠ k ∧ n.stop ≠ ps.after k) ∧ ∃ h2 z y,
      midSplitNodes ps h k (some n.ref) = some (h2, z, y) ∧
      InsertAsserts h2 h2.root y := by
  have hafter : ps.after k ≠ k := after_ne hk
  have htn' (hs : n.start = k) : t = n := by
    rcases htn with rfl | hprev
    · rfl
    · have := hlo n hn hprev.2.1
      omega
  by_cases hsk : n.start = k <;> by_cases hse : n.stop = ps.after k
  · obtain rfl := htn' hsk
    obtain ⟨h', T', R, M, x, freed, e, -, -, -, hcalls, -⟩ :=
      hl.threeWayMerge hp hn (hs.prev hsk hse)
    rw [hl.modPage_single hn rfl hsk hse]
    exact .inl ⟨h', _, e, ⟨[], freed, by simp [hcalls]⟩, fun hne => absurd ⟨hsk, hse⟩ hne⟩
  · obtain rfl := htn' hsk
    rcases hl.modPage_prefix (p := some t.ref) hp hn rfl hsk hse with ⟨p, hpl, e0⟩ | ⟨hno, e0⟩
    · obtain ⟨h', a, e, hc, hcalls, -⟩ :=
        hl.prefixMigrate_returns hn (hp.isPrev hpl.1 (hpl.2.1.trans hsk.symm)) hse
      exact .inl ⟨h', _, e0.trans e, allocsServed_append hcalls, fun _ => hc⟩
    · obtain ⟨z, v, rest, hsupply⟩ := serves_one.mp (hs.prefixSplit hsk hse hno)
      obtain ⟨h', e, hput⟩ := hl.prefixSplit_returns hroot hx hn
        (hsup.fresh (z, v) (by simp [hsupply])) ps hsk hafter hsupply
      refine .inl ⟨h', _, e0.trans e, ⟨[z], [], ?_⟩, fun _ => hput.isRoot⟩
      rw [hput.links.calls]
      simp [Heap.splitPrefix, Heap.withPage, Heap.withNode]
  · rcases hl.modPage_suffix (p := some t.ref) hp hn rfl hsk hse with ⟨q, hqr, e0⟩ | ⟨hno, e0⟩
    · obtain ⟨h', l', r', e, hh', -, hcalls⟩ :=
        hl.suffixMigrate hp hn (lt_of_le_of_ne hc.1 hsk) hc.2 (hse ▸ hqr)
      exact .inl ⟨h', _, e0.trans e, allocsServed_append hcalls, fun _ => hh'.root_node⟩
    · obtain ⟨z, v, rest, hsupply⟩ := serves_one.mp (hs.suffixSplit hsk hse hno)
      have hnk (m : Node) (hm : m ∈ S) : m.start ≠ k := fun he =>
        have hmn : m ≠ n := fun hmn => hsk (hmn ▸ he)
        hp.disjoint m hm n hn hmn k ⟨⟨he.le, he ▸ hp.nonempty m hm⟩, hc⟩
      obtain ⟨h', e, hput⟩ := hl.suffixSplit_returns hroot hx hn
        (hsup.fresh (z, v) (by simp [hsupply])) ps hnk hsupply
      refine .inl ⟨h', _, e0.trans e, ⟨[z], [], ?_⟩, fun _ => hput.isRoot⟩
      rw [hput.links.calls]
      simp [Heap.splitSuffix, Heap.withPage, Heap.withNode]
  · obtain ⟨z, v, y, w, rest, hsupply⟩ := serves_two.mp (hs.mid hsk hse)
    have hz : Fresh S z := hsup.fresh (z, v) (by simp [hsupply])
    have hy : Fresh S y := hsup.fresh (y, w) (by simp [hsupply])
    by_cases hne : h.start x = ps.after k
    · exact .inr ⟨⟨hsk, hse⟩, hl.midSplit_asserts hn hroot hx hsup (hs.mid hsk hse) hne⟩
    · obtain ⟨h', e, hr, -, -, -, -, hcalls⟩ := hl.midSplit_returns hroot hx hn hz ps hy
        (hsup.distinct z v y w rest hsupply) hne hafter hsupply
      refine .inl ⟨h', _, (hl.modPage_mid hn rfl hsk hse).trans e, ⟨[z, y], [], by simp [hcalls]⟩,
        fun _ => hr⟩

theorem addPage_returns (hl : Linked h S (node l t.ref r)) (ps : PageSize) (ht : t ∈ S)
    (hroot : h.root ≠ none) (hne : t.start ≠ k)
    (hlo : ∀ b ∈ S, b.start < t.start → b.start < k)
    (hhi : ∀ b ∈ S, t.start < b.start → k < b.start) {v : VmArea}
    {rest : List (Option (Addr × VmArea))} (hs : h.supply = some (z, v) :: rest) (hz : Fresh S z) :
    ∃ h' c, OpenOOC.addPage ps h k (some t.ref) = some (h', c) ∧ AllocsServed h h' := by
  have hnext (freed : List Addr) {h1 : Heap} {S1 : Finset Node} {l1 r1 : Tree Ref} {m : Node}
      (hl1 : Linked h1 S1 (node l1 m.ref r1)) (hm : m ∈ S1)
      (hc : h1.calls = h.calls ++ .alloc (some z) :: freed.map .free) :
      ∃ h' c, ((h1.get (some m.ref)).bind fun v => mergeNext h1 (some m.ref) v.vmFlags) =
        some (h', c) ∧ AllocsServed h h' := by
    rw [hl1.mergeNext_live hm]
    rcases hl1.mergeNext_isNext hm m.flags with ⟨q, h', T', -, -, e, -, -, hcalls, -⟩ | ⟨-, e⟩
    · exact ⟨h', _, e, [z], freed ++ [m.addr], by simp [hcalls, hc]⟩
    · exact ⟨h1, _, e, [z], freed, by simp [hc]⟩
  obtain ⟨h1, l1, r1, e1, hh1, -, -, hcalls1⟩ := hl.addPage_start ps ht hroot hne hlo hhi hs hz
  rw [e1]
  have hy : (⟨z, VM_PROT_READ, k, ps.after k⟩ : Node) ∈
      Insert.insert ⟨z, VM_PROT_READ, k, ps.after k⟩ S :=
    Finset.mem_insert_self _ S
  rcases hh1.linked.mergePrev_isPrev hy VM_PROT_READ with
    ⟨p, h2, l2, r2, -, -, e2, hh2, -, hcalls2, -⟩ | ⟨-, e2⟩
  · change mergePrev h1 (some (.vma z)) VM_PROT_READ = _ at e2
    rw [e2, Option.bind_some]
    exact hnext [z] (m := { p with stop := ps.after k }) hh2.linked (by simp)
      (by simp [hcalls2, hcalls1])
  · change mergePrev h1 (some (.vma z)) VM_PROT_READ = _ at e2
    rw [e2, Option.bind_some]
    exact hnext [] hh1.linked hy (by simp [hcalls1])

end Linked

namespace Holds

theorem findMod_returns (hh : Holds h S T) (hp : RangesOk S) (hk : k < 2 ^ 64) (hn : n ∈ S)
    (hc : n.Covers k)
    (hsup : Supplied S h.supply) (hs : CallServed ps S n k h.supply) :
    (∃ h' c, spTreeFindMod ps h k = some (h', c) ∧ AllocsServed h h' ∧
      (¬ (n.start = k ∧ n.stop = ps.after k) → IsRoot h' c)) ∨ StopsAtAssert ps h k := by
  have hT := hh.ne_nil hn
  obtain ⟨h1, l, t, r, -, ht, he1, hl1, hroot, -, hsup1, hcalls1, hlo, hhi⟩ := hh.splayed hT k
  obtain ⟨hcov1, htn⟩ := hl1.coveringNode hp ht hlo hhi hn hc
  obtain ⟨x, hx⟩ := Option.ne_none_iff_exists'.mp
    (show h1.root ≠ none by rwa [hroot, hh.rep.root, ne_eq, root?_eq_none])
  have hxT : x ∈ (node l t.ref r).toList := by
    obtain ⟨m, hm, rfl, -⟩ := hh.node_of_mem (x := x)
      (root?_mem (by rw [← hh.rep.root, ← hroot, hx]))
    exact hl1.ref_mem hm
  rw [← hsup1] at hsup hs
  rcases hl1.modPage_returns ps hp hk ht hlo hn hc htn hx hxT hsup hs with
    ⟨h', c, e, ⟨got, freed, hcalls⟩, hr⟩ | ⟨⟨hsk, hse⟩, h2, z, y, e2, hassert⟩
  · refine .inl ⟨h', c, ?_, ⟨got, freed, hcalls1 ▸ hcalls⟩, hr⟩
    rw [hh.spTreeFindMod_eq hT he1 hcov1, if_neg (by simp), e]
  · obtain ⟨v, hv, -, -, -, hvs, hve⟩ := hl1.get_ref hn
    exact .inr ⟨h1, _, _, v, h2, z, y, he1, hcov1, hv, hvs ▸ hsk, hve ▸ hse, e2, hassert⟩

/-- A call that reaches its end, or the assert of a mid split, was served. -/
theorem findMod_served (hh : Holds h S T) (hp : RangesOk S) (hn : n ∈ S) (hc : n.Covers k)
    (hend : (∃ out, spTreeFindMod ps h k = some out) ∨ StopsAtAssert ps h k) :
    CallServed ps S n k h.supply := by
  have hT := hh.ne_nil hn
  obtain ⟨h1, l, t, r, -, ht, he1, hl1, -, -, hsup1, -, hlo, hhi⟩ := hh.splayed hT k
  obtain ⟨hcov1, htn⟩ := hl1.coveringNode hp ht hlo hhi hn hc
  have hT' : n.start = k → t = n := fun hs => by
    rcases htn with rfl | hprev
    · rfl
    · have := hlo n hn hprev.2.1
      omega
  rcases hend with ⟨out, he⟩ | ⟨h1', t', n', v, h2, z, y, he1', hcov1', hv, hvs, hve, e2, -⟩
  · rw [hh.spTreeFindMod_eq hT he1 hcov1, if_neg (by simp)] at he
    rw [← hsup1]
    refine ⟨fun hs hne => ?_, fun hs hne hno => ?_, fun hs hne hno => ?_, fun hs hne hnull => ?_⟩
    · rw [hl1.modPage_mid hn rfl hs hne] at he
      exact midSplit_serves out he
    · rcases hl1.modPage_prefix hp hn rfl hs hne with ⟨q, hq, -⟩ | ⟨-, e0⟩
      · exact absurd hq (hno q)
      · exact prefixSplit_serves out (e0 ▸ he)
    · rcases hl1.modPage_suffix hp hn rfl hs hne with ⟨q, hq, -⟩ | ⟨-, e0⟩
      · exact absurd hq (hno q)
      · exact suffixSplit_serves out (e0 ▸ he)
    · obtain rfl := hT' hs
      rw [hl1.modPage_single hn rfl hs hne, hl1.threeWayMerge_none hp hn hnull] at he
      cases he
  · obtain ⟨rfl, rfl⟩ := Prod.mk.inj (Option.some.inj (he1.symm.trans he1'))
    obtain rfl := Option.some.inj (hcov1.symm.trans hcov1')
    obtain ⟨w, hw, -, -, -, hws, hwe⟩ := hl1.get_ref hn
    obtain rfl := Option.some.inj (hw.symm.trans hv)
    rw [hws] at hvs
    rw [hwe] at hve
    have hserves := midSplitNodes_serves _ e2
    exact ⟨fun _ _ => hsup1 ▸ hserves, fun hs => absurd hs hvs, fun _ he => absurd he hve,
      fun hs => absurd hs hvs⟩

theorem not_stopsAtAssert (hh : Holds h S T) (hno : ∀ n ∈ S, ¬ n.Covers k) :
    ¬ StopsAtAssert ps h k := by
  rintro ⟨h1', t', n', v, h2, z, y, he1', hcov1', hv, -⟩
  by_cases hT : T = nil
  · have hroot : h.root = none := by rw [hh.rep.root, hT]; rfl
    rw [hroot] at he1'
    obtain ⟨-, rfl⟩ := Prod.mk.inj (Option.some.inj he1')
    exact nomatch hcov1'
  · obtain ⟨h1, l, t, r, -, ht, he1, hl1, -⟩ := hh.splayed hT k
    obtain ⟨rfl, rfl⟩ := Prod.mk.inj (Option.some.inj (he1.symm.trans he1'))
    obtain rfl := Option.some.inj ((hl1.coveringNode_none ht hno).symm.trans hcov1')
    exact nomatch hv

theorem findMod_adds (hh : Holds h S T) (ps : PageSize) (hp : RangesOk S)
    (hno : ∀ n ∈ S, ¬ n.Covers k) (hsup : Supplied S h.supply)
    (hs : Serves h.supply 1) : ∃ h' c, spTreeFindMod ps h k = some (h', c) ∧ AllocsServed h h' := by
  obtain ⟨z, v, rest, hs⟩ := serves_one.mp hs
  by_cases hT : T = nil
  · have hroot : h.root = none := by rw [hh.rep.root, hT]; rfl
    unfold spTreeFindMod
    rw [if_pos hroot, newNode_eq hs]
    exact ⟨_, _, rfl, [z], [], by simp [Heap.withNode]⟩
  · obtain ⟨h1, l, t, r, -, ht, he1, hl1, hroot, -, hsup1, hcalls1, hlo, hhi⟩ := hh.splayed hT k
    have hroot1 : h1.root ≠ none := by rwa [hroot, hh.rep.root, ne_eq, root?_eq_none]
    have hne : t.start ≠ k := fun he => hno t ht ⟨he.le, he ▸ hp.nonempty t ht⟩
    obtain ⟨h', c, e, got, freed, hcalls⟩ :=
      hl1.addPage_returns ps ht hroot1 hne hlo hhi (hsup1.trans hs)
      (hsup.fresh (z, v) (by simp [hs]))
    refine ⟨h', c, ?_, got, freed, hcalls1 ▸ hcalls⟩
    rw [hh.spTreeFindMod_eq hT he1 (hl1.coveringNode_none ht hno), if_pos rfl, e]

end Holds

/-! ### The call -/

/-- The call is safe exactly if no struct that it needs is missing, and no `vm_prev` that
is NULL is asked for its flags. -/
theorem find_mod_safe_iff (hh : Holds h S T) (hp : RangesOk S) (hk : k < 2 ^ 64)
    (hsup : Supplied S h.supply) :
    SafeCall ps h S k ↔
      (∀ n ∈ S, n.Covers k → CallServed ps S n k h.supply) ∧
      ((∀ n ∈ S, ¬ n.Covers k) → Serves h.supply 1) := by
  constructor
  · refine fun hsafe => ⟨fun n hn hc => hh.findMod_served hp hn hc ?_, fun hno => ?_⟩
    · rcases hsafe with hstop | ⟨h', c, e, -⟩
      · exact .inr hstop
      · exact .inl ⟨_, e⟩
    · rcases hsafe with hstop | ⟨h', c, e, -⟩
      · exact absurd hstop (hh.not_stopsAtAssert hno)
      · exact findMod_serves hh hno _ e
  · rintro ⟨hcov, huncov⟩
    by_cases hc : ∃ n ∈ S, n.Covers k
    · obtain ⟨n, hn, hc⟩ := hc
      rcases hh.findMod_returns hp hk hn hc hsup (hcov n hn hc) with ⟨h', c, e, hserved, -⟩ | hstop
      · exact .inr ⟨h', c, e, fun hf => absurd hf hserved.not_failed⟩
      · exact .inl hstop
    · have hno : ∀ n ∈ S, ¬ n.Covers k := fun n hn hcn => hc ⟨n, hn, hcn⟩
      obtain ⟨h', c, e, hserved⟩ := hh.findMod_adds ps hp hno hsup (huncov hno)
      exact .inr ⟨h', c, e, fun hf => absurd hf hserved.not_failed⟩

/-- The rest of the middle node: a page of three. -/
theorem find_mod_safe_middle : SafeCall pages4096
    (twoNodes ⟨72, VM_PROT_READ, 0, 4096⟩ ⟨136, VM_PROT_READ, 8192, 20480⟩
    [some (200, splayN), some (264, splayN)])
      {⟨72, VM_PROT_READ, 0, 4096⟩, ⟨136, VM_PROT_READ, 8192, 20480⟩} 12288 := by
  refine (find_mod_safe_iff twoNodes_middle ⟨by decide, ?_⟩ (by decide) supplied_middle).mpr
    ⟨fun n hn hc => ?_, fun hno => ?_⟩
  · exact (pagesOk_two (by decide) (by decide) (by decide) (by decide) (by decide)
      (by decide)).disjoint
  · obtain rfl : n = ⟨136, VM_PROT_READ, 8192, 20480⟩ := by
      simp only [Finset.mem_insert, Finset.mem_singleton] at hn
      rcases hn with rfl | rfl
      · exact absurd hc (by decide)
      · rfl
    exact ⟨fun _ _ => ⟨[(200, splayN), (264, splayN)], [], rfl, rfl⟩,
      fun hs => absurd hs (by decide),
      fun _ he => absurd he (by decide), fun hs => absurd hs (by decide)⟩
  · exact absurd (by decide) (hno ⟨136, VM_PROT_READ, 8192, 20480⟩ (by decide))

/-- The page before a node that it touches: the test before the suffix merge asks a
`vm_prev` that is NULL. -/
theorem find_mod_asks_null : ∃ h S T, Holds h S T ∧ RangesOk S ∧ Supplied S h.supply ∧
    ¬ SafeCall pages4096 h S 0 := by
  have hp := (pagesOk_two (a := ⟨72, VM_PROT_READ, 0, 4096⟩) (b := ⟨136, VM_PROT_WRITE, 4096, 8192⟩)
    (by decide) (by decide)
    (by decide) (by decide) (by decide) (by decide)).ranges
  have hh : Holds (twoNodes ⟨72, VM_PROT_READ, 0, 4096⟩ ⟨136, VM_PROT_WRITE, 4096, 8192⟩ []) _ _ :=
    twoNodes_holds (by decide) (by decide) (by decide) (by decide)
  refine ⟨_, _, _, hh, hp, ⟨fun u hu => absurd hu (by simp [twoNodes]),
    fun _ _ _ _ _ he => nomatch he⟩, fun hsafe => ?_⟩
  have hend : (∃ out, spTreeFindMod pages4096
      (twoNodes ⟨72, VM_PROT_READ, 0, 4096⟩ ⟨136, VM_PROT_WRITE, 4096, 8192⟩ []) 0 =
      some out) ∨ StopsAtAssert pages4096
        (twoNodes ⟨72, VM_PROT_READ, 0, 4096⟩ ⟨136, VM_PROT_WRITE, 4096, 8192⟩ []) 0 := by
    rcases hsafe with hstop | ⟨h', c, e, -⟩
    · exact .inr hstop
    · exact .inl ⟨_, e⟩
  exact (hh.findMod_served (n := ⟨72, VM_PROT_READ, 0, 4096⟩) hp (by decide) (by decide) hend).prev
    rfl (by decide)
    (readsNull_two rfl (by decide) (by decide))

end OpenOOC
