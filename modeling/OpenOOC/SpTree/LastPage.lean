import OpenOOC.SpTree.SafeCall

/-! `sp_tree_find_mod_and_lock` on the ranges that `ooc_malloc` inserts, whose last page
need not be whole. The call takes that page for one in the middle, and whatever it does
then it leaves a range behind that ends before it starts. -/

namespace OpenOOC

open Links SplayTree SplayTree.Tree Returns

variable {ps : PageSize} {h h' : Heap} {S S' : Finset Node} {T T' l r : Tree Ref} {n p t : Node}
  {k s e : ℕ}
  {f : BitVec 64} {z : Addr}

structure AllocRanges (ps : PageSize) (S : Finset Node) : Prop where
  aligned : ∀ n ∈ S, ps.bytes ∣ n.start
  nonempty : ∀ n ∈ S, n.start < n.stop
  bounded : ∀ n ∈ S, n.stop < 2 ^ 64
  disjoint : DisjointRanges S

/-- The call leaves nonempty and disjoint ranges that cover what was covered. -/
def KeepsRanges (S : Finset Node) (res : Option (Heap × Ptr)) : Prop :=
  ∃ h' S' T' x, res = some (h', x) ∧ Holds h' S' T' ∧ RangesOk S' ∧
    ∀ a, (∃ n ∈ S, n.Covers a) → ∃ m ∈ S', m.Covers a

theorem AllocRanges.ranges (h : AllocRanges ps S) : RangesOk S := ⟨h.nonempty, h.disjoint⟩

/-! ### What the tree must hold -/

theorem Holds.range_lt (hh : Holds h S T) (hp : RangesOk S) (hx : .vma z ∈ T.toList)
    (hr : h.range (.vma z) = some (f, s, e)) :
    s < e := hp.nonempty ⟨z, f, s, e⟩ ((hh.node_iff _).mpr ⟨hx, hr⟩)

theorem Holds.mem_of_list (hh : Holds h S T) {L : List Ref} (hL : Seg h.next h.prev none L none)
    {x y : Ref} (hx : x ∈ L)
    (hy : y ∈ L) (hxT : x ∈ T.toList) : y ∈ T.toList :=
  hL.forall_of_mem hh.linked.sound.next hh.linked.sound.prev hx hxT y hy

theorem Holds.root_mem {x : Ref} (hh : Holds h S T) (hr : h.root = some x) : x ∈ T.toList :=
  root?_mem (hh.rep.root ▸ hr)

/-- The end of a page does not wrap but to 0. -/
theorem after_eq_or (hk : ps.bytes ∣ k) (hk64 : k < 2 ^ 64) :
    ps.after k = k + ps.bytes ∨ ps.after k = 0 := by
  obtain ⟨d, rfl⟩ := hk
  obtain ⟨c, hc⟩ : ps.bytes ∣ 2 ^ 64 := Nat.pow_dvd_pow 2 ps.lt_word.le
  unfold PageSize.after
  rw [← Nat.mul_succ, hc, Nat.mul_mod_mul_left]
  have hdc : d < c := Nat.lt_of_mul_lt_mul_left (hc ▸ hk64)
  rcases Nat.lt_or_ge (d + 1) c with hlt | hge
  · exact .inl (by rw [Nat.mod_eq_of_lt hlt])
  · obtain rfl : c = d + 1 := by omega
    exact .inr (by simp)

/-- Where a page that is not whole ends, no range ends that is followed by the rest of the node. -/
theorem after_of_cut (hk : ps.bytes ∣ k) (hk64 : k < 2 ^ 64) (hpart : ¬ k + ps.bytes ≤ n.stop)
    (hc : n.Covers k) :
    n.stop ≠ ps.after k ∧ (s < ps.after k → ¬ ps.after k < n.stop) := by
  have hkn : k < n.stop := hc.2
  rcases after_eq_or hk hk64 with he | he <;> omega

namespace Linked

theorem modPage_cut (hl : Linked h S (node l t.ref r)) (hp : AllocRanges ps S) (hk : ps.bytes ∣ k)
    (ht : t ∈ S)
    (hlo : ∀ b ∈ S, b.start < t.start → b.start < k) (hn : n ∈ S) (hc : n.Covers k)
    (htn : n = t ∨ IsPrev S t n) {x : Ref}
    (hroot : h.root = some x) (hx : x ∈ (node l t.ref r).toList) (hsup : Supplied S h.supply)
    (hpart : ¬ k + ps.bytes ≤ n.stop) :
    ¬ KeepsRanges S (OpenOOC.modPage ps h k (some t.ref) (some n.ref)) := by
  rintro ⟨h', S', T', c, e, hh', hp', -⟩
  have hk64 : k < 2 ^ 64 := lt_trans hc.2 (hp.bounded n hn)
  have hord {s : ℕ} (hs : s < ps.after k) : ¬ ps.after k < n.stop :=
    (after_of_cut hk hk64 hpart hc).2 hs
  have hse : n.stop ≠ ps.after k := (after_of_cut (s := 0) hk hk64 hpart hc).1
  have hafter : ps.after k ≠ k := after_ne hk64
  by_cases hsk : n.start = k
  · obtain rfl : t = n := by
      rcases htn with rfl | hprev
      · rfl
      · have := hlo n hn hprev.2.1
        omega
    rcases hl.modPage_prefix (p := some t.ref) hp.ranges hn rfl hsk hse with ⟨p, hpl, e0⟩ |
      ⟨hno, e0⟩
    · obtain ⟨h2, a, e2, hroot2, -, ha, hlinks, hrn, hrp⟩ := hl.prefixMigrate_returns hn
        (hp.ranges.isPrev hpl.1 (hpl.2.1.trans hsk.symm)) hse
      obtain ⟨rfl, rfl⟩ := Prod.mk.inj (Option.some.inj (e.symm.trans (e0.trans e2)))
      have hlist : Seg h'.next h'.prev none (node l t.ref r).toList none :=
        hl.list.congr (fun x _ => (hlinks x).1) fun x _ => (hlinks x).2
      have hmem {m : Node} (hm : m ∈ S) : m.ref ∈ T'.toList :=
        hh'.mem_of_list hlist ha (hl.ref_mem hm) (hh'.root_mem hroot2.1)
      exact hord (hh'.range_lt hp' (hmem hpl.1) hrp) (hh'.range_lt hp' (hmem hn) hrn)
    · rw [e0] at e
      obtain ⟨z, v, rest, hsupply⟩ := serves_one.mp (prefixSplit_serves _ e)
      have hz : Fresh S z := hsup.fresh (z, v) (by simp [hsupply])
      obtain ⟨h2, e2, hput⟩ := hl.prefixSplit_returns hroot hx hn hz ps hsk hafter hsupply
      obtain ⟨rfl, rfl⟩ := Prod.mk.inj (Option.some.inj (e.symm.trans e2))
      have hnz := hl.ref_ne hn hz
      have hlinks : SameLinks (· = .vma z) h (h.splitPrefix t.ref z v.vmFlags k (ps.after k)) :=
        (SameLinks.withNode (Z := (· = .vma z)) rfl _).trans (.modify (keepsLinks_start _) t.ref)
      obtain ⟨L, hL, hmem⟩ := hput.list _
        (hlinks.seg hl.list fun x hx he => hl.fresh_notMem hz (he ▸ hx)) hl.nodup hx
        (hl.fresh_notMem hz)
      have hzT := hh'.root_mem hput.root
      have hnT := hh'.mem_of_list hL ((hmem _).mpr (.inl rfl))
        ((hmem _).mpr (.inr (hl.ref_mem hn))) hzT
      obtain ⟨u, hu, -, -, huf, -, hue⟩ := hl.cell hn
      refine hord (s := k) (hh'.range_lt hp' hzT (f := v.vmFlags) ?_)
        (hh'.range_lt hp' hnT (f := t.flags) ?_)
      · rw [hput.links.range, Heap.range, Heap.splitPrefix, Heap.cell_modify, if_neg hnz.symm,
          cell_withPage, if_pos rfl]
        rfl
      · change h'.range t.ref = _
        rw [hput.links.range, Heap.range, Heap.splitPrefix, Heap.cell_modify, if_pos rfl,
          cell_withPage, if_neg hnz, hu]
        simp [huf, hue]
  · rw [hl.modPage_mid hn rfl hsk hse] at e
    have hserves := midSplit_serves _ e
    by_cases hne : h.start x = ps.after k
    · obtain ⟨h2, z, y, e2, hassert⟩ := hl.midSplit_asserts hn hroot hx hsup hserves hne
      rw [midSplit_eq_bind, e2, Option.bind_some, hassert.stops] at e
      cases e
    · obtain ⟨z, v, y, w, rest, hsupply⟩ := serves_two.mp hserves
      obtain ⟨h2, e2, hroot2, ⟨w, hchild⟩, hry, hrz, -⟩ := hl.midSplit_returns hroot hx hn
        (hsup.fresh (z, v) (by simp [hsupply])) ps (hsup.fresh (y, w) (by simp [hsupply]))
        (hsup.distinct z v y w rest hsupply) hne hafter hsupply
      obtain ⟨rfl, rfl⟩ := Prod.mk.inj (Option.some.inj (e.symm.trans e2))
      have hzT := hh'.root_mem hroot2.1
      exact hord (hh'.range_lt hp' hzT hrz)
        (hh'.range_lt hp' (hh'.linked.sound.child _ hzT w _ hchild) hry)

end Linked

/-! ### The call -/

theorem whole_of_keepsRanges (hh : Holds h S T) (hp : AllocRanges ps S) (hk : ps.bytes ∣ k)
    (hn : n ∈ S) (hc : n.Covers k)
    (hsup : Supplied S h.supply) (hkeep : KeepsRanges S (spTreeFindMod ps h k)) :
    k + ps.bytes ≤ n.stop := by
  by_contra hpart
  have hT := hh.ne_nil hn
  obtain ⟨h1, l, t, r, -, ht, he1, hl1, hroot, -, hsup1, -, hlo, hhi⟩ := hh.splayed hT k
  obtain ⟨hcov1, htn⟩ := hl1.coveringNode hp.ranges ht hlo hhi hn hc
  obtain ⟨x, hx⟩ := Option.ne_none_iff_exists'.mp
    (show h1.root ≠ none by rwa [hroot, hh.rep.root, ne_eq, root?_eq_none])
  have hxT : x ∈ (node l t.ref r).toList := by
    obtain ⟨m, hm, rfl, -⟩ := hh.node_of_mem (hh.root_mem (hroot ▸ hx))
    exact hl1.ref_mem hm
  rw [hh.spTreeFindMod_eq hT he1 hcov1, if_neg (by simp)] at hkeep
  exact hl1.modPage_cut hp hk ht hlo hn hc htn hx hxT (hsup1 ▸ hsup) hpart hkeep

/-- The ranges stay in order exactly if the page is whole and the call can be served. -/
theorem find_mod_keeps_ranges_iff (hh : Holds h S T) (hp : AllocRanges ps S) (hk : ps.bytes ∣ k)
    (hn : n ∈ S)
    (hc : n.Covers k) (hsup : Supplied S h.supply) :
    KeepsRanges S (spTreeFindMod ps h k) ↔
    k + ps.bytes ≤ n.stop ∧ Servable ps S n k (RootStays h k) h.supply := by
  constructor
  · intro hkeep
    have hle := whole_of_keepsRanges hh hp hk hn hc hsup hkeep
    obtain ⟨h', S', T', x, he, hh', -, hcov⟩ := hkeep
    exact ⟨hle, servable_of_covers hh hp.ranges
      (lt_of_le_of_lt hle (hp.bounded n hn)) hn hc hle hsup he hh' hcov⟩
  · rintro ⟨hle, hsafe⟩
    obtain ⟨h', T', used, R, M, x, freed, he, hh', hstep, -⟩ :=
      hh.findMod_within hp.ranges (lt_of_le_of_lt hle (hp.bounded n hn)) hn hc hle hsup hsafe
    obtain ⟨-, hr, hcov⟩ := hstep.ranges hp.ranges hn hc
    exact ⟨h', _, T', _, he, hh', hr, fun a => (hcov a).mpr⟩

theorem allocRanges_two {a b : Node} (ha : 4096 ∣ a.start) (hb : 4096 ∣ b.start)
    (h1 : a.start < a.stop) (h2 : a.stop ≤ b.start)
    (h3 : b.start < b.stop) (h4 : b.stop < 2 ^ 64) : AllocRanges pages4096 {a, b} := by
  refine ⟨?_, ?_, ?_, ?_⟩
  · simpa [pages4096, PageSize.small, PageSize.bytes] using ⟨ha, hb⟩
  · simpa using ⟨h1, h3⟩
  · simp only [Finset.mem_insert, Finset.mem_singleton, forall_eq_or_imp, forall_eq]
    omega
  · intro x hx y hy hne c hc
    obtain ⟨⟨hx1, hx2⟩, hy1, hy2⟩ := hc
    simp only [Finset.mem_insert, Finset.mem_singleton] at hx hy
    rcases hx with rfl | rfl <;> rcases hy with rfl | rfl
    · exact hne rfl
    · omega
    · omega
    · exact hne rfl

/-- A node of 5000 bytes after another one. -/
def partialNode : Heap :=
  twoNodes ⟨72, VM_PROT_READ, 0, 4096⟩ ⟨136, VM_PROT_READ, 8192, 13192⟩
    [some (200, splayN), some (264, splayN)]

/-- The first page of that node is whole. It is split off from the 904 bytes behind it. -/
theorem find_mod_keeps_ranges_partial :
    KeepsRanges {⟨72, VM_PROT_READ, 0, 4096⟩, ⟨136, VM_PROT_READ, 8192, 13192⟩}
      (spTreeFindMod pages4096 partialNode 8192) := by
  have hh : Holds partialNode _ _ :=
    twoNodes_holds (by decide) (by decide) (by decide) (by decide)
  have hroot : RootStays partialNode 8192 := ⟨.vma 136, rfl, Or.inl rfl⟩
  refine (find_mod_keeps_ranges_iff (n := ⟨136, VM_PROT_READ, 8192, 13192⟩) hh
    (allocRanges_two (by decide) (by decide) (by decide) (by decide) (by decide) (by decide))
    (by decide) (by decide) (by decide) (supplied_two rfl rfl)).mpr
      ⟨by decide, fun hs => ?_, fun _ _ _ => ?_, fun hs => ?_, fun _ he => ?_, fun _ he => ?_⟩
  · exact absurd hs (by decide)
  · exact ⟨hroot, [(200, splayN)], [some (264, splayN)], rfl, rfl⟩
  · exact absurd hs (by decide)
  · exact absurd he (by decide)
  · exact absurd he (by decide)

/-- The last page of a node of 5000 bytes is not whole. -/
theorem find_mod_inverts_range : ∃ h S T, Holds h S T ∧ AllocRanges pages4096 S ∧
    (∃ n ∈ S, n.Covers 12288) ∧
    Supplied S h.supply ∧ ¬ KeepsRanges S (spTreeFindMod pages4096 h 12288) := by
  have hh : Holds (twoNodes ⟨72, 0, 0, 4096⟩ ⟨136, 0, 8192, 13192⟩
      [some (200, splayN), some (264, splayN)]) _ _ :=
    twoNodes_holds (by decide) (by decide) (by decide) (by decide)
  have hp := allocRanges_two (a := ⟨72, 0, 0, 4096⟩) (b := ⟨136, 0, 8192, 13192⟩) (by decide)
    (by decide) (by decide)
    (by decide) (by decide) (by decide)
  have hsup : Supplied {⟨72, 0, 0, 4096⟩, ⟨136, 0, 8192, 13192⟩}
      [some (200, splayN), some (264, splayN)] := supplied_two rfl rfl
  refine ⟨_, _, _, hh, hp, ⟨⟨136, 0, 8192, 13192⟩, by decide, by decide⟩, hsup, fun hkeep => ?_⟩
  exact absurd (whole_of_keepsRanges (n := ⟨136, 0, 8192, 13192⟩) hh hp (by decide) (by decide)
    (by decide) hsup hkeep) (by decide)

end OpenOOC
