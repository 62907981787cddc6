import OpenOOC.SpTree.FindModSteps

/-! A whole call of `sp_tree_find_mod_and_lock` on a tree of pages: it takes one of
the steps of `CallStep` where nothing depends on a stale `sp->root`. -/

namespace OpenOOC

open Links SplayTree SplayTree.Tree

variable {ps : PageSize} {h h' : Heap} {S : Finset Node} {T l r : Tree Ref} {n q t : Node} {p : Ptr}
  {k : ℕ}

/-- A splay for `k` leaves `sp->root` at the root of the tree. -/
def RootStays (h : Heap) (k : ℕ) : Prop :=
  ∃ r, h.root = some r ∧
    (h.start r = k ∨ k < h.start r ∧ h.child .spL r = none ∨ h.start r < k ∧ h.child .spR r = none)

theorem rootStays_iff (hh : Holds h S T) (k : ℕ) : RootStays h k ↔
    T ≠ nil ∧ lastVisited (heapCmp h k) T = h.root := by
  have hroot := hh.rep.root
  have hshape := hh.rep.shape
  have hnd := hh.linked.nodup
  cases T with
  | nil => simp [RootStays, hroot]
  | node l x r =>
    obtain ⟨-, hl, hr, -⟩ := hshape
    rw [hroot, root?_node, lastVisited_eq_root hnd]
    simp only [RootStays, hroot, root?_node, Option.some.injEq, exists_eq_left', cmp_lt, cmp_gt,
      cmp_eq, hl, hr, root?_eq_none,
      ne_eq, reduceCtorEq, not_false_eq_true, true_and]
    rw [eq_comm (a := h.start x)]

theorem serves_one {supply : List (Option (Addr × VmArea))} :
    Serves supply 1 ↔ ∃ z v rest, supply = some (z, v) :: rest := by
  constructor
  · rintro ⟨used, rest, hlen, rfl⟩
    obtain ⟨⟨z, v⟩, rfl⟩ := List.length_eq_one_iff.mp hlen
    exact ⟨z, v, rest, rfl⟩
  · rintro ⟨z, v, rest, rfl⟩
    exact ⟨[(z, v)], rest, rfl, rfl⟩

theorem serves_two {supply : List (Option (Addr × VmArea))} :
    Serves supply 2 ↔ ∃ z v y w rest, supply = some (z, v) :: some (y, w) :: rest := by
  constructor
  · rintro ⟨used, rest, hlen, rfl⟩
    obtain ⟨⟨z, v⟩, ⟨y, w⟩, rfl⟩ := List.length_eq_two.mp hlen
    exact ⟨z, v, y, w, rest, rfl⟩
  · rintro ⟨z, v, y, w, rest, rfl⟩
    exact ⟨[(z, v), (y, w)], rest, rfl, rfl⟩

namespace Linked

/-- The node that covers the page is the splayed root or the node before it. -/
theorem coveringNode (hl : Linked h S (node l t.ref r)) (hp : RangesOk S) (ht : t ∈ S)
    (hlo : ∀ b ∈ S, b.start < t.start → b.start < k)
    (hhi : ∀ b ∈ S, t.start < b.start → k < b.start) (hn : n ∈ S)
    (hc : n.Covers k) : OpenOOC.coveringNode h k (some t.ref) = some (some n.ref) ∧
    (n = t ∨ IsPrev S t n) := by
  obtain ⟨v, hv, hvp, -, -, hvs, hve⟩ := hl.get_ref ht
  unfold OpenOOC.coveringNode
  simp only [hv, hvp, hvs, hve, Option.bind_eq_bind, Option.bind_some, Option.pure_def]
  by_cases hnt : n = t
  · subst hnt
    exact ⟨if_pos hc, Or.inl rfl⟩
  · have hct : ¬ t.Covers k := fun hct => hp.disjoint n hn t ht hnt k ⟨hc, hct⟩
    have hnn := hp.nonempty n hn
    have htt := hp.nonempty t ht
    have hlt : n.start < t.start := by
      by_contra hge
      have hne : n.start ≠ t.start := fun he => hnt (hl.eq_of_start hn ht he)
      have := hhi n hn (by omega)
      have := hc.1
      omega
    have hprev : IsPrev S t n := ⟨hn, hlt, fun m hm hmt => by
      by_contra hgt
      have := hlo m hm hmt
      have := hp.order hn hm fun he => by rw [he] at hgt; omega
      have := hp.nonempty m hm
      have := hc.2
      omega⟩
    rcases hl.prev_cases ht with ⟨-, hmin⟩ | ⟨p, hpn, hpe⟩
    · have := hmin n hn
      omega
    · obtain rfl := hl.isPrev_unique hpn hprev
      obtain ⟨w, hw, -, -, -, hws, hwe⟩ := hl.get_ref hn
      rw [if_neg (show ¬ (t.start ≤ k ∧ k < t.stop) from hct), hpe]
      simp only [reduceCtorEq, if_false, hw, hws, hwe, Option.bind_some]
      exact ⟨congrArg some (if_pos hc), Or.inr hprev⟩

theorem coveringNode_none (hl : Linked h S (node l t.ref r)) (ht : t ∈ S)
    (hno : ∀ n ∈ S, ¬ n.Covers k) :
    OpenOOC.coveringNode h k (some t.ref) = some none := by
  obtain ⟨v, hv, hvp, -, -, hvs, hve⟩ := hl.get_ref ht
  unfold OpenOOC.coveringNode
  simp only [hv, hvp, hvs, hve, Option.bind_eq_bind, Option.bind_some, Option.pure_def]
  rw [if_neg (show ¬ (t.start ≤ k ∧ k < t.stop) from hno t ht)]
  rcases hl.prev_cases ht with ⟨hpe, -⟩ | ⟨p, hpn, hpe⟩
  · rw [hpe, if_pos rfl]
  · obtain ⟨w, hw, -, -, -, hws, hwe⟩ := hl.get_ref hpn.1
    rw [hpe]
    simp only [reduceCtorEq, if_false, hw, hws, hwe, Option.bind_some]
    exact congrArg some (if_neg (hno p hpn.1))

end Linked

/-- What a call leaves, whichever step it takes. -/
def CallDone (ps : PageSize) (h : Heap) (S : Finset Node) (k : ℕ) (res : Option (Heap × Ptr)) :
    Prop :=
  ∃ h' T', ∃ used : List (Addr × VmArea), ∃ R M x freed, res = some (h', some (Node.ref x)) ∧
    Holds h' (S \ R ∪ M) T' ∧
    CallStep ps k S (used.map fun u => (u.1, u.2.vmFlags)) R M x freed ∧
    h.supply = used.map some ++ h'.supply ∧
    h'.calls = h.calls ++ used.map (fun u => .alloc (some u.1)) ++ freed.map .free

namespace Linked

/-! ### The cases of a covered page -/

section

variable {e : ℕ}

theorem modPage_mid (hl : Linked h S T) (hn : n ∈ S) (hafter : ps.after k = e) (hs : n.start ≠ k)
    (he : n.stop ≠ e) :
    OpenOOC.modPage ps h k p (some n.ref) = OpenOOC.midSplit ps h k (some n.ref) := by
  obtain ⟨v, hv, -, -, -, hvs, hve⟩ := hl.get_ref hn
  unfold OpenOOC.modPage
  simp only [hv, hvs, hve, hafter, Option.bind_eq_bind, Option.bind_some]
  rw [if_pos ⟨hs, he⟩]

theorem modPage_prefix (hl : Linked h S T) (hp : RangesOk S) (hn : n ∈ S) (hafter : ps.after k = e)
    (hs : n.start = k)
    (he : n.stop ≠ e) :
    (∃ q, LeftOf S k (VM_PROT_PROMOTE n.flags) q ∧
      OpenOOC.modPage ps h k p (some n.ref) = OpenOOC.prefixMigrate ps h k p (some n.ref)) ∨
    (∀ q, ¬ LeftOf S k (VM_PROT_PROMOTE n.flags) q) ∧
      OpenOOC.modPage ps h k p (some n.ref) = OpenOOC.prefixSplit ps h k (some n.ref) := by
  obtain ⟨v, hv, -, -, hvf, hvs, hve⟩ := hl.get_ref hn
  unfold OpenOOC.modPage
  simp only [hv, hvf, hvs, hve, hafter, Option.bind_eq_bind, Option.bind_some]
  rw [if_neg (by simp [hs]), if_pos ⟨hs, he⟩]
  rcases hl.prevMatches_cases hp hn (VM_PROT_PROMOTE n.flags) with ⟨q, hq, e0⟩ | ⟨hno, e0⟩
  · exact Or.inl ⟨q, hs ▸ hq, by rw [e0, Option.bind_some, if_pos rfl]⟩
  · exact Or.inr ⟨hs ▸ hno, by rw [e0, Option.bind_some]; rfl⟩

theorem modPage_suffix (hl : Linked h S T) (hp : RangesOk S) (hn : n ∈ S) (hafter : ps.after k = e)
    (hs : n.start ≠ k)
    (he : n.stop = e) :
    (∃ q, RightOf S e (VM_PROT_PROMOTE n.flags) q ∧
      OpenOOC.modPage ps h k p (some n.ref) = OpenOOC.suffixMigrate h k p (some n.ref)) ∨
    (∀ q, ¬ RightOf S e (VM_PROT_PROMOTE n.flags) q) ∧
      OpenOOC.modPage ps h k p (some n.ref) = OpenOOC.suffixSplit ps h k (some n.ref) := by
  obtain ⟨v, hv, -, -, hvf, hvs, hve⟩ := hl.get_ref hn
  unfold OpenOOC.modPage
  simp only [hv, hvf, hvs, hve, hafter, Option.bind_eq_bind, Option.bind_some]
  rw [if_neg (by simp [he]), if_neg (by simp [he]), if_pos ⟨hs, he⟩]
  rcases hl.nextMatches_cases hp hn (VM_PROT_PROMOTE n.flags) with ⟨q, hq, e0⟩ | ⟨hno, e0⟩
  · exact Or.inl ⟨q, he ▸ hq, by rw [e0, Option.bind_some, if_pos rfl]⟩
  · exact Or.inr ⟨he ▸ hno, by rw [e0, Option.bind_some]; rfl⟩

theorem modPage_single (hl : Linked h S T) (hn : n ∈ S) (hafter : ps.after k = e) (hs : n.start = k)
    (he : n.stop = e) :
    OpenOOC.modPage ps h k p (some n.ref) = OpenOOC.threeWayMerge h (some n.ref) := by
  obtain ⟨v, hv, -, -, -, hvs, hve⟩ := hl.get_ref hn
  unfold OpenOOC.modPage
  simp only [hv, hvs, hve, hafter, Option.bind_eq_bind, Option.bind_some]
  rw [if_neg (by simp [hs]), if_neg (by simp [he]), if_neg (by simp [hs])]

end

theorem modPage (hl : Linked h S (node l t.ref r)) (hp : RangesOk S) (ht : t ∈ S)
    (hwrap : k + ps.bytes < 2 ^ 64)
    (hlo : ∀ b ∈ S, b.start < t.start → b.start < k) (hn : n ∈ S) (hc : n.Covers k)
    (hle : k + ps.bytes ≤ n.stop)
    (htn : n = t ∨ IsPrev S t n) (hsup : Supplied S h.supply)
    (hsafe : Servable ps S n k (h.root = some t.ref) h.supply) :
    CallDone ps h S k (OpenOOC.modPage ps h k (some t.ref) (some n.ref)) := by
  have hpos := ps.bytes_pos
  have hafter := PageSize.after_eq hwrap
  have htn' (hs : n.start = k) : t = n := by
    rcases htn with rfl | hprev
    · rfl
    · have := hlo n hn hprev.2.1
      omega
  rcases eq_or_lt_of_le hc.1 with hs | hs <;> rcases eq_or_lt_of_le hle with he | he
  · obtain rfl := htn' hs
    obtain ⟨h', T', R, M, x, freed, e1, hl', hstep, hsup', hcalls', hroot, -⟩ :=
      hl.threeWayMerge hp hn (hsafe.prev hs he.symm)
    rw [hl.modPage_single hn hafter hs he.symm]
    refine ⟨h', T', [], R, M, x, freed, e1, hl'.holds_of_root ?_, .merge hn hs he.symm hstep,
      by simp [hsup'],
      by simp [hcalls']⟩
    rcases hroot with hroot | ⟨hno, hno', hroot, hT⟩
    · exact hroot
    · rw [hroot, hT]
      exact hsafe.keep hs he.symm (hs ▸ hno) hno'
  · obtain rfl := htn' hs
    rcases hl.modPage_prefix (p := some t.ref) hp hn hafter hs he.ne' with ⟨p, hpl, e0⟩ | ⟨hno, e0⟩
    · obtain ⟨h', l', r', e1, hh', hsup', hcalls'⟩ := hl.prefixMigrate hp hwrap hn hs he hpl
      exact ⟨h', _, [], _, _, { p with stop := k + ps.bytes }, [], e0.trans e1, hh',
        .split hn (.prefixMigrate hs he hpl),
        by simp [hsup'], by simp [hcalls']⟩
    · obtain ⟨hroot, hserves⟩ := hsafe.prefixSplit hs he hno
      obtain ⟨z, w, rest, hsupply⟩ := serves_one.mp hserves
      obtain ⟨h', T', e1, hh', hsup', hcalls'⟩ := hl.prefixSplit hp hroot hwrap hn hs he hsupply
        (hsup.fresh (z, w) (by simp [hsupply]))
      exact ⟨h', T', [(z, w)], _, _, ⟨z, w.vmFlags, k, k + ps.bytes⟩, [], e0.trans e1, hh',
        .split hn (.prefixSplit hs he hno), by simp [hsup', hsupply], by simp [hcalls']⟩
  · rcases hl.modPage_suffix (p := some t.ref) hp hn hafter hs.ne he.symm with ⟨q, hqr, e0⟩ |
      ⟨hno, e0⟩
    · obtain ⟨h', l', r', e1, hh', hsup', hcalls'⟩ := hl.suffixMigrate hp hn hs hc.2 (he ▸ hqr)
      exact ⟨h', _, [], _, _, { q with start := k }, [], e0.trans e1, hh',
        .split hn (.suffixMigrate hs he.symm hqr),
        by simp [hsup'], by simp [hcalls']⟩
    · obtain ⟨hroot, hserves⟩ := hsafe.suffixSplit hs he.symm hno
      obtain ⟨z, w, rest, hsupply⟩ := serves_one.mp hserves
      obtain ⟨h', T', e1, hh', hsup', hcalls'⟩ :=
        hl.suffixSplit hp ht hroot hwrap hn htn hs he.symm hsupply
        (hsup.fresh (z, w) (by simp [hsupply]))
      exact ⟨h', T', [(z, w)], _, _, ⟨z, w.vmFlags, k, k + ps.bytes⟩, [], e0.trans e1, hh',
        .split hn (.suffixSplit hs he.symm hno), by simp [hsup', hsupply], by simp [hcalls']⟩
  · obtain ⟨hroot, hserves⟩ := hsafe.mid hs he
    obtain ⟨z, v, y, w, rest, hsupply⟩ := serves_two.mp hserves
    obtain ⟨h', T', e1, hh', hsup', hcalls'⟩ := hl.midSplit hp ht hroot hwrap hn htn hs he hsupply
      (hsup.fresh (z, v) (by simp [hsupply])) (hsup.fresh (y, w) (by simp [hsupply]))
        (hsup.distinct z v y w rest hsupply)
    exact ⟨h', T', [(z, v), (y, w)], _, _, ⟨z, VM_PROT_PROMOTE n.flags, k, k + ps.bytes⟩, [],
      (hl.modPage_mid hn hafter hs.ne he.ne').trans e1, hh', .split hn (.mid hs he), by
        simp [hsup', hsupply],
      by simp [hcalls']⟩

end Linked

theorem Servable.mono {rs rs' : Prop} {supply : List (Option (Addr × VmArea))}
    (hs : Servable ps S n k rs supply)
    (hrs : rs → rs') : Servable ps S n k rs' supply :=
  ⟨fun h1 h2 => (hs.mid h1 h2).imp_left hrs, fun h1 h2 h3 => (hs.prefixSplit h1 h2 h3).imp_left hrs,
    fun h1 h2 h3 => (hs.suffixSplit h1 h2 h3).imp_left hrs, fun h1 h2 h3 h4 =>
    hrs (hs.keep h1 h2 h3 h4), hs.prev⟩

theorem not_covers_of_out (hout : ∀ n ∈ S, n.stop ≤ k ∨ k + ps.bytes ≤ n.start) :
    ∀ n ∈ S, ¬ n.Covers k := fun n hn hc => by
  have hpos := ps.bytes_pos
  have hs : n.start ≤ k := hc.1
  have he : k < n.stop := hc.2
  have := hout n hn
  omega

namespace Holds

theorem splayed (hh : Holds h S T) (hT : T ≠ nil) (k : ℕ) :
    ∃ h1 l t r, splay (heapCmp h k) T = node l t.ref r ∧ t ∈ S ∧
    sSpTreeSplay h k h.root = some (h1, some t.ref) ∧ Linked h1 S (node l t.ref r) ∧
    h1.root = h.root ∧
      (RootStays h k ↔ h1.root = some t.ref) ∧ h1.supply = h.supply ∧ h1.calls = h.calls ∧
      (∀ b ∈ S, b.start < t.start → b.start < k) ∧ ∀ b ∈ S, t.start < b.start → k < b.start := by
  obtain ⟨h1, l, t, r, ht, he, hl1, hf, hroot, -, hsp, hlo, hhi⟩ := hh.linked.splay k hT
  refine ⟨h1, l, t, r, hsp, ht, hh.rep.root ▸ he, hl1, hroot, ?_, hf.supply, hf.calls, hlo, hhi⟩
  rw [rootStays_iff hh, ← root?_splay, hsp, root?_node, hroot, eq_comm]
  exact and_iff_right hT

theorem ne_nil (hh : Holds h S T) (hn : n ∈ S) : T ≠ nil := fun hT => by
  have := hh.ref_mem hn
  rw [hT] at this
  simp at this

theorem spTreeFindMod_eq (hh : Holds h S T) (hT : T ≠ nil) {h1 : Heap} {t c : Ptr}
    (he : sSpTreeSplay h k h.root = some (h1, t)) (hc : coveringNode h1 k t = some c) :
    spTreeFindMod ps h k = if c = none then addPage ps h1 k t else modPage ps h1 k t c := by
  have hroot : h.root ≠ none := by rwa [hh.rep.root, ne_eq, root?_eq_none]
  unfold spTreeFindMod
  rw [if_neg hroot]
  simp only [he, hc, Option.bind_eq_bind, Option.bind_some]

/-- A call for a page that lies in a node and can be served. -/
theorem findMod_within (hh : Holds h S T) (hp : RangesOk S) (hwrap : k + ps.bytes < 2 ^ 64)
    (hn : n ∈ S)
    (hc : n.Covers k) (hle : k + ps.bytes ≤ n.stop) (hsup : Supplied S h.supply)
    (hsafe : Servable ps S n k (RootStays h k) h.supply) :
    CallDone ps h S k (spTreeFindMod ps h k) := by
  have hT := hh.ne_nil hn
  obtain ⟨h1, l, t, r, -, ht, he, hl1, hroot, hstays, hsup1, hcalls1, hlo, hhi⟩ := hh.splayed hT k
  obtain ⟨hcov, htn⟩ := hl1.coveringNode hp ht hlo hhi hn hc
  rw [← hsup1] at hsup hsafe
  obtain ⟨h', T', used, R, M, x, freed, he', hh', hstep, hsup', hcalls'⟩ :=
    hl1.modPage hp ht hwrap hlo hn hc hle htn hsup (hsafe.mono hstays.mp)
  rw [hh.spTreeFindMod_eq hT he hcov, if_neg (by simp)]
  exact ⟨h', T', used, R, M, x, freed, he', hh', hstep, hsup1 ▸ hsup', hcalls1 ▸ hcalls'⟩

theorem findMod_covered (hh : Holds h S T) (hp : PagesOk ps S) (hk : ps.bytes ∣ k) (hn : n ∈ S)
    (hc : n.Covers k)
    (hsup : Supplied S h.supply) (hsafe : Servable ps S n k (RootStays h k) h.supply) :
    CallDone ps h S k (spTreeFindMod ps h k) :=
  have hle := hp.page_le hn hk hc
  hh.findMod_within hp.ranges (lt_of_le_of_lt hle (hp.bounded n hn)) hn hc hle hsup hsafe

theorem findMod_empty (hh : Holds h ∅ nil) (hwrap : k + ps.bytes < 2 ^ 64) {z : Addr} {v : VmArea}
    {rest : List (Option (Addr × VmArea))} (hs : h.supply = some (z, v) :: rest)
    (hz : z.toNat % 8 = 0) :
    ∃ h' T', spTreeFindMod ps h k = some (h', some (.vma z)) ∧
      Holds h' {⟨z, VM_PROT_READ, k, k + ps.bytes⟩} T' ∧ h'.supply = rest ∧
      h'.calls = h.calls ++ [.alloc (some z)] := by
  set w : VmArea := ⟨none, none, none, none, none, VM_PROT_READ, k, k + ps.bytes⟩ with hw
  have hr : (h.withNode z w).range (.vma z) = some (VM_PROT_READ, k, k + ps.bytes) := by
    simp [Heap.range, cell_withNode, hw]
  have hl : Linked (h.withNode z w) {⟨z, VM_PROT_READ, k, k + ps.bytes⟩}
      (node nil (.vma z) nil) := by
    refine ⟨?_, fun a ha => ?_, ?_, by simp, ?_, by simpa [Ref.Aligned] using hz, fun n => ?_⟩
    · simp [Shape, Heap.Ok, Heap.child, cell_withNode, hw, VmArea.child, Up]
    · obtain rfl : .vma z = a := by simpa using ha
      simp [Heap.par, cell_withNode, hw]
    · simp [Seg, Heap.next, Heap.prev, cell_withNode, hw]
    · rw [cell_withNode, if_neg (by simp), hh.rep.stack]
    · rw [Finset.mem_singleton]
      simp only [toList_node, toList_nil, List.nil_append, List.mem_singleton]
      constructor
      · rintro rfl
        exact ⟨rfl, hr⟩
      · rintro ⟨hx, hnr⟩
        rw [hx, hr] at hnr
        exact Node.ext_ref hx (Option.some.inj hnr).symm
  refine ⟨{ h.withNode z w with root := some (.vma z) }, _, ?_, hl.holds rfl,
    by simp [Heap.withNode, hs], rfl⟩
  have hroot : h.root = none := hh.rep.root
  unfold spTreeFindMod
  rw [if_pos hroot, PageSize.after_eq hwrap, newNode_eq hs]
  rfl

theorem findMod_add (hh : Holds h S T) (hp : RangesOk S) (hwrap : k + ps.bytes < 2 ^ 64)
    (hout : ∀ n ∈ S, n.stop ≤ k ∨ k + ps.bytes ≤ n.start) {z : Addr} {v : VmArea}
    {rest : List (Option (Addr × VmArea))} (hs : h.supply = some (z, v) :: rest)
    (hz : Fresh S z) :
    ∃ h' T' R M x freed, spTreeFindMod ps h k = some (h', some x.ref) ∧ Holds h' (S \ R ∪ M) T' ∧
      AddStep k (k + ps.bytes) S z R M x freed ∧ h'.supply = rest ∧
      h'.calls = h.calls ++ .alloc (some z) :: freed.map .free := by
  by_cases hT : T = nil
  · subst hT
    obtain rfl : S = ∅ := Finset.eq_empty_of_forall_notMem fun n hn => by simpa using hh.ref_mem hn
    obtain ⟨h', T', he', hh', hsup', hcalls'⟩ := hh.findMod_empty hwrap hs hz.1
    refine ⟨h', T', ∅, _, ⟨z, VM_PROT_READ, k, k + ps.bytes⟩, [], he', ?_,
      .alone (by simp [LeftOf]) (by simp [RightOf]),
      hsup', by simp [hcalls']⟩
    simpa using hh'
  · obtain ⟨h1, l, t, r, -, ht, he, hl1, hroot, -, hsup1, hcalls1, hlo, hhi⟩ := hh.splayed hT k
    have hroot1 : h1.root ≠ none := by rwa [hroot, hh.rep.root, ne_eq, root?_eq_none]
    obtain ⟨h', T', R, M, x, freed, he', hh', hstep, hsup', hcalls'⟩ :=
      hl1.addPage hp ht hroot1 hwrap hout hlo hhi (hsup1.trans hs) hz
    rw [hh.spTreeFindMod_eq hT he (hl1.coveringNode_none ht (not_covers_of_out hout)), if_pos rfl]
    exact ⟨h', T', R, M, x, freed, he', hh', hstep, hsup', hcalls1 ▸ hcalls'⟩

/-- A call for a page that lies between the nodes. -/
theorem findMod_between (hh : Holds h S T) (hp : RangesOk S) (hwrap : k + ps.bytes < 2 ^ 64)
    (hout : ∀ n ∈ S, n.stop ≤ k ∨ k + ps.bytes ≤ n.start) (hsup : Supplied S h.supply)
    (hserves : Serves h.supply 1) : CallDone ps h S k (spTreeFindMod ps h k) := by
  obtain ⟨z, v, rest, hs⟩ := serves_one.mp hserves
  obtain ⟨h', T', R, M, x, freed, he', hh', hstep, hsup', hcalls'⟩ :=
    hh.findMod_add hp hwrap hout hs (hsup.fresh (z, v) (by simp [hs]))
  exact ⟨h', T', [(z, v)], R, M, x, freed, he', hh', .add (not_covers_of_out hout) hstep,
    by simp [hs, hsup'], by simp [hcalls']⟩

theorem findMod_uncovered (hh : Holds h S T) (hp : PagesOk ps S) (hk : ps.bytes ∣ k)
    (hwrap : k + ps.bytes < 2 ^ 64)
    (hno : ∀ n ∈ S, ¬ n.Covers k) (hsup : Supplied S h.supply) (hserves : Serves h.supply 1) :
    CallDone ps h S k (spTreeFindMod ps h k) :=
  hh.findMod_between hp.ranges hwrap (fun n hn => hp.page_apart hn hk (hno n hn)) hsup hserves

end Holds

end OpenOOC
