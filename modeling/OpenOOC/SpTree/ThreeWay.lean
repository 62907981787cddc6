import OpenOOC.SpTree.Coalesced

/-! The 3-way merge of `sp_tree_find_mod_and_lock`. Its second test asks `vm_prev`
where it means `vm_next`, and where nothing merges nobody promotes the page. -/

namespace OpenOOC

open Links SplayTree SplayTree.Tree Returns

variable {ps : PageSize} {h h' : Heap} {S S' R M : Finset Node} {T T' l r : Tree Ref}
  {n m p q t x : Node} {k a : ℕ}
  {f : BitVec 64} {freed : List Addr}

/-- `S'` is `S` after the page `n` was promoted and became one node `x` with the touching
nodes that have the promoted flags, and with no other. -/
structure MergedInto (S : Finset Node) (n : Node) (S' : Finset Node) (x : Node) : Prop where
  flags : x.flags = VM_PROT_PROMOTE n.flags
  left : ∀ p, LeftOf S n.start (VM_PROT_PROMOTE n.flags) p → x.start = p.start
  noLeft : (∀ p, ¬ LeftOf S n.start (VM_PROT_PROMOTE n.flags) p) → x.start = n.start
  right : ∀ q, RightOf S n.stop (VM_PROT_PROMOTE n.flags) q → x.stop = q.stop
  noRight : (∀ q, ¬ RightOf S n.stop (VM_PROT_PROMOTE n.flags) q) → x.stop = n.stop
  others : ∀ m, m ∈ S' ↔ m = x ∨ m ∈ S ∧ m ≠ n ∧ ¬ LeftOf S n.start (VM_PROT_PROMOTE n.flags) m ∧
    ¬ RightOf S n.stop (VM_PROT_PROMOTE n.flags) m

/-- The call leaves a valid tree in which the page `n` is merged like that: the page has
the promoted flags and every other page its old flags. -/
def MergesPage (S : Finset Node) (n : Node) (res : Option (Heap × Ptr)) : Prop :=
  ∃ h' S' T' x, res = some (h', some (Node.ref x)) ∧ Holds h' S' T' ∧ MergedInto S n S' x ∧
    ∀ a g, FlagsAt S' a g ↔ if n.start ≤ a ∧ a < n.stop then g = VM_PROT_PROMOTE n.flags
      else FlagsAt S a g

/-- The node that the second test looks at: `n`, or the node before it once it has got
the page. -/
def TestedNode (S : Finset Node) (n m : Node) : Prop :=
  (∀ p, ¬ LeftOf S n.start (VM_PROT_PROMOTE n.flags) p) ∧ m = n ∨
    ∃ p, LeftOf S n.start (VM_PROT_PROMOTE n.flags) p ∧ m = { p with stop := n.stop }

/-- A touching node has the promoted flags, and the node whose flags the second test reads
answers like the node after `n`. -/
structure NeighboursAgree (S : Finset Node) (n : Node) : Prop where
  reads : ¬ ReadsNull S n
  touches : ∃ m, LeftOf S n.start (VM_PROT_PROMOTE n.flags) m ∨
    RightOf S n.stop (VM_PROT_PROMOTE n.flags) m
  agrees : ∀ m, TestedNode S n m → ∀ q, MergesOn S m q ↔
    RightOf S n.stop (VM_PROT_PROMOTE n.flags) q

/-! ### Neighbours -/

namespace PagesOk

theorem eq_of_start (hp : PagesOk ps S) (h1 : p ∈ S) (h2 : q ∈ S) (he : p.start = q.start) :
    p = q := by
  by_contra hne
  have := hp.order h1 h2 hne
  have := hp.nonempty p h1
  have := hp.nonempty q h2
  omega

theorem leftOf_unique (hp : PagesOk ps S) (h1 : LeftOf S k f p) (h2 : LeftOf S k f q) : p = q := by
  by_contra hne
  have := hp.order h1.1 h2.1 hne
  have := hp.nonempty p h1.1
  have := hp.nonempty q h2.1
  have := h1.2.1
  have := h2.2.1
  omega

theorem rightOf_unique (hp : PagesOk ps S) (h1 : RightOf S k f p) (h2 : RightOf S k f q) : p = q :=
  hp.eq_of_start h1.1 h2.1 (h1.2.1.trans h2.2.1.symm)

theorem extended_notMem (hp : PagesOk ps S) (hq : q ∈ S) (hk : k < q.start) :
    { q with start := k } ∉ S := by
  intro hm
  have hne : ({ q with start := k } : Node) ≠ q := fun he => by
    have := congrArg Node.start he
    simp only at this
    omega
  have h1 := hp.order hm hq hne
  have h2 := hp.nonempty q hq
  simp only at h1
  omega

end PagesOk

theorem promote_ne {f : BitVec 64} (hf : f &&& 0x3 = 0 ∨ f &&& 0x3 = 1) :
    VM_PROT_PROMOTE f ≠ f := by
  intro he
  have h0 : f[0] = true := by
    rw [← he]
    simp [VM_PROT_PROMOTE]
  have h1 : f[1] = true := by
    rw [← he]
    simp [VM_PROT_PROMOTE, h0]
  rcases hf with hf | hf
  · have := congrArg (fun x => x[0]) hf
    simp [h0] at this
  · have := congrArg (fun x => x[1]) hf
    simp [h1] at this

/-- The pages of the merged tree have the flags that they should have. -/
theorem MergedInto.flagsAt (hm : MergedInto S n S' x) (hp : PagesOk ps S) (hn : n ∈ S) (a : ℕ)
    (g : BitVec 64) :
    FlagsAt S' a g ↔ if n.start ≤ a ∧ a < n.stop then g = VM_PROT_PROMOTE n.flags
      else FlagsAt S a g := by
  have hlt := hp.nonempty n hn
  have hleft : x.start = n.start ∨ ∃ p, LeftOf S n.start (VM_PROT_PROMOTE n.flags) p ∧
      x.start = p.start := by
    by_cases hl : ∃ p, LeftOf S n.start (VM_PROT_PROMOTE n.flags) p
    · obtain ⟨p, hl⟩ := hl
      exact .inr ⟨p, hl, hm.left p hl⟩
    · exact .inl (hm.noLeft fun p hl' => hl ⟨p, hl'⟩)
  have hright : x.stop = n.stop ∨ ∃ q, RightOf S n.stop (VM_PROT_PROMOTE n.flags) q ∧
      x.stop = q.stop := by
    by_cases hr : ∃ q, RightOf S n.stop (VM_PROT_PROMOTE n.flags) q
    · obtain ⟨q, hr⟩ := hr
      exact .inr ⟨q, hr, hm.right q hr⟩
    · exact .inl (hm.noRight fun q hr' => hr ⟨q, hr'⟩)
  have hcover : x.start ≤ n.start ∧ n.stop ≤ x.stop := by
    constructor
    · rcases hleft with h | ⟨p, hl, h⟩
      · omega
      · have := hp.nonempty p hl.1
        have := hl.2.1
        omega
    · rcases hright with h | ⟨q, hr, h⟩
      · omega
      · have := hp.nonempty q hr.1
        have := hr.2.1
        omega
  by_cases ha : n.start ≤ a ∧ a < n.stop
  · rw [if_pos ha]
    constructor
    · rintro ⟨m, hmS, hma, rfl⟩
      rcases (hm.others m).mp hmS with rfl | ⟨hmS, hmn, -⟩
      · exact hm.flags
      · exact absurd ⟨hma, ha⟩ (hp.disjoint m hmS n hn hmn a)
    · rintro rfl
      exact ⟨x, (hm.others x).mpr (.inl rfl), ⟨by omega, by omega⟩, hm.flags⟩
  · rw [if_neg ha]
    constructor
    · rintro ⟨m, hmS, hma, rfl⟩
      rcases (hm.others m).mp hmS with rfl | ⟨hmS, -⟩
      · -- outside the page, `x` covers what a neighbour covered
        have hma : m.start ≤ a ∧ a < m.stop := hma
        by_cases hlo : a < n.start
        · rcases hleft with h | ⟨p, hl, h⟩
          · omega
          · exact ⟨p, hl.1, ⟨by omega, by rw [hl.2.1]; exact hlo⟩, by rw [hl.2.2, hm.flags]⟩
        · rcases hright with h | ⟨q, hr, h⟩
          · omega
          · exact ⟨q, hr.1, ⟨by rw [hr.2.1]; omega, by omega⟩, by rw [hr.2.2, hm.flags]⟩
      · exact ⟨m, hmS, hma, rfl⟩
    · rintro ⟨m, hmS, hma, rfl⟩
      have hmn : m ≠ n := fun he => ha (he ▸ hma)
      have hma' : m.start ≤ a ∧ a < m.stop := hma
      by_cases hl : LeftOf S n.start (VM_PROT_PROMOTE n.flags) m
      · have := hm.left m hl
        have := hl.2.1
        exact ⟨x, (hm.others x).mpr (.inl rfl), ⟨by omega, by omega⟩, hm.flags.trans hl.2.2.symm⟩
      · by_cases hr : RightOf S n.stop (VM_PROT_PROMOTE n.flags) m
        · have := hm.right m hr
          have := hr.2.1
          exact ⟨x, (hm.others x).mpr (.inl rfl), ⟨by omega, by omega⟩, hm.flags.trans hr.2.2.symm⟩
        · exact ⟨m, (hm.others m).mpr (.inr ⟨hmS, hmn, hl, hr⟩), hma, rfl⟩

/-! ### The merge on sets of nodes -/

namespace MergeStep

theorem mergedInto (hs : MergeStep S n R M x freed) (hp : PagesOk ps S) (hn : n ∈ S)
    (ha : NeighboursAgree S n) : MergedInto S n (S \ R ∪ M) x := by
  have hlt := hp.nonempty n hn
  cases hs with
  | keep hl hr =>
    obtain ⟨m, hm | hm⟩ := ha.touches
    · exact absurd hm (hl m)
    · exact absurd ((ha.agrees n (.inl ⟨hl, rfl⟩) m).mpr hm) (hr m)
  | @left p hl hr =>
    have hno : ∀ q, ¬ RightOf S n.stop (VM_PROT_PROMOTE n.flags) q := fun q hq =>
      hr q ((ha.agrees _ (.inr ⟨p, hl, rfl⟩) q).mpr hq)
    refine ⟨hl.2.2, fun p' hl' => by rw [hp.leftOf_unique hl' hl], fun hno' => absurd hl (hno' p),
      fun q hq => absurd hq (hno q), fun _ => rfl, fun m => ?_⟩
    simp only [Finset.mem_union, Finset.mem_sdiff, Finset.mem_insert, Finset.mem_singleton, not_or]
    constructor
    · rintro (⟨hmS, hmn, hmp⟩ | rfl)
      · exact .inr ⟨hmS, hmn, fun hm => hmp (hp.leftOf_unique hm hl), hno m⟩
      · exact .inl rfl
    · rintro (rfl | ⟨hmS, hmn, hml, -⟩)
      · exact .inr rfl
      · exact .inl ⟨hmS, hmn, fun he => hml (he ▸ hl)⟩
  | @right q hl hr =>
    have hq := (ha.agrees n (.inl ⟨hl, rfl⟩) q).mp hr
    refine ⟨hq.2.2, fun p' hl' => absurd hl' (hl p'), fun _ => rfl,
      fun q' hq' => by rw [hp.rightOf_unique hq' hq],
      fun hno => absurd hq (hno q), fun m => ?_⟩
    simp only [Finset.mem_union, Finset.mem_sdiff, Finset.mem_insert, Finset.mem_singleton, not_or]
    constructor
    · rintro (⟨hmS, hmn, hmq⟩ | rfl)
      · exact .inr ⟨hmS, hmn, hl m, fun hm => hmq (hp.rightOf_unique hm hq)⟩
      · exact .inl rfl
    · rintro (rfl | ⟨hmS, hmn, -, hmr⟩)
      · exact .inr rfl
      · exact .inl ⟨hmS, hmn, fun he => hmr (he ▸ hq)⟩
  | @both p q hl hr =>
    have hq := (ha.agrees _ (.inr ⟨p, hl, rfl⟩) q).mp hr
    refine ⟨hq.2.2, fun p' hl' => by rw [hp.leftOf_unique hl' hl], fun hno => absurd hl (hno p),
      fun q' hq' => by rw [hp.rightOf_unique hq' hq], fun hno => absurd hq (hno q), fun m => ?_⟩
    simp only [Finset.mem_union, Finset.mem_sdiff, Finset.mem_insert, Finset.mem_singleton, not_or]
    constructor
    · rintro (⟨hmS, hmn, hmp, hmq⟩ | rfl)
      · exact .inr ⟨hmS, hmn, fun hm => hmp (hp.leftOf_unique hm hl),
          fun hm => hmq (hp.rightOf_unique hm hq)⟩
      · exact .inl rfl
    · rintro (rfl | ⟨hmS, hmn, hml, hmr⟩)
      · exact .inr rfl
      · exact .inl ⟨hmS, hmn, fun he => hml (he ▸ hl), fun he => hmr (he ▸ hq)⟩

/-- What the second test finds is the node after the page, and it is the only one. -/
theorem agrees_of_right (hp : PagesOk ps S) (hr : MergesOn S m q) (hm : m.stop = n.stop)
    (hf : q.flags = VM_PROT_PROMOTE n.flags) (p : Node) : MergesOn S m p ↔
    RightOf S n.stop (VM_PROT_PROMOTE n.flags) p := by
  have hq : RightOf S n.stop (VM_PROT_PROMOTE n.flags) q := ⟨hr.1, hr.2.1.trans hm, hf⟩
  constructor
  · intro hp'
    rw [hp.eq_of_start hp'.1 hr.1 (hp'.2.1.trans hr.2.1.symm)]
    exact hq
  · intro hp'
    rw [hp.rightOf_unique hp' hq]
    exact hr

theorem agree (hs : MergeStep S n R M x freed) (hp : PagesOk ps S) (hn : n ∈ S)
    (hnull : ¬ ReadsNull S n)
    (hbits : n.flags &&& 0x3 = 0 ∨ n.flags &&& 0x3 = 1) {y : Node}
    (hm : MergedInto S n (S \ R ∪ M) y) : NeighboursAgree S n := by
  have hlt := hp.nonempty n hn
  cases hs with
  | keep hl hr =>
    rcases (hm.others n).mp (by simpa using hn) with he | ⟨-, hne, -⟩
    · exact absurd (he ▸ hm.flags) (promote_ne hbits).symm
    · exact absurd rfl hne
  | @left p hl hr =>
    have hno : ∀ q, ¬ RightOf S n.stop (VM_PROT_PROMOTE n.flags) q := by
      intro q hq
      have hpe := hl.2.1
      have hpn := hp.nonempty p hl.1
      have hqs := hq.2.1
      have hqn : q ≠ n := fun he => by rw [he] at hqs; omega
      have hqp : q ≠ p := fun he => by rw [he] at hqs; omega
      rcases (hm.others q).mp (by simp [hq.1, hqn, hqp]) with he | ⟨-, -, -, hno⟩
      · have := hm.left p hl
        rw [← he] at this
        omega
      · exact hno hq
    refine ⟨hnull, ⟨p, .inl hl⟩, ?_⟩
    rintro m (⟨hno', -⟩ | ⟨p', hl', rfl⟩) q
    · exact absurd hl (hno' p)
    · rw [hp.leftOf_unique hl' hl]
      exact iff_of_false (hr q) (hno q)
  | @right q hl hr =>
    have hqs : q.start = n.stop := hr.2.1
    have hf : q.flags = VM_PROT_PROMOTE n.flags := by
      rcases (hm.others { q with start := n.start }).mp (by simp) with he | ⟨hmS, -⟩
      · rw [← hm.flags, ← he]
      · exact absurd hmS (hp.extended_notMem hr.1 (by omega))
    refine ⟨hnull, ⟨q, .inr ⟨hr.1, hqs, hf⟩⟩, ?_⟩
    rintro m (⟨-, rfl⟩ | ⟨p', hl', -⟩) b
    · exact agrees_of_right hp hr rfl hf b
    · exact absurd hl' (hl p')
  | @both p q hl hr =>
    have hqs : q.start = n.stop := hr.2.1
    have hpe := hl.2.1
    have hpn := hp.nonempty p hl.1
    have hf : q.flags = VM_PROT_PROMOTE n.flags := by
      rcases (hm.others { q with start := p.start }).mp (by simp) with he | ⟨hmS, -⟩
      · rw [← hm.flags, ← he]
      · exact absurd hmS (hp.extended_notMem hr.1 (by omega))
    refine ⟨hnull, ⟨p, .inl hl⟩, ?_⟩
    rintro m (⟨hno', -⟩ | ⟨p', hl', rfl⟩) b
    · exact absurd hl (hno' p)
    · rw [hp.leftOf_unique hl' hl]
      exact agrees_of_right (n := n) hp hr rfl hf b

end MergeStep

/-! ### The call -/

/-- A call for a node of one page is a 3-way merge of the splayed root. -/
theorem Holds.findMod_single (hh : Holds h S T) (hp : PagesOk ps S) (hn : n ∈ S)
    (he : n.stop = n.start + ps.bytes) :
    ∃ h1 l r, spTreeFindMod ps h n.start = threeWayMerge h1 (some n.ref) ∧
      Linked h1 S (node l n.ref r) ∧
      (RootStays h n.start ↔ h1.root = some n.ref) ∧ ∀ x, h1.root = some x →
        ∃ m ∈ S, m.ref = x := by
  have hlt := hp.nonempty n hn
  have hT := hh.ne_nil hn
  have hc : n.Covers n.start := ⟨le_refl _, hlt⟩
  obtain ⟨h1, l, t, r, -, ht, he1, hl1, hroot, hstays, -, -, hlo, hhi⟩ := hh.splayed hT n.start
  obtain ⟨hcov, htn⟩ := hl1.coveringNode hp.ranges ht hlo hhi hn hc
  obtain rfl : t = n := by
    rcases htn with rfl | hprev
    · rfl
    · have := hlo n hn hprev.2.1
      omega
  refine ⟨h1, l, r, ?_, hl1, hstays, fun x hx => ?_⟩
  rotate_left
  · apply hh.linked.node_of_mem
    exact root?_mem (by rw [← hh.rep.root, ← hroot, hx])
  rw [hh.spTreeFindMod_eq hT he1 hcov, if_neg (by simp), hl1.modPage_single hn _ rfl he]
  exact PageSize.after_eq (he ▸ hp.bounded t hn)

/-- The nodes that are found from a stale `sp->root` are nodes of before. -/
theorem Linked.subset_of_holds (hl : Linked h S T) (hh : Holds h S' T')
    (hr : ∀ x, h.root = some x → ∃ m ∈ S, m.ref = x) : S' ⊆ S := by
  intro m hm
  have hsub := TreeAt.subset hl.shape.closedUnder hh.repInv.walk fun x hx => by
    obtain ⟨b, hb, rfl⟩ := hr x hx
    exact hl.ref_mem hb
  obtain ⟨hmT, hmr⟩ := (hh.node_iff m).mp hm
  exact (hl.node_iff m).mpr ⟨hsub _ hmT, hmr⟩

theorem neighboursAgree_of_mergesPage (hh : Holds h S T) (hp : PagesOk ps S) (hn : n ∈ S)
    (he : n.stop = n.start + ps.bytes) (hbits : n.flags &&& 0x3 = 0 ∨ n.flags &&& 0x3 = 1)
    (hm : MergesPage S n (spTreeFindMod ps h n.start)) : NeighboursAgree S n := by
  obtain ⟨h1, l, r, hcall, hl1, -, hstale⟩ := hh.findMod_single hp hn he
  rw [hcall] at hm
  obtain ⟨h', S', T', y, he', hh', hm, -⟩ := hm
  have hnull : ¬ ReadsNull S n := fun hnull => by
    rw [hl1.threeWayMerge_none hp.ranges hn hnull] at he'
    cases he'
  obtain ⟨h2, T2, R, M, x, freed, he2, hl2, hstep, -, -, hroot, -⟩ :=
    hl1.threeWayMerge hp.ranges hn hnull
  obtain ⟨rfl, -⟩ := Prod.mk.inj (Option.some.inj (he'.symm.trans he2))
  rcases hroot with hroot | ⟨hno, hno', hroot, -⟩
  · obtain rfl := hh'.unique (hl2.holds_of_root hroot)
    exact hstep.agree hp hn hnull hbits hm
  · -- nothing merged, and what is found from the old root is not promoted either
    obtain rfl : h' = h1 := hl1.threeWayMerge_keep hp.ranges hn hno hno' _ he'
    have hyS : y ∈ S := hl1.subset_of_holds hh' hstale ((hm.others y).mpr (.inl rfl))
    obtain rfl := hp.eq_of_start hyS hn (hm.noLeft hno)
    exact absurd hm.flags (promote_ne hbits).symm

/-- A page of its own is promoted and merged with the neighbours that fit exactly when
the neighbours agree. -/
theorem find_mod_merges_page_iff (hh : Holds h S T) (hp : PagesOk ps S) (hn : n ∈ S)
    (he : n.stop = n.start + ps.bytes)
    (hbits : n.flags &&& 0x3 = 0 ∨ n.flags &&& 0x3 = 1) :
    MergesPage S n (spTreeFindMod ps h n.start) ↔ NeighboursAgree S n := by
  refine ⟨neighboursAgree_of_mergesPage hh hp hn he hbits, fun ha => ?_⟩
  obtain ⟨h1, l, r, hcall, hl1, -⟩ := hh.findMod_single hp hn he
  obtain ⟨h', T', R, M, x, freed, he', hl', hstep, -, -, hroot, -⟩ :=
    hl1.threeWayMerge hp.ranges hn ha.reads
  have hm := hstep.mergedInto hp hn ha
  rcases hroot with hroot | ⟨hno, hno', -⟩
  · exact ⟨h', _, T', x, hcall.trans he', hl'.holds_of_root hroot, hm, hm.flagsAt hp hn⟩
  · obtain ⟨m, hm' | hm'⟩ := ha.touches
    · exact absurd hm' (hno m)
    · exact absurd ((ha.agrees n (.inl ⟨hno, rfl⟩) m).mpr hm') (hno' m)

/-- The page after a node that can be written to. -/
theorem find_mod_merges_page_left :
    MergesPage {⟨72, VM_PROT_WRITE, 0, 4096⟩, ⟨136, VM_PROT_READ, 4096, 8192⟩}
    ⟨136, VM_PROT_READ, 4096, 8192⟩ (spTreeFindMod pages4096 (twoNodes ⟨72, VM_PROT_WRITE, 0, 4096⟩
      ⟨136, VM_PROT_READ, 4096, 8192⟩ []) 4096) := by
  have hright : ∀ q ∈ ({⟨72, VM_PROT_WRITE, 0, 4096⟩, ⟨136, VM_PROT_READ, 4096, 8192⟩} :
      Finset Node), q.start ≠ 8192 := by
    decide
  refine (find_mod_merges_page_iff (n := ⟨136, VM_PROT_READ, 4096, 8192⟩)
    (twoNodes_holds (by decide) (by decide) (by decide) (by decide))
    (pagesOk_two (by decide) (by decide) (by decide) (by decide) (by decide) (by decide))
    (by decide) (by decide)
    (by decide)).mpr ⟨?_, ⟨⟨72, VM_PROT_WRITE, 0, 4096⟩, .inl ⟨by decide, by decide, by decide⟩⟩,
    ?_⟩
  · rintro ⟨⟨q, hq, hqs⟩, -⟩
    exact hright q hq hqs
  · intro m hm q
    have hstop : m.stop = 8192 := by
      rcases hm with ⟨-, rfl⟩ | ⟨p, -, rfl⟩ <;> rfl
    exact iff_of_false (fun hmq => hright q hmq.1 (hmq.2.1.trans hstop)) fun hq =>
      hright q hq.1 hq.2.1

/-- The page before a node that can be written to: the test reads the flags of a node
before it, and there is none. -/
theorem find_mod_does_not_merge : ∃ h S T n, Holds h S T ∧ PagesOk pages4096 S ∧ n ∈ S ∧
    n.stop = n.start + pages4096.bytes ∧ n.flags &&& 0x3 = 1 ∧
    ¬ MergesPage S n (spTreeFindMod pages4096 h n.start) := by
  refine ⟨twoNodes ⟨72, VM_PROT_READ, 0, 4096⟩ ⟨136, VM_PROT_WRITE, 4096, 8192⟩ [], _, _,
    ⟨72, VM_PROT_READ, 0, 4096⟩,
    twoNodes_holds (by decide) (by decide) (by decide) (by decide),
    pagesOk_two (by decide) (by decide) (by decide) (by decide) (by decide) (by decide), by
      decide, by decide, by decide,
    fun hm => ?_⟩
  have ha := neighboursAgree_of_mergesPage (n := ⟨72, VM_PROT_READ, 0, 4096⟩)
    (twoNodes_holds (by decide) (by decide) (by decide) (by decide))
    (pagesOk_two (by decide) (by decide) (by decide) (by decide) (by decide) (by decide))
    (by decide) (by decide) (by decide) hm
  exact ha.reads (readsNull_two rfl (by decide) (by decide))

end OpenOOC
