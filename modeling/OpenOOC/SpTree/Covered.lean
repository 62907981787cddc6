import OpenOOC.SpTree.Lost
import OpenOOC.SpTree.Uncovered

/-! `sp_tree_find_mod_and_lock` for a page that some node covers: when it leaves the
tree a tree of the same pages, and when the page alone gets new flags. -/

namespace OpenOOC

open Links SplayTree SplayTree.Tree Returns

variable {ps : PageSize} {h h' : Heap} {S S' R M : Finset Node} {T T' l r : Tree Ref} {n t x : Node}
  {k a : ℕ} {z : Addr}

/-- The call returns a node that covers the page, in a valid tree of whole pages that
covers the addresses that were covered. -/
def KeepsTree (ps : PageSize) (S : Finset Node) (k : ℕ) (res : Option (Heap × Ptr)) : Prop :=
  ∃ h' S' T' x, res = some (h', some (Node.ref x)) ∧ Holds h' S' T' ∧ PagesOk ps S' ∧
    (∀ a, (∃ n ∈ S', n.Covers a) ↔ ∃ n ∈ S, n.Covers a) ∧ x ∈ S' ∧ x.Covers k

/-- A call that succeeds and finds every address again could be served. -/
theorem servable_of_covers (hh : Holds h S T) (hp : RangesOk S) (hwrap : k + ps.bytes < 2 ^ 64)
    (hn : n ∈ S)
    (hc : n.Covers k) (hle : k + ps.bytes ≤ n.stop) (hsup : Supplied S h.supply) {out : Heap × Ptr}
    (he : spTreeFindMod ps h k = some out) (hh' : Holds out.1 S' T')
    (hcov : ∀ a, (∃ n ∈ S, n.Covers a) → ∃ n ∈ S', n.Covers a) :
    Servable ps S n k (RootStays h k) h.supply := by
  have hpos := ps.bytes_pos
  have hT := hh.ne_nil hn
  have hafter := PageSize.after_eq hwrap
  obtain ⟨h1, l, t, r, -, ht, he1, hl1, hroot, hstays, hsup1, -, hlo, hhi⟩ := hh.splayed hT k
  obtain ⟨hcov1, htn⟩ := hl1.coveringNode hp ht hlo hhi hn hc
  rw [hh.spTreeFindMod_eq hT he1 hcov1, if_neg (by simp)] at he
  have htt := hp.nonempty t ht
  have htn' (hs : n.start = k) : t = n := by
    rcases htn with rfl | hprev
    · rfl
    · have := hlo n hn hprev.2.1
      omega
  have hafterT (hne : n ≠ t) : n.stop ≤ t.start := by
    have hprev := htn.resolve_left hne
    have := hp.order hn ht hne
    have := hprev.2.1
    omega
  have hroot1 : h1.root ≠ none := by rwa [hroot, hh.rep.root, ne_eq, root?_eq_none]
  have hfresh : ∀ u, some u ∈ h1.supply → Fresh S u.1 := fun u hu => hsup.fresh u (hsup1 ▸ hu)
  -- a struct that covers an address of `t` and is not found any more
  have hlost {a : ℕ} (ha : t.Covers a) (X : Ref → Prop) (hL : Lost out.1 a X) : False := by
    obtain ⟨m, hm, hma⟩ := hcov a ⟨t, ht, ha⟩
    exact hL.not_covers hh' hm hma
  have hstale {a : ℕ} (ha : t.Covers a) (hr : ¬ RootStays h k) : ∃ X, Lost h1 a X ∧ ¬ X t.ref := by
    obtain ⟨x, hx⟩ := Option.ne_none_iff_exists'.mp hroot1
    have hxT : x ∈ T.toList := root?_mem (by rw [← hh.rep.root, ← hroot, hx])
    obtain ⟨m, hm, rfl, -⟩ := hh.node_of_mem hxT
    obtain ⟨X, hL, hXt, -⟩ := hl1.lost hp ht hx (hl1.ref_mem hm)
      (fun hxt => hr (hstays.mpr (hxt ▸ hx))) ha
    exact ⟨X, hL, hXt⟩
  rw [← hsup1]
  refine ⟨fun hs hne => ?_, fun hs hne hno => ?_, fun hs hne hno => ?_, fun hs hne hno hno' => ?_,
    fun hs hne hnull => ?_⟩
  · rw [hl1.modPage_mid hn hafter hs.ne hne.ne'] at he
    refine ⟨by_contra fun hr => ?_, midSplit_serves out he⟩
    obtain ⟨X, hL, hXt⟩ := hstale ⟨le_refl _, htt⟩ hr
    obtain ⟨X', hL'⟩ := hl1.midSplit_lost hL hn
      (fun hX => hafterT fun hnt => hXt (hnt ▸ hX)) hfresh hwrap hroot1 hc.2.le
      (by
        by_cases hnt : n = t
        · exact Or.inl (hnt ▸ hs)
        · exact Or.inr (hafterT hnt)) hne.le out he
    exact hlost ⟨le_refl _, htt⟩ X' hL'
  · obtain rfl := htn' hs
    rcases hl1.modPage_prefix hp hn hafter hs hne.ne' with ⟨q, hq, -⟩ | ⟨-, e0⟩
    · exact absurd hq (hno q)
    · rw [e0] at he
      refine ⟨by_contra fun hr => ?_, prefixSplit_serves out he⟩
      have ha : t.Covers (k + ps.bytes) := ⟨by omega, hne⟩
      obtain ⟨X, hL, hXt⟩ := hstale ha hr
      obtain ⟨X', hL'⟩ := hl1.prefixSplit_lost hL hn hXt hfresh hwrap hroot1 (le_refl _) out he
      exact hlost ha X' hL'
  · rcases hl1.modPage_suffix hp hn hafter hs.ne hne with ⟨q, hq, -⟩ | ⟨-, e0⟩
    · exact absurd hq (hno q)
    · rw [e0] at he
      refine ⟨by_contra fun hr => ?_, suffixSplit_serves out he⟩
      obtain ⟨X, hL, hXt⟩ := hstale ⟨le_refl _, htt⟩ hr
      obtain ⟨X', hL'⟩ := hl1.suffixSplit_lost hL hn
        (fun hX => hafterT fun hnt => hXt (hnt ▸ hX)) hfresh hwrap hroot1
        hc.2.le (by
          by_cases hnt : n = t
          · exact Or.inl (hnt ▸ hs)
          · exact Or.inr (hne ▸ hafterT hnt)) out he
      exact hlost ⟨le_refl _, htt⟩ X' hL'
  · obtain rfl := htn' hs
    rw [hl1.modPage_single hn hafter hs hne] at he
    by_contra hr
    obtain ⟨X, hL, hXt⟩ := hstale ⟨le_refl _, htt⟩ hr
    have hkeep := hl1.threeWayMerge_keep hp hn (hs ▸ hno) hno' out he
    exact hlost ⟨le_refl _, htt⟩ X (hkeep ▸ hL)
  · obtain rfl := htn' hs
    rw [hl1.modPage_single hn hafter hs hne, hl1.threeWayMerge_none hp hn hnull] at he
    cases he

theorem find_mod_keeps_tree_iff (hh : Holds h S T) (hp : PagesOk ps S) (hk : ps.bytes ∣ k)
    (hn : n ∈ S) (hc : n.Covers k)
    (hsup : Supplied S h.supply) :
    KeepsTree ps S k (spTreeFindMod ps h k) ↔ Servable ps S n k (RootStays h k) h.supply := by
  constructor
  · rintro ⟨h', S', T', x, he, hh', -, hcov, -⟩
    have hle := hp.page_le hn hk hc
    exact servable_of_covers hh hp.ranges (lt_of_le_of_lt hle (hp.bounded n hn)) hn hc hle hsup he
      hh' fun a => (hcov a).mpr
  · intro hsafe
    obtain ⟨h', T', used, R, M, x, freed, he, hh', hstep, -⟩ :=
      hh.findMod_covered hp hk hn hc hsup hsafe
    obtain ⟨-, hp', hx, hxk⟩ := hstep.pagesOk hp hk
      (lt_of_le_of_lt (hp.page_le hn hk hc) (hp.bounded n hn))
    exact ⟨h', _, T', x, he, hh', hp', (hstep.ranges hp.ranges hn hc).2.2, hx, hxk⟩

theorem supplied_two {a b : Node} (ha : a.addr = 72) (hb : b.addr = 136) :
    Supplied {a, b} [some (200, splayN), some (264, splayN)] := by
  have hfresh {z : Addr} (hz : z.toNat % 8 = 0) (h1 : (72 : Addr) ≠ z) (h2 : (136 : Addr) ≠ z) :
      Fresh {a, b} z := by
    refine ⟨hz, fun n hn => ?_⟩
    simp only [Finset.mem_insert, Finset.mem_singleton] at hn
    rcases hn with rfl | rfl
    · rwa [ha]
    · rwa [hb]
  refine ⟨fun u hu => ?_, fun z v y w rest he => ?_⟩
  · simp only [List.mem_cons, Option.some.injEq, List.not_mem_nil, or_false] at hu
    rcases hu with rfl | rfl <;> exact hfresh (by decide) (by decide) (by decide)
  · simp only [List.cons.injEq, Option.some.injEq, Prod.mk.injEq] at he
    obtain ⟨⟨rfl, -⟩, ⟨rfl, -⟩, -⟩ := he
    decide

theorem supplied_middle : Supplied {⟨72, VM_PROT_READ, 0, 4096⟩, ⟨136, VM_PROT_READ, 8192, 20480⟩}
    [some (200, splayN), some (264, splayN)] := supplied_two rfl rfl

theorem servable_middle : Servable pages4096
    {⟨72, VM_PROT_READ, 0, 4096⟩, ⟨136, VM_PROT_READ, 8192, 20480⟩}
    ⟨136, VM_PROT_READ, 8192, 20480⟩ 12288
      (RootStays (twoNodes ⟨72, VM_PROT_READ, 0, 4096⟩ ⟨136, VM_PROT_READ, 8192, 20480⟩
      [some (200, splayN), some (264, splayN)]) 12288)
        [some (200, splayN), some (264, splayN)] := by
  refine ⟨fun _ _ => ⟨⟨.vma 136, rfl, Or.inr (Or.inr ⟨by decide, rfl⟩)⟩,
    [(200, splayN), (264, splayN)], [], rfl, rfl⟩,
    fun hs => ?_, fun _ he => ?_, fun hs => ?_, fun hs => ?_⟩
  · exact absurd hs (by decide)
  · exact absurd he (by decide)
  · exact absurd hs (by decide)
  · exact absurd hs (by decide)

theorem twoNodes_middle :
    Holds (twoNodes ⟨72, VM_PROT_READ, 0, 4096⟩ ⟨136, VM_PROT_READ, 8192, 20480⟩
      [some (200, splayN), some (264, splayN)])
        {⟨72, VM_PROT_READ, 0, 4096⟩, ⟨136, VM_PROT_READ, 8192, 20480⟩}
    (node (node nil (.vma 72) nil) (.vma 136) nil) :=
  twoNodes_holds (by decide) (by decide) (by decide) (by decide)

/-- A page in the middle of three is split off. -/
theorem find_mod_keeps_tree_middle :
    KeepsTree pages4096 {⟨72, VM_PROT_READ, 0, 4096⟩, ⟨136, VM_PROT_READ, 8192, 20480⟩} 12288
    (spTreeFindMod pages4096 (twoNodes ⟨72, VM_PROT_READ, 0, 4096⟩ ⟨136, VM_PROT_READ, 8192, 20480⟩
      [some (200, splayN), some (264, splayN)]) 12288) :=
  (find_mod_keeps_tree_iff (n := ⟨136, VM_PROT_READ, 8192, 20480⟩)
    (twoNodes_holds (by decide) (by decide) (by decide) (by decide))
    (pagesOk_two (by decide) (by decide) (by decide) (by decide) (by decide) (by decide))
    (by decide) (by decide)
    (by decide) supplied_middle).mpr servable_middle

theorem not_rootStays_lower : ¬ RootStays
    (twoNodes ⟨72, VM_PROT_READ, 0, 4096⟩ ⟨136, VM_PROT_READ, 8192, 20480⟩
    [some (200, splayN), some (264, splayN)]) 0 := by
  rintro ⟨x, hx, hcase⟩
  obtain rfl : Ref.vma 136 = x := Option.some.inj hx
  rcases hcase with hcase | ⟨-, hcase⟩ | ⟨hcase, -⟩
  · exact absurd hcase (by decide)
  · exact absurd hcase (by decide)
  · exact absurd hcase (by decide)

theorem noLeft_lower {f : BitVec 64} (p : Node) :
    ¬ LeftOf {⟨72, VM_PROT_READ, 0, 4096⟩, ⟨136, VM_PROT_READ, 8192, 20480⟩} 0 f p := by
  rintro ⟨hp, hpe, -⟩
  simp only [Finset.mem_insert, Finset.mem_singleton] at hp
  rcases hp with rfl | rfl <;> exact absurd hpe (by decide)

theorem noMerge_lower (q : Node) :
    ¬ MergesOn {⟨72, VM_PROT_READ, 0, 4096⟩, ⟨136, VM_PROT_READ, 8192, 20480⟩}
      ⟨72, VM_PROT_READ, 0, 4096⟩ q := by
  rintro ⟨hq, hqs, -⟩
  simp only [Finset.mem_insert, Finset.mem_singleton] at hq
  rcases hq with rfl | rfl <;> exact absurd hqs (by decide)

/-- The page of the lower node: `sp->root` still points to the other node when the call is over. -/
theorem find_mod_loses_page : ∃ h S T, Holds h S T ∧ PagesOk pages4096 S ∧ (∃ n ∈ S, n.Covers 0) ∧
    Supplied S h.supply ∧
    ¬ KeepsTree pages4096 S 0 (spTreeFindMod pages4096 h 0) := by
  have hh := twoNodes_middle
  have hp : PagesOk pages4096 {⟨72, VM_PROT_READ, 0, 4096⟩, ⟨136, VM_PROT_READ, 8192, 20480⟩} :=
    pagesOk_two (by decide) (by decide) (by decide) (by decide) (by decide) (by decide)
  refine ⟨_, _, _, hh, hp, ⟨⟨72, VM_PROT_READ, 0, 4096⟩, by decide, by decide⟩, supplied_middle, ?_⟩
  rintro ⟨h', S', T', x, he, hh', -, hcov, -⟩
  have hsafe := servable_of_covers (n := ⟨72, VM_PROT_READ, 0, 4096⟩) hh hp.ranges (by decide)
    (by decide) (by decide)
    (by decide) supplied_middle he hh' fun a => (hcov a).mpr
  exact not_rootStays_lower (hsafe.keep rfl rfl noLeft_lower noMerge_lower)

/-! ### The flags of the page -/

/-- The page has the flags `f` and every other page its old flags, in a valid tree. -/
def UpdatesPage (ps : PageSize) (S : Finset Node) (k : ℕ) (f : BitVec 64)
    (res : Option (Heap × Ptr)) : Prop :=
  ∃ h' S' T' x, res = some (h', some (Node.ref x)) ∧ Holds h' S' T' ∧
    ∀ a g, FlagsAt S' a g ↔ if k ≤ a ∧ a < k + ps.bytes then g = f else FlagsAt S a g

theorem TreeAt.unique {p : Ptr} (h1 : TreeAt h p T) (h2 : TreeAt h p T') : T = T' := by
  induction T generalizing p T' with
  | nil =>
    cases T' with
    | nil => rfl
    | node l a r => exact nomatch h1.symm.trans h2.1
  | node l a r ihl ihr =>
    obtain ⟨rfl, hl, hr⟩ := h1
    cases T' with
    | nil => cases h2
    | node l' a' r' =>
      obtain ⟨ha, hl', hr'⟩ := h2
      obtain rfl := Option.some.inj ha
      rw [ihl hl hl', ihr hr hr']

theorem Holds.unique (h1 : Holds h S T) (h2 : Holds h S' T') : S = S' := by
  obtain rfl := h1.repInv.walk.unique h2.repInv.walk
  ext n
  rw [h1.node_iff, h2.node_iff]

def Heap.readTree (h : Heap) : ℕ → Ptr → Option (Tree Ref)
  | _, none => some nil
  | 0, some _ => none
  | i + 1, some x => do
    let l ← h.readTree i (h.child .spL x)
    let r ← h.readTree i (h.child .spR x)
    return node l x r

theorem Heap.treeAt_of_read {i : ℕ} {p : Ptr} (he : h.readTree i p = some T) : TreeAt h p T := by
  induction i generalizing p T with
  | zero =>
    cases p with
    | none =>
      obtain rfl := Option.some.inj he
      rfl
    | some x => cases he
  | succ i ih =>
    cases p with
    | none =>
      obtain rfl := Option.some.inj he
      rfl
    | some x =>
      obtain ⟨l, hl, he⟩ := Option.bind_eq_some_iff.mp he
      obtain ⟨r, hr, he⟩ := Option.bind_eq_some_iff.mp he
      obtain rfl := Option.some.inj he
      exact ⟨rfl, ih hl, ih hr⟩

def Heap.node? (h : Heap) : Ref → Option Node
  | .vma z => (h.cell (.vma z)).map fun v => v.node z
  | .stack => none

/-- The nodes of the tree, read from memory. -/
def Heap.readNodes (h : Heap) (i : ℕ) : Option (List Node) :=
  (h.readTree i h.root).map fun T => T.toList.filterMap h.node?

theorem Holds.mem_read {l : List Node} {i : ℕ} (hh : Holds h S T) (he : h.readNodes i = some l)
    (n : Node) :
    n ∈ S ↔ n ∈ l := by
  obtain ⟨T', hT, rfl⟩ := Option.map_eq_some_iff.mp he
  obtain rfl := hh.repInv.walk.unique (Heap.treeAt_of_read hT)
  rw [hh.node_iff, List.mem_filterMap]
  constructor
  · rintro ⟨hn, hr⟩
    obtain ⟨v, hv, hvn⟩ := Option.map_eq_some_iff.mp hr
    obtain ⟨hf, hs⟩ := Prod.mk.inj hvn
    obtain ⟨hs, he⟩ := Prod.mk.inj hs
    have hnode : v.node n.addr = n := by
      cases n
      subst hf hs he
      rfl
    have hv : h.cell (.vma n.addr) = some v := hv
    exact ⟨n.ref, hn, by rw [Node.ref, Heap.node?, hv, Option.map_some, hnode]⟩
  · rintro ⟨x, hx, hn⟩
    cases x with
    | stack => cases hn
    | vma z =>
      obtain ⟨v, hv, rfl⟩ := Option.map_eq_some_iff.mp hn
      refine ⟨hx, ?_⟩
      rw [Heap.range]
      exact congrArg (Option.map _) hv

/-- The struct for a page that is split off has the promoted flags already. -/
def StaleFits (k e : ℕ) (S : Finset Node) (n : Node) (supply : List (Option (Addr × VmArea))) :
    Prop :=
  SplitsOff k e S n → ∀ u rest, supply = some u :: rest → u.2.vmFlags = VM_PROT_PROMOTE n.flags

/-- A node of more than one page: the call for one of them is a split. -/
theorem CallStep.split_of_many {new : List (Addr × BitVec 64)} {freed : List Addr}
    (h : CallStep ps k S new R M x freed)
    (hp : PagesOk ps S) (hn : n ∈ S) (hc : n.Covers k) (hmany : n.start + ps.bytes < n.stop) :
    SplitStep k (k + ps.bytes) S n new R M x := by
  have hpos := ps.bytes_pos
  cases h with
  | add hno h => exact absurd hc (hno n hn)
  | @split m _ _ _ _ hm h =>
    obtain ⟨hs, he, -⟩ := h.page_in
    obtain rfl : m = n := by
      by_contra hne
      exact hp.disjoint m hm n hn hne k ⟨⟨hs, by omega⟩, hc⟩
    exact h
  | @merge m _ _ _ _ hm hs he h =>
    obtain rfl : m = n := by
      by_contra hne
      exact hp.disjoint m hm n hn hne k ⟨⟨hs.le, by omega⟩, hc⟩
    omega

/-- A call that can be served gives the page the flags of the node it returns. -/
theorem findMod_flags (hh : Holds h S T) (hp : PagesOk ps S) (hk : ps.bytes ∣ k) (hn : n ∈ S)
    (hc : n.Covers k)
    (hmany : n.start + ps.bytes < n.stop) (hsup : Supplied S h.supply)
    (hsafe : Servable ps S n k (RootStays h k) h.supply) :
    ∃ h' T' S', ∃ x : Node, spTreeFindMod ps h k = some (h', some x.ref) ∧ Holds h' S' T' ∧
      (∀ a g, FlagsAt S' a g ↔ if k ≤ a ∧ a < k + ps.bytes then g = x.flags else FlagsAt S a g) ∧
      (SplitsOff k (k + ps.bytes) S n → ∃ u rest, h.supply = some u :: rest ∧
        x.flags = u.2.vmFlags) ∧
      (¬ SplitsOff k (k + ps.bytes) S n → x.flags = VM_PROT_PROMOTE n.flags) := by
  have hke : k < k + ps.bytes := Nat.lt_add_of_pos_right ps.bytes_pos
  obtain ⟨h', T', used, R, M, x, freed, he, hh', hstep, hused, -⟩ :=
    hh.findMod_covered hp hk hn hc hsup hsafe
  have hsplit := hstep.split_of_many hp hn hc hmany
  obtain ⟨hR, -⟩ := hsplit.filled hp.ranges hke hn
  refine ⟨h', T', _, x, he, hh', hsplit.flagsAt hp hke hn hR, fun hoff => ?_,
    hsplit.flags_of_not_splitsOff⟩
  obtain ⟨z, hz⟩ := hsplit.flags_of_splitsOff hoff
  obtain ⟨u, rfl, hu⟩ := List.map_eq_singleton_iff.mp hz
  exact ⟨u, h'.supply, hused, (Prod.mk.inj hu).2.symm⟩

theorem needs_of_updatesPage (hh : Holds h S T) (hp : PagesOk ps S) (hk : ps.bytes ∣ k) (hn : n ∈ S)
    (hc : n.Covers k)
    (hmany : n.start + ps.bytes < n.stop) (hsup : Supplied S h.supply)
    (hu : UpdatesPage ps S k (VM_PROT_PROMOTE n.flags) (spTreeFindMod ps h k)) :
    Servable ps S n k (RootStays h k) h.supply ∧ StaleFits k (k + ps.bytes) S n h.supply := by
  have hke : k < k + ps.bytes := Nat.lt_add_of_pos_right ps.bytes_pos
  obtain ⟨h', S', T', x, he, hh', hflag⟩ := hu
  have hle := hp.page_le hn hk hc
  have hsafe := servable_of_covers hh hp.ranges
    (lt_of_le_of_lt hle (hp.bounded n hn)) hn hc hle hsup he hh'
    fun a ⟨m, hm, hma⟩ => ?_
  · refine ⟨hsafe, fun hoff u rest hs => ?_⟩
    obtain ⟨h2, T2, S2, x2, he2, hh2, hflag2, hoff2, -⟩ :=
      findMod_flags hh hp hk hn hc hmany hsup hsafe
    obtain rfl : h' = h2 := (Prod.mk.inj (Option.some.inj (he.symm.trans he2))).1
    obtain rfl := hh'.unique hh2
    obtain ⟨u2, rest2, hs2, hx2⟩ := hoff2 hoff
    obtain rfl : u2 = u := Option.some.inj (List.cons.inj (hs2.symm.trans hs)).1
    rw [← hx2]
    have h1 := (hflag2 k x2.flags).mpr (by rw [if_pos ⟨le_refl _, hke⟩])
    rwa [hflag, if_pos ⟨le_refl _, hke⟩] at h1
  · by_cases hak : k ≤ a ∧ a < k + ps.bytes
    · obtain ⟨b, hb, hba, -⟩ := (hflag a (VM_PROT_PROMOTE n.flags)).mpr (by rw [if_pos hak])
      exact ⟨b, hb, hba⟩
    · obtain ⟨b, hb, hba, -⟩ := (hflag a m.flags).mpr (by rw [if_neg hak]; exact ⟨m, hm, hma, rfl⟩)
      exact ⟨b, hb, hba⟩

/-- The page alone is promoted exactly when the call can be served and a struct for a
page that is split off carries the promoted flags. -/
theorem find_mod_promotes_page_iff (hh : Holds h S T) (hp : PagesOk ps S) (hk : ps.bytes ∣ k)
    (hn : n ∈ S) (hc : n.Covers k)
    (hmany : n.start + ps.bytes < n.stop) (hsup : Supplied S h.supply) :
    UpdatesPage ps S k (VM_PROT_PROMOTE n.flags) (spTreeFindMod ps h k) ↔
      Servable ps S n k (RootStays h k) h.supply ∧ StaleFits k (k + ps.bytes) S n h.supply := by
  refine ⟨needs_of_updatesPage hh hp hk hn hc hmany hsup, fun ⟨hsafe, hstale⟩ => ?_⟩
  obtain ⟨h', T', S', x, he, hh', hflag, hoff, hnot⟩ :=
    findMod_flags hh hp hk hn hc hmany hsup hsafe
  have hx : x.flags = VM_PROT_PROMOTE n.flags := by
    by_cases ho : SplitsOff k (k + ps.bytes) S n
    · obtain ⟨u, rest, hs, hx⟩ := hoff ho
      rw [hx, hstale ho u rest hs]
    · exact hnot ho
  exact ⟨h', S', T', x, he, hh', hx ▸ hflag⟩

/-- A page in the middle of three becomes writable. -/
theorem find_mod_promotes_page_middle :
    UpdatesPage pages4096 {⟨72, VM_PROT_READ, 0, 4096⟩, ⟨136, VM_PROT_READ, 8192, 20480⟩}
    12288 (VM_PROT_PROMOTE VM_PROT_READ)
      (spTreeFindMod pages4096 (twoNodes ⟨72, VM_PROT_READ, 0, 4096⟩
      ⟨136, VM_PROT_READ, 8192, 20480⟩ [some (200, splayN), some (264, splayN)]) 12288) :=
  (find_mod_promotes_page_iff (n := ⟨136, VM_PROT_READ, 8192, 20480⟩)
    (twoNodes_holds (by decide) (by decide) (by decide) (by decide))
    (pagesOk_two (by decide) (by decide) (by decide) (by decide) (by decide) (by decide))
    (by decide) (by decide)
    (by decide) (by decide) supplied_middle).mpr ⟨servable_middle, fun hoff => by
      rcases hoff with ⟨hs, -⟩ | ⟨-, he, -⟩
      · exact absurd hs (by decide)
      · exact absurd he (by decide)⟩

/-- The first page of three: nobody writes the flags of its new struct. -/
theorem find_mod_keeps_stale_flags : ∃ h S T n, Holds h S T ∧ PagesOk pages4096 S ∧ n ∈ S ∧
    n.Covers 8192 ∧
    n.flags &&& 0x3 = VM_PROT_READ ∧ n.start + pages4096.bytes < n.stop ∧ Supplied S h.supply ∧
    ¬ UpdatesPage pages4096 S 8192 (VM_PROT_PROMOTE n.flags) (spTreeFindMod pages4096 h 8192) := by
  have hh := twoNodes_middle
  have hp : PagesOk pages4096 {⟨72, VM_PROT_READ, 0, 4096⟩, ⟨136, VM_PROT_READ, 8192, 20480⟩} :=
    pagesOk_two (by decide) (by decide) (by decide) (by decide) (by decide) (by decide)
  refine ⟨_, _, _, ⟨136, VM_PROT_READ, 8192, 20480⟩, hh, hp,
    by decide, by decide, by decide, by decide, supplied_middle,
    fun hu => ?_⟩
  obtain ⟨-, hstale⟩ := needs_of_updatesPage hh hp (by decide) (by decide) (by decide)
    (by decide) supplied_middle hu
  have hoff : SplitsOff 8192 (8192 + pages4096.bytes)
      {⟨72, VM_PROT_READ, 0, 4096⟩, ⟨136, VM_PROT_READ, 8192, 20480⟩}
      ⟨136, VM_PROT_READ, 8192, 20480⟩ := Or.inl ⟨rfl, by decide, fun p hl => by
    obtain ⟨hpS, hpe, -⟩ := hl
    simp only [Finset.mem_insert, Finset.mem_singleton] at hpS
    rcases hpS with rfl | rfl <;> exact absurd hpe (by decide)⟩
  exact absurd (hstale hoff _ _ rfl) (by decide)

end OpenOOC
