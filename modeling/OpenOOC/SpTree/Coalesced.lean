import OpenOOC.SpTree.TouchRuns

/-! Runs of `sp_tree_find_mod_and_lock` in which the tree stays maximally coalesced:
no two nodes that touch have equal flags. -/

namespace OpenOOC

open Links SplayTree SplayTree.Tree Returns Ranges

variable {ps : PageSize} {h h' : Heap} {S R M : Finset Node} {T : Tree Ref} {n m p q x : Node}
  {k e : ℕ} {z : Addr}
  {new : List (Addr × BitVec 64)} {freed : List Addr}

/-- No node ends where one with the same flags starts. -/
def NoEqualNeighbours (S : Finset Node) : Prop :=
  Coalesced Node.start Node.stop Node.flags (S : Set Node)

theorem noEqualNeighbours_iff : NoEqualNeighbours S ↔ ∀ a ∈ S, ∀ b ∈ S, a.stop = b.start →
    a.flags ≠ b.flags := Iff.rfl

/-- Nodes that differ from what they touch come and go. -/
theorem NoEqualNeighbours.refill (hS : NoEqualNeighbours S) (hM : NoEqualNeighbours M)
    (hl : ∀ a ∈ S, a ∉ R → ∀ m ∈ M, a.stop = m.start → a.flags ≠ m.flags)
    (hr : ∀ a ∈ S, a ∉ R → ∀ m ∈ M, m.stop = a.start → m.flags ≠ a.flags) :
    NoEqualNeighbours (S \ R ∪ M) := by
  have := Coalesced.replace (R := (R : Set Node)) hS hM hl hr
  rwa [← Finset.coe_sdiff, ← Finset.coe_union] at this

theorem NoEqualNeighbours.single (hlt : n.start < n.stop) : NoEqualNeighbours {n} :=
  noEqualNeighbours_iff.mpr fun a ha b hb hab => by
    rw [Finset.mem_singleton.mp ha, Finset.mem_singleton.mp hb] at hab
    omega

theorem NoEqualNeighbours.pair (hn : n.start < n.stop) (hm : m.start < m.stop)
    (hf : n.flags ≠ m.flags) :
    NoEqualNeighbours {n, m} := by
  rw [noEqualNeighbours_iff]
  simp only [Finset.mem_insert, Finset.mem_singleton]
  rintro a (rfl | rfl) b (rfl | rfl) hab
  · omega
  · exact hf
  · exact hf.symm
  · omega

/-! ### Steps -/

theorem AddStep.coalesced (h : AddStep k e S z R M x freed) (hp : PagesOk ps S) (hke : k < e)
    (hS : NoEqualNeighbours S) : NoEqualNeighbours (S \ R ∪ M) := by
  have hne := hp.nonempty
  have hS' := noEqualNeighbours_iff.mp hS
  cases h with
  | alone hl hr =>
    refine hS.refill (.single hke) (fun a ha _ m hm he hf => ?_) fun a ha _ m hm he hf => ?_
    · obtain rfl := Finset.mem_singleton.mp hm
      exact hl a ⟨ha, he, hf⟩
    · obtain rfl := Finset.mem_singleton.mp hm
      exact hr a ⟨ha, he.symm, hf.symm⟩
  | @left p hl hr =>
    obtain ⟨hpS, hpe, hpf⟩ := hl
    have := hne p hpS
    refine hS.refill (.single (by simp only; omega)) (fun a ha _ m hm he => ?_)
      fun a ha _ m hm he hf => ?_
    · obtain rfl := Finset.mem_singleton.mp hm
      exact hS' a ha p hpS he
    · obtain rfl := Finset.mem_singleton.mp hm
      exact hr a ⟨ha, he.symm, hf.symm.trans hpf⟩
  | @right q hl hr =>
    obtain ⟨hqS, hqs, hqf⟩ := hr
    have := hne q hqS
    refine hS.refill (.single (by simp only; omega)) (fun a ha _ m hm he hf => ?_)
      fun a ha _ m hm he => ?_
    · obtain rfl := Finset.mem_singleton.mp hm
      exact hl a ⟨ha, he, hf.trans hqf⟩
    · obtain rfl := Finset.mem_singleton.mp hm
      exact hS' q hqS a ha he
  | @both p q hl hr =>
    obtain ⟨hpS, hpe, hpf⟩ := hl
    obtain ⟨hqS, hqs, hqf⟩ := hr
    have := hne p hpS
    have := hne q hqS
    refine hS.refill (.single (by simp only; omega)) (fun a ha _ m hm he hf => ?_)
      fun a ha _ m hm he => ?_
    · obtain rfl := Finset.mem_singleton.mp hm
      exact hS' a ha p hpS he (hf.trans (hqf.trans hpf.symm))
    · obtain rfl := Finset.mem_singleton.mp hm
      exact hS' q hqS a ha he

/-- The call for a page of `n` leaves no two nodes that touch with equal flags: a mid
split really changes the flags; a page that is split off differs from what it touches;
and where the 3-way merge stops, what it made differs from what it touches. -/
structure StaysCoalesced (ps : PageSize) (S : Finset Node) (n : Node) (k : ℕ)
    (supply : List (Option (Addr × VmArea))) : Prop where
  mid (hs : n.start < k) (he : k + ps.bytes < n.stop) : VM_PROT_PROMOTE n.flags ≠ n.flags
  splitOff (ho : SplitsOff k (k + ps.bytes) S n) (u : Addr × VmArea)
    (rest : List (Option (Addr × VmArea)))
    (hs : supply = some u :: rest) : u.2.vmFlags ≠ n.flags ∧
      ∀ m ∈ S, m.stop = k ∨ m.start = k + ps.bytes → m.flags ≠ u.2.vmFlags
  left (hs : n.start = k) (he : n.stop = k + ps.bytes) (p : Node)
    (hl : LeftOf S k (VM_PROT_PROMOTE n.flags) p)
    (hr : ∀ q, ¬ MergesOn S { p with stop := n.stop } q) : ∀ q ∈ S, q.start = n.stop →
    q.flags ≠ p.flags
  both (hs : n.start = k) (he : n.stop = k + ps.bytes) (p q : Node)
    (hl : LeftOf S k (VM_PROT_PROMOTE n.flags) p)
    (hr : MergesOn S { p with stop := n.stop } q) : ∀ m ∈ S, m.stop = p.start → m.flags ≠ q.flags

theorem SplitStep.coalesced {used : List (Addr × VmArea)} {rest : List (Option (Addr × VmArea))}
    (h : SplitStep k (k + ps.bytes) S n (used.map fun u => (u.1, u.2.vmFlags)) R M x)
    (hp : PagesOk ps S) (hn : n ∈ S)
    (hS : NoEqualNeighbours S) (hstay : StaysCoalesced ps S n k (used.map some ++ rest)) :
    NoEqualNeighbours (S \ R ∪ M) := by
  have hpos := ps.bytes_pos
  have hne := hp.nonempty
  have hS' := noEqualNeighbours_iff.mp hS
  have hlt := hne n hn
  have hord (a : Node) (ha : a ∈ S) (han : a ≠ n) : a.stop ≤ n.start ∨ n.stop ≤ a.start :=
    hp.order ha hn han
  generalize hused : (used.map fun u => (u.1, u.2.vmFlags)) = new at h
  cases h with
  | @mid z y s s' hs he =>
    have hmid := hstay.mid hs he
    refine hS.refill (noEqualNeighbours_iff.mpr ?_) (fun a ha haR m hm he' => ?_)
      fun a ha haR m hm he' => ?_
    · simp only [Finset.mem_insert, Finset.mem_singleton]
      rintro a (rfl | rfl | rfl) b (rfl | rfl | rfl) hab <;> simp only at hab ⊢
      all_goals first | exact hmid | exact hmid.symm | omega
    · have han : a ≠ n := fun h => haR (Finset.mem_singleton.mpr h)
      have := hord a ha han
      have := hne a ha
      simp only [Finset.mem_insert, Finset.mem_singleton] at hm
      rcases hm with rfl | rfl | rfl <;> simp only at he' ⊢
      · exact hS' a ha n hn he'
      · omega
      · omega
    · have han : a ≠ n := fun h => haR (Finset.mem_singleton.mpr h)
      have := hord a ha han
      have := hne a ha
      simp only [Finset.mem_insert, Finset.mem_singleton] at hm
      rcases hm with rfl | rfl | rfl <;> simp only at he' ⊢
      · omega
      · omega
      · exact hS' n hn a ha he'
  | @prefixMigrate p hs he hl =>
    obtain ⟨hpS, hpe, hpf⟩ := hl
    have := hne p hpS
    have hordp (a : Node) (ha : a ∈ S) (hap : a ≠ p) : a.stop ≤ p.start ∨ p.stop ≤ a.start :=
      hp.order ha hpS hap
    refine hS.refill (.pair (by simp only; omega) (by simp only; omega) (hS' p hpS n hn (by omega)))
      (fun a ha haR m hm he' => ?_) fun a ha haR m hm he' => ?_
    all_goals
      simp only [Finset.mem_insert, Finset.mem_singleton, not_or] at haR hm
      have := hord a ha haR.2
      have := hordp a ha haR.1
      have := hne a ha
    · rcases hm with rfl | rfl <;> simp only at he' ⊢
      · exact hS' a ha p hpS he'
      · omega
    · rcases hm with rfl | rfl <;> simp only at he' ⊢
      · omega
      · exact hS' n hn a ha he'
  | @prefixSplit z s hs he hl =>
    obtain ⟨u, rfl, hu⟩ := List.map_eq_singleton_iff.mp hused
    obtain ⟨rfl, rfl⟩ := Prod.mk.inj hu
    obtain ⟨hun, hum⟩ := hstay.splitOff (Or.inl ⟨hs, he, hl⟩) u rest rfl
    refine hS.refill (.pair (by simp only; omega) (by simp only; omega) hun)
      (fun a ha haR m hm he' => ?_) fun a ha haR m hm he' => ?_
    all_goals
      simp only [Finset.mem_insert, Finset.mem_singleton] at haR hm
      have := hord a ha haR
      have := hne a ha
    · rcases hm with rfl | rfl <;> simp only at he' ⊢
      · exact hum a ha (Or.inl he')
      · omega
    · rcases hm with rfl | rfl <;> simp only at he' ⊢
      · omega
      · exact hS' n hn a ha he'
  | @suffixMigrate q hs he hr =>
    obtain ⟨hqS, hqs, hqf⟩ := hr
    have := hne q hqS
    have hordq (a : Node) (ha : a ∈ S) (haq : a ≠ q) : a.stop ≤ q.start ∨ q.stop ≤ a.start :=
      hp.order ha hqS haq
    refine hS.refill (.pair (by simp only; omega) (by simp only; omega) (hS' n hn q hqS (by omega)))
      (fun a ha haR m hm he' => ?_) fun a ha haR m hm he' => ?_
    all_goals
      simp only [Finset.mem_insert, Finset.mem_singleton, not_or] at haR hm
      have := hord a ha haR.1
      have := hordq a ha haR.2
      have := hne a ha
    · rcases hm with rfl | rfl <;> simp only at he' ⊢
      · exact hS' a ha n hn he'
      · omega
    · rcases hm with rfl | rfl <;> simp only at he' ⊢
      · omega
      · exact hS' q hqS a ha he'
  | @suffixSplit z s hs he hr =>
    obtain ⟨u, rfl, hu⟩ := List.map_eq_singleton_iff.mp hused
    obtain ⟨rfl, rfl⟩ := Prod.mk.inj hu
    obtain ⟨hun, hum⟩ := hstay.splitOff (Or.inr ⟨hs, he, hr⟩) u rest rfl
    refine hS.refill (.pair (by simp only; omega) (by simp only; omega) hun.symm)
      (fun a ha haR m hm he' => ?_) fun a ha haR m hm he' => ?_
    all_goals
      simp only [Finset.mem_insert, Finset.mem_singleton] at haR hm
      have := hord a ha haR
      have := hne a ha
    · rcases hm with rfl | rfl <;> simp only at he' ⊢
      · exact hS' a ha n hn he'
      · omega
    · rcases hm with rfl | rfl <;> simp only at he' ⊢
      · omega
      · exact (hum a ha (Or.inr he'.symm)).symm

theorem MergeStep.coalesced (h : MergeStep S n R M x freed) (hp : PagesOk ps S) (hn : n ∈ S)
    (hs : n.start = k)
    (he : n.stop = k + ps.bytes) (hS : NoEqualNeighbours S) {supply : List (Option (Addr × VmArea))}
    (hstay : StaysCoalesced ps S n k supply) : NoEqualNeighbours (S \ R ∪ M) := by
  have hne := hp.nonempty
  have hS' := noEqualNeighbours_iff.mp hS
  have hlt := hne n hn
  cases h with
  | keep hl hr => simpa using hS
  | @left p hl hr =>
    have hleft := hstay.left hs he p (hs ▸ hl) hr
    obtain ⟨hpS, hpe, hpf⟩ := hl
    have := hne p hpS
    refine hS.refill (.single (by simp only; omega)) (fun a ha haR m hm he' => ?_)
      fun a ha haR m hm he' => ?_
    · obtain rfl := Finset.mem_singleton.mp hm
      exact hS' a ha p hpS he'
    · obtain rfl := Finset.mem_singleton.mp hm
      exact (hleft a ha he'.symm).symm
  | @right q hl hr =>
    -- the node before `n` has the promoted flags, so it does not touch `n`
    obtain ⟨hqS, hqs, b, hb, hbf⟩ := hr
    have := hne q hqS
    refine hS.refill (.single (by simp only; omega)) (fun a ha haR m hm he' => ?_)
      fun a ha haR m hm he' => ?_
    · obtain rfl := Finset.mem_singleton.mp hm
      have ha' := hp.ranges.isPrev ha he'
      obtain rfl : a = b := by
        have h1 := ha'.2.2 b hb.1 hb.2.1
        have h2 := hb.2.2 a ha ha'.2.1
        by_contra hab
        have := hp.order ha hb.1 hab
        have := hne a ha
        have := hne b hb.1
        omega
      exact absurd ⟨ha, he', hbf⟩ (hl a)
    · obtain rfl := Finset.mem_singleton.mp hm
      exact hS' q hqS a ha he'
  | @both p q hl hr =>
    have hboth := hstay.both hs he p q (hs ▸ hl) hr
    obtain ⟨hpS, hpe, hpf⟩ := hl
    obtain ⟨hqS, hqs, -⟩ := hr
    have hqs : q.start = n.stop := hqs
    have := hne p hpS
    have := hne q hqS
    refine hS.refill (.single (by simp only; omega)) (fun a ha haR m hm he' => ?_)
      fun a ha haR m hm he' => ?_
    · obtain rfl := Finset.mem_singleton.mp hm
      exact hboth a ha he'
    · obtain rfl := Finset.mem_singleton.mp hm
      exact hS' q hqS a ha he'

/-! ### A call of a run -/

theorem Holds.supplied (hh : Holds h S T) {c : Touch} (hc : c.Legal ps h) :
    Supplied S c.supply := by
  refine ⟨fun u hu => ⟨(hc.fresh u hu).2, fun n hn hnu => ?_⟩, hc.distinct⟩
  obtain ⟨v, hv, -⟩ := hh.linked.cell hn
  have hnone : h.cell (.vma u.1) = none := (hc.fresh u hu).1
  rw [← hnu] at hnone
  exact nomatch hnone.symm.trans hv

theorem Holds.withSupply (hh : Holds h S T) (supply : List (Option (Addr × VmArea))) :
    Holds { h with supply := supply } S T :=
  have hl : Linked { h with supply := supply } S T := hh.linked.of_cell hh.rep.stack fun _ _ => rfl
  hl.holds_of_root hh.rep.root

theorem findMod_serves (hh : Holds h S T) (hno : ∀ n ∈ S, ¬ n.Covers k) :
    Ensures (spTreeFindMod ps h k) fun _ => Serves h.supply 1 := by
  have hserves {h1 : Heap} {s e : ℕ} {f : Option (BitVec 64)} : Ensures (newNode h1 s e f) fun _ =>
      Serves h1.supply 1 :=
    newNode_inv.mono fun _ ⟨z, v, rest, hs, _⟩ => serves_one.mpr ⟨z, v, rest, hs⟩
  by_cases hT : T = nil
  · have hroot : h.root = none := by rw [hh.rep.root, hT]; rfl
    unfold spTreeFindMod
    rw [if_pos hroot]
    exact .bind hserves fun _ hs => .some hs
  · obtain ⟨h1, l, t, r, -, ht, he, hl1, -, -, hsup1, -⟩ := hh.splayed hT k
    rw [hh.spTreeFindMod_eq hT he (hl1.coveringNode_none ht hno), if_pos rfl, ← hsup1]
    exact .bind hserves fun _ hs => .bind (.any _) fun _ _ => .bind (.any _) fun _ _ =>
      .bind (.any _) fun _ _ =>
      .bind (.any _) fun _ _ => fun _ _ => hs

/-- A legal call that can be served does one of the steps. -/
theorem Touch.Legal.done {c : Touch} (hc : c.Legal ps h) (hh : Holds h S T) (hp : PagesOk ps S)
    (hsafe : ∀ n ∈ S, n.Covers c.vmAddr →
    Servable ps S n c.vmAddr (RootStays h c.vmAddr) c.supply) :
    Ensures (c.exec ps h) fun _ => CallDone ps { h with supply := c.supply } S c.vmAddr
      (c.exec ps h) := fun out he => by
  have hh' := hh.withSupply c.supply
  by_cases hcov : ∃ n ∈ S, n.Covers c.vmAddr
  · obtain ⟨n, hn, hcn⟩ := hcov
    exact hh'.findMod_covered hp hc.page hn hcn (hh.supplied hc) (hsafe n hn hcn)
  · have hno : ∀ n ∈ S, ¬ n.Covers c.vmAddr := fun n hn hcn => hcov ⟨n, hn, hcn⟩
    exact hh'.findMod_uncovered hp hc.page hc.inRange hno (hh.supplied hc)
      (findMod_serves hh' hno out he)

/-! ### Runs -/

/-- A page that is covered can be served, and the call leaves no equal neighbours. -/
def MeetsCoalesced (ps : PageSize) (h : Heap) (c : Touch) : Prop :=
  ∀ S T, Holds h S T → ∀ n ∈ S, n.Covers c.vmAddr →
    Servable ps S n c.vmAddr (RootStays h c.vmAddr) c.supply ∧
    StaysCoalesced ps S n c.vmAddr c.supply

theorem CallStep.coalesced {used : List (Addr × VmArea)} {rest : List (Option (Addr × VmArea))}
    (h : CallStep ps k S (used.map fun u => (u.1, u.2.vmFlags)) R M x freed) (hp : PagesOk ps S)
    (hS : NoEqualNeighbours S)
    (hstay : ∀ n ∈ S, n.Covers k → StaysCoalesced ps S n k (used.map some ++ rest)) :
    NoEqualNeighbours (S \ R ∪ M) := by
  have hpos := ps.bytes_pos
  generalize hused : (used.map fun u => (u.1, u.2.vmFlags)) = new at h
  cases h with
  | add hno h => exact h.coalesced hp (by omega) hS
  | split hn h =>
    obtain ⟨hnk, hen, -⟩ := h.page_in
    subst hused
    exact h.coalesced hp hn hS (hstay _ hn ⟨hnk, by omega⟩)
  | merge hn hs he h => exact h.coalesced hp hn hs he hS (hstay _ hn ⟨hs.le, by omega⟩)

theorem onePage_holds : ∃ T, Holds onePage {⟨72, VM_PROT_READ, 0, 4096⟩} T := by
  obtain ⟨h', T, he, hh, -⟩ := @Holds.findMod_empty pages4096 _ 0
    ((holds_init (h := emptyHeap) rfl).withSupply [staleZero 72])
    (by decide) _ _ _ rfl (by decide)
  have hrun : spTreeFindMod pages4096 { emptyHeap with supply := [staleZero 72] } 0 =
      some (onePage, some (.vma 72)) := by
    unfold spTreeFindMod
    rw [if_pos (show emptyHeap.root = none from rfl), @newNode_eq _ _ _ [] rfl]
    rfl
  obtain ⟨rfl, -⟩ := Prod.mk.inj (Option.some.inj (hrun.symm.trans he))
  exact ⟨T, hh⟩

/-- In every state that is reached by calls which meet the condition, the tree is a tree
of whole pages in which no node has the flags of the node it touches. -/
theorem touched_nodes_stay_coalesced (hr : Reached ps (MeetsCoalesced ps) h) :
    ∃ S T, Holds h S T ∧ PagesOk ps S ∧ NoEqualNeighbours S := by
  refine hr.invariant (I := fun h => ∃ S T, Holds h S T ∧ PagesOk ps S ∧ NoEqualNeighbours S)
    ⟨∅, nil, holds_init (h := emptyHeap) rfl, ⟨by simp, by simp, by simp, by simp [DisjointRanges]⟩,
      noEqualNeighbours_iff.mpr (by simp)⟩ ?_
  rintro h c ⟨S, T, hh, hp, hS⟩ hc hm out he
  obtain ⟨h', T', used, R, M, x, freed, he', hh', hstep, hsup, -⟩ :=
    hc.done hh hp (fun n hn hcn => (hm S T hh n hn hcn).1) out he
  obtain rfl := Option.some.inj (he.symm.trans he')
  have hsup : c.supply = used.map some ++ h'.supply := hsup
  exact ⟨_, T', hh', (hstep.pagesOk hp hc.page hc.inRange).2.1,
    hstep.coalesced hp hS fun n hn hcn => hsup ▸ (hm S T hh n hn hcn).2⟩

/-- The page is in no node, or in the middle of one whose flags the promotion changes, and
the call does not find `sp->root` stale. -/
def newOrMid (ps : PageSize) (h : Heap) (c : Touch) : Bool :=
  (h.readNodes 3).any fun l => l.all fun n => !decide (n.Covers c.vmAddr) ||
    decide (n.start < c.vmAddr ∧ c.vmAddr + ps.bytes < n.stop ∧
      VM_PROT_PROMOTE n.flags ≠ n.flags) &&
    (h.root.any fun r => decide (h.start r < c.vmAddr ∧ h.child .spR r = none)) &&
    match c.supply with
    | [some _, some _] => true
    | _ => false

theorem meetsCoalesced_of_newOrMid {c : Touch} (hc : newOrMid ps h c = true) :
    MeetsCoalesced ps h c := by
  intro S T hh n hn hcn
  obtain ⟨l, hl, hall⟩ := (Option.any_eq_true _ _).mp hc
  have htest := List.all_eq_true.mp hall n ((hh.mem_read hl n).mp hn)
  simp only [hcn, decide_true, Bool.not_true, Bool.false_or, Bool.and_eq_true] at htest
  obtain ⟨⟨hmid, hroot⟩, hsup⟩ := htest
  obtain ⟨hs, he, hf⟩ := of_decide_eq_true hmid
  obtain ⟨r, hr, hr'⟩ := (Option.any_eq_true _ _).mp hroot
  have hstays : RootStays h c.vmAddr := ⟨r, hr, Or.inr (Or.inr (of_decide_eq_true hr'))⟩
  have hserves : Serves c.supply 2 := by
    split at hsup
    · rename_i u v hs
      exact ⟨[u, v], [], rfl, hs⟩
    · cases hsup
  refine ⟨⟨fun _ _ => ⟨hstays, hserves⟩, ?_, ?_, ?_, ?_⟩, ⟨fun _ _ => hf, ?_, ?_, ?_⟩⟩
  · exact fun h => absurd h hs.ne
  · exact fun _ h => absurd h he.ne'
  · exact fun h => absurd h hs.ne
  · exact fun h => absurd h hs.ne
  · rintro (⟨h, -⟩ | ⟨-, h, -⟩)
    · exact absurd h hs.ne
    · exact absurd h he.ne'
  · exact fun h => absurd h hs.ne
  · exact fun h => absurd h hs.ne

/-- Three pages are touched one after the other and merge; then the page in the middle is
touched again and split off on both sides. -/
theorem touched_nodes_stay_coalesced_split :
    ∃ h, Reached pages4096 (MeetsCoalesced pages4096) h ∧
      h.readNodes 3 = some [⟨72, VM_PROT_READ, 0, 4096⟩, ⟨136, VM_PROT_WRITE, 4096, 8192⟩,
        ⟨200, VM_PROT_READ, 8192, 12288⟩] ∧
      ∃ S T, Holds h S T ∧ PagesOk pages4096 S ∧ NoEqualNeighbours S := by
  have hrun : (touchAll pages4096 (newOrMid pages4096) emptyHeap
      [⟨0, [staleZero 72]⟩, ⟨4096, [staleZero 136]⟩, ⟨8192, [staleZero 200]⟩,
        ⟨4096, [staleZero 136, staleZero 200]⟩]).any (fun h => h.readNodes 3 =
          some [⟨72, VM_PROT_READ, 0, 4096⟩, ⟨136, VM_PROT_WRITE, 4096, 8192⟩,
            ⟨200, VM_PROT_READ, 8192, 12288⟩]) = true := by
    decide +kernel
  obtain ⟨h, he, hnodes⟩ := (Option.any_eq_true _ _).mp hrun
  have hreached : Reached pages4096 (MeetsCoalesced pages4096) h :=
    reached_touchAll .empty (fun _ _ => meetsCoalesced_of_newOrMid) he
  exact ⟨h, hreached, of_decide_eq_true hnodes, touched_nodes_stay_coalesced hreached⟩

/-- Pages 0 and 1 are touched, then page 0 again: it is split off in the struct that was
freed when page 1 was merged, and that struct still says `VM_PROT_READ`. -/
theorem touched_nodes_come_apart : ∃ h, Reached pages4096 (fun _ _ => True) h ∧ ∃ x p vx vp,
    h.cell x = some vx ∧
    h.cell p = some vp ∧ h.root = some p ∧ vx.vmPrev = some p ∧ vp.vmEnd = vx.vmStart ∧
    vp.vmFlags = vx.vmFlags := by
  have hrun : (touchAll pages4096 (fun _ _ => true) emptyHeap
      [⟨0, [staleZero 72]⟩, ⟨4096, [staleZero 136]⟩,
        ⟨0, [some (136, { splayN with vmFlags := VM_PROT_READ })]⟩]).any
      (fun h => h.root = some (.vma 136) ∧ (h.cell (.vma 72)).any fun vx =>
        (h.cell (.vma 136)).any fun vp =>
        vx.vmPrev = some (.vma 136) ∧ vp.vmEnd = vx.vmStart ∧ vp.vmFlags = vx.vmFlags) = true := by
    decide +kernel
  obtain ⟨h, he, hp⟩ := (Option.any_eq_true _ _).mp hrun
  obtain ⟨hroot, hv⟩ := of_decide_eq_true hp
  obtain ⟨vx, hvx, hv⟩ := (Option.any_eq_true _ _).mp hv
  obtain ⟨vp, hvp, hv⟩ := (Option.any_eq_true _ _).mp hv
  exact ⟨h, reached_touchAll .empty (fun _ _ _ => trivial) he, .vma 72, .vma 136, vx, vp, hvx, hvp,
    hroot,
    of_decide_eq_true hv⟩

end OpenOOC
