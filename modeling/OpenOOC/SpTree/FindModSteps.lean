import OpenOOC.SpTree.Linked

/-! One lemma for each way in which `sp_tree_find_mod_and_lock` changes a tree of
pages. -/

namespace OpenOOC

open Links SplayTree SplayTree.Tree

variable {ps : PageSize} {h h' : Heap} {S : Finset Node} {T l r : Tree Ref} {n m p q t : Node}
  {k : ℕ}
  {f : BitVec 64}

/-! ### The tests -/

namespace Linked

theorem get_ref (hl : Linked h S T) (hn : n ∈ S) :
    ∃ v, h.get (some n.ref) = some v ∧ v.vmPrev = h.prev n.ref ∧
    v.vmNext = h.next n.ref ∧ v.vmFlags = n.flags ∧ v.vmStart = n.start ∧ v.vmEnd = n.stop :=
      hl.cell hn

theorem prevMatches_isPrev (hl : Linked h S T) (hn : n ∈ S) (f : BitVec 64) :
    (∃ p, IsPrev S n p ∧ (p.stop = n.start ∧ p.flags = f) ∧
      prevMatches h (some n.ref) f = some true) ∨
      (∀ p, IsPrev S n p → ¬ (p.stop = n.start ∧ p.flags = f)) ∧
      prevMatches h (some n.ref) f = some false := by
  obtain ⟨v, hv, hvp, -, -, hvs, -⟩ := hl.get_ref hn
  unfold prevMatches
  simp only [hv, hvp, hvs, Option.bind_eq_bind, Option.bind_some, Option.pure_def]
  rcases hl.prev_cases hn with ⟨hprev, hmin⟩ | ⟨p, hpn, hprev⟩
  · refine Or.inr ⟨fun p hp => ?_, by rw [hprev, if_pos rfl]⟩
    have := hmin p hp.1
    have := hp.2.1
    omega
  · obtain ⟨w, hw, -, -, hwf, -, hwe⟩ := hl.get_ref hpn.1
    simp only [hprev, reduceCtorEq, if_false, hw, hwf, hwe, Option.bind_some, Option.some.injEq]
    by_cases hm : p.stop = n.start ∧ p.flags = f
    · exact Or.inl ⟨p, hpn, hm, decide_eq_true hm⟩
    · refine Or.inr ⟨fun p' hp' => ?_, decide_eq_false hm⟩
      rwa [hl.isPrev_unique hp' hpn]

theorem prevMatches_cases (hl : Linked h S T) (hp : RangesOk S) (hn : n ∈ S) (f : BitVec 64) :
    (∃ p, LeftOf S n.start f p ∧ prevMatches h (some n.ref) f = some true) ∨
      (∀ p, ¬ LeftOf S n.start f p) ∧ prevMatches h (some n.ref) f = some false := by
  rcases hl.prevMatches_isPrev hn f with ⟨p, hpn, hm, he⟩ | ⟨hno, he⟩
  · exact Or.inl ⟨p, ⟨hpn.1, hm⟩, he⟩
  · exact Or.inr ⟨fun p hpl => hno p (hp.isPrev hpl.1 hpl.2.1) hpl.2, he⟩

theorem nextMatches_isNext (hl : Linked h S T) (hn : n ∈ S) (f : BitVec 64) :
    (∃ q, IsNext S n q ∧ (q.start = n.stop ∧ q.flags = f) ∧
      nextMatches h (some n.ref) f = some true) ∨
      (∀ q, IsNext S n q → ¬ (q.start = n.stop ∧ q.flags = f)) ∧
      nextMatches h (some n.ref) f = some false := by
  obtain ⟨v, hv, -, hvn, -, -, hve⟩ := hl.get_ref hn
  unfold nextMatches
  simp only [hv, hvn, hve, Option.bind_eq_bind, Option.bind_some, Option.pure_def]
  rcases hl.next_cases hn with ⟨hnext, hmax⟩ | ⟨q, hqn, hnext⟩
  · refine Or.inr ⟨fun q hq => ?_, by rw [hnext, if_pos rfl]⟩
    have := hmax q hq.1
    have := hq.2.1
    omega
  · obtain ⟨w, hw, -, -, hwf, hws, -⟩ := hl.get_ref hqn.1
    simp only [hnext, reduceCtorEq, if_false, hw, hwf, hws, Option.bind_some, Option.some.injEq]
    by_cases hm : q.start = n.stop ∧ q.flags = f
    · exact Or.inl ⟨q, hqn, hm, decide_eq_true hm⟩
    · refine Or.inr ⟨fun q' hq' => ?_, decide_eq_false hm⟩
      rwa [hl.isNext_unique hq' hqn]

theorem nextMatches_cases (hl : Linked h S T) (hp : RangesOk S) (hn : n ∈ S) (f : BitVec 64) :
    (∃ q, RightOf S n.stop f q ∧ nextMatches h (some n.ref) f = some true) ∨
      (∀ q, ¬ RightOf S n.stop f q) ∧ nextMatches h (some n.ref) f = some false := by
  rcases hl.nextMatches_isNext hn f with ⟨q, hqn, hm, he⟩ | ⟨hno, he⟩
  · exact Or.inl ⟨q, ⟨hqn.1, hm⟩, he⟩
  · exact Or.inr ⟨fun q hqr => hno q (hp.isNext hn hqr.1 hqr.2.1) hqr.2, he⟩

/-- The last test reads the flags of the node before `n`, if the node after `n` touches it. -/
theorem threeWayMatches_cases (hl : Linked h S T) (hp : RangesOk S) (hn : n ∈ S) :
    (∃ q, MergesOn S n q ∧ threeWayMatches h (some n.ref) = some true) ∨
      (∀ q, ¬ MergesOn S n q) ∧
        threeWayMatches h (some n.ref) =
          if ∃ q ∈ S, q.start = n.stop ∧ ∀ m ∈ S, n.start ≤ m.start then none else some false := by
  obtain ⟨v, hv, hvp, hvn, hvf, -, hve⟩ := hl.get_ref hn
  have hlt := hp.nonempty n hn
  unfold threeWayMatches
  simp only [hv, hvn, hvf, hvp, hve, Option.bind_eq_bind, Option.bind_some, Option.pure_def]
  rcases hl.next_cases hn with ⟨hnext, hmax⟩ | ⟨q, hqn, hnext⟩
  · have hno : ∀ q ∈ S, q.start ≠ n.stop := fun q hq he => by
      have := hmax q hq
      omega
    refine Or.inr ⟨fun q hq => hno q hq.1 hq.2.1, ?_⟩
    rw [hnext, if_pos rfl, if_neg]
    rintro ⟨q, hq, he, -⟩
    exact hno q hq he
  · obtain ⟨w, hw, -, -, -, hws, -⟩ := hl.get_ref hqn.1
    simp only [hnext, reduceCtorEq, if_false, hw, hws, Option.bind_some]
    have huniq : ∀ q' ∈ S, q'.start = n.stop → q' = q :=
      fun q' hq' he => hl.isNext_unique (hp.isNext hn hq' he) hqn
    by_cases hqe : q.start = n.stop
    · rw [if_pos hqe]
      rcases hl.prev_cases hn with ⟨hprev, hmin⟩ | ⟨p, hpn, hprev⟩
      · refine Or.inr ⟨fun q' ⟨_, _, p, hpn, _⟩ => ?_, ?_⟩
        · have := hmin p hpn.1
          have := hpn.2.1
          omega
        · rw [if_pos ⟨q, hqn.1, hqe, hmin⟩, hprev]
          rfl
      · obtain ⟨u, hu, -, -, huf, -⟩ := hl.get_ref hpn.1
        simp only [hprev, hu, huf, Option.bind_some]
        by_cases hm : p.flags = VM_PROT_PROMOTE n.flags
        · exact Or.inl ⟨q, ⟨hqn.1, hqe, p, hpn, hm⟩, congrArg some (decide_eq_true hm)⟩
        · refine Or.inr ⟨fun q' ⟨_, _, p', hp'n, hm'⟩ => hm ?_, ?_⟩
          · rwa [hl.isPrev_unique hpn hp'n]
          · rw [if_neg, decide_eq_false hm]
            rintro ⟨-, -, -, hmin⟩
            have := hmin p hpn.1
            have := hpn.2.1
            omega
    · have hno : ∀ q' ∈ S, q'.start ≠ n.stop := fun q' hq' he => hqe (huniq q' hq' he ▸ he)
      rw [if_neg hqe, if_neg]
      · exact Or.inr ⟨fun q' hq' => hno q' hq'.1 hq'.2.1, rfl⟩
      · rintro ⟨q', hq', he, -⟩
        exact hno q' hq' he

/-! ### Merging -/

/-- A prefix merge of the root: the node before it takes its range and becomes the root. -/
theorem prefixMerge (hl : Linked h S (node l n.ref r)) (hn : n ∈ S) (hpn : IsPrev S n p) :
    ∃ h' l' r', OpenOOC.prefixMerge h (some n.ref) = some (h', some p.ref) ∧
      Holds h' (S \ {n, p} ∪ {{ p with stop := n.stop }}) (node l' p.ref r') ∧
      h'.supply = h.supply ∧
      h'.calls = h.calls ++ [.free n.addr] ∧ Joined l r (node l' p.ref r') := by
  obtain ⟨v, hv, hvp, -, -, -, hve⟩ := hl.get_ref hn
  have hprev : h.prev n.ref = some p.ref := by
    rcases hl.prev_cases hn with ⟨-, hmin⟩ | ⟨p', hp', hprev⟩
    · have := hmin p hpn.1
      have := hpn.2.1
      omega
    · rw [hprev, hl.isPrev_unique hp' hpn]
  obtain ⟨h1, h2, T1, he1, he2, hh2, hsup2, hcalls2, hroot, hjoin⟩ := hl.drop hn
  obtain ⟨l', r', rfl⟩ := node_of_root? (hroot p hpn)
  have hpS : p ∈ S.erase n := Finset.mem_erase.mpr
    ⟨fun he => by have := hpn.2.1; rw [he] at this; omega, hpn.1⟩
  obtain ⟨h3, he3, hl3, hroot3, hsup3, hcalls3, -⟩ := hh2.linked.setStop hpS n.stop
  have hS : S.erase n \ {p} ∪ {{ p with stop := n.stop }} = S \ {n, p} ∪
      {{ p with stop := n.stop }} := by
    ext b
    simp only [Finset.mem_union, Finset.mem_sdiff, Finset.mem_erase, Finset.mem_singleton,
      Finset.mem_insert]
    tauto
  rw [hS] at hl3
  refine ⟨h3, l', r', ?_, hl3.holds_of_root (hroot3.trans hh2.rep.root), hsup3.trans hsup2,
    hcalls3.trans hcalls2, hjoin⟩
  unfold OpenOOC.prefixMerge
  simp only [hv, hvp, hprev, hve, he1, he2, he3, Option.bind_eq_bind, Option.bind_some,
    Option.pure_def]

/-- A suffix merge of the root: the node after it takes its range. -/
theorem suffixMerge (hl : Linked h S (node l n.ref r)) (hn : n ∈ S) (hqn : IsNext S n q) :
    ∃ h' T', OpenOOC.suffixMerge h (some n.ref) = some (h', some q.ref) ∧
      Holds h' (S \ {n, q} ∪ {{ q with start := n.start }}) T' ∧ h'.supply = h.supply ∧
      h'.calls = h.calls ++ [.free n.addr] ∧ Joined l r T' := by
  obtain ⟨v, hv, -, hvn, -, hvs, -⟩ := hl.get_ref hn
  have hnext : h.next n.ref = some q.ref := by
    rcases hl.next_cases hn with ⟨-, hmax⟩ | ⟨q', hq', hnext⟩
    · have := hmax q hqn.1
      have := hqn.2.1
      omega
    · rw [hnext, hl.isNext_unique hq' hqn]
  obtain ⟨h1, h2, T1, he1, he2, hh2, hsup2, hcalls2, -, hjoin⟩ := hl.drop hn
  have hqS : q ∈ S.erase n := Finset.mem_erase.mpr
    ⟨fun he => by have := hqn.2.1; rw [he] at this; omega, hqn.1⟩
  obtain ⟨h3, he3, hl3, hroot3, hsup3, hcalls3, -⟩ := hh2.linked.setStart hqS n.start
    (fun b hb hlt => by
      obtain ⟨hbn, hbS⟩ := Finset.mem_erase.mp hb
      by_contra hge
      rcases Nat.lt_or_ge n.start b.start with hnb | hnb
      · have := hqn.2.2 b hbS hnb
        omega
      · exact hbn (hl.eq_of_start hbS hn (by omega)))
    fun b _ hlt => hqn.2.1.trans hlt
  have hS : S.erase n \ {q} ∪ {{ q with start := n.start }} = S \ {n, q} ∪
      {{ q with start := n.start }} := by
    ext b
    simp only [Finset.mem_union, Finset.mem_sdiff, Finset.mem_erase, Finset.mem_singleton,
      Finset.mem_insert]
    tauto
  rw [hS] at hl3
  refine ⟨h3, T1, ?_, hl3.holds_of_root (hroot3.trans hh2.rep.root), hsup3.trans hsup2,
    hcalls3.trans hcalls2, hjoin⟩
  unfold OpenOOC.suffixMerge
  simp only [hv, hvn, hnext, hvs, he1, he2, he3, Option.bind_eq_bind, Option.bind_some,
    Option.pure_def]

theorem mergePrev_isPrev (hl : Linked h S (node l n.ref r)) (hn : n ∈ S) (f : BitVec 64) :
    (∃ p h' l' r', IsPrev S n p ∧ (p.stop = n.start ∧ p.flags = f) ∧
      mergePrev h (some n.ref) f = some (h', some p.ref) ∧
      Holds h' (S \ {n, p} ∪ {{ p with stop := n.stop }}) (node l' p.ref r') ∧
      h'.supply = h.supply ∧
      h'.calls = h.calls ++ [.free n.addr] ∧ Joined l r (node l' p.ref r')) ∨
    (∀ p, IsPrev S n p → ¬ (p.stop = n.start ∧ p.flags = f)) ∧
      mergePrev h (some n.ref) f = some (h, some n.ref) := by
  rcases hl.prevMatches_isPrev hn f with ⟨p, hpn, hm, he⟩ | ⟨hno, he⟩
  · obtain ⟨h', l', r', he', hdone⟩ := hl.prefixMerge hn hpn
    exact Or.inl ⟨p, h', l', r', hpn, hm, by simp [mergePrev, he, he'], hdone⟩
  · exact Or.inr ⟨hno, by simp [mergePrev, he]⟩

theorem mergePrev_cases (hl : Linked h S (node l n.ref r)) (hp : RangesOk S) (hn : n ∈ S)
    (f : BitVec 64) :
    (∃ p h' l' r', LeftOf S n.start f p ∧ mergePrev h (some n.ref) f = some (h', some p.ref) ∧
      Holds h' (S \ {n, p} ∪ {{ p with stop := n.stop }}) (node l' p.ref r') ∧
      h'.supply = h.supply ∧
      h'.calls = h.calls ++ [.free n.addr]) ∨
    (∀ p, ¬ LeftOf S n.start f p) ∧ mergePrev h (some n.ref) f = some (h, some n.ref) := by
  rcases hl.mergePrev_isPrev hn f with ⟨p, h', l', r', hpn, hm, he, hh, hsup, hcalls, -⟩ | ⟨hno, he⟩
  · exact Or.inl ⟨p, h', l', r', ⟨hpn.1, hm⟩, he, hh, hsup, hcalls⟩
  · exact Or.inr ⟨fun p hpl => hno p (hp.isPrev hpl.1 hpl.2.1) hpl.2, he⟩

theorem mergeNext_isNext (hl : Linked h S (node l n.ref r)) (hn : n ∈ S) (f : BitVec 64) :
    (∃ q h' T', IsNext S n q ∧ (q.start = n.stop ∧ q.flags = f) ∧
      mergeNext h (some n.ref) f = some (h', some q.ref) ∧
      Holds h' (S \ {n, q} ∪ {{ q with start := n.start }}) T' ∧ h'.supply = h.supply ∧
      h'.calls = h.calls ++ [.free n.addr] ∧ Joined l r T') ∨
    (∀ q, IsNext S n q → ¬ (q.start = n.stop ∧ q.flags = f)) ∧
      mergeNext h (some n.ref) f = some (h, some n.ref) := by
  rcases hl.nextMatches_isNext hn f with ⟨q, hqn, hm, he⟩ | ⟨hno, he⟩
  · obtain ⟨h', T', he', hdone⟩ := hl.suffixMerge hn hqn
    exact Or.inl ⟨q, h', T', hqn, hm, by simp [mergeNext, he, he'], hdone⟩
  · exact Or.inr ⟨hno, by simp [mergeNext, he]⟩

theorem mergeNext_cases (hl : Linked h S (node l n.ref r)) (hp : RangesOk S) (hn : n ∈ S)
    (f : BitVec 64) :
    (∃ q h' T', RightOf S n.stop f q ∧ mergeNext h (some n.ref) f = some (h', some q.ref) ∧
      Holds h' (S \ {n, q} ∪ {{ q with start := n.start }}) T' ∧ h'.supply = h.supply ∧
      h'.calls = h.calls ++ [.free n.addr]) ∨
    (∀ q, ¬ RightOf S n.stop f q) ∧ mergeNext h (some n.ref) f = some (h, some n.ref) := by
  rcases hl.mergeNext_isNext hn f with ⟨q, h', T', hqn, hm, he, hh, hsup, hcalls, -⟩ | ⟨hno, he⟩
  · exact Or.inl ⟨q, h', T', ⟨hqn.1, hm⟩, he, hh, hsup, hcalls⟩
  · exact Or.inr ⟨fun q hqr => hno q (hp.isNext hn hqr.1 hqr.2.1) hqr.2, he⟩

/-! ### A new page -/

theorem fresh_notMem (hl : Linked h S T) {z : Addr} (hz : Fresh S z) : .vma z ∉ T.toList :=
  fun hx => by
  obtain ⟨m, hm, he⟩ := hl.node_of_mem hx
  exact hz.2 m hm (Ref.vma.inj he)

theorem newNode (hl : Linked h S T) {z : Addr} {v : VmArea} {rest : List (Option (Addr × VmArea))}
    (hs : h.supply = some (z, v) :: rest) (hz : Fresh S z) (s e : ℕ) (f : Option (BitVec 64)) :
    ∃ h1, OpenOOC.newNode h s e f = some (h1, some (.vma z)) ∧ Linked h1 S T ∧ h1.root = h.root ∧
      h1.supply = rest ∧ h1.calls = h.calls ++ [.alloc (some z)] ∧ h1.par (.vma z) = none ∧
      h1.range (.vma z) = some (f.getD v.vmFlags, s, e) ∧ ∀ x, x ≠ .vma z →
        h1.cell x = h.cell x := by
  refine ⟨_, newNode_eq hs s e f, hl.withNode (hl.fresh_notMem hz), rfl,
    by simp [Heap.withNode, hs], rfl,
    by simp [Heap.par, cell_withNode], by simp [Heap.range, cell_withNode], fun x hx => ?_⟩
  rw [cell_withNode, if_neg hx]

/-- A new page up to the merges: it is the root. -/
theorem addPage_start (hl : Linked h S (node l t.ref r)) (ps : PageSize) (ht : t ∈ S)
    (hroot : h.root ≠ none) (hne : t.start ≠ k)
    (hlo : ∀ b ∈ S, b.start < t.start → b.start < k)
    (hhi : ∀ b ∈ S, t.start < b.start → k < b.start) {z : Addr}
    {v : VmArea} {rest : List (Option (Addr × VmArea))} (hs : h.supply = some (z, v) :: rest)
    (hz : Fresh S z) :
    ∃ h' l' r', OpenOOC.addPage ps h k (some t.ref) =
      ((mergePrev h' (some (.vma z)) VM_PROT_READ).bind fun out =>
        (out.1.get out.2).bind fun vz => mergeNext out.1 out.2 vz.vmFlags) ∧
      Holds h' (Insert.insert ⟨z, VM_PROT_READ, k, ps.after k⟩ S) (node l' (.vma z) r') ∧
      Rooted l t.ref r (.vma z) (node l' (.vma z) r') ∧ h'.supply = rest ∧
      h'.calls = h.calls ++ [.alloc (some z)] := by
  obtain ⟨h1, he1, hl1, hroot1, hsup1, hcalls1, hpar1, hrange1, -⟩ :=
    hl.newNode hs hz k (ps.after k) (some VM_PROT_READ)
  obtain ⟨h2, l2, r2, he2, hh2, hf2, -, hr2⟩ :=
    hl1.insert (z := ⟨z, VM_PROT_READ, k, ps.after k⟩) ht (by rwa [hroot1])
    hrange1 hpar1 hz.1 (hl.fresh_notMem hz) hne hlo hhi
  refine ⟨h2, l2, r2, ?_, hh2, hr2, hf2.supply.trans hsup1, hf2.calls.trans hcalls1⟩
  obtain ⟨v2, hv2, -, -, hv2f, -⟩ := hh2.linked.get_ref (Finset.mem_insert_self _ S)
  unfold OpenOOC.addPage
  simp only [he1, Option.bind_eq_bind, Option.bind_some]
  change sSpTreeInsertHelper h1 (some t.ref) (some (.vma z)) = some h2 at he2
  rw [he2, Option.bind_some]
  change h2.get (some (.vma z)) = some v2 at hv2
  rw [hv2, Option.bind_some, hv2f]

theorem mergeNext_live (hl : Linked h S T) (hn : n ∈ S) :
    ((h.get (some n.ref)).bind fun v => mergeNext h (some n.ref) v.vmFlags) =
      mergeNext h (some n.ref) n.flags := by
  obtain ⟨v, hv, -, -, hvf, -⟩ := hl.get_ref hn
  rw [hv, Option.bind_some, hvf]

theorem addPage (hl : Linked h S (node l t.ref r)) (hp : RangesOk S) (ht : t ∈ S)
    (hroot : h.root ≠ none) (hwrap : k + ps.bytes < 2 ^ 64)
    (hout : ∀ n ∈ S, n.stop ≤ k ∨ k + ps.bytes ≤ n.start)
    (hlo : ∀ b ∈ S, b.start < t.start → b.start < k)
    (hhi : ∀ b ∈ S, t.start < b.start → k < b.start)
    {z : Addr} {v : VmArea} {rest : List (Option (Addr × VmArea))}
    (hs : h.supply = some (z, v) :: rest)
    (hz : Fresh S z) :
    ∃ h' T' R M x freed, OpenOOC.addPage ps h k (some t.ref) = some (h', some x.ref) ∧
      Holds h' (S \ R ∪ M) T' ∧
      AddStep k (k + ps.bytes) S z R M x freed ∧ h'.supply = rest ∧
      h'.calls = h.calls ++ .alloc (some z) :: freed.map .free := by
  have hpos := ps.bytes_pos
  set e := k + ps.bytes with he
  have hpage : RangesOk {(⟨z, VM_PROT_READ, k, e⟩ : Node)} := .singleton (by simp only; omega)
  have htk : t.start ≠ k := fun h => by
    have := hout t ht
    have := hp.nonempty t ht
    omega
  obtain ⟨h2, l2, r2, hstart, hh2, -, hsup2, hcalls2⟩ :=
    hl.addPage_start ps ht hroot htk hlo hhi hs hz
  rw [PageSize.after_eq hwrap, ← he] at hh2
  set zn : Node := ⟨z, VM_PROT_READ, k, e⟩ with hzn
  have hznS : zn ∉ S := fun hm => hz.2 zn hm rfl
  have hS2 : Insert.insert zn S = S \ ∅ ∪ {zn} := by
    ext b
    simp only [Finset.mem_insert, Finset.sdiff_empty, Finset.mem_union, Finset.mem_singleton,
      or_comm]
  rw [hS2] at hh2
  have hp2 : RangesOk (S \ ∅ ∪ {zn}) :=
    hp.refill k e hpage (by simp [hzn]) fun n hn _ => hout n hn
  have hl2 : Linked h2 (S \ ∅ ∪ {zn}) (node l2 zn.ref r2) := hh2.linked
  have hmem2 : zn ∈ S \ ∅ ∪ {zn} := by simp
  have hleft {p : Node} : LeftOf (S \ ∅ ∪ {zn}) k VM_PROT_READ p ↔ LeftOf S k VM_PROT_READ p :=
    leftOf_refill (by simp) (by simp [hzn, he]; omega)
  rcases hl2.mergePrev_cases hp2 hmem2 VM_PROT_READ with
    ⟨p, h3, l3, r3, hpl, he3, hh3, hsup3, hcalls3⟩ | ⟨hnl, he3⟩
  · have hpl := hleft.mp hpl
    obtain ⟨hpS, hpe, hpf⟩ := id hpl
    have hpn := hp.nonempty p hpS
    set p' : Node := { p with stop := e } with hp'
    have hp'S : p' ∉ S := fun hm => by
      have := congrArg Node.stop (hl.eq_of_ref hm hpS rfl)
      simp only [hp'] at this
      omega
    change Holds h3 ((S \ ∅ ∪ {zn}) \ {zn, p} ∪ {p'}) (node l3 p'.ref r3) at hh3
    rw [refill_refill hznS, Finset.empty_union] at hh3
    have hp3 : RangesOk (S \ {p} ∪ {p'}) := by
      refine hp.refill p.start e (.singleton (by simp only [hp']; omega)) (by simp [hp'])
        fun n hn hnR => ?_
      have := hout n hn
      have := hp.nonempty n hn
      have := hp.order hn hpS (by simpa using hnR)
      omega
    have hmem3 : p' ∈ S \ {p} ∪ {p'} := by simp
    have hright {q : Node} : RightOf (S \ {p} ∪ {p'}) e VM_PROT_READ q ↔
        RightOf S e VM_PROT_READ q :=
      rightOf_refill (by simp; omega) (by simp [hp']; omega)
    have hgo : OpenOOC.addPage ps h k (some t.ref) = mergeNext h3 (some p'.ref) VM_PROT_READ := by
      rw [hstart]
      change (mergePrev h2 (some zn.ref) VM_PROT_READ).bind _ = _
      rw [he3]
      exact (hh3.linked.mergeNext_live hmem3).trans (congrArg _ hpf)
    rcases hh3.linked.mergeNext_cases hp3 hmem3 VM_PROT_READ with
      ⟨q, h4, T4, hqr, he4, hh4, hsup4, hcalls4⟩ | ⟨hnr, he4⟩
    · rw [refill_refill hp'S] at hh4
      exact ⟨h4, T4, _, _, { q with start := p.start }, _, hgo.trans he4, hh4,
        .both hpl (hright.mp hqr), by rw [hsup4, hsup3, hsup2],
        by rw [hcalls4, hcalls3, hcalls2]; simp [hzn, hp']⟩
    · exact ⟨h3, _, _, _, p', _, hgo.trans he4, hh3, .left hpl fun q hq => hnr q (hright.mpr hq),
        hsup3.trans hsup2, by rw [hcalls3, hcalls2]; simp [hzn]⟩
  · have hnl : ∀ p, ¬ LeftOf S k VM_PROT_READ p := fun p hpl => hnl p (hleft.mpr hpl)
    have hright {q : Node} : RightOf (S \ ∅ ∪ {zn}) e VM_PROT_READ q ↔ RightOf S e VM_PROT_READ q :=
      rightOf_refill (by simp) (by simp [hzn, he]; omega)
    have hgo : OpenOOC.addPage ps h k (some t.ref) = mergeNext h2 (some zn.ref) VM_PROT_READ := by
      rw [hstart]
      change (mergePrev h2 (some zn.ref) VM_PROT_READ).bind _ = _
      rw [he3]
      exact hl2.mergeNext_live hmem2
    rcases hl2.mergeNext_cases hp2 hmem2 VM_PROT_READ with
      ⟨q, h4, T4, hqr, he4, hh4, hsup4, hcalls4⟩ | ⟨hnr, he4⟩
    · rw [refill_refill hznS, Finset.empty_union] at hh4
      exact ⟨h4, T4, _, _, { q with start := k }, _, hgo.trans he4, hh4, .right hnl (hright.mp hqr),
        by rw [hsup4, hsup2],
        by rw [hcalls4, hcalls2]; simp [hzn]⟩
    · exact ⟨h2, _, _, _, zn, _, hgo.trans he4, hh2, .alone hnl fun q hq => hnr q (hright.mpr hq),
        hsup2,
        by rw [hcalls2]; simp⟩

/-! ### Splits -/

theorem split_order (hp : RangesOk S) (hn : n ∈ S) (ht : t ∈ S) (htn : n = t ∨ IsPrev S t n) {x : ℕ}
    (hx : n.start < x) (hx' : x < n.stop) : t.start ≠ x ∧
    (∀ b ∈ S, b.start < t.start → b.start < x) ∧
      ∀ b ∈ S, t.start < b.start → x < b.start := by
  have horder : ∀ b ∈ S, b.start ≤ n.start ∨ n.stop ≤ b.start := fun b hb => by
    by_cases hbn : b = n
    · exact Or.inl (by rw [hbn])
    · have := hp.order hb hn hbn
      have := hp.nonempty b hb
      omega
  rcases htn with rfl | hprev
  · refine ⟨by omega, fun b hb hlt => by omega, fun b hb hlt => ?_⟩
    have := horder b hb
    omega
  · have := horder t ht
    have := hprev.2.1
    refine ⟨by omega, fun b hb hlt => ?_, fun b hb hlt => by omega⟩
    have := hprev.2.2 b hb hlt
    omega

theorem midSplit (hl : Linked h S (node l t.ref r)) (hp : RangesOk S) (ht : t ∈ S)
    (hroot : h.root = some t.ref)
    (hwrap : k + ps.bytes < 2 ^ 64) (hn : n ∈ S) (htn : n = t ∨ IsPrev S t n) (hs1 : n.start < k)
    (he1 : k + ps.bytes < n.stop) {z y : Addr} {v w : VmArea} {rest : List (Option (Addr × VmArea))}
    (hs : h.supply = some (z, v) :: some (y, w) :: rest) (hz : Fresh S z) (hy : Fresh S y)
    (hzy : z ≠ y) :
    ∃ h' T', OpenOOC.midSplit ps h k (some n.ref) = some (h', some (.vma z)) ∧
      Holds h' (S \ {n} ∪ {{ n with stop := k }, ⟨z, VM_PROT_PROMOTE n.flags, k, k + ps.bytes⟩,
        ⟨y, n.flags, k + ps.bytes, n.stop⟩}) T' ∧
      h'.supply = rest ∧ h'.calls = h.calls ++ [.alloc (some z), .alloc (some y)] := by
  have hpos := ps.bytes_pos
  set e := k + ps.bytes with he
  set zn : Node := ⟨z, VM_PROT_PROMOTE n.flags, k, e⟩ with hzn
  set yn : Node := ⟨y, n.flags, e, n.stop⟩ with hyn
  set n' : Node := { n with stop := k } with hn'
  obtain ⟨v0, hv0, -, -, hvf, -⟩ := hl.get_ref hn
  obtain ⟨h1, e1, hl1, hroot1, hsup1, hcalls1, hpar1, hrange1, hcell1⟩ := hl.newNode hs hz k e
    (some (VM_PROT_PROMOTE n.flags))
  obtain ⟨vz, hvz, hvze⟩ := Option.map_eq_some_iff.mp hrange1
  obtain ⟨vn, hvn, -, -, hvnf, -, hvne⟩ := hl1.get_ref hn
  obtain ⟨h2, e2, hl2, hroot2, hsup2, hcalls2, hpar2, hrange2, hcell2⟩ :=
    hl1.newNode hsup1 hy e n.stop (some n.flags)
  obtain ⟨h3, e3, hl3, hroot3, hsup3, hcalls3, hcell3⟩ := hl2.setStop hn k
  have hzn3 : zn.ref ≠ n.ref := fun hh => hz.2 n hn (Ref.vma.inj hh).symm
  have hyn3 : yn.ref ≠ n.ref := fun hh => hy.2 n hn (Ref.vma.inj hh).symm
  have hzy' : zn.ref ≠ yn.ref := fun hh => hzy (Ref.vma.inj hh)
  have hmem3 {b : Node} (hb : b ∈ S \ {n} ∪ {n'}) : ∃ c ∈ S, c.start = b.start := by
    rcases Finset.mem_union.mp hb with hb | hb
    · exact ⟨b, (Finset.mem_sdiff.mp hb).1, rfl⟩
    · exact ⟨n, hn, by rw [Finset.mem_singleton.mp hb]⟩
  obtain ⟨t1, ht1, ht1r, ht1s⟩ : ∃ t1 ∈ S \ {n} ∪ {n'}, t1.ref = t.ref ∧ t1.start = t.start := by
    by_cases hnt : t = n
    · exact ⟨n', by simp, by rw [hnt]; rfl, by rw [hnt]⟩
    · exact ⟨t, by simp [ht, hnt], rfl, rfl⟩
  obtain ⟨hne, hlo, hhi⟩ := split_order hp hn ht htn (x := e) (by omega) he1
  rw [← ht1r] at hl3
  obtain ⟨h4, l4, r4, e4, hh4, hf4, hout4, -⟩ := hl3.insert (z := yn) ht1
    (by rw [hroot3, hroot2, hroot1, hroot]; simp)
    (by rw [Heap.range, hcell3 _ hyn3, ← Heap.range]; exact hrange2)
    (by rw [par_of_cell (hcell3 _ hyn3)]; exact hpar2) hy.1 (by rw [ht1r]; exact hl.fresh_notMem hy)
    (by rwa [ht1s])
    (fun b hb hlt => by
      obtain ⟨c, hc, hcs⟩ := hmem3 hb
      rw [← hcs] at hlt ⊢
      exact hlo c hc (ht1s ▸ hlt))
    fun b hb hlt => by
      obtain ⟨c, hc, hcs⟩ := hmem3 hb
      rw [← hcs] at hlt ⊢
      exact hhi c hc (ht1s ▸ hlt)
  have hzT : zn.ref ∉ yn.ref :: (node l t1.ref r).toList := by
    rw [ht1r, List.mem_cons, not_or]
    exact ⟨hzy', hl.fresh_notMem hz⟩
  have hz3 : h3.cell zn.ref = h1.cell zn.ref := (hcell3 _ hzn3).trans (hcell2 _ hzy')
  have horder : ∀ b ∈ S, b.start < e → b.start < k := fun b hb hlt => by
    by_cases hbn : b = n
    · rwa [hbn]
    · have := hp.order hb hn hbn
      have := hp.nonempty b hb
      omega
  have hz4 : Fresh (Insert.insert yn (S \ {n} ∪ {n'})) z := by
    refine ⟨hz.1, fun b hb => ?_⟩
    rcases Finset.mem_insert.mp hb with rfl | hb
    · exact fun hh => hzy hh.symm
    · rcases Finset.mem_union.mp hb with hb | hb
      · exact hz.2 b (Finset.mem_sdiff.mp hb).1
      · rw [Finset.mem_singleton.mp hb]
        exact hz.2 n hn
  obtain ⟨h5, l5, r5, e5, hh5, hf5, -⟩ :=
    hh4.linked.insert (n := yn) (z := zn) (Finset.mem_insert_self _ _)
    (by rw [root_of_insertHelper e4]; simp)
    (by rw [hf4.range, Heap.range, hz3]; exact hrange1)
    (by rw [hout4 _ (by simp [Node.ref]) hzT, par_of_cell hz3]; exact hpar1) hz.1
    (hh4.linked.fresh_notMem hz4) (by simp only [hyn, hzn]; omega)
    (fun b hb hlt => by
      rcases Finset.mem_insert.mp hb with rfl | hb
      · exact absurd hlt (lt_irrefl _)
      · obtain ⟨c, hc, hcs⟩ := hmem3 hb
        rw [← hcs] at hlt ⊢
        exact horder c hc hlt)
    fun b _ hlt => by
      simp only [hyn, hzn] at hlt ⊢
      omega
  have hS : Insert.insert zn (Insert.insert yn (S \ {n} ∪ {n'})) = S \ {n} ∪ {n', zn, yn} := by
    ext b
    simp only [Finset.mem_insert, Finset.mem_union, Finset.mem_sdiff, Finset.mem_singleton]
    tauto
  rw [hS] at hh5
  refine ⟨h5, _, ?_, hh5, ?_, ?_⟩
  · have hg : h1.get (some (.vma z)) = some vz := hvz
    have hve : vz.vmStart = k ∧ vz.vmEnd = e := by
      simp only [Prod.mk.injEq] at hvze
      exact hvze.2
    have hroot3' : h3.root = some t1.ref := by rw [hroot3, hroot2, hroot1, hroot, ht1r]
    unfold OpenOOC.midSplit
    simp only [PageSize.after_eq hwrap, ← he, hv0, hvf, e1, hg, hvn, hve, hvnf, hvne, e2, e3,
      hroot3',
      Option.bind_eq_bind, Option.bind_some, Option.pure_def]
    change ((sSpTreeInsertHelper h3 (some t1.ref) (some yn.ref)).bind _) = _
    rw [e4, Option.bind_some, root_of_insertHelper e4]
    change ((sSpTreeInsertHelper h4 (some yn.ref) (some zn.ref)).bind _) = _
    rw [e5, Option.bind_some]
  · rw [hf5.supply, hf4.supply, hsup3, hsup2]
  · rw [hf5.calls, hf4.calls, hcalls3, hcalls2, hcalls1]
    simp

theorem prefixSplit (hl : Linked h S (node l n.ref r)) (hp : RangesOk S)
    (hroot : h.root = some n.ref)
    (hwrap : k + ps.bytes < 2 ^ 64) (hn : n ∈ S) (hs1 : n.start = k) (he1 : k + ps.bytes < n.stop)
    {z : Addr} {v : VmArea} {rest : List (Option (Addr × VmArea))}
    (hs : h.supply = some (z, v) :: rest)
    (hz : Fresh S z) :
    ∃ h' T', OpenOOC.prefixSplit ps h k (some n.ref) = some (h', some (.vma z)) ∧
      Holds h' (S \ {n} ∪ {⟨z, v.vmFlags, k, k + ps.bytes⟩, { n with start := k + ps.bytes }}) T' ∧
      h'.supply = rest ∧ h'.calls = h.calls ++ [.alloc (some z)] := by
  have hpos := ps.bytes_pos
  set e := k + ps.bytes with he
  set zn : Node := ⟨z, v.vmFlags, k, e⟩ with hzn
  set n' : Node := { n with start := e } with hn'
  have horder : ∀ b ∈ S, b ≠ n → b.start < k ∨ e < b.start := fun b hb hbn => by
    have := hp.order hb hn hbn
    have := hp.nonempty b hb
    omega
  have hne {b : Node} (hb : b.start ≠ n.start) : b ≠ n := fun hh => hb (by rw [hh])
  obtain ⟨h1, e1, hl1, hroot1, hsup1, hcalls1, hpar1, hrange1, -⟩ := hl.newNode hs hz k e none
  obtain ⟨vz, hvz, hvze⟩ := Option.map_eq_some_iff.mp hrange1
  have hvze : vz.vmEnd = e := (Prod.mk.inj (Prod.mk.inj hvze).2).2
  obtain ⟨h2, e2, hl2, hroot2, hsup2, hcalls2, hcell2⟩ :=
    hl1.setStart hn e (fun b _ hlt => by omega)
    fun b hb hlt => by
      have := horder b hb (hne (by omega))
      omega
  have hzn2 : zn.ref ≠ n'.ref := fun hh => hz.2 n hn (Ref.vma.inj hh).symm
  have hroot' : h2.root = some n'.ref := by rw [hroot2, hroot1, hroot]; rfl
  change Linked h2 (S \ {n} ∪ {n'}) (node l n'.ref r) at hl2
  obtain ⟨h3, l3, r3, e3, hh3, hf3, -⟩ := hl2.insert (z := zn) (by simp) (by rw [hroot']; simp)
    (by rw [Heap.range, hcell2 _ hzn2]; exact hrange1)
    (by rw [par_of_cell (hcell2 _ hzn2)]; exact hpar1) hz.1
    (hl.fresh_notMem hz) (by simp only [hn', hzn]; omega)
    (fun b hb hlt => by
      rcases Finset.mem_union.mp hb with hb | hb
      · obtain ⟨hbS, hbn⟩ := Finset.mem_sdiff.mp hb
        have := horder b hbS (by simpa using hbn)
        simp only [hn', hzn] at hlt ⊢
        omega
      · rw [Finset.mem_singleton.mp hb] at hlt
        exact absurd hlt (lt_irrefl _))
    fun b _ hlt => by
      simp only [hn', hzn] at hlt ⊢
      omega
  have hS : Insert.insert zn (S \ {n} ∪ {n'}) = S \ {n} ∪ {zn, n'} := by
    ext b
    simp only [Finset.mem_insert, Finset.mem_union, Finset.mem_sdiff, Finset.mem_singleton]
    tauto
  rw [hS] at hh3
  refine ⟨h3, _, ?_, hh3, ?_, ?_⟩
  · have hg : h1.get (some (.vma z)) = some vz := hvz
    unfold OpenOOC.prefixSplit
    simp only [PageSize.after_eq hwrap, ← he, e1, hg, hvze, e2, hroot', Option.bind_eq_bind,
      Option.bind_some,
      Option.pure_def]
    change (sSpTreeInsertHelper h2 (some n'.ref) (some zn.ref)).bind _ = _
    rw [e3, Option.bind_some]
  · rw [hf3.supply, hsup2, hsup1]
  · rw [hf3.calls, hcalls2, hcalls1]

theorem suffixSplit (hl : Linked h S (node l t.ref r)) (hp : RangesOk S) (ht : t ∈ S)
    (hroot : h.root = some t.ref)
    (hwrap : k + ps.bytes < 2 ^ 64) (hn : n ∈ S) (htn : n = t ∨ IsPrev S t n) (hs1 : n.start < k)
    (he1 : n.stop = k + ps.bytes) {z : Addr} {v : VmArea} {rest : List (Option (Addr × VmArea))}
    (hs : h.supply = some (z, v) :: rest) (hz : Fresh S z) :
    ∃ h' T', OpenOOC.suffixSplit ps h k (some n.ref) = some (h', some (.vma z)) ∧
      Holds h' (S \ {n} ∪ {{ n with stop := k }, ⟨z, v.vmFlags, k, k + ps.bytes⟩}) T' ∧
      h'.supply = rest ∧ h'.calls = h.calls ++ [.alloc (some z)] := by
  have hpos := ps.bytes_pos
  set e := k + ps.bytes with he
  set zn : Node := ⟨z, v.vmFlags, k, e⟩ with hzn
  set n' : Node := { n with stop := k } with hn'
  obtain ⟨h1, e1, hl1, hroot1, hsup1, hcalls1, hpar1, hrange1, -⟩ := hl.newNode hs hz k e none
  obtain ⟨vz, hvz, hvze⟩ := Option.map_eq_some_iff.mp hrange1
  have hvzs : vz.vmStart = k := (Prod.mk.inj (Prod.mk.inj hvze).2).1
  obtain ⟨h2, e2, hl2, hroot2, hsup2, hcalls2, hcell2⟩ := hl1.setStop hn k
  have hzn2 : zn.ref ≠ n.ref := fun hh => hz.2 n hn (Ref.vma.inj hh).symm
  have hmem2 {b : Node} (hb : b ∈ S \ {n} ∪ {n'}) : ∃ c ∈ S, c.start = b.start := by
    rcases Finset.mem_union.mp hb with hb | hb
    · exact ⟨b, (Finset.mem_sdiff.mp hb).1, rfl⟩
    · exact ⟨n, hn, by rw [Finset.mem_singleton.mp hb]⟩
  obtain ⟨t1, ht1, ht1r, ht1s⟩ : ∃ t1 ∈ S \ {n} ∪ {n'}, t1.ref = t.ref ∧ t1.start = t.start := by
    by_cases hnt : t = n
    · exact ⟨n', by simp, by rw [hnt]; rfl, by rw [hnt]⟩
    · exact ⟨t, by simp [ht, hnt], rfl, rfl⟩
  obtain ⟨hne, hlo, hhi⟩ := split_order hp hn ht htn hs1 (by omega)
  have hroot' : h2.root = some t1.ref := by rw [hroot2, hroot1, hroot, ht1r]
  rw [← ht1r] at hl2
  obtain ⟨h3, l3, r3, e3, hh3, hf3, -⟩ := hl2.insert (z := zn) ht1 (by rw [hroot']; simp)
    (by rw [Heap.range, hcell2 _ hzn2]; exact hrange1)
    (by rw [par_of_cell (hcell2 _ hzn2)]; exact hpar1) hz.1
    (by rw [ht1r]; exact hl.fresh_notMem hz) (by rwa [ht1s])
    (fun b hb hlt => by
      obtain ⟨c, hc, hcs⟩ := hmem2 hb
      rw [← hcs] at hlt ⊢
      exact hlo c hc (ht1s ▸ hlt))
    fun b hb hlt => by
      obtain ⟨c, hc, hcs⟩ := hmem2 hb
      rw [← hcs] at hlt ⊢
      exact hhi c hc (ht1s ▸ hlt)
  have hS : Insert.insert zn (S \ {n} ∪ {n'}) = S \ {n} ∪ {n', zn} := by
    ext b
    simp only [Finset.mem_insert, Finset.mem_union, Finset.mem_sdiff, Finset.mem_singleton]
    tauto
  rw [hS] at hh3
  refine ⟨h3, _, ?_, hh3, ?_, ?_⟩
  · have hg : h1.get (some (.vma z)) = some vz := hvz
    unfold OpenOOC.suffixSplit
    simp only [PageSize.after_eq hwrap, ← he, e1, hg, hvzs, e2, hroot', Option.bind_eq_bind,
      Option.bind_some,
      Option.pure_def]
    change (sSpTreeInsertHelper h2 (some t1.ref) (some zn.ref)).bind _ = _
    rw [e3, Option.bind_some]
  · rw [hf3.supply, hsup2, hsup1]
  · rw [hf3.calls, hcalls2, hcalls1]

/-! ### Migrations -/

theorem splay_at (hl : Linked h S T) (hp : p ∈ S) :
    ∃ h1 l r, sSpTreeSplay h p.start T.root? = some (h1, some p.ref) ∧
      Holds { h1 with root := some p.ref } S (node l p.ref r) ∧ h1.supply = h.supply ∧
      h1.calls = h.calls := by
  have hT : T ≠ nil := fun hh => by
    have := hl.ref_mem hp
    rw [hh] at this
    simp at this
  obtain ⟨h1, l, t, r, ht, he, hl1, hf, -, -, -, hlo, hhi⟩ := hl.splay p.start hT
  obtain rfl : p = t := hl.eq_of_start hp ht (by
    rcases Nat.lt_trichotomy p.start t.start with hlt | heq | hlt
    · exact absurd (hlo p hp hlt) (lt_irrefl _)
    · exact heq
    · exact absurd (hhi p hp hlt) (lt_irrefl _))
  exact ⟨h1, l, r, he, hl1.holds rfl, hf.supply, hf.calls⟩

theorem prefixMigrate (hl : Linked h S (node l n.ref r)) (hp : RangesOk S)
    (hwrap : k + ps.bytes < 2 ^ 64)
    (hn : n ∈ S) (hs1 : n.start = k) (he1 : k + ps.bytes < n.stop) (hpl : LeftOf S k f p) :
    ∃ h' l' r', OpenOOC.prefixMigrate ps h k (some n.ref) (some n.ref) = some (h', some p.ref) ∧
      Holds h' (S \ {p, n} ∪ {{ p with stop := k + ps.bytes }, { n with start := k + ps.bytes }})
        (node l' p.ref r') ∧
      h'.supply = h.supply ∧ h'.calls = h.calls := by
  have hpos := ps.bytes_pos
  obtain ⟨hpS, hpe, -⟩ := hpl
  have hpn := hp.nonempty p hpS
  set e := k + ps.bytes with he
  set p' : Node := { p with stop := e } with hp'
  set n' : Node := { n with start := e } with hn'
  have hprev : h.prev n.ref = some p.ref := by
    have hpp : IsPrev S n p := hp.isPrev hpS (hpe.trans hs1.symm)
    rcases hl.prev_cases hn with ⟨-, hmin⟩ | ⟨p1, hp1, hprev⟩
    · have := hmin p hpS
      omega
    · rw [hprev, hl.isPrev_unique hp1 hpp]
  obtain ⟨v0, hv0, hvp, -, -, -, hve⟩ := hl.get_ref hn
  obtain ⟨h1, e1, hl1, -, hsup1, hcalls1, -⟩ :=
    hl.setStart hn e (fun b _ hlt => by omega) fun b hb hlt => by
    have := hp.order hb hn fun hh => by rw [hh] at hlt; exact lt_irrefl _ hlt
    have := hp.nonempty b hb
    omega
  have hp1S : p ∈ S \ {n} ∪ {n'} :=
    Finset.mem_union_left _
      (Finset.mem_sdiff.mpr ⟨hpS, fun hh => by rw [Finset.mem_singleton.mp hh] at hpe; omega⟩)
  obtain ⟨h2, e2, hl2, -, hsup2, hcalls2, -⟩ := hl1.setStop hp1S e
  have hS : (S \ {n} ∪ {n'}) \ {p} ∪ {p'} = S \ {p, n} ∪ {p', n'} := by
    have hnp : n' ≠ p := fun hh => by
      have := congrArg Node.start hh
      simp only [hn'] at this
      omega
    ext b
    simp only [Finset.mem_insert, Finset.mem_union, Finset.mem_sdiff, Finset.mem_singleton]
    by_cases hb : b = n'
    · subst hb
      simp [hnp]
    · tauto
  change Linked h2 ((S \ {n} ∪ {n'}) \ {p} ∪ {p'}) (node l n.ref r) at hl2
  rw [hS] at hl2
  obtain ⟨h3, l3, r3, e3, hh3, hsup3, hcalls3⟩ := hl2.splay_at (p := p') (by simp)
  obtain ⟨w, hw, -, -, -, hws, -⟩ := hl2.get_ref (n := p') (by simp)
  refine ⟨_, _, _, ?_, hh3, hsup3.trans (hsup2.trans hsup1), hcalls3.trans (hcalls2.trans hcalls1)⟩
  unfold OpenOOC.prefixMigrate
  simp only [PageSize.after_eq hwrap, ← he, hv0, hvp, hve, hprev, he1.ne, if_false, e1, e2,
    Option.bind_eq_bind,
    Option.bind_some, Option.pure_def]
  change (h2.get (some p'.ref)).bind _ = _
  rw [hw, Option.bind_some, hws]
  change (sSpTreeSplay h2 p'.start (node l n.ref r).root?).bind _ = _
  rw [e3]
  rfl

theorem suffixMigrate (hl : Linked h S (node l t.ref r)) (hp : RangesOk S) (hn : n ∈ S)
    (hs1 : n.start < k)
    (he1 : k < n.stop) (hqr : RightOf S n.stop f q) :
    ∃ h' l' r', OpenOOC.suffixMigrate h k (some t.ref) (some n.ref) = some (h', some q.ref) ∧
      Holds h' (S \ {n, q} ∪ {{ n with stop := k }, { q with start := k }}) (node l' q.ref r') ∧
      h'.supply = h.supply ∧ h'.calls = h.calls := by
  obtain ⟨hqS, hqs, -⟩ := hqr
  set q' : Node := { q with start := k } with hq'
  set n' : Node := { n with stop := k } with hn'
  have hnext : h.next n.ref = some q.ref := by
    have hqn : IsNext S n q := hp.isNext hn hqS hqs
    rcases hl.next_cases hn with ⟨-, hmax⟩ | ⟨q1, hq1, hnext⟩
    · have := hmax q hqS
      omega
    · rw [hnext, hl.isNext_unique hq1 hqn]
  obtain ⟨v0, hv0, -, hvn, -, hvs, -⟩ := hl.get_ref hn
  obtain ⟨h1, e1, hl1, -, hsup1, hcalls1, -⟩ := hl.setStop hn k
  have hqn : q ≠ n := fun hh => by rw [hh] at hqs; omega
  have hq1S : q ∈ S \ {n} ∪ {n'} :=
    Finset.mem_union_left _ (Finset.mem_sdiff.mpr ⟨hqS, fun hh => hqn (Finset.mem_singleton.mp hh)⟩)
  obtain ⟨h2, e2, hl2, -, hsup2, hcalls2, -⟩ := hl1.setStart hq1S k
    (fun b hb hlt => by
      rcases Finset.mem_union.mp hb with hb | hb
      · obtain ⟨hbS, hbn⟩ := Finset.mem_sdiff.mp hb
        have := hp.order hbS hn (by simpa using hbn)
        have := hp.nonempty b hbS
        omega
      · rw [Finset.mem_singleton.mp hb]
        exact hs1)
    fun b _ hlt => by omega
  have hS : (S \ {n} ∪ {n'}) \ {q} ∪ {q'} = S \ {n, q} ∪ {n', q'} := by
    have hnq : n' ≠ q := fun hh => by
      have := congrArg Node.start hh
      simp only [hn'] at this
      omega
    ext b
    simp only [Finset.mem_insert, Finset.mem_union, Finset.mem_sdiff, Finset.mem_singleton]
    by_cases hb : b = n'
    · subst hb
      simp [hnq]
    · tauto
  change Linked h2 ((S \ {n} ∪ {n'}) \ {q} ∪ {q'}) (node l t.ref r) at hl2
  rw [hS] at hl2
  obtain ⟨h3, l3, r3, e3, hh3, hsup3, hcalls3⟩ := hl2.splay_at (p := q') (by simp)
  obtain ⟨w, hw, -, -, -, hws, -⟩ := hl2.get_ref (n := q') (by simp)
  refine ⟨_, _, _, ?_, hh3, hsup3.trans (hsup2.trans hsup1), hcalls3.trans (hcalls2.trans hcalls1)⟩
  unfold OpenOOC.suffixMigrate
  simp only [hv0, hvn, hvs, hnext, hs1.ne', if_false, e1, e2, Option.bind_eq_bind,
    Option.bind_some, Option.pure_def]
  change (h2.get (some q'.ref)).bind _ = _
  rw [hw, Option.bind_some, hws]
  change (sSpTreeSplay h2 q'.start (node l t.ref r).root?).bind _ = _
  rw [e3]
  rfl

/-! ### The 3-way merge -/

/-- Once the root is gone, a node from before it takes its place, if there is one. -/
theorem root_joined (hl : Linked h S (node l n.ref r)) (hn : n ∈ S) (hj : Joined l r T)
    (hp : IsPrev S n p)
    (hq : q ∈ S) (hlt : n.start < q.start) : T.root? ≠ some q.ref := by
  intro hT
  have hl0 : l ≠ nil := by
    rintro rfl
    rcases hl.split_sorted (toList_node nil r n.ref) hn hp.1 with ⟨hx, -⟩ | he | ⟨-, hx⟩
    · simp at hx
    · exact absurd hp.2.1 (he ▸ lt_irrefl _)
    · exact absurd hp.2.1 (by omega)
  rw [hj.root? hl0] at hT
  have := hl.start_lt (toList_node l r n.ref) hq hn (List.mem_of_getLast? hT) (by simp)
  omega

theorem threeWaySuffix (hl : Linked h S (node l n.ref r)) (hp : RangesOk S) (hn : n ∈ S)
    (hnull : ¬ ((∃ q ∈ S, q.start = n.stop) ∧ IsFirst S n)) :
    (∃ q h' T', MergesOn S n q ∧ threeWayMatches h (some n.ref) = some true ∧
      OpenOOC.suffixMerge h (some n.ref) = some (h', some q.ref) ∧
      Holds h' (S \ {n, q} ∪ {{ q with start := n.start }}) T' ∧ h'.supply = h.supply ∧
      h'.calls = h.calls ++ [.free n.addr] ∧ T'.root? ≠ some q.ref) ∨
    (∀ q, ¬ MergesOn S n q) ∧ threeWayMatches h (some n.ref) = some false := by
  rcases hl.threeWayMatches_cases hp hn with ⟨q, hq, he⟩ | ⟨hno, he⟩
  · obtain ⟨h', T', he', hh, hsup, hcalls, hjoin⟩ := hl.suffixMerge hn (hp.isNext hn hq.1 hq.2.1)
    refine Or.inl ⟨q, h', T', hq, he, he', hh, hsup, hcalls, ?_⟩
    obtain ⟨p, hpn, -⟩ := hq.2.2
    exact hl.root_joined hn hjoin hpn hq.1 (by have := hp.nonempty n hn; have := hq.2.1; omega)
  · refine Or.inr ⟨hno, he.trans (if_neg ?_)⟩
    rintro ⟨q, hq, hqs, hmin⟩
    exact hnull ⟨⟨q, hq, hqs⟩, hmin⟩

theorem threeWayMerge (hl : Linked h S (node l n.ref r)) (hp : RangesOk S) (hn : n ∈ S)
    (hnull : ¬ ReadsNull S n) :
    ∃ h' T' R M x freed, OpenOOC.threeWayMerge h (some n.ref) = some (h', some x.ref) ∧
      Linked h' (S \ R ∪ M) T' ∧
      MergeStep S n R M x freed ∧ h'.supply = h.supply ∧ h'.calls = h.calls ++ freed.map .free ∧
      (h'.root = T'.root? ∨ (∀ p, ¬ LeftOf S n.start (VM_PROT_PROMOTE n.flags) p) ∧
        (∀ q, ¬ MergesOn S n q) ∧
        h'.root = h.root ∧ T'.root? = some n.ref) ∧
      (T'.root? = some x.ref ↔ ∀ q ∈ S, q.start = n.stop → q.ref ≠ x.ref) := by
  have hlt := hp.nonempty n hn
  obtain ⟨v, hv, -, -, hvf, -⟩ := hl.get_ref hn
  rcases hl.mergePrev_cases hp hn (VM_PROT_PROMOTE n.flags) with
    ⟨p, h1, l1, r1, hpl, he1, hh1, hsup1, hcalls1⟩ | ⟨hno, he1⟩
  · obtain ⟨hpS, hpe, -⟩ := id hpl
    have hpn := hp.nonempty p hpS
    set p' : Node := { p with stop := n.stop } with hp'
    have hp'S : p' ∉ S := fun hm => by
      have := congrArg Node.stop (hl.eq_of_ref hm hpS rfl)
      simp only [hp'] at this
      omega
    change Holds h1 (S \ {n, p} ∪ {p'}) (node l1 p'.ref r1) at hh1
    obtain ⟨hp1, hafter, hmerges, hfirst⟩ := hp.mergeLeft hn hpS hpe hp'
    have hmem1 : p' ∈ S \ {n, p} ∪ {p'} := by simp
    rcases hh1.linked.threeWaySuffix hp1 hmem1 (fun ⟨⟨q, hq, hqs⟩, hmin⟩ => hnull
        ⟨⟨q, (hafter q hqs).mp hq, hqs⟩, Or.inr ⟨p, hpl, hfirst.mp hmin⟩⟩) with
      ⟨q, h2, T2, hq, he2, he3, hh2, hsup2, hcalls2, hroot2⟩ | ⟨hno2, he2⟩
    · rw [show ({p', q} : Finset Node) = Insert.insert p' {q} from rfl, refill_refill hp'S] at hh2
      have hS : ({n, p} ∪ {q} : Finset Node) = {n, p, q} := by
        ext b
        simp
      rw [hS] at hh2
      refine ⟨h2, T2, _, _, { q with start := p.start }, [n.addr, p.addr], ?_, hh2.linked,
        .both hpl ((hmerges q).mp hq),
        hsup2.trans hsup1, ?_, ?_, iff_of_false hroot2 fun hne =>
        hne q ((hmerges q).mp hq).1 hq.2.1 rfl⟩
      · unfold OpenOOC.threeWayMerge
        simp only [hv, hvf, he1, Option.bind_eq_bind, Option.bind_some]
        change (threeWayMatches h1 (some p'.ref)).bind _ = _
        rw [he2, Option.bind_some, if_pos rfl]
        exact he3
      · rw [hcalls2, hcalls1]
        simp [hp']
      · exact Or.inl hh2.rep.root
    · refine ⟨h1, _, _, _, p', [n.addr], ?_, hh1.linked,
        .left hpl fun q hq => hno2 q ((hmerges q).mpr hq), hsup1, hcalls1,
        Or.inl hh1.rep.root, iff_of_true rfl fun q hq hqs he => by
          rw [hl.eq_of_ref hq hpS he] at hqs
          omega⟩
      unfold OpenOOC.threeWayMerge
      simp only [hv, hvf, he1, Option.bind_eq_bind, Option.bind_some]
      change (threeWayMatches h1 (some p'.ref)).bind _ = _
      rw [he2]
      rfl
  · rcases hl.threeWaySuffix hp hn (fun hh => hnull ⟨hh.1, Or.inl ⟨hno, hh.2⟩⟩) with
      ⟨q, h2, T2, hq, he2, he3, hh2, hsup2, hcalls2, hroot2⟩ | ⟨hno2, he2⟩
    · refine ⟨h2, T2, _, _, { q with start := n.start }, [n.addr], ?_, hh2.linked, .right hno hq,
        hsup2, hcalls2,
        Or.inl hh2.rep.root, iff_of_false hroot2 fun hne => hne q hq.1 hq.2.1 rfl⟩
      unfold OpenOOC.threeWayMerge
      simp only [hv, hvf, he1, he2, Option.bind_eq_bind, Option.bind_some, if_true]
      exact he3
    · refine ⟨h, _, ∅, ∅, n, [], ?_,
        by simpa using hl, .keep hno hno2, rfl, by simp, Or.inr ⟨hno, hno2, rfl, rfl⟩,
        iff_of_true rfl fun q hq hqs he => by
          rw [hl.eq_of_ref hq hn he] at hqs
          omega⟩
      unfold OpenOOC.threeWayMerge
      simp [hv, hvf, he1, he2]

/-- With no node before it, and one that touches it, the test reads through NULL. -/
theorem threeWayMerge_none (hl : Linked h S (node l n.ref r)) (hp : RangesOk S) (hn : n ∈ S)
    (hnull : ReadsNull S n) :
    OpenOOC.threeWayMerge h (some n.ref) = none := by
  have hlt := hp.nonempty n hn
  obtain ⟨v, hv, -, -, hvf, -⟩ := hl.get_ref hn
  obtain ⟨⟨q, hq, hqs⟩, hcase⟩ := hnull
  have hno {S' : Finset Node} {b q : Node} (hb : IsFirst S' b) : ¬ MergesOn S' b q :=
    fun ⟨_, _, p, hp, _⟩ => by
    have := hb p hp.1
    have := hp.2.1
    omega
  rcases hl.mergePrev_cases hp hn (VM_PROT_PROMOTE n.flags) with
    ⟨p, h1, l1, r1, hpl, he1, hh1, -⟩ | ⟨hno1, he1⟩
  · have hmin : IsFirst S p := by
      rcases hcase with ⟨hno, -⟩ | ⟨p2, hp2, hmin⟩
      · exact absurd hpl (hno p)
      · rwa [hl.isPrev_unique (hp.isPrev hpl.1 hpl.2.1) (hp.isPrev hp2.1 hp2.2.1)]
    set p' : Node := { p with stop := n.stop } with hp'
    change Holds h1 (S \ {n, p} ∪ {p'}) (node l1 p'.ref r1) at hh1
    obtain ⟨hp1, hafter, -, hfirst⟩ := hp.mergeLeft hn hpl.1 hpl.2.1 hp'
    have hmin1 := hfirst.mpr hmin
    unfold OpenOOC.threeWayMerge
    simp only [hv, hvf, he1, Option.bind_eq_bind, Option.bind_some]
    change (threeWayMatches h1 (some p'.ref)).bind _ = _
    rcases hh1.linked.threeWayMatches_cases hp1 (n := p') (by simp) with ⟨q', hq', -⟩ | ⟨-, he2⟩
    · exact absurd hq' (hno hmin1)
    · rw [he2, if_pos ⟨q, (hafter q hqs).mpr hq, hqs, hmin1⟩]
      rfl
  · have hmin : IsFirst S n := by
      rcases hcase with ⟨-, hmin⟩ | ⟨p, hpl, -⟩
      · exact hmin
      · exact absurd hpl (hno1 p)
    unfold OpenOOC.threeWayMerge
    simp only [hv, hvf, he1, Option.bind_eq_bind, Option.bind_some]
    rcases hl.threeWayMatches_cases hp hn with ⟨q', hq', -⟩ | ⟨-, he2⟩
    · exact absurd hq' (hno hmin)
    · rw [he2, if_pos ⟨q, hq, hqs, hmin⟩]
      rfl

end Linked

end OpenOOC
