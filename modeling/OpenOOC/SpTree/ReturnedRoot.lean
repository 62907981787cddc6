import OpenOOC.SpTree.SafeCall
import OpenOOC.SpTree.ThreeWay

/-! When the node that `sp_tree_find_mod_and_lock` returns is the root of the tree.
Each merge leaves at the root what `S_sp_tree_remove_helper` finds there: the node
before the one that is removed, or the root of what comes after it. -/

namespace OpenOOC

open Links SplayTree SplayTree.Tree Returns

variable {ps : PageSize} {h h' : Heap} {S S' R M : Finset Node} {T T' l l' r r' : Tree Ref}
  {n m p q t x : Node}
  {k e : ℕ} {z : Addr} {f : BitVec 64} {freed : List Addr}

theorem Holds.isRoot (hh : Holds h S T) (hx : x.ref ∈ T.toList) : IsRoot h (some x.ref) ↔
    T.root? = some x.ref := by
  constructor
  · exact fun hr => hh.rep.root.symm.trans hr.1
  · intro hr
    obtain ⟨v, hv, -, hvp, -⟩ := h.cell_eq (hh.rep.ok hx)
    exact ⟨hh.rep.root.trans hr, v, hv, hvp.trans (hh.rep.root_par _ hr)⟩

/-- `x` is the root of the tree, or the right child of the root. -/
def NearTop (T : Tree Ref) (x : Ref) : Prop :=
  T.root? = some x ∨ ∃ l t r, T = node l t r ∧ r.root? = some x

/-! ### Trees -/

namespace Linked

theorem left_nil (hl : Linked h S (node l n.ref r)) (hn : n ∈ S) : l = nil ↔ IsFirst S n := by
  constructor
  · rintro rfl m hm
    rcases hl.split_sorted (toList_node nil r n.ref) hn hm with ⟨hx, -⟩ | rfl | ⟨-, hx⟩
    · simp at hx
    · exact le_refl _
    · omega
  · intro hf
    cases l with
    | nil => rfl
    | node ll a lr =>
      obtain ⟨m, hm, rfl⟩ := hl.node_of_mem (x := a) (by simp)
      have := hl.start_lt (toList_node _ r n.ref) hm hn (by simp) (by simp)
      have := hf m hm
      omega

/-- Without its root the tree has the node after it at the root exactly if nothing was
before the root and this node was at the root of what was after it. -/
theorem root_joined_iff (hl : Linked h S (node l n.ref r)) (hn : n ∈ S) (hj : Joined l r T)
    (hq : q ∈ S)
    (hlt : n.start < q.start) : T.root? = some q.ref ↔ IsFirst S n ∧ r.root? = some q.ref := by
  rw [← hl.left_nil hn]
  rcases hj with ⟨rfl, rfl⟩ | ⟨l', a, hl', rfl⟩
  · simp
  · have hne : l ≠ nil := by
      rintro rfl
      simp at hl'
    refine iff_of_false (fun he => ?_) fun hh => hne hh.1
    obtain rfl : a = q.ref := by simpa using he
    have := hl.start_lt (toList_node l r n.ref) hq hn (by simp [hl']) (by simp)
    omega

/-- What is after the new root `n` has `q` at its root if the splayed tree had it near its root. -/
theorem nearTop_iff (hl : Linked h S (node l t.ref r)) (ht : t ∈ S)
    (hl' : Linked h' S' (node l' n.ref r')) (hn : n ∈ S')
    (hS : S ⊆ S') (hr : Rooted l t.ref r n.ref (node l' n.ref r')) (hq : q ∈ S)
    (hqn : n.start < q.start)
    (hmin : ∀ b ∈ S, n.start < b.start → q.start ≤ b.start)
    (hlo : ∀ b ∈ S, b.start < t.start → b.start < n.start) :
    r'.root? = some q.ref ↔ NearTop (node l t.ref r) q.ref := by
  rcases hr with he | he
  · obtain ⟨rfl, -, rfl⟩ := Tree.node.inj he
    have htn := hl'.start_lt (show _ = (l'.toList ++ [n.ref]) ++ (node nil t.ref r).toList by simp)
      hn (hS ht) (by simp) (by simp)
    have htq : t = q := by
      apply hl.eq_of_start ht hq
      by_contra hne
      have := hmin t ht htn
      have := hlo q hq (by omega)
      omega
    simp [NearTop, htq]
  · obtain ⟨rfl, -, rfl⟩ := Tree.node.inj he
    have htn := hl'.start_lt (show _ = (node l t.ref nil).toList ++ n.ref :: r'.toList by simp)
      (hS ht) hn (by simp) (by simp)
    have htq : t.ref ≠ q.ref := fun he => by
      rw [hl.eq_of_ref ht hq he] at htn
      omega
    simp [NearTop, htq]

end Linked

/-! ### A page that no node covers -/

/-- The node that comes out of adding the page at `k` to the splayed tree `T` is its root:
it is the new one, or the node before the page, or the node after the page, with no
other node before and with this one at the root of what comes after the page. -/
def AddsAtRoot (ps : PageSize) (S : Finset Node) (k : ℕ) (T : Tree Ref) : Prop :=
  ∀ q, RightOf S (k + ps.bytes) VM_PROT_READ q →
    (IsFirst S q ∨ ∃ p, LeftOf S k VM_PROT_READ p ∧ IsFirst S p) ∧ NearTop T q.ref

/-- A node that starts after the page at `k` starts where the page ends, if it starts at
what `vm_addr+OOC_PAGE_SIZE` is. -/
theorem after_eq_iff {a : ℕ} (hk : k < 2 ^ 64) (ha : k < a) (hb : a < 2 ^ 64) : a = ps.after k ↔
    a = k + ps.bytes := by
  have hlt : ps.bytes < 2 ^ 64 := Nat.pow_lt_pow_right (by decide) ps.lt_word
  unfold PageSize.after
  by_cases hwrap : k + ps.bytes < 2 ^ 64
  · rw [Nat.mod_eq_of_lt hwrap]
  · have : (k + ps.bytes) % 2 ^ 64 = k + ps.bytes - 2 ^ 64 := by
      rw [Nat.mod_eq_sub_mod (by omega), Nat.mod_eq_of_lt (by omega)]
    omega

theorem isNext_page (hp : PagesOk ps S) (hkd : ps.bytes ∣ k) (hk : k < 2 ^ 64)
    (hno : ∀ n ∈ S, ¬ n.Covers k)
    (hx : n.start ≤ k) (hmem : ∀ q, n.start < q.start → (q ∈ S' ↔ q ∈ S ∧ k < q.start)) :
    IsNext S' n q ∧ q.start = ps.after k ↔ q ∈ S ∧ q.start = k + ps.bytes := by
  have hpos := ps.bytes_pos
  constructor
  · rintro ⟨⟨hq, hlt, -⟩, he⟩
    obtain ⟨hqS, hkq⟩ := (hmem q hlt).mp hq
    have := hp.nonempty q hqS
    have := hp.bounded q hqS
    exact ⟨hqS, (after_eq_iff hk hkq (by omega)).mp he⟩
  · rintro ⟨hq, he⟩
    have := hp.nonempty q hq
    have := hp.bounded q hq
    have hkq : k < q.start := by omega
    refine ⟨⟨(hmem q (by omega)).mpr ⟨hq, hkq⟩, by omega, fun m hm hlt => ?_⟩,
      (after_eq_iff hk hkq (by omega)).mpr he⟩
    obtain ⟨hmS, hkm⟩ := (hmem m hlt).mp hm
    have := hp.page_apart hmS hkd (hno m hmS)
    have := hp.nonempty m hmS
    omega

namespace Linked

theorem mergeNext_isRoot (hh : Holds h S (node l n.ref r)) (hn : n ∈ S) :
    ∃ h' x, OpenOOC.mergeNext h (some n.ref) n.flags = some (h', some x) ∧
      (IsRoot h' (some x) ↔ ∀ q, IsNext S n q ∧ q.start = n.stop → q.flags = n.flags →
        IsFirst S n ∧ r.root? = some q.ref) := by
  rcases hh.linked.mergeNext_isNext hn n.flags with ⟨q, h', T', hqn, ⟨hqs, hqf⟩, e, hh', -, -, hj⟩ |
    ⟨hno, e⟩
  · have hq' : q.ref ∈ T'.toList := hh'.ref_mem (n := { q with start := n.start }) (by simp)
    refine ⟨h', _, e, ?_⟩
    rw [hh'.isRoot hq', hh.linked.root_joined_iff hn hj hqn.1 hqn.2.1]
    refine ⟨fun hr b hb _ => ?_, fun hr => hr q ⟨hqn, hqs⟩ hqf⟩
    rwa [hh.linked.isNext_unique hb.1 hqn]
  · refine ⟨h, _, e, iff_of_true ((hh.isRoot (by simp)).mpr rfl) fun q hq hqf =>
      absurd ⟨hq.2, hqf⟩ (hno q hq.1)⟩

theorem addPage_isRoot (hl : Linked h S (node l t.ref r)) (hp : PagesOk ps S) (ht : t ∈ S)
    (hroot : h.root ≠ none)
    (hkd : ps.bytes ∣ k) (hk : k < 2 ^ 64) (hno : ∀ n ∈ S, ¬ n.Covers k)
    (hlo : ∀ b ∈ S, b.start < t.start → b.start < k)
    (hhi : ∀ b ∈ S, t.start < b.start → k < b.start) {v : VmArea}
    {rest : List (Option (Addr × VmArea))}
    (hs : h.supply = some (z, v) :: rest) (hz : Fresh S z) :
    ∃ h' x, OpenOOC.addPage ps h k (some t.ref) = some (h', some x) ∧
      (IsRoot h' (some x) ↔ AddsAtRoot ps S k (node l t.ref r)) := by
  have hpos := ps.bytes_pos
  have hne {b : Node} (hb : b ∈ S) : b.start ≠ k :=
    fun he => hno b hb ⟨he.le, he ▸ hp.nonempty b hb⟩
  obtain ⟨h1, l1, r1, e1, hh1, hrooted, -⟩ := hl.addPage_start ps ht hroot (hne ht) hlo hhi hs hz
  set y : Node := ⟨z, VM_PROT_READ, k, ps.after k⟩ with hy
  have hyS : y ∉ S := fun hy' => hz.2 y hy' rfl
  have hy1 : y ∈ Insert.insert y S := Finset.mem_insert_self y S
  have hmem1 (q : Node) (hlt : k < q.start) : q ∈ Insert.insert y S ↔ q ∈ S := by
    have hqy : q ≠ y := fun he => by rw [he] at hlt; exact lt_irrefl _ hlt
    rw [Finset.mem_insert, or_iff_right hqy]
  have hafter {q b : Node} (hst : q.start = k + ps.bytes) (hb : b ∈ S) (hkb : k < b.start) :
      q.start ≤ b.start := by
    have := hp.page_apart hb hkd (hno b hb)
    have := hp.nonempty b hb
    omega
  have hnear {q : Node} (hq : q ∈ S) (hst : q.start = k + ps.bytes) :
      r1.root? = some q.ref ↔ NearTop (node l t.ref r) q.ref :=
    hl.nearTop_iff ht hh1.linked (n := y) hy1 (Finset.subset_insert y S) hrooted hq
      (show k < q.start by omega)
      (fun b hb hkb => hafter hst hb hkb) fun b hb hbt => hlo b hb hbt
  rcases hh1.linked.mergePrev_isPrev hy1 VM_PROT_READ with
    ⟨p, h2, l2, r2, hpp, ⟨hps, hpf⟩, e2, hh2, -, -, hj⟩ | ⟨hnp, e2⟩
  · set p' : Node := { p with stop := ps.after k } with hp'
    have hp'2 : p' ∈ Insert.insert y S \ {y, p} ∪ {p'} := by simp
    obtain ⟨h', x, e3, hx⟩ := mergeNext_isRoot (n := p') hh2 hp'2
    have hpk : p.start < k := hpp.2.1
    have hpy : p ≠ y := fun he => by rw [he] at hpk; exact lt_irrefl _ hpk
    have hpS : p ∈ S := (Finset.mem_insert.mp hpp.1).resolve_left hpy
    have hr21 : r2 = r1 := by
      rcases hj with ⟨hl1, -⟩ | ⟨l', a, -, he⟩
      · have := (hh1.linked.left_nil (n := y) hy1).mp hl1 p hpp.1
        exact absurd hpk (not_lt.mpr this)
      · exact (Tree.node.inj he).2.2
    have hmem2 (q : Node) (hlt : p.start < q.start) :
        q ∈ Insert.insert y S \ {y, p} ∪ {p'} ↔ q ∈ S ∧ k < q.start := by
      have hqp : q ≠ p := fun he => by rw [he] at hlt; exact lt_irrefl _ hlt
      have hqp' : q ≠ p' := fun he => by rw [he] at hlt; exact lt_irrefl _ hlt
      simp only [Finset.mem_union, Finset.mem_sdiff, Finset.mem_insert, Finset.mem_singleton, hqp,
        hqp', or_false]
      constructor
      · rintro ⟨hq | hq, hqy⟩
        · exact absurd hq hqy
        · refine ⟨hq, ?_⟩
          by_contra hle
          have := hpp.2.2 q (Finset.mem_insert_of_mem hq) (lt_of_le_of_ne (not_lt.mp hle) (hne hq))
          omega
      · rintro ⟨hq, hkq⟩
        exact ⟨Or.inr hq, fun he => hyS (he ▸ hq)⟩
    have hfirst : IsFirst (Insert.insert y S \ {y, p} ∪ {p'}) p' ↔ IsFirst S p := by
      refine ⟨fun hmin b hb => ?_, fun hmin b hb => ?_⟩
      · by_cases hbp : b = p
        · rw [hbp]
        · refine hmin b (Finset.mem_union_left _
            (Finset.mem_sdiff.mpr ⟨Finset.mem_insert_of_mem hb, ?_⟩))
          have hby : b ≠ y := fun he => hyS (he ▸ hb)
          simp [hby, hbp]
      · rcases Finset.mem_union.mp hb with hb | hb
        · obtain ⟨hb, hbn⟩ := Finset.mem_sdiff.mp hb
          simp only [Finset.mem_insert, Finset.mem_singleton, not_or] at hb hbn
          exact hmin b (hb.resolve_left hbn.1)
        · rw [Finset.mem_singleton.mp hb]
    refine ⟨h', x, ?_, ?_⟩
    · change mergePrev h1 (some (.vma z)) VM_PROT_READ = _ at e2
      rw [e1, e2, Option.bind_some]
      exact (hh2.linked.mergeNext_live (n := p') hp'2).trans e3
    · rw [hx, hfirst]
      refine forall_congr' fun q => ?_
      rw [isNext_page (n := p') hp hkd hk hno hpk.le hmem2, and_imp, RightOf, and_imp, and_imp,
        hr21]
      refine imp_congr_right fun hq => imp_congr_right fun he =>
        imp_congr ⟨fun hf => hf.trans hpf, fun hf => hf.trans hpf.symm⟩ ?_
      rw [hnear hq he, and_congr_left_iff]
      refine fun _ => ⟨fun hf => Or.inr ⟨p, ⟨hpS, hps, hpf⟩, hf⟩, fun hf => ?_⟩
      rcases hf with hf | ⟨p2, hp2, hf⟩
      · have := hf p hpS
        omega
      · by_cases hpp2 : p2 = p
        · exact hpp2 ▸ hf
        · have := hp.order hp2.1 hpS hpp2
          have := hp.nonempty p hpS
          have := hp.nonempty p2 hp2.1
          have := hp2.2.1
          have : p.stop = k := hps
          omega
  · obtain ⟨h', x, e3, hx⟩ := mergeNext_isRoot (n := y) hh1 hy1
    refine ⟨h', x, ?_, ?_⟩
    · change mergePrev h1 (some (.vma z)) VM_PROT_READ = _ at e2
      rw [e1, e2, Option.bind_some, hh1.linked.mergeNext_live (n := y) hy1, e3]
    · rw [hx]
      refine forall_congr' fun q => ?_
      rw [isNext_page (n := y) hp hkd hk hno (le_refl k) fun q hlt =>
        by rw [hmem1 q hlt, iff_self_and]; exact fun _ => hlt]
      rw [and_imp, RightOf, and_imp, and_imp]
      refine imp_congr_right fun hq => imp_congr_right fun he => imp_congr_right fun _ => ?_
      rw [hnear hq he, and_congr_left_iff]
      refine fun _ => ⟨fun hf => Or.inl fun b hb => ?_, fun hf b hb => ?_⟩
      · exact hafter he hb (lt_of_le_of_ne (hf b (Finset.mem_insert_of_mem hb)) (hne hb).symm)
      · rcases hf with hf | ⟨p2, hp2, -⟩
        · rcases Finset.mem_insert.mp hb with rfl | hb
          · exact le_refl _
          · have := hf b hb
            exact show k ≤ b.start by omega
        · have hpp := hp.ranges.isPrev (n := y) hp2.1 hp2.2.1
          refine absurd ⟨hp2.2.1, hp2.2.2⟩
            (hnp p2 ⟨Finset.mem_insert_of_mem hpp.1, hpp.2.1, fun m hm hlt => ?_⟩)
          rcases Finset.mem_insert.mp hm with rfl | hm
          · exact absurd hlt (lt_irrefl _)
          · exact hpp.2.2 m hm hlt

end Linked

/-! ### The call -/

def ReturnsRoot (res : Option (Heap × Ptr)) : Prop := ∀ h' z, res = some (h', z) → IsRoot h' z

/-- No suffix merge follows a page that is promoted in place or added, unless the node that
takes the page is at the root by then; and a page that stays a node of its own is at
`sp->root` before the call, or the splay takes the root to it. -/
structure ReturnsAtRoot (ps : PageSize) (h : Heap) (S : Finset Node) (T : Tree Ref) (k : ℕ) :
    Prop where
  add (hno : ∀ n ∈ S, ¬ n.Covers k) (hs : Serves h.supply 1) :
    AddsAtRoot ps S k (splay (heapCmp h k) T)
  single (n : Node) (hn : n ∈ S) (hs : n.start = k) (he : n.stop = k + ps.bytes)
    (hnull : ¬ ReadsNull S n) :
    (∀ m, TestedNode S n m → ∀ q, ¬ MergesOn S m q) ∧
      ((∀ p, ¬ LeftOf S n.start (VM_PROT_PROMOTE n.flags) p) → RootStays h k)

theorem returnsRoot_of_eq {c : Ptr} (hz : IsRoot h c) : ReturnsRoot (some (h, c)) := by
  rintro h' z he
  obtain ⟨rfl, rfl⟩ := Prod.mk.inj (Option.some.inj he)
  exact hz

theorem returnsRoot_some {c : Ptr} : ReturnsRoot (some (h, c)) ↔ IsRoot h c :=
  ⟨fun hr => hr h c rfl, returnsRoot_of_eq⟩

namespace Linked

theorem isRoot_iff (hl : Linked h S (node l n.ref r)) (hn : n ∈ S) : IsRoot h (some n.ref) ↔
    h.root = some n.ref := by
  refine ⟨fun hr => hr.1, fun hr => ?_⟩
  obtain ⟨v, hv, -, hvp, -⟩ := h.cell_eq (hl.ok hn)
  exact ⟨hr, v, hv, hvp.trans (hl.root_par _ rfl)⟩

theorem threeWayMerge_isRoot (hl : Linked h S (node l n.ref r)) (hp : PagesOk ps S) (hn : n ∈ S)
    (hnull : ¬ ReadsNull S n) :
    ReturnsRoot (OpenOOC.threeWayMerge h (some n.ref)) ↔
    (∀ m, TestedNode S n m → ∀ q, ¬ MergesOn S m q) ∧
      ((∀ p, ¬ LeftOf S n.start (VM_PROT_PROMOTE n.flags) p) → h.root = some n.ref) := by
  have hlt := hp.nonempty n hn
  obtain ⟨h', T', R, M, x, freed, e, hl', hstep, -, -, hroot, hiff⟩ :=
    hl.threeWayMerge hp.ranges hn hnull
  have hmoved (hx : x ∈ S \ R ∪ M)
      (hmv : ¬ ((∀ p, ¬ LeftOf S n.start (VM_PROT_PROMOTE n.flags) p) ∧ ∀ q, ¬ MergesOn S n q)) :
      IsRoot h' (some x.ref) ↔ T'.root? = some x.ref := by
    rcases hroot with hroot | ⟨h1, h2, -⟩
    · exact (hl'.holds_of_root hroot).isRoot (hl'.ref_mem hx)
    · exact absurd ⟨h1, h2⟩ hmv
  rw [e, returnsRoot_some]
  cases hstep with
  | keep hno hno' =>
    obtain rfl : h' = h := hl.threeWayMerge_keep hp.ranges hn hno hno' _ e
    rw [hl.isRoot_iff hn]
    refine ⟨fun hr => ⟨fun m hm => ?_, fun _ => hr⟩, fun hr => hr.2 hno⟩
    rcases hm with ⟨-, rfl⟩ | ⟨p, hp, -⟩
    · exact hno'
    · exact absurd hp (hno p)
  | @left p hpl hno =>
    rw [hmoved (by simp) fun hno' => hno'.1 p hpl, hiff]
    refine iff_of_true (fun q hq hqs he => ?_) ⟨fun m hm => ?_, fun hno' => absurd hpl (hno' p)⟩
    · rw [hl.eq_of_ref hq hpl.1 he] at hqs
      have := hp.nonempty p hpl.1
      have := hpl.2.1
      omega
    · rcases hm with ⟨hno', -⟩ | ⟨p2, hp2, rfl⟩
      · exact absurd hpl (hno' p)
      · rwa [hp.leftOf_unique hp2 hpl]
  | @right q hno hm =>
    rw [hmoved (by simp) fun hno' => hno'.2 q hm, hiff]
    exact iff_of_false (fun hne => hne q hm.1 hm.2.1 rfl) fun hr => hr.1 n (.inl ⟨hno, rfl⟩) q hm
  | @both p q hpl hm =>
    rw [hmoved (by simp) fun hno' => hno'.1 p hpl, hiff]
    exact iff_of_false (fun hne => hne q hm.1 hm.2.1 rfl) fun hr => hr.1 _ (.inr ⟨p, hpl, rfl⟩) q hm

end Linked

/-- A page of a node with other addresses comes back at the root, whatever `sp->root` was. -/
theorem returnsRoot_split (hh : Holds h S T) (hp : RangesOk S) (hk : k < 2 ^ 64) (hn : n ∈ S)
    (hc : n.Covers k)
    (hmany : ¬ (n.start = k ∧ n.stop = ps.after k)) (hsup : Supplied S h.supply) :
    ReturnsRoot (spTreeFindMod ps h k) := by
  intro h' c e
  have hserved := hh.findMod_served hp hn hc (.inl ⟨_, e⟩)
  rcases hh.findMod_returns hp hk hn hc hsup hserved with ⟨h2, c2, e2, -, hr⟩ | hstop
  · obtain ⟨rfl, rfl⟩ := Prod.mk.inj (Option.some.inj (e.symm.trans e2))
    exact hr hmany
  · rw [hstop.stops] at e
    cases e

theorem returnsRoot_single (hh : Holds h S T) (hp : PagesOk ps S) (hn : n ∈ S)
    (he : n.stop = n.start + ps.bytes) :
    ReturnsRoot (spTreeFindMod ps h n.start) ↔
    (¬ ReadsNull S n → (∀ m, TestedNode S n m → ∀ q, ¬ MergesOn S m q) ∧
      ((∀ p, ¬ LeftOf S n.start (VM_PROT_PROMOTE n.flags) p) → RootStays h n.start)) := by
  obtain ⟨h1, l, r, e, hl1, hstays, -⟩ := hh.findMod_single hp hn he
  rw [e, hstays]
  by_cases hnull : ReadsNull S n
  · rw [hl1.threeWayMerge_none hp.ranges hn hnull]
    exact iff_of_true (fun _ _ he => nomatch he) fun hno => absurd hnull hno
  · rw [hl1.threeWayMerge_isRoot hp hn hnull]
    exact ⟨fun hr _ => hr, fun hr => hr hnull⟩

theorem returnsRoot_add (hh : Holds h S T) (hp : PagesOk ps S) (hkd : ps.bytes ∣ k)
    (hk : k < 2 ^ 64)
    (hno : ∀ n ∈ S, ¬ n.Covers k) (hsup : Supplied S h.supply) :
    ReturnsRoot (spTreeFindMod ps h k) ↔
    (Serves h.supply 1 → AddsAtRoot ps S k (splay (heapCmp h k) T)) := by
  by_cases hserves : Serves h.supply 1
  · obtain ⟨z, v, rest, hs⟩ := serves_one.mp hserves
    rw [imp_iff_right hserves]
    by_cases hT : T = nil
    · subst hT
      have hroot : h.root = none := hh.rep.root
      refine iff_of_true ?_ fun q hq => ?_
      · unfold spTreeFindMod
        rw [if_pos hroot, newNode_eq hs]
        exact returnsRoot_of_eq ⟨rfl, _, by simp [Heap.withNode]; rfl, rfl⟩
      · have := hh.ref_mem hq.1
        simp at this
    · obtain ⟨h1, l, t, r, hsp, ht, he, hl1, hroot, -, hsup1, -, hlo, hhi⟩ := hh.splayed hT k
      have hroot1 : h1.root ≠ none := by rwa [hroot, hh.rep.root, ne_eq, root?_eq_none]
      obtain ⟨h', x, e, hx⟩ := hl1.addPage_isRoot hp ht hroot1 hkd hk hno hlo hhi (hsup1.trans hs)
        (hsup.fresh (z, v) (by simp [hs]))
      rw [hh.spTreeFindMod_eq hT he (hl1.coveringNode_none ht hno), if_pos rfl, e, returnsRoot_some,
        hsp, hx]
  · refine iff_of_true (fun h' c e => ?_) fun hs => absurd hs hserves
    exact absurd (findMod_serves hh hno _ e) hserves

/-- The call returns the root of the tree exactly if no suffix merge follows that leaves
another node there, and no page stays what it was while the root of before does not. -/
theorem find_mod_returns_root_iff (hh : Holds h S T) (hp : PagesOk ps S) (hkd : ps.bytes ∣ k)
    (hk : k < 2 ^ 64)
    (hsup : Supplied S h.supply) : ReturnsRoot (spTreeFindMod ps h k) ↔
    ReturnsAtRoot ps h S T k := by
  by_cases hc : ∃ n ∈ S, n.Covers k
  · obtain ⟨n, hn, hc⟩ := hc
    have huniq (m : Node) (hm : m ∈ S) (hs : m.start = k) : m = n := by
      by_contra hmn
      exact hp.disjoint m hm n hn hmn k ⟨⟨hs.le, hs ▸ hp.nonempty m hm⟩, hc⟩
    have hle := hp.page_le hn hkd hc
    have hafter : ps.after k = k + ps.bytes :=
      PageSize.after_eq (lt_of_le_of_lt hle (hp.bounded n hn))
    by_cases hsingle : n.start = k ∧ n.stop = k + ps.bytes
    · obtain ⟨rfl, he⟩ := hsingle
      rw [returnsRoot_single hh hp hn he]
      refine ⟨fun hr => ⟨fun hno _ => absurd hc (hno n hn), fun m hm hs _ hnull => ?_⟩,
        fun hr => hr.single n hn rfl he⟩
      obtain rfl := huniq m hm hs
      exact hr hnull
    · refine iff_of_true (returnsRoot_split hh hp.ranges hk hn hc (hafter ▸ hsingle) hsup)
        ⟨fun hno _ => absurd hc (hno n hn),
        fun m hm hs he => ?_⟩
      obtain rfl := huniq m hm hs
      exact absurd ⟨hs, he⟩ hsingle
  · have hno : ∀ n ∈ S, ¬ n.Covers k := fun n hn hcn => hc ⟨n, hn, hcn⟩
    rw [returnsRoot_add hh hp hkd hk hno hsup]
    refine ⟨fun hr => ⟨fun _ => hr, fun n hn hs he => ?_⟩, fun hr => hr.add hno⟩
    exact absurd ⟨hs.le, hs ▸ hp.nonempty n hn⟩ (hno n hn)

/-- A page in the middle of three comes back as the root. -/
theorem find_mod_returns_root_middle :
    ReturnsRoot (spTreeFindMod pages4096 (twoNodes ⟨72, VM_PROT_READ, 0, 4096⟩
    ⟨136, VM_PROT_READ, 8192, 20480⟩ [some (200, splayN), some (264, splayN)]) 12288) := by
  refine (find_mod_returns_root_iff twoNodes_middle
    (pagesOk_two (by decide) (by decide) (by decide) (by decide) (by decide)
    (by decide)) (by decide) (by decide) supplied_middle).mpr ⟨fun hno => ?_, fun n hn hs => ?_⟩
  · exact absurd (by decide) (hno ⟨136, VM_PROT_READ, 8192, 20480⟩ (by decide))
  · simp only [Finset.mem_insert, Finset.mem_singleton] at hn
    rcases hn with rfl | rfl <;> exact absurd hs (by decide)

/-- The page of the lower node comes back while `sp->root` points to the other node. -/
theorem find_mod_returns_below_root : ∃ h S T, Holds h S T ∧ PagesOk pages4096 S ∧
    Supplied S h.supply ∧
    ¬ ReturnsRoot (spTreeFindMod pages4096 h 0) := by
  have hp : PagesOk pages4096 {⟨72, VM_PROT_READ, 0, 4096⟩, ⟨136, VM_PROT_READ, 8192, 20480⟩} :=
    pagesOk_two (by decide) (by decide) (by decide) (by decide) (by decide) (by decide)
  refine ⟨_, _, _, twoNodes_middle, hp, supplied_middle, fun hr => ?_⟩
  have hroot := (returnsRoot_single (n := ⟨72, VM_PROT_READ, 0, 4096⟩) twoNodes_middle hp
    (by decide) (by decide)).mp hr
    (fun ⟨⟨q, hq, hqs⟩, _⟩ => ?_)
  · exact not_rootStays_lower (hroot.2 noLeft_lower)
  · simp only [Finset.mem_insert, Finset.mem_singleton] at hq
    rcases hq with rfl | rfl <;> exact absurd hqs (by decide)

end OpenOOC
