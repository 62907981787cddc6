import OpenOOC.SpTree.Coalesced
import OpenOOC.SpTree.Pins

/-! Which structs a call of `sp_tree_find_mod_and_lock` gives back, on any tree of
disjoint ranges: those of the nodes that it merges away, and its own new one. -/

namespace OpenOOC

open SplayTree SplayTree.Tree

variable {ps : PageSize} {h : Heap} {S R M : Finset Node} {T : Tree Ref} {n x : Node} {k : ℕ}
  {freed : List Addr}

/-- The call for the page at `k` merges `n` away: the page joins it with the node after
it, or the page is promoted and `n` is merged. -/
inductive MergedAway (ps : PageSize) (S : Finset Node) (k : ℕ) (n : Node) : Prop
  | joined {q : Node} (hno : ∀ m ∈ S, ¬ m.Covers k) (hl : LeftOf S k VM_PROT_READ n)
      (hr : RightOf S (k + ps.bytes) VM_PROT_READ q)
  | merged (hn : n ∈ S) (hs : n.start = k) (he : n.stop = k + ps.bytes)
      (h : (∃ p, LeftOf S k (VM_PROT_PROMOTE n.flags) p) ∨ ∃ q, MergesOn S n q)
  | mergedPrev {m q : Node} (hm : m ∈ S) (hs : m.start = k) (he : m.stop = k + ps.bytes)
      (hl : LeftOf S k (VM_PROT_PROMOTE m.flags) n) (hr : MergesOn S { n with stop := m.stop } q)

/-- The page lies in one node that can serve it, or between the nodes. -/
structure PageServed (ps : PageSize) (h : Heap) (S : Finset Node) (c : Touch) : Prop where
  ranges : RangesOk S
  inRange : c.vmAddr + ps.bytes < 2 ^ 64
  covered : ∀ n ∈ S, n.Covers c.vmAddr → c.vmAddr + ps.bytes ≤ n.stop ∧
    Servable ps S n c.vmAddr (RootStays h c.vmAddr) c.supply
  between : (∀ n ∈ S, ¬ n.Covers c.vmAddr) →
    (∀ n ∈ S, n.stop ≤ c.vmAddr ∨ c.vmAddr + ps.bytes ≤ n.start) ∧ Serves c.supply 1

/-! ### The steps -/

/-- What a call leaves of the structs: those it gives back are new or were in the tree, and
none of them stays. -/
structure GivesBack (S : Finset Node) (new freed : List Addr) (gone : Node → Prop)
    (S' : Finset Node) : Prop where
  once : freed.Nodup
  back : ∀ a ∈ freed, a ∈ new ∨ ∃ n ∈ S, n.addr = a ∧ gone n
  live : ∀ m ∈ S', m.addr ∉ freed ∧ (m.addr ∈ new ∨ ∃ n ∈ S, n.addr = m.addr)

/-- Only the nodes that come need a look. -/
theorem givesBack_refill {new : List Addr} {gone : Node → Prop}
    (hinj : ∀ n ∈ S, ∀ m ∈ S, n.addr = m.addr → n = m) (hnew : ∀ a ∈ new, ∀ n ∈ S, n.addr ≠ a)
    (hR : R ⊆ S) (hd : freed.Nodup)
    (hback : ∀ a ∈ freed, a ∈ new ∨ ∃ n ∈ R, n.addr = a ∧ gone n)
    (hM : ∀ m ∈ M, m.addr ∉ freed ∧ (m.addr ∈ new ∨ ∃ n ∈ S, n.addr = m.addr)) :
    GivesBack S new freed gone (S \ R ∪ M) := by
  refine ⟨hd, fun a ha => (hback a ha).imp_right fun ⟨n, hn, h⟩ => ⟨n, hR hn, h⟩, fun m hm => ?_⟩
  rcases Finset.mem_union.mp hm with hm | hm
  · obtain ⟨hmS, hmR⟩ := Finset.mem_sdiff.mp hm
    refine ⟨fun ha => ?_, Or.inr ⟨m, hmS, rfl⟩⟩
    rcases hback _ ha with ha | ⟨n, hn, hnm, -⟩
    · exact hnew _ ha m hmS rfl
    · exact hmR (hinj n (hR hn) m hmS hnm ▸ hn)
  · exact hM m hm

theorem AddStep.givesBack {z : Addr} (hs : AddStep k (k + ps.bytes) S z R M x freed)
    (hp : RangesOk S) (hno : ∀ n ∈ S, ¬ n.Covers k)
    (hinj : ∀ n ∈ S, ∀ m ∈ S, n.addr = m.addr → n = m) (hz : ∀ n ∈ S, n.addr ≠ z) :
    GivesBack S [z] freed (MergedAway ps S k) (S \ R ∪ M) := by
  have hnew : ∀ a ∈ [z], ∀ n ∈ S, n.addr ≠ a := by simpa using hz
  have hpos := ps.bytes_pos
  cases hs with
  | alone hl hr => exact givesBack_refill hinj hnew (by simp) (by simp) (by simp) (by simp)
  | left hl hr =>
    have hpz := hz _ hl.1
    exact givesBack_refill hinj hnew (by simpa using hl.1) (by simp) (by simp)
      (by simpa [hpz] using ⟨_, hl.1, rfl⟩)
  | right hl hr =>
    have hqz := hz _ hr.1
    exact givesBack_refill hinj hnew (by simpa using hr.1) (by simp) (by simp)
      (by simpa [hqz] using ⟨_, hr.1, rfl⟩)
  | @both p q hl hr =>
    have hpz := hz _ hl.1
    have hqz := hz _ hr.1
    have hle : p.stop ≤ q.start := by rw [hl.2.1, hr.2.1]; omega
    have hpq : q.addr ≠ p.addr := fun he => hp.ne_of_le hl.1 hle (hinj q hr.1 p hl.1 he).symm
    refine givesBack_refill hinj hnew (by simp [Finset.insert_subset_iff, hl.1, hr.1])
      (by simpa using hpz.symm) (fun a ha => ?_) (by simpa [hqz, hpq] using ⟨_, hr.1, rfl⟩)
    rcases List.mem_pair.mp ha with rfl | rfl
    · exact Or.inl (by simp)
    · exact Or.inr ⟨p, by simp, rfl, .joined hno hl hr⟩

theorem SplitStep.givesBack {e : ℕ} {new : List (Addr × BitVec 64)}
    (hs : SplitStep k e S n new R M x) (hn : n ∈ S) (hst : Structs S new) {gone : Node → Prop} :
    GivesBack S (new.map (·.1)) [] gone (S \ R ∪ M) := by
  have hnew : ∀ a ∈ new.map (·.1), ∀ n ∈ S, n.addr ≠ a := by
    simpa using fun a s ha => hst.fresh (a, s) ha
  cases hs with
  | mid hs he =>
    exact givesBack_refill hst.addr hnew (by simpa using hn) List.nodup_nil (by simp)
      (by simpa using Or.inr ⟨_, hn, rfl⟩)
  | prefixMigrate hs he hl =>
    refine givesBack_refill hst.addr hnew (by simp [Finset.insert_subset_iff, hl.1, hn])
      List.nodup_nil (by simp) ?_
    simpa using ⟨⟨_, hl.1, rfl⟩, ⟨_, hn, rfl⟩⟩
  | prefixSplit hs he hl =>
    exact givesBack_refill hst.addr hnew (by simpa using hn) List.nodup_nil (by simp)
      (by simpa using Or.inr ⟨_, hn, rfl⟩)
  | suffixMigrate hs he hr =>
    refine givesBack_refill hst.addr hnew (by simp [Finset.insert_subset_iff, hr.1, hn])
      List.nodup_nil (by simp) ?_
    simpa using ⟨⟨_, hn, rfl⟩, ⟨_, hr.1, rfl⟩⟩
  | suffixSplit hs he hr =>
    exact givesBack_refill hst.addr hnew (by simpa using hn) List.nodup_nil (by simp)
      (by simpa using Or.inr ⟨_, hn, rfl⟩)

theorem MergeStep.givesBack (hs : MergeStep S n R M x freed) (hp : RangesOk S) (hn : n ∈ S)
    (hk : n.start = k) (he : n.stop = k + ps.bytes)
    (hinj : ∀ n ∈ S, ∀ m ∈ S, n.addr = m.addr → n = m) :
    GivesBack S [] freed (MergedAway ps S k) (S \ R ∪ M) := by
  subst hk
  have hnlt := hp.nonempty n hn
  cases hs with
  | keep hl hr =>
    exact givesBack_refill hinj (by simp) (by simp) (by simp) (by simp) (by simp)
  | @left p hl hr =>
    have hpn : p.addr ≠ n.addr := fun h => hp.ne_of_le hl.1 hl.2.1.le (hinj _ hl.1 _ hn h)
    refine givesBack_refill hinj (by simp) (by simp [Finset.insert_subset_iff, hl.1, hn]) (by simp)
      ?_ (by simpa [hpn] using ⟨_, hl.1, rfl⟩)
    simpa using Or.inl (.merged hn rfl he (Or.inl ⟨p, hl⟩))
  | @right q hl hr =>
    have hqn : q.addr ≠ n.addr := fun h => hp.ne_of_le hn hr.2.1.ge (hinj _ hr.1 _ hn h).symm
    refine givesBack_refill hinj (by simp) (by simp [Finset.insert_subset_iff, hr.1, hn]) (by simp)
      ?_ (by simpa [hqn] using ⟨_, hr.1, rfl⟩)
    simpa using Or.inl (.merged hn rfl he (Or.inr ⟨q, hr⟩))
  | @both p q hl hr =>
    have hpn : p.addr ≠ n.addr := fun h => hp.ne_of_le hl.1 hl.2.1.le (hinj _ hl.1 _ hn h)
    have hqs : q.start = n.stop := hr.2.1
    have hle : p.stop ≤ q.start := by rw [hl.2.1, hqs]; exact hnlt.le
    have hqn : q.addr ≠ n.addr := fun h => hp.ne_of_le hn hqs.ge (hinj _ hr.1 _ hn h).symm
    have hqp : q.addr ≠ p.addr := fun h => hp.ne_of_le hl.1 hle (hinj q hr.1 p hl.1 h).symm
    refine givesBack_refill hinj (by simp) (by simp [Finset.insert_subset_iff, hl.1, hr.1, hn])
      (by simpa using hpn.symm) (fun a ha => ?_) (by simpa [hqn, hqp] using ⟨_, hr.1, rfl⟩)
    rcases List.mem_pair.mp ha with rfl | rfl
    · exact Or.inr ⟨n, by simp, rfl, .merged hn rfl he (Or.inl ⟨p, hl⟩)⟩
    · exact Or.inr ⟨p, by simp, rfl, .mergedPrev hn rfl he hl hr⟩

theorem CallStep.givesBack {new : List (Addr × BitVec 64)} (hs : CallStep ps k S new R M x freed)
    (hp : RangesOk S) (hst : Structs S new) :
    GivesBack S (new.map (·.1)) freed (MergedAway ps S k) (S \ R ∪ M) := by
  cases hs with
  | add hno hs => exact hs.givesBack hp hno hst.addr (hst.fresh _ List.mem_cons_self)
  | split hn hs => exact hs.givesBack hn hst
  | merge hn hk he hs => exact hs.givesBack hp hn hk he hst.addr

/-! ### What is merged away is given back -/

/-- Where a node covers the page, a node is merged away only if that one has no other page. -/
theorem MergedAway.single (hm : MergedAway ps S k n) {m : Node} (hp : RangesOk S) (hmS : m ∈ S)
    (hc : m.Covers k) : (m.start = k ∧ m.stop = k + ps.bytes) ∧
      (n = m ∧ ((∃ p, LeftOf S k (VM_PROT_PROMOTE m.flags) p) ∨ ∃ q, MergesOn S m q) ∨
        LeftOf S k (VM_PROT_PROMOTE m.flags) n ∧ ∃ q, MergesOn S { n with stop := m.stop } q) := by
  have hpos := ps.bytes_pos
  have heq {b : Node} (hb : b ∈ S) (hs : b.start = k) (he : b.stop = k + ps.bytes) : b = m :=
    hp.apart.eq_of_covers hb hmS ⟨hs.le, by omega⟩ hc
  cases hm with
  | joined hno _ _ => exact absurd hc (hno m hmS)
  | merged hn hs he h =>
    obtain rfl := heq hn hs he
    exact ⟨⟨hs, he⟩, Or.inl ⟨rfl, h⟩⟩
  | mergedPrev hb hs he hl hr =>
    obtain rfl := heq hb hs he
    exact ⟨⟨hs, he⟩, Or.inr ⟨hl, _, hr⟩⟩

theorem AddStep.mem_freed_of_mergedAway {z : Addr} (hs : AddStep k (k + ps.bytes) S z R M x freed)
    (hp : RangesOk S) (hno : ∀ n ∈ S, ¬ n.Covers k) (hm : MergedAway ps S k n) :
    n.addr ∈ freed := by
  have hpos := ps.bytes_pos
  cases hm with
  | joined _ hl hr =>
    cases hs with
    | alone hl' _ => exact absurd hl (hl' n)
    | left _ hr' => exact absurd hr (hr' _)
    | right hl' _ => exact absurd hl (hl' n)
    | both hl' _ =>
      obtain rfl := hp.apart.eq_of_stop hl.1 hl'.1 (hl.2.1.trans hl'.2.1.symm)
      simp
  | merged hn hs he _ => exact absurd ⟨hs.le, by omega⟩ (hno n hn)
  | mergedPrev hn hs he _ _ => exact absurd ⟨hs.le, by omega⟩ (hno _ hn)

theorem MergeStep.mem_freed_of_mergedAway {m : Node} (hs : MergeStep S m R M x freed)
    (hp : RangesOk S) (hmS : m ∈ S) (hm : MergedAway ps S m.start n) : n.addr ∈ freed := by
  obtain ⟨-, ⟨rfl, h⟩ | ⟨hl, q, hr⟩⟩ := hm.single hp hmS ⟨le_refl _, hp.nonempty m hmS⟩
  · cases hs with
    | keep hl' hr' => exact absurd h (not_or.mpr ⟨not_exists.mpr hl', not_exists.mpr hr'⟩)
    | _ => simp
  · cases hs with
    | keep hl' _ => exact absurd hl (hl' n)
    | @left p hl' hr' =>
      obtain rfl := hp.apart.eq_of_stop hl.1 hl'.1 (hl.2.1.trans hl'.2.1.symm)
      exact absurd hr (hr' q)
    | right hl' _ => exact absurd hl (hl' n)
    | both hl' _ =>
      obtain rfl := hp.apart.eq_of_stop hl.1 hl'.1 (hl.2.1.trans hl'.2.1.symm)
      simp

theorem CallStep.mem_freed_of_mergedAway {new : List (Addr × BitVec 64)}
    (hs : CallStep ps k S new R M x freed) (hp : RangesOk S) (hm : MergedAway ps S k n) :
    n.addr ∈ freed := by
  cases hs with
  | add hno hs => exact hs.mem_freed_of_mergedAway hp hno hm
  | @split m _ _ _ _ hmS hs =>
    have hpos := ps.bytes_pos
    obtain ⟨h1, h2, -⟩ := hs.page_in
    obtain ⟨⟨h3, h4⟩, -⟩ := hm.single hp hmS ⟨h1, by omega⟩
    cases hs <;> omega
  | merge hmS hk he hs =>
    subst hk
    exact hs.mem_freed_of_mergedAway hp hmS hm

/-! ### The call -/

theorem PageServed.done {c : Touch} (hs : PageServed ps h S c) (hh : Holds h S T)
    (hsup : Supplied S c.supply) :
    CallDone ps { h with supply := c.supply } S c.vmAddr (c.exec ps h) := by
  have hh' := hh.withSupply c.supply
  by_cases hcov : ∃ n ∈ S, n.Covers c.vmAddr
  · obtain ⟨n, hn, hc⟩ := hcov
    obtain ⟨hle, hsafe⟩ := hs.covered n hn hc
    exact hh'.findMod_within hs.ranges hs.inRange hn hc hle hsup hsafe
  · have hno : ∀ n ∈ S, ¬ n.Covers c.vmAddr := fun n hn hc => hcov ⟨n, hn, hc⟩
    obtain ⟨hout, hserves⟩ := hs.between hno
    exact hh'.findMod_between hs.ranges hs.inRange hout hsup hserves

theorem PageServed.givesBack {c : Touch} (hs : PageServed ps h S c) (hh : Holds h S T)
    (hsup : Supplied S c.supply) :
    ∃ h' S' T' y, ∃ used : List (Addr × VmArea), ∃ freed, c.exec ps h = some (h', y) ∧
      Holds h' S' T' ∧ (∀ u ∈ used, some u ∈ c.supply) ∧
      h'.calls = h.calls ++ used.map (fun u => .alloc (some u.1)) ++ freed.map .free ∧
      GivesBack S (used.map (·.1)) freed (MergedAway ps S c.vmAddr) S' ∧
      ∀ n, MergedAway ps S c.vmAddr n → n.addr ∈ freed := by
  obtain ⟨h', T', used, R, M, x, freed, he, hh', hstep, hused, hcalls⟩ := hs.done hh hsup
  have hused : c.supply = used.map some ++ h'.supply := hused
  have hback := hstep.givesBack hs.ranges (structs_of_supplied hh (hused ▸ hsup))
  rw [List.map_map] at hback
  exact ⟨h', _, T', _, used, freed, he, hh', fun u hu => by simp [hused, hu], hcalls, hback,
    fun n hn => hstep.mem_freed_of_mergedAway hs.ranges hn⟩

end OpenOOC
