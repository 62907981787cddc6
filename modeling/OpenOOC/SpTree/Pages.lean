import OpenOOC.Lib.Ranges
import OpenOOC.SpTree.FindMod
import OpenOOC.SpTree.Runs

/-! What `sp_tree_find_mod_and_lock` does to the set of live nodes when their ranges
are whole pages: which nodes go, which come, and which one is returned. The call is
for the page from `k` to `e`. -/

namespace OpenOOC

open Ranges

/-! ### Trees of pages -/

/-- The ranges are whole pages, nonempty and disjoint. -/
structure PagesOk (ps : PageSize) (S : Finset Node) : Prop where
  pages : ∀ n ∈ S, ps.bytes ∣ n.start ∧ ps.bytes ∣ n.stop
  nonempty : ∀ n ∈ S, n.start < n.stop
  bounded : ∀ n ∈ S, n.stop < 2 ^ 64
  disjoint : DisjointRanges S

/-- The ranges are nonempty and disjoint, whole pages or not. -/
structure RangesOk (S : Finset Node) : Prop where
  nonempty : ∀ n ∈ S, n.start < n.stop
  disjoint : DisjointRanges S

def FlagsAt (S : Finset Node) (a : ℕ) (f : BitVec 64) : Prop := ∃ n ∈ S, n.Covers a ∧ n.flags = f

def LeftOf (S : Finset Node) (k : ℕ) (f : BitVec 64) (p : Node) : Prop :=
  p ∈ S ∧ p.stop = k ∧ p.flags = f

def RightOf (S : Finset Node) (e : ℕ) (f : BitVec 64) (q : Node) : Prop :=
  q ∈ S ∧ q.start = e ∧ q.flags = f

def Fresh (S : Finset Node) (z : Addr) : Prop := z.toNat % 8 = 0 ∧ ∀ n ∈ S, n.addr ≠ z

def IsPrev (S : Finset Node) (n p : Node) : Prop :=
  p ∈ S ∧ p.start < n.start ∧ ∀ m ∈ S, m.start < n.start → m.start ≤ p.start

def IsNext (S : Finset Node) (n q : Node) : Prop :=
  q ∈ S ∧ n.start < q.start ∧ ∀ m ∈ S, n.start < m.start → q.start ≤ m.start

/-! ### Steps -/

/-- A page that no node covers: `z` is the new struct. -/
inductive AddStep (k e : ℕ) (S : Finset Node) (z : Addr) : Finset Node → Finset Node → Node →
    List Addr → Prop
  | alone (hl : ∀ p, ¬ LeftOf S k VM_PROT_READ p) (hr : ∀ q, ¬ RightOf S e VM_PROT_READ q) :
      AddStep k e S z ∅ {⟨z, VM_PROT_READ, k, e⟩} ⟨z, VM_PROT_READ, k, e⟩ []
  | left {p : Node} (hl : LeftOf S k VM_PROT_READ p) (hr : ∀ q, ¬ RightOf S e VM_PROT_READ q) :
      AddStep k e S z {p} {{ p with stop := e }} { p with stop := e } [z]
  | right {q : Node} (hl : ∀ p, ¬ LeftOf S k VM_PROT_READ p) (hr : RightOf S e VM_PROT_READ q) :
      AddStep k e S z {q} {{ q with start := k }} { q with start := k } [z]
  | both {p q : Node} (hl : LeftOf S k VM_PROT_READ p) (hr : RightOf S e VM_PROT_READ q) :
      AddStep k e S z {p, q} {{ q with start := p.start }} { q with start := p.start } [z, p.addr]

/-- A page of a node `n` with other pages. The new structs come with their flags. -/
inductive SplitStep (k e : ℕ) (S : Finset Node) (n : Node) :
    List (Addr × BitVec 64) → Finset Node → Finset Node → Node → Prop
  | mid {z t : Addr} {s s' : BitVec 64} (hs : n.start < k) (he : e < n.stop) :
      SplitStep k e S n [(z, s), (t, s')] {n}
        {{ n with stop := k }, ⟨z, VM_PROT_PROMOTE n.flags, k, e⟩, ⟨t, n.flags, e, n.stop⟩}
        ⟨z, VM_PROT_PROMOTE n.flags, k, e⟩
  | prefixMigrate {p : Node} (hs : n.start = k) (he : e < n.stop)
    (hl : LeftOf S k (VM_PROT_PROMOTE n.flags) p) :
      SplitStep k e S n [] {p, n} {{ p with stop := e }, { n with start := e }} { p with stop := e }
  | prefixSplit {z : Addr} {s : BitVec 64} (hs : n.start = k) (he : e < n.stop)
      (hl : ∀ p, ¬ LeftOf S k (VM_PROT_PROMOTE n.flags) p) :
      SplitStep k e S n [(z, s)] {n} {⟨z, s, k, e⟩, { n with start := e }} ⟨z, s, k, e⟩
  | suffixMigrate {q : Node} (hs : n.start < k) (he : n.stop = e)
    (hr : RightOf S e (VM_PROT_PROMOTE n.flags) q) :
      SplitStep k e S n [] {n, q} {{ n with stop := k }, { q with start := k }}
        { q with start := k }
  | suffixSplit {z : Addr} {s : BitVec 64} (hs : n.start < k) (he : n.stop = e)
      (hr : ∀ q, ¬ RightOf S e (VM_PROT_PROMOTE n.flags) q) :
      SplitStep k e S n [(z, s)] {n} {{ n with stop := k }, ⟨z, s, k, e⟩} ⟨z, s, k, e⟩

/-- The suffix merge of the 3-way merge takes place: a node starts where `n` ends,
and the node before `n`, wherever it ends, has the promoted flags of `n`. -/
def MergesOn (S : Finset Node) (n q : Node) : Prop :=
  q ∈ S ∧ q.start = n.stop ∧ ∃ p, IsPrev S n p ∧ p.flags = VM_PROT_PROMOTE n.flags

def IsFirst (S : Finset Node) (n : Node) : Prop := ∀ m ∈ S, n.start ≤ m.start

/-- The test before that suffix merge reads flags through a `vm_prev` that is NULL. -/
def ReadsNull (S : Finset Node) (n : Node) : Prop :=
  (∃ q ∈ S, q.start = n.stop) ∧
    ((∀ p, ¬ LeftOf S n.start (VM_PROT_PROMOTE n.flags) p) ∧ IsFirst S n ∨
      ∃ p, LeftOf S n.start (VM_PROT_PROMOTE n.flags) p ∧ IsFirst S p)

/-- The page of a node `n` that has no other. -/
inductive MergeStep (S : Finset Node) (n : Node) : Finset Node → Finset Node → Node → List Addr →
    Prop
  | keep (hl : ∀ p, ¬ LeftOf S n.start (VM_PROT_PROMOTE n.flags) p) (hr : ∀ q, ¬ MergesOn S n q) :
      MergeStep S n ∅ ∅ n []
  | left {p : Node} (hl : LeftOf S n.start (VM_PROT_PROMOTE n.flags) p)
      (hr : ∀ q, ¬ MergesOn S { p with stop := n.stop } q) :
      MergeStep S n {n, p} {{ p with stop := n.stop }} { p with stop := n.stop } [n.addr]
  | right {q : Node} (hl : ∀ p, ¬ LeftOf S n.start (VM_PROT_PROMOTE n.flags) p)
    (hr : MergesOn S n q) :
      MergeStep S n {n, q} {{ q with start := n.start }} { q with start := n.start } [n.addr]
  | both {p q : Node} (hl : LeftOf S n.start (VM_PROT_PROMOTE n.flags) p)
    (hr : MergesOn S { p with stop := n.stop } q) :
      MergeStep S n {n, p, q} {{ q with start := p.start }} { q with start := p.start }
        [n.addr, p.addr]

/-- A call for the page at `k`: the structs from `vma_alloc` with their stale flags, the
nodes that go, the nodes that come, the node returned and the structs given back. -/
inductive CallStep (ps : PageSize) (k : ℕ) (S : Finset Node) :
    List (Addr × BitVec 64) → Finset Node → Finset Node → Node → List Addr → Prop
  | add {z : Addr} {s : BitVec 64} {R M : Finset Node} {x : Node} {freed : List Addr}
    (hno : ∀ n ∈ S, ¬ n.Covers k)
      (h : AddStep k (k + ps.bytes) S z R M x freed) : CallStep ps k S [(z, s)] R M x freed
  | split {n : Node} {new : List (Addr × BitVec 64)} {R M : Finset Node} {x : Node} (hn : n ∈ S)
      (h : SplitStep k (k + ps.bytes) S n new R M x) : CallStep ps k S new R M x []
  | merge {n : Node} {R M : Finset Node} {x : Node} {freed : List Addr} (hn : n ∈ S)
    (hs : n.start = k)
      (he : n.stop = k + ps.bytes) (h : MergeStep S n R M x freed) : CallStep ps k S [] R M x freed

/-- The next structs from `vma_alloc`, where it does not return NULL, are in no tree. -/
structure Supplied (S : Finset Node) (supply : List (Option (Addr × VmArea))) : Prop where
  fresh : ∀ u, some u ∈ supply → Fresh S u.1
  distinct : ∀ z v y w rest, supply = some (z, v) :: some (y, w) :: rest → z ≠ y

def Serves (supply : List (Option (Addr × VmArea))) (m : ℕ) : Prop :=
  ∃ (used : List (Addr × VmArea)) (rest : List (Option (Addr × VmArea))), used.length = m ∧
    supply = used.map some ++ rest

/-- The page at `k` of `n` can be served: where the call works from `sp->root`, or
leaves it as it is, this is the splayed root; no struct is missing; and `vm_prev` is
not read where it is NULL. -/
structure Servable (ps : PageSize) (S : Finset Node) (n : Node) (k : ℕ) (rootStays : Prop)
    (supply : List (Option (Addr × VmArea))) : Prop where
  mid (hs : n.start < k) (he : k + ps.bytes < n.stop) : rootStays ∧ Serves supply 2
  prefixSplit (hs : n.start = k) (he : k + ps.bytes < n.stop)
    (hl : ∀ p, ¬ LeftOf S k (VM_PROT_PROMOTE n.flags) p) : rootStays ∧ Serves supply 1
  suffixSplit (hs : n.start < k) (he : n.stop = k + ps.bytes)
    (hr : ∀ q, ¬ RightOf S (k + ps.bytes) (VM_PROT_PROMOTE n.flags) q) : rootStays ∧ Serves supply 1
  keep (hs : n.start = k) (he : n.stop = k + ps.bytes)
    (hl : ∀ p, ¬ LeftOf S k (VM_PROT_PROMOTE n.flags) p)
    (hr : ∀ q, ¬ MergesOn S n q) : rootStays
  prev (hs : n.start = k) (he : n.stop = k + ps.bytes) : ¬ ReadsNull S n

/-! ### Sets of pages -/

variable {ps : PageSize} {S R M : Finset Node} {n m p q r : Node} {k e a : ℕ} {f : BitVec 64}
  {new : List (Addr × BitVec 64)} {freed : List Addr}

theorem refill_refill {R' : Finset Node} (hn : n ∉ S) :
    (S \ R ∪ {n}) \ insert n R' ∪ M = S \ (R ∪ R') ∪ M := by
  ext b
  simp only [Finset.mem_union, Finset.mem_sdiff, Finset.mem_insert, Finset.mem_singleton]
  by_cases hb : b = n
  · subst hb
    simp [hn]
  · tauto

theorem mem_refill (hR : ∀ m ∈ R, m.start ≠ n.start) (hM : ∀ m ∈ M, m.start ≠ n.start) :
    n ∈ S \ R ∪ M ↔ n ∈ S := by
  rw [Finset.mem_union, Finset.mem_sdiff]
  refine ⟨fun h => ?_, fun h => Or.inl ⟨h, fun hn => hR n hn rfl⟩⟩
  rcases h with h | h
  · exact h.1
  · exact absurd rfl (hM n h)

theorem isPrev_refill (hR : ∀ m ∈ R, n.start ≤ m.start) (hM : ∀ m ∈ M, n.start ≤ m.start) :
    IsPrev (S \ R ∪ M) n p ↔ IsPrev S n p := by
  have hmem {b : Node} (hb : b.start < n.start) : b ∈ S \ R ∪ M ↔ b ∈ S :=
    mem_refill (fun m hm he => by have := hR m hm; omega) fun m hm he => by have := hM m hm; omega
  constructor
  · rintro ⟨hp, hlt, hmax⟩
    exact ⟨(hmem hlt).mp hp, hlt, fun m hm hmn => hmax m ((hmem hmn).mpr hm) hmn⟩
  · rintro ⟨hp, hlt, hmax⟩
    exact ⟨(hmem hlt).mpr hp, hlt, fun m hm hmn => hmax m ((hmem hmn).mp hm) hmn⟩

theorem leftOf_refill (hR : ∀ n ∈ R, n.stop ≠ k) (hM : ∀ n ∈ M, n.stop ≠ k) :
    LeftOf (S \ R ∪ M) k f p ↔ LeftOf S k f p := by
  simp only [LeftOf, Finset.mem_union, Finset.mem_sdiff]
  constructor
  · rintro ⟨hp | hp, he, hf⟩
    · exact ⟨hp.1, he, hf⟩
    · exact absurd he (hM p hp)
  · rintro ⟨hp, he, hf⟩
    exact ⟨Or.inl ⟨hp, fun hR' => hR p hR' he⟩, he, hf⟩

theorem rightOf_refill (hR : ∀ n ∈ R, n.start ≠ e) (hM : ∀ n ∈ M, n.start ≠ e) :
    RightOf (S \ R ∪ M) e f q ↔ RightOf S e f q := by
  simp only [RightOf, Finset.mem_union, Finset.mem_sdiff]
  constructor
  · rintro ⟨hq | hq, hs, hf⟩
    · exact ⟨hq.1, hs, hf⟩
    · exact absurd hs (hM q hq)
  · rintro ⟨hq, hs, hf⟩
    exact ⟨Or.inl ⟨hq, fun hR' => hR q hR' hs⟩, hs, hf⟩

theorem PageSize.bytes_pos (ps : PageSize) : 0 < ps.bytes := Nat.two_pow_pos _

theorem PageSize.after_eq (h : k + ps.bytes < 2 ^ 64) : ps.after k = k + ps.bytes :=
  Nat.mod_eq_of_lt h

namespace RangesOk

theorem apart (h : RangesOk S) : Apart Node.start Node.stop (S : Set Node) := by
  refine ⟨h.nonempty, fun a ha b hb hne => ?_⟩
  have h1 := h.nonempty a ha
  have h2 := h.nonempty b hb
  have h3 := h.disjoint a ha b hb hne (max a.start b.start)
  unfold Node.Covers at h3
  omega

theorem of_apart (h : Apart Node.start Node.stop (S : Set Node)) : RangesOk S :=
  ⟨h.nonempty, fun _ ha _ hb hne _ hk => hne (h.eq_of_covers ha hb hk.1 hk.2)⟩

theorem order (h : RangesOk S) (hn : n ∈ S) (hm : m ∈ S) (hne : n ≠ m) :
    n.stop ≤ m.start ∨ m.stop ≤ n.start :=
  h.apart.apart n hn m hm hne

theorem ne_of_le (h : RangesOk S) (hn : n ∈ S) (hle : n.stop ≤ m.start) : n ≠ m := by
  rintro rfl
  have := h.nonempty n hn
  omega

theorem isPrev (h : RangesOk S) (hp : p ∈ S) (he : p.stop = n.start) : IsPrev S n p := by
  have h1 := h.nonempty p hp
  refine ⟨hp, by omega, fun m hm hlt => ?_⟩
  have h2 := h.nonempty m hm
  by_cases hmp : m = p
  · rw [hmp]
  · have := h.order hm hp hmp
    omega

theorem isNext (h : RangesOk S) (hn : n ∈ S) (hq : q ∈ S) (he : q.start = n.stop) :
    IsNext S n q := by
  have h1 := h.nonempty n hn
  refine ⟨hq, by omega, fun m hm hlt => ?_⟩
  have hne : n ≠ m := fun hh => by rw [hh] at hlt; omega
  have := h.order hn hm hne
  have := h.nonempty m hm
  omega

theorem singleton (hlt : n.start < n.stop) : RangesOk {n} := by
  refine ⟨fun m hm => ?_, fun a ha b hb hne => ?_⟩
  · rw [Finset.mem_singleton.mp hm]
    exact hlt
  · exact absurd ((Finset.mem_singleton.mp ha).trans (Finset.mem_singleton.mp hb).symm) hne

/-- Ranges from `lo` to `hi` take the place of the nodes that lie there. -/
theorem refill (h : RangesOk S) (lo hi : ℕ) (hM : RangesOk M)
    (hin : ∀ m ∈ M, lo ≤ m.start ∧ m.stop ≤ hi)
    (hout : ∀ n ∈ S, n ∉ R → n.stop ≤ lo ∨ hi ≤ n.start) : RangesOk (S \ R ∪ M) := by
  refine of_apart ?_
  rw [Finset.coe_union, Finset.coe_sdiff]
  exact h.apart.replace hM.apart hin hout

/-- What a prefix merge of `n` into `p` leaves to be seen from the merged node. -/
theorem mergeLeft (h : RangesOk S) (hn : n ∈ S) (hp : p ∈ S) (he : p.stop = n.start) {p' : Node}
    (hp' : p' = { p with stop := n.stop }) :
    RangesOk (S \ {n, p} ∪ {p'}) ∧ (∀ q, q.start = n.stop → (q ∈ S \ {n, p} ∪ {p'} ↔ q ∈ S)) ∧
      (∀ q, MergesOn (S \ {n, p} ∪ {p'}) p' q ↔ MergesOn S p' q) ∧
      (IsFirst (S \ {n, p} ∪ {p'}) p' ↔ IsFirst S p) := by
  have hpn := h.nonempty p hp
  have hlt := h.nonempty n hn
  have hs : p'.start = p.start := by rw [hp']
  have hafter {q : Node} (hq : q.start = n.stop) : q ∈ S \ {n, p} ∪ {p'} ↔ q ∈ S :=
    mem_refill (by simp; omega) (by simp [hs]; omega)
  have hprev {b : Node} : IsPrev (S \ {n, p} ∪ {p'}) p' b ↔ IsPrev S p' b :=
    isPrev_refill (by simp [hs]; omega) (by simp)
  refine ⟨?_, fun q => hafter, fun q => ?_, fun hmin b hb => ?_, fun hmin b hb => ?_⟩
  · refine h.refill p.start n.stop (.singleton (by simp only [hp']; omega)) (by simp [hp'])
      fun b hb hbR => ?_
    simp only [Finset.mem_insert, Finset.mem_singleton, not_or] at hbR
    have := h.order hb hn hbR.1
    have := h.order hb hp hbR.2
    have := h.nonempty b hb
    omega
  · have hstop : p'.stop = n.stop := by rw [hp']
    unfold MergesOn
    simp only [hprev, hstop]
    exact ⟨fun ⟨hq, hqs, hb⟩ => ⟨(hafter hqs).mp hq, hqs, hb⟩,
      fun ⟨hq, hqs, hb⟩ => ⟨(hafter hqs).mpr hq, hqs, hb⟩⟩
  · by_contra hlt
    have := hmin b ((mem_refill (by simp; omega) (by simp [hs]; omega)).mpr hb)
    omega
  · rcases Finset.mem_union.mp hb with hb | hb
    · exact hs ▸ hmin b (Finset.mem_sdiff.mp hb).1
    · rw [Finset.mem_singleton.mp hb]

end RangesOk

namespace PagesOk

theorem ranges (h : PagesOk ps S) : RangesOk S := ⟨h.nonempty, h.disjoint⟩

theorem apart (h : PagesOk ps S) : Apart Node.start Node.stop (S : Set Node) := h.ranges.apart

theorem of_apart (hp : ∀ n ∈ S, ps.bytes ∣ n.start ∧ ps.bytes ∣ n.stop)
    (hb : ∀ n ∈ S, n.stop < 2 ^ 64)
    (h : Apart Node.start Node.stop (S : Set Node)) : PagesOk ps S :=
  ⟨hp, h.nonempty, hb, (RangesOk.of_apart h).disjoint⟩

theorem order (h : PagesOk ps S) (hn : n ∈ S) (hm : m ∈ S) (hne : n ≠ m) :
    n.stop ≤ m.start ∨ m.stop ≤ n.start :=
  h.ranges.order hn hm hne

/-- A node that covers the start of a page covers the page. -/
theorem page_le (h : PagesOk ps S) (hn : n ∈ S) (hk : ps.bytes ∣ k) (hc : n.Covers k) :
    k + ps.bytes ≤ n.stop := by
  obtain ⟨c, hc'⟩ := hk
  obtain ⟨d, hd⟩ := (h.pages n hn).2
  have hlt : k < n.stop := hc.2
  rw [hc', hd] at hlt ⊢
  rw [← Nat.mul_succ]
  exact Nat.mul_le_mul_left _ (Nat.lt_of_mul_lt_mul_left hlt)

theorem page_apart (h : PagesOk ps S) (hn : n ∈ S) (hk : ps.bytes ∣ k) (hc : ¬ n.Covers k) :
    n.stop ≤ k ∨ k + ps.bytes ≤ n.start := by
  unfold Node.Covers at hc
  by_cases hks : n.start ≤ k
  · omega
  · obtain ⟨c, hc'⟩ := hk
    obtain ⟨d, hd⟩ := (h.pages n hn).1
    have hlt : k < n.start := by omega
    refine Or.inr ?_
    rw [hc', hd] at hlt ⊢
    rw [← Nat.mul_succ]
    exact Nat.mul_le_mul_left _ (Nat.lt_of_mul_lt_mul_left hlt)

/-- Whole pages from `lo` to `hi` take the place of the nodes that lie there. -/
theorem refill (h : PagesOk ps S) (lo hi : ℕ) (hM : PagesOk ps M)
    (hin : ∀ m ∈ M, lo ≤ m.start ∧ m.stop ≤ hi)
    (hout : ∀ n ∈ S, n ∉ R → n.stop ≤ lo ∨ hi ≤ n.start) : PagesOk ps (S \ R ∪ M) := by
  have hmem {n : Node} (hn : n ∈ S \ R ∪ M) : n ∈ S ∨ n ∈ M := by
    rcases Finset.mem_union.mp hn with hn | hn
    · exact Or.inl (Finset.mem_sdiff.mp hn).1
    · exact Or.inr hn
  refine of_apart (fun n hn => (hmem hn).elim (h.pages n) (hM.pages n))
    (fun n hn => (hmem hn).elim (h.bounded n) (hM.bounded n)) ?_
  rw [Finset.coe_union, Finset.coe_sdiff]
  exact h.apart.replace hM.apart hin hout

theorem singleton (hs : ps.bytes ∣ n.start) (he : ps.bytes ∣ n.stop) (hlt : n.start < n.stop)
    (hb : n.stop < 2 ^ 64) :
    PagesOk ps {n} := by
  refine ⟨fun m hm => ?_, (RangesOk.singleton hlt).nonempty, fun m hm => ?_,
    (RangesOk.singleton hlt).disjoint⟩
  · rw [Finset.mem_singleton.mp hm]
    exact ⟨hs, he⟩
  · rw [Finset.mem_singleton.mp hm]
    exact hb

end PagesOk

end OpenOOC
