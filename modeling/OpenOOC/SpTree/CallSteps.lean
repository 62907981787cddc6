import OpenOOC.SpTree.Pages

/-! What a step of `sp_tree_find_mod_and_lock` means for the pages: they stay whole
and apart, and only the page of the call gets other flags, merges of a node of one
page apart. -/

namespace OpenOOC

open Ranges

variable {ps : PageSize} {S R M : Finset Node} {n p q x : Node} {k e lo hi a : ℕ} {f : BitVec 64}
  {z : Addr}
  {new : List (Addr × BitVec 64)} {freed : List Addr}

/-! ### Ranges that fill a gap -/

/-- Ranges that take the place from `lo` to `hi`. -/
structure Filled (M : Finset Node) (lo hi : ℕ) : Prop where
  ranges : RangesOk M
  fills : Fills Node.start Node.stop (M : Set Node) lo hi
  lt : lo < hi

namespace Filled

theorem single (hlt : n.start < n.stop) : Filled {n} n.start n.stop :=
  ⟨.singleton hlt, fun k => by simp [Ranges.Covers], hlt⟩

theorem cons (h : Filled M lo hi) (hn : Filled {n} n.start n.stop) (he : n.stop = lo) :
    Filled (insert n M) n.start hi := by
  have hin := h.ranges.apart.inside h.fills
  have hnn := hn.lt
  have hne {m : Node} (hm : m ∈ M) : n.stop ≤ m.start := he ▸ (hin m hm).1
  refine ⟨?_, by simpa using h.fills.cons hnn.le he h.lt.le, by have := h.lt; omega⟩
  have hmem {m : Node} (hm : m ∈ insert n M) : m ∈ ({n} : Finset Node) ∨ m ∈ M := by simpa using hm
  refine .of_apart ⟨fun m hm => (hmem (by simpa using hm)).elim (hn.ranges.nonempty m)
    (h.ranges.nonempty m), ?_⟩
  intro b hb c hc hbc
  rw [Finset.mem_coe, Finset.mem_insert] at hb hc
  rcases hb with rfl | hb <;> rcases hc with rfl | hc
  · exact absurd rfl hbc
  · exact Or.inl (hne hc)
  · exact Or.inr (hne hb)
  · exact h.ranges.order hb hc hbc

end Filled

namespace RangesOk

theorem filled (h : RangesOk S) (hn : n ∈ S) : Filled {n} n.start n.stop :=
  .single (h.nonempty n hn)

/-- Ranges that fill the gap left by others. -/
theorem exchange (h : RangesOk S) (hR : R ⊆ S) (hfR : Filled R lo hi) (hfM : Filled M lo hi) :
    RangesOk (S \ R ∪ M) ∧ ∀ a, (∃ n ∈ S \ R ∪ M, n.Covers a) ↔ ∃ n ∈ S, n.Covers a := by
  have hR' : (R : Set Node) ⊆ (S : Set Node) := Finset.coe_subset.mpr hR
  refine ⟨h.refill _ _ hfM.ranges (hfM.ranges.apart.inside hfM.fills)
    (h.apart.outside hR' hfR.fills hfR.lt), fun a => ?_⟩
  have := covers_replace hR' hfR.fills hfM.fills a
  rwa [← Finset.coe_sdiff, ← Finset.coe_union] at this

end RangesOk

theorem PagesOk.exchange (h : PagesOk ps S) (hr : RangesOk (S \ R ∪ M))
    (hM : ∀ m ∈ M, (ps.bytes ∣ m.start ∧ ps.bytes ∣ m.stop) ∧ m.stop < 2 ^ 64) :
    PagesOk ps (S \ R ∪ M) := by
  have hmem {m : Node} (hm : m ∈ S \ R ∪ M) : (ps.bytes ∣ m.start ∧ ps.bytes ∣ m.stop) ∧
      m.stop < 2 ^ 64 := by
    rcases Finset.mem_union.mp hm with hm | hm
    · have hmS := (Finset.mem_sdiff.mp hm).1
      exact ⟨h.pages m hmS, h.bounded m hmS⟩
    · exact hM m hm
  exact ⟨fun m hm => (hmem hm).1, hr.nonempty, fun m hm => (hmem hm).2, hr.disjoint⟩

/-! ### Splits -/

/-- The page is at an end of `n`, and no node with the promoted flags touches it there. -/
def SplitsOff (k e : ℕ) (S : Finset Node) (n : Node) : Prop :=
  (n.start = k ∧ e < n.stop ∧ ∀ p, ¬ LeftOf S k (VM_PROT_PROMOTE n.flags) p) ∨
    n.start < k ∧ n.stop = e ∧ ∀ q, ¬ RightOf S e (VM_PROT_PROMOTE n.flags) q

namespace SplitStep

theorem filled (h : SplitStep k e S n new R M x) (hp : RangesOk S) (hke : k < e) (hn : n ∈ S) :
    R ⊆ S ∧ (∃ lo hi, Filled R lo hi ∧ Filled M lo hi) ∧ x ∈ M ∧ x.Covers k := by
  have hlt := hp.nonempty n hn
  cases h with
  | @mid z y s s' hs he' =>
    have h1 : Filled {{ n with stop := k }} n.start k := .single (n := { n with stop := k }) hs
    have h2 : Filled {⟨z, VM_PROT_PROMOTE n.flags, k, e⟩} k e :=
      .single (n := ⟨z, VM_PROT_PROMOTE n.flags, k, e⟩) hke
    have h3 : Filled {⟨y, n.flags, e, n.stop⟩} e n.stop :=
      .single (n := ⟨y, n.flags, e, n.stop⟩) he'
    exact ⟨by simpa using hn, ⟨n.start, n.stop, hp.filled hn, (h3.cons h2 rfl).cons h1 rfl⟩,
      by simp, le_refl _, hke⟩
  | @prefixMigrate p hs he' hl =>
    obtain ⟨hpS, hpe, -⟩ := hl
    have hlt' := hp.nonempty p hpS
    have h1 : Filled {{ p with stop := e }} p.start e :=
      .single (n := { p with stop := e }) (by simp only; omega)
    have h2 : Filled {{ n with start := e }} e n.stop := .single (n := { n with start := e }) he'
    exact ⟨by simp [Finset.insert_subset_iff, hn, hpS],
      ⟨p.start, n.stop, (hp.filled hn).cons (hp.filled hpS) (by omega), h2.cons h1 rfl⟩,
      by simp, by simp only; omega, hke⟩
  | @prefixSplit z s hs he' hl =>
    subst hs
    have h1 : Filled {⟨z, s, n.start, e⟩} n.start e := .single (n := ⟨z, s, n.start, e⟩) hke
    have h2 : Filled {{ n with start := e }} e n.stop := .single (n := { n with start := e }) he'
    exact ⟨by simpa using hn, ⟨n.start, n.stop, hp.filled hn, h2.cons h1 rfl⟩,
      by simp, le_refl _, hke⟩
  | @suffixMigrate q hs he' hr =>
    obtain ⟨hqS, hqs, -⟩ := hr
    have hlt' := hp.nonempty q hqS
    have h1 : Filled {{ n with stop := k }} n.start k := .single (n := { n with stop := k }) hs
    have h2 : Filled {{ q with start := k }} k q.stop :=
      .single (n := { q with start := k }) (by simp only; omega)
    exact ⟨by simp [Finset.insert_subset_iff, hn, hqS],
      ⟨n.start, q.stop, (hp.filled hqS).cons (hp.filled hn) (by omega), h2.cons h1 rfl⟩,
      by simp, le_refl _, by simp only; omega⟩
  | @suffixSplit z s hs he' hr =>
    have h1 : Filled {{ n with stop := k }} n.start k := .single (n := { n with stop := k }) hs
    have h2 : Filled {⟨z, s, k, e⟩} k e := .single (n := ⟨z, s, k, e⟩) hke
    exact ⟨by simpa using hn, ⟨n.start, n.stop, hp.filled hn, he' ▸ h2.cons h1 rfl⟩,
      by simp, le_refl _, hke⟩

theorem pages (h : SplitStep k e S n new R M x) (hp : PagesOk ps S) (hk : ps.bytes ∣ k)
    (he : ps.bytes ∣ e) (hke : k < e)
    (hn : n ∈ S) (m : Node) (hm : m ∈ M) : (ps.bytes ∣ m.start ∧ ps.bytes ∣ m.stop) ∧
    m.stop < 2 ^ 64 := by
  obtain ⟨hns, hne⟩ := hp.pages n hn
  have hb := hp.bounded n hn
  cases h with
  | mid hs he' =>
    simp only [Finset.mem_insert, Finset.mem_singleton] at hm
    rcases hm with rfl | rfl | rfl
    · exact ⟨⟨hns, hk⟩, by simp only; omega⟩
    · exact ⟨⟨hk, he⟩, by simp only; omega⟩
    · exact ⟨⟨he, hne⟩, hb⟩
  | prefixMigrate hs he' hl =>
    simp only [Finset.mem_insert, Finset.mem_singleton] at hm
    rcases hm with rfl | rfl
    · exact ⟨⟨(hp.pages _ hl.1).1, he⟩, by simp only; omega⟩
    · exact ⟨⟨he, hne⟩, hb⟩
  | prefixSplit hs he' hl =>
    simp only [Finset.mem_insert, Finset.mem_singleton] at hm
    rcases hm with rfl | rfl
    · exact ⟨⟨hk, he⟩, by simp only; omega⟩
    · exact ⟨⟨he, hne⟩, hb⟩
  | @suffixMigrate q hs he' hr =>
    simp only [Finset.mem_insert, Finset.mem_singleton] at hm
    rcases hm with rfl | rfl
    · exact ⟨⟨hns, hk⟩, by simp only; omega⟩
    · exact ⟨⟨hk, (hp.pages q hr.1).2⟩, hp.bounded q hr.1⟩
  | suffixSplit hs he' hr =>
    simp only [Finset.mem_insert, Finset.mem_singleton] at hm
    rcases hm with rfl | rfl
    · exact ⟨⟨hns, hk⟩, by simp only; omega⟩
    · exact ⟨⟨hk, he⟩, by simp only; omega⟩

theorem page_in (h : SplitStep k e S n new R M x) : n.start ≤ k ∧ e ≤ n.stop ∧ n ∈ R := by
  cases h with
  | mid hs he' => exact ⟨hs.le, he'.le, by simp⟩
  | prefixMigrate hs he' _ => exact ⟨hs.le, he'.le, by simp⟩
  | prefixSplit hs he' _ => exact ⟨hs.le, he'.le, by simp⟩
  | suffixMigrate hs he' _ => exact ⟨hs.le, he'.ge, by simp⟩
  | suffixSplit hs he' _ => exact ⟨hs.le, he'.ge, by simp⟩

theorem labelAt (h : SplitStep k e S n new R M x) (hp : PagesOk ps S) (hke : k < e) (hn : n ∈ S)
    (a : ℕ) (f : BitVec 64) :
    FlagsAt M a f ↔ if k ≤ a ∧ a < e then f = x.flags else FlagsAt R a f := by
  have hlt := hp.nonempty n hn
  cases h with
  | mid hs he' => simp [FlagsAt, Node.Covers]; grind
  | prefixMigrate hs he' hl =>
    obtain ⟨hpS, hpe, hpf⟩ := hl
    have := hp.nonempty _ hpS
    simp [FlagsAt, Node.Covers]; grind
  | prefixSplit hs he' hl => simp [FlagsAt, Node.Covers]; grind
  | suffixMigrate hs he' hr =>
    obtain ⟨hqS, hqs, hqf⟩ := hr
    have := hp.nonempty _ hqS
    simp [FlagsAt, Node.Covers]; grind
  | suffixSplit hs he' hr => simp [FlagsAt, Node.Covers]; grind

/-- The page gets the flags of the node that is returned. -/
theorem flagsAt (h : SplitStep k e S n new R M x) (hp : PagesOk ps S) (hke : k < e) (hn : n ∈ S)
    (hR : R ⊆ S) (a : ℕ)
    (f : BitVec 64) : FlagsAt (S \ R ∪ M) a f ↔ if k ≤ a ∧ a < e then f = x.flags
    else FlagsAt S a f := by
  obtain ⟨hnk, hen, hnR⟩ := h.page_in
  have := labelAt_replace (P := fun a => k ≤ a ∧ a < e) (Finset.coe_subset.mpr hR)
    (fun b hb hbR c hc hbc => ?_)
    (h.labelAt hp hke hn) a f
  · rwa [← Finset.coe_sdiff, ← Finset.coe_union] at this
  · exact hp.disjoint b hb n hn (fun hbn => hbR (hbn ▸ hnR)) c ⟨hbc, by omega, by omega⟩

/-- A call that splits the page off at an end takes the flags of the struct as they are. -/
theorem flags_of_splitsOff (h : SplitStep k e S n new R M x) (hoff : SplitsOff k e S n) :
    ∃ z, new = [(z, x.flags)] := by
  cases h with
  | mid hs he => rcases hoff with ⟨hs', -⟩ | ⟨-, he', -⟩ <;> omega
  | prefixMigrate hs he hl =>
    rcases hoff with ⟨-, -, hno⟩ | ⟨hs', -⟩
    · exact absurd hl (hno _)
    · omega
  | @prefixSplit z s hs he hl => exact ⟨z, rfl⟩
  | suffixMigrate hs he hr =>
    rcases hoff with ⟨hs', -⟩ | ⟨-, -, hno⟩
    · omega
    · exact absurd hr (hno _)
  | @suffixSplit z s hs he hr => exact ⟨z, rfl⟩

/-- The other calls promote the flags. -/
theorem flags_of_not_splitsOff (h : SplitStep k e S n new R M x) (hoff : ¬ SplitsOff k e S n) :
    x.flags = VM_PROT_PROMOTE n.flags := by
  cases h with
  | mid hs he => rfl
  | prefixMigrate hs he hl => exact hl.2.2
  | prefixSplit hs he hl => exact absurd (Or.inl ⟨hs, he, hl⟩) hoff
  | suffixMigrate hs he hr => exact hr.2.2
  | suffixSplit hs he hr => exact absurd (Or.inr ⟨hs, he, hr⟩) hoff

end SplitStep

/-! ### Merges of a node of one page -/

namespace MergeStep

theorem filled (h : MergeStep S n R M x freed) (hp : RangesOk S) (hn : n ∈ S) :
    R ⊆ S ∧ (R = ∅ ∧ M = ∅ ∨ ∃ lo hi, Filled R lo hi ∧ Filled M lo hi) ∧ x ∈ S \ R ∪ M ∧
    x.Covers n.start := by
  have hlt := hp.nonempty n hn
  cases h with
  | keep hl hr => exact ⟨by simp, Or.inl ⟨rfl, rfl⟩, by simpa using hn, le_refl _, hlt⟩
  | @left p hl hr =>
    obtain ⟨hpS, hpe, -⟩ := hl
    have hlt' := hp.nonempty p hpS
    have h1 : Filled {{ p with stop := n.stop }} p.start n.stop :=
      .single (n := { p with stop := n.stop }) (by simp only; omega)
    exact ⟨by simp [Finset.insert_subset_iff, hn, hpS],
      Or.inr ⟨p.start, n.stop, Finset.pair_comm p n ▸ (hp.filled hn).cons (hp.filled hpS) hpe, h1⟩,
        by simp,
      by simp only; omega, by simp only; omega⟩
  | @right q hl hr =>
    obtain ⟨hqS, hqs, -⟩ := hr
    have hlt' := hp.nonempty q hqS
    have h1 : Filled {{ q with start := n.start }} n.start q.stop :=
      .single (n := { q with start := n.start }) (by simp only; omega)
    exact ⟨by simp [Finset.insert_subset_iff, hn, hqS],
      Or.inr ⟨n.start, q.stop, (hp.filled hqS).cons (hp.filled hn) hqs.symm, h1⟩, by simp,
      le_refl _, by simp only; omega⟩
  | @both p q hl hr =>
    obtain ⟨hpS, hpe, -⟩ := hl
    obtain ⟨hqS, hqs, -⟩ := hr
    have hqs : q.start = n.stop := hqs
    have hlt' := hp.nonempty p hpS
    have hlt2 := hp.nonempty q hqS
    have h1 : Filled {{ q with start := p.start }} p.start q.stop :=
      .single (n := { q with start := p.start }) (by simp only; omega)
    exact ⟨by simp [Finset.insert_subset_iff, hn, hpS, hqS],
      Or.inr ⟨p.start, q.stop, Finset.insert_comm p n {q} ▸
        ((hp.filled hqS).cons (hp.filled hn) hqs.symm).cons
        (hp.filled hpS) hpe, h1⟩, by simp, by simp only; omega, by simp only; omega⟩

theorem pages (h : MergeStep S n R M x freed) (hp : PagesOk ps S) (hn : n ∈ S) (m : Node)
    (hm : m ∈ M) :
    (ps.bytes ∣ m.start ∧ ps.bytes ∣ m.stop) ∧ m.stop < 2 ^ 64 := by
  cases h with
  | keep hl hr => simp at hm
  | left hl hr =>
    obtain rfl := Finset.mem_singleton.mp hm
    exact ⟨⟨(hp.pages _ hl.1).1, (hp.pages n hn).2⟩, hp.bounded n hn⟩
  | @right q hl hr =>
    obtain rfl := Finset.mem_singleton.mp hm
    exact ⟨⟨(hp.pages n hn).1, (hp.pages q hr.1).2⟩, hp.bounded q hr.1⟩
  | @both p q hl hr =>
    obtain rfl := Finset.mem_singleton.mp hm
    exact ⟨⟨(hp.pages p hl.1).1, (hp.pages q hr.1).2⟩, hp.bounded q hr.1⟩

end MergeStep

/-! ### New pages -/

namespace AddStep

/-- The nodes that come fill the gap and the page. -/
theorem pagesOk (h : AddStep k e S z R M x freed) (hp : PagesOk ps S) (hk : ps.bytes ∣ k)
    (he : e = k + ps.bytes)
    (hwrap : e < 2 ^ 64) (hno : ∀ n ∈ S, ¬ n.Covers k) :
    R ⊆ S ∧ PagesOk ps (S \ R ∪ M) ∧ x ∈ S \ R ∪ M ∧ x.Covers k ∧ x.flags = VM_PROT_READ := by
  have hpos := ps.bytes_pos
  have hke : ps.bytes ∣ e := he ▸ (Nat.dvd_add_right hk).mpr (dvd_refl _)
  have hout : ∀ n ∈ S, n.stop ≤ k ∨ e ≤ n.start := fun n hn => he ▸ hp.page_apart hn hk (hno n hn)
  cases h with
  | alone hl hr =>
    refine ⟨by simp, hp.refill k e (.singleton hk hke (by simp only; omega) hwrap) (by simp)
      fun n hn _ => hout n hn, by simp, ⟨le_refl _, by simp only; omega⟩, rfl⟩
  | @left p hl hr =>
    obtain ⟨hpS, hpe, hpf⟩ := hl
    have hlt := hp.nonempty p hpS
    refine ⟨by simpa using hpS, hp.refill p.start e (.singleton (hp.pages p hpS).1 hke
      (by simp only; omega) hwrap) (by simp) fun n hn hnR => ?_, by
        simp, ⟨by simp only; omega, by simp only; omega⟩, hpf⟩
    have := hout n hn
    have := hp.nonempty n hn
    have := hp.order hn hpS (by simpa using hnR)
    omega
  | @right q hl hr =>
    obtain ⟨hqS, hqs, hqf⟩ := hr
    have hlt := hp.nonempty q hqS
    refine ⟨by simpa using hqS, hp.refill k q.stop (.singleton hk (hp.pages q hqS).2
      (by simp only; omega) (hp.bounded q hqS)) (by simp) fun n hn hnR => ?_, by
        simp, ⟨le_refl _, by simp only; omega⟩, hqf⟩
    have := hout n hn
    have := hp.nonempty n hn
    have := hp.order hn hqS (by simpa using hnR)
    omega
  | @both p q hl hr =>
    obtain ⟨hpS, hpe, hpf⟩ := hl
    obtain ⟨hqS, hqs, hqf⟩ := hr
    have hlt := hp.nonempty q hqS
    have hlt' := hp.nonempty p hpS
    refine ⟨by simp [Finset.insert_subset_iff, hpS, hqS], hp.refill p.start q.stop
      (.singleton (hp.pages p hpS).1 (hp.pages q hqS).2 (by simp only; omega) (hp.bounded q hqS))
        (by simp)
      fun n hn hnR => ?_, by simp, ⟨by simp only; omega, by simp only; omega⟩, hqf⟩
    simp only [Finset.mem_insert, Finset.mem_singleton, not_or] at hnR
    have := hout n hn
    have := hp.nonempty n hn
    have := hp.order hn hpS hnR.1
    have := hp.order hn hqS hnR.2
    omega

theorem labelAt (h : AddStep k e S z R M x freed) (hp : PagesOk ps S) (hke : k < e) (a : ℕ)
    (f : BitVec 64) :
    FlagsAt M a f ↔ if k ≤ a ∧ a < e then f = VM_PROT_READ else FlagsAt R a f := by
  cases h with
  | alone hl hr => simp [FlagsAt, Node.Covers]; grind
  | left hl hr =>
    obtain ⟨hpS, hpe, hpf⟩ := hl
    have := hp.nonempty _ hpS
    simp [FlagsAt, Node.Covers]; grind
  | right hl hr =>
    obtain ⟨hqS, hqs, hqf⟩ := hr
    have := hp.nonempty _ hqS
    simp [FlagsAt, Node.Covers]; grind
  | both hl hr =>
    obtain ⟨hpS, hpe, hpf⟩ := hl
    obtain ⟨hqS, hqs, hqf⟩ := hr
    have := hp.nonempty _ hpS
    have := hp.nonempty _ hqS
    simp [FlagsAt, Node.Covers]; grind

/-- The page can be read, and the other pages are as before. -/
theorem flagsAt (h : AddStep k e S z R M x freed) (hp : PagesOk ps S) (hke : k < e) (hR : R ⊆ S)
    (hout : ∀ n ∈ S, n.stop ≤ k ∨ e ≤ n.start) (a : ℕ) (f : BitVec 64) :
    FlagsAt (S \ R ∪ M) a f ↔ if k ≤ a ∧ a < e then f = VM_PROT_READ else FlagsAt S a f := by
  have := labelAt_replace (P := fun a => k ≤ a ∧ a < e) (Finset.coe_subset.mpr hR)
    (fun b hb _ c hc hbc => ?_)
    (h.labelAt hp hke) a f
  · rwa [← Finset.coe_sdiff, ← Finset.coe_union] at this
  · have h1 := hout b hb
    have h2 : b.start ≤ c ∧ c < b.stop := hbc
    omega

end AddStep

/-! ### Calls -/

namespace CallStep

/-- A call for an address of a node leaves ranges that cover what was covered. -/
theorem ranges (h : CallStep ps k S new R M x freed) (hp : RangesOk S) (hn : n ∈ S)
    (hc : n.Covers k) :
    (R ⊆ S ∧ x ∈ S \ R ∪ M ∧ x.Covers k) ∧ RangesOk (S \ R ∪ M) ∧
      ∀ a, (∃ m ∈ S \ R ∪ M, m.Covers a) ↔ ∃ m ∈ S, m.Covers a := by
  cases h with
  | add hno h => exact absurd hc (hno n hn)
  | split hn h =>
    obtain ⟨hR, ⟨lo, hi, hfR, hfM⟩, hx, hc⟩ := h.filled hp (Nat.lt_add_of_pos_right ps.bytes_pos) hn
    exact ⟨⟨hR, Finset.mem_union_right _ hx, hc⟩, hp.exchange hR hfR hfM⟩
  | merge hn hs he h =>
    obtain ⟨hR, ⟨rfl, rfl⟩ | ⟨lo, hi, hfR, hfM⟩, hx, hc⟩ := h.filled hp hn
    · exact ⟨⟨hR, hx, hs ▸ hc⟩, by simpa using hp⟩
    · exact ⟨⟨hR, hx, hs ▸ hc⟩, hp.exchange hR hfR hfM⟩

/-- After a call the ranges are whole pages again, and the node returned is a live
node that covers the page. -/
theorem pagesOk (h : CallStep ps k S new R M x freed) (hp : PagesOk ps S) (hk : ps.bytes ∣ k)
    (hwrap : k + ps.bytes < 2 ^ 64) : R ⊆ S ∧ PagesOk ps (S \ R ∪ M) ∧ x ∈ S \ R ∪ M ∧
    x.Covers k := by
  have hpos := ps.bytes_pos
  cases h with
  | add hno h =>
    obtain ⟨hR, hp', hx, hc, -⟩ := h.pagesOk hp hk rfl hwrap hno
    exact ⟨hR, hp', hx, hc⟩
  | @split n _ _ _ _ hn h =>
    obtain ⟨hs, he, -⟩ := h.page_in
    obtain ⟨⟨hR, hx, hc⟩, hr, -⟩ := (split hn h).ranges hp.ranges hn ⟨hs, by omega⟩
    exact ⟨hR, hp.exchange hr
      (h.pages hp hk ((Nat.dvd_add_right hk).mpr (dvd_refl _)) (by omega) hn), hx, hc⟩
  | @merge n _ _ _ _ hn hs he h =>
    obtain ⟨⟨hR, hx, hc⟩, hr, -⟩ := (merge hn hs he h).ranges hp.ranges hn ⟨hs.le, by omega⟩
    exact ⟨hR, hp.exchange hr (h.pages hp hn), hx, hc⟩

end CallStep

end OpenOOC
