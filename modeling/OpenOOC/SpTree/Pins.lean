import OpenOOC.SpTree.Covered
import OpenOOC.SpTree.Uncovered

/-! A struct that was returned for an address, and a call for another page: when the
struct is still in the tree and still covers the address. -/

namespace OpenOOC

variable {ps : PageSize} {S R M : Finset Node} {n m p q x : Node} {k a : ℕ} {z : Addr}
  {new : List (Addr × BitVec 64)}
  {freed : List Addr}

def Stays (S : Finset Node) (n : Node) (a : ℕ) : Prop := ∃ m ∈ S, m.addr = n.addr ∧ m.Covers a

/-- The call for the page at `k` takes the address `a` away from the node `n`: the page
joins `n` with the node after it, it is cut out of `n`, or it is promoted and `n` is
merged. -/
inductive Disturbs (ps : PageSize) (S : Finset Node) (k : ℕ) (n : Node) (a : ℕ) : Prop
  | joined {q : Node} (hno : ∀ m ∈ S, ¬ m.Covers k) (hl : LeftOf S k VM_PROT_READ n)
    (hr : RightOf S (k + ps.bytes) VM_PROT_READ q)
  | cut (hs : n.start < k) (he : k + ps.bytes < n.stop) (ha : k ≤ a)
  | first (hs : n.start = k) (he : k + ps.bytes < n.stop) (ha : a < k + ps.bytes)
  | last (hs : n.start < k) (he : n.stop = k + ps.bytes) (ha : k ≤ a)
  | merged (hs : n.start = k) (he : n.stop = k + ps.bytes)
      (h : (∃ p, LeftOf S k (VM_PROT_PROMOTE n.flags) p) ∨ ∃ q, MergesOn S n q)
  | mergedPrev {m q : Node} (hm : m ∈ S) (hs : m.start = k) (he : m.stop = k + ps.bytes)
      (hl : LeftOf S k (VM_PROT_PROMOTE m.flags) n) (hr : MergesOn S { n with stop := m.stop } q)

structure Structs (S : Finset Node) (new : List (Addr × BitVec 64)) : Prop where
  addr : ∀ n ∈ S, ∀ m ∈ S, n.addr = m.addr → n = m
  fresh : ∀ u ∈ new, ∀ n ∈ S, n.addr ≠ u.1

theorem Structs.stays_iff (hs : Structs S new) (hn : n ∈ S) (hc : n.Covers a) :
    Stays (S \ R ∪ M) n a ↔ n ∉ R ∨ ∃ m ∈ M, m.addr = n.addr ∧ m.Covers a := by
  constructor
  · rintro ⟨m, hm, he, hmc⟩
    rcases Finset.mem_union.mp hm with hm | hm
    · obtain ⟨hmS, hmR⟩ := Finset.mem_sdiff.mp hm
      exact Or.inl (hs.addr m hmS n hn he ▸ hmR)
    · exact Or.inr ⟨m, hm, he, hmc⟩
  · rintro (h | ⟨m, hm, he, hmc⟩)
    · exact ⟨n, Finset.mem_union_left _ (Finset.mem_sdiff.mpr ⟨hn, h⟩), rfl, hc⟩
    · exact ⟨m, Finset.mem_union_right _ hm, he, hmc⟩

/-- Where no node covers the page, only a node before it can be disturbed. -/
theorem disturbs_uncovered (hno : ∀ m ∈ S, ¬ m.Covers k) (hn : n ∈ S) :
    Disturbs ps S k n a ↔ LeftOf S k VM_PROT_READ n ∧ ∃ q,
      RightOf S (k + ps.bytes) VM_PROT_READ q := by
  have hpos := ps.bytes_pos
  constructor
  · intro h
    cases h with
    | joined _ hl hr => exact ⟨hl, _, hr⟩
    | cut hs he _ => exact absurd ⟨hs.le, by omega⟩ (hno n hn)
    | first hs he _ => exact absurd ⟨hs.le, by omega⟩ (hno n hn)
    | last hs he _ => exact absurd ⟨hs.le, by omega⟩ (hno n hn)
    | merged hs he _ => exact absurd ⟨hs.le, by omega⟩ (hno n hn)
    | mergedPrev hm hs he _ _ => exact absurd ⟨hs.le, by omega⟩ (hno _ hm)
  · rintro ⟨hl, q, hr⟩
    exact .joined hno hl hr

namespace PagesOk

theorem disturbs_many (hp : PagesOk ps S) (hm : m ∈ S) (hs : m.start ≤ k)
    (he : k + ps.bytes ≤ m.stop)
    (hmany : m.start < k ∨ k + ps.bytes < m.stop) (hn : n ∈ S) :
    Disturbs ps S k n a ↔ n = m ∧ (m.start < k ∧ k ≤ a ∨ m.start = k ∧ a < k + ps.bytes) := by
  have hpos := ps.bytes_pos
  have hmc : m.Covers k := ⟨hs, by omega⟩
  have heq {b : Node} (hb : b ∈ S) (h1 : b.start ≤ k) (h2 : k < b.stop) : b = m := by
    by_contra hne
    exact hp.disjoint b hb m hm hne k ⟨⟨h1, h2⟩, hmc⟩
  constructor
  · intro h
    cases h with
    | joined hno _ _ => exact absurd hmc (hno m hm)
    | cut hs' he' ha =>
      obtain rfl := heq hn hs'.le (by omega)
      exact ⟨rfl, Or.inl ⟨hs', ha⟩⟩
    | first hs' he' ha =>
      obtain rfl := heq hn hs'.le (by omega)
      exact ⟨rfl, Or.inr ⟨hs', ha⟩⟩
    | last hs' he' ha =>
      obtain rfl := heq hn hs'.le (by omega)
      exact ⟨rfl, Or.inl ⟨hs', ha⟩⟩
    | merged hs' he' _ =>
      obtain rfl := heq hn hs'.le (by omega)
      omega
    | mergedPrev hb hs' he' _ _ =>
      obtain rfl := heq hb hs'.le (by omega)
      omega
  · rintro ⟨rfl, ⟨h1, h2⟩ | ⟨h1, h2⟩⟩
    · rcases Nat.lt_or_eq_of_le he with he | he
      · exact .cut h1 he h2
      · exact .last h1 he.symm h2
    · exact .first h1 (by omega) h2

theorem disturbs_single (hp : PagesOk ps S) (hm : m ∈ S) (hs : m.start = k)
    (he : m.stop = k + ps.bytes) (hn : n ∈ S) :
    Disturbs ps S k n a ↔ n = m ∧
    ((∃ p, LeftOf S k (VM_PROT_PROMOTE m.flags) p) ∨ ∃ q, MergesOn S m q) ∨
      LeftOf S k (VM_PROT_PROMOTE m.flags) n ∧ ∃ q, MergesOn S { n with stop := m.stop } q := by
  have hpos := ps.bytes_pos
  have hmc : m.Covers k := ⟨hs.le, by omega⟩
  have heq {b : Node} (hb : b ∈ S) (h1 : b.start ≤ k) (h2 : k < b.stop) : b = m := by
    by_contra hne
    exact hp.disjoint b hb m hm hne k ⟨⟨h1, h2⟩, hmc⟩
  constructor
  · intro h
    cases h with
    | joined hno _ _ => exact absurd hmc (hno m hm)
    | cut hs' he' ha =>
      obtain rfl := heq hn hs'.le (by omega)
      omega
    | first hs' he' ha =>
      obtain rfl := heq hn hs'.le (by omega)
      omega
    | last hs' he' ha =>
      obtain rfl := heq hn hs'.le (by omega)
      omega
    | merged hs' he' h =>
      obtain rfl := heq hn hs'.le (by omega)
      exact Or.inl ⟨rfl, h⟩
    | mergedPrev hb hs' he' hl hr =>
      obtain rfl := heq hb hs'.le (by omega)
      exact Or.inr ⟨hl, _, hr⟩
  · rintro (⟨rfl, h⟩ | ⟨hl, q, hr⟩)
    · exact .merged hs he h
    · exact .mergedPrev hm hs he hl hr

end PagesOk

/-! ### The steps -/

section

variable {s : BitVec 64}

theorem AddStep.stays_iff (h : AddStep k (k + ps.bytes) S z R M x freed) (hp : PagesOk ps S)
    (hno : ∀ m ∈ S, ¬ m.Covers k)
    (hst : Structs S [(z, s)]) (hn : n ∈ S) (hc : n.Covers a) : Stays (S \ R ∪ M) n a ↔
    ¬ Disturbs ps S k n a := by
  have hpos := ps.bytes_pos
  have hne := hp.nonempty
  rw [hst.stays_iff hn hc, disturbs_uncovered hno hn]
  have hns := hc.1
  have hnt := hc.2
  cases h with
  | alone hl hr => exact iff_of_true (Or.inl (Finset.notMem_empty _)) fun h => hl n h.1
  | @left p hl hr =>
    have hpe := hl.2.1
    refine iff_of_true ?_ fun h => hr _ h.2.choose_spec
    by_cases hnp : n = p
    · subst hnp
      exact Or.inr ⟨_, Finset.mem_singleton_self _, rfl, hns, show a < k + ps.bytes by omega⟩
    · exact Or.inl (mt Finset.mem_singleton.mp hnp)
  | @right q hl hr =>
    have hqs := hr.2.1
    refine iff_of_true ?_ fun h => hl n h.1
    by_cases hnq : n = q
    · subst hnq
      exact Or.inr ⟨_, Finset.mem_singleton_self _, rfl, show k ≤ a by omega, hnt⟩
    · exact Or.inl (mt Finset.mem_singleton.mp hnq)
  | @both p q hl hr =>
    have hpe := hl.2.1
    have hqs := hr.2.1
    have h1 := hne p hl.1
    have h2 := hne q hr.1
    by_cases hnp : n = p
    · subst hnp
      refine iff_of_false ?_ (not_not.mpr ⟨hl, q, hr⟩)
      rintro (h | ⟨m, hm, he, -⟩)
      · exact h (Finset.mem_insert_self _ _)
      · rw [Finset.mem_singleton.mp hm] at he
        -- the node that is left is the one after the page
        rw [hst.addr q hr.1 n hn he] at hqs
        omega
    · refine iff_of_true ?_ fun h => hnp (hp.apart.eq_of_stop hn hl.1 (h.1.2.1.trans hpe.symm))
      by_cases hnq : n = q
      · subst hnq
        exact Or.inr ⟨_, Finset.mem_singleton_self _, rfl, show p.start ≤ a by omega, hnt⟩
      · refine Or.inl fun h => ?_
        rcases Finset.mem_insert.mp h with h | h
        · exact hnp h
        · exact hnq (Finset.mem_singleton.mp h)

theorem SplitStep.stays_iff (h : SplitStep k (k + ps.bytes) S m new R M x) (hp : PagesOk ps S)
    (hm : m ∈ S)
    (hst : Structs S new) (hn : n ∈ S) (hc : n.Covers a) : Stays (S \ R ∪ M) n a ↔
    ¬ Disturbs ps S k n a := by
  have hpos := ps.bytes_pos
  have hne := hp.nonempty
  obtain ⟨hs, he, -⟩ := h.page_in
  have hns := hc.1
  have hnt := hc.2
  have hmany : m.start < k ∨ k + ps.bytes < m.stop := by
    cases h <;> omega
  rw [hst.stays_iff hn hc, hp.disturbs_many hm hs he hmany hn]
  -- a node that goes comes back under its address, with another range
  have hself {b : Node} (hb : b ∈ S) : b.addr = n.addr ↔ n = b :=
    ⟨fun h => (hst.addr b hb n hn h).symm, fun h => by rw [h]⟩
  have hnew {u : Addr × BitVec 64} (hu : u ∈ new) : u.1 ≠ n.addr :=
    fun h => hst.fresh u hu n hn h.symm
  have hkeep {P : Prop} (hnm : n ≠ m) : ¬ (n = m ∧ P) := fun h => hnm h.1
  cases h with
  | @mid z t s s' hs' he' =>
    have hz := hnew (u := (z, s)) (by simp)
    have ht := hnew (u := (t, s')) (by simp)
    simp only [Finset.mem_singleton, Finset.mem_insert, exists_eq_or_imp, exists_eq_left,
      Node.Covers, hself hm, hz, ht, false_and,
      or_false]
    by_cases hnm : n = m
    · subst hnm
      simp
      omega
    · exact iff_of_true (Or.inl hnm) (hkeep hnm)
  | @prefixMigrate p hs' he' hl =>
    have hpe := hl.2.1
    have h1 := hne p hl.1
    simp only [Finset.mem_singleton, Finset.mem_insert, exists_eq_or_imp, exists_eq_left,
      Node.Covers, hself hm, hself hl.1, not_or]
    by_cases hnm : n = m
    · subst hnm
      have hnp : n ≠ p := fun h => by rw [h] at hs'; omega
      simp [hnp]
      omega
    · refine iff_of_true ?_ (hkeep hnm)
      by_cases hnp : n = p
      · subst hnp
        exact Or.inr (Or.inl ⟨rfl, hns, by omega⟩)
      · exact Or.inl ⟨hnp, hnm⟩
  | @prefixSplit z s hs' he' hl =>
    have hz := hnew (u := (z, s)) (by simp)
    simp only [Finset.mem_singleton, Finset.mem_insert, exists_eq_or_imp, exists_eq_left,
      Node.Covers, hself hm, hz, false_and,
      false_or]
    by_cases hnm : n = m
    · subst hnm
      simp
      omega
    · exact iff_of_true (Or.inl hnm) (hkeep hnm)
  | @suffixMigrate q hs' he' hr =>
    have hqs := hr.2.1
    have h1 := hne q hr.1
    simp only [Finset.mem_singleton, Finset.mem_insert, exists_eq_or_imp, exists_eq_left,
      Node.Covers, hself hm, hself hr.1, not_or]
    by_cases hnm : n = m
    · subst hnm
      have hnq : n ≠ q := fun h => by rw [h] at he'; omega
      simp [hnq]
      omega
    · refine iff_of_true ?_ (hkeep hnm)
      by_cases hnq : n = q
      · subst hnq
        exact Or.inr (Or.inr ⟨rfl, by omega, hnt⟩)
      · exact Or.inl ⟨hnm, hnq⟩
  | @suffixSplit z s hs' he' hr =>
    have hz := hnew (u := (z, s)) (by simp)
    simp only [Finset.mem_singleton, Finset.mem_insert, exists_eq_or_imp, exists_eq_left,
      Node.Covers, hself hm, hz, false_and,
      or_false]
    by_cases hnm : n = m
    · subst hnm
      simp
      omega
    · exact iff_of_true (Or.inl hnm) (hkeep hnm)

theorem MergeStep.stays_iff (h : MergeStep S m R M x freed) (hp : PagesOk ps S) (hm : m ∈ S)
    (hs : m.start = k)
    (he : m.stop = k + ps.bytes) (hst : Structs S new) (hn : n ∈ S) (hc : n.Covers a) :
    Stays (S \ R ∪ M) n a ↔ ¬ Disturbs ps S k n a := by
  have hpos := ps.bytes_pos
  have hne := hp.nonempty
  have hns := hc.1
  have hnt := hc.2
  rw [hst.stays_iff hn hc, hp.disturbs_single hm hs he hn]
  have hself {b : Node} (hb : b ∈ S) : b.addr = n.addr ↔ n = b :=
    ⟨fun h => (hst.addr b hb n hn h).symm, fun h => by rw [h]⟩
  have hleft {p b : Node} (hl : LeftOf S k (VM_PROT_PROMOTE m.flags) p)
      (hb : LeftOf S k (VM_PROT_PROMOTE m.flags) b) : b = p :=
    hp.apart.eq_of_stop hb.1 hl.1 (hb.2.1.trans hl.2.1.symm)
  cases h with
  | keep hl hr =>
    rw [hs] at hl
    refine iff_of_true (Or.inl (Finset.notMem_empty _)) ?_
    rintro (⟨-, ⟨p, hp⟩ | ⟨q, hq⟩⟩ | ⟨h, -⟩)
    · exact hl p hp
    · exact hr q hq
    · exact hl n h
  | @left p hl hr =>
    rw [hs] at hl
    have hpe := hl.2.1
    have h1 := hne p hl.1
    simp only [Finset.mem_singleton, Finset.mem_insert, exists_eq_left, Node.Covers, hself hl.1]
    by_cases hnm : n = m
    · subst hnm
      have hnp : n ≠ p := fun h => by rw [h] at hs; omega
      refine iff_of_false ?_ (not_not.mpr (Or.inl ⟨rfl, Or.inl ⟨p, hl⟩⟩))
      rintro (h | h)
      · exact h (Or.inl rfl)
      · exact hnp h.1
    · refine iff_of_true ?_ ?_
      · by_cases hnp : n = p
        · subst hnp
          exact Or.inr ⟨rfl, hns, by omega⟩
        · exact Or.inl fun h => h.elim hnm hnp
      · rintro (⟨h, -⟩ | ⟨h, q, hq⟩)
        · exact hnm h
        · obtain rfl := hleft hl h
          exact hr q hq
  | @right q hl hr =>
    rw [hs] at hl
    have hqs := hr.2.1
    have h1 := hne q hr.1
    simp only [Finset.mem_singleton, Finset.mem_insert, exists_eq_left, Node.Covers, hself hr.1]
    by_cases hnm : n = m
    · subst hnm
      have hnq : n ≠ q := fun h => by rw [h] at hqs; omega
      refine iff_of_false ?_ (not_not.mpr (Or.inl ⟨rfl, Or.inr ⟨q, hr⟩⟩))
      rintro (h | h)
      · exact h (Or.inl rfl)
      · exact hnq h.1
    · refine iff_of_true ?_ ?_
      · by_cases hnq : n = q
        · subst hnq
          exact Or.inr ⟨rfl, by omega, hnt⟩
        · exact Or.inl fun h => h.elim hnm hnq
      · rintro (⟨h, -⟩ | ⟨h, -⟩)
        · exact hnm h
        · exact hl n h
  | @both p q hl hr =>
    rw [hs] at hl
    have hpe := hl.2.1
    have hqs : q.start = m.stop := hr.2.1
    have h1 := hne p hl.1
    have h2 := hne q hr.1
    simp only [Finset.mem_singleton, Finset.mem_insert, exists_eq_left, Node.Covers, hself hr.1]
    by_cases hnm : n = m
    · subst hnm
      have hnq : n ≠ q := fun h => by rw [h] at hqs; omega
      refine iff_of_false ?_ (not_not.mpr (Or.inl ⟨rfl, Or.inl ⟨p, hl⟩⟩))
      rintro (h | h)
      · exact h (Or.inl rfl)
      · exact hnq h.1
    · by_cases hnp : n = p
      · subst hnp
        have hnq : n ≠ q := fun h => by rw [← h] at hqs; omega
        refine iff_of_false ?_ (not_not.mpr (Or.inr ⟨hl, q, hr⟩))
        rintro (h | h)
        · exact h (Or.inr (Or.inl rfl))
        · exact hnq h.1
      · refine iff_of_true ?_ ?_
        · by_cases hnq : n = q
          · subst hnq
            exact Or.inr ⟨rfl, by omega, hnt⟩
          · exact Or.inl fun h => h.elim hnm fun h => h.elim hnp hnq
        · rintro (⟨h, -⟩ | ⟨h, -⟩)
          · exact hnm h
          · exact hnp (hleft hl h)

/-- What a call leaves of a node, by what the tree was before. -/
theorem CallStep.stays_iff (h : CallStep ps k S new R M x freed) (hp : PagesOk ps S)
    (hst : Structs S new) (hn : n ∈ S)
    (hc : n.Covers a) : Stays (S \ R ∪ M) n a ↔ ¬ Disturbs ps S k n a := by
  cases h with
  | add hno h => exact h.stays_iff hp hno hst hn hc
  | split hm h => exact h.stays_iff hp hm hst hn hc
  | merge hm hs he h => exact h.stays_iff hp hm hs he hst hn hc

end

/-! ### The code -/

variable {h : Heap} {T : SplayTree.Tree Ref}

theorem structs_of_supplied {used : List (Addr × VmArea)} {rest : List (Option (Addr × VmArea))}
    (hh : Holds h S T) (hs : Supplied S (used.map some ++ rest)) :
    Structs S (used.map fun u => (u.1, u.2.vmFlags)) := by
  refine ⟨fun n hn m hm he => hh.linked.eq_of_ref hn hm (congrArg Ref.vma he), fun u hu n hn => ?_⟩
  obtain ⟨w, hw, rfl⟩ := List.mem_map.mp hu
  exact (hs.fresh w (List.mem_append_left _ (List.mem_map_of_mem hw))).2 n hn

/-- A call that can be served leaves a node of the tree with its struct and an address of
it covered, unless it disturbs it. -/
theorem find_mod_keeps_node_iff (hh : Holds h S T) (hp : PagesOk ps S) (hk : ps.bytes ∣ k)
    (hwrap : k + ps.bytes < 2 ^ 64)
    (hsup : Supplied S h.supply) (hsafe : ∀ m ∈ S, m.Covers k →
    Servable ps S m k (RootStays h k) h.supply)
    (hserves : (∀ m ∈ S, ¬ m.Covers k) → Serves h.supply 1) (hn : n ∈ S) (hc : n.Covers a) :
    ∃ h' S' T' y, spTreeFindMod ps h k = some (h', y) ∧ Holds h' S' T' ∧
      (Stays S' n a ↔ ¬ Disturbs ps S k n a) := by
  have hdone : CallDone ps h S k (spTreeFindMod ps h k) := by
    by_cases hcov : ∃ m ∈ S, m.Covers k
    · obtain ⟨m, hm, hmc⟩ := hcov
      exact hh.findMod_covered hp hk hm hmc hsup (hsafe m hm hmc)
    · have hno : ∀ m ∈ S, ¬ m.Covers k := fun m hm hmc => hcov ⟨m, hm, hmc⟩
      exact hh.findMod_uncovered hp hk hwrap hno hsup (hserves hno)
  obtain ⟨h', T', used, R, M, x, freed, he, hh', hstep, hused, -⟩ := hdone
  have hstructs := structs_of_supplied hh (hused ▸ hsup)
  exact ⟨h', _, T', _, he, hh', hstep.stays_iff hp hstructs hn hc⟩

/-- Pages 0 and 2 are in the tree: the call for page 1 frees the struct of page 0. -/
theorem find_mod_keeps_node_iff_joined : ∃ h' S' T' y,
    spTreeFindMod pages4096 (twoNodes ⟨72, VM_PROT_READ, 0, 4096⟩
      ⟨136, VM_PROT_READ, 8192, 12288⟩ [some (200, splayN), some (264, splayN)]) 4096 =
        some (h', y) ∧ Holds h' S' T' ∧
    ¬ Stays S' ⟨72, VM_PROT_READ, 0, 4096⟩ 0 := by
  have hno : ∀ m ∈ ({⟨72, VM_PROT_READ, 0, 4096⟩, ⟨136, VM_PROT_READ, 8192, 12288⟩} : Finset Node),
      ¬ m.Covers 4096 := by decide
  obtain ⟨h', S', T', y, he, hh', hiff⟩ :=
    find_mod_keeps_node_iff (k := 4096) (n := ⟨72, VM_PROT_READ, 0, 4096⟩) (a := 0)
    (twoNodes_holds (a := ⟨72, VM_PROT_READ, 0, 4096⟩) (b := ⟨136, VM_PROT_READ, 8192, 12288⟩)
      (by decide) (by decide) (by decide) (by decide))
    (show PagesOk pages4096 _ from pagesOk_two (by decide) (by decide) (by decide) (by decide)
    (by decide) (by decide)) (by decide) (by decide)
    (supplied_two rfl rfl) (fun m hm hmc => absurd hmc (hno m hm))
    (fun _ => ⟨[(200, splayN)], [some (264, splayN)], rfl, rfl⟩)
    (by decide) (by decide)
  refine ⟨h', S', T', y, he, hh', fun hst => hiff.mp hst ?_⟩
  exact .joined (q := ⟨136, VM_PROT_READ, 8192, 12288⟩) hno ⟨by decide, rfl, rfl⟩
    ⟨by decide, rfl, rfl⟩

end OpenOOC
