import OpenOOC.SpTree.Lost
import OpenOOC.SpTree.Uncovered

/-! What a caller of `S_sp_tree_splay` gets: the same structs in the same order,
no trace of the stack node, and at the root what a plain search for the address
meets last. -/

namespace OpenOOC

open SplayTree SplayTree.Tree

variable {h h' : Heap} {T T' : Tree Ref} {k : ℕ} {x : Ref}

/-- No link of the struct leads to the local variable `n`. -/
structure Heap.FreeOfStack (h : Heap) (x : Ref) : Prop where
  par : h.par x ≠ some .stack
  child : ∀ w, h.child w x ≠ some .stack
  next : h.next x ≠ some .stack
  prev : h.prev x ≠ some .stack

/-- `a` starts at `k`; where none of `L` does, it is next to the gap. -/
def Nearest (h : Heap) (L : List Ref) (k : ℕ) (a : Ref) : Prop :=
  h.start a = k ∨ (∀ x ∈ L, h.start x ≠ k) ∧
    (h.start a < k ∧ (∀ x ∈ L, h.start x < k → h.start x ≤ h.start a) ∨
      k < h.start a ∧ ∀ x ∈ L, k < h.start x → h.start a ≤ h.start x)

/-- The heap `h'` holds `T'`, splayed for `k` from the tree `T` of `h`. -/
structure Splayed (h : Heap) (T : Tree Ref) (k : ℕ) (h' : Heap) (T' : Tree Ref) : Prop where
  shape : Shape h' T'
  root_par : ∀ a, T'.root? = some a → h'.par a = none
  inorder : T'.toList = T.toList
  data : ∀ x, h'.data x = h.data x
  outside : ∀ x, x ∉ T.toList → h'.cell x = h.cell x
  freeOfStack : ∀ x, h'.FreeOfStack x
  searched : T'.root? = lastVisited (heapCmp h k) T
  nearest : ∀ a, T'.root? = some a → Nearest h T.toList k a

theorem Shape.par_mem (hs : Shape h T) (hx : x ∈ below T) : ∃ y ∈ T.toList, h.par x = some y := by
  induction T with
  | nil => simp [below] at hx
  | node l a r ihl ihr =>
    obtain ⟨-, -, -, hul, hur, hsl, hsr⟩ := hs
    have hside {t : Tree Ref} (hu : Up h a t) (ih : x ∈ below t → ∃ y ∈ t.toList, h.par x = some y)
        (ht : x ∈ t.toList) : h.par x = some a ∨ ∃ y ∈ t.toList, h.par x = some y := by
      by_cases hr : t.root? = some x
      · exact .inl (hu x hr)
      · apply Or.inr
        apply ih
        cases t with
        | nil => simp at ht
        | node tl b tr =>
          simp only [toList_node, List.mem_append, List.mem_cons] at ht
          simp only [root?_node, Option.some.injEq] at hr
          simp only [below, List.mem_append]
          tauto
    rcases List.mem_append.mp hx with hx | hx
    · rcases hside hul (ihl hsl) hx with hp | ⟨y, hy, hp⟩
      · exact ⟨a, by simp, hp⟩
      · exact ⟨y, by simp [hy], hp⟩
    · rcases hside hur (ihr hsr) hx with hp | ⟨y, hy, hp⟩
      · exact ⟨a, by simp, hp⟩
      · exact ⟨y, by simp [hy], hp⟩

/-- The links of a tree's structs stay in the tree. -/
theorem Shape.freeOfStack (hs : Shape h T) (hst : .stack ∉ T.toList)
    (hroot : ∀ a, T.root? = some a → h.par a = none) (hx : x ∈ T.toList) :
    h.par x ≠ some .stack ∧ ∀ w, h.child w x ≠ some .stack := by
  constructor
  · intro hp
    by_cases hr : T.root? = some x
    · rw [hroot x hr] at hp
      simp at hp
    · have hb : x ∈ below T := by
        cases T with
        | nil => simp at hx
        | node l a r =>
          simp only [toList_node, List.mem_append, List.mem_cons] at hx
          simp only [root?_node, Option.some.injEq] at hr
          simp only [below, List.mem_append]
          tauto
      obtain ⟨y, hy, hp'⟩ := hs.par_mem hb
      rw [hp, Option.some.injEq] at hp'
      exact hst (hp' ▸ hy)
  · intro w hc
    exact hst (hs.closedUnder x hx w .stack hc)

theorem nearest_of_split {l r : Tree Ref} {a : Ref}
    (hsort : (l.toList ++ a :: r.toList).Pairwise fun x y => h.start x < h.start y)
    (hl : ∀ b ∈ l.toList, h.start b < k) (hr : ∀ b ∈ r.toList, k < h.start b) :
    Nearest h (l.toList ++ a :: r.toList) k a := by
  obtain ⟨-, har, hla⟩ := List.pairwise_append.mp hsort
  have har := (List.pairwise_cons.mp har).1
  rcases Nat.lt_trichotomy (h.start a) k with hlt | heq | hgt
  · apply Or.inr
    refine ⟨fun x hx => ?_, .inl ⟨hlt, fun x hx hxk => ?_⟩⟩
    all_goals
      rcases List.mem_append.mp hx with hx | hx
      · have := hl x hx
        have := hla x hx a (by simp)
        omega
      · rcases List.mem_cons.mp hx with rfl | hx
        · omega
        · have := hr x hx
          omega
  · exact .inl heq
  · apply Or.inr
    refine ⟨fun x hx => ?_, .inr ⟨hgt, fun x hx hxk => ?_⟩⟩
    all_goals
      rcases List.mem_append.mp hx with hx | hx
      · have := hl x hx
        omega
      · rcases List.mem_cons.mp hx with rfl | hx
        · omega
        · have := hr x hx
          have := har x hx
          omega

/-- `S_sp_tree_splay` ends on every search tree and every address. -/
theorem sSpTreeSplay_splays (hs : Shape h T)
    (hsort : T.toList.Pairwise fun a b => h.start a < h.start b) (hst : h.cell .stack = none)
    (hfree : ∀ x, h.FreeOfStack x) (k : ℕ) :
    ∃ h' T', sSpTreeSplay h k T.root? = some (h', T'.root?) ∧ Splayed h T k h' T' := by
  cases hT : T with
  | nil =>
    refine ⟨h, nil, rfl, ?_⟩
    exact ⟨trivial, by simp, rfl, fun _ => rfl, fun _ _ => rfl, hfree, rfl, by simp⟩
  | node tl b tr =>
    rw [← hT]
    have hne : T ≠ nil := by simp [hT]
    have hns := hs.stack_notMem hst
    obtain ⟨h1, l, a, r, hsp, he1, hs1, hp1, hst1, hf1, hlist1, hl1, hr1⟩ :=
      sSpTreeSplay_spec k hs hsort hst hne
    have hroot : ∀ c, (node l a r).root? = some c → h1.par c = none := by
      intro c hc
      obtain rfl : a = c := by simpa using hc
      exact hp1
    refine ⟨h1, node l a r, he1, hs1, hroot, hlist1, hf1.data, ?_, ?_, ?_, ?_⟩
    · intro x hx
      by_cases hxs : x = .stack
      · rw [hxs, hst1, hst]
      · exact hf1.outside x hxs hx
    · intro x
      obtain ⟨-, hnext, hprev⟩ := range_of_data (hf1.data x)
      have hlinks : h1.par x ≠ some .stack ∧ ∀ w, h1.child w x ≠ some .stack := by
        by_cases hx : x ∈ T.toList
        · rw [← hlist1, ← toList_node] at hx hns
          exact hs1.freeOfStack hns hroot hx
        · by_cases hxs : x = .stack
          · simp [hxs, Heap.par, Heap.child, hst1]
          · have hc := hf1.outside x hxs hx
            rw [par_of_cell hc]
            exact ⟨(hfree x).par, fun w => by rw [child_of_cell hc]; exact (hfree x).child w⟩
      exact ⟨hlinks.1, hlinks.2, hnext ▸ (hfree x).next, hprev ▸ (hfree x).prev⟩
    · rw [← root?_splay, hsp]
    · intro c hc
      obtain rfl : a = c := by simpa using hc
      rw [← hlist1]
      exact nearest_of_split (hlist1 ▸ hsort) hl1 hr1

/-! ### Three nodes -/

def chain : Heap where
  cell := fun x =>
    if x = .vma 72 then
      some ⟨some (.vma 136), none, some (.vma 136), none, none, VM_PROT_READ, 0, 4096⟩
    else if x = .vma 136 then
      some ⟨some (.vma 200), some (.vma 72), some (.vma 200), some (.vma 72), none,
        VM_PROT_WRITE, 4096, 8192⟩
    else if x = .vma 200 then
      some ⟨none, some (.vma 136), none, some (.vma 136), none, VM_PROT_READ, 8192, 12288⟩
    else none
  root := some (.vma 200)
  supply := []
  calls := []

theorem chain_freeOfStack (x : Ref) : chain.FreeOfStack x := by
  constructor
  all_goals
    simp only [Heap.par, Heap.child, Heap.next, Heap.prev, chain]
    split_ifs <;> simp [VmArea.child]
  all_goals
    intro w
    cases w <;> simp

/-- The root goes below its left child, which is linked into the right tree. -/
theorem sSpTreeSplay_splays_first :
    ∃ h' T', sSpTreeSplay chain 0 (some (.vma 200)) = some (h', T'.root?) ∧
      T'.root? = some (.vma 72) ∧
      Splayed chain (node (node (node nil (.vma 72) nil) (.vma 136) nil) (.vma 200) nil) 0 h'
        T' := by
  have hshape : Shape chain (node (node (node nil (.vma 72) nil) (.vma 136) nil)
      (.vma 200) nil) := by
    simp [Shape, Up, Heap.Ok, Heap.child, Heap.par, VmArea.child, chain]
  have hsort : (node (node (node nil (.vma 72) nil) (.vma 136) nil) (.vma 200) nil).toList.Pairwise
      fun a b => chain.start a < chain.start b := by
    simp [Heap.start, chain]
  have hrun : (sSpTreeSplay chain 0 (some (.vma 200))).any (fun r => r.2 = some (.vma 72)) =
      true := by
    decide +kernel
  obtain ⟨h', T', he, hsplayed⟩ := sSpTreeSplay_splays hshape hsort rfl chain_freeOfStack 0
  obtain ⟨r, hr, hroot⟩ := (Option.any_eq_true _ _).mp hrun
  obtain rfl := Option.some.inj (hr.symm.trans he)
  exact ⟨h', T', he, of_decide_eq_true hroot, hsplayed⟩

end OpenOOC
