import OpenOOC.Lib.SplayCost
import OpenOOC.SpTree.Linked

/-! The rounds of the loop of `S_sp_tree_splay`, in the tree's operations and over a run
of them. -/

namespace OpenOOC

open Links SplayTree SplayTree.Tree

/-! ### The loop -/

/-- The loop comes to its `break` within `fuel` rounds just when the descent does. -/
def LoopRounds (k fuel : ℕ) : Prop :=
  ∀ (h : Heap) (L R : List (Tree Ref × Ref)) (T : Tree Ref) (t : Ref), Parts h .spL L R T →
    T.root? = some t →
    ((splayLoop k fuel h (some (top L)) (some (top R)) (some t)).isSome ↔
      steps (heapCmp h k) T ≤ fuel)

section

variable {k fuel : ℕ} {h : Heap} {L R : List (Tree Ref × Ref)} {s c : Tree Ref} {a : Ref}

theorem LoopRounds.link_right (ih : LoopRounds k fuel) (hp : Parts h .spL L R (node c a s))
    (hc : c ≠ nil) :
    ((splayLink h (some (top R)) .spL (some a)).bind fun x =>
      splayLoop k fuel x.1 (some (top L)) x.2.1 x.2.2).isSome ↔ steps (heapCmp h k) c ≤ fuel := by
  have hp' : Parts h .spR R L (branch .spR s a c) := hp.swap
  have hlink : splayLink h (some (top R)) .spL (some a) = _ := splayLink_eq hp'
  cases c with
  | nil => exact absurd rfl hc
  | node cl b cr =>
    rw [hlink, Option.bind_some]
    refine (ih _ L ((s, a) :: R) _ b hp'.link.swap rfl).trans ?_
    rw [heapCmp_of_data k (data_linkChild)]

theorem LoopRounds.link_left (ih : LoopRounds k fuel) (hp : Parts h .spL L R (node s a c))
    (hc : c ≠ nil) :
    ((splayLink h (some (top L)) .spR (some a)).bind fun x =>
      splayLoop k fuel x.1 x.2.1 (some (top R)) x.2.2).isSome ↔ steps (heapCmp h k) c ≤ fuel := by
  have hp' : Parts h .spL L R (branch .spL s a c) := hp
  have hlink : splayLink h (some (top L)) .spR (some a) = _ := splayLink_eq hp'
  cases c with
  | nil => exact absurd rfl hc
  | node cl b cr =>
    rw [hlink, Option.bind_some]
    refine (ih _ ((s, a) :: L) R _ b hp'.link rfl).trans ?_
    rw [heapCmp_of_data k (data_linkChild)]

end

theorem heapCmp_rotate {h : Heap} {w : Which} {t y : Ref} {p : Ptr} {k : ℕ} :
    heapCmp (h.rotate w t y p) k = heapCmp h k :=
  heapCmp_of_data k fun x => by rw [Heap.rotate, data_linkChild, data_linkChild]

theorem splayLoop_rounds (k fuel : ℕ) : LoopRounds k fuel := by
  induction fuel with
  | zero =>
    intro h L R T t hp ht
    cases T with
    | nil => simp at ht
    | node l a r =>
      have hpos := steps_pos (heapCmp h k) l a r
      simp only [splayLoop, Option.isSome_none, Bool.false_eq_true, false_iff]
      omega
  | succ fuel ih =>
    intro h L R T t hp ht
    cases T with
    | nil => simp at ht
    | node l a r =>
      obtain rfl : a = t := by simpa using ht
      obtain ⟨hok, hl, hr, -, -, hsl, hsr⟩ := hp.tree
      obtain ⟨va, hva, hvc, -, -, -, hvs, -, -⟩ := h.cell_eq hok
      have hvl : va.spL = l.root? := by rw [← hl, ← hvc]; rfl
      have hvr : va.spR = r.root? := by rw [← hr, ← hvc]; rfl
      have hnd := (List.nodup_append.mp (List.nodup_append.mp hp.nodup).1).2.1
      unfold splayLoop
      simp only [Heap.get_some, hva, Option.bind_eq_bind, Option.bind_some, hvs, hvl, hvr,
        Option.pure_def]
      rcases lt_trichotomy k (h.start a) with hlt | heq | hgt
      · -- the search goes left
        have hca := cmp_lt.mpr hlt
        rw [if_pos hlt]
        cases l with
        | nil => simp [steps_left_nil hca]
        | node ll y lr =>
          obtain ⟨hyok, hyl, hyr, -⟩ := hsl
          obtain ⟨vy, hvy, hvyc, -, -, -, hvys, -, -⟩ := h.cell_eq hyok
          have hvyr : vy.spR = lr.root? := by rw [← hyr, ← hvyc]; rfl
          simp only [root?_node, reduceCtorEq, if_false, Heap.get_some, hvy, Option.bind_some, hvys,
            hvyr]
          rw [steps_left hca, Nat.succ_le_succ_iff]
          by_cases hy : k < h.start y
          · have hrot : Parts (h.rotate .spL a y lr.root?) .spL L R (node ll y (node lr a r)) :=
              @Parts.rotate _ _ .spL _ _ _ _ _ _ _ hp
            obtain ⟨he1, he2⟩ := rotate_eq (w := .spL) hp.tree hnd
            obtain ⟨vy', hvy', hvyc', -⟩ := (h.rotate .spL a y lr.root?).cell_eq hrot.tree.1
            have hvyl' : vy'.spL = ll.root? := by rw [← hrot.tree.2.1, ← hvyc']; rfl
            simp only [Which.flip] at he2
            simp only [if_pos hy, if_pos (cmp_lt.mpr hy), he1, he2, Option.bind_some, hvy', hvyl',
              root?_eq_none]
            by_cases hll : ll = nil
            · subst hll
              simp [steps]
            · rw [if_neg hll, ih.link_right hrot hll, heapCmp_rotate]
          · rw [if_neg hy, if_neg (mt cmp_lt.mp hy)]
            exact ih.link_right hp (by simp)
      · rw [if_neg (by omega), if_neg (by omega)]
        have hca : heapCmp h k a = .eq := cmp_eq.mpr heq
        simp [steps_match hca]
      · -- the search goes right
        have hca := cmp_gt.mpr hgt
        rw [if_neg (by omega), if_pos hgt]
        cases r with
        | nil => simp [steps_right_nil hca]
        | node rl y rr =>
          obtain ⟨hyok, hyl, hyr, -⟩ := hsr
          obtain ⟨vy, hvy, hvyc, -, -, -, hvys, -, -⟩ := h.cell_eq hyok
          have hvyl : vy.spL = rl.root? := by rw [← hyl, ← hvyc]; rfl
          simp only [root?_node, reduceCtorEq, if_false, Heap.get_some, hvy, Option.bind_some, hvys,
            hvyl]
          rw [steps_right hca, Nat.succ_le_succ_iff]
          by_cases hy : h.start y < k
          · have hrot : Parts (h.rotate .spR a y rl.root?) .spL L R (node (node l a rl) y rr) :=
              @Parts.rotate _ _ .spR _ _ _ _ _ _ _ hp
            obtain ⟨he1, he2⟩ := rotate_eq (w := .spR) hp.tree hnd
            obtain ⟨vy', hvy', hvyc', -⟩ := (h.rotate .spR a y rl.root?).cell_eq hrot.tree.1
            have hvyr' : vy'.spR = rr.root? := by rw [← hrot.tree.2.2.1, ← hvyc']; rfl
            simp only [Which.flip] at he2
            simp only [if_pos hy, if_pos (cmp_gt.mpr hy), he1, he2, Option.bind_some, hvy', hvyr',
              root?_eq_none]
            by_cases hrr : rr = nil
            · subst hrr
              simp [steps]
            · rw [if_neg hrr, ih.link_left hrot hrr, heapCmp_rotate]
          · rw [if_neg hy, if_neg (mt cmp_gt.mp hy)]
            exact ih.link_left hp (by simp)

/-! ### The operations -/

/-- The loop of `S_sp_tree_splay(vm_addr, t)` comes to its `break` within `n` rounds. -/
def SplaysWithin (h : Heap) (vmAddr : ℕ) (t : Ptr) (n : ℕ) : Prop :=
  t = none ∨ (splayLoop vmAddr n (h.put .stack (some splayN)) (some .stack) (some .stack) t).isSome

def TreeOp.Within (h : Heap) (n : ℕ) : TreeOp → Prop
  | .insert z v => ∃ h1, sSpNodeInit (h.put (.vma z) (some v)) (some (.vma z)) = some h1 ∧
      SplaysWithin h1 v.vmStart h1.root n
  | .remove vmAddr => ∃ h1 t h2 v n₁ n₂, n = n₁ + n₂ ∧ SplaysWithin h vmAddr h.root n₁ ∧
      sSpTreeSplay h vmAddr h.root = some (h1, t) ∧ fixListRm h1 t = some h2 ∧ h2.get t = some v ∧
      SplaysWithin h2 v.vmStart v.spL n₂
  | .find vmAddr => SplaysWithin h vmAddr h.root n

def RunsWithin (h : Heap) (n : ℕ) : List TreeOp → Prop
  | [] => True
  | op :: ops => ∃ n₁ n₂ h', n = n₁ + n₂ ∧ op.Within h n₁ ∧ op.exec h = some h' ∧
      RunsWithin h' n₂ ops

section

variable {h h' : Heap} {T : Tree Ref} {S : Finset Node} {k n : ℕ}

theorem splaysWithin_iff (hs : Shape h T) (hnd : T.toList.Nodup) (hst : h.cell .stack = none)
    (hT : T ≠ nil) :
    SplaysWithin h k T.root? n ↔ steps (heapCmp h k) T ≤ n := by
  have hns := hs.stack_notMem hst
  obtain ⟨t, ht⟩ : ∃ t, T.root? = some t := by
    cases T with
    | nil => exact absurd rfl hT
    | node l a r => exact ⟨a, rfl⟩
  have hp : Parts (h.put .stack (some splayN)) .spL [] [] T := by
    refine ⟨by simp [Heap.Ok], by simp [Heap.par, splayN], trivial, trivial, ?_,
      by simpa [nodesOf] using hnd, by simpa [nodesOf] using hns⟩
    refine hs.of_cell fun x hx => ?_
    have hx : x ≠ .stack := fun he => hns (he ▸ hx)
    rw [cell_put, if_neg hx]
  have hcmp : heapCmp (h.put .stack (some splayN)) k = heapCmp h k :=
    heapCmp_of_start (start_put_splayN hst)
  have hrounds := splayLoop_rounds k n _ [] [] T t hp ht
  rw [hcmp] at hrounds
  rw [SplaysWithin, ht, ← hrounds]
  simp only [reduceCtorEq, false_or, top_nil]

/-- What is met in memory is one tree. -/
theorem Shape.unique {T' : Tree Ref} (hs : Shape h T) (hs' : Shape h T') (hr : T.root? = T'.root?) :
    T = T' := by
  induction T generalizing T' with
  | nil => exact (root?_eq_none.mp hr.symm).symm
  | node l a r ihl ihr =>
    cases T' with
    | nil => cases hr
    | node l' b r' =>
      obtain rfl : a = b := Option.some.inj hr
      obtain ⟨-, hl, hr, -, -, hsl, hsr⟩ := hs
      obtain ⟨-, hl', hr', -, -, hsl', hsr'⟩ := hs'
      rw [ihl hsl hsl' (hl.symm.trans hl'), ihr hsr hsr' (hr.symm.trans hr')]

theorem Holds.of_rep {T' : Tree Ref} (hh : Holds h S T) (hr : Rep h T') : Holds h S T' := by
  have he : T = T' := hh.rep.shape.unique hr.shape (hh.rep.root.symm.trans hr.root)
  exact he ▸ hh

theorem Holds.size_eq (hh : Holds h S T) : T.size = S.card := by
  rw [← length_toList, ← List.toFinset_card_of_nodup hh.rep.nodup]
  refine (Finset.card_bij (fun n _ => n.ref) (fun n hn => ?_) (fun n hn m hm he => ?_)
    fun x hx => ?_).symm
  · exact List.mem_toFinset.mpr (hh.ref_mem hn)
  · exact hh.linked.eq_of_ref hn hm he
  · obtain ⟨n, hn, hnx, -⟩ := hh.node_of_mem (List.mem_toFinset.mp hx)
    exact ⟨n, hn, hnx⟩

/-- The loop makes the rounds of the descent, and none if the tree is empty. -/
theorem splaysWithin_steps (hs : Shape h T) (hnd : T.toList.Nodup) (hst : h.cell .stack = none)
    {cmp : Ref → Ordering}
    (hc : heapCmp h k = cmp) : SplaysWithin h k T.root? (steps cmp T) := by
  subst hc
  by_cases hT : T = nil
  · exact Or.inl (root?_eq_none.mpr hT)
  · exact (splaysWithin_iff hs hnd hst hT).mpr (le_refl _)

theorem Holds.insert_rounds (hh : Holds h S T) {z : Addr} {v : VmArea} (hpre : Insertable S z v)
    (he : (TreeOp.insert z v).exec h = some h') : ∃ T' n, Holds h' ((TreeOp.insert z v).live S) T' ∧
      (TreeOp.insert z v).Within h n ∧ n + T'.potential ≤ T.potential + 4 * T'.rank + 2 := by
  obtain ⟨h₂, T₂, he₂, hh₂⟩ := hh.insert hpre
  obtain rfl := Option.some.inj (he₂.symm.trans he)
  have hzT : .vma z ∉ T.toList := fun hx => by
    obtain ⟨m, hm, hmx, -⟩ := hh.node_of_mem hx
    exact (hpre.2 m hm).1 (Ref.vma.inj hmx)
  set h0 := h.put (.vma z) (some v) with hh0
  have hc0 {x : Ref} (hx : x ≠ .vma z) : h0.cell x = h.cell x := by rw [hh0, cell_put, if_neg hx]
  have hr0 : Rep h0 T := hh.rep.of_cell rfl ((hc0 (by simp)).trans hh.rep.stack) fun x hx =>
    hc0 fun he => hzT (he ▸ hx)
  have hz0 : h0.Ok (.vma z) := by simp [Heap.Ok, hh0]
  have hstart0 : h0.start (.vma z) = v.vmStart := by simp [Heap.start, hh0]
  obtain ⟨h1, he1, hf1, hroot1, -, -, -, -, hout1⟩ := nodeInit_spec hz0
  have hs1 : Shape h1 T := hr0.shape.of_cell fun x hx => hout1 x fun he => hzT (he ▸ hx)
  obtain ⟨h', T', L1, L2, he', hr', -, -, -, hplaced⟩ :=
    spTreeInsert_splays hr0 hz0 hzT fun a ha => by
    obtain ⟨m, hm, rfl, hms⟩ := hh.node_of_mem ha
    have hcell : h0.cell m.ref = h.cell m.ref := hc0 fun he => hzT (he ▸ ha)
    rw [hstart0, Heap.start, hcell, ← Heap.start, ← hms]
    exact (hpre.2 m hm).2
  obtain rfl := Option.some.inj (he'.symm.trans he)
  refine ⟨T', _, hh₂.of_rep hr', ⟨h1, he1, ?_⟩, hplaced.amortized⟩
  rw [hroot1, hr0.root]
  refine splaysWithin_steps hs1 hh.rep.nodup (hf1.stack hr0.stack) ?_
  rw [hstart0]
  exact heapCmp_of_start hf1.start

theorem Holds.remove_rounds (hh : Holds h S T) (he : (TreeOp.remove k).exec h = some h') :
    ∃ T' n, Holds h' ((TreeOp.remove k).live S) T' ∧ (TreeOp.remove k).Within h n ∧
      n + T'.potential ≤ T.potential + 6 * T.rank + 4 := by
  have hpre : InsertPre S (.remove k) := trivial
  obtain ⟨T₂, hh₂⟩ := hh.step hpre he
  obtain ⟨x, hx, rfl⟩ := start_of_spTreeRemove hh.rep he
  obtain ⟨m, hm, rfl, -⟩ := hh.node_of_mem hx
  have hT : T ≠ nil := by
    rintro rfl
    simp at hx
  obtain ⟨h₃, T', L1, L2, he', hr', -, -, -, -, -, -, l, r, hsp, hmerged⟩ :=
    spTreeRemove_splays hh.rep hh.aligned hx
  obtain rfl := Option.some.inj (he'.symm.trans he)
  -- the second splay is of the left tree, after the node has left the list
  obtain ⟨h1, l', t, r', -, he1, hl1, hf1, -, -, hsp', -⟩ := hh.linked.splay (h.start m.ref) hT
  obtain ⟨rfl, ht, rfl⟩ := Tree.node.inj (hsp.symm.trans hsp')
  obtain ⟨-, -, -, -, -, -, -, -, -, h2, he2, hf2⟩ :=
    removeHelper_splays hl1.shape (hl1.root_par _ rfl) hl1.list hl1.sorted hl1.stack
  obtain ⟨hok, hcl, -, -, -, hsl, -⟩ := hf2.shape hl1.shape
  obtain ⟨v, hv, hvc, -, -, -, hvs, -⟩ := h2.cell_eq hok
  have hstart (x : Ref) : h2.start x = h.start x := (hf2.views x).2.2.1.trans (hf1.start x)
  have hvl : v.spL = l.root? := by rw [← hcl, ← hvc]; rfl
  have hvk : v.vmStart = h.start m.ref := by
    rw [hvs, hstart, ← ht]
    rfl
  have hndl : l.toList.Nodup := by
    have hnd := hl1.nodup
    rw [toList_node] at hnd
    exact (List.nodup_append.mp hnd).1
  set cmp := heapCmp h (h.start m.ref) with hcmp
  refine ⟨T', steps cmp T + steps cmp l, hh₂.of_rep hr',
    ⟨h1, some t.ref, h2, v, _, _, rfl, ?_, ?_, he2, hv, ?_⟩, ?_⟩
  · rw [hh.rep.root]
    exact splaysWithin_steps hh.rep.shape hh.rep.nodup hh.rep.stack rfl
  · rw [hh.rep.root]
    exact he1
  · rw [hvl, hvk]
    exact splaysWithin_steps hsl hndl (hf2.linksOnly.stack hl1.stack) (heapCmp_of_start hstart)
  · push_cast
    exact hmerged.amortized hsp

theorem Holds.find_rounds (hh : Holds h S T) (he : (TreeOp.find k).exec h = some h') :
    ∃ T' n, Holds h' S T' ∧ (TreeOp.find k).Within h n ∧
      n + T'.potential ≤ T.potential + 3 * T.rank + 2 := by
  obtain ⟨⟨h₁, p⟩, he₁, rfl⟩ := Option.map_eq_some_iff.mp he
  obtain ⟨hr', -⟩ := rep_splay_of_spTreeFindAndLock hh.rep he₁
  obtain ⟨T₂, hh₂⟩ := hh.find he₁
  refine ⟨_, _, hh₂.of_rep hr', ?_, splay_amortized _ _⟩
  change SplaysWithin h k h.root _
  rw [hh.rep.root]
  exact splaysWithin_steps hh.rep.shape hh.rep.nodup hh.rep.stack rfl

/-! ### Runs -/

theorem Holds.step_rounds (hh : Holds h S T) {op : TreeOp} (hpre : InsertPre S op)
    (he : op.exec h = some h') {N : ℕ}
    (hN : S.card ≤ N) :
    ∃ T' n, Holds h' (op.live S) T' ∧ op.Within h n ∧
      n + T'.potential ≤ T.potential + opCost N := by
  have hrank : T.rank ≤ Real.logb 2 (N + 2) := rank_le_logb (by rw [hh.size_eq]; omega)
  have hpos : 0 ≤ Real.logb 2 (N + 2) := (rank_nonneg T).trans hrank
  unfold opCost
  cases op with
  | insert z v =>
    obtain ⟨T', n, hh', hw, hle⟩ := hh.insert_rounds hpre he
    have hrank' : T'.rank ≤ Real.logb 2 (N + 2) := by
      refine rank_le_logb ?_
      rw [hh'.size_eq]
      exact (Finset.card_insert_le _ _).trans (Nat.succ_le_succ hN)
    exact ⟨T', n, hh', hw, by linarith⟩
  | remove k =>
    obtain ⟨T', n, hh', hw, hle⟩ := hh.remove_rounds he
    exact ⟨T', n, hh', hw, by linarith⟩
  | find k =>
    obtain ⟨T', n, hh', hw, hle⟩ := hh.find_rounds he
    exact ⟨T', n, hh', hw, by linarith⟩

theorem Holds.run_rounds {N : ℕ} {ops : List TreeOp} (hh : Holds h S T)
    (hl : LegalRun (fun S op => InsertPre S op ∧ S.card ≤ N) S ops) (he : execAll h ops = some h') :
    ∃ n, RunsWithin h n ops ∧ n ≤ T.potential + ops.length * opCost N := by
  induction ops generalizing h S T with
  | nil =>
    refine ⟨0, trivial, ?_⟩
    have hpos := potential_nonneg T
    simpa using hpos
  | cons op ops ih =>
    obtain ⟨h1, he1, he2⟩ := Option.bind_eq_some_iff.mp he
    obtain ⟨T1, n₁, hh1, hw, hle₁⟩ := hh.step_rounds hl.1.1 he1 hl.1.2
    obtain ⟨n₂, hrun, hle₂⟩ := ih hh1 hl.2 he2
    refine ⟨n₁ + n₂, ⟨n₁, n₂, h1, rfl, hw, he1, hrun⟩, ?_⟩
    rw [List.length_cons]
    push_cast
    linarith

/-- A run of insertions, removals and lookups from the empty tree, with at most `N` nodes
at any time: all loops together make at most `6 * log (N + 2) + 4` rounds for each
operation. -/
theorem tree_runs_amortized {N : ℕ} {ops : List TreeOp} (hst : h.cell .stack = none)
    (hl : LegalRun (fun S op => InsertPre S op ∧ S.card ≤ N) ∅ ops)
    (he : execAll (spTreeInit h) ops = some h') :
    ∃ n, RunsWithin (spTreeInit h) n ops ∧ n ≤ ops.length * opCost N := by
  obtain ⟨n, hrun, hle⟩ := (holds_init hst).run_rounds hl he
  refine ⟨n, hrun, ?_⟩
  simpa [potential] using hle

def fourOps : List TreeOp :=
  [.insert 16 (.ofRange 0 10), .insert 32 (.ofRange 10 20), .find 15, .remove 0]

theorem tree_runs_amortized_four : ∃ n, RunsWithin (spTreeInit .empty) n fourOps ∧
    n ≤ 4 * opCost 2 := by
  have hlegal : LegalRun NearestPre ∅ fourOps := by decide
  obtain ⟨h', T, he, -⟩ := (holds_init (h := .empty) rfl).run_progress hlegal
  obtain ⟨n, hrun, hle⟩ := tree_runs_amortized (h := .empty) (N := 2) rfl (by decide) he
  exact ⟨n, hrun, by simpa [fourOps] using hle⟩

end

end OpenOOC
