import OpenOOC.SpTree.Fragments

/-! `S_sp_tree_splay` refines top-down splaying of abstract trees: the loop runs
as the descent does, and the assembly builds the tree that the descent ends in. -/

namespace OpenOOC

open SplayTree SplayTree.Tree

/-! ### The loop -/

theorem rotate_eq {h : Heap} {w : Which} {ll lr r : Tree Ref} {t y : Ref}
    (hT : Shape h (branch w (branch w ll y lr) t r))
    (hnd : (branch w (branch w ll y lr) t r).toList.Nodup) :
    makeChild h (some t) w lr.root? = some (h.linkChild t w lr.root?) ∧
      makeChild (h.linkChild t w lr.root?) (some y) w.flip (some t) =
        some (h.rotate w t y lr.root?) := by
  obtain ⟨ht, -, -, -, -, hTy, -⟩ := shape_branch.mp hT
  obtain ⟨hy, -, -, -, -, -, hslr⟩ := shape_branch.mp hTy
  have hnd1 := (List.nodup_cons.mp (branch_nodup.mp hnd)).1
  simp only [List.mem_append, mem_branch, not_or] at hnd1
  constructor
  · refine makeChild_eq w ht fun x hx => ⟨?_, fun he => hnd1.1.2.2 (he ▸ root?_mem hx)⟩
    cases lr with
    | nil => simp at hx
    | node a b c => obtain rfl : b = x := by simpa using hx
                    exact hslr.1
  · refine makeChild_eq _ (by simpa using hy) fun x hx => ?_
    obtain rfl : t = x := by simpa using hx
    exact ⟨by simpa using ht, hnd1.1.1⟩

theorem splayLink_eq {h : Heap} {w : Which} {M O : List (Tree Ref × Ref)} {s c : Tree Ref} {t : Ref}
    (hp : Parts h w M O (branch w s t c)) :
    splayLink h (some (top M)) w.flip (some t) =
      some (h.linkChild (top M) w.flip (some t), some t, c.root?) := by
  have htM : t ≠ top M := hp.top_ne (Or.inl (by simp))
  obtain ⟨ht, -, hc, -⟩ := shape_branch.mp hp.tree
  unfold splayLink
  rw [makeChild_eq w.flip hp.top_ok (by simp [ht, htM])]
  obtain ⟨v, hv, hchild, -⟩ := Heap.cell_eq (h.linkChild (top M) w.flip (some t))
    ((ok_linkChild t).mpr ht)
  have hvc : v.child w.flip = c.root? := by
    rw [hchild, child_linkChild hp.top_ok, if_neg (fun he => htM he.1), hc]
  simp only [Option.bind_eq_bind, Option.bind_some, Heap.get_some, hv]
  rw [← hvc]
  cases w <;> rfl

theorem nodes_link {L R : List (Tree Ref × Ref)} {s c : Tree Ref} {t : Ref} {w : Which}
    {N : List Ref}
    (hN : ∀ x ∈ nodesOf L ++ (branch w s t c).toList ++ nodesOf R, x ∈ N) :
    (∀ x ∈ nodesOf ((s, t) :: L) ++ c.toList ++ nodesOf R, x ∈ N) ∧
      ∀ x ∈ nodesOf L ++ c.toList ++ nodesOf ((s, t) :: R), x ∈ N := by
  simp only [List.mem_append, mem_branch, nodesOf, List.cons_append, List.mem_cons] at hN ⊢
  exact ⟨fun x hx => hN x (by tauto), fun x hx => hN x (by tauto)⟩

def heapCmp (h : Heap) (k : ℕ) (x : Ref) : Ordering := compare k (h.start x)

theorem heapCmp_of_data {h h' : Heap} (k : ℕ) (hd : ∀ x, h'.data x = h.data x) :
    heapCmp h' k = heapCmp h k := by
  funext x
  unfold heapCmp
  rw [start_of_data (hd x)]

theorem heapCmp_of_start {h h' : Heap} {k : ℕ} (hs : ∀ x, h'.start x = h.start x) :
    heapCmp h' k = heapCmp h k := by
  funext x
  rw [heapCmp, heapCmp, hs]

/-- `out` is the loop's state at its `break`: the fragments are those that
`descend` assembles. -/
def StopsAs (k : ℕ) (N : List Ref) (h : Heap) (L R : List (Tree Ref × Ref)) (T : Tree Ref)
    (out : Option (Heap × Ptr × Ptr × Ptr)) : Prop :=
  ∃ h' L' R' l a r, out = some (h', some (top L'), some (top R'), some a) ∧
    Parts h' .spL L' R' (node l a r) ∧
    descend (heapCmp h k) L R T = assemble L' R' l a r ∧
    TreeLinksOnly N h h' ∧ ∀ x ∈ nodesOf L' ++ (node l a r).toList ++ nodesOf R', x ∈ N

theorem StopsAs.step {k : ℕ} {N : List Ref} {h h1 : Heap} {L L1 R R1 : List (Tree Ref × Ref)}
    {T T1 : Tree Ref} {out : Option (Heap × Ptr × Ptr × Ptr)} (hs : StopsAs k N h1 L1 R1 T1 out)
    (hd : descend (heapCmp h k) L R T = descend (heapCmp h k) L1 R1 T1)
    (hf : TreeLinksOnly N h h1) : StopsAs k N h L R T out := by
  obtain ⟨h', L', R', l, a, r, he, hp, hd', hf', hN⟩ := hs
  rw [heapCmp_of_data k hf.data, ← hd] at hd'
  exact ⟨h', L', R', l, a, r, he, hp, hd', hf.trans hf', hN⟩

theorem mem_of_nodes {L R : List (Tree Ref × Ref)} {T : Tree Ref} {N : List Ref}
    (hN : ∀ x ∈ nodesOf L ++ T.toList ++ nodesOf R, x ∈ N) :
    (top L = .stack ∨ top L ∈ N) ∧ (top R = .stack ∨ top R ∈ N) ∧ ∀ x ∈ T.toList, x ∈ N := by
  refine ⟨(top_mem L).imp_right fun hx => hN _ (by simp [hx]),
    (top_mem R).imp_right fun hx => hN _ (by simp [hx]), fun x hx => hN x (by simp [hx])⟩

theorem rotate_of_notMem {h : Heap} {w : Which} {ll lr r : Tree Ref} {t y x : Ref}
    (hx : x ∉ (branch w (branch w ll y lr) t r).toList) :
    (h.rotate w t y lr.root?).cell x = h.cell x := by
  simp only [mem_branch, not_or] at hx
  rw [Heap.rotate, linkChild_of_ne hx.2.1.1 (by simpa using hx.1),
    linkChild_of_ne hx.1 fun he => hx.2.1.2.2 (root?_mem he.symm)]

theorem treeLinksOnly_rotate {N : List Ref} {h : Heap} {w : Which} {ll lr r : Tree Ref} {t y : Ref}
    (hN : ∀ x ∈ (branch w (branch w ll y lr) t r).toList, x ∈ N) :
    TreeLinksOnly N h (h.rotate w t y lr.root?) := by
  simp only [mem_branch] at hN
  refine (treeLinksOnly_linkChild (Or.inr (hN t (by simp))) fun x hx => ?_).trans
    (treeLinksOnly_linkChild (Or.inr (hN y (by simp))) fun x hx => ?_)
  · exact hN x (by simp [root?_mem hx])
  · obtain rfl : t = x := by simpa using hx
    exact hN t (by simp)

theorem cmp_lt {h : Heap} {k : ℕ} {x : Ref} : heapCmp h k x = .lt ↔ k < h.start x :=
  compare_lt_iff_lt

theorem cmp_gt {h : Heap} {k : ℕ} {x : Ref} : heapCmp h k x = .gt ↔ h.start x < k :=
  compare_gt_iff_gt

theorem cmp_eq {h : Heap} {k : ℕ} {x : Ref} : heapCmp h k x = .eq ↔ k = h.start x :=
  compare_eq_iff_eq

/-- The loop does its work from every state with fewer than `fuel` structs to go. -/
def LoopStops (k : ℕ) (N : List Ref) (fuel : ℕ) : Prop :=
  ∀ (h : Heap) (L R : List (Tree Ref × Ref)) (T : Tree Ref) (t : Ref),
    Parts h .spL L R T → T.root? = some t → T.size ≤ fuel →
    (∀ x ∈ nodesOf L ++ T.toList ++ nodesOf R, x ∈ N) →
    StopsAs k N h L R T (splayLoop k fuel h (some (top L)) (some (top R)) (some t))

section

variable {k fuel : ℕ} {N : List Ref} {h : Heap} {L R : List (Tree Ref × Ref)} {s c : Tree Ref}
  {a : Ref}

theorem LoopStops.link_right (ih : LoopStops k N fuel) (hp : Parts h .spL L R (node c a s))
    (hc : c ≠ nil) (hsz : c.size ≤ fuel)
    (hN : ∀ x ∈ nodesOf L ++ (node c a s).toList ++ nodesOf R, x ∈ N) :
    StopsAs k N h L ((s, a) :: R) c ((splayLink h (some (top R)) .spL (some a)).bind fun x =>
      splayLoop k fuel x.1 (some (top L)) x.2.1 x.2.2) := by
  have hp' : Parts h .spR R L (branch .spR s a c) := hp.swap
  have hlink : splayLink h (some (top R)) .spL (some a) = _ := splayLink_eq hp'
  have hmem := mem_of_nodes hN
  cases c with
  | nil => exact absurd rfl hc
  | node cl b cr =>
    rw [hlink, Option.bind_some]
    refine (ih _ L ((s, a) :: R) _ b hp'.link.swap rfl hsz (nodes_link (w := .spR) hN).2).step
      rfl ?_
    refine treeLinksOnly_linkChild hmem.2.1 fun x hx => ?_
    obtain rfl : a = x := by simpa using hx
    exact hmem.2.2 a (by simp)

theorem LoopStops.link_left (ih : LoopStops k N fuel) (hp : Parts h .spL L R (node s a c))
    (hc : c ≠ nil) (hsz : c.size ≤ fuel)
    (hN : ∀ x ∈ nodesOf L ++ (node s a c).toList ++ nodesOf R, x ∈ N) :
    StopsAs k N h ((s, a) :: L) R c ((splayLink h (some (top L)) .spR (some a)).bind fun x =>
      splayLoop k fuel x.1 x.2.1 (some (top R)) x.2.2) := by
  have hp' : Parts h .spL L R (branch .spL s a c) := hp
  have hlink : splayLink h (some (top L)) .spR (some a) = _ := splayLink_eq hp'
  have hmem := mem_of_nodes hN
  cases c with
  | nil => exact absurd rfl hc
  | node cl b cr =>
    rw [hlink, Option.bind_some]
    refine (ih _ ((s, a) :: L) R _ b hp'.link rfl hsz (nodes_link (w := .spL) hN).1).step rfl ?_
    refine treeLinksOnly_linkChild hmem.1 fun x hx => ?_
    obtain rfl : a = x := by simpa using hx
    exact hmem.2.2 a (by simp)

end

/-- A rotation inside the current tree. -/
theorem Parts.rotate {h : Heap} {w w' : Which} {M O : List (Tree Ref × Ref)} {ll lr r : Tree Ref}
    {t y : Ref} (hp : Parts h w M O (branch w' (branch w' ll y lr) t r)) :
    Parts (h.rotate w' t y lr.root?) w M O (branch w' ll y (branch w' lr t r)) := by
  refine hp.replace_tree ?_ (fun x hx => rotate_of_notMem hx)
    (hp.tree.rotate (List.nodup_append.mp (List.nodup_append.mp hp.nodup).1).2.1)
  cases w' <;> simp [branch]

/-- The loop runs as `descend` and stops with the fragments that `descend`
assembles. -/
theorem splayLoop_spec (k : ℕ) (N : List Ref) (fuel : ℕ) : LoopStops k N fuel := by
  induction fuel with
  | zero =>
    intro h L R T t _ ht hsz
    cases T with
    | nil => simp at ht
    | node l a r => simp at hsz
  | succ fuel ih =>
    intro h L R T t hp ht hsz hN
    cases T with
    | nil => simp at ht
    | node l a r =>
      obtain rfl : a = t := by simpa using ht
      obtain ⟨hok, hl, hr, -, -, hsl, hsr⟩ := hp.tree
      obtain ⟨va, hva, hvc, -, -, -, hvs, -, -⟩ := h.cell_eq hok
      have hvl : va.spL = l.root? := by rw [← hl, ← hvc]; rfl
      have hvr : va.spR = r.root? := by rw [← hr, ← hvc]; rfl
      have hsz' : l.size + r.size ≤ fuel := by
        simp only [size_node] at hsz
        omega
      have hmem := mem_of_nodes hN
      have hnd := (List.nodup_append.mp (List.nodup_append.mp hp.nodup).1).2.1
      unfold splayLoop
      simp only [Heap.get_some, hva, Option.bind_eq_bind, Option.bind_some, hvs, hvl, hvr,
        Option.pure_def]
      rcases lt_trichotomy k (h.start a) with hlt | heq | hgt
      · -- the search goes left
        have hca := cmp_lt.mpr hlt
        rw [if_pos hlt]
        cases l with
        | nil => exact ⟨h, L, R, nil, a, r, rfl, hp, descend_left_nil hca, .refl N h, hN⟩
        | node ll y lr =>
          obtain ⟨hyok, hyl, hyr, -⟩ := hsl
          obtain ⟨vy, hvy, hvyc, -, -, -, hvys, -, -⟩ := h.cell_eq hyok
          have hvyr : vy.spR = lr.root? := by rw [← hyr, ← hvyc]; rfl
          simp only [root?_node, reduceCtorEq, if_false, Heap.get_some, hvy, Option.bind_some, hvys,
            hvyr]
          by_cases hy : k < h.start y
          · have hcy := cmp_lt.mpr hy
            have hrot : Parts (h.rotate .spL a y lr.root?) .spL L R (node ll y (node lr a r)) :=
              @Parts.rotate _ _ .spL _ _ _ _ _ _ _ hp
            obtain ⟨he1, he2⟩ := rotate_eq (w := .spL) hp.tree hnd
            have hf : TreeLinksOnly N h (h.rotate .spL a y lr.root?) :=
              treeLinksOnly_rotate (w := .spL) hmem.2.2
            have hN' : ∀ x ∈ nodesOf L ++ (node ll y (node lr a r)).toList ++ nodesOf R, x ∈ N := by
              simpa using hN
            obtain ⟨vy', hvy', hvyc', -⟩ := (h.rotate .spL a y lr.root?).cell_eq hrot.tree.1
            have hvyl' : vy'.spL = ll.root? := by rw [← hrot.tree.2.1, ← hvyc']; rfl
            simp only [Which.flip] at he2
            simp only [if_pos hy, he1, he2, Option.bind_some, hvy', hvyl', root?_eq_none]
            by_cases hll : ll = nil
            · subst hll
              exact ⟨_, L, R, nil, y, node lr a r, rfl, hrot, descend_left_left_nil hca hcy, hf,
                hN'⟩
            · rw [if_neg hll]
              have hsz'' : ll.size ≤ fuel := by
                simp only [size_node] at hsz'
                omega
              exact (ih.link_right hrot hll hsz'' hN').step (descend_left_left hca hcy hll) hf
          · rw [if_neg hy]
            exact (ih.link_right hp (by simp) (by omega) hN).step
              (descend_left hca (mt cmp_lt.mp hy)) (.refl N h)
      · rw [if_neg (by omega), if_neg (by omega)]
        refine ⟨h, L, R, l, a, r, rfl, hp, descend_match ?_, .refl N h, hN⟩
        simp [heapCmp, heq]
      · -- the search goes right
        have hca := cmp_gt.mpr hgt
        rw [if_neg (by omega), if_pos hgt]
        cases r with
        | nil => exact ⟨h, L, R, l, a, nil, rfl, hp, descend_right_nil hca, .refl N h, hN⟩
        | node rl y rr =>
          obtain ⟨hyok, hyl, hyr, -⟩ := hsr
          obtain ⟨vy, hvy, hvyc, -, -, -, hvys, -, -⟩ := h.cell_eq hyok
          have hvyl : vy.spL = rl.root? := by rw [← hyl, ← hvyc]; rfl
          simp only [root?_node, reduceCtorEq, if_false, Heap.get_some, hvy, Option.bind_some, hvys,
            hvyl]
          by_cases hy : h.start y < k
          · have hcy := cmp_gt.mpr hy
            have hrot : Parts (h.rotate .spR a y rl.root?) .spL L R (node (node l a rl) y rr) :=
              @Parts.rotate _ _ .spR _ _ _ _ _ _ _ hp
            obtain ⟨he1, he2⟩ := rotate_eq (w := .spR) hp.tree hnd
            have hf : TreeLinksOnly N h (h.rotate .spR a y rl.root?) :=
              treeLinksOnly_rotate (w := .spR) hmem.2.2
            have hN' : ∀ x ∈ nodesOf L ++ (node (node l a rl) y rr).toList ++ nodesOf R, x ∈ N := by
              simpa using hN
            obtain ⟨vy', hvy', hvyc', -⟩ := (h.rotate .spR a y rl.root?).cell_eq hrot.tree.1
            have hvyr' : vy'.spR = rr.root? := by rw [← hrot.tree.2.2.1, ← hvyc']; rfl
            simp only [Which.flip] at he2
            simp only [if_pos hy, he1, he2, Option.bind_some, hvy', hvyr', root?_eq_none]
            by_cases hrr : rr = nil
            · subst hrr
              exact ⟨_, L, R, node l a rl, y, nil, rfl, hrot, descend_right_right_nil hca hcy, hf,
                hN'⟩
            · rw [if_neg hrr]
              have hsz'' : rr.size ≤ fuel := by
                simp only [size_node] at hsz'
                omega
              exact (ih.link_left hrot hrr hsz'' hN').step (descend_right_right hca hcy hrr) hf
          · rw [if_neg hy]
            exact (ih.link_left hp (by simp) (by omega) hN).step
              (descend_right hca (mt cmp_gt.mp hy)) (.refl N h)

/-! ### Assembling -/

def closing (w : Which) (M : List (Tree Ref × Ref)) (s : Tree Ref) : Tree Ref :=
  M.foldl (fun t p => branch w p.1 p.2 t) s

@[simp] theorem closing_nil (w : Which) (s : Tree Ref) : closing w [] s = s := rfl

@[simp] theorem closing_cons (w : Which) (p : Tree Ref × Ref) (M : List (Tree Ref × Ref))
    (s : Tree Ref) : closing w (p :: M) s = closing w M (branch w p.1 p.2 s) := rfl

theorem assemble_eq (L R : List (Tree Ref × Ref)) (l r : Tree Ref) (a : Ref) :
    assemble L R l a r = node (closing .spL L l) a (closing .spR R r) := rfl

theorem closing_perm (w : Which) (M : List (Tree Ref × Ref)) (s : Tree Ref) :
    (closing w M s).toList.Perm (nodesOf M ++ s.toList) := by
  induction M generalizing s with
  | nil => exact List.Perm.refl _
  | cons p M ih =>
    rw [closing_cons, nodesOf]
    refine (ih _).trans (((branch_perm w p.1 s p.2).append_left _).trans ?_)
    rw [← List.cons_append, ← List.append_assoc]
    exact List.perm_append_comm.append_right _

theorem mem_closing {w : Which} {M : List (Tree Ref × Ref)} {s : Tree Ref} {x : Ref} :
    x ∈ (closing w M s).toList ↔ x ∈ nodesOf M ∨ x ∈ s.toList := by
  rw [(closing_perm w M s).mem_iff, List.mem_append]

theorem assemble_perm (L R : List (Tree Ref × Ref)) (l r : Tree Ref) (a : Ref) :
    (assemble L R l a r).toList.Perm (nodesOf L ++ (node l a r).toList ++ nodesOf R) := by
  have h1 := (closing_perm .spL L l).append (((closing_perm .spR R r).trans
    List.perm_append_comm).cons a)
  simpa [assemble_eq] using h1

theorem Spine.closed {h : Heap} {w : Which} {M : List (Tree Ref × Ref)} {s : Tree Ref}
    (hM : Spine h w M) (hs : Shape h s) (hc : h.child w.flip (top M) = s.root?)
    (hu : Up h (top M) s) :
    Shape h (closing w M s) ∧ h.child w.flip .stack = (closing w M s).root? ∧
      Up h .stack (closing w M s) := by
  induction M generalizing s with
  | nil => exact ⟨hs, hc, hu⟩
  | cons p M ih =>
    obtain ⟨ha, hc1, hu1, hs1, hp, ht, hM⟩ := hM
    refine ih hM (shape_branch.mpr ⟨ha, hc1, hc, hu1, hu, hs1, hs⟩) (by rw [ht, root?_branch]) ?_
    intro x hx
    obtain rfl : p.2 = x := by simpa using hx
    exact hp

/-- The first two `MAKE_CHILD`s of the assembly, for one side. -/
theorem Spine.fill {h : Heap} {w : Which} {M : List (Tree Ref × Ref)} {s : Tree Ref}
    (hst : h.Ok .stack) (hsp : h.par .stack = none) (hM : Spine h w M) (hs : Shape h s)
    (hnd : (nodesOf M ++ s.toList).Nodup) (hns : .stack ∉ nodesOf M ++ s.toList) :
    makeChild h (some (top M)) w.flip s.root? = some (h.linkChild (top M) w.flip s.root?) ∧
      Shape (h.linkChild (top M) w.flip s.root?) (closing w M s) ∧
      (h.linkChild (top M) w.flip s.root?).child w.flip .stack = (closing w M s).root? ∧
      Up (h.linkChild (top M) w.flip s.root?) .stack (closing w M s) ∧
      (h.linkChild (top M) w.flip s.root?).par .stack = none := by
  obtain ⟨hndM, hnds, hdis⟩ := List.nodup_append.mp hnd
  simp only [List.mem_append, not_or] at hns
  have hok : h.Ok (top M) := by
    cases M with
    | nil => exact hst
    | cons p M => exact hM.1
  have htop {x : Ref} (hx : x ∈ s.toList) : x ≠ top M := by
    rcases top_mem M with h0 | h0
    · rw [h0]
      exact fun he => hns.2 (he ▸ hx)
    · exact (hdis _ h0 _ hx).symm
  have hroot : ∀ x, s.root? = some x → h.Ok x ∧ x ≠ top M := by
    intro x hx
    refine ⟨?_, htop (root?_mem hx)⟩
    cases s with
    | nil => simp at hx
    | node l b r => obtain rfl : b = x := by simpa using hx
                    exact hs.1
  have hpar (x : Ref) := par_linkChild (w := w.flip) hok hroot x
  -- the opening's own parent link is never the new child
  have hparM : (if h.par (top M) = s.root? then none else h.par (top M)) = h.par (top M) := by
    split_ifs with he
    · cases M with
      | nil => rw [top_nil, hsp]
      | cons p M =>
        rw [top_cons, hM.2.2.2.2.1] at he
        have hts := root?_mem he.symm
        rcases top_mem M with h0 | h0
        · exact absurd (h0 ▸ hts) hns.2
        · exact absurd rfl (hdis _ (by simp [nodesOf, h0]) _ hts)
    · rfl
  have hne_root {x : Ref} (hx : x ∈ nodesOf M) : some x ≠ s.root? :=
    fun he => hdis x hx x (root?_mem he.symm) rfl
  refine ⟨makeChild_eq _ hok hroot, ?_⟩
  have hM' : Spine (h.linkChild (top M) w.flip s.root?) w M := by
    refine hM.congr hndM hns.1 (fun x _ => (ok_linkChild x).mpr) (fun x hx => ?_)
      fun x w' _ hx' => ?_
    · rw [hpar, hparM, if_neg (hne_root hx)]
      split_ifs with h1
      · rw [h1]
      · rfl
    · rw [child_linkChild hok, if_neg hx']
  have hs' : Shape (h.linkChild (top M) w.flip s.root?) s := by
    refine hs.congr (fun x _ => (ok_linkChild x).mpr) (fun x hx w' => ?_) fun x hx => ?_
    · rw [child_linkChild hok, if_neg fun he => htop hx he.1]
    · rw [hpar, if_neg (htop (below_subset hx)), if_neg fun he => below_ne_root hnds hx he.symm]
  have hclosed := hM'.closed hs' (by rw [child_linkChild hok, if_pos ⟨rfl, rfl⟩]) ?_
  · refine ⟨hclosed.1, hclosed.2.1, hclosed.2.2, ?_⟩
    rw [hpar, hparM]
    split_ifs with h1 h2
    · rw [← h1, hsp]
    · exact absurd (root?_mem h2.symm) hns.2
    · exact hsp
  · intro x hx
    rw [hpar, if_neg (hroot x hx).2, if_pos hx.symm]

theorem fill_outside {h : Heap} {w' : Which} {M : List (Tree Ref × Ref)} {s : Tree Ref} {x : Ref}
    (hx : x ≠ .stack) (hM : x ∉ nodesOf M) (hs : x ∉ s.toList) :
    (h.linkChild (top M) w' s.root?).cell x = h.cell x := by
  refine linkChild_of_ne ?_ fun he => hs (root?_mem he.symm)
  rcases top_mem M with h0 | h0
  · rwa [h0]
  · exact fun he => hM (he ▸ h0)

theorem Shape.ok_mem {h : Heap} {t : Tree Ref} (hs : Shape h t) {x : Ref} (hx : x ∈ t.toList) :
    h.Ok x := by
  induction t with
  | nil => simp at hx
  | node l a r ihl ihr =>
    obtain ⟨ha, -, -, -, -, hl, hr⟩ := hs
    simp only [toList_node, List.mem_append, List.mem_cons] at hx
    rcases hx with hx | rfl | hx
    · exact ihl hl hx
    · exact ha
    · exact ihr hr hx

theorem Shape.root_ok {h : Heap} {t : Tree Ref} (hs : Shape h t) {x : Ref}
    (hx : t.root? = some x) : h.Ok x := hs.ok_mem (root?_mem hx)

theorem Shape.of_cell {h h' : Heap} {t : Tree Ref} (hs : Shape h t)
    (hc : ∀ x ∈ t.toList, h'.cell x = h.cell x) : Shape h' t :=
  hs.congr (fun x hx => (ok_of_cell (hc x hx)).mpr) (fun x hx => child_of_cell (hc x hx))
    fun x hx => par_of_cell (hc x (below_subset hx))

theorem treeLinksOnly_clearPar {N : List Ref} {h : Heap} {a : Ref} (ha : a ∈ N) :
    TreeLinksOnly N h (h.clearPar a) :=
  ⟨rfl, ok_clearPar, data_clearPar, fun _ _ hx => cell_clearPar_of_ne fun he => hx (he ▸ ha)⟩

/-- Giving `a` the tree `t` as child on side `w`, where `t` is apart from `a`. -/
theorem Shape.adopt {h : Heap} {w : Which} {t : Tree Ref} {a : Ref} (ha : h.Ok a)
    (ht : Shape h t) (hat : a ∉ t.toList) (hnd : t.toList.Nodup) :
    makeChild h (some a) w t.root? = some (h.linkChild a w t.root?) ∧
      Shape (h.linkChild a w t.root?) t ∧ Up (h.linkChild a w t.root?) a t ∧
      (∀ x, x ≠ a → x ∉ t.toList → (h.linkChild a w t.root?).cell x = h.cell x) := by
  have hroot : ∀ x, t.root? = some x → h.Ok x ∧ x ≠ a := fun x hx =>
    ⟨ht.root_ok hx, fun he => hat (he ▸ root?_mem hx)⟩
  refine ⟨makeChild_eq w ha hroot, ?_, ?_, ?_⟩
  · have hne {x : Ref} (hx : x ∈ t.toList) : x ≠ a := fun he => hat (he ▸ hx)
    refine ht.congr (fun x _ => (ok_linkChild x).mpr) (fun x hx w' => ?_) fun x hx => ?_
    · rw [child_linkChild ha, if_neg fun he => hne hx he.1]
    · rw [par_linkChild ha hroot, if_neg (hne (below_subset hx)),
        if_neg fun he => below_ne_root hnd hx he.symm]
  · intro x hx
    rw [par_linkChild ha hroot, if_neg (hroot x hx).2, if_pos hx.symm]
  · exact fun x hxa hxt => linkChild_of_ne hxa fun he => hxt (root?_mem he.symm)

/-- Two finished trees, found through the stack node, become the parts of `a`. -/
theorem attach_spec {h : Heap} {A B : Tree Ref} {a : Ref} (ha : h.Ok a) (hst : h.Ok .stack)
    (hA : Shape h A) (hB : Shape h B) (hcA : h.child .spR .stack = A.root?)
    (hcB : h.child .spL .stack = B.root?) (hnd : (A.toList ++ a :: B.toList).Nodup)
    (hns : .stack ∉ A.toList ++ a :: B.toList) :
    ∃ h1 h2 vn vn', h.cell .stack = some vn ∧ makeChild h (some a) .spL vn.spR = some h1 ∧
      h1.cell .stack = some vn' ∧ makeChild h1 (some a) .spR vn'.spL = some h2 ∧
      h2.upd (some a) (fun v => { v with spP := none }) = some (h2.clearPar a) ∧
      Shape (h2.clearPar a) (node A a B) ∧
      TreeLinksOnly (node A a B).toList h (h2.clearPar a) ∧ (h2.clearPar a).par a = none := by
  simp only [List.mem_append, List.mem_cons, not_or] at hns
  obtain ⟨hndA, hndB, hAB⟩ := List.nodup_append.mp hnd
  obtain ⟨haB, hndB⟩ := List.nodup_cons.mp hndB
  have haA : a ∉ A.toList := fun hx => hAB a hx a (by simp) rfl
  have hdis : ∀ x ∈ A.toList, x ∉ B.toList := fun x hx hx' => hAB x hx x (by simp [hx']) rfl
  obtain ⟨vn, hvn, hvnc, -⟩ := h.cell_eq hst
  have hvnR : vn.spR = A.root? := by rw [← hcA, ← hvnc]; rfl
  obtain ⟨he1, hA1, huA1, hout1⟩ := hA.adopt (w := .spL) ha haA hndA
  set h1 := h.linkChild a .spL A.root? with hh1
  have ha1 : h1.Ok a := (ok_linkChild a).mpr ha
  have hB1 : Shape h1 B := hB.of_cell fun x hx =>
    hout1 x (fun he => haB (he ▸ hx)) fun hx' => hdis x hx' hx
  have hstc : h1.cell .stack = h.cell .stack := hout1 .stack hns.2.1 hns.1
  have hvn1 : h1.cell .stack = some vn := hstc.trans hvn
  have hvnL : vn.spL = B.root? := by rw [← hcB, ← hvnc]; rfl
  obtain ⟨he2, hB2, huB2, hout2⟩ := hB1.adopt (w := .spR) ha1 haB hndB
  set h2 := h1.linkChild a .spR B.root? with hh2
  have ha2 : h2.Ok a := (ok_linkChild a).mpr ha1
  have hA2 : Shape h2 A := hA1.of_cell fun x hx => hout2 x (fun he => haA (he ▸ hx)) (hdis x hx)
  have hf1 : TreeLinksOnly (node A a B).toList h h1 :=
    treeLinksOnly_linkChild (Or.inr (by simp)) fun x hx => by simp [root?_mem hx]
  have hf2 : TreeLinksOnly (node A a B).toList h1 h2 :=
    treeLinksOnly_linkChild (Or.inr (by simp)) fun x hx => by simp [root?_mem hx]
  refine ⟨h1, h2, vn, vn, hvn, by rw [hvnR]; exact he1, hvn1, by rw [hvnL]; exact he2,
    h2.upd_eq ha2 _, ⟨(ok_clearPar a).mpr ha2, ?_, ?_, ?_, ?_, ?_, ?_⟩,
    (hf1.trans hf2).trans (treeLinksOnly_clearPar (by simp)), by rw [par_clearPar, if_pos rfl]⟩
  · rw [child_clearPar, hh2, child_linkChild ha1, if_neg (by simp), hh1, child_linkChild ha,
      if_pos ⟨rfl, rfl⟩]
  · rw [child_clearPar, hh2, child_linkChild ha1, if_pos ⟨rfl, rfl⟩]
  · intro x hx
    have hxA := root?_mem hx
    have hxa : x ≠ a := fun he => haA (he ▸ hxA)
    rw [par_clearPar, if_neg hxa, par_of_cell (hout2 x hxa (hdis x hxA)), huA1 x hx]
  · intro x hx
    have hxa : x ≠ a := fun he => haB (he ▸ root?_mem hx)
    rw [par_clearPar, if_neg hxa, huB2 x hx]
  · exact hA2.of_cell fun x hx => cell_clearPar_of_ne fun he => haA (he ▸ hx)
  · exact hB2.of_cell fun x hx => cell_clearPar_of_ne fun he => haB (he ▸ hx)

/-- The assembly turns the fragments at the loop's end into one tree. -/
theorem splayAssemble_spec {h : Heap} {L R : List (Tree Ref × Ref)} {l r : Tree Ref} {a : Ref}
    {N : List Ref} (hp : Parts h .spL L R (node l a r))
    (hN : ∀ x ∈ nodesOf L ++ (node l a r).toList ++ nodesOf R, x ∈ N) :
    ∃ h', splayAssemble h (some (top L)) (some (top R)) (some a) = some h' ∧
      Shape h' (assemble L R l a r) ∧ TreeLinksOnly N h h' ∧ h'.par a = none := by
  obtain ⟨hst, hsp, hL, hR, ⟨hok, hcl, hcr, -, -, hl, hr⟩, hnd, hns⟩ := hp
  simp only [toList_node, List.mem_append, List.mem_cons, not_or] at hns hN
  have hdis {x y : Ref} := fragments_ne hnd (x := x) (y := y)
  obtain ⟨hndLT, hndR, -⟩ := List.nodup_append.mp hnd
  obtain ⟨hndL, hndT, -⟩ := List.nodup_append.mp hndLT
  obtain ⟨hndl, hndr, hlr⟩ := List.nodup_append.mp hndT
  obtain ⟨har, hndr⟩ := List.nodup_cons.mp hndr
  obtain ⟨va, hva, hvac, -⟩ := h.cell_eq hok
  have hvl : va.spL = l.root? := by rw [← hcl, ← hvac]; rfl
  have hvr : va.spR = r.root? := by rw [← hcr, ← hvac]; rfl
  -- the left partial tree gets the left part
  have hndLl : (nodesOf L ++ l.toList).Nodup :=
    List.nodup_append.mpr ⟨hndL, hndl, fun x hx y hy => hdis.1 hx (by simp [hy])⟩
  obtain ⟨he1, hA1, hcA1, huA1, hsp1⟩ := Spine.fill (w := .spL) hst hsp hL hl hndLl
    (by simp [hns])
  set h1 := h.linkChild (top L) .spR l.root? with hh1
  have hout1 {x : Ref} (hx : x ≠ .stack) (hxL : x ∉ nodesOf L) (hxl : x ∉ l.toList) :
      h1.cell x = h.cell x := fill_outside hx hxL hxl
  have has : a ≠ .stack := fun he => hns.1.2.2.1 he.symm
  have haL : a ∉ nodesOf L := fun hx => hdis.1 hx (by simp) rfl
  have hal : a ∉ l.toList := fun hx => hlr a hx a (by simp) rfl
  have hva1 : h1.cell a = some va := (hout1 has haL hal).trans hva
  have hR1 : Spine h1 .spR R := by
    have hRc {x : Ref} (hx : x ∈ nodesOf R) : h1.cell x = h.cell x :=
      hout1 (fun he => hns.2 (he ▸ hx)) (fun hx' => hdis.2.1 hx' hx rfl)
        fun hx' => hdis.2.2 (by simp [hx']) hx rfl
    have hokL : h.Ok (top L) := by
      cases L with
      | nil => exact hst
      | cons p L => exact hL.1
    refine hR.congr hndR hns.2 (fun x hx => (ok_of_cell (hRc hx)).mpr)
      (fun x hx => par_of_cell (hRc hx)) ?_
    rintro x w' (hx | ⟨rfl, rfl⟩) -
    · exact child_of_cell (hRc hx) w'
    · rw [hh1, child_linkChild hokL, if_neg fun he => absurd he.2 (by decide)]
  have hr1 : Shape h1 r := hr.of_cell fun x hx => hout1
    (fun he => hns.1.2.2.2 (he ▸ hx)) (fun hx' => hdis.1 hx' (by simp [hx]) rfl)
    fun hx' => hlr x hx' x (by simp [hx]) rfl
  -- the right partial tree gets the right part
  have hndRr : (nodesOf R ++ r.toList).Nodup :=
    List.nodup_append.mpr ⟨hndR, hndr, fun x hx y hy => (hdis.2.2 (by simp [hy]) hx).symm⟩
  obtain ⟨he2, hB2, hcB2, huB2, -⟩ := Spine.fill (w := .spR) ((ok_linkChild _).mpr hst) hsp1 hR1 hr1
    hndRr (by simp [hns])
  set h2 := h1.linkChild (top R) .spL r.root? with hh2
  have hout2 {x : Ref} (hx : x ≠ .stack) (hxR : x ∉ nodesOf R) (hxr : x ∉ r.toList) :
      h2.cell x = h1.cell x := fill_outside hx hxR hxr
  have hokR : h1.Ok (top R) := by
    cases R with
    | nil => exact (ok_linkChild _).mpr hst
    | cons p R => exact hR1.1
  have hA2 : Shape h2 (closing .spL L l) := by
    refine hA1.of_cell fun x hx => ?_
    rcases mem_closing.mp hx with hx | hx
    · exact hout2 (fun he => hns.1.1 (he ▸ hx)) (fun hx' => hdis.2.1 hx hx' rfl)
        fun hx' => hdis.1 hx (by simp [hx']) rfl
    · exact hout2 (fun he => hns.1.2.1 (he ▸ hx)) (fun hx' => hdis.2.2 (by simp [hx]) hx' rfl)
        fun hx' => hlr x hx x (by simp [hx']) rfl
  have hcA2 : h2.child .spR .stack = (closing .spL L l).root? := by
    rw [hh2, child_linkChild hokR, if_neg fun he => absurd he.2 (by decide)]
    exact hcA1
  have hperm := assemble_perm L R l r a
  have ha2 : h2.Ok a := (ok_linkChild a).mpr ((ok_linkChild a).mpr hok)
  have hst2 : h2.Ok .stack := (ok_linkChild _).mpr ((ok_linkChild _).mpr hst)
  obtain ⟨h3, h4, vn, vn', hvn, he3, hvn', he4, he5, hshape, hf, hpar⟩ :=
    attach_spec ha2 hst2 hA2 hB2 hcA2 hcB2 (hperm.nodup_iff.mpr hnd)
      (mt hperm.mem_iff.mp (by simp [hns]))
  have hf1 : TreeLinksOnly N h h1 := treeLinksOnly_linkChild
    ((top_mem L).imp_right fun hx => hN _ (by simp [hx])) fun x hx => hN x (by simp [root?_mem hx])
  have hf2 : TreeLinksOnly N h1 h2 := treeLinksOnly_linkChild
    ((top_mem R).imp_right fun hx => hN _ (by simp [hx])) fun x hx => hN x (by simp [root?_mem hx])
  refine ⟨_, ?_, hshape, (hf1.trans hf2).trans (hf.mono fun x hx => ?_), hpar⟩
  · unfold splayAssemble
    have he1' : makeChild h (some (top L)) .spR l.root? = some h1 := he1
    have he2' : makeChild h1 (some (top R)) .spL r.root? = some h2 := he2
    simp only [Heap.get_some, hva, hvl, hva1, hvr, he1', he2', hvn, he3, hvn', he4, he5,
      Option.bind_eq_bind, Option.bind_some]
  · have := hperm.mem_iff.mp hx
    simp only [toList_node, List.mem_append, List.mem_cons] at this
    exact hN x this

/-! ### The whole function -/

theorem Shape.stack_notMem {h : Heap} {T : Tree Ref} (hs : Shape h T) (hst : h.cell .stack = none) :
    .stack ∉ T.toList := fun hx => by
  have := hs.ok_mem hx
  rw [Heap.Ok, hst] at this
  simp at this

/-- Distinct structs have distinct addresses, so no tree is too large for the loop. -/
theorem size_le_bound {T : Tree Ref} (hnd : T.toList.Nodup) (hns : .stack ∉ T.toList) :
    T.size ≤ LOOP_BOUND := by
  let key : Ref → Fin (2 ^ 64) := fun x => match x with
    | .stack => 0
    | .vma a => a.toFin
  have hkey : (T.toList.map key).Nodup := by
    refine List.Nodup.map_on (fun x hx y hy he => ?_) hnd
    match x, y with
    | .stack, _ => exact absurd hx hns
    | _, .stack => exact absurd hy hns
    | .vma a, .vma b => exact congrArg Ref.vma (BitVec.eq_of_toFin_eq he)
  have hle := hkey.length_le_card
  rwa [Fintype.card_fin, List.length_map, length_toList] at hle

@[simp] theorem cell_put (h : Heap) (r x : Ref) (v : Option VmArea) :
    (h.put r v).cell x = if x = r then v else h.cell x := by
  by_cases hx : x = r
  · subst hx; simp [Heap.put]
  · simp [Heap.put, hx]

theorem start_put_splayN {h : Heap} (hst : h.cell .stack = none) (x : Ref) :
    (h.put .stack (some splayN)).start x = h.start x := by
  unfold Heap.start
  rw [cell_put]
  split_ifs with hx
  · subst hx; rw [hst]; rfl
  · rfl

/-- `S_sp_tree_splay` leaves the splayed tree in memory. -/
theorem sSpTreeSplay_eq {h : Heap} {T : Tree Ref} (k : ℕ) (hs : Shape h T) (hnd : T.toList.Nodup)
    (hst : h.cell .stack = none) (hT : T ≠ nil) :
    ∃ h' l a r, splay (heapCmp h k) T = node l a r ∧
      sSpTreeSplay h k T.root? = some (h', some a) ∧ Shape h' (node l a r) ∧
      h'.par a = none ∧ h'.cell .stack = none ∧ TreeLinksOnly T.toList h h' := by
  have hns := hs.stack_notMem hst
  obtain ⟨t, ht⟩ : ∃ t, T.root? = some t := by
    cases T with
    | nil => exact absurd rfl hT
    | node l a r => exact ⟨a, rfl⟩
  set h0 := h.put .stack (some splayN) with hh0
  have hcell0 {x : Ref} (hx : x ≠ .stack) : h0.cell x = h.cell x := by rw [hh0, cell_put, if_neg hx]
  have hp : Parts h0 .spL [] [] T := by
    refine ⟨by simp [Heap.Ok, hh0], by simp [Heap.par, hh0, splayN], trivial, trivial, ?_,
      by simpa [nodesOf] using hnd, by simpa [nodesOf] using hns⟩
    exact hs.of_cell fun x hx => hcell0 fun he => hns (he ▸ hx)
  have hcmp : heapCmp h0 k = heapCmp h k := by
    funext x
    rw [heapCmp, heapCmp, start_put_splayN hst]
  obtain ⟨h1, L, R, l, a, r, he1, hp1, hd, hf1, hN⟩ := splayLoop_spec k T.toList LOOP_BOUND h0 [] []
    T t hp ht (size_le_bound hnd hns) (by simp [nodesOf])
  obtain ⟨h2, he2, hs2, hf2, hpar⟩ := splayAssemble_spec hp1 hN
  have hf := hf1.trans hf2
  rw [hcmp] at hd
  have hlist : (assemble L R l a r).toList = T.toList := by
    rw [← hd, ← toList_splay (heapCmp h k) T, splay]
  have hne {x : Ref} (hx : x ∈ (assemble L R l a r).toList) : x ≠ .stack :=
    fun he => hns (he ▸ hlist ▸ hx)
  have hcell2 {x : Ref} (hx : x ≠ .stack) : (h2.put .stack none).cell x = h2.cell x := by
    rw [cell_put, if_neg hx]
  refine ⟨h2.put .stack none, closing .spL L l, a, closing .spR R r, hd, ?_, ?_, ?_, by simp, ?_⟩
  · unfold sSpTreeSplay
    simp only [ht, reduceCtorEq, if_false, ← hh0, Option.bind_eq_bind]
    simp only [top_nil] at he1
    simp only [he1, he2, Option.bind_some, Option.pure_def]
  · exact hs2.of_cell fun x hx => hcell2 (hne hx)
  · rw [par_of_cell (hcell2 (hne (by simp [assemble]))), hpar]
  · refine ⟨?_, fun x => ?_, fun x => ?_, fun x hx hx' => ?_⟩
    · rw [Heap.put, hf.same]
      rfl
    · by_cases hx : x = .stack
      · subst hx
        simp [Heap.Ok, hst]
      · rw [ok_of_cell (hcell2 hx), hf.ok, ok_of_cell (hcell0 hx)]
    · by_cases hx : x = .stack
      · subst hx
        simp [Heap.data, hst]
      · have h1 := hf.data x
        unfold Heap.data at h1 ⊢
        rw [hcell2 hx, h1, hcell0 hx]
    · rw [hcell2 hx, hf.outside x hx hx', hcell0 hx]

/-- On a tree sorted by `vm_start`, the new root parts the structs that start
below the address from those that start above it. -/
theorem sSpTreeSplay_spec {h : Heap} {T : Tree Ref} (k : ℕ) (hs : Shape h T)
    (hsort : T.toList.Pairwise fun a b => h.start a < h.start b) (hst : h.cell .stack = none)
    (hT : T ≠ nil) :
    ∃ h' l a r, splay (heapCmp h k) T = node l a r ∧ sSpTreeSplay h k T.root? = some (h', some a) ∧
      Shape h' (node l a r) ∧ h'.par a = none ∧ h'.cell .stack = none ∧
      TreeLinksOnly T.toList h h' ∧
      l.toList ++ a :: r.toList = T.toList ∧
      (∀ b ∈ l.toList, h.start b < k) ∧ ∀ b ∈ r.toList, k < h.start b := by
  have hnd : T.toList.Nodup := hsort.imp fun {a b} hab he => by subst he; omega
  have hm : Monotone (heapCmp h k) T.toList := hsort.imp fun {a b} hab => by
    rw [cmp_gt, cmp_lt]
    omega
  obtain ⟨h', l, a, r, hsp, he, hs', hpar, hst', hf⟩ := sSpTreeSplay_eq k hs hnd hst hT
  obtain ⟨l', a', r', hsp', hl, hr⟩ := splay_split hT hnd hm
  obtain ⟨rfl, rfl, rfl⟩ : l = l' ∧ a = a' ∧ r = r' := by simpa [hsp] using hsp'
  refine ⟨h', l, a, r, hsp, he, hs', hpar, hst', hf, ?_, fun b hb => cmp_gt.mp (hl b hb),
    fun b hb => cmp_lt.mp (hr b hb)⟩
  rw [← toList_splay (heapCmp h k) T, hsp, toList_node]

end OpenOOC
