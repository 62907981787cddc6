import OpenOOC.SpTree.Uncovered

/-! The loop of `sp_tree_free`: each turn takes the root out and frees it, and
what is left is again a tree, with one struct less. -/

namespace OpenOOC

open SplayTree SplayTree.Tree

variable {h h' h'' : Heap} {T T' : Tree Ref}

/-- A struct that `vma_alloc` hands out: behind the header of its block. -/
def SlabRef : Ref → Prop
  | .stack => False
  | .vma a => a.toNat % 8 = 0 ∧ a.toNat % BLOCK_SIZE ≠ 0

theorem SlabRef.aligned {x : Ref} (hx : SlabRef x) : x.Aligned := by
  cases x with
  | stack => trivial
  | vma a => exact hx.1

/-- `h'` is `h` after each struct of `T` went once to `S_sp_node_free`. -/
structure FreesAll (h : Heap) (T : Tree Ref) (h' : Heap) : Prop where
  empty : Rep h' nil
  once : ∃ freed : List Addr, h'.calls = h.calls ++ freed.map .free ∧
    (freed.map Ref.vma).Perm T.toList
  gone : ∀ x ∈ T.toList, h'.cell x = none
  kept : ∀ x, x ∉ T.toList → h'.range x = h.range x
  supply : h'.supply = h.supply

theorem FreesAll.nil (hr : Rep h nil) : FreesAll h nil h := by
  refine ⟨hr, ⟨[], by simp, by simp⟩, by simp, fun _ _ => rfl, rfl⟩

theorem cell_none_of_range {x : Ref} (hx : h.range x = none) : h.cell x = none := by
  simpa [Heap.range] using hx

theorem range_of_cell_none {x : Ref} (hx : h.cell x = none) : h.range x = none := by
  simp [Heap.range, hx]

/-- One turn: the root goes, and the structs that stay are freed later. -/
theorem FreesAll.cons {a : Addr} {L1 L2 : List Ref} (hT : T.toList = L1 ++ .vma a :: L2)
    (hnd : T.toList.Nodup) (hT' : T'.toList = L1 ++ L2) (hsup : h'.supply = h.supply)
    (hcalls : h'.calls = h.calls ++ [.free a]) (hother : ∀ x, x ≠ .vma a → h'.range x = h.range x)
    (hgone : h'.cell (.vma a) = none) (hf : FreesAll h' T' h'') : FreesAll h T h'' := by
  have hperm : T.toList.Perm (.vma a :: T'.toList) := by
    rw [hT, hT']
    exact List.perm_middle
  have ha : .vma a ∉ T'.toList := (List.nodup_cons.mp (hperm.nodup_iff.mp hnd)).1
  obtain ⟨freed, hfreed, hfp⟩ := hf.once
  refine ⟨hf.empty, ⟨a :: freed, ?_, ?_⟩, ?_, ?_, hf.supply.trans hsup⟩
  · rw [hfreed, hcalls, List.map_cons, List.append_assoc, List.singleton_append]
  · rw [List.map_cons]
    exact (hfp.cons _).trans hperm.symm
  · intro x hx
    rcases List.mem_cons.mp (hperm.mem_iff.mp hx) with rfl | hx
    · apply cell_none_of_range
      rw [hf.kept _ ha]
      exact range_of_cell_none hgone
    · exact hf.gone x hx
  · intro x hx
    rw [hperm.mem_iff, List.mem_cons, not_or] at hx
    rw [hf.kept x hx.2, hother x hx.1]

theorem spTreeFreeLoop_frees (fuel : ℕ) (hr : Rep h T) (hslab : ∀ x ∈ T.toList, SlabRef x)
    (hsize : T.size < fuel) : ∃ h', spTreeFreeLoop fuel h = some h' ∧ FreesAll h T h' := by
  induction fuel generalizing h T with
  | zero => omega
  | succ fuel ih =>
    cases hT : T with
    | nil =>
      rw [hT] at hr
      exact ⟨h, by simp [spTreeFreeLoop, hr.root], .nil hr⟩
    | node l t r =>
      have htT : t ∈ T.toList := by simp [hT]
      obtain ⟨a, rfl⟩ : ∃ a, t = .vma a := ref_ne_stack fun he => by
        simpa [he, SlabRef] using hslab t htT
      obtain ⟨h1, T1, L1, L2, he1, hr1, hlist, hlist1, hsup1, hcalls1, hother1, hfree1⟩ :=
        spTreeRemove_spec hr (fun x hx => (hslab x hx).aligned) htT
      rw [if_neg (hslab _ htT).2] at hfree1
      have hslab1 : ∀ x ∈ T1.toList, SlabRef x := fun x hx => by
        apply hslab x
        rw [hlist1, List.mem_append] at hx
        rw [hlist, List.mem_append, List.mem_cons]
        tauto
      have hsize1 : T1.size < fuel := by
        have h1 := congrArg List.length hlist
        have h2 := congrArg List.length hlist1
        simp only [length_toList, List.length_append, List.length_cons] at h1 h2
        omega
      obtain ⟨h2, he2, hf2⟩ := ih hr1 hslab1 hsize1
      rw [← hT]
      refine ⟨h2, ?_, hf2.cons hlist hr.nodup hlist1 hsup1 hcalls1 hother1 hfree1⟩
      -- the loop re-reads the start of its root before it looks for it
      obtain ⟨v, hv, -, -, -, -, hvs, -⟩ := h.cell_eq (hr.ok htT)
      have hroot : h.root = some (.vma a) := by rw [hr.root, hT]; rfl
      unfold spTreeFreeLoop
      simp only [hroot, reduceCtorEq, if_false, Heap.get_some, hv, hvs, he1, he2,
        Option.bind_eq_bind,
        Option.bind_some]

/-- Wherever the structs come from, a loop that returns has freed them all. -/
theorem calls_of_spTreeFreeLoop (fuel : ℕ) {S : Finset Node} (hh : Holds h S T)
    (he : spTreeFreeLoop fuel h = some h') :
    ∃ freed : List Addr, h'.calls = h.calls ++ freed.map .free ∧ ∀ n ∈ S, n.addr ∈ freed := by
  induction fuel generalizing h S T with
  | zero => cases he
  | succ fuel ih =>
    unfold spTreeFreeLoop at he
    by_cases hroot : h.root = none
    · rw [if_pos hroot] at he
      obtain rfl := Option.some.inj he
      refine ⟨[], by simp, fun n hn => ?_⟩
      have hT : T = nil := root?_eq_none.mp (hh.rep.root ▸ hroot)
      simpa [hT] using hh.ref_mem hn
    · rw [if_neg hroot] at he
      obtain ⟨x, hx⟩ := Option.ne_none_iff_exists'.mp hroot
      obtain ⟨n, hn, rfl, -⟩ := hh.node_of_mem (root?_mem (hh.rep.root ▸ hx))
      obtain ⟨v, hv, -, -, -, hvs, -⟩ := hh.linked.cell hn
      obtain ⟨h1, T1, he1, hh1, -, -, hcalls1, -⟩ := hh.remove_frame hn
      have he1 : spTreeRemove h n.start = some h1 := he1
      simp only [hx, Heap.get_some, hv, hvs, he1, Option.bind_eq_bind, Option.bind_some] at he
      obtain ⟨freed, hcalls, hall⟩ := ih hh1 he
      refine ⟨n.addr :: freed, by simp [hcalls, hcalls1], fun m hm => ?_⟩
      by_cases hmn : m.start = n.start
      · rw [hh.linked.eq_of_start hm hn hmn]
        exact List.mem_cons_self
      · exact List.mem_cons_of_mem _ (hall m (Finset.mem_filter.mpr ⟨hm, hmn⟩))

/-- `sp_tree_free` ends with an empty tree, and has freed each struct of the tree
once and nothing else. -/
theorem spTreeFree_frees_all (hr : Rep h T) (hslab : ∀ x ∈ T.toList, SlabRef x) :
    ∃ h', spTreeFree h = some h' ∧ FreesAll h T h' := by
  apply spTreeFreeLoop_frees LOOP_BOUND hr hslab
  -- address 0 starts a page, so it is not in the tree
  have h0 : .vma 0 ∉ T.toList := fun hx => (hslab _ hx).2 (by decide)
  have hle := size_le_bound (T := node nil (.vma 0) T) (List.nodup_cons.mpr ⟨h0, hr.nodup⟩)
    (by simpa using hr.stack_notMem)
  rw [size_node, size_nil] at hle
  omega

theorem spTreeFree_frees_all_two :
    ∃ h', spTreeFree (twoNodes ⟨72, VM_PROT_READ, 0, 4096⟩ ⟨136, VM_PROT_READ, 8192, 20480⟩ []) =
      some h' ∧
      FreesAll (twoNodes ⟨72, VM_PROT_READ, 0, 4096⟩ ⟨136, VM_PROT_READ, 8192, 20480⟩ [])
        (node (node nil (.vma 72) nil) (.vma 136) nil) h' :=
  spTreeFree_frees_all (twoNodes_holds (by decide) (by decide) (by decide) (by decide)).rep
    (by simp [SlabRef, BLOCK_SIZE])

end OpenOOC
