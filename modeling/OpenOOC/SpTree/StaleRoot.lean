import OpenOOC.SpTree.InsertBelow

/-! The splits of `sp_tree_find_mod_and_lock` from whatever struct of the tree
`sp->root` points to: they return, and the new struct is the root. -/

namespace OpenOOC

open Links SplayTree SplayTree.Tree Returns

variable {ps : PageSize} {h h' h'' : Heap} {S : Finset Node} {T : Tree Ref} {n : Node} {k : ℕ}
  {X Z : Ref → Prop}
  {x r : Ref} {z y : Addr} {v w : VmArea} {rest : List (Option (Addr × VmArea))}
    {f : VmArea → VmArea}

/-- `z` is the root of the tree, as `S_sp_tree_find_mod_and_lock_test_3` asserts it. -/
def IsRoot (h : Heap) (z : Ptr) : Prop := h.root = z ∧ ∃ v, h.get z = some v ∧ v.spP = none

/-! ### Memory before the insertion -/

/-- `h'` is `h` but for the structs of `Z`, flags and ranges. -/
structure SameLinks (Z : Ref → Prop) (h h' : Heap) : Prop where
  root : h'.root = h.root
  child : ∀ w x, ¬ Z x → h'.child w x = h.child w x
  par : ∀ x, ¬ Z x → h'.par x = h.par x
  next : ∀ x, ¬ Z x → h'.next x = h.next x
  prev : ∀ x, ¬ Z x → h'.prev x = h.prev x
  ok : ∀ x, ¬ Z x → (h'.Ok x ↔ h.Ok x)

namespace SameLinks

theorem trans (h1 : SameLinks Z h h') (h2 : SameLinks Z h' h'') : SameLinks Z h h'' :=
  ⟨h2.root.trans h1.root, fun w x hx => (h2.child w x hx).trans (h1.child w x hx),
    fun x hx => (h2.par x hx).trans (h1.par x hx), fun x hx => (h2.next x hx).trans (h1.next x hx),
    fun x hx => (h2.prev x hx).trans (h1.prev x hx), fun x hx => (h2.ok x hx).trans (h1.ok x hx)⟩

theorem withNode (hz : Z (.vma z)) (v : VmArea) : SameLinks Z h (h.withNode z v) := by
  have hc (x : Ref) (hx : ¬ Z x) : (h.withNode z v).cell x = h.cell x := by
    have hne : x ≠ .vma z := fun he => hx (he ▸ hz)
    rw [cell_withNode, if_neg hne]
  refine ⟨rfl, fun w x hx => child_of_cell (hc x hx) w, fun x hx => par_of_cell (hc x hx),
    fun x hx => ?_, fun x hx => ?_,
    fun x hx => ok_of_cell (hc x hx)⟩
  · rw [Heap.next, hc x hx, Heap.next]
  · rw [Heap.prev, hc x hx, Heap.prev]

theorem modify (hf : KeepsLinks f) (r : Ref) : SameLinks Z h (h.modify r f) :=
  ⟨rfl, fun w x _ => bind_modify (hf.child w) r x, fun x _ => bind_modify hf.par r x,
    fun x _ => bind_modify hf.next r x, fun x _ => bind_modify hf.prev r x, fun x _ =>
    h.ok_modify r x f⟩

theorem sound (hs : SameLinks Z h h') (hX : Sound h X) (hZ : ∀ x, X x → ¬ Z x) : Sound h' X := by
  refine ⟨fun x hx => (hs.ok x (hZ x hx)).mpr (hX.ok x hx), fun x hx w y hy => ?_,
    fun x hx y hy => ?_, fun x hx y hy => ?_⟩
  · exact hX.child x hx w y (hs.child w x (hZ x hx) ▸ hy)
  · exact hX.next x hx y (hs.next x (hZ x hx) ▸ hy)
  · exact hX.prev x hx y (hs.prev x (hZ x hx) ▸ hy)

theorem seg (hs : SameLinks Z h h') {L : List Ref} (hL : Seg h.next h.prev none L none)
    (hZ : ∀ x ∈ L, ¬ Z x) :
    Seg h'.next h'.prev none L none :=
  hL.congr (fun x hx => hs.next x (hZ x hx)) fun x hx => hs.prev x (hZ x hx)

end SameLinks

theorem keepsLinks_start (s : ℕ) : KeepsLinks fun v => { v with vmStart := s } :=
  ⟨fun _ => rfl, fun _ => rfl, fun _ => rfl, fun w _ => by cases w <;> rfl⟩

theorem keepsLinks_stop (e : ℕ) : KeepsLinks fun v => { v with vmEnd := e } :=
  ⟨fun _ => rfl, fun _ => rfl, fun _ => rfl, fun w _ => by cases w <;> rfl⟩

/-- A struct from `vma_alloc` with its range, whose other fields are as `S_sp_node_init`
sets them. -/
def Heap.withPage (h : Heap) (z : Addr) (flags : BitVec 64) (s e : ℕ) : Heap :=
  h.withNode z ⟨none, none, none, none, none, flags, s, e⟩

theorem cell_withPage {g : BitVec 64} {s e : ℕ} (x : Ref) : (h.withPage z g s e).cell x =
    if x = .vma z then some ⟨none, none, none, none, none, g, s, e⟩ else h.cell x := cell_withNode x

/-- The memory in which a prefix split calls `S_sp_tree_insert_helper`. -/
def Heap.splitPrefix (h : Heap) (n : Ref) (z : Addr) (g : BitVec 64) (k e : ℕ) : Heap :=
  (h.withPage z g k e).modify n fun w => { w with vmStart := e }

def Heap.splitSuffix (h : Heap) (n : Ref) (z : Addr) (g : BitVec 64) (k e : ℕ) : Heap :=
  (h.withPage z g k e).modify n fun w => { w with vmEnd := k }

/-- The memory in which a mid split calls `S_sp_tree_insert_helper` first. -/
def Heap.splitMid (h : Heap) (n : Ref) (z y : Addr) (g : BitVec 64) (k e stop : ℕ) : Heap :=
  ((h.withPage z (VM_PROT_PROMOTE g) k e).withPage y g e stop).modify n fun w =>
    { w with vmEnd := k }

theorem prefixSplit_eq (hs : h.supply = some (z, v) :: rest) (hr : h.Ok r) (hrz : r ≠ .vma z) :
    prefixSplit ps h k (some r) =
      (sSpTreeInsertHelper (h.splitPrefix r z v.vmFlags k (ps.after k)) h.root
      (some (.vma z))).map fun h' => (h', some (.vma z)) := by
  have hr1 : (h.withPage z v.vmFlags k (ps.after k)).Ok r := by
    rw [Heap.Ok, cell_withPage, if_neg hrz]
    exact hr
  unfold prefixSplit
  rw [newNode_eq hs, Option.map_eq_bind]
  simp only [Option.bind_eq_bind, Option.bind_some, Heap.get_some, cell_withNode, if_true,
    Option.pure_def]
  change ((h.withPage z v.vmFlags k (ps.after k)).upd (some r) _).bind _ = _
  rw [Heap.upd_eq _ hr1]
  rfl

theorem suffixSplit_eq (hs : h.supply = some (z, v) :: rest) (hr : h.Ok r) (hrz : r ≠ .vma z) :
    suffixSplit ps h k (some r) =
      (sSpTreeInsertHelper (h.splitSuffix r z v.vmFlags k (ps.after k)) h.root
      (some (.vma z))).map fun h' => (h', some (.vma z)) := by
  have hr1 : (h.withPage z v.vmFlags k (ps.after k)).Ok r := by
    rw [Heap.Ok, cell_withPage, if_neg hrz]
    exact hr
  unfold suffixSplit
  rw [newNode_eq hs, Option.map_eq_bind]
  simp only [Option.bind_eq_bind, Option.bind_some, Heap.get_some, cell_withNode, if_true,
    Option.pure_def]
  change ((h.withPage z v.vmFlags k (ps.after k)).upd (some r) _).bind _ = _
  rw [Heap.upd_eq _ hr1]
  rfl

/-- What a mid split does before it inserts the structs of the page and of the rest. -/
def midSplitNodes (ps : PageSize) (h : Heap) (vmAddr : ℕ) (n : Ptr) :
    Option (Heap × Ptr × Ptr) := do
  let vn ← h.get n
  let (h, z) ← newNode h vmAddr (ps.after vmAddr) (some (VM_PROT_PROMOTE vn.vmFlags))
  let vz ← h.get z
  let vn ← h.get n
  let (h, t) ← newNode h vz.vmEnd vn.vmEnd (some vn.vmFlags)
  let h ← h.upd n fun v => { v with vmEnd := vz.vmStart }
  return (h, z, t)

theorem midSplit_eq_bind (n : Ptr) : midSplit ps h k n = (midSplitNodes ps h k n).bind fun out =>
    (sSpTreeInsertHelper out.1 out.1.root out.2.2).bind fun h4 =>
      (sSpTreeInsertHelper h4 h4.root out.2.1).map fun h' => (h', out.2.1) := by
  simp only [midSplit, midSplitNodes, Option.bind_eq_bind, Option.pure_def, Option.bind_assoc,
    Option.bind_some,
    Option.map_eq_bind]
  rfl

theorem midSplitNodes_eq (hs : h.supply = some (z, v) :: some (y, w) :: rest) {u : VmArea}
    (hu : h.cell r = some u)
    (hrz : r ≠ .vma z) (hry : r ≠ .vma y) :
    midSplitNodes ps h k (some r) =
      some (h.splitMid r z y u.vmFlags k (ps.after k) u.vmEnd, some (.vma z), some (.vma y)) := by
  have hr2 : ((h.withPage z (VM_PROT_PROMOTE u.vmFlags) k (ps.after k)).withPage y u.vmFlags
      (ps.after k) u.vmEnd).Ok r := by
    rw [Heap.Ok, cell_withPage, if_neg hry, cell_withPage, if_neg hrz, hu]
    rfl
  have hs1 : (h.withPage z (VM_PROT_PROMOTE u.vmFlags) k (ps.after k)).supply =
      some (y, w) :: rest := by
    simp [Heap.withPage, Heap.withNode, hs]
  unfold midSplitNodes
  simp only [Heap.get_some, hu, newNode_eq hs, Option.bind_eq_bind, Option.bind_some,
    Option.getD_some]
  change ((h.withPage z _ k (ps.after k)).cell (.vma z)).bind _ = _
  rw [cell_withPage, if_pos rfl, Option.bind_some]
  change ((h.withPage z _ k (ps.after k)).cell r).bind _ = _
  rw [cell_withPage, if_neg hrz, hu, Option.bind_some]
  change (newNode (h.withPage z _ k (ps.after k)) (ps.after k) u.vmEnd (some u.vmFlags)).bind _ = _
  rw [newNode_eq hs1, Option.bind_some]
  change (((h.withPage z _ k (ps.after k)).withPage y u.vmFlags (ps.after k) u.vmEnd).upd
    (some r) _).bind _ = _
  rw [Heap.upd_eq _ hr2]
  rfl

/-! ### The splits return -/

theorem PutAbove.isRoot (hp : PutAbove h h' X x r) : IsRoot h' (some r) := by
  obtain ⟨v, hv, -, hvp, -⟩ := h'.cell_eq (hp.sound.ok r (Or.inl rfl))
  exact ⟨hp.root, v, hv, hvp.trans hp.par⟩

theorem withPage_new {g : BitVec 64} {s e : ℕ} :
    (h.withPage z g s e).Ok (.vma z) ∧ (h.withPage z g s e).par (.vma z) = none ∧
    (h.withPage z g s e).range (.vma z) = some (g, s, e) := by
  simp [Heap.Ok, Heap.par, Heap.range, cell_withPage]

namespace Linked

section

variable (hl : Linked h S T) (hroot : h.root = some x) (hx : x ∈ T.toList) (hn : n ∈ S)
  (hz : Fresh S z)

include hl hn hz in
theorem ref_ne : n.ref ≠ .vma z := fun he => hl.fresh_notMem hz (he ▸ hl.ref_mem hn)

include hl hn hz in
theorem start_split {g : BitVec 64} {s e : ℕ} {m : Node} (hm : m ∈ S) :
    ((h.withPage z g s e).modify n.ref f).start m.ref =
      if m = n then ((h.cell n.ref).map fun v => (f v).vmStart).getD 0 else m.start := by
  have hmz := hl.ref_ne hm hz
  rw [Heap.start, Heap.cell_modify]
  by_cases hmn : m = n
  · subst hmn
    rw [if_pos rfl, if_pos rfl, cell_withPage, if_neg hmz, Option.map_map]
    rfl
  · have hne : m.ref ≠ n.ref := fun he => hmn (hl.eq_of_ref hm hn he)
    rw [if_neg hne, if_neg hmn, cell_withPage, if_neg hmz]
    exact (hl.views hm).2.1

include hl hn hz in
theorem start_setStop {g : BitVec 64} {s e stop : ℕ} {m : Node} (hm : m ∈ S) :
    ((h.withPage z g s e).modify n.ref fun w => { w with vmEnd := stop }).start m.ref =
      m.start := by
  obtain ⟨u, hu, -, -, -, hus, -⟩ := hl.cell hn
  rw [hl.start_split hn hz hm, hu]
  split_ifs with hmn
  · rw [hmn]
    exact hus
  · rfl

include hl hroot hx hn hz

/-- The insertion of a new struct below `sp->root`, after `n` got another range. -/
theorem insert_split (hf : KeepsLinks f) {g : BitVec 64} {s e : ℕ}
    (hne : ((h.withPage z g s e).modify n.ref f).start x ≠ s) :
    ∃ h', sSpTreeInsertHelper ((h.withPage z g s e).modify n.ref f) h.root (some (.vma z)) =
      some h' ∧
      PutAbove ((h.withPage z g s e).modify n.ref f) h' (· ∈ T.toList) x (.vma z) ∧
      h'.range (.vma z) = some (g, s, e) := by
  have hnz := hl.ref_ne hn hz
  obtain ⟨hok, hpar, hrange⟩ := withPage_new (h := h) (z := z) (g := g) (s := s) (e := e)
  set h2 := (h.withPage z g s e).modify n.ref f with hh2
  have hcell : h2.cell (.vma z) = (h.withPage z g s e).cell (.vma z) := by
    rw [hh2, Heap.cell_modify, if_neg hnz.symm]
  have hrange2 : h2.range (.vma z) = some (g, s, e) := by
    rw [Heap.range, hcell, ← Heap.range, hrange]
  have hsound : Sound h2 (· ∈ T.toList) :=
    ((SameLinks.withNode (Z := (· = .vma z)) rfl _).trans (.modify hf n.ref)).sound hl.sound
      fun _ hx he => hl.fresh_notMem hz (he ▸ hx)
  obtain ⟨h', he, hp⟩ := hsound.insert hx (z := .vma z) ((ok_of_cell hcell).mpr hok)
    (hl.fresh_notMem hz)
    ((par_of_cell hcell).trans hpar) (show h.root ≠ none by rw [hroot]; simp)
    (by rwa [(views_of_range hrange2).2.1])
  rw [hroot]
  exact ⟨h', he, hp, (hp.links.range _).trans hrange2⟩

theorem prefixSplit_returns (ps : PageSize) (hs1 : n.start = k) (hafter : ps.after k ≠ k)
    (hs : h.supply = some (z, v) :: rest) :
    ∃ h', OpenOOC.prefixSplit ps h k (some n.ref) = some (h', some (.vma z)) ∧
      PutAbove (h.splitPrefix n.ref z v.vmFlags k (ps.after k)) h' (· ∈ T.toList) x (.vma z) := by
  obtain ⟨h', he, hp, -⟩ := hl.insert_split hroot hx hn hz (keepsLinks_start (ps.after k))
    (g := v.vmFlags) (s := k)
    (e := ps.after k) (by
      obtain ⟨m, hm, rfl⟩ := hl.node_of_mem hx
      obtain ⟨u, hu, -⟩ := hl.cell hn
      rw [hl.start_split hn hz hm, hu]
      split_ifs with hmn
      · exact hafter
      · exact fun he => hmn (hl.eq_of_start hm hn (he.trans hs1.symm)))
  refine ⟨h', ?_, hp⟩
  rw [prefixSplit_eq hs (hl.ok hn) (hl.ref_ne hn hz)]
  exact congrArg _ he

theorem suffixSplit_returns (ps : PageSize) (hnk : ∀ m ∈ S, m.start ≠ k)
    (hs : h.supply = some (z, v) :: rest) :
    ∃ h', OpenOOC.suffixSplit ps h k (some n.ref) = some (h', some (.vma z)) ∧
      PutAbove (h.splitSuffix n.ref z v.vmFlags k (ps.after k)) h' (· ∈ T.toList) x (.vma z) := by
  obtain ⟨h', he, hp, -⟩ := hl.insert_split hroot hx hn hz (keepsLinks_stop k) (g := v.vmFlags)
    (s := k)
    (e := ps.after k) (by
      obtain ⟨m, hm, rfl⟩ := hl.node_of_mem hx
      rw [hl.start_setStop hn hz hm]
      exact hnk m hm)
  refine ⟨h', ?_, hp⟩
  rw [suffixSplit_eq hs (hl.ok hn) (hl.ref_ne hn hz)]
  exact congrArg _ he

/-- The struct of the rest is below that of the page. -/
theorem midSplit_returns (ps : PageSize) {y : Addr} {w : VmArea} (hy : Fresh S y) (hzy : z ≠ y)
    (hne : h.start x ≠ ps.after k)
    (hafter : ps.after k ≠ k) (hs : h.supply = some (z, v) :: some (y, w) :: rest) :
    ∃ h', OpenOOC.midSplit ps h k (some n.ref) = some (h', some (.vma z)) ∧
      IsRoot h' (some (.vma z)) ∧
      (∃ w, h'.child w (.vma z) = some (.vma y)) ∧
      h'.range (.vma y) = some (n.flags, ps.after k, n.stop) ∧
      h'.range (.vma z) = some (VM_PROT_PROMOTE n.flags, k, ps.after k) ∧ h'.supply = rest ∧
      h'.calls = h.calls ++ [.alloc (some z), .alloc (some y)] := by
  obtain ⟨u, hu, -, -, huf, -, hue⟩ := hl.cell hn
  set h1 := h.withPage z (VM_PROT_PROMOTE n.flags) k (ps.after k) with hh1
  have hl1 : Linked h1 S T := hl.withNode (hl.fresh_notMem hz)
  have hyT := hl.fresh_notMem hy
  obtain ⟨h4, he4, hp4, hr4⟩ := hl1.insert_split (f := fun w => { w with vmEnd := k })
    (g := n.flags) (s := ps.after k)
    (e := n.stop) hroot hx hn hy (keepsLinks_stop k) (by
      obtain ⟨m, hm, rfl⟩ := hl.node_of_mem hx
      rwa [hl1.start_setStop hn hy hm, ← (hl.views hm).2.1])
  set h3 := (h1.withPage y n.flags (ps.after k) n.stop).modify n.ref fun w =>
    { w with vmEnd := k } with hh3
  have hzy' : Ref.vma z ≠ .vma y := fun he => hzy (Ref.vma.inj he)
  have hcz : h3.cell (.vma z) = h1.cell (.vma z) := by
    rw [hh3, Heap.cell_modify, if_neg (hl.ref_ne hn hz).symm, cell_withPage, if_neg hzy']
  obtain ⟨hok, hpar, hrange⟩ := withPage_new (h := h) (z := z) (g := VM_PROT_PROMOTE n.flags)
    (s := k) (e := ps.after k)
  have hzX : ¬ (Ref.vma z = .vma y ∨ .vma z ∈ T.toList) := not_or.mpr ⟨hzy', hl.fresh_notMem hz⟩
  obtain ⟨h5, he5, hp5⟩ := hp4.sound.insert (t := .vma y) (z := .vma z) (Or.inl rfl)
    ((hp4.links.ok _).mpr ((ok_of_cell hcz).mpr hok)) hzX
    ((hp4.outside _ hzy' (hl.fresh_notMem hz)).trans ((par_of_cell hcz).trans hpar))
      (by rw [hp4.root]; simp) (by
      have hzr : h4.range (.vma z) = some (VM_PROT_PROMOTE n.flags, k, ps.after k) := by
        rw [hp4.links.range, Heap.range, hcz, ← Heap.range, hrange]
      rw [(views_of_range hr4).2.1, (views_of_range hzr).2.1]
      exact hafter)
  have hf := hp4.links.trans hp5.links
  refine ⟨h5, ?_, hp5.isRoot, hp5.child, (hp5.links.range _).trans hr4, ?_, ?_, ?_⟩
  · rw [midSplit_eq_bind, midSplitNodes_eq hs hu (hl.ref_ne hn hz) (hl.ref_ne hn hy), huf, hue,
      Option.bind_some]
    change (sSpTreeInsertHelper h3 h1.root (some (.vma y))).bind _ = _
    rw [he4, Option.bind_some, hp4.root, he5]
    rfl
  · rw [hf.range, Heap.range, hcz, ← Heap.range, hrange]
  · rw [hf.supply]
    simp [hh3, hh1, Heap.withPage, Heap.withNode, hs]
  · rw [hf.calls]
    simp [hh3, hh1, Heap.withPage, Heap.withNode]

end

end Linked

end OpenOOC
