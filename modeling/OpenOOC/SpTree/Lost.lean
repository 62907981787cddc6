import OpenOOC.SpTree.FindModCall
import OpenOOC.SpTree.Partial

/-! What `sp_tree_find_mod_and_lock` loses when it works from a `sp->root` that is
no longer the root of the tree: the splayed root, and with it the address where
this node starts. -/

namespace OpenOOC

open Links SplayTree SplayTree.Tree Returns

variable {ps : PageSize} {h h' : Heap} {S : Finset Node} {T l r : Tree Ref} {n m q t : Node} {k : ℕ}
  {X : Ref → Prop}
  {p a b : Ptr} {w : Which} {z : Ref} {f : VmArea → VmArea}

/-! ### Children -/

/-- `sp_l` and `sp_r` of the structs in `X` lead to `X`. -/
def ClosedUnder (h : Heap) (X : Ref → Prop) : Prop := ∀ x, X x → ∀ w y, h.child w x = some y → X y

theorem Shape.closedUnder (hs : Shape h T) : ClosedUnder h (· ∈ T.toList) := by
  induction T with
  | nil => exact fun x hx => nomatch hx
  | node l a r ihl ihr =>
    obtain ⟨-, hl, hr, -, -, hsl, hsr⟩ := hs
    intro x hx w y hy
    simp only [toList_node, List.mem_append, List.mem_cons] at hx ⊢
    rcases hx with hx | rfl | hx
    · exact Or.inl (ihl hsl x hx w y hy)
    · cases w
      · exact Or.inl (root?_mem (hl ▸ hy))
      · exact Or.inr (Or.inr (root?_mem (hr ▸ hy)))
    · exact Or.inr (Or.inr (ihr hsr x hx w y hy))

theorem TreeAt.subset (hX : ClosedUnder h X) (ht : TreeAt h p T) (hp : ∀ x, p = some x → X x) :
    ∀ x ∈ T.toList, X x := by
  induction T generalizing p with
  | nil => exact fun x hx => nomatch hx
  | node l a r ihl ihr =>
    obtain ⟨rfl, hl, hr⟩ := ht
    have ha := hp a rfl
    intro x hx
    simp only [toList_node, List.mem_append, List.mem_cons] at hx
    rcases hx with hx | rfl | hx
    · exact ihl hl (hX a ha .spL) x hx
    · exact ha
    · exact ihr hr (hX a ha .spR) x hx

def KeepsChildren (f : VmArea → VmArea) : Prop := ∀ w v, (f v).child w = v.child w

def SameChildren (h h' : Heap) : Prop := ∀ w x, h'.child w x = h.child w x

theorem upd_children {h0 : Heap} (hc : SameChildren h0 h) (hf : KeepsChildren f) :
    Ensures (h.upd p f) (SameChildren h0) :=
  upd_inv.mono fun _ ⟨r, _, _, he⟩ w x => by
    rw [he, ← hc w x]
    exact bind_modify (hf w) r x

theorem updIf_children {h0 : Heap} (hc : SameChildren h0 h) (hf : KeepsChildren f) :
    Ensures (h.updIf p f) (SameChildren h0) :=
  .ite (fun _ => .some hc) fun _ => upd_children hc hf

theorem keepsChildren_of {f : VmArea → VmArea} (hl : ∀ v, (f v).spL = v.spL)
    (hr : ∀ v, (f v).spR = v.spR) :
    KeepsChildren f := fun w v => by
  cases w
  · exact hl v
  · exact hr v

theorem fixListLt_children : Ensures (fixListLt h a b) (SameChildren h) :=
  .bind (.any _) fun _ _ =>
  .bind (upd_children (fun _ _ => rfl) (keepsChildren_of (fun _ => rfl) fun _ => rfl)) fun _ h1 =>
  .bind (upd_children h1 (keepsChildren_of (fun _ => rfl) fun _ => rfl)) fun _ h2 =>
  .bind (.any _) fun _ _ =>
  .bind (updIf_children h2 (keepsChildren_of (fun _ => rfl) fun _ => rfl)) fun _ h3 =>
    upd_children h3 (keepsChildren_of (fun _ => rfl) fun _ => rfl)

theorem fixListGt_children : Ensures (fixListGt h a b) (SameChildren h) :=
  .bind (upd_children (fun _ _ => rfl) (keepsChildren_of (fun _ => rfl) fun _ => rfl)) fun _ h1 =>
  .bind (.any _) fun _ _ =>
  .bind (upd_children h1 (keepsChildren_of (fun _ => rfl) fun _ => rfl)) fun _ h2 =>
  .bind (.any _) fun _ _ =>
  .bind (updIf_children h2 (keepsChildren_of (fun _ => rfl) fun _ => rfl)) fun _ h3 =>
    upd_children h3 (keepsChildren_of (fun _ => rfl) fun _ => rfl)

def SetsChild (h : Heap) (r : Ref) (w : Which) (b : Ptr) (h' : Heap) : Prop :=
  ∀ w' x y, h'.child w' x = some y → (x = r ∧ w' = w ∧ b = some y) ∨
    (¬ (x = r ∧ w' = w) ∧ h.child w' x = some y)

theorem upd_setChild : Ensures (h.upd a fun v => v.setChild b w) fun h' => ∃ r, a = some r ∧
    SetsChild h r w b h' :=
  upd_inv.mono fun _ ⟨r, ha, _, he⟩ => ⟨r, ha, fun w' x y hy => by
    rw [he, Heap.child, Heap.cell_modify] at hy
    by_cases hx : x = r
    · subst hx
      rw [if_pos rfl] at hy
      unfold Heap.child
      cases hc : h.cell x with
      | none => simp [hc] at hy
      | some v => cases w <;> cases w' <;> simp_all [VmArea.setChild, VmArea.child]
    · rw [if_neg hx] at hy
      exact Or.inr ⟨fun hh => hx hh.1, hy⟩⟩

theorem makeChild_sets : Ensures (makeChild h a w b) fun h' => ∃ r, a = some r ∧
    SetsChild h r w b h' := by
  refine .bind upd_setChild fun h1 ⟨r, ha, h1s⟩ => .bind (@updIf_children _ _ _ h1 (fun _ _ => rfl)
    (keepsChildren_of (fun _ => rfl) fun _ => rfl)) fun h2 h2s => .bind (.any _) fun va _ => ?_
  have hset {h' : Heap} (hs : SameChildren h1 h') : ∃ r, a = some r ∧ SetsChild h r w b h' :=
    ⟨r, ha, fun w' x y hy => h1s w' x y (hs w' x ▸ hy)⟩
  refine .ite (fun _ => .mono (upd_children h2s ?_) fun _ => hset) fun _ => .some (hset h2s)
  exact keepsChildren_of (fun _ => rfl) fun _ => rfl

/-- The new root's children are what `t` had and `t` itself. -/
theorem insertHelper_closed (hX : ClosedUnder h X) {t : Ref} (ht : X t) (hz : h.root ≠ none) :
    Ensures (sSpTreeInsertHelper h (some t) (some z)) fun h' => ClosedUnder h' fun x =>
    x = z ∨ X x := by
  have hfix {h1 h2 h3 h4 : Heap} {w : Which} {v : VmArea} (h01 : SameChildren h h1)
      (hv : h1.get (some t) = some v)
      (h12 : SetsChild h1 z w (v.child w) h2) (h23 : SetsChild h2 z w.flip (some t) h3)
      (h34 : SetsChild h3 t w none h4) : ClosedUnder h4 fun x => x = z ∨ X x := by
    have hvt : v.child w = h1.child w t := by
      change h1.cell t = some v at hv
      simp [Heap.child, hv]
    rintro x hx w' y hy
    rcases h34 w' x y hy with ⟨-, -, hb⟩ | ⟨-, hy⟩
    · cases hb
    · rcases h23 w' x y hy with ⟨-, -, hb⟩ | ⟨hne, hy⟩
      · obtain rfl : t = y := by simpa using hb
        exact Or.inr ht
      · rcases h12 w' x y hy with ⟨-, -, hb⟩ | ⟨hne', hy⟩
        · exact Or.inr (hX t ht w y (by rw [← h01 w t, ← hvt, hb]))
        · rcases hx with rfl | hx
          · cases w <;> cases w' <;> simp_all [Which.flip]
          · exact Or.inr (hX x hx w' y (h01 w' x ▸ hy))
  refine .ite (fun hn => absurd hn hz) fun _ => .bind (.any _) fun vz _ =>
    .bind (.any _) fun vt _ =>
    .ite (fun _ => ?_) fun _ => .bind (.any _) fun _ _ => ?_
  · refine .bind fixListLt_children fun h1 h01 => .bind_eq fun v hv =>
      .bind makeChild_sets fun h2 ⟨_, hz2, h12⟩ =>
      .bind makeChild_sets fun h3 ⟨_, hz3, h23⟩ =>
      .bind (upd_setChild (w := .spL)) fun h4 ⟨_, ht4, h34⟩ => .some ?_
    cases hz2
    cases hz3
    cases ht4
    exact hfix (w := .spL) h01 hv h12 h23 h34
  · refine .bind fixListGt_children fun h1 h01 => .bind_eq fun v hv =>
      .bind makeChild_sets fun h2 ⟨_, hz2, h12⟩ =>
      .bind makeChild_sets fun h3 ⟨_, hz3, h23⟩ =>
      .bind (upd_setChild (w := .spR)) fun h4 ⟨_, ht4, h34⟩ => .some ?_
    cases hz2
    cases hz3
    cases ht4
    exact hfix (w := .spR) h01 hv h12 h23 h34

/-! ### What is not found -/

theorem newNode_inv {s e : ℕ} {f : Option (BitVec 64)} : Ensures (newNode h s e f) fun out =>
    ∃ z v rest, h.supply = some (z, v) :: rest ∧
      out = (h.withNode z ⟨none, none, none, none, none, f.getD v.vmFlags, s, e⟩, some (.vma z)) :=
        fun out he => by
  obtain ⟨z, v, rest, hs⟩ : ∃ z v rest, h.supply = some (z, v) :: rest := by
    by_contra hno
    rw [newNode_none fun z v rest hs => hno ⟨z, v, rest, hs⟩] at he
    cases he
  rw [newNode_eq hs] at he
  exact ⟨z, v, rest, hs, (Option.some.inj he).symm⟩

/-- The structs found from `sp->root` are among `X`, and none of `X` covers `a`. -/
structure Lost (h : Heap) (a : ℕ) (X : Ref → Prop) : Prop where
  closed : ClosedUnder h X
  root : ∀ x, h.root = some x → X x
  uncovered : ∀ x, X x → ∀ f s e, h.range x = some (f, s, e) → ¬ (s ≤ a ∧ a < e)

namespace Lost

variable {a : ℕ}

theorem not_covers (hL : Lost h a X) (hh : Holds h S T) (hn : n ∈ S) : ¬ n.Covers a := by
  have hwalk := hh.repInv.walk
  have hx := hwalk.subset hL.closed hL.root _ (hh.ref_mem hn)
  exact hL.uncovered _ hx _ _ _ ((hh.node_iff n).mp hn).2

theorem newNode (hL : Lost h a X) {s e : ℕ} (hse : ¬ (s ≤ a ∧ a < e)) {f : Option (BitVec 64)} :
    Ensures (OpenOOC.newNode h s e f) fun out => ∃ z v rest, h.supply = some (z, v) :: rest ∧
      out.2 = some (.vma z) ∧
      Lost out.1 a fun x => x = .vma z ∨ X x := fun out he => by
  obtain ⟨z, v, rest, hs, rfl⟩ := newNode_inv out he
  refine ⟨z, v, rest, hs, rfl, fun x hx w y hy => ?_, fun x hx => Or.inr (hL.root x hx),
    fun x hx f' s' e' hr => ?_⟩
  · rw [Heap.child, cell_withNode] at hy
    split_ifs at hy with hxz
    · cases w <;> simp [VmArea.child] at hy
    · exact Or.inr (hL.closed x (hx.resolve_left hxz) w y hy)
  · rw [Heap.range, cell_withNode] at hr
    split_ifs at hr with hxz
    · simp only [Option.map_some, Option.some.injEq, Prod.mk.injEq] at hr
      obtain ⟨-, rfl, rfl⟩ := hr
      exact hse
    · exact hL.uncovered x (hx.resolve_left hxz) f' s' e' hr

theorem upd (hL : Lost h a X) {r : Ref} {f : VmArea → VmArea} (hk : KeepsChildren f)
    (hf : X r → ∀ v, h.cell r = some v → ¬ ((f v).vmStart ≤ a ∧ a < (f v).vmEnd)) :
    Ensures (h.upd (some r) f) fun h' => Lost h' a X ∧ h'.root = h.root :=
  upd_inv.mono fun h' ⟨r', hr, _, he⟩ => by
    cases hr
    subst he
    refine ⟨⟨fun x hx w y hy => hL.closed x hx w y
      ((bind_modify (g := (·.child w)) (hk w) r x).symm.trans hy), hL.root,
      fun x hx f' s e hr => ?_⟩, rfl⟩
    rw [Heap.range, Heap.cell_modify] at hr
    split_ifs at hr with hxr
    · subst hxr
      cases hc : h.cell x with
      | none => simp [hc] at hr
      | some v =>
        rw [hc] at hr
        simp only [Option.map_some, Option.some.injEq, Prod.mk.injEq] at hr
        obtain ⟨-, rfl, rfl⟩ := hr
        exact hf hx v hc
    · exact hL.uncovered x hx f' s e hr

theorem insert (hL : Lost h a X) (hz : X z) (hr : h.root ≠ none) :
    Ensures (sSpTreeInsertHelper h h.root (some z)) fun h' => Lost h' a X ∧ h'.root ≠ none := by
  obtain ⟨t, ht⟩ := Option.ne_none_iff_exists'.mp hr
  intro h' he
  rw [ht] at he
  have hc := insertHelper_closed hL.closed (hL.root t ht) hr h' he
  have hl := sSpTreeInsertHelper_linksOnly (.refl h) h' he
  have hroot := root_of_insertHelper he
  have hX : (fun x => x = z ∨ X x) = X := by
    funext x
    refine propext ⟨fun hx => hx.elim (fun he => he ▸ hz) id, Or.inr⟩
  refine ⟨⟨hX ▸ hc, fun x hx => ?_, fun x hx f s e hxr =>
    hL.uncovered x hx f s e (hl.range x ▸ hxr)⟩, by rw [hroot]; simp⟩
  rw [hroot] at hx
  exact Option.some.inj hx ▸ hz

end Lost

namespace Linked

/-- The part of the tree on the side of the stale root. -/
theorem lost (hl : Linked h S (node l t.ref r)) (hp : RangesOk S) (ht : t ∈ S) {x : Ref}
    (hroot : h.root = some x)
    (hx : x ∈ (node l t.ref r).toList) (hne : x ≠ t.ref) {a : ℕ} (ha : t.Covers a) :
    ∃ X, Lost h a X ∧ ¬ X t.ref ∧ ∀ y, X y → y ∈ (node l t.ref r).toList := by
  have hnd := hl.nodup
  rw [toList_node, List.perm_middle.nodup_iff, List.nodup_cons, List.mem_append, not_or] at hnd
  have hside {c : Tree Ref} (hs : Shape h c) (hxc : x ∈ c.toList) (htc : t.ref ∉ c.toList)
      (hsub : ∀ y ∈ c.toList, y ∈ (node l t.ref r).toList) :
      ∃ X, Lost h a X ∧ ¬ X t.ref ∧ ∀ y, X y → y ∈ (node l t.ref r).toList := by
    refine ⟨(· ∈ c.toList), ⟨hs.closedUnder, fun y hy => ?_, fun y hy f s e hr hc => ?_⟩, htc, hsub⟩
    · obtain rfl := Option.some.inj (hroot.symm.trans hy)
      exact hxc
    · obtain ⟨m, hm, rfl⟩ := hl.node_of_mem (hsub y hy)
      obtain ⟨-, hms, hme⟩ := hl.views hm
      obtain ⟨-, hs', he'⟩ := views_of_range hr
      have hmt : m = t := by
        by_contra hmt
        exact hp.disjoint m hm t ht hmt a ⟨⟨by omega, by omega⟩, ha⟩
      exact htc (hmt ▸ hy)
  obtain ⟨-, -, -, -, -, hsl, hsr⟩ := hl.shape
  simp only [toList_node, List.mem_append, List.mem_cons] at hx
  rcases hx with hx | hx | hx
  · exact hside hsl hx hnd.1.1 fun y hy => by simp [hy]
  · exact absurd hx hne
  · exact hside hsr hx hnd.1.2 fun y hy => by simp [hy]

end Linked

/-! ### Splits and single pages with a stale root -/

namespace Linked

variable {a : ℕ}

theorem newNode_lost (hl : Linked h S T) (hL : Lost h a X)
    (hfresh : ∀ u, some u ∈ h.supply → Fresh S u.1) {s e : ℕ}
    (hse : ¬ (s ≤ a ∧ a < e)) {f : Option (BitVec 64)} :
    Ensures (OpenOOC.newNode h s e f) fun out => ∃ z v vz, h.supply = some (z, v) :: out.1.supply ∧
      out.2 = some (.vma z) ∧ Linked out.1 S T ∧ (Lost out.1 a fun x => x = .vma z ∨ X x) ∧
      out.1.root = h.root ∧
      out.1.get out.2 = some vz ∧ vz.vmStart = s ∧ vz.vmEnd = e ∧ ∀ n ∈ S, n.ref ≠ .vma z :=
        fun out he => by
  obtain ⟨z, v, rest, hs, hz, hL1⟩ := hL.newNode hse out he
  have hfz : Fresh S z := hfresh (z, v) (by simp [hs])
  obtain ⟨h1, e1, hl1, hroot1, hsup1, -, -, hrange1, -⟩ := hl.newNode hs hfz s e f
  obtain rfl := Option.some.inj (e1.symm.trans he)
  obtain ⟨vz, hvz, hvze⟩ := Option.map_eq_some_iff.mp hrange1
  simp only [Prod.mk.injEq] at hvze
  exact ⟨z, v, vz, hsup1.symm ▸ hs, rfl, hl1, hL1, hroot1, hvz, hvze.2.1, hvze.2.2,
    fun n hn hh => hfz.2 n hn (Ref.vma.inj hh)⟩

theorem prefixSplit_lost (hl : Linked h S T) (hL : Lost h a X) (hn : n ∈ S) (hXn : ¬ X n.ref)
    (hfresh : ∀ u, some u ∈ h.supply → Fresh S u.1) (hwrap : k + ps.bytes < 2 ^ 64)
    (hr : h.root ≠ none)
    (ha : k + ps.bytes ≤ a) : Ensures (OpenOOC.prefixSplit ps h k (some n.ref)) fun out =>
    ∃ X, Lost out.1 a X := by
  refine .bind (hl.newNode_lost hL hfresh (by rw [PageSize.after_eq hwrap]; omega)) ?_
  rintro ⟨h1, _⟩ ⟨z, v, vz, -, rfl, -, hL1, hroot1, -, -, -, hne⟩
  refine .bind (.any _) fun vz' _ =>
    .bind (hL1.upd (keepsChildren_of (fun _ => rfl) fun _ => rfl) fun hX => ?_)
    fun h2 ⟨hL2, hroot2⟩ => .bind (hL2.insert (Or.inl rfl) (by rw [hroot2, hroot1]; exact hr))
      fun h3 ⟨hL3, _⟩ =>
    .some ⟨_, hL3⟩
  exact absurd hX (not_or.mpr ⟨hne n hn, hXn⟩)

theorem suffixSplit_lost (hl : Linked h S T) (hL : Lost h a X) (hn : n ∈ S)
    (hXn : X n.ref → n.stop ≤ a)
    (hfresh : ∀ u, some u ∈ h.supply → Fresh S u.1) (hwrap : k + ps.bytes < 2 ^ 64)
    (hr : h.root ≠ none)
    (hk : k ≤ n.stop) (ha : a < k ∨ k + ps.bytes ≤ a) :
    Ensures (OpenOOC.suffixSplit ps h k (some n.ref)) fun out => ∃ X, Lost out.1 a X := by
  refine .bind (hl.newNode_lost hL hfresh (by rw [PageSize.after_eq hwrap]; omega)) ?_
  rintro ⟨h1, _⟩ ⟨z, v, vz, -, rfl, -, hL1, hroot1, hvz, hvzs, -, hne⟩
  refine .bind_eq fun vz' hvz' =>
    .bind (hL1.upd (keepsChildren_of (fun _ => rfl) fun _ => rfl) fun hX w _ => ?_)
    fun h2 ⟨hL2, hroot2⟩ => .bind (hL2.insert (Or.inl rfl) (by rw [hroot2, hroot1]; exact hr))
      fun h3 ⟨hL3, _⟩ =>
    .some ⟨_, hL3⟩
  obtain rfl := Option.some.inj (hvz.symm.trans hvz')
  have := hXn (hX.resolve_left (hne n hn))
  change ¬ (w.vmStart ≤ a ∧ a < vz.vmStart)
  omega

theorem midSplit_lost (hl : Linked h S T) (hL : Lost h a X) (hn : n ∈ S)
    (hXn : X n.ref → n.stop ≤ a)
    (hfresh : ∀ u, some u ∈ h.supply → Fresh S u.1) (hwrap : k + ps.bytes < 2 ^ 64)
    (hr : h.root ≠ none)
    (hk : k ≤ n.stop) (ha : a < k ∨ n.stop ≤ a) (he : k + ps.bytes ≤ n.stop) :
    Ensures (OpenOOC.midSplit ps h k (some n.ref)) fun out => ∃ X, Lost out.1 a X := by
  refine .bind (.any _) fun vn _ =>
    .bind (hl.newNode_lost hL hfresh (by rw [PageSize.after_eq hwrap]; omega)) ?_
  rintro ⟨h1, _⟩ ⟨z, v, vz, hs, rfl, hl1, hL1, hroot1, hvz, hvzs, hvze, hne⟩
  refine .bind_eq fun vz' hvz' => .bind_eq fun vn' hvn' => ?_
  obtain rfl := Option.some.inj (hvz.symm.trans hvz')
  obtain ⟨w, hw, -, -, -, -, hwe⟩ := hl1.get_ref hn
  obtain rfl := Option.some.inj (hw.symm.trans hvn')
  refine .bind (hl1.newNode_lost hL1
    (fun u hu => hfresh u (by rw [hs]; exact List.mem_cons_of_mem _ hu))
    (by rw [hvze, hwe, PageSize.after_eq hwrap]; omega)) ?_
  rintro ⟨h2, _⟩ ⟨y, v2, vy, -, rfl, -, hL2, hroot2, -, -, -, hne2⟩
  refine .bind (hL2.upd (keepsChildren_of (fun _ => rfl) fun _ => rfl) fun hX w _ => ?_) fun h3
    ⟨hL3, hroot3⟩ =>
    .bind (hL3.insert (Or.inl rfl) (by rw [hroot3, hroot2, hroot1]; exact hr)) fun h4
      ⟨hL4, hroot4⟩ =>
    .bind (hL4.insert (Or.inr (Or.inl rfl)) hroot4) fun h5 ⟨hL5, _⟩ => .some ⟨_, hL5⟩
  have := hXn ((hX.resolve_left (hne2 n hn)).resolve_left (hne n hn))
  change ¬ (w.vmStart ≤ a ∧ a < vz.vmStart)
  omega

/-- A single page that is not merged stays where it is, and `sp->root` too. -/
theorem threeWayMerge_keep (hl : Linked h S (node l n.ref r)) (hp : RangesOk S) (hn : n ∈ S)
    (hno : ∀ p, ¬ LeftOf S n.start (VM_PROT_PROMOTE n.flags) p) (hno' : ∀ q, ¬ MergesOn S n q) :
    Ensures (OpenOOC.threeWayMerge h (some n.ref)) fun out => out.1 = h := by
  obtain ⟨v, hv, -, -, hvf, -⟩ := hl.get_ref hn
  rcases hl.mergePrev_cases hp hn (VM_PROT_PROMOTE n.flags) with ⟨p, -, -, -, hpl, -⟩ | ⟨-, he1⟩
  · exact absurd hpl (hno p)
  · rcases hl.threeWayMatches_cases hp hn with ⟨q, hq, -⟩ | ⟨-, he2⟩
    · exact absurd hq (hno' q)
    · refine .bind_eq fun v' hv' => .bind_eq fun out he => .bind_eq fun b hb => ?_
      obtain rfl := Option.some.inj (hv.symm.trans hv')
      obtain rfl := Option.some.inj (he1.symm.trans (hvf ▸ he))
      rw [he2] at hb
      split_ifs at hb
      obtain rfl := Option.some.inj hb
      exact .some rfl

end Linked

/-! ### Structs from the slab -/

theorem newNode_serves {s e : ℕ} {f : Option (BitVec 64)} :
    Ensures (newNode h s e f) fun out => ∃ u, h.supply = some u :: out.1.supply :=
  newNode_inv.mono fun _ ⟨z, v, rest, hs, he⟩ => ⟨(z, v), by simp [he, Heap.withNode, hs]⟩

theorem midSplit_serves : Ensures (midSplit ps h k p) fun _ => Serves h.supply 2 :=
  .bind (.any _) fun _ _ => .bind newNode_serves fun ⟨h1, _⟩ ⟨u, hu⟩ => .bind (.any _) fun _ _ =>
  .bind (.any _) fun _ _ =>
  .bind newNode_serves fun ⟨h2, _⟩ ⟨u', hu'⟩ => fun _ _ =>
  ⟨[u, u'], h2.supply, rfl, by rw [hu, hu']; rfl⟩

theorem prefixSplit_serves : Ensures (prefixSplit ps h k p) fun _ => Serves h.supply 1 :=
  .bind newNode_serves fun ⟨h1, _⟩ ⟨u, hu⟩ _ _ => ⟨[u], h1.supply, rfl, hu⟩

theorem suffixSplit_serves : Ensures (suffixSplit ps h k p) fun _ => Serves h.supply 1 :=
  .bind newNode_serves fun ⟨h1, _⟩ ⟨u, hu⟩ _ _ => ⟨[u], h1.supply, rfl, hu⟩

end OpenOOC
