import OpenOOC.Lib.Returns
import OpenOOC.SpTree.Runs

/-! What the functions of `sp_tree.c` leave alone whenever they return, whatever the
links in memory are: no struct but one that is given back loses its flags or its
range. -/

namespace OpenOOC

open Links Returns

variable {h h0 : Heap} {p a b t z : Ptr} {w : Which} {f : VmArea → VmArea} {k : ℕ}

/-- A write to links. -/
def KeepsRange (f : VmArea → VmArea) : Prop :=
  ∀ v, ((f v).vmFlags, (f v).vmStart, (f v).vmEnd) = (v.vmFlags, v.vmStart, v.vmEnd)

def KeepsVmData (f : VmArea → VmArea) : Prop := ∀ v, (f v).data = v.data

theorem keepsVmData_setChild (b : Ptr) (w : Which) : KeepsVmData fun v => v.setChild b w :=
  fun v => by cases w <;> rfl

structure SpLinksOnly (h h' : Heap) : Prop where
  root : h'.root = h.root
  supply : h'.supply = h.supply
  calls : h'.calls = h.calls
  data : ∀ x, h'.data x = h.data x

theorem SpLinksOnly.refl (h : Heap) : SpLinksOnly h h := ⟨rfl, rfl, rfl, fun _ => rfl⟩

theorem SpLinksOnly.trans {h h' h'' : Heap} (h1 : SpLinksOnly h h') (h2 : SpLinksOnly h' h'') :
    SpLinksOnly h h'' :=
  ⟨h2.root.trans h1.root, h2.supply.trans h1.supply, h2.calls.trans h1.calls,
    fun x => (h2.data x).trans (h1.data x)⟩

theorem SpLinksOnly.linksOnly {h h' : Heap} (hl : SpLinksOnly h h') : LinksOnly h h' :=
  ⟨hl.supply, hl.calls, fun x => (range_of_data (hl.data x)).1⟩

theorem upd_inv : Ensures (h.upd p f) fun h' => ∃ r, p = some r ∧ h.Ok r ∧ h' = h.modify r f :=
  fun h' he => by
  cases p with
  | none => cases he
  | some r =>
    have hr : h.Ok r := by
      unfold Heap.upd at he
      unfold Heap.Ok
      cases hc : h.cell r <;> simp [hc] at he ⊢
    rw [h.upd_eq hr] at he
    exact ⟨r, rfl, hr, (Option.some.inj he).symm⟩

theorem map_modify {β : Type} {g : VmArea → β} (hg : ∀ v, g (f v) = g v) (r x : Ref) :
    ((h.modify r f).cell x).map g = (h.cell x).map g := by
  rw [Heap.cell_modify]
  split_ifs
  · cases h.cell x <;> simp [hg]
  · rfl

/-! Below, only links have changed from `h0` to `h`, and so it is afterwards. -/

theorem upd_spLinksOnly (hl : SpLinksOnly h0 h) (hf : KeepsVmData f) :
    Ensures (h.upd p f) (SpLinksOnly h0) :=
  upd_inv.mono fun _ ⟨r, _, _, he⟩ => he ▸ hl.trans ⟨rfl, rfl, rfl, map_modify hf r⟩

theorem updIf_spLinksOnly (hl : SpLinksOnly h0 h) (hf : KeepsVmData f) :
    Ensures (h.updIf p f) (SpLinksOnly h0) :=
  .ite (fun _ => .some hl) fun _ => upd_spLinksOnly hl hf

theorem upd_linksOnly (hl : LinksOnly h0 h) (hf : KeepsRange f) :
    Ensures (h.upd p f) (LinksOnly h0) :=
  upd_inv.mono fun _ ⟨r, _, _, he⟩ => he ▸ hl.trans
    ⟨rfl, rfl, map_modify (g := fun v => (v.vmFlags, v.vmStart, v.vmEnd)) hf r⟩

theorem updIf_linksOnly (hl : LinksOnly h0 h) (hf : KeepsRange f) :
    Ensures (h.updIf p f) (LinksOnly h0) :=
  .ite (fun _ => .some hl) fun _ => upd_linksOnly hl hf

/-! ### Macros -/

theorem makeChild_spLinksOnly (hl : SpLinksOnly h0 h) :
    Ensures (makeChild h a w b) (SpLinksOnly h0) :=
  .bind (upd_spLinksOnly hl (keepsVmData_setChild b w)) fun _ h1 =>
  .bind (updIf_spLinksOnly h1 fun _ => rfl) fun _ h2 =>
  .bind (.any _) fun _ _ => .ite (fun _ => upd_spLinksOnly h2 fun _ => rfl) fun _ => .some h2

theorem makeChild_linksOnly (hl : LinksOnly h0 h) : Ensures (makeChild h a w b) (LinksOnly h0) :=
  (makeChild_spLinksOnly (.refl h)).mono fun _ h1 => hl.trans h1.linksOnly

theorem fixListLt_linksOnly (hl : LinksOnly h0 h) : Ensures (fixListLt h a b) (LinksOnly h0) :=
  .bind (.any _) fun _ _ =>
  .bind (upd_linksOnly hl fun _ => rfl) fun _ h1 =>
  .bind (upd_linksOnly h1 fun _ => rfl) fun _ h2 =>
  .bind (.any _) fun _ _ =>
  .bind (updIf_linksOnly h2 fun _ => rfl) fun _ h3 => upd_linksOnly h3 fun _ => rfl

theorem fixListGt_linksOnly (hl : LinksOnly h0 h) : Ensures (fixListGt h a b) (LinksOnly h0) :=
  .bind (upd_linksOnly hl fun _ => rfl) fun _ h1 =>
  .bind (.any _) fun _ _ =>
  .bind (upd_linksOnly h1 fun _ => rfl) fun _ h2 =>
  .bind (.any _) fun _ _ =>
  .bind (updIf_linksOnly h2 fun _ => rfl) fun _ h3 => upd_linksOnly h3 fun _ => rfl

theorem fixListRm_linksOnly (hl : LinksOnly h0 h) : Ensures (fixListRm h a) (LinksOnly h0) :=
  .bind (.any _) fun _ _ =>
  .bind (updIf_linksOnly hl fun _ => rfl) fun _ h1 =>
  .bind (.any _) fun _ _ => updIf_linksOnly h1 fun _ => rfl

/-! ### Splaying -/

theorem splayLink_spLinksOnly {side : Ptr} (hl : SpLinksOnly h0 h) :
    Ensures (splayLink h side w t) fun out => SpLinksOnly h0 out.1 :=
  .bind (makeChild_spLinksOnly hl) fun _ h1 =>
  .bind (.any _) fun _ _ => by cases w <;> exact .some h1

theorem splayLoop_spLinksOnly {fuel : ℕ} {l r : Ptr} (hl : SpLinksOnly h0 h) :
    Ensures (splayLoop k fuel h l r t) fun out => SpLinksOnly h0 out.1 := by
  induction fuel generalizing h l r t with
  | zero => exact .fails
  | succ fuel ih =>
    unfold splayLoop
    refine .bind (.any _) fun vt _ => .ite (fun _ => .ite (fun _ => .some hl) fun _ => ?_) fun _ =>
      .ite (fun _ => .ite (fun _ => .some hl) fun _ => ?_) fun _ => .some hl
    all_goals
      refine .bind (.any _) fun vy _ => .ite (fun _ => ?_) fun _ =>
        .bind (splayLink_spLinksOnly hl) fun _ h1 => ih h1
      exact .bind (makeChild_spLinksOnly hl) fun _ h1 =>
        .bind (makeChild_spLinksOnly h1) fun _ h2 =>
        .bind (.any _) fun _ _ => .ite (fun _ => .some h2) fun _ =>
        .bind (splayLink_spLinksOnly h2) fun _ h3 => ih h3

theorem splayAssemble_spLinksOnly {l r : Ptr} (hl : SpLinksOnly h0 h) :
    Ensures (splayAssemble h l r t) (SpLinksOnly h0) :=
  .bind (.any _) fun _ _ => .bind (makeChild_spLinksOnly hl) fun _ h1 =>
  .bind (.any _) fun _ _ => .bind (makeChild_spLinksOnly h1) fun _ h2 =>
  .bind (.any _) fun _ _ => .bind (makeChild_spLinksOnly h2) fun _ h3 =>
  .bind (.any _) fun _ _ => .bind (makeChild_spLinksOnly h3) fun _ h4 => upd_spLinksOnly h4 fun _ =>
  rfl

theorem spLinksOnly_stack {h1 : Heap} {v : VmArea} (hst : h.cell .stack = none)
    (hl : SpLinksOnly (h.put .stack (some v)) h1) : SpLinksOnly h (h1.put .stack none) := by
  refine ⟨hl.root, hl.supply, hl.calls, fun x => ?_⟩
  by_cases hx : x = .stack
  · simp [hx, Heap.data, Heap.put, hst]
  · have := hl.data x
    rw [Heap.data, Heap.data, cell_put, if_neg hx] at this
    rwa [Heap.data, Heap.data, cell_put, if_neg hx]

theorem sSpTreeSplay_spLinksOnly (hst : h.cell .stack = none) :
    Ensures (sSpTreeSplay h k t) fun out => SpLinksOnly h out.1 :=
  .ite (fun _ => .some (.refl h)) fun _ =>
  .bind (splayLoop_spLinksOnly (.refl _)) fun _ h1 =>
  .bind (splayAssemble_spLinksOnly h1) fun _ h2 => .some (spLinksOnly_stack hst h2)

theorem sSpTreeSplay_linksOnly (hl : LinksOnly h0 h) (hst : h.cell .stack = none) :
    Ensures (sSpTreeSplay h k t) fun out => LinksOnly h0 out.1 :=
  (sSpTreeSplay_spLinksOnly hst).mono fun _ h1 => hl.trans h1.linksOnly

/-! ### Insertion and removal -/

theorem sSpTreeInsertHelper_linksOnly (hl : LinksOnly h0 h) :
    Ensures (sSpTreeInsertHelper h t z) (LinksOnly h0) := by
  refine .ite (fun _ => .some (hl.setRoot z)) fun _ => .bind (.any _) fun vz _ =>
    .bind (.any _) fun vt _ =>
    .ite (fun _ => ?_) fun _ => .bind (.any _) fun _ _ => ?_
  · exact .bind (fixListLt_linksOnly hl) fun _ h1 => .bind (.any _) fun _ _ =>
      .bind (makeChild_linksOnly h1) fun _ h2 =>
      .bind (makeChild_linksOnly h2) fun _ h3 => .bind (upd_linksOnly h3 fun _ => rfl) fun _ h4 =>
      .some (h4.setRoot z)
  · exact .bind (fixListGt_linksOnly hl) fun _ h1 => .bind (.any _) fun _ _ =>
      .bind (makeChild_linksOnly h1) fun _ h2 =>
      .bind (makeChild_linksOnly h2) fun _ h3 => .bind (upd_linksOnly h3 fun _ => rfl) fun _ h4 =>
      .some (h4.setRoot z)

theorem sSpTreeRemoveHelper_linksOnly (hl : LinksOnly h0 h) (hst : h.cell .stack = none) :
    Ensures (sSpTreeRemoveHelper h t) (LinksOnly h0) := by
  refine .bind (fixListRm_linksOnly (.refl h)) fun h1 h01 => .bind (.any _) fun _ _ =>
    .ite (fun _ => ?_) fun _ => ?_
  · exact .bind (sSpTreeSplay_linksOnly (hl.trans h01) (h01.stack hst)) fun out h2 =>
      .bind (upd_linksOnly h2 fun _ => rfl) fun _ h3 => .bind (.any _) fun _ _ =>
      .bind (makeChild_linksOnly h3) fun _ h4 => .some (h4.setRoot _)
  · exact .bind (updIf_linksOnly (hl.trans h01) fun _ => rfl) fun _ h2 => .some (h2.setRoot _)

end OpenOOC
