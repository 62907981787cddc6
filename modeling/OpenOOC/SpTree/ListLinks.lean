import OpenOOC.Lib.Links
import OpenOOC.SpTree.Splay

/-! The `FIX_LIST` macros: what they do to the list links, and that they touch
nothing else. -/

namespace OpenOOC

open Links

/-- The fields that the `FIX_LIST` macros leave alone. -/
def VmArea.treePart (v : VmArea) : Ptr × Ptr × Ptr × BitVec 64 × ℕ × ℕ :=
  (v.spP, v.spL, v.spR, v.vmFlags, v.vmStart, v.vmEnd)

def Heap.treePart (h : Heap) (x : Ref) : Option (Ptr × Ptr × Ptr × BitVec 64 × ℕ × ℕ) :=
  (h.cell x).map (·.treePart)

structure ListLinksOnly (h h' : Heap) : Prop where
  same : h' = { h with cell := h'.cell }
  treePart : ∀ x, h'.treePart x = h.treePart x

namespace ListLinksOnly

variable {h h' h'' : Heap}

theorem refl (h : Heap) : ListLinksOnly h h := ⟨rfl, fun _ => rfl⟩

theorem trans (h1 : ListLinksOnly h h') (h2 : ListLinksOnly h' h'') : ListLinksOnly h h'' :=
  ⟨by rw [h2.same, h1.same], fun x => (h2.treePart x).trans (h1.treePart x)⟩

theorem ok (hl : ListLinksOnly h h') (x : Ref) : h'.Ok x ↔ h.Ok x := by
  have := hl.treePart x
  unfold Heap.treePart at this
  unfold Heap.Ok
  cases h1 : h'.cell x <;> cases h2 : h.cell x <;> simp_all

theorem views (hl : ListLinksOnly h h') (x : Ref) :
    (∀ w, h'.child w x = h.child w x) ∧ h'.par x = h.par x ∧ h'.start x = h.start x ∧
      h'.stop x = h.stop x ∧ h'.flags x = h.flags x := by
  have := hl.treePart x
  unfold Heap.treePart at this
  unfold Heap.child Heap.par Heap.start Heap.stop Heap.flags
  cases h1 : h'.cell x with
  | none => cases h2 : h.cell x with
    | none => simp
    | some v => simp [h1, h2] at this
  | some v' => cases h2 : h.cell x with
    | none => simp [h1, h2] at this
    | some v =>
      simp only [h1, h2, Option.map_some, Option.some.injEq, VmArea.treePart, Prod.mk.injEq] at this
      obtain ⟨hp, hl, hr, hf, hs, he⟩ := this
      refine ⟨fun w => ?_,
        by simpa using hp, by simpa using hs, by simpa using he, by simpa using hf⟩
      cases w
      · simpa [VmArea.child] using hl
      · simpa [VmArea.child] using hr

theorem shape (hl : ListLinksOnly h h') {T : SplayTree.Tree Ref} (hs : Shape h T) : Shape h' T :=
  hs.congr (fun x _ => (hl.ok x).mpr) (fun x _ => (hl.views x).1) fun x _ => (hl.views x).2.1

end ListLinksOnly

/-! ### Single writes -/

section writes

variable {h : Heap} {a : Ref} {p : Ptr}

/-- `a->vm_next = p;` -/
def Heap.setNext (h : Heap) (a : Ref) (p : Ptr) : Heap := h.modify a fun v => { v with vmNext := p }

def Heap.setPrev (h : Heap) (a : Ref) (p : Ptr) : Heap := h.modify a fun v => { v with vmPrev := p }

theorem next_setNext (ha : h.Ok a) (x : Ref) :
    (h.setNext a p).next x = if x = a then p else h.next x := by
  obtain ⟨v, hv⟩ := Option.isSome_iff_exists.mp ha
  unfold Heap.next Heap.setNext
  rw [Heap.cell_modify]
  by_cases hx : x = a
  · subst hx; simp [hv]
  · simp [hx]

theorem prev_setPrev (ha : h.Ok a) (x : Ref) :
    (h.setPrev a p).prev x = if x = a then p else h.prev x := by
  obtain ⟨v, hv⟩ := Option.isSome_iff_exists.mp ha
  unfold Heap.prev Heap.setPrev
  rw [Heap.cell_modify]
  by_cases hx : x = a
  · subst hx; simp [hv]
  · simp [hx]

@[simp] theorem prev_setNext (x : Ref) : (h.setNext a p).prev x = h.prev x := by
  unfold Heap.prev Heap.setNext
  rw [Heap.cell_modify]
  split_ifs
  · cases h.cell x <;> simp
  · rfl

@[simp] theorem next_setPrev (x : Ref) : (h.setPrev a p).next x = h.next x := by
  unfold Heap.next Heap.setPrev
  rw [Heap.cell_modify]
  split_ifs
  · cases h.cell x <;> simp
  · rfl

@[simp] theorem ok_setNext (x : Ref) : (h.setNext a p).Ok x ↔ h.Ok x := h.ok_modify a x _

@[simp] theorem ok_setPrev (x : Ref) : (h.setPrev a p).Ok x ↔ h.Ok x := h.ok_modify a x _

theorem listLinksOnly_modify {f : VmArea → VmArea} (hf : ∀ v, (f v).treePart = v.treePart) :
    ListLinksOnly h (h.modify a f) := by
  refine ⟨rfl, fun x => ?_⟩
  unfold Heap.treePart
  rw [Heap.cell_modify]
  split_ifs
  · simp [Option.map_map, Function.comp_def, hf]
  · rfl

theorem listLinksOnly_setNext : ListLinksOnly h (h.setNext a p) := listLinksOnly_modify fun _ => rfl

theorem listLinksOnly_setPrev : ListLinksOnly h (h.setPrev a p) := listLinksOnly_modify fun _ => rfl

end writes

/-! ### The macros -/

/-- `if (p) p->vm_next = q;` -/
theorem updIf_next {h : Heap} {p : Ptr} (q : Ptr) (hp : ∀ x, p = some x → h.Ok x) :
    ∃ h', (h.updIf p fun v => { v with vmNext := q }) = some h' ∧ ListLinksOnly h h' ∧
      (∀ x, h'.next x = if p = some x then q else h.next x) ∧ ∀ x, h'.prev x = h.prev x := by
  cases p with
  | none => exact ⟨h, rfl, .refl h, by simp, fun _ => rfl⟩
  | some r =>
    have hr := hp r rfl
    refine ⟨h.setNext r q, h.updIf_eq hr _, listLinksOnly_setNext, fun x => ?_,
      fun x => prev_setNext x⟩
    rw [next_setNext hr]
    simp only [Option.some.injEq, eq_comm]

theorem updIf_prev {h : Heap} {p : Ptr} (q : Ptr) (hp : ∀ x, p = some x → h.Ok x) :
    ∃ h', (h.updIf p fun v => { v with vmPrev := q }) = some h' ∧ ListLinksOnly h h' ∧
      (∀ x, h'.prev x = if p = some x then q else h.prev x) ∧ ∀ x, h'.next x = h.next x := by
  cases p with
  | none => exact ⟨h, rfl, .refl h, by simp, fun _ => rfl⟩
  | some r =>
    have hr := hp r rfl
    refine ⟨h.setPrev r q, h.updIf_eq hr _, listLinksOnly_setPrev, fun x => ?_,
      fun x => next_setPrev x⟩
    rw [prev_setPrev hr]
    simp only [Option.some.injEq, eq_comm]

theorem fixListLt_eq {h : Heap} {a b : Ref} (ha : h.Ok a) (hb : h.Ok b) (hab : a ≠ b)
    (hp : ∀ x, h.prev b = some x → h.Ok x ∧ x ≠ a) :
    ∃ h', fixListLt h (some a) (some b) = some h' ∧ ListLinksOnly h h' ∧
      (∀ x, h'.next x = if x = a then some b else if h.prev b = some x then some a else h.next x) ∧
      ∀ x, h'.prev x = if x = a then h.prev b else if x = b then some a else h.prev x := by
  obtain ⟨vb, hvb, -, -, -, hvbp, -⟩ := h.cell_eq hb
  set h1 := h.setPrev a (h.prev b) with hh1
  set h2 := h1.setNext a (some b) with hh2
  have ha1 : h1.Ok a := (ok_setPrev a).mpr ha
  have ha2 : h2.Ok a := (ok_setNext a).mpr ha1
  have hpa2 : h2.prev a = h.prev b := by rw [hh2, prev_setNext, hh1, prev_setPrev ha, if_pos rfl]
  obtain ⟨va, hva, -, -, -, hvap, -⟩ := h2.cell_eq ha2
  have hf2 : ListLinksOnly h h2 := listLinksOnly_setPrev.trans listLinksOnly_setNext
  obtain ⟨h3, he3, hf3, hn3, hp3⟩ := updIf_next (h := h2) (p := h.prev b) (some a)
    fun x hx => (hf2.ok x).mpr (hp x hx).1
  have hb3 : h3.Ok b := ((hf2.trans hf3).ok b).mpr hb
  refine ⟨h3.setPrev b (some a), ?_, (hf2.trans hf3).trans listLinksOnly_setPrev, fun x => ?_,
    fun x => ?_⟩
  · unfold fixListLt
    have he1 : (h.upd (some a) fun v => { v with vmPrev := vb.vmPrev }) = some h1 := by
      rw [hvbp]; exact h.upd_eq ha _
    have he2 : (h1.upd (some a) fun v => { v with vmNext := some b }) = some h2 := h1.upd_eq ha1 _
    rw [← hpa2, ← hvap] at he3
    simp only [Heap.get_some, hvb, he1, he2, hva, he3, Option.bind_eq_bind, Option.bind_some]
    exact h3.upd_eq hb3 _
  · rw [next_setPrev, hn3, hh2, next_setNext ha1, hh1, next_setPrev]
    by_cases hx : x = a
    · subst hx
      rw [if_pos rfl, if_pos rfl, if_neg fun he => (hp _ he).2 rfl]
    · rw [if_neg hx, if_neg hx]
  · rw [prev_setPrev hb3, hp3, hh2, prev_setNext, hh1, prev_setPrev ha]
    by_cases hx : x = b
    · subst hx
      rw [if_pos rfl, if_neg hab.symm, if_pos rfl]
    · rw [if_neg hx, if_neg hx]

theorem fixListGt_eq {h : Heap} {a b : Ref} (ha : h.Ok a) (hb : h.Ok b) (hab : a ≠ b)
    (hn : ∀ x, h.next b = some x → h.Ok x ∧ x ≠ a) :
    ∃ h', fixListGt h (some a) (some b) = some h' ∧ ListLinksOnly h h' ∧
      (∀ x, h'.next x = if x = a then h.next b else if x = b then some a else h.next x) ∧
      ∀ x, h'.prev x = if x = a then some b else if h.next b = some x then some a
        else h.prev x := by
  set h1 := h.setPrev a (some b) with hh1
  have ha1 : h1.Ok a := (ok_setPrev a).mpr ha
  have hb1 : h1.Ok b := (ok_setPrev b).mpr hb
  obtain ⟨vb, hvb, -, -, hvbn, -⟩ := h1.cell_eq hb1
  have hnb1 : h1.next b = h.next b := next_setPrev b
  set h2 := h1.setNext a (h.next b) with hh2
  have ha2 : h2.Ok a := (ok_setNext a).mpr ha1
  have hna2 : h2.next a = h.next b := by rw [hh2, next_setNext ha1, if_pos rfl]
  obtain ⟨va, hva, -, -, hvan, -⟩ := h2.cell_eq ha2
  have hf2 : ListLinksOnly h h2 := listLinksOnly_setPrev.trans listLinksOnly_setNext
  obtain ⟨h3, he3, hf3, hp3, hn3⟩ := updIf_prev (h := h2) (p := h.next b) (some a)
    fun x hx => (hf2.ok x).mpr (hn x hx).1
  have hb3 : h3.Ok b := ((hf2.trans hf3).ok b).mpr hb
  refine ⟨h3.setNext b (some a), ?_, (hf2.trans hf3).trans listLinksOnly_setNext, fun x => ?_,
    fun x => ?_⟩
  · unfold fixListGt
    have he1 : (h.upd (some a) fun v => { v with vmPrev := some b }) = some h1 := h.upd_eq ha _
    have he2 : (h1.upd (some a) fun v => { v with vmNext := vb.vmNext }) = some h2 := by
      rw [hvbn, hnb1]; exact h1.upd_eq ha1 _
    rw [← hna2, ← hvan] at he3
    simp only [Heap.get_some, he1, hvb, he2, hva, he3, Option.bind_eq_bind, Option.bind_some]
    exact h3.upd_eq hb3 _
  · rw [next_setNext hb3, hn3, hh2, next_setNext ha1, hh1, next_setPrev]
    by_cases hx : x = b
    · subst hx
      rw [if_pos rfl, if_neg hab.symm, if_pos rfl]
    · rw [if_neg hx, if_neg hx]
  · rw [prev_setNext, hp3, hh2, prev_setNext, hh1, prev_setPrev ha]
    by_cases hx : x = a
    · subst hx
      rw [if_pos rfl, if_pos rfl, if_neg fun he => (hn _ he).2 rfl]
    · rw [if_neg hx, if_neg hx]

theorem fixListRm_eq {h : Heap} {a : Ref} (ha : h.Ok a)
    (hp : ∀ x, h.prev a = some x → h.Ok x ∧ x ≠ a) (hn : ∀ x, h.next a = some x → h.Ok x ∧ x ≠ a) :
    ∃ h', fixListRm h (some a) = some h' ∧ ListLinksOnly h h' ∧
      (∀ x, h'.next x = if h.prev a = some x then h.next a else h.next x) ∧
      ∀ x, h'.prev x = if h.next a = some x then h.prev a else h.prev x := by
  obtain ⟨va, hva, -, -, hvan, hvap, -⟩ := h.cell_eq ha
  obtain ⟨h1, he1, hf1, hn1, hp1⟩ := updIf_next (h := h) (p := h.prev a) (h.next a)
    fun x hx => (hp x hx).1
  obtain ⟨va1, hva1, -, -, hvan1, hvap1, -⟩ := h1.cell_eq ((hf1.ok a).mpr ha)
  have hna1 : h1.next a = h.next a := by rw [hn1, if_neg fun he => (hp a he).2 rfl]
  obtain ⟨h2, he2, hf2, hp2, hn2⟩ := updIf_prev (h := h1) (p := h.next a) (h.prev a)
    fun x hx => (hf1.ok x).mpr (hn x hx).1
  refine ⟨h2, ?_, hf1.trans hf2, fun x => by rw [hn2, hn1], fun x => by rw [hp2, hp1]⟩
  unfold fixListRm
  rw [← hvap, ← hvan] at he1
  rw [← hna1, ← hvan1, ← hp1 a, ← hvap1] at he2
  simp only [Heap.get_some, hva, he1, hva1, he2, Option.bind_eq_bind, Option.bind_some]

end OpenOOC
