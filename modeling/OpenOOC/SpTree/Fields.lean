import OpenOOC.SpTree.Code

/-! Total views of the fields of a heap, and what the macros of `sp_tree.c` do
to them. Every later proof reads structs through these views. -/

namespace OpenOOC

def Which.flip : Which → Which
  | .spL => .spR
  | .spR => .spL

attribute [local simp] Which.flip

@[simp] theorem Which.flip_flip (w : Which) : w.flip.flip = w := by cases w <;> rfl

@[simp] theorem Which.flip_ne (w : Which) : w.flip ≠ w := by cases w <;> decide

@[simp] theorem Which.ne_flip (w : Which) : w ≠ w.flip := by cases w <;> decide

def VmArea.child (v : VmArea) : Which → Ptr
  | .spL => v.spL
  | .spR => v.spR

/-- The fields that splaying leaves alone. -/
def VmArea.data (v : VmArea) : Ptr × Ptr × BitVec 64 × ℕ × ℕ :=
  (v.vmNext, v.vmPrev, v.vmFlags, v.vmStart, v.vmEnd)

namespace Heap

variable (h : Heap)

def Ok (r : Ref) : Prop := (h.cell r).isSome

def child (w : Which) (r : Ref) : Ptr := (h.cell r).bind (·.child w)
def par (r : Ref) : Ptr := (h.cell r).bind (·.spP)
def next (r : Ref) : Ptr := (h.cell r).bind (·.vmNext)
def prev (r : Ref) : Ptr := (h.cell r).bind (·.vmPrev)
def start (r : Ref) : ℕ := ((h.cell r).map (·.vmStart)).getD 0
def stop (r : Ref) : ℕ := ((h.cell r).map (·.vmEnd)).getD 0
def flags (r : Ref) : BitVec 64 := ((h.cell r).map (·.vmFlags)).getD 0
def data (r : Ref) : Option (Ptr × Ptr × BitVec 64 × ℕ × ℕ) := (h.cell r).map (·.data)

attribute [local simp] child VmArea.child VmArea.setChild

def modify (r : Ref) (f : VmArea → VmArea) : Heap :=
  { h with cell := Function.update h.cell r ((h.cell r).map f) }

theorem upd_eq {r : Ref} (hr : h.Ok r) (f : VmArea → VmArea) :
    h.upd (some r) f = some (h.modify r f) := by
  obtain ⟨v, hv⟩ := Option.isSome_iff_exists.mp hr
  simp [upd, modify, hv]

theorem updIf_eq {r : Ref} (hr : h.Ok r) (f : VmArea → VmArea) :
    h.updIf (some r) f = some (h.modify r f) := h.upd_eq hr f

@[simp] theorem updIf_none (f : VmArea → VmArea) : h.updIf none f = some h := rfl

@[simp] theorem get_some (r : Ref) : h.get (some r) = h.cell r := rfl

@[simp] theorem get_none : h.get none = none := rfl

theorem cell_modify (r x : Ref) (f : VmArea → VmArea) :
    (h.modify r f).cell x = if x = r then (h.cell x).map f else h.cell x := by
  by_cases hx : x = r
  · subst hx; simp [modify]
  · simp [modify, hx]

@[simp] theorem ok_modify (r x : Ref) (f : VmArea → VmArea) :
    (h.modify r f).Ok x ↔ h.Ok x := by
  unfold Ok
  rw [cell_modify]
  split_ifs <;> simp

@[simp] theorem root_modify (r : Ref) (f : VmArea → VmArea) : (h.modify r f).root = h.root := rfl

@[simp] theorem supply_modify (r : Ref) (f : VmArea → VmArea) :
    (h.modify r f).supply = h.supply := rfl

@[simp] theorem calls_modify (r : Ref) (f : VmArea → VmArea) :
    (h.modify r f).calls = h.calls := rfl

theorem cell_eq {r : Ref} (hr : h.Ok r) : ∃ v, h.cell r = some v ∧
    (∀ w, v.child w = h.child w r) ∧ v.spP = h.par r ∧ v.vmNext = h.next r ∧
    v.vmPrev = h.prev r ∧ v.vmStart = h.start r ∧ v.vmEnd = h.stop r ∧ v.vmFlags = h.flags r := by
  obtain ⟨v, hv⟩ := Option.isSome_iff_exists.mp hr
  exact ⟨v, hv, fun w => by simp [child, hv], by simp [par, hv], by simp [next, hv],
    by simp [prev, hv], by simp [start, hv], by simp [stop, hv], by simp [flags, hv]⟩

end Heap

/-! ### `MAKE_CHILD` -/

def VmArea.adopt (v : VmArea) (w : Which) (b : Ptr) : VmArea :=
  { v.setChild b w with spP := if v.spP = b then none else v.spP }

/-- What `MAKE_CHILD` leaves when both structs are there. -/
def Heap.linkChild (h : Heap) (a : Ref) (w : Which) (b : Ptr) : Heap :=
  { h with cell := fun r =>
      if r = a then (h.cell r).map (·.adopt w b)
      else if some r = b then (h.cell r).map fun v => { v with spP := some a }
      else h.cell r }

theorem VmArea.adopt_of_ne {v : VmArea} {b : Ptr} (w : Which) (hv : v.spP ≠ b) :
    v.adopt w b = v.setChild b w := by
  cases w <;> simp [adopt, setChild, hv]

theorem VmArea.adopt_of_eq {v : VmArea} {b : Ptr} (w : Which) (hv : v.spP = b) :
    v.adopt w b = { v.setChild b w with spP := none } := by
  cases w <;> simp [adopt, setChild, hv]

theorem makeChild_eq {h : Heap} {a : Ref} (w : Which) {b : Ptr} (ha : h.Ok a)
    (hb : ∀ r, b = some r → h.Ok r ∧ r ≠ a) :
    makeChild h (some a) w b = some (h.linkChild a w b) := by
  obtain ⟨va, hva⟩ := Option.isSome_iff_exists.mp ha
  have hpar : (va.setChild b w).spP = va.spP := by cases w <;> rfl
  unfold makeChild
  rw [Heap.upd_eq h ha]
  simp only [Option.bind_eq_bind, Option.bind_some]
  -- after the second line the heap has the child and, if there is one, its parent link
  obtain ⟨h2, hh2, hcell, hroot⟩ : ∃ h2,
      ((h.modify a fun v => v.setChild b w).updIf b fun v => { v with spP := some a }) = some h2 ∧
      (∀ r, h2.cell r = if r = a then some (va.setChild b w)
        else if some r = b then (h.cell r).map fun v => { v with spP := some a } else h.cell r) ∧
      h2 = { h with cell := h2.cell } := by
    cases b with
    | none =>
      refine ⟨_, rfl, fun r => ?_, rfl⟩
      rw [Heap.cell_modify]
      by_cases hr : r = a
      · subst hr; simp [hva]
      · simp [hr]
    | some b =>
      obtain ⟨hb, hne⟩ := hb b rfl
      refine ⟨_, Heap.updIf_eq _ (by simpa using hb) _, fun r => ?_, rfl⟩
      rw [Heap.cell_modify, Heap.cell_modify]
      by_cases hr : r = a
      · subst hr; simp [hva, hne.symm]
      · simp [hr]
  rw [hh2, Option.bind_some, Heap.get_some, hcell a, if_pos rfl, Option.bind_some, hpar]
  have hok : h2.Ok a := by simp [Heap.Ok, hcell]
  split_ifs with hp
  · rw [Heap.upd_eq _ hok, hroot]
    congr 1
    simp only [Heap.modify, Heap.linkChild]
    congr 1
    funext r
    by_cases hr : r = a
    · subst hr; simp [hva, hcell, VmArea.adopt_of_eq w hp]
    · simp [hr, hcell]
  · rw [hroot, Option.pure_def]
    congr 1
    simp only [Heap.linkChild]
    congr 1
    funext r
    by_cases hr : r = a
    · subst hr; simp [hva, hcell, VmArea.adopt_of_ne w hp]
    · simp [hr, hcell]

section linkChild

variable {h : Heap} {a : Ref} {w : Which} {b : Ptr}

theorem cell_linkChild (r : Ref) : (h.linkChild a w b).cell r =
    if r = a then (h.cell r).map (·.adopt w b)
    else if some r = b then (h.cell r).map fun v => { v with spP := some a }
    else h.cell r := rfl

@[simp] theorem ok_linkChild (r : Ref) : (h.linkChild a w b).Ok r ↔ h.Ok r := by
  unfold Heap.Ok
  rw [cell_linkChild]
  split_ifs <;> simp

@[simp] theorem data_linkChild (r : Ref) : (h.linkChild a w b).data r = h.data r := by
  have hd (v : VmArea) : (v.adopt w b).data = v.data := by cases w <;> rfl
  unfold Heap.data
  rw [cell_linkChild]
  split_ifs
  · simp [Option.map_map, Function.comp_def, hd]
  · simp [Option.map_map, Function.comp_def, VmArea.data]
  · rfl

theorem child_linkChild (ha : h.Ok a) (w' : Which) (r : Ref) :
    (h.linkChild a w b).child w' r = if r = a ∧ w' = w then b else h.child w' r := by
  obtain ⟨va, hva⟩ := Option.isSome_iff_exists.mp ha
  unfold Heap.child
  rw [cell_linkChild]
  by_cases hr : r = a
  · subst hr
    cases w <;> cases w' <;> simp [hva, VmArea.adopt, VmArea.setChild, VmArea.child]
  · simp only [hr, if_false, false_and]
    split_ifs
    · cases h.cell r <;> cases w' <;> simp [VmArea.child]
    · rfl

theorem par_linkChild (ha : h.Ok a) (hb : ∀ x, b = some x → h.Ok x ∧ x ≠ a) (r : Ref) :
    (h.linkChild a w b).par r = if r = a then (if h.par a = b then none else h.par a)
      else if some r = b then some a else h.par r := by
  obtain ⟨va, hva⟩ := Option.isSome_iff_exists.mp ha
  unfold Heap.par
  rw [cell_linkChild]
  by_cases hr : r = a
  · subst hr; simp [hva, VmArea.adopt]
  · simp only [hr, if_false]
    split_ifs with hrb
    · obtain ⟨vb, hvb⟩ := Option.isSome_iff_exists.mp (hb r hrb.symm).1
      simp [hvb]
    · rfl

end linkChild

/-! ### Other writes to tree links -/

section clearPar

variable {h : Heap} {a : Ref}

/-- `a->sp_p = NULL;` -/
def Heap.clearPar (h : Heap) (a : Ref) : Heap := h.modify a fun v => { v with spP := none }

@[simp] theorem ok_clearPar (x : Ref) : (h.clearPar a).Ok x ↔ h.Ok x := h.ok_modify a x _

theorem cell_clearPar_of_ne {x : Ref} (hx : x ≠ a) : (h.clearPar a).cell x = h.cell x := by
  rw [Heap.clearPar, Heap.cell_modify, if_neg hx]

@[simp] theorem child_clearPar (w : Which) (x : Ref) :
    (h.clearPar a).child w x = h.child w x := by
  unfold Heap.child Heap.clearPar
  rw [Heap.cell_modify]
  split_ifs
  · cases h.cell x <;> cases w <;> simp [VmArea.child]
  · rfl

theorem par_clearPar (x : Ref) : (h.clearPar a).par x = if x = a then none else h.par x := by
  unfold Heap.par Heap.clearPar
  rw [Heap.cell_modify]
  split_ifs
  · cases h.cell x <;> simp
  · rfl

@[simp] theorem data_clearPar (x : Ref) : (h.clearPar a).data x = h.data x := by
  unfold Heap.data Heap.clearPar
  rw [Heap.cell_modify]
  split_ifs
  · simp [Option.map_map, Function.comp_def, VmArea.data]
  · rfl

end clearPar

section clearChild

variable {h : Heap} {a : Ref} {w : Which}

def Heap.clearChild (h : Heap) (a : Ref) (w : Which) : Heap := h.modify a fun v => v.setChild none w

@[simp] theorem ok_clearChild (x : Ref) : (h.clearChild a w).Ok x ↔ h.Ok x := h.ok_modify a x _

theorem cell_clearChild_of_ne {x : Ref} (hx : x ≠ a) : (h.clearChild a w).cell x = h.cell x := by
  rw [Heap.clearChild, Heap.cell_modify, if_neg hx]

theorem child_clearChild (w' : Which) (x : Ref) :
    (h.clearChild a w).child w' x = if x = a ∧ w' = w then none else h.child w' x := by
  unfold Heap.child Heap.clearChild
  rw [Heap.cell_modify]
  by_cases hx : x = a
  · subst hx
    cases h.cell x <;> cases w <;> cases w' <;> simp [VmArea.child, VmArea.setChild]
  · simp [hx]

@[simp] theorem par_clearChild (x : Ref) : (h.clearChild a w).par x = h.par x := by
  unfold Heap.par Heap.clearChild
  rw [Heap.cell_modify]
  split_ifs
  · cases h.cell x <;> cases w <;> simp [VmArea.setChild]
  · rfl

@[simp] theorem data_clearChild (x : Ref) : (h.clearChild a w).data x = h.data x := by
  unfold Heap.data Heap.clearChild
  rw [Heap.cell_modify]
  split_ifs
  · cases h.cell x <;> cases w <;> simp [VmArea.data, VmArea.setChild]
  · rfl

end clearChild

end OpenOOC
