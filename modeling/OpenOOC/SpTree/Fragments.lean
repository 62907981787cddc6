import OpenOOC.Lib.SplayTree
import OpenOOC.SpTree.Fields

/-! Trees in memory while `S_sp_tree_splay` runs. The loop keeps four fragments
apart: the current tree, the two partial trees that hang off the stack node, and
the stack node itself. -/

namespace OpenOOC

export SplayTree (Tree)

open SplayTree SplayTree.Tree

/-! ### Trees in memory -/

/-- The root of `t`, if any, has the parent link `p`. -/
def Up (h : Heap) (p : Ref) (t : Tree Ref) : Prop := ∀ a, t.root? = some a → h.par a = some p

/-- The structs of `t` are linked as `t`, the parent link of its root aside. -/
def Shape (h : Heap) : Tree Ref → Prop
  | nil => True
  | node l a r => h.Ok a ∧ h.child .spL a = l.root? ∧ h.child .spR a = r.root? ∧
      Up h a l ∧ Up h a r ∧ Shape h l ∧ Shape h r

def branch (w : Which) (s : Tree Ref) (a : Ref) (c : Tree Ref) : Tree Ref :=
  match w with
  | .spL => node s a c
  | .spR => node c a s

theorem shape_branch {h : Heap} {w : Which} {s c : Tree Ref} {a : Ref} :
    Shape h (branch w s a c) ↔ h.Ok a ∧ h.child w a = s.root? ∧ h.child w.flip a = c.root? ∧
      Up h a s ∧ Up h a c ∧ Shape h s ∧ Shape h c := by
  cases w
  · exact Iff.rfl
  · simp only [branch, Shape, Which.flip]
    tauto

@[simp] theorem root?_branch (w : Which) (s c : Tree Ref) (a : Ref) :
    (branch w s a c).root? = some a := by
  cases w <;> rfl

@[simp] theorem mem_branch {w : Which} {s c : Tree Ref} {a x : Ref} :
    x ∈ (branch w s a c).toList ↔ x = a ∨ x ∈ s.toList ∨ x ∈ c.toList := by
  cases w <;> simp [branch] <;> tauto

def below : Tree Ref → List Ref
  | nil => []
  | node l _ r => l.toList ++ r.toList

theorem below_subset {t : Tree Ref} {x : Ref} (hx : x ∈ below t) : x ∈ t.toList := by
  cases t with
  | nil => simp [below] at hx
  | node l a r =>
    simp only [below, List.mem_append] at hx
    simp only [toList_node, List.mem_append, List.mem_cons]
    tauto

theorem below_ne_root {t : Tree Ref} (hnd : t.toList.Nodup) {x : Ref} (hx : x ∈ below t) :
    t.root? ≠ some x := by
  cases t with
  | nil => simp
  | node l a r =>
    rintro he
    obtain rfl : a = x := by simpa using he
    have := (List.nodup_cons.mp (List.perm_middle.nodup_iff.mp hnd)).1
    exact this hx

theorem Shape.congr {h h' : Heap} {t : Tree Ref} (hs : Shape h t)
    (hok : ∀ r ∈ t.toList, h.Ok r → h'.Ok r)
    (hch : ∀ r ∈ t.toList, ∀ w, h'.child w r = h.child w r)
    (hpar : ∀ r ∈ below t, h'.par r = h.par r) : Shape h' t := by
  induction t with
  | nil => trivial
  | node l a r ihl ihr =>
    obtain ⟨ha, hl, hr, hul, hur, hsl, hsr⟩ := hs
    refine ⟨hok a (by simp) ha, ?_, ?_, ?_, ?_, ?_, ?_⟩
    · rw [hch a (by simp), hl]
    · rw [hch a (by simp), hr]
    · intro x hx
      rw [hpar x (by simp [below, root?_mem hx]), hul x hx]
    · intro x hx
      rw [hpar x (by simp [below, root?_mem hx]), hur x hx]
    · exact ihl hsl (fun x hx => hok x (by simp [hx])) (fun x hx => hch x (by simp [hx]))
        fun x hx => hpar x (by simp [below, below_subset hx])
    · exact ihr hsr (fun x hx => hok x (by simp [hx])) (fun x hx => hch x (by simp [hx]))
        fun x hx => hpar x (by simp [below, below_subset hx])

/-! ### Partial trees -/

def top : List (Tree Ref × Ref) → Ref
  | [] => .stack
  | p :: _ => p.2

@[simp] theorem top_nil : top [] = .stack := rfl

@[simp] theorem top_cons (p : Tree Ref × Ref) (M : List (Tree Ref × Ref)) : top (p :: M) = p.2 :=
  rfl

def nodesOf : List (Tree Ref × Ref) → List Ref
  | [] => []
  | p :: M => p.2 :: p.1.toList ++ nodesOf M

/-- A partial tree in memory. Its finished parts hang on side `w`; each struct
hangs on the other side of the next one out, and the last on the stack node. -/
def Spine (h : Heap) (w : Which) : List (Tree Ref × Ref) → Prop
  | [] => True
  | p :: M => h.Ok p.2 ∧ h.child w p.2 = p.1.root? ∧ Up h p.2 p.1 ∧ Shape h p.1 ∧
      h.par p.2 = some (top M) ∧ h.child w.flip (top M) = some p.2 ∧ Spine h w M

theorem top_mem (M : List (Tree Ref × Ref)) : top M = .stack ∨ top M ∈ nodesOf M := by
  cases M <;> simp [top, nodesOf]

/-- A partial tree only depends on its structs, less the opening. -/
theorem Spine.congr {h h' : Heap} {w : Which} {M : List (Tree Ref × Ref)} (hs : Spine h w M)
    (hnd : (nodesOf M).Nodup) (hst : .stack ∉ nodesOf M)
    (hok : ∀ x ∈ nodesOf M, h.Ok x → h'.Ok x)
    (hpar : ∀ x ∈ nodesOf M, h'.par x = h.par x)
    (hch : ∀ x w', x ∈ nodesOf M ∨ x = .stack ∧ w' = w.flip → ¬ (x = top M ∧ w' = w.flip) →
      h'.child w' x = h.child w' x) : Spine h' w M := by
  induction M with
  | nil => trivial
  | cons p M ih =>
    obtain ⟨s, a⟩ := p
    obtain ⟨ha, hc, hu, hsh, hp, ht, hM⟩ := hs
    simp only [nodesOf, List.cons_append, List.nodup_cons, List.nodup_append, List.mem_cons,
      List.mem_append, not_or] at hnd hst
    obtain ⟨⟨has, haM⟩, hnds, hndM, hdis⟩ := hnd
    have htop : top M ≠ a := by
      rcases top_mem M with h0 | h0
      · rw [h0]; exact hst.1
      · exact fun he => haM (he ▸ h0)
    refine ⟨hok a (by simp [nodesOf]) ha, ?_, ?_, ?_, ?_, ?_, ?_⟩
    · rw [hch a w (by simp [nodesOf]) (by simp), hc]
    · intro x hx
      rw [hpar x (by simp [nodesOf, root?_mem hx]), hu x hx]
    · have hne : ∀ x ∈ s.toList, x ≠ a := fun x hx he => has (he ▸ hx)
      refine hsh.congr (fun x hx => hok x (by simp [nodesOf, hx]))
        (fun x hx w' => hch x w' (by simp [nodesOf, hx]) (by simp [hne x hx]))
        fun x hx => hpar x (by simp [nodesOf, below_subset hx])
    · rw [hpar a (by simp [nodesOf]), hp]
    · rw [hch (top M) w.flip ?_ (by simp [htop]), ht]
      rcases top_mem M with h0 | h0
      · exact Or.inr ⟨h0, rfl⟩
      · exact Or.inl (by simp [nodesOf, h0])
    · refine ih hM hndM hst.2.2 (fun x hx => hok x (by simp [nodesOf, hx]))
        (fun x hx => hpar x (by simp [nodesOf, hx])) fun x w' hx hx' => ?_
      refine hch x w' ?_ ?_
      · rcases hx with hx | hx
        · exact Or.inl (by simp [nodesOf, hx])
        · exact Or.inr hx
      · rintro ⟨rfl, -⟩
        rcases hx with hx | ⟨rfl, -⟩
        · exact haM hx
        · exact hst.1 rfl

/-! ### One step of the descent -/

/-- The state between two steps: two partial trees and a current tree, apart
from each other. `w` is the side of the finished parts in `M`. -/
structure Parts (h : Heap) (w : Which) (M O : List (Tree Ref × Ref)) (t : Tree Ref) : Prop where
  stack_ok : h.Ok .stack
  stack_par : h.par .stack = none
  this : Spine h w M
  other : Spine h w.flip O
  tree : Shape h t
  nodup : (nodesOf M ++ t.toList ++ nodesOf O).Nodup
  stack_notMem : .stack ∉ nodesOf M ++ t.toList ++ nodesOf O

theorem Parts.swap {h : Heap} {w : Which} {M O : List (Tree Ref × Ref)} {t : Tree Ref}
    (hp : Parts h w M O t) : Parts h w.flip O M t := by
  refine ⟨hp.stack_ok, hp.stack_par, hp.other, by simpa using hp.this, hp.tree, ?_, ?_⟩
  · have := hp.nodup
    simp only [List.nodup_append, List.mem_append] at this ⊢
    grind
  · have := hp.stack_notMem
    simp only [List.mem_append, not_or] at this ⊢
    tauto

theorem branch_perm (w : Which) (s c : Tree Ref) (a : Ref) :
    (branch w s a c).toList.Perm (a :: (s.toList ++ c.toList)) := by
  cases w
  · exact List.perm_middle
  · exact List.perm_middle.trans (List.perm_append_comm.cons a)

theorem branch_nodup {w : Which} {s c : Tree Ref} {a : Ref} :
    (branch w s a c).toList.Nodup ↔ (a :: (s.toList ++ c.toList)).Nodup :=
  (branch_perm w s c a).nodup_iff

theorem linkChild_of_ne {h : Heap} {a x : Ref} {w : Which} {b : Ptr} (hxa : x ≠ a)
    (hxb : some x ≠ b) : (h.linkChild a w b).cell x = h.cell x := by
  rw [cell_linkChild, if_neg hxa, if_neg hxb]

theorem child_of_cell {h h' : Heap} {x : Ref} (hc : h'.cell x = h.cell x) (w : Which) :
    h'.child w x = h.child w x := by
  unfold Heap.child; rw [hc]

theorem par_of_cell {h h' : Heap} {x : Ref} (hc : h'.cell x = h.cell x) : h'.par x = h.par x := by
  unfold Heap.par; rw [hc]

theorem ok_of_cell {h h' : Heap} {x : Ref} (hc : h'.cell x = h.cell x) : h'.Ok x ↔ h.Ok x := by
  unfold Heap.Ok; rw [hc]

theorem fragments_ne {A B C : List Ref} (hnd : (A ++ B ++ C).Nodup) {x y : Ref} :
    (x ∈ A → y ∈ B → x ≠ y) ∧ (x ∈ A → y ∈ C → x ≠ y) ∧ (x ∈ B → y ∈ C → x ≠ y) := by
  simp only [List.nodup_append, List.mem_append] at hnd
  exact ⟨fun hx hy => hnd.1.2.2 x hx y hy, fun hx hy => hnd.2.2 x (Or.inl hx) y hy,
    fun hx hy => hnd.2.2 x (Or.inr hx) y hy⟩

theorem Parts.top_ne {h : Heap} {w : Which} {M O : List (Tree Ref × Ref)} {t : Tree Ref}
    (hp : Parts h w M O t) {x : Ref} (hx : x ∈ t.toList ∨ x ∈ nodesOf O) : x ≠ top M := by
  have hns := hp.stack_notMem
  simp only [List.mem_append, not_or] at hns
  rcases top_mem M with h0 | h0
  · rw [h0]
    rintro rfl
    tauto
  · rcases hx with hx | hx
    · exact ((fragments_ne hp.nodup).1 h0 hx).symm
    · exact ((fragments_ne hp.nodup).2.1 h0 hx).symm

theorem Parts.top_ok {h : Heap} {w : Which} {M O : List (Tree Ref × Ref)} {t : Tree Ref}
    (hp : Parts h w M O t) : h.Ok (top M) := by
  cases M with
  | nil => exact hp.stack_ok
  | cons p M => exact hp.this.1

/-- The opening's parent link never points into the current tree. -/
theorem Parts.top_par {h : Heap} {w : Which} {M O : List (Tree Ref × Ref)} {t : Tree Ref}
    (hp : Parts h w M O t) {x : Ref} (hx : x ∈ t.toList) : h.par (top M) ≠ some x := by
  cases M with
  | nil =>
    rw [top_nil, hp.stack_par]
    simp
  | cons p M =>
    rw [top_cons, hp.this.2.2.2.2.1]
    rintro he
    obtain rfl : top M = x := Option.some.inj he
    have hns := hp.stack_notMem
    simp only [List.mem_append, not_or] at hns
    rcases top_mem M with h0 | h0
    · exact hns.1.2 (h0 ▸ hx)
    · exact (fragments_ne hp.nodup).1 (by simp [nodesOf, h0]) hx rfl

/-- Linking: the current root with its part on side `w` joins the partial tree
on that side, and the search goes on in the other part. -/
theorem Parts.link {h : Heap} {w : Which} {M O : List (Tree Ref × Ref)} {s c : Tree Ref} {t : Ref}
    (hp : Parts h w M O (branch w s t c)) :
    Parts (h.linkChild (top M) w.flip (some t)) w ((s, t) :: M) O c := by
  have htop {x : Ref} := hp.top_ne (x := x)
  have hparM := hp.top_par (x := t) (by simp)
  have hokM := hp.top_ok
  obtain ⟨hst, hsp, hM, hO, hT, hnd, hns⟩ := hp
  obtain ⟨ht, hs, hc, hus, huc, hss, hsc⟩ := shape_branch.mp hT
  simp only [mem_branch] at htop
  have htM : t ≠ top M := htop (by simp)
  have hnd' : (nodesOf ((s, t) :: M) ++ c.toList ++ nodesOf O).Nodup := by
    simp only [List.nodup_append, branch_nodup, List.mem_append, mem_branch, nodesOf,
      List.cons_append, List.nodup_cons] at hnd ⊢
    grind
  have hns' : .stack ∉ nodesOf ((s, t) :: M) ++ c.toList ++ nodesOf O := by
    simp only [List.mem_append, mem_branch, nodesOf, List.cons_append, List.mem_cons, not_or]
      at hns ⊢
    tauto
  simp only [List.mem_append, mem_branch, not_or] at hns
  have hsc_ne {x : Ref} (hx : x ∈ s.toList ∨ x ∈ c.toList) : x ≠ t := by
    have := branch_nodup.mp ((List.nodup_append.mp (List.nodup_append.mp hnd).1).2.1)
    rintro rfl
    exact (List.nodup_cons.mp this).1 (List.mem_append.mpr hx)
  have hMt {x : Ref} (hx : x ∈ nodesOf M) : x ≠ t := (fragments_ne hnd).1 hx (by simp)
  have hOt {x : Ref} (hx : x ∈ nodesOf O) : x ≠ t := ((fragments_ne hnd).2.2 (by simp) hx).symm
  have hcell {x : Ref} (h1 : x ≠ top M) (h2 : x ≠ t) :
      (h.linkChild (top M) w.flip (some t)).cell x = h.cell x :=
    linkChild_of_ne h1 (by simpa using h2)
  have hsub {u : Tree Ref} (hu : ∀ x ∈ u.toList, x ≠ top M ∧ x ≠ t) (hsu : Shape h u) :
      Shape (h.linkChild (top M) w.flip (some t)) u := by
    refine hsu.congr (fun x hx => (ok_of_cell (hcell (hu x hx).1 (hu x hx).2)).mpr)
      (fun x hx => child_of_cell (hcell (hu x hx).1 (hu x hx).2)) fun x hx => ?_
    have hx' := below_subset hx
    exact par_of_cell (hcell (hu x hx').1 (hu x hx').2)
  have hpar (x : Ref) := par_linkChild (w := w.flip) (b := some t) hokM
    (fun y hy => by obtain rfl : t = y := by simpa using hy
                    exact ⟨ht, htM⟩) x
  refine ⟨by simpa using hst, ?_, ⟨by simpa using ht, ?_, ?_, ?_, ?_, ?_, ?_⟩, ?_, ?_, hnd', hns'⟩
  · rw [hpar, if_neg hparM]
    split_ifs with h1 h2
    · rw [← h1, hsp]
    · exact absurd (Option.some.inj h2) (fun he => hns.1.2.1 he)
    · exact hsp
  · rw [child_linkChild hokM, if_neg (fun he => htM he.1), hs]
  · intro x hx
    have hxs := root?_mem hx
    rw [par_of_cell (hcell (htop (by simp [hxs])) (hsc_ne (Or.inl hxs))), hus x hx]
  · exact hsub (fun x hx => ⟨htop (by simp [hx]), hsc_ne (Or.inl hx)⟩) hss
  · rw [hpar, if_neg htM, if_pos rfl]
  · rw [child_linkChild hokM, if_pos ⟨rfl, rfl⟩]
  · refine hM.congr ((List.nodup_append.mp (List.nodup_append.mp hnd).1).1) hns.1.1
      (fun x _ => (ok_linkChild x).mpr) (fun x hx => ?_) fun x w' _ hx' => ?_
    · rw [hpar, if_neg hparM]
      split_ifs with h1 h2
      · rw [h1]
      · exact absurd (Option.some.inj h2) (hMt hx)
      · rfl
    · rw [child_linkChild hokM, if_neg hx']
  · refine hO.congr ((List.nodup_append.mp hnd).2.1) hns.2
      (fun x _ => (ok_linkChild x).mpr)
      (fun x hx => par_of_cell (hcell (htop (Or.inr hx)) (hOt hx))) fun x w' hx _ => ?_
    rw [child_linkChild hokM, if_neg]
    rintro ⟨rfl, rfl⟩
    rcases hx with hx | ⟨-, he⟩
    · exact htop (Or.inr hx) rfl
    · exact absurd he (by simp)
  · exact hsub (fun x hx => ⟨htop (by simp [hx]), hsc_ne (Or.inr hx)⟩) hsc

/-- Changing only structs of the current tree leaves the partial trees alone. -/
theorem Parts.replace_tree {h h' : Heap} {w : Which} {M O : List (Tree Ref × Ref)}
    {t t' : Tree Ref} (hp : Parts h w M O t) (hl : t'.toList = t.toList)
    (hcell : ∀ x, x ∉ t.toList → h'.cell x = h.cell x) (hs : Shape h' t') : Parts h' w M O t' := by
  obtain ⟨hst, hsp, hM, hO, -, hnd, hns⟩ := hp
  have hns0 := hns
  simp only [List.mem_append, not_or] at hns0
  have hMc {x : Ref} (hx : x ∈ nodesOf M) : h'.cell x = h.cell x :=
    hcell x fun hxt => (fragments_ne hnd).1 hx hxt rfl
  have hOc {x : Ref} (hx : x ∈ nodesOf O) : h'.cell x = h.cell x :=
    hcell x fun hxt => (fragments_ne hnd).2.2 hxt hx rfl
  have hsc := hcell .stack hns0.1.2
  refine ⟨(ok_of_cell hsc).mpr hst, (par_of_cell hsc).trans hsp, ?_, ?_, hs, by rwa [hl],
    by rwa [hl]⟩
  · refine hM.congr (List.nodup_append.mp (List.nodup_append.mp hnd).1).1 hns0.1.1
      (fun x hx => (ok_of_cell (hMc hx)).mpr) (fun x hx => par_of_cell (hMc hx)) ?_
    rintro x w' (hx | ⟨rfl, -⟩) -
    · exact child_of_cell (hMc hx) w'
    · exact child_of_cell hsc w'
  · refine hO.congr (List.nodup_append.mp hnd).2.1 hns0.2
      (fun x hx => (ok_of_cell (hOc hx)).mpr) (fun x hx => par_of_cell (hOc hx)) ?_
    rintro x w' (hx | ⟨rfl, -⟩) -
    · exact child_of_cell (hOc hx) w'
    · exact child_of_cell hsc w'

/-- Rotating `y` above `t`: the two `MAKE_CHILD`s of a step in one direction. -/
def Heap.rotate (h : Heap) (w : Which) (t y : Ref) (inner : Ptr) : Heap :=
  (h.linkChild t w inner).linkChild y w.flip (some t)

theorem Shape.rotate {h : Heap} {w : Which} {ll lr r : Tree Ref} {t y : Ref}
    (hT : Shape h (branch w (branch w ll y lr) t r))
    (hnd : (branch w (branch w ll y lr) t r).toList.Nodup) :
    Shape (h.rotate w t y lr.root?) (branch w ll y (branch w lr t r)) := by
  obtain ⟨ht, -, htr, huy, hur, hTy, hsr⟩ := shape_branch.mp hT
  obtain ⟨hy, hyl, -, hull, -, hsll, hslr⟩ := shape_branch.mp hTy
  have hnd1 := List.nodup_cons.mp (branch_nodup.mp hnd)
  obtain ⟨hndy, -, hyr⟩ := List.nodup_append.mp hnd1.2
  have hnd2 := List.nodup_cons.mp (branch_nodup.mp hndy)
  obtain ⟨-, -, hlllr⟩ := List.nodup_append.mp hnd2.2
  simp only [List.mem_append, mem_branch, not_or] at hnd1 hnd2 hyr
  have hty : t ≠ y := hnd1.1.1.1
  have hlr : ∀ x, lr.root? = some x → h.Ok x ∧ x ≠ t := by
    intro x hx
    refine ⟨?_, fun he => hnd1.1.1.2.2 (he ▸ root?_mem hx)⟩
    cases lr with
    | nil => simp at hx
    | node a b c => obtain rfl : b = x := by simpa using hx
                    exact hslr.1
  have ht1 : (h.linkChild t w lr.root?).Ok t := by simpa using ht
  have hy1 : (h.linkChild t w lr.root?).Ok y := by simpa using hy
  have hok (x : Ref) : (h.rotate w t y lr.root?).Ok x ↔ h.Ok x := by simp [Heap.rotate]
  have hch (w' : Which) (x : Ref) : (h.rotate w t y lr.root?).child w' x =
      if x = y ∧ w' = w.flip then some t else if x = t ∧ w' = w then lr.root?
        else h.child w' x := by
    rw [Heap.rotate, child_linkChild hy1, child_linkChild ht]
  have hpar (x : Ref) (hx : x ≠ y) : (h.rotate w t y lr.root?).par x =
      if x = t then some y else if some x = lr.root? then some t else h.par x := by
    rw [Heap.rotate, par_linkChild hy1 (by simp [ht, hty]), if_neg hx, par_linkChild ht hlr x]
    by_cases hxt : x = t <;> simp [hxt]
  have hpar_of {x : Ref} (hx : x ≠ y) (hxt : x ≠ t) (hxl : lr.root? ≠ some x) :
      (h.rotate w t y lr.root?).par x = h.par x := by
    rw [hpar x hx, if_neg hxt, if_neg (Ne.symm hxl)]
  have hch_of {x : Ref} (hx : x ≠ y) (hxt : x ≠ t) (w' : Which) :
      (h.rotate w t y lr.root?).child w' x = h.child w' x := by
    rw [hch, if_neg (fun he => hx he.1), if_neg (fun he => hxt he.1)]
  have hsub {u : Tree Ref} (hsu : Shape h u)
      (hu : ∀ x ∈ u.toList, x ≠ y ∧ x ≠ t) (hub : ∀ x ∈ below u, lr.root? ≠ some x) :
      Shape (h.rotate w t y lr.root?) u := by
    refine hsu.congr (fun x _ => (hok x).mpr) (fun x hx => hch_of (hu x hx).1 (hu x hx).2)
      fun x hx => ?_
    have hx' := below_subset hx
    exact hpar_of (hu x hx').1 (hu x hx').2 (hub x hx)
  refine shape_branch.mpr ⟨(hok y).mpr hy, ?_, ?_, ?_, ?_, ?_,
    shape_branch.mpr ⟨(hok t).mpr ht, ?_, ?_, ?_, ?_, ?_, ?_⟩⟩
  · rw [hch, if_neg (by simp), if_neg (by simp [hty.symm]), hyl]
  · rw [hch, if_pos ⟨rfl, rfl⟩, root?_branch]
  · intro x hx
    have hxl := root?_mem hx
    rw [hpar_of (fun he => hnd2.1.1 (he ▸ hxl)) (fun he => hnd1.1.1.2.1 (he ▸ hxl))
      (fun he => hlllr x hxl x (root?_mem he) rfl), hull x hx]
  · intro x hx
    obtain rfl : t = x := by simpa using hx
    rw [hpar t hty, if_pos rfl]
  · refine hsub hsll (fun x hx => ⟨fun he => hnd2.1.1 (he ▸ hx), fun he => hnd1.1.1.2.1 (he ▸ hx)⟩)
      fun x hx he => hlllr x (below_subset hx) x (root?_mem he) rfl
  · rw [hch, if_neg (by simp [hty]), if_pos ⟨rfl, rfl⟩]
  · rw [hch, if_neg (by simp [hty]), if_neg (by simp), htr]
  · intro x hx
    have hxl := root?_mem hx
    rw [hpar x (fun he => hnd2.1.2 (he ▸ hxl)), if_neg (hlr x hx).2, if_pos hx.symm]
  · intro x hx
    have hxr := root?_mem hx
    rw [hpar_of (fun he => hyr y (Or.inl rfl) x hxr he.symm) (fun he => hnd1.1.2 (he ▸ hxr))
      (fun he => hyr x (Or.inr (Or.inr (root?_mem he))) x hxr rfl), hur x hx]
  · refine hslr.congr (fun x _ => (hok x).mpr) (fun x hx => hch_of ?_ ?_) fun x hx => ?_
    · exact fun he => hnd2.1.2 (he ▸ hx)
    · exact fun he => hnd1.1.1.2.2 (he ▸ hx)
    · have hx' := below_subset hx
      refine hpar_of (fun he => hnd2.1.2 (he ▸ hx')) (fun he => hnd1.1.1.2.2 (he ▸ hx')) ?_
      exact below_ne_root (List.nodup_append.mp hnd2.2).2.1 hx
  · refine hsub hsr (fun x hx => ⟨fun he => hyr y (Or.inl rfl) x hx he.symm,
      fun he => hnd1.1.2 (he ▸ hx)⟩) fun x hx he =>
        hyr x (Or.inr (Or.inr (root?_mem he))) x (below_subset hx) rfl

/-! ### What splaying leaves alone -/

/-- Only tree links of structs of `N`, and of the stack node, may differ. -/
structure TreeLinksOnly (N : List Ref) (h h' : Heap) : Prop where
  same : h' = { h with cell := h'.cell }
  ok : ∀ x, h'.Ok x ↔ h.Ok x
  data : ∀ x, h'.data x = h.data x
  outside : ∀ x, x ≠ .stack → x ∉ N → h'.cell x = h.cell x

theorem TreeLinksOnly.refl (N : List Ref) (h : Heap) : TreeLinksOnly N h h :=
  ⟨rfl, fun _ => Iff.rfl, fun _ => rfl, fun _ _ _ => rfl⟩

theorem TreeLinksOnly.trans {N : List Ref} {h h' h'' : Heap} (h1 : TreeLinksOnly N h h')
    (h2 : TreeLinksOnly N h' h'') : TreeLinksOnly N h h'' :=
  ⟨by rw [h2.same, h1.same], fun x => (h2.ok x).trans (h1.ok x),
    fun x => (h2.data x).trans (h1.data x),
    fun x hs hx => (h2.outside x hs hx).trans (h1.outside x hs hx)⟩

theorem TreeLinksOnly.mono {N N' : List Ref} {h h' : Heap} (hf : TreeLinksOnly N h h')
    (hN : ∀ x ∈ N, x ∈ N') : TreeLinksOnly N' h h' :=
  ⟨hf.same, hf.ok, hf.data, fun x hs hx => hf.outside x hs fun hx' => hx (hN x hx')⟩

theorem treeLinksOnly_linkChild {N : List Ref} {h : Heap} {a : Ref} {w : Which} {b : Ptr}
    (ha : a = .stack ∨ a ∈ N) (hb : ∀ x, b = some x → x ∈ N) :
    TreeLinksOnly N h (h.linkChild a w b) := by
  refine ⟨rfl, ok_linkChild, data_linkChild, fun x hs hx => linkChild_of_ne ?_ ?_⟩
  · rintro rfl
    tauto
  · exact fun he => hx (hb x he.symm)

theorem start_of_data {h h' : Heap} {x : Ref} (hd : h'.data x = h.data x) :
    h'.start x = h.start x := by
  unfold Heap.data at hd
  unfold Heap.start
  cases h1 : h'.cell x <;> cases h2 : h.cell x <;> simp_all [VmArea.data]

end OpenOOC
