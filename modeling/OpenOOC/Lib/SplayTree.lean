import Mathlib.Data.List.Basic
import Mathlib.Data.List.Nodup
import Mathlib.Data.List.Pairwise
import Mathlib.Tactic.Common

/-! Top-down splaying of binary trees. A search is given by what it answers at
each element (`Ordering`), so nothing is assumed about keys: splaying keeps the
in-order sequence and puts the last element the search visits at the root, for
every answer function. Where the answers are monotone along the in-order
sequence that element is the match, or a neighbour of the gap. -/

namespace SplayTree

inductive Tree (α : Type*)
  | nil
  | node (l : Tree α) (a : α) (r : Tree α)
  deriving DecidableEq

variable {α : Type*}

namespace Tree

def toList : Tree α → List α
  | nil => []
  | node l a r => l.toList ++ a :: r.toList

def root? : Tree α → Option α
  | nil => none
  | node _ a _ => some a

def size : Tree α → ℕ
  | nil => 0
  | node l _ r => l.size + r.size + 1

@[simp] theorem toList_nil : (nil : Tree α).toList = [] := rfl

@[simp] theorem toList_node (l r : Tree α) (a : α) :
    (node l a r).toList = l.toList ++ a :: r.toList := rfl

@[simp] theorem root?_nil : (nil : Tree α).root? = none := rfl

@[simp] theorem root?_node (l r : Tree α) (a : α) : (node l a r).root? = some a := rfl

@[simp] theorem root?_eq_none {t : Tree α} : t.root? = none ↔ t = nil := by
  cases t <;> simp

@[simp] theorem size_nil : (nil : Tree α).size = 0 := rfl

@[simp] theorem size_node (l r : Tree α) (a : α) :
    (node l a r).size = l.size + r.size + 1 := rfl

theorem length_toList (t : Tree α) : t.toList.length = t.size := by
  induction t with
  | nil => rfl
  | node l a r ihl ihr => simp [ihl, ihr]; omega

theorem root?_mem {t : Tree α} {a : α} (h : t.root? = some a) : a ∈ t.toList := by
  cases t with
  | nil => simp at h
  | node l b r => obtain rfl : b = a := by simpa using h
                  simp

/-- Two trees made one: the last element of the left tree is its root, if there is one. -/
def Joined (l r t : Tree α) : Prop := l = nil ∧ t = r ∨ ∃ l' a, l.toList = l'.toList ++ [a] ∧
    t = node l' a r

theorem Joined.toList {l r t : Tree α} (h : Joined l r t) : t.toList = l.toList ++ r.toList := by
  rcases h with ⟨rfl, rfl⟩ | ⟨l', a, hl, rfl⟩
  · rfl
  · rw [hl, toList_node, List.append_assoc, List.singleton_append]

theorem Joined.root? {l r t : Tree α} (h : Joined l r t) (hl : l ≠ nil) :
    t.root? = l.toList.getLast? := by
  rcases h with ⟨rfl, -⟩ | ⟨l', a, hl', rfl⟩
  · exact absurd rfl hl
  · simp [hl']

/-- `z` is put above the root of `node l t r`, which is its right or its left child. -/
def Rooted (l : Tree α) (t : α) (r : Tree α) (z : α) (T : Tree α) : Prop :=
  T = node l z (node nil t r) ∨ T = node (node l t nil) z r

end Tree

open SplayTree.Tree

/-- The last element met by a search that goes left on `lt` and right on `gt`. -/
def lastVisited (cmp : α → Ordering) : Tree α → Option α
  | nil => none
  | node l a r =>
    match cmp a with
    | .lt => (lastVisited cmp l).or (some a)
    | .gt => (lastVisited cmp r).or (some a)
    | .eq => some a

/-- A partial tree open at its right end: finished left parts with the element
above them, innermost first. `plugL` closes it with what goes into the opening. -/
def plugL (L : List (Tree α × α)) (t : Tree α) : Tree α :=
  L.foldl (fun t p => node p.1 p.2 t) t

def plugR (R : List (Tree α × α)) (t : Tree α) : Tree α :=
  R.foldl (fun t p => node t p.2 p.1) t

def listL : List (Tree α × α) → List α
  | [] => []
  | p :: L => listL L ++ p.1.toList ++ [p.2]

def listR : List (Tree α × α) → List α
  | [] => []
  | p :: R => p.2 :: p.1.toList ++ listR R

@[simp] theorem plugL_nil (t : Tree α) : plugL [] t = t := rfl

@[simp] theorem plugL_cons (p : Tree α × α) (L : List (Tree α × α)) (t : Tree α) :
    plugL (p :: L) t = plugL L (node p.1 p.2 t) := rfl

@[simp] theorem plugR_nil (t : Tree α) : plugR [] t = t := rfl

@[simp] theorem plugR_cons (p : Tree α × α) (R : List (Tree α × α)) (t : Tree α) :
    plugR (p :: R) t = plugR R (node t p.2 p.1) := rfl

theorem toList_plugL (L : List (Tree α × α)) (t : Tree α) :
    (plugL L t).toList = listL L ++ t.toList := by
  induction L generalizing t with
  | nil => rfl
  | cons p L ih => rw [plugL_cons, ih]; simp [listL]

theorem toList_plugR (R : List (Tree α × α)) (t : Tree α) :
    (plugR R t).toList = t.toList ++ listR R := by
  induction R generalizing t with
  | nil => simp [listR]
  | cons p R ih => rw [plugR_cons, ih]; simp [listR]

def assemble (L R : List (Tree α × α)) (l : Tree α) (a : α) (r : Tree α) : Tree α :=
  node (plugL L l) a (plugR R r)

/-- One descent of top-down splaying. Two steps in one direction rotate before
they link; a step towards an empty child ends the descent. -/
def descend (cmp : α → Ordering) (L R : List (Tree α × α)) : Tree α → Tree α
  | nil => nil
  | node l t r =>
    match cmp t with
    | .eq => assemble L R l t r
    | .lt =>
      match l with
      | nil => assemble L R nil t r
      | node ll y lr =>
        if cmp y = .lt then
          match ll with
          | nil => assemble L R nil y (node lr t r)
          | node lll z llr => descend cmp L ((node lr t r, y) :: R) (node lll z llr)
        else descend cmp L ((r, t) :: R) (node ll y lr)
    | .gt =>
      match r with
      | nil => assemble L R l t nil
      | node rl y rr =>
        if cmp y = .gt then
          match rr with
          | nil => assemble L R (node l t rl) y nil
          | node rrl z rrr => descend cmp ((node l t rl, y) :: L) R (node rrl z rrr)
        else descend cmp ((l, t) :: L) R (node rl y rr)

section steps

variable {cmp : α → Ordering} {L R : List (Tree α × α)} {a y : α}

alias descend_eq := descend.eq_def

theorem descend_match {l r : Tree α} (ha : cmp a = .eq) :
    descend cmp L R (node l a r) = assemble L R l a r := by
  rw [descend_eq]; simp only [ha]

theorem descend_left_nil {r : Tree α} (ha : cmp a = .lt) :
    descend cmp L R (node nil a r) = assemble L R nil a r := by
  rw [descend_eq]; simp only [ha]

theorem descend_left {ll lr r : Tree α} (ha : cmp a = .lt) (hy : cmp y ≠ .lt) :
    descend cmp L R (node (node ll y lr) a r) = descend cmp L ((r, a) :: R) (node ll y lr) := by
  rw [descend_eq]; simp only [ha, hy, if_false]

theorem descend_left_left_nil {lr r : Tree α} (ha : cmp a = .lt) (hy : cmp y = .lt) :
    descend cmp L R (node (node nil y lr) a r) = assemble L R nil y (node lr a r) := by
  rw [descend_eq]; simp only [ha, hy, if_true]

theorem descend_left_left {ll lr r : Tree α} (ha : cmp a = .lt) (hy : cmp y = .lt)
    (hll : ll ≠ nil) :
    descend cmp L R (node (node ll y lr) a r) = descend cmp L ((node lr a r, y) :: R) ll := by
  cases ll with
  | nil => exact absurd rfl hll
  | node b z c => rw [descend_eq]; simp only [ha, hy, if_true]

theorem descend_right_nil {l : Tree α} (ha : cmp a = .gt) :
    descend cmp L R (node l a nil) = assemble L R l a nil := by
  rw [descend_eq]; simp only [ha]

theorem descend_right {l rl rr : Tree α} (ha : cmp a = .gt) (hy : cmp y ≠ .gt) :
    descend cmp L R (node l a (node rl y rr)) = descend cmp ((l, a) :: L) R (node rl y rr) := by
  rw [descend_eq]; simp only [ha, hy, if_false]

theorem descend_right_right_nil {l rl : Tree α} (ha : cmp a = .gt) (hy : cmp y = .gt) :
    descend cmp L R (node l a (node rl y nil)) = assemble L R (node l a rl) y nil := by
  rw [descend_eq]; simp only [ha, hy, if_true]

theorem descend_right_right {l rl rr : Tree α} (ha : cmp a = .gt) (hy : cmp y = .gt)
    (hrr : rr ≠ nil) :
    descend cmp L R (node l a (node rl y rr)) = descend cmp ((node l a rl, y) :: L) R rr := by
  cases rr with
  | nil => exact absurd rfl hrr
  | node b z c => rw [descend_eq]; simp only [ha, hy, if_true]

end steps

/-- Top-down splaying: the descent from an empty pair of partial trees. -/
def splay (cmp : α → Ordering) (t : Tree α) : Tree α := descend cmp [] [] t

theorem toList_assemble (L R : List (Tree α × α)) (l r : Tree α) (a : α) :
    (assemble L R l a r).toList = listL L ++ (node l a r).toList ++ listR R := by
  simp [assemble, toList_plugL, toList_plugR]

theorem toList_descend (cmp : α → Ordering) (L R : List (Tree α × α)) (t : Tree α)
    (ht : t ≠ nil) :
    (descend cmp L R t).toList = listL L ++ t.toList ++ listR R := by
  fun_induction descend cmp L R t <;>
    simp_all [toList_assemble, listL, listR]

/-- Splaying keeps the in-order sequence. -/
@[simp] theorem toList_splay (cmp : α → Ordering) (t : Tree α) :
    (splay cmp t).toList = t.toList := by
  cases t with
  | nil => rfl
  | node l a r => simp [splay, toList_descend, listL, listR]

theorem lastVisited_isSome (cmp : α → Ordering) (l r : Tree α) (a : α) :
    (lastVisited cmp (node l a r)).isSome := by
  unfold lastVisited
  cases cmp a <;> simp

theorem root?_descend (cmp : α → Ordering) (L R : List (Tree α × α)) (t : Tree α)
    (ht : t ≠ nil) : (descend cmp L R t).root? = lastVisited cmp t := by
  have hor : ∀ (l r : Tree α) (a : α) (x : Option α),
      (lastVisited cmp (node l a r)).or x = lastVisited cmp (node l a r) := fun l r a x =>
    Option.or_of_isSome (lastVisited_isSome cmp l r a)
  fun_induction descend cmp L R t <;>
    simp_all [assemble, lastVisited]

/-- Two trees made one: the left tree is splayed for what is above all of it. -/
def Merged (cmp : α → Ordering) (l r t : Tree α) : Prop :=
  l = nil ∧ t = r ∨ ∃ l' a, splay cmp l = node l' a nil ∧ t = node l' a r

/-- `z` is put above the root of the splayed tree. -/
def Placed (cmp : α → Ordering) (t : Tree α) (z : α) (T : Tree α) : Prop :=
  t = nil ∧ T = node nil z nil ∨ ∃ l a r, splay cmp t = node l a r ∧ Rooted l a r z T

theorem Merged.joined {cmp : α → Ordering} {l r t : Tree α} (h : Merged cmp l r t) :
    Joined l r t := by
  rcases h with h | ⟨l', a, hs, ht⟩
  · exact .inl h
  · refine .inr ⟨l', a, ?_, ht⟩
    rw [← toList_splay cmp l, hs, toList_node, toList_nil]

theorem root?_splay (cmp : α → Ordering) (t : Tree α) :
    (splay cmp t).root? = lastVisited cmp t := by
  cases t with
  | nil => rfl
  | node l a r => exact root?_descend cmp [] [] _ (by simp)

theorem lastVisited_mem {cmp : α → Ordering} {t : Tree α} {a : α} (h : lastVisited cmp t = some a) :
    a ∈ t.toList := by
  rw [← root?_splay] at h
  have hmem : a ∈ (splay cmp t).toList := by
    cases hs : splay cmp t with
    | nil => simp [hs] at h
    | node l b r =>
      obtain rfl : b = a := by simpa [hs] using h
      simp
  rwa [toList_splay] at hmem

/-- The search ends at the root: it is the target, or there is nothing on the target's side. -/
theorem lastVisited_eq_root {cmp : α → Ordering} {l r : Tree α} {a : α}
    (hnd : (node l a r).toList.Nodup) :
    lastVisited cmp (node l a r) = some a ↔ cmp a = .eq ∨ cmp a = .lt ∧ l = nil ∨ cmp a = .gt ∧
    r = nil := by
  rw [toList_node, List.perm_middle.nodup_iff, List.nodup_cons, List.mem_append, not_or] at hnd
  have hside {t : Tree α} (ht : a ∉ t.toList) : (lastVisited cmp t).or (some a) = some a ↔
      t = nil := by
    constructor
    · intro h
      cases hv : lastVisited cmp t with
      | none =>
        cases t with
        | nil => rfl
        | node tl b tr => simpa [hv] using lastVisited_isSome cmp tl tr b
      | some b =>
        obtain rfl : b = a := by simpa [hv] using h
        exact absurd (lastVisited_mem hv) ht
    · rintro rfl
      rfl
  cases hc : cmp a with
  | lt => simpa only [lastVisited, hc, reduceCtorEq, false_or, false_and, or_false, true_and] using
      hside hnd.1.1
  | gt => simpa only [lastVisited, hc, reduceCtorEq, false_or, false_and, or_false, true_and] using
      hside hnd.1.2
  | eq => simp [lastVisited, hc]

/-- The answers along the in-order sequence: below the target, then at most one
match, then above the target. -/
def Monotone (cmp : α → Ordering) (L : List α) : Prop :=
  L.Pairwise fun a b => cmp a = .gt ∨ cmp b = .lt

/-- What the last visited element separates: everything before it is below the
target and everything after it is above. -/
theorem lastVisited_split {cmp : α → Ordering} {t : Tree α} {a : α}
    (hm : Monotone cmp t.toList) (ha : lastVisited cmp t = some a) :
    ∃ L1 L2, t.toList = L1 ++ a :: L2 ∧ (∀ b ∈ L1, cmp b = .gt) ∧ ∀ b ∈ L2, cmp b = .lt := by
  induction t with
  | nil => simp [lastVisited] at ha
  | node l c r ihl ihr =>
    obtain ⟨hml, hmr, hmc⟩ := List.pairwise_append.mp hm
    obtain ⟨hcr, hmr⟩ := List.pairwise_cons.mp hmr
    unfold lastVisited at ha
    cases hc : cmp c with
    | lt =>
      have hr : ∀ b ∈ r.toList, cmp b = .lt := fun b hb => by simpa [hc] using hcr b hb
      cases hl : lastVisited cmp l with
      | none =>
        cases l with
        | nil =>
          obtain rfl : c = a := by simpa [hc, hl] using ha
          exact ⟨[], r.toList, rfl, by simp, hr⟩
        | node ll d lr => simpa [hl] using lastVisited_isSome cmp ll lr d
      | some d =>
        obtain rfl : d = a := by simpa [hc, hl] using ha
        obtain ⟨L1, L2, he, h1, h2⟩ := ihl hml hl
        refine ⟨L1, L2 ++ c :: r.toList, by simp [he], h1, fun b hb => ?_⟩
        rcases List.mem_append.mp hb with hb | hb
        · exact h2 b hb
        · rcases List.mem_cons.mp hb with rfl | hb
          · exact hc
          · exact hr b hb
    | eq =>
      obtain rfl : c = a := by simpa [hc] using ha
      refine ⟨l.toList, r.toList, rfl, fun b hb => ?_, fun b hb => ?_⟩
      · simpa [hc] using hmc b hb c (by simp)
      · simpa [hc] using hcr b hb
    | gt =>
      have hl : ∀ b ∈ l.toList, cmp b = .gt := fun b hb => by
        simpa [hc] using hmc b hb c (by simp)
      cases hr : lastVisited cmp r with
      | none =>
        cases r with
        | nil =>
          obtain rfl : c = a := by simpa [hc, hr] using ha
          exact ⟨l.toList, [], by simp, hl, by simp⟩
        | node rl d rr => simpa [hr] using lastVisited_isSome cmp rl rr d
      | some d =>
        obtain rfl : d = a := by simpa [hc, hr] using ha
        obtain ⟨L1, L2, he, h1, h2⟩ := ihr hmr hr
        refine ⟨l.toList ++ c :: L1, L2, by simp [he], fun b hb => ?_, h2⟩
        rcases List.mem_append.mp hb with hb | hb
        · exact hl b hb
        · rcases List.mem_cons.mp hb with rfl | hb
          · exact hc
          · exact h1 b hb

theorem append_cons_inj {L1 L2 L1' L2' : List α} {a : α} (hnd : (L1 ++ a :: L2).Nodup)
    (h : L1 ++ a :: L2 = L1' ++ a :: L2') : L1 = L1' ∧ L2 = L2' := by
  induction L1 generalizing L1' with
  | nil =>
    cases L1' with
    | nil => simpa using h
    | cons b L1' =>
      obtain ⟨rfl, rfl⟩ := List.cons.inj h
      simp at hnd
  | cons b L1 ih =>
    cases L1' with
    | nil =>
      obtain ⟨rfl, -⟩ := List.cons.inj h
      simp at hnd
    | cons c L1' =>
      obtain ⟨rfl, htl⟩ := List.cons.inj h
      obtain ⟨rfl, rfl⟩ := ih (List.nodup_cons.mp hnd).2 htl
      exact ⟨rfl, rfl⟩

/-- After splaying, the root separates what is below the target from what is
above it. -/
theorem splay_split {cmp : α → Ordering} {t : Tree α} (ht : t ≠ nil) (hnd : t.toList.Nodup)
    (hm : Monotone cmp t.toList) :
    ∃ l a r, splay cmp t = node l a r ∧ (∀ b ∈ l.toList, cmp b = .gt) ∧
      ∀ b ∈ r.toList, cmp b = .lt := by
  obtain ⟨l, a, r, hs⟩ : ∃ l a r, splay cmp t = node l a r := by
    cases h : splay cmp t with
    | nil =>
      have hl := toList_splay cmp t
      rw [h] at hl
      cases t with
      | nil => exact absurd rfl ht
      | node l a r => simp at hl
    | node l a r => exact ⟨l, a, r, rfl⟩
  have hroot : lastVisited cmp t = some a := by rw [← root?_splay, hs]; rfl
  have hlist : t.toList = l.toList ++ a :: r.toList := by rw [← toList_splay cmp t, hs]; rfl
  obtain ⟨L1, L2, he, h1, h2⟩ := lastVisited_split hm hroot
  rw [hlist] at he hnd
  obtain ⟨rfl, rfl⟩ := append_cons_inj hnd he
  exact ⟨l, a, r, hs, h1, h2⟩

end SplayTree
