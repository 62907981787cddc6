import OpenOOC.Lib.SplayTree
import Mathlib

/-! What simple top-down splaying costs. A round of the descent that rotates pays for two
rounds out of the potential, and so does a round that does not, together with the round
after it, which goes the other way. -/

namespace SplayTree

open SplayTree.Tree

variable {α : Type*}

def steps (cmp : α → Ordering) : Tree α → ℕ
  | nil => 0
  | node l a r =>
    match cmp a with
    | .eq => 1
    | .lt =>
      match l with
      | nil => 1
      | node ll y lr => (if cmp y = .lt then steps cmp ll else steps cmp (node ll y lr)) + 1
    | .gt =>
      match r with
      | nil => 1
      | node rl y rr => (if cmp y = .gt then steps cmp rr else steps cmp (node rl y rr)) + 1

namespace Tree

noncomputable def rank (t : Tree α) : ℝ := Real.logb 2 (t.size + 1)

noncomputable def potential : Tree α → ℝ
  | nil => 0
  | node l a r => l.potential + r.potential + (node l a r).rank

def mirror : Tree α → Tree α
  | nil => nil
  | node l a r => node r.mirror a l.mirror

end Tree

/-- The descent puts `l` and `r` under the element that it ends at. -/
def Splits (cmp : α → Ordering) (t l : Tree α) (a : α) (r : Tree α) : Prop :=
  ∀ L R, descend cmp L R t = assemble L R l a r

/-- What the descent costs, less what it takes from the potential. -/
def Pays (cmp : α → Ordering) (t : Tree α) : Prop :=
  ∃ l a r, Splits cmp t l a r ∧ steps cmp t + l.potential + r.potential ≤ t.potential + 2 * t.rank +
    2

variable {cmp : α → Ordering} {l ll lr r s t u : Tree α} {a b y z : α}

section

alias steps_eq := steps.eq_def

theorem steps_match (ha : cmp a = .eq) : steps cmp (node l a r) = 1 := by
  rw [steps_eq]
  simp only [ha]

theorem steps_left_nil (ha : cmp a = .lt) : steps cmp (node nil a r) = 1 := by
  rw [steps_eq]
  simp only [ha]

theorem steps_left (ha : cmp a = .lt) : steps cmp (node (node ll y lr) a r) =
    (if cmp y = .lt then steps cmp ll else steps cmp (node ll y lr)) + 1 := by
  rw [steps_eq]
  simp only [ha]

theorem steps_right_nil (ha : cmp a = .gt) : steps cmp (node l a nil) = 1 := by
  rw [steps_eq]
  simp only [ha]

theorem steps_right (ha : cmp a = .gt) : steps cmp (node l a (node ll y lr)) =
    (if cmp y = .gt then steps cmp lr else steps cmp (node ll y lr)) + 1 := by
  rw [steps_eq]
  simp only [ha]

theorem steps_pos (cmp : α → Ordering) (l : Tree α) (a : α) (r : Tree α) :
    0 < steps cmp (node l a r) := by
  cases ha : cmp a with
  | eq => simp [steps_match ha]
  | lt =>
    cases l with
    | nil => simp [steps_left_nil ha]
    | node ll y lr => simp [steps_left ha]
  | gt =>
    cases r with
    | nil => simp [steps_right_nil ha]
    | node rl y rr => simp [steps_right ha]

end

/-! ### Ranks -/

theorem rank_nonneg (t : Tree α) : 0 ≤ t.rank :=
  Real.logb_nonneg one_lt_two (le_add_of_nonneg_left (Nat.cast_nonneg _))

theorem potential_nonneg (t : Tree α) : 0 ≤ t.potential := by
  induction t with
  | nil => exact le_refl _
  | node l a r ihl ihr => exact add_nonneg (add_nonneg ihl ihr) (rank_nonneg _)

theorem rank_le (h : s.size ≤ t.size) : s.rank ≤ t.rank := by
  apply Real.logb_le_logb_of_le one_lt_two
  · positivity
  · exact_mod_cast Nat.succ_le_succ h

/-- Two trees that fit into one: the smaller of them has at most half of its size. -/
theorem rank_add_le (h : s.size + t.size + 1 ≤ u.size) : s.rank + t.rank ≤ 2 * u.rank - 2 := by
  have hs : (0 : ℝ) < s.size + 1 := by positivity
  have ht : (0 : ℝ) < t.size + 1 := by positivity
  have hu : (0 : ℝ) < u.size + 1 := by positivity
  have hle : ((s.size : ℝ) + 1) + (t.size + 1) ≤ u.size + 1 := by exact_mod_cast (by omega)
  have hsq : 4 * (((s.size : ℝ) + 1) * (t.size + 1)) ≤ ((u.size : ℝ) + 1) ^ 2 := by
    nlinarith [sq_nonneg (((s.size : ℝ) + 1) - (t.size + 1))]
  have hlog := Real.logb_le_logb_of_le one_lt_two (by positivity) hsq
  have hfour : Real.logb 2 4 = 2 := by
    rw [show (4 : ℝ) = 2 ^ (2 : ℝ) by norm_num]
    exact Real.logb_rpow two_pos (by norm_num)
  rw [Real.logb_mul (by norm_num) (by positivity), Real.logb_mul hs.ne' ht.ne', hfour,
    Real.logb_pow] at hlog
  unfold rank
  push_cast at hlog
  linarith

/-! ### The other way round -/

@[simp] theorem mirror_nil : (nil : Tree α).mirror = nil := rfl

@[simp] theorem mirror_node : (node l a r).mirror = node r.mirror a l.mirror := rfl

@[simp] theorem mirror_mirror (t : Tree α) : t.mirror.mirror = t := by
  induction t with
  | nil => rfl
  | node l a r ihl ihr => rw [mirror_node, mirror_node, ihl, ihr]

@[simp] theorem size_mirror (t : Tree α) : t.mirror.size = t.size := by
  induction t with
  | nil => rfl
  | node l a r ihl ihr =>
    rw [mirror_node, size_node, size_node, ihl, ihr]
    omega

theorem rank_mirror (t : Tree α) : t.mirror.rank = t.rank := by
  rw [rank, size_mirror, rank]

theorem potential_mirror (t : Tree α) : t.mirror.potential = t.potential := by
  induction t with
  | nil => rfl
  | node l a r ihl ihr =>
    rw [mirror_node, potential, potential, ihl, ihr, ← mirror_node, rank_mirror,
      add_comm l.potential]

def swapped (cmp : α → Ordering) (a : α) : Ordering := (cmp a).swap

theorem swapped_lt : swapped cmp a = .lt ↔ cmp a = .gt := by
  unfold swapped
  cases cmp a <;> decide

theorem swapped_gt : swapped cmp a = .gt ↔ cmp a = .lt := by
  unfold swapped
  cases cmp a <;> decide

theorem swapped_eq : swapped cmp a = .eq ↔ cmp a = .eq := by
  unfold swapped
  cases cmp a <;> decide

theorem steps_mirror (cmp : α → Ordering) (t : Tree α) :
    steps (swapped cmp) t.mirror = steps cmp t := by
  fun_induction steps cmp t with
  | case1 => rfl
  | case2 l a r h => exact steps_match (swapped_eq.mpr h)
  | case3 a r h => exact steps_right_nil (swapped_gt.mpr h)
  | case4 a r h ll y lr ih₂ ih₁ =>
    refine (steps_right (swapped_gt.mpr h)).trans ?_
    simp only [swapped_gt, ih₂, ← mirror_node, ih₁]
  | case5 l a h => exact steps_left_nil (swapped_lt.mpr h)
  | case6 l a h rl y rr ih₂ ih₁ =>
    refine (steps_left (swapped_lt.mpr h)).trans ?_
    simp only [swapped_lt, ih₂, ← mirror_node, ih₁]

def mirrorAll (L : List (Tree α × α)) : List (Tree α × α) := L.map fun p => (p.1.mirror, p.2)

theorem mirror_plugL (L : List (Tree α × α)) (t : Tree α) :
    (plugL L t).mirror = plugR (mirrorAll L) t.mirror := by
  induction L generalizing t with
  | nil => rfl
  | cons p L ih => exact ih _

theorem mirror_plugR (R : List (Tree α × α)) (t : Tree α) :
    (plugR R t).mirror = plugL (mirrorAll R) t.mirror := by
  induction R generalizing t with
  | nil => rfl
  | cons p R ih => exact ih _

theorem mirror_assemble (L R : List (Tree α × α)) :
    (assemble L R l a r).mirror = assemble (mirrorAll R) (mirrorAll L) r.mirror a l.mirror := by
  rw [assemble, mirror_node, mirror_plugL, mirror_plugR, assemble]

theorem mirror_descend (cmp : α → Ordering) (L R : List (Tree α × α)) (t : Tree α) :
    (descend cmp L R t).mirror = descend (swapped cmp) (mirrorAll R) (mirrorAll L) t.mirror := by
  fun_induction descend cmp L R t with
  | case1 L R => rfl
  | case2 L R l a r h =>
    rw [mirror_assemble]
    exact (descend_match (swapped_eq.mpr h)).symm
  | case3 L R a r h =>
    rw [mirror_assemble]
    exact (descend_right_nil (swapped_gt.mpr h)).symm
  | case4 L R a r h y lr hy =>
    rw [mirror_assemble]
    exact (descend_right_right_nil (swapped_gt.mpr h) (swapped_gt.mpr hy)).symm
  | case5 L R a r h y lr hy ll z llr ih =>
    have hne : (node ll z llr).mirror ≠ nil := by simp
    exact ih.trans (descend_right_right (swapped_gt.mpr h) (swapped_gt.mpr hy) hne).symm
  | case6 L R a r h ll y lr hy ih =>
    exact ih.trans (descend_right (swapped_gt.mpr h) (mt swapped_gt.mp hy)).symm
  | case7 L R l a h =>
    rw [mirror_assemble]
    exact (descend_left_nil (swapped_lt.mpr h)).symm
  | case8 L R l a h rl y hy =>
    rw [mirror_assemble]
    exact (descend_left_left_nil (swapped_lt.mpr h) (swapped_lt.mpr hy)).symm
  | case9 L R l a h rl y hy rrl z rrr ih =>
    have hne : (node rrl z rrr).mirror ≠ nil := by simp
    exact ih.trans (descend_left_left (swapped_lt.mpr h) (swapped_lt.mpr hy) hne).symm
  | case10 L R l a h rl y rr hy ih =>
      exact ih.trans (descend_left (swapped_lt.mpr h) (mt swapped_lt.mp hy)).symm

theorem Splits.of_mirror (h : Splits (swapped cmp) t.mirror r a l) :
    Splits cmp t l.mirror a r.mirror := by
  intro L R
  have hback (M : List (Tree α × α)) : mirrorAll (mirrorAll M) = M := by
    simp [mirrorAll, Function.comp_def]
  have he := congrArg mirror (h (mirrorAll R) (mirrorAll L))
  rw [← mirror_descend, mirror_mirror, mirror_assemble, hback, hback] at he
  exact he

/-! ### The descent pays -/

theorem Splits.size (h : Splits cmp t l a r) (ht : t ≠ nil) : l.size + r.size + 1 = t.size := by
  have hl := congrArg (fun T => T.toList.length) (h [] [])
  rw [toList_descend _ _ _ _ ht, toList_assemble] at hl
  simp only [listL, listR, List.nil_append, List.append_nil, length_toList, size_node] at hl
  exact hl.symm

theorem Pays.of_mirror (h : Pays (swapped cmp) t.mirror) : Pays cmp t := by
  obtain ⟨r, a, l, hs, hle⟩ := h
  refine ⟨l.mirror, a, r.mirror, hs.of_mirror, ?_⟩
  rw [steps_mirror, potential_mirror, rank_mirror] at hle
  rw [potential_mirror, potential_mirror]
  linarith

theorem Splits.left (ha : cmp a = .lt) (hy : cmp y ≠ .lt) (h : Splits cmp (node ll y lr) l b s) :
    Splits cmp (node (node ll y lr) a r) l b (node s a r) :=
      fun _ _ => (descend_left ha hy).trans (h _ _)

theorem Splits.left_left (ha : cmp a = .lt) (hy : cmp y = .lt) (hll : ll ≠ nil)
    (h : Splits cmp ll l b s) :
    Splits cmp (node (node ll y lr) a r) l b (node s y (node lr a r)) :=
      fun _ _ => (descend_left_left ha hy hll).trans (h _ _)

theorem Splits.right (ha : cmp a = .gt) (hy : cmp y ≠ .gt) (h : Splits cmp (node ll y lr) s b r) :
    Splits cmp (node l a (node ll y lr)) (node l a s) b r :=
      fun _ _ => (descend_right ha hy).trans (h _ _)

theorem Splits.right_right (ha : cmp a = .gt) (hy : cmp y = .gt) (hlr : lr ≠ nil)
    (h : Splits cmp lr s b r) :
    Splits cmp (node l a (node ll y lr)) (node (node l a ll) y s) b r :=
      fun _ _ => (descend_right_right ha hy hlr).trans (h _ _)

theorem pays_match (ha : cmp a = .eq) : Pays cmp (node l a r) := by
  refine ⟨l, a, r, fun L R => descend_match ha, ?_⟩
  have hrank := rank_nonneg (node l a r)
  rw [steps_match ha, potential]
  push_cast
  linarith

theorem pays_left_nil (ha : cmp a = .lt) : Pays cmp (node nil a r) := by
  refine ⟨nil, a, r, fun L R => descend_left_nil ha, ?_⟩
  have hrank := rank_nonneg (node nil a r)
  rw [steps_left_nil ha]
  simp only [potential]
  push_cast
  linarith

/-- A round that rotates. -/
theorem pays_left_left (ha : cmp a = .lt) (hy : cmp y = .lt) (ih : ll ≠ nil → Pays cmp ll) :
    Pays cmp (node (node ll y lr) a r) := by
  have hsteps : steps cmp (node (node ll y lr) a r) = steps cmp ll + 1 := by
    rw [steps_left ha, if_pos hy]
  have h₁ : (node lr a r).rank ≤ (node (node ll y lr) a r).rank :=
    rank_le (by simp only [size_node]; omega)
  by_cases hll : ll = nil
  · subst hll
    refine ⟨nil, y, node lr a r, fun L R => descend_left_left_nil ha hy, ?_⟩
    have hu := rank_nonneg (node nil y lr)
    have ht := rank_nonneg (node (node nil y lr) a r)
    rw [hsteps]
    simp only [potential, steps] at h₁ ht ⊢
    push_cast
    linarith
  · obtain ⟨l, b, s, hs, hle⟩ := ih hll
    have hsize := hs.size hll
    have h₂ : ll.rank ≤ (node ll y lr).rank := rank_le (by simp only [size_node]; omega)
    have h₃ : (node s y (node lr a r)).rank ≤ (node (node ll y lr) a r).rank :=
      rank_le (by simp only [size_node]; omega)
    have h₄ : ll.rank + (node lr a r).rank ≤ 2 * (node (node ll y lr) a r).rank - 2 :=
      rank_add_le (by simp only [size_node]; omega)
    refine ⟨l, b, _, hs.left_left ha hy hll, ?_⟩
    rw [hsteps]
    simp only [potential]
    push_cast
    linarith

/-- A round that does not rotate, and the one after it. -/
theorem pays_left (ha : cmp a = .lt) (hy : cmp y ≠ .lt)
    (ih : ∀ s : Tree α, s ≠ nil → s.size < (node ll y lr).size → Pays cmp s) :
    Pays cmp (node (node ll y lr) a r) := by
  have hsteps : steps cmp (node (node ll y lr) a r) = steps cmp (node ll y lr) + 1 := by
    rw [steps_left ha, if_neg hy]
  have h₀ := rank_nonneg (node (node ll y lr) a r)
  have hu : (node ll y lr).rank ≤ (node (node ll y lr) a r).rank :=
    rank_le (by simp only [size_node]; omega)
  cases hcy : cmp y with
  | lt => exact absurd hcy hy
  | eq =>
    have h₁ : (node lr a r).rank ≤ (node (node ll y lr) a r).rank :=
      rank_le (by simp only [size_node]; omega)
    have h₂ := rank_nonneg (node ll y lr)
    refine ⟨ll, y, node lr a r, Splits.left ha hy fun L R => descend_match hcy, ?_⟩
    rw [hsteps, steps_match hcy]
    simp only [potential]
    push_cast
    linarith
  | gt =>
    cases lr with
    | nil =>
      have h₁ : (node nil a r).rank ≤ (node (node ll y nil) a r).rank :=
        rank_le (by simp only [size_node]; omega)
      have h₂ := rank_nonneg (node ll y nil)
      refine ⟨ll, y, node nil a r, Splits.left ha hy fun L R => descend_right_nil hcy, ?_⟩
      rw [hsteps, steps_right_nil hcy]
      simp only [potential]
      push_cast
      linarith
    | node rl z rr =>
      by_cases hz : cmp z = .gt
      · by_cases hrr : rr = nil
        · subst hrr
          have h₁ : (node nil a r).rank ≤ (node (node ll y (node rl z nil)) a r).rank :=
            rank_le (by simp only [size_node]; omega)
          have h₂ : (node ll y rl).rank ≤ (node ll y (node rl z nil)).rank :=
            rank_le (by simp only [size_node]; omega)
          have h₃ := rank_nonneg (node rl z nil)
          refine ⟨node ll y rl, z, node nil a r,
            Splits.left ha hy fun L R => descend_right_right_nil hcy hz, ?_⟩
          rw [hsteps, steps_right hcy, if_pos hz]
          simp only [potential, steps]
          push_cast
          linarith
        · obtain ⟨l, b, s, hs, hle⟩ := ih rr hrr (by simp only [size_node]; omega)
          have hsize := hs.size hrr
          have h₁ : (node s a r).rank ≤ (node (node ll y (node rl z rr)) a r).rank :=
            rank_le (by simp only [size_node]; omega)
          have h₂ : (node (node ll y rl) z l).rank ≤ (node ll y (node rl z rr)).rank :=
            rank_le (by simp only [size_node]; omega)
          have h₃ : rr.rank ≤ (node rl z rr).rank := rank_le (by simp only [size_node]; omega)
          have h₄ : (node ll y rl).rank + rr.rank ≤ 2 * (node ll y (node rl z rr)).rank - 2 :=
            rank_add_le (by simp only [size_node]; omega)
          refine ⟨_, b, _, (hs.right_right hcy hz hrr).left ha hy, ?_⟩
          rw [hsteps, steps_right hcy, if_pos hz]
          simp only [potential]
          push_cast
          linarith
      · obtain ⟨l, b, s, hs, hle⟩ := ih (node rl z rr) nofun (by simp only [size_node]; omega)
        have hsize := hs.size nofun
        have h₁ : (node rl z rr).rank ≤ (node ll y (node rl z rr)).rank :=
          rank_le (by simp only [size_node]; omega)
        have h₂ : (node ll y l).rank + (node s a r).rank ≤
            2 * (node (node ll y (node rl z rr)) a r).rank - 2 :=
          rank_add_le (by simp only [size_node] at hsize ⊢; omega)
        refine ⟨_, b, _, (hs.right hcy hz).left ha hy, ?_⟩
        rw [hsteps, steps_right hcy, if_neg hz]
        simp only [potential] at hle ⊢
        push_cast
        linarith

theorem pays (cmp : α → Ordering) (t : Tree α) (ht : t ≠ nil) : Pays cmp t := by
  have hpays (n : ℕ) : ∀ (cmp : α → Ordering) (t : Tree α), t.size ≤ n → t ≠ nil → Pays cmp t := by
    induction n with
    | zero =>
      intro cmp t hn ht
      cases t with
      | nil => exact absurd rfl ht
      | node l a r => simp at hn
    | succ n ih =>
      -- a descent that starts to the left
      have hleft {cmp : α → Ordering} {l r : Tree α} {a : α} (hn : (node l a r).size ≤ n + 1)
          (ha : cmp a = .lt) :
          Pays cmp (node l a r) := by
        simp only [size_node] at hn
        cases l with
        | nil => exact pays_left_nil ha
        | node ll y lr =>
          simp only [size_node] at hn
          by_cases hy : cmp y = .lt
          · exact pays_left_left ha hy fun hll => ih cmp ll (by omega) hll
          · exact pays_left ha hy fun s hs hsize =>
              ih cmp s (by simp only [size_node] at hsize; omega) hs
      intro cmp t hn ht
      cases t with
      | nil => exact absurd rfl ht
      | node l a r =>
        cases ha : cmp a with
        | eq => exact pays_match ha
        | lt => exact hleft hn ha
        | gt => exact (hleft (by rwa [← mirror_node, size_mirror]) (swapped_lt.mpr ha)).of_mirror
  exact hpays t.size cmp t (le_refl _) ht

theorem splay_amortized (cmp : α → Ordering) (t : Tree α) :
    steps cmp t + (splay cmp t).potential ≤ t.potential + 3 * t.rank + 2 := by
  cases ht : t with
  | nil =>
    have hrank := rank_nonneg (nil : Tree α)
    simp only [steps, splay, descend, potential]
    push_cast
    linarith
  | node tl b tr =>
    rw [← ht]
    have hne : t ≠ nil := by simp [ht]
    obtain ⟨l, a, r, hs, hle⟩ := pays cmp t hne
    have hsplay : splay cmp t = node l a r := hs [] []
    have hrank : (node l a r).rank = t.rank := by
      rw [rank, size_node, hs.size hne, rank]
    rw [hsplay, potential, hrank]
    linarith

theorem size_splay (cmp : α → Ordering) (t : Tree α) : (splay cmp t).size = t.size := by
  rw [← length_toList, toList_splay, length_toList]

/-- Splaying, and a new root above what is splayed. -/
theorem Placed.amortized (h : Placed cmp t z u) :
    steps cmp t + u.potential ≤ t.potential + 4 * u.rank + 2 := by
  rcases h with ⟨rfl, rfl⟩ | ⟨l, a, r, hs, hr⟩
  · have hrank := rank_nonneg (node nil z nil)
    simp only [steps, potential]
    push_cast
    linarith
  · have hsize := size_splay cmp t
    have hle := splay_amortized cmp t
    rw [hs] at hsize hle
    rcases hr with rfl | rfl
    · have h₁ : (node nil a r).rank ≤ (node l a r).rank :=
        rank_le (by simp only [size_node, size_nil]; omega)
      have h₂ : t.rank ≤ (node l z (node nil a r)).rank :=
        rank_le (by simp only [size_node] at hsize ⊢; omega)
      simp only [potential] at hle ⊢
      linarith
    · have h₁ : (node l a nil).rank ≤ (node l a r).rank :=
        rank_le (by simp only [size_node, size_nil]; omega)
      have h₂ : t.rank ≤ (node (node l a nil) z r).rank :=
        rank_le (by simp only [size_node] at hsize ⊢; omega)
      simp only [potential] at hle ⊢
      linarith

/-- Splaying for the root that goes, then splaying the left tree. -/
theorem Merged.amortized (hs : splay cmp t = node l a r) (h : Merged cmp l r u) :
    steps cmp t + steps cmp l + u.potential ≤ t.potential + 6 * t.rank + 4 := by
  have hsize := size_splay cmp t
  have hle := splay_amortized cmp t
  rw [hs] at hsize hle
  have ht : (node l a r).rank ≤ t.rank := rank_le (by omega)
  have hpos := rank_nonneg t
  rcases h with ⟨rfl, rfl⟩ | ⟨l', b, hs', rfl⟩
  · have h₁ := rank_nonneg (node nil a u)
    simp only [potential, steps] at hle ⊢
    push_cast
    linarith
  · have hsize' := size_splay cmp l
    have hle' := splay_amortized cmp l
    rw [hs'] at hsize' hle'
    have h₁ : l.rank ≤ t.rank := rank_le (by simp only [size_node] at hsize; omega)
    have h₂ : (node l' b r).rank ≤ (node l a r).rank :=
      rank_le (by simp only [size_node] at hsize' ⊢; omega)
    have h₃ := rank_nonneg (node l' b nil)
    simp only [potential] at hle hle' ⊢
    linarith

/-- What an operation on a tree of `N` nodes or fewer may cost, amortized. -/
noncomputable def opCost (N : ℕ) : ℝ := 6 * Real.logb 2 (N + 2) + 4

theorem rank_le_logb {N : ℕ} (hN : t.size ≤ N + 1) : t.rank ≤ Real.logb 2 (N + 2) := by
  apply Real.logb_le_logb_of_le one_lt_two
  · positivity
  · have hle : (t.size : ℝ) ≤ N + 1 := by exact_mod_cast hN
    linarith

end SplayTree
