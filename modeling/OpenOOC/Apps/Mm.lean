import Mathlib.Algebra.BigOperators.Fin
import Mathlib.LinearAlgebra.Matrix.Notation

/-! `apps/mm.c`: the kernel `mm` on arrays with checked bounds, over any ring.
Its two loop bounds are exchanged, so it multiplies where they agree. -/

namespace OpenOOC.Mm

variable {R : Type*} [Ring R]

/-! ### The kernel -/

/-- `struct args`, less `c`, which the kernel writes. -/
structure Args (R : Type*) where
  n : ℕ
  p : ℕ
  a : Array R
  b : Array R

def store (c : Array R) (q : ℕ) (v : R) : Option (Array R) :=
  if q < c.size then some (c.setIfInBounds q v) else none

/-- `c(i,j) += a(i,k)*b(k,j);` -/
def addTerm (args : Args R) (i j : ℕ) (c : Array R) (k : ℕ) : Option (Array R) := do
  let aik ← args.a[i * args.n + k]?
  let bkj ← args.b[k * args.p + j]?
  let cij ← (c)[i * args.p + j]?
  store c (i * args.p + j) (cij + aik * bkj)

/-- One round of the loop over `j`. -/
def mmEntry (args : Args R) (i : ℕ) (c : Array R) (j : ℕ) : Option (Array R) := do
  let ai0 ← args.a[i * args.n + 0]?
  let b0j ← args.b[0 * args.p + j]?
  let c ← store c (i * args.p + j) (ai0 * b0j)
  (List.range' 1 (args.p - 1)).foldlM (addTerm args i j) c

def mm (args : Args R) (c : Array R) (i : ℕ) : Option (Array R) :=
  (List.range args.n).foldlM (mmEntry args i) c

/-- The loop of `main`, in the order in which the calls take their turns. -/
def mmAll (args : Args R) (c : Array R) (order : List ℕ) : Option (Array R) :=
  order.foldlM (mm args) c

structure RowMajor {m n : ℕ} (A : Matrix (Fin m) (Fin n) R) (x : Array R) : Prop where
  size : x.size = m * n
  entry : ∀ i j, x[i.val * n + j.val]? = some (A i j)

/-- The calls end, access only what is inside the arrays, and leave `C` in `c`. -/
def Computes {m p : ℕ} (args : Args R) (C : Matrix (Fin m) (Fin p) R) (c : Array R)
    (order : List ℕ) : Prop :=
  ∃ c', mmAll args c order = some c' ∧ RowMajor C c'

/-! ### Loops that fail -/

section

variable {σ ι : Type*} {f : σ → ι → Option σ} {I : σ → Prop}

theorem foldlM_keeps (hI : ∀ s x s', I s → f s x = some s' → I s') {l : List ι} {s s' : σ}
    (hs : I s)
    (he : l.foldlM f s = some s') : I s' := by
  induction l generalizing s with
  | nil =>
    obtain rfl : s = s' := by simpa using he
    exact hs
  | cons x l ih =>
    rw [List.foldlM_cons, Option.bind_eq_bind, Option.bind_eq_some_iff] at he
    obtain ⟨s1, h1, h2⟩ := he
    exact ih (hI s x s1 hs h1) h2

/-- A loop with a round that always fails does not end. -/
theorem foldlM_fails (hI : ∀ s x s', I s → f s x = some s' → I s') {l : List ι} {x : ι} (hx : x ∈ l)
    (hf : ∀ s, I s → f s x = none) {s : σ} (hs : I s) : l.foldlM f s = none := by
  induction l generalizing s with
  | nil => simp at hx
  | cons y l ih =>
    rw [List.foldlM_cons, Option.bind_eq_bind]
    rcases List.mem_cons.mp hx with rfl | hx
    · rw [hf s hs, Option.bind_none]
    · rw [Option.bind_eq_none_iff]
      intro s1 h1
      exact ih hx (hI s y s1 hs h1)

end

omit [Ring R] in
theorem size_store {c c' : Array R} {q : ℕ} {v : R} (he : store c q v = some c') :
    c'.size = c.size := by
  unfold store at he
  split_ifs at he
  obtain rfl := Option.some.inj he
  exact Array.size_setIfInBounds

theorem size_addTerm {args : Args R} {i j k : ℕ} {c c' : Array R}
    (he : addTerm args i j c k = some c') :
    c'.size = c.size := by
  simp only [addTerm, Option.bind_eq_bind, Option.bind_eq_some_iff] at he
  obtain ⟨_, _, _, _, _, _, he⟩ := he
  exact size_store he

theorem size_mmEntry {args : Args R} {i j : ℕ} {c c' : Array R}
    (he : mmEntry args i c j = some c') :
    c'.size = c.size := by
  simp only [mmEntry, Option.bind_eq_bind, Option.bind_eq_some_iff] at he
  obtain ⟨_, _, _, _, c1, h1, he⟩ := he
  rw [← size_store h1]
  exact foldlM_keeps (I := fun x => x.size = c1.size)
    (fun _ _ _ hs hk => (size_addTerm hk).trans hs) rfl he

theorem size_mm {args : Args R} {i : ℕ} {c c' : Array R} (he : mm args c i = some c') :
    c'.size = c.size :=
  foldlM_keeps (I := fun x => x.size = c.size)
    (fun _ _ _ hs hj => (size_mmEntry hj).trans hs) rfl he

/-! ### Where the bounds differ -/

section

variable {m n p : ℕ} {a b c : Array R} {order : List ℕ}

theorem index_lt {i j w : ℕ} (hi : i < m) (hj : j < w) : i * w + j < m * w := by
  have := Nat.mul_le_mul_right w (Nat.succ_le_of_lt hi)
  rw [Nat.succ_mul] at this
  omega

theorem last_index {w : ℕ} (hm : 0 < m) : (m - 1) * w + w = m * w := by
  rw [← Nat.succ_mul, Nat.succ_eq_add_one, Nat.sub_add_cancel hm]

theorem index_inj {i j i' j' w : ℕ} (hj : j < w) (hj' : j' < w) (he : i * w + j = i' * w + j') :
    i = i' ∧ j = j' := by
  have hi : (i * w + j) / w = i := by
    rw [Nat.mul_comm, Nat.mul_add_div (by omega), Nat.div_eq_of_lt hj, Nat.add_zero]
  have hi' : (i' * w + j') / w = i' := by
    rw [Nat.mul_comm, Nat.mul_add_div (by omega), Nat.div_eq_of_lt hj', Nat.add_zero]
  obtain rfl : i = i' := by rw [← hi, he, hi']
  exact ⟨rfl, by omega⟩

/-- The last row fails: with `n < p` in `a`, with `p < n` in `c`. -/
theorem mm_fails (hm : 0 < m) (hn : 0 < n) (ha : a.size = m * n) (hc : c.size = m * p)
    (hnp : n ≠ p) :
    mm ⟨n, p, a, b⟩ c (m - 1) = none := by
  have hkeep : ∀ (s : Array R) j s', s.size = m * p → mmEntry ⟨n, p, a, b⟩ (m - 1) s j = some s' →
      s'.size = m * p :=
    fun _ _ _ hs hj => (size_mmEntry hj).trans hs
  rcases Nat.lt_or_gt_of_ne hnp with hlt | hgt
  · apply foldlM_fails hkeep (x := 0) (List.mem_range.mpr hn) _ hc
    intro s hs
    simp only [mmEntry, Option.bind_eq_bind, Option.bind_eq_none_iff]
    intro _ _ _ _ c1 _
    apply foldlM_fails (I := fun _ => True) (fun _ _ _ _ _ => trivial) (x := n) _ _ trivial
    · simp only [List.mem_range'_1]
      omega
    · intro s _
      have : ¬ (m - 1) * n + n < a.size := by rw [ha, last_index hm]; omega
      simp [addTerm, this]
  · apply foldlM_fails hkeep (x := p) (List.mem_range.mpr hgt) _ hc
    intro s hs
    have : ¬ (m - 1) * p + p < s.size := by rw [hs, last_index hm]; omega
    simp [mmEntry, store, this]

theorem mmAll_fails (hm : 0 < m) (hn : 0 < n) (ha : a.size = m * n) (hc : c.size = m * p)
    (hnp : n ≠ p)
    (ho : order.Perm (List.range m)) : mmAll ⟨n, p, a, b⟩ c order = none := by
  apply foldlM_fails (I := fun s => s.size = m * p) (fun _ _ _ hs hi => (size_mm hi).trans hs)
    (x := m - 1)
  · rw [ho.mem_iff, List.mem_range]
    omega
  · exact fun s hs => mm_fails hm hn ha hs hnp
  · exact hc

/-! ### Where they agree -/

variable {A : Matrix (Fin m) (Fin n) R} {B : Matrix (Fin n) (Fin n) R}

def at? {m n : ℕ} (A : Matrix (Fin m) (Fin n) R) (i j : ℕ) : R :=
  if h : i < m ∧ j < n then A ⟨i, h.1⟩ ⟨j, h.2⟩ else 0

theorem RowMajor.get {A : Matrix (Fin m) (Fin n) R} (ha : RowMajor A a) {i j : ℕ} (hi : i < m)
    (hj : j < n) :
    a[i * n + j]? = some (at? A i j) := by
  rw [at?, dif_pos ⟨hi, hj⟩]
  exact ha.entry ⟨i, hi⟩ ⟨j, hj⟩

theorem addTerms (ha : RowMajor A a) (hb : RowMajor B b) (hc : c.size = m * n) {i j : ℕ}
    (hi : i < m) (hj : j < n)
    (t : ℕ) (ht : t + 1 ≤ n) :
    (List.range' 1 t).foldlM (addTerm ⟨n, n, a, b⟩ i j)
      (c.setIfInBounds (i * n + j) (at? A i 0 * at? B 0 j)) =
      some (c.setIfInBounds (i * n + j) (∑ k ∈ Finset.range (t + 1), at? A i k * at? B k j)) := by
  have hin : i * n + j < c.size := hc ▸ index_lt hi hj
  induction t with
  | zero => simp
  | succ t ih =>
    rw [List.range'_1_concat, List.foldlM_append, ih (by omega), Finset.sum_range_succ _ (t + 1)]
    simp [addTerm, store, ha.get hi (show t + 1 < n by omega), hb.get (show t + 1 < n by omega) hj,
      hin, add_comm 1 t]

theorem mmEntry_eq (ha : RowMajor A a) (hb : RowMajor B b) (hc : c.size = m * n) {i j : ℕ}
    (hi : i < m) (hj : j < n) :
    mmEntry ⟨n, n, a, b⟩ i c j = some
      (c.setIfInBounds (i * n + j) (∑ k ∈ Finset.range n, at? A i k * at? B k j)) := by
  have hn : 0 < n := by omega
  have hin : i * n + j < c.size := hc ▸ index_lt hi hj
  have hterms := addTerms ha hb hc hi hj (n - 1) (by omega)
  rw [Nat.sub_add_cancel hn] at hterms
  have ha0 := ha.get hi hn
  have hb0 := hb.get hn hj
  simp only [mmEntry, ha0, hb0, store, hin, if_true, Option.bind_eq_bind, Option.bind_some, hterms]

theorem mm_row (ha : RowMajor A a) (hb : RowMajor B b) (hc : c.size = m * n) {i : ℕ} (hi : i < m)
    (t : ℕ) (ht : t ≤ n) :
    ∃ c', (List.range t).foldlM (mmEntry ⟨n, n, a, b⟩ i) c = some c' ∧ c'.size = m * n ∧
      ∀ i' j, j < n → c'[i' * n + j]? =
        if i' = i ∧ j < t then some (∑ k ∈ Finset.range n, at? A i k * at? B k j)
          else (c)[i' * n + j]? := by
  induction t with
  | zero => exact ⟨c, by simp, hc, by simp⟩
  | succ t ih =>
    obtain ⟨c1, he1, hs1, hc1⟩ := ih (by omega)
    have htn : t < n := by omega
    have hin : i * n + t < c1.size := hs1 ▸ index_lt hi htn
    refine ⟨c1.setIfInBounds (i * n + t) (∑ k ∈ Finset.range n, at? A i k * at? B k t), ?_, ?_, ?_⟩
    · rw [List.range_succ, List.foldlM_append, he1]
      simp only [List.foldlM_cons, List.foldlM_nil, Option.bind_eq_bind, Option.bind_some,
        mmEntry_eq ha hb hs1 hi htn, Option.pure_def]
    · rw [Array.size_setIfInBounds, hs1]
    · intro i' j hj
      rw [Array.getElem?_setIfInBounds, hc1 i' j hj, if_pos hin]
      by_cases h : i' = i ∧ j = t
      · rw [h.1, h.2, if_pos rfl, if_pos ⟨rfl, Nat.lt_succ_self t⟩]
      · rw [if_neg fun he => h (index_inj hj htn he.symm)]
        congr 1
        apply propext
        constructor
        · exact fun hlt => ⟨hlt.1, by omega⟩
        · exact fun hlt => ⟨hlt.1, by have := fun he => h ⟨hlt.1, he⟩; omega⟩

/-- The calls write the rows of their indices, each the row of the product. -/
theorem mmAll_rows (ha : RowMajor A a) (hb : RowMajor B b) (hc : c.size = m * n) (l : List ℕ)
    (hl : ∀ i ∈ l, i < m) :
    ∃ c', mmAll ⟨n, n, a, b⟩ c l = some c' ∧ c'.size = m * n ∧
      ∀ i j, j < n → c'[i * n + j]? =
        if i ∈ l then some (∑ k ∈ Finset.range n, at? A i k * at? B k j) else (c)[i * n + j]? := by
  induction l generalizing c with
  | nil => exact ⟨c, rfl, hc, by simp⟩
  | cons x l ih =>
    obtain ⟨c1, he1, hs1, hc1⟩ := mm_row ha hb hc (hl x (by simp)) n (le_refl n)
    obtain ⟨c2, he2, hs2, hc2⟩ := ih hs1 fun i hi => hl i (by simp [hi])
    refine ⟨c2, ?_, hs2, ?_⟩
    · rw [mmAll, List.foldlM_cons, mm, he1]
      exact he2
    · intro i j hj
      rw [hc2 i j hj, hc1 i j hj]
      by_cases hi : i ∈ l
      · rw [if_pos hi, if_pos (List.mem_cons_of_mem x hi)]
      · simp only [hi, if_false, hj, and_true, List.mem_cons, or_false]
        split_ifs with hx
        · rw [hx]
        · rfl

theorem at?_mul {i j : ℕ} (hi : i < m) (hj : j < n) :
    ∑ k ∈ Finset.range n, at? A i k * at? B k j = (A * B) ⟨i, hi⟩ ⟨j, hj⟩ := by
  rw [Finset.sum_range, Matrix.mul_apply]
  apply Finset.sum_congr rfl
  intro k _
  rw [at?, at?, dif_pos ⟨hi, k.isLt⟩, dif_pos ⟨k.isLt, hj⟩]

end

/-- The calls `mm(i, args)` for `i < m`, in any order, multiply the matrices just
when the inner dimension is the width of the product. -/
theorem mm_computes_product_iff {m n p : ℕ} (hm : 0 < m) (hn : 0 < n) (hp : 0 < p)
    (A : Matrix (Fin m) (Fin n) R)
    (B : Matrix (Fin n) (Fin p) R) {a b c : Array R} (ha : RowMajor A a) (hb : RowMajor B b)
    (hc : c.size = m * p)
    {order : List ℕ} (ho : order.Perm (List.range m)) :
    Computes ⟨n, p, a, b⟩ (A * B) c order ↔ n = p := by
  constructor
  · rintro ⟨c', he, -⟩
    by_contra hnp
    rw [mmAll_fails hm hn ha.size hc hnp ho] at he
    exact absurd he (by simp)
  · rintro rfl
    obtain ⟨c', he, hs, hrows⟩ := mmAll_rows ha hb hc order fun i hi =>
      List.mem_range.mp (ho.mem_iff.mp hi)
    refine ⟨c', he, hs, ?_⟩
    intro i j
    rw [hrows i j j.isLt, if_pos (ho.mem_iff.mpr (List.mem_range.mpr i.isLt)),
      at?_mul i.isLt j.isLt]

/-- Square matrices, with the rows in falling order. -/
theorem mm_computes_product_square :
    Computes ⟨2, 2, #[1, 2, 3, 4], #[5, 6, 7, 8]⟩
      ((!![1, 2; 3, 4] : Matrix (Fin 2) (Fin 2) ℤ) *
        (!![5, 6; 7, 8] : Matrix (Fin 2) (Fin 2) ℤ)) #[0, 0, 0, 0] [1, 0] :=
  (mm_computes_product_iff (by decide) (by decide) (by decide) _ _ ⟨rfl, by decide⟩
    ⟨rfl, by decide⟩ rfl (by decide)).mpr rfl

/-- A row times a column: the kernel writes a second entry, behind the end of `c`. -/
theorem mm_writes_outside :
    ¬ Computes ⟨2, 1, #[1, 2], #[3, 4]⟩
      ((!![1, 2] : Matrix (Fin 1) (Fin 2) ℤ) * (!![3; 4] : Matrix (Fin 2) (Fin 1) ℤ)) #[0] [0] := by
  rintro ⟨c', he, -⟩
  have hnone : mmAll (⟨2, 1, #[1, 2], #[3, 4]⟩ : Args ℤ) #[0] [0] = none := by rfl
  rw [hnone] at he
  exact absurd he (by simp)

end OpenOOC.Mm
