import OpenOOC.Apps.Mm
import OpenOOC.Sched.Parallel

/-! The parallel loop of `apps/mm.c`: threads that share the rows, on matrices in what
`ooc_malloc` returned. However the threads, their faults and their lock operations are
ordered, the loop ends and leaves the product. -/

namespace OpenOOC.Mm

open LockMachine Sched Kernels Simulation Separate Programs

variable {R : Type*}

/-! ### The kernel, access by access -/

def elem (base : Addr) (q : ℕ) : Addr := base + BitVec.ofNat 64 (8 * q)

/-- `struct args`, with its pointers. -/
structure Ptrs where
  n : ℕ
  p : ℕ
  a : Addr
  b : Addr
  c : Addr

section

variable [Ring R] (x : Ptrs)

/-- `c(i,j) += a(i,k)*b(k,j);` -/
def addTermAt (i j k : ℕ) (rest : Prog Addr R) : Prog Addr R :=
  .load (elem x.a (i * x.n + k)) fun aik => .load (elem x.b (k * x.p + j)) fun bkj =>
    .load (elem x.c (i * x.p + j)) fun cij => .store (elem x.c (i * x.p + j)) (cij + aik * bkj) rest

/-- One round of the loop over `j`. -/
def mmEntryAt (i j : ℕ) (rest : Prog Addr R) : Prog Addr R :=
  .load (elem x.a (i * x.n + 0)) fun ai0 => .load (elem x.b (0 * x.p + j)) fun b0j =>
    .store (elem x.c (i * x.p + j)) (ai0 * b0j)
      ((List.range' 1 (x.p - 1)).foldr (addTermAt x i j) rest)

def mmAt (i : ℕ) (rest : Prog Addr R) : Prog Addr R := (List.range x.n).foldr (mmEntryAt x i) rest

/-- The rows that a thread gets of the loop in `main`. -/
def mmRows (l : List ℕ) : Prog Addr R := l.foldr (mmAt x) .done

end

/-! ### What it computes alone -/

/-- The array is in memory, from `base` on. -/
def Stored (base : Addr) (arr : Array R) (d : Data R) : Prop :=
  ∀ q v, arr[q]? = some v → d (elem base q) = v

/-- No element of `c` is one of `a` or `b`, or another one of `c`. -/
structure Layout (x : Ptrs) (na nb nc : ℕ) : Prop where
  ca : ∀ q < nc, ∀ q' < na, elem x.c q ≠ elem x.a q'
  cb : ∀ q < nc, ∀ q' < nb, elem x.c q ≠ elem x.b q'
  cc : ∀ q < nc, ∀ q' < nc, elem x.c q = elem x.c q' → q = q'

structure InMemory (x : Ptrs) (args : Args R) (c : Array R) (d : Data R) : Prop where
  n : x.n = args.n
  p : x.p = args.p
  a : Stored x.a args.a d
  b : Stored x.b args.b d
  c : Stored x.c c d

section

variable {x : Ptrs} {σ ι : Type*} {args : Args R} {c c' : Array R} {d : Data R} {i j k q nc : ℕ}
  {v : R} {rest : Prog Addr R}

/-- A loop, and the program that makes its accesses. -/
theorem run_foldr (f : σ → ι → Option σ) (body : ι → Prog Addr R → Prog Addr R)
    (I : σ → Data R → Prop)
    (h : ∀ s y s' d rest, I s d → f s y = some s' → ∃ d', (body y rest).run d = rest.run d' ∧
    I s' d') {l : List ι} {s s' : σ}
    (rest : Prog Addr R) (hs : I s d) (he : l.foldlM f s = some s') : ∃ d',
    (l.foldr body rest).run d = rest.run d' ∧ I s' d' := by
  induction l generalizing s d with
  | nil =>
    obtain rfl : s = s' := by simpa using he
    exact ⟨d, rfl, hs⟩
  | cons y l ih =>
    rw [List.foldlM_cons, Option.bind_eq_bind, Option.bind_eq_some_iff] at he
    obtain ⟨s₁, h₁, h₂⟩ := he
    obtain ⟨d₁, hrun₁, hs₁⟩ := h _ _ _ _ (l.foldr body rest) hs h₁
    obtain ⟨d', hrun, hs'⟩ := ih hs₁ h₂
    exact ⟨d', hrun₁.trans hrun, hs'⟩

theorem cost_foldr {body : ι → Prog Addr R → Prog Addr R} {e : ℕ}
    (h : ∀ y rest d, ∃ d', (body y rest).cost d = rest.cost d' + e)
    (l : List ι) (rest : Prog Addr R) (d : Data R) : ∃ d',
    (l.foldr body rest).cost d = rest.cost d' + l.length * e := by
  induction l generalizing d with
  | nil => exact ⟨d, by simp⟩
  | cons y l ih =>
    obtain ⟨d₁, h₁⟩ := h y (l.foldr body rest) d
    obtain ⟨d', h'⟩ := ih d₁
    refine ⟨d', ?_⟩
    rw [List.foldr_cons, h₁, h', List.length_cons, Nat.succ_mul, Nat.add_assoc]

theorem within_foldr {F W : Set Addr} {body : ι → Prog Addr R → Prog Addr R} {l : List ι}
    (h : ∀ y ∈ l, ∀ rest, Within F W rest → Within F W (body y rest)) (hrest : Within F W rest) :
    Within F W (l.foldr body rest) := by
  induction l with
  | nil => exact hrest
  | cons y l ih => exact h y List.mem_cons_self _ (ih fun z hz => h z (List.mem_cons_of_mem y hz))

theorem InMemory.store (hm : InMemory x args c d) (hx : Layout x args.a.size args.b.size c.size)
    (he : Mm.store c q v = some c') :
    InMemory x args c' (Function.update d (elem x.c q) v) ∧ c'.size = c.size := by
  have hsize := size_store he
  unfold Mm.store at he
  split_ifs at he with hq
  obtain rfl := Option.some.inj he
  have hlt {arr : Array R} {q' : ℕ} {v' : R} (h : arr[q']? = some v') : q' < arr.size := by
    obtain ⟨hlt, -⟩ := Array.getElem?_eq_some_iff.mp h
    exact hlt
  refine ⟨⟨hm.n, hm.p, fun q' v' h => ?_, fun q' v' h => ?_, fun q' v' h => ?_⟩, hsize⟩
  · rw [Function.update_of_ne (Ne.symm (hx.ca q hq q' (hlt h)))]
    exact hm.a q' v' h
  · rw [Function.update_of_ne (Ne.symm (hx.cb q hq q' (hlt h)))]
    exact hm.b q' v' h
  · rw [Array.getElem?_setIfInBounds, if_pos hq] at h
    by_cases hqq : q = q'
    · rw [if_pos hqq] at h
      rw [hqq, Function.update_self]
      exact Option.some.inj h
    · rw [if_neg hqq] at h
      have hne : elem x.c q' ≠ elem x.c q := fun he => hqq (hx.cc q hq q' (hlt h) he.symm)
      rw [Function.update_of_ne hne]
      exact hm.c q' v' h

variable [Ring R]

def Has (x : Ptrs) (args : Args R) (nc : ℕ) (c : Array R) (d : Data R) : Prop :=
  InMemory x args c d ∧ c.size = nc

theorem run_addTerm (hx : Layout x args.a.size args.b.size nc) (hm : Has x args nc c d)
    (he : addTerm args i j c k = some c') :
    ∃ d', (addTermAt x i j k rest).run d = rest.run d' ∧ Has x args nc c' d' := by
  obtain ⟨hm, rfl⟩ := hm
  simp only [addTerm, Option.bind_eq_bind, Option.bind_eq_some_iff] at he
  obtain ⟨aik, ha, bkj, hb, cij, hc, he⟩ := he
  obtain ⟨hm', hsize⟩ := hm.store hx he
  refine ⟨_, ?_, hm', hsize⟩
  simp only [addTermAt, Prog.run, hm.n, hm.p, hm.a _ _ ha, hm.b _ _ hb, hm.c _ _ hc]

theorem run_mmEntry (hx : Layout x args.a.size args.b.size nc) (hm : Has x args nc c d)
    (he : mmEntry args i c j = some c') :
    ∃ d', (mmEntryAt x i j rest).run d = rest.run d' ∧ Has x args nc c' d' := by
  obtain ⟨hm, rfl⟩ := hm
  simp only [mmEntry, Option.bind_eq_bind, Option.bind_eq_some_iff] at he
  obtain ⟨ai0, ha, b0j, hb, c₁, hc, he⟩ := he
  obtain ⟨hm₁, hsize⟩ := hm.store hx hc
  have hloop := run_foldr (addTerm args i j) (addTermAt x i j) (Has x args c.size)
    (fun _ _ _ _ _ hs h => run_addTerm hx hs h) rest
    ⟨hm₁, hsize⟩ he
  simp only [mmEntryAt, Prog.run, hm.n, hm.p, hm.a _ _ ha, hm.b _ _ hb]
  exact hloop

theorem run_mm (hx : Layout x args.a.size args.b.size nc) (hm : Has x args nc c d)
    (he : mm args c i = some c') :
    ∃ d', (mmAt x i rest).run d = rest.run d' ∧ Has x args nc c' d' := by
  unfold mmAt
  rw [hm.1.n]
  exact run_foldr (mmEntry args i) (mmEntryAt x i) (Has x args nc)
    (fun _ _ _ _ _ hs h => run_mmEntry hx hs h) rest hm he

theorem run_mmRows (hx : Layout x args.a.size args.b.size nc) (hm : Has x args nc c d) {l : List ℕ}
    (he : mmAll args c l = some c') :
    Has x args nc c' ((mmRows x l).run d) := by
  obtain ⟨d', hrun, hm'⟩ := run_foldr (mm args) (mmAt x) (Has x args nc)
    (fun _ _ _ _ _ hs h => run_mm hx hs h) .done hm he
  unfold mmRows
  rw [hrun]
  exact hm'

/-! ### How many accesses it makes -/

def accesses (x : Ptrs) : ℕ := x.n * (3 + (x.p - 1) * 4)

theorem cost_mmRows (x : Ptrs) (l : List ℕ) (d : Data R) :
    (mmRows x l).cost d = l.length * accesses x := by
  have hterm (i j k : ℕ) (rest : Prog Addr R) (d : Data R) : ∃ d',
      (addTermAt x i j k rest).cost d = rest.cost d' + 4 :=
    ⟨_, rfl⟩
  have hentry (i j : ℕ) (rest : Prog Addr R) (d : Data R) :
      ∃ d', (mmEntryAt x i j rest).cost d = rest.cost d' + (3 + (x.p - 1) * 4) := by
    obtain ⟨d', h⟩ := cost_foldr (hterm i j) (List.range' 1 (x.p - 1)) rest
      (Function.update d (elem x.c (i * x.p + j))
        (d (elem x.a (i * x.n + 0)) * d (elem x.b (0 * x.p + j))))
    refine ⟨d', ?_⟩
    rw [List.length_range'] at h
    simp only [mmEntryAt, Prog.cost, h]
    omega
  have hrow (i : ℕ) (rest : Prog Addr R) (d : Data R) : ∃ d',
      (mmAt x i rest).cost d = rest.cost d' + accesses x := by
    obtain ⟨d', h⟩ := cost_foldr (hentry i) (List.range x.n) rest d
    rw [List.length_range] at h
    exact ⟨d', h⟩
  obtain ⟨d', h⟩ := cost_foldr hrow l .done d
  exact h.trans (Nat.zero_add _)

end

/-! ### Matrices in allocations -/

def Room (ps : PageSize) (A : Alloc) (k : ℕ) : Prop :=
  (A.vmStart ps).toNat + 8 * k ≤ (A.vmEnd ps).toNat

/-- Each row below `m` is given to one thread, once. -/
structure Shares {Tid : Type} (rows : Tid → List ℕ) (m : ℕ) : Prop where
  nodup : ∀ t, (rows t).Nodup
  lt : ∀ t, ∀ i ∈ rows t, i < m
  all : ∀ i < m, ∃ t, i ∈ rows t
  one : ∀ t u i, i ∈ rows t → i ∈ rows u → t = u

section

variable {Tid : Type} {ps : PageSize} {A B C : Alloc} {k q q' m n : ℕ} {rows : Tid → List ℕ}
  {g : Ghost} {mem : Mem}

theorem elem_toNat (h : Room ps A k) (hq : q < k) :
    (elem (A.vmStart ps) q).toNat = (A.vmStart ps).toNat + 8 * q := by
  have hlt := (A.vmEnd ps).isLt
  unfold Room at h
  unfold elem
  rw [BitVec.toNat_add, BitVec.toNat_ofNat, Nat.mod_eq_of_lt (show 8 * q < 2 ^ 64 by omega),
    Nat.mod_eq_of_lt (by omega)]

theorem elem_owns (h : Room ps A k) (hq : q < k) : A.Owns ps (elem (A.vmStart ps) q) := by
  have he := elem_toNat h hq
  unfold Room at h
  unfold Alloc.Owns
  omega

theorem elem_inj (h : Room ps A k) (hq : q < k) (hq' : q' < k)
    (he : elem (A.vmStart ps) q = elem (A.vmStart ps) q') : q = q' := by
  have h₁ := elem_toNat h hq
  have h₂ := elem_toNat h hq'
  rw [he] at h₁
  omega

theorem layout (hm : MemOk ps mem g) (hA : A ∈ mem.live) (hB : B ∈ mem.live) (hC : C ∈ mem.live)
    (hAC : A ≠ C) (hBC : B ≠ C)
    {na nb nc : ℕ} (rA : Room ps A na) (rB : Room ps B nb) (rC : Room ps C nc) :
    Layout ⟨n, n, A.vmStart ps, B.vmStart ps, C.vmStart ps⟩ na nb nc := by
  have hmapped {D : Alloc} (hD : D ∈ mem.live) : D ∈ g.mapped := hm.listed (hm.live D hD)
  refine ⟨fun q hq q' hq' he => hAC ?_, fun q hq q' hq' he => hBC ?_,
    fun q hq q' hq' he => elem_inj rC hq hq' he⟩
  · exact hm.eq_of_owns (hmapped hA) (hmapped hC) (elem_owns rA hq') (he ▸ elem_owns rC hq)
  · exact hm.eq_of_owns (hmapped hB) (hmapped hC) (elem_owns rB hq') (he ▸ elem_owns rC hq)

theorem Shares.sum_length [Fintype Tid] [DecidableEq Tid] (h : Shares rows m) :
    ∑ t, (rows t).length = m := by
  have hunion : (Finset.univ.biUnion fun t => (rows t).toFinset) = Finset.range m := by
    ext i
    simp only [Finset.mem_biUnion, Finset.mem_univ, true_and, List.mem_toFinset, Finset.mem_range]
    exact ⟨fun ⟨t, hi⟩ => h.lt t i hi, h.all i⟩
  have hcard : (Finset.univ.biUnion fun t => (rows t).toFinset).card = ∑ t,
      (rows t).toFinset.card := by
    apply Finset.card_biUnion
    intro t _ u _ htu
    rw [Function.onFun, Finset.disjoint_left]
    intro i hi hi'
    exact htu (h.one t u i (List.mem_toFinset.mp hi) (List.mem_toFinset.mp hi'))
  rw [hunion, Finset.card_range] at hcard
  rw [hcard]
  exact Finset.sum_congr rfl fun t _ => (List.toFinset_card_of_nodup (h.nodup t)).symm

/-- What a thread stores to: the rows of `c` that it has got. -/
def rowsOf (x : Ptrs) (l : List ℕ) : Set Addr :=
  {y | ∃ i ∈ l, ∃ j < x.p, y = elem x.c (i * x.p + j)}

/-- What a thread accesses: `a`, `b` and its rows of `c`. -/
def touched (x : Ptrs) (m : ℕ) (l : List ℕ) : Set Addr :=
  {y | (∃ q < m * x.n, y = elem x.a q) ∨ (∃ q < x.n * x.p, y = elem x.b q) ∨ y ∈ rowsOf x l}

variable {R : Type*} [Ring R]

theorem within_mmRows {x : Ptrs} (hnp : x.n = x.p) {l : List ℕ} (hl : ∀ i ∈ l, i < m) :
    Within (touched x m l) (rowsOf x l) (mmRows x l : Prog Addr R) := by
  have ha {i k : ℕ} (hi : i ∈ l) (hk : k < x.n) : elem x.a (i * x.n + k) ∈ touched x m l :=
    Or.inl ⟨_, index_lt (hl i hi) hk, rfl⟩
  have hb {k j : ℕ} (hk : k < x.n) (hj : j < x.p) : elem x.b (k * x.p + j) ∈ touched x m l :=
    Or.inr (Or.inl ⟨_, index_lt hk hj, rfl⟩)
  have hc {i j : ℕ} (hi : i ∈ l) (hj : j < x.p) : elem x.c (i * x.p + j) ∈ rowsOf x l :=
    ⟨i, hi, j, hj, rfl⟩
  have hc' {i j : ℕ} (hi : i ∈ l) (hj : j < x.p) : elem x.c (i * x.p + j) ∈ touched x m l :=
    Or.inr (Or.inr (hc hi hj))
  refine within_foldr (fun i hi rest hrest => within_foldr (fun j hj rest hrest => ?_) hrest) .done
  have hj : j < x.n := List.mem_range.mp hj
  have hjp : j < x.p := hnp ▸ hj
  refine .load (ha hi (by omega)) fun ai0 => .load (hb (by omega) hjp) fun b0j =>
    .store (hc' hi hjp) (hc hi hjp) ?_
  refine within_foldr (fun k hk rest hrest => ?_) hrest
  have hk : k < x.n := by
    have := List.mem_range'_1.mp hk
    omega
  exact .load (ha hi hk) fun aik => .load (hb hk hjp) fun bkj => .load (hc' hi hjp) fun cij =>
    .store (hc' hi hjp) (hc hi hjp) hrest

def arrayAt (base : Addr) (k : ℕ) (d : Data R) : Array R :=
  Array.ofFn fun q : Fin k => d (elem base q)

omit [Ring R] in
theorem arrayAt_stored {base : Addr} {k : ℕ} {d : Data R} : Stored base (arrayAt base k d) d := by
  intro q v h
  obtain ⟨hq, he⟩ := Array.getElem?_eq_some_iff.mp h
  rw [← he]
  simp [arrayAt]

omit [Ring R] in
theorem arrayAt_size {base : Addr} {k : ℕ} {d : Data R} : (arrayAt base k d).size = k :=
  Array.size_ofFn

omit [Ring R] in
theorem arrayAt_rowMajor {base : Addr} {d : Data R} {M : Matrix (Fin m) (Fin n) R}
    (hM : ∀ (i : Fin m) (j : Fin n), d (elem base (i * n + j)) = M i j) :
    RowMajor M (arrayAt base (m * n) d) := by
  refine ⟨arrayAt_size, fun i j => ?_⟩
  have hlt : i.val * n + j.val < m * n := index_lt i.isLt j.isLt
  simp [arrayAt, hlt, hM]

section

variable {d : Data R} {M : Matrix (Fin m) (Fin n) R} {N : Matrix (Fin n) (Fin n) R}

theorem mmRows_product {a b c : Addr} (hx : Layout ⟨n, n, a, b, c⟩ (m * n) (n * n) (m * n))
    (hM : ∀ (i : Fin m) (j : Fin n), d (elem a (i * n + j)) = M i j)
    (hN : ∀ (i j : Fin n), d (elem b (i * n + j)) = N i j)
    {l : List ℕ} (hl : ∀ i ∈ l, i < m) {i : Fin m} (hi : i.val ∈ l) (j : Fin n) :
    (mmRows ⟨n, n, a, b, c⟩ l).run d (elem c (i * n + j)) = (M * N) i j := by
  obtain ⟨c', he, -, hrows⟩ := mmAll_rows (arrayAt_rowMajor hM) (arrayAt_rowMajor hN)
    (show (arrayAt c (m * n) d).size = m * n from arrayAt_size) l hl
  have hm : Has ⟨n, n, a, b, c⟩ ⟨n, n, arrayAt a (m * n) d, arrayAt b (n * n) d⟩ (m * n)
      (arrayAt c (m * n) d) d :=
    ⟨⟨rfl, rfl, arrayAt_stored, arrayAt_stored, arrayAt_stored⟩, arrayAt_size⟩
  have hx' : Layout ⟨n, n, a, b, c⟩ (arrayAt a (m * n) d).size (arrayAt b (n * n) d).size
      (m * n) := by
    rw [arrayAt_size, arrayAt_size]
    exact hx
  obtain ⟨hend, -⟩ := run_mmRows hx' hm he
  have hentry := hrows i j j.isLt
  rw [if_pos hi, at?_mul i.isLt j.isLt] at hentry
  exact hend.c _ _ hentry

variable [Fintype Tid] [DecidableEq Tid] {s s₀ : Sched.State Tid} {c : Process Tid R (Prog Addr R)}

/-- The loop ends within a number of steps that the sizes give, and where it has ended, `c`
holds the product. -/
theorem mm_multiplies (h₀ : Start s₀) (hr₀ : Runs (threads Tid ps) (fun s _ => WellUsed ps s) s₀ s)
    (hrest : ∀ t, (s.pc t).now = .rest) (hA : A ∈ s.mem.live) (hB : B ∈ s.mem.live)
    (hC : C ∈ s.mem.live) (hAC : A ≠ C)
    (hBC : B ≠ C) (rA : Room ps A (m * n)) (rB : Room ps B (n * n)) (rC : Room ps C (m * n))
    (hM : ∀ (i : Fin m) (j : Fin n), d (elem (A.vmStart ps) (i * n + j)) = M i j)
    (hN : ∀ (i j : Fin n), d (elem (B.vmStart ps) (i * n + j)) = N i j) (hrows : Shares rows m)
    (hr : RunsIn (AnyStep ps toCommand)
      (load s d fun t => mmRows ⟨n, n, A.vmStart ps, B.vmStart ps, C.vmStart ps⟩ (rows t)) k c) :
    k ≤ 18 * (Fintype.card Tid + m * (n * (3 + (n - 1) * 4))) ∧
      ((∃ c', AnyStep ps toCommand c c') ∨
        ∀ (i : Fin m) (j : Fin n), c.mem.2 (elem (C.vmStart ps) (i * n + j)) = (M * N) i j) := by
  obtain ⟨g, hi⟩ := h₀.inv_of_runs hr₀
  have hx : Layout ⟨n, n, A.vmStart ps, B.vmStart ps, C.vmStart ps⟩ (m * n) (n * n) (m * n) :=
    layout hi.mem hA hB hC hAC hBC rA rB rC
  have hapart : Apart (fun t => touched ⟨n, n, A.vmStart ps, B.vmStart ps, C.vmStart ps⟩ m (rows t))
      (fun t => rowsOf ⟨n, n, A.vmStart ps, B.vmStart ps, C.vmStart ps⟩ (rows t))
      ⟨d, fun t => mmRows ⟨n, n, A.vmStart ps, B.vmStart ps, C.vmStart ps⟩ (rows t)⟩ := by
    refine ⟨fun t => within_mmRows rfl (hrows.lt t), fun t u htu y hy hy' => ?_⟩
    obtain ⟨i, hi, j, hj, rfl⟩ := hy
    have hlt : i * n + j < m * n := index_lt (hrows.lt t i hi) hj
    rcases hy' with ⟨q, hq, he⟩ | ⟨q, hq, he⟩ | ⟨i', hi', j', hj', he⟩
    · exact hx.ca _ hlt q hq he
    · exact hx.cb _ hlt q hq he
    · have hlt' : i' * n + j' < m * n := index_lt (hrows.lt u i' hi') hj'
      obtain ⟨rfl, -⟩ := index_inj hj hj' (hx.cc _ hlt _ hlt' he)
      exact htu (hrows.one t u i hi hi')
  have hF (t : Tid) (y : Addr)
      (hy : y ∈ touched ⟨n, n, A.vmStart ps, B.vmStart ps, C.vmStart ps⟩ m (rows t)) :
      InLive ps s.mem.live y := by
    rcases hy with ⟨q, hq, rfl⟩ | ⟨q, hq, rfl⟩ | ⟨i, hi, j, hj, rfl⟩
    · exact ⟨A, hA, elem_owns rA hq⟩
    · exact ⟨B, hB, elem_owns rB hq⟩
    · exact ⟨C, hC, elem_owns rC (index_lt (hrows.lt t i hi) hj)⟩
  refine ⟨?_, (apart_ends hapart hF h₀ hr₀ hrest hr).imp_right fun h i j => ?_⟩
  · have hle := apart_steps_le hapart hF h₀ hr₀ hrest hr
    have hcost : costAll ⟨d, fun t => mmRows ⟨n, n, A.vmStart ps, B.vmStart ps, C.vmStart ps⟩
        (rows t)⟩ =
        m * (n * (3 + (n - 1) * 4)) := by
      unfold costAll
      simp only [cost_mmRows, ← Finset.sum_mul, hrows.sum_length]
      rfl
    rw [hcost] at hle
    exact hle
  · obtain ⟨t, ht⟩ := hrows.all i i.isLt
    obtain ⟨-, -, hdata⟩ := h t
    rw [hdata _ (Or.inr (Or.inr ⟨i, ht, j, j.isLt, rfl⟩))]
    exact mmRows_product hx hM hN (hrows.lt t) ht j

end

end

def square : Matrix (Fin 2) (Fin 2) ℤ := !![1, 2; 3, 4]

def squareData : Data ℤ := fun y => if y = 0x11000 then 1 else if y = 0x11008 then 2
    else if y = 0x11010 then 3 else
  if y = 0x11018 then 4 else 0

/-- Its square, with a thread for each row. -/
theorem mm_multiplies_square : ∃ s : Sched.State Bool, ∀ k c,
    RunsIn (AnyStep .small toCommand)
      (load s squareData fun t => mmRows ⟨2, 2, 0x11000, 0x11000, 0x21000⟩ (if t then [0] else [1]))
      k c →
      k ≤ 18 * (2 + 2 * (2 * 7)) ∧
        ((∃ c', AnyStep .small toCommand c c') ∨ ∀ i j : Fin 2,
          c.mem.2 (elem 0x21000 (i * 2 + j)) = (square * square) i j) := by
  obtain ⟨s, hr, hrest, hl⟩ := twoThreads_allocate
  have hA : (⟨0x10000, 32⟩ : Alloc) ∈ s.mem.live := by simp [hl]
  have hC : (⟨0x20000, 32⟩ : Alloc) ∈ s.mem.live := by simp [hl]
  have hAC : (⟨0x10000, 32⟩ : Alloc) ≠ ⟨0x20000, 32⟩ := by decide
  have hstart : Alloc.vmStart .small ⟨0x10000, 32⟩ = 0x11000 := by decide
  have hstart' : Alloc.vmStart .small ⟨0x20000, 32⟩ = 0x21000 := by decide
  have rA : Room .small ⟨0x10000, 32⟩ (2 * 2) := by
    unfold Room
    decide
  have rC : Room .small ⟨0x20000, 32⟩ (2 * 2) := by
    unfold Room
    decide
  have hM (i j : Fin 2) : squareData (elem (Alloc.vmStart .small ⟨0x10000, 32⟩) (i * 2 + j)) =
      square i j := by
    rw [hstart]
    fin_cases i <;> fin_cases j <;> rfl
  have hrows : Shares (fun t : Bool => if t then [0] else [1]) 2 := by
    refine ⟨by decide, by decide, fun i hi => ?_, fun t u i ht hu => ?_⟩
    · rcases (by omega : i = 0 ∨ i = 1) with rfl | rfl
      · exact ⟨true, by decide⟩
      · exact ⟨false, by decide⟩
    · cases t <;> cases u <;> simp_all
  refine ⟨s, fun k c hrun => ?_⟩
  rw [← hstart, ← hstart'] at hrun
  have h := mm_multiplies twoThreads_start hr hrest hA hA hC hAC hAC rA rA rC hM hM hrows hrun
  rw [hstart'] at h
  exact h

end OpenOOC.Mm
