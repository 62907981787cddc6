import OpenOOC.Lib.Links
import OpenOOC.Vma.Code

/-! How a superblock is laid out, and what the loops that set it up and tear it
down leave in memory. -/

namespace OpenOOC.Vma

open Links

def blocksOf (s : ℕ) : List ℕ := (List.range SUPERBLOCK_CTR_FULL).map fun i =>
    s + BLOCK_SIZE + BLOCK_SIZE * i

def slotsOf (sz : Sizes) (b : ℕ) : List ℕ :=
  (List.range (BLOCK_CTR_FULL sz)).map fun j => b + sz.block + sz.vmArea * j

theorem block_size : BLOCK_SIZE = 4096 := rfl
theorem superblock_size : SUPERBLOCK_SIZE = 262144 := rfl
theorem superblock_ctr_full : SUPERBLOCK_CTR_FULL = 63 := by decide

@[simp] theorem length_blocksOf (s : ℕ) : (blocksOf s).length = SUPERBLOCK_CTR_FULL := by
  simp [blocksOf]

@[simp] theorem length_slotsOf (sz : Sizes) (b : ℕ) :
    (slotsOf sz b).length = BLOCK_CTR_FULL sz := by
  simp [slotsOf]

theorem mem_blocksOf {s b : ℕ} :
    b ∈ blocksOf s ↔ ∃ i < SUPERBLOCK_CTR_FULL, b = s + BLOCK_SIZE + BLOCK_SIZE * i := by
  simp [blocksOf, eq_comm]

theorem mem_slotsOf {sz : Sizes} {b v : ℕ} :
    v ∈ slotsOf sz b ↔ ∃ j < BLOCK_CTR_FULL sz, v = b + sz.block + sz.vmArea * j := by
  simp [slotsOf, eq_comm]

theorem nodup_blocksOf (s : ℕ) : (blocksOf s).Nodup := by
  refine List.Nodup.map (fun i j h => ?_) List.nodup_range
  simp only [block_size] at h
  omega

theorem blocksOf_range {s b : ℕ} (hb : b ∈ blocksOf s) :
    s + BLOCK_SIZE ≤ b ∧ b + BLOCK_SIZE ≤ s + SUPERBLOCK_SIZE ∧
    b % BLOCK_SIZE = s % BLOCK_SIZE := by
  obtain ⟨i, hi, rfl⟩ := mem_blocksOf.mp hb
  rw [superblock_ctr_full] at hi
  simp only [block_size, superblock_size]
  omega

structure Sizes.Fits (sz : Sizes) : Prop where
  vmArea_pos : 0 < sz.vmArea
  one_le : 1 ≤ BLOCK_CTR_FULL sz

theorem Layout.fits (Λ : Layout) : Λ.toSizes.Fits :=
  ⟨Λ.vmArea_pos, (by decide : 1 ≤ 2).trans Λ.two_le⟩

theorem Sizes.fits_of_one_le {sz : Sizes} (h : 1 ≤ BLOCK_CTR_FULL sz) : sz.Fits := by
  refine ⟨Nat.pos_of_ne_zero fun h0 => ?_, h⟩
  rw [BLOCK_CTR_FULL, h0, Nat.div_zero] at h
  omega

section

variable {sz : Sizes} (hz : sz.Fits)

include hz

theorem nodup_slotsOf (b : ℕ) : (slotsOf sz b).Nodup := by
  refine List.Nodup.map (fun i j h => ?_) List.nodup_range
  exact Nat.eq_of_mul_eq_mul_left hz.vmArea_pos (by omega)

theorem slots_fit : sz.block + sz.vmArea * BLOCK_CTR_FULL sz ≤ BLOCK_SIZE := by
  have h := Nat.mul_div_le (BLOCK_SIZE - sz.block) sz.vmArea
  have h2 := hz.one_le
  unfold BLOCK_CTR_FULL at h2 ⊢
  have hlt : 0 < BLOCK_SIZE - sz.block := by
    rcases Nat.eq_zero_or_pos (BLOCK_SIZE - sz.block) with h0 | h0
    · rw [h0] at h2
      simp at h2
    · exact h0
  omega

/-- A struct lies behind the header of its block and inside the block. -/
theorem slotsOf_range {b v : ℕ} (hv : v ∈ slotsOf sz b) :
    b + sz.block ≤ v ∧ v + sz.vmArea ≤ b + BLOCK_SIZE := by
  obtain ⟨j, hj, rfl⟩ := mem_slotsOf.mp hv
  have hfit := slots_fit hz
  have hle : sz.vmArea * (j + 1) ≤ sz.vmArea * BLOCK_CTR_FULL sz := Nat.mul_le_mul_left _ hj
  rw [Nat.mul_succ] at hle
  omega

/-- The mask leads from a struct to its block. -/
theorem sVma2block_slot {b v : ℕ} (hb : b % BLOCK_SIZE = 0) (hv : v ∈ slotsOf sz b) :
    sVma2block v = b := by
  have hr := slotsOf_range hz hv
  have hp := hz.vmArea_pos
  unfold sVma2block
  simp only [block_size] at *
  omega

end

/-! ### Setting up the structs of a block -/

/-- What the inner loop writes at `x`, if anything: it starts at `v` and takes `k` steps. -/
theorem setupVmas_slot {sz : Sizes} (hp : 0 < sz.vmArea) (k v : ℕ) (f : ℕ → Option ℕ) {j : ℕ}
    (hj : j ≤ k) :
    setupVmas sz k v f (v + sz.vmArea * j) =
      if j = k then none else some (v + sz.vmArea * (j + 1)) := by
  induction k generalizing v f j with
  | zero =>
    obtain rfl : j = 0 := by omega
    simp [setupVmas]
  | succ k ih =>
    unfold setupVmas
    cases j with
    | zero =>
      -- the later steps write behind `v`
      have hlater : ∀ k w g, v < w → setupVmas sz k w g v = g v := by
        intro k
        induction k with
        | zero => intro w g hw; simp [setupVmas, Function.update_of_ne (Nat.ne_of_lt hw)]
        | succ k ih' =>
          intro w g hw
          unfold setupVmas
          rw [ih' _ _ (by omega), Function.update_of_ne (Nat.ne_of_lt hw)]
      rw [Nat.mul_zero, Nat.add_zero, hlater _ _ _ (by omega), Function.update_self]
      simp
    | succ j =>
      have he : v + sz.vmArea * (j + 1) = v + sz.vmArea + sz.vmArea * j := by
        rw [Nat.mul_succ]; omega
      have he' : v + sz.vmArea * (j + 1 + 1) = v + sz.vmArea + sz.vmArea * (j + 1) := by
        rw [Nat.mul_succ]
        omega
      rw [he, ih _ _ (by omega), he']
      simp

theorem setupVmas_other {sz : Sizes} (k v : ℕ) (f : ℕ → Option ℕ) {x : ℕ}
    (hx : ∀ j ≤ k, x ≠ v + sz.vmArea * j) : setupVmas sz k v f x = f x := by
  induction k generalizing v f with
  | zero => exact Function.update_of_ne (by simpa using hx 0 (le_refl 0)) _ _
  | succ k ih =>
    unfold setupVmas
    rw [ih _ _ fun j hj => ?_, Function.update_of_ne (by simpa using hx 0 (by omega))]
    have := hx (j + 1) (by omega)
    rw [Nat.mul_succ] at this
    omega

def slotNext (sz : Sizes) (b x : ℕ) : Option ℕ :=
  if x = b + sz.block + sz.vmArea * (BLOCK_CTR_FULL sz - 1) then none else some (x + sz.vmArea)

/-- The inner loop writes the structs of the block and nothing else. -/
theorem setupVmas_eq {sz : Sizes} (hz : sz.Fits) (b : ℕ) (f : ℕ → Option ℕ) (x : ℕ) :
    setupVmas sz (BLOCK_CTR_FULL sz - 1) (b + sz.block) f x =
      if x ∈ slotsOf sz b then slotNext sz b x else f x := by
  have h2 := hz.one_le
  split_ifs with hx
  · obtain ⟨j, hj, rfl⟩ := mem_slotsOf.mp hx
    rw [setupVmas_slot hz.vmArea_pos _ _ _ (by omega), slotNext, Nat.mul_succ, ← Nat.add_assoc]
    by_cases hjk : j = BLOCK_CTR_FULL sz - 1
    · rw [if_pos hjk, if_pos (by rw [hjk])]
    · rw [if_neg hjk, if_neg]
      intro he
      exact hjk (Nat.eq_of_mul_eq_mul_left hz.vmArea_pos (by omega))
  · refine setupVmas_other _ _ _ fun j hj he => hx (mem_slotsOf.mpr ⟨j, by omega, he⟩)

theorem slotNext_chain {sz : Sizes} (hz : sz.Fits) {f : ℕ → Option ℕ} {b : ℕ}
    (hf : ∀ v ∈ slotsOf sz b, f v = slotNext sz b v) :
    Chain f (some (b + sz.block)) (slotsOf sz b) := by
  have h2 := hz.one_le
  obtain ⟨k, hk⟩ : ∃ k, BLOCK_CTR_FULL sz = k + 1 := ⟨BLOCK_CTR_FULL sz - 1, by omega⟩
  have hc := @chain_range _ f (fun j => b + sz.block + sz.vmArea * j) k
    (fun j hj => ?_) ?_
  · simpa [slotsOf, hk] using hc
  · rw [hf _ (mem_slotsOf.mpr ⟨j, by omega, rfl⟩), slotNext, if_neg, Nat.mul_succ, ← Nat.add_assoc]
    intro he
    have := Nat.eq_of_mul_eq_mul_left hz.vmArea_pos
      (show sz.vmArea * j = sz.vmArea * (BLOCK_CTR_FULL sz - 1) by omega)
    omega
  · rw [hf _ (mem_slotsOf.mpr ⟨k, by omega, rfl⟩), slotNext, if_pos]
    rw [hk, Nat.add_sub_cancel]

/-! ### Setting up the blocks -/

variable {Tid : Type}

/-- What the outer loop leaves in the header at `x`, if it starts at `b` and
takes `k` rounds. -/
def setupHeader (sz : Sizes) (s b k x : ℕ) (B : Block Tid) : Block Tid :=
  { B with vctr := 0, head := some (x + sz.block), superblock := s,
           next := if x + BLOCK_SIZE = b + BLOCK_SIZE * k then none else some (x + BLOCK_SIZE),
           prev := if x = b then B.prev else some (x - BLOCK_SIZE) }

attribute [local simp] setupHeader

/-- `x` is where one of `k` blocks from `b` on starts. -/
def AtBlock (b k x : ℕ) : Prop := b ≤ x ∧ x < b + BLOCK_SIZE * k ∧ x % BLOCK_SIZE = b % BLOCK_SIZE

instance (b k x : ℕ) : Decidable (AtBlock b k x) := inferInstanceAs (Decidable (_ ∧ _ ∧ _))

def AtSlot (sz : Sizes) (b k x : ℕ) : Prop :=
  b ≤ x ∧ x < b + BLOCK_SIZE * k ∧ x ∈ slotsOf sz (sVma2block x)

instance (sz : Sizes) (b k x : ℕ) : Decidable (AtSlot sz b k x) :=
  inferInstanceAs (Decidable (_ ∧ _ ∧ _))

theorem setupBlock_vmNext {sz : Sizes} (hz : sz.Fits) (s b : ℕ) (next : Option ℕ) (m : Mem Tid)
    (hb : b % BLOCK_SIZE = 0) (x : ℕ) :
    (setupBlock sz s b next m).vmNext x =
      if AtSlot sz b 1 x then slotNext sz (sVma2block x) x else m.vmNext x := by
  have hiff : AtSlot sz b 1 x ↔ x ∈ slotsOf sz b := by
    constructor
    · rintro ⟨h1, h2, h3⟩
      have : sVma2block x = b := by
        unfold sVma2block
        simp only [block_size] at *
        omega
      rwa [this] at h3
    · intro hx
      have hr := slotsOf_range hz hx
      have hp := hz.vmArea_pos
      exact ⟨by omega, by omega, by rwa [sVma2block_slot hz hb hx]⟩
  have he := setupVmas_eq hz b m.vmNext x
  simp only [setupBlock, he]
  by_cases hx : x ∈ slotsOf sz b
  · rw [if_pos hx, if_pos (hiff.mpr hx), sVma2block_slot hz hb hx]
  · rw [if_neg hx, if_neg (mt hiff.mp hx)]

theorem setupBlocks_vmNext {sz : Sizes} (hz : sz.Fits) (s k b : ℕ) (m : Mem Tid)
    (hb : b % BLOCK_SIZE = 0) (x : ℕ) :
    (setupBlocks sz s k b m).vmNext x =
      if AtSlot sz b k x then slotNext sz (sVma2block x) x else m.vmNext x := by
  induction k using Nat.twoStepInduction generalizing b m with
  | zero => rw [if_neg fun h => by have := h.1; have := h.2.1; omega]; rfl
  | one => rw [setupBlocks, setupBlock_vmNext hz s b none m hb]
  | more k _ ih =>
    have hb' : (b + BLOCK_SIZE) % BLOCK_SIZE = 0 := by rw [Nat.add_mod_right, hb]
    rw [setupBlocks, ih _ _ hb', setupBlock_vmNext hz s b _ m hb]
    have hsplit : AtSlot sz b (k + 2) x ↔
        AtSlot sz b 1 x ∨ AtSlot sz (b + BLOCK_SIZE) (k + 1) x := by
      have hrange : b ≤ x ∧ x < b + BLOCK_SIZE * (k + 2) ↔ (b ≤ x ∧ x < b + BLOCK_SIZE * 1) ∨
          (b + BLOCK_SIZE ≤ x ∧ x < b + BLOCK_SIZE + BLOCK_SIZE * (k + 1)) := by
        simp only [block_size]
        omega
      constructor
      · rintro ⟨h1, h2, h3⟩
        exact (hrange.mp ⟨h1, h2⟩).imp (fun h => ⟨h.1, h.2, h3⟩) fun h => ⟨h.1, h.2, h3⟩
      · rintro (⟨h1, h2, h3⟩ | ⟨h1, h2, h3⟩)
        · exact ⟨(hrange.mpr (Or.inl ⟨h1, h2⟩)).1, (hrange.mpr (Or.inl ⟨h1, h2⟩)).2, h3⟩
        · exact ⟨(hrange.mpr (Or.inr ⟨h1, h2⟩)).1, (hrange.mpr (Or.inr ⟨h1, h2⟩)).2, h3⟩
    by_cases h1 : AtSlot sz (b + BLOCK_SIZE) (k + 1) x
    · rw [if_pos h1, if_pos (hsplit.mpr (Or.inr h1))]
    · rw [if_neg h1]
      by_cases h2 : AtSlot sz b 1 x
      · rw [if_pos h2, if_pos (hsplit.mpr (Or.inl h2))]
      · rw [if_neg h2, if_neg fun h => (hsplit.mp h).elim h2 h1]

theorem setupBlocks_block (sz : Sizes) (s k b : ℕ) (m : Mem Tid) (x : ℕ) :
    (setupBlocks sz s k b m).block x =
      if AtBlock b k x then setupHeader sz s b k x (m.block x) else m.block x := by
  induction k using Nat.twoStepInduction generalizing b m with
  | zero => rw [if_neg fun h => by have := h.1; have := h.2.1; omega]; rfl
  | one =>
    have hiff : AtBlock b 1 x ↔ x = b := by
      unfold AtBlock
      simp only [block_size]
      omega
    by_cases hx : x = b
    · rw [if_pos (hiff.mpr hx)]
      subst hx
      simp [setupBlocks, setupBlock]
    · rw [if_neg (mt hiff.mp hx)]
      simp [setupBlocks, setupBlock, hx]
  | more k _ ih =>
    rw [setupBlocks, ih]
    have hne : ∀ y, y + BLOCK_SIZE ≠ y := fun y => by simp only [block_size]; omega
    have hblk (y : ℕ) : (setupBlock sz s b (some (b + BLOCK_SIZE)) m).block y =
        if y = b + BLOCK_SIZE then { m.block y with prev := some b }
        else if y = b then { m.block y with vctr := 0, head := some (b + sz.block), superblock := s,
                                            next := some (b + BLOCK_SIZE) }
        else m.block y := by
      simp only [setupBlock]
      by_cases h1 : y = b + BLOCK_SIZE
      · subst h1
        rw [if_pos rfl, Function.update_self, Function.update_of_ne (hne b)]
      · rw [if_neg h1, Function.update_of_ne h1]
        by_cases h2 : y = b
        · subst h2
          rw [if_pos rfl, Function.update_self]
        · rw [if_neg h2, Function.update_of_ne h2]
    have hcond : AtBlock b (k + 2) x ↔ x = b ∨ AtBlock (b + BLOCK_SIZE) (k + 1) x := by
      unfold AtBlock
      simp only [block_size]
      omega
    by_cases hx : AtBlock (b + BLOCK_SIZE) (k + 1) x
    · have hxb : x ≠ b := by
        rintro rfl
        have := hx.1
        simp only [block_size] at this
        omega
      rw [if_pos hx, if_pos (hcond.mpr (Or.inr hx)), hblk]
      have hend : x + BLOCK_SIZE = b + BLOCK_SIZE + BLOCK_SIZE * (k + 1) ↔
          x + BLOCK_SIZE = b + BLOCK_SIZE * (k + 2) := by
        simp only [block_size]
        omega
      by_cases h1 : x = b + BLOCK_SIZE
      · rw [if_pos h1]
        subst h1
        simp only [setupHeader, hend, if_true, hne, if_false, Nat.add_sub_cancel]
      · rw [if_neg h1, if_neg hxb]
        simp only [setupHeader, hend, h1, hxb, if_false]
    · rw [if_neg hx, hblk]
      have hx1 : x ≠ b + BLOCK_SIZE := by
        rintro rfl
        exact hx ⟨le_refl _, by simp only [block_size]; omega, rfl⟩
      rw [if_neg hx1]
      by_cases h2 : x = b
      · rw [if_pos h2, if_pos (hcond.mpr (Or.inl h2))]
        subst h2
        have hne2 : ¬ x + BLOCK_SIZE = x + BLOCK_SIZE * (k + 2) := by
          simp only [block_size]
          omega
        simp only [setupHeader, hne2, if_true, if_false]
      · rw [if_neg h2, if_neg fun h => (hcond.mp h).elim h2 hx]

theorem setupBlocks_rest (sz : Sizes) (s k b : ℕ) (m : Mem Tid) :
    setupBlocks sz s k b m = { m with block := (setupBlocks sz s k b m).block,
                                      vmNext := (setupBlocks sz s k b m).vmNext } := by
  induction k using Nat.twoStepInduction generalizing b m with
  | zero => rfl
  | one => rfl
  | more k _ ih =>
    rw [setupBlocks, ih]
    rfl

theorem atBlock_iff {s x : ℕ} : AtBlock (s + BLOCK_SIZE) SUPERBLOCK_CTR_FULL x ↔
    x ∈ blocksOf s := by
  rw [mem_blocksOf, superblock_ctr_full]
  unfold AtBlock
  simp only [block_size]
  constructor
  · rintro ⟨h1, h2, h3⟩
    exact ⟨(x - (s + 4096)) / 4096, by omega, by omega⟩
  · rintro ⟨i, hi, rfl⟩
    omega

/-! ### A new superblock, and one that is torn down -/

/-- What `S_superblock_list_setup` leaves in the superblock at `s`. -/
theorem sSuperblockListSetup_eq {sz : Sizes} (hz : sz.Fits) (m : Mem Tid) {s : ℕ}
    (hs : s % BLOCK_SIZE = 0) :
    sSuperblockListSetup sz s m =
      { m with
        superblock := Function.update m.superblock s
          { m.superblock s with head := some (s + BLOCK_SIZE) },
        block := fun x =>
          if AtBlock (s + BLOCK_SIZE) SUPERBLOCK_CTR_FULL x then
            { setupHeader sz s (s + BLOCK_SIZE) SUPERBLOCK_CTR_FULL x (m.block x) with
              prev := if x = s + BLOCK_SIZE then none else some (x - BLOCK_SIZE) }
          else m.block x,
        vmNext := fun x =>
          if AtSlot sz (s + BLOCK_SIZE) SUPERBLOCK_CTR_FULL x then slotNext sz (sVma2block x) x
          else m.vmNext x } := by
  have hb : (s + BLOCK_SIZE) % BLOCK_SIZE = 0 := by rw [Nat.add_mod_right, hs]
  have hfirst : AtBlock (s + BLOCK_SIZE) SUPERBLOCK_CTR_FULL (s + BLOCK_SIZE) := by
    refine ⟨le_refl _, ?_, rfl⟩
    simp only [block_size, superblock_ctr_full]
    omega
  unfold sSuperblockListSetup
  rw [setupBlocks_rest, Mem.mk.injEq]
  refine ⟨?_, rfl, ?_, rfl, rfl, rfl, rfl, rfl, rfl⟩
  · funext x
    rw [setupBlocks_block]
    by_cases hx : AtBlock (s + BLOCK_SIZE) SUPERBLOCK_CTR_FULL x
    · rw [if_pos hx, if_pos hx]
      by_cases h1 : x = s + BLOCK_SIZE
      · subst h1
        simp
      · simp [h1]
    · rw [if_neg hx, if_neg hx]
      have hne : x ≠ s + BLOCK_SIZE := by
        rintro rfl
        exact hx hfirst
      exact Function.update_of_ne hne _ _
  · funext x
    rw [setupBlocks_vmNext hz s _ _ _ hb]

/-- What `S_superblock_get_and_lock` leaves when the system gives `s`. -/
theorem newSuperblock_eq {sz : Sizes} (hz : sz.Fits) (m : Mem Tid) {s : ℕ}
    (hs : s % BLOCK_SIZE = 0) :
    newSuperblock sz s m =
      { m with
        held := s :: m.held, log := m.log ++ [.sysAlloc s], gpoolHead := some s,
        superblock := Function.update m.superblock s ⟨0, some (s + BLOCK_SIZE), none, none⟩,
        block := fun x =>
          if AtBlock (s + BLOCK_SIZE) SUPERBLOCK_CTR_FULL x then
            { setupHeader sz s (s + BLOCK_SIZE) SUPERBLOCK_CTR_FULL x (m.block x) with
              prev := if x = s + BLOCK_SIZE then none else some (x - BLOCK_SIZE) }
          else m.block x,
        vmNext := fun x =>
          if AtSlot sz (s + BLOCK_SIZE) SUPERBLOCK_CTR_FULL x then
            slotNext sz (sVma2block x) x
          else m.vmNext x } := by
  unfold newSuperblock
  rw [sSuperblockListSetup_eq hz _ hs]
  simp only [Function.update_idem, Function.update_self]

theorem chain_blocksOf {next : ℕ → Option ℕ} (s : ℕ) (h : ∀ x ∈ blocksOf s, next x =
      if x + BLOCK_SIZE = s + BLOCK_SIZE + BLOCK_SIZE * SUPERBLOCK_CTR_FULL then none
        else some (x + BLOCK_SIZE)) :
    Chain next (some (s + BLOCK_SIZE)) (blocksOf s) := by
  have hk : SUPERBLOCK_CTR_FULL = 62 + 1 := superblock_ctr_full
  have hc := @chain_range _ next (fun i => s + BLOCK_SIZE + BLOCK_SIZE * i) 62
    (fun j hj => ?_) ?_
  · simpa [blocksOf, hk] using hc
  · rw [h _ (mem_blocksOf.mpr ⟨j, by omega, rfl⟩), if_neg, Nat.mul_succ, ← Nat.add_assoc]
    simp only [block_size, superblock_ctr_full]
    omega
  · rw [h _ (mem_blocksOf.mpr ⟨62, by omega, rfl⟩), if_pos]
    simp only [block_size, superblock_ctr_full]

theorem atSlot_of_mem {sz : Sizes} (hz : sz.Fits) {s b v : ℕ} (hs : s % BLOCK_SIZE = 0)
    (hb : b ∈ blocksOf s)
    (hv : v ∈ slotsOf sz b) : AtSlot sz (s + BLOCK_SIZE) SUPERBLOCK_CTR_FULL v := by
  have hr1 := blocksOf_range hb
  have hr2 := slotsOf_range hz hv
  have hp := hz.vmArea_pos
  refine ⟨by omega, ?_, by rwa [sVma2block_slot hz (by rw [hr1.2.2, hs]) hv]⟩
  simp only [block_size, superblock_size, superblock_ctr_full] at *
  omega

theorem destroyBlocks_block (sz : Sizes) (k b : ℕ) (m : Mem Tid) (x : ℕ) :
    (destroyBlocks sz k b m).block x =
      if AtBlock b k x then
        { m.block x with
          head := some (x + sz.block),
          next := if x + BLOCK_SIZE = b + BLOCK_SIZE * k then none else some (x + BLOCK_SIZE) }
      else m.block x := by
  induction k using Nat.twoStepInduction generalizing b m with
  | zero => rw [if_neg fun h => by have := h.1; have := h.2.1; omega]; rfl
  | one =>
    have hiff : AtBlock b 1 x ↔ x = b := by
      unfold AtBlock
      simp only [block_size]
      omega
    by_cases hx : x = b
    · rw [if_pos (hiff.mpr hx)]
      subst hx
      simp [destroyBlocks, destroyBlock]
    · rw [if_neg (mt hiff.mp hx)]
      simp [destroyBlocks, destroyBlock, hx]
  | more k _ ih =>
    rw [destroyBlocks, ih]
    have hcond : AtBlock b (k + 2) x ↔ x = b ∨ AtBlock (b + BLOCK_SIZE) (k + 1) x := by
      unfold AtBlock
      simp only [block_size]
      omega
    have hend : x + BLOCK_SIZE = b + BLOCK_SIZE + BLOCK_SIZE * (k + 1) ↔
        x + BLOCK_SIZE = b + BLOCK_SIZE * (k + 2) := by
      simp only [block_size]
      omega
    by_cases hx : AtBlock (b + BLOCK_SIZE) (k + 1) x
    · have hxb : x ≠ b := by
        rintro rfl
        have := hx.1
        simp only [block_size] at this
        omega
      rw [if_pos hx, if_pos (hcond.mpr (Or.inr hx))]
      simp only [destroyBlock, Function.update_of_ne hxb, hend]
    · rw [if_neg hx]
      by_cases h2 : x = b
      · rw [if_pos (hcond.mpr (Or.inl h2))]
        subst h2
        have hne2 : ¬ x + BLOCK_SIZE = x + BLOCK_SIZE * (k + 2) := by
          simp only [block_size]
          omega
        simp only [destroyBlock, Function.update_self, hne2, if_false]
      · rw [if_neg fun h => (hcond.mp h).elim h2 hx]
        simp only [destroyBlock, Function.update_of_ne h2]

theorem destroyBlocks_rest (sz : Sizes) (k b : ℕ) (m : Mem Tid) :
    destroyBlocks sz k b m = { m with block := (destroyBlocks sz k b m).block } := by
  induction k using Nat.twoStepInduction generalizing b m with
  | zero => rfl
  | one => rfl
  | more k _ ih =>
    rw [destroyBlocks, ih]
    rfl

/-- Tearing a superblock down writes to that superblock and its blocks only. -/
theorem sSuperblockListDestroy_eq (sz : Sizes) (s : ℕ) (m : Mem Tid) :
    ∃ blk, sSuperblockListDestroy sz s m =
      { m with
        superblock := Function.update m.superblock s
          { m.superblock s with head := some (s + BLOCK_SIZE) },
        block := blk } ∧
      (∀ b, b ∉ blocksOf s → blk b = m.block b) ∧
      ∀ b, ∃ h n, blk b = { m.block b with head := h, next := n } := by
  unfold sSuperblockListDestroy
  refine ⟨_, by rw [destroyBlocks_rest], fun b hb => ?_, fun b => ?_⟩
  · rw [destroyBlocks_block, if_neg (mt atBlock_iff.mp hb)]
  · rw [destroyBlocks_block]
    by_cases hb : AtBlock (s + BLOCK_SIZE) SUPERBLOCK_CTR_FULL b
    · rw [if_pos hb]
      exact ⟨_, _, rfl⟩
    · rw [if_neg hb]
      exact ⟨(m.block b).head, (m.block b).next, rfl⟩

end OpenOOC.Vma
