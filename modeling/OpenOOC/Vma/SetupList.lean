import OpenOOC.Vma.Schedules

/-! The lists that `S_superblock_list_setup` builds, for any sizes that leave room
for a struct in a block: how long they are, and that no two records overlap. -/

namespace OpenOOC.Vma

open Links

variable {Tid : Type} {sz : Sizes} {s : ℕ} {m : Mem Tid}

/-- The bytes of a record of size `n` at `a` and of one of size `k` at `b` are disjoint. -/
def NoOverlap (a n b k : ℕ) : Prop := a + n ≤ b ∨ b + k ≤ a

/-- The superblock at `s` has the block list `blocks`, and each block `b` the vma
list `vmas b`. The superblock's own header is in the first `BLOCK_SIZE` bytes. -/
structure ListsOf (sz : Sizes) (s : ℕ) (m : Mem Tid) (blocks : List ℕ) (vmas : ℕ → List ℕ) :
    Prop where
  block_list : Chain (fun b => (m.block b).next) (m.superblock s).head blocks
  block_links : Seg (fun b => (m.block b).next) (fun b => (m.block b).prev) none blocks none
  block_count : blocks.length = SUPERBLOCK_CTR_FULL
  block_distinct : blocks.Nodup
  vma_list : ∀ b ∈ blocks, Chain m.vmNext (m.block b).head (vmas b)
  vma_count : ∀ b ∈ blocks, (vmas b).length = BLOCK_CTR_FULL sz
  vma_distinct : ∀ b ∈ blocks, (vmas b).Nodup
  owner : ∀ b ∈ blocks, (m.block b).superblock = s ∧ (m.block b).vctr = 0
  vma_vma : ∀ b ∈ blocks, ∀ v ∈ vmas b, ∀ c ∈ blocks, ∀ w ∈ vmas c, v ≠ w →
    NoOverlap v sz.vmArea w sz.vmArea
  vma_block : ∀ b ∈ blocks, ∀ v ∈ vmas b, ∀ c ∈ blocks, NoOverlap v sz.vmArea c sz.block
  block_block : ∀ b ∈ blocks, ∀ c ∈ blocks, b ≠ c → NoOverlap b sz.block c sz.block
  superblock_block : ∀ b ∈ blocks, s + BLOCK_SIZE ≤ b
  superblock_vma : ∀ b ∈ blocks, ∀ v ∈ vmas b, s + BLOCK_SIZE ≤ v
  inside : ∀ b ∈ blocks, ∀ v ∈ vmas b, v + sz.vmArea ≤ s + SUPERBLOCK_SIZE
  vma_2block : ∀ b ∈ blocks, ∀ v ∈ vmas b, sVma2block v = b

theorem blocksOf_apart {b c : ℕ} (hb : b ∈ blocksOf s) (hc : c ∈ blocksOf s) (hbc : b ≠ c) :
    b + BLOCK_SIZE ≤ c ∨ c + BLOCK_SIZE ≤ b := by
  obtain ⟨i, -, rfl⟩ := mem_blocksOf.mp hb
  obtain ⟨j, -, rfl⟩ := mem_blocksOf.mp hc
  simp only [block_size] at *
  omega

theorem slotsOf_apart {b v w : ℕ} (hv : v ∈ slotsOf sz b) (hw : w ∈ slotsOf sz b) (hvw : v ≠ w) :
    NoOverlap v sz.vmArea w sz.vmArea := by
  obtain ⟨j, -, rfl⟩ := mem_slotsOf.mp hv
  obtain ⟨k, -, rfl⟩ := mem_slotsOf.mp hw
  unfold NoOverlap
  rcases Nat.lt_trichotomy j k with h | h | h
  · have := Nat.mul_le_mul_left sz.vmArea (Nat.succ_le_of_lt h)
    rw [Nat.mul_succ] at this
    omega
  · exact absurd (by rw [h]) hvw
  · have := Nat.mul_le_mul_left sz.vmArea (Nat.succ_le_of_lt h)
    rw [Nat.mul_succ] at this
    omega

/-- The blocks are linked both ways, from the first to the last. -/
theorem seg_blocksOf {next prev : ℕ → Option ℕ}
    (hn : ∀ x ∈ blocksOf s, next x =
      if x + BLOCK_SIZE = s + BLOCK_SIZE + BLOCK_SIZE * SUPERBLOCK_CTR_FULL then none
        else some (x + BLOCK_SIZE))
    (hp : ∀ x ∈ blocksOf s, prev x = if x = s + BLOCK_SIZE then none else some (x - BLOCK_SIZE)) :
    Seg next prev none (blocksOf s) none := by
  have hseg : ∀ k i, i + k = SUPERBLOCK_CTR_FULL →
      Seg next prev (if i = 0 then none else some (s + BLOCK_SIZE + BLOCK_SIZE * (i - 1)))
        ((List.range' i k).map fun i => s + BLOCK_SIZE + BLOCK_SIZE * i) none := by
    intro k
    induction k with
    | zero => intro i hi; trivial
    | succ k ih =>
      intro i hi
      have hmem : s + BLOCK_SIZE + BLOCK_SIZE * i ∈ blocksOf s :=
        mem_blocksOf.mpr ⟨i, by omega, rfl⟩
      rw [List.range'_succ, List.map_cons]
      refine ⟨?_, ?_, ?_⟩
      · rw [hp _ hmem]
        by_cases h0 : i = 0
        · simp [h0]
        · rw [if_neg (by simp only [block_size]; omega), if_neg h0]
          simp only [block_size, Option.some.injEq]
          omega
      · rw [hn _ hmem]
        cases k with
        | zero =>
          rw [if_pos (by rw [← hi, Nat.mul_succ]; omega)]
          rfl
        | succ k =>
          rw [if_neg (by rw [← hi]; simp only [block_size]; omega), List.range'_succ]
          simp [Nat.mul_succ, Nat.add_assoc]
      · have := ih (i + 1) (by omega)
        simpa using this
  have := hseg SUPERBLOCK_CTR_FULL 0 (by omega)
  rwa [if_pos rfl, ← List.range_eq_range'] at this

/-- `S_superblock_list_setup` lays out a superblock that starts at a block boundary. -/
theorem sSuperblockListSetup_lists (hfull : 1 ≤ BLOCK_CTR_FULL sz) (hs : s % BLOCK_SIZE = 0)
    (m : Mem Tid) :
    ∃ blocks vmas, ListsOf sz s (sSuperblockListSetup sz s m) blocks vmas := by
  have hz := Sizes.fits_of_one_le hfull
  have hfit := slots_fit hz
  have hal : ∀ b ∈ blocksOf s, b % BLOCK_SIZE = 0 := fun b hb => by rw [(blocksOf_range hb).2.2, hs]
  rw [sSuperblockListSetup_eq hz m hs]
  refine ⟨blocksOf s, slotsOf sz, ?_, ?_, length_blocksOf s, nodup_blocksOf s, ?_,
    fun b _ => length_slotsOf sz b,
    fun b _ => nodup_slotsOf hz b, ?_, ?_, ?_, ?_, fun b hb => (blocksOf_range hb).1, ?_, ?_,
    fun b hb v hv => sVma2block_slot hz (hal b hb) hv⟩
  · simp only [Function.update_self]
    apply chain_blocksOf
    intro x hx
    simp only [if_pos (atBlock_iff.mpr hx), setupHeader]
  · apply seg_blocksOf
    · intro x hx
      simp only [if_pos (atBlock_iff.mpr hx), setupHeader]
    · intro x hx
      simp only [if_pos (atBlock_iff.mpr hx)]
  · intro b hb
    simp only [if_pos (atBlock_iff.mpr hb), setupHeader]
    apply slotNext_chain hz
    intro v hv
    rw [if_pos (atSlot_of_mem hz hs hb hv), sVma2block_slot hz (hal b hb) hv]
  · intro b hb
    simp only [if_pos (atBlock_iff.mpr hb), setupHeader, and_self]
  · intro b hb v hv c hc w hw hvw
    by_cases hbc : b = c
    · subst hbc
      exact slotsOf_apart hv hw hvw
    · have h1 := slotsOf_range hz hv
      have h2 := slotsOf_range hz hw
      unfold NoOverlap
      rcases blocksOf_apart hb hc hbc with h | h <;> omega
  · intro b hb v hv c hc
    have h1 := slotsOf_range hz hv
    unfold NoOverlap
    by_cases hbc : b = c
    · subst hbc
      exact .inr h1.1
    · rcases blocksOf_apart hb hc hbc with h | h <;> omega
  · intro b hb c hc hbc
    unfold NoOverlap
    rcases blocksOf_apart hb hc hbc with h | h <;> omega
  · intro b hb v hv
    have h1 := blocksOf_range hb
    have h2 := slotsOf_range hz hv
    omega
  · intro b hb v hv
    have h1 := blocksOf_range hb
    have h2 := slotsOf_range hz hv
    omega

/-- With a header of 64 bytes and structs of 72 bytes a block has 56 structs. -/
theorem sSuperblockListSetup_lists_lp64 :
    ∃ blocks vmas, ListsOf ⟨64, 72⟩ 4096 (sSuperblockListSetup ⟨64, 72⟩ 4096 zeroState.mem) blocks
      vmas :=
  sSuperblockListSetup_lists (by decide) (by decide) zeroState.mem

end OpenOOC.Vma
