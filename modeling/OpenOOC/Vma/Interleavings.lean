import OpenOOC.Vma.Lists
import OpenOOC.Vma.Races

/-! What runs without races guarantee about superblocks that are given back and
about the lists of the pools, and runs in which a race breaks it. -/

namespace OpenOOC.Vma

open LockMachine Links Alternation

variable {Tid : Type} [DecidableEq Tid] {Λ : Layout} {s s₀ : State Tid} {t : Tid}

/-! ### Computing races -/

def raceFree [Fintype Tid] (s : State Tid) (t : Tid) : Bool :=
  match s.pc t with
  | .stealGetSuperblock sb => decide (∀ t', (s.pc t').puts ≠ some sb)
  | .freeUnlink b p => decide (s.pc p ≠ .allocGetBlock b)
  | .allocTake b => decide (s.mem.mpoolHead t = some b) ||
      ((s.mem.block b).head.bind s.mem.vmNext).isSome
  | .allocPush _ => decide (s.mem.mpoolHead t = none)
  | .putSysFree sb => decide
      (∀ t', (match s.pc t' with | .returnLetBlock _ x => decide (x ≠ sb) | _ => true) = true)
  | _ => true

theorem raceFree_spec [Fintype Tid] (h : raceFree s t = true) : ¬ Race s t := by
  unfold raceFree at h
  rintro (⟨hp, h'⟩ | ⟨hp, h'⟩ | ⟨hp, hv, hl, h'⟩ | ⟨hp, h'⟩ | @⟨_, _, t', hp, h'⟩) <;> rw [hp] at h
  · exact of_decide_eq_true h _ h'
  · exact of_decide_eq_true h h'
  · simp [hv, hl, h'] at h
  · exact h' (of_decide_eq_true h)
  · have := of_decide_eq_true h t'
    simp [h'] at this

/-! ### Superblocks that are given back -/

/-- The thread takes a struct from a block that is stolen, its own, and on the
list of its pool. -/
structure TakesFrom (m : Mem Tid) (t : Tid) (b : ℕ) : Prop where
  stolen : Stolen m b
  owned : (m.block b).mpool = some t
  listed : ∃ l, PoolList m t l ∧ b ∈ l

/-- No update of a pool's list is lost: when no call is in progress each block with
live and free structs is on the list of its pool, and a struct is taken only from a
block on the list, also from one that is put there just before. -/
structure PoolsKept (Λ : Layout) (s : State Tid) : Prop where
  quiet : (∀ t, s.pc t = .idle) → ∀ p b, IsBlock s.mem b → (s.mem.block b).mpool = some p →
    (∃ v ∈ slotsOf Λ.toSizes b, v ∈ s.mem.live) → (∃ v ∈ slotsOf Λ.toSizes b, v ∉ s.mem.live) →
    ∃ l, PoolList s.mem p l ∧ l.count b = 1
  take : ∀ t b, s.pc t = .allocTake b → TakesFrom s.mem t b
  push : ∀ t b, s.pc t = .allocPush b → ¬ Race s t → PoolList s.mem t [] ∧
    ∀ m, (s.mem.setMpoolHead t (some b)).setBlock b
      (fun B => { B with prev := none, next := none, mpool := some t }) = some m → TakesFrom m t b

omit [DecidableEq Tid] in
theorem Inv.quiet (hi : Inv Λ s) (hidle : ∀ t, s.pc t = .idle) {p : Tid} {b : ℕ}
    (hb : IsBlock s.mem b)
    (hp : (s.mem.block b).mpool = some p) (hlive : ∃ v ∈ slotsOf Λ.toSizes b, v ∈ s.mem.live)
    (hfree : ∃ v ∈ slotsOf Λ.toSizes b, v ∉ s.mem.live) : ∃ l, PoolList s.mem p l ∧
    l.count b = 1 := by
  obtain ⟨ho, g, hr, ht⟩ := hi
  obtain ⟨sb, hs, hbs⟩ := id hb
  have hB := hr.block sb hs b hbs
  obtain ⟨v, hv, hvl⟩ := hlive
  have hlt : (g.vl b).length < BLOCK_CTR_FULL Λ.toSizes := by
    refine hr.vl_lt hb hv fun hm => (ht.live v hvl).2.2 ?_
    rwa [hr.held.slot_block hb hv]
  have hpos : 0 < (g.vl b).length := by
    obtain ⟨w, hw, hwl⟩ := hfree
    refine List.length_pos_of_mem (a := w) ?_
    by_contra hn
    rcases ht.out b hb w hw hn with h | ⟨t, h⟩
    · exact hwl h
    · rw [hidle t] at h
      cases h
  have hset : ¬ (g.place b).Transient := fun htr => by
    obtain ⟨t, h⟩ := ht.moved b hb htr
    rw [hidle t] at h
    cases h
  refine ⟨g.pl p, hr.poolList p, List.count_eq_one_of_mem (hr.pool p).nodup
    (((hr.pool p).mem_iff b).mpr ⟨hb, ?_⟩)⟩
  have hlen := hB.len
  have hown := hB.owner
  cases hq : g.place b <;> rw [hq] at hlen hown hset <;>
    simp only [Place.Len, Place.Transient, not_true_eq_false] at hlen hset
  · omega
  · rw [Place.onList_pooled, ← hp, (hown _ rfl).1]
  · omega

omit [DecidableEq Tid] in
theorem Inv.takesFrom (hi : Inv Λ s) {b : ℕ} (hp : s.pc t = .allocTake b) :
    TakesFrom s.mem t b := by
  obtain ⟨ho, g, hr, ht⟩ := hi
  have hl := ht.loc t
  rw [hp] at hl
  obtain ⟨hb, hq⟩ := hl.block b rfl
  change g.place b = .pooled t at hq
  obtain ⟨sb, hs, hbs⟩ := id hb
  refine ⟨hr.stolen hb (by simp [hq]), ((hr.block sb hs b hbs).owner t (by rw [hq]; rfl)).1, g.pl t,
    hr.poolList t, ?_⟩
  exact ((hr.pool t).mem_iff b).mpr ⟨hb, by rw [hq]; rfl⟩

theorem Inv.pushes (hi : Inv Λ s) {b : ℕ} (hp : s.pc t = .allocPush b) (hn : ¬ Race s t) :
    PoolList s.mem t [] ∧ ∀ m, (s.mem.setMpoolHead t (some b)).setBlock b
      (fun B => { B with prev := none, next := none, mpool := some t }) = some m →
        TakesFrom m t b := by
  obtain ⟨ho, g, hr, ht⟩ := hi
  have hl := ht.loc t
  rw [hp] at hl
  obtain ⟨hb, hq⟩ := hl.block b rfl
  change g.place b = .stolen at hq
  have hnone : s.mem.mpoolHead t = none := by
    by_contra h
    exact hn (.push hp h)
  refine ⟨⟨hnone, trivial⟩, fun m hm => ?_⟩
  rw [setBlock_eq (m := s.mem.setMpoolHead t (some b)) (mapped_block hb)] at hm
  cases hm
  have hne : g.place b ≠ .free := by simp [hq]
  obtain ⟨sb, hs, hbs⟩ := id hb
  refine ⟨⟨sb, hs, hbs, g.fl sb, ?_, hr.not_mem_fl hs hne⟩, ?_, [b], ⟨?_, ?_⟩, by simp⟩
  · refine Chain.congr (hr.freeBlocks hs (hr.stage_ne hs hbs hne)) fun c hc => ?_
    have hcb : c ≠ b := by
      rintro rfl
      exact hr.not_mem_fl hs hne hc
    simp [hcb]
  · simp
  · simp
  · simp

/-- In every run without a race no update of a pool's list is lost, and no struct is
taken through a stale head. -/
theorem runs_keep_pools (h₀ : Initial s₀) (hr : Runs (slab Tid Λ) (fun s t => ¬ Race s t) s₀ s) :
    PoolsKept Λ s := by
  have hi : Inv Λ s := .runs h₀ hr
  exact ⟨fun hidle p b hb hp hl hf => hi.quiet hidle hb hp hl hf, fun t b hp => hi.takesFrom hp,
    fun t b hp hn => hi.pushes hp hn⟩

/-- Thread `0` allocates two structs, and thread `1` frees one of them. -/
theorem runs_keep_pools_two : ∃ s : State (Fin 2),
    Runs (slab (Fin 2) lp64) (fun s t => ¬ Race s t) zeroState s ∧
    s.mem.live = [8328] ∧ PoolsKept lp64 s := by
  obtain ⟨s, hr, hs⟩ := exec_any (Λ := lp64) zeroState raceFree
    (firstAlloc 0 ++ (0, .callAlloc) :: steps 0 7 ++ (1, .callFree 8256) :: steps 1 3)
    (fun s => decide (s.mem.live = [8328])) (by decide +kernel)
  have hr' : Runs (slab (Fin 2) lp64) (fun s t => ¬ Race s t) zeroState s :=
    hr.mono fun _ _ => raceFree_spec
  exact ⟨s, hr', of_decide_eq_true hs, runs_keep_pools zeroState_initial hr'⟩

/-- Thread `0` has read the head of its pool, thread `1` frees the only struct of
that block and returns it, and thread `0` goes on to take a struct from it. -/
theorem alloc_takes_from_returned_block : ∃ s₀ s : State (Fin 2), Initial s₀ ∧
    Runs (slab (Fin 2) lp64) (fun _ _ => True) s₀ s ∧ ¬ PoolsKept lp64 s := by
  obtain ⟨s, hr, hs⟩ := exec_any (Λ := lp64) zeroState (fun _ _ => true)
    (firstAlloc 0 ++ (0, .callAlloc) :: steps 0 1 ++ (1, .callFree 8256) :: steps 1 10 ++ steps 0 2)
    (fun s => decide (s.pc 0 = .allocTake 8192 ∧ s.mem.mpoolHead 0 = none)) (by decide +kernel)
  obtain ⟨hp, hh⟩ := of_decide_eq_true hs
  refine ⟨zeroState, s, zeroState_initial, hr.mono fun _ _ _ => trivial, fun h => ?_⟩
  obtain ⟨l, hl, hb⟩ := (h.take 0 8192 hp).listed
  rw [PoolList, hh] at hl
  rw [List.head?_eq_none_iff.mp hl.1.symm] at hb
  cases hb

end OpenOOC.Vma
