import OpenOOC.Vma.Interleavings

/-! Runs in which the calls are executed one at a time, by any number of threads.
There is no race in them. -/

namespace OpenOOC.Vma

open LockMachine Links Alternation

variable {Tid : Type} [DecidableEq Tid] {Λ : Layout} {s s' s₀ : State Tid} {t : Tid}

/-! ### The head of the pool, once it has been read -/

/-- What the head of its pool is for a thread that has read it. -/
def Pc.readHead : Pc Tid → Option (Option ℕ)
  | allocGetBlock b => some (some b)
  | allocGetMpool b => some (some b)
  | allocTake b => some (some b)
  | stealGetGpool => some none
  | stealFind => some none
  | stealGetSuperblock _ => some none
  | stealRead _ => some none
  | stealGetBlock _ _ => some none
  | stealTake _ _ => some none
  | stealLetSuperblock _ _ => some none
  | stealLetGpool _ => some none
  | allocGetMpoolNew _ => some none
  | allocPush _ => some none
  | _ => none

section

variable {m m' : Mem Tid} {b : ℕ} {p : Option ℕ}

omit [DecidableEq Tid]

theorem setBlockIf_mpoolHead {f : Block Tid → Block Tid} (h : m.setBlockIf p f = some m') :
    m'.mpoolHead = m.mpoolHead := by
  cases p with
  | none =>
    cases h
    rfl
  | some b =>
    simp only [Mem.setBlockIf, Mem.setBlock] at h
    split_ifs at h
    cases h
    rfl

theorem setSuperblock_mpoolHead {x : ℕ} {f : Superblock → Superblock}
    (h : m.setSuperblock x f = some m') :
    m'.mpoolHead = m.mpoolHead := by
  unfold Mem.setSuperblock at h
  split_ifs at h
  cases h
  rfl

theorem setSuperblockIf_mpoolHead {f : Superblock → Superblock}
    (h : m.setSuperblockIf p f = some m') :
    m'.mpoolHead = m.mpoolHead := by
  cases p with
  | none =>
    cases h
    rfl
  | some x => exact setSuperblock_mpoolHead h

theorem stealTake_mpoolHead {x : ℕ} {p' : Pc Tid} (h : stealTake m x b = some (m', p')) :
    m'.mpoolHead = m.mpoolHead := by
  simp only [stealTake, Option.bind_eq_bind, Option.bind_eq_some_iff, Option.pure_def] at h
  obtain ⟨B, -, m₁, h₁, m₂, h₂, m₃, h₃, S, -, h⟩ := h
  have hu := (setSuperblock_mpoolHead h₃).trans
    ((setBlockIf_mpoolHead h₂).trans (setSuperblock_mpoolHead h₁))
  split_ifs at h
  · simp only [Option.bind_eq_some_iff] at h
    obtain ⟨m₄, h₄, _, -, h⟩ := h
    have hu₄ := setSuperblockIf_mpoolHead h₄
    cases h
    exact hu₄.trans hu
  · cases h
    exact hu

theorem newSuperblock_mpoolHead (sz : Sizes) (x : ℕ) (m : Mem Tid) :
    (newSuperblock sz x m).mpoolHead = m.mpoolHead := by
  unfold newSuperblock sSuperblockListSetup
  rw [setupBlocks_rest]

end

theorem readHead_code {m m' : Mem Tid} {p p' : Pc Tid} {i : Input}
    (hp : ∀ r, p.readHead = some r → m.mpoolHead t = r) (h : code Λ t p m i = some (m', p'))
    {r : Option ℕ}
    (hr : p'.readHead = some r) : m'.mpoolHead t = r := by
  cases code_next h <;> simp only [Pc.readHead, reduceCtorEq, Option.some.injEq] at hr hp
  case readNone =>
    subst hr
    simp only [code, allocRead, Option.some.injEq] at h
    split at h
    · rename_i hn
      cases h
      exact hn
    · cases h
  case readSome b =>
    subst hr
    simp only [code, allocRead, Option.some.injEq] at h
    split at h
    · cases h
    · rename_i b hn
      cases h
      exact hn
  case find x =>
    subst hr
    cases i <;> simp only [code, stealFind, reduceCtorEq, Option.some.injEq] at h
    split at h
    · cases h
      exact hp _ rfl
    · split at h <;> cases h
      rw [newSuperblock_mpoolHead]
      exact hp _ rfl
  case stealRead x b =>
    subst hr
    obtain ⟨q, -, h⟩ := Option.map_eq_some_iff.mp h
    cases h
    exact hp _ rfl
  case stealTake x b =>
    subst hr
    rw [stealTake_mpoolHead h]
    exact hp _ rfl

/-! ### Serial runs do not race -/

/-- The threads' pools are as the threads have read them. -/
def HeadsRead (s : State Tid) : Prop := ∀ t r, (s.pc t).readHead = some r → s.mem.mpoolHead t = r

omit [DecidableEq Tid] in
theorem HeadsRead.no_race (hh : HeadsRead s) (ha : Alone .idle s t) : ¬ Race s t := by
  have hother : ∀ t' (f : Pc Tid → Option ℕ) x, f .idle = none → f (s.pc t) = none →
      f (s.pc t') ≠ some x := by
    intro t' f x hidle hf h
    by_cases htt : t' = t
    · subst htt
      rw [hf] at h
      cases h
    · rw [ha t' htt, hidle] at h
      cases h
  rintro (⟨hp, h'⟩ | @⟨b, q, hp, h'⟩ | ⟨hp, hv, hl, h'⟩ | ⟨hp, h'⟩ | @⟨x, b, t', hp, h'⟩)
  · exact hother _ Pc.puts _ rfl (by rw [hp]; rfl) h'
  · by_cases hqt : q = t
    · subst hqt
      rw [hp] at h'
      cases h'
    · rw [ha q hqt] at h'
      cases h'
  · exact h' (hh t _ (by rw [hp]; rfl))
  · exact h' (hh t _ (by rw [hp]; rfl))
  · by_cases htt : t' = t
    · subst htt
      rw [hp] at h'
      cases h'
    · rw [ha t' htt] at h'
      cases h'

theorem HeadsRead.step (hh : HeadsRead s) (ha : Alone .idle s t) (hs : Step (slab Tid Λ) s t s') :
    HeadsRead s' := by
  intro t' r hr
  by_cases htt : t' = t
  · subst htt
    cases hs with
    | @get ℓ p hi _ =>
      dsimp only at hr ⊢
      rw [Function.update_self] at hr
      have h := hh t'
      generalize s.pc t' = q at hi h
      cases q <;> cases hi <;> exact h _ hr
    | @drop ℓ p hi =>
      dsimp only at hr ⊢
      rw [Function.update_self] at hr
      have h := hh t'
      generalize s.pc t' = q at hi h
      cases q <;> cases hi <;> exact h _ hr
    | @code e m p hi _ hc =>
      dsimp only at hr ⊢
      rw [Function.update_self] at hr
      exact readHead_code (hh t') hc hr
  · have hpc : s'.pc t' = s.pc t' := by cases hs <;> exact Function.update_of_ne htt _ _
    rw [hpc, ha t' htt] at hr
    cases hr

structure SerialInv (Λ : Layout) (s : State Tid) : Prop where
  inv : Inv Λ s
  log : LogOk s.mem
  heads : HeadsRead s

theorem SerialInv.runs (h₀ : Initial s₀)
    (hr : Runs (slab Tid Λ) (fun s t => Alone .idle s t) s₀ s) : SerialInv Λ s := by
  refine hr.invariant ⟨h₀.inv, h₀.logOk, fun t r h => ?_⟩ fun s t s' hi ha hs => ?_
  · rw [h₀.pc] at h
    cases h
  · exact ⟨hi.inv.step (hi.heads.no_race ha) hs, hi.log.step hi.inv hs, hi.heads.step ha hs⟩

/-! ### Calls return -/

def Pc.rank : Pc Tid → ℕ
  | idle => 0
  | allocReturn _ => 1
  | allocLetBlock _ _ => 2
  | allocLetMpool _ _ => 3
  | allocTake _ => 4
  | allocPush _ => 4
  | allocGetMpool _ => 5
  | allocGetMpoolNew _ => 5
  | allocGetBlock _ => 6
  | stealLetGpoolFail => 2
  | stealLetGpool _ => 6
  | stealLetSuperblock _ _ => 7
  | stealTake _ _ => 8
  | stealGetBlock _ _ => 9
  | stealRead _ => 10
  | stealGetSuperblock _ => 11
  | stealFind => 12
  | stealGetGpool => 13
  | allocRead => 14
  | freeLetBlock _ => 1
  | freeCheck _ => 2
  | freeLetMpoolFull _ _ => 3
  | freePrepend _ _ => 4
  | freeGetMpoolFull _ _ => 5
  | returnLetBlock _ _ => 1
  | returnLetSuperblock _ _ => 2
  | returnCheck _ _ => 3
  | returnLetGpool _ _ => 4
  | returnPrepend _ _ => 5
  | returnGetGpool _ _ => 6
  | putSysFree _ => 1
  | putLetGpoolStats _ => 2
  | putGetGpoolStats _ => 3
  | putDestroy _ => 4
  | putLetSuperblock _ => 5
  | putLetGpool _ => 6
  | putUnlink _ => 7
  | putGetGpool _ => 8
  | returnLetBlockEmpty _ _ => 9
  | returnLetSuperblockEmpty _ _ => 10
  | returnPush _ _ => 11
  | returnGetSuperblock _ _ => 12
  | returnRead _ => 13
  | freeLetMpoolEmpty _ _ => 14
  | freeUnlink _ _ => 15
  | freeGetMpoolEmpty _ _ => 16
  | freePush _ _ => 17
  | freeGetBlock _ _ => 18

theorem rank_step (hp : s.pc t ≠ .idle) (hs : Step (slab Tid Λ) s t s') :
    (s'.pc t).rank < (s.pc t).rank := by
  cases hs with
  | @get ℓ p hi _ =>
    dsimp only
    rw [Function.update_self]
    generalize s.pc t = q at hi
    cases q <;> cases hi <;> simp [Pc.rank]
  | @drop ℓ p hi =>
    dsimp only
    rw [Function.update_self]
    generalize s.pc t = q at hi
    cases q <;> cases hi <;> simp [Pc.rank]
  | @code e m p hi _ hc =>
    dsimp only
    rw [Function.update_self]
    have hn := code_next hc
    generalize s.pc t = q at hn hp
    cases hn <;> first | exact absurd rfl hp | simp [Pc.rank]

omit [DecidableEq Tid] in
theorem get_not_held {p p' : Pc Tid} {ℓ : LockId Tid} (hi : instr t p = .get ℓ p') :
    ¬ Holds t p ℓ := by
  cases p <;> cases hi <;> simp [Holds, heldBy]

/-- A call that is alone is never stuck. -/
theorem SerialInv.can_step (h : SerialInv Λ s) (ha : Alone .idle s t) (hp : s.pc t ≠ .idle) :
    ∃ s', Step (slab Tid Λ) s t s' := by
  have hn := h.heads.no_race ha
  cases hi : instr t (s.pc t) with
  | get ℓ p =>
    refine ⟨_, .get hi ?_⟩
    cases hl : s.lock ℓ with
    | none => rfl
    | some t' =>
      have hh := (h.inv.1 ℓ t').mp hl
      by_cases htt : t' = t
      · subst htt
        exact absurd hh (get_not_held hi)
      · rw [ha t' htt] at hh
        simp [Holds, heldBy] at hh
  | drop ℓ p => exact ⟨_, .drop hi⟩
  | code =>
    obtain ⟨i, hin⟩ : ∃ i, InputOk (s.pc t) s.mem i := by
      cases hq : s.pc t with
      | idle => exact absurd hq hp
      | stealFind => exact ⟨.sysAlloc none, nofun⟩
      | _ => exact ⟨.nothing, rfl⟩
    cases hc : code Λ t (s.pc t) s.mem i with
    | none =>
      refine absurd ?_ (h.inv.no_fault hn)
      unfold Faults
      rw [show (slab Tid Λ).instr t (s.pc t) = .code from hi]
      exact ⟨i, hin, hc⟩
    | some r => exact ⟨_, .code hi hin hc⟩

/-! ### Between the calls -/

/-- The lists and counters of the slab between two calls. -/
structure PoolInv (Λ : Layout) (m : Mem Tid) : Prop where
  gpool : ∃ l, GpoolList m l ∧ l.Nodup ∧ ∀ x, x ∈ l ↔ x ∈ m.held ∧ ∃ b ∈ blocksOf x, ¬ Stolen m b
  super : ∀ x ∈ m.held, ∃ l, FreeBlocks m x l ∧ l.Nodup ∧
    (∀ b, b ∈ l ↔ b ∈ blocksOf x ∧ ¬ Stolen m b) ∧
    (m.superblock x).bctr = ((blocksOf x).filter (· ∉ l)).length ∧
    l.length = SUPERBLOCK_CTR_FULL - (m.superblock x).bctr
  block : ∀ b, Stolen m b → ∃ l, FreeVmas m b l ∧ l.Nodup ∧
    (∀ v, v ∈ l ↔ v ∈ slotsOf Λ.toSizes b ∧ v ∉ m.live) ∧
    (m.block b).vctr = ((slotsOf Λ.toSizes b).filter (· ∈ m.live)).length ∧
    0 < (m.block b).vctr ∧ (m.block b).vctr ≤ BLOCK_CTR_FULL Λ.toSizes
  pool : ∀ p, ∃ l, PoolList m p l ∧ l.Nodup ∧ ∀ b, b ∈ l ↔
    Stolen m b ∧ (m.block b).mpool = some p ∧ (m.block b).vctr < BLOCK_CTR_FULL Λ.toSizes
  owner : ∀ b, Stolen m b → ∃ p, (m.block b).mpool = some p
  live : m.live.Nodup ∧ ∀ v ∈ m.live, ∃ b, Stolen m b ∧ v ∈ slotsOf Λ.toSizes b

/-- No thread is moving anything. -/
structure Quiet (Λ : Layout) (m : Mem Tid) (g : Ghost Tid) : Prop where
  rep : Rep Λ m g
  place : ∀ b, IsBlock m b → ¬ (g.place b).Transient
  stage : ∀ x ∈ m.held, ¬ (g.stage x).Transient
  vl : ∀ b, IsBlock m b → ∀ v, v ∈ g.vl b ↔ v ∈ slotsOf Λ.toSizes b ∧ v ∉ m.live
  nodup : m.live.Nodup
  live : ∀ v ∈ m.live, IsBlock m (sVma2block v) ∧ v ∈ slotsOf Λ.toSizes (sVma2block v)

omit [DecidableEq Tid] in
theorem Inv.quiet_rep (hi : Inv Λ s) (hidle : ∀ t, s.pc t = .idle) : ∃ g, Quiet Λ s.mem g := by
  obtain ⟨ho, g, hr, ht⟩ := hi
  have hno : ∀ (f : Pc Tid → Option ℕ) x, f .idle = none → ¬ ∃ t, f (s.pc t) = some x := by
    rintro f x hf ⟨t, h⟩
    rw [hidle t, hf] at h
    cases h
  refine ⟨g, hr, fun b hb h => hno _ _ rfl (ht.moved b hb h), fun x hx h => ?_,
    fun b hb v => ⟨fun hv => ?_, ?_⟩, ht.nodup,
    fun v hv => ⟨(ht.live v hv).1, (ht.live v hv).2.1⟩⟩
  · cases hσ : g.stage x <;> rw [hσ] at h <;> try exact h.elim
    · exact hno _ _ rfl (ht.fresh x hx hσ)
    · exact hno _ _ rfl (ht.relist x hx hσ)
    · exact hno _ _ rfl (ht.putting x hx (Or.inl hσ))
    · exact hno _ _ rfl (ht.putting x hx (Or.inr hσ))
  · obtain ⟨x, hx, hbx⟩ := id hb
    refine ⟨(hr.block x hx b hbx).sub v hv, fun hl => (ht.live v hl).2.2 ?_⟩
    rwa [hr.sVma2block_mem hb hv]
  · rintro ⟨hv, hl⟩
    by_contra hn
    exact (ht.out b hb v hv hn).elim hl (hno _ _ rfl)

namespace Quiet

variable {m : Mem Tid} {g : Ghost Tid} {b x v : ℕ}

omit [DecidableEq Tid]

theorem attached (h : Quiet Λ m g) (hx : x ∈ m.held) : g.stage x ≠ .detached := fun he =>
  h.stage x hx (by rw [he]; trivial)

theorem stolen_iff (h : Quiet Λ m g) : Stolen m b ↔ IsBlock m b ∧ g.place b ≠ .free := by
  constructor
  · intro hb
    refine ⟨?_, h.rep.ne_free_of_stolen (fun x hx => h.attached hx) hb⟩
    obtain ⟨x, hx, hbx, -⟩ := hb
    exact ⟨x, hx, hbx⟩
  · rintro ⟨hb, hq⟩
    exact h.rep.stolen hb hq

theorem not_stolen_iff (h : Quiet Λ m g) (hx : x ∈ m.held) (hb : b ∈ blocksOf x) :
    ¬ Stolen m b ↔ g.place b = .free := by
  rw [h.stolen_iff, not_and_or, not_not]
  exact ⟨fun h => h.resolve_left (not_not.mpr ⟨x, hx, hb⟩), Or.inr⟩

theorem mem_fl (h : Quiet Λ m g) (hx : x ∈ m.held) : b ∈ g.fl x ↔
    b ∈ blocksOf x ∧ ¬ Stolen m b := by
  rw [(h.rep.super x hx).mem_iff]
  exact and_congr_right fun hb => (h.not_stolen_iff hx hb).symm

/-- A superblock is on the global list if one of its blocks is not stolen. -/
theorem linked_iff (h : Quiet Λ m g) (hx : x ∈ m.held) :
    (g.stage x).Linked ↔ ∃ b ∈ blocksOf x, ¬ Stolen m b := by
  have hS := h.rep.super x hx
  have hlen : (g.stage x).Linked ↔ 0 < (g.fl x).length := by
    have hcount := hS.count
    have hst := hS.stage
    have htr := h.stage x hx
    cases hσ : g.stage x <;> rw [hσ] at hst htr <;>
      simp only [Stage.Transient, Stage.Bctr, Stage.Linked, not_true_eq_false, true_iff, false_iff]
        at *
    · omega
    · omega
  rw [hlen, List.length_pos_iff_exists_mem]
  exact exists_congr fun b => h.mem_fl hx

/-- A stolen block has a live struct, and is on the list of its pool if it has a free one. -/
theorem block_cases (h : Quiet Λ m g) (hb : Stolen m b) : ∃ p, (m.block b).mpool = some p ∧
    (g.vl b).length < BLOCK_CTR_FULL Λ.toSizes ∧
    ∀ p', (g.place b).onList = some p' ↔ p' = p ∧ 0 < (g.vl b).length := by
  obtain ⟨hB, hq⟩ := h.stolen_iff.mp hb
  obtain ⟨x, hx, hbx⟩ := id hB
  have hrep := h.rep.block x hx b hbx
  have hlen := hrep.len
  have hown := hrep.owner
  have htr := h.place b hB
  have h2 := Λ.two_le
  cases hp : g.place b <;> rw [hp] at hlen hown htr hq <;>
    simp only [Place.Len, Place.Transient, not_true_eq_false, ne_eq, reduceCtorEq,
      not_false_eq_true] at *
  case pooled p =>
    refine ⟨p, (hown p rfl).1, hlen.2, fun p' => ?_⟩
    simp [hlen.1, eq_comm]
  case full p =>
    refine ⟨p, (hown p rfl).1, by omega, fun p' => ?_⟩
    simp [hlen]

theorem poolInv (h : Quiet Λ m g) : PoolInv Λ m := by
  refine ⟨⟨g.gl, h.rep.gpoolList, h.rep.gpool.nodup, fun x => ?_⟩, fun x hx => ?_, fun b hb => ?_,
    fun p => ?_,
    fun b hb => ?_, h.nodup, fun v hv => ?_⟩
  · rw [h.rep.gpool.mem_iff]
    exact and_congr_right fun hx => h.linked_iff hx
  · have hS := h.rep.super x hx
    have hrest := length_rest hS.nodup (nodup_blocksOf x) fun b hb => ((hS.mem_iff b).mp hb).1
    have hcount := hS.count
    rw [length_blocksOf] at hrest
    exact ⟨g.fl x, h.rep.freeBlocks hx (h.attached hx), hS.nodup, fun b => h.mem_fl hx,
      by omega, by omega⟩
  · obtain ⟨hB, hq⟩ := h.stolen_iff.mp hb
    obtain ⟨x, hx, hbx⟩ := id hB
    have hrep := h.rep.block x hx b hbx
    obtain ⟨p, -, hlt, -⟩ := h.block_cases hb
    have hrest := length_rest hrep.nodup (nodup_slotsOf Λ.fits b) hrep.sub
    have hcount := hrep.count
    rw [length_slotsOf] at hrest
    have hlive : (slotsOf Λ.toSizes b).filter (· ∉ g.vl b) =
        (slotsOf Λ.toSizes b).filter (· ∈ m.live) := by
      refine List.filter_congr fun v hv => ?_
      simp [h.vl b hB v, hv]
    rw [hlive] at hrest
    exact ⟨g.vl b, h.rep.freeVmas hx hbx (h.attached hx), hrep.nodup, h.vl b hB,
      by omega, by omega, by omega⟩
  · refine ⟨g.pl p, h.rep.poolList p, (h.rep.pool p).nodup, fun b => ?_⟩
    rw [(h.rep.pool p).mem_iff]
    have hstolen : IsBlock m b ∧ (g.place b).onList = some p → Stolen m b := fun hb =>
      h.stolen_iff.mpr ⟨hb.1, Place.ne_free_of_onList hb.2⟩
    constructor
    · intro hb
      have hst := hstolen hb
      obtain ⟨p', hp', hlt, hiff⟩ := h.block_cases hst
      obtain ⟨rfl, hpos⟩ := (hiff p).mp hb.2
      obtain ⟨x, hx, hbx⟩ := hb.1
      have hcount := (h.rep.block x hx b hbx).count
      exact ⟨hst, hp', by omega⟩
    · rintro ⟨hst, hp, hlt⟩
      obtain ⟨p', hp', -, hiff⟩ := h.block_cases hst
      obtain rfl : p = p' := Option.some.inj (hp.symm.trans hp')
      have hB := (h.stolen_iff.mp hst).1
      obtain ⟨x, hx, hbx⟩ := id hB
      have hcount := (h.rep.block x hx b hbx).count
      exact ⟨hB, (hiff p).mpr ⟨rfl, by omega⟩⟩
  · obtain ⟨p, hp, -⟩ := h.block_cases hb
    exact ⟨p, hp⟩
  · obtain ⟨hB, hv'⟩ := h.live v hv
    refine ⟨_, h.stolen_iff.mpr ⟨hB, fun hq => ?_⟩, hv'⟩
    obtain ⟨x, hx, hbx⟩ := id hB
    have hlen := (h.rep.block x hx _ hbx).len
    rw [hq] at hlen
    exact ((h.vl _ hB v).mp (h.rep.mem_vl hB hv' hlen)).2 hv

theorem held_live (h : Quiet Λ m g) (hx : x ∈ m.held) :
    ∃ b ∈ blocksOf x, ∃ v ∈ slotsOf Λ.toSizes b, v ∈ m.live := by
  have hS := h.rep.super x hx
  have hlt : (g.fl x).length < (blocksOf x).length := by
    have hcount := hS.count
    have hst := hS.stage
    have htr := h.stage x hx
    rw [length_blocksOf]
    cases hσ : g.stage x <;> rw [hσ] at hst htr <;>
      simp only [Stage.Transient, Stage.Bctr, not_true_eq_false] at hst htr
    · omega
    · have : SUPERBLOCK_CTR_FULL = 63 := superblock_ctr_full
      omega
  obtain ⟨b, hb, hbn⟩ : ∃ b ∈ blocksOf x, b ∉ g.fl x := by
    by_contra hno
    have hperm := (nodup_blocksOf x).subperm fun b hb => by
      by_contra hn
      exact hno ⟨b, hb, hn⟩
    have := hperm.length_le
    omega
  have hst : Stolen m b := by
    by_contra hn
    exact hbn ((h.mem_fl hx).mpr ⟨hb, hn⟩)
  obtain ⟨p, -, hlt', -⟩ := h.block_cases hst
  obtain ⟨v, hv, hvn⟩ : ∃ v ∈ slotsOf Λ.toSizes b, v ∉ g.vl b := by
    by_contra hno
    have hperm := (nodup_slotsOf Λ.fits b).subperm fun v hv => by
      by_contra hn
      exact hno ⟨v, hv, hn⟩
    have := hperm.length_le
    rw [length_slotsOf] at this
    omega
  refine ⟨b, hb, v, hv, ?_⟩
  by_contra hl
  exact hvn ((h.vl b ⟨x, hx, hb⟩ v).mpr ⟨hv, hl⟩)

end Quiet

/-- What a serial run guarantees: between the calls the lists and counters are in
order, no assertion fails and no pointer that leads nowhere is followed, and each
call returns. -/
structure SerialOk (Λ : Layout) (s : State Tid) : Prop where
  quiet : (∀ t, s.pc t = .idle) → PoolInv Λ s.mem
  no_fault : ∀ t, Alone .idle s t → ¬ Faults (slab Tid Λ) s t
  can_step : ∀ t, Alone .idle s t → s.pc t ≠ .idle → ∃ s', Step (slab Tid Λ) s t s'
  returns : ∀ t s', s.pc t ≠ .idle → Step (slab Tid Λ) s t s' → (s'.pc t).rank < (s.pc t).rank

theorem serial_runs_keep_pool_inv (h₀ : Initial s₀)
    (hr : Runs (slab Tid Λ) (fun s t => Alone .idle s t) s₀ s) : SerialOk Λ s := by
  have h : SerialInv Λ s := .runs h₀ hr
  refine ⟨fun hidle => ?_, fun t ha => h.inv.no_fault (h.heads.no_race ha),
    fun t ha hp => h.can_step ha hp,
    fun t s' hp hs => rank_step hp hs⟩
  obtain ⟨g, hq⟩ := h.inv.quiet_rep hidle
  exact hq.poolInv

def turns : List (Fin 2 × Input) :=
  firstAlloc 0 ++ (1, .callAlloc) :: steps 1 2 ++ (1, .sysAlloc none) :: steps 1 11 ++
    (0, .callFree 12352) :: steps 0 10 ++ (1, .callFree 8256) :: steps 1 18

theorem exec_serial (l : List (Fin 2 × Input)) (P : State (Fin 2) → Bool)
    (h : ((computed (Fin 2) lp64).exec (fun s t => decide (∀ t', t' ≠ t → s.pc t' = .idle)) l
    zeroState).any P = true) :
    ∃ s, Runs (slab (Fin 2) lp64) (fun s t => Alone .idle s t) zeroState s ∧ P s = true := by
  obtain ⟨s, hr, hs⟩ := exec_any _ _ _ _ h
  exact ⟨s, hr.mono fun s t h => (of_decide_eq_true h : ∀ t', t' ≠ t → s.pc t' = .idle), hs⟩

theorem serial_runs_keep_pool_inv_turns :
    ∃ s : State (Fin 2), Runs (slab (Fin 2) lp64) (fun s t => Alone .idle s t) zeroState s ∧
      s.mem.log.length = 6 ∧ SerialOk lp64 s := by
  obtain ⟨s, hr, hs⟩ := exec_serial turns (fun s => decide (s.mem.log.length = 6))
    (by decide +kernel)
  exact ⟨s, hr, of_decide_eq_true hs, serial_runs_keep_pool_inv zeroState_initial hr⟩

/-! ### What is handed out -/

/-- The bytes of a struct that is handed out are nobody else's, it belongs to the
calling thread, a struct that is freed goes back to the block that it was carved
from, and between two allocations of an address there is one free of it. The header
of a superblock is in front of its blocks. -/
structure HandsOut (Λ : Layout) (s : State Tid) : Prop where
  apart : ∀ t v, s.pc t = .allocReturn (some v) → ∀ w ∈ s.mem.live, v + Λ.vmArea ≤ w ∨
    w + Λ.vmArea ≤ v
  blocks : ∀ t v, s.pc t = .allocReturn (some v) → ∀ x ∈ s.mem.held, ∀ b ∈ blocksOf x,
    v + Λ.vmArea ≤ b ∨ b + Λ.block ≤ v
  superblocks : ∀ t v, s.pc t = .allocReturn (some v) → ∀ x ∈ s.mem.held, v + Λ.vmArea ≤ x ∨
    x + BLOCK_SIZE ≤ v
  owner : ∀ t v, s.pc t = .allocReturn (some v) → IsBlock s.mem (sVma2block v) ∧
    v ∈ slotsOf Λ.toSizes (sVma2block v) ∧ (s.mem.block (sVma2block v)).mpool = some t
  filed : ∀ t b v, s.pc t = .freePush b v → IsBlock s.mem b ∧ v ∈ slotsOf Λ.toSizes b ∧
    ∃ l m' p', FreeVmas s.mem b l ∧ v ∉ l ∧ freePush s.mem b v = some (m', p') ∧
      FreeVmas m' b (v :: l)
  once : ∀ v t t' l₁ l₂ l₃, s.mem.log = l₁ ++ .alloc t (some v) :: l₂ ++ .alloc t' (some v) :: l₃ →
    (∀ e ∈ l₂, e.allocates v = false) → l₂.countP (Event.frees v) = 1

section

variable {m : Mem Tid} {b b' v w x : ℕ}

omit [DecidableEq Tid]

theorem HeldRep.block_apart (hh : HeldRep m) (hb : IsBlock m b) (hb' : IsBlock m b')
    (hne : b ≠ b') :
    b + BLOCK_SIZE ≤ b' ∨ b' + BLOCK_SIZE ≤ b := by
  have h := hh.block_aligned hb
  have h' := hh.block_aligned hb'
  simp only [block_size] at *
  omega

/-- The bytes of two structs do not overlap. -/
theorem HeldRep.slot_apart (hh : HeldRep m) (hb : IsBlock m b) (hb' : IsBlock m b')
    (hv : v ∈ slotsOf Λ.toSizes b) (hw : w ∈ slotsOf Λ.toSizes b') (hne : v ≠ w) :
    v + Λ.vmArea ≤ w ∨ w + Λ.vmArea ≤ v := by
  by_cases hbb : b = b'
  · subst hbb
    obtain ⟨j, -, rfl⟩ := mem_slotsOf.mp hv
    obtain ⟨k, -, rfl⟩ := mem_slotsOf.mp hw
    rcases Nat.lt_trichotomy j k with h | h | h
    · have := Nat.mul_le_mul_left Λ.vmArea (Nat.succ_le_of_lt h)
      rw [Nat.mul_succ] at this
      omega
    · exact absurd (by rw [h]) hne
    · have := Nat.mul_le_mul_left Λ.vmArea (Nat.succ_le_of_lt h)
      rw [Nat.mul_succ] at this
      omega
  · have h1 := slotsOf_range Λ.fits hv
    have h2 := slotsOf_range Λ.fits hw
    rcases hh.block_apart hb hb' hbb with h | h <;> omega

theorem HeldRep.slot_header (hh : HeldRep m) (hb : IsBlock m b) (hb' : IsBlock m b')
    (hv : v ∈ slotsOf Λ.toSizes b) : v + Λ.vmArea ≤ b' ∨ b' + Λ.block ≤ v := by
  have h1 := slotsOf_range Λ.fits hv
  have hfit := slots_fit Λ.fits
  by_cases hbb : b = b'
  · subst hbb
    exact Or.inr h1.1
  · rcases hh.block_apart hb hb' hbb with h | h <;> omega

theorem HeldRep.slot_superblock (hh : HeldRep m) (hb : IsBlock m b) (hx : x ∈ m.held)
    (hv : v ∈ slotsOf Λ.toSizes b) : v + Λ.vmArea ≤ x ∨ x + BLOCK_SIZE ≤ v := by
  have h1 := slotsOf_range Λ.fits hv
  obtain ⟨y, hy, hby⟩ := hb
  have h2 := blocksOf_range hby
  by_cases hxy : x = y
  · subst hxy
    omega
  · rcases hh.apart x hx y hy hxy with h | h <;> simp only [block_size, superblock_size] at * <;>
      omega

end

omit [DecidableEq Tid] in
theorem Inv.filed (hi : Inv Λ s) {b v : ℕ} (hp : s.pc t = .freePush b v) :
    IsBlock s.mem b ∧ v ∈ slotsOf Λ.toSizes b ∧
      ∃ l m' p', FreeVmas s.mem b l ∧ v ∉ l ∧ freePush s.mem b v = some (m', p') ∧
        FreeVmas m' b (v :: l) := by
  obtain ⟨ho, g, hr, ht⟩ := hi
  have hl := ht.loc t
  rw [hp] at hl
  obtain ⟨hb, q, hq⟩ := hl.block b rfl
  obtain ⟨he, hv, hvn, -⟩ := hl.flight v rfl
  cases he
  obtain ⟨m', g', he, hst, hvl', -, hr'⟩ := hr.freePush hb hq hv hvn
  obtain ⟨_, _, _, hm⟩ := id hst.mem
  have hfree : g.place (sVma2block v) ≠ .free := by rcases hq with h | h <;> simp [h]
  obtain ⟨x, hx, hbx⟩ := id hb
  have hσ := hr.stage_ne hx hbx hfree
  refine ⟨hb, hv, g.vl _, m', _, hr.freeVmas hx hbx hσ, hvn, he, ?_⟩
  rw [← hvl']
  exact hr'.freeVmas (by rw [hm]; exact hx) hbx (by rw [hst.stage]; exact hσ)

theorem Inv.handsOut (hi : Inv Λ s) (hl : LogOk s.mem) : HandsOut Λ s := by
  obtain ⟨ho, g, hr, ht⟩ := id hi
  have hret : ∀ t v, s.pc t = .allocReturn (some v) → IsBlock s.mem (sVma2block v) ∧
      v ∈ slotsOf Λ.toSizes (sVma2block v) ∧ (g.place (sVma2block v)).owner = some t ∧
      v ∉ s.mem.live := by
    intro t v hp
    have h := ht.loc t
    rw [hp] at h
    obtain ⟨hb, hq⟩ := h.block (sVma2block v) rfl
    obtain ⟨-, hv, -, hn⟩ := h.flight v rfl
    exact ⟨hb, hv, hq, hn⟩
  refine ⟨fun t v hp w hw => ?_, fun t v hp x hx b hb => ?_, fun t v hp x hx => ?_,
    fun t v hp => ?_,
    fun t b v hp => hi.filed hp, fun v t t' l₁ l₂ l₃ h hno => ?_⟩
  · obtain ⟨hb, hv, -, hn⟩ := hret t v hp
    obtain ⟨hb', hw', -⟩ := ht.live w hw
    refine hr.held.slot_apart hb hb' hv hw' ?_
    rintro rfl
    exact hn hw
  · obtain ⟨hb', hv, -⟩ := hret t v hp
    exact hr.held.slot_header hb' ⟨x, hx, hb⟩ hv
  · obtain ⟨hb', hv, -⟩ := hret t v hp
    exact hr.held.slot_superblock hb' hx hv
  · obtain ⟨hb, hv, hq, -⟩ := hret t v hp
    obtain ⟨x, hx, hbx⟩ := id hb
    exact ⟨hb, hv, ((hr.block x hx _ hbx).owner t hq).1⟩
  · have ha := hl.vma v
    rw [h] at ha
    exact ha.between_opens (Event.frees_of_allocates v) (by simp [Event.allocates])
      (by simp [Event.allocates]) hno

theorem serial_runs_hand_out (h₀ : Initial s₀)
    (hr : Runs (slab Tid Λ) (fun s t => Alone .idle s t) s₀ s) : HandsOut Λ s := by
  have h : SerialInv Λ s := .runs h₀ hr
  exact h.inv.handsOut h.log

/-- Both threads allocate, and the second one is about to return its struct. -/
theorem serial_runs_hand_out_turns :
    ∃ s : State (Fin 2), Runs (slab (Fin 2) lp64) (fun s t => Alone .idle s t) zeroState s ∧
      s.pc 1 = .allocReturn (some 12352) ∧ s.mem.live = [8256] ∧ HandsOut lp64 s := by
  obtain ⟨s, hr, hs⟩ := exec_serial
    (firstAlloc 0 ++ (1, .callAlloc) :: steps 1 2 ++ (1, .sysAlloc none) :: steps 1 10)
    (fun s => decide (s.pc 1 = .allocReturn (some 12352) ∧ s.mem.live = [8256])) (by decide +kernel)
  obtain ⟨hp, hl⟩ := of_decide_eq_true hs
  exact ⟨s, hr, hp, hl, serial_runs_hand_out zeroState_initial hr⟩

/-! ### What is held from the system -/

/-- The superblocks that are held are those with a live struct. Once all structs
have been freed each superblock has been given back, once for each time the system
gave it, and the global list is empty. -/
structure HoldsUsed (Λ : Layout) (m : Mem Tid) : Prop where
  used : ∀ x ∈ m.held, ∃ b ∈ blocksOf x, ∃ v ∈ slotsOf Λ.toSizes b, v ∈ m.live
  holds : ∀ v ∈ m.live, ∃ x ∈ m.held, ∃ b ∈ blocksOf x, v ∈ slotsOf Λ.toSizes b
  empty : m.live = [] → m.held = [] ∧ m.gpoolHead = none ∧ ∀ x l₁ l₂,
    m.log = l₁ ++ .sysAlloc x :: l₂ →
    (l₂.takeWhile fun e => !e.sysAllocates x).countP (Event.sysFrees x) = 1

theorem Quiet.holdsUsed {m : Mem Tid} {g : Ghost Tid} (h : Quiet Λ m g) (hl : LogOk m) :
    HoldsUsed Λ m := by
  refine ⟨fun x hx => h.held_live hx, fun v hv => ?_, fun hlive => ?_⟩
  · obtain ⟨⟨x, hx, hb⟩, hv'⟩ := h.live v hv
    exact ⟨x, hx, _, hb, hv'⟩
  · have hheld : m.held = [] := List.eq_nil_iff_forall_not_mem.mpr fun x hx => by
      obtain ⟨b, -, v, -, hv⟩ := h.held_live hx
      rw [hlive] at hv
      cases hv
    have hgl : g.gl = [] := List.eq_nil_iff_forall_not_mem.mpr fun x hx => by
      have := ((h.rep.gpool.mem_iff x).mp hx).1
      rw [hheld] at this
      cases this
    refine ⟨hheld, by rw [h.rep.gpool.head, hgl]; rfl, fun x l₁ l₂ hlog => ?_⟩
    have ha := hl.superblock x
    rw [hlog, hheld] at ha
    exact ha.closed_after (Event.sysFrees_of_sysAllocates x) (by simp [Event.sysAllocates])

theorem serial_runs_hold_used (h₀ : Initial s₀)
    (hr : Runs (slab Tid Λ) (fun s t => Alone .idle s t) s₀ s) (hidle : ∀ t, s.pc t = .idle) :
    HoldsUsed Λ s.mem := by
  have h : SerialInv Λ s := .runs h₀ hr
  obtain ⟨g, hq⟩ := h.inv.quiet_rep hidle
  exact hq.holdsUsed h.log

theorem serial_runs_hold_used_turns :
    ∃ s : State (Fin 2), Runs (slab (Fin 2) lp64) (fun s t => Alone .idle s t) zeroState s ∧
      s.mem.log.length = 6 ∧ HoldsUsed lp64 s.mem := by
  obtain ⟨s, hr, hs⟩ := exec_serial turns
    (fun s => decide (s.mem.log.length = 6 ∧ s.pc 0 = .idle ∧ s.pc 1 = .idle))
    (by decide +kernel)
  obtain ⟨hlog, h0, h1⟩ := of_decide_eq_true hs
  refine ⟨s, hr, hlog, serial_runs_hold_used zeroState_initial hr fun t => ?_⟩
  rcases Fin.exists_fin_two.mp ⟨t, rfl⟩ with h | h
  · exact h ▸ h0
  · exact h ▸ h1

end OpenOOC.Vma
