import OpenOOC.Vma.PoolSteps

/-! What the code that works on superblocks does to the lists: getting one from
the system, stealing a block, returning one, and giving a superblock back. -/

namespace OpenOOC.Vma

open Links

variable {Tid : Type} {Λ : Layout} {m m' : Mem Tid} {g g' : Ghost Tid} {s b : ℕ}

/-! ### Steps on one superblock -/

/-- A step that changes the place of `b` and the state of `s` only. -/
structure SuperStep (m : Mem Tid) (g : Ghost Tid) (m' : Mem Tid) (g' : Ghost Tid) (b s : ℕ) :
    Prop where
  mem : ∃ sb blk gh, m' = { m with superblock := sb, block := blk, gpoolHead := gh }
  vl : g'.vl = g.vl
  pl : g'.pl = g.pl
  place : ∀ c, c ≠ b → g'.place c = g.place c
  fl : ∀ s', s' ≠ s → g'.fl s' = g.fl s'
  stage : ∀ s', s' ≠ s → g'.stage s' = g.stage s'
  bctr : ∀ s', s' ≠ s → (m'.superblock s').bctr = (m.superblock s').bctr
  attached : g.stage s ≠ .detached

/-- What `Rep` asks after a step on the block `b` of the superblock `s`. -/
theorem Rep.super_step (hr : Rep Λ m g) (hst : SuperStep m g m' g' b s) (hs : s ∈ m.held)
    (hb : b ∈ blocksOf s) (hhead : ∀ s', s' ≠ s → (m'.superblock s').head = (m.superblock s').head)
    (hblk : ∀ c, c ≠ b → c ∉ g.fl s → m'.block c = m.block c)
    (hbody : ∀ c, Relinked (m.block c) (m'.block c)) (hown : (g'.place b).owner = none)
    (hon : (g.place b).onList = none) (hlen : (g.vl b).length = BLOCK_CTR_FULL Λ.toSizes)
    (hlen' : (g'.place b).Len (BLOCK_CTR_FULL Λ.toSizes) (BLOCK_CTR_FULL Λ.toSizes))
    (hgp : GpoolRep m' g') (hsr : SuperRep m' g' s) : Rep Λ m' g' := by
  obtain ⟨⟨sb, blk, gh, hm⟩, hvl, hpl, hplace, hfl, hstage, hbctr, hdet⟩ := hst
  have hheld : m'.held = m.held := by rw [hm]
  have hvm : m'.vmNext = m.vmNext := by rw [hm]
  have hi : m'.init = m.init := by rw [hm]
  have hmp : m'.mpoolHead = m.mpoolHead := by rw [hm]
  have hown' : ∀ p, (g'.place b).owner ≠ some p := fun p h => by
    rw [hown] at h
    cases h
  have hon' : (g'.place b).onList = none :=
    Option.eq_none_iff_forall_ne_some.mpr fun p h => hown' p (Place.owner_of_onList h)
  have hfree : ∀ c ∈ g.fl s, g.place c = .free := fun c hc => (((hr.super s hs).mem_iff c).mp hc).2
  refine ⟨⟨hheld ▸ hr.held.nodup, hheld ▸ hr.held.aligned, hheld ▸ hr.held.apart⟩, hgp,
    fun s' hs' => ?_,
    fun s' hs' c hc => ?_, fun p => ?_⟩
  · rw [hheld] at hs'
    by_cases hss : s' = s
    · subst hss
      exact hsr
    · have h := hr.super s' hs'
      have hne : ∀ c ∈ blocksOf s', c ≠ b := by
        rintro c hc rfl
        exact hss (hr.held.block_unique hs' hs hc hb)
      refine ⟨?_, ?_, fun hd => ?_, ?_, fun c => ?_⟩
      · rw [hbctr s' hss, hfl s' hss]; exact h.count
      · rw [hbctr s' hss, hstage s' hss]; exact h.stage
      · rw [hhead s' hss, hfl s' hss]
        refine (h.chain (hstage s' hss ▸ hd)).congr fun c hc => ?_
        have hc' := ((h.mem_iff c).mp hc).1
        rw [hblk c (hne c hc') fun hcs => hss ?_]
        exact hr.held.block_unique hs' hs hc' (((hr.super s hs).mem_iff c).mp hcs).1
      · rw [hfl s' hss]; exact h.nodup
      · rw [hfl s' hss, h.mem_iff]
        exact and_congr_right fun hc => by rw [hplace c (hne c hc)]
  · rw [hheld] at hs'
    have h := hr.block s' hs' c hc
    obtain ⟨q, n, he⟩ := hbody c
    by_cases hcb : c = b
    · subst hcb
      obtain rfl := hr.held.block_unique hs hs' hb hc
      refine ⟨by rw [he]; exact h.superblock, by rw [he, hvl]; exact h.count,
        fun _ => by rw [he, hvl, hvm]; exact h.chain hdet, hvl ▸ h.nodup, hvl ▸ h.sub,
        by rw [hvl, hlen]; exact hlen', fun p hp => absurd hp (hown' p),
        fun p hp => absurd ?_ (hown' p)⟩
      rcases hp with hp | hp <;> rw [hp] <;> rfl
    · refine h.congr (by rw [he]) (by rw [he]) (by rw [he]) (by rw [he]) (by rw [hvl])
        (hplace c hcb) (fun hd => ?_)
        (fun _ _ => by rw [hvm]) (fun _ h => by rw [hi]; exact h) fun p hp => ?_
      · by_cases hss : s' = s
        · exact hss ▸ hdet
        · exact hstage s' hss ▸ hd
      · rw [hblk c hcb fun hcs => ?_]
        have := hfree c hcs
        rcases hp with hp | hp <;> rw [hp] at this <;> cases this
  · refine (hr.pool p).congr (by rw [hmp]) (by rw [hpl]) (fun c hc => ?_) fun c => ?_
    · have hcp := (((hr.pool p).mem_iff c).mp hc).2
      have hcb : c ≠ b := by
        rintro rfl
        rw [hon] at hcp
        cases hcp
      rw [hblk c hcb fun hcs => Place.ne_free_of_onList hcp (hfree c hcs)]
      exact ⟨rfl, rfl⟩
    · rw [isBlock_congr hheld]
      by_cases hcb : c = b
      · subst hcb
        simp [hon, hon']
      · rw [hplace c hcb]

theorem Rep.gl_mem (hr : Rep Λ m g) {s' : ℕ} (h : s' ∈ g.gl) : s' ∈ m.held :=
  ((hr.gpool.mem_iff s').mp h).1

theorem GpoolRep.congr (h : GpoolRep m g) (hheld : m'.held = m.held)
    (hhead : m'.gpoolHead = m.gpoolHead)
    (hlink : ∀ s, (m'.superblock s).next = (m.superblock s).next ∧
      (m'.superblock s).prev = (m.superblock s).prev)
    (hgl : g'.gl = g.gl) (hlinked : ∀ s ∈ m.held, (g'.stage s).Linked ↔ (g.stage s).Linked)
    (hoff : ∀ s ∈ m.held, g'.stage s = .off ∨ g'.stage s = .relist →
    g.stage s = .off ∨ g.stage s = .relist) :
    GpoolRep m' g' := by
  refine ⟨by rw [hhead, hgl]; exact h.head, ?_, hgl ▸ h.nodup, fun s => ?_, fun s hs hσ => ?_⟩
  · rw [hgl]
    exact h.seg.congr (fun s _ => (hlink s).1) fun s _ => (hlink s).2
  · rw [hgl, h.mem_iff, hheld]
    exact and_congr_right fun hs => (hlinked s hs).symm
  · rw [hheld] at hs
    rw [(hlink s).2]
    exact h.off_prev s hs (hoff s hs hσ)

theorem Rep.head_fl (hr : Rep Λ m g) (hs : s ∈ m.held) (hd : g.stage s ≠ .detached) :
    (m.superblock s).head = (g.fl s).head? := ((hr.super s hs).chain hd).head

theorem Rep.fl_mapped (hr : Rep Λ m g) (hs : s ∈ m.held) {c : ℕ} (hc : c ∈ g.fl s) : m.Mapped c :=
  mapped_block ⟨s, hs, (((hr.super s hs).mem_iff c).mp hc).1⟩

/-! ### Stealing a block -/

theorem Rep.stealRead (hr : Rep Λ m g) (hs : s ∈ m.held)
    (hσ : g.stage s = .fresh ∨ g.stage s = .listed) :
    ∃ b, (g.fl s).head? = some b ∧ stealRead m s = some (.stealGetBlock s b) := by
  have h := hr.super s hs
  have hd : g.stage s ≠ .detached := by rcases hσ with h | h <;> simp [h]
  have hlen : 0 < (g.fl s).length := by
    have h1 := h.count
    have h2 := h.stage
    rcases hσ with h | h <;> rw [h] at h2 <;>
      simp only [Stage.Bctr, superblock_ctr_full] at h1 h2 <;> omega
  obtain ⟨b, L, hL⟩ := List.exists_cons_of_length_pos hlen
  have hhead := hr.head_fl hs hd
  rw [hL] at hhead
  refine ⟨b, by rw [hL]; rfl, ?_⟩
  simp only [OpenOOC.Vma.stealRead, getSuperblock_eq (mapped_superblock hs), Option.bind_eq_bind,
    Option.bind_some,
    hhead, List.head?_cons, Option.pure_def]

/-- The superblock at the front of the global list gives its first block, and
leaves the list if that was the last one. -/
theorem Rep.stealTake (hr : Rep Λ m g) (hg : g.gl.head? = some s) (hb : (g.fl s).head? = some b)
    (hσ : g.stage s = .fresh ∨ g.stage s = .listed) :
    ∃ m' g', stealTake m s b = some (m', .stealLetSuperblock s b) ∧ SuperStep m g m' g' b s ∧
      b ∈ blocksOf s ∧ g'.place b = .stolen ∧ (g'.stage s = .listed ∨ g'.stage s = .off) ∧
      Rep Λ m' g' := by
  have hsg : s ∈ g.gl := List.mem_of_head? hg
  have hs := hr.gl_mem hsg
  have hS := hr.super s hs
  have hd : g.stage s ≠ .detached := by rcases hσ with h | h <;> simp [h]
  have hbm := (hS.mem_iff b).mp (List.mem_of_head? hb)
  have hbb : IsBlock m b := ⟨s, hs, hbm.1⟩
  obtain ⟨L, hL⟩ : ∃ L, g.fl s = b :: L := ⟨(g.fl s).tail, (List.cons_head?_tail hb).symm⟩
  obtain ⟨G, hG⟩ : ∃ G, g.gl = s :: G := ⟨g.gl.tail, (List.cons_head?_tail hg).symm⟩
  have hchain := hL ▸ hS.chain hd
  have hnext : (m.block b).next = L.head? := hchain.2.head
  have hcount := hS.count
  rw [hL, List.length_cons] at hcount
  have hnd := List.nodup_cons.mp (hL ▸ hS.nodup)
  have hseg := hG ▸ hr.gpool.seg
  have hGnd := List.nodup_cons.mp (hG ▸ hr.gpool.nodup)
  have hprevS : (m.superblock s).prev = none := hseg.1
  have hnextS : (m.superblock s).next = G.head? := by simpa using hseg.2.1
  have hmapG : ∀ c, G.head? = some c → m.Mapped c := fun c hc =>
    mapped_superblock (hr.gl_mem (hG ▸ List.mem_cons_of_mem _ (List.mem_of_head? hc)))
  set m1 : Mem Tid := ((m.modSuperblock s fun S => { S with head := L.head? }).modBlockIf L.head?
    fun N => { N with prev := (m.block b).prev }).modSuperblock s fun S =>
      { S with bctr := S.bctr + 1 } with hm1
  set m' : Mem Tid := if L = [] then { m1 with gpoolHead := G.head? }.modSuperblockIf G.head?
    fun N => { N with prev := none } else m1 with hm'
  set g' : Ghost Tid := { g with
    gl := if L = [] then G else g.gl
    fl := Function.update g.fl s L
    place := Function.update g.place b .stolen
    stage := Function.update g.stage s (if L = [] then .off else .listed) } with hg'
  have hsup : ∀ x, m'.superblock x = { m.superblock x with
      bctr := if x = s then (m.superblock x).bctr + 1 else (m.superblock x).bctr
      head := if x = s then L.head? else (m.superblock x).head
      prev := if L = [] ∧ G.head? = some x then none else (m.superblock x).prev } := by
    intro x
    by_cases hL0 : L = []
    · simp only [hm', hm1, if_pos hL0, Mem.modSuperblockIf_superblock, Mem.modSuperblock_superblock,
        Mem.modBlockIf_superblock]
      split_ifs <;> simp_all
    · simp only [hm', hm1, if_neg hL0, Mem.modSuperblock_superblock, Mem.modBlockIf_superblock]
      split_ifs <;> simp_all
  have hblk : ∀ c, m'.block c = { m.block c with
      prev := if L.head? = some c then (m.block b).prev else (m.block c).prev } := by
    intro c
    have : m'.block = m1.block := by rw [hm']; split_ifs <;> rfl
    rw [this]
    simp only [hm1, Mem.modSuperblock_block, Mem.modBlockIf_block]
    split_ifs <;> rfl
  have hgh : m'.gpoolHead = if L = [] then G.head? else m.gpoolHead := by
    rw [hm']
    split_ifs <;> rfl
  have hst : SuperStep m g m' g' b s := by
    refine ⟨?_, rfl, rfl, fun _ hc => Function.update_of_ne hc _ _,
      fun _ hc => Function.update_of_ne hc _ _,
      fun _ hc => Function.update_of_ne hc _ _, fun s' hs' => by rw [hsup, if_neg hs'], hd⟩
    rw [hm']
    split_ifs <;> exact ⟨_, _, _, rfl⟩
  have hheld : m'.held = m.held := by
    rw [hm']
    split_ifs <;> rfl
  refine ⟨m', g', ?_, hst, hbm.1, by simp [hg'], ?_, ?_⟩
  · have hsmap : m.Mapped s := mapped_superblock hs
    have hS1 : m1.superblock s = { m.superblock s with bctr := (m.superblock s).bctr + 1, head :=
        L.head? } := by
      simp [hm1]
    have hread : OpenOOC.Vma.stealTake m s b = (if (m1.superblock s).head = none then
        (({ m1 with gpoolHead := (m1.superblock s).next }.setSuperblockIf (m1.superblock s).next
          fun N => { N with prev := (m1.superblock s).prev }).bind fun m =>
            (guard (SUPERBLOCK_CTR_FULL = (m1.superblock s).bctr) : Option Unit).bind fun _ =>
              some (m, .stealLetSuperblock s b))
        else some (m1, .stealLetSuperblock s b)) := by
      unfold OpenOOC.Vma.stealTake
      simp only [getBlock_eq (mapped_block hbb), setSuperblock_eq hsmap, Option.bind_eq_bind,
        Option.bind_some, hnext]
      rw [setBlockIf_eq, Option.bind_some, setSuperblock_eq, Option.bind_some, getSuperblock_eq,
        Option.bind_some]
      · rfl
      · exact hsmap
      · exact hsmap
      · exact fun c hc => hr.fl_mapped hs (hL ▸ List.mem_cons_of_mem _ (List.mem_of_head? hc))
    rw [hread, hS1]
    by_cases hL0 : L = []
    · rw [if_pos (by simp [hL0]), hprevS, hnextS, setSuperblockIf_eq, Option.bind_some, guard_pos,
        hm', if_pos hL0]
      · rfl
      · simp only [hL0, List.length_nil] at hcount
        exact hcount.symm
      · exact hmapG
    · rw [if_neg (by simpa using hL0), hm', if_neg hL0]
  · simp only [hg', Function.update_self]
    split_ifs <;> simp
  · refine hr.super_step hst hs hbm.1 (fun s' hs' => by simp [hsup, hs']) (fun c _ hc => ?_)
      (fun c => ⟨_, _, hblk c⟩) (by simp [hg', Place.owner]) (by simp [hbm.2]) ?_
      (by simp [hg', Place.Len]) ?_ ?_
    · rw [hblk, if_neg]
      exact fun h => hc (hL ▸ List.mem_cons_of_mem _ (List.mem_of_head? h))
    · have := (hr.block s hs b hbm.1).len
      rwa [hbm.2] at this
    · by_cases hL0 : L = []
      · refine ⟨by rw [hgh, if_pos hL0, hg', if_pos hL0], ?_, ?_, fun x => ?_, fun x hx hσx => ?_⟩
        · simp only [hg', if_pos hL0]
          refine hseg.2.2.set_entry hGnd.2 (fun x _ => by rw [hsup]) fun x _ => ?_
          rw [hsup]
          simp only [hL0, true_and]
        · simp only [hg', if_pos hL0]
          exact hGnd.2
        · have := hr.gpool.mem_iff x
          simp only [hg', if_pos hL0, hheld]
          by_cases hxs : x = s
          · subst hxs
            simp [hGnd.1, Stage.Linked]
          · rw [hG] at this
            simpa [hxs] using this
        · by_cases hxG : G.head? = some x
          · simp [hsup, hL0, hxG]
          · simp only [hsup, hxG, and_false, if_false]
            by_cases hxs : x = s
            · rw [hxs, hprevS]
            · rw [hheld] at hx
              exact hr.gpool.off_prev x hx (by simpa [hg', hxs] using hσx)
      · refine hr.gpool.congr hheld (by rw [hgh, if_neg hL0]) (fun x => ?_) (if_neg hL0)
          (fun x _ => ?_) fun x _ hx => ?_
        · rw [hsup]
          exact ⟨rfl, if_neg fun h => hL0 h.1⟩
        · by_cases hxs : x = s
          · subst hxs
            rcases hσ with h | h <;> simp [hg', hL0, h, Stage.Linked]
          · simp [hg', hxs]
        · by_cases hxs : x = s
          · subst hxs
            simp [hg', hL0] at hx
          · simpa [hg', hxs] using hx
    · refine ⟨?_, ?_, fun _ => ?_, ?_, fun c => ?_⟩
      · rw [hsup, if_pos rfl]
        simp only [hg', Function.update_self]
        omega
      · rw [hsup, if_pos rfl]
        have h2 := hS.stage
        simp only [hg', Function.update_self]
        split_ifs with h0
        · rw [h0, List.length_nil] at hcount
          exact hcount
        · have := List.length_pos_iff.mpr h0
          exact ⟨by omega, by omega⟩
      · rw [hsup, if_pos rfl]
        simp only [hg', Function.update_self]
        exact hchain.2.head ▸ hchain.2.congr fun c _ => by rw [hblk]
      · simpa [hg'] using hnd.2
      · have := hS.mem_iff c
        simp only [hg', Function.update_self]
        by_cases hcb : c = b
        · subst hcb
          simp [hnd.1]
        · rw [hL] at this
          simpa [hcb] using this

/-! ### Returning a block -/

/-- How far the superblock is when a block is returned and `k` are stolen then. -/
def returnedStage (k : ℕ) (σ : Stage) : Stage :=
  if k = 0 then .putting else if σ = .off then .relist else .listed

def returnedPc {Tid : Type} (b s k : ℕ) (σ : Stage) : Pc Tid :=
  if k = 0 then .returnLetSuperblockEmpty b s
  else if σ = .off then .returnGetGpool b s else .returnLetSuperblock b s

theorem returnedStage_of_ne {k : ℕ} {σ : Stage} (h : k ≠ 0) :
    returnedStage k σ = if σ = .off then .relist else .listed := if_neg h

theorem returnedPc_of_ne {Tid : Type} {b s k : ℕ} {σ : Stage} (h : k ≠ 0) :
    (returnedPc b s k σ : Pc Tid) = if σ = .off then .returnGetGpool b s
      else .returnLetSuperblock b s := if_neg h

theorem Rep.returnPush (hr : Rep Λ m g) (hs : s ∈ m.held) (hb : b ∈ blocksOf s)
    (hp : g.place b = .returning ∨ g.place b = .stolen)
    (hσ : g.stage s = .listed ∨ g.stage s = .off) :
    ∃ m' g', returnPush m b s = some (m', returnedPc b s ((m.superblock s).bctr - 1) (g.stage s)) ∧
      SuperStep m g m' g' b s ∧ g'.gl = g.gl ∧ m'.gpoolHead = m.gpoolHead ∧ g'.place b = .free ∧
      g'.stage s = returnedStage ((m.superblock s).bctr - 1) (g.stage s) ∧
      (m'.superblock s).bctr = (m.superblock s).bctr - 1 ∧ Rep Λ m' g' := by
  have hS := hr.super s hs
  have hd : g.stage s ≠ .detached := by rcases hσ with h | h <;> simp [h]
  have hfree : g.place b ≠ .free := by rcases hp with h | h <;> simp [h]
  have hbb : IsBlock m b := ⟨s, hs, hb⟩
  have hbs := hr.not_mem_fl hs hfree
  have hpos := hr.bctr_pos hs hb hfree
  have hdecr : decr (m.superblock s).bctr = (m.superblock s).bctr - 1 := if_neg (by omega)
  have hhead := hr.head_fl hs hd
  have hcount := hS.count
  have hlisted : g.stage s = .listed → (m.superblock s).bctr < SUPERBLOCK_CTR_FULL := by
    intro h
    have := hS.stage
    rw [h] at this
    exact this.2
  have hfull : g.stage s = .off → (m.superblock s).bctr = SUPERBLOCK_CTR_FULL := by
    intro h
    have := hS.stage
    rwa [h] at this
  have hctr := superblock_ctr_full
  have hoff : (m.superblock s).head = none ↔ g.stage s = .off := by
    rw [hhead, List.head?_eq_none_iff, ← List.length_eq_zero_iff]
    rcases hσ with h | h
    · have := hlisted h
      simp only [h, reduceCtorEq, iff_false]
      omega
    · have := hfull h
      simp only [h, iff_true]
      omega
  set m' : Mem Tid := ((m.modBlock b fun B => { B with next := (m.superblock s).head }).modBlockIf
    (m.superblock s).head fun N => { N with prev := some b }).modSuperblock s
    fun S => { S with head := some b, bctr := decr S.bctr } with hm'
  set g' : Ghost Tid := { g with
    fl := Function.update g.fl s (b :: g.fl s)
    place := Function.update g.place b .free
    stage := Function.update g.stage s
      (returnedStage ((m.superblock s).bctr - 1) (g.stage s)) } with hg'
  have hsup : ∀ x, m'.superblock x = { m.superblock x with
      bctr := if x = s then (m.superblock x).bctr - 1 else (m.superblock x).bctr
      head := if x = s then some b else (m.superblock x).head } := by
    intro x
    simp only [hm', Mem.modSuperblock_superblock, Mem.modBlockIf_superblock,
      Mem.modBlock_superblock]
    split_ifs with hx
    · rw [hx, hdecr]
    · rfl
  have hblk : ∀ c, m'.block c = { m.block c with
      next := if c = b then (g.fl s).head? else (m.block c).next
      prev := if (g.fl s).head? = some c then some b else (m.block c).prev } := by
    intro c
    simp only [hm', Mem.modSuperblock_block, Mem.modBlockIf_block, Mem.modBlock_block, hhead]
    split_ifs <;> rfl
  have hst : SuperStep m g m' g' b s :=
    ⟨⟨_, _, _, rfl⟩, rfl, rfl, fun _ hc => Function.update_of_ne hc _ _,
      fun _ hc => Function.update_of_ne hc _ _,
      fun _ hc => Function.update_of_ne hc _ _, fun s' hs' => by rw [hsup, if_neg hs'], hd⟩
  refine ⟨m', g', ?_, hst, rfl, rfl, by simp [hg'], by simp [hg'], by simp [hsup], ?_⟩
  · unfold OpenOOC.Vma.returnPush
    simp only [getSuperblock_eq (mapped_superblock hs), setBlock_eq (mapped_block hbb),
      Option.bind_eq_bind,
      Option.bind_some]
    rw [setBlockIf_eq, Option.bind_some, setSuperblock_eq, Option.bind_some]
    · simp only [hoff, returnedPc, ← hdecr]
      split_ifs <;> rfl
    · exact mapped_superblock hs
    · exact fun c hc => hr.fl_mapped hs (List.mem_of_head? (hhead ▸ hc))
  · refine hr.super_step hst hs hb (fun s' hs' => by simp [hsup, hs']) (fun c hcb hc => ?_)
      (fun c => ⟨_, _, hblk c⟩) (by simp [hg', Place.owner])
      (by rcases hp with h | h <;> simp [h]) ?_
      (by simp [hg', Place.Len]) ?_ ?_
    · rw [hblk, if_neg hcb, if_neg]
      exact fun h => hc (List.mem_of_head? h)
    · have := (hr.block s hs b hb).len
      rcases hp with h | h <;> rwa [h] at this
    · refine hr.gpool.congr rfl rfl (fun x => by simp [hsup]) rfl (fun x _ => ?_) fun x _ hx => ?_
      · by_cases hxs : x = s
        · subst hxs
          simp only [hg', Function.update_self, returnedStage]
          rcases hσ with h | h
          · rw [h]
            split_ifs <;> simp_all [Stage.Linked]
          · have := hfull h
            rw [h, if_neg (by omega)]
            simp [Stage.Linked]
        · simp [hg', hxs]
      · by_cases hxs : x = s
        · subst hxs
          simp only [hg', Function.update_self, returnedStage] at hx
          split_ifs at hx with h1 h2 <;> simp_all
        · simpa [hg', hxs] using hx
    · refine ⟨?_, ?_, fun _ => ?_, ?_, fun c => ?_⟩
      · rw [hsup, if_pos rfl]
        simp only [hg', Function.update_self, List.length_cons]
        omega
      · rw [hsup, if_pos rfl]
        simp only [hg', Function.update_self, returnedStage]
        rcases hσ with h | h
        · have := hlisted h
          simp only [h, reduceCtorEq, if_false]
          split_ifs with h0
          · exact h0
          · simp only [Stage.Bctr]
            omega
        · have := hfull h
          rw [h, if_neg (by omega), if_pos rfl]
          simp only [Stage.Bctr]
          omega
      · simp only [hg', Function.update_self, chain_cons]
        rw [hsup, hblk, ← hhead]
        simp only [if_true, true_and]
        refine (hS.chain hd).congr fun c hc => ?_
        have hcb : c ≠ b := fun h => hbs (h ▸ hc)
        rw [hblk, if_neg hcb]
      · simpa [hg'] using ⟨hbs, hS.nodup⟩
      · have := hS.mem_iff c
        simp only [hg', Function.update_self]
        by_cases hcb : c = b
        · subst hcb
          simp [hb]
        · simpa [hcb] using this

theorem Rep.returnPrepend (hr : Rep Λ m g) (hs : s ∈ m.held) (hb : b ∈ blocksOf s)
    (hp : g.place b = .free)
    (hσ : g.stage s = .relist) :
    ∃ m' g', returnPrepend m b s = some (m', .returnLetGpool b s) ∧ SuperStep m g m' g' b s ∧
      g'.place = g.place ∧ g'.fl = g.fl ∧ g'.stage s = .listed ∧
      (m'.superblock s).bctr = (m.superblock s).bctr ∧
      (m.superblock s).bctr + 1 = SUPERBLOCK_CTR_FULL ∧ Rep Λ m' g' := by
  have hS := hr.super s hs
  have hd : g.stage s ≠ .detached := by simp [hσ]
  have hG := hr.gpool
  have hsg : s ∉ g.gl := fun h => by
    have := ((hG.mem_iff s).mp h).2
    simp [hσ, Stage.Linked] at this
  have hnh : m.gpoolHead ≠ some s := by
    rw [hG.head]
    exact fun h => hsg (List.mem_of_head? h)
  have hbctr : (m.superblock s).bctr + 1 = SUPERBLOCK_CTR_FULL := by
    have := hS.stage
    rwa [hσ] at this
  have hprev := hG.off_prev s hs (Or.inr hσ)
  set m' : Mem Tid :=
    { (m.modSuperblock s fun S => { S with next := m.gpoolHead }).modSuperblockIf m.gpoolHead
    fun N => { N with prev := some s } with gpoolHead := some s } with hm'
  set g' : Ghost Tid := { g with
    gl := s :: g.gl
    stage := Function.update g.stage s .listed } with hg'
  have hsup : ∀ x, m'.superblock x = { m.superblock x with
      next := if x = s then g.gl.head? else (m.superblock x).next
      prev := if g.gl.head? = some x then some s else (m.superblock x).prev } := by
    intro x
    simp only [hm', Mem.modSuperblockIf_superblock, Mem.modSuperblock_superblock, hG.head]
    split_ifs <;> rfl
  have hst : SuperStep m g m' g' b s :=
    ⟨⟨_, _, _, rfl⟩, rfl, rfl, fun _ _ => rfl, fun _ _ => rfl,
      fun _ hc => Function.update_of_ne hc _ _,
      fun s' _ => by rw [hsup], hd⟩
  refine ⟨m', g', ?_, hst, rfl, rfl, by simp [hg'], by rw [hsup], hbctr, ?_⟩
  · unfold OpenOOC.Vma.returnPrepend
    simp only [setSuperblock_eq (mapped_superblock hs), Option.bind_eq_bind, Option.bind_some,
      Mem.modSuperblock_gpoolHead]
    rw [setSuperblockIf_eq, Option.bind_some]
    · rfl
    · exact fun c hc => mapped_superblock (hr.gl_mem (List.mem_of_head? (hG.head ▸ hc)))
  · have hctr := superblock_ctr_full
    refine hr.super_step hst hs hb (fun s' hs' => by simp [hsup]) (fun c _ _ => rfl)
      (fun c => Relinked.refl _) (by simp [hg', hp, Place.owner]) (by simp [hp]) ?_
      (by simp [hg', hp, Place.Len]) ?_ ?_
    · have := (hr.block s hs b hb).len
      rwa [hp] at this
    · refine ⟨rfl, ?_, List.nodup_cons.mpr ⟨hsg, hG.nodup⟩, fun x => ?_, fun x hx hσx => ?_⟩
      · refine @Seg.link _ _ _ _ _ _ _ _ [] _ _ hG.seg (List.nodup_cons.mpr ⟨hsg, hG.nodup⟩) ?_ ?_
          (fun x hx => ?_) fun x hx => ?_
        · rw [hsup, if_pos rfl, Option.or_none]
        · rw [hsup, ← hG.head, if_neg hnh, hprev]
          rfl
        · have hxs : x ≠ s := fun h => hsg (h ▸ hx)
          rw [hsup, if_neg hxs]
          simp
        · rw [hsup]
      · change _ ↔ x ∈ m.held ∧ _
        by_cases hxs : x = s
        · subst hxs
          simp [hg', hs, Stage.Linked]
        · simpa [hg', hxs] using hG.mem_iff x
      · have hxs : x ≠ s := by
          rintro rfl
          simp [hg'] at hσx
        have hσ' : g.stage x = .off ∨ g.stage x = .relist := by simpa [hg', hxs] using hσx
        have hxg : g.gl.head? ≠ some x := fun h => by
          have := ((hG.mem_iff x).mp (List.mem_of_head? h)).2
          rcases hσ' with h' | h' <;> simp [h', Stage.Linked] at this
        rw [hsup, if_neg hxg]
        exact hG.off_prev x hx hσ'
    · refine ⟨by rw [hsup]; exact hS.count, ?_, fun _ => by rw [hsup]; exact hS.chain hd,
        hS.nodup, hS.mem_iff⟩
      rw [hsup]
      simp only [hg', Function.update_self, Stage.Bctr]
      omega

/-! ### Giving a superblock back -/

/-- A superblock without stolen blocks leaves the global list, wherever it is on it. -/
theorem Rep.putUnlink (hr : Rep Λ m g) (hs : s ∈ m.held) (hσ : g.stage s = .putting) :
    ∃ m' g', putUnlink m s = some (m', .putLetGpool s) ∧ (∀ b, SuperStep m g m' g' b s) ∧
      g'.place = g.place ∧ g'.fl = g.fl ∧ g'.stage s = .detached ∧
      (m'.superblock s).bctr = (m.superblock s).bctr ∧ Rep Λ m' g' := by
  have hS := hr.super s hs
  have hd : g.stage s ≠ .detached := by simp [hσ]
  have hsmap := mapped_superblock hs
  have hG := hr.gpool
  obtain ⟨L1, L2, hL⟩ := List.append_of_mem ((hG.mem_iff s).mpr ⟨hs, by simp [hσ, Stage.Linked]⟩)
  have hseg := hL ▸ hG.seg
  have hnd := hL ▸ hG.nodup
  have hprev : (m.superblock s).prev = L1.getLast? := by simpa using hseg.prev_of_mem
  have hnext : (m.superblock s).next = L2.head? := by simpa using hseg.next_of_mem
  obtain ⟨hnd1, hnd2, hdis⟩ := List.nodup_append.mp hnd
  obtain ⟨hb2, hnd2⟩ := List.nodup_cons.mp hnd2
  have hb1 : s ∉ L1 := fun h => hdis s h s (by simp) rfl
  have hmapL : ∀ c ∈ L1 ++ s :: L2, m.Mapped c :=
    fun c hc => mapped_superblock (hr.gl_mem (hL ▸ hc))
  set m1 : Mem Tid := { m.modSuperblockIf L1.getLast? fun Q => { Q with next := L2.head? } with
    gpoolHead := if L1 = [] then L2.head? else m.gpoolHead } with hm1
  set m' : Mem Tid := m1.modSuperblockIf L2.head? fun N => { N with prev := L1.getLast? } with hm'
  set g' : Ghost Tid := { g with
    gl := L1 ++ L2
    stage := Function.update g.stage s .detached } with hg'
  have hsup : ∀ x, m'.superblock x = { m.superblock x with
      next := if L1.getLast? = some x then L2.head? else (m.superblock x).next
      prev := if L2.head? = some x then L1.getLast? else (m.superblock x).prev } := by
    intro x
    simp only [hm', hm1, Mem.modSuperblockIf_superblock]
    split_ifs <;> rfl
  have hst : ∀ b, SuperStep m g m' g' b s := fun b =>
    ⟨⟨_, _, _, rfl⟩, rfl, rfl, fun _ _ => rfl, fun _ _ => rfl,
      fun _ hc => Function.update_of_ne hc _ _,
      fun s' _ => by rw [hsup], hd⟩
  refine ⟨m', g', ?_, hst, rfl, rfl, by simp [hg'], by rw [hsup], ?_⟩
  · have hself1 : (m1.superblock s).next = L2.head? ∧ (m1.superblock s).prev = L1.getLast? := by
      simp only [hm1, Mem.modSuperblockIf_superblock, if_neg fun h => hb1 (List.mem_of_getLast? h)]
      exact ⟨hnext, hprev⟩
    have hfirst : putUnlinkPrev m s (m.superblock s) = some m1 := by
      have hhead := hG.head
      rw [hL] at hhead
      unfold putUnlinkPrev
      by_cases h1 : L1 = []
      · subst h1
        rw [if_pos (by simpa using hhead), hnext]
        simp [hm1, Mem.modSuperblockIf]
      · obtain ⟨q, hq⟩ : ∃ q, L1.getLast? = some q := ⟨_, List.getLast?_eq_some_getLast h1⟩
        have hne : m.gpoolHead ≠ some s := by
          rw [hhead, List.head?_append_of_ne_nil _ h1]
          exact fun h => hb1 (List.mem_of_head? h)
        rw [if_neg hne, hprev, hq, Option.bind_some, hnext,
          setSuperblock_eq (hmapL q (by simp [List.mem_of_getLast? hq])), hm1, if_neg h1, hq]
        simp only [Mem.modSuperblock, Mem.modSuperblockIf, Option.some.injEq, eq_comm]
    unfold OpenOOC.Vma.putUnlink
    simp only [getSuperblock_eq hsmap, Option.bind_eq_bind, Option.bind_some, hfirst]
    rw [getSuperblock_eq (m := m1) hsmap, Option.bind_some, hself1.1, hself1.2, setSuperblockIf_eq,
      Option.bind_some]
    · rfl
    · exact fun c hc => hmapL c (by simp [List.mem_of_head? hc])
  · have hbctr : (m.superblock s).bctr = 0 := Stage.bctr_zero hS.stage (by simp [hσ])
    have hb : s + BLOCK_SIZE ∈ blocksOf s :=
      mem_blocksOf.mpr ⟨0, by rw [superblock_ctr_full]; omega, by simp⟩
    have hp := hr.free_of_bctr hs hbctr hb
    refine hr.super_step (hst (s + BLOCK_SIZE)) hs hb (fun s' _ => by rw [hsup]) (fun c _ _ => rfl)
      (fun c => Relinked.refl _) (by simp [hg', hp, Place.owner]) (by simp [hp]) ?_
      (by simp [hg', hp, Place.Len]) ?_ ?_
    · have := (hr.block s hs _ hb).len
      rwa [hp] at this
    · refine ⟨?_, ?_, ?_, fun x => ?_, fun x hx hσx => ?_⟩
      · simp only [hm', hm1, hg', Mem.modSuperblockIf_gpoolHead]
        cases L1 with
        | nil => simp
        | cons a L1 => simpa [hL] using hG.head
      · exact hseg.unlink hnd (fun x _ => by rw [hsup]; simp) fun x _ => by rw [hsup]; simp
      · exact List.nodup_append.mpr ⟨hnd1, hnd2, fun c hc c' hc' => hdis c hc c' (by simp [hc'])⟩
      · change _ ↔ x ∈ m.held ∧ _
        by_cases hxs : x = s
        · subst hxs
          simp [hg', hb1, hb2, Stage.Linked]
        · have := hG.mem_iff x
          rw [hL] at this
          simpa [hg', hxs] using this
      · have hxs : x ≠ s := by
          rintro rfl
          simp [hg'] at hσx
        have hσ' : g.stage x = .off ∨ g.stage x = .relist := by simpa [hg', hxs] using hσx
        have hx2 : L2.head? ≠ some x := fun h => by
          have := ((hG.mem_iff x).mp (hL ▸ by simp [List.mem_of_head? h])).2
          rcases hσ' with h' | h' <;> simp [h', Stage.Linked] at this
        rw [hsup, if_neg hx2]
        exact hG.off_prev x hx hσ'
    · refine ⟨by rw [hsup]; exact hS.count, ?_, fun hd' => absurd (by simp [hg']) hd',
        hS.nodup, hS.mem_iff⟩
      rw [hsup]
      simpa [hg', Stage.Bctr] using hbctr

theorem Rep.putDestroy (hr : Rep Λ m g) (hs : s ∈ m.held) (hσ : g.stage s = .detached) :
    ∃ m', putDestroy Λ m s = some (m', .putGetGpoolStats s) ∧
      (∃ sb blk, m' = { m with superblock := sb, block := blk }) ∧
      (∀ x, (m'.superblock x).bctr = (m.superblock x).bctr) ∧ Rep Λ m' g := by
  obtain ⟨blk, he, hother, hsame⟩ := sSuperblockListDestroy_eq Λ.toSizes s m
  have hS := hr.super s hs
  have hfree : ∀ b ∈ blocksOf s, g.place b = .free := fun b hb =>
    hr.free_of_bctr hs (Stage.bctr_zero hS.stage (by simp [hσ])) hb
  have hlink : ∀ x, (Function.update m.superblock s
      { m.superblock s with head := some (s + BLOCK_SIZE) } x) =
      { m.superblock x with head := if x = s then some (s + BLOCK_SIZE)
        else (m.superblock x).head } := by
    intro x
    by_cases hx : x = s
    · subst hx; simp
    · simp [hx]
  refine ⟨_, ?_, ⟨_, blk, he⟩, fun x => by rw [he]; simp only [hlink], ?_⟩
  · simp only [OpenOOC.Vma.putDestroy, guard_pos (mapped_superblock hs), Option.bind_eq_bind,
      Option.bind_some,
      Option.pure_def]
  · rw [he]
    refine ⟨⟨hr.held.nodup, hr.held.aligned, hr.held.apart⟩, ?_, fun s' hs' => ?_,
      fun s' hs' b hb => ?_, fun p => ?_⟩
    · exact hr.gpool.congr rfl rfl (fun x => by simp only [hlink, and_self]) rfl
        (fun _ _ => Iff.rfl) fun _ _ h => h
    · have h := hr.super s' hs'
      by_cases hss : s' = s
      · subst hss
        exact ⟨by simp only [hlink]; exact h.count, by simp only [hlink]; exact h.stage,
          fun hd => absurd hσ hd, h.nodup, h.mem_iff⟩
      · refine h.congr (Function.update_of_ne hss _ _) rfl rfl (fun b hb => ?_) fun _ _ => Iff.rfl
        have hbs : b ∉ blocksOf s := fun hbs =>
          hss (hr.held.block_unique hs' hs ((h.mem_iff b).mp hb).1 hbs)
        simp only [hother b hbs]
    · have h := hr.block s' hs' b hb
      by_cases hss : s' = s
      · subst hss
        obtain ⟨x, n, hb'⟩ := hsame b
        exact ⟨by simp only [hb']; exact h.superblock, by simp only [hb']; exact h.count,
          fun hd => absurd hσ hd, h.nodup, h.sub, h.len, by
            simp only [hb']; exact h.owner, by simp only [hb']; exact h.off_prev⟩
      · have hbs : b ∉ blocksOf s := fun hbs => hss (hr.held.block_unique hs' hs hb hbs)
        refine h.congr ?_ ?_ ?_ ?_ rfl rfl id (fun _ _ => rfl) (fun _ h => h) fun _ _ => ?_ <;>
          simp only [hother b hbs]
    · refine (hr.pool p).congr rfl rfl (fun b hb => ?_) fun _ => Iff.rfl
      have hbs : b ∉ blocksOf s := fun hbs =>
        Place.ne_free_of_onList (((hr.pool p).mem_iff b).mp hb).2 (hfree b hbs)
      simp only [hother b hbs, and_self]

theorem Rep.putSysFree (hr : Rep Λ m g) (hs : s ∈ m.held) (hσ : g.stage s = .detached) :
    Rep Λ { m with held := m.held.erase s, log := m.log ++ [.sysFree s] } g := by
  have hS := hr.super s hs
  have hfree : ∀ b ∈ blocksOf s, g.place b = .free := fun b hb =>
    hr.free_of_bctr hs (Stage.bctr_zero hS.stage (by simp [hσ])) hb
  have hmem : ∀ x, x ∈ m.held.erase s ↔ x ≠ s ∧ x ∈ m.held := fun x => hr.held.nodup.mem_erase_iff
  refine ⟨⟨hr.held.nodup.erase s, fun x hx => hr.held.aligned x ((hmem x).mp hx).2,
    fun x hx y hy => hr.held.apart x ((hmem x).mp hx).2 y ((hmem y).mp hy).2⟩, ?_, fun s' hs' => ?_,
    fun s' hs' b hb => ?_, fun p => ?_⟩
  · obtain ⟨h1, h2, h3, h4, h5⟩ := hr.gpool
    refine ⟨h1, h2, h3, fun x => ?_, fun x hx => h5 x ((hmem x).mp hx).2⟩
    rw [h4, hmem]
    constructor
    · rintro ⟨hx, hl⟩
      refine ⟨⟨?_, hx⟩, hl⟩
      rintro rfl
      simp [hσ, Stage.Linked] at hl
    · rintro ⟨⟨-, hx⟩, hl⟩
      exact ⟨hx, hl⟩
  · exact (hr.super s' ((hmem s').mp hs').2).congr rfl rfl rfl (fun _ _ => rfl) fun _ _ => Iff.rfl
  · exact (hr.block s' ((hmem s').mp hs').2 b hb).congr rfl rfl rfl rfl rfl rfl id (fun _ _ => rfl)
      (fun _ h => h) fun _ _ => rfl
  · refine (hr.pool p).congr rfl rfl (fun _ _ => ⟨rfl, rfl⟩) fun b => ?_
    refine and_congr_left fun hon => ?_
    constructor
    · rintro ⟨s', hs', hb⟩
      exact ⟨s', ((hmem s').mp hs').2, hb⟩
    · rintro ⟨s', hs', hb⟩
      refine ⟨s', (hmem s').mpr ⟨?_, hs'⟩, hb⟩
      rintro rfl
      exact Place.ne_free_of_onList hon (hfree b hb)

/-! ### A new superblock -/

def Ghost.fresh (Λ : Layout) (g : Ghost Tid) (s : ℕ) : Ghost Tid :=
  { g with
    gl := [s]
    fl := Function.update g.fl s (blocksOf s)
    vl := fun b => if b ∈ blocksOf s then slotsOf Λ.toSizes b else g.vl b
    place := fun b => if b ∈ blocksOf s then .free else g.place b
    stage := Function.update g.stage s .fresh }

structure Apart (Λ : Layout) (m : Mem Tid) (g : Ghost Tid) (s : ℕ) : Prop where
  held : (newSuperblock Λ.toSizes s m).held = s :: m.held
  live : (newSuperblock Λ.toSizes s m).live = m.live
  init : (newSuperblock Λ.toSizes s m).init = m.init
  block : ∀ c, IsBlock m c → c ∉ blocksOf s
  vl : ∀ c, IsBlock m c → (g.fresh Λ s).vl c = g.vl c
  place : ∀ c, IsBlock m c → (g.fresh Λ s).place c = g.place c
  bctr : ∀ x ∈ m.held, ((newSuperblock Λ.toSizes s m).superblock x).bctr = (m.superblock x).bctr
  stage : ∀ x ∈ m.held, (g.fresh Λ s).stage x = g.stage x

theorem Fresh.apart (hf : Fresh m s) : Apart Λ m g s := by
  obtain ⟨hal, hdisj⟩ := hf
  have hne : ∀ x ∈ m.held, x ≠ s := by
    rintro x hx rfl
    rcases hdisj x hx with h | h <;> simp only [superblock_size] at h <;> omega
  have hblock : ∀ c, IsBlock m c → c ∉ blocksOf s := by
    rintro c ⟨x, hx, hc⟩ hcs
    have h1 := blocksOf_range hc
    have h2 := blocksOf_range hcs
    rcases hdisj x hx with h | h <;> simp only [block_size, superblock_size] at * <;> omega
  refine ⟨by rw [newSuperblock_eq Λ.fits m hal], by rw [newSuperblock_eq Λ.fits m hal],
    by rw [newSuperblock_eq Λ.fits m hal], hblock, fun c hc => if_neg (hblock c hc),
    fun c hc => if_neg (hblock c hc), fun x hx => ?_,
    fun x hx => Function.update_of_ne (hne x hx) _ _⟩
  rw [newSuperblock_eq Λ.fits m hal]
  simp only [Function.update_of_ne (hne x hx)]

theorem Apart.isBlock (h : Apart Λ m g s) {c : ℕ} (hc : IsBlock m c) :
    IsBlock (newSuperblock Λ.toSizes s m) c := by
  obtain ⟨x, hx, hc⟩ := hc
  exact ⟨x, by rw [h.held]; simp [hx], hc⟩

/-- A block is a block of the new superblock, or an old one. -/
theorem Apart.isBlock_cases (h : Apart Λ m g s) {c : ℕ}
    (hc : IsBlock (newSuperblock Λ.toSizes s m) c) :
    c ∈ blocksOf s ∨ IsBlock m c := by
  obtain ⟨x, hx, hc⟩ := hc
  rw [h.held] at hx
  rcases List.mem_cons.mp hx with rfl | hx
  · exact Or.inl hc
  · exact Or.inr ⟨x, hx, hc⟩

theorem Apart.held_cases (h : Apart Λ m g s) {x : ℕ} (hx : x ∈ (newSuperblock Λ.toSizes s m).held) :
    x = s ∧ (g.fresh Λ s).stage x = .fresh ∨ x ∈ m.held ∧ (g.fresh Λ s).stage x = g.stage x := by
  rw [h.held] at hx
  rcases List.mem_cons.mp hx with rfl | hx
  · exact Or.inl ⟨rfl, Function.update_self _ _ _⟩
  · exact Or.inr ⟨hx, h.stage x hx⟩

/-- The global list was empty, and the system gives a superblock. -/
theorem Rep.newSuperblock (hr : Rep Λ m g) (hg : m.gpoolHead = none) (hf : Fresh m s) :
    Rep Λ (newSuperblock Λ.toSizes s m) (g.fresh Λ s) := by
  obtain ⟨hal, hapart⟩ := hf
  have hgl : g.gl = [] := List.head?_eq_none_iff.mp (hr.gpool.head.symm.trans hg)
  have hsm : s ∉ m.held := fun h => by
    rcases hapart s h with h | h <;> simp only [superblock_size] at h <;> omega
  have hne : ∀ s' ∈ m.held, s' ≠ s := fun s' h he => hsm (he ▸ h)
  have hdisj : ∀ s' ∈ m.held, ∀ b ∈ blocksOf s', b ∉ blocksOf s := by
    intro s' hs' b hb hb'
    have h1 := blocksOf_range hb
    have h2 := blocksOf_range hb'
    rcases hapart s' hs' with h | h <;> simp only [block_size, superblock_size] at * <;> omega
  have hslot : ∀ s' ∈ m.held, ∀ b ∈ blocksOf s', ∀ v ∈ slotsOf Λ.toSizes b,
      ¬ AtSlot Λ.toSizes (s + BLOCK_SIZE) SUPERBLOCK_CTR_FULL v := by
    intro s' hs' b hb v hv hat
    have h1 := blocksOf_range hb
    have h2 := slotsOf_range Λ.fits hv
    have h3 := hat.1
    have h4 := hat.2.1
    rcases hapart s' hs' with h | h <;>
      simp only [block_size, superblock_size, superblock_ctr_full] at * <;> omega
  rw [newSuperblock_eq Λ.fits m hal]
  simp only [atBlock_iff]
  refine ⟨⟨List.nodup_cons.mpr ⟨hsm, hr.held.nodup⟩, ?_, ?_⟩,
    ⟨rfl, ?_, by simp [Ghost.fresh], fun x => ?_,
    fun x hx hσ => ?_⟩, fun s' hs' => ?_, fun s' hs' b hb => ?_, fun p => ?_⟩
  · intro x hx
    rcases List.mem_cons.mp hx with rfl | hx
    · exact hal
    · exact hr.held.aligned x hx
  · intro x hx y hy hxy
    rcases List.mem_cons.mp hx with rfl | hx' <;> rcases List.mem_cons.mp hy with rfl | hy'
    · exact absurd rfl hxy
    · exact hapart y hy'
    · exact (hapart x hx').symm
    · exact hr.held.apart x hx' y hy' hxy
  · simp [Ghost.fresh]
  · simp only [Ghost.fresh, List.mem_cons]
    by_cases hxs : x = s
    · subst hxs
      simp [Stage.Linked]
    · have := hr.gpool.mem_iff x
      rw [hgl] at this
      simpa [hxs] using this
  · have hxs : x ≠ s := by
      rintro rfl
      simp [Ghost.fresh] at hσ
    simp only [Function.update_of_ne hxs]
    exact hr.gpool.off_prev x ((List.mem_cons.mp hx).resolve_left hxs)
      (by simpa [Ghost.fresh, hxs] using hσ)
  · rcases List.mem_cons.mp hs' with rfl | hs'
    · refine ⟨by simp [Ghost.fresh], by simp [Ghost.fresh, Stage.Bctr], fun _ => ?_,
        by simpa [Ghost.fresh] using nodup_blocksOf s', fun b => ?_⟩
      · simp only [Ghost.fresh, Function.update_self]
        refine chain_blocksOf s' fun b hb => ?_
        simp only [if_pos hb, setupHeader]
      · simp only [Ghost.fresh, Function.update_self]
        exact ⟨fun hb => ⟨hb, if_pos hb⟩, fun h => h.1⟩
    · have h := hr.super s' hs'
      refine h.congr (Function.update_of_ne (hne s' hs') _ _) ?_ ?_ (fun b hb => ?_) fun b hb => ?_
      · simp [Ghost.fresh, hne s' hs']
      · simp [Ghost.fresh, hne s' hs']
      · simp only [if_neg (hdisj s' hs' b ((h.mem_iff b).mp hb).1)]
      · simp only [Ghost.fresh, if_neg (hdisj s' hs' b hb)]
  · rcases List.mem_cons.mp hs' with rfl | hs'
    · have hbal : b % BLOCK_SIZE = 0 := by rw [(blocksOf_range hb).2.2, hal]
      have hn := length_slotsOf Λ.toSizes b
      refine ⟨?_, ?_, fun _ => ?_, ?_, fun v hv => ?_, ?_, fun p hp => ?_, fun p hp => ?_⟩
      · simp only [if_pos hb, setupHeader]
      · simp only [if_pos hb, setupHeader, Ghost.fresh, hn, Nat.zero_add]
      · simp only [if_pos hb, setupHeader, Ghost.fresh]
        refine slotNext_chain Λ.fits fun v hv => ?_
        rw [if_pos (atSlot_of_mem Λ.fits hal hb hv), sVma2block_slot Λ.fits hbal hv]
      · simp only [Ghost.fresh, if_pos hb]
        exact nodup_slotsOf Λ.fits b
      · simpa only [Ghost.fresh, if_pos hb] using hv
      · simp only [Ghost.fresh, if_pos hb, hn, Place.Len]
      · simp [Ghost.fresh, if_pos hb, Place.owner] at hp
      · simp [Ghost.fresh, if_pos hb] at hp
    · have hbs := hdisj s' hs' b hb
      have h := hr.block s' hs' b hb
      refine h.congr ?_ ?_ ?_ ?_ ?_ ?_ ?_ (fun v hv => ?_) (fun _ h => h) fun _ _ => ?_
      all_goals try simp only [if_neg hbs, Ghost.fresh]
      · rw [Function.update_of_ne (hne s' hs')]
        exact id
      · rw [if_neg (hslot s' hs' b hb v (h.sub v hv))]
  · refine (hr.pool p).congr rfl rfl (fun b hb => ?_) fun b => ?_
    · obtain ⟨s', hs', hbs⟩ := (((hr.pool p).mem_iff b).mp hb).1
      simp only [if_neg (hdisj s' hs' b hbs), and_self]
    · by_cases hbs : b ∈ blocksOf s
      · have hnb : ¬ IsBlock m b := fun ⟨s', hs', h⟩ => hdisj s' hs' b h hbs
        simp [Ghost.fresh, hbs, hnb]
      · simp only [Ghost.fresh, if_neg hbs]
        refine and_congr_left fun _ => ?_
        simp only [IsBlock, List.mem_cons, exists_eq_or_imp, hbs, false_or]

theorem Rep.outside (hr : Rep Λ m g) (live : List ℕ) (log : List (Event Tid)) :
    Rep Λ { m with live := live, log := log } g := by
  refine ⟨⟨hr.held.nodup, hr.held.aligned, hr.held.apart⟩,
    hr.gpool.congr rfl rfl (fun _ => ⟨rfl, rfl⟩) rfl (fun _ _ => Iff.rfl) fun _ _ h =>
    h, fun s hs => ?_,
    fun s hs b hb => ?_, fun p => ?_⟩
  · exact (hr.super s hs).congr rfl rfl rfl (fun _ _ => rfl) fun _ _ => Iff.rfl
  · exact (hr.block s hs b hb).congr rfl rfl rfl rfl rfl rfl id (fun _ _ => rfl) (fun _ h => h)
      fun _ _ => rfl
  · exact (hr.pool p).congr rfl rfl (fun _ _ => ⟨rfl, rfl⟩) fun _ => Iff.rfl

end OpenOOC.Vma
