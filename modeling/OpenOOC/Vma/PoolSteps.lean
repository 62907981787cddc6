import OpenOOC.Vma.Rep

/-! What the code that works on a thread's pool does to the lists: taking a
struct, filing one, and moving a block onto and off the list of its pool. -/

namespace OpenOOC.Vma

open Links

/-! ### Counting -/

section

variable {α : Type*} {L L' : List α}

theorem length_lt_of_missing (hnd : L.Nodup) (hsub : ∀ a ∈ L, a ∈ L') {a : α} (ha : a ∈ L')
    (hna : a ∉ L) : L.length < L'.length :=
  (List.subperm_of_subset (List.nodup_cons.mpr ⟨hna, hnd⟩)
    (List.cons_subset.mpr ⟨ha, hsub⟩)).length_le

theorem length_rest [DecidableEq α] (hnd : L.Nodup) (hnd' : L'.Nodup) (hsub : ∀ a ∈ L, a ∈ L') :
    L.length + (L'.filter (· ∉ L)).length = L'.length := by
  have hperm : (L'.filter (· ∈ L)).Perm L := by
    refine (List.perm_ext_iff_of_nodup (hnd'.filter _) hnd).mpr fun a => ?_
    rw [List.mem_filter, decide_eq_true_iff]
    exact ⟨And.right, fun h => ⟨hsub a h, h⟩⟩
  rw [← hperm.length_eq, List.length_eq_countP_add_countP (· ∈ L) (l := L'),
    List.countP_eq_length_filter,
    List.countP_eq_length_filter]
  simp only [decide_eq_true_eq]

end

variable {Tid : Type} {Λ : Layout} {m m' : Mem Tid} {g g' : Ghost Tid} {s b v : ℕ} {p t : Tid}

theorem Rep.vl_lt (hr : Rep Λ m g) (hb : IsBlock m b) (hv : v ∈ slotsOf Λ.toSizes b)
    (hn : v ∉ g.vl b) :
    (g.vl b).length < BLOCK_CTR_FULL Λ.toSizes := by
  obtain ⟨s, hs, hbs⟩ := hb
  have h := hr.block s hs b hbs
  simpa using length_lt_of_missing h.nodup h.sub hv hn

theorem Rep.mem_vl (hr : Rep Λ m g) (hb : IsBlock m b) (hv : v ∈ slotsOf Λ.toSizes b)
    (hl : (g.vl b).length = BLOCK_CTR_FULL Λ.toSizes) : v ∈ g.vl b := by
  by_contra hn
  have := hr.vl_lt hb hv hn
  omega

theorem Rep.bctr_pos (hr : Rep Λ m g) (hs : s ∈ m.held) (hb : b ∈ blocksOf s)
    (hp : g.place b ≠ .free) :
    0 < (m.superblock s).bctr := by
  have h := hr.super s hs
  have hlt := length_lt_of_missing h.nodup (fun a ha => ((h.mem_iff a).mp ha).1) hb
    (hr.not_mem_fl hs hp)
  rw [length_blocksOf] at hlt
  have := h.count
  omega

theorem Stage.bctr_zero {σ : Stage} {k : ℕ} (h : σ.Bctr k)
    (hσ : σ = .fresh ∨ σ = .putting ∨ σ = .detached) :
    k = 0 := by
  rcases hσ with rfl | rfl | rfl <;> exact h

theorem Rep.stage_ne (hr : Rep Λ m g) (hs : s ∈ m.held) (hb : b ∈ blocksOf s)
    (hp : g.place b ≠ .free) :
    g.stage s ≠ .detached := by
  intro hd
  have h1 := hr.bctr_pos hs hb hp
  have h2 := Stage.bctr_zero (hr.super s hs).stage (by simp [hd])
  omega

/-- When no block is counted as stolen, all are free. -/
theorem Rep.free_of_bctr (hr : Rep Λ m g) (hs : s ∈ m.held) (h0 : (m.superblock s).bctr = 0)
    (hb : b ∈ blocksOf s) : g.place b = .free := by
  by_contra hp
  have := hr.bctr_pos hs hb hp
  omega

theorem Place.ne_free_of_onList {q : Place Tid} (h : q.onList = some p) : q ≠ .free := by
  rintro rfl
  cases h

theorem Place.owner_of_onList {q : Place Tid} (h : q.onList = some p) : q.owner = some p := by
  cases q <;> simp_all [onList, owner]

/-! ### Steps on one pool -/

/-- What code on a pool does not write stays the same. -/
def Mem.PoolStep (m m' : Mem Tid) : Prop :=
  ∃ blk vn mp, m' = { m with block := blk, vmNext := vn, mpoolHead := mp }

def Relinked (B B' : Block Tid) : Prop := ∃ q n, B' = { B with prev := q, next := n }

theorem Relinked.refl (B : Block Tid) : Relinked B B := ⟨B.prev, B.next, rfl⟩

/-- A step on a pool that changes the place and the structs of `b` only. -/
structure BlockStep (m : Mem Tid) (g : Ghost Tid) (m' : Mem Tid) (g' : Ghost Tid) (b : ℕ) :
    Prop where
  mem : m.PoolStep m'
  gl : g'.gl = g.gl
  fl : g'.fl = g.fl
  stage : g'.stage = g.stage
  vl : ∀ c, c ≠ b → g'.vl c = g.vl c
  place : ∀ c, c ≠ b → g'.place c = g.place c

/-- What `Rep` asks after a step on the block `b` and the list of the pool `p`. -/
theorem Rep.pool_step (hr : Rep Λ m g) (hst : BlockStep m g m' g' b)
    (hmp : ∀ p', p' ≠ p → m'.mpoolHead p' = m.mpoolHead p')
    (hblk : ∀ c, c ≠ b → c ∉ g.pl p → m'.block c = m.block c)
    (hbody : ∀ c, c ≠ b → Relinked (m.block c) (m'.block c))
    (hvm : ∀ c, IsBlock m c → c ≠ b → ∀ v ∈ g.vl c, m'.vmNext v = m.vmNext v)
    (hpl : ∀ p', p' ≠ p → g'.pl p' = g.pl p') (hfree : g.place b ≠ .free)
    (hfree' : g'.place b ≠ .free) (hon : ∀ p', p' ≠ p → (g.place b).onList ≠ some p')
    (hon' : ∀ p', p' ≠ p → (g'.place b).onList ≠ some p')
    (hb : ∀ s ∈ m.held, b ∈ blocksOf s → BlockRep Λ m' g' s b) (hp : PoolRep m' g' p) :
    Rep Λ m' g' := by
  obtain ⟨hst, hgl, hfl, hstage, hvl, hplace⟩ := hst
  have hheld : m'.held = m.held := by obtain ⟨blk, vn, mp, rfl⟩ := hst; rfl
  have hgh : m'.gpoolHead = m.gpoolHead := by obtain ⟨blk, vn, mp, rfl⟩ := hst; rfl
  have hsb : m'.superblock = m.superblock := by obtain ⟨blk, vn, mp, rfl⟩ := hst; rfl
  have hi : ∀ p, m.init p = true → m'.init p = true := by
    obtain ⟨blk, vn, mp, rfl⟩ := hst; exact fun _ h => h
  have hin : ∀ c, c ∈ g.pl p → (g.place c).onList = some p :=
    fun c hc => (((hr.pool p).mem_iff c).mp hc).2
  refine ⟨⟨hheld ▸ hr.held.nodup, hheld ▸ hr.held.aligned, hheld ▸ hr.held.apart⟩, ?_,
    fun s hs => ?_,
    fun s hs c hc => ?_, fun p' => ?_⟩
  · obtain ⟨h1, h2, h3, h4, h5⟩ := hr.gpool
    exact ⟨by rw [hgh, hgl, h1], by rw [hsb, hgl]; exact h2, by rw [hgl]; exact h3,
      by rw [hgl, hstage, hheld]; exact h4, by rw [hstage, hheld, hsb]; exact h5⟩
  · rw [hheld] at hs
    refine (hr.super s hs).congr (by rw [hsb]) (by rw [hstage]) (by rw [hfl]) (fun c hc => ?_)
      fun c _ => ?_
    · have hcf := (((hr.super s hs).mem_iff c).mp hc).2
      rw [hblk c]
      · rintro rfl
        exact hfree hcf
      · intro hcp
        exact Place.ne_free_of_onList (hin c hcp) hcf
    · by_cases hcb : c = b
      · subst hcb
        simp [hfree, hfree']
      · rw [hplace c hcb]
  · rw [hheld] at hs
    by_cases hcb : c = b
    · subst hcb
      exact hb s hs hc
    · obtain ⟨q, n, he⟩ := hbody c hcb
      refine (hr.block s hs c hc).congr (by rw [he]) (by rw [he]) (by rw [he]) (by rw [he])
        (hvl c hcb)
        (hplace c hcb) (by rw [hstage]; exact id) (hvm c ⟨s, hs, hc⟩ hcb) hi fun p' hp' => ?_
      rw [hblk c hcb]
      intro hcp
      have := hin c hcp
      rcases hp' with h | h <;> rw [h] at this <;> cases this
  · by_cases hpp : p' = p
    · subst hpp
      exact hp
    · have hin' : ∀ c ∈ g.pl p', c ≠ b ∧ c ∉ g.pl p := by
        intro c hc
        have h1 := (((hr.pool p').mem_iff c).mp hc).2
        refine ⟨?_, fun h2 => hpp ?_⟩
        · rintro rfl
          exact hon p' hpp h1
        · exact Option.some.inj (h1.symm.trans (hin c h2))
      refine (hr.pool p').congr (hmp p' hpp) (hpl p' hpp) (fun c hc => ?_) fun c => ?_
      · rw [hblk c (hin' c hc).1 (hin' c hc).2]
        exact ⟨rfl, rfl⟩
      · rw [isBlock_congr hheld]
        by_cases hcb : c = b
        · subst hcb
          simp [hon p' hpp, hon' p' hpp]
        · rw [hplace c hcb]

theorem Rep.seg_mem_mapped (hr : Rep Λ m g) {c : ℕ} (hc : c ∈ g.pl p) : m.Mapped c :=
  mapped_block (((hr.pool p).mem_iff c).mp hc).1

theorem Rep.head_vl (hr : Rep Λ m g) (hb : IsBlock m b) (hp : g.place b ≠ .free) :
    (m.block b).head = (g.vl b).head? := by
  obtain ⟨s, hs, hbs⟩ := hb
  exact ((hr.block s hs b hbs).chain (hr.stage_ne hs hbs hp)).head

/-! ### Filing a struct -/

/-- Where the block of a filed struct is then, if it has `k` free structs now. -/
def filedPlace (n k : ℕ) (p : Tid) : Place Tid :=
  if k + 1 = n then .emptied p else if k = 0 then .refilled p else .pooled p

def filedPc (n k : ℕ) (b : ℕ) (p : Tid) : Pc Tid :=
  if k + 1 = n then .freeGetMpoolEmpty b p else if k = 0 then .freeGetMpoolFull b p
    else .freeLetBlock b

attribute [local simp] filedPlace filedPc

theorem Rep.freePush (hr : Rep Λ m g) (hb : IsBlock m b)
    (hp : g.place b = .pooled p ∨ g.place b = .full p)
    (hv : v ∈ slotsOf Λ.toSizes b) (hvn : v ∉ g.vl b) :
    ∃ m' g', freePush m b v = some (m', filedPc (BLOCK_CTR_FULL Λ.toSizes) (g.vl b).length b p) ∧
      BlockStep m g m' g' b ∧ g'.vl b = v :: g.vl b ∧
      g'.place b = filedPlace (BLOCK_CTR_FULL Λ.toSizes) (g.vl b).length p ∧ Rep Λ m' g' := by
  have hmap := mapped_block hb
  have hvmap := mapped_slot hb hv
  have hfree : g.place b ≠ .free := by rcases hp with h | h <;> simp [h]
  have hhead := hr.head_vl hb hfree
  have hlt := hr.vl_lt hb hv hvn
  have h2 := Λ.two_le
  obtain ⟨s, hs, hbs⟩ := id hb
  have hB := hr.block s hs b hbs
  have hcount := hB.count
  have hdecr : decr (m.block b).vctr = (m.block b).vctr - 1 := if_neg (by omega)
  have hown := hB.owner p (by rcases hp with h | h <;> simp [h, Place.owner])
  have hon : (g.place b).onList = if (g.vl b).length = 0 then none else some p := by
    have := hB.len
    rcases hp with h | h <;> rw [h] at this <;> simp only [Place.Len] at this
    · rw [h, if_neg (by omega), Place.onList_pooled]
    · rw [h, if_pos this, Place.onList_full]
  set m' : Mem Tid := Mem.modBlock { m with vmNext := Function.update m.vmNext v (m.block b).head }
    b
    fun B => { B with head := some v, vctr := decr B.vctr } with hm'
  set g' : Ghost Tid := { g with
    vl := Function.update g.vl b (v :: g.vl b)
    place := Function.update g.place b
      (filedPlace (BLOCK_CTR_FULL Λ.toSizes) (g.vl b).length p) } with hg'
  have hon' : (g'.place b).onList = (g.place b).onList := by
    rw [hon]
    simp only [hg', Function.update_self, filedPlace]
    split_ifs <;> simp_all; omega
  have hst : BlockStep m g m' g' b :=
    ⟨⟨_, _, _, rfl⟩, rfl, rfl, rfl, fun _ hc => Function.update_of_ne hc _ _,
      fun _ hc => Function.update_of_ne hc _ _⟩
  refine ⟨m', g', ?_, hst, by simp [hg'], by simp [hg'], ?_⟩
  · have hempty : decr (m.block b).vctr = 0 ↔ (g.vl b).length + 1 = BLOCK_CTR_FULL Λ.toSizes := by
      omega
    have hfull : (m.block b).head = none ↔ (g.vl b).length = 0 := by
      rw [hhead, List.head?_eq_none_iff, List.length_eq_zero_iff]
    unfold OpenOOC.Vma.freePush
    simp only [getBlock_eq hmap, setVma_eq hvmap, Option.bind_eq_bind, Option.bind_some]
    rw [setBlock_eq]
    · simp only [Option.bind_some, hempty, hfull, hown.1, filedPc]
      split_ifs <;> rfl
    · exact hmap
  · refine hr.pool_step (p := p) hst (fun _ _ => rfl) (fun c hc _ => by simp [hm', hc])
      (fun c hc => by simpa [hm', hc] using Relinked.refl _) (fun c hcB hc w hw => ?_)
      (fun _ _ => rfl) hfree
      ?_ (fun p' hp' => ?_) (fun p' hp' => ?_) (fun s' hs' hbs' => ?_) ?_
    · exact Function.update_of_ne (hr.slot_ne hcB hb hc hw hv) _ _
    · simp only [hg', Function.update_self, filedPlace]
      split_ifs <;> simp
    · rw [hon]
      split_ifs <;> simp [hp'.symm]
    · rw [hon', hon]
      split_ifs <;> simp [hp'.symm]
    · obtain rfl := hr.held.block_unique hs hs' hbs hbs'
      have hchain := hB.chain (hr.stage_ne hs hbs hfree)
      refine ⟨?_, ?_, fun _ => ?_, ?_, fun w hw => ?_, ?_, fun p' hp' => ?_, fun p' hp' => ?_⟩
      · simpa [hm'] using hB.superblock
      · simp only [hm', hg', Mem.modBlock_block, if_true, hdecr, Function.update_self,
          List.length_cons]
        omega
      · simp only [hm', hg', Mem.modBlock_block, if_true, Mem.modBlock_vmNext, Function.update_self,
          chain_cons,
          true_and]
        refine hchain.congr fun w hw => Function.update_of_ne ?_ _ _
        rintro rfl
        exact hvn hw
      · simpa [hg'] using ⟨hvn, hB.nodup⟩
      · simp only [hg', Function.update_self, List.mem_cons] at hw
        rcases hw with rfl | hw
        · exact hv
        · exact hB.sub w hw
      · simp only [hg', Function.update_self, List.length_cons, filedPlace]
        split_ifs <;> simp only [Place.Len] <;> omega
      · obtain rfl : p = p' := by
          simp only [hg', Function.update_self, filedPlace] at hp'
          split_ifs at hp' <;> exact Option.some.inj hp'
        simpa [hm'] using hown
      · simp only [hg', Function.update_self, filedPlace] at hp'
        have h0 : (g.vl b).length = 0 := by
          split_ifs at hp' with h1 h3 <;> simp_all
        have hfull : g.place b = .full p := by
          refine hp.resolve_left fun h => ?_
          have := hB.len
          rw [h] at this
          simp only [Place.Len] at this
          omega
        simpa [hm'] using hB.off_prev p (Or.inl hfull)
    · refine (hr.pool p).congr rfl rfl (fun c hc => ?_) fun c => ?_
      · by_cases hcb : c = b
        · subst hcb; simp [hm']
        · simp [hm', hcb]
      · change IsBlock m c ∧ _ ↔ _
        by_cases hcb : c = b
        · subst hcb; rw [hon']
        · simp [hg', hcb]

/-! ### Taking a struct -/

def Ghost.take (g : Ghost Tid) [DecidableEq Tid] (t : Tid) (b : ℕ) (vs : List ℕ) : Ghost Tid :=
  { g with
    vl := Function.update g.vl b vs
    place := Function.update g.place b (if vs = [] then .full t else .pooled t)
    pl := Function.update g.pl t (if vs = [] then (g.pl t).tail else g.pl t) }

attribute [local simp] Ghost.take

variable [DecidableEq Tid]

theorem Ghost.take_step (g : Ghost Tid) (t : Tid) (vs : List ℕ) (h : m.PoolStep m') :
    BlockStep m g m' (g.take t b vs) b :=
  ⟨h, rfl, rfl, rfl, fun _ hc => Function.update_of_ne hc _ _,
    fun _ hc => Function.update_of_ne hc _ _⟩

theorem Rep.allocTake (hr : Rep Λ m g) (hb : IsBlock m b) (hon : (g.place b).onList = some t)
    (hh : (g.vl b).length = 1 → m.mpoolHead t = some b) :
    ∃ v vs m', g.vl b = v :: vs ∧ allocTake Λ t m b = some (m', .allocLetMpool b v) ∧
      BlockStep m g m' (g.take t b vs) b ∧ Rep Λ m' (g.take t b vs) := by
  have hfree := Place.ne_free_of_onList hon
  have hmap := mapped_block hb
  have hhead := hr.head_vl hb hfree
  obtain ⟨s, hs, hbs⟩ := id hb
  have hB := hr.block s hs b hbs
  have hchain := hB.chain (hr.stage_ne hs hbs hfree)
  have hlen : 0 < (g.vl b).length := by
    have h2 := Λ.two_le
    have hl := hB.len
    cases hq : g.place b <;> rw [hq] at hl hon <;> simp_all [Place.Len, Place.onList]; omega
  obtain ⟨v, vs, hvl⟩ : ∃ v vs, g.vl b = v :: vs := List.exists_cons_of_length_pos hlen
  rw [hvl] at hhead hchain
  have hv : v ∈ slotsOf Λ.toSizes b := hB.sub v (by simp [hvl])
  have hvmap := mapped_slot hb hv
  have hnext : m.vmNext v = vs.head? := hchain.2.head
  refine ⟨v, vs, ?_⟩
  unfold OpenOOC.Vma.allocTake
  simp only [getBlock_eq hmap, Option.bind_eq_bind, Option.bind_some, hhead, List.head?_cons,
    getVma_eq hvmap,
    setBlock_eq hmap, hnext]
  have hcount : (m.block b).vctr + 1 + vs.length = BLOCK_CTR_FULL Λ.toSizes := by
    rw [← hB.count, hvl, List.length_cons]
    omega
  have hvn : v ∉ vs ∧ vs.Nodup := List.nodup_cons.mp (hvl ▸ hB.nodup)
  have hown := hB.owner t (Place.owner_of_onList hon)
  by_cases hvs : vs = []
  · -- the block is full now and leaves the list, of which it is the head
    subst hvs
    have hP := hr.pool t
    obtain ⟨L, hL⟩ : ∃ L, g.pl t = b :: L := by
      have h1 := hP.head.symm.trans (hh (by simp [hvl]))
      exact ⟨(g.pl t).tail, (List.cons_head?_tail h1).symm⟩
    have hnd := List.nodup_cons.mp (hL ▸ hP.nodup)
    have hseg := hL ▸ hP.seg
    have hprev : (m.block b).prev = none := hseg.1
    have hnextb : (m.block b).next = L.head? := by simpa using hseg.2.1
    have hmapL : ∀ c, L.head? = some c → m.Mapped c := fun c hc =>
      hr.seg_mem_mapped (hL ▸ List.mem_cons_of_mem _ (List.mem_of_head? hc))
    refine ⟨((m.modBlock b fun B => { B with head := none, vctr := B.vctr + 1 }).setMpoolHead t
      L.head?).modBlockIf L.head? fun N => { N with prev := none }, hvl, ?_,
        g.take_step t [] ⟨_, _, _, rfl⟩, ?_⟩
    · rw [if_pos (show ([] : List ℕ).head? = none from rfl), hprev, hnextb, setBlockIf_eq,
        guard_pos (by simpa using hcount.symm)]
      · rfl
      · exact hmapL
    · have hL1 : ∀ c ∈ L, c ≠ b := fun c hc he => hnd.1 (he ▸ hc)
      refine hr.pool_step (p := t) (g.take_step t [] ⟨_, _, _, rfl⟩) (fun p' hp => by simp [hp])
        (fun c hc hcL => ?_) (fun c hc => ?_) (fun _ _ _ _ _ => rfl) (fun p' hp => by simp [hp])
        hfree (by simp) (fun p' hp => ?_) (fun p' hp => by simp)
        (fun s' hs' hbs' => ?_) ?_
      · rw [hL, List.mem_cons, not_or] at hcL
        have hne : L.head? ≠ some c := fun h => hcL.2 (List.mem_of_head? h)
        simp [hc, hne]
      · simp only [Mem.modBlockIf_block, Mem.setMpoolHead_block, Mem.modBlock_block, if_neg hc]
        split_ifs
        · exact ⟨_, _, rfl⟩
        · exact Relinked.refl _
      · rw [hon]
        simpa using hp.symm
      · obtain rfl := hr.held.block_unique hs hs' hbs hbs'
        have hne : L.head? ≠ some b := fun h => hnd.1 (List.mem_of_head? h)
        refine ⟨?_, ?_, fun _ => ?_, ?_, fun w hw => ?_, ?_, fun p' hp => ?_, fun p' hp => ?_⟩
        · simpa [hne] using hB.superblock
        · simpa [hne] using hcount
        · simp [hne]
        · simp
        · simp at hw
        · simp [Place.Len]
        · obtain rfl : t = p' := by simpa [Place.owner] using hp
          simpa [hne] using hown
        · simpa [hne] using hprev
      · refine ⟨by simp [hL], ?_, ?_, fun c => ?_⟩
        · simp only [Ghost.take, hL, if_true, Function.update_self, List.tail_cons]
          refine hseg.2.2.set_entry hnd.2 (fun c hc => ?_) fun c hc => ?_
          · simp [hL1 c hc]
            split_ifs <;> rfl
          · simp [hL1 c hc]
            split_ifs <;> rfl
        · simpa [hL] using hnd.2
        · change _ ↔ IsBlock m c ∧ _
          by_cases hcb : c = b
          · subst hcb; simp [hL, hnd.1]
          · have := hP.mem_iff c
            rw [hL] at this
            simpa [hL, hcb] using this
  · rw [if_neg (by simpa using hvs)]
    refine ⟨_, hvl, rfl, g.take_step t vs ⟨_, _, _, rfl⟩, ?_⟩
    refine hr.pool_step (p := t) (g.take_step t vs ⟨_, _, _, rfl⟩) (fun _ _ => rfl)
      (fun c hc _ => if_neg hc) (fun c hc => ?_) (fun _ _ _ _ _ => rfl)
      (fun p' hp => by simp [hp]) hfree (by simp [hvs]) (fun p' hp => ?_)
      (fun p' hp => by simp [hvs, hp.symm]) (fun s' hs' hbs' => ?_) ?_
    · simpa [hc] using Relinked.refl _
    · rw [hon]
      simpa using hp.symm
    · obtain rfl := hr.held.block_unique hs hs' hbs hbs'
      refine ⟨?_, ?_, fun _ => ?_, ?_, fun w hw => ?_, ?_, fun p' hp => ?_, fun p' hp => ?_⟩
      · simpa using hB.superblock
      · simpa using hcount
      · simpa [hnext] using hchain.2
      · simpa using hvn.2
      · exact hB.sub w (by simp_all [Ghost.take])
      · have := List.length_pos_iff.mpr hvs
        simp only [Ghost.take, Function.update_self, if_neg hvs, Place.Len]
        omega
      · obtain rfl : t = p' := by simpa [hvs, Place.owner] using hp
        simpa using hown
      · simp [hvs] at hp
    · refine (hr.pool t).congr rfl (by simp [hvs]) (fun c hc => ?_) fun c => ?_
      · by_cases hcb : c = b
        · subst hcb; simp
        · simp [hcb]
      · change IsBlock m c ∧ _ ↔ _
        by_cases hcb : c = b
        · subst hcb; simp [hvs, hon]
        · simp [hcb]

/-- A stolen block becomes the list of a pool that is empty. -/
theorem Rep.allocPush (hr : Rep Λ m g) (hb : IsBlock m b) (hp : g.place b = .stolen)
    (hm : m.mpoolHead t = none) (hi : m.init t = true) :
    ∃ v vs m' g', g.vl b = v :: vs ∧ vs ≠ [] ∧ allocPush Λ t m b = some (m', .allocLetMpool b v) ∧
      BlockStep m g m' g' b ∧ g'.vl b = vs ∧ g'.place b = .pooled t ∧ Rep Λ m' g' := by
  have hmap := mapped_block hb
  have hpl : g.pl t = [] := List.head?_eq_none_iff.mp ((hr.pool t).head.symm.trans hm)
  set m1 : Mem Tid := (m.setMpoolHead t (some b)).modBlock b fun B =>
    { B with prev := none, next := none, mpool := some t } with hm1
  set g1 : Ghost Tid := { g with
    place := Function.update g.place b (.emptied t)
    pl := Function.update g.pl t [b] } with hg1
  have hstep : BlockStep m g m1 g1 b :=
    ⟨⟨_, _, _, rfl⟩, rfl, rfl, rfl, fun _ _ => rfl, fun _ hc => Function.update_of_ne hc _ _⟩
  have hlen : (g.vl b).length = BLOCK_CTR_FULL Λ.toSizes := by
    obtain ⟨s, hs, hbs⟩ := hb
    have := (hr.block s hs b hbs).len
    rwa [hp] at this
  have hr1 : Rep Λ m1 g1 := by
    refine hr.pool_step (p := t) hstep (fun p' hp => by simp [hm1, hp])
      (fun c hc _ => by simp [hm1, hc])
      (fun c hc => by simpa [hm1, hc] using Relinked.refl _) (fun _ _ _ _ _ => rfl)
      (fun p' hp => by simp [hg1, hp]) (by simp [hp]) (by simp [hg1]) (fun p' _ => by simp [hp])
      (fun p' hp' => by simp [hg1, hp'.symm]) (fun s hs hbs => ?_) ?_
    · have hB := hr.block s hs b hbs
      have hd := hr.stage_ne hs hbs (by simp [hp])
      refine ⟨by simpa [hm1] using hB.superblock, by simpa [hm1, hg1] using hB.count,
        fun _ => by
          simpa [hm1, hg1] using hB.chain hd, hB.nodup, hB.sub, by
            simpa [hg1, Place.Len] using hlen,
        fun p' hp' => ?_, fun p' hp' => ?_⟩
      · obtain rfl : t = p' := by simpa [hg1, Place.owner] using hp'
        simpa [hm1] using hi
      · simp [hg1] at hp'
    · refine ⟨by simp [hm1, hg1], by simp [hm1, hg1], by simp [hg1], fun c => ?_⟩
      change _ ↔ IsBlock m c ∧ _
      by_cases hcb : c = b
      · subst hcb; simp [hg1, hb]
      · have := (hr.pool t).mem_iff c
        rw [hpl] at this
        simpa [hg1, hcb] using this
  have hb1 : IsBlock m1 b := hb
  obtain ⟨v, vs, m', hvl, he, hst, hr'⟩ :=
    hr1.allocTake (t := t) hb1 (by simp [hg1]) (by simp [hm1])
  have hvs : vs ≠ [] := by
    rintro rfl
    have h2 := Λ.two_le
    change g.vl b = [v] at hvl
    rw [hvl, List.length_singleton] at hlen
    omega
  refine ⟨v, vs, m', g1.take t b vs, hvl, hvs, ?_, ⟨?_, rfl, rfl, rfl, ?_, ?_⟩, by simp,
    by simp [hvs], hr'⟩
  · rw [OpenOOC.Vma.allocPush, setBlock_eq (m := m.setMpoolHead t (some b)) hmap]
    exact he
  · obtain ⟨blk, vn, mp, rfl⟩ := hst.mem
    exact ⟨blk, vn, mp, rfl⟩
  · exact fun c hc => (hst.vl c hc).trans (hstep.vl c hc)
  · exact fun c hc => (hst.place c hc).trans (hstep.place c hc)

/-! ### Moving a block off and onto the list -/

/-- A block with no live struct leaves the list, wherever it is on it. -/
theorem Rep.freeUnlink (hr : Rep Λ m g) (hb : IsBlock m b) (hp : g.place b = .emptied p) :
    ∃ m' g', freeUnlink m b p = some (m', .freeLetMpoolEmpty b p) ∧ BlockStep m g m' g' b ∧
      g'.vl b = g.vl b ∧ g'.place b = .returning ∧ Rep Λ m' g' := by
  have hmap := mapped_block hb
  have hP := hr.pool p
  obtain ⟨L1, L2, hL⟩ := List.append_of_mem ((hP.mem_iff b).mpr ⟨hb, by simp [hp]⟩)
  have hseg := hL ▸ hP.seg
  have hnd := hL ▸ hP.nodup
  have hprev : (m.block b).prev = L1.getLast? := by simpa using hseg.prev_of_mem
  have hnext : (m.block b).next = L2.head? := by simpa using hseg.next_of_mem
  obtain ⟨hnd1, hnd2, hdis⟩ := List.nodup_append.mp hnd
  obtain ⟨hb2, hnd2⟩ := List.nodup_cons.mp hnd2
  have hb1 : b ∉ L1 := fun h => hdis b h b (by simp) rfl
  have hmapL : ∀ c ∈ L1 ++ b :: L2, m.Mapped c := fun c hc => hr.seg_mem_mapped (hL ▸ hc)
  set m1 : Mem Tid := (if L1 = [] then m.setMpoolHead p L2.head? else m).modBlockIf L1.getLast?
    fun Q => { Q with next := L2.head? } with hm1
  set m' : Mem Tid := m1.modBlockIf L2.head? fun N => { N with prev := L1.getLast? } with hm'
  set g' : Ghost Tid := { g with
    place := Function.update g.place b .returning
    pl := Function.update g.pl p (L1 ++ L2) } with hg'
  have hst : BlockStep m g m' g' b := by
    refine ⟨?_, rfl, rfl, rfl, fun _ _ => rfl, fun _ hc => Function.update_of_ne hc _ _⟩
    by_cases h1 : L1 = []
    · exact ⟨_, _, _, by simp only [hm', hm1, if_pos h1]; rfl⟩
    · exact ⟨_, _, _, by simp only [hm', hm1, if_neg h1]; rfl⟩
  have hblk : ∀ c, m'.block c = { m.block c with
      next := if L1.getLast? = some c then L2.head? else (m.block c).next
      prev := if L2.head? = some c then L1.getLast? else (m.block c).prev } := by
    intro c
    have : (if L1 = [] then m.setMpoolHead p L2.head? else m).block = m.block := by
      split_ifs <;> rfl
    simp only [hm', hm1, Mem.modBlockIf_block, this]
    split_ifs <;> rfl
  have hvn : m'.vmNext = m.vmNext := by
    simp only [hm', hm1, Mem.modBlockIf_vmNext]
    split_ifs <;> rfl
  have hmp : m'.mpoolHead = if L1 = [] then Function.update m.mpoolHead p L2.head?
      else m.mpoolHead := by
    simp only [hm', hm1, Mem.modBlockIf_mpoolHead]
    split_ifs <;> rfl
  have hheld' : m'.held = m.held := by obtain ⟨_, _, _, h⟩ := hst.mem; rw [h]
  have hin : ∀ c, c ∉ b :: g.pl p → m'.block c = m.block c := by
    intro c hc
    rw [hL] at hc
    simp only [List.mem_cons, List.mem_append, not_or] at hc
    rw [hblk, if_neg fun h => hc.2.1 (List.mem_of_getLast? h),
      if_neg fun h => hc.2.2.2 (List.mem_of_head? h)]
  have hself : m'.block b = m.block b := by
    rw [hblk, if_neg fun h => hb1 (List.mem_of_getLast? h),
      if_neg fun h => hb2 (List.mem_of_head? h)]
  refine ⟨m', g', ?_, hst, rfl, by simp [hg'], ?_⟩
  · have hheld : m1.held = m.held := by simp only [hm1]; split_ifs <;> rfl
    have hself1 : (m1.block b).next = L2.head? ∧ (m1.block b).prev = L1.getLast? := by
      have : (if L1 = [] then m.setMpoolHead p L2.head? else m).block = m.block := by
        split_ifs <;> rfl
      simp only [hm1, Mem.modBlockIf_block, this, if_neg fun h => hb1 (List.mem_of_getLast? h)]
      exact ⟨hnext, hprev⟩
    have hfirst : freeUnlinkPrev m b p (m.block b) = some m1 := by
      have hhead := hP.head
      rw [hL] at hhead
      unfold freeUnlinkPrev
      by_cases h1 : L1 = []
      · subst h1
        rw [if_pos (by simpa using hhead), hnext]
        rfl
      · obtain ⟨q, hq⟩ : ∃ q, L1.getLast? = some q := ⟨_, List.getLast?_eq_some_getLast h1⟩
        have hne : m.mpoolHead p ≠ some b := by
          rw [hhead, List.head?_append_of_ne_nil _ h1]
          exact fun h => hb1 (List.mem_of_head? h)
        rw [if_neg hne, hprev, hq, Option.bind_some, hnext,
          setBlock_eq (hmapL q (by simp [List.mem_of_getLast? hq])), hm1, if_neg h1, hq]
        simp only [Mem.modBlock, Mem.modBlockIf, Option.some.injEq, eq_comm]
    unfold OpenOOC.Vma.freeUnlink
    simp only [getBlock_eq hmap, Option.bind_eq_bind, Option.bind_some, hfirst,
      getBlock_eq ((mapped_congr hheld).mpr hmap), hself1]
    rw [setBlockIf_eq fun c hc => (mapped_congr hheld).mpr
      (hmapL c (by simp [List.mem_of_head? hc]))]
    rfl
  · refine hr.pool_step (p := p) hst (fun p' hp' => ?_) (fun c hcb hc => hin c (by simp [hcb, hc]))
      (fun c _ => ⟨_, _, hblk c⟩) (fun _ _ _ _ _ => ?_) (fun p' hp' => by simp [hg', hp'])
      (by simp [hp])
      (by simp [hg']) (fun p' hp' => by simp [hp, hp'.symm]) (fun p' _ => by simp [hg'])
      (fun s hs hbs => ?_) ?_
    · rw [hmp]
      split_ifs <;> simp [hp']
    · rw [hvn]
    · have hB := hr.block s hs b hbs
      have hd := hr.stage_ne hs hbs (by simp [hp])
      refine ⟨by rw [hself, hB.superblock], by rw [hself]; exact hB.count,
        fun _ => by
          rw [hself, hvn]; exact hB.chain hd, hB.nodup, hB.sub, ?_, fun p' hp' => ?_,
            fun p' hp' => ?_⟩
      · have := hB.len
        rw [hp] at this
        simpa [hg', Place.Len] using this
      · simp [hg', Place.owner] at hp'
      · simp [hg'] at hp'
    · refine ⟨?_, ?_, ?_, fun c => ?_⟩
      · rw [hmp, hg']
        cases L1 with
        | nil => simp
        | cons a L1 => simpa [hL] using hP.head
      · simp only [hg', Function.update_self]
        exact hseg.unlink hnd (fun c _ => by rw [hblk]; simp) fun c _ => by rw [hblk]; simp
      · simp only [hg', Function.update_self]
        exact List.nodup_append.mpr ⟨hnd1, hnd2, fun c hc c' hc' => hdis c hc c' (by simp [hc'])⟩
      · rw [isBlock_congr hheld']
        by_cases hcb : c = b
        · subst hcb; simp [hg', hb1, hb2]
        · have := hP.mem_iff c
          rw [hL] at this
          simpa [hg', hcb] using this

/-- A block that was full comes back to the front of the list. -/
theorem Rep.freePrepend (hr : Rep Λ m g) (hb : IsBlock m b) (hp : g.place b = .refilled p) :
    ∃ m' g', freePrepend m b p = some (m', .freeLetMpoolFull b p) ∧ BlockStep m g m' g' b ∧
      g'.vl b = g.vl b ∧ (g.vl b).length = 1 ∧ g'.place b = .pooled p ∧ Rep Λ m' g' := by
  have hmap := mapped_block hb
  have hP := hr.pool p
  have hlen : (g.vl b).length = 1 := by
    obtain ⟨s, hs, hbs⟩ := hb
    have := (hr.block s hs b hbs).len
    rwa [hp] at this
  have hbp : b ∉ g.pl p := hr.not_mem_pl (by simp [hp])
  have hnh : m.mpoolHead p ≠ some b := by
    rw [hP.head]
    exact fun h => hbp (List.mem_of_head? h)
  set m' : Mem Tid :=
    ((m.modBlock b fun B => { B with next := m.mpoolHead p }).modBlockIf (m.mpoolHead p)
    fun N => { N with prev := some b }).setMpoolHead p (some b) with hm'
  set g' : Ghost Tid := { g with
    place := Function.update g.place b (.pooled p)
    pl := Function.update g.pl p (b :: g.pl p) } with hg'
  have hst : BlockStep m g m' g' b :=
    ⟨⟨_, _, _, rfl⟩, rfl, rfl, rfl, fun _ _ => rfl, fun _ hc => Function.update_of_ne hc _ _⟩
  have hblk : ∀ c, m'.block c = { m.block c with
      next := if c = b then m.mpoolHead p else (m.block c).next
      prev := if m.mpoolHead p = some c then some b else (m.block c).prev } := by
    intro c
    simp only [hm', Mem.modBlockIf_block, Mem.setMpoolHead_block, Mem.modBlock_block]
    split_ifs <;> rfl
  have hself : (m'.block b).prev = (m.block b).prev := by rw [hblk, if_neg hnh]
  refine ⟨m', g', ?_, hst, rfl, hlen, by simp [hg'], ?_⟩
  · unfold OpenOOC.Vma.freePrepend
    simp only [setBlock_eq hmap, Option.bind_eq_bind, Option.bind_some, Mem.modBlock_mpoolHead]
    rw [setBlockIf_eq]
    · rfl
    · intro c hc
      exact hr.seg_mem_mapped (p := p) (List.mem_of_head? (hP.head ▸ hc))
  · refine hr.pool_step (p := p) hst (fun p' hp' => by simp [hm', hp']) (fun c hcb hc => ?_)
      (fun c _ => ⟨_, _, hblk c⟩) (fun _ _ _ _ _ => rfl) (fun p' hp' => by simp [hg', hp'])
      (by simp [hp])
      (by simp [hg']) (fun p' _ => by simp [hp]) (fun p' hp' => by simp [hg', hp'.symm])
      (fun s hs hbs => ?_) ?_
    · rw [hblk, if_neg hcb, if_neg]
      rw [hP.head]
      exact fun h => hc (List.mem_of_head? h)
    · have hB := hr.block s hs b hbs
      have hd := hr.stage_ne hs hbs (by simp [hp])
      have h2 := Λ.two_le
      refine ⟨by rw [hblk]; exact hB.superblock, by rw [hblk]; exact hB.count,
        fun _ => by
          rw [hblk]; exact hB.chain hd, hB.nodup, hB.sub, ?_, fun p' hp' => ?_, fun p' hp' => ?_⟩
      · simp only [hg', Function.update_self, Place.Len]
        omega
      · obtain rfl : p = p' := by simpa [hg', Place.owner] using hp'
        rw [hblk]
        exact hB.owner p (by simp [hp, Place.owner])
      · simp [hg'] at hp'
    · refine ⟨by simp [hm', hg'], ?_, ?_, fun c => ?_⟩
      · obtain ⟨s, hs, hbs⟩ := hb
        have hprev : (m.block b).prev = none := (hr.block s hs b hbs).off_prev p (Or.inr hp)
        simp only [hg', Function.update_self]
        refine @Seg.link _ _ _ _ _ _ _ _ [] _ _ hP.seg (List.nodup_cons.mpr ⟨hbp, hP.nodup⟩) ?_
          (by rw [hself, hprev]; rfl)
          (fun c hc => ?_) fun c hc => ?_
        · rw [hblk, if_pos rfl, hP.head, Option.or_none]
        · have hcb : c ≠ b := fun h => hbp (h ▸ hc)
          rw [hblk, if_neg hcb]
          simp
        · rw [hblk, hP.head]
      · simpa [hg'] using ⟨hbp, hP.nodup⟩
      · change _ ↔ IsBlock m c ∧ _
        by_cases hcb : c = b
        · subst hcb; simp [hg', hb]
        · have := hP.mem_iff c
          simpa [hg', hcb] using this

/-! ### A pool that is used for the first time -/

theorem Rep.allocRead (hr : Rep Λ m g) (hi : m.init t = false) :
    Rep Λ { m.setMpoolHead t none with init := Function.update m.init t true } g := by
  have hpl : g.pl t = [] := by
    refine List.eq_nil_iff_forall_not_mem.mpr fun b hb => ?_
    obtain ⟨⟨s, hs, hbs⟩, hon⟩ := ((hr.pool t).mem_iff b).mp hb
    have := ((hr.block s hs b hbs).owner t (Place.owner_of_onList hon)).2
    rw [hi] at this
    cases this
  refine ⟨⟨hr.held.nodup, hr.held.aligned, hr.held.apart⟩, ?_, fun s hs => ?_, fun s hs b hb => ?_,
    fun p => ?_⟩
  · obtain ⟨h1, h2, h3, h4, h5⟩ := hr.gpool
    exact ⟨h1, h2, h3, h4, h5⟩
  · exact (hr.super s hs).congr rfl rfl rfl (fun _ _ => rfl) fun _ _ => Iff.rfl
  · refine (hr.block s hs b hb).congr rfl rfl rfl rfl rfl rfl id (fun _ _ => rfl) (fun p hp => ?_)
      fun _ _ => rfl
    simp only [Function.update_apply]
    split_ifs
    · rfl
    · exact hp
  · refine (hr.pool p).congr ?_ rfl (fun _ _ => ⟨rfl, rfl⟩) fun _ => Iff.rfl
    by_cases hpt : p = t
    · subst hpt
      rw [(hr.pool p).head, hpl]
      simp
    · simp [hpt]

end OpenOOC.Vma
