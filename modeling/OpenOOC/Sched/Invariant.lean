import OpenOOC.Sched.Lifecycle

/-! The invariant of a process whose threads allocate, access and free, and that every
step keeps it, as long as no access is in progress to an allocation whose freeing has
begun, and no empty allocation is freed. -/

namespace OpenOOC.Sched

open LockMachine

/-- The allocation is the thread's alone. -/
def Point.Owner (ps : PageSize) (a : Alloc) (q : Point) : Prop := q.Own ∧ q.On ps a

/-- Whose an allocation is: a live one is nobody's. -/
def HeldBy {Tid : Type} (ps : PageSize) (s : State Tid) (a : Alloc) : Option Tid → Prop
  | none => a ∈ s.mem.live
  | some t => (s.pc t).now.Owner ps a

/-- A lock that was never let go is nobody's to take: its struct has been given back,
or will be before it gets a new lock. -/
def KeptOk (m : Mem) (g : Ghost) : LockId → Prop
  | .tree => False
  | .node z k => k < m.inits z ∨ k = m.inits z ∧ ∀ a ∈ g.listed, a.vma ≠ z

variable {Tid : Type} {ps : PageSize} {s s' s₀ : State Tid} {g g' : Ghost} {t t' : Tid}
  {a b : Alloc} {m' : Mem} {q' : Point}
  {kept : List LockId} {L : LockId → Option Tid}

/-- What is in memory, and that every region that is mapped is a live allocation or the
work of one thread. -/
structure Inv (ps : PageSize) (s : State Tid) (g : Ghost) : Prop where
  mem : MemOk ps s.mem g
  points : ∀ t, (s.pc t).now = .rest ∨ ∃ a, At ps s.mem g a (s.pc t).now
  held : ∀ a ∈ g.mapped, ∃! o, HeldBy ps s a o
  kept : ∀ t, ∀ ℓ ∈ (s.pc t).kept, KeptOk s.mem g ℓ

/-- No access is in progress to an allocation whose freeing has begun, and what is freed
is not empty. -/
structure WellUsed (ps : PageSize) (s : State Tid) : Prop where
  uses : ∀ t x, (s.pc t).now.access? = some x → ∃ a ∈ s.mem.live, a.Owns ps x.addr
  frees : ∀ t ptr, (s.pc t).now = .findGet (.free ptr) →
    ∃ v, s.mem.heap.cell (.vma (ptr - ALIGN ps SIZEOF_VM_AREA)) = some v ∧ v.vmStart < v.vmEnd

/-! ### Whose is what -/

theorem Keeps.of_heap {m m' : Mem} {q : Point} (ha : a ∈ g.mapped) (hi : m'.inits = m.inits)
    (hp : m'.prot = m.prot)
    (hr : ∀ x, m'.heap.range x = m.heap.range x) : Keeps ps m m' g g a q := by
  refine ⟨ha, Iff.rfl, by rw [hi], fun f s e h => ⟨f, ?_⟩, id, fun _ => rfl, fun y _ h => ?_⟩
  · rw [hr]
    exact h
  · rw [hp]
    exact h

namespace Inv

variable (hi : Inv ps s g)

include hi

theorem at_now {q : Point} (hq : (s.pc t).now = q) (h : q ≠ .rest) : ∃ a, At ps s.mem g a q := by
  subst hq
  exact (hi.points t).resolve_left h

theorem not_live (ha : a ∈ g.mapped) (h : (s.pc t).now.Owner ps a) : a ∉ s.mem.live := fun hl => by
  have he : none = some t := (hi.held a ha).unique hl h
  cases he

theorem owner_unique (ha : a ∈ g.mapped) (h : (s.pc t).now.Owner ps a)
    (h' : (s.pc t').now.Owner ps a) : t' = t := by
  have he : some t' = some t := (hi.held a ha).unique h' h
  exact Option.some.inj he

theorem alone (hu : WellUsed ps s) (h : (s.pc t).now.Owner ps a) (ha : a ∈ g.mapped) (ht : t' ≠ t)
    (hb : At ps s.mem g b (s.pc t').now) : b ≠ a := by
  intro hba
  subst hba
  rcases Point.cases (s.pc t').now with hr | ⟨x, hx, -⟩ | ho
  · have hon := hb.on
    rw [hr] at hon
    exact hon
  · obtain ⟨c, hc, hcx⟩ := hu.uses t' x hx
    have hcm := hi.mem.listed (hi.mem.live c hc)
    obtain rfl := hi.mem.eq_of_owns hcm ha hcx (Point.owns_of_access hx hb.on)
    exact hi.not_live ha h hc
  · exact ht (hi.owner_unique ha h ⟨ho, hb.on⟩)

/-- An allocation that is being accessed is nobody's. -/
theorem not_owner (hu : WellUsed ps s) {x : Access} (hx : (s.pc t).now.access? = some x)
    (ha : At ps s.mem g a (s.pc t).now) :
    a ∈ s.mem.live ∧ ∀ t', ¬ (s.pc t').now.Owner ps a := by
  obtain ⟨c, hc, hcx⟩ := hu.uses t x hx
  obtain rfl := hi.mem.eq_of_owns (hi.mem.listed (hi.mem.live c hc)) ha.mapped hcx
    (Point.owns_of_access hx ha.on)
  exact ⟨hc, fun t' h => hi.not_live ha.mapped h hc⟩

end Inv

/-! ### Any step -/

variable [DecidableEq Tid]

/-- What a step has to do for the invariant: the thread leaves the others where they
are, and what is its own or live afterwards was so before, or is new. -/
theorem Inv.move (hi : Inv ps s g) (hm : MemOk ps m' g') (hat : q' = .rest ∨ ∃ a, At ps m' g' a q')
    (hkeep : ∀ t', t' ≠ t → ∀ a, At ps s.mem g a (s.pc t').now →
    Keeps ps s.mem m' g g' a (s.pc t').now)
    (hpass : ∀ a ∈ g'.mapped, (a ∈ m'.live ∨ q'.Owner ps a ↔
    a ∉ g.mapped ∨ a ∈ s.mem.live ∨ (s.pc t).now.Owner ps a) ∧
      ¬ (a ∈ m'.live ∧ q'.Owner ps a))
    (hkept : ∀ ℓ, KeptOk s.mem g ℓ → KeptOk m' g' ℓ)
    (hk : ∀ ℓ ∈ kept, ℓ ∈ (s.pc t).kept ∨ KeptOk m' g' ℓ) :
    Inv ps ⟨m', L, Function.update s.pc t ⟨q', kept⟩⟩ g' := by
  have hself : (Function.update s.pc t (⟨q', kept⟩ : Pc)) t = ⟨q', kept⟩ :=
    Function.update_self _ _ _
  have hother {t' : Tid} (ht : t' ≠ t) : (Function.update s.pc t (⟨q', kept⟩ : Pc)) t' = s.pc t' :=
    Function.update_of_ne ht _ _
  have hpoints (t' : Tid) (ht : t' ≠ t) : (s.pc t').now = .rest ∨ ∃ a,
      At ps m' g' a (s.pc t').now := by
    rcases hi.points t' with hr | ⟨a, ha⟩
    · exact Or.inl hr
    · exact Or.inr ⟨a, ha.keep (hi.mem.region a ha.mapped) (hkeep t' ht a ha)⟩
  refine ⟨hm, fun t' => ?_, fun a ha => ?_, fun t' ℓ hℓ => ?_⟩
  · dsimp only
    by_cases ht : t' = t
    · rw [ht, hself]
      exact hat
    · rw [hother ht]
      exact hpoints t' ht
  · obtain ⟨hiff, hnot⟩ := hpass a ha
    -- the others own what they owned
    have hothers {t' : Tid} (ht : t' ≠ t) (ho : (s.pc t').now.Owner ps a) : a ∈ g.mapped := by
      rcases hi.points t' with hr | ⟨b, hb⟩
      · have hon := ho.2
        rw [hr] at hon
        exact hon.elim
      · have hb' := hb.keep (hi.mem.region b hb.mapped) (hkeep t' ht b hb)
        have hab : a = b := hb'.unique hm ho.1 ha ho.2
        exact hab ▸ hb.mapped
    by_cases hold : a ∉ g.mapped ∨ a ∈ s.mem.live ∨ (s.pc t).now.Owner ps a
    · have hfree {t' : Tid} (ht : t' ≠ t) : ¬ (s.pc t').now.Owner ps a := fun ho => by
        have ham := hothers ht ho
        rcases hold with h | h | h
        · exact h ham
        · exact hi.not_live ham ho h
        · exact ht (hi.owner_unique ham h ho)
      have hsome {t' : Tid} (h : HeldBy ps ⟨m', L, Function.update s.pc t ⟨q', kept⟩⟩ a (some t')) :
          t' = t ∧ q'.Owner ps a := by
        unfold HeldBy at h
        dsimp only at h
        by_cases ht : t' = t
        · rw [ht, hself] at h
          exact ⟨ht, h⟩
        · rw [hother ht] at h
          exact absurd h (hfree ht)
      rcases hiff.mpr hold with hl | hq
      · refine ⟨none, hl, fun o ho => ?_⟩
        cases o with
        | none => rfl
        | some t' => exact absurd ⟨hl, (hsome ho).2⟩ hnot
      · refine ⟨some t, ?_, fun o ho => ?_⟩
        · unfold HeldBy
          dsimp only
          rw [hself]
          exact hq
        · cases o with
          | none => exact absurd ⟨ho, hq⟩ hnot
          | some t' => rw [(hsome ho).1]
    · have hnone : a ∉ m'.live ∧ ¬ q'.Owner ps a := by
        have := mt hiff.mp hold
        exact not_or.mp this
      obtain ⟨ham, hold⟩ := not_or.mp hold
      obtain ⟨hl, hq⟩ := not_or.mp hold
      have hsame (o : Option Tid) : HeldBy ps ⟨m', L, Function.update s.pc t ⟨q', kept⟩⟩ a o ↔
          HeldBy ps s a o := by
        cases o with
        | none => exact iff_of_false hnone.1 hl
        | some t' =>
          unfold HeldBy
          dsimp only
          by_cases ht : t' = t
          · rw [ht, hself]
            exact iff_of_false hnone.2 hq
          · rw [hother ht]
      simp only [hsame]
      exact hi.held a (not_not.mp ham)
  · dsimp only at hℓ
    by_cases ht : t' = t
    · rw [ht, hself] at hℓ
      rcases hk ℓ hℓ with h | h
      · exact hkept ℓ (hi.kept t ℓ h)
      · exact h
    · rw [hother ht] at hℓ
      exact hkept ℓ (hi.kept t' ℓ hℓ)

theorem Inv.stay (hi : Inv ps s g) (hat : q' = .rest ∨ ∃ a, At ps s.mem g a q')
    (hq : ∀ a ∈ g.mapped, q'.Owner ps a ↔ (s.pc t).now.Owner ps a)
    (hk : ∀ ℓ ∈ kept, ℓ ∈ (s.pc t).kept) :
    Inv ps ⟨s.mem, L, Function.update s.pc t ⟨q', kept⟩⟩ g := by
  refine hi.move hi.mem hat (fun t' _ b hb => Keeps.of_heap hb.mapped rfl rfl fun _ => rfl)
    (fun a ha => ?_) (fun _ h => h)
    fun ℓ h => Or.inl (hk ℓ h)
  rw [hq a ha]
  refine ⟨?_, fun ⟨hl, ho⟩ => hi.not_live ha ho hl⟩
  simp [ha]

/-! ### Lock operations -/

theorem owner_of_on {q : Point} (h : ¬ q.Own) : ¬ q.Owner ps a := fun ho => h ho.1

theorem Inv.get (hi : Inv ps s g) (hu : WellUsed ps s) {ℓ : LockId} {p : Pc}
    (h : instr (s.pc t) = .get ℓ p) :
    Inv ps ⟨s.mem, L, Function.update s.pc t p⟩ g := by
  obtain ⟨q', kept⟩ := p
  obtain ⟨hg, hkept⟩ := getStep_of h
  dsimp only at hg hkept
  subst hkept
  generalize hq : (s.pc t).now = q at hg
  cases hg with
  | insert =>
    obtain ⟨b, hb⟩ := hi.at_now hq nofun
    refine hi.stay (Or.inr ⟨b, hb.on, hb.mapped, hb.listed, nofun, hb.locals⟩)
      (fun _ _ => by rw [hq]; rfl) fun _ h => h
  | @find c =>
    obtain ⟨b, hb⟩ := hi.at_now hq nofun
    have hlisted : b ∈ g.listed := hb.listed.mpr trivial
    have howns : b.Owns ps c.addr := by
      cases c with
      | handler x => exact hb.on
      | free ptr =>
        obtain ⟨v, hv, hlt⟩ := hu.frees t ptr hq
        obtain ⟨w, hw, -, hs, he⟩ := hi.mem.cell hlisted
        have hbp : b.vmStart ps = ptr := hb.on
        have hvma : ptr - ALIGN ps SIZEOF_VM_AREA = b.vma := by
          rw [← hbp, Alloc.vmStart]
          exact add_sub_cancel_right _ _
        rw [hvma, hw] at hv
        obtain rfl := Option.some.inj hv
        rw [← hbp]
        refine ⟨le_refl _, ?_⟩
        change (b.vmStart ps).toNat < (b.vmEnd ps).toNat
        omega
    refine hi.stay (Or.inr ⟨b, hb.on, hb.mapped, hb.listed, nofun, hb.locals, howns⟩)
      (fun a _ => ?_) fun _ h => h
    rw [hq]
    cases c <;> rfl
  | @node c z k =>
    obtain ⟨b, hb⟩ := hi.at_now hq nofun
    refine hi.stay (Or.inr ⟨b, hb.on, hb.mapped, hb.listed, hb.inits, hb.locals⟩) (fun a _ => ?_)
      fun _ h => h
    rw [hq]
    cases c <;> rfl
  | remove =>
    obtain ⟨b, hb⟩ := hi.at_now hq nofun
    exact hi.stay (Or.inr ⟨b, hb.on, hb.mapped, hb.listed, hb.inits, hb.locals⟩)
      (fun _ _ => by rw [hq]; rfl) fun _ h => h

theorem Inv.drop (hi : Inv ps s g) {ℓ : LockId} {p : Pc} (h : instr (s.pc t) = .drop ℓ p) :
    Inv ps ⟨s.mem, L, Function.update s.pc t p⟩ g := by
  have hsub {ℓ' : LockId} (hk : ℓ' ∈ (s.pc t).kept.filter (· ≠ ℓ)) : ℓ' ∈ (s.pc t).kept :=
    List.mem_of_mem_filter hk
  obtain ⟨q', kept⟩ := p
  obtain ⟨hd, hkept⟩ := dropStep_of h
  dsimp only at hd hkept
  subst hkept
  generalize hq : (s.pc t).now = q at hd
  cases hd with
  | insert =>
    obtain ⟨b, hb⟩ := hi.at_now hq nofun
    exact hi.stay (Or.inr ⟨b, hb.on, hb.mapped, hb.listed, nofun, trivial⟩)
      (fun _ _ => by rw [hq]; rfl) fun _ h => hsub h
  | @found c z k =>
    obtain ⟨b, hb⟩ := hi.at_now hq nofun
    cases c with
    | handler x =>
      exact hi.stay (Or.inr ⟨b, hb.on, hb.mapped, hb.listed, hb.inits, hb.locals⟩)
        (fun _ _ => by rw [hq]; rfl) fun _ h => hsub h
    | free ptr =>
      refine hi.stay (Or.inr ⟨b, hb.on.1, hb.mapped, hb.listed, hb.inits, trivial⟩) (fun a ha => ?_)
        fun _ h => hsub h
      rw [hq]
      refine ⟨fun ho => ⟨ho.1, ho.2, ?_⟩, fun ho => ⟨ho.1, ho.2.1⟩⟩
      have hab : a = b := hi.mem.eq_of_vma ha hb.mapped (ho.2.trans hb.on.1.symm)
      rw [hab]
      exact hb.on.2
  | @handle x z k =>
    obtain ⟨b, hb⟩ := hi.at_now hq nofun
    obtain ⟨-, hle, hf, hprot⟩ := hb.locals
    have hloc : Local ps s.mem g b (.access { x with faults := x.faults + 1 }) :=
      ⟨Nat.succ_le_succ hle, fun _ => hf, fun he => hprot (Nat.succ.inj he)⟩
    refine hi.stay (Or.inr ⟨b, hb.on.2, hb.mapped, hb.listed, nofun, hloc⟩) (fun a _ => ?_)
      fun _ h => hsub h
    rw [hq]
    exact iff_of_false (owner_of_on (by rintro (h | h) <;> cases h))
      (owner_of_on (by rintro (h | h) <;> cases h))
  | remove =>
    obtain ⟨b, hb⟩ := hi.at_now hq nofun
    exact hi.stay (Or.inr ⟨b, hb.on, hb.mapped, hb.listed, hb.inits, hb.locals⟩)
      (fun _ _ => by rw [hq]; rfl) fun _ h => hsub h

/-! ### Code -/

section

variable {m : Mem} {x : Access} {z : Addr} {k : ℕ}

omit [DecidableEq Tid] in
/-- A step that changes neither which regions are mapped nor whose they are. -/
theorem Inv.pass (hi : Inv ps s g) (hg : g'.mapped = g.mapped) (hl : m'.live = s.mem.live)
    (hq : ∀ a ∈ g.mapped, q'.Owner ps a ↔ (s.pc t).now.Owner ps a) (a : Alloc)
    (ha : a ∈ g'.mapped) :
    (a ∈ m'.live ∨ q'.Owner ps a ↔ a ∉ g.mapped ∨ a ∈ s.mem.live ∨ (s.pc t).now.Owner ps a) ∧
      ¬ (a ∈ m'.live ∧ q'.Owner ps a) := by
  rw [hg] at ha
  rw [hl, hq a ha]
  refine ⟨?_, fun ⟨hl, ho⟩ => hi.not_live ha ho hl⟩
  simp [ha]

theorem keptOk_node : KeptOk m g (.node z k) ↔
    k < m.inits z ∨ k = m.inits z ∧ ∀ a ∈ g.listed, a.vma ≠ z := Iff.rfl

omit [DecidableEq Tid] in
theorem KeptOk.of_eq (h₁ : m'.inits = s.mem.inits) (h₂ : g'.listed ⊆ g.listed) (ℓ : LockId)
    (h : KeptOk s.mem g ℓ) :
    KeptOk m' g' ℓ := by
  cases ℓ with
  | tree => exact h
  | node z k =>
    rw [keptOk_node] at h ⊢
    rw [h₁]
    exact h.imp_right fun h => ⟨h.1, fun a ha => h.2 a (h₂ ha)⟩

/-- `mmap` and `mprotect`, in `ooc_malloc`. -/
theorem Inv.mapped (hi : Inv ps s g) (hnow : (s.pc t).now = .rest) (hok : MmapOk ps s.mem a) :
    Inv ps ⟨{ s.mem with prot := mapProt ps s.mem.prot a }, L,
      Function.update s.pc t ⟨.insertGet a, (s.pc t).kept⟩⟩
      { g.setFlags a 0 with mapped := Insert.insert a g.mapped } := by
  have hm := hi.mem.mapped hok
  obtain ⟨hna, haway⟩ := hi.mem.fresh hok
  have hnl : a ∉ g.listed := fun h => hna (hi.mem.listed h)
  have hne {b : Alloc} (hb : b ∈ g.mapped) : b ≠ a := fun he => hna (he ▸ hb)
  refine hi.move hm
    (Or.inr ⟨a, rfl, Finset.mem_insert_self _ _, iff_of_false hnl id, nofun, g.flags_self _ _⟩)
    (fun t' _ b hb => ?_) (fun b hb => ?_) (KeptOk.of_eq rfl (Finset.Subset.refl _)) fun ℓ h =>
    Or.inl h
  · have hf : (g.setFlags a 0).flags b = g.flags b := g.flags_of_ne _ (hne hb.mapped)
    refine ⟨Finset.mem_insert_of_mem hb.mapped, Iff.rfl, rfl, fun f s e h => ⟨f, h⟩, fun h => ?_,
      fun _ => hf, fun y hy h => ?_⟩
    · dsimp only
      rw [hf]
      exact h
    · have hout := (haway b hb.mapped).symm.not_inRegion (Region.inRegion_of_inData hy)
      have hra := hm.region a (Finset.mem_insert_self _ _)
      have hhead := mt (hra.inRegion_of_inHeader (x := y)) hout
      dsimp only
      unfold mapProt
      rw [setProt_of_out (by rw [infoSz_toNat]; exact hhead), setProt_of_out hout]
      exact h
  · have hrest : ¬ (s.pc t).now.Owner ps b := fun ho => by
      have hon := ho.2
      rw [hnow] at hon
      exact hon
    have hown : (Point.insertGet a).Owner ps b ↔ b = a := ⟨fun h => h.2, fun h => ⟨Or.inl rfl, h⟩⟩
    rw [hown]
    rcases Finset.mem_insert.mp hb with rfl | hb
    · exact ⟨iff_of_true (Or.inr rfl) (Or.inl hna), fun h => hnl (hi.mem.live b h.1)⟩
    · have := hne hb
      exact ⟨by simp [hb, hrest, this], fun h => this h.2⟩

theorem Inv.insert (hi : Inv ps s g) (hu : WellUsed ps s) (hnow : (s.pc t).now = .insert a) :
    ∃ m', Sched.insert ps s.mem a = some m' ∧
      Inv ps ⟨m', L, Function.update s.pc t ⟨.insertLet a, (s.pc t).kept⟩⟩
      { g with listed := Insert.insert a g.listed } := by
  obtain ⟨b, hb⟩ := hi.at_now hnow nofun
  obtain rfl : b = a := hb.on
  have ha := hb.mapped
  have howner : (s.pc t).now.Owner ps b := by
    rw [hnow]
    exact ⟨Or.inl rfl, rfl⟩
  obtain ⟨m', he, hm, hp, hl, hinits, hr⟩ := hi.mem.inserted ha (mt hb.listed.mp id) hb.locals
  refine ⟨m', he, hi.move hm
    (Or.inr ⟨b, rfl, ha, iff_of_true (Finset.mem_insert_self _ _) trivial, nofun, trivial⟩)
    (fun t' ht c hc => ?_) (hi.pass rfl hl fun _ _ => by rw [hnow]; rfl) (fun ℓ h => ?_) fun ℓ h =>
    Or.inl h⟩
  · have hcb : c ≠ b := hi.alone hu howner ha ht hc
    have hvma : c.vma ≠ b.vma := fun h => hcb (hi.mem.eq_of_vma hc.mapped ha h)
    refine ⟨hc.mapped, ?_, ?_, fun f s e h => ⟨f, ?_⟩, id, fun _ => rfl, fun y _ h => ?_⟩
    · simp [hcb]
    · rw [hinits, Function.update_of_ne hvma]
    · rw [hr _ fun h => hvma (Ref.vma.inj h)]
      exact h
    · rw [hp]
      exact h
  · cases ℓ with
    | tree => exact h
    | node z k =>
      rw [keptOk_node] at h ⊢
      rw [hinits]
      by_cases hz : z = b.vma
      · subst hz
        rw [Function.update_self]
        omega
      · rw [Function.update_of_ne hz]
        refine h.imp_right fun h => ⟨h.1, fun c hc => ?_⟩
        rcases Finset.mem_insert.mp hc with rfl | hc
        · exact fun he => hz he.symm
        · exact h.2 c hc

theorem Inv.find (hi : Inv ps s g) {c : Caller} (hnow : (s.pc t).now = .find c) :
    ∃ h z, spTreeFindAndLock s.mem.heap c.addr.toNat = some (h, some (.vma z)) ∧
      Inv ps ⟨{ s.mem with heap := h }, L,
        Function.update s.pc t ⟨.findGetNode c z (s.mem.inits z), (s.pc t).kept⟩⟩ g := by
  obtain ⟨a, ha⟩ := hi.at_now hnow nofun
  obtain ⟨h, he⟩ := hi.mem.find (ha.listed.mpr trivial) ha.locals.2
  obtain ⟨hm, hr⟩ := hi.mem.found he
  have hinits : ∀ z k, (Point.findGetNode c a.vma (s.mem.inits a.vma)).node? = some (z, k) →
      a.vma = z ∧ k = s.mem.inits z := by
    intro z k h
    cases h
    exact ⟨rfl, rfl⟩
  refine ⟨h, a.vma, he, hi.move hm
    (Or.inr ⟨a, ⟨rfl, ha.on⟩, ha.mapped, ha.listed, hinits, ha.locals.1⟩)
    (fun t' _ b hb => Keeps.of_heap hb.mapped rfl rfl hr) (hi.pass rfl rfl fun b hb => ?_)
    (KeptOk.of_eq rfl (Finset.Subset.refl _)) fun ℓ h => Or.inl h⟩
  rw [hnow]
  cases c with
  | handler x =>
    exact iff_of_false (owner_of_on (by rintro (h | h) <;> cases h))
      (owner_of_on (by rintro (h | h) <;> cases h))
  | free ptr =>
    refine ⟨fun ho => ⟨ho.1, ho.2.2⟩, fun ho => ⟨ho.1, ?_, ho.2⟩⟩
    rw [hi.mem.eq_of_vmStart hb ha.mapped (Eq.trans ho.2 (Eq.symm ha.on))]

/-- The flags, in the handler. The others rely on them only under the node's lock. -/
theorem Inv.handle (hi : Inv ps s g) (ho : Owned Holds s) (hu : WellUsed ps s)
    (hnow : (s.pc t).now = .handle x z k) :
    ∃ m' ans g', Sched.handle s.mem z = some (m', ans) ∧ m'.prot = s.mem.prot ∧
      g'.mapped = g.mapped ∧
      Inv ps ⟨m', L, Function.update s.pc t ⟨.protect x z k ans, (s.pc t).kept⟩⟩ g' := by
  obtain ⟨a, ha⟩ := hi.at_now hnow nofun
  obtain ⟨hz, hown⟩ := ha.on
  obtain ⟨hwrite, hle, hone⟩ := ha.locals
  have hal : a ∈ g.listed := ha.listed.mpr trivial
  have hacc : (s.pc t).now.access? = some x := by
    rw [hnow]
    rfl
  have hnone := (hi.not_owner hu hacc (by rw [hnow]; exact ha)).2
  obtain ⟨m', he, hm, hp, hl, hinits, hr⟩ := hi.mem.handled hal
  rw [hz] at he
  have hcases := answer_flags (hi.mem.flags a ha.mapped)
  have hne : (answer (g.flags a)).1 ≠ 0 := by
    rcases hcases with ⟨-, h⟩ | ⟨-, h⟩ <;> rw [h] <;> decide
  have hfits : Fits (answer (g.flags a)).1 (answer (g.flags a)).2 := by
    rcases hcases with ⟨-, h⟩ | ⟨-, h⟩ <;> rw [h]
    · exact Or.inl ⟨rfl, rfl⟩
    · exact Or.inr ⟨rfl, rfl⟩
  have hrw : x.faults = 1 → (answer (g.flags a)).2.prot = PROT_RW := fun h1 => by
    rcases hcases with ⟨h, -⟩ | ⟨-, h⟩
    · exact absurd h (hone h1)
    · rw [h]
  refine ⟨m', _, g.setFlags a (answer (g.flags a)).1, he, hp, rfl,
    hi.move hm (Or.inr ⟨a, ⟨hz, hown⟩, ha.mapped, ha.listed, fun z k h => ?_, hwrite, hle, hrw, ?_⟩)
    (fun t' ht b hb => ?_) (hi.pass rfl hl fun b hb => ?_)
    (KeptOk.of_eq hinits (Finset.Subset.refl _)) fun ℓ h => Or.inl h⟩
  · rw [hinits]
    exact ha.inits z k h
  · rw [g.flags_self]
    exact hfits
  · by_cases hba : b = a
    · subst hba
      refine ⟨hb.mapped, Iff.rfl, by rw [hinits], fun f s e h => ?_, fun _ => ?_, fun hfix => ?_,
    fun y _ h => by rw [hp]; exact h⟩
      · obtain ⟨v, hv, -, hvs, hve⟩ := hi.mem.cell hal
        obtain ⟨w, hw, -, hws, hwe⟩ := hm.cell hal
        unfold Heap.range at h ⊢
        rw [hv, Option.map_some, Option.some.injEq, Prod.mk.injEq, Prod.mk.injEq, hvs, hve] at h
        rw [hw, Option.map_some, hws, hwe, h.2.1, h.2.2]
        exact ⟨_, rfl⟩
      · rw [g.flags_self]
        exact hne
      · -- the other thread would own the allocation, or hold the lock that `t` holds
        exfalso
        generalize hq : (s.pc t').now = q at hfix hb
        cases q with
        | insertGet c => exact hnone t' (by rw [hq]; exact ⟨Or.inl rfl, hb.on⟩)
        | insert c => exact hnone t' (by rw [hq]; exact ⟨Or.inl rfl, hb.on⟩)
        | protect y w j ans =>
          obtain ⟨hw, hj⟩ := hb.inits w j rfl
          obtain ⟨-, hk⟩ := ha.inits z k rfl
          have hwz : w = z := hw.symm.trans hz
          subst hwz
          have h1 : Holds t (s.pc t) (.node w k) :=
            Or.inl (by rw [hnow]; exact List.mem_singleton_self _)
          have h2 : Holds t' (s.pc t') (.node w k) :=
            Or.inl (by rw [hq, hk, ← hj]; exact List.mem_singleton_self _)
          exact ht (ho.unique h2 h1)
        | _ => exact hfix
    · have hvma : b.vma ≠ a.vma := fun h => hba (hi.mem.eq_of_vma hb.mapped ha.mapped h)
      refine ⟨hb.mapped, Iff.rfl,
        by rw [hinits], fun f s e h => ⟨f, ?_⟩, fun h => ?_, fun _ => g.flags_of_ne _ hba,
        fun y _ h => by rw [hp]; exact h⟩
      · rw [hr _ fun h => hvma (Ref.vma.inj h)]
        exact h
      · rw [g.flags_of_ne _ hba]
        exact h
  · rw [hnow]
    exact iff_of_false (owner_of_on (by rintro (h | h) <;> cases h))
      (owner_of_on (by rintro (h | h) <;> cases h))

theorem Inv.protect (hi : Inv ps s g) {ans : Answer} (hnow : (s.pc t).now = .protect x z k ans) :
    ∃ m' a, Sched.protect ps s.mem x.addr ans = some m' ∧ a ∈ g.mapped ∧ Fits (g.flags a) ans ∧
      a.Owns ps x.addr ∧
      (∀ y, m'.prot y = s.mem.prot y ∨ a.InData ps y ∧ m'.prot y = some ans.prot) ∧
      Inv ps ⟨m', L, Function.update s.pc t ⟨.handleLet x z k, (s.pc t).kept⟩⟩ g := by
  obtain ⟨a, ha⟩ := hi.at_now hnow nofun
  obtain ⟨hz, hown⟩ := ha.on
  obtain ⟨hwrite, hle, hone, hfits⟩ := ha.locals
  have hx := (hi.mem.region a ha.mapped).inData_of_owns hown
  obtain ⟨m', he, hm, hheap, hl, hinits, hpx, hp⟩ := hi.mem.protected_ ha.mapped hx hfits
  have hne : g.flags a ≠ 0 := by
    rcases hfits with ⟨-, h⟩ | ⟨-, h⟩ <;> rw [h] <;> decide
  have hrw : x.faults = 1 → m'.prot x.addr.toNat = some PROT_RW := fun h1 => by rw [hpx, hone h1]
  refine ⟨m', a, he, ha.mapped, hfits, hown, hp, hi.move hm
    (Or.inr ⟨a, ⟨hz, hown⟩, ha.mapped, ha.listed, fun z k h => ?_, hwrite, hle, hne, hrw⟩)
    (fun t' _ b hb => ?_) (hi.pass rfl hl fun b hb => ?_)
    (KeptOk.of_eq hinits (Finset.Subset.refl _)) fun ℓ h => Or.inl h⟩
  · rw [hinits]
    exact ha.inits z k h
  · refine ⟨hb.mapped, Iff.rfl,
      by rw [hinits], fun f s e h => ⟨f, ?_⟩, id, fun _ => rfl, fun y hy h => ?_⟩
    · rw [hheap]
      exact h
    · rcases hp y with he | ⟨hay, he⟩
      · rw [he]
        exact h
      · rw [he]
        rcases hfits with ⟨-, hf⟩ | ⟨ha', -⟩
        · -- nothing in this data segment could be written to
          exfalso
          rcases hi.mem.data a ha.mapped y hay with h' | ⟨-, h'⟩
          · rw [h] at h'
            cases h'
          · rw [hf] at h'
            cases h'
        · rw [ha']
  · rw [hnow]
    exact iff_of_false (owner_of_on (by rintro (h | h) <;> cases h))
      (owner_of_on (by rintro (h | h) <;> cases h))

theorem Inv.remove (hi : Inv ps s g) (hu : WellUsed ps s) {vmAddr : ℕ}
    (hnow : (s.pc t).now = .remove z k vmAddr) :
    ∃ h g', spTreeRemove s.mem.heap vmAddr = some h ∧ g'.mapped = g.mapped ∧
      Inv ps ⟨{ s.mem with heap := h }, L, Function.update s.pc t ⟨.removeLet z k, (s.pc t).kept⟩⟩
        g' := by
  obtain ⟨a, ha⟩ := hi.at_now hnow nofun
  have hz : a.vma = z := ha.on
  have hv : vmAddr = (a.vmStart ps).toNat := ha.locals
  subst hv
  have howner : (s.pc t).now.Owner ps a := by
    rw [hnow]
    exact ⟨Or.inr rfl, hz⟩
  have hal : a ∈ g.listed := ha.listed.mpr trivial
  obtain ⟨h, he, hm, hr⟩ := hi.mem.removed hal (hi.not_live ha.mapped howner)
  obtain ⟨v, hv, hvf, hvs, hve⟩ := hi.mem.cell hal
  have hrange : h.range (.vma a.vma) = some
      (g.flags a, (a.vmStart ps).toNat, (a.vmEnd ps).toNat) := by
    rw [hr]
    unfold Heap.range
    rw [hv, Option.map_some, hvf, hvs, hve]
  refine ⟨h, { g with listed := g.listed.erase a }, he, rfl, hi.move hm
    (Or.inr ⟨a, hz, ha.mapped, iff_of_false (Finset.notMem_erase _ _) id, ha.inits, _, hrange⟩)
    (fun t' ht b hb => ?_) (hi.pass rfl rfl fun _ _ => by rw [hnow]; rfl)
    (KeptOk.of_eq rfl (Finset.erase_subset _ _)) fun ℓ h => Or.inl h⟩
  have hba : b ≠ a := hi.alone hu howner ha.mapped ht hb
  refine ⟨hb.mapped, ?_, rfl, fun f s e h => ⟨f, ?_⟩, id, fun _ => rfl, fun y _ h => h⟩
  · simp [hba]
  · rw [hr]
    exact h

theorem Inv.unmap (hi : Inv ps s g) (hu : WellUsed ps s) (hnow : (s.pc t).now = .unmap z k) :
    ∃ m' g' a, Sched.unmap ps s.mem z = some m' ∧ a ∈ g.mapped ∧ a ∉ s.mem.live ∧
      (∀ y, ¬ a.InRegion ps y → m'.prot y = s.mem.prot y) ∧
      (∀ b ∈ g.mapped, b ∈ g'.mapped ∨ (s.pc t).now.Owner ps b) ∧
      Inv ps ⟨m', L, Function.update s.pc t ⟨.rest, .node z k :: (s.pc t).kept⟩⟩ g' := by
  obtain ⟨a, ha⟩ := hi.at_now hnow nofun
  have hz : a.vma = z := ha.on
  subst hz
  obtain ⟨f, hf⟩ := ha.locals
  have hnl : a ∉ g.listed := fun h => ha.listed.mp h
  have howner : (s.pc t).now.Owner ps a := by
    rw [hnow]
    exact ⟨Or.inr rfl, rfl⟩
  obtain ⟨m', he, hm, hl, hinits, hr, hp⟩ := hi.mem.unmapped ha.mapped hnl hf
  have hkeep (b : Alloc) (hb : b ∈ g.mapped) : b ∈ g.mapped.erase a ∨ (s.pc t).now.Owner ps b := by
    by_cases hba : b = a
    · exact Or.inr (hba ▸ howner)
    · exact Or.inl (Finset.mem_erase.mpr ⟨hba, hb⟩)
  refine ⟨m', _, a, he, ha.mapped, hi.not_live ha.mapped howner, hp, hkeep,
    hi.move hm (Or.inl rfl) (fun t' ht b hb => ?_)
    (fun b hb => ?_) (KeptOk.of_eq hinits (Finset.Subset.refl _)) fun ℓ h => ?_⟩
  · have hba : b ≠ a := hi.alone hu howner ha.mapped ht hb
    have hvma : b.vma ≠ a.vma := fun h => hba (hi.mem.eq_of_vma hb.mapped ha.mapped h)
    refine ⟨Finset.mem_erase.mpr ⟨hba, hb.mapped⟩, Iff.rfl,
      by rw [hinits], fun f s e h => ⟨f, ?_⟩, id, fun _ => rfl,
      fun y hy h => ?_⟩
    · rw [hr _ fun h => hvma (Ref.vma.inj h)]
      exact h
    · rw [hp y ((hi.mem.away b hb.mapped a ha.mapped hba).not_inRegion
        (Region.inRegion_of_inData hy))]
      exact h
  · obtain ⟨hba, hb⟩ := Finset.mem_erase.mp hb
    have hrest : ¬ (Point.rest).Owner ps b := fun ho => ho.2
    have hother : ¬ (s.pc t).now.Owner ps b := fun ho => by
      rw [hnow] at ho
      exact hba (hi.mem.eq_of_vma hb ha.mapped ho.2)
    rw [hl]
    exact ⟨by simp [hb, hrest, hother], fun h => hrest h.2⟩
  · rcases List.mem_cons.mp h with rfl | h
    · obtain ⟨-, hk⟩ := ha.inits a.vma k rfl
      refine Or.inr (Or.inr ⟨by rw [hinits]; exact hk, fun b hb he => ?_⟩)
      exact hnl (hi.mem.eq_of_vma (hi.mem.listed hb) ha.mapped he ▸ hb)
    · exact Or.inl h

end

/-- A region is unmapped only by the thread that owns it. -/
theorem Inv.code (hi : Inv ps s g) (ho : Owned Holds s) (hu : WellUsed ps s)
    (hs : CodeStep ps s.mem (s.pc t).now m' q') :
    ∃ g', Inv ps ⟨m', L, Function.update s.pc t ⟨q', (s.pc t).now.keeps ++ (s.pc t).kept⟩⟩ g' ∧
      ∀ b ∈ g.mapped, b ∈ g'.mapped ∨ (s.pc t).now.Owner ps b := by
  have hsame {g' : Ghost} (h : g'.mapped = g.mapped) (b : Alloc) (hb : b ∈ g.mapped) :
      b ∈ g'.mapped ∨ (s.pc t).now.Owner ps b :=
    Or.inl (h ▸ hb)
  have hrest {b : Alloc} : ¬ (Point.rest).Owner ps b := fun h => h.2
  generalize hnow : (s.pc t).now = q at hs
  cases hs with
  | mallocFails => exact ⟨g, hi.stay (Or.inl rfl) (fun _ _ => by rw [hnow]) fun _ h => h,
      hnow ▸ hsame rfl⟩
  | mapped hok => exact ⟨_, hi.mapped hnow hok, fun b hb => Or.inl (Finset.mem_insert_of_mem hb)⟩
  | @starts a addr write ha how =>
    have hal := hi.mem.live a ha
    have hloc : Local ps s.mem g a (.access ⟨addr, write, 0⟩) :=
      ⟨Nat.zero_le _, fun h => absurd rfl h, nofun⟩
    refine ⟨g, hi.stay (Or.inr ⟨a, how, hi.mem.listed hal, iff_of_true hal trivial, nofun, hloc⟩)
      (fun _ _ => ?_) (fun _ h => h),
      hnow ▸ hsame rfl⟩
    rw [hnow]
    exact iff_of_false (owner_of_on (by rintro (h | h) <;> cases h)) hrest
  | @frees a ha =>
    have hal := hi.mem.live a ha
    have ham := hi.mem.listed hal
    refine ⟨g, hi.move ⟨hi.mem.tree, hi.mem.listed,
      fun b hb => hi.mem.live b (List.mem_of_mem_filter hb), hi.mem.region,
      hi.mem.away, hi.mem.covered, hi.mem.header, hi.mem.data, hi.mem.flags⟩
      (Or.inr ⟨a, rfl, ham, iff_of_true hal trivial, nofun, trivial⟩)
      (fun t' _ b hb => Keeps.of_heap hb.mapped rfl rfl fun _ => rfl) (fun b hb => ?_)
      (fun _ h => h) (fun _ h => Or.inl h),
      hnow ▸ hsame rfl⟩
    rw [hnow]
    have hown : (Point.findGet (.free (a.vmStart ps))).Owner ps b ↔ b = a :=
      ⟨fun h => hi.mem.eq_of_vmStart hb ham h.2,
        fun h => ⟨Or.inr rfl, congrArg (Alloc.vmStart ps) h⟩⟩
    have hne : b.vmStart ps = a.vmStart ps ↔ b = a :=
      ⟨hi.mem.eq_of_vmStart hb ham, congrArg (Alloc.vmStart ps)⟩
    simp only [hown, hrest, List.mem_filter, decide_eq_true_eq]
    refine ⟨⟨?_, ?_⟩, fun h => h.1.2 (hne.mpr h.2)⟩
    · rintro (h | rfl)
      · exact Or.inr (Or.inl h.1)
      · exact Or.inr (Or.inl ha)
    · rintro (h | h | h)
      · exact absurd hb h
      · by_cases hba : b = a
        · exact Or.inr hba
        · exact Or.inl ⟨h, mt hne.mp hba⟩
      · exact h.elim
  | insert he =>
    obtain ⟨m₁, he', hi'⟩ := hi.insert hu hnow (L := L)
    obtain rfl := Option.some.inj (he.symm.trans he')
    exact ⟨_, hi', hnow ▸ hsame rfl⟩
  | @mallocReturn a =>
    obtain ⟨b, hb⟩ := hi.at_now hnow nofun
    obtain rfl : b = a := hb.on
    have hbl : b ∈ g.listed := hb.listed.mpr trivial
    have hlive : ∀ c ∈ b :: s.mem.live, c ∈ g.listed :=
      fun c hc => (List.mem_cons.mp hc).elim (fun h => h ▸ hbl) (hi.mem.live c)
    refine ⟨g, hi.move ⟨hi.mem.tree, hi.mem.listed, hlive, hi.mem.region, hi.mem.away,
      hi.mem.covered, hi.mem.header,
      hi.mem.data, hi.mem.flags⟩ (Or.inl rfl)
        (fun t' _ c hc => Keeps.of_heap hc.mapped rfl rfl fun _ => rfl) (fun c hc => ?_)
      (fun _ h => h) (fun _ h => Or.inl h), hnow ▸ hsame rfl⟩
    rw [hnow]
    have hown : (Point.mallocReturn b).Owner ps c ↔ c = b :=
      ⟨fun h => h.2, fun h => ⟨Or.inl rfl, h⟩⟩
    simp only [hown, hrest, List.mem_cons]
    refine ⟨?_, fun h => h.2⟩
    constructor
    · rintro ((h | h) | h)
      · exact Or.inr (Or.inr h)
      · exact Or.inr (Or.inl h)
      · exact h.elim
    · rintro (h | h | h)
      · exact absurd hc h
      · exact Or.inl (Or.inr h)
      · exact Or.inl (Or.inl h)
  | granted h =>
    refine ⟨g, hi.stay (Or.inl rfl) (fun _ _ => ?_) (fun _ h => h), hnow ▸ hsame rfl⟩
    rw [hnow]
    exact iff_of_false hrest (owner_of_on (by rintro (h | h) <;> cases h))
  | @faults x h =>
    obtain ⟨a, ha⟩ := hi.at_now hnow nofun
    obtain ⟨hle, hf, hrw⟩ := ha.locals
    have hdata := (hi.mem.region a ha.mapped).inData_of_owns ha.on
    -- reads are always allowed, and so is everything after the second fault
    have hwrite : x.write = true := by
      by_contra hw
      rw [Bool.not_eq_true] at hw
      rw [hw] at h
      exact h (hi.mem.readable ha.mapped hdata)
    have hle' : x.faults ≤ 1 := by
      by_contra hgt
      have h2 : x.faults = 2 := by omega
      rw [hrw h2, hwrite] at h
      exact h (by decide)
    have hfine : Faulting (g.flags a) x := ⟨hwrite, hle', fun h1 => hf (by omega)⟩
    refine ⟨g, hi.stay (Or.inr ⟨a, ha.on, ha.mapped, ha.listed, nofun, hfine⟩) (fun _ _ => ?_)
      (fun _ h => h), hnow ▸ hsame rfl⟩
    rw [hnow]
    exact iff_of_false (owner_of_on (by rintro (h | h) <;> cases h))
      (owner_of_on (by rintro (h | h) <;> cases h))
  | find he =>
    obtain ⟨h, z, he', hi'⟩ := hi.find hnow (L := L)
    cases he.symm.trans he'
    exact ⟨_, hi', hnow ▸ hsame rfl⟩
  | handle he =>
    obtain ⟨m₁, ans, g', he', -, hg, hi'⟩ := hi.handle ho hu hnow (L := L)
    cases he.symm.trans he'
    exact ⟨_, hi', hnow ▸ hsame hg⟩
  | protect he =>
    obtain ⟨m₁, a, he', -, -, -, -, hi'⟩ := hi.protect hnow (L := L)
    cases he.symm.trans he'
    exact ⟨_, hi', hnow ▸ hsame rfl⟩
  | @freeRead z k v hv =>
    obtain ⟨a, ha⟩ := hi.at_now hnow nofun
    have hz : a.vma = z := ha.on
    obtain ⟨w, hw, -, hs, -⟩ := hi.mem.cell (ha.listed.mpr trivial)
    rw [hz, hv] at hw
    obtain rfl := Option.some.inj hw
    exact ⟨g, hi.stay (Or.inr ⟨a, hz, ha.mapped, ha.listed, ha.inits, hs⟩)
      (fun _ _ => by rw [hnow]; rfl) (fun _ h => h),
      hnow ▸ hsame rfl⟩
  | remove he =>
    obtain ⟨h, g', he', hg, hi'⟩ := hi.remove hu hnow (L := L)
    cases he.symm.trans he'
    exact ⟨_, hi', hnow ▸ hsame hg⟩
  | unmap he =>
    obtain ⟨m₁, g', a, he', -, -, -, hkeep, hi'⟩ := hi.unmap hu hnow (L := L)
    obtain rfl := Option.some.inj (he.symm.trans he')
    exact ⟨_, hi', hnow ▸ hkeep⟩

theorem Inv.step (hi : Inv ps s g) (ho : Owned Holds s) (hu : WellUsed ps s)
    (hs : Step (threads Tid ps) s t s') :
    ∃ g', Inv ps s' g' ∧ ∀ b ∈ g.mapped, b ∈ g'.mapped ∨ (s.pc t).now.Owner ps b := by
  cases hs with
  | get h _ => exact ⟨g, hi.get hu h, fun _ hb => Or.inl hb⟩
  | drop h => exact ⟨g, hi.drop h, fun _ hb => Or.inl hb⟩
  | code h he hc =>
    obtain ⟨⟨m, q⟩, hr, h⟩ := Option.map_eq_some_iff.mp hc
    cases h
    exact hi.code ho hu (codeStep_of he hr)

/-! ### Runs -/

def noGhost : Ghost := ⟨∅, ∅, fun _ => 0⟩

omit [DecidableEq Tid] in
theorem Start.inv (h : Start s) : Inv ps s noGhost := by
  have htree : OpenOOC.Holds s.mem.heap ∅ .nil := by
    have hroot : spTreeInit s.mem.heap = s.mem.heap := by
      unfold spTreeInit
      rw [← h.root]
    exact hroot ▸ holds_init h.stack
  refine ⟨⟨⟨_, htree⟩, fun _ h => h, fun a ha => ?_, nofun, nofun, fun x hx => absurd (h.prot x) hx,
    nofun, nofun, nofun⟩,
    fun t => Or.inl (by rw [h.pc]), nofun, fun t ℓ hℓ => ?_⟩
  · rw [h.live] at ha
    cases ha
  · rw [h.pc] at hℓ
    cases hℓ

/-- Runs in which no access is in progress to an allocation whose freeing has begun. -/
theorem Start.inv_of_runs (h₀ : Start s₀)
    (hr : Runs (threads Tid ps) (fun s _ => WellUsed ps s) s₀ s) : ∃ g, Inv ps s g := by
  induction hr with
  | start => exact ⟨_, h₀.inv⟩
  | step hr hu hs ih =>
    obtain ⟨g, hi⟩ := ih
    obtain ⟨g', hi', -⟩ := hi.step (h₀.owned_of_runs hr) hu hs
    exact ⟨g', hi'⟩

end OpenOOC.Sched
