import OpenOOC.Sched.Faults

/-! How `S_sigsegv_handler` answers the faults of a run. The flow chart of `sched.c` keeps
two bits for each page, the code two bits for each allocation; here it is said when the
two agree. -/

namespace OpenOOC.Sched

open LockMachine

/-! ### Faults and answers -/

section

variable {Tid : Type} [DecidableEq Tid]

/-- The fault that the code at `q` answers, and how. -/
def servedAt (m : Mem) : Point → Option (Addr × Answer)
  | .handle x z _ => (m.heap.cell (.vma z)).map fun v => (x.addr, (answer v.vmFlags).2)
  | _ => none

def served (s : State Tid) (t : Tid) : Option (Addr × Answer) := servedAt s.mem (s.pc t).now

/-- Runs during which `a` is live, with the faults that are answered on the way. -/
inductive FaultRuns (ps : PageSize) (a : Alloc) :
    State Tid → List (Addr × Answer) → State Tid → Prop
  | done {s : State Tid} : FaultRuns ps a s [] s
  | step {s s₁ s' : State Tid} {t : Tid} {l : List (Addr × Answer)} (hu : WellUsed ps s)
      (ha : a ∈ s.mem.live) (hs : Step (threads Tid ps) s t s₁) (hr : FaultRuns ps a s₁ l s') :
      FaultRuns ps a s ((served s t).toList ++ l) s'

end

def answersOn (ps : PageSize) (P : Addr) (l : List (Addr × Answer)) : List Answer :=
  (l.filter fun r => pageAlign ps r.1 = P).map Prod.snd

def onPage (ps : PageSize) (P : Addr) (l : List (Addr × Answer)) : List Addr :=
  (l.map Prod.fst).filter fun x => pageAlign ps x = P

/-- What the flow chart says of `n` faults on one page: the first one is not resident,
the others are. -/
def charted : ℕ → List Answer
  | 0 => []
  | n + 1 => ⟨false, PROT_READ⟩ :: List.replicate n ⟨true, PROT_RW⟩

/-- The first of the faults on the allocation is on the page at `P`. -/
def Leads (ps : PageSize) (a : Alloc) (P : Addr) (l : List (Addr × Answer)) : Prop :=
  ∃ r, l.find? (fun r => a.Owns ps r.1) = some r ∧ pageAlign ps r.1 = P

/-- There was no fault on the allocation before, and the first one now is on the page at
`P`. -/
def First (ps : PageSize) (a : Alloc) (v : VmArea) (P : Addr) (l : List (Addr × Answer)) : Prop :=
  v.vmFlags &&& 0x1 = 0 ∧ Leads ps a P l

variable {ps : PageSize} {m : Mem} {g : Ghost} {a b : Alloc} {x y P : Addr}
  {l l₁ l₂ : List (Addr × Answer)} {r : Addr × Answer} {n : ℕ}

theorem MemOk.eq_of_page (hm : MemOk ps m g) (ha : a ∈ g.mapped) (hb : b ∈ g.mapped)
    (hy : a.Owns ps y) (hx : b.Owns ps x) (hp : pageAlign ps x = pageAlign ps y) : a = b := by
  have hpage (z : Addr) : (pageAlign ps z).toNat < (pageAlign ps z).toNat + ps.bytes :=
    Nat.lt_add_of_pos_right (Nat.two_pow_pos _)
  have hra := hm.region a ha
  have hrb := hm.region b hb
  have h1 := page_inData hra (hra.inData_of_owns hy) (y := (pageAlign ps y).toNat)
    ⟨le_refl _, hpage y⟩
  have h2 := page_inData hrb (hrb.inData_of_owns hx) (y := (pageAlign ps x).toNat)
    ⟨le_refl _, hpage x⟩
  rw [hp] at h2
  exact hm.eq_of_inRegion ha hb (Region.inRegion_of_inData h1) (Region.inRegion_of_inData h2)

/-! ### Lists of faults -/

theorem answersOn_cons_of_eq (h : pageAlign ps r.1 = P) :
    answersOn ps P (r :: l) = r.2 :: answersOn ps P l := by
  unfold answersOn
  rw [List.filter_cons_of_pos (by simpa using h), List.map_cons]

theorem answersOn_cons_of_ne (h : pageAlign ps r.1 ≠ P) :
    answersOn ps P (r :: l) = answersOn ps P l := by
  unfold answersOn
  rw [List.filter_cons_of_neg (by simpa using h)]

theorem onPage_cons_of_eq (h : pageAlign ps r.1 = P) :
    onPage ps P (r :: l) = r.1 :: onPage ps P l := by
  unfold onPage
  rw [List.map_cons, List.filter_cons_of_pos (by simpa using h)]

theorem onPage_cons_of_ne (h : pageAlign ps r.1 ≠ P) : onPage ps P (r :: l) = onPage ps P l := by
  unfold onPage
  rw [List.map_cons, List.filter_cons_of_neg (by simpa using h)]

theorem leads_cons_of_owns (h : a.Owns ps r.1) : Leads ps a P (r :: l) ↔ pageAlign ps r.1 = P := by
  unfold Leads
  rw [List.find?_cons_of_pos (by simpa using h)]
  simp

theorem leads_cons_of_not_owns (h : ¬ a.Owns ps r.1) : Leads ps a P (r :: l) ↔ Leads ps a P l := by
  unfold Leads
  rw [List.find?_cons_of_neg (by simpa using h)]

theorem charted_ne (h : n ≠ 0) : charted n ≠ List.replicate n ⟨true, PROT_RW⟩ := by
  cases n with
  | zero => exact absurd rfl h
  | succ n =>
    intro he
    have := (List.cons.inj he).1
    cases this

/-! ### One step -/

variable {Tid : Type} {s s₀ s₁ s₂ s' : State Tid} {t : Tid}

abbrev flagsOf (s : State Tid) (a : Alloc) : BitVec 64 := s.mem.heap.flags (.vma a.vma)

theorem flagsOf_of_range (h : s'.mem.heap.range (.vma a.vma) = s.mem.heap.range (.vma a.vma)) :
    flagsOf s' a = flagsOf s a := by
  unfold flagsOf Heap.flags
  unfold Heap.range at h
  cases hc : s.mem.heap.cell (.vma a.vma) <;> cases hc' : s'.mem.heap.cell (.vma a.vma) <;>
    rw [hc, hc'] at h <;> simp_all

theorem Inv.flagsOf (hi : Inv ps s g) (ha : a ∈ g.listed) : flagsOf s a = g.flags a := by
  obtain ⟨v, hv, hf, -⟩ := hi.mem.cell ha
  unfold Sched.flagsOf Heap.flags
  rw [hv, Option.map_some, Option.getD_some, hf]

theorem served_of_ne (h : ∀ x z k, (s.pc t).now ≠ .handle x z k) : served s t = none := by
  unfold served servedAt
  split
  · rename_i x z k hq
    exact absurd hq (h x z k)
  · rfl

/-- What is answered is a fault on a live allocation. -/
theorem served_live (hu : WellUsed ps s) (h : served s t = some r) :
    ∃ b ∈ s.mem.live, b.Owns ps r.1 := by
  unfold served servedAt at h
  split at h
  · rename_i x z k hq
    obtain ⟨v, -, rfl⟩ := Option.map_eq_some_iff.mp h
    exact hu.uses t x (by rw [hq]; rfl)
  · cases h

variable [DecidableEq Tid]

/-- An answer on a live allocation is given by its flags, and changes them; nothing else
does. -/
theorem Inv.flags_of_step (hi : Inv ps s g) (ha : a ∈ s.mem.live)
    (hs : Step (threads Tid ps) s t s₁) :
    (∃ r, served s t = some r ∧ a.Owns ps r.1 ∧ r.2 = (answer (Sched.flagsOf s a)).2 ∧
      Sched.flagsOf s₁ a = (answer (Sched.flagsOf s a)).1) ∨
    (∀ r, served s t = some r → ¬ a.Owns ps r.1) ∧ Sched.flagsOf s₁ a = Sched.flagsOf s a := by
  have hal := hi.mem.live a ha
  have ham := hi.mem.listed hal
  have hquiet (h : served s t = none)
      (hr : s₁.mem.heap.range (.vma a.vma) = s.mem.heap.range (.vma a.vma)) :
      (∀ r, served s t = some r → ¬ a.Owns ps r.1) ∧ Sched.flagsOf s₁ a = Sched.flagsOf s a :=
    ⟨fun r he => absurd (h.symm.trans he).symm (Option.some_ne_none r), flagsOf_of_range hr⟩
  -- a struct of another allocation is at another place
  have hne {b : Alloc} (hb : b ∈ g.mapped) (hba : b ≠ a) : Ref.vma a.vma ≠ .vma b.vma := fun h =>
    hba (hi.mem.eq_of_vma hb ham (Ref.vma.inj h).symm)
  cases hs with
  | get h _ =>
    refine Or.inr (hquiet (served_of_ne fun x z k hq => ?_) rfl)
    change instr (s.pc t) = _ at h
    rw [instr, hq] at h
    cases h
  | drop h =>
    refine Or.inr (hquiet (served_of_ne fun x z k hq => ?_) rfl)
    change instr (s.pc t) = _ at h
    rw [instr, hq] at h
    cases h
  | code h he hc =>
    obtain ⟨⟨m, q⟩, hr, h⟩ := Option.map_eq_some_iff.mp hc
    cases h
    have hstep := codeStep_of he hr
    generalize hnow : (s.pc t).now = q₀ at hstep
    have hserved (hq : servedAt s.mem q₀ = none) : served s t = none := by
      rw [served, hnow, hq]
    cases hstep with
    | @insert m' b he =>
      obtain ⟨c, hc⟩ := hi.at_now hnow (by simp)
      obtain rfl := hc.on
      obtain ⟨m', he', -, -, -, -, hr⟩ := hi.mem.inserted hc.mapped (mt hc.listed.mp id) hc.locals
      obtain rfl := Option.some.inj (he.symm.trans he')
      refine Or.inr (hquiet (hserved rfl) (hr _ (hne hc.mapped fun h => ?_)))
      exact hc.listed.mp (h ▸ hal)
    | find he => exact Or.inr (hquiet (hserved rfl) ((hi.mem.found he).2 _))
    | @handle m' x z k ans he =>
      obtain ⟨b, hb⟩ := hi.at_now hnow (by simp)
      have hbl := hb.listed.mpr trivial
      obtain ⟨hz, hown⟩ := hb.on
      obtain ⟨v, hv, hf, -⟩ := hi.mem.cell hbl
      obtain ⟨m', he', hm, -, -, -, hrange⟩ := hi.mem.handled hbl
      rw [hz] at he'
      cases he.symm.trans he'
      have hserved : served s t = some (x.addr, (answer v.vmFlags).2) := by
        unfold served servedAt
        rw [hnow]
        simp only [← hz, hv, Option.map_some]
      by_cases hba : b = a
      · subst hba
        refine Or.inl ⟨_, hserved, hown, ?_, ?_⟩
        · rw [hi.flagsOf hbl, ← hf]
        · obtain ⟨w, hw, hwf, -⟩ := hm.cell (a := b) hbl
          rw [hi.flagsOf hbl]
          unfold Sched.flagsOf Heap.flags
          dsimp only
          rw [hw, Option.map_some, Option.getD_some, hwf, g.flags_self]
      · refine Or.inr ⟨fun r hr' ho => ?_, flagsOf_of_range (hrange _ (hne hb.mapped hba))⟩
        obtain rfl := Option.some.inj (hserved.symm.trans hr')
        exact hba (hi.mem.eq_of_owns hb.mapped ham hown ho)
    | @protect m' x z k ans he =>
      obtain ⟨b, hb⟩ := hi.at_now hnow (by simp)
      obtain ⟨-, hown⟩ := hb.on
      obtain ⟨-, -, -, hfits⟩ := hb.locals
      obtain ⟨m', he', -, hheap, -⟩ :=
        hi.mem.protected_ hb.mapped ((hi.mem.region b hb.mapped).inData_of_owns hown) hfits
      obtain rfl := Option.some.inj (he.symm.trans he')
      exact Or.inr (hquiet (hserved rfl) (congrArg (fun h => h.range (.vma a.vma)) hheap))
    | @remove z k vmAddr h he =>
      obtain ⟨b, hb⟩ := hi.at_now hnow (by simp)
      have hv : vmAddr = (b.vmStart ps).toNat := hb.locals
      subst hv
      have howner : (s.pc t).now.Owner ps b := by
        rw [hnow]
        exact ⟨Or.inr rfl, hb.on⟩
      obtain ⟨h, he', -, hr⟩ := hi.mem.removed (hb.listed.mpr trivial)
        (hi.not_live hb.mapped howner)
      obtain rfl := Option.some.inj (he.symm.trans he')
      exact Or.inr (hquiet (hserved rfl) (hr _))
    | @unmap m' z k he =>
      obtain ⟨b, hb⟩ := hi.at_now hnow (by simp)
      have hz : b.vma = z := hb.on
      subst hz
      obtain ⟨f, hf⟩ := hb.locals
      have hbl : b ∉ g.listed := fun h => hb.listed.mp h
      obtain ⟨m', he', -, -, -, hr, -⟩ := hi.mem.unmapped hb.mapped hbl hf
      obtain rfl := Option.some.inj (he.symm.trans he')
      exact Or.inr (hquiet (hserved rfl) (hr _ (hne hb.mapped fun h => hbl (h ▸ hal))))
    | _ => exact Or.inr (hquiet (hserved rfl) rfl)

/-! ### Runs -/

theorem answer_flags_ne {f : BitVec 64} (hf : f = 0 ∨ f = 0x1 ∨ f = 0x11) : (answer f).1 ≠ 0 := by
  rcases answer_flags hf with ⟨-, h⟩ | ⟨-, h⟩ <;> rw [h] <;> decide

open Classical in
/-- The answers on a page, by whether the first of the faults on its allocation is on it. -/
theorem FaultRuns.answersOn (h : FaultRuns ps a s l s') (h₀ : Start s₀)
    (hr₀ : Runs (threads Tid ps) (fun s _ => WellUsed ps s) s₀ s) (hy : a.Owns ps y)
    (hP : pageAlign ps y = P) : answersOn ps P l =
      if flagsOf s a = 0 ∧ Leads ps a P l then charted (onPage ps P l).length
      else List.replicate (onPage ps P l).length ⟨true, PROT_RW⟩ := by
  induction h with
  | done => split_ifs <;> rfl
  | @step s s₁ s' t l hu ha hs _ ih =>
    have ih := ih (hr₀.step hu hs)
    obtain ⟨g, hi⟩ := h₀.inv_of_runs hr₀
    have hal := hi.mem.live a ha
    have ham := hi.mem.listed hal
    rcases hi.flags_of_step ha hs with ⟨⟨x, ans⟩, hserved, hown, hans, hflags⟩ | ⟨hnot, hflags⟩
    · have hcases := hi.mem.flags a ham
      rw [← hi.flagsOf hal] at hcases
      rw [hserved, Option.toList_some, List.singleton_append, leads_cons_of_owns hown]
      -- from now on every fault on the allocation is resident
      rw [hflags, if_neg fun h => answer_flags_ne hcases h.1] at ih
      by_cases hpage : pageAlign ps x = P
      · rw [answersOn_cons_of_eq hpage, onPage_cons_of_eq hpage, List.length_cons, ih]
        dsimp only at hans
        rw [hans]
        rcases answer_flags hcases with ⟨h, h'⟩ | ⟨h, h'⟩
        · rw [if_pos ⟨h, hpage⟩, h', charted]
        · rw [if_neg, h', List.replicate_succ]
          rintro ⟨h0, -⟩
          rw [h0] at h
          rcases h with h | h <;> cases h
      · rw [answersOn_cons_of_ne hpage, onPage_cons_of_ne hpage, ih, if_neg fun h => hpage h.2]
    · rw [hflags] at ih
      cases hserved : served s t with
      | none => exact ih
      | some r =>
        have hr := hnot r hserved
        obtain ⟨b, hb, hbr⟩ := served_live hu hserved
        have hpage : pageAlign ps r.1 ≠ P := fun h => hr <| by
          obtain rfl := hi.mem.eq_of_page ham (hi.mem.listed (hi.mem.live b hb)) hy hbr
            (h.trans hP.symm)
          exact hbr
        rw [Option.toList_some, List.singleton_append, answersOn_cons_of_ne hpage,
          onPage_cons_of_ne hpage, leads_cons_of_not_owns hr]
        exact ih

/-- Two runs from one state, during which an allocation is live, with the same faults on
one of its pages: they are answered alike if and only if in both of them or in neither
the first fault ever on the allocation is on that page. This is also when the answers are
those of the flow chart. -/
theorem faults_answered_alike_iff (h₀ : Start s₀)
    (hr : Runs (threads Tid ps) (fun s _ => WellUsed ps s) s₀ s) (ha : a ∈ s.mem.live)
    (hy : a.Owns ps y) (hP : pageAlign ps y = P) (h₁ : FaultRuns ps a s l₁ s₁)
    (h₂ : FaultRuns ps a s l₂ s₂) (hsame : onPage ps P l₁ = onPage ps P l₂) :
    ∃ v, s.mem.heap.cell (.vma a.vma) = some v ∧
      (answersOn ps P l₁ = charted (onPage ps P l₁).length ↔
        onPage ps P l₁ = [] ∨ First ps a v P l₁) ∧
      (answersOn ps P l₁ = answersOn ps P l₂ ↔
        onPage ps P l₁ = [] ∨ (First ps a v P l₁ ↔ First ps a v P l₂)) := by
  classical
  obtain ⟨g, hi⟩ := h₀.inv_of_runs hr
  have hal := hi.mem.live a ha
  obtain ⟨v, hv, hf, -⟩ := hi.mem.cell hal
  have hans₁ := h₁.answersOn h₀ hr hy hP
  have hans₂ := h₂.answersOn h₀ hr hy hP
  have hfirst (l : List (Addr × Answer)) : flagsOf s a = 0 ∧ Leads ps a P l ↔ First ps a v P l := by
    unfold First
    rw [hi.flagsOf hal, hf]
    refine and_congr_left' ?_
    rcases hi.mem.flags a (hi.mem.listed hal) with h | h | h <;> rw [h] <;> decide
  simp only [hfirst] at hans₁ hans₂
  rw [← hsame] at hans₂
  refine ⟨v, hv, ?_⟩
  rw [hans₁, hans₂]
  by_cases hn : onPage ps P l₁ = []
  · simp [hn, charted]
  · have hne := charted_ne (mt List.length_eq_zero_iff.mp hn)
    by_cases hl₁ : First ps a v P l₁ <;> by_cases hl₂ : First ps a v P l₂ <;>
      simp [hl₁, hl₂, hn, hne, hne.symm]

/-! ### Runs that are computed -/

def execFaults (ps : PageSize) (ts : List Tid) (a : Alloc) :
    List (Tid × Input) → State Tid → Option (List (Addr × Answer))
  | [], _ => some []
  | (t, i) :: l, s =>
    if wellUsed ps ts s && decide (a ∈ s.mem.live) then
      ((computed Tid ps).stepOf s t i).bind fun s₁ =>
        (execFaults ps ts a l s₁).map fun r => (served s t).toList ++ r
    else none

theorem faultRuns_of_exec {ts : List Tid} (hts : ∀ t, t ∈ ts) {sched : List (Tid × Input)}
    (h : execFaults ps ts a sched s = some l) : ∃ s', FaultRuns ps a s l s' := by
  induction sched generalizing s l with
  | nil =>
    obtain rfl := Option.some.inj h
    exact ⟨s, .done⟩
  | cons c sched ih =>
    obtain ⟨t, i⟩ := c
    unfold execFaults at h
    split_ifs at h with hok
    obtain ⟨hu, ha⟩ := (Bool.and_eq_true _ _).mp hok
    obtain ⟨s₁, hs, h⟩ := Option.bind_eq_some_iff.mp h
    obtain ⟨r, hr, rfl⟩ := Option.map_eq_some_iff.mp h
    obtain ⟨s', h'⟩ := ih hr
    exact ⟨s', .step (wellUsed_sound hts s hu) (of_decide_eq_true ha)
      (Computed.stepOf_step hs) h'⟩

def mappedThree : State Unit :=
  ⟨{ nothingYet.mem with prot := mapProt .small nothingYet.mem.prot ⟨0x10000, 0x2000⟩ },
    fun _ => none, Function.update nothingYet.pc () ⟨.insertGet ⟨0x10000, 0x2000⟩, []⟩⟩

theorem mappedThree_wellUsed :
    TracedRuns (threads Unit .small) (fun s _ => WellUsed .small s) nothingYet [] mappedThree := by
  have hin : InputOk .small (nothingYet.pc ()) nothingYet.mem
      (.malloc 0x2000 (some 0x10000) true) := fun vma hv => by
    obtain rfl := Option.some.inj hv
    exact ⟨by decide, by decide, by decide, fun _ _ _ => rfl⟩
  have hstep : Step (threads Unit .small) nothingYet () mappedThree :=
    Step.code (K := threads Unit .small) (s := nothingYet) (t := ())
      (e := .malloc 0x2000 (some 0x10000) true) rfl hin rfl
  exact TracedRuns.start.step (wellUsed_of_idle fun _ => Or.inl rfl) hstep

def writeAt (addr : Addr) (n : ℕ) : List (Unit × Input) :=
  ((), .access addr true) :: steps (8 * n + 1)

/-- Two runs that start with a fault on the first page: it is answered alike, whether
the second page is written to later on or not. -/
theorem faults_answered_alike_iff_first : ∃ (s s₁ s₂ : State Unit) (l₁ l₂ : List (Addr × Answer)),
    Runs (threads Unit .small) (fun s _ => WellUsed .small s) nothingYet s ∧
      FaultRuns .small ⟨0x10000, 0x2000⟩ s l₁ s₁ ∧ FaultRuns .small ⟨0x10000, 0x2000⟩ s l₂ s₂ ∧
      l₁.map Prod.fst = [0x11000, 0x11000] ∧ l₂.map Prod.fst = [0x11000, 0x11000, 0x12000] ∧
      answersOn .small 0x11000 l₁ = charted 2 ∧
      answersOn .small 0x11000 l₁ = answersOn .small 0x11000 l₂ := by
  obtain ⟨s, hr, hs⟩ := run_of_schedule [()] (by simp) (steps 4) mappedThree_wellUsed
    (P := fun s => decide (s.mem.live = [⟨0x10000, 0x2000⟩]) &&
      (s.mem.heap.cell (.vma 0x10000)).any (fun v => v.vmFlags = 0) &&
      (execFaults .small [()] ⟨0x10000, 0x2000⟩ (writeAt 0x11000 2) s).any (fun l =>
        l.map Prod.fst = [0x11000, 0x11000]) &&
      (execFaults .small [()] ⟨0x10000, 0x2000⟩ (writeAt 0x11000 2 ++ writeAt 0x12000 1) s).any
        (fun l => l.map Prod.fst = [0x11000, 0x11000, 0x12000])) (by decide +kernel)
  simp only [Bool.and_eq_true, decide_eq_true_eq] at hs
  obtain ⟨⟨⟨hlive, hv⟩, h₁⟩, h₂⟩ := hs
  obtain ⟨v, hv, hf⟩ := (Option.any_eq_true _ _).mp hv
  obtain ⟨l₁, h₁, hl₁⟩ := (Option.any_eq_true _ _).mp h₁
  obtain ⟨l₂, h₂, hl₂⟩ := (Option.any_eq_true _ _).mp h₂
  replace hl₁ := of_decide_eq_true hl₁
  replace hl₂ := of_decide_eq_true hl₂
  obtain ⟨s₁, hr₁⟩ := faultRuns_of_exec (by simp) h₁
  obtain ⟨s₂, hr₂⟩ := faultRuns_of_exec (by simp) h₂
  have ha : (⟨0x10000, 0x2000⟩ : Alloc) ∈ s.mem.live := by
    rw [hlive]
    exact List.mem_singleton_self _
  have hpage : onPage .small 0x11000 l₁ = onPage .small 0x11000 l₂ := by
    unfold onPage
    rw [hl₁, hl₂]
    decide
  obtain ⟨w, hw, hcharted, halike⟩ := faults_answered_alike_iff nothingYet_start hr ha
    (y := 0x11000) (P := 0x11000) (by decide) (by decide) hr₁ hr₂ hpage
  obtain rfl : v = w := Option.some.inj (hv.symm.trans hw)
  have hfirst {l : List (Addr × Answer)} {xs : List Addr} (hl : l.map Prod.fst = 0x11000 :: xs) :
      First .small ⟨0x10000, 0x2000⟩ v 0x11000 l := by
    refine ⟨by rw [of_decide_eq_true hf]; decide, ?_⟩
    cases l with
    | nil => cases hl
    | cons r l =>
      obtain ⟨hr, -⟩ := List.cons.inj hl
      exact (leads_cons_of_owns (by rw [hr]; decide)).mpr (by rw [hr]; decide)
  have hlen : (onPage .small 0x11000 l₁).length = 2 := by
    unfold onPage
    rw [hl₁]
    decide
  rw [hlen] at hcharted
  exact ⟨s, s₁, s₂, l₁, l₂, hr, hr₁, hr₂, hl₁, hl₂, hcharted.mpr (Or.inr (hfirst hl₁)),
    halike.mpr (Or.inr (iff_of_true (hfirst hl₁) (hfirst hl₂)))⟩

/-- One fault on the first page, after one on the second page and without it: it is
answered otherwise, and gets all permissions at once. -/
theorem next_page_changes_answer : ∃ (s s₁ s₂ : State Unit) (l₁ l₂ : List (Addr × Answer)),
    Runs (threads Unit .small) (fun s _ => WellUsed .small s) nothingYet s ∧
      FaultRuns .small ⟨0x10000, 0x2000⟩ s l₁ s₁ ∧ FaultRuns .small ⟨0x10000, 0x2000⟩ s l₂ s₂ ∧
      onPage .small 0x11000 l₁ = [0x11000] ∧ onPage .small 0x11000 l₂ = [0x11000] ∧
      answersOn .small 0x11000 l₁ = charted 1 ∧
      answersOn .small 0x11000 l₂ = [⟨true, PROT_RW⟩] := by
  obtain ⟨s, hr, hs⟩ := run_of_schedule [()] (by simp) (steps 4) mappedThree_wellUsed
    (P := fun s =>
      (execFaults .small [()] ⟨0x10000, 0x2000⟩ (((), .access 0x11000 true) :: steps 8) s).any
        (fun l => onPage .small 0x11000 l = [0x11000] ∧ answersOn .small 0x11000 l = charted 1) &&
      (execFaults .small [()] ⟨0x10000, 0x2000⟩ (writeAt 0x12000 2 ++ writeAt 0x11000 1) s).any
        (fun l => onPage .small 0x11000 l = [0x11000] ∧
          answersOn .small 0x11000 l = [⟨true, PROT_RW⟩])) (by decide +kernel)
  obtain ⟨h₁, h₂⟩ := (Bool.and_eq_true _ _).mp hs
  obtain ⟨l₁, h₁, hl₁⟩ := (Option.any_eq_true _ _).mp h₁
  obtain ⟨l₂, h₂, hl₂⟩ := (Option.any_eq_true _ _).mp h₂
  obtain ⟨s₁, hr₁⟩ := faultRuns_of_exec (by simp) h₁
  obtain ⟨s₂, hr₂⟩ := faultRuns_of_exec (by simp) h₂
  obtain ⟨hp₁, ha₁⟩ := of_decide_eq_true hl₁
  obtain ⟨hp₂, ha₂⟩ := of_decide_eq_true hl₂
  exact ⟨s, s₁, s₂, l₁, l₂, hr, hr₁, hr₂, hp₁, hp₂, ha₁, ha₂⟩

end OpenOOC.Sched
