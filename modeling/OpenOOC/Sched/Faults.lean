import OpenOOC.Sched.Invariant

/-! What holds of a process that allocates, accesses and frees, by any number of
threads and in any order, as long as no access is in progress to an allocation whose
freeing has begun, and no empty allocation is freed. -/

namespace OpenOOC.Sched

open LockMachine

variable {Tid : Type} {ps : PageSize} {s s' s₀ : State Tid} {g : Ghost} {t t' : Tid} {a : Alloc}

/-! ### Permissions -/

theorem allowed_rw (w : Bool) : Allowed (some PROT_RW) w := by
  cases w <;> decide

theorem allowed_read {w : Bool} (h : Allowed (some PROT_READ) w) : w = false := by
  cases w with
  | false => rfl
  | true => exact absurd h (by decide)

/-- A live allocation can be read, what can be written to is marked dirty, and what is
dirty is marked as read. An access faults at most twice, and only to write. -/
structure FaultsOk (ps : PageSize) (s : State Tid) : Prop where
  flags : ∀ a ∈ s.mem.live, ∃ v, s.mem.heap.cell (.vma a.vma) = some v ∧
    (v.vmFlags &&& 0x10 ≠ 0 → v.vmFlags &&& 0x1 ≠ 0) ∧
    ∀ x, a.InData ps x → Allowed (s.mem.prot x) false ∧
      (Allowed (s.mem.prot x) true → v.vmFlags &&& 0x10 ≠ 0)
  faults : ∀ t x, (s.pc t).now = .findGet (.handler x) → x.write = true ∧ x.faults ≤ 1
  granted : ∀ t x, (s.pc t).now = .access x →
    x.faults ≤ 2 ∧ (x.faults = 2 → Allowed (s.mem.prot x.addr.toNat) x.write)

theorem Inv.faultsOk (hi : Inv ps s g) : FaultsOk ps s := by
  refine ⟨fun a ha => ?_, fun t x hq => ?_, fun t x hq => ?_⟩
  · have hal := hi.mem.live a ha
    obtain ⟨v, hv, hf, -, -⟩ := hi.mem.cell hal
    refine ⟨v, hv, ?_, fun x hx => ⟨hi.mem.readable (hi.mem.listed hal) hx, fun hw => ?_⟩⟩
    · rw [hf]
      rcases hi.mem.flags a (hi.mem.listed hal) with h | h | h <;> rw [h] <;> decide
    · rw [hf]
      rcases hi.mem.data a (hi.mem.listed hal) x hx with h | ⟨-, h⟩
      · rw [h] at hw
        cases allowed_read hw
      · rw [h]
        decide
  · obtain ⟨a, ha⟩ := hi.at_now hq nofun
    exact ⟨ha.locals.1, ha.locals.2.1⟩
  · obtain ⟨a, ha⟩ := hi.at_now hq nofun
    refine ⟨ha.locals.1, fun h2 => ?_⟩
    rw [ha.locals.2.2 h2]
    exact allowed_rw _

structure StepOk (ps : PageSize) (s s' : State Tid) (t : Tid) : Prop where
  grows : ∀ a ∈ s.mem.live, ∀ y, a.InRegion ps y → ∀ w, Allowed (s.mem.prot y) w →
    Allowed (s'.mem.prot y) w
  handler : ∀ x z k ans, (s.pc t).now = .protect x z k ans →
    ∃ a ∈ s.mem.live, a.vma = z ∧ a.Owns ps x.addr ∧
    ∀ y, s'.mem.prot y ≠ s.mem.prot y → a.InData ps y

section

variable [DecidableEq Tid]

/-- How many threads a thread may have to wait for, one after the other. -/
def Point.rank : Point → ℕ
  | .insertGet _ => 2
  | .findGet _ => 2
  | .removeGet .. => 2
  | .findGetNode .. => 1
  | _ => 0

/-- A thread that holds the lock of a struct waits at most for the tree's. -/
theorem Point.of_node_held {q : Point} {z : Addr} {k : ℕ} (h : .node z k ∈ q.held) :
    q.rank = 0 ∧ q ≠ .rest ∨ ∃ vmAddr, q = .removeGet z k vmAddr := by
  cases q with
  | removeGet w j vmAddr =>
    obtain ⟨rfl, rfl⟩ := LockId.node.inj (List.mem_singleton.mp h)
    exact Or.inr ⟨vmAddr, rfl⟩
  | _ => simp [Point.held, Point.rank] at h ⊢

omit [DecidableEq Tid] in
/-- Who holds a lock that a thread waits for is ahead of it. A lock that `ooc_free`
never let go is not waited for. -/
theorem Inv.rank_lt (hi : Inv ps s g) (ho : Owned Holds s) (hu : WellUsed ps s)
    (hw : WaitsFor (threads Tid ps) s t t') :
    (s.pc t').now.rank < (s.pc t).now.rank ∧ (s.pc t').now ≠ .rest := by
  obtain ⟨ℓ, p, h, hl⟩ := hw
  have hheld := (ho ℓ t').mp hl
  have htree (hℓ : ℓ = .tree) : (s.pc t').now.rank ≤ 1 ∧ (s.pc t').now ≠ .rest := by
    subst hℓ
    rcases hheld with hh | hh
    · cases hq : (s.pc t').now <;> rw [hq] at hh <;> simp [Point.held, Point.rank] at hh ⊢
    · exact (hi.kept t' _ hh).elim
  obtain ⟨hg, -⟩ := getStep_of h
  generalize hq : (s.pc t).now = q at hg ⊢
  generalize p.now = q' at hg
  cases hg with
  | @node c z k =>
    obtain ⟨a, ha⟩ := hi.at_now hq (by simp)
    obtain ⟨hz, hk⟩ := ha.inits z k rfl
    rcases hheld with hh | hh
    · -- the struct's other users: in the handler, or in `ooc_free`
      have hfree (hown : (s.pc t').now.Own) (hon : ∀ b, (s.pc t').now.On ps b → b.vma = z) :
          False := by
        obtain ⟨b, hb⟩ := hi.at_now (t := t') rfl fun h => by
          rw [h] at hown; rcases hown with h | h <;> cases h
        obtain rfl := hi.mem.eq_of_vma hb.mapped ha.mapped ((hon b hb.on).trans hz.symm)
        have hne : t' ≠ t := fun h => by
          rw [h, hq] at hh
          simp [Point.held] at hh
        have ha' := ha
        rw [← hq] at ha'
        exact hi.alone hu ⟨hown, hb.on⟩ hb.mapped hne.symm ha' rfl
      rcases Point.of_node_held hh with ⟨hr, hne⟩ | ⟨vmAddr, hq'⟩
      · exact ⟨hr ▸ Nat.one_pos, hne⟩
      · exact (hfree (by rw [hq']; exact Or.inr rfl) fun b hb => by rw [hq'] at hb; exact hb).elim
    · exfalso
      rcases hi.kept t' _ hh with h | ⟨-, h⟩
      · omega
      · exact h a (ha.listed.mpr trivial) hz
  | _ =>
    obtain ⟨h1, h2⟩ := htree rfl
    exact ⟨Nat.lt_succ_of_le h1, h2⟩

/-- Code can always go on, and a lock that is taken or let go is in memory. -/
theorem Inv.not_faults (hi : Inv ps s g) (ho : Owned Holds s) (hu : WellUsed ps s) (t : Tid) :
    ¬ Faults (threads Tid ps) s t := by
  intro hf
  unfold Faults at hf
  have hnode {q : Point} {z : Addr} {k : ℕ} (hq : (s.pc t).now = q) (hne : q ≠ .rest)
      (hn : q.node? = some (z, k)) (hl : q.Listed) :
      s.mem.heap.cell (.vma z) ≠ none := by
    obtain ⟨a, ha⟩ := hi.at_now hq hne
    obtain ⟨v, hv, -⟩ := hi.mem.cell (ha.listed.mpr hl)
    rw [(ha.inits z k hn).1] at hv
    rw [hv]
    exact nofun
  split at hf
  · rename_i ℓ p h
    obtain ⟨hg, -⟩ := getStep_of h
    generalize hq : (s.pc t).now = q at hg
    generalize p.now = q' at hg
    cases hg with
    | node => exact hf (hnode hq nofun rfl trivial)
    | _ => exact hf trivial
  · rename_i ℓ p h
    obtain ⟨hd, -⟩ := dropStep_of h
    generalize hq : (s.pc t).now = q at hd
    generalize p.now = q' at hd
    cases hd with
    | handle => exact hf (hnode hq nofun rfl trivial)
    | _ => exact hf trivial
  · rename_i h
    change instr (s.pc t) = _ at h
    obtain ⟨i, hin, hc⟩ := hf
    have hc : codePoint ps (s.pc t).now s.mem i = none := Option.map_eq_none_iff.mp hc
    change InputOk ps (s.pc t) s.mem i at hin
    unfold InputOk at hin
    unfold instr at h
    generalize hnow : (s.pc t).now = q at h hc hin
    cases q with
    | rest => cases i <;> first | exact hin | cases hc
    | insert a =>
      obtain ⟨m', he, -⟩ := hi.insert hu hnow (L := s.lock)
      simp [codePoint, he] at hc
    | mallocReturn a => simp [codePoint] at hc
    | access x => simp [codePoint] at hc
    | find c =>
      obtain ⟨h', z, he, -⟩ := hi.find hnow (L := s.lock)
      simp [codePoint, Sched.find, he] at hc
    | handle x z k =>
      obtain ⟨m', ans, g', he, -⟩ := hi.handle ho hu hnow (L := s.lock)
      simp [codePoint, he] at hc
    | protect x z k ans =>
      obtain ⟨m', a, he, -⟩ := hi.protect hnow (L := s.lock)
      simp [codePoint, he] at hc
    | freeRead z k =>
      refine hnode hnow nofun rfl trivial ?_
      simpa [codePoint] using hc
    | remove z k vmAddr =>
      obtain ⟨h', g', he, -⟩ := hi.remove hu hnow (L := s.lock)
      simp [codePoint, he] at hc
    | unmap z k =>
      obtain ⟨m', g', a, he, -⟩ := hi.unmap hu hnow (L := s.lock)
      simp [codePoint, he] at hc
    | _ => cases h

/-! ### Runs that are computed -/

def wellUsed (ps : PageSize) (ts : List Tid) (s : State Tid) : Bool := ts.all fun t =>
  ((s.pc t).now.access?.all fun x => s.mem.live.any fun a => a.Owns ps x.addr) &&
    match (s.pc t).now with
    | .findGet (.free ptr) =>
      (s.mem.heap.cell (.vma (ptr - ALIGN ps SIZEOF_VM_AREA))).any fun v => v.vmStart < v.vmEnd
    | _ => true

omit [DecidableEq Tid] in
theorem wellUsed_sound {ts : List Tid} (hts : ∀ t, t ∈ ts) (s : State Tid)
    (h : wellUsed ps ts s = true) : WellUsed ps s := by
  have hall (t : Tid) := (Bool.and_eq_true _ _).mp (List.all_eq_true.mp h t (hts t))
  refine ⟨fun t x hx => ?_, fun t ptr hq => ?_⟩
  · have h1 := (hall t).1
    rw [hx] at h1
    simpa using h1
  · have h2 := (hall t).2
    rw [hq] at h2
    obtain ⟨v, hv, hlt⟩ := (Option.any_eq_true _ _).mp h2
    exact ⟨v, hv, of_decide_eq_true hlt⟩

omit [DecidableEq Tid] in
theorem wellUsed_of_idle (h : ∀ t, (s.pc t).now = .rest ∨ ∃ a, (s.pc t).now = .insertGet a) :
    WellUsed ps s := by
  refine ⟨fun t x hx => ?_, fun t ptr hq => ?_⟩
  · rcases h t with h | ⟨a, h⟩ <;> rw [h] at hx <;> cases hx
  · rcases h t with h | ⟨a, h⟩ <;> rw [h] at hq <;> cases hq

theorem run_of_schedule (ts : List Tid) (hts : ∀ t, t ∈ ts) {l : List (LockEvent Tid LockId)}
    {s₁ : State Tid} (sched : List (Tid × Input)) {P : State Tid → Bool}
    (hr : TracedRuns (threads Tid ps) (fun s _ => WellUsed ps s) s₀ l s₁)
    (h : ((computed Tid ps).exec (fun s _ => wellUsed ps ts s) sched s₁).any P = true) :
    ∃ s, Runs (threads Tid ps) (fun s _ => WellUsed ps s) s₀ s ∧ P s = true := by
  have hok (s : State Tid) (t : Tid) (h : wellUsed ps ts s = true) :
      (fun s _ => WellUsed ps s) s t :=
    wellUsed_sound hts s h
  obtain ⟨l, s, hr, hs⟩ := Computed.exec_any hok hr h
  exact ⟨s, hr.runs, hs⟩

theorem mapped_wellUsed :
    TracedRuns (threads Unit .small) (fun s _ => WellUsed .small s) nothingYet [] mapped :=
  mapped_traced (wellUsed_of_idle fun _ => Or.inl rfl)

theorem twoMapped_wellUsed :
    TracedRuns (threads Bool .small) (fun s _ => WellUsed .small s) twoThreads [] twoMapped := by
  refine twoMapped_traced (wellUsed_of_idle fun _ => Or.inl rfl) (wellUsed_of_idle fun t => ?_)
  cases t with
  | true => exact Or.inr ⟨_, rfl⟩
  | false => exact Or.inl rfl

def bothThreads : List Bool := [true, false]

theorem mem_bothThreads (t : Bool) : t ∈ bothThreads := by cases t <;> decide

theorem twoThreads_allocate : ∃ s : State Bool,
    Runs (threads Bool .small) (fun s _ => WellUsed .small s) twoThreads s ∧
      (∀ t, (s.pc t).now = .rest) ∧ s.mem.live = [⟨0x20000, 32⟩, ⟨0x10000, 32⟩] := by
  obtain ⟨s, hr, hs⟩ := run_of_schedule bothThreads mem_bothThreads
    (goesOn true 4 ++ goesOn false 4) twoMapped_wellUsed
    (P := fun s => (s.pc true).now = .rest ∧ (s.pc false).now = .rest ∧
      s.mem.live = [⟨0x20000, 32⟩, ⟨0x10000, 32⟩]) (by decide +kernel)
  obtain ⟨h₁, h₂, hl⟩ := of_decide_eq_true hs
  exact ⟨s, hr, fun t => by cases t <;> assumption, hl⟩

/-! ### Every run -/

theorem input_of_not_rest (p : Pc) (m : Mem) (h : p.now ≠ .rest) : InputOk ps p m .nothing := by
  unfold InputOk
  cases hq : p.now with
  | rest => exact absurd hq h
  | _ => rfl

theorem Inv.never_stuck (hi : Inv ps s g) (ho : Owned Holds s) (hu : WellUsed ps s) :
    (∀ t, ¬ Faults (threads Tid ps) s t) ∧ ¬ Deadlock (threads Tid ps) s ∧
      ∀ t, (s.pc t).now ≠ .rest → ∃ t' s', (s.pc t').now ≠ .rest ∧
        Step (threads Tid ps) s t' s' := by
  have hrank {t t' : Tid} (hw : WaitsFor (threads Tid ps) s t t') := hi.rank_lt ho hu hw
  refine ⟨hi.not_faults ho hu, no_deadlock_of_rank (fun t => (s.pc t).now.rank) fun _ _ hw =>
    (hrank hw).1, fun t ht => ?_⟩
  obtain ⟨t', hreach, hnot⟩ := exists_not_waiting (K := threads Tid ps) (fun t => (s.pc t).now.rank)
    (fun _ _ hw => (hrank hw).1) t
  have ht' : (s.pc t').now ≠ .rest := by
    rcases Relation.ReflTransGen.cases_tail hreach with rfl | ⟨_, -, hw⟩
    · exact ht
    · exact (hrank hw).2
  obtain ⟨s', hs⟩ := step_of_not_waiting hnot (hi.not_faults ho hu t') fun _ =>
    ⟨.nothing, input_of_not_rest _ _ ht'⟩
  exact ⟨t', s', ht', hs⟩

/-- No thread ever goes wrong, no threads wait for each other, and as long as one is not
at rest, one of those can go on. -/
theorem threads_never_stuck (h₀ : Start s₀)
    (hr : Runs (threads Tid ps) (fun s _ => WellUsed ps s) s₀ s) (hu : WellUsed ps s) :
    (∀ t, ¬ Faults (threads Tid ps) s t) ∧ ¬ Deadlock (threads Tid ps) s ∧
      ∀ t, (s.pc t).now ≠ .rest → ∃ t' s', (s.pc t').now ≠ .rest ∧
        Step (threads Tid ps) s t' s' := by
  obtain ⟨g, hi⟩ := h₀.inv_of_runs hr
  exact hi.never_stuck (h₀.owned_of_runs hr) hu

/-- One thread is in `ooc_free` with the lock of its node, the other one in the handler
with the tree's lock. -/
theorem threads_never_stuck_free : ∃ s : State Bool,
    Runs (threads Bool .small) (fun s _ => WellUsed .small s) twoThreads s ∧
      (s.pc true).now = .removeGet 0x10000 1 0x11000 ∧
      (s.pc false).now = .findGetNode (.handler ⟨0x21000, true, 0⟩) 0x20000 1 ∧
      WaitsFor (threads Bool .small) s true false ∧
      (∀ t, ¬ Faults (threads Bool .small) s t) ∧ ¬ Deadlock (threads Bool .small) s ∧
      ∀ t, (s.pc t).now ≠ .rest →
        ∃ t' s', (s.pc t').now ≠ .rest ∧ Step (threads Bool .small) s t' s' := by
  obtain ⟨s, hr, hs⟩ := run_of_schedule bothThreads mem_bothThreads
    (goesOn true 4 ++ goesOn false 4 ++ (true, .free 0x11000) :: (false, .access 0x21000 true) ::
      (goesOn true 5 ++ goesOn false 3)) twoMapped_wellUsed
    (P := fun s => wellUsed .small bothThreads s && (s.pc true).now =
      .removeGet 0x10000 1 0x11000 &&
      (s.pc false).now = .findGetNode (.handler ⟨0x21000, true, 0⟩) 0x20000 1 &&
      s.lock .tree = some false) (by decide +kernel)
  simp only [Bool.and_eq_true, decide_eq_true_eq] at hs
  obtain ⟨⟨⟨hu, hp⟩, hq⟩, hl⟩ := hs
  have hw : WaitsFor (threads Bool .small) s true false := by
    refine ⟨.tree, ⟨.remove 0x10000 1 0x11000, (s.pc true).kept⟩, ?_, hl⟩
    change instr (s.pc true) = _
    unfold instr
    rw [hp]
    rfl
  exact ⟨s, hr, hp, hq, hw,
    threads_never_stuck twoThreads_start hr (wellUsed_sound mem_bothThreads s hu)⟩

def IsNode (ps : PageSize) (a : Alloc) (n : Node) : Prop :=
  n.addr = a.vma ∧ n.start = (a.vmStart ps).toNat ∧ n.stop = (a.vmEnd ps).toNat

/-- When all threads rest, exactly the regions of the live allocations are mapped, they
do not meet, and the tree holds exactly their structs. -/
theorem resting_memory_is_live (h₀ : Start s₀)
    (hr : Runs (threads Tid ps) (fun s _ => WellUsed ps s) s₀ s)
    (hrest : ∀ t, (s.pc t).now = .rest) :
    (∀ x, s.mem.prot x ≠ none ↔ ∃ a ∈ s.mem.live, a.InRegion ps x) ∧
      (∀ a ∈ s.mem.live, ∀ b ∈ s.mem.live, a ≠ b → Away ps a b) ∧
      ∃ S T, OpenOOC.Holds s.mem.heap S T ∧ (∀ n ∈ S, ∃ a ∈ s.mem.live, IsNode ps a n) ∧
        ∀ a ∈ s.mem.live, ∃ n ∈ S, IsNode ps a n := by
  obtain ⟨g, hi⟩ := h₀.inv_of_runs hr
  have hlive (a : Alloc) (ha : a ∈ g.mapped) : a ∈ s.mem.live := by
    obtain ⟨o, ho, -⟩ := hi.held a ha
    cases o with
    | none => exact ho
    | some t =>
      exfalso
      have hon := ho.2
      rw [hrest t] at hon
      exact hon
  have hmapped (a : Alloc) (ha : a ∈ s.mem.live) : a ∈ g.mapped := hi.mem.listed (hi.mem.live a ha)
  obtain ⟨T, hT⟩ := hi.mem.tree
  refine ⟨fun x => ⟨fun hx => ?_, fun ⟨a, ha, hx⟩ => ?_⟩,
    fun a ha b hb => hi.mem.away a (hmapped a ha) b (hmapped b hb),
    _, T, hT, fun n hn => ?_, fun a ha => ?_⟩
  · obtain ⟨a, ha, hax⟩ := hi.mem.covered x hx
    exact ⟨a, hlive a ha, hax⟩
  · rcases Region.cases_of_inRegion hx with h | h
    · rw [hi.mem.header a (hmapped a ha) x h]
      exact nofun
    · rcases hi.mem.data a (hmapped a ha) x h with h | ⟨h, -⟩ <;> rw [h] <;> exact nofun
  · obtain ⟨a, ha, rfl⟩ := mem_nodes.mp hn
    exact ⟨a, hlive a (hi.mem.listed ha), rfl, rfl, rfl⟩
  · exact ⟨_, mem_nodes.mpr ⟨a, hi.mem.live a ha, rfl⟩, rfl, rfl, rfl⟩

/-- Two live allocations, one of which has been written to: four pages are mapped. -/
theorem resting_memory_is_live_two : ∃ s : State Bool,
    Runs (threads Bool .small) (fun s _ => WellUsed .small s) twoThreads s ∧
      s.mem.live = [⟨0x20000, 32⟩, ⟨0x10000, 32⟩] ∧
      (∀ x, s.mem.prot x ≠ none ↔ Alloc.InRegion .small ⟨0x20000, 32⟩ x ∨
        Alloc.InRegion .small ⟨0x10000, 32⟩ x) ∧
      ∃ S T, OpenOOC.Holds s.mem.heap S T ∧
        (∃ n ∈ S, IsNode .small ⟨0x20000, 32⟩ n) ∧ ∃ n ∈ S, IsNode .small ⟨0x10000, 32⟩ n := by
  obtain ⟨s, hr, hs⟩ := run_of_schedule bothThreads mem_bothThreads
    (goesOn true 4 ++ goesOn false 4 ++ (true, .access 0x11000 true) :: goesOn true 17)
    twoMapped_wellUsed
    (P := fun s => (s.pc true).now = .rest ∧ (s.pc false).now = .rest ∧
      s.mem.live = [⟨0x20000, 32⟩, ⟨0x10000, 32⟩]) (by decide +kernel)
  obtain ⟨hp, hq, hl⟩ := of_decide_eq_true hs
  have hrest (t : Bool) : (s.pc t).now = .rest := by
    cases t with
    | true => exact hp
    | false => exact hq
  obtain ⟨hx, -, S, T, hh, -, hnodes⟩ := resting_memory_is_live twoThreads_start hr hrest
  rw [hl] at hx hnodes
  refine ⟨s, hr, hl, fun x => ?_, S, T, hh, hnodes _ (by simp), hnodes _ (by simp)⟩
  rw [hx]
  simp

/-- Whatever the threads are doing, the lookup finds the struct of a live allocation at
each of its addresses. -/
theorem live_addresses_are_found (h₀ : Start s₀)
    (hr : Runs (threads Tid ps) (fun s _ => WellUsed ps s) s₀ s) (ha : a ∈ s.mem.live)
    {addr : Addr} (ho : a.Owns ps addr) :
    ∃ h', spTreeFindAndLock s.mem.heap addr.toNat = some (h', some (.vma a.vma)) ∧
      ∃ v, s.mem.heap.cell (.vma a.vma) = some v ∧ v.vmStart = (a.vmStart ps).toNat ∧
        v.vmEnd = (a.vmEnd ps).toNat := by
  obtain ⟨g, hi⟩ := h₀.inv_of_runs hr
  have hal := hi.mem.live a ha
  obtain ⟨h', he⟩ := hi.mem.find hal ho
  obtain ⟨v, hv, -, hs, he'⟩ := hi.mem.cell hal
  exact ⟨h', he, v, hv, hs, he'⟩

/-- One thread is removing its struct while the other one waits in the handler: that
one's struct is found. -/
theorem live_addresses_are_found_remove : ∃ (s : State Bool) (h' : Heap),
    Runs (threads Bool .small) (fun s _ => WellUsed .small s) twoThreads s ∧
      (s.pc true).now = .remove 0x10000 1 0x11000 ∧
      (s.pc false).now = .findGet (.handler ⟨0x21000, true, 0⟩) ∧
      spTreeFindAndLock s.mem.heap 0x21000 = some (h', some (.vma 0x20000)) := by
  obtain ⟨s, hr, hs⟩ := run_of_schedule bothThreads mem_bothThreads
    (goesOn true 4 ++ goesOn false 4 ++ (true, .free 0x11000) :: (false, .access 0x21000 true) ::
      (goesOn true 6 ++ goesOn false 1)) twoMapped_wellUsed
    (P := fun s => (s.pc true).now = .remove 0x10000 1 0x11000 ∧
      (s.pc false).now = .findGet (.handler ⟨0x21000, true, 0⟩) ∧ s.mem.live = [⟨0x20000, 32⟩])
    (by decide +kernel)
  obtain ⟨hp, hq, hl⟩ := of_decide_eq_true hs
  have ha : (⟨0x20000, 32⟩ : Alloc) ∈ s.mem.live := by
    rw [hl]
    exact List.mem_singleton_self _
  obtain ⟨h', he, -⟩ := live_addresses_are_found twoThreads_start hr ha
    (show (⟨0x20000, 32⟩ : Alloc).Owns .small 0x21000 by decide)
  exact ⟨s, h', hr, hp, hq, he⟩

end

end OpenOOC.Sched
