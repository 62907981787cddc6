import OpenOOC.Lib.LockTrace
import OpenOOC.Sched.Code

/-! Which locks are held when, and who lets them go. `ooc_free` never lets go of the
lock that `sp_tree_find_and_lock` takes for it. -/

namespace OpenOOC.Sched

open LockMachine

variable {Tid : Type} {ps : PageSize} {s s' s₀ : State Tid} {t : Tid} {p p' : Pc} {q q' : Point}
  {ℓ k : LockId} {m m' : Mem}
  {i : Input}

/-! ### What code does -/

theorem setProt_of_in {prot : ℕ → Option (BitVec 32)} {addr len x : ℕ} {b : Option (BitVec 32)}
    (hx : addr ≤ x ∧ x < addr + len) :
    setProt prot addr len b x = b := if_pos hx

theorem setProt_of_out {prot : ℕ → Option (BitVec 32)} {addr len x : ℕ} {b : Option (BitVec 32)}
    (hx : ¬ (addr ≤ x ∧ x < addr + len)) : setProt prot addr len b x = prot x := if_neg hx

/-- The region of a new allocation: the struct's page can be written to. -/
def mapProt (ps : PageSize) (prot : ℕ → Option (BitVec 32)) (a : Alloc) : ℕ → Option (BitVec 32) :=
  setProt (setProt prot a.vma.toNat (a.mmapSz ps).toNat (some PROT_READ)) a.vma.toNat
    (ALIGN ps SIZEOF_VM_AREA).toNat
    (some (PROT_READ ||| PROT_WRITE))

/-- What a thread can do without a lock operation, and what it relies on from outside. -/
inductive CodeStep (ps : PageSize) (m : Mem) : Point → Mem → Point → Prop
  | mallocFails : CodeStep ps m .rest m .rest
  | mapped {a : Alloc} (hok : MmapOk ps m a) :
    CodeStep ps m .rest { m with prot := mapProt ps m.prot a } (.insertGet a)
  | starts {a : Alloc} {addr : Addr} {write : Bool} (ha : a ∈ m.live) (ho : a.Owns ps addr) :
      CodeStep ps m .rest m (.access ⟨addr, write, 0⟩)
  | frees {a : Alloc} (ha : a ∈ m.live) :
      CodeStep ps m .rest { m with live := m.live.filter fun b => b.vmStart ps ≠ a.vmStart ps }
        (.findGet (.free (a.vmStart ps)))
  | insert {m' : Mem} {a : Alloc} (he : Sched.insert ps m a = some m') :
    CodeStep ps m (.insert a) m' (.insertLet a)
  | mallocReturn {a : Alloc} : CodeStep ps m (.mallocReturn a) { m with live := a :: m.live } .rest
  | granted {x : Access} (h : Allowed (m.prot x.addr.toNat) x.write) :
    CodeStep ps m (.access x) m .rest
  | faults {x : Access} (h : ¬ Allowed (m.prot x.addr.toNat) x.write) :
    CodeStep ps m (.access x) m (.findGet (.handler x))
  | find {c : Caller} {h : Heap} {z : Addr}
    (he : spTreeFindAndLock m.heap c.addr.toNat = some (h, some (.vma z))) :
      CodeStep ps m (.find c) { m with heap := h } (.findGetNode c z (m.inits z))
  | handle {m' : Mem} {x : Access} {z : Addr} {k : ℕ} {ans : Answer}
    (he : Sched.handle m z = some (m', ans)) :
      CodeStep ps m (.handle x z k) m' (.protect x z k ans)
  | protect {m' : Mem} {x : Access} {z : Addr} {k : ℕ} {ans : Answer}
    (he : Sched.protect ps m x.addr ans = some m') :
      CodeStep ps m (.protect x z k ans) m' (.handleLet x z k)
  | freeRead {z : Addr} {k : ℕ} {v : VmArea} (hv : m.heap.cell (.vma z) = some v) :
      CodeStep ps m (.freeRead z k) m (.removeGet z k v.vmStart)
  | remove {z : Addr} {k vmAddr : ℕ} {h : Heap} (he : spTreeRemove m.heap vmAddr = some h) :
      CodeStep ps m (.remove z k vmAddr) { m with heap := h } (.removeLet z k)
  | unmap {m' : Mem} {z : Addr} {k : ℕ} (he : Sched.unmap ps m z = some m') :
    CodeStep ps m (.unmap z k) m' .rest

theorem codeStep_of (hin : InputOk ps p m i) (h : codePoint ps p.now m i = some (m', q')) :
    CodeStep ps m p.now m' q' := by
  unfold InputOk at hin
  generalize p.now = q at hin h ⊢
  unfold codePoint at h
  split at h
  case h_1 size mmapRet mprotectOk =>
    have he := Option.some.inj h
    unfold mallocStart at he
    cases mmapRet with
    | none =>
      cases he
      exact .mallocFails
    | some vma =>
      have hok := hin vma rfl
      simp only at he
      split_ifs at he
      · cases he
        exact .mapped hok
      · cases he
        -- the region goes away again
        have hback : setProt (setProt m.prot vma.toNat (Alloc.mmapSz ps ⟨vma, size⟩).toNat
            (some PROT_READ)) vma.toNat
            (Alloc.mmapSz ps ⟨vma, size⟩).toNat none = m.prot := by
          funext x
          by_cases hx : vma.toNat ≤ x ∧ x < vma.toNat + (Alloc.mmapSz ps ⟨vma, size⟩).toNat
          · rw [setProt_of_in hx, hok.fresh x hx.1 hx.2]
          · rw [setProt_of_out hx, setProt_of_out hx]
        rw [hback]
        exact .mallocFails
  case h_2 =>
    obtain ⟨a, ha, ho⟩ := hin
    cases h
    exact .starts ha ho
  case h_3 =>
    obtain ⟨a, ha, rfl⟩ := hin
    cases h
    exact .frees ha
  case h_4 =>
    obtain ⟨m1, he, h⟩ := Option.map_eq_some_iff.mp h
    cases h
    exact .insert he
  case h_5 =>
    cases h
    exact .mallocReturn
  case h_6 =>
    cases h
    split_ifs with hx
    · exact .granted hx
    · exact .faults hx
  case h_7 =>
    unfold Sched.find at h
    split at h
    · cases h
      exact .find ‹_›
    · cases h
  case h_8 =>
    obtain ⟨r, he, h⟩ := Option.map_eq_some_iff.mp h
    cases h
    exact .handle he
  case h_9 =>
    obtain ⟨m1, he, h⟩ := Option.map_eq_some_iff.mp h
    cases h
    exact .protect he
  case h_10 =>
    obtain ⟨v, he, h⟩ := Option.map_eq_some_iff.mp h
    cases h
    exact .freeRead he
  case h_11 =>
    obtain ⟨h1, he, h⟩ := Option.map_eq_some_iff.mp h
    cases h
    exact .remove he
  case h_12 =>
    obtain ⟨m1, he, h⟩ := Option.map_eq_some_iff.mp h
    cases h
    exact .unmap he
  case h_13 => cases h

/-! ### What is held where -/

/-- The locks that a thread has taken and not let go, in the operation that it is in. -/
def Point.held : Point → List LockId
  | .insert _ => [.tree]
  | .insertLet _ => [.tree]
  | .find _ => [.tree]
  | .findGetNode .. => [.tree]
  | .findLet _ z k => [.node z k, .tree]
  | .handle _ z k => [.node z k]
  | .protect _ z k _ => [.node z k]
  | .handleLet _ z k => [.node z k]
  | .freeRead z k => [.node z k]
  | .removeGet z k _ => [.node z k]
  | .remove z k _ => [.tree, .node z k]
  | .removeLet z k => [.tree, .node z k]
  | .unmap z k => [.node z k]
  | _ => []

def Holds (_ : Tid) (p : Pc) (ℓ : LockId) : Prop := ℓ ∈ p.now.held ∨ ℓ ∈ p.kept

theorem held_found (c : Caller) (z : Addr) (k : ℕ) : (c.found z k).held = [.node z k] := by
  cases c <;> rfl

theorem held_mallocStart {size : BitVec 64} {r : Option Addr} {ok : Bool} :
    (mallocStart ps m size r ok).2.held = [] := by
  cases r <;> cases ok <;> rfl

theorem held_next (h : codePoint ps q m i = some (m', q')) : ℓ ∈ q'.held ∨ ℓ ∈ q.keeps ↔
    ℓ ∈ q.held := by
  unfold codePoint at h
  split at h
  case h_1 size r ok =>
    have hheld : (mallocStart ps m size r ok).2.held = [] := held_mallocStart
    rw [Option.some.inj h] at hheld
    rw [hheld]
    simp [Point.keeps, Point.held]
  case h_7 c _ =>
    unfold find at h
    split at h <;> cases h
    simp [Point.keeps, Point.held]
  case h_6 =>
    cases h
    split_ifs <;> simp [Point.keeps, Point.held]
  case h_13 => cases h
  case h_2 | h_3 | h_5 =>
    cases h
    simp [Point.keeps, Point.held]
  all_goals
    obtain ⟨r, -, h⟩ := Option.map_eq_some_iff.mp h
    cases h
    simp [Point.keeps, Point.held]

theorem threads_disciplined (Tid : Type) (ps : PageSize) : Disciplined (threads Tid ps) Holds := by
  refine ⟨fun t p ℓ p' hi k => ?_, fun t p ℓ p' hi k => ?_, fun t p m i m' p' _ hc k => ?_⟩
  · change instr p = _ at hi
    unfold instr at hi
    split at hi <;> simp only [Pc.get, Pc.drop, reduceCtorEq, Instr.get.injEq] at hi
    all_goals
      obtain ⟨rfl, rfl⟩ := hi
      simp_all [Holds, Point.held]
      try tauto
  · change instr p = _ at hi
    unfold instr at hi
    split at hi <;> simp only [Pc.get, Pc.drop, reduceCtorEq, Instr.drop.injEq] at hi
    case h_5 c z k' hq =>
      obtain ⟨rfl, rfl⟩ := hi
      have hp : p.now.held = [.node z k', .tree] := by rw [hq]; rfl
      simp only [Holds, held_found, hp, List.mem_filter, List.mem_cons, List.not_mem_nil,
        decide_eq_true_eq]
      grind
    all_goals
      obtain ⟨rfl, rfl⟩ := hi
      simp_all [Holds, Point.held]
      try grind
  · change code ps p m i = _ at hc
    obtain ⟨⟨m'', q⟩, hr, h⟩ := Option.map_eq_some_iff.mp hc
    cases h
    have := held_next (ℓ := k) hr
    simp only [Holds, List.mem_append]
    tauto

theorem holds_of_drop (h : instr p = .drop ℓ p') : Holds t p ℓ := by
  unfold instr at h
  split at h <;> simp only [Pc.get, Pc.drop, reduceCtorEq, Instr.drop.injEq] at h
  all_goals
    obtain ⟨rfl, -⟩ := h
    simp_all [Holds, Point.held]

/-! ### Runs -/

def Point.Finished : Point → Prop
  | .rest => True
  | .access _ => True
  | _ => False

def Point.inFree : Point → Bool
  | .findGet (.free _) => true
  | .find (.free _) => true
  | .findGetNode (.free _) _ _ => true
  | .findLet (.free _) _ _ => true
  | .freeRead .. => true
  | .removeGet .. => true
  | .remove .. => true
  | .removeLet .. => true
  | .unmap .. => true
  | _ => false

/-- The thread is about to destroy the lock: `S_sp_node_free` of the node that
`sp_tree_remove` takes out. -/
def Destroys (s : State Tid) (t : Tid) (ℓ : LockId) : Prop :=
  ∃ z k vmAddr h z', (s.pc t).now = .remove z k vmAddr ∧
    sSpTreeSplay s.mem.heap vmAddr s.mem.heap.root = some (h, some (.vma z')) ∧
    ℓ = .node z' (s.mem.inits z')

variable [DecidableEq Tid] {l : List (LockEvent Tid LockId)}

/-- Every lock is let go once, by its holder and before the operation is over, and none
is destroyed while it is held. `l` is what was done to the locks so far. -/
structure LocksReturned (l : List (LockEvent Tid LockId)) (s : State Tid) : Prop where
  once : ∀ t, (s.pc t).now.Finished → ∀ ℓ l₁ a l₂, l = l₁ ++ a :: l₂ → a.takesBy t ℓ →
    (l₂.takeWhile fun e => !e.takesBy t ℓ).countP (LockEvent.letsBy t ℓ) = 1
  finished : ∀ t, (s.pc t).now.Finished → ∀ ℓ, s.lock ℓ ≠ some t
  holder : ∀ t ℓ p, instr (s.pc t) = .drop ℓ p → s.lock ℓ = some t
  destroyed : ∀ t ℓ, Destroys s t ℓ → s.lock ℓ = none

omit [DecidableEq Tid] in
theorem Start.owned (h₀ : Start s₀) : Owned Holds s₀ := fun ℓ t => by
  rw [h₀.lock, h₀.pc]
  simp [Holds, Point.held]

theorem Start.owned_of_runs {ok : State Tid → Tid → Prop} (h₀ : Start s₀)
    (hr : Runs (threads Tid ps) ok s₀ s) :
    Owned Holds s :=
  hr.owned (threads_disciplined Tid ps) (fun _ _ _ _ hi => holds_of_drop hi) h₀.owned

structure NoFree (s : State Tid) : Prop where
  kept : ∀ t, (s.pc t).kept = []
  point : ∀ t, (s.pc t).now.inFree → ∃ ptr, (s.pc t).now = .findGet (.free ptr)

theorem NoFree.update (hn : NoFree s) {mem : Mem} {lock : LockId → Option Tid} {q : Point}
    {kept : List LockId} (hk : kept = [])
    (hq : q.inFree → ∃ ptr, q = .findGet (.free ptr)) :
    NoFree ⟨mem, lock, Function.update s.pc t ⟨q, kept⟩⟩ := by
  refine ⟨fun t' => ?_, fun t' => ?_⟩
  · dsimp only
    by_cases ht : t' = t
    · subst ht
      rw [Function.update_self, hk]
    · rw [Function.update_of_ne ht, hn.kept]
  · dsimp only
    by_cases ht : t' = t
    · subst ht
      rw [Function.update_self]
      exact hq
    · rw [Function.update_of_ne ht]
      exact hn.point t'

theorem NoFree.step (hn : NoFree s) (hok : ¬ (s.pc t).now.inFree)
    (hs : Step (threads Tid ps) s t s') : NoFree s' := by
  have hkept := hn.kept t
  cases hs with
  | @get ℓ p hi hfree =>
    change instr (s.pc t) = _ at hi
    unfold instr at hi
    split at hi <;> simp only [Pc.get, Pc.drop, reduceCtorEq, Instr.get.injEq] at hi
    all_goals
      rename_i hq
      obtain ⟨rfl, rfl⟩ := hi
      refine hn.update hkept fun hf => ?_
    case h_3 c => cases c <;> simp_all [Point.inFree]
    case h_4 c z k => cases c <;> simp_all [Point.inFree]
    all_goals simp_all [Point.inFree]
  | @drop ℓ p hi =>
    change instr (s.pc t) = _ at hi
    unfold instr at hi
    split at hi <;> simp only [Pc.get, Pc.drop, reduceCtorEq, Instr.drop.injEq] at hi
    all_goals
      rename_i hq
      obtain ⟨rfl, rfl⟩ := hi
      refine hn.update (by simp [hkept]) fun hf => ?_
    case h_5 c z k => cases c <;> simp_all [Point.inFree, Caller.found]
    all_goals simp_all [Point.inFree]
  | @code i m p hi he hc =>
    obtain ⟨⟨m', q⟩, hr, h⟩ := Option.map_eq_some_iff.mp hc
    cases h
    have hstep := codeStep_of he hr
    generalize hnow : (s.pc t).now = q₀ at hstep hok
    refine hn.update ?_ fun hf => ?_
    · rw [hkept]
      cases hstep <;> simp_all [Point.keeps, Point.inFree]
    · cases hstep <;> simp_all [Point.inFree]
      all_goals
        rename_i c _ _ _
        cases c <;> simp_all

/-- In every state of a run in which no thread goes on in `ooc_free`, the locks are
returned. -/
theorem locks_are_returned (h₀ : Start s₀)
    (hr : TracedRuns (threads Tid ps) (fun s t => ¬ (s.pc t).now.inFree) s₀ l s) :
    LocksReturned l s := by
  have hn : NoFree s := hr.runs.invariant
    ⟨fun t => by rw [h₀.pc], fun t h => by simp [h₀.pc, Point.inFree] at h⟩
    fun _ _ _ hn hok hs => hn.step hok hs
  have ho := h₀.owned_of_runs hr.runs
  have hfinished : ∀ t, (s.pc t).now.Finished → ∀ ℓ, s.lock ℓ ≠ some t := fun t hf ℓ hl => by
    rcases (ho ℓ t).mp hl with hh | hh
    · cases hq : (s.pc t).now <;> simp_all [Point.Finished, Point.held]
    · rw [hn.kept] at hh
      cases hh
  refine ⟨fun t hf ℓ l₁ a l₂ hl ha => ?_, hfinished,
    fun t ℓ p hi => (ho ℓ t).mpr (holds_of_drop hi), ?_⟩
  · exact hr.let_once (threads_disciplined Tid ps)
      (fun _ _ _ _ hi => holds_of_drop hi) h₀.owned h₀.lock (hfinished t hf ℓ)
      hl ha
  · rintro t ℓ ⟨z, k, vmAddr, h, z', hq, -⟩
    obtain ⟨ptr, hp⟩ := hn.point t (by rw [hq]; rfl)
    rw [hq] at hp
    cases hp

/-! ### One thread -/

def inputOk (ps : PageSize) (p : Pc) (m : Mem) (i : Input) : Bool :=
  match p.now, i with
  | .rest, .malloc _ none _ => true
  | .rest, .access addr _ => m.live.any fun a => a.Owns ps addr
  | .rest, .free ptr => m.live.any fun a => a.vmStart ps = ptr
  | .rest, _ => false
  | _, .nothing => true
  | _, _ => false

theorem inputOk_sound (p : Pc) (m : Mem) (i : Input) (h : inputOk ps p m i = true) :
    InputOk ps p m i := by
  unfold inputOk at h
  unfold InputOk
  generalize p.now = q at h ⊢
  split at h
  · exact fun vma hv => nomatch hv
  · simpa using h
  · simpa using h
  · cases h
  · rename_i hq
    cases q <;> first | rfl | exact absurd rfl hq
  · cases h

def computed (Tid : Type) [DecidableEq Tid] (ps : PageSize) : Computed (threads Tid ps) :=
  ⟨inputOk ps, fun _ => code ps, inputOk_sound, fun _ _ _ _ _ => rfl⟩

def nothingYet : State Unit :=
  ⟨⟨Heap.empty, fun _ => none, fun _ => 0, []⟩, fun _ => none, fun _ => ⟨.rest, []⟩⟩

theorem nothingYet_start : Start nothingYet :=
  ⟨rfl, rfl, fun _ => rfl, rfl, fun _ => rfl, fun _ => rfl⟩

def mapped : State Unit :=
  ⟨{ nothingYet.mem with prot := mapProt .small nothingYet.mem.prot ⟨0x10000, 1⟩ }, fun _ => none,
    Function.update nothingYet.pc () ⟨.insertGet ⟨0x10000, 1⟩, []⟩⟩

theorem mapped_traced {ok : State Unit → Unit → Prop} (hok : ok nothingYet ()) :
    TracedRuns (threads Unit .small) ok nothingYet [] mapped := by
  have hin : InputOk .small (nothingYet.pc ()) nothingYet.mem (.malloc 1 (some 0x10000) true) :=
    fun vma hv => by
    obtain rfl := Option.some.inj hv
    exact ⟨by decide, by decide, by decide, fun _ _ _ => rfl⟩
  have hstep : Step (threads Unit .small) nothingYet () mapped :=
    Step.code (K := threads Unit .small) (s := nothingYet) (t := ())
      (e := .malloc 1 (some 0x10000) true) rfl hin rfl
  exact TracedRuns.start.step hok hstep

def steps (n : ℕ) : List (Unit × Input) := List.replicate n ((), .nothing)

def twoThreads : State Bool := ⟨nothingYet.mem, fun _ => none, fun _ => ⟨.rest, []⟩⟩

theorem twoThreads_start : Start twoThreads :=
  ⟨rfl, rfl, fun _ => rfl, rfl, fun _ => rfl, fun _ => rfl⟩

def firstMapped : State Bool :=
  ⟨{ nothingYet.mem with prot := mapProt .small nothingYet.mem.prot ⟨0x10000, 32⟩ }, fun _ => none,
    Function.update twoThreads.pc true ⟨.insertGet ⟨0x10000, 32⟩, []⟩⟩

def twoMapped : State Bool :=
  ⟨{ nothingYet.mem with prot := mapProt .small firstMapped.mem.prot ⟨0x20000, 32⟩ }, fun _ => none,
    Function.update firstMapped.pc false ⟨.insertGet ⟨0x20000, 32⟩, []⟩⟩

theorem twoMapped_traced {ok : State Bool → Bool → Prop} (h₁ : ok twoThreads true)
    (h₂ : ok firstMapped false) : TracedRuns (threads Bool .small) ok twoThreads [] twoMapped := by
  have hin₁ : InputOk .small (twoThreads.pc true) twoThreads.mem
      (.malloc 32 (some 0x10000) true) := fun vma hv => by
    obtain rfl := Option.some.inj hv
    exact ⟨by decide, by decide, by decide, fun _ _ _ => rfl⟩
  have hstep₁ : Step (threads Bool .small) twoThreads true firstMapped :=
    Step.code (K := threads Bool .small) (s := twoThreads) (t := true)
      (e := .malloc 32 (some 0x10000) true) rfl hin₁ rfl
  have hin₂ : InputOk .small (firstMapped.pc false) firstMapped.mem
      (.malloc 32 (some 0x20000) true) := fun vma hv => by
    obtain rfl := Option.some.inj hv
    refine ⟨by decide, by decide, by decide, fun x hx _ => ?_⟩
    have hx : 0x20000 ≤ x := hx
    have hsz : (Alloc.mmapSz .small ⟨0x10000, 32⟩).toNat = 0x2000 := by decide
    have hinfo : (ALIGN .small SIZEOF_VM_AREA).toNat = 0x1000 := by decide
    have hvma : (0x10000 : Addr).toNat = 0x10000 := rfl
    change mapProt .small nothingYet.mem.prot ⟨0x10000, 32⟩ x = none
    unfold mapProt
    rw [setProt_of_out (by rw [hinfo, hvma]; omega), setProt_of_out (by rw [hsz, hvma]; omega)]
    rfl
  have hstep₂ : Step (threads Bool .small) firstMapped false twoMapped :=
    Step.code (K := threads Bool .small) (s := firstMapped) (t := false)
      (e := .malloc 32 (some 0x20000) true) rfl hin₂ rfl
  exact (TracedRuns.start.step h₁ hstep₁).step h₂ hstep₂

def goesOn (t : Bool) (n : ℕ) : List (Bool × Input) := List.replicate n (t, .nothing)

/-- Both threads allocate and write. One write has faulted twice, the other fault is
still in the handler. -/
def twoWrites : List (Bool × Input) :=
  goesOn true 4 ++ goesOn false 4 ++ (true, .access 0x11000 true) ::
    (false, .access 0x21000 true) ::
    (goesOn true 3 ++ goesOn false 1 ++ goesOn true 13 ++ goesOn false 6)

/-- The handler has let its locks go twice, and holds one for the other thread. -/
theorem locks_are_returned_writes : ∃ l s,
    TracedRuns (threads Bool .small) (fun s t => ¬ (s.pc t).now.inFree) twoThreads l s ∧
      (s.pc true).now = .access ⟨0x11000, true, 2⟩ ∧
      (s.pc false).now = .handleLet ⟨0x21000, true, 0⟩ 0x20000 1 ∧
      s.lock (.node 0x20000 1) = some false ∧ LocksReturned l s := by
  have hrun : ((computed Bool .small).exec (fun s t => !(s.pc t).now.inFree)
      twoWrites twoMapped).any (fun s => (s.pc true).now = .access ⟨0x11000, true, 2⟩ ∧
        (s.pc false).now = .handleLet ⟨0x21000, true, 0⟩ 0x20000 1 ∧
        s.lock (.node 0x20000 1) = some false) = true := by decide +kernel
  have hr₀ : TracedRuns (threads Bool .small) (fun s t => ¬ (s.pc t).now.inFree) twoThreads []
      twoMapped := twoMapped_traced (by decide) (by decide)
  obtain ⟨l, s, hr, hs⟩ := Computed.exec_any (fun s t ho => by simpa using ho) hr₀ hrun
  obtain ⟨hp, hq, hl⟩ := of_decide_eq_true hs
  exact ⟨l, s, hr, hp, hq, hl, locks_are_returned twoThreads_start hr⟩

/-- `ooc_malloc(1)` and `ooc_free`: `vm_lock` is destroyed while it is held, and the
thread holds it when all is over. -/
theorem free_keeps_lock :
    (∃ l s ℓ, TracedRuns (threads Unit .small) (fun _ _ => True) nothingYet l s ∧
      Destroys s () ℓ ∧ s.lock ℓ = some ()) ∧
    ∃ l s, TracedRuns (threads Unit .small) (fun _ _ => True) nothingYet l s ∧
      (s.pc ()).now = .rest ∧ s.lock (.node 0x10000 1) = some () := by
  have h1 : ((computed Unit .small).exec (fun _ _ => true)
      (steps 4 ++ ((), .free 0x11000) :: steps 6) mapped).any
      (fun s => (s.pc ()).now = .remove 0x10000 1 0x11000 ∧ s.lock (.node 0x10000 1) = some () ∧
        (sSpTreeSplay s.mem.heap 0x11000 s.mem.heap.root).any (fun r => r.2 = some (.vma 0x10000)) ∧
        s.mem.inits 0x10000 = 1) = true := by decide +kernel
  have h2 : ((computed Unit .small).exec (fun _ _ => true)
      (steps 4 ++ ((), .free 0x11000) :: steps 9) mapped).any
      (fun s => (s.pc ()).now = .rest ∧ s.lock (.node 0x10000 1) = some ()) = true := by
        decide +kernel
  obtain ⟨l1, s1, hr1, hs1⟩ := Computed.exec_any (fun _ _ _ => trivial) (mapped_traced trivial) h1
  obtain ⟨l2, s2, hr2, hs2⟩ := Computed.exec_any (fun _ _ _ => trivial) (mapped_traced trivial) h2
  obtain ⟨hq, hl, hsplay, hk⟩ := of_decide_eq_true hs1
  obtain ⟨⟨h, z⟩, hsplay, hz⟩ := (Option.any_eq_true _ _).mp hsplay
  obtain rfl := of_decide_eq_true hz
  exact ⟨⟨l1, s1, _, hr1, ⟨_, _, _, h, 0x10000, hq, hsplay, by rw [hk]⟩, hl⟩, l2, s2, hr2,
    of_decide_eq_true hs2⟩

end OpenOOC.Sched
