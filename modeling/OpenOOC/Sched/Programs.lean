import OpenOOC.Lib.Simulation
import OpenOOC.Sched.Kernels

/-! Programs of any number of threads that call `ooc_malloc` and `ooc_free` and load from
and store to what they were given, with the faults that this takes. Where they are used
as they should be, they run as on a heap whose operations are single steps and which
knows no protection; and they take as long, up to a factor. -/

namespace OpenOOC.Programs

open LockMachine Sched Kernels Simulation

variable {Tid : Type} {V B : Type*}

/-! ### Programs -/

inductive Command (V B : Type*)
  | done
  | acc (x : Cmd V B)
  | malloc (size : BitVec 64) (k : Addr → B)
  | free (ptr : Addr) (b : B)

structure Reply where
  mmapRet : Option Addr
  mprotectOk : Bool

instance (ps : PageSize) (a : Alloc) (x : ℕ) : Decidable (a.InRegion ps x) :=
  inferInstanceAs (Decidable (_ ∧ _))

/-- The pages that `mmap` returns hold zeros. -/
def zeroed [Zero V] (ps : PageSize) (a : Alloc) (d : Data V) : Data V :=
  fun y => if a.InRegion ps y.toNat then 0 else d y

/-- The allocation that `ooc_malloc` is about to return. -/
def malloc? : Point → Option Alloc
  | .insertGet a => some a
  | .insert a => some a
  | .insertLet a => some a
  | .mallocReturn a => some a
  | _ => none

/-- What a thread at rest does for its program. -/
def request (c : Command V B) (e : Reply) : Input :=
  match c with
  | .done => .nothing
  | .acc x => .access x.addr x.write
  | .malloc size _ => .malloc size e.mmapRet e.mprotectOk
  | .free ptr _ => .free ptr

def input (cmd : B → Command V B) (p : Pc × B) (e : Reply) : Input :=
  if p.1.now = .rest then request (cmd p.2) e else .nothing

/-- What becomes of the data and of the program when the thread goes from `q` to `q'`. The
program goes on when its access is made, when `ooc_malloc` returns, and already when
`ooc_free` is called, which returns nothing. -/
def effect [Zero V] (ps : PageSize) (cmd : B → Command V B) (q q' : Point) (b : B) (d : Data V) :
    Data V × B :=
  match q with
  | .rest =>
    match cmd b with
    | .malloc _ k => ((malloc? q').elim d fun a => zeroed ps a d,
        (malloc? q').elim (k 0) fun _ => b)
    | .free _ b' => (d, b')
    | _ => (d, b)
  | .access _ =>
    match cmd b with
    | .acc x => if q' = .rest then (x.data d, x.rest d) else (d, b)
    | _ => (d, b)
  | .mallocReturn a =>
    match cmd b with
    | .malloc _ k => (d, k (a.vmStart ps))
    | _ => (d, b)
  | _ => (d, b)

/-- A program stays where it is while its thread takes a lock or lets one go. -/
def keep (b : B) : Instr LockId Pc → Instr LockId (Pc × B)
  | .get ℓ q => .get ℓ (q, b)
  | .drop ℓ q => .drop ℓ (q, b)
  | .code => .code

def programs (Tid : Type) [Zero V] (ps : PageSize) (cmd : B → Command V B) :
    Machine Tid LockId (Pc × B) (Mem × Data V) Reply where
  instr _ p := keep p.2 (instr p.1)
  input p m e := p.1.now = .rest → cmd p.2 ≠ .done ∧
    ∀ size k, cmd p.2 = .malloc size k → ∀ vma, e.mmapRet = some vma → MmapOk ps m.1 ⟨vma, size⟩
  code _ p m e := (Sched.code ps p.1 m.1 (input cmd p e)).map fun r =>
    ((r.1, (effect ps cmd p.1.now r.2.now p.2 m.2).1),
      (r.2, (effect ps cmd p.1.now r.2.now p.2 m.2).2))
  reachable m ℓ := LockMapped m.1 ℓ

abbrev Process (Tid : Type) (V B : Type*) := LockMachine.State Tid LockId (Pc × B) (Mem × Data V)

def threadsOf (c : Process Tid V B) : Sched.State Tid := ⟨c.mem.1, c.lock, fun t => (c.pc t).1⟩

def load (s : Sched.State Tid) (d : Data V) (prog : Tid → B) : Process Tid V B :=
  ⟨(s.mem, d), s.lock, fun t => (s.pc t, prog t)⟩

/-! ### A heap without protection -/

/-- The allocations that are live, what memory holds, and the programs. -/
structure Plain (Tid : Type) (V B : Type*) where
  live : List Alloc
  data : Data V
  prog : Tid → B

inductive PlainStep [DecidableEq Tid] [Zero V] (ps : PageSize) (cmd : B → Command V B)
    (a : Plain Tid V B) (t : Tid) :
    Plain Tid V B → Prop
  | acc {x : Cmd V B} (h : cmd (a.prog t) = .acc x) :
      PlainStep ps cmd a t ⟨a.live, x.data a.data, Function.update a.prog t (x.rest a.data)⟩
  | malloc {size : BitVec 64} {k : Addr → B} {vma : Addr} (h : cmd (a.prog t) = .malloc size k)
    (hr : Region ps ⟨vma, size⟩)
      (haway : ∀ b ∈ a.live, Away ps ⟨vma, size⟩ b) :
      PlainStep ps cmd a t ⟨⟨vma, size⟩ :: a.live, zeroed ps ⟨vma, size⟩ a.data,
        Function.update a.prog t (k (Alloc.vmStart ps ⟨vma, size⟩))⟩
  | null {size : BitVec 64} {k : Addr → B} (h : cmd (a.prog t) = .malloc size k) :
      PlainStep ps cmd a t ⟨a.live, a.data, Function.update a.prog t (k 0)⟩
  | free {ptr : Addr} {b : B} (h : cmd (a.prog t) = .free ptr b) :
      PlainStep ps cmd a t ⟨a.live.filter fun x => x.vmStart ps ≠ ptr, a.data,
        Function.update a.prog t b⟩

/-- What a program may do: access what is allocated, and free what is allocated and not
empty. -/
def May (ps : PageSize) (live : List Alloc) : Command V B → Prop
  | .acc x => InLive ps live x.addr
  | .free ptr _ => ∃ a ∈ live, a.vmStart ps = ptr ∧ (a.vmStart ps).toNat < (a.vmEnd ps).toNat
  | _ => True

section

variable [DecidableEq Tid] [Zero V]

/-- In whatever order the threads take their turns, they do what they may. -/
def Safe (ps : PageSize) (cmd : B → Command V B) (a₀ : Plain Tid V B) : Prop :=
  ∀ n a, RunsIn (fun a a' => ∃ t, PlainStep ps cmd a t a') a₀ n a →
    ∀ t, May ps a.live (cmd (a.prog t))

end

/-- The heap as the programs see it. -/
structure Agrees (ps : PageSize) (c : Process Tid V B) (a : Plain Tid V B) : Prop where
  live : c.mem.1.live = a.live
  data : ∀ y, InLive ps a.live y → c.mem.2 y = a.data y
  prog : ∀ t, (c.pc t).2 = a.prog t

/-! ### One step of a thread -/

/-- How many steps a thread takes at most before its program goes on; in `ooc_free`, before
it makes the next command after. -/
def left : Point → ℕ
  | .rest => 18
  | .insertGet _ => 4
  | .insert _ => 3
  | .insertLet _ => 2
  | .mallocReturn _ => 1
  | .access x => 8 * (2 - x.faults) + 1
  | .findGet (.handler x) => 8 * (1 - x.faults) + 8
  | .find (.handler x) => 8 * (1 - x.faults) + 7
  | .findGetNode (.handler x) _ _ => 8 * (1 - x.faults) + 6
  | .findLet (.handler x) _ _ => 8 * (1 - x.faults) + 5
  | .handle x _ _ => 8 * (1 - x.faults) + 4
  | .protect x _ _ _ => 8 * (1 - x.faults) + 3
  | .handleLet x _ _ => 8 * (1 - x.faults) + 2
  | .findGet (.free _) => 27
  | .find (.free _) => 26
  | .findGetNode (.free _) _ _ => 25
  | .findLet (.free _) _ _ => 24
  | .freeRead .. => 23
  | .removeGet .. => 22
  | .remove .. => 21
  | .removeLet .. => 20
  | .unmap .. => 19

structure Onward (q q' : Point) : Prop where
  left : left q' < left q
  access : ∀ x', q'.access? = some x' → ∃ x, q.access? = some x ∧ x.addr = x'.addr ∧
    x.write = x'.write
  malloc : ∀ a, malloc? q' = some a → malloc? q = some a
  frees : ∀ ptr, q' ≠ .findGet (.free ptr)

theorem Onward.of_access {q q' : Point} (hl : Programs.left q' < Programs.left q)
    (ha : q'.access? = q.access?) (hm : malloc? q' = malloc? q)
    (hf : ∀ ptr, q' ≠ .findGet (.free ptr)) : Onward q q' :=
  ⟨hl, fun x hx => ⟨x, ha ▸ hx, rfl, rfl⟩, fun _ h => hm ▸ h, hf⟩

variable {ps : PageSize} {cmd : B → Command V B} {q q' : Point} {ℓ : LockId} {m m' : Mem}
  {d d' : Data V} {b b' : B}

theorem onward_of_get (h : GetStep q ℓ q') : Onward q q' := by
  cases h with
  | insert => exact .of_access (Nat.lt_succ_self _) rfl rfl nofun
  | @find c => cases c <;> exact .of_access (Nat.lt_succ_self _) rfl rfl nofun
  | @node c => cases c <;> exact .of_access (Nat.lt_succ_self _) rfl rfl nofun
  | remove => exact .of_access (Nat.lt_succ_self _) rfl rfl nofun

theorem onward_of_drop (h : DropStep q ℓ q') : Onward q q' := by
  cases h with
  | insert => exact .of_access (Nat.lt_succ_self _) rfl rfl nofun
  | @found c => cases c <;> exact .of_access (Nat.lt_succ_self _) rfl rfl nofun
  | @handle x z k =>
    have hlt : 8 * (2 - (x.faults + 1)) + 1 < 8 * (1 - x.faults) + 2 := by omega
    refine ⟨hlt, fun x' hx => ⟨x, rfl, ?_⟩, nofun, nofun⟩
    cases hx
    exact ⟨rfl, rfl⟩
  | remove => exact .of_access (Nat.lt_succ_self _) rfl rfl nofun

/-- The operation that a thread is in is the one that its program asks for. -/
structure Tied (cmd : B → Command V B) (q : Point) (b : B) : Prop where
  access : ∀ x, q.access? = some x → ∃ y, cmd b = .acc y ∧ y.addr = x.addr ∧ y.write = x.write
  malloc : ∀ a, malloc? q = some a → ∃ k, cmd b = .malloc a.size k

theorem Tied.onward (h : Tied cmd q b) (ho : Onward q q') : Tied cmd q' b := by
  refine ⟨fun x hx => ?_, fun a ha => h.malloc a (ho.malloc a ha)⟩
  obtain ⟨y, hy, ha, hw⟩ := ho.access x hx
  obtain ⟨c, hc, ha', hw'⟩ := h.access y hy
  exact ⟨c, hc, ha'.trans ha, hw'.trans hw⟩

inductive Move [Zero V] (ps : PageSize) (cmd : B → Command V B) (m : Mem) (d : Data V) :
    Point → B → Mem → Data V → Point → B → Prop
  | access {b : B} {x : Cmd V B} (h : cmd b = .acc x) :
    Move ps cmd m d .rest b m d (.access ⟨x.addr, x.write, 0⟩) b
  | null {b : B} {size : BitVec 64} {k : Addr → B} (h : cmd b = .malloc size k) :
    Move ps cmd m d .rest b m d .rest (k 0)
  | mapped {b : B} {size : BitVec 64} {k : Addr → B} {vma : Addr} (h : cmd b = .malloc size k)
    (hok : MmapOk ps m ⟨vma, size⟩) :
      Move ps cmd m d .rest b { m with prot := mapProt ps m.prot ⟨vma, size⟩ }
        (zeroed ps ⟨vma, size⟩ d) (.insertGet ⟨vma, size⟩) b
  | free {b b' : B} {ptr : Addr} (h : cmd b = .free ptr b') :
      Move ps cmd m d .rest b { m with live := m.live.filter fun a => a.vmStart ps ≠ ptr } d
        (.findGet (.free ptr)) b'
  | granted {b : B} {x : Access} {y : Cmd V B} (h : cmd b = .acc y) (ha : y.addr = x.addr)
    (hw : Allowed (m.prot x.addr.toNat) x.write) :
      Move ps cmd m d (.access x) b m (y.data d) .rest (y.rest d)
  | returned {b : B} {a : Alloc} {k : Addr → B} (h : cmd b = .malloc a.size k) :
      Move ps cmd m d (.mallocReturn a) b { m with live := a :: m.live } d .rest (k (a.vmStart ps))
  | inside {b : B} {q q' : Point} {m' : Mem} (hl : m'.live = m.live) (ho : Onward q q') :
    Move ps cmd m d q b m' d q' b

/-- An access that faults has done so at most once before. -/
def FaultsAgain (m : Mem) (q : Point) : Prop :=
  ∀ x, q = .access x → ¬ Allowed (m.prot x.addr.toNat) x.write → x.faults ≤ 1

theorem move_of_code [Zero V] (hq : q ≠ .rest) (ht : Tied cmd q b) (hf : FaultsAgain m q)
    (hs : CodeStep ps m q m' q') :
    Move ps cmd m d q b m' (effect ps cmd q q' b d).1 q' (effect ps cmd q q' b d).2 := by
  cases hs with
  | mallocFails => exact absurd rfl hq
  | mapped => exact absurd rfl hq
  | starts => exact absurd rfl hq
  | frees => exact absurd rfl hq
  | insert he =>
    obtain ⟨h, -, rfl⟩ := Option.map_eq_some_iff.mp he
    exact .inside rfl (.of_access (Nat.lt_succ_self _) rfl rfl nofun)
  | @mallocReturn a =>
    obtain ⟨k, hk⟩ := ht.malloc a rfl
    simp only [effect, hk]
    exact .returned hk
  | @granted x h =>
    obtain ⟨y, hy, ha, -⟩ := ht.access x rfl
    simp only [effect, hy, if_true]
    exact .granted hy ha h
  | @faults x h =>
    obtain ⟨y, hy, -⟩ := ht.access x rfl
    have hle := hf x rfl h
    have hlt : 8 * (1 - x.faults) + 8 < 8 * (2 - x.faults) + 1 := by omega
    simp only [effect, hy, reduceCtorEq, if_false]
    exact .inside rfl (.of_access hlt rfl rfl nofun)
  | @find c h z he => cases c <;> exact .inside rfl (.of_access (Nat.lt_succ_self _) rfl rfl nofun)
  | handle he =>
    obtain ⟨v, -, he⟩ := Option.bind_eq_some_iff.mp he
    obtain ⟨h, -, he⟩ := Option.bind_eq_some_iff.mp he
    cases he
    exact .inside rfl (.of_access (Nat.lt_succ_self _) rfl rfl nofun)
  | protect he =>
    obtain ⟨-, -, he⟩ := Option.bind_eq_some_iff.mp he
    cases he
    exact .inside rfl (.of_access (Nat.lt_succ_self _) rfl rfl nofun)
  | freeRead => exact .inside rfl (.of_access (Nat.lt_succ_self _) rfl rfl nofun)
  | remove => exact .inside rfl (.of_access (Nat.lt_succ_self _) rfl rfl nofun)
  | unmap he =>
    obtain ⟨v, -, he⟩ := Option.bind_eq_some_iff.mp he
    cases he
    exact .inside rfl (.of_access (Nat.lt_succ_self _) rfl rfl nofun)

theorem keep_get {b : B} {i : Instr LockId Pc} {p : Pc × B} (h : keep b i = .get ℓ p) :
    ∃ q, i = .get ℓ q ∧ p = (q, b) := by
  cases i with
  | get ℓ' q =>
    cases h
    exact ⟨q, rfl, rfl⟩
  | drop ℓ' q => cases h
  | code => cases h

theorem keep_drop {b : B} {i : Instr LockId Pc} {p : Pc × B} (h : keep b i = .drop ℓ p) :
    ∃ q, i = .drop ℓ q ∧ p = (q, b) := by
  cases i with
  | get ℓ' q => cases h
  | drop ℓ' q =>
    cases h
    exact ⟨q, rfl, rfl⟩
  | code => cases h

theorem keep_code {b : B} {i : Instr LockId Pc} (h : keep b i = .code) : i = .code := by
  cases i with
  | get ℓ' q => cases h
  | drop ℓ' q => cases h
  | code => rfl

theorem inputOk_request {c : Command V B} {p : Pc} {e : Reply} (hq : p.now = .rest)
    (hdone : c ≠ .done)
    (hm : ∀ size k, c = .malloc size k → ∀ vma, e.mmapRet = some vma → MmapOk ps m ⟨vma, size⟩)
    (hmay : May ps m.live c) :
    InputOk ps p m (request c e) := by
  unfold InputOk
  rw [hq]
  cases c with
  | done => exact absurd rfl hdone
  | acc x => exact hmay
  | malloc size k => exact hm size k rfl
  | free ptr b =>
    obtain ⟨a, ha, hs, -⟩ := hmay
    exact ⟨a, ha, hs⟩

theorem move_of_rest [Zero V] {p : Pc} {e : Reply} (hq : p.now = .rest)
    (hin : InputOk ps p m (request (cmd b) e))
    (hc : codePoint ps .rest m (request (cmd b) e) = some (m', q')) :
    Move ps cmd m d .rest b m' (effect ps cmd .rest q' b d).1 q'
      (effect ps cmd .rest q' b d).2 := by
  cases hcmd : cmd b with
  | done =>
    rw [hcmd] at hc
    cases hc
  | acc x =>
    rw [hcmd] at hc
    cases hc
    simp only [effect, hcmd]
    exact .access hcmd
  | free ptr b' =>
    rw [hcmd] at hc
    cases hc
    simp only [effect, hcmd]
    exact .free hcmd
  | malloc size k =>
    rw [hcmd] at hc hin
    have hstep := codeStep_of hin (hq ▸ hc)
    rw [hq] at hstep
    have hmalloc := Option.some.inj hc
    simp only [effect, hcmd]
    cases hr : e.mmapRet with
    | none =>
      rw [hr] at hmalloc
      cases hmalloc
      exact .null hcmd
    | some vma =>
      rw [hr] at hmalloc
      cases hok : e.mprotectOk with
      | false =>
        -- the region goes away again
        rw [hok] at hmalloc
        obtain ⟨-, rfl⟩ := Prod.mk.inj hmalloc
        cases hstep
        exact .null hcmd
      | true =>
        rw [hok] at hmalloc
        obtain ⟨rfl, rfl⟩ := Prod.mk.inj hmalloc
        refine .mapped hcmd ?_
        unfold InputOk at hin
        rw [hq] at hin
        exact hin vma hr

/-! ### Steps -/

section

variable [DecidableEq Tid] [Zero V] {c c' : Process Tid V B} {a a' a₀ : Plain Tid V B} {t t' : Tid}
  {s s₀ : Sched.State Tid}
  {g g' : Ghost}

omit [Zero V] in
theorem threadsOf_update (mem : Mem × Data V) (L : LockId → Option Tid) (pc : Tid → Pc × B)
    (t : Tid) (p : Pc × B) :
    threadsOf ⟨mem, L, Function.update pc t p⟩ =
      ⟨mem.1, L, Function.update (fun t' => (pc t').1) t p.1⟩ := by
  have hpc : (fun t' => (Function.update pc t p t').1) =
      Function.update (fun t' => (pc t').1) t p.1 := by
    funext t'
    by_cases ht : t' = t
    · rw [ht, Function.update_self, Function.update_self]
    · rw [Function.update_of_ne ht, Function.update_of_ne ht]
  unfold threadsOf
  rw [hpc]

inductive ProgramStep (ps : PageSize) (cmd : B → Command V B) (c : Process Tid V B) (t : Tid) :
    Process Tid V B → Prop
  | lock {L : LockId → Option Tid} {p : Pc} (ho : Onward (c.pc t).1.now p.now) :
      ProgramStep ps cmd c t ⟨c.mem, L, Function.update c.pc t (p, (c.pc t).2)⟩
  | move {m : Mem} {d : Data V} {p : Pc} {b : B}
    (h : Move ps cmd c.mem.1 c.mem.2 (c.pc t).1.now (c.pc t).2 m d p.now b) :
      ProgramStep ps cmd c t ⟨(m, d), c.lock, Function.update c.pc t (p, b)⟩

theorem step_threads (hmay : (c.pc t).1.now = .rest → May ps c.mem.1.live (cmd (c.pc t).2))
    (ht : Tied cmd (c.pc t).1.now (c.pc t).2)
    (hf : FaultsAgain c.mem.1 (c.pc t).1.now) (hs : Step (programs Tid ps cmd) c t c') :
    Step (threads Tid ps) (threadsOf c) t (threadsOf c') ∧ ProgramStep ps cmd c t c' := by
  cases hs with
  | get hi hfree =>
    rw [threadsOf_update]
    obtain ⟨q, hin, rfl⟩ := keep_get hi
    exact ⟨.get hin hfree, .lock (onward_of_get (getStep_of hin).1)⟩
  | drop hi =>
    rw [threadsOf_update]
    obtain ⟨q, hin, rfl⟩ := keep_drop hi
    exact ⟨.drop hin, .lock (onward_of_drop (dropStep_of hin).1)⟩
  | @code e mem p hi he hc =>
    rw [threadsOf_update]
    have hin := keep_code hi
    obtain ⟨r, hr, hp⟩ := Option.map_eq_some_iff.mp hc
    obtain ⟨⟨m, q⟩, hpoint, hr'⟩ := Option.map_eq_some_iff.mp hr
    have hok : InputOk ps (c.pc t).1 c.mem.1 (input cmd (c.pc t) e) := by
      unfold input
      split_ifs with hrest
      · exact inputOk_request hrest (he hrest).1 (he hrest).2 (hmay hrest)
      · exact input_of_not_rest _ _ hrest
    subst hr'
    cases hp
    refine ⟨.code hin hok hr, .move ?_⟩
    by_cases hrest : (c.pc t).1.now = .rest
    · unfold input at hok hpoint
      rw [if_pos hrest] at hok hpoint
      rw [hrest] at hpoint ⊢
      exact move_of_rest hrest hok hpoint
    · exact move_of_code hrest ht hf (codeStep_of hok hpoint)

/-! ### The simulation -/

def AnyStep (ps : PageSize) (cmd : B → Command V B) (c c' : Process Tid V B) : Prop :=
  ∃ t, Step (programs Tid ps cmd) c t c'

def AnyPlain (ps : PageSize) (cmd : B → Command V B) (a a' : Plain Tid V B) : Prop :=
  ∃ t, PlainStep ps cmd a t a'

/-- The process `c` on its way from `s₀`, and the plain heap `a` on its way from `a₀`. What
is about to be returned holds zeros, and what is being freed is not empty. -/
structure Good (ps : PageSize) (cmd : B → Command V B) (s₀ : Sched.State Tid) (a₀ : Plain Tid V B)
    (c : Process Tid V B)
    (a : Plain Tid V B) (g : Ghost) : Prop where
  runs : Runs (threads Tid ps) (fun s _ => WellUsed ps s) s₀ (threadsOf c)
  reached : ∃ n, RunsIn (AnyPlain ps cmd) a₀ n a
  inv : Inv ps (threadsOf c) g
  agrees : Agrees ps c a
  tied : ∀ t, Tied cmd (c.pc t).1.now (c.pc t).2
  zeros : ∀ t x, malloc? (c.pc t).1.now = some x → ∀ y, x.Owns ps y → c.mem.2 y = 0
  frees : ∀ t ptr, (c.pc t).1.now = .findGet (.free ptr) →
    ∃ b ∈ g.mapped, b.vmStart ps = ptr ∧ (b.vmStart ps).toNat < (b.vmEnd ps).toNat

omit [DecidableEq Tid] in
theorem waitsFor_threads (hw : WaitsFor (programs Tid ps cmd) c t t') :
    WaitsFor (threads Tid ps) (threadsOf c) t t' := by
  obtain ⟨ℓ, p, h, hl⟩ := hw
  obtain ⟨q, hq, -⟩ := keep_get h
  exact ⟨ℓ, q, hq, hl⟩

theorem own_of_malloc {x : Alloc} (h : malloc? q = some x) (hat : At ps m g x q) :
    q.Owner ps x := by
  cases q with
  | insertGet _ => exact ⟨Or.inl rfl, hat.on⟩
  | insert _ => exact ⟨Or.inl rfl, hat.on⟩
  | insertLet _ => exact ⟨Or.inl rfl, hat.on⟩
  | mallocReturn _ => exact ⟨Or.inl rfl, hat.on⟩
  | _ => cases h

theorem on_of_malloc {x y : Alloc} (h : malloc? q = some x) (hy : q.On ps y) : y = x := by
  cases q with
  | insertGet _ => cases h; exact hy
  | insert _ => cases h; exact hy
  | insertLet _ => cases h; exact hy
  | mallocReturn _ => cases h; exact hy
  | _ => cases h

namespace Good

variable (hg : Good ps cmd s₀ a₀ c a g)

include hg

theorem may (hsafe : Safe ps cmd a₀) (t : Tid) : May ps c.mem.1.live (cmd (c.pc t).2) := by
  obtain ⟨n, hr⟩ := hg.reached
  rw [hg.agrees.live, hg.agrees.prog]
  exact hsafe n a hr t

theorem wellUsed (hsafe : Safe ps cmd a₀) : WellUsed ps (threadsOf c) := by
  refine ⟨fun t x hx => ?_, fun t ptr hq => ?_⟩
  · obtain ⟨y, hy, ha, -⟩ := (hg.tied t).access x hx
    have hmay := hg.may hsafe t
    rw [hy] at hmay
    rw [← ha]
    exact hmay
  · obtain ⟨b, hb, hs, hlt⟩ := hg.frees t ptr hq
    obtain ⟨b', hb'⟩ := hg.inv.at_now hq nofun
    obtain rfl := hg.inv.mem.eq_of_vmStart hb hb'.mapped (hs.trans (Eq.symm hb'.on))
    obtain ⟨v, hv, -, hvs, hve⟩ := hg.inv.mem.cell (hb'.listed.mpr trivial)
    have hvma : ptr - ALIGN ps SIZEOF_VM_AREA = b.vma := by
      rw [← hs, Alloc.vmStart]
      exact add_sub_cancel_right _ _
    exact ⟨v, hvma ▸ hv, by omega⟩

theorem faultsAgain (t : Tid) : FaultsAgain c.mem.1 (c.pc t).1.now := by
  intro x hq hno
  obtain ⟨hle, hall⟩ := hg.inv.faultsOk.granted t x hq
  by_contra hgt
  exact hno (hall (by omega))

/-- What `ooc_malloc` is about to return is nobody else's. -/
theorem at_malloc {x : Alloc} (hx : malloc? (c.pc t).1.now = some x) :
    At ps c.mem.1 g x (c.pc t).1.now ∧ (c.pc t).1.now.Owner ps x ∧ x ∉ c.mem.1.live := by
  have hne : (c.pc t).1.now ≠ .rest := fun h => by
    rw [h] at hx
    cases hx
  obtain ⟨y, hy⟩ := hg.inv.at_now (s := threadsOf c) (t := t) rfl hne
  obtain rfl := on_of_malloc hx hy.on
  have ho := own_of_malloc hx hy
  exact ⟨hy, ho, hg.inv.not_live hy.mapped ho⟩

theorem move {p : Pc} {b : B} {m : Mem} {d : Data V} {L : LockId → Option Tid} (h₀ : Start s₀)
    (hsafe : Safe ps cmd a₀)
    (hs : Step (threads Tid ps) (threadsOf c) t
    (threadsOf ⟨(m, d), L, Function.update c.pc t (p, b)⟩))
    (ha : ∃ n, RunsIn (AnyPlain ps cmd) a₀ n a') (hlive : m.live = a'.live)
    (hdata : ∀ y, InLive ps a'.live y → d y = a'.data y)
    (hprog : a'.prog = Function.update a.prog t b) (htied : Tied cmd p.now b)
    (hz : ∀ x, malloc? p.now = some x → ∀ y, x.Owns ps y → d y = 0)
    (hz' : ∀ t', t' ≠ t → ∀ x, malloc? (c.pc t').1.now = some x → ∀ y, x.Owns ps y → d y = 0)
    (hf : ∀ ptr, p.now = .findGet (.free ptr) → ∃ x ∈ g.mapped, x.vmStart ps = ptr ∧
      (x.vmStart ps).toNat < (x.vmEnd ps).toNat ∧ ¬ (c.pc t).1.now.Owner ps x) :
    ∃ g', Good ps cmd s₀ a₀ ⟨(m, d), L, Function.update c.pc t (p, b)⟩ a' g' := by
  have hu := hg.wellUsed hsafe
  obtain ⟨g', hi', hkeep⟩ := hg.inv.step (h₀.owned_of_runs hg.runs) hu hs
  have hself : (Function.update c.pc t (p, b)) t = (p, b) := Function.update_self _ _ _
  have hother {t' : Tid} (ht : t' ≠ t) : (Function.update c.pc t (p, b)) t' = c.pc t' :=
    Function.update_of_ne ht _ _
  refine ⟨g', hg.runs.step hu hs, ha, hi', ⟨hlive, hdata, fun t' => ?_⟩, fun t' => ?_,
    fun t' x hx y hy => ?_, fun t' ptr hq => ?_⟩
  · rw [hprog]
    dsimp only
    by_cases ht : t' = t
    · rw [ht, hself, Function.update_self]
    · rw [hother ht, Function.update_of_ne ht]
      exact hg.agrees.prog t'
  · dsimp only
    by_cases ht : t' = t
    · rw [ht, hself]
      exact htied
    · rw [hother ht]
      exact hg.tied t'
  · dsimp only at hx ⊢
    by_cases ht : t' = t
    · rw [ht, hself] at hx
      exact hz x hx y hy
    · rw [hother ht] at hx
      exact hz' t' ht x hx y hy
  · dsimp only at hq
    by_cases ht : t' = t
    · rw [ht, hself] at hq
      obtain ⟨x, hx, hs', hlt, hno⟩ := hf ptr hq
      exact ⟨x, (hkeep x hx).resolve_right hno, hs', hlt⟩
    · rw [hother ht] at hq
      obtain ⟨x, hx, hs', hlt⟩ := hg.frees t' ptr hq
      have howner : (c.pc t').1.now.Owner ps x := by
        rw [hq]
        exact ⟨Or.inr rfl, hs'⟩
      refine ⟨x, (hkeep x hx).resolve_right fun ho => ht (hg.inv.owner_unique hx ho howner), hs',
        hlt⟩

/-- A step is silent, or it is one of the plain heap's. -/
theorem step (h₀ : Start s₀) (hsafe : Safe ps cmd a₀) (hs : Step (programs Tid ps cmd) c t c') :
    ∃ p, c'.pc = Function.update c.pc t p ∧ ∃ a' g', Good ps cmd s₀ a₀ c' a' g' ∧
      (a' = a ∧ left p.1.now < left (c.pc t).1.now ∨ PlainStep ps cmd a t a' ∧
        left p.1.now < left (c.pc t).1.now + 18) := by
  have hmay := hg.may hsafe t
  obtain ⟨hst, hps⟩ := step_threads (fun _ => hmay) (hg.tied t) (hg.faultsAgain t) hs
  have htied := hg.tied t
  have hprog := hg.agrees.prog t
  obtain ⟨n, hreach⟩ := hg.reached
  have hsame : Function.update a.prog t (c.pc t).2 = a.prog := by
    rw [hprog, Function.update_eq_self]
  -- the live allocations are mapped, and nobody is about to return one
  have hlive {x : Alloc} (hx : x ∈ c.mem.1.live) : x ∈ g.mapped :=
    hg.inv.mem.listed (hg.inv.mem.live x hx)
  have hregion {x : Alloc} {y : Addr} (hx : x ∈ g.mapped) (ho : x.Owns ps y) :
      x.InRegion ps y.toNat :=
    Region.inRegion_of_inData ((hg.inv.mem.region x hx).inData_of_owns ho)
  have hzero {t' : Tid} {x : Alloc} (hx : malloc? (c.pc t').1.now = some x) {y : Addr}
      (hy : x.Owns ps y) : c.mem.2 y = 0 :=
    hg.zeros t' x hx y hy
  cases hps with
  | @lock L p ho =>
    refine ⟨_, rfl, a, ?_⟩
    obtain ⟨g', hg'⟩ := hg.move h₀ hsafe hst hg.reached hg.agrees.live hg.agrees.data hsame.symm
      (htied.onward ho)
      (fun x hx y hy => hzero (ho.malloc x hx) hy) (fun t' _ x hx y hy => hzero hx hy)
      (fun ptr hq => absurd hq (ho.frees ptr))
    exact ⟨g', hg', Or.inl ⟨rfl, ho.left⟩⟩
  | @move m d p b hmove =>
    obtain ⟨q, kept⟩ := p
    refine ⟨_, rfl, ?_⟩
    dsimp only at hmove ⊢
    generalize hnow : (c.pc t).1.now = q₀ at hmove htied hmay
    generalize hb : (c.pc t).2 = b₀ at hmove htied hmay hsame hprog
    cases hmove with
    | @access _ x h =>
      have ht : Tied cmd (.access ⟨x.addr, x.write, 0⟩) b := by
        refine ⟨fun x' hx => ?_, nofun⟩
        cases hx
        exact ⟨x, h, rfl, rfl⟩
      obtain ⟨g', hg'⟩ := hg.move h₀ hsafe hst hg.reached hg.agrees.live hg.agrees.data hsame.symm
        ht nofun
        (fun t' _ x hx y hy => hzero hx hy) nofun
      exact ⟨a, g', hg', Or.inl ⟨rfl, Nat.lt_succ_self _⟩⟩
    | @null _ size k h =>
      have hplain : PlainStep ps cmd a t ⟨a.live, a.data, Function.update a.prog t (k 0)⟩ :=
        .null (hprog ▸ h)
      obtain ⟨g', hg'⟩ := hg.move h₀ hsafe hst
        ⟨n + 1, hreach.step ⟨t, hplain⟩⟩ hg.agrees.live hg.agrees.data rfl ⟨nofun, nofun⟩
        nofun (fun t' _ x hx y hy => hzero hx hy) nofun
      exact ⟨_, g', hg', Or.inr ⟨hplain, Nat.lt_add_of_pos_right (by decide)⟩⟩
    | @mapped _ size k vma h hok =>
      have ht : Tied cmd (.insertGet ⟨vma, size⟩) b := by
        refine ⟨nofun, fun x hx => ?_⟩
        cases hx
        exact ⟨k, h⟩
      obtain ⟨-, haway⟩ := hg.inv.mem.fresh hok
      have hkeep {y : Addr} (hy : InLive ps a.live y) :
          zeroed ps ⟨vma, size⟩ c.mem.2 y = c.mem.2 y := by
        obtain ⟨x, hx, ho⟩ := hy
        have hxm := hlive (hg.agrees.live ▸ hx)
        exact if_neg ((haway x hxm).symm.not_inRegion (hregion hxm ho))
      have hzeros {y : Addr} (hy : c.mem.2 y = 0) : zeroed ps ⟨vma, size⟩ c.mem.2 y = 0 := by
        unfold zeroed
        split_ifs
        · rfl
        · exact hy
      have hr : Region ps ⟨vma, size⟩ := ⟨hok.aligned, hok.nonempty, hok.fits⟩
      obtain ⟨g', hg'⟩ := hg.move h₀ hsafe hst hg.reached hg.agrees.live
        (fun y hy => (hkeep hy).trans (hg.agrees.data y hy))
        hsame.symm ht
        (fun x hx y hy =>
          by cases hx; exact if_pos (Region.inRegion_of_inData (hr.inData_of_owns hy)))
        (fun t' _ x hx y hy => hzeros (hzero hx hy)) nofun
      exact ⟨a, g', hg', Or.inl ⟨rfl, show 4 < 18 by decide⟩⟩
    | @free _ _ ptr h =>
      have hplain : PlainStep ps cmd a t
          ⟨a.live.filter fun x => x.vmStart ps ≠ ptr, a.data, Function.update a.prog t b⟩ :=
        .free (hprog ▸ h)
      rw [h] at hmay
      obtain ⟨x, hx, hs', hlt⟩ := hmay
      obtain ⟨g', hg'⟩ := hg.move h₀ hsafe hst ⟨n + 1, hreach.step ⟨t, hplain⟩⟩
        (by rw [hg.agrees.live])
        (fun y ⟨x, hx, ho⟩ => hg.agrees.data y ⟨x, List.mem_of_mem_filter hx, ho⟩) rfl
        ⟨nofun, nofun⟩ nofun
        (fun t' _ x hx y hy => hzero hx hy)
        (fun ptr' hq => by
          cases hq
          exact ⟨x, hlive hx, hs', hlt, fun ho => by rw [hnow] at ho; exact ho.2⟩)
      exact ⟨_, g', hg', Or.inr ⟨hplain, show 27 < 18 + 18 by decide⟩⟩
    | @granted _ x y h ha hw =>
      have hplain : PlainStep ps cmd a t
          ⟨a.live, y.data a.data, Function.update a.prog t (y.rest a.data)⟩ := .acc (hprog ▸ h)
      rw [h] at hmay
      have hsee : c.mem.2 y.addr = a.data y.addr := hg.agrees.data _ (hg.agrees.live ▸ hmay)
      have hrest : y.rest c.mem.2 = y.rest a.data := by
        cases y with
        | load addr k => exact congrArg k hsee
        | store => rfl
      have hdata {z : Addr} (hz : c.mem.2 z = a.data z) : y.data c.mem.2 z = y.data a.data z := by
        cases y with
        | load => exact hz
        | store addr v b =>
          unfold Cmd.data
          dsimp only
          rw [Function.update_apply, Function.update_apply, hz]
      -- the access is not to what somebody is about to return
      have hzeros {t' : Tid} {x : Alloc} (hx : malloc? (c.pc t').1.now = some x) {z : Addr}
          (hz : x.Owns ps z) : y.data c.mem.2 z = 0 := by
        cases y with
        | load => exact hzero hx hz
        | store addr v b =>
          have hne : z ≠ addr := by
            rintro rfl
            obtain ⟨w, hw, ho⟩ := hmay
            obtain ⟨hat, -, hnot⟩ := hg.at_malloc hx
            exact hnot (hg.inv.mem.eq_of_owns (hlive hw) hat.mapped ho hz ▸ hw)
          exact (Function.update_of_ne hne _ _).trans (hzero hx hz)
      obtain ⟨g', hg'⟩ := hg.move h₀ hsafe hst ⟨n + 1, hreach.step ⟨t, hplain⟩⟩ hg.agrees.live
        (fun z hz => hdata (hg.agrees.data z hz)) (by rw [hrest]) ⟨nofun, nofun⟩ nofun
          (fun t' _ x hx z hz => hzeros hx hz) nofun
      exact ⟨_, g', hg', Or.inr ⟨hplain, by change 18 < 8 * (2 - x.faults) + 1 + 18; omega⟩⟩
    | @returned _ x k h =>
      have hx : malloc? (c.pc t).1.now = some x := by
        rw [hnow]
        rfl
      obtain ⟨hat, -, hnot⟩ := hg.at_malloc hx
      have haway (w : Alloc) (hw : w ∈ c.mem.1.live) : Away ps x w :=
        hg.inv.mem.away x hat.mapped w (hlive hw) fun he => hnot (he ▸ hw)
      have hplain : PlainStep ps cmd a t
          ⟨x :: a.live, zeroed ps x a.data, Function.update a.prog t (k (x.vmStart ps))⟩ :=
        .malloc (hprog ▸ h) (hg.inv.mem.region x hat.mapped) fun w hw =>
        haway w (hg.agrees.live ▸ hw)
      have hdata (y : Addr) (hy : InLive ps (x :: a.live) y) :
          c.mem.2 y = zeroed ps x a.data y := by
        obtain ⟨w, hw, ho⟩ := hy
        rcases List.mem_cons.mp hw with rfl | hw
        · rw [hzero hx ho]
          exact (if_pos (hregion hat.mapped ho)).symm
        · have hwl : w ∈ c.mem.1.live := hg.agrees.live ▸ hw
          rw [hg.agrees.data y ⟨w, hw, ho⟩]
          exact (if_neg ((haway w hwl).symm.not_inRegion (hregion (hlive hwl) ho))).symm
      obtain ⟨g', hg'⟩ := hg.move h₀ hsafe hst ⟨n + 1, hreach.step ⟨t, hplain⟩⟩
        (by rw [hg.agrees.live]) hdata rfl ⟨nofun, nofun⟩
        nofun (fun t' _ x hx y hy => hzero hx hy) nofun
      exact ⟨_, g', hg', Or.inr ⟨hplain, show 18 < 1 + 18 by decide⟩⟩
    | inside hl ho =>
      obtain ⟨g', hg'⟩ := hg.move h₀ hsafe hst hg.reached
        (hl.trans hg.agrees.live) hg.agrees.data hsame.symm (htied.onward ho)
        (fun x hx y hy => hzero (hnow ▸ ho.malloc x hx) hy) (fun t' _ x hx y hy => hzero hx hy)
        (fun ptr hq => absurd hq (ho.frees ptr))
      exact ⟨a, g', hg', Or.inl ⟨rfl, ho.left⟩⟩

/-! #### Waiting -/

theorem not_faults (h₀ : Start s₀) (hsafe : Safe ps cmd a₀) (t : Tid) :
    ¬ Faults (programs Tid ps cmd) c t := by
  have hno := hg.inv.not_faults (h₀.owned_of_runs hg.runs) (hg.wellUsed hsafe) t
  have hmay := hg.may hsafe t
  contrapose! hno
  unfold Faults at hno ⊢
  split at hno
  · rename_i h
    obtain ⟨q, hq, -⟩ := keep_get h
    rw [show (threads Tid ps).instr t ((threadsOf c).pc t) = _ from hq]
    exact hno
  · rename_i h
    obtain ⟨q, hq, -⟩ := keep_drop h
    rw [show (threads Tid ps).instr t ((threadsOf c).pc t) = _ from hq]
    exact hno
  · rename_i h
    rw [show (threads Tid ps).instr t ((threadsOf c).pc t) = _ from keep_code h]
    obtain ⟨e, he, hc⟩ := hno
    refine ⟨input cmd (c.pc t) e, ?_, Option.map_eq_none_iff.mp hc⟩
    unfold input
    split_ifs with hrest
    · exact inputOk_request hrest (he hrest).1 (he hrest).2 hmay
    · exact input_of_not_rest _ _ hrest

theorem rank_lt (h₀ : Start s₀) (hsafe : Safe ps cmd a₀) {t t' : Tid}
    (hw : WaitsFor (programs Tid ps cmd) c t t') :
    (c.pc t').1.now.rank < (c.pc t).1.now.rank ∧ (c.pc t').1.now ≠ .rest :=
  hg.inv.rank_lt (h₀.owned_of_runs hg.runs) (hg.wellUsed hsafe) (waitsFor_threads hw)

/-- As long as a thread is not done, some thread can go on. -/
theorem goes_on (h₀ : Start s₀) (hsafe : Safe ps cmd a₀) {t : Tid}
    (ht : ¬ ((c.pc t).1.now = .rest ∧ cmd (c.pc t).2 = .done)) : ∃ c', AnyStep ps cmd c c' := by
  obtain ⟨t', hreach, hnot⟩ := exists_not_waiting (K := programs Tid ps cmd)
    (fun t => (c.pc t).1.now.rank)
    (fun _ _ hw => (hg.rank_lt h₀ hsafe hw).1) t
  have hgo : (c.pc t').1.now = .rest → cmd (c.pc t').2 ≠ .done := by
    rcases Relation.ReflTransGen.cases_tail hreach with rfl | ⟨_, -, hw⟩
    · exact fun hrest hd => ht ⟨hrest, hd⟩
    · exact fun hrest => absurd hrest (hg.rank_lt h₀ hsafe hw).2
  obtain ⟨c', hs⟩ := step_of_not_waiting hnot (hg.not_faults h₀ hsafe t') fun _ =>
    ⟨⟨none, false⟩, fun hrest => ⟨hgo hrest, fun _ _ _ vma hv => nomatch hv⟩⟩
  exact ⟨c', t', hs⟩

end Good

theorem good_load {d : Data V} {prog : Tid → B} (h₀ : Start s₀)
    (hr : Runs (threads Tid ps) (fun s _ => WellUsed ps s) s₀ s)
    (hrest : ∀ t, (s.pc t).now = .rest) :
    ∃ g, Good ps cmd s₀ ⟨s.mem.live, d, prog⟩ (load s d prog) ⟨s.mem.live, d, prog⟩ g := by
  obtain ⟨g, hi⟩ := h₀.inv_of_runs hr
  refine ⟨g, hr, ⟨0, .start⟩, hi, ⟨rfl, fun _ _ => rfl, fun _ => rfl⟩, fun t => ?_,
    fun t x hx => ?_, fun t ptr hq => ?_⟩
  · change Tied cmd (s.pc t).now (prog t)
    rw [hrest]
    exact ⟨nofun, nofun⟩
  · change malloc? (s.pc t).now = some x at hx
    rw [hrest] at hx
    cases hx
  · change (s.pc t).now = _ at hq
    rw [hrest] at hq
    cases hq

def Follows (ps : PageSize) (cmd : B → Command V B) (s₀ : Sched.State Tid) (a₀ : Plain Tid V B)
    (c : Process Tid V B)
    (a : Plain Tid V B) : Prop := ∃ g, Good ps cmd s₀ a₀ c a g

theorem follows_of_runs {d : Data V} {prog : Tid → B} {n : ℕ} (h₀ : Start s₀)
    (hr₀ : Runs (threads Tid ps) (fun s _ => WellUsed ps s) s₀ s)
    (hrest : ∀ t, (s.pc t).now = .rest)
    (hsafe : Safe ps cmd ⟨s.mem.live, d, prog⟩) (hr : RunsIn (AnyStep ps cmd) (load s d prog) n c) :
    ∃ a, Follows ps cmd s₀ ⟨s.mem.live, d, prog⟩ c a := by
  refine hr.invariant (I := fun c => ∃ a, Follows ps cmd s₀ ⟨s.mem.live, d, prog⟩ c a)
    ⟨_, good_load h₀ hr₀ hrest⟩
    fun c c' ⟨a, g, hg⟩ ⟨t, hs⟩ => ?_
  obtain ⟨-, -, a', g', hg', -⟩ := hg.step h₀ hsafe hs
  exact ⟨a', g', hg'⟩

/-- Programs that do only what they may on a plain heap: their threads never go wrong nor
wait for each other, some thread can go on until all are done, and what they have done so
far the plain heap can do. -/
theorem programs_refine {d : Data V} {prog : Tid → B} {n : ℕ} (h₀ : Start s₀)
    (hr₀ : Runs (threads Tid ps) (fun s _ => WellUsed ps s) s₀ s)
    (hrest : ∀ t, (s.pc t).now = .rest)
    (hsafe : Safe ps cmd ⟨s.mem.live, d, prog⟩) (hr : RunsIn (AnyStep ps cmd) (load s d prog) n c) :
    (∃ k a, RunsIn (AnyPlain ps cmd) ⟨s.mem.live, d, prog⟩ k a ∧ Agrees ps c a) ∧
    (∀ t, ¬ Faults (programs Tid ps cmd) c t) ∧
      ¬ Deadlock (programs Tid ps cmd) c ∧
      ((∃ c', AnyStep ps cmd c c') ∨ ∀ t, (c.pc t).1.now = .rest ∧ cmd (c.pc t).2 = .done) := by
  obtain ⟨a, g, hg⟩ := follows_of_runs h₀ hr₀ hrest hsafe hr
  obtain ⟨k, hk⟩ := hg.reached
  refine ⟨⟨k, a, hk, hg.agrees⟩, hg.not_faults h₀ hsafe,
    no_deadlock_of_rank (fun t => (c.pc t).1.now.rank) fun _ _ hw => (hg.rank_lt h₀ hsafe hw).1, ?_⟩
  by_cases hdone : ∀ t, (c.pc t).1.now = .rest ∧ cmd (c.pc t).2 = .done
  · exact Or.inr hdone
  · obtain ⟨t, ht⟩ := not_forall.mp hdone
    exact Or.inl (hg.goes_on h₀ hsafe ht)

end

/-- A program that stores to its allocation and frees it. -/
def storesAndFrees : Addr × ℕ → Command ℕ (Addr × ℕ)
  | (x, 0) => .acc (.store x 7 (x, 1))
  | (x, 1) => .free x (x, 2)
  | _ => .done

theorem storesAndFrees_step {a a' : Plain Bool ℕ (Addr × ℕ)} {t : Bool}
    (h : PlainStep .small storesAndFrees a t a') :
    ∃ x, (a.prog t = (x, 0) ∧ a'.prog = Function.update a.prog t (x, 1) ∧ a'.live = a.live) ∨
      (a.prog t = (x, 1) ∧ a'.prog = Function.update a.prog t (x, 2) ∧
        a'.live = a.live.filter fun b => b.vmStart .small ≠ x) := by
  rcases hp : a.prog t with ⟨x, k⟩
  match k with
  | 0 =>
    have hcmd : storesAndFrees (a.prog t) = .acc (.store x 7 (x, 1)) := by
      rw [hp]
      rfl
    cases h with
    | acc h =>
      cases h.symm.trans hcmd
      exact ⟨x, Or.inl ⟨rfl, rfl, rfl⟩⟩
    | malloc h => cases h.symm.trans hcmd
    | null h => cases h.symm.trans hcmd
    | free h => cases h.symm.trans hcmd
  | 1 =>
    have hcmd : storesAndFrees (a.prog t) = .free x (x, 2) := by
      rw [hp]
      rfl
    cases h with
    | acc h => cases h.symm.trans hcmd
    | malloc h => cases h.symm.trans hcmd
    | null h => cases h.symm.trans hcmd
    | free h =>
      cases h.symm.trans hcmd
      exact ⟨x, Or.inr ⟨rfl, rfl, rfl⟩⟩
  | _ + 2 =>
    have hcmd : storesAndFrees (a.prog t) = .done := by
      rw [hp]
      rfl
    cases h with
    | acc h => cases h.symm.trans hcmd
    | malloc h => cases h.symm.trans hcmd
    | null h => cases h.symm.trans hcmd
    | free h => cases h.symm.trans hcmd

def given (t : Bool) : Alloc := if t then ⟨0x10000, 32⟩ else ⟨0x20000, 32⟩

/-- A thread that is not done yet has not freed its own. -/
theorem storesAndFrees_given {a : Plain Bool ℕ (Addr × ℕ)} {d : Data ℕ} {n : ℕ}
    (hr : RunsIn (AnyPlain .small storesAndFrees)
      ⟨[⟨0x20000, 32⟩, ⟨0x10000, 32⟩], d, fun t => ((given t).vmStart .small, 0)⟩ n a) (t : Bool) :
    (a.prog t).1 = (given t).vmStart .small ∧ ((a.prog t).2 ≤ 1 → given t ∈ a.live) := by
  refine hr.invariant (I := fun a => ∀ t, (a.prog t).1 = (given t).vmStart .small ∧
    ((a.prog t).2 ≤ 1 → given t ∈ a.live)) (fun t => ⟨rfl, fun _ => ?_⟩)
    (fun a a' hi ⟨t', hs⟩ t => ?_) t
  · cases t <;> simp [given]
  obtain ⟨x, ⟨hp, hp', hl⟩ | ⟨hp, hp', hl⟩⟩ := storesAndFrees_step hs
  · obtain ⟨hx, hg⟩ := hi t'
    rw [hp] at hx hg
    rw [hp', hl]
    by_cases ht : t = t'
    · subst ht
      rw [Function.update_self]
      exact ⟨hx, fun _ => hg (by simp)⟩
    · rw [Function.update_of_ne ht]
      exact hi t
  · obtain ⟨hx, hg⟩ := hi t'
    rw [hp] at hx hg
    rw [hp', hl]
    by_cases ht : t = t'
    · subst ht
      rw [Function.update_self]
      exact ⟨hx, fun h => absurd h (by simp)⟩
    · rw [Function.update_of_ne ht]
      refine ⟨(hi t).1, fun h => List.mem_filter.mpr ⟨(hi t).2 h, decide_eq_true ?_⟩⟩
      change x = _ at hx
      rw [hx]
      cases t <;> cases t' <;> first | exact absurd rfl ht | decide

theorem storesAndFrees_safe {d : Data ℕ} : Safe .small storesAndFrees
    ⟨[⟨0x20000, 32⟩, ⟨0x10000, 32⟩], d, fun t => ((given t).vmStart .small, 0)⟩ := by
  intro n a hr t
  obtain ⟨hx, hg⟩ := storesAndFrees_given hr t
  rcases hp : a.prog t with ⟨x, k⟩
  rw [hp] at hx hg
  dsimp only at hx hg
  subst hx
  match k with
  | 0 => exact ⟨given t, hg (by simp), by cases t <;> decide⟩
  | 1 => exact ⟨given t, hg (by simp), rfl, by cases t <;> decide⟩
  | _ + 2 => trivial

/-- Two threads each store to their allocation and free it. -/
theorem programs_refine_free : ∃ s : Sched.State Bool,
    Runs (threads Bool .small) (fun s _ => WellUsed .small s) twoThreads s ∧
      s.mem.live = [⟨0x20000, 32⟩, ⟨0x10000, 32⟩] ∧ ∀ n c,
        RunsIn (AnyStep .small storesAndFrees)
          (load s (fun _ => 3) fun t => ((given t).vmStart .small, 0)) n c →
        (∃ k a, RunsIn (AnyPlain .small storesAndFrees)
            ⟨s.mem.live, fun _ => 3, fun t => ((given t).vmStart .small, 0)⟩ k a ∧
          Agrees .small c a) ∧
          (∀ t, ¬ Faults (programs Bool .small storesAndFrees) c t) ∧
          ¬ Deadlock (programs Bool .small storesAndFrees) c ∧
          ((∃ c', AnyStep .small storesAndFrees c c') ∨
            ∀ t, (c.pc t).1.now = .rest ∧ storesAndFrees (c.pc t).2 = .done) := by
  obtain ⟨s, hr, hrest, hl⟩ := twoThreads_allocate
  exact ⟨s, hr, hl, fun n c =>
    programs_refine twoThreads_start hr hrest (hl ▸ storesAndFrees_safe)⟩

section

variable [DecidableEq Tid] [Zero V] {c c' : Process Tid V B} {a a' a₀ : Plain Tid V B} {t t' : Tid}
  {s s₀ : Sched.State Tid}
  {g g' : Ghost}

/-! ### How long it takes -/

variable [Fintype Tid]

/-- How many steps the threads can take before their programs go on. -/
def leftAll (c : Process Tid V B) : ℕ := ∑ t, left (c.pc t).1.now

theorem ranked (h₀ : Start s₀) (hsafe : Safe ps cmd a₀) :
    Ranked (AnyStep ps cmd) (AnyPlain ps cmd) (Follows ps cmd s₀ a₀) leftAll 18 := by
  intro c c' a ⟨g, hg⟩ ⟨t, hs⟩
  obtain ⟨p, hp, a', g', hg', hcase⟩ := hg.step h₀ hsafe hs
  have hsum := sum_update (fun p : Pc × B => left p.1.now) c.pc t p
  have hall : leftAll c' + left (c.pc t).1.now = leftAll c + left p.1.now := by
    unfold leftAll
    rw [hp]
    exact hsum
  rcases hcase with ⟨rfl, hlt⟩ | ⟨hplain, hlt⟩
  · exact Or.inl ⟨⟨g', hg'⟩, by omega⟩
  · exact Or.inr ⟨a', ⟨t, hplain⟩, ⟨g', hg'⟩, by omega⟩

omit [DecidableEq Tid] [Zero V] in
theorem leftAll_load {d : Data V} {prog : Tid → B} (hrest : ∀ t, (s.pc t).now = .rest) :
    leftAll (load s d prog) = 18 * Fintype.card Tid := by
  have hleft (t : Tid) : left ((load s d prog).pc t).1.now = 18 := congrArg left (hrest t)
  rw [Nat.mul_comm]
  exact Finset.sum_const_nat fun t _ => hleft t

theorem length_le {d : Data V} {prog : Tid → B} {N n : ℕ} (h₀ : Start s₀)
    (hr₀ : Runs (threads Tid ps) (fun s _ => WellUsed ps s) s₀ s)
    (hrest : ∀ t, (s.pc t).now = .rest)
    (hsafe : Safe ps cmd ⟨s.mem.live, d, prog⟩)
    (hN : ∀ k a, RunsIn (AnyPlain ps cmd) ⟨s.mem.live, d, prog⟩ k a → k ≤ N)
    (hr : RunsIn (AnyStep ps cmd) (load s d prog) n c) : n ≤ 18 * (Fintype.card Tid + N) := by
  obtain ⟨k, a, hk, -, hle⟩ := (ranked h₀ hsafe).runs (good_load h₀ hr₀ hrest) hr
  rw [leftAll_load hrest] at hle
  have := hN k a hk
  omega

end

end OpenOOC.Programs
