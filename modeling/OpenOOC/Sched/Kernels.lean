import OpenOOC.Sched.Fibers
import OpenOOC.Sched.Served

/-! Kernels that load from and store to what `ooc_malloc` returned, on fibers and with
faults. They compute what they would in memory without protection, and what they change
is marked dirty. -/

namespace OpenOOC.Kernels

open LockMachine Sched Simulation Fibers

/-! ### Loads and stores -/

variable {V A B α : Type*}

abbrev Data (V : Type*) := Addr → V

inductive Cmd (V B : Type*)
  | load (addr : Addr) (k : V → B)
  | store (addr : Addr) (v : V) (b : B)

namespace Cmd

def addr : Cmd V B → Addr
  | load addr _ => addr
  | store addr _ _ => addr

def write : Cmd V B → Bool
  | load .. => false
  | store .. => true

def data (d : Data V) : Cmd V B → Data V
  | load .. => d
  | store addr v _ => Function.update d addr v

def rest (d : Data V) : Cmd V B → B
  | load addr k => k (d addr)
  | store _ _ b => b

end Cmd

inductive KernCmd (V B : Type*)
  | done
  | acc (x : Cmd V B)

inductive AppCmd (V A B α : Type*)
  | done
  | acc (x : Cmd V A)
  | sched (c : Call α B) (a : A)
  | finalize (a : A)

structure Source (V A B α : Type*) where
  app : A → AppCmd V A B α
  kern : B → KernCmd V B

/-- In a process: an access that is not allowed faults. -/
def code (ps : PageSize) (S : Source V A B α) : Code A B α (Mem × Data V) where
  app a m := match S.app a with
    | .done => .done
    | .acc x => if Allowed (m.1.prot x.addr.toNat) x.write then .go (x.rest m.2) (m.1, x.data m.2)
        else .fault x.addr
    | .sched c a => .sched c a
    | .finalize a => .finalize a
  kern b m := match S.kern b with
    | .done => .done
    | .acc x => if Allowed (m.1.prot x.addr.toNat) x.write then .go (x.rest m.2) (m.1, x.data m.2)
        else .fault x.addr
  serve x m := (sSigsegvHandler ps m.1 x).map fun r => (r.1, m.2)

/-! ### Without protection -/

/-- The address belongs to one of the allocations. -/
def InLive (ps : PageSize) (live : List Alloc) (x : Addr) : Prop := ∃ a ∈ live, a.Owns ps x

inductive KernPlain (ps : PageSize) (live : List Alloc) (S : Source V A B α) :
    B → Data V → Data V → Prop
  | done {b : B} {d : Data V} (h : S.kern b = .done) : KernPlain ps live S b d d
  | acc {b : B} {d d' : Data V} {x : Cmd V B} (h : S.kern b = .acc x) (hx : InLive ps live x.addr)
      (hr : KernPlain ps live S (x.rest d) (x.data d) d') : KernPlain ps live S b d d'

/-- An application that accesses only what is allocated. It stores only between its first
`ooc_sched` and `ooc_finalize`. -/
inductive AppPlain (ps : PageSize) (live : List Alloc) (S : Source V A B α) :
    Bool → A → Data V → Data V → Prop
  | done {on : Bool} {a : A} {d : Data V} (h : S.app a = .done) : AppPlain ps live S on a d d
  | acc {on : Bool} {a : A} {d d' : Data V} {x : Cmd V A} (h : S.app a = .acc x)
    (hx : InLive ps live x.addr)
      (hon : x.write = true → on = true) (hr : AppPlain ps live S on (x.rest d) (x.data d) d') :
      AppPlain ps live S on a d d'
  | sched {on : Bool} {a a' : A} {c : Call α B} {d d' d'' : Data V} (h : S.app a = .sched c a')
      (hk : KernPlain ps live S (c.kern c.i c.args) d d') (hr : AppPlain ps live S true a' d' d'') :
      AppPlain ps live S on a d d''
  | finalize {on : Bool} {a a' : A} {d d' : Data V} (h : S.app a = .finalize a')
    (hr : AppPlain ps live S false a' d d') :
      AppPlain ps live S on a d d'

/-! ### With it -/

/-- The faults before an access to `x` is allowed, all of them served. -/
inductive Granted (ps : PageSize) (x : Addr) (w : Bool) : Mem → Mem → Prop
  | now {m : Mem} (h : Allowed (m.prot x.toNat) w) : Granted ps x w m m
  | fault {m m' m'' : Mem} {ans : Answer} (h : ¬ Allowed (m.prot x.toNat) w)
    (hs : sSigsegvHandler ps m x = some (m', ans))
      (hr : Granted ps x w m' m'') : Granted ps x w m m''

/-- Memory on the way from `d₀`: what has been changed is marked dirty. -/
structure Follows (ps : PageSize) (live : List Alloc) (d₀ d : Data V) (m : Mem) (g : Ghost) :
    Prop where
  mem : MemOk ps m g
  live : m.live = live
  dirty : ∀ a ∈ g.listed, ∀ y : Addr, a.Owns ps y → d y ≠ d₀ y → g.flags a = 0x11

variable {ps : PageSize} {live : List Alloc} {S : Source V A B α} {d₀ d d' : Data V} {m m' : Mem}
  {g : Ghost} {a : Alloc}
  {x : Addr} {w on : Bool} {b : B} {p : A}

namespace Follows

theorem listed (hf : Follows ps live d₀ d m g) (ha : a ∈ live) : a ∈ g.listed :=
  hf.mem.live a (hf.live ▸ ha)

theorem served (hf : Follows ps live d₀ d m g) (ha : a ∈ g.listed) (hx : a.Owns ps x) : ∃ m' ans g',
    sSigsegvHandler ps m x = some (m', ans) ∧ Follows ps live d₀ d m' g' ∧ a ∈ g'.listed ∧
    g'.flags a ≠ 0 ∧
      (g.flags a ≠ 0 → m'.prot x.toNat = some PROT_RW) := by
  obtain ⟨m', he, hm, hl, hp⟩ := hf.mem.served ha hx
  have hcases := answer_flags (hf.mem.flags a (hf.mem.listed ha))
  refine ⟨m', _, _, he, ⟨hm, hl.trans hf.live, fun b hb y hy hne => ?_⟩, ha, ?_, fun h0 => ?_⟩
  · have hold := hf.dirty b hb y hy hne
    by_cases hba : b = a
    · rw [hba, g.flags_self]
      rw [hba] at hold
      rcases hcases with ⟨h0, -⟩ | ⟨-, h⟩
      · rw [h0] at hold
        cases hold
      · rw [h]
    · rw [g.flags_of_ne _ hba]
      exact hold
  · rw [g.flags_self]
    rcases hcases with ⟨-, h⟩ | ⟨-, h⟩ <;> rw [h] <;> decide
  · rcases hcases with ⟨h, -⟩ | ⟨-, h⟩
    · exact absurd h h0
    · rw [hp, h]

/-- An access to a live allocation is allowed in the end. -/
theorem granted (hf : Follows ps live d₀ d m g) (hx : InLive ps live x) (w : Bool) :
    ∃ m' g', Granted ps x w m m' ∧ Follows ps live d₀ d m' g' ∧ Allowed (m'.prot x.toNat) w := by
  obtain ⟨a, ha, hown⟩ := hx
  have hal := hf.listed ha
  by_cases h₀ : Allowed (m.prot x.toNat) w
  · exact ⟨m, g, .now h₀, hf, h₀⟩
  · obtain ⟨m₁, ans₁, g₁, he₁, hf₁, hal₁, hne, -⟩ := hf.served hal hown
    by_cases h₁ : Allowed (m₁.prot x.toNat) w
    · exact ⟨m₁, g₁, .fault h₀ he₁ (.now h₁), hf₁, h₁⟩
    · obtain ⟨m₂, ans₂, g₂, he₂, hf₂, -, -, hp⟩ := hf₁.served hal₁ hown
      have h₂ : Allowed (m₂.prot x.toNat) w := by
        rw [hp hne]
        exact allowed_rw w
      exact ⟨m₂, g₂, .fault h₀ he₁ (.fault h₁ he₂ (.now h₂)), hf₂, h₂⟩

theorem acc (hf : Follows ps live d₀ d m g) (c : Cmd V B) (hx : InLive ps live c.addr)
    (hw : Allowed (m.prot c.addr.toNat) c.write) :
    Follows ps live d₀ (c.data d) m g := by
  cases c with
  | load addr k => exact hf
  | store addr v b =>
    obtain ⟨a, ha, hown⟩ := hx
    have hal := hf.listed ha
    have hflags : g.flags a = 0x11 := by
      rcases hf.mem.data a (hf.mem.listed hal) _
        ((hf.mem.region a (hf.mem.listed hal)).inData_of_owns hown) with h | ⟨-, h⟩
      · change Allowed (m.prot addr.toNat) true at hw
        change m.prot addr.toNat = _ at h
        rw [h] at hw
        cases allowed_read hw
      · exact h
    refine ⟨hf.mem, hf.live, fun c hc y hy hne => ?_⟩
    by_cases hya : y = addr
    · subst hya
      rw [hf.mem.eq_of_owns (hf.mem.listed hc) (hf.mem.listed hal) hy hown]
      exact hflags
    · refine hf.dirty c hc y hy ?_
      change Function.update d addr v y ≠ d₀ y at hne
      rw [Function.update_of_ne hya] at hne
      exact hne

end Follows

theorem Granted.kern {c : Cmd V B} {e : Mem × Data V} (hg : Granted ps c.addr c.write m m')
    (hb : S.kern b = .acc c)
    (hw : Allowed (m'.prot c.addr.toNat) c.write)
    (hr : KernRuns (code ps S) (c.rest d) (m', c.data d) e) :
    KernRuns (code ps S) b (m, d) e := by
  induction hg with
  | now h => exact .go (by simp only [code, hb, h, if_true]) hr
  | fault h hs _ ih =>
    refine .fault (x := c.addr) (by simp only [code, hb, h, if_false]) ?_ (ih hw hr)
    simp only [code, hs, Option.map_some]

theorem Granted.app {c : Cmd V A} {e : Mem × Data V} (hg : Granted ps c.addr c.write m m')
    (hp : S.app p = .acc c)
    (hw : Allowed (m'.prot c.addr.toNat) c.write)
    (hr : AppRuns (code ps S) true (c.rest d) (m', c.data d) e) :
    AppRuns (code ps S) true p (m, d) e := by
  induction hg with
  | now h => exact .go (by simp only [code, hp, h, if_true]) hr
  | fault h hs _ ih =>
    refine .fault (x := c.addr) (by simp only [code, hp, h, if_false]) ?_ (ih hw hr)
    simp only [code, hs, Option.map_some]

/-! ### On a thread -/

section

variable {Tid : Type} [DecidableEq Tid] {s₀ s : State Tid} {t : Tid}

/-- One thread alone leads memory from `m` to `m'`, with the handler's locks. -/
def LeadsTo (ps : PageSize) (s₀ : State Tid) (t : Tid) (m m' : Mem) : Prop :=
  ∀ s, Runs (threads Tid ps) (fun s _ => WellUsed ps s) s₀ s → s.mem = m →
    (∀ t', (s.pc t').now = .rest) →
    ∃ n s', RunsIn (Alone ps t) s n s' ∧ s'.mem = m' ∧ ∀ t', (s'.pc t').now = .rest

theorem LeadsTo.refl : LeadsTo ps s₀ t m m := fun s _ hm hrest => ⟨0, s, .start, hm, hrest⟩

theorem LeadsTo.trans {m'' : Mem} (h₁ : LeadsTo ps s₀ t m m') (h₂ : LeadsTo ps s₀ t m' m'') :
    LeadsTo ps s₀ t m m'' := by
  intro s hr hm hrest
  obtain ⟨n, s₁, hr₁, hm₁, hrest₁⟩ := h₁ s hr hm hrest
  obtain ⟨k, s₂, hr₂, hm₂, hrest₂⟩ := h₂ s₁ (runs_of_alone hr hr₁) hm₁ hrest₁
  exact ⟨n + k, s₂, hr₁.trans hr₂, hm₂, hrest₂⟩

/-- What is left of an access that the thread has begun. -/
theorem Granted.goes_on (hg : Granted ps x w m m') (h₀ : Start s₀)
    (hr : Runs (threads Tid ps) (fun s _ => WellUsed ps s) s₀ s) (hm : s.mem = m)
    (hx : InLive ps m.live x) {k : ℕ} (hq : (s.pc t).now = .access ⟨x, w, k⟩)
    (hrest : ∀ t', t' ≠ t → (s.pc t').now = .rest) :
    ∃ n s', RunsIn (Alone ps t) s n s' ∧ s'.mem = m' ∧ ∀ t', (s'.pc t').now = .rest := by
  induction hg generalizing s k with
  | now h =>
    subst hm
    have hstep : Step (threads Tid ps) s t _ := step_access hq
    rw [if_pos h] at hstep
    refine ⟨1, _, RunsIn.start.step
      ⟨wellUsed_of_access hrest (y := ⟨x, w, k⟩) hx (by rw [hq]; rfl), hstep⟩, rfl, fun t' => ?_⟩
    by_cases ht : t' = t
    · rw [ht]
      exact congrArg Pc.now (Function.update_self t _ s.pc)
    · exact (congrArg Pc.now (Function.update_of_ne ht _ s.pc)).trans (hrest t' ht)
  | @fault m m₁ m' ans h hs _ ih =>
    subst hm
    have hstep : Step (threads Tid ps) s t _ := step_access hq
    rw [if_neg h] at hstep
    have hu := wellUsed_of_access hrest (y := ⟨x, w, k⟩) hx (by rw [hq]; rfl)
    have hrest₁ (q : Point) (kept : List LockId) (t' : Tid) (ht : t' ≠ t) :
        (Function.update s.pc t ⟨q, kept⟩ t').now = .rest := by
      rw [Function.update_of_ne ht]
      exact hrest t' ht
    -- the fault leads to the handler, and its seven steps back to the access
    have hq₁ : (Function.update s.pc t ⟨.findGet (.handler ⟨x, w, k⟩), (s.pc t).kept⟩ t).now = _ :=
      congrArg Pc.now (Function.update_self t _ s.pc)
    obtain ⟨m₂, ans₂, he, hl, hseven⟩ := seven_steps_serve h₀ (hr.step hu hstep)
      (wellUsed_alone hrest (y := ⟨x, w, k⟩) hx rfl) hq₁ (hrest₁ _ _)
    cases hs.symm.trans he
    have hrun := (RunsIn.start.step ⟨hu, hstep⟩).trans
      (((hseven _).mpr rfl).mono fun _ _ h => h.2)
    obtain ⟨n, s', hr', hm', hrest'⟩ := ih (runs_of_alone hr hrun) rfl (hl ▸ hx) (k := k + 1)
      (by dsimp only; rw [Function.update_self])
      (fun t' ht => by
        dsimp only
        rw [Function.update_of_ne ht]
        exact hrest₁ _ _ t' ht)
    exact ⟨_, s', hrun.trans hr', hm', hrest'⟩

theorem Granted.leadsTo (hg : Granted ps x w m m') (h₀ : Start s₀) (hx : InLive ps m.live x) :
    LeadsTo ps s₀ t m m' := by
  intro s hr hm hrest
  subst hm
  have hp : s.pc t = ⟨.rest, (s.pc t).kept⟩ := by rw [← hrest t]
  have hstep : Step (threads Tid ps) s t _ := step_of_codePoint (i := .access x w) hp rfl hx rfl rfl
  have hu : WellUsed ps s := wellUsed_of_idle fun t => Or.inl (hrest t)
  obtain ⟨n, s', hr', hm', hrest'⟩ := hg.goes_on h₀ (hr.step hu hstep) rfl hx
    (congrArg Pc.now (Function.update_self t _ s.pc))
    (fun t' ht => (congrArg Pc.now (Function.update_of_ne ht _ s.pc)).trans (hrest t'))
  exact ⟨_, s', (RunsIn.start.step ⟨hu, hstep⟩).trans hr', hm', hrest'⟩

theorem KernPlain.runs (h₀ : Start s₀) (hk : KernPlain ps live S b d d')
    (hf : Follows ps live d₀ d m g) : ∃ m' g', KernRuns (code ps S) b (m, d) (m', d') ∧
      Follows ps live d₀ d' m' g' ∧ ∀ t, LeadsTo ps s₀ t m m' := by
  induction hk generalizing m g with
  | done h => exact ⟨m, g, .done (by simp only [code, h]), hf, fun _ => .refl⟩
  | acc h hx _ ih =>
    obtain ⟨m₁, g₁, hg, hf₁, hw⟩ := hf.granted hx _
    obtain ⟨m', g', hr, hf', hl⟩ := ih (hf₁.acc _ hx hw)
    exact ⟨m', g', hg.kern h hw hr, hf', fun t =>
      (hg.leadsTo h₀ (hf.live ▸ hx)).trans (hl t)⟩

theorem AppPlain.runs (h₀ : Start s₀) (hp : AppPlain ps live S on p d d')
    (hf : Follows ps live d₀ d m g) : ∃ m' g', AppRuns (code ps S) on p (m, d) (m', d') ∧
      Follows ps live d₀ d' m' g' ∧ ∀ t, LeadsTo ps s₀ t m m' := by
  induction hp generalizing m g with
  | done h => exact ⟨m, g, .done (by simp only [code, h]), hf, fun _ => .refl⟩
  | @acc on p d d' c h hx hon _ ih =>
    cases on with
    | true =>
      obtain ⟨m₁, g₁, hg, hf₁, hw⟩ := hf.granted hx c.write
      obtain ⟨m', g', hr, hf', hl⟩ := ih (hf₁.acc c hx hw)
      exact ⟨m', g', hg.app h hw hr, hf', fun t =>
        (hg.leadsTo h₀ (hf.live ▸ hx)).trans (hl t)⟩
    | false =>
      -- a load, which never faults
      have hload : c.write = false := by
        by_contra hc
        cases hon (Bool.eq_true_of_not_eq_false hc)
      have hw : Allowed (m.prot c.addr.toNat) c.write := by
        obtain ⟨a, ha, hown⟩ := hx
        have ham := hf.mem.listed (hf.listed ha)
        rw [hload]
        exact hf.mem.readable ham ((hf.mem.region a ham).inData_of_owns hown)
      obtain ⟨m', g', hr, hf', hl⟩ := ih (hf.acc c hx hw)
      exact ⟨m', g', .go (by simp only [code, h, hw, if_true]) hr, hf', hl⟩
  | sched h hk _ ih =>
    obtain ⟨m₁, g₁, hr₁, hf₁, hl₁⟩ := hk.runs h₀ hf
    obtain ⟨m', g', hr', hf', hl'⟩ := ih hf₁
    exact ⟨m', g', .sched (by simp only [code, h]) hr₁ hr', hf', fun t => (hl₁ t).trans (hl' t)⟩
  | finalize h _ ih =>
    obtain ⟨m', g', hr, hf', hl⟩ := ih hf
    exact ⟨m', g', .finalize (by simp only [code, h]) hr, hf', hl⟩

end

/-! ### Every application -/

section

variable {Tid : Type} [DecidableEq Tid] {s₀ s : State Tid} {t : Tid}

def Dirty (m : Mem) (a : Alloc) : Prop :=
  ∃ v, m.heap.cell (.vma a.vma) = some v ∧ v.vmFlags &&& 0x10 ≠ 0

/-- From any state of a run in which every thread rests: an application whose accesses
are to live allocations comes to an end on fibers just as it would without protection,
and allocations whose contents it changed are marked dirty. The steps of the thread that
it runs on, with the handler's locks, lead to the same memory. -/
theorem kernels_compute (h₀ : Start s₀)
    (hr : Runs (threads Tid ps) (fun s _ => WellUsed ps s) s₀ s)
    (hrest : ∀ t', (s.pc t').now = .rest) (hp : AppPlain ps s.mem.live S false p d d') :
    ∃ m', (∀ e, Finishes (code ps S) p (s.mem, d) e ↔ e = (m', d')) ∧ m'.live = s.mem.live ∧
      (∀ a ∈ m'.live, ∀ y : Addr, a.Owns ps y → d' y ≠ d y → Dirty m' a) ∧
      ∀ t : Tid, ∃ n s', RunsIn (Alone ps t) s n s' ∧ s'.mem = m' ∧
        ∀ t', (s'.pc t').now = .rest := by
  obtain ⟨g, hi⟩ := h₀.inv_of_runs hr
  have hf : Follows ps s.mem.live d d s.mem g := ⟨hi.mem, rfl, fun _ _ _ _ h => absurd rfl h⟩
  obtain ⟨m', g', hruns, hf', hl⟩ := hp.runs h₀ hf
  have hfin : Finishes (code ps S) p (s.mem, d) (m', d') := finishes_iff.mpr hruns
  refine ⟨m', fun e => ⟨fun h => h.unique hfin, fun h => h ▸ hfin⟩, hf'.live,
    fun a ha y hy hne => ?_, fun t => hl t s hr rfl hrest⟩
  have hal := hf'.listed (hf'.live ▸ ha)
  obtain ⟨v, hv, hflags, -⟩ := hf'.mem.cell hal
  refine ⟨v, hv, ?_⟩
  rw [hflags, hf'.dirty a hal y hy hne]
  decide

/-- One `ooc_sched` of a kernel that loads a number, adds `i` and stores it. -/
def increments : Source ℕ ℕ (ℕ × ℕ) Addr where
  app
    | 0 => .sched ⟨fun i _ => (0, i), 4, 0x11000⟩ 1
    | 1 => .finalize 2
    | _ => .done
  kern
    | (0, i) => .acc (.load 0x11000 fun v => (1, v + i))
    | (1, v) => .acc (.store 0x11000 v (2, 0))
    | _ => .done

/-- The kernel faults twice, at its store. -/
theorem kernels_compute_increments : ∃ (s : State Unit) (m' : Mem),
    Runs (threads Unit .small) (fun s _ => WellUsed .small s) nothingYet s ∧
      Finishes (code .small increments) 0 (s.mem, fun _ => 3)
        (m', Function.update (fun _ => 3) 0x11000 7) ∧
      Dirty m' ⟨0x10000, 1⟩ ∧ ∃ n s', RunsIn (Alone .small ()) s n s' ∧ s'.mem = m' := by
  obtain ⟨s, hr, hs⟩ := run_of_schedule [()] (by simp) (steps 4) mapped_wellUsed
    (P := fun s => (s.pc ()).now = .rest ∧ s.mem.live = [⟨0x10000, 1⟩]) (by decide +kernel)
  obtain ⟨hp, hl⟩ := of_decide_eq_true hs
  have ha : (⟨0x10000, 1⟩ : Alloc) ∈ s.mem.live := by
    rw [hl]
    exact List.mem_singleton_self _
  have hown : (⟨0x10000, 1⟩ : Alloc).Owns .small 0x11000 := by decide
  have hkern : KernPlain .small s.mem.live increments (0, 4) (fun _ => 3)
      (Function.update (fun _ => 3) 0x11000 7) :=
    .acc rfl ⟨_, ha, hown⟩ (.acc rfl ⟨_, ha, hown⟩ (.done rfl))
  have happ : AppPlain .small s.mem.live increments false 0 (fun _ => 3)
      (Function.update (fun _ => 3) 0x11000 7) :=
    .sched rfl hkern (.finalize rfl (.done rfl))
  obtain ⟨m', hfin, hlive, hdirty, hled⟩ := kernels_compute nothingYet_start hr (fun _ => hp) happ
  obtain ⟨n, s', hsteps, hm', -⟩ := hled ()
  refine ⟨s, m', hr, (hfin _).mpr rfl, hdirty _ (hlive ▸ ha) 0x11000 hown ?_, n, s', hsteps, hm'⟩
  rw [Function.update_self]
  decide

end

end OpenOOC.Kernels
