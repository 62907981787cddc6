import OpenOOC.Common
import OpenOOC.Lib.Contexts

/-! `ooc_sched` of `sched.c`, one thread of it, with the contexts that it saves and sets:
an application that schedules kernels on fibers, kernels that may fault, and the signal
handler, which runs in a context of its own. -/

namespace OpenOOC.Fibers

open Contexts

/-! ### What runs on fibers -/

abbrev OOC_NUM_FIBERS : ℕ := 10

abbrev Fiber := Fin OOC_NUM_FIBERS

/-- `kern`, `i` and `args` of `ooc_sched`. -/
structure Call (α B : Type*) where
  kern : ℕ → α → B
  i : ℕ
  args : α

inductive KernStep (B M : Type*)
  | done
  | go (b : B) (m : M)
  | fault (addr : Addr)

/-- What the application does next. -/
inductive AppStep (A B α M : Type*)
  | done
  | go (a : A) (m : M)
  | fault (addr : Addr)
  | sched (c : Call α B) (a : A)
  | finalize (a : A)

structure Code (A B α M : Type*) where
  app : A → M → AppStep A B α M
  kern : B → M → KernStep B M
  serve : Addr → M → Option M

/-! ### The thread -/

/-- `S_main`, `S_handler`, `S_trampoline`, `S_kern`, and `tmp_uc` of `S_sigsegv_trampoline`. -/
inductive Slot
  | main
  | handler (f : Fiber)
  | trampoline (f : Fiber)
  | kern (f : Fiber)
  | tmp
  deriving DecidableEq

inductive User (A B : Type*)
  | app (a : A)
  | kernel (f : Fiber) (b : B)

inductive Point (A B α : Type*)
  | user (u : User A B)
  | finished
  -- `ooc_sched`, with what the application does next
  | sched (c : Call α B) (a : A)
  | init (i : ℕ) (c : Call α B) (a : A)
  | search (c : Call α B) (a : A)
  | loop (found : Option Fiber × Option Fiber) (c : Call α B) (a : A)
  | schedBack (a : A)
  -- `S_kernel_trampoline`
  | kernelTrampoline (f : Fiber)
  | kernelFlush (f : Fiber)
  -- `S_sigsegv_trampoline`, with what was interrupted
  | sigsegvTrampoline (addr : Addr) (u : User A B)
  | sigsegvSwap (u : User A B)
  | sigsegvBack (u : User A B)
  -- `S_sigsegv_handler`
  | handler
  | handlerEnd

/-- Memory, and the other variables of `sched.c`. -/
structure Globals (α B M : Type*) where
  mem : M
  iter : Fiber → ℕ
  args : Fiber → Option α
  kernel : Fiber → Option (ℕ → α → B)
  addr : Fiber → Option Addr
  me : Fiber
  isInit : Bool

def runnable (_ : Fiber) : Bool := false

def idle (_ : Fiber) : Bool := true

/-- The search for a fiber: `run` and `idle`, of which one stays -1. -/
def searchFiber : List Fiber → Option Fiber × Option Fiber
  | [] => (none, none)
  | j :: js => if runnable j then (some j, none) else if idle j then (none, some j)
      else searchFiber js

variable {A B α M : Type*}

/-- One step of the thread. A fault without the signal handler is the end. -/
def step (C : Code A B α M) : Program (Point A B α) Slot (Globals α B M)
  | .user (.app a), g =>
    match C.app a g.mem with
    | .done => some (g, .goto .finished)
    | .go a m => some ({ g with mem := m }, .goto (.user (.app a)))
    | .fault x => if g.isInit then some (g, .goto (.sigsegvTrampoline x (.app a))) else none
    | .sched c a => some (g, .goto (.sched c a))
    | .finalize a => some ({ g with isInit := false }, .goto (.user (.app a)))
  | .user (.kernel f b), g =>
    match C.kern b g.mem with
    | .done => some (g, .goto (.kernelFlush f))
    | .go b m => some ({ g with mem := m }, .goto (.user (.kernel f b)))
    | .fault x => if g.isInit then some (g, .goto (.sigsegvTrampoline x (.kernel f b))) else none
  | .finished, _ => none
  | .sched c a, g => some (g, .goto (if g.isInit then .search c a else .init 0 c a))
  | .init i c a, g =>
    if h : i < OOC_NUM_FIBERS then
      some (g, .make (.kern ⟨i, h⟩) (.kernelTrampoline ⟨i, h⟩) (.init (i + 1) c a))
    else some ({ g with isInit := true }, .goto (.search c a))
  | .search c a, g => some (g, .goto (.loop (searchFiber (List.finRange OOC_NUM_FIBERS)) c a))
  | .loop found c a, g =>
    match found with
    | (some run, _) => some ({ g with me := run }, .swap .main (.loop found c a) (.handler run))
    | (none, some idle) => some ({ g with
        iter := Function.update g.iter idle c.i
        kernel := Function.update g.kernel idle (some c.kern)
        args := Function.update g.args idle (some c.args)
        me := idle }, .swap .main (.schedBack a) (.kern idle))
    | (none, none) => some (g, .goto (.loop found c a))
  | .schedBack a, g => some (g, .goto (.user (.app a)))
  | .kernelTrampoline f, g =>
    match g.kernel f, g.args f with
    | some kern, some args => some (g, .goto (.user (.kernel f (kern (g.iter f) args))))
    | _, _ => none
  | .kernelFlush _, g => some (g, .set .main)
  | .sigsegvTrampoline x u, g =>
    some ({ g with addr := Function.update g.addr g.me (some x) },
      .make .tmp .handler (.sigsegvSwap u))
  | .sigsegvSwap u, g => some (g, .swap (.trampoline g.me) (.sigsegvBack u) .tmp)
  | .sigsegvBack u, g => some (g, .goto (.user u))
  | .handler, g => (g.addr g.me).bind fun x => (C.serve x g.mem).map fun m =>
      ({ g with mem := m }, .goto .handlerEnd)
  | .handlerEnd, g => some (g, .set (.trampoline g.me))

abbrev Thread (A B α M : Type*) := State (Point A B α) Slot (Globals α B M)

def start (a : A) (m : M) : Thread A B α M :=
  ⟨.user (.app a), fun _ => none,
    ⟨m, fun _ => 0, fun _ => none, fun _ => none, fun _ => none, 0, false⟩⟩

def Finishes (C : Code A B α M) (a : A) (m m' : M) : Prop :=
  ∃ s, Reaches (step C) (start a m) s ∧ s.now = .finished ∧ s.mem.mem = m'

/-! ### What it means -/

/-- A kernel runs to its end; faults are served, and the access is made again. -/
inductive KernRuns (C : Code A B α M) : B → M → M → Prop
  | done {b : B} {m : M} (h : C.kern b m = .done) : KernRuns C b m m
  | go {b b' : B} {m m' m'' : M} (h : C.kern b m = .go b' m') (hr : KernRuns C b' m' m'') :
    KernRuns C b m m''
  | fault {b : B} {x : Addr} {m m' m'' : M} (h : C.kern b m = .fault x) (hs : C.serve x m = some m')
      (hr : KernRuns C b m' m'') : KernRuns C b m m''

/-- The application runs to its end, where `ooc_sched` is a call of the kernel. Faults are
served from the first `ooc_sched` until `ooc_finalize`. -/
inductive AppRuns (C : Code A B α M) : Bool → A → M → M → Prop
  | done {on : Bool} {a : A} {m : M} (h : C.app a m = .done) : AppRuns C on a m m
  | go {on : Bool} {a a' : A} {m m' m'' : M} (h : C.app a m = .go a' m')
    (hr : AppRuns C on a' m' m'') : AppRuns C on a m m''
  | fault {a : A} {x : Addr} {m m' m'' : M} (h : C.app a m = .fault x) (hs : C.serve x m = some m')
      (hr : AppRuns C true a m' m'') : AppRuns C true a m m''
  | sched {on : Bool} {a a' : A} {c : Call α B} {m m' m'' : M} (h : C.app a m = .sched c a')
      (hk : KernRuns C (c.kern c.i c.args) m m') (hr : AppRuns C true a' m' m'') :
      AppRuns C on a m m''
  | finalize {on : Bool} {a a' : A} {m m' : M} (h : C.app a m = .finalize a')
    (hr : AppRuns C false a' m m') : AppRuns C on a m m'

variable {C : Code A B α M} {a a' : A} {b : B} {c : Call α B} {m m' m₁ : M} {on : Bool}
  {u : User A B} {x : Addr} {f : Fiber}
  {s s' : Thread A B α M} {g g' g'' : Globals α B M} {σ σ' σ'' : Slot → Option (Point A B α)}

/-! ### The thread does what the code means -/

/-- What a kernel and its faults leave as it is. -/
structure Kept (σ σ' : Slot → Option (Point A B α)) (g g' : Globals α B M) : Prop where
  main : σ' .main = σ .main
  kern : ∀ f, σ' (.kern f) = σ (.kern f)
  isInit : g'.isInit = g.isInit

theorem Kept.refl : Kept σ σ g g := ⟨rfl, fun _ => rfl, rfl⟩

theorem Kept.trans (h : Kept σ σ' g g') (h' : Kept σ' σ'' g' g'') : Kept σ σ'' g g'' :=
  ⟨h'.main.trans h.main, fun f => (h'.kern f).trans (h.kern f), h'.isInit.trans h.isInit⟩

/-- A fault that is served: the handler runs in its own context, and what was interrupted
goes on. -/
theorem fault_reaches (hs : C.serve x g.mem = some m') : ∃ σ' g', Kept σ σ' g g' ∧ g'.mem = m' ∧
    Reaches (step C) ⟨.sigsegvTrampoline x u, σ, g⟩ ⟨.user u, σ', g'⟩ := by
  set g₁ : Globals α B M := { g with addr := Function.update g.addr g.me (some x) } with hg₁
  set σ₁ := Function.update σ .tmp (some (Point.handler (A := A) (B := B) (α := α))) with hσ₁
  have hmake : next (step C) ⟨.sigsegvTrampoline x u, σ, g⟩ = some ⟨.sigsegvSwap u, σ₁, g₁⟩ :=
    next_make rfl
  set σ₂ := Function.update σ₁ (.trampoline g.me) (some (Point.sigsegvBack u)) with hσ₂
  have hhandler : next (step C) ⟨.handler, σ₂, g₁⟩ =
      some ⟨.handlerEnd, σ₂, { g₁ with mem := m' }⟩ :=
    next_goto (by simp [step, hs, hg₁])
  have hcall : Reaches (step C) ⟨.sigsegvSwap u, σ₁, g₁⟩
      ⟨.sigsegvBack u, σ₂, { g₁ with mem := m' }⟩ :=
    .call rfl (by simp) (Function.update_self _ _ _) (.head hhandler .refl) rfl
      (Function.update_self _ _ _)
  refine ⟨σ₂, { g₁ with mem := m' }, ⟨?_, fun f => ?_, rfl⟩, rfl,
    .head hmake (hcall.trans (.head (next_goto rfl) .refl))⟩
  · simp [hσ₁, hσ₂]
  · simp [hσ₁, hσ₂]

theorem kernel_reaches (hr : KernRuns C b m m') (hm : g.mem = m) (hi : g.isInit = true) :
    ∃ σ' g', Kept σ σ' g g' ∧ g'.mem = m' ∧
      Reaches (step C) ⟨.user (.kernel f b), σ, g⟩ ⟨.kernelFlush f, σ', g'⟩ := by
  induction hr generalizing σ g with
  | @done b m h =>
    subst hm
    exact ⟨σ, g, .refl, rfl, .head (next_goto (by simp [step, h])) .refl⟩
  | @go b b' m m₁ m' h _ ih =>
    subst hm
    obtain ⟨σ', g', hk, hm', hr'⟩ := @ih { g with mem := m₁ } σ rfl hi
    exact ⟨σ', g', ⟨hk.main, hk.kern, hk.isInit⟩, hm', .head (next_goto (by simp [step, h])) hr'⟩
  | @fault b x m m₁ m' h hs _ ih =>
    subst hm
    obtain ⟨σ₁, g₁, hk₁, hm₁, hr₁⟩ := fault_reaches (σ := σ) (u := User.kernel (A := A) f b) hs
    obtain ⟨σ₂, g₂, hk₂, hm₂, hr₂⟩ := @ih g₁ σ₁ hm₁ (hk₁.isInit.trans hi)
    exact ⟨σ₂, g₂, hk₁.trans hk₂, hm₂, .head (next_goto (by simp [step, h, hi])) (hr₁.trans hr₂)⟩

/-- `S_kern` holds the start of `S_kernel_trampoline` for every fiber. -/
def Ready (σ : Slot → Option (Point A B α)) : Prop := ∀ f, σ (.kern f) = some (.kernelTrampoline f)

theorem searchFiber_all : searchFiber (List.finRange OOC_NUM_FIBERS) = (none, some 0) := by decide

theorem init_reaches {i : ℕ} (hi : i ≤ OOC_NUM_FIBERS)
    (hdone : ∀ f : Fiber, f.val < i → σ (.kern f) = some (.kernelTrampoline f)) :
    ∃ σ', Ready σ' ∧ Reaches (step C) ⟨.init i c a, σ, g⟩
      ⟨.search c a, σ', { g with isInit := true }⟩ := by
  induction hn : OOC_NUM_FIBERS - i generalizing i σ with
  | zero =>
    refine ⟨σ, fun f => hdone f (by omega), .head (next_goto ?_) .refl⟩
    simp [step, show ¬ i < OOC_NUM_FIBERS by omega]
  | succ n ih =>
    have hlt : i < OOC_NUM_FIBERS := by omega
    have hstep : next (step C) ⟨.init i c a, σ, g⟩ =
        some ⟨.init (i + 1) c a, Function.update σ (.kern ⟨i, hlt⟩)
          (some (.kernelTrampoline ⟨i, hlt⟩)), g⟩ :=
      next_make (by simp [step, hlt])
    obtain ⟨σ', hready, hr⟩ :=
      @ih (Function.update σ (.kern ⟨i, hlt⟩) (some (.kernelTrampoline ⟨i, hlt⟩))) (i + 1) hlt
      (fun f hf => by
        by_cases hfi : f = ⟨i, hlt⟩
        · rw [hfi, Function.update_self]
        · rw [Function.update_of_ne (by simpa using hfi)]
          refine hdone f ?_
          have : f.val ≠ i := fun h => hfi (Fin.ext h)
          omega)
      (by omega)
    exact ⟨σ', hready, .head hstep hr⟩

/-- `ooc_sched`, from the search for a fiber on: the kernel runs on fiber 0, and its end
is the end of the swap. -/
theorem search_reaches (hk : KernRuns C (c.kern c.i c.args) m m') (hm : g.mem = m)
    (hi : g.isInit = true) (hready : Ready σ) :
    ∃ σ' g', Ready σ' ∧ g'.mem = m' ∧ g'.isInit = true ∧
      Reaches (step C) ⟨.search c a, σ, g⟩ ⟨.user (.app a), σ', g'⟩ := by
  set g₁ : Globals α B M := { g with
    iter := Function.update g.iter 0 c.i
    kernel := Function.update g.kernel 0 (some c.kern)
    args := Function.update g.args 0 (some c.args)
    me := 0 } with hg₁
  have hsearch : next (step C) ⟨.search c a, σ, g⟩ = some ⟨.loop (none, some 0) c a, σ, g⟩ :=
    next_goto (by simp [step, searchFiber_all])
  obtain ⟨σ₂, g₂, hkept, hm₂, hrun⟩ := kernel_reaches (f := 0)
    (σ := Function.update σ .main (some (Point.schedBack (B := B) (α := α) a))) (g := g₁) hk hm hi
  have htramp : next (step C) ⟨.kernelTrampoline 0, Function.update σ .main (some (.schedBack a)),
      g₁⟩ =
      some ⟨.user (.kernel 0 (c.kern c.i c.args)), Function.update σ .main (some (.schedBack a)),
        g₁⟩ :=
    next_goto (by simp [step, hg₁])
  have hmain : σ₂ .main = some (.schedBack a) := hkept.main.trans (Function.update_self _ _ _)
  have hcall : Reaches (step C) ⟨.loop (none, some 0) c a, σ, g⟩ ⟨.schedBack a, σ₂, g₂⟩ :=
    .call rfl (by simp) (hready 0) (.head htramp hrun) rfl hmain
  refine ⟨σ₂, g₂, fun f => (hkept.kern f).trans ?_, hm₂, hkept.isInit.trans hi,
    .head hsearch (hcall.trans (.head (next_goto rfl) .refl))⟩
  rw [Function.update_of_ne (by simp)]
  exact hready f

theorem app_reaches (hr : AppRuns C on a m m') (hm : g.mem = m) (hi : g.isInit = on)
    (hready : on = true → Ready σ) :
    ∃ σ' g', g'.mem = m' ∧ Reaches (step C) ⟨.user (.app a), σ, g⟩ ⟨.finished, σ', g'⟩ := by
  induction hr generalizing σ g with
  | @done on a m h =>
    subst hm
    exact ⟨σ, g, rfl, .head (next_goto (by simp [step, h])) .refl⟩
  | @go on a a' m m₁ m' h _ ih =>
    subst hm
    obtain ⟨σ', g', hm', hr'⟩ := @ih { g with mem := m₁ } σ rfl hi hready
    exact ⟨σ', g', hm', .head (next_goto (by simp [step, h])) hr'⟩
  | @fault a x m m₁ m' h hs _ ih =>
    subst hm
    obtain ⟨σ₁, g₁, hk₁, hm₁, hr₁⟩ := fault_reaches (σ := σ) (u := User.app (B := B) a) hs
    obtain ⟨σ', g', hm', hr'⟩ := @ih g₁ σ₁ hm₁ (hk₁.isInit.trans hi) fun _ f =>
      (hk₁.kern f).trans (hready rfl f)
    exact ⟨σ', g', hm', .head (next_goto (by simp [step, h, hi])) (hr₁.trans hr')⟩
  | @sched on a a' c m m₁ m' h hk _ ih =>
    subst hm
    have hsched : next (step C) ⟨.user (.app a), σ, g⟩ = some ⟨.sched c a', σ, g⟩ :=
      next_goto (by simp [step, h])
    -- the library is initialised if it was not
    obtain ⟨σ₁, g₁, hready₁, hm₁, hi₁, hr₁⟩ : ∃ σ₁ g₁, Ready σ₁ ∧ g₁.mem = g.mem ∧
        g₁.isInit = true ∧
        Reaches (step C) ⟨.sched c a', σ, g⟩ ⟨.search c a', σ₁, g₁⟩ := by
      cases on with
      | true => exact ⟨σ, g, hready rfl, rfl, hi, .head (next_goto (by simp [step, hi])) .refl⟩
      | false =>
        obtain ⟨σ₁, hready₁, hr₁⟩ :=
          init_reaches (C := C) (c := c) (a := a') (g := g) (σ := σ) (Nat.zero_le _) nofun
        have hinit : next (step C) ⟨.sched c a', σ, g⟩ = some ⟨.init 0 c a', σ, g⟩ :=
          next_goto (by simp [step, hi])
        exact ⟨σ₁, { g with isInit := true }, hready₁, rfl, rfl, .head hinit hr₁⟩
    obtain ⟨σ₂, g₂, hready₂, hm₂, hi₂, hr₂⟩ := search_reaches (a := a') hk hm₁ hi₁ hready₁
    obtain ⟨σ', g', hm', hr'⟩ := @ih g₂ σ₂ hm₂ hi₂ fun _ => hready₂
    exact ⟨σ', g', hm', .head hsched (hr₁.trans (hr₂.trans hr'))⟩
  | @finalize on a a' m m' h _ ih =>
    subst hm
    obtain ⟨σ', g', hm', hr'⟩ := @ih { g with isInit := false } σ rfl rfl nofun
    exact ⟨σ', g', hm', .head (next_goto (by simp [step, h])) hr'⟩

/-! ### And nothing else -/

def UserOk (σ : Slot → Option (Point A B α)) : User A B → Prop
  | .app _ => True
  | .kernel _ _ => ∃ a, σ .main = some (.schedBack a)

/-- What is σ at each point. -/
def PointOk (σ : Slot → Option (Point A B α)) (g : Globals α B M) : Point A B α → Prop
  | .user (.app _) => True
  | .user (.kernel f b) => g.isInit = true ∧ UserOk σ (.kernel (A := A) f b)
  | .finished => True
  | .sched _ _ => True
  | .init i _ _ => ∀ f : Fiber, f.val < i → σ (.kern f) = some (.kernelTrampoline f)
  | .search _ _ => g.isInit = true
  | .loop found _ _ => g.isInit = true ∧ found = (none, some 0)
  | .schedBack _ => g.isInit = true
  | .kernelTrampoline _ => g.isInit = true ∧ ∃ a, σ .main = some (.schedBack a)
  | .kernelFlush _ => g.isInit = true ∧ ∃ a, σ .main = some (.schedBack a)
  | .sigsegvTrampoline _ u => g.isInit = true ∧ UserOk σ u
  | .sigsegvSwap u => g.isInit = true ∧ UserOk σ u ∧ σ .tmp = some .handler
  | .sigsegvBack u => g.isInit = true ∧ UserOk σ u
  | .handler => g.isInit = true ∧ ∃ u, σ (.trampoline g.me) = some (.sigsegvBack u) ∧ UserOk σ u
  | .handlerEnd => g.isInit = true ∧ ∃ u, σ (.trampoline g.me) = some (.sigsegvBack u) ∧ UserOk σ u

def ThreadOk (s : Thread A B α M) : Prop :=
  (s.mem.isInit = true → Ready s.saved) ∧ PointOk s.saved s.mem s.now

def UserRuns (C : Code A B α M) (σ : Slot → Option (Point A B α)) (on : Bool) (m' : M) (m : M) :
    User A B → Prop
  | .app a => AppRuns C on a m m'
  | .kernel _ b => ∃ m₁ a, KernRuns C b m m₁ ∧ σ .main = some (.schedBack a) ∧
      AppRuns C true a m₁ m'

def SchedRuns (C : Code A B α M) (c : Call α B) (a : A) (m m' : M) : Prop :=
  ∃ m₁, KernRuns C (c.kern c.i c.args) m m₁ ∧ AppRuns C true a m₁ m'

def Ends (C : Code A B α M) (m' : M) (σ : Slot → Option (Point A B α)) (g : Globals α B M) :
    Point A B α → Prop
  | .user u => UserRuns C σ g.isInit m' g.mem u
  | .finished => g.mem = m'
  | .sched c a => SchedRuns C c a g.mem m'
  | .init _ c a => SchedRuns C c a g.mem m'
  | .search c a => SchedRuns C c a g.mem m'
  | .loop _ c a => SchedRuns C c a g.mem m'
  | .schedBack a => AppRuns C true a g.mem m'
  | .kernelTrampoline f => ∃ kern args, g.kernel f = some kern ∧ g.args f = some args ∧
      UserRuns C σ true m' g.mem (.kernel f (kern (g.iter f) args))
  | .kernelFlush _ => ∃ a, σ .main = some (.schedBack a) ∧ AppRuns C true a g.mem m'
  | .sigsegvTrampoline x u => ∃ m₁, C.serve x g.mem = some m₁ ∧ UserRuns C σ true m' m₁ u
  | .sigsegvSwap u => ∃ x m₁, g.addr g.me = some x ∧ C.serve x g.mem = some m₁ ∧
      UserRuns C σ true m' m₁ u
  | .sigsegvBack u => UserRuns C σ true m' g.mem u
  | .handler => ∃ u x m₁, σ (.trampoline g.me) = some (.sigsegvBack u) ∧ g.addr g.me = some x ∧
      C.serve x g.mem = some m₁ ∧
      UserRuns C σ true m' m₁ u
  | .handlerEnd => ∃ u, σ (.trampoline g.me) = some (.sigsegvBack u) ∧ UserRuns C σ true m' g.mem u

theorem UserOk.congr (h : UserOk σ u) (hm : σ' .main = σ .main) : UserOk σ' u := by
  cases u with
  | app a => trivial
  | kernel f b => exact h.imp fun a ha => hm.trans ha

theorem UserRuns.congr (hm : σ' .main = σ .main) : UserRuns C σ' on m' m u ↔
    UserRuns C σ on m' m u := by
  cases u with
  | app a => exact Iff.rfl
  | kernel f b => simp only [UserRuns, hm]

theorem Ready.update (h : Ready σ) {k : Slot} {p : Point A B α} (hk : ∀ f, k ≠ .kern f) :
    Ready (Function.update σ k (some p)) :=
  fun f => (Function.update_of_ne (hk f).symm _ _).trans (h f)

/-- What is to come after a step was to come before it. -/
theorem ends_back (hok : ThreadOk s) (hs : next (step C) s = some s') :
    ThreadOk s' ∧ (Ends C m' s'.saved s'.mem s'.now → Ends C m' s.saved s.mem s.now) := by
  obtain ⟨now, σ, g⟩ := s
  obtain ⟨hready, hp⟩ := hok
  dsimp only at hready hp ⊢
  unfold next at hs
  dsimp only at hs
  cases now with
  | user u =>
    cases u with
    | app a =>
      cases h : C.app a g.mem <;> simp only [step, h] at hs
      case done =>
        cases hs
        refine ⟨⟨hready, trivial⟩, fun he => ?_⟩
        subst he
        exact .done h
      case go a m =>
        cases hs
        exact ⟨⟨hready, trivial⟩, fun he => .go h he⟩
      case fault x =>
        split_ifs at hs with hi
        cases hs
        refine ⟨⟨hready, hi, trivial⟩, fun ⟨m₁, hserve, he⟩ => ?_⟩
        change AppRuns C g.isInit a g.mem m'
        rw [hi]
        exact .fault h hserve he
      case sched c a =>
        cases hs
        exact ⟨⟨hready, trivial⟩, fun ⟨m₁, hk, he⟩ => .sched h hk he⟩
      case finalize a =>
        cases hs
        exact ⟨⟨nofun, trivial⟩, fun he => .finalize h he⟩
    | kernel f b =>
      obtain ⟨hi, hu⟩ := hp
      cases h : C.kern b g.mem <;> simp only [step, h] at hs
      case done =>
        cases hs
        exact ⟨⟨hready, hi, hu⟩, fun ⟨a, ha, he⟩ => ⟨g.mem, a, .done h, ha, he⟩⟩
      case go b m =>
        cases hs
        exact ⟨⟨hready, hi, hu⟩, fun ⟨m₁, a, hk, ha, he⟩ => ⟨m₁, a, .go h hk, ha, he⟩⟩
      case fault x =>
        rw [if_pos hi] at hs
        cases hs
        exact ⟨⟨hready, hi, hu⟩, fun ⟨m₁, hserve, m₂, a, hk, ha, he⟩ =>
          ⟨m₂, a, .fault h hserve hk, ha, he⟩⟩
  | finished => cases hs
  | sched c a =>
    simp only [step] at hs
    cases hs
    split_ifs with hi
    · exact ⟨⟨hready, hi⟩, fun he => he⟩
    · exact ⟨⟨hready, nofun⟩, fun he => he⟩
  | init i c a =>
    by_cases hlt : i < OOC_NUM_FIBERS
    · simp only [step, hlt, dite_true] at hs
      cases hs
      have hkern (f : Fiber) (hf : σ (.kern f) = some (.kernelTrampoline f) ∨ f.val = i) :
          Function.update σ (.kern ⟨i, hlt⟩) (some (.kernelTrampoline ⟨i, hlt⟩)) (.kern f) =
            some (.kernelTrampoline f) := by
        by_cases hfi : f = ⟨i, hlt⟩
        · rw [hfi, Function.update_self]
        · rw [Function.update_of_ne (by simpa using hfi)]
          exact hf.resolve_right fun h => hfi (Fin.ext h)
      refine ⟨⟨fun h f => hkern f (Or.inl (hready h f)), fun f hf => ?_⟩, fun he => he⟩
      rcases Nat.lt_succ_iff_lt_or_eq.mp hf with h | h
      · exact hkern f (Or.inl (hp f h))
      · exact hkern f (Or.inr h)
    · simp only [step, hlt, dite_false] at hs
      cases hs
      exact ⟨⟨fun _ f => hp f (lt_of_lt_of_le f.isLt (Nat.le_of_not_lt hlt)), rfl⟩, fun he => he⟩
  | search c a =>
    cases hs
    exact ⟨⟨hready, hp, searchFiber_all⟩, fun he => he⟩
  | loop found c a =>
    obtain ⟨hi, rfl⟩ := hp
    have hready' : Ready (Function.update σ .main (some (.schedBack a))) :=
      (hready hi).update (by simp)
    have hmain : Function.update σ .main (some (.schedBack a)) .main = some (.schedBack a) :=
      Function.update_self _ _ _
    simp only [step, hready' 0, Option.map_some] at hs
    cases hs
    refine ⟨⟨fun _ => hready', hi, a, hmain⟩, fun ⟨kern, args, hk, ha, m₁, a', hr, hm, he⟩ => ?_⟩
    simp only [Function.update_self, Option.some.injEq] at hk ha hr
    subst hk ha
    obtain rfl := Point.schedBack.inj (Option.some.inj (hmain.symm.trans hm))
    exact ⟨m₁, hr, he⟩
  | schedBack a =>
    cases hs
    refine ⟨⟨hready, trivial⟩, fun he => ?_⟩
    change AppRuns C g.isInit a g.mem m' at he
    have hi : g.isInit = true := hp
    rw [hi] at he
    exact he
  | kernelTrampoline f =>
    cases hk : g.kernel f with
    | none => simp [step, hk] at hs
    | some kern =>
      cases ha : g.args f with
      | none => simp [step, hk, ha] at hs
      | some args =>
        simp only [step, hk, ha] at hs
        cases hs
        exact ⟨⟨hready, hp⟩, fun he => ⟨kern, args, hk, ha, he⟩⟩
  | kernelFlush f =>
    obtain ⟨hi, a, ha⟩ := hp
    simp only [step, ha, Option.map_some] at hs
    cases hs
    exact ⟨⟨hready, hi⟩, fun he => ⟨a, ha, he⟩⟩
  | sigsegvTrampoline x u =>
    obtain ⟨hi, hu⟩ := hp
    cases hs
    have hmain : Function.update σ .tmp (some (Point.handler (A := A) (B := B) (α := α))) .main =
        σ .main :=
      Function.update_of_ne (by simp) _ _
    have htmp : Function.update σ .tmp (some (Point.handler (A := A) (B := B) (α := α))) .tmp =
        some .handler :=
      Function.update_self _ _ _
    refine ⟨⟨fun h => (hready h).update (by simp), hi, hu.congr hmain, htmp⟩,
      fun ⟨y, m₁, hy, hserve, he⟩ => ⟨m₁, ?_, (UserRuns.congr hmain).mp he⟩⟩
    simp only [Function.update_self, Option.some.injEq] at hy
    subst hy
    exact hserve
  | sigsegvSwap u =>
    obtain ⟨hi, hu, htmp⟩ := hp
    have htmp' : Function.update σ (.trampoline g.me) (some (.sigsegvBack u)) .tmp =
        some .handler :=
      (Function.update_of_ne (by simp) _ _).trans htmp
    have hmain : Function.update σ (.trampoline g.me) (some (.sigsegvBack u)) .main = σ .main :=
      Function.update_of_ne (by simp) _ _
    simp only [step, htmp', Option.map_some] at hs
    cases hs
    have hself : Function.update σ (.trampoline g.me) (some (.sigsegvBack u)) (.trampoline g.me) =
        some (.sigsegvBack u) :=
      Function.update_self _ _ _
    refine ⟨⟨fun h => (hready h).update (by simp), hi, u, hself, hu.congr hmain⟩,
      fun ⟨u', x, m₁, hu', hx, hserve, he⟩ => ⟨x, m₁, hx, hserve, ?_⟩⟩
    obtain rfl := Point.sigsegvBack.inj (Option.some.inj (hself.symm.trans hu'))
    exact (UserRuns.congr hmain).mp he
  | sigsegvBack u =>
    obtain ⟨hi, hu⟩ := hp
    cases hs
    refine ⟨⟨hready, ?_⟩, fun he => ?_⟩
    · cases u with
      | app a => trivial
      | kernel f b => exact ⟨hi, hu⟩
    · change UserRuns C σ g.isInit m' g.mem u at he
      rw [hi] at he
      exact he
  | handler =>
    obtain ⟨hi, u, hu, hok⟩ := hp
    cases hx : g.addr g.me with
    | none => simp [step, hx] at hs
    | some x =>
      cases hserve : C.serve x g.mem with
      | none => simp [step, hx, hserve] at hs
      | some m₁ =>
        simp only [step, hx, hserve, Option.bind_some, Option.map_some] at hs
        cases hs
        exact ⟨⟨hready, hi, u, hu, hok⟩, fun ⟨u', hu', he⟩ => ⟨u', x, m₁, hu', hx, hserve, he⟩⟩
  | handlerEnd =>
    obtain ⟨hi, u, hu, hok⟩ := hp
    simp only [step, hu, Option.map_some] at hs
    cases hs
    exact ⟨⟨hready, hi, hok⟩, fun he => ⟨u, hu, he⟩⟩

/-- The thread comes to an end exactly as the code means it: every `ooc_sched` is a call of
its kernel, and every fault is served before the access is made again. -/
theorem finishes_iff : Finishes C a m m' ↔ AppRuns C false a m m' := by
  constructor
  · rintro ⟨s, hr, hnow, rfl⟩
    have hstart : ThreadOk (start a m : Thread A B α M) := ⟨nofun, trivial⟩
    refine hr.back (I := ThreadOk) (Q := fun s' => Ends C s.mem.mem s'.saved s'.mem s'.now)
      (fun _ _ hi hn => ends_back hi hn) hstart ?_
    rw [hnow]
    rfl
  · intro hr
    obtain ⟨σ', g', hm, hr⟩ := app_reaches hr (g := (start a m : Thread A B α M).mem) rfl rfl nofun
    exact ⟨_, hr, rfl, hm⟩

theorem Finishes.unique {m₂ : M} (h : Finishes C a m m') (h' : Finishes C a m m₂) : m' = m₂ := by
  obtain ⟨s, hr, hnow, rfl⟩ := h
  obtain ⟨s', hr', hnow', rfl⟩ := h'
  have hfinal {s : Thread A B α M} (hs : s.now = .finished) : next (step C) s = none := by
    unfold next
    rw [hs]
    rfl
  rw [hr.final_unique hr' (hfinal hnow) (hfinal hnow')]

end OpenOOC.Fibers
