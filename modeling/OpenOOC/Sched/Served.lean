import OpenOOC.Lib.Simulation
import OpenOOC.Sched.Faults

/-! One fault, served while no other thread is doing anything. The handler's steps, with
its locks, then come to the plain reading of its text. -/

namespace OpenOOC.Sched

open LockMachine Simulation

/-- `S_sigsegv_handler`, when no other thread does anything meanwhile. -/
def sSigsegvHandler (ps : PageSize) (m : Mem) (addr : Addr) : Option (Mem × Answer) := do
  let (h, p) ← spTreeFindAndLock m.heap addr.toNat
  match p with
  | some (.vma z) =>
    let (m, ans) ← handle { m with heap := h } z
    let m ← protect ps m addr ans
    return (m, ans)
  | _ => none

variable {ps : PageSize} {m : Mem} {g : Ghost} {a : Alloc} {x : Addr}

theorem MemOk.served (hm : MemOk ps m g) (ha : a ∈ g.listed) (hx : a.Owns ps x) :
    ∃ m', sSigsegvHandler ps m x = some (m', (answer (g.flags a)).2) ∧
      MemOk ps m' (g.setFlags a (answer (g.flags a)).1) ∧ m'.live = m.live ∧
      m'.prot x.toNat = some (answer (g.flags a)).2.prot := by
  obtain ⟨h, he⟩ := hm.find ha hx
  obtain ⟨hm₁, -⟩ := hm.found he
  obtain ⟨m₂, he₂, hm₂, -, hl₂, -⟩ := hm₁.handled ha
  have hfits : Fits ((g.setFlags a (answer (g.flags a)).1).flags a) (answer (g.flags a)).2 := by
    rw [g.flags_self]
    rcases answer_flags (hm.flags a (hm.listed ha)) with ⟨-, h⟩ | ⟨-, h⟩ <;> rw [h]
    · exact Or.inl ⟨rfl, rfl⟩
    · exact Or.inr ⟨rfl, rfl⟩
  have hdata := (hm.region a (hm.listed ha)).inData_of_owns hx
  obtain ⟨m₃, he₃, hm₃, -, hl₃, -, hp₃, -⟩ := hm₂.protected_ (hm.listed ha) hdata hfits
  refine ⟨m₃, ?_, hm₃, hl₃.trans hl₂, hp₃⟩
  unfold sSigsegvHandler
  simp only [he, he₂, he₃, Option.bind_eq_bind, Option.bind_some, Option.pure_def]

/-! ### The steps -/

variable {Tid : Type} {s s₀ s₁ s₂ : State Tid} {t : Tid} {q q' : Point} {ℓ : LockId}

theorem input_eq_nothing {p : Pc} {i : Input} (h : InputOk ps p m i) (hp : p.now ≠ .rest) :
    i = .nothing := by
  unfold InputOk at h
  generalize p.now = q at h hp
  cases q with
  | rest => exact absurd rfl hp
  | _ => exact h

theorem kept_filter {p : Pc} (h : ℓ ∉ p.kept) : p.kept.filter (· ≠ ℓ) = p.kept :=
  List.filter_eq_self.mpr fun _ hk => decide_eq_true fun he => h (he ▸ hk)

variable [DecidableEq Tid]

def Alone (ps : PageSize) (t : Tid) (s s' : State Tid) : Prop :=
  WellUsed ps s ∧ Step (threads Tid ps) s t s'

def GoesOn (ps : PageSize) (t : Tid) (s s' : State Tid) : Prop :=
  (s.pc t).now ≠ .rest ∧ Alone ps t s s'

theorem runs_of_alone {n : ℕ} (hr : Runs (threads Tid ps) (fun s _ => WellUsed ps s) s₀ s)
    (h : RunsIn (Alone ps t) s n s₁) : Runs (threads Tid ps) (fun s _ => WellUsed ps s) s₀ s₁ := by
  induction h with
  | start => exact hr
  | step _ hs ih => exact ih.step hs.1 hs.2

theorem goesOn_unique (s s₁ s₂ : State Tid) (h₁ : GoesOn ps t s s₁) (h₂ : GoesOn ps t s s₂) :
    s₁ = s₂ := by
  obtain ⟨hq, -, h₁⟩ := h₁
  obtain ⟨-, -, h₂⟩ := h₂
  cases h₁ with
  | get hi₁ _ =>
    cases h₂ with
    | get hi₂ _ =>
      obtain ⟨rfl, rfl⟩ := Instr.get.inj (hi₁.symm.trans hi₂)
      rfl
    | drop hi₂ => cases hi₁.symm.trans hi₂
    | code hi₂ _ _ => cases hi₁.symm.trans hi₂
  | drop hi₁ =>
    cases h₂ with
    | get hi₂ _ => cases hi₁.symm.trans hi₂
    | drop hi₂ =>
      obtain ⟨rfl, rfl⟩ := Instr.drop.inj (hi₁.symm.trans hi₂)
      rfl
    | code hi₂ _ _ => cases hi₁.symm.trans hi₂
  | code hi₁ he₁ hc₁ =>
    cases h₂ with
    | get hi₂ _ => cases hi₁.symm.trans hi₂
    | drop hi₂ => cases hi₁.symm.trans hi₂
    | code hi₂ he₂ hc₂ =>
      rw [input_eq_nothing he₁ hq] at hc₁
      rw [input_eq_nothing he₂ hq] at hc₂
      cases hc₁.symm.trans hc₂
      rfl

/-! A step is given by the point that the thread is at and the point that it comes to. -/

/-- Memory, locks and thread `t` have moved on, the other threads are as in `s`. -/
abbrev State.moved (s : State Tid) (t : Tid) (m : Mem) (L : LockId → Option Tid) (q : Point) :
    State Tid :=
  ⟨m, L, Function.update s.pc t ⟨q, (s.pc t).kept⟩⟩

variable {L : LockId → Option Tid}

theorem moved_pc (s : State Tid) : (s.moved t m L q).pc t = ⟨q, (s.pc t).kept⟩ :=
  Function.update_self t _ s.pc

theorem now_ne (s : State Tid) (hq : q ≠ .rest) : ((s.moved t m L q).pc t).now ≠ .rest := by
  rw [moved_pc]
  exact hq

theorem wellUsed_alone {kept : List LockId} {y : Access}
    (hrest : ∀ t', t' ≠ t → (s.pc t').now = .rest) (hy : ∃ a ∈ m.live, a.Owns ps y.addr)
    (hq : q.access? = some y) : WellUsed ps ⟨m, L, Function.update s.pc t ⟨q, kept⟩⟩ := by
  refine ⟨fun t' x hx => ?_, fun t' ptr hp => ?_⟩
  · by_cases ht : t' = t
    · subst ht
      dsimp only at hx
      rw [Function.update_self, hq] at hx
      obtain rfl := Option.some.inj hx
      exact hy
    · dsimp only at hx
      rw [Function.update_of_ne ht, hrest t' ht] at hx
      cases hx
  · dsimp only at hp
    by_cases ht : t' = t
    · subst ht
      rw [Function.update_self] at hp
      obtain rfl : q = _ := hp
      cases hq
    · rw [Function.update_of_ne ht, hrest t' ht] at hp
      cases hp

theorem wellUsed_of_access {y : Access} (hrest : ∀ t', t' ≠ t → (s.pc t').now = .rest)
    (hy : ∃ a ∈ s.mem.live, a.Owns ps y.addr) (hq : (s.pc t).now.access? = some y) :
    WellUsed ps s := by
  have h : WellUsed ps ⟨s.mem, s.lock, Function.update s.pc t (s.pc t)⟩ :=
    wellUsed_alone hrest hy hq
  rwa [Function.update_eq_self] at h

theorem step_get (hi : instr ⟨q, (s.pc t).kept⟩ = .get ℓ ⟨q', (s.pc t).kept⟩) (hl : L ℓ = none) :
    Step (threads Tid ps) (s.moved t m L q) t (s.moved t m (Function.update L ℓ (some t)) q') := by
  rw [← moved_pc (m := m) (L := L) s] at hi
  have h := Step.get (K := threads Tid ps) hi hl
  rwa [Function.update_idem] at h

theorem step_drop (hi : instr ⟨q, (s.pc t).kept⟩ = .drop ℓ ⟨q', (s.pc t).kept.filter (· ≠ ℓ)⟩)
    (hk : ℓ ∉ (s.pc t).kept) :
    Step (threads Tid ps) (s.moved t m L q) t (s.moved t m (Function.update L ℓ none) q') := by
  rw [kept_filter hk, ← moved_pc (m := m) (L := L) s] at hi
  have h := Step.drop (K := threads Tid ps) hi
  rwa [Function.update_idem] at h

theorem step_of_codePoint {p : Pc} {i : Input} {m' : Mem} (hp : s.pc t = p)
    (hi : instr p = .code) (he : InputOk ps p s.mem i) (hk : p.now.keeps = [])
    (hc : codePoint ps p.now s.mem i = some (m', q')) :
    Step (threads Tid ps) s t ⟨m', s.lock, Function.update s.pc t ⟨q', p.kept⟩⟩ := by
  subst hp
  refine Step.code (K := threads Tid ps) hi he ?_
  change code ps (s.pc t) s.mem i = _
  unfold code
  rw [hc, Option.map_some, hk, List.nil_append]

theorem step_code {m' : Mem} (hi : instr ⟨q, (s.pc t).kept⟩ = .code) (hq : q ≠ .rest)
    (hk : q.keeps = []) (hc : codePoint ps q m .nothing = some (m', q')) :
    Step (threads Tid ps) (s.moved t m L q) t (s.moved t m' L q') := by
  have h := step_of_codePoint (s := s.moved t m L q) (moved_pc s) hi
    (input_of_not_rest _ m hq) hk hc
  rwa [Function.update_idem] at h

theorem step_access {x : Access} (hq : (s.pc t).now = .access x) :
    Step (threads Tid ps) s t ⟨s.mem, s.lock, Function.update s.pc t
      ⟨if Allowed (s.mem.prot x.addr.toNat) x.write then .rest else .findGet (.handler x),
        (s.pc t).kept⟩⟩ := by
  have hp : s.pc t = ⟨.access x, (s.pc t).kept⟩ := by rw [← hq]
  have hin : InputOk ps ⟨.access x, (s.pc t).kept⟩ s.mem .nothing := input_of_not_rest _ s.mem nofun
  have h : Step (threads Tid ps) s t _ := step_of_codePoint hp rfl hin rfl rfl
  exact h

/-- A lock that a resting thread has kept is not in the way of the handler. -/
theorem Inv.lock_free (hi : Inv ps s g) (ho : Owned Holds s)
    (hrest : ∀ t', t' ≠ t → (s.pc t').now = .rest) (hheld : (s.pc t).now.held = [])
    (hk : ¬ KeptOk s.mem g ℓ) : s.lock ℓ = none ∧ ℓ ∉ (s.pc t).kept := by
  refine ⟨?_, fun h => hk (hi.kept t ℓ h)⟩
  by_contra hl
  obtain ⟨t', hl⟩ := Option.ne_none_iff_exists'.mp hl
  rcases (ho ℓ t').mp hl with h | h
  · by_cases ht : t' = t
    · rw [ht, hheld] at h
      cases h
    · rw [hrest t' ht] at h
      cases h
  · exact hk (hi.kept t' ℓ h)

/-- From a state in which no other thread does anything, the seven steps of a fault lead
to where the plain reading of the handler leads, and to no other state. -/
theorem seven_steps_serve (h₀ : Start s₀)
    (hr : Runs (threads Tid ps) (fun s _ => WellUsed ps s) s₀ s) (hu : WellUsed ps s)
    {y : Access} (hq : (s.pc t).now = .findGet (.handler y))
    (hrest : ∀ t', t' ≠ t → (s.pc t').now = .rest) :
    ∃ m' ans, sSigsegvHandler ps s.mem y.addr = some (m', ans) ∧ m'.live = s.mem.live ∧
      ∀ s', RunsIn (GoesOn ps t) s 7 s' ↔ s' = ⟨m', s.lock, Function.update s.pc t
          ⟨.access { y with faults := y.faults + 1 }, (s.pc t).kept⟩⟩ := by
  obtain ⟨g, hi⟩ := h₀.inv_of_runs hr
  have ho := h₀.owned_of_runs hr
  obtain ⟨a, ha⟩ := hi.at_now hq nofun
  have hal : a ∈ g.listed := ha.listed.mpr trivial
  have hown : a.Owns ps y.addr := ha.on
  -- the three parts of the handler
  obtain ⟨h, he₁⟩ := hi.mem.find hal hown
  obtain ⟨hm₁, -⟩ := hi.mem.found he₁
  obtain ⟨m₂, he₂, hm₂, -, hl₂, -⟩ := hm₁.handled hal
  have hfits : Fits ((g.setFlags a (answer (g.flags a)).1).flags a) (answer (g.flags a)).2 := by
    rw [g.flags_self]
    rcases answer_flags (hi.mem.flags a (hi.mem.listed hal)) with ⟨-, h⟩ | ⟨-, h⟩ <;> rw [h]
    · exact Or.inl ⟨rfl, rfl⟩
    · exact Or.inr ⟨rfl, rfl⟩
  have hdata := (hi.mem.region a (hi.mem.listed hal)).inData_of_owns hown
  obtain ⟨m₃, he₃, -, -, hl₃, -⟩ := hm₂.protected_ (hi.mem.listed hal) hdata hfits
  refine ⟨m₃, (answer (g.flags a)).2, ?_, hl₃.trans hl₂, fun s' => ?_⟩
  · unfold sSigsegvHandler
    simp only [he₁, he₂, he₃, Option.bind_eq_bind, Option.bind_some, Option.pure_def]
  -- its locks
  have hheld : (s.pc t).now.held = [] := by
    rw [hq]
    rfl
  obtain ⟨htree, htree'⟩ := hi.lock_free ho hrest hheld (ℓ := .tree) id
  obtain ⟨hnode, hnode'⟩ := hi.lock_free ho hrest hheld (ℓ := .node a.vma (s.mem.inits a.vma))
    (by
      rintro (h | ⟨-, h⟩)
      · exact lt_irrefl _ h
      · exact h a hal rfl)
  -- its steps
  let ℓ : LockId := .node a.vma (s.mem.inits a.vma)
  let L₁ := Function.update s.lock .tree (some t)
  let L₂ := Function.update L₁ ℓ (some t)
  let L₃ := Function.update L₂ .tree none
  have hs : s.moved t s.mem s.lock (.findGet (.handler y)) = s := by
    unfold State.moved
    rw [← hq, Function.update_eq_self]
  have hd₁ : Step (threads Tid ps) s t (s.moved t s.mem L₁ (.find (.handler y))) := by
    have hstep : Step (threads Tid ps) (s.moved t s.mem s.lock (.findGet (.handler y))) t
        (s.moved t s.mem L₁ (.find (.handler y))) := step_get rfl htree
    rwa [hs] at hstep
  have hd₂ : Step (threads Tid ps) (s.moved t s.mem L₁ (.find (.handler y))) t
      (s.moved t { s.mem with heap := h } L₁
        (.findGetNode (.handler y) a.vma (s.mem.inits a.vma))) := by
    refine step_code rfl nofun rfl ?_
    unfold codePoint find
    dsimp only [Caller.addr]
    rw [he₁]
  have hd₃ : Step (threads Tid ps)
      (s.moved t { s.mem with heap := h } L₁ (.findGetNode (.handler y) a.vma (s.mem.inits a.vma)))
      t
      (s.moved t { s.mem with heap := h } L₂ (.findLet (.handler y) a.vma (s.mem.inits a.vma))) :=
    step_get rfl ((Function.update_of_ne (by simp) _ _).trans hnode)
  have hd₄ : Step (threads Tid ps)
      (s.moved t { s.mem with heap := h } L₂ (.findLet (.handler y) a.vma (s.mem.inits a.vma))) t
      (s.moved t { s.mem with heap := h } L₃ (.handle y a.vma (s.mem.inits a.vma))) :=
    step_drop rfl htree'
  have hd₅ : Step (threads Tid ps)
      (s.moved t { s.mem with heap := h } L₃ (.handle y a.vma (s.mem.inits a.vma))) t
      (s.moved t m₂ L₃ (.protect y a.vma (s.mem.inits a.vma) (answer (g.flags a)).2)) := by
    refine step_code rfl nofun rfl ?_
    unfold codePoint
    dsimp only
    rw [he₂, Option.map_some]
  have hd₆ : Step (threads Tid ps)
      (s.moved t m₂ L₃ (.protect y a.vma (s.mem.inits a.vma) (answer (g.flags a)).2)) t
      (s.moved t m₃ L₃ (.handleLet y a.vma (s.mem.inits a.vma))) := by
    refine step_code rfl nofun rfl ?_
    unfold codePoint
    dsimp only
    rw [he₃, Option.map_some]
  have hd₇ : Step (threads Tid ps) (s.moved t m₃ L₃ (.handleLet y a.vma (s.mem.inits a.vma))) t
      (s.moved t m₃ (Function.update L₃ ℓ none) (.access { y with faults := y.faults + 1 })) :=
    step_drop rfl hnode'
  have hlock : Function.update L₃ ℓ none = s.lock := by
    funext k
    by_cases h₁ : k = ℓ
    · rw [h₁, Function.update_self, hnode]
    · rw [Function.update_of_ne h₁]
      by_cases h₂ : k = .tree
      · rw [h₂, htree]
        exact Function.update_self _ _ _
      · calc L₃ k = L₂ k := Function.update_of_ne h₂ _ _
          _ = L₁ k := Function.update_of_ne h₁ _ _
          _ = s.lock k := Function.update_of_ne h₂ _ _
  rw [hlock] at hd₇
  have hy := hu.uses t y (by rw [hq]; rfl)
  have hy₂ : ∃ a ∈ m₂.live, a.Owns ps y.addr := by
    rw [hl₂]
    exact hy
  have hy₃ : ∃ a ∈ m₃.live, a.Owns ps y.addr := by
    rw [hl₃]
    exact hy₂
  have h₁ : RunsIn (GoesOn ps t) s 1 _ := RunsIn.start.step ⟨by rw [hq]; nofun, hu, hd₁⟩
  have h₂ := h₁.step ⟨now_ne s nofun, wellUsed_alone hrest hy rfl, hd₂⟩
  have h₃ := h₂.step ⟨now_ne s nofun, wellUsed_alone hrest hy rfl, hd₃⟩
  have h₄ := h₃.step ⟨now_ne s nofun, wellUsed_alone hrest hy rfl, hd₄⟩
  have h₅ := h₄.step ⟨now_ne s nofun, wellUsed_alone hrest hy rfl, hd₅⟩
  have h₆ := h₅.step ⟨now_ne s nofun, wellUsed_alone hrest hy₂ rfl, hd₆⟩
  have hrun := h₆.step ⟨now_ne s nofun, wellUsed_alone hrest hy₃ rfl, hd₇⟩
  exact ⟨fun h => h.unique goesOn_unique hrun, fun h => h ▸ hrun⟩

end OpenOOC.Sched
