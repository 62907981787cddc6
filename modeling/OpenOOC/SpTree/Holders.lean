import OpenOOC.Lib.LockTrace
import OpenOOC.SpTree.Pins
import OpenOOC.SpTree.Coalesced

/-! Threads that call `sp_tree_find_mod_and_lock` and let go of `vm_lock` later. The
tree's lock is held during a call, `vm_lock` from the call on; the calls of other
threads change and free nodes without their `vm_lock`. -/

namespace OpenOOC.Holders

open LockMachine SplayTree SplayTree.Tree

/-! ### The machine -/

/-- `sp->lock`, and the `vm_lock` of a struct. -/
inductive LockId
  | tree
  | node (z : Addr)
  deriving DecidableEq

inductive Point
  | rest
  | get (c : Touch)
  | call (c : Touch)
  | getNode (k : ℕ) (z : Addr)
  | letTree (k : ℕ) (z : Addr)
  -- `vm_lock` is held as long as the thread likes
  | hold (k : ℕ) (z : Addr)

def instr : Point → Instr LockId Point
  | .get c => .get .tree (.call c)
  | .getNode k z => .get (.node z) (.letTree k z)
  | .letTree k z => .drop .tree (.hold k z)
  | .hold _ z => .drop (.node z) .rest
  | _ => .code

def code (ps : PageSize) (q : Point) (h : Heap) (i : Option Touch) : Option (Heap × Point) :=
  match q, i with
  | .rest, some c => some (h, .get c)
  | .call c, _ =>
    match c.exec ps h with
    | some (h', some (.vma z)) => some (h', .getNode c.vmAddr z)
    | _ => none
  | _, _ => none

def InputOk (ps : PageSize) (q : Point) (h : Heap) (i : Option Touch) : Prop :=
  match q, i with
  | .rest, some _ => True
  | .call c, none => c.Legal ps h
  | _, _ => False

def LockMapped (h : Heap) : LockId → Prop
  | .tree => True
  | .node z => h.cell (.vma z) ≠ none

def threads (Tid : Type) (ps : PageSize) : Machine Tid LockId Point Heap (Option Touch) where
  instr := fun _ => instr
  input := InputOk ps
  code := fun _ => code ps
  reachable := LockMapped

abbrev State (Tid : Type) := LockMachine.State Tid LockId Point Heap

/-- The tree is empty and no thread has done anything. -/
structure Start {Tid : Type} (s : State Tid) : Prop where
  mem : s.mem = emptyHeap
  lock : ∀ ℓ, s.lock ℓ = none
  pc : ∀ t, s.pc t = .rest

namespace Point

def node? : Point → Option (ℕ × Addr)
  | getNode k z => some (k, z)
  | letTree k z => some (k, z)
  | hold k z => some (k, z)
  | _ => none

def held : Point → List LockId
  | call _ => [.tree]
  | getNode .. => [.tree]
  | letTree _ z => [.node z, .tree]
  | hold _ z => [.node z]
  | _ => []

def rank : Point → ℕ
  | get _ => 2
  | getNode .. => 1
  | _ => 0

end Point

variable {Tid : Type} {ps : PageSize} {s s' s₀ : State Tid} {t t' : Tid} {q q' : Point} {ℓ : LockId}
  {h : Heap} {z : Addr} {k : ℕ}

def HoldsLock (_ : Tid) (q : Point) (ℓ : LockId) : Prop := ℓ ∈ q.held

theorem threads_disciplined (Tid : Type) (ps : PageSize) :
    Disciplined (threads Tid ps) HoldsLock := by
  refine ⟨fun t q ℓ q' hi k => ?_, fun t q ℓ q' hi k => ?_, fun t q h i h' q' _ hc k => ?_⟩
  · change instr q = _ at hi
    cases q <;> simp only [instr, reduceCtorEq, Instr.get.injEq] at hi
    all_goals
      obtain ⟨rfl, rfl⟩ := hi
      simp [HoldsLock, Point.held]
  · change instr q = _ at hi
    cases q <;> simp only [instr, reduceCtorEq, Instr.drop.injEq] at hi
    all_goals
      obtain ⟨rfl, rfl⟩ := hi
      simp only [HoldsLock, Point.held, List.mem_cons, List.not_mem_nil, or_false, ne_eq]
      grind
  · change code ps q h i = _ at hc
    unfold code at hc
    split at hc
    · cases hc
      simp [HoldsLock, Point.held]
    · split at hc
      · cases hc
        simp [HoldsLock, Point.held]
      · cases hc
    · cases hc

theorem holds_of_drop (hi : instr q = .drop ℓ q') : HoldsLock t q ℓ := by
  cases q <;> simp only [instr, reduceCtorEq, Instr.drop.injEq] at hi
  all_goals
    obtain ⟨rfl, -⟩ := hi
    simp [HoldsLock, Point.held]

/-! ### Runs -/

/-- The call can be served, and it takes from no other thread the address for which that
thread holds a node. -/
structure CallOk (ps : PageSize) (s : State Tid) (t : Tid) (c : Touch) : Prop where
  served : ∀ S T, Holds s.mem S T → ∀ n ∈ S, n.Covers c.vmAddr →
    Servable ps S n c.vmAddr (RootStays s.mem c.vmAddr) c.supply
  spares : ∀ S T, Holds s.mem S T → ∀ t' k z, t' ≠ t → (s.pc t').node? = some (k, z) →
    ∀ n ∈ S, n.addr = z → ¬ Disturbs ps S c.vmAddr n k

def StepOk (ps : PageSize) (s : State Tid) (t : Tid) : Prop :=
  ∀ c, s.pc t = .call c → CallOk ps s t c

/-- The tree is one of whole pages, and every struct that a thread was given is in it and
covers the thread's address. -/
def Inv (ps : PageSize) (s : State Tid) : Prop :=
  ∃ S T, Holds s.mem S T ∧ PagesOk ps S ∧ ∀ t k z, (s.pc t).node? = some (k, z) →
    ∃ n ∈ S, n.addr = z ∧ n.Covers k

theorem Start.inv (h₀ : Start s₀) : Inv ps s₀ := by
  refine ⟨∅, .nil, ?_, ⟨by simp, by simp, by simp, by simp [DisjointRanges]⟩, fun t k z hq => ?_⟩
  · rw [h₀.mem]
    exact holds_init (h := emptyHeap) rfl
  · rw [h₀.pc] at hq
    cases hq

variable [DecidableEq Tid]

/-- A call that can be served: what it makes of the tree, and of each of its nodes. -/
theorem called {c : Touch} {S : Finset Node} {T : Tree Ref} (hh : Holds s.mem S T)
    (hp : PagesOk ps S) (hpc : s.pc t = .call c) (hserved : ∀ n ∈ S, n.Covers c.vmAddr →
      Servable ps S n c.vmAddr (RootStays s.mem c.vmAddr) c.supply)
    (hs : Step (threads Tid ps) s t s') :
    ∃ h' S' T', ∃ x ∈ S', s' = ⟨h', s.lock, Function.update s.pc t (.getNode c.vmAddr x.addr)⟩ ∧
      Holds h' S' T' ∧ PagesOk ps S' ∧ x.Covers c.vmAddr ∧
      ∀ n ∈ S, ∀ a, n.Covers a → (Stays S' n a ↔ ¬ Disturbs ps S c.vmAddr n a) := by
  cases hs with
  | get h _ =>
    change instr (s.pc t) = _ at h
    rw [hpc] at h
    cases h
  | drop h =>
    change instr (s.pc t) = _ at h
    rw [hpc] at h
    cases h
  | @code i m q h he hc =>
    change InputOk ps (s.pc t) s.mem i at he
    change code ps (s.pc t) s.mem i = _ at hc
    rw [hpc] at he hc
    cases i with
    | some _ => exact he.elim
    | none =>
      have he : c.Legal ps s.mem := he
      unfold code at hc
      dsimp only at hc
      split at hc
      · rename_i h' z hexec
        cases hc
        obtain ⟨h₁, T', used, R, M, x, freed, he', hh', hstep, hsup, -⟩ :=
          he.done hh hp hserved _ hexec
        obtain ⟨rfl, hx⟩ := Prod.mk.inj (Option.some.inj (hexec.symm.trans he'))
        obtain rfl : z = x.addr := Ref.vma.inj (Option.some.inj hx)
        have hsup : c.supply = used.map some ++ _ := hsup
        obtain ⟨-, hp', hxm, hxc⟩ := hstep.pagesOk hp he.page he.inRange
        have hstructs := structs_of_supplied hh (hsup ▸ hh.supplied he)
        exact ⟨_, _, T', x, hxm, rfl, hh', hp', hxc,
          fun n hn a hc => hstep.stays_iff hp hstructs hn hc⟩
      · cases hc

theorem Inv.step (hi : Inv ps s) (hok : StepOk ps s t) (hs : Step (threads Tid ps) s t s') :
    Inv ps s' := by
  obtain ⟨S, T, hh, hp, hn⟩ := hi
  -- a lock operation gives the thread no other struct
  have hsame {lock : LockId → Option Tid} {q : Point}
      (hq : ∀ k z, q.node? = some (k, z) → (s.pc t).node? = some (k, z)) :
      Inv ps ⟨s.mem, lock, Function.update s.pc t q⟩ := by
    refine ⟨S, T, hh, hp, fun t' k z hq' => ?_⟩
    dsimp only at hq'
    by_cases ht : t' = t
    · rw [ht, Function.update_self] at hq'
      exact hn t k z (hq k z hq')
    · rw [Function.update_of_ne ht] at hq'
      exact hn t' k z hq'
  by_cases hcall : ∃ c, s.pc t = .call c
  · obtain ⟨c, hpc⟩ := hcall
    obtain ⟨hserved, hspares⟩ := hok c hpc
    obtain ⟨h', S', T', x, hx, rfl, hh', hp', hxc, hstays⟩ :=
      called hh hp hpc (hserved S T hh) hs
    refine ⟨S', T', hh', hp', fun t' k y hq => ?_⟩
    dsimp only at hq
    by_cases ht : t' = t
    · rw [ht, Function.update_self] at hq
      cases hq
      exact ⟨x, hx, rfl, hxc⟩
    · rw [Function.update_of_ne ht] at hq
      obtain ⟨n, hnS, rfl, hnc⟩ := hn t' k y hq
      exact (hstays n hnS k hnc).mpr (hspares S T hh t' k n.addr ht hq n hnS rfl)
  · cases hs with
    | get h _ =>
      change instr (s.pc t) = _ at h
      refine hsame fun k z hq => ?_
      cases hpc : s.pc t <;> rw [hpc] at h <;> cases h <;> exact hq
    | drop h =>
      change instr (s.pc t) = _ at h
      refine hsame fun k z hq => ?_
      cases hpc : s.pc t <;> rw [hpc] at h <;> cases h
      · exact hq
      · cases hq
    | @code i m q h he hc =>
      change code ps (s.pc t) s.mem i = _ at hc
      unfold code at hc
      cases hpc : s.pc t with
      | rest =>
        rw [hpc] at hc
        cases i with
        | none => cases hc
        | some c =>
          cases hc
          exact hsame nofun
      | call c => exact absurd ⟨c, hpc⟩ hcall
      | _ =>
        rw [hpc] at hc
        cases hc

omit [DecidableEq Tid] in
theorem Start.owned (h₀ : Start s₀) : Owned HoldsLock s₀ := fun ℓ t => by
  rw [h₀.lock, h₀.pc]
  simp [HoldsLock, Point.held]

omit [DecidableEq Tid] in
theorem rank_lt (ho : Owned HoldsLock s) (hw : WaitsFor (threads Tid ps) s t t') :
    (s.pc t').rank < (s.pc t).rank := by
  obtain ⟨ℓ, q, h, hl⟩ := hw
  have hheld : ℓ ∈ (s.pc t').held := (ho ℓ t').mp hl
  change instr (s.pc t) = _ at h
  cases hpc : s.pc t <;> rw [hpc] at h <;> cases h
  all_goals
    cases hpc' : s.pc t' <;> rw [hpc'] at hheld <;> simp [Point.held, Point.rank] at hheld ⊢

omit [DecidableEq Tid] in
/-- Whoever holds a `vm_lock` has been given the struct for an address. -/
theorem node_of_lock (ho : Owned HoldsLock s) (hl : s.lock (.node z) = some t) :
    ∃ k, (s.pc t).node? = some (k, z) := by
  have hheld : .node z ∈ (s.pc t).held := (ho _ t).mp hl
  cases hpc : s.pc t <;> rw [hpc] at hheld <;> simp [Point.held] at hheld
  all_goals
    subst hheld
    exact ⟨_, rfl⟩

omit [DecidableEq Tid] in
/-- During a call, a struct that another thread has been given is locked by it. -/
theorem lock_of_node {c : Touch} (ho : Owned HoldsLock s) (hpc : s.pc t = .call c) (ht : t' ≠ t)
    (hn : (s.pc t').node? = some (k, z)) : s.lock (.node z) = some t' := by
  have htree : s.lock .tree = some t := (ho .tree t).mpr (by rw [hpc]; simp [HoldsLock, Point.held])
  have hnot : LockId.tree ∉ (s.pc t').held := fun h => by
    have := (ho .tree t').mpr h
    rw [htree] at this
    exact ht (Option.some.inj this).symm
  refine (ho (.node z) t').mpr ?_
  unfold HoldsLock
  cases hpc' : s.pc t' <;> rw [hpc'] at hn hnot <;> simp [Point.node?, Point.held] at hn hnot ⊢
  exact hn.2.symm

/-- As long as no call takes from another thread the address for which that thread holds
a node: whoever holds a `vm_lock` holds that of a struct that is in the tree and covers
the address of its call, and the threads never wait for each other in a cycle. -/
theorem held_nodes_cover (h₀ : Start s₀) (hr : Runs (threads Tid ps) (StepOk ps) s₀ s) :
    (∀ t z, s.lock (.node z) = some t → ∃ k S T, (s.pc t).node? = some (k, z) ∧ Holds s.mem S T ∧
      ∃ n ∈ S, n.addr = z ∧ n.Covers k) ∧
      ¬ Deadlock (threads Tid ps) s := by
  have ho : Owned HoldsLock s := hr.owned (threads_disciplined Tid ps)
    (fun _ _ _ _ hi => holds_of_drop hi) h₀.owned
  obtain ⟨S, T, hh, -, hn⟩ := hr.invariant h₀.inv fun _ _ _ hi hok hs => hi.step hok hs
  refine ⟨fun t z hl => ?_, no_deadlock_of_rank (fun t => (s.pc t).rank) fun _ _ hw =>
    rank_lt ho hw⟩
  obtain ⟨k, hk⟩ := node_of_lock ho hl
  exact ⟨k, S, T, hk, hh, hn t k z hk⟩

/-! ### Calls that disturb -/

/-- The threads that hold a `vm_lock` hold that of a struct that is in the tree and covers
the address of their call. -/
def HeldCover (s : State Tid) : Prop :=
  ∀ t z, s.lock (.node z) = some t → ∃ k S T, (s.pc t).node? = some (k, z) ∧
    Holds s.mem S T ∧ ∃ n ∈ S, n.addr = z ∧ n.Covers k

omit [DecidableEq Tid] in
theorem Inv.heldCover (hi : Inv ps s) (ho : Owned HoldsLock s) : HeldCover s := by
  obtain ⟨S, T, hh, -, hn⟩ := hi
  intro t z hl
  obtain ⟨k, hk⟩ := node_of_lock ho hl
  exact ⟨k, S, T, hk, hh, hn t k z hk⟩

/-- After a call that could be served, other threads' structs cover what they did if and
only if the call disturbed none of them. -/
theorem Inv.call_iff {c : Touch} (hi : Inv ps s) (ho : Owned HoldsLock s)
    (hpc : s.pc t = .call c) (hserved : ∀ S T, Holds s.mem S T → ∀ n ∈ S, n.Covers c.vmAddr →
      Servable ps S n c.vmAddr (RootStays s.mem c.vmAddr) c.supply)
    (hs : Step (threads Tid ps) s t s') :
    HeldCover s' ↔ ∀ S T, Holds s.mem S T → ∀ t' k z, t' ≠ t →
      (s.pc t').node? = some (k, z) → ∀ n ∈ S, n.addr = z → ¬ Disturbs ps S c.vmAddr n k := by
  obtain ⟨S, T, hh, hp, hn⟩ := hi
  obtain ⟨h', S', T', x, hx, rfl, hh', -, -, hstays⟩ := called hh hp hpc (hserved S T hh) hs
  constructor
  · intro hheld S₁ T₁ hh₁ t' k z ht hq n hnS hnz
    obtain rfl := hh.unique hh₁
    have hl := lock_of_node ho hpc ht hq
    obtain ⟨k', S₂, T₂, hq', hh₂, m, hm, hmz, hmc⟩ := hheld t' z hl
    obtain rfl := hh'.unique hh₂
    dsimp only at hq'
    rw [Function.update_of_ne ht, hq] at hq'
    obtain ⟨rfl, -⟩ := Prod.mk.inj (Option.some.inj hq')
    obtain ⟨n', hn', hnz', hnc⟩ := hn t' k z hq
    obtain rfl := hh.linked.eq_of_ref hnS hn' (congrArg Ref.vma (hnz.trans hnz'.symm))
    exact (hstays n hnS k hnc).mp ⟨m, hm, hmz.trans hnz.symm, hmc⟩
  · intro hspares t' z hl
    have hl : s.lock (.node z) = some t' := hl
    obtain ⟨k, hq⟩ := node_of_lock ho hl
    have ht : t' ≠ t := by
      rintro rfl
      rw [hpc] at hq
      cases hq
    obtain ⟨n, hnS, rfl, hnc⟩ := hn t' k z hq
    obtain ⟨m, hm, hmz, hmc⟩ := (hstays n hnS k hnc).mpr (hspares S T hh t' k _ ht hq n hnS rfl)
    refine ⟨k, S', T', ?_, hh', m, hm, hmz, hmc⟩
    dsimp only
    rw [Function.update_of_ne ht]
    exact hq

/-- As long as no call disturbs a node that another thread holds, every thread that holds
a `vm_lock` holds that of a struct that is in the tree and covers the address of its
call; and a call that can be served leaves that so only if it disturbs none of them. -/
theorem held_nodes_stay (h₀ : Start s₀) (hr : Runs (threads Tid ps) (StepOk ps) s₀ s) :
    HeldCover s ∧ ∀ t c s', s.pc t = .call c → (∀ S T, Holds s.mem S T → ∀ n ∈ S,
        n.Covers c.vmAddr → Servable ps S n c.vmAddr (RootStays s.mem c.vmAddr) c.supply) →
      Step (threads Tid ps) s t s' →
        (HeldCover s' ↔ ∀ S T, Holds s.mem S T → ∀ t' k z, t' ≠ t →
          (s.pc t').node? = some (k, z) → ∀ n ∈ S, n.addr = z →
            ¬ Disturbs ps S c.vmAddr n k) := by
  have ho : Owned HoldsLock s :=
    hr.owned (threads_disciplined Tid ps) (fun _ _ _ _ hi => holds_of_drop hi) h₀.owned
  have hi : Inv ps s := hr.invariant h₀.inv fun _ _ _ hi hok hs => hi.step hok hs
  exact ⟨hi.heldCover ho, fun t c s' hpc hserved hs => hi.call_iff ho hpc hserved hs⟩

/-! ### Two threads -/

theorem code_call {c : Touch} {h₀ : Heap} (he : c.exec ps h₀ = some (h, some (.vma z))) :
    code ps (.call c) h₀ none = some (h, .getNode c.vmAddr z) := by
  unfold code
  simp only [he]

omit [DecidableEq Tid] in
theorem stepOk_of_ne (hq : s.pc t = q) (hne : ∀ c, q ≠ .call c) : StepOk ps s t := fun c h =>
  absurd (hq.symm.trans h) (hne c)

theorem step_call {c : Touch} (hpc : s.pc t = .call c) (hc : c.Legal ps s.mem)
    (he : c.exec ps s.mem = some (h, some (.vma z))) :
    Step (threads Tid ps) s t ⟨h, s.lock, Function.update s.pc t (.getNode c.vmAddr z)⟩ := by
  refine .code (e := none) ?_ ?_ ?_
  · change instr (s.pc t) = _
    rw [hpc]
    rfl
  · change InputOk ps (s.pc t) s.mem none
    rw [hpc]
    exact hc
  · change code ps (s.pc t) s.mem none = _
    rw [hpc]
    exact code_call he

theorem runs_to_call (hr : Runs (threads Tid ps) (StepOk ps) s₀ s) (hpc : s.pc t = .rest)
    (htree : s.lock .tree = none) (c : Touch) : Runs (threads Tid ps) (StepOk ps) s₀
      ⟨s.mem, Function.update s.lock .tree (some t), Function.update s.pc t (.call c)⟩ := by
  have h₁ := hr.step (stepOk_of_ne hpc nofun) (.code (e := some c) (m := s.mem) (p := .get c)
    (by rw [hpc]; rfl) (by rw [hpc]; trivial) (by rw [hpc]; rfl))
  have h₂ := h₁.step (t := t) (stepOk_of_ne (Function.update_self _ _ _) nofun)
    (.get (ℓ := .tree) (p := .call c) (by
      change instr (Function.update s.pc t _ t) = _
      rw [Function.update_self]
      rfl) htree)
  simp only [Function.update_idem] at h₂
  exact h₂

/-- A call of one thread, from its start until the thread holds the node. -/
theorem runs_call {c : Touch} (hr : Runs (threads Tid ps) (StepOk ps) s₀ s) (hpc : s.pc t = .rest)
    (htree : s.lock .tree = none) (hc : c.Legal ps s.mem) (hok : CallOk ps s t c)
    (he : c.exec ps s.mem = some (h, some (.vma z))) (hz : s.lock (.node z) = none) :
    ∃ s', Runs (threads Tid ps) (StepOk ps) s₀ s' ∧ s'.mem = h ∧
      s'.pc = Function.update s.pc t (.hold c.vmAddr z) ∧
      s'.lock = Function.update s.lock (.node z) (some t) := by
  have h₂ := runs_to_call hr hpc htree c
  have hpc' : Function.update s.pc t (.call c) t = .call c := Function.update_self _ _ _
  have hcall : StepOk ps (⟨s.mem, Function.update s.lock .tree (some t),
      Function.update s.pc t (.call c)⟩ : State Tid) t := by
    intro c' hc'
    obtain rfl : c = c' := Point.call.inj (hpc'.symm.trans hc')
    refine ⟨hok.served, fun S T hh t' k z ht hq => hok.spares S T hh t' k z ht ?_⟩
    dsimp only at hq
    rwa [Function.update_of_ne ht] at hq
  have h₃ := h₂.step hcall (step_call hpc' hc he)
  simp only [Function.update_idem] at h₃
  have h₄ := h₃.step (t := t) (stepOk_of_ne (Function.update_self _ _ _) nofun)
    (.get (ℓ := .node z) (p := .letTree c.vmAddr z) (by
    change instr (Function.update s.pc t _ t) = _
    rw [Function.update_self]
    rfl) (by
    dsimp only
    rw [Function.update_of_ne (by simp)]
    exact hz))
  simp only [Function.update_idem] at h₄
  have h₅ := h₄.step (t := t) (stepOk_of_ne (Function.update_self _ _ _) nofun)
    (.drop (ℓ := .tree) (p := .hold c.vmAddr z) (by
    change instr (Function.update s.pc t _ t) = _
    rw [Function.update_self]
    rfl))
  simp only [Function.update_idem] at h₅
  refine ⟨_, h₅, rfl, rfl, ?_⟩
  funext ℓ
  dsimp only
  by_cases hℓ : ℓ = .tree
  · rw [hℓ, Function.update_self, Function.update_of_ne (by simp), htree]
  · rw [Function.update_of_ne hℓ]
    by_cases hz : ℓ = .node z
    · rw [hz, Function.update_self, Function.update_self]
    · rw [Function.update_of_ne hz, Function.update_of_ne hz, Function.update_of_ne hℓ]

def nobody : State (Fin 2) := ⟨emptyHeap, fun _ => none, fun _ => .rest⟩

theorem nobody_start : Start nobody := ⟨rfl, fun _ => rfl, fun _ => rfl⟩

/-- The call for the page between two others. -/
def joins : Touch := ⟨4096, [staleZero 200]⟩

/-- One thread holds the node of page 0, the other one that of page 2. -/
theorem twoHolders : ∃ s : State (Fin 2),
    Runs (threads (Fin 2) pages4096) (StepOk pages4096) nobody s ∧
      s.pc 0 = .hold 0 72 ∧ s.pc 1 = .hold 8192 136 ∧ s.lock (.node 72) = some 0 ∧
      s.lock (.node 136) = some 1 ∧ s.lock .tree = none ∧
      s.mem.readNodes 2 = some [⟨72, VM_PROT_READ, 0, 4096⟩, ⟨136, VM_PROT_READ, 8192, 12288⟩] ∧
      joins.legal pages4096 s.mem = true ∧
      (joins.exec pages4096 s.mem).any (fun out => out.2 = some (.vma 136)) = true := by
  have hempty {S : Finset Node} {T : Tree Ref} (hh : OpenOOC.Holds emptyHeap S T) : S = ∅ :=
    hh.unique (holds_init (h := emptyHeap) rfl)
  have hone {S : Finset Node} {T : Tree Ref} (hh : OpenOOC.Holds onePage S T) :
      S = {⟨72, VM_PROT_READ, 0, 4096⟩} := by
    obtain ⟨T', hh'⟩ := onePage_holds
    exact hh.unique hh'
  have he₁ : (⟨0, [staleZero 72]⟩ : Touch).exec pages4096 emptyHeap =
      some (onePage, some (.vma 72)) := by
    unfold Touch.exec spTreeFindMod
    rw [if_pos (show emptyHeap.root = none from rfl), @newNode_eq _ _ _ [] rfl]
    rfl
  have hok₁ : CallOk pages4096 nobody 0 ⟨0, [staleZero 72]⟩ := by
    refine ⟨fun S T hh n hn => ?_, fun S T hh t' k z _ _ n hn => ?_⟩
    · rw [hempty hh] at hn
      cases hn
    · rw [hempty hh] at hn
      cases hn
  obtain ⟨s₁, hr₁, hm₁, hp₁, hl₁⟩ :=
    runs_call (t := 0) .start rfl rfl (Touch.legal_of (by decide)) hok₁ he₁ rfl
  have hrun : ((⟨8192, [staleZero 136]⟩ : Touch).exec pages4096 onePage).any (fun out =>
      out.2 = some (.vma 136) ∧ out.1.readNodes 2 =
        some [⟨72, VM_PROT_READ, 0, 4096⟩, ⟨136, VM_PROT_READ, 8192, 12288⟩] ∧
      joins.legal pages4096 out.1 = true ∧
      (joins.exec pages4096 out.1).any (fun out => out.2 = some (.vma 136)) = true) = true := by
    decide +kernel
  obtain ⟨⟨h₂, y⟩, he₂, hy⟩ := (Option.any_eq_true _ _).mp hrun
  obtain ⟨rfl, hnodes, hlegal, hexec⟩ := of_decide_eq_true hy
  rw [← hm₁] at he₂
  have hok₂ : CallOk pages4096 s₁ 1 ⟨8192, [staleZero 136]⟩ := by
    refine ⟨fun S T hh n hn hc => ?_, fun S T hh t' k z ht hq n hn hz hd => ?_⟩
    · rw [hm₁] at hh
      rw [hone hh, Finset.mem_singleton] at hn
      subst hn
      exact absurd hc (by decide)
    · rw [hm₁] at hh
      rw [hone hh] at hn hd
      obtain rfl := Finset.mem_singleton.mp hn
      cases hd with
      | joined _ hl _ => exact absurd hl.2.1 (by decide)
      | cut _ he _ => exact absurd he (by decide)
      | first hs _ _ => exact absurd hs (by decide)
      | last _ he _ => exact absurd he (by decide)
      | merged hs _ _ => exact absurd hs (by decide)
      | mergedPrev hm hs _ _ _ =>
        obtain rfl := Finset.mem_singleton.mp hm
        exact absurd hs (by decide)
  obtain ⟨s₂, hr₂, hm₂, hp₂, hl₂⟩ := runs_call (t := 1) hr₁ (by rw [hp₁]; rfl) (by rw [hl₁]; rfl)
    (by rw [hm₁]; exact Touch.legal_of (by decide)) hok₂ he₂ (by rw [hl₁]; rfl)
  refine ⟨s₂, hr₂, by rw [hp₂, hp₁]; rfl, by rw [hp₂]; rfl, by rw [hl₂, hl₁]; rfl,
    by rw [hl₂]; rfl, by rw [hl₂, hl₁]; rfl, ?_, ?_, ?_⟩ <;> rw [hm₂]
  · exact hnodes
  · exact hlegal
  · exact hexec

theorem held_nodes_cover_two : ∃ s : State (Fin 2), s.lock (.node 72) = some 0 ∧
    s.lock (.node 136) = some 1 ∧
    ∃ k S T, (s.pc 0).node? = some (k, 72) ∧ OpenOOC.Holds s.mem S T ∧ ∃ n ∈ S, n.addr = 72 ∧
      n.Covers k := by
  obtain ⟨s, hr, -, -, h₀, h₁, -⟩ := twoHolders
  obtain ⟨hcover, -⟩ := held_nodes_cover nobody_start hr
  exact ⟨s, h₀, h₁, hcover 0 72 h₀⟩

/-- Of two nodes, the call for the page between leaves the second one only. -/
theorem joins_disturbs {S : Finset Node} {T : Tree Ref} (hh : OpenOOC.Holds h S T)
    (hnodes : h.readNodes 2 =
      some [⟨72, VM_PROT_READ, 0, 4096⟩, ⟨136, VM_PROT_READ, 8192, 12288⟩]) :
    (∀ n ∈ S, ¬ n.Covers joins.vmAddr) ∧ (⟨72, VM_PROT_READ, 0, 4096⟩ : Node) ∈ S ∧
      Disturbs pages4096 S joins.vmAddr ⟨72, VM_PROT_READ, 0, 4096⟩ 0 := by
  have hno : ∀ n ∈ S, ¬ n.Covers joins.vmAddr := by
    intro n hn
    have hmem := (hh.mem_read hnodes n).mp hn
    simp only [List.mem_cons, List.not_mem_nil, or_false] at hmem
    rcases hmem with rfl | rfl <;> exact fun hc => absurd hc (by decide)
  have hl := (hh.mem_read hnodes ⟨72, VM_PROT_READ, 0, 4096⟩).mpr (by simp)
  have hq := (hh.mem_read hnodes ⟨136, VM_PROT_READ, 8192, 12288⟩).mpr (by simp)
  exact ⟨hno, hl, .joined hno ⟨hl, rfl, rfl⟩ ⟨hq, rfl, rfl⟩⟩

/-- The second thread lets its node go and calls for the page between: the first one
loses its node. -/
theorem held_nodes_stay_joined : ∃ s s' : State (Fin 2),
    Runs (threads (Fin 2) pages4096) (StepOk pages4096) nobody s ∧ s.lock (.node 72) = some 0 ∧
      s.pc 1 = .call joins ∧ Step (threads (Fin 2) pages4096) s 1 s' ∧
      HeldCover s ∧ ¬ HeldCover s' := by
  obtain ⟨s, hr, hpc₀, hpc, h₀, -, htree, hnodes, hlegal, hexec⟩ := twoHolders
  obtain ⟨⟨h', y⟩, he, hy⟩ := (Option.any_eq_true _ _).mp hexec
  obtain rfl := of_decide_eq_true hy
  have h₁ := hr.step (stepOk_of_ne hpc nofun)
    (.drop (ℓ := .node 136) (p := .rest) (by rw [hpc]; rfl))
  have htree₁ : Function.update s.lock (.node 136) none .tree = none :=
    (Function.update_of_ne (by simp) _ _).trans htree
  have h₂ := runs_to_call h₁ (Function.update_self _ _ _) htree₁ joins
  simp only [Function.update_idem] at h₂
  have hpc' : Function.update s.pc 1 (.call joins) 1 = .call joins := Function.update_self _ _ _
  have hstep := step_call (t := 1)
    (s := ⟨s.mem, Function.update (Function.update s.lock (.node 136) none) .tree (some 1),
      Function.update s.pc 1 (.call joins)⟩) hpc' (Touch.legal_of hlegal) he
  obtain ⟨hheld, hiff⟩ := held_nodes_stay nobody_start h₂
  refine ⟨_, _, h₂, h₀, hpc', hstep, hheld, fun hheld' => ?_⟩
  have hserved : ∀ S T, OpenOOC.Holds s.mem S T → ∀ n ∈ S, n.Covers joins.vmAddr →
      Servable pages4096 S n joins.vmAddr (RootStays s.mem joins.vmAddr) joins.supply :=
    fun S T hh n hn hc => absurd hc ((joins_disturbs hh hnodes).1 n hn)
  have hspares := (hiff 1 joins _ hpc' hserved hstep).mp hheld'
  obtain ⟨-, S, T, -, hh, -⟩ := hheld 0 72 h₀
  obtain ⟨-, hn, hd⟩ := joins_disturbs hh hnodes
  have hpc₁ : Function.update s.pc 1 (.call joins) 0 = .hold 0 72 :=
    (Function.update_of_ne (by decide) _ _).trans hpc₀
  exact hspares S T hh 0 0 72 (by decide) (congrArg Point.node? hpc₁) _ hn rfl hd

def inputOk (ps : PageSize) (q : Point) (h : Heap) (i : Option Touch) : Bool :=
  match q, i with
  | .rest, some _ => true
  | .call c, none => c.legal ps h
  | _, _ => false

theorem inputOk_sound (q : Point) (h : Heap) (i : Option Touch) (hi : inputOk ps q h i = true) :
    InputOk ps q h i := by
  unfold inputOk at hi
  unfold InputOk
  split at hi
  · trivial
  · exact Touch.legal_of hi
  · cases hi

def computed (Tid : Type) [DecidableEq Tid] (ps : PageSize) : Computed (threads Tid ps) :=
  ⟨inputOk ps, fun _ => code ps, inputOk_sound, fun _ _ _ _ _ => rfl⟩

/-- The first thread still holds the `vm_lock` of a struct that has been freed. -/
theorem held_node_is_freed : ∃ s : State (Fin 2),
    Runs (threads (Fin 2) pages4096) (fun _ _ => True) nobody s ∧
      s.lock (.node 72) = some 0 ∧ s.mem.cell (.vma 72) = none ∧ ¬ HeldCover s := by
  have hrun : ((computed (Fin 2) pages4096).exec (fun _ _ => true)
      ((0, some ⟨0, [staleZero 72]⟩) :: List.replicate 4 (0, none) ++
        (1, some ⟨8192, [staleZero 136]⟩) :: List.replicate 5 (1, none) ++
        (1, some joins) :: List.replicate 2 (1, none)) nobody).any
      (fun s => s.lock (.node 72) = some 0 ∧ (s.mem.cell (.vma 72)).isNone) = true := by
    decide +kernel
  have hstart : TracedRuns (threads (Fin 2) pages4096) (fun _ _ => True) nobody [] nobody := .start
  obtain ⟨l, s, hr, hs⟩ := Computed.exec_any (fun _ _ _ => trivial) hstart hrun
  obtain ⟨hl, hcell⟩ := of_decide_eq_true hs
  have hcell := Option.isNone_iff_eq_none.mp hcell
  refine ⟨s, hr.runs, hl, hcell, fun hheld => ?_⟩
  obtain ⟨k, S, T, -, hh, n, hn, hnz, -⟩ := hheld 0 72 hl
  obtain ⟨v, hv, -⟩ := hh.linked.cell hn
  rw [Node.ref, hnz, hcell] at hv
  cases hv

end OpenOOC.Holders
