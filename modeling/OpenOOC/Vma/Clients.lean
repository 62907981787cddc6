import OpenOOC.Vma.Points

/-! Threads that call `S_block_steal_and_lock` and `S_block_unlock_and_return`
themselves: they keep the blocks that they steal, let go of their locks and take
them again, and give the blocks back while they hold the locks. -/

namespace OpenOOC.Vma

open LockMachine

variable {Tid : Type}

/-! ### The machine -/

/-- What a client is doing: nothing, taking or letting go of the lock of a block
that it has stolen, or being inside one of the two functions. -/
inductive Doing (Tid : Type)
  | rest
  | getBlock (b : ℕ)
  | letBlock (b : ℕ)
  | run (p : Pc Tid)
  deriving DecidableEq

structure Client (Tid : Type) where
  own : List ℕ
  locked : List ℕ
  now : Doing Tid
  deriving DecidableEq

inductive ClientInput
  | steal
  | lock (b : ℕ)
  | unlock (b : ℕ)
  | giveBack (b : ℕ)
  | code (i : Input)

namespace Client

/-- The client goes on at `p`, or has returned from the function. A stolen block is
locked when `S_block_steal_and_lock` returns. -/
def resume (c : Client Tid) : Pc Tid → Client Tid
  | .allocGetMpoolNew b => { own := b :: c.own, locked := b :: c.locked, now := .rest }
  | .allocReturn _ => { c with now := .rest }
  | .idle => { c with now := .rest }
  | p => { c with now := .run p }

def letGo (c : Client Tid) : LockId Tid → Client Tid
  | .block b => { c with locked := c.locked.filter (· ≠ b) }
  | _ => c

def Keeps (c : Client Tid) (ℓ : LockId Tid) : Prop := ∃ b ∈ c.locked, ℓ = .block b

def Holds (t : Tid) (c : Client Tid) (ℓ : LockId Tid) : Prop :=
  c.Keeps ℓ ∨ ∃ p, c.now = .run p ∧ Vma.Holds t p ℓ

end Client

def clientInstr (t : Tid) (c : Client Tid) : Instr (LockId Tid) (Client Tid) :=
  match c.now with
  | .rest => .code
  | .getBlock b => .get (.block b) { c with locked := b :: c.locked, now := .rest }
  | .letBlock b => .drop (.block b) { c.letGo (.block b) with now := .rest }
  | .run p =>
    match instr t p with
    | .get ℓ p' => .get ℓ (c.resume p')
    | .drop ℓ p' => .drop ℓ ((c.letGo ℓ).resume p')
    | .code => .code

def ClientInputOk (c : Client Tid) (m : Mem Tid) (i : ClientInput) : Prop :=
  match c.now, i with
  | .rest, .steal => True
  | .rest, .lock b => b ∈ c.own ∧ b ∉ c.locked
  | .rest, .unlock b => b ∈ c.locked
  | .rest, .giveBack b => b ∈ c.locked
  | .run p, .code i => InputOk p m i
  | _, _ => False

variable [DecidableEq Tid]

def clientCode (Λ : Layout) (t : Tid) (c : Client Tid) (m : Mem Tid) (i : ClientInput) :
    Option (Mem Tid × Client Tid) :=
  match c.now, i with
  | .rest, .steal => some (m, { c with now := .run .stealGetGpool })
  | .rest, .lock b => some (m, { c with now := .getBlock b })
  | .rest, .unlock b => some (m, { c with now := .letBlock b })
  | .rest, .giveBack b =>
    if b ∈ c.locked then
      some (m, ⟨c.own.filter (· ≠ b), c.locked.filter (· ≠ b), .run (.returnRead b)⟩)
    else none
  | .run p, .code i => (code Λ t p m i).map fun r => (r.1, c.resume r.2)
  | _, _ => none

def clients (Tid : Type) [DecidableEq Tid] (Λ : Layout) :
    Machine Tid (LockId Tid) (Client Tid) (Mem Tid) ClientInput where
  instr := clientInstr
  input := ClientInputOk
  code := clientCode Λ
  reachable := LockMapped

abbrev ClientState (Tid : Type) := LockMachine.State Tid (LockId Tid) (Client Tid) (Mem Tid)

/-- Nothing is held from the system, and no client has stolen anything. -/
structure ClientsStart (s : ClientState Tid) : Prop where
  held : s.mem.held = []
  gpoolHead : s.mem.gpoolHead = none
  mpoolHead : ∀ t, s.mem.mpoolHead t = none
  lock : ∀ ℓ, s.lock ℓ = none
  pc : ∀ t, s.pc t = ⟨[], [], .rest⟩

/-- The client is about to return the last stolen block of a superblock. -/
def ClientEmpties (s : ClientState Tid) (t : Tid) : Prop :=
  ∃ b sb, (s.pc t).now = .run (.returnPush b sb) ∧ (s.mem.superblock sb).bctr = 1

/-! ### Locks -/

attribute [local simp] Client.Holds Client.Keeps

section

variable {t : Tid} {c : Client Tid} {p : Pc Tid} {ℓ k : LockId Tid}

omit [DecidableEq Tid]

theorem clientInstr_get {c' : Client Tid} (h : clientInstr t c = .get ℓ c') :
    (∃ b, c.now = .getBlock b ∧ ℓ = .block b ∧
      c' = { c with locked := b :: c.locked, now := .rest }) ∨
      ∃ p p', c.now = .run p ∧ instr t p = .get ℓ p' ∧ c' = c.resume p' := by
  unfold clientInstr at h
  split at h
  · cases h
  · rename_i b hn
    cases h
    exact Or.inl ⟨b, hn, rfl, rfl⟩
  · cases h
  · rename_i p hn
    split at h <;> cases h
    rename_i p' hp
    exact Or.inr ⟨p, p', hn, hp, rfl⟩

theorem clientInstr_drop {c' : Client Tid} (h : clientInstr t c = .drop ℓ c') :
    (∃ b, c.now = .letBlock b ∧ ℓ = .block b ∧ c' = { c.letGo (.block b) with now := .rest }) ∨
      ∃ p p', c.now = .run p ∧ instr t p = .drop ℓ p' ∧ c' = (c.letGo ℓ).resume p' := by
  unfold clientInstr at h
  split at h
  · cases h
  · cases h
  · rename_i b hn
    cases h
    exact Or.inl ⟨b, hn, rfl, rfl⟩
  · rename_i p hn
    split at h <;> cases h
    rename_i p' hp
    exact Or.inr ⟨p, p', hn, hp, rfl⟩

theorem keeps_letGo : (c.letGo ℓ).Keeps k ↔ k ≠ ℓ ∧ c.Keeps k := by
  cases ℓ with
  | block b =>
    simp only [Client.letGo, Client.Keeps, List.mem_filter, decide_eq_true_eq]
    constructor
    · rintro ⟨x, ⟨hx, hne⟩, rfl⟩
      exact ⟨fun h => hne (LockId.block.inj h), x, hx, rfl⟩
    · rintro ⟨hne, x, hx, rfl⟩
      exact ⟨x, ⟨hx, fun h => hne (by rw [h])⟩, rfl⟩
  | _ =>
    simp only [Client.letGo, Client.Keeps]
    refine ⟨fun h => ⟨?_, h⟩, And.right⟩
    obtain ⟨x, -, rfl⟩ := h
    nofun

theorem holds_run (h : c.now = .run p) : c.Holds t k ↔ c.Keeps k ∨ Holds t p k := by
  simp [h]

theorem holds_resume : (c.resume p).Holds t k ↔ c.Keeps k ∨ Holds t p k := by
  cases p
  case allocGetMpoolNew b => simp [Client.resume, Holds, heldBy, or_comm]
  case allocReturn r => simp [Client.resume, Holds, heldBy]
  case idle => simp [Client.resume, Holds, heldBy]
  all_goals exact holds_run rfl

end

theorem clients_disciplined (Tid : Type) [DecidableEq Tid] (Λ : Layout) :
    Disciplined (clients Tid Λ) Client.Holds := by
  have hd := slab_disciplined Tid Λ
  refine ⟨fun t c ℓ c' hi k => ?_, fun t c ℓ c' hi k => ?_, fun t c m e m' c' _ hc k => ?_⟩
  · rcases clientInstr_get hi with ⟨b, hn, rfl, rfl⟩ | ⟨p, p', hn, hp, rfl⟩
    · simp [hn]
    · rw [holds_resume, holds_run hn, hd.get t p ℓ p' hp]
      tauto
  · rcases clientInstr_drop hi with ⟨b, hn, rfl, rfl⟩ | ⟨p, p', hn, hp, rfl⟩
    · have hk := keeps_letGo (c := c) (ℓ := .block b) (k := k)
      simpa [Client.letGo, hn] using hk
    · rw [holds_resume, keeps_letGo, holds_run hn, hd.drop t p ℓ p' hp]
      tauto
  · change clientCode Λ t c m e = _ at hc
    unfold clientCode at hc
    split at hc
    · rename_i hn
      cases hc
      simp [Holds, heldBy, hn]
    · rename_i hn
      cases hc
      simp [hn]
    · rename_i hn
      cases hc
      simp [hn]
    · rename_i b hn
      split_ifs at hc with hb
      cases hc
      by_cases hk : k = .block b
      · subst hk
        simp [Holds, heldBy, hb]
      · simp [Holds, heldBy, hn, hk]
        grind
    · rename_i p i hn
      obtain ⟨⟨m'', p'⟩, hr, h⟩ := Option.map_eq_some_iff.mp hc
      cases h
      rw [holds_resume, holds_run hn, Vma.Holds, heldBy_next t (code_next hr)]
      rfl
    · cases hc

end OpenOOC.Vma
