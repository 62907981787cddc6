import OpenOOC.Vma.Points
import OpenOOC.Vma.SuperSteps

/-! What each thread may rely on, and what holds of all threads together. -/

namespace OpenOOC.Vma

open LockMachine

variable {Tid : Type} {Λ : Layout} {t : Tid} {m m' : Mem Tid} {p p' : Pc Tid}

structure Local (Λ : Layout) (m : Mem Tid) (g : Ghost Tid) (t : Tid) (p : Pc Tid) : Prop where
  block : ∀ b, p.block = some b → IsBlock m b ∧ p.BlockOk t (g.place b) (g.vl b).length
  super : ∀ s, p.super = some s → s ∈ m.held ∧ p.SuperOk (g.stage s) (m.superblock s).bctr
  pair : ∀ b s, p.pair = some (b, s) → s ∈ m.held ∧ b ∈ blocksOf s
  flight : ∀ v, p.flight = some v → p.block = some (sVma2block v) ∧
    v ∈ slotsOf Λ.toSizes (sVma2block v) ∧ v ∉ g.vl (sVma2block v) ∧ v ∉ m.live
  top : ∀ s, p.top = some s → g.gl.head? = some s
  first : ∀ s b, p.first = some (s, b) → (g.fl s).head? = some b
  fills : p.Fills → m.init t = true

/-- The threads together: whatever is being moved is moved by one of them, and a
struct that is on no list is live, or on its way. -/
structure Threads (Λ : Layout) (m : Mem Tid) (g : Ghost Tid) (pc : Tid → Pc Tid) : Prop where
  loc : ∀ t, Local Λ m g t (pc t)
  moved : ∀ b, IsBlock m b → (g.place b).Transient → ∃ t, (pc t).moves = some b
  fresh : ∀ s ∈ m.held, g.stage s = .fresh → ∃ t, (pc t).top = some s
  relist : ∀ s ∈ m.held, g.stage s = .relist → ∃ t, (pc t).relists = some s
  putting : ∀ s ∈ m.held, g.stage s = .putting ∨ g.stage s = .detached → ∃ t, (pc t).puts = some s
  puts : ∀ t t' s, (pc t).puts = some s → (pc t').puts = some s → t = t'
  flight : ∀ t t' v, (pc t).flight = some v → (pc t').flight = some v → t = t'
  nodup : m.live.Nodup
  live : ∀ v ∈ m.live, IsBlock m (sVma2block v) ∧ v ∈ slotsOf Λ.toSizes (sVma2block v) ∧
    v ∉ g.vl (sVma2block v)
  out : ∀ b, IsBlock m b → ∀ v ∈ slotsOf Λ.toSizes b, v ∉ g.vl b →
    v ∈ m.live ∨ ∃ t, (pc t).flight = some v

def Inv (Λ : Layout) (s : State Tid) : Prop :=
  Owned Holds s ∧ ∃ g, Rep Λ s.mem g ∧ Threads Λ s.mem g s.pc

/-- The steps that go wrong, by what the other threads are about to do:
a superblock is stolen from, or freed, while another thread gives it back, or
still has to let go of one of its locks; a block leaves the list of a pool whose
thread has already chosen it; a pool's head is overwritten although a block has
been put there since the thread read it. -/
inductive Race (s : State Tid) (t : Tid) : Prop
  | steal {sb : ℕ} {t' : Tid} (h : s.pc t = .stealGetSuperblock sb) (h' : (s.pc t').puts = some sb)
  | unlink {b : ℕ} {p : Tid} (h : s.pc t = .freeUnlink b p) (h' : s.pc p = .allocGetBlock b)
  | take {b v : ℕ} (h : s.pc t = .allocTake b) (hv : (s.mem.block b).head = some v)
      (hlast : s.mem.vmNext v = none) (h' : s.mem.mpoolHead t ≠ some b)
  | push {b : ℕ} (h : s.pc t = .allocPush b) (h' : s.mem.mpoolHead t ≠ none)
  | sysFree {sb b : ℕ} {t' : Tid} (h : s.pc t = .putSysFree sb)
    (h' : s.pc t' = .returnLetBlock b sb)

/-! ### Lock operations -/

section

variable {g g' : Ghost Tid} {lock : LockId Tid → Option Tid} {pc : Tid → Pc Tid} {b s : ℕ}

/-- What a thread works on does not change with its locks. -/
theorem lock_tokens {ℓ : LockId Tid} (h : instr t p = .get ℓ p' ∨ instr t p = .drop ℓ p') :
    p'.moves = p.moves ∧ p'.top = p.top ∧ p'.relists = p.relists ∧ p'.puts = p.puts ∧
      p'.flight = p.flight := by
  rcases h with h | h <;> cases p <;> cases h <;> exact ⟨rfl, rfl, rfl, rfl, rfl⟩

theorem exists_update [DecidableEq Tid] {f : Pc Tid → Option ℕ} {x : ℕ}
    (h : ∃ t', f (pc t') = some x)
    (hn : f (pc t) = some x → f p' = some x) : ∃ t', f (Function.update pc t p' t') = some x := by
  obtain ⟨t', ht'⟩ := h
  by_cases htt : t' = t
  · subst htt
    exact ⟨t', by rw [Function.update_self]; exact hn ht'⟩
  · exact ⟨t', by rwa [Function.update_of_ne htt]⟩

/-- A thread that goes on without a change keeps what it has. -/
theorem Threads.move [DecidableEq Tid] (ht : Threads Λ m g pc) (hloc : Local Λ m g t p')
    (hmoves : p'.moves = (pc t).moves) (htop : ∀ x, (pc t).top = some x → p'.top = some x)
    (hrel : p'.relists = (pc t).relists) (hputs : p'.puts = (pc t).puts)
    (hflight : p'.flight = (pc t).flight) : Threads Λ m g (Function.update pc t p') := by
  have hold : ∀ (f : Pc Tid → Option ℕ), f p' = f (pc t) →
      ∀ t', f (Function.update pc t p' t') = f (pc t') := by
    intro f hf t'
    by_cases htt : t' = t
    · subst htt
      rw [Function.update_self, hf]
    · rw [Function.update_of_ne htt]
  refine ⟨fun t' => ?_, ?_, fun s hs hσ => exists_update (ht.fresh s hs hσ) (htop s), ?_, ?_, ?_,
    ?_, ht.nodup,
    ht.live, ?_⟩
  · by_cases htt : t' = t
    · subst htt
      rwa [Function.update_self]
    · rw [Function.update_of_ne htt]
      exact ht.loc t'
  · simpa only [hold _ hmoves] using ht.moved
  · simpa only [hold _ hrel] using ht.relist
  · simpa only [hold _ hputs] using ht.putting
  · simpa only [hold _ hputs] using ht.puts
  · simpa only [hold _ hflight] using ht.flight
  · simpa only [hold _ hflight] using ht.out

/-- A block whose lock is free is not being moved. -/
theorem Threads.settled (ht : Threads Λ m g pc) (ho : Owned Holds ⟨m, lock, pc⟩) (hb : IsBlock m b)
    (hl : lock (.block b) = none) : ¬ (g.place b).Transient := fun h => by
  obtain ⟨t, hm⟩ := ht.moved b hb h
  exact ho.not_held (t := t) hl (Pc.moves_holds hm)

theorem Threads.settled_super (ht : Threads Λ m g pc) (hr : Rep Λ m g)
    (ho : Owned Holds ⟨m, lock, pc⟩)
    (hs : s ∈ m.held) (hb : b ∈ blocksOf s) (hp : g.place b ≠ .free)
    (hl : lock (.superblock s) = none) :
    g.stage s = .listed ∨ g.stage s = .off := by
  have hpos := hr.bctr_pos hs hb hp
  have hstage := (hr.super s hs).stage
  cases hσ : g.stage s with
  | listed => exact Or.inl rfl
  | off => exact Or.inr rfl
  | relist =>
    obtain ⟨t, hm⟩ := ht.relist s hs hσ
    exact absurd (Pc.relists_holds hm) (ho.not_held (t := t) hl)
  | _ =>
    have := Stage.bctr_zero hstage (by simp [hσ])
    omega

theorem Threads.get [DecidableEq Tid] {ℓ : LockId Tid} (ht : Threads Λ m g pc) (hr : Rep Λ m g)
    (ho : Owned Holds ⟨m, lock, pc⟩) (hn : ¬ Race ⟨m, lock, pc⟩ t)
    (hi : instr t (pc t) = .get ℓ p') (hl : lock ℓ = none) :
    Threads Λ m g (Function.update pc t p') := by
  obtain ⟨h1, h2, h3, h4, h5⟩ := lock_tokens (Or.inl hi)
  refine ht.move ?_ h1 (fun x hx => h2.trans hx) h3 h4 h5
  have h := ht.loc t
  generalize hp : pc t = p at hi h
  cases p <;> cases hi
  case allocGetBlock b =>
    refine ⟨fun c hc => ?_, h.super, h.pair, h.flight, h.top, h.first, h.fills⟩
    obtain ⟨hb, hq⟩ := h.block c hc
    cases hc
    refine ⟨hb, hq.resolve_right fun he => ?_⟩
    exact ht.settled ho hb hl (by rw [he]; trivial)
  case freeGetBlock b v =>
    refine ⟨fun c hc => ?_, h.super, h.pair, h.flight, h.top, h.first, h.fills⟩
    obtain ⟨hb, -⟩ := h.block c hc
    obtain ⟨he, hv, hvn, -⟩ := h.flight v rfl
    cases hc
    cases he
    have hset := ht.settled ho hb hl
    obtain ⟨s, hs, hbs⟩ := id hb
    have hlen := (hr.block s hs _ hbs).len
    have hlt := hr.vl_lt hb hv hvn
    refine ⟨hb, ?_⟩
    cases hq : g.place (sVma2block v) <;> rw [hq] at hlen hset <;>
      simp only [Place.Len, Place.Transient, not_true_eq_false] at hlen hset
    · omega
    · exact ⟨_, Or.inl rfl⟩
    · exact ⟨_, Or.inr rfl⟩
  case stealGetSuperblock s =>
    refine ⟨h.block, fun x hx => ?_, h.pair, h.flight, h.top, h.first, h.fills⟩
    cases hx
    have hsg := (hr.gpool.mem_iff s).mp (List.mem_of_head? (h.top s rfl))
    refine ⟨hsg.1, ?_⟩
    cases hσ : g.stage s with
    | fresh => exact Or.inl rfl
    | listed => exact Or.inr rfl
    | putting =>
      obtain ⟨t', ht'⟩ := ht.putting s hsg.1 (Or.inl hσ)
      exact absurd (Race.steal hp ht') hn
    | _ => rw [hσ] at hsg; exact absurd hsg.2 (by simp [Stage.Linked])
  case returnGetSuperblock b s =>
    refine ⟨h.block, fun x hx => ?_, h.pair, h.flight, h.top, h.first, h.fills⟩
    cases hx
    obtain ⟨hs, hb⟩ := h.pair b s rfl
    refine ⟨hs, ht.settled_super hr ho hs hb ?_ hl⟩
    rw [show g.place b = .returning from (h.block b rfl).2]
    simp
  all_goals exact ⟨h.block, h.super, h.pair, h.flight, h.top, h.first, h.fills⟩

theorem Threads.drop [DecidableEq Tid] {ℓ : LockId Tid} (ht : Threads Λ m g pc)
    (hi : instr t (pc t) = .drop ℓ p') : Threads Λ m g (Function.update pc t p') := by
  obtain ⟨h1, h2, h3, h4, h5⟩ := lock_tokens (Or.inr hi)
  refine ht.move ?_ h1 (fun x hx => h2.trans hx) h3 h4 h5
  have h := ht.loc t
  generalize hp : pc t = p at hi h
  cases p <;> cases hi
  case allocLetBlock b v =>
    refine ⟨fun c hc => ?_, h.super, h.pair, fun w hw => ?_, h.top, h.first, h.fills⟩
    · have he := (h.flight v rfl).1
      cases hc
      cases he
      exact h.block _ rfl
    · obtain ⟨he, hw'⟩ := h.flight w hw
      cases hw
      exact ⟨rfl, hw'⟩
  case returnLetBlockEmpty b s =>
    exact ⟨(fun _ hc => nomatch hc), h.super, (fun _ _ hc => nomatch hc), (fun _ hc => nomatch hc),
      h.top, h.first,
      h.fills⟩
  all_goals first
    | exact ⟨h.block, h.super, h.pair, h.flight, h.top, h.first, h.fills⟩
    | exact ⟨h.block, (fun _ hc => nomatch hc), h.pair, h.flight, h.top, h.first, h.fills⟩
    | exact ⟨h.block, (fun _ hc => nomatch hc), (fun _ _ hc => nomatch hc), h.flight, h.top,
        h.first, h.fills⟩
    | exact ⟨(fun _ hc => nomatch hc), h.super, (fun _ _ hc => nomatch hc),
        (fun _ hc => nomatch hc), h.top,
        h.first, (fun hc => nomatch hc)⟩

end

end OpenOOC.Vma
