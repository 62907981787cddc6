import OpenOOC.Vma.Clients
import OpenOOC.Vma.Schedules
import OpenOOC.Vma.Threads

/-! Stealing and returning blocks takes the locks of the global list, a superblock
and a block in opposite orders. There is no deadlock as long as no superblock is
given back: whoever asks against the order asks for a lock whose holder is not
waiting. -/

namespace OpenOOC.Vma

open LockMachine

variable {Tid : Type} {Λ : Layout} {t t' : Tid} {m m' : Mem Tid} {g g' : Ghost Tid}
  {c c' : Client Tid}
  {lock : LockId Tid → Option Tid} {pc : Tid → Client Tid} {b x : ℕ}

/-! ### What the clients rely on -/

/-- The points of the two functions, as long as no superblock is given back. -/
def Pc.Handles : Pc Tid → Prop
  | stealGetGpool => True
  | stealFind => True
  | stealLetGpoolFail => True
  | stealGetSuperblock _ => True
  | stealRead _ => True
  | stealGetBlock _ _ => True
  | stealTake _ _ => True
  | stealLetSuperblock _ _ => True
  | stealLetGpool _ => True
  | returnRead _ => True
  | returnGetSuperblock _ _ => True
  | returnPush _ _ => True
  | returnGetGpool _ _ => True
  | returnPrepend _ _ => True
  | returnLetGpool _ _ => True
  | returnCheck _ _ => True
  | returnLetSuperblock _ _ => True
  | returnLetBlock _ _ => True
  | _ => False

structure Point (m : Mem Tid) (g : Ghost Tid) (p : Pc Tid) : Prop where
  handles : p.Handles
  moves : ∀ b, p.moves = some b → IsBlock m b ∧ g.place b = .stolen
  free : ∀ b, p.block = some b → p.moves = none → IsBlock m b ∧ g.place b = .free
  super : ∀ x, p.super = some x → x ∈ m.held ∧ p.SuperOk (g.stage x) (m.superblock x).bctr
  pair : ∀ b x, p.pair = some (b, x) → x ∈ m.held ∧ b ∈ blocksOf x
  top : ∀ x, p.top = some x → g.gl.head? = some x
  first : ∀ x b, p.first = some (x, b) → (g.fl x).head? = some b

namespace Client

def Has (c : Client Tid) (b : ℕ) : Prop := b ∈ c.own ∨ ∃ p, c.now = .run p ∧ p.moves = some b

def relists (c : Client Tid) : Option ℕ :=
  match c.now with
  | .run p => p.relists
  | _ => none

/-- What a client relies on. -/
structure Ok (m : Mem Tid) (g : Ghost Tid) (c : Client Tid) : Prop where
  own : ∀ b ∈ c.own, IsBlock m b ∧ g.place b = .stolen
  locked : ∀ b ∈ c.locked, b ∈ c.own
  get : ∀ b, c.now = .getBlock b → b ∈ c.own ∧ b ∉ c.locked
  letGo : ∀ b, c.now = .letBlock b → b ∈ c.locked
  point : ∀ p, c.now = .run p → Point m g p
  moves : ∀ p b, c.now = .run p → p.moves = some b → b ∉ c.own

theorem Ok.has (h : c.Ok m g) (hb : c.Has b) : IsBlock m b ∧ g.place b = .stolen := by
  rcases hb with hb | ⟨p, hp, hb⟩
  · exact h.own b hb
  · exact (h.point p hp).moves b hb

end Client

/-- The clients together: each stolen block is one client's, a full superblock is
put back on the list by one of them, and no superblock is given back. -/
structure ClientsOk (m : Mem Tid) (g : Ghost Tid) (pc : Tid → Client Tid) : Prop where
  ok : ∀ t, (pc t).Ok m g
  apart : ∀ t t' b, (pc t).Has b → (pc t').Has b → t = t'
  relist : ∀ x ∈ m.held, g.stage x = .relist → ∃ t, (pc t).relists = some x
  kept : ∀ x ∈ m.held, g.stage x ≠ .putting ∧ g.stage x ≠ .detached

def ClientsInv (Λ : Layout) (s : ClientState Tid) : Prop :=
  Owned Client.Holds s ∧ ∃ g, Rep Λ s.mem g ∧ ClientsOk s.mem g s.pc

/-! ### Holding -/

section

variable {p : Pc Tid}

theorem Pc.Handles.block_holds (h : p.Handles) (hb : p.block = some b) : Holds t p (.block b) := by
  cases p <;> first | exact h.elim | cases hb <;> simp [Holds, heldBy]

theorem Pc.Handles.super_holds (h : p.Handles) (hx : p.super = some x) :
    Holds t p (.superblock x) := by
  cases p <;> first | exact h.elim | cases hx <;> simp [Holds, heldBy]

/-- A client that holds the lock of a block has the block, has just returned it, or
is about to take it from the front of a superblock's list. -/
theorem Pc.Handles.holds_block (h : p.Handles) (hb : Holds t p (.block b)) :
    p.moves = some b ∨ p.block = some b ∧ p.moves = none ∨ ∃ x, p.first = some (x, b) := by
  cases p <;> first | exact h.elim | simp_all [Holds, heldBy, Pc.moves, Pc.block, Pc.first]

theorem Client.run_holds {ℓ : LockId Tid} (hp : c.now = .run p) (h : Vma.Holds t p ℓ) :
    c.Holds t ℓ := Or.inr ⟨p, hp, h⟩

theorem Client.relists_holds (h : c.relists = some x) : c.Holds t (.superblock x) := by
  unfold Client.relists at h
  split at h
  · rename_i p hp
    exact Client.run_holds hp (Pc.relists_holds h)
  · cases h

end

/-! ### Steps -/

/-- A client goes on without a change to memory. -/
theorem ClientsOk.move [DecidableEq Tid] (hc : ClientsOk m g pc) (hok : c'.Ok m g)
    (hhas : ∀ b, c'.Has b → (pc t).Has b)
    (hrel : ∀ x, (pc t).relists = some x → c'.relists = some x) :
    ClientsOk m g (Function.update pc t c') := by
  have hold : ∀ t' b, (Function.update pc t c' t').Has b → (pc t').Has b := by
    intro t' b h
    by_cases htt : t' = t
    · subst htt
      rw [Function.update_self] at h
      exact hhas b h
    · rwa [Function.update_of_ne htt] at h
  refine ⟨fun t' => ?_, fun t₁ t₂ b h₁ h₂ => hc.apart t₁ t₂ b (hold t₁ b h₁) (hold t₂ b h₂),
    fun x hx hσ => ?_, hc.kept⟩
  · by_cases htt : t' = t
    · subst htt
      rwa [Function.update_self]
    · rw [Function.update_of_ne htt]
      exact hc.ok t'
  · obtain ⟨t', ht'⟩ := hc.relist x hx hσ
    by_cases htt : t' = t
    · subst htt
      exact ⟨t', by rw [Function.update_self]; exact hrel x ht'⟩
    · exact ⟨t', by rwa [Function.update_of_ne htt]⟩

/-- A client that holds a superblock and one of its blocks changes these. -/
theorem ClientsOk.super_step [DecidableEq Tid] (hc : ClientsOk m g pc)
    (ho : Owned Client.Holds ⟨m, lock, pc⟩)
    (hst : SuperStep m g m' g' b x) (hsup : (pc t).Holds t (.superblock x))
    (hblk : (pc t).Holds t (.block b))
    (hgl : g'.gl = g.gl ∨ (pc t).Holds t .gpool) (hother : ∀ t', t' ≠ t → ¬ (pc t').Has b)
    (hok : c'.Ok m' g') (hhas : ∀ d, c'.Has d → (pc t).Has d ∨ d = b)
    (hrel : g'.stage x = .relist → c'.relists = some x)
    (hrelt : ∀ y, (pc t).relists = some y → y = x)
    (hkept : g'.stage x ≠ .putting ∧ g'.stage x ≠ .detached) :
    ClientsOk m' g' (Function.update pc t c') := by
  obtain ⟨⟨sb, blk, gh, hm⟩, hvl, hpl, hplace, hfl, hstage, hbctr, -⟩ := hst
  have hheld : m'.held = m.held := by rw [hm]
  have hib : ∀ d, IsBlock m' d ↔ IsBlock m d := fun d => isBlock_congr hheld
  have hself : ∀ t' (ℓ : LockId Tid), (pc t').Holds t' ℓ → (pc t).Holds t ℓ → t' = t :=
    fun t' ℓ h h' => ho.unique h h'
  refine ⟨fun t' => ?_, fun t₁ t₂ d h₁ h₂ => ?_, fun y hy hσ => ?_, fun y hy => ?_⟩
  · by_cases htt : t' = t
    · subst htt
      rwa [Function.update_self]
    rw [Function.update_of_ne htt]
    have h := hc.ok t'
    have hplace' : ∀ d, (pc t').Has d → IsBlock m' d ∧ g'.place d = .stolen := fun d hd => by
      rw [hib, hplace d fun he => hother t' htt (he ▸ hd)]
      exact h.has hd
    refine ⟨fun d hd => hplace' d (Or.inl hd), h.locked, h.get, h.letGo, fun p hp => ?_, h.moves⟩
    have hP := h.point p hp
    refine ⟨hP.handles, fun d hd => hplace' d (Or.inr ⟨p, hp, hd⟩), fun d hd hn => ?_,
      fun y hy => ?_, fun d y hy => ?_,
      fun y hy => ?_, fun y d hy => ?_⟩
    · have hdb : d ≠ b := by
        rintro rfl
        exact htt (hself t' _ (Client.run_holds hp (hP.handles.block_holds hd)) hblk)
      rw [hib, hplace d hdb]
      exact hP.free d hd hn
    · have hyx : y ≠ x := by
        rintro rfl
        exact htt (hself t' _ (Client.run_holds hp (hP.handles.super_holds hy)) hsup)
      rw [hheld, hstage y hyx, hbctr y hyx]
      exact hP.super y hy
    · rw [hheld]
      exact hP.pair d y hy
    · rcases hgl with hgl | hg
      · rw [hgl]
        exact hP.top y hy
      · exact absurd (hself t' _ (Client.run_holds hp (Pc.top_holds hy)) hg) htt
    · have hyx : y ≠ x := by
        rintro rfl
        exact htt (hself t' _ (Client.run_holds hp (Pc.first_holds hy).2) hsup)
      rw [hfl y hyx]
      exact hP.first y d hy
  · have hown : ∀ t', t' ≠ t → (Function.update pc t c' t').Has d → (pc t').Has d ∧ ¬ c'.Has d := by
      intro t' htt h
      rw [Function.update_of_ne htt] at h
      refine ⟨h, fun hd => ?_⟩
      rcases hhas d hd with h' | rfl
      · exact htt (hc.apart t' t d h h')
      · exact hother t' htt h
    by_cases e₁ : t₁ = t <;> by_cases e₂ : t₂ = t
    · rw [e₁, e₂]
    · rw [e₁, Function.update_self] at h₁
      exact absurd h₁ (hown t₂ e₂ h₂).2
    · rw [e₂, Function.update_self] at h₂
      exact absurd h₂ (hown t₁ e₁ h₁).2
    · exact hc.apart t₁ t₂ d (hown t₁ e₁ h₁).1 (hown t₂ e₂ h₂).1
  · by_cases hyx : y = x
    · subst hyx
      exact ⟨t, by rw [Function.update_self]; exact hrel hσ⟩
    · rw [hstage y hyx] at hσ
      obtain ⟨t', ht'⟩ := hc.relist y (hheld ▸ hy) hσ
      refine ⟨t', ?_⟩
      rw [Function.update_of_ne]
      · exact ht'
      · rintro rfl
        exact hyx (hrelt y ht')
  · by_cases hyx : y = x
    · subst hyx
      exact hkept
    · rw [hstage y hyx]
      exact hc.kept y (hheld ▸ hy)

/-! ### Lock operations -/

theorem Client.Ok.run {p : Pc Tid} (h : c.Ok m g) (hp : Point m g p)
    (hm : ∀ b, p.moves = some b → b ∉ c.own) :
    ({ c with now := .run p } : Client Tid).Ok m g :=
  ⟨h.own, h.locked, nofun, nofun, fun q hq =>
    by cases hq; exact hp, fun q b hq hb => by cases hq; exact hm b hb⟩

theorem Client.Ok.rest (h : c.Ok m g) : ({ c with now := .rest } : Client Tid).Ok m g :=
  ⟨h.own, h.locked, nofun, nofun, nofun, nofun⟩

/-- A client has let a lock go, and is done. -/
theorem Client.Ok.letGo_rest (h : c.Ok m g) (ℓ : LockId Tid) :
    ({ c.letGo ℓ with now := .rest } : Client Tid).Ok m g := by
  cases ℓ with
  | block b => exact ⟨h.own, fun d hd => h.locked d (List.mem_filter.mp hd).1, nofun, nofun, nofun,
      nofun⟩
  | _ => exact h.rest

/-- A superblock with a stolen block is in use, if its lock is free. -/
theorem ClientsOk.settled (hc : ClientsOk m g pc) (hr : Rep Λ m g)
    (ho : Owned Client.Holds ⟨m, lock, pc⟩)
    (hx : x ∈ m.held) (hb : b ∈ blocksOf x) (hq : g.place b ≠ .free)
    (hl : lock (.superblock x) = none) :
    g.stage x = .listed ∨ g.stage x = .off := by
  have hpos := hr.bctr_pos hx hb hq
  have hstage := (hr.super x hx).stage
  cases hσ : g.stage x with
  | listed => exact Or.inl rfl
  | off => exact Or.inr rfl
  | relist =>
    obtain ⟨t, h⟩ := hc.relist x hx hσ
    exact absurd (Client.relists_holds h) (ho.not_held (t := t) hl)
  | _ =>
    have := Stage.bctr_zero hstage (by simp [hσ])
    omega

theorem Point.get {p p' : Pc Tid} {ℓ : LockId Tid} (hP : Point m g p) (hc : ClientsOk m g pc)
    (hr : Rep Λ m g)
    (ho : Owned Client.Holds ⟨m, lock, pc⟩) (hi : instr t p = .get ℓ p') (hl : lock ℓ = none) :
    Point m g p' := by
  have hh := hP.handles
  cases p <;> cases hi <;> try exact hh.elim
  case stealGetGpool => exact ⟨trivial, nofun, nofun, nofun, nofun, nofun, nofun⟩
  case stealGetSuperblock x =>
    refine ⟨trivial, nofun, nofun, fun y hy => ?_, nofun, hP.top, nofun⟩
    cases hy
    obtain ⟨hx, hlink⟩ := (hr.gpool.mem_iff x).mp (List.mem_of_head? (hP.top x rfl))
    have hk := hc.kept x hx
    refine ⟨hx, ?_⟩
    cases hσ : g.stage x <;> rw [hσ] at hlink hk <;> simp_all [Stage.Linked, Pc.SuperOk]
  case stealGetBlock x b => exact ⟨trivial, nofun, nofun, hP.super, nofun, hP.top, hP.first⟩
  case returnGetSuperblock b x =>
    refine ⟨trivial, hP.moves, nofun, fun y hy => ?_, hP.pair, nofun, nofun⟩
    cases hy
    obtain ⟨hx, hb⟩ := hP.pair b x rfl
    exact ⟨hx, hc.settled hr ho hx hb (by simp [(hP.moves b rfl).2]) hl⟩
  case returnGetGpool b x => exact ⟨trivial, nofun, hP.free, hP.super, hP.pair, nofun, nofun⟩

section

variable [DecidableEq Tid]

theorem ClientsOk.run (hc : ClientsOk m g pc) {p p' : Pc Tid} (hp : (pc t).now = .run p)
    (hP : Point m g p')
    (hm : p'.moves = p.moves) (hrel : p'.relists = p.relists) :
    ClientsOk m g (Function.update pc t { pc t with now := .run p' }) := by
  refine hc.move ((hc.ok t).run hP fun b hb => (hc.ok t).moves p b hp (hm ▸ hb)) (fun b hb => ?_)
    fun x hx => ?_
  · refine hb.imp_right fun ⟨q, hq, hqb⟩ => ⟨p, hp, ?_⟩
    cases hq
    exact hm ▸ hqb
  · simp only [Client.relists, hp] at hx ⊢
    rw [hrel, hx]

theorem ClientsOk.leave (hc : ClientsOk m g pc) {p : Pc Tid} (hp : (pc t).now = .run p)
    (hok : c'.Ok m g)
    (hown : ∀ b ∈ c'.own, b ∈ (pc t).own ∨ p.moves = some b) (hrest : c'.now = .rest)
    (hrel : p.relists = none) :
    ClientsOk m g (Function.update pc t c') := by
  refine hc.move hok (fun b hb => ?_) fun x hx => ?_
  · rcases hb with hb | ⟨q, hq, -⟩
    · exact (hown b hb).imp_right fun h => ⟨p, hp, h⟩
    · rw [hrest] at hq
      cases hq
  · simp only [Client.relists, hp, hrel] at hx
    cases hx

theorem ClientsOk.get {ℓ : LockId Tid} (hc : ClientsOk m g pc) (hr : Rep Λ m g)
    (ho : Owned Client.Holds ⟨m, lock, pc⟩) (hi : clientInstr t (pc t) = .get ℓ c')
    (hl : lock ℓ = none) :
    ClientsOk m g (Function.update pc t c') := by
  have hok := hc.ok t
  rcases clientInstr_get hi with ⟨b, hn, rfl, rfl⟩ | ⟨p, p', hp, hip, rfl⟩
  · obtain ⟨hb, -⟩ := hok.get b hn
    refine hc.move ⟨hok.own, fun d hd => ?_, nofun, nofun, nofun, nofun⟩ (fun d hd => Or.inl ?_)
      fun x hx => ?_
    · rcases List.mem_cons.mp hd with rfl | hd
      · exact hb
      · exact hok.locked d hd
    · rcases hd with hd | ⟨q, hq, -⟩
      · exact hd
      · cases hq
    · simp only [Client.relists, hn] at hx
      cases hx
  · have hrun : (pc t).resume p' = { pc t with now := .run p' } := by
      cases p <;> cases hip <;> rfl
    obtain ⟨hmoves, -, hrel, -⟩ := lock_tokens (Or.inl hip)
    rw [hrun]
    exact hc.run hp ((hok.point p hp).get hc hr ho hip hl) hmoves hrel

theorem ClientsOk.drop_run {p p' : Pc Tid} {ℓ : LockId Tid} (hc : ClientsOk m g pc)
    (hp : (pc t).now = .run p)
    (hi : instr t p = .drop ℓ p') : ClientsOk m g
    (Function.update pc t (((pc t).letGo ℓ).resume p')) := by
  have hok := hc.ok t
  have hP := hok.point p hp
  have hh := hP.handles
  cases p <;> cases hi <;> try exact hh.elim
  case stealLetGpoolFail => exact hc.leave hp hok.rest (fun b hb => Or.inl hb) rfl rfl
  case stealLetSuperblock x b =>
    exact hc.run hp ⟨trivial, hP.moves, nofun, nofun, nofun, nofun, nofun⟩ rfl rfl
  case stealLetGpool b =>
    refine hc.leave hp ⟨fun d hd => ?_, fun d hd => ?_, nofun, nofun, nofun, nofun⟩
      (fun d hd => ?_) rfl rfl
    · rcases List.mem_cons.mp hd with rfl | hd
      · exact hP.moves _ rfl
      · exact hok.own d hd
    · rcases List.mem_cons.mp hd with rfl | hd
      · exact List.mem_cons_self
      · exact List.mem_cons_of_mem _ (hok.locked d hd)
    · rcases List.mem_cons.mp hd with rfl | hd
      · exact Or.inr rfl
      · exact Or.inl hd
  case returnLetGpool b x =>
    exact hc.run hp ⟨trivial, nofun, hP.free, hP.super, hP.pair, nofun, nofun⟩ rfl rfl
  case returnLetSuperblock b x =>
    exact hc.run hp ⟨trivial, nofun, hP.free, nofun, hP.pair, nofun, nofun⟩ rfl rfl
  case returnLetBlock b x =>
    exact hc.leave hp (hok.letGo_rest (.block b)) (fun d hd => Or.inl hd) rfl rfl

theorem ClientsOk.drop {ℓ : LockId Tid} (hc : ClientsOk m g pc)
    (hi : clientInstr t (pc t) = .drop ℓ c') :
    ClientsOk m g (Function.update pc t c') := by
  rcases clientInstr_drop hi with ⟨b, hn, rfl, rfl⟩ | ⟨p, p', hp, hip, rfl⟩
  · refine hc.move ((hc.ok t).letGo_rest (.block b)) (fun d hd => Or.inl ?_) fun x hx => ?_
    · rcases hd with hd | ⟨q, hq, -⟩
      · exact hd
      · cases hq
    · simp only [Client.relists, hn] at hx
      cases hx
  · exact hc.drop_run hp hip

/-! ### Code -/

/-- The code has a result that keeps the lists and the clients in order. -/
def Goes (Λ : Layout) (t : Tid) (pc : Tid → Client Tid) (r : Option (Mem Tid × Client Tid)) :
    Prop :=
  ∃ m' c' g', r = some (m', c') ∧ Rep Λ m' g' ∧ ClientsOk m' g' (Function.update pc t c')

section

variable (hr : Rep Λ m g) (hc : ClientsOk m g pc) (ho : Owned Client.Holds ⟨m, lock, pc⟩)

include hc

theorem ClientsOk.newSuperblock (ho : Owned Client.Holds ⟨m, lock, pc⟩)
    (hp : (pc t).now = .run .stealFind)
    (hf : Fresh m x) : ClientsOk (newSuperblock Λ.toSizes x m) (g.fresh Λ x)
      (Function.update pc t { pc t with now := .run (.stealGetSuperblock x) }) := by
  have hA : Apart Λ m g x := hf.apart
  have hhas : ∀ t' b, (Function.update pc t
      { pc t with now := .run (.stealGetSuperblock x) } t').Has b → (pc t').Has b := by
    intro t' b h
    by_cases htt : t' = t
    · subst htt
      rw [Function.update_self] at h
      rcases h with h | ⟨q, hq, hb⟩
      · exact Or.inl h
      · cases hq
        cases hb
    · rwa [Function.update_of_ne htt] at h
  have hplace : ∀ t' b, (pc t').Has b →
      IsBlock (OpenOOC.Vma.newSuperblock Λ.toSizes x m) b ∧ (g.fresh Λ x).place b = .stolen := by
    intro t' b hb
    obtain ⟨h1, h2⟩ := (hc.ok t').has hb
    exact ⟨hA.isBlock h1, by rw [hA.place b h1, h2]⟩
  have hgpool : Holds t .stealFind .gpool := by simp [Holds, heldBy]
  refine ⟨fun t' => ?_, fun t₁ t₂ b h₁ h₂ => hc.apart t₁ t₂ b (hhas t₁ b h₁) (hhas t₂ b h₂),
    fun y hy hσ => ?_, fun y hy => ?_⟩
  · by_cases htt : t' = t
    · subst htt
      rw [Function.update_self]
      have h := hc.ok t'
      refine ⟨fun b hb => hplace t' b (Or.inl hb), h.locked, nofun, nofun, fun p hp' => ?_,
        fun p b hp' hb => ?_⟩
      · cases hp'
        refine ⟨trivial, nofun, nofun, nofun, nofun, fun y hy => ?_, nofun⟩
        cases hy
        rfl
      · cases hp'
        cases hb
    · rw [Function.update_of_ne htt]
      have h := hc.ok t'
      refine ⟨fun b hb => hplace t' b (Or.inl hb), h.locked, h.get, h.letGo, fun p hp' => ?_,
        h.moves⟩
      have hP := h.point p hp'
      refine ⟨hP.handles, fun b hb => hplace t' b (Or.inr ⟨p, hp', hb⟩), fun b hb hn => ?_,
        fun y hy => ?_,
        fun b y hy => ?_, fun y hy => ?_, fun y b hy => ?_⟩
      · obtain ⟨h1, h2⟩ := hP.free b hb hn
        exact ⟨hA.isBlock h1, by rw [hA.place b h1, h2]⟩
      · obtain ⟨h1, h2⟩ := hP.super y hy
        exact ⟨by rw [hA.held]; simp [h1], by rwa [hA.stage y h1, hA.bctr y h1]⟩
      · obtain ⟨h1, h2⟩ := hP.pair b y hy
        exact ⟨by rw [hA.held]; simp [h1], h2⟩
      · exact absurd (ho.unique (Client.run_holds hp' (Pc.top_holds hy))
          (Client.run_holds hp hgpool)) htt
      · exact absurd (ho.unique (Client.run_holds hp' (Pc.first_holds hy).1)
          (Client.run_holds hp hgpool)) htt
  · rcases hA.held_cases hy with ⟨rfl, he⟩ | ⟨hym, he⟩
    · rw [he] at hσ
      cases hσ
    · obtain ⟨t', ht'⟩ := hc.relist y hym (he ▸ hσ)
      refine ⟨t', ?_⟩
      rw [Function.update_of_ne]
      · exact ht'
      · rintro rfl
        simp [Client.relists, hp, Pc.relists] at ht'
  · rcases hA.held_cases hy with ⟨rfl, he⟩ | ⟨hym, he⟩
    · simp [he]
    · rw [he]
      exact hc.kept y hym

include hr

theorem goes_rest {i : ClientInput} (hn : (pc t).now = .rest) (hi : ClientInputOk (pc t) m i) :
    Goes Λ t pc (clientCode Λ t (pc t) m i) := by
  have hok := hc.ok t
  have hrel : ∀ y, (pc t).relists ≠ some y := by simp [Client.relists, hn]
  have hstay : ∀ c' : Client Tid, c'.Ok m g → (∀ b, c'.Has b → (pc t).Has b) →
      ClientsOk m g (Function.update pc t c') :=
        fun c' h1 h2 => hc.move h1 h2 fun y hy => absurd hy (hrel y)
  unfold ClientInputOk at hi
  unfold clientCode
  rw [hn] at hi ⊢
  cases i with
  | steal =>
    refine ⟨m, _, g, rfl, hr, hstay _
      (hok.run ⟨trivial, nofun, nofun, nofun, nofun, nofun, nofun⟩ nofun) fun b hb => ?_⟩
    refine hb.imp_right fun ⟨q, hq, hqb⟩ => ?_
    cases hq
    cases hqb
  | lock b =>
    refine ⟨m, _, g, rfl, hr, hstay _ ⟨hok.own, hok.locked, fun d hd => ?_, nofun, nofun, nofun⟩
      fun d hd => ?_⟩
    · cases hd
      exact hi
    · refine hd.imp_right fun ⟨q, hq, _⟩ => ?_
      cases hq
  | unlock b =>
    refine ⟨m, _, g, rfl, hr, hstay _ ⟨hok.own, hok.locked, nofun, fun d hd => ?_, nofun, nofun⟩
      fun d hd => ?_⟩
    · cases hd
      exact hi
    · refine hd.imp_right fun ⟨q, hq, _⟩ => ?_
      cases hq
  | giveBack b =>
    have hb := hok.locked b hi
    refine ⟨m, _, g, if_pos hi, hr, hstay _
      ⟨fun d hd => ?_, fun d hd => ?_, nofun, nofun, fun p hp => ?_, fun p d hp hd => ?_⟩
      fun d hd => ?_⟩
    · exact hok.own d (List.mem_filter.mp hd).1
    · obtain ⟨h1, h2⟩ := List.mem_filter.mp hd
      exact List.mem_filter.mpr ⟨hok.locked d h1, h2⟩
    · cases hp
      refine ⟨trivial, fun d hd => ?_, nofun, nofun, nofun, nofun, nofun⟩
      cases hd
      exact hok.own b hb
    · cases hp
      cases hd
      simp
    · rcases hd with hd | ⟨q, hq, hqd⟩
      · exact Or.inl (List.mem_filter.mp hd).1
      · cases hq
        cases hqd
        exact Or.inl hb
  | code i => exact hi.elim

theorem goes_stealFind {r : Option ℕ} (ho : Owned Client.Holds ⟨m, lock, pc⟩)
    (hp : (pc t).now = .run .stealFind)
    (hf : ∀ x, r = some x → Fresh m x) :
    Goes Λ t pc (some ((stealFind Λ m r).1, (pc t).resume (stealFind Λ m r).2)) := by
  unfold stealFind
  cases hg : m.gpoolHead with
  | some x =>
    refine ⟨m, _, g, rfl, hr, hc.run hp ⟨trivial, nofun, nofun, nofun, nofun, fun y hy => ?_, nofun⟩
      rfl rfl⟩
    cases hy
    exact hr.gpool.head.symm.trans hg
  | none =>
    cases r with
    | none => exact ⟨m, _, g, rfl, hr, hc.run hp
        ⟨trivial, nofun, nofun, nofun, nofun, nofun, nofun⟩ rfl rfl⟩
    | some x => exact ⟨_, _, _, rfl, hr.newSuperblock hg (hf x rfl),
        hc.newSuperblock ho hp (hf x rfl)⟩

theorem goes_stealTake (ho : Owned Client.Holds ⟨m, lock, pc⟩)
    (hp : (pc t).now = .run (.stealTake x b)) :
    ∃ m' g', stealTake m x b = some (m', .stealLetSuperblock x b) ∧ Rep Λ m' g' ∧
      ClientsOk m' g' (Function.update pc t
        { pc t with now := .run (.stealLetSuperblock x b) }) := by
  have hok := hc.ok t
  have hP := hok.point _ hp
  obtain ⟨hx, hσ⟩ := hP.super x rfl
  change g.stage x = .fresh ∨ g.stage x = .listed at hσ
  have hfirst := hP.first x b rfl
  obtain ⟨m', g', he, hst, hb, hplace', hσ', hr'⟩ := hr.stealTake (hP.top x rfl) hfirst hσ
  obtain ⟨_, _, _, hm⟩ := id hst.mem
  have hheld : m'.held = m.held := by rw [hm]
  have hfree : g.place b = .free := (((hr.super x hx).mem_iff b).mp (List.mem_of_head? hfirst)).2
  have hnot : ∀ t', ¬ (pc t').Has b := fun t' h => by
    have := ((hc.ok t').has h).2
    rw [hfree] at this
    cases this
  have hown : ∀ d ∈ (pc t).own, d ≠ b := by
    rintro d hd rfl
    exact hnot t (Or.inl hd)
  refine ⟨m', g', he, hr', hc.super_step ho hst (Client.run_holds hp (by simp [Holds, heldBy]))
    (Client.run_holds hp (by simp [Holds, heldBy]))
    (Or.inr (Client.run_holds hp (by simp [Holds, heldBy])))
    (fun t' _ => hnot t') ?_ (fun d hd => ?_) (fun h => ?_)
    (by simp [Client.relists, hp, Pc.relists]) ?_⟩
  · refine ⟨fun d hd => ?_, hok.locked, nofun, nofun, fun q hq => ?_, fun q d hq hd => ?_⟩
    · rw [isBlock_congr hheld, hst.place d (hown d hd)]
      exact hok.own d hd
    · cases hq
      refine ⟨trivial, fun d hd => ?_, nofun, fun y hy => ?_, fun d y hd => ?_, nofun, nofun⟩
      · cases hd
        exact ⟨(isBlock_congr hheld).mpr ⟨x, hx, hb⟩, hplace'⟩
      · cases hy
        exact ⟨hheld ▸ hx, hσ'⟩
      · cases hd
        exact ⟨hheld ▸ hx, hb⟩
    · cases hq
      cases hd
      exact fun h => hown b h rfl
  · rcases hd with hd | ⟨q, hq, hd⟩
    · exact Or.inl (Or.inl hd)
    · cases hq
      cases hd
      exact Or.inr rfl
  · rcases hσ' with h' | h' <;> rw [h'] at h <;> cases h
  · rcases hσ' with h' | h' <;> simp [h']

theorem goes_returnPush (ho : Owned Client.Holds ⟨m, lock, pc⟩)
    (hp : (pc t).now = .run (.returnPush b x))
    (h1 : (m.superblock x).bctr ≠ 1) : ∃ m' g' p', returnPush m b x = some (m', p') ∧ Rep Λ m' g' ∧
      (pc t).resume p' = { pc t with now := .run p' } ∧
      ClientsOk m' g' (Function.update pc t { pc t with now := .run p' }) := by
  have hok := hc.ok t
  have hP := hok.point _ hp
  obtain ⟨hx, hσ⟩ := hP.super x rfl
  change g.stage x = .listed ∨ g.stage x = .off at hσ
  obtain ⟨hbb, hq⟩ := hP.moves b rfl
  have hb := (hP.pair b x rfl).2
  have hpos := hr.bctr_pos hx hb (by simp [hq])
  obtain ⟨m', g', he, hst, hgl, -, hplace', hσ', -, hr'⟩ := hr.returnPush hx hb (Or.inr hq) hσ
  obtain ⟨_, _, _, hm⟩ := id hst.mem
  have hheld : m'.held = m.held := by rw [hm]
  have hne : (m.superblock x).bctr - 1 ≠ 0 := by omega
  rw [returnedPc_of_ne hne] at he
  rw [returnedStage_of_ne hne] at hσ'
  have hown : ∀ d ∈ (pc t).own, d ≠ b := by
    rintro d hd rfl
    exact hok.moves _ d hp rfl hd
  have hother : ∀ t', t' ≠ t → ¬ (pc t').Has b :=
    fun t' htt h => htt (hc.apart t' t b h (Or.inr ⟨_, hp, rfl⟩))
  have hstep : ∀ p' : Pc Tid, p'.moves = none → (g'.stage x = .relist → p'.relists = some x) →
      Point m' g' p' →
      ClientsOk m' g' (Function.update pc t { pc t with now := .run p' }) := by
    intro p' hmv hrel hP'
    refine hc.super_step ho hst (Client.run_holds hp (by simp [Holds, heldBy]))
      (Client.run_holds hp (by simp [Holds, heldBy])) (Or.inl hgl) hother ?_ (fun d hd => ?_) hrel
      (by simp [Client.relists, hp, Pc.relists]) ?_
    · refine ⟨fun d hd => ?_, hok.locked, nofun, nofun, fun q hq => ?_, fun q d hq hd => ?_⟩
      · rw [isBlock_congr hheld, hst.place d (hown d hd)]
        exact hok.own d hd
      · cases hq
        exact hP'
      · cases hq
        rw [hmv] at hd
        cases hd
    · rcases hd with hd | ⟨q, hq, hd⟩
      · exact Or.inl (Or.inl hd)
      · cases hq
        rw [hmv] at hd
        cases hd
    · rw [hσ']
      split_ifs <;> simp
  have hbb' : IsBlock m' b ∧ g'.place b = .free := ⟨(isBlock_congr hheld).mpr hbb, hplace'⟩
  by_cases hoff : g.stage x = .off
  · rw [if_pos hoff] at he hσ'
    refine ⟨m', g', _, he, hr', rfl, hstep _ rfl (fun _ => rfl)
      ⟨trivial, nofun, fun d hd _ => ?_, fun y hy => ?_,
      fun d y hd => ?_, nofun, nofun⟩⟩
    · cases hd
      exact hbb'
    · cases hy
      exact ⟨hheld ▸ hx, hσ'⟩
    · cases hd
      exact ⟨hheld ▸ hx, hb⟩
  · rw [if_neg hoff] at he hσ'
    refine ⟨m', g', _, he, hr', rfl, hstep _ rfl (fun h => ?_)
      ⟨trivial, nofun, fun d hd _ => ?_, fun y hy => ?_,
      fun d y hd => ?_, nofun, nofun⟩⟩
    · rw [hσ'] at h
      cases h
    · cases hd
      exact hbb'
    · cases hy
      exact ⟨hheld ▸ hx, hσ'⟩
    · cases hd
      exact ⟨hheld ▸ hx, hb⟩

theorem goes_returnPrepend (ho : Owned Client.Holds ⟨m, lock, pc⟩)
    (hp : (pc t).now = .run (.returnPrepend b x)) :
    ∃ m' g', returnPrepend m b x = some (m', .returnLetGpool b x) ∧ Rep Λ m' g' ∧
      ClientsOk m' g' (Function.update pc t { pc t with now := .run (.returnLetGpool b x) }) := by
  have hok := hc.ok t
  have hP := hok.point _ hp
  obtain ⟨hx, hσ⟩ := hP.super x rfl
  change g.stage x = .relist at hσ
  obtain ⟨hbb, hq⟩ := hP.free b rfl rfl
  have hb := (hP.pair b x rfl).2
  obtain ⟨m', g', he, hst, hplace', -, hσ', hbctr', hk, hr'⟩ := hr.returnPrepend hx hb hq hσ
  obtain ⟨_, _, _, hm⟩ := id hst.mem
  have hheld : m'.held = m.held := by rw [hm]
  have hnot : ∀ t', ¬ (pc t').Has b := fun t' h => by
    have := ((hc.ok t').has h).2
    rw [hq] at this
    cases this
  refine ⟨m', g', he, hr', hc.super_step ho hst (Client.run_holds hp (by simp [Holds, heldBy]))
    (Client.run_holds hp (by simp [Holds, heldBy]))
    (Or.inr (Client.run_holds hp (by simp [Holds, heldBy])))
    (fun t' _ => hnot t') ?_ (fun d hd => Or.inl ?_) (fun h => ?_)
    (by simp [Client.relists, hp, Pc.relists])
    (by simp [hσ'])⟩
  · refine ⟨fun d hd => ?_, hok.locked, nofun, nofun, fun q hq' => ?_, fun q d hq' hd => ?_⟩
    · rw [isBlock_congr hheld, hplace']
      exact hok.own d hd
    · cases hq'
      refine ⟨trivial, nofun, fun d hd _ => ?_, fun y hy => ?_, fun d y hd => ?_, nofun, nofun⟩
      · cases hd
        exact ⟨(isBlock_congr hheld).mpr hbb, hplace' ▸ hq⟩
      · cases hy
        exact ⟨hheld ▸ hx, hσ', by omega⟩
      · cases hd
        exact ⟨hheld ▸ hx, hb⟩
    · cases hq'
      cases hd
  · rcases hd with hd | ⟨q, hq', hd⟩
    · exact Or.inl hd
    · cases hq'
      cases hd
  · rw [hσ'] at h
    cases h

theorem goes_run {p : Pc Tid} {i : Input} (ho : Owned Client.Holds ⟨m, lock, pc⟩)
    (hp : (pc t).now = .run p)
    (hn : ∀ b x, p = .returnPush b x → (m.superblock x).bctr ≠ 1) (hi : instr t p = .code)
    (hin : InputOk p m i) :
    Goes Λ t pc ((code Λ t p m i).map fun r => (r.1, (pc t).resume r.2)) := by
  have hP := (hc.ok t).point p hp
  have hh := hP.handles
  cases p <;> first | exact hh.elim | simp only [instr, reduceCtorEq] at hi
  case stealFind =>
    cases i with
    | sysAlloc r => exact goes_stealFind hr hc ho hp hin
    | _ => exact hin.elim
  case stealRead x =>
    obtain ⟨hx, hσ⟩ := hP.super x rfl
    obtain ⟨b, hb, he⟩ := hr.stealRead hx hσ
    have hP' : Point m g (.stealGetBlock x b) := by
      refine ⟨trivial, nofun, nofun, hP.super, nofun, hP.top, fun y d hd => ?_⟩
      cases hd
      exact hb
    exact ⟨m, _, g, by simp only [code, he, Option.map_some]; rfl, hr, hc.run hp hP' rfl rfl⟩
  case stealTake x b =>
    obtain ⟨m', g', he, hr', hc'⟩ := goes_stealTake hr hc ho hp
    exact ⟨m', _, g', by simp only [code, he, Option.map_some]; rfl, hr', hc'⟩
  case returnRead b =>
    obtain ⟨hb, hq⟩ := hP.moves b rfl
    obtain ⟨x, hx, hbx⟩ := id hb
    have he : returnRead m b = some (.returnGetSuperblock b x) := by
      simp only [returnRead, getBlock_eq (mapped_block hb), (hr.block x hx b hbx).superblock,
        Option.bind_eq_bind,
        Option.bind_some, Option.pure_def]
    have hP' : Point m g (.returnGetSuperblock b x) := by
      refine ⟨trivial, hP.moves, nofun, nofun, fun d y hd => ?_, nofun, nofun⟩
      cases hd
      exact ⟨hx, hbx⟩
    exact ⟨m, _, g, by simp only [code, he, Option.map_some]; rfl, hr, hc.run hp hP' rfl rfl⟩
  case returnPush b x =>
    obtain ⟨m', g', p', he, hr', hres, hc'⟩ := goes_returnPush hr hc ho hp (hn b x rfl)
    exact ⟨m', _, g', by simp only [code, he, Option.map_some, hres], hr', hc'⟩
  case returnPrepend b x =>
    obtain ⟨m', g', he, hr', hc'⟩ := goes_returnPrepend hr hc ho hp
    exact ⟨m', _, g', by simp only [code, he, Option.map_some]; rfl, hr', hc'⟩
  case returnCheck b x =>
    obtain ⟨hx, hσ, hk⟩ := hP.super x rfl
    have hk' : SUPERBLOCK_CTR_FULL - 1 = (m.superblock x).bctr := by omega
    have he : returnCheck m b x = some (.returnLetSuperblock b x) := by
      simp only [returnCheck, getSuperblock_eq (mapped_superblock hx), Option.bind_eq_bind,
        Option.bind_some,
        guard_pos hk', Option.pure_def]
    have hP' : Point m g (.returnLetSuperblock b x) := by
      refine ⟨trivial, nofun, hP.free, fun y hy => ?_, hP.pair, nofun, nofun⟩
      cases hy
      exact ⟨hx, hσ⟩
    exact ⟨m, _, g, by simp only [code, he, Option.map_some]; rfl, hr, hc.run hp hP' rfl rfl⟩

end

/-! ### Runs -/

variable {s s' s₀ : ClientState Tid}

omit [DecidableEq Tid] in
theorem ClientsStart.inv (h : ClientsStart s) : ClientsInv Λ s := by
  refine ⟨fun ℓ t => by simp [h.lock, h.pc, Client.Holds, Client.Keeps], Ghost.empty Tid,
    Rep.empty h.held h.gpoolHead h.mpoolHead, fun t => ?_, fun t t' b hb => ?_, by
      rw [h.held]; nofun,
    by rw [h.held]; nofun⟩
  · rw [h.pc]
    exact ⟨nofun, nofun, nofun, nofun, nofun, nofun⟩
  · rw [h.pc] at hb
    rcases hb with hb | ⟨q, hq, -⟩
    · cases hb
    · cases hq

omit [DecidableEq Tid] in
theorem ClientsOk.drop_own {ℓ : LockId Tid} (hc : ClientsOk m g pc)
    (hi : clientInstr t (pc t) = .drop ℓ c') :
    (pc t).Holds t ℓ := by
  rcases clientInstr_drop hi with ⟨b, hn, rfl, rfl⟩ | ⟨p, p', hp, hip, rfl⟩
  · exact Or.inl ⟨b, (hc.ok t).letGo b hn, rfl⟩
  · refine Client.run_holds hp ?_
    have hh := ((hc.ok t).point p hp).handles
    clear hi
    cases p <;> cases hip <;> first | exact hh.elim | simp [Holds, heldBy]

theorem ClientsInv.step (hi : ClientsInv Λ s) (hn : ¬ ClientEmpties s t)
    (hs : Step (clients Tid Λ) s t s') :
    ClientsInv Λ s' := by
  obtain ⟨ho, g, hr, hc⟩ := hi
  refine ⟨ho.step (clients_disciplined Tid Λ) hs fun ℓ p h => Or.inl (hc.drop_own h), ?_⟩
  cases hs with
  | get h hfree => exact ⟨g, hr, hc.get hr ho h hfree⟩
  | drop h => exact ⟨g, hr, hc.drop h⟩
  | @code e m c' h he hcode =>
    change clientInstr t (s.pc t) = .code at h
    change ClientInputOk (s.pc t) s.mem e at he
    change clientCode Λ t (s.pc t) s.mem e = some (m, c') at hcode
    have hgoes : Goes Λ t s.pc (clientCode Λ t (s.pc t) s.mem e) := by
      cases hnow : (s.pc t).now with
      | rest => exact goes_rest hr hc hnow he
      | getBlock b =>
        unfold ClientInputOk at he
        rw [hnow] at he
        exact he.elim
      | letBlock b =>
        unfold ClientInputOk at he
        rw [hnow] at he
        exact he.elim
      | run p =>
        unfold ClientInputOk at he
        unfold clientInstr at h
        unfold clientCode
        rw [hnow] at he h ⊢
        cases e with
        | code i =>
          refine goes_run hr hc ho hnow (fun b x hp h1 => hn ⟨b, x, hp ▸ hnow, h1⟩) ?_ he
          dsimp only at h
          cases hip : instr t p <;> rw [hip] at h <;> cases h
        | _ => exact he.elim
    obtain ⟨m', c'', g', heq, hr', hc'⟩ := hgoes
    cases heq.symm.trans hcode
    exact ⟨g', hr', hc'⟩

/-! ### Waiting -/

/-- How many waits there can be in a row from here. -/
def Client.rank (c : Client Tid) : ℕ :=
  match c.now with
  | .getBlock _ => 1
  | .run (.stealGetSuperblock _) => 1
  | .run (.stealGetBlock _ _) => 1
  | .run .stealGetGpool => 2
  | .run (.returnGetGpool _ _) => 2
  | .run (.returnGetSuperblock _ _) => 3
  | _ => 0

omit [DecidableEq Tid] in
/-- Only a client inside one of the functions holds the lock of the list or of a superblock. -/
theorem Client.Holds.run {ℓ : LockId Tid} (h : c.Holds t ℓ) (hℓ : ∀ b, ℓ ≠ .block b) :
    ∃ p, c.now = .run p ∧ Vma.Holds t p ℓ := by
  refine h.resolve_left ?_
  rintro ⟨b, -, rfl⟩
  exact hℓ b rfl

section

variable {p : Pc Tid}

omit [DecidableEq Tid]

theorem Client.rank_run (h : c.now = .run p) :
    c.rank = ({ c with now := .run p } : Client Tid).rank := by
  rw [← h]

/-- The holder of the global list waits at most for a lock whose holder goes on. -/
theorem Pc.Handles.rank_gpool (h : p.Handles) (hp : Vma.Holds t p .gpool) :
    ({ c with now := .run p } : Client Tid).rank ≤ 1 := by
  cases p <;> first | exact h.elim | simp_all [Vma.Holds, heldBy, Client.rank]

theorem Pc.Handles.rank_superblock (h : p.Handles) (hp : Vma.Holds t p (.superblock x)) :
    ({ c with now := .run p } : Client Tid).rank ≤ 2 := by
  cases p <;> first | exact h.elim | simp_all [Vma.Holds, heldBy, Client.rank]

/-- A client that waits and holds a superblock or one of its free blocks is one
that puts the superblock back on the list, or that has the list. -/
theorem Pc.Handles.rank_pos (h : p.Handles) (hp : 0 < ({ c with now := .run p } : Client Tid).rank)
    (hh : Vma.Holds t p (.superblock x)) : Vma.Holds t p .gpool ∨ ∃ b, p = .returnGetGpool b x := by
  cases p <;> first | exact h.elim | simp_all [Vma.Holds, heldBy, Client.rank]

theorem Pc.Handles.rank_pos_block (h : p.Handles)
    (hp : 0 < ({ c with now := .run p } : Client Tid).rank)
    (hh : Vma.Holds t p (.block b)) : p.moves = some b ∨ ∃ x, p = .returnGetGpool b x := by
  cases p <;> first | exact h.elim | simp_all [Vma.Holds, heldBy, Client.rank, Pc.moves]

end

omit [DecidableEq Tid] in
/-- A client inside one of the functions waits for somebody who has fewer waits ahead. -/
theorem ClientsOk.rank_lt {p p' : Pc Tid} {ℓ : LockId Tid} (hc : ClientsOk m g pc) (hr : Rep Λ m g)
    (ho : Owned Client.Holds ⟨m, lock, pc⟩) (hp : (pc t).now = .run p) (hip : instr t p = .get ℓ p')
    (hh : (pc t').Holds t' ℓ) : (pc t').rank < (pc t).rank := by
  have hok' := hc.ok t'
  have hP := (hc.ok t).point p hp
  have hhp := hP.handles
  rw [Client.rank_run hp]
  cases p <;> cases hip <;> try exact hhp.elim
  case stealGetGpool =>
    obtain ⟨q, hq, hhq⟩ := hh.run nofun
    rw [Client.rank_run hq]
    exact Nat.lt_succ_of_le ((hok'.point q hq).handles.rank_gpool hhq)
  case returnGetGpool b x =>
    obtain ⟨q, hq, hhq⟩ := hh.run nofun
    rw [Client.rank_run hq]
    exact Nat.lt_succ_of_le ((hok'.point q hq).handles.rank_gpool hhq)
  case returnGetSuperblock b x =>
    obtain ⟨q, hq, hhq⟩ := hh.run nofun
    rw [Client.rank_run hq]
    exact Nat.lt_succ_of_le ((hok'.point q hq).handles.rank_superblock hhq)
  case stealGetSuperblock x =>
    obtain ⟨q, hq, hhq⟩ := hh.run nofun
    have hPq := hok'.point q hq
    rw [Client.rank_run hq]
    refine Nat.lt_one_iff.mpr (Nat.eq_zero_of_not_pos fun hpos => ?_)
    rcases hPq.handles.rank_pos hpos hhq with hg | ⟨b, rfl⟩
    · obtain rfl := ho.unique (Client.run_holds hq hg)
        (Client.run_holds hp (by simp [Holds, heldBy]))
      rw [hp] at hq
      cases hq
      simp [Holds, heldBy] at hhq
    · -- a superblock that is about to be put on the list is not on it
      have hσ : g.stage x = .relist := (hPq.super x rfl).2
      have := ((hr.gpool.mem_iff x).mp (List.mem_of_head? (hP.top x rfl))).2
      simp [hσ, Stage.Linked] at this
  case stealGetBlock x b =>
    have hxm := (hP.super x rfl).1
    obtain ⟨hbx, hfree⟩ := ((hr.super x hxm).mem_iff b).mp (List.mem_of_head? (hP.first x b rfl))
    have hnot : ∀ t₀, ¬ (pc t₀).Has b := fun t₀ h => by
      have := ((hc.ok t₀).has h).2
      rw [hfree] at this
      cases this
    obtain ⟨q, hq, hhq⟩ := hh.resolve_left fun ⟨d, hd, he⟩ => by
      cases he
      exact hnot t' (Or.inl (hok'.locked b hd))
    have hPq := hok'.point q hq
    rw [Client.rank_run hq]
    refine Nat.lt_one_iff.mpr (Nat.eq_zero_of_not_pos fun hpos => ?_)
    rcases hPq.handles.rank_pos_block hpos hhq with hm | ⟨y, rfl⟩
    · exact hnot t' (Or.inr ⟨q, hq, hm⟩)
    · -- the holder has the same superblock, which is this thread's
      obtain ⟨hy, hby⟩ := hPq.pair b y rfl
      obtain rfl := hr.held.block_unique hxm hy hbx hby
      obtain rfl := ho.unique (Client.run_holds hq (by simp [Holds, heldBy]))
        (Client.run_holds hp (ℓ := .superblock x) (by simp [Holds, heldBy]))
      rw [hp] at hq
      cases hq

/-- Who waits, waits for somebody who has fewer waits ahead. -/
theorem ClientsInv.rank_lt (hi : ClientsInv Λ s) (hw : WaitsFor (clients Tid Λ) s t t') :
    (s.pc t').rank < (s.pc t).rank := by
  obtain ⟨ho, g, hr, hc⟩ := hi
  obtain ⟨ℓ, c', hi, hl⟩ := hw
  have hh := (ho ℓ t').mp hl
  have hok' := hc.ok t'
  rcases clientInstr_get hi with ⟨b, hn, rfl, -⟩ | ⟨p, p', hp, hip, -⟩
  · -- nobody else has the lock of a stolen block
    obtain ⟨hb, hbl⟩ := (hc.ok t).get b hn
    have hq := ((hc.ok t).own b hb).2
    exfalso
    rcases hh with ⟨d, hd, he⟩ | ⟨q, hq', hhq⟩
    · cases he
      obtain rfl := hc.apart t t' b (Or.inl hb) (Or.inl (hok'.locked b hd))
      exact hbl hd
    · have hP := hok'.point q hq'
      rcases hP.handles.holds_block hhq with hm | ⟨hd, hnm⟩ | ⟨x, hx⟩
      · obtain rfl := hc.apart t t' b (Or.inl hb) (Or.inr ⟨q, hq', hm⟩)
        rw [hn] at hq'
        cases hq'
      · rw [(hP.free b hd hnm).2] at hq
        cases hq
      · have hs := (hP.super x (by cases q <;> cases hx <;> rfl)).1
        rw [(((hr.super x hs).mem_iff b).mp (List.mem_of_head? (hP.first x b hx))).2] at hq
        cases hq
  · exact hc.rank_lt hr ho hp hip hh

/-- As long as no superblock is given back, threads that steal blocks and return them
never wait for each other in a cycle. -/
theorem clients_never_deadlock (h₀ : ClientsStart s₀)
    (hr : Runs (clients Tid Λ) (fun s t => ¬ ClientEmpties s t) s₀ s) :
    ¬ Deadlock (clients Tid Λ) s :=
  no_deadlock_of_rank (fun t => (s.pc t).rank) fun _ _ hw =>
    (hr.invariant h₀.inv fun _ _ _ hi hn hs => hi.step hn hs).rank_lt hw

end

/-! ### Two clients -/

def zeroClients : ClientState (Fin 2) := ⟨zeroState.mem, fun _ => none, fun _ => ⟨[], [], .rest⟩⟩

theorem zeroClients_start : ClientsStart zeroClients :=
  ⟨rfl, rfl, fun _ => rfl, fun _ => rfl, fun _ => rfl⟩

def clientInputOk (c : Client Tid) (m : Mem Tid) (i : ClientInput) : Bool :=
  match c.now, i with
  | .rest, .steal => true
  | .rest, .lock b => decide (b ∈ c.own ∧ b ∉ c.locked)
  | .rest, .unlock b => decide (b ∈ c.locked)
  | .rest, .giveBack b => decide (b ∈ c.locked)
  | .run p, .code i => inputOk p m i
  | _, _ => false

theorem ClientInputOk.of_clientInputOk {c : Client Tid} {m : Mem Tid} {i : ClientInput}
    (h : clientInputOk c m i = true) : ClientInputOk c m i := by
  unfold clientInputOk at h
  unfold ClientInputOk
  generalize c.now = d at h ⊢
  split at h
  · trivial
  · exact of_decide_eq_true h
  · exact of_decide_eq_true h
  · exact of_decide_eq_true h
  · exact .of_inputOk h
  · cases h

section

variable [DecidableEq Tid]

/-- `clientCode`, with what setting up a superblock leaves in closed form. -/
def clientCodeAt (Λ : Layout) (t : Tid) (c : Client Tid) (m : Mem Tid) (i : ClientInput) :
    Option (Mem Tid × Client Tid) :=
  match c.now, i with
  | .run p, .code i => (codeAt Λ t p m i).map fun r => (r.1, c.resume r.2)
  | _, _ => clientCode Λ t c m i

theorem clientCodeAt_eq {c : Client Tid} {m : Mem Tid} {i : ClientInput}
    (hi : clientInputOk c m i = true) : clientCodeAt Λ t c m i = clientCode Λ t c m i := by
  unfold clientCodeAt
  split
  · rename_i p i hn
    have hin : inputOk p m i = true := by
      unfold clientInputOk at hi
      rwa [hn] at hi
    unfold clientCode
    rw [hn]
    dsimp only
    rw [codeAt_eq hin]
  · rfl

def clientsComputed (Tid : Type) [DecidableEq Tid] (Λ : Layout) : Computed (clients Tid Λ) :=
  ⟨clientInputOk, clientCodeAt Λ, fun _ _ _ => .of_clientInputOk, fun _ _ _ _ => clientCodeAt_eq⟩

end

def clientSteps (t : Fin 2) (n : ℕ) : List (Fin 2 × ClientInput) :=
  List.replicate n (t, .code .nothing)

/-- The first client has stolen two blocks and gives one of them back. It holds the lock
of the superblock, for which the second client waits with the global pool locked. -/
theorem clients_never_deadlock_return : ∃ s : ClientState (Fin 2),
    Runs (clients (Fin 2) lp64) (fun s t => ¬ ClientEmpties s t) zeroClients s ∧
      s.pc 0 = ⟨[12288], [12288], .run (.returnPush 8192 4096)⟩ ∧
      s.pc 1 = ⟨[], [], .run (.stealGetSuperblock 4096)⟩ ∧
      WaitsFor (clients (Fin 2) lp64) s 1 0 ∧ ¬ Deadlock (clients (Fin 2) lp64) s := by
  have hrun : ((clientsComputed (Fin 2) lp64).exec
      (fun s t => match (s.pc t).now with
        | .run (.returnPush _ sb) => (s.mem.superblock sb).bctr != 1
        | _ => true)
      ((0, .steal) :: clientSteps 0 1 ++ (0, .code (.sysAlloc (some 4096))) :: clientSteps 0 6 ++
        (0, .steal) :: clientSteps 0 1 ++ (0, .code (.sysAlloc none)) :: clientSteps 0 6 ++
        (0, .giveBack 8192) :: clientSteps 0 2 ++
        (1, .steal) :: clientSteps 1 1 ++ [(1, .code (.sysAlloc none))]) zeroClients).any
      (fun s => s.pc 0 = ⟨[12288], [12288], .run (.returnPush 8192 4096)⟩ ∧
        s.pc 1 = ⟨[], [], .run (.stealGetSuperblock 4096)⟩ ∧
        s.lock (.superblock 4096) = some 0) = true := by decide +kernel
  have hstart : TracedRuns (clients (Fin 2) lp64) (fun s t => ¬ ClientEmpties s t) zeroClients []
      zeroClients := .start
  obtain ⟨l, s, hr, hs⟩ := Computed.exec_any
    (fun s t hok => by
      rintro ⟨b, sb, h, h1⟩
      simp [h, h1] at hok) hstart hrun
  obtain ⟨h₀, h₁, hl⟩ := of_decide_eq_true hs
  have hget : clientInstr 1 (s.pc 1) =
      .get (.superblock 4096) ⟨[], [], .run (.stealRead 4096)⟩ := by
    rw [h₁]
    rfl
  exact ⟨s, hr.runs, h₀, h₁, ⟨_, _, hget, hl⟩, clients_never_deadlock zeroClients_start hr.runs⟩

end OpenOOC.Vma
