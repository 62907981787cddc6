import OpenOOC.Lib.Separate
import OpenOOC.Sched.Programs

/-! Threads that load from and store to live allocations, none of them to what another one
accesses: each computes what it would compute alone, however their faults and lock
operations are ordered. -/

namespace OpenOOC.Programs

open LockMachine Sched Kernels Simulation Separate

variable {Tid : Type} {V : Type*} {ps : PageSize} {s s₀ : Sched.State Tid} {d : Data V}
  {prog : Tid → Prog Addr V}
  {F W : Tid → Set Addr} {t : Tid}

def toCommand : Prog Addr V → Command V (Prog Addr V)
  | .done => .done
  | .load x k => .acc (.load x k)
  | .store x v p => .acc (.store x v p)

section

variable [DecidableEq Tid] [Zero V] {a a' : Plain Tid V (Prog Addr V)}

theorem turn_of_plain (h : PlainStep ps toCommand a t a') :
    Turn ⟨a.data, a.prog⟩ t ⟨a'.data, a'.prog⟩ ∧ a'.live = a.live := by
  cases hp : a.prog t with
  | done =>
    have hcmd : toCommand (a.prog t) = .done := by
      rw [hp]
      rfl
    cases h with
    | acc h => cases h.symm.trans hcmd
    | malloc h => cases h.symm.trans hcmd
    | null h => cases h.symm.trans hcmd
    | free h => cases h.symm.trans hcmd
  | load x k =>
    have hcmd : toCommand (a.prog t) = .acc (.load x k) := by
      rw [hp]
      rfl
    cases h with
    | acc h =>
      cases h.symm.trans hcmd
      exact ⟨.load hp, rfl⟩
    | malloc h => cases h.symm.trans hcmd
    | null h => cases h.symm.trans hcmd
    | free h => cases h.symm.trans hcmd
  | store x v p =>
    have hcmd : toCommand (a.prog t) = .acc (.store x v p) := by
      rw [hp]
      rfl
    cases h with
    | acc h =>
      cases h.symm.trans hcmd
      exact ⟨.store hp, rfl⟩
    | malloc h => cases h.symm.trans hcmd
    | null h => cases h.symm.trans hcmd
    | free h => cases h.symm.trans hcmd

theorem turns_of_plain {live : List Alloc} {k : ℕ}
    (h : RunsIn (AnyPlain ps toCommand) ⟨live, d, prog⟩ k a) :
    RunsIn (fun s s' => ∃ t, Turn s t s') ⟨d, prog⟩ k ⟨a.data, a.prog⟩ ∧ a.live = live := by
  induction h with
  | start => exact ⟨.start, rfl⟩
  | step _ hs ih =>
    obtain ⟨t, hs⟩ := hs
    obtain ⟨hturn, hl⟩ := turn_of_plain hs
    exact ⟨ih.1.step ⟨t, hturn⟩, hl.trans ih.2⟩

omit [Zero V] in
theorem may_of_within {live : List Alloc} {p : Prog Addr V} {F W : Set Addr} (h : Within F W p)
    (hF : ∀ x ∈ F, InLive ps live x) :
    May ps live (toCommand p) := by
  cases h with
  | done => trivial
  | load hx _ => exact hF _ hx
  | store hx _ _ => exact hF _ hx

theorem safe_of_apart {live : List Alloc} (h : Apart F W ⟨d, prog⟩)
    (hF : ∀ t, ∀ x ∈ F t, InLive ps live x) :
    Safe ps toCommand ⟨live, d, prog⟩ := by
  intro n a hr t
  obtain ⟨hturns, hl⟩ := turns_of_plain hr
  rw [hl]
  exact may_of_within ((h.runs hturns).1.within t) (hF t)

variable {n : ℕ} {c : Process Tid V (Prog Addr V)}

theorem apart_steps_le [Fintype Tid] (h : Apart F W ⟨d, prog⟩)
    (hF : ∀ t, ∀ x ∈ F t, InLive ps s.mem.live x) (h₀ : Start s₀)
    (hr₀ : Runs (threads Tid ps) (fun s _ => WellUsed ps s) s₀ s)
    (hrest : ∀ t, (s.pc t).now = .rest)
    (hr : RunsIn (AnyStep ps toCommand) (load s d prog) n c) :
    n ≤ 18 * (Fintype.card Tid + costAll ⟨d, prog⟩) := by
  refine length_le h₀ hr₀ hrest (safe_of_apart h hF) (fun k a hk => ?_) hr
  have := h.length_le (turns_of_plain hk).1
  omega

/-- Where nobody can go on, each thread has left what it leaves alone. -/
theorem apart_ends (h : Apart F W ⟨d, prog⟩) (hF : ∀ t, ∀ x ∈ F t, InLive ps s.mem.live x)
    (h₀ : Start s₀)
    (hr₀ : Runs (threads Tid ps) (fun s _ => WellUsed ps s) s₀ s)
    (hrest : ∀ t, (s.pc t).now = .rest)
    (hr : RunsIn (AnyStep ps toCommand) (load s d prog) n c) :
    (∃ c', AnyStep ps toCommand c c') ∨ ∀ t, (c.pc t).1.now = .rest ∧ (c.pc t).2 = .done ∧
      ∀ y ∈ F t, c.mem.2 y = (prog t).run d y := by
  have hsafe := safe_of_apart h hF
  obtain ⟨a, g, hg⟩ := follows_of_runs h₀ hr₀ hrest hsafe hr
  by_cases hdone : ∀ t, (c.pc t).1.now = .rest ∧ toCommand (c.pc t).2 = .done
  · obtain ⟨k, hk⟩ := hg.reached
    obtain ⟨hturns, hl⟩ := turns_of_plain hk
    refine Or.inr fun t => ?_
    have hd : (c.pc t).2 = .done := by
      have h2 := (hdone t).2
      cases hp : (c.pc t).2 with
      | done => rfl
      | load x k => rw [hp] at h2; cases h2
      | store x v p => rw [hp] at h2; cases h2
    refine ⟨(hdone t).1, hd, fun y hy => ?_⟩
    have hprog : a.prog t = .done := (hg.agrees.prog t).symm.trans hd
    have hrun := (h.runs hturns).2 t y hy
    dsimp only at hrun
    rw [hprog] at hrun
    exact (hg.agrees.data y (hl ▸ hF t y hy)).trans hrun
  · obtain ⟨t, ht⟩ := not_forall.mp hdone
    exact Or.inl (hg.goes_on h₀ hsafe ht)

end

/-! ### Two threads -/

end OpenOOC.Programs
