import Mathlib.Logic.Function.Basic
import Mathlib.Tactic.Common

/-! Who has installed the signal handler. What `SIGSEGV` does belongs to the process, but
`S_is_init` and `S_old_act` of `sched.c` belong to a thread: each saves what it finds and
`ooc_finalize` puts it back. -/

namespace OpenOOC.Signals

variable {Tid H : Type*}

/-- What `SIGSEGV` does: `S_sigsegv_trampoline`, or something from outside. -/
inductive Action (H : Type*)
  | trampoline
  | other (h : H)

/-- What `SIGSEGV` does in the process, and `S_is_init` and `S_old_act` of each thread. -/
structure State (Tid H : Type*) where
  act : Action H
  isInit : Tid → Bool
  oldAct : Tid → Action H

inductive Op
  | sched
  | finalize

section

variable [DecidableEq Tid]

def sInit (s : State Tid H) (t : Tid) : State Tid H :=
  ⟨.trampoline, Function.update s.isInit t true, Function.update s.oldAct t s.act⟩

/-- `ooc_sched`, up to the search for a fiber. -/
def oocSched (s : State Tid H) (t : Tid) : State Tid H := if s.isInit t then s else sInit s t

def oocFinalize (s : State Tid H) (t : Tid) : State Tid H :=
  { s with act := s.oldAct t, isInit := Function.update s.isInit t false }

def step (s : State Tid H) : Tid × Op → State Tid H
  | (t, .sched) => oocSched s t
  | (t, .finalize) => oocFinalize s t

def Each (ok : State Tid H → Tid × Op → Prop) (s : State Tid H) : List (Tid × Op) → Prop
  | [] => True
  | x :: l => ok s x ∧ Each ok (step s x) l

def Throughout (P : State Tid H → Prop) (s : State Tid H) : List (Tid × Op) → Prop
  | [] => P s
  | x :: l => P s ∧ Throughout P (step s x) l

end

/-- No thread has called `ooc_sched`, and `SIGSEGV` does `h₀`. -/
structure Start (h₀ : H) (s : State Tid H) : Prop where
  act : s.act = .other h₀
  isInit : ∀ t, s.isInit t = false

/-- The handler is installed while a thread is initialised, and otherwise what was there
at first. -/
def Fits (h₀ : H) (s : State Tid H) : Prop :=
  (∀ t, s.isInit t = true → s.act = .trampoline) ∧ ((∀ t, s.isInit t = false) → s.act = .other h₀)

/-- `ooc_finalize` is for threads that have called `ooc_sched`. -/
def Called (s : State Tid H) : Tid × Op → Prop
  | (_, .sched) => True
  | (t, .finalize) => s.isInit t = true

/-- The thread that has saved what was there at first finalizes last. -/
def LastOut (s : State Tid H) : Tid × Op → Prop
  | (_, .sched) => True
  | (t, .finalize) => s.oldAct t = .trampoline ∨ ∀ u, s.isInit u = true → u = t

/-! ### The first thread -/

/-- One of the initialised threads, if there are any, has saved what was there at first,
and the others the handler. -/
structure Inv (h₀ : H) (s : State Tid H) : Prop where
  fits : Fits h₀ s
  first : ∀ t, s.isInit t = true → ∃ o, s.isInit o = true ∧ s.oldAct o = .other h₀ ∧
    ∀ u, s.isInit u = true → u ≠ o → s.oldAct u = .trampoline

variable {h₀ : H} {s : State Tid H} {t : Tid} {x : Tid × Op}

theorem Start.inv (h : Start h₀ s) : Inv h₀ s := by
  have hno (t : Tid) (ht : s.isInit t = true) : False := by
    rw [h.isInit t] at ht
    cases ht
  exact ⟨⟨fun t ht => (hno t ht).elim, fun _ => h.act⟩, fun t ht => (hno t ht).elim⟩

variable [DecidableEq Tid]

theorem Inv.sched (hi : Inv h₀ s) (t : Tid) : Inv h₀ (oocSched s t) := by
  unfold oocSched
  split_ifs with ht
  · exact hi
  · have hself : (sInit s t).isInit t = true := Function.update_self _ _ _
    have hne {u : Tid} (hu : s.isInit u = true) : u ≠ t := fun h => ht (h ▸ hu)
    have hold {u : Tid} (hu : u ≠ t) : (sInit s t).oldAct u = s.oldAct u :=
      Function.update_of_ne hu _ _
    have hinit {u : Tid} (hu : u ≠ t) : (sInit s t).isInit u = s.isInit u :=
      Function.update_of_ne hu _ _
    refine ⟨⟨fun _ _ => rfl, fun h => ?_⟩, fun _ _ => ?_⟩
    · rw [h t] at hself
      cases hself
    · by_cases hsome : ∃ u, s.isInit u = true
      · -- what the thread finds is the handler
        obtain ⟨u, hu⟩ := hsome
        obtain ⟨o, ho, hoo, hothers⟩ := hi.first u hu
        refine ⟨o, (hinit (hne ho)).trans ho, (hold (hne ho)).trans hoo, fun v hv hvo => ?_⟩
        by_cases hvt : v = t
        · rw [hvt]
          exact (Function.update_self _ _ _).trans (hi.fits.1 u hu)
        · rw [hold hvt]
          exact hothers v ((hinit hvt).symm.trans hv) hvo
      · have hnone (u : Tid) : s.isInit u = false := by
          by_contra hu
          exact hsome ⟨u, (Bool.not_eq_false _).mp hu⟩
        refine ⟨t, hself, (Function.update_self _ _ _).trans (hi.fits.2 hnone), fun v hv hvt => ?_⟩
        rw [hinit hvt, hnone v] at hv
        cases hv

/-- What `ooc_finalize` puts back is right just when the first thread is the last one. -/
theorem Inv.finalize (hi : Inv h₀ s) (ht : s.isInit t = true) :
    (LastOut s (t, .finalize) → Inv h₀ (oocFinalize s t)) ∧
      (Fits h₀ (oocFinalize s t) → LastOut s (t, .finalize)) := by
  obtain ⟨o, ho, hoo, hothers⟩ := hi.first t ht
  have hinit {u : Tid} (hu : u ≠ t) : (oocFinalize s t).isInit u = s.isInit u :=
    Function.update_of_ne hu _ _
  have hself : (oocFinalize s t).isInit t = false := Function.update_self _ _ _
  have hne {u : Tid} (hu : (oocFinalize s t).isInit u = true) : u ≠ t := fun h => by
    rw [h, hself] at hu
    cases hu
  by_cases hot : o = t
  · subst hot
    refine ⟨fun h => ?_, fun h => Or.inr fun u hu => ?_⟩
    · -- nobody else is initialised
      have hlast : ∀ u, s.isInit u = true → u = o := h.resolve_left fun h => by
        rw [hoo] at h
        cases h
      have hno {u : Tid} (hu : (oocFinalize s o).isInit u = true) : False :=
        hne hu (hlast u ((hinit (hne hu)).symm.trans hu))
      exact ⟨⟨fun u hu => (hno hu).elim, fun _ => hoo⟩, fun u hu => (hno hu).elim⟩
    · by_contra huo
      have hact := h.1 u ((hinit huo).trans hu)
      rw [show (oocFinalize s o).act = s.oldAct o from rfl, hoo] at hact
      cases hact
  · have hold : s.oldAct t = .trampoline := hothers t ht (Ne.symm hot)
    have ho' : (oocFinalize s t).isInit o = true := (hinit hot).trans ho
    refine ⟨fun _ => ⟨⟨fun _ _ => hold, fun h => ?_⟩, fun _ _ => ⟨o, ho', hoo, fun u hu huo => ?_⟩⟩,
      fun _ => Or.inl hold⟩
    · rw [h o] at ho'
      cases ho'
    · exact hothers u ((hinit (hne hu)).symm.trans hu) huo

/-! ### Runs -/

/-- In a run in which only threads that have called `ooc_sched` finalize, the handler is
always installed while it is needed, and only then, just if the thread that has installed
it when nobody had always finalizes last. -/
theorem handler_fits_iff {l : List (Tid × Op)} (h : Start h₀ s) (hc : Each Called s l) :
    Throughout (Fits h₀) s l ↔ Each LastOut s l := by
  have hi := h.inv
  clear h
  induction l generalizing s with
  | nil => exact iff_of_true hi.fits trivial
  | cons x l ih =>
    obtain ⟨t, op⟩ := x
    obtain ⟨hx, hc⟩ := hc
    have hhead {s' : State Tid H} (h : Throughout (Fits h₀) s' l) : Fits h₀ s' := by
      cases l with
      | nil => exact h
      | cons y l => exact h.1
    cases op with
    | sched =>
      have hih := ih hc (hi.sched t)
      exact ⟨fun h => ⟨trivial, hih.mp h.2⟩, fun h => ⟨hi.fits, hih.mpr h.2⟩⟩
    | finalize =>
      obtain ⟨hkeep, hlast⟩ := hi.finalize hx
      constructor
      · intro h
        have hout := hlast (hhead h.2)
        exact ⟨hout, (ih hc (hkeep hout)).mp h.2⟩
      · intro h
        exact ⟨hi.fits, (ih hc (hkeep h.1)).mpr h.2⟩

def fresh : State Bool Unit := ⟨.other (), fun _ => false, fun _ => .other ()⟩

/-- Two threads run kernels, and the one that came first finalizes: the other one has no
handler any more. If it is the second one, the handler stays. -/
theorem handler_fits_two :
    ¬ Throughout (Fits ()) fresh [(true, .sched), (false, .sched), (true, .finalize)] ∧
    Throughout (Fits ()) fresh [(true, .sched), (false, .sched), (false, .finalize)] := by
  have hstart : Start () fresh := ⟨rfl, fun _ => rfl⟩
  constructor
  · have hc : Each Called fresh [(true, .sched), (false, .sched), (true, .finalize)] :=
      ⟨trivial, trivial, rfl, trivial⟩
    rw [handler_fits_iff hstart hc]
    intro h
    obtain ⟨-, -, hlast, -⟩ := h
    cases hlast with
    | inl h => cases h
    | inr h => cases h false rfl
  · have hc : Each Called fresh [(true, .sched), (false, .sched), (false, .finalize)] :=
      ⟨trivial, trivial, rfl, trivial⟩
    rw [handler_fits_iff hstart hc]
    exact ⟨trivial, trivial, Or.inl rfl, trivial⟩

end OpenOOC.Signals
