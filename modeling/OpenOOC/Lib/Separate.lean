import OpenOOC.Lib.Simulation
import Mathlib.Algebra.BigOperators.Group.Finset.Piecewise
import Mathlib.Data.Set.Defs

/-! Straight-line programs that load and store, as trees, and threads that run one each
in shared memory. Where no thread stores to what another one accesses, each leaves what
it accesses as if it had run alone, in whatever order they take their turns. -/

namespace Separate

open Simulation

variable {T K V : Type*}

/-- What is loaded decides how it goes on. -/
inductive Prog (K V : Type*)
  | done
  | load (x : K) (k : V → Prog K V)
  | store (x : K) (v : V) (p : Prog K V)

/-- It accesses only `F` and stores only to `W`. -/
inductive Within (F W : Set K) : Prog K V → Prop
  | done : Within F W .done
  | load {x : K} {k : V → Prog K V} (hx : x ∈ F) (hk : ∀ v, Within F W (k v)) :
    Within F W (.load x k)
  | store {x : K} {v : V} {p : Prog K V} (hx : x ∈ F) (hw : x ∈ W) (hp : Within F W p) :
    Within F W (.store x v p)

variable [DecidableEq K]

namespace Prog

def run : Prog K V → (K → V) → K → V
  | .done, d => d
  | .load x k, d => run (k (d x)) d
  | .store x v p, d => run p (Function.update d x v)

def cost : Prog K V → (K → V) → ℕ
  | .done, _ => 0
  | .load x k, d => cost (k (d x)) d + 1
  | .store x v p, d => cost p (Function.update d x v) + 1

end Prog

section

variable {F W : Set K} {p : Prog K V} {d d' : K → V}

theorem Within.congr (h : Within F W p) (hd : ∀ y ∈ F, d y = d' y) :
    (∀ y ∈ F, p.run d y = p.run d' y) ∧ p.cost d = p.cost d' := by
  induction h generalizing d d' with
  | done => exact ⟨hd, rfl⟩
  | @load x k hx _ ih =>
    obtain ⟨h1, h2⟩ := ih (d x) hd
    simp only [Prog.run, Prog.cost, ← hd x hx]
    exact ⟨h1, congrArg (· + 1) h2⟩
  | @store x v p _ _ _ ih =>
    have hupd : ∀ y ∈ F, Function.update d x v y = Function.update d' x v y := fun y hy => by
      rw [Function.update_apply, Function.update_apply, hd y hy]
    obtain ⟨h1, h2⟩ := ih hupd
    exact ⟨h1, congrArg (· + 1) h2⟩

end

/-! ### Threads -/

/-- Memory, and what the threads have still to do. -/
structure Threads (T K V : Type*) where
  data : K → V
  prog : T → Prog K V

variable [DecidableEq T]

inductive Turn (s : Threads T K V) (t : T) : Threads T K V → Prop
  | load {x : K} {k : V → Prog K V} (h : s.prog t = .load x k) :
      Turn s t ⟨s.data, Function.update s.prog t (k (s.data x))⟩
  | store {x : K} {v : V} {p : Prog K V} (h : s.prog t = .store x v p) :
      Turn s t ⟨Function.update s.data x v, Function.update s.prog t p⟩

/-- No thread stores to what another one accesses. -/
structure Apart (F W : T → Set K) (s : Threads T K V) : Prop where
  within : ∀ t, Within (F t) (W t) (s.prog t)
  apart : ∀ t u, t ≠ u → ∀ x ∈ W t, x ∉ F u

variable {F W : T → Set K} {s s' s₀ : Threads T K V} {t : T}

theorem Apart.turn (h : Apart F W s) (hs : Turn s t s') :
    Apart F W s' ∧ ∀ u, (∀ y ∈ F u, (s'.prog u).run s'.data y = (s.prog u).run s.data y) ∧
      (s'.prog u).cost s'.data + (if u = t then 1 else 0) = (s.prog u).cost s.data := by
  have hw := h.within t
  cases hs with
  | @load x k he =>
    rw [he] at hw
    cases hw with
    | load hx hk =>
      refine ⟨⟨fun u => ?_, h.apart⟩, fun u => ?_⟩
      · dsimp only
        by_cases hu : u = t
        · rw [hu, Function.update_self]
          exact hk _
        · rw [Function.update_of_ne hu]
          exact h.within u
      · dsimp only
        by_cases hu : u = t
        · rw [hu, Function.update_self, he, if_pos rfl]
          exact ⟨fun y _ => rfl, rfl⟩
        · rw [Function.update_of_ne hu, if_neg hu]
          exact ⟨fun y _ => rfl, rfl⟩
  | @store x v p he =>
    rw [he] at hw
    cases hw with
    | store hx hxw hp =>
      refine ⟨⟨fun u => ?_, h.apart⟩, fun u => ?_⟩
      · dsimp only
        by_cases hu : u = t
        · rw [hu, Function.update_self]
          exact hp
        · rw [Function.update_of_ne hu]
          exact h.within u
      · dsimp only
        by_cases hu : u = t
        · rw [hu, Function.update_self, he, if_pos rfl]
          exact ⟨fun y _ => rfl, rfl⟩
        · -- the store is not to what the others access
          have hsame : ∀ y ∈ F u, Function.update s.data x v y = s.data y := fun y hy => by
            have hne : y ≠ x := fun hyx => h.apart t u (Ne.symm hu) x hxw (hyx ▸ hy)
            exact Function.update_of_ne hne _ _
          rw [Function.update_of_ne hu, if_neg hu]
          exact (h.within u).congr hsame

/-- Whatever the order: what is left to do ends as it would have from the start. -/
theorem Apart.runs {n : ℕ} (h : Apart F W s₀) (hr : RunsIn (fun s s' => ∃ t, Turn s t s') s₀ n s) :
    Apart F W s ∧ ∀ u, ∀ y ∈ F u, (s.prog u).run s.data y = (s₀.prog u).run s₀.data y := by
  induction hr with
  | start => exact ⟨h, fun _ _ _ => rfl⟩
  | step _ hs ih =>
    obtain ⟨t, hs⟩ := hs
    obtain ⟨ha, hrun⟩ := ih
    obtain ⟨ha', hturn⟩ := ha.turn hs
    exact ⟨ha', fun u y hy => ((hturn u).1 y hy).trans (hrun u y hy)⟩

variable [Fintype T]

def costAll (s : Threads T K V) : ℕ := ∑ t, (s.prog t).cost s.data

theorem Apart.cost_turn (h : Apart F W s) (hs : Turn s t s') : costAll s' + 1 = costAll s := by
  obtain ⟨-, hturn⟩ := h.turn hs
  have hone : ∑ u : T, (if u = t then 1 else 0) = 1 := by
    rw [Finset.sum_ite_eq' Finset.univ t fun _ => 1, if_pos (Finset.mem_univ t)]
  unfold costAll
  rw [← hone, ← Finset.sum_add_distrib]
  exact Finset.sum_congr rfl fun u _ => (hturn u).2

theorem Apart.length_le {n : ℕ} (h : Apart F W s₀)
    (hr : RunsIn (fun s s' => ∃ t, Turn s t s') s₀ n s) :
    n + costAll s = costAll s₀ := by
  induction hr with
  | start => exact Nat.zero_add _
  | step hr hs ih =>
    obtain ⟨t, hs⟩ := hs
    have hcost := (h.runs hr).1.cost_turn hs
    omega

end Separate
