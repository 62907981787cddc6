import Mathlib.Data.Set.Insert
import Mathlib.Order.Basic
import Mathlib.Tactic.Common

/-! Sets of labelled ranges of numbers. Part of such a set is taken out and other
ranges that fill the same gap are put in; what that does to overlaps, to the label
of each number, and to neighbours with one label. -/

namespace Ranges

variable {α β : Type*} {start stop : α → ℕ} {label : α → β}

def Covers (start stop : α → ℕ) (a : α) (k : ℕ) : Prop := start a ≤ k ∧ k < stop a

structure Apart (start stop : α → ℕ) (S : Set α) : Prop where
  nonempty : ∀ a ∈ S, start a < stop a
  apart : ∀ a ∈ S, ∀ b ∈ S, a ≠ b → stop a ≤ start b ∨ stop b ≤ start a

def LabelAt (start stop : α → ℕ) (label : α → β) (S : Set α) (k : ℕ) (b : β) : Prop :=
  ∃ a ∈ S, Covers start stop a k ∧ label a = b

/-- No range ends where one with the same label starts. -/
def Coalesced (start stop : α → ℕ) (label : α → β) (S : Set α) : Prop :=
  ∀ a ∈ S, ∀ b ∈ S, stop a = start b → label a ≠ label b

def Fills (start stop : α → ℕ) (S : Set α) (lo hi : ℕ) : Prop :=
  ∀ k, (∃ a ∈ S, Covers start stop a k) ↔ lo ≤ k ∧ k < hi

section

variable {S R M : Set α} {a b : α} {k lo hi : ℕ} {f : β}

namespace Apart

theorem eq_of_covers (h : Apart start stop S) (ha : a ∈ S) (hb : b ∈ S)
    (hak : Covers start stop a k)
    (hbk : Covers start stop b k) : a = b := by
  by_contra hne
  have h1 := h.apart a ha b hb hne
  unfold Covers at hak hbk
  omega

theorem eq_of_start (h : Apart start stop S) (ha : a ∈ S) (hb : b ∈ S) (he : start a = start b) :
    a = b :=
  h.eq_of_covers ha hb ⟨le_refl _, h.nonempty a ha⟩ ⟨by omega, by have := h.nonempty b hb; omega⟩

theorem eq_of_stop (h : Apart start stop S) (ha : a ∈ S) (hb : b ∈ S) (he : stop a = stop b) :
    a = b := by
  have h1 := h.nonempty a ha
  have h2 := h.nonempty b hb
  exact h.eq_of_covers (k := stop a - 1) ha hb ⟨by omega, by omega⟩ ⟨by omega, by omega⟩

/-- The ranges of `M` fill part of the gap that `R` leaves. -/
theorem replace (h : Apart start stop S) (hM : Apart start stop M)
    (hin : ∀ m ∈ M, lo ≤ start m ∧ stop m ≤ hi)
    (hout : ∀ a ∈ S, a ∉ R → stop a ≤ lo ∨ hi ≤ start a) :
    Apart start stop (S \ R ∪ M) := by
  refine ⟨?_, ?_⟩
  · rintro a (⟨ha, -⟩ | ha)
    · exact h.nonempty a ha
    · exact hM.nonempty a ha
  · rintro a (⟨ha, haR⟩ | ha) b (⟨hb, hbR⟩ | hb) hne
    · exact h.apart a ha b hb hne
    · have h1 := hout a ha haR
      have h2 := hin b hb
      omega
    · have h1 := hout b hb hbR
      have h2 := hin a ha
      omega
    · exact hM.apart a ha b hb hne

/-- What is not among ranges that fill a gap lies outside the gap. -/
theorem outside (h : Apart start stop S) (hR : R ⊆ S) (hf : Fills start stop R lo hi)
    (hgap : lo < hi) :
    ∀ a ∈ S, a ∉ R → stop a ≤ lo ∨ hi ≤ start a := fun a ha haR => by
  by_contra hno
  rw [not_or, not_le, not_le] at hno
  have hlt := h.nonempty a ha
  obtain ⟨b, hb, hbk⟩ := (hf (max (start a) lo)).mpr ⟨by omega, by omega⟩
  exact haR (h.eq_of_covers ha (hR hb) ⟨by omega, by omega⟩ hbk ▸ hb)

theorem inside (h : Apart start stop M) (hf : Fills start stop M lo hi) :
    ∀ m ∈ M, lo ≤ start m ∧ stop m ≤ hi :=
  fun m hm => by
    have hlt := h.nonempty m hm
    have h1 := (hf (start m)).mp ⟨m, hm, le_refl _, hlt⟩
    have h2 := (hf (stop m - 1)).mp ⟨m, hm, by omega, by omega⟩
    omega

end Apart

/-- Ranges that fill one gap cover one set of numbers. -/
theorem covers_replace (hR : R ⊆ S) (hfR : Fills start stop R lo hi)
    (hfM : Fills start stop M lo hi) (k : ℕ) :
    (∃ a ∈ S \ R ∪ M, Covers start stop a k) ↔ ∃ a ∈ S, Covers start stop a k := by
  constructor
  · rintro ⟨a, ⟨ha, -⟩ | ha, hak⟩
    · exact ⟨a, ha, hak⟩
    · obtain ⟨b, hb, hbk⟩ := (hfR k).mpr ((hfM k).mp ⟨a, ha, hak⟩)
      exact ⟨b, hR hb, hbk⟩
  · rintro ⟨a, ha, hak⟩
    by_cases haR : a ∈ R
    · obtain ⟨b, hb, hbk⟩ := (hfM k).mpr ((hfR k).mp ⟨a, haR, hak⟩)
      exact ⟨b, Or.inr hb, hbk⟩
    · exact ⟨a, Or.inl ⟨ha, haR⟩, hak⟩

theorem Fills.cons {m : ℕ} (h : Fills start stop M m hi) (ha : start a ≤ stop a) (he : stop a = m)
    (hm : m ≤ hi) :
    Fills start stop (insert a M) (start a) hi := fun k => by
  have hins : (∃ b ∈ insert a M, Covers start stop b k) ↔
      Covers start stop a k ∨ ∃ b ∈ M, Covers start stop b k := by
    simp only [Set.mem_insert_iff, or_and_right, exists_or, exists_eq_left]
  rw [hins, h k]
  unfold Covers
  omega

/-- The ranges of `M` label the numbers of `P` with `f`, and the others as those of `R` do. -/
theorem labelAt_replace {P : ℕ → Prop} [DecidablePred P] (hR : R ⊆ S)
    (hout : ∀ a ∈ S, a ∉ R → ∀ k, P k → ¬ Covers start stop a k)
    (hM : ∀ k b, LabelAt start stop label M k b ↔ if P k then b = f
    else LabelAt start stop label R k b) (k : ℕ) (b : β) :
    LabelAt start stop label (S \ R ∪ M) k b ↔ if P k then b = f
      else LabelAt start stop label S k b := by
  have hunion : LabelAt start stop label (S \ R ∪ M) k b ↔
      LabelAt start stop label (S \ R) k b ∨ LabelAt start stop label M k b := by
    simp only [LabelAt, Set.mem_union, or_and_right, exists_or]
  rw [hunion, hM]
  split_ifs with hP
  · refine or_iff_right ?_
    rintro ⟨a, ⟨ha, haR⟩, hak, -⟩
    exact hout a ha haR k hP hak
  · constructor
    · rintro (⟨a, ⟨ha, -⟩, hab⟩ | ⟨a, ha, hab⟩)
      · exact ⟨a, ha, hab⟩
      · exact ⟨a, hR ha, hab⟩
    · rintro ⟨a, ha, hab⟩
      by_cases haR : a ∈ R
      · exact Or.inr ⟨a, haR, hab⟩
      · exact Or.inl ⟨a, ⟨ha, haR⟩, hab⟩

theorem Coalesced.replace (h : Coalesced start stop label S) (hM : Coalesced start stop label M)
    (hl : ∀ a ∈ S, a ∉ R → ∀ m ∈ M, stop a = start m → label a ≠ label m)
    (hr : ∀ a ∈ S, a ∉ R → ∀ m ∈ M, stop m = start a → label m ≠ label a) :
    Coalesced start stop label (S \ R ∪ M) := by
  rintro a (⟨ha, haR⟩ | ha) b (⟨hb, hbR⟩ | hb) he
  · exact h a ha b hb he
  · exact hl a ha haR b hb he
  · exact hr b hb hbR a ha he
  · exact hM a ha b hb he

end

end Ranges
