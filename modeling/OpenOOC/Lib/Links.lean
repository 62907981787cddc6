import Mathlib.Data.List.Basic
import Mathlib.Data.List.Induction
import Mathlib.Data.List.Nodup

/-! Intrusive linked lists. The links of an element are read through functions
`next` and `prev`, so the same lemmas serve lists whose links live in different
records. A segment has an entry (what the first element's `prev` says) and an
exit (what the last element's `next` says). -/

namespace Links

variable {α : Type*} {next prev next' prev' : α → Option α}

/-- `L` is exactly what is met by following `next` from `p` up to the end. -/
def Chain (next : α → Option α) : Option α → List α → Prop
  | p, [] => p = none
  | p, a :: L => p = some a ∧ Chain next (next a) L

/-- A doubly linked segment with entry `p` and exit `q`. -/
def Seg (next prev : α → Option α) : Option α → List α → Option α → Prop
  | _, [], _ => True
  | p, a :: L, q => prev a = p ∧ next a = L.head?.or q ∧ Seg next prev (some a) L q

@[simp] theorem seg_nil (p q : Option α) : Seg next prev p [] q := trivial

@[simp] theorem seg_cons (p q : Option α) (a : α) (L : List α) :
    Seg next prev p (a :: L) q ↔
      prev a = p ∧ next a = L.head?.or q ∧ Seg next prev (some a) L q := Iff.rfl

@[simp] theorem chain_nil (p : Option α) : Chain next p [] ↔ p = none := Iff.rfl

@[simp] theorem chain_cons (p : Option α) (a : α) (L : List α) :
    Chain next p (a :: L) ↔ p = some a ∧ Chain next (next a) L := Iff.rfl

/-! ### Chains -/

theorem Chain.congr {p : Option α} {L : List α} (h : Chain next p L)
    (hn : ∀ a ∈ L, next' a = next a) : Chain next' p L := by
  induction L generalizing p with
  | nil => exact h
  | cons a L ih =>
    refine ⟨h.1, ?_⟩
    rw [hn a (by simp)]
    exact ih h.2 fun b hb => hn b (by simp [hb])

theorem Chain.head {p : Option α} {L : List α} (h : Chain next p L) : p = L.head? := by
  cases L with
  | nil => exact h
  | cons a L => exact h.1

/-- The chain from a pointer is determined by the links. -/
theorem Chain.unique {p : Option α} {L L' : List α} (h : Chain next p L)
    (h' : Chain next p L') : L = L' := by
  induction L generalizing p L' with
  | nil =>
    cases L' with
    | nil => rfl
    | cons b L' => exact absurd (h.symm.trans h'.1) (by simp)
  | cons a L ih =>
    cases L' with
    | nil => exact absurd (h'.symm.trans h.1) (by simp)
    | cons b L' =>
      obtain rfl : a = b := Option.some.inj (h.1.symm.trans h'.1)
      rw [ih h.2 h'.2]

theorem chain_range {f : ℕ → α} {k : ℕ} (hs : ∀ j < k, next (f j) = some (f (j + 1)))
    (he : next (f k) = none) : Chain next (some (f 0)) ((List.range (k + 1)).map f) := by
  induction k generalizing f with
  | zero => exact ⟨rfl, he⟩
  | succ k ih =>
    rw [List.range_succ_eq_map, List.map_cons, List.map_map]
    refine ⟨rfl, ?_⟩
    rw [hs 0 (by omega)]
    exact ih (f := f ∘ Nat.succ) (fun j hj => hs (j + 1) (by omega)) he

/-! ### Segments -/

theorem Seg.congr {p q : Option α} {L : List α} (h : Seg next prev p L q)
    (hn : ∀ a ∈ L, next' a = next a) (hp : ∀ a ∈ L, prev' a = prev a) :
    Seg next' prev' p L q := by
  induction L generalizing p with
  | nil => trivial
  | cons a L ih =>
    refine ⟨?_, ?_, ih h.2.2 (fun b hb => hn b (by simp [hb])) fun b hb => hp b (by simp [hb])⟩
    · rw [hp a (by simp)]; exact h.1
    · rw [hn a (by simp)]; exact h.2.1

theorem seg_append (p q : Option α) (L1 L2 : List α) :
    Seg next prev p (L1 ++ L2) q ↔
      Seg next prev p L1 (L2.head?.or q) ∧ Seg next prev (L1.getLast?.or p) L2 q := by
  induction L1 generalizing p with
  | nil => simp
  | cons a L1 ih =>
    rw [List.cons_append, seg_cons, seg_cons, ih, List.head?_append, Option.or_assoc]
    have hlast : (a :: L1).getLast?.or p = L1.getLast?.or (some a) := by
      cases L1 <;> simp [List.getLast?_cons]
    rw [hlast]
    tauto

/-- What passes along the links, and holds of one element, holds of all. -/
theorem Seg.forall_of_mem {p q : Option α} {L : List α} {P : α → Prop} {a : α}
    (h : Seg next prev p L q)
    (hn : ∀ x, P x → ∀ y, next x = some y → P y) (hp : ∀ x, P x → ∀ y, prev x = some y → P y)
    (ha : a ∈ L) (hPa : P a) :
    ∀ b ∈ L, P b := by
  induction L generalizing p a with
  | nil => exact fun b hb => absurd hb (by simp)
  | cons c L ih =>
    have hrest (hPc : P c) : ∀ b ∈ L, P b := by
      cases L with
      | nil => exact fun b hb => absurd hb (by simp)
      | cons d L => exact ih h.2.2 (by simp) (hn c hPc d (by simpa using h.2.1))
    rcases List.mem_cons.mp ha with rfl | ha
    · exact fun b hb => (List.mem_cons.mp hb).elim (fun hba => hba ▸ hPa) (hrest hPa b)
    · have hPL := ih h.2.2 ha hPa
      cases L with
      | nil => simp at ha
      | cons d L =>
        have hPc : P c := hp d (hPL d (by simp)) c h.2.2.1
        exact fun b hb => (List.mem_cons.mp hb).elim (fun hbc => hbc ▸ hPc) (hPL b)

/-- Changing the link out of the last element changes the exit. -/
theorem Seg.set_exit [DecidableEq α] {p q q' : Option α} {L : List α} (h : Seg next prev p L q)
    (hnd : L.Nodup)
    (hp : ∀ a ∈ L, prev' a = prev a)
    (hn : ∀ a ∈ L, next' a = if L.getLast? = some a then q' else next a) :
    Seg next' prev' p L q' := by
  induction L generalizing p with
  | nil => trivial
  | cons a L ih =>
    obtain ⟨ha, hnd⟩ := List.nodup_cons.mp hnd
    refine ⟨(hp a (by simp)).trans h.1, ?_, ?_⟩
    · rw [hn a (by simp)]
      cases L with
      | nil => simp
      | cons b L =>
        have hne : (a :: b :: L).getLast? ≠ some a := by
          intro he
          rw [List.getLast?_cons_cons] at he
          exact ha (List.mem_of_getLast? he)
        rw [if_neg hne]
        simpa using h.2.1
    · refine ih h.2.2 hnd (fun b hb => hp b (by simp [hb])) fun b hb => ?_
      rw [hn b (by simp [hb])]
      cases L with
      | nil => simp at hb
      | cons c L => rw [List.getLast?_cons_cons]

theorem Seg.set_entry [DecidableEq α] {p p' q : Option α} {L : List α} (h : Seg next prev p L q)
    (hnd : L.Nodup)
    (hn : ∀ a ∈ L, next' a = next a)
    (hp : ∀ a ∈ L, prev' a = if L.head? = some a then p' else prev a) :
    Seg next' prev' p' L q := by
  cases L with
  | nil => trivial
  | cons a L =>
    obtain ⟨ha, -⟩ := List.nodup_cons.mp hnd
    refine ⟨by rw [hp a (by simp)]; simp, (hn a (by simp)).trans h.2.1, ?_⟩
    refine h.2.2.congr (fun b hb => hn b (by simp [hb])) fun b hb => ?_
    rw [hp b (by simp [hb]), if_neg]
    rintro he
    obtain rfl : a = b := by simpa using he
    exact ha hb

theorem Seg.prev_of_mem {p q : Option α} {L1 L2 : List α} {a : α}
    (h : Seg next prev p (L1 ++ a :: L2) q) : prev a = L1.getLast?.or p :=
  ((seg_append ..).mp h).2.1

theorem Seg.next_of_mem {p q : Option α} {L1 L2 : List α} {a : α}
    (h : Seg next prev p (L1 ++ a :: L2) q) : next a = L2.head?.or q :=
  ((seg_append ..).mp h).2.2.1

/-- Taking `a` out of a segment: its neighbours are linked to each other. -/
theorem Seg.unlink [DecidableEq α] {p q : Option α} {L1 L2 : List α} {a : α}
    (h : Seg next prev p (L1 ++ a :: L2) q) (hnd : (L1 ++ a :: L2).Nodup)
    (hn : ∀ b ∈ L1 ++ L2, next' b = if L1.getLast? = some b then L2.head?.or q else next b)
    (hp : ∀ b ∈ L1 ++ L2, prev' b = if L2.head? = some b then L1.getLast?.or p else prev b) :
    Seg next' prev' p (L1 ++ L2) q := by
  obtain ⟨h1, -, -, h2⟩ := (seg_append ..).mp h
  obtain ⟨hnd1, hnd2, hdis⟩ := List.nodup_append.mp hnd
  have hnd2 := (List.nodup_cons.mp hnd2).2
  refine (seg_append ..).mpr ⟨?_, ?_⟩
  · refine h1.set_exit hnd1 (fun b hb => ?_) fun b hb => hn b (by simp [hb])
    rw [hp b (by simp [hb]), if_neg]
    intro he
    exact hdis b hb b (by simp [List.mem_of_head? he]) rfl
  · refine h2.set_entry hnd2 (fun b hb => ?_) fun b hb => hp b (by simp [hb])
    rw [hn b (by simp [hb]), if_neg]
    intro he
    exact hdis b (List.mem_of_getLast? he) b (by simp [hb]) rfl

theorem Seg.link [DecidableEq α] {p q : Option α} {L1 L2 : List α} {a : α}
    (h : Seg next prev p (L1 ++ L2) q) (hnd : (L1 ++ a :: L2).Nodup)
    (hna : next' a = L2.head?.or q) (hpa : prev' a = L1.getLast?.or p)
    (hn : ∀ b ∈ L1 ++ L2, next' b = if L1.getLast? = some b then some a else next b)
    (hp : ∀ b ∈ L1 ++ L2, prev' b = if L2.head? = some b then some a else prev b) :
    Seg next' prev' p (L1 ++ a :: L2) q := by
  obtain ⟨h1, h2⟩ := (seg_append ..).mp h
  obtain ⟨hnd1, hnd2, hdis⟩ := List.nodup_append.mp hnd
  have hnd2 := (List.nodup_cons.mp hnd2).2
  refine (seg_append ..).mpr ⟨?_, hpa, hna, ?_⟩
  · refine h1.set_exit hnd1 (fun b hb => ?_) fun b hb => ?_
    · rw [hp b (by simp [hb]), if_neg]
      intro he
      exact hdis b hb b (by simp [List.mem_of_head? he]) rfl
    · rw [hn b (by simp [hb])]; simp
  · refine h2.set_entry hnd2 (fun b hb => ?_) fun b hb => hp b (by simp [hb])
    rw [hn b (by simp [hb]), if_neg]
    intro he
    exact hdis b (List.mem_of_getLast? he) b (by simp [hb]) rfl

/-- Following `next` from the first element meets the segment in order. -/
theorem Seg.chain_next {p : Option α} {L : List α} (h : Seg next prev p L none) :
    Chain next L.head? L := by
  induction L generalizing p with
  | nil => rfl
  | cons a L ih =>
    refine ⟨rfl, ?_⟩
    rw [h.2.1, Option.or_none]
    exact ih h.2.2

/-- Following `prev` from the last element meets the segment backwards. -/
theorem Seg.chain_prev {q : Option α} {L : List α} (h : Seg next prev none L q) :
    Chain prev L.getLast? L.reverse := by
  induction L using List.reverseRecOn generalizing q with
  | nil => rfl
  | append_singleton L a ih =>
    obtain ⟨h1, h2⟩ := (seg_append ..).mp h
    rw [List.reverse_append, List.getLast?_append]
    refine ⟨by simp, ?_⟩
    rw [h2.1, Option.or_none]
    exact ih h1

end Links
