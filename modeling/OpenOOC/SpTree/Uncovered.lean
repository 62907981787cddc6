import OpenOOC.SpTree.CallSteps
import OpenOOC.SpTree.FindModCall

/-! `sp_tree_find_mod_and_lock` for a page that no node covers. -/

namespace OpenOOC

open Links SplayTree SplayTree.Tree

variable {ps : PageSize} {h : Heap} {S R M : Finset Node} {T : Tree Ref} {n p q x : Node}
  {k e a : ℕ} {z : Addr}
  {freed : List Addr}

/-- The live nodes `S'` after the page from `k` to `e` has been added to `S`, as part
of the node `x`. -/
structure PageAdded (k e : ℕ) (S S' : Finset Node) (x : Node) : Prop where
  flags : ∀ a f, FlagsAt S' a f ↔ if k ≤ a ∧ a < e then f = VM_PROT_READ else FlagsAt S a f
  mem : x ∈ S'
  covers : x.Covers k
  left : x.start < k ↔ ∃ p, LeftOf S k VM_PROT_READ p
  left_start : ∀ p, LeftOf S k VM_PROT_READ p → x.start = p.start
  right : e < x.stop ↔ ∃ q, RightOf S e VM_PROT_READ q
  right_stop : ∀ q, RightOf S e VM_PROT_READ q → x.stop = q.stop
  others : ∀ n, n ≠ x → (n ∈ S' ↔ n ∈ S ∧ ¬ LeftOf S k VM_PROT_READ n ∧
    ¬ RightOf S e VM_PROT_READ n)

namespace AddStep

theorem left_unique (hp : PagesOk ps S) {f : BitVec 64} (hl : LeftOf S k f p)
    (hl' : LeftOf S k f q) : p = q :=
  hp.apart.eq_of_stop hl.1 hl'.1 (hl.2.1.trans hl'.2.1.symm)

theorem right_unique (hp : PagesOk ps S) {f : BitVec 64} (hr : RightOf S e f p)
    (hr' : RightOf S e f q) : p = q :=
  hp.apart.eq_of_start hr.1 hr'.1 (hr.2.1.trans hr'.2.1.symm)

theorem ends (h : AddStep k e S z R M x freed) (hp : PagesOk ps S) :
    (x.start < k ↔ ∃ p, LeftOf S k VM_PROT_READ p) ∧
    (∀ p, LeftOf S k VM_PROT_READ p → x.start = p.start) ∧
    (e < x.stop ↔ ∃ q, RightOf S e VM_PROT_READ q) ∧ ∀ q, RightOf S e VM_PROT_READ q →
      x.stop = q.stop := by
  have hlt {p : Node} (hl : LeftOf S k VM_PROT_READ p) : p.start < k := hl.2.1 ▸ hp.nonempty p hl.1
  have hgt {q : Node} (hr : RightOf S e VM_PROT_READ q) : e < q.stop := hr.2.1 ▸ hp.nonempty q hr.1
  have hnol (hl : ∀ p, ¬ LeftOf S k VM_PROT_READ p) : (k < k ↔ ∃ p, LeftOf S k VM_PROT_READ p) :=
    ⟨fun h => absurd h (lt_irrefl _), fun ⟨p, hp⟩ => absurd hp (hl p)⟩
  have hnor (hr : ∀ q, ¬ RightOf S e VM_PROT_READ q) : (e < e ↔ ∃ q, RightOf S e VM_PROT_READ q) :=
    ⟨fun h => absurd h (lt_irrefl _), fun ⟨q, hq⟩ => absurd hq (hr q)⟩
  cases h with
  | alone hl hr => exact ⟨hnol hl, fun p hp => absurd hp (hl p), hnor hr,
      fun q hq => absurd hq (hr q)⟩
  | left hl hr =>
    have h1 := hlt hl
    exact ⟨⟨fun _ => ⟨_, hl⟩, fun _ => h1⟩, fun p hp' => by rw [left_unique hp hp' hl], hnor hr,
      fun q hq => absurd hq (hr q)⟩
  | right hl hr =>
    have h2 := hgt hr
    exact ⟨hnol hl, fun p hp => absurd hp (hl p), ⟨fun _ => ⟨_, hr⟩, fun _ => h2⟩,
      fun q hq => by rw [right_unique hp hq hr]⟩
  | both hl hr =>
    have h1 := hlt hl
    have h2 := hgt hr
    exact ⟨⟨fun _ => ⟨_, hl⟩, fun _ => h1⟩, fun p hp' => by rw [left_unique hp hp' hl],
      ⟨fun _ => ⟨_, hr⟩, fun _ => h2⟩, fun q hq => by rw [right_unique hp hq hr]⟩

/-- Only nodes that are merged away go, and only the returned node comes. -/
theorem removed (h : AddStep k e S z R M x freed) (hp : PagesOk ps S) :
    M = {x} ∧ ∀ n, n ∈ R ↔ LeftOf S k VM_PROT_READ n ∨ RightOf S e VM_PROT_READ n := by
  have hleft {p n : Node} (hl : LeftOf S k VM_PROT_READ p) : LeftOf S k VM_PROT_READ n ↔ n = p :=
    ⟨fun hn => left_unique hp hn hl, fun hn => hn ▸ hl⟩
  have hright {q n : Node} (hr : RightOf S e VM_PROT_READ q) : RightOf S e VM_PROT_READ n ↔ n = q :=
    ⟨fun hn => right_unique hp hn hr, fun hn => hn ▸ hr⟩
  cases h with
  | alone hl hr => exact ⟨rfl, fun n => by simp [hl, hr]⟩
  | left hl hr => exact ⟨rfl, fun n => by simp [hleft hl, hr]⟩
  | right hl hr => exact ⟨rfl, fun n => by simp [hright hr, hl]⟩
  | both hl hr => exact ⟨rfl, fun n => by simp [hleft hl, hright hr]⟩

theorem added (h : AddStep k e S z R M x freed) (hp : PagesOk ps S) (hk : ps.bytes ∣ k)
    (he : e = k + ps.bytes)
    (hwrap : e < 2 ^ 64) (hno : ∀ n ∈ S, ¬ n.Covers k) : PageAdded k e S (S \ R ∪ M) x := by
  have hpos := ps.bytes_pos
  obtain ⟨hR, -, hx, hc, -⟩ := h.pagesOk hp hk he hwrap hno
  obtain ⟨hl, hls, hr, hrs⟩ := h.ends hp
  obtain ⟨hM, hmem⟩ := h.removed hp
  refine ⟨h.flagsAt hp (by omega) hR fun n hn => he ▸ hp.page_apart hn hk (hno n hn), hx, hc, hl,
    hls, hr, hrs,
    fun n hne => ?_⟩
  rw [Finset.mem_union, Finset.mem_sdiff, hM, Finset.mem_singleton, hmem, not_or]
  exact or_iff_left hne

/-- What is given back: the new struct and those of the nodes that go, but for the one that
stays. -/
theorem mem_freed (h : AddStep k e S z R M x freed) (hp : PagesOk ps S) (hke : k < e)
    (hz : Fresh S z)
    (hinj : ∀ n ∈ S, ∀ m ∈ S, n.addr = m.addr → n = m) (a : Addr) :
    a ∈ freed ↔ (a = z ∨ ∃ n ∈ R, n.addr = a) ∧ a ≠ x.addr := by
  cases h with
  | alone hl hr => simp
  | left hl hr =>
    have := hz.2 _ hl.1
    simp only [List.mem_singleton, Finset.mem_singleton, exists_eq_left]
    grind
  | right hl hr =>
    have := hz.2 _ hr.1
    simp only [List.mem_singleton, Finset.mem_singleton, exists_eq_left]
    grind
  | @both p q hl hr =>
    have hp' := hz.2 _ hl.1
    have hq' := hz.2 _ hr.1
    have hle : p.stop ≤ q.start := by rw [hl.2.1, hr.2.1]; exact hke.le
    have hpq : p.addr ≠ q.addr := fun he =>
      hp.ranges.ne_of_le hl.1 hle (hinj p hl.1 q hr.1 he)
    simp only [List.mem_cons, List.not_mem_nil, or_false, Finset.mem_insert, Finset.mem_singleton,
      exists_eq_or_imp,
      exists_eq_left]
    grind

/-- The structs given back are those that are in the tree no more. -/
theorem freed_iff (h : AddStep k e S z R M x freed) (hp : PagesOk ps S) (hke : k < e) (hR : R ⊆ S)
    (hz : Fresh S z)
    (hinj : ∀ n ∈ S, ∀ m ∈ S, n.addr = m.addr → n = m) (a : Addr) :
    a ∈ freed ↔ (a = z ∨ ∃ n ∈ S, n.addr = a) ∧ ∀ m ∈ S \ R ∪ M, m.addr ≠ a := by
  obtain ⟨hM, -⟩ := h.removed hp
  rw [h.mem_freed hp hke hz hinj, hM]
  have hrest : (∀ m ∈ S \ R ∪ {x}, m.addr ≠ a) ↔ (∀ m ∈ S, m ∉ R → m.addr ≠ a) ∧ a ≠ x.addr := by
    simp only [Finset.mem_union, Finset.mem_sdiff, Finset.mem_singleton, or_imp, forall_and,
      forall_eq, and_imp,
      ne_comm (a := a)]
  rw [hrest]
  constructor
  · rintro ⟨rfl | ⟨n, hn, rfl⟩, hx⟩
    · exact ⟨Or.inl rfl, fun m hm _ => hz.2 m hm, hx⟩
    · exact ⟨Or.inr ⟨n, hR hn, rfl⟩, fun m hm hmR he => hmR (hinj m hm n (hR hn) he ▸ hn), hx⟩
  · rintro ⟨rfl | ⟨n, hn, rfl⟩, hout, hx⟩
    · exact ⟨Or.inl rfl, hx⟩
    · refine ⟨Or.inr ⟨n, ?_, rfl⟩, hx⟩
      by_contra hnR
      exact hout n hn hnR rfl

theorem nodup_freed (h : AddStep k e S z R M x freed) (hz : Fresh S z) : freed.Nodup := by
  cases h with
  | alone hl hr => exact List.nodup_nil
  | left hl hr => exact List.nodup_singleton z
  | right hl hr => exact List.nodup_singleton z
  | both hl hr => simpa using (hz.2 _ hl.1).symm

end AddStep

/-! ### Two nodes -/

def twoNodes (a b : Node) (supply : List (Option (Addr × VmArea))) : Heap where
  cell := fun x =>
    if x = a.ref then some ⟨some b.ref, none, some b.ref, none, none, a.flags, a.start, a.stop⟩
    else if x = b.ref then some ⟨none, some a.ref, none, some a.ref, none, b.flags, b.start, b.stop⟩
    else none
  root := some b.ref
  supply := supply
  calls := []

theorem twoNodes_holds {a b : Node} {supply : List (Option (Addr × VmArea))}
    (hab : a.start < b.start)
    (hne : a.addr ≠ b.addr) (ha : a.addr.toNat % 8 = 0) (hb : b.addr.toNat % 8 = 0) :
    Holds (twoNodes a b supply) {a, b} (node (node nil a.ref nil) b.ref nil) := by
  have hr : b.ref ≠ a.ref := fun he => hne (Ref.vma.inj he).symm
  have hra : (twoNodes a b supply).range a.ref = some (a.flags, a.start, a.stop) := by
    simp [Heap.range, twoNodes]
  have hrb : (twoNodes a b supply).range b.ref = some (b.flags, b.start, b.stop) := by
    simp [Heap.range, twoNodes, hr]
  refine ⟨⟨rfl, ?_, fun x hx => ?_, ?_, ?_, ?_⟩,
    by simp [Node.ref, Ref.Aligned, ha, hb], fun n => ?_⟩
  · simp [Shape, Up, Heap.Ok, Heap.child, Heap.par, VmArea.child, twoNodes, hr]
  · obtain rfl : b.ref = x := by simpa using hx
    simp [Heap.par, twoNodes, hr]
  · simp [Seg, Heap.next, Heap.prev, twoNodes, hr]
  · simp [Heap.start, twoNodes, hr, hab]
  · simp [twoNodes, Node.ref]
  · simp only [Finset.mem_insert, Finset.mem_singleton, toList_node, toList_nil, List.nil_append,
      List.mem_append,
      List.mem_cons, List.not_mem_nil, or_false]
    constructor
    · rintro (rfl | rfl)
      · exact ⟨Or.inl rfl, hra⟩
      · exact ⟨Or.inr rfl, hrb⟩
    · rintro ⟨hx | hx, hn⟩
      · exact Or.inl (Node.ext_ref hx (Option.some.inj (hn.symm.trans (hx ▸ hra))))
      · exact Or.inr (Node.ext_ref hx (Option.some.inj (hn.symm.trans (hx ▸ hrb))))

def pages4096 : PageSize := .small

theorem pagesOk_two {a b : Node} (ha : 4096 ∣ a.start ∧ 4096 ∣ a.stop)
    (hb : 4096 ∣ b.start ∧ 4096 ∣ b.stop)
    (h1 : a.start < a.stop) (h2 : a.stop ≤ b.start) (h3 : b.start < b.stop) (h4 : b.stop < 2 ^ 64) :
    PagesOk pages4096 {a, b} := by
  refine .of_apart ?_ ?_ ⟨?_, ?_⟩
  · simpa [pages4096, PageSize.small, PageSize.bytes] using ⟨ha, hb⟩
  · simp only [Finset.mem_insert, Finset.mem_singleton, forall_eq_or_imp, forall_eq]
    omega
  · simpa using ⟨h1, h3⟩
  · simp only [Finset.coe_insert, Finset.coe_singleton, Set.mem_insert_iff, Set.mem_singleton_iff]
    rintro x (rfl | rfl) y (rfl | rfl) hne
    · exact absurd rfl hne
    · exact Or.inl h2
    · exact Or.inr h2
    · exact absurd rfl hne

theorem readsNull_two {a b : Node} (hab : b.start = a.stop) (ha : a.start < a.stop)
    (hb : b.start < b.stop) :
    ReadsNull {a, b} a := by
  refine ⟨⟨b, by simp, hab⟩, .inl ⟨?_, ?_⟩⟩
  · rintro p ⟨hp, hpe, -⟩
    simp only [Finset.mem_insert, Finset.mem_singleton] at hp
    rcases hp with rfl | rfl <;> omega
  · intro m hm
    simp only [Finset.mem_insert, Finset.mem_singleton] at hm
    rcases hm with rfl | rfl <;> omega

/-! ### The call -/

/-- A call for a page that no node covers adds the page, and gives back the structs
that it merges away. -/
theorem find_mod_adds_page (hh : Holds h S T) (hp : PagesOk ps S) (hk : ps.bytes ∣ k)
    (hwrap : k + ps.bytes < 2 ^ 64)
    (hno : ∀ n ∈ S, ¬ n.Covers k) {v : VmArea} {rest : List (Option (Addr × VmArea))}
    (hsup : h.supply = some (z, v) :: rest) (hz : Fresh S z) :
    ∃ h' S' T' x, ∃ freed : List Addr, spTreeFindMod ps h k = some (h', some x.ref) ∧
      Holds h' S' T' ∧ PagesOk ps S' ∧
      PageAdded k (k + ps.bytes) S S' x ∧ h'.supply = rest ∧
      h'.calls = h.calls ++ .alloc (some z) :: freed.map .free ∧
      freed.Nodup ∧ ∀ a, a ∈ freed ↔ (a = z ∨ ∃ n ∈ S, n.addr = a) ∧ ∀ m ∈ S', m.addr ≠ a := by
  obtain ⟨h', T', R, M, x, freed, he, hh', hstep, hsup', hcalls⟩ :=
    hh.findMod_add hp.ranges hwrap (fun n hn => hp.page_apart hn hk (hno n hn)) hsup hz
  have hke : k < k + ps.bytes := Nat.lt_add_of_pos_right ps.bytes_pos
  obtain ⟨hR, hp', -⟩ := hstep.pagesOk hp hk rfl hwrap hno
  have hinj : ∀ n ∈ S, ∀ m ∈ S, n.addr = m.addr → n = m :=
    fun n hn m hm he => hh.linked.eq_of_ref hn hm (congrArg Ref.vma he)
  exact ⟨h', _, T', x, freed, he, hh', hp', hstep.added hp hk rfl hwrap hno, hsup', hcalls,
    hstep.nodup_freed hz,
    hstep.freed_iff hp hke hR hz hinj⟩

/-- The page between two nodes that can be read becomes part of the upper one. -/
theorem find_mod_adds_page_between : ∃ h' S' T' x, ∃ freed : List Addr,
    spTreeFindMod pages4096 (twoNodes ⟨72, VM_PROT_READ, 0, 4096⟩ ⟨136, VM_PROT_READ, 8192, 12288⟩
      [some (200, splayN)])
      4096 = some (h', some x.ref) ∧ Holds h' S' T' ∧ PagesOk pages4096 S' ∧
    PageAdded 4096 (4096 + pages4096.bytes)
      {⟨72, VM_PROT_READ, 0, 4096⟩, ⟨136, VM_PROT_READ, 8192, 12288⟩} S' x ∧
    h'.supply = [] ∧ h'.calls = .alloc (some 200) :: freed.map .free ∧ freed.Nodup ∧
    ∀ a, a ∈ freed ↔
      (a = 200 ∨ ∃ n ∈ ({⟨72, VM_PROT_READ, 0, 4096⟩, ⟨136, VM_PROT_READ, 8192, 12288⟩} :
        Finset Node),
      n.addr = a) ∧ ∀ m ∈ S', m.addr ≠ a :=
  find_mod_adds_page (T := node (node nil (.vma 72) nil) (.vma 136) nil)
    (twoNodes_holds (by decide) (by decide) (by decide) (by decide))
    (pagesOk_two (by decide) (by decide) (by decide)
      (by decide) (by decide) (by decide)) (by decide) (by decide) (by decide) rfl
      ⟨by decide, by decide⟩

end OpenOOC
