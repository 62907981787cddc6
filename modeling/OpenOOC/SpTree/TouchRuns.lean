import OpenOOC.SpTree.Covered

/-! Runs of `sp_tree_find_mod_and_lock` from an empty tree, where the structs of
`vma_alloc` carry any contents, and the flags in memory along them. -/

namespace OpenOOC

open Links SplayTree SplayTree.Tree Returns

variable {ps : PageSize} {h h0 h' : Heap} {p t n z : Ptr} {k : ℕ} {f : VmArea → VmArea}

/-! ### Runs -/

/-- A call of `sp_tree_find_mod_and_lock`, with what `vma_alloc` returns during it.
The caller releases the node; this does nothing to the tree. -/
structure Touch where
  vmAddr : ℕ
  supply : List (Option (Addr × VmArea))

def Touch.exec (ps : PageSize) (h : Heap) (c : Touch) : Option (Heap × Ptr) :=
  spTreeFindMod ps { h with supply := c.supply } c.vmAddr

def emptyHeap : Heap := ⟨fun _ => none, none, [], []⟩

/-- The address is that of a page, and the structs of `vma_alloc` are not in use. -/
structure Touch.Legal (ps : PageSize) (h : Heap) (c : Touch) : Prop where
  page : ps.bytes ∣ c.vmAddr
  inRange : c.vmAddr + ps.bytes < 2 ^ 64
  fresh : ∀ u, some u ∈ c.supply → h.cell (.vma u.1) = none ∧ u.1.toNat % 8 = 0
  distinct : ∀ z v y w rest, c.supply = some (z, v) :: some (y, w) :: rest → z ≠ y

/-- The states that legal calls reach, where each call meets a condition on the state
in which it is made. -/
inductive Reached (ps : PageSize) (meets : Heap → Touch → Prop) : Heap → Prop
  | empty : Reached ps meets emptyHeap
  | touch {h h' : Heap} {p : Ptr} {c : Touch} (hr : Reached ps meets h) (hc : c.Legal ps h)
    (hm : meets h c)
      (he : c.exec ps h = some (h', p)) : Reached ps meets h'

/-- What every call keeps, if it meets the condition, holds in every state reached. -/
theorem Reached.invariant {meets : Heap → Touch → Prop} {I : Heap → Prop} (h0 : I emptyHeap)
    (hstep : ∀ h c, I h → c.Legal ps h → meets h c → Ensures (c.exec ps h) fun out => I out.1)
    (hr : Reached ps meets h) : I h := by
  induction hr with
  | empty => exact h0
  | touch hr hc hm he ih => exact hstep _ _ ih hc hm _ he

def Touch.legal (ps : PageSize) (h : Heap) (c : Touch) : Bool :=
  decide (ps.bytes ∣ c.vmAddr) && decide (c.vmAddr + ps.bytes < 2 ^ 64) &&
    (c.supply.all fun u => u.all fun u => (h.cell (.vma u.1)).isNone && u.1.toNat % 8 == 0) &&
    match c.supply with
    | some (z, _) :: some (y, _) :: _ => z != y
    | _ => true

theorem Touch.legal_of {c : Touch} (hc : c.legal ps h = true) : c.Legal ps h := by
  simp only [Touch.legal, Bool.and_eq_true, decide_eq_true_eq] at hc
  obtain ⟨⟨⟨hp, hr⟩, hf⟩, hd⟩ := hc
  refine ⟨hp, hr, fun u hu => ?_, fun z v y w rest he => ?_⟩
  · simpa using List.all_eq_true.mp hf (some u) hu
  · rw [he] at hd
    simpa using hd

/-- Calls one after the other, as long as they are legal and pass the test. -/
def touchAll (ps : PageSize) (ok : Heap → Touch → Bool) (h : Heap) : List Touch → Option Heap
  | [] => some h
  | c :: cs =>
    if c.legal ps h && ok h c then (c.exec ps h).bind fun out => touchAll ps ok out.1 cs else none

theorem reached_touchAll {meets : Heap → Touch → Prop} {ok : Heap → Touch → Bool}
    {cs : List Touch} (hr : Reached ps meets h) (hm : ∀ h c, ok h c = true → meets h c)
    (he : touchAll ps ok h cs = some h') : Reached ps meets h' := by
  induction cs generalizing h with
  | nil => exact Option.some.inj he ▸ hr
  | cons c cs ih =>
    unfold touchAll at he
    split_ifs at he with hc
    obtain ⟨hl, hok⟩ := Bool.and_eq_true_iff.mp hc
    obtain ⟨out, he1, he2⟩ := Option.bind_eq_some_iff.mp he
    exact ih (.touch hr (Touch.legal_of hl) (hm h c hok) he1) he2

/-! ### Flags in memory -/

def IsProt (f : BitVec 64) : Prop := f = VM_PROT_READ ∨ f = VM_PROT_WRITE

structure ProtMem (h : Heap) : Prop where
  stack : h.cell .stack = none
  prot : ∀ x v, h.cell x = some v → IsProt v.vmFlags

theorem promote_read : VM_PROT_PROMOTE VM_PROT_READ = VM_PROT_WRITE := by decide

theorem isProt_promote {f : BitVec 64} (hf : IsProt f) (hw : f ≠ VM_PROT_WRITE) :
    IsProt (VM_PROT_PROMOTE f) := by
  rcases hf with rfl | rfl
  · exact Or.inr promote_read
  · exact absurd rfl hw

namespace ProtMem

theorem log (hm : ProtMem h) (calls : List VmaCall) : ProtMem { h with calls := calls } :=
  ⟨hm.stack, hm.prot⟩

theorem setRoot (hm : ProtMem h) (p : Ptr) : ProtMem { h with root := p } := ⟨hm.stack, hm.prot⟩

theorem links (hm : ProtMem h) (hl : LinksOnly h h') : ProtMem h' := by
  refine ⟨hl.stack hm.stack, fun x v hv => ?_⟩
  have hr := hl.range x
  rw [Heap.range, hv, Heap.range] at hr
  cases hc : h.cell x with
  | none => simp [hc] at hr
  | some w =>
    rw [hc] at hr
    have : v.vmFlags = w.vmFlags := (Prod.mk.inj (Option.some.inj hr)).1
    exact this ▸ hm.prot x w hc

theorem upd (hm : ProtMem h) (hf : ∀ v, (f v).vmFlags = v.vmFlags) : Ensures (h.upd p f) ProtMem :=
  upd_inv.mono fun _ ⟨r, _, _, he⟩ => by
    subst he
    refine ⟨?_, fun x v hv => ?_⟩
    · rw [Heap.cell_modify, hm.stack]
      simp
    · rw [Heap.cell_modify] at hv
      split_ifs at hv
      · obtain ⟨w, hw, rfl⟩ := Option.map_eq_some_iff.mp hv
        exact hf w ▸ hm.prot x w hw
      · exact hm.prot x v hv

theorem put {a : Addr} (hm : ProtMem h) {v : Option VmArea}
    (hv : ∀ w, v = some w → IsProt w.vmFlags) :
    ProtMem (h.put (.vma a) v) := by
  refine ⟨by rw [cell_put, if_neg (by simp), hm.stack], fun x w hw => ?_⟩
  rw [cell_put] at hw
  split_ifs at hw
  · exact hv w hw
  · exact hm.prot x w hw

theorem vmaFree (hm : ProtMem h) : Ensures (OpenOOC.vmaFree h p) ProtMem := by
  rcases p with _ | _ | a
  · exact .fails
  · exact .fails
  · refine .bind_eq fun v hv => .ite (fun _ => .bind_eq fun w hw => .some ?_) fun _ => .some ?_
    · have hflags : w.vmFlags = v.vmFlags := by
        unfold vmaFreeHeader at hw
        simp only [Option.bind_eq_bind, Option.bind_eq_some_iff, Option.pure_def, Option.some.injEq]
          at hw
        obtain ⟨-, -, -, -, -, -, rfl⟩ := hw
        rfl
      refine (hm.log _).put fun u hu => ?_
      obtain rfl := Option.some.inj hu
      exact hflags ▸ hm.prot _ v hv
    · exact (hm.log _).put fun u hu => absurd hu (by simp)

theorem newNode (hm : ProtMem h) {s e : ℕ} {f : Option (BitVec 64)}
    (hf : ∀ u rest, h.supply = some u :: rest → IsProt (f.getD u.2.vmFlags)) :
    Ensures (OpenOOC.newNode h s e f) fun out => ProtMem out.1 :=
  newNode_inv.mono fun _ ⟨z, v, rest, hs, he⟩ => by
    subst he
    refine ⟨by rw [cell_withNode, if_neg (by simp), hm.stack], fun x w hw => ?_⟩
    rw [cell_withNode] at hw
    split_ifs at hw
    · obtain rfl := Option.some.inj hw
      exact hf (z, v) rest hs
    · exact hm.prot x w hw

theorem insertHelper (hm : ProtMem h) : Ensures (sSpTreeInsertHelper h t z) ProtMem :=
  (sSpTreeInsertHelper_linksOnly (.refl h)).mono fun _ => hm.links

theorem removeHelper (hm : ProtMem h) : Ensures (sSpTreeRemoveHelper h t) ProtMem :=
  (sSpTreeRemoveHelper_linksOnly (.refl h) hm.stack).mono fun _ => hm.links

theorem splay (hm : ProtMem h) : Ensures (sSpTreeSplay h k t) fun out => ProtMem out.1 :=
  (sSpTreeSplay_spLinksOnly hm.stack).mono fun _ hl => hm.links hl.linksOnly

end ProtMem

/-! ### The call -/

def StaleProt (supply : List (Option (Addr × VmArea))) : Prop :=
  ∀ u rest, supply = some u :: rest → IsProt u.2.vmFlags

/-- A node that covers the page is not writable if it reaches beyond the page at both
ends. If it does at one end and no neighbour takes the page, the new struct has one
of the two protections. -/
def FlagsStay (ps : PageSize) (h : Heap) (c : Touch) : Prop :=
  ∀ x v, h.cell x = some v → v.vmStart ≤ c.vmAddr → c.vmAddr < v.vmEnd →
    (v.vmStart ≠ c.vmAddr → v.vmEnd ≠ ps.after c.vmAddr → v.vmFlags ≠ VM_PROT_WRITE) ∧
    (v.vmStart = c.vmAddr → v.vmEnd ≠ ps.after c.vmAddr →
      prevMatches h (some x) (VM_PROT_PROMOTE v.vmFlags) = some false → StaleProt c.supply) ∧
    (v.vmStart ≠ c.vmAddr → v.vmEnd = ps.after c.vmAddr →
      nextMatches h (some x) (VM_PROT_PROMOTE v.vmFlags) = some false → StaleProt c.supply)

namespace ProtMem

theorem prefixMerge (hm : ProtMem h) : Ensures (OpenOOC.prefixMerge h z) fun out => ProtMem out.1 :=
  .bind (.any _) fun _ _ => .bind hm.removeHelper fun _ h1 => .bind h1.vmaFree fun _ h2 =>
  .bind (h2.upd fun _ => rfl) fun _ h3 => .some h3

theorem suffixMerge (hm : ProtMem h) : Ensures (OpenOOC.suffixMerge h z) fun out => ProtMem out.1 :=
  .bind (.any _) fun _ _ => .bind hm.removeHelper fun _ h1 => .bind h1.vmaFree fun _ h2 =>
  .bind (h2.upd fun _ => rfl) fun _ h3 => .some h3

theorem mergePrev (hm : ProtMem h) {g : BitVec 64} :
    Ensures (OpenOOC.mergePrev h z g) fun out => ProtMem out.1 :=
  .bind (.any _) fun _ _ => .ite (fun _ => hm.prefixMerge) fun _ => .some hm

theorem mergeNext (hm : ProtMem h) {g : BitVec 64} :
    Ensures (OpenOOC.mergeNext h z g) fun out => ProtMem out.1 :=
  .bind (.any _) fun _ _ => .ite (fun _ => hm.suffixMerge) fun _ => .some hm

theorem addPage (hm : ProtMem h) : Ensures (OpenOOC.addPage ps h k t) fun out => ProtMem out.1 :=
  .bind (hm.newNode fun _ _ _ => Or.inl rfl) fun _ h1 => .bind h1.insertHelper fun _ h2 =>
  .bind (.any _) fun _ _ =>
  .bind h2.mergePrev fun _ h3 => .bind (.any _) fun _ _ => h3.mergeNext

theorem threeWayMerge (hm : ProtMem h) : Ensures (OpenOOC.threeWayMerge h n) fun out =>
    ProtMem out.1 :=
  .bind (.any _) fun _ _ => .bind hm.mergePrev fun _ h1 => .bind (.any _) fun _ _ =>
  .ite (fun _ => h1.suffixMerge) fun _ => .some h1

/-- The end of both migrations: the neighbour's range, and the splay that brings it to the root. -/
theorem migrated (hm : ProtMem h) (hf : ∀ v, (f v).vmFlags = v.vmFlags) : Ensures (do
      let h ← h.upd n f
      let v ← h.get n
      let (h, n) ← sSpTreeSplay h v.vmStart t
      return (({ h with root := n } : Heap), n)) fun out => ProtMem out.1 :=
  .bind (hm.upd hf) fun _ h1 => .bind (.any _) fun _ _ => .bind h1.splay fun _ h2 =>
  .some (h2.setRoot _)

theorem prefixMigrate (hm : ProtMem h) : Ensures (OpenOOC.prefixMigrate ps h k t n) fun out =>
    ProtMem out.1 := by
  refine .bind (.any _) fun vn _ => .ite (fun _ => ?_) fun _ => ?_
  · exact .bind hm.removeHelper fun _ h1 => .bind h1.vmaFree fun _ h2 => h2.migrated fun _ => rfl
  · exact .bind (hm.upd fun _ => rfl) fun _ h1 => h1.migrated fun _ => rfl

theorem suffixMigrate (hm : ProtMem h) : Ensures (OpenOOC.suffixMigrate h k t n) fun out =>
    ProtMem out.1 := by
  refine .bind (.any _) fun vn _ => .ite (fun _ => ?_) fun _ => ?_
  · exact .bind hm.removeHelper fun _ h1 => .bind h1.vmaFree fun _ h2 => h2.migrated fun _ => rfl
  · exact .bind (hm.upd fun _ => rfl) fun _ h1 => h1.migrated fun _ => rfl

theorem prefixSplit (hm : ProtMem h) (hs : StaleProt h.supply) :
    Ensures (OpenOOC.prefixSplit ps h k n) fun out => ProtMem out.1 :=
  .bind (hm.newNode hs) fun _ h1 => .bind (.any _) fun _ _ =>
  .bind (h1.upd fun _ => rfl) fun _ h2 =>
  .bind h2.insertHelper fun _ h3 => .some h3

theorem suffixSplit (hm : ProtMem h) (hs : StaleProt h.supply) :
    Ensures (OpenOOC.suffixSplit ps h k n) fun out => ProtMem out.1 :=
  .bind (hm.newNode hs) fun _ h1 => .bind (.any _) fun _ _ =>
  .bind (h1.upd fun _ => rfl) fun _ h2 =>
  .bind h2.insertHelper fun _ h3 => .some h3

theorem get (hm : ProtMem h) : Ensures (h.get p) fun v => IsProt v.vmFlags := fun v hv => by
  cases p with
  | none => cases hv
  | some x => exact hm.prot x v hv

theorem midSplit (hm : ProtMem h) (hw : ∀ v, h.get n = some v → v.vmFlags ≠ VM_PROT_WRITE) :
    Ensures (OpenOOC.midSplit ps h k n) fun out => ProtMem out.1 :=
  .bind_eq fun vn hn => .bind (hm.newNode fun _ _ _ => isProt_promote (hm.get vn hn) (hw vn hn))
    fun _ h1 =>
  .bind (.any _) fun _ _ => .bind h1.get fun _ hn' =>
  .bind (h1.newNode fun _ _ _ => hn') fun _ h2 =>
  .bind (h2.upd fun _ => rfl) fun _ h3 => .bind h3.insertHelper fun _ h4 =>
  .bind h4.insertHelper fun _ h5 => .some h5

end ProtMem

theorem coveringNode_covers : Ensures (coveringNode h k t) fun n =>
    n = none ∨ ∃ v, h.get n = some v ∧ v.vmStart ≤ k ∧ k < v.vmEnd :=
  .bind_eq fun vt ht => .ite (fun hc => .some (Or.inr ⟨vt, ht, hc⟩)) fun _ =>
  .ite (fun _ => .some (Or.inl rfl)) fun _ =>
  .bind_eq fun vp hp => .some (by
    split_ifs with hc
    · exact Or.inr ⟨vp, hp, hc⟩
    · exact Or.inl rfl)

/-! ### The tests on neighbours do not look at `sp_p`, `sp_l` and `sp_r`. -/

theorem SpLinksOnly.get (hl : SpLinksOnly h h') (p : Ptr) :
    (h'.get p).map (·.data) = (h.get p).map (·.data) := by
  cases p with
  | none => rfl
  | some x => exact hl.data x

theorem SpLinksOnly.get_some (hl : SpLinksOnly h h') {v : VmArea} (hv : h'.get p = some v) :
    ∃ w, h.get p = some w ∧ v.data = w.data := by
  have := hl.get p
  rw [hv] at this
  obtain ⟨w, hw, he⟩ := Option.map_eq_some_iff.mp this.symm
  exact ⟨w, hw, he.symm⟩

theorem prevMatches_congr (hl : SpLinksOnly h h') (z : Ptr) (g : BitVec 64) :
    prevMatches h' z g = prevMatches h z g := by
  have heq (h : Heap) : prevMatches h z g = ((h.get z).map (·.data)).bind fun d =>
      if d.2.1 = none then some false else
      ((h.get d.2.1).map (·.data)).bind fun e =>
        some (decide (e.2.2.2.2 = d.2.2.2.1 ∧ e.2.2.1 = g)) := by
    unfold prevMatches
    cases h.get z with
    | none => rfl
    | some vz =>
      simp only [Option.bind_eq_bind, Option.bind_some, Option.map_some, VmArea.data]
      split_ifs
      · rfl
      · cases h.get vz.vmPrev <;> rfl
  rw [heq h', heq h, hl.get z]
  simp only [hl.get]

theorem nextMatches_congr (hl : SpLinksOnly h h') (z : Ptr) (g : BitVec 64) :
    nextMatches h' z g = nextMatches h z g := by
  have heq (h : Heap) : nextMatches h z g = ((h.get z).map (·.data)).bind fun d =>
      if d.1 = none then some false else
      ((h.get d.1).map (·.data)).bind fun e =>
        some (decide (e.2.2.2.1 = d.2.2.2.2 ∧ e.2.2.1 = g)) := by
    unfold nextMatches
    cases h.get z with
    | none => rfl
    | some vz =>
      simp only [Option.bind_eq_bind, Option.bind_some, Option.map_some, VmArea.data]
      split_ifs
      · rfl
      · cases h.get vz.vmNext <;> rfl
  rw [heq h', heq h, hl.get z]
  simp only [hl.get]

/-! ### A whole call -/

namespace ProtMem

theorem modPage {c : Touch} (hm : ProtMem h') (hl : SpLinksOnly { h with supply := c.supply } h')
    (hstay : FlagsStay ps h c) {v : VmArea} (hn : h'.get n = some v)
    (hc : v.vmStart ≤ c.vmAddr ∧ c.vmAddr < v.vmEnd) :
    Ensures (OpenOOC.modPage ps h' c.vmAddr t n) fun out => ProtMem out.1 := by
  obtain ⟨w, hw, hd⟩ := hl.get_some hn
  cases n with
  | none => cases hn
  | some x =>
  simp only [VmArea.data, Prod.mk.injEq] at hd
  obtain ⟨-, -, hf, hs, he⟩ := hd
  have hw' : h.cell x = some w := hw
  obtain ⟨hmid, hpre, hsuf⟩ := hstay x w hw' (hs ▸ hc.1) (he ▸ hc.2)
  rw [← hs, ← he, ← hf] at hmid hpre hsuf
  have hsup : h'.supply = c.supply := hl.supply
  have hprev (g : BitVec 64) : prevMatches h' (some x) g = prevMatches h (some x) g :=
    prevMatches_congr hl _ g
  have hnext (g : BitVec 64) : nextMatches h' (some x) g = nextMatches h (some x) g :=
    nextMatches_congr hl _ g
  refine .bind_eq fun v' hv' => ?_
  obtain rfl : v = v' := Option.some.inj (hn.symm.trans hv')
  refine .ite (fun hcase => hm.midSplit fun u hu => ?_) fun hcase =>
    .ite (fun hcase' => ?_) fun hcase' =>
    .ite (fun hcase2 => ?_) fun _ => hm.threeWayMerge
  · obtain rfl := Option.some.inj (hn.symm.trans hu)
    exact hmid hcase.1 hcase.2
  · refine .bind_eq fun b hb => .ite (fun _ => hm.prefixMigrate) fun hbf => hm.prefixSplit ?_
    rw [hprev] at hb
    exact hsup ▸ hpre hcase'.1 hcase'.2 (by simpa [hbf] using hb)
  · refine .bind_eq fun b hb => .ite (fun _ => hm.suffixMigrate) fun hbf => hm.suffixSplit ?_
    rw [hnext] at hb
    exact hsup ▸ hsuf hcase2.1 hcase2.2 (by simpa [hbf] using hb)

theorem touch {c : Touch} (hm : ProtMem h) (hstay : FlagsStay ps h c) :
    Ensures (c.exec ps h) fun out => ProtMem out.1 := by
  have hm0 : ProtMem { h with supply := c.supply } := ⟨hm.stack, hm.prot⟩
  refine .ite (fun _ => .bind (hm0.newNode fun _ _ _ => Or.inl rfl) fun _ h1 =>
    .some (h1.setRoot _)) fun _ => ?_
  refine .bind (.and hm0.splay (sSpTreeSplay_spLinksOnly hm0.stack)) fun ⟨h1, t⟩ ⟨hm1, hl1⟩ => ?_
  refine .bind coveringNode_covers fun n hn => .ite (fun _ => hm1.addPage) fun hne => ?_
  obtain ⟨v, hv, hc⟩ := hn.resolve_left hne
  exact hm1.modPage hl1 hstay hv hc

end ProtMem

/-- In every state that is reached by calls which meet the condition, every node of the
tree, like every struct in memory, has one of the two protections. -/
theorem touched_nodes_are_readable (hr : Reached ps (FlagsStay ps) h) :
    (∀ T, TreeAt h h.root T → ∀ x ∈ T.toList, ∀ v, h.cell x = some v → IsProt v.vmFlags) ∧
      ∀ x v, h.cell x = some v → IsProt v.vmFlags := by
  have hm : ProtMem h := hr.invariant ⟨rfl, fun _ _ hv => nomatch hv⟩ fun _ _ hm _ hstay =>
    hm.touch hstay
  exact ⟨fun _ _ x _ => hm.prot x, hm.prot⟩

def staleZero (a : Addr) : Option (Addr × VmArea) := some (a, splayN)

def onePage : Heap :=
  { emptyHeap.withNode 72 ⟨none, none, none, none, none, VM_PROT_READ, 0, 4096⟩ with
    root := some (.vma 72) }

theorem onePage_reached {meets : Heap → Touch → Prop} (hm : meets emptyHeap ⟨0, [staleZero 72]⟩) :
    Reached pages4096 meets onePage := by
  have hlegal : (⟨0, [staleZero 72]⟩ : Touch).Legal pages4096 emptyHeap :=
    Touch.legal_of (by decide)
  refine .touch (p := some (.vma 72)) .empty hlegal hm ?_
  unfold Touch.exec spTreeFindMod
  rw [if_pos (show emptyHeap.root = none from rfl), @newNode_eq _ _ _ [] rfl]
  rfl

/-- The third touch of the run below: its struct says `VM_PROT_WRITE`. -/
def splitOffWritable : Touch := ⟨0, [some (136, { splayN with vmFlags := VM_PROT_WRITE })]⟩

/-- Pages 0 and 1 are touched, then page 0 again: it is split off in a struct that
happens to say `VM_PROT_WRITE`. -/
theorem touched_nodes_are_readable_split : ∃ h, Reached pages4096 (FlagsStay pages4096) h ∧
    h.readNodes 2 = some [⟨136, VM_PROT_WRITE, 0, 4096⟩, ⟨72, VM_PROT_READ, 4096, 8192⟩] ∧
    (∀ T, TreeAt h h.root T → ∀ x ∈ T.toList, ∀ v, h.cell x = some v → IsProt v.vmFlags) ∧
      ∀ x v, h.cell x = some v → IsProt v.vmFlags := by
  have hrun : ((⟨4096, [staleZero 136]⟩ : Touch).exec pages4096 onePage).any (fun out =>
      splitOffWritable.legal pages4096 out.1 &&
      (splitOffWritable.exec pages4096 out.1).any fun out =>
        decide (out.1.readNodes 2 =
          some [⟨136, VM_PROT_WRITE, 0, 4096⟩, ⟨72, VM_PROT_READ, 4096, 8192⟩])) = true := by
    decide +kernel
  obtain ⟨out₁, he₁, hrun⟩ := (Option.any_eq_true _ _).mp hrun
  obtain ⟨hlegal, hrun⟩ := Bool.and_eq_true_iff.mp hrun
  obtain ⟨out₂, he₂, hnodes⟩ := (Option.any_eq_true _ _).mp hrun
  -- no node covers page 1 when it is touched
  have hstay₁ : FlagsStay pages4096 onePage ⟨4096, [staleZero 136]⟩ := fun x v hv _ hk => by
    have hv : (emptyHeap.withNode 72 _).cell x = some v := hv
    rw [cell_withNode] at hv
    split_ifs at hv
    · obtain rfl := Option.some.inj hv
      exact absurd hk (by decide)
    · cases hv
  have hstay₂ : FlagsStay pages4096 out₁.1 splitOffWritable := fun x v hv hs hk => by
    have hs : v.vmStart = splitOffWritable.vmAddr := Nat.le_zero.mp hs
    have hprot : StaleProt splitOffWritable.supply := fun u rest hu => by
      obtain ⟨hu, -⟩ := List.cons.inj hu
      obtain rfl := Option.some.inj hu
      exact Or.inr rfl
    exact ⟨fun h => absurd hs h, fun _ _ _ => hprot, fun h => absurd hs h⟩
  have hreached : Reached pages4096 (FlagsStay pages4096) out₂.1 :=
    .touch (.touch (onePage_reached fun x v hv => nomatch hv)
      (Touch.legal_of (by decide)) hstay₁ he₁)
      (Touch.legal_of hlegal) hstay₂ he₂
  exact ⟨out₂.1, hreached, of_decide_eq_true hnodes, touched_nodes_are_readable hreached⟩

/-- Pages 0 and 1 are touched, then page 0 again: it is split off with the flags that
its struct happened to carry. -/
theorem touched_node_loses_protection : ∃ h, Reached pages4096 (fun _ _ => True) h ∧
    ∃ x v, h.root = some x ∧ h.cell x = some v ∧ ¬ IsProt v.vmFlags := by
  have hrun : (touchAll pages4096 (fun _ _ => true) emptyHeap
      [⟨0, [staleZero 72]⟩, ⟨4096, [staleZero 136]⟩, ⟨0, [staleZero 200]⟩]).any
      (fun h => h.root = some (.vma 200) ∧ (h.cell (.vma 200)).any fun v =>
        v.vmFlags = VM_PROT_NONE) = true := by
    decide +kernel
  obtain ⟨h, he, hp⟩ := (Option.any_eq_true _ _).mp hrun
  obtain ⟨hroot, hv⟩ := of_decide_eq_true hp
  obtain ⟨v, hv, hf⟩ := (Option.any_eq_true _ _).mp hv
  refine ⟨h, reached_touchAll .empty (fun _ _ _ => trivial) he, _, v, hroot, hv, ?_⟩
  rw [of_decide_eq_true hf]
  exact fun hprot => hprot.elim (by decide) (by decide)

end OpenOOC
