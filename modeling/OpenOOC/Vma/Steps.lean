import OpenOOC.Vma.Threads

/-! Every step that is not a race succeeds and keeps the invariant. -/

namespace OpenOOC.Vma

open LockMachine

variable {Tid : Type} [DecidableEq Tid] {Λ : Layout} {t : Tid} {m m' : Mem Tid} {p' : Pc Tid}
  {g g' : Ghost Tid} {lock : LockId Tid → Option Tid} {pc : Tid → Pc Tid} {b s v : ℕ}

omit [DecidableEq Tid] in
theorem Rep.sVma2block_mem (hr : Rep Λ m g) (hb : IsBlock m b) (hv : v ∈ g.vl b) :
    sVma2block v = b := by
  obtain ⟨s, hs, hbs⟩ := id hb
  exact hr.held.slot_block hb ((hr.block s hs b hbs).sub v hv)

def Good (Λ : Layout) (t : Tid) (pc : Tid → Pc Tid) (r : Option (Mem Tid × Pc Tid)) : Prop :=
  ∃ m' p' g', r = some (m', p') ∧ Rep Λ m' g' ∧ Threads Λ m' g' (Function.update pc t p')

/-! ### What the other threads rely on -/

/-- A thread that works on a block under its lock moves it, and takes or files
at most one struct. -/
theorem Threads.block_step (ht : Threads Λ m g pc) (hr : Rep Λ m g) (ho : Owned Holds ⟨m, lock, pc⟩)
    (hst : BlockStep m g m' g' b) (hh : Holds t (pc t) (.block b)) (hblock : (pc t).block = some b)
    (hread : ∀ t', pc t' = .allocGetBlock b → g.place b = .pooled t' ∨ g.place b = .emptied t' →
      g'.place b = .pooled t' ∨ g'.place b = .emptied t')
    (hret : ∀ t' v, pc t' = .allocReturn (some v) → sVma2block v = b →
      (g.place b).owner = some t' → (g'.place b).owner = some t')
    (hbal : ∀ v, v ∈ g'.vl b ∨ p'.flight = some v ↔ v ∈ g.vl b ∨ (pc t).flight = some v)
    (hmoves : (g'.place b).Transient → p'.moves = some b)
    (hmoved : ∀ c, (pc t).moves = some c → c = b)
    (htop : (pc t).top = none) (hrel : (pc t).relists = none) (hputs : (pc t).puts = none)
    (hputs' : p'.puts = none) (hloc : Local Λ m' g' t p') :
    Threads Λ m' g' (Function.update pc t p') := by
  obtain ⟨⟨blk, vn, mp, hm⟩, hgl, hfl, hstage, hvl, hplace⟩ := hst
  have hheld : m'.held = m.held := by rw [hm]
  have hsup : m'.superblock = m.superblock := by rw [hm]
  have hlive : m'.live = m.live := by rw [hm]
  have hinit : m'.init = m.init := by rw [hm]
  have hb : IsBlock m b := ((ht.loc t).block b hblock).1
  have hib : ∀ c, IsBlock m' c ↔ IsBlock m c := fun c => isBlock_congr hheld
  have hown : ∀ v, (pc t).flight = some v → sVma2block v = b := fun v hv =>
    (Option.some.inj (hblock.symm.trans ((ht.loc t).flight v hv).1)).symm
  -- a struct that another thread, or a caller, has stays off the lists
  have hoff : ∀ v, v ∉ g.vl (sVma2block v) → (pc t).flight ≠ some v → v ∉ g'.vl (sVma2block v) := by
    intro v hv hf hv'
    by_cases hc : sVma2block v = b
    · rw [hc] at hv hv'
      exact ((hbal v).mp (Or.inl hv')).elim hv hf
    · rw [hvl _ hc] at hv'
      exact hv hv'
  have hnew : ∀ v, p'.flight = some v → ∀ t', t' ≠ t → (pc t').flight ≠ some v := by
    intro v hv t' htt hf
    rcases (hbal v).mp (Or.inr hv) with h | h
    · have := ((ht.loc t').flight v hf).2.2.1
      rw [hr.sVma2block_mem hb h] at this
      exact this h
    · exact htt (ht.flight t' t v hf h)
  refine ⟨fun t' => ?_, fun c hc htr => ?_, fun s hs hσ => ?_, fun s hs hσ => ?_, fun s hs hσ => ?_,
    fun t₁ t₂ s h₁ h₂ => ?_, fun t₁ t₂ v h₁ h₂ => ?_, hlive ▸ ht.nodup, fun v hv => ?_,
      fun c hc v hv hn => ?_⟩
  · by_cases htt : t' = t
    · subst htt
      rwa [Function.update_self]
    rw [Function.update_of_ne htt]
    have h := ht.loc t'
    refine ⟨fun c hc => ?_, ?_, ?_, fun v hv => ?_, ?_, ?_, ?_⟩
    · obtain ⟨hcb, hok⟩ := h.block c hc
      refine ⟨(hib c).mpr hcb, ?_⟩
      by_cases hcb' : c = b
      · subst hcb'
        rcases Pc.block_holds (t := t') hc with hh' | he | ⟨v, he⟩ | ⟨v, he, hv⟩
        · exact absurd (ho.unique hh' hh) htt
        · rw [he] at hok ⊢
          exact hread t' he hok
        · rw [he]
          trivial
        · rw [he] at hok ⊢
          exact hret t' v he hv hok
      · rwa [hplace c hcb', hvl c hcb']
    · rw [hheld, hstage, hsup]; exact h.super
    · rw [hheld]; exact h.pair
    · obtain ⟨h1, h2, h3, h4⟩ := h.flight v hv
      exact ⟨h1, h2, hoff v h3 fun hf => htt (ht.flight t' t v hv hf), hlive ▸ h4⟩
    · rw [hgl]; exact h.top
    · rw [hfl]; exact h.first
    · rw [hinit]; exact h.fills
  · rw [hib] at hc
    by_cases hcb : c = b
    · subst hcb
      exact ⟨t, by rw [Function.update_self]; exact hmoves htr⟩
    · rw [hplace c hcb] at htr
      exact exists_update (ht.moved c hc htr) fun h => absurd (hmoved c h) hcb
  · exact exists_update (ht.fresh s (hheld ▸ hs) (hstage ▸ hσ)) (by simp [htop])
  · exact exists_update (ht.relist s (hheld ▸ hs) (hstage ▸ hσ)) (by simp [hrel])
  · exact exists_update (ht.putting s (hheld ▸ hs) (hstage ▸ hσ)) (by simp [hputs])
  · have hne : ∀ t', (Function.update pc t p' t').puts = some s → t' ≠ t := by
      rintro t' h rfl
      rw [Function.update_self, hputs'] at h
      cases h
    have e₁ := hne t₁ h₁
    have e₂ := hne t₂ h₂
    rw [Function.update_of_ne e₁] at h₁
    rw [Function.update_of_ne e₂] at h₂
    exact ht.puts t₁ t₂ s h₁ h₂
  · by_cases e₁ : t₁ = t <;> by_cases e₂ : t₂ = t
    · rw [e₁, e₂]
    · subst e₁
      rw [Function.update_self] at h₁
      rw [Function.update_of_ne e₂] at h₂
      exact absurd h₂ (hnew v h₁ t₂ e₂)
    · subst e₂
      rw [Function.update_self] at h₂
      rw [Function.update_of_ne e₁] at h₁
      exact absurd h₁ (hnew v h₂ t₁ e₁)
    · rw [Function.update_of_ne e₁] at h₁
      rw [Function.update_of_ne e₂] at h₂
      exact ht.flight t₁ t₂ v h₁ h₂
  · rw [hlive] at hv
    obtain ⟨h1, h2, h3⟩ := ht.live v hv
    exact ⟨(hib _).mpr h1, h2, hoff v h3 fun hf => ((ht.loc t).flight v hf).2.2.2 hv⟩
  · rw [hib] at hc
    have hvc := hr.held.slot_block hc hv
    rw [hlive]
    by_cases hin : v ∈ g.vl c ∨ (pc t).flight = some v
    · have hcb : c = b := by
        by_contra hcb
        rw [hvl c hcb] at hn
        exact hcb (hvc.symm.trans (hown v (hin.resolve_left hn)))
      subst hcb
      have := ((hbal v).mpr hin).resolve_left hn
      exact Or.inr ⟨t, by rwa [Function.update_self]⟩
    · rw [not_or] at hin
      refine (ht.out c hc v hv hin.1).imp_right fun ⟨t', ht'⟩ => ⟨t', ?_⟩
      have htt : t' ≠ t := by
        rintro rfl
        exact hin.2 ht'
      rwa [Function.update_of_ne htt]

/-- A thread that works on a superblock under its lock, or gives it back, moves
it and one of its blocks. -/
theorem Threads.super_step (ht : Threads Λ m g pc) (ho : Owned Holds ⟨m, lock, pc⟩)
    (hst : SuperStep m g m' g' b s)
    (hgate : Holds t (pc t) (.superblock s) ∧ g.stage s ≠ .putting ∨ (pc t).puts = some s)
    (hplace : g'.place = g.place ∨ Holds t (pc t) (.block b) ∧ (g.place b).owner = none)
    (hgl : g'.gl = g.gl ∨ Holds t (pc t) .gpool)
    (hfl : g'.fl = g.fl ∨ Holds t (pc t) (.superblock s))
    (hflight : p'.flight = (pc t).flight)
    (hmoves : (g'.place b).Transient → p'.moves = some b)
    (hmoved : ∀ c, (pc t).moves = some c → c = b)
    (htop : ∀ x, (pc t).top = some x → x = s) (hrel : ∀ x, (pc t).relists = some x → x = s)
    (hputs : ∀ x, (pc t).puts = some x → x = s) (hfresh' : g'.stage s ≠ .fresh)
    (hrel' : g'.stage s = .relist → p'.relists = some s)
    (hputting' : g'.stage s = .putting ∨ g'.stage s = .detached → p'.puts = some s)
    (hputs' : ∀ x, p'.puts = some x → x = s)
    (hloc : Local Λ m' g' t p') : Threads Λ m' g' (Function.update pc t p') := by
  obtain ⟨⟨sb, blk, gh, hm⟩, hvl, hpl, hpl', hfl', hstage, hbctr, hatt⟩ := hst
  have hheld : m'.held = m.held := by rw [hm]
  have hlive : m'.live = m.live := by rw [hm]
  have hinit : m'.init = m.init := by rw [hm]
  have hib : ∀ c, IsBlock m' c ↔ IsBlock m c := fun c => isBlock_congr hheld
  -- no other thread works on the superblock
  have honly : ∀ t', t' ≠ t → (pc t').super ≠ some s := by
    intro t' htt hs
    have hok := ((ht.loc t').super s hs).2
    have hiff := Pc.puts_iff hs hok
    rcases hgate with ⟨hh, hσ⟩ | hp
    · rcases Pc.super_holds (t := t') hs with hh' | hp'
      · exact htt (ho.unique hh' hh)
      · exact (hiff.mp hp').elim hσ hatt
    · have hs' := Pc.puts_super hp
      have := (Pc.puts_iff hs' ((ht.loc t).super s hs').2).mp hp
      exact htt (ht.puts t' t s (hiff.mpr this) hp)
  have hfs : ∀ t' v, (Function.update pc t p' t').flight = some v ↔ (pc t').flight = some v := by
    intro t' v
    by_cases htt : t' = t
    · subst htt
      rw [Function.update_self, hflight]
    · rw [Function.update_of_ne htt]
  refine ⟨fun t' => ?_, fun c hc htr => ?_, fun x hx hσ => ?_, fun x hx hσ => ?_, fun x hx hσ => ?_,
    fun t₁ t₂ x h₁ h₂ => ?_, fun t₁ t₂ v h₁ h₂ => ?_, hlive ▸ ht.nodup, fun v hv => ?_,
      fun c hc v hv hn => ?_⟩
  · by_cases htt : t' = t
    · subst htt
      rwa [Function.update_self]
    rw [Function.update_of_ne htt]
    have h := ht.loc t'
    refine ⟨fun c hc => ?_, fun x hx => ?_, ?_, fun v hv => ?_, fun x hx => ?_, fun x c hx => ?_,
      ?_⟩
    · obtain ⟨hcb, hok⟩ := h.block c hc
      refine ⟨(hib c).mpr hcb, ?_⟩
      rw [hvl]
      by_cases hcb' : c = b
      · subst hcb'
        rcases hplace with hplace | ⟨hh, hown⟩
        · rwa [hplace]
        · rcases Pc.block_holds (t := t') hc with hh' | he | ⟨v, he⟩ | ⟨v, he, hv⟩
          · exact absurd (ho.unique hh' hh) htt
          · rw [he] at hok
            rcases hok with hok | hok <;> rw [hok] at hown <;> cases hown
          · rw [he]
            trivial
          · rw [he] at hok
            change (g.place c).owner = some t' at hok
            rw [hok] at hown
            cases hown
      · rwa [hpl' c hcb']
    · have hxs : x ≠ s := by
        rintro rfl
        exact honly t' htt hx
      rw [hheld, hstage x hxs, hbctr x hxs]
      exact h.super x hx
    · rw [hheld]; exact h.pair
    · rw [hvl, hlive]; exact h.flight v hv
    · rcases hgl with hgl | hh
      · rw [hgl]; exact h.top x hx
      · exact absurd (ho.unique (Pc.top_holds hx) hh) htt
    · rcases hfl with hfl | hh
      · rw [hfl]; exact h.first x c hx
      · have hxs : x ≠ s := by
          rintro rfl
          exact htt (ho.unique (Pc.first_holds hx).2 hh)
        rw [hfl' x hxs]
        exact h.first x c hx
    · rw [hinit]; exact h.fills
  · rw [hib] at hc
    by_cases hcb : c = b
    · subst hcb
      exact ⟨t, by rw [Function.update_self]; exact hmoves htr⟩
    · rw [hpl' c hcb] at htr
      exact exists_update (ht.moved c hc htr) fun h => absurd (hmoved c h) hcb
  · have hxs : x ≠ s := by
      rintro rfl
      exact hfresh' hσ
    rw [hheld] at hx
    exact exists_update (ht.fresh x hx (hstage x hxs ▸ hσ)) fun h => absurd (htop x h) hxs
  · by_cases hxs : x = s
    · subst hxs
      exact ⟨t, by rw [Function.update_self]; exact hrel' hσ⟩
    · rw [hheld] at hx
      exact exists_update (ht.relist x hx (hstage x hxs ▸ hσ)) fun h => absurd (hrel x h) hxs
  · by_cases hxs : x = s
    · subst hxs
      exact ⟨t, by rw [Function.update_self]; exact hputting' hσ⟩
    · rw [hheld] at hx
      exact exists_update (ht.putting x hx (hstage x hxs ▸ hσ)) fun h => absurd (hputs x h) hxs
  · have hother : ∀ t', t' ≠ t → p'.puts = some x → (pc t').puts ≠ some x := by
      intro t' htt h h'
      obtain rfl := hputs' x h
      exact honly t' htt (Pc.puts_super h')
    by_cases e₁ : t₁ = t <;> by_cases e₂ : t₂ = t
    · rw [e₁, e₂]
    · rw [e₁, Function.update_self] at h₁
      rw [Function.update_of_ne e₂] at h₂
      exact absurd h₂ (hother t₂ e₂ h₁)
    · rw [e₂, Function.update_self] at h₂
      rw [Function.update_of_ne e₁] at h₁
      exact absurd h₁ (hother t₁ e₁ h₂)
    · rw [Function.update_of_ne e₁] at h₁
      rw [Function.update_of_ne e₂] at h₂
      exact ht.puts t₁ t₂ x h₁ h₂
  · exact ht.flight t₁ t₂ v ((hfs t₁ v).mp h₁) ((hfs t₂ v).mp h₂)
  · rw [hlive] at hv
    rw [hib, hvl]
    exact ht.live v hv
  · rw [hib] at hc
    rw [hvl] at hn
    rw [hlive]
    exact (ht.out c hc v hv hn).imp_right fun ⟨t', ht'⟩ => ⟨t', (hfs t' v).mpr ht'⟩

omit [DecidableEq Tid] in
/-- What the threads rely on is in few parts of memory. -/
theorem Threads.mem (ht : Threads Λ m g pc) (hheld : m'.held = m.held) (hlive : m'.live = m.live)
    (hbctr : ∀ x, (m'.superblock x).bctr = (m.superblock x).bctr)
    (hinit : ∀ p, m.init p = true → m'.init p = true) : Threads Λ m' g pc := by
  have hib : ∀ c, IsBlock m' c ↔ IsBlock m c := fun c => isBlock_congr hheld
  refine ⟨fun t => ?_, by simpa only [hib] using ht.moved, by rw [hheld]; exact ht.fresh,
    by rw [hheld]; exact ht.relist, by rw [hheld]; exact ht.putting, ht.puts, ht.flight,
    hlive ▸ ht.nodup, by simpa only [hib, hlive] using ht.live,
    by simpa only [hib, hlive] using ht.out⟩
  obtain ⟨h1, h2, h3, h4, h5, h6, h7⟩ := ht.loc t
  exact ⟨by simpa only [hib] using h1, by simpa only [hheld, hbctr] using h2,
    by rw [hheld]; exact h3, by rw [hlive]; exact h4, h5, h6, fun h => hinit t (h7 h)⟩

/-- A struct goes from a thread to the callers, or back. -/
theorem Threads.hand (ht : Threads Λ m g pc) {live : List ℕ} {log : List (Event Tid)}
    (hnd : live.Nodup)
    (hbal : ∀ v, v ∈ live ∨ p'.flight = some v ↔ v ∈ m.live ∨ (pc t).flight = some v)
    (hmoves : (pc t).moves = none) (htop : (pc t).top = none) (hrel : (pc t).relists = none)
    (hputs : (pc t).puts = none) (hputs' : p'.puts = none)
    (hloc : Local Λ { m with live := live, log := log } g t p') :
    Threads Λ { m with live := live, log := log } g (Function.update pc t p') := by
  have hother : ∀ t' v, t' ≠ t → (pc t').flight = some v → v ∉ live ∧ p'.flight ≠ some v := by
    intro t' v htt hv
    have h1 := ((ht.loc t').flight v hv).2.2.2
    have h2 : (pc t).flight ≠ some v := fun h => htt (ht.flight t' t v hv h)
    exact ⟨fun h => ((hbal v).mp (Or.inl h)).elim h1 h2,
      fun h => ((hbal v).mp (Or.inr h)).elim h1 h2⟩
  refine ⟨fun t' => ?_, fun c hc htr => exists_update (ht.moved c hc htr) (by rw [hmoves]; nofun),
    fun x hx hσ => exists_update (ht.fresh x hx hσ) (by rw [htop]; nofun),
    fun x hx hσ => exists_update (ht.relist x hx hσ) (by rw [hrel]; nofun),
    fun x hx hσ => exists_update (ht.putting x hx hσ) (by rw [hputs]; nofun),
      fun t₁ t₂ x h₁ h₂ => ?_,
    fun t₁ t₂ v h₁ h₂ => ?_, hnd, fun v hv => ?_, fun c hc v hv hn => ?_⟩
  · by_cases htt : t' = t
    · subst htt
      rwa [Function.update_self]
    rw [Function.update_of_ne htt]
    have h := ht.loc t'
    refine ⟨h.block, h.super, h.pair, fun v hv => ?_, h.top, h.first, h.fills⟩
    obtain ⟨h1, h2, h3, -⟩ := h.flight v hv
    exact ⟨h1, h2, h3, (hother t' v htt hv).1⟩
  · have hne : ∀ t', (Function.update pc t p' t').puts = some x → t' ≠ t := by
      rintro t' h rfl
      rw [Function.update_self, hputs'] at h
      cases h
    rw [Function.update_of_ne (hne t₁ h₁)] at h₁
    rw [Function.update_of_ne (hne t₂ h₂)] at h₂
    exact ht.puts t₁ t₂ x h₁ h₂
  · by_cases e₁ : t₁ = t <;> by_cases e₂ : t₂ = t
    · rw [e₁, e₂]
    · rw [e₁, Function.update_self] at h₁
      rw [Function.update_of_ne e₂] at h₂
      exact absurd h₁ (hother t₂ v e₂ h₂).2
    · rw [e₂, Function.update_self] at h₂
      rw [Function.update_of_ne e₁] at h₁
      exact absurd h₂ (hother t₁ v e₁ h₁).2
    · rw [Function.update_of_ne e₁] at h₁
      rw [Function.update_of_ne e₂] at h₂
      exact ht.flight t₁ t₂ v h₁ h₂
  · rcases (hbal v).mp (Or.inl hv) with h | h
    · exact ht.live v h
    · obtain ⟨h1, h2, h3, -⟩ := (ht.loc t).flight v h
      exact ⟨((ht.loc t).block _ h1).1, h2, h3⟩
  · rcases ht.out c hc v hv hn with h | ⟨t', h⟩
    · exact ((hbal v).mpr (Or.inl h)).imp_right fun h => ⟨t, by rwa [Function.update_self]⟩
    · by_cases htt : t' = t
      · subst htt
        exact ((hbal v).mpr (Or.inr h)).imp_right fun h => ⟨t', by rwa [Function.update_self]⟩
      · exact Or.inr ⟨t', by rwa [Function.update_of_ne htt]⟩

/-! ### Steps on a pool -/

section

variable (hr : Rep Λ m g) (ht : Threads Λ m g pc) (ho : Owned Holds ⟨m, lock, pc⟩)
  (hn : ¬ Race ⟨m, lock, pc⟩ t)

include hr ht ho hn

theorem good_allocTake (hp : pc t = .allocTake b) : Good Λ t pc (allocTake Λ t m b) := by
  obtain ⟨hb, hq⟩ := (ht.loc t).block b (by rw [hp]; rfl)
  rw [hp] at hq
  change g.place b = .pooled t at hq
  have hhead : (g.vl b).length = 1 → m.mpoolHead t = some b := by
    intro h1
    obtain ⟨v, hv⟩ := List.length_eq_one_iff.mp h1
    have hfree : g.place b ≠ .free := by simp [hq]
    obtain ⟨s, hs, hbs⟩ := id hb
    have hc := (hr.block s hs b hbs).chain (hr.stage_ne hs hbs hfree)
    rw [hv] at hc
    by_contra hne
    exact hn (.take hp hc.1 hc.2 hne)
  obtain ⟨v, vs, m', hvl, he, hst, hr'⟩ := hr.allocTake hb (by simp [hq]) hhead
  obtain ⟨s, hs, hbs⟩ := id hb
  have hnd := (hr.block s hs b hbs).nodup
  have hvs := (hr.block s hs b hbs).sub v (by simp [hvl])
  rw [hvl] at hnd
  have hvb := hr.sVma2block_mem hb (v := v) (by simp [hvl])
  have hvl' : (g.take t b vs).vl b = vs := by simp [Ghost.take]
  have hplace' : (g.take t b vs).place b = if vs = [] then .full t else .pooled t := by
    simp [Ghost.take]
  refine ⟨m', _, _, he, hr', ?_⟩
  refine ht.block_step hr ho hst (by simp [hp, Holds, heldBy]) (by rw [hp]; rfl) (fun t' h' h => ?_)
    (fun t' w _ _ h => ?_) (fun w => ?_) (fun h => ?_) (fun c h => ?_) (by rw [hp]; rfl)
    (by rw [hp]; rfl)
    (by rw [hp]; rfl) rfl ?_
  · rcases h with h | h
    · rw [hq] at h
      obtain rfl : t = t' := Place.pooled.inj h
      rw [hp] at h'
      cases h'
    · rw [hq] at h
      cases h
  · rw [hq] at h
    obtain rfl : t = t' := Option.some.inj h
    rw [hplace']
    split_ifs <;> rfl
  · rw [hvl', hvl, hp, List.mem_cons]
    simp only [Pc.flight, reduceCtorEq, or_false, Option.some.injEq]
    tauto
  · rw [hplace'] at h
    split_ifs at h <;> cases h
  · rw [hp] at h
    cases h
  · refine ⟨fun c hc => ?_, (fun _ hc => nomatch hc), (fun _ _ hc => nomatch hc), fun w hw => ?_,
      (fun _ hc => nomatch hc), (fun _ _ hc => nomatch hc), (fun hc => nomatch hc)⟩
    · cases hc
      refine ⟨?_, ?_⟩
      · obtain ⟨_, _, _, hm⟩ := hst.mem
        exact (isBlock_congr (by rw [hm])).mpr hb
      · rw [hplace']
        split_ifs <;> rfl
    · cases hw
      rw [hvb]
      refine ⟨rfl, hvs, ?_, ?_⟩
      · rw [hvl']
        exact (List.nodup_cons.mp hnd).1
      · obtain ⟨_, _, _, hm⟩ := hst.mem
        rw [hm]
        intro hlive
        have := (ht.live v hlive).2.2
        rw [hvb, hvl] at this
        exact this (by simp)

theorem good_allocPush (hp : pc t = .allocPush b) : Good Λ t pc (allocPush Λ t m b) := by
  have hl := ht.loc t
  rw [hp] at hl
  obtain ⟨hb, hq⟩ := hl.block b rfl
  change g.place b = .stolen at hq
  have hm : m.mpoolHead t = none := by
    by_contra hne
    exact hn (.push hp hne)
  obtain ⟨v, vs, m', g', hvl, hvs, he, hst, hvl', hplace', hr'⟩ :=
    hr.allocPush hb hq hm (hl.fills trivial)
  obtain ⟨s, hs, hbs⟩ := id hb
  have hnd := (hr.block s hs b hbs).nodup
  rw [hvl] at hnd
  have hvs := (hr.block s hs b hbs).sub v (by simp [hvl])
  have hvb := hr.sVma2block_mem hb (v := v) (by simp [hvl])
  refine ⟨m', _, g', he, hr', ?_⟩
  refine ht.block_step hr ho hst (by simp [hp, Holds, heldBy]) (by rw [hp]; rfl) (fun t' _ h => ?_)
    (fun t' w _ _ h => ?_) (fun w => ?_) (fun h => ?_) (fun c h => ?_) (by rw [hp]; rfl)
    (by rw [hp]; rfl)
    (by rw [hp]; rfl) rfl ?_
  · rw [hq] at h
    rcases h with h | h <;> cases h
  · rw [hq] at h
    cases h
  · rw [hvl', hvl, hp, List.mem_cons]
    simp only [Pc.flight, reduceCtorEq, or_false, Option.some.injEq]
    tauto
  · rw [hplace'] at h
    cases h
  · rw [hp] at h
    cases h
    rfl
  · refine ⟨fun c hc => ?_, (fun _ hc => nomatch hc), (fun _ _ hc => nomatch hc), fun w hw => ?_,
      (fun _ hc => nomatch hc), (fun _ _ hc => nomatch hc), (fun hc => nomatch hc)⟩
    · cases hc
      refine ⟨?_, ?_⟩
      · obtain ⟨_, _, _, hm⟩ := hst.mem
        exact (isBlock_congr (by rw [hm])).mpr hb
      · rw [hplace']
        rfl
    · cases hw
      rw [hvb]
      refine ⟨rfl, hvs, ?_, ?_⟩
      · rw [hvl']
        exact (List.nodup_cons.mp hnd).1
      · obtain ⟨_, _, _, hm⟩ := hst.mem
        rw [hm]
        intro hlive
        have := (ht.live v hlive).2.2
        rw [hvb, hvl] at this
        exact this (by simp)

omit hn in
theorem good_freePush (hp : pc t = .freePush b v) : Good Λ t pc (freePush m b v) := by
  have hl := ht.loc t
  rw [hp] at hl
  obtain ⟨hb, q, hq⟩ := hl.block b rfl
  obtain ⟨he, hv, hvn, hlive⟩ := hl.flight v rfl
  cases he
  obtain ⟨m', g', he, hst, hvl', hplace', hr'⟩ := hr.freePush hb hq hv hvn
  obtain ⟨_, _, _, hm⟩ := id hst.mem
  have hb' : IsBlock m' (sVma2block v) := (isBlock_congr (by rw [hm])).mpr hb
  obtain ⟨s, hs, hbs⟩ := id hb
  have hlen := (hr.block s hs _ hbs).len
  have hlt := hr.vl_lt hb hv hvn
  have h2 := Λ.two_le
  refine ⟨m', _, g', he, hr', ?_⟩
  refine ht.block_step hr ho hst (by simp [hp, Holds, heldBy]) (by rw [hp]; rfl) (fun t' _ h => ?_)
    (fun t' w _ _ h => ?_) (fun w => ?_) (fun h => ?_) (fun c h => ?_) (by rw [hp]; rfl)
    (by rw [hp]; rfl)
    (by rw [hp]; rfl) ?_ ?_
  · rw [hplace', filedPlace]
    rcases hq with hq | hq
    · rw [hq] at h hlen
      simp only [Place.pooled.injEq, reduceCtorEq, or_false, Place.Len] at h hlen
      subst h
      split_ifs
      · exact Or.inr rfl
      · omega
      · exact Or.inl rfl
    · rw [hq] at h
      rcases h with h | h <;> cases h
  · rw [hplace', filedPlace]
    rcases hq with hq | hq <;> rw [hq] at h <;> cases h <;> split_ifs <;> rfl
  · rw [hvl', hp, List.mem_cons]
    have : (filedPc (BLOCK_CTR_FULL Λ.toSizes) (g.vl (sVma2block v)).length
        (sVma2block v) q).flight = none := by
      unfold filedPc
      split_ifs <;> rfl
    rw [this]
    simp only [Pc.flight, reduceCtorEq, or_false, Option.some.injEq]
    tauto
  · rw [hplace', filedPlace] at h
    unfold filedPc
    split_ifs at h ⊢
    · rfl
    · rfl
    · cases h
  · rw [hp] at h
    cases h
  · unfold filedPc
    split_ifs <;> rfl
  · unfold filedPc
    rw [filedPlace] at hplace'
    split_ifs at hplace' ⊢
    all_goals
      refine ⟨fun c hc => ?_, (fun _ hc => nomatch hc), (fun _ _ hc => nomatch hc),
        (fun _ hc => nomatch hc),
        (fun _ hc => nomatch hc), (fun _ _ hc => nomatch hc), (fun hc => nomatch hc)⟩
      cases hc
      refine ⟨hb', ?_⟩
      rw [hplace']
    · rfl
    · rfl
    · simp [Pc.BlockOk]

theorem good_freeUnlink {p : Tid} (hp : pc t = .freeUnlink b p) :
    Good Λ t pc (freeUnlink m b p) := by
  have hl := ht.loc t
  rw [hp] at hl
  obtain ⟨hb, hq⟩ := hl.block b rfl
  change g.place b = .emptied p at hq
  obtain ⟨m', g', he, hst, hvl', hplace', hr'⟩ := hr.freeUnlink hb hq
  obtain ⟨_, _, _, hm⟩ := id hst.mem
  refine ⟨m', _, g', he, hr', ?_⟩
  refine ht.block_step hr ho hst (by simp [hp, Holds, heldBy]) (by rw [hp]; rfl) (fun t' h' h => ?_)
    (fun t' w h' hw h => ?_) (fun w => ?_) (fun h => ?_) (fun c h => ?_) (by rw [hp]; rfl)
    (by rw [hp]; rfl)
    (by rw [hp]; rfl) rfl ?_
  · rw [hq] at h
    rcases h with h | h <;> cases h
    exact absurd (Race.unlink hp h') hn
  · -- a struct of the block is out, so the block is not empty
    obtain ⟨-, hws, hwn, -⟩ := (ht.loc t').flight w (by rw [h']; rfl)
    obtain ⟨s, hs, hbs⟩ := id hb
    have hlen := (hr.block s hs b hbs).len
    rw [hw] at hws hwn
    have := hr.vl_lt hb hws hwn
    rw [hq] at hlen
    simp only [Place.Len] at hlen
    omega
  · rw [hvl', hp]
    rfl
  · rfl
  · rw [hp] at h
    cases h
    rfl
  · refine ⟨fun c hc => ?_, (fun _ hc => nomatch hc), (fun _ _ hc => nomatch hc),
      (fun _ hc => nomatch hc),
      (fun _ hc => nomatch hc), (fun _ _ hc => nomatch hc), (fun hc => nomatch hc)⟩
    cases hc
    exact ⟨(isBlock_congr (by rw [hm])).mpr hb, hplace'⟩

omit hn in
theorem good_freePrepend {p : Tid} (hp : pc t = .freePrepend b p) :
    Good Λ t pc (freePrepend m b p) := by
  have hl := ht.loc t
  rw [hp] at hl
  obtain ⟨hb, hq⟩ := hl.block b rfl
  change g.place b = .refilled p at hq
  obtain ⟨m', g', he, hst, hvl', hlen, hplace', hr'⟩ := hr.freePrepend hb hq
  obtain ⟨_, _, _, hm⟩ := id hst.mem
  refine ⟨m', _, g', he, hr', ?_⟩
  refine ht.block_step hr ho hst (by simp [hp, Holds, heldBy]) (by rw [hp]; rfl) (fun t' _ h => ?_)
    (fun t' w _ _ h => ?_) (fun w => ?_) (fun h => ?_) (fun c h => ?_) (by rw [hp]; rfl)
    (by rw [hp]; rfl)
    (by rw [hp]; rfl) rfl ?_
  · rw [hq] at h
    rcases h with h | h <;> cases h
  · rw [hq] at h
    rw [hplace']
    exact h
  · rw [hvl', hp]
    rfl
  · rw [hplace'] at h
    cases h
  · rw [hp] at h
    cases h
    rfl
  · refine ⟨fun c hc => ?_, (fun _ hc => nomatch hc), (fun _ _ hc => nomatch hc),
      (fun _ hc => nomatch hc),
      (fun _ hc => nomatch hc), (fun _ _ hc => nomatch hc), (fun hc => nomatch hc)⟩
    cases hc
    refine ⟨(isBlock_congr (by rw [hm])).mpr hb, ?_, ?_⟩
    · simp [hplace']
    · rw [hvl', hlen]

/-! ### Steps on a superblock -/

omit hn in
theorem good_stealTake (hp : pc t = .stealTake s b) : Good Λ t pc (stealTake m s b) := by
  have hl := ht.loc t
  rw [hp] at hl
  obtain ⟨hs, hσ⟩ := hl.super s rfl
  have hfl := hl.first s b rfl
  have hbm := ((hr.super s hs).mem_iff b).mp (List.mem_of_head? hfl)
  obtain ⟨m', g', he, hst, -, hplace', hσ', hr'⟩ := hr.stealTake (hl.top s rfl) hfl hσ
  obtain ⟨_, _, _, hm⟩ := id hst.mem
  refine ⟨m', _, g', he, hr', ?_⟩
  refine ht.super_step ho hst (Or.inl ⟨by simp [hp, Holds, heldBy], ?_⟩)
    (Or.inr ⟨by simp [hp, Holds, heldBy], by rw [hbm.2]; rfl⟩)
    (Or.inr (by simp [hp, Holds, heldBy]))
    (Or.inr (by simp [hp, Holds, heldBy])) (by rw [hp]; rfl) (fun _ => rfl) (by rw [hp]; nofun)
    (fun x hx => ?_) (by rw [hp]; nofun) (by rw [hp]; nofun) ?_ ?_ ?_ nofun ?_
  · rcases hσ with h | h <;> simp [h]
  · rw [hp] at hx
    cases hx
    rfl
  · rcases hσ' with h | h <;> simp [h]
  · rcases hσ' with h | h <;> simp [h]
  · rcases hσ' with h | h <;> simp [h]
  · refine ⟨fun c hc => ?_, fun x hx => ?_, fun c x hc => ?_, nofun, nofun, nofun, fun _ => ?_⟩
    · cases hc
      exact ⟨(isBlock_congr (by rw [hm])).mpr ⟨s, hs, hbm.1⟩, hplace'⟩
    · cases hx
      exact ⟨by rw [hm]; exact hs, hσ'⟩
    · cases hc
      exact ⟨by rw [hm]; exact hs, hbm.1⟩
    · rw [hm]
      exact hl.fills trivial

omit hn in
theorem good_returnPush (hp : pc t = .returnPush b s) : Good Λ t pc (returnPush m b s) := by
  have hl := ht.loc t
  rw [hp] at hl
  obtain ⟨hs, hσ⟩ := hl.super s rfl
  obtain ⟨hbb, hq⟩ := hl.block b rfl
  have hb := (hl.pair b s rfl).2
  change g.place b = .returning at hq
  change g.stage s = .listed ∨ g.stage s = .off at hσ
  obtain ⟨m', g', he, hst, hgl, -, hplace', hσ', -, hr'⟩ := hr.returnPush hs hb (Or.inl hq) hσ
  obtain ⟨_, _, _, hm⟩ := id hst.mem
  have hs' : s ∈ m'.held := by rw [hm]; exact hs
  have hb' : IsBlock m' b := ⟨s, hs', hb⟩
  refine ⟨m', _, g', he, hr', ?_⟩
  refine ht.super_step ho hst (Or.inl ⟨by simp [hp, Holds, heldBy], ?_⟩)
    (Or.inr ⟨by simp [hp, Holds, heldBy], by rw [hq]; rfl⟩) (Or.inl hgl)
    (Or.inr (by simp [hp, Holds, heldBy])) ?_ (by rw [hplace']; nofun) (fun c hc => ?_)
    (by rw [hp]; nofun) (by rw [hp]; nofun) (by rw [hp]; nofun) ?_ ?_ ?_ ?_ ?_
  · rcases hσ with h | h <;> simp [h]
  · rw [hp]
    unfold returnedPc
    split_ifs <;> rfl
  · rw [hp] at hc
    cases hc
    rfl
  · rw [hσ']
    unfold returnedStage
    split_ifs <;> simp
  · rw [hσ']
    unfold returnedStage returnedPc
    split_ifs <;> simp [Pc.relists]
  · rw [hσ']
    unfold returnedStage returnedPc
    split_ifs <;> simp [Pc.puts]
  · unfold returnedPc
    split_ifs <;> simp [Pc.puts]
  · unfold returnedPc
    unfold returnedStage at hσ'
    split_ifs at hσ' ⊢
    all_goals
      refine ⟨fun c hc => ?_, fun x hx => ?_, fun c x hc => ?_, nofun, nofun, nofun, nofun⟩
      · cases hc
        exact ⟨hb', hplace'⟩
      · cases hx
        exact ⟨hs', hσ'⟩
      · cases hc
        exact ⟨hs', hb⟩

omit hn in
theorem good_returnPrepend (hp : pc t = .returnPrepend b s) :
    Good Λ t pc (returnPrepend m b s) := by
  have hl := ht.loc t
  rw [hp] at hl
  obtain ⟨hs, hσ⟩ := hl.super s rfl
  obtain ⟨hbb, hq⟩ := hl.block b rfl
  have hb := (hl.pair b s rfl).2
  change g.place b = .free at hq
  change g.stage s = .relist at hσ
  obtain ⟨m', g', he, hst, hplace', hfl', hσ', hb1, hb2, hr'⟩ := hr.returnPrepend hs hb hq hσ
  obtain ⟨_, _, _, hm⟩ := id hst.mem
  have hs' : s ∈ m'.held := by rw [hm]; exact hs
  refine ⟨m', _, g', he, hr', ?_⟩
  refine ht.super_step ho hst (Or.inl ⟨by simp [hp, Holds, heldBy], by simp [hσ]⟩) (Or.inl hplace')
    (Or.inr (by simp [hp, Holds, heldBy])) (Or.inl hfl') (by rw [hp]; rfl)
    (by rw [hplace', hq]; nofun)
    (by rw [hp]; nofun) (by rw [hp]; nofun) (fun x hx => ?_) (by rw [hp]; nofun) (by simp [hσ'])
    (by simp [hσ'])
    (by simp [hσ']) nofun ?_
  · rw [hp] at hx
    cases hx
    rfl
  · refine ⟨fun c hc => ?_, fun x hx => ?_, fun c x hc => ?_, nofun, nofun, nofun, nofun⟩
    · cases hc
      exact ⟨⟨s, hs', hb⟩, by rw [hplace']; exact hq⟩
    · cases hx
      exact ⟨hs', hσ', by rw [hb1, hb2]⟩
    · cases hc
      exact ⟨hs', hb⟩

omit hn in
theorem good_putUnlink (hp : pc t = .putUnlink s) : Good Λ t pc (putUnlink m s) := by
  have hl := ht.loc t
  rw [hp] at hl
  obtain ⟨hs, hσ⟩ := hl.super s rfl
  change g.stage s = .putting at hσ
  obtain ⟨m', g', he, hst, hplace', hfl', hσ', hb1, hr'⟩ := hr.putUnlink hs hσ
  obtain ⟨_, _, _, hm⟩ := id (hst (s + BLOCK_SIZE)).mem
  have hs' : s ∈ m'.held := by rw [hm]; exact hs
  have hb : s + BLOCK_SIZE ∈ blocksOf s :=
    mem_blocksOf.mpr ⟨0, by rw [superblock_ctr_full]; omega, by simp⟩
  have hfree := hr.free_of_bctr hs (Stage.bctr_zero (hr.super s hs).stage (by simp [hσ])) hb
  refine ⟨m', _, g', he, hr', ?_⟩
  refine ht.super_step ho (hst (s + BLOCK_SIZE)) (Or.inr (by rw [hp]; rfl)) (Or.inl hplace')
    (Or.inr (by simp [hp, Holds, heldBy])) (Or.inl hfl') (by rw [hp]; rfl)
    (by rw [hplace', hfree]; nofun)
    (by rw [hp]; nofun) (by rw [hp]; nofun) (by rw [hp]; nofun) (fun x hx => ?_) (by simp [hσ'])
    (by simp [hσ'])
    (fun _ => rfl) (fun x hx => ?_) ?_
  · rw [hp] at hx
    cases hx
    rfl
  · cases hx
    rfl
  · refine ⟨nofun, fun x hx => ?_, nofun, nofun, nofun, nofun, nofun⟩
    cases hx
    exact ⟨hs', hσ'⟩

omit hn ho in
theorem good_putDestroy (hp : pc t = .putDestroy s) : Good Λ t pc (putDestroy Λ m s) := by
  have hl := ht.loc t
  rw [hp] at hl
  obtain ⟨hs, hσ⟩ := hl.super s rfl
  change g.stage s = .detached at hσ
  obtain ⟨m', he, ⟨sb, blk, hm⟩, hb, hr'⟩ := hr.putDestroy hs hσ
  have ht' : Threads Λ m' g pc := ht.mem (by rw [hm]) (by rw [hm]) hb fun _ h => by rw [hm]; exact h
  refine ⟨m', _, g, he, hr', ht'.move ?_ (by rw [hp]; rfl) (by rw [hp]; nofun) (by rw [hp]; rfl)
    (by rw [hp]; rfl)
    (by rw [hp]; rfl)⟩
  have h := ht'.loc t
  rw [hp] at h
  exact ⟨h.block, h.super, h.pair, h.flight, h.top, h.first, h.fills⟩

omit [DecidableEq Tid] hn ho in
/-- A superblock that is given back has only free blocks, and no other thread works
on it, or on a block of it but to let go of its lock. -/
theorem put_unused (hp : (pc t).puts = some s) : s ∈ m.held ∧ (m.superblock s).bctr = 0 ∧
    (∀ b ∈ blocksOf s, g.place b = .free ∧ ∀ v ∈ slotsOf Λ.toSizes b, v ∈ g.vl b) ∧
    ∀ t', t' ≠ t → (pc t').super ≠ some s ∧ ((pc t').top = some s → pc t' = .stealGetSuperblock s) ∧
      ∀ b ∈ blocksOf s, (pc t').block = some b → pc t' = .returnLetBlock b s := by
  obtain ⟨hs, hok⟩ := (ht.loc t).super s (Pc.puts_super hp)
  have hσ := (Pc.puts_iff (Pc.puts_super hp) hok).mp hp
  have hbctr : (m.superblock s).bctr = 0 := Stage.bctr_zero (hr.super s hs).stage (Or.inr hσ)
  have hfree : ∀ b ∈ blocksOf s, g.place b = .free ∧ ∀ v ∈ slotsOf Λ.toSizes b, v ∈ g.vl b := by
    intro b hb
    have hq := hr.free_of_bctr hs hbctr hb
    have hlen := (hr.block s hs b hb).len
    rw [hq] at hlen
    exact ⟨hq, fun v hv => hr.mem_vl ⟨s, hs, hb⟩ hv hlen⟩
  refine ⟨hs, hbctr, hfree, fun t' htt => ?_⟩
  have hsuper : (pc t').super ≠ some s := fun h => by
    have := (Pc.puts_iff h ((ht.loc t').super s h).2).mpr hσ
    exact htt (ht.puts t' t s this hp)
  refine ⟨hsuper, fun h => ?_, fun b hb hbt => ?_⟩
  · exact (Pc.top_cases (t := t') h).resolve_right fun hh => hsuper (Pc.holds_super hh)
  · obtain ⟨hq, hv⟩ := hfree b hb
    have h := ht.loc t'
    obtain ⟨hbb, hok⟩ := h.block b hbt
    rw [hq] at hok
    rcases Pc.block_free hbt hok with ⟨v, hf⟩ | ⟨x, hx, hx'⟩
    · obtain ⟨he, hvs, hvn, -⟩ := h.flight v hf
      obtain rfl := Option.some.inj (hbt.symm.trans he)
      exact absurd (hv v hvs) hvn
    · obtain ⟨hx1, hx2⟩ := h.pair b x hx
      obtain rfl := hr.held.block_unique hx1 hs hx2 hb
      exact hx'.resolve_left hsuper

omit ho in
theorem good_putSysFree (hp : pc t = .putSysFree s) : Good Λ t pc (putSysFree m s) := by
  obtain ⟨hs, -, hfree, hothers⟩ := put_unused hr ht (by rw [hp]; rfl)
  have hl := ht.loc t
  rw [hp] at hl
  have hσ : g.stage s = .detached := (hl.super s rfl).2
  have hmem : ∀ x, x ∈ m.held.erase s ↔ x ≠ s ∧ x ∈ m.held := fun x => hr.held.nodup.mem_erase_iff
  have hunused : ∀ t', t' ≠ t → ∀ b ∈ blocksOf s, (pc t').block ≠ some b := fun t' htt b hb h =>
    hn (.sysFree hp (((hothers t' htt).2.2 b hb h)))
  set m' : Mem Tid := { m with held := m.held.erase s, log := m.log ++ [.sysFree s] } with hm'
  have hib : ∀ c, IsBlock m c → c ∉ blocksOf s → IsBlock m' c := by
    rintro c ⟨x, hx, hc⟩ hcs
    refine ⟨x, (hmem x).mpr ⟨?_, hx⟩, hc⟩
    rintro rfl
    exact hcs hc
  have hib' : ∀ c, IsBlock m' c → IsBlock m c := fun c ⟨x, hx, hc⟩ => ⟨x, ((hmem x).mp hx).2, hc⟩
  refine ⟨m', .idle, g, ?_, hr.putSysFree hs hσ, ?_⟩
  · simp only [OpenOOC.Vma.putSysFree, guard_pos hs, Option.bind_eq_bind, Option.bind_some,
      Option.pure_def, hm']
  refine ⟨fun t' => ?_, fun c hc htr => ?_, fun x hx hσx => ?_, fun x hx hσx => ?_,
    fun x hx hσx => ?_,
    fun t₁ t₂ x h₁ h₂ => ?_, fun t₁ t₂ v h₁ h₂ => ?_, ht.nodup, fun v hv => ?_,
      fun c hc v hv hvn => ?_⟩
  · by_cases htt : t' = t
    · subst htt
      rw [Function.update_self]
      exact ⟨nofun, nofun, nofun, nofun, nofun, nofun, nofun⟩
    rw [Function.update_of_ne htt]
    have h := ht.loc t'
    refine ⟨fun c hc => ?_, fun x hx => ?_, fun c x hc => ?_, h.flight, h.top, h.first, h.fills⟩
    · obtain ⟨hcb, hok⟩ := h.block c hc
      exact ⟨hib c hcb fun hcs => hunused t' htt c hcs hc, hok⟩
    · obtain ⟨hxh, hok⟩ := h.super x hx
      refine ⟨(hmem x).mpr ⟨?_, hxh⟩, hok⟩
      rintro rfl
      exact (hothers t' htt).1 hx
    · obtain ⟨hxh, hcx⟩ := h.pair c x hc
      refine ⟨(hmem x).mpr ⟨?_, hxh⟩, hcx⟩
      rintro rfl
      exact hunused t' htt c hcx (Pc.pair_block hc)
  · exact exists_update (ht.moved c (hib' c hc) htr) (by rw [hp]; nofun)
  · exact exists_update (ht.fresh x ((hmem x).mp hx).2 hσx) (by rw [hp]; nofun)
  · exact exists_update (ht.relist x ((hmem x).mp hx).2 hσx) (by rw [hp]; nofun)
  · refine exists_update (ht.putting x ((hmem x).mp hx).2 hσx) fun h => ?_
    rw [hp] at h
    cases h
    exact absurd rfl ((hmem s).mp hx).1
  · have hne : ∀ t', (Function.update pc t .idle t').puts = some x → t' ≠ t := by
      rintro t' h rfl
      rw [Function.update_self] at h
      cases h
    rw [Function.update_of_ne (hne t₁ h₁)] at h₁
    rw [Function.update_of_ne (hne t₂ h₂)] at h₂
    exact ht.puts t₁ t₂ x h₁ h₂
  · have hne : ∀ t', (Function.update pc t .idle t').flight = some v → t' ≠ t := by
      rintro t' h rfl
      rw [Function.update_self] at h
      cases h
    rw [Function.update_of_ne (hne t₁ h₁)] at h₁
    rw [Function.update_of_ne (hne t₂ h₂)] at h₂
    exact ht.flight t₁ t₂ v h₁ h₂
  · obtain ⟨h1, h2, h3⟩ := ht.live v hv
    exact ⟨hib _ h1 fun hcs => h3 ((hfree _ hcs).2 v h2), h2, h3⟩
  · exact (ht.out c (hib' c hc) v hv hvn).imp_right fun h => exists_update h (by rw [hp]; nofun)

/-! ### The other code -/

omit hn ho in
theorem good_stealRead (hp : pc t = .stealRead s) :
    Good Λ t pc ((stealRead m s).map fun p => (m, p)) := by
  have hl := ht.loc t
  rw [hp] at hl
  obtain ⟨hs, hσ⟩ := hl.super s rfl
  obtain ⟨b, hb, he⟩ := hr.stealRead hs hσ
  refine ⟨m, _, g,
    by rw [he]; rfl, hr, ht.move ?_ (by rw [hp]; rfl) (by rw [hp]; exact fun _ h => h)
    (by rw [hp]; rfl) (by rw [hp]; rfl) (by rw [hp]; rfl)⟩
  refine ⟨hl.block, hl.super, hl.pair, hl.flight, hl.top, fun x c hc => ?_, hl.fills⟩
  cases hc
  exact hb

omit hn ho in
theorem good_freeCheck (hp : pc t = .freeCheck b) :
    Good Λ t pc ((freeCheck Λ m b).map fun p => (m, p)) := by
  have hl := ht.loc t
  rw [hp] at hl
  obtain ⟨hb, hq, hlen⟩ := hl.block b rfl
  have hcount : BLOCK_CTR_FULL Λ.toSizes - 1 = (m.block b).vctr := by
    obtain ⟨s, hs, hbs⟩ := hb
    have := (hr.block s hs b hbs).count
    omega
  refine ⟨m, .freeLetBlock b, g, ?_, hr,
    ht.move ?_ (by rw [hp]; rfl) (by rw [hp]; exact fun _ h => h)
    (by rw [hp]; rfl) (by rw [hp]; rfl) (by rw [hp]; rfl)⟩
  · simp only [freeCheck, getBlock_eq (mapped_block hb), Option.bind_eq_bind, Option.bind_some,
      guard_pos hcount,
      Option.pure_def, Option.map_some]
  · refine ⟨fun c hc => ?_, hl.super, hl.pair, hl.flight, hl.top, hl.first, hl.fills⟩
    cases hc
    exact ⟨hb, hq⟩

omit hn ho in
theorem good_returnRead (hp : pc t = .returnRead b) :
    Good Λ t pc ((returnRead m b).map fun p => (m, p)) := by
  have hl := ht.loc t
  rw [hp] at hl
  obtain ⟨hb, hq⟩ := hl.block b rfl
  obtain ⟨s, hs, hbs⟩ := id hb
  refine ⟨m, .returnGetSuperblock b s, g, ?_, hr,
    ht.move ?_ (by rw [hp]; rfl) (by rw [hp]; exact fun _ h => h)
    (by rw [hp]; rfl) (by rw [hp]; rfl) (by rw [hp]; rfl)⟩
  · simp only [returnRead, getBlock_eq (mapped_block hb), (hr.block s hs b hbs).superblock,
      Option.bind_eq_bind,
      Option.bind_some, Option.pure_def, Option.map_some]
  · refine ⟨hl.block, hl.super, fun c x hc => ?_, hl.flight, hl.top, hl.first, hl.fills⟩
    cases hc
    exact ⟨hs, hbs⟩

omit hr hn ho in
theorem good_returnCheck (hr : Rep Λ m g) (hp : pc t = .returnCheck b s) :
    Good Λ t pc ((returnCheck m b s).map fun p => (m, p)) := by
  have hl := ht.loc t
  rw [hp] at hl
  obtain ⟨hs, hσ, hk⟩ := hl.super s rfl
  refine ⟨m, .returnLetSuperblock b s, g, ?_, hr,
    ht.move ?_ (by rw [hp]; rfl) (by rw [hp]; exact fun _ h => h)
    (by rw [hp]; rfl) (by rw [hp]; rfl) (by rw [hp]; rfl)⟩
  · have hk' : SUPERBLOCK_CTR_FULL - 1 = (m.superblock s).bctr := by omega
    simp only [returnCheck, getSuperblock_eq (mapped_superblock hs), Option.bind_eq_bind,
      Option.bind_some,
      guard_pos hk', Option.pure_def, Option.map_some]
  · refine ⟨hl.block, fun x hx => ?_, hl.pair, hl.flight, hl.top, hl.first, hl.fills⟩
    cases hx
    exact ⟨hs, hσ⟩

omit hn ho in
theorem good_allocRead (hp : pc t = .allocRead) : Good Λ t pc (some (allocRead t m)) := by
  obtain ⟨m1, hm1, hi1, hr1, ht1⟩ : ∃ m1, (if m.init t then m
      else { m.setMpoolHead t none with init := Function.update m.init t true }) = m1 ∧
        m1.init t = true ∧
      Rep Λ m1 g ∧ Threads Λ m1 g pc := by
    by_cases hi : m.init t = true
    · exact ⟨m, if_pos hi, hi, hr, ht⟩
    · refine ⟨_, if_neg hi,
        by simp, hr.allocRead (by simpa using hi), ht.mem rfl rfl (fun _ => rfl) fun q hq => ?_⟩
      by_cases hqt : q = t
      · simp [hqt]
      · simpa [hqt] using hq
  have hl := ht1.loc t
  rw [hp] at hl
  cases hh : m1.mpoolHead t with
  | none =>
    have hread : allocRead t m = (m1, .stealGetGpool) := by
      subst hm1
      simp only [allocRead, hh]
    refine ⟨m1, .stealGetGpool, g, by rw [hread], hr1, ht1.move ?_ (by rw [hp]; rfl)
      (by rw [hp]; exact fun _ h => h) (by rw [hp]; rfl) (by rw [hp]; rfl) (by rw [hp]; rfl)⟩
    exact ⟨hl.block, hl.super, hl.pair, hl.flight, hl.top, hl.first, fun _ => hi1⟩
  | some b =>
    have hP := hr1.pool t
    obtain ⟨hb, hon⟩ := (hP.mem_iff b).mp (List.mem_of_head? (hP.head.symm.trans hh))
    have hread : allocRead t m = (m1, .allocGetBlock b) := by
      subst hm1
      simp only [allocRead, hh]
    refine ⟨m1, .allocGetBlock b, g, by rw [hread], hr1, ht1.move ?_ (by rw [hp]; rfl)
      (by rw [hp]; exact fun _ h => h) (by rw [hp]; rfl) (by rw [hp]; rfl) (by rw [hp]; rfl)⟩
    refine ⟨fun c hc => ?_, nofun, nofun, nofun, nofun, nofun, nofun⟩
    cases hc
    refine ⟨hb, ?_⟩
    cases hq : g.place b <;> rw [hq] at hon <;> cases hon
    · exact Or.inl rfl
    · exact Or.inr rfl

omit hn ho in
theorem good_allocReturn {r : Option ℕ} (hp : pc t = .allocReturn r) :
    Good Λ t pc (some (allocReturn t m r, .idle)) := by
  have hl := ht.loc t
  rw [hp] at hl
  refine ⟨_, .idle, g, rfl, hr.outside _ _,
    ht.hand ?_ (fun v => ?_) (by rw [hp]; rfl) (by rw [hp]; rfl)
    (by rw [hp]; rfl) (by rw [hp]; rfl) rfl ⟨nofun, nofun, nofun, nofun, nofun, nofun, nofun⟩⟩
  · cases r with
    | none => exact ht.nodup
    | some v => exact List.nodup_cons.mpr ⟨(hl.flight v rfl).2.2.2, ht.nodup⟩
  · rw [hp]
    cases r with
    | none => simp [Pc.flight]
    | some w => simp [Pc.flight, eq_comm, or_comm]

omit hn ho in
theorem good_freeCall (hp : pc t = .idle) (hv : v ∈ m.live) :
    Good Λ t pc (some (freeCall t m v)) := by
  have hl := ht.loc t
  rw [hp] at hl
  obtain ⟨h1, h2, h3⟩ := ht.live v hv
  refine ⟨_, .freeGetBlock (sVma2block v) v, g, rfl, hr.outside _ _,
    ht.hand (ht.nodup.erase v) (fun w => ?_)
    (by rw [hp]; rfl) (by rw [hp]; rfl) (by rw [hp]; rfl) (by rw [hp]; rfl) rfl ?_⟩
  · rw [hp, ht.nodup.mem_erase_iff]
    by_cases hwv : w = v
    · subst hwv
      simp [Pc.flight, hv]
    · simp [Pc.flight, hwv, Ne.symm hwv]
  · refine ⟨fun c hc => ?_, nofun, nofun, fun w hw => ?_, nofun, nofun, nofun⟩
    · cases hc
      exact ⟨h1, trivial⟩
    · cases hw
      exact ⟨rfl, h2, h3, fun h => (ht.nodup.mem_erase_iff.mp h).1 rfl⟩

omit hr hn in
theorem Threads.newSuperblock (hp : pc t = .stealFind) (hf : Fresh m s) :
    Threads Λ (newSuperblock Λ.toSizes s m) (g.fresh Λ s)
      (Function.update pc t (.stealGetSuperblock s)) := by
  have hA : Apart Λ m g s := hf.apart
  set m' := OpenOOC.Vma.newSuperblock Λ.toSizes s m with hm'
  have hother : ∀ t', t' ≠ t → (pc t').top = none ∧ (pc t').first = none := by
    intro t' htt
    have hh : Holds t (pc t) .gpool := by simp [hp, Holds, heldBy]
    refine ⟨Option.eq_none_iff_forall_ne_some.mpr fun x hx => htt (ho.unique (Pc.top_holds hx) hh),
      Option.eq_none_iff_forall_ne_some.mpr fun x hx =>
      htt (ho.unique (Pc.first_holds (s := x.1) (b := x.2) hx).1 hh)⟩
  refine ⟨fun t' => ?_, fun c hc htr => ?_, fun x hx hσ => ?_, fun x hx hσ => ?_, fun x hx hσ => ?_,
    fun t₁ t₂ x h₁ h₂ => ?_, fun t₁ t₂ v h₁ h₂ => ?_, hA.live ▸ ht.nodup, fun v hv => ?_,
      fun c hc v hv hn => ?_⟩
  · by_cases htt : t' = t
    · subst htt
      rw [Function.update_self]
      have h := ht.loc t'
      rw [hp] at h
      refine ⟨nofun, nofun, nofun, nofun, fun x hx => ?_, nofun, fun _ => ?_⟩
      · cases hx
        rfl
      · rw [hA.init]
        exact h.fills trivial
    rw [Function.update_of_ne htt]
    have h := ht.loc t'
    refine ⟨fun c hc => ?_, fun x hx => ?_, fun c x hc => ?_, fun v hv => ?_, fun x hx => ?_,
      fun x c hx => ?_, ?_⟩
    · obtain ⟨hcb, hok⟩ := h.block c hc
      exact ⟨hA.isBlock hcb, by rwa [hA.place c hcb, hA.vl c hcb]⟩
    · obtain ⟨hxh, hok⟩ := h.super x hx
      exact ⟨by rw [hA.held]; simp [hxh], by rwa [hA.stage x hxh, hA.bctr x hxh]⟩
    · obtain ⟨hxh, hcx⟩ := h.pair c x hc
      exact ⟨by rw [hA.held]; simp [hxh], hcx⟩
    · obtain ⟨h1, h2, h3, h4⟩ := h.flight v hv
      have hcb := (h.block _ h1).1
      exact ⟨h1, h2, by rwa [hA.vl _ hcb], hA.live ▸ h4⟩
    · rw [(hother t' htt).1] at hx
      cases hx
    · rw [(hother t' htt).2] at hx
      cases hx
    · rw [hA.init]
      exact h.fills
  · rcases hA.isBlock_cases hc with hcs | hcb
    · rw [show (g.fresh Λ s).place c = .free from if_pos hcs] at htr
      exact htr.elim
    · rw [hA.place c hcb] at htr
      exact exists_update (ht.moved c hcb htr) (by rw [hp]; nofun)
  · rcases hA.held_cases hx with ⟨rfl, -⟩ | ⟨hxh, he⟩
    · exact ⟨t, by rw [Function.update_self]; rfl⟩
    · exact exists_update (ht.fresh x hxh (he ▸ hσ)) (by rw [hp]; nofun)
  · rcases hA.held_cases hx with ⟨rfl, he⟩ | ⟨hxh, he⟩
    · rw [he] at hσ
      cases hσ
    · exact exists_update (ht.relist x hxh (he ▸ hσ)) (by rw [hp]; nofun)
  · rcases hA.held_cases hx with ⟨rfl, he⟩ | ⟨hxh, he⟩
    · rw [he] at hσ
      rcases hσ with h | h <;> cases h
    · exact exists_update (ht.putting x hxh (he ▸ hσ)) (by rw [hp]; nofun)
  · have hne : ∀ t', (Function.update pc t (.stealGetSuperblock s) t').puts = some x → t' ≠ t := by
      rintro t' h rfl
      rw [Function.update_self] at h
      cases h
    rw [Function.update_of_ne (hne t₁ h₁)] at h₁
    rw [Function.update_of_ne (hne t₂ h₂)] at h₂
    exact ht.puts t₁ t₂ x h₁ h₂
  · have hne : ∀ t', (Function.update pc t (.stealGetSuperblock s) t').flight = some v →
        t' ≠ t := by
      rintro t' h rfl
      rw [Function.update_self] at h
      cases h
    rw [Function.update_of_ne (hne t₁ h₁)] at h₁
    rw [Function.update_of_ne (hne t₂ h₂)] at h₂
    exact ht.flight t₁ t₂ v h₁ h₂
  · rw [hA.live] at hv
    obtain ⟨h1, h2, h3⟩ := ht.live v hv
    exact ⟨hA.isBlock h1, h2, by rwa [hA.vl _ h1]⟩
  · rcases hA.isBlock_cases hc with hcs | hcb
    · rw [show (g.fresh Λ s).vl c = slotsOf Λ.toSizes c from if_pos hcs] at hn
      exact absurd hv hn
    · rw [hA.vl c hcb] at hn
      rw [hA.live]
      exact (ht.out c hcb v hv hn).imp_right fun h => exists_update h (by rw [hp]; nofun)

omit hn in
theorem good_stealFind {r : Option ℕ} (hp : pc t = .stealFind) (hf : ∀ s, r = some s → Fresh m s) :
    Good Λ t pc (some (stealFind Λ m r)) := by
  have hl := ht.loc t
  rw [hp] at hl
  unfold stealFind
  cases hg : m.gpoolHead with
  | some s =>
    refine ⟨m, .stealGetSuperblock s, g, rfl, hr, ht.move ?_ (by rw [hp]; rfl) (by rw [hp]; nofun)
      (by rw [hp]; rfl) (by rw [hp]; rfl) (by rw [hp]; rfl)⟩
    refine ⟨hl.block, hl.super, hl.pair, nofun, fun x hx => ?_, nofun, hl.fills⟩
    cases hx
    exact hr.gpool.head.symm.trans hg
  | none =>
    cases r with
    | none =>
      refine ⟨m, .stealLetGpoolFail, g, rfl, hr, ht.move ?_ (by rw [hp]; rfl) (by rw [hp]; nofun)
        (by rw [hp]; rfl) (by rw [hp]; rfl) (by rw [hp]; rfl)⟩
      exact ⟨nofun, nofun, nofun, nofun, nofun, nofun, nofun⟩
    | some s =>
      exact ⟨_, _, _, rfl, hr.newSuperblock hg (hf s rfl), ht.newSuperblock ho hp (hf s rfl)⟩

end

/-! ### All steps -/

/-- Code that is not a race has a result that keeps everything in order. -/
theorem good_code (hr : Rep Λ m g) (ht : Threads Λ m g pc) (ho : Owned Holds ⟨m, lock, pc⟩)
    (hn : ¬ Race ⟨m, lock, pc⟩ t) (hi : instr t (pc t) = .code) {i : Input}
    (hin : InputOk (pc t) m i) :
    Good Λ t pc (code Λ t (pc t) m i) := by
  cases hp : pc t <;> rw [hp] at hi hin <;> simp only [instr, reduceCtorEq] at hi
  case idle =>
    cases i with
    | callAlloc =>
      refine ⟨m, .allocRead, g, rfl, hr, ht.move ⟨nofun, nofun, nofun, nofun, nofun, nofun, nofun⟩
        (by rw [hp]; rfl)
        (by rw [hp]; nofun) (by rw [hp]; rfl) (by rw [hp]; rfl) (by rw [hp]; rfl)⟩
    | callFree v => exact good_freeCall hr ht hp hin
    | _ => exact hin.elim
  case allocRead => exact good_allocRead hr ht hp
  case allocTake b => exact good_allocTake hr ht ho hn hp
  case allocPush b => exact good_allocPush hr ht ho hn hp
  case allocReturn r => exact good_allocReturn hr ht hp
  case stealFind =>
    cases i with
    | sysAlloc r => exact good_stealFind hr ht ho hp hin
    | _ => exact hin.elim
  case stealRead s => exact good_stealRead hr ht hp
  case stealTake s b => exact good_stealTake hr ht ho hp
  case freePush b v => exact good_freePush hr ht ho hp
  case freeUnlink b q => exact good_freeUnlink hr ht ho hn hp
  case freePrepend b q => exact good_freePrepend hr ht ho hp
  case freeCheck b => exact good_freeCheck hr ht hp
  case returnRead b => exact good_returnRead hr ht hp
  case returnPush b s => exact good_returnPush hr ht ho hp
  case returnPrepend b s => exact good_returnPrepend hr ht ho hp
  case returnCheck b s => exact good_returnCheck ht hr hp
  case putUnlink s => exact good_putUnlink hr ht ho hp
  case putDestroy s => exact good_putDestroy hr ht hp
  case putSysFree s => exact good_putSysFree hr ht hn hp

end OpenOOC.Vma
