import OpenOOC.Sched.Locks

/-! The region of an allocation: a page for the struct, then the data segment. Sizes
are any `size_t`, so the sums of `ooc_malloc` may wrap; an address that an allocation
owns lies in its data segment all the same. -/

namespace OpenOOC

variable {ps : PageSize} {a b : Alloc} {addr : Addr} {x y : ℕ}

/-- A region that `mmap` has returned. -/
structure Region (ps : PageSize) (a : Alloc) : Prop where
  aligned : a.vma.toNat % ps.bytes = 0
  nonempty : 0 < (a.mmapSz ps).toNat
  fits : a.vma.toNat + (a.mmapSz ps).toNat < 2 ^ 64

namespace Alloc

def InHeader (ps : PageSize) (a : Alloc) (x : ℕ) : Prop :=
  a.vma.toNat ≤ x ∧ x < a.vma.toNat + ps.bytes

def InData (ps : PageSize) (a : Alloc) (x : ℕ) : Prop :=
  a.vma.toNat + ps.bytes ≤ x ∧ x < a.vma.toNat + (a.mmapSz ps).toNat

def InRegion (ps : PageSize) (a : Alloc) (x : ℕ) : Prop :=
  a.vma.toNat ≤ x ∧ x < a.vma.toNat + (a.mmapSz ps).toNat

end Alloc

def Away (ps : PageSize) (a b : Alloc) : Prop :=
  a.vma.toNat + (a.mmapSz ps).toNat ≤ b.vma.toNat ∨ b.vma.toNat + (b.mmapSz ps).toNat ≤ a.vma.toNat

theorem bytes_dvd_word : ps.bytes ∣ 2 ^ 64 := pow_dvd_pow 2 ps.lt_word.le

theorem ALIGN_dvd (m : BitVec 64) : ps.bytes ∣ (ALIGN ps m).toNat := by
  rw [ALIGN, mask_toNat]
  exact Nat.dvd_mul_left _ _

theorem mmapSz_dvd (a : Alloc) : ps.bytes ∣ (a.mmapSz ps).toNat := by
  unfold Alloc.mmapSz
  rw [BitVec.toNat_add]
  exact (Nat.dvd_mod_iff bytes_dvd_word).mpr (Nat.dvd_add (ALIGN_dvd _) (ALIGN_dvd _))

namespace Region

theorem bytes_le (h : Region ps a) : ps.bytes ≤ (a.mmapSz ps).toNat :=
  Nat.le_of_dvd h.nonempty (mmapSz_dvd a)

theorem vmStart_toNat (h : Region ps a) : (a.vmStart ps).toNat = a.vma.toNat + ps.bytes := by
  have hle := h.bytes_le
  have hfit := h.fits
  unfold Alloc.vmStart
  rw [BitVec.toNat_add, infoSz_toNat]
  exact Nat.mod_eq_of_lt (by omega)

theorem size_le (h : Region ps a) (ho : a.Owns ps addr) : a.size.toNat + ps.bytes ≤ 2 ^ 64 := by
  have hstart := h.vmStart_toNat
  have hpos : 0 < ps.bytes := Nat.two_pow_pos _
  have hlt := a.size.isLt
  by_contra hno
  -- the end wraps to an address below the start
  have hstop : (a.vmEnd ps).toNat = (a.vmStart ps).toNat + a.size.toNat - 2 ^ 64 := by
    unfold Alloc.vmEnd
    have hst := (a.vmStart ps).isLt
    rw [BitVec.toNat_add, Nat.mod_eq_sub_mod (by omega)]
    exact Nat.mod_eq_of_lt (by omega)
  have h1 := ho.1
  have h2 := ho.2
  omega

theorem inData_of_owns (h : Region ps a) (ho : a.Owns ps addr) : a.InData ps addr.toNat := by
  have hsz := h.size_le ho
  have hstart := h.vmStart_toNat
  have hge := roundUp_ge ps a.size.toNat
  have hpos := h.nonempty
  have hfit := h.fits
  have hdata : (ALIGN ps a.size).toNat = roundUp ps a.size.toNat := ALIGN_toNat ps hsz
  have hlt := (ALIGN ps a.size).isLt
  obtain ⟨q, hq⟩ := @ALIGN_dvd ps a.size
  obtain ⟨w, hw⟩ := @bytes_dvd_word ps
  have hb : 0 < ps.bytes := Nat.two_pow_pos _
  have hqw : q + 1 ≤ w := by
    rw [hq, hw] at hlt
    exact Nat.lt_of_mul_lt_mul_left hlt
  have hsum : ps.bytes + (ALIGN ps a.size).toNat ≤ 2 ^ 64 := by
    have hmul : ps.bytes + (ALIGN ps a.size).toNat = ps.bytes * (q + 1) := by
      rw [hq, Nat.mul_succ, Nat.add_comm]
    calc ps.bytes + (ALIGN ps a.size).toNat = ps.bytes * (q + 1) := hmul
      _ ≤ ps.bytes * w := Nat.mul_le_mul_left _ hqw
      _ = 2 ^ 64 := hw.symm
  have hm : (a.mmapSz ps).toNat = (ps.bytes + (ALIGN ps a.size).toNat) % 2 ^ 64 := by
    unfold Alloc.mmapSz Alloc.dataSz
    rw [BitVec.toNat_add, infoSz_toNat]
  have hlen : (a.mmapSz ps).toNat = ps.bytes + (ALIGN ps a.size).toNat := by
    rcases Nat.lt_or_ge (ps.bytes + (ALIGN ps a.size).toNat) (2 ^ 64) with hl | hg
    · rw [hm, Nat.mod_eq_of_lt hl]
    · have he : ps.bytes + (ALIGN ps a.size).toNat = 2 ^ 64 := by omega
      rw [hm, he, Nat.mod_self] at hpos
      omega
  have hstop : (a.vmEnd ps).toNat = a.vma.toNat + ps.bytes + a.size.toNat := by
    unfold Alloc.vmEnd
    rw [BitVec.toNat_add, hstart]
    exact Nat.mod_eq_of_lt (by omega)
  have h1 := ho.1
  have h2 := ho.2
  unfold Alloc.InData
  omega

theorem cases_of_inRegion (h : a.InRegion ps x) : a.InHeader ps x ∨ a.InData ps x := by
  unfold Alloc.InRegion at h
  unfold Alloc.InHeader Alloc.InData
  omega

theorem inRegion_of_inHeader (h : Region ps a) (hx : a.InHeader ps x) : a.InRegion ps x := by
  have hle := h.bytes_le
  unfold Alloc.InHeader at hx
  unfold Alloc.InRegion
  omega

theorem inRegion_of_inData (hx : a.InData ps x) : a.InRegion ps x := by
  unfold Alloc.InData at hx
  unfold Alloc.InRegion
  omega

end Region

/-! ### Regions that do not meet -/

namespace Away

theorem symm (h : Away ps a b) : Away ps b a := Or.symm h

theorem not_inRegion (h : Away ps a b) (hx : a.InRegion ps x) : ¬ b.InRegion ps x := by
  unfold Away at h
  unfold Alloc.InRegion at hx ⊢
  omega

theorem vma_ne (h : Away ps a b) (ha : Region ps a) (hb : Region ps b) : a.vma ≠ b.vma := by
  intro he
  have h1 := ha.nonempty
  have h2 := hb.nonempty
  unfold Away at h
  rw [he] at h
  omega

theorem vmStart_ne (h : Away ps a b) (ha : Region ps a) (hb : Region ps b) :
    a.vmStart ps ≠ b.vmStart ps := by
  intro he
  apply h.vma_ne ha hb
  apply BitVec.eq_of_toNat_eq
  have h1 := ha.vmStart_toNat
  have h2 := hb.vmStart_toNat
  rw [he] at h1
  omega

end Away

/-! ### Pages -/

theorem pageAlign_toNat (addr : Addr) :
    (Sched.pageAlign ps addr).toNat = addr.toNat / ps.bytes * ps.bytes :=
  mask_toNat ps addr

/-- The page in which a data segment's address lies is in the data segment. -/
theorem page_inData (h : Region ps a) (hx : a.InData ps addr.toNat)
    (hy : (Sched.pageAlign ps addr).toNat ≤ y ∧ y < (Sched.pageAlign ps addr).toNat + ps.bytes) :
    a.InData ps y := by
  rw [pageAlign_toNat] at hy
  obtain ⟨n, hn⟩ := Nat.dvd_of_mod_eq_zero h.aligned
  obtain ⟨k, hk⟩ := @mmapSz_dvd ps a
  have hpos : 0 < ps.bytes := Nat.two_pow_pos _
  unfold Alloc.InData at hx ⊢
  have h1 : n + 1 ≤ addr.toNat / ps.bytes := (Nat.le_div_iff_mul_le hpos).mpr (by
    rw [Nat.succ_mul, Nat.mul_comm n, ← hn]
    exact hx.1)
  have h2 : addr.toNat / ps.bytes < n + k := (Nat.div_lt_iff_lt_mul hpos).mpr (by
    rw [Nat.add_mul, Nat.mul_comm n, Nat.mul_comm k, ← hn, ← hk]
    exact hx.2)
  have h3 := Nat.mul_le_mul_right ps.bytes h1
  have h4 := Nat.mul_le_mul_right ps.bytes (Nat.succ_le_of_lt h2)
  rw [Nat.succ_mul, Nat.mul_comm n] at h3
  rw [Nat.succ_mul, Nat.add_mul, Nat.mul_comm n, Nat.mul_comm k] at h4
  omega

theorem mem_page (addr : Addr) : (Sched.pageAlign ps addr).toNat ≤ addr.toNat ∧
    addr.toNat < (Sched.pageAlign ps addr).toNat + ps.bytes := by
  rw [pageAlign_toNat]
  have h1 := Nat.div_add_mod addr.toNat ps.bytes
  have h2 := Nat.mod_lt addr.toNat (show 0 < ps.bytes from Nat.two_pow_pos _)
  rw [Nat.mul_comm] at h1
  omega

end OpenOOC
