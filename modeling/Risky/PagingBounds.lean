import Risky.FullTree

/-!
# Ranges at the limits of the address space

`paging_map_range` and `paging_map_mmio` compute the end of a range with 64-bit
additions and roundings that wrap around, and `paging_map_page` takes any
address for a page. So there are ranges that are reported as mapped although
they are not. Here is exactly which arguments are safe: those for which a range
that was reported as mapped is mapped, in whatever state the call was made
(`Paging.rangeSafe_iff_and_mmioSafe_iff`).
-/

namespace Paging

variable {B : Boot} {m : Mmu} {virt phys size flags hhdm : BitVec 64} {s s' : Paging}
variable {levels : ℕ}

/-! ## What is asked for -/

/-- **Every page of the mathematical range is mapped** to the corresponding
page, with the rights asked for. -/
def RangeMapped (m : Mmu) (s : Paging) (virt phys size flags : BitVec 64) : Prop :=
  ∀ i < sizePages size, virt.toNat + i * 2 ^ 12 < 2 ^ 64
    ∧ ∃ (pte : BitVec 64) (level : ℕ), s.translation m (pageAt virt i) = some (pte, level)
      ∧ Mmu.physAddr (pageAt virt i) pte level = phys.toNat + i * 2 ^ 12 ∧ Grants pte flags

/-- **Every byte of the mathematical range is mapped** through the direct map,
for reading and writing. -/
def MmioMapped (B : Boot) (m : Mmu) (s : Paging) (phys size : BitVec 64) : Prop :=
  ∀ b : ℕ, phys.toNat ≤ b → b < phys.toNat + size.toNat →
    ∃ (pte : BitVec 64) (level : ℕ),
      s.translation m (physToVirt B.hhdm (BitVec.ofNat 64 b)) = some (pte, level)
      ∧ Mmu.physAddr (physToVirt B.hhdm (BitVec.ofNat 64 b)) pte level = b
      ∧ Pte.r pte = true ∧ Pte.w pte = true

/-- **Whenever the range is reported as mapped, it is.** -/
def RangeSafe (levels : ℕ) (virt phys size flags : BitVec 64) : Prop :=
  ∀ (B : Boot) (m : Mmu) (s s' : Paging), Sound B m s → s.Conforms m → s.gLevels = levels →
    s.pagingMapRange B virt phys size flags = some (true, s') →
    (s'.gEarlyPtPoolUsed = s.gEarlyPtPoolUsed ∨ PoolSound B m s) →
      RangeMapped m s' virt phys size flags

/-- **Whenever the device is reported as mapped, it is.** -/
def MmioSafe (levels : ℕ) (hhdm phys size : BitVec 64) : Prop :=
  ∀ (B : Boot) (m : Mmu) (s s' : Paging), B.hhdm = hhdm → Sound B m s → s.Conforms m →
    s.gLevels = levels → s.pagingMapMmio B phys size = some (true, s') →
    (s'.gEarlyPtPoolUsed = s.gEarlyPtPoolUsed ∨ PoolSound B m s) → MmioMapped B m s' phys size

/-! ## The arguments for which it is so -/

/-- **The range fits**: it ends before the last byte of the address space, and
if it is one of pages, these are canonical, the physical ones have 56 bits, and
some right is asked for. -/
def RangeFits (levels : ℕ) (virt phys size flags : BitVec 64) : Prop :=
  virt.toNat + sizePages size * 2 ^ 12 < 2 ^ 64
    ∧ (virt.toNat % 2 ^ 12 = 0 → phys.toNat % 2 ^ 12 = 0 →
        (∀ i < sizePages size, Canonical levels (pageAt virt i))
          ∧ phys.toNat + sizePages size * 2 ^ 12 ≤ 2 ^ 56 ∧ SomeRight flags)

/-- **The device fits**: it ends within the 56 bits of a physical address, and
the range that `paging_map_mmio` makes of it fits. -/
def MmioFits (levels : ℕ) (hhdm phys size : BitVec 64) : Prop :=
  phys.toNat + size.toNat ≤ 2 ^ 56
    ∧ RangeFits levels (physToVirt hhdm (pageAlignDown phys)) (pageAlignDown phys)
        (pageAlignUp (phys + size) - pageAlignDown phys) pagingProtRwg

theorem sizePages_pos (h : size ≠ 0#64) : 0 < sizePages size := by
  have hpos : size.toNat ≠ 0 := fun h₀ => h (BitVec.eq_of_toNat_eq h₀)
  unfold sizePages
  omega

/-- A page that is mapped was given page by page. -/
theorem aligned_of_pagingMapPage (hrun : s.pagingMapPage B virt phys flags = some (true, s')) :
    virt.toNat % 2 ^ 12 = 0 ∧ phys.toNat % 2 ^ 12 = 0 := by
  unfold pagingMapPage at hrun
  simp only [ne_eq, and_pageMask_eq_zero] at hrun
  split at hrun
  · exact absurd hrun (by simp)
  · next h => tauto

/-- Whatever is translated is translated to 56 bits. -/
theorem physAddr_lt_of_translation (h5 : s.gLevels ≤ 5) (h3 : 3 ≤ s.gLevels) {va pte : BitVec 64}
    {level : ℕ} (h : s.translation m va = some (pte, level)) :
    Mmu.physAddr va pte level < 2 ^ 56 := by
  have hlevel := (Mmu.translate_eq_some h (show 0 < s.gLevels by omega)).2.1
  exact Mmu.physAddr_lt (by omega)

/-! ## Ranges that fit -/

/-- **A range that fits is mapped when it is reported so**, and nothing
else. -/
theorem mapped_of_fits (h : Sound B m s) (hconf : s.Conforms m) (hsize : size ≠ 0#64)
    (hfits : RangeFits s.gLevels virt phys size flags)
    (hrun : s.pagingMapRange B virt phys size flags = some (true, s'))
    (hpool : s'.gEarlyPtPoolUsed = s.gEarlyPtPoolUsed ∨ PoolSound B m s) :
    phys.toNat + sizePages size * 2 ^ 12 ≤ 2 ^ 56
      ∧ Mapped B m virt phys flags (sizePages size) s s' := by
  have hpages := sizePages_pos hsize
  obtain ⟨hlast, -⟩ := toNat_last hfits.1
  unfold pagingMapRange at hrun
  rw [if_neg hsize] at hrun
  -- the first page has been mapped, so the addresses are aligned
  have haligned : virt.toNat % 2 ^ 12 = 0 ∧ phys.toNat % 2 ^ 12 = 0 := by
    have hfirst := hrun
    unfold pagingMapRangeLoop at hfirst
    rw [if_pos (by rw [BitVec.lt_def]; omega)] at hfirst
    split at hfirst
    · exact absurd hfirst (by simp)
    · exact absurd hfirst (by simp)
    · next hpage => exact aligned_of_pagingMapPage hpage
  obtain ⟨hcanon, hphys, hflags⟩ := hfits.2 haligned.1 haligned.2
  exact ⟨hphys, pagingMapRangeLoop_maps h hconf hlast.symm hcanon hphys hflags hrun hpool⟩

theorem Mapped.rangeMapped (hvirt : virt.toNat + sizePages size * 2 ^ 12 < 2 ^ 64)
    (hphys : phys.toNat + sizePages size * 2 ^ 12 ≤ 2 ^ 56)
    (h : Mapped B m virt phys flags (sizePages size) s s') :
    RangeMapped m s' virt phys size flags := by
  unfold RangeMapped
  generalize sizePages size = n at hvirt hphys h ⊢
  intro i hi
  have hvirti : virt.toNat + i * 2 ^ 12 < 2 ^ 64 := lt_of_le_of_lt (by omega) hvirt
  have hpage : (pageAt phys i).toNat = phys.toNat + i * 2 ^ 12 := toNat_pageAt (by omega)
  refine ⟨hvirti, ?_⟩
  obtain ⟨pte, level, ht, hp, hg⟩ := h.maps i hi
  exact ⟨pte, level, ht, hp.trans hpage, hg⟩

/-- **A range that is safe fits**, as a full tree accepts it anyway. -/
theorem fits_of_rangeSafe (h3 : 3 ≤ levels) (h5 : levels ≤ 5) (hsize : size ≠ 0#64)
    (hsafe : RangeSafe levels virt phys size flags) : RangeFits levels virt phys size flags := by
  obtain ⟨B, s, -, hsound, hconf, hfull, hbare, rfl, hroot⟩ :=
    exists_full_bare Mmu.strict (show (0#64).toNat % 2 ^ 12 = 0 by decide) h3 h5
  have hpages := sizePages_pos hsize
  have hend : virt.toNat + sizePages size * 2 ^ 12 < 2 ^ 64 := by
    by_contra hwrap
    have hrun : s.pagingMapRange B virt phys size flags = some (true, s) := by
      unfold pagingMapRange
      rw [if_neg hsize]
      unfold pagingMapRangeLoop
      rw [if_neg (not_lt_last (not_lt.mp hwrap))]
    obtain ⟨-, pte, level, ht, -⟩ :=
      hsafe B Mmu.strict s s hsound hconf rfl hrun (Or.inl rfl) 0 hpages
    rw [hbare] at ht
    exact absurd ht (by simp)
  refine ⟨hend, fun hvirt hphys => ?_⟩
  obtain ⟨s', hrun, hkept, -⟩ :=
    Full.pagingMapRange size flags hsound hfull hroot hvirt hphys
  have hmapped := hsafe B Mmu.strict s s' hsound hconf rfl hrun (Or.inl hkept.pool)
  refine ⟨fun i hi => ?_, ?_, ?_⟩
  · obtain ⟨-, pte, level, ht, -⟩ := hmapped i hi
    exact hkept.gLevels ▸ (Mmu.translate_eq_some ht (by rw [hkept.gLevels]; omega)).1
  · obtain ⟨-, pte, level, ht, hp, -⟩ := hmapped (sizePages size - 1) (by omega)
    have hlt := hp ▸ physAddr_lt_of_translation (hkept.gLevels ▸ h5) (hkept.gLevels ▸ h3) ht
    omega
  · by_contra hflags
    obtain ⟨-, pte, level, ht, -⟩ := hmapped 0 hpages
    rw [hkept.bare hflags hbare] at ht
    exact absurd ht (by simp)

/-! ## Devices that fit -/

theorem mmio_aligned (h : hhdm.toNat % 2 ^ 12 = 0) (phys : BitVec 64) :
    (physToVirt hhdm (pageAlignDown phys)).toNat % 2 ^ 12 = 0
      ∧ (pageAlignDown phys).toNat % 2 ^ 12 = 0 := by
  have hdown : (pageAlignDown phys).toNat % 2 ^ 12 = 0 := by
    rw [toNat_pageAlignDown]
    exact Nat.mul_mod_left _ _
  refine ⟨?_, hdown⟩
  rw [physToVirt, BitVec.toNat_add]
  omega

theorem pageAt_aligned (h : virt.toNat % 2 ^ 12 = 0) (i : ℕ) :
    (pageAt virt i).toNat % 2 ^ 12 = 0 := by
  unfold pageAt
  rw [BitVec.toNat_add, BitVec.toNat_ofNat]
  omega

/-- **The range made of a device** is that of the pages its bytes lie in. -/
theorem mmio_range (h : phys.toNat + size.toNat ≤ 2 ^ 56) (hsize : size ≠ 0#64) :
    pageAlignUp (phys + size) - pageAlignDown phys ≠ 0#64
      ∧ phys.toNat / 2 ^ 12 + sizePages (pageAlignUp (phys + size) - pageAlignDown phys)
        = (phys.toNat + size.toNat + (2 ^ 12 - 1)) / 2 ^ 12 := by
  have hpos : size.toNat ≠ 0 := fun h₀ => hsize (BitVec.eq_of_toNat_eq h₀)
  have hlen : (pageAlignUp (phys + size) - pageAlignDown phys).toNat
      = (phys.toNat + size.toNat + (2 ^ 12 - 1)) / 2 ^ 12 * 2 ^ 12
        - phys.toNat / 2 ^ 12 * 2 ^ 12 := by
    rw [BitVec.toNat_sub, toNat_pageAlignUp, toNat_pageAlignDown, BitVec.toNat_add]
    omega
  refine ⟨fun h₀ => ?_, ?_⟩
  · rw [h₀] at hlen
    change 0 = _ at hlen
    omega
  · unfold sizePages
    rw [hlen]
    omega

/-- **The direct map of a byte** lies in the page of the range that belongs to
the page of the byte. -/
theorem toNat_physToVirt_byte (hhdm : BitVec 64) {b i : ℕ}
    (hi : b / 2 ^ 12 = phys.toNat / 2 ^ 12 + i)
    (hend : (physToVirt hhdm (pageAlignDown phys)).toNat + (i + 1) * 2 ^ 12 ≤ 2 ^ 64) :
    (physToVirt hhdm (BitVec.ofNat 64 b)).toNat
      = (pageAt (physToVirt hhdm (pageAlignDown phys)) i).toNat + b % 2 ^ 12 := by
  rw [toNat_pageAt (by omega)]
  revert hend
  rw [physToVirt, physToVirt, BitVec.toNat_add, BitVec.toNat_add, toNat_pageAlignDown,
    BitVec.toNat_ofNat]
  omega

/-- A byte of a page of the range lies in the page. -/
theorem page_eq_of_byte (hhdm_aligned : hhdm.toNat % 2 ^ 12 = 0) {b i : ℕ}
    (hi : b / 2 ^ 12 = phys.toNat / 2 ^ 12 + i)
    (hend : (physToVirt hhdm (pageAlignDown phys)).toNat + (i + 1) * 2 ^ 12 ≤ 2 ^ 64) :
    (physToVirt hhdm (BitVec.ofNat 64 b)).toNat / 2 ^ 12
      = (pageAt (physToVirt hhdm (pageAlignDown phys)) i).toNat / 2 ^ 12 := by
  have hstart := (mmio_aligned hhdm_aligned phys).1
  rw [toNat_physToVirt_byte hhdm hi hend, toNat_pageAt (by omega)]
  omega

/-- **A device that fits is mapped when it is reported so.** -/
theorem mmioMapped_of_fits (h : Sound B m s) (hconf : s.Conforms m) (hsize : size ≠ 0#64)
    (hfits : MmioFits s.gLevels B.hhdm phys size)
    (hrun : s.pagingMapMmio B phys size = some (true, s'))
    (hpool : s'.gEarlyPtPoolUsed = s.gEarlyPtPoolUsed ∨ PoolSound B m s) :
    MmioMapped B m s' phys size := by
  obtain ⟨hend, hrange⟩ := hfits
  obtain ⟨hlen, hpages⟩ := mmio_range hend hsize
  have hstart := (mmio_aligned B.hhdm_aligned phys).1
  unfold pagingMapMmio at hrun
  dsimp only at hrun
  rw [if_neg hsize] at hrun
  obtain ⟨hphys, hrun'⟩ := mapped_of_fits h hconf hlen hrange hrun hpool
  have hlevels := hrun'.gLevels
  have hlast := hrange.1
  have hmapped := hrun'.maps
  clear hrun hrun' hrange
  generalize sizePages (pageAlignUp (phys + size) - pageAlignDown phys) = n
    at hpages hphys hlast hmapped
  intro b hb hb'
  -- the byte lies in one of the pages of the range
  have hi : b / 2 ^ 12 = phys.toNat / 2 ^ 12 + (b / 2 ^ 12 - phys.toNat / 2 ^ 12) := by omega
  have hlt : b / 2 ^ 12 - phys.toNat / 2 ^ 12 < n := by omega
  generalize b / 2 ^ 12 - phys.toNat / 2 ^ 12 = i at hi hlt
  rw [toNat_pageAlignDown] at hphys
  have hlasti : (physToVirt B.hhdm (pageAlignDown phys)).toNat + (i + 1) * 2 ^ 12 ≤ 2 ^ 64 := by
    omega
  have hphysi : (pageAt (pageAlignDown phys) i).toNat = b / 2 ^ 12 * 2 ^ 12 := by
    rw [toNat_pageAt (by rw [toNat_pageAlignDown]; omega), toNat_pageAlignDown]
    omega
  have hpage := page_eq_of_byte B.hhdm_aligned hi hlasti
  obtain ⟨pte, level, ht, hp, hg⟩ := hmapped i hlt
  refine ⟨pte, level, ?_, ?_, (hg.write (by decide)).1, (hg.write (by decide)).2.1⟩
  · rw [← ht]
    exact Mmu.translate_eq_of_page_eq (hlevels ▸ h.three_le) (hlevels ▸ h.le_five) hpage
  · have hoffset : _ + _ = Mmu.physAddr _ pte level + _ := Mmu.physAddr_of_page_eq hpage
    rw [hp, hphysi, toNat_physToVirt_byte B.hhdm hi hlasti] at hoffset
    have haligned := pageAt_aligned (mmio_aligned B.hhdm_aligned phys).1 i
    omega

/-- **A device that is safe fits**, as a full tree accepts it anyway. -/
theorem fits_of_mmioSafe (h3 : 3 ≤ levels) (h5 : levels ≤ 5)
    (hhdm_aligned : hhdm.toNat % 2 ^ 12 = 0) (hsize : size ≠ 0#64)
    (hsafe : MmioSafe levels hhdm phys size) : MmioFits levels hhdm phys size := by
  obtain ⟨B, s, rfl, hsound, hconf, hfull, hbare, rfl, hroot⟩ :=
    exists_full_bare Mmu.strict hhdm_aligned h3 h5
  obtain ⟨hvirt, hphys⟩ := mmio_aligned hhdm_aligned phys
  obtain ⟨s', hrange, hkept, hwrap⟩ :=
    Full.pagingMapRange (pageAlignUp (phys + size) - pageAlignDown phys) pagingProtRwg
      hsound hfull hroot hvirt hphys
  have hrun : s.pagingMapMmio B phys size = some (true, s') := by
    unfold pagingMapMmio
    dsimp only
    rw [if_neg hsize]
    exact hrange
  have hmapped := hsafe B Mmu.strict s s' rfl hsound hconf rfl hrun (Or.inl hkept.pool)
  have hpos : size.toNat ≠ 0 := fun h₀ => hsize (BitVec.eq_of_toNat_eq h₀)
  have hend : phys.toNat + size.toNat ≤ 2 ^ 56 := by
    obtain ⟨pte, level, ht, hp, -⟩ := hmapped (phys.toNat + size.toNat - 1) (by omega) (by omega)
    have hlt := hp ▸ physAddr_lt_of_translation (hkept.gLevels ▸ h5) (hkept.gLevels ▸ h3) ht
    omega
  obtain ⟨-, hpages⟩ := mmio_range hend hsize
  have hlast : (physToVirt B.hhdm (pageAlignDown phys)).toNat
      + sizePages (pageAlignUp (phys + size) - pageAlignDown phys) * 2 ^ 12 < 2 ^ 64 := by
    by_contra hge
    obtain ⟨pte, level, ht, -⟩ := hmapped phys.toNat le_rfl (by omega)
    rw [hwrap (not_lt.mp hge), hbare] at ht
    exact absurd ht (by simp)
  refine ⟨hend, hlast, fun _ _ => ⟨fun i hi => ?_, ?_, by decide⟩⟩
  · -- the first byte of the device in the page
    obtain ⟨pte, level, ht, -⟩ :=
      hmapped (max phys.toNat ((phys.toNat / 2 ^ 12 + i) * 2 ^ 12)) (le_max_left _ _) (by omega)
    have hcanon := hkept.gLevels ▸ (Mmu.translate_eq_some ht (by rw [hkept.gLevels]; omega)).1
    exact canonical_of_page_eq h3 h5 (page_eq_of_byte hhdm_aligned (by omega) (by omega)) hcanon
  · rw [toNat_pageAlignDown]
    omega

/-! ## Exactly these -/

theorem rangeSafe_iff (h3 : 3 ≤ levels) (h5 : levels ≤ 5) (hsize : size ≠ 0#64) :
    RangeSafe levels virt phys size flags ↔ RangeFits levels virt phys size flags := by
  refine ⟨fits_of_rangeSafe h3 h5 hsize, fun hfits B m s s' h hconf hlevels hrun hpool => ?_⟩
  subst hlevels
  obtain ⟨hphys, hmapped⟩ := mapped_of_fits h hconf hsize hfits hrun hpool
  exact hmapped.rangeMapped hfits.1 hphys

theorem mmioSafe_iff (h3 : 3 ≤ levels) (h5 : levels ≤ 5) (hhdm_aligned : hhdm.toNat % 2 ^ 12 = 0)
    (hsize : size ≠ 0#64) : MmioSafe levels hhdm phys size ↔ MmioFits levels hhdm phys size := by
  refine ⟨fits_of_mmioSafe h3 h5 hhdm_aligned hsize,
    fun hfits B m s s' hhdm h hconf hlevels hrun hpool => ?_⟩
  subst hhdm hlevels
  exact mmioMapped_of_fits h hconf hsize hfits hrun hpool

/-- **A range or a device that is reported as mapped is mapped exactly when it
fits.** -/
theorem rangeSafe_iff_and_mmioSafe_iff (h3 : 3 ≤ levels) (h5 : levels ≤ 5) :
    (∀ virt phys size flags, size ≠ 0#64 →
        (RangeSafe levels virt phys size flags ↔ RangeFits levels virt phys size flags))
      ∧ ∀ hhdm phys size, hhdm.toNat % 2 ^ 12 = 0 → size ≠ 0#64 →
        (MmioSafe levels hhdm phys size ↔ MmioFits levels hhdm phys size) :=
  ⟨fun _ _ _ _ => rangeSafe_iff h3 h5, fun _ _ _ => mmioSafe_iff h3 h5⟩

/-- The registers of a serial port are safe behind the usual direct map. -/
theorem mmioSafe_serialPort : MmioSafe 3 0xffffffc000000000#64 0x10000000#64 0x100#64 := by
  refine ((rangeSafe_iff_and_mmioSafe_iff (by decide) (by decide)).2 _ _ _ (by decide)
    (by decide)).mpr ⟨by decide, by decide, fun _ _ => ⟨?_, by decide, by decide⟩⟩
  decide

theorem bare_emptyTree : emptyTree.Bare m := by
  intro va
  by_contra hne
  obtain ⟨⟨e, i⟩, he⟩ := Option.ne_none_iff_exists'.mp hne
  obtain ⟨-, -, hleaf, b, j, rfl⟩ := Mmu.translate_eq_some he (show 0 < 3 by decide)
  exact absurd hleaf (show ¬ (Pte.r 0#64 || Pte.x 0#64) = true by decide)

/-- **A device that is reported as mapped although nothing is**: one that wraps around
the address space, so far that its rounded end is its start. -/
theorem pagingMapMmio_accepts_wrapping :
    emptyTree.pagingMapMmio exampleBoot 0x10000000#64 0xffffffffffffffff#64
        = some (true, emptyTree)
      ∧ (∀ va, emptyTree.translation Mmu.strict va = none)
      ∧ ¬ MmioSafe 3 exampleBoot.hhdm 0x10000000#64 0xffffffffffffffff#64 := by
  have hrun : emptyTree.pagingMapMmio exampleBoot 0x10000000#64 0xffffffffffffffff#64
      = some (true, emptyTree) := rfl
  have hnone : ∀ va, emptyTree.translation Mmu.strict va = none := bare_emptyTree
  refine ⟨hrun, hnone, fun hsafe => ?_⟩
  obtain ⟨pte, level, ht, -⟩ := hsafe exampleBoot Mmu.strict emptyTree emptyTree rfl
    sound_emptyTree conforms_emptyTree rfl hrun (Or.inl rfl) 0x10000000 (by decide) (by decide)
  rw [hnone] at ht
  exact absurd ht (by simp)

end Paging
