import Risky.PagingInit
import Risky.PagingRefusal

/-!
# What `paging_init` maps

`paging_init` makes its requests one after the other on one tree, so a later
one could undo what an earlier one has done. It does not: the requests for one
page are all the same. Hence, once `paging_init` succeeds, memory is mapped
through the direct map, the kernel image is mapped segment by segment with at
least the rights of the segment, and every other page is as it was. What may be
missing is an entry of the memory map whose alias is the end of the address
space: its end is computed as 0, and `paging_map_range` maps nothing
(`Paging.kernelMapped_iff`).

*At least* the rights: a page that the boot loader has mapped with more is left
alone, and then the segment is not protected (`Paging.segmentsProtected_iff`).
-/

namespace Paging

variable {B : Boot} {m : Mmu} {R : Responses} {I : KernelImage} {satp : BitVec 64}
  {s s' s₁ : Paging} {r : Bool} {l : List MapRequest} {q : MapRequest}
  {memmap : List LimineMemmapEntry} {virt phys flags va pte : BitVec 64} {level a : ℕ}

/-! ## Runs of requests -/

theorem pool_le_of_mapRequests (hrun : mapRequests B l s = some (r, s')) :
    s.gEarlyPtPoolUsed ≤ s'.gEarlyPtPoolUsed := by
  induction l generalizing s with
  | nil =>
    cases hrun
    exact le_rfl
  | cons q l ih =>
    unfold mapRequests at hrun
    split at hrun
    · exact absurd hrun (by simp)
    · next t hpage =>
      cases hrun
      exact pool_le_of_pagingMapPage hpage
    · next t hpage => exact (pool_le_of_pagingMapPage hpage).trans (ih hrun)

/-- **What a run of requests leaves**: a state in order, in which at most the
pages asked for are translated differently. -/
structure RequestsEffect (B : Boot) (m : Mmu) (l : List MapRequest) (s s' : Paging) : Prop where
  sound : Sound B m s'
  gLevels : s'.gLevels = s.gLevels
  frame : ∀ va, (∀ q ∈ l, indices va s.gLevels ≠ indices q.virt s.gLevels) →
    s'.translation m va = s.translation m va

/-- **The first request and the rest**, where none is refused. -/
theorem mapRequests_cons_true (h : Sound B m s)
    (hrun : mapRequests B (q :: l) s = some (true, s'))
    (hpool : s'.gEarlyPtPoolUsed = s.gEarlyPtPoolUsed ∨ PoolSound B m s) :
    ∃ t, s.pagingMapPage B q.virt q.phys q.flags = some (true, t)
      ∧ mapRequests B l t = some (true, s')
      ∧ (t.gEarlyPtPoolUsed = s.gEarlyPtPoolUsed ∨ PoolSound B m s)
      ∧ (s'.gEarlyPtPoolUsed = t.gEarlyPtPoolUsed ∨ PoolSound B m t)
      ∧ MapEffect B m q.virt true s t := by
  unfold mapRequests at hrun
  split at hrun
  · exact absurd hrun (by simp)
  · exact absurd hrun (by simp)
  · next t hpage =>
    have hle := pool_le_of_pagingMapPage hpage
    have hle' := pool_le_of_mapRequests hrun
    have hpool₁ : t.gEarlyPtPoolUsed = s.gEarlyPtPoolUsed ∨ PoolSound B m s :=
      hpool.imp_left (fun heq => le_antisymm (heq ▸ hle') hle)
    have heff := mapEffect_of_pagingMapPage h hpage hpool₁
    exact ⟨t, hpage, hrun, hpool₁,
      hpool.imp (fun heq => le_antisymm (heq ▸ hle) hle') heff.pool, heff⟩

theorem mapRequests_effect (h : Sound B m s) (hrun : mapRequests B l s = some (true, s'))
    (hpool : s'.gEarlyPtPoolUsed = s.gEarlyPtPoolUsed ∨ PoolSound B m s) :
    RequestsEffect B m l s s' := by
  induction l generalizing s with
  | nil =>
    cases hrun
    exact ⟨h, rfl, fun _ _ => rfl⟩
  | cons q l ih =>
    obtain ⟨t, -, hrest, -, hpool', heff⟩ := mapRequests_cons_true h hrun hpool
    have hih := ih heff.sound hrest hpool'
    refine ⟨hih.sound, hih.gLevels.trans heff.gLevels, fun va hva => ?_⟩
    rw [hih.frame va (fun q' hq' => heff.gLevels ▸ hva q' (List.mem_cons_of_mem _ hq')),
      heff.frame va (hva q List.mem_cons_self)]

/-- A request that can be granted in a mode of `levels` levels. -/
structure Grantable (levels : ℕ) (q : MapRequest) : Prop where
  canonical : Canonical levels q.virt
  phys_lt : q.phys.toNat < 2 ^ 56
  someRight : SomeRight q.flags

/-- **No two requests differ for one page.** -/
def Consistent (levels : ℕ) (l : List MapRequest) : Prop :=
  ∀ q ∈ l, ∀ q' ∈ l, indices q.virt levels = indices q'.virt levels → q = q'

theorem Consistent.of_cons {levels : ℕ} (h : Consistent levels (q :: l)) : Consistent levels l :=
  fun q hq q' hq' => h q (List.mem_cons_of_mem _ hq) q' (List.mem_cons_of_mem _ hq')

/-- **A consistent run of requests grants all of them.** -/
theorem mapRequests_maps (h : Sound B m s) (hconf : s.Conforms m)
    (hgrant : ∀ q ∈ l, Grantable s.gLevels q) (hcons : Consistent s.gLevels l)
    (hrun : mapRequests B l s = some (true, s'))
    (hpool : s'.gEarlyPtPoolUsed = s.gEarlyPtPoolUsed ∨ PoolSound B m s) :
    ∀ q ∈ l, s'.Maps m q.virt q.phys q.flags := by
  induction l generalizing s with
  | nil => exact fun q hq => absurd hq List.not_mem_nil
  | cons q₀ l ih =>
    obtain ⟨t, hpage, hrest, hpool₁, hpool', heff⟩ := mapRequests_cons_true h hrun hpool
    have hq₀ := hgrant q₀ List.mem_cons_self
    obtain ⟨hconf₁, hmaps₁⟩ :=
      maps_of_pagingMapPage h hconf hq₀.canonical hq₀.phys_lt hq₀.someRight hpage hpool₁
    have hih := ih heff.sound hconf₁
      (fun q hq => heff.gLevels ▸ hgrant q (List.mem_cons_of_mem _ hq))
      (heff.gLevels ▸ hcons.of_cons) hrest hpool'
    intro q hq
    by_cases hql : q ∈ l
    · exact hih q hql
    · -- the rest asks for other pages
      obtain rfl : q = q₀ := (List.mem_cons.mp hq).resolve_right hql
      refine hmaps₁.congr ((mapRequests_effect heff.sound hrest hpool').frame q.virt
        (fun q' hq' he => hql ?_))
      rw [heff.gLevels] at he
      exact hcons q hq q' (List.mem_cons_of_mem _ hq') he ▸ hq'

/-! ## The pages that are asked for -/

/-- **A page of an entry of the memory map**, rounded to whole pages. -/
def EntryPage (entry : LimineMemmapEntry) (phys : BitVec 64) : Prop :=
  phys.toNat % 2 ^ 12 = 0 ∧ (pageAlignDown entry.base).toNat ≤ phys.toNat
    ∧ phys.toNat < (pageAlignUp (entry.base + entry.length)).toNat

/-- **The alias of an entry ends with the address space.** -/
def EndsAtTop (hhdm : BitVec 64) (entry : LimineMemmapEntry) : Prop :=
  hhdm.toNat + (pageAlignUp (entry.base + entry.length)).toNat = 2 ^ 64

instance (hhdm : BitVec 64) (entry : LimineMemmapEntry) : Decidable (EndsAtTop hhdm entry) :=
  inferInstanceAs (Decidable (_ = _))

/-- **A page of a segment of the kernel**, rounded to whole pages. -/
def SegmentPage (segment : PagingSegment) (virt : BitVec 64) : Prop :=
  virt.toNat % 2 ^ 12 = 0 ∧ (pageAlignDown segment.start).toNat ≤ virt.toNat
    ∧ virt.toNat < (pageAlignUp segment.stop).toNat

/-- **The segments as the linker lays them out**: one behind the other, each
but the first at the start of a page, and none at the end of the address
space. -/
structure Layout (I : KernelImage) : Prop where
  requests_le : I.limineRequestsStart.toNat ≤ I.textStart.toNat
  text_aligned : I.textStart.toNat % 2 ^ 12 = 0
  text_le : I.textStart.toNat ≤ I.textEnd.toNat
  text_le_rodata : I.textEnd.toNat ≤ I.rodataStart.toNat
  rodata_aligned : I.rodataStart.toNat % 2 ^ 12 = 0
  rodata_le : I.rodataStart.toNat ≤ I.rodataEnd.toNat
  rodata_le_data : I.rodataEnd.toNat ≤ I.dataStart.toNat
  data_aligned : I.dataStart.toNat % 2 ^ 12 = 0
  data_le : I.dataStart.toNat ≤ I.bssEnd.toNat
  fits : I.bssEnd.toNat + 2 ^ 12 ≤ 2 ^ 64

/-- **What the boot loader and the linker promise** about the places of memory
and of the kernel, in a mode of `levels` levels. -/
structure Placement (B : Boot) (levels : ℕ) (I : KernelImage)
    (memmap : List LimineMemmapEntry) : Prop where
  layout : Layout I
  /-- Memory has addresses of 56 bits. -/
  below : ∀ entry ∈ memmap, entry.base.toNat + entry.length.toNat ≤ 2 ^ 56
  /-- Its aliases in the direct map do not wrap around, but may reach the end of the
  address space, -/
  alias_fits : ∀ entry ∈ memmap, ∀ phys, EntryPage entry phys →
    B.hhdm.toNat + (phys.toNat + 2 ^ 12) ≤ 2 ^ 64
  /-- are canonical, -/
  alias_canonical : ∀ entry ∈ memmap, ∀ phys, EntryPage entry phys →
    Canonical levels (physToVirt B.hhdm phys)
  /-- and not in the image of the kernel. -/
  alias_disjoint : ∀ entry ∈ memmap, ∀ phys, EntryPage entry phys →
    ∀ segment ∈ pagingKernelSegmentList I, ¬ SegmentPage segment (physToVirt B.hhdm phys)
  /-- The image is canonical, -/
  image_canonical : ∀ segment ∈ pagingKernelSegmentList I, ∀ virt, SegmentPage segment virt →
    Canonical levels virt
  /-- and lies in memory. -/
  image_phys : ∀ segment ∈ pagingKernelSegmentList I, ∀ virt, SegmentPage segment virt →
    (B.imagePhys virt).toNat < 2 ^ 56

/-- The pages in a row, by address. -/
theorem exists_pageAt_iff {start : BitVec 64} {n : ℕ} (hstart : start.toNat % 2 ^ 12 = 0)
    (hn : start.toNat + n * 2 ^ 12 ≤ 2 ^ 64) (va : BitVec 64) :
    (∃ i < n, va = pageAt start i)
      ↔ va.toNat % 2 ^ 12 = 0 ∧ start.toNat ≤ va.toNat
        ∧ va.toNat < start.toNat + n * 2 ^ 12 := by
  constructor
  · rintro ⟨i, hi, rfl⟩
    rw [toNat_pageAt (by omega)]
    omega
  · rintro ⟨haligned, hle, hlt⟩
    refine ⟨(va.toNat - start.toNat) / 2 ^ 12, by omega, BitVec.eq_of_toNat_eq ?_⟩
    rw [toNat_pageAt (by omega)]
    omega

theorem pageAt_physToVirt (hhdm phys : BitVec 64) (i : ℕ) :
    pageAt (physToVirt hhdm phys) i = physToVirt hhdm (pageAt phys i) := by
  unfold pageAt physToVirt
  rw [BitVec.add_assoc, BitVec.add_comm hhdm, ← BitVec.add_assoc]

theorem pageAt_imagePhys (B : Boot) (virt : BitVec 64) (i : ℕ) :
    pageAt (B.imagePhys virt) i = B.imagePhys (pageAt virt i) := by
  unfold pageAt Boot.imagePhys
  generalize BitVec.ofNat 64 (i * 2 ^ 12) = k
  bv_omega

/-- **The requests for an entry** are those for its pages, unless its alias ends with the
address space. -/
theorem mem_entryRequests {entry : LimineMemmapEntry}
    (hbelow : entry.base.toNat + entry.length.toNat ≤ 2 ^ 56)
    (hfits : ∀ phys, EntryPage entry phys → B.hhdm.toNat + (phys.toNat + 2 ^ 12) ≤ 2 ^ 64) :
    q ∈ entryRequests B entry
      ↔ ¬ EndsAtTop B.hhdm entry
        ∧ ∃ phys, EntryPage entry phys ∧ q = ⟨physToVirt B.hhdm phys, phys, pagingProtRwg⟩ := by
  have hstart := toNat_pageAlignDown entry.base
  have hstop := toNat_pageAlignUp (entry.base + entry.length)
  have hsum : (entry.base + entry.length).toNat = entry.base.toNat + entry.length.toNat := by
    rw [BitVec.toNat_add]
    omega
  rw [hsum] at hstop
  have hle : (pageAlignDown entry.base).toNat
      ≤ (pageAlignUp (entry.base + entry.length)).toNat := by omega
  have hsub : (pageAlignUp (entry.base + entry.length) - pageAlignDown entry.base).toNat
      = (pageAlignUp (entry.base + entry.length)).toNat - (pageAlignDown entry.base).toNat :=
    BitVec.toNat_sub_of_le hle
  have hpages : (pageAlignDown entry.base).toNat
      + sizePages (pageAlignUp (entry.base + entry.length) - pageAlignDown entry.base) * 2 ^ 12
        = (pageAlignUp (entry.base + entry.length)).toNat := by
    unfold sizePages
    rw [hsub]
    omega
  unfold entryRequests rangeRequests EntryPage EndsAtTop
  set n := sizePages (pageAlignUp (entry.base + entry.length) - pageAlignDown entry.base) with hn
  rw [← hpages]
  have haligned : (pageAlignDown entry.base).toNat % 2 ^ 12 = 0 := by omega
  have hbound : (pageAlignDown entry.base).toNat + n * 2 ^ 12 ≤ 2 ^ 64 := by omega
  have hpage := exists_pageAt_iff haligned hbound
  rcases Nat.eq_zero_or_pos n with hzero | hpos
  · rw [hzero]
    have hnone : ∀ v : BitVec 64, pageRequests v (pageAlignDown entry.base) pagingProtRwg 0 = [] :=
      fun _ => rfl
    rw [hnone, ite_self]
    simp only [List.not_mem_nil, false_iff, not_exists, not_and]
    intro _ phys h
    omega
  · -- the last page decides whether the aliases wrap around
    have hlast := hfits (pageAt (pageAlignDown entry.base) (n - 1)) (by
      unfold EntryPage
      rw [← hpages]
      exact (hpage _).mp ⟨n - 1, by omega, rfl⟩)
    rw [toNat_pageAt (by omega)] at hlast
    have hvirt : (physToVirt B.hhdm (pageAlignDown entry.base)).toNat
        = (pageAlignDown entry.base).toNat + B.hhdm.toNat := by
      unfold physToVirt
      rw [BitVec.toNat_add]
      omega
    by_cases htop : B.hhdm.toNat + ((pageAlignDown entry.base).toNat + n * 2 ^ 12) = 2 ^ 64
    · -- the end is computed as 0
      rw [if_neg (by omega)]
      exact iff_of_false List.not_mem_nil (fun h => h.1 htop)
    rw [if_pos (by omega), mem_pageRequests]
    simp only [pageAt_physToVirt]
    constructor
    · rintro ⟨i, hi, rfl⟩
      exact ⟨htop, _, (hpage _).mp ⟨i, hi, rfl⟩, rfl⟩
    · rintro ⟨-, phys, hphys, rfl⟩
      obtain ⟨i, hi, rfl⟩ := (hpage phys).mpr hphys
      exact ⟨i, hi, rfl⟩

/-- **The requests for a segment** are those for its pages. -/
theorem mem_segmentRequests {segment : PagingSegment} :
    q ∈ segmentRequests B segment
      ↔ ∃ virt, SegmentPage segment virt ∧ q = ⟨virt, B.imagePhys virt, segment.flags⟩ := by
  have haligned : (pageAlignDown segment.start).toNat % 2 ^ 12 = 0 := by
    rw [toNat_pageAlignDown]
    exact Nat.mul_mod_left _ _
  have hlt := (pageAlignUp segment.stop).isLt
  unfold segmentRequests SegmentPage
  rw [mem_pageRequests]
  simp only [pageAt_imagePhys]
  by_cases h : pageAlignDown segment.start < pageAlignUp segment.stop
  · have hpages := segmentPages_spec h
    have hpage := exists_pageAt_iff haligned (hpages ▸ hlt.le)
    rw [← hpages]
    constructor
    · rintro ⟨i, hi, rfl⟩
      exact ⟨_, (hpage _).mp ⟨i, hi, rfl⟩, rfl⟩
    · rintro ⟨virt, hvirt, rfl⟩
      obtain ⟨i, hi, rfl⟩ := (hpage virt).mpr hvirt
      exact ⟨i, hi, rfl⟩
  · have hnone : segmentPages segment = 0 := if_neg h
    rw [hnone]
    rw [BitVec.lt_def, not_lt] at h
    constructor
    · rintro ⟨i, hi, -⟩
      exact absurd hi (Nat.not_lt_zero i)
    · rintro ⟨virt, hvirt, -⟩
      omega

/-- **No page is in two segments**, as one begins behind the other. -/
theorem Layout.eq_of_segmentPage (h : Layout I) {segment segment' : PagingSegment}
    (hs : segment ∈ pagingKernelSegmentList I) (hs' : segment' ∈ pagingKernelSegmentList I)
    (hv : SegmentPage segment virt) (hv' : SegmentPage segment' virt) : segment = segment' := by
  have hends : (pagingKernelSegmentList I).Pairwise (fun a b =>
      (pageAlignUp a.stop).toNat ≤ (pageAlignDown b.start).toNat) := by
    have hfits := h.fits
    have h₁ := h.text_aligned
    have h₂ := h.rodata_aligned
    have h₃ := h.data_aligned
    have h₄ := h.text_le
    have h₅ := h.text_le_rodata
    have h₆ := h.rodata_le
    have h₇ := h.rodata_le_data
    have h₈ := h.data_le
    simp only [pagingKernelSegmentList, List.pairwise_cons, List.mem_cons, List.not_mem_nil,
      or_false, forall_eq_or_imp, forall_eq, toNat_pageAlignUp, toNat_pageAlignDown]
    refine ⟨⟨?_, ?_, ?_⟩, ⟨?_, ?_⟩, ?_, fun _ h => absurd h id, List.Pairwise.nil⟩
    all_goals omega
  have hdisjoint : (pagingKernelSegmentList I).Pairwise (fun a b =>
      ¬ (SegmentPage a virt ∧ SegmentPage b virt)) := by
    refine hends.imp (fun {a b} hle => ?_)
    rintro ⟨⟨-, -, hlt⟩, -, hge, -⟩
    omega
  by_contra hne
  have hsymm : Std.Symm (fun a b : PagingSegment => ¬ (SegmentPage a virt ∧ SegmentPage b virt)) :=
    ⟨fun _ _ hab hba => hab hba.symm⟩
  exact hdisjoint.forall hs hs' hne ⟨hv, hv'⟩

/-- An alias is a whole page, as the page is. -/
theorem alias_aligned (B : Boot) (hp : phys.toNat % 2 ^ 12 = 0) :
    (physToVirt B.hhdm phys).toNat % 2 ^ 12 = 0 := by
  have hhhdm := B.hhdm_aligned
  unfold physToVirt
  rw [BitVec.toNat_add]
  omega

namespace Placement

variable {levels : ℕ} (h : Placement B levels I memmap)
include h

theorem mem_initRequests : q ∈ initRequests B memmap I
    ↔ (∃ entry ∈ memmap, ¬ EndsAtTop B.hhdm entry ∧ ∃ phys, EntryPage entry phys
        ∧ q = ⟨physToVirt B.hhdm phys, phys, pagingProtRwg⟩)
      ∨ ∃ segment ∈ pagingKernelSegmentList I, ∃ virt, SegmentPage segment virt
        ∧ q = ⟨virt, B.imagePhys virt, segment.flags⟩ := by
  unfold initRequests
  rw [List.mem_append, List.mem_flatMap, List.mem_flatMap]
  refine or_congr (exists_congr (fun entry => and_congr_right (fun he => ?_)))
    (exists_congr (fun segment => and_congr_right (fun _ => mem_segmentRequests)))
  exact mem_entryRequests (h.below entry he) (h.alias_fits entry he)

/-- A page of memory has an address of 56 bits. -/
theorem phys_lt {entry : LimineMemmapEntry} (he : entry ∈ memmap) (hp : EntryPage entry phys) :
    phys.toNat < 2 ^ 56 := by
  have hbelow := h.below entry he
  have hsum : (entry.base + entry.length).toNat = entry.base.toNat + entry.length.toNat := by
    rw [BitVec.toNat_add]
    omega
  obtain ⟨haligned, -, hlt⟩ := hp
  rw [toNat_pageAlignUp, hsum] at hlt
  omega

theorem grantable : ∀ q ∈ initRequests B memmap I, Grantable levels q := by
  intro q hq
  rcases h.mem_initRequests.mp hq with ⟨entry, he, -, phys, hp, rfl⟩ | ⟨segment, hs, virt, hv, rfl⟩
  · exact ⟨h.alias_canonical entry he phys hp, h.phys_lt he hp,
      (by decide : SomeRight pagingProtRwg)⟩
  · refine ⟨h.image_canonical segment hs virt hv, h.image_phys segment hs virt hv, ?_⟩
    have hflags : ∀ segment ∈ pagingKernelSegmentList I, SomeRight segment.flags := by
      simp only [pagingKernelSegmentList, List.mem_cons, List.not_mem_nil, or_false,
        forall_eq_or_imp, forall_eq]
      decide
    exact hflags segment hs

/-- **The requests of `paging_init` do not contradict each other.** -/
theorem consistent (h3 : 3 ≤ levels) (h5 : levels ≤ 5) :
    Consistent levels (initRequests B memmap I) := by
  -- requests with the same indices have the same address
  have hvirt : ∀ q ∈ initRequests B memmap I, q.virt.toNat % 2 ^ 12 = 0 := by
    intro q hq
    rcases h.mem_initRequests.mp hq with
      ⟨entry, he, -, phys, hp, rfl⟩ | ⟨segment, hs, virt, hv, rfl⟩
    · exact alias_aligned B hp.1
    · exact hv.1
  intro q hq q' hq' hidx
  have hpage := page_eq_of_indices_eq h3 h5 (h.grantable q hq).canonical
    (h.grantable q' hq').canonical hidx
  have hq₀ := hvirt q hq
  have hq₀' := hvirt q' hq'
  have heq : q.virt = q'.virt := BitVec.eq_of_toNat_eq (by omega)
  rcases h.mem_initRequests.mp hq with
      ⟨entry, he, -, phys, hp, rfl⟩ | ⟨segment, hs, virt, hv, rfl⟩ <;>
    rcases h.mem_initRequests.mp hq' with
      ⟨entry', he', -, phys', hp', rfl⟩ | ⟨segment', hs', virt', hv', rfl⟩
  · obtain rfl : phys = phys' := by
      have := congrArg (virtToPhys B.hhdm) heq
      rwa [virtToPhys_physToVirt, virtToPhys_physToVirt] at this
    rfl
  · change physToVirt B.hhdm phys = virt' at heq
    exact absurd (heq ▸ hv') (h.alias_disjoint entry he phys hp segment' hs')
  · change virt = physToVirt B.hhdm phys' at heq
    exact absurd (heq ▸ hv) (h.alias_disjoint entry' he' phys' hp' segment hs)
  · change virt = virt' at heq
    subst heq
    rw [h.layout.eq_of_segmentPage hs hs' hv hv']

end Placement

/-! ## The claims about `paging_init` -/

/-- **The kernel's own address space**: memory through the direct map, and the
image segment by segment, where everything else is as it was. -/
structure KernelMapped (B : Boot) (m : Mmu) (I : KernelImage)
    (memmap : List LimineMemmapEntry) (s s' : Paging) : Prop where
  /-- All of memory can be read and written. -/
  memory : ∀ entry ∈ memmap, ∀ phys, EntryPage entry phys →
    s'.Maps m (physToVirt B.hhdm phys) phys pagingProtRw
  /-- The image is mapped with the rights of its segments. -/
  image : ∀ segment ∈ pagingKernelSegmentList I, ∀ virt, SegmentPage segment virt →
    s'.Maps m virt (B.imagePhys virt) segment.flags
  /-- No other page is affected. -/
  rest : ∀ va,
    (∀ entry ∈ memmap, ∀ phys, EntryPage entry phys →
      va.toNat / 2 ^ 12 ≠ (physToVirt B.hhdm phys).toNat / 2 ^ 12) →
    (∀ segment ∈ pagingKernelSegmentList I, ∀ virt, SegmentPage segment virt →
      va.toNat / 2 ^ 12 ≠ virt.toNat / 2 ^ 12) →
    s'.translation m va = s.translation m va

/-- An address that is not canonical is not translated. -/
theorem translation_of_not_canonical (h : ¬ Canonical s.gLevels va) :
    s.translation m va = none := if_neg h

theorem Maps.mono {flags' : BitVec 64} (h : s.Maps m virt phys flags)
    (hflags : ∀ pte, Grants pte flags → Grants pte flags') : s.Maps m virt phys flags' := by
  obtain ⟨pte, level, ht, hphys, hgrants⟩ := h
  exact ⟨pte, level, ht, hphys, hflags pte hgrants⟩

/-- The flags of the direct map ask for reading and writing. -/
theorem grants_rw_of_rwg {pte : BitVec 64} (h : Grants pte pagingProtRwg) :
    Grants pte pagingProtRw := by
  have hread : pagingProtRwg &&& pagingFlagRead ≠ 0#64 := by decide
  have hwrite : pagingProtRwg &&& pagingFlagWrite ≠ 0#64 := by decide
  exact ⟨fun _ => h.read hread, fun _ => h.write hwrite,
    fun hexec => absurd hexec (by decide), h.accessed⟩

/-- **The pages at the end of the address space are mapped anyway**: as part of another
entry, or by the boot loader. -/
def TopMapped (B : Boot) (m : Mmu) (memmap : List LimineMemmapEntry) (s : Paging) : Prop :=
  ∀ entry ∈ memmap, EndsAtTop B.hhdm entry → ∀ phys, EntryPage entry phys →
    (∃ entry' ∈ memmap, ¬ EndsAtTop B.hhdm entry' ∧ EntryPage entry' phys)
      ∨ s.Maps m (physToVirt B.hhdm phys) phys pagingProtRw

/-- **The address space is the kernel's own exactly if nothing at its end is missing.** -/
theorem kernelMapped_iff_topMapped (h : Sound B m (s.started satp))
    (hconf : (s.started satp).Conforms m)
    (hplace : Placement B (s.started satp).gLevels I memmap) (hmemmap : R.memmap = some memmap)
    (hrun : s.pagingInit B R I satp = some (true, s')) (hpool : s'.gEarlyPtPoolUsed = 0) :
    KernelMapped B m I memmap (s.started satp) s' ↔ TopMapped B m memmap (s.started satp) := by
  rcases pagingInit_eq hrun with ⟨hr, -⟩ | ⟨memmap', hmemmap', -, -, hreq⟩
  · exact absurd hr (by simp)
  obtain rfl : memmap = memmap' := Option.some.inj (hmemmap.symm.trans hmemmap')
  have heff := mapRequests_effect h hreq (Or.inl hpool)
  have hmaps := mapRequests_maps h hconf hplace.grantable
    (hplace.consistent h.three_le h.le_five) hreq (Or.inl hpool)
  -- a page that is not asked for stays as it was
  have hframe : ∀ va, (∀ q ∈ initRequests B memmap I,
      va.toNat / 2 ^ 12 ≠ q.virt.toNat / 2 ^ 12) →
        s'.translation m va = (s.started satp).translation m va := by
    intro va hva
    by_cases hcanon : Canonical (s.started satp).gLevels va
    · exact heff.frame va (fun q hq he => hva q hq (page_eq_of_indices_eq h.three_le h.le_five
        hcanon (hplace.grantable q hq).canonical he))
    · rw [translation_of_not_canonical hcanon,
        translation_of_not_canonical (heff.gLevels ▸ hcanon)]
  -- so does a page at the end of the address space that is in no other entry
  have htop : ∀ entry ∈ memmap, ∀ phys, EntryPage entry phys →
      (¬ ∃ entry' ∈ memmap, ¬ EndsAtTop B.hhdm entry' ∧ EntryPage entry' phys) →
        s'.translation m (physToVirt B.hhdm phys)
          = (s.started satp).translation m (physToVirt B.hhdm phys) := by
    intro entry he phys hp hno
    refine hframe _ (fun q hq hpage => ?_)
    have haligned := alias_aligned B hp.1
    rcases hplace.mem_initRequests.mp hq with
      ⟨entry', he', htop', phys', hp', rfl⟩ | ⟨segment, hs, virt, hv, rfl⟩
    · have haligned' := alias_aligned B hp'.1
      have heq : physToVirt B.hhdm phys = physToVirt B.hhdm phys' :=
        BitVec.eq_of_toNat_eq (by dsimp only at hpage; omega)
      have hphys := congrArg (virtToPhys B.hhdm) heq
      rw [virtToPhys_physToVirt, virtToPhys_physToVirt] at hphys
      exact hno ⟨entry', he', htop', hphys ▸ hp'⟩
    · have haligned' := hv.1
      have heq : physToVirt B.hhdm phys = virt :=
        BitVec.eq_of_toNat_eq (by dsimp only at hpage; omega)
      exact hplace.alias_disjoint entry he phys hp segment hs (heq ▸ hv)
  constructor
  · intro hkernel entry he _ phys hp
    by_cases hother : ∃ entry' ∈ memmap, ¬ EndsAtTop B.hhdm entry' ∧ EntryPage entry' phys
    · exact Or.inl hother
    · exact Or.inr ((hkernel.memory entry he phys hp).congr (htop entry he phys hp hother).symm)
  · intro hmapped
    have hasked : ∀ entry ∈ memmap, ¬ EndsAtTop B.hhdm entry → ∀ phys, EntryPage entry phys →
        s'.Maps m (physToVirt B.hhdm phys) phys pagingProtRw := fun entry he hends phys hp =>
      (hmaps _ (hplace.mem_initRequests.mpr (Or.inl ⟨entry, he, hends, phys, hp, rfl⟩))).mono
        (fun _ => grants_rw_of_rwg)
    refine ⟨fun entry he phys hp => ?_, fun segment hs virt hv => ?_, fun va h₁ h₂ => ?_⟩
    · by_cases hother : ∃ entry' ∈ memmap, ¬ EndsAtTop B.hhdm entry' ∧ EntryPage entry' phys
      · obtain ⟨entry', he', hends', hp'⟩ := hother
        exact hasked entry' he' hends' phys hp'
      by_cases hends : EndsAtTop B.hhdm entry
      · exact ((hmapped entry he hends phys hp).resolve_left hother).congr
          (htop entry he phys hp hother)
      · exact hasked entry he hends phys hp
    · exact hmaps _ (hplace.mem_initRequests.mpr (Or.inr ⟨segment, hs, virt, hv, rfl⟩))
    · refine hframe va (fun q hq => ?_)
      rcases hplace.mem_initRequests.mp hq with
        ⟨entry, he, -, phys, hp, rfl⟩ | ⟨segment, hs, virt, hv, rfl⟩
      · exact h₁ entry he phys hp
      · exact h₂ segment hs virt hv

/-- A page of an entry that is cut short is one of the entry. -/
theorem entryPage_of_cut {entry : LimineMemmapEntry} {size : BitVec 64}
    (hend : entry.base.toNat + entry.length.toNat ≤ 2 ^ 56) (hsize : size ≤ entry.length)
    (hp : EntryPage (Pfndb.cut entry size) phys) : EntryPage entry phys := by
  have hbase := Pfndb.toNat_cut_base hend hsize
  have hsum : (Pfndb.cut entry size).base + (Pfndb.cut entry size).length
      = entry.base + entry.length := by
    show entry.base + size + (entry.length - size) = _
    bv_omega
  obtain ⟨haligned, hle, hlt⟩ := hp
  rw [hsum] at hlt
  rw [toNat_pageAlignDown, hbase] at hle
  refine ⟨haligned, le_trans ?_ hle, hlt⟩
  rw [toNat_pageAlignDown]
  exact Nat.mul_le_mul_right _ (Nat.div_le_div_right (Nat.le_add_right _ _))

/-- **What is promised of the memory map** also holds of what `pfndb_init`
leaves of it. -/
theorem Placement.pfndbInit {levels : ℕ} {g₀ : PfndbGlobals} {response : Option (BitVec 64)}
    {memmap' : List LimineMemmapEntry} (h : Placement B levels I memmap)
    (hrun : (Pfndb.pfndbInit g₀ response (some memmap)).2 = some memmap') :
    Placement B levels I memmap' := by
  have key : ∀ entry ∈ memmap', ∃ e ∈ memmap, entry.base.toNat + entry.length.toNat ≤ 2 ^ 56
      ∧ ∀ phys, EntryPage entry phys → EntryPage e phys := by
    intro entry hentry
    rcases Pfndb.mem_pfndbInit hrun hentry with hmem | ⟨e, he, size, hsize, rfl⟩
    · exact ⟨entry, hmem, h.below entry hmem, fun _ => id⟩
    · have hend := h.below e he
      have hle : size.toNat ≤ e.length.toNat := hsize
      refine ⟨e, he, ?_, fun phys => entryPage_of_cut hend hsize⟩
      rw [Pfndb.toNat_cut_base hend hsize, Pfndb.toNat_cut_length hsize]
      omega
  refine ⟨h.layout, fun entry hentry => ?_, fun entry hentry phys hp => ?_,
    fun entry hentry phys hp => ?_, fun entry hentry phys hp => ?_, h.image_canonical,
    h.image_phys⟩
  all_goals obtain ⟨e, he, hbelow, hpages⟩ := key entry hentry
  · exact hbelow
  · exact h.alias_fits e he phys (hpages phys hp)
  · exact h.alias_canonical e he phys (hpages phys hp)
  · exact h.alias_disjoint e he phys (hpages phys hp)

/-! A kernel that the boot loader has mapped by one superpage, with every
right, over the two free frames of before. -/

/-- A gigabyte at the start of memory, with every right. -/
def imagePte : BitVec 64 := 0x200000cf#64

/-- The tree with this one superpage. -/
def imageTree : Paging := { emptyTree with
  mem := fun _ i => if i = 510#9 then imagePte else 0#64 }

theorem next_imageTree (a : ℕ) (i : BitVec 9) : Mmu.strict.next (imageTree.mem a i) = none := by
  show Mmu.strict.next (if i = 510#9 then imagePte else 0#64) = none
  split <;> decide

theorem tables_imageTree : imageTree.tables Mmu.strict = {2} :=
  TableTree.tables_of_empty (show 0 < 3 by decide) (next_imageTree 2)

theorem sound_imageTree : Sound sv39Boot Mmu.strict imageTree where
  three_le := show 3 ≤ 3 by decide
  le_five := show 3 ≤ 5 by decide
  root_page := by decide
  wellFormed := by
    refine ⟨TableTree.isTree_of_empty (next_imageTree 2), fun _ a _ _ i hptr => ?_⟩
    refine absurd hptr ?_
    show ¬ Pte.pointer (if i = 510#9 then imagePte else 0#64) = true
    split <;> decide
  shown := by
    rw [tables_imageTree]
    rintro a rfl
    exact shows_sv39Boot (by decide)
  managed := sound_emptyTree (m := Mmu.strict).managed
  fresh := by
    rw [tables_imageTree]
    have hfresh := sound_emptyTree (m := Mmu.strict).fresh
    rwa [tables_emptyTree] at hfresh
  free_shown f hf := shows_sv39Boot (by
    have := lt_two_of_mem_freeFrames hf
    omega)

theorem conforms_imageTree : imageTree.Conforms Mmu.strict := by
  intro q k a hlen hq i hv
  have hi : i = 510#9 := by
    by_contra hne
    have hzero : imageTree.mem a i = 0#64 := if_neg hne
    rw [hzero] at hv
    exact absurd hv (by decide)
  obtain ⟨rfl, -⟩ := (TableTree.descend_eq_some_iff_of_empty (next_imageTree imageTree.root)).mp hq
  have hk : k = 2 := by
    change 0 + (k + 1) = 3 at hlen
    omega
  subst hi hk
  show Mmu.strict.Encoded imagePte ∧ (_ → Pte.ppn imagePte % 2 ^ (9 * 2) = 0)
  exact ⟨⟨by decide, by decide, by decide⟩, fun _ => by decide⟩

/-- A page of device registers at the start of the address space. -/
def deviceMap : List LimineMemmapEntry :=
  [{ base := 0x10#64, length := 0x800#64, type := 1#64 }]

theorem segmentPage_exampleImage {segment : PagingSegment}
    (hs : segment ∈ pagingKernelSegmentList exampleImage) (hv : SegmentPage segment virt) :
    0xffffffff80000000 ≤ virt.toNat ∧ virt.toNat < 0xffffffff80004000 := by
  obtain ⟨-, hge, hlt⟩ := hv
  have hends : ∀ segment ∈ pagingKernelSegmentList exampleImage,
      0xffffffff80000000 ≤ (pageAlignDown segment.start).toNat
        ∧ (pageAlignUp segment.stop).toNat ≤ 0xffffffff80004000 := by decide
  obtain ⟨h₁, h₂⟩ := hends segment hs
  omega

theorem placement_deviceMap : Placement sv39Boot 3 exampleImage deviceMap := by
  have hpage : ∀ entry ∈ deviceMap, ∀ phys, EntryPage entry phys → phys = 0#64 := by
    intro entry he phys hp
    obtain rfl : entry = _ := List.mem_singleton.mp he
    obtain ⟨haligned, -, hlt⟩ := hp
    change phys.toNat < 0x1000 at hlt
    exact BitVec.eq_of_toNat_eq (show phys.toNat = 0 by omega)
  refine ⟨⟨by decide, by decide, by decide, by decide, by decide, by decide, by decide,
    by decide, by decide, by decide⟩, by decide, fun entry he phys hp => ?_,
    fun entry he phys hp => ?_, fun entry he phys hp segment hs hv => ?_,
    fun segment hs virt hv => ?_, fun segment hs virt hv => ?_⟩
  · rw [hpage entry he phys hp]
    decide
  · rw [hpage entry he phys hp]
    decide
  · rw [hpage entry he phys hp] at hv
    exact absurd (segmentPage_exampleImage hs hv).1 (by decide)
  · have := (segmentPage_exampleImage hs hv).1
    refine Or.inr (le_trans ?_ this)
    decide
  · obtain ⟨h₁, h₂⟩ := segmentPage_exampleImage hs hv
    show (0x80000000#64 + (virt - 0xffffffff80000000#64)).toNat < _
    rw [BitVec.toNat_add, BitVec.toNat_sub]
    change (0x80000000 + (2 ^ 64 - 0xffffffff80000000 + virt.toNat) % 2 ^ 64) % 2 ^ 64 < 2 ^ 56
    omega

/-- **Once `paging_init` succeeds, memory and the kernel are mapped**, and nothing else is
changed, exactly if the boot loader or another entry has mapped what ends with the address
space. The memory map is the one that `pfndb_init` leaves. -/
theorem kernelMapped_iff (g₀ : PfndbGlobals) (response : Option (BitVec 64))
    (memmap memmap' : List LimineMemmapEntry)
    (hpfndb : (Pfndb.pfndbInit g₀ response (some memmap)).2 = some memmap')
    (hmemmap : R.memmap = some memmap')
    (hplace : Placement B (s.started satp).gLevels I memmap)
    (h : Sound B m (s.started satp)) (hconf : (s.started satp).Conforms m)
    (hrun : s.pagingInit B R I satp = some (true, s')) (hpool : s'.gEarlyPtPoolUsed = 0) :
    KernelMapped B m I memmap' (s.started satp) s' ↔ TopMapped B m memmap' (s.started satp) :=
  kernelMapped_iff_topMapped h hconf (hplace.pfndbInit hpfndb) hmemmap hrun hpool

theorem kernelMapped_iff_imageTree :
    ∃ s', KernelMapped sv39Boot Mmu.strict exampleImage deviceMap imageTree s' := by
  have hiff := kernelMapped_iff (Pfndb.bootGlobals (fun _ => Pfndb.zeroPage)) none deviceMap
    deviceMap rfl rfl placement_deviceMap sound_imageTree conforms_imageTree
    (show imageTree.pagingInit sv39Boot ⟨true, some deviceMap, true⟩ exampleImage exampleSatp
      = some (true, _) from rfl) rfl
  refine ⟨_, hiff.mpr (fun entry he hends => absurd hends ?_)⟩
  obtain rfl : entry = _ := List.mem_singleton.mp he
  decide

/-- A page of usable memory, and one that the direct map shows at the end of the address
space. -/
def topMap : List LimineMemmapEntry :=
  [{ base := 0x2000#64, length := 0x1000#64, type := limineMemmapUsable },
    { base := 0x3ffffff000#64, length := 0x1000#64, type := 1#64 }]

/-- The page database takes the usable page. -/
def topMapLeft : List LimineMemmapEntry :=
  [{ base := 0x3000#64, length := 0#64, type := limineMemmapUsable },
    { base := 0x3ffffff000#64, length := 0x1000#64, type := 1#64 }]

theorem entryPage_topMap {entry : LimineMemmapEntry} (he : entry ∈ topMap)
    (hp : EntryPage entry phys) : phys = 0x2000#64 ∨ phys = 0x3ffffff000#64 := by
  obtain ⟨haligned, hge, hlt⟩ := hp
  rcases List.mem_cons.mp he with rfl | he
  · refine Or.inl (BitVec.eq_of_toNat_eq ?_)
    change 0x2000 ≤ phys.toNat at hge
    change phys.toNat < 0x3000 at hlt
    show phys.toNat = 0x2000
    omega
  · obtain rfl : entry = _ := List.mem_singleton.mp he
    refine Or.inr (BitVec.eq_of_toNat_eq ?_)
    change 0x3ffffff000 ≤ phys.toNat at hge
    change phys.toNat < 0x4000000000 at hlt
    show phys.toNat = 0x3ffffff000
    omega

theorem placement_topMap : Placement sv39Boot 3 exampleImage topMap := by
  refine { placement_deviceMap with
    below := by decide
    alias_fits := fun entry he phys hp => ?_
    alias_canonical := fun entry he phys hp => ?_
    alias_disjoint := fun entry he phys hp segment hs hv => ?_ }
  · rcases entryPage_topMap he hp with rfl | rfl <;> decide
  · rcases entryPage_topMap he hp with rfl | rfl <;> decide
  · have himage := segmentPage_exampleImage hs hv
    rcases entryPage_topMap he hp with rfl | rfl
    · exact absurd himage.1 (by decide)
    · exact absurd himage.2 (by decide)

/-- **`paging_init` succeeds, and a page of the memory map is not mapped.** -/
theorem not_kernelMapped_topMap :
    (Pfndb.pfndbInit (Pfndb.bootGlobals (fun _ => Pfndb.zeroPage)) (some sv39Boot.hhdm)
        (some topMap)).2 = some topMapLeft
      ∧ Placement sv39Boot 3 exampleImage topMap
      ∧ Sound sv39Boot Mmu.strict imageTree ∧ imageTree.Conforms Mmu.strict
      ∧ imageTree.pagingInit sv39Boot ⟨true, some topMapLeft, true⟩ exampleImage exampleSatp
        = some (true, imageTree)
      ∧ imageTree.gEarlyPtPoolUsed = 0
      ∧ EntryPage { base := 0x3ffffff000#64, length := 0x1000#64, type := 1#64 } 0x3ffffff000#64
      ∧ imageTree.translation Mmu.strict (physToVirt sv39Boot.hhdm 0x3ffffff000#64) = none
      ∧ ¬ KernelMapped sv39Boot Mmu.strict exampleImage topMapLeft imageTree imageTree := by
  have hpage : EntryPage { base := 0x3ffffff000#64, length := 0x1000#64, type := 1#64 }
      0x3ffffff000#64 := by
    unfold EntryPage
    decide
  have ht : imageTree.translation Mmu.strict (physToVirt sv39Boot.hhdm 0x3ffffff000#64) = none := by
    decide
  refine ⟨rfl, placement_topMap, sound_imageTree, conforms_imageTree, rfl, rfl, hpage, ht,
    fun hkernel => ?_⟩
  obtain ⟨pte, level, hmaps, -⟩ := hkernel.memory _ (by decide) _ hpage
  exact absurd (ht.symm.trans hmaps) (by simp)

/-! ## Pages that are mapped already -/

/-- Where a translation ends, the lookup does. -/
theorem lookup_of_translation (hpos : 0 < s.gLevels)
    (h : s.translation m va = some (pte, level)) :
    TableTree.lookup m.next s.mem s.root (indices va s.gLevels) = some (pte, level)
      ∧ m.leaf pte level = true := by
  unfold translation Mmu.translate at h
  split at h
  swap
  · exact absurd h (by simp)
  rw [Mmu.walk_eq_lookup, Nat.sub_add_cancel hpos] at h
  obtain ⟨⟨pte', level'⟩, hlookup, hleaf⟩ := Option.bind_eq_some_iff.mp h
  split at hleaf
  swap
  · exact absurd hleaf (by simp)
  next hl =>
  cases hleaf
  exact ⟨hlookup, hl⟩

/-- A leaf is valid and no pointer. -/
theorem valid_of_leaf (h : m.leaf pte level = true) :
    Pte.v pte = true ∧ Pte.pointer pte = false := by
  unfold Mmu.leaf at h
  simp only [Bool.and_eq_true, Bool.or_eq_true] at h
  refine ⟨h.1.1.1.1, ?_⟩
  unfold Pte.pointer
  rcases h.1.2 with hr | hx <;> simp [*]

/-- **The page is mapped already**, and well enough for the request. -/
def Covered (m : Mmu) (s : Paging) (q : MapRequest) : Prop :=
  ∃ (pte : BitVec 64) (level : ℕ), s.translation m q.virt = some (pte, level)
    ∧ pagingEntryCovers pte q.virt q.phys q.flags level = true

/-- The loop comes to the entry at which the walk of the address stops, and ends there. -/
theorem pagingMapLevel_of_lookup (h : Sound B m s) {k : ℕ}
    (hlookup : TableTree.lookup m.next s.mem s.root (indices virt s.gLevels) = some (pte, k))
    (hv : Pte.v pte = true) (hcov : pagingEntryCovers pte virt phys flags k = true)
    (hpath : OnPath m virt s level a) :
    pagingMapLevel B virt phys flags level (physToVirt B.hhdm (pfnPhys a)) s = some (true, s) := by
  induction level generalizing a with
  | zero =>
    obtain ⟨hentry, rfl⟩ := hpath.eq_of_lookup hlookup
    unfold pagingMapLevel
    dsimp only
    rw [load_of_onPath h hpath, hentry, if_pos ⟨and_pteV_ne_zero.mpr hv, hcov⟩]
  | succ level ih =>
    by_cases hptr' : Pte.pointer (s.mem a (vpn virt (level + 1))) = true
    · obtain ⟨hpath', hrun⟩ := pagingMapLevel_of_pointer phys flags h hpath hptr'
      rw [hrun]
      exact ih hpath'
    · rw [Bool.not_eq_true] at hptr'
      obtain ⟨rfl, rfl⟩ := hpath.end_of_not_pointer hlookup hptr'
      rw [pagingMapLevel_of_leaf h ⟨hpath, hv, hptr'⟩, hcov]

/-- **A page that is mapped well enough is left alone.** -/
theorem eq_of_covered (h : Sound B m s) (hcov : Covered m s q)
    (hrun : s.pagingMapPage B q.virt q.phys q.flags = some (true, s')) : s' = s := by
  obtain ⟨pte, k, ht, hc⟩ := hcov
  have hthree := h.three_le
  unfold pagingMapPage at hrun
  split at hrun
  · exact absurd hrun (by simp)
  · unfold pagingMapOne pagingRootVirt at hrun
    obtain ⟨hlookup, hleaf⟩ := lookup_of_translation (show 0 < s.gLevels by omega) ht
    rw [← h.root_page, pagingMapLevel_of_lookup h hlookup (valid_of_leaf hleaf).1 hc
      (onPath_root q.virt (by omega))] at hrun
    cases hrun
    rfl

/-- **The page is mapped by the request's own leaf**, if it is mapped. -/
def OwnLeaf (m : Mmu) (s : Paging) (q : MapRequest) : Prop :=
  ∀ pte level, s.translation m q.virt = some (pte, level) → pte = leafPte q.phys q.flags

/-- **Any other page gets a leaf of its own.** -/
theorem ownLeaf_of_not_covered (h : Sound B m s) (hflags : SomeRight q.flags)
    (hcov : ¬ Covered m s q)
    (hrun : s.pagingMapPage B q.virt q.phys q.flags = some (true, s'))
    (hpool : s'.gEarlyPtPoolUsed = s.gEarlyPtPoolUsed ∨ PoolSound B m s) : OwnLeaf m s' q := by
  have hthree := h.three_le
  rcases pagingMapPage_spec h hrun hpool with ⟨hr, -⟩ | ⟨-, t, hgrew, hfin⟩
  · exact absurd hr (by simp)
  obtain ⟨hsound, hext⟩ := extends_of_grew h hgrew
  have hpos : 0 < t.gLevels := by
    rw [hext.gLevels]
    omega
  intro pte level ht
  cases hfin with
  | @covered level' a hpath hcovers =>
    -- the leaf found is the one there was
    have hgrants := (pagingEntryCovers_eq_true_iff.mp hcovers).2.2
    have hlookup := hpath.lookup (Mmu.next_of_leaf (hgrants.leaf hflags))
    have heq := (lookup_of_translation hpos ht).1.symm.trans hlookup
    simp only [Option.some.injEq, Prod.mk.injEq] at heq
    obtain ⟨rfl, rfl⟩ := heq
    exact absurd ⟨_, _, (hext.translation _).symm.trans ht, hcovers⟩ hcov
  | @wrote a hpath =>
    have hfound := (lookup_of_translation (by exact hpos) ht).1
    have heq := hfound.symm.trans (hpath.lookup_leafPte hsound hflags)
    exact (Prod.mk.inj (Option.some.inj heq)).1

/-! ## A page in a run of requests -/

section OnePage

variable (h : Sound B m s)
  (hown : ∀ q' ∈ l, indices q'.virt s.gLevels = indices q.virt s.gLevels → q' = q)
  (hrun : mapRequests B l s = some (true, s'))
  (hpool : s'.gEarlyPtPoolUsed = s.gEarlyPtPoolUsed ∨ PoolSound B m s)
include h hown hrun hpool

/-- **A page that is mapped well enough stays as it is.** -/
theorem translation_of_covered (hcov : Covered m s q) :
    s'.translation m q.virt = s.translation m q.virt := by
  induction l generalizing s with
  | nil =>
    cases hrun
    rfl
  | cons q₀ l ih =>
    obtain ⟨t, hpage, hrest, -, hpool', heff⟩ := mapRequests_cons_true h hrun hpool
    have hsame : t.translation m q.virt = s.translation m q.virt := by
      by_cases hidx : indices q₀.virt s.gLevels = indices q.virt s.gLevels
      · obtain rfl := hown q₀ List.mem_cons_self hidx
        rw [eq_of_covered h hcov hpage]
      · exact heff.frame q.virt (fun he => hidx he.symm)
    rw [← hsame]
    refine ih heff.sound (fun q' hq' he => ?_) hrest hpool' ?_
    · exact hown q' (List.mem_cons_of_mem _ hq') (by rwa [heff.gLevels] at he)
    · obtain ⟨pte, level, ht, hc⟩ := hcov
      exact ⟨pte, level, hsame.trans ht, hc⟩

/-- A page with the request's own leaf keeps it. -/
theorem OwnLeaf.mapRequests (hflags : SomeRight q.flags) (hleaf : OwnLeaf m s q) :
    OwnLeaf m s' q := by
  induction l generalizing s with
  | nil =>
    cases hrun
    exact hleaf
  | cons q₀ l ih =>
    obtain ⟨t, hpage, hrest, hpool₁, hpool', heff⟩ := mapRequests_cons_true h hrun hpool
    refine ih heff.sound (fun q' hq' he => ?_) hrest hpool' ?_
    · exact hown q' (List.mem_cons_of_mem _ hq') (by rwa [heff.gLevels] at he)
    · by_cases hidx : indices q₀.virt s.gLevels = indices q.virt s.gLevels
      · obtain rfl := hown q₀ List.mem_cons_self hidx
        by_cases hcov : Covered m s q₀
        · rwa [eq_of_covered h hcov hpage]
        · exact ownLeaf_of_not_covered h hflags hcov hpage hpool₁
      · intro pte level ht
        rw [heff.frame q.virt (fun he => hidx he.symm)] at ht
        exact hleaf pte level ht

/-- **Any other page that is asked for gets a leaf of its own.** -/
theorem ownLeaf_of_mem (hq : q ∈ l) (hflags : SomeRight q.flags) (hcov : ¬ Covered m s q) :
    OwnLeaf m s' q := by
  induction l generalizing s with
  | nil => exact absurd hq List.not_mem_nil
  | cons q₀ l ih =>
    obtain ⟨t, hpage, hrest, hpool₁, hpool', heff⟩ := mapRequests_cons_true h hrun hpool
    have hown' : ∀ q' ∈ l, indices q'.virt t.gLevels = indices q.virt t.gLevels → q' = q :=
      fun q' hq' he => hown q' (List.mem_cons_of_mem _ hq') (by rwa [heff.gLevels] at he)
    by_cases hidx : indices q₀.virt s.gLevels = indices q.virt s.gLevels
    · obtain rfl := hown q₀ List.mem_cons_self hidx
      exact OwnLeaf.mapRequests heff.sound hown' hrest hpool' hflags
        (ownLeaf_of_not_covered h hflags hcov hpage hpool₁)
    · have hql : q ∈ l := (List.mem_cons.mp hq).resolve_left (fun he => hidx (he ▸ rfl))
      refine ih heff.sound hown' hrest hpool' hql (fun ⟨pte, level, ht, hc⟩ => hcov ?_)
      rw [heff.frame q.virt (fun he => hidx he.symm)] at ht
      exact ⟨pte, level, ht, hc⟩

end OnePage

/-! ## Protection -/

/-- **No right beyond those of the flags.** -/
def Within (pte flags : BitVec 64) : Prop :=
  (flags &&& pagingFlagWrite = 0#64 → Pte.w pte = false)
    ∧ (flags &&& pagingFlagExec = 0#64 → Pte.x pte = false)

/-- The leaf written has no right that was not asked for. -/
theorem within_leafPte : Within (leafPte phys flags) flags := by
  constructor
  · intro h
    rw [w_leafPte]
    exact (and_bit_eq_zero flags (by decide)).mp h
  · intro h
    rw [x_leafPte]
    exact (and_bit_eq_zero flags (by decide)).mp h

/-- **The protections of the segments are in force**: text cannot be written,
read-only data neither written nor executed, and data not executed. -/
def SegmentsProtected (m : Mmu) (I : KernelImage) (s : Paging) : Prop :=
  ∀ segment ∈ pagingKernelSegmentList I, ∀ virt, SegmentPage segment virt →
    ∀ pte level, s.translation m virt = some (pte, level) → Within pte segment.flags

/-- **The boot loader has left no segment page open**: a leaf that grants what
the segment asks for, at the right place, grants no more. -/
def NoWiderLeaf (B : Boot) (m : Mmu) (I : KernelImage) (s : Paging) : Prop :=
  ∀ segment ∈ pagingKernelSegmentList I, ∀ virt, SegmentPage segment virt →
    ∀ pte level, s.translation m virt = some (pte, level) →
      pagingEntryCovers pte virt (B.imagePhys virt) segment.flags level = true →
        Within pte segment.flags

/-- **The segments are protected exactly if the boot loader has left none of
their pages open**, since the covered check takes a leaf with more rights for
one that will do. -/
theorem segmentsProtected_iff (h : Sound B m (s.started satp))
    (hplace : Placement B (s.started satp).gLevels I memmap) (hmemmap : R.memmap = some memmap)
    (hrun : s.pagingInit B R I satp = some (true, s'))
    (hpool : s'.gEarlyPtPoolUsed = 0 ∨ PoolSound B m (s.started satp)) :
    SegmentsProtected m I s' ↔ NoWiderLeaf B m I (s.started satp) := by
  rcases pagingInit_eq hrun with ⟨hr, -⟩ | ⟨memmap', hmemmap', -, -, hreq⟩
  · exact absurd hr (by simp)
  obtain rfl : memmap = memmap' := Option.some.inj (hmemmap.symm.trans hmemmap')
  have hmem : ∀ segment ∈ pagingKernelSegmentList I, ∀ virt, SegmentPage segment virt →
      (⟨virt, B.imagePhys virt, segment.flags⟩ : MapRequest) ∈ initRequests B memmap I :=
    fun segment hs virt hv => hplace.mem_initRequests.mpr (Or.inr ⟨segment, hs, virt, hv, rfl⟩)
  have hown : ∀ q ∈ initRequests B memmap I, ∀ q' ∈ initRequests B memmap I,
      indices q'.virt (s.started satp).gLevels = indices q.virt (s.started satp).gLevels →
        q' = q :=
    fun q hq q' hq' he => hplace.consistent h.three_le h.le_five q' hq' q hq he
  constructor
  · intro hprot segment hs virt hv pte level ht hcov
    have hq := hmem segment hs virt hv
    have hsame := translation_of_covered h (hown _ hq) hreq hpool
      ⟨pte, level, ht, hcov⟩
    exact hprot segment hs virt hv pte level (hsame.trans ht)
  · intro hopen segment hs virt hv pte level ht
    have hq := hmem segment hs virt hv
    by_cases hcov : Covered m (s.started satp) ⟨virt, B.imagePhys virt, segment.flags⟩
    · have hsame := translation_of_covered h (hown _ hq) hreq hpool hcov
      obtain ⟨pte', level', ht', hc⟩ := hcov
      have heq := ht.symm.trans (hsame.trans ht')
      simp only [Option.some.injEq, Prod.mk.injEq] at heq
      obtain ⟨rfl, rfl⟩ := heq
      exact hopen segment hs virt hv pte level ht' hc
    · have hleaf := ownLeaf_of_mem h (hown _ hq) hreq hpool hq
        (hplace.grantable _ hq).someRight hcov
      rw [hleaf pte level ht]
      exact within_leafPte

/-- With the one superpage of before, a segment is open. -/
theorem segmentsProtected_imageTree :
    ¬ SegmentsProtected Mmu.strict exampleImage imageTree := by
  have hrun : imageTree.pagingInit sv39Boot ⟨true, some [], true⟩ exampleImage exampleSatp
      = some (true, imageTree) := rfl
  have hplace : Placement sv39Boot 3 exampleImage [] :=
    { placement_deviceMap with
      below := fun _ he => absurd he List.not_mem_nil
      alias_fits := fun _ he => absurd he List.not_mem_nil
      alias_canonical := fun _ he => absurd he List.not_mem_nil
      alias_disjoint := fun _ he => absurd he List.not_mem_nil }
  rw [segmentsProtected_iff sound_imageTree hplace rfl hrun (Or.inl rfl)]
  intro hopen
  have hwithin := hopen ⟨exampleImage.textStart, exampleImage.textEnd, pagingProtRxg⟩
    (by decide) 0xffffffff80001000#64 (by unfold SegmentPage; decide) imagePte 2 (by decide)
    (by decide)
  exact absurd (hwithin.1 (by decide)) (by decide)

/-- **`paging_init` succeeds, and the text can be written.** -/
theorem not_segmentsProtected_imageTree :
    Sound sv39Boot Mmu.strict imageTree ∧ imageTree.Conforms Mmu.strict
      ∧ imageTree.pagingInit sv39Boot ⟨true, some [], true⟩ exampleImage exampleSatp
        = some (true, imageTree)
      ∧ SegmentPage ⟨exampleImage.textStart, exampleImage.textEnd, pagingProtRxg⟩
        0xffffffff80001000#64
      ∧ imageTree.translation Mmu.strict 0xffffffff80001000#64 = some (imagePte, 2)
      ∧ Pte.w imagePte = true
      ∧ ¬ SegmentsProtected Mmu.strict exampleImage imageTree := by
  have hpage : SegmentPage ⟨exampleImage.textStart, exampleImage.textEnd, pagingProtRxg⟩
      0xffffffff80001000#64 := by
    unfold SegmentPage
    decide
  have ht : imageTree.translation Mmu.strict 0xffffffff80001000#64 = some (imagePte, 2) := by
    decide
  refine ⟨sound_imageTree, conforms_imageTree, rfl, hpage, ht, by decide, fun hprot => ?_⟩
  have hwithin := hprot _ (by decide) _ hpage imagePte 2 ht
  exact absurd (hwithin.1 (by decide)) (by decide)

end Paging
