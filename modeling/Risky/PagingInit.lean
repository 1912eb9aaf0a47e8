import Risky.PagingBounds
import Risky.PfndbInit

/-!
# Initialising the page tables

`paging_early_init` and `paging_init` take over the tree that the boot loader
has left in `satp`; the latter then maps all memory through the direct map, and
the segments of the kernel image. However its loops are nested, `paging_init`
only ever calls `paging_map_page`, on a list of requests that the memory map
and the linker have fixed beforehand, and stops at the first that is refused
(`Paging.pagingInit_eq`).
-/

/-! ## What is to be mapped -/

/-- `PAGING_PROT_RX`. -/
def pagingProtRx : BitVec 64 := pagingFlagRead ||| pagingFlagExec

/-- `PAGING_PROT_RXG`. -/
def pagingProtRxg : BitVec 64 := pagingProtRx ||| pagingFlagGlobal

/-- `PAGING_PROT_RG`. -/
def pagingProtRg : BitVec 64 := pagingFlagRead ||| pagingFlagGlobal

/-- The symbols the linker defines for the segments of the kernel. -/
structure KernelImage where
  /-- `__limine_requests_start`. -/
  limineRequestsStart : BitVec 64
  /-- `__text_start`. -/
  textStart : BitVec 64
  /-- `__text_end`. -/
  textEnd : BitVec 64
  /-- `__rodata_start`. -/
  rodataStart : BitVec 64
  /-- `__rodata_end`. -/
  rodataEnd : BitVec 64
  /-- `__data_start`. -/
  dataStart : BitVec 64
  /-- `__bss_end`. -/
  bssEnd : BitVec 64
  deriving DecidableEq, Repr

/-- `struct paging_segment`. The name, which is only logged, is left out. -/
structure PagingSegment where
  /-- The first address. -/
  start : BitVec 64
  /-- The address behind the last. -/
  stop : BitVec 64
  /-- The rights. -/
  flags : BitVec 64
  deriving DecidableEq, Repr

/-- `PAGING_KERNEL_SEGMENT_LIST`. -/
def pagingKernelSegmentList (I : KernelImage) : List PagingSegment :=
  [⟨I.limineRequestsStart, I.textStart, pagingProtRwg⟩,
    ⟨I.textStart, I.textEnd, pagingProtRxg⟩,
    ⟨I.rodataStart, I.rodataEnd, pagingProtRg⟩,
    ⟨I.dataStart, I.bssEnd, pagingProtRwg⟩]

/-- **The answers of the boot loader** that may be missing. What they say
about the direct map and the image is in `Boot`. -/
structure Responses where
  /-- `hhdm_request.response` is not null. -/
  hhdm : Bool
  /-- The entries of `memmap_request.response`. -/
  memmap : Option (List LimineMemmapEntry)
  /-- `executable_address_request.response` is not null. -/
  executableAddress : Bool

namespace Paging

/-! ## The root -/

/-- `SATP_PPN_MASK`. -/
def satpPpnMask : BitVec 64 := 1#64 <<< 44 - 1#64

/-- `paging_satp_levels`. -/
def pagingSatpLevels (satp : BitVec 64) : ℕ :=
  if satp >>> 60 = 8#64 then 3
  else if satp >>> 60 = 9#64 then 4
  else if satp >>> 60 = 10#64 then 5
  else 0

/-- `paging_setup_root`, for the value of the register `satp`. -/
def pagingSetupRoot (satp : BitVec 64) (s : Paging) : Bool × Paging :=
  let s := { s with
    gLevels := pagingSatpLevels satp
    gRootPhys := (satp &&& satpPpnMask) <<< 12 }
  (s.gLevels != 0 && s.gRootPhys != 0#64, s)

/-- `paging_early_init`. -/
def pagingEarlyInit (R : Responses) (satp : BitVec 64) (s : Paging) : Bool × Paging :=
  let s := { s with gEarlyPtPoolUsed := 0 }
  let (ok, s) := s.pagingSetupRoot satp
  if !ok then (false, s)
  else if !R.hhdm then (false, s)
  else (true, s)

/-! ## `paging_init` -/

/-- The loop of `paging_map_kernel_segment`. -/
def pagingMapKernelSegmentLoop (B : Boot) (stop flags : BitVec 64) :
    ℕ → BitVec 64 → Paging → Option (Bool × Paging)
  | 0, _, _ => none
  | fuel + 1, virt, s =>
    if virt < stop then
      let phys := B.physicalBase + (virt - B.virtualBase)
      match s.pagingMapPage B virt phys flags with
      | none => none
      | some (false, s) => some (false, s)
      | some (true, s) => pagingMapKernelSegmentLoop B stop flags fuel (virt + pageSize) s
    else some (true, s)

/-- `paging_map_kernel_segment`. The loop takes a turn for each page, and one
to leave. -/
def pagingMapKernelSegment (B : Boot) (R : Responses) (virtStart virtEnd flags : BitVec 64)
    (s : Paging) : Option (Bool × Paging) :=
  let start := pageAlignDown virtStart
  let stop := pageAlignUp virtEnd
  if ¬ start < stop ∨ R.executableAddress = false then some (true, s)
  else pagingMapKernelSegmentLoop B stop flags (physPfn (stop - start) + 1) start s

/-- The loop of `paging_map_hhdm`. -/
def pagingMapHhdmLoop (B : Boot) : List LimineMemmapEntry → Paging → Option (Bool × Paging)
  | [], s => some (true, s)
  | entry :: entries, s =>
    let physStart := pageAlignDown entry.base
    let physEnd := pageAlignUp (entry.base + entry.length)
    if physStart = physEnd then pagingMapHhdmLoop B entries s
    else
      match s.pagingMapRange B (physToVirt B.hhdm physStart) physStart (physEnd - physStart)
        pagingProtRwg with
      | none => none
      | some (false, s) => some (false, s)
      | some (true, s) => pagingMapHhdmLoop B entries s

/-- `paging_map_hhdm`. -/
def pagingMapHhdm (B : Boot) (R : Responses) (s : Paging) : Option (Bool × Paging) :=
  match R.memmap with
  | none => some (false, s)
  | some memmap => if !R.hhdm then some (false, s) else pagingMapHhdmLoop B memmap s

/-- The loop of `paging_map_kernel_segments`. -/
def pagingMapKernelSegmentsLoop (B : Boot) (R : Responses) :
    List PagingSegment → Paging → Option (Bool × Paging)
  | [], s => some (true, s)
  | segment :: segments, s =>
    match pagingMapKernelSegment B R segment.start segment.stop segment.flags s with
    | none => none
    | some (false, s) => some (false, s)
    | some (true, s) => pagingMapKernelSegmentsLoop B R segments s

/-- `paging_map_kernel_segments`. -/
def pagingMapKernelSegments (B : Boot) (R : Responses) (I : KernelImage) (s : Paging) :
    Option (Bool × Paging) :=
  pagingMapKernelSegmentsLoop B R (pagingKernelSegmentList I) s

/-- `paging_init`. -/
def pagingInit (B : Boot) (R : Responses) (I : KernelImage) (satp : BitVec 64) (s : Paging) :
    Option (Bool × Paging) :=
  let s := { s with gEarlyPtPoolUsed := 0 }
  let (ok, s) := s.pagingSetupRoot satp
  if !ok || !R.hhdm || R.memmap.isNone || !R.executableAddress then some (false, s)
  else
    match s.pagingMapHhdm B R with
    | none => none
    | some (false, s) => some (false, s)
    | some (true, s) =>
      match s.pagingMapKernelSegments B R I with
      | none => none
      | some (false, s) => some (false, s)
      | some (true, s) => some (true, s)

/-! ## Requests -/

/-- **The arguments of one call** of `paging_map_page`. -/
structure MapRequest where
  /-- The page to map. -/
  virt : BitVec 64
  /-- The page to map it to. -/
  phys : BitVec 64
  /-- The rights. -/
  flags : BitVec 64
  deriving DecidableEq, Repr

/-- **One call after the other**, up to the first that is refused. -/
def mapRequests (B : Boot) : List MapRequest → Paging → Option (Bool × Paging)
  | [], s => some (true, s)
  | q :: l, s =>
    match s.pagingMapPage B q.virt q.phys q.flags with
    | none => none
    | some (false, s) => some (false, s)
    | some (true, s) => mapRequests B l s

variable {B : Boot} {R : Responses} {I : KernelImage} {satp : BitVec 64} {s s' : Paging}
  {r : Bool} {l l' : List MapRequest} {q : MapRequest}

/-- After a run of requests, go on with another if none was refused. -/
def andThen (o : Option (Bool × Paging)) (f : Paging → Option (Bool × Paging)) :
    Option (Bool × Paging) :=
  match o with
  | none => none
  | some (false, s) => some (false, s)
  | some (true, s) => f s

theorem mapRequests_cons :
    mapRequests B (q :: l) s
      = andThen (s.pagingMapPage B q.virt q.phys q.flags) (mapRequests B l) := rfl

theorem mapRequests_append :
    mapRequests B (l ++ l') s = andThen (mapRequests B l s) (mapRequests B l') := by
  induction l generalizing s with
  | nil => rfl
  | cons q l ih =>
    rw [List.cons_append, mapRequests_cons, mapRequests_cons]
    rcases s.pagingMapPage B q.virt q.phys q.flags with _ | ⟨_ | _, s₁⟩
    · rfl
    · rfl
    · exact ih

/-- The requests for `n` pages in a row. -/
def pageRequests (virt phys flags : BitVec 64) (n : ℕ) : List MapRequest :=
  (List.range n).map (fun i => ⟨pageAt virt i, pageAt phys i, flags⟩)

theorem mem_pageRequests {virt phys flags : BitVec 64} {n : ℕ} :
    q ∈ pageRequests virt phys flags n
      ↔ ∃ i < n, q = ⟨pageAt virt i, pageAt phys i, flags⟩ := by
  unfold pageRequests
  rw [List.mem_map]
  refine exists_congr (fun i => ?_)
  rw [List.mem_range, eq_comm (a := q)]

theorem pageRequests_succ (virt phys flags : BitVec 64) (n : ℕ) :
    pageRequests virt phys flags (n + 1)
      = ⟨virt, phys, flags⟩ :: pageRequests (virt + pageSize) (phys + pageSize) flags n := by
  unfold pageRequests
  rw [List.range_succ_eq_map, List.map_cons, List.map_map]
  simp only [pageAt_zero]
  refine congrArg (_ :: ·) (List.map_congr_left (fun i _ => ?_))
  rw [pageAt_succ, pageAt_succ]
  rfl

/-- **The loop of `paging_map_range` is a run of requests.** -/
theorem pagingMapRangeLoop_eq {virt phys flags last : BitVec 64} {n fuel : ℕ}
    (hlast : virt.toNat + n * 2 ^ 12 = last.toNat) (hfuel : n < fuel) :
    pagingMapRangeLoop B last flags fuel virt phys s
      = mapRequests B (pageRequests virt phys flags n) s := by
  have hlt := last.isLt
  induction n generalizing fuel virt phys s with
  | zero =>
    obtain ⟨fuel, rfl⟩ : ∃ k, fuel = k + 1 := ⟨fuel - 1, by omega⟩
    unfold pagingMapRangeLoop
    rw [if_neg (by rw [BitVec.lt_def]; omega)]
    rfl
  | succ n ih =>
    obtain ⟨fuel, rfl⟩ : ∃ k, fuel = k + 1 := ⟨fuel - 1, by omega⟩
    have hvirt : (virt + pageSize).toNat = virt.toNat + 2 ^ 12 := by
      rw [BitVec.toNat_add]
      show (_ + 4096) % _ = _
      omega
    unfold pagingMapRangeLoop
    rw [if_pos (by rw [BitVec.lt_def]; omega), pageRequests_succ, mapRequests_cons]
    rcases s.pagingMapPage B virt phys flags with _ | ⟨_ | _, s₁⟩
    · rfl
    · rfl
    · exact ih (by omega) (by omega)

/-- The requests of `paging_map_range`: none, where the range reaches the end
of the address space. -/
def rangeRequests (virt phys size flags : BitVec 64) : List MapRequest :=
  if virt.toNat + sizePages size * 2 ^ 12 < 2 ^ 64 then
    pageRequests virt phys flags (sizePages size)
  else []

theorem pagingMapRange_eq (virt phys size flags : BitVec 64) :
    s.pagingMapRange B virt phys size flags
      = mapRequests B (rangeRequests virt phys size flags) s := by
  unfold pagingMapRange rangeRequests
  by_cases hsize : size = 0#64
  · subst hsize
    rw [if_pos rfl]
    have hzero : sizePages 0#64 = 0 := by decide
    rw [hzero]
    split <;> rfl
  rw [if_neg hsize]
  by_cases hfits : virt.toNat + sizePages size * 2 ^ 12 < 2 ^ 64
  · obtain ⟨hlast, hpages⟩ := toNat_last hfits
    rw [if_pos hfits, hpages]
    exact pagingMapRangeLoop_eq hlast.symm (Nat.lt_succ_self _)
  · unfold pagingMapRangeLoop
    rw [if_neg hfits, if_neg (not_lt_last (not_lt.mp hfits))]
    rfl

/-- The requests of `paging_map_mmio`, where it makes any. -/
def mmioRequests (B : Boot) (phys size : BitVec 64) : List MapRequest :=
  rangeRequests (physToVirt B.hhdm (pageAlignDown phys)) (pageAlignDown phys)
    (pageAlignUp (phys + size) - pageAlignDown phys) pagingProtRwg

theorem pagingMapMmio_eq {phys size : BitVec 64} (hsize : size ≠ 0#64) :
    s.pagingMapMmio B phys size = mapRequests B (mmioRequests B phys size) s := by
  unfold pagingMapMmio
  dsimp only
  rw [if_neg hsize, pagingMapRange_eq]
  rfl

/-! ## The requests of `paging_init` -/

/-- The requests for an entry of the memory map. -/
def entryRequests (B : Boot) (entry : LimineMemmapEntry) : List MapRequest :=
  rangeRequests (physToVirt B.hhdm (pageAlignDown entry.base)) (pageAlignDown entry.base)
    (pageAlignUp (entry.base + entry.length) - pageAlignDown entry.base) pagingProtRwg

theorem pagingMapHhdmLoop_eq (entries : List LimineMemmapEntry) :
    pagingMapHhdmLoop B entries s = mapRequests B (entries.flatMap (entryRequests B)) s := by
  induction entries generalizing s with
  | nil => rfl
  | cons entry entries ih =>
    rw [List.flatMap_cons, mapRequests_append]
    unfold pagingMapHhdmLoop
    dsimp only
    split
    · next hempty =>
      -- an entry that is skipped has no requests
      have hnone : mapRequests B (entryRequests B entry) s = some (true, s) := by
        unfold entryRequests
        rw [← pagingMapRange_eq, hempty, BitVec.sub_self]
        exact if_pos rfl
      rw [hnone, ih]
      rfl
    · rw [pagingMapRange_eq]
      show _ = andThen (mapRequests B (rangeRequests _ _ _ _) s) _
      rcases mapRequests B (rangeRequests _ _ _ _) s with _ | ⟨_ | _, s₁⟩
      · rfl
      · rfl
      · exact ih

/-- The pages of a segment. -/
def segmentPages (segment : PagingSegment) : ℕ :=
  if pageAlignDown segment.start < pageAlignUp segment.stop then
    physPfn (pageAlignUp segment.stop - pageAlignDown segment.start)
  else 0

/-- The requests for a segment of the kernel. -/
def segmentRequests (B : Boot) (segment : PagingSegment) : List MapRequest :=
  pageRequests (pageAlignDown segment.start) (B.imagePhys (pageAlignDown segment.start))
    segment.flags (segmentPages segment)

theorem imagePhys_add (B : Boot) (virt : BitVec 64) :
    B.imagePhys (virt + pageSize) = B.imagePhys virt + pageSize := by
  unfold Boot.imagePhys
  bv_omega

/-- The loop of a segment is that of a range. -/
theorem pagingMapKernelSegmentLoop_eq (stop flags : BitVec 64) (fuel : ℕ) (virt : BitVec 64) :
    pagingMapKernelSegmentLoop B stop flags fuel virt s
      = pagingMapRangeLoop B stop flags fuel virt (B.imagePhys virt) s := by
  induction fuel generalizing virt s with
  | zero => rfl
  | succ fuel ih =>
    unfold pagingMapKernelSegmentLoop pagingMapRangeLoop
    show (if virt < stop then _ else _) = if virt < stop then _ else _
    split
    · show (match s.pagingMapPage B virt (B.imagePhys virt) flags with
        | none => none
        | some (false, s) => some (false, s)
        | some (true, s) => pagingMapKernelSegmentLoop B stop flags fuel (virt + pageSize) s) = _
      rcases s.pagingMapPage B virt (B.imagePhys virt) flags with _ | ⟨_ | _, s₁⟩
      · rfl
      · rfl
      · rw [← imagePhys_add]
        exact ih _
    · rfl

theorem segmentPages_spec {segment : PagingSegment}
    (h : pageAlignDown segment.start < pageAlignUp segment.stop) :
    (pageAlignDown segment.start).toNat + segmentPages segment * 2 ^ 12
      = (pageAlignUp segment.stop).toNat := by
  have hstart := toNat_pageAlignDown segment.start
  have hstop := toNat_pageAlignUp segment.stop
  have hlt : (pageAlignDown segment.start).toNat < (pageAlignUp segment.stop).toNat := h
  have hle := (pageAlignUp segment.stop).isLt
  have hsub : (pageAlignUp segment.stop - pageAlignDown segment.start).toNat
      = (pageAlignUp segment.stop).toNat - (pageAlignDown segment.start).toNat :=
    BitVec.toNat_sub_of_le (BitVec.le_of_lt h)
  unfold segmentPages
  rw [if_pos h, physPfn_eq, hsub]
  omega

theorem pagingMapKernelSegment_eq (hexec : R.executableAddress = true)
    (segment : PagingSegment) :
    pagingMapKernelSegment B R segment.start segment.stop segment.flags s
      = mapRequests B (segmentRequests B segment) s := by
  unfold pagingMapKernelSegment segmentRequests
  dsimp only
  by_cases hlt : pageAlignDown segment.start < pageAlignUp segment.stop
  · rw [if_neg (by rw [hexec]; simp [hlt]), pagingMapKernelSegmentLoop_eq]
    refine pagingMapRangeLoop_eq (segmentPages_spec hlt) ?_
    unfold segmentPages
    rw [if_pos hlt]
    exact Nat.lt_succ_self _
  · have hnone : segmentPages segment = 0 := if_neg hlt
    rw [if_pos (Or.inl hlt), hnone]
    rfl

theorem pagingMapKernelSegmentsLoop_eq (hexec : R.executableAddress = true)
    (segments : List PagingSegment) :
    pagingMapKernelSegmentsLoop B R segments s
      = mapRequests B (segments.flatMap (segmentRequests B)) s := by
  induction segments generalizing s with
  | nil => rfl
  | cons segment segments ih =>
    rw [List.flatMap_cons, mapRequests_append, ← pagingMapKernelSegment_eq hexec]
    unfold pagingMapKernelSegmentsLoop
    rcases pagingMapKernelSegment B R segment.start segment.stop segment.flags s with
      _ | ⟨_ | _, s₁⟩
    · rfl
    · rfl
    · exact ih

/-- **The requests of `paging_init`**: the direct map first, then the
segments. -/
def initRequests (B : Boot) (memmap : List LimineMemmapEntry) (I : KernelImage) :
    List MapRequest :=
  memmap.flatMap (entryRequests B) ++ (pagingKernelSegmentList I).flatMap (segmentRequests B)

/-- The state in which `paging_init` starts to map. -/
def started (satp : BitVec 64) (s : Paging) : Paging :=
  (({ s with gEarlyPtPoolUsed := 0 } : Paging).pagingSetupRoot satp).2

/-- **`paging_init` refuses, or makes its requests.** -/
theorem pagingInit_eq (hrun : s.pagingInit B R I satp = some (r, s')) :
    (r = false ∧ s' = s.started satp ∧ ((s.started satp).gLevels = 0
        ∨ (s.started satp).gRootPhys = 0#64 ∨ R.hhdm = false ∨ R.memmap = none
        ∨ R.executableAddress = false))
      ∨ ∃ memmap, R.memmap = some memmap ∧ R.hhdm = true ∧ R.executableAddress = true
        ∧ mapRequests B (initRequests B memmap I) (s.started satp) = some (r, s') := by
  unfold pagingInit at hrun
  dsimp only at hrun
  split at hrun
  · next hbad =>
    cases hrun
    refine Or.inl ⟨rfl, rfl, ?_⟩
    -- the root is set up before the boot loader's responses are looked at
    simp only [pagingSetupRoot, Bool.or_eq_true, Bool.not_eq_true', Bool.and_eq_false_iff,
      bne_eq_false_iff_eq, Option.isNone_iff_eq_none] at hbad
    rcases hbad with ((hok | hhhdm) | hmemmap) | hexec
    · exact hok.elim Or.inl (fun hroot => Or.inr (Or.inl hroot))
    · exact Or.inr (Or.inr (Or.inl hhhdm))
    · exact Or.inr (Or.inr (Or.inr (Or.inl hmemmap)))
    · exact Or.inr (Or.inr (Or.inr (Or.inr hexec)))
  next hgood =>
  simp only [Bool.or_eq_true, Bool.not_eq_true', not_or, Bool.not_eq_false] at hgood
  obtain ⟨⟨⟨-, hhhdm⟩, hmemmap⟩, hexec⟩ := hgood
  obtain ⟨memmap, hmemmap'⟩ : ∃ memmap, R.memmap = some memmap := by
    cases h : R.memmap with
    | none =>
      rw [h] at hmemmap
      exact absurd hmemmap (by simp)
    | some memmap => exact ⟨memmap, rfl⟩
  refine Or.inr ⟨memmap, hmemmap', hhhdm, hexec, ?_⟩
  have hhhdm' : ∀ t : Paging, t.pagingMapHhdm B R
      = mapRequests B (memmap.flatMap (entryRequests B)) t := by
    intro t
    unfold pagingMapHhdm
    rw [hmemmap', hhhdm]
    exact pagingMapHhdmLoop_eq memmap
  have hsegments : ∀ t : Paging, t.pagingMapKernelSegments B R I
      = mapRequests B ((pagingKernelSegmentList I).flatMap (segmentRequests B)) t :=
    fun t => pagingMapKernelSegmentsLoop_eq hexec _
  unfold initRequests
  rw [mapRequests_append, ← hhhdm', ← hrun]
  show andThen ((s.started satp).pagingMapHhdm B R) _ = _
  unfold started
  rcases pagingMapHhdm B R _ with _ | ⟨_ | _, t⟩
  · rfl
  · rfl
  · show mapRequests B _ t = _
    rw [← hsegments]
    dsimp only
    rcases pagingMapKernelSegments B R I t with _ | ⟨_ | _, t'⟩ <;> rfl

/-! A kernel in the top two gigabytes, with three levels of tables. -/

/-- The direct map of three levels. -/
def sv39Boot : Boot where
  hhdm := 0xffffffc000000000#64
  physicalBase := 0x80000000#64
  virtualBase := 0xffffffff80000000#64
  gEarlyPtPool := 0xffffffff80010000#64
  hhdm_aligned := by decide
  image_aligned := exampleBoot.image_aligned
  pool_aligned := exampleBoot.pool_aligned
  pool_fits := exampleBoot.pool_fits
  pool_ne := exampleBoot.pool_ne

/-- A page for each segment. -/
def exampleImage : KernelImage where
  limineRequestsStart := 0xffffffff80000000#64
  textStart := 0xffffffff80001000#64
  textEnd := 0xffffffff80001800#64
  rodataStart := 0xffffffff80002000#64
  rodataEnd := 0xffffffff80002100#64
  dataStart := 0xffffffff80003000#64
  bssEnd := 0xffffffff80003200#64

/-- The register that names frame 2 as the root. -/
def exampleSatp : BitVec 64 := 0x8000000000000002#64

theorem shows_sv39Boot {f : ℕ} (hf : f < 3) : sv39Boot.Shows f := by
  unfold Boot.Shows
  interval_cases f <;> decide

end Paging
