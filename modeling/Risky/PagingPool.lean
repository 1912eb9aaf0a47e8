import Risky.PagingMap

/-!
# Tables from the static pool

When the memory manager has no frame, `paging_alloc_table` takes a table from
`g_early_pt_pool`, which is a part of the kernel image, and `paging_map_one`
links it at the address that `VIRT_TO_PHYS` gives it. That conversion undoes the
direct map, and the pool is not in the direct map. The code finds its own way
back, as `PHYS_TO_VIRT` undoes the conversion again. The hardware goes to the
page itself.

So the pool can be used exactly if the image is mapped like the direct map
(`Paging.poolSafe_iff`). Otherwise a call on an empty tree reports a page as
mapped and the hardware faults on it
(`Paging.translation_eq_none_of_not_converts`).
-/

namespace Paging

variable {B : Boot} {m : Mmu} {virt phys flags va : BitVec 64} {s s' : Paging} {R i : ℕ}

/-- The memory manager has no frame to give. -/
def NoFrame (s : Paging) : Prop :=
  s.pmm.gPmmReady = true → s.pmm.pageAlloc 0 = some (none, s.pmm)

/-- **Whenever a page is reported as mapped, it is**, although all new tables
come from the pool. -/
def PoolSafe (B : Boot) : Prop :=
  ∀ (m : Mmu) (s s' : Paging) (virt phys flags : BitVec 64), Sound B m s → s.Conforms m →
    s.NoFrame → PoolFree B m s → Canonical s.gLevels virt → phys.toNat < 2 ^ 56 →
    SomeRight flags → s.pagingMapPage B virt phys flags = some (true, s') →
      s'.Maps m virt phys flags

/-- The entry that the code links a table of the pool with. -/
def poolPte (B : Boot) (i : ℕ) : BitVec 64 := pagingTablePte (virtToPhys B.hhdm (B.poolTable i))

/-! ## The direct-map conversion of the pool -/

/-- **The conversion is right for all of the pool or for none of it.** -/
theorem virtToPhys_eq_imagePhys_iff (B : Boot) (virt : BitVec 64) :
    virtToPhys B.hhdm virt = B.imagePhys virt ↔ B.hhdm = B.virtualBase - B.physicalBase := by
  unfold virtToPhys Boot.imagePhys
  constructor <;> intro h <;> bv_omega

theorem physToVirt_poolPte (hi : i < earlyPtPoolSize) :
    physToVirt B.hhdm (pagingPteToPhys (poolPte B i)) = B.poolTable i := by
  rw [poolPte, pagingPteToPhys_pagingTablePte (virtToPhys_poolTable_aligned hi),
    physToVirt_virtToPhys]

theorem rwx_poolPte (B : Boot) (i : ℕ) : poolPte B i &&& (pteR ||| pteW ||| pteX) = 0#64 := by
  obtain ⟨-, hr, hw, hx⟩ := Pte.pointer_eq_true_iff.mp
    (pointer_pagingTablePte (virtToPhys B.hhdm (B.poolTable i)))
  exact and_rwx_eq_zero.mpr ⟨hr, hw, hx⟩

/-! ## Calls that take from the pool -/

/-- The state after the `k`-th table of the pool has been linked at an
entry. -/
def linkPool (B : Boot) (s : Paging) (k a : ℕ) (i : BitVec 9) : Paging :=
  { s with
    mem := TableTree.write (TableTree.fill s.mem (B.poolPage k) 0#64) a i (poolPte B k)
    gEarlyPtPoolUsed := k + 1 }

theorem mem_linkPool (B : Boot) (s : Paging) (k a : ℕ) (i : BitVec 9) :
    (s.linkPool B k a i).mem
      = TableTree.write (TableTree.fill s.mem (B.poolPage k) 0#64) a i (poolPte B k) :=
  rfl

/-- **A turn of the loop at an absent entry** links a table of the pool and
goes on from it, before the memory manager is ready. -/
theorem pagingMapLevel_of_absent {k level : ℕ} {table : BitVec 64}
    (hready : s.pmm.gPmmReady = false) (hk : s.gEarlyPtPoolUsed = k) (hused : k < earlyPtPoolSize)
    (habsent : s.mem (B.tablePage table) (vpn virt (level + 1)) = 0#64) :
    pagingMapLevel B virt phys flags (level + 1) table s
      = pagingMapLevel B virt phys flags level (B.poolTable k)
          (s.linkPool B k (B.tablePage table) (vpn virt (level + 1))) := by
  subst hk
  have halloc : s.pagingAllocTable B = some (B.poolTable s.gEarlyPtPoolUsed,
      memsetTable B { s with gEarlyPtPoolUsed := s.gEarlyPtPoolUsed + 1 }
        (B.poolTable s.gEarlyPtPoolUsed)) := by
    unfold pagingAllocTable
    rw [hready, if_neg Bool.false_ne_true]
    dsimp only
    rw [if_neg (not_le.mpr hused)]
  have hfetch : s.pagingFetch B table (pagingLevelIndex virt (level + 1))
      = some (some (poolPte B s.gEarlyPtPoolUsed),
          s.linkPool B s.gEarlyPtPoolUsed (B.tablePage table) (vpn virt (level + 1))) := by
    unfold pagingFetch load store
    dsimp only
    rw [setWidth_pagingLevelIndex, habsent, if_pos (by decide), halloc]
    dsimp only
    rw [if_neg (poolTable_ne_zero hused)]
    exact congrArg (fun e => some (some e, _)) TableTree.write_same
  rw [pagingMapLevel, hfetch]
  dsimp only
  rw [if_neg (not_not.mpr (rwx_poolPte B _)), physToVirt_poolPte hused]

/-- At the last level the leaf is written. -/
theorem pagingMapLevel_zero_of_absent {table : BitVec 64}
    (habsent : s.mem (B.tablePage table) (vpn virt 0) = 0#64) :
    pagingMapLevel B virt phys flags 0 table s = some (true, { s with
      mem := TableTree.write s.mem (B.tablePage table) (vpn virt 0) (leafPte phys flags) }) := by
  unfold pagingMapLevel load store
  dsimp only
  rw [setWidth_pagingLevelIndex, habsent, if_neg (fun h => absurd h.1 (by decide))]
  rfl

/-- The empty tree on a page, before the memory manager is ready. -/
def poolTree (R : ℕ) : Paging where
  pmm := Pmm.twoFrames
  mem := fun _ _ => 0#64
  gRootPhys := pfnPhys R
  gLevels := 3
  gEarlyPtPoolUsed := 0

/-- An address with three different indices. -/
def poolVirt : BitVec 64 := 0x40403000#64

/-- The memory after that address has been mapped: the entries of the root, of
the first table of the pool and of the second. -/
def poolMem (B : Boot) (R : ℕ) : ℕ → BitVec 9 → BitVec 64 :=
  TableTree.write (((poolTree R).linkPool B 0 R (vpn poolVirt 2)).linkPool B 1 (B.poolPage 0)
    (vpn poolVirt 1)).mem (B.poolPage 1) (vpn poolVirt 0) (leafPte 0#64 pagingProtRw)

theorem pagingMapPage_poolTree (hroot : pfnPhys R ≠ 0#64)
    (hshown : B.tablePage (physToVirt B.hhdm (pfnPhys R)) = R)
    (hpool : ∀ i < earlyPtPoolSize, B.poolPage i ≠ R) :
    (poolTree R).pagingMapPage B poolVirt 0#64 pagingProtRw
      = some (true, { poolTree R with mem := poolMem B R, gEarlyPtPoolUsed := 2 }) := by
  have hne : B.poolPage 1 ≠ B.poolPage 0 :=
    fun h => absurd (poolPage_injective (by decide) (by decide) h) (by decide)
  have hgood : ¬ (poolVirt &&& (pageSize - 1#64) ≠ 0#64
      ∨ (0#64 : BitVec 64) &&& (pageSize - 1#64) ≠ 0#64 ∨ (poolTree R).gRootPhys = 0#64) :=
    not_or.mpr ⟨by decide, not_or.mpr ⟨by decide, hroot⟩⟩
  unfold pagingMapPage
  rw [if_neg hgood]
  show pagingMapLevel B poolVirt 0#64 pagingProtRw 2 (physToVirt B.hhdm (pfnPhys R)) _ = _
  rw [pagingMapLevel_of_absent (k := 0) rfl rfl (by decide) rfl, hshown]
  show pagingMapLevel B poolVirt 0#64 pagingProtRw 1 (B.poolTable 0) _ = _
  have habsent₁ : ((poolTree R).linkPool B 0 R (vpn poolVirt 2)).mem (B.poolPage 0)
      (vpn poolVirt 1) = 0#64 := by
    rw [mem_linkPool, TableTree.write_of_ne (Or.inl (hpool 0 (by decide))), TableTree.fill_same]
  rw [pagingMapLevel_of_absent (k := 1) rfl rfl (by decide) habsent₁]
  show pagingMapLevel B poolVirt 0#64 pagingProtRw 0 (B.poolTable 1)
    (((poolTree R).linkPool B 0 R (vpn poolVirt 2)).linkPool B 1 (B.poolPage 0) (vpn poolVirt 1)) = _
  have habsent₀ : (((poolTree R).linkPool B 0 R (vpn poolVirt 2)).linkPool B 1 (B.poolPage 0)
      (vpn poolVirt 1)).mem (B.poolPage 1) (vpn poolVirt 0) = 0#64 := by
    rw [mem_linkPool, TableTree.write_of_ne (Or.inl hne), TableTree.fill_same]
  exact pagingMapLevel_zero_of_absent habsent₀

theorem poolMem_root (hpool : ∀ i < earlyPtPoolSize, B.poolPage i ≠ R) :
    poolMem B R R (vpn poolVirt 2) = poolPte B 0 := by
  have h₀ := (hpool 0 (by decide)).symm
  have h₁ := (hpool 1 (by decide)).symm
  calc poolMem B R R (vpn poolVirt 2)
      = (((poolTree R).linkPool B 0 R (vpn poolVirt 2)).linkPool B 1 (B.poolPage 0)
          (vpn poolVirt 1)).mem R (vpn poolVirt 2) := TableTree.write_of_ne (Or.inl h₁)
    _ = TableTree.fill ((poolTree R).linkPool B 0 R (vpn poolVirt 2)).mem (B.poolPage 1) 0#64 R
          (vpn poolVirt 2) := TableTree.write_of_ne (Or.inl h₀)
    _ = ((poolTree R).linkPool B 0 R (vpn poolVirt 2)).mem R (vpn poolVirt 2) := by
        rw [TableTree.fill_of_ne h₁]
    _ = poolPte B 0 := TableTree.write_same

/-- Only in the first table of the pool is there an entry for the address at
its level. -/
theorem poolMem_of_ne {a : ℕ} (h : a ≠ B.poolPage 0) : poolMem B R a (vpn poolVirt 1) = 0#64 := by
  have hinner : ((poolTree R).linkPool B 0 R (vpn poolVirt 2)).mem a (vpn poolVirt 1) = 0#64 := by
    refine (TableTree.write_of_ne (Or.inr (by decide))).trans ?_
    show TableTree.fill (poolTree R).mem (B.poolPage 0) 0#64 a _ = _
    rw [TableTree.fill_of_ne h]
    rfl
  calc poolMem B R a (vpn poolVirt 1)
      = (((poolTree R).linkPool B 0 R (vpn poolVirt 2)).linkPool B 1 (B.poolPage 0)
          (vpn poolVirt 1)).mem a (vpn poolVirt 1) := TableTree.write_of_ne (Or.inr (by decide))
    _ = TableTree.fill ((poolTree R).linkPool B 0 R (vpn poolVirt 2)).mem (B.poolPage 1) 0#64 a
          (vpn poolVirt 1) := TableTree.write_of_ne (Or.inl h)
    _ = 0#64 := by
        by_cases h₁ : a = B.poolPage 1
        · rw [h₁]
          exact TableTree.fill_same
        · rw [TableTree.fill_of_ne h₁]
          exact hinner

/-- A pointer with a set bit above the page number is a fault. -/
theorem next_strict_of_high {e : BitVec 64} (h : Pte.high e ≠ 0#10) :
    Mmu.strict.next e = none := by
  have hres : Mmu.strict.reserved e = true := by
    show (Pte.high e != 0#10 || _) = true
    rw [bne_iff_ne.mpr h, Bool.true_or]
  unfold Mmu.next
  rw [hres, Bool.not_true, Bool.and_false]
  rfl

/-- **The hardware does not get there** when the conversion is wrong. -/
theorem translation_eq_none_of_not_converts
    (hconv : B.hhdm ≠ B.virtualBase - B.physicalBase)
    (hpool : ∀ i < earlyPtPoolSize, B.poolPage i ≠ R)
    (hR : physPfn (pfnPhys R) = R) :
    translation Mmu.strict { poolTree R with mem := poolMem B R, gEarlyPtPoolUsed := 2 } poolVirt
      = none := by
  have hptr := pointer_pagingTablePte (virtToPhys B.hhdm (B.poolTable 0))
  show Mmu.translate Mmu.strict (poolMem B R) 3 (physPfn (pfnPhys R)) poolVirt = none
  rw [hR, Mmu.translate, if_pos (by decide)]
  show Mmu.walk Mmu.strict (poolMem B R) poolVirt 2 R = none
  by_cases hlt : (virtToPhys B.hhdm (B.poolTable 0)).toNat < 2 ^ 56
  · -- it goes to another page, where there is no entry
    have hne : physPfn (virtToPhys B.hhdm (B.poolTable 0)) ≠ B.poolPage 0 := by
      intro he
      have ha := virtToPhys_poolTable_aligned (B := B) (i := 0) (by decide)
      have hb := imagePhys_poolTable_aligned (B := B) (i := 0) (by decide)
      rw [poolPage_eq (by decide), physPfn_eq, physPfn_eq] at he
      exact hconv ((virtToPhys_eq_imagePhys_iff B (B.poolTable 0)).mp
        (BitVec.eq_of_toNat_eq (by omega)))
    have hnext : Mmu.strict.next (poolMem B R R (vpn poolVirt 2))
        = some (physPfn (virtToPhys B.hhdm (B.poolTable 0))) := by
      rw [poolMem_root hpool]
      exact next_pagingTablePte Mmu.strict hlt
    rw [Mmu.walk_of_next_eq_some hnext]
    have hzero := poolMem_of_ne (R := R) hne
    rw [Mmu.walk_of_next_eq_none (by rw [hzero]; exact Mmu.next_of_not_valid (by decide)), hzero,
      Mmu.leaf_of_not_valid (by decide)]
    rfl
  · -- there is no such page
    have hhigh : Pte.high (poolPte B 0) ≠ 0#10 := by
      intro h₀
      have hentry : (poolPte B 0).toNat
          = (virtToPhys B.hhdm (B.poolTable 0)).toNat / 2 ^ 12 * 2 ^ 10 + 1 :=
        toNat_entry (by decide)
      have := Pte.high_eq_zero_iff.mp h₀
      omega
    have hleaf : Mmu.strict.leaf (poolPte B 0) 2 = false := by
      obtain ⟨-, hr, -, hx⟩ := Pte.pointer_eq_true_iff.mp hptr
      unfold Mmu.leaf poolPte
      rw [hr, hx, Bool.or_false, Bool.and_false, Bool.false_and]
    rw [Mmu.walk_of_next_eq_none (by rw [poolMem_root hpool]; exact next_strict_of_high hhigh),
      poolMem_root hpool, hleaf]
    rfl

/-! ## Such a call exists -/

/-- An aligned address in the pool is that of one of its tables. -/
theorem exists_poolTable_of_inPool (hvirt : virt.toNat % 2 ^ 12 = 0) (h : B.inPool virt = true) :
    ∃ i < earlyPtPoolSize, virt = B.poolTable i := by
  have hpool := B.pool_aligned
  have hlt := B.gEarlyPtPool.isLt
  have hlt' := virt.isLt
  have hoffset : (virt - B.gEarlyPtPool).toNat < 8 * 2 ^ 12 :=
    BitVec.lt_def.mp (of_decide_eq_true h)
  have haligned : (virt - B.gEarlyPtPool).toNat % 2 ^ 12 = 0 := by
    rw [BitVec.toNat_sub]
    omega
  refine ⟨(virt - B.gEarlyPtPool).toNat / 2 ^ 12, ?_, ?_⟩
  · show _ < 8
    omega
  · have hback : BitVec.ofNat 64 ((virt - B.gEarlyPtPool).toNat / 2 ^ 12 * 2 ^ 12)
        = virt - B.gEarlyPtPool := by
      rw [Nat.div_mul_cancel (Nat.dvd_of_mod_eq_zero haligned), BitVec.ofNat_toNat,
        BitVec.setWidth_eq]
    rw [Boot.poolTable, hback]
    bv_omega

/-- **There is room for an empty tree** beside the pool: at most eighteen pages
are unfit for its root. -/
theorem exists_root (B : Boot) :
    ∃ R, pfnPhys R ≠ 0#64 ∧ B.Shows R ∧ ∀ i < earlyPtPoolSize, B.poolPage i ≠ R := by
  let unfit : List ℕ := 0 :: physPfn (virtToPhys B.hhdm 0#64)
    :: ((List.range earlyPtPoolSize).map B.poolPage
      ++ (List.range earlyPtPoolSize).map (fun i => physPfn (virtToPhys B.hhdm (B.poolTable i))))
  have hcard : unfit.toFinset.card < (Finset.range 19).card := by
    rw [Finset.card_range]
    exact Nat.lt_of_le_of_lt unfit.toFinset_card_le (show 18 < 19 by decide)
  obtain ⟨R, hR, hfit⟩ := Finset.exists_mem_notMem_of_card_lt_card hcard
  rw [Finset.mem_range] at hR
  rw [List.mem_toFinset] at hfit
  simp only [unfit, List.mem_cons, List.mem_append, List.mem_map, List.mem_range, not_or,
    not_exists, not_and] at hfit
  obtain ⟨hzero, hnull, hpool, hshown⟩ := hfit
  have hpage : physPfn (pfnPhys R) = R := physPfn_pfnPhys (by omega)
  have hvirt : (physToVirt B.hhdm (pfnPhys R)).toNat % 2 ^ 12 = 0 := by
    have hhhdm := B.hhdm_aligned
    rw [physToVirt, BitVec.toNat_add, toNat_pfnPhys]
    omega
  -- an address that the direct map gives to the page leads back to it
  have hback : ∀ virt, physToVirt B.hhdm (pfnPhys R) = virt →
      R = physPfn (virtToPhys B.hhdm virt) :=
    fun virt h => by rw [← h, virtToPhys_physToVirt, hpage]
  refine ⟨R, fun h => hzero ?_, ⟨by omega, ?_, fun h => hnull (hback _ h)⟩, hpool⟩
  · rw [← hpage, h]
    rfl
  · have hin : B.inPool (physToVirt B.hhdm (pfnPhys R)) = false := by
      by_contra hin
      obtain ⟨i, hi, he⟩ := exists_poolTable_of_inPool hvirt (Bool.not_eq_false _ ▸ hin)
      exact hshown i hi (hback _ he).symm
    rw [Boot.tablePage, hin, if_neg Bool.false_ne_true, virtToPhys_physToVirt, hpage]

theorem tables_poolTree (hR : physPfn (pfnPhys R) = R) : (poolTree R).tables m = {R} := by
  have htables : (poolTree R).tables m = {physPfn (pfnPhys R)} := TableTree.tables_of_empty
    (show 0 < 3 by decide) (fun _ => Mmu.next_of_not_valid (show Pte.v 0#64 = false by decide))
  rw [htables, hR]

theorem freeFrames_poolTree : (poolTree R).freeFrames = ∅ := by
  ext f
  exact iff_of_false (fun hf => Bool.false_ne_true hf.1) (Set.notMem_empty f)

theorem sound_poolTree (h : B.Shows R) : Sound B m (poolTree R) where
  three_le := le_rfl
  le_five := show 3 ≤ 5 by decide
  root_page := by
    have hlt := h.1
    show pfnPhys (physPfn (pfnPhys R)) = pfnPhys R
    rw [physPfn_pfnPhys (by omega)]
  wellFormed := by
    have hnone : ∀ i, m.next ((poolTree R).mem (poolTree R).root i) = none :=
      fun _ => Mmu.next_of_not_valid (show Pte.v 0#64 = false by decide)
    refine ⟨TableTree.isTree_of_empty hnone, fun _ a _ _ i hptr => ?_⟩
    exact absurd hptr (show ¬ Pte.pointer 0#64 = true by decide)
  shown := by
    have hlt := h.1
    rw [tables_poolTree (physPfn_pfnPhys (by omega))]
    rintro a rfl
    exact h
  managed hready := absurd hready Bool.false_ne_true
  fresh := by
    rw [freeFrames_poolTree]
    exact fun f hf => absurd hf (Set.notMem_empty f)
  free_shown := by
    rw [freeFrames_poolTree]
    exact fun f hf => absurd hf (Set.notMem_empty f)

theorem poolFree_poolTree (hlt : ∀ i < earlyPtPoolSize, B.poolPage i < 2 ^ 44)
    (hR : physPfn (pfnPhys R) = R) (hpool : ∀ i < earlyPtPoolSize, B.poolPage i ≠ R) :
    PoolFree B m (poolTree R) := by
  refine ⟨hlt, fun i _ hi => ?_, fun i _ hi => ?_⟩
  · rw [tables_poolTree hR]
    exact hpool i hi
  · rw [freeFrames_poolTree]
    exact Set.notMem_empty _

theorem conforms_poolTree : (poolTree R).Conforms m := by
  intro _ _ _ _ _ _ hv
  exact absurd hv (show ¬ Pte.v 0#64 = true by decide)

/-! ## The pool can be used exactly if the mappings agree -/

/-- **Where the mappings agree, a page reported as mapped is.** -/
theorem poolSafe_of_converts (hconv : B.hhdm = B.virtualBase - B.physicalBase) : PoolSafe B :=
  fun _ _ _ _ _ _ h hconf _ hfree hcanon hlt hflags hrun =>
    (maps_of_pagingMapPage h hconf hcanon hlt hflags hrun (Or.inr ⟨hfree, hconv⟩)).2

/-- **Where they do not, some page is not.** -/
theorem not_poolSafe (hlt : ∀ i < earlyPtPoolSize, B.poolPage i < 2 ^ 44)
    (hconv : B.hhdm ≠ B.virtualBase - B.physicalBase) : ¬ PoolSafe B := by
  intro hsafe
  obtain ⟨R, hroot, hshows, hpool⟩ := exists_root B
  have hR : physPfn (pfnPhys R) = R := physPfn_pfnPhys (by have := hshows.1; omega)
  obtain ⟨pte, level, ht, -⟩ := hsafe Mmu.strict (poolTree R) _ poolVirt 0#64 pagingProtRw
    (sound_poolTree hshows) conforms_poolTree (fun h => absurd h Bool.false_ne_true)
    (poolFree_poolTree hlt hR hpool) (show Canonical 3 poolVirt by decide) (by decide) (by decide)
    (pagingMapPage_poolTree hroot hshows.2.1 hpool)
  rw [translation_eq_none_of_not_converts hconv hpool hR] at ht
  exact absurd ht (by simp)

/-- **The pool can be used exactly if the kernel image is mapped like the direct
map**; only then do the entries hold the pages of its tables. -/
theorem poolSafe_iff (hlt : ∀ i < earlyPtPoolSize, B.poolPage i < 2 ^ 44) :
    (PoolSafe B ↔ B.hhdm = B.virtualBase - B.physicalBase)
      ∧ ∀ i < earlyPtPoolSize, poolPte B i = pagingTablePte (B.imagePhys (B.poolTable i))
          ↔ B.hhdm = B.virtualBase - B.physicalBase := by
  refine ⟨⟨fun hsafe => ?_, poolSafe_of_converts⟩, fun i hi => ?_⟩
  · by_contra hconv
    exact not_poolSafe hlt hconv hsafe
  · rw [← virtToPhys_eq_imagePhys_iff B (B.poolTable i)]
    refine ⟨fun h => ?_, fun h => by rw [poolPte, h]⟩
    rw [← pagingPteToPhys_pagingTablePte (virtToPhys_poolTable_aligned hi),
      ← pagingPteToPhys_pagingTablePte (imagePhys_poolTable_aligned hi), ← h, poolPte]

/-- In the layout of before the kernel is mapped elsewhere. -/
theorem poolSafe_iff_exampleBoot :
    PoolSafe exampleBoot
      ↔ Pmm.lowestHhdm = 0xffffffff80000000#64 - 0x80000000#64 :=
  (poolSafe_iff (B := exampleBoot) (by decide)).1

/-- **A page that is reported as mapped and is not**, on an empty tree before
the memory manager is ready. -/
theorem not_poolSafe_exampleBoot :
    ∃ s', (poolTree 2).pagingMapPage exampleBoot poolVirt 0#64 pagingProtRw = some (true, s')
      ∧ s'.translation Mmu.strict poolVirt = none ∧ ¬ PoolSafe exampleBoot := by
  have hpool : ∀ i < earlyPtPoolSize, exampleBoot.poolPage i ≠ 2 := by decide
  refine ⟨_, pagingMapPage_poolTree (by decide) (by decide) hpool,
    translation_eq_none_of_not_converts (by decide) hpool (by decide),
    not_poolSafe (by decide) (by decide)⟩

end Paging
