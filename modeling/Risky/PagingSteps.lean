import Risky.PagingPte
import Risky.PmmFrames

/-!
# What one map call does to the tree

`paging_map_page` walks down the tree along the indices of one address. On its
way it links new tables in the place of absent entries (`Paging.Grew`), and at
the end it finds a leaf that will do, or writes one, or gives up
(`Paging.Finished`). `Paging.pagingMapPage_spec` says that this is all it does.

The state is required to be in order (`Paging.Sound`): the hardware sees a
well-formed tree, the direct map shows its tables, and the frames the memory
manager still has are none of them.
-/

/-- **The direct map shows a frame**, at an address that is not null. -/
def Boot.Shows (B : Boot) (f : ℕ) : Prop :=
  f < 2 ^ 44 ∧ B.tablePage (physToVirt B.hhdm (pfnPhys f)) = f
    ∧ physToVirt B.hhdm (pfnPhys f) ≠ 0#64

/-- The entry of a table that the direct map shows. -/
theorem Boot.Shows.next {B : Boot} {c : ℕ} (m : Mmu) (h : B.Shows c) :
    m.next (pagingTablePte (pfnPhys c)) = some c := by
  have hlt := h.1
  rw [next_pagingTablePte m (by rw [toNat_pfnPhys]; omega), physPfn_pfnPhys (by omega)]

theorem Boot.Shows.high {B : Boot} {c : ℕ} (h : B.Shows c) :
    Pte.high (pagingTablePte (pfnPhys c)) = 0#10 := by
  have hlt := h.1
  exact high_pagingTablePte (by rw [toNat_pfnPhys]; omega)

/-- The page where a table of the pool is. -/
def Boot.poolPage (B : Boot) (i : ℕ) : ℕ := B.tablePage (B.poolTable i)

namespace Paging

variable {B : Boot} {m : Mmu} {virt phys flags : BitVec 64} {s s' s₁ s₂ : Paging}
variable {a c level : ℕ} {r : Bool}

/-! ## States in order -/

/-- The page of the root table. -/
def root (s : Paging) : ℕ := physPfn s.gRootPhys

/-- The pages of the tables of the tree. -/
def tables (m : Mmu) (s : Paging) : Set ℕ := m.tables s.mem s.gLevels s.root

/-- The frames that `page_alloc` can still hand out. -/
def freeFrames (s : Paging) : Set ℕ := {f | s.pmm.gPmmReady = true ∧ s.pmm.FreeFrame f}

/-- **A state in which the tree and the memory manager are in order.** -/
structure Sound (B : Boot) (m : Mmu) (s : Paging) : Prop where
  /-- The mode is Sv39, Sv48 or Sv57. -/
  three_le : 3 ≤ s.gLevels
  le_five : s.gLevels ≤ 5
  /-- The root is a page. -/
  root_page : pfnPhys s.root = s.gRootPhys
  /-- The hardware sees a well-formed tree. -/
  wellFormed : m.WellFormed s.mem s.gLevels s.root
  /-- The direct map shows its tables. -/
  shown : ∀ a ∈ s.tables m, B.Shows a
  /-- The memory manager is in order, once it is ready. -/
  managed : s.pmm.gPmmReady = true → s.pmm.Managed
  /-- The frames it has left are none of the tables. -/
  fresh : ∀ f ∈ s.freeFrames, f ∉ s.tables m
  /-- The direct map shows them. -/
  free_shown : ∀ f ∈ s.freeFrames, B.Shows f

/-- **A state in which the memory manager is in order**, whatever the tree is. -/
structure Stocked (B : Boot) (s : Paging) : Prop where
  /-- The memory manager is in order, once it is ready. -/
  managed : s.pmm.gPmmReady = true → s.pmm.Managed
  /-- The direct map shows the frames it has left. -/
  free_shown : ∀ f ∈ s.freeFrames, B.Shows f

theorem Sound.stocked (h : Sound B m s) : Stocked B s := ⟨h.managed, h.free_shown⟩

/-- **The tables of the pool that are left are used for nothing else.** -/
structure PoolFree (B : Boot) (m : Mmu) (s : Paging) : Prop where
  /-- The pages of the pool are physical pages. -/
  page_lt : ∀ i < earlyPtPoolSize, B.poolPage i < 2 ^ 44
  /-- The tables left are not in the tree. -/
  fresh : ∀ i, s.gEarlyPtPoolUsed ≤ i → i < earlyPtPoolSize → B.poolPage i ∉ s.tables m
  /-- They are no frames of the memory manager. -/
  notFree : ∀ i, s.gEarlyPtPoolUsed ≤ i → i < earlyPtPoolSize → B.poolPage i ∉ s.freeFrames

/-- **The pool can be used**: the two mappings of the boot loader agree on it,
so that the direct-map conversion is right for it. -/
structure PoolSound (B : Boot) (m : Mmu) (s : Paging) : Prop extends PoolFree B m s where
  converts : B.hhdm = B.virtualBase - B.physicalBase

/-! ## The walk of an address -/

/-- **The table of a level on the walk of an address.** -/
def OnPath (m : Mmu) (virt : BitVec 64) (s : Paging) (level a : ℕ) : Prop :=
  ∃ q, TableTree.descend m.next s.mem s.root q = some a
    ∧ q ++ indices virt (level + 1) = indices virt s.gLevels

theorem OnPath.length {q : List (BitVec 9)}
    (h : q ++ indices virt (level + 1) = indices virt s.gLevels) :
    q.length + level + 1 = s.gLevels := by
  have hlen := congrArg List.length h
  rw [List.length_append, length_indices, length_indices] at hlen
  omega

theorem OnPath.mem_tables (h : OnPath m virt s level a) : a ∈ s.tables m := by
  obtain ⟨q, hq, hpath⟩ := h
  have := OnPath.length hpath
  exact ⟨q, by omega, hq⟩

theorem onPath_root (virt : BitVec 64) (h : 0 < s.gLevels) : OnPath m virt s (s.gLevels - 1) s.root :=
  ⟨[], rfl, by rw [Nat.sub_add_cancel h]; rfl⟩

/-- The path splits off the index it takes next. -/
theorem OnPath.concat {q : List (BitVec 9)}
    (h : q ++ indices virt (level + 1 + 1) = indices virt s.gLevels) :
    (q ++ [vpn virt (level + 1)]) ++ indices virt (level + 1) = indices virt s.gLevels := by
  rw [List.append_assoc]
  exact h

/-- A pointer on the path leads to the table of the next level. -/
theorem OnPath.step {b : ℕ} (h : OnPath m virt s (level + 1) a)
    (hb : m.next (s.mem a (vpn virt (level + 1))) = some b) : OnPath m virt s level b := by
  obtain ⟨q, hq, hpath⟩ := h
  exact ⟨q ++ [vpn virt (level + 1)], by rw [TableTree.descend_concat hq, hb],
    OnPath.concat hpath⟩

/-- An entry of the path that is no pointer is where the walk stops. -/
theorem OnPath.lookup (h : OnPath m virt s level a)
    (hnone : m.next (s.mem a (vpn virt level)) = none) :
    TableTree.lookup m.next s.mem s.root (indices virt s.gLevels)
      = some (s.mem a (vpn virt level), level) := by
  obtain ⟨q, hq, hpath⟩ := h
  rw [← hpath, TableTree.lookup_append hq]
  show TableTree.lookup m.next s.mem a (vpn virt level :: indices virt level) = _
  rw [TableTree.lookup_cons_of_none hnone, length_indices]

/-- The walk stops at the last level, if it gets there. -/
theorem OnPath.eq_of_lookup {e : BitVec 64} {k : ℕ} (h : OnPath m virt s 0 a)
    (hlookup : TableTree.lookup m.next s.mem s.root (indices virt s.gLevels) = some (e, k)) :
    s.mem a (vpn virt 0) = e ∧ k = 0 := by
  obtain ⟨q, hq, hpath⟩ := h
  rw [← hpath, TableTree.lookup_append hq] at hlookup
  exact TableTree.lookup_singleton hlookup

/-- **A pointer of the path is followed by code and hardware alike.** -/
theorem OnPath.pointer (hpath : OnPath m virt s (level + 1) a) (h : Sound B m s) {i : BitVec 9}
    (hptr : Pte.pointer (s.mem a i) = true) :
    Pte.high (s.mem a i) = 0#10 ∧ m.next (s.mem a i) = some (Pte.ppn (s.mem a i)) := by
  obtain ⟨q, hq, hq'⟩ := hpath
  have := OnPath.length hq'
  obtain ⟨hhigh, hres⟩ := h.wellFormed.pointers q a (by omega) hq i hptr
  exact ⟨hhigh, Mmu.next_eq_some_iff.mpr ⟨hptr, hres, rfl⟩⟩

/-- **The code reads the tables of the path** through the direct map. -/
theorem load_of_onPath (h : Sound B m s) (hpath : OnPath m virt s level a) :
    s.load B (physToVirt B.hhdm (pfnPhys a)) (pagingLevelIndex virt level)
      = s.mem a (vpn virt level) := by
  rw [load, (h.shown a hpath.mem_tables).2.1, setWidth_pagingLevelIndex]

/-- An entry that is present is fetched. -/
theorem pagingFetch_of_valid (h : Sound B m s) (hpath : OnPath m virt s (level + 1) a)
    (hv : Pte.v (s.mem a (vpn virt (level + 1))) = true) :
    s.pagingFetch B (physToVirt B.hhdm (pfnPhys a)) (pagingLevelIndex virt (level + 1))
      = some (some (s.mem a (vpn virt (level + 1))), s) := by
  unfold pagingFetch
  dsimp only
  rw [load_of_onPath h hpath, if_neg (and_pteV_ne_zero.mpr hv)]

/-- The loop follows a pointer. -/
theorem pagingMapLevel_of_pointer (phys flags : BitVec 64) (h : Sound B m s)
    (hpath : OnPath m virt s (level + 1) a)
    (hptr : Pte.pointer (s.mem a (vpn virt (level + 1))) = true) :
    OnPath m virt s level (Pte.ppn (s.mem a (vpn virt (level + 1))))
      ∧ pagingMapLevel B virt phys flags (level + 1) (physToVirt B.hhdm (pfnPhys a)) s
        = pagingMapLevel B virt phys flags level
          (physToVirt B.hhdm (pfnPhys (Pte.ppn (s.mem a (vpn virt (level + 1)))))) s := by
  obtain ⟨hhigh, hnext⟩ := hpath.pointer h hptr
  obtain ⟨hv, hrwx⟩ := Pte.pointer_eq_true_iff.mp hptr
  refine ⟨hpath.step hnext, ?_⟩
  rw [pagingMapLevel, pagingFetch_of_valid h hpath hv]
  dsimp only
  rw [if_neg (not_not.mpr (and_rwx_eq_zero.mpr hrwx)), pagingPteToPhys_eq hhigh]

/-! ## New tables -/

/-- **Where a new table comes from**: the memory manager, or else the pool. -/
inductive Supplies (B : Boot) (s : Paging) : ℕ → Paging → Prop
  | pageAlloc {c : ℕ} {pmm : Pmm} (hready : s.pmm.gPmmReady = true)
      (h : s.pmm.pageAlloc 0 = some (some c, pmm)) : Supplies B s c { s with pmm := pmm }
  | pool (hused : s.gEarlyPtPoolUsed < earlyPtPoolSize) :
      Supplies B s (B.poolPage s.gEarlyPtPoolUsed)
        { s with gEarlyPtPoolUsed := s.gEarlyPtPoolUsed + 1 }

/-- **A table that can be linked**: it is none of the tree, the direct map
shows it, and it is no longer free. -/
structure Linkable (B : Boot) (m : Mmu) (s : Paging) (c : ℕ) (s₁ : Paging) : Prop where
  notMem : c ∉ s.tables m
  shows : B.Shows c
  managed : s₁.pmm.gPmmReady = true → s₁.pmm.Managed
  freeFrames : s₁.freeFrames = s.freeFrames \ {c}
  mem : s₁.mem = s.mem
  gRootPhys : s₁.gRootPhys = s.gRootPhys
  gLevels : s₁.gLevels = s.gLevels

/-- The state after the table `c` has been linked at an entry. -/
def linkTable (s : Paging) (c a : ℕ) (i : BitVec 9) : Paging :=
  { s with mem := TableTree.link s.mem c 0#64 a i (pagingTablePte (pfnPhys c)) }

/-- **One new table** takes the place of an absent entry on the walk of
`virt`. -/
def Grew (B : Boot) (m : Mmu) (virt : BitVec 64) (s s' : Paging) : Prop :=
  ∃ (level a c : ℕ) (s₁ : Paging), OnPath m virt s (level + 1) a
    ∧ Pte.v (s.mem a (vpn virt (level + 1))) = false
    ∧ Supplies B s c s₁ ∧ Linkable B m s c s₁ ∧ s' = s₁.linkTable c a (vpn virt (level + 1))

/-- No table can be had. -/
def NoTable (s : Paging) : Prop :=
  (s.pmm.gPmmReady = true → s.pmm.pageAlloc 0 = some (none, s.pmm))
    ∧ earlyPtPoolSize ≤ s.gEarlyPtPoolUsed

/-- **How a map call ends**, from the state in which the last new table has
been linked. -/
inductive Finished (m : Mmu) (virt phys flags : BitVec 64) (s : Paging) :
    Bool → Paging → Prop
  /-- There is no table for an absent entry. -/
  | noTable {level a : ℕ} (hpath : OnPath m virt s (level + 1) a)
      (habsent : Pte.v (s.mem a (vpn virt (level + 1))) = false) (hno : s.NoTable) :
      Finished m virt phys flags s false s
  /-- A superpage is in the way. -/
  | conflict {level a : ℕ} (hpath : OnPath m virt s (level + 1) a)
      (hvalid : Pte.v (s.mem a (vpn virt (level + 1))) = true)
      (hleaf : Pte.pointer (s.mem a (vpn virt (level + 1))) = false)
      (hcovers : pagingEntryCovers (s.mem a (vpn virt (level + 1))) virt phys flags
        (level + 1) = false) :
      Finished m virt phys flags s false s
  /-- A leaf is found that will do. -/
  | covered {level a : ℕ} (hpath : OnPath m virt s level a)
      (hcovers : pagingEntryCovers (s.mem a (vpn virt level)) virt phys flags level = true) :
      Finished m virt phys flags s true s
  /-- The leaf is written. -/
  | wrote {a : ℕ} (hpath : OnPath m virt s 0 a) :
      Finished m virt phys flags s true
        { s with mem := TableTree.write s.mem a (vpn virt 0) (leafPte phys flags) }

/-! ## The pool -/

theorem toNat_poolTable {i : ℕ} (hi : i < earlyPtPoolSize) :
    (B.poolTable i).toNat = B.gEarlyPtPool.toNat + i * 2 ^ 12 := by
  have hfits := B.pool_fits
  change i < 8 at hi
  change _ + 8 * 2 ^ 12 ≤ _ at hfits
  rw [Boot.poolTable, BitVec.toNat_add, BitVec.toNat_ofNat]
  omega

theorem inPool_poolTable {i : ℕ} (hi : i < earlyPtPoolSize) :
    B.inPool (B.poolTable i) = true := by
  change i < 8 at hi
  unfold Boot.inPool Boot.poolTable
  rw [decide_eq_true_eq, BitVec.add_comm, BitVec.add_sub_cancel, BitVec.lt_def,
    BitVec.toNat_ofNat, BitVec.toNat_ofNat]
  change _ < 8 * 2 ^ 12 % _
  omega

theorem poolTable_ne_zero {i : ℕ} (hi : i < earlyPtPoolSize) : B.poolTable i ≠ 0#64 := by
  intro h
  have hpos : B.gEarlyPtPool.toNat ≠ 0 := fun h₀ => B.pool_ne (BitVec.eq_of_toNat_eq h₀)
  have := toNat_poolTable (B := B) hi
  rw [h] at this
  change 0 = _ at this
  omega

theorem poolPage_eq {i : ℕ} (hi : i < earlyPtPoolSize) :
    B.poolPage i = physPfn (B.imagePhys (B.poolTable i)) := by
  rw [Boot.poolPage, Boot.tablePage, if_pos (inPool_poolTable hi)]

theorem imagePhys_poolTable_aligned {i : ℕ} (hi : i < earlyPtPoolSize) :
    (B.imagePhys (B.poolTable i)).toNat % 2 ^ 12 = 0 := by
  have himage := B.image_aligned
  have hpool := B.pool_aligned
  have htable := toNat_poolTable (B := B) hi
  rw [show B.imagePhys (B.poolTable i)
    = (B.physicalBase - B.virtualBase) + B.poolTable i by
      unfold Boot.imagePhys
      bv_omega, BitVec.toNat_add]
  omega

/-- The tables of the pool are on different pages. -/
theorem poolPage_injective {i j : ℕ} (hi : i < earlyPtPoolSize) (hj : j < earlyPtPoolSize)
    (h : B.poolPage i = B.poolPage j) : i = j := by
  have hai := imagePhys_poolTable_aligned (B := B) hi
  have haj := imagePhys_poolTable_aligned (B := B) hj
  rw [poolPage_eq hi, poolPage_eq hj, physPfn_eq, physPfn_eq] at h
  have heq : B.imagePhys (B.poolTable i) = B.imagePhys (B.poolTable j) :=
    BitVec.eq_of_toNat_eq (by omega)
  have htable : B.poolTable i = B.poolTable j := by
    unfold Boot.imagePhys at heq
    rw [BitVec.add_right_inj] at heq
    have := congrArg (· + B.virtualBase) heq
    simpa only [BitVec.sub_add_cancel] using this
  have hnat := congrArg BitVec.toNat htable
  rw [toNat_poolTable hi, toNat_poolTable hj] at hnat
  omega

theorem virtToPhys_poolTable_aligned {i : ℕ} (hi : i < earlyPtPoolSize) :
    (virtToPhys B.hhdm (B.poolTable i)).toNat % 2 ^ 12 = 0 := by
  have hhhdm := B.hhdm_aligned
  have hpool := B.pool_aligned
  have htable := toNat_poolTable (B := B) hi
  have hlt := B.hhdm.isLt
  rw [virtToPhys, BitVec.toNat_sub]
  omega

/-- **Where the two mappings agree, the direct map shows the pool** where the
code expects it. -/
theorem virtToPhys_poolTable (hconv : B.hhdm = B.virtualBase - B.physicalBase) {i : ℕ}
    (hi : i < earlyPtPoolSize) :
    virtToPhys B.hhdm (B.poolTable i) = pfnPhys (B.poolPage i) := by
  rw [poolPage_eq hi, pfnPhys_physPfn (imagePhys_poolTable_aligned hi), hconv]
  unfold virtToPhys Boot.imagePhys
  bv_omega

/-- **The pool is shown by the direct map**, where the two mappings agree. -/
theorem PoolSound.shows (h : PoolSound B m s) {i : ℕ} (hi : i < earlyPtPoolSize) :
    B.Shows (B.poolPage i) := by
  have hvirt : physToVirt B.hhdm (pfnPhys (B.poolPage i)) = B.poolTable i := by
    rw [← virtToPhys_poolTable h.converts hi, physToVirt_virtToPhys]
  unfold Boot.Shows
  rw [hvirt]
  exact ⟨h.page_lt i hi, rfl, poolTable_ne_zero hi⟩

/-! ## Linking keeps the state in order -/

/-- **What the memory manager hands out** for a table. -/
structure HandedTable (s : Paging) (c : ℕ) (pmm : Pmm) : Prop where
  mem : c ∈ s.freeFrames
  managed : pmm.Managed
  ready : pmm.gPmmReady = true
  phys : pmm.pfndbPageToPhys (some c) = pfnPhys c
  rest : ∀ f, pmm.FreeFrame f ↔ s.pmm.FreeFrame f ∧ f ≠ c

theorem Stocked.pageAlloc (h : Stocked B s) (hready : s.pmm.gPmmReady = true) {c : ℕ} {pmm : Pmm}
    (hrun : s.pmm.pageAlloc 0 = some (some c, pmm)) : HandedTable s c pmm := by
  rcases (h.managed hready).pageAlloc 0 with hnone | ⟨page, pmm', hrun', hhand⟩
  · rw [hnone] at hrun
    exact absurd hrun (by simp)
  rw [hrun'] at hrun
  cases hrun
  have hblock : ∀ f, f ∈ (⟨c, 0⟩ : Block) ↔ f = c := fun f => by
    rw [Block.mem_def]
    show c ≤ f ∧ f < c + 2 ^ 0 ↔ _
    omega
  obtain ⟨usable, S, hinv⟩ := hhand.managed
  refine ⟨⟨hready, hhand.free c ((hblock c).mpr rfl)⟩, ⟨usable, S, hinv⟩, hinv.ready,
    hhand.phys, fun f => ?_⟩
  rw [hhand.rest, hblock]

/-- **A table that is supplied is gone**, and the memory manager is in order. -/
theorem Stocked.supplies (h : Stocked B s) (hs : Supplies B s c s₁) : Stocked B s₁ := by
  cases hs with
  | pageAlloc hready hrun =>
    have hhand := h.pageAlloc hready hrun
    exact ⟨fun _ => hhand.managed, fun f hf => h.free_shown f ⟨hready, ((hhand.rest f).mp hf.2).1⟩⟩
  | pool => exact ⟨h.managed, h.free_shown⟩

/-- **What is supplied can be linked.** -/
theorem Sound.linkable (h : Sound B m s) (hs : Supplies B s c s₁)
    (hpool : s₁.gEarlyPtPoolUsed = s.gEarlyPtPoolUsed ∨ PoolSound B m s) :
    Linkable B m s c s₁ := by
  cases hs with
  | @pageAlloc c pmm hready hrun =>
    have hhand := h.stocked.pageAlloc hready hrun
    refine ⟨h.fresh c hhand.mem, h.free_shown c hhand.mem, fun _ => hhand.managed, ?_, rfl, rfl,
      rfl⟩
    ext f
    show pmm.gPmmReady = true ∧ pmm.FreeFrame f
      ↔ (s.pmm.gPmmReady = true ∧ s.pmm.FreeFrame f) ∧ f ∉ ({c} : Set ℕ)
    rw [hhand.rest, hhand.ready, hready, Set.mem_singleton_iff, and_assoc]
  | pool hused =>
    have hpool' := hpool.resolve_left (Nat.succ_ne_self _)
    refine ⟨hpool'.fresh _ le_rfl hused, hpool'.shows hused, h.managed, ?_, rfl, rfl, rfl⟩
    exact (Set.sdiff_singleton_eq_self (hpool'.notFree _ le_rfl hused)).symm

section LinkTable

variable (h : Sound B m s) (hpath : OnPath m virt s (level + 1) a)
  (habsent : Pte.v (s.mem a (vpn virt (level + 1))) = false) (hl : Linkable B m s c s₁)

include hl in
theorem Linkable.root_eq (i : BitVec 9) : (s₁.linkTable c a i).root = s.root :=
  congrArg physPfn hl.gRootPhys

include h hpath habsent hl

theorem tables_linkTable :
    (s₁.linkTable c a (vpn virt (level + 1))).tables m = insert c (s.tables m) := by
  obtain ⟨q, hq, hq'⟩ := hpath
  have hlen := OnPath.length hq'
  unfold tables
  rw [hl.root_eq]
  unfold linkTable
  rw [hl.mem, hl.gLevels]
  exact Mmu.tables_link h.wellFormed hq (by omega) habsent hl.notMem (hl.shows.next m)

/-- **Linking a table keeps the state in order.** -/
theorem Sound.linkTable : Sound B m (s₁.linkTable c a (vpn virt (level + 1))) := by
  have htables := tables_linkTable h hpath habsent hl
  have hfree : (s₁.linkTable c a (vpn virt (level + 1))).freeFrames = s.freeFrames \ {c} :=
    hl.freeFrames
  obtain ⟨q, hq, hq'⟩ := hpath
  have hlen := OnPath.length hq'
  refine ⟨hl.gLevels ▸ h.three_le, hl.gLevels ▸ h.le_five, ?_, ?_, ?_, hl.managed, ?_, ?_⟩
  · rw [hl.root_eq]
    exact h.root_page.trans hl.gRootPhys.symm
  · rw [hl.root_eq]
    unfold Paging.linkTable
    rw [hl.mem, hl.gLevels]
    exact h.wellFormed.link hq (by omega) habsent hl.notMem (hl.shows.next m) hl.shows.high
  · rw [htables]
    rintro b (rfl | hb)
    · exact hl.shows
    · exact h.shown b hb
  · rw [hfree, htables]
    rintro f ⟨hf, hne⟩ (hfc | hft)
    · exact hne hfc
    · exact h.fresh f hf hft
  · rw [hfree]
    exact fun f hf => h.free_shown f hf.1

end LinkTable

/-- The path of the address still leads to the table linked at. -/
theorem OnPath.linkTable_self (h : Sound B m s) (hpath : OnPath m virt s (level + 1) a)
    (hl : Linkable B m s c s₁) :
    OnPath m virt (s₁.linkTable c a (vpn virt (level + 1))) (level + 1) a := by
  obtain ⟨q, hq, hq'⟩ := hpath
  have hlen := OnPath.length hq'
  refine ⟨q, ?_, hq'.trans (congrArg (indices virt) hl.gLevels.symm)⟩
  rw [hl.root_eq]
  unfold Paging.linkTable
  rw [hl.mem]
  exact TableTree.descend_link_self h.wellFormed.isTree hq (by omega) hl.notMem

/-- The entry linked at. -/
theorem mem_linkTable {i : BitVec 9} :
    (s.linkTable c a i).mem a i = pagingTablePte (pfnPhys c) :=
  TableTree.write_same

/-- **What is left of the pool stays usable.** -/
theorem PoolSound.linkTable (hp : PoolSound B m s) (h : Sound B m s)
    (hpath : OnPath m virt s (level + 1) a)
    (habsent : Pte.v (s.mem a (vpn virt (level + 1))) = false) (hs : Supplies B s c s₁) :
    PoolSound B m (s₁.linkTable c a (vpn virt (level + 1))) := by
  have hl := h.linkable hs (Or.inr hp)
  have htables := tables_linkTable h hpath habsent hl
  have hfree : (s₁.linkTable c a (vpn virt (level + 1))).freeFrames = s.freeFrames \ {c} :=
    hl.freeFrames
  have hused : s.gEarlyPtPoolUsed ≤ s₁.gEarlyPtPoolUsed := by
    cases hs <;> simp
  refine ⟨⟨hp.page_lt, fun i hi hlt => ?_, fun i hi hlt => ?_⟩, hp.converts⟩
  · rw [htables]
    rintro (hic | hit)
    · cases hs with
      | pageAlloc hready hrun =>
        have hmem := (h.stocked.pageAlloc hready hrun).mem
        exact hp.notFree i hi hlt (hic ▸ hmem)
      | pool hlt' =>
        have := poolPage_injective hlt hlt' hic
        change s.gEarlyPtPoolUsed + 1 ≤ i at hi
        omega
    · exact hp.fresh i (hused.trans hi) hlt hit
  · rw [hfree]
    exact fun hf => hp.notFree i (hused.trans hi) hlt hf.1

/-! ## The calls -/

/-- The pool only ever shrinks. -/
theorem pool_le_of_pagingAllocTable {t : BitVec 64}
    (hrun : s.pagingAllocTable B = some (t, s')) :
    s.gEarlyPtPoolUsed ≤ s'.gEarlyPtPoolUsed := by
  unfold pagingAllocTable at hrun
  split at hrun
  · exact absurd hrun (by simp)
  · cases hrun
    exact le_rfl
  · split at hrun
    · cases hrun
      exact le_rfl
    · cases hrun
      exact Nat.le_succ _

theorem pool_le_of_pagingFetch {table index : BitVec 64} {e : Option (BitVec 64)}
    (hrun : s.pagingFetch B table index = some (e, s')) :
    s.gEarlyPtPoolUsed ≤ s'.gEarlyPtPoolUsed := by
  unfold pagingFetch at hrun
  dsimp only at hrun
  split at hrun
  · split at hrun
    · exact absurd hrun (by simp)
    · next t s₁ halloc =>
      have hle := pool_le_of_pagingAllocTable halloc
      split at hrun
      · cases hrun
        exact hle
      · cases hrun
        exact hle
  · cases hrun
    exact le_rfl

theorem pool_le_of_pagingMapLevel {table : BitVec 64}
    (hrun : pagingMapLevel B virt phys flags level table s = some (r, s')) :
    s.gEarlyPtPoolUsed ≤ s'.gEarlyPtPoolUsed := by
  induction level generalizing table s with
  | zero =>
    unfold pagingMapLevel at hrun
    dsimp only at hrun
    split at hrun
    · cases hrun
      exact le_rfl
    · cases hrun
      exact le_rfl
  | succ level ih =>
    unfold pagingMapLevel at hrun
    split at hrun
    · exact absurd hrun (by simp)
    · next t s₁ hfetch =>
      cases hrun
      exact pool_le_of_pagingFetch hfetch
    · next e s₁ hfetch =>
      have hle := pool_le_of_pagingFetch hfetch
      split at hrun
      · cases hrun
        exact hle
      · exact hle.trans (ih hrun)

/-- **A new table** is refused, or one is supplied and zeroed. -/
theorem pagingAllocTable_spec (m : Mmu) (h : Stocked B s) :
    s.NoTable ∧ s.pagingAllocTable B = some (0#64, s)
      ∨ ∃ (c : ℕ) (s₁ : Paging) (t : BitVec 64), Supplies B s c s₁
        ∧ s.pagingAllocTable B = some (t, s₁.memsetTable B t) ∧ t ≠ 0#64
        ∧ B.tablePage t = c ∧ (virtToPhys B.hhdm t).toNat % 2 ^ 12 = 0
        ∧ (s₁.gEarlyPtPoolUsed = s.gEarlyPtPoolUsed ∨ PoolSound B m s →
            virtToPhys B.hhdm t = pfnPhys c) := by
  unfold pagingAllocTable
  by_cases hsupply : s.pmm.gPmmReady = true
      ∧ ∃ c pmm, s.pmm.pageAlloc 0 = some (some c, pmm)
  · obtain ⟨hready, c, pmm, hrun⟩ := hsupply
    have hhand := h.pageAlloc hready hrun
    have hshows := h.free_shown c hhand.mem
    refine Or.inr ⟨c, _, physToVirt B.hhdm (pfnPhys c), Supplies.pageAlloc hready hrun, ?_,
      hshows.2.2, hshows.2.1, ?_, fun _ => virtToPhys_physToVirt _ _⟩
    · rw [if_pos hready, hrun]
      dsimp only
      rw [hhand.phys]
    · rw [virtToPhys_physToVirt, toNat_pfnPhys]
      omega
  have hnone : s.pmm.gPmmReady = true → s.pmm.pageAlloc 0 = some (none, s.pmm) := by
    intro hready
    rcases (h.managed hready).pageAlloc 0 with hnone | ⟨c, pmm, hrun, -⟩
    · exact hnone
    · exact absurd ⟨hready, c, pmm, hrun⟩ hsupply
  have hmatch : (if s.pmm.gPmmReady then s.pmm.pageAlloc 0 else some (none, s.pmm))
      = some (none, s.pmm) := by
    split
    · next hready => exact hnone hready
    · rfl
  rw [hmatch]
  dsimp only
  by_cases hused : s.gEarlyPtPoolUsed ≥ earlyPtPoolSize
  · rw [if_pos hused]
    exact Or.inl ⟨⟨hnone, hused⟩, rfl⟩
  · rw [if_neg hused]
    have hlt := not_le.mp hused
    refine Or.inr ⟨_, _, B.poolTable s.gEarlyPtPoolUsed, Supplies.pool hlt, rfl,
      poolTable_ne_zero hlt, rfl, virtToPhys_poolTable_aligned hlt, fun hpool => ?_⟩
    exact virtToPhys_poolTable (hpool.resolve_left (Nat.succ_ne_self _)).converts hlt

/-- **The entry to go on from**, after a turn's first half: the state it is
read in, in order, with a new table or none. -/
structure Fetched (B : Boot) (m : Mmu) (virt : BitVec 64) (level a : ℕ) (s s' : Paging) :
    Prop where
  grew : s' = s ∨ Grew B m virt s s'
  sound : Sound B m s'
  pool : PoolSound B m s → PoolSound B m s'
  onPath : OnPath m virt s' (level + 1) a
  valid : Pte.v (s'.mem a (vpn virt (level + 1))) = true

theorem pagingFetch_spec (h : Sound B m s) (hpath : OnPath m virt s (level + 1) a)
    {e : Option (BitVec 64)}
    (hrun : s.pagingFetch B (physToVirt B.hhdm (pfnPhys a)) (pagingLevelIndex virt (level + 1))
      = some (e, s'))
    (hpool : s'.gEarlyPtPoolUsed = s.gEarlyPtPoolUsed ∨ PoolSound B m s) :
    e = none ∧ s' = s ∧ Pte.v (s.mem a (vpn virt (level + 1))) = false ∧ s.NoTable
      ∨ e = some (s'.mem a (vpn virt (level + 1))) ∧ Fetched B m virt level a s s' := by
  by_cases hv : Pte.v (s.mem a (vpn virt (level + 1))) = true
  · rw [pagingFetch_of_valid h hpath hv] at hrun
    cases hrun
    exact Or.inr ⟨rfl, Or.inl rfl, h, id, hpath, hv⟩
  have habsent : Pte.v (s.mem a (vpn virt (level + 1))) = false := Bool.not_eq_true _ ▸ hv
  unfold pagingFetch load store at hrun
  dsimp only at hrun
  rw [(h.shown a hpath.mem_tables).2.1, setWidth_pagingLevelIndex,
    if_pos (and_pteV_eq_zero.mpr habsent)] at hrun
  rcases pagingAllocTable_spec m h.stocked with
    ⟨hno, halloc⟩ | ⟨c, s₁, t, hs, halloc, ht, hc, -, hphys⟩
  · rw [halloc] at hrun
    cases hrun
    exact Or.inl ⟨rfl, rfl, habsent, hno⟩
  · rw [halloc] at hrun
    dsimp only at hrun
    rw [if_neg ht] at hrun
    cases hrun
    have hl := h.linkable hs hpool
    have hlink : ({ s₁.memsetTable B t with
        mem := TableTree.write (s₁.memsetTable B t).mem a (vpn virt (level + 1))
          (pagingTablePte (virtToPhys B.hhdm t)) } : Paging)
        = s₁.linkTable c a (vpn virt (level + 1)) := by
      rw [hphys hpool]
      unfold memsetTable linkTable TableTree.link
      rw [hc]
    rw [hlink]
    refine Or.inr ⟨congrArg (fun x : Paging => some (x.mem a (vpn virt (level + 1)))) hlink,
      Or.inr ⟨level, a, c, s₁, hpath, habsent, hs, hl, rfl⟩,
      h.linkTable hpath habsent hl, fun hp => hp.linkTable h hpath habsent hs,
      OnPath.linkTable_self h hpath hl, ?_⟩
    rw [mem_linkTable]
    exact (Pte.pointer_eq_true_iff.mp (pointer_pagingTablePte _)).1

/-- **The loop of `paging_map_one`** links tables and finishes. -/
theorem pagingMapLevel_spec (h : Sound B m s) (hpath : OnPath m virt s level a)
    (hrun : pagingMapLevel B virt phys flags level (physToVirt B.hhdm (pfnPhys a)) s
      = some (r, s'))
    (hpool : s'.gEarlyPtPoolUsed = s.gEarlyPtPoolUsed ∨ PoolSound B m s) :
    ∃ s₁, Relation.ReflTransGen (Grew B m virt) s s₁
      ∧ Finished m virt phys flags s₁ r s' := by
  induction level generalizing s a with
  | zero =>
    have hpage : B.tablePage (physToVirt B.hhdm (pfnPhys a)) = a :=
      (h.shown a hpath.mem_tables).2.1
    unfold pagingMapLevel load store at hrun
    dsimp only at hrun
    rw [hpage, setWidth_pagingLevelIndex] at hrun
    refine ⟨s, Relation.ReflTransGen.refl, ?_⟩
    split at hrun
    · next hcov =>
      cases hrun
      exact Finished.covered hpath hcov.2
    · cases hrun
      exact Finished.wrote hpath
  | succ level ih =>
    unfold pagingMapLevel at hrun
    split at hrun
    · exact absurd hrun (by simp)
    · next s₁ hfetch =>
      cases hrun
      rcases pagingFetch_spec h hpath hfetch hpool with ⟨-, rfl, habsent, hno⟩ | ⟨he, -⟩
      · exact ⟨s', Relation.ReflTransGen.refl, Finished.noTable hpath habsent hno⟩
      · exact absurd he (by simp)
    · next e s₁ hfetch =>
      -- the pool only grows: a call that takes no page of it does so in no part
      have hle := pool_le_of_pagingFetch hfetch
      have hle' : s₁.gEarlyPtPoolUsed ≤ s'.gEarlyPtPoolUsed := by
        split at hrun
        · cases hrun
          exact le_rfl
        · exact pool_le_of_pagingMapLevel hrun
      have hpool₁ : s₁.gEarlyPtPoolUsed = s.gEarlyPtPoolUsed ∨ PoolSound B m s :=
        hpool.imp_left (fun heq => le_antisymm (heq ▸ hle') hle)
      rcases pagingFetch_spec h hpath hfetch hpool₁ with ⟨he, -⟩ | ⟨he, hf⟩
      · exact absurd he (by simp)
      cases he
      have hgrew : Relation.ReflTransGen (Grew B m virt) s s₁ := by
        rcases hf.grew with rfl | hg
        · exact Relation.ReflTransGen.refl
        · exact Relation.ReflTransGen.single hg
      split at hrun
      · -- a leaf, at which the call ends
        next hrwx =>
        cases hrun
        have hleaf : Pte.pointer (s'.mem a (vpn virt (level + 1))) = false := by
          by_contra hptr
          have := Pte.pointer_eq_true_iff.mp (Bool.not_eq_false _ ▸ hptr)
          exact hrwx (and_rwx_eq_zero.mpr this.2)
        refine ⟨s', hgrew, ?_⟩
        cases hcov : pagingEntryCovers (s'.mem a (vpn virt (level + 1))) virt phys flags
          (level + 1) with
        | true => exact Finished.covered hf.onPath hcov
        | false => exact Finished.conflict hf.onPath hf.valid hleaf hcov
      · -- a pointer, from which it goes on
        next hrwx =>
        obtain ⟨hhigh, hnext⟩ := hf.onPath.pointer hf.sound
          (Pte.pointer_eq_true_iff.mpr ⟨hf.valid, and_rwx_eq_zero.mp (not_not.mp hrwx)⟩)
        rw [pagingPteToPhys_eq hhigh] at hrun
        have hpool₂ : s'.gEarlyPtPoolUsed = s₁.gEarlyPtPoolUsed ∨ PoolSound B m s₁ :=
          hpool.imp (fun heq => le_antisymm (heq ▸ hle) hle') hf.pool
        obtain ⟨s₂, hgrew₂, hfin⟩ := ih hf.sound (hf.onPath.step hnext) hrun hpool₂
        exact ⟨s₂, hgrew.trans hgrew₂, hfin⟩

end Paging
