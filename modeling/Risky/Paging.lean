import Risky.Pmm
import Risky.TableTree

/-!
# The page-table code

The mapping functions of `mm/paging.c`. Addresses and page-table entries are
64-bit words; the memory of the page tables is read as tables of 512 words,
named by the physical page they occupy.

The code reaches a table through a virtual address: the direct map for most,
the kernel image for those of `g_early_pt_pool`. `Boot.tablePage` is the page
such an address really shows, by the mappings the boot loader has set up. Log
messages and TLB flushes are left out. As in `mm/pmm.c`, a `none` in place of
a result is a crash, not a refusal.
-/

/-! ## What the boot loader says -/

/-- `sizeof(g_early_pt_pool) / sizeof(g_early_pt_pool[0])`. -/
def earlyPtPoolSize : ℕ := 8

/-- **Where the boot loader has put things**: the direct map and the kernel
image, with the page pool inside the image. -/
structure Boot where
  /-- `hhdm_request.response->offset`. -/
  hhdm : BitVec 64
  /-- `executable_address_request.response->physical_base`. -/
  physicalBase : BitVec 64
  /-- `executable_address_request.response->virtual_base`. -/
  virtualBase : BitVec 64
  /-- The address of `g_early_pt_pool`. -/
  gEarlyPtPool : BitVec 64
  /-- The direct map maps pages to pages. -/
  hhdm_aligned : hhdm.toNat % 2 ^ 12 = 0
  /-- So does the mapping of the kernel image. -/
  image_aligned : (physicalBase - virtualBase).toNat % 2 ^ 12 = 0
  /-- `__attribute__((aligned(PAGE_SIZE)))`. -/
  pool_aligned : gEarlyPtPool.toNat % 2 ^ 12 = 0
  /-- The pool does not wrap around. -/
  pool_fits : gEarlyPtPool.toNat + earlyPtPoolSize * 2 ^ 12 ≤ 2 ^ 64
  /-- It is not at the null pointer. -/
  pool_ne : gEarlyPtPool ≠ 0#64

namespace Boot

/-- Whether an address lies in the pool. -/
def inPool (B : Boot) (virt : BitVec 64) : Bool :=
  virt - B.gEarlyPtPool < BitVec.ofNat 64 (earlyPtPoolSize * 2 ^ 12)

/-- The physical address an address of the kernel image shows. -/
def imagePhys (B : Boot) (virt : BitVec 64) : BitVec 64 :=
  B.physicalBase + (virt - B.virtualBase)

/-- The physical page that a table pointer shows. -/
def tablePage (B : Boot) (table : BitVec 64) : ℕ :=
  physPfn (if B.inPool table then B.imagePhys table else virtToPhys B.hhdm table)

/-- `&g_early_pt_pool[i]`. -/
def poolTable (B : Boot) (i : ℕ) : BitVec 64 :=
  B.gEarlyPtPool + BitVec.ofNat 64 (i * 2 ^ 12)

end Boot

/-! ## Entries -/

/-- `PTE_V`. -/
def pteV : BitVec 64 := 1#64 <<< 0

/-- `PTE_R`. -/
def pteR : BitVec 64 := 1#64 <<< 1

/-- `PTE_W`. -/
def pteW : BitVec 64 := 1#64 <<< 2

/-- `PTE_X`. -/
def pteX : BitVec 64 := 1#64 <<< 3

/-- `PTE_G`. -/
def pteG : BitVec 64 := 1#64 <<< 5

/-- `PTE_A`. -/
def pteA : BitVec 64 := 1#64 <<< 6

/-- `PTE_D`. -/
def pteD : BitVec 64 := 1#64 <<< 7

/-- `PTE_TABLE_FLAGS`. -/
def pteTableFlags : BitVec 64 := pteV

/-- `PAGING_FLAG_READ`. -/
def pagingFlagRead : BitVec 64 := 1#64 <<< 0

/-- `PAGING_FLAG_WRITE`. -/
def pagingFlagWrite : BitVec 64 := 1#64 <<< 1

/-- `PAGING_FLAG_EXEC`. -/
def pagingFlagExec : BitVec 64 := 1#64 <<< 2

/-- `PAGING_FLAG_GLOBAL`. -/
def pagingFlagGlobal : BitVec 64 := 1#64 <<< 3

/-- `PAGING_PROT_RW`. -/
def pagingProtRw : BitVec 64 := pagingFlagRead ||| pagingFlagWrite

/-- `PAGING_PROT_RWG`. -/
def pagingProtRwg : BitVec 64 := pagingProtRw ||| pagingFlagGlobal

/-- `paging_leaf_flags`. -/
def pagingLeafFlags (flags : BitVec 64) : BitVec 64 :=
  let pte := pteV ||| pteA
  let pte := if flags &&& pagingFlagRead ≠ 0#64 then pte ||| pteR else pte
  let pte :=
    if flags &&& pagingFlagWrite ≠ 0#64 then pte ||| (pteR ||| pteW ||| pteD) else pte
  let pte := if flags &&& pagingFlagExec ≠ 0#64 then pte ||| pteX else pte
  if flags &&& pagingFlagGlobal ≠ 0#64 then pte ||| pteG else pte

/-- `paging_pte_to_phys`. -/
def pagingPteToPhys (pte : BitVec 64) : BitVec 64 := (pte >>> 10) <<< 12

/-- `paging_table_pte`. -/
def pagingTablePte (physAddr : BitVec 64) : BitVec 64 :=
  ((physAddr >>> 12) <<< 10) ||| pteTableFlags

/-- `paging_level_shift`. -/
def pagingLevelShift (level : ℕ) : ℕ := 12 + level * 9

/-- `paging_level_block_size`. -/
def pagingLevelBlockSize (level : ℕ) : BitVec 64 := 1#64 <<< pagingLevelShift level

/-- `paging_level_index`. -/
def pagingLevelIndex (virtAddr : BitVec 64) (level : ℕ) : BitVec 64 :=
  (virtAddr >>> pagingLevelShift level) &&& 0x1ff#64

/-- `paging_entry_covers`. -/
def pagingEntryCovers (entry virtAddr physAddr flags : BitVec 64) (level : ℕ) : Bool :=
  let blockSize := pagingLevelBlockSize level
  let blockMask := blockSize - 1#64
  let mappedPhys := pagingPteToPhys entry + (virtAddr &&& blockMask)
  let want := pagingLeafFlags flags &&& (pteR ||| pteW ||| pteX)
  if entry &&& pteV = 0#64 then false
  else if mappedPhys ≠ physAddr then false
  else if entry &&& want ≠ want then false
  else if flags &&& pagingFlagWrite ≠ 0#64 ∧ entry &&& pteD = 0#64 then false
  else if entry &&& pteA = 0#64 then false
  else true

/-! ## The state -/

/-- The globals of `mm/paging.c`, with the memory manager and the memory. -/
structure Paging where
  /-- The memory manager. -/
  pmm : Pmm
  /-- The words of the physical pages. -/
  mem : ℕ → BitVec 9 → BitVec 64
  /-- `g_root_phys`. -/
  gRootPhys : BitVec 64
  /-- `g_levels`. -/
  gLevels : ℕ
  /-- `g_early_pt_pool_used`. -/
  gEarlyPtPoolUsed : ℕ

namespace Paging

/-- `table[index]`. -/
def load (B : Boot) (s : Paging) (table index : BitVec 64) : BitVec 64 :=
  s.mem (B.tablePage table) (index.setWidth 9)

/-- `table[index] = entry`. -/
def store (B : Boot) (s : Paging) (table index entry : BitVec 64) : Paging :=
  { s with mem := TableTree.write s.mem (B.tablePage table) (index.setWidth 9) entry }

/-- `memset(table, 0, PAGE_SIZE)`. -/
def memsetTable (B : Boot) (s : Paging) (table : BitVec 64) : Paging :=
  { s with mem := TableTree.fill s.mem (B.tablePage table) 0#64 }

/-- `paging_root_virt`. -/
def pagingRootVirt (B : Boot) (s : Paging) : BitVec 64 := physToVirt B.hhdm s.gRootPhys

/-- `paging_alloc_table`: the new table, or the null pointer. -/
def pagingAllocTable (B : Boot) (s : Paging) : Option (BitVec 64 × Paging) :=
  match if s.pmm.gPmmReady then s.pmm.pageAlloc 0 else some (none, s.pmm) with
  | none => none
  | some (some page, pmm) =>
    let physAddr := pmm.pfndbPageToPhys (some page)
    let table := physToVirt B.hhdm physAddr
    some (table, memsetTable B { s with pmm := pmm } table)
  | some (none, pmm) =>
    if s.gEarlyPtPoolUsed ≥ earlyPtPoolSize then some (0#64, { s with pmm := pmm })
    else
      let table := B.poolTable s.gEarlyPtPoolUsed
      some (table, memsetTable B
        { s with pmm := pmm, gEarlyPtPoolUsed := s.gEarlyPtPoolUsed + 1 } table)

/-- The first half of a turn of the loop of `paging_map_one`: the entry of the
table, after a new table has been put there if it was absent. `some none` says
that there was no new table to put. -/
def pagingFetch (B : Boot) (s : Paging) (table index : BitVec 64) :
    Option (Option (BitVec 64) × Paging) :=
  let entry := s.load B table index
  if entry &&& pteV = 0#64 then
    match s.pagingAllocTable B with
    | none => none
    | some (newTable, s) =>
      if newTable = 0#64 then some (none, s)
      else
        let newPhys := virtToPhys B.hhdm newTable
        let s := s.store B table index (pagingTablePte newPhys)
        some (some (s.load B table index), s)
  else some (some entry, s)

/-- `paging_map_one`, from the table of a level on. -/
def pagingMapLevel (B : Boot) (virtAddr physAddr flags : BitVec 64) :
    ℕ → BitVec 64 → Paging → Option (Bool × Paging)
  | 0, table, s =>
    let pageIndex := pagingLevelIndex virtAddr 0
    let entry := s.load B table pageIndex
    if entry &&& pteV ≠ 0#64 ∧ pagingEntryCovers entry virtAddr physAddr flags 0 then
      some (true, s)
    else
      some (true, s.store B table pageIndex
        (((physAddr >>> pageShift) <<< 10) ||| pagingLeafFlags flags))
  | level + 1, table, s =>
    match s.pagingFetch B table (pagingLevelIndex virtAddr (level + 1)) with
    | none => none
    | some (none, s) => some (false, s)
    | some (some entry, s) =>
      if entry &&& (pteR ||| pteW ||| pteX) ≠ 0#64 then
        some (pagingEntryCovers entry virtAddr physAddr flags (level + 1), s)
      else
        pagingMapLevel B virtAddr physAddr flags level
          (physToVirt B.hhdm (pagingPteToPhys entry)) s

/-- `paging_map_one`. -/
def pagingMapOne (B : Boot) (s : Paging) (root virtAddr physAddr flags : BitVec 64) :
    Option (Bool × Paging) :=
  pagingMapLevel B virtAddr physAddr flags (s.gLevels - 1) root s

/-- `paging_map_page`. -/
def pagingMapPage (B : Boot) (s : Paging) (virtAddr physAddr flags : BitVec 64) :
    Option (Bool × Paging) :=
  if virtAddr &&& (pageSize - 1#64) ≠ 0#64 ∨ physAddr &&& (pageSize - 1#64) ≠ 0#64
      ∨ s.gRootPhys = 0#64 then
    some (false, s)
  else s.pagingMapOne B (s.pagingRootVirt B) virtAddr physAddr flags

/-- The loop of `paging_map_range`. -/
def pagingMapRangeLoop (B : Boot) (last flags : BitVec 64) :
    ℕ → BitVec 64 → BitVec 64 → Paging → Option (Bool × Paging)
  | 0, _, _, _ => none
  | fuel + 1, virtAddr, physAddr, s =>
    if virtAddr < last then
      match s.pagingMapPage B virtAddr physAddr flags with
      | none => none
      | some (false, s) => some (false, s)
      | some (true, s) =>
        pagingMapRangeLoop B last flags fuel (virtAddr + pageSize) (physAddr + pageSize) s
    else some (true, s)

/-- `paging_map_range`. A turn maps a page, so the loop takes no more turns
than the range has pages, and one to leave. -/
def pagingMapRange (B : Boot) (s : Paging) (virtAddr physAddr size flags : BitVec 64) :
    Option (Bool × Paging) :=
  if size = 0#64 then some (true, s)
  else
    pagingMapRangeLoop B (virtAddr + pageAlignUp size) flags
      (physPfn (pageAlignUp size) + 1) virtAddr physAddr s

/-- `paging_map_mmio`. -/
def pagingMapMmio (B : Boot) (s : Paging) (physAddr size : BitVec 64) :
    Option (Bool × Paging) :=
  let start := pageAlignDown physAddr
  let last := pageAlignUp (physAddr + size)
  if size = 0#64 then some (false, s)
  else s.pagingMapRange B (physToVirt B.hhdm start) start (last - start) pagingProtRwg

end Paging
