import Risky.LinkedList
import Risky.Pfndb

/-!
# The physical memory manager

`mm/pmm.c`, function by function. The state is the page database with the
free lists and the counters on top of it; log messages are left out. A
function that dereferences a page pointer without testing it first returns
`none` when the pointer is null: that is a crash, not a refusal.
-/

/-- `PMM_MAX_ORDER`. -/
def pmmMaxOrder : ℕ := 10

/-- `struct pmm_free_list`. -/
structure PmmFreeList where
  /-- The first page of the list. -/
  head : Option ℕ
  /-- The number of pages, a 64-bit counter. -/
  count : ℕ
  deriving DecidableEq, Repr

/-- The globals of `mm/pmm.c`, over those of the page database. -/
structure Pmm extends Pfndb where
  /-- `g_free_lists`, by order. -/
  gFreeLists : ℕ → PmmFreeList
  /-- `g_free_pages`, a 64-bit counter. -/
  gFreePages : ℕ
  /-- `g_total_pages`, a 64-bit counter. -/
  gTotalPages : ℕ
  /-- `g_pmm_ready`. -/
  gPmmReady : Bool

namespace Pmm

/-- Write through a page pointer. -/
def modifyPage (s : Pmm) (page : ℕ) (f : Page → Page) : Pmm :=
  { s with pages := Function.update s.pages page (f (s.pages page)) }

/-- Write to the free list of an order. -/
def modifyList (s : Pmm) (order : ℕ) (f : PmmFreeList → PmmFreeList) : Pmm :=
  { s with gFreeLists := Function.update s.gFreeLists order (f (s.gFreeLists order)) }

/-- `pmm_prepare_page`. -/
def pmmPreparePage (s : Pmm) (page : ℕ) (flags : BitVec 32) (order : ℕ) : Pmm :=
  s.modifyPage page (pageSetState flags order)

/-- Write through a page pointer that the caller tests first. -/
def modifyPagePtr (s : Pmm) (page : Option ℕ) (f : Page → Page) : Pmm :=
  match page with
  | some page => s.modifyPage page f
  | none => s

/-- `pmm_list_push`. -/
def pmmListPush (s : Pmm) (order page : ℕ) : Pmm :=
  let s := s.modifyPage page pageResetLinks
  let s := s.modifyPage page (fun p => { p with next := (s.gFreeLists order).head })
  let s := s.modifyPagePtr (s.gFreeLists order).head (fun p => { p with prev := some page })
  s.modifyList order (fun l => { head := some page, count := (l.count + 1) % 2 ^ 64 })

/-- `pmm_list_remove`. -/
def pmmListRemove (s : Pmm) (order page : ℕ) : Pmm :=
  let s :=
    if (s.pages page).prev ≠ none then
      s.modifyPagePtr (s.pages page).prev (fun p => { p with next := (s.pages page).next })
    else s.modifyList order (fun l => { l with head := (s.pages page).next })
  let s := s.modifyPagePtr (s.pages page).next (fun p => { p with prev := (s.pages page).prev })
  let s := s.modifyPage page pageResetLinks
  s.modifyList order (fun l => { l with count := (l.count + 2 ^ 64 - 1) % 2 ^ 64 })

/-- `pmm_buddy_pfn`. -/
def pmmBuddyPfn (pfn order : ℕ) : ℕ := pfn ^^^ 2 ^ order

/-- The loop of `pmm_free_block`: merge upwards while the buddy is free, and
return the page and the order it ends at. The order grows with every turn, so
`pmmMaxOrder` turns are as many as there can be. -/
def pmmFreeBlockLoop : ℕ → Pmm → ℕ → ℕ → ℕ → Pmm × ℕ × ℕ
  | 0, s, page, _, order => (s, page, order)
  | fuel + 1, s, page, pfn, order =>
    if order + 1 < pmmMaxOrder then
      let buddyPfn := pmmBuddyPfn pfn order
      if buddyPfn > s.gMaxPfn then (s, page, order)
      else
        match s.pfndbGetPage buddyPfn with
        | none => (s, page, order)
        | some buddy =>
          if !pageFree (s.pages buddy) || (s.pages buddy).order != order then
            (s, page, order)
          else
            let s := s.pmmListRemove order buddy
            let lower := buddyPfn < pfn
            let pfn := if lower then buddyPfn else pfn
            let page := if lower then buddy else page
            let s := s.modifyPage page (fun p => { p with order := order + 1 })
            pmmFreeBlockLoop fuel s page pfn (order + 1)
    else (s, page, order)

/-- `pmm_free_block`. -/
def pmmFreeBlock (s : Pmm) (page : ℕ) : Pmm :=
  let (s, page, order) :=
    pmmFreeBlockLoop pmmMaxOrder s page (s.pfndbGetPfn (some page)) (s.pages page).order
  (s.pmmPreparePage page Page.FREE order).pmmListPush order page

/-- One turn of the first loop of `pmm_init`: a free frame becomes a used one
of order 0. -/
def pmmInitMark (s : Pmm) (pfn : ℕ) : Pmm :=
  match s.pfndbGetPage pfn with
  | none => s
  | some page =>
    let s := s.modifyPage page (fun p => { p with order := 0 })
    let s := s.modifyPage page pageResetLinks
    if pageFree (s.pages page) then
      let s := s.modifyPage page setPageUsed
      let s := s.modifyPage page clearPageFree
      { s with gTotalPages := (s.gTotalPages + 1) % 2 ^ 64 }
    else s

/-- One turn of the second loop of `pmm_init`: a used frame is freed. -/
def pmmInitFree (s : Pmm) (pfn : ℕ) : Pmm :=
  match s.pfndbGetPage pfn with
  | none => s
  | some page =>
    if !pageUsed (s.pages page) || pageReserved (s.pages page) then s
    else
      let s := { s with gFreePages := (s.gFreePages + 1) % 2 ^ 64 }
      s.pmmFreeBlock page

/-- `pmm_init`. -/
def pmmInit (s : Pmm) : Bool × Pmm :=
  if s.gPfndb = 0#64 then (false, s)
  else
    let s := { s with
      gFreeLists := fun _ => { head := none, count := 0 }
      gFreePages := 0
      gTotalPages := 0
      gPmmReady := false }
    let s := (List.range (s.gMaxPfn + 1)).foldl pmmInitMark s
    let s := (List.range (s.gMaxPfn + 1)).foldl pmmInitFree s
    (true, { s with gPmmReady := true })

/-- The inner loop of the two allocation functions: halve the block at `page`
down from order `current` to `order`, pushing each second half. -/
def pmmSplit (order page : ℕ) : ℕ → Pmm → Option Pmm
  | 0, s => some s
  | current + 1, s =>
    if current + 1 > order then
      match s.pfndbGetPage (s.pfndbGetPfn (some page) + 2 ^ current) with
      | none => none
      | some buddy =>
        pmmSplit order page current
          ((s.pmmPreparePage buddy Page.FREE current).pmmListPush current buddy)
    else some s

/-- The outer loop of the two allocation functions, from order `current` on:
take the head of the first list that has one. -/
def pmmTake (order : ℕ) : ℕ → ℕ → Pmm → Option (Option ℕ × Pmm)
  | 0, _, s => some (none, s)
  | fuel + 1, current, s =>
    if current < pmmMaxOrder then
      match (s.gFreeLists current).head with
      | none => pmmTake order fuel (current + 1) s
      | some page =>
        match pmmSplit order page current (s.pmmListRemove current page) with
        | none => none
        | some s =>
          let s := s.pmmPreparePage page Page.USED order
          some (some page,
            { s with gFreePages := (s.gFreePages + 2 ^ 64 - 2 ^ order) % 2 ^ 64 })
    else some (none, s)

/-- The common body of `pmm_alloc` and `page_alloc`: the page taken, or
`none` for a refusal. -/
def pmmAllocPage (s : Pmm) (order : ℕ) : Option (Option ℕ × Pmm) :=
  if s.gPmmReady = false then some (none, s)
  else if order ≥ pmmMaxOrder then some (none, s)
  else pmmTake order pmmMaxOrder order s

/-- `page_alloc`. -/
def pageAlloc (s : Pmm) (order : ℕ) : Option (Option ℕ × Pmm) := s.pmmAllocPage order

/-- `pmm_alloc`: the direct-map address of the page taken, or the null
pointer. -/
def pmmAlloc (hhdm : BitVec 64) (s : Pmm) (order : ℕ) : Option (BitVec 64 × Pmm) :=
  match s.pmmAllocPage order with
  | none => none
  | some (none, s) => some (0#64, s)
  | some (some page, s) => some (physToVirt hhdm (s.pfndbPageToPhys (some page)), s)

/-- `pmm_free`. -/
def pmmFree (hhdm : BitVec 64) (s : Pmm) (ptr : BitVec 64) : Pmm :=
  if s.gPmmReady = false then s
  else if ptr = 0#64 then s
  else
    match s.pfndbPhysToPage (virtToPhys hhdm ptr) with
    | none => s
    | some page =>
      if pageReserved (s.pages page) then s
      else if pageFree (s.pages page) then s
      else
        let s := { s with
          gFreePages := (s.gFreePages + 2 ^ (s.pages page).order) % 2 ^ 64 }
        s.pmmFreeBlock page

end Pmm
