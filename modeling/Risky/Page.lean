import Mathlib.Tactic

/-!
# Pages and addresses

The page record of `mm/page.h` with its flag accessors, the page-size
arithmetic of the same header, and the two address conversions of
`platform/generic/cpu.h`. Addresses are 64-bit words and wrap as the C
expressions do; a page frame number is a natural number, being an address
shifted down.

A `page_t *` is the index of the record in the page database, and the null
pointer is `none`.
-/

/-! ## Page-size arithmetic -/

/-- `PAGE_SHIFT`. -/
abbrev pageShift : ℕ := 12

/-- `PAGE_SIZE`. -/
abbrev pageSize : BitVec 64 := 1#64 <<< pageShift

/-- `PAGE_MASK`. -/
def pageMask : BitVec 64 := ~~~(pageSize - 1#64)

/-- `PAGE_ALIGN_DOWN`. -/
def pageAlignDown (addr : BitVec 64) : BitVec 64 := addr &&& pageMask

/-- `PAGE_ALIGN_UP`. -/
def pageAlignUp (addr : BitVec 64) : BitVec 64 := (addr + pageSize - 1#64) &&& pageMask

/-- `PHYS_PFN`. -/
def physPfn (addr : BitVec 64) : ℕ := (addr >>> pageShift).toNat

/-- `PFN_PHYS`. -/
def pfnPhys (pfn : ℕ) : BitVec 64 := BitVec.ofNat 64 pfn <<< pageShift

/-- `PHYS_TO_VIRT`, for the higher-half direct map at `hhdm`. -/
def physToVirt (hhdm phys : BitVec 64) : BitVec 64 := phys + hhdm

/-- `VIRT_TO_PHYS`. -/
def virtToPhys (hhdm virt : BitVec 64) : BitVec 64 := virt - hhdm

@[simp] theorem virtToPhys_physToVirt (hhdm phys : BitVec 64) :
    virtToPhys hhdm (physToVirt hhdm phys) = phys :=
  BitVec.add_sub_cancel _ _

@[simp] theorem physToVirt_virtToPhys (hhdm virt : BitVec 64) :
    physToVirt hhdm (virtToPhys hhdm virt) = virt :=
  BitVec.sub_add_cancel _ _

theorem physPfn_eq (addr : BitVec 64) : physPfn addr = addr.toNat / 2 ^ 12 := by
  unfold physPfn
  rw [BitVec.toNat_ushiftRight, Nat.shiftRight_eq_div_pow]

theorem toNat_pfnPhys (pfn : ℕ) : (pfnPhys pfn).toNat = pfn * 2 ^ 12 % 2 ^ 64 := by
  unfold pfnPhys
  rw [BitVec.toNat_shiftLeft, BitVec.toNat_ofNat, Nat.shiftLeft_eq, Nat.mod_mul_mod]

/-- **A frame number survives the trip through its address**, as long as the
address fits. -/
theorem physPfn_pfnPhys {pfn : ℕ} (h : pfn < 2 ^ 52) : physPfn (pfnPhys pfn) = pfn := by
  rw [physPfn_eq, toNat_pfnPhys]
  omega

/-- A page-aligned address is that of its frame. -/
theorem pfnPhys_physPfn {addr : BitVec 64} (h : addr.toNat % 2 ^ 12 = 0) :
    pfnPhys (physPfn addr) = addr := by
  refine BitVec.eq_of_toNat_eq ?_
  have hlt := addr.isLt
  rw [toNat_pfnPhys, physPfn_eq]
  omega

/-- The page mask clears the low bits. -/
theorem and_pageMask (addr : BitVec 64) : addr &&& pageMask = (addr >>> 12) <<< 12 := by
  have hmask : ∀ k < 64, pageMask.getLsbD k = decide (12 ≤ k) := by decide
  refine BitVec.eq_of_getLsbD_eq (fun k hk => ?_)
  rw [BitVec.getLsbD_and, BitVec.getLsbD_shiftLeft, BitVec.getLsbD_ushiftRight, hmask k hk]
  by_cases h : 12 ≤ k
  · simp [h, hk, Nat.add_sub_cancel' h]
  · simp [h, not_le.mp h]

theorem toNat_pageAlignDown (addr : BitVec 64) :
    (pageAlignDown addr).toNat = addr.toNat / 2 ^ 12 * 2 ^ 12 := by
  have hlt := addr.isLt
  rw [pageAlignDown, and_pageMask, BitVec.toNat_shiftLeft, BitVec.toNat_ushiftRight,
    Nat.shiftRight_eq_div_pow, Nat.shiftLeft_eq]
  omega

/-- **Rounding up to a page wraps around** near the end of the address
space. -/
theorem toNat_pageAlignUp (addr : BitVec 64) :
    (pageAlignUp addr).toNat = (addr.toNat + (2 ^ 12 - 1)) / 2 ^ 12 * 2 ^ 12 % 2 ^ 64 := by
  have hlt := addr.isLt
  have hsum : (addr + pageSize - 1#64).toNat = (addr.toNat + (2 ^ 12 - 1)) % 2 ^ 64 := by
    rw [BitVec.toNat_sub, BitVec.toNat_add]
    show (2 ^ 64 - 1 + (addr.toNat + 4096) % 2 ^ 64) % 2 ^ 64 = _
    omega
  rw [pageAlignUp, and_pageMask, BitVec.toNat_shiftLeft, BitVec.toNat_ushiftRight,
    Nat.shiftRight_eq_div_pow, Nat.shiftLeft_eq, hsum]
  omega

/-! ## Page records -/

/-- `struct page`. -/
structure Page where
  /-- The state flags. -/
  flags : BitVec 32
  /-- The order of the block the page heads. -/
  order : ℕ
  /-- The next page of the free list. -/
  next : Option ℕ
  /-- The previous page of the free list. -/
  prev : Option ℕ
  deriving DecidableEq, Repr

namespace Page

/-- `PAGE_FREE`. -/
def FREE : BitVec 32 := 1#32 <<< 0

/-- `PAGE_RESERVED`. -/
def RESERVED : BitVec 32 := 1#32 <<< 1

/-- `PAGE_USED`. -/
def USED : BitVec 32 := 1#32 <<< 2

end Page

/-- `page_has_flags`. -/
def pageHasFlags (p : Page) (flags : BitVec 32) : Bool := p.flags &&& flags != 0#32

/-- `page_set_flags`. -/
def pageSetFlags (flags : BitVec 32) (p : Page) : Page :=
  { p with flags := p.flags ||| flags }

/-- `page_clear_flags`. -/
def pageClearFlags (flags : BitVec 32) (p : Page) : Page :=
  { p with flags := p.flags &&& ~~~flags }

/-- `page_set_state`. -/
def pageSetState (flags : BitVec 32) (order : ℕ) (_ : Page) : Page :=
  { flags := flags, order := order, next := none, prev := none }

/-- `page_reset_links`. -/
def pageResetLinks (p : Page) : Page := { p with next := none, prev := none }

/-- `PageFree`. -/
def pageFree (p : Page) : Bool := pageHasFlags p Page.FREE

/-- `PageReserved`. -/
def pageReserved (p : Page) : Bool := pageHasFlags p Page.RESERVED

/-- `PageUsed`. -/
def pageUsed (p : Page) : Bool := pageHasFlags p Page.USED

/-- `SetPageUsed`. -/
def setPageUsed (p : Page) : Page := pageSetFlags Page.USED p

/-- `ClearPageFree`. -/
def clearPageFree (p : Page) : Page := pageClearFlags Page.FREE p

namespace Page

/-! The three states are told apart by any of the three accessors. -/

@[simp] theorem pageFree_of_free {p : Page} (h : p.flags = FREE) : pageFree p = true := by
  rw [pageFree, pageHasFlags, h]
  decide

@[simp] theorem pageFree_of_used {p : Page} (h : p.flags = USED) : pageFree p = false := by
  rw [pageFree, pageHasFlags, h]
  decide

@[simp] theorem pageFree_of_reserved {p : Page} (h : p.flags = RESERVED) :
    pageFree p = false := by
  rw [pageFree, pageHasFlags, h]
  decide

@[simp] theorem pageReserved_of_free {p : Page} (h : p.flags = FREE) :
    pageReserved p = false := by
  rw [pageReserved, pageHasFlags, h]
  decide

@[simp] theorem pageReserved_of_used {p : Page} (h : p.flags = USED) :
    pageReserved p = false := by
  rw [pageReserved, pageHasFlags, h]
  decide

@[simp] theorem pageReserved_of_reserved {p : Page} (h : p.flags = RESERVED) :
    pageReserved p = true := by
  rw [pageReserved, pageHasFlags, h]
  decide

@[simp] theorem pageUsed_of_free {p : Page} (h : p.flags = FREE) : pageUsed p = false := by
  rw [pageUsed, pageHasFlags, h]
  decide

@[simp] theorem pageUsed_of_used {p : Page} (h : p.flags = USED) : pageUsed p = true := by
  rw [pageUsed, pageHasFlags, h]
  decide

@[simp] theorem pageUsed_of_reserved {p : Page} (h : p.flags = RESERVED) :
    pageUsed p = false := by
  rw [pageUsed, pageHasFlags, h]
  decide

end Page
