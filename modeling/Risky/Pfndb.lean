import Risky.Page

/-!
# The page frame database

The globals of `mm/pfndb.c` and the conversions between frame numbers, page
pointers and physical addresses. The database is an array of page records
over the frames `0, …, g_max_pfn`.
-/

/-- The globals of `mm/pfndb.c`. -/
structure Pfndb where
  /-- `g_pfndb`: the address of the array, null while there is none. -/
  gPfndb : BitVec 64
  /-- `g_max_pfn`: the last frame of the array. -/
  gMaxPfn : ℕ
  /-- The records of the array. -/
  pages : ℕ → Page

namespace Pfndb

/-- `pfndb_get_page`, also called `pfn_to_page`. -/
def pfndbGetPage (db : Pfndb) (pfn : ℕ) : Option ℕ :=
  if db.gPfndb = 0#64 ∨ pfn > db.gMaxPfn then none else some pfn

/-- `pfndb_get_pfn`, also called `page_to_pfn`: all ones for a pointer that is
not into the array. -/
def pfndbGetPfn (db : Pfndb) : Option ℕ → ℕ
  | none => 2 ^ 64 - 1
  | some page =>
    if db.gPfndb = 0#64 then 2 ^ 64 - 1
    else if page > db.gMaxPfn then 2 ^ 64 - 1
    else page

/-- `pfndb_page_to_phys`, also called `page_to_phys`. -/
def pfndbPageToPhys (db : Pfndb) (page : Option ℕ) : BitVec 64 :=
  let pfn := db.pfndbGetPfn page
  if pfn = 2 ^ 64 - 1 then 0#64 else pfnPhys pfn

/-- `pfndb_phys_to_page`, also called `phys_to_page`. -/
def pfndbPhysToPage (db : Pfndb) (phys : BitVec 64) : Option ℕ :=
  let pfn := physPfn phys
  if pfn > db.gMaxPfn then none else db.pfndbGetPage pfn

variable {db : Pfndb} {pfn : ℕ}

theorem pfndbGetPage_of_le (h₀ : db.gPfndb ≠ 0#64) (h : pfn ≤ db.gMaxPfn) :
    db.pfndbGetPage pfn = some pfn :=
  if_neg (not_or.mpr ⟨h₀, not_lt.mpr h⟩)

theorem pfndbGetPfn_of_le (h₀ : db.gPfndb ≠ 0#64) (h : pfn ≤ db.gMaxPfn) :
    db.pfndbGetPfn (some pfn) = pfn := by
  unfold pfndbGetPfn
  dsimp only
  rw [if_neg h₀, if_neg (not_lt.mpr h)]

theorem pfndbPageToPhys_of_le (h₀ : db.gPfndb ≠ 0#64) (h : pfn ≤ db.gMaxPfn)
    (hmax : db.gMaxPfn < 2 ^ 52) : db.pfndbPageToPhys (some pfn) = pfnPhys pfn := by
  unfold pfndbPageToPhys
  rw [pfndbGetPfn_of_le h₀ h]
  exact if_neg (by omega)

theorem pfndbPhysToPage_of_le (h₀ : db.gPfndb ≠ 0#64) {phys : BitVec 64}
    (h : physPfn phys ≤ db.gMaxPfn) : db.pfndbPhysToPage phys = some (physPfn phys) := by
  unfold pfndbPhysToPage
  rw [if_neg (not_lt.mpr h), pfndbGetPage_of_le h₀ h]

theorem pfndbPhysToPage_of_gt {phys : BitVec 64} (h : db.gMaxPfn < physPfn phys) :
    db.pfndbPhysToPage phys = none :=
  if_pos h

end Pfndb
