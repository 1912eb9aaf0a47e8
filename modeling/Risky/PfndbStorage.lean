import Risky.PfndbInit

/-!
# Where `pfndb_init` finds its storage

`pfndb_init` takes the first usable entry that is as long as the storage which the
memory map requires, and cuts it short. Whether there was one it reads off the
physical address of the storage, where 0 stands for none. An entry at address 0 is
therefore cut short, but no database is established in it (`Pfndb.takesStorage_iff`).
-/

namespace Pfndb

variable {memmap : List LimineMemmapEntry} {entry : LimineMemmapEntry}

/-! ## The storage that is required -/

/-- The size of the storage, by `pfndb_calc_max_pfn` and `pfndb_storage_size`. -/
def storageSize (memmap : List LimineMemmapEntry) : BitVec 64 :=
  pfndbStorageSize
    { gPfndb := 0#64, gMaxPfn := memmap.foldl pfndbCalcMaxPfnTurn 0, pages := fun _ => zeroPage }

/-- **The size is the one required**: whole pages for the records of the frames below
`n`, where `n` is the first frame above all usable entries, or 1 if they are empty. -/
def IsRequired (memmap : List LimineMemmapEntry) (size : ℕ) : Prop :=
  ∃ n, 0 < n
    ∧ (∀ e ∈ memmap, e.type = limineMemmapUsable → e.base.toNat + e.length.toNat ≤ n * 2 ^ 12)
    ∧ (n = 1 ∨ ∃ e ∈ memmap, e.type = limineMemmapUsable
      ∧ e.base.toNat + e.length.toNat = n * 2 ^ 12)
    ∧ size = (n * sizeofPage + (2 ^ 12 - 1)) / 2 ^ 12 * 2 ^ 12

/-- Usable entries of whole pages, none of which wraps around. -/
def PageRanges (memmap : List LimineMemmapEntry) : Prop :=
  ∀ e ∈ memmap, e.type = limineMemmapUsable → e.base.toNat % 2 ^ 12 = 0
    ∧ e.length.toNat % 2 ^ 12 = 0 ∧ e.base.toNat + e.length.toNat < 2 ^ 64

/-- The maximum is the one before or that of an entry. -/
theorem foldl_pfndbCalcMaxPfnTurn_cases (gMaxPfn : ℕ) (memmap : List LimineMemmapEntry) :
    memmap.foldl pfndbCalcMaxPfnTurn gMaxPfn = gMaxPfn
      ∨ ∃ e ∈ memmap, e.type = limineMemmapUsable
        ∧ physPfn (pageAlignUp (e.base + e.length))
          = memmap.foldl pfndbCalcMaxPfnTurn gMaxPfn + 1 := by
  induction memmap generalizing gMaxPfn with
  | nil => exact Or.inl rfl
  | cons e entries ih =>
    rw [List.foldl_cons]
    rcases ih (pfndbCalcMaxPfnTurn gMaxPfn e) with heq | ⟨e', he', hrest⟩
    · rw [heq]
      unfold pfndbCalcMaxPfnTurn
      by_cases hu : e.type = limineMemmapUsable
      · rw [if_neg (not_not.mpr hu)]
        dsimp only
        split
        · next h =>
          exact Or.inr ⟨e, List.mem_cons_self, hu, (Nat.succ_pred_eq_of_ne_zero h.1).symm⟩
        · exact Or.inl rfl
      · exact Or.inl (if_pos hu)
    · exact Or.inr ⟨e', List.mem_cons_of_mem _ he', hrest⟩

/-- **The code computes the size that is required.** -/
theorem isRequired_storageSize (h : PageRanges memmap) :
    IsRequired memmap (storageSize memmap).toNat := by
  set n := memmap.foldl pfndbCalcMaxPfnTurn 0 with hn
  have hcases := foldl_pfndbCalcMaxPfnTurn_cases 0 memmap
  rw [← hn] at hcases
  have hlt : n < 2 ^ 52 := by
    rcases hcases with hzero | ⟨e, -, -, hend⟩
    · omega
    · have hphys := (pageAlignUp (e.base + e.length)).isLt
      rw [physPfn_eq] at hend
      omega
  refine ⟨n + 1, n.succ_pos, fun e he hu => ?_, ?_, toNat_pfndbStorageSize hlt⟩
  · obtain ⟨hbase, hlength, hend⟩ := h e he hu
    have hle := endPfn_le_foldl 0 he hu
    rw [endPfn_of_aligned hbase hlength hend] at hle
    omega
  · refine hcases.imp (fun hzero => by omega) ?_
    rintro ⟨e, he, hu, hmax⟩
    obtain ⟨hbase, hlength, hend⟩ := h e he hu
    rw [endPfn_of_aligned hbase hlength hend] at hmax
    exact ⟨e, he, hu, by omega⟩

/-! ## The entry that is taken -/

/-- **An entry that is long enough.** -/
def Fits (memmap : List LimineMemmapEntry) (entry : LimineMemmapEntry) : Prop :=
  entry.type = limineMemmapUsable ∧ storageSize memmap ≤ entry.length

instance (memmap : List LimineMemmapEntry) (entry : LimineMemmapEntry) :
    Decidable (Fits memmap entry) :=
  inferInstanceAs (Decidable (_ ∧ _))

/-- The first entry that is long enough. -/
def firstFit (memmap : List LimineMemmapEntry) : Option LimineMemmapEntry :=
  memmap.find? (fun e => Fits memmap e)

theorem pfndbReserveStorageLoop_cons (size : BitVec 64) (entry : LimineMemmapEntry)
    (entries : List LimineMemmapEntry) :
    pfndbReserveStorageLoop size (entry :: entries)
      = if entry.type = limineMemmapUsable ∧ size ≤ entry.length then
          (some entry.base, cut entry size :: entries)
        else ((pfndbReserveStorageLoop size entries).1,
          entry :: (pfndbReserveStorageLoop size entries).2) := by
  rw [pfndbReserveStorageLoop]
  by_cases h : entry.type = limineMemmapUsable ∧ size ≤ entry.length
  · have hfits : ¬ (entry.type ≠ limineMemmapUsable ∨ entry.length < size) := by
      rw [not_or, not_not, BitVec.not_lt]
      exact h
    rw [if_neg hfits, if_pos h]
    rfl
  · have hskip : entry.type ≠ limineMemmapUsable ∨ entry.length < size := by
      rw [← BitVec.not_le]
      exact not_and_or.mp h
    rw [if_pos hskip, if_neg h]

/-- **The loop takes the first entry that is long enough**, and leaves the map as it is
if there is none. -/
theorem pfndbReserveStorageLoop_eq (size : BitVec 64) (memmap : List LimineMemmapEntry) :
    (pfndbReserveStorageLoop size memmap).1
        = (memmap.find? (fun e => e.type = limineMemmapUsable ∧ size ≤ e.length)).map
          LimineMemmapEntry.base
      ∧ ((pfndbReserveStorageLoop size memmap).1 = none →
        (pfndbReserveStorageLoop size memmap).2 = memmap) := by
  induction memmap with
  | nil => exact ⟨rfl, fun _ => rfl⟩
  | cons e entries ih =>
    rw [pfndbReserveStorageLoop_cons, List.find?_cons]
    by_cases h : e.type = limineMemmapUsable ∧ size ≤ e.length
    · rw [if_pos h, decide_eq_true h]
      exact ⟨rfl, fun hnone => absurd hnone (by simp)⟩
    · rw [if_neg h, decide_eq_false h]
      exact ⟨ih.1, fun hnone => congrArg (e :: ·) (ih.2 hnone)⟩

section Boot

variable {pages : ℕ → Page} {hhdm : BitVec 64}

/-- Without an entry that is long enough nothing is changed. -/
theorem pfndbInit_of_firstFit_none (pages : ℕ → Page) (hhdm : BitVec 64)
    (h : firstFit memmap = none) :
    (pfndbInit (bootGlobals pages) (some hhdm) (some memmap)).1.gPfndb = 0#64
      ∧ (pfndbInit (bootGlobals pages) (some hhdm) (some memmap)).2 = some memmap := by
  obtain ⟨hphys, hmap⟩ := pfndbReserveStorageLoop_eq (storageSize memmap) memmap
  have hnone : (pfndbReserveStorageLoop (storageSize memmap) memmap).1 = none := by
    rw [hphys]
    exact congrArg (Option.map _) h
  rw [pfndbInit_of_none rfl (Prod.ext hnone (hmap hnone))]
  exact ⟨rfl, rfl⟩

/-- **The address of the database** is that of the first entry, unless this is at
address 0. -/
theorem gPfndb_of_firstFit (h : firstFit memmap = some entry) :
    (pfndbInit (bootGlobals pages) (some hhdm) (some memmap)).1.gPfndb
      = if entry.base = 0#64 then 0#64 else physToVirt hhdm entry.base := by
  have hphys : (pfndbReserveStorageLoop (storageSize memmap) memmap).1 = some entry.base := by
    rw [(pfndbReserveStorageLoop_eq (storageSize memmap) memmap).1]
    exact congrArg (Option.map _) h
  by_cases hzero : entry.base = 0#64
  · rw [if_pos hzero]
    rw [hzero] at hphys
    exact pfndbInit_of_zero (Prod.ext hphys rfl)
  · rw [if_neg hzero, pfndbInit_of_some hzero (Prod.ext hphys rfl)]
    exact gPfndb_foldl_pfndbInitTurn _ _

/-- **What is asked of `pfndb_init`**: it establishes the database exactly if some
entry is long enough, and leaves the memory map as it was otherwise. -/
def TakesStorage (pages : ℕ → Page) (hhdm : BitVec 64) (memmap : List LimineMemmapEntry) :
    Prop :=
  ((pfndbInit (bootGlobals pages) (some hhdm) (some memmap)).1.gPfndb ≠ 0#64
      ↔ ∃ e ∈ memmap, Fits memmap e)
    ∧ ((pfndbInit (bootGlobals pages) (some hhdm) (some memmap)).1.gPfndb = 0#64 →
      (pfndbInit (bootGlobals pages) (some hhdm) (some memmap)).2 = some memmap)

/-- **`pfndb_init` does so exactly if the first entry that is long enough**, if there is
one, **does not start at address 0**, physical or virtual. -/
theorem takesStorage_iff (pages : ℕ → Page) (hhdm : BitVec 64)
    (memmap : List LimineMemmapEntry) :
    (TakesStorage pages hhdm memmap
        ↔ ∀ e, firstFit memmap = some e → e.base ≠ 0#64 ∧ physToVirt hhdm e.base ≠ 0#64)
      ∧ (PageRanges memmap → IsRequired memmap (storageSize memmap).toNat) := by
  refine ⟨?_, isRequired_storageSize⟩
  unfold TakesStorage
  cases hfit : firstFit memmap with
  | none =>
    obtain ⟨hdb, hmap⟩ := pfndbInit_of_firstFit_none pages hhdm hfit
    have hnone : ¬ ∃ e ∈ memmap, Fits memmap e := by
      rintro ⟨e, he, hfits⟩
      exact List.find?_eq_none.mp hfit e he (decide_eq_true hfits)
    exact iff_of_true ⟨iff_of_false (not_not_intro hdb) hnone, fun _ => hmap⟩
      (fun e he => absurd he (by simp))
  | some e =>
    have hsome : ∃ e ∈ memmap, Fits memmap e := by
      have hfits := List.find?_some (p := fun e => decide (Fits memmap e)) hfit
      exact ⟨e, List.mem_of_find?_eq_some hfit, of_decide_eq_true hfits⟩
    -- the address 0 is taken for "no storage", whether it is physical or virtual
    have hdb : (pfndbInit (bootGlobals pages) (some hhdm) (some memmap)).1.gPfndb ≠ 0#64
        ↔ e.base ≠ 0#64 ∧ physToVirt hhdm e.base ≠ 0#64 := by
      rw [gPfndb_of_firstFit hfit]
      by_cases hzero : e.base = 0#64
      · rw [if_pos hzero]
        exact iff_of_false (not_not_intro rfl) (fun h => h.1 hzero)
      · rw [if_neg hzero]
        exact (and_iff_right hzero).symm
    constructor
    · rintro ⟨htakes, -⟩ e' he'
      cases he'
      exact hdb.mp (htakes.mpr hsome)
    · intro h
      have hne := hdb.mpr (h e rfl)
      exact ⟨iff_of_true hne hsome, fun hzero => absurd hzero hne⟩

end Boot

theorem takesStorage_iff_threeFrames :
    TakesStorage (fun _ => zeroPage) Pmm.lowestHhdm Pmm.threeFrames
      ∧ IsRequired Pmm.threeFrames 4096 := by
  obtain ⟨hiff, hrequired⟩ := takesStorage_iff (fun _ => zeroPage) Pmm.lowestHhdm Pmm.threeFrames
  refine ⟨hiff.mpr ?_, hrequired ?_⟩
  · rintro e he
    obtain rfl : _ = e := Option.some.inj he
    decide
  · intro e he hu
    have hentry := Pmm.bootMap_threeFrames.usable e he hu
    exact ⟨hentry.base_aligned, hentry.length_aligned,
      lt_of_le_of_lt hentry.end_le (by norm_num)⟩

/-- A memory map with four usable frames at address 0. -/
def lowFrames : List LimineMemmapEntry :=
  [{ base := 0#64, length := 0x4000#64, type := limineMemmapUsable }]

/-- **The only usable entry is at address 0**: it is long enough and is cut short, and
yet there is no database. -/
theorem not_takesStorage_lowFrames :
    BootMap lowFrames ∧ firstFit lowFrames = lowFrames.head?
      ∧ (pfndbInit (bootGlobals (fun _ => zeroPage)) (some Pmm.lowestHhdm)
        (some lowFrames)).1.gPfndb = 0#64
      ∧ (pfndbInit (bootGlobals (fun _ => zeroPage)) (some Pmm.lowestHhdm) (some lowFrames)).2
        = some [{ base := 0x1000#64, length := 0x3000#64, type := limineMemmapUsable }]
      ∧ ¬ TakesStorage (fun _ => zeroPage) Pmm.lowestHhdm lowFrames := by
  have hdb : (pfndbInit (bootGlobals (fun _ => zeroPage)) (some Pmm.lowestHhdm)
      (some lowFrames)).1.gPfndb = 0#64 := rfl
  have hmap : (pfndbInit (bootGlobals (fun _ => zeroPage)) (some Pmm.lowestHhdm)
      (some lowFrames)).2
      = some [{ base := 0x1000#64, length := 0x3000#64, type := limineMemmapUsable }] := rfl
  have hboot : BootMap lowFrames :=
    ⟨List.forall_mem_singleton.mpr (fun _ => ⟨rfl, rfl, by decide⟩), List.pairwise_singleton _ _⟩
  refine ⟨hboot, rfl, hdb, hmap, fun h => ?_⟩
  have hleft := h.2 hdb
  rw [hmap] at hleft
  exact absurd hleft (by decide)

end Pfndb
