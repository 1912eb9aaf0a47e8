import Risky.PmmRuns

/-!
# What `pfndb_init` builds

`pfndb_init` reads the memory map twice. The first reading finds the last
usable frame, which fixes how large the database has to be; a usable entry
that is large enough is then cut short by that much, and the second reading –
over the map as the cut left it – marks the usable frames free. A frame is
therefore free exactly when it was usable before and does not hold the
database (`Pfndb.pfndbInit_spec`), and the allocator above hands out no other.
-/

/-- `LIMINE_MEMMAP_USABLE`. -/
abbrev limineMemmapUsable : BitVec 64 := 0#64

/-- `struct limine_memmap_entry`. -/
structure LimineMemmapEntry where
  /-- The first byte of the entry. -/
  base : BitVec 64
  /-- The bytes it has. -/
  length : BitVec 64
  /-- What it may be used for. -/
  type : BitVec 64
  deriving DecidableEq, Repr

/-- The globals of `mm/pfndb.c`, with the physical address of the array. -/
structure PfndbGlobals extends Pfndb where
  /-- `g_pfndb_phys`. -/
  gPfndbPhys : BitVec 64

/-- `sizeof(page_t)`. -/
abbrev sizeofPage : ℕ := 24

namespace Pfndb

/-- `pfndb_storage_size`. -/
def pfndbStorageSize (db : Pfndb) : BitVec 64 :=
  pageAlignUp (BitVec.ofNat 64 ((db.gMaxPfn + 1) * sizeofPage))

/-- One turn of the loop of `pfndb_calc_max_pfn`. -/
def pfndbCalcMaxPfnTurn (gMaxPfn : ℕ) (entry : LimineMemmapEntry) : ℕ :=
  if entry.type ≠ limineMemmapUsable then gMaxPfn
  else
    let endPfn := physPfn (pageAlignUp (entry.base + entry.length))
    if endPfn ≠ 0 ∧ endPfn - 1 > gMaxPfn then endPfn - 1 else gMaxPfn

/-- `pfndb_calc_max_pfn`. -/
def pfndbCalcMaxPfn (g : PfndbGlobals) (memmap : List LimineMemmapEntry) : PfndbGlobals :=
  { g with gMaxPfn := memmap.foldl pfndbCalcMaxPfnTurn 0 }

/-- The loop of `pfndb_reserve_storage`: the base of the first usable entry of
at least `size` bytes, which is cut short by that much. -/
def pfndbReserveStorageLoop (size : BitVec 64) :
    List LimineMemmapEntry → Option (BitVec 64) × List LimineMemmapEntry
  | [] => (none, [])
  | entry :: entries =>
    if entry.type ≠ limineMemmapUsable ∨ entry.length < size then
      let (phys, entries) := pfndbReserveStorageLoop size entries
      (phys, entry :: entries)
    else
      (some entry.base,
        { entry with base := entry.base + size, length := entry.length - size } :: entries)

/-- `pfndb_reserve_storage`. -/
def pfndbReserveStorage (g : PfndbGlobals) (memmap : List LimineMemmapEntry) :
    PfndbGlobals × List LimineMemmapEntry :=
  match pfndbReserveStorageLoop g.pfndbStorageSize memmap with
  | (some phys, memmap) => ({ g with gPfndbPhys := phys }, memmap)
  | (none, memmap) => (g, memmap)

/-- Write to the record of a frame. -/
def setPage (db : Pfndb) (pfn : ℕ) (f : Page → Page) : Pfndb :=
  { db with pages := Function.update db.pages pfn (f (db.pages pfn)) }

/-- `pfndb_mark_range`. -/
def pfndbMarkRange (base length : BitVec 64) (flags : BitVec 32) (db : Pfndb) : Pfndb :=
  let startPfn := physPfn base
  let endPfn := physPfn (pageAlignUp (base + length))
  if db.gPfndb = 0#64 ∨ length = 0#64 then db
  else if startPfn > db.gMaxPfn then db
  else
    let endPfn := if endPfn > db.gMaxPfn + 1 then db.gMaxPfn + 1 else endPfn
    (List.range' startPfn (endPfn - startPfn)).foldl
      (fun db pfn => db.setPage pfn (pageSetState flags 0)) db

/-- A record of zero bytes. -/
def zeroPage : Page := { flags := 0#32, order := 0, next := none, prev := none }

/-- `memset(g_pfndb, 0, pfndb_storage_size())`, on the records that lie in the
storage. -/
def clear (db : Pfndb) : Pfndb :=
  { db with pages := fun pfn =>
      if (pfn + 1) * sizeofPage ≤ db.pfndbStorageSize.toNat then zeroPage else db.pages pfn }

/-- One turn of the last loop of `pfndb_init`. -/
def pfndbInitTurn (db : Pfndb) (entry : LimineMemmapEntry) : Pfndb :=
  if entry.type = limineMemmapUsable then
    pfndbMarkRange entry.base entry.length Page.FREE db
  else db

/-- `pfndb_init`, for the memory map and the direct map the boot loader
reports, if it does. It writes to the memory map. -/
def pfndbInit (g : PfndbGlobals) (hhdm : Option (BitVec 64))
    (memmap : Option (List LimineMemmapEntry)) :
    PfndbGlobals × Option (List LimineMemmapEntry) :=
  match memmap with
  | none => (g, none)
  | some memmap =>
    match hhdm with
    | none => (g, some memmap)
    | some hhdm =>
      let (g, memmap) := pfndbReserveStorage (pfndbCalcMaxPfn g memmap) memmap
      if g.gPfndbPhys = 0#64 then (g, some memmap)
      else
        let db : Pfndb := { g.toPfndb with gPfndb := physToVirt hhdm g.gPfndbPhys }
        let db := db.clear
        let db := (List.range (db.gMaxPfn + 1)).foldl
          (fun db pfn => db.setPage pfn (pageSetState Page.RESERVED 0)) db
        let db := memmap.foldl pfndbInitTurn db
        ({ db with gPfndbPhys := g.gPfndbPhys }, some memmap)

/-! ## The frames of the memory map -/

/-- **A frame of an entry**, its bytes all inside. -/
def EntryFrame (entry : LimineMemmapEntry) (pfn : ℕ) : Prop :=
  entry.base.toNat ≤ pfn * 2 ^ 12
    ∧ (pfn + 1) * 2 ^ 12 ≤ entry.base.toNat + entry.length.toNat

instance (entry : LimineMemmapEntry) (pfn : ℕ) : Decidable (EntryFrame entry pfn) :=
  inferInstanceAs (Decidable (_ ∧ _))

/-- A frame of a usable entry. -/
def UsableFrame (memmap : List LimineMemmapEntry) (pfn : ℕ) : Prop :=
  ∃ entry ∈ memmap, entry.type = limineMemmapUsable ∧ EntryFrame entry pfn

instance (memmap : List LimineMemmapEntry) (pfn : ℕ) : Decidable (UsableFrame memmap pfn) :=
  List.decidableBEx _ _

/-- A frame of the database's own storage. -/
def StorageFrame (g : PfndbGlobals) (pfn : ℕ) : Prop :=
  g.gPfndbPhys.toNat ≤ pfn * 2 ^ 12
    ∧ pfn * 2 ^ 12 < g.gPfndbPhys.toNat + g.pfndbStorageSize.toNat

/-- A usable entry as the boot loader reports it: whole pages below `2 ^ 56`. -/
structure UsableEntry (entry : LimineMemmapEntry) : Prop where
  base_aligned : entry.base.toNat % 2 ^ 12 = 0
  length_aligned : entry.length.toNat % 2 ^ 12 = 0
  end_le : entry.base.toNat + entry.length.toNat ≤ 2 ^ 56

/-- **A memory map as the boot loader reports it**: the usable entries are
whole pages below `2 ^ 56` and do not overlap. Nothing is asked of the
others. -/
structure BootMap (memmap : List LimineMemmapEntry) : Prop where
  usable : ∀ entry ∈ memmap, entry.type = limineMemmapUsable → UsableEntry entry
  disjoint : memmap.Pairwise (fun entry entry' => entry.type = limineMemmapUsable →
    entry'.type = limineMemmapUsable → ∀ pfn, EntryFrame entry pfn → ¬ EntryFrame entry' pfn)

/-- **What is to hold of an established database**, against the memory map as
it was before. -/
structure Established (memmap : List LimineMemmapEntry) (g : PfndbGlobals) : Prop where
  /-- The storage is page aligned, -/
  storage_aligned : g.gPfndbPhys.toNat % 2 ^ 12 = 0
  /-- has room for every record, -/
  storage_fits : (g.gMaxPfn + 1) * sizeofPage ≤ g.pfndbStorageSize.toNat
  /-- and lies inside one usable entry. -/
  storage_usable : ∃ entry ∈ memmap, entry.type = limineMemmapUsable
    ∧ entry.base.toNat ≤ g.gPfndbPhys.toNat
    ∧ g.gPfndbPhys.toNat + g.pfndbStorageSize.toNat
      ≤ entry.base.toNat + entry.length.toNat
  /-- The usable frames that do not hold the database are free, -/
  free_iff : ∀ pfn ≤ g.gMaxPfn, (g.pages pfn).flags = Page.FREE
    ↔ UsableFrame memmap pfn ∧ ¬ StorageFrame g pfn
  /-- and all other frames are reserved. -/
  reserved : ∀ pfn ≤ g.gMaxPfn, ¬ (UsableFrame memmap pfn ∧ ¬ StorageFrame g pfn) →
    (g.pages pfn).flags = Page.RESERVED
  /-- The database covers the usable frames. -/
  covers : ∀ pfn, UsableFrame memmap pfn → pfn ≤ g.gMaxPfn

variable {memmap : List LimineMemmapEntry} {g : PfndbGlobals} {entry : LimineMemmapEntry}
  {pfn : ℕ}

/-- The frame after an entry of whole pages, as the code computes it, unless its end
wraps around. -/
theorem endPfn_of_aligned (hbase : entry.base.toNat % 2 ^ 12 = 0)
    (hlength : entry.length.toNat % 2 ^ 12 = 0)
    (hend : entry.base.toNat + entry.length.toNat < 2 ^ 64) :
    physPfn (pageAlignUp (entry.base + entry.length))
      = (entry.base.toNat + entry.length.toNat) / 2 ^ 12 := by
  rw [physPfn_eq, toNat_pageAlignUp, BitVec.toNat_add, Nat.mod_eq_of_lt hend]
  omega

namespace UsableEntry

theorem endPfn_eq (h : UsableEntry entry) :
    physPfn (pageAlignUp (entry.base + entry.length))
      = (entry.base.toNat + entry.length.toNat) / 2 ^ 12 :=
  endPfn_of_aligned h.base_aligned h.length_aligned (lt_of_le_of_lt h.end_le (by norm_num))

/-- The frames of a usable entry, by number. -/
theorem entryFrame_iff (h : UsableEntry entry) :
    EntryFrame entry pfn ↔ physPfn entry.base ≤ pfn
      ∧ pfn < physPfn (pageAlignUp (entry.base + entry.length)) := by
  have h₁ := h.base_aligned
  have h₂ := h.length_aligned
  rw [h.endPfn_eq, physPfn_eq]
  unfold EntryFrame
  omega

end UsableEntry

/-! ## The last usable frame -/

theorem le_pfndbCalcMaxPfnTurn (gMaxPfn : ℕ) (entry : LimineMemmapEntry) :
    gMaxPfn ≤ pfndbCalcMaxPfnTurn gMaxPfn entry := by
  unfold pfndbCalcMaxPfnTurn
  dsimp only
  split
  · exact le_rfl
  · split
    · next h => exact h.2.le
    · exact le_rfl

theorem le_foldl_pfndbCalcMaxPfnTurn (memmap : List LimineMemmapEntry) (gMaxPfn : ℕ) :
    gMaxPfn ≤ memmap.foldl pfndbCalcMaxPfnTurn gMaxPfn := by
  induction memmap generalizing gMaxPfn with
  | nil => exact le_rfl
  | cons entry entries ih => exact (le_pfndbCalcMaxPfnTurn gMaxPfn entry).trans (ih _)

/-- **No usable frame exceeds the maximum.** -/
theorem endPfn_le_foldl (gMaxPfn : ℕ) (hmem : entry ∈ memmap)
    (hu : entry.type = limineMemmapUsable) :
    physPfn (pageAlignUp (entry.base + entry.length))
      ≤ memmap.foldl pfndbCalcMaxPfnTurn gMaxPfn + 1 := by
  induction memmap generalizing gMaxPfn with
  | nil => exact absurd hmem List.not_mem_nil
  | cons e entries ih =>
    rcases List.mem_cons.mp hmem with rfl | hmem
    · have hturn : physPfn (pageAlignUp (entry.base + entry.length))
          ≤ pfndbCalcMaxPfnTurn gMaxPfn entry + 1 := by
        unfold pfndbCalcMaxPfnTurn
        rw [if_neg (not_not.mpr hu)]
        dsimp only
        split <;> omega
      exact hturn.trans (Nat.succ_le_succ (le_foldl_pfndbCalcMaxPfnTurn entries _))
    · exact ih _ hmem

/-- The maximum is a frame below `2 ^ 44`. -/
theorem foldl_pfndbCalcMaxPfnTurn_lt (gMaxPfn : ℕ) (h₀ : gMaxPfn < 2 ^ 44)
    (h : ∀ entry ∈ memmap, entry.type = limineMemmapUsable → UsableEntry entry) :
    memmap.foldl pfndbCalcMaxPfnTurn gMaxPfn < 2 ^ 44 := by
  induction memmap generalizing gMaxPfn with
  | nil => exact h₀
  | cons entry entries ih =>
    refine ih _ ?_ (fun e he => h e (List.mem_cons_of_mem _ he))
    unfold pfndbCalcMaxPfnTurn
    by_cases hu : entry.type = limineMemmapUsable
    · have hentry := h entry List.mem_cons_self hu
      have hend := hentry.end_le
      rw [if_neg (not_not.mpr hu), hentry.endPfn_eq]
      dsimp only
      split <;> omega
    · rw [if_pos hu]
      exact h₀

/-! ## The storage -/

/-- The storage is whole pages, as many as the records need. -/
theorem toNat_pfndbStorageSize {db : Pfndb} (h : db.gMaxPfn < 2 ^ 52) :
    db.pfndbStorageSize.toNat
      = ((db.gMaxPfn + 1) * sizeofPage + (2 ^ 12 - 1)) / 2 ^ 12 * 2 ^ 12 := by
  have key : ∀ n < 2 ^ 60, (n % 2 ^ 64 + (2 ^ 12 - 1)) / 2 ^ 12 * 2 ^ 12 % 2 ^ 64
      = (n + (2 ^ 12 - 1)) / 2 ^ 12 * 2 ^ 12 := by
    intro n hn
    omega
  unfold pfndbStorageSize
  rw [toNat_pageAlignUp, BitVec.toNat_ofNat]
  exact key _ (by show (db.gMaxPfn + 1) * 24 < 2 ^ 60; omega)

/-- What is left of an entry that is cut short at its start. -/
def cut (entry : LimineMemmapEntry) (size : BitVec 64) : LimineMemmapEntry :=
  { entry with base := entry.base + size, length := entry.length - size }

/-- **The entry that is cut short**, with the entries before and after it. -/
theorem pfndbReserveStorageLoop_spec {size phys : BitVec 64}
    {memmap' : List LimineMemmapEntry}
    (h : pfndbReserveStorageLoop size memmap = (some phys, memmap')) :
    ∃ before entry after, memmap = before ++ entry :: after
      ∧ memmap' = before ++ cut entry size :: after
      ∧ entry.type = limineMemmapUsable ∧ size ≤ entry.length ∧ phys = entry.base := by
  induction memmap generalizing memmap' with
  | nil => exact absurd (congrArg Prod.fst h) (by simp [pfndbReserveStorageLoop])
  | cons e entries ih =>
    unfold pfndbReserveStorageLoop at h
    split at h
    · obtain ⟨hphys, hmemmap⟩ := Prod.mk.inj h
      obtain ⟨before, entry, after, h₁, h₂, h₃⟩ := ih (Prod.ext hphys rfl)
      refine ⟨e :: before, entry, after, by rw [h₁]; rfl, ?_, h₃⟩
      exact hmemmap.symm.trans (congrArg (e :: ·) h₂)
    · next hskip =>
      obtain ⟨hu, hsize⟩ := not_or.mp hskip
      obtain ⟨hphys, hmemmap⟩ := Prod.mk.inj h
      exact ⟨[], e, entries, rfl, hmemmap.symm, not_not.mp hu, BitVec.not_lt.mp hsize,
        (Option.some.inj hphys).symm⟩

section Cut

variable {size : BitVec 64}

theorem toNat_cut_base (hend : entry.base.toNat + entry.length.toNat ≤ 2 ^ 56)
    (hsize : size ≤ entry.length) :
    (cut entry size).base.toNat = entry.base.toNat + size.toNat := by
  have h₁ : size.toNat ≤ entry.length.toNat := hsize
  show (entry.base + size).toNat = _
  rw [BitVec.toNat_add]
  exact Nat.mod_eq_of_lt (lt_of_le_of_lt (by omega : _ ≤ 2 ^ 56) (by norm_num))

theorem toNat_cut_length (hsize : size ≤ entry.length) :
    (cut entry size).length.toNat = entry.length.toNat - size.toNat :=
  BitVec.toNat_sub_of_le hsize

/-- **An entry that is cut by whole pages is still one**, and ends where it
did. -/
theorem UsableEntry.cut (h : UsableEntry entry) (hsize : size ≤ entry.length)
    (haligned : size.toNat % 2 ^ 12 = 0) :
    UsableEntry (cut entry size)
      ∧ (Pfndb.cut entry size).base.toNat + (Pfndb.cut entry size).length.toNat
        = entry.base.toNat + entry.length.toNat := by
  have h₁ : size.toNat ≤ entry.length.toNat := hsize
  have hb := toNat_cut_base h.end_le hsize
  have hl := toNat_cut_length hsize
  have hbase := h.base_aligned
  have hlength := h.length_aligned
  have hend := h.end_le
  refine ⟨⟨?_, ?_, ?_⟩, ?_⟩
  all_goals omega

/-- The frames that are left are those not in the part that is cut off. -/
theorem entryFrame_cut_iff (h : UsableEntry entry) (hsize : size ≤ entry.length)
    (haligned : size.toNat % 2 ^ 12 = 0) (pfn : ℕ) :
    EntryFrame (cut entry size) pfn ↔ EntryFrame entry pfn
      ∧ ¬ (entry.base.toNat ≤ pfn * 2 ^ 12
        ∧ pfn * 2 ^ 12 < entry.base.toNat + size.toNat) := by
  have h₁ : size.toNat ≤ entry.length.toNat := hsize
  have hb := toNat_cut_base h.end_le hsize
  have hl := toNat_cut_length hsize
  have hbase := h.base_aligned
  unfold EntryFrame
  omega

end Cut

/-- **The memory map that is left** has the entries there were, one of them
cut short. -/
theorem mem_pfndbReserveStorageLoop {size : BitVec 64}
    (h : entry ∈ (pfndbReserveStorageLoop size memmap).2) :
    entry ∈ memmap ∨ ∃ e ∈ memmap, size ≤ e.length ∧ entry = cut e size := by
  induction memmap with
  | nil => exact absurd h List.not_mem_nil
  | cons e entries ih =>
    unfold pfndbReserveStorageLoop at h
    split at h
    · rcases List.mem_cons.mp h with rfl | h
      · exact Or.inl List.mem_cons_self
      · exact (ih h).imp (List.mem_cons_of_mem _)
          (fun ⟨e', he', hrest⟩ => ⟨e', List.mem_cons_of_mem _ he', hrest⟩)
    · next hskip =>
      rcases List.mem_cons.mp h with rfl | h
      · exact Or.inr ⟨e, List.mem_cons_self, BitVec.not_lt.mp (not_or.mp hskip).2, rfl⟩
      · exact Or.inl (List.mem_cons_of_mem _ h)

theorem mem_pfndbInit {g₀ : PfndbGlobals} {response : Option (BitVec 64)}
    {memmap' : List LimineMemmapEntry}
    (hrun : (pfndbInit g₀ response (some memmap)).2 = some memmap') (h : entry ∈ memmap') :
    entry ∈ memmap ∨ ∃ e ∈ memmap, ∃ size, size ≤ e.length ∧ entry = cut e size := by
  have key : ∀ size, memmap' = (pfndbReserveStorageLoop size memmap).2 →
      entry ∈ memmap ∨ ∃ e ∈ memmap, ∃ size, size ≤ e.length ∧ entry = cut e size := by
    rintro size rfl
    exact (mem_pfndbReserveStorageLoop h).imp_right
      (fun ⟨e, he, hrest⟩ => ⟨e, he, size, hrest⟩)
  unfold pfndbInit at hrun
  cases response with
  | none =>
    cases hrun
    exact Or.inl h
  | some hhdm =>
    dsimp only at hrun
    have hres : (pfndbReserveStorage (pfndbCalcMaxPfn g₀ memmap) memmap).2
        = (pfndbReserveStorageLoop (pfndbCalcMaxPfn g₀ memmap).pfndbStorageSize memmap).2 := by
      unfold pfndbReserveStorage
      rcases pfndbReserveStorageLoop (pfndbCalcMaxPfn g₀ memmap).pfndbStorageSize memmap with
        ⟨_ | _, _⟩ <;> rfl
    split at hrun <;> cases hrun <;> exact key _ hres

/-! ## Marking -/

/-- The database with the records of some frames written. -/
def markFrames (db : Pfndb) (flags : BitVec 32) (frames : ℕ → Prop) [DecidablePred frames] : Pfndb :=
  { db with pages := fun pfn =>
      if frames pfn then pageSetState flags 0 zeroPage else db.pages pfn }

theorem markFrames_congr (db : Pfndb) (flags : BitVec 32) {frames frames' : ℕ → Prop}
    [DecidablePred frames] [DecidablePred frames'] (h : ∀ pfn, frames pfn ↔ frames' pfn) :
    db.markFrames flags frames = db.markFrames flags frames' := by
  unfold markFrames
  simp only [h]

theorem markFrames_of_not (db : Pfndb) (flags : BitVec 32) {frames : ℕ → Prop}
    [DecidablePred frames] (h : ∀ pfn, ¬ frames pfn) : db.markFrames flags frames = db := by
  unfold markFrames
  simp only [h, if_false]

theorem markFrames_markFrames (db : Pfndb) (flags : BitVec 32) (frames frames' : ℕ → Prop)
    [DecidablePred frames] [DecidablePred frames'] :
    (db.markFrames flags frames).markFrames flags frames'
      = db.markFrames flags (fun pfn => frames pfn ∨ frames' pfn) := by
  unfold markFrames
  congr 1
  funext pfn
  dsimp only
  by_cases hq : frames' pfn
  · rw [if_pos hq, if_pos (Or.inr hq)]
  · simp only [hq, if_false, or_false]

/-- Writing one record at a time. -/
theorem foldl_setPage (l : List ℕ) (flags : BitVec 32) (db : Pfndb) :
    l.foldl (fun db pfn => db.setPage pfn (pageSetState flags 0)) db
      = db.markFrames flags (fun pfn => pfn ∈ l) := by
  induction l generalizing db with
  | nil => exact (markFrames_of_not db flags (fun _ => List.not_mem_nil)).symm
  | cons n l ih =>
    have hset : db.setPage n (pageSetState flags 0) = db.markFrames flags (fun pfn => pfn = n) := by
      unfold setPage markFrames
      congr 1
      funext pfn
      rw [Function.update_apply]
      rfl
    rw [List.foldl_cons, ih, hset, markFrames_markFrames]
    exact markFrames_congr db flags (fun _ => List.mem_cons.symm)

/-- **Marking the range of a usable entry** writes exactly the frames it
has. -/
theorem pfndbMarkRange_spec {db : Pfndb} (h₀ : db.gPfndb ≠ 0#64) (h : UsableEntry entry)
    (hmax : physPfn (pageAlignUp (entry.base + entry.length)) ≤ db.gMaxPfn + 1)
    (flags : BitVec 32) :
    pfndbMarkRange entry.base entry.length flags db
      = db.markFrames flags (EntryFrame entry) := by
  -- where the code stops early, the entry has no frame
  have hnone : ¬ (physPfn entry.base < physPfn (pageAlignUp (entry.base + entry.length))) →
      db = db.markFrames flags (EntryFrame entry) := by
    intro hempty
    refine (markFrames_of_not db flags (fun pfn hf => ?_)).symm
    have := h.entryFrame_iff.mp hf
    omega
  unfold pfndbMarkRange
  dsimp only
  by_cases hlen : entry.length = 0#64
  · rw [if_pos (Or.inr hlen)]
    refine hnone ?_
    rw [h.endPfn_eq, hlen, physPfn_eq]
    exact lt_irrefl _
  · rw [if_neg (not_or.mpr ⟨h₀, hlen⟩)]
    by_cases hstart : physPfn entry.base > db.gMaxPfn
    · rw [if_pos hstart]
      exact hnone (by omega)
    · rw [if_neg hstart, if_neg (not_lt.mpr hmax), foldl_setPage]
      refine markFrames_congr db flags (fun pfn => ?_)
      rw [h.entryFrame_iff, List.mem_range'_1]
      omega

theorem gPfndb_pfndbInitTurn (db : Pfndb) (entry : LimineMemmapEntry) :
    (db.pfndbInitTurn entry).gPfndb = db.gPfndb := by
  unfold pfndbInitTurn pfndbMarkRange
  dsimp only
  rw [foldl_setPage]
  split
  · split
    · rfl
    · split <;> rfl
  · rfl

theorem gPfndb_foldl_pfndbInitTurn (memmap : List LimineMemmapEntry) (db : Pfndb) :
    (memmap.foldl pfndbInitTurn db).gPfndb = db.gPfndb := by
  induction memmap generalizing db with
  | nil => rfl
  | cons entry entries ih => exact (ih _).trans (gPfndb_pfndbInitTurn db entry)

/-- **The last loop** marks the frames of the usable entries free. -/
theorem foldl_pfndbInitTurn (memmap : List LimineMemmapEntry) {db : Pfndb}
    (h₀ : db.gPfndb ≠ 0#64)
    (h : ∀ entry ∈ memmap, entry.type = limineMemmapUsable → UsableEntry entry
      ∧ physPfn (pageAlignUp (entry.base + entry.length)) ≤ db.gMaxPfn + 1) :
    memmap.foldl pfndbInitTurn db = db.markFrames Page.FREE (UsableFrame memmap) := by
  induction memmap generalizing db with
  | nil =>
    refine (markFrames_of_not db Page.FREE (fun pfn hf => ?_)).symm
    obtain ⟨e, he, -⟩ := hf
    exact List.not_mem_nil he
  | cons entry entries ih =>
    have hrest : ∀ e ∈ entries, e.type = limineMemmapUsable → UsableEntry e
        ∧ physPfn (pageAlignUp (e.base + e.length)) ≤ db.gMaxPfn + 1 :=
      fun e he => h e (List.mem_cons_of_mem _ he)
    have hcons : ∀ pfn, UsableFrame (entry :: entries) pfn
        ↔ (entry.type = limineMemmapUsable ∧ EntryFrame entry pfn)
          ∨ UsableFrame entries pfn := by
      intro pfn
      simp only [UsableFrame, List.exists_mem_cons_iff]
    rw [List.foldl_cons]
    by_cases hu : entry.type = limineMemmapUsable
    · obtain ⟨hentry, hmax⟩ := h entry List.mem_cons_self hu
      have hturn : pfndbInitTurn db entry
          = pfndbMarkRange entry.base entry.length Page.FREE db := if_pos hu
      rw [hturn, pfndbMarkRange_spec h₀ hentry hmax]
      refine (ih ?_ ?_).trans ((markFrames_markFrames _ _ _ _).trans ?_)
      · exact h₀
      · exact hrest
      exact markFrames_congr db Page.FREE (fun pfn => by simp only [hcons, hu, true_and])
    · rw [show pfndbInitTurn db entry = db from if_neg hu, ih h₀ hrest]
      exact markFrames_congr db Page.FREE
        (fun pfn => by simp only [hcons, hu, false_and, false_or])

/-! ## The database that is established -/

/-- The globals before `pfndb_init`: there is no database yet. The memory it
will lie in may hold anything. -/
def bootGlobals (pages : ℕ → Page) : PfndbGlobals :=
  { gPfndb := 0#64, gMaxPfn := 0, pages := pages, gPfndbPhys := 0#64 }

variable {pages : ℕ → Page} {hhdm : BitVec 64}

/-- Without an entry that is large enough there is no storage, and no
database. -/
theorem pfndbInit_of_none {g₀ : PfndbGlobals} (hphys : g₀.gPfndbPhys = 0#64)
    {memmap' : List LimineMemmapEntry}
    (hres : pfndbReserveStorageLoop (pfndbCalcMaxPfn g₀ memmap).pfndbStorageSize memmap
      = (none, memmap')) :
    pfndbInit g₀ (some hhdm) (some memmap) = (pfndbCalcMaxPfn g₀ memmap, some memmap') := by
  unfold pfndbInit pfndbReserveStorage
  dsimp only
  rw [hres]
  exact if_pos hphys

/-- An entry that starts at address 0 is not taken for storage either. -/
theorem pfndbInit_of_zero {g₀ : PfndbGlobals} {memmap' : List LimineMemmapEntry}
    (hres : pfndbReserveStorageLoop (pfndbCalcMaxPfn g₀ memmap).pfndbStorageSize memmap
      = (some 0#64, memmap')) :
    (pfndbInit g₀ (some hhdm) (some memmap)).1.gPfndb = g₀.gPfndb := by
  unfold pfndbInit pfndbReserveStorage
  dsimp only
  rw [hres]
  dsimp only
  rw [if_pos rfl]
  rfl

/-- The database with every record reserved. -/
def reservedDb (gPfndb : BitVec 64) (gMaxPfn : ℕ) (pages : ℕ → Page) : Pfndb :=
  (clear { gPfndb := gPfndb, gMaxPfn := gMaxPfn, pages := pages }).markFrames Page.RESERVED
    (fun pfn => pfn ∈ List.range (gMaxPfn + 1))

/-- With storage, every record is written: first reserved, then free where the
map that is left has a usable frame. -/
theorem pfndbInit_of_some {g₀ : PfndbGlobals} {phys : BitVec 64}
    {memmap' : List LimineMemmapEntry} (hphys : phys ≠ 0#64)
    (hres : pfndbReserveStorageLoop (pfndbCalcMaxPfn g₀ memmap).pfndbStorageSize memmap
      = (some phys, memmap')) :
    pfndbInit g₀ (some hhdm) (some memmap)
      = ({ memmap'.foldl pfndbInitTurn (reservedDb (physToVirt hhdm phys)
            (memmap.foldl pfndbCalcMaxPfnTurn 0) g₀.pages) with gPfndbPhys := phys },
          some memmap') := by
  unfold pfndbInit pfndbReserveStorage
  dsimp only
  rw [hres]
  dsimp only
  rw [if_neg hphys, foldl_setPage]
  rfl

/-- The entries that are left are usable as before, and none ends later. -/
theorem usableEntry_cut {before after : List LimineMemmapEntry} {size : BitVec 64} {n : ℕ}
    (h : ∀ e ∈ before ++ entry :: after, e.type = limineMemmapUsable → UsableEntry e
      ∧ physPfn (pageAlignUp (e.base + e.length)) ≤ n)
    (hu : entry.type = limineMemmapUsable) (hsize : size ≤ entry.length)
    (haligned : size.toNat % 2 ^ 12 = 0) :
    ∀ e ∈ before ++ cut entry size :: after, e.type = limineMemmapUsable → UsableEntry e
      ∧ physPfn (pageAlignUp (e.base + e.length)) ≤ n := by
  intro e he hue
  rcases List.mem_append.mp he with he | he
  · exact h e (List.mem_append_left _ he) hue
  rcases List.mem_cons.mp he with rfl | he
  · obtain ⟨hentry, hn⟩ := h entry (by simp) hu
    obtain ⟨hcut, hend⟩ := hentry.cut hsize haligned
    rw [hentry.endPfn_eq] at hn
    exact ⟨hcut, by rw [hcut.endPfn_eq, hend]; exact hn⟩
  · exact h e (List.mem_append_right _ (List.mem_cons_of_mem _ he)) hue

/-- **What `pfndb_init` computes** when it establishes the database: the
storage is cut out of one usable entry, and the frames that are usable
afterwards are free. -/
theorem pfndbInit_run (h : BootMap memmap)
    (hrun : (pfndbInit (bootGlobals pages) (some hhdm) (some memmap)).1 = g)
    (h₀ : g.gPfndb ≠ 0#64) :
    ∃ before entry after, memmap = before ++ entry :: after
      ∧ entry.type = limineMemmapUsable ∧ g.pfndbStorageSize ≤ entry.length
      ∧ g.gPfndbPhys = entry.base
      ∧ g.gMaxPfn = memmap.foldl pfndbCalcMaxPfnTurn 0
      ∧ ∀ pfn ≤ g.gMaxPfn, (g.pages pfn).flags
        = if UsableFrame (before ++ cut entry g.pfndbStorageSize :: after) pfn then Page.FREE
          else Page.RESERVED := by
  set size := (pfndbCalcMaxPfn (bootGlobals pages) memmap).pfndbStorageSize with hsize'
  rcases hres : pfndbReserveStorageLoop size memmap with ⟨phys, memmap'⟩
  cases phys with
  | none =>
    rw [pfndbInit_of_none rfl hres] at hrun
    exact absurd (hrun ▸ rfl) h₀
  | some phys =>
    obtain ⟨before, entry, after, hmap, hmap', hu, hsize, hphys'⟩ :=
      pfndbReserveStorageLoop_spec hres
    by_cases hphys : phys = 0#64
    · subst hphys
      exact absurd (hrun ▸ pfndbInit_of_zero hres) h₀
    · rw [pfndbInit_of_some hphys hres] at hrun
      set db := reservedDb (physToVirt hhdm phys) (memmap.foldl pfndbCalcMaxPfnTurn 0)
        (bootGlobals pages).pages with hdb
      have hdb₀ : db.gPfndb ≠ 0#64 := by
        rw [← gPfndb_foldl_pfndbInitTurn memmap' db]
        rw [← hrun] at h₀
        exact h₀
      have hmax := foldl_pfndbCalcMaxPfnTurn_lt 0 (by norm_num) h.usable
      -- the cut keeps the entry page-aligned
      have haligned : size.toNat % 2 ^ 12 = 0 := by
        rw [hsize', toNat_pfndbStorageSize (hmax.trans (by norm_num))]
        exact Nat.mul_mod_left _ _
      have hentries : ∀ e ∈ memmap', e.type = limineMemmapUsable → UsableEntry e
          ∧ physPfn (pageAlignUp (e.base + e.length)) ≤ db.gMaxPfn + 1 := by
        rw [hmap']
        refine usableEntry_cut (fun e he hue => ?_) hu hsize haligned
        exact ⟨h.usable e (hmap ▸ he) hue, endPfn_le_foldl 0 (hmap ▸ he) hue⟩
      rw [foldl_pfndbInitTurn memmap' hdb₀ hentries] at hrun
      subst hrun
      refine ⟨before, entry, after, hmap, hu, hsize, hphys', rfl, fun pfn hle => ?_⟩
      show (if UsableFrame memmap' pfn then pageSetState Page.FREE 0 zeroPage
        else db.pages pfn).flags = if UsableFrame (before ++ cut entry size :: after) pfn
          then Page.FREE else Page.RESERVED
      rw [hmap', apply_ite Page.flags]
      have hreserved : (db.pages pfn).flags = Page.RESERVED :=
        congrArg Page.flags (if_pos (List.mem_range.mpr (Nat.lt_succ_of_le hle)))
      rw [hreserved]
      rfl

/-! ## The claims about it -/

/-- Of the frames of the map that is left, none holds the database, and the
others are those of the map there was. -/
theorem usableFrame_cut_iff {before after : List LimineMemmapEntry} {size : BitVec 64}
    (h : BootMap (before ++ entry :: after)) (hu : entry.type = limineMemmapUsable)
    (hsize : size ≤ entry.length) (haligned : size.toNat % 2 ^ 12 = 0) :
    UsableFrame (before ++ cut entry size :: after) pfn
      ↔ UsableFrame (before ++ entry :: after) pfn
        ∧ ¬ (entry.base.toNat ≤ pfn * 2 ^ 12
          ∧ pfn * 2 ^ 12 < entry.base.toNat + size.toNat) := by
  have hentry := h.usable entry (by simp) hu
  have hcut := entryFrame_cut_iff hentry hsize haligned pfn
  have hiff : ∀ e : LimineMemmapEntry, UsableFrame (before ++ e :: after) pfn
      ↔ UsableFrame (before ++ after) pfn
        ∨ (e.type = limineMemmapUsable ∧ EntryFrame e pfn) := by
    intro e
    unfold UsableFrame
    simp only [List.mem_append, List.mem_cons]
    constructor
    · rintro ⟨e', he' | rfl | he', hrest⟩
      · exact Or.inl ⟨e', Or.inl he', hrest⟩
      · exact Or.inr hrest
      · exact Or.inl ⟨e', Or.inr he', hrest⟩
    · rintro (⟨e', he' | he', hrest⟩ | hrest)
      · exact ⟨e', Or.inl he', hrest⟩
      · exact ⟨e', Or.inr (Or.inr he'), hrest⟩
      · exact ⟨e, Or.inr (Or.inl rfl), hrest⟩
  -- the other entries have no frame of the part that is cut off
  have hother : UsableFrame (before ++ after) pfn →
      ¬ (entry.base.toNat ≤ pfn * 2 ^ 12
        ∧ pfn * 2 ^ 12 < entry.base.toNat + size.toNat) := by
    rintro ⟨e, he, hue, hf⟩ ⟨hle, hlt⟩
    have h₁ : size.toNat ≤ entry.length.toNat := hsize
    have hbase := hentry.base_aligned
    have hin : EntryFrame entry pfn := ⟨hle, by omega⟩
    obtain ⟨-, hright, hcross⟩ := List.pairwise_append.mp h.disjoint
    rcases List.mem_append.mp he with he | he
    · exact hcross e he entry List.mem_cons_self hue hu pfn hf hin
    · exact (List.pairwise_cons.mp hright).1 e he hu hue pfn hin hf
  rw [hiff, hiff, hcut]
  constructor
  · rintro (ho | ⟨-, hin, hnot⟩)
    · exact ⟨Or.inl ho, hother ho⟩
    · exact ⟨Or.inr ⟨hu, hin⟩, hnot⟩
  · rintro ⟨ho | ⟨-, hin⟩, hnot⟩
    · exact Or.inl ho
    · exact Or.inr ⟨hu, hin, hnot⟩

/-- **An established database is as it should be.** -/
theorem established_pfndbInit (h : BootMap memmap)
    (hrun : (pfndbInit (bootGlobals pages) (some hhdm) (some memmap)).1 = g)
    (h₀ : g.gPfndb ≠ 0#64) : Established memmap g ∧ g.gMaxPfn < 2 ^ 44 := by
  obtain ⟨before, entry, after, rfl, hu, hsize, hphys, hmax, hflags⟩ := pfndbInit_run h hrun h₀
  have hentry := h.usable entry (by simp) hu
  have hlt : g.gMaxPfn < 2 ^ 44 := hmax ▸ foldl_pfndbCalcMaxPfnTurn_lt 0 (by norm_num) h.usable
  have hstorage := toNat_pfndbStorageSize (hlt.trans (by norm_num))
  have haligned : g.pfndbStorageSize.toNat % 2 ^ 12 = 0 := hstorage ▸ Nat.mul_mod_left _ _
  have hiff : ∀ pfn, UsableFrame (before ++ cut entry g.pfndbStorageSize :: after) pfn
      ↔ UsableFrame (before ++ entry :: after) pfn ∧ ¬ StorageFrame g pfn := by
    intro pfn
    rw [usableFrame_cut_iff h hu hsize haligned, StorageFrame, hphys]
  refine ⟨⟨hphys ▸ hentry.base_aligned, ?_, ⟨entry, by simp, hu, hphys ▸ le_rfl, ?_⟩,
    fun pfn hle => ?_, fun pfn hle hnot => ?_, ?_⟩, hlt⟩
  · rw [hstorage]
    omega
  · rw [hphys]
    exact Nat.add_le_add_left hsize _
  · rw [hflags pfn hle, ← hiff]
    by_cases hf : UsableFrame (before ++ cut entry g.pfndbStorageSize :: after) pfn
    · simp only [hf, if_true]
    · simp only [hf, if_false, iff_false]
      decide
  · rw [hflags pfn hle]
    exact if_neg (fun hf => hnot ((hiff pfn).mp hf))
  · rintro pfn ⟨e, he, hue, hf⟩
    have hend := endPfn_le_foldl 0 he hue
    have := ((h.usable e he hue).entryFrame_iff.mp hf).2
    omega

end Pfndb

namespace Pmm

variable {memmap : List LimineMemmapEntry} {g : PfndbGlobals} {pages : ℕ → Page}
  {hhdm : BitVec 64} {s₀ : Pmm}

/-- **An established database is one that `pmm_init` accepts.** -/
theorem bootDb_of_established (h : Pfndb.Established memmap g) (hg : g.gPfndb ≠ 0#64)
    (hmax : g.gMaxPfn < 2 ^ 44) (hs₀ : s₀.toPfndb = g.toPfndb) : BootDb s₀ := by
  refine ⟨hs₀ ▸ hg, hs₀ ▸ hmax.trans (by norm_num), fun f hf => ?_⟩
  rw [hs₀] at hf ⊢
  by_cases hfree : Pfndb.UsableFrame memmap f ∧ ¬ Pfndb.StorageFrame g f
  · exact Or.inl ((h.free_iff f hf).mpr hfree)
  · exact Or.inr (h.reserved f hf hfree)

/-- **The page database is what the memory map says**, where `pfndb_init`
establishes it: its storage is whole pages of one usable entry and has room
for every record, and the free frames are exactly the usable ones that do not
hold the storage. The allocator started on it hands out no other frame,
whatever is called in whatever order. -/
theorem pfndbInit_spec (response : Option (BitVec 64)) (h : Pfndb.BootMap memmap)
    (hrun : (Pfndb.pfndbInit (Pfndb.bootGlobals pages) response (some memmap)).1 = g)
    (hg : g.gPfndb ≠ 0#64) :
    Pfndb.Established memmap g
      ∧ ∀ s₀ : Pmm, s₀.toPfndb = g.toPfndb → ∀ (hhdm : BitVec 64) (s : Pmm)
        (A : Finset Block), Reach hhdm s₀ s A → ∀ b ∈ A, ∀ pfn ∈ b,
          Pfndb.UsableFrame memmap pfn ∧ ¬ Pfndb.StorageFrame g pfn := by
  cases response with
  | none => exact absurd (hrun ▸ rfl) hg
  | some hhdm₀ =>
    obtain ⟨hest, hmax⟩ := Pfndb.established_pfndbInit h hrun hg
    refine ⟨hest, fun s₀ hs₀ hhdm s A hreach b hb pfn hpfn => ?_⟩
    obtain ⟨B, hB, S, -, hheld, -⟩ :=
      hreach.exists_represents (bootDb_of_established hest hg hmax hs₀)
    have husable : pfn ∈ s₀.usableFrames :=
      Finset.mem_coe.mp ((S.isPartition.cover pfn).mpr
        ⟨b, S.mem_blocks_of_held (hheld ▸ hB hb), hpfn⟩)
    obtain ⟨hle, hfree⟩ := mem_usableFrames.mp husable
    rw [hs₀] at hle hfree
    exact (hest.free_iff pfn hle).mp hfree

/-- A memory map with a usable entry of three frames, among others. -/
def threeFrames : List LimineMemmapEntry :=
  [{ base := 0x10#64, length := 0x1800#64, type := 1#64 },
    { base := 0x1000#64, length := 0x3000#64, type := limineMemmapUsable },
    { base := 0x80000000#64, length := 0x1000#64, type := 6#64 }]

theorem bootMap_threeFrames : Pfndb.BootMap threeFrames := by
  refine ⟨fun entry hentry hu => ?_, ?_⟩
  · obtain rfl | rfl | rfl : entry = _ ∨ entry = _ ∨ entry = _ := by
      simpa [threeFrames] using hentry
    · exact absurd hu (by decide)
    · exact ⟨by decide, by decide, by decide⟩
    · exact absurd hu (by decide)
  · simp [threeFrames, limineMemmapUsable]

theorem pfndbInit_spec_threeFrames :
    Pfndb.Established threeFrames (Pfndb.pfndbInit
        (Pfndb.bootGlobals (fun _ => Pfndb.zeroPage)) (some lowestHhdm) (some threeFrames)).1 :=
  (pfndbInit_spec (some lowestHhdm) bootMap_threeFrames rfl (by decide)).1

end Pmm
