import Risky.PagingMap

/-!
# When a map call refuses

`paging_map_page` refuses a bad argument, or because no table is left for an absent
entry, or at a superpage (`Paging.refused_cases`). In the last case it decodes an entry
that the boot loader has written: `paging_pte_to_phys` takes the bits above the page
number along, and for the memory type in bits 62 and 61 (Svpbmt) bit 61 stays. A
superpage of a non-cacheable memory type so counts as a conflict whatever it maps,
and `Paging.refusalJustified_iff` says that these are the only calls refused for no
reason.
-/

namespace Pte

/-- The bit of the memory type that is left of the page number after
`paging_pte_to_phys`. -/
def nc (e : BitVec 64) : Bool := e.getLsbD 61

/-- The bits 60 to 54, which every extension leaves reserved. -/
def unassigned (e : BitVec 64) : BitVec 7 := e.extractLsb' 54 7

theorem nc_toNat (e : BitVec 64) : (nc e).toNat = e.toNat / 2 ^ 61 % 2 := by
  rw [nc, ← BitVec.testBit_toNat, Nat.testBit_eq_decide_div_mod_eq]
  by_cases h : e.toNat / 2 ^ 61 % 2 = 1
  · rw [decide_eq_true h, h]
    rfl
  · rw [decide_eq_false h, Bool.toNat_false]
    omega

theorem unassigned_eq_zero_iff (e : BitVec 64) :
    unassigned e = 0#7 ↔ e.toNat / 2 ^ 54 % 2 ^ 7 = 0 := by
  rw [unassigned, BitVec.toNat_eq, BitVec.extractLsb'_toNat, Nat.shiftRight_eq_div_pow,
    BitVec.toNat_ofNat]

/-- **What `paging_pte_to_phys` makes of a leaf**, memory type included. -/
theorem toNat_pagingPteToPhys_leaf {e : BitVec 64} (h : unassigned e = 0#7) :
    (pagingPteToPhys e).toNat = ppn e * 2 ^ 12 + (nc e).toNat * 2 ^ 63 := by
  rw [unassigned_eq_zero_iff] at h
  have hlt := e.isLt
  rw [pagingPteToPhys, BitVec.toNat_shiftLeft, BitVec.toNat_ushiftRight,
    Nat.shiftRight_eq_div_pow, Nat.shiftLeft_eq, ppn_eq, nc_toNat]
  omega

end Pte

namespace Paging

variable {B : Boot} {m : Mmu} {virt phys flags e : BitVec 64} {s s' s₁ : Paging}
variable {a c level k : ℕ} {r : Bool} {table : BitVec 64}

/-! ## Tables that the call has linked -/

/-- **A table without leaves**: its entries are absent, but for one that points to the
table itself. -/
structure NewTable (B : Boot) (s : Paging) (table : BitVec 64) : Prop where
  entry : ∀ i, s.mem (B.tablePage table) i = 0#64
    ∨ s.mem (B.tablePage table) i = pagingTablePte (virtToPhys B.hhdm table)
  aligned : (virtToPhys B.hhdm table).toNat % 2 ^ 12 = 0

/-- **At an absent entry** there is no table to be had, or a new one is linked, even
if its page is one that was in use. -/
theorem pagingFetch_of_absent {index : BitVec 64} (m : Mmu) (h : Stocked B s)
    (habsent : Pte.v (s.load B table index) = false) :
    (s.NoTable ∧ s.pagingFetch B table index = some (none, s))
      ∨ ∃ t s₁, s.pagingFetch B table index
          = some (some (pagingTablePte (virtToPhys B.hhdm t)), s₁)
        ∧ NewTable B s₁ t ∧ Stocked B s₁ := by
  unfold pagingFetch
  dsimp only
  rw [if_pos (and_pteV_eq_zero.mpr habsent)]
  rcases pagingAllocTable_spec m h with ⟨hno, halloc⟩ | ⟨c, s₁, t, hs, halloc, ht, hc, hmod, -⟩
  · rw [halloc]
    exact Or.inl ⟨hno, rfl⟩
  · rw [halloc]
    dsimp only
    rw [if_neg ht]
    have hstock := h.supplies hs
    refine Or.inr ⟨t, _, congrArg (fun e => some (some e, _)) TableTree.write_same,
      ⟨fun i => ?_, hmod⟩, hstock.managed, hstock.free_shown⟩
    show TableTree.write (TableTree.fill s₁.mem (B.tablePage t) 0#64) (B.tablePage table) _ _
        (B.tablePage t) i = 0#64
      ∨ TableTree.write (TableTree.fill s₁.mem (B.tablePage t) 0#64) (B.tablePage table) _ _
        (B.tablePage t) i = _
    by_cases hsame : B.tablePage t = B.tablePage table ∧ i = index.setWidth 9
    · rw [← hsame.1, hsame.2]
      exact Or.inr TableTree.write_same
    · rw [TableTree.write_of_ne (not_and_or.mp hsame), TableTree.fill_same]
      exact Or.inl rfl

/-- The loop follows a pointer that the code has made. -/
theorem pagingMapLevel_of_fetch {t : BitVec 64}
    (hfetch : s.pagingFetch B table (pagingLevelIndex virt (level + 1))
      = some (some (pagingTablePte (virtToPhys B.hhdm t)), s₁))
    (haligned : (virtToPhys B.hhdm t).toNat % 2 ^ 12 = 0) :
    pagingMapLevel B virt phys flags (level + 1) table s
      = pagingMapLevel B virt phys flags level t s₁ := by
  obtain ⟨-, hr, hw, hx⟩ := Pte.pointer_eq_true_iff.mp
    (pointer_pagingTablePte (virtToPhys B.hhdm t))
  rw [pagingMapLevel, hfetch]
  dsimp only
  rw [if_neg (not_not.mpr (and_rwx_eq_zero.mpr ⟨hr, hw, hx⟩)),
    pagingPteToPhys_pagingTablePte haligned, physToVirt_virtToPhys]

/-- **From a new table on, a call is refused only when the tables run out.** -/
theorem noTable_of_newTable (m : Mmu) (h : Stocked B s) (hnew : NewTable B s table)
    (hrun : pagingMapLevel B virt phys flags level table s = some (false, s')) :
    s'.NoTable := by
  induction level generalizing table s with
  | zero =>
    unfold pagingMapLevel at hrun
    dsimp only at hrun
    split at hrun <;> exact absurd hrun (by simp)
  | succ level ih =>
    rcases hnew.entry ((pagingLevelIndex virt (level + 1)).setWidth 9) with habsent | hself
    · have hv : Pte.v (s.load B table (pagingLevelIndex virt (level + 1))) = false := by
        rw [load, habsent]
        decide
      rcases pagingFetch_of_absent m h hv with ⟨hno, hfetch⟩ | ⟨t, s₁, hfetch, hnew₁, hstock⟩
      · rw [pagingMapLevel, hfetch] at hrun
        cases hrun
        exact hno
      · rw [pagingMapLevel_of_fetch hfetch hnew₁.aligned] at hrun
        exact ih hstock hnew₁ hrun
    · -- the table has been linked in itself
      have hfetch : s.pagingFetch B table (pagingLevelIndex virt (level + 1))
          = some (some (pagingTablePte (virtToPhys B.hhdm table)), s) := by
        have hv := (Pte.pointer_eq_true_iff.mp (pointer_pagingTablePte
          (virtToPhys B.hhdm table))).1
        unfold pagingFetch load
        dsimp only
        rw [hself, if_neg (and_pteV_ne_zero.mpr hv)]
      rw [pagingMapLevel_of_fetch hfetch hnew.aligned] at hrun
      exact ih h hnew hrun

/-! ## Leaves on the path -/

/-- **A superpage leaf ends the walk of an address.** -/
structure Superpage (m : Mmu) (virt : BitVec 64) (s : Paging) (level a : ℕ) : Prop where
  onPath : OnPath m virt s (level + 1) a
  valid : Pte.v (s.mem a (vpn virt (level + 1))) = true
  leaf : Pte.pointer (s.mem a (vpn virt (level + 1))) = false

/-- An entry of the walk that is absent. -/
structure AbsentEntry (m : Mmu) (virt : BitVec 64) (s : Paging) (level a : ℕ) : Prop where
  onPath : OnPath m virt s (level + 1) a
  absent : Pte.v (s.mem a (vpn virt (level + 1))) = false

theorem next_of_not_pointer (h : Pte.pointer e = false) : m.next e = none := by
  unfold Mmu.next
  rw [h]
  rfl

/-- Where the walk stops. -/
theorem Superpage.lookup (h : Superpage m virt s level a) :
    TableTree.lookup m.next s.mem s.root (indices virt s.gLevels)
      = some (s.mem a (vpn virt (level + 1)), level + 1) :=
  h.onPath.lookup (next_of_not_pointer h.leaf)

theorem AbsentEntry.lookup (h : AbsentEntry m virt s level a) :
    TableTree.lookup m.next s.mem s.root (indices virt s.gLevels)
      = some (s.mem a (vpn virt (level + 1)), level + 1) :=
  h.onPath.lookup (Mmu.next_of_not_valid h.absent)

/-- **A walk stops once.** -/
theorem Superpage.entry_eq {level' a' : ℕ} (h : Superpage m virt s level a)
    (h' : Superpage m virt s level' a') :
    s.mem a (vpn virt (level + 1)) = s.mem a' (vpn virt (level' + 1)) ∧ level = level' := by
  have heq := h.lookup.symm.trans h'.lookup
  simp only [Option.some.injEq, Prod.mk.injEq, Nat.add_right_cancel_iff] at heq
  exact heq

theorem Superpage.not_absentEntry {level' a' : ℕ} (h : Superpage m virt s level a) :
    ¬ AbsentEntry m virt s level' a' := fun h' => by
  have heq := h.lookup.symm.trans h'.lookup
  simp only [Option.some.injEq, Prod.mk.injEq] at heq
  have hv := h.valid
  rw [heq.1, h'.absent] at hv
  exact Bool.false_ne_true hv

/-- A valid entry is a pointer or has one of the three rights. -/
theorem and_rwx_ne_zero (hv : Pte.v e = true) (h : Pte.pointer e = false) :
    e &&& (pteR ||| pteW ||| pteX) ≠ 0#64 := fun hzero => by
  rw [Pte.pointer_eq_true_iff.mpr ⟨hv, and_rwx_eq_zero.mp hzero⟩] at h
  exact Bool.noConfusion h

/-- The loop ends at a superpage. -/
theorem pagingMapLevel_of_leaf (h : Sound B m s) (hs : Superpage m virt s level a) :
    pagingMapLevel B virt phys flags (level + 1) (physToVirt B.hhdm (pfnPhys a)) s
      = some (pagingEntryCovers (s.mem a (vpn virt (level + 1))) virt phys flags (level + 1), s) := by
  rw [pagingMapLevel, pagingFetch_of_valid h hs.onPath hs.valid]
  dsimp only
  rw [if_pos (and_rwx_ne_zero hs.valid hs.leaf)]

/-- **The walk ends where the path comes to no pointer.** -/
theorem OnPath.end_of_not_pointer (hpath : OnPath m virt s level a)
    (hend : TableTree.lookup m.next s.mem s.root (indices virt s.gLevels) = some (e, k))
    (hptr : Pte.pointer (s.mem a (vpn virt level)) = false) :
    s.mem a (vpn virt level) = e ∧ level = k := by
  have heq := (hpath.lookup (next_of_not_pointer hptr)).symm.trans hend
  exact Prod.mk.inj (Option.some.inj heq)

/-- **A call comes to the superpage on its path** and ends there. -/
theorem pagingMapLevel_of_superpage (phys flags : BitVec 64) (h : Sound B m s)
    (hs : Superpage m virt s k c)
    (hpath : OnPath m virt s level a) :
    pagingMapLevel B virt phys flags level (physToVirt B.hhdm (pfnPhys a)) s
      = some (pagingEntryCovers (s.mem c (vpn virt (k + 1))) virt phys flags (k + 1), s) := by
  induction level generalizing a with
  | zero =>
    -- the last level is below the superpage
    have hlevel := (hpath.eq_of_lookup hs.lookup).2
    exact absurd hlevel (Nat.succ_ne_zero _)
  | succ level ih =>
    by_cases hptr : Pte.pointer (s.mem a (vpn virt (level + 1))) = true
    · obtain ⟨hpath', hrun⟩ := pagingMapLevel_of_pointer phys flags h hpath hptr
      rw [hrun, ih hpath']
    · rw [Bool.not_eq_true] at hptr
      obtain ⟨he, hlevel⟩ := hpath.end_of_not_pointer hs.lookup hptr
      obtain rfl : level = k := Nat.succ.inj hlevel
      rw [← he]
      exact pagingMapLevel_of_leaf h ⟨hpath, he ▸ hs.valid, hptr⟩

/-! ## Refusals -/

/-- **The loop refuses at an absent entry or at a superpage.** -/
theorem refused_cases (h : Sound B m s) (hpath : OnPath m virt s level a)
    (hrun : pagingMapLevel B virt phys flags level (physToVirt B.hhdm (pfnPhys a)) s
      = some (false, s')) :
    ((∃ k c, AbsentEntry m virt s k c) ∧ s'.NoTable)
      ∨ ∃ k c, Superpage m virt s k c
        ∧ pagingEntryCovers (s.mem c (vpn virt (k + 1))) virt phys flags (k + 1) = false := by
  induction level generalizing a with
  | zero =>
    unfold pagingMapLevel at hrun
    dsimp only at hrun
    split at hrun <;> exact absurd hrun (by simp)
  | succ level ih =>
    by_cases hv : Pte.v (s.mem a (vpn virt (level + 1))) = true
    · by_cases hptr : Pte.pointer (s.mem a (vpn virt (level + 1))) = true
      · obtain ⟨hpath', hrun'⟩ :=
          pagingMapLevel_of_pointer phys flags h hpath hptr
        exact ih hpath' (hrun'.symm.trans hrun)
      · have hs : Superpage m virt s level a := ⟨hpath, hv, Bool.not_eq_true _ ▸ hptr⟩
        rw [pagingMapLevel_of_leaf h hs] at hrun
        simp only [Option.some.injEq, Prod.mk.injEq] at hrun
        exact Or.inr ⟨level, a, hs, hrun.1⟩
    · have habsent : Pte.v (s.mem a (vpn virt (level + 1))) = false := Bool.not_eq_true _ ▸ hv
      refine Or.inl ⟨⟨level, a, hpath, habsent⟩, ?_⟩
      have hload : Pte.v (s.load B (physToVirt B.hhdm (pfnPhys a))
          (pagingLevelIndex virt (level + 1))) = false := by
        rw [load_of_onPath h hpath, habsent]
      rcases pagingFetch_of_absent m h.stocked hload with
        ⟨hno, hfetch⟩ | ⟨t, s₁, hfetch, hnew, hstock⟩
      · rw [pagingMapLevel, hfetch] at hrun
        cases hrun
        exact hno
      · rw [pagingMapLevel_of_fetch hfetch hnew.aligned] at hrun
        exact noTable_of_newTable m hstock hnew hrun

/-- **The architecture permits the leaves of a tree**: they may be of any memory type
and in a group of contiguous pages, which the bits 63 to 61 say. -/
def Permitted (m : Mmu) (s : Paging) : Prop :=
  ∀ (q : List (BitVec 9)) (k a : ℕ), q.length + (k + 1) = s.gLevels →
    TableTree.descend m.next s.mem s.root q = some a →
      ∀ i, Pte.v (s.mem a i) = true → Pte.pointer (s.mem a i) = false →
        Pte.unassigned (s.mem a i) = 0#7 ∧ Pte.writeOnly (s.mem a i) = false
          ∧ m.reserved (s.mem a i) = false ∧ Pte.ppn (s.mem a i) % 2 ^ (9 * k) = 0

/-- The arguments of a call are good. -/
def GoodArguments (s : Paging) (virt phys : BitVec 64) : Prop :=
  virt.toNat % 2 ^ 12 = 0 ∧ phys.toNat % 2 ^ 12 = 0 ∧ s.gRootPhys ≠ 0#64

/-- **A leaf really maps an address as asked for**: it gives it that physical address
and grants the rights. -/
def Serves (e virt phys flags : BitVec 64) (level : ℕ) : Prop :=
  Mmu.physAddr virt e level = phys.toNat ∧ Grants e flags

/-- **The reasons to refuse a call.** -/
inductive Justified (m : Mmu) (virt phys flags : BitVec 64) (s s' : Paging) : Prop
  | argument (h : ¬ s.GoodArguments virt phys)
  | noTable {k c : ℕ} (h : AbsentEntry m virt s k c) (hno : s'.NoTable)
  | superpage {k c : ℕ} (h : Superpage m virt s k c)
      (hserves : ¬ Serves (s.mem c (vpn virt (k + 1))) virt phys flags (k + 1))

/-- **A call is refused for a reason only.** -/
def RefusalJustified (B : Boot) (m : Mmu) (s : Paging) (virt phys flags : BitVec 64) : Prop :=
  ∀ s', s.pagingMapPage B virt phys flags = some (false, s') → Justified m virt phys flags s s'

/-- **A superpage of a non-cacheable memory type** is on the path and serves. -/
def ServedByNc (m : Mmu) (s : Paging) (virt phys flags : BitVec 64) : Prop :=
  ∃ k c, Superpage m virt s k c ∧ Pte.nc (s.mem c (vpn virt (k + 1))) = true
    ∧ Serves (s.mem c (vpn virt (k + 1))) virt phys flags (k + 1)

/-- The level of a superpage. -/
theorem Superpage.level_le (h : Sound B m s) (hs : Superpage m virt s k c) : k + 1 ≤ 4 := by
  obtain ⟨q, -, hq⟩ := hs.onPath
  have hlen := OnPath.length hq
  have hfive := h.le_five
  omega

/-- **The code's test of a superpage** is the right one but for the memory type. -/
theorem Superpage.covers_iff (h : Sound B m s) (hperm : s.Permitted m)
    (hs : Superpage m virt s k c) :
    pagingEntryCovers (s.mem c (vpn virt (k + 1))) virt phys flags (k + 1) = true
      ↔ Mmu.physAddr virt (s.mem c (vpn virt (k + 1))) (k + 1)
          + (Pte.nc (s.mem c (vpn virt (k + 1)))).toNat * 2 ^ 63 = phys.toNat
        ∧ Grants (s.mem c (vpn virt (k + 1))) flags := by
  have hlevel := hs.level_le h
  obtain ⟨q, hq, hq'⟩ := hs.onPath
  have hlen := OnPath.length hq'
  obtain ⟨hbits, -, -, haligned⟩ := hperm q (k + 1) c (by omega) hq _ hs.valid hs.leaf
  have hphys := Pte.toNat_pagingPteToPhys_leaf hbits
  have hlt : Mmu.physAddr virt (s.mem c (vpn virt (k + 1))) (k + 1) < 2 ^ 56 :=
    Mmu.physAddr_lt hlevel
  rw [pagingEntryCovers_eq_true_iff, and_iff_right hs.valid]
  refine and_congr_left (fun _ => ?_)
  generalize s.mem c (vpn virt (k + 1)) = e at haligned hphys hlt ⊢
  have hnc : (Pte.nc e).toNat ≤ 1 := Bool.toNat_le _
  rw [Mmu.physAddr_of_aligned haligned] at hlt ⊢
  rw [BitVec.toNat_eq, BitVec.toNat_add, hphys, pagingLevelBlockSize, pagingLevelShift,
    toNat_and_lowMask virt (by omega), mul_comm (k + 1) 9]
  have hsum : ∀ x b : ℕ, x < 2 ^ 56 → b ≤ 1 → x + b * 2 ^ 63 < 2 ^ 64 := fun x b hx hb =>
    lt_of_le_of_lt (Nat.add_le_add_left (Nat.mul_le_mul_right _ hb) x) (by omega)
  rw [Nat.add_right_comm, Nat.mod_eq_of_lt (hsum _ _ hlt hnc)]

/-- **A call is refused without a reason exactly if a superpage of a non-cacheable
memory type serves it.** -/
theorem refusalJustified_iff (h : Sound B m s) (hperm : s.Permitted m)
    (virt phys flags : BitVec 64) :
    RefusalJustified B m s virt phys flags
      ↔ ¬ (s.GoodArguments virt phys ∧ ServedByNc m s virt phys flags) := by
  have hpath := onPath_root (m := m) (s := s) virt (by have := h.three_le; omega)
  have hcall : s.GoodArguments virt phys → s.pagingMapPage B virt phys flags
      = pagingMapLevel B virt phys flags (s.gLevels - 1) (physToVirt B.hhdm (pfnPhys s.root)) s := by
    rintro ⟨hv, hp, hroot⟩
    unfold pagingMapPage
    simp only [ne_eq, and_pageMask_eq_zero]
    rw [if_neg (by tauto), pagingMapOne, pagingRootVirt, h.root_page]
  constructor
  · rintro hjust ⟨hargs, k, c, hs, hnc, hserves⟩
    have hcovers :
        pagingEntryCovers (s.mem c (vpn virt (k + 1))) virt phys flags (k + 1) = false := by
      rw [← Bool.not_eq_true, hs.covers_iff h hperm, hserves.1, hnc]
      rintro ⟨hphys, -⟩
      simp at hphys
    have hrun := pagingMapLevel_of_superpage phys flags h hs hpath
    rw [hcovers, ← hcall hargs] at hrun
    cases hjust s hrun with
    | argument hbad => exact hbad hargs
    | noTable habsent => exact hs.not_absentEntry habsent
    | superpage hs' hnot =>
      obtain ⟨he, rfl⟩ := hs.entry_eq hs'
      rw [← he] at hnot
      exact hnot hserves
  · intro hno s' hrun
    by_cases hargs : s.GoodArguments virt phys
    swap
    · exact Justified.argument hargs
    rw [hcall hargs] at hrun
    rcases refused_cases h hpath hrun with ⟨⟨k, c, habsent⟩, hnone⟩ | ⟨k, c, hs, hcovers⟩
    · exact Justified.noTable habsent hnone
    · refine Justified.superpage hs (fun hserves => hno ⟨hargs, k, c, hs, ?_, hserves⟩)
      by_contra hnc
      rw [← Bool.not_eq_true, hs.covers_iff h hperm, Bool.eq_false_of_not_eq_true hnc] at hcovers
      exact hcovers ⟨by simpa using hserves.1, hserves.2⟩

/-! A tree of one superpage, over the two free frames of before. -/

/-- An implementation with memory types. -/
def svpbmt : Mmu where
  reserved e := Pte.unassigned e != 0#7
    || Pte.pointer e && (Pte.high e != 0#10 || Pte.u e || Pte.a e || Pte.d e)
  reserved_spec e he := by
    rw [Bool.or_eq_true, bne_iff_ne, Bool.and_eq_true] at he
    rcases he with hbits | ⟨hptr, hrest⟩
    · refine Or.inl (fun hhigh => hbits ?_)
      rw [Pte.unassigned_eq_zero_iff]
      have := Pte.high_eq_zero_iff.mp hhigh
      omega
    · rw [Bool.or_assoc, Bool.or_assoc, Bool.or_eq_true, bne_iff_ne] at hrest
      rw [Bool.or_assoc]
      exact hrest.imp_right (fun hbits => ⟨hptr, hbits⟩)

/-- A gigabyte of device memory, readable and writable, not cacheable. -/
def ncPte : BitVec 64 := 0x20000000100000c7#64

/-- The tree with this one superpage. -/
def ncTree : Paging := { emptyTree with
  mem := fun _ i => if i = 1#9 then ncPte else 0#64 }

theorem next_ncTree (a : ℕ) (i : BitVec 9) : svpbmt.next (ncTree.mem a i) = none := by
  show svpbmt.next (if i = 1#9 then ncPte else 0#64) = none
  split <;> decide

theorem tables_ncTree : ncTree.tables svpbmt = {2} :=
  TableTree.tables_of_empty (show 0 < 3 by decide) (next_ncTree 2)

theorem sound_ncTree : Sound exampleBoot svpbmt ncTree where
  three_le := show 3 ≤ 3 by decide
  le_five := show 3 ≤ 5 by decide
  root_page := by decide
  wellFormed := by
    refine ⟨TableTree.isTree_of_empty (next_ncTree 2), fun _ a _ _ i hptr => ?_⟩
    refine absurd hptr ?_
    show ¬ Pte.pointer (if i = 1#9 then ncPte else 0#64) = true
    split <;> decide
  shown := by
    rw [tables_ncTree]
    rintro a rfl
    exact shows_exampleBoot (by decide)
  managed := sound_emptyTree (m := svpbmt).managed
  fresh := by
    rw [tables_ncTree]
    have hfresh := sound_emptyTree (m := svpbmt).fresh
    rwa [tables_emptyTree] at hfresh
  free_shown := sound_emptyTree (m := svpbmt).free_shown

theorem permitted_ncTree : ncTree.Permitted svpbmt := by
  intro q k a hlen hq i hv _
  have hi : i = 1#9 := by
    by_contra hne
    have hzero : ncTree.mem a i = 0#64 := if_neg hne
    rw [hzero] at hv
    exact absurd hv (by decide)
  have hq' : q = [] := by
    rcases (TableTree.descend_eq_some_iff_of_empty (next_ncTree ncTree.root)).mp hq with ⟨hnil, -⟩
    exact hnil
  subst hi hq'
  have hk : k = 2 := by
    change 0 + (k + 1) = 3 at hlen
    omega
  subst hk
  show Pte.unassigned ncPte = 0#7 ∧ Pte.writeOnly ncPte = false ∧ svpbmt.reserved ncPte = false
    ∧ Pte.ppn ncPte % 2 ^ (9 * 2) = 0
  decide

theorem superpage_ncTree : Superpage svpbmt 0x40000000#64 ncTree 1 2 :=
  ⟨⟨[], rfl, rfl⟩, by decide, by decide⟩

/-- The superpage is a reason to refuse a page that is not its own. -/
theorem refusalJustified_ncTree :
    RefusalJustified exampleBoot svpbmt ncTree 0x40000000#64 0x50000000#64 pagingProtRw := by
  refine (refusalJustified_iff sound_ncTree permitted_ncTree _ _ _).mpr ?_
  rintro ⟨-, k, c, hs, -, hphys, -⟩
  obtain ⟨he, rfl⟩ := superpage_ncTree.entry_eq hs
  rw [← he] at hphys
  exact absurd hphys (show ¬ Mmu.physAddr 0x40000000#64 ncPte 2 = (0x50000000#64).toNat by decide)

/-- **A page that is mapped, and refused**: there is no reason. -/
theorem not_refusalJustified_ncTree :
    ncTree.pagingMapPage exampleBoot 0x40000000#64 0x40000000#64 pagingProtRw
        = some (false, ncTree)
      ∧ ncTree.Maps svpbmt 0x40000000#64 0x40000000#64 pagingProtRw
      ∧ ¬ RefusalJustified exampleBoot svpbmt ncTree 0x40000000#64 0x40000000#64
        pagingProtRw := by
  have hrun : ncTree.pagingMapPage exampleBoot 0x40000000#64 0x40000000#64 pagingProtRw
      = some (false, ncTree) := rfl
  have hgrants : Grants ncPte pagingProtRw :=
    ⟨fun _ => by decide, fun _ => by decide, fun h => absurd h (by decide), by decide⟩
  have hphys : Mmu.physAddr 0x40000000#64 ncPte 2 = (0x40000000#64).toNat := by decide
  refine ⟨hrun, ⟨ncPte, 2, ?_, hphys, hgrants⟩, fun hjust => ?_⟩
  · show svpbmt.translate ncTree.mem 3 2 0x40000000#64 = some (ncPte, 2)
    rw [Mmu.translate, if_pos (by decide)]
    rfl
  · cases hjust ncTree hrun with
    | argument hbad => exact hbad ⟨by decide, by decide, by decide⟩
    | noTable habsent => exact superpage_ncTree.not_absentEntry habsent
    | superpage hs hserves =>
      obtain ⟨he, rfl⟩ := superpage_ncTree.entry_eq hs
      rw [← he] at hserves
      exact hserves ⟨hphys, hgrants⟩

end Paging
