import Risky.PagingRange

/-!
# Trees in which every table exists

In a tree that already has all its tables, `paging_map_page` never needs a new
one and meets no superpage: it accepts every page it is given
(`Paging.Full.pagingMapPage`), and so does a whole range
(`Paging.Full.pagingMapRange`). Such trees show which arguments the code
accepts although they cannot be mapped. `Paging.fullTree` is one, with nothing
mapped yet.
-/

namespace Paging

variable {B : Boot} {m : Mmu} {virt phys size flags last va : BitVec 64} {s s' : Paging}
variable {r : Bool} {n fuel level a : ℕ}

/-- Every table of the tree exists. -/
def Full (m : Mmu) (s : Paging) : Prop :=
  ∀ q : List (BitVec 9), q.length < s.gLevels →
    ∃ a, TableTree.descend m.next s.mem s.root q = some a

/-- No address is translated. -/
def Bare (m : Mmu) (s : Paging) : Prop := ∀ va, s.translation m va = none

/-! ## Calls on a full tree -/

/-- The walk of a full tree goes down to the last level. -/
theorem Full.onPath (hfull : s.Full m) (hpath : OnPath m virt s (level + 1) a) :
    ∃ b, m.next (s.mem a (vpn virt (level + 1))) = some b := by
  obtain ⟨q, hq, hq'⟩ := hpath
  have hlen := OnPath.length hq'
  obtain ⟨b, hb⟩ := hfull (q ++ [vpn virt (level + 1)]) (by
    rw [List.length_append, List.length_singleton]
    omega)
  rw [TableTree.descend_concat hq] at hb
  exact ⟨b, hb⟩

/-- **No turn of the loop links a table or is refused.** -/
theorem Full.pagingMapLevel (phys flags : BitVec 64) (h : Sound B m s) (hfull : s.Full m)
    (hpath : OnPath m virt s level a) :
    ∃ s', pagingMapLevel B virt phys flags level (physToVirt B.hhdm (pfnPhys a)) s
      = some (true, s') ∧ Finished m virt phys flags s true s' := by
  induction level generalizing a with
  | zero =>
    unfold Paging.pagingMapLevel store
    dsimp only
    rw [load_of_onPath h hpath, (h.shown a hpath.mem_tables).2.1, setWidth_pagingLevelIndex]
    split
    · next hcov => exact ⟨s, rfl, Finished.covered hpath hcov.2⟩
    · exact ⟨_, rfl, Finished.wrote hpath⟩
  | succ level ih =>
    obtain ⟨b, hb⟩ := hfull.onPath hpath
    obtain ⟨hpath', hrun⟩ :=
      pagingMapLevel_of_pointer phys flags h hpath (Mmu.next_eq_some_iff.mp hb).1
    rw [hrun]
    exact ih hpath'

/-- **What a call leaves of a full tree**: a full tree, and a bare one bare if
no right is asked for. -/
structure Kept (B : Boot) (m : Mmu) (flags : BitVec 64) (s s' : Paging) : Prop where
  sound : Sound B m s'
  full : s'.Full m
  gLevels : s'.gLevels = s.gLevels
  gRootPhys : s'.gRootPhys = s.gRootPhys
  pool : s'.gEarlyPtPoolUsed = s.gEarlyPtPoolUsed
  bare : ¬ SomeRight flags → s.Bare m → s'.Bare m

theorem Kept.refl (h : Sound B m s) (hfull : s.Full m) : Kept B m flags s s :=
  ⟨h, hfull, rfl, rfl, rfl, fun _ => id⟩

theorem Kept.trans {s'' : Paging} (h : Kept B m flags s s') (h' : Kept B m flags s' s'') :
    Kept B m flags s s'' :=
  ⟨h'.sound, h'.full, h'.gLevels.trans h.gLevels, h'.gRootPhys.trans h.gRootPhys,
    h'.pool.trans h.pool, fun hf hb => h'.bare hf (h.bare hf hb)⟩

theorem Finished.kept (h : Sound B m s) (hfull : s.Full m)
    (hf : Finished m virt phys flags s true s') : Kept B m flags s s' := by
  have hframe := hf.frame h
  refine ⟨hframe.1, ?_, hf.gLevels, hf.gRootPhys, hf.gEarlyPtPoolUsed, ?_⟩
  · cases hf with
    | covered => exact hfull
    | @wrote a hpath =>
      obtain ⟨q, hq, hq'⟩ := hpath
      have hlen := OnPath.length hq'
      intro p hp
      obtain ⟨b, hb⟩ := hfull p hp
      exact ⟨b, (TableTree.descend_write_last h.wellFormed.isTree hq (by omega) hp).trans hb⟩
  · intro hflags hbare va
    by_cases hva : indices va s.gLevels = indices virt s.gLevels
    swap
    · rw [hframe.2.2.2.2 va hva]
      exact hbare va
    cases hf with
    | covered => exact hbare va
    | @wrote a hpath =>
      obtain ⟨q, hq, hq'⟩ := hpath
      have hlen := OnPath.length hq'
      refine Mmu.translate_write_last_of_not_leaf h.wellFormed hq (by omega)
        (hva.trans hq'.symm) ?_
      rw [someRight_iff phys, Bool.not_eq_true] at hflags
      exact hflags

/-- **A full tree accepts every page.** -/
theorem Full.pagingMapPage (flags : BitVec 64) (h : Sound B m s) (hfull : s.Full m)
    (hroot : s.gRootPhys ≠ 0#64)
    (hvirt : virt.toNat % 2 ^ 12 = 0) (hphys : phys.toNat % 2 ^ 12 = 0) :
    ∃ s', s.pagingMapPage B virt phys flags = some (true, s') ∧ Kept B m flags s s' := by
  have hthree := h.three_le
  obtain ⟨s', hrun, hfin⟩ := Full.pagingMapLevel phys flags h hfull
    (onPath_root virt (by omega))
  refine ⟨s', ?_, hfin.kept h hfull⟩
  unfold Paging.pagingMapPage pagingMapOne pagingRootVirt
  simp only [ne_eq, and_pageMask_eq_zero]
  rw [if_neg (by tauto), ← h.root_page]
  exact hrun

/-- A full tree accepts every range the loop enters. -/
theorem Full.loop (flags : BitVec 64) (h : Sound B m s) (hfull : s.Full m)
    (hroot : s.gRootPhys ≠ 0#64)
    (hvirt : virt.toNat % 2 ^ 12 = 0) (hphys : phys.toNat % 2 ^ 12 = 0)
    (hlast : virt.toNat + n * 2 ^ 12 = last.toNat) (hfuel : n < fuel) :
    ∃ s', pagingMapRangeLoop B last flags fuel virt phys s = some (true, s')
      ∧ Kept B m flags s s' := by
  have hlt := last.isLt
  induction n generalizing fuel virt phys s with
  | zero =>
    obtain ⟨fuel, rfl⟩ := Nat.exists_eq_succ_of_ne_zero (Nat.pos_iff_ne_zero.mp hfuel)
    refine ⟨s, ?_, Kept.refl h hfull⟩
    unfold pagingMapRangeLoop
    rw [if_neg (by rw [BitVec.lt_def]; omega)]
  | succ n ih =>
    obtain ⟨fuel, rfl⟩ := Nat.exists_eq_succ_of_ne_zero (Nat.ne_zero_of_lt hfuel)
    obtain ⟨s₁, hrun₁, hkept₁⟩ := Full.pagingMapPage flags h hfull hroot hvirt hphys
    have hvirt₁ : (virt + pageSize).toNat = virt.toNat + 2 ^ 12 := by
      rw [BitVec.toNat_add]
      show (_ + 4096) % _ = _
      omega
    have hphys₁ : (phys + pageSize).toNat % 2 ^ 12 = 0 := by
      rw [BitVec.toNat_add]
      show (_ + 4096) % _ % _ = _
      omega
    obtain ⟨s', hrun, hkept⟩ := ih hkept₁.sound hkept₁.full (hkept₁.gRootPhys ▸ hroot)
      (show (virt + pageSize).toNat % 2 ^ 12 = 0 by omega) hphys₁
      (show (virt + pageSize).toNat + n * 2 ^ 12 = last.toNat by omega)
      (show n < fuel by omega)
    refine ⟨s', ?_, hkept₁.trans hkept⟩
    unfold pagingMapRangeLoop
    rw [if_pos (by rw [BitVec.lt_def]; omega), hrun₁]
    dsimp only
    exact hrun

/-! ## Ranges -/

/-- The pages of a size. -/
def sizePages (size : BitVec 64) : ℕ := (size.toNat + (2 ^ 12 - 1)) / 2 ^ 12

/-- The loop of `paging_map_range` does not get started when the range reaches
the end of the address space. -/
theorem not_lt_last (h : 2 ^ 64 ≤ virt.toNat + sizePages size * 2 ^ 12) :
    ¬ virt < virt + pageAlignUp size := by
  have hv := virt.isLt
  have hs := size.isLt
  unfold sizePages at h
  rw [BitVec.lt_def, BitVec.toNat_add, toNat_pageAlignUp]
  omega

theorem toNat_last (h : virt.toNat + sizePages size * 2 ^ 12 < 2 ^ 64) :
    (virt + pageAlignUp size).toNat = virt.toNat + sizePages size * 2 ^ 12
      ∧ physPfn (pageAlignUp size) = sizePages size := by
  unfold sizePages at h ⊢
  rw [physPfn_eq, BitVec.toNat_add, toNat_pageAlignUp]
  omega

/-- **A full tree accepts every range.** One that reaches the end of the
address space it does not even touch. -/
theorem Full.pagingMapRange (size flags : BitVec 64) (h : Sound B m s) (hfull : s.Full m)
    (hroot : s.gRootPhys ≠ 0#64)
    (hvirt : virt.toNat % 2 ^ 12 = 0) (hphys : phys.toNat % 2 ^ 12 = 0) :
    ∃ s', s.pagingMapRange B virt phys size flags = some (true, s') ∧ Kept B m flags s s'
      ∧ (2 ^ 64 ≤ virt.toNat + sizePages size * 2 ^ 12 → s' = s) := by
  unfold Paging.pagingMapRange
  by_cases hsize : size = 0#64
  · rw [if_pos hsize]
    exact ⟨s, rfl, Kept.refl h hfull, fun _ => rfl⟩
  rw [if_neg hsize]
  by_cases hwrap : 2 ^ 64 ≤ virt.toNat + sizePages size * 2 ^ 12
  · refine ⟨s, ?_, Kept.refl h hfull, fun _ => rfl⟩
    unfold pagingMapRangeLoop
    rw [if_neg (not_lt_last hwrap)]
  · obtain ⟨hlast, hpages⟩ := toNat_last (not_le.mp hwrap)
    obtain ⟨s', hrun, hkept⟩ := Full.loop flags h hfull hroot hvirt hphys hlast.symm
      (show sizePages size < physPfn (pageAlignUp size) + 1 by omega)
    exact ⟨s', hrun, hkept, fun hle => absurd hle hwrap⟩

/-! ## A full tree -/

/-- The number that the indices of a path spell. -/
def pathValue (p : List (BitVec 9)) : ℕ := p.foldl (fun k i => 2 ^ 9 * k + i.toNat) 0

theorem pathValue_concat (p : List (BitVec 9)) (i : BitVec 9) :
    pathValue (p ++ [i]) = 2 ^ 9 * pathValue p + i.toNat := by
  unfold pathValue
  rw [List.foldl_append]
  rfl

theorem pathValue_lt (p : List (BitVec 9)) : pathValue p < 2 ^ (9 * p.length) := by
  induction p using List.reverseRecOn with
  | nil => exact Nat.one_pos
  | append_singleton p i ih =>
    have hi := i.isLt
    rw [pathValue_concat, List.length_append, List.length_singleton, Nat.mul_add, Nat.mul_one,
      Nat.pow_add]
    omega

/-- A path is known from its length and its number. -/
theorem eq_of_pathValue_eq {p q : List (BitVec 9)} (hlen : p.length = q.length)
    (h : pathValue p = pathValue q) : p = q := by
  induction p using List.reverseRecOn generalizing q with
  | nil => exact (List.length_eq_zero_iff.mp hlen.symm).symm
  | append_singleton p i ih =>
    rcases List.eq_nil_or_concat q with rfl | ⟨q, j, rfl⟩
    · simp at hlen
    have hi := i.isLt
    have hj := j.isLt
    rw [List.concat_eq_append] at hlen h ⊢
    simp only [List.length_append, List.length_singleton, Nat.add_right_cancel_iff] at hlen
    rw [pathValue_concat, pathValue_concat] at h
    rw [ih hlen (by omega), BitVec.eq_of_toNat_eq (by omega : i.toNat = j.toNat)]

/-- **All the tables of a tree**, one after the other from the page `base` on:
the table at the end of a path of length `d` is the one of the number the path
spells among those of its depth. -/
def fullMem (levels base a : ℕ) (i : BitVec 9) : BitVec 64 :=
  if (a - base) / 2 ^ 36 + 1 < levels then
    pagingTablePte (pfnPhys (base + ((a - base) / 2 ^ 36 + 1) * 2 ^ 36
      + (2 ^ 9 * ((a - base) % 2 ^ 36) + i.toNat)))
  else 0#64

/-- The page of the table at the end of a path. -/
def pathPage (base : ℕ) (p : List (BitVec 9)) : ℕ := base + p.length * 2 ^ 36 + pathValue p

theorem pathPage_lt {levels : ℕ} (base : ℕ) (h5 : levels ≤ 5) {p : List (BitVec 9)}
    (hp : p.length < levels) : pathPage base p < base + 5 * 2 ^ 36 := by
  have hvalue : pathValue p < 2 ^ 36 := (pathValue_lt p).trans_le
    (Nat.pow_le_pow_right (by decide) (by omega))
  unfold pathPage
  omega

/-- An entry of the table at the end of a path points to the table at the end
of the longer one. -/
theorem fullMem_pathPage {levels base : ℕ} (h5 : levels ≤ 5) {p : List (BitVec 9)}
    (hp : p.length + 1 < levels) (i : BitVec 9) :
    fullMem levels base (pathPage base p) i
      = pagingTablePte (pfnPhys (pathPage base (p ++ [i]))) := by
  have hvalue : pathValue p < 2 ^ 27 := (pathValue_lt p).trans_le
    (Nat.pow_le_pow_right (by decide) (by omega))
  have hindex : pathPage base p - base = p.length * 2 ^ 36 + pathValue p := by
    unfold pathPage
    omega
  have hdiv : (p.length * 2 ^ 36 + pathValue p) / 2 ^ 36 = p.length := by omega
  have hmod : (p.length * 2 ^ 36 + pathValue p) % 2 ^ 36 = pathValue p := by omega
  rw [fullMem, hindex, hdiv, hmod, if_pos hp, pathPage, pathValue_concat, List.length_append,
    List.length_singleton]

theorem descend_fullMem {levels base : ℕ} (h5 : levels ≤ 5) (hbase : base + 5 * 2 ^ 36 ≤ 2 ^ 44)
    {p : List (BitVec 9)} (hp : p.length < levels) :
    TableTree.descend m.next (fullMem levels base) base p = some (pathPage base p) := by
  induction p using List.reverseRecOn with
  | nil => rfl
  | append_singleton p i ih =>
    have hpage := pathPage_lt base h5 hp
    rw [List.length_append, List.length_singleton] at hp
    rw [TableTree.descend_concat (ih (by omega)), fullMem_pathPage h5 hp,
      next_pagingTablePte m (by rw [toNat_pfnPhys]; omega), physPfn_pfnPhys (by omega)]

/-- No entry of the tree is a leaf. -/
theorem fullMem_not_leaf (levels base a : ℕ) (i : BitVec 9) :
    (Pte.r (fullMem levels base a i) || Pte.x (fullMem levels base a i)) = false := by
  unfold fullMem
  split
  · obtain ⟨-, hr, -, hx⟩ := Pte.pointer_eq_true_iff.mp (pointer_pagingTablePte _)
    rw [hr, hx]
    rfl
  · decide

/-- The state with this tree, and no memory manager. -/
def fullTree (levels base : ℕ) : Paging where
  pmm := Pmm.twoFrames
  mem := fullMem levels base
  gRootPhys := pfnPhys base
  gLevels := levels
  gEarlyPtPoolUsed := earlyPtPoolSize

section FullTree

variable {levels base : ℕ}

theorem root_fullTree (hbase : base + 5 * 2 ^ 36 ≤ 2 ^ 44) : (fullTree levels base).root = base :=
  physPfn_pfnPhys (by omega)

theorem freeFrames_fullTree : (fullTree levels base).freeFrames = ∅ := by
  ext f
  exact iff_of_false (fun hf => Bool.false_ne_true hf.1) (Set.notMem_empty f)

theorem sound_fullTree (h3 : 3 ≤ levels) (h5 : levels ≤ 5) (hbase : base + 5 * 2 ^ 36 ≤ 2 ^ 44)
    (hshown : ∀ f, base ≤ f → f < base + 5 * 2 ^ 36 → B.Shows f) :
    Sound B m (fullTree levels base) := by
  have hroot : (fullTree levels base).root = base := root_fullTree hbase
  have hpath : ∀ {p : List (BitVec 9)} {a : ℕ}, p.length < levels →
      TableTree.descend m.next (fullMem levels base) base p = some a → a = pathPage base p :=
    fun hp hpa => Option.some.inj (hpa.symm.trans (descend_fullMem h5 hbase hp))
  have hready : (fullTree levels base).pmm.gPmmReady = false := rfl
  refine ⟨h3, h5, by rw [hroot]; rfl, ⟨?_, ?_⟩, ?_, ?_, ?_, ?_⟩
  · rw [hroot]
    intro a p q hp hq hpa hqa
    have he := (hpath hp hpa).symm.trans (hpath hq hqa)
    have hp' : pathValue p < 2 ^ 36 := (pathValue_lt p).trans_le
      (Nat.pow_le_pow_right (by decide) (show 9 * p.length ≤ 36 by change _ < levels at hp; omega))
    have hq' : pathValue q < 2 ^ 36 := (pathValue_lt q).trans_le
      (Nat.pow_le_pow_right (by decide) (show 9 * q.length ≤ 36 by change _ < levels at hq; omega))
    unfold pathPage at he
    exact eq_of_pathValue_eq (by omega) (by omega)
  · rw [hroot]
    intro q a hq hqa i _
    change q.length + 1 < levels at hq
    have hpage := pathPage_lt base h5 (p := q ++ [i]) (by simpa using hq)
    rw [hpath (show q.length < levels by omega) hqa]
    change Pte.high (fullMem levels base _ i) = _ ∧ m.reserved (fullMem levels base _ i) = _
    rw [fullMem_pathPage h5 hq]
    exact ⟨high_pagingTablePte (by rw [toNat_pfnPhys]; omega),
      reserved_pagingTablePte m (by rw [toNat_pfnPhys]; omega)⟩
  · rintro a ⟨q, hq, hqa⟩
    rw [hroot] at hqa
    rw [hpath hq hqa]
    exact hshown _ (by unfold pathPage; omega) (pathPage_lt base h5 hq)
  · rw [hready]
    exact fun h => absurd h Bool.false_ne_true
  · rw [freeFrames_fullTree]
    exact fun f hf => absurd hf (Set.notMem_empty f)
  · rw [freeFrames_fullTree]
    exact fun f hf => absurd hf (Set.notMem_empty f)

theorem full_fullTree (h5 : levels ≤ 5) (hbase : base + 5 * 2 ^ 36 ≤ 2 ^ 44) :
    (fullTree levels base).Full m := by
  intro q hq
  rw [root_fullTree hbase]
  exact ⟨_, descend_fullMem h5 hbase hq⟩

theorem bare_fullTree (h3 : 3 ≤ levels) : (fullTree levels base).Bare m := by
  intro va
  by_contra hne
  obtain ⟨⟨e, i⟩, he⟩ := Option.ne_none_iff_exists'.mp hne
  obtain ⟨-, -, hleaf, b, j, rfl⟩ :=
    Mmu.translate_eq_some he (show 0 < levels by omega)
  change (Pte.r (fullMem levels base b j) || Pte.x (fullMem levels base b j)) = true at hleaf
  rw [fullMem_not_leaf] at hleaf
  exact Bool.false_ne_true hleaf

theorem conforms_fullTree (h5 : levels ≤ 5) (hbase : base + 5 * 2 ^ 36 ≤ 2 ^ 44) :
    (fullTree levels base).Conforms m := by
  intro q k a hq hqa i hv
  change q.length + (k + 1) = levels at hq
  rw [root_fullTree hbase] at hqa
  change TableTree.descend m.next (fullMem levels base) base q = some a at hqa
  rw [descend_fullMem h5 hbase (show q.length < levels by omega), Option.some.injEq] at hqa
  subst hqa
  have hleaf := fullMem_not_leaf levels base (pathPage base q) i
  change Pte.v (fullMem levels base _ i) = true at hv
  change m.Encoded (fullMem levels base _ i) ∧ (_ = true → _)
  refine ⟨?_, fun h => absurd (hleaf.symm.trans h) Bool.false_ne_true⟩
  by_cases hlast : q.length + 1 < levels
  · have hpage := pathPage_lt base h5 (p := q ++ [i]) (by simpa using hlast)
    have hphys : (pfnPhys (pathPage base (q ++ [i]))).toNat < 2 ^ 56 := by
      rw [toNat_pfnPhys]
      omega
    rw [fullMem_pathPage h5 hlast]
    exact Mmu.encoded_of_next (next_pagingTablePte m hphys) (high_pagingTablePte hphys)
  · have hvalue : pathValue q < 2 ^ 36 := (pathValue_lt q).trans_le
      (Nat.pow_le_pow_right (by decide) (by omega))
    have hdiv : (pathPage base q - base) / 2 ^ 36 = q.length := by
      unfold pathPage
      omega
    rw [fullMem, hdiv, if_neg hlast] at hv
    exact absurd hv (by decide)

end FullTree

/-! ## Room for it in every direct map -/

/-- A boot loader's layout with the direct map at `hhdm`, and the pool far
away from it. -/
def roomyBoot (hhdm : BitVec 64) (h : hhdm.toNat % 2 ^ 12 = 0) : Boot where
  hhdm := hhdm
  physicalBase := 0#64
  virtualBase := 0#64
  gEarlyPtPool := if hhdm.toNat < 2 ^ 63 then 0xc000000000000000#64 else 0x4000000000000000#64
  hhdm_aligned := h
  image_aligned := by decide
  pool_aligned := by split <;> decide
  pool_fits := by split <;> decide
  pool_ne := by split <;> decide

/-- A first page for the tree, such that none of its pages is at the null
pointer of the direct map. -/
def roomyBase (hhdm : BitVec 64) : ℕ :=
  if 2 ^ 40 ≤ (2 ^ 64 - hhdm.toNat) / 2 ^ 12 ∧ (2 ^ 64 - hhdm.toNat) / 2 ^ 12 < 2 ^ 41 then 2 ^ 41
  else 2 ^ 40

theorem roomyBase_le (hhdm : BitVec 64) :
    2 ^ 40 ≤ roomyBase hhdm ∧ roomyBase hhdm + 5 * 2 ^ 36 ≤ 2 ^ 42 := by
  unfold roomyBase
  split <;> omega

theorem shows_roomyBoot {hhdm : BitVec 64} (h : hhdm.toNat % 2 ^ 12 = 0) {f : ℕ}
    (hf : roomyBase hhdm ≤ f) (hf' : f < roomyBase hhdm + 5 * 2 ^ 36) :
    (roomyBoot hhdm h).Shows f := by
  have hbase := roomyBase_le hhdm
  have hlt := hhdm.isLt
  have hvirt : (physToVirt hhdm (pfnPhys f)).toNat = (f * 2 ^ 12 + hhdm.toNat) % 2 ^ 64 := by
    rw [physToVirt, BitVec.toNat_add, toNat_pfnPhys]
    omega
  have hpool : (roomyBoot hhdm h).inPool (physToVirt hhdm (pfnPhys f)) = false := by
    unfold Boot.inPool
    rw [decide_eq_false_iff_not, BitVec.lt_def, BitVec.toNat_sub, hvirt]
    unfold roomyBoot
    dsimp only
    split
    · show ¬ (2 ^ 64 - 0xc000000000000000 + _) % 2 ^ 64 < 32768
      omega
    · show ¬ (2 ^ 64 - 0x4000000000000000 + _) % 2 ^ 64 < 32768
      omega
  refine ⟨by omega, ?_, fun hz => ?_⟩
  · unfold Boot.tablePage
    show physPfn (if (roomyBoot hhdm h).inPool (physToVirt hhdm (pfnPhys f)) then _
      else virtToPhys hhdm _) = f
    rw [hpool]
    show physPfn (virtToPhys hhdm (physToVirt hhdm (pfnPhys f))) = f
    rw [virtToPhys_physToVirt, physPfn_pfnPhys (by omega)]
  · have hnat := congrArg BitVec.toNat hz
    change (physToVirt hhdm (pfnPhys f)).toNat = 0 at hnat
    rw [hvirt] at hnat
    unfold roomyBase at hf hf'
    split at hf <;> split at hf' <;> omega

/-- **For every direct map there is a full tree** with nothing mapped. -/
theorem exists_full_bare (m : Mmu) {hhdm : BitVec 64} (h : hhdm.toNat % 2 ^ 12 = 0) {levels : ℕ}
    (h3 : 3 ≤ levels) (h5 : levels ≤ 5) :
    ∃ (B : Boot) (s : Paging), B.hhdm = hhdm ∧ Sound B m s ∧ s.Conforms m ∧ s.Full m
      ∧ s.Bare m ∧ s.gLevels = levels ∧ s.gRootPhys ≠ 0#64 := by
  have hshows : ∀ f, roomyBase hhdm ≤ f → f < roomyBase hhdm + 5 * 2 ^ 36 →
      (roomyBoot hhdm h).Shows f := fun f => shows_roomyBoot h
  have hbase := roomyBase_le hhdm
  generalize roomyBase hhdm = base at hshows hbase
  refine ⟨roomyBoot hhdm h, fullTree levels base, rfl, sound_fullTree h3 h5 (by omega) hshows,
    conforms_fullTree h5 (by omega), full_fullTree h5 (by omega), bare_fullTree h3, rfl,
    fun h₀ => ?_⟩
  have hroot : (fullTree levels base).root = base := root_fullTree (by omega)
  rw [root, h₀] at hroot
  change 0 = base at hroot
  omega

end Paging
