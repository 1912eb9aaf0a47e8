import Risky.PagingKernel
import Risky.PagingLive

/-!
# Mapping a range twice

A call of `paging_map_range` that succeeds settles every page of the range: the walk of
the page ends at a leaf that `paging_entry_covers` accepts, whether it was there before,
took the place of another or is part of a superpage (`Paging.Settled`). The pages mapped
later in the same call do not change that. The same call once more finds these leaves,
so that it writes no entry and allocates no table (`Paging.pagingMapRange_again`).
-/

namespace Paging

variable {B : Boot} {m : Mmu} {s s' : Paging} {q q₀ : MapRequest} {l : List MapRequest}
variable {virt phys size flags va e : BitVec 64} {a k level : ℕ} {r : Bool}

/-! ## Entries that are written -/

/-- The entries that the loop of `paging_map_one` writes, each with its table. -/
def mapLevelStores (B : Boot) (virtAddr physAddr flags : BitVec 64) :
    ℕ → BitVec 64 → Paging → List (BitVec 64 × BitVec 64)
  | 0, table, s =>
    let pageIndex := pagingLevelIndex virtAddr 0
    let entry := s.load B table pageIndex
    if entry &&& pteV ≠ 0#64 ∧ pagingEntryCovers entry virtAddr physAddr flags 0 then []
    else [(table, pageIndex)]
  | level + 1, table, s =>
    let index := pagingLevelIndex virtAddr (level + 1)
    match s.pagingFetch B table index with
    | some (some entry, s₁) =>
      (if s.load B table index &&& pteV = 0#64 then [(table, index)] else [])
        ++ if entry &&& (pteR ||| pteW ||| pteX) ≠ 0#64 then []
          else mapLevelStores B virtAddr physAddr flags level
            (physToVirt B.hhdm (pagingPteToPhys entry)) s₁
    | _ => []

/-- Those that `paging_map_page` writes. -/
def mapPageStores (B : Boot) (q : MapRequest) (s : Paging) : List (BitVec 64 × BitVec 64) :=
  if q.virt &&& (pageSize - 1#64) ≠ 0#64 ∨ q.phys &&& (pageSize - 1#64) ≠ 0#64
      ∨ s.gRootPhys = 0#64 then []
  else mapLevelStores B q.virt q.phys q.flags (s.gLevels - 1) (s.pagingRootVirt B) s

/-- Those that a run of requests writes. -/
def requestsStores (B : Boot) : List MapRequest → Paging → List (BitVec 64 × BitVec 64)
  | [], _ => []
  | q :: l, s =>
    mapPageStores B q s
      ++ match s.pagingMapPage B q.virt q.phys q.flags with
        | some (true, s) => requestsStores B l s
        | _ => []

/-! ## Where the walk of an address ends -/

/-- **The entry at which the walk of an address ends**, and its level. -/
def walkEnd (m : Mmu) (s : Paging) (va : BitVec 64) : Option (BitVec 64 × ℕ) :=
  TableTree.lookup m.next s.mem s.root (indices va s.gLevels)

/-- A new table is linked at an absent entry, which no walk to a valid one meets. -/
theorem Grew.walkEnd_eq (h : Sound B m s) (hg : Grew B m virt s s')
    (hend : walkEnd m s va = some (e, k)) (hv : Pte.v e = true) :
    walkEnd m s' va = some (e, k) := by
  obtain ⟨level, a, c, s₁, ⟨p, hp, hp'⟩, habsent, -, hl, rfl⟩ := hg
  have hlen := OnPath.length hp'
  have hne : s.mem a (vpn virt (level + 1)) ≠ e := by
    rintro rfl
    exact absurd (habsent.symm.trans hv) Bool.false_ne_true
  unfold walkEnd at hend ⊢
  rw [hl.root_eq]
  unfold linkTable
  rw [hl.mem, hl.gLevels]
  exact TableTree.lookup_link_of_ne h.wellFormed.isTree hp (by omega)
    (Mmu.next_of_not_valid habsent) hl.notMem (by rw [length_indices]) hend hne

theorem walkEnd_of_grew (h : Sound B m s) (hg : Relation.ReflTransGen (Grew B m virt) s s')
    (hend : walkEnd m s va = some (e, k)) (hv : Pte.v e = true) :
    walkEnd m s' va = some (e, k) := by
  induction hg with
  | refl => exact hend
  | tail hrun hstep ih => exact Grew.walkEnd_eq (extends_of_grew h hrun).1 hstep ih hv

/-- The leaf is written on the walk of its own page only. -/
theorem Finished.walkEnd_eq (h : Sound B m s) (hf : Finished m virt phys flags s r s')
    (hne : indices va s.gLevels ≠ indices virt s.gLevels) : walkEnd m s' va = walkEnd m s va := by
  cases hf with
  | noTable | conflict | covered => rfl
  | @wrote a hpath =>
    obtain ⟨p, hp, hp'⟩ := hpath
    have hlen := OnPath.length hp'
    refine TableTree.lookup_write_of_avoids h.wellFormed.isTree hp (by omega)
      (by rw [length_indices]) (fun hpre => hne ?_)
    refine (hpre.eq_of_length ?_).symm.trans hp'
    rw [length_indices, List.length_append, List.length_singleton]
    omega

/-- **A call for another page moves no walk to a valid entry.** -/
theorem walkEnd_of_pagingMapPage (h : Sound B m s)
    (hrun : s.pagingMapPage B virt phys flags = some (r, s'))
    (hpool : s'.gEarlyPtPoolUsed = s.gEarlyPtPoolUsed ∨ PoolSound B m s)
    (hne : indices va s.gLevels ≠ indices virt s.gLevels)
    (hend : walkEnd m s va = some (e, k)) (hv : Pte.v e = true) :
    walkEnd m s' va = some (e, k) := by
  rcases pagingMapPage_spec h hrun hpool with ⟨-, rfl, -⟩ | ⟨-, s₁, hgrew, hfin⟩
  · exact hend
  · obtain ⟨hsound, hext⟩ := extends_of_grew h hgrew
    rw [hfin.walkEnd_eq hsound (by rwa [hext.gLevels])]
    exact walkEnd_of_grew h hgrew hend hv

/-! ## Pages that are settled -/

/-- **A page that needs no more**: the request for it is well formed, and the walk ends
at an entry that will do. -/
structure Settled (m : Mmu) (s : Paging) (q : MapRequest) : Prop where
  virt_aligned : q.virt.toNat % 2 ^ 12 = 0
  phys_aligned : q.phys.toNat % 2 ^ 12 = 0
  root_ne : s.gRootPhys ≠ 0#64
  covered : ∃ e k, walkEnd m s q.virt = some (e, k)
    ∧ pagingEntryCovers e q.virt q.phys q.flags k = true

/-- **A call that succeeds settles its page.** -/
theorem settled_of_pagingMapPage (h : Sound B m s) (hflags : SomeRight q.flags)
    (hrun : s.pagingMapPage B q.virt q.phys q.flags = some (true, s'))
    (hpool : s'.gEarlyPtPoolUsed = s.gEarlyPtPoolUsed ∨ PoolSound B m s) : Settled m s' q := by
  rcases pagingMapPage_spec h hrun hpool with ⟨hr, -⟩ | ⟨⟨hvirt, hphys, hroot⟩, s₁, hgrew, hfin⟩
  · exact absurd hr (by simp)
  obtain ⟨hsound, hext⟩ := extends_of_grew h hgrew
  refine ⟨hvirt, hphys, by rwa [hfin.gRootPhys, hext.gRootPhys], ?_⟩
  cases hfin with
  | @covered level a hpath hcovers =>
    have hgrants := (pagingEntryCovers_eq_true_iff.mp hcovers).2.2
    exact ⟨_, level, hpath.lookup (Mmu.next_of_leaf (hgrants.leaf hflags)), hcovers⟩
  | @wrote a hpath =>
    exact ⟨_, 0, hpath.lookup_leafPte hsound hflags, covers_leafPte hvirt hphys⟩

/-- A call for another page leaves it settled. -/
theorem Settled.pagingMapPage (hq : Settled m s q) (h : Sound B m s)
    (hrun : s.pagingMapPage B virt phys flags = some (r, s'))
    (hpool : s'.gEarlyPtPoolUsed = s.gEarlyPtPoolUsed ∨ PoolSound B m s)
    (hne : indices q.virt s.gLevels ≠ indices virt s.gLevels) : Settled m s' q := by
  obtain ⟨e, k, hend, hcov⟩ := hq.covered
  have hv := (pagingEntryCovers_eq_true_iff.mp hcov).1
  refine ⟨hq.virt_aligned, hq.phys_aligned, ?_, e, k,
    walkEnd_of_pagingMapPage h hrun hpool hne hend hv, hcov⟩
  rw [(mapEffect_of_pagingMapPage h hrun hpool).gRootPhys]
  exact hq.root_ne

/-- So does a run of requests for other pages. -/
theorem Settled.mapRequests (hq : Settled m s q) (h : Sound B m s)
    (hrun : mapRequests B l s = some (true, s'))
    (hpool : s'.gEarlyPtPoolUsed = s.gEarlyPtPoolUsed ∨ PoolSound B m s)
    (hne : ∀ q' ∈ l, indices q.virt s.gLevels ≠ indices q'.virt s.gLevels) : Settled m s' q := by
  induction l generalizing s with
  | nil =>
    cases hrun
    exact hq
  | cons q₀ l ih =>
    obtain ⟨t, hpage, hrest, hpool₁, hpool', heff⟩ := mapRequests_cons_true h hrun hpool
    obtain ⟨hne₀, hne⟩ := List.forall_mem_cons.mp hne
    refine ih (hq.pagingMapPage h hpage hpool₁ hne₀) heff.sound hrest hpool' ?_
    rwa [heff.gLevels]

/-- **A run that succeeds settles all its pages**, if they are different. -/
theorem settled_of_mapRequests (h : Sound B m s) (hflags : ∀ q ∈ l, SomeRight q.flags)
    (hapart : l.Pairwise (fun q q' => indices q.virt s.gLevels ≠ indices q'.virt s.gLevels))
    (hrun : mapRequests B l s = some (true, s'))
    (hpool : s'.gEarlyPtPoolUsed = s.gEarlyPtPoolUsed ∨ PoolSound B m s) :
    ∀ q ∈ l, Settled m s' q := by
  induction l generalizing s with
  | nil => exact fun _ hq => absurd hq List.not_mem_nil
  | cons q₀ l ih =>
    obtain ⟨t, hpage, hrest, hpool₁, hpool', heff⟩ := mapRequests_cons_true h hrun hpool
    obtain ⟨hflags₀, hflags⟩ := List.forall_mem_cons.mp hflags
    obtain ⟨hapart₀, hapart⟩ := List.pairwise_cons.mp hapart
    rw [← heff.gLevels] at hapart₀ hapart
    exact List.forall_mem_cons.mpr
      ⟨(settled_of_pagingMapPage h hflags₀ hpage hpool₁).mapRequests heff.sound hrest hpool' hapart₀,
        ih heff.sound hflags hapart hrest hpool'⟩

/-! ## The same call once more -/

/-- **A walk to a valid leaf** reads the entries on its way, and nothing else happens. -/
theorem mapLevel_idle (h : Sound B m s) (hend : walkEnd m s virt = some (e, k))
    (hv : Pte.v e = true) (hptr : Pte.pointer e = false)
    (hcov : pagingEntryCovers e virt phys flags k = true) (hpath : OnPath m virt s level a) :
    mapLevelStores B virt phys flags level (physToVirt B.hhdm (pfnPhys a)) s = []
      ∧ mapLevelAllocs B virt level (physToVirt B.hhdm (pfnPhys a)) s = [] := by
  induction level generalizing a with
  | zero =>
    obtain ⟨hentry, rfl⟩ := hpath.eq_of_lookup hend
    refine ⟨?_, rfl⟩
    unfold mapLevelStores
    dsimp only
    rw [load_of_onPath h hpath, hentry, if_pos ⟨and_pteV_ne_zero.mpr hv, hcov⟩]
  | succ level ih =>
    by_cases hptr' : Pte.pointer (s.mem a (vpn virt (level + 1))) = true
    · -- the loop goes on to the next table
      obtain ⟨hhigh, hnext⟩ := hpath.pointer h hptr'
      obtain ⟨hv', hrwx⟩ := Pte.pointer_eq_true_iff.mp hptr'
      have hrest := ih (hpath.step hnext)
      unfold mapLevelStores mapLevelAllocs
      dsimp only
      rw [pagingFetch_of_valid h hpath hv']
      dsimp only
      rw [load_of_onPath h hpath, if_neg (and_pteV_ne_zero.mpr hv'),
        if_neg (and_pteV_ne_zero.mpr hv'),
        if_neg (not_not.mpr (and_rwx_eq_zero.mpr hrwx)),
        if_neg (not_not.mpr (and_rwx_eq_zero.mpr hrwx)), pagingPteToPhys_eq hhigh]
      exact hrest
    · -- the leaf is here
      rw [Bool.not_eq_true] at hptr'
      obtain ⟨rfl, rfl⟩ := hpath.end_of_not_pointer hend hptr'
      unfold mapLevelStores mapLevelAllocs
      dsimp only
      rw [pagingFetch_of_valid h hpath hv]
      dsimp only
      rw [load_of_onPath h hpath, if_neg (and_pteV_ne_zero.mpr hv),
        if_neg (and_pteV_ne_zero.mpr hv),
        if_pos (and_rwx_ne_zero hv hptr), if_pos (and_rwx_ne_zero hv hptr)]
      exact ⟨rfl, rfl⟩

/-- **A call for a page that is settled** succeeds and does nothing. -/
theorem Settled.idle (hq : Settled m s q) (h : Sound B m s) (hflags : SomeRight q.flags) :
    s.pagingMapPage B q.virt q.phys q.flags = some (true, s)
      ∧ mapPageStores B q s = [] ∧ mapPageAllocs B q s = [] := by
  obtain ⟨e, k, hend, hcov⟩ := hq.covered
  have hthree := h.three_le
  obtain ⟨hv, -, hgrants⟩ := pagingEntryCovers_eq_true_iff.mp hcov
  have hptr : Pte.pointer e = false := by
    by_contra hptr
    obtain ⟨-, hr, -, hx⟩ := Pte.pointer_eq_true_iff.mp (Bool.not_eq_false _ ▸ hptr)
    have hrx := hgrants.leaf hflags
    rw [hr, hx] at hrx
    exact Bool.false_ne_true hrx
  have hgood : ¬ (q.virt &&& (pageSize - 1#64) ≠ 0#64 ∨ q.phys &&& (pageSize - 1#64) ≠ 0#64
      ∨ s.gRootPhys = 0#64) := by
    rw [not_or, not_or, not_not, not_not, and_pageMask_eq_zero, and_pageMask_eq_zero]
    exact ⟨hq.virt_aligned, hq.phys_aligned, hq.root_ne⟩
  have hpath : OnPath m q.virt s (s.gLevels - 1) s.root := onPath_root q.virt (by omega)
  have hidle := mapLevel_idle h hend hv hptr hcov hpath
  unfold Paging.pagingMapPage mapPageStores mapPageAllocs pagingMapOne pagingRootVirt
  rw [if_neg hgood, if_neg hgood, if_neg hgood, ← h.root_page]
  exact ⟨pagingMapLevel_of_lookup h hend hv hcov hpath, hidle⟩

/-- **A run of requests for such pages** does nothing either. -/
theorem mapRequests_idle (h : Sound B m s) (hflags : ∀ q ∈ l, SomeRight q.flags)
    (hsettled : ∀ q ∈ l, Settled m s q) :
    mapRequests B l s = some (true, s) ∧ requestsStores B l s = [] ∧ requestsAllocs B l s = [] := by
  induction l with
  | nil => exact ⟨rfl, rfl, rfl⟩
  | cons q l ih =>
    obtain ⟨hflags₀, hflags⟩ := List.forall_mem_cons.mp hflags
    obtain ⟨hq, hsettled⟩ := List.forall_mem_cons.mp hsettled
    obtain ⟨hpage, hstores, hallocs⟩ := hq.idle h hflags₀
    unfold mapRequests requestsStores requestsAllocs
    rw [hpage, hstores, hallocs]
    exact ih hflags hsettled

/-- The pages of a range are different, where its addresses are canonical. -/
theorem rangeRequests_apart (phys flags : BitVec 64) {levels : ℕ} (h₃ : 3 ≤ levels)
    (h₅ : levels ≤ 5)
    (hcanon : ∀ va : BitVec 64, virt.toNat ≤ va.toNat → va.toNat < virt.toNat + size.toNat →
      Canonical levels va) :
    (rangeRequests virt phys size flags).Pairwise
      (fun q q' => indices q.virt levels ≠ indices q'.virt levels) := by
  unfold rangeRequests
  split
  swap
  · exact List.Pairwise.nil
  next hfits =>
  unfold pageRequests
  rw [List.pairwise_map]
  have hpage : ∀ i < sizePages size, (pageAt virt i).toNat = virt.toNat + i * 2 ^ 12
      ∧ Canonical levels (pageAt virt i) := by
    intro i hi
    have haddr : (pageAt virt i).toNat = virt.toNat + i * 2 ^ 12 := by
      refine toNat_pageAt (lt_of_le_of_lt ?_ hfits)
      exact Nat.add_le_add_left (Nat.mul_le_mul_right _ hi.le) _
    have hinside : i * 2 ^ 12 < size.toNat := by
      unfold sizePages at hi
      omega
    exact ⟨haddr, hcanon _ (by omega) (by omega)⟩
  refine List.pairwise_lt_range.imp_of_mem (fun {i j} hi hj hlt heq => ?_)
  obtain ⟨hi, hcanon₁⟩ := hpage i (List.mem_range.mp hi)
  obtain ⟨hj, hcanon₂⟩ := hpage j (List.mem_range.mp hj)
  have := page_eq_of_indices_eq h₃ h₅ hcanon₁ hcanon₂ heq
  omega

theorem someRight_rangeRequests (virt phys size : BitVec 64) (hflags : SomeRight flags) :
    ∀ q ∈ rangeRequests virt phys size flags, SomeRight q.flags := by
  unfold rangeRequests
  split
  · intro q hq
    obtain ⟨i, -, rfl⟩ := mem_pageRequests.mp hq
    exact hflags
  · exact fun _ hq => absurd hq List.not_mem_nil

/-- **The same call once more** succeeds, writes no entry and allocates no table. -/
theorem pagingMapRange_again (h : Sound B m s)
    (hcanon : ∀ va : BitVec 64, virt.toNat ≤ va.toNat → va.toNat < virt.toNat + size.toNat →
      Canonical s.gLevels va)
    (hflags : SomeRight flags) (hrun : s.pagingMapRange B virt phys size flags = some (true, s'))
    (hpool : s'.gEarlyPtPoolUsed = s.gEarlyPtPoolUsed) :
    s'.pagingMapRange B virt phys size flags = some (true, s')
      ∧ requestsStores B (rangeRequests virt phys size flags) s' = []
      ∧ requestsAllocs B (rangeRequests virt phys size flags) s' = [] := by
  rw [pagingMapRange_eq] at hrun ⊢
  have hright := someRight_rangeRequests virt phys size hflags
  have hapart := rangeRequests_apart phys flags h.three_le h.le_five hcanon
  have hsettled := settled_of_mapRequests h hright hapart hrun (Or.inl hpool)
  exact mapRequests_idle (mapRequests_effect h hrun (Or.inl hpool)).sound hright hsettled

/-- The range of the example: two pages. -/
def twoPages : List MapRequest :=
  rangeRequests 0x40000000#64 0x80000000#64 0x2000#64 pagingProtRw

/-- The first call links two tables and writes two leaves, the second nothing. -/
theorem pagingMapRange_again_emptyTree :
    ∃ s', emptyTree.pagingMapRange exampleBoot 0x40000000#64 0x80000000#64 0x2000#64 pagingProtRw
        = some (true, s')
      ∧ (requestsStores exampleBoot twoPages emptyTree).length = 4
      ∧ (requestsAllocs exampleBoot twoPages emptyTree).length = 2
      ∧ s'.pagingMapRange exampleBoot 0x40000000#64 0x80000000#64 0x2000#64 pagingProtRw
        = some (true, s')
      ∧ requestsStores exampleBoot twoPages s' = [] ∧ requestsAllocs exampleBoot twoPages s' = [] := by
  have hresult : (emptyTree.pagingMapRange exampleBoot 0x40000000#64 0x80000000#64 0x2000#64
      pagingProtRw).map (fun x => (x.1, x.2.gEarlyPtPoolUsed)) = some (true, 0) := by
    decide +kernel
  obtain ⟨⟨r, s'⟩, hrun, hend⟩ := Option.map_eq_some_iff.mp hresult
  obtain ⟨rfl, hpool⟩ := Prod.mk.inj hend
  have hcanon : ∀ va : BitVec 64, (0x40000000#64).toNat ≤ va.toNat →
      va.toNat < (0x40000000#64).toNat + (0x2000#64).toNat → Canonical 3 va := by
    intro va _ hlt
    exact Or.inl (hlt.trans (by decide))
  have hright : SomeRight pagingProtRw := by decide
  have hagain := pagingMapRange_again (sound_emptyTree (m := Mmu.strict)) hcanon hright hrun hpool
  exact ⟨s', hrun, by decide +kernel, by decide +kernel, hagain⟩

end Paging
