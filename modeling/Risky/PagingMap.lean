import Risky.PagingSteps

/-!
# Mapping a page

What `paging_map_page` means for the translations the hardware makes. A call
that succeeds has mapped the page with the rights asked for
(`Paging.pagingMapPage_maps`). Whether it succeeds or not, no other page is
affected, a failed call changes no translation at all, and no frame is lost
(`Paging.pagingMapPage_frame`).
-/

namespace Paging

variable {B : Boot} {m : Mmu} {virt phys flags va : BitVec 64} {s s' s₁ : Paging} {r : Bool}

/-- The translation of an address by the hardware. -/
def translation (m : Mmu) (s : Paging) (va : BitVec 64) : Option (BitVec 64 × ℕ) :=
  m.translate s.mem s.gLevels s.root va

/-- The tree conforms to the architecture. -/
def Conforms (m : Mmu) (s : Paging) : Prop := m.Conforms s.mem s.gLevels s.root

/-- **The hardware translates `virt` to `phys`** and grants what the flags ask
for. -/
def Maps (m : Mmu) (s : Paging) (virt phys flags : BitVec 64) : Prop :=
  ∃ (pte : BitVec 64) (level : ℕ), s.translation m virt = some (pte, level)
    ∧ Mmu.physAddr virt pte level = phys.toNat ∧ Grants pte flags

/-! ## New tables -/

/-- **What new tables change**: more tables, fewer free frames, and no
translation. -/
structure Extends (B : Boot) (m : Mmu) (s s' : Paging) : Prop where
  gLevels : s'.gLevels = s.gLevels
  gRootPhys : s'.gRootPhys = s.gRootPhys
  translation : ∀ va, s'.translation m va = s.translation m va
  tables : s.tables m ⊆ s'.tables m
  freeFrames : s'.freeFrames ⊆ s.freeFrames
  taken : ∀ f ∈ s.freeFrames, f ∈ s'.freeFrames ∨ f ∈ s'.tables m
  conforms : s.Conforms m → s'.Conforms m
  pool : PoolSound B m s → PoolSound B m s'
  pool_le : s.gEarlyPtPoolUsed ≤ s'.gEarlyPtPoolUsed

theorem Extends.refl (B : Boot) (m : Mmu) (s : Paging) : Extends B m s s :=
  ⟨rfl, rfl, fun _ => rfl, subset_rfl, subset_rfl, fun _ => Or.inl, id, id, le_rfl⟩

theorem Extends.trans {s'' : Paging} (h : Extends B m s s') (h' : Extends B m s' s'') :
    Extends B m s s'' :=
  ⟨h'.gLevels.trans h.gLevels, h'.gRootPhys.trans h.gRootPhys,
    fun va => (h'.translation va).trans (h.translation va), h.tables.trans h'.tables,
    h'.freeFrames.trans h.freeFrames,
    fun f hf => (h.taken f hf).elim (h'.taken f) (fun ht => Or.inr (h'.tables ht)),
    fun hc => h'.conforms (h.conforms hc), fun hp => h'.pool (h.pool hp),
    h.pool_le.trans h'.pool_le⟩

/-- **One new table** changes no translation. -/
theorem Grew.extends (h : Sound B m s) (hg : Grew B m virt s s') :
    Sound B m s' ∧ Extends B m s s' := by
  obtain ⟨level, a, c, s₁, hpath, habsent, hs, hl, rfl⟩ := hg
  have htables := tables_linkTable h hpath habsent hl
  have hfree : (s₁.linkTable c a (vpn virt (level + 1))).freeFrames = s.freeFrames \ {c} :=
    hl.freeFrames
  have hroot := hl.root_eq (a := a) (vpn virt (level + 1))
  have hsound := h.linkTable hpath habsent hl
  have hpool : PoolSound B m s → PoolSound B m (s₁.linkTable c a (vpn virt (level + 1))) :=
    fun hp => hp.linkTable h hpath habsent hs
  have hle : s.gEarlyPtPoolUsed ≤ s₁.gEarlyPtPoolUsed := by
    cases hs <;> simp
  obtain ⟨q, hq, hq'⟩ := hpath
  have hlen := OnPath.length hq'
  refine ⟨hsound, hl.gLevels, hl.gRootPhys, fun va => ?_, ?_, ?_, fun f hf => ?_, fun hc => ?_,
    hpool, hle⟩
  · unfold translation
    rw [hroot]
    unfold linkTable
    rw [hl.mem, hl.gLevels]
    exact Mmu.translate_link h.wellFormed hq (by omega) habsent hl.notMem (hl.shows.next m)
  · rw [htables]
    exact Set.subset_insert _ _
  · rw [hfree]
    exact Set.sdiff_subset
  · rw [hfree, htables]
    by_cases hfc : f = c
    · exact Or.inr (Or.inl hfc)
    · exact Or.inl ⟨hf, hfc⟩
  · unfold Conforms
    rw [hroot]
    unfold linkTable
    rw [hl.mem, hl.gLevels]
    exact Mmu.Conforms.link h.wellFormed hq (by omega) habsent hl.notMem (hl.shows.next m) hc
      hl.shows.high

/-- **Any number of new tables** changes no translation. -/
theorem extends_of_grew (h : Sound B m s) (hg : Relation.ReflTransGen (Grew B m virt) s s') :
    Sound B m s' ∧ Extends B m s s' := by
  induction hg with
  | refl => exact ⟨h, Extends.refl B m s⟩
  | tail _ hstep ih =>
    obtain ⟨hsound, hext⟩ := Grew.extends ih.1 hstep
    exact ⟨hsound, ih.2.trans hext⟩

/-! ## The end of a call -/

theorem Finished.gLevels (hf : Finished m virt phys flags s r s') :
    s'.gLevels = s.gLevels := by
  cases hf <;> rfl

theorem Finished.gRootPhys (hf : Finished m virt phys flags s r s') :
    s'.gRootPhys = s.gRootPhys := by
  cases hf <;> rfl

theorem Finished.pmm (hf : Finished m virt phys flags s r s') : s'.pmm = s.pmm := by
  cases hf <;> rfl

theorem Finished.gEarlyPtPoolUsed (hf : Finished m virt phys flags s r s') :
    s'.gEarlyPtPoolUsed = s.gEarlyPtPoolUsed := by
  cases hf <;> rfl

/-- **The end of a call leaves other addresses alone**, and what is not
translation. -/
theorem Finished.frame (h : Sound B m s) (hf : Finished m virt phys flags s r s') :
    Sound B m s' ∧ s'.tables m = s.tables m ∧ s'.freeFrames = s.freeFrames
      ∧ (r = false → s' = s)
      ∧ ∀ va, indices va s.gLevels ≠ indices virt s.gLevels →
          s'.translation m va = s.translation m va := by
  cases hf with
  | noTable | conflict | covered =>
    exact ⟨h, rfl, rfl, fun _ => rfl, fun _ _ => rfl⟩
  | @wrote a hpath =>
    obtain ⟨q, hq, hq'⟩ := hpath
    have hlen := OnPath.length hq'
    have htables : ({ s with
        mem := TableTree.write s.mem a (vpn virt 0) (leafPte phys flags) } : Paging).tables m
        = s.tables m :=
      Mmu.tables_write_last h.wellFormed hq (by omega)
    refine ⟨⟨h.three_le, h.le_five, h.root_page,
      h.wellFormed.write_last hq (by omega), ?_, h.managed, ?_, h.free_shown⟩, htables, rfl,
      fun hr => absurd hr (by simp), fun va hva => ?_⟩
    · rw [htables]
      exact h.shown
    · rw [htables]
      exact h.fresh
    · exact Mmu.translate_write_last h.wellFormed hq (by omega) (fun he => hva (he.trans hq'))

/-- **The walk ends at the leaf** that is written. -/
theorem OnPath.lookup_leafPte (h : Sound B m s) (hpath : OnPath m virt s 0 a)
    (hflags : SomeRight flags) :
    TableTree.lookup m.next (TableTree.write s.mem a (vpn virt 0) (leafPte phys flags)) s.root
      (indices virt s.gLevels) = some (leafPte phys flags, 0) := by
  obtain ⟨q, hq, hq'⟩ := hpath
  have hlen := OnPath.length hq'
  rw [← hq']
  exact Mmu.lookup_write_last h.wellFormed hq (by omega)
    (Mmu.next_of_leaf ((someRight_iff phys).mp hflags))

/-- **A call that ends well has mapped the page.** -/
theorem Finished.maps (h : Sound B m s) (hconf : s.Conforms m)
    (hcanon : Canonical s.gLevels virt) (hvirt : virt.toNat % 2 ^ 12 = 0)
    (hphys : phys.toNat % 2 ^ 12 = 0) (hlt : phys.toNat < 2 ^ 56) (hflags : SomeRight flags)
    (hf : Finished m virt phys flags s true s') : s'.Maps m virt phys flags := by
  have hthree := h.three_le
  have hfive := h.le_five
  cases hf with
  | @covered level a hpath hcovers =>
    obtain ⟨hv, hmapped, hgrants⟩ := pagingEntryCovers_eq_true_iff.mp hcovers
    have hrx := hgrants.leaf hflags
    have hlookup := hpath.lookup (Mmu.next_of_leaf hrx)
    obtain ⟨q, hq, hq'⟩ := hpath
    have hlen := OnPath.length hq'
    obtain ⟨henc, halign⟩ := hconf q level a (by omega) hq _ hv
    have hleaf : m.leaf (s.mem a (vpn virt level)) level = true := by
      unfold Mmu.leaf
      rw [hv, henc.writeOnly, henc.reserved, hrx, halign hrx]
      rfl
    exact ⟨_, level, Mmu.translate_of_lookup (show 0 < s.gLevels by omega) hcanon hlookup hleaf,
      physAddr_of_covers (show level ≤ 4 by omega) henc.high (halign hrx) hmapped, hgrants⟩
  | @wrote a hpath =>
    exact ⟨leafPte phys flags, 0, Mmu.translate_of_lookup (show 0 < s.gLevels by omega) hcanon
      (hpath.lookup_leafPte h hflags) (leaf_leafPte m hlt hflags),
      physAddr_leafPte hlt hphys hvirt, grants_leafPte⟩

/-- The tree conforms afterwards, if a leaf that is written does. -/
theorem Finished.conforms (h : Sound B m s) (hconf : s.Conforms m)
    (hlt : phys.toNat < 2 ^ 56) (hflags : SomeRight flags)
    (hf : Finished m virt phys flags s r s') : s'.Conforms m := by
  cases hf with
  | noTable | conflict | covered => exact hconf
  | @wrote a hpath =>
    obtain ⟨q, hq, hq'⟩ := hpath
    have hlen := OnPath.length hq'
    exact Mmu.Conforms.write_last h.wellFormed hq (by omega) hconf (encoded_leafPte m hlt hflags)

/-! ## The whole call -/

/-- **What a call does**: it refuses a bad argument, or links tables and
finishes. -/
theorem pagingMapPage_spec (h : Sound B m s)
    (hrun : s.pagingMapPage B virt phys flags = some (r, s'))
    (hpool : s'.gEarlyPtPoolUsed = s.gEarlyPtPoolUsed ∨ PoolSound B m s) :
    (r = false ∧ s' = s ∧ ¬ (virt.toNat % 2 ^ 12 = 0 ∧ phys.toNat % 2 ^ 12 = 0 ∧ s.gRootPhys ≠ 0#64))
      ∨ (virt.toNat % 2 ^ 12 = 0 ∧ phys.toNat % 2 ^ 12 = 0 ∧ s.gRootPhys ≠ 0#64)
        ∧ ∃ s₁, Relation.ReflTransGen (Grew B m virt) s s₁
          ∧ Finished m virt phys flags s₁ r s' := by
  have hthree := h.three_le
  unfold pagingMapPage at hrun
  simp only [ne_eq, and_pageMask_eq_zero] at hrun
  split at hrun
  · next hbad =>
    cases hrun
    exact Or.inl ⟨rfl, rfl, by tauto⟩
  · next hgood =>
    refine Or.inr ⟨by tauto, ?_⟩
    unfold pagingMapOne pagingRootVirt at hrun
    rw [← h.root_page] at hrun
    exact pagingMapLevel_spec h (onPath_root virt (by omega)) hrun hpool

/-- **What a call leaves**: a state in order, in which at most the page of the
address is translated differently. -/
structure MapEffect (B : Boot) (m : Mmu) (virt : BitVec 64) (r : Bool) (s s' : Paging) : Prop where
  sound : Sound B m s'
  gLevels : s'.gLevels = s.gLevels
  gRootPhys : s'.gRootPhys = s.gRootPhys
  frame : ∀ va, indices va s.gLevels ≠ indices virt s.gLevels →
    s'.translation m va = s.translation m va
  failed : r = false → ∀ va, s'.translation m va = s.translation m va
  taken : ∀ f ∈ s.freeFrames, f ∈ s'.freeFrames ∨ f ∈ s'.tables m
  pool : PoolSound B m s → PoolSound B m s'

/-- **Every call keeps the state in order.** -/
theorem mapEffect_of_pagingMapPage (h : Sound B m s)
    (hrun : s.pagingMapPage B virt phys flags = some (r, s'))
    (hpool : s'.gEarlyPtPoolUsed = s.gEarlyPtPoolUsed ∨ PoolSound B m s) :
    MapEffect B m virt r s s' := by
  rcases pagingMapPage_spec h hrun hpool with ⟨-, rfl, -⟩ | ⟨-, s₁, hgrew, hfin⟩
  · exact ⟨h, rfl, rfl, fun _ _ => rfl, fun _ _ => rfl, fun _ => Or.inl, id⟩
  · obtain ⟨hsound, hext⟩ := extends_of_grew h hgrew
    obtain ⟨hsound', htables, hfree, hfail, hframe⟩ := hfin.frame hsound
    refine ⟨hsound', hfin.gLevels.trans hext.gLevels, hfin.gRootPhys.trans hext.gRootPhys,
      fun va hva => ?_, fun hr va => ?_, fun f hf => ?_, fun hp => ?_⟩
    · rw [hframe va (by rwa [hext.gLevels]), hext.translation]
    · rw [hfail hr, hext.translation]
    · rw [hfree, htables]
      exact hext.taken f hf
    · have hp' := hext.pool hp
      refine ⟨⟨hp'.page_lt, ?_, ?_⟩, hp'.converts⟩
      · rw [hfin.gEarlyPtPoolUsed, htables]
        exact hp'.fresh
      · rw [hfin.gEarlyPtPoolUsed, hfree]
        exact hp'.notFree

/-- A call that succeeds maps the page, and the tree still conforms. -/
theorem maps_of_pagingMapPage (h : Sound B m s) (hconf : s.Conforms m)
    (hcanon : Canonical s.gLevels virt) (hlt : phys.toNat < 2 ^ 56) (hflags : SomeRight flags)
    (hrun : s.pagingMapPage B virt phys flags = some (true, s'))
    (hpool : s'.gEarlyPtPoolUsed = s.gEarlyPtPoolUsed ∨ PoolSound B m s) :
    s'.Conforms m ∧ s'.Maps m virt phys flags := by
  rcases pagingMapPage_spec h hrun hpool with ⟨hr, -⟩ | ⟨⟨hvirt, hphys, -⟩, s₁, hgrew, hfin⟩
  · exact absurd hr (by simp)
  · obtain ⟨hsound, hext⟩ := extends_of_grew h hgrew
    have hconf₁ := hext.conforms hconf
    exact ⟨hfin.conforms hsound hconf₁ hlt hflags,
      hfin.maps hsound hconf₁ (hext.gLevels ▸ hcanon) hvirt hphys hlt hflags⟩

/-! An empty tree on frame 2, over the two free frames of before. -/

/-- A kernel in the top two gigabytes, and a direct map below it. -/
def exampleBoot : Boot where
  hhdm := Pmm.lowestHhdm
  physicalBase := 0x80000000#64
  virtualBase := 0xffffffff80000000#64
  gEarlyPtPool := 0xffffffff80010000#64
  hhdm_aligned := by decide
  image_aligned := by decide
  pool_aligned := by decide
  pool_fits := by decide
  pool_ne := by decide

/-- The empty tree of three levels. -/
def emptyTree : Paging where
  pmm := Pmm.twoFrames.pmmInit.2
  mem := fun _ _ => 0#64
  gRootPhys := 0x2000#64
  gLevels := 3
  gEarlyPtPoolUsed := 0

theorem next_emptyTree (a : ℕ) (i : BitVec 9) : m.next (emptyTree.mem a i) = none :=
  Mmu.next_of_not_valid (show Pte.v 0#64 = false by decide)

theorem tables_emptyTree : emptyTree.tables m = {2} :=
  TableTree.tables_of_empty (by decide) (next_emptyTree 2)

theorem lt_two_of_mem_freeFrames {f : ℕ} (hf : f ∈ emptyTree.freeFrames) : f < 2 := by
  obtain ⟨-, b, hb, hfb⟩ := hf
  have hblocks : emptyTree.pmm.freeBlocks = [⟨0, 1⟩] := by decide +kernel
  rw [hblocks, List.mem_singleton] at hb
  subst hb
  exact (Block.mem_def.mp hfb).2

theorem shows_exampleBoot {f : ℕ} (hf : f < 3) : exampleBoot.Shows f := by
  unfold Boot.Shows
  interval_cases f <;> decide

theorem sound_emptyTree : Sound exampleBoot m emptyTree where
  three_le := by decide
  le_five := by decide
  root_page := by decide
  wellFormed := by
    refine ⟨TableTree.isTree_of_empty (next_emptyTree 2), fun _ a _ _ i hptr => ?_⟩
    exact absurd hptr (show ¬ Pte.pointer 0#64 = true by decide)
  shown := by
    rw [tables_emptyTree]
    rintro a rfl
    exact shows_exampleBoot (by decide)
  managed _ := by
    obtain ⟨S, hinv, -⟩ := Pmm.represents_pmmInit Pmm.bootDb_twoFrames
    exact ⟨_, S, hinv⟩
  fresh := by
    rw [tables_emptyTree]
    intro f hf hmem
    have := lt_two_of_mem_freeFrames hf
    rw [Set.mem_singleton_iff.mp hmem] at this
    omega
  free_shown f hf := shows_exampleBoot (by have := lt_two_of_mem_freeFrames hf; omega)

theorem conforms_emptyTree : emptyTree.Conforms m := by
  intro _ _ _ _ _ _ hv
  exact absurd hv (show ¬ Pte.v 0#64 = true by decide)

/-- **A call that succeeds maps the page** with the rights asked for, at
whatever level the leaf is. -/
theorem pagingMapPage_maps (h : Sound B m s) (hconf : s.Conforms m)
    (hcanon : Canonical s.gLevels virt) (hlt : phys.toNat < 2 ^ 56) (hflags : SomeRight flags)
    (hrun : s.pagingMapPage B virt phys flags = some (true, s'))
    (hpool : s'.gEarlyPtPoolUsed = s.gEarlyPtPoolUsed) : s'.Maps m virt phys flags :=
  (maps_of_pagingMapPage h hconf hcanon hlt hflags hrun (Or.inl hpool)).2

/-- The first page of the higher half, mapped to a device page. -/
theorem pagingMapPage_maps_emptyTree :
    ∃ s', Maps Mmu.strict s' 0xffffffc000000000#64 0x10000000#64 pagingProtRwg :=
  ⟨_, pagingMapPage_maps sound_emptyTree conforms_emptyTree (by decide) (by decide) (by decide)
    (show emptyTree.pagingMapPage exampleBoot 0xffffffc000000000#64 0x10000000#64 pagingProtRwg
      = some (true, _) from rfl) rfl⟩

/-- **A call affects the page it is given and no other**; a call that fails
affects none, and every frame that it has taken is a table of the tree. -/
theorem pagingMapPage_frame (h : Sound B m s) (hcanon : Canonical s.gLevels virt)
    (hrun : s.pagingMapPage B virt phys flags = some (r, s'))
    (hpool : s'.gEarlyPtPoolUsed = s.gEarlyPtPoolUsed) :
    (∀ va, Canonical s.gLevels va → va.toNat / 2 ^ 12 ≠ virt.toNat / 2 ^ 12 →
        s'.translation m va = s.translation m va)
      ∧ (r = false → ∀ va, s'.translation m va = s.translation m va)
      ∧ ∀ f ∈ s.freeFrames, f ∈ s'.freeFrames ∨ f ∈ s'.tables m := by
  have heff := mapEffect_of_pagingMapPage h hrun (Or.inl hpool)
  refine ⟨fun va hva hpage => heff.frame va (fun he => hpage ?_), heff.failed, heff.taken⟩
  exact page_eq_of_indices_eq h.three_le h.le_five hva hcanon he

/-- On the empty tree, the page below the one mapped. -/
theorem pagingMapPage_frame_emptyTree :
    ∃ s', translation Mmu.strict s' 0x3ffffff000#64
      = emptyTree.translation Mmu.strict 0x3ffffff000#64 :=
  ⟨_, (pagingMapPage_frame sound_emptyTree (by decide)
    (show emptyTree.pagingMapPage exampleBoot 0xffffffc000000000#64 0x10000000#64 pagingProtRwg
      = some (true, _) from rfl) rfl).1 _ (by decide) (by decide)⟩

end Paging
