import Risky.PagingRange

/-!
# Page tables and their frames over whole runs

The page-table code draws its tables from the memory manager, which also
serves other clients. Here both run together, in any order: clients allocate,
free and write to the blocks they hold, and pages, ranges and devices are
mapped. In every state so reached the tree is still a tree, and its tables are
those of the boot loader and frames that the memory manager records as
allocated, none of them free or in the hands of a client
(`Paging.treeSafe_of_reach`).

The invariant is that the memory manager represents a buddy system whose held
blocks are those of the clients and, apart from them, those of the tables
(`Paging.Joint`).
-/

namespace Paging

variable {B : Boot} {m : Mmu} {virt phys flags : BitVec 64} {s₀ : Pmm}
variable {boot s s' s₁ : Paging} {A A' T : Finset Block} {r : Bool} {f : ℕ}

/-! ## The system -/

/-- **One step of the system**, with the blocks that clients hold. The map
calls are those whose new tables come from the memory manager. -/
inductive SystemStep (B : Boot) : Paging × Finset Block → Paging × Finset Block → Prop
  /-- A client calls the memory manager. -/
  | client {s : Paging} {A A' : Finset Block} {pmm : Pmm}
      (h : Pmm.ClientStep B.hhdm (s.pmm, A) (pmm, A')) :
      SystemStep B (s, A) ({ s with pmm := pmm }, A')
  /-- A client writes to a frame it holds. -/
  | store {s : Paging} {A : Finset Block} {b : Block} {f : ℕ} (hb : b ∈ A) (hf : f ∈ b)
      (words : BitVec 9 → BitVec 64) :
      SystemStep B (s, A) ({ s with mem := Function.update s.mem f words }, A)
  | mapPage {s s' : Paging} {A : Finset Block} {virt phys flags : BitVec 64} {r : Bool}
      (h : s.pagingMapPage B virt phys flags = some (r, s'))
      (hpool : s'.gEarlyPtPoolUsed = s.gEarlyPtPoolUsed) : SystemStep B (s, A) (s', A)
  | mapRange {s s' : Paging} {A : Finset Block} {virt phys size flags : BitVec 64} {r : Bool}
      (h : s.pagingMapRange B virt phys size flags = some (r, s'))
      (hpool : s'.gEarlyPtPoolUsed = s.gEarlyPtPoolUsed) : SystemStep B (s, A) (s', A)
  | mapMmio {s s' : Paging} {A : Finset Block} {phys size : BitVec 64} {r : Bool}
      (h : s.pagingMapMmio B phys size = some (r, s'))
      (hpool : s'.gEarlyPtPoolUsed = s.gEarlyPtPoolUsed) : SystemStep B (s, A) (s', A)

/-- **The states the system can reach** from `boot`, with the blocks that
clients then hold. -/
def Reach (B : Boot) (boot s : Paging) (A : Finset Block) : Prop :=
  Relation.ReflTransGen (SystemStep B) (boot, ∅) (s, A)

/-- **The state at boot**: `pmm_init` has run over the database `s₀`, and the
tables of the boot loader's tree are outside the frames it made free. -/
structure BootTree (B : Boot) (m : Mmu) (s₀ : Pmm) (boot : Paging) : Prop where
  bootDb : s₀.BootDb
  pmm : boot.pmm = s₀.pmmInit.2
  three_le : 3 ≤ boot.gLevels
  le_five : boot.gLevels ≤ 5
  root_page : pfnPhys boot.root = boot.gRootPhys
  wellFormed : m.WellFormed boot.mem boot.gLevels boot.root
  outside : ∀ a ∈ boot.tables m, a ∉ s₀.usableFrames
  /-- The direct map shows the tables and the free frames. -/
  shown : ∀ a ∈ boot.tables m, B.Shows a
  usable_shown : ∀ f ∈ s₀.usableFrames, B.Shows f
  noNull : Pmm.NoNullFrame B.hhdm s₀.gMaxPfn

/-! ## The invariant -/

/-- **The memory manager and the tree agree** on who has which frame: the
blocks it holds are those of the clients, `A`, and those of the tables, `T`. -/
structure Joint (m : Mmu) (s₀ : Pmm) (boot s : Paging) (A T : Finset Block) : Prop where
  represents : Pmm.Represents s₀ s.pmm (A ∪ T)
  disjoint : Disjoint A T
  order : ∀ b ∈ T, b.order = 0
  tables : ∀ a, a ∈ s.tables m ↔ a ∈ boot.tables m ∨ (⟨a, 0⟩ : Block) ∈ T
  gLevels : s.gLevels = boot.gLevels
  gRootPhys : s.gRootPhys = boot.gRootPhys
  wellFormed : m.WellFormed s.mem s.gLevels s.root

/-- A frame that is free is usable and in no block that is held. -/
theorem freeFrame_iff (h : Pmm.Represents s₀ s.pmm A) :
    f ∈ s.freeFrames ↔ f ∈ s₀.usableFrames ∧ ∀ b ∈ A, f ∉ b := by
  obtain ⟨S, hinv, rfl, -, -⟩ := h
  show s.pmm.gPmmReady = true ∧ s.pmm.FreeFrame f ↔ _
  rw [Pmm.freeFrame_iff_mem_freeSet hinv, S.mem_freeSet_iff, Finset.mem_coe,
    and_iff_right hinv.ready]

/-- A frame of a held block is usable. -/
theorem usable_of_held (h : Pmm.Represents s₀ s.pmm A) {b : Block} (hb : b ∈ A) (hf : f ∈ b) :
    f ∈ s₀.usableFrames := by
  obtain ⟨S, -, rfl, -, -⟩ := h
  exact Finset.mem_coe.mp (Pmm.mem_usable (S.mem_blocks_of_held hb) hf)

/-- Held blocks do not overlap. -/
theorem eq_of_held (h : Pmm.Represents s₀ s.pmm A) {b c : Block} (hb : b ∈ A) (hc : c ∈ A)
    (hfb : f ∈ b) (hfc : f ∈ c) : b = c := by
  obtain ⟨S, -, rfl, -, -⟩ := h
  exact S.isPartition.eq_of_mem b (S.mem_blocks_of_held hb) c (S.mem_blocks_of_held hc) f hfb hfc

theorem mem_block_zero {a : ℕ} : f ∈ (⟨a, 0⟩ : Block) ↔ f = a := by
  rw [Block.mem_def]
  show a ≤ f ∧ f < a + 2 ^ 0 ↔ _
  omega

namespace Joint

theorem root_eq (h : Joint m s₀ boot s A T) : s.root = boot.root :=
  congrArg physPfn h.gRootPhys

/-- The frame of a table is in no block of a client. -/
theorem notMem_of_mem_tables (hb : BootTree B m s₀ boot) (h : Joint m s₀ boot s A T) {a : ℕ}
    (ha : a ∈ s.tables m) : ∀ b ∈ A, a ∉ b := by
  intro b hbA hab
  rcases (h.tables a).mp ha with hboot | hT
  · exact hb.outside a hboot (usable_of_held h.represents (Finset.mem_union_left _ hbA) hab)
  · have := eq_of_held h.represents (Finset.mem_union_left _ hbA) (Finset.mem_union_right _ hT)
      hab (mem_block_zero.mpr rfl)
    exact Finset.disjoint_left.mp h.disjoint hbA (this ▸ hT)

/-- **The state is in order.** -/
theorem sound (hb : BootTree B m s₀ boot) (h : Joint m s₀ boot s A T) : Sound B m s where
  three_le := h.gLevels ▸ hb.three_le
  le_five := h.gLevels ▸ hb.le_five
  root_page := by rw [h.root_eq, hb.root_page, h.gRootPhys]
  wellFormed := h.wellFormed
  shown a ha := by
    rcases (h.tables a).mp ha with hboot | hT
    · exact hb.shown a hboot
    · exact hb.usable_shown a (usable_of_held h.represents (Finset.mem_union_right _ hT)
        (mem_block_zero.mpr rfl))
  managed _ := by
    obtain ⟨S, hinv, -⟩ := h.represents
    exact ⟨_, S, hinv⟩
  fresh f hf ha := by
    obtain ⟨husable, hnot⟩ := (freeFrame_iff h.represents).mp hf
    rcases (h.tables f).mp ha with hboot | hT
    · exact hb.outside f hboot husable
    · exact hnot _ (Finset.mem_union_right _ hT) (mem_block_zero.mpr rfl)
  free_shown f hf := hb.usable_shown f ((freeFrame_iff h.represents).mp hf).1

/-- **A new table** moves a frame from the free ones to the tables. -/
theorem grew (hb : BootTree B m s₀ boot) (h : Joint m s₀ boot s A T)
    (hg : Grew B m virt s s') (hpool : s'.gEarlyPtPoolUsed = s.gEarlyPtPoolUsed) :
    ∃ T', Joint m s₀ boot s' A T' := by
  obtain ⟨level, a, c, s₁, hpath, habsent, hs, hl, rfl⟩ := hg
  have hsound := h.sound hb
  have htables := tables_linkTable hsound hpath habsent hl
  have hsound' := hsound.linkTable hpath habsent hl
  cases hs with
  | pool hused => exact absurd hpool (Nat.succ_ne_self _)
  | pageAlloc hready hrun =>
    obtain ⟨hnot, hrep⟩ := h.represents.pageAlloc hrun
    refine ⟨insert ⟨c, 0⟩ T, ?_, ?_, ?_, fun b => ?_, h.gLevels, h.gRootPhys, hsound'.wellFormed⟩
    · rw [Finset.union_insert]
      exact hrep
    · rw [Finset.disjoint_insert_right]
      exact ⟨fun hA => hnot (Finset.mem_union_left _ hA), h.disjoint⟩
    · intro b hb
      rcases Finset.mem_insert.mp hb with rfl | hb
      · rfl
      · exact h.order b hb
    · rw [htables, Set.mem_insert_iff, h.tables, Finset.mem_insert, Block.mk.injEq]
      tauto

theorem grews (hb : BootTree B m s₀ boot) (h : Joint m s₀ boot s A T)
    (hg : Relation.ReflTransGen (Grew B m virt) s s')
    (hpool : s'.gEarlyPtPoolUsed = s.gEarlyPtPoolUsed) : ∃ T', Joint m s₀ boot s' A T' := by
  induction hg with
  | refl => exact ⟨T, h⟩
  | @tail s₁ s₂ hg hstep ih =>
    have hle := (extends_of_grew (h.sound hb) hg).2.pool_le
    have hsound₁ := (extends_of_grew (h.sound hb) hg).1
    have hle' := (Grew.extends hsound₁ hstep).2.pool_le
    obtain ⟨T₁, h₁⟩ := ih (le_antisymm (hpool ▸ hle') hle)
    exact h₁.grew hb hstep (le_antisymm (hpool ▸ hle) hle')

/-- **One map call** keeps the agreement. -/
theorem mapPage (hb : BootTree B m s₀ boot) (h : Joint m s₀ boot s A T)
    (hrun : s.pagingMapPage B virt phys flags = some (r, s'))
    (hpool : s'.gEarlyPtPoolUsed = s.gEarlyPtPoolUsed) : ∃ T', Joint m s₀ boot s' A T' := by
  rcases pagingMapPage_spec (h.sound hb) hrun (Or.inl hpool) with ⟨-, rfl, -⟩ |
    ⟨-, s₁, hgrew, hfin⟩
  · exact ⟨T, h⟩
  obtain ⟨T', h'⟩ := h.grews hb hgrew (hfin.gEarlyPtPoolUsed ▸ hpool)
  obtain ⟨hsound, htables, -⟩ := hfin.frame (h'.sound hb)
  exact ⟨T', hfin.pmm ▸ h'.represents, h'.disjoint, h'.order, fun a => htables ▸ h'.tables a,
    hfin.gLevels.trans h'.gLevels, hfin.gRootPhys.trans h'.gRootPhys, hsound.wellFormed⟩

theorem pageCalls (hb : BootTree B m s₀ boot) (h : Joint m s₀ boot s A T)
    (hrun : Relation.ReflTransGen (PageCall B) s s')
    (hpool : s'.gEarlyPtPoolUsed = s.gEarlyPtPoolUsed) : ∃ T', Joint m s₀ boot s' A T' := by
  induction hrun with
  | refl => exact ⟨T, h⟩
  | tail hcalls hcall ih =>
    obtain ⟨virt, phys, flags, r, hrun⟩ := hcall
    have hle := pool_le_of_pageCalls hcalls
    have hle' := pool_le_of_pagingMapPage hrun
    obtain ⟨T₁, h₁⟩ := ih (le_antisymm (hpool ▸ hle') hle)
    exact h₁.mapPage hb hrun (le_antisymm (hpool ▸ hle) hle')

/-- **One step of the system** keeps the agreement. -/
theorem step (hb : BootTree B m s₀ boot) (h : Joint m s₀ boot s A T)
    (hstep : SystemStep B (s, A) (s', A')) : ∃ T', Joint m s₀ boot s' A' T' := by
  cases hstep with
  | client hclient =>
    obtain ⟨hunion, hdisj⟩ := hclient.union hb.noNull h.represents h.disjoint
    exact ⟨T, h.represents.step hb.noNull hunion, hdisj, h.order, h.tables, h.gLevels,
      h.gRootPhys, h.wellFormed⟩
  | @store _ _ b f hbA hf words =>
    have hagree : ∀ a ∈ s.tables m, Function.update s.mem f words a = s.mem a := fun a ha =>
      Function.update_of_ne (fun he => h.notMem_of_mem_tables hb ha b hbA (by
        rw [he]
        exact hf)) _ _
    refine ⟨T, h.represents, h.disjoint, h.order, fun a => ?_, h.gLevels, h.gRootPhys,
      h.wellFormed.of_agree hagree⟩
    rw [← h.tables a]
    exact Set.ext_iff.mp (TableTree.tables_eq_of_agree hagree) a
  | mapPage hrun hpool => exact h.mapPage hb hrun hpool
  | mapRange hrun hpool => exact h.pageCalls hb (pageCalls_of_pagingMapRange hrun) hpool
  | mapMmio hrun hpool => exact h.pageCalls hb (pageCalls_of_pagingMapMmio hrun) hpool

end Joint

theorem joint_boot (hb : BootTree B m s₀ boot) : Joint m s₀ boot boot ∅ ∅ where
  represents := by
    rw [hb.pmm]
    exact Pmm.represents_pmmInit hb.bootDb
  disjoint := Finset.disjoint_empty_left _
  order _ hb := absurd hb (Finset.notMem_empty _)
  tables a := by simp
  gLevels := rfl
  gRootPhys := rfl
  wellFormed := hb.wellFormed

theorem Reach.joint (hb : BootTree B m s₀ boot) (h : Reach B boot s A) :
    ∃ T, Joint m s₀ boot s A T := by
  have key : ∀ x : Paging × Finset Block,
      Relation.ReflTransGen (SystemStep B) (boot, ∅) x → ∃ T, Joint m s₀ boot x.1 x.2 T := by
    intro x hx
    induction hx with
    | refl => exact ⟨∅, joint_boot hb⟩
    | tail _ hstep ih =>
      obtain ⟨T, hT⟩ := ih
      exact hT.step hb hstep
  exact key (s, A) h

/-! ## What holds in every reachable state -/

/-- **The tables of the tree are safe.** -/
structure TreeSafe (m : Mmu) (boot s : Paging) (A : Finset Block) : Prop where
  /-- Each table is reached by exactly one path, shorter than the number of
  levels. -/
  onePath : ∀ a ∈ s.tables m, ∃! p : List (BitVec 9),
    p.length < s.gLevels ∧ TableTree.descend m.next s.mem s.root p = some a
  /-- Each is one of the boot loader's, or an allocated block of order 0. -/
  owned : ∀ a ∈ s.tables m, a ∈ boot.tables m
    ∨ (s.pmm.pages a).flags = Page.USED ∧ (s.pmm.pages a).order = 0
  /-- None is on or inside a block of a free list. -/
  notFree : ∀ a ∈ s.tables m, ¬ s.pmm.FreeFrame a
  /-- None is in a block of a client. -/
  notClient : ∀ a ∈ s.tables m, ∀ b ∈ A, a ∉ b

/-- **In every reachable state the tables of the tree are safe**, after any
map calls, successful or not, among any calls of clients. -/
theorem treeSafe_of_reach (hb : BootTree B m s₀ boot) (h : Reach B boot s A) :
    TreeSafe m boot s A := by
  obtain ⟨T, hT⟩ := h.joint hb
  have hsound := hT.sound hb
  refine ⟨fun a ha => ?_, fun a ha => ?_, fun a ha hfree => ?_,
    fun a ha => hT.notMem_of_mem_tables hb ha⟩
  · obtain ⟨p, hp, hpa⟩ := ha
    exact ⟨p, ⟨hp, hpa⟩, fun q hq => hsound.wellFormed.isTree a q p hq.1 hp hq.2 hpa⟩
  · refine ((hT.tables a).mp ha).imp_right (fun hmem => ?_)
    obtain ⟨S, hinv, hheld, -⟩ := hT.represents
    obtain ⟨lists, hr⟩ := hinv.refines
    exact hr.held_page ⟨a, 0⟩ (hheld ▸ Finset.mem_union_right _ hmem) (by simp)
  · obtain ⟨S, hinv, -⟩ := hT.represents
    exact hsound.fresh a ⟨hinv.ready, hfree⟩ ha

theorem bootTree_emptyTree : BootTree exampleBoot m Pmm.twoFrames emptyTree where
  bootDb := Pmm.bootDb_twoFrames
  pmm := rfl
  three_le := by decide
  le_five := by decide
  root_page := by decide
  wellFormed := sound_emptyTree.wellFormed
  outside := by
    rw [tables_emptyTree]
    rintro a rfl
    decide
  shown := sound_emptyTree.shown
  usable_shown f hf := shows_exampleBoot (by
    have hle := (Pmm.mem_usableFrames.mp hf).1
    change f ≤ 1 at hle
    omega)
  noNull := Pmm.noNullFrame_twoFrames

/-- A page is mapped, and no frame is left for the client. -/
theorem treeSafe_emptyTree :
    ∃ s, s.pmm.gFreePages = 0 ∧ TreeSafe Mmu.strict emptyTree s ∅ :=
  ⟨_, by decide +kernel, treeSafe_of_reach bootTree_emptyTree
    ((Relation.ReflTransGen.single (SystemStep.mapPage
      (show emptyTree.pagingMapPage exampleBoot 0xffffffc000000000#64 0x10000000#64
        pagingProtRwg = some (true, _) from rfl) rfl)).tail
      (SystemStep.client (Pmm.ClientStep.pageAllocFail 0 rfl)))⟩

end Paging
