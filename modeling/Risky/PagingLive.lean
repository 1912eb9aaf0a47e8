import Risky.PagingInit
import Risky.PagingRuns

/-!
# The tables in use, over whole runs

Where a new table comes from the memory manager, the memory manager knows that
it is taken. Where it comes from `g_early_pt_pool`, only the index
`g_early_pt_pool_used` does, and both `paging_early_init` and `paging_init` set
it back to zero, while the tree that the tables are linked into stays in
`satp`.

Here the tree is taken as the code walks it: an entry leads to the page that
the kernel's own mappings show at the address the code computes. In every run
in which `paging_init` is called before the pool has been drawn from, no table
that is handed out is in the tree already, and a mapping survives every call
that does not itself ask for the page (`Paging.stepSafe_of_run`). Otherwise a
live table is zeroed and linked a second time
(`Paging.not_stepSafe_pooledTree`).
-/

/-- **The table an entry leads to**, as the code follows it. -/
def Boot.next (B : Boot) (e : BitVec 64) : Option ℕ :=
  if Pte.pointer e then some (B.tablePage (physToVirt B.hhdm (pagingPteToPhys e))) else none

namespace Paging

variable {B : Boot} {m : Mmu} {R : Responses} {I : KernelImage} {satp : BitVec 64}
  {s₀ : Pmm} {boot s s' s₁ s₂ : Paging} {A A' T : Finset Block} {r : Bool}
  {l l' : List MapRequest} {q : MapRequest} {virt phys flags va e : BitVec 64}
  {a c level k : ℕ}

/-! ## The tree as the code walks it -/

/-- The page of the root table. -/
def codeRoot (B : Boot) (s : Paging) : ℕ := B.tablePage (s.pagingRootVirt B)

/-- **The tables in use.** -/
def liveTables (B : Boot) (s : Paging) : Set ℕ :=
  TableTree.tables B.next s.mem s.gLevels (s.codeRoot B)

/-- The entry at which the walk of an address stops. -/
def liveLookup (B : Boot) (s : Paging) (va : BitVec 64) : Option (BitVec 64 × ℕ) :=
  TableTree.lookup B.next s.mem (s.codeRoot B) (indices va s.gLevels)

theorem next_of_pointer (h : Pte.pointer e = true) :
    B.next e = some (B.tablePage (physToVirt B.hhdm (pagingPteToPhys e))) := if_pos h

theorem codeNext_of_not_pointer (h : Pte.pointer e = false) : B.next e = none :=
  if_neg (h ▸ Bool.false_ne_true)

theorem codeNext_of_not_valid (h : Pte.v e = false) : B.next e = none := by
  refine codeNext_of_not_pointer ?_
  unfold Pte.pointer
  rw [h]
  rfl

/-- **The entry made for a table leads back to it**, wherever the table is. -/
theorem codeNext_pagingTablePte {table : BitVec 64}
    (h : (virtToPhys B.hhdm table).toNat % 2 ^ 12 = 0) :
    B.next (pagingTablePte (virtToPhys B.hhdm table)) = some (B.tablePage table) := by
  rw [next_of_pointer (pointer_pagingTablePte _), pagingPteToPhys_pagingTablePte h,
    physToVirt_virtToPhys]

/-- The table of a level on the walk of an address. -/
def OnLivePath (B : Boot) (virt : BitVec 64) (s : Paging) (level a : ℕ) : Prop :=
  ∃ p, TableTree.descend B.next s.mem (s.codeRoot B) p = some a
    ∧ p ++ indices virt (level + 1) = indices virt s.gLevels

theorem onLivePath_root (virt : BitVec 64) (h : 0 < s.gLevels) :
    OnLivePath B virt s (s.gLevels - 1) (s.codeRoot B) :=
  ⟨[], rfl, by rw [Nat.sub_add_cancel h]; rfl⟩

theorem OnLivePath.step {b : ℕ} (h : OnLivePath B virt s (level + 1) a)
    (hb : B.next (s.mem a (vpn virt (level + 1))) = some b) : OnLivePath B virt s level b := by
  obtain ⟨p, hp, hpath⟩ := h
  exact ⟨p ++ [vpn virt (level + 1)], by rw [TableTree.descend_concat hp, hb],
    OnPath.concat hpath⟩

/-- **At boot the code and the hardware walk the same tree.** -/
theorem next_eq_next (hb : BootTree B m s₀ boot) :
    ∀ p b i, p.length + 1 < boot.gLevels →
      TableTree.descend m.next boot.mem boot.root p = some b →
        B.next (boot.mem b i) = m.next (boot.mem b i) := by
  intro p b i hlen hp
  by_cases hptr : Pte.pointer (boot.mem b i) = true
  · obtain ⟨hhigh, hres⟩ := hb.wellFormed.pointers p b hlen hp i hptr
    have hnext : m.next (boot.mem b i) = some (Pte.ppn (boot.mem b i)) :=
      Mmu.next_eq_some_iff.mpr ⟨hptr, hres, rfl⟩
    have hshown := hb.shown (Pte.ppn (boot.mem b i))
      ⟨p ++ [i], by simpa using hlen, by rw [TableTree.descend_concat hp, hnext]⟩
    rw [hnext, next_of_pointer hptr, pagingPteToPhys_eq hhigh, hshown.2.1]
  · rw [Bool.not_eq_true] at hptr
    rw [codeNext_of_not_pointer hptr]
    unfold Mmu.next
    rw [hptr]
    rfl

theorem codeRoot_boot (hb : BootTree B m s₀ boot) : boot.codeRoot B = boot.root := by
  have hthree := hb.three_le
  have hshown := hb.shown boot.root (TableTree.root_mem_tables (by omega))
  unfold codeRoot pagingRootVirt
  rw [← hb.root_page, hshown.2.1]

theorem liveTables_boot (hb : BootTree B m s₀ boot) : boot.liveTables B = boot.tables m := by
  unfold liveTables
  rw [codeRoot_boot hb]
  exact TableTree.tables_eq_of_next (next_eq_next hb)

/-! ## The invariant -/

/-- **The boot loader's tree and the pool** are apart from each other and from
the memory that is handed out. -/
structure LiveBoot (B : Boot) (m : Mmu) (s₀ : Pmm) (boot : Paging) : Prop where
  tree : BootTree B m s₀ boot
  pool_notMem : ∀ i < earlyPtPoolSize, B.poolPage i ∉ boot.tables m
  pool_notUsable : ∀ i < earlyPtPoolSize, B.poolPage i ∉ s₀.usableFrames

/-- **Who has which table**: the memory manager holds the blocks of the clients,
`A`, and those of tables, `T`; the other tables are the boot loader's, or have
been drawn from the pool. -/
structure LiveJoint (B : Boot) (s₀ : Pmm) (boot s : Paging) (A T : Finset Block) : Prop where
  represents : Pmm.Represents s₀ s.pmm (A ∪ T)
  disjoint : Disjoint A T
  isTree : TableTree.IsTree B.next s.mem s.gLevels (s.codeRoot B)
  tables : ∀ a ∈ s.liveTables B, a ∈ boot.liveTables B ∨ (⟨a, 0⟩ : Block) ∈ T
    ∨ ∃ i < s.gEarlyPtPoolUsed, i < earlyPtPoolSize ∧ a = B.poolPage i
  gLevels : s.gLevels = boot.gLevels
  gRootPhys : s.gRootPhys = boot.gRootPhys

/-- A usable frame that is a table is the block of a table. -/
theorem LiveJoint.mem_of_usable (hb : LiveBoot B m s₀ boot) (h : LiveJoint B s₀ boot s A T)
    (ha : a ∈ s.liveTables B) (husable : a ∈ s₀.usableFrames) : (⟨a, 0⟩ : Block) ∈ T := by
  rcases h.tables a ha with hboot | hT | ⟨i, -, hi, rfl⟩
  · rw [liveTables_boot hb.tree] at hboot
    exact absurd husable (hb.tree.outside a hboot)
  · exact hT
  · exact absurd husable (hb.pool_notUsable i hi)

/-- **No free frame is a table.** -/
theorem LiveJoint.notMem_of_free (hb : LiveBoot B m s₀ boot) (h : LiveJoint B s₀ boot s A T)
    (hfree : a ∈ s.freeFrames) : a ∉ s.liveTables B := by
  intro ha
  obtain ⟨husable, hnot⟩ := (freeFrame_iff h.represents).mp hfree
  exact hnot _ (Finset.mem_union_right _ (h.mem_of_usable hb ha husable))
    (mem_block_zero.mpr rfl)

/-- **No frame of a client is a table.** -/
theorem LiveJoint.notMem_of_client (hb : LiveBoot B m s₀ boot) (h : LiveJoint B s₀ boot s A T)
    {b : Block} (hbA : b ∈ A) (hab : a ∈ b) : a ∉ s.liveTables B := by
  intro ha
  have hA := Finset.mem_union_left T hbA
  have hT := h.mem_of_usable hb ha (usable_of_held h.represents hA hab)
  have heq := eq_of_held h.represents hA (Finset.mem_union_right _ hT) hab
    (mem_block_zero.mpr rfl)
  exact Finset.disjoint_left.mp h.disjoint hbA (heq ▸ hT)

/-- **No table that is left in the pool is in use.** -/
theorem LiveJoint.notMem_of_pool (hb : LiveBoot B m s₀ boot) (h : LiveJoint B s₀ boot s A T)
    {i : ℕ} (hi : i < earlyPtPoolSize) (hused : s.gEarlyPtPoolUsed ≤ i) :
    B.poolPage i ∉ s.liveTables B := by
  intro ha
  rcases h.tables _ ha with hboot | hT | ⟨j, hj, hj', heq⟩
  · rw [liveTables_boot hb.tree] at hboot
    exact hb.pool_notMem i hi hboot
  · exact hb.pool_notUsable i hi (usable_of_held h.represents (Finset.mem_union_right _ hT)
      (mem_block_zero.mpr rfl))
  · have := poolPage_injective hi hj' heq
    omega

theorem LiveJoint.stocked (hb : LiveBoot B m s₀ boot) (h : LiveJoint B s₀ boot s A T) :
    Stocked B s where
  managed _ := by
    obtain ⟨S, hinv, -⟩ := h.represents
    exact ⟨_, S, hinv⟩
  free_shown f hf := hb.tree.usable_shown f ((freeFrame_iff h.represents).mp hf).1

/-- **A table that is supplied is not in use.** -/
theorem LiveJoint.notMem_of_supplies (hb : LiveBoot B m s₀ boot) (h : LiveJoint B s₀ boot s A T)
    (hs : Supplies B s c s₁) : c ∉ s.liveTables B := by
  cases hs with
  | pageAlloc hready hrun =>
    exact h.notMem_of_free hb ((h.stocked hb).pageAlloc hready hrun).mem
  | pool hused => exact h.notMem_of_pool hb hused le_rfl

/-! ## What a call keeps -/

/-- **What a call keeps**, that makes at most the requests of a list: every
table in use, and every mapping that none of the requests asks to change. -/
structure Preserves (B : Boot) (l : List MapRequest) (s s' : Paging) : Prop where
  gLevels : s'.gLevels = s.gLevels
  tables : s.liveTables B ⊆ s'.liveTables B
  survives : ∀ va e k, s.liveLookup B va = some (e, k) → Pte.v e = true →
    (∀ q ∈ l, indices q.virt s.gLevels = indices va s.gLevels →
      pagingEntryCovers e q.virt q.phys q.flags k = true) → s'.liveLookup B va = some (e, k)

theorem Preserves.refl (B : Boot) (l : List MapRequest) (s : Paging) : Preserves B l s s :=
  ⟨rfl, subset_rfl, fun _ _ _ h _ _ => h⟩

theorem Preserves.trans (h : Preserves B l s s₁) (h' : Preserves B l' s₁ s₂) :
    Preserves B (l ++ l') s s₂ := by
  refine ⟨h'.gLevels.trans h.gLevels, h.tables.trans h'.tables, fun va e k hlookup hv hl => ?_⟩
  refine h'.survives va e k (h.survives va e k hlookup hv (fun q hq => ?_)) hv (fun q hq hi => ?_)
  · exact hl q (List.mem_append_left _ hq)
  · rw [h.gLevels] at hi
    exact hl q (List.mem_append_right _ hq) hi

/-! ## One new table -/

section Link

variable (hb : LiveBoot B m s₀ boot) (h : LiveJoint B s₀ boot s A T)
  (hpath : OnLivePath B virt s (level + 1) a)
  (habsent : Pte.v (s.mem a (vpn virt (level + 1))) = false) (hs : Supplies B s c s₁)
  (he : B.next e = some c)

/-- The state after a table has been linked at an entry. -/
def linkEntry (s : Paging) (c a : ℕ) (i : BitVec 9) (e : BitVec 64) : Paging :=
  { s with mem := TableTree.link s.mem c 0#64 a i e }

theorem Supplies.mem (hs : Supplies B s c s₁) : s₁.mem = s.mem := by
  cases hs <;> rfl

theorem Supplies.gLevels (hs : Supplies B s c s₁) : s₁.gLevels = s.gLevels := by
  cases hs <;> rfl

theorem Supplies.gRootPhys (hs : Supplies B s c s₁) : s₁.gRootPhys = s.gRootPhys := by
  cases hs <;> rfl

/-- The walk of a state with other memory. -/
theorem codeRoot_linkEntry (hs : Supplies B s c s₁) (i : BitVec 9) :
    (s₁.linkEntry c a i e).codeRoot B = s.codeRoot B := by
  show B.tablePage (physToVirt B.hhdm s₁.gRootPhys) = _
  rw [hs.gRootPhys]
  rfl

include hb h hpath habsent hs he

theorem liveTables_linkEntry :
    (s₁.linkEntry c a (vpn virt (level + 1)) e).liveTables B = insert c (s.liveTables B) := by
  obtain ⟨p, hp, hp'⟩ := hpath
  have hlen := OnPath.length hp'
  unfold liveTables
  rw [codeRoot_linkEntry hs]
  unfold linkEntry
  rw [hs.mem, hs.gLevels]
  exact TableTree.tables_link h.isTree hp (by omega) (codeNext_of_not_valid habsent)
    (h.notMem_of_supplies hb hs) he (codeNext_of_not_valid (by decide)) (by omega)

/-- **A new table keeps the agreement.** -/
theorem LiveJoint.linkEntry :
    ∃ T', LiveJoint B s₀ boot (s₁.linkEntry c a (vpn virt (level + 1)) e) A T' := by
  have htables := liveTables_linkEntry hb h hpath habsent hs he
  obtain ⟨p, hp, hp'⟩ := hpath
  have hlen := OnPath.length hp'
  have htree : TableTree.IsTree B.next (s₁.linkEntry c a (vpn virt (level + 1)) e).mem
      (s₁.linkEntry c a (vpn virt (level + 1)) e).gLevels
      ((s₁.linkEntry c a (vpn virt (level + 1)) e).codeRoot B) := by
    rw [codeRoot_linkEntry hs]
    unfold Paging.linkEntry
    rw [hs.mem, hs.gLevels]
    exact TableTree.isTree_link h.isTree hp (by omega) (codeNext_of_not_valid habsent)
      (h.notMem_of_supplies hb hs) he (codeNext_of_not_valid (by decide))
  have hlevels := hs.gLevels.trans h.gLevels
  have hroot := hs.gRootPhys.trans h.gRootPhys
  cases hs with
  | pageAlloc hready hrun =>
    obtain ⟨hnot, hrep⟩ := h.represents.pageAlloc hrun
    refine ⟨insert ⟨c, 0⟩ T, ?_, ?_, htree, fun b hbmem => ?_, hlevels, hroot⟩
    · rw [Finset.union_insert]
      exact hrep
    · rw [Finset.disjoint_insert_right]
      exact ⟨fun hA => hnot (Finset.mem_union_left _ hA), h.disjoint⟩
    · rw [htables] at hbmem
      rcases hbmem with rfl | hbmem
      · exact Or.inr (Or.inl (Finset.mem_insert_self _ _))
      · exact (h.tables b hbmem).imp_right (Or.imp_left (Finset.mem_insert_of_mem))
  | pool hused =>
    refine ⟨T, h.represents, h.disjoint, htree, fun b hbmem => ?_, hlevels, hroot⟩
    rw [htables] at hbmem
    rcases hbmem with rfl | hbmem
    · exact Or.inr (Or.inr ⟨_, Nat.lt_succ_self _, hused, rfl⟩)
    · refine (h.tables b hbmem).imp_right (Or.imp_right ?_)
      rintro ⟨i, hi, hrest⟩
      exact ⟨i, hi.trans (Nat.lt_succ_self _), hrest⟩

/-- **A new table moves no mapping.** -/
theorem preserves_linkEntry : Preserves B [] s (s₁.linkEntry c a (vpn virt (level + 1)) e) := by
  refine ⟨hs.gLevels, ?_, fun va e' k hlookup hv _ => ?_⟩
  · rw [liveTables_linkEntry hb h hpath habsent hs he]
    exact Set.subset_insert _ _
  obtain ⟨p, hp, hp'⟩ := hpath
  have hlen := OnPath.length hp'
  have hne : s.mem a (vpn virt (level + 1)) ≠ e' := by
    rintro rfl
    exact absurd (habsent.symm.trans hv) Bool.false_ne_true
  unfold liveLookup at hlookup ⊢
  rw [codeRoot_linkEntry hs]
  unfold linkEntry
  rw [hs.mem, hs.gLevels]
  exact TableTree.lookup_link_of_ne h.isTree hp (by omega) (codeNext_of_not_valid habsent)
    (h.notMem_of_supplies hb hs) (by simp) hlookup hne

omit habsent he in
theorem onLivePath_linkEntry :
    OnLivePath B virt (s₁.linkEntry c a (vpn virt (level + 1)) e) (level + 1) a := by
  obtain ⟨p, hp, hp'⟩ := hpath
  have hlen := OnPath.length hp'
  refine ⟨p, ?_, hp'.trans (congrArg (indices virt) hs.gLevels.symm)⟩
  rw [codeRoot_linkEntry hs]
  unfold linkEntry
  rw [hs.mem]
  exact TableTree.descend_link_self h.isTree hp (by omega) (h.notMem_of_supplies hb hs)

end Link

/-! ## Where tables are handed out -/

/-- The states in which the loop of `paging_map_one` calls
`paging_alloc_table`. -/
def mapLevelAllocs (B : Boot) (virtAddr : BitVec 64) : ℕ → BitVec 64 → Paging → List Paging
  | 0, _, _ => []
  | level + 1, table, s =>
    let index := pagingLevelIndex virtAddr (level + 1)
    (if s.load B table index &&& pteV = 0#64 then [s] else [])
      ++ match s.pagingFetch B table index with
        | some (some entry, s) =>
          if entry &&& (pteR ||| pteW ||| pteX) ≠ 0#64 then []
          else mapLevelAllocs B virtAddr level (physToVirt B.hhdm (pagingPteToPhys entry)) s
        | _ => []

/-- Those in which `paging_map_page` does. -/
def mapPageAllocs (B : Boot) (q : MapRequest) (s : Paging) : List Paging :=
  if q.virt &&& (pageSize - 1#64) ≠ 0#64 ∨ q.phys &&& (pageSize - 1#64) ≠ 0#64
      ∨ s.gRootPhys = 0#64 then []
  else mapLevelAllocs B q.virt (s.gLevels - 1) (s.pagingRootVirt B) s

/-- Those in which a run of requests does. -/
def requestsAllocs (B : Boot) : List MapRequest → Paging → List Paging
  | [], _ => []
  | q :: l, s =>
    mapPageAllocs B q s
      ++ match s.pagingMapPage B q.virt q.phys q.flags with
        | some (true, s) => requestsAllocs B l s
        | _ => []

/-- **A table that is handed out is not in use.** -/
theorem LiveJoint.notMem_of_pagingAllocTable (hb : LiveBoot B m s₀ boot)
    (h : LiveJoint B s₀ boot s A T) {table : BitVec 64}
    (hrun : s.pagingAllocTable B = some (table, s')) (hne : table ≠ 0#64) :
    B.tablePage table ∉ s.liveTables B := by
  rcases pagingAllocTable_spec m (h.stocked hb) with
    ⟨-, halloc⟩ | ⟨c, s₁, t, hs, halloc, -, hc, -⟩
  · rw [halloc] at hrun
    cases hrun
    exact absurd rfl hne
  · rw [halloc] at hrun
    cases hrun
    rw [hc]
    exact h.notMem_of_supplies hb hs

/-! ## One call -/

/-- **What is agreed after a part of a call**, and what the part has kept. -/
structure LiveStep (B : Boot) (s₀ : Pmm) (boot : Paging) (A : Finset Block)
    (l : List MapRequest) (s s' : Paging) : Prop where
  joint : ∃ T, LiveJoint B s₀ boot s' A T
  preserves : Preserves B l s s'

/-- **The first half of a turn.** -/
theorem pagingFetch_live (hb : LiveBoot B m s₀ boot) (h : LiveJoint B s₀ boot s A T)
    (hpath : OnLivePath B virt s (level + 1) a) {table : BitVec 64}
    (htable : B.tablePage table = a) {o : Option (BitVec 64)}
    (hrun : s.pagingFetch B table (pagingLevelIndex virt (level + 1)) = some (o, s')) :
    LiveStep B s₀ boot A [] s s' ∧ ∀ e, o = some e →
      e = s'.mem a (vpn virt (level + 1)) ∧ Pte.v e = true
        ∧ OnLivePath B virt s' (level + 1) a := by
  unfold pagingFetch load store at hrun
  dsimp only at hrun
  rw [htable, setWidth_pagingLevelIndex] at hrun
  by_cases habsent : Pte.v (s.mem a (vpn virt (level + 1))) = false
  swap
  · -- an entry that is present is returned as it is
    rw [if_neg (fun h₀ => habsent (and_pteV_eq_zero.mp h₀))] at hrun
    cases hrun
    refine ⟨⟨⟨T, h⟩, Preserves.refl B [] s⟩, fun e he => ?_⟩
    cases he
    exact ⟨rfl, Bool.not_eq_false _ ▸ habsent, hpath⟩
  rw [if_pos (and_pteV_eq_zero.mpr habsent)] at hrun
  rcases pagingAllocTable_spec m (h.stocked hb) with
    ⟨-, halloc⟩ | ⟨c, s₁, t, hs, halloc, ht, hc, haligned, -⟩
  · rw [halloc] at hrun
    cases hrun
    exact ⟨⟨⟨T, h⟩, Preserves.refl B [] s⟩, fun e he => absurd he (by simp)⟩
  · rw [halloc] at hrun
    dsimp only at hrun
    rw [if_neg ht] at hrun
    have hnext : B.next (pagingTablePte (virtToPhys B.hhdm t)) = some c :=
      hc ▸ codeNext_pagingTablePte haligned
    have hlink : ({ s₁.memsetTable B t with
        mem := TableTree.write (s₁.memsetTable B t).mem a (vpn virt (level + 1))
          (pagingTablePte (virtToPhys B.hhdm t)) } : Paging)
        = s₁.linkEntry c a (vpn virt (level + 1)) (pagingTablePte (virtToPhys B.hhdm t)) := by
      unfold memsetTable linkEntry TableTree.link
      rw [hc]
    rw [hlink] at hrun
    cases hrun
    refine ⟨⟨h.linkEntry hb hpath habsent hs hnext,
        preserves_linkEntry hb h hpath habsent hs hnext⟩,
      fun e he => ?_⟩
    cases he
    refine ⟨congrArg (fun x : Paging => x.mem a (vpn virt (level + 1))) hlink, ?_,
      onLivePath_linkEntry hb h hpath hs⟩
    rw [TableTree.write_same]
    exact (Pte.pointer_eq_true_iff.mp (pointer_pagingTablePte _)).1

/-- **The leaf that is written** changes no mapping but the one asked for. -/
theorem LiveJoint.writeLeaf (h : LiveJoint B s₀ boot s A T) (hpath : OnLivePath B virt s 0 a)
    (hnot : ¬ (Pte.v (s.mem a (vpn virt 0)) = true
      ∧ pagingEntryCovers (s.mem a (vpn virt 0)) virt phys flags 0 = true)) :
    LiveStep B s₀ boot A [⟨virt, phys, flags⟩] s
      { s with mem := TableTree.write s.mem a (vpn virt 0) e } := by
  obtain ⟨p, hp, hp'⟩ := hpath
  have hlen := OnPath.length hp'
  have htables : ({ s with mem := TableTree.write s.mem a (vpn virt 0) e } : Paging).liveTables B
      = s.liveTables B := TableTree.tables_write_last h.isTree hp (by omega)
  refine ⟨⟨T, h.represents, h.disjoint, TableTree.isTree_write_last h.isTree hp (by omega),
    fun b hbmem => h.tables b (htables ▸ hbmem), h.gLevels, h.gRootPhys⟩, rfl, htables.ge,
    fun va e' k hlookup hv hl => ?_⟩
  by_cases hidx : indices virt s.gLevels = indices va s.gLevels
  · -- the mapping would have been found to do
    have hcov := hl _ List.mem_cons_self hidx
    unfold liveLookup at hlookup
    rw [← hidx, ← hp', TableTree.lookup_append hp] at hlookup
    obtain ⟨rfl, rfl⟩ := TableTree.lookup_singleton hlookup
    exact absurd ⟨hv, hcov⟩ hnot
  · rw [← hlookup]
    refine TableTree.lookup_write_of_avoids h.isTree hp (by omega) (by simp) (fun hpre => hidx ?_)
    rw [← hp']
    exact hpre.eq_of_length (by simpa using hlen)

/-- **The loop of `paging_map_one`**, and every state in which it asks for a
table. -/
theorem pagingMapLevel_live (hb : LiveBoot B m s₀ boot) (h : LiveJoint B s₀ boot s A T)
    (hpath : OnLivePath B virt s level a) {table : BitVec 64} (htable : B.tablePage table = a)
    (hrun : pagingMapLevel B virt phys flags level table s = some (r, s')) :
    LiveStep B s₀ boot A [⟨virt, phys, flags⟩] s s'
      ∧ ∀ t ∈ mapLevelAllocs B virt level table s, ∃ T, LiveJoint B s₀ boot t A T := by
  induction level generalizing s T a table with
  | zero =>
    -- the last level asks for no table
    refine ⟨?_, fun t ht => absurd ht List.not_mem_nil⟩
    unfold pagingMapLevel load store at hrun
    dsimp only at hrun
    rw [htable, setWidth_pagingLevelIndex] at hrun
    split at hrun
    · cases hrun
      exact ⟨⟨T, h⟩, Preserves.refl B _ _⟩
    · next hnot =>
      cases hrun
      refine h.writeLeaf hpath (fun hcov => hnot ⟨fun h₀ => ?_, hcov.2⟩)
      rw [and_pteV_eq_zero.mp h₀] at hcov
      exact Bool.noConfusion hcov.1
  | succ level ih =>
    have hfirst : ∀ t ∈ (if s.load B table (pagingLevelIndex virt (level + 1)) &&& pteV = 0#64
        then [s] else []), ∃ T, LiveJoint B s₀ boot t A T := by
      intro t ht
      split at ht
      · obtain rfl : t = s := List.mem_singleton.mp ht
        exact ⟨T, h⟩
      · exact absurd ht List.not_mem_nil
    unfold pagingMapLevel at hrun
    unfold mapLevelAllocs
    dsimp only
    cases hfetch : s.pagingFetch B table (pagingLevelIndex virt (level + 1)) with
    | none =>
      rw [hfetch] at hrun
      exact absurd hrun (by simp)
    | some x =>
      obtain ⟨o, s₁⟩ := x
      obtain ⟨⟨⟨T₁, h₁⟩, hpres⟩, hentry⟩ := pagingFetch_live hb h hpath htable hfetch
      rw [hfetch] at hrun
      have hpres' : Preserves B [⟨virt, phys, flags⟩] s s₁ := hpres.trans (Preserves.refl B _ s₁)
      cases o with
      | none =>
        cases hrun
        refine ⟨⟨⟨T₁, h₁⟩, hpres'⟩, ?_⟩
        dsimp only
        rw [List.append_nil]
        exact hfirst
      | some e =>
        obtain ⟨rfl, hv, hpath₁⟩ := hentry e rfl
        dsimp only at hrun ⊢
        split at hrun
        · -- a leaf, at which the call ends
          next hrwx =>
          cases hrun
          rw [if_pos hrwx, List.append_nil]
          exact ⟨⟨⟨T₁, h₁⟩, hpres'⟩, hfirst⟩
        · -- a pointer, from which it goes on
          next hrwx =>
          have hnext : B.next (s₁.mem a (vpn virt (level + 1)))
              = some (B.tablePage (physToVirt B.hhdm
                (pagingPteToPhys (s₁.mem a (vpn virt (level + 1)))))) :=
            next_of_pointer (Pte.pointer_eq_true_iff.mpr
              ⟨hv, and_rwx_eq_zero.mp (not_not.mp hrwx)⟩)
          obtain ⟨hstep, hallocs⟩ := ih h₁ (hpath₁.step hnext) rfl hrun
          rw [if_neg hrwx]
          refine ⟨⟨hstep.joint, hpres.trans hstep.preserves⟩, fun t ht => ?_⟩
          rcases List.mem_append.mp ht with ht | ht
          · exact hfirst t ht
          · exact hallocs t ht

/-! ## Runs of requests -/

theorem pagingMapPage_live (hb : LiveBoot B m s₀ boot) (h : LiveJoint B s₀ boot s A T)
    (hrun : s.pagingMapPage B q.virt q.phys q.flags = some (r, s')) :
    LiveStep B s₀ boot A [q] s s'
      ∧ ∀ t ∈ mapPageAllocs B q s, ∃ T, LiveJoint B s₀ boot t A T := by
  have hlevels := hb.tree.three_le
  unfold pagingMapPage at hrun
  unfold mapPageAllocs
  split at hrun
  · next hbad =>
    cases hrun
    rw [if_pos hbad]
    exact ⟨⟨⟨T, h⟩, Preserves.refl B _ _⟩, fun t ht => absurd ht List.not_mem_nil⟩
  · next hgood =>
    rw [if_neg hgood]
    exact pagingMapLevel_live hb h (onLivePath_root q.virt (by rw [h.gLevels]; omega)) rfl hrun

/-- **A run of requests.** -/
theorem mapRequests_live (hb : LiveBoot B m s₀ boot) (h : LiveJoint B s₀ boot s A T)
    (hrun : mapRequests B l s = some (r, s')) :
    LiveStep B s₀ boot A l s s'
      ∧ ∀ t ∈ requestsAllocs B l s, ∃ T, LiveJoint B s₀ boot t A T := by
  induction l generalizing s T with
  | nil =>
    cases hrun
    exact ⟨⟨⟨T, h⟩, Preserves.refl B _ _⟩, fun t ht => absurd ht List.not_mem_nil⟩
  | cons q l ih =>
    unfold mapRequests at hrun
    unfold requestsAllocs
    cases hpage : s.pagingMapPage B q.virt q.phys q.flags with
    | none =>
      rw [hpage] at hrun
      exact absurd hrun (by simp)
    | some x =>
      obtain ⟨ok, s₁⟩ := x
      obtain ⟨⟨⟨T₁, h₁⟩, hpres⟩, hallocs⟩ := pagingMapPage_live hb h hpage
      rw [hpage] at hrun
      cases ok with
      | false =>
        cases hrun
        dsimp only
        rw [List.append_nil]
        exact ⟨⟨⟨T₁, h₁⟩, hpres.trans (Preserves.refl B l _)⟩, hallocs⟩
      | true =>
        obtain ⟨hstep, hrest⟩ := ih h₁ hrun
        refine ⟨⟨hstep.joint, hpres.trans hstep.preserves⟩, fun t ht => ?_⟩
        rcases List.mem_append.mp ht with ht | ht
        · exact hallocs t ht
        · exact hrest t ht

/-! ## Runs of the system -/

/-- **A call, or what a client does.** -/
inductive Call
  | client
  | store
  | mapPage (virt phys flags : BitVec 64)
  | mapRange (virt phys size flags : BitVec 64)
  | mapMmio (phys size : BitVec 64)
  | pagingInit

/-- The requests of a call. -/
def Call.requests (B : Boot) (R : Responses) (I : KernelImage) : Call → List MapRequest
  | client | store => []
  | mapPage virt phys flags => [⟨virt, phys, flags⟩]
  | mapRange virt phys size flags => rangeRequests virt phys size flags
  | mapMmio phys size => if size = 0#64 then [] else mmioRequests B phys size
  | pagingInit =>
    match R.memmap with
    | none => []
    | some memmap => if R.hhdm && R.executableAddress then initRequests B memmap I else []

/-- The state in which a call starts to map. -/
def Call.start (satp : BitVec 64) (s : Paging) : Call → Paging
  | pagingInit => s.started satp
  | _ => s

/-- **The states in which a call asks for a table.** -/
def Call.allocs (B : Boot) (R : Responses) (I : KernelImage) (satp : BitVec 64) (s : Paging)
    (call : Call) : List Paging :=
  requestsAllocs B (call.requests B R I) (call.start satp s)

/-- **One step of the system**, with the blocks that clients hold. Clients may
take all frames and give them back at any time, so that a table may be refused
at any time. -/
inductive BootStep (B : Boot) (R : Responses) (I : KernelImage) (satp : BitVec 64) :
    Paging × Finset Block → Call → Paging × Finset Block → Prop
  /-- A client calls the memory manager. -/
  | client {s : Paging} {A A' : Finset Block} {pmm : Pmm}
      (h : Pmm.ClientStep B.hhdm (s.pmm, A) (pmm, A')) :
      BootStep B R I satp (s, A) Call.client ({ s with pmm := pmm }, A')
  /-- A client writes to a frame it holds. -/
  | store {s : Paging} {A : Finset Block} {b : Block} {f : ℕ} (hb : b ∈ A) (hf : f ∈ b)
      (words : BitVec 9 → BitVec 64) :
      BootStep B R I satp (s, A) Call.store
        ({ s with mem := Function.update s.mem f words }, A)
  | mapPage {s s' : Paging} {A : Finset Block} {virt phys flags : BitVec 64} {r : Bool}
      (h : s.pagingMapPage B virt phys flags = some (r, s')) :
      BootStep B R I satp (s, A) (Call.mapPage virt phys flags) (s', A)
  | mapRange {s s' : Paging} {A : Finset Block} {virt phys size flags : BitVec 64} {r : Bool}
      (h : s.pagingMapRange B virt phys size flags = some (r, s')) :
      BootStep B R I satp (s, A) (Call.mapRange virt phys size flags) (s', A)
  | mapMmio {s s' : Paging} {A : Finset Block} {phys size : BitVec 64} {r : Bool}
      (h : s.pagingMapMmio B phys size = some (r, s')) :
      BootStep B R I satp (s, A) (Call.mapMmio phys size) (s', A)
  | pagingInit {s s' : Paging} {A : Finset Block} {r : Bool}
      (h : s.pagingInit B R I satp = some (r, s')) :
      BootStep B R I satp (s, A) Call.pagingInit (s', A)

/-- **`paging_init` finds the pool untouched.** -/
def PoolUntouched (s : Paging) : Call → Prop
  | Call.pagingInit => s.gEarlyPtPoolUsed = 0
  | _ => True

/-- **What is to hold of every step**: no table that is handed out is in use
already, no table is lost, and mappings survive, other than those that the call
itself is asked to change. -/
structure StepSafe (B : Boot) (R : Responses) (I : KernelImage) (satp : BitVec 64) (call : Call)
    (s s' : Paging) : Prop where
  notLive : ∀ t ∈ call.allocs B R I satp s, ∀ (table : BitVec 64) (t' : Paging),
    t.pagingAllocTable B = some (table, t') → table ≠ 0#64 →
      B.tablePage table ∉ t.liveTables B
  tables : s.liveTables B ⊆ s'.liveTables B
  survives : ∀ va e k, s.liveLookup B va = some (e, k) → Pte.v e = true →
    (∀ q ∈ call.requests B R I, indices q.virt s.gLevels = indices va s.gLevels →
      pagingEntryCovers e q.virt q.phys q.flags k = true) → s'.liveLookup B va = some (e, k)

theorem mapRequests_of_pagingInit (hlevels : (s.started satp).gLevels ≠ 0)
    (hroot : (s.started satp).gRootPhys ≠ 0#64) (hrun : s.pagingInit B R I satp = some (r, s')) :
    ∃ r', mapRequests B (Call.pagingInit.requests B R I) (s.started satp) = some (r', s') := by
  unfold Call.requests
  rcases pagingInit_eq hrun with ⟨-, rfl, hbad⟩ | ⟨memmap, hmemmap, hhhdm, hexec, hreq⟩
  · refine ⟨true, ?_⟩
    rcases hbad with h | h | h | h | h
    · exact absurd h hlevels
    · exact absurd h hroot
    · rw [h]
      dsimp only
      split <;> rfl
    · rw [h]
      rfl
    · rw [h, Bool.and_false]
      dsimp only
      split <;> rfl
  · rw [hmemmap, hhhdm, hexec]
    exact ⟨r, hreq⟩

/-- **What `paging_early_init` leaves**, if it succeeds: the root that `satp`
names, and the pool untouched. -/
theorem pagingEarlyInit_spec (hearly : s.pagingEarlyInit R satp = (true, boot)) :
    boot = s.started satp ∧ boot.gRootPhys ≠ 0#64 := by
  unfold pagingEarlyInit at hearly
  dsimp only at hearly
  split at hearly
  · exact absurd (congrArg Prod.fst hearly) (by simp)
  next hok =>
  split at hearly
  · exact absurd (congrArg Prod.fst hearly) (by simp)
  obtain rfl := (Prod.mk.inj hearly).2
  simp only [pagingSetupRoot, Bool.not_eq_true', Bool.not_eq_false, Bool.and_eq_true,
    bne_iff_ne, ne_eq] at hok
  exact ⟨rfl, hok.2⟩

/-- **Starting again changes nothing** while the pool is untouched. -/
theorem started_eq_self (hboot : boot = s₁.started satp) (hlevels : s.gLevels = boot.gLevels)
    (hroot : s.gRootPhys = boot.gRootPhys) (hused : s.gEarlyPtPoolUsed = 0) :
    s.started satp = s := by
  subst hboot
  cases s
  simp only [started, pagingSetupRoot] at hlevels hroot hused ⊢
  rw [hlevels, hroot, hused]

theorem joint_early (hb : LiveBoot B m s₀ boot) : LiveJoint B s₀ boot boot ∅ ∅ where
  represents := by
    rw [hb.tree.pmm]
    exact Pmm.represents_pmmInit hb.tree.bootDb
  disjoint := Finset.disjoint_empty_left _
  isTree := by
    rw [codeRoot_boot hb.tree]
    exact hb.tree.wellFormed.isTree.of_next (next_eq_next hb.tree)
  tables _ := Or.inl
  gLevels := rfl
  gRootPhys := rfl

/-- **One step** keeps the agreement, and what is to be kept. -/
theorem LiveJoint.step (hb : LiveBoot B m s₀ boot) (hboot : boot = s₁.started satp)
    (hroot : boot.gRootPhys ≠ 0#64) (h : LiveJoint B s₀ boot s A T) {call : Call}
    (hstep : BootStep B R I satp (s, A) call (s', A')) (hpool : PoolUntouched s call) :
    (∃ T', LiveJoint B s₀ boot s' A' T') ∧ StepSafe B R I satp call s s' := by
  have hthree := hb.tree.three_le
  -- a call that maps is a run of requests
  have hcall : ∀ {l : List MapRequest} {r : Bool}, l = call.requests B R I →
      call.start satp s = s → mapRequests B l s = some (r, s') →
        (∃ T', LiveJoint B s₀ boot s' A T') ∧ StepSafe B R I satp call s s' := by
    intro l r hl hstart hrun
    obtain ⟨hlive, hallocs⟩ := mapRequests_live hb h hrun
    refine ⟨hlive.joint, fun t ht table t' halloc hne => ?_, hlive.preserves.tables,
      hl ▸ hlive.preserves.survives⟩
    unfold Call.allocs at ht
    rw [hstart, ← hl] at ht
    obtain ⟨T', h'⟩ := hallocs t ht
    exact h'.notMem_of_pagingAllocTable hb halloc hne
  cases hstep with
  | client hclient =>
    obtain ⟨hunion, hdisj⟩ := hclient.union hb.tree.noNull h.represents h.disjoint
    exact ⟨⟨T, h.represents.step hb.tree.noNull hunion, hdisj, h.isTree, h.tables, h.gLevels,
      h.gRootPhys⟩, fun t ht => absurd ht List.not_mem_nil, subset_rfl,
      fun _ _ _ hlookup _ _ => hlookup⟩
  | @store _ _ b f hbA hf words =>
    have hagree : ∀ a ∈ s.liveTables B, Function.update s.mem f words a = s.mem a := fun a ha =>
      Function.update_of_ne (fun he => h.notMem_of_client hb hbA (by rw [he]; exact hf) ha) _ _
    have htables : ({ s with mem := Function.update s.mem f words } : Paging).liveTables B
        = s.liveTables B := TableTree.tables_eq_of_agree hagree
    refine ⟨⟨T, h.represents, h.disjoint, h.isTree.of_agree hagree,
      fun a ha => h.tables a (htables ▸ ha), h.gLevels, h.gRootPhys⟩,
      fun t ht => absurd ht List.not_mem_nil, htables.ge, fun va e k hlookup _ _ => ?_⟩
    rw [← hlookup]
    exact TableTree.lookup_eq_of_agree hagree (by simp)
  | @mapPage _ _ _ virt phys flags r hrun =>
    have hone : mapRequests B [⟨virt, phys, flags⟩] s = some (r, s') := by
      unfold mapRequests
      rw [hrun]
      cases r <;> rfl
    exact hcall rfl rfl hone
  | mapRange hrun => exact hcall rfl rfl ((pagingMapRange_eq _ _ _ _).symm.trans hrun)
  | @mapMmio _ _ _ phys size r hrun =>
    by_cases hsize : size = 0#64
    · have hnone : mapRequests B [] s = some (true, s') := by
        unfold pagingMapMmio at hrun
        dsimp only at hrun
        rw [if_pos hsize] at hrun
        cases hrun
        rfl
      exact hcall (if_pos hsize).symm rfl hnone
    · exact hcall (if_neg hsize).symm rfl ((pagingMapMmio_eq hsize).symm.trans hrun)
  | pagingInit hrun =>
    have hsame := started_eq_self hboot h.gLevels h.gRootPhys hpool
    have hlevels : (s.started satp).gLevels ≠ 0 := by
      rw [hsame, h.gLevels]
      omega
    have hroot' : (s.started satp).gRootPhys ≠ 0#64 := by
      rw [hsame, h.gRootPhys]
      exact hroot
    obtain ⟨r', hreq⟩ := mapRequests_of_pagingInit hlevels hroot' hrun
    rw [hsame] at hreq
    exact hcall rfl hsame hreq

/-- **The runs in which `paging_init` finds the pool untouched.** -/
def CarefulRun (B : Boot) (R : Responses) (I : KernelImage) (satp : BitVec 64)
    (x y : Paging × Finset Block) : Prop :=
  Relation.ReflTransGen
    (fun x y => ∃ call, BootStep B R I satp x call y ∧ PoolUntouched x.1 call) x y

/-- **In every run in which `paging_init` finds the pool untouched, every step
is safe**, whatever is called in whatever order after `paging_early_init`, and
whenever the memory manager has no frame left. -/
theorem stepSafe_of_run (hearly : s₁.pagingEarlyInit R satp = (true, boot))
    (hb : LiveBoot B m s₀ boot) (hrun : CarefulRun B R I satp (boot, ∅) (s, A)) {call : Call}
    (hstep : BootStep B R I satp (s, A) call (s', A')) (hpool : PoolUntouched s call) :
    StepSafe B R I satp call s s' := by
  obtain ⟨hboot, hroot⟩ := pagingEarlyInit_spec hearly
  have key : ∀ x, CarefulRun B R I satp (boot, ∅) x → ∃ T, LiveJoint B s₀ boot x.1 x.2 T := by
    intro x hx
    induction hx with
    | refl => exact ⟨∅, joint_early hb⟩
    | tail _ hnext ih =>
      obtain ⟨T, hT⟩ := ih
      obtain ⟨c, hc, hfine⟩ := hnext
      exact (hT.step hb hboot hroot hc hfine).1
  obtain ⟨T, hT⟩ := key (s, A) hrun
  exact (hT.step hb hboot hroot hstep hpool).2

/-! The empty tree of before, when a client has taken both free frames. -/

theorem liveBoot_emptyTree : LiveBoot sv39Boot m Pmm.twoFrames emptyTree where
  tree := { bootTree_emptyTree (m := m) with
    shown := by
      rw [tables_emptyTree]
      rintro a rfl
      exact shows_sv39Boot (by decide)
    usable_shown := fun f hf => shows_sv39Boot (by
      have hle := (Pmm.mem_usableFrames.mp hf).1
      change f ≤ 1 at hle
      omega)
    noNull := by
      intro pfn hle
      change pfn ≤ 1 at hle
      interval_cases pfn <;> decide }
  pool_notMem := by
    rw [tables_emptyTree]
    decide
  pool_notUsable := by decide

/-- The empty tree without a free frame. -/
def starvedTree : Paging :=
  { emptyTree with pmm := ((emptyTree.pmm.pageAlloc 1).getD (none, emptyTree.pmm)).2 }

/-- The tree after a page has been mapped, with two tables of the pool. -/
def pooledTree : Paging :=
  ((starvedTree.pagingMapPage sv39Boot 0xffffffc000000000#64 0x10000000#64
    pagingProtRwg).getD (false, starvedTree)).2

/-- The boot loader has answered, and there is no memory to map. -/
def noMemory : Responses := ⟨true, some [], true⟩

theorem starvedTree_run : CarefulRun sv39Boot noMemory exampleImage exampleSatp (emptyTree, ∅)
    (starvedTree, {⟨0, 1⟩}) :=
  Relation.ReflTransGen.single ⟨Call.client, BootStep.client (Pmm.ClientStep.pageAlloc 1 rfl),
    trivial⟩

theorem pooledTree_step : BootStep sv39Boot noMemory exampleImage exampleSatp
    (starvedTree, {⟨0, 1⟩})
    (Call.mapPage 0xffffffc000000000#64 0x10000000#64 pagingProtRwg) (pooledTree, {⟨0, 1⟩}) :=
  BootStep.mapPage (r := true) rfl

/-- Drawing from the pool is safe. -/
theorem stepSafe_starvedTree : StepSafe sv39Boot noMemory exampleImage exampleSatp
    (Call.mapPage 0xffffffc000000000#64 0x10000000#64 pagingProtRwg) starvedTree pooledTree :=
  stepSafe_of_run (show emptyTree.pagingEarlyInit noMemory exampleSatp = (true, emptyTree) from rfl)
    (show LiveBoot sv39Boot Mmu.strict Pmm.twoFrames emptyTree from liveBoot_emptyTree)
    starvedTree_run pooledTree_step trivial

theorem mem_liveTables_pooledTree : sv39Boot.poolPage 0 ∈ pooledTree.liveTables sv39Boot :=
  ⟨[256#9], show 1 < 3 by decide, by decide +kernel⟩

theorem pooledTree_init : (pooledTree.pagingInit sv39Boot noMemory exampleImage
    exampleSatp).isSome = true := by
  decide +kernel

/-- The first page of the kernel has no table yet. -/
theorem requests_noMemory : Call.pagingInit.requests sv39Boot noMemory exampleImage
    = ⟨0xffffffff80000000#64, 0x80000000#64, pagingProtRwg⟩
      :: (Call.pagingInit.requests sv39Boot noMemory exampleImage).tail := by
  decide +kernel

theorem pagingAllocTable_pooledTree :
    ((pooledTree.started exampleSatp).pagingAllocTable sv39Boot).map Prod.fst
      = some (sv39Boot.poolTable 0) := by
  decide +kernel

/-- **Then `paging_init` hands out the first table of the pool again**, which
is in use. -/
theorem not_stepSafe_pooledTree :
    CarefulRun sv39Boot noMemory exampleImage exampleSatp (emptyTree, ∅)
        (pooledTree, {⟨0, 1⟩})
      ∧ (∃ s', BootStep sv39Boot noMemory exampleImage exampleSatp (pooledTree, {⟨0, 1⟩})
          Call.pagingInit (s', {⟨0, 1⟩}))
      ∧ sv39Boot.poolPage 0 ∈ pooledTree.liveTables sv39Boot
      ∧ ∀ s', ¬ StepSafe sv39Boot noMemory exampleImage exampleSatp Call.pagingInit
          pooledTree s' := by
  refine ⟨starvedTree_run.tail ⟨_, pooledTree_step, trivial⟩, ?_, mem_liveTables_pooledTree,
    fun s' h => ?_⟩
  · obtain ⟨⟨r, s'⟩, hrun⟩ := Option.isSome_iff_exists.mp pooledTree_init
    exact ⟨s', BootStep.pagingInit hrun⟩
  · obtain ⟨⟨table, t'⟩, halloc, htable⟩ :=
      Option.map_eq_some_iff.mp pagingAllocTable_pooledTree
    change table = _ at htable
    subst htable
    refine h.notLive _ ?_ _ t' halloc (by decide) mem_liveTables_pooledTree
    unfold Call.allocs
    rw [requests_noMemory]
    refine List.mem_append_left _ ?_
    unfold mapPageAllocs
    rw [if_neg (by decide +kernel)]
    refine List.mem_append_left _ ?_
    rw [if_pos (by decide +kernel)]
    exact List.mem_singleton_self _

end Paging
