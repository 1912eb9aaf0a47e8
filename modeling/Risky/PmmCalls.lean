import Risky.PmmRefines

/-!
# What the calls of the memory manager do

The loops of `mm/pmm.c` are runs of moves, so their effect on the buddy system
is found by induction on their turns: the merge loop ends with a block that
has no free buddy and leaves every other held block alone
(`Pmm.pmmFreeBlock_spec`), the split loop ends with a block of the order asked
for (`Pmm.pmmSplit_spec`), and the search takes from the first list that has a
block (`Pmm.pmmTake_spec`).

`Pmm.Inv` is what holds between calls, and `Pmm.pageAlloc_spec`,
`Pmm.pmmAlloc_spec` and `Pmm.pmmFree_spec` are the calls over it.
-/

namespace Pmm

variable {usable : Set ℕ} {s s' : Pmm} {lists : ℕ → List ℕ} {hand : Option Block}
variable {b c : Block} {S S' : BuddySystem topOrder usable}

/-- The number of cells of a system. -/
def cells (S : BuddySystem topOrder usable) : ℕ := S.freeCells + S.heldCells

theorem cells_take (hb : b ∈ S.free) : cells (S.take b hb) = cells S := by
  have h₁ := S.freeCells_take hb
  have h₂ := S.heldCells_take hb
  unfold cells
  omega

theorem cells_give (hb : b ∈ S.held) (hno : b.order < topOrder → b.buddy ∉ S.free) :
    cells (S.give b hb hno) = cells S := by
  have h₁ := S.freeCells_give hb hno
  have h₂ := S.heldCells_give hb hno
  unfold cells
  omega

theorem cells_merge (hb : b ∈ S.held) (ho : b.order < topOrder) (hb' : b.buddy ∈ S.free) :
    cells (S.merge b hb ho hb') = cells S := by
  have h₁ := S.freeCells_merge hb ho hb'
  have h₂ := S.heldCells_merge hb ho hb'
  unfold cells
  omega

theorem cells_split (hb : b ∈ S.held) (ho : 0 < b.order) :
    cells (S.split b hb ho) = cells S := by
  have h₁ := S.freeCells_split hb ho
  have h₂ := S.heldCells_split hb ho
  unfold cells
  omega

/-! ## Runs of moves on the block in hand -/

/-- **A run of moves** turned the block in hand from `b` into `b'`: every
other held block, the number of cells and the fields no list operation
touches are as they were. -/
structure Moved (s s' : Pmm) (S S' : BuddySystem topOrder usable) (b b' : Block) :
    Prop where
  refines : ∃ lists, Refines s' S' lists (some b')
  mem : b' ∈ S'.held
  held_eq : S'.held.erase b' = S.held.erase b
  cells_eq : cells S' = cells S
  frame : SameFrame s s'

theorem Moved.refl (h : Refines s S lists (some b)) (hb : b ∈ S.held) :
    Moved s s S S b b :=
  ⟨⟨lists, h⟩, hb, rfl, rfl, SameFrame.refl s⟩

theorem Moved.trans {s'' : Pmm} {S'' : BuddySystem topOrder usable} {b' b'' : Block}
    (h : Moved s s' S S' b b') (h' : Moved s' s'' S' S'' b' b'') :
    Moved s s'' S S'' b b'' :=
  ⟨h'.refines, h'.mem, h'.held_eq.trans h.held_eq, h'.cells_eq.trans h.cells_eq,
    h.frame.trans h'.frame⟩

theorem Moved.merge (h : Refines s S lists (some b)) (hb : b ∈ S.held)
    (hlt : b.order < topOrder) (hb' : b.buddy ∈ S.free) :
    Moved s ((s.pmmListRemove b.order b.buddy.base).modifyPage b.parent.base
      (fun p => { p with order := b.order + 1 })) S (S.merge b hb hlt hb') b b.parent := by
  refine ⟨⟨_, h.merge hb hlt hb'⟩, Finset.mem_insert_self _ _, ?_, cells_merge hb hlt hb',
    (sameFrame_pmmListRemove _ _ _).trans (sameFrame_modifyPage _ _ _)⟩
  refine Finset.erase_insert (fun hmem => ?_)
  exact S.isPartition.notMem_of_order_ne (S.mem_blocks_of_held hb) b.base_mem
    ((Block.mem_parent (S.aligned_of_held hb)).mpr (Or.inl b.base_mem)) (by simp)
    (S.mem_blocks_of_held (Finset.mem_of_mem_erase hmem))

theorem Moved.split (h : Refines s S lists (some b)) (hb : b ∈ S.held)
    (hpos : 0 < b.order) :
    Moved s ((s.pmmPreparePage b.upper.base Page.FREE b.upper.order).pmmListPush
      b.upper.order b.upper.base) S (S.split b hb hpos) b b.lower := by
  refine ⟨⟨_, h.split hb hpos⟩, Finset.mem_insert_self _ _, ?_, cells_split hb hpos,
    (sameFrame_modifyPage _ _ _).trans (sameFrame_pmmListPush _ _ _)⟩
  refine Finset.erase_insert (fun hmem => ?_)
  exact S.isPartition.notMem_of_order_ne (S.mem_blocks_of_held hb) b.base_mem
    b.lower.base_mem (by simp; omega)
    (S.mem_blocks_of_held (Finset.mem_of_mem_erase hmem))

/-! ## The merge loop -/

/-- The merge loop touches no counter, on whatever state it is run. -/
theorem sameFrame_pmmFreeBlockLoop (fuel : ℕ) (s : Pmm) (page pfn order : ℕ) :
    SameFrame s (pmmFreeBlockLoop fuel s page pfn order).1 := by
  induction fuel generalizing s page pfn order with
  | zero => exact SameFrame.refl s
  | succ fuel ih =>
    unfold pmmFreeBlockLoop
    split
    · dsimp only
      split
      · exact SameFrame.refl s
      · split
        · exact SameFrame.refl s
        · split
          · exact SameFrame.refl s
          · exact ((sameFrame_pmmListRemove _ _ _).trans (sameFrame_modifyPage _ _ _)).trans
              (ih _ _ _ _)
    · exact SameFrame.refl s

theorem sameFrame_pmmFreeBlock (s : Pmm) (page : ℕ) : SameFrame s (s.pmmFreeBlock page) := by
  have h := sameFrame_pmmFreeBlockLoop pmmMaxOrder s page (s.pfndbGetPfn (some page))
    (s.pages page).order
  unfold pmmFreeBlock
  generalize pmmFreeBlockLoop pmmMaxOrder s page (s.pfndbGetPfn (some page))
    (s.pages page).order = r at h ⊢
  obtain ⟨s', page', order⟩ := r
  exact (h.trans (sameFrame_modifyPage _ _ _)).trans (sameFrame_pmmListPush _ _ _)

/-- **The merge loop** moves the block in hand to one that has no free
buddy. -/
theorem pmmFreeBlockLoop_spec (fuel : ℕ) (h : Refines s S lists (some b))
    (hb : b ∈ S.held) (hfuel : topOrder < b.order + fuel) :
    ∃ (s' : Pmm) (S' : BuddySystem topOrder usable) (b' : Block),
      pmmFreeBlockLoop fuel s b.base b.base b.order = (s', b'.base, b'.order)
        ∧ Moved s s' S S' b b' ∧ (b'.order < topOrder → b'.buddy ∉ S'.free) := by
  induction fuel generalizing s S lists b with
  | zero =>
    have := S.isPartition.order_le b (S.mem_blocks_of_held hb)
    omega
  | succ fuel ih =>
    unfold pmmFreeBlockLoop
    by_cases ho : b.order + 1 < pmmMaxOrder
    swap
    · rw [if_neg ho]
      exact ⟨s, S, b, rfl, Moved.refl h hb, fun hlt =>
        absurd (Nat.add_lt_of_lt_sub hlt) ho⟩
    have hlt : b.order < topOrder := Nat.lt_sub_of_add_lt ho
    -- the three tests on the buddy are right, so the loop stops only where it should
    have htest := h.buddy_mem_free_iff hb
    rw [if_pos ho]
    dsimp only
    by_cases hmax : pmmBuddyPfn b.base b.order > s.gMaxPfn
    · rw [if_pos hmax]
      exact ⟨s, S, b, rfl, Moved.refl h hb, fun _ hf =>
        absurd (htest.mp hf).1 (not_le.mpr hmax)⟩
    rw [if_neg hmax, Pfndb.pfndbGetPage_of_le h.gPfndb_ne (not_lt.mp hmax)]
    dsimp only
    by_cases hrec : (!pageFree (s.pages (pmmBuddyPfn b.base b.order))
        || (s.pages (pmmBuddyPfn b.base b.order)).order != b.order) = true
    · rw [if_pos hrec]
      refine ⟨s, S, b, rfl, Moved.refl h hb, fun _ hf => ?_⟩
      obtain ⟨-, hfree, horder⟩ := htest.mp hf
      change (!pageFree (s.pages b.buddy.base)
        || (s.pages b.buddy.base).order != b.order) = true at hrec
      rw [hfree, horder] at hrec
      simp at hrec
    rw [if_neg hrec]
    have hfree : b.buddy ∈ S.free := by
      rw [Bool.or_eq_true, Bool.not_eq_true', bne_iff_ne, not_or, not_not,
        Bool.not_eq_false] at hrec
      exact htest.mpr ⟨not_lt.mp hmax, hrec.1, hrec.2⟩
    -- one merge, and the rest of the loop from the parent
    have hpage : (if pmmBuddyPfn b.base b.order < b.base then pmmBuddyPfn b.base b.order
        else b.base) = b.parent.base := by
      split
      · next hl => rw [Block.parent_base_of_lt hl]; rfl
      · next hl => rw [Block.parent_base_of_ge hl]
    rw [hpage]
    have hstep := Moved.merge h hb hlt hfree
    obtain ⟨s', S', b', hrun, hmoved, hno⟩ :=
      ih (h.merge hb hlt hfree) hstep.mem (by rw [Block.parent_order]; omega)
    exact ⟨s', S', b', hrun, hstep.trans hmoved, hno⟩

/-- **`pmm_free_block` gives a held block back**, coalesced. -/
theorem pmmFreeBlock_spec (h : Refines s S lists none) (hb : b ∈ S.held) :
    ∃ (S' : BuddySystem topOrder usable) (lists' : ℕ → List ℕ),
      Refines (s.pmmFreeBlock b.base) S' lists' none ∧ S'.held = S.held.erase b
        ∧ cells S' = cells S := by
  have horder := (h.held_page b hb (by simp)).2
  have hpfn := Pfndb.pfndbGetPfn_of_le h.gPfndb_ne (h.base_le (S.mem_blocks_of_held hb))
  obtain ⟨s', S', b', hrun, hmoved, hno⟩ :=
    pmmFreeBlockLoop_spec pmmMaxOrder (h.of_none (some b)) hb (by
      have : topOrder < pmmMaxOrder := by decide
      omega)
  obtain ⟨lists', h'⟩ := hmoved.refines
  unfold pmmFreeBlock
  rw [horder, hpfn, hrun]
  refine ⟨S'.give b' hmoved.mem hno, _, h'.give hmoved.mem hno, hmoved.held_eq, ?_⟩
  rw [cells_give, hmoved.cells_eq]

/-! ## The split loop and the search -/

/-- **The split loop** halves the block in hand down to the order asked for. -/
theorem pmmSplit_spec {order page : ℕ} (current : ℕ)
    (h : Refines s S lists (some ⟨page, current⟩)) (hb : (⟨page, current⟩ : Block) ∈ S.held)
    (hle : order ≤ current) :
    ∃ (s' : Pmm) (S' : BuddySystem topOrder usable),
      pmmSplit order page current s = some s'
        ∧ Moved s s' S S' ⟨page, current⟩ ⟨page, order⟩ := by
  induction current generalizing s S lists with
  | zero =>
    obtain rfl : order = 0 := Nat.le_zero.mp hle
    exact ⟨s, S, rfl, Moved.refl h hb⟩
  | succ current ih =>
    unfold pmmSplit
    by_cases hgt : current + 1 > order
    swap
    · obtain rfl : order = current + 1 := by omega
      rw [if_neg hgt]
      exact ⟨s, S, rfl, Moved.refl h hb⟩
    rw [if_pos hgt]
    set b : Block := ⟨page, current + 1⟩
    have hpos : 0 < b.order := Nat.succ_pos current
    have hbB := S.mem_blocks_of_held hb
    have hmem : page + 2 ^ current ∈ b :=
      (Block.mem_iff_halves hpos).mpr (Or.inr b.upper.base_mem)
    have hpfn : s.pfndbGetPfn (some page) = page :=
      Pfndb.pfndbGetPfn_of_le h.gPfndb_ne (h.base_le hbB)
    have hget := Pfndb.pfndbGetPage_of_le h.gPfndb_ne (h.usable_le _ (mem_usable hbB hmem))
    rw [hpfn, hget]
    dsimp only
    have hstep := Moved.split h hb hpos
    obtain ⟨s', S', hrun, hmoved⟩ := ih (h.split hb hpos) hstep.mem (by omega)
    exact ⟨s', S', hrun, hstep.trans hmoved⟩

/-- **What a successful search did**: it took a free block of the least
suitable order, split it, and left one of the order asked for held. -/
structure Took (s s' : Pmm) (S S' : BuddySystem topOrder usable) (order page : ℕ) :
    Prop where
  refines : ∃ lists, Refines s' S' lists none
  held : S'.held = insert ⟨page, order⟩ S.held
  notMem : (⟨page, order⟩ : Block) ∉ S.held
  least : ∃ k, order ≤ k ∧ (⟨page, k⟩ : Block) ∈ S.free
    ∧ ∀ c ∈ S.free, order ≤ c.order → k ≤ c.order
  cells_eq : cells S' = cells S
  gPfndb : s'.gPfndb = s.gPfndb
  gMaxPfn : s'.gMaxPfn = s.gMaxPfn
  gFreePages : s'.gFreePages = (s.gFreePages + 2 ^ 64 - 2 ^ order) % 2 ^ 64
  gTotalPages : s'.gTotalPages = s.gTotalPages
  gPmmReady : s'.gPmmReady = s.gPmmReady

/-- **The search never crashes**: it finds nothing and changes nothing, or
takes a block. -/
theorem pmmTake_spec {order : ℕ} (h : Refines s S lists none) (fuel current : ℕ)
    (hle : order ≤ current) (hfuel : pmmMaxOrder ≤ current + fuel)
    (hbelow : ∀ c ∈ S.free, order ≤ c.order → current ≤ c.order) :
    (pmmTake order fuel current s = some (none, s) ∧ ∀ c ∈ S.free, c.order < order)
      ∨ ∃ (page : ℕ) (s' : Pmm) (S' : BuddySystem topOrder usable),
        pmmTake order fuel current s = some (some page, s')
        ∧ Took s s' S S' order page := by
  have hnone : pmmMaxOrder ≤ current → ∀ c ∈ S.free, c.order < order := fun hc c hcf => by
    by_contra hge
    have := hbelow c hcf (not_lt.mp hge)
    have := order_lt (S.mem_blocks_of_free hcf)
    omega
  induction fuel generalizing current with
  | zero => exact Or.inl ⟨rfl, hnone hfuel⟩
  | succ fuel ih =>
    unfold pmmTake
    by_cases hcur : current < pmmMaxOrder
    swap
    · rw [if_neg hcur]
      exact Or.inl ⟨rfl, hnone (not_lt.mp hcur)⟩
    rw [if_pos hcur]
    have hhead := (h.lists_ok.isList current hcur).head_eq
    cases hpage : (s.gFreeLists current).head with
    | none =>
      -- no block has the order of an empty list, so the next one is a bound too
      rw [hpage, eq_comm, List.head?_eq_none_iff] at hhead
      have habove : ∀ c ∈ S.free, order ≤ c.order → current + 1 ≤ c.order := by
        intro c hc hco
        refine lt_of_le_of_ne (hbelow c hc hco) (fun he => ?_)
        have hmem : c.base ∈ lists current := (h.mem_lists current hcur _).mpr (by
          rw [he]; exact hc)
        rw [hhead] at hmem
        exact List.not_mem_nil hmem
      refine ih (current + 1) (by omega) (by omega) habove (fun hc c hcf => ?_)
      by_contra hge
      have hlt := order_lt (S.mem_blocks_of_free hcf)
      have hle' := habove c hcf (not_lt.mp hge)
      omega
    | some page =>
      have hmem : page ∈ lists current :=
        List.mem_of_head? (hhead.symm.trans hpage)
      have hfree : (⟨page, current⟩ : Block) ∈ S.free := (h.mem_lists current hcur _).mp hmem
      -- the block leaves its list and is split down to the order
      have htake := h.take hfree
      obtain ⟨s', S', hrun, hmoved⟩ :=
        pmmSplit_spec current htake (Finset.mem_insert_self _ _) hle
      obtain ⟨lists', h'⟩ := hmoved.refines
      have hframe := (sameFrame_pmmListRemove s current page).trans hmoved.frame
      have herase : S'.held.erase ⟨page, order⟩ = S.held :=
        hmoved.held_eq.trans (Finset.erase_insert (S.notMem_held hfree))
      refine Or.inr ⟨page, { s'.pmmPreparePage page Page.USED order with
        gFreePages := (s'.gFreePages + 2 ^ 64 - 2 ^ order) % 2 ^ 64 }, S', ?_, ?_⟩
      · dsimp only at hrun ⊢
        rw [hrun]
        rfl
      · refine ⟨⟨lists', (h'.finish hmoved.mem).setCounters _ _ _⟩, ?_, ?_,
          ⟨current, hle, hfree, hbelow⟩, ?_, hframe.gPfndb, hframe.gMaxPfn, ?_,
          hframe.gTotalPages, hframe.gPmmReady⟩
        · rw [← herase, Finset.insert_erase hmoved.mem]
        · rw [← herase]
          exact Finset.notMem_erase _ _
        · rw [hmoved.cells_eq, cells_take]
        · rw [← hframe.gFreePages]

/-! ## Between calls -/

/-- **What holds between calls** of a manager that is ready. -/
structure Inv (s : Pmm) (S : BuddySystem topOrder usable) : Prop where
  refines : ∃ lists, Refines s S lists none
  freePages : s.gFreePages = S.freeCells
  totalPages : s.gTotalPages = cells S
  cells_le : cells S ≤ 2 ^ 52
  ready : s.gPmmReady = true

/-- Inserting a held block moves its cells from the free side. -/
theorem freeCells_of_insert (hheld : S'.held = insert b S.held) (hnot : b ∉ S.held)
    (hcells : cells S' = cells S) : S'.freeCells + b.size = S.freeCells := by
  have hsum : S'.heldCells = b.size + S.heldCells := by
    unfold BuddySystem.heldCells
    rw [hheld, Finset.sum_insert hnot]
  unfold cells at hcells
  omega

/-- Erasing a held block moves its cells to the free side. -/
theorem freeCells_of_erase (hheld : S'.held = S.held.erase b) (hb : b ∈ S.held)
    (hcells : cells S' = cells S) : S'.freeCells = S.freeCells + b.size := by
  have hsum : S'.heldCells + b.size = S.heldCells := by
    unfold BuddySystem.heldCells
    rw [hheld]
    exact Finset.sum_erase_add _ _ hb
  unfold cells at hcells
  omega

/-- **An allocation** refuses and changes nothing – when the order is out of
range or no free block is large enough – or takes a block. -/
theorem pmmAllocPage_spec (h : Inv s S) (order : ℕ) :
    (s.pmmAllocPage order = some (none, s)
        ∧ (order < pmmMaxOrder → ∀ c ∈ S.free, c.order < order))
      ∨ ∃ (page : ℕ) (s' : Pmm) (S' : BuddySystem topOrder usable),
        s.pmmAllocPage order = some (some page, s') ∧ order < pmmMaxOrder
        ∧ Took s s' S S' order page ∧ Inv s' S' := by
  obtain ⟨lists, hr⟩ := h.refines
  unfold pmmAllocPage
  rw [if_neg (by rw [h.ready]; simp)]
  by_cases ho : order ≥ pmmMaxOrder
  · rw [if_pos ho]
    exact Or.inl ⟨rfl, fun hlt => absurd hlt (not_lt.mpr ho)⟩
  rw [if_neg ho]
  have hlt := not_le.mp ho
  rcases pmmTake_spec hr pmmMaxOrder order le_rfl (by omega) (fun _ _ hc => hc) with
    ⟨hrun, hno⟩ | ⟨page, s', S', hrun, htook⟩
  · exact Or.inl ⟨hrun, fun _ => hno⟩
  · refine Or.inr ⟨page, s', S', hrun, hlt, htook, htook.refines, ?_, ?_, ?_, ?_⟩
    · have hfree := freeCells_of_insert htook.held htook.notMem htook.cells_eq
      have hle : S.freeCells ≤ cells S := Nat.le_add_right _ _
      have hsize : (⟨page, order⟩ : Block).size = 2 ^ order := rfl
      have hcells := h.cells_le
      rw [htook.gFreePages, h.freePages]
      omega
    · rw [htook.gTotalPages, h.totalPages, htook.cells_eq]
    · exact htook.cells_eq ▸ h.cells_le
    · rw [htook.gPmmReady, h.ready]

/-- **`pmm_free` of the address of a held block gives it back.** -/
theorem pmmFree_spec (h : Inv s S) (hb : b ∈ S.held) {hhdm : BitVec 64}
    (hne : physToVirt hhdm (pfnPhys b.base) ≠ 0#64) :
    ∃ S' : BuddySystem topOrder usable, Inv (s.pmmFree hhdm (physToVirt hhdm (pfnPhys b.base))) S'
      ∧ S'.held = S.held.erase b
      ∧ SameFrame { s with gFreePages := (s.gFreePages + 2 ^ b.order) % 2 ^ 64 }
        (s.pmmFree hhdm (physToVirt hhdm (pfnPhys b.base))) := by
  obtain ⟨lists, hr⟩ := h.refines
  have hbB := S.mem_blocks_of_held hb
  have hpfn : physPfn (pfnPhys b.base) = b.base :=
    physPfn_pfnPhys ((hr.base_le hbB).trans_lt hr.max_lt)
  have hpage := hr.held_page b hb (by simp)
  have hget : s.pfndbPhysToPage (pfnPhys b.base) = some b.base := by
    rw [Pfndb.pfndbPhysToPage_of_le hr.gPfndb_ne (by rw [hpfn]; exact hr.base_le hbB), hpfn]
  obtain ⟨S', lists', hr', hheld, hcells⟩ :=
    pmmFreeBlock_spec (hr.setCounters ((s.gFreePages + 2 ^ b.order) % 2 ^ 64)
      s.gTotalPages s.gPmmReady) hb
  have hframe := sameFrame_pmmFreeBlock
    { s with gFreePages := (s.gFreePages + 2 ^ b.order) % 2 ^ 64 } b.base
  have hrun : s.pmmFree hhdm (physToVirt hhdm (pfnPhys b.base))
      = ({ s with gFreePages := (s.gFreePages + 2 ^ b.order) % 2 ^ 64 } :
          Pmm).pmmFreeBlock b.base := by
    unfold pmmFree
    rw [if_neg (by rw [h.ready]; simp), if_neg hne, virtToPhys_physToVirt, hget]
    dsimp only
    rw [Page.pageReserved_of_used hpage.1, Page.pageFree_of_used hpage.1, hpage.2,
      if_neg Bool.false_ne_true, if_neg Bool.false_ne_true]
  rw [hrun]
  have hfree := freeCells_of_erase hheld hb hcells
  refine ⟨S', ⟨⟨lists', hr'⟩, ?_, ?_, hcells ▸ h.cells_le, ?_⟩, hheld, hframe⟩
  · have hsize : b.size = 2 ^ b.order := rfl
    have hle : S'.freeCells ≤ cells S' := Nat.le_add_right _ _
    have hcl := h.cells_le
    rw [hframe.gFreePages]
    show (s.gFreePages + 2 ^ b.order) % 2 ^ 64 = _
    rw [h.freePages]
    omega
  · rw [hframe.gTotalPages, hcells, ← h.totalPages]
  · rw [hframe.gPmmReady, ← h.ready]

end Pmm
