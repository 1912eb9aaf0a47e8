import Risky.PmmRuns

/-!
# The free frames

For its callers the memory manager is a set of free frames: an allocation
takes an aligned run of them away and hands it over
(`Pmm.Managed.pageAlloc`). The buddy system underneath is forgotten
(`Pmm.Managed`), but for one thing: an allocation fails only if no aligned run of
frames is long enough (`Pmm.pageAlloc_spec`), since the free blocks are as large as
they can be.
-/

namespace Pmm

variable {usable : Set ℕ} {s s' : Pmm} {S : BuddySystem topOrder usable} {f : ℕ}

/-- **The manager is ready and its free lists are in order.** -/
def Managed (s : Pmm) : Prop :=
  ∃ (usable : Set ℕ) (S : BuddySystem topOrder usable), Inv s S

/-- A frame of a block on the free lists. -/
def FreeFrame (s : Pmm) (f : ℕ) : Prop := ∃ b ∈ s.freeBlocks, f ∈ b

theorem freeFrame_iff_mem_freeSet (h : Inv s S) : s.FreeFrame f ↔ f ∈ S.freeSet := by
  obtain ⟨lists, hr⟩ := h.refines
  exact exists_congr (fun b => and_congr_left (fun _ => mem_freeBlocks_iff_free hr))

/-! ## What an allocation finds -/

/-- An aligned run of `2 ^ order` free frames. -/
def FreeRun (s : Pmm) (order base : ℕ) : Prop :=
  2 ^ order ∣ base ∧ ∀ f ∈ (⟨base, order⟩ : Block), s.FreeFrame f

/-- **What an allocation does** when it succeeds. -/
structure Allocates (s s' : Pmm) (order page : ℕ) : Prop where
  /-- The frames were an aligned run of free ones. -/
  run : s.FreeRun order page
  /-- The block that is split has the least order that is large enough. -/
  least : ∃ k, order ≤ k ∧ (⟨page, k⟩ : Block) ∈ s.freeBlocks
    ∧ ∀ c ∈ s.freeBlocks, order ≤ c.order → k ≤ c.order
  /-- They are the frames that are no longer free. -/
  free_iff : ∀ f, s'.FreeFrame f ↔ s.FreeFrame f ∧ f ∉ (⟨page, order⟩ : Block)
  freePages : s'.gFreePages + 2 ^ order = s.gFreePages
  /-- The page records the allocation. -/
  used : (s'.pages page).flags = Page.USED ∧ (s'.pages page).order = order

/-- **A free block is large enough exactly if there is a run of free frames that
is.** -/
theorem exists_free_iff_freeRun (h : Inv s S) {order : ℕ} (ho : order ≤ topOrder) :
    (∃ c ∈ S.free, order ≤ c.order) ↔ ∃ base, s.FreeRun order base := by
  constructor
  · rintro ⟨c, hc, hle⟩
    refine ⟨c.base, (Nat.pow_dvd_pow 2 hle).trans (S.aligned_of_free hc), fun f hf => ?_⟩
    rw [freeFrame_iff_mem_freeSet h]
    refine ⟨c, hc, hf.1, lt_of_lt_of_le hf.2 (Nat.add_le_add_left ?_ _)⟩
    exact Nat.pow_le_pow_right (by decide) hle
  · rintro ⟨base, haligned, hfree⟩
    have hrun : BuddySystem.IsRun topOrder S.freeSet ⟨base, order⟩ :=
      ⟨haligned, ho, fun f hf => (freeFrame_iff_mem_freeSet h).mp (hfree f hf)⟩
    obtain ⟨b, hb, hle, -⟩ := S.exists_free_of_isRun hrun
    exact ⟨b, hb, hle⟩

/-- A search that takes a block allocates it. -/
theorem Took.allocates {S' : BuddySystem topOrder usable} {order page : ℕ} (h : Inv s S)
    (htook : Took s s' S S' order page) (hinv' : Inv s' S') : Allocates s s' order page := by
  have hmem : (⟨page, order⟩ : Block) ∈ S'.held := htook.held ▸ Finset.mem_insert_self _ _
  obtain ⟨lists, hr⟩ := h.refines
  obtain ⟨lists', hr'⟩ := hinv'.refines
  have hblocks : ∀ b, b ∈ s.freeBlocks ↔ b ∈ S.free := fun b => mem_freeBlocks_iff_free hr
  have hfree_iff : ∀ f, s'.FreeFrame f ↔ s.FreeFrame f ∧ f ∉ (⟨page, order⟩ : Block) := by
    intro f
    rw [freeFrame_iff_mem_freeSet h, freeFrame_iff_mem_freeSet hinv', S.mem_freeSet_iff,
      S'.mem_freeSet_iff, htook.held, Finset.forall_mem_insert, and_assoc, and_comm (a := f ∉ _)]
  obtain ⟨k, hle, hk, hleast⟩ := htook.least
  refine ⟨⟨S'.aligned_of_held hmem, fun f hf => ⟨⟨page, k⟩, (hblocks _).mpr hk, hf.1, ?_⟩⟩,
    ⟨k, hle, (hblocks _).mpr hk, fun c hc => hleast c ((hblocks c).mp hc)⟩, hfree_iff, ?_,
    hr'.held_page _ hmem (by simp)⟩
  · exact lt_of_lt_of_le hf.2 (Nat.add_le_add_left (Nat.pow_le_pow_right (by decide) hle) _)
  · rw [h.freePages, hinv'.freePages]
    exact freeCells_of_insert htook.held htook.notMem htook.cells_eq

/-- **What an allocation hands over**: a run of frames that were free, and are
the ones that no longer are. -/
structure Handed (s s' : Pmm) (order page : ℕ) : Prop where
  managed : Managed s'
  free : ∀ f ∈ (⟨page, order⟩ : Block), s.FreeFrame f
  rest : ∀ f, s'.FreeFrame f ↔ s.FreeFrame f ∧ f ∉ (⟨page, order⟩ : Block)
  phys : s'.pfndbPageToPhys (some page) = pfnPhys page
  gMaxPfn : s'.gMaxPfn = s.gMaxPfn

/-- **An allocation** refuses and changes nothing, or hands a block over. -/
theorem Managed.pageAlloc (h : Managed s) (order : ℕ) :
    s.pageAlloc order = some (none, s)
      ∨ ∃ (page : ℕ) (s' : Pmm), s.pageAlloc order = some (some page, s')
        ∧ Handed s s' order page := by
  obtain ⟨usable, S, hinv⟩ := h
  rcases pmmAllocPage_spec hinv order with ⟨hrun, -⟩ | ⟨page, s', S', hrun, -, htook, hinv'⟩
  · exact Or.inl hrun
  have halloc := htook.allocates hinv hinv'
  refine Or.inr ⟨page, s', hrun, ⟨usable, S', hinv'⟩, halloc.run.2, halloc.free_iff, ?_,
    htook.gMaxPfn⟩
  obtain ⟨lists, hr⟩ := hinv'.refines
  have hmem : (⟨page, order⟩ : Block) ∈ S'.held := htook.held ▸ Finset.mem_insert_self _ _
  exact Pfndb.pfndbPageToPhys_of_le hr.gPfndb_ne
    (hr.base_le (S'.mem_blocks_of_held hmem)) hr.max_lt

/-- **An allocation succeeds exactly if an aligned run of free frames is long
enough**, in every reachable state and through both functions. -/
theorem pageAlloc_spec {hhdm : BitVec 64} {s₀ : Pmm} {A : Finset Block} (h₀ : BootDb s₀)
    (hnull : NoNullFrame hhdm s₀.gMaxPfn) (h : Reach hhdm s₀ s A) (order : ℕ) :
    ((order ≤ 9 ∧ ∃ base, s.FreeRun order base)
        ∧ ∃ (page : ℕ) (s' : Pmm), s.pageAlloc order = some (some page, s')
          ∧ s.pmmAlloc hhdm order = some (physToVirt hhdm (pfnPhys page), s')
          ∧ physToVirt hhdm (pfnPhys page) ≠ 0#64
          ∧ Allocates s s' order page)
      ∨ (¬ (order ≤ 9 ∧ ∃ base, s.FreeRun order base)
        ∧ s.pageAlloc order = some (none, s) ∧ s.pmmAlloc hhdm order = some (0#64, s)) := by
  obtain ⟨S, hinv, -, hmax, -⟩ := h.represents h₀ hnull
  rcases pmmAllocPage_spec hinv order with ⟨hrun, hno⟩ |
    ⟨page, s', S', hrun, hlt, htook, hinv'⟩
  · refine Or.inr ⟨?_, hrun, by rw [pmmAlloc, hrun]⟩
    rintro ⟨ho, hfree⟩
    obtain ⟨c, hc, hle⟩ := (exists_free_iff_freeRun hinv ho).mpr hfree
    exact absurd (hno (lt_maxOrder_of_le ho) c hc) (not_lt.mpr hle)
  · obtain ⟨lists', hr'⟩ := hinv'.refines
    have hmem : (⟨page, order⟩ : Block) ∈ S'.held := htook.held ▸ Finset.mem_insert_self _ _
    have hle : page ≤ s'.gMaxPfn := hr'.base_le (S'.mem_blocks_of_held hmem)
    have halloc := htook.allocates hinv hinv'
    refine Or.inl ⟨⟨Nat.le_of_lt_succ hlt, page, halloc.run⟩, page, s', hrun, ?_,
      hnull page (by rw [← hmax, ← htook.gMaxPfn]; exact hle), halloc⟩
    rw [pmmAlloc, hrun]
    dsimp only
    rw [Pfndb.pfndbPageToPhys_of_le hr'.gPfndb_ne hle hr'.max_lt]

/-- Both frames of the example are one run. -/
theorem pageAlloc_spec_twoFrames :
    ∃ (page : ℕ) (s' : Pmm), twoFrames.pmmInit.2.pageAlloc 1 = some (some page, s')
      ∧ Allocates twoFrames.pmmInit.2 s' 1 page := by
  rcases pageAlloc_spec bootDb_twoFrames noNullFrame_twoFrames Relation.ReflTransGen.refl 1 with
    ⟨-, page, s', hrun, -, -, halloc⟩ | ⟨-, hrun, -⟩
  · exact ⟨page, s', hrun, halloc⟩
  · have hsome : twoFrames.pmmInit.2.pageAlloc 1 = some (some 0, _) := rfl
    rw [hsome] at hrun
    exact absurd (Prod.mk.inj (Option.some.inj hrun)).1 (by simp)

end Pmm
