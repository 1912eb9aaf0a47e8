import Risky.PagingRuns
import Risky.PmmExhaustion

/-!
# No frame is lost

Frames go from the memory manager to clients and come back, and they go to the page tables
and stay there. In every state that clients and the page-table code can reach together,
with map calls that succeed and map calls that fail, each frame that `pmm_init` has found
is free, or in one block of one client, or a table that the walk reaches, and the counters
of the memory manager agree (`Paging.accounts_of_reach`). So a map call that gives up half
way has lost nothing either: what it took is in the tree.
-/

namespace Paging

variable {B : Boot} {m : Mmu} {s₀ : Pmm} {boot s : Paging} {A T : Finset Block}

/-- The tables that the boot loader has not left. -/
def newTables (m : Mmu) (boot s : Paging) : Set ℕ := s.tables m \ boot.tables m

/-- **Where all the frames are.** -/
structure Accounts (m : Mmu) (s₀ : Pmm) (boot s : Paging) (A : Finset Block) : Prop where
  /-- No frame is nowhere. -/
  somewhere : ∀ f ∈ s₀.usableFrames,
    s.pmm.FreeFrame f ∨ (∃ b ∈ A, f ∈ b) ∨ f ∈ newTables m boot s
  /-- What is free is nobody's. -/
  free : ∀ f, s.pmm.FreeFrame f →
    f ∈ s₀.usableFrames ∧ (∀ b ∈ A, f ∉ b) ∧ f ∉ s.tables m
  /-- What is a client's is that client's alone, and in one of its blocks. -/
  client : ∀ b ∈ A, ∀ f ∈ b,
    f ∈ s₀.usableFrames ∧ (∀ c ∈ A, f ∈ c → c = b) ∧ f ∉ s.tables m
  /-- What is a table was the boot loader's, or the memory manager's to give. -/
  table : ∀ f ∈ s.tables m, f ∈ boot.tables m ∨ f ∈ s₀.usableFrames
  /-- The boot loader's tables remain. -/
  bootTables : boot.tables m ⊆ s.tables m
  count : s.pmm.pmmFreePages + ∑ b ∈ A, b.size + (newTables m boot s).ncard
    = s.pmm.pmmTotalPages
  total : s.pmm.pmmTotalPages = s₀.usableFrames.card

/-- **The blocks of the tables** are the frames of the new ones. -/
theorem Joint.mem_newTables (hb : BootTree B m s₀ boot) (h : Joint m s₀ boot s A T) {f : ℕ} :
    f ∈ newTables m boot s ↔ (⟨f, 0⟩ : Block) ∈ T := by
  unfold newTables
  rw [Set.mem_sdiff, h.tables]
  constructor
  · rintro ⟨hboot | hT, hnot⟩
    · exact absurd hboot hnot
    · exact hT
  · intro hT
    exact ⟨Or.inr hT, fun hboot => hb.outside f hboot
      (usable_of_held h.represents (Finset.mem_union_right _ hT) (mem_block_zero.mpr rfl))⟩

/-- A block of a table has one frame. -/
theorem Joint.eq_of_mem (h : Joint m s₀ boot s A T) {b : Block} (hb : b ∈ T) : b = ⟨b.base, 0⟩ := by
  rw [← h.order b hb]

theorem Joint.sum_size (h : Joint m s₀ boot s A T) : ∑ b ∈ T, b.size = T.card := by
  rw [Finset.card_eq_sum_ones]
  refine Finset.sum_congr rfl (fun b hb => ?_)
  rw [h.eq_of_mem hb]
  rfl

/-- As many new tables as blocks of tables. -/
theorem Joint.ncard_newTables (hb : BootTree B m s₀ boot) (h : Joint m s₀ boot s A T) :
    (newTables m boot s).ncard = T.card := by
  have himage : newTables m boot s = ((T.image Block.base : Finset ℕ) : Set ℕ) := by
    ext f
    rw [h.mem_newTables hb, Finset.mem_coe, Finset.mem_image]
    constructor
    · exact fun hf => ⟨_, hf, rfl⟩
    · rintro ⟨b, hbT, rfl⟩
      exact h.eq_of_mem hbT ▸ hbT
  rw [himage, Set.ncard_coe_finset, Finset.card_image_of_injOn]
  intro b hbT c hcT heq
  rw [h.eq_of_mem hbT, h.eq_of_mem hcT]
  exact congrArg (fun base => (⟨base, 0⟩ : Block)) heq

theorem Joint.accounts (hb : BootTree B m s₀ boot) (h : Joint m s₀ boot s A T) :
    Accounts m s₀ boot s A := by
  have hunion : ∑ b ∈ A ∪ T, b.size = ∑ b ∈ A, b.size + ∑ b ∈ T, b.size :=
    Finset.sum_union h.disjoint
  have hfree := h.represents.freePages_add
  have htotal : s.pmm.pmmTotalPages = s₀.usableFrames.card := by
    obtain ⟨_, -, -, -, htotal⟩ := h.represents
    exact htotal
  constructor
  · intro f husable
    by_cases hheld : ∃ b ∈ A ∪ T, f ∈ b
    · obtain ⟨b, hbAT, hf⟩ := hheld
      rcases Finset.mem_union.mp hbAT with hbA | hbT
      · exact Or.inr (Or.inl ⟨b, hbA, hf⟩)
      · refine Or.inr (Or.inr ((h.mem_newTables hb).mpr ?_))
        have heq := h.eq_of_mem hbT
        rw [heq, mem_block_zero] at hf
        rw [hf, ← heq]
        exact hbT
    · exact Or.inl (h.represents.freeFrame_iff.mpr
        ⟨husable, fun b hbAT hf => hheld ⟨b, hbAT, hf⟩⟩)
  · intro f hf
    obtain ⟨husable, hnot⟩ := h.represents.freeFrame_iff.mp hf
    refine ⟨husable, fun b hbA => hnot b (Finset.mem_union_left _ hbA), fun ha => ?_⟩
    rcases (h.tables f).mp ha with hboot | hT
    · exact hb.outside f hboot husable
    · exact hnot _ (Finset.mem_union_right _ hT) (mem_block_zero.mpr rfl)
  · intro b hbA f hf
    refine ⟨usable_of_held h.represents (Finset.mem_union_left _ hbA) hf, fun c hcA hfc => ?_,
      fun ha => h.notMem_of_mem_tables hb ha b hbA hf⟩
    exact eq_of_held h.represents (Finset.mem_union_left _ hcA) (Finset.mem_union_left _ hbA) hfc hf
  · intro f hf
    refine ((h.tables f).mp hf).imp_right (fun hT => ?_)
    exact usable_of_held h.represents (Finset.mem_union_right _ hT) (mem_block_zero.mpr rfl)
  · exact fun f hf => (h.tables f).mpr (Or.inl hf)
  · rw [h.ncard_newTables hb, htotal, ← hfree, hunion, h.sum_size, Nat.add_assoc]
    rfl
  · exact htotal

/-- **In every reachable state all the frames are accounted for.** -/
theorem accounts_of_reach (hb : BootTree B m s₀ boot) (h : Reach B boot s A) :
    Accounts m s₀ boot s A := by
  obtain ⟨T, hT⟩ := h.joint hb
  exact hT.accounts hb

/-- A page is mapped, which takes both of the frames that there are. -/
theorem accounts_emptyTree :
    ∃ s, s.pmm.pmmFreePages = 0 ∧ Accounts Mmu.strict Pmm.twoFrames emptyTree s ∅ :=
  ⟨_, by decide +kernel, accounts_of_reach bootTree_emptyTree
    (Relation.ReflTransGen.single (SystemStep.mapPage
      (show emptyTree.pagingMapPage exampleBoot 0xffffffc000000000#64 0x10000000#64
        pagingProtRwg = some (true, _) from rfl) rfl))⟩

end Paging
