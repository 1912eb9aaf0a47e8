import Mathlib.Algebra.BigOperators.Group.Finset.Basic
import Risky.DyadicBlock

/-!
# Buddy systems

A buddy system divides a set of usable cells into aligned blocks, some *free*
and some *held*. It is kept *coalesced*: no two free blocks below the top
order are buddies. Four moves lead from one system to another – taking a free
block, giving a held one back, merging a held block with its free buddy, and
splitting a held block and freeing its second half – and each of them is a
function from systems to systems, so that a system in which two blocks
overlap or a cell is lost cannot be built.

The main fact is that coalescing leaves no choice: the free blocks are the
*maximal runs* of free cells (`BuddySystem.mem_free_iff_isMaximalRun`), so
the free cells alone determine them. It rests on
`BuddySystem.exists_free_of_isRun`: an aligned run of free cells always lies
inside one free block.
-/

variable {top : ℕ} {usable : Set ℕ}

/-! ## Partitions into aligned blocks -/

/-- **The blocks divide the usable cells**: they are aligned, of order at
most `top`, pairwise disjoint, and cover exactly `usable`. -/
structure IsPartition (top : ℕ) (usable : Set ℕ) (B : Finset Block) : Prop where
  order_le : ∀ b ∈ B, b.order ≤ top
  aligned : ∀ b ∈ B, b.Aligned
  eq_of_mem : ∀ b ∈ B, ∀ c ∈ B, ∀ f, f ∈ b → f ∈ c → b = c
  cover : ∀ f, f ∈ usable ↔ ∃ b ∈ B, f ∈ b

namespace IsPartition

variable {B : Finset Block} {b c : Block}

/-- A block of other order that meets a block of the partition is not in
it. -/
theorem notMem_of_order_ne (h : IsPartition top usable B) (hb : b ∈ B) {f : ℕ}
    (hfb : f ∈ b) (hfc : f ∈ c) (ho : c.order ≠ b.order) : c ∉ B :=
  fun hc => ho (congrArg Block.order (h.eq_of_mem c hc b hb f hfc hfb))

/-- **Two buddies of a partition can be merged** into their parent. -/
theorem merge (h : IsPartition top usable B) (hb : b ∈ B) (hb' : b.buddy ∈ B)
    (ho : b.order < top) :
    IsPartition top usable (insert b.parent ((B.erase b).erase b.buddy)) := by
  have hal := h.aligned b hb
  have hpar : ∀ c ∈ (B.erase b).erase b.buddy, ∀ f, f ∈ b.parent → f ∉ c := by
    intro c hc f hf hfc
    rw [Finset.mem_erase, Finset.mem_erase] at hc
    rcases (Block.mem_parent hal).mp hf with hf | hf
    · exact hc.2.1 (h.eq_of_mem c hc.2.2 b hb f hfc hf)
    · exact hc.1 (h.eq_of_mem c hc.2.2 b.buddy hb' f hfc hf)
  have hsub : ∀ c ∈ (B.erase b).erase b.buddy, c ∈ B := fun c hc =>
    Finset.mem_of_mem_erase (Finset.mem_of_mem_erase hc)
  refine ⟨fun c hc => ?_, fun c hc => ?_, fun c hc d hd f hfc hfd => ?_,
    fun f => ?_⟩
  · rcases Finset.mem_insert.mp hc with rfl | hc
    · exact ho
    · exact h.order_le c (hsub c hc)
  · rcases Finset.mem_insert.mp hc with rfl | hc
    · exact hal.parent
    · exact h.aligned c (hsub c hc)
  · -- two blocks that share a cell are the parent twice, or were there before
    rcases Finset.mem_insert.mp hc with rfl | hc' <;>
      rcases Finset.mem_insert.mp hd with rfl | hd'
    · rfl
    · exact absurd hfd (hpar d hd' f hfc)
    · exact absurd hfc (hpar c hc' f hfd)
    · exact h.eq_of_mem c (hsub c hc') d (hsub d hd') f hfc hfd
  · -- a cell of either buddy is one of the parent
    rw [h.cover f]
    constructor
    · rintro ⟨c, hc, hf⟩
      by_cases hcb : c = b
      · exact ⟨b.parent, Finset.mem_insert_self _ _,
          (Block.mem_parent hal).mpr (Or.inl (hcb ▸ hf))⟩
      by_cases hcb' : c = b.buddy
      · exact ⟨b.parent, Finset.mem_insert_self _ _,
          (Block.mem_parent hal).mpr (Or.inr (hcb' ▸ hf))⟩
      exact ⟨c, Finset.mem_insert_of_mem (Finset.mem_erase.mpr
        ⟨hcb', Finset.mem_erase.mpr ⟨hcb, hc⟩⟩), hf⟩
    · rintro ⟨c, hc, hf⟩
      rcases Finset.mem_insert.mp hc with rfl | hc
      · rcases (Block.mem_parent hal).mp hf with hf | hf
        · exact ⟨b, hb, hf⟩
        · exact ⟨b.buddy, hb', hf⟩
      · exact ⟨c, hsub c hc, hf⟩

/-- **A block of a partition can be split** into its halves. -/
theorem split (h : IsPartition top usable B) (hb : b ∈ B) (ho : 0 < b.order) :
    IsPartition top usable (insert b.lower (insert b.upper (B.erase b))) := by
  have hal := h.aligned b hb
  have hle := h.order_le b hb
  have hhalf : ∀ c ∈ B.erase b, ∀ f, f ∈ b.lower ∨ f ∈ b.upper → f ∉ c := by
    intro c hc f hf hfc
    rw [← Block.mem_iff_halves ho] at hf
    rw [Finset.mem_erase] at hc
    exact hc.1 (h.eq_of_mem c hc.2 b hb f hfc hf)
  have hlu : ∀ f, f ∈ b.lower → f ∉ b.upper := fun f hf =>
    Block.buddy_lower hal ho ▸ Block.notMem_buddy hal.lower hf
  refine ⟨fun c hc => ?_, fun c hc => ?_, fun c hc d hd f hfc hfd => ?_,
    fun f => ?_⟩
  · rw [Finset.mem_insert, Finset.mem_insert] at hc
    rcases hc with rfl | rfl | hc
    · exact (Nat.sub_le _ _).trans hle
    · exact (Nat.sub_le _ _).trans hle
    · exact h.order_le c (Finset.mem_of_mem_erase hc)
  · rw [Finset.mem_insert, Finset.mem_insert] at hc
    rcases hc with rfl | rfl | hc
    · exact hal.lower
    · exact hal.upper ho
    · exact h.aligned c (Finset.mem_of_mem_erase hc)
  · rw [Finset.mem_insert, Finset.mem_insert] at hc hd
    rcases hc with rfl | rfl | hc <;> rcases hd with rfl | rfl | hd
    · rfl
    · exact absurd hfd (hlu f hfc)
    · exact absurd hfd (hhalf d hd f (Or.inl hfc))
    · exact absurd hfc (hlu f hfd)
    · rfl
    · exact absurd hfd (hhalf d hd f (Or.inr hfc))
    · exact absurd hfc (hhalf c hc f (Or.inl hfd))
    · exact absurd hfc (hhalf c hc f (Or.inr hfd))
    · exact h.eq_of_mem c (Finset.mem_of_mem_erase hc) d
        (Finset.mem_of_mem_erase hd) f hfc hfd
  · rw [h.cover f]
    constructor
    · rintro ⟨c, hc, hf⟩
      by_cases hcb : c = b
      · subst hcb
        rcases (Block.mem_iff_halves ho).mp hf with hf | hf
        · exact ⟨c.lower, Finset.mem_insert_self _ _, hf⟩
        · exact ⟨c.upper, Finset.mem_insert_of_mem (Finset.mem_insert_self _ _), hf⟩
      · exact ⟨c, Finset.mem_insert_of_mem (Finset.mem_insert_of_mem
          (Finset.mem_erase.mpr ⟨hcb, hc⟩)), hf⟩
    · rintro ⟨c, hc, hf⟩
      rw [Finset.mem_insert, Finset.mem_insert] at hc
      rcases hc with rfl | rfl | hc
      · exact ⟨b, hb, (Block.mem_iff_halves ho).mpr (Or.inl hf)⟩
      · exact ⟨b, hb, (Block.mem_iff_halves ho).mpr (Or.inr hf)⟩
      · exact ⟨c, Finset.mem_of_mem_erase hc, hf⟩

end IsPartition

/-! ## Buddy systems and their moves -/

/-- **A coalesced buddy system** over the cells `usable`, with orders up to
`top`. -/
structure BuddySystem (top : ℕ) (usable : Set ℕ) where
  /-- The blocks that can be taken. -/
  free : Finset Block
  /-- The blocks that have been taken. -/
  held : Finset Block
  /-- Free and held blocks together divide the usable cells. -/
  isPartition : IsPartition top usable (free ∪ held)
  /-- No block is both free and held. -/
  disjoint : Disjoint free held
  /-- No two free blocks below the top order are buddies. -/
  coalesced : ∀ b ∈ free, b.order < top → b.buddy ∉ free

namespace BuddySystem

variable {b c : Block}

theorem notMem_held (S : BuddySystem top usable) (hb : b ∈ S.free) : b ∉ S.held :=
  Finset.disjoint_left.mp S.disjoint hb

theorem notMem_free (S : BuddySystem top usable) (hb : b ∈ S.held) : b ∉ S.free :=
  Finset.disjoint_right.mp S.disjoint hb

theorem mem_blocks_of_free (S : BuddySystem top usable) (hb : b ∈ S.free) :
    b ∈ S.free ∪ S.held := Finset.mem_union_left _ hb

theorem mem_blocks_of_held (S : BuddySystem top usable) (hb : b ∈ S.held) :
    b ∈ S.free ∪ S.held := Finset.mem_union_right _ hb

theorem aligned_of_free (S : BuddySystem top usable) (hb : b ∈ S.free) : b.Aligned :=
  S.isPartition.aligned b (S.mem_blocks_of_free hb)

theorem aligned_of_held (S : BuddySystem top usable) (hb : b ∈ S.held) : b.Aligned :=
  S.isPartition.aligned b (S.mem_blocks_of_held hb)

/-- The system in which every usable cell is held as a block of its own. -/
def singletons (top : ℕ) (cells : Finset ℕ) : BuddySystem top (cells : Set ℕ) where
  free := ∅
  held := cells.image (fun f => ⟨f, 0⟩)
  isPartition := by
    have hmem : ∀ f g : ℕ, g ∈ (⟨f, 0⟩ : Block) ↔ g = f := fun f g => by
      rw [Block.mem_def]
      dsimp only
      omega
    refine ⟨?_, ?_, ?_, fun f => ?_⟩
    · simp
    · simp [Block.Aligned]
    · simp only [Finset.empty_union, Finset.mem_image]
      rintro b ⟨f, -, rfl⟩ c ⟨g, -, rfl⟩ x hx hy
      rw [hmem] at hx hy
      rw [← hx, ← hy]
    · simp only [Finset.empty_union, Finset.mem_image, Finset.mem_coe]
      constructor
      · exact fun hf => ⟨⟨f, 0⟩, ⟨f, hf, rfl⟩, (hmem f f).mpr rfl⟩
      · rintro ⟨b, ⟨g, hg, rfl⟩, hf⟩
        rwa [(hmem g f).mp hf]
  disjoint := Finset.disjoint_empty_left _
  coalesced := by simp

/-- **Take** a free block. -/
def take (S : BuddySystem top usable) (b : Block) (hb : b ∈ S.free) :
    BuddySystem top usable where
  free := S.free.erase b
  held := insert b S.held
  isPartition := by
    have : S.free.erase b ∪ insert b S.held = S.free ∪ S.held := by
      rw [Finset.union_insert, ← Finset.insert_union, Finset.insert_erase hb]
    rw [this]
    exact S.isPartition
  disjoint := by
    rw [Finset.disjoint_insert_right]
    exact ⟨Finset.notMem_erase _ _,
      S.disjoint.mono_left (Finset.erase_subset _ _)⟩
  coalesced := fun c hc ho h =>
    S.coalesced c (Finset.mem_of_mem_erase hc) ho (Finset.mem_of_mem_erase h)

/-- **Give back** a held block that has no free buddy to merge with. -/
def give (S : BuddySystem top usable) (b : Block) (hb : b ∈ S.held)
    (hno : b.order < top → b.buddy ∉ S.free) : BuddySystem top usable where
  free := insert b S.free
  held := S.held.erase b
  isPartition := by
    have : insert b S.free ∪ S.held.erase b = S.free ∪ S.held := by
      rw [Finset.insert_union, ← Finset.union_insert, Finset.insert_erase hb]
    rw [this]
    exact S.isPartition
  disjoint := by
    rw [Finset.disjoint_insert_left]
    exact ⟨Finset.notMem_erase _ _,
      S.disjoint.mono_right (Finset.erase_subset _ _)⟩
  coalesced := by
    have hne : b.buddy ≠ b := Block.buddy_ne (S.aligned_of_held hb)
    intro c hc ho hc'
    rcases Finset.mem_insert.mp hc with rfl | hc
    · rcases Finset.mem_insert.mp hc' with h | h
      · exact hne h
      · exact hno ho h
    · rcases Finset.mem_insert.mp hc' with h | h
      · have hcb : c = b.buddy := by rw [← h, Block.buddy_buddy]
        subst hcb
        exact hno ho hc
      · exact S.coalesced c hc ho h

/-- **Merge** a held block with its free buddy. -/
def merge (S : BuddySystem top usable) (b : Block) (hb : b ∈ S.held)
    (ho : b.order < top) (hb' : b.buddy ∈ S.free) : BuddySystem top usable where
  free := S.free.erase b.buddy
  held := insert b.parent (S.held.erase b)
  isPartition := by
    have hp := S.isPartition.merge (S.mem_blocks_of_held hb)
      (S.mem_blocks_of_free hb') ho
    have : S.free.erase b.buddy ∪ insert b.parent (S.held.erase b)
        = insert b.parent (((S.free ∪ S.held).erase b).erase b.buddy) := by
      rw [Finset.union_insert, Finset.erase_union_distrib,
        Finset.erase_eq_of_notMem (S.notMem_free hb), Finset.erase_union_distrib,
        Finset.erase_eq_of_notMem (a := b.buddy) (s := S.held.erase b)
          (fun h => S.notMem_held hb' (Finset.mem_of_mem_erase h))]
    rw [this]
    exact hp
  disjoint := by
    rw [Finset.disjoint_insert_right]
    refine ⟨fun h => ?_, S.disjoint.mono (Finset.erase_subset _ _)
      (Finset.erase_subset _ _)⟩
    have hmem : b.base ∈ b.parent :=
      (Block.mem_parent (S.aligned_of_held hb)).mpr (Or.inl b.base_mem)
    exact S.isPartition.notMem_of_order_ne (S.mem_blocks_of_held hb) b.base_mem hmem
      (by simp) (S.mem_blocks_of_free (Finset.mem_of_mem_erase h))
  coalesced := fun c hc ho h =>
    S.coalesced c (Finset.mem_of_mem_erase hc) ho (Finset.mem_of_mem_erase h)

/-- **Split** a held block, keeping its first half and freeing its second. -/
def split (S : BuddySystem top usable) (b : Block) (hb : b ∈ S.held)
    (ho : 0 < b.order) : BuddySystem top usable where
  free := insert b.upper S.free
  held := insert b.lower (S.held.erase b)
  isPartition := by
    have hp := S.isPartition.split (S.mem_blocks_of_held hb) ho
    have : insert b.upper S.free ∪ insert b.lower (S.held.erase b)
        = insert b.lower (insert b.upper ((S.free ∪ S.held).erase b)) := by
      rw [Finset.union_insert, Finset.insert_union, Finset.erase_union_distrib,
        Finset.erase_eq_of_notMem (S.notMem_free hb)]
    rw [this]
    exact hp
  disjoint := by
    have hal := S.aligned_of_held hb
    -- the halves are new, since the block itself covers their cells
    have hlow : b.lower ∉ S.free ∪ S.held :=
      S.isPartition.notMem_of_order_ne (S.mem_blocks_of_held hb) b.base_mem
        b.lower.base_mem (by simp; omega)
    have hupp : b.upper ∉ S.free ∪ S.held :=
      S.isPartition.notMem_of_order_ne (S.mem_blocks_of_held hb)
        ((Block.mem_iff_halves ho).mpr (Or.inr b.upper.base_mem))
        b.upper.base_mem (by simp; omega)
    have hne : b.upper ≠ b.lower :=
      Block.buddy_lower hal ho ▸ Block.buddy_ne hal.lower
    rw [Finset.disjoint_insert_right, Finset.disjoint_insert_left]
    refine ⟨?_, ?_, S.disjoint.mono_right (Finset.erase_subset _ _)⟩
    · rw [Finset.mem_insert, not_or]
      exact ⟨hne.symm, fun h => hlow (S.mem_blocks_of_free h)⟩
    · exact fun h => hupp (S.mem_blocks_of_held (Finset.mem_of_mem_erase h))
  coalesced := by
    have hal := S.aligned_of_held hb
    have hlow : b.lower ∉ S.free := fun h =>
      S.isPartition.notMem_of_order_ne (S.mem_blocks_of_held hb) b.base_mem
        b.lower.base_mem (by simp; omega) (S.mem_blocks_of_free h)
    have hbud : b.upper.buddy = b.lower := by
      rw [← Block.buddy_lower hal ho, Block.buddy_buddy]
    have hne : b.lower ≠ b.upper :=
      Block.buddy_lower hal ho ▸ (Block.buddy_ne hal.lower).symm
    intro c hc hlt hc'
    -- the new free half has its buddy among the held blocks
    rcases Finset.mem_insert.mp hc with rfl | hc <;>
      rcases Finset.mem_insert.mp hc' with h | h
    · exact hne (hbud ▸ h)
    · exact hlow (hbud ▸ h)
    · have hcl : c = b.lower := by rw [← hbud, ← h, Block.buddy_buddy]
      exact hlow (hcl ▸ hc)
    · exact S.coalesced c hc hlt h

/-! ## Counting cells -/

/-- The number of free cells. -/
def freeCells (S : BuddySystem top usable) : ℕ := ∑ b ∈ S.free, b.size

/-- The number of held cells. -/
def heldCells (S : BuddySystem top usable) : ℕ := ∑ b ∈ S.held, b.size

theorem freeCells_take (S : BuddySystem top usable) (hb : b ∈ S.free) :
    (S.take b hb).freeCells + b.size = S.freeCells :=
  Finset.sum_erase_add _ _ hb

theorem heldCells_take (S : BuddySystem top usable) (hb : b ∈ S.free) :
    (S.take b hb).heldCells = b.size + S.heldCells :=
  Finset.sum_insert (S.notMem_held hb)

theorem freeCells_give (S : BuddySystem top usable) (hb : b ∈ S.held)
    (hno : b.order < top → b.buddy ∉ S.free) :
    (S.give b hb hno).freeCells = b.size + S.freeCells :=
  Finset.sum_insert (S.notMem_free hb)

theorem heldCells_give (S : BuddySystem top usable) (hb : b ∈ S.held)
    (hno : b.order < top → b.buddy ∉ S.free) :
    (S.give b hb hno).heldCells + b.size = S.heldCells :=
  Finset.sum_erase_add _ _ hb

theorem freeCells_merge (S : BuddySystem top usable) (hb : b ∈ S.held)
    (ho : b.order < top) (hb' : b.buddy ∈ S.free) :
    (S.merge b hb ho hb').freeCells + b.buddy.size = S.freeCells :=
  Finset.sum_erase_add _ _ hb'

theorem heldCells_merge (S : BuddySystem top usable) (hb : b ∈ S.held)
    (ho : b.order < top) (hb' : b.buddy ∈ S.free) :
    (S.merge b hb ho hb').heldCells = S.heldCells + b.buddy.size := by
  have hnot : b.parent ∉ S.held.erase b := fun h =>
    S.isPartition.notMem_of_order_ne (S.mem_blocks_of_held hb) b.base_mem
      ((Block.mem_parent (S.aligned_of_held hb)).mpr (Or.inl b.base_mem)) (by simp)
      (S.mem_blocks_of_held (Finset.mem_of_mem_erase h))
  have hsum : ∑ c ∈ S.held.erase b, c.size + b.size = S.heldCells :=
    Finset.sum_erase_add _ _ hb
  unfold heldCells merge at *
  rw [Finset.sum_insert hnot, Block.size_parent]
  omega

theorem freeCells_split (S : BuddySystem top usable) (hb : b ∈ S.held)
    (ho : 0 < b.order) :
    (S.split b hb ho).freeCells = b.upper.size + S.freeCells := by
  have hupp : b.upper ∉ S.free := fun h =>
    S.isPartition.notMem_of_order_ne (S.mem_blocks_of_held hb)
      ((Block.mem_iff_halves ho).mpr (Or.inr b.upper.base_mem))
      b.upper.base_mem (by simp; omega) (S.mem_blocks_of_free h)
  exact Finset.sum_insert hupp

theorem heldCells_split (S : BuddySystem top usable) (hb : b ∈ S.held)
    (ho : 0 < b.order) :
    (S.split b hb ho).heldCells + b.upper.size = S.heldCells := by
  have hnot : b.lower ∉ S.held.erase b := fun h =>
    S.isPartition.notMem_of_order_ne (S.mem_blocks_of_held hb) b.base_mem
      b.lower.base_mem (by simp; omega)
      (S.mem_blocks_of_held (Finset.mem_of_mem_erase h))
  have hsum : ∑ c ∈ S.held.erase b, c.size + b.size = S.heldCells :=
    Finset.sum_erase_add _ _ hb
  have hsize := Block.size_halves ho
  unfold heldCells split at *
  rw [Finset.sum_insert hnot]
  omega

/-! ## Coalescing is canonical -/

/-- The cells of the free blocks. -/
def freeSet (S : BuddySystem top usable) : Set ℕ := {f | ∃ b ∈ S.free, f ∈ b}

/-- **A cell is free exactly when it is usable and in no held block.** -/
theorem mem_freeSet_iff (S : BuddySystem top usable) (f : ℕ) :
    f ∈ S.freeSet ↔ f ∈ usable ∧ ∀ b ∈ S.held, f ∉ b := by
  constructor
  · rintro ⟨b, hb, hf⟩
    refine ⟨(S.isPartition.cover f).mpr ⟨b, S.mem_blocks_of_free hb, hf⟩, ?_⟩
    intro c hc hfc
    have hbc := S.isPartition.eq_of_mem b (S.mem_blocks_of_free hb) c
      (S.mem_blocks_of_held hc) f hf hfc
    exact S.notMem_held hb (hbc ▸ hc)
  · rintro ⟨hu, hno⟩
    obtain ⟨b, hb, hf⟩ := (S.isPartition.cover f).mp hu
    rcases Finset.mem_union.mp hb with hb | hb
    · exact ⟨b, hb, hf⟩
    · exact absurd hf (hno b hb)

/-- An aligned block of order at most `top` with all its cells in `F`. -/
structure IsRun (top : ℕ) (F : Set ℕ) (b : Block) : Prop where
  aligned : b.Aligned
  order_le : b.order ≤ top
  subset : ∀ f ∈ b, f ∈ F

/-- A run contained in no other. -/
structure IsMaximalRun (top : ℕ) (F : Set ℕ) (b : Block) : Prop
    extends IsRun top F b where
  eq_of_subset : ∀ c, IsRun top F c → (∀ f ∈ b, f ∈ c) → c = b

theorem isRun_of_mem_free (S : BuddySystem top usable) (hb : b ∈ S.free) :
    IsRun top S.freeSet b :=
  ⟨S.aligned_of_free hb, S.isPartition.order_le b (S.mem_blocks_of_free hb),
    fun _ hf => ⟨b, hb, hf⟩⟩

/-- **A run of free cells lies inside one free block.** By induction on the
order: each half lies inside a free block, and if neither block reaches over
the whole run, the two are buddies that coalescing would have merged. -/
theorem exists_free_of_isRun (S : BuddySystem top usable) (h : IsRun top S.freeSet c) :
    ∃ b ∈ S.free, c.order ≤ b.order ∧ c.base ∈ b := by
  obtain ⟨base, order⟩ := c
  induction order generalizing base with
  | zero =>
    obtain ⟨b, hb, hf⟩ := h.subset base (Block.base_mem ⟨base, 0⟩)
    exact ⟨b, hb, Nat.zero_le _, hf⟩
  | succ k ih =>
    set c : Block := ⟨base, k + 1⟩
    have hpos : 0 < c.order := Nat.succ_pos k
    have hrun : ∀ d : Block, d.Aligned → d.order = k → (∀ f ∈ d, f ∈ c) →
        IsRun top S.freeSet d := fun d hd hk hsub =>
      ⟨hd, hk ▸ (Nat.le_succ k).trans h.order_le, fun f hf => h.subset f (hsub f hf)⟩
    obtain ⟨b₁, hb₁, ho₁, hm₁⟩ := ih c.lower.base
      (hrun c.lower h.aligned.lower rfl
        (fun f hf => (Block.mem_iff_halves hpos).mpr (Or.inl hf)))
    obtain ⟨b₂, hb₂, ho₂, hm₂⟩ := ih c.upper.base
      (hrun c.upper (h.aligned.upper hpos) rfl
        (fun f hf => (Block.mem_iff_halves hpos).mpr (Or.inr hf)))
    rcases Nat.lt_or_ge k b₁.order with hlt₁ | hge₁
    · exact ⟨b₁, hb₁, hlt₁, hm₁⟩
    rcases Nat.lt_or_ge k b₂.order with hlt₂ | hge₂
    · exact ⟨b₂, hb₂, hlt₂, Block.mem_of_mem_of_le h.aligned (S.aligned_of_free hb₂)
        hlt₂ ((Block.mem_iff_halves hpos).mpr (Or.inr c.upper.base_mem)) hm₂
        c.base_mem⟩
    -- both blocks are the halves themselves, hence buddies
    have he₁ : b₁ = c.lower := Block.eq_of_mem_of_mem (S.aligned_of_free hb₁)
      h.aligned.lower (le_antisymm hge₁ ho₁) hm₁ c.lower.base_mem
    have he₂ : b₂ = c.upper := Block.eq_of_mem_of_mem (S.aligned_of_free hb₂)
      (h.aligned.upper hpos) (le_antisymm hge₂ ho₂) hm₂ c.upper.base_mem
    have hbud : b₁.buddy ∈ S.free := by
      rw [he₁, Block.buddy_lower h.aligned hpos, ← he₂]
      exact hb₂
    exact absurd hbud (S.coalesced b₁ hb₁ (lt_of_le_of_lt hge₁ h.order_le))

/-- **The free blocks are the maximal runs of free cells**, so the free cells
determine them. -/
theorem mem_free_iff_isMaximalRun (S : BuddySystem top usable) :
    b ∈ S.free ↔ IsMaximalRun top S.freeSet b := by
  constructor
  · intro hb
    refine ⟨S.isRun_of_mem_free hb, fun c hc hsub => ?_⟩
    obtain ⟨d, hd, hle, hmem⟩ := S.exists_free_of_isRun hc
    have hcd : ∀ f ∈ c, f ∈ d := fun f hf =>
      Block.mem_of_mem_of_le hc.aligned (S.aligned_of_free hd) hle c.base_mem hmem hf
    have hbd : b = d := S.isPartition.eq_of_mem b (S.mem_blocks_of_free hb) d
      (S.mem_blocks_of_free hd) b.base b.base_mem (hcd _ (hsub _ b.base_mem))
    subst hbd
    exact Block.eq_of_forall_mem_iff (fun f => ⟨hcd f, hsub f⟩)
  · intro h
    obtain ⟨d, hd, hle, hmem⟩ := S.exists_free_of_isRun h.toIsRun
    have hbd : ∀ f ∈ b, f ∈ d := fun f hf =>
      Block.mem_of_mem_of_le h.aligned (S.aligned_of_free hd) hle b.base_mem hmem hf
    exact h.eq_of_subset d (S.isRun_of_mem_free hd) hbd ▸ hd

end BuddySystem
