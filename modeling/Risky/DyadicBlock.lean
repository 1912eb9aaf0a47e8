import Mathlib.Data.Nat.Bitwise
import Mathlib.Tactic

/-!
# Naturally aligned blocks

A *block* is a run of `2 ^ order` consecutive cells, and it is *aligned* when
its first cell is a multiple of its length. Aligned blocks nest: two of them
that share a cell are contained one in the other. Each aligned block has one
*buddy*, the block of its own order it forms an aligned block of the next
order with, and the buddy's first cell is one exclusive-or away.

Nothing here speaks of an allocator; `Risky.BuddySystem` builds one on these
facts.
-/

/-- **A block**: `2 ^ order` consecutive cells from `base` on. -/
structure Block where
  /-- The first cell. -/
  base : ℕ
  /-- The binary logarithm of the number of cells. -/
  order : ℕ
  deriving DecidableEq, Repr

namespace Block

variable {b c : Block} {f : ℕ}

/-- The number of cells of a block. -/
def size (b : Block) : ℕ := 2 ^ b.order

instance : Membership ℕ Block := ⟨fun b f => b.base ≤ f ∧ f < b.base + b.size⟩

theorem mem_def : f ∈ b ↔ b.base ≤ f ∧ f < b.base + 2 ^ b.order := Iff.rfl

instance (b : Block) (f : ℕ) : Decidable (f ∈ b) :=
  inferInstanceAs (Decidable (_ ∧ _))

theorem size_pos (b : Block) : 0 < b.size := Nat.two_pow_pos _

theorem base_mem (b : Block) : b.base ∈ b :=
  ⟨le_rfl, Nat.lt_add_of_pos_right b.size_pos⟩

/-- The first cell is a multiple of the length. -/
def Aligned (b : Block) : Prop := 2 ^ b.order ∣ b.base

instance : DecidablePred Aligned := fun _ => inferInstanceAs (Decidable (_ ∣ _))

/-- **An aligned block is a fibre of the division by its length.** -/
theorem mem_iff_div (h : b.Aligned) :
    f ∈ b ↔ f / 2 ^ b.order = b.base / 2 ^ b.order := by
  obtain ⟨q, hq⟩ := h
  have hpos : 0 < 2 ^ b.order := Nat.two_pow_pos _
  rw [mem_def, hq, Nat.mul_div_cancel_left q hpos, Nat.div_eq_iff hpos]
  have hmul : q * 2 ^ b.order = 2 ^ b.order * q := Nat.mul_comm _ _
  omega

/-- **Aligned blocks nest**: a block that meets a block of at least its order
lies inside it. -/
theorem mem_of_mem_of_le (hb : b.Aligned) (hc : c.Aligned)
    (hle : b.order ≤ c.order) (hfb : f ∈ b) (hfc : f ∈ c) {g : ℕ} (hg : g ∈ b) :
    g ∈ c := by
  obtain ⟨k, hk⟩ := Nat.exists_eq_add_of_le hle
  rw [mem_iff_div hc] at hfc ⊢
  rw [mem_iff_div hb] at hfb hg
  rw [← hfc, hk, pow_add, ← Nat.div_div_eq_div_mul, ← Nat.div_div_eq_div_mul,
    hg, hfb]

/-- Two aligned blocks of one order that meet are the same. -/
theorem eq_of_mem_of_mem (hb : b.Aligned) (hc : c.Aligned)
    (ho : b.order = c.order) (hfb : f ∈ b) (hfc : f ∈ c) : b = c := by
  have h₁ := mem_of_mem_of_le hb hc ho.le hfb hfc b.base_mem
  have h₂ := mem_of_mem_of_le hc hb ho.ge hfc hfb c.base_mem
  have hbase : b.base = c.base := le_antisymm h₂.1 h₁.1
  cases b
  cases c
  simp_all

/-- Blocks with the same cells are the same: the cells give the first one and
how many there are. -/
theorem eq_of_forall_mem_iff (h : ∀ f, f ∈ b ↔ f ∈ c) : b = c := by
  have hb := (h b.base).mp b.base_mem
  have hc := (h c.base).mpr c.base_mem
  have hbase : b.base = c.base := le_antisymm hc.1 hb.1
  have hlast : ∀ d : Block, d.base + 2 ^ d.order ∉ d := fun d hd =>
    absurd hd.2 (lt_irrefl _)
  have hpow : 2 ^ b.order = 2 ^ c.order := by
    have h₁ := mt (h (c.base + 2 ^ c.order)).mp (hlast c)
    have h₂ := mt (h (b.base + 2 ^ b.order)).mpr (hlast b)
    have hpos : ∀ d : Block, 0 < 2 ^ d.order := size_pos
    have hpb := hpos b
    have hpc := hpos c
    rw [mem_def] at h₁ h₂
    omega
  have ho : b.order = c.order := Nat.pow_right_injective le_rfl hpow
  cases b
  cases c
  simp_all

/-- **The smaller of two aligned blocks that meet starts the larger, or lies
strictly inside**: a first cell contained in a block of at most its own order
is that block's first cell. -/
theorem base_eq_of_base_mem (hb : b.Aligned) (hc : c.Aligned)
    (hle : c.order ≤ b.order) (h : b.base ∈ c) : c.base = b.base := by
  have hmem := mem_of_mem_of_le hc hb hle h b.base_mem c.base_mem
  exact le_antisymm h.1 hmem.1

/-! ## Buddies -/

/-- The block a block forms an aligned block of the next order with. -/
def buddy (b : Block) : Block := ⟨b.base ^^^ 2 ^ b.order, b.order⟩

/-- The aligned block of the next order around a block. -/
def parent (b : Block) : Block := ⟨min b.base b.buddy.base, b.order + 1⟩

/-- The first half of a block. -/
def lower (b : Block) : Block := ⟨b.base, b.order - 1⟩

/-- The second half of a block. -/
def upper (b : Block) : Block := ⟨b.base + 2 ^ (b.order - 1), b.order - 1⟩

@[simp] theorem buddy_order (b : Block) : b.buddy.order = b.order := rfl

@[simp] theorem parent_order (b : Block) : b.parent.order = b.order + 1 := rfl

@[simp] theorem lower_base (b : Block) : b.lower.base = b.base := rfl

@[simp] theorem lower_order (b : Block) : b.lower.order = b.order - 1 := rfl

@[simp] theorem upper_order (b : Block) : b.upper.order = b.order - 1 := rfl

@[simp] theorem buddy_buddy (b : Block) : b.buddy.buddy = b := by
  unfold buddy
  dsimp only
  rw [Nat.xor_assoc, Nat.xor_self, Nat.xor_zero]

/-- **Where the buddy lies**: an aligned block is the even or the odd one of
a pair, and its buddy is the other. -/
theorem buddy_cases (h : b.Aligned) :
    (∃ q, b.base = 2 ^ b.order * (2 * q)
        ∧ b.buddy.base = 2 ^ b.order * (2 * q + 1))
      ∨ ∃ q, b.base = 2 ^ b.order * (2 * q + 1)
        ∧ b.buddy.base = 2 ^ b.order * (2 * q) := by
  obtain ⟨m, hm⟩ := h
  have hshift : b.buddy.base = 2 ^ b.order * (m ^^^ 1) := by
    show b.base ^^^ 2 ^ b.order = _
    rw [hm, Nat.mul_comm _ m, Nat.mul_comm _ (m ^^^ 1), ← Nat.shiftLeft_eq,
      ← Nat.shiftLeft_eq, Nat.shiftLeft_xor_distrib, Nat.one_shiftLeft]
  rcases Nat.even_or_odd' m with ⟨q, rfl | rfl⟩
  · exact Or.inl ⟨q, hm, by rw [hshift, Nat.xor_one_of_even (even_two_mul q)]⟩
  · refine Or.inr ⟨q, hm, ?_⟩
    rw [hshift, Nat.xor_one_of_odd (odd_two_mul_add_one q), Nat.add_sub_cancel]

theorem Aligned.buddy (h : b.Aligned) : b.buddy.Aligned := by
  rcases buddy_cases h with ⟨q, -, hq⟩ | ⟨q, -, hq⟩
  · exact ⟨_, hq⟩
  · exact ⟨_, hq⟩

theorem Aligned.parent (h : b.Aligned) : b.parent.Aligned := by
  have hpow : 2 ^ (b.order + 1) = 2 * 2 ^ b.order := Nat.pow_succ'
  unfold Aligned Block.parent
  rcases buddy_cases h with ⟨q, h₁, h₂⟩ | ⟨q, h₁, h₂⟩
  · refine ⟨q, ?_⟩
    rw [h₁, h₂, hpow, min_eq_left (Nat.mul_le_mul_left _ (by omega))]
    ring
  · refine ⟨q, ?_⟩
    rw [h₁, h₂, hpow, min_eq_right (Nat.mul_le_mul_left _ (by omega))]
    ring

/-- **The parent is the block and its buddy.** -/
theorem mem_parent (h : b.Aligned) : f ∈ b.parent ↔ f ∈ b ∨ f ∈ b.buddy := by
  have hpow : 2 ^ (b.order + 1) = 2 * 2 ^ b.order := Nat.pow_succ'
  rw [mem_def, mem_def, mem_def, buddy_order, parent_order, hpow]
  show min b.base b.buddy.base ≤ f ∧ f < min b.base b.buddy.base + _ ↔ _
  have hsucc : ∀ q, 2 ^ b.order * (2 * q + 1) = 2 ^ b.order * (2 * q) + 2 ^ b.order :=
    fun q => Nat.mul_succ _ _
  rcases buddy_cases h with ⟨q, h₁, h₂⟩ | ⟨q, h₁, h₂⟩
  · rw [h₁, h₂, hsucc]
    omega
  · rw [h₁, h₂, hsucc]
    omega

/-- A block and its buddy share no cell. -/
theorem notMem_buddy (h : b.Aligned) (hf : f ∈ b) : f ∉ b.buddy := by
  have hsucc : ∀ q, 2 ^ b.order * (2 * q + 1) = 2 ^ b.order * (2 * q) + 2 ^ b.order :=
    fun q => Nat.mul_succ _ _
  rw [mem_def] at hf
  rw [mem_def, buddy_order]
  rcases buddy_cases h with ⟨q, h₁, h₂⟩ | ⟨q, h₁, h₂⟩
  · rw [h₁] at hf
    rw [h₂, hsucc]
    omega
  · rw [h₁, hsucc] at hf
    rw [h₂]
    omega

theorem buddy_ne (h : b.Aligned) : b.buddy ≠ b :=
  fun he => notMem_buddy h b.base_mem (he.symm ▸ b.base_mem)

/-- The parent starts where the lower one of the pair does. -/
theorem parent_base_of_lt (h : b.buddy.base < b.base) :
    b.parent = ⟨b.buddy.base, b.order + 1⟩ := by
  unfold parent
  rw [min_eq_right h.le]

theorem parent_base_of_ge (h : ¬ b.buddy.base < b.base) :
    b.parent = ⟨b.base, b.order + 1⟩ := by
  unfold parent
  rw [min_eq_left (not_lt.mp h)]

/-! ## Halves -/

theorem Aligned.lower (h : b.Aligned) : b.lower.Aligned :=
  (pow_dvd_pow 2 (Nat.sub_le _ _)).trans h

/-- The second half of an aligned block is the buddy of the first. -/
theorem buddy_lower (h : b.Aligned) (hpos : 0 < b.order) :
    b.lower.buddy = b.upper := by
  obtain ⟨k, hk⟩ : ∃ k, b.order = k + 1 := ⟨b.order - 1, by omega⟩
  obtain ⟨q, hq⟩ := h
  have hbase : b.base = 2 ^ b.lower.order * (2 * q) := by
    rw [hq, lower_order, hk, Nat.add_sub_cancel, Nat.pow_succ]
    ring
  have hne : ∀ r, 2 * q ≠ 2 * r + 1 := fun r => by omega
  have hupper : b.upper = ⟨2 ^ b.lower.order * (2 * q + 1), b.lower.order⟩ := by
    unfold upper
    rw [hbase]
    rfl
  rcases buddy_cases (b := b.lower) (Aligned.lower ⟨q, hq⟩) with
    ⟨r, h₁, h₂⟩ | ⟨r, h₁, -⟩
  · rw [lower_base, hbase] at h₁
    have hr : 2 * q = 2 * r := Nat.eq_of_mul_eq_mul_left (Nat.two_pow_pos _) h₁
    rw [hupper, hr, ← h₂]
    rfl
  · rw [lower_base, hbase] at h₁
    exact absurd (Nat.eq_of_mul_eq_mul_left (Nat.two_pow_pos _) h₁) (hne r)

theorem Aligned.upper (h : b.Aligned) (hpos : 0 < b.order) : b.upper.Aligned :=
  buddy_lower h hpos ▸ h.lower.buddy

/-- **A block is its two halves.** -/
theorem mem_iff_halves (hpos : 0 < b.order) : f ∈ b ↔ f ∈ b.lower ∨ f ∈ b.upper := by
  obtain ⟨k, hk⟩ : ∃ k, b.order = k + 1 := ⟨b.order - 1, by omega⟩
  have hpow : 2 ^ (k + 1) = 2 * 2 ^ k := Nat.pow_succ'
  rw [mem_def, mem_def, mem_def]
  unfold lower upper
  rw [hk, Nat.add_sub_cancel, hpow]
  dsimp only
  omega

theorem size_parent (b : Block) : b.parent.size = b.size + b.buddy.size := by
  show 2 ^ (b.order + 1) = 2 ^ b.order + 2 ^ b.order
  rw [Nat.pow_succ, Nat.mul_two]

theorem size_halves (hpos : 0 < b.order) : b.size = b.lower.size + b.upper.size := by
  obtain ⟨k, hk⟩ : ∃ k, b.order = k + 1 := ⟨b.order - 1, by omega⟩
  show 2 ^ b.order = 2 ^ (b.order - 1) + 2 ^ (b.order - 1)
  rw [hk, Nat.add_sub_cancel, Nat.pow_succ, Nat.mul_two]

end Block
