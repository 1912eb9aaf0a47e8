import Risky.PagingMap

/-!
# Mapping a range

`paging_map_range` and `paging_map_mmio` map one page after the other. Seen
from outside they are runs of calls of `paging_map_page`
(`Paging.pageCalls_of_pagingMapRange`). A run that is neither refused nor cut
short by the end of the address space has mapped every page of the range
(`Paging.pagingMapRangeLoop_maps`).
-/

/-- The `i`-th page from an address on. -/
def pageAt (addr : BitVec 64) (i : ℕ) : BitVec 64 := addr + BitVec.ofNat 64 (i * 2 ^ 12)

@[simp] theorem pageAt_zero (addr : BitVec 64) : pageAt addr 0 = addr := by
  unfold pageAt
  rw [Nat.zero_mul]
  exact BitVec.add_zero addr

theorem pageAt_succ (addr : BitVec 64) (i : ℕ) :
    pageAt (addr + pageSize) i = pageAt addr (i + 1) := by
  refine BitVec.eq_of_toNat_eq ?_
  unfold pageAt
  rw [BitVec.toNat_add, BitVec.toNat_add, BitVec.toNat_add, BitVec.toNat_ofNat,
    BitVec.toNat_ofNat]
  show (_ + 4096) % 2 ^ 64 + _ ≡ _ [MOD 2 ^ 64]
  unfold Nat.ModEq
  omega

theorem toNat_pageAt {addr : BitVec 64} {i : ℕ} (h : addr.toNat + i * 2 ^ 12 < 2 ^ 64) :
    (pageAt addr i).toNat = addr.toNat + i * 2 ^ 12 := by
  unfold pageAt
  rw [BitVec.toNat_add, BitVec.toNat_ofNat]
  omega

namespace Paging

variable {B : Boot} {m : Mmu} {virt phys size flags last va : BitVec 64} {s s' s₁ : Paging}
variable {r : Bool} {n fuel level : ℕ}

/-! ## Ranges as runs of calls -/

/-- One call of `paging_map_page`. -/
def PageCall (B : Boot) (s s' : Paging) : Prop :=
  ∃ (virt phys flags : BitVec 64) (r : Bool), s.pagingMapPage B virt phys flags = some (r, s')

theorem pageCalls_of_loop (hrun : pagingMapRangeLoop B last flags fuel virt phys s = some (r, s')) :
    Relation.ReflTransGen (PageCall B) s s' := by
  induction fuel generalizing virt phys s with
  | zero => exact absurd hrun (by simp [pagingMapRangeLoop])
  | succ fuel ih =>
    unfold pagingMapRangeLoop at hrun
    split at hrun
    · split at hrun
      · exact absurd hrun (by simp)
      · next s₁ hpage =>
        cases hrun
        exact Relation.ReflTransGen.single ⟨_, _, _, _, hpage⟩
      · next s₁ hpage =>
        exact Relation.ReflTransGen.head ⟨_, _, _, _, hpage⟩ (ih hrun)
    · cases hrun
      exact Relation.ReflTransGen.refl

/-- **Mapping a range is a run of calls.** -/
theorem pageCalls_of_pagingMapRange
    (hrun : s.pagingMapRange B virt phys size flags = some (r, s')) :
    Relation.ReflTransGen (PageCall B) s s' := by
  unfold pagingMapRange at hrun
  split at hrun
  · cases hrun
    exact Relation.ReflTransGen.refl
  · exact pageCalls_of_loop hrun

theorem pageCalls_of_pagingMapMmio (hrun : s.pagingMapMmio B phys size = some (r, s')) :
    Relation.ReflTransGen (PageCall B) s s' := by
  unfold pagingMapMmio at hrun
  dsimp only at hrun
  split at hrun
  · cases hrun
    exact Relation.ReflTransGen.refl
  · exact pageCalls_of_pagingMapRange hrun

theorem pool_le_of_pagingMapPage (hrun : s.pagingMapPage B virt phys flags = some (r, s')) :
    s.gEarlyPtPoolUsed ≤ s'.gEarlyPtPoolUsed := by
  unfold pagingMapPage at hrun
  split at hrun
  · cases hrun
    exact le_rfl
  · exact pool_le_of_pagingMapLevel hrun

theorem pool_le_of_pageCalls (h : Relation.ReflTransGen (PageCall B) s s') :
    s.gEarlyPtPoolUsed ≤ s'.gEarlyPtPoolUsed := by
  induction h with
  | refl => exact le_rfl
  | tail _ hcall ih =>
    obtain ⟨virt, phys, flags, r, hrun⟩ := hcall
    exact ih.trans (pool_le_of_pagingMapPage hrun)

/-! ## A range page by page -/

theorem Maps.congr (h : s.Maps m virt phys flags)
    (he : s'.translation m virt = s.translation m virt) : s'.Maps m virt phys flags := by
  obtain ⟨pte, level, ht, hrest⟩ := h
  exact ⟨pte, level, he.trans ht, hrest⟩

/-- **What a run over `n` pages leaves**: all of them mapped, and every other
page as it was. -/
structure Mapped (B : Boot) (m : Mmu) (virt phys flags : BitVec 64) (n : ℕ) (s s' : Paging) :
    Prop where
  sound : Sound B m s'
  gLevels : s'.gLevels = s.gLevels
  maps : ∀ i < n, s'.Maps m (pageAt virt i) (pageAt phys i) flags
  frame : ∀ va, Canonical s.gLevels va →
    (∀ i < n, va.toNat / 2 ^ 12 ≠ (pageAt virt i).toNat / 2 ^ 12) →
      s'.translation m va = s.translation m va

/-- **The loop maps every page of the range**, if it gets through. -/
theorem pagingMapRangeLoop_maps (h : Sound B m s) (hconf : s.Conforms m)
    (hlast : virt.toNat + n * 2 ^ 12 = last.toNat)
    (hcanon : ∀ i < n, Canonical s.gLevels (pageAt virt i))
    (hphys : phys.toNat + n * 2 ^ 12 ≤ 2 ^ 56) (hflags : SomeRight flags)
    (hrun : pagingMapRangeLoop B last flags fuel virt phys s = some (true, s'))
    (hpool : s'.gEarlyPtPoolUsed = s.gEarlyPtPoolUsed ∨ PoolSound B m s) :
    Mapped B m virt phys flags n s s' := by
  have hlt := last.isLt
  induction n generalizing fuel virt phys s with
  | zero =>
    cases fuel with
    | zero => exact absurd hrun (by simp [pagingMapRangeLoop])
    | succ fuel =>
      unfold pagingMapRangeLoop at hrun
      rw [if_neg (by rw [BitVec.lt_def]; omega)] at hrun
      cases hrun
      exact ⟨h, rfl, fun _ hi => absurd hi (Nat.not_lt_zero _), fun _ _ _ => rfl⟩
  | succ n ih =>
    cases fuel with
    | zero => exact absurd hrun (by simp [pagingMapRangeLoop])
    | succ fuel =>
      unfold pagingMapRangeLoop at hrun
      rw [if_pos (by rw [BitVec.lt_def]; omega)] at hrun
      split at hrun
      · exact absurd hrun (by simp)
      · exact absurd hrun (by simp)
      next s₁ hpage =>
      have hle := pool_le_of_pagingMapPage hpage
      have hle' := pool_le_of_pageCalls (pageCalls_of_loop hrun)
      have hpool₁ : s₁.gEarlyPtPoolUsed = s.gEarlyPtPoolUsed ∨ PoolSound B m s :=
        hpool.imp_left (fun heq => le_antisymm (heq ▸ hle') hle)
      -- the first page, and then the rest from the state it leaves
      have heff := mapEffect_of_pagingMapPage h hpage hpool₁
      have hcanon₀ : Canonical s.gLevels virt := pageAt_zero virt ▸ hcanon 0 (Nat.succ_pos n)
      obtain ⟨hconf₁, hmaps₁⟩ :=
        maps_of_pagingMapPage h hconf hcanon₀ (by omega) hflags hpage hpool₁
      have hvirt : (virt + pageSize).toNat = virt.toNat + 2 ^ 12 := by
        rw [BitVec.toNat_add]
        show (_ + 4096) % _ = _
        omega
      have hphys₁ : (phys + pageSize).toNat = phys.toNat + 2 ^ 12 := by
        rw [BitVec.toNat_add]
        show (_ + 4096) % _ = _
        omega
      have hrest := ih heff.sound hconf₁ (by omega)
        (fun i hi => by
          rw [heff.gLevels, pageAt_succ]
          exact hcanon (i + 1) (by omega))
        (by omega) hrun
        (hpool.imp (fun heq => le_antisymm (heq ▸ hle) hle') heff.pool)
      refine ⟨hrest.sound, hrest.gLevels.trans heff.gLevels, fun i hi => ?_,
        fun va hva hne => ?_⟩
      · cases i with
        | zero =>
          -- the first page is none of the pages of the rest
          rw [pageAt_zero, pageAt_zero]
          refine hmaps₁.congr (hrest.frame virt (heff.gLevels ▸ hcanon₀) (fun i hi => ?_))
          rw [pageAt_succ, toNat_pageAt (by omega)]
          omega
        | succ i =>
          rw [← pageAt_succ, ← pageAt_succ]
          exact hrest.maps i (by omega)
      · rw [hrest.frame va (heff.gLevels ▸ hva) (fun i hi => by
          rw [pageAt_succ]
          exact hne (i + 1) (by omega))]
        refine heff.frame va (fun he => hne 0 (Nat.succ_pos n) ?_)
        rw [pageAt_zero]
        exact page_eq_of_indices_eq h.three_le h.le_five hva hcanon₀ he

end Paging
