import Risky.PmmFrames

/-!
# How much can be allocated

How often an allocation of an order succeeds does not depend on how the free frames have
come to lie on the free lists: a client that goes on allocating blocks of one order gets
every aligned run of free frames of that size, each once, before it is refused
(`Pmm.allocations_exhaust`).
-/

namespace Pmm

variable {hhdm : BitVec 64} {s₀ s s' t : Pmm} {A : Finset Block} {order page p f : ℕ}
  {l : List ℕ}

/-- `pmm_is_ready`. -/
def pmmIsReady (s : Pmm) : Bool := s.gPmmReady

/-- `pmm_free_pages`. -/
def pmmFreePages (s : Pmm) : ℕ := s.gFreePages

/-- `pmm_total_pages`. -/
def pmmTotalPages (s : Pmm) : ℕ := s.gTotalPages

/-! ## What the held blocks leave -/

/-- **The free frames are the usable ones in no held block.** -/
theorem Represents.freeFrame_iff (h : Represents s₀ s A) :
    s.FreeFrame f ↔ f ∈ s₀.usableFrames ∧ ∀ b ∈ A, f ∉ b := by
  obtain ⟨S, hinv, rfl, -, -⟩ := h
  rw [freeFrame_iff_mem_freeSet hinv, S.mem_freeSet_iff, Finset.mem_coe]

/-- **`g_free_pages` counts them.** -/
theorem Represents.freePages_add (h : Represents s₀ s A) :
    s.gFreePages + ∑ b ∈ A, b.size = s₀.usableFrames.card := by
  obtain ⟨S, hinv, rfl, -, htotal⟩ := h
  rw [hinv.freePages, ← htotal, hinv.totalPages]
  rfl

/-! ## One allocation -/

/-- **An allocation** is refused where there is no run of free frames, and else takes
one. -/
theorem Represents.pageAlloc_cases (h : Represents s₀ s A) (ho : order ≤ 9) :
    (s.pageAlloc order = some (none, s) ∧ ∀ p, ¬ s.FreeRun order p)
      ∨ ∃ page s', s.pageAlloc order = some (some page, s') ∧ Allocates s s' order page
        ∧ Represents s₀ s' (insert ⟨page, order⟩ A) := by
  obtain ⟨S, hinv, hheld, hmax, htotal⟩ := h
  rcases pmmAllocPage_spec hinv order with ⟨hrun, hno⟩ | ⟨page, s', S', hrun, -, htook, hinv'⟩
  · refine Or.inl ⟨hrun, fun p hp => ?_⟩
    obtain ⟨c, hc, hle⟩ := (exists_free_iff_freeRun hinv ho).mpr ⟨p, hp⟩
    exact absurd (hno (lt_maxOrder_of_le ho) c hc) (not_lt.mpr hle)
  · exact Or.inr ⟨page, s', hrun, htook.allocates hinv hinv', S', hinv', hheld ▸ htook.held,
      htook.gMaxPfn.trans hmax, htook.gTotalPages.trans htotal⟩

/-- Two aligned runs of one size that meet are the same. -/
theorem FreeRun.eq_of_mem (hp : s.FreeRun order p) (hpage : s'.FreeRun order page)
    (hf : f ∈ (⟨p, order⟩ : Block)) (hf' : f ∈ (⟨page, order⟩ : Block)) : p = page := by
  obtain ⟨⟨a, rfl⟩, -⟩ := hp
  obtain ⟨⟨b, rfl⟩, -⟩ := hpage
  obtain ⟨h₁, h₂⟩ := Block.mem_def.mp hf
  obtain ⟨h₃, h₄⟩ := Block.mem_def.mp hf'
  -- both multipliers are the quotient of the common frame
  have hpos : 0 < 2 ^ order := Nat.two_pow_pos order
  have hquot : ∀ c, 2 ^ order * c ≤ f → f < 2 ^ order * c + 2 ^ order → f / 2 ^ order = c :=
    fun c hle hlt => Nat.div_eq_of_lt_le (by rw [Nat.mul_comm]; exact hle)
      (by rw [Nat.add_mul, Nat.one_mul, Nat.mul_comm c]; exact hlt)
  rw [← hquot a h₁ h₂, ← hquot b h₃ h₄]

/-- **The runs that are left** after an allocation are the others. -/
theorem Allocates.freeRun_iff (h : Allocates s s' order page) :
    s'.FreeRun order p ↔ s.FreeRun order p ∧ p ≠ page := by
  have hself : p ∈ (⟨p, order⟩ : Block) :=
    Block.mem_def.mpr ⟨le_rfl, Nat.lt_add_of_pos_right (Nat.two_pow_pos _)⟩
  constructor
  · rintro ⟨haligned, hfree⟩
    refine ⟨⟨haligned, fun f hf => ((h.free_iff f).mp (hfree f hf)).1⟩, ?_⟩
    rintro rfl
    exact ((h.free_iff p).mp (hfree p hself)).2 hself
  · rintro ⟨hrun, hne⟩
    refine ⟨hrun.1, fun f hf => (h.free_iff f).mpr ⟨hrun.2 f hf, fun hf' => hne ?_⟩⟩
    exact hrun.eq_of_mem h.run hf hf'

/-! ## One allocation after the other -/

/-- **Allocations of one order in a row**, with the pages that they return. -/
inductive Allocations (order : ℕ) : Pmm → List ℕ → Pmm → Prop
  | nil {s : Pmm} : Allocations order s [] s
  | cons {s s' t : Pmm} {page : ℕ} {l : List ℕ} (h : s.pageAlloc order = some (some page, s'))
      (hrest : Allocations order s' l t) : Allocations order s (page :: l) t

/-- **What allocations in a row return**: different runs of free frames, and those that
are left are the others. -/
theorem Allocations.spec (h : Allocations order s l t) (hs : Represents s₀ s A)
    (ho : order ≤ 9) :
    (∃ A', Represents s₀ t A') ∧ l.Nodup ∧ (∀ p ∈ l, s.FreeRun order p)
      ∧ (∀ p, t.FreeRun order p ↔ s.FreeRun order p ∧ p ∉ l)
      ∧ t.gFreePages + l.length * 2 ^ order = s.gFreePages := by
  induction h generalizing A with
  | nil => exact ⟨⟨A, hs⟩, List.nodup_nil, fun p hp => absurd hp List.not_mem_nil, by simp, by simp⟩
  | @cons s s' t page l hrun _ ih =>
    rcases hs.pageAlloc_cases ho with ⟨hnone, -⟩ | ⟨page', s'', hrun', halloc, hs'⟩
    · rw [hnone] at hrun
      exact absurd hrun (by simp)
    rw [hrun'] at hrun
    simp only [Option.some.injEq, Prod.mk.injEq] at hrun
    obtain ⟨rfl, rfl⟩ := hrun
    obtain ⟨hrep, hnodup, hruns, hleft, hpages⟩ := ih hs'
    refine ⟨hrep, List.nodup_cons.mpr ⟨fun hmem => ?_, hnodup⟩, fun p hp => ?_, fun p => ?_, ?_⟩
    · exact (halloc.freeRun_iff.mp (hruns page' hmem)).2 rfl
    · rcases List.mem_cons.mp hp with rfl | hp
      · exact halloc.run
      · exact (halloc.freeRun_iff.mp (hruns p hp)).1
    · rw [hleft p, halloc.freeRun_iff, List.mem_cons, not_or, and_assoc]
    · have hone := halloc.freePages
      rw [List.length_cons, Nat.add_mul, Nat.one_mul]
      omega

/-- **Allocations in a row come to an end.** -/
theorem Represents.exists_allocations (hs : Represents s₀ s A) (ho : order ≤ 9) :
    ∃ l t, Allocations order s l t ∧ t.pageAlloc order = some (none, t) := by
  induction hn : s.gFreePages using Nat.strong_induction_on generalizing s A with
  | _ n ih =>
    rcases hs.pageAlloc_cases ho with ⟨hnone, -⟩ | ⟨page, s', hrun, halloc, hs'⟩
    · exact ⟨[], s, Allocations.nil, hnone⟩
    · have hpages := halloc.freePages
      have hpos : 0 < 2 ^ order := Nat.two_pow_pos order
      obtain ⟨l, t, hl, ht⟩ := ih s'.gFreePages (by omega) hs' rfl
      exact ⟨page :: l, t, Allocations.cons hrun hl, ht⟩

/-- **Where no frame is free, `g_free_pages` is zero.** -/
theorem Represents.freePages_eq_zero (h : Represents s₀ s A) (hno : ∀ p, ¬ s.FreeRun 0 p) :
    s.gFreePages = 0 := by
  obtain ⟨S, hinv, -⟩ := h
  rw [hinv.freePages]
  refine Finset.sum_eq_zero (fun c hc => ?_)
  obtain ⟨p, hp⟩ := (exists_free_iff_freeRun hinv (Nat.zero_le _)).mp ⟨c, hc, Nat.zero_le _⟩
  exact absurd hp (hno p)

/-- **A client gets every aligned run of free frames, and each once**, before it is
refused, in every reachable state and for every order: the free lists never hide memory
that an allocation of the size could use. Of single pages it gets `g_free_pages`. -/
theorem allocations_exhaust (h₀ : BootDb s₀) (hnull : NoNullFrame hhdm s₀.gMaxPfn)
    (h : Reach hhdm s₀ s A) (ho : order ≤ 9) :
    (∃ l t, Allocations order s l t ∧ t.pageAlloc order = some (none, t))
      ∧ ∀ l t, Allocations order s l t → l.Nodup ∧ (∀ p ∈ l, s.FreeRun order p)
        ∧ (t.pageAlloc order = some (none, t) ↔ ∀ p, s.FreeRun order p → p ∈ l)
        ∧ t.pmmFreePages + l.length * 2 ^ order = s.pmmFreePages
        ∧ (order = 0 → t.pageAlloc order = some (none, t) → l.length = s.pmmFreePages) := by
  have hs := h.represents h₀ hnull
  refine ⟨hs.exists_allocations ho, fun l t hl => ?_⟩
  obtain ⟨⟨A', ht⟩, hnodup, hruns, hleft, hpages⟩ := hl.spec hs ho
  refine ⟨hnodup, hruns, ?_, hpages, ?_⟩
  · rcases ht.pageAlloc_cases ho with ⟨hnone, hno⟩ | ⟨page, t', hrun, halloc, -⟩
    · refine iff_of_true hnone (fun p hp => ?_)
      by_contra hnot
      exact hno p ((hleft p).mpr ⟨hp, hnot⟩)
    · refine iff_of_false (fun hnone => ?_) (fun hall => ?_)
      · rw [hnone] at hrun
        exact absurd hrun (by simp)
      · obtain ⟨hrun', hnot⟩ := (hleft page).mp halloc.run
        exact hnot (hall page hrun')
  · rintro rfl hnone
    rcases ht.pageAlloc_cases ho with ⟨-, hno⟩ | ⟨page, t', hrun, -, -⟩
    · have hzero := ht.freePages_eq_zero hno
      unfold pmmFreePages
      omega
    · rw [hnone] at hrun
      exact absurd hrun (by simp)

/-- The two frames of the example, one after the other. -/
theorem allocations_exhaust_twoFrames :
    ∃ t, Allocations 0 twoFrames.pmmInit.2 [0, 1] t ∧ t.pmmFreePages = 0
      ∧ t.pageAlloc 0 = some (none, t) := by
  have hl : Allocations 0 twoFrames.pmmInit.2 [0, 1] _ :=
    Allocations.cons rfl (Allocations.cons rfl Allocations.nil)
  obtain ⟨-, -, hiff, -⟩ := (allocations_exhaust bootDb_twoFrames noNullFrame_twoFrames
    Relation.ReflTransGen.refl (show 0 ≤ 9 by decide)).2 _ _ hl
  refine ⟨_, hl, by decide +kernel, hiff.mpr (fun p hp => ?_)⟩
  obtain ⟨-, hfree⟩ := hp
  obtain ⟨b, hb, hpb⟩ := hfree p (Block.mem_def.mpr ⟨le_rfl, Nat.lt_succ_self p⟩)
  have hblocks : twoFrames.pmmInit.2.freeBlocks = [⟨0, 1⟩] := by decide +kernel
  rw [hblocks, List.mem_singleton] at hb
  subst hb
  have hlt : p < 2 := (Block.mem_def.mp hpb).2
  interval_cases p <;> decide

end Pmm
