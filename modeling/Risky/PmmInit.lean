import Risky.PmmCalls

/-!
# What `pmm_init` builds

`pmm_init` first turns every free frame into a used frame of order 0 – the
state of a buddy system in which every usable cell is held as a block of its
own – and then frees the frames one by one in ascending order. Each of those
frees is the same `pmm_free_block` a client's free runs, so the free blocks it
leaves are coalesced for the same reason.
-/

namespace Pmm

variable {s : Pmm}

/-- **The database as it is before `pmm_init`**: established, over frame
numbers that fit an address, and with every frame either free or reserved. -/
structure BootDb (s : Pmm) : Prop where
  gPfndb_ne : s.gPfndb ≠ 0#64
  max_lt : s.gMaxPfn < 2 ^ 52
  flags : ∀ f ≤ s.gMaxPfn, (s.pages f).flags = Page.FREE
    ∨ (s.pages f).flags = Page.RESERVED

/-- The frames that are free before `pmm_init`. -/
def usableFrames (s : Pmm) : Finset ℕ :=
  (Finset.range (s.gMaxPfn + 1)).filter (fun f => (s.pages f).flags = Page.FREE)

theorem mem_usableFrames {f : ℕ} :
    f ∈ s.usableFrames ↔ f ≤ s.gMaxPfn ∧ (s.pages f).flags = Page.FREE := by
  rw [usableFrames, Finset.mem_filter, Finset.mem_range, Nat.lt_succ_iff]

theorem card_usableFrames_le (s : Pmm) : s.usableFrames.card ≤ s.gMaxPfn + 1 :=
  (Finset.card_filter_le _ _).trans (Finset.card_range _).le

/-! ## The first loop -/

/-- The record the first loop leaves. -/
def marked (p : Page) : Page :=
  { flags := if p.flags = Page.FREE then Page.USED else p.flags
    order := 0, next := none, prev := none }

/-- One turn of the first loop. -/
theorem pmmInitMark_spec (s : Pmm) (pfn : ℕ) (h₀ : s.gPfndb ≠ 0#64) (hle : pfn ≤ s.gMaxPfn)
    (hflags : (s.pages pfn).flags = Page.FREE ∨ (s.pages pfn).flags = Page.RESERVED) :
    (s.pmmInitMark pfn).pages = Function.update s.pages pfn (marked (s.pages pfn))
      ∧ (s.pmmInitMark pfn).gTotalPages
        = (if (s.pages pfn).flags = Page.FREE then (s.gTotalPages + 1) % 2 ^ 64
            else s.gTotalPages)
      ∧ (s.pmmInitMark pfn).gPfndb = s.gPfndb ∧ (s.pmmInitMark pfn).gMaxPfn = s.gMaxPfn
      ∧ (s.pmmInitMark pfn).gFreeLists = s.gFreeLists
      ∧ (s.pmmInitMark pfn).gFreePages = s.gFreePages := by
  have hused : (Page.FREE ||| Page.USED) &&& ~~~Page.FREE = Page.USED := by decide
  have hne : Page.RESERVED ≠ Page.FREE := by decide
  have hreset : ∀ p : Page, pageFree (pageResetLinks { p with order := 0 }) = pageFree p :=
    fun _ => rfl
  unfold pmmInitMark marked
  rw [Pfndb.pfndbGetPage_of_le h₀ hle]
  dsimp only [modifyPage]
  simp only [Function.update_self, Function.update_idem, hreset]
  rcases hflags with hf | hf
  · rw [if_pos (Page.pageFree_of_free hf), if_pos hf, if_pos hf]
    simp only [setPageUsed, clearPageFree, pageSetFlags, pageClearFlags, pageResetLinks,
      hf, hused, and_self]
  · rw [if_neg (by rw [Page.pageFree_of_reserved hf]; exact Bool.false_ne_true),
      if_neg (hf ▸ hne), if_neg (hf ▸ hne)]
    exact ⟨rfl, rfl, rfl, rfl, rfl, rfl⟩

/-- **The first loop** marks every free frame used and counts it. -/
theorem foldl_pmmInitMark (h : BootDb s) (htotal : s.gTotalPages = 0) (n : ℕ)
    (hn : n ≤ s.gMaxPfn + 1) :
    let s' := (List.range n).foldl pmmInitMark s
    (∀ f, s'.pages f = if f < n then marked (s.pages f) else s.pages f)
      ∧ s'.gTotalPages
        = ((Finset.range n).filter (fun f => (s.pages f).flags = Page.FREE)).card
      ∧ s'.gPfndb = s.gPfndb ∧ s'.gMaxPfn = s.gMaxPfn
      ∧ s'.gFreeLists = s.gFreeLists ∧ s'.gFreePages = s.gFreePages := by
  induction n with
  | zero => exact ⟨fun f => (if_neg (Nat.not_lt_zero f)).symm, htotal, rfl, rfl, rfl, rfl⟩
  | succ n ih =>
    obtain ⟨hpages, hcount, h₁, h₂, h₃, h₄⟩ := ih (by omega)
    rw [List.range_succ, List.foldl_append, List.foldl_cons, List.foldl_nil]
    set s₁ := (List.range n).foldl pmmInitMark s
    have hpn : s₁.pages n = s.pages n := (hpages n).trans (if_neg (lt_irrefl n))
    obtain ⟨k₁, k₂, k₃, k₄, k₅, k₆⟩ := pmmInitMark_spec s₁ n
      (h₁ ▸ h.gPfndb_ne) (by omega) (hpn ▸ h.flags n (by omega))
    refine ⟨fun f => ?_, ?_, k₃.trans h₁, k₄.trans h₂, k₅.trans h₃, k₆.trans h₄⟩
    · rw [k₁]
      by_cases hf : f = n
      · subst hf
        rw [Function.update_self, if_pos (Nat.lt_succ_self f), hpn]
      · rw [Function.update_of_ne hf, hpages f]
        have : f < n ↔ f < n + 1 := by omega
        simp only [this]
    · have hcard := Finset.card_filter_le (Finset.range n)
        (fun f => (s.pages f).flags = Page.FREE)
      rw [Finset.card_range] at hcard
      have hmax := h.max_lt
      rw [k₂, hpn, hcount, Finset.range_add_one, Finset.filter_insert]
      by_cases hf : (s.pages n).flags = Page.FREE
      · rw [if_pos hf, if_pos hf, Finset.card_insert_of_notMem (by simp)]
        exact Nat.mod_eq_of_lt (by omega)
      · rw [if_neg hf, if_neg hf]

/-! ## The second loop -/

/-- The blocks of order 0 of the frames from `n` on. -/
def pending (s : Pmm) (n : ℕ) : Finset Block :=
  (s.usableFrames.filter (fun f => n ≤ f)).image (fun f => ⟨f, 0⟩)

theorem mem_pending {n f : ℕ} :
    (⟨f, 0⟩ : Block) ∈ s.pending n ↔ f ∈ s.usableFrames ∧ n ≤ f := by
  unfold pending
  rw [Finset.mem_image]
  constructor
  · rintro ⟨g, hg, he⟩
    obtain rfl : g = f := congrArg Block.base he
    exact Finset.mem_filter.mp hg
  · exact fun hf => ⟨f, Finset.mem_filter.mpr hf, rfl⟩

theorem pending_zero (s : Pmm) : s.pending 0 = s.usableFrames.image (fun f => ⟨f, 0⟩) := by
  unfold pending
  rw [Finset.filter_true_of_mem (fun f _ => Nat.zero_le f)]

theorem pending_end (s : Pmm) : s.pending (s.gMaxPfn + 1) = ∅ := by
  unfold pending
  rw [Finset.image_eq_empty, Finset.filter_eq_empty_iff]
  intro f hf
  have := (mem_usableFrames.mp hf).1
  omega

/-- Moving on past a frame erases its block, if it had one. -/
theorem pending_succ (s : Pmm) (n : ℕ) : s.pending (n + 1) = (s.pending n).erase ⟨n, 0⟩ := by
  unfold pending
  ext b
  simp only [Finset.mem_image, Finset.mem_filter, Finset.mem_erase]
  constructor
  · rintro ⟨f, ⟨hf, hle⟩, rfl⟩
    refine ⟨fun he => ?_, f, ⟨hf, by omega⟩, rfl⟩
    have : f = n := congrArg Block.base he
    omega
  · rintro ⟨hne, f, ⟨hf, hle⟩, rfl⟩
    refine ⟨f, ⟨hf, ?_⟩, rfl⟩
    rcases Nat.lt_or_ge n f with hlt | hge
    · exact hlt
    · exact absurd (show (⟨f, 0⟩ : Block) = ⟨n, 0⟩ by rw [le_antisymm hge hle]) hne

/-- **The second loop** frees the frames below `n`. -/
theorem foldl_pmmInitFree {s₀ : Pmm} {S₀ : BuddySystem topOrder (s₀.usableFrames : Set ℕ)}
    {lists₀ : ℕ → List ℕ} (h : Refines s S₀ lists₀ none) (hheld : S₀.held = s₀.pending 0)
    (hfree : s.gFreePages = S₀.freeCells) (hcells : cells S₀ ≤ 2 ^ 52)
    (hmax : s.gMaxPfn = s₀.gMaxPfn) (n : ℕ) (hn : n ≤ s.gMaxPfn + 1) :
    ∃ (S : BuddySystem topOrder (s₀.usableFrames : Set ℕ)) (lists : ℕ → List ℕ),
      let s' := (List.range n).foldl pmmInitFree s
      Refines s' S lists none ∧ S.held = s₀.pending n ∧ s'.gFreePages = S.freeCells
        ∧ cells S = cells S₀ ∧ s'.gTotalPages = s.gTotalPages ∧ s'.gMaxPfn = s.gMaxPfn := by
  induction n with
  | zero => exact ⟨S₀, lists₀, h, hheld, hfree, rfl, rfl, rfl⟩
  | succ n ih =>
    obtain ⟨S, lists, hr, hh, hf, hc, ht, hm⟩ := ih (by omega)
    simp only [List.range_succ, List.foldl_append, List.foldl_cons, List.foldl_nil]
    set s₁ := (List.range n).foldl pmmInitFree s
    have hget := Pfndb.pfndbGetPage_of_le hr.gPfndb_ne (show n ≤ s₁.gMaxPfn by omega)
    unfold pmmInitFree
    rw [hget]
    dsimp only
    by_cases hu : n ∈ s₀.usableFrames
    · -- a usable frame is still held as a block of its own
      have hb : (⟨n, 0⟩ : Block) ∈ S.held := by
        rw [hh]
        exact mem_pending.mpr ⟨hu, le_rfl⟩
      have hpage := (hr.held_page _ hb (by simp)).1
      rw [if_neg (by
        rw [Page.pageUsed_of_used hpage, Page.pageReserved_of_used hpage]
        simp)]
      obtain ⟨S', lists', hr', hheld', hcells'⟩ :=
        pmmFreeBlock_spec (hr.setCounters ((s₁.gFreePages + 1) % 2 ^ 64)
          s₁.gTotalPages s₁.gPmmReady) hb
      have hframe := sameFrame_pmmFreeBlock
        { s₁ with gFreePages := (s₁.gFreePages + 1) % 2 ^ 64 } n
      have hcount := freeCells_of_erase hheld' hb hcells'
      have hle : S'.freeCells ≤ cells S' := Nat.le_add_right _ _
      refine ⟨S', lists', hr', ?_, ?_, hcells'.trans hc, hframe.gTotalPages.trans ht,
        hframe.gMaxPfn.trans hm⟩
      · rw [hheld', hh, pending_succ]
      · have hsize : (⟨n, 0⟩ : Block).size = 1 := rfl
        rw [hframe.gFreePages]
        show (s₁.gFreePages + 1) % 2 ^ 64 = _
        omega
    · -- a reserved frame is skipped
      have hpage := hr.reserved n (by omega) hu
      rw [if_pos (by rw [Page.pageUsed_of_reserved hpage]; rfl)]
      refine ⟨S, lists, hr, ?_, hf, hc, ht, hm⟩
      rw [hh, pending_succ, Finset.erase_eq_of_notMem]
      exact fun hmem => hu (mem_pending.mp hmem).1

/-! ## Both loops -/

/-- The buddy system after the first loop. -/
def bootSystem (s : Pmm) : BuddySystem topOrder (s.usableFrames : Set ℕ) :=
  BuddySystem.singletons topOrder s.usableFrames

theorem cells_bootSystem (s : Pmm) : cells s.bootSystem = s.usableFrames.card := by
  unfold cells BuddySystem.freeCells BuddySystem.heldCells bootSystem
    BuddySystem.singletons
  rw [Finset.sum_empty, Nat.zero_add, Finset.sum_image (fun f _ g _ he =>
    congrArg Block.base he), Finset.card_eq_sum_ones]
  rfl

/-- After the first loop every usable frame is a held block of order 0. -/
theorem refines_bootSystem (h : BootDb s) (s' : Pmm)
    (hpages : ∀ f ≤ s.gMaxPfn, s'.pages f = marked (s.pages f))
    (h₁ : s'.gPfndb = s.gPfndb) (h₂ : s'.gMaxPfn = s.gMaxPfn)
    (h₃ : s'.gFreeLists = fun _ => { head := none, count := 0 }) :
    Refines s' s.bootSystem (fun _ => []) none := by
  have hused : ∀ f, f ∈ s.usableFrames →
      (s'.pages f).flags = Page.USED ∧ (s'.pages f).order = 0 := by
    intro f hf
    obtain ⟨hle, hfree⟩ := mem_usableFrames.mp hf
    rw [hpages f hle]
    exact ⟨if_pos hfree, rfl⟩
  refine ⟨h₁ ▸ h.gPfndb_ne, h₂ ▸ h.max_lt, fun f hf => ?_,
    ⟨fun o _ => ?_, fun o _ => ?_, by simp, by simp⟩, ?_, ?_, ?_, ?_, ?_⟩
  · rw [h₂]
    exact (mem_usableFrames.mp (Finset.mem_coe.mp hf)).1
  · rw [h₃]
    exact Links.isList_nil _
  · rw [h₃]
    rfl
  · intro o _ p
    exact ⟨fun hp => absurd hp List.not_mem_nil, fun hp => absurd hp (Finset.notMem_empty _)⟩
  · exact fun b hb => absurd hb (Finset.notMem_empty _)
  · intro b hb _
    obtain ⟨f, hf, rfl⟩ := Finset.mem_image.mp hb
    exact hused f hf
  · intro f hf hnot
    rw [h₂] at hf
    have hres := (h.flags f hf).resolve_left (fun hfree =>
      hnot (Finset.mem_coe.mpr (mem_usableFrames.mpr ⟨hf, hfree⟩)))
    rw [hpages f hf]
    show (if _ then _ else _) = _
    rw [hres]
    rfl
  · intro f hf
    obtain ⟨h₁, h₂⟩ := hused f (Finset.mem_coe.mp hf)
    exact ⟨Or.inr h₁, h₂ ▸ by decide⟩

/-- **`pmm_init` succeeds on a boot database** and leaves a ready manager with
every usable frame in a free block. -/
theorem pmmInit_spec (h : BootDb s) :
    (s.pmmInit).1 = true ∧ (s.pmmInit).2.gMaxPfn = s.gMaxPfn
      ∧ (s.pmmInit).2.gTotalPages = s.usableFrames.card
      ∧ ∃ S : BuddySystem topOrder (s.usableFrames : Set ℕ),
        Inv (s.pmmInit).2 S ∧ S.held = ∅ := by
  unfold pmmInit
  rw [if_neg h.gPfndb_ne]
  dsimp only
  set s₀ : Pmm := { s with
    gFreeLists := fun _ => { head := none, count := 0 }
    gFreePages := 0
    gTotalPages := 0
    gPmmReady := false } with hs₀
  obtain ⟨hpages, htotal, h₁, h₂, h₃, h₄⟩ :=
    foldl_pmmInitMark (s := s₀) ⟨h.gPfndb_ne, h.max_lt, h.flags⟩ rfl (s₀.gMaxPfn + 1) le_rfl
  set s₁ := (List.range (s₀.gMaxPfn + 1)).foldl pmmInitMark s₀
  have hr := refines_bootSystem h s₁ (fun f hf =>
    (hpages f).trans (if_pos (Nat.lt_succ_of_le hf))) h₁ h₂ h₃
  have hcard := (card_usableFrames_le s).trans h.max_lt
  have hboot := cells_bootSystem s
  have hfree₀ : s.bootSystem.freeCells = 0 := Finset.sum_empty
  obtain ⟨S, lists, hr', hheld, hfree, hcells, htot, hmax⟩ :=
    foldl_pmmInitFree hr (pending_zero s).symm (h₄.trans hfree₀.symm) (by omega) h₂
      (s₁.gMaxPfn + 1) le_rfl
  have hend : S.held = ∅ := by rw [hheld, h₂]; exact pending_end s
  refine ⟨rfl, hmax.trans h₂, htot.trans htotal, S,
    ⟨⟨lists, hr'.setCounters _ _ true⟩, hfree, ?_, by omega, rfl⟩, hend⟩
  rw [hcells, hboot]
  exact htot.trans htotal

end Pmm
