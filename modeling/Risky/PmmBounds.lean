import Risky.PmmRuns

/-!
# The allocator stays inside the page database

The records of the database are an array of `g_max_pfn + 1` entries, and what lies behind
it belongs to somebody else. No call of the allocator touches it, whatever its callers do:
with what is behind the array replaced by anything, all calls return the same and leave the
same in the array, and what is behind it stays as it was (`Pmm.calls_beyond`).

This does not rest on the free lists being in order, which they are not any more after a
block has been freed twice, but on two things only: a frame number is compared with
`g_max_pfn` before it becomes a pointer, and a pointer in a list came from a frame number.
-/

namespace Pmm

variable {s : Pmm} {page order fuel current : ℕ} {junk : ℕ → Page} {hhdm : BitVec 64}

/-- **Something else behind the array.** -/
def beyond (s : Pmm) (junk : ℕ → Page) : Pmm :=
  { s with pages := fun p => if p ≤ s.gMaxPfn then s.pages p else junk p }

theorem pages_beyond (h : page ≤ s.gMaxPfn) : (s.beyond junk).pages page = s.pages page := if_pos h

/-- What is behind the array already. -/
theorem beyond_eq_self {pages : ℕ → Page} :
    s.beyond pages = s ↔ ∀ p, s.gMaxPfn < p → s.pages p = pages p := by
  constructor
  · intro h p hp
    rw [← congrFun (congrArg (fun t : Pmm => t.pages) h) p]
    exact if_neg (not_le.mpr hp)
  · intro h
    have hpages : (fun p => if p ≤ s.gMaxPfn then s.pages p else pages p) = s.pages := by
      funext p
      split
      · rfl
      · next hp => exact (h p (not_le.mp hp)).symm
    unfold beyond
    rw [hpages]

/-- **Every pointer is into the array.** -/
structure InBounds (s : Pmm) : Prop where
  next : ∀ p ≤ s.gMaxPfn, ∀ q ∈ (s.pages p).next, q ≤ s.gMaxPfn
  prev : ∀ p ≤ s.gMaxPfn, ∀ q ∈ (s.pages p).prev, q ≤ s.gMaxPfn
  head : ∀ o, ∀ q ∈ (s.gFreeLists o).head, q ≤ s.gMaxPfn

/-- **A piece of the allocator that stays inside the array**, in a state. -/
structure Confined (f : Pmm → Pmm) (s : Pmm) : Prop where
  inBounds : InBounds (f s)
  gMaxPfn : (f s).gMaxPfn = s.gMaxPfn
  eq : ∀ junk, f (s.beyond junk) = (f s).beyond junk

/-- Nothing is done. -/
theorem Confined.refl (h : InBounds s) : Confined (fun s => s) s := ⟨h, rfl, fun _ => rfl⟩

/-! ## Writes through a pointer -/

theorem beyond_modifyPage (h : page ≤ s.gMaxPfn) (f : Page → Page) (junk : ℕ → Page) :
    (s.beyond junk).modifyPage page f = (s.modifyPage page f).beyond junk := by
  have hpages : ∀ p, Function.update (s.beyond junk).pages page (f (s.pages page)) p
      = if p ≤ s.gMaxPfn then Function.update s.pages page (f (s.pages page)) p else junk p := by
    intro p
    by_cases hp : p = page
    · subst hp
      rw [Function.update_self, if_pos h, Function.update_self]
    · rw [Function.update_of_ne hp, Function.update_of_ne hp]
      rfl
  unfold modifyPage
  rw [pages_beyond h]
  exact congrArg (fun pages => ({ s with pages := pages } : Pmm)) (funext hpages)

/-- **A record is written** whose new pointers are into the array. -/
theorem InBounds.modifyPage (h : InBounds s) (hpage : page ≤ s.gMaxPfn) {f : Page → Page}
    (hnext : ∀ q ∈ (f (s.pages page)).next, q ≤ s.gMaxPfn)
    (hprev : ∀ q ∈ (f (s.pages page)).prev, q ≤ s.gMaxPfn) :
    Confined (fun s => s.modifyPage page f) s := by
  refine ⟨⟨fun p hp => ?_, fun p hp => ?_, h.head⟩, rfl, beyond_modifyPage hpage f⟩
  · show ∀ q ∈ (Function.update s.pages page _ p).next, q ≤ s.gMaxPfn
    by_cases heq : p = page
    · subst heq
      rwa [Function.update_self]
    · rw [Function.update_of_ne heq]
      exact h.next p hp
  · show ∀ q ∈ (Function.update s.pages page _ p).prev, q ≤ s.gMaxPfn
    by_cases heq : p = page
    · subst heq
      rwa [Function.update_self]
    · rw [Function.update_of_ne heq]
      exact h.prev p hp

theorem InBounds.modifyPagePtr (h : InBounds s) {ptr : Option ℕ} (hptr : ∀ q ∈ ptr, q ≤ s.gMaxPfn)
    {f : Page → Page} (hnext : ∀ p ≤ s.gMaxPfn, ∀ q ∈ (f (s.pages p)).next, q ≤ s.gMaxPfn)
    (hprev : ∀ p ≤ s.gMaxPfn, ∀ q ∈ (f (s.pages p)).prev, q ≤ s.gMaxPfn) :
    Confined (fun s => s.modifyPagePtr ptr f) s := by
  cases ptr with
  | none => exact Confined.refl h
  | some p =>
    have hp := hptr p rfl
    exact h.modifyPage hp (hnext p hp) (hprev p hp)

theorem InBounds.modifyList (h : InBounds s) (order : ℕ) {f : PmmFreeList → PmmFreeList}
    (hhead : ∀ q ∈ (f (s.gFreeLists order)).head, q ≤ s.gMaxPfn) :
    Confined (fun s => s.modifyList order f) s := by
  refine ⟨⟨h.next, h.prev, fun o => ?_⟩, rfl, fun _ => rfl⟩
  show ∀ q ∈ (Function.update s.gFreeLists order _ o).head, q ≤ s.gMaxPfn
  by_cases ho : o = order
  · subst ho
    rwa [Function.update_self]
  · rw [Function.update_of_ne ho]
    exact h.head o

/-- **One piece after the other.** -/
theorem Confined.comp {f g : Pmm → Pmm} (hf : Confined f s) (hg : Confined g (f s)) :
    Confined (fun s => g (f s)) s where
  inBounds := hg.inBounds
  gMaxPfn := hg.gMaxPfn.trans hf.gMaxPfn
  eq junk := by
    show g (f (s.beyond junk)) = _
    rw [hf.eq, hg.eq]

/-- The free pages are counted. -/
theorem InBounds.setFreePages (h : InBounds s) (f : ℕ → ℕ) :
    Confined (fun s => { s with gFreePages := f s.gFreePages }) s :=
  ⟨⟨h.next, h.prev, h.head⟩, rfl, fun _ => rfl⟩

/-- A piece that is another one in each of the states it is about. -/
theorem Confined.congr {f g : Pmm → Pmm} (hf : Confined f s) (h : g s = f s)
    (hjunk : ∀ junk, g (s.beyond junk) = f (s.beyond junk)) : Confined g s where
  inBounds := h ▸ hf.inBounds
  gMaxPfn := h ▸ hf.gMaxPfn
  eq junk := by rw [hjunk, hf.eq, h]

/-! ## The lists -/

theorem InBounds.pmmPreparePage (h : InBounds s) (hpage : page ≤ s.gMaxPfn) (flags : BitVec 32)
    (order : ℕ) : Confined (fun s => s.pmmPreparePage page flags order) s :=
  h.modifyPage hpage (fun _ hq => absurd hq (by simp [pageSetState]))
    (fun _ hq => absurd hq (by simp [pageSetState]))

theorem InBounds.pmmListPush (h : InBounds s) (hpage : page ≤ s.gMaxPfn) (order : ℕ) :
    Confined (fun s => s.pmmListPush order page) s := by
  have hhead := h.head order
  have hreset : Confined (fun s => s.modifyPage page pageResetLinks) s :=
    h.modifyPage hpage (fun _ hq => absurd hq (by simp [pageResetLinks]))
      (fun _ hq => absurd hq (by simp [pageResetLinks]))
  have hnext := hreset.comp (hreset.inBounds.modifyPage
    (f := fun p => { p with next := (s.gFreeLists order).head }) hpage hhead
    (hreset.inBounds.prev page hpage))
  have hprev := hnext.comp (hnext.inBounds.modifyPagePtr
    (f := fun p => { p with prev := some page }) hhead hnext.inBounds.next
    (fun _ _ q hq => by cases hq; exact hpage))
  have hlist := hprev.comp (hprev.inBounds.modifyList order
    (f := fun l => { head := some page, count := (l.count + 1) % 2 ^ 64 })
    (fun q hq => by cases hq; exact hpage.trans_eq hprev.gMaxPfn.symm))
  exact hlist.congr rfl (fun _ => rfl)

/-- `pmm_list_remove` at the previous page of the list, or at its head. -/
def unlinkPrev (order page : ℕ) (s : Pmm) : Pmm :=
  if (s.pages page).prev ≠ none then
    s.modifyPagePtr (s.pages page).prev (fun p => { p with next := (s.pages page).next })
  else s.modifyList order (fun l => { l with head := (s.pages page).next })

/-- `pmm_list_remove` at the next page of the list. -/
def unlinkNext (page : ℕ) (s : Pmm) : Pmm :=
  s.modifyPagePtr (s.pages page).next (fun p => { p with prev := (s.pages page).prev })

theorem InBounds.unlinkPrev (h : InBounds s) (hpage : page ≤ s.gMaxPfn) (order : ℕ) :
    Confined (unlinkPrev order page) s := by
  have hnext := h.next page hpage
  by_cases hprev : (s.pages page).prev ≠ none
  · refine (h.modifyPagePtr (f := fun p => { p with next := (s.pages page).next })
      (h.prev page hpage) (fun _ _ => hnext) h.prev).congr (if_pos hprev) (fun junk => ?_)
    unfold Pmm.unlinkPrev
    rw [pages_beyond hpage, if_pos hprev]
  · refine (h.modifyList order (f := fun l => { l with head := (s.pages page).next })
      hnext).congr (if_neg hprev) (fun junk => ?_)
    unfold Pmm.unlinkPrev
    rw [pages_beyond hpage, if_neg hprev]

theorem InBounds.unlinkNext (h : InBounds s) (hpage : page ≤ s.gMaxPfn) :
    Confined (unlinkNext page) s := by
  have hprev := h.prev page hpage
  refine (h.modifyPagePtr (f := fun p => { p with prev := (s.pages page).prev })
    (h.next page hpage) h.next (fun _ _ => hprev)).congr rfl (fun junk => ?_)
  unfold Pmm.unlinkNext
  rw [pages_beyond hpage]

theorem InBounds.pmmListRemove (h : InBounds s) (hpage : page ≤ s.gMaxPfn) (order : ℕ) :
    Confined (fun s => s.pmmListRemove order page) s := by
  have hprev := h.unlinkPrev hpage order
  have hnext := hprev.comp (hprev.inBounds.unlinkNext (hpage.trans_eq hprev.gMaxPfn.symm))
  have hreset := hnext.comp (hnext.inBounds.modifyPage (f := pageResetLinks)
    (hpage.trans_eq hnext.gMaxPfn.symm) (fun _ hq => absurd hq (by simp [pageResetLinks]))
    (fun _ hq => absurd hq (by simp [pageResetLinks])))
  exact hreset.comp (hreset.inBounds.modifyList order
    (f := fun l => { l with count := (l.count + 2 ^ 64 - 1) % 2 ^ 64 })
    (hreset.inBounds.head order))

/-! ## Blocks -/

/-- A page pointer that `pfndb_get_page` has returned. -/
theorem le_of_pfndbGetPage {pfn : ℕ} (h : s.pfndbGetPage pfn = some page) :
    page = pfn ∧ page ≤ s.gMaxPfn := by
  unfold Pfndb.pfndbGetPage at h
  split at h
  · exact absurd h (by simp)
  · next hin =>
    cases h
    exact ⟨rfl, not_lt.mp (fun hlt => hin (Or.inr hlt))⟩

/-- **The loop of `pmm_free_block`**, whatever is in the records. -/
theorem InBounds.pmmFreeBlockLoop (h : InBounds s) (hpage : page ≤ s.gMaxPfn)
    (fuel pfn order : ℕ) :
    InBounds (pmmFreeBlockLoop fuel s page pfn order).1
      ∧ (pmmFreeBlockLoop fuel s page pfn order).1.gMaxPfn = s.gMaxPfn
      ∧ (pmmFreeBlockLoop fuel s page pfn order).2.1 ≤ s.gMaxPfn
      ∧ ∀ junk, pmmFreeBlockLoop fuel (s.beyond junk) page pfn order
        = ((pmmFreeBlockLoop fuel s page pfn order).1.beyond junk,
            (pmmFreeBlockLoop fuel s page pfn order).2) := by
  induction fuel generalizing s page pfn order with
  | zero => exact ⟨h, rfl, hpage, fun _ => rfl⟩
  | succ fuel ih =>
    have hstop : InBounds s ∧ s.gMaxPfn = s.gMaxPfn ∧ page ≤ s.gMaxPfn
        ∧ ∀ junk, (s.beyond junk, page, order) = (s.beyond junk, page, order) :=
      ⟨h, rfl, hpage, fun _ => rfl⟩
    have hsame : ∀ junk p, (s.beyond junk).pfndbGetPage p = s.pfndbGetPage p := fun _ _ => rfl
    have hmax : ∀ junk, (s.beyond junk).gMaxPfn = s.gMaxPfn := fun _ => rfl
    unfold Pmm.pmmFreeBlockLoop
    simp only [hsame, hmax]
    by_cases horder : order + 1 < pmmMaxOrder
    swap
    · simpa only [if_neg horder] using hstop
    simp only [if_pos horder]
    by_cases hbuddy : pmmBuddyPfn pfn order > s.gMaxPfn
    · simpa only [if_pos hbuddy] using hstop
    simp only [if_neg hbuddy]
    cases hget : s.pfndbGetPage (pmmBuddyPfn pfn order) with
    | none => simpa only using hstop
    | some buddy =>
      have hle := (le_of_pfndbGetPage hget).2
      have hread : ∀ junk, (s.beyond junk).pages buddy = s.pages buddy := fun _ => pages_beyond hle
      simp only [hread]
      by_cases hfree : (!pageFree (s.pages buddy) || (s.pages buddy).order != order) = true
      · simpa only [if_pos hfree] using hstop
      simp only [if_neg hfree]
      -- the buddy is taken off its list, and the lower of the two heads the block
      have hlower : (if pmmBuddyPfn pfn order < pfn then buddy else page) ≤ s.gMaxPfn := by
        split
        · exact hle
        · exact hpage
      have hremove := h.pmmListRemove hle order
      have hlower' := hlower.trans_eq hremove.gMaxPfn.symm
      have hmerge := hremove.comp (hremove.inBounds.modifyPage
        (f := fun p => { p with order := order + 1 }) hlower' (hremove.inBounds.next _ hlower')
        (hremove.inBounds.prev _ hlower'))
      obtain ⟨hin, hkept, hhead, heq⟩ := ih hmerge.inBounds
        (hlower.trans_eq hmerge.gMaxPfn.symm)
        (if pmmBuddyPfn pfn order < pfn then pmmBuddyPfn pfn order else pfn) (order + 1)
      refine ⟨hin, hkept.trans hmerge.gMaxPfn, hhead.trans_eq hmerge.gMaxPfn, fun junk => ?_⟩
      rw [hmerge.eq junk]
      exact heq junk

/-- **`pmm_free_block`.** -/
theorem InBounds.pmmFreeBlock (h : InBounds s) (hpage : page ≤ s.gMaxPfn) :
    Confined (fun s => s.pmmFreeBlock page) s := by
  obtain ⟨hin, hkept, hhead, heq⟩ := h.pmmFreeBlockLoop hpage pmmMaxOrder
    (s.pfndbGetPfn (some page)) (s.pages page).order
  have hhead' := hhead.trans_eq hkept.symm
  have hprepare := hin.pmmPreparePage hhead' Page.FREE
    (Pmm.pmmFreeBlockLoop pmmMaxOrder s page (s.pfndbGetPfn (some page)) (s.pages page).order).2.2
  have hpush := hprepare.comp (hprepare.inBounds.pmmListPush (hhead'.trans_eq hprepare.gMaxPfn.symm)
    (Pmm.pmmFreeBlockLoop pmmMaxOrder s page (s.pfndbGetPfn (some page)) (s.pages page).order).2.2)
  refine ⟨hpush.inBounds, hpush.gMaxPfn.trans hkept, fun junk => ?_⟩
  have hpfn : (s.beyond junk).pfndbGetPfn (some page) = s.pfndbGetPfn (some page) := rfl
  unfold Pmm.pmmFreeBlock
  rw [hpfn, pages_beyond hpage, heq junk]
  exact hpush.eq junk

/-! ## Allocation -/

/-- **The loop that halves a block.** -/
theorem InBounds.pmmSplit (h : InBounds s) (order page current : ℕ) :
    (∀ t, pmmSplit order page current s = some t → InBounds t ∧ t.gMaxPfn = s.gMaxPfn)
      ∧ ∀ junk, pmmSplit order page current (s.beyond junk)
        = (pmmSplit order page current s).map (fun t => t.beyond junk) := by
  induction current generalizing s with
  | zero =>
    refine ⟨fun t ht => ?_, fun _ => rfl⟩
    cases ht
    exact ⟨h, rfl⟩
  | succ current ih =>
    have hsame : ∀ junk,
        (s.beyond junk).pfndbGetPage ((s.beyond junk).pfndbGetPfn (some page) + 2 ^ current)
        = s.pfndbGetPage (s.pfndbGetPfn (some page) + 2 ^ current) := fun _ => rfl
    unfold Pmm.pmmSplit
    simp only [hsame]
    by_cases hcurrent : current + 1 > order
    swap
    · simp only [if_neg hcurrent]
      refine ⟨fun t ht => ?_, fun _ => rfl⟩
      cases ht
      exact ⟨h, rfl⟩
    simp only [if_pos hcurrent]
    cases hget : s.pfndbGetPage (s.pfndbGetPfn (some page) + 2 ^ current) with
    | none => exact ⟨fun t ht => absurd ht (by simp), fun _ => rfl⟩
    | some buddy =>
      have hle := (le_of_pfndbGetPage hget).2
      have hprepare := h.pmmPreparePage hle Page.FREE current
      have hpush := hprepare.comp
        (hprepare.inBounds.pmmListPush (hle.trans_eq hprepare.gMaxPfn.symm) current)
      obtain ⟨hin, heq⟩ := ih hpush.inBounds
      refine ⟨fun t ht => ?_, fun junk => ?_⟩
      · obtain ⟨ht, hmax⟩ := hin t ht
        exact ⟨ht, hmax.trans hpush.gMaxPfn⟩
      · rw [← heq junk, ← hpush.eq junk]

/-- **The search for a block.** -/
theorem InBounds.pmmTake (h : InBounds s) (order fuel current : ℕ) :
    (∀ r t, pmmTake order fuel current s = some (r, t) → InBounds t ∧ t.gMaxPfn = s.gMaxPfn)
      ∧ ∀ junk, pmmTake order fuel current (s.beyond junk)
        = (pmmTake order fuel current s).map (fun rt => (rt.1, rt.2.beyond junk)) := by
  induction fuel generalizing current with
  | zero =>
    refine ⟨fun r t ht => ?_, fun _ => rfl⟩
    cases ht
    exact ⟨h, rfl⟩
  | succ fuel ih =>
    have hsame : ∀ junk, (s.beyond junk).gFreeLists = s.gFreeLists := fun _ => rfl
    unfold Pmm.pmmTake
    simp only [hsame]
    by_cases hcurrent : current < pmmMaxOrder
    swap
    · simp only [if_neg hcurrent]
      refine ⟨fun r t ht => ?_, fun _ => rfl⟩
      cases ht
      exact ⟨h, rfl⟩
    simp only [if_pos hcurrent]
    cases hhead : (s.gFreeLists current).head with
    | none => exact ih (current + 1)
    | some page =>
      have hle := h.head current page hhead
      have hremove := h.pmmListRemove hle current
      obtain ⟨hin, heq⟩ := hremove.inBounds.pmmSplit order page current
      dsimp only
      cases hsplit : Pmm.pmmSplit order page current (s.pmmListRemove current page) with
      | none =>
        refine ⟨fun r t ht => absurd ht (by simp), fun junk => ?_⟩
        rw [hremove.eq junk, heq junk, hsplit]
        rfl
      | some t₁ =>
        obtain ⟨ht₁, hmax⟩ := hin t₁ hsplit
        have hle₁ := hle.trans_eq (hmax.trans hremove.gMaxPfn).symm
        have hprepare := ht₁.pmmPreparePage hle₁ Page.USED order
        refine ⟨fun r t ht => ?_, fun junk => ?_⟩
        · cases ht
          exact ⟨⟨hprepare.inBounds.next, hprepare.inBounds.prev, hprepare.inBounds.head⟩,
            hmax.trans hremove.gMaxPfn⟩
        · rw [hremove.eq junk, heq junk, hsplit]
          dsimp only [Option.map_some]
          rw [hprepare.eq junk]
          rfl

theorem InBounds.pmmAllocPage (h : s.gPmmReady = false ∨ InBounds s) (order : ℕ) :
    (∀ r t, pmmAllocPage s order = some (r, t) →
        (t.gPmmReady = false ∨ InBounds t) ∧ t.gMaxPfn = s.gMaxPfn)
      ∧ ∀ junk, pmmAllocPage (s.beyond junk) order
        = (pmmAllocPage s order).map (fun rt => (rt.1, rt.2.beyond junk)) := by
  have hsame : ∀ junk, (s.beyond junk).gPmmReady = s.gPmmReady := fun _ => rfl
  unfold Pmm.pmmAllocPage
  simp only [hsame]
  by_cases hready : s.gPmmReady = false
  · simp only [if_pos hready]
    refine ⟨fun r t ht => ?_, fun _ => rfl⟩
    cases ht
    exact ⟨h, rfl⟩
  simp only [if_neg hready]
  by_cases horder : order ≥ pmmMaxOrder
  · simp only [if_pos horder]
    refine ⟨fun r t ht => ?_, fun _ => rfl⟩
    cases ht
    exact ⟨h, rfl⟩
  simp only [if_neg horder]
  obtain ⟨hin, heq⟩ := (h.resolve_left hready).pmmTake order pmmMaxOrder order
  exact ⟨fun r t ht => (hin r t ht).imp_left Or.inr, heq⟩

/-! ## `pmm_init` -/

/-- What `pmm_init` does to a record first. -/
def initMarked (p : Page) : Page :=
  if pageFree p then clearPageFree (setPageUsed (pageResetLinks { p with order := 0 }))
  else pageResetLinks { p with order := 0 }

theorem pmmInitMark_of_some {pfn : ℕ} (hget : s.pfndbGetPage pfn = some page) :
    s.pmmInitMark pfn = { s.modifyPage page initMarked with
      gTotalPages := if pageFree (s.pages page) then (s.gTotalPages + 1) % 2 ^ 64
        else s.gTotalPages } := by
  have hreset : ∀ p : Page, pageFree (pageResetLinks { p with order := 0 }) = pageFree p :=
    fun _ => rfl
  unfold pmmInitMark initMarked
  rw [hget]
  dsimp only [modifyPage]
  simp only [Function.update_self, Function.update_idem, hreset]
  split <;> rfl

/-- **The first loop** takes every record off its list. -/
theorem foldl_pmmInitMark_links (h₀ : s.gPfndb ≠ 0#64) (n : ℕ) (hn : n ≤ s.gMaxPfn + 1) :
    ((List.range n).foldl pmmInitMark s).gPfndb = s.gPfndb
      ∧ ((List.range n).foldl pmmInitMark s).gMaxPfn = s.gMaxPfn
      ∧ ((List.range n).foldl pmmInitMark s).gFreeLists = s.gFreeLists
      ∧ (∀ p < n, (((List.range n).foldl pmmInitMark s).pages p).next = none
        ∧ (((List.range n).foldl pmmInitMark s).pages p).prev = none)
      ∧ ∀ junk, (List.range n).foldl pmmInitMark (s.beyond junk)
        = ((List.range n).foldl pmmInitMark s).beyond junk := by
  induction n with
  | zero => exact ⟨rfl, rfl, rfl, fun p hp => absurd hp (Nat.not_lt_zero p), fun _ => rfl⟩
  | succ n ih =>
    obtain ⟨h₁, h₂, h₃, hlinks, heq⟩ := ih (by omega)
    simp only [List.range_succ, List.foldl_append, List.foldl_cons, List.foldl_nil, heq]
    set t := (List.range n).foldl pmmInitMark s
    have hle : n ≤ t.gMaxPfn := by omega
    have hget : t.pfndbGetPage n = some n := Pfndb.pfndbGetPage_of_le (h₁ ▸ h₀) hle
    have hget' : ∀ junk, (t.beyond junk).pfndbGetPage n = some n := fun _ => hget
    rw [pmmInitMark_of_some hget]
    refine ⟨h₁, h₂, h₃, fun p hp => ?_, fun junk => ?_⟩
    · show (Function.update t.pages n _ p).next = none ∧ (Function.update t.pages n _ p).prev = none
      by_cases heq : p = n
      · subst heq
        rw [Function.update_self]
        unfold initMarked
        split <;> exact ⟨rfl, rfl⟩
      · rw [Function.update_of_ne heq]
        exact hlinks p (by omega)
    · rw [pmmInitMark_of_some (hget' junk), beyond_modifyPage hle, pages_beyond hle]
      rfl

theorem Confined.foldl {f : Pmm → ℕ → Pmm}
    (hf : ∀ t, InBounds t → ∀ pfn, Confined (fun s => f s pfn) t) (h : InBounds s) (l : List ℕ) :
    Confined (fun s => l.foldl f s) s := by
  induction l generalizing s with
  | nil => exact Confined.refl h
  | cons pfn l ih =>
    have hstep := hf s h pfn
    exact hstep.comp (ih hstep.inBounds)

theorem InBounds.pmmInitFree (h : InBounds s) (pfn : ℕ) :
    Confined (fun s => s.pmmInitFree pfn) s := by
  have hsame : ∀ junk, (s.beyond junk).pfndbGetPage pfn = s.pfndbGetPage pfn := fun _ => rfl
  cases hget : s.pfndbGetPage pfn with
  | none =>
    refine (Confined.refl h).congr ?_ (fun junk => ?_) <;> unfold Pmm.pmmInitFree
    · rw [hget]
    · rw [hsame, hget]
  | some page =>
    have hle := (le_of_pfndbGetPage hget).2
    by_cases hskip : (!pageUsed (s.pages page) || pageReserved (s.pages page)) = true
    · refine (Confined.refl h).congr ?_ (fun junk => ?_) <;> unfold Pmm.pmmInitFree
      · rw [hget]
        exact if_pos hskip
      · rw [hsame, hget]
        dsimp only
        rw [pages_beyond hle]
        exact if_pos hskip
    · have hcount := h.setFreePages (fun n => (n + 1) % 2 ^ 64)
      refine (hcount.comp (hcount.inBounds.pmmFreeBlock hle)).congr ?_ (fun junk => ?_) <;>
        unfold Pmm.pmmInitFree
      · rw [hget]
        exact if_neg hskip
      · rw [hsame, hget]
        dsimp only
        rw [pages_beyond hle]
        exact if_neg hskip

/-- **`pmm_init`**, whatever is in the records and in the lists. -/
theorem pmmInit_beyond (s : Pmm) (h : s.gPmmReady = false ∨ InBounds s) :
    (s.pmmInit.2.gPmmReady = false ∨ InBounds s.pmmInit.2) ∧ s.pmmInit.2.gMaxPfn = s.gMaxPfn
      ∧ ∀ junk, (s.beyond junk).pmmInit = (s.pmmInit.1, s.pmmInit.2.beyond junk) := by
  have hsame : ∀ junk, (s.beyond junk).gPfndb = s.gPfndb := fun _ => rfl
  unfold pmmInit
  simp only [hsame]
  by_cases h₀ : s.gPfndb = 0#64
  · simp only [if_pos h₀]
    exact ⟨h, trivial, fun _ => trivial⟩
  simp only [if_neg h₀]
  set s₁ : Pmm := { s with
    gFreeLists := fun _ => { head := none, count := 0 }
    gFreePages := 0
    gTotalPages := 0
    gPmmReady := false }
  obtain ⟨-, hmax, hlists, hlinks, heq⟩ :=
    foldl_pmmInitMark_links (s := s₁) h₀ (s.gMaxPfn + 1) le_rfl
  have hin : InBounds ((List.range (s.gMaxPfn + 1)).foldl pmmInitMark s₁) := by
    refine ⟨fun p hp q hq => ?_, fun p hp q hq => ?_, fun o q hq => ?_⟩
    · rw [(hlinks p (Nat.lt_succ_of_le (hp.trans_eq hmax))).1] at hq
      exact absurd hq (by simp)
    · rw [(hlinks p (Nat.lt_succ_of_le (hp.trans_eq hmax))).2] at hq
      exact absurd hq (by simp)
    · rw [hlists] at hq
      exact absurd hq (by simp [s₁])
  have hfree := Confined.foldl (f := pmmInitFree) (fun t ht pfn => ht.pmmInitFree pfn) hin
    (List.range (((List.range (s.gMaxPfn + 1)).foldl pmmInitMark s₁).gMaxPfn + 1))
  refine ⟨Or.inr ⟨hfree.inBounds.next, hfree.inBounds.prev, hfree.inBounds.head⟩,
    hfree.gMaxPfn.trans hmax, fun junk => ?_⟩
  have hboth : ((List.range ((((List.range (s.gMaxPfn + 1)).foldl pmmInitMark s₁).beyond
      junk).gMaxPfn + 1)).foldl pmmInitFree
        (((List.range (s.gMaxPfn + 1)).foldl pmmInitMark s₁).beyond junk)) = _ := hfree.eq junk
  rw [← heq junk] at hboth
  exact congrArg (fun t : Pmm => (true, ({ t with gPmmReady := true } : Pmm))) hboth

/-! ## All calls -/

/-- **A call of the allocator**, with any argument. -/
inductive PmmCall where
  | pmmInit
  | pageAlloc (order : ℕ)
  | pmmAlloc (order : ℕ)
  | pmmFree (ptr : BitVec 64)

/-- What a call returns. -/
inductive PmmReply where
  | status (ok : Bool)
  | page (page : Option ℕ)
  | ptr (ptr : BitVec 64)
  | done

/-- A call, or `none` if it follows a null pointer. -/
def call (hhdm : BitVec 64) (s : Pmm) : PmmCall → Option (PmmReply × Pmm)
  | .pmmInit => some (.status s.pmmInit.1, s.pmmInit.2)
  | .pageAlloc order => (s.pageAlloc order).map (fun rt => (.page rt.1, rt.2))
  | .pmmAlloc order => (s.pmmAlloc hhdm order).map (fun rt => (.ptr rt.1, rt.2))
  | .pmmFree ptr => some (.done, s.pmmFree hhdm ptr)

/-- **Calls one after the other**, and what they return. -/
def calls (hhdm : BitVec 64) : List PmmCall → Pmm → Option (List PmmReply × Pmm)
  | [], s => some ([], s)
  | c :: l, s =>
    match s.call hhdm c with
    | none => none
    | some (r, t) => (calls hhdm l t).map (fun rt => (r :: rt.1, rt.2))

/-- **A pointer that is freed may be any.** -/
theorem InBounds.pmmFree (h : InBounds s) (hhdm ptr : BitVec 64) :
    Confined (fun s => s.pmmFree hhdm ptr) s := by
  have hid := Confined.refl h
  have hphys : ∀ junk, (s.beyond junk).pfndbPhysToPage (virtToPhys hhdm ptr)
      = s.pfndbPhysToPage (virtToPhys hhdm ptr) := fun _ => rfl
  have hready : ∀ junk, (s.beyond junk).gPmmReady = s.gPmmReady := fun _ => rfl
  by_cases hrefused : s.gPmmReady = false ∨ ptr = 0#64
  · have hsame : ∀ t : Pmm, t.gPmmReady = s.gPmmReady → t.pmmFree hhdm ptr = t := by
      intro t ht
      unfold Pmm.pmmFree
      rcases hrefused with hr | hr
      · exact if_pos (ht.trans hr)
      · rw [if_pos hr, ite_self]
    exact hid.congr (hsame s rfl) (fun junk => hsame _ (hready junk))
  rw [not_or] at hrefused
  cases hpage : s.pfndbPhysToPage (virtToPhys hhdm ptr) with
  | none =>
    have hsame : ∀ t : Pmm, t.pfndbPhysToPage (virtToPhys hhdm ptr) = none →
        t.gPmmReady = s.gPmmReady → t.pmmFree hhdm ptr = t := by
      intro t ht hr
      unfold Pmm.pmmFree
      rw [if_neg (hr ▸ hrefused.1), if_neg hrefused.2, ht]
    exact hid.congr (hsame s hpage rfl)
      (fun junk => hsame _ ((hphys junk).trans hpage) (hready junk))
  | some page =>
    have hle : page ≤ s.gMaxPfn := by
      unfold Pfndb.pfndbPhysToPage at hpage
      dsimp only at hpage
      split at hpage
      · exact absurd hpage (by simp)
      · exact (le_of_pfndbGetPage hpage).2
    have hunfold : ∀ t : Pmm, t.pfndbPhysToPage (virtToPhys hhdm ptr) = some page →
        t.gPmmReady = s.gPmmReady → t.pages page = s.pages page →
        t.pmmFree hhdm ptr = if pageReserved (s.pages page) then t
          else if pageFree (s.pages page) then t
          else ({ t with gFreePages := (t.gFreePages + 2 ^ (s.pages page).order) % 2 ^ 64 } :
            Pmm).pmmFreeBlock page := by
      intro t ht hr hread
      unfold Pmm.pmmFree
      rw [if_neg (hr ▸ hrefused.1), if_neg hrefused.2, ht]
      dsimp only
      rw [hread]
    have hbody : Confined (fun t => if pageReserved (s.pages page) then t
        else if pageFree (s.pages page) then t
        else ({ t with gFreePages := (t.gFreePages + 2 ^ (s.pages page).order) % 2 ^ 64 } :
          Pmm).pmmFreeBlock page) s := by
      split
      · exact hid
      split
      · exact hid
      · have hcount := h.setFreePages (fun n => (n + 2 ^ (s.pages page).order) % 2 ^ 64)
        exact hcount.comp (hcount.inBounds.pmmFreeBlock hle)
    exact hbody.congr (hunfold s hpage rfl rfl)
      (fun junk => hunfold _ ((hphys junk).trans hpage) (hready junk) (pages_beyond hle))

/-- **One call.** -/
theorem call_beyond (hhdm : BitVec 64) (h : s.gPmmReady = false ∨ InBounds s) (c : PmmCall) :
    (∀ r t, s.call hhdm c = some (r, t) →
        (t.gPmmReady = false ∨ InBounds t) ∧ t.gMaxPfn = s.gMaxPfn)
      ∧ ∀ junk, (s.beyond junk).call hhdm c
        = (s.call hhdm c).map (fun rt => (rt.1, rt.2.beyond junk)) := by
  cases c with
  | pmmInit =>
    obtain ⟨hin, hmax, heq⟩ := pmmInit_beyond s h
    refine ⟨fun r t ht => ?_, fun junk => ?_⟩
    · cases ht
      exact ⟨hin, hmax⟩
    · unfold call
      rw [heq junk]
      rfl
  | pageAlloc order =>
    obtain ⟨hin, heq⟩ := InBounds.pmmAllocPage h order
    refine ⟨fun r t ht => ?_, fun junk => ?_⟩
    · obtain ⟨⟨r', t'⟩, hrun, hrt⟩ := Option.map_eq_some_iff.mp ht
      cases hrt
      exact hin r' t' hrun
    · unfold call Pmm.pageAlloc
      dsimp only
      rw [heq junk, Option.map_map, Option.map_map]
      rfl
  | pmmAlloc order =>
    obtain ⟨hin, heq⟩ := InBounds.pmmAllocPage h order
    unfold call Pmm.pmmAlloc
    simp only [heq]
    cases hrun : Pmm.pmmAllocPage s order with
    | none => exact ⟨fun r t ht => absurd ht (by simp), fun _ => rfl⟩
    | some rt =>
      obtain ⟨page, t₁⟩ := rt
      have hkeeps := hin page t₁ hrun
      cases page with
      | none =>
        refine ⟨fun r t ht => ?_, fun _ => rfl⟩
        cases ht
        exact hkeeps
      | some page =>
        refine ⟨fun r t ht => ?_, fun _ => rfl⟩
        cases ht
        exact hkeeps
  | pmmFree ptr =>
    rcases h with hready | h
    · have hsame : ∀ t : Pmm, t.gPmmReady = false → t.pmmFree hhdm ptr = t := fun t ht => if_pos ht
      refine ⟨fun r t ht => ?_, fun junk => ?_⟩
      · cases ht
        rw [hsame s hready]
        exact ⟨Or.inl hready, rfl⟩
      · unfold call
        dsimp only
        rw [hsame s hready, hsame (s.beyond junk) hready]
        rfl
    · have hfree := h.pmmFree hhdm ptr
      refine ⟨fun r t ht => ?_, fun junk => ?_⟩
      · cases ht
        exact ⟨Or.inr hfree.inBounds, hfree.gMaxPfn⟩
      · unfold call
        dsimp only
        rw [hfree.eq junk]
        rfl

/-- **No sequence of calls touches what is behind the array**, with any arguments and in any
order, from when the allocator is not ready yet. -/
theorem calls_beyond (h : s.gPmmReady = false) (l : List PmmCall) :
    (∀ junk, calls hhdm l (s.beyond junk)
        = (calls hhdm l s).map (fun rt => (rt.1, rt.2.beyond junk)))
      ∧ ∀ rs t, calls hhdm l s = some (rs, t) →
        t.gMaxPfn = s.gMaxPfn ∧ ∀ p, s.gMaxPfn < p → t.pages p = s.pages p := by
  have key : ∀ {s : Pmm}, (s.gPmmReady = false ∨ InBounds s) →
      (∀ junk, calls hhdm l (s.beyond junk)
        = (calls hhdm l s).map (fun rt => (rt.1, rt.2.beyond junk)))
      ∧ ∀ rs t, calls hhdm l s = some (rs, t) → t.gMaxPfn = s.gMaxPfn := by
    induction l with
    | nil =>
      intro s _
      refine ⟨fun _ => rfl, fun rs t ht => ?_⟩
      cases ht
      rfl
    | cons c l ih =>
      intro s h
      obtain ⟨hin, heq⟩ := call_beyond hhdm h c
      unfold calls
      simp only [heq]
      cases hcall : s.call hhdm c with
      | none => exact ⟨fun _ => rfl, fun rs t ht => absurd ht (by simp)⟩
      | some rt =>
        obtain ⟨r, t₁⟩ := rt
        obtain ⟨hin₁, hmax⟩ := hin r t₁ hcall
        obtain ⟨hrest, hmax'⟩ := ih hin₁
        refine ⟨fun junk => ?_, fun rs t ht => ?_⟩
        · dsimp only [Option.map_some]
          rw [hrest junk, Option.map_map, Option.map_map]
          rfl
        · obtain ⟨⟨rs', t'⟩, hrun, hrt⟩ := Option.map_eq_some_iff.mp ht
          cases hrt
          exact (hmax' rs' t' hrun).trans hmax
  obtain ⟨heq, hmax⟩ := key (Or.inl h)
  refine ⟨heq, fun rs t ht => ⟨hmax rs t ht, ?_⟩⟩
  -- what is behind the array is replaced by itself
  have hself := heq s.pages
  rw [beyond_eq_self.mpr (fun _ _ => rfl), ht] at hself
  have ht' : t = t.beyond s.pages := (Prod.mk.inj (Option.some.inj hself)).2
  intro p hp
  exact beyond_eq_self.mp ht'.symm p ((hmax rs t ht).symm ▸ hp)

/-- Two frames are taken and freed, and the second of them once more. -/
def doubleFree : List PmmCall :=
  [.pmmInit, .pageAlloc 0, .pageAlloc 0, .pmmFree lowestHhdm, .pmmFree 0xffff800000001000#64,
    .pmmFree 0xffff800000001000#64, .pageAlloc 1]

/-- A database of two frames, in front of records that look free. -/
theorem calls_beyond_twoFrames :
    calls lowestHhdm doubleFree (twoFrames.beyond (fun p => ⟨Page.FREE, 0, some p, none⟩))
      = (calls lowestHhdm doubleFree twoFrames).map
        (fun rt => (rt.1, rt.2.beyond (fun p => ⟨Page.FREE, 0, some p, none⟩))) :=
  (calls_beyond rfl doubleFree).1 _

end Pmm
