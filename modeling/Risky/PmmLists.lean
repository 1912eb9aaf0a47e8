import Risky.Pmm

/-!
# The free lists of the memory manager

What the two list operations of `mm/pmm.c` do, in terms of the general facts
about doubly linked lists: `pmm_list_push` is `Links.push` and
`pmm_list_remove` is `Links.unlink`, and neither changes the flags or the
order of any page. `Pmm.ListsOk` says that the lists of the ten orders are
well formed, counted and disjoint; both operations keep it.
-/

namespace Pmm

variable {s : Pmm} {page order q o : ℕ}

/-! ## What a write changes -/

@[simp] theorem modifyPage_pages (s : Pmm) (page q : ℕ) (f : Page → Page) :
    (s.modifyPage page f).pages q = if q = page then f (s.pages q) else s.pages q := by
  unfold modifyPage
  by_cases h : q = page
  · subst h
    rw [if_pos rfl]
    exact Function.update_self _ _ _
  · rw [if_neg h]
    exact Function.update_of_ne h _ _

@[simp] theorem modifyPagePtr_pages (s : Pmm) (page : Option ℕ) (q : ℕ) (f : Page → Page) :
    (s.modifyPagePtr page f).pages q
      = if some q = page then f (s.pages q) else s.pages q := by
  cases page with
  | none => rw [if_neg (by simp)]; rfl
  | some page =>
    show (s.modifyPage page f).pages q = _
    rw [modifyPage_pages]
    simp only [Option.some.injEq]

theorem pages_pmmPreparePage_self (s : Pmm) (page : ℕ) (flags : BitVec 32) (order : ℕ) :
    (s.pmmPreparePage page flags order).pages page
      = pageSetState flags order (s.pages page) := by
  unfold pmmPreparePage
  rw [modifyPage_pages, if_pos rfl]

theorem pages_pmmPreparePage_of_ne {page q : ℕ} (h : q ≠ page) (s : Pmm) (flags : BitVec 32)
    (order : ℕ) : (s.pmmPreparePage page flags order).pages q = s.pages q := by
  unfold pmmPreparePage
  rw [modifyPage_pages, if_neg h]

@[simp] theorem modifyPage_gFreeLists (s : Pmm) (page : ℕ) (f : Page → Page) :
    (s.modifyPage page f).gFreeLists = s.gFreeLists := rfl

@[simp] theorem modifyPagePtr_gFreeLists (s : Pmm) (page : Option ℕ) (f : Page → Page) :
    (s.modifyPagePtr page f).gFreeLists = s.gFreeLists := by
  cases page <;> rfl

@[simp] theorem modifyList_pages (s : Pmm) (order : ℕ) (f : PmmFreeList → PmmFreeList) :
    (s.modifyList order f).pages = s.pages := rfl

@[simp] theorem modifyList_gFreeLists (s : Pmm) (order : ℕ)
    (f : PmmFreeList → PmmFreeList) :
    (s.modifyList order f).gFreeLists
      = Function.update s.gFreeLists order (f (s.gFreeLists order)) := rfl

/-- **The fields no list operation touches**: the address and size of the
database, the counters and the ready flag. -/
structure SameFrame (s s' : Pmm) : Prop where
  gPfndb : s'.gPfndb = s.gPfndb
  gMaxPfn : s'.gMaxPfn = s.gMaxPfn
  gFreePages : s'.gFreePages = s.gFreePages
  gTotalPages : s'.gTotalPages = s.gTotalPages
  gPmmReady : s'.gPmmReady = s.gPmmReady

theorem SameFrame.refl (s : Pmm) : SameFrame s s := ⟨rfl, rfl, rfl, rfl, rfl⟩

theorem SameFrame.trans {s s' s'' : Pmm} (h : SameFrame s s') (h' : SameFrame s' s'') :
    SameFrame s s'' :=
  ⟨h'.gPfndb.trans h.gPfndb, h'.gMaxPfn.trans h.gMaxPfn,
    h'.gFreePages.trans h.gFreePages, h'.gTotalPages.trans h.gTotalPages,
    h'.gPmmReady.trans h.gPmmReady⟩

theorem sameFrame_modifyPage (s : Pmm) (page : ℕ) (f : Page → Page) :
    SameFrame s (s.modifyPage page f) := ⟨rfl, rfl, rfl, rfl, rfl⟩

theorem sameFrame_modifyPagePtr (s : Pmm) (page : Option ℕ) (f : Page → Page) :
    SameFrame s (s.modifyPagePtr page f) := by
  cases page
  · exact SameFrame.refl s
  · exact sameFrame_modifyPage s _ f

theorem sameFrame_modifyList (s : Pmm) (order : ℕ) (f : PmmFreeList → PmmFreeList) :
    SameFrame s (s.modifyList order f) := ⟨rfl, rfl, rfl, rfl, rfl⟩

theorem sameFrame_pmmListPush (s : Pmm) (order page : ℕ) :
    SameFrame s (s.pmmListPush order page) := by
  unfold pmmListPush
  exact (((sameFrame_modifyPage _ _ _).trans (sameFrame_modifyPage _ _ _)).trans
    (sameFrame_modifyPagePtr _ _ _)).trans (sameFrame_modifyList _ _ _)

theorem sameFrame_pmmListRemove (s : Pmm) (order page : ℕ) :
    SameFrame s (s.pmmListRemove order page) := by
  unfold pmmListRemove
  split
  · exact (((sameFrame_modifyPagePtr _ _ _).trans (sameFrame_modifyPagePtr _ _ _)).trans
      (sameFrame_modifyPage _ _ _)).trans (sameFrame_modifyList _ _ _)
  · exact (((sameFrame_modifyList _ _ _).trans (sameFrame_modifyPagePtr _ _ _)).trans
      (sameFrame_modifyPage _ _ _)).trans (sameFrame_modifyList _ _ _)

/-! ## The list operations as operations on links -/

/-- The links of the page records. -/
def links (s : Pmm) : Links ℕ := ⟨fun p => (s.pages p).next, fun p => (s.pages p).prev⟩

/-- **`pmm_list_push` is a push on the links**, and leaves flags and orders
alone. -/
theorem pages_pmmListPush (h : (s.gFreeLists order).head ≠ some page) (q : ℕ) :
    (s.pmmListPush order page).pages q
      = { s.pages q with
          next := (s.links.push page (s.gFreeLists order).head).next q
          prev := (s.links.push page (s.gFreeLists order).head).prev q } := by
  unfold pmmListPush links Links.push
  simp only [modifyList_pages, modifyPagePtr_pages, modifyPage_pages, modifyPage_gFreeLists]
  by_cases hq : q = page
  · subst hq
    simp [pageResetLinks, Ne.symm h]
  · simp only [if_neg hq]
    split <;> rfl

theorem gFreeLists_pmmListPush (s : Pmm) (order page : ℕ) :
    (s.pmmListPush order page).gFreeLists = Function.update s.gFreeLists order
      { head := some page, count := ((s.gFreeLists order).count + 1) % 2 ^ 64 } := by
  unfold pmmListPush
  simp only [modifyList_gFreeLists, modifyPagePtr_gFreeLists, modifyPage_gFreeLists]

/-- **`pmm_list_remove` unlinks the page**, and leaves flags and orders
alone. -/
theorem pages_pmmListRemove (s : Pmm) (order page q : ℕ) :
    (s.pmmListRemove order page).pages q
      = { s.pages q with
          next := (s.links.unlink page).next q
          prev := (s.links.unlink page).prev q } := by
  unfold pmmListRemove links Links.unlink
  by_cases hp : (s.pages page).prev = none
  · simp only [hp, ne_eq, not_true, if_false, modifyList_pages, modifyPagePtr_pages,
      modifyPage_pages, reduceCtorEq]
    by_cases hq : q = page
    · simp only [if_pos hq]
      split <;> rfl
    · simp only [if_neg hq]
      split <;> rfl
  · simp only [hp, ne_eq, not_false_eq_true, if_true, modifyList_pages,
      modifyPagePtr_pages, modifyPage_pages]
    have hn : (if some page = (s.pages page).prev then
        ({ s.pages page with next := (s.pages page).next } : Page)
        else s.pages page) = s.pages page := by split <;> rfl
    simp only [hn]
    by_cases hq : q = page
    · simp only [if_pos hq]
      split <;> split <;> rfl
    · simp only [if_neg hq]
      split <;> split <;> rfl

theorem gFreeLists_pmmListRemove (s : Pmm) (order page : ℕ) :
    (s.pmmListRemove order page).gFreeLists = Function.update s.gFreeLists order
      { head := if (s.links).prev page = none then s.links.next page
          else (s.gFreeLists order).head
        count := ((s.gFreeLists order).count + 2 ^ 64 - 1) % 2 ^ 64 } := by
  unfold pmmListRemove links
  by_cases hp : (s.pages page).prev = none
  · simp only [hp, ne_eq, not_true, if_false, if_true, modifyList_gFreeLists,
      modifyPagePtr_gFreeLists, modifyPage_gFreeLists, Function.update_self,
      Function.update_idem]
  · simp only [hp, ne_eq, not_false_eq_true, if_true, if_false, modifyList_gFreeLists,
      modifyPagePtr_gFreeLists, modifyPage_gFreeLists]

theorem links_pmmListPush (h : (s.gFreeLists order).head ≠ some page) :
    (s.pmmListPush order page).links = s.links.push page (s.gFreeLists order).head := by
  ext q : 1
  · show ((s.pmmListPush order page).pages q).next = _
    rw [pages_pmmListPush h]
  · show ((s.pmmListPush order page).pages q).prev = _
    rw [pages_pmmListPush h]

theorem links_pmmListRemove (s : Pmm) (order page : ℕ) :
    (s.pmmListRemove order page).links = s.links.unlink page := by
  ext q : 1
  · show ((s.pmmListRemove order page).pages q).next = _
    rw [pages_pmmListRemove]
  · show ((s.pmmListRemove order page).pages q).prev = _
    rw [pages_pmmListRemove]

/-! ## Well-formed free lists -/

/-- **The free lists are `lists`**: linked both ways, without cycles, counted,
on pages of the database, and no page on two of them. -/
structure ListsOk (s : Pmm) (lists : ℕ → List ℕ) : Prop where
  isList : ∀ o < pmmMaxOrder, s.links.IsList (s.gFreeLists o).head (lists o)
  count : ∀ o < pmmMaxOrder, (s.gFreeLists o).count = (lists o).length
  le_max : ∀ o < pmmMaxOrder, ∀ p ∈ lists o, p ≤ s.gMaxPfn
  disjoint : ∀ o < pmmMaxOrder, ∀ o' < pmmMaxOrder, ∀ p, p ∈ lists o → p ∈ lists o' →
    o = o'

namespace ListsOk

variable {lists : ℕ → List ℕ}

/-- A free list is no longer than the database. -/
theorem length_le (h : s.ListsOk lists) (ho : o < pmmMaxOrder) :
    (lists o).length ≤ s.gMaxPfn + 1 := by
  have hsub : (lists o).toFinset ⊆ Finset.range (s.gMaxPfn + 1) := fun p hp =>
    Finset.mem_range.mpr (Nat.lt_succ_of_le (h.le_max o ho p (List.mem_toFinset.mp hp)))
  have hcard := Finset.card_le_card hsub
  rwa [List.toFinset_card_of_nodup (h.isList o ho).nodup, Finset.card_range] at hcard

/-- **Pushing a page that is on no list** puts it in front of its list. -/
theorem push (h : s.ListsOk lists) (hmax : s.gMaxPfn < 2 ^ 52) (ho : order < pmmMaxOrder)
    (hp : page ≤ s.gMaxPfn) (hnot : ∀ o < pmmMaxOrder, page ∉ lists o) :
    (s.pmmListPush order page).ListsOk
      (Function.update lists order (page :: lists order)) := by
  have hhead : ∀ y, (s.gFreeLists order).head = some y → y ∈ lists order := fun y hy =>
    List.mem_of_head? ((h.isList order ho).head_eq.symm.trans hy)
  have hne : (s.gFreeLists order).head ≠ some page := fun he =>
    hnot order ho (hhead page he)
  have hlen := h.length_le ho
  refine ⟨fun o' ho' => ?_, fun o' ho' => ?_, fun o' ho' p hp' => ?_,
    fun o₁ h₁ o₂ h₂ p hp₁ hp₂ => ?_⟩
  · rw [links_pmmListPush hne, gFreeLists_pmmListPush]
    by_cases he : o' = order
    · subst he
      rw [Function.update_self, Function.update_self]
      exact (h.isList o' ho').push (hnot o' ho')
    · rw [Function.update_of_ne he, Function.update_of_ne he]
      -- the old head is on no other list, so that its link does not matter there
      exact (h.isList o' ho').push_frame (hnot o' ho') (fun y hy hy' =>
        he (h.disjoint o' ho' order ho y hy' (hhead y hy)))
  · rw [gFreeLists_pmmListPush]
    by_cases he : o' = order
    · subst he
      rw [Function.update_self, Function.update_self, h.count o' ho', List.length_cons]
      -- there are fewer than 2^52 pages, so that the count does not wrap around
      exact Nat.mod_eq_of_lt (by omega)
    · rw [Function.update_of_ne he, Function.update_of_ne he, h.count o' ho']
  · rw [(sameFrame_pmmListPush s order page).gMaxPfn]
    by_cases he : o' = order
    · subst he
      rw [Function.update_self] at hp'
      rcases List.mem_cons.mp hp' with rfl | hp'
      · exact hp
      · exact h.le_max o' ho' p hp'
    · rw [Function.update_of_ne he] at hp'
      exact h.le_max o' ho' p hp'
  · have hmem : ∀ o', p ∈ Function.update lists order (page :: lists order) o' →
        (o' = order ∧ p = page) ∨ p ∈ lists o' := by
      intro o' hm
      by_cases he : o' = order
      · subst he
        rw [Function.update_self] at hm
        exact (List.mem_cons.mp hm).imp (fun hq => ⟨rfl, hq⟩) id
      · rw [Function.update_of_ne he] at hm
        exact Or.inr hm
    rcases hmem o₁ hp₁ with ⟨he₁, hq₁⟩ | hm₁ <;> rcases hmem o₂ hp₂ with ⟨he₂, hq₂⟩ | hm₂
    · rw [he₁, he₂]
    · exact absurd (hq₁ ▸ hm₂) (hnot o₂ h₂)
    · exact absurd (hq₂ ▸ hm₁) (hnot o₁ h₁)
    · exact h.disjoint o₁ h₁ o₂ h₂ p hm₁ hm₂

/-- **Removing a page from its list** leaves the rest of it. -/
theorem remove (h : s.ListsOk lists) (hmax : s.gMaxPfn < 2 ^ 52)
    (ho : order < pmmMaxOrder) (hmem : page ∈ lists order) :
    (s.pmmListRemove order page).ListsOk
      (Function.update lists order ((lists order).erase page)) := by
  have hlen := h.length_le ho
  have hpos : 0 < (lists order).length := List.length_pos_of_mem hmem
  have hsub : ∀ o' p, p ∈ Function.update lists order ((lists order).erase page) o' →
      p ∈ lists o' := by
    intro o' p hp
    by_cases he : o' = order
    · subst he
      rw [Function.update_self] at hp
      exact List.mem_of_mem_erase hp
    · rwa [Function.update_of_ne he] at hp
  refine ⟨fun o' ho' => ?_, fun o' ho' => ?_, fun o' ho' p hp => ?_,
    fun o₁ h₁ o₂ h₂ p hp₁ hp₂ => ?_⟩
  · rw [links_pmmListRemove, gFreeLists_pmmListRemove]
    by_cases he : o' = order
    · subst he
      rw [Function.update_self, Function.update_self]
      exact (h.isList o' ho').unlink hmem
    · rw [Function.update_of_ne he, Function.update_of_ne he]
      exact (h.isList order ho).unlink_frame hmem (h.isList o' ho') (fun y hy hy' =>
        he (h.disjoint o' ho' order ho y hy' hy))
  · rw [gFreeLists_pmmListRemove]
    by_cases he : o' = order
    · subst he
      rw [Function.update_self, Function.update_self, h.count o' ho',
        List.length_erase_of_mem hmem]
      dsimp only
      omega
    · rw [Function.update_of_ne he, Function.update_of_ne he, h.count o' ho']
  · rw [(sameFrame_pmmListRemove s order page).gMaxPfn]
    exact h.le_max o' ho' p (hsub o' p hp)
  · exact h.disjoint o₁ h₁ o₂ h₂ p (hsub o₁ p hp₁) (hsub o₂ p hp₂)

/-- Writing to a page that is on no list, or writing no link, keeps the
lists. -/
theorem modifyPage (h : s.ListsOk lists) (f : Page → Page)
    (hf : (∀ o < pmmMaxOrder, page ∉ lists o)
      ∨ ((f (s.pages page)).next = (s.pages page).next
        ∧ (f (s.pages page)).prev = (s.pages page).prev)) :
    (s.modifyPage page f).ListsOk lists := by
  refine ⟨fun o' ho' => (h.isList o' ho').congr (fun y hy => ?_) (fun y hy => ?_),
    h.count, h.le_max, h.disjoint⟩
  · show ((s.modifyPage page f).pages y).next = (s.pages y).next
    rw [modifyPage_pages]
    split
    · subst y
      exact hf.elim (fun hn => absurd hy (hn o' ho')) (fun he => he.1)
    · rfl
  · show ((s.modifyPage page f).pages y).prev = (s.pages y).prev
    rw [modifyPage_pages]
    split
    · subst y
      exact hf.elim (fun hn => absurd hy (hn o' ho')) (fun he => he.2)
    · rfl

end ListsOk

end Pmm
