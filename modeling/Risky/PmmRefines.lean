import Risky.BuddySystem
import Risky.PmmLists

/-!
# The memory manager refines a buddy system

`Refines s S lists hand` relates a state of `mm/pmm.c` to a buddy system: the
free lists hold exactly the free blocks, the record of a block's first page
says whether the block is free or held, and reserved frames are marked so.
Nothing is said of the record of any *other* page of a block: merging and
splitting leave stale flags and orders there, and no decision of the code
reads them.

While a call is merging or splitting, one held block – the block in `hand` –
has a record that is not up to date yet. Each step of the loops is then one
move of the buddy system: `refines_merge`, `refines_give`, `refines_take`,
`refines_split` and `refines_finish`.
-/

namespace Pmm

variable {usable : Set ℕ} {s s' : Pmm} {lists : ℕ → List ℕ} {hand : Option Block}
variable {b c : Block}

/-- The highest order of a block. -/
abbrev topOrder : ℕ := pmmMaxOrder - 1

variable {S S' : BuddySystem topOrder usable}

/-- **The state represents the buddy system `S`**, with the record of the
block in `hand` not up to date. -/
structure Refines (s : Pmm) (S : BuddySystem topOrder usable) (lists : ℕ → List ℕ)
    (hand : Option Block) : Prop where
  gPfndb_ne : s.gPfndb ≠ 0#64
  max_lt : s.gMaxPfn < 2 ^ 52
  usable_le : ∀ f ∈ usable, f ≤ s.gMaxPfn
  lists_ok : s.ListsOk lists
  mem_lists : ∀ o < pmmMaxOrder, ∀ p, p ∈ lists o ↔ (⟨p, o⟩ : Block) ∈ S.free
  free_page : ∀ b ∈ S.free, (s.pages b.base).flags = Page.FREE
    ∧ (s.pages b.base).order = b.order
  held_page : ∀ b ∈ S.held, hand ≠ some b → (s.pages b.base).flags = Page.USED
    ∧ (s.pages b.base).order = b.order
  reserved : ∀ f ≤ s.gMaxPfn, f ∉ usable → (s.pages f).flags = Page.RESERVED
  known : ∀ f ∈ usable, ((s.pages f).flags = Page.FREE ∨ (s.pages f).flags = Page.USED)
    ∧ (s.pages f).order < pmmMaxOrder

theorem lt_maxOrder_of_le {o : ℕ} (h : o ≤ topOrder) : o < pmmMaxOrder :=
  Nat.lt_of_le_of_lt h (by decide)

theorem order_lt (hb : b ∈ S.free ∪ S.held) : b.order < pmmMaxOrder :=
  lt_maxOrder_of_le (S.isPartition.order_le b hb)

theorem mem_usable (hb : b ∈ S.free ∪ S.held) {f : ℕ} (hf : f ∈ b) : f ∈ usable :=
  (S.isPartition.cover f).mpr ⟨b, hb, hf⟩

/-- Two blocks of a system with one first cell are the same. -/
theorem eq_of_base_eq (hb : b ∈ S.free ∪ S.held) (hc : c ∈ S.free ∪ S.held)
    (h : b.base = c.base) : b = c :=
  S.isPartition.eq_of_mem b hb c hc b.base b.base_mem (h ▸ c.base_mem)

/-- No cell of a held block heads a free one. -/
theorem notMem_free_of_mem_held (hb : b ∈ S.held) {f : ℕ} (hf : f ∈ b) (o : ℕ) :
    (⟨f, o⟩ : Block) ∉ S.free := fun h =>
  S.notMem_free hb (S.isPartition.eq_of_mem b (S.mem_blocks_of_held hb) ⟨f, o⟩
    (S.mem_blocks_of_free h) f hf (Block.base_mem ⟨f, o⟩) ▸ h)

namespace Refines

theorem base_le (h : Refines s S lists hand) (hb : b ∈ S.free ∪ S.held) :
    b.base ≤ s.gMaxPfn :=
  h.usable_le _ (mem_usable hb b.base_mem)

/-- No page of a held block is on a free list. -/
theorem notMem_lists (h : Refines s S lists hand) (hb : b ∈ S.held) {f : ℕ} (hf : f ∈ b) :
    ∀ o < pmmMaxOrder, f ∉ lists o := fun o ho hm =>
  notMem_free_of_mem_held hb hf o ((h.mem_lists o ho f).mp hm)

/-- The record of the block in hand may be anything. -/
theorem of_none (h : Refines s S lists none) (hand : Option Block) :
    Refines s S lists hand :=
  { h with held_page := fun b hb _ => h.held_page b hb (by simp) }

/-- The counters and the ready flag play no part. -/
theorem setCounters (h : Refines s S lists hand) (x y : ℕ) (r : Bool) :
    Refines { s with gFreePages := x, gTotalPages := y, gPmmReady := r } S lists hand :=
  ⟨h.gPfndb_ne, h.max_lt, h.usable_le,
    ⟨h.lists_ok.isList, h.lists_ok.count, h.lists_ok.le_max, h.lists_ok.disjoint⟩,
    h.mem_lists, h.free_page, h.held_page, h.reserved, h.known⟩

/-- **The test on the buddy's record is right**, although it reads a record
that may be stale: the buddy's first frame heads a free block of the same
order exactly when its record says so. Were it inside a larger block, that
block would contain the block in hand. -/
theorem buddy_mem_free_iff (h : Refines s S lists (some b)) (hb : b ∈ S.held) :
    b.buddy ∈ S.free ↔ b.buddy.base ≤ s.gMaxPfn
      ∧ pageFree (s.pages b.buddy.base) = true
      ∧ (s.pages b.buddy.base).order = b.order := by
  have hal := S.aligned_of_held hb
  constructor
  · intro hfree
    obtain ⟨hflags, horder⟩ := h.free_page b.buddy hfree
    exact ⟨h.base_le (S.mem_blocks_of_free hfree), Page.pageFree_of_free hflags, horder⟩
  · rintro ⟨hle, hfree, horder⟩
    have husable : b.buddy.base ∈ usable := by
      by_contra hnot
      rw [Page.pageFree_of_reserved (h.reserved _ hle hnot)] at hfree
      exact Bool.false_ne_true hfree
    obtain ⟨c, hc, hmem⟩ := (S.isPartition.cover _).mp husable
    have hcal := S.isPartition.aligned c hc
    have hcb : c ≠ b := fun he =>
      Block.notMem_buddy hal (he ▸ hmem) b.buddy.base_mem
    rcases Nat.lt_or_ge b.order c.order with hgt | hge
    · have hbc : b.base ∈ c := Block.mem_of_mem_of_le hal.parent hcal hgt
        ((Block.mem_parent hal).mpr (Or.inr b.buddy.base_mem)) hmem
        ((Block.mem_parent hal).mpr (Or.inl b.base_mem))
      exact absurd (S.isPartition.eq_of_mem c hc b (S.mem_blocks_of_held hb)
        b.base hbc b.base_mem) hcb
    · have hbase : c.base = b.buddy.base :=
        Block.base_eq_of_base_mem hal.buddy hcal hge hmem
      rcases Finset.mem_union.mp hc with hcf | hch
      · have hco := (h.free_page c hcf).2
        rw [hbase, horder] at hco
        have he : c = b.buddy := Block.eq_of_mem_of_mem hcal hal.buddy hco.symm hmem
          b.buddy.base_mem
        exact he ▸ hcf
      · have hused := (h.held_page c hch (fun he => hcb (Option.some.inj he).symm)).1
        rw [hbase] at hused
        rw [Page.pageFree_of_used hused] at hfree
        exact absurd hfree Bool.false_ne_true

/-- The free lists, once a block has left them. -/
theorem mem_lists_erase (h : Refines s S lists hand) (c : Block) {o : ℕ}
    (ho : o < pmmMaxOrder) (p : ℕ) :
    p ∈ Function.update lists c.order ((lists c.order).erase c.base) o
      ↔ (⟨p, o⟩ : Block) ∈ S.free.erase c := by
  rw [Finset.mem_erase]
  by_cases he : o = c.order
  · subst he
    rw [Function.update_self, (h.lists_ok.isList _ ho).nodup.mem_erase_iff, h.mem_lists _ ho]
    refine and_congr_left (fun _ => not_congr ⟨fun hp => hp ▸ rfl, fun hp => ?_⟩)
    exact congrArg Block.base hp
  · rw [Function.update_of_ne he, h.mem_lists o ho]
    exact (and_iff_right (fun hp => he (congrArg Block.order hp))).symm

/-- The free lists, once a block is in front of one. -/
theorem mem_lists_insert (h : Refines s S lists hand) (c : Block) {o : ℕ}
    (ho : o < pmmMaxOrder) (p : ℕ) :
    p ∈ Function.update lists c.order (c.base :: lists c.order) o
      ↔ (⟨p, o⟩ : Block) ∈ insert c S.free := by
  rw [Finset.mem_insert]
  by_cases he : o = c.order
  · subst he
    rw [Function.update_self, List.mem_cons, h.mem_lists _ ho]
    refine or_congr ⟨fun hp => hp ▸ rfl, fun hp => ?_⟩ Iff.rfl
    exact congrArg Block.base hp
  · rw [Function.update_of_ne he, h.mem_lists o ho]
    exact (or_iff_right (fun hp => he (congrArg Block.order hp))).symm

/-- **Marking a page free and pushing it** writes the flags and the order of that page
and of no other. -/
theorem push (h : Refines s S lists hand) (c : Block) (ho : c.order < pmmMaxOrder)
    (hle : c.base ≤ s.gMaxPfn) (hnot : ∀ o < pmmMaxOrder, c.base ∉ lists o) :
    ((s.pmmPreparePage c.base Page.FREE c.order).pmmListPush c.order c.base).ListsOk
        (Function.update lists c.order (c.base :: lists c.order))
      ∧ (((s.pmmPreparePage c.base Page.FREE c.order).pmmListPush c.order c.base).pages
          c.base).flags = Page.FREE
      ∧ (((s.pmmPreparePage c.base Page.FREE c.order).pmmListPush c.order c.base).pages
          c.base).order = c.order
      ∧ ∀ q, q ≠ c.base →
        (((s.pmmPreparePage c.base Page.FREE c.order).pmmListPush c.order c.base).pages
            q).flags = (s.pages q).flags
        ∧ (((s.pmmPreparePage c.base Page.FREE c.order).pmmListPush c.order c.base).pages
            q).order = (s.pages q).order := by
  have hlists : (s.pmmPreparePage c.base Page.FREE c.order).ListsOk lists :=
    h.lists_ok.modifyPage _ (Or.inl hnot)
  have hhead : ((s.pmmPreparePage c.base Page.FREE c.order).gFreeLists c.order).head
      ≠ some c.base := fun he =>
    hnot _ ho (List.mem_of_head? ((hlists.isList _ ho).head_eq.symm.trans he))
  have hpage := pages_pmmListPush hhead
  refine ⟨hlists.push h.max_lt ho hle hnot, ?_, ?_, fun q hq => ?_⟩
  · rw [hpage, pages_pmmPreparePage_self]
    rfl
  · rw [hpage, pages_pmmPreparePage_self]
    rfl
  · rw [hpage, pages_pmmPreparePage_of_ne hq]
    exact ⟨rfl, rfl⟩

/-! ## One lemma per move -/

/-- **One turn of the merge loop is one merge.** -/
theorem merge (h : Refines s S lists (some b)) (hb : b ∈ S.held)
    (hlt : b.order < topOrder) (hb' : b.buddy ∈ S.free) :
    Refines
      ((s.pmmListRemove b.order b.buddy.base).modifyPage b.parent.base
        (fun p => { p with order := b.order + 1 }))
      (S.merge b hb hlt hb')
      (Function.update lists b.order ((lists b.order).erase b.buddy.base))
      (some b.parent) := by
  have hbB := S.mem_blocks_of_held hb
  have hbB' := S.mem_blocks_of_free hb'
  have hframe := sameFrame_pmmListRemove s b.order b.buddy.base
  have ho : b.order < pmmMaxOrder := order_lt hbB
  have hmem : b.buddy.base ∈ lists b.order := (h.mem_lists b.order ho _).mpr hb'
  -- the parent starts at one of the two blocks, so no other block does
  have hpar : b.parent.base = b.base ∨ b.parent.base = b.buddy.base := by
    rcases lt_or_ge b.buddy.base b.base with hl | hg
    · exact Or.inr (by rw [Block.parent_base_of_lt hl])
    · exact Or.inl (by rw [Block.parent_base_of_ge (not_lt.mpr hg)])
  have hne : ∀ c ∈ S.free ∪ S.held, c ≠ b → c ≠ b.buddy → c.base ≠ b.parent.base := by
    intro c hc hcb hcb' he
    rcases hpar with hp | hp
    · exact hcb (eq_of_base_eq hc hbB (he.trans hp))
    · exact hcb' (eq_of_base_eq hc hbB' (he.trans hp))
  have hparu : b.parent.base ∈ usable := by
    rcases hpar with hp | hp
    · exact hp ▸ mem_usable hbB b.base_mem
    · exact hp ▸ mem_usable hbB' b.buddy.base_mem
  have hpage : ∀ q, q ≠ b.parent.base →
      (((s.pmmListRemove b.order b.buddy.base).modifyPage b.parent.base
        (fun p => { p with order := b.order + 1 })).pages q).flags = (s.pages q).flags
      ∧ (((s.pmmListRemove b.order b.buddy.base).modifyPage b.parent.base
        (fun p => { p with order := b.order + 1 })).pages q).order = (s.pages q).order := by
    intro q hq
    rw [modifyPage_pages, if_neg hq, pages_pmmListRemove]
    exact ⟨rfl, rfl⟩
  refine ⟨hframe.gPfndb ▸ h.gPfndb_ne, hframe.gMaxPfn ▸ h.max_lt,
    hframe.gMaxPfn ▸ h.usable_le,
    (h.lists_ok.remove h.max_lt ho hmem).modifyPage _ (Or.inr ⟨rfl, rfl⟩), ?_, ?_, ?_,
    ?_, ?_⟩
  · exact fun o ho' => h.mem_lists_erase b.buddy ho'
  · intro c hc
    obtain ⟨hcb', hcf⟩ := Finset.mem_erase.mp hc
    have hcb : c ≠ b := fun he => S.notMem_free hb (he ▸ hcf)
    obtain ⟨hf, ho'⟩ := hpage c.base (hne c (S.mem_blocks_of_free hcf) hcb hcb')
    rw [hf, ho']
    exact h.free_page c hcf
  · intro c hc hhand
    obtain ⟨hcb, hch⟩ := Finset.mem_erase.mp
      ((Finset.mem_insert.mp hc).resolve_left (fun he => hhand (congrArg some he.symm)))
    have hcb' : c ≠ b.buddy := fun he => S.notMem_held hb' (he ▸ hch)
    obtain ⟨hf, ho'⟩ := hpage c.base (hne c (S.mem_blocks_of_held hch) hcb hcb')
    rw [hf, ho']
    exact h.held_page c hch (fun he => hcb (Option.some.inj he).symm)
  · intro f hf hnot
    rw [(hpage f (fun he => hnot (he ▸ hparu))).1]
    exact h.reserved f (hframe.gMaxPfn ▸ hf) hnot
  · intro f hf
    by_cases he : f = b.parent.base
    · subst he
      rw [modifyPage_pages, if_pos rfl, pages_pmmListRemove]
      exact ⟨(h.known _ hf).1, Nat.add_lt_of_lt_sub hlt⟩
    · rw [(hpage f he).1, (hpage f he).2]
      exact h.known f hf

/-- **Marking the block in hand free and pushing it gives it back.** -/
theorem give (h : Refines s S lists (some b)) (hb : b ∈ S.held)
    (hno : b.order < topOrder → b.buddy ∉ S.free) :
    Refines ((s.pmmPreparePage b.base Page.FREE b.order).pmmListPush b.order b.base)
      (S.give b hb hno)
      (Function.update lists b.order (b.base :: lists b.order)) none := by
  have hbB := S.mem_blocks_of_held hb
  have ho : b.order < pmmMaxOrder := order_lt hbB
  have hnot := h.notMem_lists hb b.base_mem
  have hframe := (sameFrame_modifyPage s b.base (pageSetState Page.FREE b.order)).trans
    (sameFrame_pmmListPush (s.pmmPreparePage b.base Page.FREE b.order) b.order b.base)
  obtain ⟨hlists, hflags, horder, hother⟩ := h.push b ho (h.base_le hbB) hnot
  refine ⟨hframe.gPfndb ▸ h.gPfndb_ne, hframe.gMaxPfn ▸ h.max_lt,
    hframe.gMaxPfn ▸ h.usable_le, hlists, ?_, ?_, ?_, ?_, ?_⟩
  · exact fun o ho' => h.mem_lists_insert b ho'
  · intro c hc
    rcases Finset.mem_insert.mp hc with rfl | hcf
    · exact ⟨hflags, horder⟩
    · obtain ⟨hf, ho'⟩ := hother c.base (fun he => S.notMem_free hb
        (eq_of_base_eq (S.mem_blocks_of_free hcf) hbB he ▸ hcf))
      rw [hf, ho']
      exact h.free_page c hcf
  · intro c hc _
    obtain ⟨hcb, hch⟩ := Finset.mem_erase.mp hc
    obtain ⟨hf, ho'⟩ := hother c.base (fun he => hcb
      (eq_of_base_eq (S.mem_blocks_of_held hch) hbB he))
    rw [hf, ho']
    exact h.held_page c hch (fun he => hcb (Option.some.inj he).symm)
  · intro f hf hnotu
    rw [(hother f (fun he => hnotu (he ▸ mem_usable hbB b.base_mem))).1]
    exact h.reserved f (hframe.gMaxPfn ▸ hf) hnotu
  · intro f hf
    by_cases he : f = b.base
    · rw [he, hflags, horder]
      exact ⟨Or.inl rfl, ho⟩
    · rw [(hother f he).1, (hother f he).2]
      exact h.known f hf

/-- **Removing the head of a free list takes the block.** -/
theorem take (h : Refines s S lists none) (hb : b ∈ S.free) :
    Refines (s.pmmListRemove b.order b.base) (S.take b hb)
      (Function.update lists b.order ((lists b.order).erase b.base)) (some b) := by
  have hbB := S.mem_blocks_of_free hb
  have hframe := sameFrame_pmmListRemove s b.order b.base
  have ho : b.order < pmmMaxOrder := order_lt hbB
  have hmem : b.base ∈ lists b.order := (h.mem_lists b.order ho _).mpr hb
  have hpage := pages_pmmListRemove s b.order b.base
  refine ⟨hframe.gPfndb ▸ h.gPfndb_ne, hframe.gMaxPfn ▸ h.max_lt,
    hframe.gMaxPfn ▸ h.usable_le, h.lists_ok.remove h.max_lt ho hmem, ?_, ?_, ?_, ?_, ?_⟩
  · exact fun o ho' => h.mem_lists_erase b ho'
  · intro c hc
    rw [hpage]
    exact h.free_page c (Finset.mem_of_mem_erase hc)
  · intro c hc hhand
    rw [hpage]
    exact h.held_page c ((Finset.mem_insert.mp hc).resolve_left
      (fun he => hhand (congrArg some he.symm))) (by simp)
  · intro f hf hnot
    rw [hpage]
    exact h.reserved f (hframe.gMaxPfn ▸ hf) hnot
  · intro f hf
    rw [hpage]
    exact h.known f hf

/-- **One turn of the split loop is one split.** -/
theorem split (h : Refines s S lists (some b)) (hb : b ∈ S.held) (hpos : 0 < b.order) :
    Refines ((s.pmmPreparePage b.upper.base Page.FREE b.upper.order).pmmListPush
        b.upper.order b.upper.base)
      (S.split b hb hpos)
      (Function.update lists b.upper.order (b.upper.base :: lists b.upper.order))
      (some b.lower) := by
  have hbB := S.mem_blocks_of_held hb
  have hal := S.aligned_of_held hb
  have ho : b.upper.order < pmmMaxOrder := (Nat.sub_le _ _).trans_lt (order_lt hbB)
  have humem : b.upper.base ∈ b := (Block.mem_iff_halves hpos).mpr (Or.inr b.upper.base_mem)
  have hnot := h.notMem_lists hb humem
  have hne : b.upper.base ≠ b.base := by
    have : 0 < 2 ^ (b.order - 1) := Nat.two_pow_pos _
    show b.base + 2 ^ (b.order - 1) ≠ b.base
    omega
  have hframe :=
    (sameFrame_modifyPage s b.upper.base (pageSetState Page.FREE b.upper.order)).trans
    (sameFrame_pmmListPush (s.pmmPreparePage b.upper.base Page.FREE b.upper.order)
      b.upper.order b.upper.base)
  obtain ⟨hlists, hflags, horder, hother⟩ :=
    h.push b.upper ho (h.usable_le _ (mem_usable hbB humem)) hnot
  -- no block of the system starts at the second half
  have hbase : ∀ c ∈ S.free ∪ S.held, c.base ≠ b.upper.base := by
    intro c hc he
    have hcb : c = b := S.isPartition.eq_of_mem c hc b hbB _ c.base_mem (he ▸ humem)
    exact hne (hcb ▸ he).symm
  refine ⟨hframe.gPfndb ▸ h.gPfndb_ne, hframe.gMaxPfn ▸ h.max_lt,
    hframe.gMaxPfn ▸ h.usable_le, hlists, ?_, ?_, ?_, ?_, ?_⟩
  · exact fun o ho' => h.mem_lists_insert b.upper ho'
  · intro c hc
    rcases Finset.mem_insert.mp hc with rfl | hcf
    · exact ⟨hflags, horder⟩
    · obtain ⟨hf, ho'⟩ := hother c.base (hbase c (S.mem_blocks_of_free hcf))
      rw [hf, ho']
      exact h.free_page c hcf
  · intro c hc hhand
    obtain ⟨hcb, hch⟩ := Finset.mem_erase.mp
      ((Finset.mem_insert.mp hc).resolve_left (fun he => hhand (congrArg some he.symm)))
    obtain ⟨hf, ho'⟩ := hother c.base (hbase c (S.mem_blocks_of_held hch))
    rw [hf, ho']
    exact h.held_page c hch (fun he => hcb (Option.some.inj he).symm)
  · intro f hf hnotu
    rw [(hother f (fun he => hnotu (he ▸ mem_usable hbB humem))).1]
    exact h.reserved f (hframe.gMaxPfn ▸ hf) hnotu
  · intro f hf
    by_cases he : f = b.upper.base
    · rw [he, hflags, horder]
      exact ⟨Or.inl rfl, ho⟩
    · rw [(hother f he).1, (hother f he).2]
      exact h.known f hf

/-- **Marking the block in hand used brings its record up to date.** -/
theorem finish (h : Refines s S lists (some b)) (hb : b ∈ S.held) :
    Refines (s.pmmPreparePage b.base Page.USED b.order) S lists none := by
  have hbB := S.mem_blocks_of_held hb
  refine ⟨h.gPfndb_ne, h.max_lt, h.usable_le,
    h.lists_ok.modifyPage _ (Or.inl (h.notMem_lists hb b.base_mem)), h.mem_lists,
    fun c hc => ?_, fun c hc _ => ?_, fun f hf hnot => ?_, fun f hf => ?_⟩
  · have hne : c.base ≠ b.base := fun he =>
      S.notMem_free hb (eq_of_base_eq (S.mem_blocks_of_free hc) hbB he ▸ hc)
    rw [pages_pmmPreparePage_of_ne hne]
    exact h.free_page c hc
  · by_cases he : c = b
    · rw [he, pages_pmmPreparePage_self]
      exact ⟨rfl, rfl⟩
    · have hne : c.base ≠ b.base := fun hbase =>
        he (eq_of_base_eq (S.mem_blocks_of_held hc) hbB hbase)
      rw [pages_pmmPreparePage_of_ne hne]
      exact h.held_page c hc (fun hh => he (Option.some.inj hh).symm)
  · have hne : f ≠ b.base := fun he => hnot (he ▸ mem_usable hbB b.base_mem)
    rw [pages_pmmPreparePage_of_ne hne]
    exact h.reserved f hf hnot
  · by_cases he : f = b.base
    · rw [he, pages_pmmPreparePage_self]
      exact ⟨Or.inr rfl, order_lt hbB⟩
    · rw [pages_pmmPreparePage_of_ne he]
      exact h.known f hf

end Refines

end Pmm
