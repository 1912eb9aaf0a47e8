import Mathlib.Algebra.Order.BigOperators.Group.Finset
import Risky.PmmInit

/-!
# Runs of the memory manager

A client of the memory manager allocates blocks, remembers which ones it
holds, and frees them by address. This module is about every state such a
client can reach from `pmm_init`, in whatever order it calls.

* The free lists are well formed and, together with the blocks the client
  holds, divide exactly the frames that were free at boot
  (`Pmm.wellFormed_of_reach`).
* The free blocks are the maximal aligned runs of free frames, whatever the
  history (`Pmm.mem_freeBlocks_iff`).
* Freeing anything but the start of a held block is refused, unless the
  frame's own record is a stale one that still says "used"
  (`Pmm.pmmFree_eq_self_iff`).
-/

namespace Pmm

variable {hhdm : BitVec 64} {s₀ s s' : Pmm} {A A' : Finset Block}

/-! ## The free lists as the state spells them out -/

/-- The keys met from `head` on by following at most `n` forward links. -/
def walkList (s : Pmm) : ℕ → Option ℕ → List ℕ
  | 0, _ => []
  | _ + 1, none => []
  | n + 1, some page => page :: s.walkList n (s.pages page).next

/-- The pages of the free list of an order. -/
def freeList (s : Pmm) (order : ℕ) : List ℕ :=
  s.walkList (s.gFreeLists order).count (s.gFreeLists order).head

/-- The blocks on the free lists. -/
def freeBlocks (s : Pmm) : List Block :=
  (List.range pmmMaxOrder).flatMap (fun o => (s.freeList o).map (fun p => ⟨p, o⟩))

theorem mem_freeBlocks {b : Block} :
    b ∈ s.freeBlocks ↔ b.order < pmmMaxOrder ∧ b.base ∈ s.freeList b.order := by
  unfold freeBlocks
  rw [List.mem_flatMap]
  constructor
  · rintro ⟨o, ho, hb⟩
    obtain ⟨p, hp, rfl⟩ := List.mem_map.mp hb
    exact ⟨List.mem_range.mp ho, hp⟩
  · rintro ⟨ho, hp⟩
    exact ⟨b.order, List.mem_range.mpr ho, List.mem_map.mpr ⟨b.base, hp, rfl⟩⟩

/-- Walking a linked list reads it back. -/
theorem walkList_of_segment {before : Option ℕ} (l : List ℕ)
    (h : s.links.Segment before l none) : s.walkList l.length l.head? = l := by
  induction l generalizing before with
  | nil => rfl
  | cons x xs ih =>
    obtain ⟨-, hnext, hrest⟩ := h
    show x :: s.walkList xs.length (s.pages x).next = x :: xs
    have hnext' : (s.pages x).next = xs.head? := by
      rw [Option.or_none] at hnext
      exact hnext
    rw [hnext', ih hrest]

theorem freeList_eq {lists : ℕ → List ℕ} (h : s.ListsOk lists) {o : ℕ}
    (ho : o < pmmMaxOrder) : s.freeList o = lists o := by
  have hl := h.isList o ho
  unfold freeList
  rw [h.count o ho, hl.head_eq]
  exact walkList_of_segment _ hl.segment

section FreeBlocks

variable {usable : Set ℕ} {lists : ℕ → List ℕ} {hand : Option Block}
  {S : BuddySystem topOrder usable}

/-- The blocks on the free lists are the free blocks. -/
theorem mem_freeBlocks_iff_free (h : Refines s S lists hand) {b : Block} :
    b ∈ s.freeBlocks ↔ b ∈ S.free := by
  rw [mem_freeBlocks]
  constructor
  · rintro ⟨ho, hp⟩
    rw [freeList_eq h.lists_ok ho] at hp
    exact (h.mem_lists b.order ho b.base).mp hp
  · intro hb
    have ho := order_lt (S.mem_blocks_of_free hb)
    rw [freeList_eq h.lists_ok ho]
    exact ⟨ho, (h.mem_lists b.order ho b.base).mpr hb⟩

/-- The free cells, counted list by list. -/
theorem freeCells_eq_sum (h : Refines s S lists hand) :
    S.freeCells = ∑ o ∈ Finset.range pmmMaxOrder, (s.gFreeLists o).count * 2 ^ o := by
  unfold BuddySystem.freeCells
  rw [← Finset.sum_fiberwise_of_maps_to (g := Block.order) (t := Finset.range pmmMaxOrder)
    (fun b hb => Finset.mem_range.mpr (order_lt (S.mem_blocks_of_free hb)))]
  refine Finset.sum_congr rfl (fun o ho => ?_)
  have ho' := Finset.mem_range.mp ho
  have hfib : S.free.filter (fun b => b.order = o)
      = (lists o).toFinset.image (fun p => (⟨p, o⟩ : Block)) := by
    ext b
    rw [Finset.mem_filter, Finset.mem_image]
    constructor
    · rintro ⟨hb, rfl⟩
      exact ⟨b.base, List.mem_toFinset.mpr ((h.mem_lists _ ho' _).mpr hb), rfl⟩
    · rintro ⟨p, hp, rfl⟩
      exact ⟨(h.mem_lists o ho' p).mp (List.mem_toFinset.mp hp), rfl⟩
  rw [Finset.sum_congr rfl (fun b hb => show b.size = 2 ^ o by
    rw [← (Finset.mem_filter.mp hb).2]; rfl), Finset.sum_const, hfib,
    Finset.card_image_of_injective _ (fun p q he => congrArg Block.base he),
    List.toFinset_card_of_nodup (h.lists_ok.isList o ho').nodup, h.lists_ok.count o ho',
    smul_eq_mul]

end FreeBlocks

/-! ## What a client does -/

/-- **One call of a client**, which keeps the set of the blocks it holds. A
block is named by its first frame and the order asked for, and freed by the
direct-map address of its first frame. -/
inductive ClientStep (hhdm : BitVec 64) :
    Pmm × Finset Block → Pmm × Finset Block → Prop
  | pageAlloc {s s' : Pmm} {A : Finset Block} (order : ℕ) {page : ℕ}
      (h : s.pageAlloc order = some (some page, s')) :
      ClientStep hhdm (s, A) (s', insert ⟨page, order⟩ A)
  | pageAllocFail {s s' : Pmm} {A : Finset Block} (order : ℕ)
      (h : s.pageAlloc order = some (none, s')) : ClientStep hhdm (s, A) (s', A)
  | pmmAlloc {s s' : Pmm} {A : Finset Block} (order : ℕ) {ptr : BitVec 64}
      (h : s.pmmAlloc hhdm order = some (ptr, s')) (hptr : ptr ≠ 0#64) :
      ClientStep hhdm (s, A) (s', insert ⟨physPfn (virtToPhys hhdm ptr), order⟩ A)
  | pmmAllocFail {s s' : Pmm} {A : Finset Block} (order : ℕ)
      (h : s.pmmAlloc hhdm order = some (0#64, s')) : ClientStep hhdm (s, A) (s', A)
  | pmmFree {s : Pmm} {A : Finset Block} (b : Block) (hb : b ∈ A) :
      ClientStep hhdm (s, A)
        (s.pmmFree hhdm (physToVirt hhdm (pfnPhys b.base)), A.erase b)

/-- **The states a client can reach** from `pmm_init` over the database `s₀`,
with the blocks it then holds. -/
def Reach (hhdm : BitVec 64) (s₀ s : Pmm) (A : Finset Block) : Prop :=
  Relation.ReflTransGen (ClientStep hhdm) (s₀.pmmInit.2, ∅) (s, A)

/-- **The direct map shows no frame at the null pointer**, as a map into the
higher half of the address space never does. -/
def NoNullFrame (hhdm : BitVec 64) (maxPfn : ℕ) : Prop :=
  ∀ pfn ≤ maxPfn, physToVirt hhdm (pfnPhys pfn) ≠ 0#64

/-- What holds of every reachable state: the manager refines a buddy system
whose held blocks are the client's. -/
def Represents (s₀ s : Pmm) (A : Finset Block) : Prop :=
  ∃ S : BuddySystem topOrder (s₀.usableFrames : Set ℕ), Inv s S ∧ S.held = A
    ∧ s.gMaxPfn = s₀.gMaxPfn ∧ s.gTotalPages = s₀.usableFrames.card

theorem represents_pmmInit (h : BootDb s₀) : Represents s₀ s₀.pmmInit.2 ∅ := by
  obtain ⟨-, hmax, htotal, S, hinv, hheld⟩ := pmmInit_spec h
  exact ⟨S, hinv, hheld, hmax, htotal⟩

/-- Allocation keeps what holds, whichever of the two functions is called. -/
theorem Represents.allocPage (h : Represents s₀ s A) {order : ℕ} {r : Option ℕ}
    (hrun : s.pmmAllocPage order = some (r, s')) :
    (r = none ∧ s' = s) ∨ ∃ page, r = some page ∧ page ≤ s'.gMaxPfn
      ∧ s'.gPfndb ≠ 0#64 ∧ s'.gMaxPfn < 2 ^ 52 ∧ (⟨page, order⟩ : Block) ∉ A
      ∧ Represents s₀ s' (insert ⟨page, order⟩ A) := by
  obtain ⟨S, hinv, hheld, hmax, htotal⟩ := h
  rcases pmmAllocPage_spec hinv order with ⟨hrun', -⟩ |
    ⟨page, t, S', hrun', -, htook, hinv'⟩
  · rw [hrun'] at hrun
    simp only [Option.some.injEq, Prod.mk.injEq] at hrun
    exact Or.inl ⟨hrun.1.symm, hrun.2.symm⟩
  · rw [hrun'] at hrun
    simp only [Option.some.injEq, Prod.mk.injEq] at hrun
    obtain ⟨rfl, rfl⟩ := hrun
    obtain ⟨lists', hr'⟩ := hinv'.refines
    have hmem : (⟨page, order⟩ : Block) ∈ S'.held := by
      rw [htook.held]
      exact Finset.mem_insert_self _ _
    exact Or.inr ⟨page, rfl, hr'.base_le (S'.mem_blocks_of_held hmem), hr'.gPfndb_ne,
      hr'.max_lt, hheld ▸ htook.notMem, S', hinv', by rw [htook.held, hheld],
      htook.gMaxPfn.trans hmax,
      htook.gTotalPages.trans htotal⟩

/-- A page from `page_alloc` is not the first of a held block of the order, and
is held from then on. -/
theorem Represents.pageAlloc (h : Represents s₀ s A) {order page : ℕ}
    (hrun : s.pageAlloc order = some (some page, s')) :
    (⟨page, order⟩ : Block) ∉ A ∧ Represents s₀ s' (insert ⟨page, order⟩ A) := by
  rcases h.allocPage hrun with ⟨he, -⟩ | ⟨page', he, -, -, -, hnot, h'⟩
  · exact absurd he (by simp)
  · cases he
    exact ⟨hnot, h'⟩

/-- `page_alloc` fails without a trace. -/
theorem Represents.pageAlloc_none (h : Represents s₀ s A) {order : ℕ}
    (hrun : s.pageAlloc order = some (none, s')) : s' = s := by
  rcases h.allocPage hrun with ⟨-, he⟩ | ⟨page, he, -⟩
  · exact he
  · exact absurd he (by simp)

/-- `pmm_alloc` is `page_alloc`, with the page named by its address. -/
theorem Represents.pmmAlloc_page (h : Represents s₀ s A) {order : ℕ} {ptr : BitVec 64}
    (hrun : s.pmmAlloc hhdm order = some (ptr, s')) :
    (ptr = 0#64 ∧ s' = s) ∨ ∃ page ≤ s₀.gMaxPfn, ptr = physToVirt hhdm (pfnPhys page)
      ∧ physPfn (virtToPhys hhdm ptr) = page ∧ s.pageAlloc order = some (some page, s') := by
  unfold Pmm.pmmAlloc at hrun
  split at hrun
  · exact absurd hrun (by simp)
  · next t hpage =>
    simp only [Option.some.injEq, Prod.mk.injEq] at hrun
    obtain ⟨rfl, rfl⟩ := hrun
    exact Or.inl ⟨rfl, h.pageAlloc_none hpage⟩
  · next page t hpage =>
    simp only [Option.some.injEq, Prod.mk.injEq] at hrun
    obtain ⟨rfl, rfl⟩ := hrun
    rcases h.allocPage hpage with ⟨he, -⟩ | ⟨page', he, hle, h₀, hlt, -, h'⟩
    · exact absurd he (by simp)
    · cases he
      obtain ⟨-, -, -, hmax, -⟩ := h'
      rw [Pfndb.pfndbPageToPhys_of_le h₀ hle hlt]
      refine Or.inr ⟨page, hmax ▸ hle, rfl, ?_, hpage⟩
      rw [virtToPhys_physToVirt, physPfn_pfnPhys (hle.trans_lt hlt)]

/-- No page is named by the null pointer where the direct map shows none
there. -/
theorem Represents.pmmAlloc (hnull : NoNullFrame hhdm s₀.gMaxPfn) (h : Represents s₀ s A)
    {order : ℕ} {ptr : BitVec 64} (hrun : s.pmmAlloc hhdm order = some (ptr, s')) :
    (ptr = 0#64 ∧ s' = s) ∨ ptr ≠ 0#64
      ∧ s.pageAlloc order = some (some (physPfn (virtToPhys hhdm ptr)), s') := by
  rcases h.pmmAlloc_page hrun with hnone | ⟨page, hle, hptr, hpfn, hpage⟩
  · exact Or.inl hnone
  · exact Or.inr ⟨hptr ▸ hnull page hle, hpfn ▸ hpage⟩

/-- **A client's call does not touch blocks that others hold.** -/
theorem ClientStep.union {T : Finset Block} (hnull : NoNullFrame hhdm s₀.gMaxPfn)
    (h : Represents s₀ s (A ∪ T)) (hdisj : Disjoint A T)
    (hstep : ClientStep hhdm (s, A) (s', A')) :
    ClientStep hhdm (s, A ∪ T) (s', A' ∪ T) ∧ Disjoint A' T := by
  have key : ∀ {order page : ℕ}, s.pageAlloc order = some (some page, s') →
      Disjoint (insert ⟨page, order⟩ A) T := by
    intro order page hrun
    have hnot := (h.pageAlloc hrun).1
    rw [Finset.disjoint_insert_left]
    exact ⟨fun hT => hnot (Finset.mem_union_right _ hT), hdisj⟩
  cases hstep with
  | pageAlloc order hrun =>
    rw [Finset.insert_union]
    exact ⟨ClientStep.pageAlloc order hrun, key hrun⟩
  | pageAllocFail order hrun => exact ⟨ClientStep.pageAllocFail order hrun, hdisj⟩
  | pmmAlloc order hrun hptr =>
    rw [Finset.insert_union]
    refine ⟨ClientStep.pmmAlloc order hrun hptr, ?_⟩
    rcases h.pmmAlloc hnull hrun with ⟨he, -⟩ | ⟨-, hpage⟩
    · exact absurd he hptr
    · exact key hpage
  | pmmAllocFail order hrun => exact ⟨ClientStep.pmmAllocFail order hrun, hdisj⟩
  | pmmFree b hb =>
    have hnot : b ∉ T := fun hT => Finset.disjoint_left.mp hdisj hb hT
    refine ⟨?_, Finset.disjoint_of_subset_left (Finset.erase_subset _ _) hdisj⟩
    rw [show A.erase b ∪ T = (A ∪ T).erase b by
      rw [Finset.erase_union_distrib, Finset.erase_eq_of_notMem hnot]]
    exact ClientStep.pmmFree b (Finset.mem_union_left _ hb)

/-- **One call keeps what holds.** -/
theorem Represents.step (hnull : NoNullFrame hhdm s₀.gMaxPfn) (h : Represents s₀ s A)
    (hstep : ClientStep hhdm (s, A) (s', A')) : Represents s₀ s' A' := by
  cases hstep with
  | pageAlloc order hrun => exact (h.pageAlloc hrun).2
  | pageAllocFail order hrun => exact h.pageAlloc_none hrun ▸ h
  | pmmAlloc order hrun hptr =>
    rcases h.pmmAlloc hnull hrun with ⟨he, -⟩ | ⟨-, hpage⟩
    · exact absurd he hptr
    · exact (h.pageAlloc hpage).2
  | pmmAllocFail order hrun =>
    rcases h.pmmAlloc hnull hrun with ⟨-, rfl⟩ | ⟨hne, -⟩
    · exact h
    · exact absurd rfl hne
  | pmmFree b hb =>
    obtain ⟨S, hinv, rfl, hmax, htotal⟩ := h
    obtain ⟨lists, hr⟩ := hinv.refines
    have hle : b.base ≤ s₀.gMaxPfn := hmax ▸ hr.base_le (S.mem_blocks_of_held hb)
    obtain ⟨S', hinv', hheld', hframe⟩ := pmmFree_spec hinv hb (hnull b.base hle)
    exact ⟨S', hinv', hheld', hframe.gMaxPfn.trans hmax, hframe.gTotalPages.trans htotal⟩

/-- **Every reachable state represents a buddy system.** -/
theorem Reach.represents (h₀ : BootDb s₀) (hnull : NoNullFrame hhdm s₀.gMaxPfn)
    (h : Reach hhdm s₀ s A) : Represents s₀ s A := by
  have key : ∀ x : Pmm × Finset Block,
      Relation.ReflTransGen (ClientStep hhdm) (s₀.pmmInit.2, ∅) x →
        Represents s₀ x.1 x.2 := by
    intro x hx
    induction hx with
    | refl => exact represents_pmmInit h₀
    | tail _ hstep ih => exact ih.step hnull hstep
  exact key (s, A) h

/-- A call keeps the blocks of the client among those that are held, also
where `pmm_alloc` names a page by the null pointer and the client loses it. -/
theorem ClientStep.exists_represents {B : Finset Block} (h : Represents s₀ s B) (hB : A ⊆ B)
    (hstep : ClientStep hhdm (s, A) (s', A')) : ∃ B', A' ⊆ B' ∧ Represents s₀ s' B' := by
  cases hstep with
  | pageAlloc order hrun =>
    exact ⟨_, Finset.insert_subset_insert _ hB, (h.pageAlloc hrun).2⟩
  | pageAllocFail order hrun => exact ⟨B, hB, h.pageAlloc_none hrun ▸ h⟩
  | pmmAlloc order hrun hptr =>
    rcases h.pmmAlloc_page hrun with ⟨he, -⟩ | ⟨page, -, -, hpfn, hpage⟩
    · exact absurd he hptr
    · rw [hpfn]
      exact ⟨_, Finset.insert_subset_insert _ hB, (h.pageAlloc hpage).2⟩
  | pmmAllocFail order hrun =>
    rcases h.pmmAlloc_page hrun with ⟨-, rfl⟩ | ⟨page, -, -, -, hpage⟩
    · exact ⟨B, hB, h⟩
    · exact ⟨_, hB.trans (Finset.subset_insert _ _), (h.pageAlloc hpage).2⟩
  | pmmFree b hb =>
    by_cases hptr : physToVirt hhdm (pfnPhys b.base) = 0#64
    · -- the null pointer is not freed
      have hsame : s.pmmFree hhdm (physToVirt hhdm (pfnPhys b.base)) = s := by
        unfold Pmm.pmmFree
        rw [if_pos hptr, ite_self]
      rw [hsame]
      exact ⟨B, (Finset.erase_subset _ _).trans hB, h⟩
    · obtain ⟨S, hinv, rfl, hmax, htotal⟩ := h
      obtain ⟨S', hinv', hheld', hframe⟩ := pmmFree_spec hinv (hB hb) hptr
      exact ⟨_, Finset.erase_subset_erase _ hB, S', hinv', hheld',
        hframe.gMaxPfn.trans hmax, hframe.gTotalPages.trans htotal⟩

/-- **In every reachable state the client's blocks are held**, wherever the
direct map is. -/
theorem Reach.exists_represents (h₀ : BootDb s₀) (h : Reach hhdm s₀ s A) :
    ∃ B, A ⊆ B ∧ Represents s₀ s B := by
  have key : ∀ x : Pmm × Finset Block,
      Relation.ReflTransGen (ClientStep hhdm) (s₀.pmmInit.2, ∅) x →
        ∃ B, x.2 ⊆ B ∧ Represents s₀ x.1 B := by
    intro x hx
    induction hx with
    | refl => exact ⟨∅, subset_rfl, represents_pmmInit h₀⟩
    | tail _ hstep ih =>
      obtain ⟨B, hB, hr⟩ := ih
      exact hstep.exists_represents hr hB
  exact key (s, A) h

/-! ## The free lists and the blocks of the client -/

/-- The free blocks of a represented state. -/
theorem Represents.mem_freeBlocks {S : BuddySystem topOrder (s₀.usableFrames : Set ℕ)}
    (hinv : Inv s S) {b : Block} : b ∈ s.freeBlocks ↔ b ∈ S.free := by
  obtain ⟨lists, hr⟩ := hinv.refines
  exact mem_freeBlocks_iff_free hr

/-- **A well-formed allocator state**, with `A` the blocks that are allocated
and `s₀` the state before `pmm_init`. -/
structure WellFormed (hhdm : BitVec 64) (s₀ s : Pmm) (A : Finset Block) : Prop where
  /-- Each free list is linked both ways and meets no page twice. -/
  linked : ∀ o < pmmMaxOrder, s.links.IsList (s.gFreeLists o).head (s.freeList o)
  /-- Each count is the length of the list. -/
  counted : ∀ o < pmmMaxOrder, (s.gFreeLists o).count = (s.freeList o).length
  /-- A page on a list is marked free, of the order of the list, aligned, and
  its whole block lies in the database. -/
  member : ∀ o < pmmMaxOrder, ∀ p ∈ s.freeList o, (s.pages p).flags = Page.FREE
    ∧ (s.pages p).order = o ∧ 2 ^ o ∣ p ∧ ∀ f ∈ (⟨p, o⟩ : Block), f ≤ s₀.gMaxPfn
  /-- No page is on two lists. -/
  oneList : ∀ o < pmmMaxOrder, ∀ o' < pmmMaxOrder, ∀ p, p ∈ s.freeList o →
    p ∈ s.freeList o' → o = o'
  /-- Free and allocated blocks are pairwise disjoint. -/
  disjoint : ∀ b c, (b ∈ s.freeBlocks ∨ b ∈ A) → (c ∈ s.freeBlocks ∨ c ∈ A) →
    ∀ f, f ∈ b → f ∈ c → b = c
  /-- No block is both free and allocated. -/
  notBoth : ∀ b ∈ s.freeBlocks, b ∉ A
  /-- Together they cover the frames that were free at boot, and no other. -/
  cover : ∀ f, (f ≤ s₀.gMaxPfn ∧ (s₀.pages f).flags = Page.FREE)
    ↔ ∃ b, (b ∈ s.freeBlocks ∨ b ∈ A) ∧ f ∈ b
  /-- `g_free_pages` is what the lists hold. -/
  freePages : s.gFreePages
    = ∑ o ∈ Finset.range pmmMaxOrder, (s.gFreeLists o).count * 2 ^ o
  /-- `g_free_pages` is `g_total_pages` less the allocated frames. -/
  totalPages : s.gFreePages + ∑ b ∈ A, 2 ^ b.order = s.gTotalPages
  /-- `g_total_pages` counts the frames that were free at boot. -/
  total_eq : s.gTotalPages = s₀.usableFrames.card
  /-- No allocation crashes. -/
  noCrash : ∀ order, (s.pageAlloc order).isSome ∧ (s.pmmAlloc hhdm order).isSome

/-- **Every reachable state is well formed**, after any calls in any order. -/
theorem wellFormed_of_reach (h₀ : BootDb s₀) (hnull : NoNullFrame hhdm s₀.gMaxPfn)
    (h : Reach hhdm s₀ s A) : WellFormed hhdm s₀ s A := by
  obtain ⟨S, hinv, rfl, hmax, htotal⟩ := h.represents h₀ hnull
  obtain ⟨lists, hr⟩ := hinv.refines
  have hmem : ∀ b, b ∈ s.freeBlocks ↔ b ∈ S.free := fun b => mem_freeBlocks_iff_free hr
  have hblocks : ∀ b, (b ∈ s.freeBlocks ∨ b ∈ S.held) ↔ b ∈ S.free ∪ S.held := fun b => by
    rw [hmem b, Finset.mem_union]
  have hlist : ∀ o < pmmMaxOrder, s.freeList o = lists o := fun o ho =>
    freeList_eq hr.lists_ok ho
  refine ⟨fun o ho => ?_, fun o ho => ?_, fun o ho p hp => ?_, fun o ho o' ho' p hp hp' => ?_,
    fun b c hb hc f hfb hfc => ?_, fun b hb => ?_, fun f => ?_, ?_, ?_, htotal,
    fun order => ?_⟩
  · rw [hlist o ho]
    exact hr.lists_ok.isList o ho
  · rw [hlist o ho]
    exact hr.lists_ok.count o ho
  · rw [hlist o ho] at hp
    have hb := (hr.mem_lists o ho p).mp hp
    obtain ⟨hflags, horder⟩ := hr.free_page _ hb
    refine ⟨hflags, horder, S.aligned_of_free hb, fun f hf => hmax ▸ ?_⟩
    exact hr.usable_le f (mem_usable (S.mem_blocks_of_free hb) hf)
  · rw [hlist o ho] at hp
    rw [hlist o' ho'] at hp'
    exact hr.lists_ok.disjoint o ho o' ho' p hp hp'
  · exact S.isPartition.eq_of_mem b ((hblocks b).mp hb) c ((hblocks c).mp hc) f hfb hfc
  · exact S.notMem_held ((hmem b).mp hb)
  · -- the blocks cover the usable frames
    rw [← mem_usableFrames, ← Finset.mem_coe, S.isPartition.cover f]
    exact exists_congr (fun b => and_congr_left (fun _ => (hblocks b).symm))
  · rw [hinv.freePages]
    exact freeCells_eq_sum hr
  · rw [hinv.freePages, hinv.totalPages]
    rfl
  · -- an allocation succeeds or refuses
    have hsome : ∃ x, s.pmmAllocPage order = some x := by
      rcases pmmAllocPage_spec hinv order with ⟨hrun, -⟩ | ⟨_, _, _, hrun, -⟩
      · exact ⟨_, hrun⟩
      · exact ⟨_, hrun⟩
    obtain ⟨⟨r, t⟩, hrun⟩ := hsome
    unfold pageAlloc pmmAlloc
    rw [hrun]
    cases r <;> exact ⟨rfl, rfl⟩

/-! A database of two free frames, to run the manager on. -/

/-- Two frames, both free, seen through a direct map at the start of the
higher half. -/
def twoFrames : Pmm where
  gPfndb := 0xffff800000002000#64
  gMaxPfn := 1
  pages := fun _ => { flags := Page.FREE, order := 0, next := none, prev := none }
  gFreeLists := fun _ => { head := none, count := 0 }
  gFreePages := 0
  gTotalPages := 0
  gPmmReady := false

/-- The direct map of the example. -/
def lowestHhdm : BitVec 64 := 0xffff800000000000#64

theorem bootDb_twoFrames : BootDb twoFrames :=
  ⟨by decide, by decide, fun _ _ => Or.inl rfl⟩

theorem noNullFrame_twoFrames : NoNullFrame lowestHhdm twoFrames.gMaxPfn := by
  intro pfn h
  change pfn ≤ 1 at h
  interval_cases pfn <;> decide

/-- The state after one `page_alloc(0)`: the other frame is free alone. -/
theorem wellFormed_twoFrames :
    ∃ s, s.freeBlocks = [⟨1, 0⟩] ∧ WellFormed lowestHhdm twoFrames s {⟨0, 0⟩} :=
  ⟨_, by decide +kernel, wellFormed_of_reach bootDb_twoFrames noNullFrame_twoFrames
    (Relation.ReflTransGen.single (ClientStep.pageAlloc 0 rfl))⟩

/-! ## The free blocks are canonical -/

/-- The frames that are free, when the blocks `A` are allocated. -/
def freeFrames (s₀ : Pmm) (A : Finset Block) : Set ℕ :=
  {f | (f ≤ s₀.gMaxPfn ∧ (s₀.pages f).flags = Page.FREE) ∧ ∀ b ∈ A, f ∉ b}

/-- **The free blocks are the maximal aligned runs of free frames**, so they
do not depend on the history: no two buddies below the top order are both
free, two runs that end with the same frames allocated end with the same free
blocks, and freeing everything brings back the blocks `pmm_init` built. -/
theorem mem_freeBlocks_iff (h₀ : BootDb s₀) (hnull : NoNullFrame hhdm s₀.gMaxPfn)
    (h : Reach hhdm s₀ s A) :
    (∀ b, b ∈ s.freeBlocks ↔ BuddySystem.IsMaximalRun 9 (freeFrames s₀ A) b)
      ∧ (∀ b ∈ s.freeBlocks, b.order < 9 → b.buddy ∉ s.freeBlocks)
      ∧ (∀ s' A', Reach hhdm s₀ s' A' → (∀ f, (∃ b ∈ A, f ∈ b) ↔ ∃ b ∈ A', f ∈ b) →
          ∀ b, b ∈ s.freeBlocks ↔ b ∈ s'.freeBlocks)
      ∧ (A = ∅ → ∀ b, b ∈ s.freeBlocks ↔ b ∈ s₀.pmmInit.2.freeBlocks) := by
  have key : ∀ {s A}, Reach hhdm s₀ s A →
      ∀ b, b ∈ s.freeBlocks ↔ BuddySystem.IsMaximalRun 9 (freeFrames s₀ A) b := by
    intro s A h b
    obtain ⟨S, hinv, rfl, -, -⟩ := h.represents h₀ hnull
    have hset : S.freeSet = freeFrames s₀ S.held := by
      ext f
      rw [S.mem_freeSet_iff, Finset.mem_coe, mem_usableFrames]
      rfl
    rw [Represents.mem_freeBlocks hinv, S.mem_free_iff_isMaximalRun, hset]
    exact Iff.rfl
  -- the maximal runs depend on the free frames only
  have same : ∀ {s A s' A'}, Reach hhdm s₀ s A → Reach hhdm s₀ s' A' →
      (∀ f, (∃ b ∈ A, f ∈ b) ↔ ∃ b ∈ A', f ∈ b) →
      ∀ b, b ∈ s.freeBlocks ↔ b ∈ s'.freeBlocks := by
    intro s A s' A' h h' hAA' b
    have hset : freeFrames s₀ A = freeFrames s₀ A' := by
      ext f
      refine and_congr_right (fun _ => ?_)
      have hneg := not_congr (hAA' f)
      simpa only [not_exists, not_and] using hneg
    rw [key h, key h', hset]
  refine ⟨key h, fun b hb hlt => ?_, fun s' A' h' => same h h', fun hA => ?_⟩
  · obtain ⟨S, hinv, -, -, -⟩ := h.represents h₀ hnull
    rw [Represents.mem_freeBlocks hinv] at hb ⊢
    exact S.coalesced b hb hlt
  · subst hA
    exact same h Relation.ReflTransGen.refl (fun f => Iff.rfl)

/-- After both frames have been allocated and freed they are one block
again. -/
theorem mem_freeBlocks_twoFrames :
    ∃ s, Reach lowestHhdm twoFrames s ∅
      ∧ ∀ b, b ∈ s.freeBlocks ↔ b ∈ twoFrames.pmmInit.2.freeBlocks := by
  have h : Reach lowestHhdm twoFrames _ _ :=
    ((Relation.ReflTransGen.single (ClientStep.pageAlloc 0 rfl)).tail
      (ClientStep.pageAlloc 0 rfl)).tail
      (ClientStep.pmmFree ⟨0, 0⟩ (by decide)) |>.tail
      (ClientStep.pmmFree ⟨1, 0⟩ (by decide))
  exact ⟨_, h, (mem_freeBlocks_iff bootDb_twoFrames noNullFrame_twoFrames h).2.2.2
    (by decide)⟩

/-! ## Frees that are not of an allocated block -/

/-- **A frame with a stale record**: it lies inside a block, not first, and
its own record still says "used". `pmm_free_block` leaves such a record on the
frame of a block that a lower buddy absorbs. -/
def StaleUsed (s : Pmm) (A : Finset Block) (f : ℕ) : Prop :=
  (∃ b, (b ∈ s.freeBlocks ∨ b ∈ A) ∧ f ∈ b ∧ f ≠ b.base) ∧ pageUsed (s.pages f) = true

/-- A free that passes the three tests changes the count of free pages. -/
theorem pmmFreeBlock_ne_self {page : ℕ}
    (horder : (s.pages page).order < pmmMaxOrder) :
    ({ s with gFreePages := (s.gFreePages + 2 ^ (s.pages page).order) % 2 ^ 64 } :
      Pmm).pmmFreeBlock page ≠ s := by
  intro he
  have hfree := (sameFrame_pmmFreeBlock { s with
    gFreePages := (s.gFreePages + 2 ^ (s.pages page).order) % 2 ^ 64 } page).gFreePages
  rw [he] at hfree
  change s.gFreePages = (s.gFreePages + 2 ^ (s.pages page).order) % 2 ^ 64 at hfree
  have hpow : 2 ^ (s.pages page).order < 2 ^ pmmMaxOrder :=
    Nat.pow_lt_pow_right (by decide) horder
  have hpos : 0 < 2 ^ (s.pages page).order := Nat.two_pow_pos _
  change _ < 2 ^ 10 at hpow
  omega

/-- **When a free is refused.** Given a pointer that is not into the first
frame of an allocated block, `pmm_free` changes nothing exactly when the
pointer is null or its frame's record is not a stale "used" one. -/
theorem pmmFree_eq_self_iff (h₀ : BootDb s₀) (hnull : NoNullFrame hhdm s₀.gMaxPfn)
    (h : Reach hhdm s₀ s A) (ptr : BitVec 64)
    (hptr : ∀ b ∈ A, b.base ≠ physPfn (virtToPhys hhdm ptr)) :
    s.pmmFree hhdm ptr = s
      ↔ ptr = 0#64 ∨ ¬ s.StaleUsed A (physPfn (virtToPhys hhdm ptr)) := by
  obtain ⟨S, hinv, rfl, hmax, -⟩ := h.represents h₀ hnull
  obtain ⟨lists, hr⟩ := hinv.refines
  have hblocks : ∀ {b : Block}, (b ∈ s.freeBlocks ∨ b ∈ S.held) ↔ b ∈ S.free ∪ S.held := by
    intro b
    rw [mem_freeBlocks_iff_free hr, Finset.mem_union]
  unfold pmmFree
  rw [if_neg (by rw [hinv.ready]; simp)]
  by_cases hz : ptr = 0#64
  · rw [if_pos hz]
    exact iff_of_true rfl (Or.inl hz)
  rw [if_neg hz, or_iff_right hz]
  generalize virtToPhys hhdm ptr = phys at hptr ⊢
  by_cases husable : physPfn phys ∈ (s₀.usableFrames : Set ℕ)
  swap
  · -- a frame of no block is beyond the database, or reserved
    have hstale : ¬ s.StaleUsed S.held (physPfn phys) := by
      rintro ⟨⟨b, hb, hf, -⟩, -⟩
      exact husable (mem_usable (hblocks.mp hb) hf)
    refine iff_of_true ?_ hstale
    by_cases hle : physPfn phys ≤ s.gMaxPfn
    · rw [Pfndb.pfndbPhysToPage_of_le hr.gPfndb_ne hle]
      dsimp only
      rw [if_pos (Page.pageReserved_of_reserved (hr.reserved _ hle husable))]
    · rw [Pfndb.pfndbPhysToPage_of_gt (not_le.mp hle)]
  obtain ⟨b, hb, hmem⟩ := (S.isPartition.cover _).mp husable
  have hle := hr.usable_le _ husable
  rw [Pfndb.pfndbPhysToPage_of_le hr.gPfndb_ne hle]
  dsimp only
  obtain ⟨hflags, horder⟩ := hr.known _ husable
  rcases hflags with hfree | hused
  · -- the record says "free", and is believed
    rw [Page.pageReserved_of_free hfree, Page.pageFree_of_free hfree,
      if_neg Bool.false_ne_true, if_pos rfl]
    refine iff_of_true rfl (fun hstale => ?_)
    rw [StaleUsed, Page.pageUsed_of_free hfree] at hstale
    exact Bool.false_ne_true hstale.2
  · -- the record says "used" although the frame heads no held block
    rw [Page.pageReserved_of_used hused, Page.pageFree_of_used hused,
      if_neg Bool.false_ne_true, if_neg Bool.false_ne_true]
    refine iff_of_false (pmmFreeBlock_ne_self horder) (not_not.mpr
      ⟨⟨b, hblocks.mpr hb, hmem, fun hbase => ?_⟩, Page.pageUsed_of_used hused⟩)
    rcases Finset.mem_union.mp hb with hbf | hbh
    · rw [hbase, (hr.free_page b hbf).1] at hused
      exact absurd hused (by decide)
    · exact hptr b hbh hbase.symm

/-- A free of the first frame of a free block is refused. -/
theorem pmmFree_eq_self_twoFrames :
    twoFrames.pmmInit.2.pmmFree lowestHhdm lowestHhdm = twoFrames.pmmInit.2 :=
  (pmmFree_eq_self_iff bootDb_twoFrames noNullFrame_twoFrames
    Relation.ReflTransGen.refl lowestHhdm (by simp)).mpr
    (Or.inr (fun h => absurd h.2 (by decide +kernel)))

/-- **A double free that is not refused.** Both frames are allocated and
freed; the second is absorbed by the first, and a second free of it is taken
for a good one. -/
theorem pmmFree_accepts_doubleFree :
    ¬ ∀ (s : Pmm) (A : Finset Block) (ptr : BitVec 64), Reach lowestHhdm twoFrames s A →
      (∀ b ∈ A, b.base ≠ physPfn (virtToPhys lowestHhdm ptr)) →
        s.pmmFree lowestHhdm ptr = s := by
  intro hall
  have h : Reach lowestHhdm twoFrames _ _ :=
    ((Relation.ReflTransGen.single (ClientStep.pageAlloc 0 rfl)).tail
      (ClientStep.pageAlloc 0 rfl)).tail
      (ClientStep.pmmFree ⟨0, 0⟩ (by decide)) |>.tail
      (ClientStep.pmmFree ⟨1, 0⟩ (by decide))
  have hsame := congrArg Pmm.gFreePages (hall _ _ 0xffff800000001000#64 h (by decide))
  revert hsame
  decide +kernel

end Pmm
