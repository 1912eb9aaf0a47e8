import Risky.PagingKernel
import Risky.PagingRemap
import Risky.PmmExhaustion

/-!
# Memory after boot

`paging_init` maps all memory through the direct map, and the kernel image segment by
segment. Afterwards the memory manager goes on handing out frames, clients write to
what they hold, and devices are mapped, each of which changes tables or the memory in
which tables lie. This module is about every state that the kernel comes to in this
way.

* What `paging_init` has mapped stays mapped (`Paging.kernelMapped_of_booted`).
* A pointer that `pmm_alloc` returns can be read and written over the whole block, and
  leads to memory that is in use for nothing else (`Paging.pmmAlloc_usable`).

It takes that no request asks for one of these pages with another page behind it or
with other rights, since `paging_map_one` writes over a leaf that will not do. The
requests of `paging_map_mmio` never do (`Paging.proper_mmioRequests`).
-/

namespace Paging

variable {B : Boot} {m : Mmu} {R : Responses} {I : KernelImage} {satp : BitVec 64}
  {s₀ : Pmm} {boot s s' s₁ s₂ : Paging} {A A' T : Finset Block} {r : Bool}
  {l l₀ : List MapRequest} {q q₀ : MapRequest} {memmap : List LimineMemmapEntry}
  {va virt phys size : BitVec 64} {levels : ℕ}

/-! ## Requests that agree -/

/-- **A request that agrees with others**: for the page of one of them, it is that
one. -/
def Agrees (levels : ℕ) (l₀ : List MapRequest) (q : MapRequest) : Prop :=
  ∀ q₀ ∈ l₀, indices q.virt levels = indices q₀.virt levels → q = q₀

/-- **A request that the kernel may make** at any time. -/
structure Proper (levels : ℕ) (l₀ : List MapRequest) (q : MapRequest) : Prop where
  phys_lt : q.phys.toNat < 2 ^ 56
  someRight : SomeRight q.flags
  agrees : Agrees levels l₀ q

/-- The requests of `paging_init` are proper. -/
theorem Placement.proper (h : Placement B levels I memmap) (h₃ : 3 ≤ levels) (h₅ : levels ≤ 5) :
    ∀ q ∈ initRequests B memmap I, Proper levels (initRequests B memmap I) q :=
  fun q hq => ⟨(h.grantable q hq).phys_lt, (h.grantable q hq).someRight,
    fun q₀ hq₀ he => h.consistent h₃ h₅ q hq q₀ hq₀ he⟩

/-- The requests for an entry are among those for a memory map that has it. -/
theorem mem_initRequests_of_cons {entry : LimineMemmapEntry}
    (hq : q ∈ initRequests B memmap I) : q ∈ initRequests B (entry :: memmap) I := by
  unfold initRequests at hq ⊢
  rw [List.flatMap_cons, List.append_assoc]
  exact List.mem_append_right _ hq

/-- **The requests of `paging_map_mmio` are proper**, for a device that lies where an
entry of the memory map could. -/
theorem proper_mmioRequests {device : LimineMemmapEntry}
    (h : Placement B levels I (device :: memmap)) (h₃ : 3 ≤ levels) (h₅ : levels ≤ 5) :
    ∀ q ∈ mmioRequests B device.base device.length,
      Proper levels (initRequests B memmap I) q := by
  intro q hq
  have hq' : q ∈ initRequests B (device :: memmap) I := by
    unfold initRequests
    rw [List.flatMap_cons, List.append_assoc]
    exact List.mem_append_left _ hq
  obtain ⟨hlt, hflags, hagree⟩ := h.proper h₃ h₅ q hq'
  exact ⟨hlt, hflags, fun q₀ hq₀ => hagree q₀ (mem_initRequests_of_cons hq₀)⟩

/-! ## Calls as runs of requests -/

/-- **What a step of the system does**: a client has called the memory manager, or
written to a block it holds, or a run of requests has been made. -/
theorem BootStep.cases' {call : Call} (hstep : BootStep B R I satp (s, A) call (s', A'))
    (hlevels : (call.start satp s).gLevels ≠ 0) (hroot : (call.start satp s).gRootPhys ≠ 0#64) :
    (∃ pmm, Pmm.ClientStep B.hhdm (s.pmm, A) (pmm, A') ∧ s' = { s with pmm := pmm })
      ∨ (A' = A ∧ ∃ b ∈ A, ∃ f ∈ b, ∃ words, s' = { s with mem := Function.update s.mem f words })
      ∨ (A' = A ∧ ∃ r, mapRequests B (call.requests B R I) (call.start satp s) = some (r, s')) := by
  cases hstep with
  | client hclient => exact Or.inl ⟨_, hclient, rfl⟩
  | store hb hf words => exact Or.inr (Or.inl ⟨rfl, _, hb, _, hf, words, rfl⟩)
  | @mapPage _ _ _ virt phys flags r hrun =>
    refine Or.inr (Or.inr ⟨rfl, r, ?_⟩)
    show mapRequests B [⟨virt, phys, flags⟩] s = _
    unfold mapRequests
    rw [hrun]
    cases r <;> rfl
  | @mapRange _ _ _ virt phys size flags r hrun =>
    exact Or.inr (Or.inr ⟨rfl, r, (pagingMapRange_eq _ _ _ _).symm.trans hrun⟩)
  | @mapMmio _ _ _ phys size r hrun =>
    refine Or.inr (Or.inr ⟨rfl, ?_⟩)
    show ∃ r, mapRequests B (if size = 0#64 then [] else mmioRequests B phys size) s = _
    by_cases hsize : size = 0#64
    · unfold pagingMapMmio at hrun
      dsimp only at hrun
      rw [if_pos hsize] at hrun
      cases hrun
      rw [if_pos hsize]
      exact ⟨true, rfl⟩
    · rw [if_neg hsize]
      exact ⟨r, (pagingMapMmio_eq hsize).symm.trans hrun⟩
  | pagingInit hrun => exact Or.inr (Or.inr ⟨rfl, mapRequests_of_pagingInit hlevels hroot hrun⟩)

/-! ## Runs of the kernel -/

/-- **A step of the kernel**: its requests are proper, and the memory manager has had
a frame for every new table. -/
def KernelStep (B : Boot) (R : Responses) (I : KernelImage) (satp : BitVec 64) (levels : ℕ)
    (l₀ : List MapRequest) (x y : Paging × Finset Block) : Prop :=
  ∃ call, BootStep B R I satp x call y ∧ y.1.gEarlyPtPoolUsed = 0
    ∧ ∀ q ∈ call.requests B R I, Proper levels l₀ q

/-- **What boot relies on**: the boot loader's tree and memory map. -/
structure BootOk (B : Boot) (m : Mmu) (R : Responses) (I : KernelImage) (satp : BitVec 64)
    (s₀ : Pmm) (boot : Paging) (memmap : List LimineMemmapEntry) : Prop where
  early : ∃ s₁ : Paging, s₁.pagingEarlyInit R satp = (true, boot)
  tree : BootTree B m s₀ boot
  conforms : boot.Conforms m
  responses : R.memmap = some memmap
  placement : Placement B boot.gLevels I memmap
  /-- No alias of memory ends with the address space, where `paging_init` would not map it. -/
  below_top : ∀ entry ∈ memmap, ¬ EndsAtTop B.hhdm entry

/-- The runs of the kernel from one state to another. -/
def KernelRun (B : Boot) (R : Responses) (I : KernelImage) (satp : BitVec 64)
    (boot : Paging) (memmap : List LimineMemmapEntry) (x y : Paging × Finset Block) : Prop :=
  Relation.ReflTransGen
    (KernelStep B R I satp boot.gLevels (initRequests B memmap I)) x y

/-- **The states of a kernel that has booted**: `paging_init` has succeeded at some
point after `paging_early_init`. -/
def Booted (B : Boot) (R : Responses) (I : KernelImage) (satp : BitVec 64)
    (boot : Paging) (memmap : List LimineMemmapEntry) (s : Paging) (A : Finset Block) : Prop :=
  ∃ s₁ A₁ s₂, KernelRun B R I satp boot memmap (boot, ∅) (s₁, A₁)
    ∧ s₁.pagingInit B R I satp = some (true, s₂) ∧ s₂.gEarlyPtPoolUsed = 0
    ∧ KernelRun B R I satp boot memmap (s₂, A₁) (s, A)

/-! ## What a run of requests keeps -/

/-- The tree still conforms after a call for a page that has an address of 56 bits. -/
theorem conforms_of_pagingMapPage (h : Sound B m s) (hconf : s.Conforms m)
    (hlt : q.phys.toNat < 2 ^ 56) (hflags : SomeRight q.flags)
    (hrun : s.pagingMapPage B q.virt q.phys q.flags = some (r, s'))
    (hpool : s'.gEarlyPtPoolUsed = s.gEarlyPtPoolUsed ∨ PoolSound B m s) : s'.Conforms m := by
  rcases pagingMapPage_spec h hrun hpool with ⟨-, rfl, -⟩ | ⟨-, t, hgrew, hfin⟩
  · exact hconf
  · obtain ⟨hsound, hext⟩ := extends_of_grew h hgrew
    exact hfin.conforms hsound (hext.conforms hconf) hlt hflags

/-- **A request that is in force**: its page is mapped as it asks, and asking once more
does nothing. -/
structure InForce (m : Mmu) (s : Paging) (q : MapRequest) : Prop where
  settled : Settled m s q
  maps : s.Maps m q.virt q.phys q.flags

/-- **A call for another page, or the same once more**, leaves a request in force. -/
theorem InForce.pagingMapPage (hq₀ : InForce m s q₀) (h : Sound B m s)
    (hflags : SomeRight q₀.flags) (hagree : Agrees s.gLevels [q₀] q)
    (hrun : s.pagingMapPage B q.virt q.phys q.flags = some (r, s'))
    (hpool : s'.gEarlyPtPoolUsed = s.gEarlyPtPoolUsed ∨ PoolSound B m s) : InForce m s' q₀ := by
  by_cases he : indices q.virt s.gLevels = indices q₀.virt s.gLevels
  · obtain rfl := hagree q₀ (List.mem_singleton_self q₀) he
    rw [(hq₀.settled.idle h hflags).1] at hrun
    cases hrun
    exact hq₀
  · exact ⟨hq₀.settled.pagingMapPage h hrun hpool (Ne.symm he),
      hq₀.maps.congr ((mapEffect_of_pagingMapPage h hrun hpool).frame _ (Ne.symm he))⟩

/-- **A kernel in order**: the memory manager and the tree agree, the tree conforms, and
the pool is untouched. -/
structure InOrder (B : Boot) (m : Mmu) (s₀ : Pmm) (boot s : Paging) (A : Finset Block) :
    Prop where
  joint : ∃ T, Joint m s₀ boot s A T
  conforms : s.Conforms m
  unused : s.gEarlyPtPoolUsed = 0

theorem InOrder.sound (hb : BootTree B m s₀ boot) (h : InOrder B m s₀ boot s A) : Sound B m s := by
  obtain ⟨T, hT⟩ := h.joint
  exact hT.sound hb

theorem InOrder.gLevels (h : InOrder B m s₀ boot s A) : s.gLevels = boot.gLevels := by
  obtain ⟨T, hT⟩ := h.joint
  exact hT.gLevels

theorem InOrder.gRootPhys (h : InOrder B m s₀ boot s A) : s.gRootPhys = boot.gRootPhys := by
  obtain ⟨T, hT⟩ := h.joint
  exact hT.gRootPhys

/-- One call keeps the kernel in order. -/
theorem InOrder.pagingMapPage (hb : BootTree B m s₀ boot) (h : InOrder B m s₀ boot s A)
    (hq : Proper levels l₀ q) (hrun : s.pagingMapPage B q.virt q.phys q.flags = some (r, s'))
    (hused : s'.gEarlyPtPoolUsed = 0) : InOrder B m s₀ boot s' A := by
  obtain ⟨T, hT⟩ := h.joint
  have hpool : s'.gEarlyPtPoolUsed = s.gEarlyPtPoolUsed := hused.trans h.unused.symm
  exact ⟨hT.mapPage hb hrun hpool,
    conforms_of_pagingMapPage (hT.sound hb) h.conforms hq.phys_lt hq.someRight hrun (Or.inl hpool),
    hused⟩

/-- **A run of proper requests** keeps the kernel in order, and what is in force. -/
theorem InOrder.mapRequests (hb : BootTree B m s₀ boot) (h : InOrder B m s₀ boot s A)
    (hl : ∀ q ∈ l, Proper boot.gLevels l₀ q) (hrun : mapRequests B l s = some (r, s'))
    (hused : s'.gEarlyPtPoolUsed = 0) :
    InOrder B m s₀ boot s' A
      ∧ ∀ q₀ ∈ l₀, SomeRight q₀.flags → InForce m s q₀ → InForce m s' q₀ := by
  induction l generalizing s with
  | nil =>
    cases hrun
    exact ⟨h, fun _ _ _ hq₀ => hq₀⟩
  | cons q l ih =>
    obtain ⟨hq, hl⟩ := List.forall_mem_cons.mp hl
    -- the first call, which takes no table of the pool as the whole run takes none
    have hfirst : ∀ {ok : Bool} {t : Paging},
        s.pagingMapPage B q.virt q.phys q.flags = some (ok, t) → t.gEarlyPtPoolUsed = 0 →
          InOrder B m s₀ boot t A
            ∧ ∀ q₀ ∈ l₀, SomeRight q₀.flags → InForce m s q₀ → InForce m t q₀ := by
      intro ok t hpage ht
      refine ⟨h.pagingMapPage hb hq hpage ht, fun q₀ hq₀ hflags hin => ?_⟩
      refine hin.pagingMapPage (h.sound hb) hflags (fun q₁ hq₁ he => ?_) hpage
        (Or.inl (ht.trans h.unused.symm))
      obtain rfl := List.mem_singleton.mp hq₁
      exact hq.agrees q₁ hq₀ (h.gLevels ▸ he)
    unfold Paging.mapRequests at hrun
    split at hrun
    · exact absurd hrun (by simp)
    · next t hpage =>
      cases hrun
      exact hfirst hpage hused
    · next t hpage =>
      have ht : t.gEarlyPtPoolUsed = 0 :=
        Nat.le_zero.mp (hused ▸ pool_le_of_mapRequests hrun)
      obtain ⟨horder, hkeeps⟩ := hfirst hpage ht
      obtain ⟨horder', hkeeps'⟩ := ih horder hl hrun
      exact ⟨horder', fun q₀ hq₀ hflags hin => hkeeps' q₀ hq₀ hflags (hkeeps q₀ hq₀ hflags hin)⟩

/-! ## What a step keeps -/

/-- Memory that holds no table can be written without any translation changing. -/
theorem translation_eq_of_agree {mem : ℕ → BitVec 9 → BitVec 64} (hpos : 0 < s.gLevels)
    (hagree : ∀ a ∈ s.tables m, mem a = s.mem a) (va : BitVec 64) :
    ({ s with mem := mem } : Paging).translation m va = s.translation m va := by
  refine Mmu.translate_eq_of_lookup_eq (TableTree.lookup_eq_of_agree hagree ?_)
  rw [length_indices]
  exact (Nat.sub_add_cancel hpos).le

theorem walkEnd_eq_of_agree {mem : ℕ → BitVec 9 → BitVec 64}
    (hagree : ∀ a ∈ s.tables m, mem a = s.mem a) (va : BitVec 64) :
    walkEnd m { s with mem := mem } va = walkEnd m s va :=
  TableTree.lookup_eq_of_agree hagree (by rw [length_indices])

theorem conforms_of_agree {mem : ℕ → BitVec 9 → BitVec 64} (hconf : s.Conforms m)
    (hagree : ∀ a ∈ s.tables m, mem a = s.mem a) :
    ({ s with mem := mem } : Paging).Conforms m := by
  intro p k a hlen hp i hv
  have hlt : p.length < s.gLevels := by
    change p.length + (k + 1) = s.gLevels at hlen
    omega
  have hp' : TableTree.descend m.next s.mem s.root p = some a :=
    (TableTree.descend_eq_of_agree hagree hlt.le).symm.trans hp
  have ha : mem a = s.mem a := hagree a ⟨p, hlt, hp'⟩
  change Pte.v (mem a i) = true at hv
  show m.Encoded (mem a i)
    ∧ ((Pte.r (mem a i) || Pte.x (mem a i)) = true → Pte.ppn (mem a i) % 2 ^ (9 * k) = 0)
  rw [ha] at hv ⊢
  exact hconf p k a hlen hp' i hv

/-- **One step** keeps the kernel in order, and what is in force. -/
theorem InOrder.step (hb : BootTree B m s₀ boot) (hboot : boot = s₁.started satp)
    (hroot : boot.gRootPhys ≠ 0#64) (h : InOrder B m s₀ boot s A)
    (hstep : KernelStep B R I satp boot.gLevels l₀ (s, A) (s', A')) :
    InOrder B m s₀ boot s' A'
      ∧ ∀ q₀ ∈ l₀, SomeRight q₀.flags → InForce m s q₀ → InForce m s' q₀ := by
  obtain ⟨call, hcall, hused, hproper⟩ := hstep
  have hthree := hb.three_le
  have hsame : call.start satp s = s := by
    cases call with
    | pagingInit => exact started_eq_self hboot h.gLevels h.gRootPhys h.unused
    | _ => rfl
  obtain ⟨T, hT⟩ := h.joint
  rcases hcall.cases' (by rw [hsame, h.gLevels]; omega) (by rw [hsame, h.gRootPhys]; exact hroot)
    with ⟨pmm, hclient, rfl⟩ | ⟨rfl, b, hbA, f, hf, words, rfl⟩ | ⟨rfl, r, hrun⟩
  · exact ⟨⟨hT.step hb (SystemStep.client hclient), h.conforms, h.unused⟩,
      fun _ _ _ hin => ⟨⟨hin.settled.virt_aligned, hin.settled.phys_aligned, hin.settled.root_ne,
        hin.settled.covered⟩, hin.maps⟩⟩
  · have hagree : ∀ a ∈ s.tables m, Function.update s.mem f words a = s.mem a := fun a ha =>
      Function.update_of_ne (fun he => hT.notMem_of_mem_tables hb ha b hbA (by
        rw [he]
        exact hf)) _ _
    refine ⟨⟨hT.step hb (SystemStep.store hbA hf words), conforms_of_agree h.conforms hagree,
      h.unused⟩, fun _ _ _ hin => ⟨⟨hin.settled.virt_aligned, hin.settled.phys_aligned,
      hin.settled.root_ne, ?_⟩, hin.maps.congr ?_⟩⟩
    · rw [walkEnd_eq_of_agree hagree]
      exact hin.settled.covered
    · exact translation_eq_of_agree (by rw [h.gLevels]; omega) hagree _
  · rw [hsame] at hrun
    exact h.mapRequests hb hproper hrun hused

/-- **A run** keeps the kernel in order, and what is in force. -/
theorem InOrder.run (hb : BootTree B m s₀ boot) (hboot : boot = s₁.started satp)
    (hroot : boot.gRootPhys ≠ 0#64) (h : InOrder B m s₀ boot s A)
    (hrun : KernelRun B R I satp boot memmap (s, A) (s', A')) :
    InOrder B m s₀ boot s' A'
      ∧ ∀ q₀ ∈ initRequests B memmap I, SomeRight q₀.flags → InForce m s q₀ →
        InForce m s' q₀ := by
  have key : ∀ y, KernelRun B R I satp boot memmap (s, A) y → InOrder B m s₀ boot y.1 y.2
      ∧ ∀ q₀ ∈ initRequests B memmap I, SomeRight q₀.flags → InForce m s q₀ →
        InForce m y.1 q₀ := by
    intro y hy
    induction hy with
    | refl => exact ⟨h, fun _ _ _ hin => hin⟩
    | tail _ hstep ih =>
      obtain ⟨horder, hkeeps⟩ := ih
      obtain ⟨horder', hkeeps'⟩ := horder.step hb hboot hroot hstep
      exact ⟨horder', fun q₀ hq₀ hflags hin => hkeeps' q₀ hq₀ hflags (hkeeps q₀ hq₀ hflags hin)⟩
  exact key (s', A') hrun

/-! ## After `paging_init` -/

/-- **A consistent run of requests that succeeds** puts all of them in force. -/
theorem inForce_of_mapRequests (h : Sound B m s) (hconf : s.Conforms m)
    (hgrant : ∀ q ∈ l, Grantable s.gLevels q) (hcons : Consistent s.gLevels l)
    (hrun : mapRequests B l s = some (true, s'))
    (hpool : s'.gEarlyPtPoolUsed = s.gEarlyPtPoolUsed ∨ PoolSound B m s) :
    ∀ q ∈ l, InForce m s' q := by
  have hmaps := mapRequests_maps h hconf hgrant hcons hrun hpool
  have hsettled : ∀ q ∈ l, Settled m s' q := by
    clear hmaps hconf
    induction l generalizing s with
    | nil => exact fun q hq => absurd hq List.not_mem_nil
    | cons q₀ l ih =>
      obtain ⟨t, hpage, hrest, hpool₁, hpool', heff⟩ := mapRequests_cons_true h hrun hpool
      have hih := ih heff.sound
        (fun q hq => heff.gLevels ▸ hgrant q (List.mem_cons_of_mem _ hq))
        (heff.gLevels ▸ hcons.of_cons) hrest hpool'
      refine List.forall_mem_cons.mpr ⟨?_, hih⟩
      by_cases hq₀ : q₀ ∈ l
      · exact hih q₀ hq₀
      · -- the rest asks for other pages
        refine (settled_of_pagingMapPage h (hgrant q₀ List.mem_cons_self).someRight hpage
          hpool₁).mapRequests heff.sound hrest hpool' (fun q hq he => hq₀ ?_)
        rw [heff.gLevels] at he
        exact hcons q₀ List.mem_cons_self q (List.mem_cons_of_mem _ hq) he ▸ hq
  exact fun q hq => ⟨hsettled q hq, hmaps q hq⟩

/-- **The state of a kernel that has booted** is in order, and all that `paging_init`
has asked for is in force. -/
theorem Booted.inOrder (hok : BootOk B m R I satp s₀ boot memmap)
    (h : Booted B R I satp boot memmap s A) :
    InOrder B m s₀ boot s A ∧ ∀ q ∈ initRequests B memmap I, InForce m s q := by
  obtain ⟨s₁, A₁, s₂, hbefore, hinit, hunused, hafter⟩ := h
  obtain ⟨⟨t, hearly⟩, hb, hconf, hmemmap, hplace⟩ := hok
  obtain ⟨hboot, hroot⟩ := pagingEarlyInit_spec hearly
  have hgrant := hplace.grantable
  have hstart : InOrder B m s₀ boot boot ∅ := ⟨⟨∅, joint_boot hb⟩, hconf, by rw [hboot]; rfl⟩
  have h₁ := (hstart.run hb hboot hroot hbefore).1
  have hsame := started_eq_self hboot h₁.gLevels h₁.gRootPhys h₁.unused
  -- `paging_init` starts from the tree that is in use
  rcases pagingInit_eq hinit with ⟨hr, -⟩ | ⟨memmap', hmemmap', -, -, hreq⟩
  · exact absurd hr (by simp)
  obtain rfl : memmap = memmap' := Option.some.inj (hmemmap.symm.trans hmemmap')
  rw [hsame] at hreq
  have hforce := inForce_of_mapRequests (h₁.sound hb) h₁.conforms (h₁.gLevels ▸ hgrant)
    (h₁.gLevels ▸ hplace.consistent hb.three_le hb.le_five) hreq
    (Or.inl (hunused.trans h₁.unused.symm))
  have h₂ := (h₁.mapRequests hb (hplace.proper hb.three_le hb.le_five) hreq hunused).1
  obtain ⟨horder, hkeeps⟩ := h₂.run hb hboot hroot hafter
  exact ⟨horder, fun q hq => hkeeps q hq (hgrant q hq).someRight (hforce q hq)⟩

/-- A page of memory is mapped through the direct map, to be read and written. -/
theorem Booted.maps_entry (h : Booted B R I satp boot memmap s A)
    (hok : BootOk B m R I satp s₀ boot memmap) {entry : LimineMemmapEntry} (he : entry ∈ memmap)
    {phys : BitVec 64} (hp : EntryPage entry phys) :
    s.Maps m (physToVirt B.hhdm phys) phys pagingProtRw := by
  obtain ⟨-, hforce⟩ := h.inOrder hok
  exact (hforce _ (hok.placement.mem_initRequests.mpr
    (Or.inl ⟨entry, he, hok.below_top entry he, phys, hp, rfl⟩))).maps.mono
      (fun _ => grants_rw_of_rwg)

/-- **What `paging_init` has mapped stays mapped**, in every state that the kernel comes
to afterwards: memory through the direct map, to be read and written, and the image
segment by segment. -/
theorem kernelMapped_of_booted (hok : BootOk B m R I satp s₀ boot memmap)
    (h : Booted B R I satp boot memmap s A) :
    (∀ entry ∈ memmap, ∀ phys, EntryPage entry phys →
        s.Maps m (physToVirt B.hhdm phys) phys pagingProtRw)
      ∧ ∀ segment ∈ pagingKernelSegmentList I, ∀ virt, SegmentPage segment virt →
        s.Maps m virt (B.imagePhys virt) segment.flags := by
  obtain ⟨-, hforce⟩ := h.inOrder hok
  refine ⟨fun entry he phys hp => h.maps_entry hok he hp, fun segment hs virt hv => ?_⟩
  exact (hforce _ (hok.placement.mem_initRequests.mpr
    (Or.inr ⟨segment, hs, virt, hv, rfl⟩))).maps

/-! ## Blocks of clients -/

/-- A frame of an entry is one of its pages. -/
theorem entryPage_of_entryFrame {entry : LimineMemmapEntry} {f : ℕ}
    (hbelow : entry.base.toNat + entry.length.toNat ≤ 2 ^ 56)
    (hf : Pfndb.EntryFrame entry f) : EntryPage entry (pfnPhys f) := by
  obtain ⟨hle, hlt⟩ := hf
  have hphys := toNat_pfnPhys f
  have hsum : (entry.base + entry.length).toNat = entry.base.toNat + entry.length.toNat := by
    rw [BitVec.toNat_add]
    omega
  unfold EntryPage
  rw [toNat_pageAlignDown, toNat_pageAlignUp, hsum, hphys]
  omega

theorem gMaxPfn_pfndbInitTurn (db : Pfndb) (entry : LimineMemmapEntry) :
    (db.pfndbInitTurn entry).gMaxPfn = db.gMaxPfn := by
  unfold Pfndb.pfndbInitTurn Pfndb.pfndbMarkRange
  dsimp only
  rw [Pfndb.foldl_setPage]
  split
  · split
    · rfl
    · split <;> rfl
  · rfl

theorem gMaxPfn_foldl_pfndbInitTurn (memmap : List LimineMemmapEntry) (db : Pfndb) :
    (memmap.foldl Pfndb.pfndbInitTurn db).gMaxPfn = db.gMaxPfn := by
  induction memmap generalizing db with
  | nil => rfl
  | cons entry entries ih => exact (ih _).trans (gMaxPfn_pfndbInitTurn db entry)

/-- **The frames that `pfndb_init` leaves free are those of the map that it leaves.** -/
theorem usableFrame_of_free {g : PfndbGlobals} {pages : ℕ → Page} {hhdm : BitVec 64}
    {memmap₀ : List LimineMemmapEntry} {f : ℕ} (hmap : Pfndb.BootMap memmap₀)
    (hrun : Pfndb.pfndbInit (Pfndb.bootGlobals pages) (some hhdm) (some memmap₀)
      = (g, some memmap)) (hg : g.gPfndb ≠ 0#64) (hle : f ≤ g.gMaxPfn)
    (hfree : (g.pages f).flags = Page.FREE) : Pfndb.UsableFrame memmap f := by
  obtain ⟨hest, hlt⟩ := Pfndb.established_pfndbInit hmap (congrArg Prod.fst hrun) hg
  obtain ⟨husable, hnot⟩ := (hest.free_iff f hle).mp hfree
  rcases hres : Pfndb.pfndbReserveStorageLoop
      (Pfndb.pfndbCalcMaxPfn (Pfndb.bootGlobals pages) memmap₀).pfndbStorageSize memmap₀
    with ⟨phys, memmap'⟩
  cases phys with
  | none =>
    rw [Pfndb.pfndbInit_of_none rfl hres] at hrun
    exact absurd (Prod.mk.inj hrun).1 (fun he => hg (by rw [← he]; rfl))
  | some phys =>
    by_cases hzero : phys = 0#64
    · subst hzero
      have hnone : (Pfndb.pfndbInit (Pfndb.bootGlobals pages) (some hhdm)
          (some memmap₀)).1.gPfndb = 0#64 := Pfndb.pfndbInit_of_zero hres
      rw [hrun] at hnone
      exact absurd hnone hg
    · obtain ⟨before, entry, after, rfl, rfl, hu, hsize, rfl⟩ :=
        Pfndb.pfndbReserveStorageLoop_spec hres
      rw [Pfndb.pfndbInit_of_some hzero hres] at hrun
      obtain ⟨rfl, hmemmap⟩ := Prod.mk.inj hrun
      obtain rfl := Option.some.inj hmemmap
      set size := (Pfndb.pfndbCalcMaxPfn (Pfndb.bootGlobals pages)
        (before ++ entry :: after)).pfndbStorageSize with hsizedef
      -- the storage is as large as the part that is cut off
      have hsame : Pfndb.pfndbStorageSize (List.foldl Pfndb.pfndbInitTurn
          (Pfndb.reservedDb (physToVirt hhdm entry.base)
            (List.foldl Pfndb.pfndbCalcMaxPfnTurn 0 (before ++ entry :: after))
            (Pfndb.bootGlobals pages).pages) (before ++ Pfndb.cut entry size :: after)) = size := by
        unfold Pfndb.pfndbStorageSize
        rw [gMaxPfn_foldl_pfndbInitTurn]
        rfl
      have haligned : size.toNat % 2 ^ 12 = 0 := by
        rw [← hsame, Pfndb.toNat_pfndbStorageSize (hlt.trans (by norm_num))]
        exact Nat.mul_mod_left _ _
      refine (Pfndb.usableFrame_cut_iff hmap hu hsize haligned).mpr ⟨husable, fun hin => hnot ?_⟩
      unfold Pfndb.StorageFrame
      dsimp only
      rw [hsame]
      exact hin

/-- **A page that a client may use**: it can be read and written, the frame behind it is
memory that the boot loader has reported as usable, and it serves nothing and nobody
else. -/
structure Usable (m : Mmu) (memmap₀ : List LimineMemmapEntry) (g : PfndbGlobals) (s : Paging)
    (A : Finset Block) (b : Block) (virt : BitVec 64) (f : ℕ) : Prop where
  mapped : s.Maps m virt (pfnPhys f) pagingProtRw
  usable : Pfndb.UsableFrame memmap₀ f
  notStorage : ¬ Pfndb.StorageFrame g f
  notTable : f ∉ s.tables m
  notFree : ¬ s.pmm.FreeFrame f
  alone : ∀ c ∈ A, f ∈ c → c = b

/-- A client's call is a step of the kernel. -/
theorem Booted.client {pmm : Pmm} (h : Booted B R I satp boot memmap s A)
    (hok : BootOk B m R I satp s₀ boot memmap)
    (hstep : Pmm.ClientStep B.hhdm (s.pmm, A) (pmm, A')) :
    KernelRun B R I satp boot memmap (s, A) ({ s with pmm := pmm }, A') :=
  Relation.ReflTransGen.single ⟨Call.client, BootStep.client hstep, (h.inOrder hok).1.unused,
    fun _ hq => absurd hq List.not_mem_nil⟩

/-- A kernel that has booted goes on as one. -/
theorem Booted.run (h : Booted B R I satp boot memmap s A)
    (hrun : KernelRun B R I satp boot memmap (s, A) (s', A')) :
    Booted B R I satp boot memmap s' A' := by
  obtain ⟨s₁, A₁, s₂, hbefore, hinit, hunused, hafter⟩ := h
  exact ⟨s₁, A₁, s₂, hbefore, hinit, hunused, hafter.trans hrun⟩

/-- The pages of a block in the direct map. -/
theorem pageAt_alias (hhdm : BitVec 64) (f i : ℕ) :
    pageAt (physToVirt hhdm (pfnPhys f)) i = physToVirt hhdm (pfnPhys (f + i)) := by
  rw [pageAt_physToVirt]
  refine congrArg _ (BitVec.eq_of_toNat_eq ?_)
  unfold pageAt
  rw [BitVec.toNat_add, toNat_pfnPhys, toNat_pfnPhys, BitVec.toNat_ofNat]
  omega

section Client

variable {memmap₀ : List LimineMemmapEntry} {pages : ℕ → Page} {g : PfndbGlobals}
  (hmap : Pfndb.BootMap memmap₀)
  (hpfndb : Pfndb.pfndbInit (Pfndb.bootGlobals pages) (some B.hhdm) (some memmap₀)
    = (g, some memmap))
  (hg : g.gPfndb ≠ 0#64) (hs₀ : s₀.toPfndb = g.toPfndb)
  (hok : BootOk B m R I satp s₀ boot memmap)
include hmap hpfndb hg hs₀ hok

/-- **Every page of a block that a client holds is usable**, through the direct map. -/
theorem Booted.usable (h : Booted B R I satp boot memmap s A) {b : Block} (hb : b ∈ A) {f : ℕ}
    (hf : f ∈ b) : Usable m memmap₀ g s A b (physToVirt B.hhdm (pfnPhys f)) f := by
  obtain ⟨⟨⟨T, hT⟩, -, -⟩, -⟩ := h.inOrder hok
  have hheld := Finset.mem_union_left T hb
  have husable := usable_of_held hT.represents hheld hf
  obtain ⟨hle, hfree⟩ := Pmm.mem_usableFrames.mp husable
  rw [hs₀] at hle hfree
  have hest := (Pfndb.established_pfndbInit hmap (congrArg Prod.fst hpfndb) hg).1
  obtain ⟨hin, hnot⟩ := (hest.free_iff f hle).mp hfree
  obtain ⟨entry, hentry, -, hframe⟩ := usableFrame_of_free hmap hpfndb hg hle hfree
  have hpage := entryPage_of_entryFrame (hok.placement.below entry hentry) hframe
  refine ⟨h.maps_entry hok hentry hpage, hin, hnot,
    fun ht => hT.notMem_of_mem_tables hok.tree ht b hb hf, fun hff => ?_, fun c hc hfc =>
      eq_of_held hT.represents (Finset.mem_union_left T hc) hheld hfc hf⟩
  obtain ⟨S, hinv, -⟩ := hT.represents
  exact ((freeFrame_iff hT.represents).mp ⟨hinv.ready, hff⟩).2 b hheld hf

/-- **The memory behind a pointer that `pmm_alloc` returns is the client's**, page by
page, until it frees the block: whatever clients do meanwhile, and whatever proper requests
are made with tables from `page_alloc`, every page can be read and written, and the frame
behind it is usable memory that holds no part of the page database and no page table, and
belongs to no other client. -/
theorem pmmAlloc_usable (h : Booted B R I satp boot memmap s A) {order : ℕ} {ptr : BitVec 64}
    {pmm : Pmm} (halloc : s.pmm.pmmAlloc B.hhdm order = some (ptr, pmm)) (hptr : ptr ≠ 0#64)
    {t : Paging} {b : Block} (hb : b = ⟨physPfn (virtToPhys B.hhdm ptr), order⟩)
    (hrun : KernelRun B R I satp boot memmap ({ s with pmm := pmm }, insert b A) (t, A'))
    (hheld : b ∈ A') :
    ∀ i < 2 ^ order, Usable m memmap₀ g t A' b (pageAt ptr i) (b.base + i) := by
  have hstep : Pmm.ClientStep B.hhdm (s.pmm, A) (pmm, insert b A) := by
    rw [hb]
    exact Pmm.ClientStep.pmmAlloc order halloc hptr
  have hbooted := (h.run (h.client hok hstep)).run hrun
  obtain ⟨⟨⟨T, hT⟩, -, -⟩, -⟩ := h.inOrder hok
  intro i hi
  have hmem : b.base + i ∈ b := by
    rw [Block.mem_def, hb]
    exact ⟨Nat.le_add_right _ _, Nat.add_lt_add_left hi _⟩
  -- the pointer is the alias of the first frame
  rcases Pmm.Represents.pmmAlloc_page hT.represents halloc with
    ⟨hnull, -⟩ | ⟨page, -, hpage, hpfn, -⟩
  · exact absurd hnull hptr
  · have hbase : b.base = page := by rw [hb, hpfn]
    rw [hpage, pageAt_alias, ← hbase]
    exact hbooted.usable hmap hpfndb hg hs₀ hok hheld hmem

end Client

/-! ## The test that `kmain` makes -/

section Client

variable {memmap₀ : List LimineMemmapEntry} {pages : ℕ → Page} {g : PfndbGlobals}
  (hmap : Pfndb.BootMap memmap₀)
  (hpfndb : Pfndb.pfndbInit (Pfndb.bootGlobals pages) (some B.hhdm) (some memmap₀)
    = (g, some memmap))
  (hg : g.gPfndb ≠ 0#64) (hs₀ : s₀.toPfndb = g.toPfndb)
  (hok : BootOk B m R I satp s₀ boot memmap)
include hmap hpfndb hg hs₀ hok

end Client

/-! A kernel over the memory map of three frames, which the boot loader has mapped by
superpages. -/

/-- What `pfndb_init` leaves of the memory map. -/
def cutFrames : List LimineMemmapEntry :=
  [{ base := 0x10#64, length := 0x1800#64, type := 1#64 },
    { base := 0x2000#64, length := 0x2000#64, type := limineMemmapUsable },
    { base := 0x80000000#64, length := 0x1000#64, type := 6#64 }]

/-- The page database that it makes. -/
def cutGlobals : PfndbGlobals :=
  (Pfndb.pfndbInit (Pfndb.bootGlobals (fun _ => Pfndb.zeroPage)) (some sv39Boot.hhdm)
    (some Pmm.threeFrames)).1

theorem pfndbInit_cutFrames :
    Pfndb.pfndbInit (Pfndb.bootGlobals (fun _ => Pfndb.zeroPage)) (some sv39Boot.hhdm)
      (some Pmm.threeFrames) = (cutGlobals, some cutFrames) := rfl

theorem cutGlobals_ne : cutGlobals.gPfndb ≠ 0#64 := by decide +kernel

/-- The memory manager before `pmm_init`. -/
def cutPmm : Pmm where
  toPfndb := cutGlobals.toPfndb
  gFreeLists := fun _ => { head := none, count := 0 }
  gFreePages := 0
  gTotalPages := 0
  gPmmReady := false

/-- The first gigabyte of memory and the one of the kernel in the direct map, and the
latter at its own place. -/
def superTree : Paging where
  pmm := cutPmm.pmmInit.2
  mem := fun _ i =>
    if i = 256#9 then 0xcf#64 else if i = 258#9 ∨ i = 510#9 then imagePte else 0#64
  gRootPhys := 0x10000#64
  gLevels := 3
  gEarlyPtPoolUsed := 0

/-- The register that names its root. -/
def superSatp : BitVec 64 := 0x8000000000000010#64

/-- The answers of the boot loader, after `pfndb_init`. -/
def superResponses : Responses := ⟨true, some cutFrames, true⟩

theorem superTree_cases (a : ℕ) (i : BitVec 9) :
    superTree.mem a i = 0xcf#64 ∨ superTree.mem a i = imagePte ∨ superTree.mem a i = 0#64 := by
  unfold superTree
  dsimp only
  split_ifs <;> simp

theorem not_pointer_superTree (a : ℕ) (i : BitVec 9) :
    Pte.pointer (superTree.mem a i) = false := by
  rcases superTree_cases a i with h | h | h <;> rw [h] <;> decide

theorem next_superTree (a : ℕ) (i : BitVec 9) : m.next (superTree.mem a i) = none := by
  unfold Mmu.next
  rw [not_pointer_superTree]
  rfl

theorem tables_superTree : superTree.tables m = {16} :=
  TableTree.tables_of_empty (show 0 < 3 by decide) (next_superTree 16)

theorem usableFrames_cutPmm : cutPmm.usableFrames = {2, 3} := by decide +kernel

theorem shows_sv39Boot_of_lt {f : ℕ} (hf : f < 32) : sv39Boot.Shows f := by
  unfold Boot.Shows
  interval_cases f <;> decide

theorem bootTree_superTree : BootTree sv39Boot m cutPmm superTree where
  bootDb := by
    obtain ⟨hest, hlt⟩ := Pfndb.established_pfndbInit Pmm.bootMap_threeFrames rfl cutGlobals_ne
    exact Pmm.bootDb_of_established hest cutGlobals_ne hlt rfl
  pmm := rfl
  three_le := by decide
  le_five := by decide
  root_page := by decide
  wellFormed := by
    refine ⟨TableTree.isTree_of_empty (next_superTree 16), fun _ a _ _ i hptr => ?_⟩
    rw [not_pointer_superTree] at hptr
    exact absurd hptr Bool.false_ne_true
  outside := by
    rw [tables_superTree, usableFrames_cutPmm]
    rintro a rfl
    decide
  shown := by
    rw [tables_superTree]
    rintro a rfl
    exact shows_sv39Boot_of_lt (by decide)
  usable_shown f hf := by
    rw [usableFrames_cutPmm] at hf
    refine shows_sv39Boot_of_lt ?_
    simp only [Finset.mem_insert, Finset.mem_singleton] at hf
    omega
  noNull := by
    intro pfn hle
    have hmax : cutPmm.gMaxPfn = 3 := by decide +kernel
    rw [hmax] at hle
    interval_cases pfn <;> decide

theorem conforms_superTree : superTree.Conforms Mmu.strict := by
  intro q k a hlen hq i hv
  obtain ⟨rfl, -⟩ := (TableTree.descend_eq_some_iff_of_empty (next_superTree superTree.root)).mp hq
  have hk : k = 2 := by
    change 0 + (k + 1) = 3 at hlen
    omega
  subst hk
  rcases superTree_cases a i with h | h | h <;> rw [h] at hv ⊢
  · exact ⟨⟨by decide, by decide, by decide⟩, fun _ => by decide⟩
  · exact ⟨⟨by decide, by decide, by decide⟩, fun _ => by decide⟩
  · exact absurd hv (by decide)

theorem placement_cutFrames : Placement sv39Boot 3 exampleImage cutFrames := by
  have hbelow : ∀ entry ∈ cutFrames, entry.base.toNat + entry.length.toNat ≤ 0x80001000 := by
    decide
  have hpage : ∀ entry ∈ cutFrames, ∀ phys, EntryPage entry phys → phys.toNat < 0x80001000 := by
    intro entry he phys hp
    have hle := hbelow entry he
    have hsum : (entry.base + entry.length).toNat = entry.base.toNat + entry.length.toNat := by
      rw [BitVec.toNat_add]
      omega
    obtain ⟨haligned, -, hlt⟩ := hp
    rw [toNat_pageAlignUp, hsum] at hlt
    omega
  have halias : ∀ phys : BitVec 64, phys.toNat < 0x80001000 →
      (physToVirt sv39Boot.hhdm phys).toNat = phys.toNat + 0xffffffc000000000 := by
    intro phys hlt
    show (phys + 0xffffffc000000000#64).toNat = _
    rw [BitVec.toNat_add, BitVec.toNat_ofNat]
    omega
  refine { placement_deviceMap with
    below := fun entry he => (hbelow entry he).trans (by decide)
    alias_fits := fun entry he phys hp => ?_
    alias_canonical := fun entry he phys hp => ?_
    alias_disjoint := fun entry he phys hp segment hs hv => ?_ }
  · have := hpage entry he phys hp
    show 0xffffffc000000000 + (phys.toNat + 2 ^ 12) ≤ 2 ^ 64
    omega
  · refine Or.inr ?_
    rw [halias phys (hpage entry he phys hp)]
    omega
  · have hlt := hpage entry he phys hp
    have hge := (segmentPage_exampleImage hs hv).1
    rw [halias phys hlt] at hge
    omega

theorem bootOk_superTree : BootOk sv39Boot Mmu.strict superResponses exampleImage superSatp
    cutPmm superTree cutFrames where
  early := ⟨superTree, rfl⟩
  tree := bootTree_superTree
  conforms := conforms_superTree
  responses := rfl
  placement := placement_cutFrames
  below_top := by decide

theorem booted_superTree : Booted sv39Boot superResponses exampleImage superSatp superTree
    cutFrames superTree ∅ :=
  ⟨superTree, ∅, superTree, Relation.ReflTransGen.refl, rfl, rfl, Relation.ReflTransGen.refl⟩

/-- The free frames, through the direct map. -/
theorem kernelMapped_of_booted_superTree :
    superTree.Maps Mmu.strict 0xffffffc000002000#64 0x2000#64 pagingProtRw :=
  (kernelMapped_of_booted bootOk_superTree booted_superTree).1
    { base := 0x2000#64, length := 0x2000#64, type := limineMemmapUsable } (by decide)
    0x2000#64 (by unfold EntryPage; decide)

/-- The state after one `pmm_alloc(1)`. -/
theorem pmmAlloc_usable_superTree :
    ∃ s, Usable Mmu.strict Pmm.threeFrames cutGlobals s {⟨2, 1⟩} ⟨2, 1⟩
      (pageAt 0xffffffc000002000#64 1) 3 :=
  ⟨_, pmmAlloc_usable Pmm.bootMap_threeFrames pfndbInit_cutFrames cutGlobals_ne rfl bootOk_superTree
    booted_superTree (show superTree.pmm.pmmAlloc sv39Boot.hhdm 1
      = some (0xffffffc000002000#64, _) from rfl) (by decide) rfl Relation.ReflTransGen.refl
    (by decide) 1 (by decide)⟩

end Paging
