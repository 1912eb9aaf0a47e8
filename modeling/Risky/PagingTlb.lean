import Risky.PagingKernel
import Risky.WalkCache

/-!
# The page-table code and the TLB

`paging_map_one` writes to the tables that the hardware is walking at the same time, from
its caches as well as from memory, and flushes one address, after it has written a leaf.
Here its stores and flushes are the effects of a program (`Paging.pagingMapPageEffects`), and
the hardware may walk, remember valid entries and forget them between any two of them.

At no time is an address translated otherwise than before or after the call, and only the
addresses of the page that is mapped can tell the two apart
(`Paging.mayTranslate_of_pagingMapPage`). When the calls are over all that is remembered is
what the tables say (`Paging.mayTranslate_of_mapRequests`). That the entries of new tables are not
flushed is all right as long as entries that are not valid are not remembered. What was
remembered before `paging_init` is of no account after it (`Paging.mayTranslate_of_pagingInit`).
-/

open WalkCache

namespace Mmu

variable {m : Mmu} {levels root a : ℕ} {mem mem' : ℕ → BitVec 9 → BitVec 64} {va : BitVec 64}

/-- **The hardware as a walker**, which remembers valid entries only. -/
def walker (m : Mmu) (levels : ℕ) : Walker ℕ (BitVec 64) where
  next := m.next
  levels := levels
  keeps e := Pte.v e = true

variable {C : Cache (m.walker levels) (BitVec 9)}

/-- **What an access to an address may be translated to**, or `none` for a page fault. -/
inductive MayTranslate (mem : ℕ → BitVec 9 → BitVec 64) (root : ℕ)
    (C : Cache (m.walker levels) (BitVec 9)) (va : BitVec 64) : Option (BitVec 64 × ℕ) → Prop where
  | noncanonical (hva : ¬ Canonical levels va) : MayTranslate mem root C va none
  | ends {r : BitVec 64 × ℕ} (hva : Canonical levels va)
      (h : Ends mem root C (indices va levels) r) :
      MayTranslate mem root C va (if m.leaf r.1 r.2 then some r else none)
  /-- A pointer at the last level. -/
  | last {e : BitVec 64} (hva : Canonical levels va)
      (h : Sees mem root C (indices va levels) e) (hnext : m.next e ≠ none) :
      MayTranslate mem root C va none

theorem translate_eq_bind (hpos : 0 < levels) (hva : Canonical levels va)
    {o : Option (BitVec 64 × ℕ)}
    (h : TableTree.lookup m.next mem root (indices va levels) = o) :
    m.translate mem levels root va
      = o.bind (fun el => if m.leaf el.1 el.2 then some el else none) := by
  rw [translate, if_pos hva, walk_eq_lookup, Nat.sub_add_cancel hpos, h]

/-- **With a coherent cache** the hardware translates as the tables say. -/
theorem mayTranslate_iff (hpos : 0 < levels) (hC : Coherent mem root ∅ C)
    (r : Option (BitVec 64 × ℕ)) :
    MayTranslate mem root C va r ↔ r = m.translate mem levels root va := by
  have hlen : (indices va levels).length ≤ (m.walker levels).levels := (length_indices va levels).le
  constructor
  · intro h
    cases h with
    | noncanonical hva => rw [translate, if_neg hva]
    | ends hva h =>
      exact (translate_eq_bind hpos hva ((hC.ends_iff hlen _).mp h)).symm
    | @last e hva h hnext =>
      have hmeets := (hC.meets (fun x hx => hx.elim) h).resolve_right (fun h => h.elim)
      exact (translate_eq_bind hpos hva (lookup_of_meets_last hmeets hnext)).symm
  · rintro rfl
    by_cases hva : Canonical levels va
    · cases hlookup : TableTree.lookup m.next mem root (indices va levels) with
      | some r =>
        rw [translate_eq_bind hpos hva hlookup]
        exact .ends hva ((hC.ends_iff hlen r).mpr hlookup)
      | none =>
        rw [translate_eq_bind hpos hva hlookup]
        have hne : indices va levels ≠ [] := fun hnil => by
          have hlength := congrArg List.length hnil
          rw [length_indices, List.length_nil] at hlength
          omega
        obtain ⟨e, hmeets, hnext⟩ :=
          exists_meets_of_lookup_eq_none (W := m.walker levels) hne hlookup
        exact .last hva (sees_of_meets hmeets hlen) hnext
    · rw [translate, if_neg hva]
      exact .noncanonical hva

/-- **With the old entry of a leaf left behind** it translates as the tables say or said. -/
theorem MayTranslate.old_or_new {q : List (BitVec 9)} {i : BitVec 9} {e : BitVec 64}
    {r : Option (BitVec 64 × ℕ)} (hpos : 0 < levels) (hlen : q.length + 1 = levels)
    (hq : TableTree.descend m.next mem root q = some a)
    (hC : Coherent (TableTree.write mem a i e) root
      (Left (m.walker levels) (q ++ [i]) (mem a i)) C)
    (h : MayTranslate (TableTree.write mem a i e) root C va r) :
    r = m.translate (TableTree.write mem a i e) levels root va
      ∨ indices va levels = q ++ [i] ∧ r = m.translate mem levels root va := by
  have hstale : ∀ x ∈ Left (m.walker levels) (q ++ [i]) (mem a i),
      (m.walker levels).next x.2 = none :=
    fun x hx => hx.2
  cases h with
  | noncanonical hva => exact Or.inl (by rw [translate, if_neg hva])
  | @ends r hva h =>
    obtain ⟨p, hsees, hp, hk, hnext⟩ := h
    rcases hC.meets hstale hsees with hmeets | ⟨hold, -⟩
    · have hlookup := lookup_of_meets hmeets hp hnext
      rw [← hk] at hlookup
      exact Or.inl (translate_eq_bind hpos hva hlookup).symm
    · obtain ⟨rfl, hr⟩ := Prod.mk.inj hold
      have heq : q ++ [i] = indices va levels := by
        refine hp.eq_of_length ?_
        rw [List.length_append, List.length_singleton, length_indices, hlen]
      have hmeets : Meets (m.walker levels) mem root (q ++ [i]) r.1 := ⟨q, i, a, rfl, hq, hr.symm⟩
      have hlookup := lookup_of_meets hmeets hp hnext
      rw [← hk] at hlookup
      exact Or.inr ⟨heq.symm, (translate_eq_bind hpos hva hlookup).symm⟩
  | @last e' hva h hnext =>
    rcases hC.meets hstale h with hmeets | hold
    · exact Or.inl (translate_eq_bind hpos hva (lookup_of_meets_last hmeets hnext)).symm
    · exact absurd hold.2 hnext

end Mmu

namespace Paging

variable {B : Boot} {m : Mmu} {virt phys flags va : BitVec 64} {s s' s₁ : Paging} {r : Bool}
variable {a c level levels root : ℕ}

/-! ## The effects of the calls -/

/-- What the calls do to the tables. -/
abbrev TableEffect := Effect ℕ (BitVec 9) (BitVec 64)

/-- `cpu_sfence_vma`: the leaves of an address are given up. -/
def cpuSfenceVma (levels : ℕ) (vaddr : BitVec 64) : TableEffect := .fence (indices vaddr levels)

/-- `cpu_sfence_vma_all`. -/
def cpuSfenceVmaAll : TableEffect := .flush

/-- `table[index] = entry`, as an effect. -/
def storeEffect (B : Boot) (table index entry : BitVec 64) : TableEffect :=
  .write (B.tablePage table) (index.setWidth 9) entry

/-- **The effects of the first half of a turn** (`pagingFetch`): the new table is zeroed, by
`paging_alloc_table`, and then linked. -/
def pagingFetchEffects (B : Boot) (s : Paging) (table index : BitVec 64) : List TableEffect :=
  if s.load B table index &&& pteV = 0#64 then
    match s.pagingAllocTable B with
    | none => []
    | some (newTable, _) =>
      if newTable = 0#64 then []
      else [.fill (B.tablePage newTable) 0#64,
        storeEffect B table index (pagingTablePte (virtToPhys B.hhdm newTable))]
  else []

/-- **The effects of `paging_map_one`**, from the table of a level on. -/
def pagingMapLevelEffects (B : Boot) (virtAddr physAddr flags : BitVec 64) :
    ℕ → BitVec 64 → Paging → List TableEffect
  | 0, table, s =>
    let pageIndex := pagingLevelIndex virtAddr 0
    let entry := s.load B table pageIndex
    if entry &&& pteV ≠ 0#64 ∧ pagingEntryCovers entry virtAddr physAddr flags 0 then []
    else [storeEffect B table pageIndex
        (((physAddr >>> pageShift) <<< 10) ||| pagingLeafFlags flags),
      cpuSfenceVma s.gLevels virtAddr]
  | level + 1, table, s =>
    s.pagingFetchEffects B table (pagingLevelIndex virtAddr (level + 1)) ++
      match s.pagingFetch B table (pagingLevelIndex virtAddr (level + 1)) with
      | none => []
      | some (none, _) => []
      | some (some entry, s) =>
        if entry &&& (pteR ||| pteW ||| pteX) ≠ 0#64 then []
        else pagingMapLevelEffects B virtAddr physAddr flags level
          (physToVirt B.hhdm (pagingPteToPhys entry)) s

/-- **The effects of `paging_map_page`.** -/
def pagingMapPageEffects (B : Boot) (s : Paging) (virtAddr physAddr flags : BitVec 64) :
    List TableEffect :=
  if virtAddr &&& (pageSize - 1#64) ≠ 0#64 ∨ physAddr &&& (pageSize - 1#64) ≠ 0#64
      ∨ s.gRootPhys = 0#64 then []
  else pagingMapLevelEffects B virtAddr physAddr flags (s.gLevels - 1) (s.pagingRootVirt B) s

/-! ## Assertions -/

/-- **The tables are those of a state**, and nothing else is remembered. -/
def AtRest (m : Mmu) (levels root : ℕ) (s : Paging) : Assertion (m.walker levels) (BitVec 9) :=
  fun mem C => mem = s.mem ∧ Coherent mem root ∅ C

/-- **Addresses are translated as in one state**, and those of one page perhaps as in another. -/
def Between (m : Mmu) (levels root : ℕ) (virt : BitVec 64) (s s' : Paging) :
    Assertion (m.walker levels) (BitVec 9) :=
  fun mem C => ∀ va t, Mmu.MayTranslate mem root C va t →
    t = s.translation m va ∨ indices va levels = indices virt levels ∧ t = s'.translation m va

theorem stable_atRest : Stable root (AtRest m levels root s) :=
  fun _ _ _ hP h => ⟨hP.1, hP.2.refills (fun _ hx => hx.elim) h⟩

theorem AtRest.between {mem : ℕ → BitVec 9 → BitVec 64} {C : Cache (m.walker levels) (BitVec 9)}
    (hpos : 0 < levels) (hlevels : s.gLevels = levels) (hroot : s.root = root)
    (h : AtRest m levels root s mem C) (virt : BitVec 64) (s' : Paging) :
    Between m levels root virt s s' mem C := by
  obtain ⟨rfl, hC⟩ := h
  subst hlevels hroot
  exact fun va t ht => Or.inl ((Mmu.mayTranslate_iff hpos hC t).mp ht)

/-! ## A new table -/

/-- **What a turn's first half does to the tables**: nothing, or it zeroes a table and links
it. -/
theorem pagingFetchEffects_spec (h : Sound B m s) (hpath : OnPath m virt s (level + 1) a)
    {o : Option (BitVec 64)}
    (hrun : s.pagingFetch B (physToVirt B.hhdm (pfnPhys a)) (pagingLevelIndex virt (level + 1))
      = some (o, s'))
    (hpool : s'.gEarlyPtPoolUsed = s.gEarlyPtPoolUsed ∨ PoolSound B m s) :
    s.pagingFetchEffects B (physToVirt B.hhdm (pfnPhys a)) (pagingLevelIndex virt (level + 1)) = []
        ∧ s' = s
      ∨ ∃ c s₁, Pte.v (s.mem a (vpn virt (level + 1))) = false ∧ Supplies B s c s₁
        ∧ Linkable B m s c s₁
        ∧ s.pagingFetchEffects B (physToVirt B.hhdm (pfnPhys a)) (pagingLevelIndex virt (level + 1))
          = [.fill c 0#64, .write a (vpn virt (level + 1)) (pagingTablePte (pfnPhys c))]
        ∧ s' = s₁.linkTable c a (vpn virt (level + 1)) := by
  have hload := load_of_onPath h hpath
  have hpage : B.tablePage (physToVirt B.hhdm (pfnPhys a)) = a := (h.shown a hpath.mem_tables).2.1
  unfold pagingFetchEffects
  unfold pagingFetch at hrun
  dsimp only at hrun
  rw [hload] at hrun ⊢
  by_cases hv : Pte.v (s.mem a (vpn virt (level + 1))) = true
  · rw [if_neg (and_pteV_ne_zero.mpr hv)] at hrun ⊢
    cases hrun
    exact Or.inl ⟨rfl, rfl⟩
  have habsent : Pte.v (s.mem a (vpn virt (level + 1))) = false := Bool.not_eq_true _ ▸ hv
  rw [if_pos (and_pteV_eq_zero.mpr habsent)] at hrun ⊢
  rcases pagingAllocTable_spec m h.stocked with
    ⟨-, halloc⟩ | ⟨c, s₁, t, hs, halloc, ht, hc, -, hphys⟩
  · rw [halloc] at hrun ⊢
    cases hrun
    exact Or.inl ⟨rfl, rfl⟩
  · rw [halloc] at hrun ⊢
    dsimp only at hrun ⊢
    rw [if_neg ht] at hrun ⊢
    cases hrun
    refine Or.inr ⟨c, s₁, habsent, hs, h.linkable hs hpool, ?_, ?_⟩
    · unfold storeEffect
      rw [hpage, setWidth_pagingLevelIndex, hphys hpool, hc]
    · unfold store memsetTable linkTable TableTree.link
      rw [hpage, setWidth_pagingLevelIndex, hphys hpool, hc]

/-- **The tables are those of a state**, and a page beside them is anything. -/
def Beside (m : Mmu) (levels root c : ℕ) (s : Paging) : Assertion (m.walker levels) (BitVec 9) :=
  fun mem C => (∀ b, b ≠ c → mem b = s.mem b) ∧ Coherent mem root ∅ C

section Beside

variable {mem mem' : ℕ → BitVec 9 → BitVec 64} {C : Cache (m.walker levels) (BitVec 9)}

theorem AtRest.beside (h : AtRest m levels root s mem C) (c : ℕ) : Beside m levels root c s mem C :=
  ⟨fun b _ => congrFun h.1 b, h.1 ▸ h.2⟩

theorem stable_beside : Stable root (Beside m levels root c s) :=
  fun _ _ _ hP h => ⟨hP.1, hP.2.refills (fun _ hx => hx.elim) h⟩

variable (hlevels : s.gLevels = levels) (hroot : s.root = root) (hc : c ∉ s.tables m)

include hlevels hroot hc

theorem Beside.agree (h : Beside m levels root c s mem C) :
    ∀ b ∈ m.tables mem levels root, mem b = s.mem b ∧ b ≠ c := by
  subst hlevels hroot
  have hagree : ∀ b ∈ s.tables m, mem b = s.mem b := fun b hb => h.1 b (fun heq => hc (heq ▸ hb))
  have htables : m.tables mem s.gLevels s.root = s.tables m := TableTree.tables_eq_of_agree hagree
  rw [htables]
  exact fun b hb => ⟨hagree b hb, fun heq => hc (heq ▸ hb)⟩

theorem Beside.of_ne (h : Beside m levels root c s mem C) (hmem : ∀ b, b ≠ c → mem' b = mem b) :
    Beside m levels root c s mem' C :=
  ⟨fun b hb => (hmem b hb).trans (h.1 b hb),
    h.2.of_agree (fun b hb => hmem b (h.agree hlevels hroot hc b hb).2)⟩

theorem Beside.between (hpos : 0 < levels) (h : Beside m levels root c s mem C) (virt : BitVec 64)
    (s' : Paging) : Between m levels root virt s s' mem C := by
  have hC : Coherent s.mem root ∅ C :=
    h.2.of_agree (fun b hb => (h.agree hlevels hroot hc b hb).1.symm)
  have htranslate : ∀ va, m.translate mem levels root va = s.translation m va := by
    intro va
    subst hlevels hroot
    refine Mmu.translate_eq_of_lookup_eq (TableTree.lookup_eq_of_agree (n := s.gLevels)
      (fun b hb => h.1 b (fun heq => hc (heq ▸ hb))) ?_)
    rw [length_indices]
    omega
  exact fun va t ht => Or.inl (((Mmu.mayTranslate_iff hpos h.2 t).mp ht).trans (htranslate va))

end Beside

/-- **Linking a new table** leaves all translations as they are, at any time. -/
theorem ensures_linkTable (h : Sound B m s) (hlevels : s.gLevels = levels) (hroot : s.root = root)
    (hpath : OnPath m virt s (level + 1) a)
    (habsent : Pte.v (s.mem a (vpn virt (level + 1))) = false) (hs : Supplies B s c s₁)
    (hl : Linkable B m s c s₁) (virt' : BitVec 64) (s' : Paging) :
    Ensures root (Between m levels root virt' s s') (AtRest m levels root s)
      [.fill c 0#64, .write a (vpn virt (level + 1)) (pagingTablePte (pfnPhys c))]
      (AtRest m levels root (s₁.linkTable c a (vpn virt (level + 1)))) := by
  have hpos : 0 < levels := by
    have := h.three_le
    omega
  have hbetween : ∀ mem C, Beside m levels root c s mem C →
      Between m levels root virt' s s' mem C :=
    fun _ _ hP => hP.between hlevels hroot hl.notMem hpos virt' s'
  have hfilled : Stable root (fun mem C => mem = TableTree.fill s.mem c 0#64
      ∧ Beside m levels root c s mem C) :=
    fun _ _ _ hP hwalk => ⟨hP.1, stable_beside _ _ _ hP.2 hwalk⟩
  have hfill : ∀ mem C, Beside m levels root c s mem C →
      TableTree.fill mem c 0#64 = TableTree.fill s.mem c 0#64
        ∧ Beside m levels root c s (TableTree.fill mem c 0#64) C := by
    intro mem C hP
    refine ⟨?_, hP.of_ne hlevels hroot hl.notMem (fun b hb => TableTree.fill_of_ne hb)⟩
    funext b
    by_cases hb : b = c
    · subst hb
      funext i
      rw [TableTree.fill_same, TableTree.fill_same]
    · rw [TableTree.fill_of_ne hb, TableTree.fill_of_ne hb, hP.1 b hb]
  have hlink : ∀ mem C, mem = TableTree.fill s.mem c 0#64 ∧ Beside m levels root c s mem C →
      AtRest m levels root (s₁.linkTable c a (vpn virt (level + 1)))
        (TableTree.write mem a (vpn virt (level + 1)) (pagingTablePte (pfnPhys c))) C := by
    rintro mem C ⟨rfl, hP⟩
    have hC : Coherent s.mem root ∅ C :=
      hP.2.of_agree (fun b hb => (hP.agree hlevels hroot hl.notMem b hb).1.symm)
    subst hlevels hroot
    obtain ⟨q, hq, hq'⟩ := hpath
    have hlen := OnPath.length hq'
    have hmem : (s₁.linkTable c a (vpn virt (level + 1))).mem
        = TableTree.link s.mem c 0#64 a (vpn virt (level + 1)) (pagingTablePte (pfnPhys c)) := by
      rw [Paging.linkTable, hl.mem]
    refine ⟨hmem.symm, ?_⟩
    -- the entry that is replaced is not valid, so it is not remembered
    exact hC.link h.wellFormed.isTree hq (show q.length < s.gLevels by omega)
      (Mmu.next_of_not_valid habsent) (fun hv => by
        rw [show Pte.v _ = true from hv] at habsent
        exact Bool.noConfusion habsent) hl.notMem
  have hgrew : Grew B m virt s (s₁.linkTable c a (vpn virt (level + 1))) :=
    ⟨level, a, c, s₁, hpath, habsent, hs, hl, rfl⟩
  obtain ⟨-, hext⟩ := Grew.extends h hgrew
  have hlinked : ∀ mem C, AtRest m levels root (s₁.linkTable c a (vpn virt (level + 1))) mem C →
      Between m levels root virt' s s' mem C := by
    intro mem C hP va t ht
    have hold := hP.between hpos (hext.gLevels.trans hlevels)
      ((hl.root_eq _).trans hroot) virt' s' va t ht
    rwa [hext.translation] at hold
  have hensures := ensures_fill stable_beside hbetween
    (fun _ _ _ hP => hP.of_ne hlevels hroot hl.notMem) hfill
    (ensures_write hfilled (fun _ _ hP => hbetween _ _ hP.2) hlink
      (ensures_nil stable_atRest hlinked))
  exact hensures.mono (fun _ _ => id) (fun _ _ hP => hP.beside c) (fun _ _ => id)

/-! ## A leaf -/

/-- **Writing a leaf and flushing its address**: until the flush is done the address may
still be translated as before. -/
theorem ensures_writeLeaf (h : Sound B m s) (hlevels : s.gLevels = levels) (hroot : s.root = root)
    (hpath : OnPath m virt s 0 a) (e : BitVec 64) (hs' : s' = { s with
      mem := TableTree.write s.mem a (vpn virt 0) e }) :
    Ensures root (Between m levels root virt s s') (AtRest m levels root s)
      [.write a (vpn virt 0) e, cpuSfenceVma levels virt] (AtRest m levels root s') := by
  subst hlevels hroot hs'
  have hpos : 0 < s.gLevels := by
    have := h.three_le
    omega
  obtain ⟨q, hq, hq'⟩ := hpath
  have hlen := OnPath.length hq'
  have hindices : q ++ [vpn virt 0] = indices virt s.gLevels := hq'
  set stale := Left (m.walker s.gLevels) (q ++ [vpn virt 0]) (s.mem a (vpn virt 0)) with hstale
  have hnone : ∀ x ∈ stale, (m.walker s.gLevels).next x.2 = none := fun x hx => hx.2
  set mem' := TableTree.write s.mem a (vpn virt 0) e with hmem'
  have hwrite : ∀ mem C, AtRest m s.gLevels s.root s mem C →
      TableTree.write mem a (vpn virt 0) e = mem'
        ∧ Coherent (TableTree.write mem a (vpn virt 0) e) s.root stale C := by
    rintro mem C ⟨rfl, hC⟩
    exact ⟨rfl, hC.write_last h.wellFormed.isTree hq (by show q.length + 1 = s.gLevels; omega)⟩
  have hstable : Stable s.root (fun mem (C : Cache (m.walker s.gLevels) (BitVec 9)) =>
      mem = mem' ∧ Coherent mem s.root stale C) :=
    fun _ _ _ hP hwalk => ⟨hP.1, hP.2.refills hnone hwalk⟩
  have hnew' : ∀ va t, t = m.translate mem' s.gLevels s.root va → t = s.translation m va
      ∨ indices va s.gLevels = indices virt s.gLevels
        ∧ t = ({ s with mem := mem' } : Paging).translation m va := by
    rintro va t rfl
    by_cases hva : indices va s.gLevels = indices virt s.gLevels
    · exact Or.inr ⟨hva, rfl⟩
    · exact Or.inl (Mmu.translate_write_last h.wellFormed hq (by omega) (hindices ▸ hva))
  have hpending : ∀ mem (C : Cache (m.walker s.gLevels) (BitVec 9)),
      mem = mem' ∧ Coherent mem s.root stale C →
        Between m s.gLevels s.root virt s { s with mem := mem' } mem C := by
    rintro mem C ⟨rfl, hC⟩ va t ht
    rcases ht.old_or_new hpos (by omega) hq hC with hnew | ⟨-, hold⟩
    · exact hnew' va t hnew
    · exact Or.inl hold
  have hfence : ∀ mem (C C' : Cache (m.walker s.gLevels) (BitVec 9)),
      mem = mem' ∧ Coherent mem s.root stale C →
        (∀ x ∈ C'.entries, x ∈ C.entries
          ∧ ¬ (x.1 <+: indices virt s.gLevels ∧ (m.walker s.gLevels).next x.2 = none)) →
        AtRest m s.gLevels s.root { s with mem := mem' } mem C' := by
    rintro mem C C' ⟨rfl, hC⟩ hkept
    refine ⟨rfl, fun x hx => Or.inl ?_⟩
    obtain ⟨hmem, hnot⟩ := hkept x hx
    refine (hC x hmem).resolve_right (fun hleft => hnot ⟨?_, hleft.2⟩)
    rw [hleft.1, hindices]
  have hdone : ∀ mem (C : Cache (m.walker s.gLevels) (BitVec 9)),
      AtRest m s.gLevels s.root { s with mem := mem' } mem C →
        Between m s.gLevels s.root virt s { s with mem := mem' } mem C := by
    rintro mem C ⟨rfl, hC⟩ va t ht
    exact hnew' va t ((Mmu.mayTranslate_iff hpos hC t).mp ht)
  exact ensures_write stable_atRest (fun _ _ hP => hP.between hpos rfl rfl virt _) hwrite
    (ensures_fence hstable hpending hfence (ensures_nil stable_atRest hdone))

/-! ## The calls -/

/-- A call that has nothing to do. -/
theorem ensures_nothing (hpos : 0 < levels) (hlevels : s.gLevels = levels) (hroot : s.root = root)
    (virt : BitVec 64) (s' : Paging) :
    Ensures root (Between m levels root virt s s') (AtRest m levels root s) []
      (AtRest m levels root s) :=
  ensures_nil stable_atRest (fun _ _ hP => hP.between hpos hlevels hroot virt s')

/-- **The first half of a turn.** -/
theorem ensures_fetch (h : Sound B m s) (hlevels : s.gLevels = levels) (hroot : s.root = root)
    (hpath : OnPath m virt s (level + 1) a) {o : Option (BitVec 64)}
    (hrun : s.pagingFetch B (physToVirt B.hhdm (pfnPhys a)) (pagingLevelIndex virt (level + 1))
      = some (o, s₁))
    (hpool : s₁.gEarlyPtPoolUsed = s.gEarlyPtPoolUsed ∨ PoolSound B m s) (virt' : BitVec 64)
    (s' : Paging) :
    Ensures root (Between m levels root virt' s s') (AtRest m levels root s)
      (s.pagingFetchEffects B (physToVirt B.hhdm (pfnPhys a)) (pagingLevelIndex virt (level + 1)))
      (AtRest m levels root s₁) := by
  have hpos : 0 < levels := by
    have := h.three_le
    omega
  rcases pagingFetchEffects_spec h hpath hrun hpool with
    ⟨heffects, rfl⟩ | ⟨c, s₂, habsent, hs, hl, heffects, rfl⟩
  · rw [heffects]
    exact ensures_nothing hpos hlevels hroot virt' s'
  · rw [heffects]
    exact ensures_linkTable h hlevels hroot hpath habsent hs hl virt' s'

/-- **The loop of `paging_map_one`**: one table after the other, and the leaf. -/
theorem ensures_mapLevel (h : Sound B m s) (hlevels : s.gLevels = levels) (hroot : s.root = root)
    (hpath : OnPath m virt s level a)
    (hrun : pagingMapLevel B virt phys flags level (physToVirt B.hhdm (pfnPhys a)) s
      = some (r, s'))
    (hpool : s'.gEarlyPtPoolUsed = s.gEarlyPtPoolUsed ∨ PoolSound B m s) :
    Ensures root (Between m levels root virt s s') (AtRest m levels root s)
      (pagingMapLevelEffects B virt phys flags level (physToVirt B.hhdm (pfnPhys a)) s)
      (AtRest m levels root s') := by
  have hpos : 0 < levels := by
    have := h.three_le
    omega
  induction level generalizing s a with
  | zero =>
    have hpage : B.tablePage (physToVirt B.hhdm (pfnPhys a)) = a :=
      (h.shown a hpath.mem_tables).2.1
    unfold pagingMapLevel load store at hrun
    unfold pagingMapLevelEffects load storeEffect
    dsimp only at hrun ⊢
    rw [hpage, setWidth_pagingLevelIndex] at hrun ⊢
    subst hlevels
    split at hrun
    · next hcov =>
      cases hrun
      rw [if_pos hcov]
      exact ensures_nothing hpos rfl hroot virt _
    · next hcov =>
      cases hrun
      rw [if_neg hcov]
      exact ensures_writeLeaf h rfl hroot hpath _ rfl
  | succ level ih =>
    unfold pagingMapLevel at hrun
    unfold pagingMapLevelEffects
    obtain ⟨o, hfetch⟩ : ∃ o, s.pagingFetch B (physToVirt B.hhdm (pfnPhys a))
      (pagingLevelIndex virt (level + 1)) = o := ⟨_, rfl⟩
    rw [hfetch] at hrun ⊢
    rcases o with _ | ⟨_ | e, s₁⟩
    · exact absurd hrun (by simp)
    · cases hrun
      rw [List.append_nil]
      exact ensures_fetch h hlevels hroot hpath hfetch hpool virt s'
    · dsimp only at hrun ⊢
      have hle := pool_le_of_pagingFetch hfetch
      have hle' : s₁.gEarlyPtPoolUsed ≤ s'.gEarlyPtPoolUsed := by
        split at hrun
        · cases hrun
          exact le_rfl
        · exact pool_le_of_pagingMapLevel hrun
      have hpool₁ : s₁.gEarlyPtPoolUsed = s.gEarlyPtPoolUsed ∨ PoolSound B m s :=
        hpool.imp_left (fun heq => le_antisymm (heq ▸ hle') hle)
      have hfetched := ensures_fetch h hlevels hroot hpath hfetch hpool₁ virt s'
      rcases pagingFetch_spec h hpath hfetch hpool₁ with ⟨he, -⟩ | ⟨he, hf⟩
      · exact absurd he (by simp)
      cases he
      split at hrun
      · next hrwx =>
        cases hrun
        rw [if_pos hrwx, List.append_nil]
        exact hfetched
      · -- a pointer, from which it goes on
        next hrwx =>
        rw [if_neg hrwx]
        obtain ⟨hhigh, hnext⟩ := hf.onPath.pointer hf.sound
          (Pte.pointer_eq_true_iff.mpr ⟨hf.valid, and_rwx_eq_zero.mp (not_not.mp hrwx)⟩)
        rw [pagingPteToPhys_eq hhigh] at hrun ⊢
        have hpool₂ : s'.gEarlyPtPoolUsed = s₁.gEarlyPtPoolUsed ∨ PoolSound B m s₁ :=
          hpool.imp (fun heq => le_antisymm (heq ▸ hle) hle') hf.pool
        have hext : Extends B m s s₁ := by
          rcases hf.grew with rfl | hg
          · exact Extends.refl B m _
          · exact (Grew.extends h hg).2
        have hrest := ih hf.sound (hext.gLevels.trans hlevels)
          ((congrArg physPfn hext.gRootPhys).trans hroot) (hf.onPath.step hnext) hrun hpool₂
        refine hfetched.append
          (hrest.mono (fun mem C hP va t ht => ?_) (fun _ _ => id) (fun _ _ => id))
        have hold := hP va t ht
        rwa [hext.translation] at hold

/-- **`paging_map_page`.** -/
theorem ensures_mapPage (h : Sound B m s) (hlevels : s.gLevels = levels) (hroot : s.root = root)
    (hrun : s.pagingMapPage B virt phys flags = some (r, s'))
    (hpool : s'.gEarlyPtPoolUsed = s.gEarlyPtPoolUsed ∨ PoolSound B m s) :
    Ensures root (Between m levels root virt s s') (AtRest m levels root s)
      (s.pagingMapPageEffects B virt phys flags) (AtRest m levels root s') := by
  have hthree := h.three_le
  unfold pagingMapPage at hrun
  unfold pagingMapPageEffects
  split at hrun
  · next hbad =>
    cases hrun
    rw [if_pos hbad]
    exact ensures_nothing (by omega) hlevels hroot virt _
  · next hgood =>
    rw [if_neg hgood]
    unfold pagingMapOne pagingRootVirt at hrun
    unfold pagingRootVirt
    rw [← h.root_page] at hrun ⊢
    exact ensures_mapLevel h hlevels hroot (onPath_root virt (by omega)) hrun hpool

/-- **A page is mapped under the hardware's eyes.** While `paging_map_page` is writing, and
whatever the hardware has remembered and walks meanwhile, an address is translated as before
the call, or as after it if it is in the page that is mapped; and when the call is over, all
addresses are translated as the tables now say. -/
theorem mayTranslate_of_pagingMapPage (h : Sound B m s) (hcanon : Canonical s.gLevels virt)
    (hrun : s.pagingMapPage B virt phys flags = some (r, s'))
    (hpool : s'.gEarlyPtPoolUsed = s.gEarlyPtPoolUsed ∨ PoolSound B m s)
    {C : Cache (m.walker s.gLevels) (BitVec 9)} (hC : Coherent s.mem s.root ∅ C)
    {x : Config (m.walker s.gLevels) (BitVec 9)}
    (hx : Reaches s.root ⟨s.pagingMapPageEffects B virt phys flags, s.mem, C⟩ x) :
    (∀ va t, Mmu.MayTranslate x.mem s.root x.cache va t → t = s.translation m va
        ∨ va.toNat / 2 ^ 12 = virt.toNat / 2 ^ 12 ∧ t = s'.translation m va)
      ∧ (x.todo = [] → x.mem = s'.mem ∧
        ∀ va t, Mmu.MayTranslate x.mem s.root x.cache va t ↔ t = s'.translation m va) := by
  have hthree := h.three_le
  obtain ⟨hbetween, hdone⟩ := ensures_mapPage h rfl rfl hrun hpool s.mem C ⟨rfl, hC⟩ x hx
  have heffect := mapEffect_of_pagingMapPage h hrun hpool
  refine ⟨fun va t ht => ?_, fun hnil => ⟨(hdone hnil).1, fun va t => ?_⟩⟩
  · rcases hbetween va t ht with hold | ⟨hindices, hnew⟩
    · exact Or.inl hold
    · by_cases hva : Canonical s.gLevels va
      · exact Or.inr ⟨page_eq_of_indices_eq h.three_le h.le_five hva hcanon hindices, hnew⟩
      · -- no address that is not canonical is translated
        refine Or.inl (hnew.trans ?_)
        unfold translation Mmu.translate
        rw [heffect.gLevels, if_neg hva, if_neg hva]
  · rw [Mmu.mayTranslate_iff (by omega) (hdone hnil).2, (hdone hnil).1, translation,
      heffect.gLevels,
      show s'.root = s.root from congrArg physPfn heffect.gRootPhys]

/-- The first page of the higher half is mapped to a device page, over an empty tree and with
nothing remembered. -/
theorem mayTranslate_of_pagingMapPage_emptyTree :
    ∃ s' : Paging, ∃ x : Config (Mmu.strict.walker 3) (BitVec 9), x.todo = [] ∧ x.mem = s'.mem ∧
      ∀ va t, Mmu.MayTranslate x.mem 2 x.cache va t ↔ t = s'.translation Mmu.strict va := by
  obtain ⟨C, hreach⟩ := exists_reaches emptyTree.root (emptyTree.pagingMapPageEffects exampleBoot
    0xffffffc000000000#64 0x10000000#64 pagingProtRwg) emptyTree.mem
    (Cache.empty (Mmu.strict.walker 3) (BitVec 9))
  exact ⟨_, _, rfl, (mayTranslate_of_pagingMapPage sound_emptyTree (by decide)
    (show emptyTree.pagingMapPage exampleBoot 0xffffffc000000000#64 0x10000000#64 pagingProtRwg
      = some (true, _) from rfl) (Or.inl rfl) (coherent_empty ∅) hreach).2 rfl⟩

/-! ## Runs of calls -/

/-- **The effects of one call after the other**, up to the first that is refused. -/
def mapRequestsEffects (B : Boot) : List MapRequest → Paging → List TableEffect
  | [], _ => []
  | q :: l, s => s.pagingMapPageEffects B q.virt q.phys q.flags ++
      match s.pagingMapPage B q.virt q.phys q.flags with
      | none => []
      | some (false, _) => []
      | some (true, s) => mapRequestsEffects B l s

/-- **Addresses are translated as between two of the calls**, and those of no page that is
mapped as before all of them. -/
def Along (B : Boot) (m : Mmu) (levels root : ℕ) (l : List MapRequest) (s : Paging) :
    Assertion (m.walker levels) (BitVec 9) :=
  fun mem C => ∀ va t, Mmu.MayTranslate mem root C va t →
    (∃ l₁ r s₁, l₁ <+: l ∧ mapRequests B l₁ s = some (r, s₁) ∧ t = s₁.translation m va)
      ∧ ((∀ q ∈ l, indices va levels ≠ indices q.virt levels) → t = s.translation m va)

/-- **A run of calls.** -/
theorem ensures_mapRequests {l : List MapRequest} (h : Sound B m s) (hlevels : s.gLevels = levels)
    (hroot : s.root = root) (hrun : mapRequests B l s = some (r, s'))
    (hpool : s'.gEarlyPtPoolUsed = s.gEarlyPtPoolUsed ∨ PoolSound B m s) :
    (s'.gLevels = levels ∧ s'.root = root)
      ∧ Ensures root (Along B m levels root l s) (AtRest m levels root s) (mapRequestsEffects B l s)
        (AtRest m levels root s') := by
  have hpos : 0 < levels := by
    have := h.three_le
    omega
  induction l generalizing s with
  | nil =>
    cases hrun
    refine ⟨⟨hlevels, hroot⟩, ensures_nil stable_atRest (fun mem C hP va t ht => ?_)⟩
    rcases hP.between hpos hlevels hroot 0#64 s' va t ht with hold | ⟨-, hold⟩ <;>
      exact ⟨⟨[], true, s', List.prefix_refl _, rfl, hold⟩, fun _ => hold⟩
  | cons q l ih =>
    -- the first call, and what can be seen of it
    have hfirst : ∀ {ok : Bool} {t : Paging},
        s.pagingMapPage B q.virt q.phys q.flags = some (ok, t) →
          (t.gEarlyPtPoolUsed = s.gEarlyPtPoolUsed ∨ PoolSound B m s) →
          (t.gLevels = levels ∧ t.root = root)
            ∧ Ensures root (Along B m levels root (q :: l) s) (AtRest m levels root s)
              (s.pagingMapPageEffects B q.virt q.phys q.flags) (AtRest m levels root t) := by
      intro ok t hpage hpool₁
      have heffect := mapEffect_of_pagingMapPage h hpage hpool₁
      refine ⟨⟨heffect.gLevels.trans hlevels, (congrArg physPfn heffect.gRootPhys).trans hroot⟩,
        (ensures_mapPage h hlevels hroot hpage hpool₁).mono (fun mem C hP va o ho => ?_)
          (fun _ _ => id) (fun _ _ => id)⟩
      have hone : mapRequests B [q] s = some (ok, t) := by
        unfold mapRequests
        rw [hpage]
        cases ok <;> rfl
      rcases hP va o ho with hold | ⟨hindices, hnew⟩
      · exact ⟨⟨[], true, s, List.nil_prefix, rfl, hold⟩, fun _ => hold⟩
      · exact ⟨⟨[q], ok, t, (List.prefix_cons_inj q).mpr List.nil_prefix, hone, hnew⟩,
          fun hnone => absurd hindices (hnone q List.mem_cons_self)⟩
    unfold mapRequests at hrun
    unfold mapRequestsEffects
    obtain ⟨o, hpage⟩ : ∃ o, s.pagingMapPage B q.virt q.phys q.flags = o := ⟨_, rfl⟩
    rw [hpage] at hrun ⊢
    rcases o with _ | ⟨_ | _, t⟩
    · exact absurd hrun (by simp)
    · cases hrun
      rw [List.append_nil]
      exact hfirst hpage hpool
    · dsimp only at hrun ⊢
      have hle := pool_le_of_pagingMapPage hpage
      have hle' := pool_le_of_mapRequests hrun
      have hpool₁ : t.gEarlyPtPoolUsed = s.gEarlyPtPoolUsed ∨ PoolSound B m s :=
        hpool.imp_left (fun heq => le_antisymm (heq ▸ hle') hle)
      have heffect := mapEffect_of_pagingMapPage h hpage hpool₁
      obtain ⟨⟨hlevels₁, hroot₁⟩, hstart⟩ := hfirst hpage hpool₁
      obtain ⟨hkept, hrest⟩ := ih heffect.sound hlevels₁ hroot₁ hrun
        (hpool.imp (fun heq => le_antisymm (heq ▸ hle) hle') heffect.pool)
      refine ⟨hkept, hstart.append (hrest.mono (fun mem C hP va o ho => ?_)
        (fun _ _ => id) (fun _ _ => id))⟩
      obtain ⟨⟨l₁, ok, s₁, hprefix, hl₁, hs₁⟩, hframe⟩ := hP va o ho
      refine ⟨⟨q :: l₁, ok, s₁, (List.prefix_cons_inj q).mpr hprefix, ?_, hs₁⟩, fun hnone => ?_⟩
      · rw [mapRequests_cons, hpage]
        exact hl₁
      · rw [hframe (fun q' hq' => hnone q' (List.mem_cons_of_mem q hq'))]
        exact heffect.frame va (hlevels ▸ hnone q List.mem_cons_self)

/-- **A run of calls under the hardware's eyes.** At any time an address is translated as
after some of the calls, and one of no page that is mapped as before them all; and when the
calls are over, all addresses are translated as the tables now say. -/
theorem mayTranslate_of_mapRequests {l : List MapRequest} (h : Sound B m s)
    (hrun : mapRequests B l s = some (r, s'))
    (hpool : s'.gEarlyPtPoolUsed = s.gEarlyPtPoolUsed ∨ PoolSound B m s)
    {C : Cache (m.walker s.gLevels) (BitVec 9)} (hC : Coherent s.mem s.root ∅ C)
    {x : Config (m.walker s.gLevels) (BitVec 9)}
    (hx : Reaches s.root ⟨mapRequestsEffects B l s, s.mem, C⟩ x) :
    (∀ va t, Mmu.MayTranslate x.mem s.root x.cache va t →
        (∃ l₁ r₁ s₁, l₁ <+: l ∧ mapRequests B l₁ s = some (r₁, s₁) ∧ t = s₁.translation m va)
          ∧ ((∀ q ∈ l, indices va s.gLevels ≠ indices q.virt s.gLevels) →
            t = s.translation m va))
      ∧ (x.todo = [] → x.mem = s'.mem ∧
        ∀ va t, Mmu.MayTranslate x.mem s.root x.cache va t ↔ t = s'.translation m va) := by
  have hthree := h.three_le
  obtain ⟨⟨hlevels, hroot⟩, hensures⟩ := ensures_mapRequests h rfl rfl hrun hpool
  obtain ⟨halong, hdone⟩ := hensures s.mem C ⟨rfl, hC⟩ x hx
  refine ⟨halong, fun hnil => ⟨(hdone hnil).1, fun va t => ?_⟩⟩
  rw [Mmu.mayTranslate_iff (by omega) (hdone hnil).2, (hdone hnil).1, translation, hlevels, hroot]

/-- Two device pages in a row, over an empty tree. -/
def deviceRequests : List MapRequest :=
  [⟨0xffffffc000000000#64, 0x10000000#64, pagingProtRwg⟩,
    ⟨0xffffffc000001000#64, 0x10001000#64, pagingProtRwg⟩]

theorem mapRequests_deviceRequests : (mapRequests exampleBoot deviceRequests emptyTree).map
    (fun o => (o.1, o.2.gEarlyPtPoolUsed)) = some (true, 0) := by
  decide +kernel

theorem mayTranslate_of_mapRequests_emptyTree :
    ∃ s' : Paging, ∃ x : Config (Mmu.strict.walker 3) (BitVec 9), x.todo = [] ∧ x.mem = s'.mem ∧
      ∀ va t, Mmu.MayTranslate x.mem 2 x.cache va t ↔ t = s'.translation Mmu.strict va := by
  obtain ⟨⟨ok, s'⟩, hrun, hend⟩ := Option.map_eq_some_iff.mp mapRequests_deviceRequests
  obtain ⟨C, hreach⟩ := exists_reaches emptyTree.root (mapRequestsEffects exampleBoot deviceRequests
    emptyTree) emptyTree.mem (Cache.empty (Mmu.strict.walker 3) (BitVec 9))
  exact ⟨s', _, rfl, (mayTranslate_of_mapRequests sound_emptyTree hrun
    (Or.inl (Prod.mk.inj hend).2) (coherent_empty ∅) hreach).2 rfl⟩

/-! ## After `paging_init` -/

/-- **The effects of `paging_init`.** -/
def pagingInitEffects (B : Boot) (R : Responses) (I : KernelImage) (satp : BitVec 64) (s : Paging) :
    List TableEffect :=
  match s.pagingInit B R I satp with
  | none => []
  | some (ok, _) =>
    if !(({ s with gEarlyPtPoolUsed := 0 } : Paging).pagingSetupRoot satp).1 || !R.hhdm
        || R.memmap.isNone || !R.executableAddress then []
    else mapRequestsEffects B (initRequests B (R.memmap.getD []) I) (s.started satp)
      ++ if ok then [cpuSfenceVmaAll] else []

/-- **After `paging_init` all addresses are translated as the tables say**, whatever was
remembered before it: of what the boot loader had mapped, and of what it had not. -/
theorem mayTranslate_of_pagingInit {R : Responses} {I : KernelImage} {satp : BitVec 64}
    (h : Sound B m (s.started satp)) (hrun : s.pagingInit B R I satp = some (true, s'))
    (hpool : s'.gEarlyPtPoolUsed = 0 ∨ PoolSound B m (s.started satp))
    {C : Cache (m.walker (s.started satp).gLevels) (BitVec 9)}
    {x : Config (m.walker (s.started satp).gLevels) (BitVec 9)}
    (hx : Reaches (s.started satp).root ⟨s.pagingInitEffects B R I satp, s.mem, C⟩ x)
    (hnil : x.todo = []) :
    x.mem = s'.mem ∧ ∀ va t, Mmu.MayTranslate x.mem (s.started satp).root x.cache va t ↔
      t = s'.translation m va := by
  have hthree := h.three_le
  rcases pagingInit_eq hrun with ⟨hr, -⟩ | ⟨memmap, hmemmap, hhhdm, hexec, hreq⟩
  · exact absurd hr (by simp)
  have hok : (({ s with gEarlyPtPoolUsed := 0 } : Paging).pagingSetupRoot satp).1 = true := by
    unfold pagingInit at hrun
    dsimp only at hrun
    split at hrun
    · exact absurd hrun (by simp)
    · next hgood =>
      simp only [Bool.or_eq_true, Bool.not_eq_true', not_or, Bool.not_eq_false] at hgood
      exact hgood.1.1.1
  have heffects : s.pagingInitEffects B R I satp
      = mapRequestsEffects B (initRequests B memmap I) (s.started satp) ++ [.flush] := by
    unfold pagingInitEffects
    rw [hrun, hmemmap, hhhdm, hexec]
    dsimp only
    rw [hok]
    rfl
  rw [heffects] at hx
  obtain ⟨⟨hlevels, hroot⟩, hensures⟩ := ensures_mapRequests h rfl rfl hreq hpool
  obtain ⟨hmem, hC⟩ := coherent_of_flush hx hnil
  -- the tables do not depend on what was remembered, so nothing may have been
  have hend : x.mem = s'.mem := hmem.trans (hensures.run_eq (fun _ _ hQ => hQ.1)
    (⟨rfl, coherent_empty ∅⟩ : AtRest m _ _ (s.started satp) s.mem (Cache.empty _ _)))
  refine ⟨hend, fun va t => ?_⟩
  rw [Mmu.mayTranslate_iff (by omega) hC, hend, translation, hlevels, hroot]

/-- A leaf of the boot loader's, of which nothing is left in the tables. -/
def staleCache : Cache (Mmu.strict.walker 3) (BitVec 9) where
  entries := {([0#9], imagePte)}
  length_le x hx := by
    rw [Set.mem_singleton_iff.mp hx]
    exact (show 1 ≤ 3 by decide)
  keeps x hx := by
    rw [Set.mem_singleton_iff.mp hx]
    exact (show Pte.v imagePte = true by decide)
  last x hx hlen := by
    rw [Set.mem_singleton_iff.mp hx] at hlen
    exact absurd hlen (show ¬ (1 = 3) by decide)

theorem mayTranslate_of_pagingInit_imageTree :
    ∃ s' : Paging, ∃ x : Config (Mmu.strict.walker 3) (BitVec 9), x.todo = [] ∧ x.mem = s'.mem ∧
      ∀ va t, Mmu.MayTranslate x.mem 2 x.cache va t ↔ t = s'.translation Mmu.strict va := by
  obtain ⟨C, hreach⟩ := exists_reaches imageTree.root (imageTree.pagingInitEffects sv39Boot
    ⟨true, some deviceMap, true⟩ exampleImage exampleSatp) imageTree.mem staleCache
  exact ⟨_, _, rfl, mayTranslate_of_pagingInit sound_imageTree
    (show imageTree.pagingInit sv39Boot ⟨true, some deviceMap, true⟩ exampleImage exampleSatp
      = some (true, _) from rfl) (Or.inl rfl) hreach rfl⟩

end Paging
