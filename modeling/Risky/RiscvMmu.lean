import Risky.TableTree

/-!
# The RISC-V page-table walk

Address translation as the privileged architecture has it for Sv39, Sv48 and
Sv57, which differ in the number of levels only. The memory is read as tables
of 512 entries, named by their physical page numbers.

Which of the reserved encodings an implementation faults on is left open
(`Mmu`). Nothing depends on it for trees that use none of them, and these are
the trees the results are about (`Mmu.WellFormed`).

The walk is a walk of `TableTree` (`Mmu.walk_eq_lookup`), whose lemmas on
writes so carry over to translations.
-/

/-! ## Page-table entries and virtual addresses -/

namespace Pte

/-- The valid bit. -/
def v (e : BitVec 64) : Bool := e.getLsbD 0

/-- The read bit. -/
def r (e : BitVec 64) : Bool := e.getLsbD 1

/-- The write bit. -/
def w (e : BitVec 64) : Bool := e.getLsbD 2

/-- The execute bit. -/
def x (e : BitVec 64) : Bool := e.getLsbD 3

/-- The user bit. -/
def u (e : BitVec 64) : Bool := e.getLsbD 4

/-- The accessed bit. -/
def a (e : BitVec 64) : Bool := e.getLsbD 6

/-- The dirty bit. -/
def d (e : BitVec 64) : Bool := e.getLsbD 7

/-- The physical page number, bits 53 to 10. -/
def ppn (e : BitVec 64) : ℕ := (e.extractLsb' 10 44).toNat

/-- The bits 63 to 54. -/
def high (e : BitVec 64) : BitVec 10 := e.extractLsb' 54 10

theorem ppn_lt (e : BitVec 64) : ppn e < 2 ^ 44 := BitVec.isLt _

theorem ppn_eq (e : BitVec 64) : ppn e = e.toNat / 2 ^ 10 % 2 ^ 44 := by
  unfold ppn
  rw [BitVec.extractLsb'_toNat, Nat.shiftRight_eq_div_pow]

theorem high_eq_zero_iff {e : BitVec 64} : high e = 0#10 ↔ e.toNat < 2 ^ 54 := by
  have hlt := e.isLt
  rw [high, BitVec.toNat_eq, BitVec.extractLsb'_toNat, Nat.shiftRight_eq_div_pow,
    BitVec.toNat_ofNat]
  omega

/-- **A pointer** to the next table: valid, and not a leaf. -/
def pointer (e : BitVec 64) : Bool := v e && !r e && !w e && !x e

theorem pointer_eq_true_iff {e : BitVec 64} : pointer e = true
    ↔ v e = true ∧ r e = false ∧ w e = false ∧ x e = false := by
  unfold pointer
  simp only [Bool.and_eq_true, Bool.not_eq_true', and_assoc]

/-- The encoding with the write bit but not the read bit. -/
def writeOnly (e : BitVec 64) : Bool := !r e && w e

end Pte

/-- The index into the table of level `i`. -/
def vpn (va : BitVec 64) (i : ℕ) : BitVec 9 := va.extractLsb' (12 + 9 * i) 9

/-- The indices into the tables of the levels below `i`, highest first. -/
def indices (va : BitVec 64) : ℕ → List (BitVec 9)
  | 0 => []
  | i + 1 => vpn va i :: indices va i

@[simp] theorem length_indices (va : BitVec 64) (i : ℕ) : (indices va i).length = i := by
  induction i with
  | zero => rfl
  | succ i ih => rw [indices, List.length_cons, ih]

theorem toNat_vpn (va : BitVec 64) (i : ℕ) :
    (vpn va i).toNat = va.toNat / 2 ^ (12 + 9 * i) % 2 ^ 9 := by
  unfold vpn
  rw [BitVec.extractLsb'_toNat, Nat.shiftRight_eq_div_pow]

/-- **A canonical address**: the bits above the ones translated copy the
highest of them. -/
def Canonical (levels : ℕ) (va : BitVec 64) : Prop :=
  va.toNat < 2 ^ (11 + 9 * levels) ∨ 2 ^ 64 - 2 ^ (11 + 9 * levels) ≤ va.toNat

instance (levels : ℕ) (va : BitVec 64) : Decidable (Canonical levels va) :=
  inferInstanceAs (Decidable (_ ∨ _))

/-- The indices are the page number within the reach of the tree. -/
theorem indices_eq_iff {va vb : BitVec 64} {i : ℕ} :
    indices va i = indices vb i
      ↔ va.toNat / 2 ^ 12 % 2 ^ (9 * i) = vb.toNat / 2 ^ 12 % 2 ^ (9 * i) := by
  induction i with
  | zero => simp [indices, Nat.mod_one]
  | succ i ih =>
    have key : ∀ x : BitVec 64, x.toNat / 2 ^ 12 % 2 ^ (9 * (i + 1))
        = x.toNat / 2 ^ 12 % 2 ^ (9 * i) + 2 ^ (9 * i) * (vpn x i).toNat := by
      intro x
      rw [toNat_vpn, show 9 * (i + 1) = 9 * i + 9 by ring, Nat.pow_add 2 (9 * i) 9,
        Nat.mod_mul, Nat.div_div_eq_div_mul, ← Nat.pow_add]
    rw [indices, indices, List.cons.injEq, ih, key va, key vb]
    have ha := Nat.mod_lt (va.toNat / 2 ^ 12) (Nat.two_pow_pos (9 * i))
    have hb := Nat.mod_lt (vb.toNat / 2 ^ 12) (Nat.two_pow_pos (9 * i))
    constructor
    · rintro ⟨hv, hlow⟩
      rw [hv, hlow]
    · intro h
      have hmod := congrArg (· % 2 ^ (9 * i)) h
      simp only [Nat.add_mul_mod_self_left, Nat.mod_mod] at hmod
      rw [hmod, Nat.add_left_cancel_iff] at h
      exact ⟨BitVec.eq_of_toNat_eq (Nat.eq_of_mul_eq_mul_left (Nat.two_pow_pos _) h), hmod⟩

/-- **Canonical addresses with the same indices lie in the same page.** -/
theorem page_eq_of_indices_eq {levels : ℕ} (h3 : 3 ≤ levels) (h5 : levels ≤ 5)
    {va vb : BitVec 64} (ha : Canonical levels va) (hb : Canonical levels vb)
    (h : indices va levels = indices vb levels) : va.toNat / 2 ^ 12 = vb.toNat / 2 ^ 12 := by
  rw [indices_eq_iff] at h
  have hva := va.isLt
  have hvb := vb.isLt
  unfold Canonical at ha hb
  interval_cases levels <;> norm_num at h ha hb hva hvb ⊢ <;> omega

/-- The offset into a superpage is made of the page in it and the offset into
the page. -/
theorem mod_superpage (x k : ℕ) :
    x % 2 ^ (12 + k) = x / 2 ^ 12 % 2 ^ k * 2 ^ 12 + x % 2 ^ 12 := by
  rw [Nat.pow_add, Nat.mod_mul]
  ring

/-- **Addresses of one page have the same indices.** -/
theorem indices_eq_of_page_eq {va vb : BitVec 64} (i : ℕ)
    (h : va.toNat / 2 ^ 12 = vb.toNat / 2 ^ 12) : indices va i = indices vb i := by
  rw [indices_eq_iff, h]

theorem canonical_of_page_eq {levels : ℕ} (h3 : 3 ≤ levels) (h5 : levels ≤ 5)
    {va vb : BitVec 64} (h : va.toNat / 2 ^ 12 = vb.toNat / 2 ^ 12) (ha : Canonical levels va) :
    Canonical levels vb := by
  unfold Canonical at ha ⊢
  interval_cases levels <;> norm_num at h ha ⊢ <;> omega

/-! ## The walk -/

/-- **An implementation**, as far as reserved encodings go: it may fault on a
set bit above bit 53 and on the bits U, A and D of a pointer. -/
structure Mmu where
  /-- The encodings the implementation faults on. -/
  reserved : BitVec 64 → Bool
  /-- They are reserved encodings. -/
  reserved_spec : ∀ e, reserved e = true →
    Pte.high e ≠ 0#10 ∨ Pte.pointer e = true ∧ (Pte.u e || Pte.a e || Pte.d e) = true

namespace Mmu

variable {m : Mmu} {mem mem' : ℕ → BitVec 9 → BitVec 64} {va : BitVec 64}
variable {e pte : BitVec 64} {i a levels root : ℕ}

/-- The implementation that faults on every reserved encoding. -/
def strict : Mmu where
  reserved e := Pte.high e != 0#10
    || Pte.pointer e && (Pte.u e || Pte.a e || Pte.d e)
  reserved_spec e h := by
    rw [Bool.or_eq_true, bne_iff_ne, Bool.and_eq_true] at h
    exact h

/-- **The walk** of `va` from the table `a` of level `i`: the leaf entry it
ends at with its level, or `none` for a page fault. -/
def walk (m : Mmu) (mem : ℕ → BitVec 9 → BitVec 64) (va : BitVec 64) :
    ℕ → ℕ → Option (BitVec 64 × ℕ)
  | i, a =>
    let pte := mem a (vpn va i)
    if !Pte.v pte || Pte.writeOnly pte || m.reserved pte then none
    else if Pte.r pte || Pte.x pte then
      -- a leaf; a superpage must be aligned
      if Pte.ppn pte % 2 ^ (9 * i) ≠ 0 then none else some (pte, i)
    else
      match i with
      | 0 => none
      | i + 1 => walk m mem va i (Pte.ppn pte)

/-- Translate a virtual address; one that is not canonical faults. -/
def translate (m : Mmu) (mem : ℕ → BitVec 9 → BitVec 64) (levels root : ℕ)
    (va : BitVec 64) : Option (BitVec 64 × ℕ) :=
  if Canonical levels va then walk m mem va (levels - 1) root else none

/-- The physical address a leaf of level `i` gives to `va`. -/
def physAddr (va pte : BitVec 64) (i : ℕ) : ℕ :=
  Pte.ppn pte / 2 ^ (9 * i) * 2 ^ (12 + 9 * i) + va.toNat % 2 ^ (12 + 9 * i)

/-- For an aligned leaf, the offset is added to the page. -/
theorem physAddr_of_aligned (h : Pte.ppn pte % 2 ^ (9 * i) = 0) :
    physAddr va pte i = Pte.ppn pte * 2 ^ 12 + va.toNat % 2 ^ (12 + 9 * i) := by
  obtain ⟨k, hk⟩ := Nat.dvd_of_mod_eq_zero h
  rw [physAddr, hk, Nat.mul_div_cancel_left _ (Nat.two_pow_pos _), Nat.pow_add]
  ring

/-- **A physical address has 56 bits.** -/
theorem physAddr_lt (hi : i ≤ 4) : physAddr va pte i < 2 ^ 56 := by
  have hdiv : Pte.ppn pte / 2 ^ (9 * i) < 2 ^ (44 - 9 * i) := by
    rw [Nat.div_lt_iff_lt_mul (Nat.two_pow_pos _), ← Nat.pow_add,
      Nat.sub_add_cancel (by omega)]
    exact Pte.ppn_lt pte
  have hmod := Nat.mod_lt va.toNat (Nat.two_pow_pos (12 + 9 * i))
  calc physAddr va pte i
      < (Pte.ppn pte / 2 ^ (9 * i) + 1) * 2 ^ (12 + 9 * i) := by
        unfold physAddr
        rw [Nat.add_mul, Nat.one_mul]
        omega
    _ ≤ 2 ^ (44 - 9 * i) * 2 ^ (12 + 9 * i) := Nat.mul_le_mul_right _ hdiv
    _ = 2 ^ 56 := by
        rw [← Nat.pow_add]
        congr 1
        omega

/-- Within a page the physical address moves with the virtual one. -/
theorem physAddr_of_page_eq {vb : BitVec 64} (h : va.toNat / 2 ^ 12 = vb.toNat / 2 ^ 12) :
    physAddr va pte i + vb.toNat % 2 ^ 12 = physAddr vb pte i + va.toNat % 2 ^ 12 := by
  unfold physAddr
  rw [mod_superpage, mod_superpage, h]
  ring

/-- Where an entry points to. -/
def next (m : Mmu) (e : BitVec 64) : Option ℕ :=
  if Pte.pointer e && !m.reserved e then some (Pte.ppn e) else none

/-- Whether an entry met at level `i` ends a walk well. -/
def leaf (m : Mmu) (e : BitVec 64) (i : ℕ) : Bool :=
  Pte.v e && !Pte.writeOnly e && !m.reserved e && (Pte.r e || Pte.x e)
    && Pte.ppn e % 2 ^ (9 * i) == 0

theorem next_eq_some_iff {b : ℕ} :
    m.next e = some b ↔ Pte.pointer e = true ∧ m.reserved e = false ∧ Pte.ppn e = b := by
  unfold next
  split
  · next h =>
    rw [Bool.and_eq_true, Bool.not_eq_true'] at h
    simp [h.1, h.2]
  · next h =>
    rw [Bool.and_eq_true, Bool.not_eq_true'] at h
    simp only [reduceCtorEq, false_iff, not_and]
    exact fun h₁ h₂ => absurd ⟨h₁, h₂⟩ h

theorem next_of_not_valid (h : Pte.v e = false) : m.next e = none := by
  unfold next Pte.pointer
  rw [h]
  rfl

theorem leaf_of_not_valid (h : Pte.v e = false) : m.leaf e i = false := by
  unfold leaf
  rw [h]
  rfl

/-- An entry that is no pointer ends the walk, well or not. -/
theorem walk_of_next_eq_none (h : m.next (mem a (vpn va i)) = none) :
    m.walk mem va i a
      = if m.leaf (mem a (vpn va i)) i then some (mem a (vpn va i), i) else none := by
  rw [walk.eq_def]
  dsimp only
  generalize mem a (vpn va i) = pte at h ⊢
  unfold next Pte.pointer at h
  unfold leaf Pte.writeOnly
  cases hv : Pte.v pte <;> cases hr : Pte.r pte <;> cases hw : Pte.w pte <;>
    cases hx : Pte.x pte <;> cases hres : m.reserved pte <;>
    simp [hv, hr, hw, hx, hres] at h ⊢

/-- A pointer is followed. -/
theorem walk_of_next_eq_some {b : ℕ} (h : m.next (mem a (vpn va (i + 1))) = some b) :
    m.walk mem va (i + 1) a = m.walk mem va i b := by
  obtain ⟨hptr, hres, rfl⟩ := next_eq_some_iff.mp h
  obtain ⟨hv, hr, hw, hx⟩ := Pte.pointer_eq_true_iff.mp hptr
  rw [walk.eq_def]
  simp only [hv, hr, hw, hx, hres, Pte.writeOnly]
  rfl

/-- A pointer met at the last level is a fault. -/
theorem walk_zero_of_next_eq_some {b : ℕ} (h : m.next (mem a (vpn va 0)) = some b) :
    m.walk mem va 0 a = none := by
  obtain ⟨hptr, hres, rfl⟩ := next_eq_some_iff.mp h
  obtain ⟨hv, hr, hw, hx⟩ := Pte.pointer_eq_true_iff.mp hptr
  rw [walk.eq_def]
  simp only [hv, hr, hw, hx, hres, Pte.writeOnly]
  rfl

/-- **The walk stops where the lookup does**, and the entry there decides. -/
theorem walk_eq_lookup :
    m.walk mem va i a = (TableTree.lookup m.next mem a (indices va (i + 1))).bind
      (fun el => if m.leaf el.1 el.2 then some el else none) := by
  induction i generalizing a with
  | zero =>
    rw [indices, TableTree.lookup]
    cases h : m.next (mem a (vpn va 0)) with
    | none => exact walk_of_next_eq_none h
    | some b => exact walk_zero_of_next_eq_some h
  | succ i ih =>
    rw [indices, TableTree.lookup]
    cases h : m.next (mem a (vpn va (i + 1))) with
    | none =>
      rw [walk_of_next_eq_none h]
      show _ = if m.leaf _ (indices va (i + 1)).length then _ else _
      rw [length_indices]
    | some b =>
      rw [walk_of_next_eq_some h]
      exact ih

/-- A leaf is no pointer. -/
theorem next_of_leaf (h : (Pte.r e || Pte.x e) = true) : m.next e = none := by
  unfold next Pte.pointer
  rcases Bool.or_eq_true_iff.mp h with h | h <;> simp [h]

/-- **An entry that ends the walk of a canonical address well translates
it.** -/
theorem translate_of_lookup (hpos : 0 < levels) (hva : Canonical levels va)
    (h : TableTree.lookup m.next mem root (indices va levels) = some (e, i))
    (hleaf : m.leaf e i = true) : m.translate mem levels root va = some (e, i) := by
  rw [translate, if_pos hva, walk_eq_lookup, Nat.sub_add_cancel hpos, h]
  exact if_pos hleaf

/-- What a translation ends at is a leaf of the memory. -/
theorem translate_eq_some (h : m.translate mem levels root va = some (e, i))
    (hpos : 0 < levels) :
    Canonical levels va ∧ i < levels ∧ (Pte.r e || Pte.x e) = true ∧ ∃ b j, e = mem b j := by
  unfold translate at h
  split at h
  swap
  · exact absurd h (by simp)
  next hcanon =>
  rw [walk_eq_lookup, Nat.sub_add_cancel hpos] at h
  obtain ⟨⟨e', i'⟩, hlookup, hleaf⟩ := Option.bind_eq_some_iff.mp h
  split at hleaf
  swap
  · exact absurd hleaf (by simp)
  next hl =>
  cases hleaf
  obtain ⟨hlt, hmem⟩ := TableTree.lookup_eq_some hlookup
  unfold leaf at hl
  simp only [Bool.and_eq_true] at hl
  exact ⟨hcanon, by simpa using hlt, hl.1.2, hmem⟩

/-- **Addresses of one page are translated alike.** -/
theorem translate_eq_of_page_eq (h3 : 3 ≤ levels) (h5 : levels ≤ 5) {vb : BitVec 64}
    (h : va.toNat / 2 ^ 12 = vb.toNat / 2 ^ 12) :
    m.translate mem levels root va = m.translate mem levels root vb := by
  unfold translate
  rw [walk_eq_lookup, walk_eq_lookup, indices_eq_of_page_eq _ h]
  by_cases ha : Canonical levels va
  · rw [if_pos ha, if_pos (canonical_of_page_eq h3 h5 h ha)]
  · rw [if_neg ha, if_neg (fun hb => ha (canonical_of_page_eq h3 h5 h.symm hb))]

/-! ## Well-formed trees -/

/-- The tables of a tree. -/
def tables (m : Mmu) (mem : ℕ → BitVec 9 → BitVec 64) (levels root : ℕ) : Set ℕ :=
  TableTree.tables m.next mem levels root

/-- **An entry without reserved encodings.** -/
structure Encoded (m : Mmu) (e : BitVec 64) : Prop where
  /-- No bit is set above the page number. -/
  high : Pte.high e = 0#10
  /-- The page cannot be written but not read. -/
  writeOnly : Pte.writeOnly e = false
  /-- The implementation does not fault on it. -/
  reserved : m.reserved e = false

/-- **A tree that can be walked**: no table is shared between two paths, and
no pointer above the last level uses a reserved encoding. -/
structure WellFormed (m : Mmu) (mem : ℕ → BitVec 9 → BitVec 64) (levels root : ℕ) :
    Prop where
  /-- No table is reached along two paths. -/
  isTree : TableTree.IsTree m.next mem levels root
  /-- No pointer of a table above the last level is reserved. -/
  pointers : ∀ (q : List (BitVec 9)) (a : ℕ), q.length + 1 < levels →
    TableTree.descend m.next mem root q = some a →
      ∀ i, Pte.pointer (mem a i) = true → Pte.high (mem a i) = 0#10 ∧ m.reserved (mem a i) = false

/-- A memory that agrees on the tables has the same tree. -/
theorem WellFormed.of_agree (h : m.WellFormed mem levels root)
    (hagree : ∀ a ∈ m.tables mem levels root, mem' a = mem a) :
    m.WellFormed mem' levels root := by
  refine ⟨h.isTree.of_agree hagree, fun q a hlen hq i hptr => ?_⟩
  rw [TableTree.descend_eq_of_agree hagree (by omega)] at hq
  rw [hagree a ⟨q, by omega, hq⟩] at hptr ⊢
  exact h.pointers q a hlen hq i hptr

/-- **A tree that conforms to the architecture**: no valid entry of any table
uses a reserved encoding, and superpages are aligned. A table of level `k` is
at the end of a path of the other levels. -/
def Conforms (m : Mmu) (mem : ℕ → BitVec 9 → BitVec 64) (levels root : ℕ) : Prop :=
  ∀ (q : List (BitVec 9)) (k a : ℕ), q.length + (k + 1) = levels →
    TableTree.descend m.next mem root q = some a →
      ∀ i, Pte.v (mem a i) = true → m.Encoded (mem a i)
        ∧ ((Pte.r (mem a i) || Pte.x (mem a i)) = true → Pte.ppn (mem a i) % 2 ^ (9 * k) = 0)

/-- **A walk depends on the lookup alone.** -/
theorem translate_eq_of_lookup_eq {root' : ℕ}
    (h : TableTree.lookup m.next mem' root' (indices va (levels - 1 + 1))
      = TableTree.lookup m.next mem root (indices va (levels - 1 + 1))) :
    m.translate mem' levels root' va = m.translate mem levels root va := by
  unfold translate
  rw [walk_eq_lookup, walk_eq_lookup, h]

/-! ## Linking a zeroed table -/

/-- A pointer that is followed has no reserved encoding. -/
theorem encoded_of_next {c : ℕ} (he : m.next e = some c) (hhigh : Pte.high e = 0#10) :
    m.Encoded e := by
  obtain ⟨hptr, hres, -⟩ := next_eq_some_iff.mp he
  obtain ⟨-, -, hw, -⟩ := Pte.pointer_eq_true_iff.mp hptr
  exact ⟨hhigh, by rw [Pte.writeOnly, hw, Bool.and_false], hres⟩

section Link

variable {q : List (BitVec 9)} {i : BitVec 9} {c : ℕ}

/-- What an entry is after a table has been linked. -/
theorem link_cases (mem : ℕ → BitVec 9 → BitVec 64) (i : BitVec 9) (e : BitVec 64) (b : ℕ)
    (j : BitVec 9) (hne : c ≠ a) :
    b = c ∧ TableTree.link mem c 0#64 a i e b j = 0#64
      ∨ b ≠ c ∧ (TableTree.link mem c 0#64 a i e b j = e
        ∨ TableTree.link mem c 0#64 a i e b j = mem b j) := by
  by_cases hb : b = c
  · subst hb
    exact Or.inl ⟨rfl, TableTree.link_new hne⟩
  · refine Or.inr ⟨hb, ?_⟩
    have h := TableTree.write_eq_or (TableTree.fill mem c 0#64) a b i j e
    rw [TableTree.fill_of_ne hb] at h
    exact h

variable (hwf : m.WellFormed mem levels root)
  (hq : TableTree.descend m.next mem root q = some a) (hlen : q.length + 1 < levels)
  (hold : Pte.v (mem a i) = false) (hc : c ∉ m.tables mem levels root) (he : m.next e = some c)
include hwf hq hlen hold hc he

/-- **Linking a zeroed table changes no translation**: the addresses that now
reach it fault there instead of at the absent entry. -/
theorem translate_link :
    m.translate (TableTree.link mem c 0#64 a i e) levels root va
      = m.translate mem levels root va := by
  unfold translate
  rw [walk_eq_lookup, walk_eq_lookup, Nat.sub_add_cancel (by omega : 1 ≤ levels)]
  congr 1
  by_cases hpre : q ++ [i] <+: indices va levels
  · obtain ⟨r, hr⟩ := hpre
    have hlenr := congrArg List.length hr
    rw [length_indices, List.length_append, List.length_append] at hlenr
    obtain ⟨j, r, rfl⟩ : ∃ j r', r = j :: r' := by
      cases r with
      | nil => simp at hlenr; omega
      | cons j r => exact ⟨j, r, rfl⟩
    have hzero : m.next (0#64) = none := next_of_not_valid (by decide)
    rw [← hr, List.append_assoc]
    show (TableTree.lookup _ _ root (q ++ i :: j :: r)).bind _
      = (TableTree.lookup _ _ root (q ++ i :: j :: r)).bind _
    rw [TableTree.lookup_link_new hwf.isTree hq (by omega) hc he hzero,
      TableTree.lookup_append hq, TableTree.lookup_cons_of_none (next_of_not_valid hold)]
    simp only [Option.bind_some, leaf_of_not_valid hold,
      leaf_of_not_valid (show Pte.v 0#64 = false by decide)]
    rfl
  · rw [TableTree.lookup_link_of_avoids hwf.isTree hq (by omega) hc (by simp) hpre]

theorem tables_link : m.tables (TableTree.link mem c 0#64 a i e) levels root
    = insert c (m.tables mem levels root) :=
  TableTree.tables_link hwf.isTree hq (by omega) (next_of_not_valid hold) hc he
    (next_of_not_valid (by decide)) hlen

/-- An entry of a table of the tree after linking: it is absent, the pointer,
or as before in a table of before. -/
theorem entry_link {p : List (BitVec 9)} {b : ℕ} {j : BitVec 9} (hp : p.length ≤ levels)
    (hb : TableTree.descend m.next (TableTree.link mem c 0#64 a i e) root p = some b)
    (hv : Pte.v (TableTree.link mem c 0#64 a i e b j) = true) :
    TableTree.link mem c 0#64 a i e b j = e
      ∨ TableTree.descend m.next mem root p = some b
        ∧ TableTree.link mem c 0#64 a i e b j = mem b j := by
  have hne : c ≠ a := TableTree.ne_of_notMem_tables hc (by omega) hq
  rcases link_cases mem i e b j hne with ⟨-, hz⟩ | ⟨hbc, hb' | hb'⟩
  · rw [hz] at hv
    exact absurd hv (by decide)
  · exact Or.inl hb'
  · rcases (TableTree.descend_link hwf.isTree hq (by omega) (next_of_not_valid hold) hc
      he (next_of_not_valid (by decide)) hp).mp hb with ⟨-, h⟩ | h
    · exact absurd h hbc
    · exact Or.inr ⟨h, hb'⟩

/-- **The tree can still be walked.** -/
theorem WellFormed.link (hhigh : Pte.high e = 0#10) :
    m.WellFormed (TableTree.link mem c 0#64 a i e) levels root := by
  refine ⟨TableTree.isTree_link hwf.isTree hq (by omega) (next_of_not_valid hold) hc he
    (next_of_not_valid (by decide)), fun p b hp hb j hptr => ?_⟩
  have hv := (Pte.pointer_eq_true_iff.mp hptr).1
  rcases entry_link hwf hq hlen hold hc he (by omega) hb hv with hb' | ⟨hb', hj⟩
  · rw [hb']
    exact ⟨hhigh, (next_eq_some_iff.mp he).2.1⟩
  · rw [hj] at hptr ⊢
    exact hwf.pointers p b hp hb' j hptr

/-- It still conforms to the architecture. -/
theorem Conforms.link (hcf : m.Conforms mem levels root) (hhigh : Pte.high e = 0#10) :
    m.Conforms (TableTree.link mem c 0#64 a i e) levels root := by
  intro p k b hp hb j hv
  rcases entry_link hwf hq hlen hold hc he (by omega) hb hv with hb' | ⟨hb', hj⟩
  · obtain ⟨-, hr, -, hx⟩ := Pte.pointer_eq_true_iff.mp (next_eq_some_iff.mp he).1
    rw [hb', hr, hx]
    exact ⟨encoded_of_next he hhigh, fun h => absurd h Bool.false_ne_true⟩
  · rw [hj] at hv ⊢
    exact hcf p k b hp hb' j hv

end Link

/-! ## Writing the last entry of a walk -/

section WriteLast

variable {q : List (BitVec 9)} {i : BitVec 9} (hwf : m.WellFormed mem levels root)
  (hq : TableTree.descend m.next mem root q = some a) (hlen : q.length + 1 = levels)
include hwf hq hlen

/-- **Only the addresses with these very indices are affected.** -/
theorem translate_write_last (hne : indices va levels ≠ q ++ [i]) :
    m.translate (TableTree.write mem a i e) levels root va
      = m.translate mem levels root va := by
  refine translate_eq_of_lookup_eq ?_
  rw [Nat.sub_add_cancel (by omega : 1 ≤ levels)]
  refine TableTree.lookup_write_of_avoids hwf.isTree hq (by omega) (by simp) (fun h => ?_)
  exact hne (h.eq_of_length (by simpa using hlen)).symm

/-- The entry written is the one its addresses end at. -/
theorem lookup_write_last (he : m.next e = none) :
    TableTree.lookup m.next (TableTree.write mem a i e) root (q ++ [i]) = some (e, 0) := by
  rw [TableTree.lookup_append (TableTree.descend_write_self hwf.isTree hq (by omega)),
    TableTree.lookup_cons_of_none (by rw [TableTree.write_same, he]), TableTree.write_same]
  rfl

/-- An entry that is no leaf leaves its addresses untranslated. -/
theorem translate_write_last_of_not_leaf (hva : indices va levels = q ++ [i])
    (he : (Pte.r e || Pte.x e) = false) :
    m.translate (TableTree.write mem a i e) levels root va = none := by
  unfold translate
  split
  swap
  · rfl
  rw [walk_eq_lookup, Nat.sub_add_cancel (by omega), hva,
    TableTree.lookup_append (TableTree.descend_write_self hwf.isTree hq (by omega)),
    TableTree.lookup, TableTree.write_same]
  split
  · have hleaf : m.leaf e 0 = false := by
      unfold leaf
      rw [he, Bool.and_false, Bool.false_and]
    show (if m.leaf e 0 then _ else _) = _
    rw [hleaf]
    rfl
  · rfl

theorem tables_write_last : m.tables (TableTree.write mem a i e) levels root
    = m.tables mem levels root :=
  TableTree.tables_write_last hwf.isTree hq hlen

/-- The tree can still be walked, whatever is written. -/
theorem WellFormed.write_last :
    m.WellFormed (TableTree.write mem a i e) levels root := by
  refine ⟨TableTree.isTree_write_last hwf.isTree hq hlen, fun p b hp hb j hptr => ?_⟩
  rw [TableTree.descend_write_last hwf.isTree hq hlen (by omega)] at hb
  by_cases hab : b = a ∧ j = i
  · have := congrArg List.length
      (hwf.isTree a p q (by omega) (by omega) (hab.1 ▸ hb) hq)
    omega
  · rw [TableTree.write_of_ne (not_and_or.mp hab)] at hptr ⊢
    exact hwf.pointers p b hp hb j hptr

/-- It still conforms to the architecture, if the entry written does; a page
of the last level is always aligned. -/
theorem Conforms.write_last (hcf : m.Conforms mem levels root) (he : m.Encoded e) :
    m.Conforms (TableTree.write mem a i e) levels root := by
  intro p k b hp hb j hv
  rw [TableTree.descend_write_last hwf.isTree hq hlen (by omega)] at hb
  by_cases hab : b = a ∧ j = i
  · obtain ⟨rfl, rfl⟩ := hab
    have hk : k = 0 := by
      have := congrArg List.length (hwf.isTree b p q (by omega) (by omega) hb hq)
      omega
    rw [TableTree.write_same, hk]
    exact ⟨he, fun _ => Nat.mod_one _⟩
  · rw [TableTree.write_of_ne (not_and_or.mp hab)] at hv ⊢
    exact hcf p k b hp hb j hv

end WriteLast

end Mmu
