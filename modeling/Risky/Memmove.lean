import Risky.MoveSequence

/-!
# Copying between regions that overlap

`memmove` of `lib/string.c` on a memory of bytes. It copies upwards when the source is
above the destination, and downwards when it is below, so that a byte of the source is
always read before it is overwritten: the moves of either loop are ordered
(`Memmove.ordered_up`, `Memmove.ordered_down`).
-/

namespace Memmove

open MoveSequence

/-- A memory with 64-bit addresses. -/
abbrev Memory := BitVec 64 → UInt8

/-- The address of an entry of an array of bytes. -/
def entry (p : BitVec 64) (i : ℕ) : BitVec 64 := p + BitVec.ofNat 64 i

/-- `pdest[i] = psrc[i]`. -/
def moveByte (dest src : BitVec 64) (mem : Memory) (i : ℕ) : Memory :=
  Function.update mem (entry dest i) (mem (entry src i))

/-- The loop that copies upwards from an index on, for so many turns. -/
def copyUp (dest src : BitVec 64) : ℕ → ℕ → Memory → Memory
  | 0, _, mem => mem
  | turns + 1, i, mem => copyUp dest src turns (i + 1) (moveByte dest src mem i)

/-- The loop that copies downwards: an index is the one above the entry to copy. -/
def copyDown (dest src : BitVec 64) : ℕ → Memory → Memory
  | 0, mem => mem
  | i + 1, mem => copyDown dest src i (moveByte dest src mem i)

/-- `memmove`: the memory after it, and what it returns. -/
def memmove (mem : Memory) (dest src n : BitVec 64) : Memory × BitVec 64 :=
  if src > dest then (copyUp dest src n.toNat 0 mem, dest)
  else if src < dest then (copyDown dest src n.toNat mem, dest)
  else (mem, dest)

variable {mem : Memory} {dest src n p : BitVec 64} {i j : ℕ}

/-! ## The loops as sequences of moves -/

theorem copyUp_eq (turns i : ℕ) (mem : Memory) :
    copyUp dest src turns i mem
      = moves (entry dest) (entry src) mem (List.range' i turns) := by
  induction turns generalizing i mem with
  | zero => rfl
  | succ turns ih =>
    rw [copyUp, ih, List.range'_succ]
    rfl

theorem copyDown_eq (n : ℕ) (mem : Memory) :
    copyDown dest src n mem = moves (entry dest) (entry src) mem (List.range n).reverse := by
  induction n generalizing mem with
  | zero => rfl
  | succ n ih =>
    rw [copyDown, ih, List.range_succ, List.reverse_concat]
    rfl

/-! ## The order of the moves -/

/-- The entries of a region that does not wrap around. -/
theorem toNat_entry (h : p.toNat + i < 2 ^ 64) : (entry p i).toNat = p.toNat + i := by
  unfold entry
  rw [BitVec.toNat_add, BitVec.toNat_ofNat]
  omega

theorem entry_ne (hp : p.toNat + i < 2 ^ 64) {q : BitVec 64} (hq : q.toNat + j < 2 ^ 64)
    (h : p.toNat + i ≠ q.toNat + j) : entry p i ≠ entry q j := by
  intro heq
  rw [← toNat_entry hp, ← toNat_entry hq, heq] at h
  exact h rfl

/-- **Upwards the source stays ahead**, if it is above. -/
theorem ordered_up (hsrc : src.toNat + n.toNat ≤ 2 ^ 64) (h : dest.toNat < src.toNat) :
    Ordered (entry dest) (entry src) (List.range' 0 n.toNat) := by
  rw [← List.range_eq_range']
  refine List.pairwise_lt_range.imp_of_mem (fun {i j} hi hj hlt => ?_)
  rw [List.mem_range] at hi hj
  exact ⟨entry_ne (by omega) (by omega) (by omega), entry_ne (by omega) (by omega) (by omega)⟩

/-- **Downwards the source stays ahead**, if it is below. -/
theorem ordered_down (hdest : dest.toNat + n.toNat ≤ 2 ^ 64) (h : src.toNat < dest.toNat) :
    Ordered (entry dest) (entry src) (List.range n.toNat).reverse := by
  refine List.pairwise_reverse.mpr ?_
  refine List.pairwise_lt_range.imp_of_mem (fun {i j} hi hj hlt => ?_)
  rw [List.mem_range] at hi hj
  exact ⟨entry_ne (by omega) (by omega) (by omega), entry_ne (by omega) (by omega) (by omega)⟩

/-! ## The result -/

/-- An address outside a region is none of its entries. -/
theorem entry_ne_of_outside (hp : p.toNat + n.toNat ≤ 2 ^ 64) {a : BitVec 64}
    (ha : a.toNat < p.toNat ∨ p.toNat + n.toNat ≤ a.toNat) (hi : i < n.toNat) :
    entry p i ≠ a := by
  intro heq
  rw [← heq, toNat_entry (by omega)] at ha
  omega

/-- **`memmove` moves the bytes**, however the regions overlap, and changes nothing
else. -/
theorem memmove_eq (mem : Memory) (hdest : dest.toNat + n.toNat ≤ 2 ^ 64)
    (hsrc : src.toNat + n.toNat ≤ 2 ^ 64) :
    (∀ i < n.toNat, (memmove mem dest src n).1 (entry dest i) = mem (entry src i))
      ∧ (∀ a : BitVec 64, a.toNat < dest.toNat ∨ dest.toNat + n.toNat ≤ a.toNat →
        (memmove mem dest src n).1 a = mem a)
      ∧ (memmove mem dest src n).2 = dest := by
  have houtside : ∀ a : BitVec 64, a.toNat < dest.toNat ∨ dest.toNat + n.toNat ≤ a.toNat →
      ∀ i < n.toNat, entry dest i ≠ a := fun a ha i hi => entry_ne_of_outside hdest ha hi
  unfold memmove
  split
  · next habove =>
    rw [copyUp_eq]
    refine ⟨fun i hi => ?_, fun a ha => ?_, rfl⟩
    · exact moves_apply (ordered_up hsrc habove) (List.mem_range'_1.mpr (by omega))
    · refine moves_of_forall_ne (fun i hi => houtside a ha i ?_)
      rw [List.mem_range'_1] at hi
      omega
  split
  · next hbelow =>
    rw [copyDown_eq]
    refine ⟨fun i hi => ?_, fun a ha => ?_, rfl⟩
    · exact moves_apply (ordered_down hdest hbelow)
        (List.mem_reverse.mpr (List.mem_range.mpr hi))
    · exact moves_of_forall_ne
        (fun i hi => houtside a ha i (List.mem_range.mp (List.mem_reverse.mp hi)))
  · next hnot_above hnot_below =>
    -- the regions are the same
    have heq : dest = src := by
      refine BitVec.eq_of_toNat_eq ?_
      rw [gt_iff_lt, BitVec.lt_def] at hnot_above
      rw [BitVec.lt_def] at hnot_below
      omega
    subst heq
    exact ⟨fun i _ => rfl, fun a _ => rfl, rfl⟩

/-- For two regions that overlap in three bytes, too. -/
theorem memmove_eq_overlap :
    (∀ i < 4, (memmove (fun a => UInt8.ofNat a.toNat) 4097 4096 4).1 (entry 4097 i)
        = UInt8.ofNat (entry 4096 i).toNat)
      ∧ (∀ a : BitVec 64, a.toNat < 4097 ∨ 4101 ≤ a.toNat →
        (memmove (fun a => UInt8.ofNat a.toNat) 4097 4096 4).1 a = UInt8.ofNat a.toNat)
      ∧ (memmove (fun a => UInt8.ofNat a.toNat) 4097 4096 4).2 = 4097 :=
  have hdest : (4097 : BitVec 64).toNat + (4 : BitVec 64).toNat ≤ 2 ^ 64 := by decide
  have hsrc : (4096 : BitVec 64).toNat + (4 : BitVec 64).toNat ≤ 2 ^ 64 := by decide
  memmove_eq (fun a => UInt8.ofNat a.toNat) hdest hsrc

end Memmove
