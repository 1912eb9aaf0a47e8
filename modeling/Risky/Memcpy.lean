import Risky.Memmove

/-!
# Copying between regions that should not overlap

`memcpy` and `memset` of `lib/string.c`, on the memory of `Memmove`. The pointers of
`memcpy` are `restrict`, and C leaves a call with regions that overlap undefined. The loop as
it is written copies upwards, which is as good as `memmove`, whatever is in memory, unless the
destination begins inside the source (`Memmove.memcpy_eq_memmove_iff`): then a byte is
overwritten before it is read, and what is copied repeats.
-/

namespace Memmove

open MoveSequence

/-- `memcpy`: the memory after it, and what it returns. -/
def memcpy (mem : Memory) (dest src n : BitVec 64) : Memory × BitVec 64 :=
  (copyUp dest src n.toNat 0 mem, dest)

/-- The loop of `memset`, from an index on, for so many turns. -/
def setLoop (s : BitVec 64) (c : BitVec 32) : ℕ → ℕ → Memory → Memory
  | 0, _, mem => mem
  | turns + 1, i, mem =>
    setLoop s c turns (i + 1) (Function.update mem (entry s i) (UInt8.ofBitVec (c.setWidth 8)))

/-- `memset`: the memory after it, and what it returns. -/
def memset (mem : Memory) (s : BitVec 64) (c : BitVec 32) (n : BitVec 64) : Memory × BitVec 64 :=
  (setLoop s c n.toNat 0 mem, s)

variable {mem : Memory} {dest src n s : BitVec 64} {c : BitVec 32}

/-! ## `memset` -/

/-- What the loop does not come to stays. -/
theorem setLoop_of_forall_ne {turns i : ℕ} {a : BitVec 64}
    (h : ∀ j, i ≤ j → j < i + turns → entry s j ≠ a) : setLoop s c turns i mem a = mem a := by
  induction turns generalizing i mem with
  | zero => rfl
  | succ turns ih =>
    rw [setLoop, ih (fun j hle hlt => h j (by omega) (by omega)),
      Function.update_of_ne (h i le_rfl (by omega)).symm]

/-- What it comes to, it makes the same. -/
theorem setLoop_of_exists {turns i : ℕ} {a : BitVec 64}
    (h : ∃ j, i ≤ j ∧ j < i + turns ∧ entry s j = a) :
    setLoop s c turns i mem a = UInt8.ofBitVec (c.setWidth 8) := by
  induction turns generalizing i mem with
  | zero =>
    obtain ⟨j, hle, hlt, -⟩ := h
    omega
  | succ turns ih =>
    rw [setLoop]
    by_cases hlater : ∃ j, i + 1 ≤ j ∧ j < i + 1 + turns ∧ entry s j = a
    · exact ih hlater
    · obtain ⟨j, hle, hlt, rfl⟩ := h
      obtain rfl : i = j := by
        by_contra hne
        exact hlater ⟨j, by omega, by omega, rfl⟩
      rw [setLoop_of_forall_ne (fun k hk hk' heq => hlater ⟨k, hk, hk', heq⟩), Function.update_self]

/-- **`memset` fills its region** and changes nothing else. -/
theorem memset_eq (mem : Memory) (hs : s.toNat + n.toNat ≤ 2 ^ 64) :
    (∀ i < n.toNat, (memset mem s c n).1 (entry s i) = UInt8.ofBitVec (c.setWidth 8))
      ∧ (∀ a : BitVec 64, a.toNat < s.toNat ∨ s.toNat + n.toNat ≤ a.toNat →
        (memset mem s c n).1 a = mem a)
      ∧ (memset mem s c n).2 = s := by
  refine ⟨fun i hi => ?_, fun a ha => ?_, rfl⟩
  · exact setLoop_of_exists ⟨i, Nat.zero_le i, by omega, rfl⟩
  · exact setLoop_of_forall_ne (fun j _ hlt => entry_ne_of_outside hs ha (by omega))

/-! ## `memcpy` -/

/-- **Upwards in order**, too, if the source ends where the destination begins, or before. -/
theorem ordered_up_of_le {k : ℕ} (hdest : dest.toNat + k ≤ 2 ^ 64)
    (h : src.toNat + k ≤ dest.toNat) :
    Ordered (entry dest) (entry src) (List.range' 0 k) := by
  rw [← List.range_eq_range']
  refine List.pairwise_lt_range.imp_of_mem (fun {i j} hi hj hlt => ?_)
  rw [List.mem_range] at hi hj
  exact ⟨entry_ne (by omega) (by omega) (by omega), entry_ne (by omega) (by omega) (by omega)⟩

/-- **Where the destination does not begin inside the source**, the two agree. -/
theorem memcpy_eq_memmove (mem : Memory) (hdest : dest.toNat + n.toNat ≤ 2 ^ 64)
    (h : dest.toNat ≤ src.toNat ∨ src.toNat + n.toNat ≤ dest.toNat) :
    memcpy mem dest src n = memmove mem dest src n := by
  unfold memcpy memmove
  by_cases habove : src > dest
  · rw [if_pos habove]
  rw [if_neg habove]
  by_cases hbelow : src < dest
  · -- `memmove` copies the same bytes downwards
    rw [if_pos hbelow, copyUp_eq, copyDown_eq]
    rw [BitVec.lt_def] at hbelow
    refine congrArg (·, dest) (moves_eq_moves (ordered_up_of_le hdest (by omega))
      (ordered_down hdest hbelow) (fun i => ?_))
    rw [← List.range_eq_range', List.mem_reverse]
  · rw [if_neg hbelow, copyUp_eq]
    rw [gt_iff_lt, BitVec.lt_def] at habove
    rw [BitVec.lt_def] at hbelow
    obtain rfl : dest = src := BitVec.eq_of_toNat_eq (by omega)
    rw [moves_self]

/-- **A byte that is overwritten before it is read.** -/
theorem memcpy_repeats (mem : Memory) (hdest : dest.toNat + n.toNat ≤ 2 ^ 64)
    (hsrc : src.toNat < dest.toNat) (hinside : dest.toNat < src.toNat + n.toNat) :
    (memcpy mem dest src n).1 (entry dest (dest.toNat - src.toNat)) = mem src := by
  set d := dest.toNat - src.toNat with hd
  have hsplit : List.range' 0 n.toNat
      = List.range' 0 d ++ (d :: List.range' (d + 1) (n.toNat - d - 1)) := by
    have happend : List.range' 0 d ++ List.range' (0 + d) (n.toNat - d - 1 + 1) = _ :=
      List.range'_append_1
    rw [Nat.zero_add] at happend
    rw [← List.range'_succ, happend]
    congr 1
    omega
  have hread : entry src d = entry dest 0 := by
    refine BitVec.eq_of_toNat_eq ?_
    rw [toNat_entry (by omega), toNat_entry (by omega)]
    omega
  have hzero : entry src 0 = src := BitVec.add_zero src
  have hfirst : Ordered (entry dest) (entry src) (List.range' 0 d) :=
    ordered_up_of_le (by omega) (by omega)
  show copyUp dest src n.toNat 0 mem (entry dest d) = mem src
  rw [copyUp_eq, hsplit]
  unfold moves
  rw [List.foldl_append, List.foldl_cons]
  -- the moves behind leave the byte alone, and the one that writes it reads the first byte
  have hlater : ∀ mem : Memory, moves (entry dest) (entry src) mem
      (List.range' (d + 1) (n.toNat - d - 1)) (entry dest d) = mem (entry dest d) := by
    intro mem
    refine moves_of_forall_ne (fun i hi => ?_)
    rw [List.mem_range'_1] at hi
    exact entry_ne (by omega) (by omega) (by omega)
  refine (hlater (move _ _ (moves (entry dest) (entry src) mem (List.range' 0 d)) d)).trans ?_
  rw [move_self, hread, moves_apply hfirst (List.mem_range'_1.mpr (by omega)), hzero]

/-- **`memcpy` agrees with `memmove` exactly if the destination does not begin inside the
source**, behind its first byte. -/
theorem memcpy_eq_memmove_iff (hdest : dest.toNat + n.toNat ≤ 2 ^ 64) :
    (∀ mem, memcpy mem dest src n = memmove mem dest src n)
      ↔ ¬ (src.toNat < dest.toNat ∧ dest.toNat < src.toNat + n.toNat) := by
  constructor
  · rintro h ⟨hbelow, hinside⟩
    -- a memory with one byte that is not zero, the first of the source
    let mem : Memory := fun a => if a = src then 1 else 0
    have hrepeats := memcpy_repeats mem hdest hbelow hinside
    have hmoved : (memmove mem dest src n).1 (entry dest (dest.toNat - src.toNat))
        = mem (entry src (dest.toNat - src.toNat)) := by
      unfold memmove
      rw [if_neg (fun habove => absurd (BitVec.lt_def.mp habove) (by omega)),
        if_pos (BitVec.lt_def.mpr hbelow)]
      dsimp only
      rw [copyDown_eq]
      exact moves_apply (ordered_down hdest hbelow)
        (List.mem_reverse.mpr (List.mem_range.mpr (by omega)))
    have hne : entry src (dest.toNat - src.toNat) ≠ src := by
      intro heq
      have hnat := congrArg BitVec.toNat heq
      rw [toNat_entry (by omega)] at hnat
      omega
    have hzero : mem (entry src (dest.toNat - src.toNat)) = 0 := if_neg hne
    have hone : mem src = 1 := if_pos rfl
    rw [h, hmoved, hzero, hone] at hrepeats
    exact absurd hrepeats (by decide)
  · intro h mem
    exact memcpy_eq_memmove mem hdest (by omega)

/-- Three bytes that overlap by two, upwards. -/
theorem memcpy_eq_memmove_iff_overlap :
    (∀ mem, memcpy mem 4096 4097 3 = memmove mem 4096 4097 3)
      ↔ ¬ ((4097 : BitVec 64).toNat < (4096 : BitVec 64).toNat
        ∧ (4096 : BitVec 64).toNat < (4097 : BitVec 64).toNat + (3 : BitVec 64).toNat) :=
  memcpy_eq_memmove_iff (by decide)

end Memmove
