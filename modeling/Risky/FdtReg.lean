import Risky.FdtRoundTrip

/-!
# The entries of a `reg` property

`fdt_get_reg` checks that the entry asked for lies in the property by a product of
32-bit numbers, which may wrap around, and so may the offset of the entry. As long
as the product is below 2^32 the function returns the address and the size of the
entry, or `false` where there is none (`fdtGetReg_of_lt`); where it is not, the
check is worth nothing if the product happens to be small again
(`getsReg_iff`).
-/

/-! ## Big-endian numbers -/

theorem bigEndian_append (xs ys : List UInt8) :
    bigEndian (xs ++ ys) = bigEndian xs * 256 ^ ys.length + bigEndian ys := by
  have hfold : ∀ (ys : List UInt8) (n : ℕ), ys.foldl (fun n b => 256 * n + b.toNat) n
      = n * 256 ^ ys.length + bigEndian ys := by
    intro ys
    induction ys with
    | nil => exact fun n => by simp [bigEndian]
    | cons b ys ih =>
      intro n
      have hb : bigEndian (b :: ys) = b.toNat * 256 ^ ys.length + bigEndian ys := by
        rw [← ih b.toNat, bigEndian, List.foldl_cons, Nat.mul_zero, Nat.zero_add]
      rw [List.foldl_cons, ih, hb, List.length_cons, pow_succ]
      ring
  rw [bigEndian, List.foldl_append]
  exact hfold ys _

namespace Fdt

open Outcome

variable {fdt : Fdt} {node : FdtNode} {prop : FdtProp}

/-- A word that is shifted in. -/
theorem shift_or_eq (v : BitVec 64) {w : ℕ} (hw : w < 2 ^ 32) :
    v <<< 32 ||| BitVec.ofNat 64 w = BitVec.ofNat 64 (v.toNat * 2 ^ 32 + w) := by
  have hor : v <<< 32 ||| BitVec.ofNat 64 w = v <<< 32 + BitVec.ofNat 64 w := by
    refine (BitVec.add_eq_or_of_and_eq_zero _ _ ?_).symm
    refine BitVec.eq_of_getLsbD_eq (fun i hi => ?_)
    rw [BitVec.getLsbD_and, BitVec.getLsbD_shiftLeft, BitVec.getLsbD_ofNat]
    by_cases h : i < 32
    · simp [h]
    · have hbit : w.testBit i = false :=
        Nat.testBit_lt_two_pow (hw.trans_le (Nat.pow_le_pow_right (by omega) (by omega)))
      simp [hbit]
  refine BitVec.eq_of_toNat_eq ?_
  rw [hor, BitVec.toNat_add, BitVec.toNat_shiftLeft, BitVec.toNat_ofNat, BitVec.toNat_ofNat,
    Nat.shiftLeft_eq]
  omega

/-- A number that was taken modulo 2^64 goes on modulo 2^64. -/
theorem ofNat_toNat_mul_add (x k r : ℕ) :
    BitVec.ofNat 64 ((BitVec.ofNat 64 x).toNat * k + r) = BitVec.ofNat 64 (x * k + r) := by
  rw [BitVec.ofNat_add, BitVec.ofNat_mul, BitVec.ofNat_toNat, BitVec.setWidth_eq, BitVec.ofNat_add,
    BitVec.ofNat_mul]

/-- **Cells are read as a big-endian number.** -/
theorem fdtReadCells_eq {mem : List UInt8} (n : ℕ) {cells : ℕ} (h : cells + 4 * n ≤ mem.length)
    (v : BitVec 64) :
    fdtReadCells mem n v cells
      = ok (BitVec.ofNat 64 (v.toNat * 2 ^ (32 * n)
          + bigEndian ((mem.drop cells).take (4 * n))), cells + 4 * n) := by
  induction n generalizing v cells with
  | zero =>
    rw [fdtReadCells, Nat.mul_zero, pow_zero, Nat.mul_one, List.take_zero]
    show _ = ok (BitVec.ofNat 64 v.toNat, cells)
    rw [BitVec.ofNat_toNat, BitVec.setWidth_eq]
  | succ n ih =>
    have hlen : ((mem.drop cells).take 4).length = 4 := by
      rw [List.length_take, List.length_drop]
      omega
    have hread := fdtReadBe32_bigEndian hlen (List.take_prefix 4 _)
    have hsplit : (mem.drop cells).take (4 * (n + 1))
        = (mem.drop cells).take 4 ++ (mem.drop (cells + 4)).take (4 * n) := by
      rw [show 4 * (n + 1) = 4 + 4 * n by ring, List.take_add, List.drop_drop]
    have hrest : ((mem.drop (cells + 4)).take (4 * n)).length = 4 * n := by
      rw [List.length_take, List.length_drop]
      omega
    rw [fdtReadCells, hread, access_some, ok_bind, shift_or_eq v (fdtReadBe32_lt hread),
      ih (by omega), hsplit, bigEndian_append, hrest]
    refine congrArg ok (Prod.ext ?_ (by ring))
    have hpow : (256 : ℕ) ^ (4 * n) = 2 ^ (32 * n) := by
      rw [show (256 : ℕ) = 2 ^ 8 by norm_num, ← pow_mul]
      congr 1
      ring
    have hpow' : (2 : ℕ) ^ (32 * (n + 1)) = 2 ^ 32 * 2 ^ (32 * n) := by
      rw [← pow_add, Nat.mul_succ, Nat.add_comm]
    rw [ofNat_toNat_mul_add, hpow, hpow', add_mul, mul_assoc, Nat.add_assoc]

theorem fdtReadCells_ne_refused (mem : List UInt8) (n : ℕ) (v : BitVec 64) (cells : ℕ) :
    fdtReadCells mem n v cells ≠ refused := by
  induction n generalizing v cells with
  | zero => simp [fdtReadCells]
  | succ n ih => exact bind_ne_refused access_ne_refused (fun cell => ih _ _)

/-- The length of a property is a 32-bit number. -/
theorem fdtGetProperty_len_lt {name : CString} (h : fdt.fdtGetProperty node name = ok prop) :
    prop.len < 2 ^ 32 := by
  obtain ⟨payload, -, hrun⟩ := bind_eq_ok.mp h
  obtain ⟨s, -, -, hturn⟩ := Loop.run_eq_ok_iff.mp hrun
  obtain ⟨token, -, hturn⟩ := bind_eq_ok.mp hturn
  dsimp only at hturn
  -- only the token of a property ends the scan with a result
  split at hturn
  · obtain ⟨nameLen, -, hturn⟩ := bind_eq_ok.mp hturn
    cases hturn
  split at hturn
  · obtain ⟨_, -, hturn⟩ := bind_eq_ok.mp hturn
    cases hturn
  split at hturn
  · obtain ⟨_, -, hturn⟩ := bind_eq_ok.mp hturn
    obtain ⟨len, hlen, hturn⟩ := bind_eq_ok.mp hturn
    obtain ⟨nameoff, -, hturn⟩ := bind_eq_ok.mp hturn
    obtain ⟨_, -, hturn⟩ := bind_eq_ok.mp hturn
    obtain ⟨valid, -, hturn⟩ := bind_eq_ok.mp hturn
    obtain ⟨_, -, hturn⟩ := bind_eq_ok.mp hturn
    have hlt := fdtReadBe32_lt (access_eq_ok.mp hlen)
    split at hturn
    · obtain ⟨cmp, -, hturn⟩ := bind_eq_ok.mp hturn
      split at hturn
      · cases hturn
        exact hlt
      · cases hturn
    · cases hturn
  split at hturn
  · cases hturn
  · cases hturn

/-! ## Entries -/

/-- **The check of `fdt_get_reg` fails**: the cells are not supported, or the product
of the number of entries and their size, taken modulo 2^32, is too large. -/
def RegRefused (a s len index : ℕ) : Prop :=
  2 < a ∨ 2 < s ∨ a + s = 0 ∨ len % 4 ≠ 0 ∨ len / 4 < (index + 1) * (a + s) % 2 ^ 32

theorem toNat_entryCells {a s : ℕ} (ha : a ≤ 2) (hs : s ≤ 2) :
    (BitVec.ofNat 32 a + BitVec.ofNat 32 s).toNat = a + s := by
  rw [BitVec.toNat_add, BitVec.toNat_ofNat, BitVec.toNat_ofNat]
  omega

/-- **An entry is refused by the check, or its cells are read.** -/
theorem fdtRegEntry_cases (hprop : fdt.fdtGetProperty node regName = ok prop) (index : BitVec 32) :
    RegRefused node.parentAddressCells node.parentSizeCells prop.len index.toNat
        ∧ fdt.fdtRegEntry node index = refused
      ∨ ¬ RegRefused node.parentAddressCells node.parentSizeCells prop.len index.toNat
        ∧ fdt.fdtRegEntry node index = (do
          let (addr, cells) ← fdtReadCells fdt.mem node.parentAddressCells 0
            (prop.data + index.toNat * (node.parentAddressCells + node.parentSizeCells)
              % 2 ^ 32 * 4)
          let (size, _) ← fdtReadCells fdt.mem node.parentSizeCells 0 cells
          ok (addr, size)) := by
  unfold fdtRegEntry RegRefused
  rw [hprop, ok_bind]
  by_cases hcells : node.parentAddressCells > 2 ∨ node.parentSizeCells > 2
  · rw [require_of_neg (not_not_intro hcells)]
    refine Or.inl ⟨?_, rfl⟩
    rcases hcells with h | h
    · exact Or.inl h
    · exact Or.inr (Or.inl h)
  rw [require_of_pos hcells, ok_bind]
  obtain ⟨ha, hs⟩ : node.parentAddressCells ≤ 2 ∧ node.parentSizeCells ≤ 2 := by
    rwa [not_or, not_lt, not_lt] at hcells
  have hentry := toNat_entryCells ha hs
  have hzero : (BitVec.ofNat 32 node.parentAddressCells + BitVec.ofNat 32 node.parentSizeCells = 0
      ∨ prop.len % 4 ≠ 0)
      ↔ node.parentAddressCells + node.parentSizeCells = 0 ∨ prop.len % 4 ≠ 0 := by
    refine or_congr_left ?_
    rw [← hentry]
    exact ⟨fun h => congrArg BitVec.toNat h, fun h => BitVec.eq_of_toNat_eq h⟩
  dsimp only
  by_cases hlen : node.parentAddressCells + node.parentSizeCells = 0 ∨ prop.len % 4 ≠ 0
  · rw [require_of_neg (not_not_intro (hzero.mpr hlen))]
    refine Or.inl ⟨?_, rfl⟩
    rcases hlen with h | h
    · exact Or.inr (Or.inr (Or.inl h))
    · exact Or.inr (Or.inr (Or.inr (Or.inl h)))
  rw [require_of_pos (mt hzero.mp hlen), ok_bind]
  -- both products are taken modulo 2^32
  have hproduct : ((index + 1) * (BitVec.ofNat 32 node.parentAddressCells
      + BitVec.ofNat 32 node.parentSizeCells)).toNat
      = (index.toNat + 1) * (node.parentAddressCells + node.parentSizeCells) % 2 ^ 32 := by
    rw [BitVec.toNat_mul, hentry, BitVec.toNat_add, Nat.mod_mul_mod]
    rfl
  have hoffset : (index * (BitVec.ofNat 32 node.parentAddressCells
      + BitVec.ofNat 32 node.parentSizeCells)).toNat
      = index.toNat * (node.parentAddressCells + node.parentSizeCells) % 2 ^ 32 := by
    rw [BitVec.toNat_mul, hentry]
  rw [hproduct, hoffset]
  by_cases hcheck : (index.toNat + 1) * (node.parentAddressCells + node.parentSizeCells) % 2 ^ 32
      > prop.len / 4
  · rw [require_of_neg (not_not_intro hcheck)]
    exact Or.inl ⟨Or.inr (Or.inr (Or.inr (Or.inr hcheck))), rfl⟩
  · rw [require_of_pos hcheck]
    refine Or.inr ⟨?_, rfl⟩
    rintro (h | h | h | h | h)
    · omega
    · omega
    · exact hlen (Or.inl h)
    · exact hlen (Or.inr h)
    · exact hcheck h

/-- The address in entry number `index`. -/
def regAddr (a s : ℕ) (bytes : List UInt8) (index : ℕ) : ℕ :=
  bigEndian ((bytes.drop (4 * (index * (a + s)))).take (4 * a))

/-- The size in entry number `index`. -/
def regSize (a s : ℕ) (bytes : List UInt8) (index : ℕ) : ℕ :=
  bigEndian ((bytes.drop (4 * (index * (a + s) + a))).take (4 * s))

/-- **Cells of a property** are read from its bytes. -/
theorem fdtReadCells_propBytes (hmem : prop.data + prop.len ≤ fdt.mem.length) {i n : ℕ}
    (h : 4 * (i + n) ≤ prop.len) :
    fdtReadCells fdt.mem n 0 (prop.data + i * 4)
      = ok (BitVec.ofNat 64 (bigEndian (((fdt.propBytes prop).drop (4 * i)).take (4 * n))),
        prop.data + (i + n) * 4) := by
  have hbytes : ((fdt.propBytes prop).drop (4 * i)).take (4 * n)
      = (fdt.mem.drop (prop.data + i * 4)).take (4 * n) := by
    rw [propBytes, List.drop_take, List.take_take, List.drop_drop, Nat.min_eq_left (by omega),
      Nat.mul_comm 4 i]
  rw [fdtReadCells_eq n (by omega), hbytes]
  refine congrArg ok (Prod.ext ?_ (by show _ = _; ring))
  show BitVec.ofNat 64 (0 * _ + _) = _
  rw [Nat.zero_mul, Nat.zero_add]

/-- **What is asked of `fdt_get_reg`**: the address and the size of the entry if the
whole entry lies inside the property, and outputs left as they were otherwise. -/
def GetsReg (fdt : Fdt) (node : FdtNode) (prop : FdtProp) (index : BitVec 32)
    (outAddr outSize : BitVec 64) : Prop :=
  fdt.fdtGetReg node index outAddr outSize
    = if node.parentAddressCells ≤ 2 ∧ node.parentSizeCells ≤ 2
          ∧ 0 < node.parentAddressCells + node.parentSizeCells ∧ prop.len % 4 = 0
          ∧ (index.toNat + 1) * (node.parentAddressCells + node.parentSizeCells) * 4 ≤ prop.len then
        ok (true,
          BitVec.ofNat 64 (regAddr node.parentAddressCells node.parentSizeCells
            (fdt.propBytes prop) index.toNat),
          BitVec.ofNat 64 (regSize node.parentAddressCells node.parentSizeCells
            (fdt.propBytes prop) index.toNat))
      else ok (false, outAddr, outSize)

/-- **The product wraps around** and passes the check. -/
def RegWraps (a s len index : ℕ) : Prop :=
  a ≤ 2 ∧ s ≤ 2 ∧ 0 < a + s ∧ len % 4 = 0 ∧ 2 ^ 32 ≤ (index + 1) * (a + s)
    ∧ (index + 1) * (a + s) % 2 ^ 32 ≤ len / 4

/-- **`fdt_get_reg` returns the entries of the property exactly if its product does
not wrap around and pass the check.** -/
theorem getsReg_iff (hprop : fdt.fdtGetProperty node regName = ok prop)
    (hmem : prop.data + prop.len ≤ fdt.mem.length) (index : BitVec 32)
    (outAddr outSize : BitVec 64) :
    fdt.GetsReg node prop index outAddr outSize
      ↔ ¬ RegWraps node.parentAddressCells node.parentSizeCells prop.len index.toNat := by
  have hlt := fdtGetProperty_len_lt hprop
  have hcases := fdtRegEntry_cases hprop index
  unfold GetsReg RegWraps fdtGetReg
  set a := node.parentAddressCells with ha
  set s := node.parentSizeCells with hs
  rcases hcases with ⟨hrefused, hentry⟩ | ⟨hread, hentry⟩
  · -- the check fails, and rightly so
    rw [hentry]
    have hmod := Nat.mod_le ((index.toNat + 1) * (a + s)) (2 ^ 32)
    rw [if_neg (by rintro ⟨h₁, h₂, h₃, h₄, h₅⟩; unfold RegRefused at hrefused; omega)]
    refine iff_of_true rfl ?_
    rintro ⟨h₁, h₂, h₃, h₄, -, h₆⟩
    unfold RegRefused at hrefused
    omega
  · unfold RegRefused at hread
    simp only [not_or, not_lt, not_not] at hread
    obtain ⟨h₁, h₂, h₃, h₄, h₅⟩ := hread
    by_cases hwrap : 2 ^ 32 ≤ (index.toNat + 1) * (a + s)
    · -- the entry lies outside, and yet its cells are read
      refine iff_of_false (fun h => ?_) (fun h => h ⟨h₁, h₂, Nat.pos_of_ne_zero h₃, h₄, hwrap, h₅⟩)
      have hne : fdt.fdtRegEntry node index ≠ refused := by
        rw [hentry]
        exact bind_ne_refused (fdtReadCells_ne_refused _ _ _ _) (fun x =>
          bind_ne_refused (fdtReadCells_ne_refused _ _ _ _) (fun y => by simp))
      rw [if_neg (by rintro ⟨-, -, -, -, h₅⟩; omega)] at h
      cases hrun : fdt.fdtRegEntry node index with
      | refused => exact hne hrun
      | fault =>
        rw [hrun] at h
        cases h
      | ok entry =>
        rw [hrun] at h
        cases h
    · -- neither product wraps around, and the entry lies inside
      have hprod : (index.toNat + 1) * (a + s) = index.toNat * (a + s) + (a + s) := by ring
      rw [Nat.mod_eq_of_lt (not_le.mp hwrap)] at h₅
      rw [hentry, Nat.mod_eq_of_lt (show index.toNat * (a + s) < 2 ^ 32 by omega),
        fdtReadCells_propBytes hmem (i := index.toNat * (a + s)) (n := a) (by omega), ok_bind]
      dsimp only
      rw [fdtReadCells_propBytes hmem (i := index.toNat * (a + s) + a) (n := s) (by omega),
        if_pos ⟨h₁, h₂, Nat.pos_of_ne_zero h₃, h₄, by omega⟩]
      exact iff_of_true rfl (fun h => hwrap h.2.2.2.2.1)

/-- A blob whose root has one entry: 16 bytes at 4096. -/
def regBlob : List UInt8 :=
  FdtHeader.bytes ⟨84, 40, 80, 40, 17, 16, 0, 4, 40⟩
    ++ structText [FdtToken.beginNode ⟨[], nul_notMem_nil⟩,
      FdtToken.prop 0 ⟨regName, [0, 0, 0, 0, 0, 0, 16, 0, 0, 0, 0, 16]⟩, FdtToken.endNode]
    ++ regName.bytes

/-- What `fdt_init` makes of it. -/
def regFdt : Fdt := ⟨regBlob, 4096, 40, 80, 80, 4⟩

theorem fdtGetProperty_regFdt : regFdt.fdtGetProperty ⟨0, 2, 1⟩ regName = ok ⟨60, 12⟩ := by
  decide +kernel

/-- The entry is returned. -/
theorem getsReg_iff_regFdt :
    regFdt.fdtGetReg ⟨0, 2, 1⟩ 0 0 0 = ok (true, 4096, 16)
      ∧ (regFdt.GetsReg ⟨0, 2, 1⟩ ⟨60, 12⟩ 0 0 0 ↔ ¬ RegWraps 2 1 12 0) :=
  ⟨by decide +kernel, getsReg_iff fdtGetProperty_regFdt (by decide +kernel) 0 0 0⟩

/-- **The last index passes the check**, since the number of entries is zero for it,
and the cells are read outside the blob. -/
theorem not_getsReg_regFdt :
    fdtInit regBlob 4096 = ok regFdt
      ∧ regFdt.fdtFindNodeByPath ⟨[slash], by decide⟩ = ok ⟨0, 2, 1⟩
      ∧ regFdt.fdtGetProperty ⟨0, 2, 1⟩ regName = ok ⟨60, 12⟩
      ∧ regFdt.fdtGetReg ⟨0, 2, 1⟩ 4294967295 0 0 = fault
      ∧ ¬ regFdt.GetsReg ⟨0, 2, 1⟩ ⟨60, 12⟩ 4294967295 0 0 := by
  have hinit : fdtInit regBlob 4096 = ok regFdt := rfl
  have hfind : regFdt.fdtFindNodeByPath ⟨[slash], by decide⟩ = ok ⟨0, 2, 1⟩ := by decide +kernel
  have hfault : regFdt.fdtGetReg ⟨0, 2, 1⟩ 4294967295 0 0 = fault := by decide +kernel
  refine ⟨hinit, hfind, fdtGetProperty_regFdt, hfault, fun h => ?_⟩
  unfold GetsReg at h
  rw [hfault] at h
  split at h <;> cases h

end Fdt
