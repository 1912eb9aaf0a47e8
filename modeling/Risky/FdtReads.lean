import Risky.Fdt

/-!
# Reading a device tree within bounds

What the small functions of `dev/fdt.c` find when the header is in order
(`Fdt.InRange`): big-endian words, names that are bounded by the end of a block,
and names of properties. Past the end of the structure block the differences of
pointers wrap around, and the bounds are none.
-/

/-! ## Words -/

theorem fdtReadBe32_eq_none_iff {mem : List UInt8} {ptr : ℕ} :
    fdtReadBe32 mem ptr = none ↔ mem.length < ptr + 4 := by
  have hlen := List.length_drop (i := ptr) (l := mem)
  unfold fdtReadBe32
  split
  · next h =>
    rw [h] at hlen
    simp only [List.length_cons] at hlen
    simp only [reduceCtorEq, false_iff]
    omega
  · next h =>
    refine iff_of_true rfl ?_
    by_contra hge
    match hdrop : mem.drop ptr with
    | b₀ :: b₁ :: b₂ :: b₃ :: rest => exact h b₀ b₁ b₂ b₃ rest hdrop
    | [] | [_] | [_, _] | [_, _, _] =>
      rw [hdrop] at hlen
      simp only [List.length_cons, List.length_nil] at hlen
      omega

theorem fdtReadBe32_ne_none {mem : List UInt8} {ptr : ℕ} (h : ptr + 4 ≤ mem.length) :
    fdtReadBe32 mem ptr ≠ none :=
  fun hnone => absurd (fdtReadBe32_eq_none_iff.mp hnone) (by omega)

/-- A word is made of its four bytes. -/
theorem be32_eq (b₀ b₁ b₂ b₃ : UInt8) :
    b₀.toNat <<< 24 ||| b₁.toNat <<< 16 ||| b₂.toNat <<< 8 ||| b₃.toNat
      = b₀.toNat * 2 ^ 24 + b₁.toNat * 2 ^ 16 + b₂.toNat * 2 ^ 8 + b₃.toNat := by
  have h₁ := b₁.toNat_lt
  have h₂ := b₂.toNat_lt
  have h₃ := b₃.toNat_lt
  rw [Nat.or_assoc, Nat.or_assoc, ← Nat.shiftLeft_add_eq_or_of_lt (show b₃.toNat < 2 ^ 8 from h₃),
    ← Nat.shiftLeft_add_eq_or_of_lt (show _ < 2 ^ 16 by rw [Nat.shiftLeft_eq]; omega),
    ← Nat.shiftLeft_add_eq_or_of_lt
      (show _ < 2 ^ 24 by rw [Nat.shiftLeft_eq, Nat.shiftLeft_eq]; omega)]
  simp only [Nat.shiftLeft_eq]
  omega

theorem fdtReadBe32_lt {mem : List UInt8} {ptr v : ℕ} (h : fdtReadBe32 mem ptr = some v) :
    v < 2 ^ 32 := by
  unfold fdtReadBe32 at h
  split at h
  · next b₀ b₁ b₂ b₃ _ _ =>
    have h₀ := b₀.toNat_lt
    have h₁ := b₁.toNat_lt
    have h₂ := b₂.toNat_lt
    have h₃ := b₃.toNat_lt
    rw [be32_eq, Option.some.injEq] at h
    omega
  · exact absurd h (by simp)

/-! ## Differences of pointers -/

theorem sizeDiff_of_le {limit ptr : ℕ} (h : ptr ≤ limit) (hlt : limit < 2 ^ 64) :
    sizeDiff limit ptr = limit - ptr := by
  unfold sizeDiff
  omega

/-- **Past the limit the difference is huge**. -/
theorem le_sizeDiff_of_lt {limit ptr : ℕ} (h : limit < ptr) (hle : ptr ≤ limit + 2 ^ 32) :
    2 ^ 63 ≤ sizeDiff limit ptr := by
  unfold sizeDiff
  omega

namespace Fdt

open Outcome

variable {fdt : Fdt} {ptr n nameoff : ℕ} {mem : List UInt8} {name : CString}

/-- **The blocks lie in the memory**, which is smaller than 4 GiB. -/
structure InRange (fdt : Fdt) : Prop where
  block_le : fdt.structBlock ≤ fdt.structBlockEnd
  end_le : fdt.structBlockEnd ≤ fdt.mem.length
  strings_le : fdt.stringsBlock + fdt.stringsSize ≤ fdt.mem.length
  length_lt : fdt.mem.length < 2 ^ 32

/-- The bytes of a property. -/
def propBytes (fdt : Fdt) (prop : FdtProp) : List UInt8 := (fdt.mem.drop prop.data).take prop.len

/-! ## Bounded names -/

/-- **A name before the end** is found, or the call is refused. -/
theorem fdtBoundedStrlen_cases (h : fdt.InRange) (hptr : ptr ≤ fdt.structBlockEnd) :
    (∃ s : CString, s.bytes <+: fdt.mem.drop ptr ∧ ptr + s.length < fdt.structBlockEnd
        ∧ fdt.fdtBoundedStrlen ptr fdt.structBlockEnd = ok s.length)
      ∨ fdt.fdtBoundedStrlen ptr fdt.structBlockEnd = refused := by
  have hend := h.end_le
  have hlt := h.length_lt
  unfold fdtBoundedStrlen
  rw [sizeDiff_of_le hptr (by omega)]
  rcases CString.strnlen_cases (fdt.mem.drop ptr) (fdt.structBlockEnd - ptr) with
    ⟨s, hs, hlen, hrun⟩ | ⟨-, -, hrun⟩ | ⟨hlen, -⟩
  · refine Or.inl ⟨s, hs, by omega, ?_⟩
    rw [hrun, access_some, ok_bind, require_of_pos (show ptr + s.length < _ by omega)]
    rfl
  · refine Or.inr ?_
    rw [hrun, access_some, ok_bind, require_of_neg (by omega)]
    rfl
  · rw [List.length_drop] at hlen
    omega

/-- A name that stands there, and ends before the end. -/
theorem fdtBoundedStrlen_of_prefix (h : fdt.InRange) (hname : name.bytes <+: fdt.mem.drop ptr)
    (hlen : ptr + name.length < fdt.structBlockEnd) :
    fdt.fdtBoundedStrlen ptr fdt.structBlockEnd = ok name.length := by
  have hend := h.end_le
  have hlt := h.length_lt
  unfold fdtBoundedStrlen
  rw [sizeDiff_of_le (by omega) (by omega), CString.strnlen_eq hname (by omega), access_some,
    ok_bind, require_of_pos hlen]
  rfl

/-- **Past the end a name is not bounded**: it is read up to a NUL, and then
refused. -/
theorem fdtBoundedStrlen_of_lt (h : fdt.InRange) (hptr : fdt.structBlockEnd < ptr)
    (hle : ptr ≤ fdt.structBlockEnd + 2 ^ 32) :
    fdt.fdtBoundedStrlen ptr fdt.structBlockEnd
      = if 0 ∈ fdt.mem.drop ptr then refused else fault := by
  have hlt := h.length_lt
  have hdiff := le_sizeDiff_of_lt hptr hle
  have hlen := List.length_drop (i := ptr) (l := fdt.mem)
  unfold fdtBoundedStrlen
  rcases CString.strnlen_cases (fdt.mem.drop ptr) (sizeDiff fdt.structBlockEnd ptr) with
    ⟨s, hs, -, hrun⟩ | ⟨hle', -⟩ | ⟨-, hnul, hrun⟩
  · rw [hrun, access_some, ok_bind, require_of_neg (by omega), if_pos (CString.nul_mem hs)]
    rfl
  · omega
  · rw [hrun, if_neg hnul]
    rfl

/-! ## Names of properties -/

/-- **A name in the strings block**. -/
def NameAt (fdt : Fdt) (nameoff : ℕ) (name : CString) : Prop :=
  nameoff + name.length < fdt.stringsSize
    ∧ name.bytes <+: fdt.mem.drop (fdt.stringsBlock + nameoff)

theorem NameAt.eq {name' : CString} (h : fdt.NameAt nameoff name) (h' : fdt.NameAt nameoff name') :
    name = name' :=
  CString.eq_of_prefix h.2 h'.2

theorem fdtPropNameValidLoop_eq (mem : List UInt8) (n : ℕ) :
    fdtPropNameValidLoop mem n = (strnlen mem n).map (fun len => decide (len < n)) := by
  induction mem generalizing n with
  | nil => cases n <;> rfl
  | cons c mem ih =>
    cases n with
    | zero => rfl
    | succ n =>
      rw [fdtPropNameValidLoop, strnlen]
      split
      · simp
      · rw [ih, Option.map_map]
        congr 1
        funext len
        simp

/-- **A valid name is a string in the strings block**. -/
theorem fdtPropNameValid_cases (h : fdt.InRange) (nameoff : ℕ) :
    (∃ name, fdt.NameAt nameoff name ∧ fdt.fdtPropNameValid nameoff = some true)
      ∨ (∀ name, ¬ fdt.NameAt nameoff name) ∧ fdt.fdtPropNameValid nameoff = some false := by
  have hstrings := h.strings_le
  unfold fdtPropNameValid
  split
  · next hge => exact Or.inr ⟨fun name hname => absurd hname.1 (by omega), rfl⟩
  next hlt =>
  rw [fdtPropNameValidLoop_eq]
  have hlen := List.length_drop (i := fdt.stringsBlock + nameoff) (l := fdt.mem)
  rcases CString.strnlen_cases (fdt.mem.drop (fdt.stringsBlock + nameoff))
    (fdt.stringsSize - nameoff) with ⟨s, hs, hslen, hrun⟩ | ⟨-, hnul, hrun⟩ | ⟨hlen', -⟩
  · refine Or.inl ⟨s, ⟨by omega, hs⟩, ?_⟩
    rw [hrun, Option.map_some, decide_eq_true hslen]
  · refine Or.inr ⟨fun name hname => hnul ?_, ?_⟩
    · have hprefix : name.bytes <+: (fdt.mem.drop (fdt.stringsBlock + nameoff)).take
          (fdt.stringsSize - nameoff) := by
        refine List.prefix_take_iff.mpr ⟨hname.2, ?_⟩
        rw [CString.length_bytes]
        have := hname.1
        omega
      exact CString.nul_mem hprefix
    · rw [hrun, Option.map_some]
      simp
  · omega

theorem fdtPropNameValid_of_nameAt (h : fdt.InRange) (hname : fdt.NameAt nameoff name) :
    fdt.fdtPropNameValid nameoff = some true := by
  rcases fdtPropNameValid_cases h nameoff with ⟨-, -, hrun⟩ | ⟨hno, -⟩
  · exact hrun
  · exact absurd hname (hno name)

end Fdt
