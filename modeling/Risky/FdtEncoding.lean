import Risky.FdtScan
import Risky.DeviceTree

/-!
# Flattened device trees

The text of a device tree as bytes. Its events are tokens that may have `FDT_NOP`s
between them, and the names of properties are in a block of their own, in any order
and perhaps sharing their ends (`Flattens`). Wherever a token stands the functions of
`dev/fdt.c` read what has been written, and the next token stands where they go on
(`Fdt.Stands`); a scan over the tokens comes to the properties of the node that has
just begun (`Fdt.scan_eq`).
-/

/-! ## Bytes -/

/-- A big-endian word. -/
def be32 (n : ℕ) : List UInt8 :=
  [UInt8.ofNat (n / 2 ^ 24), UInt8.ofNat (n / 2 ^ 16), UInt8.ofNat (n / 2 ^ 8), UInt8.ofNat n]

/-- Bytes with zeros up to a multiple of four. -/
def padded (bytes : List UInt8) : List UInt8 :=
  bytes ++ List.replicate ((4 - bytes.length % 4) % 4) 0

theorem length_padded (bytes : List UInt8) :
    (padded bytes).length = (bytes.length + 3) / 4 * 4 := by
  rw [padded, List.length_append, List.length_replicate]
  omega

section Prefix

variable {mem xs ys : List UInt8} {ptr n : ℕ}

/-- What stands behind other bytes. -/
theorem prefix_drop_of_append (h : xs ++ ys <+: mem.drop ptr) :
    ys <+: mem.drop (ptr + xs.length) := by
  obtain ⟨rest, hrest⟩ := h
  refine ⟨rest, ?_⟩
  rw [← List.drop_drop, ← hrest, List.append_assoc, List.drop_left]

theorem prefix_of_append (h : xs ++ ys <+: mem.drop ptr) : xs <+: mem.drop ptr :=
  (List.prefix_append xs ys).trans h

/-- **A word is read as it was written.** -/
theorem fdtReadBe32_be32 (hn : n < 2 ^ 32) (h : be32 n <+: mem.drop ptr) :
    fdtReadBe32 mem ptr = some n := by
  obtain ⟨rest, hrest⟩ := h
  unfold fdtReadBe32
  rw [← hrest]
  show some (_ ||| _) = _
  rw [be32_eq]
  simp only [UInt8.toNat_ofNat']
  refine congrArg some ?_
  omega

end Prefix

/-! ## Tokens -/

/-- **A token of the structure block**. A property refers to its name by an offset. -/
inductive FdtToken where
  | beginNode (name : CString)
  | endNode
  | prop (nameoff : ℕ) (p : DtProp)
  | nop

namespace FdtToken

/-- The bytes of a token. -/
def bytes : FdtToken → List UInt8
  | beginNode name => be32 0x1 ++ padded name.bytes
  | endNode => be32 0x2
  | prop nameoff p => be32 0x3 ++ (be32 p.value.length ++ (be32 nameoff ++ padded p.value))
  | nop => be32 0x4

/-- What a token announces. -/
def event : FdtToken → Option DtEvent
  | beginNode name => some (DtEvent.beginNode name)
  | endNode => some DtEvent.endNode
  | prop _ p => some (DtEvent.prop p)
  | nop => none

theorem length_bytes_mod (t : FdtToken) : t.bytes.length % 4 = 0 := by
  cases t <;> simp only [bytes, List.length_append, length_padded] <;> simp [be32]

end FdtToken

/-- The structure block: the tokens and `FDT_END`. -/
def structText (ts : List FdtToken) : List UInt8 := ts.flatMap FdtToken.bytes ++ be32 0x9

/-- The offsets at which nodes begin. -/
def starts : ℕ → List FdtToken → List ℕ
  | _, [] => []
  | offset, FdtToken.beginNode name :: ts =>
    offset :: starts (offset + (FdtToken.beginNode name).bytes.length) ts
  | offset, FdtToken.endNode :: ts => starts (offset + FdtToken.endNode.bytes.length) ts
  | offset, FdtToken.prop nameoff p :: ts =>
    starts (offset + (FdtToken.prop nameoff p).bytes.length) ts
  | offset, FdtToken.nop :: ts => starts (offset + FdtToken.nop.bytes.length) ts

theorem structText_cons (t : FdtToken) (ts : List FdtToken) :
    structText (t :: ts) = t.bytes ++ structText ts := by
  rw [structText, List.flatMap_cons, List.append_assoc]
  rfl

theorem four_le_length_structText (ts : List FdtToken) : 4 ≤ (structText ts).length := by
  rw [structText, List.length_append]
  exact Nat.le_add_left 4 _

/-! ## Blobs -/

/-- **The header of a blob**, but for its magic number. -/
structure FdtHeader where
  totalsize : ℕ
  offDtStruct : ℕ
  offDtStrings : ℕ
  offMemRsvmap : ℕ
  version : ℕ
  lastCompVersion : ℕ
  bootCpuidPhys : ℕ
  sizeDtStrings : ℕ
  sizeDtStruct : ℕ

/-- The bytes of a header. -/
def FdtHeader.bytes (header : FdtHeader) : List UInt8 :=
  be32 0xd00dfeed ++ (be32 header.totalsize ++ (be32 header.offDtStruct ++
    (be32 header.offDtStrings ++ (be32 header.offMemRsvmap ++ (be32 header.version ++
      (be32 header.lastCompVersion ++ (be32 header.bootCpuidPhys ++
        (be32 header.sizeDtStrings ++ be32 header.sizeDtStruct))))))))

/-- **A tree is flattened**: the memory at an address holds a blob, whose tokens are
the text of the tree. -/
structure Flattens (T : DeviceTree) (ts : List FdtToken) (header : FdtHeader) (mem : List UInt8)
    (base : ℕ) : Prop where
  /-- The blob is aligned, -/
  base_aligned : base % 4 = 0
  /-- and so is the structure block. -/
  struct_aligned : header.offDtStruct % 4 = 0
  /-- The header comes first. -/
  header_stands : header.bytes <+: mem
  /-- The memory that may be read holds the whole blob, and is smaller than 4 GiB. -/
  total_le : header.totalsize ≤ mem.length
  length_lt : mem.length < 2 ^ 32
  /-- The structure block lies in the blob, and holds the tokens. -/
  struct_le : header.offDtStruct + header.sizeDtStruct ≤ header.totalsize
  struct_size : header.sizeDtStruct = (structText ts).length
  struct_text : structText ts <+: mem.drop header.offDtStruct
  /-- The tokens announce the tree. -/
  events : ts.filterMap FdtToken.event = T.events
  /-- The strings block lies in the blob, and holds the names of the properties. -/
  strings_le : header.offDtStrings + header.sizeDtStrings ≤ header.totalsize
  names : ∀ nameoff p, FdtToken.prop nameoff p ∈ ts →
    nameoff + p.name.length < header.sizeDtStrings
      ∧ p.name.bytes <+: mem.drop (header.offDtStrings + nameoff)

/-- What `fdt_init` makes of a blob. -/
def FdtHeader.fdt (header : FdtHeader) (mem : List UInt8) (base : ℕ) : Fdt :=
  ⟨mem, base, header.offDtStruct, header.offDtStruct + header.sizeDtStruct, header.offDtStrings,
    header.sizeDtStrings⟩

namespace Fdt

open Outcome

variable {fdt : Fdt} {ptr depth : ℕ} {t : FdtToken} {ts : List FdtToken} {name : CString}

/-- **Tokens stand at `ptr`**, up to the end of the structure block. -/
structure Stands (fdt : Fdt) (ptr : ℕ) (ts : List FdtToken) : Prop where
  aligned : (fdt.base + ptr) % 4 = 0
  text : structText ts <+: fdt.mem.drop ptr
  ends : ptr + (structText ts).length = fdt.structBlockEnd
  names : ∀ nameoff p, FdtToken.prop nameoff p ∈ ts → fdt.NameAt nameoff p.name

theorem Stands.next (h : fdt.Stands ptr (t :: ts)) : fdt.Stands (ptr + t.bytes.length) ts where
  aligned := by
    have haligned := h.aligned
    have hmod := t.length_bytes_mod
    omega
  text := by
    have htext := h.text
    rw [structText_cons] at htext
    exact prefix_drop_of_append htext
  ends := by
    have hends := h.ends
    rw [structText_cons, List.length_append] at hends
    omega
  names nameoff p hmem := h.names nameoff p (List.mem_cons_of_mem t hmem)

theorem Stands.lt (h : fdt.Stands ptr ts) : ptr + 4 ≤ fdt.structBlockEnd := by
  have hends := h.ends
  have hlen := four_le_length_structText ts
  omega

theorem Stands.bytes_stand (h : fdt.Stands ptr (t :: ts)) : t.bytes <+: fdt.mem.drop ptr := by
  have htext := h.text
  rw [structText_cons] at htext
  exact prefix_of_append htext

theorem Stands.bytes_le (h : fdt.Stands ptr (t :: ts)) :
    ptr + t.bytes.length + 4 ≤ fdt.structBlockEnd := h.next.lt

/-- Rounding up leads behind the padding. -/
theorem fdtAlign4_padded (haligned : (fdt.base + ptr) % 4 = 0) (xs : List UInt8) :
    fdt.fdtAlign4 (ptr + xs.length) = ptr + (padded xs).length := by
  rw [length_padded]
  unfold fdtAlign4
  omega

/-! ## Reading a token -/

theorem read_end (h : fdt.Stands ptr []) : fdtReadBe32 fdt.mem ptr = some fdtEnd :=
  fdtReadBe32_be32 (by decide) h.text

theorem read_endNode (h : fdt.Stands ptr (FdtToken.endNode :: ts)) :
    fdtReadBe32 fdt.mem ptr = some fdtEndNode :=
  fdtReadBe32_be32 (by decide) h.bytes_stand

theorem read_nop (h : fdt.Stands ptr (FdtToken.nop :: ts)) :
    fdtReadBe32 fdt.mem ptr = some fdtNop :=
  fdtReadBe32_be32 (by decide) h.bytes_stand

theorem read_beginNode (h : fdt.Stands ptr (FdtToken.beginNode name :: ts)) :
    fdtReadBe32 fdt.mem ptr = some fdtBeginNode :=
  fdtReadBe32_be32 (by decide) (prefix_of_append h.bytes_stand)

/-- The name of a node. -/
theorem name_stands (h : fdt.Stands ptr (FdtToken.beginNode name :: ts)) :
    name.bytes <+: fdt.mem.drop (ptr + 4) :=
  (List.prefix_append _ _).trans (prefix_drop_of_append h.bytes_stand)

theorem length_beginNode (name : CString) :
    (FdtToken.beginNode name).bytes.length = 4 + (padded name.bytes).length :=
  List.length_append

/-- The token behind a name. -/
theorem align_beginNode (h : fdt.Stands ptr (FdtToken.beginNode name :: ts)) :
    fdt.fdtAlign4 (ptr + 4 + name.length + 1)
      = ptr + (FdtToken.beginNode name).bytes.length := by
  have haligned := h.aligned
  have hpadded := fdtAlign4_padded (show (fdt.base + (ptr + 4)) % 4 = 0 by omega) name.bytes
  rw [CString.length_bytes] at hpadded
  rw [length_beginNode, ← Nat.add_assoc, ← hpadded]
  rfl

/-- **The length of a name** is found. -/
theorem boundedStrlen_beginNode (hrange : fdt.InRange)
    (h : fdt.Stands ptr (FdtToken.beginNode name :: ts)) :
    fdt.fdtBoundedStrlen (ptr + 4) fdt.structBlockEnd = ok name.length := by
  have hle := h.bytes_le
  have hlen := length_padded name.bytes
  rw [length_beginNode] at hle
  rw [CString.length_bytes] at hlen
  exact fdtBoundedStrlen_of_prefix hrange (name_stands h) (by omega)

theorem read_prop {nameoff : ℕ} {p : DtProp}
    (h : fdt.Stands ptr (FdtToken.prop nameoff p :: ts)) :
    fdtReadBe32 fdt.mem ptr = some fdtPropToken :=
  fdtReadBe32_be32 (by decide) (prefix_of_append h.bytes_stand)

theorem length_prop (nameoff : ℕ) (p : DtProp) :
    (FdtToken.prop nameoff p).bytes.length = 12 + (padded p.value).length := by
  simp [FdtToken.bytes, be32]
  omega

/-- The offset of the name of a property. -/
theorem read_nameoff (hrange : fdt.InRange) {nameoff : ℕ} {p : DtProp}
    (h : fdt.Stands ptr (FdtToken.prop nameoff p :: ts)) :
    fdtReadBe32 fdt.mem (ptr + 8) = some nameoff := by
  have hnameoff := (h.names nameoff p List.mem_cons_self).1
  have hstrings := hrange.strings_le
  have hlt := hrange.length_lt
  have hstands := prefix_drop_of_append (prefix_drop_of_append h.bytes_stand)
  exact fdtReadBe32_be32 (by omega) (prefix_of_append hstands)

/-- **A property that stands there.** -/
theorem propAt (hrange : fdt.InRange) {nameoff : ℕ} {p : DtProp}
    (h : fdt.Stands ptr (FdtToken.prop nameoff p :: ts)) :
    fdt.PropAt ptr p.name p.value.length := by
  have hle := h.bytes_le
  have hend := hrange.end_le
  have hlt := hrange.length_lt
  have hlen := length_padded p.value
  have hstands := prefix_drop_of_append h.bytes_stand
  rw [length_prop] at hle
  refine ⟨read_prop h, fdtReadBe32_be32 (by omega) (prefix_of_append hstands),
    ⟨nameoff, read_nameoff hrange h, h.names nameoff p List.mem_cons_self⟩, Or.inl (by omega)⟩

/-- The bytes of a property. -/
theorem value_stands {nameoff : ℕ} {p : DtProp}
    (h : fdt.Stands ptr (FdtToken.prop nameoff p :: ts)) : p.value <+: fdt.mem.drop (ptr + 12) :=
  (List.prefix_append _ _).trans
    (prefix_drop_of_append (prefix_drop_of_append (prefix_drop_of_append h.bytes_stand)))

theorem align_prop {nameoff : ℕ} {p : DtProp}
    (h : fdt.Stands ptr (FdtToken.prop nameoff p :: ts)) :
    fdt.fdtAlign4 (ptr + 12 + p.value.length)
      = ptr + (FdtToken.prop nameoff p).bytes.length := by
  have haligned := h.aligned
  have hpadded := fdtAlign4_padded (show (fdt.base + (ptr + 12)) % 4 = 0 by omega) p.value
  rw [length_prop, ← Nat.add_assoc, ← hpadded]

/-! ## Scanning for a property -/

section Scan

variable {key : CString}

theorem scanTurn_beginNode (hrange : fdt.InRange)
    (h : fdt.Stands ptr (FdtToken.beginNode name :: ts)) :
    fdt.fdtScanTurn key ⟨ptr, depth⟩
      = ok (Sum.inl ⟨ptr + (FdtToken.beginNode name).bytes.length, depth + 1⟩) := by
  unfold fdtScanTurn
  rw [read_beginNode h, access_some, ok_bind, if_pos rfl]
  dsimp only
  rw [boundedStrlen_beginNode hrange h, ok_bind, align_beginNode h]
  rfl

theorem scanTurn_endNode (h : fdt.Stands ptr (FdtToken.endNode :: ts)) :
    fdt.fdtScanTurn key ⟨ptr, depth⟩
      = if depth = 0 then refused else ok (Sum.inl ⟨ptr + 4, depth - 1⟩) := by
  unfold fdtScanTurn
  rw [read_endNode h, access_some, ok_bind, if_neg (by decide), if_pos rfl]
  by_cases hdepth : depth = 0
  · rw [if_pos hdepth, require_of_neg (not_not_intro hdepth)]
    rfl
  · rw [if_neg hdepth, require_of_pos hdepth]
    rfl

theorem scanTurn_nop (h : fdt.Stands ptr (FdtToken.nop :: ts)) :
    fdt.fdtScanTurn key ⟨ptr, depth⟩ = ok (Sum.inl ⟨ptr + 4, depth⟩) := by
  unfold fdtScanTurn
  rw [read_nop h, access_some, ok_bind, if_neg (by decide), if_neg (by decide),
    if_neg (by decide), if_pos rfl]
  rfl

theorem scanTurn_end (h : fdt.Stands ptr []) : fdt.fdtScanTurn key ⟨ptr, depth⟩ = refused := by
  unfold fdtScanTurn
  rw [read_end h, access_some, ok_bind, if_neg (by decide), if_neg (by decide),
    if_neg (by decide), if_neg (by decide)]

/-- What a search for a property comes to: the first of that name among some, and
its bytes, or nothing. -/
def Finds (fdt : Fdt) (key : CString) (props : List DtProp) (found : Outcome FdtProp) : Prop :=
  match props.find? (fun p => p.name = key) with
  | some p => ∃ data, found = ok ⟨data, p.value.length⟩ ∧ p.value <+: fdt.mem.drop data
  | none => found = refused

/-- **The scan comes to the properties of the node** that has just begun, and to no
others. -/
theorem scan_eq (hrange : fdt.InRange) (h : fdt.Stands ptr ts) :
    fdt.Finds key (ownProps depth (ts.filterMap FdtToken.event))
      ((fdt.fdtScanLoop key).run ⟨ptr, depth⟩) := by
  induction ts generalizing ptr depth with
  | nil =>
    rw [Loop.run_of_refused (scanTurn_end h)]
    cases depth <;> exact rfl
  | cons t ts ih =>
    have hmore : (fdt.fdtScanLoop key).more ⟨ptr, depth⟩ = true :=
      decide_eq_true (show ptr < fdt.structBlockEnd by have := h.lt; omega)
    cases t with
    | beginNode name =>
      rw [Loop.run_of_next hmore (scanTurn_beginNode hrange h)]
      cases depth <;> exact ih h.next
    -- the end of the node itself ends the scan, that of a subnode does not
    | endNode =>
      cases depth with
      | zero =>
        rw [Loop.run_of_refused ((scanTurn_endNode h).trans (if_pos rfl))]
        exact rfl
      | succ depth =>
        rw [Loop.run_of_next hmore ((scanTurn_endNode h).trans (if_neg (Nat.succ_ne_zero _)))]
        exact ih h.next
    | nop =>
      rw [Loop.run_of_next hmore (scanTurn_nop h)]
      exact ih h.next
    | prop nameoff p =>
      have hturn : fdt.fdtScanTurn key ⟨ptr, depth⟩
          = if depth = 0 ∧ p.name = key then ok (Sum.inr ⟨ptr + 12, p.value.length⟩)
            else ok (Sum.inl ⟨fdt.fdtAlign4 (ptr + 12 + p.value.length), depth⟩) :=
        fdtScanTurn_of_propAt hrange (of_decide_eq_true hmore) (propAt hrange h)
      -- properties of subnodes are skipped, whatever their names
      by_cases hkey : depth = 0 ∧ p.name = key
      · rw [if_pos hkey] at hturn
        obtain ⟨rfl, rfl⟩ := hkey
        rw [Loop.run_of_result hmore hturn, Finds]
        show match (p :: _).find? _ with | some _ => _ | none => _
        rw [List.find?_cons_of_pos (by simp)]
        exact ⟨ptr + 12, rfl, value_stands h⟩
      · rw [if_neg hkey, align_prop h] at hturn
        rw [Loop.run_of_next hmore hturn]
        have hrest := @ih _ depth h.next
        cases depth with
        | zero =>
          have hname : p.name ≠ key := fun hname => hkey ⟨rfl, hname⟩
          rw [Finds] at hrest ⊢
          show match (p :: _).find? _ with | some _ => _ | none => _
          rw [List.find?_cons_of_neg (by simpa using hname)]
          exact hrest
        | succ depth => exact hrest

end Scan

end Fdt
