import Risky.FdtCompatible
import Risky.FdtReg
import Risky.Uart

/-!
# The port that a device tree describes

Which serial port `uart_init` settles on, said of the tree itself: the node that the
console names, or an alias of it, if it is one of a serial port, and the first compatible
node otherwise, with its first entry of `reg` (`DeviceTree.uartPort`). On the blob that a
tree is flattened to, the search of `uart.c` finds this port, whatever the layout of the
blob and the buffers on the stack (`Flattens.uartPort_eq`).
-/

open Outcome

/-! ## What a tree says -/

namespace DtNode

/-- The bytes of a property. -/
def value (n : DtNode) (name : CString) : Option (List UInt8) :=
  (n.props.find? (fun p => p.name = name)).map DtProp.value

/-- A property with one cell. -/
def u32 (n : DtNode) (name : CString) : Option ℕ :=
  (n.value name).bind (fun v => if v.length = 4 then some (bigEndian v) else none)

/-- **The first entry of `reg`**, if the cells of the parent are supported and it is there. -/
def reg (n : DtNode) : Option (BitVec 64 × BitVec 64) :=
  (n.value regName).bind (fun v =>
    if n.parentAddressCells ≤ 2 ∧ n.parentSizeCells ≤ 2
        ∧ 0 < n.parentAddressCells + n.parentSizeCells ∧ v.length % 4 = 0
        ∧ 4 * (n.parentAddressCells + n.parentSizeCells) ≤ v.length then
      some (BitVec.ofNat 64 (bigEndian (v.take (4 * n.parentAddressCells))),
        BitVec.ofNat 64
          (bigEndian ((v.drop (4 * n.parentAddressCells)).take (4 * n.parentSizeCells))))
    else none)

end DtNode

/-- A string that ends in NUL, cut at the first of some characters, if it is not too long. -/
def stringValue (stops : List UInt8) (v : List UInt8) : Option CString :=
  if v.getLast? = some 0 ∧ (cutAt (0 :: stops) v).length < Uart.uartPathMax then
    some ⟨cutAt (0 :: stops) v, notMem_cutAt List.mem_cons_self v⟩
  else none

namespace DeviceTree

variable (T : DeviceTree)

/-- The node with a path. -/
def nodeAt (path : CString) : Option DtNode := T.nodes.find? (fun n => n.path = path)

/-- **The console of the tree.** -/
def stdout : Option CString :=
  (T.nodeAt chosenPath).bind (fun n =>
    ((n.value stdoutPath).or (n.value linuxStdoutPath)).bind (stringValue [0x3a]))

/-- What an alias stands for. -/
def aliasOf (name : CString) : Option CString :=
  (T.nodeAt aliasesPath).bind (fun n => (n.value name).bind (stringValue []))

/-- A name that is not a path is one of an alias, if there is such an alias. -/
def resolve (path : CString) : CString :=
  if path.chars.head? = some slash then path else (T.aliasOf path).getD path

/-- The node is one of a serial port. -/
def IsUart (n : DtNode) : Prop := ∃ c ∈ Uart.uartCompatibles, HasCompatible n.props c

instance (n : DtNode) : Decidable (IsUart n) := inferInstanceAs (Decidable (∃ c ∈ _, _))

/-- **The node of the console**, if it is one of a serial port. -/
def consoleNode : Option DtNode :=
  (T.stdout.bind (fun path => T.nodeAt (T.resolve path))).filter (fun n => IsUart n)

/-- **The node of the port**: without such a console it is the first that is compatible
with the first string that any node is compatible with. -/
def uartNode : Option DtNode :=
  T.consoleNode.or
    (Uart.uartCompatibles.findSome? (fun c => T.nodes.find? (fun n => HasCompatible n.props c)))

/-- The port at a node. -/
def portAt (n : DtNode) : Option Uart.UartPort :=
  n.reg.bind (fun r =>
    if r.2 = 0 ∨ ∃ w ∈ n.u32 Uart.regIoWidthName, w ≠ 1 ∧ w ≠ 4 then none
    else some ⟨r.1, r.2, BitVec.ofNat 32 ((n.u32 Uart.regShiftName).getD 0),
      BitVec.ofNat 32 ((n.u32 Uart.regIoWidthName).getD 1)⟩)

/-- **The port of the tree.** -/
def uartPort : Option Uart.UartPort := T.uartNode.bind portAt

end DeviceTree

/-! ## What the blob says -/

/-- A result or a refusal. -/
def ofOption {α : Type} : Option α → Outcome α
  | some a => ok a
  | none => refused

theorem attempt_ofOption {α : Type} (o : Option α) : attempt (ofOption o) = ok o := by
  cases o <;> rfl

theorem cutAt_of_notMem {xs : List UInt8} (hxs : 0 ∉ xs) (rest : List UInt8) :
    cutAt [0] (xs ++ 0 :: rest) = xs := by
  induction xs with
  | nil => rw [List.nil_append, cutAt_cons, if_pos (List.mem_singleton_self 0)]
  | cons c xs ih =>
    obtain ⟨hc, hxs⟩ := not_or.mp (mt List.mem_cons.mpr hxs)
    rw [List.cons_append, cutAt_cons, if_neg (fun h => hc (List.mem_singleton.mp h).symm), ih hxs]

/-- The string that has been copied to a buffer. -/
theorem stringAt_copy (s : CString) (rest : List UInt8) :
    Uart.stringAt (s.chars ++ 0 :: rest) = some s := by
  rw [Uart.stringAt, if_pos (List.mem_append_right _ List.mem_cons_self)]
  exact congrArg some (CString.ext (cutAt_of_notMem s.nul_notMem rest))

/-- It is a path if the string is. -/
theorem head?_copy (s : CString) (rest : List UInt8) :
    (s.chars ++ 0 :: rest).head? = some slash ↔ s.chars.head? = some slash := by
  cases s.chars with
  | nil => exact iff_of_false (fun h => absurd (Option.some.inj h) (by decide)) (by decide)
  | cons c chars => exact Iff.rfl

namespace Fdt

variable {fdt : Fdt}

/-- **A lookup finds some bytes** in the blob, or none. -/
def Reads (fdt : Fdt) (lookup : Outcome FdtProp) (v : Option (List UInt8)) : Prop :=
  match v with
  | some v => ∃ data, lookup = ok ⟨data, v.length⟩ ∧ v <+: fdt.mem.drop data
  | none => lookup = refused

theorem Finds.reads {key : CString} {n : DtNode} {found : Outcome FdtProp}
    (h : fdt.Finds key n.props found) : fdt.Reads found (n.value key) := by
  unfold Finds at h
  unfold Reads DtNode.value
  cases hfind : n.props.find? (fun p => p.name = key) with
  | none =>
    rw [hfind] at h
    exact h
  | some p =>
    rw [hfind] at h
    exact h

/-- The bytes are those of the property. -/
theorem propBytes_of_reads {data : ℕ} {v : List UInt8} (h : v <+: fdt.mem.drop data) :
    fdt.propBytes ⟨data, v.length⟩ = v :=
  (List.prefix_iff_eq_take.mp h).symm

/-- The last byte of a property is that of its bytes. -/
theorem lastByte_of_reads {data : ℕ} {v : List UInt8} (h : v <+: fdt.mem.drop data)
    (hzero : v.length ≠ 0) : fdt.lastByte ⟨data, v.length⟩ = v.getLast? := by
  rw [lastByte, List.getLast?_eq_getElem?, ← List.getElem?_drop]
  obtain ⟨rest, hrest⟩ := h
  rw [← hrest, List.getElem?_append_left (Nat.sub_one_lt hzero)]

/-- **The string of a property is copied**, if it is one and fits. -/
theorem fdtCopyPropTo_of_reads {lookup : Outcome FdtProp} {v : Option (List UInt8)}
    (h : fdt.Reads lookup v) {stops buffer : List UInt8} {lenOf : List UInt8 → Outcome ℕ}
    (hbuffer : Uart.uartPathMax ≤ buffer.length)
    (hlen : ∀ mem, 0 ∈ mem → lenOf mem = ok (cutAt (0 :: stops) mem).length) :
    fdt.fdtCopyPropTo lookup lenOf buffer Uart.uartPathMax
      = ok (match v.bind (stringValue stops) with
        | some s => (true, s.chars ++ 0 :: buffer.drop (s.length + 1))
        | none => (false, buffer)) := by
  rw [fdtCopyPropTo_eq hbuffer List.mem_cons_self hlen]
  cases v with
  | none =>
    rw [show lookup = refused from h]
    rfl
  | some v =>
    obtain ⟨data, rfl, hmem⟩ := h
    dsimp only
    by_cases hzero : v.length = 0
    · rw [if_pos hzero, Option.bind_some, stringValue, List.eq_nil_of_length_eq_zero hzero]
      rfl
    rw [if_neg hzero, propBytes_of_reads hmem, lastByte_of_reads hmem hzero, Option.bind_some,
      stringValue]
    cases hlast : v.getLast? with
    | none => exact absurd (List.getLast?_eq_none_iff.mp hlast) (fun h => hzero (h ▸ rfl))
    | some c =>
      simp only [Option.some.injEq]
      by_cases hfits : c = 0 ∧ (cutAt (0 :: stops) v).length < Uart.uartPathMax
      · rw [if_pos hfits, if_pos hfits]
        rfl
      · rw [if_neg hfits, if_neg hfits]

section Tree

variable {T : DeviceTree} {ts : List FdtToken} (hT : T.Valid) (hlists : T.CompatibleLists)
  (hrange : fdt.InRange) (hstands : fdt.Stands fdt.structBlock ts)
  (hevents : ts.filterMap FdtToken.event = T.events)

/-- **A search finds a node** of the tree, or none. -/
def FindsNode (T : DeviceTree) (ts : List FdtToken) (found : Outcome FdtNode)
    (n : Option DtNode) : Prop :=
  match n with
  | some n => ∃ offset, (offset, n) ∈ (starts 0 ts).zip T.nodes
    ∧ found = ok ⟨offset, n.parentAddressCells, n.parentSizeCells⟩
  | none => found = refused

/-- A search that goes on if it finds none. -/
def FindsMaybe (T : DeviceTree) (ts : List FdtToken) (found : Outcome (Option FdtNode))
    (n : Option DtNode) : Prop :=
  match n with
  | some n => ∃ offset, (offset, n) ∈ (starts 0 ts).zip T.nodes
    ∧ found = ok (some ⟨offset, n.parentAddressCells, n.parentSizeCells⟩)
  | none => found = ok none

include hT hevents in
/-- Every node has its offset. -/
theorem exists_offset {n : DtNode} (hn : n ∈ T.nodes) :
    ∃ offset, (offset, n) ∈ (starts 0 ts).zip T.nodes := by
  obtain ⟨i, hi, rfl⟩ := List.getElem_of_mem hn
  have hlength := length_starts_of_events hT hevents
  have hi' : i < (starts 0 ts).length := hlength.symm ▸ hi
  exact ⟨(starts 0 ts)[i], List.mem_iff_getElem.mpr
    ⟨i, by rw [List.length_zip]; omega, List.getElem_zip⟩⟩

include hT hrange hstands hevents

theorem findsNode_path (path : CString) :
    FindsNode T ts (fdt.fdtFindNodeByPath path) (T.nodeAt path) := by
  have hdecodes := hstands.decodes_of_events hT hrange hevents
  unfold DeviceTree.nodeAt
  cases hfind : T.nodes.find? (fun n => n.path = path) with
  | none =>
    refine hdecodes.find_refused path (fun n hn hpath => ?_)
    exact List.find?_eq_none.mp hfind n hn (decide_eq_true hpath)
  | some n =>
    have hpath : n.path = path := of_decide_eq_true
      (List.find?_some (p := fun n : DtNode => decide (n.path = path)) hfind)
    obtain ⟨offset, hmem⟩ := exists_offset hT hevents (List.mem_of_find?_eq_some hfind)
    exact ⟨offset, hmem, hpath ▸ hdecodes.find offset n hmem⟩

include hlists in
theorem findsNode_compatible (c : CString) : FindsNode T ts (fdt.fdtFindCompatible c)
    (T.nodes.find? (fun n => HasCompatible n.props c)) := by
  have hdecodes := hstands.decodes_of_events hT hrange hevents
  have hfind : ∀ offset n, (offset, n) ∈ (starts 0 ts).zip T.nodes →
      fdt.fdtFindNodeByPath n.path
        = ok ⟨offset % 2 ^ 32, n.parentAddressCells, n.parentSizeCells⟩ := by
    intro offset n hmem
    obtain ⟨-, name, ts', hnode, -⟩ := hstands.node hT hevents hmem
    have hlt := hnode.lt
    have hend := hrange.end_le
    have hlength := hrange.length_lt
    rw [hdecodes.find offset n hmem, Nat.mod_eq_of_lt (by omega)]
  have hsearch := (hstands.fdtFindCompatible_eq_firstOf hT hlists hrange hevents c).trans
    (firstOf_zip hdecodes.length_eq (P := fun n => decide (HasCompatible n.props c))
      (fun _ _ => rfl) hfind)
  rw [hsearch]
  cases hfirst : T.nodes.find? (fun n => HasCompatible n.props c) with
  | none => exact rfl
  | some n =>
    obtain ⟨offset, hmem⟩ := exists_offset hT hevents (List.mem_of_find?_eq_some hfirst)
    exact ⟨offset, hmem, hdecodes.find offset n hmem⟩

/-- **A property of a node** that has been found. -/
theorem reads_property {offset : ℕ} {n : DtNode} (h : (offset, n) ∈ (starts 0 ts).zip T.nodes)
    (key : CString) :
    fdt.Reads (fdt.fdtGetProperty ⟨offset, n.parentAddressCells, n.parentSizeCells⟩ key)
      (n.value key) :=
  (hstands.finds hT hrange hevents h key).reads

/-- The property that `fdt_get_stdout_path` copies. -/
theorem reads_stdoutLookup : fdt.Reads fdt.stdoutLookup ((T.nodeAt chosenPath).bind (fun n =>
    (n.value stdoutPath).or (n.value linuxStdoutPath))) := by
  have hnode := findsNode_path hT hrange hstands hevents chosenPath
  unfold stdoutLookup
  cases hchosen : T.nodeAt chosenPath with
  | none =>
    rw [hchosen] at hnode
    rw [show fdt.fdtFindNodeByPath chosenPath = refused from hnode]
    exact rfl
  | some n =>
    rw [hchosen] at hnode
    obtain ⟨offset, hmem, hfind⟩ := hnode
    have hstdout := reads_property hT hrange hstands hevents hmem stdoutPath
    have hlinux := reads_property hT hrange hstands hevents hmem linuxStdoutPath
    rw [hfind, ok_bind, fdtStdoutProp, Option.bind_some]
    cases hvalue : n.value stdoutPath with
    | none =>
      rw [hvalue] at hstdout
      rw [show fdt.fdtGetProperty _ stdoutPath = refused from hstdout, Option.none_or]
      exact hlinux
    | some v =>
      rw [hvalue] at hstdout
      obtain ⟨data, hget, hv⟩ := hstdout
      rw [hget, Option.some_or]
      exact ⟨data, rfl, hv⟩

/-- The property that `fdt_resolve_alias` copies. -/
theorem reads_aliasLookup (name : CString) : fdt.Reads (fdt.aliasLookup name)
    ((T.nodeAt aliasesPath).bind (fun n => n.value name)) := by
  have hnode := findsNode_path hT hrange hstands hevents aliasesPath
  unfold aliasLookup
  cases haliases : T.nodeAt aliasesPath with
  | none =>
    rw [haliases] at hnode
    rw [show fdt.fdtFindNodeByPath aliasesPath = refused from hnode]
    exact rfl
  | some n =>
    rw [haliases] at hnode
    obtain ⟨offset, hmem, hfind⟩ := hnode
    rw [hfind, ok_bind, Option.bind_some]
    exact reads_property hT hrange hstands hevents hmem name

/-- **`fdt_get_stdout_path`** copies the console of the tree. -/
theorem fdtGetStdoutPath_eq {buffer : List UInt8} (hbuffer : Uart.uartPathMax ≤ buffer.length) :
    fdt.fdtGetStdoutPath buffer Uart.uartPathMax
      = ofOption (T.stdout.map (fun s => s.chars ++ 0 :: buffer.drop (s.length + 1))) := by
  have hreads := reads_stdoutLookup hT hrange hstands hevents
  rw [fdtGetStdoutPath_eq_to, fdtGetStdoutPathTo,
    fdtCopyPropTo_of_reads hreads hbuffer (fun _ => fdtStdoutLen_eq), DeviceTree.stdout,
    Option.bind_assoc]
  cases ((T.nodeAt chosenPath).bind (fun n =>
    ((n.value stdoutPath).or (n.value linuxStdoutPath)).bind (stringValue [0x3a]))) <;> rfl

/-- **`fdt_resolve_alias`** copies what an alias stands for. -/
theorem fdtResolveAlias_eq {buffer : List UInt8} (hbuffer : Uart.uartPathMax ≤ buffer.length)
    (name : CString) : fdt.fdtResolveAlias name buffer Uart.uartPathMax
      = ofOption ((T.aliasOf name).map (fun s => s.chars ++ 0 :: buffer.drop (s.length + 1))) := by
  have hreads := reads_aliasLookup hT hrange hstands hevents name
  rw [fdtResolveAlias_eq_to, fdtResolveAliasTo, fdtCopyPropTo_of_reads hreads hbuffer
    (fun mem h => by rw [strlen_eq_cutAt h, access_some]), DeviceTree.aliasOf, Option.bind_assoc]
  cases ((T.nodeAt aliasesPath).bind (fun n => (n.value name).bind (stringValue []))) <;> rfl

section Node

variable {offset : ℕ} {n : DtNode} (h : (offset, n) ∈ (starts 0 ts).zip T.nodes)
include h

/-- **`fdt_get_u32`** at a node of the tree. -/
theorem fdtGetU32_eq (name : CString) :
    fdt.fdtGetU32 ⟨offset, n.parentAddressCells, n.parentSizeCells⟩ name
      = ofOption (n.u32 name) := by
  have hreads := reads_property hT hrange hstands hevents h name
  unfold fdtGetU32 DtNode.u32
  cases hvalue : n.value name with
  | none =>
    rw [hvalue] at hreads
    rw [show fdt.fdtGetProperty _ name = refused from hreads]
    rfl
  | some v =>
    rw [hvalue] at hreads
    obtain ⟨data, hget, hv⟩ := hreads
    rw [hget, ok_bind, fdtPropGetU32, Option.bind_some]
    dsimp only
    by_cases hlen : v.length = 4
    · rw [require_of_pos hlen, ok_bind, fdtReadBe32_bigEndian hlen hv, if_pos hlen]
      rfl
    · rw [require_of_neg hlen, if_neg hlen]
      rfl

/-- **`fdt_get_reg`** at a node of the tree, for its first entry. -/
theorem fdtRegEntry_eq :
    fdt.fdtRegEntry ⟨offset, n.parentAddressCells, n.parentSizeCells⟩ 0 = ofOption n.reg := by
  have hreads := reads_property hT hrange hstands hevents h regName
  unfold DtNode.reg
  cases hvalue : n.value regName with
  | none =>
    rw [hvalue] at hreads
    rw [fdtRegEntry, show fdt.fdtGetProperty _ regName = refused from hreads]
    rfl
  | some v =>
    rw [hvalue] at hreads
    obtain ⟨data, hget, hv⟩ := hreads
    have hle := hv.length_le
    rw [List.length_drop] at hle
    rw [Option.bind_some]
    have hindex : ((0 : BitVec 32).toNat + 1) * (n.parentAddressCells + n.parentSizeCells)
        = n.parentAddressCells + n.parentSizeCells := by
      rw [show (0 : BitVec 32).toNat = 0 from rfl, Nat.zero_add, Nat.one_mul]
    rcases fdtRegEntry_cases hget 0 with ⟨hrefused, hentry⟩ | ⟨hread, hentry⟩
    · unfold RegRefused at hrefused
      dsimp only at hrefused
      rw [hindex] at hrefused
      rw [hentry, if_neg (by rintro ⟨h₁, h₂, h₃, h₄, h₅⟩; omega)]
      rfl
    · unfold RegRefused at hread
      dsimp only at hread
      rw [hindex] at hread
      obtain ⟨h₁, h₂, h₃, h₄, h₅⟩ : n.parentAddressCells ≤ 2 ∧ n.parentSizeCells ≤ 2
          ∧ 0 < n.parentAddressCells + n.parentSizeCells ∧ v.length % 4 = 0
          ∧ 4 * (n.parentAddressCells + n.parentSizeCells) ≤ v.length := by
        omega
      have hmem : (⟨data, v.length⟩ : FdtProp).data + (⟨data, v.length⟩ : FdtProp).len
          ≤ fdt.mem.length := by
        dsimp only
        omega
      have haddr := fdtReadCells_propBytes hmem (i := 0) (n := n.parentAddressCells)
        (by dsimp only; omega)
      have hsize := fdtReadCells_propBytes hmem (i := n.parentAddressCells)
        (n := n.parentSizeCells) (by dsimp only; omega)
      rw [propBytes_of_reads hv] at haddr hsize
      rw [Nat.zero_add, Nat.zero_mul, List.drop_zero, Nat.add_zero] at haddr
      rw [hentry, if_pos ⟨h₁, h₂, h₃, h₄, h₅⟩]
      dsimp only
      rw [show (0 : BitVec 32).toNat = 0 from rfl, Nat.zero_mul, Nat.zero_mod, Nat.zero_mul,
        Nat.add_zero, haddr, ok_bind]
      dsimp only
      rw [hsize]
      rfl

end Node

/-! ## The search of `uart.c` -/

include hlists

/-- The strings that a node is compared with. -/
theorem uartNodeMatches_eq {offset : ℕ} {n : DtNode} (h : (offset, n) ∈ (starts 0 ts).zip T.nodes)
    (cs : List CString) :
    Uart.uartNodeMatches ⟨fdt, true⟩ ⟨offset, n.parentAddressCells, n.parentSizeCells⟩ cs
      = ok (decide (∃ c ∈ cs, HasCompatible n.props c)) := by
  induction cs with
  | nil => simp [Uart.uartNodeMatches]
  | cons c cs ih =>
    have hhas : Kmain.dtbNodeHasCompatible ⟨fdt, true⟩
        ⟨offset, n.parentAddressCells, n.parentSizeCells⟩ c
        = if HasCompatible n.props c then ok () else refused :=
      hstands.fdtNodeHasCompatible_eq hT hlists hrange hevents h c
    rw [Uart.uartNodeMatches, hhas, ih]
    by_cases hc : HasCompatible n.props c
    · rw [if_pos hc, attempt_eq_some.mpr rfl, ok_bind, if_pos Option.isSome_some,
        decide_eq_true ⟨c, List.mem_cons_self, hc⟩]
    · rw [if_neg hc, attempt_eq_none.mpr rfl, ok_bind, if_neg (by decide)]
      simp only [List.exists_mem_cons_iff, hc, false_or]

/-- The first node for the first string that finds one. -/
theorem findsNode_uartFindCompatible (cs : List CString) :
    FindsNode T ts (Uart.uartFindCompatible ⟨fdt, true⟩ cs)
      (cs.findSome? (fun c => T.nodes.find? (fun n => HasCompatible n.props c))) := by
  induction cs with
  | nil => exact rfl
  | cons c cs ih =>
    have hfind : FindsNode T ts (Kmain.dtbFindCompatible ⟨fdt, true⟩ c)
        (T.nodes.find? (fun n => HasCompatible n.props c)) :=
      findsNode_compatible hT hlists hrange hstands hevents c
    rw [Uart.uartFindCompatible, List.findSome?_cons]
    cases hfirst : T.nodes.find? (fun n => HasCompatible n.props c) with
    | none =>
      rw [hfirst] at hfind
      rw [show Kmain.dtbFindCompatible _ c = refused from hfind, attempt_eq_none.mpr rfl, ok_bind]
      exact ih
    | some n =>
      rw [hfirst] at hfind
      obtain ⟨offset, hmem, hfind⟩ := hfind
      rw [hfind, attempt_eq_some.mpr rfl, ok_bind]
      exact ⟨offset, hmem, rfl⟩

/-- The node at the path of the console. -/
theorem findsMaybe_path (p : CString) : FindsMaybe T ts (do
      let node ← attempt (Kmain.dtbFindNodeByPath ⟨fdt, true⟩ p)
      match node with
      | none => ok none
      | some node => do
        let found ← Uart.uartNodeMatches ⟨fdt, true⟩ node Uart.uartCompatibles
        ok (if found then some node else none))
    ((T.nodeAt p).filter (fun n => DeviceTree.IsUart n)) := by
  have hfind : FindsNode T ts (Kmain.dtbFindNodeByPath ⟨fdt, true⟩ p) (T.nodeAt p) :=
    findsNode_path hT hrange hstands hevents p
  cases hnode : T.nodeAt p with
  | none =>
    rw [hnode] at hfind
    rw [show Kmain.dtbFindNodeByPath _ p = refused from hfind, attempt_eq_none.mpr rfl, ok_bind]
    exact rfl
  | some n =>
    rw [hnode] at hfind
    obtain ⟨offset, hmem, hfind⟩ := hfind
    have hmatches : Uart.uartNodeMatches ⟨fdt, true⟩
        ⟨offset, n.parentAddressCells, n.parentSizeCells⟩ Uart.uartCompatibles
        = ok (decide (DeviceTree.IsUart n)) :=
      uartNodeMatches_eq hT hlists hrange hstands hevents hmem Uart.uartCompatibles
    rw [hfind, attempt_eq_some.mpr rfl, ok_bind]
    dsimp only
    rw [hmatches, ok_bind, Option.filter_some]
    by_cases huart : DeviceTree.IsUart n
    · rw [if_pos (decide_eq_true huart), if_pos (decide_eq_true huart)]
      exact ⟨offset, hmem, rfl⟩
    · rw [if_neg (by simpa using huart), if_neg (by simpa using huart)]
      exact rfl

/-- **The node of the console.** -/
theorem findsMaybe_uartConsoleNode {path resolved : List UInt8}
    (hpath : Uart.uartPathMax ≤ path.length) (hresolved : Uart.uartPathMax ≤ resolved.length) :
    FindsMaybe T ts (Uart.uartConsoleNode ⟨fdt, true⟩ path resolved) T.consoleNode := by
  have hstdout : Kmain.dtbGetStdoutPath ⟨fdt, true⟩ path Uart.uartPathMax
      = ofOption (T.stdout.map (fun s => s.chars ++ 0 :: path.drop (s.length + 1))) :=
    fdtGetStdoutPath_eq hT hrange hstands hevents hpath
  unfold Uart.uartConsoleNode DeviceTree.consoleNode
  rw [hstdout, attempt_ofOption, ok_bind]
  cases T.stdout with
  | none => exact rfl
  | some s =>
    have htail := findsMaybe_path hT hlists hrange hstands hevents (T.resolve s)
    have halias : Kmain.dtbResolveAlias ⟨fdt, true⟩ s resolved Uart.uartPathMax
        = ofOption ((T.aliasOf s).map (fun s => s.chars ++ 0 :: resolved.drop (s.length + 1))) :=
      fdtResolveAlias_eq hT hrange hstands hevents hresolved s
    rw [Option.map_some, Option.bind_some]
    dsimp only
    unfold DeviceTree.resolve at htail ⊢
    by_cases hslash : s.chars.head? = some slash
    · rw [if_pos hslash] at htail ⊢
      rw [if_neg (not_not_intro ((head?_copy s _).mpr hslash)), ok_bind, Option.getD_none,
        stringAt_copy, access_some, ok_bind]
      exact htail
    · rw [if_neg hslash] at htail ⊢
      rw [if_pos (mt (head?_copy s _).mp hslash), stringAt_copy, access_some, ok_bind]
      show FindsMaybe T ts (attempt (Kmain.dtbResolveAlias ⟨fdt, true⟩ s resolved Uart.uartPathMax)
        >>= _) _
      rw [halias, attempt_ofOption, ok_bind]
      cases hname : T.aliasOf s with
      | none =>
        rw [hname] at htail
        rw [Option.map_none, Option.getD_none, stringAt_copy, access_some, ok_bind]
        exact htail
      | some target =>
        rw [hname] at htail
        rw [Option.map_some, Option.getD_some, stringAt_copy, access_some, ok_bind]
        exact htail

omit hlists in
/-- The port at a node of the tree. -/
theorem portAt_eq {offset : ℕ} {n : DtNode} (h : (offset, n) ∈ (starts 0 ts).zip T.nodes) :
    (do
      let (found, base, size) ←
        Kmain.dtbGetReg ⟨fdt, true⟩ ⟨offset, n.parentAddressCells, n.parentSizeCells⟩ 0 0 0
      require (¬ (found = false ∨ size = 0))
      let shift ← attempt (Kmain.dtbGetU32 ⟨fdt, true⟩
        ⟨offset, n.parentAddressCells, n.parentSizeCells⟩ Uart.regShiftName)
      let width ← attempt (Kmain.dtbGetU32 ⟨fdt, true⟩
        ⟨offset, n.parentAddressCells, n.parentSizeCells⟩ Uart.regIoWidthName)
      require (¬ ∃ w ∈ width, w ≠ 1 ∧ w ≠ 4)
      ok (⟨base, size, BitVec.ofNat 32 (shift.getD 0), BitVec.ofNat 32 (width.getD 1)⟩ :
        Uart.UartPort))
      = ofOption (DeviceTree.portAt n) := by
  have hreg : Kmain.dtbGetReg ⟨fdt, true⟩ ⟨offset, n.parentAddressCells, n.parentSizeCells⟩ 0 0 0
      = ok (match n.reg with
        | some r => (true, r.1, r.2)
        | none => (false, 0, 0)) := by
    show fdt.fdtGetReg _ 0 0 0 = _
    rw [fdtGetReg, fdtRegEntry_eq hT hrange hstands hevents h, attempt_ofOption, ok_bind]
    cases n.reg <;> rfl
  have hshift : Kmain.dtbGetU32 ⟨fdt, true⟩ ⟨offset, n.parentAddressCells, n.parentSizeCells⟩
      Uart.regShiftName = ofOption (n.u32 Uart.regShiftName) :=
    fdtGetU32_eq hT hrange hstands hevents h _
  have hwidth : Kmain.dtbGetU32 ⟨fdt, true⟩ ⟨offset, n.parentAddressCells, n.parentSizeCells⟩
      Uart.regIoWidthName = ofOption (n.u32 Uart.regIoWidthName) :=
    fdtGetU32_eq hT hrange hstands hevents h _
  rw [hreg, ok_bind, hshift, hwidth, DeviceTree.portAt]
  cases n.reg with
  | none =>
    rw [Option.bind_none]
    dsimp only
    rw [require_of_neg (not_not_intro (Or.inl rfl))]
    rfl
  | some r =>
    rw [Option.bind_some]
    dsimp only
    by_cases hsize : r.2 = 0
    · rw [require_of_neg (not_not_intro (Or.inr hsize)), if_pos (Or.inl hsize)]
      rfl
    · rw [require_of_pos (by simpa using hsize), ok_bind, attempt_ofOption, ok_bind,
        attempt_ofOption, ok_bind]
      by_cases hunsupported : ∃ w ∈ n.u32 Uart.regIoWidthName, w ≠ 1 ∧ w ≠ 4
      · rw [require_of_neg (not_not_intro hunsupported), if_pos (Or.inr hunsupported)]
        rfl
      · rw [require_of_pos hunsupported, if_neg (by simp only [hsize, hunsupported, or_self,
          not_false_eq_true])]
        rfl

/-- **`uart_find_port`** finds the port of the tree. -/
theorem uartFindPort_eq {path resolved : List UInt8} (hpath : Uart.uartPathMax ≤ path.length)
    (hresolved : Uart.uartPathMax ≤ resolved.length) :
    Uart.uartFindPort ⟨fdt, true⟩ path resolved = ofOption T.uartPort := by
  have hconsole := findsMaybe_uartConsoleNode hT hlists hrange hstands hevents hpath hresolved
  unfold Uart.uartFindPort DeviceTree.uartPort DeviceTree.uartNode
  cases hfound : T.consoleNode with
  | some n =>
    rw [hfound] at hconsole
    obtain ⟨offset, hmem, hrun⟩ := hconsole
    rw [hrun, ok_bind, Option.some_or, Option.bind_some]
    exact portAt_eq hT hrange hstands hevents hmem
  | none =>
    rw [hfound] at hconsole
    rw [show Uart.uartConsoleNode _ path resolved = ok none from hconsole, ok_bind, Option.none_or]
    dsimp only
    have hfirst := findsNode_uartFindCompatible hT hlists hrange hstands hevents
      Uart.uartCompatibles
    cases hnode : Uart.uartCompatibles.findSome?
        (fun c => T.nodes.find? (fun n => HasCompatible n.props c)) with
    | none =>
      rw [hnode] at hfirst
      rw [show Uart.uartFindCompatible _ _ = refused from hfirst]
      rfl
    | some n =>
      rw [hnode] at hfirst
      obtain ⟨offset, hmem, hrun⟩ := hfirst
      rw [hrun, ok_bind, Option.bind_some]
      exact portAt_eq hT hrange hstands hevents hmem

end Tree

end Fdt

/-- **The port of the tree is the one that `uart_init` settles on**, and the fallback if
the tree describes none, for every layout of the blob and whatever is in the buffers. -/
theorem Flattens.uartPort_eq {T : DeviceTree} {ts : List FdtToken} {header : FdtHeader}
    {mem path resolved : List UInt8} {base : ℕ} (hT : T.Valid) (hlists : T.CompatibleLists)
    (h : Flattens T ts header mem base) (hpath : Uart.uartPathMax ≤ path.length)
    (hresolved : Uart.uartPathMax ≤ resolved.length) :
    ∃ dtb, Kmain.dtbInit (some (some (mem, base))) = ok (true, dtb, [])
      ∧ Uart.uartFindPort dtb path resolved = ofOption T.uartPort
      ∧ Uart.uartPort dtb path resolved = ok (T.uartPort.getD Uart.uartDefaultPort) := by
  have hfind := Fdt.uartFindPort_eq hT hlists h.inRange h.stands h.events hpath hresolved
  refine ⟨⟨header.fdt mem base, true⟩, ?_, hfind, ?_⟩
  · rw [Kmain.dtbInit, h.fdtInit_eq, attempt_eq_some.mpr rfl, ok_bind]
  · rw [Uart.uartPort, hfind, attempt_ofOption, ok_bind]

/-! ## A console that is an alias -/

/-- The name `serial0`. -/
def serial0 : CString := ⟨asciiBytes "serial0", by decide⟩

/-- The name `aliases`. -/
def aliasesName : CString := ⟨asciiBytes "aliases", by decide⟩

theorem nul_notMem_chosen : 0 ∉ asciiBytes "chosen" := by decide

/-- The name `chosen`. -/
def chosenName : CString := ⟨asciiBytes "chosen", nul_notMem_chosen⟩

/-- The name `uart`. -/
def uartName : CString := ⟨asciiBytes "uart", by decide⟩

/-- Where the port is. -/
def consoleReg : List UInt8 := [0, 0, 0, 0, 16, 0, 16, 0, 0, 0, 1, 0]

/-- A root that is a port itself, and the port of the console below it. -/
def consoleTree : DeviceTree :=
  ⟨⟨[], nul_notMem_nil⟩, [⟨compatibleName, asciiBytes "ns16550a" ++ [0]⟩],
    Forest.cons aliasesName [⟨serial0, asciiBytes "/uart" ++ [0]⟩] Forest.nil
      (Forest.cons chosenName
        [⟨stdoutPath, asciiBytes "serial0:115200" ++ [0]⟩] Forest.nil
        (Forest.cons uartName
          [⟨compatibleName, asciiBytes "ns16550" ++ [0]⟩, ⟨regName, consoleReg⟩] Forest.nil
          Forest.nil))⟩

/-- Its tokens. -/
def consoleTokens : List FdtToken :=
  [FdtToken.beginNode ⟨[], nul_notMem_nil⟩,
    FdtToken.prop 0 ⟨compatibleName, asciiBytes "ns16550a" ++ [0]⟩,
    FdtToken.beginNode aliasesName,
    FdtToken.prop 11 ⟨serial0, asciiBytes "/uart" ++ [0]⟩, FdtToken.endNode,
    FdtToken.beginNode chosenName,
    FdtToken.prop 19 ⟨stdoutPath, asciiBytes "serial0:115200" ++ [0]⟩, FdtToken.endNode,
    FdtToken.beginNode uartName,
    FdtToken.prop 0 ⟨compatibleName, asciiBytes "ns16550" ++ [0]⟩,
    FdtToken.prop 31 ⟨regName, consoleReg⟩, FdtToken.endNode, FdtToken.endNode]

/-- The header. -/
def consoleHeader : FdtHeader := ⟨255, 40, 220, 40, 17, 16, 0, 35, 180⟩

/-- The blob. -/
def consoleBlob : List UInt8 :=
  consoleHeader.bytes ++ structText consoleTokens
    ++ (compatibleName.bytes ++ serial0.bytes ++ stdoutPath.bytes ++ regName.bytes)

theorem valid_consoleTree : consoleTree.Valid where
  nodes := by
    refine List.forall_mem_cons.mpr ⟨⟨by decide, by decide, by decide, by decide, by decide⟩,
      List.forall_mem_cons.mpr ⟨⟨by decide, by decide, by decide, by decide, by decide⟩,
        List.forall_mem_cons.mpr ⟨⟨by decide, by decide, by decide, by decide, by decide⟩,
          List.forall_mem_cons.mpr ⟨⟨by decide, by decide, by decide, by decide, by decide⟩, ?_⟩⟩⟩⟩
    exact fun _ h => absurd h List.not_mem_nil
  siblings := ⟨by decide, trivial, by decide, trivial, List.not_mem_nil, trivial, trivial⟩

theorem compatibleLists_consoleTree : consoleTree.CompatibleLists := by
  refine List.forall_mem_cons.mpr ⟨?_, List.forall_mem_cons.mpr ⟨?_, List.forall_mem_cons.mpr ⟨?_,
    List.forall_mem_cons.mpr ⟨?_, fun _ h => absurd h List.not_mem_nil⟩⟩⟩⟩
  · exact List.forall_mem_singleton.mpr (fun _ => ⟨[⟨asciiBytes "ns16550a", by decide⟩], rfl⟩)
  · exact List.forall_mem_singleton.mpr (fun h => absurd h (by decide))
  · exact List.forall_mem_singleton.mpr (fun h => absurd h (by decide))
  · exact List.forall_mem_cons.mpr ⟨fun _ => ⟨[⟨asciiBytes "ns16550", by decide⟩], rfl⟩,
      List.forall_mem_singleton.mpr (fun h => absurd h (by decide))⟩

theorem flattens_consoleBlob :
    Flattens consoleTree consoleTokens consoleHeader consoleBlob 4096 where
  base_aligned := rfl
  struct_aligned := rfl
  header_stands := ⟨structText consoleTokens
      ++ (compatibleName.bytes ++ serial0.bytes ++ stdoutPath.bytes ++ regName.bytes),
    by rw [consoleBlob, List.append_assoc consoleHeader.bytes]⟩
  total_le := by decide +kernel
  length_lt := by decide +kernel
  struct_le := by decide
  struct_size := by decide +kernel
  struct_text := by decide +kernel
  events := rfl
  strings_le := by decide
  names nameoff p h := by
    simp only [consoleTokens, List.mem_cons, FdtToken.prop.injEq, List.not_mem_nil, reduceCtorEq,
      false_or, or_false] at h
    rcases h with ⟨rfl, rfl⟩ | ⟨rfl, rfl⟩ | ⟨rfl, rfl⟩ | ⟨rfl, rfl⟩ | ⟨rfl, rfl⟩
    · exact ⟨by decide, by decide +kernel⟩
    · exact ⟨by decide, by decide +kernel⟩
    · exact ⟨by decide, by decide +kernel⟩
    · exact ⟨by decide, by decide +kernel⟩
    · exact ⟨by decide, by decide +kernel⟩

/-- The port of the alias is found, although the root is compatible, too. -/
theorem Flattens.uartPort_eq_consoleBlob :
    consoleTree.uartPort = some ⟨0x10001000, 0x100, 0, 1⟩
      ∧ ∃ dtb, Kmain.dtbInit (some (some (consoleBlob, 4096))) = ok (true, dtb, [])
        ∧ Uart.uartFindPort dtb (List.replicate 256 0) (List.replicate 256 0)
          = ofOption consoleTree.uartPort
        ∧ Uart.uartPort dtb (List.replicate 256 0) (List.replicate 256 0)
          = ok (consoleTree.uartPort.getD Uart.uartDefaultPort) :=
  ⟨by decide +kernel, Flattens.uartPort_eq valid_consoleTree compatibleLists_consoleTree
    flattens_consoleBlob (by rw [List.length_replicate]; rfl) (by rw [List.length_replicate]; rfl)⟩
