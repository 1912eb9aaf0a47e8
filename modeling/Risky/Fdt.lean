import Risky.CString

/-!
# The device-tree parser

The functions of `dev/fdt.c` over a blob in memory. A pointer into the blob is
its distance from the first byte, and the address of that byte decides what is
aligned; the blob does not lie at the very end of the address space, so that
only differences of pointers wrap around. Checks for null arguments are left
out. An access that is not to the blob or to the arrays of the walk is a
`fault`.
-/

/-! ## Constants -/

/-- `FDT_MAGIC`. -/
def fdtMagic : ℕ := 0xd00dfeed

/-- `FDT_BEGIN_NODE`. -/
def fdtBeginNode : ℕ := 0x1

/-- `FDT_END_NODE`. -/
def fdtEndNode : ℕ := 0x2

/-- `FDT_PROP`. -/
def fdtPropToken : ℕ := 0x3

/-- `FDT_NOP`. -/
def fdtNop : ℕ := 0x4

/-- `FDT_END`. -/
def fdtEnd : ℕ := 0x9

/-- `FDT_DEFAULT_ADDRESS_CELLS`. -/
def fdtDefaultAddressCells : ℕ := 2

/-- `FDT_DEFAULT_SIZE_CELLS`. -/
def fdtDefaultSizeCells : ℕ := 1

/-- `FDT_MAX_DEPTH`. -/
def fdtMaxDepth : ℕ := 32

/-- `FDT_MAX_PATH`. -/
def fdtMaxPath : ℕ := 256

/-- The character `'/'`. -/
def slash : UInt8 := 0x2f

/-- The name `"#address-cells"`. -/
def addressCells : CString := ⟨asciiBytes "#address-cells", by decide⟩

/-- The name `"#size-cells"`. -/
def sizeCells : CString := ⟨asciiBytes "#size-cells", by decide⟩

/-- The name `"compatible"`. -/
def compatibleName : CString := ⟨asciiBytes "compatible", by decide⟩

/-- The name `"reg"`. -/
def regName : CString := ⟨asciiBytes "reg", by decide⟩

/-- The path `"/chosen"`. -/
def chosenPath : CString := ⟨asciiBytes "/chosen", by decide⟩

/-- The path `"/aliases"`. -/
def aliasesPath : CString := ⟨asciiBytes "/aliases", by decide⟩

/-- The name `"stdout-path"`. -/
def stdoutPath : CString := ⟨asciiBytes "stdout-path", by decide⟩

/-- The name `"linux,stdout-path"`. -/
def linuxStdoutPath : CString := ⟨asciiBytes "linux,stdout-path", by decide⟩

/-! ## Records -/

/-- `struct fdt`. -/
structure Fdt where
  /-- The memory from `blob` on. -/
  mem : List UInt8
  /-- The address of `blob`. -/
  base : ℕ
  /-- `struct_block`. -/
  structBlock : ℕ
  /-- `struct_block_end`. -/
  structBlockEnd : ℕ
  /-- `strings_block`. -/
  stringsBlock : ℕ
  /-- `strings_size`. -/
  stringsSize : ℕ

/-- `struct fdt_node`. -/
structure FdtNode where
  /-- `struct_offset`. -/
  structOffset : ℕ
  /-- `parent_address_cells`. -/
  parentAddressCells : ℕ
  /-- `parent_size_cells`. -/
  parentSizeCells : ℕ
  deriving DecidableEq, Repr

/-- `struct fdt_prop`. -/
structure FdtProp where
  /-- `data`. -/
  data : ℕ
  /-- `len`. -/
  len : ℕ
  deriving DecidableEq, Repr

/-- `struct fdt_walk_frame`. -/
structure FdtWalkFrame where
  /-- `path_len`. -/
  pathLen : ℕ
  /-- `child_address_cells`. -/
  childAddressCells : ℕ
  /-- `child_size_cells`. -/
  childSizeCells : ℕ
  deriving DecidableEq, Repr

/-- `struct fdt_walk_state`, but for the pointer to the tree. -/
structure FdtWalkState where
  /-- `cursor`. -/
  cursor : ℕ
  /-- `path`. -/
  path : List UInt8
  /-- `frames`. -/
  frames : List FdtWalkFrame
  /-- `depth`. -/
  depth : ℕ
  /-- `path_len`. -/
  pathLen : ℕ

/-! ## Reading -/

/-- `(size_t)(limit - ptr)`. -/
def sizeDiff (limit ptr : ℕ) : ℕ := (2 ^ 64 + limit - ptr) % 2 ^ 64

/-- `fdt_read_be32`. -/
def fdtReadBe32 (mem : List UInt8) (ptr : ℕ) : Option ℕ :=
  match mem.drop ptr with
  | b₀ :: b₁ :: b₂ :: b₃ :: _ =>
    some (b₀.toNat <<< 24 ||| b₁.toNat <<< 16 ||| b₂.toNat <<< 8 ||| b₃.toNat)
  | _ => none

/-- `fdt_copy_string`. -/
def fdtCopyString (buffer : List UInt8) (bufferSize : ℕ) (s : List UInt8) (len : ℕ) :
    Outcome (List UInt8) := do
  Outcome.require (¬ (bufferSize = 0 ∨ len + 1 > bufferSize))
  let buffer ← memcpy buffer 0 s len
  store buffer len 0

namespace Fdt

open Outcome

/-- `fdt_align4`. -/
def fdtAlign4 (fdt : Fdt) (ptr : ℕ) : ℕ := (fdt.base + ptr + 3) / 4 * 4 - fdt.base

/-- `fdt_bounded_strlen`. -/
def fdtBoundedStrlen (fdt : Fdt) (s limit : ℕ) : Outcome ℕ := do
  let len ← access (strnlen (fdt.mem.drop s) (sizeDiff limit s))
  require (s + len < limit)
  pure len

/-- The loop of `fdt_prop_name_valid`: whether there is a NUL among the first
bytes. -/
def fdtPropNameValidLoop : List UInt8 → ℕ → Option Bool
  | _, 0 => some false
  | [], _ + 1 => none
  | c :: s, n + 1 => if c = 0 then some true else fdtPropNameValidLoop s n

/-- `fdt_prop_name_valid`. -/
def fdtPropNameValid (fdt : Fdt) (nameoff : ℕ) : Option Bool :=
  if nameoff ≥ fdt.stringsSize then some false
  else fdtPropNameValidLoop (fdt.mem.drop (fdt.stringsBlock + nameoff))
    (fdt.stringsSize - nameoff)

/-- `fdt_prop_is_string`. -/
def fdtPropIsString (fdt : Fdt) (prop : FdtProp) : Outcome Unit := do
  require (prop.len > 0)
  let c ← access fdt.mem[prop.data + (prop.len - 1)]?
  require (c = 0)

/-- `fdt_prop_get_u32`. -/
def fdtPropGetU32 (fdt : Fdt) (prop : FdtProp) : Outcome ℕ := do
  require (prop.len = 4)
  access (fdtReadBe32 fdt.mem prop.data)

/-! ## The walk over the nodes -/

/-- `fdt_walk_init`. -/
def fdtWalkInit (fdt : Fdt) : FdtWalkState where
  cursor := fdt.structBlock
  path := List.replicate fdtMaxPath 0
  frames := List.replicate fdtMaxDepth ⟨0, 0, 0⟩
  depth := 0
  pathLen := 0

/-- The frame of the node that is open, as far as its children are concerned:
the defaults where there is none. -/
def fdtWalkParent (state : FdtWalkState) : Outcome FdtWalkFrame :=
  if state.depth > 0 then access state.frames[state.depth - 1]?
  else ok ⟨0, fdtDefaultAddressCells, fdtDefaultSizeCells⟩

/-- The last character of the path, unless it is empty. -/
def fdtWalkLast (path : List UInt8) (newLen : ℕ) : Outcome (Option UInt8) :=
  if newLen = 0 then ok none else some <$> access path[newLen - 1]?

/-- Append `'/'` to the path, unless it ends in one. -/
def fdtWalkSlash (path : List UInt8) (newLen : ℕ) : Outcome (List UInt8 × ℕ) := do
  let last ← fdtWalkLast path newLen
  if last ≠ some slash then do
    require (¬ newLen + 1 ≥ fdtMaxPath)
    let path ← store path newLen slash
    pure (path, newLen + 1)
  else pure (path, newLen)

/-- The path of a new node and its length. -/
def fdtWalkPath (fdt : Fdt) (state : FdtWalkState) (nameLen : ℕ) :
    Outcome (List UInt8 × ℕ) :=
  if state.depth = 0 then do
    let path ← store state.path 0 slash
    let path ← store path 1 0
    pure (path, 1)
  else do
    let slashed ← fdtWalkSlash state.path state.pathLen
    require (¬ slashed.2 + nameLen ≥ fdtMaxPath)
    let path ← memcpy slashed.1 slashed.2 (fdt.mem.drop state.cursor) nameLen
    let path ← store path (slashed.2 + nameLen) 0
    pure (path, slashed.2 + nameLen)

/-- The case `FDT_BEGIN_NODE` of `fdt_walk_next_node`. -/
def fdtWalkBeginNode (fdt : Fdt) (tokenPtr : ℕ) (state : FdtWalkState) :
    Outcome (FdtNode × FdtWalkState) := do
  require (¬ state.depth ≥ fdtMaxDepth)
  let nameLen ← fdt.fdtBoundedStrlen state.cursor fdt.structBlockEnd
  let parent ← fdtWalkParent state
  let frames ← store state.frames state.depth
    ⟨state.pathLen, fdtDefaultAddressCells, fdtDefaultSizeCells⟩
  let path ← fdt.fdtWalkPath state nameLen
  let cursor := fdt.fdtAlign4 (state.cursor + nameLen + 1)
  require (¬ cursor > fdt.structBlockEnd)
  pure (⟨(tokenPtr - fdt.structBlock) % 2 ^ 32, parent.childAddressCells, parent.childSizeCells⟩,
    ⟨cursor, path.1, frames, state.depth + 1, path.2⟩)

/-- The case `FDT_END_NODE`. -/
def fdtWalkEndNode (state : FdtWalkState) : Outcome FdtWalkState := do
  require (¬ state.depth = 0)
  let frame ← access state.frames[state.depth - 1]?
  let path ← store state.path frame.pathLen 0
  pure { state with path := path, depth := state.depth - 1, pathLen := frame.pathLen }

/-- The value of a cells property goes to the frame of the open node. -/
def fdtWalkCells (fdt : Fdt) (propName : List UInt8) (prop : FdtProp) (frame : FdtWalkFrame) :
    Outcome FdtWalkFrame := do
  let cmp ← access (strcmp propName addressCells.bytes)
  if cmp = 0 then do
    let value ← fdt.fdtPropGetU32 prop
    pure { frame with childAddressCells := value }
  else do
    let cmp ← access (strcmp propName sizeCells.bytes)
    if cmp = 0 then do
      let value ← fdt.fdtPropGetU32 prop
      pure { frame with childSizeCells := value }
    else pure frame

/-- The case `FDT_PROP`. -/
def fdtWalkProp (fdt : Fdt) (state : FdtWalkState) : Outcome FdtWalkState := do
  require (¬ sizeDiff fdt.structBlockEnd state.cursor < 8)
  let len ← access (fdtReadBe32 fdt.mem state.cursor)
  let nameoff ← access (fdtReadBe32 fdt.mem (state.cursor + 4))
  let data := state.cursor + 8
  require (¬ sizeDiff fdt.structBlockEnd data < len)
  let valid ← access (fdt.fdtPropNameValid nameoff)
  require (valid = true)
  require (¬ state.depth = 0)
  let frame ← access state.frames[state.depth - 1]?
  let frame ← fdt.fdtWalkCells (fdt.mem.drop (fdt.stringsBlock + nameoff)) ⟨data, len⟩ frame
  let frames ← store state.frames (state.depth - 1) frame
  pure { state with cursor := fdt.fdtAlign4 (data + len), frames := frames }

/-- A turn of the loop of `fdt_walk_next_node`. -/
def fdtWalkTurn (fdt : Fdt) (state : FdtWalkState) :
    Outcome (FdtWalkState ⊕ FdtNode × FdtWalkState) := do
  require (¬ sizeDiff fdt.structBlockEnd state.cursor < 4)
  let token ← access (fdtReadBe32 fdt.mem state.cursor)
  let next : FdtWalkState := { state with cursor := state.cursor + 4 }
  if token = fdtBeginNode then Sum.inr <$> fdt.fdtWalkBeginNode state.cursor next
  else if token = fdtEndNode then Sum.inl <$> fdtWalkEndNode next
  else if token = fdtPropToken then Sum.inl <$> fdt.fdtWalkProp next
  else if token = fdtNop then pure (Sum.inl next)
  else refused

theorem le_fdtAlign4 (fdt : Fdt) (ptr : ℕ) : ptr ≤ fdt.fdtAlign4 ptr := by
  unfold fdtAlign4
  omega

/-- **What a turn can do**, by the token it reads. -/
theorem fdtWalkTurn_cases {fdt : Fdt} {state : FdtWalkState}
    {next : FdtWalkState ⊕ FdtNode × FdtWalkState} (h : fdt.fdtWalkTurn state = ok next) :
    ¬ sizeDiff fdt.structBlockEnd state.cursor < 4
      ∧ ((fdtReadBe32 fdt.mem state.cursor = some fdtBeginNode
          ∧ ∃ found, fdt.fdtWalkBeginNode state.cursor { state with cursor := state.cursor + 4 }
              = ok found ∧ Sum.inr found = next)
        ∨ (fdtReadBe32 fdt.mem state.cursor = some fdtEndNode
          ∧ ∃ state', fdtWalkEndNode { state with cursor := state.cursor + 4 } = ok state'
              ∧ Sum.inl state' = next)
        ∨ (fdtReadBe32 fdt.mem state.cursor = some fdtPropToken
          ∧ ∃ state', fdt.fdtWalkProp { state with cursor := state.cursor + 4 } = ok state'
              ∧ Sum.inl state' = next)
        ∨ (fdtReadBe32 fdt.mem state.cursor = some fdtNop
          ∧ Sum.inl { state with cursor := state.cursor + 4 } = next)) := by
  unfold fdtWalkTurn at h
  obtain ⟨_, hroom, h⟩ := bind_eq_ok.mp h
  obtain ⟨token, htoken, h⟩ := bind_eq_ok.mp h
  rw [require_eq_ok] at hroom
  rw [access_eq_ok] at htoken
  refine ⟨hroom, ?_⟩
  rw [htoken]
  dsimp only at h
  split at h
  · next hbegin => exact Or.inl ⟨congrArg some hbegin, map_eq_ok.mp h⟩
  split at h
  · next hend => exact Or.inr (Or.inl ⟨congrArg some hend, map_eq_ok.mp h⟩)
  split at h
  · next hprop => exact Or.inr (Or.inr (Or.inl ⟨congrArg some hprop, map_eq_ok.mp h⟩))
  split at h
  · next hnop =>
    cases h
    exact Or.inr (Or.inr (Or.inr ⟨congrArg some hnop, rfl⟩))
  · exact absurd h (by simp)

/-- **A turn moves the cursor on**, past the token at least. -/
theorem cursor_le_of_fdtWalkTurn {fdt : Fdt} {state : FdtWalkState}
    {next : FdtWalkState ⊕ FdtNode × FdtWalkState} (h : fdt.fdtWalkTurn state = ok next) :
    state.cursor + 4 ≤ (next.elim id Prod.snd).cursor := by
  rcases (fdtWalkTurn_cases h).2 with ⟨-, ⟨node, st⟩, hbegin, rfl⟩ | ⟨-, st, hend, rfl⟩
    | ⟨-, st, hprop, rfl⟩ | ⟨-, rfl⟩
  · -- a node begins, and its name is skipped
    unfold fdtWalkBeginNode at hbegin
    obtain ⟨_, -, hbegin⟩ := bind_eq_ok.mp hbegin
    obtain ⟨nameLen, -, hbegin⟩ := bind_eq_ok.mp hbegin
    obtain ⟨parent, -, hbegin⟩ := bind_eq_ok.mp hbegin
    obtain ⟨frames, -, hbegin⟩ := bind_eq_ok.mp hbegin
    obtain ⟨path, -, hbegin⟩ := bind_eq_ok.mp hbegin
    obtain ⟨_, -, hbegin⟩ := bind_eq_ok.mp hbegin
    cases hbegin
    exact le_trans (show state.cursor + 4 ≤ state.cursor + 4 + nameLen + 1 by omega)
      (fdt.le_fdtAlign4 _)
  · -- a node ends, which has no payload
    unfold fdtWalkEndNode at hend
    obtain ⟨_, -, hend⟩ := bind_eq_ok.mp hend
    obtain ⟨frame, -, hend⟩ := bind_eq_ok.mp hend
    obtain ⟨path, -, hend⟩ := bind_eq_ok.mp hend
    cases hend
    exact le_rfl
  · -- a property, whose header and value are skipped
    unfold fdtWalkProp at hprop
    obtain ⟨_, -, hprop⟩ := bind_eq_ok.mp hprop
    obtain ⟨len, -, hprop⟩ := bind_eq_ok.mp hprop
    obtain ⟨nameoff, -, hprop⟩ := bind_eq_ok.mp hprop
    obtain ⟨_, -, hprop⟩ := bind_eq_ok.mp hprop
    obtain ⟨valid, -, hprop⟩ := bind_eq_ok.mp hprop
    obtain ⟨_, -, hprop⟩ := bind_eq_ok.mp hprop
    obtain ⟨_, -, hprop⟩ := bind_eq_ok.mp hprop
    obtain ⟨frame, -, hprop⟩ := bind_eq_ok.mp hprop
    obtain ⟨frame', -, hprop⟩ := bind_eq_ok.mp hprop
    obtain ⟨frames, -, hprop⟩ := bind_eq_ok.mp hprop
    cases hprop
    exact le_trans (show state.cursor + 4 ≤ state.cursor + 4 + 8 + len by omega)
      (fdt.le_fdtAlign4 _)
  · exact le_rfl

/-- The loop of `fdt_walk_next_node`. -/
def fdtWalkLoop (fdt : Fdt) : Loop FdtWalkState (FdtNode × FdtWalkState) where
  more state := state.cursor < fdt.structBlockEnd
  turn := fdt.fdtWalkTurn
  fuel state := fdt.structBlockEnd - state.cursor
  fuel_lt state next hmore h := by
    have hle := cursor_le_of_fdtWalkTurn h
    have hlt := of_decide_eq_true hmore
    change state.cursor + 4 ≤ next.cursor at hle
    omega

/-- `fdt_walk_next_node`. -/
def fdtWalkNextNode (fdt : Fdt) (state : FdtWalkState) : Outcome (FdtNode × FdtWalkState) :=
  fdt.fdtWalkLoop.run state

/-! ## Finding nodes and properties -/

/-- `fdt_node_payload`. -/
def fdtNodePayload (fdt : Fdt) (node : FdtNode) : Outcome ℕ := do
  let cursor := fdt.structBlock + node.structOffset
  require (¬ cursor + 4 > fdt.structBlockEnd)
  let token ← access (fdtReadBe32 fdt.mem cursor)
  require (token = fdtBeginNode)
  let nameLen ← fdt.fdtBoundedStrlen (cursor + 4) fdt.structBlockEnd
  let cursor := fdt.fdtAlign4 (cursor + 4 + nameLen + 1)
  require (¬ cursor > fdt.structBlockEnd)
  pure cursor

/-- Where the scan for a property is. -/
structure FdtScanState where
  /-- `cursor`. -/
  cursor : ℕ
  /-- `depth`. -/
  depth : ℕ
  deriving DecidableEq, Repr

/-- The case `FDT_PROP` of `fdt_get_property`. -/
def fdtScanProp (fdt : Fdt) (name : CString) (state : FdtScanState) :
    Outcome (FdtScanState ⊕ FdtProp) := do
  require (¬ sizeDiff fdt.structBlockEnd state.cursor < 8)
  let len ← access (fdtReadBe32 fdt.mem state.cursor)
  let nameoff ← access (fdtReadBe32 fdt.mem (state.cursor + 4))
  let data := state.cursor + 8
  require (¬ sizeDiff fdt.structBlockEnd data < len)
  let valid ← access (fdt.fdtPropNameValid nameoff)
  require (valid = true)
  let next : FdtScanState := { state with cursor := fdt.fdtAlign4 (data + len) }
  if state.depth = 0 then do
    let cmp ← access (strcmp (fdt.mem.drop (fdt.stringsBlock + nameoff)) name.bytes)
    if cmp = 0 then pure (Sum.inr ⟨data, len⟩) else pure (Sum.inl next)
  else pure (Sum.inl next)

/-- A turn of the loop of `fdt_get_property`. -/
def fdtScanTurn (fdt : Fdt) (name : CString) (state : FdtScanState) :
    Outcome (FdtScanState ⊕ FdtProp) := do
  let token ← access (fdtReadBe32 fdt.mem state.cursor)
  let next : FdtScanState := { state with cursor := state.cursor + 4 }
  if token = fdtBeginNode then do
    let nameLen ← fdt.fdtBoundedStrlen next.cursor fdt.structBlockEnd
    pure (Sum.inl ⟨fdt.fdtAlign4 (next.cursor + nameLen + 1), next.depth + 1⟩)
  else if token = fdtEndNode then do
    require (¬ next.depth = 0)
    pure (Sum.inl { next with depth := next.depth - 1 })
  else if token = fdtPropToken then fdt.fdtScanProp name next
  else if token = fdtNop then pure (Sum.inl next)
  else refused

/-- The scan moves its cursor on, past the token at least. -/
theorem cursor_le_of_fdtScanTurn {fdt : Fdt} {name : CString} {state next : FdtScanState}
    (h : fdt.fdtScanTurn name state = ok (Sum.inl next)) : state.cursor + 4 ≤ next.cursor := by
  unfold fdtScanTurn at h
  obtain ⟨token, -, h⟩ := bind_eq_ok.mp h
  dsimp only at h
  split at h
  · -- the name of a subnode is skipped
    obtain ⟨nameLen, -, h⟩ := bind_eq_ok.mp h
    cases h
    exact le_trans (show state.cursor + 4 ≤ state.cursor + 4 + nameLen + 1 by omega)
      (fdt.le_fdtAlign4 _)
  split at h
  · obtain ⟨_, -, h⟩ := bind_eq_ok.mp h
    cases h
    exact le_rfl
  split at h
  · -- a property of another name, or of a subnode
    unfold fdtScanProp at h
    obtain ⟨_, -, h⟩ := bind_eq_ok.mp h
    obtain ⟨len, -, h⟩ := bind_eq_ok.mp h
    obtain ⟨nameoff, -, h⟩ := bind_eq_ok.mp h
    obtain ⟨_, -, h⟩ := bind_eq_ok.mp h
    obtain ⟨valid, -, h⟩ := bind_eq_ok.mp h
    obtain ⟨_, -, h⟩ := bind_eq_ok.mp h
    have hle := le_trans (show state.cursor + 4 ≤ state.cursor + 4 + 8 + len by omega)
      (fdt.le_fdtAlign4 _)
    split at h
    · obtain ⟨cmp, -, h⟩ := bind_eq_ok.mp h
      split at h
      · exact absurd h (by simp)
      · cases h
        exact hle
    · cases h
      exact hle
  split at h
  · cases h
    exact le_rfl
  · exact absurd h (by simp)

/-- The loop of `fdt_get_property`. -/
def fdtScanLoop (fdt : Fdt) (name : CString) : Loop FdtScanState FdtProp where
  more state := state.cursor < fdt.structBlockEnd
  turn := fdt.fdtScanTurn name
  fuel state := fdt.structBlockEnd - state.cursor
  fuel_lt state next hmore h := by
    have hle := cursor_le_of_fdtScanTurn h
    have hlt := of_decide_eq_true hmore
    omega

/-- `fdt_get_property`. -/
def fdtGetProperty (fdt : Fdt) (node : FdtNode) (name : CString) : Outcome FdtProp := do
  let cursor ← fdt.fdtNodePayload node
  (fdt.fdtScanLoop name).run ⟨cursor, 0⟩

/-- The loop of `fdt_node_has_compatible` over the entries of the property. -/
def fdtEntryLoop (fdt : Fdt) (prop : FdtProp) (compatible : CString) : Loop ℕ Unit where
  more offset := offset < prop.len
  turn offset := do
    let entry := fdt.mem.drop (prop.data + offset)
    let len ← access (strlen entry)
    require (¬ offset + len ≥ prop.len)
    let cmp ← access (strcmp entry compatible.bytes)
    if cmp = 0 then pure (Sum.inr ()) else pure (Sum.inl (offset + len + 1))
  fuel offset := prop.len - offset
  fuel_lt offset next hmore h := by
    have hlt := of_decide_eq_true hmore
    obtain ⟨len, -, h⟩ := bind_eq_ok.mp h
    obtain ⟨_, -, h⟩ := bind_eq_ok.mp h
    obtain ⟨cmp, -, h⟩ := bind_eq_ok.mp h
    split at h
    · exact absurd h (by simp)
    · cases h
      omega

/-- `fdt_node_has_compatible`. -/
def fdtNodeHasCompatible (fdt : Fdt) (node : FdtNode) (compatible : CString) : Outcome Unit := do
  let prop ← fdt.fdtGetProperty node compatibleName
  (fdt.fdtEntryLoop prop compatible).run 0

/-- A node that the walk reports lies before its cursor. -/
theorem cursor_lt_of_fdtWalkNextNode {fdt : Fdt} {state : FdtWalkState}
    {found : FdtNode × FdtWalkState} (h : fdt.fdtWalkNextNode state = ok found) :
    state.cursor < fdt.structBlockEnd ∧ state.cursor < found.2.cursor := by
  obtain ⟨last, hturns, hmore, hturn⟩ := Loop.run_eq_ok_iff.mp h
  have hlast := cursor_le_of_fdtWalkTurn hturn
  have hle : state.cursor ≤ last.cursor := by
    clear hmore hturn hlast
    induction hturns with
    | refl => exact le_rfl
    | @tail t u _ hnext ih =>
      have hstep : t.cursor + 4 ≤ u.cursor := cursor_le_of_fdtWalkTurn hnext.2
      omega
  have hlt : last.cursor < fdt.structBlockEnd := of_decide_eq_true hmore
  change last.cursor + 4 ≤ found.2.cursor at hlast
  omega

/-- A loop over the nodes: what is done with each of them, and whether it is the
one to stop at. -/
def fdtNodeLoop (fdt : Fdt) (found : FdtNode × FdtWalkState → Outcome Bool) :
    Loop FdtWalkState FdtNode where
  more _ := true
  turn state := do
    let next ← fdt.fdtWalkNextNode state
    let stop ← found next
    if stop then pure (Sum.inr next.1) else pure (Sum.inl next.2)
  fuel state := fdt.structBlockEnd - state.cursor
  fuel_lt state next _ h := by
    obtain ⟨found, hnext, h⟩ := bind_eq_ok.mp h
    obtain ⟨stop, -, h⟩ := bind_eq_ok.mp h
    have hlt := cursor_lt_of_fdtWalkNextNode hnext
    split at h
    · exact absurd h (by simp)
    · cases h
      omega

/-- `fdt_find_node_by_path`. -/
def fdtFindNodeByPath (fdt : Fdt) (path : CString) : Outcome FdtNode :=
  (fdt.fdtNodeLoop fun found => do
    let cmp ← access (strcmp found.2.path path.bytes)
    pure (cmp = 0)).run fdt.fdtWalkInit

/-- `fdt_find_compatible`. -/
def fdtFindCompatible (fdt : Fdt) (compatible : CString) : Outcome FdtNode :=
  (fdt.fdtNodeLoop fun found =>
    Option.isSome <$> attempt (fdt.fdtNodeHasCompatible found.1 compatible)).run fdt.fdtWalkInit

/-! ## Reading properties -/

/-- `fdt_get_u32`. -/
def fdtGetU32 (fdt : Fdt) (node : FdtNode) (name : CString) : Outcome ℕ := do
  let prop ← fdt.fdtGetProperty node name
  fdt.fdtPropGetU32 prop

/-- The loops of `fdt_get_reg` over the cells of an address and of a size. -/
def fdtReadCells (mem : List UInt8) : ℕ → BitVec 64 → ℕ → Outcome (BitVec 64 × ℕ)
  | 0, value, cells => ok (value, cells)
  | n + 1, value, cells => do
    let cell ← access (fdtReadBe32 mem cells)
    fdtReadCells mem n (value <<< 32 ||| BitVec.ofNat 64 cell) (cells + 4)

/-- The address and the size that `fdt_get_reg` returns, if it returns `true`. -/
def fdtRegEntry (fdt : Fdt) (node : FdtNode) (index : BitVec 32) :
    Outcome (BitVec 64 × BitVec 64) := do
  let prop ← fdt.fdtGetProperty node regName
  require (¬ (node.parentAddressCells > 2 ∨ node.parentSizeCells > 2))
  let entryCells := BitVec.ofNat 32 node.parentAddressCells + BitVec.ofNat 32 node.parentSizeCells
  require (¬ (entryCells = 0 ∨ prop.len % 4 ≠ 0))
  let cellCount := prop.len / 4
  require (¬ ((index + 1) * entryCells).toNat > cellCount)
  let cells := prop.data + (index * entryCells).toNat * 4
  let (addr, cells) ← fdtReadCells fdt.mem node.parentAddressCells 0 cells
  let (size, _) ← fdtReadCells fdt.mem node.parentSizeCells 0 cells
  ok (addr, size)

/-- `fdt_get_reg`, with what is in `*out_addr` and `*out_size` before and after. -/
def fdtGetReg (fdt : Fdt) (node : FdtNode) (index : BitVec 32) (outAddr outSize : BitVec 64) :
    Outcome (Bool × BitVec 64 × BitVec 64) := do
  let entry ← attempt (fdt.fdtRegEntry node index)
  match entry with
  | some (addr, size) => ok (true, addr, size)
  | none => ok (false, outAddr, outSize)

/-- The property `fdt_get_stdout_path` reads. -/
def fdtStdoutProp (fdt : Fdt) (chosen : FdtNode) : Outcome FdtProp := do
  let prop ← attempt (fdt.fdtGetProperty chosen stdoutPath)
  match prop with
  | some prop => ok prop
  | none => fdt.fdtGetProperty chosen linuxStdoutPath

/-- The length of the path up to a `':'`. -/
def fdtStdoutLen (path : List UInt8) : Outcome ℕ := do
  let colon ← access (strchr path 0x3a)
  match colon with
  | some len => ok len
  | none => access (strlen path)

/-- `fdt_get_stdout_path`. -/
def fdtGetStdoutPath (fdt : Fdt) (buffer : List UInt8) (bufferSize : ℕ) :
    Outcome (List UInt8) := do
  let chosen ← fdt.fdtFindNodeByPath chosenPath
  let prop ← fdt.fdtStdoutProp chosen
  fdt.fdtPropIsString prop
  let len ← fdtStdoutLen (fdt.mem.drop prop.data)
  fdtCopyString buffer bufferSize (fdt.mem.drop prop.data) len

/-- `fdt_resolve_alias`. -/
def fdtResolveAlias (fdt : Fdt) (name : CString) (buffer : List UInt8) (bufferSize : ℕ) :
    Outcome (List UInt8) := do
  let aliases ← fdt.fdtFindNodeByPath aliasesPath
  let prop ← fdt.fdtGetProperty aliases name
  fdt.fdtPropIsString prop
  let len ← access (strlen (fdt.mem.drop prop.data))
  fdtCopyString buffer bufferSize (fdt.mem.drop prop.data) len

end Fdt

/-! ## The header -/

/-- `fdt_range_valid`. -/
def fdtRangeValid (totalSize offset size : ℕ) : Bool :=
  offset ≤ totalSize ∧ size ≤ totalSize - offset

/-- `fdt_init`. -/
def fdtInit (mem : List UInt8) (base : ℕ) : Outcome Fdt := do
  let magic ← Outcome.access (fdtReadBe32 mem 0)
  Outcome.require (¬ magic ≠ fdtMagic)
  let totalSize ← Outcome.access (fdtReadBe32 mem 4)
  let offDtStruct ← Outcome.access (fdtReadBe32 mem 8)
  let offDtStrings ← Outcome.access (fdtReadBe32 mem 12)
  let sizeDtStruct ← Outcome.access (fdtReadBe32 mem 36)
  let sizeDtStrings ← Outcome.access (fdtReadBe32 mem 32)
  Outcome.require (fdtRangeValid totalSize offDtStruct sizeDtStruct = true
    ∧ fdtRangeValid totalSize offDtStrings sizeDtStrings = true)
  pure ⟨mem, base, offDtStruct, offDtStruct + sizeDtStruct, offDtStrings, sizeDtStrings⟩
