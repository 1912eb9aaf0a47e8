import Risky.FdtEncoding

/-!
# Decoding undoes encoding

`fdt_walk_next_node` over the tokens of a flattened device tree. Its state mirrors the
nodes that are open (`Fdt.WalkAt`): the path buffer holds the path of the innermost
one, and each frame the numbers of cells so far and the length of the path to go back
to. A node that begins, a property and a node that ends lead from one such state to the
next, so that the loop of `fdt_find_node_by_path` goes through the reports on the tree
(`Fdt.nodeLoop_eq`).

Together with the scan for a property, the functions give back the tree that has been
written (`Flattens.decodes`).
-/

/-- An entry behind a prefix is set. -/
theorem prefix_set {α : Type} {xs ys : List α} (h : xs <+: ys) (hlt : xs.length < ys.length)
    (a : α) : xs ++ [a] <+: ys.set xs.length a := by
  obtain ⟨zs, rfl⟩ := h
  cases zs with
  | nil => exact absurd hlt (by simp)
  | cons z zs =>
    refine ⟨zs, ?_⟩
    rw [List.set_append_right _ _ le_rfl, Nat.sub_self, List.append_assoc]
    rfl

/-- Characters are copied behind others. -/
theorem memcpy_append {base chars dest src : List UInt8} (hbase : base <+: dest)
    (hchars : chars <+: src) (hroom : base.length + chars.length ≤ dest.length) :
    ∃ dest', memcpy dest base.length src chars.length = Outcome.ok dest'
      ∧ dest'.length = dest.length ∧ base ++ chars <+: dest' := by
  refine ⟨_, memcpy_eq hchars.length_le hroom, ?_, ?_⟩
  · rw [List.length_append, List.length_append, List.length_take, List.length_take,
      List.length_drop]
    have hle := hchars.length_le
    omega
  · rw [← List.prefix_iff_eq_take.mp hbase, ← List.prefix_iff_eq_take.mp hchars]
    exact List.prefix_append _ _

/-- One more property with a number of cells. -/
theorem cellsOf_append {props : List DtProp} {p : DtProp} (h : p.name ∉ props.map DtProp.name)
    (name : CString) (default : ℕ) :
    cellsOf name default (props ++ [p])
      = if p.name = name then bigEndian p.value else cellsOf name default props := by
  unfold cellsOf
  rw [List.find?_append]
  by_cases hp : p.name = name
  · have hnone : props.find? (fun q => q.name = name) = none := by
      rw [List.find?_eq_none]
      intro q hq hname
      exact h (List.mem_map.mpr ⟨q, hq, (of_decide_eq_true hname).trans hp.symm⟩)
    rw [hnone, if_pos hp, Option.none_or, List.find?_cons_of_pos (by simpa using hp)]
    rfl
  · rw [if_neg hp, List.find?_cons_of_neg (by simpa using hp), List.find?_nil, Option.or_none]

namespace Fdt

open Outcome

variable {fdt : Fdt} {state : FdtWalkState} {ts : List FdtToken} {stack : List OpenNode}
  {o : OpenNode} {name : CString} {p : DtProp}

/-! ## The state of the walk -/

/-- The length of the path of the innermost open node. -/
def openLength : List OpenNode → ℕ
  | [] => 0
  | o :: _ => o.path.length

/-- The frame of a node on a stack of open nodes. -/
def frameOf (o : OpenNode) (stack : List OpenNode) : FdtWalkFrame :=
  ⟨openLength stack, cellsOf addressCells 2 o.props, cellsOf sizeCells 1 o.props⟩

/-- The frames of the open nodes, from the outermost on. -/
def framesOf : List OpenNode → List FdtWalkFrame
  | [] => []
  | o :: stack => framesOf stack ++ [frameOf o stack]

/-- **The walk is where some nodes are open.** -/
structure WalkAt (state : FdtWalkState) (stack : List OpenNode) : Prop where
  path_length : state.path.length = fdtMaxPath
  frames_length : state.frames.length = fdtMaxDepth
  depth_eq : state.depth = stack.length
  pathLen_eq : state.pathLen = openLength stack
  /-- The frames in use are those of the open nodes. -/
  frames : framesOf stack <+: state.frames
  /-- The buffer holds the path of the innermost one. -/
  path : ∀ o ∈ stack.head?, o.path.bytes <+: state.path
  /-- The path of a node begins with those of the nodes around it. -/
  nested : stack.Pairwise (fun o o' => o'.path.chars <+: o.path.chars)

theorem length_framesOf (stack : List OpenNode) : (framesOf stack).length = stack.length := by
  induction stack with
  | nil => rfl
  | cons o stack ih =>
    rw [framesOf, List.length_append, ih]
    rfl

theorem walkAt_fdtWalkInit (fdt : Fdt) : WalkAt fdt.fdtWalkInit [] where
  path_length := List.length_replicate
  frames_length := List.length_replicate
  depth_eq := rfl
  pathLen_eq := rfl
  frames := List.nil_prefix
  path _ h := absurd h (by simp)
  nested := List.Pairwise.nil

/-- The frame of the innermost open node. -/
theorem WalkAt.frame (h : WalkAt state (o :: stack)) :
    state.frames[state.depth - 1]? = some (frameOf o stack) := by
  obtain ⟨unused, hframes⟩ := h.frames
  rw [← hframes, h.depth_eq, framesOf, List.append_assoc, List.length_cons, Nat.add_sub_cancel,
    List.getElem?_append_right (by rw [length_framesOf]), length_framesOf, Nat.sub_self]
  rfl

theorem WalkAt.depth_ne_zero (h : WalkAt state (o :: stack)) : ¬ state.depth = 0 := by
  rw [h.depth_eq]
  exact Nat.succ_ne_zero _

theorem WalkAt.depth_le (h : WalkAt state stack) : stack.length ≤ fdtMaxDepth := by
  rw [← length_framesOf, ← h.frames_length]
  exact h.frames.length_le

/-- Only the cursor moves. -/
theorem WalkAt.setCursor (h : WalkAt state stack) (cursor : ℕ) :
    WalkAt { state with cursor := cursor } stack :=
  ⟨h.path_length, h.frames_length, h.depth_eq, h.pathLen_eq, h.frames, h.path, h.nested⟩

/-! ## A node ends -/

/-- **The walk leaves a node.** -/
theorem fdtWalkEndNode_eq (h : WalkAt state (o :: stack)) :
    ∃ state', fdtWalkEndNode state = ok state' ∧ state'.cursor = state.cursor
      ∧ WalkAt state' stack := by
  have hlen : openLength stack ≤ o.path.length := by
    cases stack with
    | nil => exact Nat.zero_le _
    | cons o' stack => exact ((List.pairwise_cons.mp h.nested).1 o' List.mem_cons_self).length_le
  have hpath := (h.path o rfl)
  have hlt : openLength stack < state.path.length := by
    have hle := hpath.length_le
    rw [CString.length_bytes] at hle
    omega
  refine ⟨{ state with
    path := state.path.set (openLength stack) 0
    depth := state.depth - 1
    pathLen := openLength stack }, ?_, rfl, ?_⟩
  · rw [fdtWalkEndNode, require_of_pos h.depth_ne_zero, ok_bind, h.frame, access_some, ok_bind]
    show (store state.path (openLength stack) 0 >>= _) = _
    rw [store, if_pos hlt]
    rfl
  · refine ⟨by rw [List.length_set, h.path_length], h.frames_length, ?_, rfl, ?_, ?_,
      (List.pairwise_cons.mp h.nested).2⟩
    · show state.depth - 1 = stack.length
      rw [h.depth_eq]
      rfl
    · exact (List.prefix_append _ _).trans h.frames
    · intro o' ho'
      cases stack with
      | nil => exact absurd ho' (by simp)
      | cons o'' stack =>
        obtain rfl : o'' = o' := by simpa using ho'
        have hnested := (List.pairwise_cons.mp h.nested).1 o'' List.mem_cons_self
        exact prefix_set (hnested.trans ((List.prefix_append _ _).trans hpath)) hlt 0

/-! ## A property -/

theorem fdtReadBe32_bigEndian {mem value : List UInt8} {ptr : ℕ} (hlen : value.length = 4)
    (h : value <+: mem.drop ptr) : fdtReadBe32 mem ptr = some (bigEndian value) := by
  obtain ⟨rest, hrest⟩ := h
  match value, hlen with
  | [b₀, b₁, b₂, b₃], _ =>
    unfold fdtReadBe32
    rw [← hrest]
    show some (_ ||| _) = _
    rw [be32_eq]
    show some _ = some (256 * (256 * (256 * (256 * 0 + b₀.toNat) + b₁.toNat) + b₂.toNat) + b₃.toNat)
    refine congrArg some ?_
    omega

/-- **The cells of the open node** are those of its properties. -/
theorem fdtWalkCells_eq {propName : List UInt8} {data : ℕ} (hname : p.name.bytes <+: propName)
    (hvalue : p.value <+: fdt.mem.drop data) (hnew : p.name ∉ o.props.map DtProp.name)
    (hcells : p.name = addressCells ∨ p.name = sizeCells → p.value.length = 4) :
    fdt.fdtWalkCells propName ⟨data, p.value.length⟩ (frameOf o stack)
      = ok (frameOf { o with props := o.props ++ [p] } stack) := by
  have hread : (p.name = addressCells ∨ p.name = sizeCells) →
      fdt.fdtPropGetU32 ⟨data, p.value.length⟩ = ok (bigEndian p.value) := by
    intro h
    rw [fdtPropGetU32, require_of_pos (hcells h), ok_bind,
      fdtReadBe32_bigEndian (hcells h) hvalue]
    rfl
  obtain ⟨r, hr, hiff⟩ := CString.strcmp_eq hname (List.prefix_refl addressCells.bytes)
  obtain ⟨r', hr', hiff'⟩ := CString.strcmp_eq hname (List.prefix_refl sizeCells.bytes)
  rw [fdtWalkCells, hr, access_some, ok_bind]
  unfold frameOf
  rw [cellsOf_append hnew, cellsOf_append hnew]
  by_cases haddress : p.name = addressCells
  · have hsize : p.name ≠ sizeCells := by
      rw [haddress]
      decide
    rw [if_pos (hiff.mpr haddress), hread (Or.inl haddress), if_pos haddress, if_neg hsize]
    rfl
  · rw [if_neg (fun h => haddress (hiff.mp h)), hr', access_some, ok_bind, if_neg haddress]
    by_cases hsize : p.name = sizeCells
    · rw [if_pos (hiff'.mpr hsize), hread (Or.inr hsize), if_pos hsize]
      rfl
    · rw [if_neg (fun h => hsize (hiff'.mp h)), if_neg hsize]
      rfl

/-- **The walk passes a property.** -/
theorem fdtWalkProp_eq (hrange : fdt.InRange) {ptr nameoff : ℕ}
    (hstands : fdt.Stands ptr (FdtToken.prop nameoff p :: ts)) (hcursor : state.cursor = ptr + 4)
    (h : WalkAt state (o :: stack)) (hnew : p.name ∉ o.props.map DtProp.name)
    (hcells : p.name = addressCells ∨ p.name = sizeCells → p.value.length = 4) :
    ∃ state', fdt.fdtWalkProp state = ok state'
      ∧ state'.cursor = ptr + (FdtToken.prop nameoff p).bytes.length
      ∧ WalkAt state' (addProp p (o :: stack)) := by
  obtain ⟨-, hlen, -, hroom⟩ := propAt hrange hstands
  have hname := hstands.names nameoff p List.mem_cons_self
  have hoff : fdtReadBe32 fdt.mem (ptr + 4 + 4) = some nameoff := read_nameoff hrange hstands
  have hlt : ptr < fdt.structBlockEnd := by
    have := hstands.lt
    omega
  obtain ⟨h₁, h₂⟩ := (sizeDiff_room hrange hlt (fdtReadBe32_lt hlen)).mpr hroom
  have hdepth : state.depth - 1 = (framesOf stack).length := by
    rw [length_framesOf, h.depth_eq]
    rfl
  have hframes : framesOf stack <+: state.frames := (List.prefix_append _ _).trans h.frames
  have hframes_lt : (framesOf stack).length < state.frames.length := by
    have hle := h.frames.length_le
    rw [framesOf, List.length_append] at hle
    exact hle
  let o' : OpenNode := { o with props := o.props ++ [p] }
  refine ⟨{ state with
    cursor := fdt.fdtAlign4 (ptr + 12 + p.value.length)
    frames := state.frames.set (framesOf stack).length (frameOf o' stack) }, ?_, align_prop hstands,
    ?_⟩
  · unfold fdtWalkProp
    rw [hcursor, require_of_pos h₁, ok_bind, hlen, access_some, ok_bind, hoff, access_some, ok_bind]
    dsimp only
    rw [require_of_pos h₂, ok_bind, fdtPropNameValid_of_nameAt hrange hname, access_some, ok_bind,
      require_of_pos rfl, ok_bind, require_of_pos h.depth_ne_zero, ok_bind, h.frame, access_some,
      ok_bind, fdtWalkCells_eq hname.2 (value_stands hstands) hnew hcells, ok_bind, hdepth, store,
      if_pos hframes_lt, ok_bind]
    rfl
  · refine ⟨h.path_length, by rw [List.length_set, h.frames_length], h.depth_eq, h.pathLen_eq,
      prefix_set hframes hframes_lt _, ?_, ?_⟩
    · intro o'' ho''
      obtain rfl : o' = o'' := by simpa [addProp] using ho''
      exact h.path o rfl
    · exact List.pairwise_cons.mpr ⟨(List.pairwise_cons.mp h.nested).1,
        (List.pairwise_cons.mp h.nested).2⟩

/-! ## A node begins -/

theorem fdtWalkLast_eq {chars path : List UInt8} (h : chars <+: path) :
    fdtWalkLast path chars.length = ok chars.getLast? := by
  obtain ⟨rest, rfl⟩ := h
  unfold fdtWalkLast
  rcases List.eq_nil_or_concat' chars with rfl | ⟨cs, c, rfl⟩
  · rfl
  · rw [if_neg (by simp), List.getLast?_concat, List.length_append, List.length_singleton,
      Nat.add_sub_cancel, List.append_assoc, List.getElem?_append_right le_rfl, Nat.sub_self]
    rfl

/-- The path ends in `'/'` before a name is added. -/
theorem fdtWalkSlash_eq {chars path : List UInt8} (hpath : path.length = fdtMaxPath)
    (h : chars <+: path) (hroom : (slashed chars).length < fdtMaxPath) :
    ∃ path', fdtWalkSlash path chars.length = ok (path', (slashed chars).length)
      ∧ path'.length = fdtMaxPath ∧ slashed chars <+: path' := by
  unfold fdtWalkSlash
  rw [fdtWalkLast_eq h, ok_bind]
  unfold slashed at hroom ⊢
  by_cases hlast : chars.getLast? = some slash
  · rw [if_pos hlast, if_neg (not_not_intro hlast)]
    exact ⟨path, rfl, hpath, h⟩
  · rw [if_neg hlast, List.length_append, List.length_singleton] at hroom
    rw [if_neg hlast, if_pos hlast, require_of_pos (by omega), ok_bind, store,
      if_pos (by omega), List.length_append]
    exact ⟨path.set chars.length slash, rfl, by rw [List.length_set, hpath],
      prefix_set h (by omega) slash⟩

/-- The path of the root is written into the buffer. -/
theorem fdtWalkPath_root (hpath : state.path.length = fdtMaxPath) (hdepth : state.depth = 0)
    (nameLen : ℕ) :
    ∃ path', fdt.fdtWalkPath state nameLen = ok (path', (fullPath []).length)
      ∧ path'.length = fdtMaxPath ∧ (fullPath []).bytes <+: path' := by
  have hmax : fdtMaxPath = 256 := rfl
  unfold fdtWalkPath
  rw [if_pos hdepth, store, if_pos (by omega), ok_bind, store,
    if_pos (by rw [List.length_set]; omega)]
  refine ⟨(state.path.set 0 slash).set 1 0, rfl,
    by rw [List.length_set, List.length_set, hpath], ?_⟩
  have hroot := prefix_set (List.nil_prefix (l := state.path)) (by rw [hpath]; decide) slash
  exact prefix_set hroot (by rw [List.length_set, hpath]; decide) 0

/-- **The path of a subnode** is written behind that of its parent. -/
theorem fdtWalkPath_child {path : CString} (hpath : state.path.length = fdtMaxPath)
    (hdepth : ¬ state.depth = 0) (hpathLen : state.pathLen = path.length)
    (hstands : path.chars <+: state.path) (hname : name.bytes <+: fdt.mem.drop state.cursor)
    (hlen : (childPath path name).length ≤ 255) :
    ∃ path', fdt.fdtWalkPath state name.length = ok (path', (childPath path name).length)
      ∧ path'.length = fdtMaxPath ∧ (childPath path name).bytes <+: path' := by
  have hmax : fdtMaxPath = 256 := rfl
  have hlength : (childPath path name).length = (slashed path.chars).length + name.length :=
    List.length_append
  -- first the slash, then the name, then the NUL
  obtain ⟨path₁, hslash, hpath₁, hbase⟩ := fdtWalkSlash_eq hpath hstands (by omega)
  obtain ⟨path₂, hcopy, hpath₂, hprefix⟩ := memcpy_append hbase
    ((List.prefix_append name.chars [0]).trans hname)
    (show _ + name.length ≤ path₁.length by omega)
  have hend : (slashed path.chars ++ name.chars).length < path₂.length := by
    rw [List.length_append]
    show (slashed path.chars).length + name.length < _
    omega
  refine ⟨path₂.set (slashed path.chars ++ name.chars).length 0, ?_, ?_, prefix_set hprefix hend 0⟩
  · unfold fdtWalkPath
    rw [if_neg hdepth, hpathLen]
    show (fdtWalkSlash state.path path.chars.length >>= _) = _
    rw [hslash, ok_bind]
    dsimp only
    rw [require_of_pos (by omega), ok_bind]
    show (memcpy path₁ _ _ name.chars.length >>= _) = _
    rw [hcopy, ok_bind, ← hlength]
    show (store path₂ (slashed path.chars ++ name.chars).length 0 >>= _) = _
    rw [store, if_pos hend]
    rfl
  · rw [List.length_set, hpath₂, hpath₁]

/-- **The path of the node that begins** is written into the buffer. -/
theorem fdtWalkPath_eq (h : WalkAt state stack) (hname : name.bytes <+: fdt.mem.drop state.cursor)
    (hlen : (enter stack name).path.length ≤ 255) :
    ∃ path', fdt.fdtWalkPath state name.length = ok (path', (enter stack name).path.length)
      ∧ path'.length = fdtMaxPath ∧ (enter stack name).path.bytes <+: path' := by
  cases stack with
  | nil => exact fdtWalkPath_root h.path_length h.depth_eq name.length
  | cons o stack =>
    exact fdtWalkPath_child h.path_length h.depth_ne_zero h.pathLen_eq
      ((List.prefix_append _ _).trans (h.path o rfl)) hname hlen

/-- The cells for the node that begins are those of the innermost open one. -/
theorem fdtWalkParent_eq (h : WalkAt state stack) :
    ∃ pathLen, fdtWalkParent state = ok ⟨pathLen,
      cellsOf addressCells 2 (openProps stack), cellsOf sizeCells 1 (openProps stack)⟩ := by
  have hdepth := h.depth_eq
  unfold fdtWalkParent
  cases stack with
  | nil => exact ⟨0, if_neg (by rw [hdepth]; exact lt_irrefl 0)⟩
  | cons o stack =>
    refine ⟨openLength stack, (if_pos (Nat.pos_of_ne_zero h.depth_ne_zero)).trans ?_⟩
    rw [h.frame]
    rfl

theorem prefix_slashed (chars : List UInt8) : chars <+: slashed chars := by
  unfold slashed
  split
  · exact List.prefix_rfl
  · exact List.prefix_append _ _

/-- The path of the node that begins continues those of the nodes around it. -/
theorem nested_enter (name : CString)
    (h : stack.Pairwise (fun o o' => o'.path.chars <+: o.path.chars)) :
    (enter stack name :: stack).Pairwise (fun o o' => o'.path.chars <+: o.path.chars) := by
  refine List.pairwise_cons.mpr ⟨fun o' ho' => ?_, h⟩
  cases stack with
  | nil => exact absurd ho' List.not_mem_nil
  | cons o stack =>
    have hparent : o.path.chars <+: (childPath o.path name).chars :=
      (prefix_slashed o.path.chars).trans (List.prefix_append _ name.chars)
    rcases List.mem_cons.mp ho' with rfl | ho'
    · exact hparent
    · exact ((List.pairwise_cons.mp h).1 o' ho').trans hparent

/-- **The walk enters a node.** -/
theorem fdtWalkBeginNode_eq (hrange : fdt.InRange) {ptr : ℕ}
    (hstands : fdt.Stands ptr (FdtToken.beginNode name :: ts)) (hcursor : state.cursor = ptr + 4)
    (h : WalkAt state stack) (hdepth : stack.length < fdtMaxDepth)
    (hlen : (enter stack name).path.length ≤ 255) :
    ∃ state', fdt.fdtWalkBeginNode ptr state
        = ok (⟨(ptr - fdt.structBlock) % 2 ^ 32, cellsOf addressCells 2 (openProps stack),
          cellsOf sizeCells 1 (openProps stack)⟩, state')
      ∧ state'.cursor = ptr + (FdtToken.beginNode name).bytes.length
      ∧ WalkAt state' (enter stack name :: stack) := by
  have hname : name.bytes <+: fdt.mem.drop state.cursor := by
    rw [hcursor]
    exact name_stands hstands
  obtain ⟨pathLen, hparent⟩ := fdtWalkParent_eq h
  obtain ⟨path', hpath, hpath_length, hpath_stands⟩ := fdtWalkPath_eq h hname hlen
  have hlt : state.depth < state.frames.length := by
    rw [h.frames_length, h.depth_eq]
    exact hdepth
  have hframe : frameOf (enter stack name) stack
      = ⟨state.pathLen, fdtDefaultAddressCells, fdtDefaultSizeCells⟩ := by
    rw [h.pathLen_eq]
    cases stack <;> rfl
  have hle := hstands.bytes_le
  refine ⟨⟨ptr + (FdtToken.beginNode name).bytes.length, path',
    state.frames.set state.depth (frameOf (enter stack name) stack), state.depth + 1,
    (enter stack name).path.length⟩, ?_, rfl, ?_⟩
  · rw [fdtWalkBeginNode, require_of_pos (by rw [h.depth_eq]; omega), ok_bind, hcursor,
      boundedStrlen_beginNode hrange hstands, ok_bind, hparent, ok_bind, store, if_pos hlt, ok_bind,
      hpath, ok_bind, align_beginNode hstands]
    dsimp only
    rw [require_of_pos (by omega), ok_bind, hframe]
    rfl
  · have hlen_frames : (framesOf stack).length = state.depth := by
      rw [length_framesOf, h.depth_eq]
    refine ⟨hpath_length, by rw [List.length_set, h.frames_length], ?_, rfl, ?_, ?_,
      nested_enter name h.nested⟩
    · show state.depth + 1 = stack.length + 1
      rw [h.depth_eq]
    · show framesOf stack ++ [_] <+: state.frames.set state.depth _
      rw [← hlen_frames]
      exact prefix_set h.frames (by rw [hlen_frames]; exact hlt) _
    · intro o ho
      obtain rfl : enter stack name = o := by simpa using ho
      exact hpath_stands

/-! ## The walk over the tokens -/

/-- Reading a token that stands at the cursor. -/
theorem fdtWalkTurn_eq (hrange : fdt.InRange) (hstands : fdt.Stands state.cursor ts) {token : ℕ}
    (htoken : fdtReadBe32 fdt.mem state.cursor = some token) :
    fdt.fdtWalkTurn state = (let next : FdtWalkState := { state with cursor := state.cursor + 4 }
      if token = fdtBeginNode then Sum.inr <$> fdt.fdtWalkBeginNode state.cursor next
      else if token = fdtEndNode then Sum.inl <$> fdtWalkEndNode next
      else if token = fdtPropToken then Sum.inl <$> fdt.fdtWalkProp next
      else if token = fdtNop then pure (Sum.inl next)
      else refused) := by
  have hlt := hstands.lt
  exact fdtWalkTurn_of_room hrange (by omega) htoken

section Loop

variable {found : FdtNode × FdtWalkState → Outcome Bool}

/-- A loop over the nodes goes on from wherever the walk comes to. -/
theorem nodeLoop_of_next (hstands : fdt.Stands state.cursor ts) {state' : FdtWalkState}
    (h : fdt.fdtWalkTurn state = ok (Sum.inl state')) :
    (fdt.fdtNodeLoop found).run state = (fdt.fdtNodeLoop found).run state' := by
  have hlt := hstands.lt
  have hnext : fdt.fdtWalkNextNode state = fdt.fdtWalkNextNode state' :=
    Loop.run_of_next (L := fdt.fdtWalkLoop)
      (decide_eq_true (show state.cursor < fdt.structBlockEnd by omega)) h
  have hturn : (fdt.fdtNodeLoop found).turn state = (fdt.fdtNodeLoop found).turn state' := by
    show (fdt.fdtWalkNextNode state >>= _) = (fdt.fdtWalkNextNode state' >>= _)
    rw [hnext]
  rw [Loop.run_eq, hturn, Loop.run_eq (fdt.fdtNodeLoop found) state']
  rfl

/-- A node that begins is the one to stop at, or the loop goes on behind it. -/
theorem nodeLoop_of_found (hstands : fdt.Stands state.cursor ts) {node : FdtNode}
    {state' : FdtWalkState} {stop : Bool} (h : fdt.fdtWalkTurn state = ok (Sum.inr (node, state')))
    (hfound : found (node, state') = ok stop) :
    (fdt.fdtNodeLoop found).run state
      = if stop then ok node else (fdt.fdtNodeLoop found).run state' := by
  have hlt := hstands.lt
  have hnext : fdt.fdtWalkNextNode state = ok (node, state') :=
    Loop.run_of_result (L := fdt.fdtWalkLoop)
      (decide_eq_true (show state.cursor < fdt.structBlockEnd by omega)) h
  have hturn : (fdt.fdtNodeLoop found).turn state
      = if stop then ok (Sum.inr node) else ok (Sum.inl state') := by
    show (fdt.fdtWalkNextNode state >>= _) = _
    rw [hnext, ok_bind, hfound]
    rfl
  cases stop with
  | true => exact Loop.run_of_result rfl hturn
  | false => exact Loop.run_of_next rfl hturn

end Loop

/-- The node that is reported at an offset. -/
def nodeAt (r : ℕ × Report) : FdtNode :=
  ⟨r.1 % 2 ^ 32, cellsOf addressCells 2 r.2.parentProps, cellsOf sizeCells 1 r.2.parentProps⟩

/-- What a search comes to: the first report that passes a test, or nothing. -/
def firstOf (test : ℕ × Report → Bool) (found : List (ℕ × Report)) : Outcome FdtNode :=
  match found.find? test with
  | some r => ok (nodeAt r)
  | none => refused

theorem firstOf_cons (test : ℕ × Report → Bool) (r : ℕ × Report) (found : List (ℕ × Report)) :
    firstOf test (r :: found) = if test r then ok (nodeAt r) else firstOf test found := by
  unfold firstOf
  by_cases h : test r = true
  · rw [List.find?_cons_of_pos h, if_pos h]
  · rw [List.find?_cons_of_neg h, if_neg h]

/-- What the search for a path comes to: the first report of that path among some,
or nothing. -/
def searched (path : CString) (found : List (ℕ × Report)) : Outcome FdtNode :=
  match found.find? (fun r => r.2.path = path) with
  | some r => ok ⟨r.1 % 2 ^ 32, cellsOf addressCells 2 r.2.parentProps,
      cellsOf sizeCells 1 r.2.parentProps⟩
  | none => refused

theorem searched_cons (path : CString) (offset : ℕ) (r : Report) (found : List (ℕ × Report)) :
    searched path ((offset, r) :: found)
      = if r.path = path then ok ⟨offset % 2 ^ 32, cellsOf addressCells 2 r.parentProps,
          cellsOf sizeCells 1 r.parentProps⟩
        else searched path found := by
  refine (firstOf_cons (fun r => r.2.path = path) (offset, r) found).trans ?_
  simp only [decide_eq_true_eq]
  rfl

/-- The condition on which the search for a path stops. -/
def atPath (path : CString) (found : FdtNode × FdtWalkState) : Outcome Bool := do
  let cmp ← access (strcmp found.2.path path.bytes)
  pure (cmp = 0)

theorem atPath_eq (h : WalkAt state (o :: stack)) (node : FdtNode) (path : CString) :
    atPath path (node, state) = ok (decide (o.path = path)) := by
  obtain ⟨r, hr, hiff⟩ := CString.strcmp_eq (h.path o rfl) (List.prefix_refl path.bytes)
  show (access (strcmp state.path path.bytes) >>= _) = _
  rw [hr, access_some, ok_bind]
  exact congrArg ok (decide_eq_decide.mpr hiff)

/-- **The search goes through the reports** on the tokens. -/
theorem nodeLoop_eq_firstOf (hrange : fdt.InRange)
    {found : FdtNode × FdtWalkState → Outcome Bool} {test : ℕ × Report → Bool}
    (hstands : fdt.Stands state.cursor ts) (hblock : fdt.structBlock ≤ state.cursor)
    (h : WalkAt state stack) (hread : Readable stack (ts.filterMap FdtToken.event))
    (hfound : ∀ r ∈ (starts (state.cursor - fdt.structBlock) ts).zip
        (reports stack (ts.filterMap FdtToken.event)),
      ∀ {o : OpenNode} {stack : List OpenNode} {state : FdtWalkState}, WalkAt state (o :: stack) →
        o.path = r.2.path → found (nodeAt r, state) = ok (test r)) :
    (fdt.fdtNodeLoop found).run state
      = firstOf test ((starts (state.cursor - fdt.structBlock) ts).zip
          (reports stack (ts.filterMap FdtToken.event))) := by
  induction ts generalizing state stack with
  | nil =>
    have hturn : fdt.fdtWalkTurn state = refused := by
      rw [fdtWalkTurn_eq hrange hstands (read_end hstands)]
      rfl
    have hnext : fdt.fdtWalkNextNode state = refused := Loop.run_of_refused hturn
    refine Loop.run_of_refused ?_
    show (fdt.fdtWalkNextNode state >>= _) = _
    rw [hnext]
    rfl
  | cons t ts ih =>
    have hstate := h.setCursor (state.cursor + 4)
    -- behind the token the rest stands, and the offsets go on
    have hgo : ∀ {state' : FdtWalkState} {stack' : List OpenNode},
        state'.cursor = state.cursor + t.bytes.length → WalkAt state' stack' →
        Readable stack' (ts.filterMap FdtToken.event) →
        (∀ r ∈ (starts (state.cursor - fdt.structBlock + t.bytes.length) ts).zip
            (reports stack' (ts.filterMap FdtToken.event)),
          ∀ {o : OpenNode} {stack : List OpenNode} {state : FdtWalkState},
            WalkAt state (o :: stack) → o.path = r.2.path →
              found (nodeAt r, state) = ok (test r)) →
        (fdt.fdtNodeLoop found).run state'
          = firstOf test ((starts (state.cursor - fdt.structBlock + t.bytes.length) ts).zip
              (reports stack' (ts.filterMap FdtToken.event))) := by
      intro state' stack' hcursor hstate' hread' hfound'
      have hoffset : state'.cursor - fdt.structBlock
          = state.cursor - fdt.structBlock + t.bytes.length := by omega
      have hstands' : fdt.Stands state'.cursor ts := by
        rw [hcursor]
        exact hstands.next
      rw [← hoffset] at hfound' ⊢
      exact ih hstands' (by omega) hstate' hread' hfound'
    cases t with
    | beginNode name =>
      obtain ⟨hdepth, hlen, hread⟩ := hread
      obtain ⟨state', hbegin, hcursor, hstate'⟩ :=
        fdtWalkBeginNode_eq hrange hstands rfl hstate hdepth hlen
      have hturn := fdtWalkTurn_eq hrange hstands (read_beginNode hstands)
      rw [if_pos rfl, hbegin, map_ok] at hturn
      have hreport := List.forall_mem_cons.mp hfound
      rw [nodeLoop_of_found hstands hturn (hreport.1 hstate' rfl),
        hgo hcursor hstate' hread hreport.2]
      exact (firstOf_cons test _ _).symm
    | endNode =>
      obtain ⟨hopen, hread⟩ := hread
      obtain ⟨o, stack, rfl⟩ := List.exists_cons_of_ne_nil hopen
      obtain ⟨state', hend, hcursor, hstate'⟩ := fdtWalkEndNode_eq hstate
      have hturn := fdtWalkTurn_eq hrange hstands (read_endNode hstands)
      rw [if_neg (by decide), if_pos rfl, hend, map_ok] at hturn
      rw [nodeLoop_of_next hstands hturn]
      exact hgo hcursor hstate' hread hfound
    | prop nameoff p =>
      obtain ⟨hopen, hnew, hcells, hread⟩ := hread
      obtain ⟨o, stack, rfl⟩ := List.exists_cons_of_ne_nil hopen
      obtain ⟨state', hprop, hcursor, hstate'⟩ :=
        fdtWalkProp_eq hrange hstands rfl hstate hnew hcells
      have hturn := fdtWalkTurn_eq hrange hstands (read_prop hstands)
      rw [if_neg (by decide), if_neg (by decide), if_pos rfl, hprop, map_ok] at hturn
      rw [nodeLoop_of_next hstands hturn]
      exact hgo hcursor hstate' hread hfound
    | nop =>
      have hturn := fdtWalkTurn_eq hrange hstands (read_nop hstands)
      rw [if_neg (by decide), if_neg (by decide), if_neg (by decide), if_pos rfl] at hturn
      rw [nodeLoop_of_next hstands hturn]
      exact hgo rfl hstate hread hfound

/-- The search for a path. -/
theorem nodeLoop_eq (hrange : fdt.InRange) (path : CString)
    (hstands : fdt.Stands state.cursor ts) (hblock : fdt.structBlock ≤ state.cursor)
    (h : WalkAt state stack) (hread : Readable stack (ts.filterMap FdtToken.event)) :
    (fdt.fdtNodeLoop (atPath path)).run state
      = searched path ((starts (state.cursor - fdt.structBlock) ts).zip
          (reports stack (ts.filterMap FdtToken.event))) := by
  refine nodeLoop_eq_firstOf hrange hstands hblock h hread
    (fun r _ o stack state hstate hpath => ?_)
  rw [atPath_eq hstate, hpath]

/-! ## The nodes that are found -/

theorem length_starts (offset : ℕ) (ts : List FdtToken) (stack : List OpenNode) :
    (starts offset ts).length = (reports stack (ts.filterMap FdtToken.event)).length := by
  induction ts generalizing offset stack with
  | nil => rfl
  | cons t ts ih =>
    cases t with
    | beginNode name => exact congrArg Nat.succ (ih _ _)
    | endNode => exact ih _ _
    | prop nameoff p => exact ih _ _
    | nop => exact ih _ _

/-- **Where a node is reported** it begins, with the properties reported. -/
theorem exists_stands_of_mem {ptr offset start : ℕ} {r : Report} (hstands : fdt.Stands ptr ts)
    (hptr : ptr = fdt.structBlock + start)
    (h : (offset, r) ∈ (starts start ts).zip (reports stack (ts.filterMap FdtToken.event))) :
    ∃ name ts', fdt.Stands (fdt.structBlock + offset) (FdtToken.beginNode name :: ts')
      ∧ r.props = ownProps 0 (ts'.filterMap FdtToken.event) := by
  induction ts generalizing ptr start stack with
  | nil => exact absurd h List.not_mem_nil
  | cons t ts ih =>
    have hnext : ptr + t.bytes.length = fdt.structBlock + (start + t.bytes.length) := by omega
    cases t with
    | beginNode name =>
      rcases List.mem_cons.mp h with heq | h
      · obtain ⟨rfl, rfl⟩ := Prod.mk.inj heq
        exact ⟨name, ts, hptr ▸ hstands, rfl⟩
      · exact ih hstands.next hnext h
    | endNode => exact ih hstands.next hnext h
    | prop nameoff p => exact ih hstands.next hnext h
    | nop => exact ih hstands.next hnext h

/-- **A report is found** by its path, if no other has it. -/
theorem searched_of_mem {found : List (ℕ × Report)} {offset : ℕ} {r : Report}
    (hnodup : (found.map (fun r => r.2.path)).Nodup) (h : (offset, r) ∈ found) :
    searched r.path found = ok ⟨offset % 2 ^ 32, cellsOf addressCells 2 r.parentProps,
      cellsOf sizeCells 1 r.parentProps⟩ := by
  induction found with
  | nil => exact absurd h List.not_mem_nil
  | cons x found ih =>
    obtain ⟨offset', r'⟩ := x
    obtain ⟨hnot, hnodup⟩ := List.nodup_cons.mp hnodup
    rw [searched_cons]
    rcases List.mem_cons.mp h with heq | h
    · obtain ⟨rfl, rfl⟩ := Prod.mk.inj heq
      exact if_pos rfl
    · rw [if_neg (fun hpath => hnot (List.mem_map.mpr ⟨(offset, r), h, hpath.symm⟩))]
      exact ih hnodup h

theorem searched_of_notMem {found : List (ℕ × Report)} {path : CString}
    (h : ∀ r ∈ found, r.2.path ≠ path) : searched path found = refused := by
  induction found with
  | nil => rfl
  | cons x found ih =>
    obtain ⟨hne, h⟩ := List.forall_mem_cons.mp h
    rw [searched_cons, if_neg hne]
    exact ih h

/-- The payload of a node that stands there. -/
theorem fdtNodePayload_eq (hrange : fdt.InRange) {offset : ℕ} (a b : ℕ)
    (hstands : fdt.Stands (fdt.structBlock + offset) (FdtToken.beginNode name :: ts)) :
    fdt.fdtNodePayload ⟨offset, a, b⟩
      = ok (fdt.structBlock + offset + (FdtToken.beginNode name).bytes.length) := by
  have hlt := hstands.lt
  have hle := hstands.bytes_le
  rw [fdtNodePayload]
  dsimp only
  rw [require_of_pos (by omega), ok_bind, read_beginNode hstands, access_some, ok_bind,
    require_of_pos rfl, ok_bind, boundedStrlen_beginNode hrange hstands, ok_bind,
    align_beginNode hstands, require_of_pos (by omega), ok_bind]
  rfl

/-- **What is read back of a tree**, whose nodes begin at some offsets. -/
structure Decodes (fdt : Fdt) (T : DeviceTree) (offsets : List ℕ) : Prop where
  /-- Every node has its offset. -/
  length_eq : offsets.length = T.nodes.length
  /-- By its path a node is found, at its offset and with the cells of its parent. -/
  find : ∀ offset n, (offset, n) ∈ offsets.zip T.nodes →
    fdt.fdtFindNodeByPath n.path = ok ⟨offset, n.parentAddressCells, n.parentSizeCells⟩
  /-- By any other path no node is found. -/
  find_refused : ∀ path, (∀ n ∈ T.nodes, n.path ≠ path) → fdt.fdtFindNodeByPath path = refused
  /-- A node has its properties, with their bytes. -/
  property : ∀ offset n, (offset, n) ∈ offsets.zip T.nodes → ∀ p ∈ n.props, ∃ data,
    fdt.fdtGetProperty ⟨offset, n.parentAddressCells, n.parentSizeCells⟩ p.name
        = ok ⟨data, p.value.length⟩
      ∧ p.value <+: fdt.mem.drop data
  /-- It has no other properties. -/
  property_refused : ∀ offset n, (offset, n) ∈ offsets.zip T.nodes → ∀ name,
    (∀ p ∈ n.props, p.name ≠ name) →
      fdt.fdtGetProperty ⟨offset, n.parentAddressCells, n.parentSizeCells⟩ name = refused

/-- A property is found by its name, if no other has it. -/
theorem find?_name {props : List DtProp} (hnodup : (props.map DtProp.name).Nodup)
    (h : p ∈ props) : props.find? (fun q => q.name = p.name) = some p := by
  induction props with
  | nil => exact absurd h List.not_mem_nil
  | cons q props ih =>
    obtain ⟨hnot, hnodup⟩ := List.nodup_cons.mp hnodup
    rcases List.mem_cons.mp h with rfl | h
    · exact List.find?_cons_of_pos (by simp)
    · have hne : q.name ≠ p.name := fun hq => hnot (List.mem_map.mpr ⟨p, h, hq.symm⟩)
      rw [List.find?_cons_of_neg (by simpa using hne)]
      exact ih hnodup h

section Tree

variable {T : DeviceTree} (hT : T.Valid) (hrange : fdt.InRange)
  (hstands : fdt.Stands fdt.structBlock ts) (hevents : ts.filterMap FdtToken.event = T.events)

include hT hevents

theorem reports_of_events :
    reports [] (ts.filterMap FdtToken.event) = T.nodes.map DtNode.report := by
  rw [hevents, hT.reports_eq]

theorem length_starts_of_events : (starts 0 ts).length = T.nodes.length := by
  rw [length_starts 0 ts [], reports_of_events hT hevents, List.length_map]

/-- No two reports have one path. -/
theorem nodup_path_of_events :
    (((starts 0 ts).zip (T.nodes.map DtNode.report)).map (fun r => r.2.path)).Nodup := by
  have hpaths : ((starts 0 ts).zip (T.nodes.map DtNode.report)).map (fun r => r.2.path)
      = T.nodes.map DtNode.path := by
    rw [show (fun r : ℕ × Report => r.2.path) = Report.path ∘ Prod.snd from rfl, ← List.map_map,
      List.map_snd_zip (by rw [List.length_map, length_starts_of_events hT hevents]), List.map_map]
    rfl
  rw [hpaths]
  exact hT.nodup_path

include hstands

/-- A node of the tree begins at its offset, with its properties behind it. -/
theorem Stands.node {offset : ℕ} {n : DtNode} (h : (offset, n) ∈ (starts 0 ts).zip T.nodes) :
    (offset, n.report) ∈ (starts 0 ts).zip (T.nodes.map DtNode.report)
      ∧ ∃ name ts', fdt.Stands (fdt.structBlock + offset) (FdtToken.beginNode name :: ts')
        ∧ n.props = ownProps 0 (ts'.filterMap FdtToken.event) := by
  have hmem : (offset, n.report) ∈ (starts 0 ts).zip (T.nodes.map DtNode.report) := by
    rw [List.zip_map_right]
    exact List.mem_map.mpr ⟨(offset, n), h, rfl⟩
  refine ⟨hmem, ?_⟩
  rw [← reports_of_events hT hevents] at hmem
  exact exists_stands_of_mem hstands rfl hmem

include hrange

/-- **The search for a path** goes through the nodes of the tree. -/
theorem Stands.fdtFindNodeByPath_eq (path : CString) :
    fdt.fdtFindNodeByPath path
      = searched path ((starts 0 ts).zip (T.nodes.map DtNode.report)) := by
  have hread : Readable [] (ts.filterMap FdtToken.event) := by
    rw [hevents]
    exact hT.readable
  have hrun := nodeLoop_eq hrange path
    (show fdt.Stands fdt.fdtWalkInit.cursor ts from hstands) le_rfl (walkAt_fdtWalkInit fdt) hread
  rw [reports_of_events hT hevents] at hrun
  show (fdt.fdtNodeLoop (atPath path)).run fdt.fdtWalkInit = _
  rw [hrun]
  show searched path ((starts (fdt.structBlock - fdt.structBlock) ts).zip _) = _
  rw [Nat.sub_self]

/-- **The search for a property** goes through those of its node. -/
theorem Stands.finds {offset : ℕ} {n : DtNode} (h : (offset, n) ∈ (starts 0 ts).zip T.nodes)
    (key : CString) :
    fdt.Finds key n.props
      (fdt.fdtGetProperty ⟨offset, n.parentAddressCells, n.parentSizeCells⟩ key) := by
  obtain ⟨-, name, ts', hnode, hprops⟩ := hstands.node hT hevents h
  rw [fdtGetProperty, fdtNodePayload_eq hrange _ _ hnode, ok_bind, hprops]
  exact scan_eq hrange hnode.next

/-- **A tree that stands there is read back.** -/
theorem Stands.decodes_of_events : fdt.Decodes T (starts 0 ts) := by
  refine ⟨length_starts_of_events hT hevents, fun offset n h => ?_, fun path hpath => ?_,
    fun offset n h p hp => ?_, fun offset n h name hname => ?_⟩
  · obtain ⟨hmem, name, ts', hnode, -⟩ := hstands.node hT hevents h
    have hlt := hnode.lt
    have hend := hrange.end_le
    have hlength := hrange.length_lt
    have hfound := searched_of_mem (nodup_path_of_events hT hevents) hmem
    rw [Nat.mod_eq_of_lt (by omega)] at hfound
    exact (hstands.fdtFindNodeByPath_eq hT hrange hevents n.path).trans hfound
  · rw [hstands.fdtFindNodeByPath_eq hT hrange hevents]
    refine searched_of_notMem (fun r hr => ?_)
    obtain ⟨n, hn, hreport⟩ := List.mem_map.mp (List.of_mem_zip hr).2
    rw [← hreport]
    exact hpath n hn
  · have hnodup := (hT.nodes n (List.of_mem_zip h).2).props_nodup
    have hfound := hstands.finds hT hrange hevents h p.name
    rw [Finds, find?_name hnodup hp] at hfound
    exact hfound
  · have hfound := hstands.finds hT hrange hevents h name
    rw [Finds, List.find?_eq_none.mpr (fun p hp => by simpa using hname p hp)] at hfound
    exact hfound

end Tree

end Fdt

/-- **The structure block of a blob.** -/
theorem Flattens.stands {T : DeviceTree} {ts : List FdtToken} {header : FdtHeader}
    {mem : List UInt8} {base : ℕ} (h : Flattens T ts header mem base) :
    (header.fdt mem base).Stands header.offDtStruct ts where
  aligned := by
    have hbase := h.base_aligned
    have hstruct := h.struct_aligned
    show (base + header.offDtStruct) % 4 = 0
    omega
  text := h.struct_text
  ends := by
    show _ = header.offDtStruct + header.sizeDtStruct
    rw [h.struct_size]
  names := h.names

theorem Flattens.inRange {T : DeviceTree} {ts : List FdtToken} {header : FdtHeader}
    {mem : List UInt8} {base : ℕ} (h : Flattens T ts header mem base) :
    (header.fdt mem base).InRange :=
  ⟨Nat.le_add_right _ _, h.struct_le.trans h.total_le, h.strings_le.trans h.total_le, h.length_lt⟩

/-- **`fdt_init` accepts the blob.** -/
theorem Flattens.fdtInit_eq {T : DeviceTree} {ts : List FdtToken} {header : FdtHeader}
    {mem : List UInt8} {base : ℕ} (h : Flattens T ts header mem base) :
    fdtInit mem base = Outcome.ok (header.fdt mem base) := by
  have hstruct_le := h.struct_le
  have hstrings_le := h.strings_le
  have htotal := h.total_le
  have hlt := h.length_lt
  have h₀ : header.bytes <+: mem.drop 0 := h.header_stands
  have h₄ := prefix_drop_of_append h₀
  have h₈ := prefix_drop_of_append h₄
  have h₁₂ := prefix_drop_of_append h₈
  have h₁₆ := prefix_drop_of_append h₁₂
  have h₂₀ := prefix_drop_of_append h₁₆
  have h₂₄ := prefix_drop_of_append h₂₀
  have h₂₈ := prefix_drop_of_append h₂₄
  have h₃₂ := prefix_drop_of_append h₂₈
  have h₃₆ := prefix_drop_of_append h₃₂
  have hmagic : fdtReadBe32 mem 0 = some fdtMagic :=
    fdtReadBe32_be32 (by decide) (prefix_of_append h₀)
  have htotalsize : fdtReadBe32 mem 4 = some header.totalsize :=
    fdtReadBe32_be32 (by omega) (prefix_of_append h₄)
  have hstruct : fdtReadBe32 mem 8 = some header.offDtStruct :=
    fdtReadBe32_be32 (by omega) (prefix_of_append h₈)
  have hstring : fdtReadBe32 mem 12 = some header.offDtStrings :=
    fdtReadBe32_be32 (by omega) (prefix_of_append h₁₂)
  have hsizeStrings : fdtReadBe32 mem 32 = some header.sizeDtStrings :=
    fdtReadBe32_be32 (by omega) (prefix_of_append h₃₂)
  have hsizeStruct : fdtReadBe32 mem 36 = some header.sizeDtStruct :=
    fdtReadBe32_be32 (by omega) h₃₆
  have hvalid : ∀ offset size, offset + size ≤ header.totalsize →
      fdtRangeValid header.totalsize offset size = true := by
    intro offset size hle
    exact decide_eq_true ⟨by omega, by omega⟩
  rw [fdtInit, hmagic, Outcome.access_some, Outcome.ok_bind,
    Outcome.require_of_pos (not_not_intro rfl), Outcome.ok_bind, htotalsize, Outcome.access_some,
    Outcome.ok_bind, hstruct, Outcome.access_some, Outcome.ok_bind, hstring, Outcome.access_some,
    Outcome.ok_bind, hsizeStruct, Outcome.access_some, Outcome.ok_bind, hsizeStrings,
    Outcome.access_some, Outcome.ok_bind,
    Outcome.require_of_pos ⟨hvalid _ _ hstruct_le, hvalid _ _ hstrings_le⟩, Outcome.ok_bind]
  rfl

/-- **Decoding undoes encoding.** A flattened tree is accepted, and read back. -/
theorem Flattens.decodes {T : DeviceTree} {ts : List FdtToken} {header : FdtHeader}
    {mem : List UInt8} {base : ℕ} (hT : T.Valid) (h : Flattens T ts header mem base) :
    fdtInit mem base = Outcome.ok (header.fdt mem base)
      ∧ (header.fdt mem base).Decodes T (starts 0 ts) :=
  ⟨h.fdtInit_eq, Fdt.Stands.decodes_of_events hT h.inRange h.stands h.events⟩

/-! ## A blob -/

/-- A root with one subnode, whose property has a name that ends another. -/
def cpuTree : DeviceTree :=
  ⟨⟨[], nul_notMem_nil⟩, [⟨addressCells, [0, 0, 0, 1]⟩],
    Forest.cons ⟨asciiBytes "cpu", by decide⟩ [⟨⟨asciiBytes "cells", by decide⟩, [5]⟩]
      Forest.nil Forest.nil⟩

/-- Its tokens, with two `FDT_NOP`s. -/
def cpuTokens : List FdtToken :=
  [FdtToken.nop, FdtToken.beginNode ⟨[], nul_notMem_nil⟩,
    FdtToken.prop 0 ⟨addressCells, [0, 0, 0, 1]⟩, FdtToken.nop,
    FdtToken.beginNode ⟨asciiBytes "cpu", by decide⟩,
    FdtToken.prop 9 ⟨⟨asciiBytes "cells", by decide⟩, [5]⟩, FdtToken.endNode, FdtToken.endNode]

/-- The header. -/
def cpuHeader : FdtHeader := ⟨123, 40, 108, 40, 17, 16, 0, 15, 68⟩

/-- The blob: both names are in one string. -/
def cpuBlob : List UInt8 := cpuHeader.bytes ++ structText cpuTokens ++ addressCells.bytes

theorem valid_cpuTree : cpuTree.Valid where
  nodes := by
    refine List.forall_mem_cons.mpr ⟨⟨by decide, by decide, by decide, by decide, by decide⟩,
      List.forall_mem_cons.mpr ⟨⟨by decide, by decide, by decide, by decide, by decide⟩, ?_⟩⟩
    exact fun _ h => absurd h List.not_mem_nil
  siblings := ⟨List.not_mem_nil, trivial, trivial⟩

theorem flattens_cpuBlob : Flattens cpuTree cpuTokens cpuHeader cpuBlob 4096 where
  base_aligned := rfl
  struct_aligned := rfl
  header_stands := ⟨structText cpuTokens ++ addressCells.bytes, by rw [cpuBlob, List.append_assoc]⟩
  total_le := by decide +kernel
  length_lt := by decide +kernel
  struct_le := by decide
  struct_size := by decide +kernel
  struct_text := by decide +kernel
  events := rfl
  strings_le := by decide
  names nameoff p h := by
    simp only [cpuTokens, List.mem_cons, FdtToken.prop.injEq, List.not_mem_nil, reduceCtorEq,
      false_or, or_false] at h
    rcases h with ⟨rfl, rfl⟩ | ⟨rfl, rfl⟩
    · exact ⟨by decide, by decide +kernel⟩
    · exact ⟨by decide, by decide +kernel⟩

/-- The blob is accepted, and the tree read back. -/
theorem Flattens.decodes_cpuBlob :
    fdtInit cpuBlob 4096 = Outcome.ok (cpuHeader.fdt cpuBlob 4096)
      ∧ (cpuHeader.fdt cpuBlob 4096).Decodes cpuTree (starts 0 cpuTokens) :=
  Flattens.decodes valid_cpuTree flattens_cpuBlob
