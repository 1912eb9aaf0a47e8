import Risky.FdtRoundTrip
import Risky.FdtSafety

/-!
# The path of a walk

Whatever a blob holds, the nodes that are open at a point of the walk are those
whose `FDT_BEGIN_NODE` has been read and whose `FDT_END_NODE` has not, and
`fdt_walk_next_node` keeps the path of the innermost one in its buffer. `Fdt.WalkRun`
says which nodes are open, from the tokens alone; `Fdt.WalkNames` says what the state
holds for their names. Each token leads from one such state to the next, however
strange the names are: one may be empty, contain `'/'`, or belong to a second root.

A frame keeps only a length, so that closing a node must find the path of the node
around it still in the buffer. It does, because the path of a node continues that of
the node around it (`Fdt.prefix_openPath_concat`).
-/

/-- **A node that has begun**: its name, and the state of the walk before its token. -/
structure BegunNode where
  name : CString
  before : FdtWalkState

namespace Fdt

open Outcome

variable {fdt : Fdt} {st st' : FdtWalkState} {names : List CString} {name path : CString}
  {nodes : List BegunNode} {tokens ptr i : ℕ} {b : BegunNode}

/-! ## The path of open nodes -/

/-- **The path of the innermost open node**, from the names of the open nodes: the
root adds `'/'`, and each node below it its name behind a `'/'`. -/
def openPath : List CString → CString
  | [] => ⟨[], nul_notMem_nil⟩
  | _ :: names => names.foldl childPath (fullPath [])

theorem openPath_concat (h : names ≠ []) (name : CString) :
    openPath (names ++ [name]) = childPath (openPath names) name := by
  cases names with
  | nil => exact absurd rfl h
  | cons root names => exact List.foldl_concat childPath (fullPath []) name names

/-- The path of a node continues that of the node around it. -/
theorem prefix_openPath_concat (names : List CString) (name : CString) :
    (openPath names).chars <+: (openPath (names ++ [name])).chars := by
  by_cases h : names = []
  · subst h
    exact List.nil_prefix
  · rw [openPath_concat h]
    exact (prefix_slashed _).trans (List.prefix_append _ name.chars)

/-- **The walk is where nodes of these names are open.** -/
structure WalkNames (st : FdtWalkState) (names : List CString) : Prop where
  path_length : st.path.length = fdtMaxPath
  frames_length : st.frames.length = fdtMaxDepth
  depth_eq : st.depth = names.length
  pathLen_eq : st.pathLen = (openPath names).length
  /-- The buffer holds the path of the innermost one. -/
  path : (openPath names).bytes <+: st.path
  /-- Its frame has the length of the path around it. -/
  frame : ∀ i < names.length, ∃ frame, st.frames[i]? = some frame
    ∧ frame.pathLen = (openPath (names.take i)).length

theorem walkNames_fdtWalkInit (fdt : Fdt) : WalkNames fdt.fdtWalkInit [] where
  path_length := List.length_replicate
  frames_length := List.length_replicate
  depth_eq := rfl
  pathLen_eq := rfl
  path := ⟨List.replicate 255 0, rfl⟩
  frame i hi := absurd hi (Nat.not_lt_zero i)

/-- Only the cursor moves. -/
theorem WalkNames.setCursor (h : WalkNames st names) (cursor : ℕ) :
    WalkNames { st with cursor := cursor } names :=
  ⟨h.path_length, h.frames_length, h.depth_eq, h.pathLen_eq, h.path, h.frame⟩

theorem WalkNames.pathLen_lt (h : WalkNames st names) : st.pathLen < fdtMaxPath := by
  have hle := h.path.length_le
  rw [CString.length_bytes, ← h.pathLen_eq, h.path_length] at hle
  exact hle

theorem WalkNames.length_le (h : WalkNames st names) : names.length ≤ fdtMaxDepth := by
  by_contra hlt
  obtain ⟨frame, hframe, -⟩ := h.frame fdtMaxDepth (not_le.mp hlt)
  rw [List.getElem?_eq_none h.frames_length.le] at hframe
  exact absurd hframe (by simp)

/-! ## A node begins -/

/-- The slash does not fit. -/
theorem fdtWalkSlash_eq_refused {chars buffer : List UInt8} (h : chars <+: buffer)
    (hlt : chars.length < fdtMaxPath) (hfull : fdtMaxPath ≤ (slashed chars).length) :
    fdtWalkSlash buffer chars.length = refused := by
  unfold fdtWalkSlash
  rw [fdtWalkLast_eq h, ok_bind]
  unfold slashed at hfull
  by_cases hlast : chars.getLast? = some slash
  · rw [if_pos hlast] at hfull
    omega
  · rw [if_neg hlast, List.length_append, List.length_singleton] at hfull
    rw [if_pos hlast, require_of_neg (by omega)]
    rfl

/-- **A path that does not fit is refused**, whether it is the slash or the name
that is too much. -/
theorem fdtWalkPath_child_eq_refused (hpath : st.path.length = fdtMaxPath)
    (hdepth : ¬ st.depth = 0) (hpathLen : st.pathLen = path.length)
    (hlt : path.length < fdtMaxPath) (hstands : path.chars <+: st.path)
    (hfull : 255 < (childPath path name).length) :
    fdt.fdtWalkPath st name.length = refused := by
  have hmax : fdtMaxPath = 256 := rfl
  have hlength : (childPath path name).length = (slashed path.chars).length + name.length :=
    List.length_append
  unfold fdtWalkPath
  rw [if_neg hdepth, hpathLen]
  by_cases hroom : (slashed path.chars).length < fdtMaxPath
  · obtain ⟨path₁, hslash, -, -⟩ := fdtWalkSlash_eq hpath hstands hroom
    show (fdtWalkSlash st.path path.chars.length >>= _) = _
    rw [hslash, ok_bind]
    dsimp only
    rw [require_of_neg (by omega)]
    rfl
  · show (fdtWalkSlash st.path path.chars.length >>= _) = _
    rw [fdtWalkSlash_eq_refused hstands hlt (not_lt.mp hroom)]
    rfl

/-- The path of the node that begins. -/
theorem WalkNames.of_fdtWalkPath (h : WalkNames st names)
    (hname : name.bytes <+: fdt.mem.drop st.cursor) {written : List UInt8 × ℕ}
    (hrun : fdt.fdtWalkPath st name.length = ok written) :
    written.1.length = fdtMaxPath ∧ written.2 = (openPath (names ++ [name])).length
      ∧ (openPath (names ++ [name])).bytes <+: written.1 := by
  by_cases hroot : names = []
  · subst hroot
    obtain ⟨buffer, hbuffer, hlen, hstands⟩ :
        ∃ buffer, fdt.fdtWalkPath st name.length = ok (buffer, (fullPath []).length)
          ∧ buffer.length = fdtMaxPath ∧ (fullPath []).bytes <+: buffer :=
      fdtWalkPath_root h.path_length h.depth_eq name.length
    rw [hrun] at hbuffer
    cases hbuffer
    exact ⟨hlen, rfl, hstands⟩
  have hdepth : ¬ st.depth = 0 := by
    rw [h.depth_eq, List.length_eq_zero_iff]
    exact hroot
  have hstands : (openPath names).chars <+: st.path := (List.prefix_append _ _).trans h.path
  rw [openPath_concat hroot]
  by_cases hlen : (childPath (openPath names) name).length ≤ 255
  · obtain ⟨buffer, hbuffer, hlen, hchild⟩ :=
      fdtWalkPath_child h.path_length hdepth h.pathLen_eq hstands hname hlen
    rw [hrun] at hbuffer
    cases hbuffer
    exact ⟨hlen, rfl, hchild⟩
  · rw [fdtWalkPath_child_eq_refused h.path_length hdepth h.pathLen_eq
      (h.pathLen_eq ▸ h.pathLen_lt) hstands (not_le.mp hlen)] at hrun
    exact absurd hrun (by simp)

/-- **The walk opens a node**, whose name is in the blob behind the token. -/
theorem WalkNames.beginNode (hrange : fdt.InRange) (h : WalkNames st names)
    (hcursor : st.cursor ≤ fdt.structBlockEnd) {found : FdtNode × FdtWalkState}
    (hrun : fdt.fdtWalkBeginNode ptr st = ok found) :
    ∃ name : CString, name.bytes <+: fdt.mem.drop st.cursor
      ∧ WalkNames found.2 (names ++ [name]) := by
  unfold fdtWalkBeginNode at hrun
  obtain ⟨_, hdepth, hrun⟩ := bind_eq_ok.mp hrun
  obtain ⟨nameLen, hlen, hrun⟩ := bind_eq_ok.mp hrun
  obtain ⟨parent, -, hrun⟩ := bind_eq_ok.mp hrun
  obtain ⟨frames, hframes, hrun⟩ := bind_eq_ok.mp hrun
  obtain ⟨written, hwritten, hrun⟩ := bind_eq_ok.mp hrun
  obtain ⟨_, -, hrun⟩ := bind_eq_ok.mp hrun
  cases hrun
  rw [require_eq_ok, h.depth_eq] at hdepth
  rcases fdtBoundedStrlen_cases hrange hcursor with ⟨name, hname, -, hname_len⟩ | hrefused
  swap
  · rw [hrefused] at hlen
    exact absurd hlen (by simp)
  rw [hname_len] at hlen
  cases hlen
  obtain ⟨hpath, hpathLen, hstands⟩ := h.of_fdtWalkPath hname hwritten
  have hroom : names.length < st.frames.length := by
    rw [h.frames_length]
    exact not_le.mp hdepth
  rw [h.depth_eq, store, if_pos hroom] at hframes
  cases hframes
  have hlength : (names ++ [name]).length = names.length + 1 := by
    rw [List.length_append, List.length_singleton]
  refine ⟨name, hname, hpath, by rw [List.length_set, h.frames_length], ?_, hpathLen, hstands, ?_⟩
  · show st.depth + 1 = _
    rw [h.depth_eq, hlength]
  intro i hi
  rw [hlength] at hi
  by_cases hnew : i = names.length
  · -- the new frame keeps the length of the path so far
    subst hnew
    refine ⟨_, List.getElem?_set_self hroom, ?_⟩
    rw [List.take_left]
    exact h.pathLen_eq
  · obtain ⟨frame, hframe, hframe_len⟩ := h.frame i (by omega)
    refine ⟨frame, ?_, ?_⟩
    · show (st.frames.set names.length _)[i]? = _
      rw [List.getElem?_set_ne (Ne.symm hnew), hframe]
    · rw [List.take_append_of_le_length (by omega), hframe_len]

/-! ## A node ends -/

/-- A token that ends a node is refused where none is open. -/
theorem WalkNames.exists_concat (h : WalkNames st names) (hrun : fdtWalkEndNode st = ok st') :
    ∃ outer name, names = outer ++ [name] := by
  unfold fdtWalkEndNode at hrun
  obtain ⟨_, hdepth, -⟩ := bind_eq_ok.mp hrun
  rw [require_eq_ok, h.depth_eq, List.length_eq_zero_iff] at hdepth
  exact (List.eq_nil_or_concat' names).resolve_left hdepth

/-- **The walk closes a node**: the path around it comes back. -/
theorem WalkNames.endNode (h : WalkNames st (names ++ [name]))
    (hrun : fdtWalkEndNode st = ok st') : WalkNames st' names := by
  have hdepth : st.depth - 1 = names.length := by
    rw [h.depth_eq, List.length_append, List.length_singleton, Nat.add_sub_cancel]
  have hlength : (names ++ [name]).length = names.length + 1 := by
    rw [List.length_append, List.length_singleton]
  obtain ⟨frame, hframe, hpathLen⟩ := h.frame names.length (by omega)
  rw [List.take_left] at hpathLen
  -- the path around the node is still in the buffer
  have hstands : (openPath names).chars <+: st.path :=
    (prefix_openPath_concat names name).trans ((List.prefix_append _ _).trans h.path)
  have hlt : (openPath names).length < st.path.length := by
    have hle := (prefix_openPath_concat names name).length_le
    have hlt := h.pathLen_lt
    rw [h.pathLen_eq] at hlt
    rw [h.path_length]
    exact lt_of_le_of_lt hle hlt
  unfold fdtWalkEndNode at hrun
  obtain ⟨_, -, hrun⟩ := bind_eq_ok.mp hrun
  obtain ⟨frame', hframe', hrun⟩ := bind_eq_ok.mp hrun
  obtain ⟨buffer, hbuffer, hrun⟩ := bind_eq_ok.mp hrun
  cases hrun
  rw [access_eq_ok, hdepth, hframe, Option.some.injEq] at hframe'
  subst hframe'
  rw [hpathLen, store, if_pos hlt] at hbuffer
  cases hbuffer
  refine ⟨by rw [List.length_set, h.path_length], h.frames_length, hdepth, hpathLen,
    prefix_set hstands hlt 0, ?_⟩
  intro i hi
  obtain ⟨frame, hframe, hframe_len⟩ := h.frame i (by omega)
  rw [List.take_append_of_le_length (by omega)] at hframe_len
  exact ⟨frame, hframe, hframe_len⟩

/-! ## A property -/

/-- Cells do not change the length that a frame keeps. -/
theorem pathLen_of_fdtWalkCells {propName : List UInt8} {prop : FdtProp}
    {frame frame' : FdtWalkFrame} (hrun : fdt.fdtWalkCells propName prop frame = ok frame') :
    frame'.pathLen = frame.pathLen := by
  unfold fdtWalkCells at hrun
  obtain ⟨cmp, -, hrun⟩ := bind_eq_ok.mp hrun
  split at hrun
  · obtain ⟨value, -, hrun⟩ := bind_eq_ok.mp hrun
    cases hrun
    rfl
  obtain ⟨cmp', -, hrun⟩ := bind_eq_ok.mp hrun
  split at hrun
  · obtain ⟨value, -, hrun⟩ := bind_eq_ok.mp hrun
    cases hrun
    rfl
  · cases hrun
    rfl

/-- **The walk passes a property**: no path changes. -/
theorem WalkNames.prop (h : WalkNames st names) (hrun : fdt.fdtWalkProp st = ok st') :
    WalkNames st' names := by
  unfold fdtWalkProp at hrun
  obtain ⟨_, -, hrun⟩ := bind_eq_ok.mp hrun
  obtain ⟨len, -, hrun⟩ := bind_eq_ok.mp hrun
  obtain ⟨nameoff, -, hrun⟩ := bind_eq_ok.mp hrun
  obtain ⟨_, -, hrun⟩ := bind_eq_ok.mp hrun
  obtain ⟨valid, -, hrun⟩ := bind_eq_ok.mp hrun
  obtain ⟨_, -, hrun⟩ := bind_eq_ok.mp hrun
  obtain ⟨_, -, hrun⟩ := bind_eq_ok.mp hrun
  obtain ⟨frame, hframe, hrun⟩ := bind_eq_ok.mp hrun
  obtain ⟨frame', hcells, hrun⟩ := bind_eq_ok.mp hrun
  obtain ⟨frames, hframes, hrun⟩ := bind_eq_ok.mp hrun
  cases hrun
  rw [access_eq_ok] at hframe
  obtain ⟨hlt, -⟩ := List.getElem?_eq_some_iff.mp hframe
  rw [store, if_pos hlt] at hframes
  cases hframes
  refine ⟨h.path_length, by rw [List.length_set, h.frames_length], h.depth_eq, h.pathLen_eq, h.path,
    ?_⟩
  intro i hi
  obtain ⟨old, hold, hlen⟩ := h.frame i hi
  by_cases hinner : st.depth - 1 = i
  · subst hinner
    rw [hframe, Option.some.injEq] at hold
    subst hold
    refine ⟨frame', List.getElem?_set_self hlt, ?_⟩
    rw [pathLen_of_fdtWalkCells hcells, hlen]
  · refine ⟨old, ?_, hlen⟩
    show (st.frames.set (st.depth - 1) frame')[i]? = _
    rw [List.getElem?_set_ne hinner, hold]

/-! ## A token -/

/-- There is room for the token that a turn reads. -/
theorem cursor_add_le (hrange : fdt.InRange) (hmore : st.cursor < fdt.structBlockEnd)
    {next : FdtWalkState ⊕ FdtNode × FdtWalkState} (hturn : fdt.fdtWalkTurn st = ok next) :
    st.cursor + 4 ≤ fdt.structBlockEnd := by
  have hroom := (fdtWalkTurn_cases hturn).1
  have hend := hrange.end_le
  have hlt := hrange.length_lt
  rw [sizeDiff_of_le hmore.le (by omega)] at hroom
  omega

/-- **What a turn does to the open nodes**, by the token that it reads. -/
theorem WalkNames.turn (hrange : fdt.InRange) (h : WalkNames st names)
    (hmore : st.cursor < fdt.structBlockEnd) {next : FdtWalkState ⊕ FdtNode × FdtWalkState}
    (hturn : fdt.fdtWalkTurn st = ok next) :
    (fdtReadBe32 fdt.mem st.cursor = some fdtBeginNode
        ∧ ∃ (name : CString) (found : FdtNode × FdtWalkState),
          name.bytes <+: fdt.mem.drop (st.cursor + 4) ∧ Sum.inr found = next
            ∧ WalkNames found.2 (names ++ [name]))
      ∨ (fdtReadBe32 fdt.mem st.cursor = some fdtEndNode
        ∧ ∃ (outer : List CString) (name : CString) (st' : FdtWalkState),
          names = outer ++ [name] ∧ Sum.inl st' = next ∧ WalkNames st' outer)
      ∨ ∃ kind, fdtReadBe32 fdt.mem st.cursor = some kind ∧ (kind = fdtPropToken ∨ kind = fdtNop)
        ∧ ∃ st', Sum.inl st' = next ∧ WalkNames st' names := by
  have hcursor := cursor_add_le hrange hmore hturn
  have hmoved := h.setCursor (st.cursor + 4)
  rcases (fdtWalkTurn_cases hturn).2 with ⟨htoken, found, hbegin, hnext⟩
    | ⟨htoken, st', hend, hnext⟩ | ⟨htoken, st', hprop, hnext⟩ | ⟨htoken, hnext⟩
  · obtain ⟨name, hname, hnames⟩ := hmoved.beginNode hrange hcursor hbegin
    exact Or.inl ⟨htoken, name, found, hname, hnext, hnames⟩
  · obtain ⟨outer, name, rfl⟩ := hmoved.exists_concat hend
    exact Or.inr (Or.inl ⟨htoken, outer, name, st', rfl, hnext, hmoved.endNode hend⟩)
  · exact Or.inr (Or.inr ⟨_, htoken, Or.inl rfl, st', hnext, hmoved.prop hprop⟩)
  · exact Or.inr (Or.inr ⟨_, htoken, Or.inr rfl, _, hnext, hmoved⟩)

/-! ## The walk over the tokens -/

/-- **The walk has read so many tokens**, and these nodes are open: a node is from
its `FDT_BEGIN_NODE`, behind which its name stands, to the `FDT_END_NODE` that belongs
to it. -/
inductive WalkRun (fdt : Fdt) : FdtWalkState → ℕ → List BegunNode → Prop where
  | init : fdt.WalkRun fdt.fdtWalkInit 0 []
  | beginNode {st st' : FdtWalkState} {tokens : ℕ} {nodes : List BegunNode} {name : CString}
      {node : FdtNode} (run : fdt.WalkRun st tokens nodes)
      (more : st.cursor < fdt.structBlockEnd)
      (token : fdtReadBe32 fdt.mem st.cursor = some fdtBeginNode)
      (stands : name.bytes <+: fdt.mem.drop (st.cursor + 4))
      (turn : fdt.fdtWalkTurn st = ok (Sum.inr (node, st'))) :
      fdt.WalkRun st' (tokens + 1) (nodes ++ [⟨name, st⟩])
  | endNode {st st' : FdtWalkState} {tokens : ℕ} {nodes : List BegunNode} {b : BegunNode}
      (run : fdt.WalkRun st tokens (nodes ++ [b]))
      (more : st.cursor < fdt.structBlockEnd)
      (token : fdtReadBe32 fdt.mem st.cursor = some fdtEndNode)
      (turn : fdt.fdtWalkTurn st = ok (Sum.inl st')) :
      fdt.WalkRun st' (tokens + 1) nodes
  | skip {st st' : FdtWalkState} {tokens kind : ℕ} {nodes : List BegunNode}
      (run : fdt.WalkRun st tokens nodes)
      (more : st.cursor < fdt.structBlockEnd)
      (token : fdtReadBe32 fdt.mem st.cursor = some kind)
      (payload : kind = fdtPropToken ∨ kind = fdtNop)
      (turn : fdt.fdtWalkTurn st = ok (Sum.inl st')) :
      fdt.WalkRun st' (tokens + 1) nodes

/-- **The state mirrors the nodes that are open.** -/
theorem WalkRun.walkNames (hrange : fdt.InRange) (h : fdt.WalkRun st tokens nodes) :
    WalkNames st (nodes.map BegunNode.name) := by
  induction h with
  | init => exact walkNames_fdtWalkInit fdt
  | beginNode _ more _ stands turn ih =>
    rcases ih.turn hrange more turn with ⟨-, name', found, hname', hnext, hnames⟩
      | ⟨-, _, _, _, -, hnext, -⟩ | ⟨_, -, -, _, hnext, -⟩
    · cases hnext
      rw [List.map_append, CString.eq_of_prefix stands hname']
      exact hnames
    · cases hnext
    · cases hnext
  | endNode _ more token turn ih =>
    rcases ih.turn hrange more turn with ⟨-, _, _, -, hnext, -⟩
      | ⟨-, outer, name', st₁, houter, hnext, hnames⟩ | ⟨kind, hkind, hpayload, -⟩
    · cases hnext
    · cases hnext
      rw [List.map_append] at houter
      rwa [(List.append_inj' houter rfl).1]
    · rw [token, Option.some.injEq] at hkind
      rw [← hkind] at hpayload
      exact absurd hpayload (by decide)
  | skip _ more token payload turn ih =>
    rcases ih.turn hrange more turn with ⟨-, _, _, -, hnext, -⟩ | ⟨hend, -⟩
      | ⟨_, -, -, st₁, hnext, hnames⟩
    · cases hnext
    · rw [token, Option.some.injEq] at hend
      rw [hend] at payload
      exact absurd payload (by decide)
    · cases hnext
      exact hnames

/-- **Four bytes for each token**, at least. -/
theorem WalkRun.cursor_le (h : fdt.WalkRun st tokens nodes) :
    fdt.structBlock + 4 * tokens ≤ st.cursor := by
  induction h with
  | init => exact le_rfl
  | beginNode _ _ _ _ turn ih =>
    have hle := cursor_le_of_fdtWalkTurn turn
    dsimp only [Sum.elim_inr] at hle
    omega
  | endNode _ _ _ turn ih | skip _ _ _ _ turn ih =>
    have hle := cursor_le_of_fdtWalkTurn turn
    dsimp only [Sum.elim_inl, id] at hle
    omega

/-- **The walk was where a node begins**, with the nodes around it open. -/
theorem WalkRun.before (h : fdt.WalkRun st tokens nodes) (hi : nodes[i]? = some b) :
    ∃ m, fdt.WalkRun b.before m (nodes.take i) := by
  induction h with
  | init => exact absurd hi (by simp)
  | @beginNode st st' tokens nodes name node run more token stands turn ih =>
    have hle : i ≤ nodes.length := by
      have hlt := (List.getElem?_eq_some_iff.mp hi).1
      rw [List.length_append, List.length_singleton] at hlt
      omega
    rw [List.take_append_of_le_length hle]
    rcases hle.eq_or_lt with rfl | hlt
    · -- the node that has just begun
      rw [List.getElem?_concat_length, Option.some.injEq] at hi
      subst hi
      rw [List.take_length]
      exact ⟨tokens, run⟩
    · rw [List.getElem?_append_left hlt] at hi
      exact ih hi
  | @endNode st st' tokens nodes b' run more token turn ih =>
    have hlt := (List.getElem?_eq_some_iff.mp hi).1
    have hrun := ih (by rw [List.getElem?_append_left hlt, hi])
    rwa [List.take_append_of_le_length hlt.le] at hrun
  | skip _ _ _ _ _ ih => exact ih hi

/-- A turn that goes on reads one more token. -/
theorem WalkRun.next (hrange : fdt.InRange) (h : fdt.WalkRun st tokens nodes)
    (hmore : st.cursor < fdt.structBlockEnd) (hturn : fdt.fdtWalkTurn st = ok (Sum.inl st')) :
    ∃ nodes', fdt.WalkRun st' (tokens + 1) nodes' := by
  rcases (h.walkNames hrange).turn hrange hmore hturn with ⟨-, _, _, -, hnext, -⟩
    | ⟨htoken, outer, name, _, houter, -⟩ | ⟨kind, htoken, hpayload, -⟩
  · cases hnext
  · -- the node that ends is the last of those that are open
    obtain ⟨nodes', b, rfl⟩ : ∃ nodes' b, nodes = nodes' ++ [b] := by
      refine (List.eq_nil_or_concat' nodes).resolve_left (fun hnil => ?_)
      rw [hnil] at houter
      exact absurd houter (by simp)
    exact ⟨nodes', h.endNode hmore htoken hturn⟩
  · exact ⟨nodes, h.skip hmore htoken hpayload hturn⟩

/-- A turn that reports a node opens it. -/
theorem WalkRun.found (hrange : fdt.InRange) (h : fdt.WalkRun st tokens nodes)
    (hmore : st.cursor < fdt.structBlockEnd) {node : FdtNode}
    (hturn : fdt.fdtWalkTurn st = ok (Sum.inr (node, st'))) :
    ∃ name, fdt.WalkRun st' (tokens + 1) (nodes ++ [⟨name, st⟩]) := by
  rcases (h.walkNames hrange).turn hrange hmore hturn with ⟨htoken, name, _, hname, -, -⟩
    | ⟨-, _, _, _, -, hnext, -⟩ | ⟨_, -, -, _, hnext, -⟩
  · exact ⟨name, h.beginNode hmore htoken hname hturn⟩
  · cases hnext
  · cases hnext

/-- **A call that succeeds** reads tokens up to the one of the node that it
reports. -/
theorem WalkRun.call (hrange : fdt.InRange) (h : fdt.WalkRun st tokens nodes) {node : FdtNode}
    (hcall : fdt.fdtWalkNextNode st = ok (node, st')) :
    ∃ tokens' nodes' b, fdt.WalkRun st' tokens' (nodes' ++ [b]) := by
  obtain ⟨last, hturns, hmore, hturn⟩ := Loop.run_eq_ok_iff.mp hcall
  have hlast : ∃ tokens' nodes', fdt.WalkRun last tokens' nodes' := by
    clear hmore hturn
    induction hturns with
    | refl => exact ⟨tokens, nodes, h⟩
    | tail _ hnext ih =>
      obtain ⟨tokens', nodes', hrun⟩ := ih
      exact ⟨tokens' + 1, hrun.next hrange (of_decide_eq_true hnext.1) hnext.2⟩
  obtain ⟨tokens', nodes', hrun⟩ := hlast
  obtain ⟨name, hfound⟩ := hrun.found hrange (of_decide_eq_true hmore) hturn
  exact ⟨tokens' + 1, nodes', ⟨name, last⟩, hfound⟩

theorem Walks.exists_walkRun (hrange : fdt.InRange) (h : fdt.Walks st) :
    ∃ tokens nodes, fdt.WalkRun st tokens nodes := by
  induction h with
  | refl => exact ⟨0, [], WalkRun.init⟩
  | tail _ hnext ih =>
    obtain ⟨node, hcall⟩ := hnext
    obtain ⟨tokens, nodes, hrun⟩ := ih
    obtain ⟨tokens', nodes', b, hrun'⟩ := hrun.call hrange hcall
    exact ⟨tokens', nodes' ++ [b], hrun'⟩

/-! ## What holds between two calls -/

/-- The characters of the path, without and with the NUL behind them. -/
theorem WalkNames.take_pathLen (h : WalkNames st names) :
    st.path.take st.pathLen = (openPath names).chars
      ∧ st.path.take (st.pathLen + 1) = (openPath names).bytes := by
  have hchars : (openPath names).chars <+: st.path := (List.prefix_append _ _).trans h.path
  have hlen : (openPath names).bytes.length = st.pathLen + 1 := by
    rw [CString.length_bytes, h.pathLen_eq]
  refine ⟨?_, ?_⟩
  · rw [h.pathLen_eq]
    exact (List.prefix_iff_eq_take.mp hchars).symm
  · rw [← hlen]
    exact (List.prefix_iff_eq_take.mp h.path).symm

theorem WalkNames.nul (h : WalkNames st names) : st.path[st.pathLen]? = some 0 := by
  obtain ⟨rest, hrest⟩ := h.path
  rw [← hrest, h.pathLen_eq, CString.bytes, List.append_assoc, CString.length,
    List.getElem?_append_right le_rfl, Nat.sub_self]
  rfl

/-- **What the state of a walk keeps** when these nodes are open after so many
tokens. -/
structure WalkKeeps (fdt : Fdt) (st : FdtWalkState) (tokens : ℕ) (nodes : List BegunNode) :
    Prop where
  /-- The arrays are `path[256]` and `frames[32]`. -/
  arrays : st.path.length = 256 ∧ st.frames.length = 32
  depth : 1 ≤ st.depth ∧ st.depth ≤ 32
  depth_eq : st.depth = nodes.length
  pathLen_lt : st.pathLen < 256
  /-- The first NUL is at `path_len`. -/
  nul : st.path[st.pathLen]? = some 0 ∧ 0 ∉ st.path.take st.pathLen
  /-- The path is that of the innermost open node. -/
  path : st.path.take st.pathLen = (openPath (nodes.map BegunNode.name)).chars
  /-- A frame keeps the length of the path from before its node. -/
  frame : ∀ (i : ℕ) (b : BegunNode), nodes[i]? = some b →
    ∃ frame : FdtWalkFrame, st.frames[i]? = some frame ∧ frame.pathLen = b.before.pathLen
  /-- Wherever the walk has closed a node, the path from before it is back. -/
  restored : ∀ (i : ℕ) (b : BegunNode) (later : FdtWalkState) (m : ℕ), nodes[i]? = some b →
    fdt.WalkRun later m (nodes.take i) → later.pathLen = b.before.pathLen
      ∧ later.path.take (later.pathLen + 1) = b.before.path.take (b.before.pathLen + 1)
  /-- Each token has moved the cursor by four bytes, at least. -/
  cursor : fdt.structBlock + 4 * tokens ≤ st.cursor

/-- Two states with the same open nodes have the same path. -/
theorem WalkNames.path_eq (h : WalkNames st names) (h' : WalkNames st' names) :
    st.pathLen = st'.pathLen
      ∧ st.path.take (st.pathLen + 1) = st'.path.take (st'.pathLen + 1) :=
  ⟨h.pathLen_eq.trans h'.pathLen_eq.symm, h.take_pathLen.2.trans h'.take_pathLen.2.symm⟩

/-- **Where a node is open, all of this is kept.** -/
theorem WalkRun.keeps (hrange : fdt.InRange) (h : fdt.WalkRun st tokens nodes)
    (hdepth : st.depth ≠ 0) : fdt.WalkKeeps st tokens nodes := by
  have hnames := h.walkNames hrange
  have hlength : (nodes.map BegunNode.name).length = nodes.length := List.length_map _
  -- a node was begun where the nodes around it were open
  have hbefore : ∀ {i b}, nodes[i]? = some b →
      WalkNames b.before ((nodes.map BegunNode.name).take i) := by
    intro i b hi
    obtain ⟨m, hrun⟩ := h.before hi
    have hnames' := hrun.walkNames hrange
    rwa [List.map_take] at hnames'
  constructor
  · exact ⟨hnames.path_length, hnames.frames_length⟩
  · refine ⟨Nat.pos_of_ne_zero hdepth, ?_⟩
    rw [hnames.depth_eq]
    exact hnames.length_le
  · rw [hnames.depth_eq, hlength]
  · exact hnames.pathLen_lt
  · refine ⟨hnames.nul, ?_⟩
    rw [hnames.take_pathLen.1]
    exact (openPath _).nul_notMem
  · exact hnames.take_pathLen.1
  · intro i b hi
    have hlt := (List.getElem?_eq_some_iff.mp hi).1
    obtain ⟨frame, hframe, hlen⟩ := hnames.frame i (by rwa [hlength])
    exact ⟨frame, hframe, hlen.trans (hbefore hi).pathLen_eq.symm⟩
  · intro i b later m hi hrun
    have hlater := hrun.walkNames hrange
    rw [List.map_take] at hlater
    exact hlater.path_eq (hbefore hi)
  · exact h.cursor_le

/-- **The state of a walk over any blob that `fdt_init` accepts**: no call accesses
anything out of bounds, and after a call that succeeds everything is kept. -/
theorem walkKeeps_of_fdtWalkNextNode {mem : List UInt8} {base totalSize : ℕ}
    (h : fdtInit mem base = ok fdt) (htotal : fdtReadBe32 mem 4 = some totalSize)
    (hle : totalSize ≤ mem.length) (hst : (fdt.clip totalSize).Walks st) :
    (fdt.clip totalSize).fdtWalkNextNode st ≠ fault
      ∧ ∀ node st', (fdt.clip totalSize).fdtWalkNextNode st = ok (node, st') →
        (∃ tokens nodes, (fdt.clip totalSize).WalkRun st' tokens nodes)
          ∧ ∀ tokens nodes, (fdt.clip totalSize).WalkRun st' tokens nodes →
            (fdt.clip totalSize).WalkKeeps st' tokens nodes := by
  have hrange := inRange_clip h htotal hle
  refine ⟨(fdtWalkNextNode_ensures hrange (hst.walkSafe hrange)).ne_fault, ?_⟩
  intro node st' hcall
  obtain ⟨tokens, nodes, hrun⟩ := hst.exists_walkRun hrange
  obtain ⟨tokens', nodes', b, hrun'⟩ := hrun.call hrange hcall
  have hdepth : st'.depth ≠ 0 := by
    rw [(hrun'.walkNames hrange).depth_eq, List.map_append, List.length_append]
    exact Nat.succ_ne_zero _
  exact ⟨⟨tokens', nodes' ++ [b], hrun'⟩, fun m bs hbs => hbs.keeps hrange hdepth⟩

/-- A blob with a node `a/` in a first root, and a node `b` in a second one that does
not end. -/
def rootsBlob : List UInt8 :=
  [0xd0, 0x0d, 0xfe, 0xed, 0, 0, 0, 80, 0, 0, 0, 40, 0, 0, 0, 80, 0, 0, 0, 40,
    0, 0, 0, 17, 0, 0, 0, 16, 0, 0, 0, 0, 0, 0, 0, 0, 0, 0, 0, 40,
    0, 0, 0, 1, 0, 0, 0, 0, 0, 0, 0, 1, 0x61, 0x2f, 0, 0, 0, 0, 0, 2, 0, 0, 0, 2,
    0, 0, 0, 1, 0, 0, 0, 0, 0, 0, 0, 1, 0x62, 0, 0, 0]

/-- What `fdt_init` makes of it. -/
def rootsFdt : Fdt := ⟨rootsBlob, 4096, 40, 80, 80, 0⟩

/-- For the node `b` of this blob, too. -/
theorem walkKeeps_rootsBlob :
    ∃ st node st', (rootsFdt.clip 80).Walks st
      ∧ (rootsFdt.clip 80).fdtWalkNextNode st = ok (node, st')
      ∧ ∃ tokens nodes, (rootsFdt.clip 80).WalkRun st' tokens nodes
        ∧ (rootsFdt.clip 80).WalkKeeps st' tokens nodes := by
  have hfind : (rootsFdt.clip 80).fdtFindNodeByPath ⟨[slash, 0x62], by decide⟩ = ok ⟨32, 2, 1⟩ := by
    decide +kernel
  obtain ⟨st, st', hst, hcall⟩ := walked_of_run hfind
  have hkeeps := (walkKeeps_of_fdtWalkNextNode (show fdtInit rootsBlob 4096 = ok rootsFdt from rfl)
    rfl le_rfl hst).2 _ _ hcall
  obtain ⟨⟨tokens, nodes, hrun⟩, hall⟩ := hkeeps
  exact ⟨st, _, st', hst, hcall, tokens, nodes, hrun, hall tokens nodes hrun⟩

end Fdt
