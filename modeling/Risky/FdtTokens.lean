import Risky.FdtCompatible
import Risky.FdtSearch

/-!
# Which bytes lead out of a blob

`Fdt.Bounded` says which blobs are safe to query in terms of what the walk and the scan
come to. This module says it of the bytes themselves: which whole tokens stand in the
structure block (`Fdt.TokenAt`), which nodes they open (`Fdt.Opens`), which tokens lie
between a node and its properties (`Fdt.Passes`), and which nodes a caller can get hold of
(`Fdt.Answers`). The walk reports exactly the nodes that the tokens open, and the scan comes
to exactly the tokens that follow a node, so that a blob is safe exactly if it is contained
in this sense (`Fdt.safe_iff_contained`).

What can lead out is little: a token that the end of the structure block cuts off, with what
it announces, and a `compatible` property whose last string does not end.
-/

namespace Fdt

open Outcome

variable {fdt : Fdt} {st st' : FdtWalkState} {node : FdtNode} {s : FdtScanState}
  {names : List CString} {name path c : CString}
  {ptr next start payload depth len : ℕ} {l : List (FdtNode × FdtWalkState)}

/-! ## Tokens -/

/-- **A token** and what it announces. -/
inductive BlockToken where
  | beginNode (name : CString)
  | endNode
  | prop (name : CString) (len : ℕ)
  | nop

/-- **A whole token stands at `ptr`**, and the next one is to stand at `next`. -/
inductive TokenAt (fdt : Fdt) (ptr : ℕ) : BlockToken → ℕ → Prop where
  | beginNode {name : CString} (token : fdtReadBe32 fdt.mem ptr = some fdtBeginNode)
      (stands : name.bytes <+: fdt.mem.drop (ptr + 4))
      (room : ptr + 4 + name.length < fdt.structBlockEnd) :
      fdt.TokenAt ptr (.beginNode name) (fdt.fdtAlign4 (ptr + 4 + name.length + 1))
  | endNode (token : fdtReadBe32 fdt.mem ptr = some fdtEndNode)
      (room : ptr + 4 ≤ fdt.structBlockEnd) : fdt.TokenAt ptr .endNode (ptr + 4)
  | prop {name : CString} {len : ℕ} (stands : fdt.PropAt ptr name len)
      (room : ptr + 4 ≤ fdt.structBlockEnd) :
      fdt.TokenAt ptr (.prop name len) (fdt.fdtAlign4 (ptr + 12 + len))
  | nop (token : fdtReadBe32 fdt.mem ptr = some fdtNop)
      (room : ptr + 4 ≤ fdt.structBlockEnd) : fdt.TokenAt ptr .nop (ptr + 4)

theorem TokenAt.room {token : BlockToken} (h : fdt.TokenAt ptr token next) :
    ptr + 4 ≤ fdt.structBlockEnd := by
  cases h with
  | beginNode _ _ room => omega
  | endNode _ room | prop _ room | nop _ room => exact room

theorem TokenAt.lt {token : BlockToken} (h : fdt.TokenAt ptr token next) :
    ptr < fdt.structBlockEnd := by
  have hroom := h.room
  omega

/-- **No two tokens stand at one place.** -/
theorem TokenAt.unique {token token' : BlockToken} {next' : ℕ} (h : fdt.TokenAt ptr token next)
    (h' : fdt.TokenAt ptr token' next') : token = token' ∧ next = next' := by
  -- the word that is read is that of one kind of token only
  have hword : ∀ {a b : ℕ}, fdtReadBe32 fdt.mem ptr = some a → fdtReadBe32 fdt.mem ptr = some b →
      a ≠ b → False := fun ha hb hne => hne (Option.some.inj (ha.symm.trans hb))
  cases h with
  | beginNode htoken hname _ =>
    cases h' with
    | beginNode _ hname' _ =>
      cases CString.eq_of_prefix hname hname'
      exact ⟨rfl, rfl⟩
    | endNode htoken' _ => exact (hword htoken htoken' (by decide)).elim
    | prop hat _ => exact (hword htoken hat.token (by decide)).elim
    | nop htoken' _ => exact (hword htoken htoken' (by decide)).elim
  | endNode htoken _ =>
    cases h' with
    | beginNode htoken' _ _ => exact (hword htoken htoken' (by decide)).elim
    | endNode _ _ => exact ⟨rfl, rfl⟩
    | prop hat _ => exact (hword htoken hat.token (by decide)).elim
    | nop htoken' _ => exact (hword htoken htoken' (by decide)).elim
  | prop hat _ =>
    cases h' with
    | beginNode htoken' _ _ => exact (hword hat.token htoken' (by decide)).elim
    | endNode htoken' _ => exact (hword hat.token htoken' (by decide)).elim
    | prop hat' _ =>
      obtain ⟨nameoff, hoff, hname⟩ := hat.name_eq
      obtain ⟨nameoff', hoff', hname'⟩ := hat'.name_eq
      cases hoff.symm.trans hoff'
      cases hname.eq hname'
      cases hat.len_eq.symm.trans hat'.len_eq
      exact ⟨rfl, rfl⟩
    | nop htoken' _ => exact (hword hat.token htoken' (by decide)).elim
  | nop htoken _ =>
    cases h' with
    | beginNode htoken' _ _ => exact (hword htoken htoken' (by decide)).elim
    | endNode htoken' _ => exact (hword htoken htoken' (by decide)).elim
    | prop hat _ => exact (hword htoken hat.token (by decide)).elim
    | nop _ _ => exact ⟨rfl, rfl⟩

/-! ## Nodes -/

/-- **A node may begin at `ptr`**, inside nodes of these names: its name ends in the block,
and neither the depth nor the path is too large. -/
structure Begins (fdt : Fdt) (ptr : ℕ) (names : List CString) (name : CString) (next : ℕ) :
    Prop where
  token : fdt.TokenAt ptr (.beginNode name) next
  fits : next ≤ fdt.structBlockEnd
  depth : names.length < fdtMaxDepth
  path : (openPath (names ++ [name])).length < fdtMaxPath

/-- **What the tokens before `ptr` leave open**: the names of the nodes that have begun and
not ended, outermost first. -/
inductive Opens (fdt : Fdt) : ℕ → List CString → Prop where
  | start : fdt.Opens fdt.structBlock []
  | beginNode {ptr next : ℕ} {names : List CString} {name : CString}
      (opens : fdt.Opens ptr names) (begins : fdt.Begins ptr names name next) :
      fdt.Opens next (names ++ [name])
  | endNode {ptr next : ℕ} {names : List CString} {name : CString}
      (opens : fdt.Opens ptr (names ++ [name])) (token : fdt.TokenAt ptr .endNode next) :
      fdt.Opens next names
  | prop {ptr next len : ℕ} {names : List CString} {name : CString}
      (opens : fdt.Opens ptr names) (token : fdt.TokenAt ptr (.prop name len) next)
      (inside : names ≠ []) (cells : name = addressCells ∨ name = sizeCells → len = 4) :
      fdt.Opens next names
  | nop {ptr next : ℕ} {names : List CString}
      (opens : fdt.Opens ptr names) (token : fdt.TokenAt ptr .nop next) : fdt.Opens next names

/-- **A node of the blob**: where it begins, its path, and where its payload is. -/
def NodeAt (fdt : Fdt) (start : ℕ) (path : CString) (payload : ℕ) : Prop :=
  ∃ names name, path = openPath (names ++ [name]) ∧ fdt.Opens start names
    ∧ fdt.Begins start names name payload

/-- **The first node with a path.** -/
def FirstAt (fdt : Fdt) (path : CString) (start payload : ℕ) : Prop :=
  fdt.NodeAt start path payload
    ∧ ∀ start' payload', fdt.NodeAt start' path payload' → start ≤ start'

/-! ## Properties -/

/-- **Whole tokens lead from the payload to `ptr`**, `depth` nodes further in, and none of
them is a property of this name of the node itself. -/
inductive Passes (fdt : Fdt) (name : CString) (payload : ℕ) : ℕ → ℕ → Prop where
  | payload : fdt.Passes name payload payload 0
  | beginNode {ptr next depth : ℕ} {name' : CString} (passes : fdt.Passes name payload ptr depth)
      (token : fdt.TokenAt ptr (.beginNode name') next) : fdt.Passes name payload next (depth + 1)
  | endNode {ptr next depth : ℕ} (passes : fdt.Passes name payload ptr (depth + 1))
      (token : fdt.TokenAt ptr .endNode next) : fdt.Passes name payload next depth
  | prop {ptr next depth len : ℕ} {name' : CString} (passes : fdt.Passes name payload ptr depth)
      (token : fdt.TokenAt ptr (.prop name' len) next) (other : ¬ (depth = 0 ∧ name' = name)) :
      fdt.Passes name payload next depth
  | nop {ptr next depth : ℕ} (passes : fdt.Passes name payload ptr depth)
      (token : fdt.TokenAt ptr .nop next) : fdt.Passes name payload next depth

/-- **The node's own property**: the first one of this name, which may begin with a truncated
token. -/
def OwnProp (fdt : Fdt) (payload : ℕ) (name : CString) (ptr len : ℕ) : Prop :=
  fdt.Passes name payload ptr 0 ∧ ptr < fdt.structBlockEnd ∧ fdt.PropAt ptr name len

/-- The property that names the console. -/
def ConsoleProp (fdt : Fdt) (payload ptr len : ℕ) : Prop :=
  fdt.OwnProp payload stdoutPath ptr len
    ∨ (∀ ptr len, ¬ fdt.OwnProp payload stdoutPath ptr len)
      ∧ fdt.OwnProp payload linuxStdoutPath ptr len

/-- **The node lists a string** among the entries of its `compatible` property. -/
def Lists (fdt : Fdt) (payload : ℕ) (c : CString) : Prop :=
  ∃ ptr len, fdt.OwnProp payload compatibleName ptr len
    ∧ c.chars ∈ entries (fdt.propBytes ⟨ptr + 12, len⟩)

/-- **A caller can get hold of the node**: it is the first one with its path, or the first one
that lists some string. -/
def Answers (fdt : Fdt) (start : ℕ) (path : CString) (payload : ℕ) : Prop :=
  fdt.FirstAt path start payload
    ∨ ∃ c, fdt.Lists payload c ∧ ∀ start' path' payload', fdt.NodeAt start' path' payload' →
      fdt.Lists payload' c → start ≤ start'

/-! ## The scan passes the tokens -/

section Scan

variable (hrange : fdt.InRange)
include hrange

/-- At a token of the block that is not the property asked for, the scan goes on. -/
theorem fdtScanTurn_beginNode (token : fdt.TokenAt ptr (.beginNode path) next) :
    fdt.fdtScanTurn name ⟨ptr, depth⟩ = ok (Sum.inl ⟨next, depth + 1⟩) := by
  cases token with
  | beginNode htoken hstands hroom =>
    unfold fdtScanTurn
    rw [htoken, access_some, ok_bind]
    dsimp only
    rw [if_pos rfl, fdtBoundedStrlen_of_prefix hrange hstands hroom]
    rfl

omit hrange in
theorem fdtScanTurn_endNode (token : fdt.TokenAt ptr .endNode next) :
    fdt.fdtScanTurn name ⟨ptr, depth + 1⟩ = ok (Sum.inl ⟨next, depth⟩) := by
  cases token with
  | endNode htoken _ =>
    unfold fdtScanTurn
    rw [htoken, access_some, ok_bind]
    dsimp only
    rw [if_neg (by decide), if_pos rfl, require_of_pos (Nat.succ_ne_zero depth)]
    rfl

theorem fdtScanTurn_prop (token : fdt.TokenAt ptr (.prop path len) next)
    (other : ¬ (depth = 0 ∧ path = name)) :
    fdt.fdtScanTurn name ⟨ptr, depth⟩ = ok (Sum.inl ⟨next, depth⟩) := by
  cases token with
  | prop hprop hroom =>
    rw [fdtScanTurn_of_propAt hrange (TokenAt.prop hprop hroom).lt hprop]
    exact if_neg other

omit hrange in
theorem fdtScanTurn_nop (token : fdt.TokenAt ptr .nop next) :
    fdt.fdtScanTurn name ⟨ptr, depth⟩ = ok (Sum.inl ⟨next, depth⟩) := by
  cases token with
  | nop htoken _ =>
    unfold fdtScanTurn
    rw [htoken, access_some, ok_bind]
    rfl

/-- **Where the tokens lead, the scan comes.** -/
theorem Passes.turns (h : fdt.Passes name payload ptr depth) :
    (fdt.fdtScanLoop name).Turns ⟨payload, 0⟩ ⟨ptr, depth⟩ := by
  have hmore : ∀ {ptr depth next : ℕ} {token : BlockToken}, fdt.TokenAt ptr token next →
      (fdt.fdtScanLoop name).more ⟨ptr, depth⟩ = true := fun h => decide_eq_true h.lt
  induction h with
  | payload => exact Relation.ReflTransGen.refl
  | beginNode _ token ih => exact ih.tail ⟨hmore token, fdtScanTurn_beginNode hrange token⟩
  | endNode _ token ih => exact ih.tail ⟨hmore token, fdtScanTurn_endNode token⟩
  | prop _ token other ih => exact ih.tail ⟨hmore token, fdtScanTurn_prop hrange token other⟩
  | nop _ token ih => exact ih.tail ⟨hmore token, fdtScanTurn_nop token⟩

/-- **A turn that goes on has read a token of the block**, if there is a whole one. -/
theorem Passes.turn (h : fdt.Passes name payload s.cursor s.depth)
    (hroom : s.cursor + 4 ≤ fdt.structBlockEnd) {s' : FdtScanState}
    (hturn : fdt.fdtScanTurn name s = ok (Sum.inl s')) :
    fdt.Passes name payload s'.cursor s'.depth := by
  have hmore : s.cursor < fdt.structBlockEnd := by omega
  have hrun := hturn
  unfold fdtScanTurn at hturn
  obtain ⟨token, htoken, hturn⟩ := bind_eq_ok.mp hturn
  rw [access_eq_ok] at htoken
  dsimp only at hturn
  split at hturn
  · next hbegin =>
    subst hbegin
    obtain ⟨nameLen, hlen, hturn⟩ := bind_eq_ok.mp hturn
    cases hturn
    rcases fdtBoundedStrlen_cases hrange hroom with ⟨str, hstr, hin, hok⟩ | hrefused
    · rw [hok] at hlen
      cases hlen
      exact h.beginNode (TokenAt.beginNode htoken hstr hin)
    · rw [hrefused] at hlen
      exact absurd hlen (by simp)
  split at hturn
  · next hend =>
    subst hend
    obtain ⟨_, hdepth, hturn⟩ := bind_eq_ok.mp hturn
    rw [require_eq_ok] at hdepth
    cases hturn
    rw [← Nat.succ_pred_eq_of_pos (Nat.pos_of_ne_zero hdepth)] at h
    exact h.endNode (TokenAt.endNode htoken hroom)
  split at hturn
  · next hprop =>
    subst hprop
    by_cases hat : ∃ name' len, fdt.PropAt s.cursor name' len
    · obtain ⟨name', len, hat⟩ := hat
      rw [fdtScanTurn_of_propAt hrange hmore hat] at hrun
      split at hrun
      · exact absurd hrun (by simp)
      · next other =>
        cases hrun
        exact h.prop (TokenAt.prop hat hroom) other
    · have hno : ∀ name' len, ¬ fdt.PropAt s.cursor name' len := fun name' len h' =>
        hat ⟨name', len, h'⟩
      rw [fdtScanTurn_of_not_propAt hrange hmore htoken hno] at hrun
      split at hrun <;> exact absurd hrun (by simp)
  split at hturn
  · next hnop =>
    subst hnop
    cases hturn
    exact h.nop (TokenAt.nop htoken hroom)
  · exact absurd hturn (by simp)

/-- **The scan comes to where the tokens lead**, and nowhere else. -/
theorem scans_iff_passes (hpayload : fdt.fdtNodePayload node = ok payload) :
    fdt.Scans node name s
      ↔ fdt.Passes name payload s.cursor s.depth ∧ s.cursor < fdt.structBlockEnd := by
  constructor
  · rintro ⟨payload', hpayload', hturns, hlt⟩
    cases hpayload.symm.trans hpayload'
    refine ⟨?_, hlt⟩
    -- behind a truncated token the block has ended
    have hall : fdt.structBlockEnd ≤ s.cursor ∨ fdt.Passes name payload s.cursor s.depth := by
      clear hlt
      induction hturns with
      | refl => exact Or.inr Passes.payload
      | @tail s₁ s₂ _ hnext ih =>
        have hlt : s₁.cursor < fdt.structBlockEnd := of_decide_eq_true hnext.1
        have hpasses := ih.resolve_left (not_le.mpr hlt)
        by_cases hroom : s₁.cursor + 4 ≤ fdt.structBlockEnd
        · exact Or.inr (hpasses.turn hrange hroom hnext.2)
        · have hstep := cursor_le_of_fdtScanTurn hnext.2
          exact Or.inl (by omega)
    exact hall.resolve_left (not_le.mpr hlt)
  · rintro ⟨hpasses, hlt⟩
    exact ⟨payload, hpayload, hpasses.turns hrange, hlt⟩

theorem hasProp_iff_ownProp (hpayload : fdt.fdtNodePayload node = ok payload) :
    fdt.HasProp node name ptr len ↔ fdt.OwnProp payload name ptr len := by
  unfold HasProp OwnProp
  rw [scans_iff_passes hrange hpayload, and_assoc]

end Scan

/-! ## The walk opens the nodes -/

/-- **Cells are words**, or the walk is refused. -/
theorem len_of_fdtWalkCells {propName : List UInt8} {prop : FdtProp} {frame frame' : FdtWalkFrame}
    (hname : name.bytes <+: propName) (hrun : fdt.fdtWalkCells propName prop frame = ok frame')
    (hcells : name = addressCells ∨ name = sizeCells) : prop.len = 4 := by
  have hlen : ∀ {value : ℕ}, fdt.fdtPropGetU32 prop = ok value → prop.len = 4 := by
    intro value h
    unfold fdtPropGetU32 at h
    obtain ⟨_, hlen, -⟩ := bind_eq_ok.mp h
    exact require_eq_ok.mp hlen
  obtain ⟨r, hr, hiff⟩ := CString.strcmp_eq hname (List.prefix_refl addressCells.bytes)
  obtain ⟨r', hr', hiff'⟩ := CString.strcmp_eq hname (List.prefix_refl sizeCells.bytes)
  rw [fdtWalkCells, hr, access_some, ok_bind] at hrun
  by_cases haddress : r = 0
  · rw [if_pos haddress] at hrun
    obtain ⟨value, hvalue, -⟩ := bind_eq_ok.mp hrun
    exact hlen hvalue
  · rw [if_neg haddress, hr', access_some, ok_bind] at hrun
    have hsize : r' = 0 := hiff'.mpr (hcells.resolve_left (fun h => haddress (hiff.mpr h)))
    rw [if_pos hsize] at hrun
    obtain ⟨value, hvalue, -⟩ := bind_eq_ok.mp hrun
    exact hlen hvalue

/-- Where cells are words, they are read. -/
theorem exists_fdtWalkCells {propName : List UInt8} (prop : FdtProp) (frame : FdtWalkFrame)
    (hname : name.bytes <+: propName) (hin : prop.data + prop.len ≤ fdt.mem.length)
    (hcells : name = addressCells ∨ name = sizeCells → prop.len = 4) :
    ∃ frame', fdt.fdtWalkCells propName prop frame = ok frame' := by
  have hread : prop.len = 4 → ∃ value, fdt.fdtPropGetU32 prop = ok value := by
    intro hlen
    obtain ⟨value, hvalue⟩ := Option.ne_none_iff_exists'.mp
      (fdtReadBe32_ne_none (show prop.data + 4 ≤ fdt.mem.length by omega))
    refine ⟨value, ?_⟩
    unfold fdtPropGetU32
    rw [require_of_pos hlen, ok_bind, hvalue]
    rfl
  obtain ⟨r, hr, hiff⟩ := CString.strcmp_eq hname (List.prefix_refl addressCells.bytes)
  obtain ⟨r', hr', hiff'⟩ := CString.strcmp_eq hname (List.prefix_refl sizeCells.bytes)
  rw [fdtWalkCells, hr, access_some, ok_bind]
  by_cases haddress : r = 0
  · obtain ⟨value, hvalue⟩ := hread (hcells (Or.inl (hiff.mp haddress)))
    rw [if_pos haddress, hvalue]
    exact ⟨_, rfl⟩
  rw [if_neg haddress, hr', access_some, ok_bind]
  by_cases hsize : r' = 0
  · obtain ⟨value, hvalue⟩ := hread (hcells (Or.inr (hiff'.mp hsize)))
    rw [if_pos hsize, hvalue]
    exact ⟨_, rfl⟩
  · rw [if_neg hsize]
    exact ⟨_, rfl⟩

section Walk

variable (hrange : fdt.InRange) (hnames : WalkNames st names)

/-- The frame of the innermost open node. -/
theorem WalkNames.last_frame (h : WalkNames st names) (hopen : names ≠ []) :
    ∃ frame, st.frames[st.depth - 1]? = some frame ∧ st.depth - 1 < st.frames.length
      ∧ frame.pathLen < st.path.length := by
  have hpos : 0 < names.length := List.length_pos_iff.mpr hopen
  obtain ⟨frame, hframe, hlen⟩ := h.frame (names.length - 1) (by omega)
  rw [← h.depth_eq] at hframe
  refine ⟨frame, hframe, (List.getElem?_eq_some_iff.mp hframe).1, ?_⟩
  -- the path around the node is part of its path
  have hprefix := prefix_openPath_concat (names.take (names.length - 1))
    (names.getLast hopen)
  rw [← List.dropLast_eq_take, List.dropLast_append_getLast hopen] at hprefix
  rw [hlen, h.path_length, ← List.dropLast_eq_take]
  have hlt : (openPath names).length < fdtMaxPath := h.pathLen_eq ▸ h.pathLen_lt
  exact lt_of_le_of_lt hprefix.length_le hlt

include hrange

/-- **Where the walk is after a node has begun.** -/
theorem fdtWalkBeginNode_spec (hcursor : st.cursor ≤ fdt.structBlockEnd)
    (hname : name.bytes <+: fdt.mem.drop st.cursor)
    (hrun : fdt.fdtWalkBeginNode ptr st = ok (node, st')) :
    st.cursor + name.length < fdt.structBlockEnd
      ∧ st'.cursor = fdt.fdtAlign4 (st.cursor + name.length + 1)
      ∧ st'.cursor ≤ fdt.structBlockEnd
      ∧ node.structOffset = (ptr - fdt.structBlock) % 2 ^ 32 := by
  unfold fdtWalkBeginNode at hrun
  obtain ⟨_, -, hrun⟩ := bind_eq_ok.mp hrun
  obtain ⟨nameLen, hlen, hrun⟩ := bind_eq_ok.mp hrun
  obtain ⟨parent, -, hrun⟩ := bind_eq_ok.mp hrun
  obtain ⟨frames, -, hrun⟩ := bind_eq_ok.mp hrun
  obtain ⟨written, -, hrun⟩ := bind_eq_ok.mp hrun
  obtain ⟨_, hfits, hrun⟩ := bind_eq_ok.mp hrun
  cases hrun
  rw [require_eq_ok] at hfits
  rcases fdtBoundedStrlen_cases hrange hcursor with ⟨name', hname', hin, hok⟩ | hrefused
  · cases CString.eq_of_prefix hname hname'
    rw [hok] at hlen
    cases hlen
    exact ⟨hin, rfl, not_lt.mp hfits, rfl⟩
  · rw [hrefused] at hlen
    exact absurd hlen (by simp)

/-- **The walk passes a property that stands there**, and none else. -/
theorem tokenAt_of_fdtWalkProp (hroom : st.cursor + 4 ≤ fdt.structBlockEnd)
    (htoken : fdtReadBe32 fdt.mem st.cursor = some fdtPropToken)
    (hrun : fdt.fdtWalkProp { st with cursor := st.cursor + 4 } = ok st') :
    st.depth ≠ 0 ∧ ∃ name len, fdt.TokenAt st.cursor (.prop name len) st'.cursor
      ∧ (name = addressCells ∨ name = sizeCells → len = 4) := by
  unfold fdtWalkProp at hrun
  obtain ⟨_, h₁, hrun⟩ := bind_eq_ok.mp hrun
  obtain ⟨len, hlen, hrun⟩ := bind_eq_ok.mp hrun
  obtain ⟨nameoff, hoff, hrun⟩ := bind_eq_ok.mp hrun
  obtain ⟨_, h₂, hrun⟩ := bind_eq_ok.mp hrun
  obtain ⟨valid, hvalid, hrun⟩ := bind_eq_ok.mp hrun
  obtain ⟨_, htrue, hrun⟩ := bind_eq_ok.mp hrun
  obtain ⟨_, hdepth, hrun⟩ := bind_eq_ok.mp hrun
  obtain ⟨frame, -, hrun⟩ := bind_eq_ok.mp hrun
  obtain ⟨frame', hcells, hrun⟩ := bind_eq_ok.mp hrun
  obtain ⟨frames, -, hrun⟩ := bind_eq_ok.mp hrun
  cases hrun
  rw [require_eq_ok] at h₁ h₂ htrue hdepth
  rw [access_eq_ok] at hlen hoff hvalid
  subst htrue
  rcases fdtPropNameValid_cases hrange nameoff with ⟨name, hname, -⟩ | ⟨-, hfalse⟩
  · refine ⟨hdepth, name, len, TokenAt.prop ⟨htoken, hlen, ⟨nameoff, hoff, hname⟩, ?_⟩ hroom,
      len_of_fdtWalkCells hname.2 hcells⟩
    exact (sizeDiff_room hrange (by omega) (fdtReadBe32_lt hlen)).mp ⟨h₁, h₂⟩
  · rw [hfalse] at hvalid
    exact absurd hvalid (by simp)

include hnames

/-- **A turn that goes on has read a whole token**: of the end of an open node, of a
property of one, or of nothing. -/
theorem tokenAt_of_fdtWalkTurn (hmore : st.cursor < fdt.structBlockEnd)
    (hturn : fdt.fdtWalkTurn st = ok (Sum.inl st')) :
    (∃ outer name, names = outer ++ [name] ∧ fdt.TokenAt st.cursor .endNode st'.cursor
        ∧ WalkNames st' outer)
      ∨ (names ≠ [] ∧ ∃ name len, fdt.TokenAt st.cursor (.prop name len) st'.cursor
        ∧ (name = addressCells ∨ name = sizeCells → len = 4) ∧ WalkNames st' names)
      ∨ (fdt.TokenAt st.cursor .nop st'.cursor ∧ WalkNames st' names) := by
  have hroom := cursor_add_le hrange hmore hturn
  have hmoved := hnames.setCursor (st.cursor + 4)
  rcases (fdtWalkTurn_cases hturn).2 with ⟨-, _, -, hnext⟩ | ⟨htoken, st₁, hend, hnext⟩
    | ⟨htoken, st₁, hprop, hnext⟩ | ⟨htoken, hnext⟩
  · cases hnext
  · cases hnext
    obtain ⟨outer, name, rfl⟩ := hmoved.exists_concat hend
    have hcursor : st'.cursor = st.cursor + 4 := by
      unfold fdtWalkEndNode at hend
      obtain ⟨_, -, hend⟩ := bind_eq_ok.mp hend
      obtain ⟨frame, -, hend⟩ := bind_eq_ok.mp hend
      obtain ⟨path, -, hend⟩ := bind_eq_ok.mp hend
      cases hend
      rfl
    rw [hcursor]
    exact Or.inl ⟨outer, name, rfl, TokenAt.endNode htoken hroom, hmoved.endNode hend⟩
  · cases hnext
    obtain ⟨hdepth, name, len, hat, hcells⟩ := tokenAt_of_fdtWalkProp hrange hroom htoken hprop
    refine Or.inr (Or.inl ⟨fun hnil => hdepth ?_, name, len, hat, hcells, hmoved.prop hprop⟩)
    rw [hnames.depth_eq, hnil, List.length_nil]
  · cases hnext
    exact Or.inr (Or.inr ⟨TokenAt.nop htoken hroom, hmoved⟩)

/-- **A turn that reports a node** has found one that may begin there. -/
theorem begins_of_fdtWalkTurn (hmore : st.cursor < fdt.structBlockEnd)
    (hturn : fdt.fdtWalkTurn st = ok (Sum.inr (node, st'))) :
    ∃ name, fdt.Begins st.cursor names name st'.cursor ∧ WalkNames st' (names ++ [name])
      ∧ node.structOffset = (st.cursor - fdt.structBlock) % 2 ^ 32 := by
  have hroom := cursor_add_le hrange hmore hturn
  have hmoved := hnames.setCursor (st.cursor + 4)
  rcases (fdtWalkTurn_cases hturn).2 with ⟨htoken, found, hbegin, hnext⟩ | ⟨-, _, -, hnext⟩
    | ⟨-, _, -, hnext⟩ | ⟨-, hnext⟩
  · cases hnext
    obtain ⟨name, hname, hnames'⟩ := hmoved.beginNode hrange hroom hbegin
    obtain ⟨hin, hcursor, hfits, hoffset⟩ := fdtWalkBeginNode_spec hrange hroom hname hbegin
    have hdepth := hnames'.length_le
    rw [List.length_append, List.length_singleton] at hdepth
    have hpath := hnames'.pathLen_lt
    rw [hnames'.pathLen_eq] at hpath
    refine ⟨name, ⟨?_, hfits, hdepth, hpath⟩, hnames', hoffset⟩
    rw [hcursor]
    exact TokenAt.beginNode htoken hname hin
  · cases hnext
  · cases hnext
  · cases hnext

omit hrange in
/-- The cells for a node that begins are there. -/
theorem exists_fdtWalkParent : ∃ parent, fdtWalkParent st = ok parent := by
  unfold fdtWalkParent
  split
  · next hdepth =>
    obtain ⟨frame, hframe, -⟩ := hnames.last_frame (fun hnil => by
      rw [hnames.depth_eq, hnil] at hdepth
      exact absurd hdepth (Nat.lt_irrefl 0))
    rw [hframe]
    exact ⟨frame, rfl⟩
  · exact ⟨_, rfl⟩

omit hrange in
/-- The path of a node that may begin is written. -/
theorem exists_fdtWalkPath (hname : name.bytes <+: fdt.mem.drop st.cursor)
    (hpath : (openPath (names ++ [name])).length < fdtMaxPath) :
    ∃ written, fdt.fdtWalkPath st name.length = ok written := by
  by_cases hroot : names = []
  · have hdepth : st.depth = 0 := by rw [hnames.depth_eq, hroot, List.length_nil]
    obtain ⟨buffer, hbuffer, -⟩ : ∃ buffer,
        fdt.fdtWalkPath st name.length = ok (buffer, (fullPath []).length)
          ∧ buffer.length = fdtMaxPath ∧ (fullPath []).bytes <+: buffer :=
      fdtWalkPath_root hnames.path_length hdepth name.length
    exact ⟨_, hbuffer⟩
  · rw [openPath_concat hroot] at hpath
    have hdepth : ¬ st.depth = 0 := by
      rw [hnames.depth_eq, List.length_eq_zero_iff]
      exact hroot
    obtain ⟨buffer, hbuffer, -⟩ := fdtWalkPath_child hnames.path_length hdepth hnames.pathLen_eq
      ((List.prefix_append _ _).trans hnames.path) hname (Nat.le_of_lt_succ hpath)
    exact ⟨_, hbuffer⟩

/-- **A node that may begin is reported.** -/
theorem Begins.exists_turn (h : fdt.Begins st.cursor names name next) :
    ∃ found, fdt.fdtWalkTurn st = ok (Sum.inr found) := by
  have hmoved := hnames.setCursor (st.cursor + 4)
  obtain ⟨htoken, hfits, hdepth, hpath⟩ := h
  have hroom := htoken.room
  cases htoken with
  | beginNode htoken hname hin =>
    obtain ⟨parent, hparent⟩ := exists_fdtWalkParent hmoved
    obtain ⟨written, hwritten⟩ := exists_fdtWalkPath hmoved hname hpath
    have hframes : st.depth < st.frames.length := by
      rw [hnames.depth_eq, hnames.frames_length]
      exact hdepth
    rw [fdtWalkTurn_of_room hrange hroom htoken]
    dsimp only
    rw [if_pos rfl]
    unfold fdtWalkBeginNode
    dsimp only
    rw [require_of_pos (by rw [hnames.depth_eq]; exact not_le.mpr hdepth), ok_bind,
      fdtBoundedStrlen_of_prefix hrange hname hin, ok_bind, hparent, ok_bind, store,
      if_pos hframes, ok_bind, hwritten, ok_bind, require_of_pos (not_lt.mpr hfits)]
    exact ⟨_, rfl⟩

/-- **A token that ends an open node** is passed. -/
theorem exists_turn_endNode (hopen : names ≠ []) (h : fdt.TokenAt st.cursor .endNode next) :
    ∃ st', fdt.fdtWalkTurn st = ok (Sum.inl st') := by
  obtain ⟨frame, hframe, -, hpath⟩ := hnames.last_frame hopen
  have hdepth : ¬ st.depth = 0 := by
    rw [hnames.depth_eq, List.length_eq_zero_iff]
    exact hopen
  have hroom := h.room
  cases h with
  | endNode htoken _ =>
    rw [fdtWalkTurn_of_room hrange hroom htoken]
    dsimp only
    rw [if_neg (by decide), if_pos rfl]
    unfold fdtWalkEndNode
    dsimp only
    rw [require_of_pos hdepth, ok_bind, hframe, access_some, ok_bind, store, if_pos hpath]
    exact ⟨_, rfl⟩

/-- **A property of an open node** is passed, if cells are words. -/
theorem exists_turn_prop (hopen : names ≠ []) (h : fdt.TokenAt st.cursor (.prop name len) next)
    (hcells : name = addressCells ∨ name = sizeCells → len = 4) :
    ∃ st', fdt.fdtWalkTurn st = ok (Sum.inl st') := by
  obtain ⟨frame, hframe, hframes, -⟩ := hnames.last_frame hopen
  have hdepth : ¬ st.depth = 0 := by
    rw [hnames.depth_eq, List.length_eq_zero_iff]
    exact hopen
  have hroom := h.room
  have hmore := h.lt
  cases h with
  | prop hat _ =>
    obtain ⟨htoken, hlen, ⟨nameoff, hoff, hname⟩, hin⟩ := hat
    obtain ⟨h₁, h₂⟩ := (sizeDiff_room hrange hmore (fdtReadBe32_lt hlen)).mpr hin
    have hdata : st.cursor + 4 + 8 + len ≤ fdt.mem.length := by
      have hend := hrange.end_le
      omega
    obtain ⟨frame', hframe'⟩ := exists_fdtWalkCells ⟨st.cursor + 4 + 8, len⟩ frame hname.2 hdata
      hcells
    rw [fdtWalkTurn_of_room hrange hroom htoken]
    dsimp only
    rw [if_neg (by decide), if_neg (by decide), if_pos rfl]
    unfold fdtWalkProp
    dsimp only
    rw [require_of_pos h₁, ok_bind, hlen, access_some, ok_bind, hoff, access_some, ok_bind,
      require_of_pos h₂, ok_bind, fdtPropNameValid_of_nameAt hrange hname, access_some, ok_bind,
      require_of_pos rfl, ok_bind, require_of_pos hdepth, ok_bind, hframe, access_some, ok_bind,
      hframe', ok_bind, store, if_pos hframes]
    exact ⟨_, rfl⟩

omit hnames in
theorem exists_turn_nop (h : fdt.TokenAt st.cursor .nop next) :
    ∃ st', fdt.fdtWalkTurn st = ok (Sum.inl st') := by
  have hroom := h.room
  cases h with
  | nop htoken _ =>
    rw [fdtWalkTurn_of_room hrange hroom htoken]
    exact ⟨_, rfl⟩

end Walk

/-! ## The walk reports the nodes -/

section Nodes

variable (hrange : fdt.InRange)
include hrange

/-- **Whatever the tokens open, the walk opens.** -/
theorem Opens.exists_walkRun (h : fdt.Opens ptr names) :
    ∃ st tokens nodes, fdt.WalkRun st tokens nodes ∧ st.cursor = ptr ∧ WalkNames st names := by
  induction h with
  | start => exact ⟨_, 0, [], WalkRun.init, rfl, walkNames_fdtWalkInit fdt⟩
  | beginNode _ begins ih =>
    obtain ⟨st, tokens, nodes, hrun, rfl, hnames⟩ := ih
    obtain ⟨⟨node, st'⟩, hturn⟩ := begins.exists_turn hrange hnames
    obtain ⟨name', hbegins, hnames', -⟩ :=
      begins_of_fdtWalkTurn hrange hnames begins.token.lt hturn
    obtain ⟨htoken, hnext⟩ := hbegins.token.unique begins.token
    cases htoken
    obtain ⟨_, hrun'⟩ := hrun.found hrange begins.token.lt hturn
    exact ⟨st', _, _, hrun', hnext, hnames'⟩
  | endNode _ token ih =>
    obtain ⟨st, tokens, nodes, hrun, rfl, hnames⟩ := ih
    obtain ⟨st', hturn⟩ := exists_turn_endNode hrange hnames (by simp) token
    obtain ⟨nodes', hrun'⟩ := hrun.next hrange token.lt hturn
    rcases tokenAt_of_fdtWalkTurn hrange hnames token.lt hturn with
      ⟨outer, name', houter, hat, hnames'⟩ | ⟨-, name', len, hat, -⟩ | ⟨hat, -⟩
    · rw [← (List.append_inj' houter rfl).1] at hnames'
      exact ⟨st', _, nodes', hrun', (hat.unique token).2, hnames'⟩
    · exact absurd (hat.unique token).1 (by simp)
    · exact absurd (hat.unique token).1 (by simp)
  | prop _ token inside cells ih =>
    obtain ⟨st, tokens, nodes, hrun, rfl, hnames⟩ := ih
    obtain ⟨st', hturn⟩ := exists_turn_prop hrange hnames inside token cells
    obtain ⟨nodes', hrun'⟩ := hrun.next hrange token.lt hturn
    rcases tokenAt_of_fdtWalkTurn hrange hnames token.lt hturn with
      ⟨outer, name', -, hat, -⟩ | ⟨-, name', len, hat, -, hnames'⟩ | ⟨hat, -⟩
    · exact absurd (hat.unique token).1 (by simp)
    · exact ⟨st', _, nodes', hrun', (hat.unique token).2, hnames'⟩
    · exact absurd (hat.unique token).1 (by simp)
  | nop _ token ih =>
    obtain ⟨st, tokens, nodes, hrun, rfl, hnames⟩ := ih
    obtain ⟨st', hturn⟩ := exists_turn_nop hrange token
    obtain ⟨nodes', hrun'⟩ := hrun.next hrange token.lt hturn
    rcases tokenAt_of_fdtWalkTurn hrange hnames token.lt hturn with
      ⟨outer, name', -, hat, -⟩ | ⟨-, name', len, hat, -⟩ | ⟨hat, hnames'⟩
    · exact absurd (hat.unique token).1 (by simp)
    · exact absurd (hat.unique token).1 (by simp)
    · exact ⟨st', _, nodes', hrun', (hat.unique token).2, hnames'⟩

/-- **A turn that goes on leaves open what the tokens do.** -/
theorem Opens.turn (h : fdt.Opens st.cursor names) (hnames : WalkNames st names)
    (hmore : st.cursor < fdt.structBlockEnd) (hturn : fdt.fdtWalkTurn st = ok (Sum.inl st')) :
    ∃ names', fdt.Opens st'.cursor names' ∧ WalkNames st' names' := by
  rcases tokenAt_of_fdtWalkTurn hrange hnames hmore hturn with
    ⟨outer, name, rfl, hat, hnames'⟩ | ⟨hopen, name, len, hat, hcells, hnames'⟩ | ⟨hat, hnames'⟩
  · exact ⟨outer, h.endNode hat, hnames'⟩
  · exact ⟨names, h.prop hat hopen hcells, hnames'⟩
  · exact ⟨names, h.nop hat, hnames'⟩

/-- **A call that succeeds reports a node of the blob.** -/
theorem Opens.call (h : fdt.Opens st.cursor names) (hnames : WalkNames st names)
    (hblock : fdt.structBlock ≤ st.cursor)
    (hcall : fdt.fdtWalkNextNode st = ok (node, st')) :
    ∃ names' name, fdt.Opens (fdt.structBlock + node.structOffset) names'
      ∧ fdt.Begins (fdt.structBlock + node.structOffset) names' name st'.cursor
      ∧ WalkNames st' (names' ++ [name]) := by
  obtain ⟨last, hturns, hmore, hturn⟩ := Loop.run_eq_ok_iff.mp hcall
  have hlast : fdt.structBlock ≤ last.cursor
      ∧ ∃ names', fdt.Opens last.cursor names' ∧ WalkNames last names' := by
    clear hmore hturn
    induction hturns with
    | refl => exact ⟨hblock, names, h, hnames⟩
    | tail _ hnext ih =>
      obtain ⟨hle, names', hopens, hnames'⟩ := ih
      have hstep := cursor_le_of_fdtWalkTurn hnext.2
      dsimp only [Sum.elim_inl, id] at hstep
      exact ⟨by omega, hopens.turn hrange hnames' (of_decide_eq_true hnext.1) hnext.2⟩
  obtain ⟨hle, names', hopens, hnames'⟩ := hlast
  have hlt : last.cursor < fdt.structBlockEnd := of_decide_eq_true hmore
  obtain ⟨name, hbegins, hnames'', hoffset⟩ := begins_of_fdtWalkTurn hrange hnames' hlt hturn
  have hend := hrange.end_le
  have hlength := hrange.length_lt
  have hstart : fdt.structBlock + node.structOffset = last.cursor := by
    rw [hoffset, Nat.mod_eq_of_lt (by omega)]
    omega
  rw [hstart]
  exact ⟨names', name, hopens, hbegins, hnames''⟩

/-- **Every node that is reported is one of the blob**, with the path that is in the buffer
then. -/
theorem Reports.nodeAt (hl : fdt.Reports st l) (h : fdt.Opens st.cursor names)
    (hnames : WalkNames st names) (hblock : fdt.structBlock ≤ st.cursor) :
    ∀ x ∈ l, ∃ path, fdt.NodeAt (fdt.structBlock + x.1.structOffset) path x.2.cursor
      ∧ x.2.path.take x.2.pathLen = path.chars := by
  induction hl generalizing names with
  | stop _ => exact fun x hx => absurd hx List.not_mem_nil
  | @node st found l hnext _ ih =>
    obtain ⟨names', name, hopens, hbegins, hnames'⟩ := h.call hrange hnames hblock hnext
    intro x hx
    rcases List.mem_cons.mp hx with rfl | hx
    · exact ⟨_, ⟨names', name, rfl, hopens, hbegins⟩, hnames'.take_pathLen.1⟩
    · have hlt := (token_of_fdtWalkNextNode hrange hblock hnext).2.1
      exact ih (hopens.beginNode hbegins) hnames' (by omega) x hx

omit hrange in
/-- The rest of the nodes is reported from wherever the walk gets to. -/
theorem Reports.of_walkRun {tokens : ℕ} {nodes : List BegunNode} {st₀ : FdtWalkState}
    (hl : fdt.Reports fdt.fdtWalkInit l) (hrun : fdt.WalkRun st₀ tokens nodes) :
    ∃ l', l' <:+ l ∧ fdt.Reports st₀ l' := by
  -- a turn that goes on changes nothing of what is reported
  have hgo : ∀ {st st' : FdtWalkState} {l' : List (FdtNode × FdtWalkState)}, l' <:+ l →
      fdt.Reports st l' → st.cursor < fdt.structBlockEnd →
      fdt.fdtWalkTurn st = ok (Sum.inl st') → ∃ l', l' <:+ l ∧ fdt.Reports st' l' := by
    intro st st' l' hsuffix hreports hmore hturn
    have hsame : fdt.fdtWalkNextNode st = fdt.fdtWalkNextNode st' :=
      Loop.run_of_next (L := fdt.fdtWalkLoop) (decide_eq_true hmore) hturn
    refine ⟨l', hsuffix, ?_⟩
    cases hreports with
    | stop hstop => exact .stop (hsame ▸ hstop)
    | node hnode hrest => exact .node (hsame ▸ hnode) hrest
  induction hrun with
  | init => exact ⟨l, List.suffix_rfl, hl⟩
  | @beginNode st st' _ _ _ node _ hmore _ _ hturn ih =>
    obtain ⟨l', hsuffix, hreports⟩ := ih
    have hcall : fdt.fdtWalkNextNode st = ok (node, st') :=
      Loop.run_of_result (L := fdt.fdtWalkLoop) (decide_eq_true hmore) hturn
    cases hreports with
    | stop hstop => exact absurd (hstop.symm.trans hcall) (by simp)
    | node hnode hrest =>
      cases hnode.symm.trans hcall
      exact ⟨_, (List.suffix_cons _ _).trans hsuffix, hrest⟩
  | endNode _ hmore _ hturn ih =>
    obtain ⟨l', hsuffix, hreports⟩ := ih
    exact hgo hsuffix hreports hmore hturn
  | skip _ hmore _ _ hturn ih =>
    obtain ⟨l', hsuffix, hreports⟩ := ih
    exact hgo hsuffix hreports hmore hturn

omit hrange in
/-- **A node that a turn finds is reported.** -/
theorem Reports.mem_of_turn {tokens : ℕ} {nodes : List BegunNode}
    (hl : fdt.Reports fdt.fdtWalkInit l) (hrun : fdt.WalkRun st tokens nodes)
    (hcall : fdt.fdtWalkNextNode st = ok (node, st')) : (node, st') ∈ l := by
  obtain ⟨l', hsuffix, hreports⟩ := hl.of_walkRun hrun
  cases hreports with
  | stop hstop => exact absurd (hstop.symm.trans hcall) (by simp)
  | node hnode hrest =>
    cases hnode.symm.trans hcall
    exact hsuffix.subset List.mem_cons_self

/-- **Every node of the blob is reported.** -/
theorem NodeAt.reported (hl : fdt.Reports fdt.fdtWalkInit l) (h : fdt.NodeAt start path payload) :
    ∃ x ∈ l, fdt.structBlock + x.1.structOffset = start ∧ x.2.cursor = payload
      ∧ x.2.path.take x.2.pathLen = path.chars := by
  obtain ⟨names, name, rfl, hopens, hbegins⟩ := h
  obtain ⟨st, tokens, nodes, hrun, rfl, hnames⟩ := hopens.exists_walkRun hrange
  obtain ⟨⟨node, st'⟩, hturn⟩ := hbegins.exists_turn hrange hnames
  have hmore := hbegins.token.lt
  obtain ⟨name', hbegins', hnames', hoffset⟩ := begins_of_fdtWalkTurn hrange hnames hmore hturn
  obtain ⟨htoken, hnext⟩ := hbegins'.token.unique hbegins.token
  cases htoken
  have hcall : fdt.fdtWalkNextNode st = ok (node, st') :=
    Loop.run_of_result (L := fdt.fdtWalkLoop) (decide_eq_true hmore) hturn
  have hle := hrun.cursor_le
  have hend := hrange.end_le
  have hlength := hrange.length_lt
  refine ⟨_, hl.mem_of_turn hrun hcall, ?_, hnext, hnames'.take_pathLen.1⟩
  show fdt.structBlock + node.structOffset = st.cursor
  rw [hoffset, Nat.mod_eq_of_lt (by omega)]
  omega

end Nodes

end Fdt
