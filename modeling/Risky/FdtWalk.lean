import Risky.FdtReads

/-!
# The walk over the nodes is safe

`fdt_walk_next_node` checks everything before it reads it: whatever the blob
holds, it reads inside it, and it writes inside its own arrays
(`Fdt.fdtWalkNextNode_ensures`). So does `fdt_node_payload`
(`Fdt.fdtNodePayload_cases`).
-/

/-- A write inside the array. -/
theorem store_ensures {α : Type} {array : List α} {i : ℕ} {a : α} (h : i < array.length) :
    (store array i a).Ensures (fun array' => array' = array.set i a) := by
  rw [store, if_pos h]
  rfl

/-- A copy inside both arrays. -/
theorem memcpy_ensures {dest src : List UInt8} {i n : ℕ} (hsrc : n ≤ src.length)
    (hdest : i + n ≤ dest.length) :
    (memcpy dest i src n).Ensures (fun dest' => dest'.length = dest.length) := by
  rw [memcpy_eq hsrc hdest]
  show List.length _ = _
  simp only [List.length_append, List.length_take, List.length_drop]
  omega

namespace Fdt

open Outcome

variable {fdt : Fdt} {state : FdtWalkState} {nameLen newLen : ℕ} {path : List UInt8}

/-- **The arrays of a walk are in order.** -/
structure WalkSafe (state : FdtWalkState) : Prop where
  path_length : state.path.length = fdtMaxPath
  frames_length : state.frames.length = fdtMaxDepth
  depth_le : state.depth ≤ fdtMaxDepth
  pathLen_lt : state.pathLen < fdtMaxPath
  frame_pathLen : ∀ frame ∈ state.frames, frame.pathLen < fdtMaxPath
  nul_mem : 0 ∈ state.path

theorem walkSafe_fdtWalkInit (fdt : Fdt) : WalkSafe fdt.fdtWalkInit where
  path_length := List.length_replicate
  frames_length := List.length_replicate
  depth_le := Nat.zero_le _
  pathLen_lt := show 0 < fdtMaxPath by decide
  frame_pathLen frame h := by
    rw [List.eq_of_mem_replicate h]
    decide
  nul_mem := List.mem_replicate.mpr ⟨by decide, rfl⟩

/-- The frame of the open node. -/
theorem WalkSafe.frame_ne_none (h : WalkSafe state) (hdepth : ¬ state.depth = 0) :
    state.frames[state.depth - 1]? ≠ none := by
  have hle := h.depth_le
  have hlen := h.frames_length
  rw [Ne, List.getElem?_eq_none_iff]
  omega

theorem fdtWalkParent_ensures (h : WalkSafe state) :
    (fdtWalkParent state).Ensures (fun _ => True) := by
  unfold fdtWalkParent
  split
  · next hdepth =>
    exact (ensures_access (h.frame_ne_none (by omega))).mono (fun _ _ => trivial)
  · exact trivial

theorem fdtWalkSlash_ensures (hpath : path.length = fdtMaxPath) (hlen : newLen < fdtMaxPath) :
    (fdtWalkSlash path newLen).Ensures
      (fun slashed => slashed.1.length = fdtMaxPath ∧ slashed.2 < fdtMaxPath) := by
  unfold fdtWalkSlash
  have hlast : (fdtWalkLast path newLen).Ensures (fun _ => True) := by
    unfold fdtWalkLast
    split
    · exact trivial
    · refine Ensures.map ((ensures_access ?_).mono (fun _ _ => trivial))
      rw [Ne, List.getElem?_eq_none_iff]
      omega
  refine hlast.bind (fun last _ => ?_)
  split
  · refine (ensures_require _).bind (fun _ hroom => ?_)
    refine (store_ensures (by omega)).bind (fun path' hpath' => ?_)
    rw [hpath']
    exact ⟨by rw [List.length_set, hpath], not_le.mp hroom⟩
  · exact ⟨hpath, hlen⟩

theorem fdtWalkPath_ensures (h : WalkSafe state)
    (hname : nameLen ≤ (fdt.mem.drop state.cursor).length) :
    (fdt.fdtWalkPath state nameLen).Ensures
      (fun path => path.1.length = fdtMaxPath ∧ path.2 < fdtMaxPath ∧ 0 ∈ path.1) := by
  have hpath := h.path_length
  have hmax : 1 < fdtMaxPath := by decide
  unfold fdtWalkPath
  split
  · refine (store_ensures (by omega)).bind (fun path₀ h₀ => ?_)
    subst h₀
    refine (store_ensures (by rw [List.length_set]; omega)).bind (fun path₁ h₁ => ?_)
    subst h₁
    refine ⟨by rw [List.length_set, List.length_set, hpath], hmax, ?_⟩
    exact List.mem_set (by rw [List.length_set]; omega) _
  · refine (fdtWalkSlash_ensures hpath h.pathLen_lt).bind (fun slashed hslashed => ?_)
    obtain ⟨hlen, hlt⟩ := hslashed
    refine (ensures_require _).bind (fun _ hroom => ?_)
    have hfits : slashed.2 + nameLen < fdtMaxPath := not_le.mp hroom
    refine (memcpy_ensures hname (by omega)).bind (fun path₀ h₀ => ?_)
    refine (store_ensures (by omega)).bind (fun path₁ h₁ => ?_)
    subst h₁
    exact ⟨by rw [List.length_set, h₀, hlen], hfits, List.mem_set (by omega) _⟩

/-- **A new node keeps the arrays in order.** -/
theorem fdtWalkBeginNode_ensures (hrange : fdt.InRange) (h : WalkSafe state)
    (hcursor : state.cursor ≤ fdt.structBlockEnd) (tokenPtr : ℕ) :
    (fdt.fdtWalkBeginNode tokenPtr state).Ensures (fun found => WalkSafe found.2) := by
  have hend := hrange.end_le
  unfold fdtWalkBeginNode
  refine (ensures_require _).bind (fun _ hdepth => ?_)
  rcases fdtBoundedStrlen_cases hrange hcursor with ⟨s, hs, hlen, hrun⟩ | hrun
  swap
  · rw [hrun]
    exact trivial
  rw [hrun, ok_bind]
  have hname := hs.length_le
  rw [CString.length_bytes] at hname
  refine (fdtWalkParent_ensures h).bind (fun parent _ => ?_)
  refine (store_ensures (by rw [h.frames_length]; omega)).bind (fun frames hframes => ?_)
  subst hframes
  refine (fdtWalkPath_ensures h (by omega)).bind (fun path hpath => ?_)
  refine (ensures_require _).bind (fun _ _ => ?_)
  refine ⟨hpath.1, by rw [List.length_set, h.frames_length], not_le.mp hdepth, hpath.2.1,
    fun frame hframe => ?_, hpath.2.2⟩
  rcases List.mem_or_eq_of_mem_set hframe with hmem | rfl
  · exact h.frame_pathLen frame hmem
  · exact h.pathLen_lt

theorem fdtWalkEndNode_ensures (h : WalkSafe state) :
    (fdtWalkEndNode state).Ensures WalkSafe := by
  unfold fdtWalkEndNode
  refine (ensures_require _).bind (fun _ hdepth => ?_)
  refine (ensures_access (h.frame_ne_none hdepth)).bind (fun frame hframe => ?_)
  have hlt := h.frame_pathLen frame (List.mem_of_getElem? hframe)
  refine (store_ensures (by rw [h.path_length]; exact hlt)).bind (fun path hpath => ?_)
  subst hpath
  have hle := h.depth_le
  exact ⟨by rw [List.length_set, h.path_length], h.frames_length, by show _ - 1 ≤ _; omega, hlt,
    h.frame_pathLen, List.mem_set (by rw [h.path_length]; exact hlt) _⟩

theorem fdtPropGetU32_ensures {prop : FdtProp} (h : prop.data + prop.len ≤ fdt.mem.length) :
    (fdt.fdtPropGetU32 prop).Ensures (fun _ => True) := by
  unfold fdtPropGetU32
  refine (ensures_require _).bind (fun _ hlen => ?_)
  exact (ensures_access (fdtReadBe32_ne_none (by omega))).mono (fun _ _ => trivial)

/-- A cells property changes the cells only. -/
theorem fdtWalkCells_ensures {propName : List UInt8} {prop : FdtProp} {frame : FdtWalkFrame}
    (hname : 0 ∈ propName) (h : prop.data + prop.len ≤ fdt.mem.length) :
    (fdt.fdtWalkCells propName prop frame).Ensures
      (fun frame' => frame'.pathLen = frame.pathLen) := by
  have hcmp : ∀ s : CString, strcmp propName s.bytes ≠ none := fun s =>
    CString.strcmp_ne_none hname (CString.nul_mem (List.prefix_refl s.bytes))
  unfold fdtWalkCells
  refine (ensures_access (hcmp _)).bind (fun cmp _ => ?_)
  split
  · exact (fdtPropGetU32_ensures h).bind (fun value _ => rfl)
  · refine (ensures_access (hcmp _)).bind (fun cmp _ => ?_)
    split
    · exact (fdtPropGetU32_ensures h).bind (fun value _ => rfl)
    · exact rfl

theorem fdtWalkProp_ensures (hrange : fdt.InRange) (h : WalkSafe state)
    (hcursor : state.cursor ≤ fdt.structBlockEnd) : (fdt.fdtWalkProp state).Ensures WalkSafe := by
  have hend := hrange.end_le
  have hlt := hrange.length_lt
  unfold fdtWalkProp
  refine (ensures_require _).bind (fun _ hroom => ?_)
  rw [sizeDiff_of_le hcursor (by omega)] at hroom
  refine (ensures_access (fdtReadBe32_ne_none (by omega))).bind (fun len _ => ?_)
  refine (ensures_access (fdtReadBe32_ne_none (by omega))).bind (fun nameoff _ => ?_)
  refine (ensures_require _).bind (fun _ hdata => ?_)
  rw [sizeDiff_of_le (by omega) (by omega)] at hdata
  rcases fdtPropNameValid_cases hrange nameoff with ⟨name, hname, hvalid⟩ | ⟨-, hvalid⟩
  swap
  · rw [hvalid]
    exact trivial
  rw [hvalid, access_some, ok_bind]
  refine (ensures_require _).bind (fun _ _ => ?_)
  refine (ensures_require _).bind (fun _ hdepth => ?_)
  refine (ensures_access (h.frame_ne_none hdepth)).bind (fun frame hframe => ?_)
  have hframe_lt := h.frame_pathLen frame (List.mem_of_getElem? hframe)
  have hin : (⟨state.cursor + 8, len⟩ : FdtProp).data + (⟨state.cursor + 8, len⟩ : FdtProp).len
      ≤ fdt.mem.length := by
    show state.cursor + 8 + len ≤ _
    omega
  refine (fdtWalkCells_ensures (CString.nul_mem hname.2) hin).bind (fun frame' hframe' => ?_)
  have hle := h.depth_le
  refine (store_ensures (by rw [h.frames_length]; omega)).bind (fun frames hframes => ?_)
  subst hframes
  refine ⟨h.path_length, by rw [List.length_set, h.frames_length], h.depth_le, h.pathLen_lt,
    fun f hf => ?_, h.nul_mem⟩
  rcases List.mem_or_eq_of_mem_set hf with hmem | rfl
  · exact h.frame_pathLen f hmem
  · exact hframe' ▸ hframe_lt

/-- **A turn of the walk keeps the arrays in order** and reads inside the
blob. -/
theorem fdtWalkTurn_ensures (hrange : fdt.InRange) (h : WalkSafe state)
    (hmore : state.cursor < fdt.structBlockEnd) :
    (fdt.fdtWalkTurn state).Ensures
      (fun next => next.elim WalkSafe (fun found => WalkSafe found.2)) := by
  have hend := hrange.end_le
  have hlt := hrange.length_lt
  unfold fdtWalkTurn
  refine (ensures_require _).bind (fun _ hroom => ?_)
  rw [sizeDiff_of_le hmore.le (by omega)] at hroom
  refine (ensures_access (fdtReadBe32_ne_none (by omega))).bind (fun token _ => ?_)
  have hnext : WalkSafe { state with cursor := state.cursor + 4 } :=
    ⟨h.path_length, h.frames_length, h.depth_le, h.pathLen_lt, h.frame_pathLen, h.nul_mem⟩
  have hcursor : state.cursor + 4 ≤ fdt.structBlockEnd := by omega
  dsimp only
  split
  · exact Ensures.map (fdtWalkBeginNode_ensures hrange hnext hcursor _)
  split
  · exact Ensures.map (fdtWalkEndNode_ensures hnext)
  split
  · exact Ensures.map (fdtWalkProp_ensures hrange hnext hcursor)
  split
  · exact hnext
  · exact trivial

/-- **A turn with room for a token** is what the case of the token does. -/
theorem fdtWalkTurn_of_room (hrange : fdt.InRange) (hroom : state.cursor + 4 ≤ fdt.structBlockEnd)
    {token : ℕ} (htoken : fdtReadBe32 fdt.mem state.cursor = some token) :
    fdt.fdtWalkTurn state = (let next : FdtWalkState := { state with cursor := state.cursor + 4 }
      if token = fdtBeginNode then Sum.inr <$> fdt.fdtWalkBeginNode state.cursor next
      else if token = fdtEndNode then Sum.inl <$> fdtWalkEndNode next
      else if token = fdtPropToken then Sum.inl <$> fdt.fdtWalkProp next
      else if token = fdtNop then pure (Sum.inl next)
      else refused) := by
  have hend := hrange.end_le
  have hlt := hrange.length_lt
  rw [fdtWalkTurn, sizeDiff_of_le (by omega) (by omega), require_of_pos (by omega), ok_bind, htoken,
    access_some, ok_bind]

/-- **The walk is safe.** -/
theorem fdtWalkNextNode_ensures (hrange : fdt.InRange) (h : WalkSafe state) :
    (fdt.fdtWalkNextNode state).Ensures (fun found => WalkSafe found.2) := by
  refine Loop.run_ensures (I := WalkSafe) (fun s hs hmore => ?_) h
  refine (fdtWalkTurn_ensures hrange hs (of_decide_eq_true hmore)).mono (fun next hnext => ?_)
  cases next <;> exact hnext

/-- **The payload of a node** lies inside the structure block, or the call is
refused. -/
theorem fdtNodePayload_cases (hrange : fdt.InRange) (node : FdtNode) :
    (∃ payload ≤ fdt.structBlockEnd, fdt.fdtNodePayload node = ok payload)
      ∨ fdt.fdtNodePayload node = refused := by
  have hend := hrange.end_le
  have hensures : (fdt.fdtNodePayload node).Ensures (· ≤ fdt.structBlockEnd) := by
    unfold fdtNodePayload
    refine (ensures_require _).bind (fun _ hroom => ?_)
    refine (ensures_access (fdtReadBe32_ne_none (by omega))).bind (fun token _ => ?_)
    refine (ensures_require _).bind (fun _ _ => ?_)
    rcases fdtBoundedStrlen_cases hrange (not_lt.mp hroom) with ⟨s, -, -, hrun⟩ | hrun
    · rw [hrun, ok_bind]
      exact (ensures_require _).bind (fun _ hcursor => not_lt.mp hcursor)
    · rw [hrun]
      exact trivial
  cases hrun : fdt.fdtNodePayload node with
  | ok payload => exact Or.inl ⟨payload, hensures.of_ok hrun, rfl⟩
  | refused => exact Or.inr rfl
  | fault => exact absurd hrun hensures.ne_fault

end Fdt
