import Risky.FdtWalk

/-!
# Where the scan for a property reads

The loop of `fdt_get_property` reads a token wherever the structure block has
not ended, also where less than a token of it is left. As long as there is a
whole token, a turn reads inside the blob; at a truncated one it depends on what
follows in the blob (`Fdt.TailReadable`), and this is exactly where the call can
fault (`Fdt.fdtGetProperty_eq_fault_iff`). What it returns is a property that
stands in the block, or one that begins at its truncated end
(`Fdt.fdtGetProperty_eq_ok_iff`).
-/

namespace Fdt

open Outcome

variable {fdt : Fdt} {s : FdtScanState} {name name' : CString} {ptr len : ℕ} {node : FdtNode}

/-! ## Tokens -/

/-- **A property stands at `ptr`**: within the structure block, or at its
truncated end. -/
structure PropAt (fdt : Fdt) (ptr : ℕ) (name : CString) (len : ℕ) : Prop where
  /-- `FDT_PROP`. -/
  token : fdtReadBe32 fdt.mem ptr = some fdtPropToken
  /-- Its length. -/
  len_eq : fdtReadBe32 fdt.mem (ptr + 4) = some len
  /-- Its name. -/
  name_eq : ∃ nameoff, fdtReadBe32 fdt.mem (ptr + 8) = some nameoff ∧ fdt.NameAt nameoff name
  /-- Where its bytes end. -/
  room : ptr + 12 + len ≤ fdt.structBlockEnd ∨ fdt.structBlockEnd < ptr + 4

/-- **What is read at a truncated token is in the memory**: the token, and then
a name or the header of a property if it announces one. -/
def TailReadable (fdt : Fdt) (ptr : ℕ) : Prop :=
  ∃ token, fdtReadBe32 fdt.mem ptr = some token
    ∧ (token = fdtBeginNode → 0 ∈ fdt.mem.drop (ptr + 4))
    ∧ (token = fdtPropToken → ptr + 12 ≤ fdt.mem.length)

section Turn

variable (hrange : fdt.InRange) (hmore : s.cursor < fdt.structBlockEnd)

include hrange

/-- Where the header of a property can be read, the bounds are those of
`PropAt`. -/
theorem sizeDiff_room (hptr : ptr < fdt.structBlockEnd) (hlen : len < 2 ^ 32) :
    (¬ sizeDiff fdt.structBlockEnd (ptr + 4) < 8
        ∧ ¬ sizeDiff fdt.structBlockEnd (ptr + 4 + 8) < len)
      ↔ ptr + 12 + len ≤ fdt.structBlockEnd ∨ fdt.structBlockEnd < ptr + 4 := by
  have hend := hrange.end_le
  have hlt := hrange.length_lt
  by_cases htail : fdt.structBlockEnd < ptr + 4
  · have h₁ := le_sizeDiff_of_lt htail (by omega)
    have h₂ := le_sizeDiff_of_lt (show fdt.structBlockEnd < ptr + 4 + 8 by omega) (by omega)
    exact iff_of_true ⟨by omega, by omega⟩ (Or.inr htail)
  · rw [sizeDiff_of_le (not_lt.mp htail) (by omega)]
    by_cases hroom : ptr + 12 ≤ fdt.structBlockEnd
    · rw [sizeDiff_of_le (by omega) (by omega)]
      omega
    · omega

include hmore

/-- **A property** ends the scan if it is the one asked for, and is skipped
otherwise. -/
theorem fdtScanTurn_of_propAt (h : fdt.PropAt s.cursor name' len) :
    fdt.fdtScanTurn name s = if s.depth = 0 ∧ name' = name then ok (Sum.inr ⟨s.cursor + 12, len⟩)
      else ok (Sum.inl ⟨fdt.fdtAlign4 (s.cursor + 12 + len), s.depth⟩) := by
  obtain ⟨htoken, hlen, ⟨nameoff, hoff, hname⟩, hroom⟩ := h
  obtain ⟨h₁, h₂⟩ := (sizeDiff_room hrange hmore (fdtReadBe32_lt hlen)).mpr hroom
  obtain ⟨r, hr, hiff⟩ := CString.strcmp_eq hname.2 (List.prefix_refl name.bytes)
  unfold fdtScanTurn
  rw [htoken, access_some, ok_bind]
  dsimp only
  rw [if_neg (by decide), if_neg (by decide), if_pos rfl]
  unfold fdtScanProp
  dsimp only
  rw [require_of_pos h₁, ok_bind, hlen, access_some, ok_bind, hoff, access_some, ok_bind,
    require_of_pos h₂, ok_bind, fdtPropNameValid_of_nameAt hrange hname, access_some, ok_bind,
    require_of_pos rfl, ok_bind]
  by_cases hdepth : s.depth = 0
  · rw [if_pos hdepth, hr, access_some, ok_bind]
    by_cases hcmp : r = 0
    · rw [if_pos hcmp, if_pos ⟨hdepth, hiff.mp hcmp⟩]
      rfl
    · rw [if_neg hcmp, if_neg (fun h => hcmp (hiff.mpr h.2))]
      rfl
  · rw [if_neg hdepth, if_neg (fun h => hdepth h.1)]
    rfl

/-- Where no property stands after all, the scan is refused, or faults at the
truncated end. -/
theorem fdtScanTurn_of_not_propAt (htoken : fdtReadBe32 fdt.mem s.cursor = some fdtPropToken)
    (h : ∀ name' len, ¬ fdt.PropAt s.cursor name' len) :
    fdt.fdtScanTurn name s
      = if fdt.mem.length < s.cursor + 12 ∧ fdt.structBlockEnd < s.cursor + 4 then fault
        else refused := by
  have hend := hrange.end_le
  have hlt := hrange.length_lt
  unfold fdtScanTurn
  rw [htoken, access_some, ok_bind]
  dsimp only
  rw [if_neg (by decide), if_neg (by decide), if_pos rfl]
  unfold fdtScanProp
  dsimp only
  by_cases hread : s.cursor + 12 ≤ fdt.mem.length
  · -- the header can be read, so that one of the checks fails
    rw [if_neg (by omega)]
    have hread₁ : fdtReadBe32 fdt.mem (s.cursor + 4) ≠ none := fdtReadBe32_ne_none (by omega)
    have hread₂ : fdtReadBe32 fdt.mem (s.cursor + 4 + 4) ≠ none := fdtReadBe32_ne_none (by omega)
    obtain ⟨len, hlen⟩ := Option.ne_none_iff_exists'.mp hread₁
    obtain ⟨nameoff, hoff⟩ := Option.ne_none_iff_exists'.mp hread₂
    by_cases h₁ : ¬ sizeDiff fdt.structBlockEnd (s.cursor + 4) < 8
    swap
    · rw [require_of_neg h₁]
      rfl
    rw [require_of_pos h₁, ok_bind, hlen, access_some, ok_bind, hoff, access_some, ok_bind]
    by_cases h₂ : ¬ sizeDiff fdt.structBlockEnd (s.cursor + 4 + 8) < len
    swap
    · rw [require_of_neg h₂]
      rfl
    rw [require_of_pos h₂, ok_bind]
    rcases fdtPropNameValid_cases hrange nameoff with ⟨name', hname, -⟩ | ⟨-, hvalid⟩
    · have hroom := (sizeDiff_room hrange hmore (fdtReadBe32_lt hlen)).mp ⟨h₁, h₂⟩
      exact absurd ⟨htoken, hlen, ⟨nameoff, hoff, hname⟩, hroom⟩ (h name' len)
    · rw [hvalid]
      rfl
  · -- a token that sticks out leaves a room that wraps around, and passes the check
    by_cases htail : fdt.structBlockEnd < s.cursor + 4
    · rw [if_pos ⟨by omega, htail⟩]
      have h₁ := le_sizeDiff_of_lt htail (by omega)
      rw [require_of_pos (by omega), ok_bind]
      cases hlen : fdtReadBe32 fdt.mem (s.cursor + 4) with
      | none => rfl
      | some len =>
        rw [access_some, ok_bind, fdtReadBe32_eq_none_iff.mpr (by omega)]
        rfl
    · rw [if_neg (fun h => htail h.2), require_of_neg]
      · rfl
      · rw [sizeDiff_of_le (not_lt.mp htail) (by omega)]
        omega

/-- At the token of a property a turn faults if the header leads out of the memory. -/
theorem fdtScanTurn_prop_eq_fault_iff
    (htoken : fdtReadBe32 fdt.mem s.cursor = some fdtPropToken) :
    fdt.fdtScanTurn name s = fault
      ↔ fdt.structBlockEnd < s.cursor + 4 ∧ fdt.mem.length < s.cursor + 12 := by
  by_cases h : ∃ name' len, fdt.PropAt s.cursor name' len
  · obtain ⟨name', len, hpropAt⟩ := h
    obtain ⟨nameoff, hoff, -⟩ := hpropAt.name_eq
    have hread : s.cursor + 12 ≤ fdt.mem.length := by
      by_contra hno
      rw [fdtReadBe32_eq_none_iff.mpr (by omega)] at hoff
      exact absurd hoff (by simp)
    rw [fdtScanTurn_of_propAt hrange hmore hpropAt]
    exact iff_of_false (by split <;> simp) (fun hbad => absurd hbad.2 (not_lt.mpr hread))
  · have hno : ∀ name' len, ¬ fdt.PropAt s.cursor name' len := fun name' len h' =>
      h ⟨name', len, h'⟩
    rw [fdtScanTurn_of_not_propAt hrange hmore htoken hno]
    split
    · next h => exact iff_of_true rfl ⟨h.2, h.1⟩
    · next h => exact iff_of_false (by simp) (fun h' => h ⟨h'.2, h'.1⟩)

omit hmore in
/-- At the token of a node that begins it does if no name ends behind it. -/
theorem fdtScanTurn_beginNode_eq_fault_iff
    (htoken : fdtReadBe32 fdt.mem s.cursor = some fdtBeginNode) :
    fdt.fdtScanTurn name s = fault
      ↔ fdt.structBlockEnd < s.cursor + 4 ∧ 0 ∉ fdt.mem.drop (s.cursor + 4) := by
  have hlt := hrange.length_lt
  have hread : s.cursor + 4 ≤ fdt.mem.length := by
    by_contra hno
    rw [fdtReadBe32_eq_none_iff.mpr (by omega)] at htoken
    exact absurd htoken (by simp)
  unfold fdtScanTurn
  rw [htoken, access_some, ok_bind]
  dsimp only
  rw [if_pos rfl]
  by_cases hcut : fdt.structBlockEnd < s.cursor + 4
  · rw [fdtBoundedStrlen_of_lt hrange hcut (by omega)]
    by_cases hnul : 0 ∈ fdt.mem.drop (s.cursor + 4)
    · rw [if_pos hnul]
      exact iff_of_false (by simp) (fun h => h.2 hnul)
    · rw [if_neg hnul]
      exact iff_of_true rfl ⟨hcut, hnul⟩
  · refine iff_of_false ?_ (fun h => hcut h.1)
    rcases fdtBoundedStrlen_cases hrange (not_lt.mp hcut) with ⟨str, -, -, hrun⟩ | hrun
    · rw [hrun]
      simp
    · rw [hrun]
      simp

omit hrange hmore in
/-- At any other token a turn reads nothing more. -/
theorem fdtScanTurn_ne_fault {token : ℕ} (htoken : fdtReadBe32 fdt.mem s.cursor = some token)
    (hbegin : token ≠ fdtBeginNode) (hprop : token ≠ fdtPropToken) :
    fdt.fdtScanTurn name s ≠ fault := by
  unfold fdtScanTurn
  rw [htoken, access_some, ok_bind]
  dsimp only
  rw [if_neg hbegin]
  by_cases hend : token = fdtEndNode
  · rw [if_pos hend, ne_eq, bind_eq_fault]
    simp
  · rw [if_neg hend, if_neg hprop]
    split <;> simp

/-- **A turn faults at a truncated token** that leads out of the memory, and
only there. -/
theorem fdtScanTurn_eq_fault_iff :
    fdt.fdtScanTurn name s = fault
      ↔ fdt.structBlockEnd < s.cursor + 4 ∧ ¬ fdt.TailReadable s.cursor := by
  have hend := hrange.end_le
  unfold TailReadable
  cases htoken : fdtReadBe32 fdt.mem s.cursor with
  | none =>
    have hlen := fdtReadBe32_eq_none_iff.mp htoken
    unfold fdtScanTurn
    rw [htoken]
    refine iff_of_true rfl ⟨by omega, ?_⟩
    rintro ⟨token, h, -⟩
    exact absurd h (by simp)
  | some token =>
    have hne : fdtBeginNode ≠ fdtPropToken := by decide
    simp only [Option.some.injEq, exists_eq_left']
    by_cases hprop : token = fdtPropToken
    · subst hprop
      rw [fdtScanTurn_prop_eq_fault_iff hrange hmore htoken]
      simp only [hne.symm, false_implies, true_and, forall_const, not_le]
    by_cases hbegin : token = fdtBeginNode
    · subst hbegin
      rw [fdtScanTurn_beginNode_eq_fault_iff hrange htoken]
      simp only [hne, false_implies, and_true, forall_const]
    · refine iff_of_false (fdtScanTurn_ne_fault htoken hbegin hprop) (fun h => h.2 ?_)
      exact ⟨fun h => absurd h hbegin, fun h => absurd h hprop⟩

/-- **A turn finds the property that stands there**, if it is one of the node
itself. -/
theorem fdtScanTurn_eq_result_iff {prop : FdtProp} :
    fdt.fdtScanTurn name s = ok (Sum.inr prop)
      ↔ s.depth = 0 ∧ fdt.PropAt s.cursor name prop.len ∧ prop.data = s.cursor + 12 := by
  constructor
  · intro h
    have htoken : fdtReadBe32 fdt.mem s.cursor = some fdtPropToken := by
      unfold fdtScanTurn at h
      obtain ⟨token, htoken, h⟩ := bind_eq_ok.mp h
      rw [access_eq_ok] at htoken
      dsimp only at h
      split at h
      · obtain ⟨_, -, h⟩ := bind_eq_ok.mp h
        exact absurd h (by simp)
      split at h
      · obtain ⟨_, -, h⟩ := bind_eq_ok.mp h
        exact absurd h (by simp)
      split at h
      · next hprop => rw [htoken, hprop]
      split at h
      · exact absurd h (by simp)
      · exact absurd h (by simp)
    by_cases hprop : ∃ name' len, fdt.PropAt s.cursor name' len
    · obtain ⟨name', len, hpropAt⟩ := hprop
      rw [fdtScanTurn_of_propAt hrange hmore hpropAt] at h
      split at h
      · next hfound =>
        obtain ⟨hdepth, rfl⟩ := hfound
        rw [ok.injEq, Sum.inr.injEq] at h
        subst h
        exact ⟨hdepth, hpropAt, rfl⟩
      · exact absurd h (by simp)
    · have hno : ∀ name' len, ¬ fdt.PropAt s.cursor name' len := fun name' len h' =>
        hprop ⟨name', len, h'⟩
      rw [fdtScanTurn_of_not_propAt hrange hmore htoken hno] at h
      split at h <;> exact absurd h (by simp)
  · rintro ⟨hdepth, hpropAt, hdata⟩
    rw [fdtScanTurn_of_propAt hrange hmore hpropAt, if_pos ⟨hdepth, rfl⟩, ← hdata]

end Turn

/-! ## The whole scan -/

/-- **The scan of a node gets to a state**, on its way to a property. -/
def Scans (fdt : Fdt) (node : FdtNode) (name : CString) (s : FdtScanState) : Prop :=
  ∃ payload, fdt.fdtNodePayload node = ok payload ∧ (fdt.fdtScanLoop name).Turns ⟨payload, 0⟩ s
    ∧ s.cursor < fdt.structBlockEnd

/-- **The call faults** exactly if the scan gets to a truncated token that
leads out of the memory. -/
theorem fdtGetProperty_eq_fault_iff (hrange : fdt.InRange) :
    fdt.fdtGetProperty node name = fault
      ↔ ∃ s, fdt.Scans node name s ∧ fdt.structBlockEnd < s.cursor + 4
          ∧ ¬ fdt.TailReadable s.cursor := by
  unfold fdtGetProperty
  rw [bind_eq_fault]
  constructor
  · rintro (hpayload | ⟨payload, hpayload, hrun⟩)
    · rcases fdtNodePayload_cases hrange node with ⟨payload, -, h⟩ | h <;>
        exact absurd (hpayload.symm.trans h) (by simp)
    · obtain ⟨s, hturns, hmore, hturn⟩ := Loop.run_eq_fault_iff.mp hrun
      have hlt : s.cursor < fdt.structBlockEnd := of_decide_eq_true hmore
      exact ⟨s, ⟨payload, hpayload, hturns, hlt⟩, (fdtScanTurn_eq_fault_iff hrange hlt).mp hturn⟩
  · rintro ⟨s, ⟨payload, hpayload, hturns, hlt⟩, hbad⟩
    exact Or.inr ⟨payload, hpayload, Loop.run_eq_fault_iff.mpr ⟨s, hturns, decide_eq_true hlt,
      (fdtScanTurn_eq_fault_iff hrange hlt).mpr hbad⟩⟩

/-- **The node has a property**, which the scan comes to. -/
def HasProp (fdt : Fdt) (node : FdtNode) (name : CString) (ptr len : ℕ) : Prop :=
  fdt.Scans node name ⟨ptr, 0⟩ ∧ fdt.PropAt ptr name len

/-- **The call returns** exactly the property of the node. -/
theorem fdtGetProperty_eq_ok_iff (hrange : fdt.InRange) {prop : FdtProp} :
    fdt.fdtGetProperty node name = ok prop
      ↔ ∃ ptr, fdt.HasProp node name ptr prop.len ∧ prop.data = ptr + 12 := by
  unfold fdtGetProperty
  rw [bind_eq_ok]
  constructor
  · rintro ⟨payload, hpayload, hrun⟩
    obtain ⟨⟨ptr, depth⟩, hturns, hmore, hturn⟩ := Loop.run_eq_ok_iff.mp hrun
    have hlt : ptr < fdt.structBlockEnd := of_decide_eq_true hmore
    obtain ⟨hdepth, hprop, hdata⟩ := (fdtScanTurn_eq_result_iff hrange hlt).mp hturn
    change depth = 0 at hdepth
    subst hdepth
    exact ⟨ptr, ⟨⟨payload, hpayload, hturns, hlt⟩, hprop⟩, hdata⟩
  · rintro ⟨ptr, ⟨⟨payload, hpayload, hturns, hlt⟩, hprop⟩, hdata⟩
    exact ⟨payload, hpayload, Loop.run_eq_ok_iff.mpr ⟨⟨ptr, 0⟩, hturns, decide_eq_true hlt,
      (fdtScanTurn_eq_result_iff hrange hlt).mpr ⟨rfl, hprop, hdata⟩⟩⟩

end Fdt
