import Risky.FdtRoundTrip

/-!
# Compatible nodes

`fdt_node_has_compatible` goes through the entries of a `compatible` property with
`strlen`, which knows nothing of where the property ends. An entry that the property
ends in the middle of is never taken for one (`fdtNodeHasCompatible_eq`), but where
the search comes to such an entry it goes on to the next NUL in memory, if there is
one (`judgesCompatible_iff`).

In a flattened tree whose `compatible` properties are lists of strings,
`fdt_find_compatible` therefore finds the first node in document order whose list
has the string, as `fdt_find_node_by_path` does (`Flattens.fdtFindCompatible_eq`).
-/

/-- **The entries of a list of strings**: what the bytes are cut into at their NULs,
but for what follows the last of them. -/
def entries (bytes : List UInt8) : List (List UInt8) := (bytes.splitOn 0).dropLast

section Entries

variable {c s : CString} {bytes rest : List UInt8}

/-- The first entry. -/
theorem mem_entries_append :
    c.chars ∈ entries (s.bytes ++ rest) ↔ c = s ∨ c.chars ∈ entries rest := by
  have hsplit : (s.bytes ++ rest).splitOn 0 = s.chars :: rest.splitOn 0 := by
    rw [CString.bytes, List.append_assoc, List.singleton_append]
    exact List.splitOn_append_cons_of_forall_mem_beq_eq_false
      (fun x hx => beq_eq_false_iff_ne.mpr (fun h : x = 0 => s.nul_notMem (h ▸ hx))) 0 rfl rest
  rw [entries, hsplit, List.dropLast_cons_of_ne_nil (List.splitOn_ne_nil 0 rest), List.mem_cons]
  exact or_congr_left ⟨CString.ext, congrArg CString.chars⟩

/-- What is not terminated is no entry. -/
theorem notMem_entries (h : 0 ∉ bytes) : c.chars ∉ entries bytes := by
  rw [entries, List.splitOn_eq_singleton h]
  exact List.not_mem_nil

end Entries

namespace Fdt

open Outcome

variable {fdt : Fdt} {node : FdtNode} {prop : FdtProp} {c : CString} {offset : ℕ}

/-! ## The entries of a property -/

/-- The last byte of the property is NUL, or one behind it. -/
def NulBehind (fdt : Fdt) (prop : FdtProp) : Prop := 0 ∈ fdt.mem.drop (prop.data + (prop.len - 1))

instance (fdt : Fdt) (prop : FdtProp) : Decidable (fdt.NulBehind prop) :=
  inferInstanceAs (Decidable (_ ∈ _))

/-- What is left of the property. -/
theorem drop_propBytes (fdt : Fdt) (prop : FdtProp) (offset : ℕ) :
    (fdt.propBytes prop).drop offset
      = (fdt.mem.drop (prop.data + offset)).take (prop.len - offset) := by
  rw [propBytes, List.drop_take, List.drop_drop]

theorem nulBehind_iff (hlt : offset < prop.len) :
    fdt.NulBehind prop
      ↔ 0 ∈ (fdt.mem.drop (prop.data + offset)).drop (prop.len - 1 - offset) := by
  rw [List.drop_drop, show prop.data + offset + (prop.len - 1 - offset)
    = prop.data + (prop.len - 1) by omega]
  rfl

section Entry

variable {s : CString} (hs : s.bytes <+: fdt.mem.drop (prop.data + offset))

include hs

/-- The NUL of an entry that reaches the last byte of the property. -/
theorem nulBehind_of_entry (hlt : offset < prop.len) (hreach : prop.len - 1 - offset ≤ s.length) :
    fdt.NulBehind prop :=
  (nulBehind_iff hlt).mpr (CString.nul_mem_drop hs hreach)

/-- An entry that the property ends in the middle of. -/
theorem nul_notMem_drop_propBytes (hge : prop.len ≤ offset + s.length) :
    0 ∉ (fdt.propBytes prop).drop offset := by
  obtain ⟨rest, hrest⟩ := hs
  have hshort : prop.len - offset ≤ s.chars.length := Nat.sub_le_iff_le_add'.mpr hge
  rw [drop_propBytes, ← hrest, CString.bytes, List.append_assoc,
    List.take_append_of_le_length hshort]
  exact fun h => s.nul_notMem (List.mem_of_mem_take h)

/-- An entry that ends in the property. -/
theorem drop_propBytes_entry (hin : offset + s.length < prop.len) :
    (fdt.propBytes prop).drop offset
      = s.bytes ++ (fdt.propBytes prop).drop (offset + s.length + 1) := by
  have hlen := s.length_bytes
  obtain ⟨rest, hrest⟩ := hs
  have hdrop : (fdt.propBytes prop).drop (offset + s.length + 1)
      = ((fdt.propBytes prop).drop offset).drop s.bytes.length := by
    rw [List.drop_drop, hlen, Nat.add_assoc]
  rw [hdrop, drop_propBytes, ← hrest, List.take_append, List.take_of_length_le (by omega),
    List.drop_left]

/-- **One turn of the search**. -/
theorem fdtEntryLoop_turn (c : CString) :
    (fdt.fdtEntryLoop prop c).turn offset
      = if offset + s.length ≥ prop.len then refused
        else if s = c then ok (Sum.inr ()) else ok (Sum.inl (offset + s.length + 1)) := by
  obtain ⟨r, hr, hiff⟩ := CString.strcmp_eq hs (List.prefix_refl c.bytes)
  show (access (strlen (fdt.mem.drop (prop.data + offset))) >>= _) = _
  rw [CString.strlen_eq hs, access_some, ok_bind]
  split
  · next hge =>
    rw [require_of_neg (not_not_intro hge)]
    rfl
  · next hin =>
    rw [require_of_pos hin, ok_bind, hr, access_some, ok_bind]
    by_cases hc : s = c
    · rw [if_pos (hiff.mpr hc), if_pos hc]
      rfl
    · rw [if_neg (mt hiff.mp hc), if_neg hc]
      rfl

end Entry

/-- **The search from an entry on**. -/
theorem entryLoop_eq (c : CString) (hoffset : offset ≤ prop.len) :
    (fdt.fdtEntryLoop prop c).run offset
      = if c.chars ∈ entries ((fdt.propBytes prop).drop offset) then ok ()
        else if offset = prop.len ∨ fdt.NulBehind prop then refused else fault := by
  induction hn : prop.len - offset using Nat.strong_induction_on generalizing offset with
  | _ n ih =>
    by_cases hend : offset = prop.len
    · have hnil : (fdt.propBytes prop).drop offset = [] := by
        rw [drop_propBytes, hend, Nat.sub_self, List.take_zero]
      rw [hnil, if_neg (notMem_entries List.not_mem_nil), if_pos (Or.inl hend), Loop.run_eq]
      exact if_neg (by simp [fdtEntryLoop, hend])
    have hlt : offset < prop.len := lt_of_le_of_ne hoffset hend
    have hmore : (fdt.fdtEntryLoop prop c).more offset = true := decide_eq_true hlt
    by_cases hnul : 0 ∈ fdt.mem.drop (prop.data + offset)
    swap
    · -- there is no NUL in what is left of the memory
      have hnone : 0 ∉ (fdt.propBytes prop).drop offset := by
        rw [drop_propBytes]
        exact fun h => hnul (List.mem_of_mem_take h)
      have hbehind : ¬ fdt.NulBehind prop := by
        rw [nulBehind_iff hlt]
        exact fun h => hnul (List.mem_of_mem_drop h)
      rw [if_neg (notMem_entries hnone), if_neg (not_or_intro hend hbehind)]
      refine Loop.run_of_fault hmore ?_
      show (access (strlen (fdt.mem.drop (prop.data + offset))) >>= _) = _
      rw [CString.strlen_eq_none_iff.mpr hnul]
      rfl
    obtain ⟨s, hs⟩ := CString.exists_prefix hnul
    have hturn := fdtEntryLoop_turn hs c
    by_cases hge : offset + s.length ≥ prop.len
    · -- the property ends in the middle of the entry
      rw [if_pos hge] at hturn
      rw [if_neg (notMem_entries (nul_notMem_drop_propBytes hs hge)),
        if_pos (Or.inr (nulBehind_of_entry hs hlt (by omega)))]
      exact Loop.run_of_refused hturn
    rw [if_neg hge] at hturn
    rw [drop_propBytes_entry hs (not_le.mp hge)]
    by_cases hc : s = c
    · rw [if_pos (mem_entries_append.mpr (Or.inl hc.symm))]
      rw [if_pos hc] at hturn
      exact Loop.run_of_result hmore hturn
    · rw [if_neg hc] at hturn
      rw [Loop.run_of_next hmore hturn, ih _ (by omega) (by omega) rfl]
      have hmem_iff : c.chars
          ∈ entries (s.bytes ++ (fdt.propBytes prop).drop (offset + s.length + 1))
          ↔ c.chars ∈ entries ((fdt.propBytes prop).drop (offset + s.length + 1)) :=
        mem_entries_append.trans (or_iff_right (Ne.symm hc))
      -- where the property ends with the entry, the NUL of the entry is its last byte
      have hlast_iff : (offset + s.length + 1 = prop.len ∨ fdt.NulBehind prop)
          ↔ (offset = prop.len ∨ fdt.NulBehind prop) :=
        ⟨fun h => Or.inr (h.elim (fun _ => nulBehind_of_entry hs hlt (by omega)) id),
          fun h => Or.inr (h.resolve_left hend)⟩
      simp only [hmem_iff, hlast_iff]

/-- **A node is compatible with the entries of its property**, unless the search goes
out of the memory. -/
theorem fdtNodeHasCompatible_eq (hprop : fdt.fdtGetProperty node compatibleName = ok prop)
    (c : CString) :
    fdt.fdtNodeHasCompatible node c
      = if c.chars ∈ entries (fdt.propBytes prop) then ok ()
        else if prop.len = 0 ∨ fdt.NulBehind prop then refused else fault := by
  rw [fdtNodeHasCompatible, hprop, ok_bind, entryLoop_eq c (Nat.zero_le _), List.drop_zero]
  simp only [eq_comm]

/-- **What is asked of `fdt_node_has_compatible`**: an answer that depends on the bytes
of the property alone. -/
def JudgesCompatible (fdt : Fdt) (node : FdtNode) (prop : FdtProp) (c : CString) : Prop :=
  fdt.fdtNodeHasCompatible node c
    = if c.chars ∈ entries (fdt.propBytes prop) then ok () else refused

/-- **The answer is the right one exactly if the search comes to an end**: at the
string, at the end of the property, or at a NUL behind an entry that is not
terminated. -/
theorem judgesCompatible_iff (hprop : fdt.fdtGetProperty node compatibleName = ok prop)
    (c : CString) :
    fdt.JudgesCompatible node prop c
      ↔ c.chars ∈ entries (fdt.propBytes prop) ∨ prop.len = 0 ∨ fdt.NulBehind prop := by
  unfold JudgesCompatible
  rw [fdtNodeHasCompatible_eq hprop]
  by_cases hc : c.chars ∈ entries (fdt.propBytes prop)
  · rw [if_pos hc]
    exact iff_of_true (if_pos hc).symm (Or.inl hc)
  · rw [if_neg hc, if_neg hc]
    by_cases hbehind : prop.len = 0 ∨ fdt.NulBehind prop
    · exact iff_of_true (if_pos hbehind) (Or.inr hbehind)
    · rw [if_neg hbehind]
      exact iff_of_false (by simp) (not_or_intro hc hbehind)

/-- A blob that ends with a property, whose only entry is not terminated. -/
def openBlob : List UInt8 :=
  FdtHeader.bytes ⟨76, 52, 40, 40, 17, 16, 0, 12, 24⟩ ++ compatibleName.bytes ++ [0]
    ++ FdtToken.bytes (FdtToken.beginNode ⟨[], nul_notMem_nil⟩)
    ++ FdtToken.bytes (FdtToken.prop 0 ⟨compatibleName, asciiBytes "abcd"⟩)

/-- What `fdt_init` makes of it. -/
def openFdt : Fdt := ⟨openBlob, 4096, 52, 76, 40, 12⟩

theorem fdtGetProperty_openFdt :
    openFdt.fdtGetProperty ⟨0, 2, 1⟩ compatibleName = ok ⟨72, 4⟩ := by
  decide +kernel

theorem judgesCompatible_iff_openFdt :
    openFdt.JudgesCompatible ⟨0, 2, 1⟩ ⟨72, 4⟩ compatibleName
      ↔ compatibleName.chars ∈ entries (openFdt.propBytes ⟨72, 4⟩) ∨ 4 = 0
        ∨ openFdt.NulBehind ⟨72, 4⟩ :=
  judgesCompatible_iff fdtGetProperty_openFdt compatibleName

/-- **A search that leaves the blob**, for any string: the property has no entries. -/
theorem not_judgesCompatible_openFdt :
    fdtInit openBlob 4096 = ok openFdt
      ∧ openFdt.fdtFindNodeByPath ⟨[slash], by decide⟩ = ok ⟨0, 2, 1⟩
      ∧ openFdt.fdtGetProperty ⟨0, 2, 1⟩ compatibleName = ok ⟨72, 4⟩
      ∧ entries (openFdt.propBytes ⟨72, 4⟩) = []
      ∧ openFdt.fdtNodeHasCompatible ⟨0, 2, 1⟩ compatibleName = fault
      ∧ ¬ openFdt.JudgesCompatible ⟨0, 2, 1⟩ ⟨72, 4⟩ compatibleName := by
  have hinit : fdtInit openBlob 4096 = ok openFdt := rfl
  have hfind : openFdt.fdtFindNodeByPath ⟨[slash], by decide⟩ = ok ⟨0, 2, 1⟩ := by
    decide +kernel
  have hentries : entries (openFdt.propBytes ⟨72, 4⟩) = [] := by decide +kernel
  have hfault : openFdt.fdtNodeHasCompatible ⟨0, 2, 1⟩ compatibleName = fault := by decide +kernel
  refine ⟨hinit, hfind, fdtGetProperty_openFdt, hentries, hfault, fun h => ?_⟩
  rw [JudgesCompatible, hfault, hentries] at h
  cases h

end Fdt

/-! ## The nodes of a tree -/

/-- **A node's list of compatible strings** has the string. -/
def HasCompatible (props : List DtProp) (c : CString) : Prop :=
  ∃ p ∈ props, p.name = compatibleName ∧ c.chars ∈ entries p.value

instance (props : List DtProp) (c : CString) : Decidable (HasCompatible props c) :=
  inferInstanceAs (Decidable (∃ p ∈ props, _))

/-- **A list of strings**, each with its NUL. -/
def IsStringList (value : List UInt8) : Prop :=
  ∃ strings : List CString, value = strings.flatMap CString.bytes

/-- The properties `compatible` are lists of strings. -/
def DeviceTree.CompatibleLists (T : DeviceTree) : Prop :=
  ∀ n ∈ T.nodes, ∀ p ∈ n.props, p.name = compatibleName → IsStringList p.value

/-- The entries of a list of strings are the strings. -/
theorem mem_entries_flatMap {c : CString} (strings : List CString) :
    c.chars ∈ entries (strings.flatMap CString.bytes) ↔ c ∈ strings := by
  induction strings with
  | nil => exact iff_of_false (notMem_entries List.not_mem_nil) List.not_mem_nil
  | cons s strings ih => rw [List.flatMap_cons, mem_entries_append, ih, List.mem_cons]

/-- A list of strings ends in NUL. -/
theorem IsStringList.nul_mem {value mem : List UInt8} (h : IsStringList value)
    (hvalue : value <+: mem) : value.length = 0 ∨ 0 ∈ mem.drop (value.length - 1) := by
  obtain ⟨strings, rfl⟩ := h
  obtain ⟨rest, rfl⟩ := hvalue
  rcases List.eq_nil_or_concat strings with rfl | ⟨strings, s, rfl⟩
  · exact Or.inl rfl
  · refine Or.inr ?_
    rw [List.concat_eq_append, List.flatMap_append, List.flatMap_singleton, CString.bytes,
      ← List.append_assoc, List.length_append, List.length_singleton, Nat.add_sub_cancel,
      List.append_assoc, List.drop_left]
    exact List.mem_append_left _ (List.mem_singleton_self 0)

namespace Fdt

open Outcome

variable {fdt : Fdt} {ts : List FdtToken} {c : CString}

section Tree

variable {T : DeviceTree} (hT : T.Valid) (hlists : T.CompatibleLists) (hrange : fdt.InRange)
  (hstands : fdt.Stands fdt.structBlock ts) (hevents : ts.filterMap FdtToken.event = T.events)

include hT hlists hrange hstands hevents

/-- **A node of the tree is compatible** with the strings of its list. -/
theorem Stands.fdtNodeHasCompatible_eq {offset : ℕ} {n : DtNode}
    (h : (offset, n) ∈ (starts 0 ts).zip T.nodes) (c : CString) :
    fdt.fdtNodeHasCompatible ⟨offset, n.parentAddressCells, n.parentSizeCells⟩ c
      = if HasCompatible n.props c then ok () else refused := by
  have hn := (List.of_mem_zip h).2
  have hfinds := hstands.finds hT hrange hevents h compatibleName
  by_cases hp : ∃ p ∈ n.props, p.name = compatibleName
  · obtain ⟨p, hp, hname⟩ := hp
    have hfind := find?_name (hT.nodes n hn).props_nodup hp
    rw [hname] at hfind
    rw [Finds, hfind] at hfinds
    obtain ⟨data, hget, hvalue⟩ := hfinds
    have hbytes : fdt.propBytes ⟨data, p.value.length⟩ = p.value :=
      (List.prefix_iff_eq_take.mp hvalue).symm
    have hbehind : p.value.length = 0 ∨ fdt.NulBehind ⟨data, p.value.length⟩ := by
      rw [NulBehind, ← List.drop_drop]
      exact (hlists n hn p hp hname).nul_mem hvalue
    -- the names of a node's properties differ, so that there is only this list
    have hhas : HasCompatible n.props c ↔ c.chars ∈ entries p.value := by
      constructor
      · rintro ⟨q, hq, hqname, hmem⟩
        have hq' := find?_name (hT.nodes n hn).props_nodup hq
        rw [hqname, hfind] at hq'
        cases hq'
        exact hmem
      · intro hmem
        exact ⟨p, hp, hname, hmem⟩
    rw [Fdt.fdtNodeHasCompatible_eq hget, hbytes, if_pos hbehind]
    simp only [hhas]
  · have hnone : n.props.find? (fun p => p.name = compatibleName) = none := by
      rw [List.find?_eq_none]
      exact fun p hmem hname => hp ⟨p, hmem, of_decide_eq_true hname⟩
    have hhas : ¬ HasCompatible n.props c := by
      rintro ⟨p, hmem, hname, -⟩
      exact hp ⟨p, hmem, hname⟩
    rw [Finds, hnone] at hfinds
    rw [fdtNodeHasCompatible, hfinds, if_neg hhas]
    rfl

/-- **The search for a string** goes through the nodes of the tree. -/
theorem Stands.fdtFindCompatible_eq_firstOf (c : CString) :
    fdt.fdtFindCompatible c
      = firstOf (fun r => decide (HasCompatible r.2.props c))
          ((starts 0 ts).zip (T.nodes.map DtNode.report)) := by
  have hread : Readable [] (ts.filterMap FdtToken.event) := by
    rw [hevents]
    exact hT.readable
  have hcursor : fdt.fdtWalkInit.cursor - fdt.structBlock = 0 := Nat.sub_self _
  have hreports : (starts (fdt.fdtWalkInit.cursor - fdt.structBlock) ts).zip
      (reports [] (ts.filterMap FdtToken.event))
      = (starts 0 ts).zip (T.nodes.map DtNode.report) := by
    rw [hcursor, reports_of_events hT hevents]
  rw [← hreports]
  refine nodeLoop_eq_firstOf hrange (show fdt.Stands fdt.fdtWalkInit.cursor ts from hstands) le_rfl
    (walkAt_fdtWalkInit fdt) hread (fun r hr o stack state _ _ => ?_)
  rw [hreports, List.zip_map_right] at hr
  obtain ⟨⟨offset, n⟩, h, rfl⟩ := List.mem_map.mp hr
  obtain ⟨-, name, ts', hnode, -⟩ := hstands.node hT hevents h
  have hlt := hnode.lt
  have hend := hrange.end_le
  have hlength := hrange.length_lt
  -- the walk reports the offset as a `uint32_t`
  have hoffset : offset % 2 ^ 32 = offset := Nat.mod_eq_of_lt (by omega)
  show Option.isSome <$> attempt (fdt.fdtNodeHasCompatible
    ⟨offset % 2 ^ 32, n.parentAddressCells, n.parentSizeCells⟩ c) = _
  rw [hoffset, hstands.fdtNodeHasCompatible_eq hT hlists hrange hevents h c]
  show _ = ok (decide (HasCompatible n.props c))
  by_cases hhas : HasCompatible n.props c
  · rw [if_pos hhas, decide_eq_true hhas]
    rfl
  · rw [if_neg hhas, decide_eq_false hhas]
    rfl

end Tree

/-- The first of some nodes that passes a test, as the search for its path returns it. -/
theorem firstOf_zip {offsets : List ℕ} {nodes : List DtNode} {test : ℕ × Report → Bool}
    {P : DtNode → Bool} (hlen : offsets.length = nodes.length)
    (htest : ∀ offset n, test (offset, n.report) = P n) {find : DtNode → Outcome FdtNode}
    (hfind : ∀ offset n, (offset, n) ∈ offsets.zip nodes →
      find n = ok ⟨offset % 2 ^ 32, n.parentAddressCells, n.parentSizeCells⟩) :
    firstOf test (offsets.zip (nodes.map DtNode.report))
      = match nodes.find? P with
        | some n => find n
        | none => refused := by
  induction nodes generalizing offsets with
  | nil =>
    rw [List.map_nil, List.zip_nil_right]
    rfl
  | cons n nodes ih =>
    cases offsets with
    | nil => exact absurd hlen (by simp)
    | cons offset offsets =>
      rw [List.map_cons, List.zip_cons_cons, firstOf_cons, htest]
      by_cases hP : P n = true
      · rw [if_pos hP, List.find?_cons_of_pos hP]
        exact (hfind offset n List.mem_cons_self).symm
      · rw [if_neg hP, List.find?_cons_of_neg hP]
        exact ih (Nat.succ.inj hlen) (fun offset n h => hfind offset n (List.mem_cons_of_mem _ h))

end Fdt

/-- **`fdt_find_compatible` on a flattened tree** finds the first node in document order
whose list has the string, as the search for the path of that node returns it, and
nothing if there is no such node. -/
theorem Flattens.fdtFindCompatible_eq {T : DeviceTree} {ts : List FdtToken} {header : FdtHeader}
    {mem : List UInt8} {base : ℕ} (hT : T.Valid) (hlists : T.CompatibleLists)
    (h : Flattens T ts header mem base) (c : CString) :
    fdtInit mem base = Outcome.ok (header.fdt mem base)
      ∧ (header.fdt mem base).fdtFindCompatible c
        = (match T.nodes.find? (fun n => HasCompatible n.props c) with
          | some n => (header.fdt mem base).fdtFindNodeByPath n.path
          | none => Outcome.refused)
      ∧ ((∃ node, (header.fdt mem base).fdtFindCompatible c = Outcome.ok node)
        ↔ ∃ n ∈ T.nodes, HasCompatible n.props c) := by
  have hdecodes : (header.fdt mem base).Decodes T (starts 0 ts) := (h.decodes hT).2
  have hfind : ∀ offset n, (offset, n) ∈ (starts 0 ts).zip T.nodes →
      (header.fdt mem base).fdtFindNodeByPath n.path
        = Outcome.ok ⟨offset % 2 ^ 32, n.parentAddressCells, n.parentSizeCells⟩ := by
    intro offset n hmem
    obtain ⟨-, name, ts', hnode, -⟩ := h.stands.node hT h.events hmem
    have hlt := hnode.lt
    have hend := h.inRange.end_le
    have hlength := h.inRange.length_lt
    rw [hdecodes.find offset n hmem, Nat.mod_eq_of_lt (by omega)]
  -- both searches report the node that begins at the same token
  have hsearch : (header.fdt mem base).fdtFindCompatible c
      = match T.nodes.find? (fun n => HasCompatible n.props c) with
        | some n => (header.fdt mem base).fdtFindNodeByPath n.path
        | none => Outcome.refused :=
    (h.stands.fdtFindCompatible_eq_firstOf hT hlists h.inRange h.events c).trans
      (Fdt.firstOf_zip hdecodes.length_eq (fun _ _ => rfl) hfind)
  refine ⟨h.fdtInit_eq, hsearch, ?_⟩
  rw [hsearch]
  cases hfirst : T.nodes.find? (fun n => HasCompatible n.props c) with
  | none =>
    rw [List.find?_eq_none] at hfirst
    exact iff_of_false (by simp) (fun ⟨n, hn, hhas⟩ => hfirst n hn (decide_eq_true hhas))
  | some n =>
    have hn := List.mem_of_find?_eq_some hfirst
    obtain ⟨offset, hmem⟩ : ∃ offset, (offset, n) ∈ (starts 0 ts).zip T.nodes := by
      obtain ⟨i, hi, rfl⟩ := List.getElem_of_mem hn
      have hi' : i < (starts 0 ts).length := hdecodes.length_eq.symm ▸ hi
      exact ⟨(starts 0 ts)[i], List.mem_iff_getElem.mpr
        ⟨i, by rw [List.length_zip]; omega, List.getElem_zip⟩⟩
    have hhas := List.find?_some (p := fun n : DtNode => decide (HasCompatible n.props c)) hfirst
    exact iff_of_true ⟨_, hfind offset n hmem⟩ ⟨n, hn, of_decide_eq_true hhas⟩

/-! ## A blob with compatible nodes -/

/-- A root with two subnodes, both of which are compatible with `"y"`. -/
def busTree : DeviceTree :=
  ⟨⟨[], nul_notMem_nil⟩, [⟨compatibleName, asciiBytes "r" ++ [0]⟩],
    Forest.cons ⟨asciiBytes "a", by decide⟩
      [⟨compatibleName, asciiBytes "x" ++ [0] ++ asciiBytes "y" ++ [0]⟩] Forest.nil
      (Forest.cons ⟨asciiBytes "b", by decide⟩ [⟨compatibleName, asciiBytes "y" ++ [0]⟩] Forest.nil
        Forest.nil)⟩

/-- Its tokens. -/
def busTokens : List FdtToken :=
  [FdtToken.beginNode ⟨[], nul_notMem_nil⟩, FdtToken.prop 0 ⟨compatibleName, asciiBytes "r" ++ [0]⟩,
    FdtToken.nop, FdtToken.beginNode ⟨asciiBytes "a", by decide⟩,
    FdtToken.prop 0 ⟨compatibleName, asciiBytes "x" ++ [0] ++ asciiBytes "y" ++ [0]⟩,
    FdtToken.endNode, FdtToken.beginNode ⟨asciiBytes "b", by decide⟩,
    FdtToken.prop 0 ⟨compatibleName, asciiBytes "y" ++ [0]⟩, FdtToken.endNode, FdtToken.endNode]

/-- The header. -/
def busHeader : FdtHeader := ⟨143, 40, 132, 40, 17, 16, 0, 11, 92⟩

/-- The blob. -/
def busBlob : List UInt8 := busHeader.bytes ++ structText busTokens ++ compatibleName.bytes

theorem valid_busTree : busTree.Valid where
  nodes := by
    refine List.forall_mem_cons.mpr ⟨⟨by decide, by decide, by decide, by decide, by decide⟩,
      List.forall_mem_cons.mpr ⟨⟨by decide, by decide, by decide, by decide, by decide⟩,
        List.forall_mem_cons.mpr ⟨⟨by decide, by decide, by decide, by decide, by decide⟩, ?_⟩⟩⟩
    exact fun _ h => absurd h List.not_mem_nil
  siblings := ⟨by decide, trivial, List.not_mem_nil, trivial, trivial⟩

theorem compatibleLists_busTree : busTree.CompatibleLists := by
  refine List.forall_mem_cons.mpr ⟨?_, List.forall_mem_cons.mpr ⟨?_,
    List.forall_mem_cons.mpr ⟨?_, fun _ h => absurd h List.not_mem_nil⟩⟩⟩
  · exact List.forall_mem_singleton.mpr (fun _ => ⟨[⟨asciiBytes "r", by decide⟩], rfl⟩)
  · exact List.forall_mem_singleton.mpr
      (fun _ => ⟨[⟨asciiBytes "x", by decide⟩, ⟨asciiBytes "y", by decide⟩], rfl⟩)
  · exact List.forall_mem_singleton.mpr (fun _ => ⟨[⟨asciiBytes "y", by decide⟩], rfl⟩)

theorem flattens_busBlob : Flattens busTree busTokens busHeader busBlob 4096 where
  base_aligned := rfl
  struct_aligned := rfl
  header_stands := ⟨structText busTokens ++ compatibleName.bytes,
    by rw [busBlob, List.append_assoc]⟩
  total_le := by decide +kernel
  length_lt := by decide +kernel
  struct_le := by decide
  struct_size := by decide +kernel
  struct_text := by decide +kernel
  events := rfl
  strings_le := by decide
  names nameoff p h := by
    simp only [busTokens, List.mem_cons, FdtToken.prop.injEq, List.not_mem_nil, reduceCtorEq,
      false_or, or_false] at h
    rcases h with ⟨rfl, rfl⟩ | ⟨rfl, rfl⟩ | ⟨rfl, rfl⟩
    · exact ⟨by decide, by decide +kernel⟩
    · exact ⟨by decide, by decide +kernel⟩
    · exact ⟨by decide, by decide +kernel⟩

/-- The first of the two is found. -/
theorem Flattens.fdtFindCompatible_eq_busBlob :
    (busHeader.fdt busBlob 4096).fdtFindCompatible ⟨asciiBytes "y", by decide⟩
        = Outcome.ok ⟨28, 2, 1⟩
      ∧ ((∃ node, (busHeader.fdt busBlob 4096).fdtFindCompatible ⟨asciiBytes "y", by decide⟩
          = Outcome.ok node)
        ↔ ∃ n ∈ busTree.nodes, HasCompatible n.props ⟨asciiBytes "y", by decide⟩) :=
  ⟨by decide +kernel,
    (Flattens.fdtFindCompatible_eq valid_busTree compatibleLists_busTree flattens_busBlob _).2.2⟩
