import Risky.FdtScan

/-!
# Which blobs are safe to query

`fdt_init` only looks at the header, so every query must find out for itself
where the blob ends. The walk does. The scan for a property may read a token that
the end of the structure block cuts off, and so get out of the blob or return a
property that is not in it; `fdt_node_has_compatible` looks for the NUL of a
string without a bound. `Fdt.Bounded` lists what the walk and the scan must not come
to, and `Fdt.safe_iff` says that nothing else leads out.
-/

namespace Fdt

open Outcome

variable {fdt : Fdt} {node : FdtNode} {name c : CString} {ptr len : ℕ} {prop : FdtProp}
variable {st : FdtWalkState} {found : FdtNode × FdtWalkState → Outcome Bool}

/-! ## The nodes -/

/-- **A state the walk gets to** between two nodes. -/
def Walks (fdt : Fdt) : FdtWalkState → Prop :=
  Relation.ReflTransGen (fun st st' => ∃ node, fdt.fdtWalkNextNode st = ok (node, st'))
    fdt.fdtWalkInit

/-- **A node the walk reports.** -/
def Walked (fdt : Fdt) (node : FdtNode) : Prop :=
  ∃ st st', fdt.Walks st ∧ fdt.fdtWalkNextNode st = ok (node, st')

/-- **A node that a query returns.** -/
def Returned (fdt : Fdt) (node : FdtNode) : Prop :=
  (∃ path, fdt.fdtFindNodeByPath path = ok node) ∨ ∃ c, fdt.fdtFindCompatible c = ok node

theorem Walks.walkSafe (hrange : fdt.InRange) (h : fdt.Walks st) : WalkSafe st := by
  induction h with
  | refl => exact walkSafe_fdtWalkInit fdt
  | tail _ hnext ih =>
    obtain ⟨node, hnext⟩ := hnext
    exact (fdtWalkNextNode_ensures hrange ih).of_ok hnext

/-- A loop over the nodes follows the walk. -/
theorem walks_of_turns (h : (fdt.fdtNodeLoop found).Turns fdt.fdtWalkInit st) : fdt.Walks st := by
  induction h with
  | refl => exact Relation.ReflTransGen.refl
  | tail _ hnext ih =>
    obtain ⟨next, hwalk, hturn⟩ := bind_eq_ok.mp hnext.2
    obtain ⟨stop, -, hturn⟩ := bind_eq_ok.mp hturn
    split at hturn
    · exact absurd hturn (by simp)
    · cases hturn
      exact ih.tail ⟨next.1, hwalk⟩

theorem walked_of_run (h : (fdt.fdtNodeLoop found).run fdt.fdtWalkInit = ok node) :
    fdt.Walked node := by
  obtain ⟨st, hturns, -, hturn⟩ := Loop.run_eq_ok_iff.mp h
  obtain ⟨next, hwalk, hturn⟩ := bind_eq_ok.mp hturn
  obtain ⟨stop, -, hturn⟩ := bind_eq_ok.mp hturn
  split at hturn
  · cases hturn
    exact ⟨st, next.2, walks_of_turns hturns, hwalk⟩
  · exact absurd hturn (by simp)

theorem Returned.walked (h : fdt.Returned node) : fdt.Walked node := by
  rcases h with ⟨path, h⟩ | ⟨c, h⟩
  · exact walked_of_run h
  · exact walked_of_run h

/-- **A loop over the nodes is safe** if what it does with each of them is. -/
theorem nodeLoop_ne_fault (hrange : fdt.InRange)
    (hfound : ∀ node st, fdt.Walked node → WalkSafe st → found (node, st) ≠ fault) :
    (fdt.fdtNodeLoop found).run fdt.fdtWalkInit ≠ fault := by
  intro h
  obtain ⟨st, hturns, -, hturn⟩ := Loop.run_eq_fault_iff.mp h
  have hwalks := walks_of_turns hturns
  have hsafe := fdtWalkNextNode_ensures hrange (hwalks.walkSafe hrange)
  rcases bind_eq_fault.mp hturn with hwalk | ⟨next, hwalk, hturn⟩
  · exact hsafe.ne_fault hwalk
  rcases bind_eq_fault.mp hturn with hbad | ⟨stop, -, hturn⟩
  · exact hfound next.1 next.2 ⟨st, next.2, hwalks, hwalk⟩ (hsafe.of_ok hwalk) hbad
  · split at hturn <;> exact absurd hturn (by simp)

/-- **A loop that does not stop** comes to every node. -/
theorem ne_fault_of_nodeLoop (hstop : ∀ next, found next ≠ ok true)
    (hrefused : ∀ next, found next ≠ refused)
    (h : (fdt.fdtNodeLoop found).run fdt.fdtWalkInit ≠ fault) {st' : FdtWalkState}
    (hst : fdt.Walks st) (hwalk : fdt.fdtWalkNextNode st = ok (node, st')) :
    found (node, st') ≠ fault := by
  have hgo : ∀ {t t' : FdtWalkState} {n : FdtNode}, fdt.fdtWalkNextNode t = ok (n, t') →
      (fdt.fdtNodeLoop found).run t ≠ fault →
      found (n, t') ≠ fault ∧ (fdt.fdtNodeLoop found).run t' ≠ fault := by
    intro t t' n hn hrun
    have hturn : (fdt.fdtNodeLoop found).turn t = (do
        let stop ← found (n, t')
        if stop then pure (Sum.inr n) else pure (Sum.inl t')) := by
      show (fdt.fdtWalkNextNode t >>= _) = _
      rw [hn]
      rfl
    cases hfound : found (n, t') with
    | ok stop =>
      cases stop with
      | true => exact absurd hfound (hstop _)
      | false =>
        refine ⟨by simp, ?_⟩
        rw [hfound] at hturn
        rwa [Loop.run_of_next rfl hturn] at hrun
    | refused => exact absurd hfound (hrefused _)
    | fault =>
      rw [hfound] at hturn
      exact absurd (Loop.run_of_fault rfl hturn) hrun
  have hrun : (fdt.fdtNodeLoop found).run st ≠ fault := by
    clear hwalk
    induction hst with
    | refl => exact h
    | tail _ hnext ih =>
      obtain ⟨n, hn⟩ := hnext
      exact (hgo hn ih).2
  exact (hgo hwalk hrun).1

/-! ## The entries of a list of strings -/

/-- **The entries are read inside the blob** if the last byte of the property or
one behind it is NUL. -/
theorem entryLoop_ne_fault
    (h : prop.len = 0 ∨ 0 ∈ fdt.mem.drop (prop.data + (prop.len - 1))) :
    (fdt.fdtEntryLoop prop c).run 0 ≠ fault := by
  refine (Loop.run_ensures (I := fun _ => True) (P := fun _ => True) (fun offset _ hmore => ?_)
    trivial).ne_fault
  have hlt : offset < prop.len := of_decide_eq_true hmore
  have hnul : 0 ∈ fdt.mem.drop (prop.data + offset) := by
    have hmem := h.resolve_left (by omega)
    rw [show prop.data + (prop.len - 1) = prop.data + offset + (prop.len - 1 - offset) by omega,
      ← List.drop_drop] at hmem
    exact List.mem_of_mem_drop hmem
  refine (ensures_access (fun hnone => CString.strlen_eq_none_iff.mp hnone hnul)).bind
    (fun l _ => ?_)
  refine (ensures_require _).bind (fun _ _ => ?_)
  refine (ensures_access (CString.strcmp_ne_none hnul
    (CString.nul_mem (List.prefix_refl c.bytes)))).bind (fun cmp _ => ?_)
  split <;> exact trivial

/-- A string too long to be an entry. -/
def longString (fdt : Fdt) : CString :=
  ⟨List.replicate (fdt.mem.length + 1) 1, fun h => absurd (List.eq_of_mem_replicate h) (by decide)⟩

theorem not_longString_prefix (ptr : ℕ) : ¬ fdt.longString.bytes <+: fdt.mem.drop ptr := by
  intro h
  have hle := h.length_le
  have hlen : fdt.longString.length = fdt.mem.length + 1 := List.length_replicate
  rw [CString.length_bytes, List.length_drop, hlen] at hle
  omega

/-- A turn of the search for the long string: an entry that ends inside the
property is skipped. -/
theorem entryTurn_longString (prop : FdtProp) (hnul : 0 ∈ fdt.mem.drop (prop.data + ptr)) :
    ∃ s : CString, s.bytes <+: fdt.mem.drop (prop.data + ptr)
      ∧ (fdt.fdtEntryLoop prop fdt.longString).turn ptr
        = if ptr + s.length ≥ prop.len then refused else ok (Sum.inl (ptr + s.length + 1)) := by
  obtain ⟨s, hs⟩ := CString.exists_prefix hnul
  obtain ⟨r, hr, hiff⟩ := CString.strcmp_eq hs (List.prefix_refl fdt.longString.bytes)
  have hne : r ≠ 0 := fun h => not_longString_prefix (prop.data + ptr) (hiff.mp h ▸ hs)
  refine ⟨s, hs, ?_⟩
  show (access (strlen (fdt.mem.drop (prop.data + ptr))) >>= _) = _
  rw [CString.strlen_eq hs, access_some, ok_bind]
  split
  · next hge =>
    rw [require_of_neg (not_not.mpr hge)]
    rfl
  · next hlt =>
    rw [require_of_pos hlt, ok_bind, hr, access_some, ok_bind, if_neg hne]
    rfl

theorem entryLoop_longString_ne_ok : (fdt.fdtEntryLoop prop fdt.longString).run 0 ≠ ok () := by
  intro h
  obtain ⟨offset, -, -, hturn⟩ := Loop.run_eq_ok_iff.mp h
  by_cases hnul : 0 ∈ fdt.mem.drop (prop.data + offset)
  · obtain ⟨s, -, hrun⟩ := entryTurn_longString prop hnul
    rw [hrun] at hturn
    split at hturn <;> exact absurd hturn (by simp)
  · change (access (strlen (fdt.mem.drop (prop.data + offset))) >>= _) = _ at hturn
    rw [CString.strlen_eq_none_iff.mpr hnul] at hturn
    exact absurd hturn (by simp)

/-- **Without such a NUL the search goes out of the blob.** -/
theorem entryLoop_longString_eq_fault {offset : ℕ} (hlt : offset < prop.len)
    (h : 0 ∉ fdt.mem.drop (prop.data + (prop.len - 1))) :
    (fdt.fdtEntryLoop prop fdt.longString).run offset = fault := by
  induction hn : prop.len - offset using Nat.strong_induction_on generalizing offset with
  | _ n ih =>
    have hmore : (fdt.fdtEntryLoop prop fdt.longString).more offset = true := decide_eq_true hlt
    by_cases hnul : 0 ∈ fdt.mem.drop (prop.data + offset)
    · obtain ⟨s, hs, hrun⟩ := entryTurn_longString prop hnul
      -- the NUL of the entry is before the last byte of the property
      have hbefore : offset + s.length + 1 < prop.len := by
        by_contra hge
        refine h ?_
        rw [show prop.data + (prop.len - 1) = prop.data + offset + (prop.len - 1 - offset) by omega,
          ← List.drop_drop]
        exact CString.nul_mem_drop hs (by omega)
      rw [if_neg (by omega)] at hrun
      rw [Loop.run_of_next hmore hrun]
      exact ih _ (by omega) hbefore rfl
    · refine Loop.run_of_fault hmore ?_
      show (access (strlen (fdt.mem.drop (prop.data + offset))) >>= _) = _
      rw [CString.strlen_eq_none_iff.mpr hnul]
      rfl

/-! ## Strings for the caller -/

/-- A copy that stays inside the buffer. -/
theorem fdtCopyString_ensures {buffer s : List UInt8} {bufferSize n : ℕ}
    (hbuffer : bufferSize ≤ buffer.length) (hs : n ≤ s.length) :
    (fdtCopyString buffer bufferSize s n).Ensures (fun _ => True) := by
  unfold fdtCopyString
  refine (ensures_require _).bind (fun _ hroom => ?_)
  refine (memcpy_ensures hs (by omega)).bind (fun buffer' hlen => ?_)
  exact (store_ensures (by omega)).mono (fun _ _ => trivial)

theorem fdtStdoutLen_ensures {path : List UInt8} (h : 0 ∈ path) :
    (fdtStdoutLen path).Ensures (· ≤ path.length) := by
  unfold fdtStdoutLen
  refine (ensures_access (CString.strchr_ne_none h)).bind (fun colon hcolon => ?_)
  cases colon with
  | some n => exact (CString.strchr_lt hcolon).le
  | none =>
    refine (ensures_access (fun hnone => CString.strlen_eq_none_iff.mp hnone h)).mono ?_
    exact fun n hn => (CString.strlen_lt hn).le

/-- **Whether a property is a string** is safe to ask if it lies in the blob. -/
theorem fdtPropIsString_ensures (h : prop.len = 0 ∨ prop.data + prop.len ≤ fdt.mem.length) :
    (fdt.fdtPropIsString prop).Ensures (fun _ => 0 ∈ fdt.mem.drop prop.data) := by
  unfold fdtPropIsString
  refine (ensures_require _).bind (fun _ hpos => ?_)
  refine (ensures_access ?_).bind (fun c hc => ?_)
  · rw [Ne, List.getElem?_eq_none_iff]
    omega
  refine (ensures_require _).mono (fun _ hzero => ?_)
  rw [hzero] at hc
  rw [← List.getElem?_drop] at hc
  exact List.mem_of_getElem? hc

theorem fdtPropIsString_eq_fault (hpos : prop.len ≠ 0)
    (h : fdt.mem.length < prop.data + prop.len) : fdt.fdtPropIsString prop = fault := by
  unfold fdtPropIsString
  rw [require_of_pos (by omega), ok_bind, List.getElem?_eq_none_iff.mpr (by omega)]
  rfl

/-! ## Safe queries -/

/-- **No query on the blob reads outside it.** -/
structure Safe (fdt : Fdt) : Prop where
  findNodeByPath : ∀ path, fdt.fdtFindNodeByPath path ≠ fault
  findCompatible : ∀ c, fdt.fdtFindCompatible c ≠ fault
  getProperty : ∀ node name, fdt.Returned node → fdt.fdtGetProperty node name ≠ fault
  nodeHasCompatible : ∀ node c, fdt.Returned node → fdt.fdtNodeHasCompatible node c ≠ fault
  getU32 : ∀ node name, fdt.Returned node → fdt.fdtGetU32 node name ≠ fault
  getStdoutPath : ∀ buffer bufferSize, bufferSize ≤ buffer.length →
    fdt.fdtGetStdoutPath buffer bufferSize ≠ fault
  resolveAlias : ∀ name buffer bufferSize, bufferSize ≤ buffer.length →
    fdt.fdtResolveAlias name buffer bufferSize ≠ fault

/-- The property that names the console: `linux,stdout-path` counts where there is
no `stdout-path`. -/
def StdoutProp (fdt : Fdt) (node : FdtNode) (ptr len : ℕ) : Prop :=
  fdt.HasProp node stdoutPath ptr len
    ∨ (∀ ptr len, ¬ fdt.HasProp node stdoutPath ptr len) ∧ fdt.HasProp node linuxStdoutPath ptr len

/-- **Nothing that the walk and the scan come to leads out of the blob**: not a truncated
token, not a property that begins with one, not a list of strings without an end. -/
structure Bounded (fdt : Fdt) : Prop where
  /-- What is read at a truncated token is in the blob. -/
  tail : ∀ node name s, fdt.Returned node ∨ fdt.Walked node ∧ name = compatibleName →
    fdt.Scans node name s → fdt.structBlockEnd < s.cursor + 4 → fdt.TailReadable s.cursor
  /-- So is the word that is the value of a property there. -/
  word : ∀ node name ptr, fdt.Returned node → fdt.HasProp node name ptr 4 →
    fdt.structBlockEnd < ptr + 4 → ptr + 16 ≤ fdt.mem.length
  /-- So is a path there. -/
  stdout : ∀ node ptr len, fdt.fdtFindNodeByPath chosenPath = ok node →
    fdt.StdoutProp node ptr len → fdt.structBlockEnd < ptr + 4 →
      len = 0 ∨ ptr + 12 + len ≤ fdt.mem.length
  /-- So is an alias there. -/
  aliases : ∀ node name ptr len, fdt.fdtFindNodeByPath aliasesPath = ok node →
    fdt.HasProp node name ptr len → fdt.structBlockEnd < ptr + 4 →
      len = 0 ∨ ptr + 12 + len ≤ fdt.mem.length
  /-- The last string of a list ends in the blob. -/
  entries : ∀ node ptr len, fdt.Walked node → fdt.HasProp node compatibleName ptr len →
    len = 0 ∨ 0 ∈ fdt.mem.drop (ptr + 12 + (len - 1))

/-- A property that does not begin with a truncated token lies in the blob. -/
theorem HasProp.in_range (hrange : fdt.InRange) (h : fdt.HasProp node name ptr len)
    (htail : fdt.structBlockEnd < ptr + 4 → len = 0 ∨ ptr + 12 + len ≤ fdt.mem.length) :
    len = 0 ∨ ptr + 12 + len ≤ fdt.mem.length := by
  have hend := hrange.end_le
  rcases h.2.room with hroom | hcut
  · exact Or.inr (by omega)
  · exact htail hcut

/-! ### Nothing leads out, so all is safe -/

section Sufficient

variable (hrange : fdt.InRange) (hb : fdt.Bounded)

include hrange

theorem fdtFindNodeByPath_ne_fault (path : CString) : fdt.fdtFindNodeByPath path ≠ fault := by
  refine nodeLoop_ne_fault hrange (fun node st _ hsafe hfault => ?_)
  rcases bind_eq_fault.mp hfault with hcmp | ⟨cmp, -, hcmp⟩
  · exact CString.strcmp_ne_none hsafe.nul_mem (CString.nul_mem (List.prefix_refl path.bytes))
      (access_eq_fault.mp hcmp)
  · exact absurd hcmp (by simp)

include hb

theorem Bounded.getProperty
    (hnode : fdt.Returned node ∨ fdt.Walked node ∧ name = compatibleName) :
    fdt.fdtGetProperty node name ≠ fault := by
  intro h
  obtain ⟨s, hscans, hcut, hbad⟩ := (fdtGetProperty_eq_fault_iff hrange).mp h
  exact hbad (hb.tail node name s hnode hscans hcut)

omit hb in
/-- **A node can be asked for a string** if the scan for `compatible` stays inside, and the
last string of the property ends. -/
theorem fdtNodeHasCompatible_ne_fault
    (htail : ∀ s, fdt.Scans node compatibleName s → fdt.structBlockEnd < s.cursor + 4 →
      fdt.TailReadable s.cursor)
    (hentries : ∀ ptr len, fdt.HasProp node compatibleName ptr len →
      len = 0 ∨ 0 ∈ fdt.mem.drop (ptr + 12 + (len - 1))) :
    fdt.fdtNodeHasCompatible node c ≠ fault := by
  intro h
  rcases bind_eq_fault.mp h with hget | ⟨prop, hget, hrun⟩
  · obtain ⟨s, hscans, hcut, hbad⟩ := (fdtGetProperty_eq_fault_iff hrange).mp hget
    exact hbad (htail s hscans hcut)
  · obtain ⟨ptr, hprop, hdata⟩ := (fdtGetProperty_eq_ok_iff hrange).mp hget
    refine entryLoop_ne_fault ?_ hrun
    rw [hdata]
    exact hentries ptr prop.len hprop

theorem Bounded.nodeHasCompatible (hnode : fdt.Walked node) :
    fdt.fdtNodeHasCompatible node c ≠ fault :=
  fdtNodeHasCompatible_ne_fault hrange
    (fun s => hb.tail node compatibleName s (Or.inr ⟨hnode, rfl⟩))
    (fun ptr len => hb.entries node ptr len hnode)

theorem Bounded.getU32 (hnode : fdt.Returned node) : fdt.fdtGetU32 node name ≠ fault := by
  have hend := hrange.end_le
  intro h
  rcases bind_eq_fault.mp h with hget | ⟨prop, hget, hrun⟩
  · exact hb.getProperty hrange (Or.inl hnode) hget
  · obtain ⟨ptr, hprop, hdata⟩ := (fdtGetProperty_eq_ok_iff hrange).mp hget
    rcases bind_eq_fault.mp hrun with hrequire | ⟨_, hlen, hread⟩
    · exact absurd hrequire require_ne_fault
    · rw [require_eq_ok] at hlen
      rw [access_eq_fault, fdtReadBe32_eq_none_iff, hdata] at hread
      rw [hlen] at hprop
      rcases hprop.2.room with hroom | hcut
      · omega
      · have := hb.word node name ptr hnode hprop hcut
        omega

theorem Bounded.getStdoutPath {buffer : List UInt8} {bufferSize : ℕ}
    (hbuffer : bufferSize ≤ buffer.length) : fdt.fdtGetStdoutPath buffer bufferSize ≠ fault := by
  intro h
  rcases bind_eq_fault.mp h with hfind | ⟨chosen, hfind, h⟩
  · exact fdtFindNodeByPath_ne_fault hrange chosenPath hfind
  have hreturned : fdt.Returned chosen := Or.inl ⟨_, hfind⟩
  have hget : ∀ name, fdt.fdtGetProperty chosen name ≠ fault := fun name =>
    hb.getProperty hrange (Or.inl hreturned)
  -- the property that is read is the one that counts
  have hprop : (fdt.fdtStdoutProp chosen).Ensures
      (fun prop => ∃ ptr, fdt.StdoutProp chosen ptr prop.len ∧ prop.data = ptr + 12) := by
    unfold fdtStdoutProp
    cases hstdout : fdt.fdtGetProperty chosen stdoutPath with
    | ok prop =>
      obtain ⟨ptr, hhas, hdata⟩ := (fdtGetProperty_eq_ok_iff hrange).mp hstdout
      exact ⟨ptr, Or.inl hhas, hdata⟩
    | refused =>
      refine ensures_iff.mpr ⟨hget _, fun prop hlinux => ?_⟩
      obtain ⟨ptr, hhas, hdata⟩ := (fdtGetProperty_eq_ok_iff hrange).mp hlinux
      refine ⟨ptr, Or.inr ⟨fun ptr' len' hhas' => ?_, hhas⟩, hdata⟩
      have hok : fdt.fdtGetProperty chosen stdoutPath = ok ⟨ptr' + 12, len'⟩ :=
        (fdtGetProperty_eq_ok_iff hrange).mpr ⟨ptr', hhas', rfl⟩
      exact absurd (hstdout.symm.trans hok) (by simp)
    | fault => exact absurd hstdout (hget _)
  refine absurd h (Ensures.ne_fault (P := fun _ => True) (hprop.bind (fun prop hprop => ?_)))
  obtain ⟨ptr, hstdout, hdata⟩ := hprop
  have hin : prop.len = 0 ∨ prop.data + prop.len ≤ fdt.mem.length := by
    rw [hdata]
    have htail := hb.stdout chosen ptr prop.len hfind hstdout
    rcases hstdout with hhas | ⟨-, hhas⟩
    · exact hhas.in_range hrange htail
    · exact hhas.in_range hrange htail
  refine (fdtPropIsString_ensures hin).bind (fun _ hnul => ?_)
  refine (fdtStdoutLen_ensures hnul).bind (fun n hn => ?_)
  exact fdtCopyString_ensures hbuffer hn

theorem Bounded.resolveAlias {buffer : List UInt8} {bufferSize : ℕ}
    (hbuffer : bufferSize ≤ buffer.length) :
    fdt.fdtResolveAlias name buffer bufferSize ≠ fault := by
  intro h
  rcases bind_eq_fault.mp h with hfind | ⟨aliases, hfind, h⟩
  · exact fdtFindNodeByPath_ne_fault hrange aliasesPath hfind
  have hreturned : fdt.Returned aliases := Or.inl ⟨_, hfind⟩
  rcases bind_eq_fault.mp h with hget | ⟨prop, hget, h⟩
  · exact hb.getProperty hrange (Or.inl hreturned) hget
  obtain ⟨ptr, hhas, hdata⟩ := (fdtGetProperty_eq_ok_iff hrange).mp hget
  have hin : prop.len = 0 ∨ prop.data + prop.len ≤ fdt.mem.length := by
    rw [hdata]
    exact hhas.in_range hrange (hb.aliases aliases name ptr prop.len hfind hhas)
  refine absurd h (Ensures.ne_fault (P := fun _ => True)
    ((fdtPropIsString_ensures hin).bind (fun _ hnul => ?_)))
  refine (ensures_access (fun hnone => CString.strlen_eq_none_iff.mp hnone hnul)).bind
    (fun n hn => ?_)
  exact fdtCopyString_ensures hbuffer (CString.strlen_lt hn).le

/-- **Where nothing leads out of the blob, all queries are safe.** -/
theorem Bounded.safe : fdt.Safe where
  findNodeByPath := fdtFindNodeByPath_ne_fault hrange
  findCompatible c := nodeLoop_ne_fault hrange (fun node st hwalked _ hfault => by
    rw [map_eq_fault, attempt_eq_fault] at hfault
    exact hb.nodeHasCompatible hrange hwalked hfault)
  getProperty _ _ hnode := hb.getProperty hrange (Or.inl hnode)
  nodeHasCompatible _ _ hnode := hb.nodeHasCompatible hrange hnode.walked
  getU32 _ _ hnode := hb.getU32 hrange hnode
  getStdoutPath _ _ := hb.getStdoutPath hrange
  resolveAlias _ _ _ := hb.resolveAlias hrange

end Sufficient

/-! ### All is safe, so nothing leads out -/

section Necessary

variable (hrange : fdt.InRange) (hs : fdt.Safe)

include hs

/-- The search for the long string comes to every node. -/
theorem Safe.longString (hnode : fdt.Walked node) :
    fdt.fdtNodeHasCompatible node fdt.longString ≠ fault := by
  obtain ⟨st, st', hst, hwalk⟩ := hnode
  have hno : ∀ n : FdtNode, fdt.fdtNodeHasCompatible n fdt.longString ≠ ok () := by
    intro n h
    obtain ⟨prop, -, hrun⟩ := bind_eq_ok.mp h
    exact entryLoop_longString_ne_ok hrun
  let found : FdtNode × FdtWalkState → Outcome Bool :=
    fun next => Option.isSome <$> attempt (fdt.fdtNodeHasCompatible next.1 fdt.longString)
  have hfound : found (node, st') ≠ fault := ne_fault_of_nodeLoop
    (fun next h => ?_) (fun next h => ?_) (hs.findCompatible fdt.longString) hst hwalk
  · rwa [Ne, map_eq_fault, attempt_eq_fault] at hfound
  · obtain ⟨o, ho, hsome⟩ := map_eq_ok.mp h
    obtain ⟨u, rfl⟩ := Option.isSome_iff_exists.mp hsome
    exact hno next.1 (attempt_eq_some.mp ho)
  · rw [map_eq_refused] at h
    exact absurd h attempt_ne_refused

include hrange in
/-- **Where all queries are safe, nothing leads out of the blob.** -/
theorem Safe.bounded : fdt.Bounded where
  tail node name s hnode hscans hcut := by
    by_contra hbad
    -- a tail that is not readable makes `fdt_get_property` fault
    have hfault := (fdtGetProperty_eq_fault_iff hrange).mpr ⟨s, hscans, hcut, hbad⟩
    rcases hnode with hreturned | ⟨hwalked, rfl⟩
    · exact hs.getProperty node name hreturned hfault
    · exact hs.longString hwalked (bind_eq_fault.mpr (Or.inl hfault))
  word node name ptr hnode hprop _ := by
    by_contra hlt
    refine hs.getU32 node name hnode (bind_eq_fault.mpr (Or.inr ⟨⟨ptr + 12, 4⟩, ?_, ?_⟩))
    · exact (fdtGetProperty_eq_ok_iff hrange).mpr ⟨ptr, hprop, rfl⟩
    · unfold fdtPropGetU32
      rw [require_of_pos rfl, ok_bind, access_eq_fault, fdtReadBe32_eq_none_iff]
      show fdt.mem.length < ptr + 12 + 4
      omega
  stdout node ptr len hfind hprop _ := by
    by_contra hbad
    rw [not_or] at hbad
    refine hs.getStdoutPath [] 0 le_rfl (bind_eq_fault.mpr (Or.inr ⟨node, hfind, ?_⟩))
    refine bind_eq_fault.mpr (Or.inr ⟨⟨ptr + 12, len⟩, ?_, ?_⟩)
    · unfold fdtStdoutProp
      -- the property is the first of the two that is there
      rcases hprop with hhas | ⟨hno, hhas⟩
      · have hok : fdt.fdtGetProperty node stdoutPath = ok ⟨ptr + 12, len⟩ :=
          (fdtGetProperty_eq_ok_iff hrange).mpr ⟨ptr, hhas, rfl⟩
        rw [hok]
        rfl
      · have hrefused : fdt.fdtGetProperty node stdoutPath = refused := by
          cases hget : fdt.fdtGetProperty node stdoutPath with
          | ok prop =>
            obtain ⟨ptr', hhas', -⟩ := (fdtGetProperty_eq_ok_iff hrange).mp hget
            exact absurd hhas' (hno ptr' prop.len)
          | refused => rfl
          | fault => exact absurd hget (hs.getProperty node _ (Or.inl ⟨_, hfind⟩))
        rw [hrefused]
        exact (fdtGetProperty_eq_ok_iff hrange).mpr ⟨ptr, hhas, rfl⟩
    · refine bind_eq_fault.mpr (Or.inl (fdtPropIsString_eq_fault hbad.1 ?_))
      exact not_le.mp hbad.2
  aliases node name ptr len hfind hprop _ := by
    by_contra hbad
    rw [not_or] at hbad
    refine hs.resolveAlias name [] 0 le_rfl (bind_eq_fault.mpr (Or.inr ⟨node, hfind, ?_⟩))
    refine bind_eq_fault.mpr (Or.inr ⟨⟨ptr + 12, len⟩, ?_, ?_⟩)
    · exact (fdtGetProperty_eq_ok_iff hrange).mpr ⟨ptr, hprop, rfl⟩
    · refine bind_eq_fault.mpr (Or.inl (fdtPropIsString_eq_fault hbad.1 ?_))
      exact not_le.mp hbad.2
  entries node ptr len hnode hprop := by
    by_contra hbad
    rw [not_or] at hbad
    refine hs.longString hnode (bind_eq_fault.mpr (Or.inr ⟨⟨ptr + 12, len⟩, ?_, ?_⟩))
    · exact (fdtGetProperty_eq_ok_iff hrange).mpr ⟨ptr, hprop, rfl⟩
    · exact entryLoop_longString_eq_fault (Nat.pos_of_ne_zero hbad.1) hbad.2

end Necessary

/-- **All queries are safe exactly if nothing leads out of the blob.** -/
theorem safe_iff (hrange : fdt.InRange) : fdt.Safe ↔ fdt.Bounded :=
  ⟨fun hs => hs.bounded hrange, fun hb => hb.safe hrange⟩

/-! ## Blobs in memory -/

/-- The parser with a memory that ends with the blob. -/
def clip (fdt : Fdt) (totalSize : ℕ) : Fdt := { fdt with mem := fdt.mem.take totalSize }

/-- **What `fdt_init` accepts** is in range, if the whole blob is there. -/
theorem inRange_clip {mem : List UInt8} {base totalSize : ℕ} (h : fdtInit mem base = ok fdt)
    (htotal : fdtReadBe32 mem 4 = some totalSize) (hle : totalSize ≤ mem.length) :
    (fdt.clip totalSize).InRange := by
  have hlt := fdtReadBe32_lt htotal
  unfold fdtInit at h
  obtain ⟨magic, -, h⟩ := bind_eq_ok.mp h
  obtain ⟨_, -, h⟩ := bind_eq_ok.mp h
  obtain ⟨total, ht, h⟩ := bind_eq_ok.mp h
  obtain ⟨offStruct, -, h⟩ := bind_eq_ok.mp h
  obtain ⟨offStrings, -, h⟩ := bind_eq_ok.mp h
  obtain ⟨sizeStruct, -, h⟩ := bind_eq_ok.mp h
  obtain ⟨sizeStrings, -, h⟩ := bind_eq_ok.mp h
  obtain ⟨_, hvalid, h⟩ := bind_eq_ok.mp h
  cases h
  rw [access_eq_ok, htotal, Option.some.injEq] at ht
  subst ht
  rw [require_eq_ok] at hvalid
  unfold fdtRangeValid at hvalid
  simp only [decide_eq_true_eq] at hvalid
  have hlen : (mem.take totalSize).length = totalSize := by
    rw [List.length_take]
    omega
  constructor
  · show offStruct ≤ offStruct + sizeStruct
    omega
  · show offStruct + sizeStruct ≤ (mem.take totalSize).length
    omega
  · show offStrings + sizeStrings ≤ (mem.take totalSize).length
    omega
  · show (mem.take totalSize).length < 2 ^ 32
    omega

/-- A blob of 49 bytes: the root node, and one byte of a token behind it. -/
def cutBlob : List UInt8 :=
  [0xd0, 0x0d, 0xfe, 0xed, 0, 0, 0, 49, 0, 0, 0, 40, 0, 0, 0, 49, 0, 0, 0, 40,
    0, 0, 0, 17, 0, 0, 0, 16, 0, 0, 0, 0, 0, 0, 0, 0, 0, 0, 0, 9, 0, 0, 0, 1, 0, 0, 0, 0, 0]

/-- What `fdt_init` makes of it. -/
def cutFdt : Fdt := ⟨cutBlob, 0, 40, 49, 49, 0⟩

/-- **A query that reads outside the blob**: for any property of the root of the
cut-off blob, which `fdt_init` accepts. -/
theorem not_safe_cutBlob :
    fdtInit cutBlob 0 = ok cutFdt ∧ cutBlob.length = 49
      ∧ (cutFdt.clip 49).fdtFindNodeByPath ⟨[slash], by decide⟩ = ok ⟨0, 2, 1⟩
      ∧ (cutFdt.clip 49).fdtGetProperty ⟨0, 2, 1⟩ compatibleName = fault
      ∧ ¬ (cutFdt.clip 49).Safe := by
  have hfind : (cutFdt.clip 49).fdtFindNodeByPath ⟨[slash], by decide⟩ = ok ⟨0, 2, 1⟩ := by
    decide +kernel
  have hget : (cutFdt.clip 49).fdtGetProperty ⟨0, 2, 1⟩ compatibleName = fault := by
    decide +kernel
  exact ⟨rfl, rfl, hfind, hget, fun hs => hs.getProperty _ _ (Or.inl ⟨_, hfind⟩) hget⟩

end Fdt
