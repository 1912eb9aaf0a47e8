import Risky.FdtWalkPaths

/-!
# Searching the nodes of any blob

`fdt_find_node_by_path` and `fdt_find_compatible` call `fdt_walk_next_node` until a node is
the right one, or until the walk is refused. On a blob that is no flattened tree at all
(nodes that do not end, several roots, tokens that make no sense) the walk still reports
some nodes, in the order of their offsets, and then stops (`Fdt.exists_reports`). Both
searches are searches in this one list (`Fdt.search_spec`), and what the walk says about
a node agrees with what `fdt_node_payload` finds when it comes back to it by its offset.
-/

namespace Fdt

open Outcome

variable {fdt : Fdt} {node : FdtNode} {st st' : FdtWalkState} {l l' : List (FdtNode × FdtWalkState)}

/-- **The nodes that the walk reports** from a state on, each with the state after it. -/
inductive Reports (fdt : Fdt) : FdtWalkState → List (FdtNode × FdtWalkState) → Prop where
  | stop {st : FdtWalkState} (h : fdt.fdtWalkNextNode st = refused) : fdt.Reports st []
  | node {st : FdtWalkState} {found : FdtNode × FdtWalkState} {l : List (FdtNode × FdtWalkState)}
      (h : fdt.fdtWalkNextNode st = ok found) (rest : fdt.Reports found.2 l) :
      fdt.Reports st (found :: l)

/-- **There is one such list.** -/
theorem Reports.unique (h : fdt.Reports st l) (h' : fdt.Reports st l') : l = l' := by
  induction h generalizing l' with
  | stop hstop =>
    cases h' with
    | stop _ => rfl
    | node hnode _ => exact absurd (hstop.symm.trans hnode) (by simp)
  | node hnode _ ih =>
    cases h' with
    | stop hstop => exact absurd (hstop.symm.trans hnode) (by simp)
    | node hnode' hrest =>
      cases hnode.symm.trans hnode'
      rw [ih hrest]

/-- **The walk ends.** -/
theorem exists_reports (hrange : fdt.InRange) (h : WalkSafe st) : ∃ l, fdt.Reports st l := by
  induction hn : fdt.structBlockEnd - st.cursor using Nat.strong_induction_on generalizing st with
  | _ n ih =>
    have hensures := fdtWalkNextNode_ensures hrange h
    cases hnext : fdt.fdtWalkNextNode st with
    | ok found =>
      have hlt := cursor_lt_of_fdtWalkNextNode hnext
      obtain ⟨l, hl⟩ :=
        ih (fdt.structBlockEnd - found.2.cursor) (by omega) (hensures.of_ok hnext) rfl
      exact ⟨found :: l, .node hnext hl⟩
    | refused => exact ⟨[], .stop hnext⟩
    | fault => exact absurd hnext hensures.ne_fault

/-! ## Where the nodes are -/

/-- **A node is where its token was**, and its payload where the walk goes on. -/
theorem token_of_fdtWalkNextNode (hrange : fdt.InRange) (hst : fdt.structBlock ≤ st.cursor)
    (h : fdt.fdtWalkNextNode st = ok (node, st')) :
    st.cursor ≤ fdt.structBlock + node.structOffset
      ∧ fdt.structBlock + node.structOffset < st'.cursor
      ∧ fdt.fdtNodePayload node = ok st'.cursor := by
  obtain ⟨last, hturns, hmore, hturn⟩ := Loop.run_eq_ok_iff.mp h
  have hlast : st.cursor ≤ last.cursor := by
    clear hmore hturn
    induction hturns with
    | refl => exact le_rfl
    | tail _ hnext ih =>
      have hstep := cursor_le_of_fdtWalkTurn hnext.2
      dsimp only [Sum.elim_inl, id] at hstep
      omega
  have hlt : last.cursor < fdt.structBlockEnd := of_decide_eq_true hmore
  have hend := hrange.end_le
  have hlength := hrange.length_lt
  obtain ⟨hroom, hbegin | ⟨-, _, -, hnext⟩ | ⟨-, _, -, hnext⟩ | ⟨-, hnext⟩⟩ :=
    fdtWalkTurn_cases hturn
  swap
  · cases hnext
  swap
  · cases hnext
  swap
  · cases hnext
  obtain ⟨htoken, found, hrun, hfound⟩ := hbegin
  cases hfound
  rw [sizeDiff_of_le hlt.le (by omega)] at hroom
  unfold fdtWalkBeginNode at hrun
  obtain ⟨_, -, hrun⟩ := bind_eq_ok.mp hrun
  obtain ⟨nameLen, hname, hrun⟩ := bind_eq_ok.mp hrun
  obtain ⟨parent, -, hrun⟩ := bind_eq_ok.mp hrun
  obtain ⟨frames, -, hrun⟩ := bind_eq_ok.mp hrun
  obtain ⟨path, -, hrun⟩ := bind_eq_ok.mp hrun
  obtain ⟨_, hcursor, hrun⟩ := bind_eq_ok.mp hrun
  cases hrun
  have hoffset : fdt.structBlock + (last.cursor - fdt.structBlock) % 2 ^ 32 = last.cursor := by
    rw [Nat.mod_eq_of_lt (by omega)]
    omega
  have halign := fdt.le_fdtAlign4 (last.cursor + 4 + nameLen + 1)
  unfold fdtNodePayload
  dsimp only at hname hcursor ⊢
  rw [hoffset, require_of_pos (by omega), ok_bind, htoken, access_some, ok_bind,
    require_of_pos rfl, ok_bind, hname, ok_bind, hcursor, ok_bind]
  exact ⟨hlast, by omega, rfl⟩

/-- **The nodes that are reported** lie one behind the other. -/
theorem Reports.nodes (hrange : fdt.InRange) (h : fdt.Reports st l)
    (hst : fdt.structBlock ≤ st.cursor) :
    (∀ x ∈ l, st.cursor ≤ fdt.structBlock + x.1.structOffset
        ∧ fdt.fdtNodePayload x.1 = ok x.2.cursor)
      ∧ l.Pairwise (fun x y => x.1.structOffset < y.1.structOffset) := by
  induction h with
  | stop _ => exact ⟨fun x hx => absurd hx List.not_mem_nil, List.Pairwise.nil⟩
  | @node st found l hnext _ ih =>
    obtain ⟨hle, hlt, hpayload⟩ := token_of_fdtWalkNextNode hrange hst hnext
    obtain ⟨hrest, hpairwise⟩ := ih (by omega)
    refine ⟨fun x hx => ?_, List.pairwise_cons.mpr ⟨fun y hy => ?_, hpairwise⟩⟩
    · rcases List.mem_cons.mp hx with rfl | hx
      · exact ⟨hle, hpayload⟩
      · have hx' := hrest x hx
        exact ⟨by omega, hx'.2⟩
    · have hy' := (hrest y hy).1
      omega

/-- **The walk knows the names of the open nodes** at each node that it reports. -/
theorem Reports.walkNames (hrange : fdt.InRange) (h : fdt.Reports st l) {tokens : ℕ}
    {nodes : List BegunNode} (hrun : fdt.WalkRun st tokens nodes) :
    ∀ x ∈ l, ∃ names, WalkNames x.2 names := by
  induction h generalizing tokens nodes with
  | stop _ => exact fun x hx => absurd hx List.not_mem_nil
  | @node st found l hnext _ ih =>
    obtain ⟨tokens', nodes', b, hrun'⟩ := hrun.call hrange hnext
    intro x hx
    rcases List.mem_cons.mp hx with rfl | hx
    · exact ⟨_, hrun'.walkNames hrange⟩
    · exact ih hrun' x hx

/-! ## The searches -/

/-- **A loop over the nodes** stops at the first one for which it is not told to go on. -/
theorem run_fdtNodeLoop {found : FdtNode × FdtWalkState → Outcome Bool} (h : fdt.Reports st l)
    (hrefused : ∀ x ∈ l, found x ≠ refused) :
    (fdt.fdtNodeLoop found).run st
      = (l.find? (fun x => decide (found x ≠ ok false))).elim refused
        (fun x => found x >>= fun _ => ok x.1) := by
  induction h with
  | stop hstop =>
    refine Loop.run_of_refused ?_
    show (fdt.fdtWalkNextNode _ >>= _) = _
    rw [hstop]
    rfl
  | @node st x l hnext _ ih =>
    have hturn : (fdt.fdtNodeLoop found).turn st = (do
        let stop ← found x
        if stop then pure (Sum.inr x.1) else pure (Sum.inl x.2)) := by
      show (fdt.fdtWalkNextNode st >>= _) = _
      rw [hnext]
      rfl
    cases hfound : found x with
    | ok stop =>
      rw [hfound] at hturn
      cases stop with
      | true =>
        rw [Loop.run_of_result rfl hturn, List.find?_cons_of_pos (by rw [hfound]; simp)]
        show _ = (found x >>= _)
        rw [hfound]
        rfl
      | false =>
        rw [Loop.run_of_next rfl hturn, List.find?_cons_of_neg (by rw [hfound]; simp)]
        exact ih (fun y hy => hrefused y (List.mem_cons_of_mem x hy))
    | refused => exact absurd hfound (hrefused x List.mem_cons_self)
    | fault =>
      rw [hfound] at hturn
      rw [Loop.run_of_fault rfl hturn, List.find?_cons_of_pos (by rw [hfound]; simp)]
      show _ = (found x >>= _)
      rw [hfound]
      rfl

/-- **The search for a path** compares it with the path buffer after each node. -/
theorem Reports.find_path_eq (hl : fdt.Reports fdt.fdtWalkInit l) (hrange : fdt.InRange)
    (path : CString) : fdt.fdtFindNodeByPath path
      = (l.find? (fun x => decide (x.2.path.take x.2.pathLen = path.chars))).elim refused
        (fun x => ok x.1) := by
  have hfound : ∀ x ∈ l, (access (strcmp x.2.path path.bytes) >>= fun cmp =>
      (pure (decide (cmp = 0)) : Outcome Bool))
        = ok (decide (x.2.path.take x.2.pathLen = path.chars)) := by
    intro x hx
    obtain ⟨names, hnames⟩ := hl.walkNames hrange WalkRun.init x hx
    obtain ⟨r, hr, hiff⟩ := CString.strcmp_eq hnames.path (List.prefix_refl path.bytes)
    rw [hr, access_some, ok_bind, hnames.take_pathLen.1]
    exact congrArg ok (decide_eq_decide.mpr (hiff.trans CString.ext_iff))
  have hrefused : ∀ x ∈ l, (access (strcmp x.2.path path.bytes) >>= fun cmp =>
      (pure (decide (cmp = 0)) : Outcome Bool)) ≠ refused := by
    intro x hx
    rw [hfound x hx]
    simp
  have hfind : l.find? (fun x => decide ((access (strcmp x.2.path path.bytes) >>= fun cmp =>
      (pure (decide (cmp = 0)) : Outcome Bool)) ≠ ok false))
        = l.find? (fun x => decide (x.2.path.take x.2.pathLen = path.chars)) :=
    List.find?_congr (fun x hx => by rw [hfound x hx]; simp)
  refine (run_fdtNodeLoop hl hrefused).trans ?_
  rw [hfind]
  cases hx : l.find? (fun x => decide (x.2.path.take x.2.pathLen = path.chars)) with
  | none => rfl
  | some x =>
    show (access (strcmp x.2.path path.bytes) >>= _) >>= _ = _
    rw [hfound x (List.mem_of_find?_eq_some hx)]
    rfl

/-- **The search for a string** asks each node for it. -/
theorem Reports.find_compatible_eq (hl : fdt.Reports fdt.fdtWalkInit l) (c : CString) :
    fdt.fdtFindCompatible c
      = (l.find? (fun x => decide (fdt.fdtNodeHasCompatible x.1 c ≠ refused))).elim refused
        (fun x => fdt.fdtNodeHasCompatible x.1 c >>= fun _ => ok x.1) := by
  have hstops : ∀ x : FdtNode × FdtWalkState,
      (Option.isSome <$> attempt (fdt.fdtNodeHasCompatible x.1 c) ≠ ok false)
        ↔ fdt.fdtNodeHasCompatible x.1 c ≠ refused := by
    intro x
    cases fdt.fdtNodeHasCompatible x.1 c <;> simp [attempt]
  refine (run_fdtNodeLoop hl (fun x _ => ?_)).trans ?_
  · cases fdt.fdtNodeHasCompatible x.1 c <;> simp [attempt]
  · simp only [hstops]
    cases hx : l.find? (fun x => decide (fdt.fdtNodeHasCompatible x.1 c ≠ refused)) with
    | none => rfl
    | some x =>
      have hgoes : fdt.fdtNodeHasCompatible x.1 c ≠ refused := by
        simpa using List.find?_some hx
      dsimp only [Option.elim_some]
      cases hrun : fdt.fdtNodeHasCompatible x.1 c with
      | ok _ => rfl
      | refused => exact absurd hrun hgoes
      | fault => rfl

/-- **Both searches, on any blob that `fdt_init` accepts**: the walk reports finitely many
nodes, each further on than the one before it, and its payload is where the walk was; what
is found is the first of them with the path, or the first that does not refuse the string. -/
theorem search_spec {mem : List UInt8} {base totalSize : ℕ} (h : fdtInit mem base = ok fdt)
    (htotal : fdtReadBe32 mem 4 = some totalSize) (hle : totalSize ≤ mem.length) :
    ∃ l, (fdt.clip totalSize).Reports (fdt.clip totalSize).fdtWalkInit l
      ∧ l.Pairwise (fun x y => x.1.structOffset < y.1.structOffset)
      ∧ (∀ x ∈ l, (fdt.clip totalSize).fdtNodePayload x.1 = ok x.2.cursor)
      ∧ (∀ path : CString, (fdt.clip totalSize).fdtFindNodeByPath path
        = (l.find? (fun x => decide (x.2.path.take x.2.pathLen = path.chars))).elim refused
          (fun x => ok x.1))
      ∧ ∀ c : CString, (fdt.clip totalSize).fdtFindCompatible c
        = (l.find? (fun x => decide ((fdt.clip totalSize).fdtNodeHasCompatible x.1 c
          ≠ refused))).elim refused
          (fun x => (fdt.clip totalSize).fdtNodeHasCompatible x.1 c >>= fun _ => ok x.1) := by
  have hrange := inRange_clip h htotal hle
  obtain ⟨l, hl⟩ := exists_reports hrange (walkSafe_fdtWalkInit _)
  obtain ⟨hnodes, hpairwise⟩ := hl.nodes hrange le_rfl
  exact ⟨l, hl, hpairwise, fun x hx => (hnodes x hx).2, hl.find_path_eq hrange,
    hl.find_compatible_eq⟩

/-- In a blob with two roots, the second of which does not end. -/
theorem search_rootsBlob :
    ∃ l, (rootsFdt.clip 80).Reports (rootsFdt.clip 80).fdtWalkInit l
      ∧ (rootsFdt.clip 80).fdtFindNodeByPath ⟨[slash, 0x62], by decide⟩
        = (l.find? (fun x => decide (x.2.path.take x.2.pathLen = [slash, 0x62]))).elim refused
          (fun x => ok x.1) := by
  obtain ⟨l, hl, -, -, hpath, -⟩ :=
    search_spec (show fdtInit rootsBlob 4096 = ok rootsFdt from rfl) rfl le_rfl
  exact ⟨l, hl, hpath _⟩

end Fdt
