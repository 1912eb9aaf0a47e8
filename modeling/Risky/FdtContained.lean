import Risky.FdtTokens

/-!
# Which blobs are safe to query

A query reads outside the blob for one of two reasons. The structure block may end in the
middle of a token to which the scan for a property comes, and what the token announces is
read nevertheless; or the last string of a `compatible` property does not end. Which tokens
and which properties these are can be told from the bytes (`Fdt.Contained`): the walk and
the scan come to exactly what the tokens lead to, and the callers get hold of exactly the
nodes that are the first ones for a path or a string (`Fdt.returned_iff_answers`). The
condition is exact (`Fdt.safe_iff_contained`).
-/

namespace Fdt

open Outcome

variable {fdt : Fdt} {node : FdtNode} {name path c : CString} {start payload ptr len : ℕ}
  {l : List (FdtNode × FdtWalkState)}

/-- **Nothing in the bytes leads out of the blob.** -/
structure Contained (fdt : Fdt) : Prop where
  /-- Where whole tokens lead from a node to a truncated one, what is read there is in the
  blob: for any name, if a caller can get hold of the node, and for `compatible` anyway. -/
  tail : ∀ start path payload name ptr depth, fdt.NodeAt start path payload →
    fdt.Answers start path payload ∨ name = compatibleName →
    fdt.Passes name payload ptr depth → ptr < fdt.structBlockEnd →
    fdt.structBlockEnd < ptr + 4 → fdt.TailReadable ptr
  /-- So is the word that is the value of a property there. -/
  word : ∀ start path payload name ptr, fdt.NodeAt start path payload →
    fdt.Answers start path payload → fdt.OwnProp payload name ptr 4 →
    fdt.structBlockEnd < ptr + 4 → ptr + 16 ≤ fdt.mem.length
  /-- So is the path of the console there. -/
  stdout : ∀ start payload ptr len, fdt.FirstAt chosenPath start payload →
    fdt.ConsoleProp payload ptr len → fdt.structBlockEnd < ptr + 4 →
    len = 0 ∨ ptr + 12 + len ≤ fdt.mem.length
  /-- So is an alias there. -/
  aliases : ∀ start payload name ptr len, fdt.FirstAt aliasesPath start payload →
    fdt.OwnProp payload name ptr len → fdt.structBlockEnd < ptr + 4 →
    len = 0 ∨ ptr + 12 + len ≤ fdt.mem.length
  /-- The last string of a list ends in the blob. -/
  entries : ∀ start path payload ptr len, fdt.NodeAt start path payload →
    fdt.OwnProp payload compatibleName ptr len →
    len = 0 ∨ 0 ∈ fdt.mem.drop (ptr + 12 + (len - 1))

/-! ## First nodes -/

/-- **The first one that passes the test**, in a list in which some number increases. -/
theorem find?_eq_some_iff_of_pairwise {α : Type} {f : α → ℕ} {p : α → Bool} {xs : List α} {x : α}
    (h : xs.Pairwise (fun a b => f a < f b)) :
    xs.find? p = some x ↔ x ∈ xs ∧ p x = true ∧ ∀ y ∈ xs, p y = true → f x ≤ f y := by
  induction xs with
  | nil => simp
  | cons a xs ih =>
    obtain ⟨hlt, hrest⟩ := List.pairwise_cons.mp h
    cases hp : p a with
    | true =>
      rw [List.find?_cons_of_pos hp, Option.some.injEq]
      constructor
      · rintro rfl
        refine ⟨List.mem_cons_self, hp, fun y hy _ => ?_⟩
        rcases List.mem_cons.mp hy with rfl | hy
        · exact le_rfl
        · exact (hlt y hy).le
      · rintro ⟨hx, -, hmin⟩
        rcases List.mem_cons.mp hx with rfl | hx
        · rfl
        · exact absurd (hmin a List.mem_cons_self hp) (not_le.mpr (hlt x hx))
    | false =>
      rw [List.find?_cons_of_neg (by simp [hp]), ih hrest]
      constructor
      · rintro ⟨hx, hpx, hmin⟩
        refine ⟨List.mem_cons_of_mem a hx, hpx, fun y hy hpy => ?_⟩
        rcases List.mem_cons.mp hy with rfl | hy
        · exact absurd hpy (by simp [hp])
        · exact hmin y hy hpy
      · rintro ⟨hx, hpx, hmin⟩
        refine ⟨(List.mem_cons.mp hx).resolve_left (fun h => ?_), hpx,
          fun y hy => hmin y (List.mem_cons_of_mem a hy)⟩
        rw [h, hp] at hpx
        exact absurd hpx (by simp)

section Nodes

variable (hrange : fdt.InRange) (hl : fdt.Reports fdt.fdtWalkInit l)
include hrange hl

theorem Reports.pairwise : l.Pairwise (fun x y => x.1.structOffset < y.1.structOffset) :=
  (hl.nodes hrange le_rfl).2

/-- A node is told by where it begins. -/
theorem Reports.eq_of_offset {x y : FdtNode × FdtWalkState} (hx : x ∈ l) (hy : y ∈ l)
    (h : x.1.structOffset = y.1.structOffset) : x = y := by
  by_contra hne
  have hpairwise : l.Pairwise (fun x y => x.1.structOffset ≠ y.1.structOffset) :=
    (hl.pairwise hrange).imp Nat.ne_of_lt
  have hsymm : Std.Symm (fun a b : FdtNode × FdtWalkState => a.1.structOffset ≠ b.1.structOffset) :=
    ⟨fun _ _ => Ne.symm⟩
  exact hpairwise.forall hx hy hne h

theorem Reports.walked_iff : fdt.Walked node ↔ ∃ x ∈ l, x.1 = node := by
  constructor
  · rintro ⟨st, st', hst, hcall⟩
    obtain ⟨tokens, nodes, hrun⟩ := hst.exists_walkRun hrange
    exact ⟨_, hl.mem_of_turn hrun hcall, rfl⟩
  · rintro ⟨x, hx, rfl⟩
    have hwalks : ∀ {st : FdtWalkState} {l : List (FdtNode × FdtWalkState)}, fdt.Reports st l →
        fdt.Walks st → ∀ x ∈ l, fdt.Walked x.1 := by
      intro st l hl
      induction hl with
      | stop _ => exact fun _ x hx => absurd hx List.not_mem_nil
      | @node st found l hcall _ ih =>
        intro hst x hx
        rcases List.mem_cons.mp hx with rfl | hx
        · exact ⟨st, x.2, hst, hcall⟩
        · exact ih (hst.tail ⟨found.1, hcall⟩) x hx
    exact hwalks hl Relation.ReflTransGen.refl x hx

/-- **The nodes of the blob** are those that are reported. -/
theorem Reports.nodeAt_iff :
    fdt.NodeAt start path payload ↔ ∃ x ∈ l, fdt.structBlock + x.1.structOffset = start
      ∧ x.2.cursor = payload ∧ x.2.path.take x.2.pathLen = path.chars := by
  refine ⟨fun h => h.reported hrange hl, ?_⟩
  rintro ⟨x, hx, rfl, rfl, hpath⟩
  obtain ⟨path', hnode, hpath'⟩ :=
    hl.nodeAt hrange Opens.start (walkNames_fdtWalkInit fdt) le_rfl x hx
  have heq : path = path' := CString.ext (hpath.symm.trans hpath')
  rwa [heq]

theorem Reports.fdtNodePayload_eq {x : FdtNode × FdtWalkState} (hx : x ∈ l) :
    fdt.fdtNodePayload x.1 = ok x.2.cursor :=
  ((hl.nodes hrange le_rfl).1 x hx).2

/-- **What the search for a path finds** is the first node with it. -/
theorem Reports.findNodeByPath_iff {x : FdtNode × FdtWalkState} (hx : x ∈ l) :
    fdt.fdtFindNodeByPath path = ok x.1
      ↔ fdt.FirstAt path (fdt.structBlock + x.1.structOffset) x.2.cursor := by
  have hfind : fdt.fdtFindNodeByPath path = ok x.1
      ↔ l.find? (fun x => decide (x.2.path.take x.2.pathLen = path.chars)) = some x := by
    rw [hl.find_path_eq hrange path]
    cases hy : l.find? (fun x => decide (x.2.path.take x.2.pathLen = path.chars)) with
    | none => simp
    | some y =>
      have hmem := List.mem_of_find?_eq_some hy
      rw [Option.elim_some, ok.injEq, Option.some.injEq]
      exact ⟨fun h => hl.eq_of_offset hrange hmem hx (congrArg FdtNode.structOffset h),
        congrArg Prod.fst⟩
  rw [hfind, find?_eq_some_iff_of_pairwise (hl.pairwise hrange)]
  unfold FirstAt
  simp only [hl.nodeAt_iff hrange, decide_eq_true_eq]
  constructor
  · rintro ⟨-, hpath, hmin⟩
    refine ⟨⟨x, hx, rfl, rfl, hpath⟩, ?_⟩
    rintro start' payload' ⟨y, hy, rfl, -, hpath'⟩
    exact Nat.add_le_add_left (hmin y hy hpath') _
  · rintro ⟨⟨y, hy, hstart, -, hpath⟩, hmin⟩
    obtain rfl := hl.eq_of_offset hrange hy hx (Nat.add_left_cancel hstart)
    refine ⟨hy, hpath, fun z hz hpath' => ?_⟩
    exact Nat.le_of_add_le_add_left (hmin _ _ ⟨z, hz, rfl, rfl, hpath'⟩)

omit hl in
/-- **A node has a string exactly if it lists it.** -/
theorem fdtNodeHasCompatible_iff_lists (hpayload : fdt.fdtNodePayload node = ok payload) :
    fdt.fdtNodeHasCompatible node c = ok () ↔ fdt.Lists payload c := by
  constructor
  · intro h
    obtain ⟨prop, hget, -⟩ := bind_eq_ok.mp h
    obtain ⟨ptr, hprop, hdata⟩ := (fdtGetProperty_eq_ok_iff hrange).mp hget
    rw [fdtNodeHasCompatible_eq hget] at h
    split at h
    · next hmem =>
      refine ⟨ptr, prop.len, (hasProp_iff_ownProp hrange hpayload).mp hprop, ?_⟩
      rwa [← hdata]
    · split at h <;> exact absurd h (by simp)
  · rintro ⟨ptr, len, hprop, hmem⟩
    have hget : fdt.fdtGetProperty node compatibleName = ok ⟨ptr + 12, len⟩ :=
      (fdtGetProperty_eq_ok_iff hrange).mpr
        ⟨ptr, (hasProp_iff_ownProp hrange hpayload).mpr hprop, rfl⟩
    rw [fdtNodeHasCompatible_eq hget, if_pos hmem]

/-- **What the search for a string finds** is the first node that lists it, if no node leads
out of the blob. -/
theorem Reports.findCompatible_iff (hsafe : ∀ x ∈ l, fdt.fdtNodeHasCompatible x.1 c ≠ fault)
    {x : FdtNode × FdtWalkState} (hx : x ∈ l) :
    fdt.fdtFindCompatible c = ok x.1
      ↔ fdt.Lists x.2.cursor c ∧ ∀ y ∈ l, fdt.Lists y.2.cursor c →
        x.1.structOffset ≤ y.1.structOffset := by
  have hlists : ∀ y ∈ l, (fdt.fdtNodeHasCompatible y.1 c ≠ refused ↔ fdt.Lists y.2.cursor c) := by
    intro y hy
    rw [← fdtNodeHasCompatible_iff_lists hrange (hl.fdtNodePayload_eq hrange hy)]
    have hne := hsafe y hy
    cases hrun : fdt.fdtNodeHasCompatible y.1 c with
    | ok _ => simp
    | refused => simp
    | fault => exact absurd hrun hne
  have hfind : fdt.fdtFindCompatible c = ok x.1
      ↔ l.find? (fun x => decide (fdt.fdtNodeHasCompatible x.1 c ≠ refused)) = some x := by
    rw [hl.find_compatible_eq c]
    cases hy : l.find? (fun x => decide (fdt.fdtNodeHasCompatible x.1 c ≠ refused)) with
    | none => simp
    | some y =>
      have hmem := List.mem_of_find?_eq_some hy
      have hgoes : fdt.fdtNodeHasCompatible y.1 c ≠ refused := by simpa using List.find?_some hy
      have hok := (fdtNodeHasCompatible_iff_lists hrange (hl.fdtNodePayload_eq hrange hmem)).mpr
        ((hlists y hmem).mp hgoes)
      rw [Option.elim_some, hok, ok_bind, ok.injEq, Option.some.injEq]
      exact ⟨fun h => hl.eq_of_offset hrange hmem hx (congrArg FdtNode.structOffset h),
        congrArg Prod.fst⟩
  rw [hfind, find?_eq_some_iff_of_pairwise (hl.pairwise hrange)]
  simp only [decide_eq_true_eq]
  rw [hlists x hx]
  constructor
  · rintro ⟨-, hx', hmin⟩
    exact ⟨hx', fun y hy hy' => hmin y hy ((hlists y hy).mpr hy')⟩
  · rintro ⟨hx', hmin⟩
    exact ⟨hx, hx', fun y hy hy' => hmin y hy ((hlists y hy).mp hy')⟩

/-- **A query returns exactly the nodes that a caller can get hold of.** -/
theorem returned_iff_answers
    (hsafe : ∀ c, ∀ x ∈ l, fdt.fdtNodeHasCompatible x.1 c ≠ fault)
    {x : FdtNode × FdtWalkState} (hx : x ∈ l) (hpath : x.2.path.take x.2.pathLen = path.chars) :
    fdt.Returned x.1
      ↔ fdt.Answers (fdt.structBlock + x.1.structOffset) path x.2.cursor := by
  unfold Returned Answers
  refine or_congr ⟨?_, fun h => ⟨path, (hl.findNodeByPath_iff hrange hx).mpr h⟩⟩
    (exists_congr (fun c => ?_))
  · rintro ⟨path', h⟩
    have hfirst := (hl.findNodeByPath_iff hrange hx).mp h
    -- the node has one path
    obtain ⟨y, hy, hstart, -, hpath'⟩ := (hl.nodeAt_iff hrange).mp hfirst.1
    obtain rfl := hl.eq_of_offset hrange hy hx (Nat.add_left_cancel hstart)
    have heq : path = path' := CString.ext (hpath.symm.trans hpath')
    rwa [heq]
  · rw [hl.findCompatible_iff hrange (hsafe c) hx]
    refine and_congr_right (fun _ => ?_)
    constructor
    · rintro hmin start' path' payload' hnode hlists
      obtain ⟨y, hy, rfl, rfl, -⟩ := (hl.nodeAt_iff hrange).mp hnode
      exact Nat.add_le_add_left (hmin y hy hlists) _
    · intro hmin y hy hlists
      obtain ⟨path', hnode, -⟩ :=
        hl.nodeAt hrange Opens.start (walkNames_fdtWalkInit fdt) le_rfl y hy
      exact Nat.le_of_add_le_add_left (hmin _ path' _ hnode hlists)

end Nodes

/-! ## The condition on the bytes -/

section Iff

variable (hrange : fdt.InRange)
include hrange

/-- **Where nothing in the bytes leads out, a node can be asked for any string.** -/
theorem Contained.nodeHasCompatible (hc : fdt.Contained) (hl : fdt.Reports fdt.fdtWalkInit l)
    {x : FdtNode × FdtWalkState} (hx : x ∈ l) : fdt.fdtNodeHasCompatible x.1 c ≠ fault := by
  have hpayload := hl.fdtNodePayload_eq hrange hx
  obtain ⟨path, hnode, -⟩ :=
    hl.nodeAt hrange Opens.start (walkNames_fdtWalkInit fdt) le_rfl x hx
  refine fdtNodeHasCompatible_ne_fault hrange (fun s hscans hcut => ?_) (fun ptr len hprop => ?_)
  · obtain ⟨hpasses, hlt⟩ := (scans_iff_passes hrange hpayload).mp hscans
    exact hc.tail _ path _ compatibleName _ _ hnode (Or.inr rfl) hpasses hlt hcut
  · exact hc.entries _ path _ ptr len hnode ((hasProp_iff_ownProp hrange hpayload).mp hprop)

theorem stdoutProp_iff_consoleProp (hpayload : fdt.fdtNodePayload node = ok payload) :
    fdt.StdoutProp node ptr len ↔ fdt.ConsoleProp payload ptr len := by
  unfold StdoutProp ConsoleProp
  simp only [hasProp_iff_ownProp hrange hpayload]

/-- **What the walk and the scan come to says the same as the bytes.** -/
theorem bounded_iff_contained : fdt.Bounded ↔ fdt.Contained := by
  obtain ⟨l, hl⟩ := exists_reports hrange (walkSafe_fdtWalkInit fdt)
  constructor
  · intro hb
    have hsafe : ∀ c, ∀ x ∈ l, fdt.fdtNodeHasCompatible x.1 c ≠ fault := fun c x hx =>
      hb.nodeHasCompatible hrange ((hl.walked_iff hrange).mpr ⟨x, hx, rfl⟩)
    constructor
    · intro start path payload name ptr depth hnode hname hpasses hlt hcut
      obtain ⟨x, hx, rfl, rfl, hpath⟩ := (hl.nodeAt_iff hrange).mp hnode
      refine hb.tail x.1 name ⟨ptr, depth⟩ (hname.imp ?_ ?_) ?_ hcut
      · exact (returned_iff_answers hrange hl hsafe hx hpath).mpr
      · exact fun h => ⟨(hl.walked_iff hrange).mpr ⟨x, hx, rfl⟩, h⟩
      · exact (scans_iff_passes hrange (hl.fdtNodePayload_eq hrange hx)).mpr ⟨hpasses, hlt⟩
    · intro start path payload name ptr hnode hanswers hprop hcut
      obtain ⟨x, hx, rfl, rfl, hpath⟩ := (hl.nodeAt_iff hrange).mp hnode
      exact hb.word x.1 name ptr ((returned_iff_answers hrange hl hsafe hx hpath).mpr hanswers)
        ((hasProp_iff_ownProp hrange (hl.fdtNodePayload_eq hrange hx)).mpr hprop) hcut
    · intro start payload ptr len hfirst hprop hcut
      obtain ⟨x, hx, rfl, rfl, -⟩ := (hl.nodeAt_iff hrange).mp hfirst.1
      exact hb.stdout x.1 ptr len ((hl.findNodeByPath_iff hrange hx).mpr hfirst)
        ((stdoutProp_iff_consoleProp hrange (hl.fdtNodePayload_eq hrange hx)).mpr hprop) hcut
    · intro start payload name ptr len hfirst hprop hcut
      obtain ⟨x, hx, rfl, rfl, -⟩ := (hl.nodeAt_iff hrange).mp hfirst.1
      exact hb.aliases x.1 name ptr len ((hl.findNodeByPath_iff hrange hx).mpr hfirst)
        ((hasProp_iff_ownProp hrange (hl.fdtNodePayload_eq hrange hx)).mpr hprop) hcut
    · intro start path payload ptr len hnode hprop
      obtain ⟨x, hx, rfl, rfl, -⟩ := (hl.nodeAt_iff hrange).mp hnode
      exact hb.entries x.1 ptr len ((hl.walked_iff hrange).mpr ⟨x, hx, rfl⟩)
        ((hasProp_iff_ownProp hrange (hl.fdtNodePayload_eq hrange hx)).mpr hprop)
  · intro hc
    have hsafe : ∀ c, ∀ x ∈ l, fdt.fdtNodeHasCompatible x.1 c ≠ fault := fun c x hx =>
      hc.nodeHasCompatible hrange hl hx
    -- a node of the walk is one of the blob
    have hnodeAt : ∀ x ∈ l, ∃ path,
        fdt.NodeAt (fdt.structBlock + x.1.structOffset) path x.2.cursor
          ∧ x.2.path.take x.2.pathLen = path.chars :=
      hl.nodeAt hrange Opens.start (walkNames_fdtWalkInit fdt) le_rfl
    constructor
    · intro node name s hnode hscans hcut
      obtain ⟨x, hx, rfl⟩ := (hl.walked_iff hrange).mp
        (hnode.elim Returned.walked (fun h => h.1))
      obtain ⟨path, hat, hpath⟩ := hnodeAt x hx
      obtain ⟨hpasses, hlt⟩ :=
        (scans_iff_passes hrange (hl.fdtNodePayload_eq hrange hx)).mp hscans
      refine hc.tail _ path _ name _ _ hat (hnode.imp ?_ (fun h => h.2)) hpasses hlt hcut
      exact (returned_iff_answers hrange hl hsafe hx hpath).mp
    · intro node name ptr hreturned hprop hcut
      obtain ⟨x, hx, rfl⟩ := (hl.walked_iff hrange).mp hreturned.walked
      obtain ⟨path, hat, hpath⟩ := hnodeAt x hx
      exact hc.word _ path _ name ptr hat
        ((returned_iff_answers hrange hl hsafe hx hpath).mp hreturned)
        ((hasProp_iff_ownProp hrange (hl.fdtNodePayload_eq hrange hx)).mp hprop) hcut
    · intro node ptr len hfind hprop hcut
      obtain ⟨x, hx, rfl⟩ := (hl.walked_iff hrange).mp
        (Returned.walked (Or.inl ⟨chosenPath, hfind⟩))
      exact hc.stdout _ _ ptr len ((hl.findNodeByPath_iff hrange hx).mp hfind)
        ((stdoutProp_iff_consoleProp hrange (hl.fdtNodePayload_eq hrange hx)).mp hprop) hcut
    · intro node name ptr len hfind hprop hcut
      obtain ⟨x, hx, rfl⟩ := (hl.walked_iff hrange).mp
        (Returned.walked (Or.inl ⟨aliasesPath, hfind⟩))
      exact hc.aliases _ _ name ptr len ((hl.findNodeByPath_iff hrange hx).mp hfind)
        ((hasProp_iff_ownProp hrange (hl.fdtNodePayload_eq hrange hx)).mp hprop) hcut
    · intro node ptr len hwalked hprop
      obtain ⟨x, hx, rfl⟩ := (hl.walked_iff hrange).mp hwalked
      obtain ⟨path, hat, -⟩ := hnodeAt x hx
      exact hc.entries _ path _ ptr len hat
        ((hasProp_iff_ownProp hrange (hl.fdtNodePayload_eq hrange hx)).mp hprop)

end Iff

/-- **The queries on a blob that `fdt_init` accepts stay inside it exactly if
nothing in its bytes leads out of it.** -/
theorem safe_iff_contained {mem : List UInt8} {base totalSize : ℕ} (h : fdtInit mem base = ok fdt)
    (htotal : fdtReadBe32 mem 4 = some totalSize) (hle : totalSize ≤ mem.length) :
    (fdt.clip totalSize).Safe ↔ (fdt.clip totalSize).Contained :=
  (safe_iff (inRange_clip h htotal hle)).trans (bounded_iff_contained (inRange_clip h htotal hle))

/-- For the cut-off blob, too, in which one byte follows the root node. -/
theorem safe_iff_contained_cutBlob : (cutFdt.clip 49).Safe ↔ (cutFdt.clip 49).Contained :=
  safe_iff_contained (show fdtInit cutBlob 0 = ok cutFdt from rfl) rfl le_rfl

end Fdt
