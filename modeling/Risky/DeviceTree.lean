import Risky.Fdt

/-!
# Device trees

A device tree as its format describes it: every node has properties and subnodes,
and every node but the root has a name. Written down in order, a tree is a list of
events (`DeviceTree.events`): a node begins, it has a property, it ends.

A reader who goes through the events once knows of each node what is open around
it, with the properties that have come so far (`OpenNode`). What it reports
(`visits`) is what the tree says of its nodes (`DeviceTree.visits_eq`), the path,
the properties and those of the parent; and it does not have to give up on the
way (`DeviceTree.accepts`).
-/

/-! ## Trees -/

/-- **A property**. -/
structure DtProp where
  /-- Its name. -/
  name : CString
  /-- Its bytes. -/
  value : List UInt8
  deriving DecidableEq

/-- **The subnodes of a node**, each with its own subnodes. -/
inductive Forest where
  | nil
  | cons (name : CString) (props : List DtProp) (children siblings : Forest)

/-- **A device tree**, which is its root. -/
structure DeviceTree where
  /-- The name of the root, which is not part of any path. -/
  name : CString
  /-- The properties of the root. -/
  props : List DtProp
  /-- The subnodes of the root. -/
  children : Forest

/-- **A node of a tree**. -/
structure DtNode where
  /-- The names on the way from the root to the node. -/
  names : List CString
  /-- The properties of its parent, unless it is the root. -/
  parent : Option (List DtProp)
  /-- Its properties. -/
  props : List DtProp

/-- The full path that goes by some names. -/
def fullPath (names : List CString) : CString where
  chars := if names = [] then [slash] else names.flatMap (fun name => slash :: name.chars)
  nul_notMem := by
    split
    · decide
    · intro h
      obtain ⟨name, -, hname⟩ := List.mem_flatMap.mp h
      rcases List.mem_cons.mp hname with hslash | hchars
      · exact absurd hslash (by decide)
      · exact name.nul_notMem hchars

/-- A big-endian number. -/
def bigEndian (bytes : List UInt8) : ℕ := bytes.foldl (fun n b => 256 * n + b.toNat) 0

/-- The value of a property with numbers of cells, or the default. -/
def cellsOf (name : CString) (default : ℕ) (props : List DtProp) : ℕ :=
  ((props.find? (fun p => p.name = name)).map (fun p => bigEndian p.value)).getD default

namespace DtNode

/-- Its full path. -/
def path (n : DtNode) : CString := fullPath n.names

/-- The `#address-cells` of its parent. -/
def parentAddressCells (n : DtNode) : ℕ := cellsOf addressCells 2 (n.parent.getD [])

/-- The `#size-cells` of its parent. -/
def parentSizeCells (n : DtNode) : ℕ := cellsOf sizeCells 1 (n.parent.getD [])

/-- **A node within the limits**. -/
structure Valid (n : DtNode) : Prop where
  /-- It is at most on level 32, where the root is on level 1. -/
  level_le : n.names.length + 1 ≤ 32
  /-- Names are not empty and have no `'/'` in them. -/
  names : ∀ name ∈ n.names, name.chars ≠ [] ∧ slash ∉ name.chars
  /-- The full path has at most 255 characters. -/
  path_le : n.path.length ≤ 255
  /-- Its properties have different names. -/
  props_nodup : (n.props.map DtProp.name).Nodup
  /-- Numbers of cells have four bytes. -/
  cells_length : ∀ p ∈ n.props, p.name = addressCells ∨ p.name = sizeCells → p.value.length = 4

end DtNode

namespace Forest

/-- The names of the nodes next to each other. -/
def names : Forest → List CString
  | nil => []
  | cons name _ _ siblings => name :: siblings.names

/-- All nodes, in the order of their beginnings, below a node to which some names
lead. -/
def nodes (names : List CString) (parent : List DtProp) : Forest → List DtNode
  | nil => []
  | cons name props children siblings =>
    ⟨names ++ [name], some parent, props⟩ :: nodes (names ++ [name]) props children
      ++ nodes names parent siblings

/-- Siblings have different names. -/
def SiblingsDiffer : Forest → Prop
  | nil => True
  | cons name _ children siblings =>
    name ∉ siblings.names ∧ children.SiblingsDiffer ∧ siblings.SiblingsDiffer

end Forest

namespace DeviceTree

/-- **The nodes of a tree**, in the order of their beginnings. -/
def nodes (T : DeviceTree) : List DtNode := ⟨[], none, T.props⟩ :: T.children.nodes [] T.props

/-- **A tree within the limits**. -/
structure Valid (T : DeviceTree) : Prop where
  nodes : ∀ n ∈ T.nodes, n.Valid
  siblings : T.children.SiblingsDiffer

end DeviceTree

/-! ## Paths -/

theorem fullPath_nil : (fullPath []).chars = [slash] := rfl

theorem fullPath_cons (name : CString) (names : List CString) :
    (fullPath (name :: names)).chars
      = slash :: name.chars ++ names.flatMap (fun name => slash :: name.chars) := rfl

/-- A name ends at the next `'/'`. -/
theorem takeWhile_name {xs : List UInt8} (hxs : slash ∉ xs) (names : List CString) :
    (xs ++ names.flatMap (fun name => slash :: name.chars)).takeWhile (· ≠ slash) = xs := by
  have hall : ∀ x ∈ xs, decide (x ≠ slash) = true := fun x hx =>
    decide_eq_true (fun h => hxs (h ▸ hx))
  rw [List.takeWhile_append_of_pos hall]
  cases names with
  | nil => exact List.append_nil _
  | cons name names =>
    rw [List.flatMap_cons, List.cons_append, List.takeWhile_cons_of_neg (by simp)]
    exact List.append_nil _

/-- **A path tells the names** that it goes by. -/
theorem eq_of_flatMap_eq {names names' : List CString} (h : ∀ name ∈ names, slash ∉ name.chars)
    (h' : ∀ name ∈ names', slash ∉ name.chars)
    (heq : names.flatMap (fun name => slash :: name.chars)
      = names'.flatMap (fun name => slash :: name.chars)) : names = names' := by
  induction names generalizing names' with
  | nil =>
    cases names' with
    | nil => rfl
    | cons name' names' => exact absurd heq.symm (List.cons_ne_nil _ _)
  | cons name names ih =>
    cases names' with
    | nil => exact absurd heq (List.cons_ne_nil _ _)
    | cons name' names' =>
      obtain ⟨hname, hnames⟩ := List.forall_mem_cons.mp h
      obtain ⟨hname', hnames'⟩ := List.forall_mem_cons.mp h'
      rw [List.flatMap_cons, List.flatMap_cons, List.cons_append, List.cons_append] at heq
      have htail := (List.cons.inj heq).2
      have hchars : name.chars = name'.chars := by
        rw [← takeWhile_name hname names, htail, takeWhile_name hname' names']
      rw [hchars] at htail
      rw [CString.ext hchars, ih hnames hnames' (List.append_cancel_left htail)]

theorem fullPath_injective {names names' : List CString}
    (h : ∀ name ∈ names, name.chars ≠ [] ∧ slash ∉ name.chars)
    (h' : ∀ name ∈ names', name.chars ≠ [] ∧ slash ∉ name.chars)
    (heq : fullPath names = fullPath names') : names = names' := by
  have hroot : ∀ (name : CString) (names : List CString), name.chars ≠ [] →
      fullPath [] ≠ fullPath (name :: names) := by
    intro name names hname hpath
    have hchars := congrArg CString.chars hpath
    rw [fullPath_nil, fullPath_cons, List.cons_append] at hchars
    exact hname (List.append_eq_nil_iff.mp (List.cons.inj hchars).2.symm).1
  cases names with
  | nil =>
    cases names' with
    | nil => rfl
    | cons name' names' =>
      exact absurd heq (hroot name' names' (h' name' List.mem_cons_self).1)
  | cons name names =>
    cases names' with
    | nil => exact absurd heq.symm (hroot name names (h name List.mem_cons_self).1)
    | cons name' names' =>
      refine eq_of_flatMap_eq (fun x hx => (h x hx).2) (fun x hx => (h' x hx).2) ?_
      have hchars := congrArg CString.chars heq
      rw [fullPath_cons, fullPath_cons] at hchars
      exact hchars

namespace Forest

theorem names_of_mem_nodes {f : Forest} {names : List CString} {parent : List DtProp} {n : DtNode}
    (h : n ∈ f.nodes names parent) : ∃ name ∈ f.names, ∃ rest, n.names = names ++ name :: rest := by
  induction f generalizing names parent with
  | nil => exact absurd h List.not_mem_nil
  | cons name props children siblings ihc ihs =>
    rcases List.mem_cons.mp h with rfl | h
    · exact ⟨name, List.mem_cons_self, [], rfl⟩
    rcases List.mem_append.mp h with h | h
    · obtain ⟨name', -, rest, hrest⟩ := ihc h
      refine ⟨name, List.mem_cons_self, name' :: rest, ?_⟩
      rw [hrest, List.append_assoc]
      rfl
    · obtain ⟨name', hname', rest, hrest⟩ := ihs h
      exact ⟨name', List.mem_cons_of_mem _ hname', rest, hrest⟩

/-- **No two nodes have the same names** leading to them. -/
theorem nodup_names {f : Forest} (h : f.SiblingsDiffer) (names : List CString)
    (parent : List DtProp) : ((f.nodes names parent).map DtNode.names).Nodup := by
  induction f generalizing names parent with
  | nil => exact List.nodup_nil
  | cons name props children siblings ihc ihs =>
    obtain ⟨hname, hchildren, hsiblings⟩ := h
    have hout : ∀ n ∈ siblings.nodes names parent, ∀ rest, n.names ≠ names ++ name :: rest := by
      intro n hn rest heq
      obtain ⟨name', hname', rest', heq'⟩ := names_of_mem_nodes hn
      rw [heq'] at heq
      exact hname ((List.cons.inj (List.append_cancel_left heq)).1 ▸ hname')
    show ((⟨names ++ [name], some parent, props⟩ :: nodes (names ++ [name]) props children
      ++ nodes names parent siblings).map DtNode.names).Nodup
    rw [List.cons_append, List.map_cons, List.map_append, List.nodup_cons, List.nodup_append']
    refine ⟨?_, ihc hchildren _ _, ihs hsiblings _ _, ?_⟩
    · rw [List.mem_append, not_or]
      refine ⟨fun hmem => ?_, fun hmem => ?_⟩
      · obtain ⟨n, hn, heq⟩ := List.mem_map.mp hmem
        obtain ⟨name', -, rest, hrest⟩ := names_of_mem_nodes hn
        rw [hrest] at heq
        exact absurd (List.append_right_eq_self.mp heq) (List.cons_ne_nil _ _)
      · obtain ⟨n, hn, heq⟩ := List.mem_map.mp hmem
        exact hout n hn [] heq
    · intro ns hc hs
      obtain ⟨n, hn, rfl⟩ := List.mem_map.mp hc
      obtain ⟨n', hn', heq⟩ := List.mem_map.mp hs
      obtain ⟨name', -, rest, hrest⟩ := names_of_mem_nodes hn
      refine hout n' hn' (name' :: rest) (heq.trans ?_)
      rw [hrest, List.append_assoc]
      rfl

end Forest

/-- **The nodes of a tree have different paths.** -/
theorem DeviceTree.Valid.nodup_path {T : DeviceTree} (h : T.Valid) :
    (T.nodes.map DtNode.path).Nodup := by
  have hnames : (T.nodes.map DtNode.names).Nodup := by
    refine List.nodup_cons.mpr ⟨fun hmem => ?_, Forest.nodup_names h.siblings _ _⟩
    obtain ⟨n, hn, heq⟩ := List.mem_map.mp hmem
    obtain ⟨name, -, rest, hrest⟩ := Forest.names_of_mem_nodes hn
    rw [hrest] at heq
    exact absurd heq (List.cons_ne_nil _ _)
  have hpath : T.nodes.map DtNode.path = (T.nodes.map DtNode.names).map fullPath := by
    rw [List.map_map]
    rfl
  rw [hpath]
  refine List.Nodup.map_on (fun ns hns ns' hns' heq => ?_) hnames
  obtain ⟨n, hn, rfl⟩ := List.mem_map.mp hns
  obtain ⟨n', hn', rfl⟩ := List.mem_map.mp hns'
  exact fullPath_injective (h.nodes n hn).names (h.nodes n' hn').names heq

/-! ## Events -/

/-- **What the text of a tree announces**. -/
inductive DtEvent where
  | beginNode (name : CString)
  | prop (p : DtProp)
  | endNode

/-- The text of nodes next to each other: the properties of a node before its
subnodes. -/
def Forest.events : Forest → List DtEvent
  | nil => []
  | cons name props children siblings =>
    DtEvent.beginNode name :: (props.map DtEvent.prop
      ++ (children.events ++ DtEvent.endNode :: siblings.events))

/-- **The text of a tree**. -/
def DeviceTree.events (T : DeviceTree) : List DtEvent :=
  DtEvent.beginNode T.name :: (T.props.map DtEvent.prop
    ++ (T.children.events ++ [DtEvent.endNode]))

/-- **A node that is open**: its path, and its properties so far. -/
structure OpenNode where
  path : CString
  props : List DtProp

/-- A path with a `'/'` at its end. -/
def slashed (path : List UInt8) : List UInt8 :=
  if path.getLast? = some slash then path else path ++ [slash]

/-- The path of a subnode. -/
def childPath (path name : CString) : CString where
  chars := slashed path.chars ++ name.chars
  nul_notMem := by
    rw [List.mem_append, not_or]
    refine ⟨?_, name.nul_notMem⟩
    unfold slashed
    split
    · exact path.nul_notMem
    · rw [List.mem_append, not_or]
      exact ⟨path.nul_notMem, by decide⟩

/-- The node that begins. -/
def enter : List OpenNode → CString → OpenNode
  | [], _ => ⟨fullPath [], []⟩
  | o :: _, name => ⟨childPath o.path name, []⟩

/-- The innermost open node has a property. -/
def addProp (p : DtProp) : List OpenNode → List OpenNode
  | [] => []
  | o :: stack => { o with props := o.props ++ [p] } :: stack

/-- The properties of the innermost open node so far. -/
def openProps : List OpenNode → List DtProp
  | [] => []
  | o :: _ => o.props

/-- The properties of the node that has just begun, or of one so many levels
further out. -/
def ownProps : ℕ → List DtEvent → List DtProp
  | _, [] => []
  | depth, DtEvent.beginNode _ :: es => ownProps (depth + 1) es
  | 0, DtEvent.endNode :: _ => []
  | depth + 1, DtEvent.endNode :: es => ownProps depth es
  | 0, DtEvent.prop p :: es => p :: ownProps 0 es
  | depth + 1, DtEvent.prop _ :: es => ownProps (depth + 1) es

/-- **What is reported of a node**. -/
structure Report where
  path : CString
  parentProps : List DtProp
  props : List DtProp

/-- **The reports on a text**, with the nodes that are open. -/
def reports : List OpenNode → List DtEvent → List Report
  | _, [] => []
  | stack, DtEvent.beginNode name :: es =>
    ⟨(enter stack name).path, openProps stack, ownProps 0 es⟩
      :: reports (enter stack name :: stack) es
  | stack, DtEvent.endNode :: es => reports stack.tail es
  | stack, DtEvent.prop p :: es => reports (addProp p stack) es

/-- **A text that can be read**: what begins is not too deep and its path not too
long, properties are those of an open node, and its numbers of cells are given
once. -/
def Readable : List OpenNode → List DtEvent → Prop
  | _, [] => True
  | stack, DtEvent.beginNode name :: es =>
    stack.length < 32 ∧ (enter stack name).path.length ≤ 255
      ∧ Readable (enter stack name :: stack) es
  | stack, DtEvent.endNode :: es => stack ≠ [] ∧ Readable stack.tail es
  | stack, DtEvent.prop p :: es =>
    stack ≠ [] ∧ p.name ∉ (openProps stack).map DtProp.name
      ∧ (p.name = addressCells ∨ p.name = sizeCells → p.value.length = 4)
      ∧ Readable (addProp p stack) es

/-- What a node is reported as. -/
def DtNode.report (n : DtNode) : Report := ⟨n.path, n.parent.getD [], n.props⟩

theorem ownProps_props (depth : ℕ) (props : List DtProp) (es : List DtEvent) :
    ownProps (depth + 1) (props.map DtEvent.prop ++ es) = ownProps (depth + 1) es := by
  induction props with
  | nil => rfl
  | cons p props ih => exact ih

theorem ownProps_own (props : List DtProp) (es : List DtEvent) :
    ownProps 0 (props.map DtEvent.prop ++ es) = props ++ ownProps 0 es := by
  induction props with
  | nil => rfl
  | cons p props ih => exact congrArg (List.cons p) ih

/-- **Subnodes are skipped.** -/
theorem ownProps_events (f : Forest) (depth : ℕ) (es : List DtEvent) :
    ownProps depth (f.events ++ es) = ownProps depth es := by
  induction f generalizing depth es with
  | nil => rfl
  | cons name props children siblings ihc ihs =>
    show ownProps (depth + 1) (props.map DtEvent.prop
      ++ (children.events ++ DtEvent.endNode :: siblings.events) ++ es) = _
    rw [List.append_assoc, ownProps_props, List.append_assoc, ihc]
    exact ihs depth es

/-- The properties of a node that begins. -/
theorem ownProps_node (props : List DtProp) (f : Forest) (es : List DtEvent) :
    ownProps 0 (props.map DtEvent.prop ++ (f.events ++ DtEvent.endNode :: es)) = props := by
  rw [ownProps_own, ownProps_events]
  exact List.append_nil _

theorem reports_props (o : OpenNode) (stack : List OpenNode) (props : List DtProp)
    (es : List DtEvent) :
    reports (o :: stack) (props.map DtEvent.prop ++ es)
      = reports ({ o with props := o.props ++ props } :: stack) es := by
  induction props generalizing o with
  | nil =>
    rw [List.append_nil]
    rfl
  | cons p props ih =>
    refine (ih _).trans ?_
    rw [List.append_assoc]
    rfl

theorem readable_props (o : OpenNode) (stack : List OpenNode) {props : List DtProp}
    (es : List DtEvent) (hnodup : ((o.props ++ props).map DtProp.name).Nodup)
    (hcells : ∀ p ∈ props, p.name = addressCells ∨ p.name = sizeCells → p.value.length = 4)
    (h : Readable ({ o with props := o.props ++ props } :: stack) es) :
    Readable (o :: stack) (props.map DtEvent.prop ++ es) := by
  induction props generalizing o with
  | nil =>
    rw [List.append_nil] at h
    exact h
  | cons p props ih =>
    obtain ⟨hp, hcells⟩ := List.forall_mem_cons.mp hcells
    rw [List.append_cons] at hnodup h
    refine ⟨List.cons_ne_nil _ _, ?_, hp, ih _ hnodup hcells h⟩
    rw [List.append_assoc, List.map_append, List.nodup_append'] at hnodup
    exact fun hmem => hnodup.2.2 hmem List.mem_cons_self

/-- A path that is not the root's does not end in `'/'`. -/
theorem getLast?_flatMap_ne {names : List CString}
    (h : ∀ name ∈ names, name.chars ≠ [] ∧ slash ∉ name.chars) :
    (names.flatMap (fun name => slash :: name.chars)).getLast? ≠ some slash := by
  rcases List.eq_nil_or_concat' names with rfl | ⟨names', name, rfl⟩
  · exact fun h => nomatch h
  · obtain ⟨hne, hslash⟩ := h name (List.mem_append_right _ (List.mem_singleton_self _))
    rcases List.eq_nil_or_concat' name.chars with hnil | ⟨cs, c, hcs⟩
    · exact absurd hnil hne
    · have hc : c ≠ slash := fun hc => hslash (by rw [hcs, hc]; simp)
      rw [List.flatMap_append, List.flatMap_singleton, hcs, ← List.cons_append,
        ← List.append_assoc, List.getLast?_concat]
      exact fun heq => hc (Option.some.inj heq)

/-- **The path of a subnode** is the full path with its name. -/
theorem childPath_fullPath {names : List CString}
    (h : ∀ name ∈ names, name.chars ≠ [] ∧ slash ∉ name.chars) (name : CString) :
    childPath (fullPath names) name = fullPath (names ++ [name]) := by
  refine CString.ext ?_
  cases names with
  | nil => exact (List.append_nil (slash :: name.chars)).symm
  | cons first names =>
    have hlast : (fullPath (first :: names)).chars.getLast? ≠ some slash := getLast?_flatMap_ne h
    show slashed (fullPath (first :: names)).chars ++ name.chars = _
    rw [slashed, if_neg hlast, List.append_assoc]
    show _ = ((first :: names) ++ [name]).flatMap (fun name => slash :: name.chars)
    rw [List.flatMap_append, List.flatMap_singleton]
    rfl

theorem Forest.events_cons_append (name : CString) (props : List DtProp)
    (children siblings : Forest) (es : List DtEvent) :
    (cons name props children siblings).events ++ es
      = DtEvent.beginNode name :: (props.map DtEvent.prop
        ++ (children.events ++ DtEvent.endNode :: (siblings.events ++ es))) := by
  rw [events, List.cons_append, List.append_assoc, List.append_assoc, List.cons_append]

/-- **What is reported of subnodes.** -/
theorem Forest.reports_eq (f : Forest) {o : OpenNode} {names : List CString}
    (stack : List OpenNode) (es : List DtEvent) (ho : o.path = fullPath names)
    (hnames : ∀ name ∈ names, name.chars ≠ [] ∧ slash ∉ name.chars)
    (hvalid : ∀ n ∈ f.nodes names o.props, n.Valid) :
    reports (o :: stack) (f.events ++ es)
      = (f.nodes names o.props).map DtNode.report ++ reports (o :: stack) es := by
  induction f generalizing o names stack es with
  | nil => rfl
  | cons name props children siblings ihc ihs =>
    obtain ⟨hnode, hrest⟩ := List.forall_mem_cons.mp hvalid
    obtain ⟨hchildren, hsiblings⟩ := List.forall_mem_append.mp hrest
    have hpath : childPath o.path name = fullPath (names ++ [name]) := by
      rw [ho, childPath_fullPath hnames]
    have hc := @ihc ⟨childPath o.path name, props⟩ (names ++ [name]) (o :: stack)
      (DtEvent.endNode :: (siblings.events ++ es)) hpath hnode.names hchildren
    have hs := ihs stack es ho hnames hsiblings
    rw [events_cons_append]
    show ⟨childPath o.path name, o.props, _⟩ :: reports (⟨childPath o.path name, []⟩ :: o :: stack)
      _ = _
    rw [ownProps_node, reports_props]
    show _ :: reports (⟨childPath o.path name, props⟩ :: o :: stack) _ = _
    rw [hc, hpath]
    show _ :: (_ ++ reports (o :: stack) (siblings.events ++ es)) = _
    rw [hs, ← List.append_assoc, ← List.map_append]
    rfl

/-- **What is reported of a tree** is what it has. -/
theorem DeviceTree.Valid.reports_eq {T : DeviceTree} (h : T.Valid) :
    reports [] T.events = T.nodes.map DtNode.report := by
  have hc := Forest.reports_eq (o := ⟨fullPath [], T.props⟩) T.children [] [DtEvent.endNode] rfl
    (fun _ hname => absurd hname List.not_mem_nil) (List.forall_mem_cons.mp h.nodes).2
  show ⟨fullPath [], [], _⟩ :: reports [⟨fullPath [], []⟩] _ = _
  rw [ownProps_node, reports_props]
  show _ :: reports [⟨fullPath [], T.props⟩] _ = _
  rw [hc]
  exact congrArg (List.cons _) (List.append_nil _)

/-- Subnodes can be read. -/
theorem Forest.readable {f : Forest} {o : OpenNode} {names : List CString}
    {stack : List OpenNode} {es : List DtEvent} (ho : o.path = fullPath names)
    (hlevel : stack.length = names.length)
    (hnames : ∀ name ∈ names, name.chars ≠ [] ∧ slash ∉ name.chars)
    (hvalid : ∀ n ∈ f.nodes names o.props, n.Valid) (h : Readable (o :: stack) es) :
    Readable (o :: stack) (f.events ++ es) := by
  induction f generalizing o names stack es with
  | nil => exact h
  | cons name props children siblings ihc ihs =>
    obtain ⟨hnode, hrest⟩ := List.forall_mem_cons.mp hvalid
    obtain ⟨hchildren, hsiblings⟩ := List.forall_mem_append.mp hrest
    have hpath : childPath o.path name = fullPath (names ++ [name]) := by
      rw [ho, childPath_fullPath hnames]
    have hlen : (o :: stack).length + 1 = (names ++ [name]).length + 1 := by
      rw [List.length_append, List.length_cons, hlevel]
      rfl
    have hnext : Readable (⟨childPath o.path name, props⟩ :: o :: stack)
        (children.events ++ DtEvent.endNode :: (siblings.events ++ es)) :=
      ihc hpath (Nat.succ.inj hlen) hnode.names hchildren
        ⟨List.cons_ne_nil _ _, ihs ho hlevel hnames hsiblings h⟩
    have hlevel_le := hnode.level_le
    have hpath_le := hnode.path_le
    rw [events_cons_append]
    refine ⟨by rw [← hlen] at hlevel_le; exact hlevel_le, ?_, ?_⟩
    · show (childPath o.path name).length ≤ 255
      rw [hpath]
      exact hpath_le
    · exact readable_props ⟨childPath o.path name, []⟩ (o :: stack) _ hnode.props_nodup
        hnode.cells_length hnext

/-- **The text of a tree within the limits can be read.** -/
theorem DeviceTree.Valid.readable {T : DeviceTree} (h : T.Valid) : Readable [] T.events := by
  obtain ⟨hroot, hnodes⟩ := List.forall_mem_cons.mp h.nodes
  have hchildren : Readable [⟨fullPath [], T.props⟩] (T.children.events ++ [DtEvent.endNode]) :=
    Forest.readable rfl rfl (fun _ hname => absurd hname List.not_mem_nil) hnodes
      ⟨List.cons_ne_nil _ _, trivial⟩
  exact ⟨by decide, (by decide : (fullPath []).length ≤ 255),
    readable_props ⟨fullPath [], []⟩ [] _ hroot.props_nodup
    hroot.cells_length hchildren⟩
