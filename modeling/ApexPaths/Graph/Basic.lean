import ApexPaths.NodeKind
import ApexPaths.Property
import ApexPaths.Span

/-!
The code graph. Vertices are numbered in the order of their creation; each keeps its edges in the
order of their insertion: the tree, control flow, and the two directions of inheritance. One table gives the
vertices of each label, another one those that were ever assigned a defining type, by its name in lower case.
-/

namespace ApexPaths
set_option autoImplicit false

/-! ## Kinds of edges -/

/-- How control leaves a vertex along an edge. -/
inductive FlowKind where
  | sequential
  /-- The condition held. -/
  | positive
  /-- The condition did not hold. -/
  | negative
  /-- From the subject of a switch to one of its branches. -/
  | case
  deriving DecidableEq, Repr, Inhabited

/-- The outcome of a condition. -/
inductive Polarity where
  | positive
  | negative
  deriving DecidableEq, Repr

def FlowKind.polarity? : FlowKind → Option Polarity
  | .positive => some .positive
  | .negative => some .negative
  | _ => none

def FlowKind.name : FlowKind → String
  | .sequential => "Sequential"
  | .positive => "Positive"
  | .negative => "Negative"
  | .case => "Case"

inductive EdgeLabel where
  | child
  | flow (kind : FlowKind)
  | extensionOf
  | extendedBy
  | implementationOf
  | implementedBy
  deriving DecidableEq, Repr

namespace EdgeLabel

def flow? : EdgeLabel → Option FlowKind
  | .flow kind => some kind
  | _ => none

/-- The label of the edge that goes the other way, for inheritance. -/
def reverse? : EdgeLabel → Option EdgeLabel
  | .extensionOf => some .extendedBy
  | .extendedBy => some .extensionOf
  | .implementationOf => some .implementedBy
  | .implementedBy => some .implementationOf
  | _ => none

def name : EdgeLabel → String
  | .child => "Child"
  | .flow kind => kind.name
  | .extensionOf => "ExtensionOf"
  | .extendedBy => "ExtendedBy"
  | .implementationOf => "ImplementationOf"
  | .implementedBy => "ImplementedBy"

def all : List EdgeLabel :=
  [.child, .extensionOf, .extendedBy, .implementationOf, .implementedBy, .flow .sequential, .flow .positive,
  .flow .negative, .flow .case]

end EdgeLabel

/-! ## The record of a vertex -/

abbrev VertexId := Nat

/-- A vertex with its edges in insertion order, each with the vertex at its other end. -/
structure Vertex where
  label : NodeKind
  span : Span
  props : PropertyMap
  outgoing : Array (EdgeLabel × VertexId) := #[]
  incoming : Array (EdgeLabel × VertexId) := #[]
  deriving Inhabited

/-- A fresh vertex knows where its source begins and ends. -/
def Vertex.make (label : NodeKind) (span : Span) : Vertex where
  label
  span
  props := [(.fact .beginLine, .int span.startLine), (.fact .beginColumn, .int span.startColumn),
    (.fact .endLine, .int span.endLine)]

/-! ## The table of labels -/

/-- The vertices of each label that occurs, in creation order. -/
abbrev LabelTable := List (NodeKind × List VertexId)

namespace LabelTable

def members (table : LabelTable) (label : NodeKind) : List VertexId :=
  match table with
  | [] => []
  | (l, listed) :: rest => if l == label then listed else members rest label

/-- Put a vertex after the others of its label. -/
def enter (table : LabelTable) (label : NodeKind) (id : VertexId) : LabelTable :=
  match table with
  | [] => [(label, [id])]
  | (l, listed) :: rest => if l == label then (l, listed ++ [id]) :: rest else (l, listed) :: enter rest label id

theorem members_enter (table : LabelTable) (label l : NodeKind) (id : VertexId) :
    (table.enter label id).members l = if label = l then table.members l ++ [id] else table.members l := by
  induction table with
  | nil => by_cases h : label = l <;> simp [enter, members, h]
  | cons entry rest ih =>
    obtain ⟨first, listed⟩ := entry
    by_cases hfirst : first = label
    · subst hfirst
      by_cases h : first = l <;> simp [enter, members, h]
    · by_cases h : first = l
      · subst h
        simp [enter, members, hfirst, Ne.symm hfirst]
      · simp [enter, members, hfirst, h, ih]

end LabelTable

/-- The positions of the vertices of a label. -/
def labelled (vertices : Array Vertex) (label : NodeKind) : List VertexId :=
  (List.range vertices.size).filter fun id => vertices[id]?.map (·.label) == some label

theorem members_nil : ∀ label, LabelTable.members [] label = labelled #[] label := fun _ => rfl

theorem labelled_push (vertices : Array Vertex) (vertex : Vertex) (label : NodeKind) :
    labelled (vertices.push vertex) label =
      if vertex.label = label then labelled vertices label ++ [vertices.size] else labelled vertices label := by
  have hold : ∀ id ∈ List.range vertices.size, ((vertices.push vertex)[id]?.map (·.label) == some label) =
      (vertices[id]?.map (·.label) == some label) := by
    intro id hid
    rw [Array.getElem?_push, if_neg (Nat.ne_of_lt (List.mem_range.mp hid))]
  rw [labelled, Array.size_push, List.range_succ, List.filter_append, List.filter_congr hold]
  by_cases h : vertex.label = label
  · simp [labelled, h]
  · simp [labelled, h, beq_eq_false_iff_ne.mpr h]

theorem labelled_modify (vertices : Array Vertex) (id : VertexId) {change : Vertex → Vertex}
    (hlabel : ∀ vertex, (change vertex).label = vertex.label) : labelled (vertices.modify id change) =
    labelled vertices := by
  funext label
  rw [labelled, labelled, Array.size_modify]
  refine List.filter_congr fun other _ => ?_
  rw [Array.getElem?_modify]
  by_cases h : id = other <;> simp [h, Function.comp_def, hlabel]

/-! ## Graphs -/

structure CodeGraph where
  vertices : Array Vertex := #[]
  edgeCount : Nat := 0
  labels : LabelTable := []
  definingTypes : List (String × List VertexId) := []
  /-- A vertex is listed under its label and under no other one. -/
  labels_exact : ∀ label, labels.members label = labelled vertices label := by exact members_nil

instance : Inhabited CodeGraph := ⟨{}⟩

/-- The text of a vertex number in messages. -/
def VertexId.display (id : VertexId) : String := "v" ++ toString id

namespace CodeGraph

/-! ## Vertices and their properties -/

def vertexCount (graph : CodeGraph) : Nat := graph.vertices.size

def ids (graph : CodeGraph) : List VertexId := List.range graph.vertexCount

def vertex? (graph : CodeGraph) (id : VertexId) : Option Vertex := graph.vertices[id]?

def label? (graph : CodeGraph) (id : VertexId) : Option NodeKind := (graph.vertex? id).map (·.label)

def is (graph : CodeGraph) (id : VertexId) (label : NodeKind) : Bool := graph.label? id == some label

def property? (graph : CodeGraph) (id : VertexId) (key : Key) : Option PropertyValue :=
  (graph.vertex? id).bind (·.props.get? key)

def text? (graph : CodeGraph) (id : VertexId) (key : Key) : Option String :=
  (graph.vertex? id).bind (·.props.text? key)

def flag (graph : CodeGraph) (id : VertexId) (key : Key) : Bool :=
  ((graph.vertex? id).bind (·.props.flag? key)).getD false

def int? (graph : CodeGraph) (id : VertexId) (key : Key) : Option Int :=
  (graph.vertex? id).bind (·.props.int? key)

def texts (graph : CodeGraph) (id : VertexId) (key : Key) : List String :=
  ((graph.vertex? id).bind (·.props.texts? key)).getD []

/-- The first source line of a vertex; zero if there is no such vertex. -/
def beginLine (graph : CodeGraph) (id : VertexId) : Nat :=
  match graph.vertex? id with
  | some vertex => vertex.span.startLine
  | none => 0

def name? (graph : CodeGraph) (id : VertexId) : Option String := graph.text? id (.spelled .name)

def definingType? (graph : CodeGraph) (id : VertexId) : Option String := graph.text? id (.spelled .definingType)

/-- The vertices of a label, in creation order. -/
def withLabel (graph : CodeGraph) (label : NodeKind) : List VertexId := graph.labels.members label

theorem withLabel_eq (graph : CodeGraph) (label : NodeKind) :
    graph.withLabel label = graph.ids.filter (graph.is · label) :=
  graph.labels_exact label

/-- The vertices that were assigned a defining type of this name in any case. -/
def withDefiningType (graph : CodeGraph) (name : String) : List VertexId :=
  ((graph.definingTypes.find? (·.1 == Text.lower name)).map (·.2)).getD []

/-! ## Edges -/

/-- The other ends of the outgoing edges of a label, in insertion order. -/
def outNeighbors (graph : CodeGraph) (id : VertexId) (label : EdgeLabel) : List VertexId :=
  match graph.vertex? id with
  | some vertex => vertex.outgoing.toList.filterMap fun edge => if edge.1 == label then some edge.2 else none
  | none => []

def inNeighbors (graph : CodeGraph) (id : VertexId) (label : EdgeLabel) : List VertexId :=
  match graph.vertex? id with
  | some vertex => vertex.incoming.toList.filterMap fun edge => if edge.1 == label then some edge.2 else none
  | none => []

/-- Where control may go next, in insertion order. -/
def flowSuccessors (graph : CodeGraph) (id : VertexId) : List (VertexId × FlowKind) :=
  match graph.vertex? id with
  | some vertex => vertex.outgoing.toList.filterMap fun edge => edge.1.flow?.map fun kind => (edge.2, kind)
  | none => []

/-- Where control may come from, in insertion order. -/
def flowPredecessors (graph : CodeGraph) (id : VertexId) : List (VertexId × FlowKind) :=
  match graph.vertex? id with
  | some vertex => vertex.incoming.toList.filterMap fun edge => edge.1.flow?.map fun kind => (edge.2, kind)
  | none => []

def hasFlowEdges (graph : CodeGraph) (id : VertexId) : Bool :=
  !(graph.flowSuccessors id).isEmpty || !(graph.flowPredecessors id).isEmpty

/-- The scopes that end when control leaves the vertex, innermost first. -/
def endScopes (graph : CodeGraph) (id : VertexId) : List NodeKind :=
  (graph.texts id (.fact .endScopes)).filterMap NodeKind.ofName?

/-! ## The tree -/

/-- The position of a vertex among its siblings; zero if it has none. -/
def childIndex (graph : CodeGraph) (id : VertexId) : Int := (graph.int? id (.fact .childIdx)).getD 0

/-- Put a numbered vertex before the first one that comes after it. -/
def insertKeyed (entry : Int × VertexId) : List (Int × VertexId) → List (Int × VertexId)
  | [] => [entry]
  | first :: rest =>
    if entry.1 < first.1 || (entry.1 == first.1 && entry.2 ≤ first.2) then entry :: first :: rest
    else first :: insertKeyed entry rest

/-- The children by their recorded positions; equal positions go by vertex number. -/
def children (graph : CodeGraph) (id : VertexId) : List VertexId :=
  let keyed := (graph.outNeighbors id .child).map fun child => (graph.childIndex child, child)
  (keyed.foldr insertKeyed []).map (·.2)

def childAt? (graph : CodeGraph) (id : VertexId) (index : Nat) : Option VertexId := (graph.children id)[index]?

def childrenWithLabel (graph : CodeGraph) (id : VertexId) (label : NodeKind) : List VertexId :=
  (graph.children id).filter (graph.is · label)

/-- The source of the latest tree edge into the vertex. -/
def parent? (graph : CodeGraph) (id : VertexId) : Option VertexId := (graph.inNeighbors id .child).getLast?

/-- At most the given number of ancestors, nearest first. -/
def ancestorsWithin (graph : CodeGraph) : Nat → VertexId → List VertexId
  | 0, _ => []
  | n + 1, id =>
    match graph.parent? id with
    | some parent => parent :: graph.ancestorsWithin n parent
    | none => []

def ancestors (graph : CodeGraph) (id : VertexId) : List VertexId := graph.ancestorsWithin graph.vertexCount id

theorem ancestors_of_no_parent {graph : CodeGraph} {v : VertexId} (h : graph.parent? v = none) :
    graph.ancestors v = [] := by
  rw [ancestors]
  cases graph.vertexCount with
  | zero => rfl
  | succ n => rw [ancestorsWithin, h]

/-- The vertex itself or its nearest ancestor with the label. -/
def enclosing? (graph : CodeGraph) (id : VertexId) (label : NodeKind) : Option VertexId :=
  (id :: graph.ancestors id).find? (graph.is · label)

/-- The subtree in pre-order, down to the given depth. -/
def descendantsWithin (graph : CodeGraph) : Nat → VertexId → List VertexId
  | 0, id => [id]
  | n + 1, id => id :: (graph.children id).flatMap (graph.descendantsWithin n)

/-- The subtree in pre-order, the vertex itself first. -/
def descendants (graph : CodeGraph) (id : VertexId) : List VertexId := graph.descendantsWithin graph.vertexCount id

/-! ## Changes -/

/-- Add a vertex; its number is the former vertex count. It enters the table of labels. -/
def addVertex (graph : CodeGraph) (label : NodeKind) (span : Span) : CodeGraph :=
  { graph with
    vertices := graph.vertices.push (Vertex.make label span)
    labels := graph.labels.enter label graph.vertexCount
    labels_exact l := by rw [LabelTable.members_enter, labelled_push, graph.labels_exact]; rfl }

/-- Enter a vertex under a defining type, once. -/
def enterType (table : List (String × List VertexId)) (name : String) (id : VertexId) : List (String × List VertexId) :=
  match table with
  | [] => [(name, [id])]
  | (n, members) :: rest =>
    if n == name then (n, if members.contains id then members else members ++ [id]) :: rest
    else (n, members) :: enterType rest name id

/-- Assign a property. A defining type also enters the table. -/
def setProperty (graph : CodeGraph) (id : VertexId) (key : Key) (value : PropertyValue) : CodeGraph :=
  let definingTypes := match key, value with
    | .spelled .definingType, .text name => enterType graph.definingTypes (Text.lower name) id
    | _, _ => graph.definingTypes
  { graph with
    definingTypes
    vertices := graph.vertices.modify id fun vertex => { vertex with props := vertex.props.assign key value }
    labels_exact := by
      rw [labelled_modify]
      · exact graph.labels_exact
      · exact fun _ => rfl }

/-- Add an edge between two vertices; without them nothing changes. -/
def addEdge (graph : CodeGraph) (source target : VertexId) (label : EdgeLabel) : CodeGraph :=
  if source < graph.vertexCount ∧ target < graph.vertexCount then
    let vertices := graph.vertices.modify source fun vertex =>
      { vertex with outgoing := vertex.outgoing.push (label, target) }
    let vertices := vertices.modify target fun vertex =>
      { vertex with incoming := vertex.incoming.push (label, source) }
    { graph with
      vertices
      edgeCount := graph.edgeCount + 1
      labels_exact := by
        rw [labelled_modify, labelled_modify]
        · exact graph.labels_exact
        all_goals exact fun _ => rfl }
  else graph

/-- Put a vertex after the last child of another one. -/
def addChild (graph : CodeGraph) (parent child : VertexId) : CodeGraph :=
  let siblings := graph.children parent
  let graph := match siblings.getLast? with
    | some last => graph.setProperty last (.fact .lastChild) (.flag false)
    | none => graph
  let graph := graph.setProperty child (.fact .childIdx) (.int siblings.length)
  let graph := graph.setProperty child (.fact .firstChild) (.flag siblings.isEmpty)
  let graph := graph.setProperty child (.fact .lastChild) (.flag true)
  graph.addEdge parent child .child

end CodeGraph

end ApexPaths
