import ApexPaths.Graph.Basic

/-!
Queries: lists of vertices that are narrowed by filters or moved along edges. A move keeps the order
in which vertices are first met and drops repetitions.
-/

namespace ApexPaths
set_option autoImplicit false

namespace CodeGraph

/-! ## Filters -/

/-- The property equals the text, or is a list that holds it. -/
def has (graph : CodeGraph) (key : Key) (text : String) (id : VertexId) : Bool :=
  (graph.property? id key).any (·.matchesText text)

def hasFolded (graph : CodeGraph) (key : Key) (text : String) (id : VertexId) : Bool :=
  match key.folded? with
  | some shadow => graph.has shadow (Text.lower text) id
  | none => (graph.property? id key).any fun value => value.fold.matchesText (Text.lower text)

/-! ## Moves -/

/-- Move every vertex of a list, keeping each result once. -/
def move (step : VertexId → List VertexId) (current : List VertexId) : List VertexId :=
  (current.flatMap step).foldl (fun seen id => if seen.contains id then seen else seen ++ [id]) []

/-- Order by position among siblings; equal positions keep their order. -/
def orderByChildIndex (graph : CodeGraph) (current : List VertexId) : List VertexId :=
  current.mergeSort fun a b => graph.childIndex a ≤ graph.childIndex b

end CodeGraph

/-- One step of a query. -/
inductive QueryStep where
  | hasLabel (label : NodeKind)
  | hasAnyLabel (labels : List NodeKind)
  | has (key : Key) (text : String)
  | hasFolded (key : Key) (text : String)
  | hasFlag (key : Key) (value : Bool)
  | hasKey (key : Key)
  | lacksKey (key : Key)
  | lineAtLeast (line : Int)
  | children
  | childAt (index : Nat)
  | parent
  | descendants
  | outgoing (label : EdgeLabel)
  | incoming (label : EdgeLabel)
  | flowOut
  | flowIn
  | orderByChildIndex
  deriving Repr

def QueryStep.apply (graph : CodeGraph) (current : List VertexId) : QueryStep → List VertexId
  | .hasLabel label => current.filter (graph.is · label)
  | .hasAnyLabel labels => current.filter fun id => (graph.label? id).any labels.contains
  | .has key text => current.filter (graph.has key text)
  | .hasFolded key text => current.filter (graph.hasFolded key text)
  | .hasFlag key value => current.filter fun id => graph.flag id key == value
  | .hasKey key => current.filter fun id => (graph.property? id key).isSome
  | .lacksKey key => current.filter fun id => (graph.property? id key).isNone
  | .lineAtLeast line => current.filter fun id => line ≤ graph.beginLine id
  | .children => CodeGraph.move graph.children current
  | .childAt index => CodeGraph.move (fun id => (graph.childAt? id index).toList) current
  | .parent => CodeGraph.move (fun id => (graph.parent? id).toList) current
  | .descendants => CodeGraph.move (fun id => (graph.descendants id).drop 1) current
  | .outgoing label => CodeGraph.move (graph.outNeighbors · label) current
  | .incoming label => CodeGraph.move (graph.inNeighbors · label) current
  | .flowOut => CodeGraph.move (fun id => (graph.flowSuccessors id).map (·.1)) current
  | .flowIn => CodeGraph.move (fun id => (graph.flowPredecessors id).map (·.1)) current
  | .orderByChildIndex => graph.orderByChildIndex current

/-- The vertices after each step of a query, in order. -/
def CodeGraph.queryStages (graph : CodeGraph) (start : List VertexId) : List QueryStep → List (List VertexId)
  | [] => []
  | step :: steps =>
    let next := step.apply graph start
    next :: graph.queryStages next steps

/-- The methods of a name in a defining type, both in any case. -/
def CodeGraph.methodsNamed (graph : CodeGraph) (definingType name : String) : List VertexId :=
  ((graph.withLabel .method).filter (graph.hasFolded (.spelled .definingType) definingType)).filter
    (graph.hasFolded (.spelled .name) name)

end ApexPaths
