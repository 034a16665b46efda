import ApexPaths.Error
import ApexPaths.TypeName

/-!
Supertypes. A plain name means an inner type of the type that mentions it, else an inner type of its
outer type, else a type of that name; a dotted name is looked up as it is. Names that nobody declares
are recorded on the type. No type may be its own supertype.
-/

namespace ApexPaths.Build
set_option autoImplicit false

/-- A computation that changes the graph, also when it fails. -/
abbrev Change (α : Type) := ExceptT EngineError (StateM CodeGraph) α

/-- The classes, interfaces and enums in creation order. -/
def typeDeclarations (graph : CodeGraph) : List VertexId :=
  graph.ids.filter fun id => graph.is id .userClass || graph.is id .userInterface || graph.is id .userEnum

/-- The declarations by lower-case name; the first one of a name counts. -/
def typeTable (graph : CodeGraph) : List (String × VertexId) :=
  (typeDeclarations graph).filterMap fun id => (graph.definingType? id).map fun name => (Text.lower name, id)

def lookup? (table : List (String × VertexId)) (name : String) : Option VertexId :=
  (table.find? (·.1 == name)).map (·.2)

/-- The type that a reference in another type means. -/
def resolveSupertype? (graph : CodeGraph) (table : List (String × VertexId)) (id : VertexId) (reference : String) :
    Option VertexId :=
  let name := Text.lower (TypeName.base reference)
  if name.toList.contains '.' then lookup? table name
  else
    let inside (key : NameKey) : List String :=
      ((graph.text? id (.folded key)).map fun scope => scope ++ "." ++ name).toList
    (inside .definingType ++ inside .outerType ++ [name]).findSome? (lookup? table)

/-- The supertypes that a type mentions, with the edges they are to get. -/
def supertypeReferences (graph : CodeGraph) (id : VertexId) : List (String × EdgeLabel) :=
  let interfaceLabel := if graph.is id .userInterface then EdgeLabel.extensionOf else .implementationOf
  ((graph.text? id (.spelled .superClassName)).map fun name => (name, EdgeLabel.extensionOf)).toList ++
    (graph.texts id (.spelled .interfaceNames)).map fun name => (name, interfaceLabel)

/-- An inheritance edge and the edge that goes back. -/
def link (graph : CodeGraph) (source target : VertexId) (label : EdgeLabel) : CodeGraph :=
  let graph := graph.addEdge source target label
  match label.reverse? with
  | some reverse => graph.addEdge target source reverse
  | none => graph

def shownType (graph : CodeGraph) (id : VertexId) : String := (graph.definingType? id).getD "?"

/-- Link a type to each supertype it mentions; the result counts the links and lists unknown names. -/
def linkReferences (table : List (String × VertexId)) (id : VertexId) :
    List (String × EdgeLabel) → Change (Nat × List String)
  | [] => return (0, [])
  | (reference, label) :: rest => do
    let graph ← get
    match resolveSupertype? graph table id reference with
    | some target =>
      if target = id then throw (.internal (.selfSupertype (shownType graph id)))
      else
        modify fun graph => link graph id target label
        let (edges, unresolved) ← linkReferences table id rest
        return (edges + 1, unresolved)
    | none =>
      let (edges, unresolved) ← linkReferences table id rest
      return (edges, reference :: unresolved)

/-- Link all types; the result counts the links and the unknown names. -/
def linkTypes (table : List (String × VertexId)) : List VertexId → Change (Nat × Nat)
  | [] => return (0, 0)
  | id :: rest => do
    let (edges, unresolved) ← linkReferences table id (supertypeReferences (← get) id)
    if !unresolved.isEmpty then
      modify fun graph => graph.setProperty id (.fact .unresolvedSupertypes) (.texts unresolved)
    let (moreEdges, moreUnresolved) ← linkTypes table rest
    return (edges + moreEdges, unresolved.length + moreUnresolved)

/-- The vertices reached by extension edges from those waiting, beside those seen. -/
def extensionClosure (graph : CodeGraph) : Nat → List VertexId → List VertexId → List VertexId
  | 0, seen, _ => seen
  | _, seen, [] => seen
  | n + 1, seen, id :: waiting =>
    let fresh := ((graph.outNeighbors id .extensionOf).filter (!seen.contains ·)).eraseDups
    extensionClosure graph n (seen ++ fresh) (fresh ++ waiting)

/-- A type extends itself through others. -/
def onExtensionCycle (graph : CodeGraph) (id : VertexId) : Bool :=
  (extensionClosure graph (graph.vertexCount + 1) [] [id]).contains id

/-- Counts of one resolution. -/
structure InheritanceStats where
  edges : Nat
  unresolved : Nat
  deriving DecidableEq, Repr

/-- Link every type of the graph to its supertypes and refuse cycles of extension. -/
def resolveInheritance : Change InheritanceStats := do
  let start ← get
  let (edges, unresolved) ← linkTypes (typeTable start) (typeDeclarations start)
  let graph ← get
  match (typeDeclarations graph).find? (onExtensionCycle graph) with
  | some id => throw (.internal (.cyclicExtension (shownType graph id)))
  | none => return ⟨edges, unresolved⟩

end ApexPaths.Build
