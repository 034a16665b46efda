import ApexPaths.Graph.View

/-!
A program: a built graph with its declared types by name, the lookup of a type reference from inside
a type, and the hierarchy of types by breadth-first search over the inheritance edges.
-/

namespace ApexPaths
set_option autoImplicit false

/-- A built graph with its type declarations by their full names in lower case. -/
structure Program where
  graph : CodeGraph
  types : List (String × VertexId)
  deriving Inhabited

namespace Program

/-! ## Declared types -/

/-- A type may be declared as a class, an interface, an enum or a trigger. -/
def isDeclaration (label : NodeKind) : Bool :=
  [.userClass, .userInterface, .userEnum, .userTrigger].contains label

/-- Enter a name unless it is there: the first declaration of a name counts. -/
def enterFirst (types : List (String × VertexId)) (name : String) (id : VertexId) : List (String × VertexId) :=
  if types.any (·.1 == name) then types else types ++ [(name, id)]

def ofGraph (graph : CodeGraph) : Program where
  graph
  types := graph.ids.foldl (fun types id =>
    match graph.text? id (.folded .definingType) with
    | some name => if (graph.label? id).any isDeclaration then enterFirst types name id else types
    | none => types) []

variable (program : Program)

def entry? (name : String) : Option VertexId := (program.types.find? (·.1 == name)).map (·.2)

/-- The type of a full name in any case; generic arguments do not count. -/
def typeNamed? (name : String) : Option VertexId := program.entry? (Text.lower (TypeName.base name))

/-- A reference in lower case, without generic arguments and without a leading `schema.`. -/
def referenceName (reference : String) : String :=
  let name := Text.lower (TypeName.base reference)
  match Text.dropStart? "schema.".toList name.toList with
  | some rest => String.ofList rest
  | none => name

/-- The full names that a reference written inside a type may mean, in the order in which they are
tried: an inner type of it, an inner type of its outer type, a global type. -/
def candidateNames (source : Option VertexId) (reference : String) : List String :=
  let name := referenceName reference
  let scope (key : NameKey) : List String := (source.bind (program.graph.text? · (.folded key))).toList
  (scope .definingType ++ scope .outerType).map (· ++ "." ++ name) ++ [name]

/-- The type that a reference written inside a type means. -/
def lookup? (source : Option VertexId) (reference : String) : Option VertexId :=
  (program.candidateNames source reference).findSome? program.entry?

def nameOf (type : VertexId) : String := (program.graph.definingType? type).getD ""

/-- The type that encloses an inner type. -/
def outer? (type : VertexId) : Option VertexId :=
  (program.graph.text? type (.spelled .outerType)).bind program.typeNamed?

/-- The type and the types around it, innermost first, at most the given number. -/
def outwardWithin : Nat → Option VertexId → List VertexId
  | 0, _ => []
  | _, none => []
  | n + 1, some type => type :: outwardWithin n (program.outer? type)

/-- The type and the types around it, innermost first. -/
def outward (type : Option VertexId) : List VertexId := program.outwardWithin program.graph.vertexCount type

/-! ## Hierarchy -/

/-- The direct supertypes: what is extended, then what is implemented. -/
def supertypes (type : VertexId) : List VertexId :=
  program.graph.outNeighbors type .extensionOf ++ program.graph.outNeighbors type .implementationOf

def superclass? (type : VertexId) : Option VertexId :=
  if program.graph.is type .userInterface then none
  else (program.graph.outNeighbors type .extensionOf).head?

/-- Breadth-first search from a queue of types with their distances; `seen` is never listed again.
The number bounds the types taken from the queue. -/
def climb : Nat → List (VertexId × Nat) → List VertexId → List (VertexId × Nat)
  | 0, _, _ => []
  | _, [], _ => []
  | n + 1, (type, distance) :: queue, seen =>
    let fresh := (program.supertypes type).eraseDups.filter (!seen.contains ·)
    let found := fresh.map (·, distance + 1)
    found ++ climb n (queue ++ found) (seen ++ fresh)

/-- The supertypes at any distance, each with its distance, nearest first. -/
def ancestors (type : VertexId) : List (VertexId × Nat) :=
  program.climb (program.graph.vertexCount + 1) [(type, 0)] [type]

/-- The type followed by its supertypes. -/
def hierarchy (type : VertexId) : List VertexId := type :: (program.ancestors type).map (·.1)

/-- The steps from a type up to another one. -/
def distance? (sub sup : VertexId) : Option Nat :=
  if sub = sup then some 0 else ((program.ancestors sub).find? (·.1 == sup)).map (·.2)

end Program

end ApexPaths
