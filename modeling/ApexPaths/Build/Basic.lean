import ApexPaths.Build.Implicit
import ApexPaths.Build.Inheritance
import ApexPaths.Build.Stubs
import ApexPaths.Flow.Synthesis
import ApexPaths.ScopeStack
import ApexPaths.Settings.Basic

/-!
Building a code graph from compilation units: implicit constructs, the check for unreachable code, vertices,
inheritance, and control flow, in this order. Here are the vertices, the check, and the whole.
-/

namespace ApexPaths.Build
set_option autoImplicit false

open Source

/-! ## Vertices -/

/-- Where a tree comes from. -/
structure Origin where
  fileName : String
  isStandard : Bool

/-- The names around the children of a node: a type declaration adds its own. -/
def scopesInside (scopes : ScopeStack) (kind : NodeKind) (props : PropertyMap) : ScopeStack :=
  if kind.isTypeDeclaration then scopes.push ((props.text? (.spelled .name)).getD "") else scopes

/-- The properties that a node has by its place. -/
def placeProps (origin : Origin) (scopes : ScopeStack) (kind : NodeKind) (props : PropertyMap) : PropertyMap :=
  (if kind.isTypeDeclaration && !scopes.isEmpty then [(.spelled .outerType, .text scopes.qualified)] else []) ++
    [(.spelled .definingType, .text (scopesInside scopes kind props).qualified),
    (.fact .fileName, .text origin.fileName), (.fact .isStandard, .flag origin.isStandard)]

/-- Add the vertex of a node below a parent. -/
def addNode (origin : Origin) (scopes : ScopeStack) (parent : Option VertexId) (graph : CodeGraph) (kind : NodeKind)
    (span : Span) (props : PropertyMap) : CodeGraph :=
  let id := graph.vertexCount
  let graph := graph.addVertex kind span
  let graph := match parent with
    | some parent => graph.addChild parent id
    | none => graph
  (props ++ placeProps origin scopes kind props).foldl (fun graph entry => graph.setProperty id entry.1 entry.2) graph

mutual

def addTree (origin : Origin) (scopes : ScopeStack) (parent : Option VertexId) (graph : CodeGraph) : Tree → CodeGraph
  | ⟨kind, span, props, children⟩ =>
    addTrees origin (scopesInside scopes kind props) graph.vertexCount
    (addNode origin scopes parent graph kind span props) children

def addTrees (origin : Origin) (scopes : ScopeStack) (parent : VertexId) (graph : CodeGraph) : List Tree → CodeGraph
  | [] => graph
  | tree :: rest => addTrees origin scopes parent (addTree origin scopes (some parent) graph tree) rest

end

/-- Add a whole unit; its root has the number of vertices before it. -/
def materialize (origin : Origin) (graph : CodeGraph) (root : Tree) : CodeGraph := addTree origin {} none graph root

/-!
## Unreachable code

Statements that follow a `return`, `throw`, `break` or `continue` of their own block can never run and
are refused.
-/

/-- The first statement right after an exit. -/
def afterExit? : List Tree → Option Tree
  | [] => none
  | [_] => none
  | statement :: next :: rest => if statement.kind.isExit then some next else afterExit? (next :: rest)

mutual

/-- The first unreachable statement of a tree: of the block itself, then of its parts in order. -/
def unreachable? : Tree → Option Tree
  | ⟨kind, _, _, children⟩ =>
    (if kind == .blockStatement then afterExit? children else none) <|> firstUnreachable? children

def firstUnreachable? : List Tree → Option Tree
  | [] => none
  | tree :: rest => unreachable? tree <|> firstUnreachable? rest

end

def checkMethod (unit : String) (scopes : ScopeStack) (method : Tree) : Except EngineError Unit :=
  match firstUnreachable? method.children with
  | some statement =>
    .error (.unreachable scopes.qualified ((method.text? (.spelled .name)).getD "") unit statement.span.startLine
      statement.span.startColumn)
  | none => .ok ()

mutual

/-- Check the methods of a type and of the types in it. -/
def checkReachability (unit : String) (scopes : ScopeStack) : Tree → Except EngineError Unit
  | ⟨_, _, props, children⟩ => checkMembers unit (scopes.push ((props.text? (.spelled .name)).getD "")) children

def checkMembers (unit : String) (scopes : ScopeStack) : List Tree → Except EngineError Unit
  | [] => .ok ()
  | member :: rest => do
    if member.kind.isTypeDeclaration then checkReachability unit scopes member
    else if member.kind == .method then checkMethod unit scopes member
    checkMembers unit scopes rest

end

/-!
## Builds

Implicit constructs come first, then the check for unreachable code, vertices, inheritance, and control flow.
-/

/-- What a build produced. -/
structure Stats where
  units : Nat := 0
  vertices : Nat := 0
  edges : Nat := 0
  inheritanceEdges : Nat := 0
  unresolvedSupertypes : Nat := 0
  deriving DecidableEq, Repr, Inhabited

def addUnit (isStandard : Bool) (graph : CodeGraph) (unit : CompilationUnit) : Except EngineError CodeGraph := do
  let root := complete unit.root
  checkReachability unit.name {} root
  return materialize ⟨unit.name, isStandard⟩ graph root

/-- The graph of some units, and the stubs if the settings ask for them. -/
def build (settings : Settings) (units : List CompilationUnit) : Except EngineError (CodeGraph × Stats) := do
  let graph ← units.foldlM (addUnit false) {}
  let stubs ← if settings.includeStandardLibrary then stubUnits.mapError EngineError.parse else pure []
  let graph ← stubs.foldlM (addUnit true) graph
  let (inheritance, graph) := resolveInheritance.run graph
  let inheritance ← inheritance
  let (count, graph) := Flow.synthesizeAll graph
  let _ ← count
  return (graph, {
    units := units.length + stubs.length
    vertices := graph.vertexCount
    edges := graph.edgeCount
    inheritanceEdges := inheritance.edges
    unresolvedSupertypes := inheritance.unresolved })

end ApexPaths.Build
