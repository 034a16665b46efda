import ApexPaths.Expansion.Options
import ApexPaths.Graph.View
import ApexPaths.Path.Basic

/-!
Paths of a callee with the same key are merged into the first of them, and vertices are picked for
watching.
-/

namespace ApexPaths
set_option autoImplicit false

/-! ## Merging -/

/-- The literal or the variable that a path returns. -/
def returnKey? (graph : CodeGraph) (path : CodePath) : Option String := do
  let last ← path.last?
  if !graph.is last .returnStatement then none
  else
    let value ← graph.childAt? last 0
    match graph.labelOf value with
    | .literalExpression => some ("lit:" ++ graph.literalTag value ++ ":" ++ graph.literalText value)
    | .variableExpression => (graph.name? value).map fun name => "var:" ++ Text.lower name
    | _ => none

def Collapser.key? (collapser : Collapser) (graph : CodeGraph) (path : CodePath) : Option String :=
  match collapser with
  | .returnValue => returnKey? graph path

/-- The path with the name of a collapser that merged another path into it. -/
def CodePath.collapsedInto (path : CodePath) (name : String) : CodePath :=
  if path.metadata.collapsedBy.contains name then path
  else { path with metadata := { path.metadata with collapsedBy := path.metadata.collapsedBy ++ [name] } }

/-- Keep the items without a key and the first item of each key that was not seen; an item whose key comes
again is marked. -/
def mergeKeyed {α : Type} (mark : α → α) (seen : List String) : List (Option String × α) → List α
  | [] => []
  | (none, a) :: rest => a :: mergeKeyed mark seen rest
  | (some key, a) :: rest =>
    if seen.contains key then mergeKeyed mark seen rest
    else (if rest.any (·.1 == some key) then mark a else a) :: mergeKeyed mark (key :: seen) rest

/-- Keep the first of all paths with the same key. -/
def Collapser.merge {α : Type} (collapser : Collapser) (graph : CodeGraph) (pathOf : α → CodePath)
    (mark : String → α → α) (results : List α) : List α :=
  mergeKeyed (mark collapser.name) [] (results.map fun result => (collapser.key? graph (pathOf result), result))

/-! ## Watching -/

def Watcher.watches (watcher : Watcher) (graph : CodeGraph) (vertex : VertexId) : Bool :=
  match watcher with
  | .dml => (graph.labelOf vertex).isDml
  | .calls names =>
    graph.is vertex .methodCallExpression &&
      ((graph.calledName? vertex).toList ++ (graph.text? vertex (.spelled .fullMethodName)).toList).any fun name =>
        names.any fun wanted => Text.eqIgnoringCase name (Text.lower wanted)

/-- The watched ones of a vertex and the expressions it evaluates. -/
def watchedAt (watchers : List Watcher) (graph : CodeGraph) (vertex : VertexId) : List VertexId :=
  (vertex :: (graph.evaluatedExpressions vertex).filter (· != vertex)).filter fun id =>
    watchers.any (·.watches graph id)

end ApexPaths
