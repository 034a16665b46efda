import ApexPaths.Error
import ApexPaths.Graph.View
import ApexPaths.Path.Basic

/-!
The paths through a method, and the paths to a vertex, by following control flow edges in insertion
order. Along a path every opened scope must be ended again.
-/

set_option autoImplicit false

namespace ApexPaths.Path

variable (graph : CodeGraph)

/-- The change of scope depth at a vertex. -/
def scopeChange (id : VertexId) : Int :=
  (if (graph.label? id).any NodeKind.opensScope then 1 else 0) - (graph.endScopes id).length

def scopeError (method id : VertexId) (depth : Int) : EngineError :=
  .internal (.unbalancedScopes ((graph.definingType? method).getD "?") ((graph.name? method).getD "?") id depth)

/-- The ways on from a vertex that is entered at a scope depth. -/
def forwardFrom (method : VertexId) : Nat → Int → VertexId → Except EngineError (List (List PathVertex))
  | 0, _, _ => .error (.internal .exhausted)
  | n + 1, entered, id => do
    let depth := entered + scopeChange graph id
    if depth < 0 then throw (scopeError graph method id depth)
    match graph.flowSuccessors id with
    | [] => if depth ≠ 0 then throw (scopeError graph method id depth) else return [[⟨id, none⟩]]
    | successors =>
      let ways ← successors.mapM fun (next, kind) => do
        return (← forwardFrom method n depth next).map (⟨id, some kind⟩ :: ·)
      return ways.flatten

/-- Every path through a method; none if it has no body. -/
def forward (method : VertexId) : Except EngineError (List CodePath) :=
  if graph.is method .method then
    match graph.body? method with
    | none => .ok []
    | some entry => do
      let ways ← forwardFrom graph method (graph.vertexCount + 1) 0 entry
      return ways.map fun vertices => { method, vertices }
  else .error (.internal (.enumerationOfNonMethod method))

/-- The ways from an entry to the first vertex of a given rest of a path. -/
def backwardFrom (entry : VertexId) : Nat → VertexId → List PathVertex → List (List PathVertex)
  | 0, _, _ => []
  | n + 1, id, rest =>
    if id = entry then [rest]
    else (graph.flowPredecessors id).flatMap fun (previous, kind) =>
      backwardFrom entry n previous (⟨previous, some kind⟩ :: rest)

/-- The vertex itself or its nearest ancestor that control passes. -/
def anchor? (target entry : VertexId) : Option VertexId :=
  (target :: graph.ancestors target).find? fun id =>
    id == entry || graph.hasFlowEdges id || (graph.property? id (.fact .endScopes)).isSome

/-- Every path from the entry of the enclosing method to a vertex, or to what evaluates it. -/
def reverse (target : VertexId) : Except EngineError (List CodePath) :=
  match graph.enclosingMethod? target with
  | none => .error (.internal (.outsideMethod target))
  | some method =>
    match graph.body? method with
    | none => .error (.internal (.methodWithoutBody method))
    | some entry =>
      match anchor? graph target entry with
      | none => .ok []
      | some anchor =>
        .ok ((backwardFrom graph entry (graph.vertexCount + 1) anchor [⟨anchor, none⟩]).map fun vertices =>
          { method, vertices })

end ApexPaths.Path

/-!
## Kept paths

The forward paths of the methods that were asked for, each enumerated once.
-/

namespace ApexPaths

abbrev PathCache := List (VertexId × List CodePath)

namespace PathCache

def get? (cache : PathCache) (method : VertexId) : Option (List CodePath) := (cache.find? (·.1 == method)).map (·.2)

/-- The forward paths of a method, and the cache that holds them. A failure is not kept. -/
def fetch (cache : PathCache) (graph : CodeGraph) (method : VertexId) :
    Except EngineError (List CodePath) × PathCache :=
  match cache.get? method with
  | some paths => (.ok paths, cache)
  | none =>
    match Path.forward graph method with
    | .ok paths => (.ok paths, cache ++ [(method, paths)])
    | .error error => (.error error, cache)

end PathCache

end ApexPaths
