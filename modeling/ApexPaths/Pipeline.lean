import ApexPaths.Build.Basic
import ApexPaths.Expansion.Workers
import ApexPaths.Graph.Query
import ApexPaths.Walk.Walker

/-!
An analysis of one graph from its sources to its walks. All expansions over the graph share the paths
that were enumerated; each of them counts its own forks. A build that fails changes nothing, and one
that succeeds starts over.
-/

namespace ApexPaths
set_option autoImplicit false

structure Pipeline where
  settings : Settings
  graph : CodeGraph := {}
  stats : Build.Stats := {}
  cache : PathCache := []
  deriving Inhabited

namespace Pipeline

variable (pipeline : Pipeline)

/-! ## Building -/

/-- Replace the graph by that of some units. -/
def build (units : List Source.CompilationUnit) : Except EngineError Build.Stats × Pipeline :=
  match Build.build pipeline.settings units with
  | .ok (graph, stats) => (.ok stats, { settings := pipeline.settings, graph, stats })
  | .error error => (.error error, pipeline)

/-- Replace the graph by that of some sources, each with the name of its unit. -/
def buildSources (sources : List (String × String)) : Except EngineError Build.Stats × Pipeline :=
  match Source.parseAll sources with
  | .ok units => pipeline.build units
  | .error error => (.error (.parse error), pipeline)

/-! ## Methods -/

/-- The methods from sources that have code. -/
def methods : List VertexId :=
  (pipeline.graph.withLabel .method).filter fun method =>
    !pipeline.graph.flag method (.fact .isStandard) && !pipeline.graph.flag method (.fact .isAbstract)

/-- The first method of a name that a type declares itself. -/
def findMethod? (definingType name : String) : Option VertexId := (pipeline.graph.methodsNamed definingType name).head?

/-! ## Expansion and walks -/

def expander (options : ExpansionOptions) : Expander := Expander.ofGraph pipeline.graph pipeline.settings options

/-- What expansions start with: nothing is counted yet. -/
def start (limit : Limit) : ExpansionState := { registry := { limit }, cache := pipeline.cache }

/-- Run expansions with a count of their own. -/
def expand {α : Type} (options : ExpansionOptions) (job : Expander → ExpandM α) : Except EngineError α × Pipeline :=
  let (result, state) := (job (pipeline.expander options)).run.run (pipeline.start pipeline.settings.expansionLimit)
  (result, { pipeline with cache := state.cache })

def pathsOf (method : VertexId) (options : ExpansionOptions) : Except EngineError (List CodePath) × Pipeline :=
  pipeline.expand options fun expander => expander.expandMethod method

def expandAll (methods : List VertexId) (options : ExpansionOptions) :
    Except EngineError (List MethodExpansion) × Pipeline :=
  pipeline.expand options fun expander => expander.expandMethods methods

/-- The workers for methods that are expanded side by side, before their first turns. -/
def team (methods : List VertexId) : Team := .start methods (pipeline.start pipeline.settings.expansionLimit)

/-- Expand methods side by side, as far as a schedule goes. -/
def expandTogether (methods : List VertexId) (options : ExpansionOptions) (schedule : List Nat) : Team :=
  (pipeline.team methods).run (pipeline.expander options) schedule

def walker {σ : Type} (visitor : Visitor σ) : Walker σ where
  program := Program.ofGraph pipeline.graph
  visitor
  maxLoopValues := pipeline.settings.maxLoopValues

/-- Expand a method and walk each of its paths. The state of the visitor is given back also after a failure. -/
def walk {σ : Type} (method : VertexId) (options : ExpansionOptions) (visitor : Visitor σ) (observed : σ) :
    Except EngineError (List WalkOutcome) × σ × Pipeline :=
  match pipeline.pathsOf method options with
  | (.error error, pipeline) => (.error error, observed, pipeline)
  | (.ok paths, pipeline) =>
    let (result, observed) := (pipeline.walker visitor).walkAll observed paths
    (result, observed, pipeline)

end Pipeline

end ApexPaths
