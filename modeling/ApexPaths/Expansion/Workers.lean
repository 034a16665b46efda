import ApexPaths.Expansion.Expander

/-!
Methods that are expanded side by side. Each has a worker of its own; the workers share the count of
forks and the enumerated paths, and take their turns in any order. A worker moves by at most one step of
its stack in a turn, so it asks for forks at most once. The failure of one worker is that of all.
-/

namespace ApexPaths
set_option autoImplicit false

/-- The expansion of one method among others. -/
inductive Worker where
  /-- The forward paths of the method are not known yet. -/
  | waiting (method : VertexId)
  /-- A path is under expansion; the seeds are to follow, and the paths before it gave what was found. -/
  | running (method : VertexId) (stack : List Expander.Frame) (seeds found : List CodePath)
  | finished (expansion : MethodExpansion)
  | failed (error : EngineError)

namespace Worker

def isBusy : Worker → Bool
  | .waiting _ | .running .. => true
  | .finished _ | .failed _ => false

def expansion? : Worker → Option MethodExpansion
  | .finished expansion => some expansion
  | _ => none

def error? : Worker → Option EngineError
  | .failed error => some error
  | _ => none

/-- Go on with the next seed, if there is one. -/
def next (method : VertexId) (seeds found : List CodePath) : Worker :=
  match seeds with
  | [] => .finished ⟨method, found⟩
  | seed :: seeds => .running method [.enter seed.method [seed] []] seeds found

def advance (expander : Expander) : Worker → ExpandM Worker
  | .waiting method => return next method (← expander.pathsOf method) []
  | .running method stack seeds found => do
    match ← expander.step stack with
    | .running stack => return .running method stack seeds found
    | .finished paths => return next method seeds (found ++ paths)
  | .finished expansion => return .finished expansion
  | .failed error => return .failed error

end Worker

/-- Workers with the state that they share. -/
structure Team where
  workers : List Worker
  state : ExpansionState

namespace Team

def start (methods : List VertexId) (state : ExpansionState) : Team := { workers := methods.map .waiting, state }

variable (expander : Expander)

/-- A worker takes its turn, and keeps its error if it fails. -/
def turn (team : Team) (index : Nat) : Team :=
  match team.workers[index]? with
  | none => team
  | some worker =>
    match (worker.advance expander).run team.state with
    | (.ok worker, state) => { workers := team.workers.set index worker, state }
    | (.error error, state) => { workers := team.workers.set index (.failed error), state }

/-- The workers of a schedule take their turns. -/
def run (team : Team) (schedule : List Nat) : Team := schedule.foldl (turn expander) team

/-- The error of a worker, or the expansions of all of them in order. -/
def outcome? (team : Team) : Option (Except EngineError (List MethodExpansion)) :=
  match team.workers.findSome? Worker.error? with
  | some error => some (.error error)
  | none => if team.workers.any Worker.isBusy then none else some (.ok (team.workers.filterMap Worker.expansion?))

end Team

end ApexPaths
