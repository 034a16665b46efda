import ApexPaths.Graph.View
import ApexPaths.Memory.Scope

/-!
The counter of a `for` loop. A loop is passed once on a path; its counter then stands for all the values
that it would take, if they can be told from the start, the bound and the step and are not too many.
-/

namespace ApexPaths
set_option autoImplicit false

namespace Counter

/-- The values from `current` up by `step` that are below `stop`. There are none if they are more than
`room`, or if the value after one of them does not fit into 64 bits. -/
def valuesBelow (stop step : Int) : Nat → Int → Option (List Int)
  | 0, current => if current < stop then none else some []
  | room + 1, current =>
    if current < stop then do
      let next ← Text.inInt64? (current + step)
      return current :: (← valuesBelow stop step room next)
    else some []

/-- The first value that a counter does not take, from the bound of the condition. -/
def stop? (inclusive : Bool) (bound : Int) : Option Int :=
  if inclusive then Text.inInt64? (bound + 1) else some bound

variable (graph : CodeGraph)

def isPlainVariable (expr : VertexId) (name : String) : Bool :=
  graph.is expr .variableExpression && (graph.name? expr).any (Text.eqIgnoringCase · name) && graph.isUnqualified expr

/-- The integer that is written at a literal. -/
def literalInt? (expr : VertexId) : Option Int :=
  if graph.is expr .literalExpression then (graph.text? expr (.fact .value)).bind Text.int64? else none

/-- The integer that a local variable holds. -/
def variableInt? (frame : Frame) (name : String) : Option Int := (frame.lookup? name).bind (·.value.int?)

/-- The bound of a loop: a literal or a local variable. -/
def bound? (frame : Frame) (expr : VertexId) : Option Int :=
  match graph.labelOf expr with
  | .literalExpression => literalInt? graph expr
  | .variableExpression => do
    let name ← graph.name? expr
    if isPlainVariable graph expr name then variableInt? frame name else none
  | _ => none

/-- The step of a loop: `i++`, `++i`, or `i += k` with a positive literal. -/
def step? (update : VertexId) (counter : String) : Option Int := do
  let op ← graph.text? update (.fact .operator)
  let target ← graph.childAt? update 0
  if isPlainVariable graph target counter then
    match graph.labelOf update, op with
    | .postfixExpression, "++" | .prefixExpression, "++" => some 1
    | .assignmentExpression, "+=" => do
      let step ← (graph.childAt? update 1).bind (literalInt? graph)
      if 0 < step then some step else none
    | _, _ => none
  else none

/-- The bound of a condition on a counter, and whether the counter may reach it. -/
def limit? (frame : Frame) (condition : VertexId) (counter : String) : Option (Bool × Int) := do
  let test ← (graph.childAt? condition 0).filter (graph.is · .booleanExpression)
  let inclusive ← match ← graph.text? test (.fact .operator) with
    | "<" => some false
    | "<=" => some true
    | _ => none
  if isPlainVariable graph (← graph.childAt? test 0) counter then
    return (inclusive, ← bound? graph frame (← graph.childAt? test 1))
  else none

/-- The name of the variable that a `for` loop declares first. -/
def name? (loop : VertexId) : Option String := do
  let init ← (graph.loopInit? loop).filter (graph.is · .variableDeclarationStatements)
  graph.name? (← (graph.childrenWithLabel init .variableDeclaration).head?)

/-- The values that the counter of a loop takes. -/
def values? (maxValues : Nat) (frame : Frame) (loop condition : VertexId) (counter : String) : Option (List Int) := do
  let start ← variableInt? frame counter
  let (inclusive, bound) ← limit? graph frame condition counter
  let step ← step? graph (← graph.childAt? (← graph.loopUpdate? loop) 0) counter
  valuesBelow (← stop? inclusive bound) step maxValues start

end Counter

end ApexPaths
