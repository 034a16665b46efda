import ApexPaths.Expansion.Options
import ApexPaths.Path.Basic
import ApexPaths.Program.Typing

/-!
Facts about local variables along a path. The outcome of a condition proves facts about the variables
it tests; a new value for a variable ends what was known of it. Fields take no part, since a callee
between two tests may change them.
-/

namespace ApexPaths
set_option autoImplicit false

namespace Program

variable (program : Program)

/-! ## Conditions -/

/-- The name in lower case of an unqualified variable expression for a local variable or a parameter. -/
def localName? (expr : VertexId) : Option String := do
  if !program.graph.is expr .variableExpression || !program.graph.isUnqualified expr then none
  else
    let name ← program.graph.name? expr
    match (← program.variableBinding? name expr).declared with
    | .localVariable _ | .parameter _ => some (Text.lower name)
    | _ => none

def isNullLiteral (expr : VertexId) : Bool :=
  program.graph.is expr .literalExpression && program.graph.literalTag expr == Reserved.literalNull

/-- What a test for null proves by its outcome. -/
def nullCheck? (expr : VertexId) (truth : Bool) : Option (String × ConstraintKind) := do
  let graph := program.graph
  if !graph.is expr .booleanExpression then none
  else
    let equals ← match ← graph.text? expr (.fact .operator) with
      | "==" => some true
      | "!=" => some false
      | _ => none
    let left ← graph.childAt? expr 0
    let right ← graph.childAt? expr 1
    let name ← match program.isNullLiteral left, program.isNullLiteral right with
      | false, true => program.localName? left
      | true, false => program.localName? right
      | _, _ => none
    return (name, if equals = truth then .isNull else .notNull)

/-- What a variable that is itself the condition proves by its outcome. -/
def booleanVariable? (expr : VertexId) (truth : Bool) : Option (String × ConstraintKind) :=
  (program.localName? expr).map fun name => (name, if truth then .isTrue else .isFalse)

def leafFact? (constrainer : Constrainer) (expr : VertexId) (truth : Bool) : Option (String × ConstraintKind) :=
  match constrainer with
  | .nullCheck => program.nullCheck? expr truth
  | .booleanVariable => program.booleanVariable? expr truth

/-- What a condition proves by its outcome, down to a depth. A conjunction that holds proves both parts,
a disjunction that fails refutes both. -/
def conditionFactsWithin (constrainer : Constrainer) : Nat → VertexId → Bool → List (String × ConstraintKind)
  | 0, _, _ => []
  | n + 1, expr, truth =>
    let graph := program.graph
    match graph.labelOf expr, graph.text? expr (.fact .operator), truth with
    | .booleanExpression, some "&&", true => (graph.children expr).flatMap (conditionFactsWithin constrainer n · true)
    | .booleanExpression, some "||", false => (graph.children expr).flatMap (conditionFactsWithin constrainer n · false)
    | .prefixExpression, some "!", _ =>
      (graph.childAt? expr 0).toList.flatMap (conditionFactsWithin constrainer n · !truth)
    | _, _, _ => (program.leafFact? constrainer expr truth).toList

/-- What a condition proves by its outcome. -/
def conditionFacts (constrainer : Constrainer) (expr : VertexId) (truth : Bool) : List (String × ConstraintKind) :=
  program.conditionFactsWithin constrainer (program.graph.vertexCount + 1) expr truth

/-! ## Steps of a path -/

/-- The variables that get a new value at a vertex. -/
def reassigned (vertex : VertexId) : List String :=
  let graph := program.graph
  match graph.labelOf vertex with
  | .variableDeclarationStatements | .forEachStatement =>
    ((graph.descendants vertex).filter (graph.is · .variableDeclaration)).filterMap fun id =>
    (graph.name? id).map Text.lower
  | _ =>
    ((graph.evaluatedExpressions vertex).filter (graph.is · .assignmentExpression)).filterMap fun id =>
      (graph.childAt? id 0).bind program.localName?

def vertexFacts (constrainer : Constrainer) (vertex : PathVertex) : List (String × ConstraintKind) :=
  if program.graph.is vertex.id .standardCondition then
    match vertex.polarity?, program.graph.childAt? vertex.id 0 with
    | some polarity, some expr => program.conditionFacts constrainer expr (polarity = .positive)
    | _, _ => []
  else (program.reassigned vertex.id).map (·, .reset)

/-- The constraints that a vertex adds to a path of a method. -/
def vertexConstraints (constrainers : List Constrainer) (method : VertexId) (vertex : PathVertex) : List Constraint :=
  constrainers.flatMap fun constrainer =>
    (program.vertexFacts constrainer vertex).map fun fact => Constraint.make method fact.1 fact.2 vertex.id

end Program

/-! ## Contradictions -/

/-- Whether one more fact contradicts what is known; otherwise what is known after it. -/
def learn (known : List (String × ConstraintKind)) (name : String) (kind : ConstraintKind) :
    Option (List (String × ConstraintKind)) :=
  let others := known.filter (·.1 != name)
  if kind = .reset then some others
  else
    match known.find? (·.1 == name) with
    | some (_, previous) => if previous.opposite? = some kind then none else some ((name, kind) :: others)
    | none => some ((name, kind) :: others)

/-- The constraints cannot hold one after the other. -/
def contradicts (known : List (String × ConstraintKind)) : List Constraint → Bool
  | [] => false
  | constraint :: rest =>
    match learn known constraint.variableName constraint.kind with
    | some known => contradicts known rest
    | none => true

/-- The facts about the variables of the path's own method contradict each other. -/
def CodePath.isContradictory (path : CodePath) : Bool :=
  contradicts [] (path.metadata.constraints.filter (·.scope == path.method))

def Excluder.excludes : Excluder → CodePath → Bool
  | .contradictory, path => path.isContradictory

end ApexPaths
