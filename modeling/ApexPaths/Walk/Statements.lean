import ApexPaths.Walk.Counter
import ApexPaths.Walk.Expressions

/-!
Steps of a walk. At each vertex a scope is opened if the vertex opens one, the visitor is asked, the class
initializers of the vertex run, its expressions are evaluated, and the scopes that it ends are closed.
-/

namespace ApexPaths.Walker
set_option autoImplicit false

open WalkM

variable {σ : Type} (walker : Walker σ) (perform : Perform σ)

/-! ## Declarations -/

/-- The declared type of one of several variables. -/
def variableType (statements declaration : VertexId) : String :=
  (walker.graph.declaredType? declaration <|> walker.graph.declaredType? statements).getD "Object"

/-- The variables that a statement declares, each with its name and type. -/
def declaredVariables (statements : VertexId) : List (VertexId × String × String) :=
  (walker.graph.childrenWithLabel statements .variableDeclaration).map fun declaration =>
    (declaration, (walker.graph.name? declaration).getD "", walker.variableType statements declaration)

/-- The variable of a loop over a collection: every element, if the collection is wholly known. -/
def loopElement (loop : VertexId) (type : String) : WalkM σ Value := do
  let state ← get
  let iterated := (state.iterables.find? (·.1 == loop)).bind (·.2.ref?)
  match iterated.bind state.symbols.heap.get? with
  | some (.list _ contents) | some (.set _ contents) =>
    return if contents.complete then .ofLoop type contents.items else .unknown type
  | _ => return .unknown type

def declareVariables (path : CodePath) (statements : VertexId) : WalkM σ Unit :=
  let loop := (walker.graph.parent? statements).filter (walker.graph.is · .forEachStatement)
  (walker.declaredVariables statements).forM fun (declaration, name, type) => do
    let value ← match loop, walker.graph.childAt? declaration 0 with
      | some loop, _ => loopElement loop type
      | none, some init => pure ((← perform (.eval (some path) init)).retyped type)
      | none, none => pure ((Value.nullOf type).withOrigin declaration)
    declare name type value

/-- The exception of a `catch` is unknown; the variable of a typed `when` is the subject of its switch. -/
def declareClauseVariable (clause : VertexId) : WalkM σ Unit := do
  match walker.graph.name? clause with
  | none => return
  | some name =>
    let type := walker.program.typeOfDeclaration clause
    let subjects := (← get).subjects
    let subject := if walker.graph.is clause .typeWhenBlock then
        (walker.graph.parent? clause).bind fun switch => (subjects.find? (·.1 == switch)).map (·.2)
      else none
    declare name type (((subject.filter (!·.isUnknown)).map (·.retyped type)).getD (.unknown type))

/-- Bind the counter of a `for` loop to all its values. -/
def bindCounter (loop condition : VertexId) : WalkM σ Unit := do
  match Counter.name? walker.graph loop with
  | none => return
  | some counter =>
    let values := Counter.values? walker.graph walker.maxLoopValues (← frame) loop condition counter
    let value := match values with
      | some values => Value.ofLoop "Integer" (values.map Value.ofInt)
      | none => .unknown "Integer"
    modifyFrame fun frame => (frame.assign? counter (value.withOrigin loop)).getD frame

/-! ## Statements -/

/-- The statement is the update of a `for` loop, which runs after the one pass that is walked. -/
def isUpdate (statement : VertexId) : Bool :=
  ((walker.graph.parent? statement).bind walker.graph.loopUpdate?) == some statement

/-- An association of vertices with one entry set. -/
def remember (id : VertexId) (value : Value) (entries : List (VertexId × Value)) : List (VertexId × Value) :=
  (id, value) :: entries.filter (·.1 != id)

def evaluateVertex (path : CodePath) (id : VertexId) : WalkM σ Unit := do
  let graph := walker.graph
  let eval (expr : VertexId) : WalkM σ Value := perform (.eval (some path) expr)
  let first : WalkM σ (Option Value) := (graph.childAt? id 0).mapM eval
  match graph.labelOf id with
  | .variableDeclarationStatements => walker.declareVariables perform path id
  | .expressionStatement => if !walker.isUpdate id then discard first
  | .returnStatement =>
    match ← first with
    | some value => modifyFrame fun frame => { frame with returned := some value }
    | none => return
  | .standardCondition =>
    match (graph.parent? id).filter (graph.is · .forLoopStatement) with
    | some loop => walker.bindCounter loop id
    | none => pure ()
    discard first
  | .forEachStatement =>
    match ← (graph.iterable? id).mapM eval with
    | some value => modify fun state => { state with iterables := remember id value state.iterables }
    | none => return
  | .typeWhenBlock | .catchBlockStatement => walker.declareClauseVariable id
  | label =>
    if label.isDml || label == .throwStatement then
      ((graph.children id).filter fun child => (graph.labelOf child).isExpression).forM fun child =>
      discard (eval child)
    else if label.isExpression then
      let value ← eval id
      match (graph.parent? id).filter (graph.is · .switchStatement) with
      | some switch => modify fun state => { state with subjects := remember switch value state.subjects }
      | none => return

/-- Pass a vertex without evaluating it: the names that it declares are bound to unknown values. -/
def skipVertex (id : VertexId) : WalkM σ Unit :=
  match walker.graph.labelOf id with
  | .variableDeclarationStatements =>
    (walker.declaredVariables id).forM fun (_, name, type) => declare name type (.unknown type)
  | .typeWhenBlock | .catchBlockStatement => walker.declareClauseVariable id
  | _ => return

/-! ## Paths -/

def visit (id : VertexId) : WalkM σ Bool := do
  let state ← get
  let (consent, observed) := walker.visitor.visit id state.symbols state.observed
  set { state with observed, visited := state.visited + 1 }
  return consent

def step (path : CodePath) (id : VertexId) : WalkM σ Unit := do
  let label := walker.graph.labelOf id
  if label.opensScope then modifyFrame (·.pushBlock label)
  if ← walker.visit id then
    walker.runStaticInits perform path (some id)
    walker.evaluateVertex perform path id
  else
    walker.skipVertex id
  let after ← symbols
  notify (walker.visitor.afterVisit id after)
  modifyFrame (·.popBlocks (walker.graph.endScopes id).length)

/-- Run a method along a path in a new frame: enter it, pass its vertices, leave it. -/
def runMethod (path : CodePath) (frame : Frame) : WalkM σ (Option Value) := do
  pushFrame frame
  let entered ← symbols
  notify (walker.visitor.enterMethod path.method entered)
  path.ids.forM (walker.step perform path)
  let left ← popFrame
  notify (walker.visitor.exitMethod path.method left.returned)
  return left.returned

/-- Bind parameters to arguments; a missing argument is unknown. -/
def bindParameters (bound : VariableMap) : List Parameter → List Value → VariableMap
  | [], _ => bound
  | ⟨name, type⟩ :: parameters, [] => bindParameters (bound.declare name type (.unknown type)) parameters []
  | ⟨name, type⟩ :: parameters, arg :: args =>
    bindParameters (bound.declare name type (arg.retyped type)) parameters args

/-- The frame of a method with its parameters bound to arguments. -/
def methodFrame (method : VertexId) (this : Option HeapRef) (args : List Value) : Frame :=
  { method := some method
    owner := (walker.graph.enclosingType? method).map walker.program.nameOf
    this
    parameters := bindParameters [] (walker.graph.parameters method) args }

/-- Walk an attached path. A static method has no object; a method that did not return on the path
returned something of its type. -/
def invokePath (path : CodePath) (this : Option HeapRef) (args : List Value) : WalkM σ Value := do
  let method := path.method
  walker.runStaticInits perform path none
  let this := if walker.graph.isStatic method then none else this
  let returned ← walker.runMethod perform path (walker.methodFrame method this args)
  let type := walker.graph.returnType method
  return returned.getD (if Text.eqIgnoringCase type "void" then .void else .unknown type)

end ApexPaths.Walker
