import ApexPaths.Graph.Basic
import ApexPaths.Reserved
import ApexPaths.TypeName

/-!
What vertices mean by their kind: the parts of declarations, statements and expressions, and the order
in which the expressions of a vertex are evaluated.
-/

namespace ApexPaths
set_option autoImplicit false

/-- The kinds of vertices that are told apart. -/
inductive VertexClass where
  | typeDeclaration
  | method
  | block
  | ifElse
  | condition
  | loop
  | switch
  | when
  | tryCatch
  | variableDeclaration
  | invocation
  | variable
  | literal
  | statement
  | expression
  | other
  deriving DecidableEq, Repr

def NodeKind.class (kind : NodeKind) : VertexClass :=
  if kind.isTypeDeclaration then .typeDeclaration
  else if kind.isLoop then .loop
  else if kind.isWhenBlock then .when
  else if kind.isInvocable then .invocation
  else
    match kind with
    | .method => .method
    | .blockStatement => .block
    | .ifElseBlockStatement => .ifElse
    | .standardCondition => .condition
    | .switchStatement => .switch
    | .tryCatchFinallyBlockStatement => .tryCatch
    | .variableDeclaration | .fieldDeclaration => .variableDeclaration
    | .variableExpression => .variable
    | .literalExpression => .literal
    | kind =>
      if kind.isSimple || kind.isCompound then .statement
      else if kind.isExpression then .expression
      else .other

/-- A declared parameter. -/
structure Parameter where
  name : String
  type : String
  deriving DecidableEq, Repr

namespace CodeGraph

variable (graph : CodeGraph)

/-! ## Places -/

section
variable (id : VertexId)

/-- The label of a vertex; a missing vertex counts as a block. -/
def labelOf : NodeKind := (graph.label? id).getD .blockStatement

/-- A vertex in messages: its label, number and line. -/
def describe : String :=
  (graph.labelOf id).name ++ "(" ++ id.display ++ "@" ++ toString (graph.beginLine id) ++ ")"

def siblings : List VertexId :=
  match graph.parent? id with
  | some parent => (graph.children parent).filter (· != id)
  | none => []

def enclosingMethod? : Option VertexId := graph.enclosing? id .method

/-- The vertex itself or its nearest ancestor that declares a type. -/
def enclosingType? : Option VertexId :=
  (id :: graph.ancestors id).find? fun v => (graph.label? v).any NodeKind.isTypeDeclaration

end

/-- A number as an unsigned 64-bit word. -/
def asWord (n : Int) : Nat := (n % 18446744073709551616).toNat

def lastChild? (id : VertexId) : Option VertexId := (graph.children id).getLast?

def lastBlock? (id : VertexId) : Option VertexId := (graph.lastChild? id).filter (graph.is · .blockStatement)

/-- The canonical declared type of a vertex. -/
def declaredType? (id : VertexId) : Option String := (graph.text? id (.spelled .type)).map TypeName.canonical

/-! ## Types -/

def qualifiedName (id : VertexId) : String := (graph.definingType? id <|> graph.name? id).getD ""

def methods (type : VertexId) : List VertexId := graph.childrenWithLabel type .method

def fields (type : VertexId) : List VertexId :=
  (graph.childrenWithLabel type .fieldDeclarationStatements).flatMap (graph.childrenWithLabel · .fieldDeclaration)

def properties (type : VertexId) : List VertexId := graph.childrenWithLabel type .propertyDeclaration

def innerTypes (type : VertexId) : List VertexId :=
  (graph.children type).filter fun child => (graph.labelOf child).isTypeDeclaration

/-! ## Methods -/

def returnType (method : VertexId) : String :=
  TypeName.canonical ((graph.text? method (.spelled .returnType)).getD "void")

def declaredArity (method : VertexId) : Nat := asWord ((graph.int? method (.fact .arity)).getD 0)

def parameters (method : VertexId) : List Parameter :=
  (graph.childrenWithLabel method .parameter).map fun id =>
    ⟨(graph.name? id).getD "", TypeName.canonical ((graph.text? id (.spelled .type)).getD "Object")⟩

def body? (method : VertexId) : Option VertexId := graph.lastBlock? method

def isStatic (id : VertexId) : Bool := graph.flag id (.fact .isStatic)

def isConstructor (method : VertexId) : Bool := graph.flag method (.fact .isConstructor)

def isStaticBlockInvoker (method : VertexId) : Bool := graph.name? method == some Reserved.staticBlockInvoker

/-- The type, the name and the parameter types of a method. -/
def signature (method : VertexId) : String :=
  (graph.definingType? method).getD "" ++ "." ++ (graph.name? method).getD "" ++ "(" ++
    Text.joinStrings "," ((graph.parameters method).map (·.type)) ++ ")"

/-! ## Statements -/

section
variable (id : VertexId)

/-- The condition and the block of each branch. -/
def branches : List (VertexId × VertexId) :=
  (graph.childrenWithLabel id .ifBlockStatement).filterMap fun branch => do
    return (← graph.childAt? branch 0, ← graph.childAt? branch 1)

def loopCondition? : Option VertexId := (graph.childrenWithLabel id .standardCondition).head?

def loopBody? : Option VertexId :=
  (graph.childrenWithLabel id .blockStatement).find? fun block => !graph.flag block (.fact .isImplicit)

def loopInit? : Option VertexId :=
  if graph.labelOf id == .forLoopStatement && graph.flag id (.fact .hasInit) then graph.childAt? id 0 else none

def loopUpdate? : Option VertexId :=
  if graph.labelOf id == .forLoopStatement && graph.flag id (.fact .hasUpdate) then
    graph.childAt? id ((graph.flag id (.fact .hasInit)).toNat + (graph.flag id (.fact .hasCondition)).toNat)
  else none

/-- The declaration of the variable of a loop over a collection. -/
def loopVariable? : Option VertexId :=
  if graph.labelOf id == .forEachStatement then graph.childAt? id 0 else none

def iterable? : Option VertexId :=
  if graph.labelOf id == .forEachStatement then graph.childAt? id 1 else none

def whenBlocks : List VertexId :=
  (graph.children id).filter fun child => (graph.labelOf child).isWhenBlock

def whenCases : List VertexId :=
  (graph.children id).filter fun child => [.literalCase, .identifierCase].contains (graph.labelOf child)

def finallyBlock? : Option VertexId :=
  if graph.flag id (.fact .hasFinally) then graph.lastChild? id else none

end

/-! ## Expressions -/

def receiver? (call : VertexId) : Option VertexId :=
  if graph.is call .methodCallExpression then graph.childAt? call 0 else none

/-- The dotted names that a vertex refers to, if it is a plain reference. -/
def referenceNames (id : Option VertexId) : List String :=
  match id with
  | some id => if graph.is id .referenceExpression then graph.texts id (.spelled .names) else []
  | none => []

def receiverNames (call : VertexId) : List String := graph.referenceNames (graph.receiver? call)

def createdType? (call : VertexId) : Option String :=
  if graph.is call .newObjectExpression then graph.declaredType? call else none

/-- The name of the method that is called; a constructor has its reserved name. -/
def calledName? (call : VertexId) : Option String :=
  if graph.labelOf call == .methodCallExpression then graph.text? call (.spelled .methodName)
  else some Reserved.constructorName

def arguments (call : VertexId) : List VertexId :=
  if graph.is call .methodCallExpression then (graph.children call).drop 1 else graph.children call

def qualifier? (variable_ : VertexId) : Option VertexId := graph.childAt? variable_ 0

def qualifierNames (variable_ : VertexId) : List String := graph.referenceNames (graph.qualifier? variable_)

def isUnqualified (variable_ : VertexId) : Bool :=
  match graph.qualifier? variable_ with
  | some qualifier => graph.is qualifier .emptyReferenceExpression
  | none => true

def literalTag (id : VertexId) : String := (graph.text? id (.fact .literalType)).getD Reserved.literalNull

def literalText (id : VertexId) : String := (graph.text? id (.fact .value)).getD ""

/-- The type of a literal; `null` has none. -/
def literalType? (id : VertexId) : Option String :=
  let tag := graph.literalTag id
  if tag == Reserved.literalString then some "String"
  else if tag == Reserved.literalInteger then some "Integer"
  else if tag == Reserved.literalLong then some "Long"
  else if tag == Reserved.literalDecimal then some "Decimal"
  else if tag == Reserved.literalTrue || tag == Reserved.literalFalse then some "Boolean"
  else none

/-! ## Evaluation order -/

/-- The subtree with every vertex after its children, down to the given depth. -/
def postOrderWithin : Nat → VertexId → List VertexId
  | 0, id => [id]
  | n + 1, id => (graph.children id).flatMap (postOrderWithin n) ++ [id]

/-- The subtree with every vertex after its children. -/
def postOrder (id : VertexId) : List VertexId := graph.postOrderWithin graph.vertexCount id

/-- The roots of the expressions that are evaluated when a path reaches a vertex. -/
def evaluatedRoots (id : VertexId) : List VertexId :=
  match graph.labelOf id with
  | .expressionStatement | .variableDeclarationStatements | .returnStatement | .throwStatement | .standardCondition =>
    graph.children id
  | .forEachStatement => (graph.childAt? id 1).toList
  | label => if label.isDml then graph.children id else if label.isExpression then [id] else []

/-- The expressions that are evaluated when a path reaches a vertex, operands before operations. -/
def evaluatedExpressions (id : VertexId) : List VertexId := (graph.evaluatedRoots id).flatMap graph.postOrder

end CodeGraph

end ApexPaths
