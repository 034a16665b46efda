import ApexPaths.Program.Binding

/-!
Static types of expressions and the choice among overloaded methods. A candidate is scored argument by
argument: 0 for the same type, the number of steps of a numeric widening, 10 for each step up the
hierarchy, 300 for `SObject`, 500 for `Object`; a `null` prefers the deepest type. The first candidate
of the lowest total is chosen.
-/

namespace ApexPaths
set_option autoImplicit false

/-- What is known of the type of an expression. -/
inductive StaticType where
  | known (type : String)
  | null
  | unknown
  deriving DecidableEq, Repr, Inhabited

namespace StaticType

def known? : StaticType → Option String
  | .known type => some type
  | _ => none

def ofOption : Option String → StaticType
  | some type => .known type
  | none => .unknown

/-- The type of an operation on two operands: text wins, then the wider number. -/
def join (left right : StaticType) : StaticType :=
  match left, right with
  | .known l, .known r =>
    if l = "String" ∨ r = "String" then .known "String"
    else if l = r then .known l
    else if (TypeName.wideningDistance? l r).isSome then .known r
    else if (TypeName.wideningDistance? r l).isSome then .known l
    else .unknown
  | _, _ => .unknown

end StaticType

namespace Score

def object : Nat := 500

def record : Nat := 300

def elementRecord : Nat := 30

def elementObject : Nat := 50

def subtypeStep : Nat := 10

def null : Nat := 100

end Score

namespace Program

variable (program : Program)

/-! ## Scores -/

/-- A type of records: neither primitive nor a collection nor `Object` nor declared in the program. -/
def isRecordType (type : String) (context : Option VertexId) : Bool :=
  type != "Object" && !TypeName.isPrimitive type && !TypeName.isCollection type && (program.lookup? context type).isNone

/-- The cost of the steps from a declared type up to another one. -/
def subtypeScore? (sub : String) (subContext : Option VertexId) (sup : String) (supContext : Option VertexId) :
    Option Nat := do
  let sub ← program.lookup? subContext sub
  let sup ← program.lookup? supContext sup
  return Score.subtypeStep * (← program.distance? sub sup)

/-- The cost of one generic argument: elements become `Object`, `SObject` or a supertype, never narrower. -/
def elementScore? (arg : String) (argContext : Option VertexId) (param : String) (paramContext : Option VertexId) :
    Option Nat :=
  let arg := TypeName.canonical arg
  let param := TypeName.canonical param
  if Text.eqIgnoringCase arg param then some 0
  else if param = "Object" then some Score.elementObject
  else if param = "SObject" then if program.isRecordType arg argContext then some Score.elementRecord else none
  else program.subtypeScore? arg argContext param paramContext

/-- The sum of costs; one part that does not fit spoils the whole. -/
def total? : List (Option Nat) → Option Nat
  | [] => some 0
  | part :: parts => return (← part) + (← total? parts)

/-- The cost of passing a value of one type where another type is declared. -/
def typeScore? (arg : String) (argContext : Option VertexId) (param : String) (paramContext : Option VertexId) :
    Option Nat :=
  let arg := TypeName.canonical arg
  let param := TypeName.canonical param
  if Text.eqIgnoringCase arg param then some 0
  else if param = "Object" then some Score.object
  else
    match TypeName.wideningDistance? arg param with
    | some distance => some distance
    | none =>
      if TypeName.isCollection arg || TypeName.isCollection param then
        let (argBase, argParts) := TypeName.splitGeneric arg
        let (paramBase, paramParts) := TypeName.splitGeneric param
        if argBase != paramBase || argParts.length != paramParts.length then none
        else total? (argParts.zipWith (fun a p => program.elementScore? a argContext p paramContext) paramParts)
      else if param = "SObject" then if program.isRecordType arg argContext then some Score.record else none
      else program.subtypeScore? arg argContext param paramContext

/-- The cost of passing an argument; what is not known fits everywhere at no cost. -/
def parameterScore? (param : String) (paramContext : Option VertexId) (arg : StaticType)
    (argContext : Option VertexId) : Option Nat :=
  match arg with
  | .unknown => some 0
  | .null =>
    let param := TypeName.canonical param
    if param = "Object" then some Score.object
    else
      let depth := ((program.lookup? paramContext param).map fun type => (program.ancestors type).length).getD 0
      some (Score.null - depth)
  | .known arg => program.typeScore? arg argContext param paramContext

/-! ## Candidates -/

/-- The total cost of a call of a method with these arguments. -/
def callScore? (args : List StaticType) (context : Option VertexId) (method : VertexId) : Option Nat :=
  let params := program.graph.parameters method
  if params.length != args.length then none
  else
    let owner := program.graph.enclosingType? method
    total? (params.zipWith (fun param arg => program.parameterScore? param.type owner arg context) args)

/-- The better of a scored choice and one more item; the choice stays if they are equal. -/
def lesser {α : Type} (score? : α → Option Nat) (best : Option (Nat × α)) (item : α) : Option (Nat × α) :=
  match score? item, best with
  | none, best => best
  | some score, none => some (score, item)
  | some score, some (least, chosen) => if score < least then some (score, item) else some (least, chosen)

def firstLeast {α : Type} (score? : α → Option Nat) (items : List α) : Option α :=
  (items.foldl (lesser score?) none).map (·.2)

/-- The best of the candidates for these arguments. -/
def selectOverload? (candidates : List VertexId) (args : List StaticType) (context : Option VertexId) :
    Option VertexId :=
  firstLeast (program.callScore? args context) candidates

/-- The methods of a name and a number of parameters on a type and its supertypes. -/
def candidates (owner : VertexId) (name : String) (arity : Nat) : List VertexId :=
  ((program.hierarchy owner).flatMap program.graph.methods).filter fun method =>
    !program.graph.isConstructor method && program.hasName method name && program.graph.declaredArity method == arity

/-- The constructor of a type for these arguments. -/
def selectConstructor? (type : VertexId) (args : List StaticType) (context : Option VertexId) : Option VertexId :=
  let constructors := (program.graph.methods type).filter fun method =>
    program.graph.isConstructor method && program.graph.declaredArity method == args.length
  program.selectOverload? constructors args context

/-! ## Expressions, given the types of their parts -/

section
variable (typeOf : VertexId → StaticType)

/-- The variable that a variable expression refers to. -/
def bindingGiven? (expr : VertexId) : Option Binding := do
  let graph := program.graph
  let name ← graph.name? expr
  let here := graph.enclosingType? expr
  match graph.qualifier? expr with
  | none => program.variableBinding? name expr
  | some qualifier =>
    match graph.labelOf qualifier with
    | .emptyReferenceExpression => program.variableBinding? name expr
    | .thisVariableExpression => program.memberBinding? (← here) name
    | .superVariableExpression => program.memberBinding? (← here.bind program.superclass?) name
    | .referenceExpression =>
      program.memberBinding? (← program.receiverType? (graph.texts qualifier (.spelled .names)) expr) name
    | _ => program.memberBinding? (← program.lookup? here (← (typeOf qualifier).known?)) name

/-- The types in which the method of a call is looked for, in order. -/
def calledOwners (call : VertexId) : List VertexId :=
  let graph := program.graph
  let here := graph.enclosingType? call
  match graph.receiver? call with
  | none => program.outward here
  | some receiver =>
    match graph.labelOf receiver with
    | .emptyReferenceExpression => program.outward here
    | .thisVariableExpression => here.toList
    | .superVariableExpression => (here.bind program.superclass?).toList
    | .referenceExpression => (program.receiverType? (graph.receiverNames call) call).toList
    | _ => ((typeOf receiver).known?.bind (program.lookup? here)).toList

def targetGiven? (call : VertexId) : Option VertexId := do
  let graph := program.graph
  let here := graph.enclosingType? call
  let args := (graph.arguments call).map typeOf
  match graph.labelOf call with
  | .newObjectExpression =>
    let created ← graph.createdType? call
    if TypeName.isCollection created then none
    else program.selectConstructor? (← program.lookup? here created) args here
  | .thisMethodCallExpression => program.selectConstructor? (← here) args here
  | .superMethodCallExpression => program.selectConstructor? (← here.bind program.superclass?) args here
  | .methodCallExpression =>
    let name ← graph.calledName? call
    (program.calledOwners typeOf call).findSome? fun owner =>
      program.selectOverload? (program.candidates owner name args.length) args here
  | _ => none

def typeGiven (expr : VertexId) : StaticType :=
  let graph := program.graph
  let part (index : Nat) : StaticType := ((graph.childAt? expr index).map typeOf).getD .unknown
  match graph.labelOf expr with
  | .literalExpression =>
    if graph.literalTag expr = Reserved.literalNull then .null else .ofOption (graph.literalType? expr)
  | .variableExpression => .ofOption ((program.bindingGiven? typeOf expr).map (·.type))
  | .thisVariableExpression => .ofOption ((graph.enclosingType? expr).map program.nameOf)
  | .newObjectExpression => .ofOption (graph.createdType? expr)
  | .newListLiteralExpression | .newSetLiteralExpression | .newMapLiteralExpression | .castExpression =>
    .ofOption (graph.declaredType? expr)
  | .methodCallExpression | .thisMethodCallExpression | .superMethodCallExpression =>
    .ofOption (((program.targetGiven? typeOf expr).map graph.returnType).filter fun type =>
    !Text.eqIgnoringCase type "void")
  | .booleanExpression | .instanceOfExpression => .known "Boolean"
  | .prefixExpression =>
    if graph.text? expr (.fact .operator) = some "!" then .known "Boolean" else part 0
  | .postfixExpression | .assignmentExpression => part 0
  | .binaryExpression => StaticType.join (part 0) (part 1)
  | .ternaryExpression =>
    match part 1 with
    | .known type => .known type
    | _ => part 2
  | .arrayLoadExpression => .ofOption ((part 0).known?.bind TypeName.element?)
  | .soqlExpression => .known "List<SObject>"
  | .classRefExpression => .known "System.Type"
  | _ => .unknown

end

/-! ## Expressions -/

/-- The type of an expression whose tree is not deeper than the number. -/
def typeWithin : Nat → VertexId → StaticType
  | 0, _ => .unknown
  | n + 1, expr => program.typeGiven (typeWithin n) expr

def expressionType (expr : VertexId) : StaticType := program.typeWithin (program.graph.vertexCount + 1) expr

/-- The variable that a variable expression refers to. -/
def expressionBinding? (expr : VertexId) : Option Binding := program.bindingGiven? program.expressionType expr

/-- The method that a call, a construction or a constructor chaining runs. -/
def target? (call : VertexId) : Option VertexId := program.targetGiven? program.expressionType call

/-! ## Properties -/

/-- The written accessor of the property that a variable expression refers to. Inside the accessor itself
the name means the stored value. -/
def accessor? (accessorName : String → String) (expr : VertexId) : Option VertexId := do
  let binding ← program.expressionBinding? expr
  let .property owner declaration _ := binding.declared | none
  let wanted := accessorName (← program.graph.name? declaration)
  if ((program.graph.enclosingMethod? expr).bind program.graph.name?).any (Text.eqIgnoringCase · wanted) then none
  else (program.graph.methods owner).find? fun method =>
    program.hasName method wanted && !program.graph.flag method (.fact .isImplicit)

/-- The getter that runs when the expression is read. -/
def getter? (expr : VertexId) : Option VertexId := program.accessor? Reserved.getter expr

def setter? (assignment : VertexId) : Option VertexId := do
  let target ← program.graph.childAt? assignment 0
  if program.graph.is target .variableExpression then program.accessor? Reserved.setter target else none

/-! ## Static initialization -/

/-- The method that runs the static blocks of a type. -/
def staticInvoker? (type : VertexId) : Option VertexId :=
  (program.graph.methods type).find? program.graph.isStaticBlockInvoker

/-- The type that a qualifier refers to statically. -/
def staticOwner? (qualifier place : VertexId) : Option VertexId :=
  if program.graph.is qualifier .referenceExpression then
    match program.receiver (program.graph.texts qualifier (.spelled .names)) place with
    | .type id => some id
    | .value _ owner => owner
    | .unknown => none
  else none

/-- The type that evaluating an expression initializes. -/
def staticReference? (expr : VertexId) : Option VertexId :=
  let graph := program.graph
  match graph.labelOf expr with
  | .newObjectExpression =>
    (graph.createdType? expr).bind fun type => program.lookup? (graph.enclosingType? expr) (TypeName.base type)
  | .methodCallExpression => (graph.receiver? expr).bind (program.staticOwner? · expr)
  | .variableExpression => (graph.qualifier? expr).bind (program.staticOwner? · expr)
  | _ => none

end Program

end ApexPaths
