import ApexPaths.Value.Operators
import ApexPaths.Walk.Places

/-!
Evaluation of expressions. A call with an attached path runs that path; other calls go to the model of
the library; what is left is unknown, of the static type of the expression. Every evaluated expression is
shown to the visitor after its operands.
-/

namespace ApexPaths.Walker
set_option autoImplicit false

open WalkM

variable {σ : Type} (walker : Walker σ) (perform : Perform σ)

def evalAll (sites : Option CodePath) (exprs : List VertexId) : WalkM σ (List Value) :=
  exprs.mapM fun expr => perform (.eval sites expr)

/-! ## Literals -/

/-- The value of a literal by its kind and its text; a number that does not fit is unknown. -/
def literalValue (tag text : String) : Value :=
  if tag = Reserved.literalString then .ofText text
  else if tag = Reserved.literalInteger then ((Text.int64? text).map Value.ofInt).getD (.unknown "Integer")
  else if tag = Reserved.literalLong then
    let digits := (text.toList.reverse.dropWhile fun c => c == 'l' || c == 'L').reverse
    ((Text.int64? (String.ofList digits)).map fun n => Value.ofLiteral (.long n)).getD (.unknown "Long")
  else if tag = Reserved.literalDecimal then
    ((Double.read? text).map fun x => Value.ofLiteral (.decimal x)).getD (.unknown "Decimal")
  else if tag = Reserved.literalTrue then .ofBool true
  else if tag = Reserved.literalFalse then .ofBool false
  else .null

/-! ## Variables -/

def thisValue (expr : VertexId) : WalkM σ Value := do
  let all ← symbols
  match all.this?.bind fun ref => (all.heap.get? ref).map (ref, ·) with
  | some (ref, object) => return .ofRef object.typeName ref
  | none => return walker.unknown expr

/-- The object on which the accessor of a property runs. -/
def accessorHolder (sites : Option CodePath) (expr : VertexId) : WalkM σ (Option HeapRef) := do
  match walker.graph.qualifier? expr with
  | none => this?
  | some qualifier =>
    match walker.graph.labelOf qualifier with
    | .emptyReferenceExpression | .thisVariableExpression | .superVariableExpression => this?
    | .referenceExpression =>
      match ← walker.resolveNames perform (walker.graph.qualifierNames expr) expr with
      | .value holder => return holder.ref?
      | _ => return none
    | _ => return (← perform (.eval sites qualifier)).ref?

/-- The value of a variable without an accessor. -/
def readVariable (sites : Option CodePath) (expr : VertexId) : WalkM σ Value := do
  let graph := walker.graph
  let name := (graph.name? expr).getD ""
  match graph.qualifier? expr with
  | none => return (← walker.nameValue? perform name expr).getD (walker.unknown expr)
  | some qualifier =>
    match graph.labelOf qualifier with
    | .emptyReferenceExpression => return (← walker.nameValue? perform name expr).getD (walker.unknown expr)
    | .thisVariableExpression | .superVariableExpression =>
      let this ← this?
      return (this.bind ((← heap).field? · name)).getD (walker.unknown expr)
    | .referenceExpression =>
      match ← walker.resolveNames perform (graph.qualifierNames expr ++ [name]) expr with
      | .value value => return value
      | _ => return walker.unknown expr
    | _ =>
      let holder ← perform (.eval sites qualifier)
      return walker.memberOf (← heap) (walker.staticType expr) holder name

/-- The value of a variable; a property with a getter on the path runs it. -/
def evalVariable (sites : Option CodePath) (expr : VertexId) : WalkM σ Value := do
  match attached? sites expr with
  | some getter => perform (.invoke getter (← walker.accessorHolder perform sites expr) [])
  | none => walker.readVariable perform sites expr

/-! ## Calls -/

/-- What a method is called on; nothing for a method of the running object or class. -/
def callTarget? (sites : Option CodePath) (call : VertexId) : WalkM σ (Option CallTarget) := do
  match walker.graph.receiver? call with
  | none => return none
  | some receiver =>
    match walker.graph.labelOf receiver with
    | .emptyReferenceExpression | .thisVariableExpression | .superVariableExpression => return none
    | .referenceExpression =>
      let names := walker.graph.receiverNames call
      match ← walker.resolveNames perform names call with
      | .value value => return some (.value value)
      | .type type => return some (.type (walker.program.nameOf type))
      | .unknown => return some (.type (Text.joinStrings "." names))
    | _ => return some (.value (← perform (.eval sites receiver)))

def evalCall (sites : Option CodePath) (call : VertexId) : WalkM σ Value := do
  let target ← walker.callTarget? perform sites call
  let args ← evalAll perform sites (walker.graph.arguments call)
  match attached? sites call with
  | some callee =>
    let this ← match target with
      | some (.value value) => pure value.ref?
      | some (.type _) => pure none
      | none => this?
    perform (.invoke callee this args)
  | none =>
    match target with
    | some target =>
      return (← callLibrary? target ((walker.graph.calledName? call).getD "") args).getD (walker.unknown call)
    | none => return walker.unknown call

/-! ## Creation -/

/-- The contents of a new list or set: those of the collection that is copied, or none. -/
def copiedContents (heap : Heap) : Option Value → Contents Value
  | none => {}
  | some source =>
    match source.ref?.bind heap.get? with
    | some (.list _ contents) | some (.set _ contents) => contents
    | _ => .unknown

/-- A new collection of a canonical type, perhaps a copy of another one. -/
def newCollection (type : String) (source : Option Value) : WalkM σ Value :=
  let element := (TypeName.element? type).getD "Object"
  onHeap fun heap =>
    match TypeName.base type with
    | "Map" => heap.newMap ((TypeName.key? type).getD "Object") element (if source.isNone then {} else .unknown)
    | "Set" => heap.newSet element (copiedContents heap source)
    | _ => heap.newList element (copiedContents heap source)

/-- The name and the value of an argument that sets a field of a new record. -/
def fieldArgument? (arg : VertexId) : Option (String × VertexId) := do
  let graph := walker.graph
  guard (graph.is arg .assignmentExpression)
  let target ← (graph.childAt? arg 0).filter (graph.is · .variableExpression)
  return (← graph.name? target, ← graph.childAt? arg 1)

/-- A new record of a type that the program does not declare. -/
def newRecord (sites : Option CodePath) (type : String) (args : List VertexId) : WalkM σ Value := do
  let ref ← onHeap (·.allocate (.instanceOf type))
  args.forM fun arg =>
    match walker.fieldArgument? arg with
    | some (name, expr) => do
      let value ← perform (.eval sites expr)
      onHeap fun heap => ((), heap.setField ref name value)
    | none => discard (perform (.eval sites arg))
  return .ofRef type ref

/-- The type that a creation names is an array. -/
def isArray (type : String) : Bool := (Text.trimEnd type.toList).getLast? == some ']'

def evalNew (sites : Option CodePath) (expr : VertexId) : WalkM σ Value := do
  let spelled := (walker.graph.text? expr (.spelled .type)).getD "Object"
  let type := TypeName.canonical spelled
  let args := walker.graph.arguments expr
  if isArray spelled then
    onHeap (·.newList ((TypeName.element? type).getD "Object") .unknown)
  else if TypeName.isCollection type then
    newCollection type (← evalAll perform sites args).head?
  else
    match walker.program.lookup? (walker.graph.enclosingType? expr) type with
    | some declared =>
      let args ← evalAll perform sites args
      walker.ensureInitialized perform declared
      let ref ← walker.instantiate perform declared
      match attached? sites expr with
      | some constructor => discard (perform (.invoke constructor (some ref) args))
      | none => pure ()
      return .ofRef (walker.program.nameOf declared) ref
    | none => walker.newRecord perform sites type args

/-- A collection with its elements written out. -/
def evalElements (sites : Option CodePath) (expr : VertexId) (isSet : Bool) : WalkM σ Value := do
  let element := (TypeName.element? (walker.program.typeOfDeclaration expr)).getD "Object"
  let items ← evalAll perform sites (walker.graph.children expr)
  onHeap fun heap => if isSet then heap.newSet element { items } else heap.newList element { items }

/-- A map with its entries written out; an entry that lacks a part is passed over. -/
def evalEntries (sites : Option CodePath) (expr : VertexId) : WalkM σ Value := do
  let graph := walker.graph
  let type := walker.program.typeOfDeclaration expr
  let written := (graph.childrenWithLabel expr .mapEntryNode).filterMap fun entry => do
    return (← graph.childAt? entry 0, ← graph.childAt? entry 1)
  let items ← written.mapM fun (key, value) => return (← perform (.eval sites key), ← perform (.eval sites value))
  onHeap (·.newMap ((TypeName.key? type).getD "Object") ((TypeName.element? type).getD "Object") { items })

/-! ## Operators -/

/-- The first operands of an expression. -/
def operands? (expr : VertexId) : Option (VertexId × VertexId) := do
  return (← walker.graph.childAt? expr 0, ← walker.graph.childAt? expr 1)

def operatorOf (expr : VertexId) (default : String) : String := (walker.graph.text? expr (.fact .operator)).getD default

def evalBinary (sites : Option CodePath) (expr : VertexId) : WalkM σ Value := do
  match walker.operands? expr with
  | some (left, right) =>
    let left ← perform (.eval sites left)
    let right ← perform (.eval sites right)
    return (Operator.binary? (walker.operatorOf expr "+") left right).getD (walker.unknown expr)
  | none => return walker.unknown expr

/-- A comparison or a logical operation; the right side of the latter is evaluated only if it matters. -/
def evalBoolean (sites : Option CodePath) (expr : VertexId) : WalkM σ Value := do
  let undecided := Value.unknown "Boolean"
  match walker.operands? expr with
  | some (left, right) =>
    let op := walker.operatorOf expr "=="
    let left ← perform (.eval sites left)
    if op = "&&" ∨ op = "||" then
      match Operator.shortCircuit? op left with
      | some decided => return decided
      | none => return (Operator.logical? op left (← perform (.eval sites right))).getD undecided
    else return (Operator.compare? op left (← perform (.eval sites right))).getD undecided
  | none => return undecided

/-- An operator on one operand; `++` and `--` also write it. -/
def evalUnary (sites : Option CodePath) (expr : VertexId) : WalkM σ Value := do
  match walker.graph.childAt? expr 0 with
  | none => return walker.unknown expr
  | some operand =>
    let op := walker.operatorOf expr ""
    if op = "++" ∨ op = "--" then
      let place ← walker.placeOf perform sites operand
      let current := (← place.read?).getD (walker.unknown operand)
      notify (walker.visitor.onExpression operand current)
      let next := (Operator.step? op current).getD (.unknown current.type)
      place.write next
      return if walker.graph.is expr .postfixExpression then current else next
    else
      return (Operator.unary? op (← perform (.eval sites operand))).getD (walker.unknown expr)

/-- The operation that a compound assignment performs. -/
def compound? (op : String) : Option String :=
  ((Text.dropEnd? ['='] op.toList).filter (!·.isEmpty)).map String.ofList

/-- An assignment. A property with a setter on the path runs it, and nothing else is written. -/
def evalAssignment (sites : Option CodePath) (expr : VertexId) : WalkM σ Value := do
  match walker.operands? expr with
  | none => return walker.unknown expr
  | some (target, source) =>
    let place ← walker.placeOf perform sites target
    let assigned ← perform (.eval sites source)
    let value ← match compound? (walker.operatorOf expr "=") with
      | some op =>
        let current := (← place.read?).getD (walker.unknown target)
        pure ((Operator.binary? op current assigned).getD (.unknown current.type))
      | none => pure assigned
    match attached? sites expr with
    | some setter =>
      let holder ← match place with
        | .field object _ => pure (some object)
        | _ => this?
      discard (perform (.invoke setter holder [value]))
    | none => place.write value
    return value

/-- A choice; where the condition is not known both sides are evaluated. -/
def evalTernary (sites : Option CodePath) (expr : VertexId) : WalkM σ Value := do
  match walker.operands? expr, walker.graph.childAt? expr 2 with
  | some (condition, yes), some no =>
    match (← perform (.eval sites condition)).bool? with
    | some true => perform (.eval sites yes)
    | some false => perform (.eval sites no)
    | none =>
      let yes ← perform (.eval sites yes)
      let no ← perform (.eval sites no)
      return if yes.sameContent no then yes else walker.unknown expr
  | _, _ => return walker.unknown expr

/-! ## Types -/

def evalCast (sites : Option CodePath) (expr : VertexId) : WalkM σ Value := do
  let type := walker.program.typeOfDeclaration expr
  match walker.graph.childAt? expr 0 with
  | some operand => return (← perform (.eval sites operand)).retyped type
  | none => return .unknown type

/-- Whether a value is of a type, as far as that is known. -/
def isInstance? (value : Value) (type : String) (place : VertexId) : Option Bool :=
  if value.isNull then some false
  else if value.isUnknown then none
  else if TypeName.same value.type type || type == "Object" then some true
  else do
    let context := walker.graph.enclosingType? place
    let sub ← walker.program.lookup? context value.type
    let sup ← walker.program.lookup? context type
    return (walker.program.distance? sub sup).isSome

def evalInstanceOf (sites : Option CodePath) (expr : VertexId) : WalkM σ Value := do
  match walker.graph.childAt? expr 0 with
  | some operand =>
    let value ← perform (.eval sites operand)
    return ((walker.isInstance? value (walker.program.typeOfDeclaration expr) expr).map Value.ofBool).getD
      (.unknown "Boolean")
  | none => return .unknown "Boolean"

def evalElement (sites : Option CodePath) (expr : VertexId) : WalkM σ Value := do
  match walker.operands? expr with
  | some (container, index) =>
    let container ← perform (.eval sites container)
    let index ← perform (.eval sites index)
    return (← Place.elementOf? container index).getD (walker.unknown expr)
  | none => return walker.unknown expr

/-! ## All expressions -/

def evalKind (sites : Option CodePath) (expr : VertexId) : WalkM σ Value :=
  let graph := walker.graph
  match graph.labelOf expr with
  | .literalExpression => return literalValue (graph.literalTag expr) (graph.literalText expr)
  | .variableExpression => walker.evalVariable perform sites expr
  | .thisVariableExpression | .superVariableExpression => walker.thisValue expr
  | .methodCallExpression | .thisMethodCallExpression | .superMethodCallExpression => walker.evalCall perform sites expr
  | .newObjectExpression => walker.evalNew perform sites expr
  | .newListLiteralExpression => walker.evalElements perform sites expr false
  | .newSetLiteralExpression => walker.evalElements perform sites expr true
  | .newMapLiteralExpression => walker.evalEntries perform sites expr
  | .binaryExpression => walker.evalBinary perform sites expr
  | .booleanExpression => walker.evalBoolean perform sites expr
  | .prefixExpression | .postfixExpression => walker.evalUnary perform sites expr
  | .assignmentExpression => walker.evalAssignment perform sites expr
  | .ternaryExpression => walker.evalTernary perform sites expr
  | .castExpression => walker.evalCast perform sites expr
  | .instanceOfExpression => walker.evalInstanceOf perform sites expr
  | .arrayLoadExpression => walker.evalElement perform sites expr
  | .soqlExpression => onHeap (Library.queryResult (graph.text? expr (.fact .query)))
  | .classRefExpression => return .unknown "System.Type"
  | _ => return walker.unknown expr

/-- Evaluate an expression and show it to the visitor. A value without an origin comes from here. -/
def evalExpression (sites : Option CodePath) (expr : VertexId) : WalkM σ Value := do
  let found ← walker.evalKind perform sites expr
  let value := if found.origin.isSome then found else found.withOrigin expr
  notify (walker.visitor.onExpression expr value)
  return value

end ApexPaths.Walker
