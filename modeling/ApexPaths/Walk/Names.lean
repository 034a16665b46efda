import ApexPaths.Walk.Basic

/-!
Classes, objects and the values of names.
-/

namespace ApexPaths.Walker
set_option autoImplicit false

open WalkM

variable {σ : Type} (walker : Walker σ) (perform : Perform σ)

/-!
## Classes and objects

A class is initialized once: its static fields
first, then its static blocks where their path is known. A new object has the fields of all its
superclasses, theirs before its own.
-/

/-- The first value of a field. No attached path runs in an initializer. -/
def fieldValue (field : VertexId) (type : String) : WalkM σ Value := do
  match walker.graph.childAt? field 0 with
  | some init => return (← perform (.eval none init)).retyped type
  | none => return (Value.nullOf type).withOrigin field

def isStaticField (field : VertexId) : Bool := (walker.graph.parent? field).any walker.graph.isStatic

/-- Give each field and each property of a type that is static, or each that is not, its first value;
properties start as null. -/
def setFields (type : VertexId) (static : Bool) (store : String → String → Value → WalkM σ Unit) : WalkM σ Unit := do
  let graph := walker.graph
  ((graph.fields type).filter (walker.isStaticField · == static)).forM fun field => do
    let declared := (graph.declaredType? field).getD "Object"
    let value ← walker.fieldValue perform field declared
    store ((graph.name? field).getD "") declared value
  ((graph.properties type).filter (graph.isStatic · == static)).forM fun property => do
    let declared := walker.program.typeOfDeclaration property
    match graph.name? property with
    | some name => store name declared (.nullOf declared)
    | none => return

/-! ### Initialization -/

def initializeStaticFields (type : VertexId) : WalkM σ Unit := do
  let owner := walker.graph.qualifiedName type
  pushFrame { owner := some owner }
  walker.setFields perform type true fun name declared value => modifyStatics (·.declare owner name declared value)
  discard popFrame

/-- Initialize a class unless that was begun before. The path is that of its static blocks. -/
def initializeClass (owner : String) (blocks : Option CodePath) : WalkM σ Unit := do
  let (isFirst, statics) := (← symbols).statics.begin owner
  modifyStatics fun _ => statics
  if isFirst then
    if let some type := walker.program.typeNamed? owner then
      walker.initializeStaticFields perform type
    if let some path := blocks then
      discard (perform (.invoke path none []))
    modifyStatics (·.finish owner)

/-- Initialize a class at its first use where no path of its static blocks ran. -/
def ensureInitialized (type : VertexId) : WalkM σ Unit := do
  let owner := walker.program.nameOf type
  if (← symbols).statics.state owner = .uninitialized then
    walker.initializeClass perform owner none

/-- Run the static initializers that a path has at an anchor. -/
def runStaticInits (path : CodePath) (anchor : Option VertexId) : WalkM σ Unit := do
  (path.staticInits.filter (·.2.1 == anchor)).forM fun (owner, _, blocks) =>
    walker.initializeClass perform owner (some blocks)

/-! ### Objects -/

/-- The classes whose fields an object of a type has, superclasses first. -/
def fieldOwners (type : VertexId) : List VertexId :=
  (walker.program.hierarchy type).reverse.filter fun owner => !walker.graph.is owner .userInterface

/-- A new object of a type with its fields initialized. -/
def instantiate (type : VertexId) : WalkM σ HeapRef := do
  let ref ← onHeap (·.allocate (.instanceOf (walker.program.nameOf type)))
  (walker.fieldOwners type).forM fun owner => do
    pushFrame { owner := some (walker.graph.qualifiedName owner), this := some ref }
    walker.setFields perform owner false fun name _ value =>
      onHeap fun heap => ((), heap.setField ref name value)
    discard popFrame
  return ref


/-!
## Names

An unqualified name is a local variable, a field of the running object, a static
variable of the running class, or else what its declaration says. The first part of dotted names may
also be a type, the trigger, or an object of the schema.
-/

/-- What dotted names denote. -/
inductive Denoted where
  | value (value : Value)
  | type (id : VertexId)
  | unknown

/-! ### Variables -/

def staticOwner? : Declared → Option VertexId
  | .field owner _ true | .property owner _ true => some owner
  | _ => none

/-- A static variable of a class, which is initialized first. -/
def staticValue? (owner : VertexId) (name : String) : WalkM σ (Option Value) := do
  walker.ensureInitialized perform owner
  return (← symbols).staticValue? (walker.program.nameOf owner) name

/-- The value of a declared variable: known if it is static, else only its type is. -/
def declaredValue (binding : Binding) (name : String) : WalkM σ Value := do
  let value ← match staticOwner? binding.declared with
    | some owner => walker.staticValue? perform owner name
    | none => pure none
  return value.getD (.unknown binding.type)

/-- The value of an unqualified name at a place. -/
def nameValue? (name : String) (place : VertexId) : WalkM σ (Option Value) := do
  let _ ← frame
  match (← symbols).lookup? name with
  | some value => return some value
  | none =>
    match walker.program.variableBinding? name place with
    | some binding => return some (← walker.declaredValue perform binding name)
    | none => return none

/-! ### Members -/

/-- The constant of an enum by its name in any case. -/
def enumConstant? (type : VertexId) (name : String) : Option Value :=
  if walker.graph.is type .userEnum then
    ((walker.graph.texts type (.fact .values)).find? (Text.eqIgnoringCase · name)).map fun constant =>
      .make (walker.program.nameOf type) (.literal (.constant constant))
  else none

/-- A member of a type: a constant of an enum or a static variable. -/
def staticMember? (type : VertexId) (name : String) : WalkM σ (Option Value) := do
  match walker.enumConstant? type name with
  | some constant => return some constant
  | none =>
    match walker.program.memberBinding? type name with
    | some binding => return some (← walker.declaredValue perform binding name)
    | none => return none

/-- A member of a value: a step of a schema token or a field of an object. Where it is neither, the type
of the declared member is known, or else the fallback. -/
def memberOf (heap : Heap) (fallback : String) (holder : Value) (name : String) : Value :=
  let declared := (walker.program.typeNamed? holder.type).bind (walker.program.memberBinding? · name)
  (Library.schemaMember? holder name <|> holder.ref?.bind (heap.field? · name)).getD
    (.unknown ((declared.map (·.type)).getD fallback))

def membersOf (value : Value) (names : List String) : WalkM σ Value := do
  return names.foldl (walker.memberOf (← heap) "Object") value

/-! ### Dotted names -/

section
variable (names : List String)

/-- A variable of the trigger that encloses a place. -/
def triggerVariable? (place : VertexId) : Option (Value × List String) :=
  match names with
  | first :: second :: rest => do
    guard (Text.eqIgnoringCase first "Trigger")
    let trigger ← (walker.graph.enclosingType? place).filter (walker.graph.is · .userTrigger)
    let target ← walker.graph.text? trigger (.spelled .targetName)
    return (← Library.triggerVariable? second target, rest)
  | _ => none

/-- The longest start of dotted names that is a type, with the names after it. -/
def namedType? (place : VertexId) : Option (VertexId × List String) :=
  let context := walker.graph.enclosingType? place
  ((List.range names.length).reverse.map (· + 1)).findSome? fun split =>
    (walker.program.lookup? context (Text.joinStrings "." (names.take split))).map (·, names.drop split)

/-- What dotted names denote that do not start with a variable. -/
def resolveType (place : VertexId) : WalkM σ Denoted := do
  match walker.namedType? names place with
  | some (type, []) => return .type type
  | some (type, name :: rest) =>
    match ← walker.staticMember? perform type name with
    | some value => return .value (← walker.membersOf value rest)
    | none => return .unknown
  | none => return ((Library.schemaReference? names).map Denoted.value).getD .unknown

/-- What dotted names denote at a place. -/
def resolveNames (place : VertexId) : WalkM σ Denoted := do
  match names with
  | [] => return .unknown
  | first :: rest =>
    match ← walker.nameValue? perform first place with
    | some value => return .value (← walker.membersOf value rest)
    | none =>
      match walker.triggerVariable? names place with
      | some (value, rest) => return .value (← walker.membersOf value rest)
      | none => walker.resolveType perform names place

end

end ApexPaths.Walker
