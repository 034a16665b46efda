import ApexPaths.Walk.Names

/-!
Places that an assignment writes. A place that is not known takes any value and gives none.
-/

namespace ApexPaths
set_option autoImplicit false

open WalkM

/-- Where an assigned value is stored. -/
inductive Place where
  | variable (name : String)
  | field (object : HeapRef) (name : String)
  | static (owner name : String)
  /-- An element of a collection by its index or key. -/
  | element (container index : Value)
  | unknown

namespace Place

variable {σ : Type}

/-- The element of a collection at an index or a key. -/
def elementOf? (container index : Value) : WalkM σ (Option Value) := callLibrary? (.value container) "get" [index]

def read? : Place → WalkM σ (Option Value)
  | .variable name => return ((← symbols).frame?.bind (·.lookup? name)).map (·.value)
  | .field object name => return (← heap).field? object name
  | .static owner name => return (← symbols).staticValue? owner name
  | .element container index => elementOf? container index
  | .unknown => return none

/-- Store a value at a place; an undeclared variable stays so. -/
def write (value : Value) : Place → WalkM σ Unit
  | .variable name => modifySymbols (·.mapFrame fun frame => (frame.assign? name value).getD frame)
  | .field object name => onHeap fun heap => ((), heap.setField object name value)
  | .static owner name => modifyStatics (·.write owner name value)
  | .element container index =>
    discard (callLibrary? (.value container) (if TypeName.base container.type = "Map" then "put" else "set")
    [index, value])
  | .unknown => return

end Place

namespace Walker

variable {σ : Type} (walker : Walker σ) (perform : Perform σ)

def variablePlace (name : String) (target : VertexId) : WalkM σ Place := do
  let frame ← frame
  let all ← symbols
  if (frame.lookup? name).isSome then return .variable name
  match frame.this.filter fun this => (all.heap.field? this name).isSome with
  | some this => return .field this name
  | none =>
    match frame.owner.filter fun owner => (all.statics.lookup? owner name).isSome with
    | some owner => return .static owner name
    | none =>
      match (walker.program.variableBinding? name target).map Binding.declared with
      | some (.field owner _ true) | some (.property owner _ true) =>
        walker.ensureInitialized perform owner
        return .static (walker.program.nameOf owner) name
      | some (.field ..) | some (.property ..) => return frame.this.elim .unknown (.field · name)
      | some (.localVariable _) | some (.parameter _) => return .variable name
      | none => return .unknown

/-- The owner of a member of a type; the type itself if nothing declares the member. -/
def memberOwner (type : VertexId) (name : String) : VertexId :=
  match (walker.program.memberBinding? type name).map Binding.declared with
  | some (.field owner ..) | some (.property owner ..) => owner
  | _ => type

/-- The place of a static member of a type. -/
def staticPlace (type : VertexId) (name : String) : WalkM σ Place := do
  let owner := walker.memberOwner type name
  walker.ensureInitialized perform owner
  return .static (walker.program.nameOf owner) name

def fieldPlace (holder : Option HeapRef) (name : String) : Place := holder.elim .unknown (.field · name)

def placeOf (sites : Option CodePath) (target : VertexId) : WalkM σ Place := do
  let graph := walker.graph
  let name := (graph.name? target).getD ""
  match graph.labelOf target with
  | .variableExpression =>
    match graph.qualifier? target with
    | none => walker.variablePlace perform name target
    | some qualifier =>
      match graph.labelOf qualifier with
      | .emptyReferenceExpression => walker.variablePlace perform name target
      | .thisVariableExpression | .superVariableExpression => return fieldPlace (← this?) name
      | .referenceExpression =>
        match ← walker.resolveNames perform (graph.qualifierNames target) target with
        | .value holder => return fieldPlace holder.ref? name
        | .type type => walker.staticPlace perform type name
        | .unknown => return .unknown
      | _ => return fieldPlace (← perform (.eval sites qualifier)).ref? name
  | .arrayLoadExpression =>
    match graph.childAt? target 0, graph.childAt? target 1 with
    | some container, some index => return .element (← perform (.eval sites container)) (← perform (.eval sites index))
    | _, _ => return .unknown
  | _ => return .unknown

end Walker

end ApexPaths
