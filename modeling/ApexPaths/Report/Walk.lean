import ApexPaths.Report.Basic
import ApexPaths.Walk.Walker

/-!
Reports of values, of the heap and of static variables, of walks and of their traces.
-/

namespace ApexPaths
set_option autoImplicit false

open Report

/-! ## Values -/

def Literal.kindName : Literal → String
  | .null => "Null"
  | .boolean _ => "Boolean"
  | .integer _ => "Integer"
  | .long _ => "Long"
  | .decimal _ => "Decimal"
  | .text _ => "String"
  | .constant _ => "Enum"

/-- A value by its type, its origin and its content. -/
def Value.report (value : Value) : Report :=
  let content : List (String × Report) := match h : value.content with
    | .literal literal => [("lit", .text literal.kindName), ("text", .text literal.display)]
    | .reference ref => [("ref", nat ref)]
    | .loop values => [("loop", .list (values.attach.map fun ⟨item, hmem⟩ =>
        have := sizeOf_loopValue h hmem
        item.report))]
    | .schema token =>
      [("schema", .text token.kind.name), ("object", optText token.object), ("field", optText token.field)]
    | .unknown => [("unknown", .flag true)]
  .record ([("ty", .text value.type), ("origin", optNat value.origin)] ++ content)
termination_by sizeOf value

/-- What can be asked of a value; the step is of its token to another stage. -/
def Value.detailReport (value : Value) (stage : Option SchemaKind) : Report :=
  .record [("value", value.report), ("display", .text value.display), ("text", optText value.displayText?),
    ("determinate", .flag value.literal?.isSome), ("indeterminate", .flag value.isUnknown),
    ("null", .flag value.isNull),
    ("str", optText value.text?), ("bool", opt .flag value.bool?), ("i64", optText (value.int?.map toString)),
    ("f64", optText (value.double?.map Double.text)), ("ref", optText (value.ref?.map fun ref => "@" ++ toString ref)),
    ("loop", optNat (value.loopValues?.map (·.length))), ("resolved", opt .flag (value.token?.map (·.isResolved))),
    ("literal_type", optText (value.literal?.map (·.typeName))),
    ("step", opt Value.report (do return .ofToken ((← value.token?).step (← stage))))]

def Variable.report (var : Variable) : Report := .list [.text var.type, var.value.report]

def HeapObject.report (object : HeapObject) : Report :=
  let named (name : String) (parts : List (String × Report)) : Report :=
    .record ([("object", .text name), ("type", .text object.typeName)] ++ parts)
  let known {α : Type} (contents : Contents α) : List (String × Report) :=
    [("complete", .flag contents.complete), ("size", optNat contents.size?)]
  match object with
  | .record _ fields => named "Instance" [("fields", .record (fields.map fun field => (field.1, field.2.report)))]
  | .list _ contents => named "List" (known contents ++ [("items", .list (contents.items.map Value.report))])
  | .set _ contents => named "Set" (known contents ++ [("items", .list (contents.items.map Value.report))])
  | .map _ _ contents => named "Map" (known contents ++
      [("entries", .list (contents.items.map fun entry => .list [entry.1.report, entry.2.report]))])

def Heap.report (heap : Heap) : Report := .list (heap.objects.toList.map HeapObject.report)

/-- The state of a class and those of the named variables that it has. -/
def StaticScope.report (scope : StaticScope) (names : List String) : Report :=
  .list [.text scope.state.name, .record (names.filterMap fun name =>
    (scope.vars.get? name).map fun found => (Text.lower name, found.report))]

/-- The frame by its method, class, object and open blocks. -/
def Frame.report (frame : Frame) : Report :=
  .list [optNat frame.method, optText frame.owner, optNat frame.this, nat frame.depth]

def Symbols.stateReport (symbols : Symbols) : List (String × Report) :=
  [("depth", nat symbols.scopeDepth), ("frames", nat symbols.callDepth), ("heap", nat symbols.heap.size),
   ("classes", nat symbols.statics.length), ("this", optNat symbols.this?), ("method", optNat symbols.method?)]

/-! ## Walks -/

def Visitor.Hook.name : Visitor.Hook → String
  | .dml => "dml"
  | .condition => "condition"
  | .returned => "return"

def Event.report (graph : CodeGraph) (event : Event) : Report :=
  let value : Option Value → Report := opt Value.report
  let tagged (tag : String) (parts : List Report) : Report := .list (.text tag :: parts)
  let labelled (id : VertexId) : Report := .text (graph.labelOf id).name
  match event with
  | .entered method running this heapSize parameters =>
    tagged "enter" [.text (graph.signature method), optNat running, optNat this, nat heapSize,
    .list (parameters.map value)]
  | .reached hook id depth => tagged ((hook.map Visitor.Hook.name).getD "visit") [nat id, labelled id, nat depth]
  | .evaluated expr result => tagged "expr" [nat expr, labelled expr, result.report]
  | .passed id watched => tagged "after" [nat id, .record (watched.map fun entry => (entry.1, value entry.2))]
  | .exited method returned => tagged "exit" [nat method, value returned]

/-- The declared static variables of the declared types that were used, by the name of the class. -/
def StaticScopes.report (statics : StaticScopes) (graph : CodeGraph) : Report :=
  .record ((graph.ids.filter fun id => (graph.labelOf id).isTypeDeclaration).filterMap fun type =>
    (statics.get? (graph.qualifiedName type)).map fun scope =>
      (scope.owner, scope.report ((graph.fields type ++ graph.properties type).filterMap graph.name?)))

def WalkOutcome.report (outcome : WalkOutcome) (graph : CodeGraph) : Report :=
  .record [("returned", opt Value.report outcome.returned), ("visited", nat outcome.visited),
    ("heap", outcome.symbols.heap.report), ("statics", StaticScopes.report outcome.symbols.statics graph),
    ("classes", nat outcome.symbols.statics.length), ("call_depth", nat outcome.symbols.callDepth)]

end ApexPaths
