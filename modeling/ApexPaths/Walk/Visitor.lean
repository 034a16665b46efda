import ApexPaths.Graph.View
import ApexPaths.Memory.Scope

/-!
Observers of a walk. A visitor is told of every vertex before and after it is evaluated, of every
evaluated expression, and of the methods that are entered and left. It keeps a state of its own and may
refuse the evaluation of a vertex; it changes nothing else. A trace is what a visitor records of what it
is told.
-/

namespace ApexPaths
set_option autoImplicit false

/-- Callbacks of a walk over a state of their own. -/
structure Visitor (σ : Type) where
  /-- Before a vertex is evaluated; without consent its expressions and the paths attached to it are skipped. -/
  visit : VertexId → Symbols → σ → Bool × σ := fun _ _ state => (true, state)
  /-- After a vertex, before the scopes that it ends are closed. -/
  afterVisit : VertexId → Symbols → σ → σ := fun _ _ state => state
  /-- After an expression, operands first. -/
  onExpression : VertexId → Value → σ → σ := fun _ _ state => state
  /-- A method starts; its parameters are bound. -/
  enterMethod : VertexId → Symbols → σ → σ := fun _ _ state => state
  exitMethod : VertexId → Option Value → σ → σ := fun _ _ state => state

namespace Visitor

def silent : Visitor Unit := {}

/-- The vertices with a hook of their own. -/
inductive Hook where
  | dml
  | condition
  | returned
  deriving DecidableEq, Repr

def Hook.ofLabel? (label : NodeKind) : Option Hook :=
  if label.isDml then some .dml
  else
    match label with
    | .standardCondition => some .condition
    | .returnStatement => some .returned
    | _ => none

/-- The consent to a vertex by the hook of its label; a vertex without a hook is always evaluated. -/
def byHook {σ : Type} (graph : CodeGraph) (hook : Hook → VertexId → Symbols → σ → Bool × σ) :
    VertexId → Symbols → σ → Bool × σ := fun id symbols state =>
  match Hook.ofLabel? (graph.labelOf id) with
  | some which => hook which id symbols state
  | none => (true, state)

end Visitor

/-! ## Traces -/

/-- Something that a visitor was told. -/
inductive Event where
  /-- A method was entered on an object, with a heap of a size and with these parameters. -/
  | entered (method : VertexId) (running : Option VertexId) (this : Option HeapRef) (heapSize : Nat)
      (parameters : List (Option Value))
  /-- A vertex was reached with so many blocks open; with hooks, the hook that was run. -/
  | reached (hook : Option Visitor.Hook) (id : VertexId) (depth : Nat)
  | evaluated (expr : VertexId) (value : Value)
  /-- A vertex was passed; the watched variables have these values. -/
  | passed (id : VertexId) (watched : List (String × Option Value))
  | exited (method : VertexId) (returned : Option Value)
  deriving Inhabited

/-- What is recorded. -/
structure TraceOptions where
  /-- Names whose values are recorded after each vertex. -/
  watched : List String := []
  /-- Static variables whose values are recorded after each vertex, by class and name. -/
  watchedStatics : List (String × String) := []
  /-- The vertices that are not evaluated, by their labels. -/
  pruned : List NodeKind := []
  /-- Neither vertices nor expressions are recorded. -/
  brief : Bool := false

namespace TraceOptions

variable (options : TraceOptions) (graph : CodeGraph)

def watchedValues (symbols : Symbols) : List (String × Option Value) :=
  options.watched.map (fun name => (name, symbols.lookup? name)) ++
    options.watchedStatics.map fun (owner, name) => (owner ++ "::" ++ name, symbols.staticValue? owner name)

def reach (hook : Option Visitor.Hook) (id : VertexId) (symbols : Symbols) (events : Array Event) :
    Bool × Array Event :=
  (!options.pruned.contains (graph.labelOf id),
    if options.brief then events else events.push (.reached hook id symbols.scopeDepth))

/-- Record what is watched after a vertex. -/
def pass (id : VertexId) (symbols : Symbols) (events : Array Event) : Array Event :=
  let values := options.watchedValues symbols
  if values.isEmpty then events else events.push (.passed id values)

def recorder : Visitor (Array Event) where
  visit := options.reach graph none
  afterVisit := options.pass
  onExpression expr value events := if options.brief then events else events.push (.evaluated expr value)
  enterMethod method symbols events := events.push (.entered method symbols.method? symbols.this? symbols.heap.size
    ((graph.parameters method).map fun parameter => symbols.lookup? parameter.name))
  exitMethod method returned events := events.push (.exited method returned)

/-- A visitor that records the vertices with hooks, what is watched, and the methods that are left. -/
def hookRecorder : Visitor (Array Event) where
  visit := Visitor.byHook graph fun hook => options.reach graph (some hook)
  afterVisit := options.pass
  exitMethod method returned events := events.push (.exited method returned)

end TraceOptions

end ApexPaths
