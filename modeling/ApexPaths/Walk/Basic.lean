import ApexPaths.Error
import ApexPaths.Library.Basic
import ApexPaths.Path.Basic
import ApexPaths.Program.Typing
import ApexPaths.Walk.Visitor

/-!
The state of a walk along one expanded path. The evaluation of an expression and the walk of an attached
path call each other; both are tasks, and everything else takes a function that performs tasks.
-/

namespace ApexPaths
set_option autoImplicit false

/-- What a walk reads. -/
structure Walker (σ : Type) where
  program : Program
  visitor : Visitor σ
  /-- Most values that the counter of a loop may take. -/
  maxLoopValues : Nat

/-- What a walk keeps, also when it fails. -/
structure WalkState (σ : Type) where
  symbols : Symbols := {}
  /-- The collection of each loop over a collection that was reached. -/
  iterables : List (VertexId × Value) := []
  /-- The subject of each switch that was reached. -/
  subjects : List (VertexId × Value) := []
  /-- The vertices visited so far, those of attached paths included. -/
  visited : Nat := 0
  /-- The state of the visitor. -/
  observed : σ

abbrev WalkM (σ : Type) := ExceptT EngineError (StateM (WalkState σ))

/-- Work that a walk may nest to any depth. -/
inductive Task where
  /-- Evaluate an expression; the attached paths of `sites` may run. -/
  | eval (sites : Option CodePath) (expr : VertexId)
  /-- Walk an attached path of a method on an object with arguments. -/
  | invoke (path : CodePath) (this : Option HeapRef) (args : List Value)

abbrev Perform (σ : Type) := Task → WalkM σ Value

namespace WalkM

variable {σ : Type}

def symbols : WalkM σ Symbols := return (← get).symbols

def modifySymbols (f : Symbols → Symbols) : WalkM σ Unit :=
  modify fun state => { state with symbols := f state.symbols }

def heap : WalkM σ Heap := return (← symbols).heap

def onHeap {α : Type} (f : Heap → α × Heap) : WalkM σ α := do
  let (result, heap) := f (← heap)
  modifySymbols fun symbols => { symbols with heap }
  return result

def modifyStatics (f : StaticScopes → StaticScopes) : WalkM σ Unit :=
  modifySymbols fun symbols => { symbols with statics := f symbols.statics }

def notify (f : σ → σ) : WalkM σ Unit := modify fun state => { state with observed := f state.observed }

/-! ## The running method -/

def frame : WalkM σ Frame := do
  match (← symbols).frame? with
  | some frame => return frame
  | none => throw (.internal .walkWithoutFrame)

def modifyFrame (f : Frame → Frame) : WalkM σ Unit := do
  let _ ← frame
  modifySymbols (·.mapFrame f)

def pushFrame (frame : Frame) : WalkM σ Unit := modifySymbols (·.pushFrame frame)

def popFrame : WalkM σ Frame := do
  match (← symbols).popFrame with
  | (some frame, rest) =>
    modifySymbols fun _ => rest
    return frame
  | (none, _) => throw (.internal .frameUnderflow)

def this? : WalkM σ (Option HeapRef) := return (← frame).this

/-- Declare a variable in the innermost block. -/
def declare (name type : String) (value : Value) : WalkM σ Unit := modifyFrame (·.declare name type value)

/-! ## The library -/

/-- Call a method of the library; a call that is not modelled changes nothing. -/
def callLibrary? (target : CallTarget) (method : String) (args : List Value) : WalkM σ (Option Value) :=
  onHeap fun heap =>
    match Library.invoke (.make target method args) heap with
    | some (value, heap) => (some value, heap)
    | none => (none, heap)

end WalkM

namespace Walker

variable {σ : Type} (walker : Walker σ)

def graph : CodeGraph := walker.program.graph

/-- The static type of an expression; `Object` if it is not known. -/
def staticType (expr : VertexId) : String := (walker.program.expressionType expr).known?.getD "Object"

/-- An unknown value of the static type of an expression. -/
def unknown (expr : VertexId) : Value := .unknown (walker.staticType expr)

/-- The path that is attached to an expression. -/
def attached? (sites : Option CodePath) (expr : VertexId) : Option CodePath := sites.bind (·.invokedPath? expr)

end Walker

end ApexPaths
