import ApexPaths.Graph.Basic
import ApexPaths.Source.Fault

/-!
Failures of an analysis. A misuse in the source is for its author to mend; a broken invariant is a
defect of the graph at hand; the expansion limit is neither.
-/

namespace ApexPaths
set_option autoImplicit false

/-- A part that a statement lacks. -/
inductive Malformation where
  | ifWithoutBranches
  | ifWithoutElse
  | whileWithoutCondition
  | loopWithoutBody
  | switchWithoutSubject
  | whenWithoutBlock
  | expectedChild (label : NodeKind) (index : Nat)
  deriving DecidableEq, Repr

/-- A broken invariant. -/
inductive Defect where
  | selfSupertype (name : String)
  | cyclicExtension (name : String)
  | flowOfNonMethod (id : VertexId)
  | missingVertex (id : VertexId)
  | malformed (what : Malformation) (id : VertexId)
  | enumerationOfNonMethod (id : VertexId)
  | outsideMethod (id : VertexId)
  | methodWithoutBody (id : VertexId)
  | unbalancedScopes (owner name : String) (id : VertexId) (depth : Int)
  | stackUnderflow
  | nothingWaiting
  | cursorPastEnd
  | walkWithoutFrame
  | frameUnderflow
  /-- The nesting went past its bound. Without cycles in the graph, only a walk that creates objects without
  end does that. -/
  | exhausted
  deriving DecidableEq, Repr

inductive EngineError where
  | unreachable (owner method unit : String) (line column : Nat)
  | strayJump (word unit : String) (line column : Nat)
  | parse (error : Source.ParseError)
  | expansionLimit (limit : Nat)
  | internal (defect : Defect)
  deriving DecidableEq, Repr

def Malformation.message : Malformation → String
  | .ifWithoutBranches => "if statement without branches"
  | .ifWithoutElse => "if statement without else block"
  | .whileWithoutCondition => "while loop without condition"
  | .loopWithoutBody => "loop without body"
  | .switchWithoutSubject => "switch without discriminant"
  | .whenWithoutBlock => "when clause without block"
  | .expectedChild label index => "expected " ++ label.name ++ " at child " ++ toString index

def Defect.message : Defect → String
  | .selfSupertype name => "type " ++ name ++ " lists itself as a supertype"
  | .cyclicExtension name => "cyclic extension chain through " ++ name
  | .flowOfNonMethod id => "CFG synthesis requested for non-method vertex " ++ id.display
  | .missingVertex id => "missing vertex " ++ id.display
  | .malformed what id => what.message ++ " at " ++ id.display
  | .enumerationOfNonMethod id => "forward enumeration requested for non-method vertex " ++ id.display
  | .outsideMethod id => "vertex " ++ id.display ++ " is outside any method"
  | .methodWithoutBody id => "method " ++ id.display ++ " has no body"
  | .unbalancedScopes owner name id depth =>
    "unbalanced scopes in " ++ owner ++ "." ++ name ++ " at " ++ id.display ++ " (depth " ++ toString depth ++ ")"
  | .stackUnderflow => "expansion stack underflow"
  | .nothingWaiting => "child frame finished without a waiting parent"
  | .cursorPastEnd => "expansion cursor past the end of its path"
  | .walkWithoutFrame => "path walk without a method frame"
  | .frameUnderflow => "method frame stack underflow"
  | .exhausted => "analysis is nested too deeply"

namespace EngineError

/-- A message with the place of the fault after it. -/
def located (text unit : String) (line column : Nat) : String :=
  text ++ " (" ++ unit ++ ":" ++ toString line ++ ":" ++ toString column ++ ")"

def message : EngineError → String
  | .unreachable owner method unit line column =>
    located ("Unreachable statement in method " ++ owner ++ "." ++ method ++ " at line " ++ toString line) unit
    line column
  | .strayJump word unit line column => located ("'" ++ word ++ "' outside of a loop") unit line column
  | .parse error => error.message
  | .expansionLimit limit =>
    "Path expansion limit reached: more than " ++ toString limit ++ " expanded paths"
  | .internal defect => "Internal error: " ++ defect.message

/-- Whether the author of the source can mend the failure. -/
def isUserActionable : EngineError → Bool
  | .unreachable .. | .strayJump .. | .parse _ => true
  | _ => false

end EngineError

end ApexPaths
