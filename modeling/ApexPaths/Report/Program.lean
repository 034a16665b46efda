import ApexPaths.Program.Typing
import ApexPaths.Report.Basic

/-!
Reports of bindings, expression types and type hierarchies.
-/

namespace ApexPaths
set_option autoImplicit false

open Report

def StaticType.report : StaticType → Report
  | .known type => textList ["Known", type]
  | .null => textList ["Null"]
  | .unknown => textList ["Unknown"]

def Binding.report (binding : Binding) : Report :=
  let declared := match binding.declared with
    | .localVariable id => [Report.text "Local", nat id]
    | .parameter id => [.text "Parameter", nat id]
    | .field owner id isStatic => [.text "Field", nat id, nat owner, .flag isStatic]
    | .property owner id isStatic => [.text "Property", nat id, nat owner, .flag isStatic]
  .list [.text binding.type, .list declared]

namespace Program

variable (program : Program)

/-- The type, the bindings and the targets of an expression. -/
def expressionReport (expr : VertexId) : Report :=
  let graph := program.graph
  let label := graph.labelOf expr
  .record ([("v", .text (graph.describe expr)), ("type", (program.expressionType expr).report)]
    ++ (if label = .variableExpression then
        [("binding", opt (·.report) (program.expressionBinding? expr)), ("getter", optNat (program.getter? expr))]
      else [])
    ++ fieldIf (label = .assignmentExpression) "setter" (optNat (program.setter? expr))
    ++ fieldIf label.isInvocable "target" (optText ((program.target? expr).map graph.signature))
    ++ match program.staticReference? expr with
      | some type => [("static", .text (program.nameOf type))]
      | none => [])

/-- The place of a type in the hierarchy. -/
def hierarchyReport (type : VertexId) : Report :=
  .record [("type", .text (program.nameOf type)), ("supertypes", natList (program.supertypes type)),
    ("superclass", optNat (program.superclass? type)),
    ("ancestors", .list ((program.ancestors type).map fun entry => natList [entry.1, entry.2])),
    ("hierarchy", natList (program.hierarchy type)), ("outer", optNat (program.outer? type)),
    ("invoker", optNat (program.staticInvoker? type))]

end Program

end ApexPaths
