import ApexPaths.Path.Basic
import ApexPaths.Report.Basic

/-!
Reports of paths and their metadata.
-/

namespace ApexPaths
set_option autoImplicit false

open Report

def PathMetadata.report (metadata : PathMetadata) : Report :=
  .record [("constraints", .list (metadata.constraints.map fun c =>
      .list [nat c.scope, .text c.variableName, .text c.kind.name, nat c.origin])),
    ("tracked", natList metadata.tracked), ("collapsed_by", textList metadata.collapsedBy)]

/-- A path with what is attached to it and its metadata, each shown only if there is any. -/
def CodePath.report (path : CodePath) : Report :=
  let invocations := path.invocations.attach.map fun ⟨entry, h⟩ =>
    have := CodePath.sizeOf_invocation h
    Report.list [nat entry.1, entry.2.report]
  let staticInits := path.staticInits.attach.map fun ⟨entry, h⟩ =>
    have := CodePath.sizeOf_staticInit h
    Report.list [.text entry.1, optNat entry.2.1, entry.2.2.report]
  .record ([("method", nat path.method),
      ("vertices", .list (path.vertices.map fun v => .list [nat v.id, opt (fun k => .text k.name) v.exit]))]
    ++ fieldIf (!invocations.isEmpty) "invocations" (.list invocations)
    ++ fieldIf (!staticInits.isEmpty) "static_initializers" (.list staticInits)
    ++ fieldIf (path.metadata != {}) "metadata" path.metadata.report)
termination_by sizeOf path

/-- A path with its expansion and how it ends. -/
def CodePath.rootReport (path : CodePath) (graph : CodeGraph) : Report :=
  let ends := if path.endsWith graph .returnStatement then "return"
    else if path.endsWith graph .throwStatement then "throw"
    else "other"
  path.report.extend [("expanded", natList path.expandedVertices), ("depth", nat path.depth), ("ends", .text ends)]

end ApexPaths
