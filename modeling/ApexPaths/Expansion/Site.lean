import ApexPaths.Program.Typing

/-!
Sites: where a path hands control to another method. A call runs the method it resolves to, the use of
a property runs its accessor, and the first use of a class runs its static blocks.
-/

namespace ApexPaths
set_option autoImplicit false

inductive Site where
  /-- An expression runs a method. -/
  | call (expression method : VertexId)
  /-- A class is initialized by its invoker; without an expression that is the class of the path itself. -/
  | staticInit (expression : Option VertexId) (class_ : String) (invoker : VertexId)
  deriving DecidableEq, Repr

def Site.callee : Site → VertexId
  | .call _ method => method
  | .staticInit _ _ invoker => invoker

def Site.class? : Site → Option String
  | .call .. => none
  | .staticInit _ class_ _ => some class_

namespace Program

variable (program : Program)

/-- The initialization of a type, if it has static blocks. -/
def initSite? (expression : Option VertexId) (type : VertexId) : Option Site :=
  (program.staticInvoker? type).map (.staticInit expression (program.nameOf type))

/-- The initialization of the class of a method. -/
def entrySite? (method : VertexId) : Option Site :=
  (program.graph.enclosingType? method).bind (program.initSite? none)

/-- The left side of a plain assignment is not read. -/
def isWrittenOnly (expr : VertexId) : Bool :=
  match program.graph.parent? expr with
  | some parent =>
    program.graph.is parent .assignmentExpression && program.graph.text? parent (.fact .operator) == some "="
      && program.graph.childIndex expr == 0
  | none => false

/-- The method that evaluating an expression runs. -/
def runMethod? (expr : VertexId) : Option VertexId :=
  let label := program.graph.labelOf expr
  if label.isInvocable then program.target? expr
  else if label = .variableExpression ∧ !program.isWrittenOnly expr then program.getter? expr
  else if label = .assignmentExpression then program.setter? expr
  else none

/-- The sites with those of one more expression: the initialization of a class that is not yet among
them, then the call. -/
def withSitesOf (sites : List Site) (expr : VertexId) : List Site :=
  let init? := (program.staticReference? expr).bind (program.initSite? (some expr))
  let isNew (site : Site) : Bool :=
    !sites.any fun other => match other.class?, site.class? with
      | some a, some b => Text.eqIgnoringCase a b
      | _, _ => false
  sites ++ (init?.filter isNew).toList ++ ((program.runMethod? expr).map (.call expr)).toList

/-- The sites of a vertex in the order of evaluation. -/
def sitesAt (vertex : VertexId) : List Site :=
  (program.graph.evaluatedExpressions vertex).foldl program.withSitesOf []

end Program

/-- The sites of every vertex, each found when it is first asked for. -/
structure SiteTable where
  entries : Array (Thunk (List Site))

namespace SiteTable

def ofProgram (program : Program) : SiteTable where
  entries := (Array.range program.graph.vertexCount).map fun vertex => Thunk.mk fun _ => program.sitesAt vertex

def sites (table : SiteTable) (vertex : VertexId) : List Site :=
  match table.entries[vertex]? with
  | some entry => entry.get
  | none => []

theorem sites_ofProgram {program : Program} {vertex : VertexId} (h : vertex < program.graph.vertexCount) :
    (ofProgram program).sites vertex = program.sitesAt vertex := by
  simp [ofProgram, sites, h, Thunk.get]

end SiteTable

end ApexPaths
