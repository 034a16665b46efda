import ApexPaths.Build.Basic
import ApexPaths.Graph.Query
import ApexPaths.Graph.View
import ApexPaths.Report.Basic

/-!
Reports of properties, tokens and source trees, of vertices, control flow and build results.
-/

namespace ApexPaths
set_option autoImplicit false

open Report

/-! ## Sources -/

def PropertyValue.report : PropertyValue → Report
  | .text value => .text value
  | .int value => .int value
  | .flag value => .flag value
  | .texts values => Report.textList values

def PropertyMap.report (props : PropertyMap) : Report :=
  .record (props.map fun (key, value) => (key.label, value.report))

def Span.report (span : Span) : Report :=
  natList [span.startLine, span.startColumn, span.endLine, span.endColumn]

namespace Source

/-- The kind of a token and what it holds. -/
def TokenKind.report : TokenKind → String × Report
  | .identifier name => ("Identifier", .text name)
  | .text value => ("String", .text value)
  | .integer value => ("Integer", .int value)
  | .long value => ("Long", .int value)
  | .decimal digits => ("Decimal", .text digits)
  | .query body => ("Soql", .text body)
  | .decorator name => ("Annotation", .text name)
  | .punct mark => ("Punct", .text mark)
  | .eof => ("Eof", .null)

def Token.report (token : Token) : Report :=
  let (kind, held) := token.kind.report
  .list [.text kind, held, nat token.line, nat token.column, nat token.endLine, nat token.endColumn]

/-- A tree with its properties and children, each shown only if there are any. -/
def Tree.report (tree : Tree) : Report :=
  .record ([("kind", .text tree.kind.name), ("span", tree.span.report)]
    ++ fieldIf (!tree.props.isEmpty) "props" (PropertyMap.report tree.props)
    ++ fieldIf (!tree.children.isEmpty) "children" (.list (tree.children.attach.map fun ⟨child, _⟩ => child.report)))
termination_by tree
decreasing_by
  cases tree
  simp_all
  have := List.sizeOf_lt_of_mem ‹_›
  omega

def Tree.Event.report : Tree.Event → Report
  | .enter kind => .text ("+" ++ kind.name)
  | .exit kind => .text ("-" ++ kind.name)

end Source

/-! ## Graphs -/

namespace CodeGraph

variable (graph : CodeGraph)

/-- The listed vertices: those from sources, or all. -/
def listed (standard : Bool) : List VertexId :=
  graph.ids.filter fun id => standard || !graph.flag id (.fact .isStandard)

/-- A vertex with everything that is stored of it. -/
def vertexReport (id : VertexId) : Report :=
  match graph.vertex? id with
  | some vertex => .record [("id", nat id), ("label", .text vertex.label.name), ("span", vertex.span.report),
      ("props", PropertyMap.report vertex.props), ("parent", optNat (graph.parent? id)),
      ("children", natList (graph.children id))]
  | none => .null

/-- The control flow of the vertices that have any. -/
def flowReport (ids : List VertexId) : Report :=
  let ends (edges : List (VertexId × FlowKind)) : Report :=
    .list (edges.map fun edge => .list [nat edge.1, .text edge.2.name])
  .list (ids.filterMap fun id =>
    if graph.hasFlowEdges id || !(graph.endScopes id).isEmpty then
      some (.record [("id", nat id), ("label", .text (graph.labelOf id).name), ("line", nat (graph.beginLine id)),
        ("out", ends (graph.flowSuccessors id)), ("in", ends (graph.flowPredecessors id)),
        ("end", textList ((graph.endScopes id).map NodeKind.name))])
    else none)

def typeReport (id : VertexId) : Report :=
  let links := [EdgeLabel.extensionOf, .extendedBy, .implementationOf, .implementedBy].flatMap fun label =>
    let targets := graph.outNeighbors id label
    if targets.isEmpty then []
    else [(label.name, natList targets),
      (label.name ++ ".reverse", natList ((label.reverse?.map (graph.inNeighbors id)).getD []))]
  let name := (graph.definingType? id).getD ""
  .record [("id", nat id), ("type", .text name), ("links", .record links),
    ("members", nat (graph.withDefiningType name).length),
    ("unresolved", textList (graph.texts id (.fact .unresolvedSupertypes)))]

def partsReport (id : VertexId) : List (String × Report) :=
  let called (name : String) (parts : List (String × Report)) := ("as", Report.text name) :: parts
  match (graph.labelOf id).class with
  | .typeDeclaration => called "TypeDecl" [("qualified", .text (graph.qualifiedName id)),
      ("super", optText (graph.text? id (.spelled .superClassName))),
      ("interfaces", textList (graph.texts id (.spelled .interfaceNames))),
      ("outer", optText (graph.text? id (.spelled .outerType))), ("is_interface", .flag (graph.is id .userInterface)),
      ("methods", natList (graph.methods id)), ("fields", natList (graph.fields id)),
      ("properties", natList (graph.properties id)),
      ("inner", natList (graph.innerTypes id)), ("name", optText (graph.name? id))]
  | .method => called "Method" [("signature", .text (graph.signature id)), ("return", .text (graph.returnType id)),
      ("arity", nat (graph.declaredArity id)),
      ("parameters", .list ((graph.parameters id).map fun p => textList [p.name, p.type])),
      ("body", optNat (graph.body? id)),
      ("static", .flag (graph.isStatic id)), ("constructor", .flag (graph.isConstructor id)),
      ("abstract", .flag (graph.flag id (.fact .isAbstract))),
      ("synthetic", .flag (graph.flag id (.fact .isSynthetic))),
      ("synthetic_kind", optText (graph.text? id (.fact .syntheticKind))),
      ("property", optText (graph.text? id (.fact .propertyName))),
      ("invoker", .flag (graph.isStaticBlockInvoker id)), ("name", optText (graph.name? id)),
      ("declared", .text (graph.returnType id))]
  | .block =>
    called "Block" [("statements", natList (graph.children id)),
    ("implicit", .flag (graph.flag id (.fact .isImplicit)))]
  | .ifElse => called "IfElse" [("branches", .list ((graph.branches id).map fun b => natList [b.1, b.2])),
      ("else", optNat (graph.lastBlock? id))]
  | .condition => called "Condition" [("expression", optNat (graph.childAt? id 0))]
  | .loop => called "Loop" [("kind", .text (graph.labelOf id).name), ("condition", optNat (graph.loopCondition? id)),
      ("body", optNat (graph.loopBody? id)), ("init", optNat (graph.loopInit? id)),
      ("update", optNat (graph.loopUpdate? id)),
      ("variable", optNat (graph.loopVariable? id)), ("iterable", optNat (graph.iterable? id))]
  | .switch =>
    called "Switch" [("discriminant", optNat (graph.childAt? id 0)), ("whens", natList (graph.whenBlocks id))]
  | .when => called "When" [("block", optNat (graph.lastBlock? id)), ("cases", natList (graph.whenCases id))]
  | .tryCatch => called "TryCatch" [("try", optNat (graph.childAt? id 0)),
      ("catches", natList (graph.childrenWithLabel id .catchBlockStatement)),
      ("finally", optNat (graph.finallyBlock? id))]
  | .variableDeclaration => called "VariableDeclaration" [("name", optText (graph.name? id)),
      ("declared", optText (graph.declaredType? id)), ("initializer", optNat (graph.childAt? id 0))]
  | .invocation =>
    called "Invocation" [("receiver", optNat (graph.receiver? id)), ("names", textList (graph.receiverNames id)),
    ("full", optText (graph.text? id (.spelled .fullMethodName))), ("created", optText (graph.createdType? id)),
      ("method", optText (graph.calledName? id)), ("arguments", natList (graph.arguments id)),
      ("arity", nat (graph.arguments id).length)]
  | .variable => called "Variable" [("name", optText (graph.name? id)), ("qualifier", optNat (graph.qualifier? id)),
      ("names", textList (graph.qualifierNames id)), ("unqualified", .flag (graph.isUnqualified id))]
  | .literal => called "Literal" [("type", .text (graph.literalTag id)), ("text", .text (graph.literalText id)),
      ("declared", optText (graph.literalType? id))]
  | .statement => called "Statement" []
  | .expression => called "Expression" []
  | .other => called "Other" []

/-- The place of a vertex in the tree and what it evaluates. -/
def placeReport (id : VertexId) : List (String × Report) :=
  [("v", .text (graph.describe id)), ("parent", optNat (graph.parent? id)),
   ("index", nat (asWord (graph.childIndex id))), ("siblings", natList (graph.siblings id)),
   ("method", optNat (graph.enclosingMethod? id)), ("type", optNat (graph.enclosingType? id)),
   ("evaluates", natList (graph.evaluatedExpressions id))]

/-- The parts and the place of a vertex; the place wins where the names are the same. -/
def handleReport (id : VertexId) : Report :=
  let place := graph.placeReport id
  .record ((graph.partsReport id).filter (fun part => !place.any (·.1 == part.1)) ++ place)

end CodeGraph

def Build.Stats.report (stats : Build.Stats) : Report :=
  .record [("units", nat stats.units), ("vertices", nat stats.vertices), ("edges", nat stats.edges),
    ("inheritance_edges", nat stats.inheritanceEdges), ("unresolved_supertypes", nat stats.unresolvedSupertypes)]

end ApexPaths
