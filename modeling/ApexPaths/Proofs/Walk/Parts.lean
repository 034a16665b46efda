import ApexPaths.Proofs.Walk.Law

/-!
The parts that an expression evaluates before it is evaluated itself. What is assigned or stepped is a place:
only the parts that say where it is are evaluated. The right side of `&&` or `||` and the outcomes of a choice may
be left out. What a law foretells of the parts, it foretells of the expression, with the path that is attached to it.
-/

namespace ApexPaths
set_option autoImplicit false

open WalkM List

variable {σ β : Type}

/-! ## Parts -/

namespace NodeKind

/-- References by dotted names, and the running object: they are looked up, not evaluated. -/
def isPlainReference : NodeKind → Bool
  | .emptyReferenceExpression | .thisVariableExpression | .superVariableExpression | .referenceExpression => true
  | _ => false

theorem isPlainReference_eq_false {kind : NodeKind} (hempty : kind ≠ .emptyReferenceExpression)
    (hthis : kind ≠ .thisVariableExpression) (hsuper : kind ≠ .superVariableExpression)
    (hnames : kind ≠ .referenceExpression) : kind.isPlainReference = false := by
  cases kind <;> first | rfl | contradiction

end NodeKind

namespace Walker

variable (walker : Walker σ)

/-- The two operands of an expression, if it has two. -/
def operandParts (expr : VertexId) : List VertexId :=
  (walker.operands? expr).elim [] fun operands => [operands.1, operands.2]

/-- The qualifier of a variable where it is evaluated. -/
def qualifierParts (expr : VertexId) : List VertexId :=
  ((walker.graph.qualifier? expr).filter fun qualifier => !(walker.graph.labelOf qualifier).isPlainReference).toList

/-- The receiver of a call, if it is computed. -/
def receiverParts (call : VertexId) : List VertexId :=
  ((walker.graph.receiver? call).filter fun receiver => !(walker.graph.labelOf receiver).isPlainReference).toList

/-- What is evaluated to find the place of an assignment. -/
def placeParts (target : VertexId) : List VertexId :=
  match walker.graph.labelOf target with
  | .variableExpression => walker.qualifierParts target
  | .arrayLoadExpression => walker.operandParts target
  | _ => []

/-- The operator `++` or `--`, which writes its operand. -/
def isStep (expr : VertexId) : Bool := walker.operatorOf expr "" == "++" || walker.operatorOf expr "" == "--"

/-- The operation may leave its right operand unevaluated. -/
def isShortCircuit (expr : VertexId) : Bool :=
  walker.operatorOf expr "==" == "&&" || walker.operatorOf expr "==" == "||"

def createdSpelling (expr : VertexId) : String := (walker.graph.text? expr (.spelled .type)).getD "Object"

/-- The value of an argument that names a field. -/
def fieldPart (arg : VertexId) : VertexId := ((walker.fieldArgument? arg).map Prod.snd).getD arg

/-- What is evaluated to create an object. -/
def creationParts (expr : VertexId) : List VertexId :=
  let spelled := walker.createdSpelling expr
  let type := TypeName.canonical spelled
  let args := walker.graph.arguments expr
  if isArray spelled then []
  else if TypeName.isCollection type ||
  (walker.program.lookup? (walker.graph.enclosingType? expr) type).isSome then args
  else args.map walker.fieldPart

/-- The entries of a map that are written out in full. -/
def writtenEntries (expr : VertexId) : List (VertexId × VertexId) :=
  (walker.graph.childrenWithLabel expr .mapEntryNode).filterMap fun entry => do
    return (← walker.graph.childAt? entry 0, ← walker.graph.childAt? entry 1)

/-- The condition and the two outcomes of a ternary expression. -/
def choice? (expr : VertexId) : Option (VertexId × List VertexId) := do
  let (condition, yes) ← walker.operands? expr
  return (condition, [yes, ← walker.graph.childAt? expr 2])

/-- The parts that are evaluated, in order: those that may be, or only those that surely are. -/
def parts (all : Bool) (expr : VertexId) : List VertexId :=
  match walker.graph.labelOf expr with
  | .variableExpression => walker.qualifierParts expr
  | .methodCallExpression | .thisMethodCallExpression | .superMethodCallExpression =>
    walker.receiverParts expr ++ walker.graph.arguments expr
  | .newObjectExpression => walker.creationParts expr
  | .newListLiteralExpression | .newSetLiteralExpression => walker.graph.children expr
  | .newMapLiteralExpression => (walker.writtenEntries expr).flatMap fun entry => [entry.1, entry.2]
  | .binaryExpression | .arrayLoadExpression => walker.operandParts expr
  | .booleanExpression =>
    if walker.isShortCircuit expr && !all then (walker.operandParts expr).take 1 else walker.operandParts expr
  | .prefixExpression | .postfixExpression =>
    (walker.graph.childAt? expr 0).elim [] fun operand => if walker.isStep expr then walker.placeParts operand
    else [operand]
  | .assignmentExpression =>
    (walker.operands? expr).elim [] fun operands => walker.placeParts operands.1 ++ [operands.2]
  | .ternaryExpression => (walker.choice? expr).elim [] fun choice => choice.1 :: if all then choice.2 else []
  | .castExpression | .instanceOfExpression => (walker.graph.childAt? expr 0).toList
  | _ => []

/-- The expressions that are evaluated directly when a path reaches a vertex. -/
def vertexParts (v : VertexId) : List VertexId :=
  let graph := walker.graph
  match graph.labelOf v with
  | .variableDeclarationStatements =>
    if ((graph.parent? v).filter (graph.is · .forEachStatement)).isSome then []
    else (graph.childrenWithLabel v .variableDeclaration).filterMap (graph.childAt? · 0)
  | .expressionStatement => if walker.isUpdate v then [] else (graph.childAt? v 0).toList
  | .returnStatement | .standardCondition => (graph.childAt? v 0).toList
  | .forEachStatement => (graph.iterable? v).toList
  | .typeWhenBlock | .catchBlockStatement => []
  | label =>
    if label.isDml || label == .throwStatement then (graph.children v).filter fun child =>
      (graph.labelOf child).isExpression
    else if label.isExpression then [v] else []

end Walker

/-! ## Visitors that record -/

/-- A visitor that records that it was asked about a vertex, and nothing else. -/
structure Visitor.Records (visitor : Visitor (Recorded σ)) : Prop where
  visit : ∀ v symbols recorded, (visitor.visit v symbols recorded).2.depth = recorded.depth ∧
    (visitor.visit v symbols recorded).2.log = recorded.log ++ [.visited v]
  afterVisit : ∀ v symbols recorded, (visitor.afterVisit v symbols recorded).depth = recorded.depth ∧
    (visitor.afterVisit v symbols recorded).log = recorded.log
  onExpression : ∀ expr value recorded, (visitor.onExpression expr value recorded).depth = recorded.depth ∧
    (visitor.onExpression expr value recorded).log = recorded.log
  enterMethod : ∀ method symbols recorded, (visitor.enterMethod method symbols recorded).depth = recorded.depth ∧
    (visitor.enterMethod method symbols recorded).log = recorded.log
  exitMethod : ∀ method returned recorded, (visitor.exitMethod method returned recorded).depth = recorded.depth ∧
    (visitor.exitMethod method returned recorded).log = recorded.log

theorem Visitor.records_recording (visitor : Visitor σ) : visitor.recording.Records where
  visit _ _ _ := ⟨rfl, rfl⟩
  afterVisit _ _ _ := ⟨rfl, rfl⟩
  onExpression _ _ _ := ⟨rfl, rfl⟩
  enterMethod _ _ _ := ⟨rfl, rfl⟩
  exitMethod _ _ _ := ⟨rfl, rfl⟩

variable {left right : VertexId}

namespace Walker

theorem records_recorded (walker : Walker σ) : walker.recorded.visitor.Records := walker.visitor.records_recording

variable {law : Law β} {walker : Walker (Recorded σ)} {perform : Perform (Recorded σ)} {of : VertexId → Forecast β}
  (hfield : ∀ init, Obeys law .none (perform (.eval none init)))

/-! ## Expressions -/

section
variable {sites : Option CodePath}

theorem obeys_evalAll {exprs : List VertexId}
    (hparts : ∀ part ∈ exprs, Obeys law (of part) (perform (.eval sites part))) :
    Obeys law (.ofAll of exprs exprs) (evalAll perform sites exprs) := .mapM exprs hparts

theorem obeys_thisValue (expr : VertexId) : Obeys law .none (walker.thisValue expr) := by
  refine obeys_symbols.after fun all => ?_
  split <;> exact .pure _

section
variable {expr : VertexId}

theorem operandParts_eq (h : walker.operands? expr = some (left, right)) :
    walker.operandParts expr = [left, right] := by
  rw [operandParts, h]
  rfl

theorem qualifierParts_of_none (h : walker.graph.qualifier? expr = none) : walker.qualifierParts expr = [] := by
  rw [qualifierParts, h]
  rfl

theorem qualifierParts_of_plain {qualifier : VertexId} (h : walker.graph.qualifier? expr = some qualifier)
    {label : NodeKind} (hlabel : walker.graph.labelOf qualifier = label) (hplain : label.isPlainReference = true) :
    walker.qualifierParts expr = [] := by
  subst hlabel
  simp [qualifierParts, h, hplain]

theorem qualifierParts_of_not_plain {qualifier : VertexId} (h : walker.graph.qualifier? expr = some qualifier)
    (hplain : (walker.graph.labelOf qualifier).isPlainReference = false) : walker.qualifierParts expr =
    [qualifier] := by
  simp [qualifierParts, h, hplain]

theorem receiverParts_of_plain {receiver : VertexId} (h : walker.graph.receiver? expr = some receiver)
    {label : NodeKind} (hlabel : walker.graph.labelOf receiver = label) (hplain : label.isPlainReference = true) :
    walker.receiverParts expr = [] := by
  subst hlabel
  simp [receiverParts, h, hplain]

theorem receiverParts_of_not_plain {receiver : VertexId} (h : walker.graph.receiver? expr = some receiver)
    (hplain : (walker.graph.labelOf receiver).isPlainReference = false) : walker.receiverParts expr = [receiver] := by
  simp [receiverParts, h, hplain]

theorem obeys_operands (h : walker.operands? expr = some (left, right))
    (hparts : ∀ part ∈ walker.operandParts expr, Obeys law (of part) (perform (.eval sites part))) :
    Obeys law (of left) (perform (.eval sites left)) ∧ Obeys law (of right) (perform (.eval sites right)) := by
  rw [operandParts_eq h] at hparts
  simpa using hparts

theorem ofAll_operandParts (h : walker.operands? expr = some (left, right)) :
    Forecast.ofAll of (walker.operandParts expr) (walker.operandParts expr) = of left ++ of right := by
  rw [operandParts_eq h, Forecast.ofAll_cons, Forecast.ofAll_singleton]

theorem operandParts_of_none (h : walker.operands? expr = none) : walker.operandParts expr = [] := by
  rw [operandParts, h]
  rfl

end

/-! ## Variables and places -/

section
variable {expr : VertexId}
include hfield

theorem obeys_placeOf (hparts : ∀ part ∈ walker.placeParts expr, Obeys law (of part) (perform (.eval sites part))) :
    Obeys law (.ofAll of (walker.placeParts expr) (walker.placeParts expr)) (walker.placeOf perform sites expr) := by
  rw [placeParts] at hparts ⊢
  rw [placeOf]
  generalize walker.graph.labelOf expr = label at hparts ⊢
  cases label
  case variableExpression =>
    dsimp only at hparts ⊢
    cases hqualifier : walker.graph.qualifier? expr with
    | none =>
      rw [qualifierParts_of_none hqualifier]
      exact obeys_variablePlace hfield _ expr
    | some qualifier =>
      dsimp only
      split
      · rename_i hlabel
        rw [qualifierParts_of_plain hqualifier hlabel rfl]
        exact obeys_variablePlace hfield _ expr
      · rename_i hlabel
        rw [qualifierParts_of_plain hqualifier hlabel rfl]
        exact obeys_this?.after fun _ => .pure _
      · rename_i hlabel
        rw [qualifierParts_of_plain hqualifier hlabel rfl]
        exact obeys_this?.after fun _ => .pure _
      · rename_i hlabel
        rw [qualifierParts_of_plain hqualifier hlabel rfl]
        refine (obeys_resolveNames hfield _ expr).after fun denoted => ?_
        cases denoted with
        | value holder => exact .pure _
        | type type => exact obeys_staticPlace hfield type _
        | unknown => exact .pure _
      · have hplain := NodeKind.isPlainReference_eq_false ‹_› ‹_› ‹_› ‹_›
        rw [qualifierParts_of_not_plain hqualifier hplain] at hparts ⊢
        rw [Forecast.ofAll_singleton]
        exact (hparts qualifier mem_cons_self).finish fun _ => .pure _
  case arrayLoadExpression =>
    cases hcontainer : walker.graph.childAt? expr 0 with
    | none =>
      exact (Obeys.pure _).imp (by simp [operandParts, operands?, hcontainer, Forecast.ofAll_nil, Forecast.Within.refl])
    | some container =>
      cases hindex : walker.graph.childAt? expr 1 with
      | none =>
        exact (Obeys.pure _).imp
          (by simp [operandParts, operands?, hcontainer, hindex, Forecast.ofAll_nil, Forecast.Within.refl])
      | some index =>
        have hoperands : walker.operands? expr = some (container, index) := by simp [operands?, hcontainer, hindex]
        obtain ⟨hfirst, hsecond⟩ := obeys_operands hoperands hparts
        rw [ofAll_operandParts hoperands]
        exact hfirst.bind fun _ => hsecond.finish fun _ => .pure _
  all_goals exact .pure _

section
variable (hparts : ∀ part ∈ walker.qualifierParts expr, Obeys law (of part) (perform (.eval sites part)))
include hparts

theorem obeys_accessorHolder :
    Obeys law (.ofAll of (walker.qualifierParts expr) (walker.qualifierParts expr))
    (walker.accessorHolder perform sites expr) := by
  rw [accessorHolder]
  cases hqualifier : walker.graph.qualifier? expr with
  | none =>
    rw [qualifierParts_of_none hqualifier]
    exact obeys_this?
  | some qualifier =>
    dsimp only
    split
    · rename_i hlabel
      rw [qualifierParts_of_plain hqualifier hlabel rfl]
      exact obeys_this?
    · rename_i hlabel
      rw [qualifierParts_of_plain hqualifier hlabel rfl]
      exact obeys_this?
    · rename_i hlabel
      rw [qualifierParts_of_plain hqualifier hlabel rfl]
      exact obeys_this?
    · rename_i hlabel
      rw [qualifierParts_of_plain hqualifier hlabel rfl]
      refine (obeys_resolveNames hfield _ expr).after fun denoted => ?_
      cases denoted <;> exact .pure _
    · have hplain := NodeKind.isPlainReference_eq_false ‹_› ‹_› ‹_› ‹_›
      rw [qualifierParts_of_not_plain hqualifier hplain] at hparts ⊢
      rw [Forecast.ofAll_singleton]
      exact (hparts qualifier mem_cons_self).finish fun _ => .pure _

theorem obeys_readVariable :
    Obeys law (.ofAll of (walker.qualifierParts expr) (walker.qualifierParts expr))
    (walker.readVariable perform sites expr) := by
  rw [readVariable]
  cases hqualifier : walker.graph.qualifier? expr with
  | none =>
    rw [qualifierParts_of_none hqualifier]
    exact (obeys_nameValue? hfield _ expr).after fun _ => .pure _
  | some qualifier =>
    dsimp only
    split
    · rename_i hlabel
      rw [qualifierParts_of_plain hqualifier hlabel rfl]
      exact (obeys_nameValue? hfield _ expr).after fun _ => .pure _
    · rename_i hlabel
      rw [qualifierParts_of_plain hqualifier hlabel rfl]
      exact obeys_this?.after fun _ => obeys_heap.after fun _ => .pure _
    · rename_i hlabel
      rw [qualifierParts_of_plain hqualifier hlabel rfl]
      exact obeys_this?.after fun _ => obeys_heap.after fun _ => .pure _
    · rename_i hlabel
      rw [qualifierParts_of_plain hqualifier hlabel rfl]
      refine (obeys_resolveNames hfield _ expr).after fun denoted => ?_
      cases denoted <;> exact .pure _
    · have hplain := NodeKind.isPlainReference_eq_false ‹_› ‹_› ‹_› ‹_›
      rw [qualifierParts_of_not_plain hqualifier hplain] at hparts ⊢
      rw [Forecast.ofAll_singleton]
      exact (hparts qualifier mem_cons_self).finish fun _ => obeys_heap.after fun _ => .pure _

end

theorem obeys_callTarget? (hparts : ∀ part ∈ walker.receiverParts expr, Obeys law (of part)
    (perform (.eval sites part))) : Obeys law (.ofAll of (walker.receiverParts expr) (walker.receiverParts expr))
    (walker.callTarget? perform sites expr) := by
  rw [callTarget?]
  cases hreceiver : walker.graph.receiver? expr with
  | none => exact (Obeys.pure _).imp (by simp [receiverParts, hreceiver, Forecast.ofAll_nil, Forecast.Within.refl])
  | some receiver =>
    dsimp only
    split
    · rename_i hlabel
      rw [receiverParts_of_plain hreceiver hlabel rfl]
      exact .pure _
    · rename_i hlabel
      rw [receiverParts_of_plain hreceiver hlabel rfl]
      exact .pure _
    · rename_i hlabel
      rw [receiverParts_of_plain hreceiver hlabel rfl]
      exact .pure _
    · rename_i hlabel
      rw [receiverParts_of_plain hreceiver hlabel rfl]
      refine (obeys_resolveNames hfield _ expr).after fun denoted => ?_
      cases denoted <;> exact .pure _
    · have hplain := NodeKind.isPlainReference_eq_false ‹_› ‹_› ‹_› ‹_›
      rw [receiverParts_of_not_plain hreceiver hplain] at hparts ⊢
      rw [Forecast.ofAll_singleton]
      exact (hparts receiver mem_cons_self).finish fun _ => .pure _

end

/-! ## Expressions with an attached path -/

/-- What is foretold of the path that is attached to an expression, where there is one. -/
def siteForecast (at_ : VertexId → Forecast β) (sites : Option CodePath) (expr : VertexId) : Forecast β :=
  (attached? sites expr).elim .none fun _ => at_ expr

section
variable {at_ : VertexId → Forecast β} {expr : VertexId}
  (hsite : ∀ path, attached? sites expr = some path → ∀ this args,
  Obeys law (at_ expr) (perform (.invoke path this args)))
include hsite

theorem obeys_evalVariable (hfield : ∀ init, Obeys law .none (perform (.eval none init)))
    (hparts : ∀ part ∈ walker.qualifierParts expr, Obeys law (of part) (perform (.eval sites part))) :
    Obeys law (.ofAll of (walker.qualifierParts expr) (walker.qualifierParts expr) ++ siteForecast at_ sites expr)
      (walker.evalVariable perform sites expr) := by
  rw [evalVariable, siteForecast]
  cases hgetter : attached? sites expr with
  | none =>
    rw [Option.elim_none, Forecast.append_none]
    exact obeys_readVariable hfield hparts
  | some getter => exact (obeys_accessorHolder hfield hparts).bind fun holder => hsite getter hgetter holder []

theorem obeys_evalCall (hfield : ∀ init, Obeys law .none (perform (.eval none init)))
    (hparts : ∀ part ∈ walker.receiverParts expr ++ walker.graph.arguments expr,
    Obeys law (of part) (perform (.eval sites part))) :
    Obeys law (.ofAll of (walker.receiverParts expr ++ walker.graph.arguments expr)
      (walker.receiverParts expr ++ walker.graph.arguments expr) ++ siteForecast at_ sites expr)
      (walker.evalCall perform sites expr) := by
  obtain ⟨hreceiver, hargs⟩ := forall_mem_append.mp hparts
  rw [evalCall, Forecast.ofAll_append, Forecast.append_assoc]
  refine (obeys_callTarget? hfield hreceiver).bind fun target => (obeys_evalAll hargs).bind fun args => ?_
  rw [siteForecast]
  cases hcallee : attached? sites expr with
  | some callee =>
    have hinvoke := hsite callee hcallee
    rcases target with _ | ⟨value⟩ | ⟨type⟩
    · exact obeys_this?.after fun this => hinvoke this args
    · exact hinvoke value.ref? args
    · exact hinvoke none args
  | none =>
    cases target with
    | none => exact .pure _
    | some target => exact (obeys_callLibrary? ..).after fun _ => .pure _

end

/-! ## Creation -/

/-- The creation of a set with the items of another collection. -/
def isCopiedSet (walker : Walker σ) (expr : VertexId) : Bool :=
  let type := TypeName.canonical (walker.createdSpelling expr)
  !isArray (walker.createdSpelling expr) && TypeName.isCollection type && TypeName.base type == "Set" &&
    !(walker.graph.arguments expr).isEmpty

/-- The expressions that put items into a new set or map: those that write them out, and copies. -/
def creates (walker : Walker σ) (expr : VertexId) : Bool :=
  match walker.graph.labelOf expr with
  | .newSetLiteralExpression | .newMapLiteralExpression => true
  | .newObjectExpression => walker.isCopiedSet expr
  | _ => false

section
variable {at_ : VertexId → Forecast β} {expr : VertexId}

theorem obeys_newCollection {type : String} {source : Option Value}
    (hcopy : TypeName.base type = "Set" → source ≠ none → ∀ heap heap', law.allows heap heap') :
    Obeys law .none (newCollection type source : WalkM (Recorded σ) Value) := by
  refine obeys_onHeap fun heap => ?_
  split
  · refine law.object heap _ ?_
    cases source <;> rfl
  · rename_i hset
    cases source with
    | none => exact law.object heap _ rfl
    | some source => exact hcopy hset (Option.some_ne_none _) ..
  · exact law.object heap _ rfl

theorem obeys_newRecord (type : String) {args : List VertexId}
    (hparts : ∀ part ∈ args.map walker.fieldPart, Obeys law (of part) (perform (.eval sites part))) :
    Obeys law (.ofAll of (args.map walker.fieldPart) (args.map walker.fieldPart))
    (walker.newRecord perform sites type args) := by
  have hargs : ∀ arg ∈ args, Obeys law (of (walker.fieldPart arg)) (perform (.eval sites (walker.fieldPart arg))) :=
    forall_mem_map.mp hparts
  have hall : Forecast.ofAll of (args.map walker.fieldPart) (args.map walker.fieldPart) =
      Forecast.ofAll (fun arg => of (walker.fieldPart arg)) args args := by
    rw [Forecast.ofAll, Forecast.ofAll, flatMap_map, flatMap_map]
  rw [hall]
  refine (obeys_onHeap fun heap => law.object heap _ rfl).after fun ref =>
    (Obeys.forM args fun arg harg => ?_).finish fun _ => .pure _
  have hpart := hargs arg harg
  rw [fieldPart] at hpart ⊢
  cases hfield : walker.fieldArgument? arg with
  | none =>
    rw [hfield] at hpart
    exact hpart.discard
  | some entry =>
    rw [hfield] at hpart
    exact hpart.finish fun _ => obeys_onHeap fun _ => law.field ..

/-- The creation of an object of a class that the program declares. -/
def isClassCreation (walker : Walker σ) (expr : VertexId) : Bool :=
  let type := TypeName.canonical (walker.createdSpelling expr)
  !isArray (walker.createdSpelling expr) && !TypeName.isCollection type &&
    (walker.program.lookup? (walker.graph.enclosingType? expr) type).isSome

theorem obeys_evalNew (hfield : ∀ init, Obeys law .none (perform (.eval none init)))
    (hsite : ∀ path, attached? sites expr = some path → ∀ this args,
    Obeys law (at_ expr) (perform (.invoke path this args)))
    (hparts : ∀ part ∈ walker.creationParts expr, Obeys law (of part) (perform (.eval sites part)))
    (hclass : walker.isClassCreation expr = false → (siteForecast at_ sites expr).sure = [])
    (hcopy : walker.isCopiedSet expr = true → ∀ heap heap', law.allows heap heap') :
    Obeys law (.ofAll of (walker.creationParts expr) (walker.creationParts expr) ++ siteForecast at_ sites expr)
      (walker.evalNew perform sites expr) := by
  have hplain : walker.isClassCreation expr = false → ∀ forecast : Forecast β,
      forecast.Within (forecast ++ siteForecast at_ sites expr) := by
    intro h forecast
    refine ⟨?_, sublist_append_left ..⟩
    show (forecast.sure ++ (siteForecast at_ sites expr).sure).Sublist _
    rw [hclass h, append_nil]
  rw [evalNew, ← createdSpelling]
  rw [creationParts] at hparts ⊢
  rw [isClassCreation] at hplain
  dsimp only at hparts hplain ⊢
  by_cases harray : isArray (walker.createdSpelling expr) = true
  · rw [if_pos harray] at hparts ⊢
    rw [if_pos harray]
    refine Obeys.imp (obeys_onHeap fun heap => ?_) (hplain (by simp [harray]) .none)
    exact law.object heap _ rfl
  rw [if_neg harray] at hparts ⊢
  rw [if_neg harray]
  by_cases hcollection : TypeName.isCollection (TypeName.canonical (walker.createdSpelling expr)) = true
  · rw [if_pos hcollection]
    rw [if_pos (by simp [hcollection])] at hparts ⊢
    refine Obeys.imp ?_ (hplain (by simp [hcollection]) _)
    by_cases hnone : walker.graph.arguments expr = []
    · rw [hnone, evalAll, mapM_nil, pure_bind]
      exact obeys_newCollection fun _ hsome => absurd rfl hsome
    · refine (obeys_evalAll hparts).finish fun args => obeys_newCollection fun hset _ => hcopy ?_
      simp [isCopiedSet, harray, hcollection, hset, hnone]
  rw [if_neg hcollection]
  rw [show TypeName.isCollection (TypeName.canonical (walker.createdSpelling expr)) = false by simpa using hcollection,
    Bool.false_or] at hparts ⊢
  cases hdeclared : walker.program.lookup? (walker.graph.enclosingType? expr)
    (TypeName.canonical (walker.createdSpelling expr)) with
  | none =>
    rw [hdeclared, if_neg (by simp)] at hparts
    rw [if_neg (by simp)]
    exact (obeys_newRecord _ hparts).imp (hplain (by simp [hdeclared]) _)
  | some declared =>
    rw [hdeclared, if_pos (by simp)] at hparts
    rw [if_pos (by simp)]
    refine (obeys_evalAll hparts).bind fun args => (obeys_ensureInitialized hfield declared).after fun _ =>
      (obeys_instantiate hfield declared).after fun ref => ?_
    rw [siteForecast]
    cases hconstructor : attached? sites expr with
    | none => exact .pure _
    | some constructor => exact (hsite constructor hconstructor _ args).discard.finish fun _ => .pure _

theorem obeys_evalElements {isSet : Bool}
    (hparts : ∀ part ∈ walker.graph.children expr, Obeys law (of part) (perform (.eval sites part)))
    (hcreate : isSet = true → ∀ heap heap', law.allows heap heap') :
    Obeys law (.ofAll of (walker.graph.children expr) (walker.graph.children expr))
    (walker.evalElements perform sites expr isSet) := by
  refine (obeys_evalAll hparts).finish fun items => obeys_onHeap fun heap => ?_
  cases isSet with
  | false => exact law.object heap _ rfl
  | true => exact hcreate rfl ..

theorem ofAll_entries (entries : List (VertexId × VertexId)) :
    Forecast.ofAll of (entries.flatMap fun entry => [entry.1, entry.2]) (entries.flatMap fun entry =>
    [entry.1, entry.2]) = Forecast.ofAll (fun entry => of entry.1 ++ of entry.2) entries entries := by
  induction entries with
  | nil => rfl
  | cons entry rest ih =>
    rw [flatMap_cons, Forecast.ofAll_append, ih, Forecast.ofAll_cons of entry.1, Forecast.ofAll_singleton,
      Forecast.ofAll_cons]

theorem obeys_evalEntries
    (hparts : ∀ part ∈ (walker.writtenEntries expr).flatMap fun entry => [entry.1, entry.2],
    Obeys law (of part) (perform (.eval sites part)))
    (hcreate : ∀ heap heap', law.allows heap heap') :
    Obeys law (.ofAll of ((walker.writtenEntries expr).flatMap fun entry => [entry.1, entry.2])
      ((walker.writtenEntries expr).flatMap fun entry => [entry.1, entry.2]))
      (walker.evalEntries perform sites expr) := by
  rw [ofAll_entries]
  refine (Obeys.mapM (walker.writtenEntries expr) fun entry hentry => ?_).finish fun items => obeys_onHeap fun heap =>
    hcreate ..
  have hboth : ∀ part ∈ [entry.1, entry.2], Obeys law (of part) (perform (.eval sites part)) :=
    fun part hpart => hparts part (mem_flatMap.mpr ⟨entry, hentry, hpart⟩)
  exact (hboth _ (by simp)).bind fun _ => (hboth _ (by simp)).finish fun _ => .pure _

end

/-! ## Operators and types -/

section
variable {expr : VertexId}

section
variable (hparts : ∀ part ∈ walker.operandParts expr, Obeys law (of part) (perform (.eval sites part)))
include hparts

theorem obeys_evalBinary :
    Obeys law (.ofAll of (walker.operandParts expr) (walker.operandParts expr))
    (walker.evalBinary perform sites expr) := by
  rw [evalBinary]
  cases hoperands : walker.operands? expr with
  | none =>
    rw [operandParts_of_none hoperands]
    exact .pure _
  | some operands =>
    obtain ⟨hleft, hright⟩ := obeys_operands hoperands hparts
    rw [ofAll_operandParts hoperands]
    exact hleft.bind fun _ => hright.finish fun _ => .pure _

theorem obeys_evalElement :
    Obeys law (.ofAll of (walker.operandParts expr) (walker.operandParts expr))
    (walker.evalElement perform sites expr) := by
  rw [evalElement]
  cases hoperands : walker.operands? expr with
  | none =>
    rw [operandParts_of_none hoperands]
    exact .pure _
  | some operands =>
    obtain ⟨hcontainer, hindex⟩ := obeys_operands hoperands hparts
    rw [ofAll_operandParts hoperands]
    exact hcontainer.bind fun _ => hindex.finish fun _ => (obeys_callLibrary? ..).after fun _ => .pure _

theorem obeys_evalBoolean :
    Obeys law (.ofAll of (if walker.isShortCircuit expr then (walker.operandParts expr).take 1
    else walker.operandParts expr) (walker.operandParts expr)) (walker.evalBoolean perform sites expr) := by
  rw [evalBoolean]
  cases hoperands : walker.operands? expr with
  | none =>
    rw [operandParts_of_none hoperands, take_nil, ite_self]
    exact .pure _
  | some operands =>
    obtain ⟨left, right⟩ := operands
    obtain ⟨hleft, hright⟩ := obeys_operands hoperands hparts
    have hor : walker.operatorOf expr "==" = "&&" ∨ walker.operatorOf expr "==" = "||" ↔
        walker.isShortCircuit expr = true := by
      simp [isShortCircuit]
    dsimp only
    by_cases hcircuit : walker.isShortCircuit expr = true
    · rw [if_pos hcircuit, operandParts_eq hoperands]
      rw [show Forecast.ofAll of ([left, right].take 1) [left, right] = of left ++ (of right).maybe from
        (Forecast.ofAll_append of [left] [] [left] [right]).trans
        (by rw [Forecast.ofAll_singleton]; simp [Forecast.ofAll, Forecast.maybe])]
      refine hleft.bind fun value => ?_
      rw [if_pos (hor.mpr hcircuit)]
      cases Operator.shortCircuit? (walker.operatorOf expr "==") value with
      | some decided => exact (Obeys.pure _).imp (of right).none_within_maybe
      | none => exact (hright.finish fun _ => .pure _).imp (of right).within_maybe
    · rw [if_neg hcircuit, ofAll_operandParts hoperands]
      refine hleft.bind fun value => ?_
      rw [if_neg (mt hor.mp hcircuit)]
      exact hright.finish fun _ => .pure _

end

theorem obeys_evalTernary
    (hparts : ∀ part ∈ (walker.choice? expr).elim [] fun choice => choice.1 :: choice.2,
    Obeys law (of part) (perform (.eval sites part))) :
    Obeys law (.ofAll of ((walker.choice? expr).elim [] fun choice => [choice.1])
      ((walker.choice? expr).elim [] fun choice => choice.1 :: choice.2)) (walker.evalTernary perform sites expr) := by
  rw [evalTernary]
  cases hoperands : walker.operands? expr with
  | none => exact (Obeys.pure _).imp (by simp [choice?, hoperands, Forecast.ofAll_nil, Forecast.Within.refl])
  | some operands =>
    obtain ⟨condition, yes⟩ := operands
    cases hno : walker.graph.childAt? expr 2 with
    | none => exact (Obeys.pure _).imp (by simp [choice?, hoperands, hno, Forecast.ofAll_nil, Forecast.Within.refl])
    | some no =>
      have hchoice : walker.choice? expr = some (condition, [yes, no]) := by simp [choice?, hoperands, hno]
      simp only [hchoice, Option.elim_some, forall_mem_cons] at hparts ⊢
      obtain ⟨hcondition, hyes, hno, -⟩ := hparts
      have hboth : of yes ++ of no = Forecast.ofAll of [yes, no] [yes, no] := by
        rw [Forecast.ofAll_cons, Forecast.ofAll_singleton]
      rw [show Forecast.ofAll of [condition] [condition, yes, no] = of condition ++ (of yes ++ of no).maybe from
        (Forecast.ofAll_append of [condition] [] [condition] [yes, no]).trans
        (by rw [Forecast.ofAll_singleton, hboth]; rfl)]
      refine hcondition.bind fun value => ?_
      rcases value.bool? with _ | _ | _
      · exact (hyes.bind fun _ => hno.finish fun _ => .pure _).imp (Forecast.within_maybe _)
      · exact hno.imp ⟨nil_sublist _, sublist_append_right ..⟩
      · exact hyes.imp ⟨nil_sublist _, sublist_append_left ..⟩

section
variable (hparts : ∀ part ∈ (walker.graph.childAt? expr 0).toList, Obeys law (of part) (perform (.eval sites part)))
include hparts

theorem obeys_evalCast :
    Obeys law (.ofAll of (walker.graph.childAt? expr 0).toList (walker.graph.childAt? expr 0).toList)
      (walker.evalCast perform sites expr) := by
  rw [evalCast]
  cases hoperand : walker.graph.childAt? expr 0 with
  | none => exact .pure _
  | some operand =>
    rw [hoperand] at hparts
    rw [Option.toList_some, Forecast.ofAll_singleton]
    exact (hparts operand mem_cons_self).finish fun _ => .pure _

theorem obeys_evalInstanceOf :
    Obeys law (.ofAll of (walker.graph.childAt? expr 0).toList (walker.graph.childAt? expr 0).toList)
      (walker.evalInstanceOf perform sites expr) := by
  rw [evalInstanceOf]
  cases hoperand : walker.graph.childAt? expr 0 with
  | none => exact .pure _
  | some operand =>
    rw [hoperand] at hparts
    rw [Option.toList_some, Forecast.ofAll_singleton]
    exact (hparts operand mem_cons_self).finish fun _ => .pure _

end

theorem obeys_evalUnary (hfield : ∀ init, Obeys law .none (perform (.eval none init)))
    (hrecords : walker.visitor.Records) (hparts : ∀ part ∈ (walker.graph.childAt? expr 0).elim [] fun operand =>
      if walker.isStep expr then walker.placeParts operand else [operand],
        Obeys law (of part) (perform (.eval sites part))) :
    Obeys law (.ofAll of ((walker.graph.childAt? expr 0).elim [] fun operand =>
    if walker.isStep expr then walker.placeParts operand else [operand])
      ((walker.graph.childAt? expr 0).elim [] fun operand => if walker.isStep expr then walker.placeParts operand
      else [operand]))
      (walker.evalUnary perform sites expr) := by
  rw [evalUnary]
  cases hoperand : walker.graph.childAt? expr 0 with
  | none => exact .pure _
  | some operand =>
    rw [hoperand, Option.elim_some] at hparts
    have hor : walker.operatorOf expr "" = "++" ∨ walker.operatorOf expr "" = "--" ↔ walker.isStep expr = true :=
      by simp [isStep]
    dsimp only
    rw [Option.elim_some]
    by_cases hstep : walker.isStep expr = true
    · rw [if_pos hstep] at hparts ⊢
      rw [if_pos (hor.mpr hstep)]
      refine (obeys_placeOf hfield hparts).finish fun place => place.obeys_read?.after fun current => ?_
      have htold :
          Obeys law .none (notify (walker.visitor.onExpression operand (current.getD (walker.unknown operand)))) :=
        obeys_notify (fun _ => (hrecords.onExpression ..).1) fun _ => (hrecords.onExpression ..).2
      exact htold.after fun _ => (place.obeys_write _).after fun _ => .pure _
    · rw [if_neg hstep] at hparts ⊢
      rw [if_neg (mt hor.mp hstep), Forecast.ofAll_singleton]
      exact (hparts operand mem_cons_self).finish fun _ => .pure _

theorem obeys_evalAssignment {at_ : VertexId → Forecast β}
    (hfield : ∀ init, Obeys law .none (perform (.eval none init))) (hsite : ∀ path, attached? sites expr = some path →
    ∀ this args, Obeys law (at_ expr) (perform (.invoke path this args)))
    (hparts : ∀ part ∈ (walker.operands? expr).elim [] fun operands => walker.placeParts operands.1 ++ [operands.2],
      Obeys law (of part) (perform (.eval sites part)))
    (hwhole : walker.operands? expr = none → (siteForecast at_ sites expr).sure = []) :
    Obeys law (.ofAll of ((walker.operands? expr).elim [] fun operands => walker.placeParts operands.1 ++ [operands.2])
      ((walker.operands? expr).elim [] fun operands => walker.placeParts operands.1 ++ [operands.2]) ++
      siteForecast at_ sites expr)
      (walker.evalAssignment perform sites expr) := by
  rw [evalAssignment]
  cases hoperands : walker.operands? expr with
  | none =>
    refine (Obeys.pure _).imp ⟨?_, nil_sublist _⟩
    show (siteForecast at_ sites expr).sure.Sublist []
    rw [hwhole hoperands]
  | some operands =>
    obtain ⟨target, source⟩ := operands
    rw [hoperands, Option.elim_some] at hparts
    obtain ⟨htarget, hsource⟩ := forall_mem_append.mp hparts
    rw [Option.elim_some, Forecast.ofAll_append, Forecast.ofAll_singleton, Forecast.append_assoc]
    refine (obeys_placeOf hfield htarget).bind fun place => (hsource source mem_cons_self).bind fun assigned => ?_
    have hstore : ∀ value : Value, Obeys law (siteForecast at_ sites expr) (store perform sites expr place value) := by
      intro value
      rw [siteForecast, store]
      cases hsetter : attached? sites expr with
      | none => exact (place.obeys_write value).after fun _ => .pure _
      | some setter =>
        have hinvoke : ∀ holder, Obeys law (at_ expr) (discard (perform (.invoke setter holder [value]))) :=
          fun holder => (hsite setter hsetter holder [value]).discard
        cases place
        case field object name => exact (hinvoke (some object)).finish fun _ => .pure _
        all_goals exact obeys_this?.after fun holder => (hinvoke holder).finish fun _ => .pure _
    cases compound? (walker.operatorOf expr "=") with
    | none => exact hstore assigned
    | some op => exact place.obeys_read?.after fun current => hstore _

end

end

/-! ## All expressions -/

/-- What is foretold of an expression: its parts, then the path that is attached to it. -/
def evaluation (walker : Walker σ) (of at_ : VertexId → Forecast β) (sites : Option CodePath) (expr : VertexId) :
    Forecast β :=
  .ofAll of (walker.parts false expr) (walker.parts true expr) ++ siteForecast at_ sites expr

theorem siteForecast_none (sites : Option CodePath) (expr : VertexId) :
    siteForecast (fun _ => (.none : Forecast β)) sites expr = .none := by
  rw [siteForecast]
  cases attached? sites expr <;> rfl

theorem evaluation_none (walker : Walker σ) (sites : Option CodePath) (expr : VertexId) :
    walker.evaluation (fun _ => (.none : Forecast β)) (fun _ => .none) sites expr = .none := by
  rw [evaluation, siteForecast_none, Forecast.append_none, Forecast.ofAll_none]

/-- Only these expressions walk the path that is attached to them. -/
def invokes (walker : Walker σ) (expr : VertexId) : Bool :=
  match walker.graph.labelOf expr with
  | .variableExpression | .methodCallExpression | .thisMethodCallExpression | .superMethodCallExpression => true
  | .newObjectExpression => walker.isClassCreation expr
  | .assignmentExpression => (walker.operands? expr).isSome
  | _ => false

section
variable {sites : Option CodePath} {at_ : VertexId → Forecast β} {expr : VertexId}
  (hfield : ∀ init, Obeys law .none (perform (.eval none init))) (hrecords : walker.visitor.Records)
  (hparts : ∀ part ∈ walker.parts true expr, Obeys law (of part) (perform (.eval sites part)))
  (hsite : ∀ path, attached? sites expr = some path → ∀ this args,
  Obeys law (at_ expr) (perform (.invoke path this args)))
  (hidle : walker.invokes expr = false → (siteForecast at_ sites expr).sure = [])
  (hcreates : walker.creates expr = true → ∀ heap heap', law.allows heap heap')
include hfield hrecords hparts hsite hidle hcreates

/-- Every kind of expression obeys the forecast of its parts. -/
theorem obeys_evalKind : Obeys law (walker.evaluation of at_ sites expr) (walker.evalKind perform sites expr) := by
  have hquiet : walker.invokes expr = false → ∀ forecast : Forecast β,
      forecast.Within (forecast ++ siteForecast at_ sites expr) := by
    intro h forecast
    refine ⟨?_, sublist_append_left ..⟩
    show (forecast.sure ++ (siteForecast at_ sites expr).sure).Sublist _
    rw [hidle h, append_nil]
  rw [evaluation]
  rw [evalKind]
  rw [parts] at hparts
  rw [parts, parts]
  rw [invokes] at hidle hquiet
  rw [creates] at hcreates
  generalize walker.graph.labelOf expr = label at hparts hidle hquiet hcreates ⊢
  cases label
  case literalExpression => exact (Obeys.pure _).imp (hquiet rfl .none)
  case variableExpression => exact obeys_evalVariable hsite hfield hparts
  case thisVariableExpression => exact (obeys_thisValue expr).imp (hquiet rfl .none)
  case superVariableExpression => exact (obeys_thisValue expr).imp (hquiet rfl .none)
  case methodCallExpression => exact obeys_evalCall hsite hfield hparts
  case thisMethodCallExpression => exact obeys_evalCall hsite hfield hparts
  case superMethodCallExpression => exact obeys_evalCall hsite hfield hparts
  case newObjectExpression =>
    exact obeys_evalNew hfield hsite hparts hidle hcreates
  case newListLiteralExpression => exact (obeys_evalElements hparts (by simp)).imp (hquiet rfl _)
  case newSetLiteralExpression => exact (obeys_evalElements hparts fun _ => hcreates rfl).imp (hquiet rfl _)
  case newMapLiteralExpression => exact (obeys_evalEntries hparts (hcreates rfl)).imp (hquiet rfl _)
  case binaryExpression => exact (obeys_evalBinary hparts).imp (hquiet rfl _)
  case booleanExpression =>
    have hall : (if walker.isShortCircuit expr && !true then (walker.operandParts expr).take 1
      else walker.operandParts expr) = walker.operandParts expr := by simp
    dsimp only at hparts ⊢
    rw [hall] at hparts ⊢
    simp only [Bool.not_false, Bool.and_true]
    exact (obeys_evalBoolean hparts).imp (hquiet rfl _)
  case prefixExpression => exact (obeys_evalUnary hfield hrecords hparts).imp (hquiet rfl _)
  case postfixExpression => exact (obeys_evalUnary hfield hrecords hparts).imp (hquiet rfl _)
  case assignmentExpression =>
    refine obeys_evalAssignment hfield hsite hparts fun hnone => hidle ?_
    simp [hnone]
  case ternaryExpression => exact (obeys_evalTernary hparts).imp (hquiet rfl _)
  case castExpression => exact (obeys_evalCast hparts).imp (hquiet rfl _)
  case instanceOfExpression => exact (obeys_evalInstanceOf hparts).imp (hquiet rfl _)
  case arrayLoadExpression => exact (obeys_evalElement hparts).imp (hquiet rfl _)
  case soqlExpression => exact Obeys.imp (obeys_onHeap fun heap => law.object heap _ rfl) (hquiet rfl .none)
  all_goals exact (Obeys.pure _).imp (hquiet rfl .none)

/-- What is foretold of its parts and of the path that is attached to it is foretold of an expression. -/
theorem obeys_evalExpression : Obeys law (walker.evaluation of at_ sites expr)
    (walker.evalExpression perform sites expr) := by
  refine (obeys_evalKind hfield hrecords hparts hsite hidle hcreates).finish fun value => ?_
  have htold : ∀ shown, Obeys law .none (notify (walker.visitor.onExpression expr shown)) :=
    fun shown => obeys_notify (fun _ => (hrecords.onExpression ..).1) fun _ => (hrecords.onExpression ..).2
  exact (htold _).after fun _ => .pure _

end

end Walker

end ApexPaths
