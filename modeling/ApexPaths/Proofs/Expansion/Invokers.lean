import ApexPaths.Proofs.Build.StaticBlocks
import ApexPaths.Proofs.Walk.Naming

/-!
The initialization of a class. The invoker of a class passes one call for each static block of the class, in their
order, and each call runs the method of its own block: the call names it, its class comes first among the classes
that are searched, and no other method of the class has the name. What other classes have under these names does
not matter.
-/

namespace ApexPaths
set_option autoImplicit false

open List Program

/-! ## Bodies without branches -/

namespace Flow

theorem sequenceWays_simple (ids : List VertexId) :
    sequenceWays (ids.map Statement.simple) = [⟨ids.map (·, .sequential), .falls⟩] := by
  induction ids with
  | nil => rfl
  | cons id rest ih =>
    rw [map_cons, sequenceWays, ih]
    rfl

theorem Statement.eq_simple {graph : CodeGraph} {s : Statement} (h : s.Holds graph)
    (hlabel : graph.label? s.id = some .expressionStatement) : s = .simple s.id := by
  cases s with
  | simple id => rfl
  | exit id => rcases h with h | h <;> exact absurd (h.symm.trans hlabel) (by simp)
  | breaks id | continues id => exact absurd ((show graph.label? id = _ from h).symm.trans hlabel) (by simp)
  | nested block =>
    obtain ⟨id, body⟩ := block
    exact absurd (h.1.symm.trans hlabel) (by simp)
  | _ => exact absurd (h.1.symm.trans hlabel) (by simp)

theorem eq_simple_of_statementsHold {graph : CodeGraph} {body : List Statement} (h : statementsHold graph body)
    (hlabels : ∀ v ∈ body.map Statement.id, graph.label? v = some .expressionStatement) :
    body = (body.map Statement.id).map Statement.simple := by
  induction body with
  | nil => rfl
  | cons s rest ih =>
    obtain ⟨hs, hrest⟩ := forall_mem_cons.mp hlabels
    rw [map_cons, map_cons, ← ih h.2 hrest, ← Statement.eq_simple h.1 hs]

theorem Block.exists_trace {graph : CodeGraph} {b : Block} (h : b.Holds graph)
    (hlabels : ∀ v ∈ graph.children b.id, graph.label? v = some .expressionStatement) :
    ∃ trace, b.traces = [trace] ∧ trace.map PathVertex.id = b.id :: graph.children b.id := by
  obtain ⟨id, body⟩ := b
  obtain ⟨-, hchildren, hbody⟩ := h
  have hchildren : graph.children (Block.mk id body).id = body.map Statement.id := hchildren
  rw [hchildren] at hlabels ⊢
  refine ⟨closing ((id, .sequential) :: (body.map Statement.id).map (·, .sequential)), ?_, ?_⟩
  · rw [Block.traces, Block.ways, eq_simple_of_statementsHold hbody hlabels, sequenceWays_simple]
    simp [Way.after, Function.comp_def, Statement.id]
  · rw [ids_closing]
    simp [Block.id, Function.comp_def]

end Flow

theorem Build.IsBuilt.exists_straight {graph : CodeGraph} (built : Build.IsBuilt graph) {method body : VertexId}
    (hmethod : graph.is method .method = true) (hbody : graph.body? method = some body)
    (hlabels : ∀ v ∈ graph.children body, graph.label? v = some .expressionStatement) :
    ∃ path, Path.forward graph method = .ok [path] ∧ path.ids = body :: graph.children body := by
  obtain ⟨b, rfl, hholds, -, -, hforward⟩ := built.exists_block hmethod hbody
  obtain ⟨trace, htraces, hids⟩ := Flow.Block.exists_trace hholds hlabels
  rw [htraces] at hforward
  exact ⟨_, hforward, hids⟩

namespace Program

variable {program : Program}

/-! ## Calls without arguments -/

theorem firstLeast_of_zero {α : Type} {score? : α → Option Nat} {item : α} (h : score? item = some 0) (rest : List α) :
    firstLeast score? (item :: rest) = some item := by
  have hfirst : lesser score? none item = some (0, item) := by simp only [lesser, h]
  have hstay : ∀ other, lesser score? (some (0, item)) other = some (0, item) := fun other => by
    cases hscore : score? other <;> simp [lesser, hscore]
  have hall : rest.foldl (lesser score?) (some (0, item)) = some (0, item) := by
    induction rest with
    | nil => rfl
    | cons other rest ih => rw [foldl_cons, hstay, ih]
  rw [firstLeast, foldl_cons, hfirst, hall]
  rfl

theorem target?_unqualified {call receiver type method : VertexId} {name : String} {rest : List VertexId}
    (hlabel : program.graph.labelOf call = .methodCallExpression)
    (hname : program.graph.text? call (.spelled .methodName) = some name)
    (hchildren : program.graph.children call = [receiver])
    (hreceiver : program.graph.labelOf receiver = .emptyReferenceExpression)
    (htype : program.graph.enclosingType? call = some type) (hcandidates : program.candidates type name 0 =
    method :: rest)
    (hparameters : program.graph.parameters method = []) (hcount : 0 < program.graph.vertexCount) :
    program.target? call = some method := by
  have hcall : program.graph.is call .methodCallExpression = true := CodeGraph.is_of_labelOf hlabel (by simp)
  have howners : ∃ outer, program.calledOwners program.expressionType call = type :: outer := by
    obtain ⟨n, hn⟩ : ∃ n, program.graph.vertexCount = n + 1 := ⟨_, (Nat.succ_pred_eq_of_pos hcount).symm⟩
    refine ⟨program.outwardWithin n (program.outer? type), ?_⟩
    simp only [calledOwners, CodeGraph.receiver?, hcall, if_true, CodeGraph.childAt?, hchildren,
      List.getElem?_cons_zero, hreceiver, htype, outward, hn, outwardWithin]
  obtain ⟨outer, howners⟩ := howners
  have hscore : program.callScore? [] (some type) method = some 0 := by simp [callScore?, hparameters, total?]
  have hselect : program.selectOverload? (program.candidates type name 0) [] (some type) = some method := by
    rw [selectOverload?, hcandidates, firstLeast_of_zero hscore]
  simp only [target?, targetGiven?, hlabel, CodeGraph.calledName?, hname, CodeGraph.arguments, hcall, if_true,
    hchildren, drop_one, tail_cons, map_nil, htype, howners, length_nil]
  simp [hselect]

end Program

namespace Build

open Source CodeGraph

variable {graph : CodeGraph}

/-! ## The methods of static blocks -/

/-- The method of a static block keeps the span and the body of the block. It is static, has the name for its number and
takes nothing. -/
theorem staticBlockMethod_keeps {block : Tree} (hkind : block.kind = .staticBlock) (hwell : block.Well false)
    (ordinal : Nat) :
    let method := staticBlockMethod ordinal block
    method.kind = .method ∧ method.span = block.span ∧ method.children = block.children ∧
      method.text? (.spelled .name) = some (Reserved.staticBlock ordinal) ∧ method.flag (.fact .isStatic) = true ∧
      method.props.written (.fact .arity) = some (.int 0) := by
  obtain ⟨body, hchildren, -⟩ := staticBlock_children hwell hkind
  refine ⟨rfl, rfl, ?_, rfl, rfl, rfl⟩
  rw [staticBlockMethod, hchildren]
  rfl

/-- The vertex is the method of the static block with a number. -/
structure IsBlockMethod (graph : CodeGraph) (ordinal : Nat) (method : VertexId) : Prop where
  name?_eq : graph.name? method = some (Reserved.staticBlock ordinal)
  isConstructor_eq : graph.isConstructor method = false
  declaredArity_eq : graph.declaredArity method = 0
  parameters_eq : graph.parameters method = []

theorem Carries.isBlockMethod {block : Tree} (hkind : block.kind = .staticBlock) (hwell : block.Well false)
    {ordinal : Nat} {method : VertexId} (h : Carries graph (staticBlockMethod ordinal block) method) :
    IsBlockMethod graph ordinal method where
  name?_eq := h.name?_eq
  isConstructor_eq := h.flag (k := .isConstructor) rfl
  declaredArity_eq := by
    obtain ⟨-, -, -, -, -, harity⟩ := staticBlockMethod_keeps hkind hwell ordinal
    rw [declaredArity, int?_eq, (carries_iff.mp h).2.1 (.fact .arity) rfl, harity]
    rfl
  parameters_eq := by
    obtain ⟨body, hchildren, hbody, -⟩ := staticBlock_children hwell hkind
    have hcount := h.children.length_filter .parameter
    obtain ⟨-, -, hkeeps, -⟩ := staticBlockMethod_keeps hkind hwell ordinal
    rw [hkeeps, hchildren, filter_singleton, hbody] at hcount
    rw [parameters, childrenWithLabel, length_eq_zero_iff.mp hcount, map_nil]

theorem exists_of_getElem? {α β : Type} {r : α → β → Prop} {as : List α} {bs : List β} (h : List.Forall₂ r as bs)
    {i : Nat} {b : β} (hb : bs[i]? = some b) : ∃ a, as[i]? = some a ∧ r a b := by
  induction h generalizing i with
  | nil => cases hb
  | cons hfirst _ ih =>
    cases i with
    | zero =>
      cases hb
      exact ⟨_, rfl, hfirst⟩
    | succ i => exact ih hb

theorem isBlockMethod_of_carries {type : Tree} (hwell : type.Well false) {methods : List VertexId}
    (h : List.Forall₂ (Carries graph) (blockMethods (staticBlocks type)) methods) :
    ∀ i method, methods[i]? = some method → IsBlockMethod graph (i + 1) method := by
  intro i method hi
  obtain ⟨tree, htree, hmethod⟩ := exists_of_getElem? h hi
  rw [blockMethods, List.getElem?_mapIdx] at htree
  obtain ⟨block, hblock, rfl⟩ := Option.map_eq_some_iff.mp htree
  obtain ⟨hmem, hstatic⟩ := mem_filter.mp (mem_of_getElem? hblock)
  exact hmethod.isBlockMethod (beq_iff_eq.mp hstatic) (hwell.child hmem)

theorem IsBlockMethod.hasName_eq {i : Nat} {method : VertexId} (h : IsBlockMethod graph i method) (j : Nat) :
    (ofGraph graph).hasName method (Reserved.staticBlock j) = (i == j) := by
  rw [hasName, show (ofGraph graph).graph.name? method = _ from h.name?_eq, Option.any_some,
    eqIgnoringCase_staticBlock]

theorem hasName_invoker {invoker : VertexId} (h : graph.name? invoker = some Reserved.staticBlockInvoker)
    (ordinal : Nat) : (ofGraph graph).hasName invoker (Reserved.staticBlock ordinal) = false := by
  rw [hasName, show (ofGraph graph).graph.name? invoker = _ from h, Option.any_some,
    eqIgnoringCase_staticBlockInvoker]

theorem isReservedName_of_hasName {method : VertexId} {ordinal : Nat}
    (h : (ofGraph graph).hasName method (Reserved.staticBlock ordinal) = true) :
    (graph.name? method).any isReservedName = true := by
  obtain ⟨name, hname, heq⟩ := (Option.any_eq_true _ _).mp (show (graph.name? method).any _ = true from h)
  rw [hname]
  exact isReservedName_of_eqIgnoringCase heq

theorem filter_methods {type : VertexId} {test : VertexId → Bool}
    (h : ∀ method, test method = true → (graph.name? method).any isReservedName = true) :
    (graph.methods type).filter test = ((graph.children type).filter (isMadeAt graph)).filter test := by
  rw [methods, childrenWithLabel, filter_filter, filter_filter]
  refine filter_congr fun method _ => ?_
  cases htest : test method with
  | false => rfl
  | true => rw [isMadeAt, h method htest, Bool.and_true]

theorem filter_eq_singleton {α : Type} {items : List α} {test : α → Bool} {k : Nat} {item : α}
    (hitem : items[k]? = some item) (h : ∀ i other, items[i]? = some other → (test other = true ↔ i = k)) :
    items.filter test = [item] := by
  induction items generalizing k with
  | nil => cases hitem
  | cons first rest ih =>
    have hfirst := h 0 first rfl
    cases k with
    | zero =>
      cases hitem
      rw [filter_cons_of_pos (hfirst.mpr rfl), filter_eq_nil_iff.mpr fun other hother htest => ?_]
      obtain ⟨i, hi⟩ := mem_iff_getElem?.mp hother
      exact absurd ((h (i + 1) other hi).mp htest) (by omega)
    | succ k =>
      rw [filter_cons_of_neg fun htest => absurd (hfirst.mp htest) (by omega)]
      exact ih hitem fun i other hother => (h (i + 1) other hother).trans (by omega)

theorem made_of_class {type invoker : VertexId} {methods : List VertexId}
    (h : (graph.children type).filter (isMadeAt graph) = methods ++ [invoker]) :
    invoker ∈ graph.methods type ∧ methods.Sublist (graph.methods type) := by
  have hsublist : (methods ++ [invoker]).Sublist (graph.methods type) := by
    rw [← h, CodeGraph.methods, childrenWithLabel]
    exact monotone_filter_right _ fun method hmethod => (Bool.and_eq_true_iff.mp hmethod).1
  exact ⟨hsublist.mem (by simp), (sublist_append_left ..).trans hsublist⟩

section
variable {type invoker : VertexId} {methods : List VertexId}
    (hmade : (graph.children type).filter (isMadeAt graph) = methods ++ [invoker])
    (hinvoker : graph.name? invoker = some Reserved.staticBlockInvoker)
include hmade hinvoker

variable (hmethods : ∀ i method, methods[i]? = some method → IsBlockMethod graph (i + 1) method)
include hmethods

theorem staticInvoker?_eq : (ofGraph graph).staticInvoker? type = some invoker := by
  have hnone : ∀ method ∈ methods, graph.isStaticBlockInvoker method = false := by
    intro method hmethod
    obtain ⟨i, hi⟩ := mem_iff_getElem?.mp hmethod
    rw [isStaticBlockInvoker, (hmethods i method hi).name?_eq, Option.some_beq_some, beq_eq_false_iff_ne]
    intro hsame
    have hother := eqIgnoringCase_staticBlockInvoker (i + 1)
    rw [← hsame, eqIgnoringCase_staticBlock, beq_self_eq_true] at hother
    cases hother
  have hfound : graph.isStaticBlockInvoker invoker = true := by rw [isStaticBlockInvoker, hinvoker, beq_self_eq_true]
  have hfilter := @filter_methods graph type graph.isStaticBlockInvoker fun method hmethod => by
    rw [show graph.name? method = _ from beq_iff_eq.mp hmethod]
    rfl
  rw [staticInvoker?, ← List.head?_filter, show (ofGraph graph).graph = graph from rfl, hfilter,
    hmade, filter_append, filter_eq_nil_iff.mpr fun method hmethod => by
      simp [hnone method hmethod], filter_singleton, hfound]
  rfl

theorem candidates_staticBlock {i : Nat} {method : VertexId} (hi : methods[i]? = some method) :
    ∃ rest, (ofGraph graph).candidates type (Reserved.staticBlock (i + 1)) 0 = method :: rest := by
  have hnamed : ∀ j other, (methods ++ [invoker])[j]? = some other →
      ((!graph.isConstructor other && (ofGraph graph).hasName other (Reserved.staticBlock (i + 1)) &&
        graph.declaredArity other == 0) = true ↔ j = i) := by
    intro j other hother
    have hlt := (List.getElem?_eq_some_iff.mp hi).1
    by_cases hj : j < methods.length
    · rw [List.getElem?_append_left hj] at hother
      have hblock := hmethods j other hother
      simp [hblock.isConstructor_eq, hblock.declaredArity_eq, hblock.hasName_eq]
    · obtain ⟨hle, hsome⟩ := List.getElem?_eq_some_iff.mp hother
      have hj : j = methods.length := by
        rw [length_append, length_singleton] at hle
        omega
      obtain rfl : invoker = other := by simpa [hj] using hsome
      simp only [hasName_invoker hinvoker, Bool.and_false, Bool.false_and, Bool.false_eq_true, false_iff]
      omega
  have hone := filter_eq_singleton (by rw [List.getElem?_append_left (List.getElem?_eq_some_iff.mp hi).1, hi]) hnamed
  rw [candidates, hierarchy, flatMap_cons, filter_append, show (ofGraph graph).graph =
    graph from rfl, filter_methods fun other hother =>
    isReservedName_of_hasName (Bool.and_eq_true_iff.mp (Bool.and_eq_true_iff.mp hother).1).2, hmade, hone]
  exact ⟨_, singleton_append⟩

end

/-! ## The calls of static blocks -/

/-- The statement calls the method of the static block with a number, of the class that it stands in. -/
structure CallsBlock (graph : CodeGraph) (ordinal : Nat) (statement call receiver : VertexId) : Prop where
  label?_eq : graph.label? statement = some .expressionStatement
  children_eq : graph.children statement = [call]
  labelOf_call : graph.labelOf call = .methodCallExpression
  name_eq : graph.text? call (.spelled .methodName) = some (Reserved.staticBlock ordinal)
  parts_eq : graph.children call = [receiver]
  labelOf_receiver : graph.labelOf receiver = .emptyReferenceExpression
  leaf : graph.children receiver = []

theorem exists_callsBlock {ordinal : Nat} {span : Span} {statement : VertexId}
    (h : Carries graph (staticBlockCall ordinal span) statement) : ∃ call receiver,
    CallsBlock graph ordinal statement call receiver := by
  obtain ⟨call, _, hcalls, hcall, rfl⟩ := h.children
  obtain ⟨receiver, _, hreceivers, hreceiver, rfl⟩ := hcall.children
  refine ⟨call, receiver, h.label, hcalls, hcall.labelOf_eq, ?_, hreceivers, hreceiver.labelOf_eq, hreceiver.children⟩
  rw [CodeGraph.text?_eq, (carries_iff.mp hcall).2.1 (.spelled .methodName) rfl]
  rfl

section
variable {ordinal : Nat} {statement call receiver : VertexId} (h : CallsBlock graph ordinal statement call receiver)
include h

theorem CallsBlock.evaluatedExpressions_eq (hcount : 0 < graph.vertexCount) :
    graph.evaluatedExpressions statement = [receiver, call] := by
  obtain ⟨n, hn⟩ : ∃ n, graph.vertexCount = n + 1 := ⟨_, (Nat.succ_pred_eq_of_pos hcount).symm⟩
  have hleaf : graph.postOrderWithin n receiver = [receiver] := by
    cases n <;> simp [postOrderWithin, h.leaf]
  have hlabel : graph.labelOf statement = .expressionStatement := by rw [labelOf, h.label?_eq, Option.getD_some]
  simp [evaluatedExpressions, evaluatedRoots, hlabel, h.children_eq, postOrder, hn, postOrderWithin, h.parts_eq, hleaf]

theorem CallsBlock.sitesAt_eq (hcount : 0 < graph.vertexCount) {method : VertexId}
    (htarget : (ofGraph graph).target? call = some method) : (ofGraph graph).sitesAt statement =
    [.call call method] := by
  have hgraph : (ofGraph graph).graph = graph := rfl
  have hreceiver : ∀ sites, (ofGraph graph).withSitesOf sites receiver = sites := by
    simp [withSitesOf, staticReference?, runMethod?, hgraph, h.labelOf_receiver,
      NodeKind.isInvocable]
  have hqualifier : (ofGraph graph).staticReference? call = none := by
    have hempty : graph.is receiver .referenceExpression = false := by
      rw [Bool.eq_false_iff]
      intro his
      have hlabel := h.labelOf_receiver
      rw [labelOf, graph.is_iff.mp his] at hlabel
      cases hlabel
    have hcall := CodeGraph.is_of_labelOf h.labelOf_call (by simp)
    simp [staticReference?, hgraph, h.labelOf_call, CodeGraph.receiver?, hcall, childAt?, h.parts_eq,
      staticOwner?, hempty]
  have hrun : (ofGraph graph).runMethod? call = some method := by
    simp only [runMethod?, hgraph, h.labelOf_call, NodeKind.isInvocable, if_true, htarget]
  rw [sitesAt, hgraph, h.evaluatedExpressions_eq hcount, foldl_cons, hreceiver, foldl_cons, foldl_nil,
    withSitesOf, hqualifier, hrun]
  rfl

end

theorem exists_invokerBody {span : Span} {blocks : List Span} {invoker : VertexId}
    (h : Carries graph (staticBlockInvoker span blocks) invoker) : ∃ body, graph.body? invoker = some body ∧
      List.Forall₂ (Carries graph) (blocks.mapIdx fun i blockSpan => staticBlockCall (i + 1) blockSpan)
      (graph.children body) := by
  obtain ⟨body, _, hbodies, hbody, rfl⟩ := h.children
  refine ⟨body, ?_, carriesAll_iff.mp hbody.children⟩
  rw [body?, lastBlock?, lastChild?, hbodies]
  simp [is, hbody.label]

theorem label?_of_carriesCalls {spans : List Span} {statements : List VertexId}
    (h : List.Forall₂ (Carries graph) (spans.mapIdx fun i span => staticBlockCall (i + 1) span) statements) :
    ∀ s ∈ statements, graph.label? s = some .expressionStatement := by
  intro s hs
  obtain ⟨tree, htree, hcarries⟩ := (carriesAll_iff.mpr h).exists_mem.2 s hs
  obtain ⟨i, hi, rfl⟩ := mem_mapIdx.mp htree
  exact hcarries.label

theorem evaluatedExpressions_of_block {body : VertexId} (h : graph.label? body = some .blockStatement) :
    graph.evaluatedExpressions body = [] := by
  have hlabel : graph.labelOf body = .blockStatement := by rw [labelOf, h, Option.getD_some]
  simp [evaluatedExpressions, evaluatedRoots, hlabel, NodeKind.isDml, NodeKind.isExpression]

/-- The statement makes one call, which runs the method. -/
structure RunsMethod (graph : CodeGraph) (statement call method : VertexId) : Prop where
  calls_eq : (graph.evaluatedExpressions statement).filter (fun expr => (graph.labelOf expr).isInvocable) = [call]
  target?_eq : (ofGraph graph).target? call = some method
  sitesAt_eq : (ofGraph graph).sitesAt statement = [.call call method]

theorem CallsBlock.runsMethod {ordinal : Nat} {statement call receiver : VertexId}
    (h : CallsBlock graph ordinal statement call receiver) (hcount : 0 < graph.vertexCount) {method : VertexId}
    (htarget : (ofGraph graph).target? call = some method) : RunsMethod graph statement call method where
  calls_eq := by simp [h.evaluatedExpressions_eq hcount, h.labelOf_call, h.labelOf_receiver, NodeKind.isInvocable]
  target?_eq := htarget
  sitesAt_eq := h.sitesAt_eq hcount htarget

theorem exists_calls {statements methods : List VertexId}
    (h : List.Forall₂ (fun statement method => ∃ call, RunsMethod graph statement call method) statements methods) :
    ∃ calls, (statements.flatMap graph.evaluatedExpressions).filter (fun expr => (graph.labelOf expr).isInvocable) =
    calls ∧ calls.map (ofGraph graph).target? = methods.map some ∧
      statements.flatMap (ofGraph graph).sitesAt = calls.zipWith Site.call methods := by
  induction h with
  | nil => exact ⟨[], rfl, rfl, rfl⟩
  | cons hfirst _ ih =>
    obtain ⟨call, hcall⟩ := hfirst
    obtain ⟨calls, hcalls, htargets, hsites⟩ := ih
    refine ⟨call :: calls, ?_, ?_, ?_⟩
    · rw [flatMap_cons, filter_append, hcall.calls_eq, hcalls, singleton_append]
    · rw [map_cons, map_cons, htargets, hcall.target?_eq]
    · rw [flatMap_cons, hcall.sitesAt_eq, hsites, singleton_append, zipWith_cons_cons]

/-! ## The initialization of a class -/

/-- The invoker of a class has one path, and on this path there is one call for each of the static blocks. The
calls run the methods of the blocks, in the order of the blocks; these are methods of the class itself. Nothing
else is run on the path. -/
structure RunsInOrder (graph : CodeGraph) (type : VertexId) (blocks : List Tree) (invoker : VertexId) (path : CodePath)
    (calls methods : List VertexId) : Prop where
  invoker_eq : (ofGraph graph).staticInvoker? type = some invoker
  forward_eq : Path.forward graph invoker = .ok [path]
  calls_eq : (path.ids.flatMap graph.evaluatedExpressions).filter (fun expr => (graph.labelOf expr).isInvocable) = calls
  nodup_calls : calls.Nodup
  length_eq : calls.length = blocks.length
  targets_eq : calls.map (ofGraph graph).target? = methods.map some
  sites_eq : path.ids.flatMap (ofGraph graph).sitesAt = calls.zipWith Site.call methods
  sublist : methods.Sublist (graph.methods type)
  carries : List.Forall₂ (Carries graph) (blockMethods blocks) methods

theorem enclosingType?_of_mem_methods (forest : graph.IsForest) {type method : VertexId}
    (h : method ∈ graph.methods type) {kind : NodeKind} (hlabel : graph.label? type = some kind)
    (htype : kind.isTypeDeclaration = true) :
    graph.enclosingType? method = some type := by
  obtain ⟨hmem, his⟩ := mem_filter.mp h
  have hparent := forest.parent_of_mem hmem
  have hline := line_of_parent forest (lt_of_parent? hparent) hparent
  have hmethod : (graph.label? method).any NodeKind.isTypeDeclaration = false := by
    rw [graph.is_iff.mp his]
    rfl
  rw [enclosingType?, ← line, hline, List.find?_cons_of_neg (by simp [hmethod]), line,
    List.find?_cons_of_pos (by rw [hlabel]; exact htype)]

section
variable {settings : Settings} {sources : List (String × String)} (hgraph : IsGraphOf settings sources graph)
include hgraph

theorem CallsBlock.target?_eq {ordinal : Nat} {type method body statement call receiver target : VertexId}
    {rest : List VertexId} (h : CallsBlock graph ordinal statement call receiver)
    (hstatement : statement ∈ graph.children body)
    (hbody : body ∈ graph.children method) (hblock : graph.label? body = some .blockStatement)
    (htype : graph.enclosingType? method = some type)
    (hcandidates : (ofGraph graph).candidates type (Reserved.staticBlock ordinal) 0 = target :: rest)
    (htarget : IsBlockMethod graph ordinal target) : (ofGraph graph).target? call = some target := by
  have bound := hgraph.wellBound
  have forest := bound.placed.forest
  have hcall : call ∈ graph.children statement := by rw [h.children_eq]; exact mem_singleton_self call
  have hbelow : graph.Below body call :=
    .of_child forest hstatement (.of_child forest hcall (.refl (lt_of_parent? (forest.parent_of_mem hcall))))
  have hhere := enclosingType?_of_below forest bound.kinds bound.declared hbody hblock hbelow
  exact target?_unqualified h.labelOf_call h.name_eq h.parts_eq h.labelOf_receiver
    (hhere.trans htype) hcandidates htarget.parameters_eq (Nat.lt_of_le_of_lt (Nat.zero_le call) hbelow.1)

theorem runsMethods {type invoker body : VertexId} {methods : List VertexId} {spans : List Span}
    (hmade : (graph.children type).filter (isMadeAt graph) = methods ++ [invoker])
    (hinvoker : graph.name? invoker = some Reserved.staticBlockInvoker)
    (hmethods : ∀ i method, methods[i]? = some method → IsBlockMethod graph (i + 1) method)
    (hbody : graph.body? invoker = some body) (htype : graph.enclosingType? invoker = some type)
    (hstatements : List.Forall₂ (Carries graph) (spans.mapIdx fun i span => staticBlockCall (i + 1) span)
    (graph.children body))
    (hcount : spans.length = methods.length) :
    List.Forall₂ (fun statement method => ∃ call, RunsMethod graph statement call method) (graph.children body)
    methods := by
  refine forall₂_iff_get.mpr ⟨by simpa [hcount] using hstatements.length_eq.symm, fun i hi hi' => ?_⟩
  obtain ⟨tree, htree, hstatement⟩ := exists_of_getElem? hstatements (List.getElem?_eq_getElem hi)
  rw [List.getElem?_mapIdx] at htree
  obtain ⟨span, -, rfl⟩ := Option.map_eq_some_iff.mp htree
  obtain ⟨call, receiver, hcalls⟩ := exists_callsBlock hstatement
  have hmethod := List.getElem?_eq_getElem hi'
  obtain ⟨rest, hcandidates⟩ := candidates_staticBlock hmade hinvoker hmethods hmethod
  obtain ⟨hchild, hblock⟩ := mem_children_of_body? hbody
  have htarget := hcalls.target?_eq hgraph (getElem_mem hi) hchild hblock htype hcandidates (hmethods i _ hmethod)
  exact ⟨call, hcalls.runsMethod (Nat.lt_of_le_of_lt (Nat.zero_le body) (lt_of_label? _ hblock)) htarget⟩

/-- The invoker of a completed type runs its static blocks in order. -/
theorem exists_runsInOrder {type : Tree} (hread : type.Read) (hkind : type.kind.isTypeDeclaration = true)
    (hblocks : staticBlocks type ≠ []) {v : VertexId} (hcarries : Carries graph (completeType type) v) :
    ∃ invoker path calls methods, RunsInOrder graph v (staticBlocks type) invoker path calls methods := by
  have forest := hgraph.wellBound.placed.forest
  obtain ⟨methods, invoker, hmade, hmethods, hinvoker⟩ := exists_made hread hblocks hcarries
  obtain ⟨hown, hsublist⟩ := made_of_class hmade
  have hplain := isBlockMethod_of_carries hread.1 hmethods
  have hlength : methods.length = (staticBlocks type).length := by simpa [blockMethods] using hmethods.length_eq.symm
  have htype : graph.enclosingType? invoker = some v :=
    enclosingType?_of_mem_methods forest hown hcarries.label (by rw [completeType_eq]; exact hkind)
  obtain ⟨body, hbody, hstatements⟩ := exists_invokerBody hinvoker
  have hruns := runsMethods hgraph hmade hinvoker.name?_eq hplain hbody htype hstatements (by simp [hlength])
  obtain ⟨calls, hcalls, htargets, hsites⟩ := exists_calls hruns
  -- Control passes the block itself, where nothing is evaluated, and then its statements.
  obtain ⟨path, hforward, hids⟩ :=
    hgraph.isBuilt.exists_straight (is_of_mem_methods hown) hbody (label?_of_carriesCalls hstatements)
  have hentry := evaluatedExpressions_of_block (mem_children_of_body? hbody).2
  have hnodup : calls.Nodup := by
    refine List.Nodup.of_map (ofGraph graph).target? ?_
    rw [htargets]
    exact (hsublist.nodup ((forest.nodup_children v).filter _)).map (Option.some_injective _)
  refine ⟨invoker, path, calls, methods, staticInvoker?_eq hmade hinvoker.name?_eq hplain, hforward, ?_, hnodup, ?_,
    htargets, ?_, hsublist, hmethods⟩
  · rw [hids, flatMap_cons, hentry, nil_append, hcalls]
  · simpa [hlength] using congrArg List.length htargets
  · rw [hids, flatMap_cons, sitesAt, show (ofGraph graph).graph = graph from rfl, hentry, foldl_nil,
      nil_append, hsites]

end

/-- In every built graph each class with static blocks runs them in order, its own and no others. -/
theorem staticBlocks_run {settings : Settings} {sources : List (String × String)} {units : List CompilationUnit}
    {stats : Stats} (hparse : parseAll sources = .ok units) (hbuild : build settings units = .ok (graph, stats)) :
    (∀ v, graph.is v .userClass = true → ∃ type ∈ classes settings units, Carries graph (completeType type) v) ∧
    ∀ type ∈ classes settings units, (∃ v, Carries graph (completeType type) v) ∧
      ∀ v, Carries graph (completeType type) v → staticBlocks type ≠ [] →
        ∃ invoker path calls methods, RunsInOrder graph v (staticBlocks type) invoker path calls methods := by
  refine ⟨fun v hv => exists_class_of_is hparse hbuild hv, fun type htype =>
    ⟨exists_carries_class hparse hbuild htype, fun v hv hblocks => ?_⟩⟩
  obtain ⟨-, -, -, hclass⟩ := mem_classes_iff.mp htype
  exact exists_runsInOrder ⟨units, stats, hparse, hbuild⟩ (read_of_mem_classes hparse htype) (by rw [hclass]; rfl)
    hblocks hv

/-- Classes with static blocks above, inside and around one another. -/
def blocksAllOver : List (String × String) :=
  [("B.cls", "virtual class B { static { } }"),
  ("S.cls", "class S extends B { static { } static { } class I { static { } } }")]

/-- Sources are accepted, their graph is built, and their units pass a test. -/
def unitsBuild (test : List CompilationUnit → Bool) (sources : List (String × String)) : Bool :=
  match unitsOfChars sources with
  | .ok units => (build bareSettings units).toOption.isSome && test units
  | .error _ => false

theorem exists_units {test : List CompilationUnit → Bool} {sources : List (String × String)}
    (h : unitsBuild test sources = true) : ∃ units graph stats, parseAll sources = .ok units ∧
    build bareSettings units = .ok (graph, stats) ∧ test units = true := by
  rw [unitsBuild] at h
  split at h
  · rename_i units hunits
    obtain ⟨hsome, htest⟩ := Bool.and_eq_true_iff.mp h
    cases hbuild : build bareSettings units with
    | ok built => exact ⟨units, built.1, built.2, parseAll_of_unitsOfChars hunits, hbuild, htest⟩
    | error error =>
      rw [hbuild] at hsome
      cases hsome
  · cases h

/-- The class in the middle runs its two blocks. -/
theorem blocksAllOver_run : ∃ units graph stats type v invoker path calls methods, parseAll blocksAllOver = .ok units ∧
    build bareSettings units = .ok (graph, stats) ∧ type ∈ classes bareSettings units ∧ (staticBlocks type).length = 2 ∧
    Carries graph (completeType type) v ∧ RunsInOrder graph v (staticBlocks type) invoker path calls methods := by
  obtain ⟨units, graph, stats, hparse, hbuild, htest⟩ := @exists_units
    (fun units => (classes bareSettings units).any fun type => (staticBlocks type).length == 2) blocksAllOver
    (by decide +kernel)
  obtain ⟨type, htype, htwo⟩ := any_eq_true.mp htest
  obtain ⟨⟨v, hv⟩, hruns⟩ := (staticBlocks_run hparse hbuild).2 type htype
  have htwo := beq_iff_eq.mp htwo
  obtain ⟨invoker, path, calls, methods, hrun⟩ := hruns v hv fun hnone => by rw [hnone] at htwo; cases htwo
  exact ⟨units, graph, stats, type, v, invoker, path, calls, methods, hparse, hbuild, htype, htwo, hv, hrun⟩

end Build

end ApexPaths
