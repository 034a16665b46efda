import ApexPaths.Graph.View
import ApexPaths.Proofs.Build.Order

/-!
Operands in graphs. Every expression has as many children as it has operands, what is evaluated for a node are
expressions, what is created has a type, and the variable of a loop over a collection has no value of its own.

What a node tells of itself. A method tells how many parameters it has, and a literal which kind of literal it is. Both
are so in the trees that are read, in the methods that completion makes of static blocks, accessors and triggers, and
hence in every graph that is built from sources.
-/

set_option autoImplicit false

namespace ApexPaths.CodeGraph

/-- A vertex has the operands that its label asks for. -/
structure OperandsAt (graph : CodeGraph) (v : VertexId) : Prop where
  count : (graph.labelOf v).mayHave (graph.children v).length = true
  parts : ∀ c ∈ graph.children v, (graph.labelOf v).mayEvaluate (graph.labelOf c) = true
  creates : graph.labelOf v = .newObjectExpression →
    ∃ type, graph.text? v (.spelled .type) = some type ∧ TypeName.IsWritten type.toList
  declares : graph.labelOf v = .variableDeclarationStatements → ∀ c ∈ graph.children v,
    graph.labelOf c = .variableDeclaration
  elements : graph.labelOf v = .forEachStatement → ∀ c ∈ graph.children v,
    graph.labelOf c = .variableDeclarationStatements → ∀ declaration ∈ graph.children c, graph.children declaration = []
  iterable : graph.labelOf v = .forEachStatement → ∀ c ∈ graph.childAt? v 1, (graph.labelOf c).isExpression = true

/-- Every vertex has its operands, and it is a child of its parent. -/
structure HasOperands (graph : CodeGraph) : Prop where
  operandsAt : ∀ v, graph.OperandsAt v
  mem_children : ∀ {v p}, graph.parent? v = some p → v ∈ graph.children p

theorem SameTree.hasOperands {graph graph' : CodeGraph} (same : SameTree graph graph') (h : graph.HasOperands) :
    graph'.HasOperands := by
  have hlabel : ∀ v, graph'.labelOf v = graph.labelOf v := fun v => by rw [labelOf, labelOf, same.label?_eq]
  refine ⟨fun v => ?_, fun {v p} hp => ?_⟩
  case refine_2 =>
    rw [same.parent?_eq] at hp
    rw [same.children_eq]
    exact h.mem_children hp
  obtain ⟨hcount, hparts, hcreates, hdeclares, helements, hiterable⟩ := h.operandsAt v
  constructor
  · rwa [hlabel, same.children_eq]
  · intro c hc
    rw [same.children_eq] at hc
    rw [hlabel, hlabel]
    exact hparts c hc
  · intro hv
    rw [hlabel] at hv
    rw [same.text?_eq v rfl]
    exact hcreates hv
  · intro hv c hc
    rw [hlabel] at hv
    rw [same.children_eq] at hc
    rw [hlabel]
    exact hdeclares hv c hc
  · intro hv c hc hdeclares declaration hdeclaration
    rw [hlabel] at hv hdeclares
    rw [same.children_eq] at hc hdeclaration ⊢
    exact helements hv c hc hdeclares declaration hdeclaration
  · intro hv c hc
    rw [hlabel] at hv
    rw [childAt?, same.children_eq] at hc
    rw [hlabel]
    exact hiterable hv c hc

theorem operandsAt_missing {graph : CodeGraph} {v : VertexId} (hv : graph.vertexCount ≤ v) : graph.OperandsAt v := by
  have hlabel : graph.labelOf v = .blockStatement := by
    have hnone : graph.vertex? v = none := Array.getElem?_eq_none hv
    simp [labelOf, label?, hnone]
  constructor
  · rw [hlabel]
    rfl
  · simp [graph.children_of_vertexCount_le hv]
  · simp [hlabel]
  · simp [hlabel]
  · simp [hlabel]
  · simp [hlabel]

end ApexPaths.CodeGraph

namespace ApexPaths.Build

open Source CodeGraph

section
variable {graph : CodeGraph} {tree : Tree} {v : VertexId} (h : Carries graph tree v)
include h

theorem Carries.labelOf_eq : graph.labelOf v = tree.kind := by
  rw [labelOf, h.label, Option.getD_some]

/-- A vertex has the operands of the node that it carries. -/
theorem Carries.operandsAt (hformed : tree.Formed true) : graph.OperandsAt v := by
  obtain ⟨-, hprops, hchildren⟩ := carries_iff.mp h
  constructor
  · rw [h.labelOf_eq, hchildren.length_eq]
    exact hformed.apt.count
  · intro c hc
    obtain ⟨child, hchild, hcarried⟩ := hchildren.exists_mem.2 c hc
    rw [h.labelOf_eq, hcarried.labelOf_eq]
    exact hformed.apt.parts child hchild
  · rw [h.labelOf_eq]
    intro hnew
    obtain ⟨type, hwritten, htype⟩ := hformed.apt.creates hnew
    refine ⟨type, ?_, htype⟩
    rw [CodeGraph.text?_eq, hprops (.spelled .type) rfl, hwritten]
    rfl
  · rw [h.labelOf_eq]
    intro hdeclares c hc
    obtain ⟨child, hchild, hcarried⟩ := hchildren.exists_mem.2 c hc
    have hholds := hformed.holds
    rw [hdeclares] at hholds
    rw [hcarried.labelOf_eq]
    exact hholds child hchild
  · rw [h.labelOf_eq]
    intro hloop c hc hdeclares declaration hdeclaration
    obtain ⟨child, hchild, hcarried⟩ := hchildren.exists_mem.2 c hc
    rw [hcarried.labelOf_eq] at hdeclares
    have hholds := hformed.holds
    rw [hloop] at hholds
    obtain ⟨variable_, iterable, blocks, he, hvariable, hiterable, hblocks⟩ := hholds
    -- Only the first child of such a loop declares variables.
    have hfirst : child = variable_ := by
      rw [he] at hchild
      rcases List.mem_cons.mp hchild with rfl | hchild
      · rfl
      rcases List.mem_cons.mp hchild with rfl | hchild
      · rw [hdeclares] at hiterable
        exact absurd hiterable (by decide)
      · rw [hblocks.kind_eq child hchild] at hdeclares
        exact absurd hdeclares (by decide)
    subst hfirst
    obtain ⟨declared, hdeclared, hbare⟩ := hcarried.children.exists_mem.2 declaration hdeclaration
    have hnone := hbare.children
    rwa [(hvariable.bare declared hdeclared).2] at hnone
  · rw [h.labelOf_eq]
    intro hloop c hc
    have hholds := hformed.holds
    rw [hloop] at hholds
    obtain ⟨variable_, iterable, blocks, he, -, hiterable, -⟩ := hholds
    obtain ⟨first, -, hids, -, second, more, rfl, hcarried, -⟩ := he ▸ hchildren
    rw [childAt?, hids] at hc
    cases hc
    rwa [hcarried.labelOf_eq]

end

/-- All expressions of a graph have their operands. -/
theorem Bears.hasOperands {graph : CodeGraph} {roots : List Tree} (bears : Bears graph roots)
    (hwell : ∀ root ∈ roots, root.Well true) : graph.HasOperands := by
  refine ⟨fun v => ?_, bears.planted.parent?_eq_some_iff.mp⟩
  by_cases hv : v < graph.vertexCount
  · obtain ⟨root, hroot, node, hnode, hcarries⟩ := bears.exists_node hv
    exact hcarries.operandsAt (hwell root hroot node hnode)
  · exact operandsAt_missing (Nat.not_lt.mp hv)

theorem hasOperands_of_build {settings : Settings} {units : List CompilationUnit} (hread : ∀ unit ∈ units, IsRead unit)
    {graph : CodeGraph} {stats : Stats} (hbuild : build settings units = .ok (graph, stats)) : graph.HasOperands :=
  (sameTree_of_build hread hbuild).hasOperands ((bears_typesGraph settings hread).hasOperands fun root hroot =>
  (well_allUnits settings hread root hroot).1)

end ApexPaths.Build

/-!
## Kinds of neighbours

A vertex stands under one that may hold its kind, and what has a declared type has a name too.
-/

namespace ApexPaths.CodeGraph

/-- Every vertex is of a kind that its parent may hold, and what has a declared type has a name. -/
structure HasKinds (graph : CodeGraph) : Prop where
  mayHold : ∀ {p c : VertexId}, c ∈ graph.children p → (graph.labelOf p).mayHold (graph.labelOf c) = true
  spells : ∀ {v : VertexId} {label : NodeKind}, graph.label? v = some label → label.isTyped = true →
    ∃ name type, graph.name? v = some name ∧ graph.text? v (.spelled .type) = some type ∧ TypeName.IsWritten type.toList

theorem SameTree.hasKinds {graph graph' : CodeGraph} (same : SameTree graph graph') (h : graph.HasKinds) :
    graph'.HasKinds where
  mayHold hc := by
    rw [same.children_eq] at hc
    rw [labelOf, labelOf, same.label?_eq, same.label?_eq]
    exact h.mayHold hc
  spells hlabel htyped := by
    rw [same.label?_eq] at hlabel
    rw [name?, same.text?_eq _ rfl, same.text?_eq _ rfl]
    exact h.spells hlabel htyped

end ApexPaths.CodeGraph

namespace ApexPaths.Build

open Source CodeGraph

theorem Bears.hasKinds {graph : CodeGraph} {roots : List Tree} (bears : Bears graph roots)
    (hwell : ∀ root ∈ roots, root.Well true) : graph.HasKinds := by
  constructor
  · intro p c hc
    have hp : p < graph.vertexCount := by
      have hparent := bears.planted.isForest.parent_of_mem hc
      exact Nat.lt_trans (bears.planted.isForest.parent_lt hparent) (lt_of_parent? hparent)
    obtain ⟨root, hroot, node, hnode, hcarries⟩ := bears.exists_node hp
    obtain ⟨child, hchild, hcarried⟩ := hcarries.children.exists_mem.2 c hc
    rw [hcarries.labelOf_eq, hcarried.labelOf_eq]
    exact (hwell root hroot node hnode).holds.mayHold child hchild
  · intro v label hlabel htyped
    have hv : v < graph.vertexCount := Nat.lt_of_not_le fun hle => by
      rw [label?, vertex?, Array.getElem?_eq_none hle] at hlabel
      cases hlabel
    obtain ⟨root, hroot, node, hnode, hcarries⟩ := bears.exists_node hv
    cases hcarries.label.symm.trans hlabel
    obtain ⟨name, type, hname, htype, -, hwritten⟩ := (hwell root hroot node hnode).spells htyped
    obtain ⟨-, hprops, -⟩ := carries_iff.mp hcarries
    refine ⟨name, type, ?_, ?_, hwritten⟩
    · rw [name?, CodeGraph.text?_eq, hprops (.spelled .name) rfl, hname]
      rfl
    · rw [CodeGraph.text?_eq, hprops (.spelled .type) rfl, htype]
      rfl

/-- In graphs that are built from sources the kinds of neighbours fit. -/
theorem hasKinds_of_build {settings : Settings} {units : List CompilationUnit} (hread : ∀ unit ∈ units, IsRead unit)
    {graph : CodeGraph} {stats : Stats} (hbuild : build settings units = .ok (graph, stats)) : graph.HasKinds :=
  (sameTree_of_build hread hbuild).hasKinds ((bears_typesGraph settings hread).hasKinds fun root hroot =>
  (well_allUnits settings hread root hroot).1)

end ApexPaths.Build

namespace ApexPaths.Source.Tree

variable {tree : Tree}

/-- What the properties of a node say of it is true. -/
def Truthful (tree : Tree) : Prop :=
  match tree.kind with
  | .method => tree.props.written (.fact .arity) = some (.int (tree.childrenOfKind .parameter).length)
  | .literalExpression => ∃ tag ∈ literalTags, tree.props.written (.fact .literalType) = some (.text tag)
  | _ => True

def AllTruthful (tree : Tree) : Prop := ∀ node ∈ tree.nodes, node.Truthful

theorem allTruthful_iff : tree.AllTruthful ↔ tree.Truthful ∧ ∀ child ∈ tree.children, child.AllTruthful := by
  constructor
  · exact fun h =>
      ⟨h tree tree.self_mem_nodes, fun child hchild node hnode => h node (mem_nodes.mpr (.inr ⟨child, hchild, hnode⟩))⟩
  · rintro ⟨htree, hchildren⟩ node hnode
    rcases mem_nodes.mp hnode with rfl | ⟨child, hchild, hnode⟩
    · exact htree
    · exact hchildren child hchild node hnode

theorem AllTruthful.child {tree child : Tree} (h : tree.AllTruthful) (hchild : child ∈ tree.children) :
    child.AllTruthful :=
  (allTruthful_iff.mp h).2 child hchild

theorem Truthful.of_untold (hmethod : tree.kind ≠ .method) (hliteral : tree.kind ≠ .literalExpression) :
    tree.Truthful := by
  rw [Truthful]
  split
  · exact absurd ‹_› hmethod
  · exact absurd ‹_› hliteral
  · trivial

theorem childrenOfKind_parameter {params : List Tree} {body : Option Tree}
    (hchildren : tree.children = params ++ body.toList) (hparams : ∀ param ∈ params, param.kind = .parameter)
    (hbody : ∀ block ∈ body, block.kind = .blockStatement) : tree.childrenOfKind .parameter = params := by
  rw [childrenOfKind, hchildren, List.filter_append,
    List.filter_eq_self.mpr fun param hparam => by simp [hparams param hparam]]
  cases body with
  | none => simp
  | some block => simp [hbody block rfl]

theorem Exact.truthful (h : tree.Exact) : tree.Truthful := by
  rw [Truthful]
  split
  · rename_i hkind
    rw [Exact, hkind] at h
    obtain ⟨params, body, hchildren, hparams, hbody, -, -, harity, -⟩ := h
    rw [childrenOfKind_parameter hchildren hparams hbody, harity]
  · rename_i hkind
    rw [Exact, hkind] at h
    exact h
  · trivial

theorem Read.allTruthful (h : tree.Read) : tree.AllTruthful := fun node hnode => (h.2 node hnode).truthful

end ApexPaths.Source.Tree

namespace ApexPaths.Build

open Source CodeGraph Tree List

variable {tree : Tree}

/-! ## Completion -/

theorem allTruthful_implicitBlock (span : Span) : (implicitBlock span).AllTruthful :=
  allTruthful_iff.mpr ⟨.of_untold (by simp [implicitBlock]) (by simp [implicitBlock]), by simp [implicitBlock]⟩

theorem childrenOfKind_completeStatements (tree : Tree) : ((completeStatements tree).childrenOfKind .parameter).length =
    (tree.childrenOfKind .parameter).length := by
  have hmissing : (missingBlocks tree.kind tree.span (tree.children.map completeStatements)).filter
      (·.kind == .parameter) = [] := by
    rcases missingBlocks_eq tree.kind tree.span (tree.children.map completeStatements) with he | he <;> rw [he] <;> rfl
  rw [childrenOfKind, completeStatements_eq, filter_append, hmissing, append_nil, filter_map,
    length_map, childrenOfKind]
  exact congrArg (fun p => (tree.children.filter p).length) (funext fun child => by simp)

theorem truthful_completeStatements (h : tree.Truthful) : (completeStatements tree).Truthful := by
  rw [Truthful, completeStatements_kind, completeStatements_props, childrenOfKind_completeStatements]
  exact h

theorem allTruthful_completeStatements (h : tree.AllTruthful) : (completeStatements tree).AllTruthful := by
  induction tree using Tree.induct with
  | step tree ih =>
    refine allTruthful_iff.mpr ⟨truthful_completeStatements (allTruthful_iff.mp h).1, ?_⟩
    rw [completeStatements_eq]
    refine forall_mem_append.mpr ⟨forall_mem_map.mpr fun child hchild => ih child hchild (h.child hchild), ?_⟩
    rcases missingBlocks_eq tree.kind tree.span (tree.children.map completeStatements) with he | he <;> rw [he]
    · simp
    · simpa using allTruthful_implicitBlock tree.span

theorem allTruthful_made (params : List Tree) {body : Tree} (hkind : tree.kind = .method)
    (hchildren : tree.children = params ++ [body]) (hparams : ∀ param ∈ params, param.kind = .parameter ∧
    param.children = [])
    (hblock : body.kind = .blockStatement) (hbody : body.AllTruthful)
    (harity : tree.props.written (.fact .arity) = some (.int params.length)) : tree.AllTruthful := by
  have hparameters : tree.childrenOfKind .parameter = params :=
    childrenOfKind_parameter (show tree.children = params ++ (some body).toList from hchildren)
    (fun param hparam => (hparams param hparam).1) (by simpa using hblock)
  refine allTruthful_iff.mpr ⟨?_, ?_⟩
  · rw [Truthful, hkind, hparameters]
    exact harity
  · rw [hchildren]
    refine forall_mem_append.mpr ⟨fun param hparam => ?_, by simpa using hbody⟩
    obtain ⟨hparam, hnone⟩ := hparams param hparam
    exact allTruthful_iff.mpr ⟨.of_untold (by simp [hparam]) (by simp [hparam]), by simp [hnone]⟩

theorem allTruthful_staticBlockMethod {block : Tree} (h : block.AllTruthful) (hwell : block.Well false)
    (hkind : block.kind = .staticBlock) (ordinal : Nat) : (staticBlockMethod ordinal block).AllTruthful := by
  obtain ⟨body, he, hb, -⟩ := staticBlock_children hwell hkind
  rw [staticBlockMethod, he]
  exact allTruthful_made [] rfl rfl (by simp) hb (h.child (by simp [he])) rfl

theorem allTruthful_staticBlockInvoker (span : Span) (blocks : List Span) :
    (staticBlockInvoker span blocks).AllTruthful := by
  refine allTruthful_made [] rfl rfl (by simp) rfl ?_ rfl
  refine allTruthful_iff.mpr ⟨.of_untold (by simp) (by simp), fun call hcall => ?_⟩
  obtain ⟨i, hi, rfl⟩ := mem_mapIdx.mp hcall
  have hother : ∀ node ∈ (staticBlockCall (i + 1) blocks[i]).nodes, node.kind ≠ .method ∧
      node.kind ≠ .literalExpression := by
    simp [staticBlockCall, Tree.nodes, Tree.nodesWhere, Tree.nodesOfWhere]
  exact fun node hnode => .of_untold (hother node hnode).1 (hother node hnode).2

theorem allTruthful_accessorMethod {property accessor method : Tree} (h : accessor.AllTruthful)
    (hwell : accessor.Well false) (hkind : accessor.kind.isAccessor = true)
    (hmethod : accessorMethod? property accessor = some method) : method.AllTruthful := by
  have hblock := (accessor_body hwell hkind).1
  have hbody : (completeStatements (accessor.children.getLast?.getD (implicitBlock accessor.span))).AllTruthful := by
    refine allTruthful_completeStatements ?_
    cases hlast : accessor.children.getLast? with
    | none => exact allTruthful_implicitBlock _
    | some body => exact h.child (mem_of_getLast? hlast)
  simp only [NodeKind.isAccessor, Bool.or_eq_true, beq_iff_eq] at hkind
  rcases hkind with hkind | hkind <;> simp only [accessorMethod?, hkind, Option.some.injEq] at hmethod <;> subst hmethod
  · exact allTruthful_made [] rfl rfl (by simp) (by simpa using hblock) hbody rfl
  · exact allTruthful_made [_] rfl rfl (by simp) (by simpa using hblock) hbody rfl

theorem allTruthful_completeMember {child : Tree} (h : child.AllTruthful) (hwell : child.Well false)
    (hnested : child.kind.isTypeDeclaration = true → (completeType child).AllTruthful) (ordinal : Nat) :
    ∀ member ∈ completeMember ordinal child, member.AllTruthful := by
  rw [completeMember]
  split
  · rename_i hk
    simpa using allTruthful_staticBlockMethod h hwell hk ordinal
  · rename_i hk
    have hholds := hwell.formed.holds
    rw [hk] at hholds
    refine forall_mem_cons.mpr ⟨allTruthful_iff.mpr ⟨.of_untold (by simp [hk]) (by simp [hk]), by simp⟩,
      fun method hmethod => ?_⟩
    obtain ⟨accessor, haccessor, hmethod⟩ := mem_filterMap.mp hmethod
    exact allTruthful_accessorMethod (h.child haccessor) (hwell.child haccessor) (hholds accessor haccessor).1 hmethod
  · refine forall_mem_singleton.mpr ?_
    split
    · exact hnested ‹_›
    · exact allTruthful_completeStatements h

theorem allTruthful_completeType (h : tree.AllTruthful) (hwell : tree.Well false)
    (hkind : tree.kind.isTypeDeclaration = true) : (completeType tree).AllTruthful := by
  induction tree using Tree.induct with
  | step tree ih =>
    have hkind_eq : (completeType tree).kind = tree.kind := by rw [completeType_eq]
    refine allTruthful_iff.mpr ⟨.of_untold ?_ ?_, ?_⟩
    · rw [hkind_eq]
      intro e
      exact absurd hkind (by rw [e]; decide)
    · rw [hkind_eq]
      intro e
      exact absurd hkind (by rw [e]; decide)
    · rw [completeType_eq]
      refine forall_mem_append.mpr ⟨forall_mem_completeMembers (fun child hchild ordinal => ?_) 1, ?_⟩
      · exact allTruthful_completeMember (h.child hchild) (hwell.child hchild)
          (ih child hchild (h.child hchild) (hwell.child hchild)) ordinal
      · split
        · simp
        · simpa using allTruthful_staticBlockInvoker _ _

theorem allTruthful_completeTrigger (h : tree.AllTruthful) (hwell : tree.Well false)
    (hkind : tree.kind = .userTrigger) : (completeTrigger tree).AllTruthful := by
  have hholds := hwell.formed.holds
  rw [hkind] at hholds
  obtain ⟨body, he, hb⟩ := hholds
  have hbody : body.kind = .blockStatement := hb
  rw [completeTrigger, he]
  refine allTruthful_iff.mpr ⟨.of_untold (by simp [Tree.put, hkind]) (by simp [Tree.put, hkind]),
    forall_mem_singleton.mpr ?_⟩
  exact allTruthful_made [] rfl rfl (by simp) (by simpa using hbody)
    (allTruthful_completeStatements (h.child (by simp [he]))) rfl

theorem allTruthful_complete {root : Tree} (h : root.Read) (hkind : root.kind.isTypeDeclaration = true) :
    (complete root).AllTruthful := by
  rw [complete]
  by_cases htrigger : root.kind = .userTrigger
  · rw [if_pos (by simp [htrigger])]
    exact allTruthful_completeTrigger h.allTruthful h.1 htrigger
  · rw [if_neg (by simpa using htrigger), if_pos hkind]
    exact allTruthful_completeType h.allTruthful h.1 hkind

/-! ## Graphs -/

theorem CarriesAll.length_filter {graph : CodeGraph} {trees : List Tree} {ids : List VertexId}
    (h : CarriesAll graph trees ids) (kind : NodeKind) : (ids.filter (graph.is · kind)).length =
    (trees.filter (·.kind == kind)).length := by
  induction trees generalizing ids with
  | nil =>
    rw [show ids = [] from h]
    rfl
  | cons tree rest ih =>
    obtain ⟨id, more, rfl, htree, hrest⟩ := h
    have hsame : graph.is id kind = (tree.kind == kind) := by rw [CodeGraph.is, htree.label]; rfl
    rw [filter_cons, filter_cons, hsame]
    split <;> simp [ih hrest]

end ApexPaths.Build

namespace ApexPaths.CodeGraph

/-- The vertices tell what is so: a method has as many parameters as it tells, and a literal has a known tag. -/
structure TellsTruth (graph : CodeGraph) : Prop where
  arity : ∀ {method : VertexId}, graph.is method .method = true →
    graph.declaredArity method = asWord (graph.parameters method).length
  tag : ∀ {expr : VertexId}, graph.is expr .literalExpression = true → graph.literalTag expr ∈ Source.Tree.literalTags

theorem SameTree.tellsTruth {graph graph' : CodeGraph} (same : SameTree graph graph') (h : graph.TellsTruth) :
    graph'.TellsTruth where
  arity {method} hmethod := by
    have hlabels : (graph'.is · .parameter) = (graph.is · .parameter) := funext fun v => same.is_eq v _
    rw [same.is_eq] at hmethod
    rw [declaredArity, int?_eq, same.property?_eq _ _ rfl, ← int?_eq, ← declaredArity, h.arity hmethod]
    simp only [parameters, childrenWithLabel, same.children_eq, hlabels, List.length_map]
  tag {expr} hexpr := by
    rw [same.is_eq] at hexpr
    rw [literalTag, same.text?_eq _ rfl]
    exact h.tag hexpr

end ApexPaths.CodeGraph

namespace ApexPaths.Build

open Source CodeGraph List

/-- What a graph says of arities and literals is true. -/
theorem Bears.tellsTruth {graph : CodeGraph} {roots : List Tree} (bears : Bears graph roots)
    (h : ∀ root ∈ roots, root.AllTruthful) : graph.TellsTruth := by
  have hnode : ∀ {v : VertexId} {kind : NodeKind}, graph.is v kind = true →
      ∃ node : Tree, node.kind = kind ∧ node.Truthful ∧ Carries graph node v := by
    intro v kind hv
    have hlabel := graph.is_iff.mp hv
    obtain ⟨root, hroot, node, hnode, hcarries⟩ := bears.exists_node (graph.lt_of_label? hlabel)
    exact ⟨node, Option.some.inj (hcarries.label.symm.trans hlabel), h root hroot node hnode, hcarries⟩
  constructor
  · intro method hmethod
    obtain ⟨node, hkind, htruthful, hcarries⟩ := hnode hmethod
    rw [Tree.Truthful, hkind] at htruthful
    have harity : graph.property? method (.fact .arity) = _ := (carries_iff.mp hcarries).2.1 (.fact .arity) rfl
    have hcount := hcarries.children.length_filter .parameter
    rw [declaredArity, int?_eq, harity, show node.props.written (.fact .arity) = _ from htruthful, parameters,
      length_map, childrenWithLabel, hcount]
    rfl
  · intro expr hexpr
    obtain ⟨node, hkind, htruthful, hcarries⟩ := hnode hexpr
    rw [Tree.Truthful, hkind] at htruthful
    obtain ⟨tag, htag, hwritten⟩ := htruthful
    have htype : graph.property? expr (.fact .literalType) = _ := (carries_iff.mp hcarries).2.1 (.fact .literalType) rfl
    rw [literalTag, CodeGraph.text?_eq, htype, hwritten]
    exact htag

variable {sources : List (String × String)} {units : List CompilationUnit}

/-- The units of a graph that is built from sources, the stubs among them, are types as they are read. -/
theorem read_allUnits (settings : Settings)
    (hparse : parseAll sources = .ok units) :
    ∀ unit ∈ allUnits settings units, unit.root.kind.isTypeDeclaration = true ∧ unit.root.Read := by
  refine forall_mem_append.mpr ⟨read_of_parseAll hparse, ?_⟩
  obtain ⟨found, hfound, -⟩ := exists_stubUnits
  rw [stubs, hfound]
  split
  · exact read_of_parseAll hfound
  · simp

/-- In graphs that are built from sources the vertices tell the truth. -/
theorem tellsTruth_of_build {settings : Settings}
    {graph : CodeGraph} {stats : Stats} (hparse : parseAll sources = .ok units)
    (hbuild : build settings units = .ok (graph, stats)) : graph.TellsTruth := by
  have hread := well_of_parseAll hparse
  have hall := read_allUnits settings hparse
  refine (sameTree_of_build hread hbuild).tellsTruth ((bears_typesGraph settings hread).tellsTruth ?_)
  exact forall_mem_map.mpr fun unit hunit => allTruthful_complete (hall unit hunit).2 (hall unit hunit).1

end ApexPaths.Build
