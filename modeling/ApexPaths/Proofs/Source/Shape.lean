import ApexPaths.Proofs.Graph.Change
import ApexPaths.Proofs.TypeName
import ApexPaths.Source.Tree

/-!
The shape of source trees: what a node of each kind may hold. A shape looks at one node and the kinds
of its children; a tree is well shaped when all its nodes are. Blocks for loops that do not run stand
in completed trees only; static blocks and accessors stand in trees as they are read only.
-/

set_option autoImplicit false

namespace ApexPaths.NodeKind

/-- The kinds that stand in a block. -/
def isStatement (kind : NodeKind) : Bool := kind.isSimple || kind.isCompound || kind == .blockStatement

/-- Nodes that hold only expressions and declarations of variables. -/
def isPart : NodeKind → Bool
  | .standardCondition | .literalCase | .identifierCase | .mapEntryNode | .variableDeclaration | .fieldDeclaration
  | .parameter => true
  | kind => kind.isExpression

/-- The kinds that stand as an operand. -/
def isOperand (kind : NodeKind) : Bool := kind.isPart && kind != .variableDeclaration

/-- Nodes with a name and a declared type: variables, parameters, caught exceptions, typed cases and properties. -/
def isTyped : NodeKind → Bool
  | .variableDeclaration | .parameter | .catchBlockStatement | .typeWhenBlock | .propertyDeclaration => true
  | _ => false

/-- The kinds that stand in a type. -/
def isMember : NodeKind → Bool
  | .method | .staticBlock | .propertyDeclaration | .fieldDeclarationStatements | .userClass | .userInterface
  | .userEnum => true
  | _ => false

def isAccessor (kind : NodeKind) : Bool := kind == .propertyGetter || kind == .propertySetter

/-- The kinds that stand inside a body. -/
def isInner : NodeKind → Bool
  | .ifBlockStatement | .valueWhenBlock | .typeWhenBlock | .elseWhenBlock | .catchBlockStatement => true
  | kind => kind.isStatement || kind.isPart

variable {kind : NodeKind}

theorem isInner_of_isPart (h : kind.isPart = true) : kind.isInner = true := by
  cases kind <;> first | rfl | exact h

theorem isPart_of_isOperand (h : kind.isOperand = true) : kind.isPart = true := (Bool.and_eq_true_iff.mp h).1

theorem isInner_of_isOperand (h : kind.isOperand = true) : kind.isInner = true :=
  isInner_of_isPart (isPart_of_isOperand h)

theorem isPart_of_isExpression (h : kind.isExpression = true) : kind.isPart = true := by
  cases kind <;> first | rfl | exact h

/-- The kinds of nodes that stand directly in a node of a kind. -/
def mayHold : NodeKind → NodeKind → Bool
  | .blockStatement, child => child.isStatement
  | .ifElseBlockStatement, child => child == .ifBlockStatement || child == .blockStatement
  | .ifBlockStatement, child | .whileLoopStatement, child | .doLoopStatement, child =>
    child == .standardCondition || child == .blockStatement
  | .forEachStatement, child =>
    child == .variableDeclarationStatements || child.isExpression || child == .blockStatement
  | .forLoopStatement, child =>
    child == .variableDeclarationStatements || child == .expressionStatement || child == .standardCondition ||
    child == .blockStatement
  | .switchStatement, child => child.isExpression || child.isWhenBlock
  | .valueWhenBlock, child | .typeWhenBlock, child | .elseWhenBlock, child =>
    child.isOperand || child == .blockStatement
  | .tryCatchFinallyBlockStatement, child => child == .blockStatement || child == .catchBlockStatement
  | .catchBlockStatement, child | .staticBlock, child | .propertyGetter, child | .propertySetter, child =>
    child == .blockStatement
  | .userClass, child | .userInterface, child => child.isMember
  | .userEnum, _ => false
  | .userTrigger, child => child == .method || child == .blockStatement
  | .method, child => child == .parameter || child == .blockStatement
  | .propertyDeclaration, child => child.isAccessor
  | .variableDeclarationStatements, child => child == .variableDeclaration
  | _, child => child.isOperand

/-- Nodes whose children are evaluated: expressions, the entries of maps, and simple statements with their parts. -/
def evaluates : NodeKind → Bool
  | .mapEntryNode | .variableDeclaration | .standardCondition => true
  | kind => kind.isExpression || kind.isSimple && kind != .variableDeclarationStatements

/-- The numbers of children that a node of a kind may have. -/
def mayHave : NodeKind → Nat → Bool
  | .literalExpression, n | .referenceExpression, n | .emptyReferenceExpression, n | .thisVariableExpression, n
  | .superVariableExpression, n | .soqlExpression, n | .classRefExpression, n => n == 0
  | .variableExpression, n | .prefixExpression, n | .postfixExpression, n | .castExpression,
      n | .instanceOfExpression, n
  | .standardCondition, n => n == 1
  | .binaryExpression, n | .booleanExpression, n | .arrayLoadExpression, n | .assignmentExpression,
      n | .mapEntryNode, n =>
    n == 2
  | .ternaryExpression, n => n == 3
  | .expressionStatement, n | .returnStatement, n | .variableDeclaration, n => n ≤ 1
  | _, _ => true

/-- The kinds of nodes that are evaluated for a node of a kind. -/
def mayEvaluate : NodeKind → NodeKind → Bool
  | .newMapLiteralExpression, child => child == .mapEntryNode
  | kind, child => !kind.evaluates || child.isExpression

theorem isPart_of_mayHold {child : NodeKind} (h : kind.mayHold child = true)
    (hkind : kind.isPart = true ∨ kind.isSimple = true) : child.isPart = true := by
  cases kind
  case variableDeclarationStatements => rw [beq_iff_eq.mp (show (child == .variableDeclaration) = true from h), isPart]
  all_goals first | exact isPart_of_isOperand h | exact absurd hkind (by decide)

theorem isInner_of_mayHold {child : NodeKind} (h : kind.mayHold child = true) (hkind : kind.isInner = true) :
    child.isInner = true := by
  cases child
  case userClass | userInterface | userEnum | userTrigger | method | fieldDeclarationStatements |
      propertyDeclaration | staticBlock | propertyGetter | propertySetter =>
    cases kind <;> first | exact absurd h (by decide) | exact absurd hkind (by decide)
  all_goals rfl

/-- Declarators stand in the statements that declare variables, and nothing else stands there. -/
theorem declarator_iff_of_mayHold {child : NodeKind} (h : kind.mayHold child = true) :
    child = .variableDeclaration ↔ kind = .variableDeclarationStatements := by
  constructor
  · rintro rfl
    cases kind <;> first | rfl | exact absurd h (by decide)
  · rintro rfl
    exact beq_iff_eq.mp h

/-- Types stand in types, and so do the statements that declare fields. -/
theorem isTypeDeclaration_of_mayHold {child : NodeKind} (h : kind.mayHold child = true)
    (hchild : child.isTypeDeclaration = true ∨ child = .fieldDeclarationStatements) : kind.isTypeDeclaration =
    true := by
  have hmember : child = .userClass ∨ child = .userInterface ∨ child = .userEnum ∨ child = .userTrigger ∨
      child = .fieldDeclarationStatements := by
    cases child <;> first | exact absurd hchild (by decide) | decide
  rcases hmember with rfl | rfl | rfl | rfl | rfl <;> cases kind <;> first | rfl | exact absurd h (by decide)

end ApexPaths.NodeKind

namespace ApexPaths.Source.Tree

open List

/-! ## Nodes -/

mutual

/-- The nodes of a tree in pre-order, but none below those whose kind `enters` refuses. -/
def nodesWhere (enters : NodeKind → Bool) : Tree → List Tree
  | ⟨kind, span, props, children⟩ =>
    ⟨kind, span, props, children⟩ :: if enters kind then nodesOfWhere enters children else []

def nodesOfWhere (enters : NodeKind → Bool) : List Tree → List Tree
  | [] => []
  | tree :: rest => tree.nodesWhere enters ++ nodesOfWhere enters rest

end

/-- All nodes of a tree, the root first. -/
def nodes (tree : Tree) : List Tree := tree.nodesWhere fun _ => true

variable {enters : NodeKind → Bool}

theorem mem_nodesOfWhere {node : Tree} {trees : List Tree} :
    node ∈ nodesOfWhere enters trees ↔ ∃ tree ∈ trees, node ∈ tree.nodesWhere enters := by
  induction trees with
  | nil => simp [nodesOfWhere]
  | cons tree rest ih => simp [nodesOfWhere, ih]

variable {tree : Tree}

theorem mem_nodesWhere {node : Tree} : node ∈ tree.nodesWhere enters ↔
    node = tree ∨ enters tree.kind = true ∧ ∃ child ∈ tree.children, node ∈ child.nodesWhere enters := by
  obtain ⟨kind, span, props, children⟩ := tree
  rw [nodesWhere, mem_cons]
  cases h : enters kind with
  | false => simp
  | true => simp [mem_nodesOfWhere]

theorem mem_nodes {node : Tree} : node ∈ tree.nodes ↔ node = tree ∨ ∃ child ∈ tree.children, node ∈ child.nodes := by
  rw [nodes, mem_nodesWhere]
  simp only [true_and, nodes]

theorem self_mem_nodes (tree : Tree) : tree ∈ tree.nodes := mem_nodes.mpr (.inl rfl)

mutual

/-- What holds of a tree when it holds of its children holds of every tree. -/
theorem induct {motive : Tree → Prop} (step : ∀ tree : Tree, (∀ child ∈ tree.children, motive child) → motive tree) :
    (tree : Tree) → motive tree
  | ⟨kind, span, props, children⟩ => step ⟨kind, span, props, children⟩ (inductAll step children)

theorem inductAll {motive : Tree → Prop} (step : ∀ tree : Tree, (∀ child ∈ tree.children, motive child) → motive tree) :
    (trees : List Tree) → ∀ tree ∈ trees, motive tree
  | [] => by simp
  | tree :: rest => by
    have hfirst := induct step tree
    have hrest := inductAll step rest
    exact forall_mem_cons.mpr ⟨hfirst, hrest⟩

end

theorem mem_nodes_of_mem_nodesWhere {node : Tree} (h : node ∈ tree.nodesWhere enters) :
    node ∈ tree.nodes := by
  induction tree using Tree.induct with
  | step tree ih =>
    rcases mem_nodesWhere.mp h with rfl | ⟨-, child, hchild, hnode⟩
    · exact self_mem_nodes _
    · exact mem_nodes.mpr (.inr ⟨child, hchild, ih child hchild hnode⟩)

theorem nodes_trans {a b c : Tree} (hab : b ∈ a.nodes) (hbc : c ∈ b.nodes) : c ∈ a.nodes := by
  induction a using Tree.induct with
  | step a ih =>
    rcases mem_nodes.mp hab with rfl | ⟨child, hchild, hb⟩
    · exact hbc
    · exact mem_nodes.mpr (.inr ⟨child, hchild, ih child hchild hb⟩)

/-! ## Shapes -/

/-- The blocks of a loop: its body, and in completed trees perhaps the block for not running it. -/
def LoopBlocks (completed : Bool) (blocks : List Tree) : Prop :=
  ∃ body skip, blocks = body :: Option.toList skip ∧ body.kind = .blockStatement ∧ body.props = [] ∧
    (∀ block ∈ skip, block.kind = .blockStatement ∧ block.props = [(.fact .isImplicit, .flag true)]) ∧
    (completed = false → skip = none)

/-- The node declares variables and gives them no values. -/
structure DeclaresOnly (tree : Tree) : Prop where
  kind_eq : tree.kind = .variableDeclarationStatements
  bare : ∀ declaration ∈ tree.children, declaration.kind = .variableDeclaration ∧ declaration.children = []

/-- The shape of a node of each kind: its properties and its children. -/
def Holds (completed : Bool) (kind : NodeKind) (props : PropertyMap) (children : List Tree) : Prop :=
  match kind with
  | .blockStatement => ∀ child ∈ children, child.kind.isStatement = true
  | .ifElseBlockStatement =>
    ∃ branches otherwise, children = branches ++ Option.toList otherwise ∧ branches ≠ [] ∧
      (∀ branch ∈ branches, branch.kind = .ifBlockStatement) ∧ ∀ block ∈ otherwise, block.kind = .blockStatement
  | .ifBlockStatement =>
    ∃ test body, children = [test, body] ∧ test.kind = .standardCondition ∧ body.kind = .blockStatement
  | .whileLoopStatement =>
    ∃ test blocks, children = test :: blocks ∧ test.kind = .standardCondition ∧ LoopBlocks completed blocks
  | .forEachStatement =>
    ∃ variable_ iterable blocks, children = variable_ :: iterable :: blocks ∧
      DeclaresOnly variable_ ∧ iterable.kind.isExpression = true ∧ LoopBlocks completed blocks
  | .forLoopStatement =>
    ∃ init test update blocks, children = Option.toList init ++ Option.toList test ++ Option.toList update ++ blocks ∧
      props = [(.fact .hasInit, .flag init.isSome), (.fact .hasCondition, .flag test.isSome),
        (.fact .hasUpdate, .flag update.isSome)] ∧
      (∀ node ∈ init, node.kind = .variableDeclarationStatements ∨ node.kind = .expressionStatement) ∧
      (∀ node ∈ test, node.kind = .standardCondition) ∧ (∀ node ∈ update, node.kind = .expressionStatement) ∧
      LoopBlocks completed blocks
  | .doLoopStatement =>
    ∃ body test, children = [body, test] ∧ body.kind = .blockStatement ∧ test.kind = .standardCondition
  | .switchStatement =>
    ∃ subject whens, children = subject :: whens ∧ subject.kind.isExpression = true ∧
      ∀ clause ∈ whens, clause.kind.isWhenBlock = true
  | .valueWhenBlock | .typeWhenBlock | .elseWhenBlock =>
    ∃ cases body, children = cases ++ [body] ∧ (∀ case ∈ cases, case.kind.isOperand = true) ∧
    body.kind = .blockStatement
  | .tryCatchFinallyBlockStatement =>
    ∃ body catches final, children = body :: (catches ++ Option.toList final) ∧
      props = [(.fact .hasFinally, .flag final.isSome)] ∧ body.kind = .blockStatement ∧
      (∀ clause ∈ catches, clause.kind = .catchBlockStatement) ∧ ∀ block ∈ final, block.kind = .blockStatement
  | .catchBlockStatement | .staticBlock => ∃ body, children = [body] ∧ body.kind = .blockStatement
  | .userClass | .userInterface =>
    ∀ child ∈ children, child.kind.isMember = true ∧ (completed = true → child.kind ≠ .staticBlock)
  | .userEnum => children = []
  | .userTrigger =>
    ∃ body, children = [body] ∧ body.kind = if completed then .method else .blockStatement
  | .method =>
    ∃ params body, children = params ++ Option.toList body ∧ (∀ param ∈ params, param.kind = .parameter) ∧
      ∀ block ∈ body, block.kind = .blockStatement
  | .propertyDeclaration => ∀ child ∈ children, child.kind.isAccessor = true ∧ completed = false
  | .propertyGetter | .propertySetter =>
    ∃ body, children = Option.toList body ∧ ∀ block ∈ body, block.kind = .blockStatement
  | .variableDeclarationStatements => ∀ child ∈ children, child.kind = .variableDeclaration
  | _ => ∀ child ∈ children, child.kind.isOperand = true

variable {completed : Bool}

theorem LoopBlocks.kind_eq {blocks : List Tree} (h : LoopBlocks completed blocks) :
    ∀ block ∈ blocks, block.kind = .blockStatement := by
  obtain ⟨body, skip, rfl, hbody, -, hskip, -⟩ := h
  exact forall_mem_cons.mpr ⟨hbody, fun block hblock => (hskip block (Option.mem_toList.mp hblock)).1⟩

variable {props : PropertyMap}

/-- A node has only children that its kind may hold. -/
theorem Holds.mayHold {kind : NodeKind} {children : List Tree}
    (h : Holds completed kind props children) : ∀ child ∈ children, kind.mayHold child.kind = true := by
  cases kind
  case ifElseBlockStatement =>
    obtain ⟨branches, otherwise, rfl, -, hbranches, hotherwise⟩ := h
    exact forall_mem_append.mpr ⟨fun branch hb => hbranches branch hb ▸ rfl,
      fun block hb => hotherwise block (Option.mem_toList.mp hb) ▸ rfl⟩
  case ifBlockStatement =>
    obtain ⟨test, body, rfl, ht, hb⟩ := h
    exact forall_mem_cons.mpr ⟨ht ▸ rfl, forall_mem_singleton.mpr (hb ▸ rfl)⟩
  case whileLoopStatement =>
    obtain ⟨test, blocks, rfl, ht, hblocks⟩ := h
    exact forall_mem_cons.mpr ⟨ht ▸ rfl, fun block hb => hblocks.kind_eq block hb ▸ rfl⟩
  case forEachStatement =>
    obtain ⟨variable_, iterable, blocks, rfl, hv, hi, hblocks⟩ := h
    refine forall_mem_cons.mpr ⟨hv.kind_eq ▸ rfl,
      forall_mem_cons.mpr ⟨?_, fun block hb => hblocks.kind_eq block hb ▸ rfl⟩⟩
    simp [NodeKind.mayHold, hi]
  case forLoopStatement =>
    obtain ⟨init, test, update, blocks, rfl, -, hinit, ht, hupdate, hblocks⟩ := h
    simp only [forall_mem_append, Option.mem_toList]
    refine ⟨⟨⟨fun node hn => ?_, fun node hn => ht node hn ▸ rfl⟩, fun node hn => hupdate node hn ▸ rfl⟩,
      fun block hb => hblocks.kind_eq block hb ▸ rfl⟩
    rcases hinit node hn with e | e <;> rw [e] <;> rfl
  case doLoopStatement =>
    obtain ⟨body, test, rfl, hb, ht⟩ := h
    exact forall_mem_cons.mpr ⟨hb ▸ rfl, forall_mem_singleton.mpr (ht ▸ rfl)⟩
  case switchStatement =>
    obtain ⟨subject, whens, rfl, hs, hwhens⟩ := h
    refine forall_mem_cons.mpr ⟨?_, fun clause hc => ?_⟩
    · simp [NodeKind.mayHold, hs]
    · simp [NodeKind.mayHold, hwhens clause hc]
  case valueWhenBlock | typeWhenBlock | elseWhenBlock =>
    obtain ⟨cases, body, rfl, hcases, hb⟩ := h
    refine forall_mem_append.mpr ⟨fun case hc => ?_, forall_mem_singleton.mpr (hb ▸ rfl)⟩
    simp [NodeKind.mayHold, hcases case hc]
  case tryCatchFinallyBlockStatement =>
    obtain ⟨body, catches, final, rfl, -, hb, hcatches, hfinal⟩ := h
    refine forall_mem_cons.mpr
      ⟨hb ▸ rfl, forall_mem_append.mpr ⟨fun clause hc => hcatches clause hc ▸ rfl, ?_⟩⟩
    exact fun block hb => hfinal block (Option.mem_toList.mp hb) ▸ rfl
  case catchBlockStatement | staticBlock =>
    obtain ⟨body, rfl, hb⟩ := h
    exact forall_mem_singleton.mpr (hb ▸ rfl)
  case userClass | userInterface => exact fun child hchild => (h child hchild).1
  case userEnum =>
    rw [show children = [] from h]
    simp
  case userTrigger =>
    obtain ⟨body, rfl, hb⟩ := h
    refine forall_mem_singleton.mpr ?_
    rw [hb]
    split <;> rfl
  case method =>
    obtain ⟨params, body, rfl, hparams, hb⟩ := h
    exact forall_mem_append.mpr ⟨fun param hp => hparams param hp ▸ rfl,
      fun block hblock => hb block (Option.mem_toList.mp hblock) ▸ rfl⟩
  case propertyDeclaration => exact fun child hchild => (h child hchild).1
  case propertyGetter | propertySetter =>
    obtain ⟨body, rfl, hb⟩ := h
    exact fun block hblock => hb block (Option.mem_toList.mp hblock) ▸ rfl
  case variableDeclarationStatements => exact fun child hchild => beq_iff_eq.mpr (h child hchild)
  all_goals exact h

/-- The properties leave those keys free that only the graph sets. -/
def FreeKeys (props : PropertyMap) : Prop := ∀ entry ∈ props, entry.1 ≠ .fact .childIdx ∧ entry.1 ≠ .fact .endScopes

@[simp] theorem freeKeys_nil : FreeKeys [] := by simp [FreeKeys]

variable {entry : Key × PropertyValue}

@[simp] theorem freeKeys_cons : FreeKeys (entry :: props) ↔
    (entry.1 ≠ .fact .childIdx ∧ entry.1 ≠ .fact .endScopes) ∧ FreeKeys props := forall_mem_cons

theorem FreeKeys.cons {props : PropertyMap}
    (hentry : entry.1 ≠ .fact .childIdx ∧ entry.1 ≠ .fact .endScopes) (h : FreeKeys props) :
    FreeKeys (entry :: props) := freeKeys_cons.mpr ⟨hentry, h⟩

theorem FreeKeys.append {first second : PropertyMap} (h : FreeKeys first) (h' : FreeKeys second) :
    FreeKeys (first ++ second) := forall_mem_append.mpr ⟨h, h'⟩

theorem FreeKeys.put (h : FreeKeys props) {key : Key} {value : PropertyValue}
    (hkey : key ≠ .fact .childIdx ∧ key ≠ .fact .endScopes) : FreeKeys (props.put key value) := by
  induction props with
  | nil => exact .cons hkey h
  | cons entry rest ih =>
    obtain ⟨hentry, hrest⟩ := freeKeys_cons.mp h
    rw [PropertyMap.put]
    split
    · exact .cons hkey hrest
    · exact .cons hentry (ih hrest)

/-- The properties hold a name and one type, which is spelled as sources spell types. -/
def Spells (props : PropertyMap) : Prop :=
  ∃ name type, props.written (.spelled .name) = some (.text name) ∧ props.written (.spelled .type) = some (.text type) ∧
    props.text? (.spelled .type) = some type ∧ TypeName.IsWritten type.toList

/-- The properties hold one type, which is spelled as sources spell types. -/
def SpellsType (props : PropertyMap) : Prop :=
  ∃ type, props.written (.spelled .type) = some (.text type) ∧ TypeName.IsWritten type.toList

/-- A node has the operands that its kind asks for. -/
structure Apt (kind : NodeKind) (props : PropertyMap) (children : List Tree) : Prop where
  count : kind.mayHave children.length = true
  parts : ∀ child ∈ children, kind.mayEvaluate child.kind = true
  creates : kind = .newObjectExpression → SpellsType props

theorem Apt.of_idle {kind : NodeKind} {children : List Tree} (h : kind.evaluates = false) :
    Apt kind props children := by
  constructor
  · cases kind <;> first | rfl | exact absurd h (by decide)
  · intro child _
    cases kind <;> first | rfl | exact absurd h (by decide)
  · rintro rfl
    exact absurd h (by decide)

/-- A node is well shaped. -/
structure Formed (completed : Bool) (tree : Tree) : Prop where
  freeKeys : FreeKeys tree.props
  holds : Holds completed tree.kind tree.props tree.children
  spells : tree.kind.isTyped = true → Spells tree.props
  apt : Apt tree.kind tree.props tree.children

theorem Formed.of_untyped (hkeys : FreeKeys tree.props)
    (hholds : Holds completed tree.kind tree.props tree.children) (hapt : Apt tree.kind tree.props tree.children)
    (hkind : tree.kind.isTyped = false) : tree.Formed completed :=
  ⟨hkeys, hholds, fun h => absurd (hkind.symm.trans h) (by decide), hapt⟩

theorem Formed.of_plain (hkeys : FreeKeys tree.props)
    (hholds : Holds completed tree.kind tree.props tree.children)
    (hkind : (tree.kind.isTyped || tree.kind.evaluates) = false) :
    tree.Formed completed :=
  .of_untyped hkeys hholds (.of_idle (Bool.or_eq_false_iff.mp hkind).2) (Bool.or_eq_false_iff.mp hkind).1

/-- All nodes of a tree have the shape of their kind. -/
def Well (completed : Bool) (tree : Tree) : Prop := ∀ node ∈ tree.nodes, node.Formed completed

theorem well_iff :
    tree.Well completed ↔ tree.Formed completed ∧ ∀ child ∈ tree.children, child.Well completed := by
  constructor
  · intro h
    exact ⟨h tree tree.self_mem_nodes, fun child hchild node hnode =>
      h node (mem_nodes.mpr (.inr ⟨child, hchild, hnode⟩))⟩
  · rintro ⟨htree, hchildren⟩ node hnode
    rcases mem_nodes.mp hnode with rfl | ⟨child, hchild, hnode⟩
    · exact htree
    · exact hchildren child hchild node hnode

theorem Well.formed (h : tree.Well completed) : tree.Formed completed := (well_iff.mp h).1

theorem Well.child {completed : Bool} {tree child : Tree} (h : tree.Well completed) (hc : child ∈ tree.children) :
    child.Well completed := (well_iff.mp h).2 child hc

theorem Well.node {completed : Bool} {tree node : Tree} (h : tree.Well completed) (hnode : node ∈ tree.nodes) :
    node.Well completed := fun inner hinner => h inner (nodes_trans hnode hinner)

theorem Well.isPart (h : tree.Well completed) (hkind : tree.kind.isPart = true) :
    ∀ node ∈ tree.nodes, node.kind.isPart = true := by
  induction tree using Tree.induct with
  | step tree ih =>
    intro node hnode
    rcases mem_nodes.mp hnode with rfl | ⟨child, hchild, hnode⟩
    · exact hkind
    · exact ih child hchild (h.child hchild)
        (NodeKind.isPart_of_mayHold (h.formed.holds.mayHold child hchild) (.inl hkind)) node hnode

theorem Well.isInner (h : tree.Well completed) (hkind : tree.kind.isInner = true) :
    ∀ node ∈ tree.nodes, node.kind.isInner = true := by
  induction tree using Tree.induct with
  | step tree ih =>
    intro node hnode
    rcases mem_nodes.mp hnode with rfl | ⟨child, hchild, hnode⟩
    · exact hkind
    · exact ih child hchild (h.child hchild) (NodeKind.isInner_of_mayHold (h.formed.holds.mayHold child hchild) hkind)
        node hnode

theorem LoopBlocks.mono {blocks : List Tree} (h : LoopBlocks false blocks) : LoopBlocks true blocks := by
  obtain ⟨body, skip, he, hkind, hprops, hskip, -⟩ := h
  exact ⟨body, skip, he, hkind, hprops, hskip, by simp⟩

/-- What stands in a body as it is read may stand in a completed one. -/
theorem Well.mono (h : tree.Well false) (hkind : tree.kind.isInner = true) : tree.Well true := by
  intro node hnode
  refine ⟨(h node hnode).freeKeys, ?_, (h node hnode).spells, (h node hnode).apt⟩
  have hinner := h.isInner hkind node hnode
  have hholds := (h node hnode).holds
  generalize node.kind = kind at hinner hholds
  cases kind
  case whileLoopStatement =>
    obtain ⟨test, blocks, he, ht, hblocks⟩ := hholds
    exact ⟨test, blocks, he, ht, hblocks.mono⟩
  case forEachStatement =>
    obtain ⟨variable_, iterable, blocks, he, hv, hi, hblocks⟩ := hholds
    exact ⟨variable_, iterable, blocks, he, hv, hi, hblocks.mono⟩
  case forLoopStatement =>
    obtain ⟨init, test, update, blocks, he, hprops, hinit, ht, hupdate, hblocks⟩ := hholds
    exact ⟨init, test, update, blocks, he, hprops, hinit, ht, hupdate, hblocks.mono⟩
  all_goals first | exact hholds | exact absurd hinner (by decide)

end ApexPaths.Source.Tree
