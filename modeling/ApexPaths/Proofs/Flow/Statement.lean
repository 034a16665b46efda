import ApexPaths.Flow.Synthesis
import ApexPaths.Proofs.Graph.Forest

/-!
Statements as data. A statement names the vertices that control passes in it; `Holds` says that a
graph has the statement at these vertices. `junctions` lists, vertex by vertex, where control goes and
which scopes end there, by recursion on the statement.
-/

namespace ApexPaths.Flow
set_option autoImplicit false

/-! ## Statements -/

mutual

/-- A statement and the vertices that control passes in it. -/
inductive Statement where
  | simple (id : VertexId)
  /-- A `return` or `throw`. -/
  | exit (id : VertexId)
  | breaks (id : VertexId)
  | continues (id : VertexId)
  | nested (block : Block)
  | ifElse (id : VertexId) (branches : List Branch) (otherwise : Option Block)
  /-- The block `skip` stands for not running the loop. -/
  | whileLoop (id condition : VertexId) (body : Block) (skip : Option Block)
  | forEach (id variable_ iterable : VertexId) (body : Block) (skip : Option Block)
  | forLoop (id : VertexId) (init condition update : Option VertexId) (body : Block) (skip : Option Block)
  | doLoop (id : VertexId) (body : Block) (condition : VertexId)
  | switch (id subject : VertexId) (whens : List Clause)
  | tryCatch (id : VertexId) (body : Block) (catches : List Clause) (final : Option Block)

/-- A condition of an `if` with its block. -/
inductive Branch where
  | mk (id condition : VertexId) (body : Block)

/-- A block under a heading of its own: a branch of a switch, with its cases, or a handler. -/
inductive Clause where
  | mk (id : VertexId) (kind : NodeKind) (cases : List VertexId) (body : Block)

/-- A block of statements. It is the syntax that flow is laid over. -/
inductive Block where
  | mk (id : VertexId) (body : List Statement)

end

def Block.id : Block → VertexId
  | .mk id _ => id

def Branch.id : Branch → VertexId
  | .mk id _ _ => id

def Clause.id : Clause → VertexId
  | .mk id _ _ _ => id

def Clause.cases : Clause → List VertexId
  | .mk _ _ cases _ => cases

def Branch.body : Branch → Block
  | .mk _ _ body => body

def Clause.body : Clause → Block
  | .mk _ _ _ body => body

def Statement.id : Statement → VertexId
  | .simple id | .exit id | .breaks id | .continues id => id
  | .nested block => block.id
  | .ifElse id _ _ | .whileLoop id _ _ _ | .forEach id _ _ _ _ | .forLoop id _ _ _ _ _ | .doLoop id _ _ => id
  | .switch id _ _ | .tryCatch id _ _ _ => id

/-! ## Induction -/

/-- What passes from the blocks of a statement to the statement and from the statements of a block to the block. -/
structure Statement.Inductive (P : Statement → Prop) (Q : Block → Prop) : Prop where
  simple : ∀ id, P (.simple id)
  exit : ∀ id, P (.exit id)
  breaks : ∀ id, P (.breaks id)
  continues : ∀ id, P (.continues id)
  nested : ∀ block, Q block → P (.nested block)
  ifElse : ∀ id branches otherwise, (∀ branch ∈ branches, Q branch.body) → (∀ block ∈ otherwise, Q block) →
    P (.ifElse id branches otherwise)
  whileLoop : ∀ id condition body skip, Q body → (∀ block ∈ skip, Q block) → P (.whileLoop id condition body skip)
  forEach : ∀ id variable_ iterable body skip, Q body → (∀ block ∈ skip, Q block) →
    P (.forEach id variable_ iterable body skip)
  forLoop : ∀ id init condition update body skip, Q body → (∀ block ∈ skip, Q block) →
    P (.forLoop id init condition update body skip)
  doLoop : ∀ id body condition, Q body → P (.doLoop id body condition)
  switch : ∀ id subject whens, (∀ clause ∈ whens, Q clause.body) → P (.switch id subject whens)
  tryCatch : ∀ id body catches final, Q body → (∀ clause ∈ catches, Q clause.body) → (∀ block ∈ final, Q block) →
    P (.tryCatch id body catches final)
  block : ∀ id body, (∀ statement ∈ body, P statement) → Q (.mk id body)

namespace Statement.Inductive

variable {P : Statement → Prop} {Q : Block → Prop}

mutual

theorem forall_statement (h : Statement.Inductive P Q) : (s : Statement) → P s
  | .simple id => h.simple id
  | .exit id => h.exit id
  | .breaks id => h.breaks id
  | .continues id => h.continues id
  | .nested block => h.nested block (h.forall_block block)
  | .ifElse id branches otherwise =>
    h.ifElse id branches otherwise (h.forall_branches branches) (h.forall_option otherwise)
  | .whileLoop id condition body skip => h.whileLoop id condition body skip (h.forall_block body) (h.forall_option skip)
  | .forEach id variable_ iterable body skip =>
    h.forEach id variable_ iterable body skip (h.forall_block body) (h.forall_option skip)
  | .forLoop id init condition update body skip =>
    h.forLoop id init condition update body skip (h.forall_block body) (h.forall_option skip)
  | .doLoop id body condition => h.doLoop id body condition (h.forall_block body)
  | .switch id subject whens => h.switch id subject whens (h.forall_clauses whens)
  | .tryCatch id body catches final =>
    h.tryCatch id body catches final (h.forall_block body) (h.forall_clauses catches) (h.forall_option final)

theorem forall_block (h : Statement.Inductive P Q) : (b : Block) → Q b
  | .mk id body => h.block id body (h.forall_statements body)

theorem forall_statements (h : Statement.Inductive P Q) : (body : List Statement) → ∀ statement ∈ body, P statement
  | [] => by simp
  | first :: rest => List.forall_mem_cons.mpr ⟨h.forall_statement first, h.forall_statements rest⟩

theorem forall_branches (h : Statement.Inductive P Q) : (branches : List Branch) → ∀ branch ∈ branches, Q branch.body
  | [] => by simp
  | .mk _ _ body :: rest => List.forall_mem_cons.mpr ⟨h.forall_block body, h.forall_branches rest⟩

theorem forall_clauses (h : Statement.Inductive P Q) : (clauses : List Clause) → ∀ clause ∈ clauses, Q clause.body
  | [] => by simp
  | .mk _ _ _ body :: rest => List.forall_mem_cons.mpr ⟨h.forall_block body, h.forall_clauses rest⟩

theorem forall_option (h : Statement.Inductive P Q) : (b : Option Block) → ∀ block ∈ b, Q block
  | none => by simp
  | some block => by simpa using h.forall_block block

end

end Statement.Inductive

/-! ## Statements of a graph -/

section
variable (graph : CodeGraph)

/-- A vertex is a statement without parts that control passes. -/
def IsPlain (id : VertexId) : Prop :=
  ∃ label, graph.label? id = some label ∧ label.isSimple = true ∧ label.isExit = false

/-- The skip block of a loop is told from its body by its flag. -/
def LoopFlags (body : Block) (skip : Option Block) : Prop :=
  graph.flag body.id (.fact .isImplicit) = false ∧ ∀ block ∈ skip, graph.flag block.id (.fact .isImplicit) = true

mutual

/-- The graph has the statement: its labels, its children and the flags that tell parts of loops apart. -/
def Statement.Holds : Statement → Prop
  | .simple id => IsPlain graph id
  | .exit id => graph.label? id = some .returnStatement ∨ graph.label? id = some .throwStatement
  | .breaks id => graph.label? id = some .breakStatement
  | .continues id => graph.label? id = some .continueStatement
  | .nested block => block.Holds
  | .ifElse id branches otherwise =>
    graph.label? id = some .ifElseBlockStatement ∧ branches ≠ [] ∧
      graph.children id = branches.map Branch.id ++ otherwise.toList.map Block.id ∧
      branchesHold branches ∧ optionHolds otherwise
  | .whileLoop id condition body skip =>
    graph.label? id = some .whileLoopStatement ∧
      graph.children id = condition :: body.id :: skip.toList.map Block.id ∧
      graph.label? condition = some .standardCondition ∧ body.Holds ∧ optionHolds skip ∧ LoopFlags graph body skip
  | .forEach id variable_ iterable body skip =>
    graph.label? id = some .forEachStatement ∧
      graph.children id = variable_ :: iterable :: body.id :: skip.toList.map Block.id ∧
      graph.label? variable_ = some .variableDeclarationStatements ∧ graph.is iterable .blockStatement = false ∧
      body.Holds ∧ optionHolds skip ∧ LoopFlags graph body skip
  | .forLoop id init condition update body skip =>
    graph.label? id = some .forLoopStatement ∧
      graph.children id = init.toList ++ condition.toList ++ update.toList ++ body.id :: skip.toList.map Block.id ∧
      graph.flag id (.fact .hasInit) = init.isSome ∧ graph.flag id (.fact .hasCondition) = condition.isSome ∧
      graph.flag id (.fact .hasUpdate) = update.isSome ∧ (∀ v ∈ init, IsPlain graph v) ∧
      (∀ v ∈ condition, graph.label? v = some .standardCondition) ∧ (∀ v ∈ update, IsPlain graph v) ∧
      body.Holds ∧ optionHolds skip ∧ LoopFlags graph body skip
  | .doLoop id body condition =>
    graph.label? id = some .doLoopStatement ∧ graph.children id = [body.id, condition] ∧
      graph.label? condition = some .standardCondition ∧ body.Holds
  | .switch id subject whens =>
    graph.label? id = some .switchStatement ∧ graph.children id = subject :: whens.map Clause.id ∧
      (∃ label, graph.label? subject = some label ∧ label.isExpression = true) ∧
      clausesHold NodeKind.isWhenBlock whens
  | .tryCatch id body catches final =>
    graph.label? id = some .tryCatchFinallyBlockStatement ∧
      graph.children id = body.id :: (catches.map Clause.id ++ final.toList.map Block.id) ∧
      graph.flag id (.fact .hasFinally) = final.isSome ∧ body.Holds ∧
      clausesHold (· == .catchBlockStatement) catches ∧ (∀ clause ∈ catches, clause.cases = []) ∧ optionHolds final

/-- The graph holds a block: labels and children are those of the syntax. -/
def Block.Holds : Block → Prop
  | .mk id body =>
    graph.label? id = some .blockStatement ∧ graph.children id = body.map Statement.id ∧ statementsHold body

def statementsHold : List Statement → Prop
  | [] => True
  | statement :: rest => statement.Holds ∧ statementsHold rest

def branchesHold : List Branch → Prop
  | [] => True
  | .mk id condition body :: rest =>
    graph.label? id = some .ifBlockStatement ∧ graph.children id = [condition, body.id] ∧
      graph.label? condition = some .standardCondition ∧ body.Holds ∧ branchesHold rest

def clausesHold (kinds : NodeKind → Bool) : List Clause → Prop
  | [] => True
  | .mk id kind cases body :: rest =>
    graph.label? id = some kind ∧ kinds kind = true ∧ graph.children id = cases ++ [body.id] ∧
      body.Holds ∧ clausesHold kinds rest

def optionHolds : Option Block → Prop
  | none => True
  | some block => block.Holds

end

end

/-! ## Jumps -/

/-- Where a `break` goes, seen from inside some open scopes. -/
def breakExit? (frames : Frames) : Option Continuation :=
  (innermostLoop? frames).map fun (kinds, exits) => ⟨exits.onBreak.target, kinds ++ exits.onBreak.endScopes⟩

/-- Where a `continue` goes, seen from inside some open scopes. -/
def continueExit? (frames : Frames) : Option Continuation :=
  (innermostLoop? frames).bind fun (kinds, exits) =>
    match exits.onContinue with
    | some target => some ⟨some target, kinds.dropLast⟩
    | none => breakExit? frames

section
variable (kind : NodeKind)
include kind

@[simp] theorem innermostLoop?_scope (frames : Frames) :
    (innermostLoop? (⟨kind, none⟩ :: frames)).isSome = (innermostLoop? frames).isSome := by
  simp [innermostLoop?]

@[simp] theorem innermostLoop?_loop (exits : LoopExits) (frames : Frames) :
    (innermostLoop? (⟨kind, some exits⟩ :: frames)).isSome = true := rfl

theorem breakExit?_scope (frames : Frames) :
    breakExit? (⟨kind, none⟩ :: frames) = (breakExit? frames).map (·.leaving kind) := by
  simp only [breakExit?, innermostLoop?, Option.map_map]
  rfl

theorem breakExit?_loop (exits : LoopExits) (frames : Frames) :
    breakExit? (⟨kind, some exits⟩ :: frames) = some (exits.onBreak.leaving kind) := rfl

theorem continueExit?_scope (frames : Frames) :
    continueExit? (⟨kind, none⟩ :: frames) = (continueExit? frames).map (·.leaving kind) := by
  rw [continueExit?, continueExit?, breakExit?_scope, innermostLoop?]
  cases h : innermostLoop? frames with
  | none => rfl
  | some found =>
    obtain ⟨kinds, exits⟩ := found
    cases he : exits.onContinue with
    | none => simp [he]
    | some target => simp [he, List.dropLast_cons_of_ne_nil (innermostLoop?_ne_nil h), Continuation.leaving]

theorem continueExit?_loop (exits : LoopExits) (frames : Frames) :
    continueExit? (⟨kind, some exits⟩ :: frames) =
      some ((exits.onContinue.map Continuation.to).getD (exits.onBreak.leaving kind)) := by
  rw [continueExit?, innermostLoop?]
  cases h : exits.onContinue with
  | none => simp [h, breakExit?_loop]
  | some target => simp [h, Continuation.to]

end

section
variable {P : Continuation → Prop} {kind : NodeKind} {frames : Frames}

/-- What both jumps out of a scope have, if leaving the scope keeps it. -/
theorem forall_exits_scope {B C : Continuation → Prop} (hbreak : ∀ cont ∈ breakExit? frames, B (cont.leaving kind))
    (hcontinue : ∀ cont ∈ continueExit? frames, C (cont.leaving kind)) :
    (∀ cont ∈ breakExit? (⟨kind, none⟩ :: frames), B cont) ∧ ∀ cont ∈ continueExit? (⟨kind, none⟩ :: frames),
    C cont := by
  rw [breakExit?_scope, continueExit?_scope]
  constructor
  all_goals
    intro cont hc
    obtain ⟨inner, hinner, rfl⟩ := Option.map_eq_some_iff.mp hc
  · exact hbreak inner hinner
  · exact hcontinue inner hinner

/-- What both jumps of a loop have. -/
theorem forall_exits_loop {exits : LoopExits} (hbreak : P (exits.onBreak.leaving kind))
    (hcontinue : ∀ w ∈ exits.onContinue, P (.to w)) : (∀ cont ∈ breakExit? (⟨kind, some exits⟩ :: frames), P cont) ∧
    ∀ cont ∈ continueExit? (⟨kind, some exits⟩ :: frames), P cont := by
  rw [breakExit?_loop, continueExit?_loop]
  refine ⟨fun cont hc => Option.some.inj hc ▸ hbreak, fun cont hc => ?_⟩
  cases hc
  cases h : exits.onContinue with
  | none => exact hbreak
  | some w => exact hcontinue w h

end

/-! ## Junctions -/

/-- A vertex, where control goes from it, and the scopes that end there. -/
structure Junction where
  id : VertexId
  next : List (VertexId × FlowKind)
  left : List NodeKind := []
  deriving DecidableEq, Repr

namespace Junction

/-- A junction that hands flow on to where a continuation leads. -/
def handing (id : VertexId) (cont : Continuation) (kind : FlowKind) : Junction :=
  ⟨id, cont.target.toList.map (·, kind), cont.endScopes⟩

/-- What a junction adds to the graph. -/
def steps (junction : Junction) : List Step :=
  (if junction.left.isEmpty then [] else [.endScopes junction.id junction.left]) ++
    junction.next.map fun e => .edge junction.id e.1 e.2

end Junction

/-- The junctions before the body of a `for` loop: control passes its first part and its condition. -/
def loopHeadJunctions (id : VertexId) (init condition : Option VertexId) (body : VertexId) (skip : Option VertexId) :
    List Junction :=
  let entry := condition.getD body
  (match init with
    | some init => [⟨id, [(init, .sequential)], []⟩, ⟨init, [(entry, .sequential)], []⟩]
    | none => [⟨id, [(entry, .sequential)], []⟩]) ++
    condition.toList.map fun condition => ⟨condition, (body, .positive) :: skip.toList.map (·, .negative), []⟩

mutual

/-- The junctions of a statement under open scopes and a continuation, in the order in which they are laid. -/
def Statement.junctions (frames : Frames) (cont : Continuation) : Statement → List Junction
  | .simple id => [.handing id cont .sequential]
  | .exit id => [⟨id, [], frames.map (·.kind)⟩]
  | .breaks id => (breakExit? frames).toList.map (.handing id · .sequential)
  | .continues id => (continueExit? frames).toList.map (.handing id · .sequential)
  | .nested block => block.junctions frames cont
  | .ifElse id branches otherwise =>
    let frames := ⟨.ifElseBlockStatement, none⟩ :: frames
    let inner := cont.leaving .ifElseBlockStatement
    ⟨id, branches.head?.toList.map fun branch => (branch.id, .sequential), []⟩ ::
      (branchJunctions frames inner (otherwise.map Block.id) branches ++ optionJunctions frames inner otherwise)
  | .whileLoop id condition body skip =>
    let frames := ⟨.whileLoopStatement, some ⟨cont, none⟩⟩ :: frames
    let inner := cont.leaving .whileLoopStatement
    ⟨id, [(condition, .sequential)], []⟩ ::
      ⟨condition, (body.id, .positive) :: skip.toList.map fun skip => (skip.id, .negative), []⟩ ::
      (body.junctions frames inner ++ optionJunctions frames inner skip)
  | .forEach id variable_ _ body skip =>
    let frames := ⟨.forEachStatement, some ⟨cont, none⟩⟩ :: frames
    let inner := cont.leaving .forEachStatement
    ⟨id, [(variable_, .sequential)], []⟩ ::
      ⟨variable_, (body.id, .sequential) :: skip.toList.map fun skip => (skip.id, .sequential), []⟩ ::
      (body.junctions frames inner ++ optionJunctions frames inner skip)
  | .forLoop id init condition update body skip =>
    let frames := ⟨.forLoopStatement, some ⟨cont, update⟩⟩ :: frames
    let inner := cont.leaving .forLoopStatement
    loopHeadJunctions id init condition body.id (skip.map Block.id) ++
      body.junctions frames ((update.map Continuation.to).getD inner) ++
      update.toList.map (.handing · inner .sequential) ++ optionJunctions frames inner skip
  | .doLoop id body condition =>
    let frames := ⟨.doLoopStatement, some ⟨cont, some condition⟩⟩ :: frames
    ⟨id, [(body.id, .sequential)], []⟩ ::
      (body.junctions frames (.to condition) ++ [.handing condition (cont.leaving .doLoopStatement) .negative])
  | .switch id subject whens =>
    let frames := ⟨.switchStatement, none⟩ :: frames
    let inner := cont.leaving .switchStatement
    ⟨id, [(subject, .sequential)], []⟩ ::
      (if whens.isEmpty then .handing subject inner .sequential
        else ⟨subject, whens.map fun clause => (clause.id, .case), []⟩) ::
      clauseJunctions frames inner whens
  | .tryCatch id body catches final =>
    let frames := ⟨.tryCatchFinallyBlockStatement, none⟩ :: frames
    let outer := cont.leaving .tryCatchFinallyBlockStatement
    let after := (final.map fun block => Continuation.to block.id).getD outer
    ⟨id, (body.id, .sequential) :: catches.map fun clause => (clause.id, .sequential), []⟩ ::
      (body.junctions frames after ++ clauseJunctions frames after catches ++ optionJunctions frames outer final)

/-- The junctions of a block, inside frames and before a continuation. -/
def Block.junctions (frames : Frames) (cont : Continuation) : Block → List Junction
  | .mk id [] => [.handing id (cont.leaving .blockStatement) .sequential]
  | .mk id (first :: rest) =>
    ⟨id, [(first.id, .sequential)], []⟩ ::
      sequenceJunctions (⟨.blockStatement, none⟩ :: frames) (cont.leaving .blockStatement) (first :: rest)

def sequenceJunctions (frames : Frames) (cont : Continuation) : List Statement → List Junction
  | [] => []
  | statement :: rest =>
    statement.junctions frames ((rest.head?.map fun next => Continuation.to next.id).getD cont) ++
      sequenceJunctions frames cont rest

def branchJunctions (frames : Frames) (inner : Continuation) (otherwise : Option VertexId) : List Branch → List Junction
  | [] => []
  | .mk id condition body :: rest =>
    ⟨id, [(condition, .sequential)], []⟩ ::
      ⟨condition, (body.id, .positive) :: ((rest.head?.map Branch.id).or otherwise).toList.map (·, .negative), []⟩ ::
      (body.junctions frames inner ++ branchJunctions frames inner otherwise rest)

def clauseJunctions (frames : Frames) (after : Continuation) : List Clause → List Junction
  | [] => []
  | .mk id kind _ body :: rest =>
    ⟨id, [(body.id, .sequential)], []⟩ ::
      (body.junctions (⟨kind, none⟩ :: frames) (after.leaving kind) ++ clauseJunctions frames after rest)

def optionJunctions (frames : Frames) (cont : Continuation) : Option Block → List Junction
  | none => []
  | some block => block.junctions frames cont

end

theorem Statement.junctions_exit (frames : Frames) (cont : Continuation) (id : VertexId) :
    (Statement.exit id).junctions frames cont = [⟨id, [], frames.map (·.kind)⟩] := by
  rw [Statement.junctions]

/-! ## Faults -/

/-- What keeps control flow from being laid. -/
inductive Fault where
  | strayJump (id : VertexId)
  | missingElse (id : VertexId)
  deriving DecidableEq, Repr

mutual

/-- The first fault of a statement in source order, which stands in a loop or not. -/
def Statement.fault? (inLoop : Bool) : Statement → Option Fault
  | .simple _ | .exit _ => none
  | .breaks id | .continues id => if inLoop then none else some (.strayJump id)
  | .nested block => block.fault? inLoop
  | .ifElse id branches otherwise =>
    if otherwise.isNone then some (.missingElse id)
    else (branchesFault? inLoop branches).or (optionFault? inLoop otherwise)
  | .whileLoop _ _ body skip | .forEach _ _ _ body skip | .forLoop _ _ _ _ body skip =>
    (body.fault? true).or (optionFault? true skip)
  | .doLoop _ body _ => body.fault? true
  | .switch _ _ whens => clausesFault? inLoop whens
  | .tryCatch _ body catches final =>
    ((body.fault? inLoop).or (clausesFault? inLoop catches)).or (optionFault? inLoop final)

/-- The first fault of a block, inside or outside a loop. -/
def Block.fault? (inLoop : Bool) : Block → Option Fault
  | .mk _ body => sequenceFault? inLoop body

def sequenceFault? (inLoop : Bool) : List Statement → Option Fault
  | [] => none
  | statement :: rest => (statement.fault? inLoop).or (sequenceFault? inLoop rest)

def branchesFault? (inLoop : Bool) : List Branch → Option Fault
  | [] => none
  | .mk _ _ body :: rest => (body.fault? inLoop).or (branchesFault? inLoop rest)

def clausesFault? (inLoop : Bool) : List Clause → Option Fault
  | [] => none
  | .mk _ _ _ body :: rest => (body.fault? inLoop).or (clausesFault? inLoop rest)

def optionFault? (inLoop : Bool) : Option Block → Option Fault
  | none => none
  | some block => block.fault? inLoop

end

theorem Statement.fault?_breaks_eq_none {inLoop : Bool} {id : VertexId} :
    (Statement.breaks id).fault? inLoop = none ↔ inLoop = true := by
  cases inLoop <;> simp [Statement.fault?]

end ApexPaths.Flow
