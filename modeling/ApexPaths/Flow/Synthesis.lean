import ApexPaths.Error

/-!
Control flow of method bodies. Reading a method's tree yields a plan, a list of steps (edges to add and
scope ends to mark) and perhaps a failure; the steps found before a failure stay. Each statement hands
control to a continuation; the last statement of a block inherits the continuation of the block and ends
the block's scope. Loops are passed once. A `return` or `throw` ends every open scope and goes nowhere.
-/

namespace ApexPaths.Flow
set_option autoImplicit false

/-! ## Plans -/

/-- One addition to the graph. -/
inductive Step where
  | edge (source target : VertexId) (kind : FlowKind)
  | endScopes (id : VertexId) (kinds : List NodeKind)
  deriving DecidableEq, Repr

/-- Steps in order, and a result or a failure. -/
structure Plan (α : Type) where
  steps : List Step
  result : Except EngineError α

namespace Plan

def done {α : Type} (a : α) : Plan α := ⟨[], .ok a⟩

def fail {α : Type} (error : EngineError) : Plan α := ⟨[], .error error⟩

/-- One plan after the other; a failure ends it. -/
def andThen {α β : Type} (first : Plan α) (next : α → Plan β) : Plan β :=
  match first.result with
  | .ok a => ⟨first.steps ++ (next a).steps, (next a).result⟩
  | .error error => ⟨first.steps, .error error⟩

instance : Monad Plan where
  pure := done
  bind := andThen

def edge (source target : VertexId) (kind : FlowKind) : Plan Unit := ⟨[.edge source target kind], .ok ()⟩

/-- Mark the scopes that end at a vertex, if there are any. -/
def endScopes (id : VertexId) (kinds : List NodeKind) : Plan Unit :=
  if kinds.isEmpty then done () else ⟨[.endScopes id kinds], .ok ()⟩

def require {α : Type} (value : Option α) (what : Malformation) (id : VertexId) : Plan α :=
  match value with
  | some a => done a
  | none => fail (.internal (.malformed what id))

end Plan

def Step.apply (graph : CodeGraph) : Step → CodeGraph
  | .edge source target kind => graph.addEdge source target (.flow kind)
  | .endScopes id kinds => graph.setProperty id (.fact .endScopes) (.texts (kinds.map NodeKind.name))

/-! ## Continuations and open scopes -/

/-- Where control goes after a statement, and the scopes left on the way, innermost first. Without a
target the method ends. -/
structure Continuation where
  target : Option VertexId := none
  endScopes : List NodeKind := []
  deriving DecidableEq, Repr, Inhabited

def Continuation.to (target : VertexId) : Continuation := ⟨some target, []⟩

/-- The same target after leaving one more scope. -/
def Continuation.leaving (cont : Continuation) (kind : NodeKind) : Continuation :=
  ⟨cont.target, kind :: cont.endScopes⟩

/-- Where the jumps of a loop go. -/
structure LoopExits where
  onBreak : Continuation
  /-- The target of `continue`, when it stays inside the loop. -/
  onContinue : Option VertexId
  deriving DecidableEq, Repr

/-- An open scope. -/
structure Frame where
  kind : NodeKind
  exits : Option LoopExits := none
  deriving DecidableEq, Repr

abbrev Frames := List Frame

/-- The scopes up to and including the innermost loop, and its exits. -/
def innermostLoop? : Frames → Option (List NodeKind × LoopExits)
  | [] => none
  | frame :: rest =>
    match frame.exits with
    | some exits => some ([frame.kind], exits)
    | none => (innermostLoop? rest).map fun (kinds, exits) => (frame.kind :: kinds, exits)

theorem innermostLoop?_ne_nil {frames : Frames} {kinds : List NodeKind} {exits : LoopExits}
    (h : innermostLoop? frames = some (kinds, exits)) : kinds ≠ [] := by
  cases frames with
  | nil => simp [innermostLoop?] at h
  | cons frame rest =>
    rw [innermostLoop?] at h
    cases he : frame.exits with
    | some e =>
      simp only [he, Option.some.injEq, Prod.mk.injEq] at h
      rw [← h.1]
      exact List.cons_ne_nil _ _
    | none =>
      simp only [he, Option.map_eq_some_iff] at h
      obtain ⟨⟨ks, e⟩, _, heq⟩ := h
      rw [← (Prod.mk.inj heq).1]
      exact List.cons_ne_nil _ _

/-- Hand control from a vertex to a continuation. -/
def flow (source : VertexId) (cont : Continuation) (kind : FlowKind) : Plan Unit := do
  Plan.endScopes source cont.endScopes
  match cont.target with
  | some target => Plan.edge source target kind
  | none => return ()

/-! ## Parts of statements -/

variable (graph : CodeGraph)

def lastBlock? (id : VertexId) : Option VertexId := (graph.children id).getLast?.filter (graph.is · .blockStatement)

/-- The child at a position, which must have a label. -/
def childOf (parent : VertexId) (index : Nat) (label : NodeKind) : Plan VertexId :=
  Plan.require ((graph.childAt? parent index).filter (graph.is · label)) (.expectedChild label index) parent

/-- The body of a loop, and the block that stands for not running it. -/
def loopBlocks (statement : VertexId) : Plan (VertexId × Option VertexId) := do
  let blocks := graph.childrenWithLabel statement .blockStatement
  let body ← Plan.require (blocks.find? fun id => !graph.flag id (.fact .isImplicit)) .loopWithoutBody statement
  return (body, blocks.find? fun id => graph.flag id (.fact .isImplicit))

/-! ## Statements -/

/-- A reader of statements under open scopes and a continuation. -/
abbrev StatementPlan := Frames → VertexId → Continuation → Plan Unit

/-- The statements of a block in sequence. -/
def sequence (statement : StatementPlan) (frames : Frames) (cont : Continuation) : List VertexId → Plan Unit
  | [] => return ()
  | [last] => statement frames last cont
  | first :: next :: rest => do
    statement frames first (.to next)
    sequence statement frames cont (next :: rest)

def block (statement : StatementPlan) (frames : Frames) (id : VertexId) (cont : Continuation) : Plan Unit := do
  let inner := cont.leaving .blockStatement
  match graph.children id with
  | [] => flow id inner .sequential
  | first :: rest =>
    Plan.edge id first .sequential
    sequence statement (⟨.blockStatement, none⟩ :: frames) inner (first :: rest)

/-- The branches of an `if`, each with the vertex that follows when its condition fails. -/
def branches (statement : StatementPlan) (frames : Frames) (inner : Continuation) (otherwise : VertexId) :
    List VertexId → Plan Unit
  | [] => return ()
  | branch :: rest => do
    let condition ← childOf graph branch 0 .standardCondition
    let body ← childOf graph branch 1 .blockStatement
    Plan.edge branch condition .sequential
    Plan.edge condition body .positive
    Plan.edge condition (rest.head?.getD otherwise) .negative
    block graph statement frames body inner
    branches statement frames inner otherwise rest

def ifElse (statement : StatementPlan) (frames : Frames) (id : VertexId) (cont : Continuation) : Plan Unit := do
  let parts := graph.childrenWithLabel id .ifBlockStatement
  let first ← Plan.require parts.head? .ifWithoutBranches id
  let otherwise ← Plan.require (lastBlock? graph id) .ifWithoutElse id
  let frames := ⟨.ifElseBlockStatement, none⟩ :: frames
  let inner := cont.leaving .ifElseBlockStatement
  Plan.edge id first .sequential
  branches graph statement frames inner otherwise parts
  block graph statement frames otherwise inner

def optionalBlock (statement : StatementPlan) (frames : Frames) (cont : Continuation) : Option VertexId → Plan Unit
  | some id => block graph statement frames id cont
  | none => return ()

def whileLoop (statement : StatementPlan) (frames : Frames) (id : VertexId) (cont : Continuation) : Plan Unit := do
  let condition ← Plan.require (graph.childrenWithLabel id .standardCondition).head? .whileWithoutCondition id
  let (body, skip) ← loopBlocks graph id
  let frames := ⟨.whileLoopStatement, some ⟨cont, none⟩⟩ :: frames
  let inner := cont.leaving .whileLoopStatement
  Plan.edge id condition .sequential
  Plan.edge condition body .positive
  skip.forM fun skip => Plan.edge condition skip .negative
  block graph statement frames body inner
  optionalBlock graph statement frames inner skip

def forEach (statement : StatementPlan) (frames : Frames) (id : VertexId) (cont : Continuation) : Plan Unit := do
  let variable_ ← childOf graph id 0 .variableDeclarationStatements
  let (body, skip) ← loopBlocks graph id
  let frames := ⟨.forEachStatement, some ⟨cont, none⟩⟩ :: frames
  let inner := cont.leaving .forEachStatement
  Plan.edge id variable_ .sequential
  Plan.edge variable_ body .sequential
  skip.forM fun skip => Plan.edge variable_ skip .sequential
  block graph statement frames body inner
  optionalBlock graph statement frames inner skip

/-- The parts of the head of a `for` loop, as its flags tell: first, condition and update. -/
def loopHead (id : VertexId) : Option VertexId × Option VertexId × Option VertexId :=
  let children := graph.children id
  let hasInit := graph.flag id (.fact .hasInit)
  let hasCondition := graph.flag id (.fact .hasCondition)
  let conditionAt := if hasInit then 1 else 0
  let updateAt := conditionAt + if hasCondition then 1 else 0
  (if hasInit then children[0]? else none,
   if hasCondition then children[conditionAt]? else none,
   if graph.flag id (.fact .hasUpdate) then children[updateAt]? else none)

def forLoop (statement : StatementPlan) (frames : Frames) (id : VertexId) (cont : Continuation) : Plan Unit := do
  let (init, condition, update) := loopHead graph id
  let (body, skip) ← loopBlocks graph id
  let frames := ⟨.forLoopStatement, some ⟨cont, update⟩⟩ :: frames
  let inner := cont.leaving .forLoopStatement
  init.forM fun init => Plan.edge id init .sequential
  let before := init.getD id
  match condition with
  | some condition =>
    Plan.edge before condition .sequential
    Plan.edge condition body .positive
    skip.forM fun skip => Plan.edge condition skip .negative
  | none => Plan.edge before body .sequential
  match update with
  | some update =>
    block graph statement frames body (.to update)
    flow update inner .sequential
  | none => block graph statement frames body inner
  optionalBlock graph statement frames inner skip

def doLoop (statement : StatementPlan) (frames : Frames) (id : VertexId) (cont : Continuation) : Plan Unit := do
  let body ← childOf graph id 0 .blockStatement
  let condition ← childOf graph id 1 .standardCondition
  Plan.edge id body .sequential
  block graph statement (⟨.doLoopStatement, some ⟨cont, some condition⟩⟩ :: frames) body (.to condition)
  flow condition (cont.leaving .doLoopStatement) .negative

def whenBlocks (statement : StatementPlan) (frames : Frames) (inner : Continuation) : List VertexId → Plan Unit
  | [] => return ()
  | id :: rest => do
    let kind := (graph.label? id).getD .elseWhenBlock
    let body ← Plan.require (lastBlock? graph id) .whenWithoutBlock id
    Plan.edge id body .sequential
    block graph statement (⟨kind, none⟩ :: frames) body (inner.leaving kind)
    whenBlocks statement frames inner rest

def switch (statement : StatementPlan) (frames : Frames) (id : VertexId) (cont : Continuation) : Plan Unit := do
  let children := graph.children id
  let subject ← Plan.require children.head? .switchWithoutSubject id
  let whens := children.filter fun child => (graph.label? child).any NodeKind.isWhenBlock
  let frames := ⟨.switchStatement, none⟩ :: frames
  let inner := cont.leaving .switchStatement
  Plan.edge id subject .sequential
  if whens.isEmpty then flow subject inner .sequential
  whens.forM fun id => Plan.edge subject id .case
  whenBlocks graph statement frames inner whens

def catchBlocks (statement : StatementPlan) (frames : Frames) (after : Continuation) : List VertexId → Plan Unit
  | [] => return ()
  | id :: rest => do
    let body ← childOf graph id 0 .blockStatement
    Plan.edge id body .sequential
    block graph statement (⟨.catchBlockStatement, none⟩ :: frames) body (after.leaving .catchBlockStatement)
    catchBlocks statement frames after rest

def tryCatch (statement : StatementPlan) (frames : Frames) (id : VertexId) (cont : Continuation) : Plan Unit := do
  let body ← childOf graph id 0 .blockStatement
  let catches := graph.childrenWithLabel id .catchBlockStatement
  let finally_ :=
    if graph.flag id (.fact .hasFinally) then (lastBlock? graph id).filter (· != body) else none
  let frames := ⟨.tryCatchFinallyBlockStatement, none⟩ :: frames
  let outer := cont.leaving .tryCatchFinallyBlockStatement
  Plan.edge id body .sequential
  catches.forM fun handler => Plan.edge id handler .sequential
  let after := match finally_ with
    | some block => Continuation.to block
    | none => outer
  block graph statement frames body after
  catchBlocks graph statement frames after catches
  optionalBlock graph statement frames outer finally_

/-- A jump out of a loop: every scope up to the loop ends, and those that the loop's continuation ends. -/
def breakTo (frames : Frames) (id : VertexId) : Plan Unit :=
  match innermostLoop? frames with
  | some (kinds, exits) => flow id ⟨exits.onBreak.target, kinds ++ exits.onBreak.endScopes⟩ .sequential
  | none =>
    let word := if graph.is id .breakStatement then "break" else "continue"
    Plan.fail (.strayJump word ((graph.text? id (.fact .fileName)).getD "") (graph.beginLine id)
      (((graph.int? id (.fact .beginColumn)).getD 0) % 4294967296).toNat)

/-- A jump to the next round: where the loop has no place for it, it leaves the loop. -/
def continueTo (frames : Frames) (id : VertexId) : Plan Unit :=
  match innermostLoop? frames with
  | some (kinds, ⟨_, some target⟩) => flow id ⟨some target, kinds.dropLast⟩ .sequential
  | _ => breakTo graph frames id

/-- A statement whose nested statements are read by `statement`. -/
def statementWith (statement : StatementPlan) (frames : Frames) (id : VertexId) (cont : Continuation) : Plan Unit :=
  match graph.label? id with
  | none => Plan.fail (.internal (.missingVertex id))
  | some .blockStatement => block graph statement frames id cont
  | some .ifElseBlockStatement => ifElse graph statement frames id cont
  | some .whileLoopStatement => whileLoop graph statement frames id cont
  | some .forEachStatement => forEach graph statement frames id cont
  | some .forLoopStatement => forLoop graph statement frames id cont
  | some .doLoopStatement => doLoop graph statement frames id cont
  | some .switchStatement => switch graph statement frames id cont
  | some .tryCatchFinallyBlockStatement => tryCatch graph statement frames id cont
  | some .returnStatement | some .throwStatement => Plan.endScopes id (frames.map (·.kind))
  | some .breakStatement => breakTo graph frames id
  | some .continueStatement => continueTo graph frames id
  | some _ => flow id cont .sequential

/-- The plan of a statement, down to the given depth of nesting. -/
def statementWithin : Nat → StatementPlan
  | 0, _, _, _ => Plan.fail (.internal .exhausted)
  | n + 1, frames, id, cont => statementWith graph (statementWithin n) frames id cont

def bodyPlan (body : VertexId) : Plan Unit := block graph (statementWithin graph graph.vertexCount) [] body {}

/-- The body of a method that has no control flow yet. -/
def pendingBody? (method : VertexId) : Option VertexId :=
  (lastBlock? graph method).filter fun body =>
    !(graph.hasFlowEdges body || (graph.property? body (.fact .endScopes)).isSome)

/-! ## Methods -/

/-- Add the control flow of a method. The answer is false when it has no body or was done before. -/
def synthesize (method : VertexId) : Except EngineError Bool × CodeGraph :=
  if graph.is method .method then
    match pendingBody? graph method with
    | none => (.ok false, graph)
    | some body =>
      let plan := bodyPlan graph body
      (plan.result.map fun _ => true, plan.steps.foldl Step.apply graph)
  else (.error (.internal (.flowOfNonMethod method)), graph)

/-- Add the control flow of some methods in order, and count those that were not done before. -/
def synthesizeMethods (graph : CodeGraph) : List VertexId → Except EngineError Nat × CodeGraph
  | [] => (.ok 0, graph)
  | method :: rest =>
    match synthesize graph method with
    | (.error error, graph) => (.error error, graph)
    | (.ok fresh, graph) =>
      let (count, graph) := synthesizeMethods graph rest
      (count.map fun n => if fresh then n + 1 else n, graph)

/-- Add the control flow of every method. -/
def synthesizeAll (graph : CodeGraph) : Except EngineError Nat × CodeGraph :=
  synthesizeMethods graph (graph.withLabel .method)

end ApexPaths.Flow
