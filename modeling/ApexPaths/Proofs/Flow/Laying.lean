import ApexPaths.Proofs.Flow.Statement

/-!
The plan of a statement lays the statement's junctions, one after the other. It fails exactly when the
statement has a fault, with the first fault in source order.
-/

namespace ApexPaths.Flow
set_option autoImplicit false

open List CodeGraph

/-! ## Plans in sequence -/

/-- The error that reports a fault. -/
def Fault.error (graph : CodeGraph) : Fault → EngineError
  | .strayJump id =>
    .strayJump (if graph.is id .breakStatement then "break" else "continue")
    ((graph.text? id (.fact .fileName)).getD "") (graph.beginLine id)
    (((graph.int? id (.fact .beginColumn)).getD 0) % 4294967296).toNat
  | .missingElse id => .internal (.malformed .ifWithoutElse id)

/-- A plan consists of the given steps, or fails with the given fault. -/
def Follows (graph : CodeGraph) (plan : Plan Unit) (fault : Option Fault) (steps : List Step) : Prop :=
  match fault with
  | none => plan = ⟨steps, .ok ()⟩
  | some fault => plan.result = .error (fault.error graph)

theorem Plan.done_bind {α β : Type} (a : α) (f : α → Plan β) : (Plan.done a >>= f) = f a := by
  show Plan.andThen (Plan.done a) f = f a
  simp [Plan.andThen, Plan.done]

variable {id : VertexId} {body : Block} {skip : Option Block}

section
variable {graph : CodeGraph}

/-- One plan after another: the first fault counts, and the steps follow each other. -/
theorem Follows.bind {p q : Plan Unit} {f g : Option Fault} {xs ys : List Step} (hp : Follows graph p f xs)
    (hq : Follows graph q g ys) : Follows graph (p >>= fun _ => q) (f.or g) (xs ++ ys) := by
  show Follows graph (Plan.andThen p fun _ => q) (f.or g) (xs ++ ys)
  cases f with
  | some fault =>
    have hr : p.result = .error (fault.error graph) := hp
    simp only [Follows, Option.some_or, Plan.andThen, hr]
  | none =>
    have he : p = ⟨xs, .ok ()⟩ := hp
    subst he
    cases g with
    | some fault =>
      have hr : q.result = .error (fault.error graph) := hq
      simp only [Follows, Option.none_or, Plan.andThen, hr]
    | none =>
      have he : q = ⟨ys, .ok ()⟩ := hq
      subst he
      rfl

theorem Follows.after {p q : Plan Unit} {g : Option Fault} {xs ys : List Step} (hp : Follows graph p none xs)
    (hq : Follows graph q g ys) : Follows graph (p >>= fun _ => q) g (xs ++ ys) := hp.bind hq

theorem Follows.done : Follows graph (pure ()) none [] := rfl

theorem Follows.edge (source target : VertexId) (kind : FlowKind) :
    Follows graph (Plan.edge source target kind) none [.edge source target kind] := rfl

theorem Follows.edges {α : Type} (items : List α) (source : VertexId) (target : α → VertexId) (kind : FlowKind) :
    Follows graph (items.forM fun item => Plan.edge source (target item) kind) none
      (items.map fun item => .edge source (target item) kind) := by
  induction items with
  | nil => exact .done
  | cons item items ih => exact (Follows.edge source (target item) kind).after ih

theorem Follows.optionEdge (item : Option VertexId) (source : VertexId) (kind : FlowKind) :
    Follows graph (item.forM fun target => Plan.edge source target kind) none
      (item.toList.map fun target => .edge source target kind) := by
  cases item with
  | none => exact .done
  | some target => exact .edge source target kind

theorem Follows.endScopes (id : VertexId) (kinds : List NodeKind) :
    Follows graph (Plan.endScopes id kinds) none (Junction.steps ⟨id, [], kinds⟩) := by
  cases kinds with
  | nil => rfl
  | cons kind kinds => rfl

theorem Follows.flow (id : VertexId) (cont : Continuation) (kind : FlowKind) :
    Follows graph (flow id cont kind) none (Junction.handing id cont kind).steps := by
  obtain ⟨target, kinds⟩ := cont
  cases target with
  | none =>
    have h : Follows graph _ none _ := (Follows.endScopes id kinds).after .done
    rwa [append_nil] at h
  | some target =>
    have h : Follows graph _ none _ := (Follows.endScopes id kinds).after (.edge id target kind)
    rwa [show (Junction.handing id ⟨some target, kinds⟩ kind).steps =
      Junction.steps ⟨id, [], kinds⟩ ++ [.edge id target kind] by simp [Junction.handing, Junction.steps]]

/-! ## Parts of statements -/

theorem childOf_eq {parent child : VertexId} {index : Nat} {label : NodeKind}
    (h : (graph.children parent)[index]? = some child) (hl : graph.label? child = some label) :
    childOf graph parent index label = Plan.done child := by
  have hf : (graph.childAt? parent index).filter (graph.is · label) = some child := by
    simp [childAt?, h, graph.is_iff, hl]
  rw [childOf, hf]
  rfl

theorem lastBlock?_eq {parent child : VertexId} {others : List VertexId} (h : graph.children parent = others ++ [child])
    (hl : graph.label? child = some .blockStatement) : lastBlock? graph parent = some child := by
  simp [lastBlock?, h, graph.is_iff, hl]

theorem IsPlain.is_eq_false {v : VertexId} {label : NodeKind} (h : IsPlain graph v) (hl : label.isSimple = false) :
    graph.is v label = false := by
  obtain ⟨l, hlabel, hs, -⟩ := h
  have hne : l ≠ label := fun e => by simp [e, hl] at hs
  simp [is, hlabel, hne]

theorem Block.Holds.label {block : Block} (h : block.Holds graph) : graph.label? block.id = some .blockStatement := by
  cases block with
  | mk id body => exact h.1

theorem optionHolds.label {block : Option Block} (h : optionHolds graph block) :
    ∀ id ∈ block.toList.map Block.id, graph.label? id = some .blockStatement := by
  cases block with
  | none => simp
  | some block =>
    have hb : block.Holds graph := h
    simpa using hb.label

theorem loopBlocks_eq (parts : List VertexId)
    (hc : graph.children id = parts ++ body.id :: skip.toList.map Block.id)
    (hp : ∀ v ∈ parts, graph.is v .blockStatement = false) (hb : body.Holds graph) (hs : optionHolds graph skip)
    (hf : LoopFlags graph body skip) : loopBlocks graph id = Plan.done (body.id, skip.map Block.id) := by
  have hfilter : graph.childrenWithLabel id .blockStatement = body.id :: skip.toList.map Block.id := by
    have h1 : parts.filter (graph.is · .blockStatement) = [] := by
      rw [filter_eq_nil_iff]
      intro v hv
      simp [hp v hv]
    have h2 : (skip.toList.map Block.id).filter (graph.is · .blockStatement) = skip.toList.map Block.id := by
      rw [filter_eq_self]
      intro v hv
      exact graph.is_iff.mpr (hs.label v hv)
    rw [childrenWithLabel, hc, filter_append, h1, nil_append, filter_cons,
      if_pos (graph.is_iff.mpr hb.label), h2]
  rw [loopBlocks, hfilter]
  obtain ⟨hbody, hskip⟩ := hf
  cases skip with
  | none => simp [hbody, Plan.require, Plan.done_bind]; rfl
  | some block => simp [hbody, hskip block rfl, Plan.require, Plan.done_bind]; rfl

/-! ## Blocks -/

variable (graph) (statement : StatementPlan)

/-- The reader of statements lays a statement as its junctions say. -/
def Statement.Laid (s : Statement) : Prop :=
  ∀ frames cont, Follows graph (statement frames s.id cont) (s.fault? (innermostLoop? frames).isSome)
    ((s.junctions frames cont).flatMap Junction.steps)

/-- Laying the flow of a block adds its junctions, or ends with its fault. -/
def Block.Laid (b : Block) : Prop :=
  ∀ frames cont, Follows graph (block graph statement frames b.id cont) (b.fault? (innermostLoop? frames).isSome)
    ((b.junctions frames cont).flatMap Junction.steps)

variable {graph} {statement}

theorem sequence_follows (frames : Frames) (cont : Continuation) (body : List Statement)
    (laid : ∀ s ∈ body, s.Laid graph statement) :
    Follows graph (sequence statement frames cont (body.map Statement.id))
    (sequenceFault? (innermostLoop? frames).isSome body)
    ((sequenceJunctions frames cont body).flatMap Junction.steps) := by
  induction body with
  | nil => exact .done
  | cons first rest ih =>
    have hfirst := laid first mem_cons_self
    have hrest := ih fun s hs => laid s (mem_cons_of_mem _ hs)
    rw [sequenceFault?, sequenceJunctions, flatMap_append]
    cases rest with
    | nil =>
      have h := hfirst frames cont
      simpa [sequence, sequenceFault?, sequenceJunctions] using h
    | cons next rest => exact (hfirst frames (.to next.id)).bind hrest

theorem block_laid {b : Block} (h : b.Holds graph)
    (laid : ∀ id body, b = .mk id body → ∀ s ∈ body, s.Laid graph statement) : b.Laid graph statement := by
  intro frames cont
  obtain ⟨id, body⟩ := b
  have hstatements := laid id body rfl
  rw [Block.id, block, h.2.1]
  cases body with
  | nil =>
    have hflow : Follows graph _ none _ := Follows.flow id (cont.leaving .blockStatement) .sequential
    simpa [Block.fault?, sequenceFault?, Block.junctions] using hflow
  | cons first rest =>
    have hsequence :=
      sequence_follows (⟨.blockStatement, none⟩ :: frames) (cont.leaving .blockStatement) (first :: rest) hstatements
    rw [innermostLoop?_scope] at hsequence
    exact (Follows.edge id first.id .sequential).after hsequence

theorem optionalBlock_follows (frames : Frames) (cont : Continuation) (b : Option Block)
    (laid : ∀ block ∈ b, block.Laid graph statement) :
    Follows graph (optionalBlock graph statement frames cont (b.map Block.id))
      (optionFault? (innermostLoop? frames).isSome b) ((optionJunctions frames cont b).flatMap Junction.steps) := by
  cases b with
  | none => exact .done
  | some block => exact laid block rfl frames cont

/-! ## Branches -/

theorem branchesHold.label {branches : List Branch} (h : branchesHold graph branches) :
    ∀ id ∈ branches.map Branch.id, graph.label? id = some .ifBlockStatement := by
  induction branches with
  | nil => simp
  | cons branch rest ih =>
    obtain ⟨id, condition, body⟩ := branch
    intro v hv
    rcases mem_cons.mp hv with rfl | hv
    · exact h.1
    · exact ih h.2.2.2.2 v hv

theorem clausesHold.label {kinds : NodeKind → Bool} {clauses : List Clause} (h : clausesHold graph kinds clauses) :
    ∀ id ∈ clauses.map Clause.id, ∃ kind, graph.label? id = some kind ∧ kinds kind = true := by
  induction clauses with
  | nil => simp
  | cons clause rest ih =>
    obtain ⟨id, kind, cases, body⟩ := clause
    intro v hv
    rcases mem_cons.mp hv with rfl | hv
    · exact ⟨kind, h.1, h.2.1⟩
    · exact ih h.2.2.2.2 v hv

theorem branches_follows (frames : Frames) (inner : Continuation) (otherwise : VertexId) (branches : List Branch)
    (h : branchesHold graph branches) (laid : ∀ branch ∈ branches, branch.body.Laid graph statement) :
    Follows graph (Flow.branches graph statement frames inner otherwise (branches.map Branch.id))
      (branchesFault? (innermostLoop? frames).isSome branches)
      ((branchJunctions frames inner (some otherwise) branches).flatMap Junction.steps) := by
  induction branches with
  | nil => exact .done
  | cons branch rest ih =>
    obtain ⟨id, condition, body⟩ := branch
    obtain ⟨-, hchildren, hcondition, hbody, hrest⟩ := h
    have hlaid : Follows graph _ _ _ := laid _ mem_cons_self frames inner
    have hih := ih hrest fun b hb => laid b (mem_cons_of_mem _ hb)
    have hnext : ((rest.head?.map Branch.id).or (some otherwise)).toList =
        [(rest.map Branch.id).head?.getD otherwise] := by
      cases rest <;> rfl
    rw [map_cons, Branch.id, Flow.branches,
      childOf_eq (by rw [hchildren]; rfl) hcondition, Plan.done_bind,
      childOf_eq (by rw [hchildren]; rfl) hbody.label, Plan.done_bind, branchesFault?, branchJunctions, hnext]
    simp only [flatMap_cons, flatMap_append]
    refine (Follows.edge id condition .sequential).after ?_
    refine (Follows.edge condition body.id .positive).after ?_
    exact (Follows.edge condition _ .negative).after (hlaid.bind hih)

/-- An `if` chain with an `else` block. -/
theorem ifElse_follows (frames : Frames) (cont : Continuation) {branches : List Branch}
    {otherwise : Option Block} (h : (Statement.ifElse id branches otherwise).Holds graph)
    (laid : ∀ branch ∈ branches, branch.body.Laid graph statement) (laidElse : ∀ b ∈ otherwise,
    b.Laid graph statement) :
    Follows graph (ifElse graph statement frames id cont)
      ((Statement.ifElse id branches otherwise).fault? (innermostLoop? frames).isSome)
      (((Statement.ifElse id branches otherwise).junctions frames cont).flatMap Junction.steps) := by
  obtain ⟨-, hne, hchildren, hbranches, hotherwise⟩ := h
  have hparts : graph.childrenWithLabel id .ifBlockStatement = branches.map Branch.id := by
    have h1 : (branches.map Branch.id).filter (graph.is · .ifBlockStatement) = branches.map Branch.id := by
      rw [filter_eq_self]
      exact fun v hv => graph.is_iff.mpr (hbranches.label v hv)
    have h2 : (otherwise.toList.map Block.id).filter (graph.is · .ifBlockStatement) = [] := by
      rw [filter_eq_nil_iff]
      intro v hv
      simp [is, hotherwise.label v hv]
    rw [childrenWithLabel, hchildren, filter_append, h1, h2, append_nil]
  obtain ⟨first, rest, rfl⟩ := exists_cons_of_ne_nil hne
  rw [ifElse, hparts]
  cases otherwise with
  | none =>
    -- Without an `else` the last child is a branch, which is no block.
    have hlast : lastBlock? graph id = none := by
      obtain ⟨v, hv⟩ : ∃ v, (graph.children id).getLast? = some v := by
        rw [hchildren]
        exact ⟨_, List.getLast?_eq_some_getLast (cons_ne_nil _ _)⟩
      have hmem : v ∈ (first :: rest).map Branch.id := by
        have := mem_of_getLast? hv
        rwa [hchildren, Option.toList_none, map_nil, append_nil] at this
      simp [lastBlock?, hv, is, hbranches.label v hmem]
    rw [hlast]
    rfl
  | some block =>
    have hblock : block.Holds graph := hotherwise
    have hlast : lastBlock? graph id = some block.id := lastBlock?_eq hchildren hblock.label
    have hb := branches_follows (⟨.ifElseBlockStatement, none⟩ :: frames) (cont.leaving .ifElseBlockStatement) block.id
      (first :: rest) hbranches laid
    have he := laidElse block rfl (⟨.ifElseBlockStatement, none⟩ :: frames) (cont.leaving .ifElseBlockStatement)
    rw [innermostLoop?_scope] at hb he
    rw [hlast]
    simp only [Statement.fault?, Statement.junctions, flatMap_cons, flatMap_append]
    exact (Follows.edge id first.id .sequential).after (hb.bind he)

/-! ## Loops -/

theorem guardedLoop_follows (frames : Frames) (cont : Continuation) (id head : VertexId) (onBody onSkip : FlowKind)
    (laid : body.Laid graph statement) (laidSkip : ∀ b ∈ skip, b.Laid graph statement) : Follows graph
      (do
        Plan.edge id head .sequential
        Plan.edge head body.id onBody
        (skip.map Block.id).forM fun skip => Plan.edge head skip onSkip
        block graph statement frames body.id cont
        optionalBlock graph statement frames cont (skip.map Block.id))
      ((body.fault? (innermostLoop? frames).isSome).or (optionFault? (innermostLoop? frames).isSome skip))
      ((⟨id, [(head, .sequential)], []⟩ ::
      ⟨head, (body.id, onBody) :: skip.toList.map fun skip => (skip.id, onSkip), []⟩ ::
      (body.junctions frames cont ++ optionJunctions frames cont skip)).flatMap Junction.steps) := by
  have hb := laid frames cont
  have hs := optionalBlock_follows frames cont skip laidSkip
  have he : Follows graph _ none _ := Follows.optionEdge (skip.map Block.id) head onSkip
  simp only [flatMap_cons, flatMap_append]
  refine (Follows.edge id head .sequential).after ?_
  have h := (Follows.edge head body.id onBody).after (he.after (hb.bind hs))
  cases skip <;> exact h

theorem whileLoop_follows (frames : Frames) (cont : Continuation) {condition : VertexId}
    (h : (Statement.whileLoop id condition body skip).Holds graph) (laid : body.Laid graph statement)
    (laidSkip : ∀ b ∈ skip, b.Laid graph statement) :
    Follows graph (whileLoop graph statement frames id cont)
      ((Statement.whileLoop id condition body skip).fault? (innermostLoop? frames).isSome)
      (((Statement.whileLoop id condition body skip).junctions frames cont).flatMap Junction.steps) := by
  obtain ⟨-, hchildren, hcondition, hbody, hskip, hflags⟩ := h
  have hfirst : (graph.childrenWithLabel id .standardCondition).head? = some condition := by
    rw [childrenWithLabel, hchildren, filter_cons, if_pos (graph.is_iff.mpr hcondition)]
    rfl
  have hblocks : loopBlocks graph id = Plan.done (body.id, skip.map Block.id) :=
    loopBlocks_eq [condition] hchildren (by simp [is, hcondition]) hbody hskip hflags
  rw [whileLoop, hfirst, hblocks]
  exact guardedLoop_follows (⟨.whileLoopStatement, some ⟨cont, none⟩⟩ :: frames) (cont.leaving .whileLoopStatement) id
    condition .positive .negative laid laidSkip

theorem forEach_follows (frames : Frames) (cont : Continuation) {variable_ iterable : VertexId}
    (h : (Statement.forEach id variable_ iterable body skip).Holds graph) (laid : body.Laid graph statement)
    (laidSkip : ∀ b ∈ skip, b.Laid graph statement) :
    Follows graph (forEach graph statement frames id cont)
      ((Statement.forEach id variable_ iterable body skip).fault? (innermostLoop? frames).isSome)
      (((Statement.forEach id variable_ iterable body skip).junctions frames cont).flatMap Junction.steps) := by
  obtain ⟨-, hchildren, hvariable, hiterable, hbody, hskip, hflags⟩ := h
  have hblocks : loopBlocks graph id = Plan.done (body.id, skip.map Block.id) :=
    loopBlocks_eq [variable_, iterable] hchildren (by simpa [is, hvariable] using hiterable) hbody
    hskip hflags
  rw [forEach, childOf_eq (by rw [hchildren]; rfl) hvariable, Plan.done_bind, hblocks]
  exact guardedLoop_follows (⟨.forEachStatement, some ⟨cont, none⟩⟩ :: frames) (cont.leaving .forEachStatement) id
    variable_ .sequential .sequential laid laidSkip

theorem doLoop_follows (frames : Frames) (cont : Continuation) {condition : VertexId}
    (h : (Statement.doLoop id body condition).Holds graph) (laid : body.Laid graph statement) :
    Follows graph (doLoop graph statement frames id cont)
      ((Statement.doLoop id body condition).fault? (innermostLoop? frames).isSome)
      (((Statement.doLoop id body condition).junctions frames cont).flatMap Junction.steps) := by
  obtain ⟨-, hchildren, hcondition, hbody⟩ := h
  have hb := laid (⟨.doLoopStatement, some ⟨cont, some condition⟩⟩ :: frames) (.to condition)
  have hf : Follows graph _ none _ := Follows.flow condition (cont.leaving .doLoopStatement) .negative
  rw [doLoop, childOf_eq (by rw [hchildren]; rfl) hbody.label, Plan.done_bind,
    childOf_eq (by rw [hchildren]; rfl) hcondition, Plan.done_bind]
  simp only [Statement.junctions, flatMap_cons, flatMap_append, flatMap_nil, append_nil]
  have h := (Follows.edge id body.id .sequential).after (hb.bind hf)
  rwa [Option.or_none] at h

theorem loopHead_eq {init condition update : Option VertexId} {rest : List VertexId}
    (hc : graph.children id = init.toList ++ condition.toList ++ update.toList ++ rest)
    (hi : graph.flag id (.fact .hasInit) = init.isSome) (hk : graph.flag id (.fact .hasCondition) = condition.isSome)
    (hu : graph.flag id (.fact .hasUpdate) = update.isSome) : loopHead graph id = (init, condition, update) := by
  rw [loopHead, hc, hi, hk, hu]
  cases init <;> cases condition <;> cases update <;> rfl

theorem loopHead_follows (id : VertexId) (init condition : Option VertexId) (body : VertexId) (skip : Option VertexId)
    {plan : Plan Unit} {fault : Option Fault} {steps : List Step} (h : Follows graph plan fault steps) :
    Follows graph
      (do
        init.forM fun init => Plan.edge id init .sequential
        match condition with
        | some condition =>
          Plan.edge (init.getD id) condition .sequential
          Plan.edge condition body .positive
          skip.forM fun skip => Plan.edge condition skip .negative
        | none => Plan.edge (init.getD id) body .sequential
        plan)
      fault ((loopHeadJunctions id init condition body skip).flatMap Junction.steps ++ steps) := by
  have hinit : Follows graph _ none _ := Follows.optionEdge init id .sequential
  cases condition with
  | none =>
    have h := hinit.after ((Follows.edge (init.getD id) body .sequential).after h)
    cases init <;> exact h
  | some condition =>
    have hskip : Follows graph _ none _ := Follows.optionEdge skip condition .negative
    have hpositive := (Follows.edge condition body .positive).after (hskip.after h)
    have h := hinit.after ((Follows.edge (init.getD id) condition .sequential).after hpositive)
    cases init <;> cases skip <;> exact h

theorem forLoop_follows (frames : Frames) (cont : Continuation) {init condition update : Option VertexId}
    (h : (Statement.forLoop id init condition update body skip).Holds graph) (laid : body.Laid graph statement)
    (laidSkip : ∀ b ∈ skip, b.Laid graph statement) :
    Follows graph (forLoop graph statement frames id cont)
      ((Statement.forLoop id init condition update body skip).fault? (innermostLoop? frames).isSome)
      (((Statement.forLoop id init condition update body skip).junctions frames cont).flatMap Junction.steps) := by
  obtain ⟨-, hchildren, hinit, hcondition, hupdate, hplain, hlabel, hplain', hbody, hskip, hflags⟩ := h
  have hparts : ∀ v ∈ init.toList ++ condition.toList ++ update.toList, graph.is v .blockStatement = false := by
    intro v hv
    simp only [mem_append, Option.mem_toList] at hv
    rcases hv with (hv | hv) | hv
    · exact (hplain v hv).is_eq_false rfl
    · simp [is, hlabel v hv]
    · exact (hplain' v hv).is_eq_false rfl
  have hblocks : loopBlocks graph id = Plan.done (body.id, skip.map Block.id) :=
    loopBlocks_eq _ hchildren hparts hbody hskip hflags
  have hb := laid (⟨.forLoopStatement, some ⟨cont, update⟩⟩ :: frames)
    ((update.map Continuation.to).getD (cont.leaving .forLoopStatement))
  have hs := optionalBlock_follows (⟨.forLoopStatement, some ⟨cont, update⟩⟩ :: frames)
    (cont.leaving .forLoopStatement) skip laidSkip
  rw [forLoop, loopHead_eq hchildren hinit hcondition hupdate, hblocks]
  simp only [Statement.junctions, flatMap_append, List.append_assoc]
  cases update with
  | none => exact loopHead_follows id init condition body.id (skip.map Block.id) (hb.bind hs)
  | some update =>
    have hu : Follows graph _ none _ := Follows.flow update (cont.leaving .forLoopStatement) .sequential
    have h := hb.bind (hu.after hs)
    simp only [Option.toList_some, map_cons, map_nil, flatMap_cons, flatMap_nil, append_nil]
    exact loopHead_follows id init condition body.id (skip.map Block.id) h

/-! ## Clauses -/

theorem whenBlocks_follows (frames : Frames) (inner : Continuation) (whens : List Clause)
    (h : clausesHold graph NodeKind.isWhenBlock whens) (laid : ∀ clause ∈ whens, clause.body.Laid graph statement) :
    Follows graph (whenBlocks graph statement frames inner (whens.map Clause.id))
      (clausesFault? (innermostLoop? frames).isSome whens)
      ((clauseJunctions frames inner whens).flatMap Junction.steps) := by
  induction whens with
  | nil => exact .done
  | cons clause rest ih =>
    obtain ⟨id, kind, cases, body⟩ := clause
    obtain ⟨hlabel, -, hchildren, hbody, hrest⟩ := h
    have hlaid : Follows graph _ _ _ := laid _ mem_cons_self (⟨kind, none⟩ :: frames) (inner.leaving kind)
    have hih := ih hrest fun c hc => laid c (mem_cons_of_mem _ hc)
    rw [innermostLoop?_scope] at hlaid
    rw [map_cons, Clause.id, whenBlocks, hlabel, lastBlock?_eq hchildren hbody.label]
    simp only [clausesFault?, clauseJunctions, flatMap_cons, flatMap_append]
    exact (Follows.edge id body.id .sequential).after (hlaid.bind hih)

theorem catchBlocks_follows (frames : Frames) (after : Continuation) (catches : List Clause)
    (h : clausesHold graph (· == .catchBlockStatement) catches) (hc : ∀ clause ∈ catches, clause.cases = [])
    (laid : ∀ clause ∈ catches, clause.body.Laid graph statement) :
    Follows graph (catchBlocks graph statement frames after (catches.map Clause.id))
      (clausesFault? (innermostLoop? frames).isSome catches)
      ((clauseJunctions frames after catches).flatMap Junction.steps) := by
  induction catches with
  | nil => exact .done
  | cons clause rest ih =>
    obtain ⟨id, kind, cases, body⟩ := clause
    obtain ⟨-, hkind, hchildren, hbody, hrest⟩ := h
    obtain rfl : kind = .catchBlockStatement := by simpa using hkind
    obtain rfl : cases = [] := hc _ mem_cons_self
    have hlaid : Follows graph _ _ _ :=
      laid _ mem_cons_self (⟨.catchBlockStatement, none⟩ :: frames) (after.leaving .catchBlockStatement)
    have hih := ih hrest (fun c hm => hc c (mem_cons_of_mem _ hm)) fun c hm => laid c (mem_cons_of_mem _ hm)
    rw [innermostLoop?_scope] at hlaid
    rw [map_cons, Clause.id, catchBlocks, childOf_eq (by rw [hchildren]; rfl) hbody.label, Plan.done_bind]
    simp only [clausesFault?, clauseJunctions, flatMap_cons, flatMap_append]
    exact (Follows.edge id body.id .sequential).after (hlaid.bind hih)

theorem switch_follows (frames : Frames) (cont : Continuation) {subject : VertexId} {whens : List Clause}
    (h : (Statement.switch id subject whens).Holds graph) (laid : ∀ clause ∈ whens, clause.body.Laid graph statement) :
    Follows graph (switch graph statement frames id cont)
      ((Statement.switch id subject whens).fault? (innermostLoop? frames).isSome)
      (((Statement.switch id subject whens).junctions frames cont).flatMap Junction.steps) := by
  obtain ⟨-, hchildren, ⟨label, hsubject, hexpression⟩, hwhens⟩ := h
  have hfilter : (graph.children id).filter (fun child => (graph.label? child).any NodeKind.isWhenBlock) =
      whens.map Clause.id := by
    have h1 : label.isWhenBlock = false := by cases label <;> simp_all [NodeKind.isExpression, NodeKind.isWhenBlock]
    have h2 : (whens.map Clause.id).filter (fun child => (graph.label? child).any NodeKind.isWhenBlock) =
        whens.map Clause.id := by
      rw [filter_eq_self]
      intro v hv
      obtain ⟨kind, hl, hk⟩ := hwhens.label v hv
      simp [hl, hk]
    rw [hchildren, filter_cons, hsubject]
    simp [h1, h2]
  have hw := whenBlocks_follows (⟨.switchStatement, none⟩ :: frames) (cont.leaving .switchStatement) whens hwhens laid
  rw [innermostLoop?_scope] at hw
  rw [switch, hfilter, hchildren]
  simp only [Statement.fault?, Statement.junctions, flatMap_cons]
  refine (Follows.edge id subject .sequential).after ?_
  cases whens with
  | nil =>
    have hf : Follows graph _ none _ := Follows.flow subject (cont.leaving .switchStatement) .sequential
    exact hf.after hw
  | cons clause rest =>
    have he : Follows graph _ none _ := Follows.edges ((clause :: rest).map Clause.id) subject (fun v => v) .case
    simpa [Junction.steps, Function.comp_def] using he.after hw

theorem finallyBlock_eq {body : VertexId} {others : List VertexId} {final : Option Block}
    (hnodup : (graph.children id).Nodup) (hchildren : graph.children id = body :: (others ++ final.toList.map Block.id))
    (hflag : graph.flag id (.fact .hasFinally) = final.isSome) (hfinal : optionHolds graph final) :
    (if graph.flag id (.fact .hasFinally) then (lastBlock? graph id).filter (· != body) else none) =
    final.map Block.id := by
  cases final with
  | none => simp [hflag]
  | some block =>
    have hblock : block.Holds graph := hfinal
    have hlast : lastBlock? graph id = some block.id := lastBlock?_eq
      (show graph.children id = (body :: others) ++ [block.id] from hchildren) hblock.label
    have hne : block.id ≠ body := by
      rw [hchildren, nodup_cons] at hnodup
      intro e
      exact hnodup.1 (by simp [e])
    simp [hflag, hlast, hne]

/-- A `try` with its handlers and its `finally` block. -/
theorem tryCatch_follows (frames : Frames) (cont : Continuation) {catches : List Clause}
    {final : Option Block} (hnodup : (graph.children id).Nodup)
    (h : (Statement.tryCatch id body catches final).Holds graph)
    (laid : body.Laid graph statement) (laidCatches : ∀ clause ∈ catches, clause.body.Laid graph statement)
    (laidFinal : ∀ b ∈ final, b.Laid graph statement) :
    Follows graph (tryCatch graph statement frames id cont)
      ((Statement.tryCatch id body catches final).fault? (innermostLoop? frames).isSome)
      (((Statement.tryCatch id body catches final).junctions frames cont).flatMap Junction.steps) := by
  obtain ⟨-, hchildren, hflag, hbody, hcatches, hcases, hfinal⟩ := h
  have hhandlers : graph.childrenWithLabel id .catchBlockStatement = catches.map Clause.id := by
    have h1 : (catches.map Clause.id).filter (graph.is · .catchBlockStatement) = catches.map Clause.id := by
      rw [filter_eq_self]
      intro v hv
      obtain ⟨kind, hl, hk⟩ := hcatches.label v hv
      obtain rfl : kind = .catchBlockStatement := by simpa using hk
      exact graph.is_iff.mpr hl
    have h2 : (final.toList.map Block.id).filter (graph.is · .catchBlockStatement) = [] := by
      rw [filter_eq_nil_iff]
      intro v hv
      simp [is, hfinal.label v hv]
    rw [childrenWithLabel, hchildren, filter_cons, if_neg (by simp [is, hbody.label]),
      filter_append, h1, h2, append_nil]
  let frames' : Frames := ⟨.tryCatchFinallyBlockStatement, none⟩ :: frames
  let outer := cont.leaving .tryCatchFinallyBlockStatement
  let after := (final.map fun block => Continuation.to block.id).getD outer
  have hb : Follows graph _ _ _ := laid frames' after
  have hc := catchBlocks_follows frames' after catches hcatches hcases laidCatches
  have hf := optionalBlock_follows frames' outer final laidFinal
  have he : Follows graph _ none _ := Follows.edges (catches.map Clause.id) id (fun v => v) .sequential
  rw [innermostLoop?_scope] at hb hc hf
  rw [tryCatch, childOf_eq (by rw [hchildren]; rfl) hbody.label, Plan.done_bind, hhandlers,
    finallyBlock_eq hnodup hchildren hflag hfinal]
  simp only [Statement.fault?, Statement.junctions, flatMap_cons, flatMap_append]
  have h := (Follows.edge id body.id .sequential).after (he.after (hb.bind (hc.bind hf)))
  rw [← Option.or_assoc] at h
  simp only [Junction.steps, map_map, map_cons, isEmpty_nil, if_true, nil_append, Function.comp_def,
    List.append_assoc, cons_append] at h ⊢
  cases final <;> exact h

end

/-! ## Whole statements -/

section
variable {graph : CodeGraph}

theorem Statement.Holds.label {s : Statement} (h : s.Holds graph) : ∃ label, graph.label? s.id = some label := by
  cases s with
  | simple id =>
    obtain ⟨label, hl, -⟩ := h
    exact ⟨label, hl⟩
  | exit id => exact h.elim (fun h => ⟨_, h⟩) fun h => ⟨_, h⟩
  | breaks id => exact ⟨_, h⟩
  | continues id => exact ⟨_, h⟩
  | nested block =>
    have hb : block.Holds graph := h
    exact ⟨_, hb.label⟩
  | _ => exact ⟨_, h.1⟩

theorem statementWithin_succ (n : Nat) (frames : Frames) (id : VertexId) (cont : Continuation) :
    statementWithin graph (n + 1) frames id cont = statementWith graph (statementWithin graph n) frames id cont := rfl

theorem breakTo_follows (frames : Frames) (id : VertexId) :
    Follows graph (breakTo graph frames id) (if (innermostLoop? frames).isSome then none else some (.strayJump id))
      (((breakExit? frames).toList.map (Junction.handing id · .sequential)).flatMap Junction.steps) := by
  rw [breakTo, breakExit?]
  cases h : innermostLoop? frames with
  | none => rfl
  | some found =>
    obtain ⟨kinds, exits⟩ := found
    have hf : Follows graph _ none _ :=
      Follows.flow id ⟨exits.onBreak.target, kinds ++ exits.onBreak.endScopes⟩ .sequential
    simpa using hf

theorem continueTo_follows (frames : Frames) (id : VertexId) :
    Follows graph (continueTo graph frames id) (if (innermostLoop? frames).isSome then none else some (.strayJump id))
      (((continueExit? frames).toList.map (Junction.handing id · .sequential)).flatMap Junction.steps) := by
  have hbreak : Follows graph _ _ _ := breakTo_follows frames id
  rw [continueTo, continueExit?]
  cases h : innermostLoop? frames with
  | none =>
    rw [h] at hbreak
    exact hbreak
  | some found =>
    obtain ⟨kinds, onBreak, onContinue⟩ := found
    cases onContinue with
    | none =>
      rw [h] at hbreak
      exact hbreak
    | some target =>
      have hf : Follows graph _ none _ := Follows.flow id ⟨some target, kinds.dropLast⟩ .sequential
      simpa using hf

theorem simple_laid (n : Nat) (h : IsPlain graph id) :
    (Statement.simple id).Laid graph (statementWithin graph (n + 1)) := by
  intro frames cont
  obtain ⟨label, hl, hs, he⟩ := h
  have hf : Follows graph _ none _ := Follows.flow id cont .sequential
  have hplan : statementWithin graph (n + 1) frames id cont = flow id cont .sequential := by
    rw [statementWithin_succ, statementWith, hl]
    cases label <;> first | rfl | simp [NodeKind.isSimple, NodeKind.isDml, NodeKind.isExit] at hs he
  show Follows graph (statementWithin graph (n + 1) frames id cont) none
    ([Junction.handing id cont .sequential].flatMap _)
  rw [hplan, flatMap_singleton]
  exact hf

theorem fuel_of_child (forest : graph.IsForest) {n id : Nat} (hn : graph.vertexCount ≤ n + 1 + id) :
    ∀ v ∈ graph.children id, graph.vertexCount ≤ n + 1 + v := by
  intro v hv
  have hlt := forest.lt_of_mem hv
  omega

mutual

/-- Every statement lays its junctions; by induction on the statement. -/
theorem Statement.laid (forest : graph.IsForest) :
    (s : Statement) → (n : Nat) → s.Holds graph → graph.vertexCount ≤ n + 1 + s.id →
    s.Laid graph (statementWithin graph (n + 1))
  | .simple id, n, h, _ => simple_laid n h
  | .exit id, n, h, _ => by
    intro frames cont
    have he : Follows graph _ none _ := Follows.endScopes id (frames.map (·.kind))
    rw [Statement.junctions_exit, flatMap_singleton]
    rcases h with h | h
    · rw [Statement.id, statementWithin_succ, statementWith, h]
      exact he
    · rw [Statement.id, statementWithin_succ, statementWith, h]
      exact he
  | .breaks id, n, h, _ => by
    intro frames cont
    rw [Statement.id, statementWithin_succ, statementWith, h]
    exact breakTo_follows frames id
  | .continues id, n, h, _ => by
    intro frames cont
    rw [Statement.id, statementWithin_succ, statementWith, h]
    exact continueTo_follows frames id
  | .nested block, n, h, hn => by
    intro frames cont
    have hlabel : graph.label? (Statement.nested block).id = some .blockStatement := Block.Holds.label h
    have hb := block.laid forest n h (show graph.vertexCount ≤ n + 1 + block.id from hn)
    rw [statementWithin_succ, statementWith, hlabel]
    exact hb frames cont
  | .ifElse id branches otherwise, n, h, hn => by
    intro frames cont
    have hfuel : ∀ v ∈ graph.children id, graph.vertexCount ≤ n + 1 + v := fuel_of_child forest hn
    rw [h.2.2.1] at hfuel
    have hb := branches_laid forest branches n h.2.2.2.1 fun v hv => hfuel v (by simp [hv])
    have ho := option_laid forest otherwise n h.2.2.2.2 fun v hv => hfuel v (by simp [hv])
    rw [Statement.id, statementWithin_succ, statementWith, h.1]
    exact ifElse_follows frames cont h hb ho
  | .whileLoop id condition body skip, n, h, hn => by
    intro frames cont
    have hfuel : ∀ v ∈ graph.children id, graph.vertexCount ≤ n + 1 + v := fuel_of_child forest hn
    rw [h.2.1] at hfuel
    have hb := body.laid forest n h.2.2.2.1 (hfuel body.id (by simp))
    have hs := option_laid forest skip n h.2.2.2.2.1 fun v hv => hfuel v (by simp [hv])
    rw [Statement.id, statementWithin_succ, statementWith, h.1]
    exact whileLoop_follows frames cont h hb hs
  | .forEach id variable_ iterable body skip, n, h, hn => by
    intro frames cont
    have hfuel : ∀ v ∈ graph.children id, graph.vertexCount ≤ n + 1 + v := fuel_of_child forest hn
    rw [h.2.1] at hfuel
    have hb := body.laid forest n h.2.2.2.2.1 (hfuel body.id (by simp))
    have hs := option_laid forest skip n h.2.2.2.2.2.1 fun v hv => hfuel v (by simp [hv])
    rw [Statement.id, statementWithin_succ, statementWith, h.1]
    exact forEach_follows frames cont h hb hs
  | .forLoop id init condition update body skip, n, h, hn => by
    intro frames cont
    have h_ := h
    obtain ⟨hlabel, hchildren, -, -, -, -, -, -, hbody, hskip, -⟩ := h_
    have hfuel : ∀ v ∈ graph.children id, graph.vertexCount ≤ n + 1 + v := fuel_of_child forest hn
    rw [hchildren] at hfuel
    have hb := body.laid forest n hbody (hfuel body.id (by simp))
    have hs := option_laid forest skip n hskip fun v hv => hfuel v (by simp [hv])
    rw [Statement.id, statementWithin_succ, statementWith, hlabel]
    exact forLoop_follows frames cont h hb hs
  | .doLoop id body condition, n, h, hn => by
    intro frames cont
    have hfuel : ∀ v ∈ graph.children id, graph.vertexCount ≤ n + 1 + v := fuel_of_child forest hn
    rw [h.2.1] at hfuel
    have hb := body.laid forest n h.2.2.2 (hfuel body.id (by simp))
    rw [Statement.id, statementWithin_succ, statementWith, h.1]
    exact doLoop_follows frames cont h hb
  | .switch id subject whens, n, h, hn => by
    intro frames cont
    have hfuel : ∀ v ∈ graph.children id, graph.vertexCount ≤ n + 1 + v := fuel_of_child forest hn
    rw [h.2.1] at hfuel
    have hw := clauses_laid forest whens n _ h.2.2.2 fun v hv => hfuel v (by simp [hv])
    rw [Statement.id, statementWithin_succ, statementWith, h.1]
    exact switch_follows frames cont h hw
  | .tryCatch id body catches final, n, h, hn => by
    intro frames cont
    have hfuel : ∀ v ∈ graph.children id, graph.vertexCount ≤ n + 1 + v := fuel_of_child forest hn
    rw [h.2.1] at hfuel
    have hb := body.laid forest n h.2.2.2.1 (hfuel body.id (by simp))
    have hc := clauses_laid forest catches n _ h.2.2.2.2.1 fun v hv => hfuel v (by simp [hv])
    have hf := option_laid forest final n h.2.2.2.2.2.2 fun v hv => hfuel v (by simp [hv])
    rw [Statement.id, statementWithin_succ, statementWith, h.1]
    exact tryCatch_follows frames cont (forest.nodup_children id) h hb hc hf

theorem Block.laid (forest : graph.IsForest) :
    (b : Block) → (n : Nat) → b.Holds graph → graph.vertexCount ≤ n + 1 + b.id → b.Laid graph (statementWithin graph n)
  | .mk id body, n, h, hn => by
    have hfuel : ∀ s ∈ body, graph.vertexCount ≤ n + s.id := by
      intro s hs
      have hmem : s.id ∈ graph.children id := by
        rw [h.2.1]
        exact mem_map_of_mem hs
      have hlt := forest.lt_of_mem hmem
      have hfuel : graph.vertexCount ≤ n + 1 + id := hn
      omega
    refine block_laid h fun id' body' e => ?_
    obtain ⟨-, rfl⟩ := Block.mk.inj e
    exact statements_laid forest body n h.2.2 hfuel

theorem statements_laid (forest : graph.IsForest) : (body : List Statement) → (n : Nat) → statementsHold graph body →
    (∀ s ∈ body, graph.vertexCount ≤ n + s.id) → ∀ s ∈ body, s.Laid graph (statementWithin graph n)
  | [], _, _, _ => by simp
  | first :: rest, n, h, hn => by
    have hrest := statements_laid forest rest n h.2 fun t ht => hn t (mem_cons_of_mem _ ht)
    have hfirst : first.Laid graph (statementWithin graph n) := by
      obtain ⟨label, hl⟩ := h.1.label
      have hlt := graph.lt_of_label? hl
      have hfuel := hn first mem_cons_self
      cases n with
      | zero => omega
      | succ n => exact first.laid forest n h.1 hfuel
    exact forall_mem_cons.mpr ⟨hfirst, hrest⟩

theorem branches_laid (forest : graph.IsForest) : (branches : List Branch) → (n : Nat) → branchesHold graph branches →
    (∀ id ∈ branches.map Branch.id, graph.vertexCount ≤ n + 1 + id) →
    ∀ branch ∈ branches, branch.body.Laid graph (statementWithin graph n)
  | [], _, _, _ => by simp
  | .mk id condition body :: rest, n, h, hn => by
    have hrest := branches_laid forest rest n h.2.2.2.2 fun v hv => hn v (mem_cons_of_mem _ hv)
    have hlt := forest.lt_of_mem (show body.id ∈ graph.children id by rw [h.2.1]; simp)
    have hfuel := hn id mem_cons_self
    have hbody := body.laid forest n h.2.2.2.1 (by omega)
    exact forall_mem_cons.mpr ⟨hbody, hrest⟩

theorem clauses_laid (forest : graph.IsForest) :
    (clauses : List Clause) → (n : Nat) → (kinds : NodeKind → Bool) → clausesHold graph kinds clauses →
    (∀ id ∈ clauses.map Clause.id, graph.vertexCount ≤ n + 1 + id) →
    ∀ clause ∈ clauses, clause.body.Laid graph (statementWithin graph n)
  | [], _, _, _, _ => by simp
  | .mk id kind cases body :: rest, n, kinds, h, hn => by
    have hrest := clauses_laid forest rest n kinds h.2.2.2.2 fun v hv => hn v (mem_cons_of_mem _ hv)
    have hlt := forest.lt_of_mem (show body.id ∈ graph.children id by rw [h.2.2.1]; simp)
    have hfuel := hn id mem_cons_self
    have hbody := body.laid forest n h.2.2.2.1 (by omega)
    exact forall_mem_cons.mpr ⟨hbody, hrest⟩

theorem option_laid (forest : graph.IsForest) : (b : Option Block) → (n : Nat) → optionHolds graph b →
    (∀ id ∈ b.toList.map Block.id, graph.vertexCount ≤ n + 1 + id) →
    ∀ block ∈ b, block.Laid graph (statementWithin graph n)
  | none, _, _, _ => by simp
  | some block, n, h, hn => by
    have hb := block.laid forest n h (hn block.id (by simp))
    simpa using hb

end

end

end ApexPaths.Flow
