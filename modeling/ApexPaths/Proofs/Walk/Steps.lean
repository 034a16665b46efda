import ApexPaths.Proofs.Walk.Blocks
import ApexPaths.Proofs.Walk.Evaluation

/-!
Steps and runs. A step takes the outline of the running method through the opening of a scope, the
declarations of its vertex and the closing of scopes; a run goes through the steps of its path and leaves the
other methods as they were.
-/

namespace ApexPaths
set_option autoImplicit false

open WalkM List

variable {σ τ : Type}

/-- A loop over items, each of which changes the outlines and what relates the observations. -/
theorem Agrees.forM_through {α : Type} {failed : σ → τ → Prop} (within : List α → σ → τ → Prop)
    (at_ : List α → List FrameOutline) {f : α → WalkM σ PUnit} {f' : α → WalkM τ PUnit} (items : List α)
    (h : ∀ done item todo, items = done ++ item :: todo →
      Agrees failed (within done) (at_ done) (f item) (f' item) (within (done ++ [item])) (at_ (done ++ [item]))) :
    Agrees failed (within []) (at_ []) (items.forM f) (items.forM f') (within items) (at_ items) := by
  suffices hrest : ∀ done todo, items = done ++ todo →
      Agrees failed (within done) (at_ done) (todo.forM f) (todo.forM f') (within items) (at_ items) from hrest []
      items rfl
  intro done todo hsplit
  induction todo generalizing done with
  | nil =>
    rw [append_nil] at hsplit
    subst hsplit
    exact .pure _ id
  | cons item todo ih =>
    have hnext : items = (done ++ [item]) ++ todo := by simpa using hsplit
    exact (h done item todo hsplit).bind fun _ => ih _ hnext

namespace Walker

variable {walker : Walker σ} {visitor : Visitor τ} {perform : Perform σ} {perform' : Perform τ}
  {failed related : σ → τ → Prop} {admits : List FrameOutline → Task → Prop}

/-! ## Declarations -/

theorem keeps_loopElement (loop : VertexId) (type : String) (outlines : List FrameOutline) :
    Keeps failed related outlines (loopElement loop type : WalkM σ Value) (loopElement loop type) := by
  refine .get_bind fun state observed _ _ => ?_
  dsimp only [WalkState.watched]
  split <;> exact .ret _

/-- Which initializers of a vertex may be evaluated: each after the variables before it are declared. -/
def AdmitsInits (walker : Walker σ) (admits : List FrameOutline → Task → Prop) (top : FrameOutline)
    (rest : List FrameOutline) (path : CodePath) (v : VertexId) : Prop :=
  ∀ done declaration todo, walker.declaredVariables v = done ++ declaration :: todo →
    (walker.graph.parent? v).filter (walker.graph.is · .forEachStatement) = none →
    ∀ init ∈ walker.graph.childAt? declaration.1 0,
    admits (top.declareAll (done.map Prod.snd) :: rest) (.eval (some path) init)

theorem declareAll_append (outline : FrameOutline) (done : List (String × String)) (entry : String × String) :
    outline.declareAll (done ++ [entry]) = (outline.declareAll done).declare entry.1 entry.2 := by
  rw [FrameOutline.declareAll, FrameOutline.declareAll, foldl_append]
  rfl

theorem agrees_declareVariables (hperform : Performs admits failed related perform perform') {top : FrameOutline}
    {rest : List FrameOutline} {path : CodePath} {v : VertexId} (hinits : AdmitsInits walker admits top rest path v) :
    Agrees failed related (top :: rest) (walker.declareVariables perform path v)
      ((walker.watchedBy visitor).declareVariables perform' path v) related
      (top.declareAll ((walker.declaredVariables v).map Prod.snd) :: rest) := by
  refine Agrees.forM_through (fun _ => related) (fun done => top.declareAll (done.map Prod.snd) :: rest)
    (walker.declaredVariables v) fun done declaration todo hsplit => ?_
  obtain ⟨id, name, type⟩ := declaration
  have hdeclare : ∀ value : Value, Agrees failed related (top.declareAll (done.map Prod.snd) :: rest)
      (declare name type value : WalkM σ Unit) (declare name type value) related
      (top.declareAll ((done ++ [(id, name, type)]).map Prod.snd) :: rest) := by
    intro value
    rw [map_append, map_singleton, declareAll_append]
    exact agrees_declare name type value
  rw [graph_watchedBy]
  dsimp only
  cases hloop : (walker.graph.parent? v).filter (walker.graph.is · .forEachStatement) with
  | some loop => exact (keeps_loopElement loop type _).bind hdeclare
  | none =>
    cases hinit : walker.graph.childAt? id 0 with
    | none => exact (Agrees.ret _).bind hdeclare
    | some init =>
      have heval := hperform.keeps (hinits done _ todo hsplit hloop init hinit)
      exact heval.bind fun value => (Agrees.ret _).bind hdeclare

theorem agrees_declareClauseVariable (top : FrameOutline) (rest : List FrameOutline) (clause : VertexId) :
    Agrees failed related (top :: rest) (walker.declareClauseVariable clause)
      ((walker.watchedBy visitor).declareClauseVariable clause) related
      (top.declareAll ((walker.graph.name? clause).toList.map (·, walker.program.typeOfDeclaration clause)) ::
      rest) := by
  rw [declareClauseVariable, declareClauseVariable, graph_watchedBy]
  cases walker.graph.name? clause with
  | none => exact .pure _ id
  | some name => exact .get_bind fun state observed _ _ => agrees_declare ..

theorem keeps_bindCounter (top : FrameOutline) (rest : List FrameOutline) (loop condition : VertexId) :
    Keeps failed related (top :: rest) (walker.bindCounter loop condition)
    ((walker.watchedBy visitor).bindCounter loop condition) := by
  rw [bindCounter, bindCounter, graph_watchedBy]
  cases Counter.name? walker.graph loop with
  | none => exact .ret _
  | some counter =>
    refine agrees_frame.bind fun frame => agrees_modifyFrame fun running hrunning => ?_
    rw [running.outline_assigned, hrunning]

/-! ## Vertices -/

/-- Which expressions of a vertex may be evaluated. -/
structure AdmitsVertex (walker : Walker σ) (admits : List FrameOutline → Task → Prop) (top : FrameOutline)
    (rest : List FrameOutline) (path : CodePath) (v : VertexId) : Prop where
  inits : AdmitsInits walker admits top rest path v
  roots : walker.graph.declares v = false → ∀ root ∈ walker.graph.evaluatedRoots v,
    admits (top :: rest) (.eval (some path) root)

section
variable (hperform : Performs admits failed related perform perform') {top : FrameOutline} {rest : List FrameOutline}
    {path : CodePath} {v : VertexId}
include hperform

theorem keeps_first {exprs : List VertexId} (hexprs : ∀ expr ∈ exprs, admits (top :: rest) (.eval (some path) expr))
    (index : Nat) : Keeps failed related (top :: rest) (exprs[index]?.mapM fun expr => perform (.eval (some path) expr))
      (exprs[index]?.mapM fun expr => perform' (.eval (some path) expr)) :=
  .optionMapM _ fun _ hexpr => hperform.keeps (hexprs _ (mem_of_getElem? hexpr))

theorem keeps_condition (hroots : ∀ root ∈ walker.graph.children v, admits (top :: rest) (.eval (some path) root))
    (loop : Option VertexId) : Keeps failed related (top :: rest)
      (do
        match loop with
        | some loop => walker.bindCounter loop v
        | none => pure ()
        discard ((walker.graph.childAt? v 0).mapM fun expr => perform (.eval (some path) expr)))
      (do
        match loop with
        | some loop => (walker.watchedBy visitor).bindCounter loop v
        | none => pure ()
        discard ((walker.graph.childAt? v 0).mapM fun expr => perform' (.eval (some path) expr))) := by
  have hfirst := (keeps_first hperform hroots 0).discard
  cases loop with
  | none => exact hfirst
  | some loop => exact (keeps_bindCounter top rest loop v).bind fun _ => hfirst

theorem agrees_evaluateVertex (hvertex : AdmitsVertex walker admits top rest path v) :
    Agrees failed related (top :: rest) (walker.evaluateVertex perform path v)
      ((walker.watchedBy visitor).evaluateVertex perform' path v) related (top.declareAll (walker.declared v) ::
      rest) := by
  have hroots := hvertex.roots
  rw [evaluateVertex, evaluateVertex, declared, graph_watchedBy,
    show (walker.watchedBy visitor).isUpdate = walker.isUpdate from rfl]
  rw [CodeGraph.evaluatedRoots] at hroots
  generalize hlabel : walker.graph.labelOf v = label at hroots
  have hplain : label ≠ .variableDeclarationStatements → walker.graph.declares v = false := by
    intro hne
    refine Bool.eq_false_iff.mpr fun hdeclares => hne ?_
    rw [← hlabel, CodeGraph.labelOf_eq (walker.graph.is_iff.mp hdeclares)]
  have hchild : ∀ {child : VertexId},
    child ∈ ((walker.graph.children v).filter fun child => (walker.graph.labelOf child).isExpression) →
    child ∈ walker.graph.children v := fun h => (mem_filter.mp h).1
  cases label
  case variableDeclarationStatements => exact agrees_declareVariables hperform hvertex.inits
  case expressionStatement =>
    have hfirst := (keeps_first hperform (hroots (hplain (by simp))) 0).discard
    dsimp only
    split
    · exact hfirst
    · exact .ret _
  case returnStatement =>
    refine (keeps_first hperform (hroots (hplain (by simp))) 0).bind fun value => ?_
    cases value with
    | none => exact .ret _
    | some value => exact agrees_modifyFrame fun _ h => h
  case standardCondition => exact keeps_condition hperform (hroots (hplain (by simp))) _
  case forEachStatement =>
    have hiterable : walker.graph.iterable? v = walker.graph.childAt? v 1 := by
      rw [CodeGraph.iterable?, hlabel]
      rfl
    have hadmitted := hroots (hplain (by simp))
    refine (Agrees.optionMapM _ fun expr hexpr => hperform.keeps (hadmitted expr ?_)).bind fun value => ?_
    · rw [← hiterable]
      exact Option.mem_toList.mpr hexpr
    · cases value with
      | none => exact .ret _
      | some value => exact .modify fun state observed houtlines hrelated => ⟨observed, rfl, houtlines, hrelated⟩
  case typeWhenBlock => exact agrees_declareClauseVariable top rest v
  case catchBlockStatement => exact agrees_declareClauseVariable top rest v
  case throwStatement | dmlInsertStatement | dmlUpdateStatement | dmlUpsertStatement | dmlDeleteStatement |
      dmlUndeleteStatement | dmlMergeStatement =>
    have hadmitted := hroots (hplain (by simp))
    exact .forM _ fun child hmem => (hperform.keeps (hadmitted child (hchild hmem))).discard
  all_goals first
    | exact .ret _
    | refine (hperform.keeps (hroots (hplain (by simp)) v mem_cons_self)).bind fun value => ?_
      cases (walker.graph.parent? v).filter (walker.graph.is · .switchStatement) with
      | none => exact .ret _
      | some switch => exact .modify fun state observed houtlines hrelated => ⟨observed, rfl, houtlines, hrelated⟩

omit hperform in
theorem agrees_skipVertex (top : FrameOutline) (rest : List FrameOutline) (v : VertexId) :
    Agrees failed related (top :: rest) (walker.skipVertex v) ((walker.watchedBy visitor).skipVertex v) related
      (top.declareAll (walker.declared v) :: rest) := by
  rw [skipVertex, skipVertex, declared, graph_watchedBy]
  generalize walker.graph.labelOf v = label
  cases label
  case variableDeclarationStatements =>
    refine Agrees.forM_through (fun _ => related) (fun done => top.declareAll (done.map Prod.snd) :: rest)
      (walker.declaredVariables v) fun done declaration todo _ => ?_
    rw [map_append, map_singleton, declareAll_append]
    exact agrees_declare ..
  case typeWhenBlock => exact agrees_declareClauseVariable top rest v
  case catchBlockStatement => exact agrees_declareClauseVariable top rest v
  all_goals exact .ret _

end

/-! ## Steps -/

/-- The visitors agree about a vertex that is entered under some outlines. -/
def VisitsAlike (visitor : Visitor σ) (visitor' : Visitor τ) (before after : σ → τ → Prop)
    (outlines : List FrameOutline) (v : VertexId) : Prop :=
  ∀ (symbols : Symbols) (o : σ) (o' : τ), symbols.frames.map Frame.outline = outlines → before o o' →
    (visitor.visit v symbols o).1 = (visitor'.visit v symbols o').1 ∧
    after (visitor.visit v symbols o).2 (visitor'.visit v symbols o').2

theorem agrees_visit {before after : σ → τ → Prop} {outlines : List FrameOutline} {v : VertexId}
    (h : VisitsAlike walker.visitor visitor before after outlines v) :
    Agrees failed before outlines (walker.visit v) ((walker.watchedBy visitor).visit v) after outlines := by
  refine ⟨fun state observed houtlines hbefore => ?_⟩
  obtain ⟨hconsent, hafter⟩ := h state.symbols state.observed observed houtlines hbefore
  refine ⟨(visitor.visit v state.symbols observed).2, ?_, houtlines, hafter⟩
  show ((Except.ok (visitor.visit v state.symbols observed).1, _) : Except EngineError Bool × WalkState τ) = _
  rw [← hconsent]
  rfl

/-- What visitors do with the outlines of a step. -/
structure Observes (walker : Walker σ) (visitor : Visitor τ) (before middle after : σ → τ → Prop) (top : FrameOutline)
    (rest : List FrameOutline) (v : VertexId) : Prop where
  visit : VisitsAlike walker.visitor visitor before middle (walker.entering top v :: rest) v
  afterVisit : ∀ (symbols : Symbols) (o : σ) (o' : τ),
    symbols.frames.map Frame.outline = (walker.entering top v).declareAll (walker.declared v) :: rest → middle o o' →
    after (walker.visitor.afterVisit v symbols o) (visitor.afterVisit v symbols o')

/-- A step agrees with its watched run. -/
theorem agrees_step {before middle after : σ → τ → Prop} (hadmits : Admits walker.graph admits)
    (hperform : Performs admits failed middle perform perform') {top : FrameOutline} {rest : List FrameOutline}
    {path : CodePath}
    {v : VertexId} (hvertex : AdmitsVertex walker admits (walker.entering top v) rest path v)
    (hinits : ∀ init ∈ path.staticInits, ∀ outlines, admits outlines (.invoke init.2.2 none []))
    (hobserves : Observes walker visitor before middle after top rest v) :
    Agrees failed before (top :: rest) (walker.step perform path v)
    ((walker.watchedBy visitor).step perform' path v) after (walker.passing top v :: rest) := by
  have hleave : Agrees failed middle ((walker.entering top v).declareAll (walker.declared v) :: rest)
      (do
        let seen ← symbols
        notify (walker.visitor.afterVisit v seen)
        modifyFrame (·.popBlocks (walker.graph.endScopes v).length))
      (do
        let seen ← symbols
        notify (visitor.afterVisit v seen)
        modifyFrame (·.popBlocks (walker.graph.endScopes v).length)) after (walker.passing top v :: rest) := by
    refine .get_bind fun state observed houtlines _ => ?_
    have hnotify : Agrees failed middle ((walker.entering top v).declareAll (walker.declared v) :: rest)
        (notify (walker.visitor.afterVisit v state.symbols)) (notify (visitor.afterVisit v state.symbols)) after
        ((walker.entering top v).declareAll (walker.declared v) :: rest) :=
      agrees_notify fun hmiddle => hobserves.afterVisit state.symbols _ _ houtlines hmiddle
    exact hnotify.bind fun _ => agrees_modifyFrame fun frame h => by rw [frame.outline_popBlocks, h, passing]
  have hstatics : Keeps failed middle (walker.entering top v :: rest) (walker.runStaticInits perform path (some v))
      ((walker.watchedBy visitor).runStaticInits perform' path (some v)) :=
    keeps_runStaticInits hadmits hperform path (some v) fun init hinit => hinits init hinit _
  rw [step, step, graph_watchedBy]
  dsimp only
  have hmain : Agrees failed before (walker.entering top v :: rest)
      (do
        if ← walker.visit v then
          walker.runStaticInits perform path (some v)
          walker.evaluateVertex perform path v
        else
          walker.skipVertex v
        let seen ← symbols
        notify (walker.visitor.afterVisit v seen)
        modifyFrame (·.popBlocks (walker.graph.endScopes v).length))
      (do
        if ← (walker.watchedBy visitor).visit v then
          (walker.watchedBy visitor).runStaticInits perform' path (some v)
          (walker.watchedBy visitor).evaluateVertex perform' path v
        else
          (walker.watchedBy visitor).skipVertex v
        let seen ← symbols
        notify (visitor.afterVisit v seen)
        modifyFrame (·.popBlocks (walker.graph.endScopes v).length)) after (walker.passing top v :: rest) := by
    refine (agrees_visit hobserves.visit).bind fun consent => ?_
    cases consent with
    | true => exact hstatics.bind fun _ => (agrees_evaluateVertex hperform hvertex).bind fun _ => hleave
    | false => exact (agrees_skipVertex _ rest v).bind fun _ => hleave
  split
  · rename_i ho
    refine (agrees_modifyFrame fun frame hframe => ?_).bind fun _ => hmain
    rw [frame.outline_pushBlock, hframe, entering, if_pos ho]
  · rename_i ho
    have hsame : walker.entering top v = top := if_neg ho
    rw [hsame] at hmain
    exact hmain

/-! ## Runs of methods -/

/-- The variables that the parameters of a method bind. -/
def parameterOutline (walker : Walker σ) (method : VertexId) : VariableOutline :=
  bindAll [] ((walker.graph.parameters method).map fun parameter => (parameter.name, parameter.type))

theorem outline_bindParameters (bound : VariableMap) (parameters : List Parameter) (args : List Value) :
    (bindParameters bound parameters args).outline =
      bindAll bound.outline (parameters.map fun parameter => (parameter.name, parameter.type)) := by
  induction parameters generalizing bound args with
  | nil => rfl
  | cons parameter parameters ih =>
    obtain ⟨name, type⟩ := parameter
    cases args with
    | nil => rw [bindParameters, ih, VariableMap.outline_declare, map_cons, bindAll, bindAll, foldl_cons]
    | cons arg args =>
      rw [bindParameters, ih, VariableMap.outline_declare, map_cons, bindAll, bindAll, foldl_cons]

theorem outline_methodFrame (walker : Walker σ) (method : VertexId) (this : Option HeapRef) (args : List Value) :
    (walker.methodFrame method this args).outline = ⟨walker.parameterOutline method, []⟩ :=
  congrArg (FrameOutline.mk · []) (outline_bindParameters [] _ args)

/-- A method agrees with its watched run; by induction on its vertices. -/
theorem agrees_runMethod (within : List VertexId → σ → τ → Prop) {path : CodePath} {frame : Frame}
    {rest : List FrameOutline} (henter : ∀ (symbols : Symbols) (o : σ) (o' : τ), symbols.frames.map Frame.outline =
    frame.outline :: rest → related o o' →
    within [] (walker.visitor.enterMethod path.method symbols o) (visitor.enterMethod path.method symbols o'))
    (hstep : ∀ done v todo, path.ids = done ++ v :: todo →
      Agrees failed (within done) (done.foldl walker.passing frame.outline :: rest) (walker.step perform path v)
        ((walker.watchedBy visitor).step perform' path v) (within (done ++ [v]))
        (walker.passing (done.foldl walker.passing frame.outline) v :: rest))
    (hexit : ∀ (returned : Option Value) (o : σ) (o' : τ), within path.ids o o' →
      related (walker.visitor.exitMethod path.method returned o) (visitor.exitMethod path.method returned o')) :
    Keeps failed related rest (walker.runMethod perform path frame)
    ((walker.watchedBy visitor).runMethod perform' path frame) := by
  have hsteps : Agrees failed (within []) (frame.outline :: rest) (path.ids.forM (walker.step perform path))
      (path.ids.forM ((walker.watchedBy visitor).step perform' path)) (within path.ids)
      (path.ids.foldl walker.passing frame.outline :: rest) := by
    refine Agrees.forM_through within (fun done => done.foldl walker.passing frame.outline :: rest) path.ids
      fun done v todo h => ?_
    rw [foldl_append]
    exact hstep done v todo h
  have hfinish : Agrees failed (within path.ids) (path.ids.foldl walker.passing frame.outline :: rest)
      (do
        let left ← popFrame
        notify (walker.visitor.exitMethod path.method left.returned)
        return left.returned)
      (do
        let left ← popFrame
        notify (visitor.exitMethod path.method left.returned)
        return left.returned) related rest := by
    refine agrees_popFrame.bind fun left => ?_
    have hnotify : Agrees failed (within path.ids) rest (notify (walker.visitor.exitMethod path.method left.returned))
        (notify (visitor.exitMethod path.method left.returned)) related rest := agrees_notify fun h => hexit _ _ _ h
    exact hnotify.bind fun _ => .ret _
  refine (agrees_pushFrame frame).bind fun _ => .get_bind fun state observed houtlines _ => ?_
  have hnotify :
    Agrees failed related (frame.outline :: rest) (notify (walker.visitor.enterMethod path.method state.symbols))
    (notify (visitor.enterMethod path.method state.symbols)) (within []) (frame.outline :: rest) :=
    agrees_notify fun h => henter _ _ _ houtlines h
  exact hnotify.bind fun _ => hsteps.bind fun _ => hfinish

/-! ## Paths -/

/-- Two walkers run a path alike, whatever they observe. -/
def RunsAlike (walker : Walker σ) (visitor : Visitor τ) (perform : Perform σ) (perform' : Perform τ)
    (failed related : σ → τ → Prop) (path : CodePath) : Prop :=
  ∀ (this : Option HeapRef) (args : List Value) (outlines : List FrameOutline), Keeps failed related outlines
    (walker.runMethod perform path (walker.methodFrame path.method this args))
    ((walker.watchedBy visitor).runMethod perform' path (walker.methodFrame path.method this args))

section
variable (hadmits : Admits walker.graph admits) (hperform : Performs admits failed related perform perform')
    {path : CodePath} (hinits : ∀ init ∈ path.staticInits, ∀ outlines, admits outlines (.invoke init.2.2 none []))
  (hruns : RunsAlike walker visitor perform perform' failed related path)
include hadmits hperform hinits hruns

theorem keeps_invokePath (this : Option HeapRef) (args : List Value) (outlines : List FrameOutline) :
    Keeps failed related outlines (walker.invokePath perform path this args)
    ((walker.watchedBy visitor).invokePath perform' path this args) := by
  have hstatics : Keeps failed related outlines (walker.runStaticInits perform path none)
      ((walker.watchedBy visitor).runStaticInits perform' path none) :=
    keeps_runStaticInits hadmits hperform path none fun init hinit => hinits init hinit outlines
  exact hstatics.bind fun _ => (hruns _ args outlines).bind fun _ => .ret _

theorem keeps_walkPath (outlines : List FrameOutline) : Keeps failed related outlines (walker.walkPath perform path)
    ((walker.watchedBy visitor).walkPath perform' path) := by
  have hstatics : Keeps failed related outlines (walker.runStaticInits perform path none)
      ((walker.watchedBy visitor).runStaticInits perform' path none) :=
    keeps_runStaticInits hadmits hperform path none fun init hinit => hinits init hinit outlines
  have hrun := fun this => hruns this [] outlines
  have hobject : ∀ owner : Option VertexId, Keeps failed related outlines
      (do
        let this ← if walker.graph.isStatic path.method then pure none else owner.mapM (walker.instantiate perform)
        walker.runMethod perform path (walker.methodFrame path.method this []))
      (do
        let this ← if walker.graph.isStatic path.method then pure none
          else owner.mapM ((walker.watchedBy visitor).instantiate perform')
        (walker.watchedBy visitor).runMethod perform' path (walker.methodFrame path.method this [])) := by
    intro owner
    split
    · exact hrun none
    · exact (Agrees.optionMapM _ fun type _ => keeps_instantiate hadmits hperform type outlines).bind hrun
  rw [walkPath, walkPath, graph_watchedBy]
  refine hstatics.bind fun _ => ?_
  cases walker.graph.enclosingType? path.method with
  | none => exact hobject none
  | some type => exact (keeps_ensureInitialized hadmits hperform type outlines).bind fun _ => hobject (some type)

end

end Walker
end ApexPaths
