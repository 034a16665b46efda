import ApexPaths.Proofs.Concrete.Evaluation

/-!
Vertices, steps and runs beside concrete executions. A step from a frame that shows a store leads to one that shows
the store after the vertex, and a run along a path shows what an execution along the path passes.
-/

namespace ApexPaths
set_option autoImplicit false

open WalkM Concrete List

variable {σ : Type}
variable {v : VertexId} {frames : List Frame}

/-! ## Expressions that change variables -/

namespace Concrete

variable {graph : CodeGraph} {path : CodePath} {chain : Chain} {store : Store} {expr : VertexId}
    {passings : List Passing}

theorem changes_eq_false_of_evaluates {datum : Datum} (h : Evaluates graph path chain store expr datum passings) :
    graph.changes expr = false := by
  have hlabel : ∀ {kind}, graph.labelOf expr = kind → kind ≠ .assignmentExpression → kind ≠ .prefixExpression →
    kind ≠ .postfixExpression → graph.changes expr = false := by
    rintro _ rfl hassignment hprefix hpostfix
    rw [CodeGraph.changes]
    split <;> simp_all
  cases h with
  | not label _ operator | minus label _ operator =>
    rw [CodeGraph.changes, label, operator]
    decide
  | _ => exact hlabel ‹graph.labelOf expr = _› (by decide) (by decide) (by decide)

theorem changes_eq_true_of_changes {after : Store} (h : Changes graph path chain store expr after passings) :
    graph.changes expr = true := by
  cases h with
  | assign label | compound label => rw [CodeGraph.changes, label]
  | step label _ _ _ operator performs =>
    have hop : (["++", "--"].contains ((graph.text? expr (.fact .operator)).getD "")) = true := by
      rw [operator, Option.getD_some]
      unfold Datum.step? at performs
      split at performs <;> first | decide | cases performs
    rw [CodeGraph.changes]
    rcases label with label | label <;> rw [label] <;> exact hop

end Concrete

/-- A vertex was passed. Only the running method is changed. -/
def PassedOver (graph : CodeGraph) (path : CodePath) (chain : Chain) (v : VertexId) (top : Frame)
    (rest left : List Frame) (added : List Moment) : Prop :=
  ∃ next, left = next :: rest ∧ ∀ vertex store after passings, vertex.id = v → ShowsStore top store →
    Passes graph path chain store vertex after passings → ShowsStore next after ∧ Embeds passings added

/-- A step was taken over a vertex: the journal notes the store after it, and the blocks that end there are closed. -/
def SteppedOver (graph : CodeGraph) (path : CodePath) (chain : Chain) (v : VertexId) (top : Frame)
    (rest left : List Frame) (added : List Moment) : Prop :=
  ∃ next, left = next.popBlocks (graph.endScopes v).length :: rest ∧ ∀ vertex store after passings, vertex.id = v →
    ShowsStore (entered graph v top) store → Passes graph path chain store vertex after passings →
    ShowsStore next after ∧ Embeds (passings ++ [⟨chain, v, after⟩]) added

namespace Walker

section
variable {walker : Walker (Journal σ)} {perform : Perform (Journal σ)} {expanded : CodePath → Prop} {path : CodePath}
    {site : Option VertexId} {top : Frame} {rest : List Frame} {chain : Chain} (forest : walker.graph.IsForest)
    (arithmetic : walker.graph.IsArithmetic) (hperform : Propagates walker.graph expanded perform site)
    (hpath : expanded path)
include forest arithmetic hperform hpath

/-! ## Declarations -/

theorem leaves_declaring {declaration : VertexId} (hlabel : walker.graph.labelOf declaration ≠ .expressionStatement)
    (name type : String) : Leaves (top :: rest) chain (do
      let value ← match (none : Option VertexId), walker.graph.childAt? declaration 0 with
        | some loop, _ => loopElement loop type
        | none, some init => pure ((← perform (.eval (some path) init)).retyped type)
        | none, none => pure ((Value.nullOf type).withOrigin declaration)
      declare name type value) fun _ left added => ∃ next, left = next :: rest ∧ ∀ store, ShowsStore top store →
        (∀ init datum passings, walker.graph.childAt? declaration 0 = some init →
        Evaluates walker.graph path chain store init datum passings → ShowsStore next (store.declare name datum) ∧
        Embeds passings added) ∧
        (walker.graph.childAt? declaration 0 = none → ShowsStore next (store.declare name .null)) := by
  have hdeclare : ∀ value,
    Leaves (top :: rest) chain (declare name type value : WalkM (Journal σ) Unit) fun _ left added =>
      left = top.declare name type value :: rest ∧ added = [] := fun value => .modifyFrame _
  cases hinit : walker.graph.childAt? declaration 0 with
  | none =>
    refine (hdeclare _).imp fun _ left added hleft =>
      ⟨_, hleft.1, fun store hstore => ⟨by simp, fun _ => hstore.declare name type ?_⟩⟩
    exact (Value.shows_nullOf type).withOrigin declaration
  | some init =>
    refine Leaves.bind (hperform.eval hpath (arithmetic.changes_eq_false forest (mem_of_getElem? hinit) hlabel))
      fun value next added hvalue => ?_
    obtain ⟨rfl, hvalue⟩ := hvalue
    refine (hdeclare _).imp fun _ left more hleft =>
      ⟨_, hleft.1, fun store hstore => ⟨fun other datum passings hother hhas => ?_, by simp⟩⟩
    cases hother
    obtain ⟨hshows, hembeds⟩ := hvalue store datum passings hstore hhas
    exact ⟨hstore.declare name type (hshows.retyped type), hembeds.later more⟩

/-- A declaration binds its variables one after the other. -/
theorem leaves_declareVariables (v : VertexId) :
    Leaves (top :: rest) chain (walker.declareVariables perform path v) fun _ left added => ∃ next,
    left = next :: rest ∧ ∀ store after passings, ShowsStore top store →
        Declares walker.graph path chain store (walker.graph.childrenWithLabel v .variableDeclaration) after passings →
        ShowsStore next after ∧ Embeds passings added := by
  have hloop : (walker.graph.parent? v).filter (walker.graph.is · .forEachStatement) = none :=
    Option.filter_eq_none_iff.mpr fun parent _ => by rw [arithmetic.not_is rfl]; simp
  have hlabels : ∀ declaration ∈ walker.graph.childrenWithLabel v .variableDeclaration,
      walker.graph.labelOf declaration ≠ .expressionStatement := by
    intro declaration hmem
    rw [CodeGraph.labelOf_eq (walker.graph.is_iff.mp (mem_filter.mp hmem).2)]
    simp
  rw [declareVariables, hloop, declaredVariables]
  generalize walker.graph.childrenWithLabel v .variableDeclaration = declarations at hlabels
  induction declarations generalizing top with
  | nil =>
    refine .pure ⟨top, rfl, fun store after passings hstore hdeclares => ?_⟩
    cases hdeclares
    exact ⟨hstore, .nil⟩
  | cons declaration declarations ih =>
    obtain ⟨hlabel, hlabels⟩ := forall_mem_cons.mp hlabels
    refine (leaves_declaring forest arithmetic hperform hpath hlabel ((walker.graph.name? declaration).getD "")
      (walker.variableType v declaration)).bind fun _ left added hleft => ?_
    obtain ⟨next, rfl, hnext⟩ := hleft
    refine (ih hlabels).imp fun _ left more hlast => ?_
    obtain ⟨last, rfl, hlast⟩ := hlast
    refine ⟨last, rfl, fun store after passings hstore hdeclares => ?_⟩
    obtain ⟨hinitial, hnull⟩ := hnext store hstore
    cases hdeclares with
    | initial hinit hhas hrest =>
      obtain ⟨hshows, hembeds⟩ := hinitial _ _ _ hinit hhas
      obtain ⟨hshows', hembeds'⟩ := hlast _ _ _ hshows hrest
      exact ⟨hshows', hembeds.append hembeds'⟩
    | null hinit hrest =>
      obtain ⟨hshows, hembeds⟩ := hlast _ _ _ (hnull hinit) hrest
      exact ⟨hshows, hembeds.earlier added⟩

/-! ## Vertices -/

omit forest arithmetic in
theorem leaves_expression (hlabel : walker.graph.labelOf v = .expressionStatement) :
    Leaves (top :: rest) chain (discard ((walker.graph.childAt? v 0).mapM fun expr => perform (.eval (some path) expr)))
      fun _ => PassedOver walker.graph path chain v top rest := by
  cases hexpr : walker.graph.childAt? v 0 with
  | none =>
    refine .pure ⟨top, rfl, ?_⟩
    rintro vertex store after passings rfl hstore hpasses
    cases hpasses with
    | idle hidle => simp [hlabel] at hidle
    | expression _ hexpr' | change _ hexpr' => cases hexpr.symm.trans hexpr'
    | _ => cases hlabel.symm.trans ‹walker.graph.labelOf vertex.id = _›
  | some expr =>
    cases hchanges : walker.graph.changes expr with
    | false =>
      refine Leaves.discard
        (Leaves.map ((hperform.eval hpath hchanges).imp fun value left added hvalue => ⟨top, hvalue.1, ?_⟩))
      rintro vertex store after passings rfl hstore hpasses
      cases hpasses with
      | idle hidle => simp [hlabel] at hidle
      | expression _ hexpr' hhas =>
        cases hexpr.symm.trans hexpr'
        exact ⟨hstore, (hvalue.2 store _ _ hstore hhas).2⟩
      | change _ hexpr' hafter =>
        cases hexpr.symm.trans hexpr'
        rw [changes_eq_true_of_changes hafter] at hchanges
        cases hchanges
      | _ => cases hlabel.symm.trans ‹walker.graph.labelOf vertex.id = _›
    | true =>
      refine Leaves.discard (Leaves.map ((hperform.change hpath hchanges).imp fun value left added hchanged => ?_))
      obtain ⟨next, rfl, hnext⟩ := hchanged
      refine ⟨next, rfl, ?_⟩
      rintro vertex store after passings rfl hstore hpasses
      cases hpasses with
      | idle hidle => simp [hlabel] at hidle
      | expression _ hexpr' hhas =>
        cases hexpr.symm.trans hexpr'
        rw [changes_eq_false_of_evaluates hhas] at hchanges
        cases hchanges
      | change _ hexpr' hafter =>
        cases hexpr.symm.trans hexpr'
        exact hnext store after passings hstore hafter
      | _ => cases hlabel.symm.trans ‹walker.graph.labelOf vertex.id = _›

/-- A `return` keeps the value that it shows. -/
theorem leaves_return (hlabel : walker.graph.labelOf v = .returnStatement) :
    Leaves (top :: rest) chain (do
      match ← (walker.graph.childAt? v 0).mapM fun expr => perform (.eval (some path) expr) with
      | some value => modifyFrame fun frame => { frame with returned := some value }
      | none => return) fun _ => PassedOver walker.graph path chain v top rest := by
  cases hexpr : walker.graph.childAt? v 0 with
  | none =>
    refine .pure ⟨top, rfl, ?_⟩
    rintro vertex store after passings rfl hstore hpasses
    cases hpasses with
    | idle hidle => simp [hlabel] at hidle
    | returns _ hexpr' => cases hexpr.symm.trans hexpr'
    | leaves => exact ⟨hstore, .nil⟩
    | _ => cases hlabel.symm.trans ‹walker.graph.labelOf vertex.id = _›
  | some expr =>
    have hunchanging := arithmetic.changes_eq_false forest (mem_of_getElem? hexpr) (by rw [hlabel]; simp)
    have hvalue : Leaves (top :: rest) chain (some <$> perform (.eval (some path) expr)) fun found left added =>
        ∃ value, found = some value ∧ Evaluated walker.graph path chain expr top rest value left added :=
      Leaves.map ((hperform.eval hpath hunchanging).imp fun value _ _ h => ⟨value, rfl, h⟩)
    refine hvalue.bind fun found next added hfound => ?_
    obtain ⟨value, rfl, rfl, hvalue⟩ := hfound
    refine (Leaves.modifyFrame _).imp fun _ left silent hleft => ⟨_, hleft.1, ?_⟩
    obtain ⟨-, rfl⟩ := hleft
    rintro vertex store after passings rfl hstore hpasses
    rw [append_nil]
    cases hpasses with
    | idle hidle => simp [hlabel] at hidle
    | returns _ hexpr' hhas =>
      cases hexpr.symm.trans hexpr'
      obtain ⟨hshows, hembeds⟩ := hvalue store _ _ hstore hhas
      exact ⟨hstore.returning hshows, hembeds⟩
    | leaves _ hnone => cases hexpr.symm.trans hnone
    | _ => cases hlabel.symm.trans ‹walker.graph.labelOf vertex.id = _›

theorem leaves_condition (hlabel : walker.graph.labelOf v = .standardCondition) :
    Leaves (top :: rest) chain (discard ((walker.graph.childAt? v 0).mapM fun expr => perform (.eval (some path) expr)))
      fun _ => PassedOver walker.graph path chain v top rest := by
  cases hexpr : walker.graph.childAt? v 0 with
  | none =>
    refine .pure ⟨top, rfl, ?_⟩
    rintro vertex store after passings rfl hstore hpasses
    cases hpasses with
    | idle hidle => simp [hlabel] at hidle
    | condition _ hexpr' => cases hexpr.symm.trans hexpr'
    | _ => cases hlabel.symm.trans ‹walker.graph.labelOf vertex.id = _›
  | some expr =>
    have hunchanging := arithmetic.changes_eq_false forest (mem_of_getElem? hexpr) (by rw [hlabel]; simp)
    refine Leaves.discard
      (Leaves.map ((hperform.eval hpath hunchanging).imp fun value left added hvalue => ⟨top, hvalue.1, ?_⟩))
    rintro vertex store after passings rfl hstore hpasses
    cases hpasses with
    | idle hidle => simp [hlabel] at hidle
    | condition _ hexpr' hhas =>
      cases hexpr.symm.trans hexpr'
      exact ⟨hstore, (hvalue.2 store _ _ hstore hhas).2⟩
    | _ => cases hlabel.symm.trans ‹walker.graph.labelOf vertex.id = _›

/-- Evaluating a vertex does what the execution does there. -/
theorem leaves_evaluateVertex (v : VertexId) :
    Leaves (top :: rest) chain (walker.evaluateVertex perform path v) fun _ =>
    PassedOver walker.graph path chain v top rest := by
  have hkind := arithmetic.kind v
  have hparent : ∀ kind : NodeKind, kind.isArithmetic = false →
      (walker.graph.parent? v).filter (walker.graph.is · kind) = none :=
    fun kind h => Option.filter_eq_none_iff.mpr fun parent _ => by rw [arithmetic.not_is h]; simp
  rw [evaluateVertex]
  dsimp only
  cases hlabel : walker.graph.labelOf v with
  | variableDeclarationStatements =>
    refine (leaves_declareVariables forest arithmetic hperform hpath v).imp fun _ left added hleft => ?_
    obtain ⟨next, rfl, hnext⟩ := hleft
    refine ⟨next, rfl, ?_⟩
    rintro vertex store after passings rfl hstore hpasses
    cases hpasses with
    | idle hidle => simp [hlabel] at hidle
    | declaration _ hdeclarations hdeclares =>
      obtain rfl := hdeclarations
      exact hnext store after passings hstore hdeclares
    | _ => cases hlabel.symm.trans ‹walker.graph.labelOf vertex.id = _›
  | expressionStatement =>
    have hupdate : walker.isUpdate v = false := by
      rw [isUpdate, beq_eq_false_iff_ne]
      intro hupdate
      obtain ⟨loop, -, hloop⟩ := Option.bind_eq_some_iff.mp hupdate
      rw [CodeGraph.loopUpdate?] at hloop
      obtain ⟨hloop, -⟩ := Option.ite_none_right_eq_some.mp hloop
      have hkind := arithmetic.kind loop
      rw [beq_iff_eq.mp (Bool.and_eq_true_iff.mp hloop).1] at hkind
      cases hkind
    rw [hupdate]
    exact leaves_expression hperform hpath hlabel
  | returnStatement => exact leaves_return forest arithmetic hperform hpath hlabel
  | standardCondition =>
    rw [hparent _ rfl]
    exact leaves_condition forest arithmetic hperform hpath hlabel
  | blockStatement | ifElseBlockStatement | ifBlockStatement =>
    refine .pure ⟨top, rfl, ?_⟩
    rintro vertex store after passings rfl hstore hpasses
    cases hpasses with
    | idle => exact ⟨hstore, .nil⟩
    | _ => cases hlabel.symm.trans ‹walker.graph.labelOf vertex.id = _›
  | userClass | userInterface | method | parameter | variableDeclaration =>
    refine .pure ⟨top, rfl, ?_⟩
    rintro vertex store after passings rfl hstore hpasses
    cases hpasses with
    | idle hidle => simp [hlabel] at hidle
    | _ => cases hlabel.symm.trans ‹walker.graph.labelOf vertex.id = _›
  | literalExpression | variableExpression | emptyReferenceExpression | methodCallExpression | binaryExpression |
      booleanExpression | prefixExpression | postfixExpression | assignmentExpression | ternaryExpression =>
    have hvalue : Leaves (top :: rest) chain (perform (.eval (some path) v)) fun _ left _ => ∃ next,
        left = next :: rest := by
      cases hchanges : walker.graph.changes v with
      | false => exact (hperform.eval hpath hchanges).imp fun _ _ _ h => ⟨top, h.1⟩
      | true => exact (hperform.change hpath hchanges).imp fun _ _ _ h => h.imp fun _ => And.left
    refine hvalue.bind fun _ left _ hleft => ?_
    obtain ⟨next, rfl⟩ := hleft
    rw [hparent _ rfl]
    refine .pure ⟨next, rfl, ?_⟩
    rintro vertex store after passings rfl hstore hpasses
    cases hpasses with
    | idle hidle => simp [hlabel] at hidle
    | _ => cases hlabel.symm.trans ‹walker.graph.labelOf vertex.id = _›
  | _ =>
    rw [hlabel] at hkind
    cases hkind

end

/-! ## Steps -/

section
variable {walker : Walker (Journal σ)} {perform : Perform (Journal σ)} {expanded : CodePath → Prop} {path : CodePath}
    {site : Option VertexId} {top : Frame} {rest : List Frame} {chain : Chain} (forest : walker.graph.IsForest)
    (arithmetic : walker.graph.IsArithmetic) (journals : walker.visitor.Journals)
    (hperform : Propagates walker.graph expanded perform site) (hpaths : ExpandedPaths walker.graph expanded)
    (hpath : expanded path)

include arithmetic hperform hpaths hpath in
theorem steady_inits (anchor : Option VertexId) : Steady frames chain (walker.runStaticInits perform path anchor) :=
  steady_runStaticInits arithmetic.isBare path anchor fun _ hinit =>
  (hperform.invoke (hpaths.initialized hpath hinit)).imp fun _ _ _ h => h.1

include forest arithmetic journals hperform hpaths hpath in
/-- A step of the walk opens and closes the scopes of its vertex around the evaluation. -/
theorem leaves_step (v : VertexId) :
    Leaves (top :: rest) chain (walker.step perform path v) fun _ =>
    SteppedOver walker.graph path chain v top rest := by
  have hmain : Leaves (entered walker.graph v top :: rest) chain (do
      if ← walker.visit v then
        walker.runStaticInits perform path (some v)
        walker.evaluateVertex perform path v
      else
        walker.skipVertex v
      let after ← symbols
      notify (walker.visitor.afterVisit v after)
      modifyFrame (·.popBlocks (walker.graph.endScopes v).length)) fun _ =>
      SteppedOver walker.graph path chain v top rest := by
    refine (leaves_visit journals v).bind fun consent next reached hnext => ?_
    obtain ⟨rfl, rfl⟩ := hnext
    refine Leaves.after (steady_inits arithmetic hperform hpaths hpath (some v)) fun _ initialized => ?_
    refine (leaves_evaluateVertex forest arithmetic hperform hpath v).bind fun _ next added hpassed => ?_
    obtain ⟨next, rfl, hpassed⟩ := hpassed
    refine .symbols_bind fun symbols hframes => ?_
    refine (leaves_passed journals v symbols).bind fun _ left noted hleft => ?_
    obtain ⟨rfl, rfl⟩ := hleft
    refine (Leaves.modifyFrame _).imp fun _ left silent hleft => ⟨next, hleft.1, ?_⟩
    obtain ⟨-, rfl⟩ := hleft
    rintro vertex store after passings rfl hstore hpasses
    obtain ⟨hshows, hembeds⟩ := hpassed vertex store after passings rfl hstore hpasses
    have hmoment : ShowsPassing ⟨chain, vertex.id, after⟩ ⟨chain, .passed vertex.id, symbols⟩ :=
      ⟨rfl, rfl, next, by rw [Symbols.frame?, hframes]; rfl, hshows⟩
    exact ⟨hshows, ((hembeds.append (.single hmoment)).earlier initialized).earlier reached⟩
  rw [step]
  dsimp only
  split
  · rename_i hopens
    rw [entered, if_pos hopens] at hmain
    refine (Leaves.modifyFrame _).bind fun _ next silent hnext => ?_
    obtain ⟨rfl, rfl⟩ := hnext
    exact hmain
  · rename_i hopens
    rw [entered, if_neg hopens] at hmain
    exact hmain

/-! ## Runs -/

include forest arithmetic journals hperform hpaths hpath in
/-- The induction is on the vertices that are left. Before the next one the frame shows the scopes of the store that
enclose it. -/
theorem leaves_steps {body : VertexId} (route : Route walker.graph body path.ids) {done todo : List PathVertex}
    (hvertices : path.vertices = done ++ todo) :
    Leaves (top :: rest) chain ((todo.map PathVertex.id).forM (walker.step perform path)) fun _ left added => ∃ last,
    left = last :: rest ∧ ∀ store after passings,
      (∀ vertex ∈ todo.head?, ShowsAround walker.graph body vertex.id top store) →
        (∀ value ∈ top.returned, ∃ datum ∈ store.returned, value.Shows datum) →
        Steps walker.graph path chain store todo after passings →
        (∀ value ∈ last.returned, ∃ datum ∈ after.returned, value.Shows datum) ∧ Embeds passings added := by
  induction todo generalizing done top with
  | nil =>
    refine .pure ⟨top, rfl, fun store after passings _ hreturned hsteps => ?_⟩
    cases hsteps
    exact ⟨hreturned, .nil⟩
  | cons vertex todo ih =>
    have hids : path.ids = done.map PathVertex.id ++ vertex.id :: todo.map PathVertex.id := by
      rw [CodePath.ids, hvertices, map_append, map_cons]
    refine (leaves_step forest arithmetic journals hperform hpaths hpath vertex.id).bind fun _ left added hleft => ?_
    obtain ⟨next, rfl, hnext⟩ := hleft
    refine (ih (hvertices.trans (append_cons ..))).imp fun _ left more hlast => ?_
    obtain ⟨last, rfl, hlast⟩ := hlast
    refine ⟨last, rfl, fun store after passings haround _ hsteps => ?_⟩
    cases hsteps with
    | @cons _ _ _ _ _ middle _ first second hpasses hsteps =>
      obtain ⟨hshows, hopeners⟩ := (haround vertex rfl).entered forest (route.below _ (Route.mem hids))
      obtain ⟨hmiddle, hembeds⟩ := hnext vertex _ middle first rfl hshows hpasses
      have haround' : ∀ other ∈ todo.head?,
          ShowsAround walker.graph body other.id (next.popBlocks (walker.graph.endScopes vertex.id).length) middle := by
        intro other hother
        obtain ⟨others, rfl⟩ := List.head?_eq_some_iff.mp hother
        exact showsAround_next forest route hids hmiddle ((openers_passes hpasses).trans hopeners)
      obtain ⟨hreturned, hembeds'⟩ := hlast middle after second haround' hmiddle.returned hsteps
      refine ⟨hreturned, ?_⟩
      rw [append_cons]
      exact hembeds.append hembeds'

include forest arithmetic journals hperform hpaths hpath in
/-- A method runs in a frame of its own. What the walk says that it returned is shown of what an execution returns. -/
theorem leaves_runMethod (frame : Frame) :
    Leaves frames chain (walker.runMethod perform path frame) fun returned left added => left = frames ∧
      ∀ store after passings, ShowsStore frame store → store.scopes = [] →
      Steps walker.graph path chain store path.vertices after passings →
      (∀ value ∈ returned, ∃ datum ∈ after.returned, value.Shows datum) ∧ Embeds passings added := by
  obtain ⟨body, route⟩ := hpaths.route hpath
  rw [runMethod]
  refine (Leaves.pushFrame frame).bind fun _ next silent hnext => ?_
  obtain ⟨rfl, rfl⟩ := hnext
  refine .symbols_bind fun symbols _ => ?_
  refine (leaves_entering journals path.method symbols).bind fun _ next noted hnext => ?_
  obtain ⟨rfl, rfl⟩ := hnext
  refine (leaves_steps forest arithmetic journals hperform hpaths hpath route (nil_append _).symm).bind
    fun _ left added hlast => ?_
  obtain ⟨last, rfl, hlast⟩ := hlast
  refine Leaves.popFrame.bind fun popped left silent hpopped => ?_
  obtain ⟨rfl, rfl, rfl⟩ := hpopped
  refine (leaves_exiting journals path.method popped.returned).bind fun _ left silent hleft => ?_
  obtain ⟨rfl, rfl⟩ := hleft
  refine .pure ⟨rfl, fun store after passings hstore hscopes hsteps => ?_⟩
  have haround : ∀ vertex ∈ path.vertices.head?, ShowsAround walker.graph body vertex.id frame store := by
    intro vertex hvertex
    have hbody := route.head?_eq
    rw [CodePath.ids, List.head?_map, hvertex] at hbody
    cases hbody
    exact showsAround_body hstore hscopes
  obtain ⟨hreturned, hembeds⟩ := hlast store after passings haround hstore.returned hsteps
  exact ⟨hreturned, (hembeds.later _).earlier _⟩

include forest arithmetic journals hperform hpaths hpath in
/-- A method that is walked shows what its execution returns. -/
theorem leaves_invokePath (this : Option HeapRef) (args : List Value) :
    Leaves frames chain (walker.invokePath perform path this args) (Invoked walker.graph path chain args frames) := by
  rw [invokePath]
  refine Leaves.after (steady_inits arithmetic hperform hpaths hpath none) fun _ initialized => ?_
  refine (leaves_runMethod forest arithmetic journals hperform hpaths hpath _).bind
    fun returned left added hreturned => ?_
  obtain ⟨rfl, hreturned⟩ := hreturned
  refine .pure ⟨rfl, fun data result passings hargs hruns => ?_⟩
  cases hruns with
  | intro harity hsteps =>
    obtain ⟨hshown, hembeds⟩ := hreturned _ _ _ (showsStore_methodFrame walker path.method _ hargs harity) rfl hsteps
    refine ⟨fun datum hdatum => ?_, (hembeds.later _).earlier initialized⟩
    cases returned with
    | some value =>
      obtain ⟨other, hother, hshows⟩ := hshown value rfl
      rwa [hdatum other hother]
    | none =>
      rw [Option.getD_none]
      split
      · exact Value.shows_unknown "void" datum
      · exact Value.shows_unknown _ datum

end

end Walker

end ApexPaths
