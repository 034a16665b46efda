import ApexPaths.Proofs.Concrete.Running
import ApexPaths.Proofs.Walk.Termination

/-!
Constants along paths. In a program over integers and truth values a walk along an expanded path passes what a concrete
execution along the path passes, and a variable that the walk knows has the value that it has in the execution.
-/

namespace ApexPaths
set_option autoImplicit false

open WalkM Concrete

variable {σ : Type}
variable {graph : CodeGraph} {chain : Chain} {expr : VertexId} {added : List Moment}

/-! ## Performing -/

theorem Evaluated.later {path : CodePath} {top : Frame} {rest left : List Frame} {value : Value}
    (h : Evaluated graph path chain expr top rest value left added) (more : List Moment) :
    Evaluated graph path chain expr top rest value left (added ++ more) :=
  ⟨h.1, fun store datum passings hstore hhas => (h.2 store datum passings hstore hhas).imp id fun hembeds =>
  hembeds.later more⟩

theorem Changed.later {path : CodePath} {top : Frame} {rest left : List Frame} {value : Value}
    (h : Changed graph path chain expr top rest value left added) (more : List Moment) :
    Changed graph path chain expr top rest value left (added ++ more) := by
  obtain ⟨next, rfl, hnext⟩ := h
  exact ⟨next, rfl, fun store after passings hstore hchanges =>
    (hnext store after passings hstore hchanges).imp id fun hembeds => hembeds.later more⟩

/-- A path that is attached runs one deeper in the chain. -/
theorem Leaves.attached {α : Type} {frames : List Frame} {site : Option VertexId} {m : WalkM (Journal σ) α}
    {post : α → List Frame → List Moment → Prop} (h : Leaves frames (site :: chain) m post) :
    Leaves frames chain (do
      WalkM.notify (Journal.enter site)
      let a ← m
      WalkM.notify Journal.leave
      return a) post := by
  refine ⟨fun state a left hframes hchain hrun => ?_⟩
  obtain ⟨_, entered, hentered, hrun⟩ := Walker.exists_of_run_bind hrun
  obtain ⟨-, rfl⟩ := Prod.mk.inj hentered
  obtain ⟨a', middle, hmiddle, hrun⟩ := Walker.exists_of_run_bind hrun
  obtain ⟨hkept, added, hadded, hpost⟩ :=
    h.run { state with observed := state.observed.enter site } a' middle hframes (congrArg (site :: ·) hchain) hmiddle
  obtain ⟨_, last, hlast, hrun⟩ := Walker.exists_of_run_bind hrun
  obtain ⟨-, rfl⟩ := Prod.mk.inj hlast
  obtain ⟨ha, rfl⟩ := Prod.mk.inj hrun
  cases ha
  exact ⟨congrArg List.tail hkept, added, hadded, hpost⟩

namespace Walker

theorem expandedPaths (built : Build.IsBuilt graph) (placed : Build.WellPlaced graph) (arithmetic : graph.IsArithmetic)
    (settings : Settings) (options : ExpansionOptions) :
    ExpandedPaths graph (CodePath.Spliced (Expander.ofGraph graph settings options)) where
  route h := (h.exists_route built placed).imp fun _ hroute => hroute.2
  initialized h hinit := h.initialized hinit
  invoked h hsub := h.invoked hsub
  uninvoked h hexpr := h.invokedPath?_eq_none built placed arithmetic hexpr

section
variable {walker : Walker σ} (forest : walker.graph.IsForest) (arithmetic : walker.graph.IsArithmetic)
    (consents : Consents walker.visitor) {expanded : CodePath → Prop} (hpaths : ExpandedPaths walker.graph expanded)
include forest arithmetic consents hpaths

/-- Every task of the walk propagates, at any nesting. -/
theorem propagates_performUnder (nesting : Nat) (site : Option VertexId) :
    Propagates walker.graph expanded (walker.performUnder walker.journaling nesting site) site := by
  have journals := Visitor.journals_journaling consents
  induction nesting generalizing site with
  | zero => exact ⟨fun _ _ => .fail _, fun _ _ => .fail _, fun _ => .fail _⟩
  | succ nesting ih =>
    have hnoted : ∀ {frames chain} (expr : VertexId) (left : Symbols), Leaves frames chain
        (notify (walker.journaling.evaluated expr left) : WalkM (Journal σ) Unit)
        fun _ after added => after = frames ∧ added = [⟨chain, .evaluated expr, left⟩] := fun expr left =>
      .note (fun _ => rfl) fun journal hchain => by rw [← hchain]; rfl
    refine ⟨fun {path expr top rest chain} hpath hchanges => ?_, fun {path expr top rest chain} hpath hchanges => ?_,
      fun {path this args frames chain} hpath => ?_⟩
    · have hmain : Leaves (top :: rest) chain ((walker.watchedBy walker.visitor.journaling).evalKind
          (walker.performUnder walker.journaling nesting (some expr)) (some path) expr)
          (Evaluated walker.graph path chain expr top rest) :=
        leaves_evalKind_unchanging forest arithmetic (ih (some expr)) hpaths hpath hchanges
      refine (leaves_evalExpression journals hmain ?_).bind fun value left added hvalue => ?_
      · exact fun value left added h =>
          ⟨h.1, fun store datum passings hstore hhas =>
          (h.2 store datum passings hstore hhas).imp (·.withOrigin expr) id⟩
      refine .symbols_bind fun symbols _ => (hnoted expr symbols).bind fun _ after noted hafter => ?_
      obtain ⟨rfl, rfl⟩ := hafter
      exact .pure (hvalue.later _)
    · have hmain : Leaves (top :: rest) chain ((walker.watchedBy walker.visitor.journaling).evalKind
          (walker.performUnder walker.journaling nesting (some expr)) (some path) expr)
          (Changed walker.graph path chain expr top rest) :=
        leaves_evalKind_changing forest arithmetic (ih (some expr)) hpaths hpath journals hchanges
      refine (leaves_evalExpression journals hmain fun _ _ _ h => h).bind fun value left added hvalue => ?_
      refine .symbols_bind fun symbols _ => (hnoted expr symbols).bind fun _ after noted hafter => ?_
      obtain ⟨rfl, rfl⟩ := hafter
      exact .pure (hvalue.later _)
    · have hmain : Leaves frames (site :: chain) ((walker.watchedBy walker.visitor.journaling).invokePath
          (walker.performUnder walker.journaling nesting none) path this args)
          (Invoked walker.graph path (site :: chain) args frames) :=
        leaves_invokePath forest arithmetic journals (ih none) hpaths hpath this args
      exact hmain.attached

end

/-! ## Walks -/

/-- A path was walked with all arguments: a run along it passes no more, and what it returns is shown. -/
def Walked (graph : CodeGraph) (path : CodePath) (chain : Chain) (returned : Option Value) (added : List Moment) :
    Prop :=
  ∀ data result passings, Runs graph path chain data result passings →
  (∀ value ∈ returned, ∃ datum ∈ result, value.Shows datum) ∧ Embeds passings added

theorem Walked.earlier {path : CodePath} {returned : Option Value}
    (h : Walked graph path chain returned added) (more : List Moment) :
    Walked graph path chain returned (more ++ added) :=
  fun data result passings hruns => (h data result passings hruns).imp id fun hembeds => hembeds.earlier more

section
variable {walker : Walker (Journal σ)} {perform : Perform (Journal σ)} {expanded : CodePath → Prop} {path : CodePath}
    {site : Option VertexId} (forest : walker.graph.IsForest) (arithmetic : walker.graph.IsArithmetic)
    (journals : walker.visitor.Journals)
  (hperform : Propagates walker.graph expanded perform site) (hpaths : ExpandedPaths walker.graph expanded)
  (hpath : expanded path)
include forest arithmetic journals hperform hpaths hpath

/-- A walk shows what a concrete run of its path does. -/
theorem leaves_walkPath {frames : List Frame} :
    Leaves frames chain (walker.walkPath perform path) fun returned _ added =>
    Walked walker.graph path chain returned added := by
  have hrun : ∀ this, Leaves frames chain (walker.runMethod perform path (walker.methodFrame path.method this []))
    fun returned _ added =>
      Walked walker.graph path chain returned added := by
    refine fun this =>
      (leaves_runMethod forest arithmetic journals hperform hpaths hpath _).imp fun returned _ added hreturned => ?_
    rintro data result passings ⟨harity, hsteps⟩
    exact hreturned.2 _ _ _ (showsStore_methodFrame walker path.method this nofun harity) rfl hsteps
  have hobject : ∀ owner : Option VertexId, Leaves frames chain (do
      let this ← if walker.graph.isStatic path.method then pure none else owner.mapM (walker.instantiate perform)
      walker.runMethod perform path (walker.methodFrame path.method this [])) fun returned _ added =>
      Walked walker.graph path chain returned added := by
    intro owner
    split
    · exact hrun none
    · exact Leaves.after (Steady.optionMapM fun type _ => steady_instantiate arithmetic.isBare type) fun this earlier =>
        (hrun this).imp fun _ _ _ h => h.earlier earlier
  rw [walkPath]
  refine Leaves.after (steady_inits arithmetic hperform hpaths hpath none) fun _ initialized => ?_
  cases walker.graph.enclosingType? path.method with
  | none => exact (hobject none).imp fun _ _ _ h => h.earlier initialized
  | some type =>
    refine Leaves.after (steady_ensureInitialized arithmetic.isBare type) fun _ more => ?_
    exact (hobject (some type)).imp fun _ _ _ h => (h.earlier more).earlier initialized

end

theorem founded_of_isArithmetic {walker : Walker σ} (arithmetic : walker.graph.IsArithmetic) (type : VertexId) :
    ¬Relation.TransGen walker.Makes type type := by
  intro hround
  obtain ⟨_, -, -, -, -, -, part, -, hpart⟩ : ∃ before, _ ∧ walker.Makes before type :=
    Relation.TransGen.tail'_iff.mp hround
  rw [created?] at hpart
  split at hpart
  · rename_i hnew
    have hkind := arithmetic.kind part
    rw [hnew.1] at hkind
    cases hkind
  · cases hpart

theorem exists_run_journaled {walker : Walker σ} (forest : walker.graph.IsForest)
    (hfounded : ∀ type, ¬Relation.TransGen walker.Makes type type) {path : CodePath} {nesting : Nat}
    (hnesting : walker.weightBound path ≤ nesting) (statics : StaticScopes) (observed : σ) :
    ∃ returned left,
    ((walker.watchedBy walker.visitor.journaling).walkPath
    (walker.performUnder walker.journaling nesting none) path).run { symbols := { statics }, observed :=
    { observed } } = (.ok returned, left) := by
  have hsafe := (safe_walkPath_within forest hfounded hnesting { symbols := { statics }, observed }).run
  obtain ⟨seen, hrun, hends⟩ := run_walkPath_under walker.faithful_journaling nesting path statics { observed }
  change _ = (((walker.walkPath (walker.performWithin nesting) path).run { symbols := { statics }, observed }).1,
    _) at hrun
  change Ends _ _ _ _ _
    ((walker.walkPath (walker.performWithin nesting) path).run { symbols := { statics }, observed }).1 at hends
  generalize (walker.walkPath (walker.performWithin nesting) path).run { symbols := { statics }, observed } =
    result at hsafe hrun hends
  obtain ⟨error | returned, left⟩ := result
  · exact absurd hends.1 hsafe
  · exact ⟨returned, _, hrun⟩

end Walker

/-- In a program over integers and truth values every walk along an expanded path ends, beyond some nesting. What a
concrete execution along the path passes is passed by the walk, in the same order and in the same called methods.
After each vertex the running method has the variables of the execution, and the literals that are known of them
are what they hold; the same is true of what is returned. -/
theorem walkWithin_propagates {config : Settings} {sources : List (String × String)} {graph : CodeGraph}
    (h : Build.IsGraphOf config sources graph) (arithmetic : graph.IsArithmetic) {settings : Settings}
    {options : ExpansionOptions}
    {method : VertexId} {forward : List CodePath} (hforward : Path.forward graph method = .ok forward)
    {path : CodePath} (hpath : path ∈ forward)
    {state : ExpansionState} (valid : state.Valid graph) {paths : List CodePath}
    (hrun : (((Expander.ofGraph graph settings options).expandPath path).run state).1 = .ok paths) {expanded : CodePath}
    (hexpanded : expanded ∈ paths) {walker : Walker σ} (hwalker : walker.program = Program.ofGraph graph)
    (hconsents : Walker.Consents walker.visitor) :
    ∃ bound, ∀ nesting, bound ≤ nesting → ∀ statics observed, ∃ outcome journal,
      walker.journalWithin nesting expanded statics observed = (.ok outcome, journal) ∧
      walker.walkWithin nesting expanded statics observed = (.ok outcome, journal.observed) ∧
      ∀ data returned passings, Runs graph expanded [] data returned passings →
        List.SublistForall₂ (fun passing moment => ShowsPassing passing moment ∧ ∀ frame ∈ moment.symbols.frame?,
        ∀ name found literal, frame.lookup? name = some found → found.value.literal? = some literal →
          ∃ datum, passing.store.get? name = some datum ∧ literal = datum.literal) passings journal.moments ∧
        ∀ value ∈ outcome.returned, ∀ literal, value.literal? = some literal → ∃ datum ∈ returned,
        literal = datum.literal := by
  obtain rfl : walker.graph = graph := by rw [Walker.graph, hwalker]; rfl
  have hspliced := Expander.spliced_of_expandPath h hforward hpath valid hrun expanded hexpanded
  have hpaths := Walker.expandedPaths h.isBuilt h.wellPlaced arithmetic settings options
  have hplaced := h.wellPlaced.forest
  refine ⟨walker.weightBound expanded, fun nesting hnesting statics observed => ?_⟩
  obtain ⟨returned, left, hresult⟩ :=
    Walker.exists_run_journaled hplaced (Walker.founded_of_isArithmetic arithmetic) hnesting statics observed
  have hjournaled : walker.journalWithin nesting expanded statics observed =
      (.ok ⟨returned, left.visited, left.symbols⟩, left.observed) :=
    congrArg (fun run : Except EngineError (Option Value) × WalkState (Journal σ) =>
      (run.1.map fun returned => WalkOutcome.mk returned run.2.visited run.2.symbols, run.2.observed)) hresult
  have hperform := Walker.propagates_performUnder hplaced arithmetic hconsents hpaths nesting none
  have hwalk :
    Leaves [] []
    ((walker.watchedBy walker.visitor.journaling).walkPath
    (walker.performUnder walker.journaling nesting none) expanded) fun returned _ added =>
    Walker.Walked walker.graph expanded [] returned added :=
    Walker.leaves_walkPath hplaced arithmetic (Visitor.journals_journaling hconsents) hperform hpaths hspliced
  obtain ⟨-, added, hadded, hwalked⟩ := hwalk.run _ returned left rfl rfl hresult
  refine ⟨_, _, hjournaled, ?_, fun data result passings hruns => ?_⟩
  · rw [walker.walkWithin_eq_journaled, hjournaled]
  · obtain ⟨hreturned, hembeds⟩ := hwalked data result passings hruns
    refine ⟨?_, fun value hvalue literal hliteral => ?_⟩
    · obtain ⟨shown, hshown, hsublist⟩ := List.sublistForall₂_iff.mp hembeds
      refine List.sublistForall₂_iff.mpr ⟨shown, hshown.imp fun passing moment hmoment => ⟨hmoment, ?_⟩,
        hadded ▸ hsublist⟩
      obtain ⟨-, -, frame, hframe, hstore⟩ := hmoment
      intro other hother name found literal hfound hliteral
      cases hframe.symm.trans hother
      exact hstore.literal?_eq name hfound hliteral
    · obtain ⟨datum, hdatum, hshows⟩ := hreturned value hvalue
      exact ⟨datum, hdatum, hshows.literal? hliteral⟩

/-! ## A method that calls another one with a constant -/

/-- A method that returns what another one makes of a constant. -/
def addingOne : String :=
  "class A { static Integer f(Integer x) { return x + 1; } static Integer m() { return f(2); } }"

/-- The path calls a method along a path that adds one to its parameter, and returns what that returns. -/
def returnsSum (graph : CodeGraph) (path : CodePath) : Bool :=
  match path.vertices with
  | [body, leaving] =>
    match graph.childAt? leaving.id 0 with
    | some call =>
      match graph.arguments call, path.invokedPath? call with
      | [argument], some callee =>
        match callee.vertices with
        | [block, adding] =>
          match graph.childAt? adding.id 0 with
          | some sum =>
            match graph.childAt? sum 0, graph.childAt? sum 1 with
            | some left, some right =>
              decide graph.IsArithmetic &&
              decide (graph.labelOf body.id = .blockStatement ∧ graph.labelOf leaving.id = .returnStatement ∧
                graph.labelOf call = .methodCallExpression ∧ graph.labelOf argument = .literalExpression ∧
                literalDatum? (graph.literalTag argument) (graph.literalText argument) = some (.integer 2)) &&
              decide (graph.labelOf block.id = .blockStatement ∧ graph.labelOf adding.id = .returnStatement ∧
                graph.labelOf sum = .binaryExpression ∧ graph.text? sum (.fact .operator) = some "+" ∧
                graph.labelOf left = .variableExpression ∧ graph.name? left = some "x" ∧
                graph.labelOf right = .literalExpression ∧
                literalDatum? (graph.literalTag right) (graph.literalText right) = some (.integer 1)) &&
              decide ((graph.parameters path.method).length = 0 ∧ (graph.parameters callee.method).length = 1 ∧
                (((Store.entry (graph.parameters callee.method) [.integer 2]).reach graph block.id).reach graph
                adding.id).get? "x" = some (.integer 2))
            | _, _ => false
          | none => false
        | _ => false
      | _, _ => false
    | none => false
  | _ => false

theorem returnsSum_addingOne :
    (Build.treeOfChars addingOne.toList).toOption.any (anyMethod (expandsOnce returnsSum)) = true :=
  Build.any_of_toList_eq String.toList_ofList (by decide +kernel)

theorem exists_runs_of_return {path : CodePath} {data : List Datum} {body leaving : PathVertex}
    {datum : Datum} {passings : List Passing} (hvertices : path.vertices = [body, leaving])
    (hbody : graph.labelOf body.id = .blockStatement)
    (hleaving : graph.labelOf leaving.id = .returnStatement) (hexpr : graph.childAt? leaving.id 0 = some expr)
    (hhas : Evaluates graph path chain
    (((Store.entry (graph.parameters path.method) data).reach graph body.id).reach graph leaving.id) expr
    datum passings)
    (harity : data.length = (graph.parameters path.method).length) :
    ∃ all, all.length = passings.length + 2 ∧ Runs graph path chain data (some datum) all := by
  have hidle : Passes graph path chain ((Store.entry (graph.parameters path.method) data).reach graph body.id) body _
    [] := .idle (by simp [hbody])
  have hsteps := Steps.cons hidle (.cons (.returns hleaving hexpr hhas) .nil)
  rw [← hvertices] at hsteps
  exact ⟨_, by simp, .intro harity hsteps⟩

theorem exists_runs_of_returnsSum {path : CodePath} (h : returnsSum graph path = true) :
    graph.IsArithmetic ∧ ∃ passings, passings.length = 4 ∧ Runs graph path [] [] (some (.integer 3)) passings := by
  rw [returnsSum] at h
  split at h
  case h_2 => cases h
  case h_1 body leaving hvertices =>
    split at h
    case h_2 => cases h
    case h_1 call hcall =>
      split at h
      case h_2 => cases h
      case h_1 argument callee hargument hcallee =>
        split at h
        case h_2 => cases h
        case h_1 block adding hadding =>
          split at h
          case h_2 => cases h
          case h_1 sum hsum =>
            split at h
            case h_2 => cases h
            case h_1 left right hleft hright =>
              simp only [Bool.and_eq_true, decide_eq_true_eq] at h
              obtain ⟨⟨⟨arithmetic, hbody, hleaving, hcalls, htwo, hreadTwo⟩, hblock, hreturns, hadds, hplus,
                hvariable, hname, hone, hreadOne⟩, hparameters, hparameter, hfound⟩ := h
              have hthree :
                Evaluates graph callee [some call]
                (((Store.entry (graph.parameters callee.method) [.integer 2]).reach graph block.id).reach graph
                adding.id) sum (.integer 3) ([] ++ []) :=
                .arithmetic hadds hleft hright hplus (.name hvariable hname hfound) (.literal hone hreadOne) rfl
              obtain ⟨inner, hinner, hcalled⟩ :=
                exists_runs_of_return hadding hblock hreturns hsum hthree hparameter.symm
              have hreturned :
                Evaluates graph path []
                (((Store.entry (graph.parameters path.method) []).reach graph body.id).reach graph leaving.id) call
                (.integer 3) (([] ++ []) ++ inner) :=
                .call hcalls hargument (.cons (.literal htwo hreadTwo) .nil) hcallee hcalled fun other hother =>
                Option.some.inj hother
              obtain ⟨passings, hpassings, hruns⟩ :=
                exists_runs_of_return hvertices hbody hleaving hcall hreturned hparameters.symm
              exact ⟨arithmetic, passings, by rw [hpassings, List.length_append, hinner]; rfl, hruns⟩

/-- A concrete execution of the caller passes four vertices, and its walk passes them too. -/
theorem addingOne_propagates : ∃ graph path expanded passings, Build.IsGraphOf bareSettings [("A", addingOne)] graph ∧
    graph.IsArithmetic ∧ Path.forward graph path.method = .ok [path] ∧
    (((Expander.ofGraph graph bareSettings {}).expandPath path).run { registry := { limit := .unlimited } }).1 =
    .ok [expanded] ∧
    passings.length = 4 ∧ Runs graph expanded [] [] (some (.integer 3)) passings ∧
    let walker : Walker Unit := ⟨Program.ofGraph graph, .silent, 100⟩
    ∃ nesting outcome journal, walker.journalWithin nesting expanded [] () = (.ok outcome, journal) ∧
      walker.walkWithin nesting expanded [] () = (.ok outcome, journal.observed) ∧
      List.SublistForall₂ (fun passing moment => ShowsPassing passing moment ∧ ∀ frame ∈ moment.symbols.frame?,
      ∀ name found literal, frame.lookup? name = some found → found.value.literal? = some literal →
        ∃ datum, passing.store.get? name = some datum ∧ literal = datum.literal) passings journal.moments ∧
      ∀ value ∈ outcome.returned, ∀ literal, value.literal? = some literal → literal = .integer 3 := by
  obtain ⟨graph, path, expanded, hgraph, hforward, hrun, htest⟩ := exists_expanded returnsSum_addingOne
  obtain ⟨arithmetic, passings, hlength, hruns⟩ := exists_runs_of_returnsSum htest
  obtain ⟨nesting, hwalks⟩ :=
    walkWithin_propagates hgraph arithmetic hforward List.mem_cons_self (valid_start graph .unlimited) hrun
    List.mem_cons_self (show (⟨Program.ofGraph graph, .silent, 100⟩ : Walker Unit).program =
    Program.ofGraph graph from rfl) fun _ _ _ => rfl
  obtain ⟨outcome, journal, hjournaled, hwalk, hshown⟩ := hwalks nesting le_rfl [] ()
  obtain ⟨hpassed, hreturned⟩ := hshown [] (some (.integer 3)) passings hruns
  refine ⟨graph, path, expanded, passings, hgraph, arithmetic, hforward, hrun, hlength, hruns, nesting, outcome,
    journal, hjournaled, hwalk, hpassed, ?_⟩
  intro value hvalue literal hliteral
  obtain ⟨datum, hdatum, rfl⟩ := hreturned value hvalue literal hliteral
  cases hdatum
  rfl

end ApexPaths
