import ApexPaths.Proofs.Walk.Parts

/-!
What is foretold of vertices and paths. At a vertex the visitor is asked, the static initializers of the vertex
may run, and then its expressions are evaluated; a path begins with the initializers that have no vertex and passes
its vertices one after the other.
-/

namespace ApexPaths.Walker
set_option autoImplicit false

open WalkM

variable {σ β : Type} {law : Law β} {walker : Walker (Recorded σ)} {perform : Perform (Recorded σ)}

/-! ## Declarations -/

theorem obeys_loopElement (loop : VertexId) (type : String) :
    Obeys law .none (loopElement loop type : WalkM (Recorded σ) Value) := by
  refine obeys_get.after fun state => ?_
  dsimp only
  split <;> exact .pure _

theorem ofAll_filterMap {α : Type} (of : VertexId → Forecast β) (part? : α → Option VertexId) (items : List α) :
    Forecast.ofAll of (items.filterMap part?) (items.filterMap part?) =
      Forecast.ofAll (fun item => (part? item).elim .none of) items items := by
  induction items with
  | nil => rfl
  | cons item rest ih =>
    rw [List.filterMap_cons, Forecast.ofAll_cons, ← ih]
    cases part? item with
    | none => rfl
    | some part => exact Forecast.ofAll_cons ..

theorem obeys_declareClauseVariable (clause : VertexId) : Obeys law .none (walker.declareClauseVariable clause) := by
  rw [declareClauseVariable]
  cases walker.graph.name? clause with
  | none => exact .pure _
  | some name => exact obeys_get.after fun _ => obeys_declare ..

theorem obeys_bindCounter (loop condition : VertexId) : Obeys law .none (walker.bindCounter loop condition) := by
  rw [bindCounter]
  cases Counter.name? walker.graph loop with
  | none => exact .pure _
  | some counter => exact obeys_frame.after fun frame => obeys_modifyFrame _

theorem obeys_skipVertex (v : VertexId) : Obeys law .none (walker.skipVertex v) := by
  rw [skipVertex]
  split
  · exact .forM_none _ fun _ _ => obeys_declare ..
  · exact obeys_declareClauseVariable v
  · exact obeys_declareClauseVariable v
  · exact .pure _

/-! ## Vertices -/

section
variable {of : VertexId → Forecast β} {path : CodePath} {v : VertexId}

theorem obeys_first {exprs : List VertexId} {index : Nat}
    (hparts : ∀ part ∈ exprs[index]?.toList, Obeys law (of part) (perform (.eval (some path) part))) :
    Obeys law (.ofAll of exprs[index]?.toList exprs[index]?.toList)
      (exprs[index]?.mapM fun expr => perform (.eval (some path) expr)) :=
  .optionMapM _ fun part hpart => hparts part (Option.mem_toList.mpr hpart)

theorem obeys_declareVariables
    (hparts : ∀ part ∈ (walker.graph.childrenWithLabel v .variableDeclaration).filterMap (walker.graph.childAt? · 0),
      ((walker.graph.parent? v).filter (walker.graph.is · .forEachStatement)).isSome = false →
      Obeys law (of part) (perform (.eval (some path) part))) :
    Obeys law (if ((walker.graph.parent? v).filter (walker.graph.is · .forEachStatement)).isSome then .none else
      .ofAll of ((walker.graph.childrenWithLabel v .variableDeclaration).filterMap (walker.graph.childAt? · 0))
        ((walker.graph.childrenWithLabel v .variableDeclaration).filterMap (walker.graph.childAt? · 0)))
      (walker.declareVariables perform path v) := by
  rw [declareVariables, declaredVariables]
  cases hloop : (walker.graph.parent? v).filter (walker.graph.is · .forEachStatement) with
  | some loop =>
    exact .forM_none _ fun entry _ => (obeys_loopElement loop entry.2.2).after fun _ => obeys_declare ..
  | none =>
    rw [hloop] at hparts
    rw [if_neg (by simp), ofAll_filterMap]
    have hmapped : ∀ declarations : List VertexId, Forecast.ofAll (fun entry : VertexId × String × String =>
        (walker.graph.childAt? entry.1 0).elim .none of) (declarations.map fun declaration =>
          (declaration, (walker.graph.name? declaration).getD "", walker.variableType v declaration))
        (declarations.map fun declaration =>
        (declaration, (walker.graph.name? declaration).getD "", walker.variableType v declaration)) =
        Forecast.ofAll (fun declaration => (walker.graph.childAt? declaration 0).elim .none of) declarations
        declarations := by
      intro declarations
      rw [Forecast.ofAll, Forecast.ofAll, List.flatMap_map, List.flatMap_map]
    rw [← hmapped]
    refine Obeys.forM _ fun entry hentry => ?_
    obtain ⟨declaration, hdeclaration, rfl⟩ := List.mem_map.mp hentry
    dsimp only
    cases hinit : walker.graph.childAt? declaration 0 with
    | none => exact (Obeys.pure _).after fun _ => obeys_declare ..
    | some init =>
      have hpart := hparts init (List.mem_filterMap.mpr ⟨declaration, hdeclaration, hinit⟩) rfl
      exact hpart.finish fun value => (Obeys.pure _).after fun _ => obeys_declare ..

theorem obeys_condition (hparts : ∀ part ∈ (walker.graph.childAt? v 0).toList, Obeys law (of part)
    (perform (.eval (some path) part))) (loop : Option VertexId) :
    Obeys law (.ofAll of (walker.graph.childAt? v 0).toList (walker.graph.childAt? v 0).toList) (do
        match loop with
        | some loop => walker.bindCounter loop v
        | none => pure ()
        discard ((walker.graph.childAt? v 0).mapM fun expr => perform (.eval (some path) expr))) := by
  have hfirst := (obeys_first hparts).discard
  cases loop with
  | none => exact hfirst
  | some loop => exact (obeys_bindCounter loop v).after fun _ => hfirst

theorem obeys_evaluateVertex (hparts : ∀ part ∈ walker.vertexParts v, Obeys law (of part)
    (perform (.eval (some path) part))) : Obeys law (.ofAll of (walker.vertexParts v) (walker.vertexParts v))
    (walker.evaluateVertex perform path v) := by
  rw [evaluateVertex]
  rw [vertexParts] at hparts ⊢
  generalize walker.graph.labelOf v = label at hparts ⊢
  cases label
  case variableDeclarationStatements =>
    dsimp only at hparts ⊢
    refine Obeys.imp (obeys_declareVariables fun part hpart hloop => hparts part ?_) ?_
    · rwa [hloop]
    · split
      · exact .refl _
      · exact .refl _
  case expressionStatement =>
    dsimp only at hparts ⊢
    cases hupdate : walker.isUpdate v with
    | true => exact .pure _
    | false =>
      rw [hupdate] at hparts
      exact (obeys_first hparts).discard
  case returnStatement =>
    refine (obeys_first hparts).finish fun value => ?_
    cases value with
    | none => exact .pure _
    | some value => exact obeys_modifyFrame _
  case standardCondition => exact obeys_condition hparts _
  case forEachStatement =>
    refine (Obeys.optionMapM _ fun part hpart => hparts part (Option.mem_toList.mpr hpart)).finish fun value => ?_
    cases value with
    | none => exact .pure _
    | some value => exact obeys_modify fun _ => rfl
  case typeWhenBlock => exact obeys_declareClauseVariable v
  case catchBlockStatement => exact obeys_declareClauseVariable v
  case throwStatement | dmlInsertStatement | dmlUpdateStatement | dmlUpsertStatement | dmlDeleteStatement |
      dmlUndeleteStatement | dmlMergeStatement => exact .forM _ fun child hchild => (hparts child hchild).discard
  all_goals first
    | exact .pure _
    | refine Forecast.ofAll_singleton of v ▸ (hparts v List.mem_cons_self).finish fun value => ?_
      cases (walker.graph.parent? v).filter (walker.graph.is · .switchStatement) with
      | none => exact .pure _
      | some switch => exact obeys_modify fun _ => rfl

end

/-! ## Steps -/

variable {step : VertexId → Forecast β}

section
variable (hfield : ∀ init, Obeys law .none (perform (.eval none init))) (hrecords : walker.visitor.Records)
include hrecords

theorem obeys_visit (v : VertexId) : Obeys law (law.visits v) (walker.visit v) := by
  refine ⟨fun state => ?_⟩
  obtain ⟨hdepth, hlog⟩ := hrecords.visit v state.symbols state.observed
  have hvisited := law.visited state.trail v
  show law.keeps (law.visits v) state.trail
    ⟨state.symbols.heap, (walker.visitor.visit v state.symbols state.observed).2.depth,
      (walker.visitor.visit v state.symbols state.observed).2.log⟩
  rw [hdepth, hlog]
  exact hvisited

theorem obeys_leave (v : VertexId) : Obeys law .none (do
    let after ← symbols
    notify (walker.visitor.afterVisit v after)
    modifyFrame (·.popBlocks (walker.graph.endScopes v).length)) := by
  refine obeys_symbols.after fun after => ?_
  have hnotify : Obeys law .none (notify (walker.visitor.afterVisit v after)) :=
    obeys_notify (fun _ => (hrecords.afterVisit ..).1) fun _ => (hrecords.afterVisit ..).2
  exact hnotify.after fun _ => obeys_modifyFrame _

/-- What is foretold of a step: the visitor is asked, static initializers may be walked, expressions are evaluated. -/
def passage (law : Law β) (walker : Walker σ) (of : VertexId → Forecast β)
    (init : String × Option VertexId × CodePath → Forecast β) (path : CodePath) (v : VertexId) : Forecast β :=
  law.visits v ++
  ((Forecast.ofAll init (path.staticInits.filter (·.2.1 == some v))
  (path.staticInits.filter (·.2.1 == some v))).maybe ++ .ofAll of (walker.vertexParts v) (walker.vertexParts v))

/-- The visitor lets every vertex be evaluated. -/
def Consents (visitor : Visitor σ) : Prop := ∀ v symbols observed, (visitor.visit v symbols observed).1 = true

omit hrecords in
theorem visit_bind_of_consents {α : Type} (hconsents : Consents walker.visitor) (v : VertexId)
    (f : Bool → WalkM (Recorded σ) α) : (walker.visit v >>= f) = (walker.visit v >>= fun _ => f true) := by
  funext state
  show (f (walker.visitor.visit v state.symbols state.observed).1).run _ = (f true).run _
  rw [hconsents]

section
variable {of : VertexId → Forecast β} {init : String × Option VertexId × CodePath → Forecast β} {path : CodePath}
  (hinits : ∀ entry ∈ path.staticInits, Obeys law (init entry) (perform (.invoke entry.2.2 none [])))
include hfield hinits

/-- A step obeys what its parts and its initializers forecast. -/
theorem obeys_step {v : VertexId}
    (hparts : ∀ part ∈ walker.vertexParts v, Obeys law (of part) (perform (.eval (some path) part)))
    {forecast : Forecast β} (hforecast : (passage law walker of init path v).Within forecast)
    (hpruned : Consents walker.visitor ∨ (law.visits v).Within forecast) :
    Obeys law forecast (walker.step perform path v) := by
  have hevaluated : Obeys law ((Forecast.ofAll init (path.staticInits.filter (·.2.1 == some v))
      (path.staticInits.filter (·.2.1 == some v))).maybe ++ .ofAll of (walker.vertexParts v) (walker.vertexParts v)) (do
        walker.runStaticInits perform path (some v)
        walker.evaluateVertex perform path v
        let after ← symbols
        notify (walker.visitor.afterVisit v after)
        modifyFrame (·.popBlocks (walker.graph.endScopes v).length)) :=
    (obeys_runStaticInits hfield path (some v) hinits).bind fun _ => (obeys_evaluateVertex hparts).finish fun _ =>
    obeys_leave hrecords v
  have hskipped : Obeys law .none (do
      walker.skipVertex v
      let after ← symbols
      notify (walker.visitor.afterVisit v after)
      modifyFrame (·.popBlocks (walker.graph.endScopes v).length)) := (obeys_skipVertex v).after fun _ =>
      obeys_leave hrecords v
  rw [step]
  dsimp only
  have hmain : Obeys law forecast (do
      if ← walker.visit v then
        walker.runStaticInits perform path (some v)
        walker.evaluateVertex perform path v
      else
        walker.skipVertex v
      let after ← symbols
      notify (walker.visitor.afterVisit v after)
      modifyFrame (·.popBlocks (walker.graph.endScopes v).length)) := by
    rcases hpruned with hconsents | hvisits
    · rw [visit_bind_of_consents hconsents]
      exact ((obeys_visit hrecords v).bind fun _ => hevaluated).imp hforecast
    · refine (obeys_visit hrecords v).bindWithin (fun consent => bif consent then
        (Forecast.ofAll init (path.staticInits.filter (·.2.1 == some v))
        (path.staticInits.filter (·.2.1 == some v))).maybe ++ .ofAll of (walker.vertexParts v) (walker.vertexParts v)
        else .none) (fun consent => ?_) fun consent => ?_
      · cases consent with
        | true => exact hevaluated
        | false => exact hskipped
      · cases consent with
        | true => exact hforecast
        | false => exact ((law.visits v).append_none.symm ▸ hvisits :)
  split
  · exact (obeys_modifyFrame _).after fun _ => hmain
  · exact hmain

/-! ## Paths -/

omit hfield hinits in
theorem obeys_runMethod {frame : Frame}
    (hsteps : ∀ v ∈ path.ids, Obeys law (step v) (walker.step perform path v)) :
    Obeys law (.ofAll step path.ids path.ids) (walker.runMethod perform path frame) := by
  have henter : ∀ entered, Obeys law .none (notify (walker.visitor.enterMethod path.method entered)) :=
    fun entered => obeys_notify (fun _ => (hrecords.enterMethod ..).1) fun _ => (hrecords.enterMethod ..).2
  have hexit : ∀ returned, Obeys law .none (notify (walker.visitor.exitMethod path.method returned)) :=
    fun returned => obeys_notify (fun _ => (hrecords.exitMethod ..).1) fun _ => (hrecords.exitMethod ..).2
  exact (obeys_pushFrame _).after fun _ => obeys_symbols.after fun entered => (henter entered).after fun _ =>
    (Obeys.forM path.ids hsteps).finish fun _ => obeys_popFrame.after fun left =>
    (hexit left.returned).after fun _ => .pure _

/-- What is foretold of a path: the static initializers without a vertex, then its vertices. -/
def pathForecast (init : String × Option VertexId × CodePath → Forecast β) (step : VertexId → Forecast β)
    (path : CodePath) : Forecast β :=
  (Forecast.ofAll init (path.staticInits.filter (·.2.1 == none)) (path.staticInits.filter (·.2.1 == none))).maybe ++
    .ofAll step path.ids path.ids

section
variable (hsteps : ∀ v ∈ path.ids, Obeys law (step v) (walker.step perform path v))
include hsteps

theorem obeys_invokePath
    (this : Option HeapRef) (args : List Value) :
    Obeys law (pathForecast init step path) (walker.invokePath perform path this args) :=
  (obeys_runStaticInits hfield path none hinits).bind fun _ => (obeys_runMethod hrecords hsteps).finish fun _ => .pure _

/-- A walk obeys the forecast of its path. -/
theorem obeys_walkPath :
    Obeys law (pathForecast init step path) (walker.walkPath perform path) := by
  have hrun : ∀ this,
      Obeys law (.ofAll step path.ids path.ids)
      (walker.runMethod perform path (walker.methodFrame path.method this [])) :=
    fun _ => obeys_runMethod hrecords hsteps
  have hobject : ∀ owner : Option VertexId, Obeys law (.ofAll step path.ids path.ids) (do
      let this ← if walker.graph.isStatic path.method then pure none else owner.mapM (walker.instantiate perform)
      walker.runMethod perform path (walker.methodFrame path.method this [])) := by
    intro owner
    split
    · exact hrun none
    · cases owner with
      | none => exact hrun none
      | some type => exact ((obeys_instantiate hfield type).map some).after hrun
  rw [walkPath]
  refine (obeys_runStaticInits hfield path none hinits).bind fun _ => ?_
  cases walker.graph.enclosingType? path.method with
  | none => exact hobject none
  | some type => exact (obeys_ensureInitialized hfield type).after fun _ => hobject (some type)

end

end

end

end ApexPaths.Walker
