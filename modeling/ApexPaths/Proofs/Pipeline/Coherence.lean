import ApexPaths.Pipeline
import ApexPaths.Proofs.Expansion.Ending

/-!
A pipeline over any calls, failed ones among them. Its kept paths are always those of the graph that it holds: an
expansion adds forward paths of this graph only, however it ends, and a build that replaces the graph drops all of them.
A build replaces everything or nothing, and no other call touches the graph.
-/

namespace ApexPaths
set_option autoImplicit false

/-! ## Methods side by side -/

theorem Worker.ensures_advance {expander : Expander} (worker : Worker) :
    Ensures expander.graph (worker.advance expander) fun _ => True := by
  cases worker with
  | waiting method => exact (Expander.ensures_pathsOf method).bind fun _ _ => .pure trivial
  | running method stack seeds found =>
    refine (Expander.ensures_step stack).bind fun progress _ => ?_
    cases progress <;> exact .pure trivial
  | finished expansion => exact .pure trivial
  | failed error => exact .pure trivial

namespace Team

variable {expander : Expander} {team : Team}

theorem holds_turn (h : team.state.cache.Holds expander.graph) (index : Nat) :
    (team.turn expander index).state.cache.Holds expander.graph := by
  rw [turn]
  cases team.workers[index]? with
  | none => exact h
  | some worker =>
    obtain ⟨hkept, -⟩ := worker.ensures_advance team.state h
    dsimp only
    rcases hrun : (worker.advance expander).run team.state with ⟨_ | _, after⟩ <;> rw [hrun] at hkept <;> exact hkept

theorem holds_run (h : team.state.cache.Holds expander.graph) (schedule : List Nat) :
    (team.run expander schedule).state.cache.Holds expander.graph := by
  induction schedule generalizing team with
  | nil => exact h
  | cons index schedule ih => exact ih (holds_turn h index)

end Team

namespace Pipeline

/-! ## Calls -/

/-- A call on a pipeline with its arguments. Methods that are expanded side by side come with the order of their
turns. -/
inductive Call where
  | build (units : List Source.CompilationUnit)
  | buildSources (sources : List (String × String))
  | pathsOf (method : VertexId) (options : ExpansionOptions)
  | walk {σ : Type} (method : VertexId) (options : ExpansionOptions) (visitor : Visitor σ) (observed : σ)
  | expandAll (methods : List VertexId) (options : ExpansionOptions)
  | expandTogether (methods : List VertexId) (options : ExpansionOptions) (schedule : List Nat)

/-- The error of a result. -/
def failure? {α : Type} : Except EngineError α → Option EngineError
  | .ok _ => none
  | .error error => some error

namespace Call

/-- The failure of a call, if it fails, and the pipeline after it. -/
def perform (pipeline : Pipeline) : Call → Option EngineError × Pipeline
  | build units => let (result, after) := pipeline.build units; (failure? result, after)
  | buildSources sources => let (result, after) := pipeline.buildSources sources; (failure? result, after)
  | pathsOf method options => let (result, after) := pipeline.pathsOf method options; (failure? result, after)
  | walk method options visitor observed =>
    let (result, _, after) := pipeline.walk method options visitor observed; (failure? result, after)
  | expandAll methods options => let (result, after) := pipeline.expandAll methods options; (failure? result, after)
  | expandTogether methods options schedule =>
    let team := pipeline.expandTogether methods options schedule
    (team.outcome?.bind failure?, { pipeline with cache := team.state.cache })

/-- The units that a call asks to build the graph from, if its sources can be parsed. -/
def units? : Call → Option (Except EngineError (List Source.CompilationUnit))
  | build units => some (.ok units)
  | buildSources sources => some ((Source.parseAll sources).mapError .parse)
  | _ => none

end Call

/-- A pipeline after some calls, the first one first. -/
def performAll (pipeline : Pipeline) (calls : List Call) : Pipeline :=
  calls.foldl (fun pipeline call => (call.perform pipeline).2) pipeline

/-! ## What a call keeps -/

/-- What a pipeline keeps is true of its graph. -/
def Coherent (pipeline : Pipeline) : Prop := pipeline.cache.Holds pipeline.graph

/-- Two pipelines with one graph. -/
structure SameGraph (pipeline after : Pipeline) : Prop where
  settings_eq : after.settings = pipeline.settings
  graph_eq : after.graph = pipeline.graph
  stats_eq : after.stats = pipeline.stats

variable {pipeline : Pipeline}

theorem sameGraph_walk {σ : Type} (method : VertexId) (options : ExpansionOptions) (visitor : Visitor σ)
    (observed : σ) : pipeline.SameGraph (pipeline.walk method options visitor observed).2.2 ∧
      (pipeline.walk method options visitor observed).2.2.cache = (pipeline.pathsOf method options).2.cache := by
  rw [walk]
  rcases hpaths : pipeline.pathsOf method options with ⟨_ | paths, after⟩ <;>
    exact ⟨congrArg Prod.snd hpaths ▸ ⟨rfl, rfl, rfl⟩, rfl⟩

theorem Coherent.expand (h : pipeline.Coherent) {α : Type} (options : ExpansionOptions) (job : Expander → ExpandM α)
    (hjob : Ensures pipeline.graph (job (pipeline.expander options)) fun _ => True) :
    (pipeline.expand options job).2.Coherent :=
  (hjob (pipeline.start pipeline.settings.expansionLimit) h).1

theorem Coherent.pathsOf (h : pipeline.Coherent) (method : VertexId) (options : ExpansionOptions) :
    (pipeline.pathsOf method options).2.Coherent :=
  h.expand options (fun expander => expander.expandMethod method)
  (@Expander.ensures_expandMethod (pipeline.expander options) method)

theorem Coherent.expandAll (h : pipeline.Coherent) (methods : List VertexId) (options : ExpansionOptions) :
    (pipeline.expandAll methods options).2.Coherent :=
  h.expand options (fun expander => expander.expandMethods methods)
  (@Expander.ensures_expandMethods (pipeline.expander options) methods)

theorem perform_build (units : List Source.CompilationUnit) : Call.perform pipeline (.build units) =
    match Build.build pipeline.settings units with
    | .ok (graph, stats) => (none, { settings := pipeline.settings, graph, stats })
    | .error error => (some error, pipeline) := by
  rw [Call.perform, build]
  cases Build.build pipeline.settings units <;> rfl

theorem perform_of_units? {call : Call} {units : Except EngineError (List Source.CompilationUnit)}
    (h : call.units? = some units) : call.perform pipeline = match units.bind (Build.build pipeline.settings) with
      | .ok (graph, stats) => (none, { settings := pipeline.settings, graph, stats })
      | .error error => (some error, pipeline) := by
  cases call with
  | build units =>
    cases h
    exact perform_build units
  | buildSources sources =>
    cases h
    rw [Call.perform, buildSources]
    cases Source.parseAll sources with
    | error error => rfl
    | ok units => exact perform_build units
  | _ => cases h

theorem sameGraph_perform {call : Call} (h : call.units? = none) : pipeline.SameGraph (call.perform pipeline).2 := by
  cases call with
  | build units => cases h
  | buildSources sources => cases h
  | walk method options visitor observed => exact (sameGraph_walk method options visitor observed).1
  | _ => exact ⟨rfl, rfl, rfl⟩

/-- Every call keeps the cache and the graph of a pipeline together. -/
theorem Coherent.perform (h : pipeline.Coherent) (call : Call) : (call.perform pipeline).2.Coherent := by
  cases hunits : call.units? with
  | some units =>
    rw [perform_of_units? hunits]
    split
    · exact List.forall_mem_nil _
    · exact h
  | none =>
    cases call with
    | build units => cases hunits
    | buildSources sources => cases hunits
    | pathsOf method options => exact h.pathsOf method options
    | walk method options visitor observed =>
      obtain ⟨hsame, hcache⟩ := pipeline.sameGraph_walk method options visitor observed
      have hpaths := h.pathsOf method options
      rw [Coherent, ← hcache] at hpaths
      rw [Coherent, Call.perform, hsame.graph_eq]
      exact hpaths
    | expandAll methods options => exact h.expandAll methods options
    | expandTogether methods options schedule =>
      exact @Team.holds_run (pipeline.expander options) (pipeline.team methods) h schedule

/-! ## Whole sequences -/

theorem Coherent.performAll (h : pipeline.Coherent) (calls : List Call) : (pipeline.performAll calls).Coherent := by
  induction calls generalizing pipeline with
  | nil => exact h
  | cons call calls ih => exact ih (h.perform call)

theorem settings_performAll (pipeline : Pipeline) (calls : List Call) :
    (pipeline.performAll calls).settings = pipeline.settings := by
  induction calls generalizing pipeline with
  | nil => rfl
  | cons call calls ih =>
    refine (ih _).trans ?_
    show (call.perform pipeline).2.settings = pipeline.settings
    cases hunits : call.units? with
    | none => exact (sameGraph_perform hunits).settings_eq
    | some units =>
      rw [perform_of_units? hunits]
      split <;> rfl

/-- After any calls on a new pipeline the kept paths are the forward paths in the graph. One more call keeps them so;
where it builds it replaces the graph and its statistics and drops the kept paths, or else fails and changes nothing;
otherwise it leaves the graph and its statistics alone, also when it fails. -/
theorem perform_after_calls (settings : Settings) (calls : List Call) (call : Call) :
    let before := performAll { settings } calls
    let after := call.perform before
    (∀ entry ∈ before.cache, Path.forward before.graph entry.1 = .ok entry.2) ∧
    (∀ entry ∈ after.2.cache, Path.forward after.2.graph entry.1 = .ok entry.2) ∧
    (∀ units, call.units? = some units → after = match units.bind (Build.build settings) with
      | .ok (graph, stats) => (none, { settings, graph, stats, cache := [] })
      | .error error => (some error, before)) ∧
    (call.units? = none → after.2.settings = before.settings ∧ after.2.graph = before.graph ∧
    after.2.stats = before.stats) := by
  have hnew : Coherent { settings } := List.forall_mem_nil _
  have hcoherent := hnew.performAll calls
  refine ⟨hcoherent, hcoherent.perform call, fun units hunits => ?_, fun hunits => ?_⟩
  · rw [perform_of_units? hunits, settings_performAll]
  · have hsame : SameGraph (performAll { settings } calls) (call.perform (performAll { settings } calls)).2 :=
      sameGraph_perform hunits
    exact ⟨hsame.settings_eq, hsame.graph_eq, hsame.stats_eq⟩

end Pipeline

end ApexPaths
