import ApexPaths.Proofs.Graph.Change
import ApexPaths.Proofs.Result
import ApexPaths.Build.Basic
import Mathlib.Tactic.SplitIfs

/-!
What every change keeps. A build makes its graph from the empty one by adding vertices, assigning properties and adding
edges, in whatever order; so what these three keep holds of every graph that was built. That the ends of edges are
vertices is such a property.
-/

namespace ApexPaths.Build
set_option autoImplicit false

open Source

/-- A property of graphs that no change of a graph breaks. -/
structure Lasting (P : CodeGraph → Prop) : Prop where
  addVertex : ∀ {graph}, P graph → ∀ label span, P (graph.addVertex label span)
  setProperty : ∀ {graph}, P graph → ∀ id key value, P (graph.setProperty id key value)
  addEdge : ∀ {graph}, P graph → ∀ source target label, P (graph.addEdge source target label)

variable {units : List CompilationUnit}

namespace Lasting

variable {P : CodeGraph → Prop} {graph : CodeGraph}

/-! ## Vertices -/

section
variable (lasting : Lasting P)
include lasting

theorem addChild (h : P graph) (parent child : VertexId) : P (graph.addChild parent child) := by
  refine lasting.addEdge (lasting.setProperty (lasting.setProperty (lasting.setProperty ?_ _ _ _) _ _ _) _ _ _) _ _ _
  split
  · exact lasting.setProperty h _ _ _
  · exact h

theorem setProperties (h : P graph) (id : VertexId) (entries : PropertyMap) :
    P (entries.foldl (fun graph entry => graph.setProperty id entry.1 entry.2) graph) := by
  induction entries generalizing graph with
  | nil => exact h
  | cons entry entries ih => exact ih (lasting.setProperty h _ _ _)

theorem addNode (h : P graph) (origin : Origin) (scopes : ScopeStack) (parent : Option VertexId) (kind : NodeKind)
    (span : Span) (props : PropertyMap) : P (addNode origin scopes parent graph kind span props) := by
  refine lasting.setProperties ?_ _ _
  cases parent with
  | none => exact lasting.addVertex h _ _
  | some parent => exact lasting.addChild (lasting.addVertex h _ _) _ _

end

mutual

theorem addTree (lasting : Lasting P) {graph : CodeGraph} (h : P graph) (origin : Origin) (scopes : ScopeStack)
    (parent : Option VertexId) : (tree : Tree) → P (addTree origin scopes parent graph tree)
  | ⟨kind, span, props, children⟩ => by
    rw [Build.addTree]
    exact addTrees lasting (lasting.addNode h origin scopes parent kind span props) _ _ _ children

theorem addTrees (lasting : Lasting P) {graph : CodeGraph} (h : P graph) (origin : Origin) (scopes : ScopeStack)
    (parent : VertexId) : (trees : List Tree) → P (addTrees origin scopes parent graph trees)
  | [] => by rwa [Build.addTrees]
  | tree :: rest => by
    rw [Build.addTrees]
    exact addTrees lasting (addTree lasting h origin scopes (some parent) tree) origin scopes parent rest

end

section
variable (lasting : Lasting P)
include lasting

theorem addUnit {graph' : CodeGraph} {isStandard : Bool} {unit : CompilationUnit} (h : P graph)
    (hadd : addUnit isStandard graph unit = .ok graph') : P graph' := by
  obtain ⟨-, -, hadd⟩ := bind_eq_ok.mp hadd
  exact Except.ok.inj hadd ▸ lasting.addTree h _ _ _ _

theorem addUnits {graph' : CodeGraph} {isStandard : Bool} (h : P graph)
    (hadd : units.foldlM (Build.addUnit isStandard) graph = .ok graph') : P graph' := by
  induction units generalizing graph with
  | nil => exact Except.ok.inj hadd ▸ h
  | cons unit units ih =>
    obtain ⟨next, hnext, hrest⟩ := bind_eq_ok.mp hadd
    exact ih (lasting.addUnit h hnext) hrest

/-! ## Supertypes -/

theorem link (h : P graph) (source target : VertexId) (label : EdgeLabel) : P (link graph source target label) := by
  unfold Build.link
  split
  · exact lasting.addEdge (lasting.addEdge h _ _ _) _ _ _
  · exact lasting.addEdge h _ _ _

/-- The change keeps a property of graphs. -/
def Keeping (P : CodeGraph → Prop) {α : Type} (x : Change α) : Prop := ∀ graph, P graph → P (x.run graph).2

omit lasting in
/-- What two changes keep, the one after the other keeps. -/
theorem Keeping.bind {α β : Type} {x : Change α} {f : α → Change β} (hx : Keeping P x) (hf : ∀ a, Keeping P (f a)) :
    Keeping P (x >>= f) := by
  intro graph h
  have hx := hx graph h
  rw [run_bind]
  obtain ⟨answer, graph', hrun⟩ : ∃ answer graph', x.run graph = (answer, graph') := ⟨_, _, rfl⟩
  rw [hrun] at hx ⊢
  cases answer with
  | ok a => exact hf a graph' hx
  | error error => exact hx

theorem keeping_linkReferences (table : List (String × VertexId)) (id : VertexId)
    (references : List (String × EdgeLabel)) : Keeping P (linkReferences table id references) := by
  induction references with
  | nil => exact fun _ h => h
  | cons reference rest ih =>
    unfold Build.linkReferences
    refine Keeping.bind (fun _ h => h) fun graph => ?_
    split
    · split
      · exact fun _ h => h
      · exact Keeping.bind (fun _ h => lasting.link h _ _ _) fun _ => Keeping.bind ih fun _ _ h => h
    · exact Keeping.bind ih fun _ _ h => h

theorem keeping_linkTypes (table : List (String × VertexId)) (types : List VertexId) :
    Keeping P (linkTypes table types) := by
  induction types with
  | nil => exact fun _ h => h
  | cons id rest ih =>
    rw [Build.linkTypes]
    refine Keeping.bind (fun _ h => h) fun graph => Keeping.bind (lasting.keeping_linkReferences _ _ _) fun found => ?_
    have hrest :=
      Keeping.bind ih fun more => show Keeping P (pure (found.1 + more.1, found.2.length + more.2)) from fun _ h => h
    dsimp only
    split
    · exact Keeping.bind (fun _ h => lasting.setProperty h _ _ _) fun _ => hrest
    · exact hrest

theorem keeping_resolveInheritance : Keeping P resolveInheritance := by
  refine Keeping.bind (fun _ h => h) fun start => Keeping.bind (lasting.keeping_linkTypes _ _) fun _ => ?_
  refine Keeping.bind (fun _ h => h) fun graph => ?_
  split <;> exact fun _ h => h

/-! ## Control flow -/

/-- Laying flow keeps what is lasting. -/
theorem steps (h : P graph) (steps : List Flow.Step) : P (steps.foldl Flow.Step.apply graph) := by
  induction steps generalizing graph with
  | nil => exact h
  | cons step steps ih =>
    refine ih ?_
    cases step with
    | edge source target kind => exact lasting.addEdge h _ _ _
    | endScopes id kinds => exact lasting.setProperty h _ _ _

/-- Flow of a method keeps what is lasting, also where it ends in a fault. -/
theorem synthesize (h : P graph) (method : VertexId) : P (Flow.synthesize graph method).2 := by
  unfold Flow.synthesize
  split
  · split
    · exact h
    · exact lasting.steps h _
  · exact h

theorem synthesizeMethods (h : P graph) (methods : List VertexId) : P (Flow.synthesizeMethods graph methods).2 := by
  induction methods generalizing graph with
  | nil => exact h
  | cons method rest ih =>
    have hfirst := lasting.synthesize h method
    rw [Flow.synthesizeMethods]
    split <;> rename_i hrun <;> rw [hrun] at hfirst
    · exact hfirst
    · exact ih hfirst

/-! ## Builds -/

/-- What the empty graph has and no change breaks, every built graph has. -/
theorem of_build {settings : Settings} {stats : Stats} (hempty : P {})
    (hbuild : build settings units = .ok (graph, stats)) : P graph := by
  obtain ⟨own, hown, hbuild⟩ := bind_eq_ok.mp hbuild
  dsimp only at hbuild
  split at hbuild
  all_goals
    obtain ⟨stubs, -, hbuild⟩ := bind_eq_ok.mp hbuild
    obtain ⟨types, htypes, hbuild⟩ := bind_eq_ok.mp hbuild
    obtain ⟨inheritance, -, hbuild⟩ := bind_eq_ok.mp hbuild
    obtain ⟨count, -, hbuild⟩ := bind_eq_ok.mp hbuild
    obtain ⟨rfl, -⟩ := Prod.mk.inj (Except.ok.inj hbuild)
    have htypes : P types := lasting.addUnits (lasting.addUnits hempty hown) htypes
    exact lasting.synthesizeMethods (lasting.keeping_resolveInheritance types htypes) _

end

end Lasting

/-! ## Ends of edges -/

/-- Edges lead to vertices of the graph. -/
def LeadsInside (graph : CodeGraph) : Prop :=
  ∀ (v : VertexId) (label : EdgeLabel) (w : Nat), w ∈ graph.outNeighbors v label → w < graph.vertexCount

theorem lasting_leadsInside : Lasting LeadsInside where
  addVertex {graph} h label span v l w hw := by
    rw [CodeGraph.vertexCount_addVertex]
    refine Nat.lt_succ_of_lt (h v l w ?_)
    rw [CodeGraph.outNeighbors, CodeGraph.vertex?_addVertex] at hw
    split_ifs at hw
    · simp [Vertex.make] at hw
    · exact hw
  setProperty {graph} h id key value v l w hw := by
    rw [CodeGraph.outNeighbors_setProperty] at hw
    simpa using h v l w hw
  addEdge {graph} h source target label v l w hw := by
    rw [CodeGraph.vertexCount_addEdge]
    by_cases hrange : (source : Nat) < graph.vertexCount ∧ (target : Nat) < graph.vertexCount
    · rw [CodeGraph.outNeighbors_addEdge graph hrange] at hw
      rcases List.mem_append.mp hw with hw | hw
      · exact h v l w hw
      · split_ifs at hw
        · exact List.mem_singleton.mp hw ▸ hrange.2
        · exact absurd hw List.not_mem_nil
    · rw [CodeGraph.addEdge, if_neg hrange] at hw
      exact h v l w hw

theorem leadsInside_of_build {settings : Settings} {graph : CodeGraph} {stats : Stats}
    (hbuild : build settings units = .ok (graph, stats)) : LeadsInside graph :=
  lasting_leadsInside.of_build (fun v l w hw => by simp [CodeGraph.outNeighbors, CodeGraph.vertex?] at hw) hbuild

end ApexPaths.Build
