import ApexPaths.Proofs.Flow.Vertices

/-!
What the steps of a plan do to a graph. They leave its tree part as it is; edges are appended in the
order of the steps, and a later mark of ended scopes replaces an earlier one. Where every vertex has
one junction, the graph reads the junctions back.
-/

namespace ApexPaths.Flow
set_option autoImplicit false

open List

variable {junction : Junction} {v : VertexId}

/-! ## Steps -/

/-- The flow that a step adds out of a vertex. -/
def Step.successor? (v : VertexId) : Step → Option (VertexId × FlowKind)
  | .edge source target kind => if source = v then some (target, kind) else none
  | .endScopes _ _ => none

/-- The flow that a step adds into a vertex. -/
def Step.predecessor? (v : VertexId) : Step → Option (VertexId × FlowKind)
  | .edge source target kind => if target = v then some (source, kind) else none
  | .endScopes _ _ => none

/-- The scopes that a step marks as ended at a vertex. -/
def Step.ended? (v : VertexId) : Step → Option (List NodeKind)
  | .edge _ _ _ => none
  | .endScopes id kinds => if id = v then some kinds else none

def Step.InRange (n : Nat) : Step → Prop
  | .edge source target _ => source < n ∧ target < n
  | .endScopes id _ => id < n

section
variable (graph : CodeGraph)
include graph

theorem Step.sameTree_apply (step : Step) : graph.SameTree (step.apply graph) := by
  cases step with
  | edge source target kind => exact .of_addEdge graph source target (by simp)
  | endScopes id kinds => exact .of_setProperty graph id rfl _

theorem sameTree_steps (steps : List Step) : graph.SameTree (steps.foldl Step.apply graph) := by
  induction steps generalizing graph with
  | nil => exact .refl graph
  | cons step steps ih => exact (step.sameTree_apply graph).trans (ih (step.apply graph))

/-- Steps append the successors that they add. -/
theorem flowSuccessors_steps (steps : List Step) (h : ∀ step ∈ steps, step.InRange graph.vertexCount)
    (v : VertexId) : (steps.foldl Step.apply graph).flowSuccessors v =
      graph.flowSuccessors v ++ steps.filterMap (Step.successor? v) := by
  induction steps generalizing graph with
  | nil => simp
  | cons step steps ih =>
    obtain ⟨hstep, hrest⟩ := forall_mem_cons.mp h
    have hcount := (step.sameTree_apply graph).vertexCount_eq
    rw [foldl_cons, ih _ (by rwa [hcount])]
    cases step with
    | edge source target kind =>
      rw [Step.apply, graph.flowSuccessors_addEdge hstep, List.append_assoc, filterMap_cons]
      by_cases hs : source = v
      · simp [Step.successor?, hs]
      · simp [Step.successor?, hs, Ne.symm hs]
    | endScopes id kinds => simp [Step.apply, filterMap_cons, Step.successor?]

theorem flowPredecessors_steps (steps : List Step) (h : ∀ step ∈ steps, step.InRange graph.vertexCount)
    (v : VertexId) : (steps.foldl Step.apply graph).flowPredecessors v =
      graph.flowPredecessors v ++ steps.filterMap (Step.predecessor? v) := by
  induction steps generalizing graph with
  | nil => simp
  | cons step steps ih =>
    obtain ⟨hstep, hrest⟩ := forall_mem_cons.mp h
    have hcount := (step.sameTree_apply graph).vertexCount_eq
    rw [foldl_cons, ih _ (by rwa [hcount])]
    cases step with
    | edge source target kind =>
      rw [Step.apply, graph.flowPredecessors_addEdge hstep, List.append_assoc, filterMap_cons]
      by_cases ht : target = v
      · simp [Step.predecessor?, ht]
      · simp [Step.predecessor?, ht, Ne.symm ht]
    | endScopes id kinds => simp [Step.apply, filterMap_cons, Step.predecessor?]

theorem endScopes_steps (steps : List Step) (h : ∀ step ∈ steps, step.InRange graph.vertexCount)
    (v : VertexId) : (steps.foldl Step.apply graph).property? v (.fact .endScopes) =
      ((steps.filterMap (Step.ended? v)).getLast?.map fun kinds => .texts (kinds.map NodeKind.name)).or
        (graph.property? v (.fact .endScopes)) := by
  induction steps generalizing graph with
  | nil => simp
  | cons step steps ih =>
    obtain ⟨hstep, hrest⟩ := forall_mem_cons.mp h
    have hcount := (step.sameTree_apply graph).vertexCount_eq
    rw [foldl_cons, ih _ (by rwa [hcount])]
    cases step with
    | edge source target kind => simp [Step.apply, filterMap_cons, Step.ended?]
    | endScopes id kinds =>
      rw [Step.apply, graph.property?_setProperty_fact id v .endScopes _ _ hstep, filterMap_cons]
      by_cases hv : id = v
      · cases hlast : (steps.filterMap (Step.ended? v)).getLast? with
        | none => simp [Step.ended?, hv, List.getLast?_eq_none_iff.mp hlast]
        | some last => simp [Step.ended?, hv, List.getLast?_cons, hlast]
      · simp [Step.ended?, hv, Ne.symm hv]

end

/-! ## Junctions -/

def Junction.InRange (n : Nat) (junction : Junction) : Prop := junction.id < n ∧ ∀ e ∈ junction.next, e.1 < n

theorem Junction.InRange.steps {n : Nat} (h : junction.InRange n) :
    ∀ step ∈ junction.steps, step.InRange n := by
  intro step hstep
  rw [Junction.steps, mem_append] at hstep
  rcases hstep with hstep | hstep
  · split at hstep
    · exact absurd hstep not_mem_nil
    · rw [mem_singleton.mp hstep]
      exact h.1
  · obtain ⟨e, he, rfl⟩ := mem_map.mp hstep
    exact ⟨h.1, h.2 e he⟩

theorem Junction.successors_steps (junction : Junction) (v : VertexId) :
    junction.steps.filterMap (Step.successor? v) = if junction.id = v then junction.next else [] := by
  have hedges : (junction.next.map fun e => Step.edge junction.id e.1 e.2).filterMap (Step.successor? v) =
      if junction.id = v then junction.next else [] := by
    rw [filterMap_map]
    by_cases hv : junction.id = v
    · simp [Function.comp_def, Step.successor?, hv]
    · simp [Step.successor?, hv]
  rw [Junction.steps, filterMap_append, hedges]
  split <;> simp [Step.successor?]

theorem Junction.ended_steps (junction : Junction) (v : VertexId) :
    junction.steps.filterMap (Step.ended? v) =
      if junction.id = v ∧ junction.left ≠ [] then [junction.left] else [] := by
  have hedges : (junction.next.map fun e => Step.edge junction.id e.1 e.2).filterMap (Step.ended? v) = [] := by
    simp [filterMap_map, Function.comp_def, Step.ended?]
  rw [Junction.steps, filterMap_append, hedges, append_nil]
  cases hleft : junction.left with
  | nil => simp
  | cons kind kinds => by_cases hv : junction.id = v <;> simp [Step.ended?, hv]

theorem Junction.mem_of_predecessor {source : VertexId} {kind : FlowKind}
    (h : (source, kind) ∈ junction.steps.filterMap (Step.predecessor? v)) : (v, kind) ∈ junction.next := by
  obtain ⟨step, hstep, hpred⟩ := mem_filterMap.mp h
  rw [Junction.steps, mem_append] at hstep
  rcases hstep with hstep | hstep
  · split at hstep
    · exact absurd hstep not_mem_nil
    · rw [mem_singleton.mp hstep, Step.predecessor?] at hpred
      exact absurd hpred.symm (Option.some_ne_none _)
  · obtain ⟨⟨target, kind'⟩, he, rfl⟩ := mem_map.mp hstep
    rw [Step.predecessor?] at hpred
    by_cases ht : target = v
    · rw [if_pos ht, Option.some.injEq, Prod.mk.injEq] at hpred
      rwa [← ht, ← hpred.2]
    · rw [if_neg ht] at hpred
      exact absurd hpred.symm (Option.some_ne_none _)

theorem flatMap_junction {α : Type} (f : Junction → List α) {junctions : List Junction}
    (hnodup : (junctions.map Junction.id).Nodup) (hmem : junction ∈ junctions)
    (hf : ∀ other ∈ junctions, other.id ≠ junction.id → f other = []) : junctions.flatMap f = f junction := by
  induction junctions with
  | nil => exact absurd hmem not_mem_nil
  | cons first rest ih =>
    rw [map_cons, nodup_cons] at hnodup
    rw [flatMap_cons]
    rcases mem_cons.mp hmem with rfl | hrest
    · have hnil : rest.flatMap f = [] := by
        rw [flatMap_eq_nil_iff]
        intro other hother
        refine hf other (mem_cons_of_mem _ hother) fun e => hnodup.1 ?_
        rw [← e]
        exact mem_map_of_mem hother
      rw [hnil, append_nil]
    · have hne : first.id ≠ junction.id := fun e => hnodup.1 (e ▸ mem_map_of_mem hrest)
      rw [hf first mem_cons_self hne, nil_append]
      exact ih hnodup.2 hrest fun other hother => hf other (mem_cons_of_mem _ hother)

/-- A graph has what a junction says. -/
structure Junction.Stands (graph : CodeGraph) (junction : Junction) : Prop where
  next_eq : graph.flowSuccessors junction.id = junction.next
  left_eq : graph.endScopes junction.id = junction.left

section
variable {graph : CodeGraph} {junctions : List Junction} (hrange : ∀ j ∈ junctions, j.InRange graph.vertexCount)
include hrange

theorem inRange_steps : ∀ step ∈ junctions.flatMap Junction.steps, step.InRange graph.vertexCount := by
  intro step hstep
  obtain ⟨j, hj, hstep⟩ := mem_flatMap.mp hstep
  exact (hrange j hj).steps step hstep

/-- A junction stands in the graph after the steps of all junctions. -/
theorem stands_steps (hnodup : (junctions.map Junction.id).Nodup) (hmem : junction ∈ junctions)
    (hnext : graph.flowSuccessors junction.id = []) (hended : graph.property? junction.id (.fact .endScopes) = none) :
    junction.Stands ((junctions.flatMap Junction.steps).foldl Step.apply graph) := by
  constructor
  · rw [flowSuccessors_steps graph _ (inRange_steps hrange), hnext, nil_append, filterMap_flatMap,
      flatMap_junction _ hnodup hmem, junction.successors_steps, if_pos rfl]
    intro other _ hne
    rw [other.successors_steps, if_neg hne]
  · have hended : ((junctions.flatMap Junction.steps).foldl Step.apply graph).property? junction.id (.fact .endScopes) =
        ((if junction.left ≠ [] then [junction.left] else []).getLast?.map fun kinds =>
        .texts (kinds.map NodeKind.name)) := by
      rw [endScopes_steps graph _ (inRange_steps hrange), hended, Option.or_none, filterMap_flatMap,
        flatMap_junction _ hnodup hmem, junction.ended_steps]
      · simp
      intro other _ hne
      rw [other.ended_steps, if_neg fun h => hne h.1]
    have hnames : (junction.left.map NodeKind.name).filterMap NodeKind.ofName? = junction.left := by
      simp [filterMap_map, Function.comp_def, NodeKind.ofName?_name]
    rw [CodeGraph.endScopes, CodeGraph.texts_eq, hended]
    by_cases hleft : junction.left = []
    · simp [hleft]
    · simpa [hleft, PropertyValue.texts?] using hnames

theorem flowSuccessors_of_not_mem (hv : v ∉ junctions.map Junction.id) :
    ((junctions.flatMap Junction.steps).foldl Step.apply graph).flowSuccessors v = graph.flowSuccessors v := by
  have hnil : (junctions.flatMap fun j => j.steps.filterMap (Step.successor? v)) = [] := by
    rw [flatMap_eq_nil_iff]
    intro j hj
    have hne : j.id ≠ v := fun e => hv (e ▸ mem_map_of_mem hj)
    rw [j.successors_steps, if_neg hne]
  rw [flowSuccessors_steps graph _ (inRange_steps hrange), filterMap_flatMap, hnil, append_nil]

theorem endScopes_of_not_mem (hv : v ∉ junctions.map Junction.id) :
    ((junctions.flatMap Junction.steps).foldl Step.apply graph).property? v (.fact .endScopes) =
      graph.property? v (.fact .endScopes) := by
  have hnil : (junctions.flatMap fun j => j.steps.filterMap (Step.ended? v)) = [] := by
    rw [flatMap_eq_nil_iff]
    intro j hj
    have hne : j.id ≠ v := fun e => hv (e ▸ mem_map_of_mem hj)
    rw [j.ended_steps, if_neg fun h => hne h.1]
  rw [endScopes_steps graph _ (inRange_steps hrange), filterMap_flatMap, hnil]
  rfl

theorem mem_flowPredecessors {source : VertexId} {kind : FlowKind}
    (h : (source, kind) ∈ ((junctions.flatMap Junction.steps).foldl Step.apply graph).flowPredecessors v) :
    (source, kind) ∈ graph.flowPredecessors v ∨ ∃ j ∈ junctions, (v, kind) ∈ j.next := by
  rw [flowPredecessors_steps graph _ (inRange_steps hrange), mem_append, filterMap_flatMap] at h
  refine h.imp id fun h => ?_
  obtain ⟨j, hj, hmem⟩ := mem_flatMap.mp h
  exact ⟨j, hj, Junction.mem_of_predecessor hmem⟩

end

end ApexPaths.Flow
