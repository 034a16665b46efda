import ApexPaths.Proofs.Flow.Course
import ApexPaths.Proofs.Flow.Methods
import ApexPaths.Proofs.Path.Forward
import Mathlib.Logic.Relation

/-!
Control flow of a method has no cycles and stays inside the method. Every edge that is laid leads further in the course
of the body, so paths are short and their enumeration ends by itself, forward and backward. Apart from the edges and the
marks of ended scopes the graph is as before, and a second time there is nothing to lay.
-/

namespace ApexPaths.Flow
set_option autoImplicit false

open List

/-! ## What steps add -/

/-- An edge of control flow. -/
structure FlowEdge where
  source : VertexId
  target : VertexId
  kind : FlowKind
  deriving DecidableEq, Repr

/-- The flow edge that a step adds. -/
def Step.edge? : Step → Option FlowEdge
  | .edge source target kind => some ⟨source, target, kind⟩
  | .endScopes _ _ => none

/-- A vertex before and after some edges were added: they follow its other edges, and only its ended scopes may
change. -/
structure Gains (edges : List FlowEdge) (v : VertexId) (before after : Vertex) : Prop where
  label_eq : after.label = before.label
  span_eq : after.span = before.span
  get?_eq : ∀ key, key ≠ .fact .endScopes → after.props.get? key = before.props.get? key
  outgoing_eq : after.outgoing.toList =
    before.outgoing.toList ++ (edges.filter (·.source == v)).map fun edge => (.flow edge.kind, edge.target)
  incoming_eq : after.incoming.toList =
    before.incoming.toList ++ (edges.filter (·.target == v)).map fun edge => (.flow edge.kind, edge.source)

/-- The second graph is the first one with some edges of control flow, and perhaps other ended scopes. -/
structure Adds (graph graph' : CodeGraph) (edges : List FlowEdge) : Prop where
  vertexCount_eq : graph'.vertexCount = graph.vertexCount
  edgeCount_eq : graph'.edgeCount = graph.edgeCount + edges.length
  definingTypes_eq : graph'.definingTypes = graph.definingTypes
  gains : ∀ v before, graph.vertex? v = some before → ∃ after, graph'.vertex? v = some after ∧
    Gains edges v before after

theorem Gains.refl (v : VertexId) (vertex : Vertex) : Gains [] v vertex vertex :=
  ⟨rfl, rfl, fun _ _ => rfl, by simp, by simp⟩

variable {v : VertexId}

theorem Gains.trans {edges more : List FlowEdge} {a b c : Vertex} (h : Gains edges v a b) (h' : Gains more v b c) :
    Gains (edges ++ more) v a c where
  label_eq := h'.label_eq.trans h.label_eq
  span_eq := h'.span_eq.trans h.span_eq
  get?_eq key hkey := (h'.get?_eq key hkey).trans (h.get?_eq key hkey)
  outgoing_eq := by rw [h'.outgoing_eq, h.outgoing_eq, filter_append, map_append, List.append_assoc]
  incoming_eq := by rw [h'.incoming_eq, h.incoming_eq, filter_append, map_append, List.append_assoc]

theorem Adds.refl (graph : CodeGraph) : Adds graph graph [] :=
  ⟨rfl, rfl, rfl, fun v vertex h => ⟨vertex, h, .refl v vertex⟩⟩

theorem Adds.trans {a b c : CodeGraph} {edges more : List FlowEdge} (h : Adds a b edges) (h' : Adds b c more) :
    Adds a c (edges ++ more) where
  vertexCount_eq := h'.vertexCount_eq.trans h.vertexCount_eq
  edgeCount_eq := by rw [h'.edgeCount_eq, h.edgeCount_eq, length_append, Nat.add_assoc]
  definingTypes_eq := h'.definingTypes_eq.trans h.definingTypes_eq
  gains v before hv := by
    obtain ⟨middle, hmiddle, hgains⟩ := h.gains v before hv
    obtain ⟨after, hafter, hgains'⟩ := h'.gains v middle hmiddle
    exact ⟨after, hafter, hgains.trans hgains'⟩

theorem adds_apply {graph : CodeGraph} {step : Step} (h : step.InRange graph.vertexCount) :
    Adds graph (step.apply graph) step.edge?.toList := by
  cases step with
  | edge source target kind =>
    have h : source < graph.vertexCount ∧ target < graph.vertexCount := h
    rw [Step.apply]
    refine ⟨by simp, ?_, ?_, fun v before hv => ?_⟩
    · rw [CodeGraph.addEdge, if_pos h]
      rfl
    · rw [CodeGraph.addEdge, if_pos h]
    have hafter := CodeGraph.vertex?_addEdge graph h v (.flow kind)
    rw [hv, Option.map_some] at hafter
    refine ⟨_, hafter, rfl, rfl, fun _ _ => rfl, ?_, ?_⟩
    · by_cases hs : v = source
      · simp [Step.edge?, hs]
      · simp [Step.edge?, hs, Ne.symm hs]
    · by_cases ht : v = target
      · simp [Step.edge?, ht]
      · simp [Step.edge?, ht, Ne.symm ht]
  | endScopes id kinds =>
    rw [Step.apply]
    refine ⟨by simp, rfl, rfl, fun v before hv => ?_⟩
    have hafter := CodeGraph.vertex?_setProperty graph id v (.fact .endScopes) (.texts (kinds.map NodeKind.name))
    rw [hv, Option.map_some] at hafter
    refine ⟨_, hafter, ?_⟩
    split
    · exact ⟨rfl, rfl, fun key hkey => by rw [PropertyMap.get?_assign_fact, if_neg hkey.symm],
        by simp [Step.edge?], by simp [Step.edge?]⟩
    · exact .refl v before

theorem adds_steps (graph : CodeGraph) (steps : List Step) (h : ∀ step ∈ steps, step.InRange graph.vertexCount) :
    Adds graph (steps.foldl Step.apply graph) (steps.filterMap Step.edge?) := by
  induction steps generalizing graph with
  | nil => exact .refl graph
  | cons step steps ih =>
    obtain ⟨hstep, hrest⟩ := forall_mem_cons.mp h
    have hfirst := adds_apply hstep
    have hall := hfirst.trans (ih _ (by rwa [hfirst.vertexCount_eq]))
    have hedges : (step :: steps).filterMap Step.edge? = step.edge?.toList ++ steps.filterMap Step.edge? := by
      rw [filterMap_cons]
      cases step.edge? <;> rfl
    rwa [hedges]

/-! ## Edges of a plan -/

theorem mem_filterMap_successor? {steps : List Step} {target : VertexId} {kind : FlowKind}
    (h : (target, kind) ∈ steps.filterMap (Step.successor? v)) : ⟨v, target, kind⟩ ∈ steps.filterMap Step.edge? := by
  obtain ⟨step, hstep, hedge⟩ := mem_filterMap.mp h
  refine mem_filterMap.mpr ⟨step, hstep, ?_⟩
  cases step with
  | endScopes id kinds => cases hedge
  | edge source target' kind' =>
    rw [Step.successor?] at hedge
    obtain ⟨rfl, hpair⟩ := Option.ite_none_right_eq_some.mp hedge
    cases hpair
    rfl

theorem mem_filterMap_predecessor? {steps : List Step} {source : VertexId} {kind : FlowKind}
    (h : (source, kind) ∈ steps.filterMap (Step.predecessor? v)) : ⟨source, v, kind⟩ ∈ steps.filterMap Step.edge? := by
  obtain ⟨step, hstep, hedge⟩ := mem_filterMap.mp h
  refine mem_filterMap.mpr ⟨step, hstep, ?_⟩
  cases step with
  | endScopes id kinds => cases hedge
  | edge source' target kind' =>
    rw [Step.predecessor?] at hedge
    obtain ⟨rfl, hpair⟩ := Option.ite_none_right_eq_some.mp hedge
    cases hpair
    rfl

theorem Junction.mem_edges {junction : Junction} {edge : FlowEdge} (h : edge ∈ junction.steps.filterMap Step.edge?) :
    edge.source = junction.id ∧ (edge.target, edge.kind) ∈ junction.next := by
  obtain ⟨step, hstep, hedge⟩ := mem_filterMap.mp h
  rcases mem_append.mp hstep with hstep | hstep
  · split at hstep
    · exact absurd hstep not_mem_nil
    · rw [mem_singleton.mp hstep] at hedge
      cases hedge
  · obtain ⟨e, he, rfl⟩ := mem_map.mp hstep
    cases hedge
    exact ⟨rfl, he⟩

/-! ## Onward flow -/

/-- Flow leads from one vertex to another. -/
def Flows (graph : CodeGraph) (v w : VertexId) : Prop := ∃ kind, (w, kind) ∈ graph.flowSuccessors v

/-- Below a vertex control stays there and only goes on, as told by a rank. -/
structure Onward (graph : CodeGraph) (top : VertexId) (rank : VertexId → Nat) : Prop where
  next : ∀ v, graph.Below top v → ∀ e ∈ graph.flowSuccessors v, graph.Below top e.1 ∧ rank v < rank e.1
  previous : ∀ v, graph.Below top v → ∀ e ∈ graph.flowPredecessors v, graph.Below top e.1 ∧ rank e.1 < rank v
  bounded : ∀ v, rank v ≤ graph.vertexCount

namespace Onward

variable {graph : CodeGraph} {top : VertexId} {rank : VertexId → Nat} (onward : Onward graph top rank)
include onward

theorem of_transGen {w : VertexId} (hv : graph.Below top v) (h : Relation.TransGen (Flows graph) v w) :
    graph.Below top w ∧ rank v < rank w := by
  induction h with
  | single hflow =>
    obtain ⟨kind, he⟩ := hflow
    exact onward.next v hv _ he
  | tail _ hflow ih =>
    obtain ⟨kind, he⟩ := hflow
    obtain ⟨hbelow, hlt⟩ := onward.next _ ih.1 _ he
    exact ⟨hbelow, Nat.lt_trans ih.2 hlt⟩

theorem acyclic (hv : graph.Below top v) : ¬Relation.TransGen (Flows graph) v v := fun h =>
  Nat.lt_irrefl _ (onward.of_transGen hv h).2

/-! ## Enumerations end -/

/-- Enough fuel is as good as any: the rank of the vertices rises along every edge. -/
theorem forwardFrom_eq (method : VertexId) (n m : Nat) (depth : Int) (v : VertexId) (hv : graph.Below top v)
    (hn : graph.vertexCount < n + rank v) (hm : graph.vertexCount < m + rank v) :
    Path.forwardFrom graph method n depth v = Path.forwardFrom graph method m depth v := by
  have hbound := onward.bounded v
  induction n generalizing m depth v with
  | zero => omega
  | succ n ih =>
    cases m with
    | zero => omega
    | succ m =>
      have hnext : ∀ e ∈ graph.flowSuccessors v,
          Path.forwardFrom graph method n (depth + Path.scopeChange graph v) e.1 =
            Path.forwardFrom graph method m (depth + Path.scopeChange graph v) e.1 := by
        intro e he
        obtain ⟨hbelow, hlt⟩ := onward.next v hv e he
        exact ih m _ e.1 hbelow (by omega) (by omega) (onward.bounded e.1)
      have hways : (graph.flowSuccessors v).mapM (fun (e : VertexId × FlowKind) => do
            return (← Path.forwardFrom graph method n (depth + Path.scopeChange graph v) e.1).map
              ((⟨v, some e.2⟩ : PathVertex) :: ·)) =
          (graph.flowSuccessors v).mapM (fun (e : VertexId × FlowKind) => do
            return (← Path.forwardFrom graph method m (depth + Path.scopeChange graph v) e.1).map
              ((⟨v, some e.2⟩ : PathVertex) :: ·)) :=
        mapM_congr fun e he => by rw [hnext e he]
      rw [Path.forwardFrom, Path.forwardFrom]
      cases hsuccessors : graph.flowSuccessors v with
      | nil => rfl
      | cons first rest =>
        rw [hsuccessors] at hways
        simp only [hways]

theorem backwardFrom_eq (entry : VertexId) (n m : Nat) (v : VertexId) (rest : List PathVertex) (hv : graph.Below top v)
    (hn : rank v < n) (hm : rank v < m) :
    Path.backwardFrom graph entry n v rest = Path.backwardFrom graph entry m v rest := by
  induction n generalizing m v rest with
  | zero => omega
  | succ n ih =>
    cases m with
    | zero => omega
    | succ m =>
      rw [Path.backwardFrom, Path.backwardFrom]
      split
      · rfl
      refine flatMap_congr fun e he => ?_
      obtain ⟨hbelow, hlt⟩ := onward.previous v hv e he
      exact ih m e.1 _ hbelow (by omega) (by omega)

end Onward

/-! ## The flow of a body -/

/-- The flow edges of a body. -/
def Block.edges (b : Block) : List FlowEdge := (b.bodyJunctions.flatMap Junction.steps).filterMap Step.edge?

/-- A step adds flow at a vertex or closes its scopes. -/
def Step.Touches (v : VertexId) : Step → Prop
  | .edge source target _ => v = source ∨ v = target
  | .endScopes id _ => v = id

theorem vertex?_steps {graph : CodeGraph} (steps : List Step) (h : ∀ step ∈ steps, ¬step.Touches v) :
    (steps.foldl Step.apply graph).vertex? v = graph.vertex? v := by
  induction steps generalizing graph with
  | nil => rfl
  | cons step steps ih =>
    obtain ⟨hstep, hrest⟩ := forall_mem_cons.mp h
    refine (ih hrest).trans ?_
    cases step with
    | edge source target kind =>
      obtain ⟨hsource, htarget⟩ := not_or.mp hstep
      rw [Step.apply]
      by_cases hrange : source < graph.vertexCount ∧ target < graph.vertexCount
      · rw [CodeGraph.vertex?_addEdge graph hrange]
        simp only [if_neg hsource, if_neg htarget]
        exact Option.map_id'
      · rw [CodeGraph.addEdge, if_neg hrange]
    | endScopes id kinds =>
      have hne : v ≠ id := hstep
      rw [Step.apply, CodeGraph.vertex?_setProperty]
      simp only [if_neg hne]
      exact Option.map_id'

theorem pairwise_idxOf {vs : List VertexId} (h : vs.Nodup) : vs.Pairwise (vs.idxOf · < vs.idxOf ·) := by
  rw [pairwise_iff_getElem]
  intro i j hi hj hij
  rwa [h.idxOf_getElem, h.idxOf_getElem]

section
variable {graph : CodeGraph} (forest : graph.IsForest) {b : Block} (h : b.Holds graph) (hfault : b.fault? false = none)
include forest h hfault

theorem mem_bodyJunctions {j : Junction} (hj : j ∈ b.bodyJunctions) :
    j.id ∈ b.vertices ∧ (∀ e ∈ j.next, e.1 ∈ b.vertices) ∧ j.Advances b.course.idxOf := by
  have hcourse := pairwise_idxOf (b.course_perm.nodup_iff.mpr (b.spans forest h).1)
  refine ⟨?_, (bodyJunctions_exact forest h j hj).next_mem,
    b.junctions_advance [] {} ⟨hcourse, jumpsBeyond_nil _, beyond_none _ []⟩ j hj⟩
  rw [← bodyJunctions_ids hfault]
  exact mem_map_of_mem hj

theorem mem_edges {edge : FlowEdge} (hedge : edge ∈ b.edges) :
    edge.source ∈ b.vertices ∧ edge.target ∈ b.vertices ∧ b.course.idxOf edge.source < b.course.idxOf edge.target := by
  rw [Block.edges, filterMap_flatMap] at hedge
  obtain ⟨j, hj, hedge⟩ := mem_flatMap.mp hedge
  obtain ⟨hid, hnext, hadvances⟩ := mem_bodyJunctions forest h hfault hj
  obtain ⟨hsource, he⟩ := Junction.mem_edges hedge
  rw [hsource]
  exact ⟨hid, hnext _ he, hadvances _ he⟩

theorem adds_layIn : Adds graph (b.layIn graph) b.edges :=
  adds_steps graph _ (inRange_steps (bodyJunctions_inRange forest h hfault))

theorem vertex?_layIn (hv : v ∉ b.vertices) : (b.layIn graph).vertex? v = graph.vertex? v := by
  refine vertex?_steps _ fun step hstep htouches => hv ?_
  obtain ⟨j, hj, hstep⟩ := mem_flatMap.mp hstep
  obtain ⟨hid, hnext, -⟩ := mem_bodyJunctions forest h hfault hj
  rcases mem_append.mp hstep with hstep | hstep
  · split at hstep
    · exact absurd hstep not_mem_nil
    · rw [mem_singleton.mp hstep] at htouches
      exact htouches ▸ hid
  · obtain ⟨e, he, rfl⟩ := mem_map.mp hstep
    rcases htouches with rfl | rfl
    · exact hid
    · exact hnext e he

theorem onward_layIn {top : VertexId} (fresh : Untouched graph top) (hbelow : ∀ v ∈ b.vertices, graph.Below top v) :
    Onward (b.layIn graph) top b.course.idxOf := by
  have same := b.sameTree_layIn graph
  have hrange := inRange_steps (bodyJunctions_inRange forest h hfault)
  refine ⟨fun v hv e he => ?_, fun v hv e he => ?_, fun v => ?_⟩
  · rw [Block.layIn, flowSuccessors_steps graph _ hrange, fresh.flowSuccessors_eq (same.below_iff.mp hv),
      nil_append] at he
    obtain ⟨-, htarget, hlt⟩ := mem_edges forest h hfault (mem_filterMap_successor? he)
    exact ⟨same.below_iff.mpr (hbelow _ htarget), hlt⟩
  · rw [Block.layIn, flowPredecessors_steps graph _ hrange, fresh.flowPredecessors_eq (same.below_iff.mp hv),
      nil_append] at he
    obtain ⟨hsource, -, hlt⟩ := mem_edges forest h hfault (mem_filterMap_predecessor? he)
    exact ⟨same.below_iff.mpr (hbelow _ hsource), hlt⟩
  · have hsub : b.course ⊆ List.range graph.vertexCount := fun w hw =>
      mem_range.mpr ((b.spans forest h).2 w (b.course_perm.mem_iff.mp hw)).1
    have hlength := (b.course_perm.nodup_iff.mpr (b.spans forest h).1).length_le_of_subset hsub
    rw [length_range] at hlength
    rw [same.vertexCount_eq]
    exact Nat.le_trans idxOf_le_length hlength

omit forest h hfault in
theorem exists_entry (b : Block) : ∃ j ∈ b.bodyJunctions, j.id = b.id ∧ (j.next ≠ [] ∨ j.left ≠ []) := by
  obtain ⟨id, body⟩ := b
  cases body with
  | nil => exact ⟨_, mem_singleton_self _, rfl, .inr (cons_ne_nil _ _)⟩
  | cons first rest => exact ⟨_, mem_cons_self, rfl, .inl (cons_ne_nil _ _)⟩

theorem pendingBody?_layIn {method : VertexId} (hbody : lastBlock? graph method = some b.id)
    (fresh : Untouched graph b.id) : pendingBody? (b.layIn graph) method = none := by
  have same := b.sameTree_layIn graph
  have hlast : lastBlock? (b.layIn graph) method = some b.id := by
    rw [← hbody, lastBlock?, lastBlock?, same.children_eq]
    congr 1
    exact funext fun v => same.is_eq v _
  obtain ⟨j, hj, hid, hleaves⟩ := exists_entry b
  obtain ⟨hnext_eq, hleft_eq⟩ := bodyJunctions_stand forest h hfault fresh j hj
  have htaken : ((b.layIn graph).hasFlowEdges b.id || ((b.layIn graph).property? b.id (.fact .endScopes)).isSome) =
      true := by
    rw [hid] at hnext_eq hleft_eq
    rcases hleaves with hnext | hleft
    · rw [← hnext_eq] at hnext
      simp [CodeGraph.hasFlowEdges, hnext]
    · cases hended : (b.layIn graph).property? b.id (.fact .endScopes) with
      | some kinds => simp
      | none =>
        refine absurd ?_ hleft
        rw [← hleft_eq, CodeGraph.endScopes, CodeGraph.texts_eq, hended]
        rfl
  rw [pendingBody?, hlast]
  simp only [Option.filter_some, htaken, Bool.not_true, Bool.false_eq_true, if_false]

end

/-- After control flow was laid for a method, it has no cycle below the method, and so the searches for paths end
by themselves, forward and backward. What was laid are edges below the method and marks of ended scopes; everything
else is as before. A second time there is nothing to lay. -/
theorem acyclic_of_synthesize {graph graph' : CodeGraph} {method : VertexId} {body : Block} (forest : graph.IsForest)
    (hbody : lastBlock? graph method = some body.id) (h : body.Holds graph) (fresh : Untouched graph method)
    (hdone : synthesize graph method = (.ok true, graph')) :
    (∀ v, graph.Below method v → ¬Relation.TransGen (Flows graph') v v) ∧
      (∃ ways, (∀ n, graph.vertexCount < n → Path.forwardFrom graph' method n 0 body.id = .ok ways) ∧
        Path.forward graph' method = .ok (ways.map fun vertices => { method, vertices })) ∧
      (∀ v rest n, graph.Below method v → graph.vertexCount < n →
        Path.backwardFrom graph' body.id n v rest = Path.backwardFrom graph' body.id (graph'.vertexCount + 1) v rest) ∧
      (∃ edges, Adds graph graph' edges ∧ ∀ edge ∈ edges, graph.Below method edge.source ∧
      graph.Below method edge.target) ∧
      (∀ v, ¬graph.Below method v → graph'.vertex? v = graph.vertex? v) ∧
      synthesize graph' method = (.ok false, graph') := by
  have hm : graph.is method .method = true := by
    refine Decidable.byContradiction fun hm => ?_
    rw [synthesize, if_neg hm] at hdone
    cases (Prod.mk.inj hdone).1
  have hchild : body.id ∈ graph.children method := by
    rw [lastBlock?] at hbody
    exact mem_of_getLast? (Option.filter_eq_some_iff.mp hbody).1
  have hbelow : ∀ v, graph.Below body.id v → graph.Below method v := fun v hv => hv.of_child forest hchild
  have hfresh : Untouched graph body.id := fun v hv => fresh v (hbelow v hv)
  have hvertices : ∀ v ∈ body.vertices, graph.Below method v := fun v hv => hbelow v ((body.spans forest h).2 v hv)
  have hrun := synthesize_eq forest hm hbody h hfresh
  cases hfault : body.fault? false with
  | some fault =>
    rw [hfault, hdone] at hrun
    cases hrun
  | none =>
    rw [hfault, hdone] at hrun
    obtain ⟨-, rfl⟩ := Prod.mk.inj hrun
    have same := body.sameTree_layIn graph
    have onward := onward_layIn forest h hfault fresh hvertices
    obtain ⟨_, hforward, hpaths, -⟩ := forward_eq_traces forest hm hbody h hfresh hfault
    rw [hdone] at hforward
    obtain ⟨-, rfl⟩ := Prod.mk.inj hforward
    have hentry : (body.layIn graph).Below method body.id := same.below_iff.mpr (hvertices body.id body.id_mem_vertices)
    refine ⟨fun v hv => onward.acyclic (same.below_iff.mpr hv), ⟨body.traces, fun n hn => ?_, hpaths⟩,
      fun v rest n hv hn => ?_, ⟨body.edges, adds_layIn forest h hfault, fun edge hedge => ?_⟩, fun v hv => ?_, ?_⟩
    · rw [← same.vertexCount_eq] at hn
      rw [onward.forwardFrom_eq method n ((body.layIn graph).vertexCount + 1) 0 body.id hentry (by omega) (by omega)]
      exact forwardFrom_eq_traces forest h hfault hfresh method
    · have hbound := onward.bounded v
      rw [← same.vertexCount_eq] at hn
      exact onward.backwardFrom_eq body.id n _ v rest (same.below_iff.mpr hv) (by omega) (by omega)
    · obtain ⟨hsource, htarget, -⟩ := mem_edges forest h hfault hedge
      exact ⟨hvertices _ hsource, hvertices _ htarget⟩
    · exact vertex?_layIn forest h hfault fun hmem => hv (hvertices v hmem)
    · rw [synthesize, same.is_eq, if_pos hm, pendingBody?_layIn forest h hfault hbody hfresh]

/-- The `break` goes on to the `return`, and nothing goes back to the loop. -/
theorem breakingLoop_acyclic : (breakingLoopBody.layIn breakingLoop).flowSuccessors 5 = [(6, .sequential)] ∧
    (∀ v, breakingLoop.Below 0 v → ¬Relation.TransGen (Flows (breakingLoopBody.layIn breakingLoop)) v v) ∧
    synthesize (breakingLoopBody.layIn breakingLoop) 0 = (.ok false, breakingLoopBody.layIn breakingLoop) := by
  obtain ⟨hacyclic, -, -, -, -, hagain⟩ :=
    acyclic_of_synthesize breakingLoop_isForest (by decide +kernel) breakingLoop_holds breakingLoop_untouched
    breakingLoop_synthesize
  exact ⟨by decide +kernel, hacyclic, hagain⟩

end ApexPaths.Flow
