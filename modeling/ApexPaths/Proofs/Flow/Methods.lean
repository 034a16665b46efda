import ApexPaths.Proofs.Flow.Scopes

/-!
Control flow of all methods. The bodies of methods lie apart, so what is laid for one method leaves the
others as they were. A run over some methods lays all of them, or stops at the first one that has a
fault.
-/

namespace ApexPaths.Flow
set_option autoImplicit false

open List

/-! ## Statements in graphs with the same tree -/

section
variable {graph graph' : CodeGraph}

theorem isPlain_congr (same : graph.SameTree graph') {v : VertexId} : IsPlain graph' v ↔ IsPlain graph v := by
  rw [IsPlain, IsPlain, same.label?_eq]

theorem loopFlags_congr (same : graph.SameTree graph') {body : Block} {skip : Option Block} :
    LoopFlags graph' body skip ↔ LoopFlags graph body skip := by
  simp only [LoopFlags, same.flag_eq _ (show CodeGraph.isLateKey (.fact .isImplicit) = false from rfl)]

mutual

theorem Statement.holds_congr (same : graph.SameTree graph') : (s : Statement) → (s.Holds graph' ↔ s.Holds graph)
  | .simple id => isPlain_congr same
  | .exit id => by simp only [Statement.Holds, same.label?_eq]
  | .breaks id => by simp only [Statement.Holds, same.label?_eq]
  | .continues id => by simp only [Statement.Holds, same.label?_eq]
  | .nested block => block.holds_congr same
  | .ifElse id branches otherwise => by
    simp only [Statement.Holds, same.label?_eq, same.children_eq, branchesHold_congr same branches,
      optionHolds_congr same otherwise]
  | .whileLoop id condition body skip => by
    simp only [Statement.Holds, same.label?_eq, same.children_eq, body.holds_congr same, optionHolds_congr same skip,
      loopFlags_congr same]
  | .forEach id variable_ iterable body skip => by
    simp only [Statement.Holds, same.label?_eq, same.children_eq, same.is_eq, body.holds_congr same,
      optionHolds_congr same skip, loopFlags_congr same]
  | .forLoop id init condition update body skip => by
    have hflag : ∀ k, CodeGraph.isLateKey (.fact k) = false → graph'.flag id (.fact k) = graph.flag id (.fact k) :=
      fun k => same.flag_eq id
    simp only [Statement.Holds, same.label?_eq, same.children_eq, hflag .hasInit rfl, hflag .hasCondition rfl,
      hflag .hasUpdate rfl, isPlain_congr same, body.holds_congr same, optionHolds_congr same skip,
      loopFlags_congr same]
  | .doLoop id body condition => by
    simp only [Statement.Holds, same.label?_eq, same.children_eq, body.holds_congr same]
  | .switch id subject whens => by
    simp only [Statement.Holds, same.label?_eq, same.children_eq, clausesHold_congr same _ whens]
  | .tryCatch id body catches final => by
    have hflag : graph'.flag id (.fact .hasFinally) = graph.flag id (.fact .hasFinally) := same.flag_eq id rfl
    simp only [Statement.Holds, same.label?_eq, same.children_eq, hflag, body.holds_congr same,
      clausesHold_congr same _ catches, optionHolds_congr same final]

theorem Block.holds_congr (same : graph.SameTree graph') : (b : Block) → (b.Holds graph' ↔ b.Holds graph)
  | .mk id body => by simp only [Block.Holds, same.label?_eq, same.children_eq, statementsHold_congr same body]

theorem statementsHold_congr (same : graph.SameTree graph') : (body : List Statement) →
    (statementsHold graph' body ↔ statementsHold graph body)
  | [] => Iff.rfl
  | first :: rest => and_congr (first.holds_congr same) (statementsHold_congr same rest)

theorem branchesHold_congr (same : graph.SameTree graph') : (branches : List Branch) →
    (branchesHold graph' branches ↔ branchesHold graph branches)
  | [] => Iff.rfl
  | .mk id condition body :: rest => by
    simp only [branchesHold, same.label?_eq, same.children_eq, body.holds_congr same, branchesHold_congr same rest]

theorem clausesHold_congr (same : graph.SameTree graph') (kinds : NodeKind → Bool) : (clauses : List Clause) →
    (clausesHold graph' kinds clauses ↔ clausesHold graph kinds clauses)
  | [] => Iff.rfl
  | .mk id kind cases body :: rest => by
    simp only [clausesHold, same.label?_eq, same.children_eq, body.holds_congr same, clausesHold_congr same kinds rest]

theorem optionHolds_congr (same : graph.SameTree graph') :
    (b : Option Block) → (optionHolds graph' b ↔ optionHolds graph b)
  | none => Iff.rfl
  | some block => block.holds_congr same

end

end

/-! ## What is left alone -/

/-- Control flow at a vertex is the same in both graphs. -/
structure Keeps (graph graph' : CodeGraph) (v : VertexId) : Prop where
  successors_eq : graph'.flowSuccessors v = graph.flowSuccessors v
  predecessors_eq : graph'.flowPredecessors v = graph.flowPredecessors v
  ended_eq : graph'.property? v (.fact .endScopes) = graph.property? v (.fact .endScopes)

theorem Keeps.refl (graph : CodeGraph) (v : VertexId) : Keeps graph graph v := ⟨rfl, rfl, rfl⟩

theorem Keeps.trans {a b c : CodeGraph} {v : VertexId} (hab : Keeps a b v) (hbc : Keeps b c v) : Keeps a c v :=
  ⟨hbc.successors_eq.trans hab.successors_eq, hbc.predecessors_eq.trans hab.predecessors_eq,
  hbc.ended_eq.trans hab.ended_eq⟩

theorem Keeps.stands {graph graph' : CodeGraph} {junction : Junction} (keeps : Keeps graph graph' junction.id)
    (h : junction.Stands graph) : junction.Stands graph' := by
  refine ⟨keeps.successors_eq.trans h.next_eq, ?_⟩
  rw [← h.left_eq, CodeGraph.endScopes, CodeGraph.endScopes, CodeGraph.texts_eq, CodeGraph.texts_eq, keeps.ended_eq]

theorem Untouched.keeps {graph graph' : CodeGraph} {top : VertexId} (h : Untouched graph top)
    (same : graph.SameTree graph') (keeps : ∀ v, graph.Below top v → Keeps graph graph' v) : Untouched graph' top := by
  intro v hv
  have hbelow := same.below_iff.mp hv
  have hkeeps := keeps v hbelow
  rw [CodeGraph.hasFlowEdges, hkeeps.successors_eq, hkeeps.predecessors_eq, hkeeps.ended_eq]
  exact h v hbelow

section
variable {graph : CodeGraph} (forest : graph.IsForest) {b : Block} (h : b.Holds graph) (hfault : b.fault? false = none)
include forest h hfault

theorem layIn_keeps {v : VertexId} (hv : ¬graph.Below b.id v) : Keeps graph (b.layIn graph) v := by
  have hrange := bodyJunctions_inRange forest h hfault
  have hids : v ∉ b.bodyJunctions.map Junction.id := by
    rw [bodyJunctions_ids hfault]
    exact fun hmem => hv ((b.spans forest h).2 v hmem)
  refine ⟨flowSuccessors_of_not_mem hrange hids, ?_, endScopes_of_not_mem hrange hids⟩
  have hnil : (b.bodyJunctions.flatMap Junction.steps).filterMap (Step.predecessor? v) = [] := by
    rw [filterMap_flatMap, flatMap_eq_nil_iff]
    intro j hj
    refine eq_nil_iff_forall_not_mem.mpr fun e he => ?_
    have hnext := (bodyJunctions_exact forest h j hj).next_mem _ (Junction.mem_of_predecessor he)
    exact hv ((b.spans forest h).2 v hnext)
  rw [Block.layIn, flowPredecessors_steps graph _ (inRange_steps hrange), hnil, append_nil]

end

/-! ## Runs over methods -/

/-- A method with its body, if it has one. -/
structure HasBody (graph : CodeGraph) (method : VertexId) (body : Option Block) : Prop where
  isMethod : graph.is method .method = true
  lastBlock?_eq : lastBlock? graph method = body.map Block.id
  holds : ∀ b ∈ body, b.Holds graph
  fresh : ∀ b ∈ body, Untouched graph b.id

theorem HasBody.keeps {graph graph' : CodeGraph} {method : VertexId} {body : Option Block}
    (h : HasBody graph method body) (same : graph.SameTree graph') (keeps : ∀ b ∈ body, ∀ v, graph.Below b.id v →
    Keeps graph graph' v) :
    HasBody graph' method body where
  isMethod := by rw [same.is_eq, h.isMethod]
  lastBlock?_eq := by
    have hlabels : (graph'.is · .blockStatement) = (graph.is · .blockStatement) := funext fun v => same.is_eq v _
    rw [← h.lastBlock?_eq, lastBlock?, lastBlock?, same.children_eq, hlabels]
  holds b hb := (b.holds_congr same).mpr (h.holds b hb)
  fresh b hb := (h.fresh b hb).keeps same (keeps b hb)

/-- Nothing is below the bodies of both methods. -/
def Apart (graph : CodeGraph) (first second : VertexId × Option Block) : Prop :=
  ∀ a ∈ first.2, ∀ b ∈ second.2, ∀ v, graph.Below a.id v → ¬graph.Below b.id v

/-- The first fault of the bodies of methods. -/
def methodsFault? (methods : List (VertexId × Option Block)) : Option Fault :=
  methods.findSome? fun method => method.2.bind (Block.fault? false)

/-- The second graph is the first one with the control flow of some methods. -/
structure LaysAll (graph : CodeGraph) (methods : List (VertexId × Option Block)) (graph' : CodeGraph) : Prop where
  sameTree : graph.SameTree graph'
  stands : ∀ method ∈ methods, ∀ b ∈ method.2, ∀ j ∈ b.bodyJunctions, j.Stands graph'
  keeps : ∀ v, (∀ method ∈ methods, ∀ b ∈ method.2, ¬graph.Below b.id v) → Keeps graph graph' v

theorem LaysAll.cons {graph graph' : CodeGraph} (forest : graph.IsForest) {method : VertexId × Option Block} {b : Block}
    (hb : method.2 = some b) (h : HasBody graph method.1 method.2) (hfault : b.fault? false = none)
    {rest : List (VertexId × Option Block)} (apart : ∀ other ∈ rest, Apart graph method other)
    (hrest : LaysAll (b.layIn graph) rest graph') : LaysAll graph (method :: rest) graph' := by
  have hholds := h.holds b hb
  have hfresh := h.fresh b hb
  have hsame := b.sameTree_layIn graph
  refine ⟨hsame.trans hrest.sameTree, forall_mem_cons.mpr ⟨fun a ha j hj => ?_, hrest.stands⟩, fun v hv => ?_⟩
  · cases hb.symm.trans ha
    refine (hrest.keeps j.id fun other hother c hc hbelow => ?_).stands
      (bodyJunctions_stand forest hholds hfault hfresh j hj)
    have hj : graph.Below b.id j.id := by
      refine (b.spans forest hholds).2 j.id ?_
      rw [← bodyJunctions_ids hfault]
      exact mem_map_of_mem hj
    exact apart other hother b hb c hc j.id hj (hsame.below_iff.mp hbelow)
  · obtain ⟨hfirst, hothers⟩ := forall_mem_cons.mp hv
    refine (layIn_keeps forest hholds hfault (hfirst b hb)).trans (hrest.keeps v fun other hother c hc hbelow => ?_)
    exact hothers other hother c hc (hsame.below_iff.mp hbelow)

/-- How laying the flow of methods ends: with all of it laid, or with the error of the first fault. -/
def Ends (graph : CodeGraph) (methods : List (VertexId × Option Block)) (result : Except EngineError Nat × CodeGraph) :
    Option Fault → Prop
  | none => (∃ count, result.1 = .ok count) ∧ LaysAll graph methods result.2
  | some fault => ∃ graph', result.1 = .error (Fault.error graph' fault)

theorem methodsFault?_cons (method : VertexId × Option Block) (rest : List (VertexId × Option Block)) :
    methodsFault? (method :: rest) = (method.2.bind (Block.fault? false)).or (methodsFault? rest) := by
  rw [methodsFault?, List.findSome?_cons, methodsFault?]
  cases method.2.bind (Block.fault? false) <;> rfl

theorem synthesizeMethods_cons {graph graph' : CodeGraph} {method : VertexId} {fresh : Bool} (rest : List VertexId)
    (h : synthesize graph method = (.ok fresh, graph')) : synthesizeMethods graph (method :: rest) =
      ((synthesizeMethods graph' rest).1.map fun n => if fresh then n + 1 else n,
      (synthesizeMethods graph' rest).2) := by
  rw [synthesizeMethods, h]

/-- By induction on the methods: none touches what another one reads. -/
theorem synthesizeMethods_ends {graph : CodeGraph} (forest : graph.IsForest) (methods : List (VertexId × Option Block))
    (h : ∀ method ∈ methods, HasBody graph method.1 method.2) (apart : methods.Pairwise (Apart graph)) :
    Ends graph methods (synthesizeMethods graph (methods.map Prod.fst)) (methodsFault? methods) := by
  induction methods generalizing graph with
  | nil => exact ⟨⟨0, rfl⟩, .refl graph, by simp, fun v _ => .refl graph v⟩
  | cons method rest ih =>
    obtain ⟨hmethod, hothers⟩ := forall_mem_cons.mp h
    obtain ⟨hapart, hpairwise⟩ := pairwise_cons.mp apart
    rw [methodsFault?_cons, map_cons]
    cases hbody : method.2 with
    | none =>
      have hskip : synthesize graph method.1 = (.ok false, graph) := by
        rw [synthesize, if_pos hmethod.isMethod, pendingBody?, hmethod.lastBlock?_eq, hbody]
        rfl
      have hrun := ih forest hothers hpairwise
      rw [synthesizeMethods_cons _ hskip, Option.bind_none, Option.none_or]
      cases hfault : methodsFault? rest with
      | some fault =>
        rw [hfault] at hrun
        obtain ⟨graph', hrun⟩ := hrun
        exact ⟨graph', by simp [hrun, Except.map]⟩
      | none =>
        rw [hfault] at hrun
        obtain ⟨⟨count, hrun⟩, hlays⟩ := hrun
        refine ⟨⟨count, by simp [hrun, Except.map]⟩, hlays.sameTree,
          forall_mem_cons.mpr ⟨by simp [hbody], hlays.stands⟩, fun v hv => ?_⟩
        exact hlays.keeps v (forall_mem_cons.mp hv).2
    | some b =>
      have hlast : lastBlock? graph method.1 = some b.id := by
        rw [hmethod.lastBlock?_eq, hbody]
        rfl
      have hdone := synthesize_eq forest hmethod.isMethod hlast (hmethod.holds b hbody) (hmethod.fresh b hbody)
      rw [Option.bind_some]
      cases hfault : b.fault? false with
      | some fault =>
        rw [hfault] at hdone
        have hfails : (synthesize graph method.1).1 = .error (fault.error graph) := hdone
        refine ⟨graph, ?_⟩
        rw [synthesizeMethods]
        generalize synthesize graph method.1 = run at hfails
        obtain ⟨answer, after⟩ := run
        obtain rfl : answer = .error (fault.error graph) := hfails
        rfl
      | none =>
        rw [hfault] at hdone
        have hsame := b.sameTree_layIn graph
        have hready : ∀ other ∈ rest, HasBody (b.layIn graph) other.1 other.2 := fun other hother =>
          (hothers other hother).keeps hsame fun c hc v hv => layIn_keeps forest (hmethod.holds b hbody) hfault
            fun hbelow => hapart other hother b hbody c hc v hbelow hv
        have hstill : rest.Pairwise (Apart (b.layIn graph)) := by
          refine hpairwise.imp fun hab a ha c hc v hav hcv => ?_
          exact hab a ha c hc v (hsame.below_iff.mp hav) (hsame.below_iff.mp hcv)
        have hrun := ih (hsame.isForest forest) hready hstill
        rw [synthesizeMethods_cons _ hdone, Option.none_or]
        cases hrest : methodsFault? rest with
        | some fault =>
          rw [hrest] at hrun
          obtain ⟨graph', hrun⟩ := hrun
          exact ⟨graph', by simp [hrun, Except.map]⟩
        | none =>
          rw [hrest] at hrun
          obtain ⟨⟨count, hrun⟩, hlays⟩ := hrun
          exact ⟨⟨count + 1, by simp [hrun, Except.map]⟩, hlays.cons forest hbody hmethod hfault hapart⟩

end ApexPaths.Flow
