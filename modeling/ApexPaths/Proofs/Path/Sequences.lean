import ApexPaths.Proofs.Path.Acyclic

/-!
Forward enumeration told without a search. From a vertex edges are taken one after the other until none leads on.
Which edge is taken at each vertex, by its place in the order of insertion, tells such maximal sequences apart and
puts them in order. Where no cycle can be reached the enumeration goes through exactly these sequences, in this
order: it gives them all if the scopes are balanced along each, and else fails at the first one along which they
are not.
-/

namespace ApexPaths.Path
set_option autoImplicit false

open List

open ApexPaths.Flow (Flows)

variable {vertices : List PathVertex}

/-! ## Maximal sequences -/

section
variable (graph : CodeGraph)

/-- Edges taken from a vertex until none leads on: the place of each among the edges of its vertex, and the
vertices with the kinds of the edges by which they are left. -/
inductive Maximal : VertexId → List Nat → List PathVertex → Prop where
  | last {v : VertexId} (hnone : graph.flowSuccessors v = []) : Maximal v [] [⟨v, none⟩]
  | edge {v next : VertexId} {kind : FlowKind} {place : Nat} {places : List Nat} {vertices : List PathVertex}
    (hedge : (graph.flowSuccessors v)[place]? = some (next, kind)) (rest : Maximal next places vertices) :
    Maximal v (place :: places) (⟨v, some kind⟩ :: vertices)

/-- The scopes that are open after some vertices: one more for each that opens a scope, less those that end there. -/
def depthAfter : List PathVertex → Int
  | [] => 0
  | vertex :: rest => scopeChange graph vertex.id + depthAfter rest

/-- No more scopes are ended than are open, and all are ended at the end. -/
structure Balanced (vertices : List PathVertex) : Prop where
  nonneg : ∀ passed, passed <+: vertices → 0 ≤ depthAfter graph passed
  ends : depthAfter graph vertices = 0

/-- The first vertex that ends more scopes than are open, or the last one if it leaves some open, with the depth
there. -/
def imbalance? : Int → List PathVertex → Option (VertexId × Int)
  | _, [] => none
  | entered, vertex :: rest =>
    let depth := entered + scopeChange graph vertex.id
    if depth < 0 ∨ (rest = [] ∧ depth ≠ 0) then some (vertex.id, depth) else imbalance? depth rest

/-- The vertices of a sequence, or the scope error that it leads to. -/
def checked (method : VertexId) (entered : Int) (vertices : List PathVertex) : Except EngineError (List PathVertex) :=
  match imbalance? graph entered vertices with
  | none => .ok vertices
  | some (v, depth) => .error (scopeError graph method v depth)

/-- The maximal sequences of at most some vertices, in the order of the edges. -/
def sequences : Nat → VertexId → List (List Nat × List PathVertex)
  | 0, _ => []
  | n + 1, v =>
    match graph.flowSuccessors v with
    | [] => [([], [⟨v, none⟩])]
    | edges => edges.zipIdx.flatMap fun edge =>
      (sequences n edge.1.1).map fun s => (edge.2 :: s.1, ⟨v, some edge.1.2⟩ :: s.2)

/-- No walk from the vertex passes more vertices than this. -/
def Within (n : Nat) (v : VertexId) : Prop := ∀ walk, (v :: walk).IsChain (Flows graph) → walk.length < n

end

variable {graph : CodeGraph} {method : VertexId}

/-! ## Bounds of walks -/

theorem Within.next {n : Nat} {v : VertexId} (h : Within graph (n + 1) v) {edge : VertexId × FlowKind}
    (hedge : edge ∈ graph.flowSuccessors v) : Within graph n edge.1 := by
  intro walk hwalk
  have hlonger := h (edge.1 :: walk) (isChain_cons_cons.mpr ⟨⟨edge.2, hedge⟩, hwalk⟩)
  exact Nat.lt_of_succ_lt_succ hlonger

theorem not_within_zero (v : VertexId) : ¬Within graph 0 v := fun h => Nat.not_lt_zero _ (h [] (.singleton v))

theorem lt_of_flows {v w : Nat} (h : Flows graph v w) : v < graph.vertexCount := by
  obtain ⟨kind, hedge⟩ := h
  refine Nat.lt_of_not_le fun hle => ?_
  have hnone : graph.vertex? v = none := Array.getElem?_eq_none hle
  simp [CodeGraph.flowSuccessors, hnone] at hedge

theorem within_of_acyclic {v : VertexId}
    (h : ∀ w, Relation.ReflTransGen (Flows graph) v w → ¬Relation.TransGen (Flows graph) w w) :
    Within graph (graph.vertexCount + 1) v := by
  intro walk hwalk
  have hreaches : (v :: walk).Pairwise (Relation.TransGen (Flows graph)) :=
    (hwalk.imp fun _ _ => Relation.TransGen.single).pairwise
  have hfrom : ∀ w ∈ v :: walk, Relation.ReflTransGen (Flows graph) v w := forall_mem_cons.mpr
    ⟨.refl, fun w hw => ((pairwise_cons.mp hreaches).1 w hw).to_reflTransGen⟩
  have hnodup : (v :: walk).Nodup := by
    refine hreaches.imp_of_mem fun {a b} ha _ hab heq => ?_
    exact h a (hfrom a ha) (heq ▸ hab)
  -- all but the last vertex are left by an edge, so they are vertices of the graph
  have hinside : (v :: walk).dropLast ⊆ List.range graph.vertexCount := by
    intro w hw
    obtain ⟨i, hi, rfl⟩ := getElem_of_mem hw
    rw [length_dropLast] at hi
    rw [getElem_dropLast, mem_range]
    exact lt_of_flows (isChain_iff_getElem.mp hwalk i (by omega))
  have hlength := (hnodup.sublist (dropLast_sublist _)).length_le_of_subset hinside
  rw [length_dropLast, length_cons, length_range] at hlength
  omega

/-! ## The list of all sequences -/

theorem sequences_of_nil {n : Nat} {v : VertexId} (h : graph.flowSuccessors v = []) :
    sequences graph (n + 1) v = [([], [⟨v, none⟩])] := by
  rw [sequences, h]

theorem sequences_of_ne_nil {n : Nat} {v : VertexId} (h : graph.flowSuccessors v ≠ []) :
    sequences graph (n + 1) v = (graph.flowSuccessors v).zipIdx.flatMap fun edge =>
      (sequences graph n edge.1.1).map fun s => (edge.2 :: s.1, ⟨v, some edge.1.2⟩ :: s.2) := by
  rw [sequences]
  split
  · exact absurd ‹_› h
  · rfl

/-- Enumeration finds the maximal sequences, by their places among the edges. -/
theorem mem_sequences_iff {n : Nat} {v : VertexId} (h : Within graph n v) {places : List Nat} :
    (places, vertices) ∈ sequences graph n v ↔ Maximal graph v places vertices := by
  induction n generalizing v places vertices with
  | zero => exact absurd h (not_within_zero v)
  | succ n ih =>
    by_cases hnone : graph.flowSuccessors v = []
    · rw [sequences_of_nil hnone, mem_singleton]
      constructor
      · rintro ⟨rfl, rfl⟩
        exact .last hnone
      · intro hmaximal
        cases hmaximal with
        | last => rfl
        | edge hedge rest => simp [hnone] at hedge
    rw [sequences_of_ne_nil hnone, mem_flatMap]
    constructor
    · rintro ⟨⟨⟨next, kind⟩, place⟩, hedge, hs⟩
      obtain ⟨s, hrest, heq⟩ := mem_map.mp hs
      cases heq
      have hplace := mk_mem_zipIdx_iff_getElem?.mp hedge
      exact .edge hplace ((ih (h.next (mem_of_getElem? hplace))).mp hrest)
    · intro hmaximal
      cases hmaximal with
      | last h => exact absurd h hnone
      | @edge _ next kind place places vertices hedge rest =>
        refine ⟨((next, kind), place), mk_mem_zipIdx_iff_getElem?.mpr hedge, ?_⟩
        exact mem_map.mpr ⟨(places, vertices), (ih (h.next (mem_of_getElem? hedge))).mpr rest, rfl⟩

theorem pairwise_sequences (n : Nat) (v : VertexId) : (sequences graph n v).Pairwise fun s t => s.1 < t.1 := by
  induction n generalizing v with
  | zero => exact .nil
  | succ n ih =>
    by_cases hnone : graph.flowSuccessors v = []
    · rw [sequences_of_nil hnone]
      exact pairwise_singleton _ _
    rw [sequences_of_ne_nil hnone, pairwise_flatMap]
    constructor
    · intro edge _
      rw [pairwise_map]
      exact (ih edge.1.1).imp fun hlt => cons_lt_cons_iff.mpr (.inr ⟨rfl, hlt⟩)
    · have hplaces : ((graph.flowSuccessors v).zipIdx.map Prod.snd).Pairwise (· < ·) := by
        rw [zipIdx_map_snd]
        exact pairwise_lt_range'
      refine (pairwise_map.mp hplaces).imp fun {a b} hlt => ?_
      simp only [mem_map]
      rintro _ ⟨s, -, rfl⟩ _ ⟨t, -, rfl⟩
      exact cons_lt_cons_iff.mpr (.inl hlt)

theorem exists_maximal {n : Nat} {v : VertexId} (h : Within graph n v) :
    ∃ places vertices, Maximal graph v places vertices := by
  induction n generalizing v with
  | zero => exact absurd h (not_within_zero v)
  | succ n ih =>
    cases hedges : graph.flowSuccessors v with
    | nil => exact ⟨_, _, .last hedges⟩
    | cons edge rest =>
      obtain ⟨places, vertices, hmaximal⟩ := ih (h.next (hedges ▸ mem_cons_self))
      have hfirst : (graph.flowSuccessors v)[0]? = some edge := by rw [hedges]; rfl
      exact ⟨_, _, .edge hfirst hmaximal⟩

theorem Maximal.exists_cons {v : VertexId} {places : List Nat} (h : Maximal graph v places vertices) :
    ∃ exit rest, vertices = ⟨v, exit⟩ :: rest := by
  cases h with
  | last => exact ⟨none, [], rfl⟩
  | edge => exact ⟨_, _, rfl⟩

/-! ## Balance -/

@[simp] theorem depthAfter_nil : depthAfter graph [] = 0 := rfl

@[simp] theorem depthAfter_cons (vertex : PathVertex) (rest : List PathVertex) :
    depthAfter graph (vertex :: rest) = scopeChange graph vertex.id + depthAfter graph rest := rfl

/-- No imbalance: the depth is never negative and ends at zero. -/
theorem imbalance?_eq_none_iff {entered : Int} (hne : vertices ≠ []) :
    imbalance? graph entered vertices = none ↔
      (∀ passed, passed <+: vertices → passed ≠ [] → 0 ≤ entered + depthAfter graph passed) ∧
        entered + depthAfter graph vertices = 0 := by
  induction vertices generalizing entered with
  | nil => exact absurd rfl hne
  | cons vertex rest ih =>
    have hprefixes : (∀ passed, passed <+: vertex :: rest → passed ≠ [] → 0 ≤ entered + depthAfter graph passed) ↔
        0 ≤ entered + scopeChange graph vertex.id ∧
          ∀ passed, passed <+: rest → passed ≠ [] → 0 ≤ entered + scopeChange graph vertex.id +
          depthAfter graph passed := by
      constructor
      · intro h
        refine ⟨by simpa using h [vertex] (by simp) (by simp), fun passed hpassed _ => ?_⟩
        have := h (vertex :: passed) (cons_prefix_cons.mpr ⟨rfl, hpassed⟩) (by simp)
        rwa [depthAfter_cons, ← Int.add_assoc] at this
      · rintro ⟨hfirst, hlater⟩ passed hpassed hne
        obtain ⟨first, more, rfl⟩ := exists_cons_of_ne_nil hne
        obtain ⟨rfl, hmore⟩ := cons_prefix_cons.mp hpassed
        rw [depthAfter_cons, ← Int.add_assoc]
        by_cases hnil : more = []
        · simpa [hnil] using hfirst
        · exact hlater more hmore hnil
    rw [hprefixes, imbalance?, depthAfter_cons, ← Int.add_assoc]
    by_cases hnil : rest = []
    · subst hnil
      simp only [depthAfter_nil, prefix_nil, imbalance?, true_and]
      split
      · simp only [reduceCtorEq, false_iff]
        omega
      · simp only [true_iff]
        refine ⟨⟨by omega, fun passed hpassed hne => absurd hpassed hne⟩, by omega⟩
    · simp only [hnil, false_and, or_false]
      split
      · simp only [reduceCtorEq, false_iff]
        omega
      · rw [ih hnil, and_assoc]
        exact ⟨fun h => ⟨by omega, h⟩, fun h => h.2⟩

theorem balanced_iff (hne : vertices ≠ []) : Balanced graph vertices ↔ imbalance? graph 0 vertices = none := by
  rw [imbalance?_eq_none_iff hne]
  simp only [Int.zero_add]
  constructor
  · exact fun h => ⟨fun passed hpassed _ => h.nonneg passed hpassed, h.ends⟩
  · rintro ⟨hnonneg, hends⟩
    refine ⟨fun passed hpassed => ?_, hends⟩
    by_cases hnil : passed = []
    · simp [hnil]
    · exact hnonneg passed hpassed hnil

section
variable {entered : Int} {v : VertexId} {exit : Option FlowKind} {rest : List PathVertex}

theorem checked_eq_error (h : entered + scopeChange graph v < 0 ∨ (rest = [] ∧ entered + scopeChange graph v ≠ 0)) :
    checked graph method entered (⟨v, exit⟩ :: rest) =
    .error (scopeError graph method v (entered + scopeChange graph v)) := by
  rw [checked, imbalance?]
  simp only [if_pos h]

theorem checked_cons (h : ¬(entered + scopeChange graph v < 0 ∨ (rest = [] ∧ entered + scopeChange graph v ≠ 0))) :
    checked graph method entered (⟨v, exit⟩ :: rest) =
      (checked graph method (entered + scopeChange graph v) rest).map ((⟨v, exit⟩ : PathVertex) :: ·) := by
  rw [checked, checked, imbalance?]
  simp only [if_neg h]
  cases imbalance? graph (entered + scopeChange graph v) rest <;> rfl

end

/-! ## The enumeration -/

section
variable {n : Nat} {v : VertexId} {entered : Int}

theorem forwardFrom_below (hdepth : entered + scopeChange graph v < 0) :
    forwardFrom graph method (n + 1) entered v =
    .error (scopeError graph method v (entered + scopeChange graph v)) := by
  rw [forwardFrom, if_pos hdepth]
  rfl

theorem forwardFrom_last (hdepth : ¬entered + scopeChange graph v < 0) (hnone : graph.flowSuccessors v = []) :
    forwardFrom graph method (n + 1) entered v =
      if entered + scopeChange graph v ≠ 0 then .error (scopeError graph method v (entered + scopeChange graph v))
      else .ok [[⟨v, none⟩]] := by
  rw [forwardFrom, if_neg hdepth, hnone]
  rfl

theorem forwardFrom_edges (hdepth : ¬entered + scopeChange graph v < 0) (hsome : graph.flowSuccessors v ≠ []) :
    forwardFrom graph method (n + 1) entered v =
      ((graph.flowSuccessors v).mapM fun edge => (forwardFrom graph method n (entered + scopeChange graph v) edge.1).map
        (List.map ((⟨v, some edge.2⟩ : PathVertex) :: ·))).map List.flatten := by
  obtain ⟨edge, rest, hedges⟩ := exists_cons_of_ne_nil hsome
  rw [forwardFrom, if_neg hdepth, hedges]
  rfl

end

/-- With steps enough, the enumeration from a vertex checks the maximal sequences one after the other. -/
theorem forwardFrom_eq_checked {n : Nat} {v : VertexId} (h : Within graph n v) (entered : Int) :
    forwardFrom graph method n entered v = (sequences graph n v).mapM fun s => checked graph method entered s.2 := by
  induction n generalizing v entered with
  | zero => exact absurd h (not_within_zero v)
  | succ n ih =>
    by_cases hdepth : entered + scopeChange graph v < 0
    · -- whichever sequence is first, it fails at once
      obtain ⟨places, vertices, hmaximal⟩ := exists_maximal h
      obtain ⟨first, rest, hsequences⟩ := exists_cons_of_ne_nil (ne_nil_of_mem ((mem_sequences_iff h).mpr hmaximal))
      have hfirst : Maximal graph v first.1 first.2 := (mem_sequences_iff h).mp (hsequences ▸ mem_cons_self)
      obtain ⟨exit, more, hcons⟩ := hfirst.exists_cons
      rw [forwardFrom_below hdepth, hsequences, mapM_cons, hcons, checked_eq_error (.inl hdepth)]
      rfl
    by_cases hnone : graph.flowSuccessors v = []
    · rw [sequences_of_nil hnone, forwardFrom_last hdepth hnone, mapM_cons]
      by_cases hzero : entered + scopeChange graph v = 0
      · rw [checked_cons (by simp [hzero]), if_neg (not_not_intro hzero)]
        rfl
      · rw [checked_eq_error (.inr ⟨rfl, hzero⟩), if_pos hzero]
        rfl
    have hedges : ∀ edge ∈ (graph.flowSuccessors v).zipIdx,
        (((sequences graph n edge.1.1).map fun s => (edge.2 :: s.1, (⟨v, some edge.1.2⟩ : PathVertex) :: s.2)).mapM
        fun s =>
          checked graph method entered s.2) =
        (forwardFrom graph method n (entered + scopeChange graph v) edge.1.1).map
        (List.map ((⟨v, some edge.1.2⟩ : PathVertex) :: ·)) := by
      intro edge hedge
      have hnext := h.next (fst_mem_of_mem_zipIdx hedge)
      rw [mapM_map, ih hnext, ← mapM_map_ok]
      refine mapM_congr fun s hs => checked_cons ?_
      obtain ⟨exit, more, hcons⟩ := ((mem_sequences_iff hnext).mp hs).exists_cons
      simp [hdepth, hcons]
    rw [sequences_of_ne_nil hnone, mapM_flatMap, mapM_congr hedges, forwardFrom_edges hdepth hnone]
    conv_lhs => rw [← zipIdx_map_fst 0 (graph.flowSuccessors v), mapM_map]
    rfl

/-- Where no cycle can be reached from the body of a method, its forward paths are the maximal sequences of edges
from the body, in the order of the edges, if scopes are balanced along each of them. Else the enumeration fails at
the first one that is out of balance. -/
theorem forward_eq_sequences {body : VertexId} (hmethod : graph.is method .method = true)
    (hbody : graph.body? method = some body) (hacyclic : ∀ v, Relation.ReflTransGen (Flows graph) body v →
    ¬Relation.TransGen (Flows graph) v v) :
    ∃ all : List (List Nat × List PathVertex), all.Pairwise (fun s t => s.1 < t.1) ∧
      (∀ places vertices, (places, vertices) ∈ all ↔ Maximal graph body places vertices) ∧
      ((∃ paths, forward graph method = .ok paths) ↔
        ∀ places vertices, Maximal graph body places vertices → Balanced graph vertices) ∧
      (∀ paths, forward graph method = .ok paths → paths = all.map fun s => { method, vertices := s.2 }) ∧
      ∀ error, forward graph method = .error error → ∃ before first after v depth, all = before ++ first :: after ∧
        (∀ s ∈ before, Balanced graph s.2) ∧ imbalance? graph 0 first.2 = some (v, depth) ∧
        error = scopeError graph method v depth := by
  have hwithin := within_of_acyclic hacyclic
  have hmem : ∀ places vertices, (places, vertices) ∈ sequences graph (graph.vertexCount + 1) body ↔
      Maximal graph body places vertices :=
    fun _ _ => mem_sequences_iff hwithin
  have hpairwise : (sequences graph (graph.vertexCount + 1) body).Pairwise fun s t => s.1 < t.1 :=
    pairwise_sequences _ body
  have hforward : forward graph method =
    ((sequences graph (graph.vertexCount + 1) body).mapM fun s => checked graph method 0 s.2).map
    (List.map fun vertices => { method, vertices }) := by
    rw [← forwardFrom_eq_checked hwithin, forward, if_pos hmethod, hbody]
    rfl
  generalize sequences graph (graph.vertexCount + 1) body = all at hmem hpairwise hforward
  have hbalanced : ∀ s ∈ all, Balanced graph s.2 ↔ imbalance? graph 0 s.2 = none := by
    intro s hs
    obtain ⟨exit, rest, hcons⟩ := ((hmem s.1 s.2).mp hs).exists_cons
    exact balanced_iff (by simp [hcons])
  refine ⟨all, hpairwise, hmem, ?_⟩
  cases hfind : all.find? fun s => (imbalance? graph 0 s.2).isSome with
  | none =>
    have hnone : ∀ s ∈ all, imbalance? graph 0 s.2 = none := by simpa using hfind
    have hok : forward graph method = .ok (all.map fun s => { method, vertices := s.2 }) := by
      rw [hforward, mapM_eq_ok (g := Prod.snd) fun s hs => by rw [checked, hnone s hs]]
      simp [Except.map]
    refine ⟨⟨fun _ places vertices hmaximal => ?_, fun _ => ⟨_, hok⟩⟩, fun paths hpaths => ?_, fun error herror => ?_⟩
    · have hs := (hmem places vertices).mpr hmaximal
      exact (hbalanced _ hs).mpr (hnone _ hs)
    · exact (Except.ok.inj (hok.symm.trans hpaths)).symm
    · cases hok.symm.trans herror
  | some first =>
    obtain ⟨hfirst, before, after, rfl, hbefore⟩ := List.find?_eq_some_iff_append.mp hfind
    obtain ⟨⟨v, depth⟩, himbalance⟩ := Option.isSome_iff_exists.mp hfirst
    have hnone : ∀ s ∈ before, imbalance? graph 0 s.2 = none := by simpa using hbefore
    have herror : forward graph method = .error (scopeError graph method v depth) := by
      rw [hforward, mapM_eq_error (g := Prod.snd) (fun s hs => by rw [checked, hnone s hs])
        (by rw [checked, himbalance])]
      rfl
    refine ⟨⟨?_, fun h => ?_⟩, fun paths hpaths => ?_, fun error hfailed => ?_⟩
    · rintro ⟨paths, hpaths⟩
      cases herror.symm.trans hpaths
    · have hs : first ∈ before ++ first :: after := by simp
      have hnot := (hbalanced first hs).mp (h _ _ ((hmem first.1 first.2).mp hs))
      rw [himbalance] at hnot
      cases hnot
    · cases herror.symm.trans hpaths
    · refine ⟨before, first, after, v, depth, rfl, fun s hs => ?_, himbalance,
        Except.error.inj (hfailed.symm.trans herror)⟩
      exact (hbalanced s (mem_append_left _ hs)).mpr (hnone s hs)

/-! ## A fork with two equal edges -/

/-- From a block control goes to a statement, by two edges alike, or past it; the statement may end some scopes. -/
def forkingFlow (ended : List NodeKind) : CodeGraph :=
  let labels : List NodeKind := [.method, .blockStatement, .expressionStatement, .returnStatement]
  let graph : CodeGraph := labels.foldl (fun graph label => graph.addVertex label .zero) {}
  let graph :=
    [(0, 1), (1, 2), (1, 3)].foldl (fun graph (edge : VertexId × VertexId) => graph.addChild edge.1 edge.2) graph
  let graph := (graph.addEdge 1 2 (.flow .sequential)).addEdge 1 3 (.flow .positive)
  let graph := (graph.addEdge 1 2 (.flow .sequential)).addEdge 2 3 (.flow .sequential)
  (graph.setProperty 2 (.fact .endScopes) (.texts (ended.map NodeKind.name))).setProperty 3 (.fact .endScopes)
    (.texts [NodeKind.blockStatement.name])

theorem acyclic_of_ascending {v : VertexId} (h : ∀ v ∈ graph.ids, ∀ edge ∈ graph.flowSuccessors v, v < edge.1) :
    ¬Relation.TransGen (Flows graph) v v := by
  have hstep : ∀ {a b : Nat}, Flows graph a b → a < b := fun {a b} hflows => by
    obtain ⟨kind, hedge⟩ := hflows
    exact h a (mem_range.mpr (lt_of_flows ⟨kind, hedge⟩)) _ hedge
  have hlt : ∀ {a b : Nat}, Relation.TransGen (Flows graph) a b → a < b := fun {a b} hreaches => by
    induction hreaches with
    | single hflows => exact hstep hflows
    | tail _ hflows ih => exact Nat.lt_trans ih (hstep hflows)
  exact fun hcycle => Nat.lt_irrefl _ (hlt hcycle)

/-- Equal edges give equal paths. If the statement ends the scope of the block, the `return` has none to end, and
the path past the statement is not reached. -/
theorem forkingFlow_sequences :
    (∀ ended ∈ [[], [NodeKind.blockStatement]], ∀ v, Relation.ReflTransGen (Flows (forkingFlow ended)) 1 v →
      ¬Relation.TransGen (Flows (forkingFlow ended)) v v) ∧
    (∀ places vertices, Maximal (forkingFlow []) 1 places vertices → Balanced (forkingFlow []) vertices) ∧
    (∃ all : List (List Nat × List PathVertex),
    (∀ places vertices, (places, vertices) ∈ all ↔ Maximal (forkingFlow []) 1 places vertices) ∧
    all.map Prod.snd = [[⟨1, some .sequential⟩, ⟨2, some .sequential⟩, ⟨3, none⟩], [⟨1, some .positive⟩, ⟨3, none⟩],
        [⟨1, some .sequential⟩, ⟨2, some .sequential⟩, ⟨3, none⟩]]) ∧
    ¬∀ places vertices, Maximal (forkingFlow [.blockStatement]) 1 places vertices →
    Balanced (forkingFlow [.blockStatement]) vertices := by
  have hacyclic : ∀ ended ∈ [[], [NodeKind.blockStatement]], ∀ v,
    Relation.ReflTransGen (Flows (forkingFlow ended)) 1 v → ¬Relation.TransGen (Flows (forkingFlow ended)) v v := by
    have hascending : ∀ ended ∈ [[], [NodeKind.blockStatement]], ∀ v ∈ (forkingFlow ended).ids,
        ∀ edge ∈ (forkingFlow ended).flowSuccessors v, v < edge.1 := by decide +kernel
    exact fun ended hended v _ => acyclic_of_ascending (hascending ended hended)
  have hmethod : ∀ ended ∈ [[], [NodeKind.blockStatement]], (forkingFlow ended).is 0 .method = true := by decide +kernel
  have hbody : ∀ ended ∈ [[], [NodeKind.blockStatement]], (forkingFlow ended).body? 0 = some 1 := by decide +kernel
  have hnone : ([] : List NodeKind) ∈ [[], [NodeKind.blockStatement]] := by simp
  have hblock : [NodeKind.blockStatement] ∈ [[], [NodeKind.blockStatement]] := by simp
  obtain ⟨all, -, hmem, hok, hpaths, -⟩ := forward_eq_sequences (hmethod _ hnone) (hbody _ hnone) (hacyclic _ hnone)
  obtain ⟨-, -, -, hok', -⟩ := forward_eq_sequences (hmethod _ hblock) (hbody _ hblock) (hacyclic _ hblock)
  have hrun : (forward (forkingFlow []) 0).toOption.map (List.map CodePath.vertices) =
      some [[⟨1, some .sequential⟩, ⟨2, some .sequential⟩, ⟨3, none⟩], [⟨1, some .positive⟩, ⟨3, none⟩],
        [⟨1, some .sequential⟩, ⟨2, some .sequential⟩, ⟨3, none⟩]] := by decide +kernel
  have hfails : (forward (forkingFlow [.blockStatement]) 0).toOption.isNone = true := by decide +kernel
  cases hforward : forward (forkingFlow []) 0 with
  | error error => simp [hforward, Except.toOption] at hrun
  | ok paths =>
    refine ⟨hacyclic, hok.mp ⟨paths, hforward⟩, ⟨all, hmem, ?_⟩, fun h => ?_⟩
    · rw [hforward, hpaths paths hforward] at hrun
      simpa [Except.toOption, Function.comp_def] using hrun
    · obtain ⟨paths, hpaths⟩ := hok'.mpr h
      rw [hpaths] at hfails
      cases hfails

end ApexPaths.Path
