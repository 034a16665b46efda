import ApexPaths.Proofs.Graph.Forest

/-!
Growing graphs. A planted graph has tree edges only, and each child knows its place and its parent.
One more vertex below a vertex of the graph keeps that.
-/

namespace ApexPaths.CodeGraph
set_option autoImplicit false

open List

/-! ## Assignments to one vertex -/

section
variable (graph : CodeGraph) (id : VertexId) (entries : PropertyMap)

/-- The graph with properties set one after the other. -/
def assignAll : CodeGraph := entries.foldl (fun graph entry => graph.setProperty id entry.1 entry.2) graph

theorem vertex?_assignAll (v : VertexId) : (assignAll graph id entries).vertex? v = (graph.vertex? v).map fun x =>
    if v = id then { x with props := entries.foldl (fun all entry => all.assign entry.1 entry.2) x.props } else x := by
  induction entries generalizing graph with
  | nil => simp [assignAll]
  | cons entry rest ih =>
    have hstep : assignAll graph id (entry :: rest) = assignAll (graph.setProperty id entry.1 entry.2) id rest := rfl
    rw [hstep, ih, vertex?_setProperty, Option.map_map]
    congr 1
    funext x
    by_cases h : v = id <;> simp [h]

theorem assignAll_read {α : Type} (read : CodeGraph → α)
    (h : ∀ (graph : CodeGraph) key value, read (graph.setProperty id key value) = read graph) :
    read (assignAll graph id entries) = read graph := by
  induction entries generalizing graph with
  | nil => rfl
  | cons entry rest ih => exact (ih (graph.setProperty id entry.1 entry.2)).trans (h graph entry.1 entry.2)

@[simp] theorem vertexCount_assignAll : (assignAll graph id entries).vertexCount = graph.vertexCount :=
  assignAll_read graph id entries vertexCount (by simp)

@[simp] theorem label?_assignAll (v : VertexId) : (assignAll graph id entries).label? v = graph.label? v :=
  assignAll_read graph id entries (label? · v) (by simp)

@[simp] theorem outNeighbors_assignAll (v : VertexId) (label : EdgeLabel) :
    (assignAll graph id entries).outNeighbors v label = graph.outNeighbors v label :=
  assignAll_read graph id entries (outNeighbors · v label) (by simp)

@[simp] theorem inNeighbors_assignAll (v : VertexId) (label : EdgeLabel) :
    (assignAll graph id entries).inNeighbors v label = graph.inNeighbors v label :=
  assignAll_read graph id entries (inNeighbors · v label) (by simp)

@[simp] theorem flowSuccessors_assignAll (v : VertexId) :
    (assignAll graph id entries).flowSuccessors v = graph.flowSuccessors v :=
  assignAll_read graph id entries (flowSuccessors · v) (by simp)

@[simp] theorem flowPredecessors_assignAll (v : VertexId) :
    (assignAll graph id entries).flowPredecessors v = graph.flowPredecessors v :=
  assignAll_read graph id entries (flowPredecessors · v) (by simp)

theorem property?_assignAll_of_ne {v : VertexId} (h : v ≠ id) (key : Key) :
    (assignAll graph id entries).property? v key = graph.property? v key := by
  rw [property?, property?, vertex?_assignAll]
  simp [h]

theorem property?_assignAll_self (hid : id < graph.vertexCount) {key : Key} (hkey : key.isFolded = false) :
    (assignAll graph id entries).property? id key = (entries.written key).or (graph.property? id key) := by
  rw [property?, property?, vertex?_assignAll, vertex?, Array.getElem?_eq_getElem hid]
  simp [PropertyMap.get?_foldl_assign _ _ hkey]

end

/-! ## A new vertex -/

/-- The keys that a graph writes on its vertices by itself. -/
def isGraphKey : Key → Bool
  | .fact .beginLine | .fact .beginColumn | .fact .endLine | .fact .childIdx | .fact .firstChild | .fact
      .lastChild | .folded _ =>
    true
  | _ => false

theorem isFolded_of_isGraphKey {key : Key} (h : isGraphKey key = false) : key.isFolded = false := by
  cases key <;> first | rfl | cases h

/-- A graph with one more vertex, perhaps below a parent, with some assignments. -/
structure Grows (graph : CodeGraph) (parent : Option VertexId) (kind : NodeKind) (entries : PropertyMap)
    (graph' : CodeGraph) : Prop where
  vertexCount_eq : graph'.vertexCount = graph.vertexCount + 1
  label?_new : graph'.label? graph.vertexCount = some kind
  label?_old : ∀ v : Nat, v ≠ graph.vertexCount → graph'.label? v = graph.label? v
  property?_new : ∀ key, isGraphKey key = false → graph'.property? graph.vertexCount key = entries.written key
  childIdx_new : entries.written (.fact .childIdx) = none → graph'.property? graph.vertexCount (.fact .childIdx) =
    parent.map fun p => .int (graph.children p).length
  property?_old : ∀ (v : Nat) key, v ≠ graph.vertexCount → key ≠ .fact .lastChild →
    graph'.property? v key = graph.property? v key
  out_eq : ∀ v label, graph'.outNeighbors v label =
    graph.outNeighbors v label ++ if parent = some v ∧ label = .child then [graph.vertexCount] else []
  in_old : ∀ (v : Nat) label, v ≠ graph.vertexCount → graph'.inNeighbors v label = graph.inNeighbors v label
  in_new : ∀ label, graph'.inNeighbors graph.vertexCount label = if label = .child then parent.toList else []
  flowSuccessors_eq : ∀ v, graph'.flowSuccessors v = graph.flowSuccessors v
  flowPredecessors_eq : ∀ v, graph'.flowPredecessors v = graph.flowPredecessors v

section
variable (graph : CodeGraph)

theorem vertex?_vertexCount : graph.vertex? graph.vertexCount = none := Array.getElem?_eq_none (Nat.le_refl _)

theorem grows_addVertex (kind : NodeKind) (span : Span) : Grows graph none kind [] (graph.addVertex kind span) := by
  have hold : ∀ v : Nat, v ≠ graph.vertexCount → (graph.addVertex kind span).vertex? v = graph.vertex? v := by
    intro v hv
    rw [vertex?_addVertex, if_neg hv]
  have hnew : (graph.addVertex kind span).vertex? graph.vertexCount = some (Vertex.make kind span) := by
    rw [vertex?_addVertex, if_pos rfl]
  have hmissing := graph.vertex?_vertexCount
  refine ⟨by simp, by simp [label?, hnew, Vertex.make], ?_, ?_, ?_, ?_, ?_, ?_, ?_, ?_, ?_⟩
  · exact fun v hv => by rw [label?, label?, hold v hv]
  · intro key hkey
    simp only [property?, hnew, Vertex.make, Option.bind_some, PropertyMap.written]
    rcases key with k | k | k <;> cases k <;> first | rfl | exact absurd hkey (by decide)
  · intro _
    simp only [property?, hnew, Vertex.make]
    rfl
  · exact fun v key hv _ => by rw [property?, property?, hold v hv]
  · intro v label
    by_cases hv : v = graph.vertexCount
    · simp [outNeighbors, hv, hnew, hmissing, Vertex.make]
    · simp [outNeighbors, hold v hv]
  · exact fun v label hv => by rw [inNeighbors, inNeighbors, hold v hv]
  · intro label
    simp [inNeighbors, hnew, Vertex.make]
  · intro v
    by_cases hv : v = graph.vertexCount
    · simp [flowSuccessors, hv, hnew, hmissing, Vertex.make]
    · simp [flowSuccessors, hold v hv]
  · intro v
    by_cases hv : v = graph.vertexCount
    · simp [flowPredecessors, hv, hnew, hmissing, Vertex.make]
    · simp [flowPredecessors, hold v hv]

theorem length_insertKeyed (entry : Int × VertexId) (entries : List (Int × VertexId)) :
    (insertKeyed entry entries).length = entries.length + 1 := by
  induction entries with
  | nil => rfl
  | cons first rest ih =>
    rw [insertKeyed]
    split
    · rfl
    · rw [length_cons, ih, length_cons]

theorem length_children (p : VertexId) : (graph.children p).length = (graph.outNeighbors p .child).length := by
  have h : ∀ entries : List (Int × VertexId), (entries.foldr insertKeyed []).length = entries.length := by
    intro entries
    induction entries with
    | nil => rfl
    | cons entry rest ih => rw [foldr_cons, length_insertKeyed, ih, length_cons]
  rw [children, length_map, h, length_map]

/-- The graph in which the former last child knows that it is the last one no more. -/
def unmarkLast (p : VertexId) : CodeGraph :=
  match (graph.children p).getLast? with
  | some last => graph.setProperty last (.fact .lastChild) (.flag false)
  | none => graph

theorem unmarkLast_read {α : Type} (read : CodeGraph → α)
    (h : ∀ id, read (graph.setProperty id (.fact .lastChild) (.flag false)) = read graph) (p : VertexId) :
    read (graph.unmarkLast p) = read graph := by
  rw [unmarkLast]
  cases (graph.children p).getLast? with
  | none => rfl
  | some last => exact h last

theorem vertex?_unmarkLast (p v : VertexId) : (graph.unmarkLast p).vertex? v = (graph.vertex? v).map fun x =>
    if (graph.children p).getLast? = some v then { x with props := x.props.assign (.fact .lastChild) (.flag false) }
      else x := by
  rw [unmarkLast]
  cases (graph.children p).getLast? with
  | none => simp
  | some last => simp [vertex?_setProperty, eq_comm]

theorem addChild_eq (p c : VertexId) : graph.addChild p c = (assignAll (graph.unmarkLast p) c
    [(.fact .childIdx, .int (graph.children p).length), (.fact .firstChild, .flag (graph.children p).isEmpty),
      (.fact .lastChild, .flag true)]).addEdge p c .child := rfl

variable {graph}

theorem Grows.addChild {graph' : CodeGraph} {kind : NodeKind} (h : Grows graph none kind [] graph') {p : Nat}
    (hp : p < graph.vertexCount) : Grows graph (some p) kind [] (graph'.addChild p graph.vertexCount) := by
  have hsiblings : (graph'.children p).length = (graph.children p).length := by
    rw [length_children, length_children, h.out_eq]
    simp
  have hcount : (graph'.unmarkLast p).vertexCount = graph.vertexCount + 1 :=
    (graph'.unmarkLast_read vertexCount (by simp) p).trans h.vertexCount_eq
  have hproperty : ∀ v key, key ≠ .fact .lastChild → (graph'.unmarkLast p).property? v key = graph'.property? v key :=
    fun v key hkey => graph'.unmarkLast_read (property? · v key)
      (fun id => graph'.property?_setProperty_of_ne (.inr (Ne.symm hkey)) _) p
  have hrange : p < graph.vertexCount + 1 ∧ graph.vertexCount < graph.vertexCount + 1 := by omega
  rw [addChild_eq]
  refine ⟨?_, ?_, ?_, ?_, ?_, ?_, ?_, ?_, ?_, ?_, ?_⟩
  · simp [hcount]
  · rw [label?_addEdge, label?_assignAll, graph'.unmarkLast_read (label? · _) (by simp), h.label?_new]
  · intro v hv
    rw [label?_addEdge, label?_assignAll, graph'.unmarkLast_read (label? · v) (by simp), h.label?_old v hv]
  · intro key hkey
    rw [property?_addEdge,
      property?_assignAll_self _ _ _ (by rw [hcount]; exact hrange.2) (isFolded_of_isGraphKey hkey), hproperty _ _ ?_,
      h.property?_new key hkey]
    · rcases key with k | k | k <;> cases k <;> first | rfl | exact absurd hkey (by decide)
    · rintro rfl
      exact absurd hkey (by decide)
  · intro _
    rw [property?_addEdge, property?_assignAll_self _ _ _ (by rw [hcount]; exact hrange.2) rfl, hsiblings]
    rfl
  · intro v key hv hkey
    rw [property?_addEdge, property?_assignAll_of_ne _ _ _ hv, hproperty v key hkey, h.property?_old v key hv hkey]
  · intro v label
    rw [outNeighbors_addEdge _ (by simpa [hcount] using hrange), outNeighbors_assignAll,
      graph'.unmarkLast_read (outNeighbors · v label) (by simp), h.out_eq]
    simp [eq_comm]
  · intro v label hv
    rw [inNeighbors_addEdge _ (by simpa [hcount] using hrange), inNeighbors_assignAll,
      graph'.unmarkLast_read (inNeighbors · v label) (by simp), h.in_old v label hv]
    simp [hv]
  · intro label
    rw [inNeighbors_addEdge _ (by simpa [hcount] using hrange), inNeighbors_assignAll,
      graph'.unmarkLast_read (inNeighbors · _ label) (by simp), h.in_new label]
    simp [eq_comm]
  · intro v
    rw [flowSuccessors_addEdge_of_flow?_none _ (by simpa [hcount] using hrange) v rfl, flowSuccessors_assignAll,
      graph'.unmarkLast_read (flowSuccessors · v) (by simp), h.flowSuccessors_eq]
  · intro v
    rw [flowPredecessors_addEdge_of_flow?_none _ (by simpa [hcount] using hrange) v rfl, flowPredecessors_assignAll,
      graph'.unmarkLast_read (flowPredecessors · v) (by simp), h.flowPredecessors_eq]

theorem Grows.assignAll {graph' : CodeGraph} {parent : Option VertexId} {kind : NodeKind}
    (h : Grows graph parent kind [] graph') (entries : PropertyMap) :
    Grows graph parent kind entries (assignAll graph' graph.vertexCount entries) := by
  have hid : graph.vertexCount < graph'.vertexCount := by
    rw [h.vertexCount_eq]
    omega
  refine ⟨?_, ?_, ?_, ?_, ?_, ?_, ?_, ?_, ?_, ?_, ?_⟩
  · rw [vertexCount_assignAll, h.vertexCount_eq]
  · rw [label?_assignAll, h.label?_new]
  · intro v hv
    rw [label?_assignAll, h.label?_old v hv]
  · intro key hkey
    rw [property?_assignAll_self _ _ _ hid (isFolded_of_isGraphKey hkey), h.property?_new key hkey]
    simp [PropertyMap.written]
  · intro hnone
    rw [property?_assignAll_self _ _ _ hid rfl, hnone, h.childIdx_new rfl]
    rfl
  · intro v key hv hkey
    rw [property?_assignAll_of_ne _ _ _ hv, h.property?_old v key hv hkey]
  · exact fun v label => by rw [outNeighbors_assignAll, h.out_eq]
  · exact fun v label hv => by rw [inNeighbors_assignAll, h.in_old v label hv]
  · exact fun label => by rw [inNeighbors_assignAll, h.in_new]
  · exact fun v => by rw [flowSuccessors_assignAll, h.flowSuccessors_eq]
  · exact fun v => by rw [flowPredecessors_assignAll, h.flowPredecessors_eq]

end

/-! ## Planted graphs -/

/-- A graph of tree edges only, in which each child knows its place and its parent. -/
structure Planted (graph : CodeGraph) : Prop where
  indexed : ∀ p, (graph.outNeighbors p .child).map graph.childIndex =
    (List.range (graph.outNeighbors p .child).length).map Int.ofNat
  parent_of_mem : ∀ {v p : Nat}, v ∈ graph.outNeighbors p .child →
    graph.inNeighbors v .child = [p] ∧ p < v ∧ v < graph.vertexCount
  mem_of_parent : ∀ {v p : Nat}, p ∈ graph.inNeighbors v .child → v ∈ graph.outNeighbors p .child
  bare : ∀ v, graph.flowSuccessors v = [] ∧ graph.flowPredecessors v = [] ∧ graph.property? v (.fact .endScopes) = none
  noSupertypes : ∀ v, graph.outNeighbors v .extensionOf = []

theorem planted_empty : Planted {} := by
  have h : ∀ v, vertex? {} v = none := fun v => by simp [vertex?]
  refine ⟨fun p => ?_, fun {v p} hv => ?_, fun {v p} hp => ?_, fun v => ?_, fun v => ?_⟩
  · simp [outNeighbors, h]
  · simp [outNeighbors, h] at hv
  · simp [inNeighbors, h] at hp
  · simp [flowSuccessors, flowPredecessors, property?, h]
  · simp [outNeighbors, h]

theorem foldr_insertKeyed_of_sorted {entries : List (Int × VertexId)} (h : entries.Pairwise fun a b => a.1 < b.1) :
    entries.foldr insertKeyed [] = entries := by
  induction entries with
  | nil => rfl
  | cons entry rest ih =>
    obtain ⟨hfirst, hrest⟩ := pairwise_cons.mp h
    rw [foldr_cons, ih hrest]
    cases rest with
    | nil => rfl
    | cons next rest =>
      have hlt := hfirst next mem_cons_self
      rw [insertKeyed, if_pos (by simp [hlt])]

/-- Children that are numbered in the order of their edges stay in this order. -/
theorem children_eq_of_indexed {graph : CodeGraph} {p : VertexId}
    (indexed : (graph.outNeighbors p .child).map graph.childIndex =
    (List.range (graph.outNeighbors p .child).length).map Int.ofNat) : graph.children p =
    graph.outNeighbors p .child := by
  have hsorted : ((graph.outNeighbors p .child).map fun child => (graph.childIndex child, child)).Pairwise
      fun a b => a.1 < b.1 := by
    have hrange : ((graph.outNeighbors p .child).map graph.childIndex).Pairwise (· < ·) := by
      rw [indexed, pairwise_map]
      exact pairwise_lt_range.imp fun h => Int.ofNat_lt.mpr h
    rw [pairwise_map] at hrange ⊢
    exact hrange
  rw [children, foldr_insertKeyed_of_sorted hsorted, map_map]
  exact map_id _

namespace Planted

variable {graph : CodeGraph} (planted : graph.Planted)
include planted

theorem children_eq (p : VertexId) : graph.children p = graph.outNeighbors p .child :=
  children_eq_of_indexed (planted.indexed p)

theorem parent?_eq_some_iff {v p : Nat} : graph.parent? v = some p ↔ v ∈ graph.children p := by
  rw [planted.children_eq, parent?]
  constructor
  · exact fun h => planted.mem_of_parent (mem_of_getLast? h)
  · intro h
    rw [(planted.parent_of_mem h).1]
    rfl

theorem isForest : graph.IsForest where
  parent_lt h := by
    rw [planted.parent?_eq_some_iff, planted.children_eq] at h
    exact (planted.parent_of_mem h).2.1
  parent_of_mem h := planted.parent?_eq_some_iff.mpr h
  nodup_children p := by
    have hindices : ((graph.outNeighbors p .child).map graph.childIndex).Pairwise (· ≠ ·) := by
      rw [planted.indexed]
      exact List.Pairwise.map _ (fun a b h e => h (Int.ofNat.inj e)) nodup_range
    rw [planted.children_eq]
    exact (pairwise_map.mp hindices).imp fun h e => h (congrArg graph.childIndex e)

end Planted

section
variable {graph graph' : CodeGraph} {parent : Option VertexId} {kind : NodeKind} {entries : PropertyMap}
  (grows : Grows graph parent kind entries graph')
include grows

theorem Grows.childIndex_old {v : Nat} (h : v ≠ graph.vertexCount) : graph'.childIndex v = graph.childIndex v := by
  rw [childIndex, childIndex, int?_eq, int?_eq, grows.property?_old v _ h (by simp)]

/-- A planted graph that grows by one vertex is planted. -/
theorem Grows.planted (planted : graph.Planted) (hparent : ∀ p ∈ parent, p < graph.vertexCount)
    (hplace : entries.written (.fact .childIdx) = none) (hended : entries.written (.fact .endScopes) = none) :
    graph'.Planted := by
  have hold : ∀ {v p : Nat}, v ∈ graph.outNeighbors p .child → v ≠ graph.vertexCount :=
    fun hv => Nat.ne_of_lt (planted.parent_of_mem hv).2.2
  have hindex : ∀ p ∈ parent, graph'.childIndex graph.vertexCount = (graph.outNeighbors p .child).length := by
    intro p hp
    rw [childIndex, int?_eq, grows.childIdx_new hplace, hp, ← graph.length_children]
    rfl
  refine ⟨fun p => ?_, fun {v p} hv => ?_, fun {v p} hp => ?_, fun v => ?_, fun v => ?_⟩
  · have hmap : (graph.outNeighbors p .child).map graph'.childIndex =
        (graph.outNeighbors p .child).map graph.childIndex :=
      map_congr_left fun v hv => grows.childIndex_old (hold hv)
    rw [grows.out_eq, map_append, hmap, planted.indexed]
    by_cases hp : parent = some p
    · simp [hp, hindex p hp, range_succ]
    · simp [hp]
  · rw [grows.out_eq, mem_append] at hv
    rcases hv with hv | hv
    · obtain ⟨hin, hlt, hcount⟩ := planted.parent_of_mem hv
      rw [grows.in_old v _ (hold hv), grows.vertexCount_eq]
      exact ⟨hin, hlt, by omega⟩
    · split at hv
      · rename_i hp
        obtain rfl := mem_singleton.mp hv
        rw [grows.in_new, grows.vertexCount_eq, hp.1]
        exact ⟨rfl, hparent p hp.1, by omega⟩
      · exact absurd hv not_mem_nil
  · rw [grows.out_eq, mem_append]
    by_cases hv : v = graph.vertexCount
    · subst hv
      rw [grows.in_new, if_pos rfl, Option.mem_toList] at hp
      exact .inr (by simp [show parent = some p from hp])
    · rw [grows.in_old v _ hv] at hp
      exact .inl (planted.mem_of_parent hp)
  · rw [grows.flowSuccessors_eq, grows.flowPredecessors_eq]
    refine ⟨(planted.bare v).1, (planted.bare v).2.1, ?_⟩
    by_cases hv : v = graph.vertexCount
    · rw [hv, grows.property?_new _ rfl, hended]
    · rw [grows.property?_old v _ hv (by simp), (planted.bare v).2.2]
  · rw [grows.out_eq, planted.noSupertypes]
    simp

end

end ApexPaths.CodeGraph
