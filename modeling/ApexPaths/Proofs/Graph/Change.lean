import ApexPaths.Graph.Basic

/-!
What can be read from a graph after a change. Each change is described once, on the vertex that it
touches; labels, properties, neighbours and the tree follow from that.
-/

namespace ApexPaths
set_option autoImplicit false

instance : LawfulBEq NameKey where
  eq_of_beq {a b} h := by
    have hi : a.ctorIdx = b.ctorIdx := beq_iff_eq.mp h
    rw [← NameKey.ofNat_ctorIdx a, hi, NameKey.ofNat_ctorIdx]
  rfl {a} := beq_self_eq_true a.ctorIdx

instance : LawfulBEq FactKey where
  eq_of_beq {a b} h := by
    have hi : a.ctorIdx = b.ctorIdx := beq_iff_eq.mp h
    rw [← FactKey.ofNat_ctorIdx a, hi, FactKey.ofNat_ctorIdx]
  rfl {a} := beq_self_eq_true a.ctorIdx

deriving instance ReflBEq, LawfulBEq for Key

/-! ## Kinds -/

theorem NodeKind.ofName?_name (kind : NodeKind) : NodeKind.ofName? kind.name = some kind := by
  have hall : ∀ kind ∈ NodeKind.all, NodeKind.ofName? kind.name = some kind := by decide +kernel
  refine hall kind ?_
  cases kind <;> decide

theorem NodeKind.opensScope_of_isWhenBlock {kind : NodeKind} (h : kind.isWhenBlock = true) :
    kind.opensScope = true := by
  cases kind <;> first | rfl | simp [NodeKind.isWhenBlock] at h

theorem NodeKind.opensScope_of_isExpression {kind : NodeKind} (h : kind.isExpression = true) :
    kind.opensScope = false := by
  cases kind <;> first | rfl | simp [NodeKind.isExpression] at h

/-! ## Properties -/

/-- The key is of a property that is kept in lower case. -/
def Key.isFolded : Key → Bool
  | .folded _ => true
  | _ => false

namespace PropertyMap

theorem get?_cons (k key : Key) (v : PropertyValue) (props : PropertyMap) :
    get? ((k, v) :: props) key = if k = key then some v else get? props key := by
  by_cases h : k = key
  · simp [get?, h]
  · simp [get?, h]

theorem get?_put (props : PropertyMap) (k key : Key) (v : PropertyValue) :
    (props.put k v).get? key = if k = key then some v else props.get? key := by
  induction props with
  | nil => rw [put, get?_cons]
  | cons entry rest ih =>
    obtain ⟨k', v'⟩ := entry
    rw [put]
    by_cases h : k' = k
    · subst h
      by_cases hk : k' = key <;> simp [get?_cons, hk]
    · simp only [beq_iff_eq, h, if_false, get?_cons, ih]
      by_cases hk : k' = key
      · subst hk
        simp [Ne.symm h]
      · simp [hk]

theorem get?_assign_fact (props : PropertyMap) (k : FactKey) (key : Key) (v : PropertyValue) :
    (props.assign (.fact k) v).get? key = if .fact k = key then some v else props.get? key :=
  get?_put props (.fact k) key v

/-- The last value that a list of assignments gives to a key. -/
def written (props : PropertyMap) (key : Key) : Option PropertyValue := ((props.filter (·.1 == key)).getLast?).map (·.2)

theorem get?_assign (props : PropertyMap) (key : Key) (value : PropertyValue) {k : Key} (hk : k.isFolded = false) :
    (props.assign key value).get? k = if key = k then some value else props.get? k := by
  have hne : ∀ n, Key.folded n ≠ k := by
    rintro n rfl
    cases hk
  cases key <;> simp [assign, Key.folded?, get?_put, hne]

theorem get?_foldl_assign (entries props : PropertyMap) {k : Key} (hk : k.isFolded = false) :
    (entries.foldl (fun all entry => all.assign entry.1 entry.2) props).get? k =
    (entries.written k).or (props.get? k) := by
  induction entries generalizing props with
  | nil => simp [written]
  | cons entry rest ih =>
    rw [List.foldl_cons, ih, get?_assign _ _ _ hk]
    by_cases h : entry.1 = k
    · cases hlast : (rest.filter (·.1 == k)).getLast? <;> simp [written, h, List.getLast?_cons, hlast]
    · simp [written, h]

end PropertyMap

variable {id : VertexId} {label : NodeKind}

namespace CodeGraph

variable (graph : CodeGraph)

theorem text?_eq (id : VertexId) (key : Key) :
    graph.text? id key = (graph.property? id key).bind PropertyValue.text? := by
  simp only [text?, property?, PropertyMap.text?, Option.bind_assoc]

theorem flag_eq (id : VertexId) (key : Key) :
    graph.flag id key = ((graph.property? id key).bind PropertyValue.flag?).getD false := by
  simp only [flag, property?, PropertyMap.flag?, Option.bind_assoc]

theorem int?_eq (id : VertexId) (key : Key) : graph.int? id key = (graph.property? id key).bind PropertyValue.int? := by
  simp only [int?, property?, PropertyMap.int?, Option.bind_assoc]

theorem texts_eq (id : VertexId) (key : Key) :
    graph.texts id key = ((graph.property? id key).bind PropertyValue.texts?).getD [] := by
  simp only [texts, property?, PropertyMap.texts?, Option.bind_assoc]

theorem is_iff : graph.is id label = true ↔ graph.label? id = some label := by
  simp [is]

theorem lt_of_label? {id : Nat} (h : graph.label? id = some label) : id < graph.vertexCount := by
  obtain ⟨vertex, hv, _⟩ := Option.map_eq_some_iff.mp h
  exact (Array.getElem?_eq_some_iff.mp hv).1

variable {graph} in
theorem mem_withLabel : id ∈ graph.withLabel label ↔ graph.is id label = true := by
  rw [withLabel_eq, ids, List.mem_filter, List.mem_range]
  exact ⟨And.right, fun h => ⟨graph.lt_of_label? (graph.is_iff.mp h), h⟩⟩

theorem pairwise_withLabel (label : NodeKind) : (graph.withLabel label).Pairwise (· < ·) := by
  rw [withLabel_eq]
  exact List.pairwise_lt_range.filter _

/-! ## The vertex that a change touches -/

theorem vertex?_setProperty (id v : VertexId) (key : Key) (value : PropertyValue) :
    (graph.setProperty id key value).vertex? v =
      (graph.vertex? v).map fun x => if v = id then { x with props := x.props.assign key value } else x := by
  simp only [setProperty, vertex?, Array.getElem?_modify]
  by_cases h : id = v
  · simp [h]
  · simp [h, Ne.symm h]

/-- An edge shows at its two ends. -/
theorem vertex?_addEdge {source target : Nat} (h : source < graph.vertexCount ∧ target < graph.vertexCount)
    (v : VertexId) (label : EdgeLabel) :
    (graph.addEdge source target label).vertex? v = (graph.vertex? v).map fun x =>
      { x with
        outgoing := if v = source then x.outgoing.push (label, target) else x.outgoing
        incoming := if v = target then x.incoming.push (label, source) else x.incoming } := by
  simp only [addEdge, h, and_self, if_true, vertex?, Array.getElem?_modify]
  by_cases hs : source = v <;> by_cases ht : target = v <;>
    simp [hs, ht, eq_comm (a := v), Function.comp_def]

/-- A new vertex comes after all others. -/
theorem vertex?_addVertex (v : VertexId) (label : NodeKind) (span : Span) :
    (graph.addVertex label span).vertex? v =
      if v = graph.vertexCount then some (Vertex.make label span) else graph.vertex? v := by
  rw [addVertex, vertex?, Array.getElem?_push]
  rfl

@[simp] theorem vertexCount_setProperty (id : VertexId) (key : Key) (value : PropertyValue) :
    (graph.setProperty id key value).vertexCount = graph.vertexCount := by
  simp [setProperty, vertexCount]

@[simp] theorem vertexCount_addEdge (source target : VertexId) (label : EdgeLabel) :
    (graph.addEdge source target label).vertexCount = graph.vertexCount := by
  rw [addEdge]
  split <;> simp [vertexCount]

@[simp] theorem vertexCount_addVertex (label : NodeKind) (span : Span) :
    (graph.addVertex label span).vertexCount = graph.vertexCount + 1 := by
  simp [addVertex, vertexCount]

/-! ## Reads after an assignment -/

@[simp] theorem label?_setProperty (id v : VertexId) (key : Key) (value : PropertyValue) :
    (graph.setProperty id key value).label? v = graph.label? v := by
  rw [label?, label?, vertex?_setProperty, Option.map_map]
  congr 1
  funext x
  simp only [Function.comp_apply]
  split <;> rfl

theorem property?_setProperty_fact (id v : Nat) (k : FactKey) (key : Key) (value : PropertyValue)
    (h : id < graph.vertexCount) : (graph.setProperty id (.fact k) value).property? v key =
      if v = id ∧ .fact k = key then some value else graph.property? v key := by
  rw [property?, property?, vertex?_setProperty]
  by_cases hv : v = id
  · subst hv
    rw [vertex?, Array.getElem?_eq_getElem h]
    simp [PropertyMap.get?_assign_fact]
  · simp [hv]

theorem property?_setProperty_of_ne {v : VertexId} {k : FactKey} {key : Key} (h : v ≠ id ∨ .fact k ≠ key)
    (value : PropertyValue) : (graph.setProperty id (.fact k) value).property? v key = graph.property? v key := by
  rw [property?, property?, vertex?_setProperty]
  cases graph.vertex? v with
  | none => rfl
  | some x =>
    by_cases hv : v = id
    · simp [hv, PropertyMap.get?_assign_fact, h.resolve_left (not_not_intro hv)]
    · simp [hv]

@[simp] theorem outNeighbors_setProperty (id v : VertexId) (key : Key) (value : PropertyValue) (label : EdgeLabel) :
    (graph.setProperty id key value).outNeighbors v label = graph.outNeighbors v label := by
  rw [outNeighbors, outNeighbors, vertex?_setProperty]
  cases graph.vertex? v with
  | none => rfl
  | some x => by_cases hv : v = id <;> simp [hv]

@[simp] theorem inNeighbors_setProperty (id v : VertexId) (key : Key) (value : PropertyValue) (label : EdgeLabel) :
    (graph.setProperty id key value).inNeighbors v label = graph.inNeighbors v label := by
  rw [inNeighbors, inNeighbors, vertex?_setProperty]
  cases graph.vertex? v with
  | none => rfl
  | some x => by_cases hv : v = id <;> simp [hv]

@[simp] theorem flowSuccessors_setProperty (id v : VertexId) (key : Key) (value : PropertyValue) :
    (graph.setProperty id key value).flowSuccessors v = graph.flowSuccessors v := by
  rw [flowSuccessors, flowSuccessors, vertex?_setProperty]
  cases graph.vertex? v with
  | none => rfl
  | some x => by_cases hv : v = id <;> simp [hv]

@[simp] theorem flowPredecessors_setProperty (id v : VertexId) (key : Key) (value : PropertyValue) :
    (graph.setProperty id key value).flowPredecessors v = graph.flowPredecessors v := by
  rw [flowPredecessors, flowPredecessors, vertex?_setProperty]
  cases graph.vertex? v with
  | none => rfl
  | some x => by_cases hv : v = id <;> simp [hv]

/-! ## Reads after a new edge -/

@[simp] theorem label?_addEdge (source target v : VertexId) (label : EdgeLabel) :
    (graph.addEdge source target label).label? v = graph.label? v := by
  by_cases h : source < graph.vertexCount ∧ target < graph.vertexCount
  · simp [label?, vertex?_addEdge graph h, Function.comp_def]
  · simp [addEdge, h]

@[simp] theorem property?_addEdge (source target v : VertexId) (label : EdgeLabel) (key : Key) :
    (graph.addEdge source target label).property? v key = graph.property? v key := by
  by_cases h : source < graph.vertexCount ∧ target < graph.vertexCount
  · simp only [property?, vertex?_addEdge graph h, Option.bind_map]
    rfl
  · simp [addEdge, h]

section
variable {source target : Nat} (h : source < graph.vertexCount ∧ target < graph.vertexCount)
include h

section
variable (v : VertexId)
include v

theorem outNeighbors_addEdge (label l : EdgeLabel) :
    (graph.addEdge source target label).outNeighbors v l =
      graph.outNeighbors v l ++ if v = source ∧ label = l then [target] else [] := by
  rw [outNeighbors, outNeighbors, vertex?_addEdge graph h]
  cases hv : graph.vertex? v with
  | none =>
    have hne : v ≠ source := fun e => by simp [e, vertex?, Array.getElem?_eq_getElem h.1] at hv
    simp [hne]
  | some x => by_cases hs : v = source <;> by_cases hl : label = l <;> simp [hs, hl]

theorem inNeighbors_addEdge (label l : EdgeLabel) :
    (graph.addEdge source target label).inNeighbors v l =
      graph.inNeighbors v l ++ if v = target ∧ label = l then [source] else [] := by
  rw [inNeighbors, inNeighbors, vertex?_addEdge graph h]
  cases hv : graph.vertex? v with
  | none =>
    have hne : v ≠ target := fun e => by simp [e, vertex?, Array.getElem?_eq_getElem h.2] at hv
    simp [hne]
  | some x => by_cases hs : v = target <;> by_cases hl : label = l <;> simp [hs, hl]

theorem flowSuccessors_addEdge_of_flow?_none {label : EdgeLabel} (hl : label.flow? = none) :
    (graph.addEdge source target label).flowSuccessors v = graph.flowSuccessors v := by
  rw [flowSuccessors, flowSuccessors, vertex?_addEdge graph h]
  cases graph.vertex? v with
  | none => rfl
  | some x => by_cases hs : v = source <;> simp [hs, hl]

theorem flowPredecessors_addEdge_of_flow?_none {label : EdgeLabel} (hl : label.flow? = none) :
    (graph.addEdge source target label).flowPredecessors v = graph.flowPredecessors v := by
  rw [flowPredecessors, flowPredecessors, vertex?_addEdge graph h]
  cases graph.vertex? v with
  | none => rfl
  | some x => by_cases hs : v = target <;> simp [hs, hl]

theorem flowSuccessors_addEdge (kind : FlowKind) :
    (graph.addEdge source target (.flow kind)).flowSuccessors v =
      graph.flowSuccessors v ++ if v = source then [(target, kind)] else [] := by
  rw [flowSuccessors, flowSuccessors, vertex?_addEdge graph h]
  cases hv : graph.vertex? v with
  | none =>
    have hne : v ≠ source := fun e => by simp [e, vertex?, Array.getElem?_eq_getElem h.1] at hv
    simp [hne]
  | some x => by_cases hs : v = source <;> simp [hs, EdgeLabel.flow?]

theorem flowPredecessors_addEdge (kind : FlowKind) :
    (graph.addEdge source target (.flow kind)).flowPredecessors v =
      graph.flowPredecessors v ++ if v = target then [(source, kind)] else [] := by
  rw [flowPredecessors, flowPredecessors, vertex?_addEdge graph h]
  cases hv : graph.vertex? v with
  | none =>
    have hne : v ≠ target := fun e => by simp [e, vertex?, Array.getElem?_eq_getElem h.2] at hv
    simp [hne]
  | some x => by_cases hs : v = target <;> simp [hs, EdgeLabel.flow?]

end

end

end CodeGraph

end ApexPaths
