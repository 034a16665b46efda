import ApexPaths.Proofs.Build.Changes
import Mathlib.Data.List.Induction
import Mathlib.Data.List.Nodup

/-!
Histories: the changes that made a graph from the empty one, in order. The labels of the vertices are those with
which they were added. The table of defining types keeps every assignment: it lists a vertex under each name that
the vertex was ever assigned, also if another name was assigned to it later, or if there was no such vertex yet. It
therefore tells the current defining types exactly as long as every assignment still stands.
-/

namespace ApexPaths
set_option autoImplicit false

open List

/-- A change of a graph. -/
inductive GraphChange where
  | vertex (label : NodeKind) (span : Span)
  | property (id : VertexId) (key : Key) (value : PropertyValue)
  | attach (parent child : VertexId)
  | edge (source target : VertexId) (label : EdgeLabel)

variable {history : List GraphChange} {id : VertexId}

namespace GraphChange

/-- The graph after a change. -/
def apply (graph : CodeGraph) : GraphChange → CodeGraph
  | .vertex label span => graph.addVertex label span
  | .property id key value => graph.setProperty id key value
  | .attach parent child => graph.addChild parent child
  | .edge source target label => graph.addEdge source target label

/-- The label of the vertex that a change adds. -/
def label? : GraphChange → Option NodeKind
  | .vertex label _ => some label
  | _ => none

/-- The edge that the change adds, if its ends are vertices. -/
def edge? : GraphChange → Option (VertexId × EdgeLabel × VertexId)
  | .attach parent child => some (parent, .child, child)
  | .edge source target label => some (source, label, target)
  | _ => none

/-- The vertex to which the change assigns a defining type of the name, in any case. -/
def assigned? (name : String) : GraphChange → Option VertexId
  | .property id (.spelled .definingType) (.text text) => if Text.lower text = Text.lower name then some id else none
  | _ => none

/-- What the change assigns to a vertex as its defining type. -/
def typed? (id : VertexId) : GraphChange → Option PropertyValue
  | .property other (.spelled .definingType) value => if other = id then some value else none
  | _ => none

/-- The changes after the one that added a vertex. -/
def sinceAdded : VertexId → List GraphChange → List GraphChange
  | _, [] => []
  | id, change :: rest =>
    match change.label?, id with
    | none, id => sinceAdded id rest
    | some _, 0 => rest
    | some _, id + 1 => sinceAdded id rest

/-- What was last assigned to a vertex as its defining type since the vertex was added. -/
def lastType? (history : List GraphChange) (id : VertexId) : Option PropertyValue :=
  (sinceAdded id history).reverse.findSome? (typed? id)

theorem filterMap_label?_concat (history : List GraphChange) (change : GraphChange) :
    (history ++ [change]).filterMap label? = history.filterMap label? ++ change.label?.toList := by
  rw [filterMap_append]
  cases h : change.label? <;> simp [h]

theorem sinceAdded_concat (id : Nat) (history : List GraphChange) (change : GraphChange) :
    sinceAdded id (history ++ [change]) =
    if id < (history.filterMap label?).length then sinceAdded id history ++ [change] else [] := by
  induction history generalizing id with
  | nil => cases id <;> cases h : change.label? <;> simp [sinceAdded, h]
  | cons first rest ih =>
    cases h : first.label? with
    | none => simpa [sinceAdded, h] using ih id
    | some label =>
      cases id with
      | zero => simp [sinceAdded, h]
      | succ id => simpa [sinceAdded, h] using ih id

theorem sinceAdded_subset (id : VertexId) (history : List GraphChange) : sinceAdded id history ⊆ history := by
  induction history generalizing id with
  | nil => exact nil_subset _
  | cons first rest ih =>
    unfold sinceAdded
    split
    · exact List.Subset.trans (ih _) (subset_cons_self ..)
    · exact subset_cons_self ..
    · exact List.Subset.trans (ih _) (subset_cons_self ..)

theorem exists_of_lastType? {text : String}
    (h : lastType? history id = some (.text text)) : .property id (.spelled .definingType) (.text text) ∈ history := by
  obtain ⟨change, hchange, htyped⟩ := exists_of_findSome?_eq_some h
  have hmem := sinceAdded_subset id history (mem_reverse.mp hchange)
  unfold typed? at htyped
  split at htyped
  · split at htyped
    · next hid => exact hid ▸ Option.some.inj htyped ▸ hmem
    · cases htyped
  · cases htyped

end GraphChange

/-! ## Graphs of histories -/

/-- The graph that changes make of the empty one. -/
def CodeGraph.ofHistory (history : List GraphChange) : CodeGraph := history.foldl GraphChange.apply {}

theorem CodeGraph.ofHistory_concat (history : List GraphChange) (change : GraphChange) :
    ofHistory (history ++ [change]) = change.apply (ofHistory history) := by
  rw [ofHistory, foldl_append]
  rfl

theorem Build.Lasting.of_history {P : CodeGraph → Prop} (lasting : Lasting P) (hempty : P {})
    (history : List GraphChange) : P (.ofHistory history) := by
  induction history using List.reverseRecOn with
  | nil => exact hempty
  | append_singleton history change ih =>
    rw [CodeGraph.ofHistory_concat]
    cases change with
    | vertex label span => exact lasting.addVertex ih label span
    | property id key value => exact lasting.setProperty ih id key value
    | attach parent child => exact lasting.addChild ih parent child
    | edge source target label => exact lasting.addEdge ih source target label

namespace CodeGraph

variable (graph : CodeGraph)

theorem addChild_keeps {α : Type} (read : CodeGraph → α)
    (hfact : ∀ graph id key value, read (setProperty graph id (.fact key) value) = read graph)
    (hedge : ∀ graph source target label, read (addEdge graph source target label) = read graph)
    (parent child : VertexId) :
    read (graph.addChild parent child) = read graph := by
  rw [addChild, hedge, hfact, hfact, hfact]
  split
  · exact hfact ..
  · rfl

/-! ## Labels -/

theorem label?_addVertex (label : NodeKind) (span : Span) (id : VertexId) :
    (graph.addVertex label span).label? id = if id = graph.vertexCount then some label else graph.label? id := by
  rw [CodeGraph.label?, vertex?_addVertex]
  split <;> rfl

theorem vertexCount_addChild (parent child : VertexId) :
    (graph.addChild parent child).vertexCount = graph.vertexCount :=
  graph.addChild_keeps vertexCount (fun _ _ _ _ => vertexCount_setProperty ..) (fun _ _ _ _ => vertexCount_addEdge ..)
  parent child

theorem label?_addChild (parent child id : VertexId) : (graph.addChild parent child).label? id = graph.label? id :=
  graph.addChild_keeps (label? · id) (fun _ _ _ _ => label?_setProperty ..) (fun _ _ _ _ => label?_addEdge ..)
  parent child

theorem label?_apply (change : GraphChange) (id : Nat) :
    (change.apply graph).vertexCount = graph.vertexCount + change.label?.toList.length ∧
      (change.apply graph).label? id = if id = graph.vertexCount then change.label?.or (graph.label? id)
      else graph.label? id := by
  cases change with
  | vertex label span => exact ⟨vertexCount_addVertex .., label?_addVertex ..⟩
  | property => exact ⟨vertexCount_setProperty .., by simp [GraphChange.apply, GraphChange.label?]⟩
  | attach => exact ⟨vertexCount_addChild .., by simp [GraphChange.apply, GraphChange.label?, label?_addChild]⟩
  | edge => exact ⟨vertexCount_addEdge .., by simp [GraphChange.apply, GraphChange.label?]⟩

theorem label?_ofHistory (history : List GraphChange) :
    (ofHistory history).vertexCount = (history.filterMap GraphChange.label?).length ∧
      ∀ id : Nat, (ofHistory history).label? id = (history.filterMap GraphChange.label?)[id]? := by
  induction history using List.reverseRecOn with
  | nil => exact ⟨rfl, fun id => by simp [ofHistory, label?, vertex?]⟩
  | append_singleton history change ih =>
    obtain ⟨hcount, hlabel⟩ := ih
    rw [ofHistory_concat, GraphChange.filterMap_label?_concat]
    refine ⟨by rw [(label?_apply _ change 0).1, hcount, length_append], fun id => ?_⟩
    rw [(label?_apply _ change id).2, hlabel, hcount]
    cases change.label? with
    | none => simp
    | some label => grind

/-! ## Edges -/

theorem outNeighbors_addVertex (label : NodeKind) (span : Span) (v : VertexId) (l : EdgeLabel) :
    (graph.addVertex label span).outNeighbors v l = graph.outNeighbors v l := by
  rw [outNeighbors, outNeighbors, vertex?_addVertex]
  by_cases hv : v = graph.vertexCount
  · rw [if_pos hv, show graph.vertex? v = none from Array.getElem?_eq_none (Nat.le_of_eq hv.symm)]
    rfl
  · rw [if_neg hv]

theorem outNeighbors_addChild (parent child v : Nat) (l : EdgeLabel) : (graph.addChild parent child).outNeighbors v l =
    (graph.addEdge parent child .child).outNeighbors v l := by
  by_cases h : parent < graph.vertexCount ∧ child < graph.vertexCount
  · rw [addChild, outNeighbors_addEdge, outNeighbors_addEdge _ h]
    · split <;> simp
    · split <;> simpa using h
  · rw [addChild, addEdge, addEdge, if_neg h, if_neg]
    · split <;> simp
    · split <;> simpa using h

theorem mem_outNeighbors_apply (change : GraphChange) (v w : Nat) (label : EdgeLabel) :
    w ∈ (change.apply graph).outNeighbors v label ↔
      w ∈ graph.outNeighbors v label ∨ change.edge? = some (v, label, w) ∧ v < graph.vertexCount ∧
      w < graph.vertexCount := by
  have hadded : ∀ source target : Nat, ∀ l, w ∈ (graph.addEdge source target l).outNeighbors v label ↔
      w ∈ graph.outNeighbors v label ∨ (source, l, target) = (v, label, w) ∧ v < graph.vertexCount ∧
      w < graph.vertexCount := by
    intro source target l
    by_cases h : source < graph.vertexCount ∧ target < graph.vertexCount
    · rw [outNeighbors_addEdge _ h]
      grind
    · rw [addEdge, if_neg h]
      grind
  cases change with
  | vertex label' span => simp [GraphChange.apply, GraphChange.edge?, outNeighbors_addVertex]
  | property => simp [GraphChange.apply, GraphChange.edge?]
  | attach parent child =>
    rw [GraphChange.apply, outNeighbors_addChild, hadded, GraphChange.edge?, Option.some.injEq]
  | edge source target l => rw [GraphChange.apply, hadded, GraphChange.edge?, Option.some.injEq]

/-- The edges of a graph are those that were added between vertices. -/
theorem mem_outNeighbors_ofHistory {v w : Nat} {label : EdgeLabel} :
    w ∈ (ofHistory history).outNeighbors v label ↔ ∃ before change after, history = before ++ change :: after ∧
      change.edge? = some (v, label, w) ∧ v < (ofHistory before).vertexCount ∧ w < (ofHistory before).vertexCount := by
  induction history using List.reverseRecOn with
  | nil => simp [ofHistory, outNeighbors, vertex?]
  | append_singleton history change ih =>
    rw [ofHistory_concat, mem_outNeighbors_apply, ih]
    constructor
    · rintro (⟨before, earlier, after, rfl, hearlier⟩ | hchange)
      · exact ⟨before, earlier, after ++ [change], by simp, hearlier⟩
      · exact ⟨history, change, [], rfl, hchange⟩
    · rintro ⟨before, found, after, hsplit, hfound⟩
      rcases eq_nil_or_concat after with rfl | ⟨after, last, rfl⟩
      · obtain ⟨rfl, hlast⟩ := append_inj' hsplit rfl
        exact .inr (singleton_inj.mp hlast ▸ hfound)
      · rw [concat_eq_append, ← cons_append, ← List.append_assoc] at hsplit
        exact .inl ⟨before, found, after, (append_inj' hsplit rfl).1, hfound⟩

/-! ## The table of defining types -/

/-- A list of vertices with one more, unless it is there. -/
def enterOnce (members : List VertexId) (id : VertexId) : List VertexId :=
  if members.contains id then members else members ++ [id]

theorem mem_enterOnce {members : List VertexId} {other : VertexId} :
    other ∈ enterOnce members id ↔ other = id ∨ other ∈ members := by
  rw [enterOnce]
  split
  · next hmem =>
    have hmem : id ∈ members := by simpa using hmem
    exact ⟨.inr, fun h => h.elim (fun hid => hid ▸ hmem) fun hother => hother⟩
  · rw [mem_append, mem_singleton, or_comm]

theorem nodup_enterOnce {members : List VertexId} (h : members.Nodup) (id : VertexId) :
    (enterOnce members id).Nodup := by
  rw [enterOnce]
  split
  · exact h
  · next hnot =>
    exact nodup_append.mpr ⟨h, nodup_singleton id, by grind⟩

/-- The vertices that a table lists under a name. -/
def members (table : List (String × List VertexId)) (name : String) : List VertexId :=
  ((table.find? (·.1 == name)).map (·.2)).getD []

theorem members_enterType (table : List (String × List VertexId)) (entered name : String) (id : VertexId) :
    members (enterType table entered id) name =
      if entered = name then enterOnce (members table name) id else members table name := by
  induction table with
  | nil => by_cases h : entered = name <;> simp [enterType, members, enterOnce, h]
  | cons entry rest ih =>
    obtain ⟨first, ids⟩ := entry
    simp only [members] at ih ⊢
    rw [enterType]
    by_cases hfirst : first = entered
    · by_cases h : entered = name <;> simp [hfirst, h, enterOnce]
    · rw [if_neg (by simpa using hfirst)]
      by_cases hname : first = name
      · simp [hname, show entered ≠ name from fun h => hfirst (hname.trans h.symm)]
      · simpa [hname] using ih

theorem withDefiningType_addEdge (source target : VertexId) (label : EdgeLabel) (name : String) :
    (graph.addEdge source target label).withDefiningType name = graph.withDefiningType name := by
  rw [addEdge]
  split <;> rfl

theorem withDefiningType_addChild (parent child : VertexId) (name : String) :
    (graph.addChild parent child).withDefiningType name = graph.withDefiningType name :=
  graph.addChild_keeps (withDefiningType · name) (fun _ _ _ _ => rfl) (fun _ _ _ _ => withDefiningType_addEdge ..)
  parent child

/-- A change enters at most the vertex to which it assigns the type. -/
theorem withDefiningType_apply (change : GraphChange) (name : String) : (change.apply graph).withDefiningType name =
    match change.assigned? name with
    | some id => enterOnce (graph.withDefiningType name) id
    | none => graph.withDefiningType name := by
  cases change with
  | vertex => rfl
  | attach parent child => exact graph.withDefiningType_addChild parent child name
  | edge source target label => exact graph.withDefiningType_addEdge source target label name
  | property id key value =>
    cases key with
    | folded => rfl
    | fact => rfl
    | spelled key =>
      cases key
      case definingType =>
        cases value with
        | text text =>
          refine (members_enterType ..).trans ?_
          by_cases h : Text.lower text = Text.lower name <;> simp [GraphChange.assigned?, h] <;> rfl
        | _ => rfl
      all_goals rfl

theorem withDefiningType_ofHistory (history : List GraphChange) (name : String) :
    ((ofHistory history).withDefiningType name).Nodup ∧
      ∀ id, id ∈ (ofHistory history).withDefiningType name ↔ ∃ change ∈ history, change.assigned? name = some id := by
  induction history using List.reverseRecOn with
  | nil => exact ⟨nodup_nil, fun id => by simp [ofHistory, withDefiningType]⟩
  | append_singleton history change ih =>
    obtain ⟨hnodup, hmem⟩ := ih
    rw [ofHistory_concat, withDefiningType_apply]
    cases hassigned : change.assigned? name with
    | none => exact ⟨hnodup, fun id => by simp [hmem, hassigned]⟩
    | some other =>
      exact ⟨nodup_enterOnce hnodup other, fun id => by simp [mem_enterOnce, hmem, hassigned, or_comm, eq_comm]⟩

/-! ## Current defining types -/

theorem property?_setProperty (id v : Nat) (key : Key) (value : PropertyValue) {k : Key} (hk : k.isFolded = false) :
    (graph.setProperty id key value).property? v k =
      if v = id ∧ key = k ∧ v < graph.vertexCount then some value else graph.property? v k := by
  rw [property?, property?, vertex?_setProperty]
  by_cases hv : v < graph.vertexCount
  · rw [show graph.vertex? v = some graph.vertices[v] from Array.getElem?_eq_getElem hv]
    by_cases hid : v = id
    · simp [hid, hid ▸ hv, PropertyMap.get?_assign _ _ _ hk]
    · simp [hid]
  · rw [show graph.vertex? v = none from Array.getElem?_eq_none (Nat.le_of_not_lt hv)]
    simp [hv]

theorem property?_addChild (parent child v : VertexId) (key : NameKey) :
    (graph.addChild parent child).property? v (.spelled key) = graph.property? v (.spelled key) :=
  graph.addChild_keeps (property? · v (.spelled key)) (fun _ _ _ _ => property?_setProperty_of_ne _ (.inr (by simp)) _)
    (fun _ _ _ _ => property?_addEdge ..) parent child

theorem property?_addVertex (label : NodeKind) (span : Span) (v : VertexId) (key : NameKey) :
    (graph.addVertex label span).property? v (.spelled key) =
      if v = graph.vertexCount then none else graph.property? v (.spelled key) := by
  rw [property?, vertex?_addVertex]
  split <;> rfl

theorem property?_eq_none_of_le {v : Nat} (h : graph.vertexCount ≤ v) (key : Key) : graph.property? v key = none := by
  rw [property?, show graph.vertex? v = none from Array.getElem?_eq_none h]
  rfl

theorem property?_apply (change : GraphChange) (v : Nat) : (change.apply graph).property? v (.spelled .definingType) =
    if v < graph.vertexCount then (change.typed? v).or (graph.property? v (.spelled .definingType)) else none := by
  have hnone : ¬v < graph.vertexCount → graph.property? v (.spelled .definingType) = none :=
    fun h => graph.property?_eq_none_of_le (Nat.le_of_not_lt h) _
  cases change with
  | vertex label span =>
    rw [GraphChange.apply, property?_addVertex]
    grind [GraphChange.typed?]
  | attach => exact (property?_addChild ..).trans (by grind [GraphChange.typed?])
  | edge => exact (property?_addEdge ..).trans (by grind [GraphChange.typed?])
  | property id key value =>
    rw [GraphChange.apply, property?_setProperty _ _ _ _ _ rfl]
    by_cases hkey : key = .spelled .definingType
    · subst hkey
      rw [GraphChange.typed?]
      grind
    · have htyped : (GraphChange.property id key value).typed? v = none := by
        cases key with
        | spelled key => cases key <;> first | rfl | exact absurd rfl hkey
        | _ => rfl
      rw [if_neg fun h => hkey h.2.1, htyped]
      grind

theorem property?_ofHistory (history : List GraphChange) (id : Nat) :
    (ofHistory history).property? id (.spelled .definingType) = GraphChange.lastType? history id := by
  induction history using List.reverseRecOn with
  | nil => exact property?_eq_none_of_le _ (Nat.zero_le id) _
  | append_singleton history change ih =>
    rw [ofHistory_concat, property?_apply, ih, (label?_ofHistory history).1, GraphChange.lastType?,
      GraphChange.lastType?, GraphChange.sinceAdded_concat]
    split
    · rw [reverse_append, reverse_singleton, singleton_append, List.findSome?_cons]
      cases change.typed? id <;> rfl
    · rfl

/-- The vertex is there, and its current defining type is the name, in any case. -/
def IsOfType (id : VertexId) (name : String) : Prop :=
  ∃ text, graph.definingType? id = some text ∧ Text.lower text = Text.lower name

theorem definingType?_ofHistory {text : String} :
    (ofHistory history).definingType? id = some text ↔ GraphChange.lastType? history id = some (.text text) := by
  rw [definingType?, text?_eq, property?_ofHistory, Option.bind_eq_some_iff]
  constructor
  · rintro ⟨value, hvalue, htext⟩
    cases value with
    | text value => rw [hvalue, Option.some.inj htext]
    | _ => cases htext
  · exact fun h => ⟨_, h, rfl⟩

theorem mem_withDefiningType_of_isOfType {history : List GraphChange} {id : VertexId} {name : String}
    (h : (ofHistory history).IsOfType id name) : id ∈ (ofHistory history).withDefiningType name := by
  obtain ⟨text, htext, hname⟩ := h
  have hassigned := GraphChange.exists_of_lastType? (definingType?_ofHistory.mp htext)
  exact ((withDefiningType_ofHistory history name).2 id).mpr ⟨_, hassigned, if_pos hname⟩

/-- The tables after any history. By defining type, a vertex is listed once under each name that was ever assigned
to it, its current defining type among them; so a name lists exactly the vertices of the type if and only if each
assignment of the name still stands. By label, the vertices are listed once and in the order in which they were
added with the label. -/
theorem indexes_ofHistory (history : List GraphChange) :
    (∀ name,
      ((ofHistory history).withDefiningType name).Nodup ∧
      (∀ id, id ∈ (ofHistory history).withDefiningType name ↔ ∃ change ∈ history, change.assigned? name = some id) ∧
      (∀ id, (ofHistory history).IsOfType id name ↔
        ∃ text, GraphChange.lastType? history id = some (.text text) ∧ Text.lower text = Text.lower name) ∧
      (∀ id, (ofHistory history).IsOfType id name → id ∈ (ofHistory history).withDefiningType name) ∧
      ((∀ id, id ∈ (ofHistory history).withDefiningType name ↔ (ofHistory history).IsOfType id name) ↔
        ∀ change ∈ history, ∀ id, change.assigned? name = some id → (ofHistory history).IsOfType id name)) ∧
    ∀ label,
      ((ofHistory history).withLabel label).Pairwise (· < ·) ∧
      (∀ id, id ∈ (ofHistory history).withLabel label ↔ (ofHistory history).label? id = some label) ∧
      ∀ id : Nat, (ofHistory history).label? id = (history.filterMap GraphChange.label?)[id]? := by
  refine ⟨fun name => ?_, fun label => ⟨?_, fun id => ?_, (label?_ofHistory history).2⟩⟩
  · obtain ⟨hnodup, hmem⟩ := withDefiningType_ofHistory history name
    have hcurrent : ∀ id, (ofHistory history).IsOfType id name → id ∈ (ofHistory history).withDefiningType name :=
      fun _ => mem_withDefiningType_of_isOfType
    refine ⟨hnodup, hmem, fun id => by simp only [IsOfType, definingType?_ofHistory], hcurrent, ?_⟩
    constructor
    · exact fun hexact change hchange id hassigned => (hexact id).mp ((hmem id).mpr ⟨change, hchange, hassigned⟩)
    · refine fun hstands id => ⟨fun hid => ?_, hcurrent id⟩
      obtain ⟨change, hchange, hassigned⟩ := (hmem id).mp hid
      exact hstands change hchange id hassigned
  · exact pairwise_withLabel _ label
  · rw [mem_withLabel, is_iff]

/-- A class that is given another defining type is still listed under the first one. -/
theorem withDefiningType_stale :
    let graph := ofHistory [.vertex .userClass ⟨1, 1, 1, 1⟩, .property 0 (.spelled .definingType) (.text "A"),
      .property 0 (.spelled .definingType) (.text "B")]
    0 ∈ graph.withDefiningType "A" ∧ graph.definingType? 0 = some "B" ∧ ¬graph.IsOfType 0 "A" := by
  intro graph
  have htype : graph.definingType? 0 = some "B" := by decide
  refine ⟨by decide, htype, ?_⟩
  rintro ⟨text, htext, hname⟩
  cases htype.symm.trans htext
  exact absurd hname (by decide)

end CodeGraph

end ApexPaths
