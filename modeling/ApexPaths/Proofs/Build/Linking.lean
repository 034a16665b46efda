import ApexPaths.Build.Basic
import ApexPaths.Proofs.Build.Supertypes

/-!
What linking types leaves in a graph. Each reference of a type is read under some names; the first type that is
declared under one of them is meant. Every reference that means a type gives one edge and one edge back, in the
order of the types and of their references; the others are listed on their type. Nothing else changes.
-/

namespace ApexPaths.Build
set_option autoImplicit false

open Source CodeGraph ApexPaths.Flow List

/-! ## References -/

section
variable (graph : CodeGraph)

/-- A type refers to its superclass first, then to its interfaces in their order. -/
theorem map_fst_supertypeReferences (id : VertexId) : (supertypeReferences graph id).map Prod.fst =
    (graph.text? id (.spelled .superClassName)).toList ++ graph.texts id (.spelled .interfaceNames) := by
  rw [supertypeReferences, map_append, map_map]
  cases graph.text? id (.spelled .superClassName) <;> simp [Function.comp_def]

variable {graph} {id : VertexId}

/-- An interface extends all that it refers to. -/
theorem supertypeReferences_of_interface (h : graph.is id .userInterface = true) :
    ∀ reference ∈ supertypeReferences graph id, reference.2 = .extensionOf := by
  intro reference href
  rw [supertypeReferences, h, if_pos rfl] at href
  rcases mem_append.mp href with href | href
  · obtain ⟨name, -, rfl⟩ := Option.map_eq_some_iff.mp (Option.mem_toList.mp href)
    rfl
  · obtain ⟨name, -, rfl⟩ := mem_map.mp href
    rfl

/-- A class or an enum extends its superclass and implements its interfaces. -/
theorem supertypeReferences_of_class (h : graph.is id .userInterface = false) :
    ((supertypeReferences graph id).filter (·.2 == .extensionOf)).map Prod.fst =
        (graph.text? id (.spelled .superClassName)).toList ∧
      ((supertypeReferences graph id).filter (·.2 == .implementationOf)).map Prod.fst =
        graph.texts id (.spelled .interfaceNames) := by
  simp only [supertypeReferences, h]
  generalize graph.text? id (.spelled .superClassName) = superclass
  constructor <;> cases superclass <;> simp [filter_map, Function.comp_def]

end

/-! ## The meaning of a reference -/

section
variable (graph : CodeGraph)

/-- The first type that is declared under a name, which is in lower case. -/
def declared? (name : String) : Option VertexId :=
  (typeDeclarations graph).find? fun id => (graph.definingType? id).map Text.lower == some name

/-- The names that a reference in a type may stand for: a type inside, a type beside, a type of that name. -/
def readings (id : VertexId) (reference : String) : List String :=
  let name := Text.lower (TypeName.base reference)
  let inside (key : NameKey) : List String :=
    ((graph.text? id (.folded key)).map fun scope => scope ++ "." ++ name).toList
  if name.toList.contains '.' then [name] else inside .definingType ++ inside .outerType ++ [name]

/-- The declaration that a reference means: the first of its readings that is declared. -/
def meant? (id : VertexId) (reference : String) : Option VertexId :=
  (readings graph id reference).findSome? (declared? graph)

theorem lookup?_eq_declared? (name : String) : lookup? (typeTable graph) name = declared? graph name := by
  have hkey : (fun id => ((graph.definingType? id).map fun text => (Text.lower text, id)).any (·.1 == name)) =
      fun id => (graph.definingType? id).map Text.lower == some name := by
    funext id
    cases graph.definingType? id <;> simp
  rw [lookup?, typeTable, declared?, List.find?_filterMap, hkey]
  cases hfound : (typeDeclarations graph).find? fun id => (graph.definingType? id).map Text.lower == some name with
  | none => rfl
  | some id =>
    have hname := List.find?_some hfound
    obtain ⟨text, htext, -⟩ := Option.map_eq_some_iff.mp (beq_iff_eq.mp hname)
    simp [htext]

theorem resolveSupertype?_eq_meant? (id : VertexId) (reference : String) :
    resolveSupertype? graph (typeTable graph) id reference = meant? graph id reference := by
  have hlookup : lookup? (typeTable graph) = declared? graph := funext (lookup?_eq_declared? graph)
  rw [resolveSupertype?, meant?, readings, hlookup]
  simp only []
  split
  · simp
  · rfl

end

/-! ## Links -/

/-- A reference of one type that means another, with the label of its edge. -/
structure Link where
  source : VertexId
  target : VertexId
  label : EdgeLabel

/-- An edge by its source, its label and its target. -/
abbrev Edge := VertexId × EdgeLabel × VertexId

/-- The label of the edge back from a supertype. -/
def backLabel : EdgeLabel → EdgeLabel
  | .extensionOf => .extendedBy
  | _ => .implementedBy

/-- The two edges of a link, there and back. -/
def Link.edges (link : Link) : List Edge :=
  [(link.source, link.label, link.target), (link.target, backLabel link.label, link.source)]

section
variable (graph : CodeGraph)

/-- The links of a type in the order of its references. -/
def linksOf (id : VertexId) : List Link :=
  (supertypeReferences graph id).filterMap fun r => (meant? graph id r.1).map fun target => ⟨id, target, r.2⟩

/-- The references of a type that mean nothing, in their order. -/
def unknownOf (id : VertexId) : List String :=
  ((supertypeReferences graph id).filter fun r => (meant? graph id r.1).isNone).map (·.1)

def allLinks : List Link := (typeDeclarations graph).flatMap (linksOf graph)

def allUnknown : List String := (typeDeclarations graph).flatMap (unknownOf graph)

end

theorem length_linksOf_add_length_unknownOf (graph : CodeGraph) (id : VertexId) :
    (linksOf graph id).length + (unknownOf graph id).length = (supertypeReferences graph id).length := by
  rw [linksOf, unknownOf]
  induction supertypeReferences graph id with
  | nil => rfl
  | cons r rest ih =>
    cases hmeant : meant? graph id r.1 <;> simp [hmeant] at ih ⊢ <;> omega

/-! ## More edges -/

/-- What edges out of a vertex lead to, in their order. -/
def leaving (edges : List Edge) (v : VertexId) : List (EdgeLabel × VertexId) :=
  edges.filterMap fun edge => if edge.1 = v then some edge.2 else none

/-- What edges into a vertex come from, in their order. -/
def entering (edges : List Edge) (v : VertexId) : List (EdgeLabel × VertexId) :=
  edges.filterMap fun edge => if edge.2.2 = v then some (edge.2.1, edge.1) else none

/-- A vertex with those of some more edges that touch it. -/
def withEdges (edges : List Edge) (v : VertexId) (vertex : Vertex) : Vertex :=
  { vertex with
    outgoing := vertex.outgoing ++ (leaving edges v).toArray
    incoming := vertex.incoming ++ (entering edges v).toArray }

/-- The graph with edges added in their order. -/
def addEdges (graph : CodeGraph) (edges : List Edge) : CodeGraph :=
  edges.foldl (fun graph edge => graph.addEdge edge.1 edge.2.2 edge.2.1) graph

theorem withEdges_append (first second : List Edge) (v : VertexId) (vertex : Vertex) :
    withEdges (first ++ second) v vertex = withEdges second v (withEdges first v vertex) := by
  simp [withEdges, leaving, entering, filterMap_append]

theorem vertex?_addEdges {graph : CodeGraph} {edges : List Edge}
    (hrange : ∀ edge ∈ edges, (edge.1 : Nat) < graph.vertexCount ∧ (edge.2.2 : Nat) < graph.vertexCount)
    (v : VertexId) :
    (addEdges graph edges).vertex? v = (graph.vertex? v).map (withEdges edges v) := by
  induction edges generalizing graph with
  | nil => cases hv : graph.vertex? v <;> simp [addEdges, withEdges, leaving, entering, hv]
  | cons edge rest ih =>
    obtain ⟨source, label, target⟩ := edge
    obtain ⟨hedge, hrest⟩ := forall_mem_cons.mp hrange
    have hstep : addEdges graph ((source, label, target) :: rest) = addEdges (graph.addEdge source target label) rest :=
      rfl
    rw [hstep, ih (by simpa using hrest), vertex?_addEdge graph hedge, Option.map_map]
    congr 1
    funext vertex
    by_cases hsource : source = v <;> by_cases htarget : target = v <;>
      simp [withEdges, leaving, entering, hsource, htarget, eq_comm (a := v)]

theorem edgeCount_addEdges {graph : CodeGraph} {edges : List Edge}
    (hrange : ∀ edge ∈ edges, (edge.1 : Nat) < graph.vertexCount ∧ (edge.2.2 : Nat) < graph.vertexCount) :
    (addEdges graph edges).edgeCount = graph.edgeCount + edges.length := by
  induction edges generalizing graph with
  | nil => rfl
  | cons edge rest ih =>
    obtain ⟨hedge, hrest⟩ := forall_mem_cons.mp hrange
    have hstep : addEdges graph (edge :: rest) = addEdges (graph.addEdge edge.1 edge.2.2 edge.2.1) rest := rfl
    have hone : (graph.addEdge edge.1 edge.2.2 edge.2.1).edgeCount = graph.edgeCount + 1 := by
      rw [addEdge, if_pos hedge]
    rw [hstep, ih (by simpa using hrest), hone, length_cons]
    omega

/-! ## Linking a type, and all types -/

/-- The graph after the supertypes of one type were linked; those not found are noted on it. -/
def linkType (start graph : CodeGraph) (id : VertexId) : CodeGraph :=
  let graph := addEdges graph ((linksOf start id).flatMap Link.edges)
  if unknownOf start id = [] then graph
    else graph.setProperty id (.fact .unresolvedSupertypes) (.texts (unknownOf start id))

section
variable {α β : Type} {graph graph' : CodeGraph} {b : β}

theorem run_bind_ok {x : Change α} {f : α → Change β} :
    (x >>= f).run graph = (.ok b, graph') ↔ ∃ a mid, x.run graph = (.ok a, mid) ∧ (f a).run mid = (.ok b, graph') := by
  rw [run_bind]
  rcases x.run graph with ⟨error | a, mid⟩
  · constructor
    · intro h
      cases h
    · rintro ⟨a, mid', h, -⟩
      cases h
  · constructor
    · exact fun h => ⟨a, mid, rfl, h⟩
    · rintro ⟨a', mid', h, hf⟩
      cases h
      exact hf

theorem run_pure_ok {a : β} : (pure a : Change β).run graph = (.ok b, graph') ↔ a = b ∧ graph = graph' := by
  constructor
  · intro h
    cases h
    exact ⟨rfl, rfl⟩
  · rintro ⟨rfl, rfl⟩
    rfl

theorem run_get_bind_ok {f : CodeGraph → Change β} :
    (get >>= f).run graph = (.ok b, graph') ↔ (f graph).run graph = (.ok b, graph') := Iff.rfl

theorem run_modify_bind_ok {change : CodeGraph → CodeGraph} {f : Unit → Change β} :
    (modify change >>= f).run graph = (.ok b, graph') ↔ (f ()).run (change graph) = (.ok b, graph') := Iff.rfl

end

theorem link_eq {graph : CodeGraph} {source target : VertexId} {label : EdgeLabel} (h : IsInheritance label) :
    link graph source target label = addEdges graph (Link.edges ⟨source, target, label⟩) := by
  rcases h with rfl | rfl <;> rfl

section
variable {start : CodeGraph}

theorem lt_of_meant? {id target : VertexId} {reference : String} (h : meant? start id reference = some target) :
    (target : Nat) < start.vertexCount := by
  obtain ⟨name, -, hname⟩ := exists_of_findSome?_eq_some h
  exact lt_of_mem_typeDeclarations (mem_of_find?_eq_some hname)

/-- Linking the references of a type adds the edges of those that are found, and gives back the rest. -/
theorem linkReferences_ok {id : VertexId} (hid : (id : Nat) < start.vertexCount) (refs : List (String × EdgeLabel))
    (hlabels : ∀ r ∈ refs, IsInheritance r.2) {graph graph' : CodeGraph} (same : start.SameTree graph) {count : Nat}
    {names : List String}
    (h : (linkReferences (typeTable start) id refs).run graph = (.ok (count, names), graph')) :
    let links := refs.filterMap fun r => (meant? start id r.1).map fun target => Link.mk id target r.2
    count = links.length ∧ names = (refs.filter fun r => (meant? start id r.1).isNone).map (·.1) ∧
      graph' = addEdges graph (links.flatMap Link.edges) ∧ start.SameTree graph' := by
  induction refs generalizing graph graph' count names with
  | nil =>
    obtain ⟨hvalue, rfl⟩ := run_pure_ok.mp h
    cases hvalue
    exact ⟨rfl, rfl, rfl, same⟩
  | cons r rest ih =>
    obtain ⟨reference, label⟩ := r
    obtain ⟨hlabel, hrest⟩ := forall_mem_cons.mp hlabels
    unfold linkReferences at h
    rw [run_get_bind_ok, resolveSupertype?_congr same, resolveSupertype?_eq_meant?] at h
    cases hmeant : meant? start id reference with
    | none =>
      rw [hmeant] at h
      obtain ⟨⟨edges, unknown⟩, mid, hmore, hlast⟩ := run_bind_ok.mp h
      obtain ⟨hvalue, rfl⟩ := run_pure_ok.mp hlast
      cases hvalue
      obtain ⟨rfl, rfl, rfl, hsame⟩ := ih hrest same hmore
      simpa [hmeant] using hsame
    | some target =>
      simp only [hmeant] at h
      by_cases hself : target = id
      · rw [if_pos hself] at h
        cases h
      · rw [if_neg hself, run_modify_bind_ok] at h
        obtain ⟨⟨edges, unknown⟩, mid, hmore, hlast⟩ := run_bind_ok.mp h
        obtain ⟨hvalue, rfl⟩ := run_pure_ok.mp hlast
        cases hvalue
        have hrange : (id : Nat) < graph.vertexCount ∧ (target : Nat) < graph.vertexCount := by
          rw [same.vertexCount_eq]
          exact ⟨hid, lt_of_meant? hmeant⟩
        obtain ⟨rfl, rfl, rfl, hsame⟩ := ih hrest (same.trans (linked_link hrange hlabel).sameTree) hmore
        refine ⟨?_, ?_, ?_, hsame⟩
        · simp [hmeant]
        · simp [hmeant]
        · rw [link_eq hlabel]
          simp [hmeant, addEdges]

/-- Linking goes through the types one by one and counts what it finds and what it does not. -/
theorem linkTypes_ok (types : List VertexId) (htypes : ∀ id ∈ types, (id : Nat) < start.vertexCount)
    {graph final : CodeGraph} (same : start.SameTree graph) {count unknown : Nat}
    (h : (linkTypes (typeTable start) types).run graph = (.ok (count, unknown), final)) :
    count = (types.flatMap (linksOf start)).length ∧ unknown = (types.flatMap (unknownOf start)).length ∧
      final = types.foldl (linkType start) graph := by
  induction types generalizing graph count unknown with
  | nil =>
    obtain ⟨hvalue, rfl⟩ := run_pure_ok.mp h
    cases hvalue
    exact ⟨rfl, rfl, rfl⟩
  | cons id rest ih =>
    obtain ⟨hid, hrest⟩ := forall_mem_cons.mp htypes
    rw [linkTypes, run_get_bind_ok, supertypeReferences_congr same] at h
    obtain ⟨⟨edges, names⟩, mid, hlinks, h⟩ := run_bind_ok.mp h
    obtain ⟨rfl, rfl, rfl, hsame⟩ := linkReferences_ok hid _ (fun r => isInheritance_of_mem) same hlinks
    -- With or without a record of unknown names, the rest goes on in the graph of this type.
    have hgo : ∀ {graph' : CodeGraph}, graph' = linkType start graph id → start.SameTree graph' →
        (linkTypes (typeTable start) rest >>= fun more =>
        pure ((linksOf start id).length + more.1, (unknownOf start id).length + more.2) : Change (Nat × Nat)).run
        graph' = (.ok (count, unknown), final) → count = ((id :: rest).flatMap (linksOf start)).length ∧
            unknown = ((id :: rest).flatMap (unknownOf start)).length ∧
            final = (id :: rest).foldl (linkType start) graph := by
      rintro _ rfl hnext h
      obtain ⟨⟨edges, names⟩, mid, hmore, hlast⟩ := run_bind_ok.mp h
      obtain ⟨hvalue, rfl⟩ := run_pure_ok.mp hlast
      cases hvalue
      obtain ⟨rfl, rfl, rfl⟩ := ih hrest hnext hmore
      simp
    change (if (!(unknownOf start id).isEmpty) = true then _ else _ : Change (Nat × Nat)).run _ = _ at h
    by_cases hunknown : unknownOf start id = []
    · rw [if_neg (by simp [hunknown])] at h
      exact hgo (by rw [linkType, if_pos hunknown]; rfl) hsame h
    · rw [if_pos (by simpa using hunknown), run_modify_bind_ok] at h
      exact hgo (by rw [linkType, if_neg hunknown]; rfl) (hsame.trans (.of_setProperty _ id rfl _)) h

end

/-! ## What linking leaves -/

section
variable (start : CodeGraph)

def edgesOf (types : List VertexId) : List Edge := (types.flatMap (linksOf start)).flatMap Link.edges

/-- The properties of a vertex when some types are linked: a type lists what it mentions in vain. -/
def recorded (types : List VertexId) (v : VertexId) (props : PropertyMap) : PropertyMap :=
  if v ∈ types ∧ unknownOf start v ≠ [] then props.assign (.fact .unresolvedSupertypes) (.texts (unknownOf start v))
    else props

variable {start}

theorem lt_of_mem_edges {id : VertexId} (hid : (id : Nat) < start.vertexCount) :
    ∀ edge ∈ (linksOf start id).flatMap Link.edges, (edge.1 : Nat) < start.vertexCount ∧
    (edge.2.2 : Nat) < start.vertexCount := by
  intro edge hedge
  obtain ⟨link, hlink, hedge⟩ := mem_flatMap.mp hedge
  obtain ⟨r, -, hr⟩ := mem_filterMap.mp hlink
  obtain ⟨target, hmeant, rfl⟩ := Option.map_eq_some_iff.mp hr
  have htarget := lt_of_meant? hmeant
  rcases mem_cons.mp hedge with rfl | hback
  · exact ⟨hid, htarget⟩
  · rw [mem_singleton.mp hback]
    exact ⟨htarget, hid⟩

theorem edgesOf_cons (id : VertexId) (rest : List VertexId) :
    edgesOf start (id :: rest) = (linksOf start id).flatMap Link.edges ++ edgesOf start rest := by
  rw [edgesOf, flatMap_cons, flatMap_append, edgesOf]

theorem length_edgesOf (types : List VertexId) :
    (edgesOf start types).length = 2 * (types.flatMap (linksOf start)).length := by
  rw [edgesOf]
  induction types.flatMap (linksOf start) with
  | nil => rfl
  | cons link rest ih =>
    rw [flatMap_cons, length_append, ih, length_cons]
    simp only [Link.edges, length_cons, length_nil]
    omega

@[simp] theorem vertexCount_addEdges (graph : CodeGraph) (edges : List Edge) :
    (addEdges graph edges).vertexCount = graph.vertexCount := by
  induction edges generalizing graph with
  | nil => rfl
  | cons edge rest ih => exact (ih _).trans (by simp)

@[simp] theorem vertexCount_linkType (graph : CodeGraph) (id : VertexId) :
    (linkType start graph id).vertexCount = graph.vertexCount := by
  simp only [linkType]
  split <;> simp

theorem recorded_cons {id : VertexId} {rest : List VertexId} (hfresh : id ∉ rest) (v : VertexId) (props : PropertyMap) :
    recorded start (id :: rest) v props = recorded start rest v (recorded start [id] v props) := by
  by_cases hv : v = id
  · subst hv
    simp [recorded, hfresh]
  · simp [recorded, hv]

/-- What linking leaves at a vertex: the edges of all links there and the references that were not found. -/
theorem linkTypes_vertex? {types : List VertexId} (htypes : ∀ id ∈ types, (id : Nat) < start.vertexCount)
    (hnodup : types.Nodup) {graph : CodeGraph} (hcount : graph.vertexCount = start.vertexCount) (v : VertexId) :
    (types.foldl (linkType start) graph).vertex? v = (graph.vertex? v).map fun x =>
      { withEdges (edgesOf start types) v x with props := recorded start types v x.props } := by
  induction types generalizing graph with
  | nil => cases hv : graph.vertex? v <;> simp [hv, edgesOf, recorded, withEdges, leaving, entering]
  | cons id rest ih =>
    obtain ⟨hid, hrest⟩ := forall_mem_cons.mp htypes
    obtain ⟨hfresh, hdistinct⟩ := nodup_cons.mp hnodup
    have hrange := lt_of_mem_edges hid
    rw [← hcount] at hrange
    have hone : (linkType start graph id).vertex? v = (graph.vertex? v).map fun x =>
        { withEdges ((linksOf start id).flatMap Link.edges) v x with props := recorded start [id] v x.props } := by
      rw [linkType]
      by_cases hunknown : unknownOf start id = []
      · have hsame : ∀ props, recorded start [id] v props = props := by
          intro props
          rw [recorded, if_neg]
          rintro ⟨hv, hne⟩
          rw [mem_singleton.mp hv] at hne
          exact hne hunknown
        simp only [hunknown, if_true, vertex?_addEdges hrange, hsame]
        rfl
      · simp only [hunknown, if_false]
        rw [vertex?_setProperty, vertex?_addEdges hrange, Option.map_map]
        congr 1
        funext x
        by_cases hv : v = id
        · subst hv
          simp [recorded, hunknown, withEdges]
        · simp [recorded, hv, withEdges]
    rw [foldl_cons, ih hrest hdistinct (by simpa using hcount), hone, Option.map_map]
    congr 1
    funext x
    rw [edgesOf_cons, withEdges_append, recorded_cons hfresh]
    rfl

theorem linkTypes_edgeCount {types : List VertexId} (htypes : ∀ id ∈ types, (id : Nat) < start.vertexCount)
    {graph : CodeGraph} (hcount : graph.vertexCount = start.vertexCount) :
    (types.foldl (linkType start) graph).edgeCount = graph.edgeCount + (edgesOf start types).length := by
  induction types generalizing graph with
  | nil => rfl
  | cons id rest ih =>
    obtain ⟨hid, hrest⟩ := forall_mem_cons.mp htypes
    have hrange := lt_of_mem_edges hid
    rw [← hcount] at hrange
    have hone : (linkType start graph id).edgeCount = graph.edgeCount +
        ((linksOf start id).flatMap Link.edges).length := by
      rw [← edgeCount_addEdges hrange, linkType]
      split <;> rfl
    rw [foldl_cons, ih hrest (by simpa using hcount), hone, edgesOf_cons, length_append,
      Nat.add_assoc]

end

/-! ## Units before they are linked -/

/-- A graph without edges other than those of the tree. -/
def OnlyTree (graph : CodeGraph) : Prop :=
  ∀ v label, label ≠ .child → graph.outNeighbors v label = [] ∧ graph.inNeighbors v label = []

theorem OnlyTree.addEdge {graph : CodeGraph} (h : OnlyTree graph) (source target : VertexId) :
    OnlyTree (graph.addEdge source target .child) := by
  intro v label hlabel
  by_cases hrange : source < graph.vertexCount ∧ target < graph.vertexCount
  · rw [outNeighbors_addEdge graph hrange, inNeighbors_addEdge graph hrange]
    simp [h v label hlabel, hlabel.symm]
  · rw [CodeGraph.addEdge, if_neg hrange]
    exact h v label hlabel

theorem OnlyTree.addNode {graph : CodeGraph} (h : OnlyTree graph) (origin : Origin) (scopes : ScopeStack)
    (parent : Option VertexId) (kind : NodeKind) (span : Span) (props : PropertyMap) :
    OnlyTree (addNode origin scopes parent graph kind span props) := by
  have hvertex : OnlyTree (graph.addVertex kind span) := by
    intro v label hlabel
    have grows := grows_addVertex graph kind span
    refine ⟨by simpa [hlabel, h v label hlabel] using grows.out_eq v label, ?_⟩
    by_cases hv : v = graph.vertexCount
    · simpa [hv] using grows.in_new label
    · rw [grows.in_old v label hv, (h v label hlabel).2]
  have hassign : ∀ {graph : CodeGraph}, OnlyTree graph → ∀ id entries, OnlyTree (assignAll graph id entries) := by
    intro graph h id entries v label hlabel
    rw [outNeighbors_assignAll, inNeighbors_assignAll]
    exact h v label hlabel
  cases parent with
  | none => exact hassign hvertex _ _
  | some p =>
    have hmarked : OnlyTree ((graph.addVertex kind span).unmarkLast p) := by
      intro v label hlabel
      rw [unmarkLast_read _ (outNeighbors · v label) (by simp), unmarkLast_read _ (inNeighbors · v label) (by simp)]
      exact hvertex v label hlabel
    have hseated :=
      (hassign hmarked graph.vertexCount [(.fact .childIdx, .int ((graph.addVertex kind span).children p).length),
      (.fact .firstChild, .flag ((graph.addVertex kind span).children p).isEmpty),
      (.fact .lastChild, .flag true)]).addEdge p graph.vertexCount
    rw [← addChild_eq] at hseated
    exact hassign hseated _ _

mutual

/-- A graph with a tree added has edges to children and to parents alone. -/
theorem OnlyTree.addTree (origin : Origin) : (tree : Tree) → (scopes : ScopeStack) → (parent : Option VertexId) →
    {graph : CodeGraph} → OnlyTree graph → OnlyTree (addTree origin scopes parent graph tree)
  | ⟨kind, span, props, children⟩, scopes, parent, _, h => by
    rw [Build.addTree]
    exact OnlyTree.addTrees origin children _ _ (h.addNode origin scopes parent kind span props)

theorem OnlyTree.addTrees (origin : Origin) : (trees : List Tree) → (scopes : ScopeStack) → (parent : VertexId) →
    {graph : CodeGraph} → OnlyTree graph → OnlyTree (addTrees origin scopes parent graph trees)
  | [], _, _, _, h => by
    rw [Build.addTrees]
    exact h
  | tree :: rest, scopes, parent, _, h => by
    rw [Build.addTrees]
    exact OnlyTree.addTrees origin rest scopes parent (OnlyTree.addTree origin tree scopes (some parent) h)

end

/-- The graph of units that are materialized in turn. -/
def unitsGraph (units : List (Origin × Tree)) : CodeGraph :=
  units.foldl (fun graph unit => materialize unit.1 graph unit.2) {}

theorem onlyTree_unitsGraph (units : List (Origin × Tree)) : OnlyTree (unitsGraph units) := by
  have hall : ∀ {graph : CodeGraph}, OnlyTree graph →
      OnlyTree (units.foldl (fun graph unit => materialize unit.1 graph unit.2) graph) := by
    induction units with
    | nil => exact id
    | cons unit rest ih =>
      intro graph h
      have hone : OnlyTree (materialize unit.1 graph unit.2) := OnlyTree.addTree unit.1 unit.2 {} none h
      exact ih hone
  have hempty : OnlyTree {} := fun v label _ => by simp [outNeighbors, inNeighbors, vertex?]
  exact hall hempty

/-! ## Resolution -/

section
variable (graph : CodeGraph)

/-- A vertex when all types are linked: with the edges of the links that touch it, a type also with its unknown
supertypes. -/
def linkedVertex (v : VertexId) (x : Vertex) : Vertex :=
  { x with
    props := if v ∈ typeDeclarations graph ∧ unknownOf graph v ≠ [] then
      x.props.assign (.fact .unresolvedSupertypes) (.texts (unknownOf graph v)) else x.props
    outgoing := x.outgoing ++ (leaving ((allLinks graph).flatMap Link.edges) v).toArray
    incoming := x.incoming ++ (entering ((allLinks graph).flatMap Link.edges) v).toArray }

/-- Some type is a supertype of its own. -/
def LinksToItself : Prop := ∃ link ∈ allLinks graph, link.source = link.target

/-- The links of extension lead from some type back to it. -/
def ExtendsItself : Prop := ∃ id, Relation.TransGen (fun v w => Link.mk v w .extensionOf ∈ allLinks graph) id id

variable {graph}

theorem mem_allLinks {source target : VertexId} {label : EdgeLabel} :
    Link.mk source target label ∈ allLinks graph ↔ Mentions graph label source target := by
  rw [allLinks, Mentions, mem_flatMap]
  constructor
  · rintro ⟨id, hid, hlink⟩
    obtain ⟨⟨reference, label'⟩, hr, hmapped⟩ := mem_filterMap.mp hlink
    obtain ⟨target', hmeant, heq⟩ := Option.map_eq_some_iff.mp hmapped
    cases heq
    exact ⟨hid, reference, hr, (resolveSupertype?_eq_meant? graph source reference).trans hmeant⟩
  · rintro ⟨hid, reference, hr, hmeant⟩
    rw [resolveSupertype?_eq_meant?] at hmeant
    exact ⟨source, hid, mem_filterMap.mpr ⟨(reference, label), hr, by rw [hmeant]; rfl⟩⟩

end

/-- What resolution makes of a graph, and what it tells about it. -/
structure Resolved (graph linked : CodeGraph) (stats : InheritanceStats) : Prop where
  vertex?_eq : ∀ v, linked.vertex? v = (graph.vertex? v).map (linkedVertex graph v)
  edgeCount_eq : linked.edgeCount = graph.edgeCount + 2 * (allLinks graph).length
  edges_eq : stats.edges = (allLinks graph).length
  unresolved_eq : stats.unresolved = (allUnknown graph).length

/-- Units come with edges of the tree only. Resolution adds what the references of their types mean and nothing else; it
fails only when a type would be its own supertype. -/
theorem resolveInheritance_exact (units : List (Origin × Tree)) : OnlyTree (unitsGraph units) ∧
    (∀ id, (linksOf (unitsGraph units) id).length + (unknownOf (unitsGraph units) id).length =
      (supertypeReferences (unitsGraph units) id).length) ∧
    match resolveInheritance.run (unitsGraph units) with
    | (.ok stats, linked) => ¬LinksToItself (unitsGraph units) ∧ ¬ExtendsItself (unitsGraph units) ∧
        Resolved (unitsGraph units) linked stats
    | (.error _, _) => LinksToItself (unitsGraph units) ∨ ExtendsItself (unitsGraph units) := by
  have htree := onlyTree_unitsGraph units
  refine ⟨htree, length_linksOf_add_length_unknownOf _, ?_⟩
  generalize unitsGraph units = graph at htree ⊢
  have hself : HasSelfSupertype graph ↔ LinksToItself graph := by
    constructor
    · rintro ⟨label, id, h⟩
      exact ⟨⟨id, id, label⟩, mem_allLinks.mpr h, rfl⟩
    · rintro ⟨⟨source, target, label⟩, hlink, hsame⟩
      obtain rfl : source = target := hsame
      exact ⟨label, source, mem_allLinks.mp hlink⟩
  have hcycle : HasExtensionCycle graph ↔ ExtendsItself graph := by
    rw [HasExtensionCycle, ExtendsItself, show (fun v w => Link.mk v w .extensionOf ∈ allLinks graph) =
      Mentions graph .extensionOf from funext fun v => funext fun w => propext mem_allLinks]
  have hends := resolveInheritance_ends fun v => (htree v .extensionOf (by simp)).1
  rw [hself, hcycle] at hends
  obtain ⟨answer, linked, hrun⟩ : ∃ answer linked, resolveInheritance.run graph = (answer, linked) := ⟨_, _, rfl⟩
  rw [hrun] at hends ⊢
  cases answer with
  | error error => exact hends.1
  | ok stats =>
    refine ⟨hends.1, hends.2.1, ?_⟩
    rw [resolveInheritance, run_get_bind_ok] at hrun
    obtain ⟨⟨edges, unresolved⟩, mid, hlinks, hrest⟩ := run_bind_ok.mp hrun
    have hids : ∀ id ∈ typeDeclarations graph, (id : Nat) < graph.vertexCount := fun id => lt_of_mem_typeDeclarations
    obtain ⟨rfl, rfl, rfl⟩ := linkTypes_ok _ hids (.refl graph) hlinks
    rw [run_get_bind_ok] at hrest
    split at hrest
    · cases hrest
    · obtain ⟨rfl, rfl⟩ := run_pure_ok.mp hrest
      refine ⟨fun v => ?_, ?_, rfl, rfl⟩
      · rw [linkTypes_vertex? hids (nodup_range.filter _) rfl]
        rfl
      · rw [linkTypes_edgeCount hids rfl, length_edgesOf, allLinks]

end ApexPaths.Build
