import ApexPaths.Proofs.Build.Acceptance
import Mathlib.Data.List.Basic

/-!
What a source tree leaves in a graph. A plan says ahead of the work which node gets which number, below which vertex and
at which position, inside which types. Adding the tree fills the plan: each planned vertex has the label, the span, the
properties and the edges of its place, and every older vertex keeps its own.
-/

set_option autoImplicit false

namespace ApexPaths.PropertyMap

open List

theorem written_append (first second : PropertyMap) (key : Key) :
    written (first ++ second) key = (second.written key).or (first.written key) := by
  simp only [written, filter_append, List.getLast?_append]
  cases (second.filter (·.1 == key)).getLast? <;> rfl

theorem written_singleton (entry : Key × PropertyValue) (key : Key) :
    written [entry] key = if entry.1 = key then some entry.2 else none := by
  by_cases h : entry.1 = key <;> simp [written, h]

theorem written_eq_get? {props : PropertyMap} (h : (props.map (·.1)).Nodup) (key : Key) :
    props.written key = props.get? key := by
  induction props with
  | nil => rfl
  | cons entry rest ih =>
    obtain ⟨hfresh, hrest⟩ := nodup_cons.mp (map_cons ▸ h)
    rw [show entry :: rest = [entry] ++ rest from rfl, written_append, written_singleton, ih hrest, singleton_append,
      get?_cons]
    by_cases hkey : entry.1 = key
    · have hnone : get? rest key = none := by
        rw [← ih hrest]
        exact Build.written_eq_none fun other hother e => hfresh (mem_map.mpr ⟨other, hother, e.trans hkey.symm⟩)
      simp [hnone, hkey]
    · simp [hkey]

theorem get?_assign_folded (props : PropertyMap) {key : Key} (value : PropertyValue) {label : NameKey}
    (h : key ≠ .folded label) : (props.assign key value).get? (.folded label) =
      if key = .spelled label then some value.fold else props.get? (.folded label) := by
  cases key <;> simp_all [assign, Key.folded?, get?_put]

theorem get?_foldl_assign_folded (entries props : PropertyMap) {label : NameKey}
    (h : ∀ entry ∈ entries, entry.1 ≠ .folded label) :
    (entries.foldl (fun all entry => all.assign entry.1 entry.2) props).get? (.folded label) =
      ((entries.written (.spelled label)).map PropertyValue.fold).or (props.get? (.folded label)) := by
  induction entries generalizing props with
  | nil => simp [written]
  | cons entry rest ih =>
    obtain ⟨hentry, hrest⟩ := forall_mem_cons.mp h
    rw [foldl_cons, ih _ hrest, get?_assign_folded _ _ hentry, show entry :: rest = [entry] ++ rest from rfl,
      written_append, written_singleton]
    by_cases hkey : entry.1 = .spelled label
    · cases written rest (.spelled label) <;> simp [hkey]
    · simp [hkey]

end ApexPaths.PropertyMap

namespace ApexPaths.Build

open Source CodeGraph List

/-! ## The plan of a tree -/

/-- Where a node stands below its parent. -/
structure Seat where
  parent : VertexId
  position : Nat
  isLast : Bool

/-- A node with its number, the types around it, outermost first, and its seat; a root has none. -/
structure Place where
  id : VertexId
  node : Tree
  around : List String
  seat : Option Seat

/-- The names of the types around the children of a node. -/
def typesInside (around : List String) (kind : NodeKind) (props : PropertyMap) : List String :=
  if kind.isTypeDeclaration then around ++ [(props.text? (.spelled .name)).getD ""] else around

mutual

/-- The places of a tree in pre-order, numbered from a given number on. -/
def places (around : List String) (seat : Option Seat) (id : VertexId) : Tree → List Place
  | ⟨kind, span, props, children⟩ =>
    ⟨id, ⟨kind, span, props, children⟩, around, seat⟩ :: placesBelow (typesInside around kind props) id 0
    (id + 1) children

/-- The places of siblings and of all that is below them, with the first of them at `id`. -/
def placesBelow (around : List String) (parent : VertexId) (position : Nat) (id : VertexId) : List Tree → List Place
  | [] => []
  | tree :: rest =>
    places around (some ⟨parent, position, rest.isEmpty⟩) id tree ++
      placesBelow around parent (position + 1) (id + tree.size) rest

end

/-- The places of siblings alone. -/
def seats (around : List String) (parent : VertexId) (position : Nat) (id : VertexId) : List Tree → List Place
  | [] => []
  | tree :: rest =>
    ⟨id, tree, around, some ⟨parent, position, rest.isEmpty⟩⟩ ::
    seats around parent (position + 1) (id + tree.size) rest

namespace Place

/-- The types around the node, and the node itself if it is a type. -/
def types (place : Place) : List String := typesInside place.around place.node.kind place.node.props

/-- The places of the children of a place. -/
def below (place : Place) : List Place := seats place.types place.id 0 (place.id + 1) place.node.children

/-- The name that a vertex at the place has under a key. -/
def spelled? (place : Place) : NameKey → Option PropertyValue
  | .definingType => some (.text (Text.joinStrings "." place.types))
  | .outerType =>
    if place.node.kind.isTypeDeclaration &&
      !place.around.isEmpty then some (.text (Text.joinStrings "." place.around)) else none
  | key => place.node.props.get? (.spelled key)

/-- The value that a vertex at the place has under a key. -/
def value? (origin : Origin) (place : Place) : Key → Option PropertyValue
  | .spelled key => place.spelled? key
  | .folded key => (place.spelled? key).map PropertyValue.fold
  | .fact .childIdx => place.seat.map fun seat => .int seat.position
  | .fact .firstChild => place.seat.map fun seat => .flag (seat.position == 0)
  | .fact .lastChild => place.seat.map fun seat => .flag seat.isLast
  | .fact .fileName => some (.text origin.fileName)
  | .fact .isStandard => some (.flag origin.isStandard)
  | .fact .beginLine => (place.node.props.get? (.fact .beginLine)).or (some (.int place.node.span.startLine))
  | .fact .beginColumn => (place.node.props.get? (.fact .beginColumn)).or (some (.int place.node.span.startColumn))
  | .fact .endLine => (place.node.props.get? (.fact .endLine)).or (some (.int place.node.span.endLine))
  | .fact key => place.node.props.get? (.fact key)

/-- The vertex is the one that belongs at the place. -/
structure Fills (origin : Origin) (place : Place) (vertex : Vertex) : Prop where
  label : vertex.label = place.node.kind
  span : vertex.span = place.node.span
  props : ∀ key, vertex.props.get? key = place.value? origin key
  outgoing : vertex.outgoing.toList = place.below.map fun child => (.child, child.id)
  incoming : vertex.incoming.toList = place.seat.toList.map fun seat => (.child, seat.parent)

end Place

section
variable (around : List String) (parent : VertexId) (position : Nat) (id : VertexId)

theorem placesBelow_eq (trees : List Tree) : placesBelow around parent position id trees =
    (seats around parent position id trees).flatMap fun place =>
    places place.around place.seat place.id place.node := by
  induction trees generalizing position id with
  | nil => rfl
  | cons tree rest ih => rw [placesBelow, seats, flatMap_cons, ih]

theorem places_eq (place : Place) : places place.around place.seat place.id place.node =
    place :: place.below.flatMap fun child => places child.around child.seat child.id child.node := by
  obtain ⟨id, ⟨kind, span, props, children⟩, around, seat⟩ := place
  rw [places, placesBelow_eq]
  rfl

theorem seats_map_node (trees : List Tree) : (seats around parent position id trees).map (·.node) = trees := by
  induction trees generalizing position id with
  | nil => rfl
  | cons tree rest ih => rw [seats, map_cons, ih]

end

mutual

theorem places_map_node (around : List String) (seat : Option Seat) (id : VertexId) :
    (tree : Tree) → (places around seat id tree).map (·.node) = tree.nodes
  | ⟨kind, span, props, children⟩ => by
    rw [places, map_cons, placesBelow_map_node, Tree.nodes, Tree.nodesWhere, if_pos rfl]

theorem placesBelow_map_node (around : List String) (parent : VertexId) (position : Nat) (id : VertexId) :
    (trees : List Tree) → (placesBelow around parent position id trees).map (·.node) =
    Tree.nodesOfWhere (fun _ => true) trees
  | [] => rfl
  | tree :: rest => by
    rw [placesBelow, map_append, places_map_node, placesBelow_map_node, Tree.nodesOfWhere, Tree.nodes]

end

mutual

theorem places_map_id (around : List String) (seat : Option Seat) (id : VertexId) :
    (tree : Tree) → (places around seat id tree).map (·.id) = List.range' id tree.size
  | ⟨kind, span, props, children⟩ => by
    rw [places, map_cons, placesBelow_map_id, Tree.size, List.range'_succ]

theorem placesBelow_map_id (around : List String) (parent : VertexId) (position : Nat) (id : VertexId) :
    (trees : List Tree) → (placesBelow around parent position id trees).map (·.id) = List.range' id (Tree.sizes trees)
  | [] => rfl
  | tree :: rest => by
    rw [placesBelow, map_append, places_map_id, placesBelow_map_id, Tree.sizes, List.range'_append_1]

end

/-! ## One vertex -/

/-- The properties of a source node: each key once, and none that a graph and its builder write by themselves. -/
def isOwnedKey : Key → Bool
  | .folded _ | .spelled .definingType | .spelled .outerType | .fact .fileName | .fact .isStandard | .fact .childIdx
  | .fact .firstChild | .fact .lastChild => true
  | _ => false

/-- Properties of a node as it was read: each key once, and none that materialization sets. -/
structure IsPlain (props : PropertyMap) : Prop where
  nodup : (props.map (·.1)).Nodup
  unowned : ∀ entry ∈ props, isOwnedKey entry.1 = false

instance (props : PropertyMap) : Decidable (IsPlain props) :=
  decidable_of_iff ((props.map (·.1)).Nodup ∧ ∀ entry ∈ props, isOwnedKey entry.1 = false)
    ⟨fun h => ⟨h.1, h.2⟩, fun h => ⟨h.nodup, h.unowned⟩⟩

/-- The children of a vertex lie in the graph, and each has the number of its edge. -/
structure Lined (graph : CodeGraph) (p : VertexId) : Prop where
  indexed : (graph.outNeighbors p .child).map graph.childIndex =
    (List.range (graph.outNeighbors p .child).length).map Int.ofNat
  lt : ∀ child ∈ graph.outNeighbors p .child, (child : Nat) < graph.vertexCount

theorem Lined.children_eq {graph : CodeGraph} {p : VertexId} (lined : Lined graph p) :
    graph.children p = graph.outNeighbors p .child := children_eq_of_indexed lined.indexed

/-- An older vertex when some more vertices stand below a parent, whose last child was known. -/
def touched (parent last : Option VertexId) (added : List VertexId) (v : VertexId) (vertex : Vertex) : Vertex :=
  { vertex with
    props := if last = some v then vertex.props.assign (.fact .lastChild) (.flag false) else vertex.props
    outgoing := vertex.outgoing ++ if parent = some v then (added.map fun child => (EdgeLabel.child, child)).toArray
      else #[] }

/-- The last child below a vertex that is to get one more. -/
def lastBelow (graph : CodeGraph) (parent : Option VertexId) : Option VertexId :=
  parent.bind fun p => (graph.children p).getLast?

variable {props : PropertyMap}

section
variable {graph : CodeGraph} (origin : Origin) (around : List String) (kind : NodeKind) (span : Span)

/-- The seat of one more child. -/
def nextSeat (graph : CodeGraph) (parent : Option VertexId) : Option Seat :=
  parent.map fun p => ⟨p, (graph.children p).length, true⟩

theorem children_addVertex {p : Nat} (hp : p < graph.vertexCount) (lined : Lined graph p) :
    (graph.addVertex kind span).children p = graph.children p := by
  have hold : ∀ v : Nat, v < graph.vertexCount → (graph.addVertex kind span).vertex? v = graph.vertex? v := by
    intro v hv
    rw [vertex?_addVertex, if_neg (Nat.ne_of_lt hv)]
  have hedges : (graph.addVertex kind span).outNeighbors p .child = graph.outNeighbors p .child := by
    rw [outNeighbors, outNeighbors, hold p hp]
  rw [children, children, hedges]
  congr 2
  refine map_congr_left fun child hchild => ?_
  rw [childIndex, childIndex, int?, int?, hold child (lined.lt child hchild)]

/-- Properties together with those that tell where the next child of `p` sits. -/
def seated (graph : CodeGraph) (p : VertexId) (props : PropertyMap) : PropertyMap :=
  ((props.assign (.fact .childIdx) (.int (graph.children p).length)).assign (.fact .firstChild)
    (.flag (graph.children p).isEmpty)).assign (.fact .lastChild) (.flag true)

theorem vertex?_addChild {p c : Nat} (h : p < graph.vertexCount ∧ c < graph.vertexCount) (v : VertexId) :
    (graph.addChild p c).vertex? v = (graph.vertex? v).map fun x =>
      let marked := if (graph.children p).getLast? = some v then x.props.assign (.fact .lastChild) (.flag false)
        else x.props
      { x with
        props := if v = c then seated graph p marked else marked
        outgoing := if v = p then x.outgoing.push (.child, c) else x.outgoing
        incoming := if v = c then x.incoming.push (.child, p) else x.incoming } := by
  have hcount : (graph.unmarkLast p).vertexCount = graph.vertexCount := graph.unmarkLast_read vertexCount (by simp) p
  rw [addChild_eq, vertex?_addEdge _ (by simpa [hcount] using h), vertex?_assignAll, vertex?_unmarkLast, Option.map_map,
    Option.map_map]
  congr 1
  funext x
  by_cases hc : v = c
  · subst hc
    by_cases hlast : (graph.children p).getLast? = some v <;>
      simp only [Function.comp_apply, hlast, if_true, if_false] <;> rfl
  · by_cases hlast : (graph.children p).getLast? = some v <;>
      simp only [Function.comp_apply, hlast, hc, if_true, if_false]

/-- Older vertices stay but for the parent and the child that was its last. -/
theorem vertex?_addNode_of_lt (props : PropertyMap) {parent : Option VertexId}
    (hparent : ∀ p ∈ parent, (p : Nat) < graph.vertexCount ∧ Lined graph p) {v : Nat} (hv : v < graph.vertexCount) :
    (addNode origin ⟨around⟩ parent graph kind span props).vertex? v =
      (graph.vertex? v).map (touched parent (lastBelow graph parent) [graph.vertexCount] v) := by
  have hne := Nat.ne_of_lt hv
  cases parent with
  | none =>
    refine (vertex?_assignAll _ _ _ v).trans ?_
    rw [vertex?_addVertex, if_neg hne]
    cases graph.vertex? v with
    | none => rfl
    | some x => simp [hne, lastBelow, touched]
  | some p =>
    obtain ⟨hp, lined⟩ := hparent p rfl
    have hboth : p < (graph.addVertex kind span).vertexCount ∧
        graph.vertexCount < (graph.addVertex kind span).vertexCount := by
      rw [vertexCount_addVertex]
      exact ⟨Nat.lt_succ_of_lt hp, Nat.lt_succ_self _⟩
    refine (vertex?_assignAll _ _ _ v).trans ?_
    rw [vertex?_addChild hboth, vertex?_addVertex, if_neg hne, Option.map_map, children_addVertex kind span hp lined]
    congr 1
    funext x
    by_cases he : v = p
    · subst he
      simp [touched, lastBelow, hne]
      rfl
    · simp [touched, lastBelow, hne, he, Ne.symm he]
      rfl

/-- The properties that a new vertex has before those of its node. -/
def bareProps (graph : CodeGraph) (parent : Option VertexId) : PropertyMap :=
  match parent with
  | none => (Vertex.make kind span).props
  | some p => seated graph p (Vertex.make kind span).props

/-- The vertex that is added for a node. -/
theorem vertex?_addNode_new (props : PropertyMap) {parent : Option VertexId}
    (hparent : ∀ p ∈ parent, (p : Nat) < graph.vertexCount ∧ Lined graph p) :
    (addNode origin ⟨around⟩ parent graph kind span props).vertex? graph.vertexCount = some
      { label := kind
        span
        props := (props ++ placeProps origin ⟨around⟩ kind props).foldl (fun all entry => all.assign entry.1 entry.2)
          (bareProps kind span graph parent)
        outgoing := #[]
        incoming := (parent.toList.map fun p => (EdgeLabel.child, p)).toArray } := by
  cases parent with
  | none =>
    refine (vertex?_assignAll _ _ _ _).trans ?_
    rw [vertex?_addVertex, if_pos rfl]
    simp [Vertex.make, bareProps]
  | some p =>
    obtain ⟨hp, lined⟩ := hparent p rfl
    have hboth : p < (graph.addVertex kind span).vertexCount ∧
        graph.vertexCount < (graph.addVertex kind span).vertexCount := by
      rw [vertexCount_addVertex]
      exact ⟨Nat.lt_succ_of_lt hp, Nat.lt_succ_self _⟩
    have hlast : (graph.children p).getLast? ≠ some graph.vertexCount := fun e =>
      absurd (lined.lt _ (lined.children_eq ▸ mem_of_getLast? e)) (Nat.lt_irrefl _)
    have hne : graph.vertexCount ≠ p := (Nat.ne_of_lt hp).symm
    refine (vertex?_assignAll _ _ _ _).trans ?_
    rw [vertex?_addChild hboth, vertex?_addVertex, if_pos rfl, children_addVertex kind span hp lined]
    simp [Vertex.make, bareProps, hlast, hne, seated, children_addVertex kind span hp lined]

theorem get?_bareProps (parent : Option VertexId) (key : Key) : (bareProps kind span graph parent).get? key =
    match key with
    | .fact .childIdx => parent.map fun p => .int (graph.children p).length
    | .fact .firstChild => parent.map fun p => .flag (graph.children p).isEmpty
    | .fact .lastChild => parent.map fun _ => .flag true
    | .fact .beginLine => some (.int span.startLine)
    | .fact .beginColumn => some (.int span.startColumn)
    | .fact .endLine => some (.int span.endLine)
    | _ => none := by
  cases parent <;> rcases key with k | k | k <;> cases k <;> rfl

theorem IsPlain.get?_eq_none (plain : IsPlain props) {key : Key} (h : isOwnedKey key = true) :
    props.get? key = none := by
  rw [← PropertyMap.written_eq_get? plain.nodup]
  refine written_eq_none fun entry hentry e => ?_
  rw [← e, plain.unowned entry hentry] at h
  cases h

theorem scopesInside_mk (props : PropertyMap) : scopesInside ⟨around⟩ kind props = ⟨typesInside around kind props⟩ := by
  rw [scopesInside, typesInside, ScopeStack.push]
  split <;> rfl

theorem written_spelled (plain : IsPlain props) (id : VertexId) (seat : Option Seat) (label : NameKey) :
    (props ++ placeProps origin ⟨around⟩ kind props).written (.spelled label) =
      Place.spelled? ⟨id, ⟨kind, span, props, []⟩, around, seat⟩ label := by
  have hplace : ∀ key, isPlaceKey key = false → (props ++ placeProps origin ⟨around⟩ kind props).written key =
      props.get? key := by
    intro key hkey
    rw [written_append_of_none (written_placeProps _ _ _ _ hkey), PropertyMap.written_eq_get? plain.nodup]
  cases label
  case definingType =>
    rw [PropertyMap.written_append, placeProps, PropertyMap.written_append, scopesInside_mk]
    rfl
  case outerType =>
    rw [PropertyMap.written_append, PropertyMap.written_eq_get? plain.nodup, plain.get?_eq_none rfl, Option.or_none,
      placeProps, PropertyMap.written_append]
    have hempty : ScopeStack.isEmpty ⟨around⟩ = around.isEmpty := rfl
    rw [hempty, Place.spelled?]
    split <;> rfl
  all_goals exact hplace _ rfl

/-- The vertex of a node has all that its place asks for. -/
theorem fills_addNode (plain : IsPlain props) {parent : Option VertexId}
    (hparent : ∀ p ∈ parent, (p : Nat) < graph.vertexCount ∧ Lined graph p) :
    ∃ vertex, (addNode origin ⟨around⟩ parent graph kind span props).vertex? graph.vertexCount = some vertex ∧
      Place.Fills origin ⟨graph.vertexCount, ⟨kind, span, props, []⟩, around, nextSeat graph parent⟩ vertex := by
  refine ⟨_, vertex?_addNode_new origin around kind span props hparent, rfl, rfl, fun key => ?_, rfl, ?_⟩
  · rcases key with k | k | k
    · rw [PropertyMap.get?_foldl_assign _ _ rfl, get?_bareProps, Option.or_none,
        written_spelled origin around kind span plain]
      rfl
    · have hfolded : ∀ entry ∈ props ++ placeProps origin ⟨around⟩ kind props, entry.1 ≠ .folded k := by
        refine forall_mem_append.mpr ⟨fun entry hentry e => ?_, fun entry hentry e => ?_⟩
        · exact Bool.noConfusion ((plain.unowned entry hentry).symm.trans (by rw [e]))
        · exact Bool.noConfusion ((isPlaceKey_of_mem_placeProps entry hentry).symm.trans (by rw [e]))
      rw [PropertyMap.get?_foldl_assign_folded _ _ hfolded, get?_bareProps, Option.or_none,
        written_spelled origin around kind span plain]
      rfl
    · rw [PropertyMap.get?_foldl_assign _ _ rfl, get?_bareProps, PropertyMap.written_append,
        PropertyMap.written_eq_get? plain.nodup]
      cases k
      case fileName | isStandard =>
        rw [placeProps, PropertyMap.written_append]
        rfl
      case childIdx | firstChild | lastChild =>
        rw [written_placeProps _ _ _ _ rfl, plain.get?_eq_none rfl]
        cases parent with
        | none => rfl
        | some p => cases hchildren : graph.children p <;> simp [Place.value?, nextSeat, hchildren]
      case beginLine | beginColumn | endLine =>
        rw [written_placeProps _ _ _ _ rfl]
        rfl
      all_goals
        rw [written_placeProps _ _ _ _ rfl, Option.none_or, Option.or_none]
        rfl
  · cases parent <;> rfl

theorem edgeCount_addNode (props : PropertyMap) {parent : Option VertexId}
    (hparent : ∀ p ∈ parent, (p : Nat) < graph.vertexCount) :
    (addNode origin ⟨around⟩ parent graph kind span props).edgeCount = graph.edgeCount + parent.toList.length := by
  have hsame : ∀ (graph : CodeGraph) (id : VertexId) key value, (graph.setProperty id key value).edgeCount =
      graph.edgeCount :=
    fun _ _ _ _ => rfl
  cases parent with
  | none => exact assignAll_read _ _ _ edgeCount (hsame · _)
  | some p =>
    have hp := hparent p rfl
    refine (assignAll_read _ _ _ edgeCount (hsame · _)).trans ?_
    have hcount : ((graph.addVertex kind span).unmarkLast p).vertexCount = graph.vertexCount + 1 := by
      rw [unmarkLast_read _ vertexCount (by simp), vertexCount_addVertex]
    change ((graph.addVertex kind span).addChild p graph.vertexCount).edgeCount = graph.edgeCount + 1
    rw [addChild_eq, addEdge,
      if_pos (by rw [vertexCount_assignAll, hcount]; exact ⟨Nat.lt_succ_of_lt hp, Nat.lt_succ_self _⟩)]
    change (assignAll _ _ _).edgeCount + 1 = _
    rw [assignAll_read _ _ _ edgeCount (hsame · _),
      unmarkLast_read _ edgeCount fun id => rfl]
    rfl

end

/-! ## Trees -/

/-- The second graph is the first one with some vertices below a parent, each at its place. -/
structure Fulfils (origin : Origin) (graph : CodeGraph) (parent : Option VertexId) (added : List VertexId)
    (plan : List Place) (graph' : CodeGraph) : Prop where
  vertexCount_eq : graph'.vertexCount = graph.vertexCount + plan.length
  edgeCount_eq : graph'.edgeCount + (1 - parent.toList.length) = graph.edgeCount + plan.length
  old : ∀ v : Nat, v < graph.vertexCount → graph'.vertex? v =
    (graph.vertex? v).map (touched parent (if added = [] then none else lastBelow graph parent) added v)
  new : ∀ place ∈ plan, ∃ vertex, graph'.vertex? place.id = some vertex ∧ place.Fills origin vertex

theorem touched_of_ne {parent last : Option VertexId} (added : List VertexId) {v : VertexId} (hparent : parent ≠ some v)
    (hlast : last ≠ some v) : touched parent last added v = id := by
  funext vertex
  simp [touched, hparent, hlast]

theorem get?_touched (parent last : Option VertexId) (added : List VertexId) (v : VertexId) (vertex : Vertex)
    {key : Key} (h : key ≠ .fact .lastChild) : (touched parent last added v vertex).props.get? key =
    vertex.props.get? key := by
  rw [touched]
  by_cases hlast : last = some v
  · simp only [hlast, if_true, PropertyMap.get?_assign_fact, Ne.symm h, if_false]
  · simp only [hlast, if_false]

theorem length_places (around : List String) (seat : Option Seat) (id : VertexId) (tree : Tree) :
    (places around seat id tree).length = tree.size := by
  simpa using congrArg List.length (places_map_id around seat id tree)

theorem size_pos (tree : Tree) : 0 < tree.size := by
  obtain ⟨kind, span, props, children⟩ := tree
  exact Nat.succ_pos _

theorem bounds_of_mem_below (place : Place) :
    ∀ child ∈ place.below.flatMap fun child => places child.around child.seat child.id child.node,
      (place.id : Nat) < child.id ∧ (child.id : Nat) < place.id + place.node.size := by
  intro child hchild
  have hids := places_map_id place.around place.seat place.id place.node
  obtain ⟨n, hsize⟩ := Nat.exists_eq_add_one.mpr (size_pos place.node)
  rw [places_eq, map_cons, hsize, List.range'_succ, List.cons.injEq] at hids
  have hmem := mem_map_of_mem (f := Place.id) hchild
  rw [hids.2, mem_range'_1] at hmem
  rw [hsize]
  exact ⟨hmem.1, by rw [← Nat.add_assoc, Nat.add_right_comm]; exact hmem.2⟩

section
variable {origin : Origin} {graph graph' : CodeGraph}

theorem Fulfils.lined {around : List String} {p : Nat} {tree : Tree} (hp : p < graph.vertexCount)
    (lined : Lined graph p)
    (h : Fulfils origin graph (some p) [graph.vertexCount]
    (places around (nextSeat graph (some p)) graph.vertexCount tree) graph') :
    Lined graph' p ∧ graph'.outNeighbors p .child = graph.outNeighbors p .child ++ [graph.vertexCount] := by
  have hedges : graph'.outNeighbors p .child = graph.outNeighbors p .child ++ [graph.vertexCount] := by
    rw [outNeighbors, outNeighbors, h.old p hp, vertex?, Array.getElem?_eq_getElem hp]
    simp [touched]
  have hold : ∀ child ∈ graph.outNeighbors p .child, graph'.childIndex child = graph.childIndex child := by
    intro child hchild
    rw [childIndex, childIndex, int?, int?, h.old child (lined.lt child hchild)]
    cases graph.vertex? child with
    | none => rfl
    | some vertex =>
      have hkept : ∀ last, (touched (some p) last [graph.vertexCount] child vertex).props.get? (.fact .childIdx) =
          vertex.props.get? (.fact .childIdx) := fun last => get?_touched _ _ _ _ _ (by decide)
      simp only [Option.map_some, Option.bind_some, PropertyMap.int?, hkept]
  have hnew : graph'.childIndex graph.vertexCount = (graph.outNeighbors p .child).length := by
    obtain ⟨vertex, hvertex, hfills⟩ := h.new ⟨graph.vertexCount, tree, around, nextSeat graph (some p)⟩ (by
      rw [places_eq ⟨graph.vertexCount, tree, around, nextSeat graph (some p)⟩]
      exact mem_cons_self)
    rw [childIndex, int?, hvertex, Option.bind_some, PropertyMap.int?, hfills.props, ← lined.children_eq]
    rfl
  refine ⟨⟨?_, ?_⟩, hedges⟩
  · rw [hedges, map_append, map_congr_left hold, lined.indexed, map_singleton, hnew, length_append,
      length_singleton, range_succ, map_append]
    rfl
  · rw [hedges]
    refine forall_mem_append.mpr ⟨fun child hchild => ?_, ?_⟩
    · rw [h.vertexCount_eq]
      exact Nat.lt_add_right _ (lined.lt child hchild)
    · have hpos : 0 < (places around (nextSeat graph (some p)) graph.vertexCount tree).length := by
        rw [places_eq ⟨graph.vertexCount, tree, around, nextSeat graph (some p)⟩]
        exact Nat.succ_pos _
      rw [forall_mem_singleton, h.vertexCount_eq]
      exact Nat.lt_add_of_pos_right hpos

theorem touched_comp (parent last : Option VertexId) (first : VertexId) (more : List VertexId) {v : VertexId}
    (h : v ≠ first) : touched parent (if more = [] then none else some first) more v ∘ touched parent last [first] v =
      touched parent last (first :: more) v := by
  have hlast : (if more = [] then none else some first) ≠ some v := by
    split
    · simp
    · exact fun e => h (Option.some.inj e).symm
  funext vertex
  by_cases hparent : parent = some v <;> simp [touched, hlast, hparent]

theorem Place.value?_of_ne_lastChild (id : VertexId) (node : Tree) (around : List String) (p : VertexId)
    (position : Nat) (isLast isLast' : Bool) {key : Key} (h : key ≠ .fact .lastChild) :
    Place.value? origin ⟨id, node, around, some ⟨p, position, isLast⟩⟩ key =
      Place.value? origin ⟨id, node, around, some ⟨p, position, isLast'⟩⟩ key := by
  rcases key with k | k | k
  · rfl
  · rfl
  · cases k <;> first | rfl | exact absurd rfl h

/-- A sibling after it takes from a vertex only that it is the last. -/
theorem Place.Fills.followed {id : VertexId} {node : Tree} {around : List String} {p : VertexId} {position : Nat}
    {vertex : Vertex} (h : Place.Fills origin ⟨id, node, around, some ⟨p, position, true⟩⟩ vertex)
    {more : List VertexId} (hne : id ≠ p) :
    Place.Fills origin ⟨id, node, around, some ⟨p, position, more.isEmpty⟩⟩
      (touched (some p) (if more = [] then none else some id) more id vertex) := by
  have hparent : some p ≠ some id := fun e => hne (Option.some.inj e).symm
  refine ⟨h.label, h.span, fun key => ?_, ?_, h.incoming⟩
  · by_cases hkey : key = .fact .lastChild
    · subst hkey
      cases more with
      | nil => exact (h.props _)
      | cons next rest => simp [touched, PropertyMap.get?_assign_fact, Place.value?]
    · rw [get?_touched _ _ _ _ _ hkey, h.props]
      exact Place.value?_of_ne_lastChild id node around p position _ _ hkey
  · rw [touched, if_neg hparent, Array.append_empty]
    exact h.outgoing

theorem Place.Fills.untouched {place : Place} {vertex : Vertex} (h : place.Fills origin vertex)
    (before : graph.vertex? place.id = some vertex) {parent last : Option VertexId} {added : List VertexId}
    (after : graph'.vertex? place.id = (graph.vertex? place.id).map (touched parent last added place.id))
    (hparent : parent ≠ some place.id) (hlast : last ≠ some place.id) :
    ∃ vertex, graph'.vertex? place.id = some vertex ∧ place.Fills origin vertex := by
  refine ⟨vertex, ?_, h⟩
  rw [after, touched_of_ne _ hparent hlast, before]
  rfl

end

mutual

/-- Adding a tree fills the places of its nodes in their order; by induction on the tree. -/
theorem fulfils_addTree (origin : Origin) : (tree : Tree) → (∀ node ∈ tree.nodes, IsPlain node.props) →
    (around : List String) → (parent : Option VertexId) → (graph : CodeGraph) →
    (∀ p ∈ parent, (p : Nat) < graph.vertexCount ∧ Lined graph p) →
    Fulfils origin graph parent [graph.vertexCount] (places around (nextSeat graph parent) graph.vertexCount tree)
      (addTree origin ⟨around⟩ parent graph tree)
  | ⟨kind, span, props, children⟩, hplain, around, parent, graph, hparent => by
    have hown : IsPlain props := hplain _ (Tree.self_mem_nodes _)
    have hlt : ∀ p ∈ parent, (p : Nat) < graph.vertexCount := fun p hp => (hparent p hp).1
    have hcount := (grows_addNode origin ⟨around⟩ kind span props hlt).vertexCount_eq
    obtain ⟨vertex, hvertex, hfills⟩ := fills_addNode origin around kind span hown hparent
    have hbare : (addNode origin ⟨around⟩ parent graph kind span props).outNeighbors graph.vertexCount .child = [] := by
      rw [outNeighbors, hvertex]
      simp [hfills.outgoing, Place.below, seats]
    have lined : Lined (addNode origin ⟨around⟩ parent graph kind span props) graph.vertexCount := by
      refine ⟨?_, ?_⟩ <;> simp [hbare]
    have hbelow := fulfils_addTrees origin children
      (fun tree htree node hnode => hplain node (Tree.mem_nodes.mpr (.inr ⟨tree, htree, hnode⟩)))
      (typesInside around kind props) graph.vertexCount _ (by rw [hcount]; exact Nat.lt_succ_self _) lined
    rw [lined.children_eq, hbare, length_nil, hcount] at hbelow
    have hedges := edgeCount_addNode origin around kind span props hlt
    have hlast : lastBelow (addNode origin ⟨around⟩ parent graph kind span props) (some graph.vertexCount) = none := by
      rw [lastBelow, Option.bind_some, lined.children_eq, hbare]
      rfl
    have hself : (addTrees origin ⟨typesInside around kind props⟩ graph.vertexCount
        (addNode origin ⟨around⟩ parent graph kind span props) children).vertex? graph.vertexCount = some (touched
          (some graph.vertexCount) none
          ((seats (typesInside around kind props) graph.vertexCount 0 (graph.vertexCount + 1) children).map (·.id))
          graph.vertexCount vertex) := by
      rw [hbelow.old _ (by rw [hcount]; exact Nat.lt_succ_self _), hvertex, hlast, ite_self]
      rfl
    rw [addTree, scopesInside_mk, places]
    refine ⟨?_, ?_, fun v hv => ?_, forall_mem_cons.mpr ⟨?_, hbelow.new⟩⟩
    · rw [hbelow.vertexCount_eq, hcount, length_cons]
      omega
    · have := hbelow.edgeCount_eq
      rw [hedges] at this
      cases parent <;> simp at this ⊢ <;> omega
    · have hne : some graph.vertexCount ≠ some v :=
        fun e => absurd hv (by rw [← Option.some.inj e]; exact Nat.lt_irrefl _)
      rw [hbelow.old v (by rw [hcount]; exact Nat.lt_succ_of_lt hv), hlast, ite_self, touched_of_ne _ hne (by simp),
        Option.map_id_fun, id, vertex?_addNode_of_lt origin around kind span props hparent hv, if_neg (by simp)]
    · refine ⟨_, hself, hfills.label, hfills.span, fun key => hfills.props key, ?_, hfills.incoming⟩
      · have hempty : vertex.outgoing.toList = [] := hfills.outgoing
        simp [touched, hempty, Place.below, Place.types]

/-- By induction on the trees, inside the recursion over nodes. -/
theorem fulfils_addTrees (origin : Origin) :
    (trees : List Tree) → (∀ tree ∈ trees, ∀ node ∈ tree.nodes, IsPlain node.props) → (around : List String) →
    (p : Nat) → (graph : CodeGraph) → p < graph.vertexCount → Lined graph p →
    Fulfils origin graph (some p) ((seats around p (graph.children p).length graph.vertexCount trees).map (·.id))
      (placesBelow around p (graph.children p).length graph.vertexCount trees) (addTrees origin ⟨around⟩ p graph trees)
  | [], _, around, p, graph, hp, lined => by
    rw [addTrees]
    refine ⟨rfl, by simp [placesBelow], fun v hv => ?_, by simp [placesBelow]⟩
    rw [seats, map_nil, if_pos rfl]
    cases graph.vertex? v <;> simp [touched]
  | tree :: rest, hplain, around, p, graph, hp, lined => by
    obtain ⟨htree, hrest⟩ := forall_mem_cons.mp hplain
    have hfirst := fulfils_addTree origin tree htree around (some p) graph (by simpa using ⟨hp, lined⟩)
    obtain ⟨hlined, hedges⟩ := hfirst.lined hp lined
    have hcount : (addTree origin ⟨around⟩ (some p) graph tree).vertexCount = graph.vertexCount + tree.size := by
      rw [hfirst.vertexCount_eq, length_places]
    have hchildren : (addTree origin ⟨around⟩ (some p) graph tree).children p = graph.children p ++
        [graph.vertexCount] := by
      rw [hlined.children_eq, hedges, lined.children_eq]
    have hmore := fulfils_addTrees origin rest hrest around p _ (by omega) hlined
    rw [hchildren, hcount, length_append, length_singleton] at hmore
    have hlast : lastBelow (addTree origin ⟨around⟩ (some p) graph tree) (some p) = some graph.vertexCount := by
      rw [lastBelow, Option.bind_some, hchildren, List.getLast?_append]
      rfl
    rw [addTrees, seats, placesBelow, map_cons]
    refine ⟨?_, ?_, fun v hv => ?_, forall_mem_append.mpr ⟨?_, hmore.new⟩⟩
    · rw [hmore.vertexCount_eq, hcount, length_append, length_places, Nat.add_assoc]
    · have := hmore.edgeCount_eq
      have := hfirst.edgeCount_eq
      simp only [length_places, length_append, Option.toList_some, length_singleton] at *
      omega
    · rw [hmore.old v (by omega), hfirst.old v hv, hlast, Option.map_map]
      rw [touched_comp _ _ _ _ (Nat.ne_of_lt hv), if_neg (by simp), if_neg (by simp)]
    · have hempty : rest.isEmpty =
        ((seats around p ((graph.children p).length + 1) (graph.vertexCount + tree.size) rest).map
        (·.id)).isEmpty := by cases rest <;> rfl
      have hrows := hfirst.new
      rw [places_eq ⟨graph.vertexCount, tree, around, nextSeat graph (some p)⟩, forall_mem_cons] at hrows
      rw [places_eq ⟨graph.vertexCount, tree, around, some ⟨p, (graph.children p).length, rest.isEmpty⟩⟩]
      refine forall_mem_cons.mpr ⟨?_, fun place hplace => ?_⟩
      · obtain ⟨vertex, hvertex, hfills⟩ := hrows.1
        refine ⟨_, ?_, hempty ▸ hfills.followed (Nat.ne_of_gt hp)⟩
        rw [hmore.old graph.vertexCount (by rw [hcount]; exact Nat.lt_add_of_pos_right (size_pos tree)), hvertex, hlast]
        rfl
      · obtain ⟨vertex, hvertex, hfills⟩ := hrows.2 place hplace
        obtain ⟨hlow, hhigh⟩ := bounds_of_mem_below _ place hplace
        refine hfills.untouched hvertex (hmore.old place.id (by rw [hcount]; exact hhigh)) ?_ ?_
        · exact fun e => absurd (Option.some.inj e) (Nat.ne_of_lt (Nat.lt_trans hp hlow))
        · rw [hlast]
          split
          · simp
          · exact fun e => absurd (Option.some.inj e) (Nat.ne_of_lt hlow)

end

/-! ## Reading the tree from the graph -/

/-- The places of a place and of everything below it, in pre-order. -/
def Place.plan (place : Place) : List Place := places place.around place.seat place.id place.node

theorem Place.plan_eq (place : Place) : place.plan = place :: place.below.flatMap Place.plan := places_eq place

theorem Place.induct {motive : Place → Prop}
    (step : ∀ place : Place, (∀ child ∈ place.below, motive child) → motive place) (place : Place) : motive place := by
  obtain ⟨id, node, around, seat⟩ := place
  induction node using Tree.induct generalizing id around seat with
  | step node ih =>
    refine step _ fun child hchild => ?_
    have hnode : child.node ∈ node.children := by
      rw [← seats_map_node (Place.types ⟨id, node, around, seat⟩) id 0 (id + 1) node.children]
      exact mem_map_of_mem hchild
    exact ih child.node hnode child.id child.around child.seat

theorem Place.subset_plan {place root : Place} (h : place ∈ root.plan) : place.plan ⊆ root.plan := by
  induction root using Place.induct with
  | step root ih =>
    rw [root.plan_eq] at h
    rcases mem_cons.mp h with rfl | hbelow
    · exact List.Subset.refl _
    · obtain ⟨child, hchild, hplace⟩ := mem_flatMap.mp hbelow
      rw [root.plan_eq]
      exact fun other hother => mem_cons_of_mem _ (mem_flatMap.mpr ⟨child, hchild, ih child hchild hplace hother⟩)

theorem Place.below_subset {place root : Place} (h : place ∈ root.plan) : place.below ⊆ root.plan := by
  refine fun child hchild => Place.subset_plan h ?_
  rw [place.plan_eq]
  exact mem_cons_of_mem _ (mem_flatMap.mpr ⟨child, hchild, by rw [child.plan_eq]; exact mem_cons_self⟩)

theorem size_lt_of_mem_below {place child : Place} (h : child ∈ place.below) : child.node.size < place.node.size := by
  have hsizes : ∀ {trees : List Tree} {tree : Tree}, tree ∈ trees → tree.size ≤ Tree.sizes trees := by
    intro trees tree htree
    induction trees with
    | nil => cases htree
    | cons first rest ih =>
      rw [Tree.sizes]
      rcases mem_cons.mp htree with rfl | hrest
      · exact Nat.le_add_right _ _
      · exact Nat.le_trans (ih hrest) (Nat.le_add_left _ _)
  obtain ⟨id, ⟨kind, span, props, children⟩, around, seat⟩ := place
  have hnode : child.node ∈ children := by
    rw [← seats_map_node (typesInside around kind props) id 0 (id + 1) children]
    exact mem_map_of_mem h
  exact Nat.lt_succ_of_le (hsizes hnode)

theorem size_le_of_mem_plan {root place : Place} (h : place ∈ root.plan) : place.node.size ≤ root.node.size := by
  induction root using Place.induct with
  | step root ih =>
    rw [root.plan_eq] at h
    rcases mem_cons.mp h with rfl | hbelow
    · exact Nat.le_refl _
    · obtain ⟨child, hchild, hplace⟩ := mem_flatMap.mp hbelow
      exact Nat.le_trans (ih child hchild hplace) (Nat.le_of_lt (size_lt_of_mem_below hchild))

theorem seat_getElem?_seats {around : List String} {parent : VertexId} {position : Nat} {id : VertexId}
    {trees : List Tree} {k : Nat} {place : Place} (h : (seats around parent position id trees)[k]? = some place) :
    place.seat = some ⟨parent, position + k, k + 1 == trees.length⟩ ∧ place.around = around := by
  induction trees generalizing position id k with
  | nil => simp [seats] at h
  | cons tree rest ih =>
    cases k with
    | zero =>
      cases h
      cases rest <;> simp
    | succ k =>
      obtain ⟨hseat, haround⟩ := @ih (position + 1) (id + tree.size) k h
      refine ⟨?_, haround⟩
      rw [hseat]
      simp [Nat.add_assoc, Nat.add_comm 1]

section
variable {origin : Origin} {graph : CodeGraph}

/-- Every place of a plan holds the vertex that was meant for it. -/
def Filled (origin : Origin) (graph : CodeGraph) (plan : List Place) : Prop :=
  ∀ place ∈ plan, ∃ vertex, graph.vertex? place.id = some vertex ∧ place.Fills origin vertex

variable {root place : Place} (filled : Filled origin graph root.plan) (hplace : place ∈ root.plan)
include filled hplace

/-- The children of a vertex are those of its place. -/
theorem Filled.children_eq : graph.children place.id = place.below.map (·.id) := by
  obtain ⟨vertex, hvertex, hfills⟩ := filled place hplace
  have hedges : graph.outNeighbors place.id .child = place.below.map (·.id) := by
    rw [outNeighbors, hvertex]
    simp [hfills.outgoing, filterMap_map]
  rw [children_eq_of_indexed, hedges]
  rw [hedges, map_map, length_map]
  refine ext_getElem? fun k => ?_
  rw [List.getElem?_map, List.getElem?_map]
  cases hchild : place.below[k]? with
  | none => simp [List.getElem?_eq_none_iff.mp hchild]
  | some child =>
    obtain ⟨row, hrow, hchildFills⟩ := filled child (Place.below_subset hplace (mem_of_getElem? hchild))
    obtain ⟨hk, -⟩ := List.getElem?_eq_some_iff.mp hchild
    rw [List.getElem?_range hk, Option.map_some, Option.map_some, Function.comp_apply, childIndex, int?, hrow,
      Option.bind_some, PropertyMap.int?, hchildFills.props, Place.value?, (seat_getElem?_seats hchild).1, Nat.zero_add]
    rfl

theorem Filled.parent?_eq : graph.parent? place.id = place.seat.map (·.parent) := by
  obtain ⟨vertex, hvertex, hfills⟩ := filled place hplace
  rw [parent?, inNeighbors, hvertex]
  simp only [hfills.incoming]
  cases place.seat <;> simp

theorem Filled.descendantsWithin_eq {n : Nat} (hn : place.node.size ≤ n) :
    graph.descendantsWithin n place.id = place.plan.map (·.id) := by
  induction place using Place.induct generalizing n with
  | step place ih =>
    obtain ⟨n, rfl⟩ := Nat.exists_eq_add_one.mpr (Nat.lt_of_lt_of_le (size_pos place.node) hn)
    rw [descendantsWithin, filled.children_eq hplace, place.plan_eq, map_cons, map_flatMap, flatMap_map]
    congr 1
    refine flatMap_congr fun child hchild => ?_
    exact ih child hchild (Place.below_subset hplace hchild)
      (Nat.le_of_lt_succ (Nat.lt_of_lt_of_le (size_lt_of_mem_below hchild) hn))

end

/-! ## Whole trees -/

def rootPlace (graph : CodeGraph) (root : Tree) : Place := ⟨graph.vertexCount, root, [], none⟩

/-- What is planned at a place: its node's children in order, each with its position, inside the node's types. -/
structure Place.Spreads (plan : List Place) (place : Place) : Prop where
  nodes : place.below.map (·.node) = place.node.children
  subset : place.below ⊆ plan
  seats : ∀ (k : Nat) child, place.below[k]? = some child →
    child.seat = some ⟨place.id, k, k + 1 == place.node.children.length⟩ ∧ child.around = place.types

/-- What a graph shows at a place: the node's label, span and properties, and edges to its parent and its children
only. -/
structure Place.Shown (origin : Origin) (graph : CodeGraph) (place : Place) : Prop where
  label : graph.label? place.id = some place.node.kind
  span : (graph.vertex? place.id).map (·.span) = some place.node.span
  property : ∀ key, graph.property? place.id key = place.value? origin key
  outgoing : (graph.vertex? place.id).map (·.outgoing.toList) = some (place.below.map fun child => (.child, child.id))
  incoming : (graph.vertex? place.id).map (·.incoming.toList) =
    some (place.seat.toList.map fun seat => (.child, seat.parent))
  children : graph.children place.id = place.below.map (·.id)
  parent : graph.parent? place.id = place.seat.map (·.parent)
  descendants : graph.descendants place.id = List.range' place.id place.node.size

/-- The second graph is the first one with a tree. -/
structure Materialized (origin : Origin) (graph : CodeGraph) (root : Tree) (graph' : CodeGraph) : Prop where
  vertexCount : graph'.vertexCount = graph.vertexCount + root.size
  edgeCount : graph'.edgeCount = graph.edgeCount + (root.size - 1)
  unchanged : ∀ v : Nat, v < graph.vertexCount → graph'.vertex? v = graph.vertex? v
  preOrder : (rootPlace graph root).plan.map (·.node) = root.nodes
  consecutive : (rootPlace graph root).plan.map (·.id) = List.range' graph.vertexCount root.size
  spreads : ∀ place ∈ (rootPlace graph root).plan, place.Spreads (rootPlace graph root).plan
  shown : ∀ place ∈ (rootPlace graph root).plan, place.Shown origin graph'

theorem Place.spreads {root place : Place} (h : place ∈ root.plan) : place.Spreads root.plan where
  nodes := seats_map_node _ _ _ _ _
  subset := Place.below_subset h
  seats k child hchild := by
    have := seat_getElem?_seats hchild
    rwa [Nat.zero_add] at this

theorem Filled.shown {origin : Origin} {graph : CodeGraph} {root place : Place} (filled : Filled origin graph root.plan)
    (hplace : place ∈ root.plan) (hsize : place.node.size ≤ graph.vertexCount) : place.Shown origin graph := by
  obtain ⟨vertex, hvertex, hfills⟩ := filled place hplace
  refine ⟨?_, ?_, fun key => ?_, ?_, ?_, filled.children_eq hplace, filled.parent?_eq hplace, ?_⟩
  · rw [label?, hvertex, Option.map_some, hfills.label]
  · rw [hvertex, Option.map_some, hfills.span]
  · rw [property?, hvertex, Option.bind_some, hfills.props]
  · rw [hvertex, Option.map_some, hfills.outgoing]
  · rw [hvertex, Option.map_some, hfills.incoming]
  · rw [descendants, filled.descendantsWithin_eq hplace hsize]
    exact places_map_id _ _ _ _

/-- Adding a unit adds its tree and nothing else. -/
theorem materialized_materialize (origin : Origin) (graph : CodeGraph) (root : Tree)
    (hplain : ∀ node ∈ root.nodes, IsPlain node.props) :
    Materialized origin graph root (materialize origin graph root) := by
  have hadds : Fulfils origin graph none [graph.vertexCount] (rootPlace graph root).plan
      (materialize origin graph root) :=
    fulfils_addTree origin root hplain [] none graph (by simp)
  have hlength : (rootPlace graph root).plan.length = root.size := length_places _ _ _ _
  have hcount : (materialize origin graph root).vertexCount = graph.vertexCount + root.size := by
    rw [hadds.vertexCount_eq, hlength]
  have hedges : (materialize origin graph root).edgeCount + 1 = graph.edgeCount + root.size := by
    rw [← hlength]
    exact hadds.edgeCount_eq
  have hpos := size_pos root
  refine ⟨hcount, by omega, fun v hv => ?_, places_map_node _ _ _ _, places_map_id _ _ _ _, fun place => Place.spreads,
    fun place hplace => Filled.shown hadds.new hplace ?_⟩
  · rw [hadds.old v hv, touched_of_ne _ (by simp) (by simp [lastBelow])]
    exact Option.map_id_apply
  · rw [hcount]
    exact Nat.le_trans (size_le_of_mem_plan hplace) (Nat.le_add_left _ _)

theorem isPlain_nestedTypes :
    (treeOfChars "class A { static { } Integer p { get; } class B { } }".toList).toOption.any (fun tree =>
    (complete tree).nodes.all fun node => decide (IsPlain node.props)) = true :=
  any_of_toList_eq String.toList_ofList (by decide +kernel)

/-- A class as it is read, with an inner class, and with the members that a block and a property stand for. -/
theorem materialized_nestedTypes :
    ∃ unit, parse "A" "class A { static { } Integer p { get; } class B { } }" = .ok unit ∧
    (∀ node ∈ (complete unit.root).nodes, IsPlain node.props) ∧
    Materialized ⟨unit.name, false⟩ {} (complete unit.root)
    (materialize ⟨unit.name, false⟩ {} (complete unit.root)) := by
  obtain ⟨tree, hparse, htest⟩ := exists_parse isPlain_nestedTypes "A"
  have hplain : ∀ node ∈ (complete tree).nodes, IsPlain node.props := fun node hnode =>
    of_decide_eq_true (all_eq_true.mp htest node hnode)
  exact ⟨_, hparse, hplain, materialized_materialize _ _ _ hplain⟩

end ApexPaths.Build
