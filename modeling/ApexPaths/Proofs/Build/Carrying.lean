import ApexPaths.Build.Basic
import ApexPaths.Proofs.Build.Planting
import ApexPaths.Proofs.Source.Shape

/-!
Trees that a graph carries: a vertex has the label and the flags of the tree's root, and its children
carry the children of the tree in order. A tree that is added is carried, and what was carried before
stays so.
-/

namespace ApexPaths.Build
set_option autoImplicit false

open Source CodeGraph List

variable {ids : List VertexId} {parent : Option VertexId} {key : Key} {graph' : CodeGraph}
variable {props : PropertyMap}

/-! ## Trees that a graph carries -/

/-- The keys of a node that control flow and the meaning of names, calls and literals depend on. -/
def isSourceKey : Key → Bool
  | .fact .isImplicit | .fact .hasInit | .fact .hasCondition | .fact .hasUpdate | .fact .hasFinally | .fact .arity |
    .fact .literalType | .fact .isConstructor | .spelled .name | .spelled .methodName | .spelled .type => true
  | _ => false

variable {tree : Tree}

variable {id : VertexId}

section
variable (graph : CodeGraph)

mutual

/-- A vertex carries a tree: its kind, the properties that the source wrote, and its children in their order. -/
def Carries : Tree → VertexId → Prop
  | ⟨kind, _, props, children⟩, id =>
    graph.label? id = some kind ∧ (∀ key, isSourceKey key = true → graph.property? id key = props.written key) ∧
      CarriesAll children (graph.children id)

def CarriesAll : List Tree → List VertexId → Prop
  | [], ids => ids = []
  | tree :: rest, ids => ∃ id more, ids = id :: more ∧ Carries tree id ∧ CarriesAll rest more

end

variable {graph}

theorem carries_iff : Carries graph tree id ↔ graph.label? id = some tree.kind ∧
    (∀ key, isSourceKey key = true → graph.property? id key = tree.props.written key) ∧
      CarriesAll graph tree.children (graph.children id) := by
  obtain ⟨kind, span, props, children⟩ := tree
  rw [Carries]

/-- Trees in a row are carried by vertices in a row. -/
theorem carriesAll_append {first second : List Tree} : CarriesAll graph (first ++ second) ids ↔
    ∃ before after, ids = before ++ after ∧ CarriesAll graph first before ∧ CarriesAll graph second after := by
  induction first generalizing ids with
  | nil =>
    simp only [nil_append, CarriesAll]
    constructor
    · exact fun h => ⟨[], ids, rfl, rfl, h⟩
    · rintro ⟨before, after, rfl, rfl, h⟩
      exact h
  | cons tree rest ih =>
    simp only [cons_append, CarriesAll, ih]
    constructor
    · rintro ⟨id, more, rfl, htree, before, after, rfl, hrest, hsecond⟩
      exact ⟨id :: before, after, rfl, ⟨id, before, rfl, htree, hrest⟩, hsecond⟩
    · rintro ⟨before, after, rfl, ⟨id, more, rfl, htree, hrest⟩, hsecond⟩
      exact ⟨id, more ++ after, rfl, htree, more, after, rfl, hrest, hsecond⟩

theorem CarriesAll.exists_mem {trees : List Tree} (h : CarriesAll graph trees ids) :
    (∀ tree ∈ trees, ∃ id ∈ ids, Carries graph tree id) ∧ ∀ id ∈ ids, ∃ tree ∈ trees, Carries graph tree id := by
  induction trees generalizing ids with
  | nil =>
    rw [show ids = [] from h]
    simp
  | cons tree rest ih =>
    obtain ⟨id, more, rfl, htree, hrest⟩ := h
    obtain ⟨htrees, hids⟩ := ih hrest
    constructor
    · refine forall_mem_cons.mpr ⟨⟨id, mem_cons_self, htree⟩, fun t ht => ?_⟩
      obtain ⟨i, hi, hcarries⟩ := htrees t ht
      exact ⟨i, mem_cons_of_mem _ hi, hcarries⟩
    · refine forall_mem_cons.mpr ⟨⟨tree, mem_cons_self, htree⟩, fun i hi => ?_⟩
      obtain ⟨t, ht, hcarries⟩ := hids i hi
      exact ⟨t, mem_cons_of_mem _ ht, hcarries⟩

end

/-- Every node of a tree that is carried is carried by some vertex. -/
theorem Carries.node {graph : CodeGraph} {tree node : Tree} (h : Carries graph tree id)
    (hnode : node ∈ tree.nodes) : ∃ v, Carries graph node v := by
  induction tree using Tree.induct generalizing id with
  | step tree ih =>
    rcases Tree.mem_nodes.mp hnode with rfl | ⟨child, hchild, hnode⟩
    · exact ⟨id, h⟩
    · obtain ⟨v, -, hv⟩ := (carries_iff.mp h).2.2.exists_mem.1 child hchild
      exact ih child hchild hv hnode

/-- What lies below a vertex that carries a tree carries a node of the tree. -/
theorem Carries.below {graph : CodeGraph} (planted : graph.Planted) {top : Nat} (h : Carries graph tree top)
    {v : Nat} (hv : graph.Below top v) : ∃ node ∈ tree.nodes, Carries graph node v := by
  induction v using Nat.strongRecOn with
  | ind v ih =>
    by_cases he : v = top
    · exact ⟨tree, tree.self_mem_nodes, he ▸ h⟩
    · obtain ⟨p, hp⟩ := hv.parent_of_ne he
      obtain ⟨node, hnode, hcarries⟩ := ih p (planted.isForest.parent_lt hp) (hv.parent planted.isForest he hp)
      obtain ⟨child, hchild, hv⟩ := (carries_iff.mp hcarries).2.2.exists_mem.2 v (planted.parent?_eq_some_iff.mp hp)
      exact ⟨child, Tree.nodes_trans hnode (Tree.mem_nodes.mpr (.inr ⟨child, hchild, child.self_mem_nodes⟩)), hv⟩

/-! ## Growth -/

/-- A graph that grew, where only the children of one vertex may have become more. -/
structure Sprouts (graph : CodeGraph) (parent : Option VertexId) (graph' : CodeGraph) : Prop where
  planted : graph'.Planted
  le : graph.vertexCount ≤ graph'.vertexCount
  label?_eq : ∀ v : Nat, v < graph.vertexCount → graph'.label? v = graph.label? v
  property?_eq : ∀ v : Nat, v < graph.vertexCount → ∀ key, isSourceKey key = true →
    graph'.property? v key = graph.property? v key
  out_eq : ∀ v : Nat, v < graph.vertexCount → parent ≠ some v →
    graph'.outNeighbors v .child = graph.outNeighbors v .child
  in_eq : ∀ v : Nat, v < graph.vertexCount → graph'.inNeighbors v .child = graph.inNeighbors v .child

theorem Sprouts.refl {graph : CodeGraph} (planted : graph.Planted) (parent : Option VertexId) :
    Sprouts graph parent graph :=
  ⟨planted, Nat.le_refl _, fun _ _ => rfl, fun _ _ _ _ => rfl, fun _ _ _ => rfl, fun _ _ => rfl⟩

/-- Growth after growth, where the second part hangs on what the first left open. -/
theorem Sprouts.trans {a b c : CodeGraph} {next : Option VertexId} (hab : Sprouts a parent b) (hbc : Sprouts b next c)
    (hnext : ∀ p ∈ next, p < a.vertexCount → parent = some p) : Sprouts a parent c := by
  have hlt : ∀ {v : Nat}, v < a.vertexCount → v < b.vertexCount := fun h => Nat.lt_of_lt_of_le h hab.le
  refine ⟨hbc.planted, Nat.le_trans hab.le hbc.le, fun v hv => ?_, fun v hv k hk => ?_, fun v hv hp => ?_,
    fun v hv => ?_⟩
  · rw [hbc.label?_eq v (hlt hv), hab.label?_eq v hv]
  · rw [hbc.property?_eq v (hlt hv) k hk, hab.property?_eq v hv k hk]
  · rw [hbc.out_eq v (hlt hv) fun e => hp (hnext v e hv), hab.out_eq v hv hp]
  · rw [hbc.in_eq v (hlt hv), hab.in_eq v hv]

theorem isGraphKey_of_isSourceKey (h : isSourceKey key = true) : isGraphKey key = false := by
  rcases key with k | k | k <;> cases k <;> first | rfl | exact absurd h (by decide)

theorem isLateKey_of_isSourceKey (h : isSourceKey key = true) : isLateKey key = false := by
  rcases key with k | k | k <;> cases k <;> first | rfl | exact absurd h (by decide)

theorem Grows.sprouts {graph : CodeGraph} {kind : NodeKind} {entries : PropertyMap}
    (grows : Grows graph parent kind entries graph') (planted : graph'.Planted) : Sprouts graph parent graph' := by
  refine ⟨planted, ?_, fun v hv => ?_, fun v hv k hk => ?_, fun v hv hp => ?_, fun v hv => ?_⟩
  · rw [grows.vertexCount_eq]
    omega
  · exact grows.label?_old v (Nat.ne_of_lt hv)
  · refine grows.property?_old v _ (Nat.ne_of_lt hv) fun e => ?_
    rw [e] at hk
    exact absurd hk (by decide)
  · rw [grows.out_eq]
    simp [hp]
  · exact grows.in_old v _ (Nat.ne_of_lt hv)

theorem CarriesAll.imp {graph : CodeGraph} {trees : List Tree} (h : CarriesAll graph trees ids)
    (himp : ∀ tree ∈ trees, ∀ id ∈ ids, Carries graph tree id → Carries graph' tree id) :
    CarriesAll graph' trees ids := by
  induction trees generalizing ids with
  | nil => exact h
  | cons tree rest ih =>
    obtain ⟨id, more, rfl, htree, hrest⟩ := h
    refine ⟨id, more, rfl, himp tree mem_cons_self id mem_cons_self htree, ih hrest fun t ht i hi => ?_⟩
    exact himp t (mem_cons_of_mem _ ht) i (mem_cons_of_mem _ hi)

/-- What grows later leaves a carried tree as it is. -/
theorem Carries.sprouts {graph : CodeGraph} (planted : graph.Planted)
    (h : Sprouts graph parent graph') {id : Nat} (hp : ∀ p ∈ parent, p < id) (hcarries : Carries graph tree id) :
    Carries graph' tree id := by
  induction tree using Tree.induct generalizing id with
  | step tree ih =>
    obtain ⟨hlabel, hfacts, hchildren⟩ := carries_iff.mp hcarries
    have hid := graph.lt_of_label? hlabel
    have hne : parent ≠ some id := fun e => absurd (hp id e) (Nat.lt_irrefl id)
    have hsame : graph'.children id = graph.children id := by
      rw [h.planted.children_eq, planted.children_eq, h.out_eq id hid hne]
    refine carries_iff.mpr
      ⟨by rw [h.label?_eq id hid, hlabel], fun k hk => by rw [h.property?_eq id hid k hk, hfacts k hk], ?_⟩
    rw [hsame]
    refine hchildren.imp fun child hchild v hv hcarries => ih child hchild (fun p hparent => ?_) hcarries
    exact Nat.lt_trans (hp p hparent) (planted.isForest.lt_of_mem hv)

/-- Flow and links leave a carried tree as it is. -/
theorem Carries.sameTree {graph : CodeGraph} (same : graph.SameTree graph')
    (h : Carries graph tree id) : Carries graph' tree id := by
  induction tree using Tree.induct generalizing id with
  | step tree ih =>
    obtain ⟨hlabel, hprops, hchildren⟩ := carries_iff.mp h
    refine carries_iff.mpr ⟨by rw [same.label?_eq, hlabel], fun key hkey => ?_, ?_⟩
    · rw [same.property?_eq _ _ (isLateKey_of_isSourceKey hkey), hprops key hkey]
    · rw [same.children_eq]
      exact hchildren.imp fun child hchild v _ hcarries => ih child hchild hcarries

/-! ## Adding trees -/

/-- The second graph is the first one with a tree. -/
structure AddsTree (graph : CodeGraph) (parent : Option VertexId) (tree : Tree) (graph' : CodeGraph) : Prop where
  sprouts : Sprouts graph parent graph'
  lt : graph.vertexCount < graph'.vertexCount
  carries : Carries graph' tree graph.vertexCount
  out_eq : ∀ p ∈ parent, graph'.outNeighbors p .child = graph.outNeighbors p .child ++ [graph.vertexCount]
  in_eq : graph'.inNeighbors graph.vertexCount .child = parent.toList
  in_ne : ∀ v : Nat, graph.vertexCount < v → v < graph'.vertexCount → graph'.inNeighbors v .child ≠ []

/-- The second graph is the first one with trees below a vertex. -/
structure AddsTrees (graph : CodeGraph) (parent : VertexId) (trees : List Tree) (graph' : CodeGraph) : Prop where
  sprouts : Sprouts graph (some parent) graph'
  carries : ∃ ids, graph'.outNeighbors parent .child = graph.outNeighbors parent .child ++ ids ∧
    CarriesAll graph' trees ids
  in_ne : ∀ v : Nat, graph.vertexCount ≤ v → v < graph'.vertexCount → graph'.inNeighbors v .child ≠ []

theorem written_eq_none (h : ∀ entry ∈ props, entry.1 ≠ key) : props.written key = none := by
  have hnil : props.filter (·.1 == key) = [] := filter_eq_nil_iff.mpr fun entry hentry => by
    simpa using h entry hentry
  rw [PropertyMap.written, hnil]
  rfl

theorem written_append_of_none {first second : PropertyMap} (h : second.written key = none) :
    PropertyMap.written (first ++ second) key = first.written key := by
  rw [PropertyMap.written, Option.map_eq_none_iff, List.getLast?_eq_none_iff] at h
  rw [PropertyMap.written, filter_append, h, append_nil, PropertyMap.written]

/-- The property tells where a node stands, not what was written there. -/
def isPlaceKey : Key → Bool
  | .spelled .outerType | .spelled .definingType | .fact .fileName | .fact .isStandard => true
  | _ => false

theorem isPlaceKey_of_mem_placeProps {origin : Origin} {scopes : ScopeStack} {kind : NodeKind} :
    ∀ entry ∈ placeProps origin scopes kind props, isPlaceKey entry.1 = true := by
  rw [placeProps]
  refine forall_mem_append.mpr ⟨?_, by simp [isPlaceKey]⟩
  split <;> simp [isPlaceKey]

theorem written_placeProps (origin : Origin) (scopes : ScopeStack) (kind : NodeKind) (props : PropertyMap)
    (h : isPlaceKey key = false) : (placeProps origin scopes kind props).written key = none := by
  refine written_eq_none fun entry hentry e => ?_
  rw [← e, isPlaceKey_of_mem_placeProps entry hentry] at h
  cases h

theorem grows_addNode (origin : Origin) (scopes : ScopeStack) {graph : CodeGraph} (kind : NodeKind)
    (span : Span) (props : PropertyMap) (hparent : ∀ p ∈ parent, p < graph.vertexCount) :
    Grows graph parent kind (props ++ placeProps origin scopes kind props)
      (addNode origin scopes parent graph kind span props) := by
  have hvertex := grows_addVertex graph kind span
  cases parent with
  | none => exact hvertex.assignAll _
  | some p => exact (hvertex.addChild (hparent p rfl)).assignAll _

theorem planted_addNode (origin : Origin) (scopes : ScopeStack) {graph : CodeGraph}
    (planted : graph.Planted) (kind : NodeKind) (span : Span) (hprops : Tree.FreeKeys props)
    (hparent : ∀ p ∈ parent, p < graph.vertexCount) : (addNode origin scopes parent graph kind span props).Planted := by
  have hwritten : ∀ key : Key, (key = .fact .childIdx ∨ key = .fact .endScopes) →
      PropertyMap.written (props ++ placeProps origin scopes kind props) key = none := by
    intro key hk
    rw [written_append_of_none (written_placeProps _ _ _ _ (by rcases hk with rfl | rfl <;> rfl))]
    refine written_eq_none fun entry hentry => ?_
    rcases hk with rfl | rfl
    · exact (hprops entry hentry).1
    · exact (hprops entry hentry).2
  exact (grows_addNode origin scopes kind span props hparent).planted planted hparent (hwritten _ (.inl rfl))
    (hwritten _ (.inr rfl))

mutual

/-- Adding a tree plants it: by induction on the tree, one vertex for each node. -/
theorem addsTree (origin : Origin) : (tree : Tree) → (∀ node ∈ tree.nodes, Tree.FreeKeys node.props) →
    (scopes : ScopeStack) → (parent : Option VertexId) → (graph : CodeGraph) → graph.Planted →
    (∀ p ∈ parent, p < graph.vertexCount) → AddsTree graph parent tree (addTree origin scopes parent graph tree)
  | ⟨kind, span, props, children⟩, hkeys, scopes, parent, graph, planted, hparent => by
    have hown : Tree.FreeKeys props := hkeys _ (Tree.self_mem_nodes _)
    have grows := grows_addNode origin scopes kind span props hparent
    have hplanted := planted_addNode origin scopes planted kind span hown hparent
    have hnew : graph.vertexCount < (addNode origin scopes parent graph kind span props).vertexCount := by
      rw [grows.vertexCount_eq]
      omega
    have hbelow := addsTrees origin children
      (fun tree htree node hnode => hkeys node (Tree.mem_nodes.mpr (.inr ⟨tree, htree, hnode⟩)))
      (scopesInside scopes kind props) graph.vertexCount _ hplanted hnew
    rw [addTree]
    have hsprouts : Sprouts graph parent _ :=
      (Grows.sprouts grows hplanted).trans hbelow.sprouts fun p hp hlt =>
      absurd hlt (by rw [← Option.some.inj hp]; exact Nat.lt_irrefl _)
    have hchildless : (addNode origin scopes parent graph kind span props).outNeighbors graph.vertexCount .child =
        [] := by
      have hne : parent ≠ some graph.vertexCount := fun e => absurd (hparent _ e) (Nat.lt_irrefl _)
      rw [grows.out_eq]
      simp [outNeighbors, graph.vertex?_vertexCount, hne]
    refine ⟨hsprouts, Nat.lt_of_lt_of_le hnew hbelow.sprouts.le, ?_, fun p hp => ?_, ?_, fun v hv hlt => ?_⟩
    · obtain ⟨ids, hids, hcarries⟩ := hbelow.carries
      refine carries_iff.mpr ⟨?_, fun k hk => ?_, ?_⟩
      · rw [hbelow.sprouts.label?_eq _ hnew, grows.label?_new]
      · rw [hbelow.sprouts.property?_eq _ hnew k hk, grows.property?_new k (isGraphKey_of_isSourceKey hk)]
        refine written_append_of_none (written_placeProps _ _ _ _ ?_)
        rcases k with k | k | k <;> cases k <;> first | rfl | exact absurd hk (by decide)
      · rw [hsprouts.planted.children_eq, hids, hchildless]
        exact hcarries
    · have hne : (some graph.vertexCount) ≠ some p :=
        fun e => absurd (hparent p hp) (by rw [← Option.some.inj e]; exact Nat.lt_irrefl _)
      rw [hbelow.sprouts.out_eq p (Nat.lt_trans (hparent p hp) hnew) hne, grows.out_eq]
      simp [show parent = some p from hp]
    · rw [hbelow.sprouts.in_eq _ hnew, grows.in_new]
      simp
    · by_cases hle : (addNode origin scopes parent graph kind span props).vertexCount ≤ v
      · exact hbelow.in_ne v hle hlt
      · rw [grows.vertexCount_eq] at hle
        omega

theorem addsTrees (origin : Origin) :
    (trees : List Tree) → (∀ tree ∈ trees, ∀ node ∈ tree.nodes, Tree.FreeKeys node.props) → (scopes : ScopeStack) →
    (parent : Nat) → (graph : CodeGraph) → graph.Planted → parent < graph.vertexCount →
    AddsTrees graph parent trees (addTrees origin scopes parent graph trees)
  | [], _, scopes, parent, graph, planted, hparent => by
    rw [addTrees]
    exact ⟨.refl planted _, ⟨[], by simp, rfl⟩, fun v hle hlt => absurd hlt (Nat.not_lt.mpr hle)⟩
  | tree :: rest, hkeys, scopes, parent, graph, planted, hparent => by
    obtain ⟨htree, hrest⟩ := forall_mem_cons.mp hkeys
    have hfirst := addsTree origin tree htree scopes (some parent) graph planted (by simpa using hparent)
    have hmore := addsTrees origin rest hrest scopes parent _ hfirst.sprouts.planted (Nat.lt_trans hparent hfirst.lt)
    rw [addTrees]
    refine ⟨hfirst.sprouts.trans hmore.sprouts fun p hp _ => hp, ?_, fun v hle hlt => ?_⟩
    · obtain ⟨ids, hids, hcarries⟩ := hmore.carries
      refine ⟨graph.vertexCount :: ids, ?_, graph.vertexCount, ids, rfl, ?_, hcarries⟩
      · rw [hids, hfirst.out_eq parent rfl, List.append_assoc]
        rfl
      · exact hfirst.carries.sprouts hfirst.sprouts.planted hmore.sprouts (by simpa using hparent)
    · by_cases hv : v < (addTree origin scopes (some parent) graph tree).vertexCount
      · rw [hmore.sprouts.in_eq v hv]
        by_cases he : v = graph.vertexCount
        · rw [he, hfirst.in_eq]
          simp
        · exact hfirst.in_ne v (by omega) hv
      · exact hmore.in_ne v (by omega) hlt

end

/-! ## Whole graphs -/

/-- A graph that is made of the given trees. -/
structure Bears (graph : CodeGraph) (roots : List Tree) : Prop where
  planted : graph.Planted
  carries : ∀ root ∈ roots, ∃ id, Carries graph root id
  covered : ∀ v : Nat, v < graph.vertexCount → graph.parent? v = none → ∃ root ∈ roots, Carries graph root v

theorem bears_empty : Bears {} [] :=
  ⟨planted_empty, by simp, fun v hv => absurd hv (by simp [vertexCount])⟩

/-- A graph bears one more tree after it was materialized. -/
theorem Bears.materialize {graph : CodeGraph} {roots : List Tree} (h : Bears graph roots) (origin : Origin)
    {root : Tree} (hkeys : ∀ node ∈ root.nodes, Tree.FreeKeys node.props) :
    Bears (materialize origin graph root) (roots ++ [root]) := by
  have hadds := addsTree origin root hkeys {} none graph h.planted (by simp)
  have hkeep : ∀ {tree : Tree} {id : VertexId}, Carries graph tree id →
      Carries (Build.materialize origin graph root) tree id :=
    fun hcarries => hcarries.sprouts h.planted hadds.sprouts (by simp)
  refine ⟨hadds.sprouts.planted, forall_mem_append.mpr ⟨fun tree htree => ?_, ?_⟩, fun v hv hnone => ?_⟩
  · obtain ⟨id, hid⟩ := h.carries tree htree
    exact ⟨id, hkeep hid⟩
  · simpa using ⟨graph.vertexCount, hadds.carries⟩
  · have hin : (Build.materialize origin graph root).inNeighbors v .child = [] := List.getLast?_eq_none_iff.mp hnone
    by_cases hold : v < graph.vertexCount
    · have hroot : graph.parent? v = none := by
        rw [parent?, ← hadds.sprouts.in_eq v hold]
        exact hnone
      obtain ⟨tree, htree, hcarries⟩ := h.covered v hold hroot
      exact ⟨tree, mem_append_left _ htree, hkeep hcarries⟩
    · by_cases he : v = graph.vertexCount
      · exact ⟨root, by simp, he ▸ hadds.carries⟩
      · exact absurd hin (hadds.in_ne v (by omega) hv)

/-- Every vertex carries a node of one of the trees. -/
theorem Bears.exists_node {graph : CodeGraph} {roots : List Tree} (h : Bears graph roots) {v : Nat}
    (hv : v < graph.vertexCount) : ∃ root ∈ roots, ∃ node ∈ root.nodes, Carries graph node v := by
  induction v using Nat.strongRecOn with
  | ind v ih =>
    cases hp : graph.parent? v with
    | none =>
      obtain ⟨root, hroot, hcarries⟩ := h.covered v hv hp
      exact ⟨root, hroot, root, root.self_mem_nodes, hcarries⟩
    | some p =>
      have hlt := h.planted.isForest.parent_lt hp
      obtain ⟨root, hroot, node, hnode, hcarries⟩ := ih p hlt (Nat.lt_trans hlt hv)
      obtain ⟨child, hchild, hcarries⟩ :=
        (carries_iff.mp hcarries).2.2.exists_mem.2 v (h.planted.parent?_eq_some_iff.mp hp)
      exact ⟨root, hroot, child,
        Tree.nodes_trans hnode (Tree.mem_nodes.mpr (.inr ⟨child, hchild, child.self_mem_nodes⟩)), hcarries⟩

end ApexPaths.Build
