import ApexPaths.Proofs.Build.Acceptance

/-!
The numbers of vertices. Trees are planted in pre-order: the parent of a vertex lies on the line of the
vertex before it, and siblings are numbered from left to right. So a subtree is an interval of numbers,
and of two siblings everything below the left one comes before the right one.
-/

set_option autoImplicit false

namespace ApexPaths.CodeGraph

open List

/-! ## Pre-order -/

/-- Vertices are numbered in pre-order. -/
structure Ordered (graph : CodeGraph) : Prop where
  parent_mem : ∀ {v q : Nat}, graph.parent? (v + 1) = some q → q ∈ graph.line v
  ascending : ∀ p, (graph.children p).Pairwise (· < ·)

section
variable {graph : CodeGraph} (forest : graph.IsForest)
include forest

theorem line_eq_cases {v : Nat} (hv : v < graph.vertexCount) :
    graph.line v = [v] ∧ graph.parent? v = none ∨ ∃ p, graph.parent? v = some p ∧ (p : Nat) < v ∧
    graph.line v = v :: graph.line p := by
  cases hp : graph.parent? v with
  | none => exact .inl ⟨by rw [line, ancestors_of_no_parent hp], rfl⟩
  | some p => exact .inr ⟨p, rfl, forest.parent_lt hp, line_of_parent forest hv hp⟩

theorem mem_line_trans {u w v : Nat} (hv : v < graph.vertexCount) (huw : u ∈ graph.line w) (hwv : w ∈ graph.line v) :
    u ∈ graph.line v := by
  induction v using Nat.strongRecOn with
  | ind v ih =>
    rcases line_eq_cases forest hv with ⟨hline, -⟩ | ⟨p, -, hlt, hline⟩
    · rw [hline, mem_singleton] at hwv
      rwa [← hwv]
    · rw [hline] at hwv ⊢
      rcases mem_cons.mp hwv with rfl | hwp
      · rwa [← hline]
      · exact mem_cons_of_mem _ (ih p hlt (Nat.lt_trans hlt hv) hwp)

theorem Below.trans {a b c : Nat} (hab : graph.Below a b) (hbc : graph.Below b c) : graph.Below a c :=
  ⟨hbc.1, mem_line_trans forest hbc.1 hab.2 hbc.2⟩

theorem eq_of_mem_line {a b p v : Nat} (ha : graph.parent? a = some p) (hb : graph.parent? b = some p)
    (hv : v < graph.vertexCount) (hav : a ∈ graph.line v) (hbv : b ∈ graph.line v) : a = b := by
  refine Decidable.byContradiction fun hne => ?_
  exact not_mem_line_of_siblings forest hne ha hb (lt_of_parent? ha) (lt_of_parent? hb) hv hav hbv

variable (ordered : graph.Ordered)
include ordered

theorem Ordered.mem_line_of_between {c a b : Nat} (hca : c ≤ a) (hab : a ≤ b) (hb : b < graph.vertexCount)
    (h : c ∈ graph.line b) : c ∈ graph.line a := by
  induction b with
  | zero =>
    obtain rfl : a = 0 := Nat.le_zero.mp hab
    exact h
  | succ b ih =>
    by_cases he : a = b + 1
    · rwa [he]
    rcases line_eq_cases forest hb with ⟨hline, -⟩ | ⟨q, hq, -, hline⟩
    · rw [hline, mem_singleton] at h
      omega
    · rw [hline] at h
      rcases mem_cons.mp h with rfl | hcq
      · omega
      · have hlt : b < graph.vertexCount := Nat.lt_of_succ_lt hb
        exact ih (by omega) hlt (mem_line_trans forest hlt hcq (ordered.parent_mem hq))

theorem Ordered.lt_of_siblings {c d p x : Nat} (hc : c ∈ graph.children p) (hd : d ∈ graph.children p) (hcd : c < d)
    (hx : graph.Below c x) : x < d := by
  refine Nat.lt_of_not_le fun hdx => ?_
  have hcp := forest.parent_of_mem hc
  have hdp := forest.parent_of_mem hd
  have hline := ordered.mem_line_of_between forest (Nat.le_of_lt hcd) hdx hx.1 hx.2
  rw [line_of_parent forest (lt_of_parent? hdp) hdp] at hline
  have hlt := forest.parent_lt hcp
  rcases mem_cons.mp hline with rfl | hcline
  · omega
  · have := le_of_mem_line forest hcline
    omega

/-- For two siblings the order of numbers is that of what lies below one of them. -/
theorem Ordered.lt_iff_of_siblings {c d p x : Nat} (hc : c ∈ graph.children p) (hd : d ∈ graph.children p) (hne : d ≠ c)
    (hx : graph.Below c x) : d < c ↔ d < x := by
  have hle := hx.le forest
  constructor
  · intro h
    omega
  · intro h
    refine Nat.lt_of_not_le fun hcd => ?_
    have := ordered.lt_of_siblings forest hc hd (Nat.lt_of_le_of_ne hcd (Ne.symm hne)) hx
    omega

end

theorem SameTree.ordered {graph graph' : CodeGraph} (same : SameTree graph graph') (ordered : graph.Ordered) :
    graph'.Ordered where
  parent_mem h := by
    rw [same.parent?_eq] at h
    rw [same.line_eq]
    exact ordered.parent_mem h
  ascending p := by
    rw [same.children_eq]
    exact ordered.ascending p

theorem ordered_empty : Ordered {} where
  parent_mem h := absurd (lt_of_parent? h) (by simp [vertexCount])
  ascending p := by
    rw [children_of_vertexCount_le _ (Nat.zero_le _)]
    exact .nil

/-! ## Planting -/

theorem Planted.line_congr {graph graph' : CodeGraph} (planted : graph.Planted) (planted' : graph'.Planted)
    (hle : graph.vertexCount ≤ graph'.vertexCount)
    (hin : ∀ v : Nat, v < graph.vertexCount → graph'.inNeighbors v .child = graph.inNeighbors v .child) {v : Nat}
    (hv : v < graph.vertexCount) : graph'.line v = graph.line v := by
  induction v using Nat.strongRecOn with
  | ind v ih =>
    have hparent : graph'.parent? v = graph.parent? v := by rw [parent?, parent?, hin v hv]
    rcases line_eq_cases planted.isForest hv with ⟨hline, hp⟩ | ⟨p, hp, hlt, hline⟩
    · rw [hline, line, ancestors_of_no_parent (by rw [hparent, hp])]
    · rw [hline, ← ih p hlt (Nat.lt_trans hlt hv)]
      exact line_of_parent planted'.isForest (Nat.lt_of_lt_of_le hv hle) (by rw [hparent, hp])

/-- Vertices that are added at the end stay in order. -/
theorem Grows.ordered {graph graph' : CodeGraph} {parent : Option VertexId} {kind : NodeKind} {entries : PropertyMap}
    (grows : Grows graph parent kind entries graph') (planted : graph.Planted) (planted' : graph'.Planted)
    (ordered : graph.Ordered) (hparent : ∀ p ∈ parent, p < graph.vertexCount ∧ p ∈ graph.line (graph.vertexCount - 1)) :
    graph'.Ordered where
  parent_mem {v q} hq := by
    have hlt := lt_of_parent? hq
    rw [grows.vertexCount_eq] at hlt
    have hline : graph'.line v = graph.line v :=
      planted.line_congr planted' (by rw [grows.vertexCount_eq]; omega) (fun w hw => grows.in_old w _ (by omega))
      (by omega)
    rw [hline]
    by_cases he : v + 1 = graph.vertexCount
    · rw [parent?, he, grows.in_new, if_pos rfl] at hq
      have hmem := (hparent q (Option.mem_toList.mp (mem_of_getLast? hq))).2
      rwa [← he] at hmem
    · refine ordered.parent_mem ?_
      rwa [parent?, grows.in_old _ _ he] at hq
  ascending p := by
    have hold := ordered.ascending p
    rw [planted.children_eq] at hold
    rw [planted'.children_eq, grows.out_eq]
    split
    · refine pairwise_append.mpr ⟨hold, pairwise_singleton .., fun v hv w hw => ?_⟩
      rw [mem_singleton.mp hw]
      exact (planted.parent_of_mem hv).2.2
    · rwa [append_nil]

end ApexPaths.CodeGraph

namespace ApexPaths.Build

open Source CodeGraph List

mutual

theorem ordered_addTree (origin : Origin) : (tree : Tree) → (∀ node ∈ tree.nodes, Tree.FreeKeys node.props) →
    (scopes : ScopeStack) → (parent : Option VertexId) → (graph : CodeGraph) → graph.Planted → graph.Ordered →
    (∀ p ∈ parent, p < graph.vertexCount ∧ p ∈ graph.line (graph.vertexCount - 1)) →
    (addTree origin scopes parent graph tree).Ordered ∧
      graph.vertexCount ∈
      (addTree origin scopes parent graph tree).line ((addTree origin scopes parent graph tree).vertexCount - 1)
  | ⟨kind, span, props, children⟩, hkeys, scopes, parent, graph, planted, ordered, hparent => by
    have hlt : ∀ p ∈ parent, p < graph.vertexCount := fun p hp => (hparent p hp).1
    have grows := grows_addNode origin scopes kind span props hlt
    have hplanted := planted_addNode origin scopes planted kind span (hkeys _ (Tree.self_mem_nodes _)) hlt
    have hordered := grows.ordered planted hplanted ordered hparent
    rw [addTree]
    refine ordered_addTrees origin children
      (fun tree htree node hnode => hkeys node (Tree.mem_nodes.mpr (.inr ⟨tree, htree, hnode⟩))) _ _ _ hplanted
      hordered ?_ ?_
    · rw [grows.vertexCount_eq]
      omega
    · rw [grows.vertexCount_eq]
      exact mem_cons_self

theorem ordered_addTrees (origin : Origin) :
    (trees : List Tree) → (∀ tree ∈ trees, ∀ node ∈ tree.nodes, Tree.FreeKeys node.props) → (scopes : ScopeStack) →
    (parent : Nat) → (graph : CodeGraph) → graph.Planted → graph.Ordered →
    parent < graph.vertexCount → parent ∈ graph.line (graph.vertexCount - 1) →
    (addTrees origin scopes parent graph trees).Ordered ∧
      parent ∈ (addTrees origin scopes parent graph trees).line
      ((addTrees origin scopes parent graph trees).vertexCount - 1)
  | [], _, scopes, parent, graph, _, ordered, _, hopen => by
    rw [addTrees]
    exact ⟨ordered, hopen⟩
  | tree :: rest, hkeys, scopes, parent, graph, planted, ordered, hparent, hopen => by
    obtain ⟨htree, hrest⟩ := forall_mem_cons.mp hkeys
    have hadds := addsTree origin tree htree scopes (some parent) graph planted (by simpa using hparent)
    obtain ⟨hordered, hlast⟩ :=
      ordered_addTree origin tree htree scopes (some parent) graph planted ordered (by simpa using ⟨hparent, hopen⟩)
    have forest := hadds.sprouts.planted.isForest
    have hroot : parent ∈ (addTree origin scopes (some parent) graph tree).line graph.vertexCount := by
      have hp : (addTree origin scopes (some parent) graph tree).parent? graph.vertexCount = some parent := by
        rw [parent?, hadds.in_eq]
        rfl
      rw [line_of_parent forest hadds.lt hp]
      exact mem_cons_of_mem _ mem_cons_self
    rw [addTrees]
    have hlt := hadds.lt
    exact ordered_addTrees origin rest hrest scopes parent _ hadds.sprouts.planted hordered (Nat.lt_trans hparent hlt)
      (mem_line_trans forest (by omega) hroot hlast)

end

theorem ordered_plant {graph : CodeGraph} {roots : List Tree} (bears : Bears graph roots) (ordered : graph.Ordered)
    (isStandard : Bool) (units : List CompilationUnit) (hread : ∀ unit ∈ units, IsRead unit) :
    (plant isStandard graph units).Ordered := by
  induction units generalizing graph roots with
  | nil => exact ordered
  | cons unit rest ih =>
    obtain ⟨hfirst, hrest⟩ := forall_mem_cons.mp hread
    have hkeys : ∀ node ∈ (complete unit.root).nodes, Tree.FreeKeys node.props :=
      fun node hnode => ((well_complete hfirst.2 hfirst.1).1 node hnode).freeKeys
    have hnext :=
      (ordered_addTree ⟨unit.name, isStandard⟩ (complete unit.root) hkeys {} none graph bears.planted ordered
      (by simp)).1
    exact ih (bears.materialize ⟨unit.name, isStandard⟩ hkeys) hnext hrest

variable {units : List CompilationUnit}

theorem ordered_typesGraph (settings : Settings) (hread : ∀ unit ∈ units, IsRead unit) :
    (typesGraph settings units).Ordered :=
  ordered_plant (Bears.plant bears_empty false units hread)
  (ordered_plant bears_empty ordered_empty false units hread) true (stubs settings) fun unit hunit =>
  (stubs_flawless settings unit hunit).1

/-! ## Builds -/

/-- A build adds edges and late facts to the planted trees, and nothing else. -/
theorem sameTree_of_build {settings : Settings} {graph : CodeGraph} {stats : Stats}
    (hread : ∀ unit ∈ units, IsRead unit) (h : build settings units = .ok (graph, stats)) :
    (typesGraph settings units).SameTree graph := by
  have hends := build_ends settings hread
  rw [h] at hends
  rw [build_of_not_dead hread hends.2.1] at h
  have bears := bears_typesGraph settings hread
  have hinheritance := resolveInheritance_ends bears.planted.noSupertypes
  obtain ⟨answer, linked, hrun⟩ : ∃ answer linked, resolveInheritance.run (typesGraph settings units) =
    (answer, linked) :=
    ⟨_, _, rfl⟩
  rw [hrun] at hinheritance
  simp only [hrun] at h
  cases answer with
  | error error => cases h
  | ok inheritance =>
    obtain ⟨-, -, same, keeps⟩ := hinheritance
    obtain ⟨methods, -, -, hlaid, -⟩ := synthesizeAll_ends bears
      (fun root hroot => (well_allUnits settings hread root hroot).1)
      (fun root hroot => (well_allUnits settings hread root hroot).2) same keeps
    obtain ⟨count, after, hlay⟩ : ∃ count after, Flow.synthesizeAll linked = (count, after) := ⟨_, _, rfl⟩
    rw [hlay] at hlaid
    simp only [hlay] at h
    cases hfault : Flow.methodsFault? methods with
    | some fault =>
      rw [hfault] at hlaid
      obtain ⟨partly, hcount⟩ := hlaid
      obtain rfl : count = .error (fault.error partly) := hcount
      cases h
    | none =>
      rw [hfault] at hlaid
      obtain ⟨⟨total, hcount⟩, hlays⟩ := hlaid
      obtain rfl : count = .ok total := hcount
      obtain ⟨rfl, -⟩ := Prod.mk.inj (Except.ok.inj h)
      exact same.trans hlays.sameTree

end ApexPaths.Build

/-!
## Declarations

A statement that declares variables stands in a block, or it comes first in
a loop.
-/

namespace ApexPaths.CodeGraph

def declares (graph : CodeGraph) (v : VertexId) : Bool := graph.is v .variableDeclarationStatements

/-- The vertex is a loop that may begin with the declaration of variables. -/
def IsDeclaringLoop (graph : CodeGraph) (p : VertexId) : Prop :=
  graph.label? p = some .forEachStatement ∨ graph.label? p = some .forLoopStatement ∧
  graph.flag p (.fact .hasInit) = true

/-- Variables are declared in blocks, or by the first part of a loop. -/
def DeclaresInPlace (graph : CodeGraph) : Prop := ∀ p, ∀ d ∈ graph.children p, graph.declares d = true →
  graph.label? p = some .blockStatement ∨ graph.IsDeclaringLoop p ∧ (graph.children p).head? = some d

theorem SameTree.declaresInPlace {graph graph' : CodeGraph} (same : SameTree graph graph') (h : graph.DeclaresInPlace) :
    graph'.DeclaresInPlace := by
  intro p d hd hdeclares
  rw [declares, same.is_eq] at hdeclares
  rw [same.children_eq] at hd
  rw [IsDeclaringLoop, same.label?_eq, same.children_eq, same.flag_eq p rfl]
  exact h p d hd hdeclares

/-- What declares variables lies directly under a vertex that opens a scope. -/
theorem DeclaresInPlace.scope?_isSome {graph : CodeGraph} (h : graph.DeclaresInPlace) {p d : VertexId}
    (hd : d ∈ graph.children p) (hdeclares : graph.declares d = true) : (graph.scope? p).isSome = true := by
  rcases h p d hd hdeclares with hp | ⟨hp | ⟨hp, -⟩, -⟩ <;> simp [scope?, hp, NodeKind.opensScope]

end ApexPaths.CodeGraph

namespace ApexPaths.Build

open Source CodeGraph List

theorem head?_eq_of_declares {graph : CodeGraph} {first : Tree} {rest : List Tree} {ids : List VertexId}
    (h : CarriesAll graph (first :: rest) ids) (hrest : ∀ tree ∈ rest, tree.kind ≠ .variableDeclarationStatements)
    {d : VertexId}
    (hd : d ∈ ids) (hdeclares : graph.declares d = true) : ids.head? = some d := by
  obtain ⟨id, more, rfl, -, hmore⟩ := h
  rcases mem_cons.mp hd with rfl | hd
  · rfl
  · obtain ⟨tree, htree, hcarries⟩ := hmore.exists_mem.2 d hd
    rw [declares, graph.is_iff, hcarries.label] at hdeclares
    exact absurd (Option.some.inj hdeclares) (hrest tree htree)

/-- Declarations stand in statements that declare. -/
theorem Bears.declaresInPlace {graph : CodeGraph} {roots : List Tree} (bears : Bears graph roots)
    (hwell : ∀ root ∈ roots, root.Well true) : graph.DeclaresInPlace := by
  intro p d hd hdeclares
  have hp : p < graph.vertexCount := by
    have hparent := bears.planted.isForest.parent_of_mem hd
    exact Nat.lt_trans (bears.planted.isForest.parent_lt hparent) (lt_of_parent? hparent)
  obtain ⟨root, hroot, node, hnode, hcarries⟩ := bears.exists_node hp
  obtain ⟨child, hchild, hcarried⟩ := hcarries.children.exists_mem.2 d hd
  have hkind : child.kind = .variableDeclarationStatements := by
    have hlabel := hcarried.label
    rw [graph.is_iff.mp hdeclares] at hlabel
    exact (Option.some.inj hlabel).symm
  have hall := hcarries.children
  have hflag := hcarries.flag (k := .hasInit) rfl
  have hlabel := hcarries.label
  have hholds := (hwell root hroot node hnode).holds
  rw [IsDeclaringLoop, hlabel]
  have hblocks : ∀ {blocks : List Tree}, Tree.LoopBlocks true blocks → ∀ tree ∈ blocks,
      tree.kind ≠ .variableDeclarationStatements := by
    intro blocks h tree htree
    simp [h.kind_eq tree htree]
  generalize node.kind = kind at hholds
  have hmay := hholds.mayHold child hchild
  rw [hkind] at hmay
  -- Only blocks and two kinds of loops hold such statements.
  cases kind
  case blockStatement => exact .inl rfl
  case forEachStatement =>
    obtain ⟨variable_, iterable, blocks, he, -, hiterable, hloop⟩ := hholds
    rw [he] at hall
    refine .inr ⟨.inl rfl,
      head?_eq_of_declares hall (forall_mem_cons.mpr ⟨fun e => ?_, hblocks hloop⟩) hd hdeclares⟩
    rw [e] at hiterable
    exact absurd hiterable (by decide)
  case forLoopStatement =>
    obtain ⟨init, test, update, blocks, he, hprops, -, htest, hupdate, hloop⟩ := hholds
    have hrest : ∀ tree ∈ test.toList ++ update.toList ++ blocks, tree.kind ≠ .variableDeclarationStatements := by
      simp only [forall_mem_append, Option.mem_toList]
      exact ⟨⟨fun tree ht => by simp [htest tree ht], fun tree ht => by simp [hupdate tree ht]⟩, hblocks hloop⟩
    cases init with
    | none =>
      rw [he] at hchild
      exact absurd hkind (hrest child (by simpa using hchild))
    | some first =>
      rw [he, show (some first).toList ++ test.toList ++ update.toList ++ blocks =
        first :: (test.toList ++ update.toList ++ blocks) by simp] at hall
      refine .inr ⟨.inr ⟨rfl, ?_⟩, head?_eq_of_declares hall hrest hd hdeclares⟩
      rw [hflag, hprops]
      rfl
  all_goals exact absurd hmay (by decide)

theorem declaresInPlace_typesGraph (settings : Settings) {units : List CompilationUnit}
    (hread : ∀ unit ∈ units, IsRead unit) : (typesGraph settings units).DeclaresInPlace :=
  (bears_typesGraph settings hread).declaresInPlace fun root hroot => (well_allUnits settings hread root hroot).1

end ApexPaths.Build
