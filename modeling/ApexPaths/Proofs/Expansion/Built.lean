import ApexPaths.Proofs.Build.Changes
import ApexPaths.Proofs.Build.Operands
import ApexPaths.Proofs.Expansion.Machine
import ApexPaths.Proofs.Path.Forward
import ApexPaths.Proofs.Program.Scores

/-!
Every site runs a method of the graph: calls and accessors are chosen among the methods of types, and
so are the invokers of static blocks.
-/

namespace ApexPaths
set_option autoImplicit false

open List Expander

variable {method : VertexId} {settings : Settings} {sources : List (String × String)}

theorem CodeGraph.is_of_mem_methods {graph : CodeGraph} {type : VertexId} (h : method ∈ graph.methods type) :
    graph.is method .method = true :=
  (mem_filter.mp h).2

namespace Program

variable {program : Program}

theorem is_of_selectConstructor? {type method : VertexId} {args : List StaticType} {context : Option VertexId}
    (h : program.selectConstructor? type args context = some method) : program.graph.is method .method = true :=
  CodeGraph.is_of_mem_methods (mem_filter.mp (mem_of_firstLeast h)).1

theorem is_of_mem_candidates {owner : VertexId} {name : String} {arity : Nat}
    (h : method ∈ program.candidates owner name arity) : program.graph.is method .method = true := by
  obtain ⟨type, -, hmethod⟩ := mem_flatMap.mp (mem_filter.mp h).1
  exact CodeGraph.is_of_mem_methods hmethod

theorem is_of_target? {call : VertexId} (h : program.target? call = some method) :
    program.graph.is method .method = true := by
  rw [target?, targetGiven?] at h
  split at h
  · obtain ⟨created, -, h⟩ := Option.bind_eq_some_iff.mp h
    split at h
    · cases h
    · obtain ⟨type, -, h⟩ := Option.bind_eq_some_iff.mp h
      exact is_of_selectConstructor? h
  · obtain ⟨type, -, h⟩ := Option.bind_eq_some_iff.mp h
    exact is_of_selectConstructor? h
  · obtain ⟨type, -, h⟩ := Option.bind_eq_some_iff.mp h
    exact is_of_selectConstructor? h
  · obtain ⟨name, -, h⟩ := Option.bind_eq_some_iff.mp h
    obtain ⟨owner, -, h⟩ := exists_of_findSome?_eq_some h
    exact is_of_mem_candidates (mem_of_firstLeast h)
  · cases h

theorem is_of_accessor? {accessorName : String → String} {expr : VertexId}
    (h : program.accessor? accessorName expr = some method) : program.graph.is method .method = true := by
  obtain ⟨binding, -, h⟩ := Option.bind_eq_some_iff.mp h
  split at h
  · obtain ⟨name, -, h⟩ := Option.bind_eq_some_iff.mp h
    dsimp only at h
    split at h
    · cases h
    · exact CodeGraph.is_of_mem_methods (mem_of_find?_eq_some h)
  · cases h

theorem is_of_runMethod? {expr : VertexId} (h : program.runMethod? expr = some method) :
    program.graph.is method .method = true := by
  rw [runMethod?] at h
  split at h
  · exact is_of_target? h
  · split at h
    · exact is_of_accessor? h
    · split at h
      · obtain ⟨target, -, h⟩ := Option.bind_eq_some_iff.mp h
        split at h
        · exact is_of_accessor? h
        · cases h
      · cases h

theorem is_of_initSite? {expression : Option VertexId} {type : VertexId} {site : Site}
    (h : program.initSite? expression type = some site) : program.graph.is site.callee .method = true := by
  obtain ⟨invoker, hinvoker, rfl⟩ := Option.map_eq_some_iff.mp h
  exact CodeGraph.is_of_mem_methods (mem_of_find?_eq_some hinvoker)

theorem is_of_mem_sitesAt {vertex : VertexId} :
    ∀ site ∈ program.sitesAt vertex, program.graph.is site.callee .method = true := by
  have hfold : ∀ (exprs : List VertexId) (sites : List Site),
    (∀ site ∈ sites, program.graph.is site.callee .method = true) → ∀ site ∈ exprs.foldl program.withSitesOf sites,
    program.graph.is site.callee .method = true := by
    intro exprs
    induction exprs with
    | nil => exact fun _ h => h
    | cons expr rest ih =>
      refine fun sites h => ih _ ?_
      intro site hsite
      rcases mem_append.mp hsite with hsite | hsite
      · rcases mem_append.mp hsite with hsite | hsite
        · exact h site hsite
        · obtain ⟨type, -, hinit⟩ :=
            Option.bind_eq_some_iff.mp (Option.filter_eq_some_iff.mp (Option.mem_toList.mp hsite)).1
          exact is_of_initSite? hinit
      · obtain ⟨method, hmethod, rfl⟩ := Option.map_eq_some_iff.mp (Option.mem_toList.mp hsite)
        exact is_of_runMethod? hmethod
  exact hfold _ [] (by simp)

end Program

theorem Expander.is_of_mem_sitesOf (graph : CodeGraph) (settings : Settings) (options : ExpansionOptions)
    {vertex : VertexId} {isFirst : Bool} : ∀ site ∈ (ofGraph graph settings options).sitesOf method isFirst vertex,
    graph.is site.callee .method = true := by
  intro site hsite
  rw [sitesOf] at hsite
  split at hsite
  · rcases mem_append.mp hsite with hsite | hsite
    · split at hsite
      · obtain ⟨type, -, hinit⟩ := Option.bind_eq_some_iff.mp (Option.mem_toList.mp hsite)
        exact Program.is_of_initSite? hinit
      · cases hsite
    · by_cases hvertex : vertex < graph.vertexCount
      · rw [show (ofGraph graph settings options).sites.sites vertex = (Program.ofGraph graph).sitesAt vertex from
          SiteTable.sites_ofProgram hvertex] at hsite
        exact Program.is_of_mem_sitesAt site hsite
      · simp [ofGraph, SiteTable.sites, SiteTable.ofProgram, show (Program.ofGraph graph).graph = graph from rfl,
          hvertex] at hsite
  · cases hsite

/-!
## Graphs that were built

All methods of a graph that was built can be enumerated, so an expansion ends, and
only the limit can stop it.
-/

open ApexPaths.Flow

namespace Flow

theorem fault?_of_mem {methods : List (VertexId × Option Block)} (hfault : methodsFault? methods = none)
    {method : VertexId × Option Block} (hmethod : method ∈ methods) {body : Block} (hbody : method.2 = some body) :
    body.fault? false = none := by
  have hnone := List.findSome?_eq_none_iff.mp hfault method hmethod
  rwa [hbody] at hnone

variable {linked graph : CodeGraph} {methods : List (VertexId × Option Block)}

theorem LaysAll.body?_eq (lays : LaysAll linked methods graph) {method : VertexId × Option Block}
    (hbody : HasBody linked method.1 method.2) : graph.body? method.1 = method.2.map Block.id := by
  have same := lays.sameTree
  rw [← hbody.lastBlock?_eq, CodeGraph.body?, CodeGraph.lastBlock?, CodeGraph.lastChild?, Flow.lastBlock?,
    same.children_eq]
  congr 1
  exact funext fun v => same.is_eq v _

/-- The forward paths of a method are the traces of its body. -/
theorem LaysAll.forward_eq (lays : LaysAll linked methods graph) (forest : linked.IsForest)
    (hfault : methodsFault? methods = none) {method : VertexId × Option Block} (hmethod : method ∈ methods)
    (hbody : HasBody linked method.1 method.2) :
    Path.forward graph method.1 = .ok ((method.2.map Block.traces).getD [] |>.map fun vertices =>
    { method := method.1, vertices }) := by
  have same := lays.sameTree
  rw [Path.forward, same.is_eq, if_pos hbody.isMethod, lays.body?_eq hbody]
  cases hblock : method.2 with
  | none => rfl
  | some body =>
    have hrun := forwardFrom_of_stands forest (hbody.holds body hblock) (fault?_of_mem hfault hmethod hblock) same
      (lays.stands method hmethod body hblock) method.1
    simp only [Option.map_some, hrun]
    rfl

end Flow

/-- The body of a method of a built graph is a block, for which control flow is laid without a fault. The forward
paths of the method are its traces. -/
theorem Build.IsBuilt.exists_block {graph : CodeGraph} (built : Build.IsBuilt graph) {body : VertexId}
    (hmethod : graph.is method .method = true) (hbody : graph.body? method = some body) :
    ∃ b : Block, b.id = body ∧ b.Holds graph ∧ b.fault? false = none ∧ (∀ j ∈ b.bodyJunctions, j.Stands graph) ∧
      Path.forward graph method = .ok (b.traces.map fun vertices => { method, vertices }) := by
  obtain ⟨linked, methods, forest, hbodies, hids, hfault, lays⟩ := built.exists_laid
  have hmem : method ∈ methods.map Prod.fst := by
    rw [hids]
    exact CodeGraph.mem_withLabel.mpr (by rwa [← lays.sameTree.is_eq])
  obtain ⟨entry, hentry, rfl⟩ := mem_map.mp hmem
  rw [lays.body?_eq (hbodies entry hentry)] at hbody
  obtain ⟨b, hblock, hid⟩ := Option.map_eq_some_iff.mp hbody
  refine ⟨b, hid, (b.holds_congr lays.sameTree).mpr ((hbodies entry hentry).holds b hblock),
    fault?_of_mem hfault hentry hblock, lays.stands entry hentry b hblock, ?_⟩
  have hforward := lays.forward_eq forest hfault hentry (hbodies entry hentry)
  rwa [hblock] at hforward

/-- Every method can be enumerated, and only one without a body has no path. -/
theorem Build.IsBuilt.exists_forward {graph : CodeGraph} (built : Build.IsBuilt graph)
    (h : graph.is method .method = true) :
    ∃ paths, Path.forward graph method = .ok paths ∧ (paths = [] ↔ graph.body? method = none) := by
  obtain ⟨linked, methods, forest, hbodies, hids, hfault, lays⟩ := built.exists_laid
  have hmem : method ∈ methods.map Prod.fst := by
    rw [hids]
    exact CodeGraph.mem_withLabel.mpr (by rwa [← lays.sameTree.is_eq])
  obtain ⟨entry, hentry, rfl⟩ := mem_map.mp hmem
  refine ⟨_, lays.forward_eq forest hfault hentry (hbodies entry hentry), ?_⟩
  rw [lays.body?_eq (hbodies entry hentry), map_eq_nil_iff]
  cases hblock : entry.2 with
  | none => simp
  | some body =>
    have hne := Block.traces_ne_nil (fault?_of_mem hfault hentry hblock)
    simpa using hne

/-- Every method of a built graph has its forward paths. -/
theorem Expander.sound_ofGraph {graph : CodeGraph} (built : Build.IsBuilt graph) (settings : Settings)
    (options : ExpansionOptions) : (ofGraph graph settings options).Sound where
  exists_forward _ h := (built.exists_forward h).imp fun _ => And.left
  is_callee _ _ _ := is_of_mem_sitesOf graph settings options

/-- Some sources are read, and this is the graph that is built from them. -/
def Build.IsGraphOf (settings : Settings) (sources : List (String × String)) (graph : CodeGraph) : Prop :=
  ∃ units stats, Source.parseAll sources = .ok units ∧ Build.build settings units = .ok (graph, stats)

/-- The graph of accepted sources is built. -/
theorem Build.IsGraphOf.isBuilt {graph : CodeGraph}
    (h : Build.IsGraphOf settings sources graph) : Build.IsBuilt graph := by
  obtain ⟨units, stats, hread, hbuild⟩ := h
  have hends := Build.build_ends settings (Source.well_of_parseAll hread)
  rw [hbuild] at hends
  exact hends.1

theorem Build.IsGraphOf.tellsTruth {graph : CodeGraph}
    (h : Build.IsGraphOf settings sources graph) : graph.TellsTruth := by
  obtain ⟨units, stats, hread, hbuild⟩ := h
  exact Build.tellsTruth_of_build hread hbuild

theorem Build.IsGraphOf.leadsInside {graph : CodeGraph}
    (h : Build.IsGraphOf settings sources graph) : Build.LeadsInside graph := by
  obtain ⟨units, stats, -, hbuild⟩ := h
  exact Build.leadsInside_of_build hbuild

/-! ## A class with a static block and calls that fork -/

/-- A class with a static block, a method with two paths, and a method that calls it twice. -/
def callingTwice : String :=
  "class A { static { } static void n(Boolean x) { if (x) { } } void m(Boolean x) { n(x); A.n(x); } }"

/-- Settings without the standard library and without limits. -/
def bareSettings : Settings := { includeStandardLibrary := false, stackDepthLimit := -1, pathExpansionLimit := -1 }

/-- Some method of the graph built from a tree passes a test. -/
def anyMethod (test : CodeGraph → VertexId → Bool) (tree : Source.Tree) : Bool :=
  match Build.build bareSettings [⟨"A", tree⟩] with
  | .ok (graph, _) => (graph.withLabel .method).any (test graph)
  | .error _ => false

theorem exists_graph {text : String} {test : CodeGraph → VertexId → Bool}
    (h : (Build.treeOfChars text.toList).toOption.any (anyMethod test) = true) :
    ∃ graph method, Build.IsGraphOf bareSettings [("A", text)] graph ∧ graph.is method .method = true ∧
    test graph method = true := by
  obtain ⟨tree, htree, htest⟩ := Build.exists_parse h "A"
  rw [anyMethod] at htest
  split at htest
  · obtain ⟨method, hmethod, htest⟩ := any_eq_true.mp htest
    refine ⟨_, method, ⟨_, _, mapM_cons_eq_ok.mpr ⟨_, [], htree, rfl, rfl⟩, ‹_›⟩,
      CodeGraph.mem_withLabel.mp hmethod, htest⟩
  · cases htest

/-- The units of some texts, each text taken by its characters. -/
def unitsOfChars (sources : List (String × String)) : Except Source.Fault (List Source.CompilationUnit) :=
  sources.mapM fun source => (Build.treeOfChars source.2.toList).map (Source.CompilationUnit.mk source.1)

theorem parseAll_of_unitsOfChars {units : List Source.CompilationUnit}
    (h : unitsOfChars sources = .ok units) : Source.parseAll sources = .ok units := by
  induction sources generalizing units with
  | nil => exact congrArg Except.ok (Except.ok.inj h)
  | cons source rest ih =>
    obtain ⟨unit, others, hunit, hothers, rfl⟩ := mapM_cons_eq_ok.mp h
    refine mapM_cons_eq_ok.mpr ⟨unit, others, ?_, ih hothers, rfl⟩
    show Source.parse source.1 source.2 = _
    rw [Source.parse, Build.parseTree_eq]
    cases htree : Build.treeOfChars source.2.toList with
    | error fault =>
      rw [htree] at hunit
      cases hunit
    | ok tree =>
      rw [htree] at hunit
      exact congrArg Except.ok (Except.ok.inj hunit)

/-- Sources are accepted and their graph passes a test. -/
def buildsTo (test : CodeGraph → Bool) (sources : List (String × String)) : Bool :=
  match unitsOfChars sources with
  | .ok units =>
    match Build.build bareSettings units with
    | .ok (graph, _) => test graph
    | .error _ => false
  | .error _ => false

theorem exists_graphOf {test : CodeGraph → Bool} (h : buildsTo test sources = true) :
    ∃ graph, Build.IsGraphOf bareSettings sources graph ∧ test graph = true := by
  rw [buildsTo] at h
  split at h
  · split at h
    · exact ⟨_, ⟨_, _, parseAll_of_unitsOfChars ‹_›, ‹_›⟩, h⟩
    · cases h
  · cases h

/-- A method has one path, with four expansions that ask for three forks; each initializes one class itself. -/
def expandsFourfold (graph : CodeGraph) (method : VertexId) : Bool :=
  let expander := ofGraph graph bareSettings {}
  let bound := (graph.withLabel .method).length + 1
  match expander.forwardPaths method with
  | [path] =>
    let results := expander.expansionsWithin bound [method] { path }
    results.length == 4 && expander.forksWithin bound [method] { path } == 3 &&
      results.all fun strand => strand.path.staticInits.length == 1
  | _ => false

theorem expandsFourfold_callingTwice :
    (Build.treeOfChars callingTwice.toList).toOption.any (anyMethod expandsFourfold) = true :=
  Build.any_of_toList_eq String.toList_ofList (by decide +kernel)

theorem exists_fourfold : ∃ graph path, Build.IsGraphOf bareSettings [("A", callingTwice)] graph ∧
    Path.forward graph path.method = .ok [path] ∧
    ((ofGraph graph bareSettings {}).expansions [path.method] { path }).length = 4 ∧
    (ofGraph graph bareSettings {}).forks [path.method] { path } = 3 ∧
    ∀ strand ∈ (ofGraph graph bareSettings {}).expansions [path.method] { path },
    strand.path.staticInits.length = 1 := by
  obtain ⟨graph, method, hgraph, -, htest⟩ := exists_graph expandsFourfold_callingTwice
  rw [expandsFourfold] at htest
  split at htest
  case h_2 => cases htest
  case h_1 path hpaths =>
    have hmem : path ∈ (ofGraph graph bareSettings {}).forwardPaths method := by simp [hpaths]
    obtain ⟨vertices, rfl⟩ := eq_of_mem_forwardPaths hmem
    have hbound : (ofGraph graph bareSettings {}).idleCount [method] < (graph.withLabel .method).length + 1 :=
      Nat.lt_succ_of_le (length_filter_le ..)
    rw [expansionsWithin_eq _ hbound, forksWithin_eq _ hbound] at htest
    refine ⟨graph, { method, vertices }, hgraph,
      (forward_of_mem_forwardPaths hmem).trans (congrArg _ hpaths), ?_⟩
    simpa [and_assoc] using htest

theorem exists_fourfold_run : ∃ graph path paths, Build.IsGraphOf bareSettings [("A", callingTwice)] graph ∧
    Path.forward graph path.method = .ok [path] ∧
    (((ofGraph graph bareSettings {}).expandPath path).run { registry := { limit := .unlimited } }).1 =
    .ok paths ∧
    paths.length = 4 ∧ ∀ expanded ∈ paths, expanded.staticInits.length = 1 := by
  obtain ⟨graph, path, hgraph, hforward, hcount, hforks, hinits⟩ := exists_fourfold
  have hasks := asks_expandPath (sound_ofGraph hgraph.isBuilt bareSettings {}) path
  have hrun := hasks.result_eq (valid_start graph .unlimited)
  rw [hforks, Registry.outcome, if_pos (by decide)] at hrun
  exact ⟨graph, path, _, hgraph, hforward, hrun, by simpa using hcount, forall_mem_map.mpr hinits⟩

/-! ## The expansion of a path -/

namespace Expander

theorem forwardPaths_eq_nil_iff {graph : CodeGraph} (built : Build.IsBuilt graph) (settings : Settings)
    (options : ExpansionOptions) (h : graph.is method .method = true) :
    (ofGraph graph settings options).forwardPaths method = [] ↔ graph.body? method = none := by
  obtain ⟨paths, hpaths, hnone⟩ := built.exists_forward h
  rw [forwardPaths, show Path.forward (ofGraph graph settings options).graph method = .ok paths from hpaths]
  exact hnone

/-- Over a graph that was built, the frames of a path come to the expansions of the recursion, unless there are
more forks than the counter can hold. This needs no bound on the depth, and takes one into account. The callees that the
recursion passes over for lack of paths are those without a body. -/
theorem expandPath_eq_expansions {config : Settings} {sources : List (String × String)} {graph : CodeGraph}
    (h : Build.IsGraphOf config sources graph) (settings : Settings) (options : ExpansionOptions) (path : CodePath)
    {state : ExpansionState} (valid : state.Valid graph) (hlimit : state.registry.limit = .unlimited) :
    (((ofGraph graph settings options).expandPath path).run state).1 =
      (if state.registry.forks + (ofGraph graph settings options).forks [path.method] { path } ≤ maxCount then
        .ok (((ofGraph graph settings options).expansions [path.method] { path }).map (·.path))
      else .error (.expansionLimit maxCount)) ∧
    ∀ callee, graph.is callee .method = true →
      ((ofGraph graph settings options).forwardPaths callee = [] ↔ graph.body? callee = none) := by
  have hasks := asks_expandPath (sound_ofGraph h.isBuilt settings options) path
  refine ⟨?_, fun callee => forwardPaths_eq_nil_iff h.isBuilt settings options⟩
  rw [hasks.result_eq valid, Registry.outcome, hlimit]
  rfl

/-- Each of the two calls goes on with either path of the callee. -/
theorem callingTwice_expandPath : ∃ graph path paths, Build.IsGraphOf bareSettings [("A", callingTwice)] graph ∧
    Path.forward graph path.method = .ok [path] ∧
    (((ofGraph graph bareSettings {}).expandPath path).run { registry := { limit := .unlimited } }).1 = .ok paths ∧
    paths = ((ofGraph graph bareSettings {}).expansions [path.method] { path }).map (·.path) ∧ paths.length = 4 := by
  obtain ⟨graph, path, hgraph, hforward, hcount, hforks, -⟩ := exists_fourfold
  obtain ⟨hrun, -⟩ := expandPath_eq_expansions hgraph bareSettings {} path (valid_start graph .unlimited) rfl
  rw [hforks, if_pos (by decide)] at hrun
  exact ⟨graph, path, _, hgraph, hforward, hrun, rfl, by simpa using hcount⟩

end Expander

end ApexPaths
