import ApexPaths.Proofs.Build.Bodies
import ApexPaths.Proofs.Build.Supertypes
import ApexPaths.Proofs.Source.Unit
import Mathlib.Tactic.Choose

/-!
Control flow of a graph that is made of completed types. Every method has a body that can be laid, and
no two bodies share a vertex; so control flow is added to the whole graph, or some method holds a stray
jump or an open `if` chain.

The standard stubs can be read, and nothing in them stops a build.
-/

namespace ApexPaths.Build
set_option autoImplicit false

open Source CodeGraph ApexPaths.Flow List

variable {roots : List Tree}

/-! ## One method -/

section
variable {graph : CodeGraph}

theorem Planted.untouched (planted : graph.Planted) (top : VertexId) : Untouched graph top := by
  intro v _
  obtain ⟨hsuccessors, hpredecessors, hended⟩ := planted.bare v
  exact ⟨by simp [hasFlowEdges, hsuccessors, hpredecessors], hended⟩

/-- The tree of a method carries a body, whose fault tells the misuses of the tree. -/
theorem exists_body (planted : graph.Planted) {method : Tree} {id : VertexId} (hwell : method.Well true)
    (hkind : method.kind = .method) (hcarries : Carries graph method id) :
    ∃ body, HasBody graph id body ∧ Tells (body.bind (Block.fault? false)) method.HasStrayJump method.HasOpenIf := by
  have hholds := hwell.formed.holds
  rw [hkind] at hholds
  obtain ⟨params, body, he, hparams, hbody⟩ := hholds
  have hmethod : graph.is id .method = true := graph.is_iff.mpr (by rw [hcarries.label, hkind])
  have hno : ∀ param ∈ params, ¬param.HasStrayJump ∧ ¬param.HasOpenIf := fun param hparam =>
    not_misuse_of_isPart hwell (by simp [he, hparam]) (hparams param hparam ▸ rfl)
  obtain ⟨before, after, hids, hbefore, hafter⟩ := carriesAll_append.mp (he ▸ hcarries.children)
  obtain ⟨b, rfl, -, hb, hreports⟩ := exists_optionBlock hafter hbody
    fun t ht v hv => modelled (hwell.child (by simp [he, Option.mem_def.mp ht])) hv
  refine ⟨b, ⟨hmethod, ?_, ?_, fun c hc => Planted.untouched planted c.id⟩, ?_⟩
  · cases b with
    | some b => exact lastBlock?_eq hids (Block.Holds.label hb)
    | none =>
      -- The last child, if there is one, is a parameter.
      rw [Flow.lastBlock?, hids, Option.toList_none, map_nil, append_nil, Option.map_none, Option.filter_eq_none_iff]
      intro v hv
      obtain ⟨param, hparam, hcarries⟩ := hbefore.exists_mem.2 v (mem_of_getLast? hv)
      simp [CodeGraph.is, hcarries.label, hparams param hparam]
  · rintro c rfl
    exact hb
  · have hstray : ¬∃ param ∈ params, param.HasStrayJump := by
      rintro ⟨param, hparam, h⟩
      exact (hno param hparam).1 h
    have hopen : ¬∃ param ∈ params, param.HasOpenIf := by
      rintro ⟨param, hparam, h⟩
      exact (hno param hparam).2 h
    have hmethod : Reports (fun inLoop => optionFault? inLoop b) method.HasStrayJump method.HasOpenIf := by
      refine Reports.ofChildren ?_ (by rw [hkind]; rfl) (by simp [Tree.IsJump, hkind]) (by simp [hkind])
      rw [he]
      refine hreports.congr ?_ ?_
      · simp [or_and_right, exists_or, hstray]
      · simp [or_and_right, exists_or, hopen]
    have hfault : b.bind (Block.fault? false) = optionFault? false b := by cases b <;> rfl
    rw [hfault]
    simpa using hmethod false

theorem bind_fault?_eq_none_iff (forest : graph.IsForest) {id : VertexId} {body : Option Block}
    (h : HasBody graph id body) : body.bind (Block.fault? false) = none ↔ ∃ fresh,
    (synthesize graph id).1 = .ok fresh := by
  cases hbody : body with
  | none =>
    have hlast : Flow.lastBlock? graph id = none := by
      rw [h.lastBlock?_eq, hbody]
      rfl
    simp [synthesize, h.isMethod, pendingBody?, hlast]
  | some b =>
    have hlast : Flow.lastBlock? graph id = some b.id := by
      rw [h.lastBlock?_eq, hbody]
      rfl
    have hrun := synthesize_eq forest h.isMethod hlast (h.holds b hbody) (h.fresh b hbody)
    rw [Option.bind_some]
    cases hfault : b.fault? false with
    | none =>
      rw [hfault] at hrun
      simp [hrun]
    | some fault =>
      rw [hfault] at hrun
      have hfails : (synthesize graph id).1 = .error (fault.error graph) := hrun
      simp [hfails]

/-! ## All methods -/

section
variable (bears : Bears graph roots)
include bears

section
variable (hwell : ∀ root ∈ roots, root.Well true)
include hwell

theorem not_method_of_below
    {method : VertexId} {body : Block} (h : HasBody graph method (some body)) {v : Nat} (hv : graph.Below body.id v) :
    graph.is v .method = false := by
  have hlt := graph.lt_of_label? (h.holds body rfl).label
  obtain ⟨root, hroot, node, hnode, hcarries⟩ := bears.exists_node hlt
  have hblock : node.kind = .blockStatement := by
    have hlabel := hcarries.label
    rw [(h.holds body rfl).label] at hlabel
    exact (Option.some.inj hlabel).symm
  obtain ⟨inner, hmem, hcarries⟩ := hcarries.below bears.planted hv
  have hkind := ((hwell root hroot).node hnode).isInner (hblock ▸ rfl) inner hmem
  rw [CodeGraph.is, hcarries.label]
  refine beq_eq_false_iff_ne.mpr fun e => ?_
  rw [Option.some.inj e] at hkind
  exact absurd hkind (by decide)

/-- Bodies of two methods of a planted graph share no vertex below them. -/
theorem apart
    {first second : VertexId × Option Block} (hne : first.1 ≠ second.1) (h : HasBody graph first.1 first.2)
    (h' : HasBody graph second.1 second.2) : Apart graph first second := by
  have forest := bears.planted.isForest
  have hparent : ∀ {m : VertexId} {b : Block}, HasBody graph m (some b) → graph.parent? b.id = some m := by
    intro m b hbody
    refine forest.parent_of_mem (mem_of_getLast? ?_)
    exact (Option.filter_eq_some_iff.mp hbody.lastBlock?_eq).1
  -- Of two bodies on one line one would lie in the other, and with it its method.
  have hnot : ∀ {m n : VertexId} {a b : Block}, m ≠ n → HasBody graph m (some a) → HasBody graph n (some b) →
      ¬graph.Below a.id b.id := by
    intro m n a b hmn ha hb hbelow
    by_cases he : b.id = a.id
    · have hsame := hparent hb
      rw [he, hparent ha] at hsame
      exact hmn (Option.some.inj hsame)
    · have hinside := hbelow.parent forest he (hparent hb)
      exact absurd hb.isMethod (by simp [not_method_of_below bears hwell ha hinside])
  intro a ha b hb v hav hbv
  rw [show first.2 = some a from ha] at h
  rw [show second.2 = some b from hb] at h'
  rcases mem_line_or_mem_line forest v (Nat.le_refl v) hav.1 hav.2 hbv.2 with hline | hline
  · exact hnot hne h h' ⟨graph.lt_of_label? (h'.holds b rfl).label, hline⟩
  · exact hnot hne.symm h' h ⟨graph.lt_of_label? (h.holds a rfl).label, hline⟩

/-- The methods of a graph have modelled bodies, and the first of their faults tells of the misuse in the trees. -/
theorem exists_methods
    (hkind : ∀ root ∈ roots, root.kind.isTypeDeclaration = true) : ∃ methods : List (VertexId × Option Block),
      methods.map Prod.fst = graph.withLabel .method ∧ (∀ method ∈ methods, HasBody graph method.1 method.2) ∧
        Tells (methodsFault? methods) (∃ root ∈ roots, root.HasStrayJump) (∃ root ∈ roots, root.HasOpenIf) := by
  have hbodies : ∀ id ∈ graph.withLabel .method, ∃ body, HasBody graph id body ∧ ∃ root ∈ roots, ∃ node ∈ root.nodes,
      node.kind = .method ∧ Tells (body.bind (Block.fault? false)) node.HasStrayJump node.HasOpenIf := by
    intro id hid
    have hlabel := graph.is_iff.mp (mem_withLabel.mp hid)
    obtain ⟨root, hroot, node, hnode, hcarries⟩ := bears.exists_node (graph.lt_of_label? hlabel)
    have hnodeKind : node.kind = .method := by
      rw [hcarries.label] at hlabel
      exact Option.some.inj hlabel
    obtain ⟨body, hbody, htells⟩ := exists_body bears.planted ((hwell root hroot).node hnode) hnodeKind hcarries
    exact ⟨body, hbody, root, hroot, node, hnode, hnodeKind, htells⟩
  choose! body hbody hnode using hbodies
  refine ⟨(graph.withLabel .method).map fun id => (id, body id), by simp [Function.comp_def], by simpa using hbody, ?_⟩
  cases hfault : methodsFault? ((graph.withLabel .method).map fun id => (id, body id)) with
  | some fault =>
    obtain ⟨method, hmethod, hfound⟩ := exists_of_findSome?_eq_some hfault
    obtain ⟨id, hid, rfl⟩ := mem_map.mp hmethod
    obtain ⟨root, hroot, node, hmem, hmethodKind, htells⟩ := hnode id hid
    rw [hfound] at htells
    cases fault with
    | strayJump v =>
      have hhas := Tree.testsStatements_jump.has_iff_method (hwell root hroot) (hkind root hroot)
      exact ⟨root, hroot, hhas.mpr ⟨node, hmem, hmethodKind, htells⟩⟩
    | missingElse v =>
      have hhas := Tree.testsStatements_openIf.has_iff_method (hwell root hroot) (hkind root hroot)
      exact ⟨root, hroot, hhas.mpr ⟨node, hmem, hmethodKind, htells⟩⟩
  | none =>
    have hclean : ∀ root ∈ roots, ∀ node ∈ root.nodes, node.kind = .method → ¬node.HasStrayJump ∧ ¬node.HasOpenIf := by
      intro root hroot node hmem hmethodKind
      obtain ⟨top, htop⟩ := bears.carries root hroot
      obtain ⟨id, hcarries⟩ := htop.node hmem
      have hid : id ∈ graph.withLabel .method := by
        rw [mem_withLabel, is_iff, hcarries.label, hmethodKind]
      obtain ⟨other, hother, htells⟩ := exists_body bears.planted ((hwell root hroot).node hmem) hmethodKind hcarries
      have hnone : (body id).bind (Block.fault? false) = none :=
        List.findSome?_eq_none_iff.mp hfault (id, body id) (mem_map_of_mem hid)
      rw [bind_fault?_eq_none_iff bears.planted.isForest (hbody id hid),
        ← bind_fault?_eq_none_iff bears.planted.isForest hother] at hnone
      rwa [hnone] at htells
    constructor
    · rintro ⟨root, hroot, hhas⟩
      obtain ⟨node, hmem, hmethodKind, hhas⟩ :=
        (Tree.testsStatements_jump.has_iff_method (hwell root hroot) (hkind root hroot)).mp hhas
      exact (hclean root hroot node hmem hmethodKind).1 hhas
    · rintro ⟨root, hroot, hhas⟩
      obtain ⟨node, hmem, hmethodKind, hhas⟩ :=
        (Tree.testsStatements_openIf.has_iff_method (hwell root hroot) (hkind root hroot)).mp hhas
      exact (hclean root hroot node hmem hmethodKind).2 hhas

/-- Control flow of a graph that differs from one of completed types only in other edges. -/
theorem synthesizeAll_ends
    (hkind : ∀ root ∈ roots, root.kind.isTypeDeclaration = true) {linked : CodeGraph} (same : graph.SameTree linked)
    (keeps : ∀ v, Keeps graph linked v) : ∃ methods : List (VertexId × Option Block),
      (∀ method ∈ methods, HasBody linked method.1 method.2) ∧
        methods.map Prod.fst = linked.withLabel .method ∧
        Ends linked methods (synthesizeAll linked) (methodsFault? methods) ∧
        Tells (methodsFault? methods) (∃ root ∈ roots, root.HasStrayJump) (∃ root ∈ roots, root.HasOpenIf) := by
  obtain ⟨methods, hids, hbodies, htells⟩ := exists_methods bears hwell hkind
  have hlabels : linked.withLabel .method = graph.withLabel .method := by
    have his : (linked.is · .method) = (graph.is · .method) := funext fun v => same.is_eq v _
    rw [withLabel_eq, withLabel_eq, ids, ids, same.vertexCount_eq, his]
  have hready : ∀ method ∈ methods, HasBody linked method.1 method.2 := fun method hmethod =>
    (hbodies method hmethod).keeps same fun _ _ v _ => keeps v
  have hdistinct : methods.Pairwise fun first second => first.1 ≠ second.1 := by
    refine List.Pairwise.of_map Prod.fst (fun _ _ h => h) ?_
    rw [hids]
    exact (graph.pairwise_withLabel .method).imp Nat.ne_of_lt
  have hapart : methods.Pairwise (Apart linked) := by
    refine hdistinct.imp_of_mem fun {first second} hfirst hsecond hne a ha b hb v hav hbv => ?_
    exact apart bears hwell hne (hbodies first hfirst) (hbodies second hsecond) a ha b hb v (same.below_iff.mp hav)
      (same.below_iff.mp hbv)
  refine ⟨methods, hready, by rw [hids, hlabels], ?_, htells⟩
  rw [synthesizeAll, hlabels, ← hids]
  exact synthesizeMethods_ends (same.isForest bears.planted.isForest) methods hready hapart

end

end

end

/-! ## Stubs -/

open Source

variable {text : String} {unit : CompilationUnit}

/-- A unit as it is read: its root declares a type, and every node is well shaped. -/
def IsRead (unit : CompilationUnit) : Prop := unit.root.kind.isTypeDeclaration = true ∧ unit.root.Well false

/-- The tree of a text that is given by its characters. -/
def treeOfChars (cs : List Char) : Except Source.Fault Tree := do
  let (tokens, finish) ← scanFrom cs.length {} cs
  let (tree, _) ← Reader.compilationUnit { rest := tokens, stop := Token.endAt finish }
  return tree

theorem parseTree_eq (text : String) : parseTree text = treeOfChars text.toList := by
  rw [parseTree, scan, treeOfChars]
  cases scanFrom text.toList.length {} text.toList <;> rfl

/-- A tree in which all code can run, without jumps and without static blocks. -/
def isHarmless (tree : Tree) : Bool :=
  (unreachable? tree).isNone && tree.nodes.all fun node =>
    node.kind != .breakStatement && node.kind != .continueStatement && node.kind != .staticBlock

/-! A text is put together from literals. Its characters are taken from the lists that the literals stand
for: to decode them again from the bytes of a long text takes many times as long as to read it. -/

theorem toList_append_ofList {cs : List Char} (h : text.toList = cs) (ds : List Char) :
    (text ++ String.ofList ds).toList = cs ++ ds := by
  rw [String.toList_append, h, String.toList_ofList]

theorem any_of_toList_eq {cs : List Char} {test : Tree → Bool} (htext : text.toList = cs)
    (h : (treeOfChars cs).toOption.any test = true) : (treeOfChars text.toList).toOption.any test = true := by
  rwa [htext]

theorem isHarmless_exceptions : ∀ name ∈ exceptionNames,
    (treeOfChars ("global class " ++ name ++ " extends Exception \x7b \x7d").toList).toOption.any isHarmless =
    true := by
  simp only [String.toList_append]
  decide +kernel

theorem isHarmless_stubs : ∀ stub ∈ stubSources, (treeOfChars stub.2.toList).toOption.any isHarmless = true := by
  refine forall_mem_append.mpr ⟨forall_mem_append.mpr ⟨forall_mem_singleton.mpr ?_,
    forall_mem_map.mpr isHarmless_exceptions⟩, forall_mem_cons.mpr ⟨?_, forall_mem_cons.mpr ⟨?_,
    forall_mem_cons.mpr ⟨?_, forall_mem_singleton.mpr ?_⟩⟩⟩⟩
  all_goals
    apply any_of_toList_eq
    · repeat apply toList_append_ofList
      exact String.toList_ofList
    · decide +kernel

/-- Nothing in the unit stops a build. -/
structure Flawless (unit : CompilationUnit) : Prop where
  noDeadCode : ¬unit.root.HasDeadCode
  noStrayJump : ¬unit.root.HasStrayJump
  noOpenStaticIf : ¬unit.root.HasOpenStaticIf

theorem flawless_of_isHarmless (h : isHarmless unit.root = true) : Flawless unit := by
  obtain ⟨hdead, hnodes⟩ := Bool.and_eq_true_iff.mp h
  have hkinds : ∀ node ∈ unit.root.nodes,
      (node.kind ≠ .breakStatement ∧ node.kind ≠ .continueStatement) ∧ node.kind ≠ .staticBlock := by
    simpa using hnodes
  refine ⟨fun hhas => ?_, ?_, ?_⟩
  · rw [← unreachable?_isSome_iff, Option.isSome_iff_ne_none] at hhas
    exact hhas (Option.isNone_iff_eq_none.mp hdead)
  · rintro ⟨node, hnode, hjump⟩
    have hkind := hkinds node (Tree.mem_nodes_of_mem_nodesWhere hnode)
    rcases hjump with hk | hk
    · exact hkind.1.1 hk
    · exact hkind.1.2 hk
  · rintro ⟨node, hnode, hk, -⟩
    exact (hkinds node hnode).2 hk

theorem exists_parse {test : Tree → Bool} (h : (treeOfChars text.toList).toOption.any test = true)
    (name : String) : ∃ tree, parse name text = .ok ⟨name, tree⟩ ∧ test tree = true :=
  exists_unit (by rwa [parseTree_eq]) name

theorem exists_parseAll (sources : List (String × String))
    (h : ∀ source ∈ sources, (treeOfChars source.2.toList).toOption.any isHarmless = true) :
    ∃ units, parseAll sources = .ok units ∧ ∀ unit ∈ units, Flawless unit := by
  induction sources with
  | nil => exact ⟨[], rfl, by simp⟩
  | cons source rest ih =>
    obtain ⟨name, text⟩ := source
    obtain ⟨units, hunits, hflawless⟩ := ih fun other hother => h other (mem_cons_of_mem _ hother)
    obtain ⟨tree, htree, hharmless⟩ := exists_parse (h (name, text) mem_cons_self) name
    exact ⟨⟨name, tree⟩ :: units, mapM_cons_eq_ok.mpr ⟨_, units, htree, hunits, rfl⟩,
      forall_mem_cons.mpr ⟨flawless_of_isHarmless hharmless, hflawless⟩⟩

theorem exists_stubUnits : ∃ stubs, stubUnits = .ok stubs ∧ ∀ unit ∈ stubs, IsRead unit ∧ Flawless unit := by
  obtain ⟨stubs, hstubs, hflawless⟩ : ∃ stubs, stubUnits = .ok stubs ∧ ∀ unit ∈ stubs, Flawless unit := by
    rw [stubUnits]
    refine exists_parseAll _ fun source hsource => ?_
    obtain ⟨⟨name, text⟩, hstub, rfl⟩ := mem_map.mp hsource
    exact isHarmless_stubs (name, text) hstub
  exact ⟨stubs, hstubs, fun unit hunit => ⟨well_of_parseAll hstubs unit hunit, hflawless unit hunit⟩⟩

/-!
## Programs that can be built

Code that cannot run is refused first, then a type that is its own
supertype, and last a jump outside of loops. One more thing stops a build: an `if` chain without an
`else` in a static block, since static blocks become methods as they stand in the source.
-/

open Source CodeGraph ApexPaths.Flow

/-! ## Units in a graph -/

/-- The units of the standard library, if the settings ask for it. -/
def stubs (settings : Settings) : List CompilationUnit :=
  if settings.includeStandardLibrary then stubUnits.toOption.getD [] else []

/-- The graph with units materialized in it one after the other. -/
def plant (isStandard : Bool) (graph : CodeGraph) (units : List CompilationUnit) : CodeGraph :=
  units.foldl (fun graph unit => materialize ⟨unit.name, isStandard⟩ graph (complete unit.root)) graph

/-- The graph of some units and the stubs, before types are linked. -/
def typesGraph (settings : Settings) (units : List CompilationUnit) : CodeGraph :=
  plant true (plant false {} units) (stubs settings)

theorem stubs_flawless (settings : Settings) : ∀ unit ∈ stubs settings, IsRead unit ∧ Flawless unit := by
  obtain ⟨units, hunits, hflawless⟩ := exists_stubUnits
  rw [stubs, hunits]
  cases settings.includeStandardLibrary
  · simp
  · exact hflawless

theorem addUnit_eq (isStandard : Bool) (graph : CodeGraph) (hread : IsRead unit)
    (hdead : ¬unit.root.HasDeadCode) :
    addUnit isStandard graph unit = .ok (materialize ⟨unit.name, isStandard⟩ graph (complete unit.root)) := by
  obtain ⟨hwell, hkind⟩ := well_complete hread.2 hread.1
  have hcheck := (refuses_checkReachability unit.name hwell (hkind ▸ hread.1) {}).2
    fun h => hdead ((kept_dead.has_complete hread.2 hread.1).mp h)
  rw [addUnit, hcheck]
  rfl

theorem addUnit_refused (isStandard : Bool) (graph : CodeGraph) (hread : IsRead unit)
    (hdead : unit.root.HasDeadCode) : ∃ owner method line column,
      addUnit isStandard graph unit = .error (.unreachable owner method unit.name line column) := by
  obtain ⟨hwell, hkind⟩ := well_complete hread.2 hread.1
  obtain ⟨owner, method, line, column, hcheck⟩ := (refuses_checkReachability unit.name hwell (hkind ▸ hread.1) {}).1
    ((kept_dead.has_complete hread.2 hread.1).mpr hdead)
  refine ⟨owner, method, line, column, ?_⟩
  rw [addUnit, hcheck]
  rfl

theorem addUnits_eq (isStandard : Bool) (graph : CodeGraph) (units : List CompilationUnit)
    (hread : ∀ unit ∈ units, IsRead unit) (hdead : ¬∃ unit ∈ units, unit.root.HasDeadCode) :
    units.foldlM (addUnit isStandard) graph = .ok (plant isStandard graph units) := by
  induction units generalizing graph with
  | nil => rfl
  | cons unit rest ih =>
    obtain ⟨hfirst, hrest⟩ := forall_mem_cons.mp hread
    have hclean : ¬unit.root.HasDeadCode := fun h => hdead ⟨unit, mem_cons_self, h⟩
    rw [foldlM_cons, addUnit_eq isStandard graph hfirst hclean]
    exact ih _ hrest fun ⟨other, hother, h⟩ => hdead ⟨other, mem_cons_of_mem _ hother, h⟩

theorem addUnits_refused (isStandard : Bool) (graph : CodeGraph) (units : List CompilationUnit)
    (hread : ∀ unit ∈ units, IsRead unit) (hdead : ∃ unit ∈ units, unit.root.HasDeadCode) :
    ∃ owner method unit line column,
      units.foldlM (addUnit isStandard) graph = .error (.unreachable owner method unit line column) := by
  induction units generalizing graph with
  | nil => simp at hdead
  | cons unit rest ih =>
    obtain ⟨hfirst, hrest⟩ := forall_mem_cons.mp hread
    rw [foldlM_cons]
    by_cases h : unit.root.HasDeadCode
    · obtain ⟨owner, method, line, column, hadd⟩ := addUnit_refused isStandard graph hfirst h
      exact ⟨owner, method, unit.name, line, column, by rw [hadd]; rfl⟩
    · obtain ⟨other, hother, hhas⟩ := hdead
      have hother : other ∈ rest := (mem_cons.mp hother).resolve_left fun e => h (e ▸ hhas)
      rw [addUnit_eq isStandard graph hfirst h]
      exact ih _ hrest ⟨other, hother, hhas⟩

theorem Bears.plant {graph : CodeGraph} {roots : List Tree} (bears : Bears graph roots) (isStandard : Bool)
    (units : List CompilationUnit) (hread : ∀ unit ∈ units, IsRead unit) :
    Bears (plant isStandard graph units) (roots ++ units.map fun unit => complete unit.root) := by
  induction units generalizing graph roots with
  | nil => simpa [Build.plant] using bears
  | cons unit rest ih =>
    obtain ⟨hfirst, hrest⟩ := forall_mem_cons.mp hread
    have hwell := (well_complete hfirst.2 hfirst.1).1
    have hkeys : ∀ node ∈ (complete unit.root).nodes, Tree.FreeKeys node.props :=
      fun node hnode => (hwell node hnode).freeKeys
    have hmore := ih (bears.materialize ⟨unit.name, isStandard⟩ hkeys) hrest
    rwa [List.append_assoc, singleton_append] at hmore

/-- All units that enter a graph: those of the sources, and the stubs. -/
def allUnits (settings : Settings) (units : List CompilationUnit) : List CompilationUnit := units ++ stubs settings

theorem bears_typesGraph (settings : Settings) {units : List CompilationUnit} (hread : ∀ unit ∈ units, IsRead unit) :
    Bears (typesGraph settings units) ((allUnits settings units).map fun unit => complete unit.root) := by
  have hunits := Bears.plant bears_empty false units hread
  have hall := hunits.plant true (stubs settings) fun unit hunit => (stubs_flawless settings unit hunit).1
  simpa [typesGraph, allUnits] using hall

theorem well_allUnits (settings : Settings) {units : List CompilationUnit} (hread : ∀ unit ∈ units, IsRead unit) :
    ∀ root ∈ (allUnits settings units).map fun unit => complete unit.root, root.Well true ∧
    root.kind.isTypeDeclaration = true := by
  have hall : ∀ unit ∈ allUnits settings units, IsRead unit :=
    forall_mem_append.mpr ⟨hread, fun unit hunit => (stubs_flawless settings unit hunit).1⟩
  refine forall_mem_map.mpr fun unit hunit => ?_
  obtain ⟨hwell, hkind⟩ := well_complete (hall unit hunit).2 (hall unit hunit).1
  exact ⟨hwell, hkind ▸ (hall unit hunit).1⟩

/-! ## Builds -/

/-- Without dead code a build links the types and lays the flow of the methods. -/
theorem build_of_not_dead {settings : Settings} {units : List CompilationUnit} (hread : ∀ unit ∈ units, IsRead unit)
    (hdead : ¬∃ unit ∈ units, unit.root.HasDeadCode) : build settings units = (do
      let (inheritance, graph) := resolveInheritance.run (typesGraph settings units)
      let inheritance ← inheritance
      let (count, graph) := synthesizeAll graph
      let _ ← count
      return (graph, {
        units := units.length + (stubs settings).length
        vertices := graph.vertexCount
        edges := graph.edgeCount
        inheritanceEdges := inheritance.edges
        unresolvedSupertypes := inheritance.unresolved })) := by
  obtain ⟨units', hstubs, -⟩ := exists_stubUnits
  have hmore :=
    addUnits_eq true (plant false {} units) (stubs settings) (fun unit hunit => (stubs_flawless settings unit hunit).1)
    fun ⟨unit, hunit, h⟩ => (stubs_flawless settings unit hunit).2.noDeadCode h
  rw [build, addUnits_eq false {} units hread hdead, typesGraph]
  cases hasked : settings.includeStandardLibrary with
  | false =>
    rw [show stubs settings = [] by rw [stubs, hasked]; rfl] at hmore ⊢
    rfl
  | true =>
    rw [show stubs settings = units' by rw [stubs, hasked, hstubs]; rfl] at hmore ⊢
    rw [hstubs]
    show (units'.foldlM (addUnit true) (plant false {} units) >>= _) = _
    rw [hmore]
    rfl

/-! ## Misuse in units -/

section
variable (units : List CompilationUnit)

/-- Some unit has code that cannot be reached. -/
def HasDeadCode : Prop := ∃ unit ∈ units, unit.root.HasDeadCode

/-- Some unit has a jump outside every loop. -/
def HasStrayJump : Prop := ∃ unit ∈ units, unit.root.HasStrayJump

/-- Some `if` chain in a static block lacks its `else`. -/
def HasOpenStaticIf : Prop := ∃ unit ∈ units, unit.root.HasOpenStaticIf

end

/-- A type means itself by a supertype that it mentions, or extends itself through others. -/
def HasOwnSupertype (graph : CodeGraph) : Prop := HasSelfSupertype graph ∨ HasExtensionCycle graph

theorem exists_completed_iff {settings : Settings} {units : List CompilationUnit} (hread : ∀ unit ∈ units, IsRead unit)
    {before after : Tree → Prop} (hcomplete : ∀ unit, IsRead unit → (after (complete unit.root) ↔ before unit.root))
    (hstubs : ∀ unit ∈ stubs settings, ¬before unit.root) :
    (∃ root ∈ (allUnits settings units).map fun unit => complete unit.root, after root) ↔ ∃ unit ∈ units,
    before unit.root := by
  simp only [allUnits, mem_map, mem_append]
  constructor
  · rintro ⟨_, ⟨unit, hunit | hunit, rfl⟩, hafter⟩
    · exact ⟨unit, hunit, (hcomplete unit (hread unit hunit)).mp hafter⟩
    · exact absurd ((hcomplete unit (stubs_flawless settings unit hunit).1).mp hafter) (hstubs unit hunit)
  · rintro ⟨unit, hunit, hbefore⟩
    exact ⟨_, ⟨unit, .inl hunit, rfl⟩, (hcomplete unit (hread unit hunit)).mpr hbefore⟩

/-- A graph that was built: control flow was laid for every method, and no body has a fault. -/
structure IsBuilt (graph : CodeGraph) : Prop where
  exists_laid : ∃ (linked : CodeGraph) (methods : List (VertexId × Option Block)), linked.IsForest ∧
    (∀ method ∈ methods, HasBody linked method.1 method.2) ∧ methods.map Prod.fst = linked.withLabel .method ∧
      methodsFault? methods = none ∧ LaysAll linked methods graph

theorem build_ends (settings : Settings) {units : List CompilationUnit} (hread : ∀ unit ∈ units, IsRead unit) :
    match build settings units with
    | .ok (graph, _) => IsBuilt graph ∧ ¬HasDeadCode units ∧ ¬HasOwnSupertype (typesGraph settings units) ∧
        ¬HasStrayJump units ∧ ¬HasOpenStaticIf units
    | .error error =>
      (HasDeadCode units ∧ ∃ owner method unit line column, error = .unreachable owner method unit line column) ∨
      (¬HasDeadCode units ∧ HasOwnSupertype (typesGraph settings units) ∧
        ∃ name, error = .internal (.selfSupertype name) ∨ error = .internal (.cyclicExtension name)) ∨
      (¬HasDeadCode units ∧ ¬HasOwnSupertype (typesGraph settings units) ∧
        ((HasStrayJump units ∧ ∃ word unit line column, error = .strayJump word unit line column) ∨
          (HasOpenStaticIf units ∧ ∃ id, error = .internal (.malformed .ifWithoutElse id)))) := by
  by_cases hdead : HasDeadCode units
  · obtain ⟨owner, method, unit, line, column, hrefused⟩ := addUnits_refused false {} units hread hdead
    rw [build, hrefused]
    exact .inl ⟨hdead, owner, method, unit, line, column, rfl⟩
  have bears := bears_typesGraph settings hread
  have hinheritance := resolveInheritance_ends bears.planted.noSupertypes
  rw [build_of_not_dead hread hdead]
  obtain ⟨answer, linked, hrun⟩ : ∃ answer linked, resolveInheritance.run (typesGraph settings units) =
    (answer, linked) :=
    ⟨_, _, rfl⟩
  rw [hrun] at hinheritance
  simp only [hrun]
  cases answer with
  | error error =>
    obtain ⟨hown, name, he⟩ := hinheritance
    exact .inr (.inl ⟨hdead, hown, name, he⟩)
  | ok inheritance =>
    obtain ⟨hself, hcycle, same, keeps⟩ := hinheritance
    have hown : ¬HasOwnSupertype (typesGraph settings units) := not_or.mpr ⟨hself, hcycle⟩
    obtain ⟨methods, hbodies, hids, hends, htells⟩ := synthesizeAll_ends bears
      (fun root hroot => (well_allUnits settings hread root hroot).1)
      (fun root hroot => (well_allUnits settings hread root hroot).2) same keeps
    have hstray := exists_completed_iff hread (fun unit h => kept_jump.has_complete h.2 h.1)
      fun unit hunit => (stubs_flawless settings unit hunit).2.noStrayJump
    have hopen := exists_completed_iff hread (fun unit h => hasOpenIf_complete h.2 h.1)
      fun unit hunit => (stubs_flawless settings unit hunit).2.noOpenStaticIf
    rw [show (∃ root ∈ (allUnits settings units).map fun unit => complete unit.root, root.HasStrayJump) ↔
      HasStrayJump units from hstray,
      show (∃ root ∈ (allUnits settings units).map fun unit => complete unit.root, root.HasOpenIf) ↔
        HasOpenStaticIf units from hopen] at htells
    obtain ⟨count, graph, hlay⟩ : ∃ count graph, synthesizeAll linked = (count, graph) := ⟨_, _, rfl⟩
    rw [hlay] at hends
    simp only [hlay]
    cases hfault : methodsFault? methods with
    | none =>
      rw [hfault] at hends htells
      obtain ⟨⟨total, hcount⟩, hlays⟩ := hends
      obtain rfl : count = .ok total := hcount
      have forest := same.isForest bears.planted.isForest
      exact ⟨⟨linked, methods, forest, hbodies, hids, hfault, hlays⟩, hdead, hown, htells.1, htells.2⟩
    | some fault =>
      rw [hfault] at hends htells
      obtain ⟨partly, hcount⟩ := hends
      obtain rfl : count = .error (fault.error partly) := hcount
      refine .inr (.inr ⟨hdead, hown, ?_⟩)
      cases fault with
      | strayJump id => exact .inl ⟨htells, _, _, _, _, rfl⟩
      | missingElse id => exact .inr ⟨htells, id, rfl⟩

/-- Sources that can be read fail to build exactly if some code can never run, a jump is in no loop, a type is
its own supertype, or an `if` chain in a static block lacks its `else`. The first and the second are for the
author to mend; the others are reported as defects of the graph. -/
theorem build_error_iff (settings : Settings) {sources : List (String × String)} {units : List CompilationUnit}
    (h : parseAll sources = .ok units) :
    ((∃ error, build settings units = .error error) ↔ HasDeadCode units ∨ HasStrayJump units ∨
      HasOwnSupertype (typesGraph settings units) ∨ HasOpenStaticIf units) ∧
    ∀ error, build settings units = .error error →
      (HasDeadCode units ∧ error.isUserActionable = true) ∨
      (¬HasDeadCode units ∧ HasOwnSupertype (typesGraph settings units) ∧
        ∃ name, error = .internal (.selfSupertype name) ∨ error = .internal (.cyclicExtension name)) ∨
      (¬HasDeadCode units ∧ ¬HasOwnSupertype (typesGraph settings units) ∧
        ((HasStrayJump units ∧ error.isUserActionable = true) ∨
          (HasOpenStaticIf units ∧ ∃ id, error = .internal (.malformed .ifWithoutElse id)))) := by
  have hends := build_ends settings (well_of_parseAll h)
  cases hbuild : build settings units with
  | ok built =>
    rw [hbuild] at hends
    obtain ⟨-, hdead, hown, hstray, hopen⟩ := hends
    refine ⟨⟨?_, ?_⟩, by simp⟩
    · simp
    rintro (h | h | h | h)
    · exact absurd h hdead
    · exact absurd h hstray
    · exact absurd h hown
    · exact absurd h hopen
  | error error =>
    rw [hbuild] at hends
    refine ⟨⟨fun _ => ?_, fun _ => ⟨error, rfl⟩⟩, ?_⟩
    · rcases hends with ⟨hdead, -⟩ | ⟨-, hown, -⟩ | ⟨-, -, ⟨hstray, -⟩ | ⟨hopen, -⟩⟩
      · exact .inl hdead
      · exact .inr (.inr (.inl hown))
      · exact .inr (.inl hstray)
      · exact .inr (.inr (.inr hopen))
    · intro other hother
      cases hother
      rcases hends with ⟨hdead, owner, method, unit, line, column, rfl⟩ | hown |
        ⟨hdead, hown, ⟨hstray, word, unit, line, column, rfl⟩ | hopen⟩
      · exact .inl ⟨hdead, rfl⟩
      · exact .inr (.inl hown)
      · exact .inr (.inr ⟨hdead, hown, .inl ⟨hstray, rfl⟩⟩)
      · exact .inr (.inr ⟨hdead, hown, .inr hopen⟩)

/-- A class whose static block holds an `if` without `else`. -/
def staticIf : String := "class A { static { if (true) { } } }"

/-- No jumps, and a build that misses the `else` of an `if` chain. -/
def missesElse (tree : Tree) : Bool :=
  (tree.nodes.all fun node => node.kind != .breakStatement && node.kind != .continueStatement) &&
    match build { includeStandardLibrary := false } [⟨"A", tree⟩] with
    | .error (.internal (.malformed .ifWithoutElse _)) => true
    | _ => false

theorem missesElse_staticIf : (treeOfChars staticIf.toList).toOption.any missesElse = true :=
  any_of_toList_eq String.toList_ofList (by decide +kernel)

theorem exists_of_missesElse {tree : Tree} (h : missesElse tree = true) : ¬HasStrayJump [⟨"A", tree⟩] ∧
    ∃ id, build { includeStandardLibrary := false } [⟨"A", tree⟩] =
    .error (.internal (.malformed .ifWithoutElse id)) := by
  obtain ⟨hjumps, hbuild⟩ := Bool.and_eq_true_iff.mp h
  constructor
  · rintro ⟨unit, hunit, node, hnode, hjump⟩
    obtain rfl := mem_singleton.mp hunit
    have hkind : node.kind ≠ .breakStatement ∧ node.kind ≠ .continueStatement := by
      simpa using all_eq_true.mp hjumps node (Tree.mem_nodes_of_mem_nodesWhere hnode)
    exact hjump.elim hkind.1 hkind.2
  · generalize build { includeStandardLibrary := false } [⟨"A", tree⟩] = result at hbuild
    split at hbuild
    · exact ⟨_, rfl⟩
    · cases hbuild

/-- Nothing that a build is meant to refuse is in this class, and still it cannot be built. -/
theorem build_staticIf : ∃ units, parseAll [("A", staticIf)] = .ok units ∧
    ¬HasDeadCode units ∧ ¬HasStrayJump units ∧ ¬HasOwnSupertype (typesGraph { includeStandardLibrary := false } units) ∧
    HasOpenStaticIf units ∧
    ∃ id, build { includeStandardLibrary := false } units = .error (.internal (.malformed .ifWithoutElse id)) := by
  obtain ⟨tree, htree, hmisses⟩ := exists_parse missesElse_staticIf "A"
  obtain ⟨hstray, id, hbuild⟩ := exists_of_missesElse hmisses
  have hunits : parseAll [("A", staticIf)] = .ok [⟨"A", tree⟩] := mapM_cons_eq_ok.mpr ⟨_, [], htree, rfl, rfl⟩
  refine ⟨_, hunits, ?_⟩
  rcases (build_error_iff { includeStandardLibrary := false } hunits).2 _ hbuild with
    ⟨-, huser⟩ | ⟨-, -, name, hname | hname⟩ | ⟨hdead, hown, ⟨hjump, -⟩ | ⟨hopen, -⟩⟩
  · cases huser
  · cases hname
  · cases hname
  · exact absurd hjump hstray
  · exact ⟨hdead, hstray, hown, hopen, id, hbuild⟩

end ApexPaths.Build
