import ApexPaths.Proofs.Expansion.Built
import ApexPaths.Proofs.Text.Case

/-!
References to types. A plain name is looked up once while types are linked and again in the program that
the finished graph makes. Both try the same full names in the same order; but a program declares its
triggers too, and linking does not know them. So the two agree exactly where the program's answer is no
trigger.
-/

namespace ApexPaths
set_option autoImplicit false

/-! ## Full names in lower case -/

namespace Build

open Source CodeGraph ApexPaths.Flow

/-- Each vertex has the full name of its type in lower case beside the name as it is spelled. -/
def FoldsTypes (graph : CodeGraph) : Prop :=
  ∀ v, graph.text? v (.folded .definingType) = (graph.text? v (.spelled .definingType)).map Text.lower

theorem text?_addNode_new (origin : Origin) (scopes : ScopeStack) {parent : Option VertexId} {graph : CodeGraph}
    (kind : NodeKind) (span : Span) (props : PropertyMap) (hparent : ∀ p ∈ parent, p < graph.vertexCount)
    {name : String}
    (hname : (scopesInside scopes kind props).qualified = name) :
    (addNode origin scopes parent graph kind span props).text? graph.vertexCount (.spelled .definingType) = some name ∧
      (addNode origin scopes parent graph kind span props).text? graph.vertexCount (.folded .definingType) =
      some (Text.lower name) := by
  obtain ⟨planted, hadd, hcount⟩ : ∃ planted : CodeGraph, addNode origin scopes parent graph kind span props =
      assignAll planted graph.vertexCount (props ++ placeProps origin scopes kind props) ∧
      graph.vertexCount < planted.vertexCount := by
    cases parent with
    | none => exact ⟨_, rfl, by simp⟩
    | some p =>
      have grows := (grows_addVertex graph kind span).addChild (hparent p rfl)
      exact ⟨_, rfl, by rw [grows.vertexCount_eq]; omega⟩
  have hvertex : planted.vertex? graph.vertexCount = some planted.vertices[graph.vertexCount] :=
    Array.getElem?_eq_getElem hcount
  simp only [hadd, text?, vertex?_assignAll, hvertex, Option.map_some, Option.bind_some, if_true, placeProps, hname,
    List.foldl_append, List.foldl_cons, List.foldl_nil, PropertyMap.text?, PropertyMap.assign, Key.folded?,
    PropertyMap.get?_put]
  simp [PropertyValue.text?, PropertyValue.fold]

theorem FoldsTypes.addNode {graph : CodeGraph} (folds : FoldsTypes graph) (origin : Origin) (scopes : ScopeStack)
    {parent : Option VertexId} (kind : NodeKind) (span : Span) (props : PropertyMap) (hparent : ∀ p ∈ parent,
    p < graph.vertexCount) :
    FoldsTypes (addNode origin scopes parent graph kind span props) := by
  intro v
  by_cases hv : v = graph.vertexCount
  · obtain ⟨hspelled, hfolded⟩ := text?_addNode_new origin scopes kind span props hparent rfl
    rw [hv, hspelled, hfolded]
    rfl
  · have grows := grows_addNode origin scopes kind span props hparent
    rw [text?_eq, text?_eq, grows.property?_old v _ hv (by simp), grows.property?_old v _ hv (by simp), ← text?_eq,
      ← text?_eq]
    exact folds v

mutual

theorem FoldsTypes.addTree (origin : Origin) :
    (tree : Tree) → (scopes : ScopeStack) → (parent : Option VertexId) → (graph : CodeGraph) → FoldsTypes graph →
    (∀ p ∈ parent, p < graph.vertexCount) →
    FoldsTypes (addTree origin scopes parent graph tree) ∧
    graph.vertexCount < (addTree origin scopes parent graph tree).vertexCount
  | ⟨kind, span, props, children⟩, scopes, parent, graph, folds, hparent => by
    have hcount := (grows_addNode origin scopes kind span props hparent).vertexCount_eq
    obtain ⟨hfolds, hle⟩ := FoldsTypes.addTrees origin children (scopesInside scopes kind props) graph.vertexCount _
      (folds.addNode origin scopes kind span props hparent) (by omega)
    rw [Build.addTree]
    exact ⟨hfolds, by omega⟩

theorem FoldsTypes.addTrees (origin : Origin) :
    (trees : List Tree) → (scopes : ScopeStack) → (parent : Nat) → (graph : CodeGraph) → FoldsTypes graph →
    parent < graph.vertexCount →
    FoldsTypes (addTrees origin scopes parent graph trees) ∧
    graph.vertexCount ≤ (addTrees origin scopes parent graph trees).vertexCount
  | [], _, _, graph, folds, _ => ⟨folds, Nat.le_refl graph.vertexCount⟩
  | tree :: rest, scopes, parent, graph, folds, hparent => by
    obtain ⟨hfirst, hlt⟩ := FoldsTypes.addTree origin tree scopes (some parent) graph folds (by simpa using hparent)
    obtain ⟨hrest, hle⟩ := FoldsTypes.addTrees origin rest scopes parent _ hfirst (Nat.lt_trans hparent hlt)
    rw [Build.addTrees]
    exact ⟨hrest, Nat.le_trans (Nat.le_of_lt hlt) hle⟩

end

theorem FoldsTypes.plant {graph : CodeGraph} (folds : FoldsTypes graph) (isStandard : Bool)
    (units : List CompilationUnit) : FoldsTypes (plant isStandard graph units) := by
  induction units generalizing graph with
  | nil => exact folds
  | cons unit rest ih =>
    exact ih (FoldsTypes.addTree ⟨unit.name, isStandard⟩ (complete unit.root) {} none graph folds (by simp)).1

theorem foldsTypes_typesGraph (settings : Settings) (units : List CompilationUnit) :
    FoldsTypes (typesGraph settings units) := by
  have hempty : FoldsTypes {} := fun v => by simp [text?, vertex?]
  exact (hempty.plant false units).plant true (stubs settings)

theorem FoldsTypes.congr {graph graph' : CodeGraph} (folds : FoldsTypes graph) (same : graph.SameTree graph') :
    FoldsTypes graph' := by
  intro v
  rw [same.text?_eq v rfl, same.text?_eq v rfl]
  exact folds v

end Build

/-! ## Tables of types -/

namespace Program

theorem find?_enterFirst (types : List (String × VertexId)) (name key : String) (id : VertexId) :
    ((enterFirst types name id).find? (·.1 == key)).map (·.2) =
      ((types.find? (·.1 == key)).map (·.2)).or (if name = key then some id else none) := by
  rw [enterFirst]
  split
  · rename_i hany
    split
    · rename_i he
      obtain ⟨entry, hentry, hname⟩ := List.any_eq_true.mp hany
      have hsome : (types.find? (·.1 == key)).isSome = true := List.find?_isSome.mpr ⟨entry, hentry, he ▸ hname⟩
      obtain ⟨found, hfound⟩ := Option.isSome_iff_exists.mp hsome
      rw [hfound]
      rfl
    · rw [Option.or_none]
  · rw [List.find?_append]
    by_cases he : name = key <;> cases types.find? (·.1 == key) <;> simp [he]

/-- The table of types with what a vertex declares. -/
def enterVertex (graph : CodeGraph) (types : List (String × VertexId)) (id : VertexId) : List (String × VertexId) :=
  match graph.text? id (.folded .definingType) with
  | some name => if (graph.label? id).any isDeclaration then enterFirst types name id else types
  | none => types

theorem entry?_ofGraph (graph : CodeGraph) (name : String) : entry? (ofGraph graph) name = graph.ids.find? fun id =>
    graph.text? id (.folded .definingType) == some name && (graph.label? id).any isDeclaration := by
  have hfold : ∀ (ids : List VertexId) (types : List (String × VertexId)),
      ((ids.foldl (enterVertex graph) types).find? (·.1 == name)).map (·.2) =
      ((types.find? (·.1 == name)).map (·.2)).or
        (ids.find? fun id => graph.text? id (.folded .definingType) == some name &&
        (graph.label? id).any isDeclaration) := by
    intro ids
    induction ids with
    | nil => simp
    | cons id rest ih =>
      intro types
      rw [List.foldl_cons, ih, List.find?_cons, enterVertex]
      cases htext : graph.text? id (.folded .definingType) with
      | none => simp
      | some own =>
        by_cases hkind : (graph.label? id).any isDeclaration = true
        · simp only [hkind, if_true, find?_enterFirst, Option.or_assoc, Bool.and_true]
          by_cases he : own = name
          · simp [he]
          · simp [he, beq_false_of_ne he]
        · simp [hkind]
  exact (hfold graph.ids []).trans (Option.none_or ..)

end Program

namespace Build

open Source CodeGraph

/-- The kinds of types that may be extended or implemented. -/
def mayBeSupertype (graph : CodeGraph) (id : VertexId) : Bool :=
  graph.is id .userClass || graph.is id .userInterface || graph.is id .userEnum

theorem isDeclaration_eq (graph : CodeGraph) (id : VertexId) :
    (graph.label? id).any Program.isDeclaration = (mayBeSupertype graph id || graph.is id .userTrigger) := by
  rw [mayBeSupertype, CodeGraph.is, CodeGraph.is, CodeGraph.is, CodeGraph.is]
  cases graph.label? id with
  | none => rfl
  | some kind => cases kind <;> rfl

theorem lookup?_typeTable {graph : CodeGraph} (folds : FoldsTypes graph) (name : String) :
    lookup? (typeTable graph) name = graph.ids.find? fun id => graph.text? id (.folded .definingType) == some name &&
    mayBeSupertype graph id := by
  have hentry : ∀ id,
    (((graph.definingType? id).map fun own => (Text.lower own, id)).any fun entry => entry.1 == name) =
    (graph.text? id (.folded .definingType) == some name) := by
    intro id
    rw [folds id, definingType?]
    cases graph.text? id (.spelled .definingType) <;> simp
  rw [lookup?, typeTable, typeDeclarations, List.find?_filterMap, List.find?_filter]
  simp only [hentry]
  rw [show (fun id => decide ((graph.is id .userClass || graph.is id .userInterface || graph.is id .userEnum) = true ∧
      (graph.text? id (.folded .definingType) == some name) = true)) =
      fun id => graph.text? id (.folded .definingType) == some name && mayBeSupertype graph id from
    funext fun id => by rw [Bool.decide_and, Bool.decide_eq_true, Bool.decide_eq_true, Bool.and_comm]; rfl]
  cases hfound : graph.ids.find? fun id => graph.text? id (.folded .definingType) == some name &&
    mayBeSupertype graph id with
  | none => rfl
  | some id =>
    have hboth := List.find?_some hfound
    obtain ⟨hname, -⟩ := Bool.and_eq_true_iff.mp hboth
    rw [← hentry] at hname
    obtain ⟨entry, hentry, -⟩ := (Option.any_eq_true _ _).mp hname
    obtain ⟨own, hown, rfl⟩ := Option.map_eq_some_iff.mp hentry
    simp [hown]

theorem find?_of_find?_of_imp {α : Type} (xs : List α) {narrow wide : α → Bool}
    (h : ∀ x, narrow x = true → wide x = true) : (xs.find? wide = none → xs.find? narrow = none) ∧
    ∀ x, xs.find? wide = some x → narrow x = true → xs.find? narrow = some x := by
  constructor
  · intro hnone
    exact List.find?_eq_none.mpr fun x hx hn => List.find?_eq_none.mp hnone x hx (h x hn)
  · intro x hx hn
    obtain ⟨-, before, after, rfl, hbefore⟩ := List.find?_eq_some_iff_append.mp hx
    refine List.find?_eq_some_iff_append.mpr ⟨hn, before, after, rfl, fun y hy => ?_⟩
    have hwide := hbefore y hy
    cases hy : narrow y with
    | false => rfl
    | true => simp [h y hy] at hwide

variable {graph : CodeGraph}

/-- A supertype is looked up as any type is, but triggers are no supertypes. -/
theorem lookup?_of_declared (folds : FoldsTypes graph) (name : String) :
    ( Program.entry? (.ofGraph graph) name = none → lookup? (typeTable graph) name = none) ∧
      (∀ id, Program.entry? (.ofGraph graph) name = some id → graph.is id .userTrigger = false →
        lookup? (typeTable graph) name = some id) ∧
      ∀ id, lookup? (typeTable graph) name = some id → graph.is id .userTrigger = false := by
  have hwider : ∀ id, (graph.text? id (.folded .definingType) == some name && mayBeSupertype graph id) = true →
      (graph.text? id (.folded .definingType) == some name && (graph.label? id).any Program.isDeclaration) = true := by
    intro id hid
    obtain ⟨hname, hkind⟩ := Bool.and_eq_true_iff.mp hid
    rw [isDeclaration_eq, hname, hkind]
    rfl
  obtain ⟨hnone, hsome⟩ := find?_of_find?_of_imp graph.ids hwider
  rw [Program.entry?_ofGraph, lookup?_typeTable folds]
  refine ⟨hnone, fun id hid htrigger => hsome id hid ?_, fun id hid => ?_⟩
  · have hboth := List.find?_some hid
    obtain ⟨hname, hkind⟩ := Bool.and_eq_true_iff.mp hboth
    rw [isDeclaration_eq, htrigger, Bool.or_false] at hkind
    rw [hname, hkind]
    rfl
  · have hboth := List.find?_some hid
    have hkind := (Bool.and_eq_true_iff.mp hboth).2
    rw [mayBeSupertype] at hkind
    revert hkind
    rw [CodeGraph.is, CodeGraph.is, CodeGraph.is, CodeGraph.is]
    cases graph.label? id with
    | none => simp
    | some kind => cases kind <;> simp

theorem resolveSupertype?_eq (table : List (String × VertexId)) (type : VertexId) {reference : String}
    (hplain : '.' ∉ (TypeName.base reference).toList) : resolveSupertype? graph table type reference =
      ((Program.ofGraph graph).candidateNames (some type) reference).findSome? (lookup? table) := by
  have hlower := Text.dot_notMem_lower hplain
  have hname : Program.referenceName reference = Text.lower (TypeName.base reference) := by
    unfold Program.referenceName
    dsimp only
    rw [Text.dropStart?_eq_none (by decide) hlower]
  have hgraph : (Program.ofGraph graph).graph = graph := rfl
  rw [resolveSupertype?, if_neg (by simpa using hlower), Program.candidateNames, hname, hgraph]
  simp [Option.toList_map]

/-- While types are linked a plain name means what it means to a program of the same graph, exactly if it does
not mean a trigger to the program. -/
theorem resolveSupertype?_eq_lookup?_iff_of_foldsTypes (folds : FoldsTypes graph) (type : VertexId) {reference : String}
    (hplain : '.' ∉ (TypeName.base reference).toList) :
    resolveSupertype? graph (typeTable graph) type reference = (Program.ofGraph graph).lookup? (some type) reference ↔
      ∀ found, (Program.ofGraph graph).lookup? (some type) reference = some found →
      graph.is found .userTrigger = false := by
  rw [resolveSupertype?_eq _ _ hplain, Program.lookup?]
  generalize (Program.ofGraph graph).candidateNames (some type) reference = names
  constructor
  · intro heq found hfound
    rw [← heq] at hfound
    obtain ⟨name, -, hname⟩ := List.exists_of_findSome?_eq_some hfound
    exact (lookup?_of_declared folds name).2.2 found hname
  · intro hclean
    induction names with
    | nil => rfl
    | cons name rest ih =>
      obtain ⟨hnone, hsome, -⟩ := lookup?_of_declared folds name
      rw [List.findSome?_cons, List.findSome?_cons] at *
      cases hentry : Program.entry? (.ofGraph graph) name with
      | none =>
        rw [hentry] at hclean
        rw [hnone hentry]
        exact ih hclean
      | some id =>
        rw [hentry] at hclean
        rw [hsome id hentry (hclean id rfl)]

theorem typeTable_congr {graph' : CodeGraph} (same : graph.SameTree graph') : typeTable graph' = typeTable graph := by
  have hname : ∀ id, graph'.definingType? id = graph.definingType? id := fun id => same.text?_eq id rfl
  simp only [typeTable, typeDeclarations_congr same, hname]

/-! ## The same reference in a build and in its program -/

/-- A plain reference inside a type means the same at every moment while types are linked, which keeps the tree,
and in the program of the finished graph, unless it means a trigger there. A trigger is never what it means while
types are linked. -/
theorem resolveSupertype?_eq_lookup?_iff {settings : Settings} {sources : List (String × String)}
    {units : List CompilationUnit} (hread : parseAll sources = .ok units) {graph : CodeGraph} {stats : Stats}
    (hbuild : build settings units = .ok (graph, stats)) {moment : CodeGraph}
    (hmoment : (typesGraph settings units).SameTree moment) (type : VertexId) {reference : String}
    (hplain : '.' ∉ (TypeName.base reference).toList) :
    resolveSupertype? moment (typeTable (typesGraph settings units)) type reference =
        (Program.ofGraph graph).lookup? (some type) reference ↔
      ∀ found, (Program.ofGraph graph).lookup? (some type) reference = some found →
      graph.is found .userTrigger = false := by
  have same := sameTree_of_build (well_of_parseAll hread) hbuild
  have folds := (foldsTypes_typesGraph settings units).congr same
  rw [resolveSupertype?_congr hmoment, ← typeTable_congr same, ← resolveSupertype?_congr same]
  exact resolveSupertype?_eq_lookup?_iff_of_foldsTypes folds type hplain

/-- A trigger, and a class that names it as its superclass and holds another class. -/
def triggerAndClass : String × String :=
  ("trigger A on Account (before insert) { }", "class B extends A { class C { } }")

/-- The graph of two texts has a type that passes a test. -/
def anyType (test : CodeGraph → CodeGraph → VertexId → Bool) (first second : Tree) : Bool :=
  let units := [⟨"A.trigger", first⟩, ⟨"B.cls", second⟩]
  match build bareSettings units with
  | .ok (graph, _) => (typeDeclarations graph).any (test (typesGraph bareSettings units) graph)
  | .error _ => false

theorem exists_type (texts : String × String) (test : CodeGraph → CodeGraph → VertexId → Bool)
    (h : (treeOfChars texts.1.toList).toOption.any
    (fun first => (treeOfChars texts.2.toList).toOption.any (anyType test first)) = true) :
    ∃ units graph stats type, parseAll [("A.trigger", texts.1), ("B.cls", texts.2)] = .ok units ∧
      build bareSettings units = .ok (graph, stats) ∧ type ∈ typeDeclarations graph ∧
      test (typesGraph bareSettings units) graph type = true := by
  obtain ⟨first, hfirst, h⟩ := exists_parse h "A.trigger"
  obtain ⟨second, hsecond, htest⟩ := exists_parse h "B.cls"
  rw [anyType] at htest
  split at htest
  · obtain ⟨type, htype, htest⟩ := List.any_eq_true.mp htest
    exact ⟨_, _, _, type, mapM_cons_eq_ok.mpr ⟨_, _, hfirst, mapM_cons_eq_ok.mpr ⟨_, [], hsecond, rfl, rfl⟩, rfl⟩,
      ‹_›, htype, htest⟩
  · cases htest

/-- The inner class is found from the outer one, in the build and in the program. -/
theorem triggerAndClass_inner : ∃ units graph stats type found,
    parseAll [("A.trigger", triggerAndClass.1), ("B.cls", triggerAndClass.2)] = .ok units ∧
    build bareSettings units = .ok (graph, stats) ∧ type ∈ typeDeclarations graph ∧ '.' ∉ (TypeName.base "C").toList ∧
    (Program.ofGraph graph).lookup? (some type) "C" = some found ∧
    resolveSupertype? (typesGraph bareSettings units) (typeTable (typesGraph bareSettings units)) type "C" =
    some found := by
  obtain ⟨units, graph, stats, type, hunits, hbuild, htype, htest⟩ := exists_type triggerAndClass
    (fun _ graph type => ((Program.ofGraph graph).lookup? (some type) "C").any fun found =>
    !graph.is found .userTrigger)
    (by decide +kernel)
  obtain ⟨found, hfound, htrigger⟩ := (Option.any_eq_true _ _).mp htest
  have hplain : '.' ∉ (TypeName.base "C").toList := by decide
  refine ⟨units, graph, stats, type, found, hunits, hbuild, htype, hplain, hfound, ?_⟩
  rw [← hfound]
  refine (resolveSupertype?_eq_lookup?_iff hunits hbuild (.refl _) type hplain).mpr fun other hother => ?_
  cases hfound.symm.trans hother
  simpa using htrigger

/-- The name of the trigger means no type in the build, and the trigger in the program. -/
theorem triggerAndClass_apart : ∃ units graph stats type,
    parseAll [("A.trigger", triggerAndClass.1), ("B.cls", triggerAndClass.2)] = .ok units ∧
    build bareSettings units = .ok (graph, stats) ∧ type ∈ typeDeclarations graph ∧ '.' ∉ (TypeName.base "A").toList ∧
    resolveSupertype? (typesGraph bareSettings units) (typeTable (typesGraph bareSettings units)) type "A" ≠
      (Program.ofGraph graph).lookup? (some type) "A" := by
  obtain ⟨units, graph, stats, type, hunits, hbuild, htype, htest⟩ := exists_type triggerAndClass
    (fun start graph type => resolveSupertype? start (typeTable start) type "A" !=
    (Program.ofGraph graph).lookup? (some type) "A")
    (by decide +kernel)
  exact ⟨units, graph, stats, type, hunits, hbuild, htype, by decide, bne_iff_ne.mp htest⟩

end Build
end ApexPaths
