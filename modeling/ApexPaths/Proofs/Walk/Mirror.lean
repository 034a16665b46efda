import ApexPaths.Proofs.Expansion.Nesting
import ApexPaths.Proofs.Walk.Steps

/-!
The blocks of a running method mirror the syntax around its current vertex. A visitor that watches what
another visitor is shown does not change a walk, and all that it sees is as the syntax says, however the
inner visitor answers.
-/

namespace ApexPaths
set_option autoImplicit false

open WalkM List CodeGraph

/-! ## Watching -/

/-- A method that runs: the vertices that it has passed, and how many blocks stay open after them. -/
structure Run where
  method : VertexId
  passed : List VertexId := []
  depth : Nat := 0

/-- Something that shows the blocks of the running method. -/
inductive Sight where
  /-- A vertex was entered; its scope is open. -/
  | entered (run : Option Run) (v : VertexId) (frame : Option Frame)
  /-- The scopes that end at a vertex are about to be closed under so many blocks. -/
  | closing (v : VertexId) (depth : Nat)
  /-- The last vertex of a path was passed. -/
  | finished (run : Option Run)

/-- What another visitor observes, the running methods, the innermost first, and all that was seen. -/
structure Watch (σ : Type) where
  observed : σ
  runs : List Run := []
  sights : List Sight := []

/-- The run after one more vertex. -/
def Run.pass (run : Run) (v : VertexId) (depth : Nat) : Run := { run with passed := run.passed ++ [v], depth }

/-- A visitor that shows everything to another one and watches the blocks. -/
def Visitor.watching {σ : Type} (graph : CodeGraph) (visitor : Visitor σ) : Visitor (Watch σ) where
  visit v symbols watch :=
    let (consent, observed) := visitor.visit v symbols watch.observed
    (consent, { watch with observed, sights := .entered watch.runs.head? v symbols.frame? :: watch.sights })
  afterVisit v symbols watch :=
    { observed := visitor.afterVisit v symbols watch.observed
      runs := watch.runs.modifyHead (·.pass v (symbols.scopeDepth - (graph.endScopes v).length))
      sights := .closing v symbols.scopeDepth :: watch.sights }
  onExpression expr value watch := { watch with observed := visitor.onExpression expr value watch.observed }
  enterMethod method symbols watch :=
    { watch with observed := visitor.enterMethod method symbols watch.observed
                 runs := { method, depth := symbols.scopeDepth } :: watch.runs }
  exitMethod method returned watch :=
    { observed := visitor.exitMethod method returned watch.observed
      runs := watch.runs.tail
      sights := .finished watch.runs.head? :: watch.sights }

/-! ## What the syntax says -/

/-- The block of a scope binds the names, in lower case, of the variables that were declared directly under the scope,
and the variable of its own clause. -/
def Block.Binds (graph : CodeGraph) (passed : List VertexId) (scope : VertexId) (block : Block) : Prop :=
  ∀ name, name ∈ block.vars.map Prod.fst ↔
    (∃ statements ∈ graph.children scope, graph.is statements .variableDeclarationStatements = true ∧
    statements ∈ passed ∧ ∃ declaration ∈ graph.childrenWithLabel statements .variableDeclaration,
    name = Text.lower ((graph.name? declaration).getD "")) ∨
    (graph.is scope .catchBlockStatement = true ∨ graph.is scope .typeWhenBlock = true) ∧ scope ∈ passed ∧
      ∃ variable_, graph.name? scope = some variable_ ∧ name = Text.lower variable_

/-- The open blocks are those of the scopes at a vertex, up to the body of the method. -/
def Frame.Mirrors (graph : CodeGraph) (frame : Frame) (run : Run) (v : VertexId) : Prop :=
  ∃ body, graph.body? run.method = some body ∧ body ∈ graph.line v ∧
    List.Forall₂ (fun block scope => graph.label? scope = some block.kind ∧ block.Binds graph run.passed scope)
    frame.blocks ((graph.upTo body v).filter graph.opens)

/-- What a visitor sees mirrors the syntax. -/
def Sight.Mirrors (graph : CodeGraph) : Sight → Prop
  | .entered run v frame => ∃ running ∈ run, ∃ top ∈ frame, top.Mirrors graph running v
  | .closing v depth => (graph.endScopes v).length ≤ depth
  | .finished run => ∃ running ∈ run, running.depth = 0

/-! ## The names of a block -/

theorem mem_keys_assign {α : Type} {name key : String} {value : α} {entries : List (String × α)} :
    name ∈ (assign key value entries).map Prod.fst ↔ name = key ∨ name ∈ entries.map Prod.fst := by
  induction entries with
  | nil => simp [assign]
  | cons entry rest ih =>
    obtain ⟨k, v⟩ := entry
    rw [assign]
    by_cases h : (k == key) = true
    · rw [if_pos h]
      obtain rfl : k = key := by simpa using h
      simp
    · rw [if_neg h, map_cons, mem_cons, ih, map_cons, mem_cons]
      exact or_left_comm

theorem mem_keys_bindAll {name : String} {vars : VariableOutline} {entries : List (String × String)} :
    name ∈ (bindAll vars entries).map Prod.fst ↔ (∃ entry ∈ entries, name = Text.lower entry.1) ∨
    name ∈ vars.map Prod.fst := by
  induction entries generalizing vars with
  | nil => simp [bindAll]
  | cons entry rest ih =>
    rw [bindAll, foldl_cons]
    rw [show List.foldl _ _ rest = bindAll (assign (Text.lower entry.1) (TypeName.canonical entry.2) vars)
      rest from rfl, ih, mem_keys_assign, exists_mem_cons_iff]
    exact or_left_comm.trans or_assoc.symm

theorem forall₂_of_map_eq {α β γ : Type} {f : α → γ} {g : β → γ} {related : α → β → Prop} {as : List α} {bs : List β}
    (h : as.map f = bs.map g) (hrelated : ∀ a, ∀ b ∈ bs, f a = g b → related a b) : List.Forall₂ related as bs := by
  induction as generalizing bs with
  | nil =>
    obtain rfl := map_eq_nil_iff.mp h.symm
    exact .nil
  | cons a as ih =>
    cases bs with
    | nil => cases h
    | cons b bs =>
      obtain ⟨hfirst, hrest⟩ := List.cons.inj h
      exact .cons (hrelated a b mem_cons_self hfirst) (ih hrest fun a b hb => hrelated a b (mem_cons_of_mem _ hb))

theorem keys_outline (vars : VariableMap) : vars.outline.map Prod.fst = vars.map Prod.fst := by
  rw [VariableMap.outline, map_map]
  rfl

namespace Walker

variable {σ : Type} {walker : Walker σ}

theorem mem_keys_contents {name : String} {passed : List VertexId} {scope : VertexId} :
    name ∈ (walker.contents passed scope).map Prod.fst ↔
      ∃ u ∈ passed, walker.graph.home? u = some scope ∧ ∃ entry ∈ walker.declared u, name = Text.lower entry.1 := by
  rw [contents, mem_keys_bindAll]
  simp only [mem_flatMap, mem_filter, beq_iff_eq, map_nil, not_mem_nil, or_false]
  constructor
  · rintro ⟨entry, ⟨u, ⟨hu, hhome⟩, hentry⟩, hname⟩
    exact ⟨u, hu, hhome, entry, hentry, hname⟩
  · rintro ⟨u, hu, hhome, entry, hentry, hname⟩
    exact ⟨entry, ⟨u, ⟨hu, hhome⟩, hentry⟩, hname⟩

theorem binds_of_contents {passed : List VertexId} {scope : VertexId} {block : Block} (forest : walker.graph.IsForest)
    (hpassed : ∀ u ∈ passed, ∀ p, walker.graph.declares u = true → walker.graph.parent? u = some p →
    u ∈ walker.graph.children p)
    (h : block.vars.outline = walker.contents passed scope) : block.Binds walker.graph passed scope := by
  intro name
  rw [← keys_outline, h, mem_keys_contents]
  constructor
  · rintro ⟨u, hu, hhome, entry, hentry, rfl⟩
    rw [home?] at hhome
    by_cases hdeclares : walker.graph.declares u = true
    · rw [if_pos hdeclares] at hhome
      have hlabel := labelOf_eq (walker.graph.is_iff.mp hdeclares)
      rw [declared, hlabel] at hentry
      obtain ⟨variable_, hvariable, rfl⟩ := mem_map.mp hentry
      obtain ⟨declaration, hdeclaration, rfl⟩ := mem_map.mp hvariable
      exact .inl ⟨u, hpassed u hu scope hdeclares hhome, hdeclares, hu, declaration, hdeclaration, rfl⟩
    · rw [if_neg hdeclares] at hhome
      by_cases hclause : walker.graph.isBindingClause u = true
      · rw [if_pos hclause] at hhome
        obtain rfl := Option.some.inj hhome
        have hkind := Bool.or_eq_true_iff.mp hclause
        have hentry : entry ∈ (walker.graph.name? u).toList.map (·, walker.program.typeOfDeclaration u) := by
          rcases hkind with hkind | hkind <;>
            rwa [declared, labelOf_eq (walker.graph.is_iff.mp hkind)] at hentry
        obtain ⟨variable_, hvariable, rfl⟩ := mem_map.mp hentry
        exact .inr ⟨hkind, hu, variable_, Option.mem_toList.mp hvariable, rfl⟩
      · rw [if_neg hclause] at hhome
        cases hhome
  · rintro (⟨statements, hchild, hdeclares, hmem, declaration, hdeclaration, rfl⟩ | ⟨hkind, hmem, variable_,
      hvariable, rfl⟩)
    · have hstatements : walker.graph.declares statements = true := hdeclares
      refine ⟨statements, hmem, ?_, (_, walker.variableType statements declaration), ?_, rfl⟩
      · rw [home?, if_pos hstatements]
        exact forest.parent_of_mem hchild
      · rw [declared, labelOf_eq (walker.graph.is_iff.mp hdeclares)]
        exact mem_map_of_mem (mem_map_of_mem hdeclaration)
    · have hnot : walker.graph.declares scope = false := by
        rw [declares, is]
        rcases hkind with hkind | hkind <;> rw [walker.graph.is_iff.mp hkind] <;> rfl
      have hclause : walker.graph.isBindingClause scope = true := Bool.or_eq_true_iff.mpr hkind
      refine ⟨scope, hmem, ?_, (variable_, walker.program.typeOfDeclaration scope), ?_, rfl⟩
      · rw [home?, hnot, if_neg Bool.false_ne_true, if_pos hclause]
      · rcases hkind with hkind | hkind <;> rw [declared, labelOf_eq (walker.graph.is_iff.mp hkind)] <;>
          exact mem_map_of_mem (Option.mem_toList.mpr hvariable)

/-! ## Watched walks -/

/-- The inner visitor observes the same, these methods run, and everything that was seen mirrors the syntax. -/
def Watched (graph : CodeGraph) (runs : List Run) (observed : σ) (watch : Watch σ) : Prop :=
  watch.observed = observed ∧ watch.runs = runs ∧ ∀ sight ∈ watch.sights, sight.Mirrors graph

/-- A watch beside an observation: all of its sights mirror the syntax. -/
def WatchedApart (graph : CodeGraph) (observed : σ) (watch : Watch σ) : Prop :=
  watch.observed = observed ∧ ∀ sight ∈ watch.sights, sight.Mirrors graph

def Along (graph : CodeGraph) (outlines : List FrameOutline) : Task → Prop
  | .eval sites _ => outlines ≠ [] ∧ ∀ path ∈ sites, path.Forwarded graph
  | .invoke path _ _ => path.Forwarded graph

theorem mem_attached_of_invokedPath? {path sub : CodePath} {site : VertexId} (h : path.invokedPath? site = some sub) :
    sub ∈ path.attached := by
  obtain ⟨entry, hentry, rfl⟩ := Option.map_eq_some_iff.mp h
  exact mem_append_left _ (mem_map_of_mem (mem_of_find?_eq_some hentry))

theorem admits_along (graph : CodeGraph) : Admits graph (Along graph) where
  running h := h.1
  part h _ := h
  attached h hpath outlines this args := by
    obtain ⟨path, hsites, hinvoked⟩ := Option.bind_eq_some_iff.mp hpath
    obtain ⟨-, -, -, hattached⟩ := h.2 path hsites
    exact hattached _ (mem_attached_of_invokedPath? hinvoked)
  field _ _ outlines := ⟨cons_ne_nil _ _, by simp⟩

section
variable {perform : Perform σ} {perform' : Perform (Watch σ)} {path : CodePath} {runs : List Run}

/-- The blocks that stay open after some vertices of a path. -/
def depthAfter (walker : Walker σ) (method : VertexId) (passed : List VertexId) : Nat :=
  (passed.foldl walker.passing ⟨walker.parameterOutline method, []⟩).blocks.length

theorem frame?_of_outlines {symbols : Symbols} {top : FrameOutline} {rest : List FrameOutline}
    (h : symbols.frames.map Frame.outline = top :: rest) : ∃ frame, symbols.frame? = some frame ∧
    frame.outline = top := by
  rw [Symbols.frame?]
  cases hframes : symbols.frames with
  | nil =>
    rw [hframes] at h
    cases h
  | cons frame frames =>
    rw [hframes] at h
    exact ⟨frame, rfl, (List.cons.inj h).1⟩

theorem scopeDepth_of_outlines {symbols : Symbols} {top : FrameOutline} {rest : List FrameOutline}
    (h : symbols.frames.map Frame.outline = top :: rest) : symbols.scopeDepth = top.blocks.length := by
  obtain ⟨frame, hframe, rfl⟩ := frame?_of_outlines h
  rw [Symbols.scopeDepth, hframe]
  simp [Frame.depth, Frame.outline]

section
variable (placed : Build.WellPlaced walker.graph)
include placed

/-- A frame with the outline of its open blocks mirrors the syntax. -/
theorem mirrors_of_outline {body : VertexId} {ids before after : List VertexId} {v : VertexId}
    (hbody : walker.graph.body? path.method = some body) (route : Route walker.graph body ids)
    (h : ids = before ++ v :: after)
    {frame : Frame} {parameters : VariableOutline} (houtline : frame.outline =
      ⟨parameters, walker.blocksOf before (walker.graph.scopeLine body v)⟩) (depth : Nat) :
    frame.Mirrors walker.graph ⟨path.method, before, depth⟩ v := by
  have hbelow := route.below v (Route.mem h)
  have hpassed : ∀ u ∈ before, ∀ p, walker.graph.declares u = true → walker.graph.parent? u = some p →
      u ∈ walker.graph.children p := by
    intro u hu p hdeclares hparent
    have hmem : u ∈ ids := by
      rw [h]
      exact mem_append_left _ hu
    have hne : u ≠ body := by
      rintro rfl
      exact absurd route.isBlock (by simp [walker.graph.is_iff.mp hdeclares])
    obtain ⟨q, hq⟩ := route.exists_parent hmem hne
    cases (placed.forest.parent_of_mem hq).symm.trans hparent
    exact hq
  refine ⟨body, hbody, hbelow.2, ?_⟩
  have hblocks : frame.blocks.map Block.outline = walker.blocksOf before (walker.graph.scopeLine body v) :=
    congrArg FrameOutline.blocks houtline
  refine forall₂_of_map_eq hblocks fun block scope hscope houtline => ?_
  obtain ⟨hkind, hvars⟩ := Prod.mk.inj houtline
  have hline := (mem_scopeLine placed.forest hbelow hscope).1
  obtain ⟨label, hlabel⟩ :=
    exists_label (Nat.lt_of_le_of_lt (le_of_mem_line placed.forest hline) hbelow.1)
  refine ⟨?_, binds_of_contents placed.forest hpassed hvars⟩
  rw [hlabel, hkind, labelOf_eq hlabel]

theorem observes_watching {body : VertexId} {before after : List VertexId} {v : VertexId}
    (hbody : walker.graph.body? path.method = some body) (route : Route walker.graph body path.ids)
    (h : path.ids = before ++ v :: after)
    (rest : List FrameOutline) : Observes walker (walker.visitor.watching walker.graph)
      (Watched walker.graph (⟨path.method, before, walker.depthAfter path.method before⟩ :: runs))
      (Watched walker.graph (⟨path.method, before, walker.depthAfter path.method before⟩ :: runs))
      (Watched walker.graph (⟨path.method, before ++ [v], walker.depthAfter path.method (before ++ [v])⟩ :: runs))
      (before.foldl walker.passing ⟨walker.parameterOutline path.method, []⟩) rest v := by
  have hstart := walker.foldl_passing_of_route placed route h (walker.parameterOutline path.method)
  have hentered := entering_blocksOf placed route h (walker.parameterOutline path.method)
  have hdeclared := declareAll_blocksOf placed route h (walker.parameterOutline path.method)
  have hends := route.ends v (Route.mem h)
  rw [openScopes_eq_map, length_map] at hends
  constructor
  · rintro symbols o watch houtlines ⟨rfl, hruns, hsights⟩
    refine ⟨rfl, rfl, hruns, forall_mem_cons.mpr ⟨?_, hsights⟩⟩
    rw [hstart, hentered] at houtlines
    obtain ⟨frame, hframe, houtline⟩ := frame?_of_outlines houtlines
    exact ⟨_, congrArg List.head? hruns, frame, hframe, mirrors_of_outline placed hbody route h houtline _⟩
  · rintro symbols o watch houtlines ⟨rfl, hruns, hsights⟩
    rw [hstart, hentered, hdeclared] at houtlines
    have hdepth : symbols.scopeDepth = (walker.graph.scopeLine body v).length := by
      rw [scopeDepth_of_outlines houtlines, blocksOf, length_map]
    have hleft : walker.depthAfter path.method (before ++ [v]) =
        symbols.scopeDepth - (walker.graph.endScopes v).length := by
      rw [depthAfter, foldl_append, hstart, foldl_cons, foldl_nil, passing, hentered, hdeclared, FrameOutline.pop,
        length_drop, blocksOf, length_map, hdepth]
    refine ⟨rfl, ?_, forall_mem_cons.mpr ⟨?_, hsights⟩⟩
    · show watch.runs.modifyHead _ = _
      rw [hruns, hleft]
      rfl
    · rw [Sight.Mirrors, hdepth]
      exact hends

/-- A watched walk along a path of the graph observes blocks and bindings as the syntax has them. -/
theorem runsAlike_watching (built : Build.IsBuilt walker.graph)
    (hforwarded : path.Forwarded walker.graph) (hperform : ∀ runs,
    Performs (Along walker.graph) (WatchedApart walker.graph) (Watched walker.graph runs) perform perform')
    (runs : List Run) :
    RunsAlike walker (walker.visitor.watching walker.graph) perform perform' (WatchedApart walker.graph)
    (Watched walker.graph runs) path := by
  intro this args outlines
  obtain ⟨henumerated, hmem, hids, hattached⟩ := hforwarded
  obtain ⟨body, hbody, route⟩ := built.route placed henumerated hmem
  rw [← hids] at route
  have houtline := walker.outline_methodFrame path.method this args
  refine agrees_runMethod
    (fun passed => Watched walker.graph (⟨path.method, passed, walker.depthAfter path.method passed⟩ :: runs)) ?_
    (fun before v after h => ?_) ?_
  · rintro symbols o watch hsymbols ⟨rfl, rfl, hsights⟩
    have hdepth := scopeDepth_of_outlines hsymbols
    rw [houtline] at hdepth
    exact ⟨rfl, congrArg (fun depth => Run.mk path.method [] depth :: watch.runs) hdepth, hsights⟩
  · rw [houtline]
    have hsites : ∀ outlines : List FrameOutline, outlines ≠ [] → ∀ expr,
        Along walker.graph outlines (.eval (some path) expr) := by
      intro outlines hne expr
      refine ⟨hne, fun sites hsome => ?_⟩
      cases hsome
      exact .intro henumerated hmem hids hattached
    refine agrees_step (admits_along _) (hperform _) ⟨?_, ?_⟩ ?_ (observes_watching placed hbody route h outlines)
    · exact fun _ _ _ _ _ init _ => hsites _ (cons_ne_nil _ _) init
    · exact fun _ root _ => hsites _ (cons_ne_nil _ _) root
    · intro init hinit _
      exact hattached _ (mem_append_right _ (mem_map_of_mem hinit))
  · rintro returned o watch ⟨rfl, hruns, hsights⟩
    refine ⟨rfl, congrArg List.tail hruns, forall_mem_cons.mpr ⟨⟨_, congrArg List.head? hruns, ?_⟩, hsights⟩⟩
    show walker.depthAfter path.method path.ids = 0
    rw [depthAfter, walker.foldl_passing_route placed route]
    rfl

end

theorem sees_watching (graph : CodeGraph) (visitor : Visitor σ) (runs : List Run) :
    SeesExpressions (Watched graph runs) visitor (visitor.watching graph) := by
  rintro expr value o watch ⟨rfl, hruns, hsights⟩
  exact ⟨rfl, hruns, hsights⟩

theorem performs_watching (walker : Walker σ) (placed : Build.WellPlaced walker.graph)
    (built : Build.IsBuilt walker.graph) (nesting : Nat) (runs : List Run) :
    Performs (Along walker.graph) (WatchedApart walker.graph) (Watched walker.graph runs) (walker.performWithin nesting)
      ((walker.watchedBy (walker.visitor.watching walker.graph)).performWithin nesting) := by
  induction nesting generalizing runs with
  | zero => exact ⟨fun _ => .exhausted fun h => ⟨h.1, h.2.2⟩⟩
  | succ nesting ih =>
    refine ⟨fun {outlines task} h => ?_⟩
    cases task with
    | eval sites expr =>
      obtain ⟨top, rest, rfl⟩ := exists_cons_of_ne_nil h.1
      exact keeps_evalExpression (admits_along _) (ih runs) h (sees_watching _ _ runs)
    | invoke path this args =>
      have hruns := runsAlike_watching placed built h ih runs
      obtain ⟨-, -, -, hattached⟩ := h
      refine keeps_invokePath (admits_along _) (ih runs) (fun init hinit _ => ?_) hruns this args outlines
      exact hattached _ (mem_append_right _ (mem_map_of_mem hinit))

end

end Walker

/-! ## Walks along expanded paths -/

/-- Whatever a visitor answers, along every expanded path and all paths attached to it the blocks mirror the
syntax: entering a vertex, the open blocks are those of the scopes at the vertex and bind what was declared in them
so far; the scopes that end at a vertex are open; and after the last vertex no block is. To watch this does not
change the walk. -/
theorem walk_mirrors_syntax {config : Settings} {sources : List (String × String)} {graph : CodeGraph}
    (h : Build.IsGraphOf config sources graph) {settings : Settings} {options : ExpansionOptions} {method : VertexId}
    {forward : List CodePath} (hforward : Path.forward graph method = .ok forward) {path : CodePath}
    (hpath : path ∈ forward)
    {state : ExpansionState} (valid : state.Valid graph) {paths : List CodePath}
    (hrun : (((Expander.ofGraph graph settings options).expandPath path).run state).1 = .ok paths) {expanded : CodePath}
    (hexpanded : expanded ∈ paths) {σ : Type} (walker : Walker σ) (hwalker : walker.program = Program.ofGraph graph)
    (nesting : Nat)
    (statics : StaticScopes) (observed : σ) :
    let watched := (walker.watchedBy (walker.visitor.watching graph)).walkWithin nesting expanded statics { observed }
    walker.walkWithin nesting expanded statics observed = (watched.1, watched.2.observed) ∧
      ∀ sight ∈ watched.2.sights, sight.Mirrors graph := by
  obtain rfl : walker.graph = graph := by rw [Walker.graph, hwalker]; rfl
  have placed := h.wellPlaced
  have hforwarded := Expander.forwarded_of_expandPath h hforward hpath valid hrun expanded hexpanded
  have hperform := walker.performs_watching placed h.isBuilt nesting
  have hruns := Walker.runsAlike_watching placed h.isBuilt hforwarded hperform []
  obtain ⟨-, -, -, hattached⟩ := hforwarded
  have hkeeps := Walker.keeps_walkPath (Walker.admits_along _) (hperform [])
    (fun init hinit _ => hattached _ (mem_append_right _ (mem_map_of_mem hinit))) hruns []
  obtain ⟨watch, heq, hends⟩ := hkeeps.run { symbols := { statics }, observed } { observed } rfl ⟨rfl, rfl, by simp⟩
  have hwatched : (walker.watchedBy (walker.visitor.watching walker.graph)).walkWithin nesting expanded statics
    { observed } = ((walker.walkWithin nesting expanded statics observed).1, watch) := by
    have hfinish := congrArg (fun result : Except EngineError (Option Value) × WalkState (Watch σ) =>
      (result.1.map fun returned => WalkOutcome.mk returned result.2.visited result.2.symbols, result.2.observed)) heq
    exact hfinish
  have hmirrors : watch.observed = (walker.walkWithin nesting expanded statics observed).2 ∧
      ∀ sight ∈ watch.sights, sight.Mirrors walker.graph := by
    show watch.observed = ((walker.walkPath (walker.performWithin nesting) expanded).run
      { symbols := { statics }, observed }).2.observed ∧ _
    generalize (walker.walkPath (walker.performWithin nesting) expanded).run { symbols := { statics }, observed } =
      result at hends
    obtain ⟨_ | returned, final⟩ := result
    · exact hends.2
    · exact ⟨hends.2.1, hends.2.2.2⟩
  rw [hwatched]
  exact ⟨Prod.ext rfl hmirrors.1.symm, hmirrors.2⟩

/-- A walker without a visitor along each of the four expansions of the two calls. -/
theorem callingTwice_mirrors : ∃ graph path paths, Build.IsGraphOf bareSettings [("A", callingTwice)] graph ∧
    Path.forward graph path.method = .ok [path] ∧
    (((Expander.ofGraph graph bareSettings {}).expandPath path).run { registry := { limit := .unlimited } }).1 =
    .ok paths ∧
    paths.length = 4 ∧ ∀ expanded ∈ paths,
      let walker : Walker Unit := ⟨Program.ofGraph graph, .silent, 100⟩
      let watched := (walker.watchedBy (walker.visitor.watching graph)).walk expanded [] { observed := () }
      walker.walk expanded [] () = (watched.1, watched.2.observed) ∧ ∀ sight ∈ watched.2.sights,
      sight.Mirrors graph := by
  obtain ⟨graph, path, paths, hgraph, hforward, hrun, hcount, -⟩ := exists_fourfold_run
  refine ⟨graph, path, paths, hgraph, hforward, hrun, hcount, fun expanded hexpanded => ?_⟩
  exact walk_mirrors_syntax hgraph hforward mem_cons_self (valid_start graph .unlimited) hrun hexpanded
    ⟨Program.ofGraph graph, .silent, 100⟩ rfl _ [] ()

end ApexPaths
