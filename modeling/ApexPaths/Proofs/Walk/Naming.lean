import ApexPaths.Proofs.Walk.Binding
import ApexPaths.Proofs.Walk.Mirror
import ApexPaths.Proofs.Walk.Sites

/-!
Names along walks. What is evaluated while a method runs lies at a vertex of its path, with the outline that the
vertices before it leave, or it initializes a field and lies in no method. So wherever a walk evaluates an
unqualified variable, the running method binds its name as the program does.
-/

namespace ApexPaths
set_option autoImplicit false

open CodeGraph WalkM List Program

/-! ## Built graphs -/

theorem Build.IsGraphOf.wellBound {settings : Settings} {sources : List (String × String)} {graph : CodeGraph}
    (h : Build.IsGraphOf settings sources graph) : Build.WellBound graph := by
  have placed := h.wellPlaced
  have operands := h.hasOperands
  obtain ⟨units, stats, hparse, hbuild⟩ := h
  have kinds := hasKinds_of_build (Source.well_of_parseAll hparse) hbuild
  refine ⟨placed, ⟨operands.mem_children, fun {p c} hc => ?_⟩, kinds⟩
  have hparent := placed.forest.parent_of_mem hc
  have hchild := lt_of_parent? hparent
  obtain ⟨child, hlabel⟩ := exists_label hchild
  obtain ⟨kind, hkind⟩ := exists_label (Nat.lt_trans (placed.forest.parent_lt hparent) hchild)
  have hmay := kinds.mayHold hc
  rw [labelOf_eq hlabel, labelOf_eq hkind] at hmay
  simpa [CodeGraph.declares, CodeGraph.is, hlabel, hkind] using NodeKind.declarator_iff_of_mayHold hmay

namespace CodeGraph

variable {graph : CodeGraph}

theorem mem_children_of_body? {method body : VertexId} (h : graph.body? method = some body) :
    body ∈ graph.children method ∧ graph.label? body = some .blockStatement := by
  rw [body?, lastBlock?] at h
  obtain ⟨hlast, hblock⟩ := Option.filter_eq_some_iff.mp h
  exact ⟨mem_of_getLast? hlast, graph.is_iff.mp hblock⟩

end CodeGraph

theorem CodeGraph.is_of_labelOf {graph : CodeGraph} {v : VertexId} {label : NodeKind} (h : graph.labelOf v = label)
    (hdefault : label ≠ .blockStatement) : graph.is v label = true := by
  rw [graph.is_iff]
  cases hlabel : graph.label? v with
  | none =>
    rw [labelOf, hlabel] at h
    exact absurd h.symm hdefault
  | some found => rw [← h, labelOf_eq hlabel]

theorem NodeKind.isSimple_of_isDml {kind : NodeKind} (h : kind.isDml = true) : kind.isSimple = true := by
  cases kind <;> first | rfl | exact absurd h (by decide)

namespace CodeGraph

variable {graph : CodeGraph}

/-! ## Outside of bodies -/

/-- The vertex is below no body. -/
def IsOutside (graph : CodeGraph) (v : Nat) : Prop :=
  ∀ body : Nat, graph.label? body = some .blockStatement → ¬graph.Below body v

theorem not_isPart_of_block {body : VertexId} (h : graph.label? body = some .blockStatement) : ¬graph.IsPart body := by
  rintro ⟨label, hlabel, hpart⟩
  cases hlabel.symm.trans h
  cases hpart

section
variable (forest : graph.IsForest)
include forest

theorem IsOutside.part {p c : Nat} (h : graph.IsOutside p) (hc : c ∈ graph.children p) (hpart : graph.IsPart c) :
    graph.IsOutside c := by
  intro body hbody hbelow
  have hne : c ≠ body := by
    rintro rfl
    exact not_isPart_of_block hbody hpart
  exact h body hbody (hbelow.parent forest hne (forest.parent_of_mem hc))

theorem isOutside_of_mem_fields (kinds : graph.HasKinds) (declared : graph.WellDeclared) {type field : VertexId}
    (h : field ∈ graph.fields type) : graph.IsPart field ∧ graph.IsOutside field := by
  obtain ⟨statements, hstatements, hfield⟩ := mem_flatMap.mp h
  have hlabel := graph.is_iff.mp (mem_filter.mp hstatements).2
  obtain ⟨hchild, hkind⟩ := mem_filter.mp hfield
  have hpart : graph.IsPart field := ⟨_, graph.is_iff.mp hkind, rfl⟩
  refine ⟨hpart, IsOutside.part forest (fun body hbody hbelow => ?_) hchild hpart⟩
  have hinner := isInner_of_below forest kinds declared hbody hbelow
  rw [labelOf_eq hlabel] at hinner
  cases hinner

end

end CodeGraph

/-! ## Parts of vertices -/

namespace Walker

variable {σ : Type} {walker : Walker σ}

theorem snd_declaredVariables (kinds : walker.graph.HasKinds) {v : VertexId} :
    walker.declaredVariables v = (walker.graph.childrenWithLabel v .variableDeclaration).map fun declaration =>
      (declaration, walker.program.spelled declaration) := by
  rw [declaredVariables]
  refine map_congr_left fun declaration hdeclaration => ?_
  obtain ⟨-, -, htype, -⟩ := exists_spelled kinds (walker.graph.is_iff.mp (mem_filter.mp hdeclaration).2) rfl
  rw [variableType, show walker.graph.declaredType? declaration = _ from htype]
  rfl

theorem root_cases (bound : Build.WellBound walker.graph) (operands : walker.graph.HasOperands) {v root : Nat}
    (hv : v < walker.graph.vertexCount) (h : root ∈ walker.graph.evaluatedRoots v) :
    walker.graph.IsPart root ∧ (root = v ∨ root ∈ walker.graph.children v) := by
  have forest := bound.placed.forest
  have hexpression : ∀ {w : Nat}, w < walker.graph.vertexCount → (walker.graph.labelOf w).isExpression = true →
      walker.graph.IsPart w := by
    intro w hw hexpr
    obtain ⟨label, hlabel⟩ := exists_label hw
    rw [labelOf_eq hlabel] at hexpr
    exact ⟨label, hlabel, NodeKind.isPart_of_isExpression hexpr⟩
  have hchild : (walker.graph.labelOf v).isPart = true ∨ (walker.graph.labelOf v).isSimple = true →
    root ∈ walker.graph.children v → walker.graph.IsPart root ∧ (root = v ∨ root ∈ walker.graph.children v) := by
    intro hkind hroot
    obtain ⟨label, hlabel⟩ := exists_label (lt_of_parent? (forest.parent_of_mem hroot))
    have hmay := bound.kinds.mayHold hroot
    rw [labelOf_eq hlabel] at hmay
    exact ⟨⟨label, hlabel, NodeKind.isPart_of_mayHold hmay hkind⟩, .inr hroot⟩
  rw [evaluatedRoots] at h
  split at h
  case h_6 hloop =>
    have hroot := Option.mem_toList.mp h
    have hmem := mem_children_of_childAt? hroot
    have hexpr := (operands.operandsAt v).iterable hloop root hroot
    exact ⟨hexpression (lt_of_parent? (forest.parent_of_mem hmem)) hexpr, .inr hmem⟩
  case h_7 =>
    split at h
    · rename_i hdml
      exact hchild (.inr (NodeKind.isSimple_of_isDml hdml)) h
    · split at h
      · rename_i hexpr
        obtain rfl := mem_singleton.mp h
        exact ⟨hexpression hv hexpr, .inl rfl⟩
      · cases h
  all_goals
    rename_i hlabel
    exact hchild (by rw [hlabel]; decide) h

/-! ## Work while methods run -/

/-- The expression is evaluated with the outline of a method that runs, or it lies in no body of a method. -/
structure Situated (walker : Walker σ) (top : FrameOutline) (expr : VertexId) : Prop where
  isPart : walker.graph.IsPart expr
  evaluating : (∃ method, walker.Evaluating method top expr) ∨ walker.graph.IsOutside expr

/-- Work along forwarded paths, of expressions with the outline that belongs to them. -/
def Running (walker : Walker σ) (outlines : List FrameOutline) : Task → Prop
  | .eval sites expr => (∃ top ∈ outlines.head?, walker.Situated top expr) ∧ ∀ path ∈ sites, path.Forwarded walker.graph
  | .invoke path _ _ => path.Forwarded walker.graph

section
variable (bound : Build.WellBound walker.graph)
include bound

theorem Situated.part {top : FrameOutline} {expr part : Nat} (h : walker.Situated top expr)
    (hpart : part ∈ walker.graph.children expr) : walker.Situated top part := by
  have forest := bound.placed.forest
  have hkind := isPart_of_child forest bound.kinds h.isPart hpart
  refine ⟨hkind, h.evaluating.imp ?_ fun houtside => houtside.part forest hpart hkind⟩
  rintro ⟨method, hevaluating⟩
  have hbelow : walker.graph.Below expr part :=
    .of_child forest hpart (.refl (lt_of_parent? (forest.parent_of_mem hpart)))
  exact ⟨method, hevaluating.below bound h.isPart hbelow⟩

theorem admits_running : Admits walker.graph walker.Running where
  running := by
    rintro outlines sites expr ⟨⟨top, htop, -⟩, -⟩ rfl
    cases htop
  part := by
    rintro outlines sites expr part ⟨⟨top, htop, hsituated⟩, hsites⟩ hpart
    exact ⟨⟨top, htop, hsituated.part bound hpart⟩, hsites⟩
  attached h hpath outlines this args := by
    obtain ⟨path, hsites, hinvoked⟩ := Option.bind_eq_some_iff.mp hpath
    obtain ⟨-, -, -, hattached⟩ := h.2 path hsites
    exact hattached _ (mem_attached_of_invokedPath? hinvoked)
  field hfield hinit outlines := by
    have forest := bound.placed.forest
    obtain ⟨hpart, houtside⟩ := isOutside_of_mem_fields forest bound.kinds bound.declared hfield
    have hkind := isPart_of_child forest bound.kinds hpart hinit
    exact ⟨⟨_, rfl, hkind, .inr (houtside.part forest hinit hkind)⟩, by simp⟩

/-- At a vertex of a route the frame binds the names that the syntax declares. -/
theorem admits_vertex (operands : walker.graph.HasOperands) {path : CodePath}
    (hforwarded : path.Forwarded walker.graph) {body v : Nat} {before after : List VertexId}
    (hmethod : walker.graph.is path.method .method = true) (hbody : body ∈ walker.graph.children path.method)
    (route : Route walker.graph body path.ids) (h : path.ids = before ++ v :: after) (rest : List FrameOutline) :
    AdmitsVertex walker walker.Running ⟨walker.parameterOutline path.method,
    walker.blocksOf before (walker.graph.scopeLine body v)⟩ rest path v := by
  have forest := bound.placed.forest
  have hv := route.below v (Route.mem h)
  have hsites : ∀ sites ∈ some path, sites.Forwarded walker.graph := by
    rintro sites hsome
    cases hsome
    exact hforwarded
  constructor
  · intro done declaration todo hsplit _ init hinit
    rw [snd_declaredVariables bound.kinds] at hsplit
    obtain ⟨ids, others, hids, rfl, hothers⟩ := map_eq_append_iff.mp hsplit
    obtain ⟨declarator, more, rfl, rfl, rfl⟩ := map_eq_cons_iff.mp hothers
    have hdeclarator : declarator ∈ walker.graph.childrenWithLabel v .variableDeclaration :=
      hids ▸ mem_append_right _ mem_cons_self
    obtain ⟨hchild, hlabel⟩ := mem_filter.mp hdeclarator
    have hdeclares := (bound.declared.declarator_iff hchild).mp hlabel
    have hinit := mem_children_of_childAt? hinit
    have hparent := forest.parent_of_mem hinit
    have hdeclared : walker.graph.IsPart declarator := ⟨_, walker.graph.is_iff.mp hlabel, rfl⟩
    have hpart := isPart_of_child forest bound.kinds hdeclared hinit
    have hline : walker.graph.line init = init :: declarator :: walker.graph.line v := by
      rw [line_of_parent forest (lt_of_parent? hparent) hparent,
        line_of_parent forest (lt_of_parent? (forest.parent_of_mem hchild)) (forest.parent_of_mem hchild)]
    have hevaluates : walker.graph.EvaluatesAt v ids init := by
      refine ⟨?_, fun w hw => ?_, .inr ⟨declarator, more, hdeclares, ?_, ?_⟩⟩
      · exact .of_child forest hchild (.of_child forest hinit (.refl (lt_of_parent? hparent)))
      · rw [hline] at hw
        rcases mem_cons.mp hw with rfl | hw
        · exact .inr hpart
        rcases mem_cons.mp hw with rfl | hw
        · exact .inr hdeclared
        · exact .inl hw
      · rw [declarations_of_declares hdeclares, hids]
      · rw [hline]
        exact mem_cons_of_mem _ mem_cons_self
    refine ⟨⟨_, rfl, hpart,
      .inl ⟨path.method, hmethod, body, v, path.ids, before, after, ids, hbody, route, h, hevaluates, ?_⟩⟩, hsites⟩
    rw [map_map]
    rfl
  · intro hdeclares root hroot
    obtain ⟨hpart, hplace⟩ := root_cases bound operands hv.1 hroot
    have hbelow : walker.graph.Below v root ∧ ∀ w : Nat, w ∈ walker.graph.line root → w ∈ walker.graph.line v ∨
        walker.graph.IsPart w := by
      rcases hplace with rfl | hchild
      · exact ⟨.refl hv.1, fun w hw => .inl hw⟩
      · have hparent := forest.parent_of_mem hchild
        refine ⟨.of_child forest hchild (.refl (lt_of_parent? hparent)), fun w hw => ?_⟩
        rw [line_of_parent forest (lt_of_parent? hparent) hparent] at hw
        rcases mem_cons.mp hw with rfl | hw
        · exact .inr hpart
        · exact .inl hw
    have hevaluates : walker.graph.EvaluatesAt v [] root :=
      ⟨hbelow.1, hbelow.2, .inl ⟨hdeclares, rfl, root, hroot, mem_cons_self⟩⟩
    exact ⟨⟨_, rfl, hpart,
      .inl ⟨path.method, hmethod, body, v, path.ids, before, after, [], hbody, route, h, hevaluates, rfl⟩⟩, hsites⟩

end

end Walker

/-! ## Moments of evaluation -/

/-- The expression is an unqualified variable in the body of a method, and it is not evaluated for a declaration of
its own name. -/
structure Program.ReadsName (program : Program) (method : VertexId) (name : String) (expr : VertexId) : Prop where
  isVariable : program.graph.is expr .variableExpression = true
  isUnqualified : program.graph.isUnqualified expr = true
  name?_eq : program.graph.name? expr = some name
  inBody : ∃ body, program.graph.body? method = some body ∧ program.graph.Below body expr
  notOwn : ¬program.InOwnDeclaration name expr

/-- Where such an expression has been evaluated, the running method binds its name as the program does. -/
def Moment.BindsAlike (program : Program) (moment : Moment) : Prop :=
  ∀ expr method name, moment.occasion = .evaluated expr → program.graph.is method .method = true →
  program.ReadsName method name expr → ∃ frame, moment.symbols.frame? = some frame ∧
  program.BindsAlike method frame name expr

/-- The journal belongs to what is observed, and names are bound alike at all of its moments. -/
def Journal.BindsAlike {σ : Type} (program : Program) (observed : σ) (journal : Journal σ) : Prop :=
  journal.observed = observed ∧ ∀ moment ∈ journal.moments, moment.BindsAlike program

theorem Journal.BindsAlike.note {σ : Type} {program : Program} {observed observed' : σ} {journal : Journal σ}
    (h : journal.BindsAlike program observed) {occasion : Occasion} {symbols : Symbols}
    (hmoment : Moment.BindsAlike program ⟨journal.chain, occasion, symbols⟩) :
    Journal.BindsAlike program observed' (Journal.note occasion symbols { journal with observed := observed' }) := by
  refine ⟨rfl, fun moment hmem => ?_⟩
  rcases mem_append.mp hmem with hold | hnew
  · exact h.2 moment hold
  · rw [mem_singleton.mp hnew]
    exact hmoment

namespace Walker

variable {σ : Type} {walker : Walker σ}

section
variable (bound : Build.WellBound walker.graph) (ascii : walker.graph.IsAscii)
include bound ascii

theorem Situated.bindsAlike {top : FrameOutline} {rest : List FrameOutline} {expr : VertexId}
    (h : walker.Situated top expr) {symbols : Symbols} (hsymbols : symbols.frames.map Frame.outline = top :: rest)
    (chain : Chain) :
    Moment.BindsAlike walker.program ⟨chain, .evaluated expr, symbols⟩ := by
  rintro place method name hplace hmethod ⟨-, -, hname, ⟨body, hbody, hbelow⟩, hown⟩
  cases hplace
  obtain ⟨hchild, hblock⟩ := mem_children_of_body? hbody
  rcases h.evaluating with ⟨running, hevaluating⟩ | houtside
  · have hsame := enclosingMethod?_of_below bound.placed.forest bound.kinds bound.declared hmethod hchild hblock hbelow
    cases hsame.symm.trans (hevaluating.enclosingMethod? bound)
    obtain ⟨frame, hframe, houtline⟩ := frame?_of_outlines hsymbols
    exact ⟨frame, hframe, hevaluating.bindsAlike bound ascii houtline (ascii _ _ hname) hown⟩
  · exact absurd hbelow (houtside body hblock)

variable (operands : walker.graph.HasOperands)
include operands

omit ascii in
theorem runsAlike_naming (built : Build.IsBuilt walker.graph) {perform : Perform σ} {perform' : Perform (Journal σ)}
    (hperform : Performs walker.Running (Journal.BindsAlike walker.program) (Journal.BindsAlike walker.program)
    perform perform')
    {path : CodePath} (hforwarded : path.Forwarded walker.graph) :
    RunsAlike walker walker.visitor.journaling perform perform' (Journal.BindsAlike walker.program)
    (Journal.BindsAlike walker.program) path := by
  intro this args outlines
  obtain ⟨henumerated, hmem, hids, hattached⟩ := hforwarded
  have hmethod := Path.isMethod_of_forward henumerated
  obtain ⟨body, hbody, route⟩ := built.route bound.placed henumerated hmem
  rw [← hids] at route
  have houtline := walker.outline_methodFrame path.method this args
  refine agrees_runMethod (fun _ => Journal.BindsAlike walker.program) (fun symbols observed journal _ h => ?_)
    (fun before v after h => ?_) fun returned observed journal h => ⟨?_, h.2⟩
  · obtain ⟨rfl, -⟩ := id h
    exact h.note fun _ _ _ hother => nomatch hother
  · have hentered := walker.foldl_passing_of_route bound.placed route h (walker.parameterOutline path.method)
    have hvertex :=
      admits_vertex bound operands (.intro henumerated hmem hids hattached) hmethod (mem_children_of_body? hbody).1
      route h outlines
    rw [← entering_blocksOf bound.placed route h, ← hentered, ← houtline] at hvertex
    refine agrees_step (admits_running bound) hperform hvertex (fun init hinit _ => ?_) ⟨?_, ?_⟩
    · exact hattached _ (mem_append_right _ (mem_map_of_mem hinit))
    · intro symbols observed journal _ h
      obtain ⟨rfl, -⟩ := id h
      exact ⟨rfl, h.note fun _ _ _ hother => nomatch hother⟩
    · intro symbols observed journal _ h
      obtain ⟨rfl, -⟩ := id h
      exact h.note fun _ _ _ hother => nomatch hother
  · rw [← h.1]
    rfl

/-- Every task of a walk binds names alike; by induction on the nesting. -/
theorem performs_naming (built : Build.IsBuilt walker.graph) (nesting : Nat) (site : Option VertexId) :
    Performs walker.Running (Journal.BindsAlike walker.program) (Journal.BindsAlike walker.program)
    (walker.performWithin nesting) (walker.performUnder walker.journaling nesting site) := by
  induction nesting generalizing site with
  | zero => exact ⟨fun _ => .exhausted id⟩
  | succ nesting ih =>
    refine ⟨fun {outlines task} h => ?_⟩
    cases task with
    | eval sites expr =>
      obtain ⟨⟨top, htop, hsituated⟩, -⟩ := id h
      obtain ⟨rest, rfl⟩ : ∃ rest, outlines = top :: rest := ⟨outlines.tail, eq_cons_of_mem_head? htop⟩
      have hsees : SeesExpressions (Journal.BindsAlike walker.program) walker.visitor walker.visitor.journaling := by
        rintro seen value _ journal ⟨rfl, hmoments⟩
        exact ⟨rfl, hmoments⟩
      refine keeps_eval_under (keeps_evalExpression (admits_running bound) (ih (some expr)) h hsees)
        fun state houtlines => agrees_notify fun {seen journal} h => ?_
      obtain ⟨rfl, -⟩ := id h
      exact h.note (hsituated.bindsAlike bound ascii houtlines _)
    | invoke path this args =>
      have hruns := runsAlike_naming bound operands built (ih none) h
      obtain ⟨-, -, -, hattached⟩ := h
      have hmain := keeps_invokePath (admits_running bound) (ih none)
        (fun init hinit _ => hattached _ (mem_append_right _ (mem_map_of_mem hinit))) hruns this args outlines
      have hsilent : ∀ f : Journal σ → Journal σ,
        (∀ journal, (f journal).observed = journal.observed ∧ (f journal).moments = journal.moments) →
          Keeps (Journal.BindsAlike walker.program) (Journal.BindsAlike walker.program) outlines
          (notify id : WalkM σ Unit) (notify f) := by
        refine fun f hf => agrees_notify fun {seen journal} h => ?_
        rw [Journal.BindsAlike, (hf journal).1, (hf journal).2]
        exact h
      exact keeps_invoke_under (hsilent (walker.journaling.enter site path) fun _ => ⟨rfl, rfl⟩) hmain
        (hsilent walker.journaling.leave fun _ => ⟨rfl, rfl⟩)

end

end Walker

/-! ## Walks along expanded paths -/

/-- Static and dynamic binding agree on the variables of methods. In a graph whose names are ASCII texts, along
every expanded path and all paths attached to it, whatever a visitor answers: where an unqualified variable in the
body of a method has been evaluated, but not for a declaration of its own name, the running method holds a variable
of the name exactly if the program finds a local variable or a parameter, and then both have one type, unless the
program finds a parameter whose name another parameter has, too. To keep the journal does not change the walk. -/
theorem walkWithin_bindsAlike {config : Settings} {sources : List (String × String)} {graph : CodeGraph}
    (h : Build.IsGraphOf config sources graph) (ascii : graph.IsAscii) {settings : Settings}
    {options : ExpansionOptions} {method : VertexId}
    {forward : List CodePath} (hforward : Path.forward graph method = .ok forward) {path : CodePath}
    (hpath : path ∈ forward)
    {state : ExpansionState} (valid : state.Valid graph) {paths : List CodePath}
    (hrun : (((Expander.ofGraph graph settings options).expandPath path).run state).1 = .ok paths) {expanded : CodePath}
    (hexpanded : expanded ∈ paths) {σ : Type} {walker : Walker σ} (hwalker : walker.program = Program.ofGraph graph)
    (nesting : Nat)
    (statics : StaticScopes) (observed : σ) :
    let journaled := walker.journalWithin nesting expanded statics observed
    walker.walkWithin nesting expanded statics observed = (journaled.1, journaled.2.observed) ∧
      ∀ moment ∈ journaled.2.moments, moment.BindsAlike (ofGraph graph) := by
  obtain rfl : walker.graph = graph := by rw [Walker.graph, hwalker]; rfl
  refine ⟨walker.walkWithin_eq_journaled nesting expanded statics observed, ?_⟩
  have bound := h.wellBound
  have hforwarded := Expander.forwarded_of_expandPath h hforward hpath valid hrun expanded hexpanded
  have hperform := Walker.performs_naming bound ascii h.hasOperands h.isBuilt nesting none
  have hruns := Walker.runsAlike_naming bound h.hasOperands h.isBuilt hperform hforwarded
  obtain ⟨-, -, -, hattached⟩ := hforwarded
  have hkeeps := Walker.keeps_walkPath (Walker.admits_running bound) hperform
    (fun init hinit _ => hattached _ (mem_append_right _ (mem_map_of_mem hinit))) hruns []
  obtain ⟨journal, heq, hends⟩ := hkeeps.run { symbols := { statics }, observed } { observed } rfl ⟨rfl, by simp⟩
  have hjournal : (walker.journalWithin nesting expanded statics observed).2 = journal :=
    congrArg (fun run : Except EngineError (Option Value) × WalkState (Journal σ) => run.2.observed) heq
  rw [hjournal, ← hwalker]
  generalize (walker.walkPath (walker.performWithin nesting) expanded).run { symbols := { statics }, observed } =
    result at hends
  obtain ⟨_ | returned, final⟩ := result
  · exact hends.2.2
  · exact hends.2.2

/-! ## Methods with parameters -/

def CodeGraph.hasAsciiNames (graph : CodeGraph) : Bool :=
  (List.range graph.vertexCount).all fun v => (graph.name? v).all fun name => name.toList.all (·.toNat < 0x80)

theorem CodeGraph.isAscii_of_hasAsciiNames {graph : CodeGraph} (h : graph.hasAsciiNames = true) : graph.IsAscii := by
  intro v name hname
  have hv : v < graph.vertexCount := Nat.lt_of_not_le fun hle => by
    have hnone : graph.vertex? v = none := Array.getElem?_eq_none hle
    simp [CodeGraph.name?, CodeGraph.text?, hnone] at hname
  have hall := all_eq_true.mp h v (mem_range.mpr hv)
  rw [hname] at hall
  exact hall

/-- The same as a test, in a graph without loops over collections. -/
def Program.readsName (program : Program) (method : VertexId) (name : String) (expr : Nat) : Bool :=
  program.graph.is expr .variableExpression && program.graph.isUnqualified expr && program.graph.name? expr ==
  some name && (program.graph.body? method).any (fun body => decide (expr < program.graph.vertexCount) &&
  (program.graph.line expr).contains body) &&
    !(program.graph.line expr).any (fun around => program.graph.is around .variableDeclaration &&
    program.hasName around name) &&
    (program.graph.withLabel .forEachStatement).isEmpty

theorem Program.readsName_sound {program : Program} {method expr : VertexId} {name : String}
    (h : program.readsName method name expr = true) : program.ReadsName method name expr := by
  simp only [readsName, Bool.and_eq_true, Bool.not_eq_true', beq_iff_eq, List.isEmpty_iff] at h
  obtain ⟨⟨⟨⟨⟨hvariable, hunqualified⟩, hname⟩, hbody⟩, hline⟩, hloops⟩ := h
  refine ⟨hvariable, hunqualified, hname, ?_, ?_⟩
  · obtain ⟨body, hbody, hbelow⟩ := (Option.any_eq_true ..).mp hbody
    rw [Bool.and_eq_true, decide_eq_true_eq, List.contains_iff_mem] at hbelow
    exact ⟨body, hbody, hbelow⟩
  · rintro ⟨around, hmem, ⟨hdeclaration, hnamed⟩ | ⟨loop, statement, hiterable, -⟩⟩
    · exact Bool.false_ne_true
        (hline.symm.trans (List.any_eq_true.mpr ⟨around, hmem, by rw [hdeclaration, hnamed]; rfl⟩))
    · have hloop : program.graph.is loop .forEachStatement = true := by
        rw [iterable?] at hiterable
        split at hiterable
        · rename_i hlabel
          exact is_of_labelOf (beq_iff_eq.mp hlabel) (by decide)
        · cases hiterable
      have hmem := CodeGraph.mem_withLabel.mpr hloop
      rw [hloops] at hmem
      cases hmem

/-- At some moment such an expression has been evaluated, and a test holds of the type that the running method
holds and of the one that the program finds for a variable of the method. -/
def readsAt (name : String) (test : String → String → Bool) (graph : CodeGraph) (path : CodePath) : Bool :=
  let program := ofGraph graph
  let walker : Walker Unit := ⟨program, .silent, 100⟩
  graph.hasAsciiNames && (walker.journalWithin 20 path [] ()).2.moments.any fun moment =>
    match moment.occasion, moment.symbols.frame? with
    | .evaluated expr, some frame =>
      program.readsName path.method name expr &&
        match frame.lookup? name, program.variableBinding? name expr with
        | some found, some binding => binding.declared.isOfMethod && test found.type binding.type
        | _, _ => false
    | _, _ => false

theorem exists_reading {text name : String} {test : String → String → Bool}
    (h : (Build.treeOfChars text.toList).toOption.any (anyMethod (expandsOnce (readsAt name test))) = true) :
    ∃ graph path expanded, Build.IsGraphOf bareSettings [("A", text)] graph ∧ graph.IsAscii ∧
    Path.forward graph path.method = .ok [path] ∧
      (((Expander.ofGraph graph bareSettings {}).expandPath path).run { registry := { limit := .unlimited } }).1 =
      .ok [expanded] ∧
      ∃ moment ∈ ((⟨ofGraph graph, .silent, 100⟩ : Walker Unit).journalWithin 20 expanded [] ()).2.moments,
      ∃ expr frame found binding, moment.occasion = .evaluated expr ∧
      (ofGraph graph).ReadsName expanded.method name expr ∧ moment.symbols.frame? = some frame ∧
      frame.lookup? name = some found ∧ (ofGraph graph).variableBinding? name expr = some binding ∧
          binding.declared.isOfMethod = true ∧ test found.type binding.type = true := by
  obtain ⟨graph, path, expanded, hgraph, hforward, hrun, htest⟩ := exists_expanded h
  obtain ⟨hascii, hmoments⟩ := Bool.and_eq_true_iff.mp htest
  obtain ⟨moment, hmoment, hreads⟩ := any_eq_true.mp hmoments
  refine ⟨graph, path, expanded, hgraph, isAscii_of_hasAsciiNames hascii, hforward, hrun, moment, hmoment, ?_⟩
  split at hreads
  case h_2 => cases hreads
  case h_1 expr frame hoccasion hframe =>
    obtain ⟨hreads, htypes⟩ := Bool.and_eq_true_iff.mp hreads
    split at htypes
    case h_2 => cases htypes
    case h_1 found binding hfound hbinding =>
      obtain ⟨hdeclared, htypes⟩ := Bool.and_eq_true_iff.mp htypes
      exact ⟨expr, frame, found, binding, hoccasion, readsName_sound hreads, hframe, hfound, hbinding,
        hdeclared, htypes⟩

/-- A method with a parameter and local variables in nested blocks. -/
def namingOnce : String := "class A { static Integer m(Integer a) { Integer b = a; { Integer c = b; return c; } } }"

theorem readsAt_namingOnce :
    (Build.treeOfChars namingOnce.toList).toOption.any
    (anyMethod (expandsOnce (readsAt "c" fun held found => held == found))) = true :=
  Build.any_of_toList_eq String.toList_ofList (by decide +kernel)

/-- A walker without a visitor along the method, which evaluates a local variable. -/
theorem namingOnce_bindsAlike : ∃ graph path expanded, Build.IsGraphOf bareSettings [("A", namingOnce)] graph ∧
    graph.IsAscii ∧ Path.forward graph path.method = .ok [path] ∧
    (((Expander.ofGraph graph bareSettings {}).expandPath path).run { registry := { limit := .unlimited } }).1 =
    .ok [expanded] ∧
    let walker : Walker Unit := ⟨ofGraph graph, .silent, 100⟩
    let journaled := walker.journalWithin 20 expanded [] ()
    (∃ moment ∈ journaled.2.moments, ∃ expr, moment.occasion = .evaluated expr ∧
    (ofGraph graph).ReadsName expanded.method "c" expr) ∧ walker.walkWithin 20 expanded [] () =
    (journaled.1, journaled.2.observed) ∧
      ∀ moment ∈ journaled.2.moments, moment.BindsAlike (ofGraph graph) := by
  obtain ⟨graph, path, expanded, hgraph, hascii, hforward, hrun, moment, hmoment, expr, _, _, _, hoccasion, hreads,
    -⟩ := exists_reading readsAt_namingOnce
  refine ⟨graph, path, expanded, hgraph, hascii, hforward, hrun, ⟨moment, hmoment, expr, hoccasion, hreads⟩, ?_⟩
  exact walkWithin_bindsAlike hgraph hascii hforward mem_cons_self (valid_start graph .unlimited) hrun mem_cons_self
    (show (⟨ofGraph graph, .silent, 100⟩ : Walker Unit).program = ofGraph graph from rfl) 20 [] ()

def repeatingParameter : String := "class A { void m(Integer a, String a) { Object o = a; } }"

theorem readsAt_repeatingParameter : (Build.treeOfChars repeatingParameter.toList).toOption.any
    (anyMethod (expandsOnce (readsAt "a" fun held found => held != found))) = true :=
  Build.any_of_toList_eq String.toList_ofList (by decide +kernel)

/-- Of two parameters of one name the running method holds the last, and the program finds the first, so their
types differ. -/
theorem repeatingParameter_apart :
    ∃ graph path expanded, Build.IsGraphOf bareSettings [("A", repeatingParameter)] graph ∧ graph.IsAscii ∧
    Path.forward graph path.method = .ok [path] ∧
    (((Expander.ofGraph graph bareSettings {}).expandPath path).run { registry := { limit := .unlimited } }).1 =
    .ok [expanded] ∧
    ∃ moment ∈ ((⟨Program.ofGraph graph, .silent, 100⟩ : Walker Unit).journalWithin 20 expanded [] ()).2.moments,
    ∃ expr frame found binding, moment.occasion = .evaluated expr ∧
    (Program.ofGraph graph).ReadsName expanded.method "a" expr ∧ moment.symbols.frame? = some frame ∧
    frame.lookup? "a" = some found ∧ (Program.ofGraph graph).variableBinding? "a" expr = some binding ∧
        binding.declared.isOfMethod = true ∧ found.type ≠ binding.type := by
  obtain ⟨graph, path, expanded, hgraph, hascii, hforward, hrun, moment, hmoment, expr, frame, found, binding,
    hoccasion, hreads, hframe, hfound, hbinding, hdeclared, htypes⟩ := exists_reading readsAt_repeatingParameter
  exact ⟨graph, path, expanded, hgraph, hascii, hforward, hrun, moment, hmoment, expr, frame, found, binding,
    hoccasion, hreads, hframe, hfound, hbinding, hdeclared, by simpa using htypes⟩

end ApexPaths
