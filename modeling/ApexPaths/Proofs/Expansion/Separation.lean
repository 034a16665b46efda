import ApexPaths.Proofs.Expansion.Ending
import ApexPaths.Proofs.Expansion.Facts

/-!
What paths record while they are expanded. A callee hands everything that it recorded to its caller, and so do the
callees and initializers inside it. None of it is about a variable of the caller, since an active method is not
entered again. So at every moment of an expansion a path has recorded of its own method exactly what its own
vertices prove, and whether it contradicts itself does not depend on what was attached to it.
-/

namespace ApexPaths
set_option autoImplicit false

open List

/-- The vertices that were passed on a path under expansion. -/
def Partial.passed (part : Partial) : List PathVertex := part.strand.path.vertices.take part.cursor.vertex

variable {part : Partial}

theorem Partial.take_succ {vertex : PathVertex} (h : part.vertex? = some vertex) :
    part.strand.path.vertices.take (part.cursor.vertex + 1) = part.passed ++ [vertex] := by
  rw [take_add_one, show part.strand.path.vertices[part.cursor.vertex]? = some vertex from h]
  rfl

theorem Partial.passed_of_end (h : part.vertex? = none) : part.passed = part.strand.path.vertices :=
  take_of_length_le (List.getElem?_eq_none_iff.mp h)

/-- What a path with which an expansion starts has recorded of a method before, if it is a path of that method. -/
def CodePath.recordedBefore (seed : CodePath) (method : VertexId) : List Constraint :=
  if method = seed.method then seed.metadata.constraints.filter (·.scope == method) else []

namespace Expander

variable (expander : Expander) (seed : CodePath)

/-! ## Paths under expansion -/

/-- A path of a method, below which others are active, has passed some vertices: of its own variables it has
recorded what these prove, and of the variables of the others nothing. -/
structure Tells (method : VertexId) (below : List VertexId) (own : List PathVertex) (path : CodePath) : Prop where
  method_eq : path.method = method
  own_eq : path.metadata.constraints.filter (·.scope == method) =
    seed.recordedBefore method ++ own.flatMap (expander.vertexConstraints method)
  spares : ∀ c ∈ path.metadata.constraints, c.scope ∉ below

/-- The method of a frame is not active below it, and all paths of the frame tell of it. -/
structure Frame.Apart (below : List VertexId) (frame : Frame) : Prop where
  idle : frame.method ∉ below
  /-- The expansion started with the seed. -/
  rooted : seed.method ∈ frame.method :: below
  pending : ∀ part ∈ frame.pending, expander.Tells seed frame.method below part.passed part.strand.path
  done : ∀ strand ∈ frame.done, expander.Tells seed frame.method below strand.path.vertices strand.path
  waiting : ∀ part site, frame.waiting = some (part, site) →
    expander.Tells seed frame.method below part.passed part.strand.path

/-- Each frame of a stack is apart from those below it. -/
def Apart : List Frame → Prop
  | [] => True
  | frame :: below => frame.Apart expander seed (methods below) ∧ Apart below

variable {expander seed} {method : VertexId} {below : List VertexId} {own : List PathVertex} {path : CodePath}

theorem tells_seed : expander.Tells seed seed.method [] [] seed where
  method_eq := rfl
  own_eq := by rw [CodePath.recordedBefore, if_pos rfl, flatMap_nil, append_nil]
  spares := fun _ _ => not_mem_nil

theorem tells_entered (hrooted : seed.method ∈ below) (hidle : method ∉ below) (vertices : List PathVertex) :
    expander.Tells seed method below [] { method, vertices } where
  method_eq := rfl
  own_eq := by
    have hne : method ≠ seed.method := fun heq => hidle (heq ▸ hrooted)
    rw [CodePath.recordedBefore, if_neg hne]
    rfl
  spares := fun _ hc => absurd hc not_mem_nil

theorem Tells.annotated (h : expander.Tells seed method below own path) (hidle : method ∉ below) (vertex : PathVertex) :
    expander.Tells seed method below (own ++ [vertex]) (expander.annotated path vertex) where
  method_eq := h.method_eq
  own_eq := by
    have hown : (expander.vertexConstraints method vertex).filter (·.scope == method) =
        expander.vertexConstraints method vertex :=
      filter_eq_self.mpr fun c hc => beq_iff_eq.mpr (scope_of_mem_vertexConstraints hc)
    have hconstraints : (expander.annotated path vertex).metadata.constraints =
        path.metadata.constraints ++ expander.vertexConstraints method vertex := by
      rw [← h.method_eq]
      rfl
    rw [hconstraints, filter_append, h.own_eq, hown, flatMap_append, flatMap_singleton, List.append_assoc]
  spares := forall_mem_append.mpr
    ⟨h.spares, fun c hc => by rwa [scope_of_mem_vertexConstraints hc, h.method_eq]⟩

/-- A callee adds nothing about the variables of the caller. -/
theorem Tells.splice {strand sub : Strand} (h : expander.Tells seed method below own strand.path) {callee : VertexId}
    {vertices : List PathVertex} (hsub : expander.Tells seed callee (method :: below) vertices sub.path)
    (anchor : VertexId) (site : Site) :
    expander.Tells seed method below own (strand.splice anchor site sub).path where
  method_eq := (strand.keeps_splice sub anchor site).method_eq.trans h.method_eq
  own_eq := by
    have hnone : sub.path.metadata.constraints.filter (·.scope == method) = [] :=
      filter_eq_nil_iff.mpr fun c hc => by simpa using ne_of_not_mem_cons (hsub.spares c hc)
    rw [constraints_splice, filter_append, h.own_eq, hnone, append_nil]
  spares := by
    rw [constraints_splice]
    exact forall_mem_append.mpr ⟨h.spares, fun c hc => not_mem_of_not_mem_cons (hsub.spares c hc)⟩

theorem tells_of_mem_collapse {results : List Strand}
    (h : ∀ strand ∈ results, expander.Tells seed method below strand.path.vertices strand.path) :
    ∀ strand ∈ expander.collapse results, expander.Tells seed method below strand.path.vertices strand.path := by
  intro strand hstrand
  obtain ⟨result, hresult, metadata, rfl, hconstraints⟩ := exists_of_mem_collapse hstrand
  obtain ⟨hmethod, hown, hspares⟩ := h result hresult
  exact ⟨hmethod, (congrArg _ hconstraints).trans hown, fun c hc => hspares c (hconstraints ▸ hc)⟩

/-! ## Steps -/

theorem Frame.Apart.ahead {frame : Frame} (h : frame.Apart expander seed below) {strands : List Strand}
    {cursor : Cursor} (hstrands : ∀ strand ∈ strands,
    expander.Tells seed frame.method below (Partial.passed ⟨strand, cursor⟩) strand.path) :
    (frame.ahead strands cursor).Apart expander seed below where
  idle := h.idle
  rooted := h.rooted
  pending := forall_mem_append.mpr ⟨forall_mem_map.mpr hstrands, h.pending⟩
  done := h.done
  waiting := h.waiting

theorem Frame.Apart.unwaiting {frame : Frame} (h : frame.Apart expander seed below) :
    { frame with waiting := none : Frame }.Apart expander seed below :=
  ⟨h.idle, h.rooted, h.pending, h.done, by simp⟩

/-- A step along a path leaves every frame with what its own vertices prove. -/
theorem ensures_advance_apart {frame : Frame} {below : List Frame} (hframe : frame.Apart expander seed (methods below))
    (hbelow : expander.Apart seed below)
    (hpart : expander.Tells seed frame.method (methods below) part.passed part.strand.path) :
    Ensures expander.graph (expander.advance frame below part) (expander.Apart seed) := by
  rw [advance]
  split
  · rename_i hend
    rw [Partial.passed_of_end hend] at hpart
    exact .pure ⟨⟨hframe.idle, hframe.rooted, hframe.pending, forall_mem_cons.mpr ⟨hpart, hframe.done⟩,
      hframe.waiting⟩, hbelow⟩
  rename_i vertex hvertex
  split
  · refine .pure ⟨hframe.ahead fun result hresult => ?_, hbelow⟩
    rw [eq_of_settle? (Option.mem_toList.mp hresult)]
    have htells := hpart.annotated hframe.idle vertex
    rw [← Partial.take_succ hvertex] at htells
    exact htells
  rename_i site _
  refine (ensures_plan (frame :: below) part.strand site).bind fun plan hplan => ?_
  cases plan with
  | skip => exact .pure ⟨hframe.ahead (forall_mem_singleton.mpr hpart), hbelow⟩
  | mark =>
    refine .pure ⟨hframe.ahead fun result hresult => ?_, hbelow⟩
    rw [mem_singleton.mp hresult]
    cases site <;> exact hpart
  | drop => exact .pure ⟨hframe, hbelow⟩
  | descend paths =>
    refine ensures_countExpander.bind fun _ _ => .pure ?_
    obtain ⟨hidle, hforward⟩ := hplan paths rfl
    have hrooted : seed.method ∈ methods (frame :: below) := hframe.rooted
    refine ⟨⟨hidle, mem_cons_of_mem _ hrooted, forall_mem_map.mpr fun path hpath =>
      ?_, by simp [Frame.enter], by simp [Frame.enter]⟩,
      ⟨hframe.idle, hframe.rooted, hframe.pending, hframe.done, ?_⟩, hbelow⟩
    · obtain ⟨vertices, rfl⟩ := (eq_of_forward hforward).2 path hpath
      exact tells_entered hrooted hidle vertices
    · rintro _ _ ⟨⟩
      exact hpart

theorem ensures_resume_apart {finished : List Strand} {callee : VertexId} {frame : Frame} {below : List Frame}
    (hfinished : ∀ strand ∈ finished,
    expander.Tells seed callee (frame.method :: methods below) strand.path.vertices strand.path)
    (hframe : frame.Apart expander seed (methods below)) (hbelow : expander.Apart seed below) :
    Ensures expander.graph (expander.resume finished frame below) (expander.Apart seed) := by
  rw [resume]
  split
  · exact .throw _
  rename_i part site hwaiting
  split
  · exact .pure ⟨hframe.unwaiting, hbelow⟩
  refine (ensures_countForks _).bind fun _ _ => ?_
  split
  · exact .throw _
  rename_i anchor _
  refine .pure ⟨hframe.unwaiting.ahead (forall_mem_map.mpr fun sub hsub => ?_), hbelow⟩
  have htells := (hframe.waiting part site hwaiting).splice (tells_of_mem_collapse hfinished sub hsub) anchor.id site
  rwa [Partial.passed, (part.strand.keeps_splice sub anchor.id site).vertices_eq]

/-- Every step leaves each frame with what its own vertices prove. -/
theorem ensures_step_apart {stack : List Frame} (h : expander.Apart seed stack) :
    Ensures expander.graph (expander.step stack) fun progress =>
    ∀ next, progress = .running next → expander.Apart seed next := by
  cases stack with
  | nil => exact .throw _
  | cons frame below =>
    obtain ⟨hframe, hbelow⟩ := h
    obtain ⟨method, pending, done, waiting⟩ := frame
    cases pending with
    | cons part rest =>
      obtain ⟨hpart, hrest⟩ := forall_mem_cons.mp hframe.pending
      have hframe' : Frame.Apart expander seed (methods below) { method, pending := rest, done, waiting } :=
        ⟨hframe.idle, hframe.rooted, hrest, hframe.done, hframe.waiting⟩
      refine (ensures_advance_apart hframe' hbelow hpart).bind fun next hnext => .pure ?_
      rintro _ ⟨⟩
      exact hnext
    | nil =>
      cases below with
      | nil => exact .pure fun _ h => by cases h
      | cons caller below =>
        have hdone : ∀ strand ∈ done.reverse,
            expander.Tells seed method (methods (caller :: below)) strand.path.vertices strand.path :=
          fun strand hstrand => hframe.done strand (mem_reverse.mp hstrand)
        refine (ensures_resume_apart hdone hbelow.1 hbelow.2).bind fun next hnext => .pure ?_
        rintro _ ⟨⟩
        exact hnext

/-! ## Whole expansions -/

variable (expander)

/-- States that follow each other in any number of steps. -/
def Reaches (start current : List Frame × ExpansionState) : Prop :=
  Relation.ReflTransGen (fun current next => expander.Follows next current) start current

/-- The paths that a frame holds, each with the vertices that it has passed. -/
inductive Frame.Holds (frame : Frame) : CodePath → List PathVertex → Prop where
  | pending {part : Partial} (h : part ∈ frame.pending) : Holds frame part.strand.path part.passed
  | waiting {part : Partial} {site : Site} (h : frame.waiting = some (part, site)) :
      Holds frame part.strand.path part.passed
  /-- The path as it is shown to the excluders, after the last site of a vertex. -/
  | judged {part : Partial} {vertex : PathVertex} (h : part ∈ frame.pending) (hvertex : part.vertex? = some vertex)
    (hsite : (expander.sitesOf part.strand.path.method (part.cursor.vertex == 0) vertex.id)[part.cursor.site]? = none) :
    Holds frame (expander.annotated part.strand.path vertex) (part.passed ++ [vertex])
  | done {strand : Strand} (h : strand ∈ frame.done) : Holds frame strand.path strand.path.vertices
  /-- The path as it is handed to the caller. -/
  | merged {strand : Strand} (hend : frame.pending = []) (h : strand ∈ expander.collapse frame.done.reverse) :
    Holds frame strand.path strand.path.vertices

/-- The path is one that the expansion of a seed comes upon when it has passed the vertices. -/
def Arises (seed : CodePath) (state : ExpansionState) (path : CodePath) (own : List PathVertex) : Prop :=
  ∃ stack after, expander.Reaches ([Frame.enter seed.method [seed] []], state) (stack, after) ∧
    ∃ frame ∈ stack, frame.Holds expander path own

variable {expander} {state : ExpansionState}

/-- So it is after any number of steps. -/
theorem Reaches.apart {start current : List Frame × ExpansionState} (hreaches : expander.Reaches start current)
    (h : expander.Apart seed start.1) (hcache : start.2.cache.Holds expander.graph) :
    expander.Apart seed current.1 ∧ current.2.cache.Holds expander.graph := by
  induction hreaches with
  | refl => exact ⟨h, hcache⟩
  | @tail current next _ hstep ih =>
    obtain ⟨hkept, hapart⟩ := ensures_step_apart ih.1 current.2 ih.2
    rw [Follows] at hstep
    rw [hstep] at hkept hapart
    exact ⟨hapart _ rfl next.1 rfl, hkept⟩

theorem apart_start : expander.Apart seed [Frame.enter seed.method [seed] []] :=
  ⟨⟨not_mem_nil, mem_singleton_self _,
  forall_mem_singleton.mpr tells_seed, by simp [Frame.enter], by simp [Frame.enter]⟩,
    trivial⟩

theorem Apart.of_mem {stack : List Frame} (h : expander.Apart seed stack) {frame : Frame} (hframe : frame ∈ stack) :
    ∃ below, frame.Apart expander seed below := by
  induction stack with
  | nil => cases hframe
  | cons first rest ih =>
    rcases mem_cons.mp hframe with rfl | hframe
    · exact ⟨_, h.1⟩
    · exact ih h.2 hframe

theorem Frame.Apart.tells {frame : Frame} (h : frame.Apart expander seed below)
    (holds : frame.Holds expander path own) : expander.Tells seed frame.method below own path := by
  cases holds with
  | pending hpart => exact h.pending _ hpart
  | waiting hwaiting => exact h.waiting _ _ hwaiting
  | judged hpart => exact (h.pending _ hpart).annotated h.idle _
  | done hstrand => exact h.done _ hstrand
  | merged _ hstrand => exact tells_of_mem_collapse (fun strand hdone => h.done strand (mem_reverse.mp hdone)) _ hstrand

theorem Frame.Holds.isPrefix {frame : Frame} (holds : frame.Holds expander path own) : own <+: path.vertices := by
  cases holds with
  | pending | waiting => exact take_prefix ..
  | judged _ hvertex =>
    rw [← Partial.take_succ hvertex]
    exact take_prefix ..
  | done | merged => exact prefix_rfl

theorem ensures_step_finished (stack : List Frame) : Ensures expander.graph (expander.step stack) fun progress =>
    ∀ paths, progress = .finished paths → ∃ frame, stack = [frame] ∧ paths = frame.done.reverse.map (·.path) := by
  cases stack with
  | nil => exact .throw _
  | cons frame below =>
    obtain ⟨method, pending, done, waiting⟩ := frame
    cases pending with
    | cons part rest => exact (ensures_advance _ below part).ignore.bind fun _ _ => .pure (by rintro _ ⟨⟩)
    | nil =>
      cases below with
      | nil => exact .pure fun _ h => ⟨_, rfl, (Progress.finished.inj h).symm⟩
      | cons caller below => exact (ensures_resume _ caller below).ignore.bind fun _ _ => .pure (by rintro _ ⟨⟩)

theorem exists_outermost {start : List Frame × ExpansionState} (hcache : start.2.cache.Holds expander.graph)
    {paths : List CodePath} (h : (expander.loop start).1 = .ok paths) :
    ∃ frame after, expander.Reaches start ([frame], after) ∧ paths = frame.done.reverse.map (·.path) := by
  have hacc : Acc expander.Follows start := acc_follows hcache
  induction hacc with
  | intro start hprevious ih =>
    obtain ⟨stack, state⟩ := start
    obtain ⟨hkept, hfinished⟩ := ensures_step_finished stack state hcache
    rw [loop_of_acc (.intro _ hprevious)] at h
    rcases hrun : (expander.step stack).run state with ⟨error | next | found, after⟩ <;> rw [hrun] at hkept hfinished h
    · cases h
    · have hstep : expander.Follows (next, after) (stack, state) := hrun
      obtain ⟨frame, last, hreaches, heq⟩ := ih _ hstep hkept h
      exact ⟨frame, last, .head hstep hreaches, heq⟩
    · cases h
      obtain ⟨frame, rfl, heq⟩ := hfinished _ rfl _ rfl
      exact ⟨frame, state, .refl, heq⟩

theorem arises_of_expandPath (hcache : state.cache.Holds expander.graph) {paths : List CodePath}
    (h : ((expander.expandPath seed).run state).1 = .ok paths) : ∀ path ∈ paths,
    expander.Arises seed state path path.vertices := by
  obtain ⟨frame, after, hreaches, rfl⟩ := exists_outermost hcache h
  intro path hpath
  obtain ⟨strand, hstrand, rfl⟩ := mem_map.mp hpath
  exact ⟨_, _, hreaches, frame, mem_singleton_self _, .done (mem_reverse.mp hstrand)⟩

theorem Arises.own_eq (harises : expander.Arises seed state path own) (hcache : state.cache.Holds expander.graph) :
    own <+: path.vertices ∧ path.metadata.constraints.filter (·.scope == path.method) =
      seed.recordedBefore path.method ++ own.flatMap (expander.vertexConstraints path.method) := by
  obtain ⟨stack, after, hreaches, frame, hframe, holds⟩ := harises
  obtain ⟨below, hapart⟩ := (hreaches.apart apart_start hcache).1.of_mem hframe
  obtain ⟨hmethod, hown, -⟩ := hapart.tells holds
  rw [hmethod]
  exact ⟨holds.isPrefix, hown⟩

/-- Every path that arises has recorded of its own method what the vertices prove that it has passed, one after the
other, and nothing else unless the expansion started with more. So the excluders decide alike on all paths of the
method that have passed these vertices, whatever was attached to the paths. -/
theorem own_vertices_decide (hcache : state.cache.Holds expander.graph)
    (harises : expander.Arises seed state path own) : own <+: path.vertices ∧
      path.metadata.constraints.filter (·.scope == path.method) =
        seed.recordedBefore path.method ++ own.flatMap (expander.vertexConstraints path.method) ∧
      (seed.metadata.constraints = [] →
        path.metadata.constraints.filter (·.scope == path.method) =
        own.flatMap (expander.vertexConstraints path.method)) ∧
      ∀ (other : Expander) (seed' : CodePath) (state' : ExpansionState) (path' : CodePath),
      other.program = expander.program → other.options.constrainers = expander.options.constrainers →
      state'.cache.Holds other.graph →
        other.Arises seed' state' path' own → path'.method = path.method →
        seed'.recordedBefore path.method = seed.recordedBefore path.method →
        ∀ excluder : Excluder, excluder.excludes path' = excluder.excludes path := by
  obtain ⟨hpassed, hown⟩ := harises.own_eq hcache
  refine ⟨hpassed, hown, fun hseed => ?_,
    fun other seed' state' path' hprogram hconstrainers hcache' harises' hmethod hbefore excluder => ?_⟩
  · rw [hown, CodePath.recordedBefore, hseed, filter_nil, ite_self, nil_append]
  · obtain ⟨-, hown'⟩ := harises'.own_eq hcache'
    have hfacts : other.vertexConstraints = expander.vertexConstraints := by
      funext method vertex
      rw [vertexConstraints, vertexConstraints, hprogram, hconstrainers]
    rw [hfacts, hmethod, hbefore] at hown'
    cases excluder
    rw [Excluder.excludes, Excluder.excludes, CodePath.isContradictory, CodePath.isContradictory, hown, hmethod, hown']

/-! ## A callee that tests a variable of the same name -/

/-- Facts about Boolean variables are recorded and judged. -/
def judgingFacts : ExpansionOptions := { excluders := [.contradictory], constrainers := [.booleanVariable] }

def testingTwice : String :=
  "class A { static void n(Boolean x) { if (x) { } } void m(Boolean x) { n(x); if (x) { } } }"

/-- A forward path where the variable is true has two expansions, and along the second one the callee found its own
to be false. -/
def expandsBothWays (graph : CodeGraph) (method : VertexId) : Bool :=
  let expander := ofGraph graph bareSettings judgingFacts
  let bound := (graph.withLabel .method).length + 1
  (expander.forwardPaths method).any fun path =>
    let results := (expander.expansionsWithin bound [method] { path }).map (·.path)
    expander.forksWithin bound [method] { path } == 1 &&
    (results.all fun result => result.method == method && result.vertices == path.vertices) &&
    results.map (·.metadata.constraints.map (·.kind)) == [[.isTrue, .isTrue], [.isFalse, .isTrue]]

theorem expandsBothWays_testingTwice :
    (Build.treeOfChars testingTwice.toList).toOption.any (anyMethod expandsBothWays) = true :=
  Build.any_of_toList_eq String.toList_ofList (by decide +kernel)

/-- What the callee found decides nothing for the caller. -/
theorem testingTwice_kept : ∃ graph seed first second, Build.IsGraphOf bareSettings [("A", testingTwice)] graph ∧
    (((ofGraph graph bareSettings judgingFacts).expandPath seed).run { registry := { limit := .unlimited } }).1 =
    .ok [first, second] ∧ first.metadata.constraints.map (·.kind) = [.isTrue, .isTrue] ∧
    second.metadata.constraints.map (·.kind) = [.isFalse, .isTrue] ∧
    (ofGraph graph bareSettings judgingFacts).Arises seed { registry := { limit := .unlimited } } first first.vertices ∧
    (ofGraph graph bareSettings judgingFacts).Arises seed { registry := { limit := .unlimited } } second
    first.vertices ∧
    second.isContradictory = first.isContradictory := by
  obtain ⟨graph, method, hgraph, -, htest⟩ := exists_graph expandsBothWays_testingTwice
  obtain ⟨seed, hseed, htest⟩ := any_eq_true.mp htest
  obtain ⟨vertices, rfl⟩ := eq_of_mem_forwardPaths hseed
  have hbound : (ofGraph graph bareSettings judgingFacts).idleCount [method] < (graph.withLabel .method).length + 1 :=
    Nat.lt_succ_of_le (length_filter_le ..)
  rw [expansionsWithin_eq _ hbound, forksWithin_eq _ hbound] at htest
  obtain ⟨⟨hforks, hown⟩, hkinds⟩ := by simpa only [Bool.and_eq_true, beq_iff_eq, all_eq_true] using htest
  have hrun := (asks_expandPath (sound_ofGraph hgraph.isBuilt bareSettings judgingFacts) { method, vertices }).result_eq
    (valid_start graph .unlimited)
  rw [hforks, Registry.outcome, if_pos (by decide)] at hrun
  generalize ((ofGraph graph bareSettings judgingFacts).expansions [method] { path := { method, vertices } }).map
    (·.path) = results at hown hkinds hrun
  obtain ⟨first, rest, rfl, hfirst, hrest⟩ := map_eq_cons_iff.mp hkinds
  obtain ⟨second, rest, rfl, hsecond, hrest⟩ := map_eq_cons_iff.mp hrest
  obtain rfl := map_eq_nil_iff.mp hrest
  obtain ⟨⟨hmethod, hvertices⟩, hmethod', hvertices'⟩ :
      (first.method = method ∧ first.vertices = vertices) ∧ second.method = method ∧ second.vertices = vertices := by
    simpa only [forall_mem_cons, not_mem_nil, IsEmpty.forall_iff, implies_true, and_true] using hown
  have hcache := (valid_start (ofGraph graph bareSettings judgingFacts).graph .unlimited).cached
  have harises := arises_of_expandPath hcache hrun first (by simp)
  have harises' := arises_of_expandPath hcache hrun second (by simp)
  rw [hvertices'.trans hvertices.symm] at harises'
  obtain ⟨-, -, -, hdecides⟩ := own_vertices_decide hcache harises
  exact ⟨graph, _, first, second, hgraph, hrun, hfirst, hsecond, harises, harises',
    hdecides _ _ _ _ rfl rfl hcache harises' (hmethod'.trans hmethod.symm) rfl .contradictory⟩

end Expander

end ApexPaths
