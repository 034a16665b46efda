import ApexPaths.Proofs.Expansion.Invariants
import ApexPaths.Proofs.Text.Case

/-!
Facts about variables along an expanded path. What is recorded about the variables of a path's own method comes from
the path's own vertices, in their order, since a callee is never the method itself. So what is known of a variable after
a vertex can be told from the vertex and from what was known before: a vertex that gives the variable a new value ends
every older fact, unless it overlooks the new value. Overlooked are assignments in conditions, assignments in the
declaration of other variables, caught exceptions and the variables of typed cases.
-/

namespace ApexPaths
set_option autoImplicit false

open List CodeGraph

/-! ## The latest fact -/

namespace PathMetadata

variable {before facts : List Constraint} {scope : VertexId} {name : String}

theorem currentFact?_append_of_forall (h : ∀ c ∈ facts, c.scope = scope → c.variableName ≠ Text.lower name) :
    currentFact? { constraints := before ++ facts } scope name = currentFact? { constraints := before } scope name := by
  have hnone : facts.reverse.find? (fun c => c.scope == scope && c.variableName == Text.lower name) = none := by
    refine List.find?_eq_none.mpr fun c hc hmatch => ?_
    obtain ⟨hscope, hname⟩ := by simpa only [Bool.and_eq_true, beq_iff_eq] using hmatch
    exact h c (mem_reverse.mp hc) hscope hname
  simp only [currentFact?, reverse_append, List.find?_append, hnone, Option.none_or]

theorem currentFact?_filter : currentFact? { constraints := before.filter (·.scope == scope) } scope name =
    currentFact? { constraints := before } scope name := by
  simp only [currentFact?, ← filter_reverse, List.find?_filter]
  refine congrArg (fun p => Option.filter (· != .reset) (Option.map Constraint.kind (before.reverse.find? p))) ?_
  exact funext fun c => Bool.eq_iff_iff.mpr (by simp)

theorem currentFact?_eq_none_of_resets (hresets : ∀ c ∈ facts, c.kind = .reset)
    (hname : ∃ c ∈ facts, c.scope = scope ∧ c.variableName = Text.lower name) :
    currentFact? { constraints := before ++ facts } scope name = none := by
  obtain ⟨c, hc, hscope, hname⟩ := hname
  have hsome : (facts.reverse.find? fun c => c.scope == scope && c.variableName == Text.lower name).isSome = true :=
    List.find?_isSome.mpr ⟨c, mem_reverse.mpr hc, by simp [hscope, hname]⟩
  obtain ⟨found, hfound⟩ := Option.isSome_iff_exists.mp hsome
  have hreset := hresets found (mem_reverse.mp (mem_of_find?_eq_some hfound))
  simp [currentFact?, List.find?_append, hfound, hreset]

/-- A fact is known of the variable, and it is one from before the last constraints. -/
def IsStale (before facts : List Constraint) (scope : VertexId) (name : String) : Prop :=
  (currentFact? { constraints := before ++ facts } scope name).isSome = true ∧
    ∀ c ∈ facts, c.scope = scope → c.variableName ≠ Text.lower name

theorem isStale_iff :
    IsStale before facts scope name ↔ (currentFact? { constraints := before } scope name).isSome = true ∧ ∀ c ∈ facts,
    c.scope = scope → c.variableName ≠ Text.lower name :=
  and_congr_left fun h => by rw [currentFact?_append_of_forall h]

end PathMetadata

/-! ## Constraints along a path -/

namespace Expander

variable (expander : Expander)

/-- The constraints that a vertex adds to a path of a method. -/
def vertexConstraints (method : VertexId) (vertex : PathVertex) : List Constraint :=
  expander.program.vertexConstraints expander.options.constrainers method vertex

/-- What is recorded by following steps along a path of a method: at a vertex what it proves, and at a site only
constraints of other methods. -/
inductive Records (method : VertexId) : List Step → List Constraint → Prop where
  | start : Records method [] []
  | vertex {steps : List Step} {before : List Constraint} (h : Records method steps before) (vertex : PathVertex) :
    Records method (steps ++ [.settle vertex]) (before ++ expander.vertexConstraints method vertex)
  | site {steps : List Step} {before more : List Constraint} (h : Records method steps before) (anchor : VertexId)
      (site : Site) (hmore : ∀ c ∈ more, c.scope ≠ method) :
      Records method (steps ++ [.site anchor site]) (before ++ more)

variable {expander}

theorem scope_of_mem_vertexConstraints {method : VertexId} {vertex : PathVertex} {c : Constraint}
    (h : c ∈ expander.vertexConstraints method vertex) : c.scope = method := by
  obtain ⟨constrainer, -, hc⟩ := mem_flatMap.mp h
  obtain ⟨fact, -, rfl⟩ := mem_map.mp hc
  rfl

/-- The vertices that steps settle. -/
def passed (steps : List Step) : List PathVertex :=
  steps.filterMap fun
    | .settle vertex => some vertex
    | .site _ _ => none

theorem passed_append (first second : List Step) : passed (first ++ second) = passed first ++ passed second :=
  filterMap_append

theorem Records.filter_eq {method : VertexId} {steps : List Step} {all : List Constraint}
    (h : expander.Records method steps all) : all.filter (·.scope == method) =
    (passed steps).flatMap (expander.vertexConstraints method) := by
  induction h with
  | start => rfl
  | vertex _ vertex ih =>
    have hown : (expander.vertexConstraints method vertex).filter (·.scope == method) =
        expander.vertexConstraints method vertex :=
      filter_eq_self.mpr fun c hc => by simpa using scope_of_mem_vertexConstraints hc
    rw [filter_append, ih, hown, passed_append, flatMap_append]
    simp [passed]
  | @site _ _ more _ anchor site hmore ih =>
    have hnone : more.filter (·.scope == method) = [] := filter_eq_nil_iff.mpr fun c hc => by simpa using hmore c hc
    rw [filter_append, ih, hnone, passed_append]
    simp [passed]

theorem Records.split {method : VertexId} {steps : List Step} {all : List Constraint}
    (h : expander.Records method steps all) {done rest : List Step} {vertex : PathVertex}
    (hsteps : steps = done ++ .settle vertex :: rest) :
    ∃ before after, all = before ++ expander.vertexConstraints method vertex ++ after ∧
    expander.Records method done before := by
  induction h generalizing rest with
  | start => simp at hsteps
  | vertex h last ih =>
    rcases eq_nil_or_concat rest with rfl | ⟨init, step, rfl⟩
    · obtain ⟨rfl, hlast⟩ := append_inj' hsteps rfl
      obtain rfl : last = vertex := by simpa using hlast
      exact ⟨_, [], by simp, h⟩
    · rw [concat_eq_append, ← cons_append, ← List.append_assoc] at hsteps
      obtain ⟨hinit, -⟩ := append_inj' hsteps rfl
      obtain ⟨before, after, rfl, hdone⟩ := ih hinit
      exact ⟨before, after ++ _, by rw [List.append_assoc], hdone⟩
  | site h anchor site hmore ih =>
    rcases eq_nil_or_concat rest with rfl | ⟨init, step, rfl⟩
    · obtain ⟨-, hlast⟩ := append_inj' hsteps rfl
      cases hlast
    · rw [concat_eq_append, ← cons_append, ← List.append_assoc] at hsteps
      obtain ⟨hinit, -⟩ := append_inj' hsteps rfl
      obtain ⟨before, after, rfl, hdone⟩ := ih hinit
      exact ⟨before, after ++ _, by rw [List.append_assoc], hdone⟩

variable (expander) in
theorem exists_steps (method : VertexId) (isFirst : Bool) (done : List PathVertex) (vertex : PathVertex)
    (rest : List PathVertex) : ∃ before after, expander.steps method isFirst (done ++ vertex :: rest) = before ++
    .settle vertex :: after ∧ passed before = done := by
  have hsites : ∀ (v : PathVertex) (isFirst : Bool),
      passed ((expander.sitesOf method isFirst v.id).map (.site v.id)) = [] := by
    intro v isFirst
    simp [passed, filterMap_map]
  induction done generalizing isFirst with
  | nil => exact ⟨_, _, rfl, hsites vertex isFirst⟩
  | cons first done ih =>
    obtain ⟨before, after, hsteps, hpassed⟩ := ih false
    refine ⟨(expander.sitesOf method isFirst first.id).map (.site first.id) ++ .settle first :: before, after, ?_, ?_⟩
    · rw [cons_append, steps, hsteps]
      simp
    · rw [passed_append, hsites]
      simpa [passed] using hpassed

/-! ## What an expansion records -/

theorem constraints_splice (strand sub : Strand) (anchor : VertexId) (site : Site) :
    (strand.splice anchor site sub).path.metadata.constraints =
      strand.path.metadata.constraints ++ sub.path.metadata.constraints := by
  cases site <;> rfl

/-- Nothing on the path belongs to some method. -/
structure Spares (method : VertexId) (strand : Strand) : Prop where
  method_ne : strand.path.method ≠ method
  scope_ne : ∀ c ∈ strand.path.metadata.constraints, c.scope ≠ method

/-- Inside an active method nothing is recorded about the variables of the method. -/
theorem spares_expansions {method : VertexId} {active : List VertexId} (hactive : method ∈ active) {first : Strand}
    (h : Spares method first) : ∀ result ∈ expander.expansions active first, Spares method result := by
  induction hidle : expander.idleCount active using Nat.strongRecOn generalizing active first with
  | _ n nested =>
  rw [expansions_eq]
  refine follow_preserves (fun strand step _ hstrand result hresult => ?_) h
  cases takes_of_mem_take hresult with
  | settle =>
    refine ⟨hstrand.method_ne, forall_mem_append.mpr ⟨hstrand.scope_ne, fun c hc => ?_⟩⟩
    rw [scope_of_mem_vertexConstraints hc]
    exact hstrand.method_ne
  | skip => exact hstrand
  | @entering _ site => cases site <;> exact ⟨hstrand.method_ne, hstrand.scope_ne⟩
  | @splice _ site path sub _ hskips _ hpath hsub hlt hsame =>
    obtain ⟨vertices, rfl⟩ := eq_of_mem_forwardPaths hpath
    have hcallee : site.callee ≠ method := by
      rintro rfl
      simp [skips, hactive] at hskips
    have hspares := nested _ (hidle ▸ hlt) (mem_cons_of_mem _ hactive) ⟨hcallee, by simp⟩ rfl sub hsub
    refine ⟨by cases site <;> exact hstrand.method_ne, ?_⟩
    rw [constraints_splice]
    exact forall_mem_append.mpr ⟨hstrand.scope_ne, fun c hc => hspares.scope_ne c (hsame ▸ hc)⟩

/-- An expansion records of its own method what its vertices prove, in their order. -/
theorem records_expansions {active : List VertexId} {method : VertexId} (hactive : method ∈ active)
    {vertices : List PathVertex} {initialized : List String} :
    ∀ result ∈ expander.expansions active ⟨{ method, vertices }, initialized⟩,
      expander.Records method (expander.steps method true vertices) result.path.metadata.constraints := by
  have hfollow := @follow_through _ (expander.take active)
    (fun done strand => strand.path.method = method ∧ expander.Records method done strand.path.metadata.constraints)
    (expander.steps method true vertices) []
  rw [expansions_eq]
  intro result hresult
  refine (hfollow (fun done step _ _ strand hstrand next hnext => ?_) ⟨rfl, .start⟩ result hresult).2
  rw [nil_append] at hstrand ⊢
  obtain ⟨hmethod, hrecords⟩ := hstrand
  have hsame : ∀ anchor site, expander.Records method (done ++ [.site anchor site]) strand.path.metadata.constraints :=
    fun anchor site => by simpa using hrecords.site anchor site (forall_mem_nil _)
  cases takes_of_mem_take hnext with
  | @settle vertex =>
    refine ⟨hmethod, ?_⟩
    have hvertex := hrecords.vertex vertex
    rw [← hmethod] at hvertex ⊢
    exact hvertex
  | skip => exact ⟨hmethod, hsame _ _⟩
  | @entering anchor site => cases site <;> exact ⟨hmethod, hsame anchor _⟩
  | @splice anchor site path sub _ hskips _ hpath hsub _ hconstraints =>
    obtain ⟨vertices, rfl⟩ := eq_of_mem_forwardPaths hpath
    have hcallee : site.callee ≠ method := by
      rintro rfl
      simp [skips, hactive] at hskips
    have hspares := spares_expansions (mem_cons_of_mem site.callee hactive) ⟨hcallee, by simp⟩ sub hsub
    refine ⟨by cases site <;> exact hmethod, ?_⟩
    rw [constraints_splice]
    exact hrecords.site anchor site fun c hc => hspares.scope_ne c (hconstraints ▸ hc)

end Expander

/-! ## New values -/

namespace Program

section
variable (program : Program) (v : VertexId) (name : String)

/-- A vertex gives a variable of its method, by name in any case, a new value: the vertex declares it, as the
variable of a loop or of a clause or as any other, or evaluates an assignment to it. -/
inductive Rebinds : Prop where
  | declaration {declared : VertexId} (hv : program.graph.is v .variableDeclarationStatements = true)
    (hdeclared : declared ∈ program.graph.childrenWithLabel v .variableDeclaration)
    (hname : program.graph.name? declared = some name)
  | loopVariable {statements declared : VertexId} (hv : program.graph.loopVariable? v = some statements)
    (hdeclared : declared ∈ program.graph.childrenWithLabel statements .variableDeclaration)
    (hname : program.graph.name? declared = some name)
  | clauseVariable (hv : program.graph.is v .catchBlockStatement = true ∨ program.graph.is v .typeWhenBlock = true)
    (hname : program.graph.name? v = some name)
  | assignment {expr target : VertexId} (hexpr : expr ∈ program.graph.evaluatedExpressions v)
    (his : program.graph.is expr .assignmentExpression = true) (htarget : program.graph.childAt? expr 0 = some target)
    (hlocal : program.localName? target = some (Text.lower name))

/-- A new value of a variable that a vertex does not record: at a condition, as the variable of a clause, or where
the vertex declares variables, but none of this name. -/
inductive Overlooks : Prop where
  | condition (hv : program.graph.is v .standardCondition = true)
  | clause (hv : program.graph.is v .catchBlockStatement = true ∨ program.graph.is v .typeWhenBlock = true)
  | declarations (hv : program.graph.is v .variableDeclarationStatements = true ∨
      program.graph.is v .forEachStatement = true) (hnone : ∀ d ∈ program.graph.descendants v,
      program.graph.is d .variableDeclaration = true →
      ∀ own ∈ program.graph.name? d, Text.lower own ≠ Text.lower name)

end

variable {program : Program} {v : Nat} {name : String}

theorem self_mem_descendantsWithin (graph : CodeGraph) (n : Nat) (v : VertexId) : v ∈ graph.descendantsWithin n v := by
  cases n <;> simp [descendantsWithin]

theorem mem_descendants_of_child (forest : program.graph.IsForest) {c d : Nat} (hc : c ∈ program.graph.children v)
    (hd : d = c ∨ d ∈ program.graph.children c) : d ∈ program.graph.descendants v := by
  have hvc := forest.lt_of_mem hc
  have hcount := lt_of_parent? (forest.parent_of_mem hc)
  obtain ⟨n, hn⟩ : ∃ n, program.graph.vertexCount = n + 2 := ⟨program.graph.vertexCount - 2, by omega⟩
  rw [descendants, hn, descendantsWithin, mem_cons, mem_flatMap]
  refine .inr ⟨c, hc, ?_⟩
  rcases hd with rfl | hd
  · exact self_mem_descendantsWithin _ _ _
  · rw [descendantsWithin, mem_cons, mem_flatMap]
    exact .inr ⟨d, hd, self_mem_descendantsWithin _ _ _⟩

theorem labelOf_of_is {graph : CodeGraph} {v : VertexId} {kind : NodeKind} (h : graph.is v kind = true) :
    graph.labelOf v = kind := by
  rw [labelOf, (graph.is_iff).mp h]
  rfl

theorem mem_reassigned_of_declares (hv : program.graph.is v .variableDeclarationStatements = true ∨
    program.graph.is v .forEachStatement = true) : Text.lower name ∈ program.reassigned v ↔
    ∃ d ∈ program.graph.descendants v, program.graph.is d .variableDeclaration = true ∧ ∃ own ∈ program.graph.name? d,
    Text.lower own = Text.lower name := by
  have hreassigned : program.reassigned v =
    ((program.graph.descendants v).filter (program.graph.is · .variableDeclaration)).filterMap fun id =>
    (program.graph.name? id).map Text.lower := by
    rcases hv with hv | hv <;> rw [reassigned, labelOf_of_is hv]
  rw [hreassigned, mem_filterMap]
  simp only [mem_filter, Option.map_eq_some_iff, Option.mem_def, and_assoc]

theorem reassigned_eq (hdeclaration : program.graph.is v .variableDeclarationStatements = false)
    (hloop : program.graph.is v .forEachStatement = false) : program.reassigned v =
      ((program.graph.evaluatedExpressions v).filter (program.graph.is · .assignmentExpression)).filterMap fun id =>
        (program.graph.childAt? id 0).bind program.localName? := by
  have hne : ∀ kind, kind ≠ .blockStatement → program.graph.is v kind = false → program.graph.labelOf v ≠ kind := by
    intro kind hblock his hlabel
    rw [labelOf] at hlabel
    cases hkind : program.graph.label? v with
    | none =>
      rw [hkind] at hlabel
      exact hblock hlabel.symm
    | some own =>
      rw [hkind] at hlabel
      simp [is, hkind, show own = kind from hlabel] at his
  rw [reassigned]
  split
  · exact absurd ‹_› (hne _ (by decide) hdeclaration)
  · exact absurd ‹_› (hne _ (by decide) hloop)
  · rfl

theorem is_eq_false_of_is {graph : CodeGraph} {v : VertexId} {kind other : NodeKind} (h : graph.is v kind = true)
    (hne : kind ≠ other) : graph.is v other = false := by
  simp [is, (graph.is_iff).mp h, hne]

theorem reassigned_clause (hv : program.graph.is v .catchBlockStatement = true ∨
    program.graph.is v .typeWhenBlock = true) : program.reassigned v = [] := by
  have hnone : program.graph.evaluatedExpressions v = [] := by
    rcases hv with hv | hv <;>
      simp [evaluatedExpressions, evaluatedRoots, labelOf_of_is hv, NodeKind.isDml,
        NodeKind.isExpression]
  rw [reassigned_eq (by rcases hv with hv | hv <;> exact is_eq_false_of_is hv (by decide))
    (by rcases hv with hv | hv <;> exact is_eq_false_of_is hv (by decide)), hnone]
  rfl

/-- A variable is reset at a vertex unless the vertex overlooks its new value. -/
theorem mem_reassigned_iff (forest : program.graph.IsForest) (h : program.Rebinds v name)
    (hcondition : program.graph.is v .standardCondition = false) : Text.lower name ∈ program.reassigned v ↔
    ¬program.Overlooks v name := by
  constructor
  · intro hmem overlooks
    cases overlooks with
    | condition hv => simp [hv] at hcondition
    | clause hv => simp [reassigned_clause hv] at hmem
    | declarations hv hnone =>
      obtain ⟨d, hd, his, own, hown, hname⟩ := (mem_reassigned_of_declares hv).mp hmem
      exact hnone d hd his own hown hname
  · intro hnotices
    cases h with
    | @declaration declared hv hdeclared hname =>
      obtain ⟨hchild, his⟩ := mem_filter.mp hdeclared
      exact (mem_reassigned_of_declares (.inl hv)).mpr ⟨declared, mem_descendants_of_child forest hchild (.inl rfl),
        his, name, hname, rfl⟩
    | @loopVariable statements declared hv hdeclared hname =>
      obtain ⟨hchild, his⟩ := mem_filter.mp hdeclared
      rw [loopVariable?] at hv
      split at hv
      · rename_i hlabel
        have hloop : program.graph.is v .forEachStatement = true := by
          rw [is]
          rw [labelOf] at hlabel
          cases hkind : program.graph.label? v with
          | none => simp [hkind] at hlabel
          | some kind => simpa [hkind] using hlabel
        have hstatements : statements ∈ program.graph.children v := mem_of_getElem? hv
        exact (mem_reassigned_of_declares (.inr hloop)).mpr
          ⟨declared, mem_descendants_of_child forest hstatements (.inr hchild), his, name, hname, rfl⟩
      · cases hv
    | clauseVariable hv => exact absurd (.clause hv) hnotices
    | @assignment expr target hexpr his htarget hlocal =>
      by_cases hdeclares : program.graph.is v .variableDeclarationStatements = true ∨
        program.graph.is v .forEachStatement = true
      · refine (mem_reassigned_of_declares hdeclares).mpr ?_
        by_contra hnone
        refine hnotices (.declarations hdeclares fun d hd hisd own hown hname => hnone ?_)
        exact ⟨d, hd, hisd, own, hown, hname⟩
      · obtain ⟨hdeclaration, hloop⟩ := not_or.mp hdeclares
        rw [reassigned_eq (Bool.not_eq_true _ ▸ hdeclaration) (Bool.not_eq_true _ ▸ hloop)]
        exact mem_filterMap.mpr ⟨expr, mem_filter.mpr ⟨hexpr, his⟩, by rw [htarget]; exact hlocal⟩

/-! ## The constraints of a vertex -/

variable {constrainers : List Constrainer} {method : VertexId} {vertex : PathVertex}

theorem vertexConstraints_resets (constrainers : List Constrainer) (method : VertexId)
    (hcondition : program.graph.is vertex.id .standardCondition = false) :
    (∀ c ∈ program.vertexConstraints constrainers method vertex, c.kind = .reset) ∧
      (constrainers ≠ [] → ∀ own ∈ program.reassigned vertex.id,
        ∃ c ∈ program.vertexConstraints constrainers method vertex, c.scope = method ∧
        c.variableName = Text.lower own) ∧
      ∀ c ∈ program.vertexConstraints constrainers method vertex, ∃ own ∈ program.reassigned vertex.id,
      c.variableName = Text.lower own := by
  have hfacts : ∀ constrainer, program.vertexFacts constrainer vertex =
      (program.reassigned vertex.id).map (·, .reset) := by
    intro constrainer
    rw [vertexFacts, hcondition]
    rfl
  simp only [vertexConstraints, hfacts, map_map, mem_flatMap, mem_map]
  refine ⟨?_, fun hne own hown => ?_, ?_⟩
  · rintro c ⟨constrainer, -, own, -, rfl⟩
    rfl
  · obtain ⟨constrainer, hconstrainer⟩ := exists_mem_of_ne_nil _ hne
    exact ⟨_, ⟨constrainer, hconstrainer, own, hown, rfl⟩, rfl, rfl⟩
  · rintro c ⟨constrainer, -, own, hown, rfl⟩
    exact ⟨own, hown, rfl⟩

theorem currentFact?_eq_none_of_rebinds (forest : program.graph.IsForest) (hne : constrainers ≠ [])
    (h : program.Rebinds vertex.id name) (hnotices : ¬program.Overlooks vertex.id name) (before : List Constraint) :
    PathMetadata.currentFact? { constraints := before ++ program.vertexConstraints constrainers method vertex } method
    name = none := by
  have hcondition : program.graph.is vertex.id .standardCondition = false :=
    Bool.eq_false_iff.mpr fun his => hnotices (.condition his)
  obtain ⟨hresets, hevery, -⟩ := vertexConstraints_resets constrainers method hcondition
  obtain ⟨c, hc, hscope, hname⟩ := hevery hne _ ((mem_reassigned_iff forest h hcondition).mpr hnotices)
  exact PathMetadata.currentFact?_eq_none_of_resets hresets ⟨c, hc, hscope, by rw [hname, Text.lower_lower]⟩

end Program

/-! ## Stale facts -/

namespace Expander

/-- Along an expansion, after each vertex of the path: of a variable with a new value nothing is known, unless the
vertex overlooks the new value. And what is known of the variable is from before the vertex exactly if the vertex
overlooks the new value and the vertex itself proves nothing about the variable. -/
theorem isStale_iff_overlooks {config : Settings} {sources : List (String × String)} {graph : CodeGraph}
    (h : Build.IsGraphOf config sources graph) {settings : Settings} {options : ExpansionOptions}
    (hboth : ∀ constrainer, constrainer ∈ options.constrainers) {method : VertexId} {forward : List CodePath}
    (hforward : Path.forward graph method = .ok forward) {path : CodePath} (hpath : path ∈ forward)
    {state : ExpansionState}
    (valid : state.Valid graph) {paths : List CodePath}
    (hrun : (((ofGraph graph settings options).expandPath path).run state).1 = .ok paths) {expanded : CodePath}
    (hexpanded : expanded ∈ paths) {done rest : List PathVertex} {vertex : PathVertex}
    (hvertex : path.vertices = done ++ vertex :: rest) :
    ∃ before after, expanded.metadata.constraints = before ++
    (ofGraph graph settings options).vertexConstraints method vertex ++ after ∧
    before.filter (·.scope == method) = done.flatMap ((ofGraph graph settings options).vertexConstraints method) ∧
      ∀ name, (Program.ofGraph graph).Rebinds vertex.id name →
        (¬(Program.ofGraph graph).Overlooks vertex.id name → PathMetadata.currentFact?
          { constraints := before ++ (ofGraph graph settings options).vertexConstraints method vertex } method name =
          none) ∧
        (PathMetadata.IsStale before ((ofGraph graph settings options).vertexConstraints method vertex) method name ↔
          (Program.ofGraph graph).Overlooks vertex.id name ∧
          (PathMetadata.currentFact? { constraints := before } method name).isSome = true ∧
          ∀ c ∈ (ofGraph graph settings options).vertexConstraints method vertex,
          c.variableName ≠ Text.lower name) := by
  obtain ⟨vertices, rfl⟩ := (eq_of_forward hforward).2 path hpath
  obtain ⟨strand, hstrand, rfl, -⟩ := exists_strand h valid hrun hexpanded hforward hpath
  have hrecords := records_expansions mem_cons_self strand hstrand
  obtain ⟨stepsBefore, stepsAfter, hsteps, hpassed⟩ :=
    exists_steps (ofGraph graph settings options) method true done vertex rest
  rw [show vertices = done ++ vertex :: rest from hvertex] at hrecords
  obtain ⟨before, after, hconstraints, hbefore⟩ := hrecords.split hsteps
  refine ⟨before, after, hconstraints, by rw [hbefore.filter_eq, hpassed], fun name hrebinds => ?_⟩
  obtain ⟨linked, methods, forest, -, -, -, lays⟩ := h.isBuilt.exists_laid
  have forest : graph.IsForest := lays.sameTree.isForest forest
  have hnotices : ¬(Program.ofGraph graph).Overlooks vertex.id name → PathMetadata.currentFact?
      { constraints := before ++ (ofGraph graph settings options).vertexConstraints method vertex } method name =
      none :=
    fun hnot => Program.currentFact?_eq_none_of_rebinds forest (ne_nil_of_mem (hboth .nullCheck)) hrebinds hnot before
  refine ⟨hnotices, ?_⟩
  rw [PathMetadata.isStale_iff]
  constructor
  · rintro ⟨hknown, hsilent⟩
    refine ⟨?_, hknown, fun c hc => hsilent c hc (scope_of_mem_vertexConstraints hc)⟩
    by_contra hnot
    have hnone := hnotices hnot
    rw [PathMetadata.currentFact?_append_of_forall hsilent] at hnone
    rw [hnone] at hknown
    cases hknown
  · rintro ⟨-, hknown, hsilent⟩
    exact ⟨hknown, fun c hc _ => hsilent c hc⟩

/-- A method that assigns its parameter in the declaration of another variable, after a test of the parameter. -/
def assigningInside : String := "class A { void m(Boolean a) { if (a) { Boolean b = (a = false); if (a) { } } } }"

def recordingFacts : ExpansionOptions := { constrainers := [.nullCheck, .booleanVariable] }

/-- An expansion of a forward path of a method, without forks, and a vertex of it at a place pass a test. -/
def expandsTo (test : CodeGraph → VertexId → List PathVertex → PathVertex → Bool) (graph : CodeGraph)
    (method : VertexId) : Bool :=
  let expander := ofGraph graph bareSettings recordingFacts
  let bound := (graph.withLabel .method).length + 1
  (expander.forwardPaths method).any fun path =>
    !(expander.expansionsWithin bound [method] { path }).isEmpty && expander.forksWithin bound [method] { path } == 0 &&
      (List.range path.vertices.length).any fun i => (path.vertices[i]?).any (test graph method (path.vertices.take i))

theorem exists_vertex {text : String} {test : CodeGraph → VertexId → List PathVertex → PathVertex → Bool}
    (h : (Build.treeOfChars text.toList).toOption.any (anyMethod (expandsTo test)) = true) :
    ∃ graph method forward path paths expanded done vertex rest, Build.IsGraphOf bareSettings [("A", text)] graph ∧
      Path.forward graph method = .ok forward ∧ path ∈ forward ∧
      (((ofGraph graph bareSettings recordingFacts).expandPath path).run { registry := { limit := .unlimited } }).1 =
      .ok paths ∧
      expanded ∈ paths ∧ path.vertices = done ++ vertex :: rest ∧ test graph method done vertex = true := by
  obtain ⟨graph, method, hgraph, -, htest⟩ := exists_graph h
  obtain ⟨path, hpath, htest⟩ := any_eq_true.mp htest
  have hbound : (ofGraph graph bareSettings recordingFacts).idleCount [method] < (graph.withLabel .method).length + 1 :=
    Nat.lt_succ_of_le (length_filter_le ..)
  rw [expansionsWithin_eq _ hbound, forksWithin_eq _ hbound] at htest
  obtain ⟨⟨hsome, hforks⟩, hplace⟩ := by simpa only [Bool.and_eq_true, beq_iff_eq] using htest
  obtain ⟨i, -, hvertex⟩ := any_eq_true.mp hplace
  obtain ⟨vertex, hget, htest⟩ := (Option.any_eq_true _ _).mp hvertex
  obtain ⟨hlt, rfl⟩ := List.getElem?_eq_some_iff.mp hget
  obtain ⟨strand, hstrand⟩ : ∃ strand, strand ∈ (ofGraph graph bareSettings recordingFacts).expansions [method]
    { path } := by
    refine exists_mem_of_ne_nil _ fun hnil => ?_
    rw [hnil] at hsome
    cases hsome
  obtain ⟨vertices, rfl⟩ := eq_of_mem_forwardPaths hpath
  have hasks := asks_expandPath (sound_ofGraph hgraph.isBuilt bareSettings recordingFacts) { method, vertices }
  have hrun := hasks.result_eq (valid_start graph .unlimited)
  rw [hforks, Registry.outcome, if_pos (by decide)] at hrun
  exact ⟨graph, method, _, { method, vertices }, _, strand.path, _, _, _, hgraph, forward_of_mem_forwardPaths hpath,
    hpath, hrun, mem_map_of_mem hstrand, (take_append_drop i vertices).symm.trans (by rw [drop_eq_getElem_cons hlt]),
    htest⟩

/-- Something is known of a variable before a vertex that assigns it, and declares other variables only. -/
def overlooksKnown (name : String) (graph : CodeGraph) (method : VertexId) (done : List PathVertex)
    (vertex : PathVertex) : Bool :=
  let program := Program.ofGraph graph
  let constraints := (ofGraph graph bareSettings recordingFacts).vertexConstraints method
  graph.is vertex.id .variableDeclarationStatements &&
    ((graph.evaluatedExpressions vertex.id).any fun expr => graph.is expr .assignmentExpression &&
      (graph.childAt? expr 0).any fun target => program.localName? target == some (Text.lower name)) &&
    ((graph.descendants vertex.id).all fun d => !graph.is d .variableDeclaration ||
      (graph.name? d).all fun own => Text.lower own != Text.lower name) &&
    (constraints vertex).all (·.variableName != Text.lower name) &&
    (PathMetadata.currentFact? { constraints := done.flatMap constraints } method name).isSome

theorem overlooksKnown_assigningInside :
    (Build.treeOfChars assigningInside.toList).toOption.any (anyMethod (expandsTo (overlooksKnown "a"))) = true :=
  Build.any_of_toList_eq String.toList_ofList (by decide +kernel)

/-- After the declaration the parameter is still known to be true. -/
theorem assigningInside_isStale : ∃ graph method forward path paths expanded done vertex rest before after,
    Build.IsGraphOf bareSettings [("A", assigningInside)] graph ∧ Path.forward graph method = .ok forward ∧
    path ∈ forward ∧
    (((ofGraph graph bareSettings recordingFacts).expandPath path).run { registry := { limit := .unlimited } }).1 =
    .ok paths ∧
    expanded ∈ paths ∧ path.vertices = done ++ vertex :: rest ∧ (Program.ofGraph graph).Rebinds vertex.id "a" ∧
    expanded.metadata.constraints = before ++ (ofGraph graph bareSettings recordingFacts).vertexConstraints method
    vertex ++ after ∧
    PathMetadata.IsStale before ((ofGraph graph bareSettings recordingFacts).vertexConstraints method vertex)
    method "a" := by
  obtain ⟨graph, method, forward, path, paths, expanded, done, vertex, rest, hgraph, hforward, hpath, hrun, hexpanded,
    hvertex, htest⟩ :=
    exists_vertex overlooksKnown_assigningInside
  simp only [overlooksKnown, Bool.and_eq_true, any_eq_true, Option.any_eq_true, beq_iff_eq, all_eq_true,
    bne_iff_ne] at htest
  obtain ⟨⟨⟨⟨hdeclares, expr, hexpr, his, target, htarget, hlocal⟩, hnone⟩, hsilent⟩, hknown⟩ := htest
  have hrebinds : (Program.ofGraph graph).Rebinds vertex.id "a" := .assignment hexpr his htarget hlocal
  have hoverlooks : (Program.ofGraph graph).Overlooks vertex.id "a" := by
    refine .declarations (.inl hdeclares) fun d hd hisd own hown => ?_
    have hd' := hnone d hd
    simp only [show graph.is d .variableDeclaration = true from hisd, show graph.name? d = some own from hown,
      Bool.not_true, Bool.false_or, Option.all_some, bne_iff_ne] at hd'
    exact hd'
  obtain ⟨before, after, hconstraints, hbefore, hfacts⟩ :=
    isStale_iff_overlooks hgraph (by rintro (_ | _) <;> decide) hforward hpath (valid_start graph .unlimited) hrun
    hexpanded hvertex
  rw [← hbefore, PathMetadata.currentFact?_filter] at hknown
  exact ⟨graph, method, forward, path, paths, expanded, done, vertex, rest, before, after, hgraph, hforward, hpath,
    hrun, hexpanded, hvertex, hrebinds, hconstraints, (hfacts "a" hrebinds).2.mpr ⟨hoverlooks, hknown, hsilent⟩⟩

end Expander
end ApexPaths
