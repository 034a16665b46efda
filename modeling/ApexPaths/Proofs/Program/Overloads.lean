import ApexPaths.Proofs.Path.Route
import ApexPaths.Proofs.Program.Hierarchy

/-!
The choice among the methods of a name. The candidates of a call come in the order of the hierarchy, those of the owner
first, and the first one of least cost is chosen. So a method is never chosen if a type before its own declares one
whose parameters are of the same types. Of the same types are parameters whose types have the same text and mean the
same in both classes, their type arguments included: elements of collections are looked up in the class of the method as
well. Among methods of one parameter the one of least cost is a most specific one, with exceptions that can be named.
-/

namespace ApexPaths
set_option autoImplicit false

open List ApexPaths.TypeName

variable {owner : VertexId} {name : String}

namespace Program

variable (program : Program)

/-! ## Parameters of the same types -/

/-- Two methods have parameters of the same types: as many, with the same texts, which mean the same in both classes. -/
def SameParameters (method other : VertexId) : Prop :=
  List.Forall₂ (fun first second : Parameter => first.type = second.type ∧
      program.MeansSame (program.graph.enclosingType? method) (program.graph.enclosingType? other) second.type)
    (program.graph.parameters method) (program.graph.parameters other)

/-- A method takes arguments exactly as they are typed. -/
def Exact (args : List StaticType) (context : Option VertexId) (method : VertexId) : Prop :=
  (program.graph.parameters method).length = args.length ∧
    ∀ pair ∈ program.passed args method, program.passingScore? context method pair = some 0

/-- The method is declared by a type in the hierarchy, and one before it declares another method of the name with
parameters of the same types. -/
def Overridden (owner : VertexId) (name : String) (method : VertexId) : Prop :=
  ∃ before type after, program.hierarchy owner = before ++ type :: after ∧ method ∈ program.graph.methods type ∧
    ∃ earlier ∈ before, ∃ other ∈ program.graph.methods earlier, program.graph.isConstructor other = false ∧
      program.hasName other name = true ∧ program.SameParameters other method

variable {program} {args : List StaticType} {context : Option VertexId} {method other : VertexId}

theorem zipWith_parameterScore?_congr {here there : Option VertexId} {first second : List Parameter}
    (h : List.Forall₂ (fun first second : Parameter => first.type = second.type ∧
    program.MeansSame here there second.type)
      first second) (args : List StaticType) (context : Option VertexId) :
    first.zipWith (fun param arg => program.parameterScore? param.type here arg context) args =
      second.zipWith (fun param arg => program.parameterScore? param.type there arg context) args := by
  induction h generalizing args with
  | nil => simp
  | cons hpair _ ih =>
    cases args with
    | nil => simp
    | cons arg args => rw [zipWith_cons_cons, zipWith_cons_cons, ih, hpair.1, parameterScore?_congr hpair.2]

theorem SameParameters.callScore?_eq (h : program.SameParameters method other) :
    program.callScore? args context method = program.callScore? args context other := by
  simp only [callScore?, h.length_eq, zipWith_parameterScore?_congr h args context]

theorem cost_eq_zero_iff (heligible : program.Eligible args context method) :
    program.cost args context method = 0 ↔ program.Exact args context method := by
  rw [cost, List.sum_eq_zero_iff_forall_eq_nat, List.forall_mem_map, Exact, and_iff_right heligible.1]
  refine forall₂_congr fun pair hpair => ?_
  obtain ⟨score, hscore⟩ := Option.isSome_iff_exists.mp (heligible.2 pair hpair)
  simp [hscore]

theorem Exact.eligible (h : program.Exact args context method) : program.Eligible args context method :=
  ⟨h.1, fun pair hpair => by rw [h.2 pair hpair]; rfl⟩

/-! ## The order of candidates -/

theorem exists_append_of_not_mem {α : Type} {first second before after : List α} {item : α}
    (h : first ++ second = before ++ item :: after) (hitem : item ∉ first) : ∃ rest, before = first ++ rest := by
  rcases append_eq_append_iff.mp h with ⟨rest, hbefore, -⟩ | ⟨rest, hfirst, hrest⟩
  · exact ⟨rest, hbefore⟩
  · cases rest with
    | nil => exact ⟨[], by simpa using hfirst.symm⟩
    | cons head rest =>
      obtain rfl := (List.cons.inj hrest).1
      exact absurd (by simp [hfirst]) hitem

theorem mem_candidates_iff {arity : Nat} : method ∈ program.candidates owner name arity ↔
    (∃ type ∈ program.hierarchy owner, method ∈ program.graph.methods type) ∧
    program.graph.isConstructor method = false ∧ program.hasName method name = true ∧
    program.graph.declaredArity method = arity := by
  simp [candidates, and_assoc]

section
variable (forest : program.graph.IsForest)
include forest

theorem eq_of_mem_methods {type type' : VertexId} (h : method ∈ program.graph.methods type)
    (h' : method ∈ program.graph.methods type') : type = type' :=
  Option.some.inj
  ((forest.parent_of_mem (mem_filter.mp h).1).symm.trans (forest.parent_of_mem (mem_filter.mp h').1))

theorem mem_before_of_earlier {type earlier : VertexId} {arity : Nat} {types types' methods methods' : List VertexId}
    (htypes : program.hierarchy owner = types ++ type :: types') (hearlier : earlier ∈ types)
    (hcandidates : program.candidates owner name arity = methods ++ method :: methods')
    (hmethod : method ∈ program.graph.methods type) (hother : other ∈ program.graph.methods earlier)
    (hcandidate : other ∈ program.candidates owner name arity) : other ∈ methods := by
  have hnot : type ∉ types := by
    have hnodup := program.nodup_hierarchy owner
    rw [htypes] at hnodup
    exact fun h => (nodup_append.mp hnodup).2.2 type h type mem_cons_self rfl
  have hlater : method ∉ types.flatMap program.graph.methods := by
    intro h
    obtain ⟨found, hfound, hmem⟩ := mem_flatMap.mp h
    exact hnot (eq_of_mem_methods forest hmethod hmem ▸ hfound)
  rw [candidates] at hcandidates hcandidate
  rw [htypes, flatMap_append, filter_append] at hcandidates
  obtain ⟨rest, rfl⟩ := exists_append_of_not_mem hcandidates fun h => hlater (mem_filter.mp h).1
  refine mem_append_left _ (mem_filter.mpr ⟨mem_flatMap.mpr ⟨earlier, hearlier, hother⟩, ?_⟩)
  exact (mem_filter.mp hcandidate).2

variable (truth : program.graph.TellsTruth)
include truth

theorem not_overridden {arity least : Nat}
    (hleast : IsFirstLeast (program.callScore? args context) (program.candidates owner name arity) least method) :
    ¬program.Overridden owner name method := by
  rintro ⟨types, type, types', htypes, hmethod, earlier, hearlier, other, hother, hconstructor, hname, hsame⟩
  have harity : program.graph.declaredArity other = arity := by
    rw [truth.arity (CodeGraph.is_of_mem_methods hother), hsame.length_eq,
      ← truth.arity (CodeGraph.is_of_mem_methods hmethod)]
    exact (mem_candidates_iff.mp hleast.mem).2.2.2
  have hcandidate : other ∈ program.candidates owner name arity :=
    mem_candidates_iff.mpr ⟨⟨earlier, by simp [htypes, hearlier], hother⟩, hconstructor, hname, harity⟩
  obtain ⟨hscore, methods, methods', hcandidates, hbefore, -⟩ := hleast
  have hmem := mem_before_of_earlier forest htypes hearlier hcandidates hmethod hother hcandidate
  exact Nat.lt_irrefl _ (hbefore other hmem least (hsame.callScore?_eq.trans hscore))

end

/-! ## The choice -/

/-- In a program built from sources a call chooses nothing exactly if no candidate fits it. Otherwise it chooses
the first candidate of least cost; one that costs nothing, if there is any; and never one that is overridden. -/
theorem selectOverload?_candidates {settings : Settings} {sources : List (String × String)} {graph : CodeGraph}
    (hgraph : Build.IsGraphOf settings sources graph) (owner : VertexId) (name : String) (arity : Nat)
    (args : List StaticType)
    (context : Option VertexId) :
    let program := ofGraph graph
    let candidates := program.candidates owner name arity
    (program.selectOverload? candidates args context = none ↔ ∀ method ∈ candidates,
    ¬program.Eligible args context method) ∧
    ∀ chosen, program.selectOverload? candidates args context = some chosen →
      program.Eligible args context chosen ∧
      (∃ before after, candidates = before ++ chosen :: after ∧
        (∀ method ∈ before, program.Eligible args context method →
          program.cost args context chosen < program.cost args context method) ∧
        ∀ method ∈ after, program.Eligible args context method →
          program.cost args context chosen ≤ program.cost args context method) ∧
      ((∃ method ∈ candidates, program.Exact args context method) → program.Exact args context chosen) ∧
      ¬program.Overridden owner name chosen := by
  intro program candidates
  refine ⟨?_, fun chosen hchosen => ?_⟩
  · simp only [selectOverload?, firstLeast_eq_none_iff, callScore?_eq_none_iff]
  obtain ⟨least, hleast⟩ := exists_isFirstLeast hchosen
  obtain ⟨heligible, hcost⟩ := callScore?_eq_some_iff.mp hleast.1
  have hscore : ∀ {method : VertexId}, program.Eligible args context method →
      program.callScore? args context method = some (program.cost args context method) :=
    fun h => callScore?_eq_some_iff.mpr ⟨h, rfl⟩
  refine ⟨heligible, ?_, ?_, not_overridden hgraph.wellPlaced.forest hgraph.tellsTruth hleast⟩
  · obtain ⟨-, before, after, hsplit, hbefore, hafter⟩ := hleast
    exact ⟨before, after, hsplit, fun method hmethod h => hcost ▸ hbefore method hmethod _ (hscore h),
      fun method hmethod h => hcost ▸ hafter method hmethod _ (hscore h)⟩
  · rintro ⟨method, hmethod, hexact⟩
    have hle := hleast.le hmethod (hscore hexact.eligible)
    rw [(cost_eq_zero_iff hexact.eligible).mpr hexact, ← hcost] at hle
    exact (cost_eq_zero_iff heligible).mp (Nat.le_zero.mp hle)

/-- A class that declares a method of its superclass again. -/
def overridingClass : List (String × String) :=
  [("B.cls", "virtual class B { void f(I x) { } }"), ("S.cls", "class S extends B { void f(I x) { } }"),
  ("I.cls", "class I { }")]

/-- Two classes, one above the other, with methods for lists of their own inner classes of one name. -/
def shadowedElement : List (String × String) :=
  [("B.cls", "virtual class B { class I { } void f(List<I> x) { } }"),
    ("S.cls", "class S extends B { class I { } void f(List<I> x) { } }")]

/-- A class `S`, its superclass `B` and the methods `f` that they declare, each with one parameter of a type, pass
a test. -/
def methodsOfBoth (type : String) (test : Program → VertexId → VertexId → VertexId → VertexId → Bool)
    (graph : CodeGraph) : Bool :=
  let program := ofGraph graph
  match program.lookup? none "S", program.lookup? none "B" with
  | some owner, some base =>
    match graph.methods owner, graph.methods base with
    | [own], [above] =>
      program.hierarchy owner == [owner, base] && program.candidates owner "f" 1 == [own, above] &&
        (graph.parameters own).map (·.type) == [type] && (graph.parameters above).map (·.type) == [type] &&
        test program owner base own above
    | _, _ => false
  | _, _ => false

theorem exists_methodsOfBoth (type : String) (sources : List (String × String))
    (test : Program → VertexId → VertexId → VertexId → VertexId → Bool)
    (h : buildsTo (methodsOfBoth type test) sources = true) :
    ∃ graph owner base own above, Build.IsGraphOf bareSettings sources graph ∧
    (ofGraph graph).hierarchy owner = [owner, base] ∧ own ∈ graph.methods owner ∧ above ∈ graph.methods base ∧
    (ofGraph graph).candidates owner "f" 1 = [own, above] ∧
      (∃ param, graph.parameters own = [param] ∧ param.type = type) ∧
      (∃ param, graph.parameters above = [param] ∧ param.type = type) ∧
      test (ofGraph graph) owner base own above = true := by
  obtain ⟨graph, hgraph, htest⟩ := exists_graphOf h
  rw [methodsOfBoth] at htest
  split at htest
  · split at htest
    · rename_i owner base _ _ _ _ own above hown habove
      simp only [Bool.and_eq_true, beq_iff_eq, map_eq_singleton_iff] at htest
      obtain ⟨⟨⟨⟨hhierarchy, hcandidates⟩, hparam⟩, hparam'⟩, htest⟩ := htest
      exact ⟨graph, owner, base, own, above, hgraph,
        hhierarchy, by simp [hown], by simp [habove], hcandidates, hparam, hparam', htest⟩
    · cases htest
  · cases htest

/-- The method of the class is chosen, and that of the superclass is overridden. -/
theorem overridingClass_chooses : ∃ graph owner own above, Build.IsGraphOf bareSettings overridingClass graph ∧
    (ofGraph graph).candidates owner "f" 1 = [own, above] ∧ (ofGraph graph).Exact [.known "I"] none above ∧
    (ofGraph graph).Overridden owner "f" above ∧
    (ofGraph graph).selectOverload? ((ofGraph graph).candidates owner "f" 1) [.known "I"] none = some own := by
  obtain ⟨graph, owner, base, own, above, hgraph, hhierarchy, hown, habove, hcandidates, ⟨param, hparams, htype⟩,
      ⟨param', hparams', htype'⟩, htest⟩ :=
    exists_methodsOfBoth "I" overridingClass (fun program _ _ own above =>
      program.lookup? (program.graph.enclosingType? own) "I" ==
      program.lookup? (program.graph.enclosingType? above) "I") (by decide +kernel)
  have hcanonical : canonical "I" = "I" ∧ (splitGeneric "I").2 = [] := by decide +kernel
  have hparams : (ofGraph graph).graph.parameters own = [param] := hparams
  have hparams' : (ofGraph graph).graph.parameters above = [param'] := hparams'
  have hexact : (ofGraph graph).Exact [.known "I"] none above := by
    refine ⟨by simp [hparams'], ?_⟩
    simpa [passed, hparams', passingScore?, parameterScore?, htype'] using typeScore?_self "I" none _
  have hcandidate := mem_candidates_iff.mp (show own ∈ (ofGraph graph).candidates owner "f" 1 by simp [hcandidates])
  have hoverridden : (ofGraph graph).Overridden owner "f" above := by
    refine ⟨[owner], base, [], hhierarchy, habove, owner, by simp, own, hown, hcandidate.2.1, hcandidate.2.2.1, ?_⟩
    rw [SameParameters, hparams, hparams']
    refine .cons ⟨htype.trans htype'.symm, ?_, ?_⟩ .nil
    · rw [htype', hcanonical.1]
      exact beq_iff_eq.mp htest
    · simp [htype', hcanonical]
  obtain ⟨hnone, hsome⟩ := selectOverload?_candidates hgraph owner "f" 1 [.known "I"] none
  refine ⟨graph, owner, own, above, hgraph, hcandidates, hexact, hoverridden, ?_⟩
  cases hchosen : (ofGraph graph).selectOverload? ((ofGraph graph).candidates owner "f" 1) [.known "I"] none with
  | none => exact absurd hexact.eligible (hnone.mp hchosen above (by simp [hcandidates]))
  | some chosen =>
    obtain ⟨-, ⟨before, after, hsplit, -⟩, -, hfree⟩ := hsome chosen hchosen
    have hmem : chosen ∈ [own, above] := by rw [← hcandidates, hsplit]; simp
    rcases mem_pair.mp hmem with rfl | rfl
    · rfl
    · exact absurd hoverridden hfree

theorem typeScore?_lists (program : Program) (context here : Option VertexId) :
    program.typeScore? "List<B.I>" context "List<I>" here = program.subtypeScore? "B.I" context "I" here := by
  -- One evaluation for all of them: the names of the language are brought to lower case only once.
  have hnames : ((canonical "List<B.I>" = "List<B.I>" ∧ canonical "B.I" = "B.I") ∧
      canonical "List<I>" = "List<I>" ∧ canonical "I" = "I") ∧
      (Text.eqIgnoringCase "List<B.I>" "List<I>" = false ∧ Text.eqIgnoringCase "B.I" "I" = false) ∧
      (wideningDistance? "List<B.I>" "List<I>" = none ∧ isCollection "List<B.I>" = true) ∧
      splitGeneric "List<B.I>" = ("List", ["B.I"]) ∧ splitGeneric "List<I>" = ("List", ["I"]) := by
    decide +kernel
  obtain ⟨⟨harg, hparam⟩, hne, hlist, hparts⟩ := hnames
  cases h : program.subtypeScore? "B.I" context "I" here <;>
    simp [typeScore?, elementScore?, total?, harg, hparam, hne, hlist, hparts, h]

/-- The text `List<I>` names no declaration in either class, yet the method of the superclass is chosen for a list
of its inner class: what the elements are is told by the class of the method. -/
theorem shadowedElement_chooses : ∃ graph owner base own above, Build.IsGraphOf bareSettings shadowedElement graph ∧
    (ofGraph graph).hierarchy owner = [owner, base] ∧ own ∈ graph.methods owner ∧ above ∈ graph.methods base ∧
    graph.isConstructor own = false ∧ (ofGraph graph).hasName own "f" = true ∧
    List.Forall₂ (fun first second : Parameter => first.type = second.type ∧
        (ofGraph graph).lookup? (graph.enclosingType? own) first.type =
        (ofGraph graph).lookup? (graph.enclosingType? above) second.type)
      (graph.parameters own) (graph.parameters above) ∧
    (ofGraph graph).selectOverload? ((ofGraph graph).candidates owner "f" 1) [.known "List<B.I>"] none =
    some above := by
  obtain ⟨graph, owner, base, own, above, hgraph, hhierarchy, hown, habove, hcandidates, ⟨param, hparams, htype⟩,
      ⟨param', hparams', htype'⟩, htest⟩ :=
    exists_methodsOfBoth "List<I>" shadowedElement (fun program owner base own above =>
      program.lookup? (program.graph.enclosingType? own) "List<I>" ==
      program.lookup? (program.graph.enclosingType? above) "List<I>" &&
      program.subtypeScore? "B.I" none "I" (program.graph.enclosingType? own) == none &&
        program.subtypeScore? "B.I" none "I" (program.graph.enclosingType? above) == some 0) (by decide +kernel)
  obtain ⟨⟨hlookup, hnone⟩, hzero⟩ := by simpa only [Bool.and_eq_true, beq_iff_eq] using htest
  have hcandidate := mem_candidates_iff.mp (show own ∈ (ofGraph graph).candidates owner "f" 1 by simp [hcandidates])
  refine ⟨graph, owner, base, own, above, hgraph, hhierarchy, hown, habove, hcandidate.2.1, hcandidate.2.2.1, ?_, ?_⟩
  · rw [hparams, hparams']
    refine .cons ⟨htype.trans htype'.symm, ?_⟩ .nil
    rw [htype, htype']
    exact hlookup
  · have hown : (ofGraph graph).callScore? [.known "List<B.I>"] none own = none := by
      rw [callScore?_one hparams, htype]
      exact (typeScore?_lists _ _ _).trans hnone
    have habove : (ofGraph graph).callScore? [.known "List<B.I>"] none above = some 0 := by
      rw [callScore?_one hparams', htype']
      exact (typeScore?_lists _ _ _).trans hzero
    simp [selectOverload?, firstLeast, lesser, hcandidates, hown, habove]

end Program

/-!
## How specific the choice is

Among methods of one parameter an object of a declared type goes to the method whose parameter is the fewest steps
up the hierarchy, where `Object` counts as fifty steps. So a supertype is preferred to one of its own subtypes only
if a way that is no longer leads to it past the subtype. `null` goes to the method whose parameter has the most
supertypes, where more than a hundred are not told apart.
-/

theorem TypeName.wideningDistance?_eq_none {source target : String} (h : isPrimitive source = false) :
    wideningDistance? source target = none := by
  have hnot : canonical source ∉ primitives := by simpa [isPrimitive] using h
  have hid : canonical source ≠ "Id" := fun e => hnot (by rw [e]; decide)
  have horder : numericOrder.idxOf? (canonical source) = none := by
    refine List.idxOf?_eq_none_iff.mpr fun hmem => hnot ?_
    have hall : ∀ name ∈ numericOrder, name ∈ primitives := by decide
    exact hall _ hmem
  simp [wideningDistance?, hid, horder]

namespace Program

variable (program : Program)

/-! ## Types of the program -/

/-- A name that the language has itself; it hides a declaration of the name. -/
def isBuiltIn (name : String) : Bool :=
  Text.eqIgnoringCase name "Object" || Text.eqIgnoringCase name "SObject" || isPrimitive name ||
  isCollection name

/-- In a place a text means a type that the program declares. -/
def Means (place : Option VertexId) (text : String) (type : VertexId) : Prop :=
  isBuiltIn (canonical text) = false ∧ program.lookup? place (canonical text) = some type

/-- What a method of one parameter accepts. -/
inductive Accepted where
  | everything
  | objectsOf (type : VertexId)

/-- The method has one parameter, of type `Object` or of a type that the program declares. -/
def Accepts (method : VertexId) : Accepted → Prop
  | .everything => ∃ param, program.graph.parameters method = [param] ∧ canonical param.type = "Object"
  | .objectsOf type =>
    ∃ param, program.graph.parameters method = [param] ∧
    program.Means (program.graph.enclosingType? method) param.type type

/-- A declared type is a proper subtype of `Object`, and of the other types to which ways lead up from it. -/
def ProperSubtype : Accepted → Accepted → Prop
  | .objectsOf _, .everything => True
  | .objectsOf sub, .objectsOf sup => sub ≠ sup ∧ ∃ way, program.Way sub way sup
  | .everything, _ => False

/-! ## Scores of one argument -/

section
variable {program} {context here : Option VertexId} {text param : String} {type sup : VertexId}

theorem eqIgnoringCase_refl (text : String) : Text.eqIgnoringCase text text = true := by simp [Text.eqIgnoringCase]

theorem ne_of_isBuiltIn (h : isBuiltIn name = false) : name ≠ "Object" ∧ name ≠ "SObject" := by
  simp only [isBuiltIn, Bool.or_eq_false_iff] at h
  refine ⟨?_, ?_⟩
  · rintro rfl
    exact absurd h.1.1.1 (by rw [eqIgnoringCase_refl]; decide)
  · rintro rfl
    exact absurd h.1.1.2 (by rw [eqIgnoringCase_refl]; decide)

theorem parameterScore?_null (h : program.Means here param type) :
    program.parameterScore? param here .null context = some (100 - (program.ancestors type).length) := by
  simp [parameterScore?, (ne_of_isBuiltIn h.1).1, h.2, Score.null]

theorem parameterScore?_object {arg : StaticType} (hparam : canonical param = "Object")
    (harg : arg = .null ∨ ∃ text type, arg = .known text ∧ program.Means context text type) :
    program.parameterScore? param here arg context = some 500 := by
  rcases harg with rfl | ⟨text, type, rfl, hmeans⟩
  · simp [parameterScore?, hparam, Score.object]
  · have hbuiltin := hmeans.1
    simp only [isBuiltIn, Bool.or_eq_false_iff] at hbuiltin
    simp [parameterScore?, typeScore?, hparam, hbuiltin.1.1.1, Score.object]

theorem parameterScore?_known (harg : program.Means context text type) (hparam : program.Means here param sup) :
    program.parameterScore? param here (.known text) context =
      if Text.eqIgnoringCase (canonical text) (canonical param) then some 0
      else (program.distance? type sup).map (10 * ·) := by
  obtain ⟨hbuiltin, hlookup⟩ := harg
  obtain ⟨hbuiltin', hlookup'⟩ := hparam
  obtain ⟨hobject, hrecord⟩ := ne_of_isBuiltIn hbuiltin'
  simp only [isBuiltIn, Bool.or_eq_false_iff] at hbuiltin hbuiltin'
  rw [parameterScore?, typeScore?]
  simp only [hobject, hrecord, wideningDistance?_eq_none hbuiltin.1.2, hbuiltin.2, hbuiltin'.2, Bool.or_self,
    Bool.false_eq_true, if_false]
  split
  · rfl
  · simp only [subtypeScore?, hlookup, hlookup', Option.bind_eq_bind, Option.bind_some, Option.pure_def,
      Score.subtypeStep]
    cases program.distance? type sup <;> rfl

end

/-! ## What may be preferred to a subtype -/

/-- Why a method may be chosen although another one accepts less: the other one's type is fifty steps away, the
chosen one's type is reached past it by a way that is no longer, or has the name that the argument's type is
written with; and for `null`, the chosen one's type has a hundred supertypes, or is itself a subtype of the other
one's. -/
inductive Excused (context : Option VertexId) (chosen : VertexId) : StaticType → Accepted → Accepted → Prop
  | far {text : String} {type sub : VertexId} {distance : Nat} (hmeans : program.Means context text type)
      (hdistance : program.distance? type sub = some distance) (hfar : 50 ≤ distance) :
      Excused context chosen (.known text) .everything (.objectsOf sub)
  | aside {text : String} {type sup sub : VertexId} {way : List VertexId} (hmeans : program.Means context text type)
      (hway : program.Way type way sup) (havoids : sub ∉ type :: way)
      (hshort : ∀ other, program.Way type other sub → way.length ≤ other.length) :
      Excused context chosen (.known text) (.objectsOf sup) (.objectsOf sub)
  | namesake {text : String} {type sup sub : VertexId} {param : Parameter} (hmeans : program.Means context text type)
      (hparam : program.graph.parameters chosen = [param]) (hne : sup ≠ type)
      (hname : Text.eqIgnoringCase (canonical text) (canonical param.type) = true) :
      Excused context chosen (.known text) (.objectsOf sup) (.objectsOf sub)
  | deep {sup sub : VertexId} (hdeep : 100 ≤ (program.ancestors sup).length) :
      Excused context chosen .null (.objectsOf sup) (.objectsOf sub)
  | circular {sup sub : VertexId} {way : List VertexId} (hway : program.Way sup way sub) :
      Excused context chosen .null (.objectsOf sup) (.objectsOf sub)

variable {program} {context : Option VertexId} {chosen other type sup sub : VertexId} {arg : StaticType} {text : String}

theorem not_mem_of_shortest {way : List VertexId} (hway : program.Way type way sup) (hne : sub ≠ sup)
    (hshort : ∀ other, program.Way type other sub → way.length ≤ other.length) : sub ∉ type :: way := by
  intro hmem
  rcases mem_cons.mp hmem with rfl | hmem
  · have hnil : way = [] := length_eq_zero_iff.mp (Nat.le_zero.mp (hshort [] (.here sub)))
    subst hnil
    exact hne hway.eq_of_nil
  · obtain ⟨first, second, rfl, -, hfirst, hsecond⟩ := hway.split hmem
    have hle := hshort first hfirst
    rw [length_append] at hle
    have hnil : second = [] := length_eq_zero_iff.mp (by omega)
    subst hnil
    exact hne hsecond.eq_of_nil

section
variable (inside : Build.LeadsInside program.graph)
include inside

theorem excused_known {param param' : Parameter} (hmeans : program.Means context text type)
    (hparam : program.graph.parameters chosen = [param])
    (hmeans' : program.Means (program.graph.enclosingType? chosen) param.type sup)
    (hother : program.Means (program.graph.enclosingType? other) param'.type sub) (hne : sub ≠ sup) {score score' : Nat}
    (hscore : program.parameterScore? param.type (program.graph.enclosingType? chosen) (.known text) context =
    some score)
    (hscore' : program.parameterScore? param'.type (program.graph.enclosingType? other) (.known text) context =
    some score')
    (hle : score ≤ score') : program.Excused context chosen (.known text) (.objectsOf sup) (.objectsOf sub) := by
  rw [parameterScore?_known hmeans hmeans'] at hscore
  rw [parameterScore?_known hmeans hother] at hscore'
  -- no way to the subtype is shorter than the score says
  have hfar : ∀ way, program.Way type way sub → score ≤ 10 * way.length := by
    intro way hway
    refine Nat.le_trans hle ?_
    split_ifs at hscore'
    · exact Option.some.inj hscore' ▸ Nat.zero_le _
    · obtain ⟨distance, hdistance, rfl⟩ := Option.map_eq_some_iff.mp hscore'
      exact Nat.mul_le_mul_left 10 (((distance?_eq_some_iff inside).mp hdistance).2 way hway)
  split_ifs at hscore with hname
  · by_cases hsame : sup = type
    · subst hsame
      have hshort : ∀ other, program.Way sup other sub → ([] : List VertexId).length ≤ other.length :=
        fun _ _ => Nat.zero_le _
      exact .aside hmeans (.here sup) (not_mem_of_shortest (.here sup) hne hshort) hshort
    · exact .namesake hmeans hparam hsame hname
  · obtain ⟨distance, hdistance, rfl⟩ := Option.map_eq_some_iff.mp hscore
    obtain ⟨⟨way, hway, rfl⟩, -⟩ := (distance?_eq_some_iff inside).mp hdistance
    have hshort : ∀ other, program.Way type other sub → way.length ≤ other.length := fun other hother => by
      have := hfar other hother
      omega
    exact .aside hmeans hway (not_mem_of_shortest hway hne hshort) hshort

theorem excused_null {param param' : Parameter}
    (hmeans : program.Means (program.graph.enclosingType? chosen) param.type sup)
    (hother : program.Means (program.graph.enclosingType? other) param'.type sub) {way : List VertexId}
    (hway : program.Way sub way sup)
    {score score' : Nat}
    (hscore : program.parameterScore? param.type (program.graph.enclosingType? chosen) .null context = some score)
    (hscore' : program.parameterScore? param'.type (program.graph.enclosingType? other) .null context = some score')
    (hle : score ≤ score') : program.Excused context chosen .null (.objectsOf sup) (.objectsOf sub) := by
  rw [parameterScore?_null hmeans, Option.some.injEq] at hscore
  rw [parameterScore?_null hother, Option.some.injEq] at hscore'
  by_cases hback : ∃ way, program.Way sup way sub
  · obtain ⟨back, hback⟩ := hback
    exact .circular hback
  · have hless := length_ancestors_lt inside hway fun back hback' => hback ⟨back, hback'⟩
    exact .deep (by omega)

end

/-! ## The choice -/

/-- In a program built from sources, the method that is chosen for an object of a declared type or for `null`
accepts no more than another one that fits and accepts less, unless it is excused. -/
theorem selectOverload?_specific {settings : Settings} {sources : List (String × String)} {graph : CodeGraph}
    (hgraph : Build.IsGraphOf settings sources graph) {candidates : List VertexId} {context : Option VertexId}
    {arg : StaticType}
    (harg : arg = .null ∨ ∃ text type, arg = .known text ∧ (ofGraph graph).Means context text type)
    {chosen other : VertexId}
    (hchosen : (ofGraph graph).selectOverload? candidates [arg] context = some chosen) (hother : other ∈ candidates)
    (heligible : (ofGraph graph).Eligible [arg] context other) {accepted less : Accepted}
    (haccepted : (ofGraph graph).Accepts chosen accepted) (hless : (ofGraph graph).Accepts other less)
    (hproper : (ofGraph graph).ProperSubtype less accepted) :
    (ofGraph graph).Excused context chosen arg accepted less := by
  have inside : Build.LeadsInside (ofGraph graph).graph := hgraph.leadsInside
  obtain ⟨score, hleast⟩ := exists_isFirstLeast hchosen
  have hscore' := callScore?_eq_some_iff.mpr ⟨heligible, rfl⟩
  have hle := hleast.le hother hscore'
  have hscore := hleast.1
  cases less with
  | everything => exact hproper.elim
  | objectsOf sub =>
    obtain ⟨param', hparam', hmeans'⟩ := hless
    rw [callScore?_one hparam'] at hscore'
    cases accepted with
    | everything =>
      obtain ⟨param, hparam, hobject⟩ := haccepted
      rw [callScore?_one hparam, parameterScore?_object hobject harg, Option.some.injEq] at hscore
      rcases harg with rfl | ⟨text, type, rfl, hmeans⟩
      · rw [parameterScore?_null hmeans', Option.some.injEq] at hscore'
        omega
      · rw [parameterScore?_known hmeans hmeans'] at hscore'
        split_ifs at hscore'
        · rw [Option.some.injEq] at hscore'
          omega
        · obtain ⟨distance, hdistance, hten⟩ := Option.map_eq_some_iff.mp hscore'
          exact .far hmeans hdistance (by omega)
    | objectsOf sup =>
      obtain ⟨param, hparam, hmeans⟩ := haccepted
      obtain ⟨hne, way, hway⟩ := hproper
      rw [callScore?_one hparam] at hscore
      rcases harg with rfl | ⟨text, type, rfl, hknown⟩
      · exact excused_null inside hmeans hmeans' hway hscore hscore' hle
      · exact excused_known inside hknown hparam hmeans hmeans' hne hscore hscore' hle

/-- For an object of a type a method is chosen although another one accepts less. -/
structure PrefersWider (program : Program) (context : Option VertexId) (text : String) (candidates : List VertexId)
    (chosen other sup sub : VertexId) : Prop where
  chosen_eq : program.selectOverload? candidates [.known text] context = some chosen
  mem : other ∈ candidates
  eligible : program.Eligible [.known text] context other
  accepts : program.Accepts chosen (.objectsOf sup)
  accepts_less : program.Accepts other (.objectsOf sub)
  proper : program.ProperSubtype (.objectsOf sub) (.objectsOf sup)

/-- A type that implements an interface itself, and once more through two classes. -/
def longWay : List (String × String) :=
  [("P.cls", "interface P { }"), ("B.cls", "virtual class B implements P { }"),
  ("C.cls", "virtual class C extends B { }"), ("T.cls", "class T extends C implements P { }"),
  ("Z.cls", "class Z { void f(P p) { } void f(B b) { } }")]

/-- The interface is one step up from the type and the first class two; the class `Z` has a method for each. -/
def isLongWay (graph : CodeGraph) : Bool :=
  let program := ofGraph graph
  match program.lookup? none "T", program.lookup? none "P", program.lookup? none "B", program.lookup? none "Z" with
  | some type, some sup, some sub, some owner =>
    match program.candidates owner "f" 1 with
    | [first, second] =>
      (graph.parameters first).map (·.type) == ["P"] && (graph.parameters second).map (·.type) == ["B"] &&
        program.lookup? (some owner) "T" == some type && program.lookup? (graph.enclosingType? first) "P" == some sup &&
        program.lookup? (graph.enclosingType? second) "B" == some sub && program.distance? type sup == some 1 &&
        program.distance? type sub == some 2 && program.distance? sub sup == some 1
    | _ => false
  | _, _, _, _ => false

theorem isLongWay_longWay : buildsTo isLongWay longWay = true := by decide +kernel

theorem exists_prefersWider {graph : CodeGraph} (inside : Build.LeadsInside graph) (h : isLongWay graph = true) :
    ∃ owner type chosen other sup sub, (ofGraph graph).Means (some owner) "T" type ∧
      (ofGraph graph).PrefersWider (some owner) "T" ((ofGraph graph).candidates owner "f" 1) chosen other sup sub := by
  obtain ⟨hcanonical, hbuiltin, hnames⟩ :
      (canonical "T" = "T" ∧ canonical "P" = "P" ∧ canonical "B" = "B") ∧
      (isBuiltIn "T" = false ∧ isBuiltIn "P" = false ∧ isBuiltIn "B" = false) ∧
      Text.eqIgnoringCase "T" "P" = false ∧ Text.eqIgnoringCase "T" "B" = false := by decide +kernel
  rw [isLongWay] at h
  split at h
  · split at h
    · rename_i type sup sub owner _ _ _ _ _ first second hcandidates
      simp only [Bool.and_eq_true, beq_iff_eq, map_eq_singleton_iff] at h
      obtain ⟨⟨⟨⟨⟨⟨⟨⟨param, hparam, htext⟩, param', hparam', htext'⟩, htype⟩, hsup⟩, hsub⟩, hone⟩, htwo⟩, hup⟩ := h
      have hmeans : (ofGraph graph).Means (some owner) "T" type := by simpa [Means, hcanonical, hbuiltin] using htype
      have hfirst : (ofGraph graph).Means ((ofGraph graph).graph.enclosingType? first) param.type sup := by
        rw [Means, htext, hcanonical.2.1]
        exact ⟨hbuiltin.2.1, hsup⟩
      have hsecond : (ofGraph graph).Means ((ofGraph graph).graph.enclosingType? second) param'.type sub := by
        rw [Means, htext', hcanonical.2.2]
        exact ⟨hbuiltin.2.2, hsub⟩
      have hten : (ofGraph graph).callScore? [.known "T"] (some owner) first = some 10 := by
        rw [callScore?_one hparam, parameterScore?_known hmeans hfirst, hone]
        simp [htext, hcanonical, hnames]
      have htwenty : (ofGraph graph).callScore? [.known "T"] (some owner) second = some 20 := by
        rw [callScore?_one hparam', parameterScore?_known hmeans hsecond, htwo]
        simp [htext', hcanonical, hnames]
      have inside : Build.LeadsInside (ofGraph graph).graph := inside
      obtain ⟨⟨way, hway, hlength⟩, -⟩ := (distance?_eq_some_iff inside).mp hup
      refine ⟨owner, type, first, second, sup, sub, hmeans,
        ?_, by simp [hcandidates], (callScore?_eq_some_iff.mp htwenty).1,
        ⟨param, hparam, hfirst⟩, ⟨param', hparam', hsecond⟩, ?_, way, hway⟩
      · simp [selectOverload?, firstLeast, lesser, hcandidates, hten, htwenty]
      · rintro rfl
        simp [distance?] at hup
    · cases h
  · cases h

/-- The method for the interface is chosen for an object of the type, although the class is a subtype of the
interface. -/
theorem longWay_prefersWider : ∃ graph owner type chosen other sup sub, Build.IsGraphOf bareSettings longWay graph ∧
    (ofGraph graph).Means (some owner) "T" type ∧
    (ofGraph graph).PrefersWider (some owner) "T" ((ofGraph graph).candidates owner "f" 1) chosen other sup sub := by
  obtain ⟨graph, hgraph, htest⟩ := exists_graphOf isLongWay_longWay
  obtain ⟨owner, type, chosen, other, sup, sub, hmeans, hprefers⟩ := exists_prefersWider hgraph.leadsInside htest
  exact ⟨graph, owner, type, chosen, other, sup, sub, hgraph, hmeans, hprefers⟩

/-- It is excused, since the type implements the interface itself. -/
theorem longWay_excused : ∃ graph owner type chosen other sup sub, Build.IsGraphOf bareSettings longWay graph ∧
    (ofGraph graph).Means (some owner) "T" type ∧
    (ofGraph graph).PrefersWider (some owner) "T" ((ofGraph graph).candidates owner "f" 1) chosen other sup sub ∧
    (ofGraph graph).Excused (some owner) chosen (.known "T") (.objectsOf sup) (.objectsOf sub) := by
  obtain ⟨graph, hgraph, htest⟩ := exists_graphOf isLongWay_longWay
  obtain ⟨owner, type, chosen, other, sup, sub, hmeans, hprefers⟩ := exists_prefersWider hgraph.leadsInside htest
  exact ⟨graph, owner, type, chosen, other, sup, sub, hgraph, hmeans, hprefers,
    selectOverload?_specific hgraph (.inr ⟨"T", type, rfl, hmeans⟩) hprefers.chosen_eq hprefers.mem hprefers.eligible
      hprefers.accepts hprefers.accepts_less hprefers.proper⟩

end Program

end ApexPaths
