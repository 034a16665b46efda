import ApexPaths.Proofs.Walk.Lookup
import ApexPaths.Proofs.Walk.Steps
import Mathlib.Data.List.Find

/-!
Names in the outline of a running method. The latest declaration of a name that the open blocks hold gives its type,
and where they hold none the last parameter of the name does. At a place that is evaluated these are the declarations
that the program itself finds, so both give a name the same type, unless two parameters share it.
-/

namespace ApexPaths
set_option autoImplicit false

open List Text CodeGraph

/-! ## Names without case -/

def Text.IsAscii (text : String) : Prop := text.toList.all (·.toNat < 0x80) = true

theorem Text.lower_eq_iff {a b : String} (ha : IsAscii a) (hb : IsAscii b) :
    (lower a == lower b) = eqIgnoringCase a b := by
  rw [IsAscii] at ha hb
  rw [lower, lower, lowerChars, lowerChars, if_pos ha, if_pos hb, eqIgnoringCase, Bool.eq_iff_iff, beq_iff_eq,
    beq_iff_eq, String.ofList_inj]

/-- All names of a graph are written in ASCII. -/
def CodeGraph.IsAscii (graph : CodeGraph) : Prop := ∀ v name, graph.name? v = some name → Text.IsAscii name

/-! ## Names in outlines -/

/-- The type of a variable by its name. -/
def VariableOutline.type? (vars : VariableOutline) (name : String) : Option String :=
  (vars.find? (·.1 == lower name)).map Prod.snd

/-- The type that was given last to a name. -/
def lastType? (name : String) (entries : List (String × String)) : Option String :=
  (entries.reverse.find? fun entry => lower entry.1 == lower name).map fun entry => TypeName.canonical entry.2

theorem type?_assign (vars : VariableOutline) (key type name : String) :
    VariableOutline.type? (assign key type vars) name = if key = lower name then some type
    else vars.type? name := by
  induction vars with
  | nil => by_cases h : key = lower name <;> simp [assign, VariableOutline.type?, h]
  | cons entry rest ih =>
    obtain ⟨k, t⟩ := entry
    rw [VariableOutline.type?] at ih ⊢
    rw [assign]
    by_cases hk : k = key
    · subst hk
      by_cases h : k = lower name <;> simp [VariableOutline.type?, h]
    · rw [if_neg (by simpa using hk)]
      by_cases h : k = lower name
      · have hne : key ≠ lower name := fun e => hk (h.trans e.symm)
        simp [VariableOutline.type?, h, hne]
      · simpa [VariableOutline.type?, h] using ih

theorem lastType?_append (name : String) (first second : List (String × String)) :
    lastType? name (first ++ second) = (lastType? name second).or (lastType? name first) := by
  rw [lastType?, lastType?, lastType?, reverse_append, List.find?_append, Option.map_or]

theorem lastType?_singleton (name : String) (entry : String × String) :
    lastType? name [entry] = if lower entry.1 = lower name then some (TypeName.canonical entry.2)
    else none := by
  by_cases h : lower entry.1 = lower name <;> simp [lastType?, h]

theorem type?_bindAll (vars : VariableOutline) (entries : List (String × String)) (name : String) :
    VariableOutline.type? (bindAll vars entries) name = (lastType? name entries).or (vars.type? name) := by
  induction entries using List.reverseRecOn with
  | nil => rfl
  | append_singleton entries entry ih =>
    rw [bindAll_append, lastType?_append, lastType?_singleton]
    show VariableOutline.type? (assign (lower entry.1) (TypeName.canonical entry.2) (bindAll vars entries))
      name = _
    rw [type?_assign]
    split
    · rfl
    · exact ih

namespace FrameOutline

/-- The type of a variable in a frame: that of the innermost block that binds it. -/
def type? (outline : FrameOutline) (name : String) : Option String :=
  (outline.blocks.findSome? fun block => block.2.type? name).or (outline.parameters.type? name)

theorem type?_declare (outline : FrameOutline) (variable_ type name : String) :
    (outline.declare variable_ type).type? name =
    if lower variable_ = lower name then some (TypeName.canonical type) else outline.type? name := by
  obtain ⟨parameters, _ | ⟨⟨kind, vars⟩, blocks⟩⟩ := outline
  · exact type?_assign ..
  · rw [declare, FrameOutline.type?, FrameOutline.type?, List.findSome?_cons, List.findSome?_cons]
    dsimp only
    rw [type?_assign]
    by_cases h : lower variable_ = lower name
    · rw [if_pos h, if_pos h]
      rfl
    · rw [if_neg h, if_neg h]

theorem type?_declareAll (outline : FrameOutline) (entries : List (String × String)) (name : String) :
    (outline.declareAll entries).type? name = (lastType? name entries).or (outline.type? name) := by
  induction entries using List.reverseRecOn with
  | nil => rfl
  | append_singleton entries entry ih =>
    rw [Walker.declareAll_append, type?_declare, lastType?_append, lastType?_singleton, ih]
    split <;> rfl

end FrameOutline

theorem VariableMap.type?_outline (vars : VariableMap) (name : String) :
    vars.outline.type? name = (vars.get? name).map Variable.type := by
  rw [VariableOutline.type?, VariableMap.outline, VariableMap.get?, List.find?_map, Option.map_map, Option.map_map]
  rfl

theorem Frame.type?_outline (frame : Frame) (name : String) :
    frame.outline.type? name = (frame.lookup? name).map Variable.type := by
  rw [FrameOutline.type?, Frame.lookup?, Frame.outline]
  dsimp only
  rw [VariableMap.type?_outline]
  have hblocks : (frame.blocks.map Block.outline).findSome? (fun block => block.2.type? name) =
      (frame.blocks.findSome? fun block => block.vars.get? name).map Variable.type := by
    induction frame.blocks with
    | nil => rfl
    | cons block blocks ih =>
      rw [map_cons, List.findSome?_cons, List.findSome?_cons, ih, Block.outline]
      dsimp only
      rw [VariableMap.type?_outline]
      cases block.vars.get? name <;> rfl
  rw [hblocks]
  cases frame.blocks.findSome? fun block => block.vars.get? name <;> rfl

/-! ## What the open blocks hold -/

variable {name : String}

namespace Program

variable (program : Program)

/-- The name and the type with which the variable of a vertex is declared. -/
def spelled (declaration : VertexId) : String × String :=
  ((program.graph.name? declaration).getD "", program.typeOfDeclaration declaration)

variable {program} (kinds : program.graph.HasKinds)
include kinds

/-- What has a declared type is spelled with its own name, and its type is canonical. -/
theorem exists_spelled {v : VertexId} {label : NodeKind} (hlabel : program.graph.label? v = some label)
    (htyped : label.isTyped = true) : ∃ name, program.graph.name? v = some name ∧
    program.graph.declaredType? v = some (program.typeOfDeclaration v) ∧
      TypeName.canonical (program.typeOfDeclaration v) = program.typeOfDeclaration v := by
  obtain ⟨name, type, hname, htype, hwritten⟩ := kinds.spells hlabel htyped
  refine ⟨name, hname, ?_, ?_⟩
  · rw [declaredType?, typeOfDeclaration, htype]
    rfl
  · rw [typeOfDeclaration, htype, Option.getD_some, TypeName.canonical_canonical hwritten]

theorem lastType?_spelled (ascii : program.graph.IsAscii) (hname : Text.IsAscii name) {ids : List VertexId}
    (hids : ∀ id ∈ ids, ∃ label, program.graph.label? id = some label ∧ label.isTyped = true) :
    lastType? name (ids.map program.spelled) =
    (ids.reverse.find? (program.hasName · name)).map program.typeOfDeclaration := by
  have hsame : ∀ id ∈ ids, (lower (program.spelled id).1 == lower name) = program.hasName id name := by
    intro id hid
    obtain ⟨label, hlabel, htyped⟩ := hids id hid
    obtain ⟨own, hown, -⟩ := exists_spelled kinds hlabel htyped
    rw [spelled, hasName, hown, Option.getD_some, Option.any_some, lower_eq_iff (ascii id own hown) hname]
  rw [lastType?, ← map_reverse, List.find?_map, Option.map_map]
  have hfind : ids.reverse.find? ((fun entry => lower entry.1 == lower name) ∘ program.spelled) =
      ids.reverse.find? (program.hasName · name) := List.find?_congr fun id hid => hsame id (mem_reverse.mp hid)
  rw [hfind]
  refine Option.map_congr fun id hid => ?_
  obtain ⟨label, hlabel, htyped⟩ := hids id (mem_reverse.mp (mem_of_find?_eq_some hid))
  obtain ⟨-, -, -, hcanonical⟩ := exists_spelled kinds hlabel htyped
  exact hcanonical

end Program

theorem CodeGraph.exists_typed_of_mem_declarations {graph : CodeGraph} {u d : VertexId}
    (hd : d ∈ graph.declarations u) : ∃ label, graph.label? d = some label ∧ label.isTyped = true := by
  rw [declarations] at hd
  split at hd
  · exact ⟨_, graph.is_iff.mp (mem_filter.mp hd).2, rfl⟩
  · split at hd
    · rename_i hclause
      rw [mem_singleton.mp hd]
      rcases Bool.or_eq_true_iff.mp (Bool.and_eq_true_iff.mp hclause).1 with hk | hk <;>
        exact ⟨_, graph.is_iff.mp hk, rfl⟩
    · cases hd

variable {v : Nat}

namespace Walker

variable {σ : Type} {walker : Walker σ}

theorem parameterOutline_eq (method : VertexId) : walker.parameterOutline method =
    bindAll [] ((walker.graph.childrenWithLabel method .parameter).map walker.program.spelled) := by
  rw [parameterOutline, parameters, map_map]
  rfl

section
variable (kinds : walker.graph.HasKinds)
include kinds

theorem declared_eq (hv : v < walker.graph.vertexCount) :
    walker.declared v = (walker.graph.declarations v).map walker.program.spelled := by
  by_cases hdeclares : walker.graph.declares v = true
  · rw [declared, labelOf_eq (walker.graph.is_iff.mp hdeclares), declarations_of_declares hdeclares]
    dsimp only
    rw [declaredVariables, map_map]
    refine map_congr_left fun declaration hdeclaration => ?_
    obtain ⟨-, -, htype, -⟩ := Program.exists_spelled kinds (walker.graph.is_iff.mp (mem_filter.mp hdeclaration).2) rfl
    rw [Function.comp_apply, variableType, show walker.graph.declaredType? declaration = _ from htype]
    rfl
  · by_cases hclause : walker.graph.isBindingClause v = true
    · have hentries : walker.declared v =
          (walker.graph.name? v).toList.map (·, walker.program.typeOfDeclaration v) := by
        rcases Bool.or_eq_true_iff.mp hclause with hk | hk <;>
          rw [declared, labelOf_eq (walker.graph.is_iff.mp hk)]
      rw [hentries, declarations, if_neg hdeclares, hclause, Bool.true_and]
      cases hname : walker.graph.name? v with
      | none => rfl
      | some name =>
        have hspelled : walker.program.spelled v = (name, walker.program.typeOfDeclaration v) := by
          rw [Program.spelled, show walker.program.graph.name? v = some name from hname]
          rfl
        simp [hspelled]
    · rw [declared_eq_nil walker hv (by simpa using hdeclares) (by simpa using hclause), declarations,
        if_neg hdeclares]
      simp [hclause]

theorem type?_blocksOf {passed scopes : List VertexId} (hpassed : ∀ u ∈ passed, u < walker.graph.vertexCount)
    (name : String) : ((walker.blocksOf passed scopes).findSome? fun block => block.2.type? name) =
      lastType? name ((walker.graph.history passed scopes).map walker.program.spelled) := by
  have hcontents : ∀ scope, VariableOutline.type? (walker.contents passed scope) name =
      lastType? name ((walker.graph.declarationsIn passed scope).map walker.program.spelled) := by
    intro scope
    have hentries : (passed.filter fun u => walker.graph.home? u == some scope).flatMap walker.declared =
        (walker.graph.declarationsIn passed scope).map walker.program.spelled := by
      rw [declarationsIn, map_flatMap]
      exact flatMap_congr fun u hu => declared_eq kinds (hpassed u (mem_of_mem_filter hu))
    rw [contents, type?_bindAll, hentries]
    exact Option.or_none
  induction scopes with
  | nil => rfl
  | cons scope scopes ih =>
    have hhistory : walker.graph.history passed (scope :: scopes) =
        walker.graph.history passed scopes ++ walker.graph.declarationsIn passed scope := by
      rw [history, history, reverse_cons, flatMap_append, flatMap_singleton]
    rw [blocksOf, map_cons, List.findSome?_cons, hhistory, map_append, lastType?_append, ← ih, hcontents]
    cases lastType? name ((walker.graph.declarationsIn passed scope).map walker.program.spelled) <;> rfl

end

end Walker

/-!
## Static and dynamic binding

Where a running method evaluates an expression, it holds a variable of a name exactly
if the program finds a local variable or a parameter there, and the variable has the type that was found. Of two
parameters of one name the program finds the first, and the running method holds the last.
-/

/-! ## Bindings -/

/-- The variable is one of a method: a local one or a parameter. -/
def Declared.isOfMethod : Declared → Bool
  | .localVariable _ | .parameter _ => true
  | _ => false

namespace Program

/-- The variable is a parameter, and another parameter of the method has the name, too. -/
def IsRepeated (program : Program) (method : VertexId) (name : String) : Declared → Prop
  | .parameter id =>
    ∃ other ∈ program.graph.childrenWithLabel method .parameter, other ≠ id ∧ program.hasName other name = true
  | _ => False

/-- A running method binds a name as the program does at a place. -/
structure BindsAlike (program : Program) (method : VertexId) (frame : Frame) (name : String) (place : VertexId) :
    Prop where
  bound : (frame.lookup? name).isSome = (program.variableBinding? name place).any (·.declared.isOfMethod)
  typed : ∀ found ∈ frame.lookup? name, ∀ binding ∈ program.variableBinding? name place,
    ¬program.IsRepeated method name binding.declared → found.type = binding.type

variable {program : Program}

theorem not_isOfMethod_of_memberBinding? {type : VertexId} {binding : Binding}
    (h : program.memberBinding? type name = some binding) : binding.declared.isOfMethod = false := by
  obtain ⟨owner, -, hfind⟩ := exists_of_findSome?_eq_some h
  obtain ⟨member, -, hmember⟩ := exists_of_findSome?_eq_some hfind
  rw [memberVariable?] at hmember
  split at hmember
  · obtain ⟨id, -, rfl⟩ := Option.map_eq_some_iff.mp hmember
    rfl
  · split at hmember
    · cases hmember
      rfl
    · cases hmember
  · cases hmember

theorem any_isOfMethod_variableBinding? {method place : VertexId}
    (hmethod : program.graph.enclosingMethod? place = some method) (name : String) :
    (program.variableBinding? name place).any (·.declared.isOfMethod) =
      ((program.localBinding? method name place).or (program.parameterBinding? method name)).isSome := by
  rw [variableBinding?, hmethod, Option.bind_some]
  cases hlocal : program.localBinding? method name place with
  | some binding =>
    obtain ⟨id, -, rfl⟩ := Option.map_eq_some_iff.mp hlocal
    rfl
  | none =>
    cases hparameter : program.parameterBinding? method name with
    | some binding =>
      obtain ⟨id, -, rfl⟩ := Option.map_eq_some_iff.mp hparameter
      rfl
    | none =>
      show Option.any _
        ((program.outward (program.graph.enclosingType? place)).findSome? (program.memberBinding? · name)) = false
      cases hmember : (program.outward (program.graph.enclosingType? place)).findSome?
        (program.memberBinding? · name) with
      | none => rfl
      | some binding =>
        obtain ⟨type, -, hmember⟩ := exists_of_findSome?_eq_some hmember
        exact not_isOfMethod_of_memberBinding? hmember

/-- If the types in a frame are those of the last variables and parameters of a name, the frame binds the name as
the program does. -/
theorem bindsAlike_of_types {method place : VertexId} (hmethod : program.graph.enclosingMethod? place = some method)
    {reached : List VertexId} (hlocal : program.localBinding? method name place =
      (reached.reverse.find? (program.hasName · name)).map fun id => ⟨program.typeOfDeclaration id, .localVariable id⟩)
    {frame : Frame} (htypes : (frame.lookup? name).map Variable.type =
      ((reached.reverse.find? (program.hasName · name)).map program.typeOfDeclaration).or
        (((program.graph.childrenWithLabel method .parameter).reverse.find? (program.hasName · name)).map
        program.typeOfDeclaration)) :
    program.BindsAlike method frame name place := by
  have hsome : ∀ ids : List VertexId, (ids.reverse.find? (program.hasName · name)).isSome =
      (ids.find? (program.hasName · name)).isSome := by
    intro ids
    rw [Bool.eq_iff_iff, List.find?_isSome, List.find?_isSome]
    simp only [mem_reverse]
  constructor
  · have hbound := congrArg Option.isSome htypes
    rw [any_isOfMethod_variableBinding? hmethod, hlocal, parameterBinding?]
    simpa only [Option.isSome_or, Option.isSome_map,
      hsome (program.graph.childrenWithLabel method .parameter)] using hbound
  · intro found hfound binding hbinding hrepeated
    rw [Option.mem_def.mp hfound, Option.map_some] at htypes
    rw [Option.mem_def, variableBinding?, hmethod, Option.bind_some, hlocal] at hbinding
    cases hreached : reached.reverse.find? (program.hasName · name) with
    | some id =>
      rw [hreached] at htypes hbinding
      cases hbinding
      exact Option.some.inj htypes
    | none =>
      rw [hreached] at htypes hbinding
      obtain ⟨last, hlast, hsame⟩ := Option.map_eq_some_iff.mp htypes.symm
      obtain ⟨first, hfirst⟩ := Option.isSome_iff_exists.mp ((hsome _).symm.trans (Option.isSome_of_mem hlast))
      rw [parameterBinding?, hfirst] at hbinding
      cases hbinding
      -- The last parameter of the name is the first one, for no other parameter has the name.
      have hnamed := List.find?_some (p := (program.hasName · name)) hlast
      have honly : last = first := Decidable.byContradiction fun hne =>
        hrepeated ⟨last, mem_reverse.mp (mem_of_find?_eq_some hlast), hne, hnamed⟩
      rw [← hsame, honly]

end Program

/-! ## Kinds around a place -/

variable {method body : Nat}

namespace CodeGraph

section
variable {graph : CodeGraph} (forest : graph.IsForest) (kinds : graph.HasKinds)
include forest kinds

theorem isPart_of_child {p c : VertexId} (hp : graph.IsPart p) (hc : c ∈ graph.children p) : graph.IsPart c := by
  obtain ⟨label, hlabel, hpart⟩ := hp
  obtain ⟨child, hchild⟩ := exists_label (lt_of_parent? (forest.parent_of_mem hc))
  have hmay := kinds.mayHold hc
  rw [labelOf_eq hlabel, labelOf_eq hchild] at hmay
  exact ⟨child, hchild, NodeKind.isPart_of_mayHold hmay (.inl hpart)⟩

variable (declared : graph.WellDeclared)
include declared

theorem mem_line_or_isPart {expr place : Nat} (hexpr : graph.IsPart expr) (hbelow : graph.Below expr place) {w : Nat}
    (hw : w ∈ graph.line place) : w ∈ graph.line expr ∨ graph.IsPart w := by
  suffices h : ∀ place : Nat, graph.Below expr place → graph.IsPart place ∧ ∀ w : Nat, w ∈ graph.line place →
    w ∈ graph.line expr ∨ graph.IsPart w from
    (h place hbelow).2 w hw
  clear hbelow hw w place
  intro place
  induction place using Nat.strongRecOn with
  | ind place ih =>
    intro hbelow
    by_cases he : place = expr
    · subst he
      exact ⟨hexpr, fun w hw => .inl hw⟩
    · obtain ⟨p, hp⟩ := hbelow.parent_of_ne he
      obtain ⟨hparent, hrest⟩ := ih p (forest.parent_lt hp) (hbelow.parent forest he hp)
      have hplace := isPart_of_child forest kinds hparent (declared.lists hp)
      refine ⟨hplace, fun w hw => ?_⟩
      rw [line_of_parent forest hbelow.1 hp] at hw
      rcases mem_cons.mp hw with rfl | hw
      · exact .inr hplace
      · exact hrest w hw

theorem isInner_of_below (hbody : graph.label? body = some .blockStatement) (h : graph.Below body v) :
    (graph.labelOf v).isInner = true := by
  induction v using Nat.strongRecOn with
  | ind v ih =>
    by_cases hv : v = body
    · subst hv
      rw [labelOf_eq hbody]
      rfl
    · obtain ⟨p, hp⟩ := h.parent_of_ne hv
      exact NodeKind.isInner_of_mayHold (kinds.mayHold (declared.lists hp))
        (ih p (forest.parent_lt hp) (h.parent forest hv hp))

omit kinds declared in
theorem find?_line_of_below (hbody : body ∈ graph.children method) (h : graph.Below body v) {test : VertexId → Bool}
    (hnot : ∀ w : Nat, graph.Below body w → test w = false) : (graph.line v).find? test =
    (graph.line method).find? test := by
  induction v using Nat.strongRecOn with
  | ind v ih =>
    obtain ⟨p, hp, hup⟩ : ∃ p : Nat, graph.parent? v = some p ∧
      (graph.line p).find? test = (graph.line method).find? test := by
      by_cases hv : v = body
      · subst hv
        exact ⟨method, forest.parent_of_mem hbody, rfl⟩
      · obtain ⟨p, hp⟩ := h.parent_of_ne hv
        exact ⟨p, hp, ih p (forest.parent_lt hp) (h.parent forest hv hp)⟩
    rw [line_of_parent forest h.1 hp, List.find?_cons_of_neg (by simp [hnot v h]), hup]

theorem enclosingMethod?_of_below (hmethod : graph.is method .method = true) (hbody : body ∈ graph.children method)
    (hblock : graph.label? body = some .blockStatement) (h : graph.Below body v) : graph.enclosingMethod? v =
    some method := by
  have hnot : ∀ w : Nat, graph.Below body w → graph.is w .method = false := by
    intro w hw
    have hinner := isInner_of_below forest kinds declared hblock hw
    refine Bool.eq_false_iff.mpr fun hw => ?_
    rw [labelOf_eq (graph.is_iff.mp hw)] at hinner
    cases hinner
  exact (find?_line_of_below forest hbody h hnot).trans (List.find?_cons_of_pos hmethod)

/-- What lies in the body of a method lies in the type of the method. -/
theorem enclosingType?_of_below (hbody : body ∈ graph.children method)
    (hblock : graph.label? body = some .blockStatement) (h : graph.Below body v) : graph.enclosingType? v =
    graph.enclosingType? method := by
  refine find?_line_of_below forest hbody h fun w hw => ?_
  obtain ⟨label, hlabel⟩ := exists_label hw.1
  have hinner := isInner_of_below forest kinds declared hblock hw
  rw [labelOf_eq hlabel] at hinner
  rw [hlabel, Option.any_some]
  cases label <;> first | rfl | cases hinner

end

end CodeGraph

/-! ## Places of evaluation -/

/-- A place that is evaluated while a method runs with an outline. -/
structure Walker.Evaluating {σ : Type} (walker : Walker σ) (method : Nat) (outline : FrameOutline) (place : Nat) :
    Prop where
  isMethod : walker.graph.is method .method = true
  exists_route : ∃ (body v : Nat) (ids before after done : List VertexId), body ∈ walker.graph.children method ∧
    Route walker.graph body ids ∧ ids = before ++ v :: after ∧ walker.graph.EvaluatesAt v done place ∧
    outline = FrameOutline.declareAll ⟨walker.parameterOutline method,
    walker.blocksOf before (walker.graph.scopeLine body v)⟩ (done.map walker.program.spelled)

/-- How a built graph keeps names and places. -/
structure Build.WellBound (graph : CodeGraph) : Prop where
  placed : Build.WellPlaced graph
  declared : graph.WellDeclared
  kinds : graph.HasKinds

variable {outline : FrameOutline}

namespace Walker

variable {σ : Type} {walker : Walker σ} (bound : Build.WellBound walker.graph)
include bound

/-- What is evaluated with a place is evaluated with everything below it. -/
theorem Evaluating.below {expr place : Nat} (h : walker.Evaluating method outline expr)
    (hpart : walker.graph.IsPart expr) (hplace : walker.graph.Below expr place) :
    walker.Evaluating method outline place := by
  have forest := bound.placed.forest
  obtain ⟨hmethod, body, v, ids, before, after, done, hbody, hroute, hids, ⟨hbelow, hparts, hsource⟩, houtline⟩ := h
  refine ⟨hmethod, body, v, ids, before, after, done, hbody, hroute, hids,
    ⟨.trans forest hbelow hplace, fun w hw => ?_, ?_⟩, houtline⟩
  · exact (mem_line_or_isPart forest bound.kinds bound.declared hpart hplace hw).elim (hparts w) .inr
  · refine hsource.imp ?_ ?_
    · rintro ⟨hdeclares, hdone, root, hroot, hline⟩
      exact ⟨hdeclares, hdone, root, hroot, mem_line_trans forest hplace.1 hline hplace.2⟩
    · rintro ⟨declarator, todo, hdeclares, hdeclarations, hline⟩
      exact ⟨declarator, todo, hdeclares, hdeclarations, mem_line_trans forest hplace.1 hline hplace.2⟩

theorem Evaluating.enclosingMethod? {place : Nat} (h : walker.Evaluating method outline place) :
    walker.graph.enclosingMethod? place = some method := by
  have forest := bound.placed.forest
  obtain ⟨hmethod, body, v, ids, before, after, done, hbody, hroute, hids, ⟨hbelow, -, -⟩, -⟩ := h
  exact enclosingMethod?_of_below forest bound.kinds bound.declared hmethod hbody hroute.isBlock
    (.trans forest (hroute.below v (Route.mem hids)) hbelow)

/-- Where a vertex evaluates something, a name has the type of the last declaration that was passed, or else that
of the last parameter. -/
theorem type?_evaluating (ascii : walker.graph.IsAscii) {name : String} (hname : Text.IsAscii name) (method : Nat)
    {body place : Nat} {ids before after done : List VertexId} (hroute : Route walker.graph body ids)
    (hids : ids = before ++ v :: after)
    (hevaluates : walker.graph.EvaluatesAt v done place) :
    (FrameOutline.declareAll ⟨walker.parameterOutline method, walker.blocksOf before (walker.graph.scopeLine body v)⟩
      (done.map walker.program.spelled)).type? name =
      (((walker.graph.history before (walker.graph.scopeLine body v) ++ done).reverse.find?
      (walker.program.hasName · name)).map walker.program.typeOfDeclaration).or
        (((walker.graph.childrenWithLabel method .parameter).reverse.find? (walker.program.hasName · name)).map
          walker.program.typeOfDeclaration) := by
  have hbefore : ∀ u ∈ before, u < walker.graph.vertexCount := fun u hu => (hroute.below u (by simp [hids, hu])).1
  have hparameters : ∀ id ∈ walker.graph.childrenWithLabel method .parameter, ∃ label,
      walker.graph.label? id = some label ∧ label.isTyped = true :=
    fun id hid => ⟨_, walker.graph.is_iff.mp (mem_filter.mp hid).2, rfl⟩
  have hvariables : ∀ id ∈ walker.graph.history before (walker.graph.scopeLine body v) ++ done,
      ∃ label, walker.graph.label? id = some label ∧ label.isTyped = true := by
    refine forall_mem_append.mpr ⟨fun id hid => ?_, fun id hid => ?_⟩
    · obtain ⟨scope, -, hin⟩ := mem_flatMap.mp hid
      obtain ⟨u, -, hdeclared⟩ := mem_flatMap.mp hin
      exact exists_typed_of_mem_declarations hdeclared
    · exact ⟨_, walker.graph.is_iff.mp (mem_filter.mp (Route.lt_of_mem_done bound.placed hevaluates hid).1).2, rfl⟩
  rw [FrameOutline.type?_declareAll, FrameOutline.type?, type?_blocksOf bound.kinds hbefore, parameterOutline_eq,
    type?_bindAll, Program.lastType?_spelled bound.kinds ascii hname hparameters, ← Option.or_assoc,
    ← lastType?_append, ← map_append,
    Program.lastType?_spelled bound.kinds ascii hname hvariables]
  congr 1
  exact Option.or_none

/-- A running method binds a name as the program does where it evaluates something. -/
theorem Evaluating.bindsAlike (ascii : walker.graph.IsAscii) {place : Nat}
    (h : walker.Evaluating method outline place) {frame : Frame} (hframe : frame.outline = outline)
    (hname : Text.IsAscii name) (hown : ¬walker.program.InOwnDeclaration name place) :
    walker.program.BindsAlike method frame name place := by
  have forest := bound.placed.forest
  have henclosing := h.enclosingMethod? bound
  obtain ⟨hmethod, body, v, ids, before, after, done, hbody, hroute, hids, hevaluates, rfl⟩ := h
  have hbodyBelow : walker.graph.Below method body :=
    .of_child forest hbody (.refl (lt_of_parent? (forest.parent_of_mem hbody)))
  have hplace : walker.graph.Below method place :=
    .trans forest hbodyBelow (.trans forest (hroute.below v (Route.mem hids)) hevaluates.below)
  -- The local variables in reach are those that the open blocks hold.
  have hlocal :=
    @Program.localBinding?_eq walker.program forest bound.placed.ordered bound.declared.lists method place hplace name
    _ (hroute.pairwise_history_append bound.placed bound.declared hids hevaluates) fun id hid =>
      ⟨hroute.reaches_of_mem bound.placed bound.declared hids hevaluates hbodyBelow,
        hroute.mem_of_reaches bound.placed bound.declared hids hevaluates hmethod hbody hown hid⟩
  have htypes := type?_evaluating bound ascii hname method hroute hids hevaluates
  rw [← hframe, Frame.type?_outline] at htypes
  exact Program.bindsAlike_of_types henclosing hlocal htypes

end Walker

end ApexPaths
