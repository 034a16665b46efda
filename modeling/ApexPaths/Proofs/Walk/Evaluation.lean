import ApexPaths.Proofs.Walk.Outline
import Mathlib.Data.Option.Basic

/-!
What the evaluation of expressions leaves alone. Whatever an expression calls, initializes or assigns, the
running methods have the same blocks and the same names with the same types after it, and nothing fails
but for lack of nesting.
-/

namespace ApexPaths
set_option autoImplicit false

open WalkM

variable {σ τ : Type}

/-! ## Parts of the state -/

section
variable {failed related : σ → τ → Prop} {outlines rest : List FrameOutline} {top : FrameOutline}

theorem agrees_symbols : Agrees failed related outlines (symbols : WalkM σ Symbols) symbols related outlines :=
  .get_bind fun state _ _ _ => .pure state.symbols id

theorem agrees_modifySymbols {f : Symbols → Symbols} {left : List FrameOutline}
    (h : ∀ symbols, symbols.frames.map Frame.outline = outlines → (f symbols).frames.map Frame.outline = left) :
    Agrees failed related outlines (modifySymbols f : WalkM σ Unit) (modifySymbols f) related left :=
  .modify fun state observed houtlines hrelated => ⟨observed, rfl, h state.symbols houtlines, hrelated⟩

theorem agrees_heap : Agrees failed related outlines (heap : WalkM σ Heap) heap related outlines :=
  agrees_symbols.bind fun symbols => .pure symbols.heap id

theorem agrees_onHeap {α : Type} (f : Heap → α × Heap) :
    Agrees failed related outlines (onHeap f : WalkM σ α) (onHeap f) related outlines :=
  agrees_heap.bind fun heap =>
    (agrees_modifySymbols (f := fun symbols => { symbols with heap := (f heap).2 }) fun _ h => h).bind fun _ =>
    .pure (f heap).1 id

theorem agrees_modifyStatics (f : StaticScopes → StaticScopes) :
    Agrees failed related outlines (modifyStatics f : WalkM σ Unit) (modifyStatics f) related outlines :=
  agrees_modifySymbols fun _ h => h

theorem agrees_callLibrary? (target : CallTarget) (method : String) (args : List Value) :
    Agrees failed related outlines (callLibrary? target method args : WalkM σ (Option Value))
    (callLibrary? target method args) related outlines := agrees_onHeap _

theorem agrees_notify {after : σ → τ → Prop} {f : σ → σ} {f' : τ → τ}
    (h : ∀ {o o'}, related o o' → after (f o) (f' o')) :
    Agrees failed related outlines (notify f) (notify f') after outlines :=
  .modify fun _ observed houtlines hrelated => ⟨f' observed, rfl, houtlines, h hrelated⟩

/-! ## The running method -/

theorem agrees_frame : Agrees failed related (top :: rest) (frame : WalkM σ Frame) frame related (top :: rest) := by
  refine ⟨fun state observed houtlines hrelated => ?_⟩
  obtain ⟨⟨heap, statics, frames⟩, iterables, subjects, visited, seen⟩ := state
  cases frames with
  | nil => cases houtlines
  | cons first frames => exact ⟨observed, rfl, houtlines, hrelated⟩

theorem agrees_modifyFrame {f : Frame → Frame} {changed : FrameOutline}
    (h : ∀ frame, frame.outline = top → (f frame).outline = changed) :
    Agrees failed related (top :: rest) (modifyFrame f : WalkM σ Unit) (modifyFrame f) related (changed :: rest) := by
  refine agrees_frame.bind fun _ => agrees_modifySymbols fun symbols houtlines => ?_
  obtain ⟨heap, statics, frames⟩ := symbols
  cases frames with
  | nil => cases houtlines
  | cons first frames =>
    obtain ⟨hfirst, hrest⟩ := List.cons.inj houtlines
    show (f first).outline :: frames.map Frame.outline = _
    rw [h first hfirst, hrest]

theorem agrees_pushFrame (frame : Frame) :
    Agrees failed related outlines (pushFrame frame : WalkM σ Unit) (pushFrame frame) related
    (frame.outline :: outlines) :=
  agrees_modifySymbols fun _ h => congrArg (frame.outline :: ·) h

theorem agrees_popFrame : Agrees failed related (top :: rest) (popFrame : WalkM σ Frame) popFrame related rest := by
  refine ⟨fun state observed houtlines hrelated => ?_⟩
  obtain ⟨⟨heap, statics, frames⟩, iterables, subjects, visited, seen⟩ := state
  cases frames with
  | nil => cases houtlines
  | cons first frames => exact ⟨observed, rfl, (List.cons.inj houtlines).2, hrelated⟩

theorem agrees_this? : Agrees failed related (top :: rest)
    (this? : WalkM σ (Option HeapRef)) this? related (top :: rest) :=
  agrees_frame.bind fun frame => .pure frame.this id

theorem agrees_declare (name type : String) (value : Value) :
    Agrees failed related (top :: rest) (declare name type value : WalkM σ Unit) (declare name type value) related
      (top.declare name type :: rest) :=
  agrees_modifyFrame fun frame h => by rw [frame.outline_declare, h]

end

/-! ## Places -/

namespace Place

variable {failed related : σ → τ → Prop} {outlines : List FrameOutline}

theorem keeps_read? (place : Place) :
    Keeps failed related outlines (place.read? : WalkM σ (Option Value)) place.read? := by
  cases place with
  | «variable» name => exact agrees_symbols.bind fun _ => .ret _
  | field object name => exact agrees_heap.bind fun _ => .ret _
  | static owner name => exact agrees_symbols.bind fun _ => .ret _
  | element container index => exact agrees_callLibrary? ..
  | unknown => exact .ret _

theorem keeps_write (value : Value) (place : Place) :
    Keeps failed related outlines (place.write value : WalkM σ Unit) (place.write value) := by
  cases place <;> simp only [write]
  case «variable» name =>
    refine agrees_modifySymbols fun symbols houtlines => ?_
    obtain ⟨heap, statics, frames⟩ := symbols
    cases frames with
    | nil => exact houtlines
    | cons frame frames =>
      rw [← houtlines]
      exact congrArg (· :: frames.map Frame.outline) (frame.outline_assigned name value)
  case field object name => exact agrees_onHeap _
  case static owner name => exact agrees_modifyStatics _
  case element container index => exact (agrees_callLibrary? ..).discard
  case unknown => exact .ret _

end Place

/-! ## Nested work -/

/-- Which work may be done under which outlines: with an expression its parts, with a path the paths attached to
it, and always the initializers of fields, in frames of their own. -/
structure Admits (graph : CodeGraph) (admits : List FrameOutline → Task → Prop) : Prop where
  running : ∀ {outlines sites expr}, admits outlines (.eval sites expr) → outlines ≠ []
  part : ∀ {outlines sites expr part}, admits outlines (.eval sites expr) → part ∈ graph.children expr →
    admits outlines (.eval sites part)
  attached : ∀ {outlines sites expr site path}, admits outlines (.eval sites expr) →
    Walker.attached? sites site = some path → ∀ outlines this args, admits outlines (.invoke path this args)
  field : ∀ {type field init}, field ∈ graph.fields type → init ∈ graph.children field →
    ∀ outlines, admits (⟨[], []⟩ :: outlines) (.eval none init)

/-- The walker with another visitor. -/
def Walker.watchedBy (walker : Walker σ) (visitor : Visitor τ) : Walker τ :=
  ⟨walker.program, visitor, walker.maxLoopValues⟩

section
variable (walker : Walker σ) (visitor : Visitor τ)

@[simp] theorem Walker.graph_watchedBy : (walker.watchedBy visitor).graph = walker.graph := rfl

@[simp] theorem Walker.program_watchedBy : (walker.watchedBy visitor).program = walker.program := rfl

@[simp] theorem Walker.operands?_watchedBy : (walker.watchedBy visitor).operands? = walker.operands? := rfl

@[simp] theorem Walker.operatorOf_watchedBy : (walker.watchedBy visitor).operatorOf = walker.operatorOf := rfl

end

/-- What is observed stays related when both visitors are told of an expression. -/
def SeesExpressions (related : σ → τ → Prop) (visitor : Visitor σ) (visitor' : Visitor τ) : Prop :=
  ∀ expr value o o', related o o' → related (visitor.onExpression expr value o) (visitor'.onExpression expr value o')

theorem SeesExpressions.keeps_notify {failed related : σ → τ → Prop} {visitor : Visitor σ} {visitor' : Visitor τ}
    (h : SeesExpressions related visitor visitor') (expr : VertexId) (value : Value) (outlines : List FrameOutline) :
    Keeps failed related outlines (notify (visitor.onExpression expr value))
    (notify (visitor'.onExpression expr value)) :=
  agrees_notify fun hrelated => h expr value _ _ hrelated

/-- Nested work agrees. -/
structure Performs (admits : List FrameOutline → Task → Prop) (failed related : σ → τ → Prop) (perform : Perform σ)
    (perform' : Perform τ) : Prop where
  keeps : ∀ {outlines task}, admits outlines task → Keeps failed related outlines (perform task) (perform' task)

variable {graph : CodeGraph}

theorem CodeGraph.mem_children_of_childAt? {id child : VertexId} {index : Nat}
    (h : graph.childAt? id index = some child) : child ∈ graph.children id := List.mem_of_getElem? h

theorem CodeGraph.mem_children_of_mem_arguments {call arg : VertexId} (h : arg ∈ graph.arguments call) :
    arg ∈ graph.children call := by
  rw [arguments] at h
  split at h
  · exact List.mem_of_mem_drop h
  · exact h

theorem CodeGraph.mem_children_of_receiver? {call receiver : VertexId} (h : graph.receiver? call = some receiver) :
    receiver ∈ graph.children call := by
  rw [receiver?] at h
  split at h
  · exact mem_children_of_childAt? h
  · cases h

namespace Walker

section
variable {walker : Walker σ} {visitor : Visitor τ} {perform : Perform σ} {perform' : Perform τ}
    {failed related : σ → τ → Prop} {admits : List FrameOutline → Task → Prop} (hadmits : Admits walker.graph admits)
    (hperform : Performs admits failed related perform perform')
include hadmits hperform

/-! ## Classes and objects -/

theorem keeps_fieldValue {type field : VertexId} (hfield : field ∈ walker.graph.fields type) (declared : String)
    (outlines : List FrameOutline) :
    Keeps failed related (⟨[], []⟩ :: outlines) (walker.fieldValue perform field declared)
    ((walker.watchedBy visitor).fieldValue perform' field declared) := by
  rw [fieldValue, fieldValue, graph_watchedBy]
  cases hinit : walker.graph.childAt? field 0 with
  | none => exact .ret _
  | some init => exact (hperform.keeps (hadmits.field hfield (CodeGraph.mem_children_of_childAt? hinit) outlines)).map _

theorem keeps_setFields (type : VertexId) (static : Bool) {store : String → String → Value → WalkM σ Unit}
    {store' : String → String → Value → WalkM τ Unit} {outlines : List FrameOutline}
    (hstore : ∀ name declared value, Keeps failed related (⟨[], []⟩ :: outlines) (store name declared value)
    (store' name declared value)) :
    Keeps failed related (⟨[], []⟩ :: outlines) (walker.setFields perform type static store)
      ((walker.watchedBy visitor).setFields perform' type static store') := by
  refine (Agrees.forM _ fun field hfield => ?_).bind fun _ => .forM _ fun property _ => ?_
  · have hmem : field ∈ walker.graph.fields type := (List.mem_filter.mp hfield).1
    exact (keeps_fieldValue hadmits hperform hmem _ outlines).bind fun value => hstore _ _ value
  · rw [graph_watchedBy]
    cases walker.graph.name? property with
    | none => exact .ret _
    | some name => exact hstore ..

theorem keeps_initializeStaticFields (type : VertexId) (outlines : List FrameOutline) :
    Keeps failed related outlines (walker.initializeStaticFields perform type)
      ((walker.watchedBy visitor).initializeStaticFields perform' type) :=
  (agrees_pushFrame _).bind fun _ =>
  (keeps_setFields hadmits hperform type true fun _ _ _ => agrees_modifyStatics _).bind fun _ =>
    agrees_popFrame.bind fun _ => .ret _

theorem keeps_initializeClass (owner : String) (blocks : Option CodePath) {outlines : List FrameOutline}
    (hblocks : ∀ path ∈ blocks, admits outlines (.invoke path none [])) :
    Keeps failed related outlines (walker.initializeClass perform owner blocks)
      ((walker.watchedBy visitor).initializeClass perform' owner blocks) := by
  rw [initializeClass, initializeClass]
  refine agrees_symbols.bind fun symbols => (agrees_modifyStatics _).bind fun _ => ?_
  have hfinish : Keeps failed related outlines (modifyStatics (·.finish owner) : WalkM σ Unit)
      (modifyStatics (·.finish owner)) :=
    agrees_modifyStatics _
  split
  · rw [program_watchedBy]
    cases blocks with
    | none =>
      cases walker.program.typeNamed? owner with
      | none => exact hfinish
      | some type => exact (keeps_initializeStaticFields hadmits hperform type outlines).bind fun _ => hfinish
    | some path =>
      have hrun := (hperform.keeps (hblocks path rfl)).discard
      cases walker.program.typeNamed? owner with
      | none => exact hrun.bind fun _ => hfinish
      | some type =>
        exact (keeps_initializeStaticFields hadmits hperform type outlines).bind fun _ => hrun.bind fun _ => hfinish
  · exact .ret _

theorem keeps_ensureInitialized (type : VertexId) (outlines : List FrameOutline) :
    Keeps failed related outlines (walker.ensureInitialized perform type)
    ((walker.watchedBy visitor).ensureInitialized perform' type) := by
  rw [ensureInitialized, ensureInitialized, program_watchedBy]
  refine agrees_symbols.bind fun symbols => ?_
  split
  · exact keeps_initializeClass hadmits hperform _ none (by simp)
  · exact .ret _

theorem keeps_runStaticInits (path : CodePath) (anchor : Option VertexId) {outlines : List FrameOutline}
    (h : ∀ init ∈ path.staticInits, admits outlines (.invoke init.2.2 none [])) :
    Keeps failed related outlines (walker.runStaticInits perform path anchor)
      ((walker.watchedBy visitor).runStaticInits perform' path anchor) := by
  refine .forM _ fun init hinit => ?_
  obtain ⟨owner, at_, blocks⟩ := init
  refine keeps_initializeClass hadmits hperform owner (some blocks) fun path hpath => ?_
  cases hpath
  exact h _ (List.mem_filter.mp hinit).1

theorem keeps_instantiate (type : VertexId) (outlines : List FrameOutline) :
    Keeps failed related outlines (walker.instantiate perform type)
    ((walker.watchedBy visitor).instantiate perform' type) :=
  (agrees_onHeap _).bind fun ref =>
    (Agrees.forM _ fun owner _ => (agrees_pushFrame _).bind fun _ =>
      (keeps_setFields hadmits hperform owner false fun _ _ _ => agrees_onHeap _).bind fun _ =>
        agrees_popFrame.bind fun _ => .ret _).bind fun _ => .ret ref

/-! ## Names -/

theorem keeps_staticValue? (owner : VertexId) (name : String) (outlines : List FrameOutline) :
    Keeps failed related outlines (walker.staticValue? perform owner name)
    ((walker.watchedBy visitor).staticValue? perform' owner name) :=
  (keeps_ensureInitialized hadmits hperform owner outlines).bind fun _ => agrees_symbols.bind fun _ => .ret _

theorem keeps_declaredValue (binding : Binding) (name : String) (outlines : List FrameOutline) :
    Keeps failed related outlines (walker.declaredValue perform binding name)
      ((walker.watchedBy visitor).declaredValue perform' binding name) := by
  rw [declaredValue, declaredValue]
  cases staticOwner? binding.declared with
  | none => exact .ret _
  | some owner => exact (keeps_staticValue? hadmits hperform owner name outlines).bind fun _ => .ret _

theorem keeps_nameValue? (name : String) (place : VertexId) (top : FrameOutline) (rest : List FrameOutline) :
    Keeps failed related (top :: rest) (walker.nameValue? perform name place)
    ((walker.watchedBy visitor).nameValue? perform' name place) := by
  rw [nameValue?, nameValue?, program_watchedBy]
  refine agrees_frame.bind fun _ => agrees_symbols.bind fun symbols => ?_
  cases symbols.lookup? name with
  | some value => exact .ret _
  | none =>
    cases walker.program.variableBinding? name place with
    | none => exact .ret _
    | some binding => exact (keeps_declaredValue hadmits hperform binding name _).bind fun _ => .ret _

theorem keeps_staticMember? (type : VertexId) (name : String) (outlines : List FrameOutline) :
    Keeps failed related outlines (walker.staticMember? perform type name)
    ((walker.watchedBy visitor).staticMember? perform' type name) := by
  rw [staticMember?, staticMember?, program_watchedBy,
    show (walker.watchedBy visitor).enumConstant? = walker.enumConstant? from rfl]
  cases walker.enumConstant? type name with
  | some constant => exact .ret _
  | none =>
    cases walker.program.memberBinding? type name with
    | none => exact .ret _
    | some binding => exact (keeps_declaredValue hadmits hperform binding name _).bind fun _ => .ret _

omit hadmits hperform in
theorem keeps_membersOf (value : Value) (names : List String) (outlines : List FrameOutline) :
    Keeps failed related outlines (walker.membersOf value names) ((walker.watchedBy visitor).membersOf value names) :=
  agrees_heap.bind fun _ => .ret _

theorem keeps_resolveType (names : List String) (place : VertexId) (outlines : List FrameOutline) :
    Keeps failed related outlines (walker.resolveType perform names place)
    ((walker.watchedBy visitor).resolveType perform' names place) := by
  rw [resolveType, resolveType, show (walker.watchedBy visitor).namedType? = walker.namedType? from rfl]
  rcases walker.namedType? names place with _ | ⟨type, _ | ⟨name, rest⟩⟩
  · exact .ret _
  · exact .ret _
  · refine (keeps_staticMember? hadmits hperform type name _).bind fun value => ?_
    cases value with
    | none => exact .ret _
    | some value => exact (keeps_membersOf value rest _).bind fun _ => .ret _

theorem keeps_resolveNames (names : List String) (place : VertexId) (top : FrameOutline) (rest : List FrameOutline) :
    Keeps failed related (top :: rest) (walker.resolveNames perform names place)
      ((walker.watchedBy visitor).resolveNames perform' names place) := by
  cases names with
  | nil => exact .ret _
  | cons first names =>
    rw [resolveNames, resolveNames, show (walker.watchedBy visitor).triggerVariable? = walker.triggerVariable? from rfl]
    refine (keeps_nameValue? hadmits hperform first place top rest).bind fun value => ?_
    cases value with
    | some value => exact (keeps_membersOf value names _).bind fun _ => .ret _
    | none =>
      rcases walker.triggerVariable? (first :: names) place with _ | ⟨value, others⟩
      · exact keeps_resolveType hadmits hperform _ place _
      · exact (keeps_membersOf value others _).bind fun _ => .ret _

theorem keeps_variablePlace (name : String) (target : VertexId) (top : FrameOutline) (rest : List FrameOutline) :
    Keeps failed related (top :: rest) (walker.variablePlace perform name target)
      ((walker.watchedBy visitor).variablePlace perform' name target) := by
  rw [variablePlace, variablePlace, program_watchedBy]
  refine agrees_frame.bind fun frame => agrees_symbols.bind fun all => ?_
  split
  · exact .ret _
  cases frame.this.filter fun this => (all.heap.field? this name).isSome with
  | some this => exact .ret _
  | none =>
    cases frame.owner.filter fun owner => (all.statics.lookup? owner name).isSome with
    | some owner => exact .ret _
    | none =>
      rcases (walker.program.variableBinding? name target).map Binding.declared with
        _ | ⟨_⟩ | ⟨_⟩ | ⟨owner, _, _ | _⟩ | ⟨owner, _, _ | _⟩
      · exact .ret _
      · exact .ret _
      · exact .ret _
      · exact .ret _
      · exact (keeps_ensureInitialized hadmits hperform owner _).bind fun _ => .ret _
      · exact .ret _
      · exact (keeps_ensureInitialized hadmits hperform owner _).bind fun _ => .ret _

theorem keeps_staticPlace (type : VertexId) (name : String) (outlines : List FrameOutline) :
    Keeps failed related outlines (walker.staticPlace perform type name)
    ((walker.watchedBy visitor).staticPlace perform' type name) :=
  (keeps_ensureInitialized hadmits hperform _ outlines).bind fun _ => .ret _

/-! ## Expressions -/

section
variable {top : FrameOutline} {rest : List FrameOutline} {sites : Option CodePath} {expr : VertexId}
  (h : admits (top :: rest) (.eval sites expr))
include h

theorem keeps_part {part : VertexId} (hpart : part ∈ walker.graph.children expr) :
    Keeps failed related (top :: rest) (perform (.eval sites part)) (perform' (.eval sites part)) :=
    hperform.keeps (hadmits.part h hpart)

theorem keeps_partAt {index : Nat} {part : VertexId} (hpart : walker.graph.childAt? expr index = some part) :
    Keeps failed related (top :: rest) (perform (.eval sites part)) (perform' (.eval sites part)) :=
  keeps_part hadmits hperform h (CodeGraph.mem_children_of_childAt? hpart)

theorem keeps_invoke {site : VertexId} {path : CodePath} (hpath : attached? sites site = some path)
    (this : Option HeapRef) (args : List Value) :
    Keeps failed related (top :: rest) (perform (.invoke path this args)) (perform' (.invoke path this args)) :=
  hperform.keeps (hadmits.attached h hpath _ this args)

theorem keeps_evalAll {exprs : List VertexId} (hexprs : ∀ part ∈ exprs, part ∈ walker.graph.children expr) :
    Keeps failed related (top :: rest) (evalAll perform sites exprs) (evalAll perform' sites exprs) :=
  .mapM _ fun part hpart => keeps_part hadmits hperform h (hexprs part hpart)

theorem keeps_placeOf : Keeps failed related (top :: rest) (walker.placeOf perform sites expr)
    ((walker.watchedBy visitor).placeOf perform' sites expr) := by
  rw [placeOf, placeOf, graph_watchedBy]
  split
  · cases hqualifier : walker.graph.qualifier? expr with
    | none => exact keeps_variablePlace hadmits hperform _ expr top rest
    | some qualifier =>
      have hpart := keeps_partAt hadmits hperform h hqualifier
      dsimp only
      split
      · exact keeps_variablePlace hadmits hperform _ expr top rest
      · exact agrees_this?.bind fun _ => .ret _
      · exact agrees_this?.bind fun _ => .ret _
      · refine (keeps_resolveNames hadmits hperform _ expr top rest).bind fun denoted => ?_
        cases denoted with
        | value holder => exact .ret _
        | type type => exact keeps_staticPlace hadmits hperform type _ _
        | unknown => exact .ret _
      · exact hpart.bind fun _ => .ret _
  · cases hcontainer : walker.graph.childAt? expr 0 with
    | none => exact .ret _
    | some container =>
      cases hindex : walker.graph.childAt? expr 1 with
      | none => exact .ret _
      | some index =>
        exact (keeps_partAt hadmits hperform h hcontainer).bind fun _ =>
          (keeps_partAt hadmits hperform h hindex).bind fun _ => .ret _
  · exact .ret _

omit hadmits hperform h in
theorem keeps_thisValue (expr : VertexId) (outlines : List FrameOutline) :
    Keeps failed related outlines (walker.thisValue expr) ((walker.watchedBy visitor).thisValue expr) := by
  refine agrees_symbols.bind fun all => ?_
  split <;> exact .ret _

theorem keeps_accessorHolder : Keeps failed related (top :: rest) (walker.accessorHolder perform sites expr)
    ((walker.watchedBy visitor).accessorHolder perform' sites expr) := by
  rw [accessorHolder, accessorHolder, graph_watchedBy]
  cases hqualifier : walker.graph.qualifier? expr with
  | none => exact agrees_this?
  | some qualifier =>
    have hpart := keeps_partAt hadmits hperform h hqualifier
    dsimp only
    split
    · exact agrees_this?
    · exact agrees_this?
    · exact agrees_this?
    · refine (keeps_resolveNames hadmits hperform _ expr top rest).bind fun denoted => ?_
      cases denoted <;> exact .ret _
    · exact hpart.bind fun _ => .ret _

theorem keeps_readVariable : Keeps failed related (top :: rest) (walker.readVariable perform sites expr)
    ((walker.watchedBy visitor).readVariable perform' sites expr) := by
  rw [readVariable, readVariable, graph_watchedBy]
  cases hqualifier : walker.graph.qualifier? expr with
  | none => exact (keeps_nameValue? hadmits hperform _ expr top rest).bind fun _ => .ret _
  | some qualifier =>
    have hpart := keeps_partAt hadmits hperform h hqualifier
    dsimp only
    split
    · exact (keeps_nameValue? hadmits hperform _ expr top rest).bind fun _ => .ret _
    · exact agrees_this?.bind fun _ => agrees_heap.bind fun _ => .ret _
    · exact agrees_this?.bind fun _ => agrees_heap.bind fun _ => .ret _
    · refine (keeps_resolveNames hadmits hperform _ expr top rest).bind fun denoted => ?_
      cases denoted <;> exact .ret _
    · exact hpart.bind fun _ => agrees_heap.bind fun _ => .ret _

theorem keeps_evalVariable : Keeps failed related (top :: rest) (walker.evalVariable perform sites expr)
    ((walker.watchedBy visitor).evalVariable perform' sites expr) := by
  rw [evalVariable, evalVariable]
  cases hgetter : attached? sites expr with
  | none => exact keeps_readVariable hadmits hperform h
  | some getter =>
    exact (keeps_accessorHolder hadmits hperform h).bind fun holder => keeps_invoke hadmits hperform h hgetter holder []

theorem keeps_callTarget? : Keeps failed related (top :: rest) (walker.callTarget? perform sites expr)
    ((walker.watchedBy visitor).callTarget? perform' sites expr) := by
  rw [callTarget?, callTarget?, graph_watchedBy]
  cases hreceiver : walker.graph.receiver? expr with
  | none => exact .ret _
  | some receiver =>
    have hpart := keeps_part hadmits hperform h (CodeGraph.mem_children_of_receiver? hreceiver)
    dsimp only
    split
    · exact .ret _
    · exact .ret _
    · exact .ret _
    · refine (keeps_resolveNames hadmits hperform _ expr top rest).bind fun denoted => ?_
      cases denoted <;> exact .ret _
    · exact hpart.bind fun _ => .ret _

theorem keeps_evalCall : Keeps failed related (top :: rest) (walker.evalCall perform sites expr)
    ((walker.watchedBy visitor).evalCall perform' sites expr) := by
  rw [evalCall, evalCall, graph_watchedBy]
  refine (keeps_callTarget? hadmits hperform h).bind fun target =>
    (keeps_evalAll hadmits hperform h fun _ => CodeGraph.mem_children_of_mem_arguments).bind fun args => ?_
  cases hcallee : attached? sites expr with
  | some callee =>
    have hinvoke := keeps_invoke hadmits hperform h hcallee
    rcases target with _ | ⟨value⟩ | ⟨type⟩
    · exact agrees_this?.bind fun this => hinvoke this args
    · exact hinvoke value.ref? args
    · exact hinvoke none args
  | none =>
    cases target with
    | none => exact .ret _
    | some target => exact (agrees_callLibrary? ..).bind fun _ => .ret _

omit hadmits hperform h in
theorem keeps_newCollection (type : String) (source : Option Value) (outlines : List FrameOutline) :
    Keeps failed related outlines (newCollection type source : WalkM σ Value) (newCollection type source) :=
    agrees_onHeap _

theorem keeps_newRecord (type : String) {args : List VertexId}
    (hargs : ∀ arg ∈ args, arg ∈ walker.graph.children expr) :
    Keeps failed related (top :: rest) (walker.newRecord perform sites type args)
      ((walker.watchedBy visitor).newRecord perform' sites type args) := by
  refine (agrees_onHeap _).bind fun ref => (Agrees.forM _ fun arg harg => ?_).bind fun _ => .ret _
  rw [show (walker.watchedBy visitor).fieldArgument? = walker.fieldArgument? from rfl]
  cases hfield : walker.fieldArgument? arg with
  | none => exact (keeps_part hadmits hperform h (hargs arg harg)).discard
  | some entry =>
    obtain ⟨name, value⟩ := entry
    have hvalue : value ∈ walker.graph.children arg := by
      rw [fieldArgument?] at hfield
      simp only [Option.bind_eq_bind, Option.bind_eq_some_iff, Option.pure_def, Option.some.injEq,
        Prod.mk.injEq] at hfield
      obtain ⟨_, -, _, -, _, -, found, hfound, -, rfl⟩ := hfield
      exact CodeGraph.mem_children_of_childAt? hfound
    exact (keeps_part hadmits hperform (hadmits.part h (hargs arg harg)) hvalue).bind fun _ => agrees_onHeap _

theorem keeps_evalNew : Keeps failed related (top :: rest) (walker.evalNew perform sites expr)
    ((walker.watchedBy visitor).evalNew perform' sites expr) := by
  have hargs : ∀ arg ∈ walker.graph.arguments expr, arg ∈ walker.graph.children expr :=
    fun _ => CodeGraph.mem_children_of_mem_arguments
  rw [evalNew, evalNew, graph_watchedBy,
    program_watchedBy]
  dsimp only
  split
  · exact agrees_onHeap _
  split
  · exact (keeps_evalAll hadmits hperform h hargs).bind fun _ => keeps_newCollection ..
  split
  · rename_i declared _
    refine (keeps_evalAll hadmits hperform h hargs).bind fun args =>
      (keeps_ensureInitialized hadmits hperform declared _).bind fun _ =>
        (keeps_instantiate hadmits hperform declared _).bind fun ref => ?_
    cases hconstructor : attached? sites expr with
    | none => exact .ret _
    | some constructor => exact (keeps_invoke hadmits hperform h hconstructor _ args).discard.bind fun _ => .ret _
  · exact keeps_newRecord hadmits hperform h _ hargs

theorem keeps_evalElements (isSet : Bool) : Keeps failed related (top :: rest)
    (walker.evalElements perform sites expr isSet)
    ((walker.watchedBy visitor).evalElements perform' sites expr isSet) :=
  (keeps_evalAll hadmits hperform h fun _ => id).bind fun _ => agrees_onHeap _

theorem keeps_evalEntries : Keeps failed related (top :: rest) (walker.evalEntries perform sites expr)
    ((walker.watchedBy visitor).evalEntries perform' sites expr) := by
  refine (Agrees.mapM _ fun entry hentry => ?_).bind fun _ => agrees_onHeap _
  obtain ⟨key, value⟩ := entry
  obtain ⟨node, hnode, hparts⟩ := List.mem_filterMap.mp hentry
  have hnode : node ∈ walker.graph.children expr := (List.mem_filter.mp hnode).1
  simp only [Option.bind_eq_bind, Option.bind_eq_some_iff, Option.pure_def, Option.some.injEq, Prod.mk.injEq] at hparts
  obtain ⟨_, hkey, _, hvalue, rfl, rfl⟩ := hparts
  have hinside := hadmits.part h hnode
  exact (keeps_partAt hadmits hperform hinside hkey).bind fun _ =>
    (keeps_partAt hadmits hperform hinside hvalue).bind fun _ => .ret _

theorem keeps_operands {left right : VertexId} (hoperands : walker.operands? expr = some (left, right)) :
    Keeps failed related (top :: rest) (perform (.eval sites left)) (perform' (.eval sites left)) ∧
      Keeps failed related (top :: rest) (perform (.eval sites right)) (perform' (.eval sites right)) := by
  rw [operands?] at hoperands
  simp only [Option.bind_eq_bind, Option.bind_eq_some_iff, Option.pure_def, Option.some.injEq,
    Prod.mk.injEq] at hoperands
  obtain ⟨_, hleft, _, hright, rfl, rfl⟩ := hoperands
  exact ⟨keeps_partAt hadmits hperform h hleft, keeps_partAt hadmits hperform h hright⟩

theorem keeps_evalBinary : Keeps failed related (top :: rest) (walker.evalBinary perform sites expr)
    ((walker.watchedBy visitor).evalBinary perform' sites expr) := by
  rw [evalBinary, evalBinary, operands?_watchedBy]
  cases hoperands : walker.operands? expr with
  | none => exact .ret _
  | some operands =>
    obtain ⟨hleft, hright⟩ := keeps_operands hadmits hperform h hoperands
    exact hleft.bind fun _ => hright.bind fun _ => .ret _

theorem keeps_evalBoolean : Keeps failed related (top :: rest) (walker.evalBoolean perform sites expr)
    ((walker.watchedBy visitor).evalBoolean perform' sites expr) := by
  rw [evalBoolean, evalBoolean, operands?_watchedBy,
    operatorOf_watchedBy]
  cases hoperands : walker.operands? expr with
  | none => exact .ret _
  | some operands =>
    obtain ⟨hleft, hright⟩ := keeps_operands hadmits hperform h hoperands
    refine hleft.bind fun left => ?_
    split
    · cases Operator.shortCircuit? (walker.operatorOf expr "==") left with
      | some decided => exact .ret _
      | none => exact hright.bind fun _ => .ret _
    · exact hright.bind fun _ => .ret _

theorem keeps_evalAssignment : Keeps failed related (top :: rest) (walker.evalAssignment perform sites expr)
    ((walker.watchedBy visitor).evalAssignment perform' sites expr) := by
  rw [evalAssignment, evalAssignment, operands?_watchedBy,
    operatorOf_watchedBy]
  cases hoperands : walker.operands? expr with
  | none => exact .ret _
  | some operands =>
    obtain ⟨target, source⟩ := operands
    have htarget : admits (top :: rest) (.eval sites target) := by
      rw [operands?] at hoperands
      simp only [Option.bind_eq_bind, Option.bind_eq_some_iff, Option.pure_def, Option.some.injEq,
        Prod.mk.injEq] at hoperands
      obtain ⟨_, hleft, _, -, rfl, -⟩ := hoperands
      exact hadmits.part h (CodeGraph.mem_children_of_childAt? hleft)
    refine (keeps_placeOf hadmits hperform htarget).bind fun place =>
      (keeps_operands hadmits hperform h hoperands).2.bind fun assigned => ?_
    have hstore : ∀ value : Value, Keeps failed related (top :: rest) (store perform sites expr place value)
        (store perform' sites expr place value) := by
      intro value
      rw [store, store]
      cases hsetter : attached? sites expr with
      | none => exact (place.keeps_write value).bind fun _ => .ret _
      | some setter =>
        have hinvoke : ∀ holder, Keeps failed related (top :: rest) (discard (perform (.invoke setter holder [value])))
            (discard (perform' (.invoke setter holder [value]))) :=
            fun holder => (keeps_invoke hadmits hperform h hsetter holder [value]).discard
        cases place
        case field object name => exact (hinvoke (some object)).bind fun _ => .ret _
        all_goals exact agrees_this?.bind fun holder => (hinvoke holder).bind fun _ => .ret _
    cases compound? (walker.operatorOf expr "=") with
    | none => exact hstore assigned
    | some op => exact place.keeps_read?.bind fun current => hstore _

theorem keeps_evalTernary : Keeps failed related (top :: rest) (walker.evalTernary perform sites expr)
    ((walker.watchedBy visitor).evalTernary perform' sites expr) := by
  rw [evalTernary, evalTernary, operands?_watchedBy,
    graph_watchedBy]
  cases hoperands : walker.operands? expr with
  | none => exact .ret _
  | some operands =>
    cases hno : walker.graph.childAt? expr 2 with
    | none => exact .ret _
    | some no =>
      obtain ⟨hcondition, hyes⟩ := keeps_operands hadmits hperform h hoperands
      have hno := keeps_partAt hadmits hperform h hno
      refine hcondition.bind fun condition => ?_
      rcases condition.bool? with _ | _ | _
      · exact hyes.bind fun _ => hno.bind fun _ => .ret _
      · exact hno
      · exact hyes

theorem keeps_evalCast : Keeps failed related (top :: rest) (walker.evalCast perform sites expr)
    ((walker.watchedBy visitor).evalCast perform' sites expr) := by
  rw [evalCast, evalCast, graph_watchedBy]
  cases hoperand : walker.graph.childAt? expr 0 with
  | none => exact .ret _
  | some operand => exact (keeps_partAt hadmits hperform h hoperand).bind fun _ => .ret _

theorem keeps_evalInstanceOf : Keeps failed related (top :: rest) (walker.evalInstanceOf perform sites expr)
    ((walker.watchedBy visitor).evalInstanceOf perform' sites expr) := by
  rw [evalInstanceOf, evalInstanceOf, graph_watchedBy]
  cases hoperand : walker.graph.childAt? expr 0 with
  | none => exact .ret _
  | some operand => exact (keeps_partAt hadmits hperform h hoperand).bind fun _ => .ret _

theorem keeps_evalElement : Keeps failed related (top :: rest) (walker.evalElement perform sites expr)
    ((walker.watchedBy visitor).evalElement perform' sites expr) := by
  rw [evalElement, evalElement, operands?_watchedBy]
  cases hoperands : walker.operands? expr with
  | none => exact .ret _
  | some operands =>
    obtain ⟨hcontainer, hindex⟩ := keeps_operands hadmits hperform h hoperands
    exact hcontainer.bind fun _ => hindex.bind fun _ => (agrees_callLibrary? ..).bind fun _ => .ret _

section
variable (hsees : SeesExpressions related walker.visitor visitor)
include hsees

theorem keeps_evalUnary :
    Keeps failed related (top :: rest) (walker.evalUnary perform sites expr)
    ((walker.watchedBy visitor).evalUnary perform' sites expr) := by
  rw [evalUnary, evalUnary, graph_watchedBy,
    operatorOf_watchedBy]
  cases hoperand : walker.graph.childAt? expr 0 with
  | none => exact .ret _
  | some operand =>
    have hadmitted := hadmits.part h (CodeGraph.mem_children_of_childAt? hoperand)
    dsimp only
    split
    · refine (keeps_placeOf hadmits hperform hadmitted).bind fun place => place.keeps_read?.bind fun current => ?_
      exact (hsees.keeps_notify operand _ _).bind fun _ => (place.keeps_write _).bind fun _ => .ret _
    · exact (keeps_partAt hadmits hperform h hoperand).bind fun _ => .ret _

/-- Every kind of expression is evaluated alike. -/
theorem keeps_evalKind :
    Keeps failed related (top :: rest) (walker.evalKind perform sites expr)
    ((walker.watchedBy visitor).evalKind perform' sites expr) := by
  rw [evalKind, evalKind, graph_watchedBy]
  split
  · exact .ret _
  · exact keeps_evalVariable hadmits hperform h
  · exact keeps_thisValue expr _
  · exact keeps_thisValue expr _
  · exact keeps_evalCall hadmits hperform h
  · exact keeps_evalCall hadmits hperform h
  · exact keeps_evalCall hadmits hperform h
  · exact keeps_evalNew hadmits hperform h
  · exact keeps_evalElements hadmits hperform h false
  · exact keeps_evalElements hadmits hperform h true
  · exact keeps_evalEntries hadmits hperform h
  · exact keeps_evalBinary hadmits hperform h
  · exact keeps_evalBoolean hadmits hperform h
  · exact keeps_evalUnary hadmits hperform h hsees
  · exact keeps_evalUnary hadmits hperform h hsees
  · exact keeps_evalAssignment hadmits hperform h
  · exact keeps_evalTernary hadmits hperform h
  · exact keeps_evalCast hadmits hperform h
  · exact keeps_evalInstanceOf hadmits hperform h
  · exact keeps_evalElement hadmits hperform h
  · exact agrees_onHeap _
  · exact .ret _
  · exact .ret _

/-- Evaluation of an expression does the same under another visitor. -/
theorem keeps_evalExpression :
    Keeps failed related (top :: rest) (walker.evalExpression perform sites expr)
      ((walker.watchedBy visitor).evalExpression perform' sites expr) :=
  (keeps_evalKind hadmits hperform h hsees).bind fun _ => (hsees.keeps_notify expr _ _).bind fun _ => .ret _

end

end

end

end Walker

end ApexPaths
