import ApexPaths.Proofs.Walk.Safe
import Mathlib.Logic.Relation

/-!
Safety of evaluation. An expression is safe to evaluate where its parts, the paths attached to its sites, the
initializers of the static fields of classes that are not begun, and those of the fields of the objects that it
creates are.
-/

namespace ApexPaths
set_option autoImplicit false

open WalkM Safe List

variable {σ : Type}

/-! ## Nested work -/

/-- The values that a task brings along mention valid references only. -/
def Contract.AdmitsTask (contract : Contract) (heap : Heap) : Task → Prop
  | .eval .. => True
  | .invoke _ this args => (∀ ref ∈ this, contract.valid heap ref) ∧ ∀ arg ∈ args, contract.Admits heap arg

/-- A task is safe from a state on. -/
structure Ready (duty : Duty σ) (perform : Perform σ) (state : WalkState σ) (task : Task) : Prop where
  safe : ∀ next, Sound duty next → state.Advances next → duty.AdmitsTask next.symbols.heap task →
    Safe duty next (perform task) (Gives duty)

/-- From a state on, classes are safe to initialize: those that any type names, and others that are known. Where a class
is not begun, the initializers of static fields are safe once it is. -/
structure Initializes (walker : Walker σ) (duty : Duty σ) (perform : Perform σ) (known : String → Prop)
    (state : WalkState σ) : Prop where
  named : ∀ type, known (walker.program.nameOf type)
  ready : ∀ {owner next begun}, known owner → state.Advances next → next.symbols.statics.state owner = .uninitialized →
    next.Advances begun → begun.symbols.statics.state owner ≠ .uninitialized →
    ∀ init, Ready duty perform begun (.eval none init)

/-- An expression below another one. -/
abbrev CodeGraph.Inside (graph : CodeGraph) : VertexId → VertexId → Prop :=
  Relation.TransGen fun expr part => part ∈ graph.children expr

namespace Walker

/-- The initializers of the static fields of a type, or of the others. -/
def fieldInits (walker : Walker σ) (type : VertexId) (static : Bool) : List VertexId :=
  ((walker.graph.fields type).filter (walker.isStaticField · == static)).filterMap (walker.graph.childAt? · 0)

/-- The declared type of which an expression creates an object. -/
def created? (walker : Walker σ) (expr : VertexId) : Option VertexId :=
  let spelled := (walker.graph.text? expr (.spelled .type)).getD "Object"
  if walker.graph.labelOf expr = .newObjectExpression ∧ isArray spelled = false ∧
    TypeName.isCollection (TypeName.canonical spelled) = false then
    walker.program.lookup? (walker.graph.enclosingType? expr) (TypeName.canonical spelled)
  else none

end Walker

/-- From a state on, all that the evaluation of an expression nests is safe. -/
structure Nested (walker : Walker σ) (duty : Duty σ) (perform : Perform σ) (known : String → Prop) (state : WalkState σ)
    (sites : Option CodePath) (expr : VertexId) : Prop where
  part : ∀ {part}, walker.graph.Inside expr part → Ready duty perform state (.eval sites part)
  attached : ∀ {site path}, Walker.attached? sites site = some path → ∀ this args,
    Ready duty perform state (.invoke path this args)
  classes : Initializes walker duty perform known state
  objects : ∀ {type}, walker.created? expr = some type → ∀ owner ∈ walker.fieldOwners type,
    ∀ init ∈ walker.fieldInits owner false, Ready duty perform state (.eval none init)
  watched : ApexPaths.Watched duty walker.visitor

section
variable {walker : Walker σ} {duty : Duty σ} {perform : Perform σ} {known : String → Prop} {state next : WalkState σ}

theorem Ready.later {task : Task} (h : Ready duty perform state task) (hnext : state.Advances next) :
    Ready duty perform next task :=
  ⟨fun later hsound hlater => h.safe later hsound (hnext.trans hlater)⟩

theorem Ready.eval {sites : Option CodePath} {expr : VertexId} (h : Ready duty perform state (.eval sites expr))
    (hstate : Sound duty state) : Safe duty state (perform (.eval sites expr)) (Gives duty) :=
  h.safe state hstate (WalkState.Leads.refl state).toAdvances trivial

theorem Ready.invoke {path : CodePath} {this : Option HeapRef} {args : List Value}
    (h : Ready duty perform state (.invoke path this args)) (hstate : Sound duty state) (hthis : ∀ ref ∈ this,
    duty.valid state.symbols.heap ref)
    (hargs : ∀ arg ∈ args, duty.Admits state.symbols.heap arg) : Safe duty state (perform (.invoke path this args))
    (Gives duty) :=
  h.safe state hstate (WalkState.Leads.refl state).toAdvances ⟨hthis, hargs⟩

theorem Initializes.later (h : Initializes walker duty perform known state) (hnext : state.Advances next) :
    Initializes walker duty perform known next :=
  ⟨h.named, fun hknown hmiddle => h.ready hknown (hnext.trans hmiddle)⟩

theorem Nested.later {sites : Option CodePath} {expr : VertexId}
    (h : Nested walker duty perform known state sites expr) (hnext : state.Advances next) :
    Nested walker duty perform known next sites expr :=
  ⟨fun hpart => (h.part hpart).later hnext, fun hpath this args => (h.attached hpath this args).later hnext,
  h.classes.later hnext, fun htype owner howner init hinit => (h.objects htype owner howner init hinit).later hnext,
  h.watched⟩

end

theorem Safe.Gives.later {duty : Duty σ} {state next : WalkState σ} {value : Value} (h : Gives duty state value)
    (hnext : state.Leads next) : Gives duty next value := h.grow hnext.heap

variable {place : Place}

namespace Place

/-- The objects of a place are valid. -/
def Admitted (contract : Contract) (heap : Heap) : Place → Prop
  | .field object _ => contract.valid heap object
  | .element container index => contract.Admits heap container ∧ contract.Admits heap index
  | .variable _ | .static .. | .unknown => True

theorem Admitted.grow {contract : Contract} {heap later : Heap} (h : place.Admitted contract heap)
    (hgrows : heap.Grows later) : place.Admitted contract later := by
  cases place with
  | field object name => exact contract.grow hgrows h
  | element container index => exact ⟨h.1.grow hgrows, h.2.grow hgrows⟩
  | _ => trivial

variable {duty : Duty σ} {state : WalkState σ}

theorem safe_elementOf? (hstate : Sound duty state) {container index : Value}
    (hcontainer : duty.Admits state.symbols.heap container) (hindex : duty.Admits state.symbols.heap index) :
    Safe duty state (elementOf? container index) (GivesAny duty) :=
  have hargs : ∀ v ∈ [container, index], duty.Admits state.symbols.heap v :=
    forall_mem_cons.mpr ⟨hcontainer, forall_mem_singleton.mpr hindex⟩
  .callLibrary? hstate hargs

theorem safe_read? (hstate : Sound duty state) (hplace : place.Admitted duty.toContract state.symbols.heap) :
    Safe duty state place.read? (GivesAny duty) := by
  cases place with
  | «variable» name =>
    refine .symbols_bind (.pure hstate fun value hvalue => ?_)
    obtain ⟨found, hfound, rfl⟩ := Option.map_eq_some_iff.mp hvalue
    obtain ⟨frame, hframe, hfound⟩ := Option.bind_eq_some_iff.mp hfound
    exact (hstate.frame? hframe).1 _ (Frame.mem_values_of_lookup? hfound)
  | field object name => exact .heap_bind (.pure hstate fun value hvalue => hstate.heap.field? hvalue)
  | static owner name =>
    refine .symbols_bind (.pure hstate fun value hvalue => ?_)
    obtain ⟨found, hfound, rfl⟩ := Option.map_eq_some_iff.mp hvalue
    exact hstate.statics_lookup? hfound
  | element container index => exact safe_elementOf? hstate hplace.1 hplace.2
  | unknown => exact .pure hstate nofun

/-- A write to an admitted place is safe. -/
theorem safe_write (hstate : Sound duty state) (hplace : place.Admitted duty.toContract state.symbols.heap)
    {value : Value} (hvalue : duty.Admits state.symbols.heap value) : Safe duty state (place.write value) fun _ _ =>
    True := by
  cases place with
  | «variable» name =>
    refine ⟨?_, .of_eq ?_ ?_, trivial⟩
    · show Sound duty { state with symbols := state.symbols.mapFrame _ }
      rw [Symbols.mapFrame]
      split
      · exact hstate
      · rename_i frame frames hframes
        have hold := hstate.frames
        rw [hframes] at hold
        obtain ⟨hfirst, hrest⟩ := forall_mem_cons.mp hold
        exact hstate.withFrames (forall_mem_cons.mpr ⟨hfirst.assigned hvalue name, hrest⟩)
    · show (state.symbols.mapFrame _).heap = _
      rw [Symbols.mapFrame]
      split <;> rfl
    · show (state.symbols.mapFrame _).statics = _
      rw [Symbols.mapFrame]
      split <;> rfl
  | field object name =>
    exact Safe.onHeap (f := fun heap => ((), heap.setField object name value)) hstate (.setField _ object name value)
      (hstate.heap.setField object name hvalue) fun _ _ => trivial
  | static owner name =>
    exact Safe.modifyStatics (f := (·.write owner name value)) hstate
      (StaticScopes.forall_write hstate.statics hvalue owner name) fun other => StaticScopes.state_write ..
  | element container index =>
    have hargs : ∀ v ∈ [container, index, value], duty.Admits state.symbols.heap v :=
      forall_mem_cons.mpr ⟨hplace.1, forall_mem_cons.mpr ⟨hplace.2, forall_mem_singleton.mpr hvalue⟩⟩
    have hcall : ∀ method, Safe duty state (WalkM.callLibrary? (.value container) method [index, value])
        (GivesAny duty) :=
      fun method => .callLibrary? hstate hargs
    exact (hcall _).discard
  | unknown => exact .pure hstate trivial

end Place

variable {type : VertexId}

namespace Walker

variable {walker : Walker σ} {duty : Duty σ} {perform : Perform σ} {known : String → Prop} {state : WalkState σ}

/-! ## Classes and objects -/

theorem safe_fieldValue (hstate : Sound duty state) {field : VertexId} (type : String)
    (hinit : ∀ init, walker.graph.childAt? field 0 = some init → Ready duty perform state (.eval none init)) :
    Safe duty state (walker.fieldValue perform field type) (Gives duty) := by
  rw [fieldValue]
  cases hchild : walker.graph.childAt? field 0 with
  | none => exact .pure hstate (Contract.admits_of_silent ((Value.silent_nullOf type).withOrigin field))
  | some init => exact ((hinit init hchild).eval hstate).map fun next value hvalue => hvalue.retyped type

theorem safe_setFields (hstate : Sound duty state) {static : Bool}
    (hinits : ∀ init ∈ walker.fieldInits type static, Ready duty perform state (.eval none init)) {store : String →
    String → Value → WalkM σ Unit}
    (hstore : ∀ name declared value next, Sound duty next → state.Leads next → duty.Admits next.symbols.heap value →
      Safe duty next (store name declared value) fun _ _ => True) :
    Safe duty state (walker.setFields perform type static store) fun _ _ => True := by
  refine (Safe.forM hstate fun field hfield next hnext hleads => ?_).bind fun middle _ hmiddle hbetween _ =>
    .forM hmiddle fun property _ next hnext hleads => ?_
  · have hvalue : Safe duty next (walker.fieldValue perform field ((walker.graph.declaredType? field).getD "Object"))
        (Gives duty) :=
      safe_fieldValue hnext _ fun init hinit =>
      (hinits init (mem_filterMap.mpr ⟨field, hfield, hinit⟩)).later hleads.toAdvances
    exact hvalue.bind fun later value hlater hafter hgives => hstore _ _ value later hlater (hleads.trans hafter) hgives
  · dsimp only
    cases walker.graph.name? property with
    | none => exact .pure hnext trivial
    | some name =>
      exact hstore _ _ _ next hnext (hbetween.trans hleads) (Contract.admits_of_silent (Value.silent_nullOf _))

theorem safe_initializeStaticFields (hstate : Sound duty state)
    (hinits : ∀ init, Ready duty perform state (.eval none init)) :
    Safe duty state (walker.initializeStaticFields perform type) fun _ _ => True := by
  refine (Safe.pushFrame hstate (Contract.admitsFrame_of_empty _ none nofun)).bind fun next _ hnext hleads _ => ?_
  refine (safe_setFields hnext (fun init _ => (hinits init).later hleads.toAdvances)
    fun name declared value later hlater _ hvalue => ?_).bind fun later _ hlater _ _ => (Safe.popFrame hlater).discard
  exact .modifyStatics hlater (StaticScopes.forall_declare hlater.statics hvalue _ name declared) fun other =>
    StaticScopes.state_declare ..

/-- The state in which the initialization of a class is begun. -/
def opening (state : WalkState σ) (owner : String) : WalkState σ :=
  { state with symbols := { state.symbols with statics := (state.symbols.statics.begin owner).2 } }

theorem sound_opening (hstate : Sound duty state) (owner : String) : Sound duty (opening state owner) :=
  hstate.withStatics (StaticScopes.forall_begin hstate.statics owner)

theorem advances_opening (state : WalkState σ) (owner : String) : state.Advances (opening state owner) := by
  refine ⟨.refl _, fun other hbegun => ?_⟩
  rw [opening, StaticScopes.state_begin]
  split
  · simp
  · exact hbegun

theorem begun_opening (state : WalkState σ) (owner : String) :
    (opening state owner).symbols.statics.state owner ≠ .uninitialized := by
  rw [opening, StaticScopes.state_begin]
  split
  · simp
  · rename_i h
    exact fun huninitialized => h ⟨rfl, huninitialized⟩

theorem safe_finish {owner : String} (huninitialized : state.symbols.statics.state owner = .uninitialized)
    {m : WalkM σ Unit} (h : Safe duty (opening state owner) m fun _ _ => True) :
    Closes duty state (fun _ _ => True)
    ((m >>= fun _ => modifyStatics (·.finish owner)).run (opening state owner)) := by
  rw [run_bind]
  have hrun := h.run
  generalize m.run (opening state owner) = result at hrun
  obtain ⟨error | _, left⟩ := result
  · exact hrun
  · obtain ⟨hsound, hleads, -⟩ := hrun
    have hstates : ∀ other, (left.symbols.statics.finish owner).state other =
        if Text.lower owner = Text.lower other then .initialized else left.symbols.statics.state other :=
          fun other => StaticScopes.state_finish ..
    refine ⟨hsound.withStatics (StaticScopes.forall_finish hsound.statics owner),
      ⟨⟨hleads.heap, fun other hbegun => ?_⟩, fun other => ?_⟩, trivial⟩
    · show (left.symbols.statics.finish owner).state other ≠ _
      rw [hstates]
      split
      · simp
      · exact hleads.begun other ((advances_opening state owner).begun other hbegun)
    · show (left.symbols.statics.finish owner).state other = _ ↔ _
      rw [hstates]
      split
      · rename_i heq
        rw [← state.symbols.statics.state_congr heq, huninitialized]
        simp
      · rename_i hne
        rw [hleads.opened, opening, StaticScopes.state_begin, if_neg (fun hboth => hne hboth.1)]

section
variable (hstate : Sound duty state)
include hstate

/-- Initializing a class is safe. -/
theorem safe_initializeClass {owner : String} {blocks : Option CodePath} (hknown : known owner)
    (hclasses : Initializes walker duty perform known state) (hblocks : ∀ path ∈ blocks,
    Ready duty perform state (.invoke path none [])) :
    Safe duty state (walker.initializeClass perform owner blocks) fun _ _ => True := by
  rw [initializeClass]
  refine .symbols_bind ⟨?_⟩
  dsimp only
  have hstart : ∀ {m : WalkM σ Unit},
    (modifyStatics (fun _ => (state.symbols.statics.begin owner).2) >>= fun _ => m).run state =
    m.run (opening state owner) := rfl
  rw [hstart, StaticScopes.begin_fst]
  have hsound := sound_opening hstate owner
  by_cases huninitialized : state.symbols.statics.state owner = .uninitialized
  · have hfields : ∀ type, Safe duty (opening state owner) (walker.initializeStaticFields perform type) fun _ _ =>
      True := fun type =>
      safe_initializeStaticFields hsound fun init =>
      hclasses.ready hknown (WalkState.Leads.refl state).toAdvances huninitialized (advances_opening state owner)
      (begun_opening state owner) init
    have hrun : ∀ path ∈ blocks, ∀ next, Sound duty next → (opening state owner).Leads next →
        Safe duty next (discard (perform (.invoke path none []))) fun _ _ => True := fun path hpath next hnext hleads =>
      (((hblocks path hpath).later ((advances_opening state owner).trans hleads.toAdvances)).invoke hnext
      nofun nofun).discard
    rw [decide_eq_true huninitialized, if_pos rfl]
    cases blocks with
    | none =>
      cases walker.program.typeNamed? owner with
      | none => exact safe_finish (m := Pure.pure ()) huninitialized (.pure hsound trivial)
      | some type => exact safe_finish huninitialized (hfields type)
    | some path =>
      cases walker.program.typeNamed? owner with
      | none => exact safe_finish huninitialized (hrun path rfl _ hsound (.refl _))
      | some type =>
        have hboth : Safe duty (opening state owner) (do
            walker.initializeStaticFields perform type
            discard (perform (.invoke path none []))) fun _ _ => True :=
          (hfields type).bind fun next _ hnext hleads _ => hrun path rfl next hnext hleads
        have hfinish := safe_finish huninitialized hboth
        rwa [bind_assoc] at hfinish
  · have hsame : (state.symbols.statics.begin owner).2.state = state.symbols.statics.state := by
      funext other
      rw [StaticScopes.state_begin, if_neg (fun hboth => huninitialized hboth.2)]
    rw [decide_eq_false huninitialized]
    exact ⟨hsound, .of_state (.refl _) fun other => congrFun hsame other, trivial⟩

theorem safe_ensureInitialized (hclasses : Initializes walker duty perform known state) (type : VertexId) :
    Safe duty state (walker.ensureInitialized perform type) fun _ _ => True := by
  rw [ensureInitialized]
  refine .symbols_bind ?_
  split
  · exact safe_initializeClass hstate (hclasses.named type) hclasses nofun
  · exact .pure hstate trivial

theorem safe_runStaticInits (hclasses : Initializes walker duty perform known state) {path : CodePath}
    (anchor : Option VertexId) (hknown : ∀ init ∈ path.staticInits, known init.1)
    (hinits : ∀ init ∈ path.staticInits, Ready duty perform state (.invoke init.2.2 none [])) :
    Safe duty state (walker.runStaticInits perform path anchor) fun _ _ => True := by
  refine .forM hstate fun init hinit next hnext hleads => ?_
  obtain ⟨owner, at_, blocks⟩ := init
  have hmem := (mem_filter.mp hinit).1
  refine safe_initializeClass hnext (hknown _ hmem) (hclasses.later hleads.toAdvances) fun path hpath => ?_
  cases hpath
  exact (hinits _ hmem).later hleads.toAdvances

theorem safe_instantiate
    (hinits : ∀ owner ∈ walker.fieldOwners type, ∀ init ∈ walker.fieldInits owner false,
    Ready duty perform state (.eval none init)) :
    Safe duty state (walker.instantiate perform type) fun next ref => duty.valid next.symbols.heap ref := by
  have hnew : Safe duty state (WalkM.onHeap (·.allocate (.instanceOf (walker.program.nameOf type)))) fun next ref =>
      duty.valid next.symbols.heap ref :=
    .onHeap hstate (.allocate _ _) (hstate.heap.allocate nofun) fun next hnext => by
      rw [hnext]
      exact duty.fresh ..
  refine hnew.bind fun created ref hcreated hleads hvalid => ?_
  have hfields : Safe duty created ((walker.fieldOwners type).forM fun owner => do
      pushFrame { owner := some (walker.graph.qualifiedName owner), this := some ref }
      walker.setFields perform owner false fun name _ value =>
        WalkM.onHeap fun heap => ((), heap.setField ref name value)
      discard popFrame) fun _ _ => True := by
    refine .forM hcreated fun owner howner next hnext hbetween => ?_
    have hframe : duty.AdmitsFrame next.symbols.heap
        { owner := some (walker.graph.qualifiedName owner), this := some ref } :=
      Contract.admitsFrame_of_empty _ (some ref) fun other hother => Option.some.inj hother ▸
      duty.grow hbetween.heap hvalid
    refine (Safe.pushFrame hnext hframe).bind fun entered _ hentered hinside _ => ?_
    have hfields : Safe duty entered (walker.setFields perform owner false fun name _ value =>
        WalkM.onHeap fun heap => ((), heap.setField ref name value)) fun _ _ => True :=
      safe_setFields hentered (fun init hinit =>
      (hinits owner howner init hinit).later ((hleads.trans hbetween).trans hinside).toAdvances)
      fun name _ value later hlater _ hvalue =>
      Safe.onHeap hlater (.setField _ ref name value) (hlater.heap.setField ref name hvalue) fun _ _ => trivial
    exact hfields.bind fun later _ hlater _ _ => (Safe.popFrame hlater).discard
  exact hfields.bind fun left _ hleft hafter _ => .pure hleft (duty.grow hafter.heap hvalid)

end

end Walker

end ApexPaths
