import ApexPaths.Proofs.Walk.Growth
import ApexPaths.Proofs.Walk.SafeEvaluation

/-!
Safe steps and walks, and what a walk leaves. A path is safe to walk where the expressions of its vertices and the paths
of its static initializers are; a method is run in a frame of its own, which holds the arguments and the object that it
was given.
-/

namespace ApexPaths
set_option autoImplicit false

open WalkM Safe List

variable {σ : Type}

namespace Walker

variable {walker : Walker σ} {duty : Duty σ} {perform : Perform σ} {known : String → Prop} {state : WalkState σ}

/-! ## Declarations -/

section
variable (hstate : Sound duty state)
include hstate

theorem safe_loopElement (loop : VertexId) (type : String) : Safe duty state (loopElement loop type) (Gives duty) := by
  refine .get_bind ?_
  have hunknown : duty.Admits state.symbols.heap (.unknown type) :=
    Contract.admits_of_silent (Value.silent_unknown type)
  have hcontents : ∀ {contents : Contents Value}, (∀ value ∈ contents.items, duty.Admits state.symbols.heap value) →
      Safe duty state (Pure.pure (if contents.complete then .ofLoop type contents.items else .unknown type) :
      WalkM σ Value) (Gives duty) := by
    intro contents hitems
    refine .pure hstate ?_
    split
    · exact Contract.Admits.ofLoop hitems type
    · exact hunknown
  dsimp only
  split
  · rename_i hobject
    obtain ⟨_, -, hobject⟩ := Option.bind_eq_some_iff.mp hobject
    exact hcontents (hstate.heap.of_get? hobject)
  · rename_i hobject
    obtain ⟨_, -, hobject⟩ := Option.bind_eq_some_iff.mp hobject
    exact hcontents (hstate.heap.of_get? hobject)
  · exact .pure hstate hunknown

theorem safe_declareClauseVariable (clause : VertexId) :
    Safe duty state (walker.declareClauseVariable clause) fun _ _ => True := by
  rw [declareClauseVariable]
  cases walker.graph.name? clause with
  | none => exact .pure hstate trivial
  | some name =>
    refine .get_bind (Safe.declare hstate _ _ (Contract.admits_getD (fun value hvalue => ?_) (Value.silent_unknown _)))
    obtain ⟨subject, hsubject, rfl⟩ := Option.map_eq_some_iff.mp hvalue
    have hfound := (Option.filter_eq_some_iff.mp hsubject).1
    refine Contract.Admits.retyped ?_ _
    split at hfound
    · obtain ⟨switch, -, hfound⟩ := Option.bind_eq_some_iff.mp hfound
      obtain ⟨entry, hentry, rfl⟩ := Option.map_eq_some_iff.mp hfound
      exact hstate.subjects entry (mem_of_find?_eq_some hentry)
    · cases hfound

theorem safe_assign (name : String) {value : Value} (hvalue : duty.Admits state.symbols.heap value) :
    Safe duty state (modifyFrame fun frame => (frame.assign? name value).getD frame) fun _ _ => True :=
  .modifyFrame hstate fun _ hframe => hframe.assigned hvalue name

theorem safe_bindCounter (loop condition : VertexId) :
    Safe duty state (walker.bindCounter loop condition) fun _ _ => True := by
  rw [bindCounter]
  cases Counter.name? walker.graph loop with
  | none => exact .pure hstate trivial
  | some counter =>
    refine .frame_bind fun frame _ => safe_assign hstate counter (Contract.admits_of_silent (.withOrigin ?_ loop))
    split
    · refine Value.silent_ofLoop (forall_mem_map.mpr fun n _ => Value.silent_ofInt n)
    · exact Value.silent_unknown _

theorem safe_skipVertex (v : VertexId) : Safe duty state (walker.skipVertex v) fun _ _ => True := by
  rw [skipVertex]
  split
  · exact .forM hstate fun entry _ next hnext _ =>
      Safe.declare hnext _ _ (Contract.admits_of_silent (Value.silent_unknown _))
  · exact safe_declareClauseVariable hstate v
  · exact safe_declareClauseVariable hstate v
  · exact .pure hstate trivial

/-! ## Vertices -/

section
variable {path : CodePath} (hroots : ∀ expr, Ready duty perform state (.eval (some path) expr))
include hroots

theorem safe_declareVariables (v : VertexId) :
    Safe duty state (walker.declareVariables perform path v) fun _ _ => True := by
  rw [declareVariables]
  refine .forM hstate fun entry _ next hnext hleads => ?_
  obtain ⟨declaration, name, type⟩ := entry
  have hdeclare : ∀ later value, Sound duty later → next.Leads later → Gives duty later value →
      Safe duty later (declare name type value) fun _ _ => True :=
      fun later value hlater _ hvalue => Safe.declare hlater name type hvalue
  dsimp only
  cases (walker.graph.parent? v).filter (walker.graph.is · .forEachStatement) with
  | some loop => exact (safe_loopElement hnext loop type).bind hdeclare
  | none =>
    cases walker.graph.childAt? declaration 0 with
    | none =>
      exact hdeclare next _ hnext (.refl next)
        (Contract.admits_of_silent ((Value.silent_nullOf type).withOrigin declaration))
    | some init =>
      exact (((hroots init).later hleads.toAdvances).eval hnext).bind fun later value hlater hafter hvalue =>
        hdeclare later _ hlater hafter (hvalue.retyped type)

theorem safe_first (v : VertexId) (index : Nat) :
    Safe duty state ((walker.graph.childAt? v index).mapM fun expr => perform (.eval (some path) expr))
    fun next found => ∀ value ∈ found, Gives duty next value :=
    .optionMapM hstate fun expr _ => (hroots expr).eval hstate

theorem safe_evaluateVertex (v : VertexId) : Safe duty state (walker.evaluateVertex perform path v) fun _ _ =>
    True := by
  have hplain : Safe duty state (Pure.pure () : WalkM σ Unit) fun _ _ => True := .pure hstate trivial
  have hchildren :
    Safe duty state
    (((walker.graph.children v).filter fun child => (walker.graph.labelOf child).isExpression).forM fun child =>
      discard (perform (.eval (some path) child))) fun _ _ => True :=
    .forM hstate fun child _ next hnext hleads => (((hroots child).later hleads.toAdvances).eval hnext).discard
  have hexpression : Safe duty state (walker.evaluateExpression perform path v) fun _ _ => True := by
    refine ((hroots v).eval hstate).bind fun next value hnext _ hvalue => ?_
    cases (walker.graph.parent? v).filter (walker.graph.is · .switchStatement) with
    | none => exact .pure hnext trivial
    | some switch =>
      refine .modify { hnext with subjects := forall_mem_cons.mpr ⟨hvalue, fun entry hentry => ?_⟩ }
        (.of_eq rfl rfl)
      exact hnext.subjects entry (mem_filter.mp hentry).1
  rw [evaluateVertex]
  dsimp only
  -- By the arms of the definition, not by the kinds: most kinds share the last arm.
  split
  case h_1 => exact safe_declareVariables hstate hroots v
  case h_2 =>
    split
    · exact (safe_first hstate hroots v 0).discard
    · exact hplain
  case h_3 =>
    refine (safe_first hstate hroots v 0).bind fun next found hnext _ hfound => ?_
    cases found with
    | none => exact .pure hnext trivial
    | some value => exact .modifyFrame hnext fun frame hframe => hframe.returning (hfound value rfl)
  case h_4 =>
    cases (walker.graph.parent? v).filter (walker.graph.is · .forLoopStatement) with
    | none => exact (safe_first hstate hroots v 0).discard
    | some loop =>
      exact (safe_bindCounter hstate loop v).bind fun next _ hnext hleads _ =>
        (safe_first hnext (fun expr => (hroots expr).later hleads.toAdvances) v 0).discard
  case h_5 =>
    refine (Safe.optionMapM hstate fun expr _ => (hroots expr).eval hstate).bind fun next found hnext _ hfound => ?_
    cases found with
    | none => exact .pure hnext trivial
    | some value =>
      refine .modify { hnext with iterables := forall_mem_cons.mpr ⟨hfound value rfl, fun entry hentry => ?_⟩ }
        (.of_eq rfl rfl)
      exact hnext.iterables entry (mem_filter.mp hentry).1
  case h_6 => exact safe_declareClauseVariable hstate v
  case h_7 => exact safe_declareClauseVariable hstate v
  case h_8 =>
    split
    · exact hchildren
    · split
      · exact hexpression
      · exact hplain

end

/-! ## Steps and methods -/

theorem safe_visit (hwatched : ApexPaths.Watched duty walker.visitor) (v : VertexId) :
    Safe duty state (walker.visit v) fun _ _ => True := by
  refine .get_bind ?_
  exact ⟨⟨hstate.heap, hstate.statics, hstate.frames, hstate.iterables, hstate.subjects, hwatched.visit hstate.watch⟩,
    .of_eq rfl rfl, trivial⟩

end

section
variable {path : CodePath}

/-- From a state on, the expressions of a path and its static initializers are safe. -/
structure Walkable (walker : Walker σ) (duty : Duty σ) (perform : Perform σ) (known : String → Prop)
    (state : WalkState σ) (path : CodePath) : Prop where
  roots : ∀ expr, Ready duty perform state (.eval (some path) expr)
  classes : Initializes walker duty perform known state
  names : ∀ init ∈ path.staticInits, known init.1
  inits : ∀ init ∈ path.staticInits, Ready duty perform state (.invoke init.2.2 none [])
  watched : ApexPaths.Watched duty walker.visitor

theorem Walkable.later (h : Walkable walker duty perform known state path) {next : WalkState σ}
    (hnext : state.Advances next) : Walkable walker duty perform known next path :=
  ⟨fun expr => (h.roots expr).later hnext, h.classes.later hnext, h.names, fun init hinit =>
  (h.inits init hinit).later hnext, h.watched⟩

variable (hstate : Sound duty state) (hwalkable : Walkable walker duty perform known state path)
include hstate hwalkable

theorem safe_staticInits (anchor : Option VertexId) :
    Safe duty state (walker.runStaticInits perform path anchor) fun _ _ => True :=
  safe_runStaticInits hstate hwalkable.classes anchor hwalkable.names hwalkable.inits

/-- A step is safe. -/
theorem safe_step (v : VertexId) : Safe duty state (walker.step perform path v) fun _ _ => True := by
  have hmain : ∀ next, Sound duty next → state.Leads next → Safe duty next (do
      if ← walker.visit v then
        walker.runStaticInits perform path (some v)
        walker.evaluateVertex perform path v
      else
        walker.skipVertex v
      let after ← symbols
      notify (walker.visitor.afterVisit v after)
      modifyFrame (·.popBlocks (walker.graph.endScopes v).length)) fun _ _ => True := by
    intro next hnext hleads
    have hleave : ∀ left, Sound duty left → Safe duty left (do
        let after ← symbols
        notify (walker.visitor.afterVisit v after)
        modifyFrame (·.popBlocks (walker.graph.endScopes v).length)) fun _ _ => True := fun left hleft =>
      .symbols_bind ((Safe.notify hleft (hwalkable.watched.afterVisit hleft.watch)).bind fun told _ htold _ _ =>
      .modifyFrame htold fun frame hframe =>
        ⟨Frame.forall_popBlocks hframe.1 _, hframe.2⟩)
    refine (safe_visit hnext hwalkable.watched v).bind fun visited consent hvisited hvisiting _ => ?_
    cases consent with
    | false => exact (safe_skipVertex hvisited v).bind fun left _ hleft _ _ => hleave left hleft
    | true =>
      have hwalkable := hwalkable.later (hleads.trans hvisiting).toAdvances
      refine (safe_staticInits hvisited hwalkable (some v)).bind fun initialized _ hinitialized hinitializing _ => ?_
      exact (safe_evaluateVertex hinitialized (hwalkable.later hinitializing.toAdvances).roots v).bind
        fun left _ hleft _ _ => hleave left hleft
  rw [step]
  dsimp only
  split
  · refine Safe.bind (.modifyFrame hstate fun frame hframe => ⟨Frame.forall_pushBlock hframe.1 _, hframe.2⟩)
      fun next _ hnext hleads _ =>
      hmain next hnext hleads
  · exact hmain state hstate (.refl state)

theorem safe_runMethod {frame : Frame} (hframe : duty.AdmitsFrame state.symbols.heap frame) :
    Safe duty state (walker.runMethod perform path frame) (GivesAny duty) := by
  rw [runMethod]
  refine (Safe.pushFrame hstate hframe).bind fun pushed _ hpushed hpushing _ => .symbols_bind ?_
  refine (Safe.notify hpushed (hwalkable.watched.enterMethod hpushed.watch)).bind
    fun entered _ hentered hentering _ => ?_
  have hsteps : Safe duty entered (path.ids.forM (walker.step perform path)) fun _ _ => True :=
    .forM hentered fun v _ next hnext hleads =>
    safe_step hnext (hwalkable.later ((hpushing.trans hentering).trans hleads).toAdvances) v
  refine hsteps.bind fun walked _ hwalked _ _ => (Safe.popFrame hwalked).bind fun popped left hpopped _ hleft => ?_
  have hreturned := (Frame.forall_values.mp hleft.1).2.2
  exact (Safe.notify hpopped (hwalkable.watched.exitMethod hpopped.watch)).bind fun told _ htold htelling _ =>
    .pure htold fun value hvalue => (hreturned value hvalue).grow htelling.heap

omit hstate hwalkable in
theorem admits_methodFrame (method : VertexId) {this : Option HeapRef} {args : List Value}
    (hthis : ∀ ref ∈ this, duty.valid state.symbols.heap ref)
    (hargs : ∀ arg ∈ args, duty.Admits state.symbols.heap arg) :
    duty.AdmitsFrame state.symbols.heap (walker.methodFrame method this args) := by
  have hbind : ∀ (parameters : List Parameter) (args : List Value) (bound : VariableMap),
    (∀ arg ∈ args, duty.Admits state.symbols.heap arg) →
    (∀ value ∈ bound.values, duty.Admits state.symbols.heap value) →
      ∀ value ∈ (bindParameters bound parameters args).values, duty.Admits state.symbols.heap value := by
    intro parameters
    induction parameters with
    | nil => exact fun args bound _ hbound => hbound
    | cons parameter parameters ih =>
      obtain ⟨name, type⟩ := parameter
      intro args bound hargs hbound
      cases args with
      | nil =>
        exact ih [] _ nofun (VariableMap.forall_declare hbound (Contract.admits_of_silent (Value.silent_unknown type))
          name type)
      | cons arg args =>
        obtain ⟨harg, hrest⟩ := forall_mem_cons.mp hargs
        exact ih args _ hrest (VariableMap.forall_declare hbound (harg.retyped type) name type)
  exact ⟨Frame.forall_values.mpr ⟨hbind _ args [] hargs nofun, nofun, nofun⟩, hthis⟩

theorem safe_invokePath {this : Option HeapRef} {args : List Value}
    (hthis : ∀ ref ∈ this, duty.valid state.symbols.heap ref) (hargs : ∀ arg ∈ args,
    duty.Admits state.symbols.heap arg) : Safe duty state (walker.invokePath perform path this args) (Gives duty) := by
  rw [invokePath]
  refine (safe_staticInits hstate hwalkable none).bind fun initialized _ hinitialized hleads _ => ?_
  have hobject : ∀ ref ∈ (if walker.graph.isStatic path.method then none else this),
      duty.valid initialized.symbols.heap ref := by
    split
    · nofun
    · exact fun ref href => duty.grow hleads.heap (hthis ref href)
  refine (safe_runMethod hinitialized (hwalkable.later hleads.toAdvances) (admits_methodFrame _ hobject
    fun arg harg => (hargs arg harg).grow hleads.heap)).bind fun next returned hnext _ hreturned => .pure hnext ?_
  refine Contract.admits_getD hreturned ?_
  split
  · exact Value.silent_void
  · exact Value.silent_unknown _

/-- A path is safe to walk from the start, where the object on which its method runs is safe to make. -/
theorem safe_walkPath (hobjects : ∀ type, walker.graph.enclosingType? path.method = some type →
    ∀ owner ∈ walker.fieldOwners type, ∀ init ∈ walker.fieldInits owner false,
    Ready duty perform state (.eval none init)) :
    Safe duty state (walker.walkPath perform path) (GivesAny duty) := by
  have hrun : ∀ next, Sound duty next → state.Leads next → ∀ this : Option HeapRef,
    (∀ ref ∈ this, duty.valid next.symbols.heap ref) →
    Safe duty next (walker.runMethod perform path (walker.methodFrame path.method this [])) (GivesAny duty) :=
    fun next hnext hleads this hthis =>
    safe_runMethod hnext (hwalkable.later hleads.toAdvances) (admits_methodFrame _ hthis nofun)
  have hobject : ∀ next, Sound duty next → state.Leads next → Safe duty next (do
      let this ← if walker.graph.isStatic path.method then pure none
        else (walker.graph.enclosingType? path.method).mapM (walker.instantiate perform)
      walker.runMethod perform path (walker.methodFrame path.method this [])) (GivesAny duty) := by
    intro next hnext hleads
    split
    · exact hrun next hnext hleads none nofun
    · have hthis : Safe duty next ((walker.graph.enclosingType? path.method).mapM (walker.instantiate perform))
          fun later this => ∀ ref ∈ this, duty.valid later.symbols.heap ref := .optionMapM hnext fun type htype =>
        safe_instantiate hnext fun owner howner init hinit =>
        (hobjects type htype owner howner init hinit).later hleads.toAdvances
      exact hthis.bind fun later this hlater hmaking hthis => hrun later hlater (hleads.trans hmaking) this hthis
  rw [walkPath]
  refine (safe_staticInits hstate hwalkable none).bind fun initialized _ hinitialized hinitializing _ => ?_
  have hstart := hobject
  cases howner : walker.graph.enclosingType? path.method with
  | none =>
    rw [howner] at hstart
    exact hstart initialized hinitialized hinitializing
  | some type =>
    rw [howner] at hstart
    exact (safe_ensureInitialized hinitialized (hwalkable.classes.later hinitializing.toAdvances) type).bind
      fun ensured _ hensured hensuring _ =>
      hstart ensured hensured (hinitializing.trans hensuring)

end

end Walker

/-!
## Soundness

A walk fails for lack of nesting only. It leaves no method running and no class in its initialization,
its heap grows, and no value that it leaves refers to an object that is not in the heap.
-/

open WalkM

variable {σ ρ : Type}
variable {outcome : WalkOutcome} {statics : StaticScopes}

/-! ## Safety under an instrument -/

/-- What should hold of a record is kept by the instrument. -/
structure Instrument.Kept (instrument : Instrument σ ρ) (duty : Duty ρ) :
    Prop extends Watched duty instrument.visitor where
  evaluated : ∀ {expr symbols record}, duty.watch symbols.heap record →
    duty.watch symbols.heap (instrument.evaluated expr symbols record)
  enter : ∀ {site path heap record}, duty.watch heap record → duty.watch heap (instrument.enter site path record)
  leave : ∀ {heap record}, duty.watch heap record → duty.watch heap (instrument.leave record)

namespace Walker

section
variable (walker : Walker σ) {instrument : Instrument σ ρ} {duty : Duty ρ} (hkept : instrument.Kept duty)
  (hfails : duty.fails (.internal .exhausted))
include hkept hfails

/-- Every task is ready at every nesting. -/
theorem ready_under (nesting : Nat) (site : Option VertexId) (state : WalkState ρ) (task : Task) :
    Ready duty (walker.performUnder instrument nesting site) state task := by
  induction nesting generalizing site state task with
  | zero => exact ⟨fun _ _ _ _ => .fail hfails⟩
  | succ nesting ih =>
    refine ⟨fun next hnext _ htask => ?_⟩
    have hclasses : ∀ site,
      Initializes (walker.watchedBy instrument.visitor) duty (walker.performUnder instrument nesting site)
      (fun _ => True) next := fun site => ⟨fun _ => trivial, fun _ _ _ _ _ init => ih site _ (.eval none init)⟩
    cases task with
    | eval sites expr =>
      have hnested : Nested (walker.watchedBy instrument.visitor) duty
        (walker.performUnder instrument nesting (some expr)) (fun _ => True)
          next sites expr :=
        ⟨fun _ => ih .., fun _ _ _ => ih .., hclasses (some expr), fun _ _ _ _ _ => ih .., hkept.toWatched⟩
      refine (safe_evalExpression hnext hnested).bind fun left value hleft _ hvalue => .symbols_bind ?_
      exact (Safe.notify hleft (hkept.evaluated hleft.watch)).bind fun told _ htold htelling _ =>
        .pure htold (hvalue.later htelling)
    | invoke path this args =>
      have hwalkable : ∀ state,
        Initializes (walker.watchedBy instrument.visitor) duty (walker.performUnder instrument nesting none)
        (fun _ => True) state →
          Walkable (walker.watchedBy instrument.visitor) duty (walker.performUnder instrument nesting none)
          (fun _ => True) state path :=
        fun state hclasses => ⟨fun _ => ih .., hclasses, fun _ _ => trivial, fun _ _ => ih .., hkept.toWatched⟩
      refine (Safe.notify hnext (hkept.enter hnext.watch)).bind fun entered _ hentered hentering _ => ?_
      have hinvoked := safe_invokePath hentered (hwalkable entered ((hclasses none).later hentering.toAdvances))
        (fun ref href => duty.grow hentering.heap (htask.1 ref href)) fun arg harg =>
        (htask.2 arg harg).grow hentering.heap
      refine hinvoked.bind fun left value hleft _ hvalue => ?_
      exact (Safe.notify hleft (hkept.leave hleft.watch)).bind fun told _ htold htelling _ =>
        .pure htold (hvalue.later htelling)

theorem safe_walkPath_under (nesting : Nat) (path : CodePath) {state : WalkState ρ} (hstate : Sound duty state) :
    Safe duty state
    ((walker.watchedBy instrument.visitor).walkPath (walker.performUnder instrument nesting none) path)
    (Safe.GivesAny duty) := by
  have hready := walker.ready_under hkept hfails nesting none
  have hclasses : Initializes (walker.watchedBy instrument.visitor) duty (walker.performUnder instrument nesting none)
      (fun _ => True) state :=
    ⟨fun _ => trivial, fun _ _ _ _ _ _ => hready ..⟩
  exact safe_walkPath hstate ⟨fun _ => hready .., hclasses, fun _ _ => trivial, fun _ _ => hready .., hkept.toWatched⟩
    fun _ _ _ _ _ _ => hready ..

end

end Walker

/-! ## What a walk leaves -/

/-- The moments show heaps that grew into one another and into this one. -/
structure Journal.Grown (heap : Heap) (journal : Journal σ) : Prop where
  pairwise : journal.moments.Pairwise fun earlier later => earlier.symbols.heap.Grows later.symbols.heap
  into : ∀ moment ∈ journal.moments, moment.symbols.heap.Grows heap

/-- What a walk from some static variables leaves: no running method, the same classes in their initialization, and
nothing that mentions another reference than a contract allows. -/
structure WalkOutcome.Upholds (outcome : WalkOutcome) (contract : Contract) (statics : StaticScopes) : Prop where
  callDepth : outcome.symbols.callDepth = 0
  opened : ∀ owner, outcome.symbols.statics.state owner = .initializing ↔ statics.state owner = .initializing
  returned : ∀ value ∈ outcome.returned, contract.Admits outcome.symbols.heap value
  statics : ∀ value ∈ outcome.symbols.statics.values, contract.Admits outcome.symbols.heap value
  objects : contract.Keeps outcome.symbols.heap

namespace Journal

variable {journal : Journal σ} {heap later : Heap}

theorem Grown.grow (h : journal.Grown heap) (hgrows : heap.Grows later) : journal.Grown later :=
  ⟨h.pairwise, fun moment hmoment => (h.into moment hmoment).trans hgrows⟩

theorem Grown.noted {other : Journal σ} {chain : Chain} {occasion : Occasion} {symbols : Symbols}
    (h : journal.Grown symbols.heap) (hmoments : other.moments = journal.moments ++ [⟨chain, occasion, symbols⟩]) :
    other.Grown symbols.heap := by
  refine ⟨hmoments ▸ pairwise_append.mpr ⟨h.pairwise, pairwise_singleton ..,
    fun moment hmoment last hlast => ?_⟩, fun moment hmoment => ?_⟩
  · obtain rfl := mem_singleton.mp hlast
    exact h.into moment hmoment
  · rcases mem_append.mp (hmoments ▸ hmoment) with hmoment | hmoment
    · exact h.into moment hmoment
    · obtain rfl := mem_singleton.mp hmoment
      exact .refl _

theorem Grown.of_moments {other : Journal σ} (h : journal.Grown heap) (hmoments : other.moments = journal.moments) :
    other.Grown heap :=
  ⟨hmoments ▸ h.pairwise, hmoments ▸ h.into⟩

/-- Any failure is granted, and the heap grows from moment to moment. -/
def duty (contract : Contract) : Duty (Journal σ) where
  toContract := contract
  fails _ := True
  granted _ := trivial
  watch := Journal.Grown
  lasts hgrows h := h.grow hgrows

end Journal

namespace Walker

theorem kept_journaling (walker : Walker σ) (contract : Contract) : walker.journaling.Kept (Journal.duty contract) where
  visit h := h.noted rfl
  afterVisit h := h.noted rfl
  onExpression h := h.of_moments rfl
  enterMethod h := h.noted rfl
  exitMethod h := h.of_moments rfl
  evaluated h := h.noted rfl
  enter h := h.of_moments rfl
  leave h := h.of_moments rfl

/-- How a journaled walk from static variables that a contract admits comes out. -/
theorem journalWithin_upholds (walker : Walker σ) (contract : Contract) (nesting : Nat) (path : CodePath)
    (statics : StaticScopes) (observed : σ) (hstatics : ∀ value ∈ statics.values, contract.Admits {} value) :
    match walker.journalWithin nesting path statics observed with
    | (.ok outcome, journal) => journal.Grown outcome.symbols.heap ∧ outcome.Upholds contract statics
    | (.error error, _) => error = .internal .exhausted := by
  have hgrown : (⟨observed, [], []⟩ : Journal σ).Grown {} := ⟨.nil, nofun⟩
  have hstart :
      Sound (Journal.duty contract) { symbols := { statics }, observed := (⟨observed, [], []⟩ : Journal σ) } :=
    ⟨nofun, hstatics, nofun, nofun, nofun, hgrown⟩
  have hsafe := (walker.safe_walkPath_under (walker.kept_journaling contract) trivial nesting path hstart).run
  obtain ⟨seen, hrun, hends⟩ := run_walkPath_under walker.faithful_journaling nesting path statics { observed }
  rw [hrun] at hsafe
  have hjournal := congrArg (fun run : Except EngineError (Option Value) × WalkState (Journal σ) =>
    (run.1.map fun returned => WalkOutcome.mk returned run.2.visited run.2.symbols, run.2.observed)) hrun
  have hsplit : walker.journalWithin nesting path statics observed = _ := hjournal
  rw [hsplit]
  generalize (walker.walkPath (walker.performWithin nesting) path).run
    { symbols := { statics }, observed := walker.journaling.observed { observed } } = result at hsafe hends
  obtain ⟨error | returned, left⟩ := result
  · exact hends.1
  · obtain ⟨hsound, hleads, hreturned⟩ := hsafe
    have hdepth : left.symbols.callDepth = 0 := (length_map _).symm.trans (congrArg List.length hends.1)
    exact ⟨hsound.watch, hdepth, hleads.opened, hreturned, hsound.statics, hsound.heap⟩

end Walker

/-! ## Walks from the start -/

/-- References are valid if the heap has their objects. -/
def Contract.inRange : Contract where
  valid heap ref := ref < heap.size
  grow hgrows hvalid := Nat.lt_of_lt_of_le hvalid hgrows.size_le
  fresh heap object := heap.size_allocate object ▸ Nat.lt_succ_self _

/-- A walk left no method running, no class in its initialization, and no reference to an object that is not in the
heap. -/
structure WalkOutcome.Settled (outcome : WalkOutcome) : Prop where
  callDepth : outcome.symbols.callDepth = 0
  initialized : ∀ owner, outcome.symbols.statics.state owner ≠ .initializing
  returned : ∀ value ∈ outcome.returned, ∀ ref, value.Mentions ref → ref < outcome.symbols.heap.size
  statics : ∀ value ∈ outcome.symbols.statics.values, ∀ ref, value.Mentions ref → ref < outcome.symbols.heap.size
  objects : ∀ object ∈ outcome.symbols.heap.objects, ∀ value ∈ object.values, ∀ ref, value.Mentions ref →
    ref < outcome.symbols.heap.size

theorem WalkOutcome.Upholds.settled (h : outcome.Upholds .inRange statics)
    (hstatics : ∀ owner, statics.state owner ≠ .initializing) : outcome.Settled :=
  ⟨h.callDepth, fun owner hopened => hstatics owner ((h.opened owner).mp hopened), h.returned, h.statics, h.objects⟩

/-- A walk from the start fails for lack of nesting only. If it ends, its heap grew from moment to moment, objects kept
their kinds and types, and nothing is left open or dangling. -/
theorem walkWithin_settled (walker : Walker σ) (nesting : Nat) (path : CodePath) (observed : σ) :
    walker.walkWithin nesting path [] observed =
      ((walker.journalWithin nesting path [] observed).1, (walker.journalWithin nesting path [] observed).2.observed) ∧
    match walker.journalWithin nesting path [] observed with
    | (.ok outcome, journal) => journal.Grown outcome.symbols.heap ∧ outcome.Settled
    | (.error error, _) => error = .internal .exhausted := by
  refine ⟨walker.walkWithin_eq_journaled nesting path [] observed, ?_⟩
  have hupholds := walker.journalWithin_upholds .inRange nesting path [] observed nofun
  split at hupholds
  · exact ⟨hupholds.1, hupholds.2.settled fun owner => nofun⟩
  · exact hupholds

/-- A walk with a single call. -/
theorem callingOnce_settled :
    ∃ graph path expanded outcome journal, Build.IsGraphOf bareSettings [("A", callingOnce)] graph ∧
    Path.forward graph path.method = .ok [path] ∧
    (((Expander.ofGraph graph bareSettings {}).expandPath path).run { registry := { limit := .unlimited } }).1 =
    .ok [expanded] ∧
    (⟨Program.ofGraph graph, .silent, 100⟩ : Walker Unit).journalWithin 20 expanded [] () = (.ok outcome, journal) ∧
    journal.Grown outcome.symbols.heap ∧ outcome.Settled := by
  obtain ⟨graph, path, expanded, outcome, hgraph, hforward, hrun, -, -, hwalk⟩ := exists_walk
  have hsettled := walkWithin_settled (⟨Program.ofGraph graph, .silent, 100⟩ : Walker Unit) 20 expanded ()
  generalize hjournaled : (⟨Program.ofGraph graph, .silent, 100⟩ : Walker Unit).journalWithin 20 expanded [] () =
    run at hsettled
  obtain ⟨result, journal⟩ := run
  obtain rfl : result = .ok outcome := (congrArg Prod.fst hsettled.1).symm.trans hwalk
  exact ⟨graph, path, expanded, outcome, journal, hgraph, hforward, hrun, hjournaled, hsettled.2⟩

/-!
## Continued walks

A walk may continue with the static variables of an earlier walk. The heap of the earlier walk is gone: a continued walk
starts from an empty heap, and a reference in a static variable denotes nothing until the walk itself has made as many
objects, and then one of these. Only where no static variable mentions an object is nothing lost.
-/

/-- References to the objects of a heap, and those that some static variables mention. -/
def Contract.inherited (statics : StaticScopes) : Contract where
  valid heap ref := ref < heap.size ∨ ∃ value ∈ statics.values, value.Mentions ref
  grow hgrows hvalid := hvalid.imp_left fun hlt => Nat.lt_of_lt_of_le hlt hgrows.size_le
  fresh heap object := .inl (heap.size_allocate object ▸ Nat.lt_succ_self _)

/-- An object is mentioned by what a walk leaves: by its result, a static variable or an object of its heap. -/
inductive WalkOutcome.Mentions (outcome : WalkOutcome) (ref : HeapRef) : Prop
  | returned {value : Value} (hvalue : value ∈ outcome.returned) (h : value.Mentions ref)
  | static {value : Value} (hvalue : value ∈ outcome.symbols.statics.values) (h : value.Mentions ref)
  | object {object : HeapObject} {value : Value} (hobject : object ∈ outcome.symbols.heap.objects)
      (hvalue : value ∈ object.values) (h : value.Mentions ref)

theorem WalkOutcome.Upholds.valid {contract : Contract} (h : outcome.Upholds contract statics)
    {ref : HeapRef} (hmentions : outcome.Mentions ref) : contract.valid outcome.symbols.heap ref := by
  cases hmentions with
  | returned hvalue href => exact h.returned _ hvalue ref href
  | static hvalue href => exact h.statics _ hvalue ref href
  | object hobject hvalue href => exact h.objects _ hobject _ hvalue ref href

theorem WalkOutcome.Upholds.inRange (h : outcome.Upholds (.inherited statics) statics)
    (hstatics : ∀ value ∈ statics.values, value.Silent) : outcome.Upholds .inRange statics := by
  have hvalid : ∀ {ref}, (Contract.inherited statics).valid outcome.symbols.heap ref →
      ref < outcome.symbols.heap.size := by
    rintro ref (hlt | ⟨value, hvalue, hmentions⟩)
    · exact hlt
    · exact absurd hmentions (hstatics value hvalue ref)
  exact ⟨h.callDepth, h.opened, fun value hvalue ref href => hvalid (h.returned value hvalue ref href),
    fun value hvalue ref href => hvalid (h.statics value hvalue ref href),
    fun object hobject value hvalue ref href => hvalid (h.objects object hobject value hvalue ref href)⟩

/-- What a walk leaves that continued with the static variables of a first one: no running method, no class in its
initialization, and no references beside those to its own heap but such as a static variable of the first walk mentions.
These dangle, or name other objects. Where there are none, nothing differs from a walk from the start. -/
structure WalkOutcome.Resumes (outcome first : WalkOutcome) : Prop where
  callDepth : outcome.symbols.callDepth = 0
  initialized : ∀ owner, outcome.symbols.statics.state owner ≠ .initializing
  dangling : ∀ ref, outcome.Mentions ref → outcome.symbols.heap.size ≤ ref →
    ref < first.symbols.heap.size ∧ ∃ value ∈ first.symbols.statics.values, value.Mentions ref
  settled : (∀ value ∈ first.symbols.statics.values, value.Silent) → outcome.Settled

theorem WalkOutcome.Upholds.resumes {first : WalkOutcome}
    (h : outcome.Upholds (.inherited first.symbols.statics) first.symbols.statics) (hfirst : first.Settled) :
    outcome.Resumes first where
  callDepth := h.callDepth
  initialized owner hopened := hfirst.initialized owner ((h.opened owner).mp hopened)
  dangling ref hmentions hle := by
    rcases h.valid hmentions with hlt | ⟨value, hvalue, hvalid⟩
    · exact absurd hlt (Nat.not_lt.mpr hle)
    · exact ⟨hfirst.statics value hvalue ref hvalid, value, hvalue, hvalid⟩
  settled hsilent := (h.inRange hsilent).settled hfirst.initialized

theorem settled_of_walkWithin {walker : Walker σ} {nesting : Nat} {path : CodePath} {observed : σ}
    (h : (walker.walkWithin nesting path [] observed).1 = .ok outcome) : outcome.Settled := by
  have hupholds := walker.journalWithin_upholds .inRange nesting path [] observed nofun
  rw [walker.walkWithin_eq_journaled] at h
  generalize walker.journalWithin nesting path [] observed = run at h hupholds
  obtain ⟨result, journal⟩ := run
  obtain rfl : result = .ok outcome := h
  exact hupholds.2.settled fun owner => nofun

/-- A walk that continues with the static variables of a walk from the start fails for lack of nesting only. If it
ends, its heap, which was empty at first, grew from moment to moment, and it mentions no objects beside those of
this heap but the lost ones that a static variable of the first walk mentions. -/
theorem walkWithin_continued (walker : Walker σ) {nesting : Nat} {path : CodePath} {observed : σ} {first : WalkOutcome}
    (hfirst : (walker.walkWithin nesting path [] observed).1 = .ok first) (nesting' : Nat) (path' : CodePath)
    (observed' : σ) :
    walker.walkWithin nesting' path' first.symbols.statics observed' =
      ((walker.journalWithin nesting' path' first.symbols.statics observed').1,
        (walker.journalWithin nesting' path' first.symbols.statics observed').2.observed) ∧
    match walker.journalWithin nesting' path' first.symbols.statics observed' with
    | (.ok outcome, journal) => journal.Grown outcome.symbols.heap ∧ outcome.Resumes first
    | (.error error, _) => error = .internal .exhausted := by
  refine ⟨walker.walkWithin_eq_journaled .., ?_⟩
  have hupholds :=
    walker.journalWithin_upholds (.inherited first.symbols.statics) nesting' path' first.symbols.statics observed'
    fun value hvalue ref hmentions => .inr ⟨value, hvalue, hmentions⟩
  generalize walker.journalWithin nesting' path' first.symbols.statics observed' = run at hupholds
  obtain ⟨_ | outcome, journal⟩ := run
  · exact hupholds
  · exact ⟨hupholds.1, hupholds.2.resumes (settled_of_walkWithin hfirst)⟩

/-! ## A static variable that denotes another object -/

/-- A class with a set in a static variable, and a method that makes a list. -/
def keepingSet : String :=
  "class A { static Set<Integer> s = new Set<Integer>{ 1 }; static void m() { List<Integer> l = new List<Integer>{ 2 }; } }"

/-- The walk ends, and so does the walk that continues with its static variables; a test holds of both ends. -/
def walksTwice (test : WalkOutcome → WalkOutcome → Bool) (graph : CodeGraph) (path : CodePath) : Bool :=
  let walker : Walker Unit := ⟨Program.ofGraph graph, .silent, 100⟩
  match (walker.walkWithin 20 path [] ()).1 with
  | .error _ => false
  | .ok first =>
    match (walker.walkWithin 20 path first.symbols.statics ()).1 with
    | .error _ => false
    | .ok outcome => test first outcome

theorem exists_of_walksTwice {test : WalkOutcome → WalkOutcome → Bool} {graph : CodeGraph} {path : CodePath}
    (h : walksTwice test graph path = true) : ∃ first outcome,
      ((⟨Program.ofGraph graph, .silent, 100⟩ : Walker Unit).walkWithin 20 path [] ()).1 = .ok first ∧
      ((⟨Program.ofGraph graph, .silent, 100⟩ : Walker Unit).walkWithin 20 path first.symbols.statics ()).1 =
      .ok outcome ∧
      test first outcome = true := by
  rw [walksTwice] at h
  split at h
  · cases h
  · rename_i first hfirst
    split at h
    · cases h
    · rename_i outcome houtcome
      exact ⟨first, outcome, hfirst, houtcome, h⟩

/-- The static variable refers to a set after the first walk, and by the same reference to a list after the second. -/
def turnsSetIntoList (first outcome : WalkOutcome) : Bool :=
  (first.symbols.staticValue? "A" "s").bind (·.ref?) == some 0 &&
  (outcome.symbols.staticValue? "A" "s").bind (·.ref?) == some 0 && (first.symbols.heap.get? 0).map (·.typeName) ==
  some "Set<Integer>" &&
    (outcome.symbols.heap.get? 0).map (·.typeName) == some "List<Integer>"

theorem walksTwice_keepingSet :
    (Build.treeOfChars keepingSet.toList).toOption.any (anyMethod (expandsOnce (walksTwice turnsSetIntoList))) = true :=
  Build.any_of_toList_eq String.toList_ofList (by decide +kernel)

/-- A second walk goes on with the reference to a set beside a heap that has no set. -/
theorem keepingSet_continued :
    ∃ graph path expanded first outcome journal, Build.IsGraphOf bareSettings [("A", keepingSet)] graph ∧
    Path.forward graph path.method = .ok [path] ∧
    (((Expander.ofGraph graph bareSettings {}).expandPath path).run { registry := { limit := .unlimited } }).1 =
    .ok [expanded] ∧
    ((⟨Program.ofGraph graph, .silent, 100⟩ : Walker Unit).walkWithin 20 expanded [] ()).1 = .ok first ∧
    (⟨Program.ofGraph graph, .silent, 100⟩ : Walker Unit).journalWithin 20 expanded first.symbols.statics () =
    (.ok outcome, journal) ∧
    journal.Grown outcome.symbols.heap ∧ outcome.Resumes first := by
  obtain ⟨graph, path, expanded, hgraph, hforward, hrun, htest⟩ := exists_expanded walksTwice_keepingSet
  obtain ⟨first, outcome, hfirst, houtcome, -⟩ := exists_of_walksTwice htest
  have hcontinued := walkWithin_continued _ hfirst 20 expanded ()
  generalize hjournaled : (⟨Program.ofGraph graph, .silent, 100⟩ : Walker Unit).journalWithin 20 expanded
    first.symbols.statics () = run at hcontinued
  obtain ⟨result, journal⟩ := run
  obtain rfl : result = .ok outcome := (congrArg Prod.fst hcontinued.1).symm.trans houtcome
  exact ⟨graph, path, expanded, first, outcome, journal, hgraph, hforward, hrun, hfirst, hjournaled, hcontinued.2⟩

/-- The set to which a static variable refers is lost: in the walk that continues, which writes no static variable,
the same reference names a list that this walk made. -/
theorem keepingSet_loses : ∃ graph path expanded first outcome, Build.IsGraphOf bareSettings [("A", keepingSet)] graph ∧
    Path.forward graph path.method = .ok [path] ∧
    (((Expander.ofGraph graph bareSettings {}).expandPath path).run { registry := { limit := .unlimited } }).1 =
    .ok [expanded] ∧
    ((⟨Program.ofGraph graph, .silent, 100⟩ : Walker Unit).walkWithin 20 expanded [] ()).1 = .ok first ∧
    ((⟨Program.ofGraph graph, .silent, 100⟩ : Walker Unit).walkWithin 20 expanded first.symbols.statics ()).1 =
    .ok outcome ∧
    (first.symbols.staticValue? "A" "s").bind (·.ref?) = some 0 ∧
    (outcome.symbols.staticValue? "A" "s").bind (·.ref?) = some 0 ∧
    (first.symbols.heap.get? 0).map (·.typeName) = some "Set<Integer>" ∧
    (outcome.symbols.heap.get? 0).map (·.typeName) = some "List<Integer>" := by
  obtain ⟨graph, path, expanded, hgraph, hforward, hrun, htest⟩ := exists_expanded walksTwice_keepingSet
  obtain ⟨first, outcome, hfirst, houtcome, htest⟩ := exists_of_walksTwice htest
  obtain ⟨⟨⟨hbefore, hafter⟩, hset⟩, hlist⟩ := by
    simpa only [turnsSetIntoList, Bool.and_eq_true, beq_iff_eq] using htest
  exact ⟨graph, path, expanded, first, outcome, hgraph, hforward, hrun, hfirst, houtcome, hbefore, hafter, hset, hlist⟩

end ApexPaths
