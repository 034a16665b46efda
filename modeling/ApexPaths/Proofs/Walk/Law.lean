import ApexPaths.Proofs.Walk.Instrument

/-!
Records of walks, and the laws that they obey. A recorded walk does what the walk does, and it lists the vertices about
which the visitor is asked, the expressions that are evaluated with the heap after each, and the attached paths that are
walked.
-/

namespace ApexPaths
set_option autoImplicit false

open WalkM List

variable {σ : Type}

/-- Something that happens in a walk. -/
inductive Entry where
  /-- The visitor was asked about a vertex. -/
  | visited (v : VertexId)
  /-- An expression was evaluated; the heap is the one after it. -/
  | evaluated (expr : VertexId) (heap : Heap)
  /-- A path begins that is attached to one which is nested so deep: at a call site, or without one as a static
  initializer. -/
  | walks (depth : Nat) (site : Option VertexId) (path : CodePath)

/-- What a visitor observes, how many attached paths are being walked, and what happened so far. -/
structure Recorded (σ : Type) where
  observed : σ
  depth : Nat := 0
  log : List Entry := []

namespace Recorded

/-- One more entry in a record. -/
def note (entry : Entry) (recorded : Recorded σ) : Recorded σ := { recorded with log := recorded.log ++ [entry] }

/-- The record inside a path that is walked. -/
def enter (site : Option VertexId) (path : CodePath) (recorded : Recorded σ) : Recorded σ :=
  { recorded.note (.walks recorded.depth site path) with depth := recorded.depth + 1 }

/-- The record after a path was walked. -/
def leave (recorded : Recorded σ) : Recorded σ := { recorded with depth := recorded.depth - 1 }

/-- The record is one of a visitor that observes this. -/
def Shows (observed : σ) (recorded : Recorded σ) : Prop := recorded.observed = observed

end Recorded

/-- A visitor that shows everything to another one and records about which vertices it is asked. -/
def Visitor.recording (visitor : Visitor σ) : Visitor (Recorded σ) where
  visit v symbols recorded :=
    let (consent, observed) := visitor.visit v symbols recorded.observed
    (consent, { recorded with observed }.note (.visited v))
  afterVisit v symbols recorded := { recorded with observed := visitor.afterVisit v symbols recorded.observed }
  onExpression expr value recorded := { recorded with observed := visitor.onExpression expr value recorded.observed }
  enterMethod method symbols recorded :=
    { recorded with observed := visitor.enterMethod method symbols recorded.observed }
  exitMethod method returned recorded :=
    { recorded with observed := visitor.exitMethod method returned recorded.observed }

namespace Walker

variable (walker : Walker σ)

def recorded : Walker (Recorded σ) := walker.watchedBy walker.visitor.recording

/-- Perform a task whose nesting is below the number, and record it. The site is the expression whose evaluation
asks for the task. -/
def recorder : Nat → Option VertexId → Perform (Recorded σ)
  | 0, _, _ => throw (.internal .exhausted)
  | n + 1, _, .eval sites expr => do
    let value ← walker.recorded.evalExpression (recorder n (some expr)) sites expr
    let left ← heap
    notify (·.note (.evaluated expr left))
    return value
  | n + 1, site, .invoke path this args => do
    notify (·.enter site path)
    let value ← walker.recorded.invokePath (recorder n none) path this args
    notify (·.leave)
    return value

/-- Walk a path and record what happens; the record is given also when the walk fails. -/
def recordWithin (nesting : Nat) (path : CodePath) (statics : StaticScopes) (observed : σ) :
    Except EngineError WalkOutcome × Recorded σ :=
  let (result, state) := (walker.recorded.walkPath (walker.recorder nesting none) path).run.run
    { symbols := { statics }, observed := { observed } }
  (result.map fun returned => { returned, visited := state.visited, symbols := state.symbols }, state.observed)

theorem recordWithin_of_run {nesting : Nat} {path : CodePath} {statics : StaticScopes} {observed : σ}
    {result : Except EngineError (Option Value)} {left : WalkState (Recorded σ)}
    (h : (walker.recorded.walkPath (walker.recorder nesting none) path).run
      { symbols := { statics }, observed := { observed } } = (result, left)) :
    walker.recordWithin nesting path statics observed =
      (result.map fun returned => { returned, visited := left.visited, symbols := left.symbols }, left.observed) :=
  congrArg (fun run : Except EngineError (Option Value) × WalkState (Recorded σ) =>
    (run.1.map fun returned => WalkOutcome.mk returned run.2.visited run.2.symbols, run.2.observed)) h

theorem exists_run_of_ends {nesting : Nat} {path : CodePath} {statics : StaticScopes} {observed : σ}
    {outcome : WalkOutcome} (h : (walker.recordWithin nesting path statics observed).1 = .ok outcome) :
    ∃ returned left, (walker.recorded.walkPath (walker.recorder nesting none) path).run
      { symbols := { statics }, observed := { observed } } = (.ok returned, left) ∧
      (walker.recordWithin nesting path statics observed).2 = left.observed := by
  generalize hresult : (walker.recorded.walkPath (walker.recorder nesting none) path).run
    { symbols := { statics }, observed := { observed } } = result
  obtain ⟨ended, left⟩ := result
  have hrecord := walker.recordWithin_of_run hresult
  rw [hrecord] at h
  cases ended with
  | error => cases h
  | ok returned => exact ⟨returned, left, rfl, congrArg Prod.snd hrecord⟩

/-! ## Records change nothing -/

/-- The instrument that keeps a record. -/
def recording : Instrument σ (Recorded σ) where
  observed := Recorded.observed
  visitor := walker.visitor.recording
  evaluated expr symbols := (·.note (.evaluated expr symbols.heap))
  enter := Recorded.enter
  leave := Recorded.leave

theorem faithful_recording : walker.recording.Faithful walker.visitor :=
  ⟨fun _ _ _ => rfl, fun _ _ _ => rfl, fun _ _ _ => rfl, fun _ _ _ => rfl, fun _ _ _ => rfl, fun _ _ _ => rfl,
  fun _ _ _ => rfl, fun _ _ _ => rfl, fun _ => rfl⟩

theorem recorder_eq_performUnder (nesting : Nat) (site : Option VertexId) :
    walker.recorder nesting site = walker.performUnder walker.recording nesting site := by
  induction nesting generalizing site with
  | zero => rfl
  | succ nesting ih =>
    funext task
    cases task with
    | eval sites expr =>
      rw [recorder, performUnder, ih]
      rfl
    | invoke path this args =>
      rw [recorder, performUnder, ih]
      rfl

variable {walker}

theorem observes_recording (top : FrameOutline) (rest : List FrameOutline) (v : VertexId) :
    Observes walker walker.visitor.recording Recorded.Shows Recorded.Shows Recorded.Shows top rest v :=
  observes_under walker.faithful_recording top rest v

theorem agrees_step_recorded {perform : Perform σ} {perform' : Perform (Recorded σ)}
    (hperform : Performs Framed Recorded.Shows Recorded.Shows perform perform') (path : CodePath) (v : VertexId)
    (top : FrameOutline)
    (rest : List FrameOutline) :
    Agrees Recorded.Shows Recorded.Shows (top :: rest) (walker.step perform path v)
    (walker.recorded.step perform' path v) Recorded.Shows (walker.passing top v :: rest) :=
  agrees_step_under walker.faithful_recording hperform path v top rest

theorem performs_recorder (walker : Walker σ) (nesting : Nat) (site : Option VertexId) :
    Performs Framed Recorded.Shows Recorded.Shows (walker.performWithin nesting) (walker.recorder nesting site) :=
  walker.recorder_eq_performUnder nesting site ▸ performs_under walker.faithful_recording nesting site

/-- A recorded walk ends as the walk does, with the same observations. -/
theorem walkWithin_eq_recorded (walker : Walker σ) (nesting : Nat) (path : CodePath) (statics : StaticScopes)
    (observed : σ) : walker.walkWithin nesting path statics observed =
      ((walker.recordWithin nesting path statics observed).1,
      (walker.recordWithin nesting path statics observed).2.observed) := by
  have hunder : walker.recordWithin nesting path statics observed =
      walker.walkUnder walker.recording nesting path statics { observed } := by
    rw [recordWithin, recorder_eq_performUnder]
    rfl
  rw [hunder]
  exact walkWithin_eq_walkUnder walker.faithful_recording nesting path statics { observed }

end Walker

/-!
## Laws

A law looks at the heap and the record before and after a computation and at what was
foretold of it: the events that surely happen, and those that may. Laws add up along a computation, so that
one pass over the walk serves every law. The values of names and the initialization of classes foretell nothing.
-/

open WalkM

/-! ## Forecasts -/

/-- What is foretold of a computation: the events that surely happen, and those that may happen, both in order. -/
structure Forecast (β : Type) where
  sure : List β
  possible : List β

namespace Forecast

variable {β : Type}

/-- Nothing happens. -/
def none : Forecast β := ⟨[], []⟩

instance : Append (Forecast β) := ⟨fun first second => ⟨first.sure ++ second.sure, first.possible ++ second.possible⟩⟩

/-- The same events may happen, but none of them surely. -/
def maybe (forecast : Forecast β) : Forecast β := ⟨[], forecast.possible⟩

/-- What is foretold of some items one after the other; those of the first list surely come, those of the second may. -/
def ofAll {α : Type} (of : α → Forecast β) (sure possible : List α) : Forecast β :=
  ⟨sure.flatMap fun a => (of a).sure, possible.flatMap fun a => (of a).possible⟩

/-- What is foretold is at least as exact as another forecast. -/
structure Within (forecast wider : Forecast β) : Prop where
  sure : wider.sure.Sublist forecast.sure
  possible : forecast.possible.Sublist wider.possible

theorem Within.refl (forecast : Forecast β) : forecast.Within forecast := ⟨.refl _, .refl _⟩

theorem none_append (forecast : Forecast β) : none ++ forecast = forecast := rfl

theorem append_none (forecast : Forecast β) : forecast ++ none = forecast := by
  show (⟨forecast.sure ++ [], forecast.possible ++ []⟩ : Forecast β) = forecast
  rw [append_nil, append_nil]

theorem append_assoc (a b c : Forecast β) : a ++ b ++ c = a ++ (b ++ c) := by
  show (⟨(a.sure ++ b.sure) ++ c.sure, (a.possible ++ b.possible) ++ c.possible⟩ : Forecast β) =
    ⟨a.sure ++ (b.sure ++ c.sure), a.possible ++ (b.possible ++ c.possible)⟩
  rw [List.append_assoc, List.append_assoc]

theorem within_maybe (forecast : Forecast β) : forecast.Within forecast.maybe := ⟨nil_sublist _, .refl _⟩

theorem none_within_maybe (forecast : Forecast β) : none.Within forecast.maybe :=
  ⟨nil_sublist _, nil_sublist _⟩

section
variable {α : Type} (of : α → Forecast β)

theorem ofAll_nil : ofAll of [] [] = none := rfl

theorem ofAll_cons (a : α) (sure possible : List α) :
    ofAll of (a :: sure) (a :: possible) = of a ++ ofAll of sure possible := by
  rw [ofAll, flatMap_cons, flatMap_cons]
  rfl

theorem ofAll_append (sure sure' possible possible' : List α) :
    ofAll of (sure ++ sure') (possible ++ possible') = ofAll of sure possible ++ ofAll of sure' possible' := by
  rw [ofAll, flatMap_append, flatMap_append]
  rfl

theorem ofAll_singleton (a : α) : ofAll of [a] [a] = of a := by rw [ofAll_cons, ofAll_nil, append_none]

theorem ofAll_none (sure possible : List α) : ofAll (fun _ => (none : Forecast β)) sure possible = none := by
  rw [ofAll]
  simp [none]

end

end Forecast

/-! ## Laws -/

/-- Instances, lists, and sets and maps without items. -/
def HeapObject.isPlain : HeapObject → Bool
  | .record .. | .list .. => true
  | .set _ contents => contents.items.isEmpty
  | .map _ _ contents => contents.items.isEmpty

/-- What laws look at: the heap, how many attached paths are being walked, and what happened so far. -/
structure Trail where
  heap : Heap
  depth : Nat
  log : List Entry

variable {σ : Type}

def WalkState.trail (state : WalkState (Recorded σ)) : Trail :=
  ⟨state.symbols.heap, state.observed.depth, state.observed.log⟩

/-- A law over events. `keeps` relates the trails before and after a computation of which something is foretold, `fails`
those of a computation that fails; both may be taken along a sequence, and what is weaker than a forecast may
be foretold as well. -/
structure Law (β : Type) where
  keeps : Forecast β → Trail → Trail → Prop
  fails : Trail → Trail → Prop
  rest : ∀ trail, keeps .none trail trail
  next : ∀ {first second a b c}, keeps first a b → keeps second b c → keeps (first ++ second) a c
  weaken : ∀ {forecast wider a b}, forecast.Within wider → keeps forecast a b → keeps wider a b
  stop : ∀ trail, fails trail trail
  late : ∀ {forecast a b c}, keeps forecast a b → fails b c → fails a c
  /-- Which changes of the heap foretell nothing. -/
  allows : Heap → Heap → Prop
  change : ∀ {trail : Trail} {heap}, allows trail.heap heap → keeps .none trail { trail with heap }
  object : ∀ heap (object : HeapObject), object.isPlain = true → allows heap (heap.allocate object).2
  field : ∀ heap ref name value, allows heap (heap.setField ref name value)
  call : ∀ {heap call value heap'}, Library.invoke call heap = some (value, heap') → allows heap heap'
  unmoved : ∀ heap, allows heap heap
  /-- What it means that the visitor is asked about a vertex. -/
  visits : VertexId → Forecast β
  visited : ∀ (trail : Trail) v, keeps (visits v) trail { trail with log := trail.log ++ [.visited v] }

variable {β : Type} {law : Law β}

/-- From every state a computation ends as a law says. -/
structure Obeys {α : Type} (law : Law β) (forecast : Forecast β) (m : WalkM (Recorded σ) α) : Prop where
  run : ∀ state, match m.run state with
    | (.ok _, left) => law.keeps forecast state.trail left.trail
    | (.error _, left) => law.fails state.trail left.trail

namespace Obeys

section
variable {α γ : Type} {forecast first second : Forecast β}

theorem pure (a : α) : Obeys law .none (Pure.pure a : WalkM (Recorded σ) α) :=
  ⟨fun state => law.rest state.trail⟩

/-- What is foretold of the rest may depend on the result of the first part. -/
theorem bindWithin {m : WalkM (Recorded σ) α} {f : α → WalkM (Recorded σ) γ} (h : Obeys law first m)
    (rest : α → Forecast β) (hf : ∀ a, Obeys law (rest a) (f a)) (hwithin : ∀ a, (first ++ rest a).Within forecast) :
    Obeys law forecast (m >>= f) := by
  refine ⟨fun state => ?_⟩
  rw [run_bind]
  have hfirst := h.run state
  generalize m.run state = result at hfirst
  obtain ⟨_ | a, middle⟩ := result
  · exact hfirst
  · have hsecond := (hf a).run middle
    dsimp only at hfirst ⊢
    generalize (f a).run middle = result at hsecond
    obtain ⟨_ | _, left⟩ := result
    · exact law.late hfirst hsecond
    · exact law.weaken (hwithin a) (law.next hfirst hsecond)

theorem bind {m : WalkM (Recorded σ) α} {f : α → WalkM (Recorded σ) γ} (h : Obeys law first m)
    (hf : ∀ a, Obeys law second (f a)) : Obeys law (first ++ second) (m >>= f) :=
  h.bindWithin (fun _ => second) hf fun _ => .refl _

theorem after {m : WalkM (Recorded σ) α} {f : α → WalkM (Recorded σ) γ} (h : Obeys law .none m)
    (hf : ∀ a, Obeys law forecast (f a)) : Obeys law forecast (m >>= f) := h.bind hf

theorem finish {m : WalkM (Recorded σ) α} {f : α → WalkM (Recorded σ) γ} (h : Obeys law forecast m)
    (hf : ∀ a, Obeys law .none (f a)) : Obeys law forecast (m >>= f) := forecast.append_none ▸ h.bind hf

theorem imp {wider : Forecast β} {m : WalkM (Recorded σ) α} (h : Obeys law forecast m)
    (hwithin : forecast.Within wider) : Obeys law wider m := by
  refine ⟨fun state => ?_⟩
  have hstate := h.run state
  generalize m.run state = result at hstate
  obtain ⟨_ | _, left⟩ := result
  · exact hstate
  · exact law.weaken hwithin hstate

theorem fail (error : EngineError) : Obeys law forecast (throw error : WalkM (Recorded σ) α) :=
  ⟨fun state => law.stop state.trail⟩

theorem map {m : WalkM (Recorded σ) α} (h : Obeys law forecast m) (f : α → γ) : Obeys law forecast (f <$> m) := by
  rw [← bind_pure_comp]
  exact h.finish fun a => .pure (f a)

theorem discard {m : WalkM (Recorded σ) α} (h : Obeys law forecast m) : Obeys law forecast (Functor.discard m) :=
  h.map _

theorem forM {f : α → WalkM (Recorded σ) PUnit} {of : α → Forecast β} (items : List α)
    (h : ∀ a ∈ items, Obeys law (of a) (f a)) : Obeys law (.ofAll of items items) (items.forM f) := by
  induction items with
  | nil => exact .pure _
  | cons a items ih =>
    obtain ⟨hfirst, hrest⟩ := forall_mem_cons.mp h
    rw [Forecast.ofAll_cons]
    exact hfirst.bind fun _ => ih hrest

theorem forM_none {f : α → WalkM (Recorded σ) PUnit} (items : List α) (h : ∀ a ∈ items, Obeys law .none (f a)) :
    Obeys law .none (items.forM f) := Forecast.ofAll_none items items ▸ forM items h

theorem mapM {f : α → WalkM (Recorded σ) γ} {of : α → Forecast β} (items : List α)
    (h : ∀ a ∈ items, Obeys law (of a) (f a)) : Obeys law (.ofAll of items items) (items.mapM f) := by
  induction items with
  | nil => exact .pure _
  | cons a items ih =>
    obtain ⟨hfirst, hrest⟩ := forall_mem_cons.mp h
    rw [mapM_cons, Forecast.ofAll_cons]
    exact hfirst.bind fun b => (ih hrest).finish fun rest => .pure _

theorem optionMapM {f : α → WalkM (Recorded σ) γ} {of : α → Forecast β} (item : Option α)
    (h : ∀ a ∈ item, Obeys law (of a) (f a)) : Obeys law (.ofAll of item.toList item.toList) (item.mapM f) := by
  cases item with
  | none => exact .pure _
  | some a =>
    rw [Option.toList_some, Forecast.ofAll_singleton]
    exact (h a rfl).map some

end

end Obeys

/-! ## Parts of the state -/

section
variable {α : Type}

theorem obeys_get : Obeys law .none (get : WalkM (Recorded σ) _) := ⟨fun state => law.rest state.trail⟩

theorem obeys_modify {f : WalkState (Recorded σ) → WalkState (Recorded σ)}
    (h : ∀ state, (f state).trail = state.trail) : Obeys law .none (modify f : WalkM (Recorded σ) Unit) := by
  refine ⟨fun state => ?_⟩
  show law.keeps .none state.trail (f state).trail
  rw [h]
  exact law.rest _

theorem obeys_symbols : Obeys law .none (symbols : WalkM (Recorded σ) Symbols) := obeys_get.after fun _ => .pure _

theorem obeys_modifySymbols {f : Symbols → Symbols} (h : ∀ symbols, (f symbols).heap = symbols.heap) :
    Obeys law .none (modifySymbols f : WalkM (Recorded σ) Unit) :=
  obeys_modify fun state => by rw [WalkState.trail, WalkState.trail, h]

theorem obeys_heap : Obeys law .none (heap : WalkM (Recorded σ) Heap) := obeys_symbols.after fun _ => .pure _

theorem obeys_onHeap {f : Heap → α × Heap} (h : ∀ heap, law.allows heap (f heap).2) :
    Obeys law .none (onHeap f : WalkM (Recorded σ) α) :=
  ⟨fun state => law.change (h state.symbols.heap)⟩

theorem obeys_modifyStatics (f : StaticScopes → StaticScopes) :
    Obeys law .none (modifyStatics f : WalkM (Recorded σ) Unit) :=
  obeys_modifySymbols fun _ => rfl

theorem obeys_callLibrary? (target : CallTarget) (method : String) (args : List Value) :
    Obeys law .none (callLibrary? target method args : WalkM (Recorded σ) (Option Value)) := by
  refine obeys_onHeap fun heap => ?_
  split
  · rename_i heap' hcall
    exact law.call hcall
  · exact law.unmoved heap

theorem obeys_notify {f : Recorded σ → Recorded σ} (hdepth : ∀ recorded, (f recorded).depth = recorded.depth)
    (hlog : ∀ recorded, (f recorded).log = recorded.log) : Obeys law .none (notify f) :=
  obeys_modify fun state => by rw [WalkState.trail, WalkState.trail, hdepth, hlog]

theorem obeys_frame : Obeys law .none (frame : WalkM (Recorded σ) Frame) :=
  obeys_symbols.after fun symbols => by
    cases symbols.frame? with
    | none => exact .fail _
    | some frame => exact .pure frame

theorem obeys_modifyFrame (f : Frame → Frame) : Obeys law .none (modifyFrame f : WalkM (Recorded σ) Unit) :=
  obeys_frame.after fun _ => obeys_modifySymbols fun symbols => by
    rw [Symbols.mapFrame]
    split <;> rfl

theorem obeys_pushFrame (frame : Frame) : Obeys law .none (pushFrame frame : WalkM (Recorded σ) Unit) :=
  obeys_modifySymbols fun _ => rfl

theorem obeys_popFrame : Obeys law .none (popFrame : WalkM (Recorded σ) Frame) := by
  refine ⟨fun state => ?_⟩
  obtain ⟨⟨heap, statics, frames⟩, iterables, subjects, visited, observed⟩ := state
  cases frames with
  | nil => exact law.stop _
  | cons frame frames => exact law.rest _

theorem obeys_this? : Obeys law .none (this? : WalkM (Recorded σ) (Option HeapRef)) :=
  obeys_frame.after fun frame => .pure frame.this

theorem obeys_declare (name type : String) (value : Value) :
    Obeys law .none (declare name type value : WalkM (Recorded σ) Unit) :=
  obeys_modifyFrame _

end

/-! ## Places -/

namespace Place

theorem obeys_read? (place : Place) : Obeys law .none (place.read? : WalkM (Recorded σ) (Option Value)) := by
  cases place with
  | «variable» name => exact obeys_symbols.after fun _ => .pure _
  | field object name => exact obeys_heap.after fun _ => .pure _
  | static owner name => exact obeys_symbols.after fun _ => .pure _
  | element container index => exact obeys_callLibrary? ..
  | unknown => exact .pure _

theorem obeys_write (value : Value) (place : Place) :
    Obeys law .none (place.write value : WalkM (Recorded σ) Unit) := by
  cases place <;> simp only [write]
  case «variable» name =>
    refine obeys_modifySymbols fun symbols => ?_
    rw [Symbols.mapFrame]
    split <;> rfl
  case field object name => exact obeys_onHeap fun _ => law.field ..
  case static owner name => exact obeys_modifyStatics _
  case element container index => exact (obeys_callLibrary? ..).discard
  case unknown => exact .pure _

end Place

namespace Walker

section
variable {walker : Walker (Recorded σ)} {perform : Perform (Recorded σ)}
  (hfield : ∀ init, Obeys law .none (perform (.eval none init)))
include hfield

/-! ## Classes and objects -/

theorem obeys_fieldValue (field : VertexId) (type : String) :
    Obeys law .none (walker.fieldValue perform field type) := by
  rw [fieldValue]
  cases walker.graph.childAt? field 0 with
  | none => exact .pure _
  | some init => exact (hfield init).map _

theorem obeys_setFields (type : VertexId) (static : Bool) {store : String → String → Value → WalkM (Recorded σ) Unit}
    (hstore : ∀ name declared value, Obeys law .none (store name declared value)) :
    Obeys law .none (walker.setFields perform type static store) := by
  refine (Obeys.forM_none _ fun field _ => ?_).after fun _ => .forM_none _ fun property _ => ?_
  · exact (obeys_fieldValue hfield field _).after fun value => hstore _ _ value
  · dsimp only
    cases walker.graph.name? property with
    | none => exact .pure _
    | some name => exact hstore ..

theorem obeys_initializeStaticFields (type : VertexId) : Obeys law .none (walker.initializeStaticFields perform type) :=
  (obeys_pushFrame _).after fun _ =>
  (obeys_setFields hfield type true fun _ _ _ => obeys_modifyStatics _).after fun _ =>
    obeys_popFrame.discard

theorem obeys_initializeClass (owner : String) (blocks : Option CodePath) {forecast : Forecast β}
    (hblocks : ∀ path ∈ blocks, Obeys law forecast (perform (.invoke path none []))) :
    Obeys law forecast.maybe (walker.initializeClass perform owner blocks) := by
  rw [initializeClass]
  refine obeys_symbols.after fun symbols => (obeys_modifyStatics _).after fun _ => ?_
  have hfinish : Obeys law .none (modifyStatics (·.finish owner) : WalkM (Recorded σ) Unit) := obeys_modifyStatics _
  have hrest : Obeys law forecast.maybe (runBlocks perform owner blocks) := by
    cases blocks with
    | none => exact hfinish.imp forecast.none_within_maybe
    | some path => exact ((hblocks path rfl).discard.finish fun _ => hfinish).imp forecast.within_maybe
  split
  · cases walker.program.typeNamed? owner with
    | none => exact hrest
    | some type => exact (obeys_initializeStaticFields hfield type).after fun _ => hrest
  · exact (Obeys.pure _).imp forecast.none_within_maybe

theorem obeys_ensureInitialized (type : VertexId) : Obeys law .none (walker.ensureInitialized perform type) := by
  rw [ensureInitialized]
  refine obeys_symbols.after fun symbols => ?_
  split
  · show Obeys law (Forecast.none : Forecast β).maybe _
    exact obeys_initializeClass hfield _ none fun _ hnone => absurd hnone (Option.not_mem_none _)
  · exact .pure _

theorem obeys_runStaticInits (path : CodePath) (anchor : Option VertexId)
    {of : String × Option VertexId × CodePath → Forecast β} (h : ∀ init ∈ path.staticInits,
    Obeys law (of init) (perform (.invoke init.2.2 none []))) :
    Obeys law (Forecast.ofAll of (path.staticInits.filter (·.2.1 == anchor))
    (path.staticInits.filter (·.2.1 == anchor))).maybe (walker.runStaticInits perform path anchor) := by
  have hinit : ∀ init ∈ path.staticInits.filter (·.2.1 == anchor),
      Obeys law (of init).maybe (walker.initializeClass perform init.1 (some init.2.2)) := by
    refine fun init hmem => obeys_initializeClass hfield init.1 (some init.2.2) fun path hpath => ?_
    cases hpath
    exact h _ (mem_filter.mp hmem).1
  exact (Obeys.forM _ hinit).imp ⟨nil_sublist _, .refl _⟩

theorem obeys_instantiate (type : VertexId) : Obeys law .none (walker.instantiate perform type) :=
  (obeys_onHeap fun heap => law.object heap _ rfl).after fun ref =>
    (Obeys.forM_none _ fun owner _ => (obeys_pushFrame _).after fun _ =>
      (obeys_setFields hfield owner false fun _ _ _ => obeys_onHeap fun _ => law.field ..).after fun _ =>
        obeys_popFrame.discard).after fun _ => .pure ref

/-! ## Names -/

theorem obeys_staticValue? (owner : VertexId) (name : String) :
    Obeys law .none (walker.staticValue? perform owner name) :=
  (obeys_ensureInitialized hfield owner).after fun _ => obeys_symbols.after fun _ => .pure _

theorem obeys_declaredValue (binding : Binding) (name : String) :
    Obeys law .none (walker.declaredValue perform binding name) := by
  rw [declaredValue]
  cases staticOwner? binding.declared with
  | none => exact .pure _
  | some owner => exact (obeys_staticValue? hfield owner name).after fun _ => .pure _

theorem obeys_nameValue? (name : String) (place : VertexId) :
    Obeys law .none (walker.nameValue? perform name place) := by
  rw [nameValue?]
  refine obeys_frame.after fun _ => obeys_symbols.after fun symbols => ?_
  cases symbols.lookup? name with
  | some value => exact .pure _
  | none =>
    cases walker.program.variableBinding? name place with
    | none => exact .pure _
    | some binding => exact (obeys_declaredValue hfield binding name).after fun _ => .pure _

theorem obeys_staticMember? (type : VertexId) (name : String) :
    Obeys law .none (walker.staticMember? perform type name) := by
  rw [staticMember?]
  cases walker.enumConstant? type name with
  | some constant => exact .pure _
  | none =>
    cases walker.program.memberBinding? type name with
    | none => exact .pure _
    | some binding => exact (obeys_declaredValue hfield binding name).after fun _ => .pure _

omit hfield in
theorem obeys_membersOf (value : Value) (names : List String) : Obeys law .none (walker.membersOf value names) :=
  obeys_heap.after fun _ => .pure _

theorem obeys_resolveType (names : List String) (place : VertexId) :
    Obeys law .none (walker.resolveType perform names place) := by
  rw [resolveType]
  rcases walker.namedType? names place with _ | ⟨type, _ | ⟨name, rest⟩⟩
  · exact .pure _
  · exact .pure _
  · refine (obeys_staticMember? hfield type name).after fun value => ?_
    cases value with
    | none => exact .pure _
    | some value => exact (obeys_membersOf value rest).after fun _ => .pure _

theorem obeys_resolveNames (names : List String) (place : VertexId) :
    Obeys law .none (walker.resolveNames perform names place) := by
  cases names with
  | nil => exact .pure _
  | cons first names =>
    rw [resolveNames]
    refine (obeys_nameValue? hfield first place).after fun value => ?_
    cases value with
    | some value => exact (obeys_membersOf value names).after fun _ => .pure _
    | none =>
      rcases walker.triggerVariable? (first :: names) place with _ | ⟨value, others⟩
      · exact obeys_resolveType hfield _ place
      · exact (obeys_membersOf value others).after fun _ => .pure _

theorem obeys_variablePlace (name : String) (target : VertexId) :
    Obeys law .none (walker.variablePlace perform name target) := by
  rw [variablePlace]
  refine obeys_frame.after fun frame => obeys_symbols.after fun all => ?_
  split
  · exact .pure _
  cases frame.this.filter fun this => (all.heap.field? this name).isSome with
  | some this => exact .pure _
  | none =>
    cases frame.owner.filter fun owner => (all.statics.lookup? owner name).isSome with
    | some owner => exact .pure _
    | none =>
      rcases (walker.program.variableBinding? name target).map Binding.declared with
        _ | ⟨_⟩ | ⟨_⟩ | ⟨owner, _, _ | _⟩ | ⟨owner, _, _ | _⟩
      · exact .pure _
      · exact .pure _
      · exact .pure _
      · exact .pure _
      · exact (obeys_ensureInitialized hfield owner).after fun _ => .pure _
      · exact .pure _
      · exact (obeys_ensureInitialized hfield owner).after fun _ => .pure _

theorem obeys_staticPlace (type : VertexId) (name : String) : Obeys law .none (walker.staticPlace perform type name) :=
  (obeys_ensureInitialized hfield _).after fun _ => .pure _

end

end Walker

end ApexPaths
