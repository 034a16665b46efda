import ApexPaths.Proofs.Expansion.Nesting
import ApexPaths.Proofs.Expansion.Spliced
import ApexPaths.Proofs.Memory.References
import ApexPaths.Proofs.Walk.Growth
import Mathlib.Data.List.Flatten

/-!
The turns of the static initializers of a path. Each has its turn where the path has it: before the first vertex,
or when its vertex was visited, after the others of the same place. At its turn the path of an initializer is
walked if its class is not initialized, and left out if a use of the class initialized it before.
-/

namespace ApexPaths
set_option autoImplicit false

open WalkM List

variable {σ : Type}

/-! ## Turns -/

/-- The items of a list, each with those before it and some more before all of them. -/
def successiveFrom {α : Type} (before : List α) : List α → List (List α × α)
  | [] => []
  | a :: rest => (before, a) :: successiveFrom (before ++ [a]) rest

/-- Each item with those before it. -/
def successive {α : Type} (items : List α) : List (List α × α) := successiveFrom [] items

theorem map_snd_successiveFrom {α : Type} (before items : List α) :
    (successiveFrom before items).map Prod.snd = items := by
  induction items generalizing before with
  | nil => rfl
  | cons a rest ih => rw [successiveFrom, map_cons, ih]

theorem map_snd_successive {α : Type} (items : List α) : (successive items).map Prod.snd = items :=
  map_snd_successiveFrom [] items

/-- A static initializer of a path: the class, the vertex that uses it first, if one does, and the path. -/
abbrev StaticInit := String × Option VertexId × CodePath

/-- A static initializer at its turn. -/
structure Turn where
  /-- The vertex to which it belongs, with the vertices before it on the path. -/
  place : Option (List VertexId × VertexId)
  /-- The initializers of the same place before it. -/
  earlier : List StaticInit
  init : StaticInit

namespace CodePath

/-- The initializers of an anchor, each with those before it. -/
def turnsAt (path : CodePath) (anchor : Option VertexId) (place : Option (List VertexId × VertexId)) : List Turn :=
  (successive (path.staticInits.filter (·.2.1 == anchor))).map fun (earlier, init) => ⟨place, earlier, init⟩

/-- All turns along a path, in the order in which they come. -/
def turns (path : CodePath) : List Turn :=
  path.turnsAt none none ++ (successive path.ids).flatMap fun (passed, v) => path.turnsAt (some v) (some (passed, v))

theorem map_init_turnsAt (path : CodePath) (anchor : Option VertexId) (place : Option (List VertexId × VertexId)) :
    (path.turnsAt anchor place).map Turn.init = path.staticInits.filter (·.2.1 == anchor) := by
  rw [turnsAt, map_map]
  exact map_snd_successive _

theorem perm_turns {path : CodePath} (hnodup : path.ids.Nodup)
    (hanchors : ∀ init ∈ path.staticInits, ∀ v, init.2.1 = some v → v ∈ path.ids) :
    (path.turns.map Turn.init).Perm path.staticInits := by
  have hturns : path.turns.map Turn.init = (none :: path.ids.map some).flatMap fun anchor =>
      path.staticInits.filter (·.2.1 == anchor) := by
    rw [turns, map_append, map_init_turnsAt, flatMap_cons, map_flatMap]
    congr 1
    conv_rhs => rw [← map_snd_successive path.ids, map_map, flatMap_map]
    exact flatMap_congr fun entry _ => map_init_turnsAt ..
  rw [hturns]
  refine perm_flatMap_filter (fun init : StaticInit => init.2.1) _
    (nodup_cons.mpr ⟨by simp, hnodup.map fun _ _ => Option.some.inj⟩) ?_
  intro init hinit
  cases hanchor : init.2.1 with
  | none => exact mem_cons_self
  | some v => exact mem_cons_of_mem _ (mem_map_of_mem (hanchors init hinit v hanchor))

end CodePath

/-! ## The walk up to a turn -/

namespace Walker

variable (walker : Walker σ) (perform : Perform σ)

/-- What a walk does before the first vertex of a path. -/
def arrive (path : CodePath) : WalkM σ Unit := do
  walker.runStaticInits perform path none
  match walker.graph.enclosingType? path.method with
  | some type => walker.ensureInitialized perform type
  | none => pure ()
  let this ← if walker.graph.isStatic path.method then pure none
    else (walker.graph.enclosingType? path.method).mapM (walker.instantiate perform)
  pushFrame (walker.methodFrame path.method this [])
  let entered ← symbols
  notify (walker.visitor.enterMethod path.method entered)

/-- What a walk does at a vertex before it is evaluated. -/
def enter (v : VertexId) : WalkM σ Unit := do
  if (walker.graph.labelOf v).opensScope then modifyFrame (·.pushBlock (walker.graph.labelOf v))
  discard (walker.visit v)

/-- Initialize the class of an initializer, unless that was begun before. -/
def takeTurn (init : StaticInit) : WalkM σ Unit := walker.initializeClass perform init.1 (some init.2.2)

/-- What a walk does before an initializer takes its turn. -/
def comeTo (path : CodePath) (turn : Turn) : WalkM σ Unit := do
  match turn.place with
  | some (passed, v) =>
    walker.arrive perform path
    passed.forM (walker.step perform path)
    walker.enter v
  | none => pure ()
  turn.earlier.forM (walker.takeTurn perform)

/-- The path that is walked at a turn: that of the initializer if its class is not initialized. -/
def dueAt? (path : CodePath) (turn : Turn) (start : WalkState σ) : Option CodePath :=
  if ((walker.comeTo perform path turn).run start).2.symbols.statics.state turn.init.1 =
    .uninitialized then some turn.init.2.2 else none

theorem walkPath_eq (path : CodePath) : walker.walkPath perform path = (do
    walker.arrive perform path
    path.ids.forM (walker.step perform path)
    let left ← popFrame
    notify (walker.visitor.exitMethod path.method left.returned)
    return left.returned) := by
  rw [walkPath, arrive]
  simp only [bind_assoc, runMethod]
  congr
  funext _
  cases walker.graph.enclosingType? path.method <;> cases walker.graph.isStatic path.method <;>
    simp only [bind_assoc, pure_bind, Bool.false_eq_true, if_false, if_true]

/-! ## Turns of recorded walks -/

section
variable {perform} {perform' : Perform (Recorded σ)}
    (hperform : Performs Framed Recorded.Shows Recorded.Shows perform perform')
include hperform

theorem keeps_takeTurn (init : StaticInit) (outlines : List FrameOutline) : Keeps Recorded.Shows Recorded.Shows outlines
    (walker.takeTurn perform init) (walker.recorded.takeTurn perform' init) :=
  keeps_initializeClass (admits_framed _) hperform _ _ fun _ _ => trivial

theorem agrees_arrive (path : CodePath) : ∃ top, Agrees Recorded.Shows Recorded.Shows [] (walker.arrive perform path)
    (walker.recorded.arrive perform' path) Recorded.Shows [top] := by
  refine ⟨⟨walker.parameterOutline path.method, []⟩, ?_⟩
  have hstatics : Keeps Recorded.Shows Recorded.Shows [] (walker.runStaticInits perform path none)
      (walker.recorded.runStaticInits perform' path none) :=
    keeps_runStaticInits (admits_framed _) hperform path none fun _ _ => trivial
  have hframe : ∀ this : Option HeapRef, Agrees Recorded.Shows Recorded.Shows []
      (do
        pushFrame (walker.methodFrame path.method this [])
        let entered ← symbols
        notify (walker.visitor.enterMethod path.method entered))
      (do
        pushFrame (walker.methodFrame path.method this [])
        let entered ← symbols
        notify (walker.recorded.visitor.enterMethod path.method entered))
      Recorded.Shows [⟨walker.parameterOutline path.method, []⟩] := by
    intro this
    rw [← walker.outline_methodFrame path.method this []]
    refine (agrees_pushFrame _).bind fun _ => agrees_symbols.bind fun entered => agrees_notify ?_
    rintro _ recorded rfl
    rfl
  have hobject : ∀ owner : Option VertexId, Agrees Recorded.Shows Recorded.Shows []
      (do
        let this ← if walker.graph.isStatic path.method then pure none else owner.mapM (walker.instantiate perform)
        pushFrame (walker.methodFrame path.method this [])
        let entered ← symbols
        notify (walker.visitor.enterMethod path.method entered))
      (do
        let this ← if walker.graph.isStatic path.method then pure none
          else owner.mapM (walker.recorded.instantiate perform')
        pushFrame (walker.methodFrame path.method this [])
        let entered ← symbols
        notify (walker.recorded.visitor.enterMethod path.method entered))
      Recorded.Shows [⟨walker.parameterOutline path.method, []⟩] := by
    intro owner
    split
    · exact hframe none
    · exact (Agrees.optionMapM _ fun type _ => keeps_instantiate (admits_framed _) hperform type []).bind hframe
  rw [arrive, arrive, show walker.recorded.graph = walker.graph from rfl]
  refine hstatics.bind fun _ => ?_
  cases walker.graph.enclosingType? path.method with
  | none => exact hobject none
  | some type => exact (keeps_ensureInitialized (admits_framed _) hperform type []).bind fun _ => hobject (some type)

omit hperform in
theorem agrees_enter (top : FrameOutline) (rest : List FrameOutline) (v : VertexId) :
    Agrees Recorded.Shows Recorded.Shows (top :: rest) (walker.enter v) (walker.recorded.enter v) Recorded.Shows
    (walker.entering top v :: rest) := by
  have hvisit : Agrees Recorded.Shows Recorded.Shows (walker.entering top v :: rest) (discard (walker.visit v))
      (discard (walker.recorded.visit v)) Recorded.Shows (walker.entering top v :: rest) :=
    (agrees_visit (observes_recording top rest v).visit).bind fun _ => .ret _
  rw [enter, enter, show walker.recorded.graph = walker.graph from rfl]
  dsimp only
  split
  · rename_i hopens
    refine (agrees_modifyFrame fun frame hframe => ?_).bind fun _ => hvisit
    rw [frame.outline_pushBlock, hframe, entering, if_pos hopens]
  · rename_i hopens
    rw [entering, if_neg hopens] at hvisit
    rw [entering, if_neg hopens]
    exact hvisit

theorem agrees_comeTo (path : CodePath) (turn : Turn) :
    ∃ left, Agrees Recorded.Shows Recorded.Shows [] (walker.comeTo perform path turn)
    (walker.recorded.comeTo perform' path turn) Recorded.Shows left := by
  have hearlier : ∀ outlines, Keeps Recorded.Shows Recorded.Shows outlines (turn.earlier.forM (walker.takeTurn perform))
      (turn.earlier.forM (walker.recorded.takeTurn perform')) :=
      fun outlines => .forM _ fun init _ => keeps_takeTurn walker hperform init outlines
  rw [comeTo, comeTo]
  rcases turn.place with _ | ⟨passed, v⟩
  · exact ⟨_, hearlier []⟩
  · obtain ⟨top, harrive⟩ := agrees_arrive walker hperform path
    have hsteps : Agrees Recorded.Shows Recorded.Shows [top] (passed.forM (walker.step perform path))
        (passed.forM (walker.recorded.step perform' path)) Recorded.Shows [passed.foldl walker.passing top] := by
      refine Agrees.forM_through (fun _ => Recorded.Shows) (fun done => [done.foldl walker.passing top]) passed
        fun done u _ _ => ?_
      rw [foldl_append]
      exact agrees_step_recorded hperform path u _ []
    exact ⟨_, harrive.bind fun _ => hsteps.bind fun _ => (agrees_enter walker _ _ v).bind fun _ => hearlier _⟩

theorem dueAt?_recorded (path : CodePath) (turn : Turn) (statics : StaticScopes) (observed : σ) :
    walker.recorded.dueAt? perform' path turn { symbols := { statics }, observed := { observed } } =
      walker.dueAt? perform path turn { symbols := { statics }, observed } := by
  obtain ⟨left, hagrees⟩ := agrees_comeTo walker hperform path turn
  obtain ⟨seen, hrun, -⟩ := hagrees.run { symbols := { statics }, observed } { observed } rfl rfl
  have hstate :
    ((walker.recorded.comeTo perform' path turn).run { symbols := { statics }, observed := { observed } }).2.symbols =
    ((walker.comeTo perform path turn).run { symbols := { statics }, observed }).2.symbols :=
    congrArg (fun result : Except EngineError Unit × WalkState (Recorded σ) => result.2.symbols) hrun
  rw [dueAt?, dueAt?, hstate]

end

/-! ## What is walked at turns -/

/-- Where a computation does not fail, the record grows by exactly the events that are told of the state before. -/
structure Adds {α β : Type} (pick : Pick β) (m : WalkM (Recorded σ) α) (told : WalkState (Recorded σ) → List β) :
    Prop where
  run : ∀ state a left, m.run state = (.ok a, left) → Grows pick (.exactly (told state)) state.trail left.trail

theorem exists_of_run_bind {α γ : Type} {m : WalkM σ α} {f : α → WalkM σ γ} {state left : WalkState σ} {c : γ}
    (h : (m >>= f).run state = (.ok c, left)) : ∃ a middle, m.run state = (.ok a, middle) ∧
    (f a).run middle = (.ok c, left) := by
  rw [run_bind] at h
  generalize m.run state = result at h
  obtain ⟨_ | a, middle⟩ := result
  · cases h
  · exact ⟨a, middle, rfl, h⟩

theorem run_bind_of_ok {α γ : Type} {m : WalkM σ α} {f : α → WalkM σ γ} {state middle : WalkState σ} {a : α}
    (h : m.run state = (.ok a, middle)) : (m >>= f).run state = (f a).run middle := by rw [run_bind, h]

namespace Adds

section
variable {α γ β : Type} {pick : Pick β} {m : WalkM (Recorded σ) α} {told : WalkState (Recorded σ) → List β}

theorem of_obeys {events : List β} (h : Obeys (growing pick) (.exactly events) m) : Adds pick m fun _ => events := by
  refine ⟨fun state a left hrun => ?_⟩
  have hstate := h.run state
  rw [hrun] at hstate
  exact hstate

theorem bind {f : α → WalkM (Recorded σ) γ} {told' : WalkState (Recorded σ) → List β} (h : Adds pick m told)
    (hf : ∀ a, Adds pick (f a) told') : Adds pick (m >>= f) fun state => told state ++ told' (m.run state).2 := by
  refine ⟨fun state c left hrun => ?_⟩
  obtain ⟨a, middle, hfirst, hsecond⟩ := exists_of_run_bind hrun
  rw [hfirst]
  exact (growing pick).next (h.run state a middle hfirst) ((hf a).run middle c left hsecond)

theorem finish {f : α → WalkM (Recorded σ) γ} (h : Adds pick m told) (hf : ∀ a, Obeys (growing pick) .none (f a)) :
    Adds pick (m >>= f) told := by
  have hboth := h.bind fun a => of_obeys (show Obeys (growing pick) (.exactly []) (f a) from hf a)
  simpa using hboth

theorem forM {f : α → WalkM (Recorded σ) PUnit} {told : List α × α → WalkState (Recorded σ) → List β}
    (h : ∀ entry : List α × α, Adds pick (f entry.2) (told entry)) (items : List α) :
    Adds pick (items.forM f) fun state => (successive items).flatMap fun entry =>
    told entry ((entry.1.forM f).run state).2 := by
  suffices hrest : ∀ (todo done : List α) (start state left : WalkState (Recorded σ)),
    (done.forM f).run start = (.ok (), state) → (todo.forM f).run state = (.ok (), left) →
    Grows pick (.exactly ((successiveFrom done todo).flatMap fun entry =>
        told entry ((entry.1.forM f).run start).2)) state.trail left.trail from
    ⟨fun state _ left hrun => hrest items [] state state left rfl hrun⟩
  intro todo
  induction todo with
  | nil =>
    intro done start state left _ hrun
    obtain rfl : state = left := congrArg Prod.snd hrun
    exact (growing pick).rest _
  | cons a rest ih =>
    intro done start state left hdone hrun
    obtain ⟨_, middle, hfirst, hsecond⟩ := exists_of_run_bind hrun
    have hnext : ((done ++ [a]).forM f).run start = (.ok (), middle) := by
      change (ForM.forM (done ++ [a]) f).run start = _
      rw [forM_append]
      refine (run_bind_of_ok hdone).trans ?_
      rw [forM_cons, run_bind_of_ok hfirst]
      rfl
    rw [successiveFrom, flatMap_cons, hdone]
    exact (growing pick).next ((h (done, a)).run state _ middle hfirst) (ih _ start middle left hnext hsecond)

end

end Adds

def initPick : Pick CodePath where
  walk site path := if site.isNone then some path else none

/-- What is walked at a turn, told of the state in which its place is reached. -/
def toldAt (walker : Walker (Recorded σ)) (perform : Perform (Recorded σ)) (state : WalkState (Recorded σ))
    (turn : Turn) : Option CodePath :=
  if ((turn.earlier.forM (walker.takeTurn perform)).run state).2.symbols.statics.state turn.init.1 =
    .uninitialized then some turn.init.2.2 else none

theorem step_eq_of_consents {walker : Walker (Recorded σ)} (hconsents : Consents walker.visitor)
    (perform : Perform (Recorded σ)) (path : CodePath) (v : VertexId) : walker.step perform path v = (do
      walker.enter v
      walker.runStaticInits perform path (some v)
      walker.evaluateVertex perform path v
      let after ← symbols
      notify (walker.visitor.afterVisit v after)
      modifyFrame (·.popBlocks (walker.graph.endScopes v).length)) := by
  have hvisit : ∀ f : Bool → WalkM (Recorded σ) Unit,
      (walker.visit v >>= f) = (discard (walker.visit v) >>= fun _ => f true) := by
    intro f
    rw [visit_bind_of_consents hconsents]
    show _ = ((fun _ => ()) <$> walker.visit v) >>= _
    rw [← bind_pure_comp, bind_assoc]
    simp only [pure_bind]
  rw [step, enter]
  dsimp only
  split
  · rw [hvisit]
    simp only [if_true, bind_assoc]
  · rw [hvisit]
    simp only [if_true]

section
variable (walker : Walker (Recorded σ)) {perform : Perform (Recorded σ)}
  (hfield : ∀ init, Obeys (growing initPick) .none (perform (.eval none init)))
  (hinit : ∀ path, Obeys (growing initPick) (.exactly [path]) (perform (.invoke path none [])))
include hfield hinit

theorem adds_takeTurn (init : StaticInit) : Adds initPick (walker.takeTurn perform init) fun state =>
    (if state.symbols.statics.state init.1 = .uninitialized then some init.2.2 else none).toList := by
  have hfirst :
      Obeys (growing initPick) (.exactly [init.2.2]) (walker.runInitialization perform init.1 (some init.2.2)) := by
    have hrest : Obeys (growing initPick) (.exactly [init.2.2]) (runBlocks perform init.1 (some init.2.2)) :=
      (hinit init.2.2).discard.finish fun _ => obeys_modifyStatics _
    rw [runInitialization]
    cases walker.program.typeNamed? init.1 with
    | none => exact hrest
    | some type => exact (obeys_initializeStaticFields hfield type).after fun _ => hrest
  refine ⟨fun state _ left hrun => ?_⟩
  have hsplit : (walker.takeTurn perform init).run state = (if (state.symbols.statics.begin init.1).1 then
        walker.runInitialization perform init.1 (some init.2.2) else pure ()).run
      { state with symbols := { state.symbols with statics := (state.symbols.statics.begin init.1).2 } } := rfl
  rw [hsplit, StaticScopes.begin_fst] at hrun
  by_cases huninitialized : state.symbols.statics.state init.1 = .uninitialized
  · rw [if_pos (decide_eq_true huninitialized)] at hrun
    rw [if_pos huninitialized]
    have hgrows := (Adds.of_obeys hfirst).run _ _ _ hrun
    exact hgrows
  · rw [if_neg (by simpa using huninitialized)] at hrun
    rw [if_neg huninitialized]
    obtain rfl := congrArg Prod.snd hrun
    exact (growing initPick).rest _

theorem adds_runStaticInits (path : CodePath) (anchor : Option VertexId) (place : Option (List VertexId × VertexId)) :
    Adds initPick (walker.runStaticInits perform path anchor) fun state =>
      (path.turnsAt anchor place).filterMap (walker.toldAt perform state) := by
  have hall :=
    Adds.forM (fun entry => adds_takeTurn walker hfield hinit entry.2) (path.staticInits.filter (·.2.1 == anchor))
  refine ⟨fun state a left hrun => ?_⟩
  have hgrows := hall.run state a left hrun
  rw [CodePath.turnsAt, filterMap_map, filterMap_eq_flatMap_toList]
  exact hgrows

variable (hrecords : walker.visitor.Records)
include hrecords

theorem adds_arrive (path : CodePath) : Adds initPick (walker.arrive perform path) fun state =>
    (path.turnsAt none none).filterMap (walker.toldAt perform state) := by
  have hframe : ∀ this : Option HeapRef, Obeys (growing initPick) .none (do
      pushFrame (walker.methodFrame path.method this [])
      let entered ← symbols
      notify (walker.visitor.enterMethod path.method entered)) := fun this =>
    (obeys_pushFrame _).after fun _ => obeys_symbols.after fun entered =>
      obeys_notify (fun _ => (hrecords.enterMethod ..).1) fun _ => (hrecords.enterMethod ..).2
  have hobject : ∀ owner : Option VertexId, Obeys (growing initPick) .none (do
      let this ← if walker.graph.isStatic path.method then pure none else owner.mapM (walker.instantiate perform)
      pushFrame (walker.methodFrame path.method this [])
      let entered ← symbols
      notify (walker.visitor.enterMethod path.method entered)) := by
    intro owner
    split
    · exact hframe none
    · cases owner with
      | none => exact hframe none
      | some type => exact ((obeys_instantiate hfield type).map some).after hframe
  rw [arrive]
  refine (adds_runStaticInits walker hfield hinit path none none).finish fun _ => ?_
  cases walker.graph.enclosingType? path.method with
  | none => exact hobject none
  | some type => exact (obeys_ensureInitialized hfield type).after fun _ => hobject (some type)

variable (hconsents : Consents walker.visitor)
    (heval : ∀ sites expr, Obeys (growing initPick) .none (perform (.eval sites expr)))
include hconsents heval

/-- A step walks the initializers whose class waits for them. -/
theorem adds_step (path : CodePath) (v : VertexId) (place : Option (List VertexId × VertexId)) :
    Adds initPick (walker.step perform path v) fun state =>
      (path.turnsAt (some v) place).filterMap (walker.toldAt perform ((walker.enter v).run state).2) := by
  have henter : Obeys (growing initPick) .none (walker.enter v) := by
    have hvisit : Obeys (growing initPick) .none (discard (walker.visit v)) := (obeys_visit hrecords v).discard
    rw [enter]
    split
    · exact (obeys_modifyFrame _).after fun _ => hvisit
    · exact hvisit
  have hrest : Obeys (growing initPick) .none (do
      walker.evaluateVertex perform path v
      let after ← symbols
      notify (walker.visitor.afterVisit v after)
      modifyFrame (·.popBlocks (walker.graph.endScopes v).length)) := by
    have hvertex : Obeys (growing initPick) (.ofAll (fun _ => .none) (walker.vertexParts v) (walker.vertexParts v))
        (walker.evaluateVertex perform path v) := obeys_evaluateVertex fun part _ => heval (some path) part
    rw [Forecast.ofAll_none] at hvertex
    exact hvertex.after fun _ => obeys_leave hrecords v
  rw [step_eq_of_consents hconsents]
  have hturns := (adds_runStaticInits walker hfield hinit path (some v) place).finish fun _ => hrest
  have hall := (Adds.of_obeys (show Obeys (growing initPick) (.exactly []) _ from henter)).bind fun _ => hturns
  simpa using hall

theorem adds_walkPath (path : CodePath) : Adds initPick (walker.walkPath perform path) fun start =>
    (path.turnsAt none none).filterMap (walker.toldAt perform start) ++ (successive path.ids).flatMap fun entry =>
      (path.turnsAt (some entry.2) (some entry)).filterMap (walker.toldAt perform ((walker.enter entry.2).run
        ((entry.1.forM (walker.step perform path)).run ((walker.arrive perform path).run start).2).2).2) := by
  have hend : Obeys (growing initPick) .none (do
      let left ← popFrame
      notify (walker.visitor.exitMethod path.method left.returned)
      return left.returned) := obeys_popFrame.after fun left =>
    (obeys_notify (fun _ => (hrecords.exitMethod ..).1) fun _ => (hrecords.exitMethod ..).2).after fun _ => .pure _
  have hsteps : Adds initPick (path.ids.forM (walker.step perform path)) fun state =>
    (successive path.ids).flatMap fun entry =>
      (path.turnsAt (some entry.2) (some entry)).filterMap (walker.toldAt perform ((walker.enter entry.2).run
        ((entry.1.forM (walker.step perform path)).run state).2).2) :=
    .forM (fun entry => adds_step walker hfield hinit hrecords hconsents heval path entry.2 (some entry)) path.ids
  rw [walkPath_eq]
  exact (adds_arrive walker hfield hinit hrecords path).bind fun _ => hsteps.finish fun _ => hend

end

/-! ## Initializers along expanded paths -/

theorem mem_successiveFrom {α : Type} {before passed items : List α} {a : α}
    (h : (passed, a) ∈ successiveFrom before items) : ∃ rest, before ++ items = passed ++ a :: rest := by
  induction items generalizing before with
  | nil => cases h
  | cons b items ih =>
    rcases mem_cons.mp h with heq | h
    · cases heq
      exact ⟨items, rfl⟩
    · obtain ⟨rest, hrest⟩ := ih h
      exact ⟨rest, by rw [← hrest, List.append_assoc, singleton_append]⟩

theorem dueAt?_eq_toldAt {walker : Walker (Recorded σ)} {perform : Perform (Recorded σ)} {path : CodePath}
    {start arrived reached entered : WalkState (Recorded σ)} {passed : List VertexId} {v : VertexId} {turn : Turn}
    (hplace : turn.place = some (passed, v))
    (harrive : (walker.arrive perform path).run start = (.ok (), arrived))
    (hpassed : (passed.forM (walker.step perform path)).run arrived = (.ok (), reached))
    (henter : (walker.enter v).run reached = (.ok (), entered)) :
    walker.dueAt? perform path turn start = walker.toldAt perform ((walker.enter v).run reached).2 turn := by
  have hcome : (walker.comeTo perform path turn).run start =
      (turn.earlier.forM (walker.takeTurn perform)).run entered := by
    rw [comeTo, hplace]
    dsimp only
    rw [run_bind_of_ok harrive, run_bind_of_ok hpassed, run_bind_of_ok henter]
  rw [dueAt?, toldAt, hcome, henter]

/-- What is walked is what is due. -/
theorem walked_eq_due {walker : Walker (Recorded σ)} {perform : Perform (Recorded σ)}
    (hfield : ∀ init, Obeys (growing initPick) .none (perform (.eval none init)))
    (hinit : ∀ path, Obeys (growing initPick) (.exactly [path]) (perform (.invoke path none [])))
    (hrecords : walker.visitor.Records) (hconsents : Consents walker.visitor)
    (heval : ∀ sites expr, Obeys (growing initPick) .none (perform (.eval sites expr))) {path : CodePath}
    {start left : WalkState (Recorded σ)} {returned : Option Value} (hrun : (walker.walkPath perform path).run start =
    (.ok returned, left)) :
    Grows initPick (.exactly (path.turns.filterMap (walker.dueAt? perform path · start))) start.trail left.trail := by
  have hgrows := (adds_walkPath walker hfield hinit hrecords hconsents heval path).run start returned left hrun
  rw [walkPath_eq] at hrun
  obtain ⟨_, arrived, harrive, hrun⟩ := exists_of_run_bind hrun
  obtain ⟨_, passed, hsteps, -⟩ := exists_of_run_bind hrun
  have hfirst : (path.turnsAt none none).filterMap (walker.dueAt? perform path · start) =
      (path.turnsAt none none).filterMap (walker.toldAt perform start) := by
    refine filterMap_congr fun turn hturn => ?_
    obtain ⟨entry, -, rfl⟩ := mem_map.mp hturn
    rfl
  have hlater : ∀ entry ∈ successive path.ids,
    (path.turnsAt (some entry.2) (some entry)).filterMap (walker.dueAt? perform path · start) =
    (path.turnsAt (some entry.2) (some entry)).filterMap (walker.toldAt perform ((walker.enter entry.2).run
        ((entry.1.forM (walker.step perform path)).run ((walker.arrive perform path).run start).2).2).2) := by
    rintro ⟨before, v⟩ hentry
    obtain ⟨rest, hids⟩ := mem_successiveFrom hentry
    rw [nil_append] at hids
    obtain ⟨reached, entered, hreached, henter⟩ : ∃ reached entered,
      (before.forM (walker.step perform path)).run arrived = (.ok (), reached) ∧
      (walker.enter v).run reached = (.ok (), entered) := by
      have hsplit : (ForM.forM (before ++ v :: rest) (walker.step perform path)).run arrived = (.ok (), passed) := by
        rw [← hids]
        exact hsteps
      rw [forM_append, forM_cons] at hsplit
      obtain ⟨_, reached, hreached, hlast⟩ := exists_of_run_bind hsplit
      obtain ⟨_, stepped, hstep, -⟩ := exists_of_run_bind hlast
      rw [step_eq_of_consents hconsents] at hstep
      obtain ⟨_, entered, henter, -⟩ := exists_of_run_bind hstep
      exact ⟨reached, entered, hreached, henter⟩
    refine filterMap_congr fun turn hturn => ?_
    obtain ⟨init, -, rfl⟩ := mem_map.mp hturn
    rw [dueAt?_eq_toldAt rfl harrive hreached henter, harrive, hreached]
  rw [CodePath.turns, filterMap_append, hfirst, filterMap_flatMap, flatMap_congr hlater]
  exact hgrows

end Walker

/-- Where a walk of a visitor that consents to every vertex ends, each static initializer of its path has had one
turn, and at its turn the attached path was walked if the class was not initialized, and left out if a use of the
class had initialized it before. Nothing else was walked of them, and no two of them are of the same class. To
record this does not change the walk. -/
theorem walkWithin_initializers {config : Settings} {sources : List (String × String)} {graph : CodeGraph}
    (h : Build.IsGraphOf config sources graph) {settings : Settings} {options : ExpansionOptions} {method : VertexId}
    {forward : List CodePath} (hforward : Path.forward graph method = .ok forward) {path : CodePath}
    (hpath : path ∈ forward)
    {state : ExpansionState} (valid : state.Valid graph) {paths : List CodePath}
    (hrun : (((Expander.ofGraph graph settings options).expandPath path).run state).1 = .ok paths) {expanded : CodePath}
    (hexpanded : expanded ∈ paths) {σ : Type} {walker : Walker σ} (hwalker : walker.program = Program.ofGraph graph)
    (hconsents : Walker.Consents walker.visitor) {nesting : Nat} {statics : StaticScopes} {observed : σ}
    {outcome : WalkOutcome}
    (hends : (walker.walkWithin nesting expanded statics observed).1 = .ok outcome) :
    let record := walker.recordWithin nesting expanded statics observed
    walker.walkWithin nesting expanded statics observed = (record.1, record.2.observed) ∧
      (expanded.turns.map Turn.init).Perm expanded.staticInits ∧
      (expanded.staticInits.map fun init => Text.lower init.1).Nodup ∧
      Walker.initPick.events 0 record.2.log = expanded.turns.filterMap fun turn =>
        walker.dueAt? (walker.performWithin nesting) expanded turn { symbols := { statics }, observed } := by
  obtain rfl : walker.graph = graph := by rw [Walker.graph, hwalker]; rfl
  have hspliced := Expander.spliced_of_expandPath h hforward hpath valid hrun expanded hexpanded
  obtain ⟨body, -, route⟩ := hspliced.exists_route h.isBuilt h.wellPlaced
  have hclasses := Expander.nodup_initializedClasses h settings options
    (by obtain ⟨-, hpaths⟩ := Expander.eq_of_forward hforward; obtain ⟨vertices, rfl⟩ := hpaths path hpath; rfl) valid
    hrun expanded hexpanded
  refine ⟨walker.walkWithin_eq_recorded nesting expanded statics observed,
    CodePath.perm_turns route.nodup fun init hinit v hv => hspliced.anchor_mem hinit hv, ?_, ?_⟩
  · rw [CodePath.initializedClasses_eq] at hclasses
    refine (nodup_append.mp hclasses).2.1.sublist ?_
    rw [map_eq_flatMap]
    exact .flatMap_right _ fun init _ => singleton_sublist.mpr mem_cons_self
  · have hbegin : ∀ task, Obeys (growing Walker.initPick) (Walker.beginnings Walker.initPick none task)
        (walker.recorder nesting none task) :=
      walker.obeys_beginnings (fun _ => rfl) (fun _ _ => rfl) nesting none
    have hconsents' : Walker.Consents walker.recorded.visitor :=
      fun v symbols recorded => hconsents v symbols recorded.observed
    rw [walker.walkWithin_eq_recorded] at hends
    obtain ⟨returned, left, hresult, hrecord⟩ := walker.exists_run_of_ends hends
    obtain ⟨hsure, hpossible⟩ :=
      (Walker.walked_eq_due (fun init => hbegin (.eval none init)) (fun path => hbegin (.invoke path none []))
      walker.records_recorded hconsents' (fun sites expr => hbegin (.eval sites expr)) hresult).of_empty
    rw [hrecord]
    refine (hpossible.antisymm hsure).trans (filterMap_congr fun turn _ => ?_)
    exact Walker.dueAt?_recorded walker (Walker.performs_recorder walker nesting none) expanded turn statics observed

/-- A walker without a visitor along a method that calls another one. -/
theorem callingOnce_initializers :
    ∃ graph path expanded outcome, Build.IsGraphOf bareSettings [("A", callingOnce)] graph ∧
    Path.forward graph path.method = .ok [path] ∧
    (((Expander.ofGraph graph bareSettings {}).expandPath path).run { registry := { limit := .unlimited } }).1 =
    .ok [expanded] ∧
    expanded.staticInits.length = 1 ∧
    let walker : Walker Unit := ⟨Program.ofGraph graph, .silent, 100⟩
    (walker.walkWithin 20 expanded [] ()).1 = .ok outcome ∧
      Walker.initPick.events 0 (walker.recordWithin 20 expanded [] ()).2.log = expanded.turns.filterMap fun turn =>
        walker.dueAt? (walker.performWithin 20) expanded turn { symbols := { statics := [] }, observed := () } := by
  obtain ⟨graph, path, expanded, outcome, hgraph, hforward, hrun, hinits, -, hends⟩ := exists_walk
  obtain ⟨-, -, -, hevents⟩ := walkWithin_initializers hgraph hforward mem_cons_self (valid_start graph .unlimited) hrun
    mem_cons_self (show (⟨Program.ofGraph graph, .silent, 100⟩ : Walker Unit).program = Program.ofGraph graph from rfl)
    (fun _ _ _ => rfl) hends
  exact ⟨graph, path, expanded, outcome, hgraph, hforward, hrun, hinits, hends, hevents⟩

end ApexPaths
