import ApexPaths.Proofs.Result
import ApexPaths.Walk.Walker

/-!
Outlines of running methods: their blocks with the names and types of their variables, without values. Two walks
with different visitors agree on a computation if it gives the same result in both, leaves the same symbols, and
changes the outlines as it should. Before that, the functions of a walk are cut into their stages: what an
assignment, a creation, the initialization of a class and the visit of a vertex still do once their first effects
are over.
-/

namespace ApexPaths
set_option autoImplicit false

open WalkM

namespace Walker

variable {σ : Type} (walker : Walker σ) (perform : Perform σ)

/-! ## Classes -/

/-- The static blocks of a class run, and its initialization is over. -/
def runBlocks (owner : String) (blocks : Option CodePath) : WalkM σ Unit := do
  if let some path := blocks then
    discard (perform (.invoke path none []))
  modifyStatics (·.finish owner)

/-- The initialization of a class that is begun: its fields come first. -/
def runInitialization (owner : String) (blocks : Option CodePath) : WalkM σ Unit := do
  if let some type := walker.program.typeNamed? owner then
    walker.initializeStaticFields perform type
  runBlocks perform owner blocks

/-! ## Expressions -/

/-- An assigned value goes to its setter on the path, or else to its place. -/
def store (sites : Option CodePath) (expr : VertexId) (place : Place) (value : Value) : WalkM σ Value := do
  match attached? sites expr with
  | some setter =>
    let holder ← match place with
      | .field object _ => pure (some object)
      | _ => this?
    discard (perform (.invoke setter holder [value]))
  | none => place.write value
  return value

/-- The constructor on the path runs for a new object. -/
def construct (sites : Option CodePath) (expr : VertexId) (ref : HeapRef) (args : List Value) : WalkM σ Unit := do
  match attached? sites expr with
  | some constructor => discard (perform (.invoke constructor (some ref) args))
  | none => pure ()

/-- An argument of a new record gives a field its value. -/
def fillField (sites : Option CodePath) (ref : HeapRef) (arg : VertexId) : WalkM σ Unit :=
  match walker.fieldArgument? arg with
  | some (name, expr) => do
    let value ← perform (.eval sites expr)
    onHeap fun heap => ((), heap.setField ref name value)
  | none => discard (perform (.eval sites arg))

/-- The key and the value of an entry, in this order. -/
def evalEntry (sites : Option CodePath) (entry : VertexId × VertexId) : WalkM σ (Value × Value) :=
  return (← perform (.eval sites entry.1), ← perform (.eval sites entry.2))

/-! ## Vertices -/

/-- An expression that is a vertex of its own; the subject of a switch is remembered. -/
def evaluateExpression (path : CodePath) (id : VertexId) : WalkM σ Unit := do
  let value ← perform (.eval (some path) id)
  match (walker.graph.parent? id).filter (walker.graph.is · .switchStatement) with
  | some switch => modify fun state => { state with subjects := remember switch value state.subjects }
  | none => return

end Walker

/-! ## Outlines -/

/-- Names in lower case with declared types. -/
abbrev VariableOutline := List (String × String)

def VariableMap.outline (vars : VariableMap) : VariableOutline := vars.map fun entry => (entry.1, entry.2.type)

def Block.outline (block : Block) : NodeKind × VariableOutline := (block.kind, block.vars.outline)

/-- A running method without values. -/
structure FrameOutline where
  parameters : VariableOutline
  blocks : List (NodeKind × VariableOutline)
  deriving DecidableEq

def Frame.outline (frame : Frame) : FrameOutline := ⟨frame.parameters.outline, frame.blocks.map Block.outline⟩

namespace FrameOutline

/-- The outline with one more open block. -/
def push (outline : FrameOutline) (kind : NodeKind) : FrameOutline :=
  { outline with blocks := (kind, []) :: outline.blocks }

/-- The outline with blocks closed. -/
def pop (outline : FrameOutline) (count : Nat) : FrameOutline := { outline with blocks := outline.blocks.drop count }

/-- The outline with a variable bound in its innermost block. -/
def declare (outline : FrameOutline) (name type : String) : FrameOutline :=
  match outline.blocks with
  | [] => { outline with parameters := assign (Text.lower name) (TypeName.canonical type) outline.parameters }
  | (kind, vars) :: blocks =>
    { outline with blocks := (kind, assign (Text.lower name) (TypeName.canonical type) vars) :: blocks }

def declareAll (outline : FrameOutline) (vars : List (String × String)) : FrameOutline :=
  vars.foldl (fun outline entry => outline.declare entry.1 entry.2) outline

end FrameOutline

theorem outline_assign (key : String) (var : Variable) (vars : VariableMap) :
    VariableMap.outline (assign key var vars) = assign key var.type vars.outline := by
  induction vars with
  | nil => rfl
  | cons entry rest ih =>
    obtain ⟨k, v⟩ := entry
    rw [assign, VariableMap.outline, VariableMap.outline, List.map_cons, assign]
    split
    · rfl
    · exact congrArg ((k, v.type) :: ·) ih

theorem VariableMap.outline_declare (vars : VariableMap) (name type : String) (value : Value) :
    (vars.declare name type value).outline = assign (Text.lower name) (TypeName.canonical type) vars.outline :=
  outline_assign ..

variable {name : String} {value : Value}

theorem VariableMap.outline_assign? {vars changed : VariableMap}
    (h : vars.assign? name value = some changed) : changed.outline = vars.outline := by
  obtain ⟨found, hfound, rfl⟩ := Option.map_eq_some_iff.mp h
  rw [get?] at hfound
  clear h
  induction vars with
  | nil => cases hfound
  | cons entry rest ih =>
    obtain ⟨k, v⟩ := entry
    rw [List.find?_cons] at hfound
    rw [assign]
    by_cases hk : (k == Text.lower name) = true
    · simp only [hk] at hfound
      cases hfound
      rw [if_pos hk]
      rfl
    · simp only [hk] at hfound
      rw [if_neg hk]
      exact congrArg ((k, v.type) :: ·) (ih hfound)

namespace Frame

theorem outline_pushBlock (frame : Frame) (kind : NodeKind) :
    (frame.pushBlock kind).outline = frame.outline.push kind := rfl

theorem outline_popBlocks (frame : Frame) (count : Nat) :
    (frame.popBlocks count).outline = frame.outline.pop count := by
  simp [outline, popBlocks, FrameOutline.pop, List.map_drop]

theorem outline_declare (frame : Frame) (name type : String) (value : Value) :
    (frame.declare name type value).outline = frame.outline.declare name type := by
  obtain ⟨method, owner, this, returned, parameters, blocks⟩ := frame
  cases blocks with
  | nil => simp [declare, outline, FrameOutline.declare, VariableMap.outline_declare]
  | cons block blocks => simp [declare, outline, FrameOutline.declare, Block.outline, VariableMap.outline_declare]

theorem outline_assignBlocks? {blocks changed : List Block}
    (h : assignBlocks? name value blocks = some changed) : changed.map Block.outline = blocks.map Block.outline := by
  induction blocks generalizing changed with
  | nil => cases h
  | cons block blocks ih =>
    rw [assignBlocks?] at h
    split at h
    · rename_i vars hvars
      cases h
      simp [Block.outline, VariableMap.outline_assign? hvars]
    · obtain ⟨rest, hrest, rfl⟩ := Option.map_eq_some_iff.mp h
      simp [ih hrest]

theorem outline_assign? {frame changed : Frame} (h : frame.assign? name value = some changed) :
    changed.outline = frame.outline := by
  rw [assign?] at h
  split at h
  · rename_i blocks hblocks
    cases h
    simp [outline, outline_assignBlocks? hblocks]
  · obtain ⟨parameters, hparameters, rfl⟩ := Option.map_eq_some_iff.mp h
    simp [outline, VariableMap.outline_assign? hparameters]

theorem outline_assigned (frame : Frame) (name : String) (value : Value) :
    ((frame.assign? name value).getD frame).outline = frame.outline := by
  cases h : frame.assign? name value with
  | none => rfl
  | some changed => exact outline_assign? h

end Frame

/-! ## Watched walks -/

variable {σ τ : Type}

def WalkState.watched (state : WalkState σ) (observed : τ) : WalkState τ :=
  ⟨state.symbols, state.iterables, state.subjects, state.visited, observed⟩

/-- The outlines of the running methods, the innermost first. -/
def WalkState.outlines (state : WalkState σ) : List FrameOutline := state.symbols.frames.map Frame.outline

/-- How a computation ends: well, with given outlines and observations related by `after`; or for lack of nesting,
with observations related by `failed`. -/
def Ends {α : Type} (failed after : σ → τ → Prop) (left : List FrameOutline) (state : WalkState σ) (observed : τ) :
    Except EngineError α → Prop
  | .ok _ => state.outlines = left ∧ after state.observed observed
  | .error error => error = .internal .exhausted ∧ failed state.observed observed

/-- Two computations do the same from states with given outlines whose observations are related by `before`, and
they end as said. -/
structure Agrees {α : Type} (failed before : σ → τ → Prop) (outlines : List FrameOutline) (m : WalkM σ α)
    (m' : WalkM τ α) (after : σ → τ → Prop) (left : List FrameOutline) : Prop where
  run : ∀ (state : WalkState σ) (observed : τ), state.outlines = outlines → before state.observed observed →
    ∃ observed', m'.run (state.watched observed) = ((m.run state).1, (m.run state).2.watched observed') ∧
      Ends failed after left (m.run state).2 observed' (m.run state).1

/-- Two computations do the same and keep the outlines and what relates the observations. -/
abbrev Keeps {α : Type} (failed related : σ → τ → Prop) (outlines : List FrameOutline) (m : WalkM σ α)
    (m' : WalkM τ α) : Prop :=
  Agrees failed related outlines m m' related outlines

namespace Agrees

section
variable {α β : Type} {failed before middle after : σ → τ → Prop} {outlines between left : List FrameOutline}

theorem pure (a : α) (h : ∀ {o o'}, before o o' → after o o') :
    Agrees failed before outlines (Pure.pure a) (Pure.pure a) after outlines :=
  ⟨fun _ observed houtlines hbefore => ⟨observed, rfl, houtlines, h hbefore⟩⟩

theorem bind {m : WalkM σ α} {m' : WalkM τ α} {f : α → WalkM σ β} {f' : α → WalkM τ β}
    (h : Agrees failed before outlines m m' middle between)
    (hf : ∀ a, Agrees failed middle between (f a) (f' a) after left) :
    Agrees failed before outlines (m >>= f) (m' >>= f') after left := by
  refine ⟨fun state observed houtlines hbefore => ?_⟩
  obtain ⟨observed', hrun, hends⟩ := h.run state observed houtlines hbefore
  rw [run_bind, run_bind, hrun]
  generalize m.run state = result at hends
  obtain ⟨_ | a, state'⟩ := result
  · exact ⟨observed', rfl, hends⟩
  · exact (hf a).run state' observed' hends.1 hends.2

theorem get_bind {f : WalkState σ → WalkM σ β} {f' : WalkState τ → WalkM τ β}
    (h : ∀ state observed, state.outlines = outlines → before state.observed observed →
      Agrees failed before outlines (f state) (f' (state.watched observed)) after left) :
    Agrees failed before outlines (get >>= f) (get >>= f') after left :=
  ⟨fun state observed houtlines hbefore => (h state observed houtlines hbefore).run state observed houtlines hbefore⟩

theorem modify {g : WalkState σ → WalkState σ} {g' : WalkState τ → WalkState τ}
    (h : ∀ state observed, state.outlines = outlines → before state.observed observed → ∃ observed',
      g' (state.watched observed) = (g state).watched observed' ∧ (g state).outlines = left ∧
      after (g state).observed observed') :
    Agrees failed before outlines (modify g) (modify g') after left := by
  refine ⟨fun state observed houtlines hbefore => ?_⟩
  obtain ⟨observed', hg, hends⟩ := h state observed houtlines hbefore
  refine ⟨observed', ?_, hends⟩
  show ((Except.ok (), g' (state.watched observed)) : Except EngineError PUnit × WalkState τ) = _
  rw [hg]
  rfl

theorem exhausted (h : ∀ {o o'}, before o o' → failed o o') :
    Agrees failed before outlines (throw (.internal .exhausted) : WalkM σ α) (throw (.internal .exhausted))
    after left :=
  ⟨fun _ observed _ hbefore => ⟨observed, rfl, rfl, h hbefore⟩⟩

end

section
variable {α β : Type} {failed related : σ → τ → Prop} {outlines : List FrameOutline}

theorem ret (a : α) : Keeps failed related outlines (Pure.pure a : WalkM σ α) (Pure.pure a) := .pure a id

theorem map {m : WalkM σ α} {m' : WalkM τ α} (h : Keeps failed related outlines m m') (f : α → β) :
    Keeps failed related outlines (f <$> m) (f <$> m') := by
  rw [← bind_pure_comp, ← bind_pure_comp]
  exact h.bind fun a => .ret (f a)

theorem discard {m : WalkM σ α} {m' : WalkM τ α} (h : Keeps failed related outlines m m') :
    Keeps failed related outlines (discard m) (Functor.discard m') := h.map _

theorem forM {f : α → WalkM σ PUnit} {f' : α → WalkM τ PUnit} (items : List α)
    (h : ∀ a ∈ items, Keeps failed related outlines (f a) (f' a)) :
    Keeps failed related outlines (items.forM f) (items.forM f') := by
  induction items with
  | nil => exact .ret _
  | cons a items ih =>
    obtain ⟨hfirst, hrest⟩ := List.forall_mem_cons.mp h
    exact hfirst.bind fun _ => ih hrest

theorem mapM {f : α → WalkM σ β} {f' : α → WalkM τ β} (items : List α)
    (h : ∀ a ∈ items, Keeps failed related outlines (f a) (f' a)) :
    Keeps failed related outlines (items.mapM f) (items.mapM f') := by
  induction items with
  | nil => exact .ret _
  | cons a items ih =>
    obtain ⟨hfirst, hrest⟩ := List.forall_mem_cons.mp h
    rw [List.mapM_cons, List.mapM_cons]
    exact hfirst.bind fun b => (ih hrest).bind fun rest => .ret _

theorem optionMapM {f : α → WalkM σ β} {f' : α → WalkM τ β} (item : Option α)
    (h : ∀ a ∈ item, Keeps failed related outlines (f a) (f' a)) :
    Keeps failed related outlines (item.mapM f) (item.mapM f') := by
  cases item with
  | none => exact .ret _
  | some a => exact (h a rfl).map some

end

end Agrees

end ApexPaths
