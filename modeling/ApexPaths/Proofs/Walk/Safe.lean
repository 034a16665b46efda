import ApexPaths.Proofs.Library.References
import ApexPaths.Proofs.Result
import ApexPaths.Walk.Walker

/-!
Safe computations of a walk. From a state in which every reference is valid, a safe computation ends in such a
state, with the heap grown, with no class less initialized than before and the same classes in their
initialization; or it fails in a way that is granted.
-/

namespace ApexPaths
set_option autoImplicit false

open WalkM List

variable {σ : Type}

/-! ## States -/

/-- A contract about references, the failures that are granted, of which only the end of all nesting may be
excluded, and what holds of the observations beside the heap, however it grows. -/
structure Duty (σ : Type) extends Contract where
  fails : EngineError → Prop
  granted : ∀ {error : EngineError}, error ≠ .internal .exhausted → fails error
  watch : Heap → σ → Prop
  lasts : ∀ {heap later : Heap} {observed : σ}, heap.Grows later → watch heap observed → watch later observed

/-- What holds of the observations is kept by the visitor. -/
structure Watched (duty : Duty σ) (visitor : Visitor σ) : Prop where
  visit : ∀ {v : VertexId} {symbols : Symbols} {observed : σ}, duty.watch symbols.heap observed →
    duty.watch symbols.heap (visitor.visit v symbols observed).2
  afterVisit : ∀ {v : VertexId} {symbols : Symbols} {observed : σ}, duty.watch symbols.heap observed →
    duty.watch symbols.heap (visitor.afterVisit v symbols observed)
  onExpression : ∀ {expr : VertexId} {value : Value} {heap : Heap} {observed : σ}, duty.watch heap observed →
    duty.watch heap (visitor.onExpression expr value observed)
  enterMethod : ∀ {method : VertexId} {symbols : Symbols} {observed : σ}, duty.watch symbols.heap observed →
    duty.watch symbols.heap (visitor.enterMethod method symbols observed)
  exitMethod : ∀ {method : VertexId} {returned : Option Value} {heap : Heap} {observed : σ}, duty.watch heap observed →
    duty.watch heap (visitor.exitMethod method returned observed)

/-- All that a frame mentions is valid. -/
def Contract.AdmitsFrame (contract : Contract) (heap : Heap) (frame : Frame) : Prop :=
  (∀ value ∈ frame.values, contract.Admits heap value) ∧ ∀ ref ∈ frame.this, contract.valid heap ref

/-- Whatever a state holds mentions valid references only, and what should hold of the observations does. -/
structure Sound (duty : Duty σ) (state : WalkState σ) : Prop where
  heap : duty.Keeps state.symbols.heap
  statics : ∀ value ∈ state.symbols.statics.values, duty.Admits state.symbols.heap value
  frames : ∀ frame ∈ state.symbols.frames, duty.AdmitsFrame state.symbols.heap frame
  iterables : ∀ entry ∈ state.iterables, duty.Admits state.symbols.heap entry.2
  subjects : ∀ entry ∈ state.subjects, duty.Admits state.symbols.heap entry.2
  watch : duty.watch state.symbols.heap state.observed

/-- The heap grew, and what was begun to be initialized is not uninitialized again. -/
structure WalkState.Advances (state later : WalkState σ) : Prop where
  heap : state.symbols.heap.Grows later.symbols.heap
  begun : ∀ owner, state.symbols.statics.state owner ≠ .uninitialized → later.symbols.statics.state owner ≠
    .uninitialized

/-- Besides, the same classes are in their initialization. -/
structure WalkState.Leads (state later : WalkState σ) : Prop extends state.Advances later where
  opened : ∀ owner, later.symbols.statics.state owner = .initializing ↔
    state.symbols.statics.state owner = .initializing

namespace WalkState

variable {state next later : WalkState σ}

theorem Advances.trans (h : state.Advances next) (h' : next.Advances later) : state.Advances later :=
  ⟨h.heap.trans h'.heap, fun owner hbegun => h'.begun owner (h.begun owner hbegun)⟩

namespace Leads

theorem refl (state : WalkState σ) : state.Leads state := ⟨⟨.refl _, fun _ => id⟩, fun _ => .rfl⟩

theorem trans (h : state.Leads next) (h' : next.Leads later) : state.Leads later :=
  ⟨h.toAdvances.trans h'.toAdvances, fun owner => (h'.opened owner).trans (h.opened owner)⟩

/-- Only the heap and the static variables matter, and of these only the states of the classes. -/
theorem of_state (hheap : state.symbols.heap.Grows later.symbols.heap)
    (hstate : ∀ owner, later.symbols.statics.state owner = state.symbols.statics.state owner) : state.Leads later :=
  ⟨⟨hheap, fun owner h => (hstate owner).symm ▸ h⟩, fun owner => by rw [hstate owner]⟩

theorem of_eq (hheap : later.symbols.heap = state.symbols.heap)
    (hstatics : later.symbols.statics = state.symbols.statics) : state.Leads later :=
  of_state (hheap ▸ .refl _) fun _ => by rw [hstatics]

end Leads

end WalkState

variable {contract : Contract}

theorem Contract.admitsFrame_of_empty {heap : Heap} (owner : Option String) (this : Option HeapRef)
    (h : ∀ ref ∈ this, contract.valid heap ref) : contract.AdmitsFrame heap { owner, this } :=
    ⟨fun _ hvalue => absurd hvalue not_mem_nil, h⟩

theorem Contract.AdmitsFrame.grow {heap later : Heap} {frame : Frame} (h : contract.AdmitsFrame heap frame)
    (hgrows : heap.Grows later) : contract.AdmitsFrame later frame :=
  ⟨fun value hvalue => (h.1 value hvalue).grow hgrows, fun ref href => contract.grow hgrows (h.2 ref href)⟩

variable {value : Value}

theorem Contract.AdmitsFrame.assigned {heap : Heap} {frame : Frame} (h : contract.AdmitsFrame heap frame)
    (hvalue : contract.Admits heap value) (name : String) :
    contract.AdmitsFrame heap ((frame.assign? name value).getD frame) := by
  refine ⟨Frame.forall_assigned h.1 hvalue name, ?_⟩
  have hthis : ((frame.assign? name value).getD frame).this = frame.this := by
    unfold Frame.assign?
    cases Frame.assignBlocks? name value frame.blocks with
    | some blocks => rfl
    | none => cases frame.parameters.assign? name value <;> rfl
  exact hthis ▸ h.2

theorem Contract.AdmitsFrame.returning {heap : Heap} {frame : Frame} (h : contract.AdmitsFrame heap frame)
    (hvalue : contract.Admits heap value) : contract.AdmitsFrame heap { frame with returned := some value } := by
  obtain ⟨hparameters, hblocks, -⟩ := Frame.forall_values.mp h.1
  exact ⟨Frame.forall_values.mpr ⟨hparameters, hblocks, fun other hother => Option.some.inj hother ▸ hvalue⟩, h.2⟩

namespace Sound

variable {duty : Duty σ} {state : WalkState σ}

section
variable (h : Sound duty state)
include h

theorem statics_lookup? {owner name : String} {found : Variable}
    (hfound : state.symbols.statics.lookup? owner name = some found) : duty.Admits state.symbols.heap found.value :=
  h.statics _ (StaticScopes.mem_values_of_lookup? hfound)

theorem frame? {frame : Frame} (hframe : state.symbols.frame? = some frame) :
    duty.AdmitsFrame state.symbols.heap frame := h.frames frame (mem_of_mem_head? hframe)

theorem withHeap {heap : Heap} (hgrows : state.symbols.heap.Grows heap) (hkeeps : duty.Keeps heap) :
    Sound duty { state with symbols := { state.symbols with heap } } where
  heap := hkeeps
  statics value hvalue := (h.statics value hvalue).grow hgrows
  frames frame hframe := (h.frames frame hframe).grow hgrows
  iterables entry hentry := (h.iterables entry hentry).grow hgrows
  subjects entry hentry := (h.subjects entry hentry).grow hgrows
  watch := duty.lasts hgrows h.watch

theorem withObserved {observed : σ} (hwatch : duty.watch state.symbols.heap observed) :
    Sound duty { state with observed } := ⟨h.heap, h.statics, h.frames, h.iterables, h.subjects, hwatch⟩

theorem withStatics {statics : StaticScopes}
    (hstatics : ∀ value ∈ statics.values, duty.Admits state.symbols.heap value) :
    Sound duty { state with symbols := { state.symbols with statics } } := { h with statics := hstatics }

theorem withFrames {frames : List Frame} (hframes : ∀ frame ∈ frames, duty.AdmitsFrame state.symbols.heap frame) :
    Sound duty { state with symbols := { state.symbols with frames } } := { h with frames := hframes }

theorem lookup? {name : String} (hvalue : state.symbols.lookup? name = some value) :
    duty.Admits state.symbols.heap value := by
  obtain ⟨frame, hframe, hfound⟩ := Option.bind_eq_some_iff.mp hvalue
  have hadmits := h.frame? hframe
  simp only [Option.orElse_eq_orElse, Option.orElse_eq_or, Option.or_eq_some_iff] at hfound
  rcases hfound with hfound | ⟨-, hfound | ⟨-, hfound⟩⟩
  · obtain ⟨found, hvariable, rfl⟩ := Option.map_eq_some_iff.mp hfound
    exact hadmits.1 _ (Frame.mem_values_of_lookup? hvariable)
  · obtain ⟨ref, -, hfound⟩ := Option.bind_eq_some_iff.mp hfound
    exact h.heap.field? hfound
  · obtain ⟨owner, -, hfound⟩ := Option.bind_eq_some_iff.mp hfound
    obtain ⟨found, hvariable, rfl⟩ := Option.map_eq_some_iff.mp hfound
    exact h.statics_lookup? hvariable

end

end Sound

/-! ## Computations -/

/-- What comes of a state: a sound later state, with what is said of the result, or a failure that is granted. -/
def Closes {α : Type} (duty : Duty σ) (state : WalkState σ) (post : WalkState σ → α → Prop) :
    Except EngineError α × WalkState σ → Prop
  | (.ok a, left) => Sound duty left ∧ state.Leads left ∧ post left a
  | (.error error, _) => duty.fails error

/-- From a state a computation ends soundly, or its failure is granted. -/
structure Safe {α : Type} (duty : Duty σ) (state : WalkState σ) (m : WalkM σ α) (post : WalkState σ → α → Prop) :
    Prop where
  run : Closes duty state post (m.run state)

namespace Safe

variable {duty : Duty σ} {state : WalkState σ} {α β : Type}

/-- The value given is one that the duty admits in the state. -/
def Gives (duty : Duty σ) (state : WalkState σ) (value : Value) : Prop := duty.Admits state.symbols.heap value

def GivesAny (duty : Duty σ) (state : WalkState σ) (found : Option Value) : Prop :=
  ∀ value ∈ found, duty.Admits state.symbols.heap value

theorem pure (hstate : Sound duty state) {a : α} {post : WalkState σ → α → Prop} (h : post state a) :
    Safe duty state (Pure.pure a) post :=
  ⟨hstate, .refl state, h⟩

theorem bind {m : WalkM σ α} {f : α → WalkM σ β} {middle : WalkState σ → α → Prop} {post : WalkState σ → β → Prop}
    (h : Safe duty state m middle)
    (hf : ∀ next a, Sound duty next → state.Leads next → middle next a → Safe duty next (f a) post) :
    Safe duty state (m >>= f) post := by
  refine ⟨?_⟩
  rw [run_bind]
  have hfirst := h.run
  generalize m.run state = result at hfirst
  obtain ⟨error | a, next⟩ := result
  · exact hfirst
  · obtain ⟨hsound, hleads, hmiddle⟩ := hfirst
    have hsecond := (hf next a hsound hleads hmiddle).run
    dsimp only
    generalize (f a).run next = result at hsecond
    obtain ⟨error | b, left⟩ := result
    · exact hsecond
    · exact ⟨hsecond.1, hleads.trans hsecond.2.1, hsecond.2.2⟩

theorem map {m : WalkM σ α} {middle : WalkState σ → α → Prop} (h : Safe duty state m middle) {f : α → β}
    {post : WalkState σ → β → Prop} (hf : ∀ next a, middle next a → post next (f a)) :
    Safe duty state (f <$> m) post := by
  rw [← bind_pure_comp]
  exact h.bind fun next a hnext _ hmiddle => .pure hnext (hf next a hmiddle)

theorem discard {m : WalkM σ α} {post : WalkState σ → α → Prop} (h : Safe duty state m post) :
    Safe duty state (Functor.discard m) fun _ _ => True :=
  h.map fun _ _ _ => trivial

theorem forM {f : α → WalkM σ PUnit} {items : List α} (hstate : Sound duty state)
    (h : ∀ a ∈ items, ∀ next, Sound duty next → state.Leads next → Safe duty next (f a) fun _ _ => True) :
    Safe duty state (items.forM f) fun _ _ => True := by
  induction items generalizing state with
  | nil => exact .pure hstate trivial
  | cons a items ih =>
    obtain ⟨hfirst, hrest⟩ := forall_mem_cons.mp h
    refine (hfirst state hstate (.refl state)).bind fun next _ hnext hleads _ =>
      ih hnext fun b hb later hlater hafter => ?_
    exact hrest b hb later hlater (hleads.trans hafter)

theorem mapM {f : α → WalkM σ β} {post : WalkState σ → β → Prop}
    (hlater : ∀ {next later b}, next.Leads later → post next b → post later b) {items : List α}
    (hstate : Sound duty state)
    (h : ∀ a ∈ items, ∀ next, Sound duty next → state.Leads next → Safe duty next (f a) post) :
    Safe duty state (items.mapM f) fun next results => ∀ b ∈ results, post next b := by
  induction items generalizing state with
  | nil => exact .pure hstate nofun
  | cons a items ih =>
    obtain ⟨hfirst, hrest⟩ := forall_mem_cons.mp h
    rw [mapM_cons]
    refine (hfirst state hstate (.refl state)).bind fun next b hnext hleads hb => ?_
    refine (ih hnext fun c hc later hsound hafter => hrest c hc later hsound (hleads.trans hafter)).bind
      fun later bs hsound hafter hbs => ?_
    exact .pure hsound (forall_mem_cons.mpr ⟨hlater hafter hb, hbs⟩)

theorem optionMapM {f : α → WalkM σ β} {post : WalkState σ → β → Prop} {item : Option α} (hstate : Sound duty state)
    (h : ∀ a ∈ item, Safe duty state (f a) post) : Safe duty state (item.mapM f) fun next result => ∀ b ∈ result,
    post next b := by
  cases item with
  | none => exact .pure hstate nofun
  | some a => exact (h a rfl).map fun next b hb c hc => Option.some.inj hc ▸ hb

theorem fail {error : EngineError} {post : WalkState σ → α → Prop} (h : duty.fails error) :
    Safe duty state (throw error) post := ⟨h⟩

/-! ### Parts of the state -/

section
variable {post : WalkState σ → β → Prop}

theorem get_bind {f : WalkState σ → WalkM σ β} (h : Safe duty state (f state) post) :
    Safe duty state (get >>= f) post := ⟨h.run⟩

theorem symbols_bind {f : Symbols → WalkM σ β} (h : Safe duty state (f state.symbols) post) :
    Safe duty state (symbols >>= f) post := ⟨h.run⟩

theorem heap_bind {f : Heap → WalkM σ β} (h : Safe duty state (f state.symbols.heap) post) :
    Safe duty state (heap >>= f) post := ⟨h.run⟩

theorem modify {g : WalkState σ → WalkState σ} (hsound : Sound duty (g state)) (hleads : state.Leads (g state)) :
    Safe duty state (modify g) fun _ _ => True := ⟨hsound, hleads, trivial⟩

section
variable (hstate : Sound duty state)
include hstate

theorem notify {f : σ → σ} (hwatch : duty.watch state.symbols.heap (f state.observed)) :
    Safe duty state (notify f) fun _ _ => True := ⟨hstate.withObserved hwatch, .of_eq rfl rfl, trivial⟩

theorem onHeap {f : Heap → α × Heap} {post : WalkState σ → α → Prop}
    (hgrows : state.symbols.heap.Grows (f state.symbols.heap).2) (hkeeps : duty.Keeps (f state.symbols.heap).2)
    (hpost : ∀ next : WalkState σ, next.symbols.heap = (f state.symbols.heap).2 → post next (f state.symbols.heap).1) :
    Safe duty state (onHeap f) post :=
  ⟨hstate.withHeap hgrows hkeeps, .of_state hgrows fun _ => rfl, hpost _ rfl⟩

theorem onHeap_makes {f : Heap → Value × Heap}
    (h : duty.Makes state.symbols.heap (f state.symbols.heap)) : Safe duty state (WalkM.onHeap f) (Gives duty) :=
  .onHeap hstate h.grows h.keeps fun next hnext => by
    rw [Gives, hnext]
    exact h.admits

theorem modifyStatics {f : StaticScopes → StaticScopes}
    (hvalues : ∀ value ∈ (f state.symbols.statics).values, duty.Admits state.symbols.heap value)
    (hstates : ∀ owner, (f state.symbols.statics).state owner = state.symbols.statics.state owner) :
    Safe duty state (modifyStatics f) fun _ _ => True :=
  ⟨hstate.withStatics hvalues, .of_state (.refl _) hstates, trivial⟩

theorem callLibrary? {target : CallTarget} {method : String} {args : List Value}
    (h : ∀ value ∈ (LibraryCall.make target method args).values, duty.Admits state.symbols.heap value) :
    Safe duty state (callLibrary? target method args) (GivesAny duty) := by
  cases hcall : Library.invoke (.make target method args) state.symbols.heap with
  | none =>
    refine .onHeap hstate ?_ ?_ fun next hnext => ?_
    · rw [hcall]
      exact .refl _
    · rw [hcall]
      exact hstate.heap
    · rw [hcall]
      exact nofun
  | some made =>
    obtain ⟨hgrows, hkeeps, hadmits⟩ := Library.makes_invoke hstate.heap h hcall
    refine .onHeap hstate ?_ ?_ fun next hnext => ?_
    · rw [hcall]
      exact hgrows
    · rw [hcall]
      exact hkeeps
    · rw [hcall] at hnext ⊢
      intro value hvalue
      cases hvalue
      rw [hnext]
      exact hadmits

end

end

/-! ### The running method -/

section
variable {post : WalkState σ → β → Prop}

theorem frame_bind {f : Frame → WalkM σ β}
    (h : ∀ frame, state.symbols.frame? = some frame → Safe duty state (f frame) post) :
    Safe duty state (frame >>= f) post := by
  refine ⟨?_⟩
  obtain ⟨⟨heap, statics, frames⟩, iterables, subjects, visited, observed⟩ := state
  cases frames with
  | nil => exact duty.granted (by simp)
  | cons frame frames => exact (h frame rfl).run

section
variable (hstate : Sound duty state)
include hstate

/-- The running method may be changed as long as it mentions valid references only. -/
theorem modifyFrame {f : Frame → Frame}
    (h : ∀ frame, duty.AdmitsFrame state.symbols.heap frame → duty.AdmitsFrame state.symbols.heap (f frame)) :
    Safe duty state (modifyFrame f) fun _ _ => True := by
  refine .frame_bind fun frame hframe => ⟨?_, .of_eq ?_ ?_, trivial⟩
  all_goals
    obtain ⟨rest, hframes⟩ : ∃ rest, state.symbols.frames = frame :: rest := by
      cases hframes : state.symbols.frames with
      | nil => rw [Symbols.frame?, hframes] at hframe; cases hframe
      | cons first rest =>
        rw [Symbols.frame?, hframes] at hframe
        exact ⟨rest, by rw [Option.some.inj hframe]⟩
    have hsymbols : state.symbols.mapFrame f = { state.symbols with frames := f frame :: rest } := by
      rw [Symbols.mapFrame, hframes]
  · show Sound duty { state with symbols := state.symbols.mapFrame f }
    rw [hsymbols]
    have hold := hstate.frames
    rw [hframes] at hold
    obtain ⟨hfirst, hrest⟩ := forall_mem_cons.mp hold
    exact hstate.withFrames (forall_mem_cons.mpr ⟨h frame hfirst, hrest⟩)
  · show (state.symbols.mapFrame f).heap = _
    rw [hsymbols]
  · show (state.symbols.mapFrame f).statics = _
    rw [hsymbols]

theorem pushFrame {frame : Frame} (h : duty.AdmitsFrame state.symbols.heap frame) :
    Safe duty state (pushFrame frame) fun _ _ => True :=
  ⟨hstate.withFrames (forall_mem_cons.mpr ⟨h, hstate.frames⟩), .of_eq rfl rfl, trivial⟩

theorem popFrame :
    Safe duty state popFrame fun next frame => duty.AdmitsFrame next.symbols.heap frame := by
  obtain ⟨⟨heap, statics, frames⟩, iterables, subjects, visited, observed⟩ := state
  cases frames with
  | nil => exact ⟨duty.granted (by simp)⟩
  | cons frame frames =>
    obtain ⟨hfirst, hrest⟩ := forall_mem_cons.mp hstate.frames
    exact ⟨hstate.withFrames hrest, .of_eq rfl rfl, hfirst⟩

theorem this? :
    Safe duty state this? fun next this => ∀ ref ∈ this, duty.valid next.symbols.heap ref :=
  .frame_bind fun _ hframe => .pure hstate (hstate.frame? hframe).2

theorem declare (name type : String) {value : Value} (h : duty.Admits state.symbols.heap value) :
    Safe duty state (declare name type value) fun _ _ => True :=
  .modifyFrame hstate fun _ hframe => ⟨Frame.forall_declare hframe.1 h name type, by
    rw [Frame.declare]
    split <;> exact hframe.2⟩

end

end

end Safe

end ApexPaths
