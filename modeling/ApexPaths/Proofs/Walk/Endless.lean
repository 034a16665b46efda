import ApexPaths.Proofs.Walk.Termination

/-!
Walks without end. Where each class of a family has a field whose initializer creates an object of the family, no
nesting is enough to create one: the initializers set each other off, outside any path and after the class has been
initialized.
-/

namespace ApexPaths
set_option autoImplicit false

open WalkM

variable {σ τ : Type}

/-! ## Computations that exhaust all nesting -/

/-- From every state with these outlines a computation fails for lack of nesting only, or ends with those. -/
structure Lasts {α : Type} (outlines : List FrameOutline) (m : WalkM σ α) (left : List FrameOutline) : Prop where
  run : ∀ state : WalkState σ, state.outlines = outlines → match m.run state with
    | (.ok _, next) => next.outlines = left
    | (.error error, _) => error = .internal .exhausted

/-- From every state with these outlines a computation fails for lack of nesting. -/
structure Starved {α : Type} (outlines : List FrameOutline) (m : WalkM σ α) : Prop where
  run : ∀ state : WalkState σ, state.outlines = outlines → (m.run state).1 = .error (.internal .exhausted)

theorem Agrees.lasts {α : Type} {outlines left : List FrameOutline} {m : WalkM σ α} {m' : WalkM τ α}
    {before after : σ → τ → Prop} (h : Agrees before before outlines m m' after left) (htotal : ∀ o, ∃ o',
    before o o') : Lasts outlines m left := by
  refine ⟨fun state houtlines => ?_⟩
  obtain ⟨observed, hobserved⟩ := htotal state.observed
  obtain ⟨_, -, hends⟩ := h.run state observed houtlines hobserved
  generalize m.run state = result at hends
  obtain ⟨error | a, next⟩ := result
  · exact hends.1
  · exact hends.1

namespace Starved

variable {α β : Type} {outlines between : List FrameOutline}

theorem bind {m : WalkM σ α} (h : Starved outlines m) (f : α → WalkM σ β) : Starved outlines (m >>= f) := by
  refine ⟨fun state houtlines => ?_⟩
  have hrun := h.run state houtlines
  rw [run_bind]
  generalize m.run state = result at hrun
  obtain ⟨error | _, _⟩ := result
  · exact congrArg Except.error (Except.error.inj hrun)
  · cases hrun

theorem map {m : WalkM σ α} (h : Starved outlines m) (f : α → β) : Starved outlines (f <$> m) := by
  rw [← bind_pure_comp]
  exact h.bind _

theorem after {m : WalkM σ α} (hm : Lasts outlines m between) {f : α → WalkM σ β} (hf : ∀ a, Starved between (f a)) :
    Starved outlines (m >>= f) := by
  refine ⟨fun state houtlines => ?_⟩
  have hends := hm.run state houtlines
  rw [run_bind]
  generalize m.run state = result at hends
  obtain ⟨error | a, next⟩ := result
  · exact congrArg Except.error hends
  · exact (hf a).run next hends

theorem forM {f : α → WalkM σ PUnit} {items : List α} {a : α} (ha : a ∈ items) (h : Starved outlines (f a))
    (hothers : ∀ b ∈ items, Lasts outlines (f b) outlines) : Starved outlines (items.forM f) := by
  induction items with
  | nil => cases ha
  | cons b items ih =>
    obtain ⟨hfirst, hrest⟩ := List.forall_mem_cons.mp hothers
    rcases List.mem_cons.mp ha with rfl | ha
    · exact h.bind _
    · exact after hfirst fun _ => ih ha hrest

end Starved

/-! ## Creations without end -/

variable {type : VertexId}

namespace Walker

theorem exists_shows (walker : Walker σ) (observed : σ) : ∃ journal, walker.journaling.Shows observed journal :=
  ⟨{ observed }, rfl⟩

section
variable {walker : Walker σ} {perform : Perform σ} {perform' : Perform (Journal σ)}
  (hperform : Performs Framed walker.journaling.Shows walker.journaling.Shows perform perform')
include hperform

theorem lasts_instantiating (ref : HeapRef) (owner : VertexId) (outlines : List FrameOutline) : Lasts outlines (do
    pushFrame { owner := some (walker.graph.qualifiedName owner), this := some ref }
    walker.setFields perform owner false fun name _ value => onHeap fun heap => ((), heap.setField ref name value)
    discard popFrame : WalkM σ Unit) outlines := by
  have hkeeps : Keeps walker.journaling.Shows walker.journaling.Shows outlines (do
      pushFrame { owner := some (walker.graph.qualifiedName owner), this := some ref }
      walker.setFields perform owner false fun name _ value => onHeap fun heap => ((), heap.setField ref name value)
      discard popFrame : WalkM σ Unit) (do
      pushFrame { owner := some (walker.graph.qualifiedName owner), this := some ref }
      (walker.watchedBy walker.visitor.journaling).setFields perform' owner false fun name _ value =>
        onHeap fun heap => ((), heap.setField ref name value)
      discard popFrame) :=
    (agrees_pushFrame _).bind fun _ =>
    (keeps_setFields (admits_framed _) hperform owner false fun _ _ _ => agrees_onHeap _).bind fun _ =>
      agrees_popFrame.bind fun _ => .ret _
  exact hkeeps.lasts walker.exists_shows

theorem starved_setFields {init : VertexId} {static : Bool} (hinit : init ∈ walker.fieldInits type static)
    {rest : List FrameOutline} (h : Starved (⟨[], []⟩ :: rest) (perform (.eval none init))) {store : String → String →
    Value → WalkM σ Unit}
    {store' : String → String → Value → WalkM (Journal σ) Unit}
    (hstore : ∀ name declared value, Keeps walker.journaling.Shows walker.journaling.Shows (⟨[], []⟩ :: rest)
    (store name declared value) (store' name declared value)) :
    Starved (⟨[], []⟩ :: rest) (walker.setFields perform type static store) := by
  obtain ⟨field, hfield, hchild⟩ := List.mem_filterMap.mp hinit
  have hothers : ∀ other ∈ (walker.graph.fields type).filter (walker.isStaticField · == static),
    Lasts (⟨[], []⟩ :: rest) (do
      let value ← walker.fieldValue perform other ((walker.graph.declaredType? other).getD "Object")
      store ((walker.graph.name? other).getD "") ((walker.graph.declaredType? other).getD "Object") value)
      (⟨[], []⟩ :: rest) := by
    intro other hother
    have hvalue : Keeps walker.journaling.Shows walker.journaling.Shows (⟨[], []⟩ :: rest)
        (walker.fieldValue perform other ((walker.graph.declaredType? other).getD "Object"))
        ((walker.watchedBy walker.visitor.journaling).fieldValue perform' other
        ((walker.graph.declaredType? other).getD "Object")) :=
      keeps_fieldValue (admits_framed _) hperform (List.mem_filter.mp hother).1 _ rest
    exact (hvalue.bind fun value => hstore _ _ value).lasts walker.exists_shows
  refine (Starved.forM hfield (Starved.bind ?_ _) hothers).bind _
  rw [fieldValue, hchild]
  exact h.map _

theorem starved_instantiate {owner init : VertexId} (howner : owner ∈ walker.fieldOwners type)
    (hinit : init ∈ walker.fieldInits owner false) {outlines : List FrameOutline}
    (h : Starved (⟨[], []⟩ :: outlines) (perform (.eval none init))) :
    Starved outlines (walker.instantiate perform type) := by
  have hnew : Keeps walker.journaling.Shows walker.journaling.Shows outlines
      (onHeap (·.allocate (.instanceOf (walker.program.nameOf type))) : WalkM σ HeapRef)
      (onHeap (·.allocate (.instanceOf (walker.program.nameOf type)))) := agrees_onHeap _
  refine Starved.after (hnew.lasts walker.exists_shows) fun ref =>
    (Starved.forM howner ?_ fun other _ => lasts_instantiating hperform ref other outlines).bind _
  have hpush : Agrees walker.journaling.Shows walker.journaling.Shows outlines
      (pushFrame { owner := some (walker.graph.qualifiedName owner), this := some ref } : WalkM σ Unit)
      (pushFrame { owner := some (walker.graph.qualifiedName owner), this := some ref }) walker.journaling.Shows
      (⟨[], []⟩ :: outlines) :=
    agrees_pushFrame _
  have hstore : ∀ (name declared : String) (value : Value),
    Keeps walker.journaling.Shows walker.journaling.Shows (⟨[], []⟩ :: outlines)
      (onHeap fun heap => ((), heap.setField ref name value) : WalkM σ Unit)
      (onHeap fun heap => ((), heap.setField ref name value)) :=
    fun _ _ _ => agrees_onHeap _
  exact Starved.after (hpush.lasts walker.exists_shows) fun _ => (starved_setFields hperform hinit h hstore).bind _

theorem starved_evalNew {expr : VertexId} (hcreated : walker.created? expr = some type) {top : FrameOutline}
    {rest : List FrameOutline} (h : Starved (top :: rest) (walker.instantiate perform type)) (sites : Option CodePath) :
    Starved (top :: rest) (walker.evalNew perform sites expr) := by
  rw [created?] at hcreated
  split at hcreated
  case isFalse => cases hcreated
  case isTrue hnew =>
    have hargs : Keeps walker.journaling.Shows walker.journaling.Shows (top :: rest)
      (evalAll perform sites (walker.graph.arguments expr)) (evalAll perform' sites (walker.graph.arguments expr)) :=
      keeps_evalAll (admits_framed _) hperform (List.cons_ne_nil _ _) fun _ => CodeGraph.mem_children_of_mem_arguments
    have hinitialized : Keeps walker.journaling.Shows walker.journaling.Shows (top :: rest)
      (walker.ensureInitialized perform type)
      ((walker.watchedBy walker.visitor.journaling).ensureInitialized perform' type) :=
      keeps_ensureInitialized (admits_framed _) hperform type _
    rw [evalNew]
    dsimp only
    rw [if_neg (by simp [hnew.2.1]), if_neg (by simp [hnew.2.2]), hcreated]
    exact Starved.after (hargs.lasts walker.exists_shows) fun _ =>
      Starved.after (hinitialized.lasts walker.exists_shows) fun _ => h.bind _

end

/-- Each class of a family has a field whose initializer creates an object of a class of the family. -/
def Regenerates (walker : Walker σ) (family : VertexId → Prop) : Prop :=
  ∀ type, family type → ∃ owner ∈ walker.fieldOwners type, ∃ init ∈ walker.fieldInits owner false, ∃ made,
    walker.created? init = some made ∧ family made

section
variable {walker : Walker σ} {family : VertexId → Prop} (hfamily : walker.Regenerates family)
include hfamily

/-- No nesting is enough to evaluate a creation. The induction is on the nesting: the initializer of a field is
another one. -/
theorem starved_creation (nesting : Nat) (sites : Option CodePath) {expr : VertexId}
    (hcreated : walker.created? expr = some type) (htype : family type) (top : FrameOutline)
    (rest : List FrameOutline) :
    Starved (top :: rest) (walker.performWithin nesting (.eval sites expr)) := by
  induction nesting generalizing sites expr type top rest with
  | zero => exact ⟨fun _ _ => rfl⟩
  | succ nesting ih =>
    obtain ⟨owner, howner, init, hinit, made, hmade, hagain⟩ := hfamily type htype
    have hperform := performs_under walker.faithful_journaling nesting none
    have hnew :=
      starved_evalNew hperform hcreated
      (starved_instantiate hperform howner hinit (ih none hmade hagain _ (top :: rest))) sites
    have hlabel : walker.graph.labelOf expr = .newObjectExpression := by
      rw [created?] at hcreated
      split at hcreated
      case isTrue hnew => exact hnew.1
      case isFalse => cases hcreated
    rw [performWithin, evalExpression, evalKind]
    dsimp only
    rw [hlabel]
    exact hnew.bind _

/-- An instance method of such a class starves at every nesting. -/
theorem starved_walkPath (nesting : Nat) {path : CodePath} (hinstance : walker.graph.isStatic path.method = false)
    (howner : walker.graph.enclosingType? path.method = some type) (htype : family type) :
    Starved [] (walker.walkPath (walker.performWithin nesting) path) := by
  obtain ⟨owner, hfields, init, hinit, made, hmade, hagain⟩ := hfamily type htype
  have hperform := performs_under walker.faithful_journaling nesting none
  have hinits : Keeps walker.journaling.Shows walker.journaling.Shows []
    (walker.runStaticInits (walker.performWithin nesting) path none)
      ((walker.watchedBy walker.visitor.journaling).runStaticInits
      (walker.performUnder walker.journaling nesting none) path none) :=
    keeps_runStaticInits (admits_framed _) hperform path none fun _ _ => trivial
  have hinitialized : Keeps walker.journaling.Shows walker.journaling.Shows []
    (walker.ensureInitialized (walker.performWithin nesting) type)
      ((walker.watchedBy walker.visitor.journaling).ensureInitialized
      (walker.performUnder walker.journaling nesting none) type) :=
    keeps_ensureInitialized (admits_framed _) hperform type []
  have hobject : Starved [] (walker.instantiate (walker.performWithin nesting) type) :=
    starved_instantiate hperform hfields hinit (starved_creation hfamily nesting none hmade hagain _ [])
  have hthis : Starved [] ((some type).mapM (walker.instantiate (walker.performWithin nesting))) := hobject.map some
  rw [walkPath]
  dsimp only
  rw [howner, hinstance]
  exact Starved.after (hinits.lasts walker.exists_shows) fun _ =>
    Starved.after (hinitialized.lasts walker.exists_shows) fun _ => hthis.bind _

end

theorem walkWithin_endless {walker : Walker σ} {family : VertexId → Prop} (hfamily : walker.Regenerates family)
    {path : CodePath} (hinstance : walker.graph.isStatic path.method = false)
    (howner : walker.graph.enclosingType? path.method = some type) (htype : family type) (nesting : Nat)
    (statics : StaticScopes) (observed : σ) :
    (walker.walkWithin nesting path statics observed).1 = .error (.internal .exhausted) := by
  have hrun := (starved_walkPath hfamily nesting hinstance howner htype).run { symbols := { statics }, observed } rfl
  rw [walkWithin]
  show Except.map _
    ((walker.walkPath (walker.performWithin nesting) path).run { symbols := { statics }, observed }).1 = _
  rw [hrun]
  rfl

end Walker

/-! ## A class that makes itself -/

/-- A class with a field that is initialized with a new object of the class. -/
def makingItself : String := "class A { A a = new A(); void m() { } }"

/-- The path is one of an instance method of a class with a field that is initialized with a new object of the class. -/
def runsOnSelfMade (graph : CodeGraph) (path : CodePath) : Bool :=
  let walker : Walker Unit := ⟨Program.ofGraph graph, .silent, 100⟩
  !graph.isStatic path.method && (graph.enclosingType? path.method).any fun type =>
    (walker.fieldOwners type).any fun owner => (walker.fieldInits owner false).any fun init =>
    walker.created? init == some type

theorem runsOnSelfMade_makingItself :
    (Build.treeOfChars makingItself.toList).toOption.any (anyMethod (expandsOnce runsOnSelfMade)) = true :=
  Build.any_of_toList_eq String.toList_ofList (by decide +kernel)

/-- The walk of the method has no outcome, whatever nesting is allowed to it and from whatever static variables it
starts. -/
theorem makingItself_endless : ∃ graph path expanded, Build.IsGraphOf bareSettings [("A", makingItself)] graph ∧
    Path.forward graph path.method = .ok [path] ∧
    (((Expander.ofGraph graph bareSettings {}).expandPath path).run { registry := { limit := .unlimited } }).1 =
    .ok [expanded] ∧
    ∀ nesting statics,
    ((⟨Program.ofGraph graph, .silent, 100⟩ : Walker Unit).walkWithin nesting expanded statics ()).1 =
    .error (.internal .exhausted) := by
  obtain ⟨graph, path, expanded, hgraph, hforward, hrun, htest⟩ := exists_expanded runsOnSelfMade_makingItself
  simp only [runsOnSelfMade, Bool.and_eq_true, Bool.not_eq_true', Option.any_eq_true, List.any_eq_true,
    beq_iff_eq] at htest
  obtain ⟨hinstance, type, howner, owner, hfields, init, hinit, hmade⟩ := htest
  have hfamily : (⟨Program.ofGraph graph, .silent, 100⟩ : Walker Unit).Regenerates (· = type) := by
    rintro _ rfl
    exact ⟨owner, hfields, init, hinit, _, hmade, rfl⟩
  exact ⟨graph, path, expanded, hgraph, hforward, hrun, fun nesting statics =>
    Walker.walkWithin_endless hfamily hinstance howner rfl nesting statics ()⟩

end ApexPaths
