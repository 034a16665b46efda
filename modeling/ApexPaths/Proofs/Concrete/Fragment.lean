import ApexPaths.Proofs.Walk.Turns

/-!
What computations of a journaled walk leave: a result, the running methods, and the moments that they add to the
journal. A computation that fails leaves nothing to speak of.

Programs over integers and truth values: classes with methods only, whose bodies consist of blocks, declarations,
branches, returns and expressions. Names and calls are unqualified, and variables change by whole statements only.
Whether methods are static and what types variables have does not matter.
-/

namespace ApexPaths
set_option autoImplicit false

open WalkM List

variable {σ : Type}

/-- From every state with these running methods and attached paths, where a computation does not fail, the same
attached paths are walked after it, and something holds of its result, of the running methods, and of the moments
that are new. -/
structure Leaves {α : Type} (frames : List Frame) (chain : Chain) (m : WalkM (Journal σ) α)
    (post : α → List Frame → List Moment → Prop) : Prop where
  run : ∀ state a left, state.symbols.frames = frames → state.observed.chain = chain → m.run state = (.ok a, left) →
    left.observed.chain = chain ∧ ∃ added, left.observed.moments = state.observed.moments ++ added ∧
      post a left.symbols.frames added

/-- The running methods stay as they are. -/
abbrev Steady {α : Type} (frames : List Frame) (chain : Chain) (m : WalkM (Journal σ) α) : Prop :=
  Leaves frames chain m fun _ left _ => left = frames

namespace Leaves

variable {α β : Type} {frames : List Frame} {chain : Chain} {post : α → List Frame → List Moment → Prop}

theorem pure {a : α} (h : post a frames []) : Leaves frames chain (Pure.pure a : WalkM (Journal σ) α) post := by
  refine ⟨fun state b left hframes hchain hrun => ?_⟩
  obtain ⟨hb, rfl⟩ := Prod.mk.inj hrun
  cases hb
  exact ⟨hchain, [], (append_nil _).symm, hframes ▸ h⟩

theorem imp {m : WalkM (Journal σ) α} {post' : α → List Frame → List Moment → Prop} (h : Leaves frames chain m post)
    (himp : ∀ a left added, post a left added → post' a left added) : Leaves frames chain m post' := by
  refine ⟨fun state a left hframes hchain hrun => ?_⟩
  obtain ⟨hkept, added, hadded, hpost⟩ := h.run state a left hframes hchain hrun
  exact ⟨hkept, added, hadded, himp _ _ _ hpost⟩

theorem bind {m : WalkM (Journal σ) α} {f : α → WalkM (Journal σ) β} {post' : β → List Frame → List Moment → Prop}
    (h : Leaves frames chain m post) (hf : ∀ a next added, post a next added →
    Leaves next chain (f a) fun b left more => post' b left (added ++ more)) :
    Leaves frames chain (m >>= f) post' := by
  refine ⟨fun state b left hframes hchain hrun => ?_⟩
  obtain ⟨a, middle, hfirst, hsecond⟩ := Walker.exists_of_run_bind hrun
  obtain ⟨hkept, added, hadded, hpost⟩ := h.run state a middle hframes hchain hfirst
  obtain ⟨hlast, more, hmore, hpost'⟩ := (hf a _ added hpost).run middle b left rfl hkept hsecond
  exact ⟨hlast, added ++ more, by rw [hmore, hadded, List.append_assoc], hpost'⟩

theorem after {m : WalkM (Journal σ) α} {f : α → WalkM (Journal σ) β} {post' : β → List Frame → List Moment → Prop}
    (h : Steady frames chain m) (hf : ∀ a added, Leaves frames chain (f a) fun b left more =>
    post' b left (added ++ more)) : Leaves frames chain (m >>= f) post' :=
  h.bind fun a _ added hnext => hnext ▸ hf a added

theorem map {m : WalkM (Journal σ) α} {f : α → β} {post' : β → List Frame → List Moment → Prop}
    (h : Leaves frames chain m fun a left added => post' (f a) left added) : Leaves frames chain (f <$> m) post' := by
  rw [← bind_pure_comp]
  exact h.bind fun a next added hpost => .pure (by rwa [append_nil])

theorem discard {m : WalkM (Journal σ) α} {post' : List Frame → List Moment → Prop}
    (h : Leaves frames chain m fun _ left added => post' left added) :
    Leaves frames chain (Functor.discard m) fun _ left added => post' left added := h.map

theorem fail (error : EngineError) : Leaves frames chain (throw error : WalkM (Journal σ) α) post :=
  ⟨fun _ _ _ _ _ hrun => nomatch congrArg Prod.fst hrun⟩

/-! ### Parts of the state -/

theorem symbols_bind {f : Symbols → WalkM (Journal σ) α}
    (h : ∀ symbols : Symbols, symbols.frames = frames → Leaves frames chain (f symbols) post) :
    Leaves frames chain (symbols >>= f) post :=
  ⟨fun state a left hframes hchain hrun => (h state.symbols hframes).run state a left hframes hchain hrun⟩

theorem heap_bind {f : Heap → WalkM (Journal σ) α} (h : ∀ heap, Leaves frames chain (f heap) post) :
    Leaves frames chain (heap >>= f) post :=
  ⟨fun state a left hframes hchain hrun => (h state.symbols.heap).run state a left hframes hchain hrun⟩

theorem frame_bind {f : Frame → WalkM (Journal σ) α} {top : Frame} {rest : List Frame}
    (h : Leaves (top :: rest) chain (f top) post) : Leaves (top :: rest) chain (frame >>= f) post := by
  refine ⟨fun state a left hframes hchain hrun => ?_⟩
  obtain ⟨running, middle, hframe, hrest⟩ := Walker.exists_of_run_bind hrun
  obtain ⟨⟨heap, statics, frames⟩, iterables, subjects, visited, observed⟩ := state
  obtain rfl : frames = top :: rest := hframes
  obtain ⟨hrunning, rfl⟩ := Prod.mk.inj hframe
  cases hrunning
  exact h.run _ a left rfl hchain hrest

theorem modify {g : WalkState (Journal σ) → WalkState (Journal σ)}
    (hframes : ∀ state, (g state).symbols.frames = state.symbols.frames)
    (hobserved : ∀ state, (g state).observed = state.observed) :
    Leaves frames chain (modify g : WalkM (Journal σ) Unit) fun _ left added => left = frames ∧ added = [] := by
  refine ⟨fun state a left hbefore hchain hrun => ?_⟩
  obtain ⟨-, rfl⟩ := Prod.mk.inj hrun
  exact ⟨(congrArg Journal.chain (hobserved state)).trans hchain, [],
    (congrArg Journal.moments (hobserved state)).trans (append_nil _).symm, (hframes state).trans hbefore, rfl⟩

theorem onHeap {f : Heap → α × Heap} : Leaves frames chain (onHeap f : WalkM (Journal σ) α) fun _ left added =>
    left = frames ∧ added = [] := by
  refine ⟨fun state a left hframes hchain hrun => ?_⟩
  obtain ⟨-, rfl⟩ := Prod.mk.inj hrun
  exact ⟨hchain, [], (append_nil _).symm, hframes, rfl⟩

theorem modifyStatics (f : StaticScopes → StaticScopes) :
    Leaves frames chain (modifyStatics f : WalkM (Journal σ) Unit) fun _ left added => left = frames ∧ added = [] :=
  .modify (fun _ => rfl) fun _ => rfl

theorem notify {f : Journal σ → Journal σ} (hchain : ∀ journal, (f journal).chain = journal.chain)
    (hmoments : ∀ journal, (f journal).moments = journal.moments) :
    Leaves frames chain (notify f : WalkM (Journal σ) Unit) fun _ left added => left = frames ∧ added = [] := by
  refine ⟨fun state a left hframes hbefore hrun => ?_⟩
  obtain ⟨-, rfl⟩ := Prod.mk.inj hrun
  exact ⟨(hchain _).trans hbefore, [], (hmoments _).trans (append_nil _).symm, hframes, rfl⟩

/-- The visitor is told something of which the journal notes the moment. -/
theorem note {f : Journal σ → Journal σ} {moment : Moment} (hchain : ∀ journal, (f journal).chain = journal.chain)
    (hmoments : ∀ journal : Journal σ, journal.chain = chain → (f journal).moments = journal.moments ++ [moment]) :
    Leaves frames chain (WalkM.notify f : WalkM (Journal σ) Unit) fun _ left added => left = frames ∧
    added = [moment] := by
  refine ⟨fun state a left hframes hbefore hrun => ?_⟩
  obtain ⟨-, rfl⟩ := Prod.mk.inj hrun
  exact ⟨(hchain _).trans hbefore, [moment], hmoments _ hbefore, hframes, rfl⟩

/-! ### The running method -/

section
variable {top : Frame} {rest : List Frame}

theorem mapFrame (g : Frame → Frame) :
    Leaves (top :: rest) chain (modifySymbols (·.mapFrame g) : WalkM (Journal σ) Unit) fun _ left added =>
    left = g top :: rest ∧ added = [] := by
  refine ⟨fun state a left hframes hchain hrun => ?_⟩
  obtain ⟨⟨heap, statics, frames⟩, iterables, subjects, visited, observed⟩ := state
  obtain rfl : frames = top :: rest := hframes
  obtain ⟨-, rfl⟩ := Prod.mk.inj hrun
  exact ⟨hchain, [], (append_nil _).symm, rfl, rfl⟩

theorem modifyFrame (g : Frame → Frame) :
    Leaves (top :: rest) chain (modifyFrame g : WalkM (Journal σ) Unit) fun _ left added => left = g top :: rest ∧
    added = [] :=
  .frame_bind (.mapFrame g)

theorem this? : Leaves (top :: rest) chain (this? : WalkM (Journal σ) (Option HeapRef)) fun _ left added =>
    left = top :: rest ∧ added = [] :=
  .frame_bind (.pure ⟨rfl, rfl⟩)

theorem pushFrame (frame : Frame) :
    Leaves frames chain (pushFrame frame : WalkM (Journal σ) Unit) fun _ left added => left = frame :: frames ∧
    added = [] := by
  refine ⟨fun state a left hframes hchain hrun => ?_⟩
  obtain ⟨-, rfl⟩ := Prod.mk.inj hrun
  exact ⟨hchain, [], (append_nil _).symm, congrArg (frame :: ·) hframes, rfl⟩

theorem popFrame : Leaves (top :: rest) chain (popFrame : WalkM (Journal σ) Frame) fun frame left added =>
    frame = top ∧ left = rest ∧ added = [] := by
  refine ⟨fun state a left hframes hchain hrun => ?_⟩
  obtain ⟨⟨heap, statics, frames⟩, iterables, subjects, visited, observed⟩ := state
  obtain rfl : frames = top :: rest := hframes
  obtain ⟨ha, rfl⟩ := Prod.mk.inj hrun
  exact ⟨hchain, [], (append_nil _).symm, (Except.ok.inj ha).symm, rfl, rfl⟩

end

end Leaves

namespace Steady

variable {α β : Type} {frames : List Frame} {chain : Chain}

theorem pure (a : α) : Steady frames chain (Pure.pure a : WalkM (Journal σ) α) := Leaves.pure rfl

theorem of_leaves {m : WalkM (Journal σ) α}
    (h : Leaves frames chain m fun _ left added => left = frames ∧ added = []) : Steady frames chain m :=
  h.imp fun _ _ _ hpost => hpost.1

theorem bind {m : WalkM (Journal σ) α} {f : α → WalkM (Journal σ) β} (h : Steady frames chain m)
    (hf : ∀ a, Steady frames chain (f a)) : Steady frames chain (m >>= f) := h.after fun a _ => hf a

theorem forM {f : α → WalkM (Journal σ) PUnit} {items : List α} (h : ∀ a ∈ items, Steady frames chain (f a)) :
    Steady frames chain (items.forM f) := by
  induction items with
  | nil => exact pure _
  | cons a items ih =>
    obtain ⟨hfirst, hrest⟩ := forall_mem_cons.mp h
    exact bind hfirst fun _ => ih hrest

theorem optionMapM {f : α → WalkM (Journal σ) β} {item : Option α} (h : ∀ a ∈ item, Steady frames chain (f a)) :
    Steady frames chain (item.mapM f) := by
  cases item with
  | none => exact pure _
  | some a => exact Leaves.map (h a rfl)

end Steady

/-! ## Visitors that keep a journal -/

/-- A visitor that consents to every vertex and keeps a journal. -/
structure Visitor.Journals (visitor : Visitor (Journal σ)) : Prop where
  consents : ∀ v symbols journal, (visitor.visit v symbols journal).1 = true
  visit : ∀ v symbols journal, (visitor.visit v symbols journal).2.chain = journal.chain ∧
    (visitor.visit v symbols journal).2.moments = journal.moments ++ [⟨journal.chain, .reached v, symbols⟩]
  afterVisit : ∀ v symbols journal, (visitor.afterVisit v symbols journal).chain = journal.chain ∧
    (visitor.afterVisit v symbols journal).moments = journal.moments ++ [⟨journal.chain, .passed v, symbols⟩]
  onExpression : ∀ expr value journal, (visitor.onExpression expr value journal).chain = journal.chain ∧
    (visitor.onExpression expr value journal).moments = journal.moments
  enterMethod : ∀ method symbols journal, (visitor.enterMethod method symbols journal).chain = journal.chain ∧
    (visitor.enterMethod method symbols journal).moments = journal.moments ++
    [⟨journal.chain, .entered method, symbols⟩]
  exitMethod : ∀ method returned journal, (visitor.exitMethod method returned journal).chain = journal.chain ∧
    (visitor.exitMethod method returned journal).moments = journal.moments

theorem Visitor.journals_journaling {visitor : Visitor σ} (h : Walker.Consents visitor) : visitor.journaling.Journals :=
  ⟨fun v symbols journal => h v symbols journal.observed, fun _ _ _ => ⟨rfl, rfl⟩, fun _ _ _ => ⟨rfl, rfl⟩,
  fun _ _ _ => ⟨rfl, rfl⟩, fun _ _ _ => ⟨rfl, rfl⟩, fun _ _ _ => ⟨rfl, rfl⟩⟩

section
variable {walker : Walker (Journal σ)} (journals : walker.visitor.Journals) {frames : List Frame} {chain : Chain}
include journals

theorem leaves_seeing (expr : VertexId) (value : Value) :
    Leaves frames chain (notify (walker.visitor.onExpression expr value)) fun _ left added => left = frames ∧
    added = [] :=
  .notify (fun journal => (journals.onExpression expr value journal).1) fun journal =>
  (journals.onExpression expr value journal).2

theorem leaves_exiting (method : VertexId) (returned : Option Value) :
    Leaves frames chain (notify (walker.visitor.exitMethod method returned)) fun _ left added => left = frames ∧
    added = [] :=
  .notify (fun journal => (journals.exitMethod method returned journal).1) fun journal =>
  (journals.exitMethod method returned journal).2

theorem leaves_entering (method : VertexId) (entered : Symbols) :
    Leaves frames chain (notify (walker.visitor.enterMethod method entered)) fun _ left added => left = frames ∧
    added = [⟨chain, .entered method, entered⟩] :=
  .note (fun journal => (journals.enterMethod method entered journal).1) fun journal hchain => by
    rw [(journals.enterMethod method entered journal).2, hchain]

theorem leaves_passed (v : VertexId) (after : Symbols) :
    Leaves frames chain (notify (walker.visitor.afterVisit v after)) fun _ left added => left = frames ∧
    added = [⟨chain, .passed v, after⟩] :=
  .note (fun journal => (journals.afterVisit v after journal).1) fun journal hchain => by
    rw [(journals.afterVisit v after journal).2, hchain]

theorem leaves_visit (v : VertexId) : Leaves frames chain (walker.visit v) fun consent left _ => left = frames ∧
    consent = true := by
  refine ⟨fun state consent left hframes hchain hrun => ?_⟩
  obtain ⟨hconsent, rfl⟩ := Prod.mk.inj hrun
  cases hconsent
  obtain ⟨hkept, hmoments⟩ := journals.visit v state.symbols state.observed
  exact ⟨hkept.trans hchain, _, hmoments, hframes, journals.consents ..⟩

end

/-! ## Classes without variables -/

/-- No type has fields or properties. -/
def CodeGraph.IsBare (graph : CodeGraph) : Prop := ∀ type, graph.fields type = [] ∧ graph.properties type = []

namespace Walker

section
variable {walker : Walker (Journal σ)} {perform : Perform (Journal σ)} (bare : walker.graph.IsBare)
    {frames : List Frame} {chain : Chain}
include bare

theorem setFields_eq_pure (type : VertexId) (static : Bool) (store : String → String → Value → WalkM (Journal σ) Unit) :
    walker.setFields perform type static store = pure () := by
  rw [setFields]
  dsimp only
  rw [(bare type).1, (bare type).2]
  rfl

theorem steady_pushing (frame : Frame) (type : VertexId) (static : Bool)
    (store : String → String → Value → WalkM (Journal σ) Unit) : Steady frames chain (do
      pushFrame frame
      walker.setFields perform type static store
      discard popFrame : WalkM (Journal σ) Unit) := by
  refine (Leaves.pushFrame frame).bind fun _ next _ hnext => ?_
  obtain ⟨rfl, -⟩ := hnext
  rw [setFields_eq_pure bare, pure_bind]
  exact (Leaves.popFrame.imp fun _ _ _ hpost => hpost.2.1).discard

theorem steady_initializeClass (owner : String) (blocks : Option CodePath)
    (hblocks : ∀ path ∈ blocks, Steady frames chain (perform (.invoke path none []))) :
    Steady frames chain (walker.initializeClass perform owner blocks) := by
  have hfinish : Steady frames chain (modifyStatics (·.finish owner) : WalkM (Journal σ) Unit) :=
    Steady.of_leaves (.modifyStatics _)
  have hpath : Steady frames chain (runBlocks perform owner blocks) := by
    cases blocks with
    | none => exact hfinish
    | some path => exact (hblocks path rfl).discard.bind fun _ _ _ hnext => hnext ▸ hfinish
  rw [initializeClass]
  refine .symbols_bind fun symbols _ => Steady.bind (.of_leaves (.modifyStatics _)) fun _ => ?_
  split
  · cases walker.program.typeNamed? owner with
    | none => exact hpath
    | some type => exact Steady.bind (steady_pushing bare _ type true _) fun _ => hpath
  · exact Steady.pure _

theorem steady_ensureInitialized (type : VertexId) : Steady frames chain (walker.ensureInitialized perform type) := by
  rw [ensureInitialized]
  refine .symbols_bind fun symbols _ => ?_
  split
  · exact steady_initializeClass bare _ none (by simp)
  · exact Steady.pure _

theorem steady_runStaticInits (path : CodePath) (anchor : Option VertexId)
    (hinits : ∀ init ∈ path.staticInits, Steady frames chain (perform (.invoke init.2.2 none []))) :
    Steady frames chain (walker.runStaticInits perform path anchor) :=
  Steady.forM fun init hinit => steady_initializeClass bare _ _ fun _ hpath => Option.some.inj hpath ▸
  hinits init (mem_filter.mp hinit).1

theorem steady_instantiate (type : VertexId) : Steady frames chain (walker.instantiate perform type) :=
  Steady.bind (.of_leaves .onHeap) fun _ => Steady.bind (.forM fun _ _ => steady_pushing bare _ _ false _) fun _ =>
  .pure _

end

end Walker

/-! ## Programs over integers and truth values -/

/-- The kinds of the fragment. -/
def NodeKind.isArithmetic : NodeKind → Bool
  | .userClass | .userInterface | .method | .parameter | .blockStatement | .ifElseBlockStatement | .ifBlockStatement
  | .standardCondition | .returnStatement | .variableDeclarationStatements | .variableDeclaration | .expressionStatement
  | .literalExpression | .variableExpression | .emptyReferenceExpression | .methodCallExpression | .binaryExpression
  | .booleanExpression | .prefixExpression | .postfixExpression | .assignmentExpression | .ternaryExpression => true
  | _ => false

variable {v : VertexId}

namespace CodeGraph

variable (graph : CodeGraph)

/-- The expression changes a variable. -/
def changes (expr : VertexId) : Bool :=
  match graph.labelOf expr with
  | .assignmentExpression => true
  | .prefixExpression | .postfixExpression => ["++", "--"].contains ((graph.text? expr (.fact .operator)).getD "")
  | _ => false

/-- The vertex is of the fragment: variables and callees are unqualified, and changes are statements. -/
def isArithmeticAt (v : VertexId) : Bool :=
  (graph.labelOf v).isArithmetic &&
    (if graph.labelOf v = .variableExpression ∨ graph.labelOf v = .methodCallExpression then graph.isUnqualified v
    else true) &&
    (if graph.changes v then (graph.parent? v).any (graph.is · .expressionStatement) else true)

/-- The graph is one of a program over integers and truth values. -/
def IsArithmetic : Prop := ∀ v ∈ graph.ids, graph.isArithmeticAt v = true

instance : Decidable graph.IsArithmetic := inferInstanceAs (Decidable (∀ v ∈ graph.ids, graph.isArithmeticAt v = true))

variable {graph}

theorem labelOf_of_not_mem (h : v ∉ graph.ids) : graph.labelOf v = .blockStatement := by
  have hnone : graph.vertices[v]? = none :=
    Array.getElem?_eq_none (Nat.le_of_not_lt fun hlt => h (mem_range.mpr hlt))
  rw [labelOf, label?, vertex?, hnone]
  rfl

namespace IsArithmetic

variable (arithmetic : graph.IsArithmetic)
include arithmetic

theorem kind (v : VertexId) : (graph.labelOf v).isArithmetic = true := by
  by_cases hv : v ∈ graph.ids
  · have hat := arithmetic v hv
    rw [isArithmeticAt, Bool.and_eq_true, Bool.and_eq_true] at hat
    exact hat.1.1
  · rw [labelOf_of_not_mem hv]
    rfl

theorem not_is {label : NodeKind} (h : label.isArithmetic = false) : graph.is v label = false := by
  rw [Bool.eq_false_iff]
  intro hlabel
  have hkind := arithmetic.kind v
  rw [labelOf_eq (graph.is_iff.mp hlabel), h] at hkind
  cases hkind

section
variable (h : graph.labelOf v = .variableExpression ∨ graph.labelOf v = .methodCallExpression)
include h

theorem isUnqualified : graph.isUnqualified v = true := by
  have hv : v ∈ graph.ids := by
    by_contra hnot
    rw [labelOf_of_not_mem hnot] at h
    rcases h with h | h <;> cases h
  have hat := arithmetic v hv
  rw [isArithmeticAt, if_pos h, Bool.and_eq_true, Bool.and_eq_true] at hat
  exact hat.1.2

theorem qualifier?_eq :
    graph.qualifier? v = none ∨ ∃ qualifier, graph.qualifier? v = some qualifier ∧
    graph.labelOf qualifier = .emptyReferenceExpression := by
  have hunqualified := arithmetic.isUnqualified h
  rw [CodeGraph.isUnqualified] at hunqualified
  cases hqualifier : graph.qualifier? v with
  | none => exact .inl rfl
  | some qualifier =>
    rw [hqualifier] at hunqualified
    exact .inr ⟨qualifier, rfl, labelOf_eq (graph.is_iff.mp hunqualified)⟩

end

/-- Only the expression of an expression statement changes a variable. -/
theorem changes_eq_false (forest : graph.IsForest) {parent child : VertexId} (h : child ∈ graph.children parent)
    (hparent : graph.labelOf parent ≠ .expressionStatement) : graph.changes child = false := by
  rw [Bool.eq_false_iff]
  intro hchanges
  have hchild : child ∈ graph.ids := by
    by_contra hnot
    rw [changes, labelOf_of_not_mem hnot] at hchanges
    cases hchanges
  have hat := arithmetic child hchild
  rw [isArithmeticAt, if_pos hchanges, Bool.and_eq_true, forest.parent_of_mem h] at hat
  exact hparent (labelOf_eq (graph.is_iff.mp hat.2))

theorem isBare : graph.IsBare := by
  refine fun type => ⟨?_, filter_eq_nil_iff.mpr fun member _ => by rw [arithmetic.not_is rfl]; simp⟩
  have hnone : graph.childrenWithLabel type .fieldDeclarationStatements = [] :=
    filter_eq_nil_iff.mpr fun member _ => by rw [arithmetic.not_is rfl]; simp
  rw [fields, hnone]
  rfl

end IsArithmetic

end CodeGraph

/-! ## Names without accessors -/

variable {expr : VertexId}

namespace Program

variable {program : Program} (arithmetic : program.graph.IsArithmetic)
include arithmetic

theorem memberBinding?_eq_none (type : VertexId) (name : String) : program.memberBinding? type name = none := by
  refine List.findSome?_eq_none_iff.mpr fun owner _ => List.findSome?_eq_none_iff.mpr fun member _ => ?_
  rw [memberVariable?]
  split
  · rename_i hlabel
    exact absurd (program.graph.is_iff.mpr hlabel) (by rw [arithmetic.not_is rfl]; simp)
  · rename_i hlabel
    exact absurd (program.graph.is_iff.mpr hlabel) (by rw [arithmetic.not_is rfl]; simp)
  · rfl

theorem not_property_of_variableBinding? {name : String} {place : VertexId} {binding : Binding}
    (h : program.variableBinding? name place = some binding) {owner id : VertexId} {static : Bool} :
    binding.declared ≠ .property owner id static := by
  have hmembers : (program.outward (program.graph.enclosingType? place)).findSome? (program.memberBinding? · name) =
      none :=
    List.findSome?_eq_none_iff.mpr fun type _ => memberBinding?_eq_none arithmetic type name
  rw [variableBinding?, hmembers, Option.orElse_eq_orElse, Option.orElse_eq_or, Option.or_none] at h
  obtain ⟨method, -, h⟩ := Option.bind_eq_some_iff.mp h
  rw [Option.orElse_eq_or, Option.or_eq_some_iff] at h
  rcases h with h | ⟨-, h⟩
  · obtain ⟨id, -, rfl⟩ := Option.map_eq_some_iff.mp h
    simp
  · obtain ⟨id, -, rfl⟩ := Option.map_eq_some_iff.mp h
    simp

theorem accessor?_eq_none {accessorName : String → String} (hlabel : program.graph.labelOf expr = .variableExpression) :
    program.accessor? accessorName expr = none := by
  rw [Option.eq_none_iff_forall_ne_some]
  intro accessor haccessor
  obtain ⟨binding, hbinding, haccessor⟩ := Option.bind_eq_some_iff.mp haccessor
  obtain ⟨name, -, hbinding⟩ := Option.bind_eq_some_iff.mp hbinding
  have hvariable : program.variableBinding? name expr = some binding := by
    rcases arithmetic.qualifier?_eq (.inl hlabel) with hnone | ⟨qualifier, hsome, hempty⟩
    · rwa [hnone] at hbinding
    · rw [hsome] at hbinding
      dsimp only at hbinding
      rwa [hempty] at hbinding
  have hnot : ∀ owner id static, binding.declared ≠ .property owner id static :=
    fun _ _ _ => not_property_of_variableBinding? arithmetic hvariable
  dsimp only at haccessor
  split at haccessor
  · exact hnot _ _ _ ‹_›
  · cases haccessor

theorem runMethod?_eq_none (h : (program.graph.labelOf expr).isInvocable = false) : program.runMethod? expr = none := by
  rw [runMethod?, if_neg (by rw [h]; simp)]
  split
  · rename_i hname
    exact accessor?_eq_none arithmetic hname.1
  · split
    · rw [setter?]
      cases program.graph.childAt? expr 0 with
      | none => rfl
      | some target =>
        show (if program.graph.is target .variableExpression then program.accessor? Reserved.setter target
          else none) = none
        split
        · exact accessor?_eq_none arithmetic (CodeGraph.labelOf_eq (program.graph.is_iff.mp ‹_›))
        · rfl
    · rfl

end Program

theorem CodePath.Spliced.invokedPath?_eq_none {graph : CodeGraph} {settings : Settings} {options : ExpansionOptions}
    {path : CodePath} (h : path.Spliced (Expander.ofGraph graph settings options)) (built : Build.IsBuilt graph)
    (placed : Build.WellPlaced graph) (arithmetic : graph.IsArithmetic)
    (hexpr : (graph.labelOf expr).isInvocable = false) : path.invokedPath? expr = none := by
  rw [Option.eq_none_iff_forall_ne_some]
  intro sub hsub
  have hruns := h.runMethod?_eq built placed hsub
  have hnone : (Program.ofGraph graph).runMethod? expr = none := Program.runMethod?_eq_none arithmetic hexpr
  rw [hnone] at hruns
  cases hruns

end ApexPaths
