import ApexPaths.Proofs.Expansion.Spliced
import ApexPaths.Proofs.Walk.Covering
import ApexPaths.Proofs.Walk.Growth

/-!
The order in which a walk visits the vertices of a path and of all paths attached to it. At each vertex the static
initializers come before the calls. Where they were attached in this order, it is the order of the expanded vertices.
-/

namespace ApexPaths
set_option autoImplicit false

open List

/-! ## Lists that are laid out -/

theorem flatMap_filter {α β : Type} (p : α → Bool) (f : α → List β) (items : List α) :
    (items.filter p).flatMap f = items.flatMap fun item => if p item then f item else [] := by
  induction items with
  | nil => rfl
  | cons item rest ih =>
    rw [flatMap_cons, ← ih, filter_cons]
    split <;> rfl

theorem flatMap_filterMap {α β γ : Type} (g : α → Option β) (f : β → List γ) (items : List α) :
    (items.filterMap g).flatMap f = items.flatMap fun item => (g item).elim [] f := by
  induction items with
  | nil => rfl
  | cons item rest ih =>
    rw [flatMap_cons, ← ih, filterMap_cons]
    cases g item <;> rfl

theorem flatMap_range {α β : Type} (f : α → List β) (items : List α) :
    ((List.range items.length).flatMap fun index => (items[index]?).elim [] f) = items.flatMap f := by
  induction items with
  | nil => rfl
  | cons item rest ih =>
    rw [length_cons, range_succ_eq_map, flatMap_cons, flatMap_map, flatMap_cons, ← ih]
    rfl

/-! ## The order of a walk -/

namespace Attachment

/-- The attachment is of an initializer. -/
def isInit : Attachment → Bool
  | .staticInit _ => true
  | .invocation .. => false

/-- Attachments with the initializers before the calls. -/
def sorted (attachments : List Attachment) : List Attachment :=
  attachments.filter (·.isInit) ++ attachments.filter (!·.isInit)

end Attachment

namespace CodePath

/-- The vertices of the path and of everything attached to it in the order of a walk: at every vertex what is attached
as a static initializer comes before what is attached as a call. -/
def walkOrder (path : CodePath) : List VertexId :=
  let invoked := path.invocations.attach.map fun ⟨entry, h⟩ =>
    have := sizeOf_invocation h
    (entry.1, entry.2.walkOrder)
  let initialized := path.staticInits.attach.map fun ⟨entry, h⟩ =>
    have := sizeOf_staticInit h
    (entry.2.1, entry.2.2.walkOrder)
  attachedAt invoked initialized none (Attachment.sorted path.attachments) ++
    path.vertices.flatMap fun vertex => vertex.id :: attachedAt invoked initialized (some vertex.id)
    (Attachment.sorted path.attachments)
termination_by sizeOf path

section
variable (path : CodePath) (of : CodePath → List VertexId) (anchor : Option VertexId)

/-- What an attachment of a path lays at a place, where every attached path stands for some vertices. -/
def laid : Attachment → List VertexId
  | .invocation at_ site => if some at_ == anchor then ((path.invokedPath? site).map of).getD [] else []
  | .staticInit index => (path.staticInits[index]?).elim [] fun init => if init.2.1 == anchor then of init.2.2 else []

theorem attachedAt_eq (attachments : List Attachment) :
    attachedAt (path.invocations.map fun entry => (entry.1, of entry.2)) (path.staticInits.map fun entry =>
    (entry.2.1, of entry.2.2)) anchor attachments = attachments.flatMap (path.laid of anchor) := by
  refine flatMap_congr fun attachment _ => ?_
  cases attachment with
  | invocation at_ site =>
    have hfound : ((path.invocations.map fun entry => (entry.1, of entry.2)).find? (·.1 == site)).map (·.2) =
        (path.invokedPath? site).map of := by
      rw [List.find?_map, invokedPath?, Option.map_map, Option.map_map]
      rfl
    simp only [hfound, laid]
  | staticInit index =>
    simp only [laid, List.getElem?_map]
    cases path.staticInits[index]? <;> rfl

end

theorem walkOrder_eq (path : CodePath) :
    path.walkOrder = (Attachment.sorted path.attachments).flatMap (path.laid walkOrder none) ++
    path.vertices.flatMap fun vertex => vertex.id ::
    (Attachment.sorted path.attachments).flatMap (path.laid walkOrder (some vertex.id)) := by
  rw [walkOrder]
  simp only [map_attach_eq_pmap, pmap_eq_map, attachedAt_eq]

theorem expandedVertices_eq (path : CodePath) :
    path.expandedVertices = path.attachments.flatMap (path.laid expandedVertices none) ++
    path.vertices.flatMap fun vertex => vertex.id ::
    path.attachments.flatMap (path.laid expandedVertices (some vertex.id)) := by
  rw [expandedVertices]
  simp only [map_attach_eq_pmap, pmap_eq_map, attachedAt_eq]

section
variable (path : CodePath) (of : CodePath → List VertexId) (anchor : Option VertexId)

theorem laid_calls : (path.attachments.filter (!·.isInit)).flatMap (path.laid of anchor) =
    (path.calls.filter (some ·.1 == anchor)).flatMap fun call => ((path.invokedPath? call.2).map of).getD [] := by
  rw [flatMap_filter, calls, flatMap_filter, flatMap_filterMap]
  refine flatMap_congr fun attachment _ => ?_
  cases attachment <;> rfl

theorem laid_inits (hnumbers : path.initNumbers = List.range path.staticInits.length) :
    (path.attachments.filter (·.isInit)).flatMap (path.laid of anchor) =
      (path.staticInits.filter (·.2.1 == anchor)).flatMap fun init => of init.2.2 := by
  have hinits : (path.attachments.filter (·.isInit)).flatMap (path.laid of anchor) =
    path.initNumbers.flatMap fun index =>
      (path.staticInits[index]?).elim [] fun init => if init.2.1 == anchor then of init.2.2 else [] := by
    rw [flatMap_filter, initNumbers, flatMap_filterMap]
    refine flatMap_congr fun attachment _ => ?_
    cases attachment <;> rfl
  rw [hinits, hnumbers, flatMap_filter]
  exact flatMap_range ..

/-- The attachment is at an anchor. -/
def isAt : Attachment → Bool
  | .invocation at_ _ => some at_ == anchor
  | .staticInit index => (path.staticInits[index]?).any (·.2.1 == anchor)

theorem laid_filter (attachments : List Attachment) :
    (attachments.filter (path.isAt anchor)).flatMap (path.laid of anchor) =
    attachments.flatMap (path.laid of anchor) := by
  rw [flatMap_filter]
  refine flatMap_congr fun attachment _ => ?_
  cases attachment with
  | invocation at_ site =>
    rw [isAt, laid]
    split <;> rfl
  | staticInit index =>
    rw [isAt, laid]
    cases path.staticInits[index]? with
    | none => rfl
    | some init =>
      rw [Option.any_some, Option.elim_some]
      split <;> rfl

end

theorem sizeOf_attached {path sub : CodePath} (h : sub ∈ path.attached) : sizeOf sub < sizeOf path := by
  rcases mem_append.mp h with h | h <;> obtain ⟨entry, hentry, rfl⟩ := mem_map.mp h
  · exact sizeOf_invocation hentry
  · exact sizeOf_staticInit hentry

theorem laid_forall {path : CodePath} {of of' : CodePath → List VertexId}
    {relates : List VertexId → List VertexId → Prop} (hnil : relates [] []) (h : ∀ sub ∈ path.attached,
    relates (of sub) (of' sub)) (anchor : Option VertexId) (attachment : Attachment) :
    relates (path.laid of anchor attachment) (path.laid of' anchor attachment) := by
  cases attachment with
  | invocation at_ site =>
    rw [laid, laid]
    split
    · cases hsub : path.invokedPath? site with
      | none => exact hnil
      | some sub => exact h sub (mem_append_left _ (mem_map_of_mem (mem_invocations_of_invokedPath? hsub)))
    · exact hnil
  | staticInit index =>
    rw [laid, laid]
    cases hinit : path.staticInits[index]? with
    | none => exact hnil
    | some init =>
      rw [Option.elim_some, Option.elim_some]
      split
      · exact h init.2.2 (mem_append_right _ (mem_map_of_mem (mem_of_getElem? hinit)))
      · exact hnil

theorem walkOrder_perm (path : CodePath) : path.walkOrder.Perm path.expandedVertices := by
  have hlaid : ∀ anchor, ((Attachment.sorted path.attachments).flatMap (path.laid walkOrder anchor)).Perm
      (path.attachments.flatMap (path.laid expandedVertices anchor)) := fun anchor =>
    ((filter_append_perm _ path.attachments).flatMap_right _).trans
      (.flatMap_left _ fun attachment _ => laid_forall (.refl _) (fun sub hsub => walkOrder_perm sub) anchor attachment)
  rw [walkOrder_eq, expandedVertices_eq]
  exact (hlaid none).append (.flatMap_left _ fun vertex _ => (hlaid (some vertex.id)).cons vertex.id)
termination_by sizeOf path
decreasing_by exact sizeOf_attached hsub

/-- At every place the static initializers were attached before the calls, and so it is in all attached paths. -/
inductive InitsLead : CodePath → Prop where
  | intro {path : CodePath} (sorted : ∀ anchor, Attachment.sorted (path.attachments.filter (path.isAt anchor)) =
      path.attachments.filter (path.isAt anchor)) (attached : ∀ sub ∈ path.attached, InitsLead sub) : InitsLead path

theorem InitsLead.walkOrder_eq {path : CodePath} (h : path.InitsLead) : path.walkOrder = path.expandedVertices := by
  induction h with
  | @intro path hsorted _ ih =>
    have hlaid : ∀ anchor, (Attachment.sorted path.attachments).flatMap (path.laid walkOrder anchor) =
        path.attachments.flatMap (path.laid expandedVertices anchor) := by
      intro anchor
      have hfilter : (Attachment.sorted path.attachments).filter (path.isAt anchor) =
          path.attachments.filter (path.isAt anchor) := by
        rw [← hsorted anchor, Attachment.sorted, Attachment.sorted, filter_append]
        simp only [filter_filter, Bool.and_comm]
      rw [← laid_filter, hfilter, laid_filter]
      exact flatMap_congr fun attachment _ => laid_forall rfl ih anchor attachment
    rw [CodePath.walkOrder_eq, expandedVertices_eq]
    simp only [hlaid]

/-- What the call at a site adds to the order of a walk. -/
def orderAt (path : CodePath) (site : VertexId) : List VertexId := ((path.invokedPath? site).map walkOrder).getD []

/-- What the static initializers of a place add to the order of a walk. -/
def initOrder (path : CodePath) (anchor : Option VertexId) : List VertexId :=
  (path.staticInits.filter (·.2.1 == anchor)).flatMap fun init => init.2.2.walkOrder

/-- Each vertex is followed by its initializers and the calls of its expressions. -/
theorem Spliced.walkOrder_eq {graph : CodeGraph} {settings : Settings} {options : ExpansionOptions} {path : CodePath}
    (h : path.Spliced (Expander.ofGraph graph settings options)) (built : Build.IsBuilt graph)
    (placed : Build.WellPlaced graph) :
    path.walkOrder = path.initOrder none ++ path.ids.flatMap fun v =>
      v :: (path.initOrder (some v) ++ (graph.evaluatedExpressions v).flatMap path.orderAt) := by
  have hcalls : ∀ v ∈ path.ids, ((path.calls.filter (some ·.1 == some v)).flatMap fun call => path.orderAt call.2) =
      (graph.evaluatedExpressions v).flatMap path.orderAt := by
    intro v hv
    have hat : (path.calls.filter (·.1 == v)).flatMap (fun call => path.orderAt call.2) =
        ((graph.evaluatedExpressions v).filter fun expr => (path.invokedPath? expr).isSome).flatMap path.orderAt := by
      rw [← h.calls_at built placed hv, flatMap_map]
    have hidle : ((graph.evaluatedExpressions v).filter fun expr => (path.invokedPath? expr).isSome).flatMap
      path.orderAt = (graph.evaluatedExpressions v).flatMap path.orderAt := by
      rw [flatMap_filter]
      refine flatMap_congr fun expr _ => ?_
      rw [orderAt]
      cases path.invokedPath? expr <;> rfl
    exact hat.trans hidle
  obtain ⟨-, -, -, -, hnumbers, -, -⟩ := h
  have hsorted : ∀ anchor, (Attachment.sorted path.attachments).flatMap (path.laid walkOrder anchor) =
      path.initOrder anchor ++ (path.calls.filter (some ·.1 == anchor)).flatMap fun call => path.orderAt call.2 := by
    intro anchor
    rw [Attachment.sorted, flatMap_append, laid_inits path walkOrder anchor hnumbers, laid_calls]
    rfl
  have hnone : path.calls.filter (some ·.1 == none) = [] := filter_eq_nil_iff.mpr fun call _ => by simp
  rw [CodePath.walkOrder_eq, hsorted, hnone, flatMap_nil, append_nil, ids, flatMap_map]
  congr 1
  refine flatMap_congr fun vertex hvertex => ?_
  rw [hsorted, hcalls vertex.id (mem_map_of_mem hvertex)]

end CodePath

/-! ## Visits -/

/-- Nothing happens but some of these events, in this order. -/
def Forecast.atMost {β : Type} (events : List β) : Forecast β := ⟨[], events⟩

namespace Walker

variable {σ : Type}

/-- The vertices count about which the visitor is asked. -/
def visitPick : Pick VertexId where
  visit := some

/-- What the call at an expression adds to the order, if a path is attached there. -/
def siteOrder (sites : Option CodePath) (expr : VertexId) : List VertexId :=
  ((attached? sites expr).map CodePath.walkOrder).getD []

/-- The vertices that a task walks, in their order. -/
def orderOf (graph : CodeGraph) : Task → List VertexId
  | .eval sites expr => (graph.postOrder expr).flatMap (siteOrder sites)
  | .invoke path _ _ => path.walkOrder

def IsSpliced (expander : Expander) : Task → Prop
  | .eval sites _ => ∀ path ∈ sites, path.Spliced expander
  | .invoke path _ _ => path.Spliced expander

theorem orderOf_field (graph : CodeGraph) (init : VertexId) : orderOf graph (.eval none init) = [] :=
  flatMap_eq_nil_iff.mpr fun _ _ => rfl

theorem siteForecast_order (sites : Option CodePath) (expr : VertexId) :
    siteForecast (fun expr => .atMost (siteOrder sites expr)) sites expr = .atMost (siteOrder sites expr) := by
  rw [siteForecast]
  cases h : attached? sites expr with
  | none =>
    rw [siteOrder, h]
    rfl
  | some path => rfl

section
variable {walker : Walker (Recorded σ)} {perform : Perform (Recorded σ)} {settings : Settings}
    {options : ExpansionOptions} (hperform : ∀ task, IsSpliced (Expander.ofGraph walker.graph settings options) task →
    Obeys (growing visitPick) (.atMost (orderOf walker.graph task)) (perform task))
include hperform

theorem obeys_field (init : VertexId) : Obeys (growing visitPick) .none (perform (.eval none init)) := by
  have hfield := hperform (.eval none init) (by simp [IsSpliced])
  rwa [orderOf_field] at hfield

theorem obeys_init {path : CodePath} (h : path.Spliced (Expander.ofGraph walker.graph settings options)) :
    ∀ init ∈ path.staticInits,
    Obeys (growing visitPick) (.atMost init.2.2.walkOrder) (perform (.invoke init.2.2 none [])) :=
  fun init hinit => hperform (.invoke init.2.2 none []) (h.initialized hinit)

variable (placed : Build.WellPlaced walker.graph) (hrecords : walker.visitor.Records)
include placed hrecords

theorem obeys_expressionOrder {sites : Option CodePath} {expr : VertexId}
    (h : IsSpliced (Expander.ofGraph walker.graph settings options) (.eval sites expr)) :
    Obeys (growing visitPick) (.atMost (orderOf walker.graph (.eval sites expr)))
    (walker.evalExpression perform sites expr) := by
  have hsite : ∀ path, attached? sites expr = some path → ∀ this args, Obeys (growing visitPick)
      (.atMost (siteOrder sites expr)) (perform (.invoke path this args)) := by
    intro path hpath this args
    obtain ⟨outer, houter, hinvoked⟩ := Option.bind_eq_some_iff.mp hpath
    rw [siteOrder, hpath]
    exact hperform (.invoke path this args) ((h outer houter).invoked hinvoked)
  have hidle : (siteForecast (fun expr => .atMost (siteOrder sites expr)) sites expr).sure = [] := by
    rw [siteForecast_order]
    rfl
  have hevaluated :
    Obeys (growing visitPick) (walker.evaluation (fun part => .atMost (orderOf walker.graph (.eval sites part)))
      (fun expr => .atMost (siteOrder sites expr)) sites expr) (walker.evalExpression perform sites expr) :=
    obeys_evalExpression (obeys_field hperform) hrecords (fun part _ => hperform (.eval sites part) h) hsite
    (fun _ => hidle) fun _ _ _ => trivial
  refine hevaluated.imp ⟨nil_sublist _, ?_⟩
  rw [evaluation, siteForecast_order]
  show ((walker.parts true expr).flatMap (fun part => orderOf walker.graph (.eval sites part)) ++
    siteOrder sites expr).Sublist ((walker.graph.postOrder expr).flatMap (siteOrder sites))
  have hcovers := (parts_sublist_postOrder placed.forest true expr).flatMap (siteOrder sites)
  rwa [flatMap_append, flatMap_assoc, flatMap_singleton] at hcovers

section
variable {path : CodePath} (h : path.Spliced (Expander.ofGraph walker.graph settings options))
include h

theorem obeys_stepOrder (v : VertexId) :
    Obeys (growing visitPick)
    (.atMost (v :: (path.initOrder (some v) ++ (walker.graph.evaluatedExpressions v).flatMap path.orderAt)))
    (walker.step perform path v) := by
  have hparts : ∀ part ∈ walker.vertexParts v,
    Obeys (growing visitPick) (.atMost (orderOf walker.graph (.eval (some path) part)))
    (perform (.eval (some path) part)) := by
    refine fun part _ => hperform (.eval (some path) part) fun other hother => ?_
    cases hother
    exact h
  refine obeys_step (obeys_field hperform) hrecords (obeys_init hperform h) hparts ⟨nil_sublist _, ?_⟩
    (.inr ⟨nil_sublist _, ?_⟩)
  · show ([v] ++
      (path.initOrder (some v) ++ (walker.vertexParts v).flatMap fun part =>
      orderOf walker.graph (.eval (some path) part))).Sublist _
    have hcovers := (vertexParts_sublist placed.forest v).flatMap path.orderAt
    rw [flatMap_assoc] at hcovers
    exact List.Sublist.append_left (List.Sublist.append_left hcovers _) [v]
  · exact singleton_sublist.mpr mem_cons_self

variable (built : Build.IsBuilt walker.graph)
include built

omit hperform hrecords in
theorem pathForecast_within : (pathForecast (fun init => .atMost init.2.2.walkOrder)
    (fun v => .atMost (v :: (path.initOrder (some v) ++ (walker.graph.evaluatedExpressions v).flatMap path.orderAt)))
    path).Within (.atMost path.walkOrder) := by
  refine ⟨nil_sublist _, ?_⟩
  rw [h.walkOrder_eq built placed]
  exact .refl _

theorem obeys_invokedOrder (this : Option HeapRef) (args : List Value) :
    Obeys (growing visitPick) (.atMost path.walkOrder) (walker.invokePath perform path this args) :=
  Obeys.imp (obeys_invokePath (obeys_field hperform) hrecords (obeys_init hperform h)
    (fun v _ => obeys_stepOrder hperform placed hrecords h v) this args) (pathForecast_within placed h built)

theorem obeys_walkedOrder : Obeys (growing visitPick) (.atMost path.walkOrder) (walker.walkPath perform path) :=
  Obeys.imp (obeys_walkPath (obeys_field hperform) hrecords (obeys_init hperform h)
    fun v _ => obeys_stepOrder hperform placed hrecords h v) (pathForecast_within placed h built)

end

end

/-- A walk keeps to the order of its paths, attached ones included. -/
theorem obeys_order (walker : Walker σ) (built : Build.IsBuilt walker.graph) (placed : Build.WellPlaced walker.graph)
    (settings : Settings) (options : ExpansionOptions) (nesting : Nat) (site : Option VertexId) (task : Task)
    (h : IsSpliced (Expander.ofGraph walker.graph settings options) task) :
    Obeys (growing visitPick) (.atMost (orderOf walker.graph task)) (walker.recorder nesting site task) := by
  induction nesting generalizing site task with
  | zero => cases task <;> exact .fail _
  | succ nesting ih =>
    cases task with
    | eval sites expr =>
      rw [recorder]
      have hexpr : Obeys (growing visitPick) (.atMost (orderOf walker.graph (.eval sites expr)))
          (walker.recorded.evalExpression (walker.recorder nesting (some expr)) sites expr) :=
        obeys_expressionOrder (ih (some expr)) placed walker.records_recorded h
      exact hexpr.finish fun value => obeys_evaluated expr value
    | invoke path this args =>
      rw [recorder]
      have hpath : Obeys (growing visitPick) (.atMost path.walkOrder)
          (walker.recorded.invokePath (walker.recorder nesting none) path this args) :=
        obeys_invokedOrder (ih none) placed walker.records_recorded h built this args
      exact obeys_entered_of_visits (fun _ _ => rfl) hpath

end Walker

/-- Whatever a visitor answers, a walk along an expanded path that ends visits vertices in the order of a walk:
those of the path and of all paths attached to it, at every vertex first the static initializers, then the calls as
they are evaluated. These are the expanded vertices, and they come in the same order where static initializers were
attached before the calls of the same place. To record this does not change the walk. -/
theorem walkWithin_order {config : Settings} {sources : List (String × String)} {graph : CodeGraph}
    (h : Build.IsGraphOf config sources graph) {settings : Settings} {options : ExpansionOptions} {method : VertexId}
    {forward : List CodePath} (hforward : Path.forward graph method = .ok forward) {path : CodePath}
    (hpath : path ∈ forward)
    {state : ExpansionState} (valid : state.Valid graph) {paths : List CodePath}
    (hrun : (((Expander.ofGraph graph settings options).expandPath path).run state).1 = .ok paths) {expanded : CodePath}
    (hexpanded : expanded ∈ paths) {σ : Type} {walker : Walker σ} (hwalker : walker.program = Program.ofGraph graph)
    {nesting : Nat} {statics : StaticScopes} {observed : σ} {outcome : WalkOutcome}
    (hends : (walker.walkWithin nesting expanded statics observed).1 = .ok outcome) :
    let record := walker.recordWithin nesting expanded statics observed
    walker.walkWithin nesting expanded statics observed = (record.1, record.2.observed) ∧
      (Walker.visitPick.events 0 record.2.log).Sublist expanded.walkOrder ∧
      expanded.walkOrder.Perm expanded.expandedVertices ∧
      (expanded.InitsLead → expanded.walkOrder = expanded.expandedVertices) := by
  obtain rfl : walker.graph = graph := by rw [Walker.graph, hwalker]; rfl
  have hspliced := Expander.spliced_of_expandPath h hforward hpath valid hrun expanded hexpanded
  refine ⟨walker.walkWithin_eq_recorded nesting expanded statics observed, ?_, expanded.walkOrder_perm,
    CodePath.InitsLead.walkOrder_eq⟩
  have hobeys : Obeys (growing Walker.visitPick) (.atMost expanded.walkOrder)
      (walker.recorded.walkPath (walker.recorder nesting none) expanded) :=
    Walker.obeys_walkedOrder (walker.obeys_order h.isBuilt h.wellPlaced settings options nesting none) h.wellPlaced
    walker.records_recorded hspliced h.isBuilt
  rw [walker.walkWithin_eq_recorded] at hends
  obtain ⟨returned, left, hresult, hrecord⟩ := walker.exists_run_of_ends hends
  have hgrows := hobeys.run { symbols := { statics }, observed := { observed } }
  rw [hresult] at hgrows
  rw [hrecord]
  exact (Grows.of_empty hgrows).2

/-- A walker without a visitor along a method that calls another one. -/
theorem callingOnce_order : ∃ graph path expanded outcome, Build.IsGraphOf bareSettings [("A", callingOnce)] graph ∧
    Path.forward graph path.method = .ok [path] ∧
    (((Expander.ofGraph graph bareSettings {}).expandPath path).run { registry := { limit := .unlimited } }).1 =
    .ok [expanded] ∧
    expanded.staticInits.length = 1 ∧ expanded.invocations.length = 1 ∧
    let walker : Walker Unit := ⟨Program.ofGraph graph, .silent, 100⟩
    (walker.walkWithin 20 expanded [] ()).1 = .ok outcome ∧
      (Walker.visitPick.events 0 (walker.recordWithin 20 expanded [] ()).2.log).Sublist expanded.walkOrder := by
  obtain ⟨graph, path, expanded, outcome, hgraph, hforward, hrun, hinits, hcalls, hends⟩ := exists_walk
  obtain ⟨-, hvisits, -, -⟩ := walkWithin_order hgraph hforward mem_cons_self (valid_start graph .unlimited) hrun
    mem_cons_self (show (⟨Program.ofGraph graph, .silent, 100⟩ : Walker Unit).program =
    Program.ofGraph graph from rfl) hends
  exact ⟨graph, path, expanded, outcome, hgraph, hforward, hrun, hinits, hcalls, hends, hvisits⟩

end ApexPaths
