import ApexPaths.Proofs.Walk.Order
import ApexPaths.Proofs.Walk.Overlooked

/-!
What is evaluated at a vertex. The evaluation of an expression evaluates its parts, the parts of these and so on.
Where no expression of a vertex leaves out operands by its meaning, each of them is evaluated once or overlooked,
but not both.
-/

set_option autoImplicit false

namespace ApexPaths.Walker

open CodeGraph List

variable {σ : Type}

variable {walker : Walker σ}

section
variable (walker)

/-- What the evaluation of an expression evaluates, operands before operations, down to the given depth. -/
def evaluatedWithin : Nat → VertexId → List VertexId
  | 0, expr => [expr]
  | n + 1, expr => (walker.parts true expr).flatMap (evaluatedWithin n) ++ [expr]

/-- What the evaluation of an expression evaluates, operands before operations. -/
def evaluated (expr : VertexId) : List VertexId := walker.evaluatedWithin walker.graph.vertexCount expr

/-- The expressions that are evaluated at a vertex, in their order. -/
def evaluatedAt (v : VertexId) : List VertexId := (walker.vertexParts v).flatMap walker.evaluated

end

section
variable (forest : walker.graph.IsForest)
include forest

theorem bounds_of_mem_parts {expr part : Nat} (h : part ∈ walker.parts true expr) :
    expr < part ∧ part < walker.graph.vertexCount := by
  have hmem : part ∈ (walker.parts true expr).flatMap walker.graph.postOrder :=
    mem_flatMap.mpr ⟨part, h, self_mem_postOrder forest part⟩
  obtain ⟨c, hc, hpart⟩ := mem_flatMap.mp ((covers_parts forest true expr).mem hmem)
  have hbelow := below_of_mem_postOrder forest (lt_of_mem_children forest hc) hpart
  exact ⟨Nat.lt_of_lt_of_le (forest.lt_of_mem hc) (hbelow.le forest), hbelow.1⟩

theorem evaluated_eq (expr : VertexId) : walker.evaluated expr = (walker.parts true expr).flatMap walker.evaluated ++
    [expr] := by
  have hlast : ∀ v : Nat, walker.graph.vertexCount ≤ v → walker.parts true v = [] := by
    refine fun v hv => eq_nil_iff_forall_not_mem.mpr fun part hpart => ?_
    obtain ⟨hlt, hcount⟩ := bounds_of_mem_parts forest hpart
    omega
  have hwithin : walker.evaluated expr = walker.evaluatedWithin (walker.graph.vertexCount + 1) expr :=
    eq_of_levels (fun _ => rfl) (fun _ _ => rfl) hlast (fun _ _ h => (bounds_of_mem_parts forest h).1) _ _ expr
    (Nat.le_add_left ..) (by omega)
  rw [hwithin]
  rfl

theorem evaluated_sublist (expr : Nat) : (walker.evaluated expr).Sublist (walker.graph.postOrder expr) := by
  induction expr using walker.graph.descend with
  | step expr ih =>
    rw [evaluated_eq forest]
    refine List.Sublist.trans (List.Sublist.append_right (.flatMap_right _ fun part hpart => ?_) _)
      (parts_sublist_postOrder forest true expr)
    obtain ⟨hlt, hcount⟩ := bounds_of_mem_parts forest hpart
    exact ih part hlt hcount

theorem evaluatedAt_sublist (v : VertexId) : (walker.evaluatedAt v).Sublist (walker.graph.evaluatedExpressions v) :=
  (List.Sublist.flatMap_right _ fun part _ => evaluated_sublist forest part).trans (vertexParts_sublist forest v)

omit forest in
theorem same_evaluatedAll {tops : List VertexId}
    (h : ∀ top ∈ tops,
    walker.graph.SameComputed (walker.evaluated top ++ (walker.evaluated top).flatMap walker.overlookedBy)
    (walker.graph.postOrder top)) :
    walker.graph.SameComputed
    (tops.flatMap walker.evaluated ++ (tops.flatMap walker.evaluated).flatMap walker.overlookedBy)
    (tops.flatMap walker.graph.postOrder) := by
  rw [flatMap_assoc]
  exact (SameComputed.of_perm (flatMap_append_perm ..)).trans (.flatMap h)

variable (operands : walker.graph.HasOperands)
include operands

theorem same_evaluated (expr : Nat) (hexpr : (walker.graph.labelOf expr).isExpression = true)
    (hstrict : ∀ x ∈ walker.graph.postOrder expr, walker.isLazy x = false) :
    walker.graph.SameComputed (walker.evaluated expr ++ (walker.evaluated expr).flatMap walker.overlookedBy)
    (walker.graph.postOrder expr) := by
  induction expr using walker.graph.descend with
  | step expr ih =>
    have hsplits := splits_parts operands forest hexpr (hstrict expr (self_mem_postOrder forest expr))
    have hparts : ∀ part ∈ walker.parts true expr,
        walker.graph.SameComputed (walker.evaluated part ++ (walker.evaluated part).flatMap walker.overlookedBy)
        (walker.graph.postOrder part) := by
      intro part hpart
      obtain ⟨hlt, hcount⟩ := bounds_of_mem_parts forest hpart
      refine ih part hlt hcount (hsplits.isExpression part hpart) fun x hx => hstrict x ?_
      exact (parts_sublist_postOrder forest true expr).mem (mem_append_left _ (mem_flatMap.mpr ⟨part, hpart, hx⟩))
    have hall :=
      (((same_evaluatedAll hparts).append (.of_perm (.refl (walker.overlookedBy expr)))).trans hsplits.same).append
      (.of_perm (.refl [expr]))
    rw [evaluated_eq forest, postOrder_eq forest, flatMap_append, flatMap_singleton]
    refine (SameComputed.of_perm ?_).trans hall
    rw [List.append_assoc, List.append_assoc, List.append_assoc]
    exact List.Perm.append_left _ (perm_append_comm.trans (by rw [List.append_assoc]))

theorem same_evaluatedAt {v : VertexId} (hupdate : walker.isUpdate v = false)
    (hstrict : ∀ x ∈ walker.graph.evaluatedExpressions v, walker.isLazy x = false) :
    walker.graph.SameComputed (walker.evaluatedAt v ++ (walker.evaluatedAt v).flatMap walker.overlookedBy)
    (walker.graph.evaluatedExpressions v) := by
  have hsplits := splits_vertexParts operands forest hupdate
  have hsame := hsplits.same
  rw [append_nil] at hsame
  refine (same_evaluatedAll fun part hpart =>
    same_evaluated forest operands part (hsplits.isExpression part hpart) fun x hx => hstrict x ?_).trans hsame
  exact (vertexParts_sublist forest v).mem (mem_flatMap.mpr ⟨part, hpart, hx⟩)

end

section
variable (forest : walker.graph.IsForest)
include forest

variable (operands : walker.graph.HasOperands) {v : VertexId} (hupdate : walker.isUpdate v = false)
  (hstrict : ∀ x ∈ walker.graph.evaluatedExpressions v, walker.isLazy x = false)
include operands hupdate hstrict

theorem mem_overlookedAt_iff {x : VertexId} :
    x ∈ walker.overlookedAt v ↔ x ∈ (walker.evaluatedAt v).flatMap walker.overlookedBy := by
  constructor
  · intro h
    obtain ⟨op, hop, hx⟩ := mem_flatMap.mp h
    have hmem :=
      ((same_evaluatedAt forest operands hupdate hstrict).mem_iff (isComputed_of_mem_overlookedBy hx)).mpr hop
    rcases mem_append.mp hmem with hop | hop
    · exact mem_flatMap.mpr ⟨op, hop, hx⟩
    · obtain ⟨outer, houter, hop⟩ := mem_flatMap.mp hop
      exact mem_flatMap.mpr ⟨outer, houter, overlookedBy_closed forest hop hx⟩
  · intro h
    obtain ⟨op, hop, hx⟩ := mem_flatMap.mp h
    exact mem_flatMap.mpr ⟨op, (evaluatedAt_sublist forest v).mem hop, hx⟩

theorem mem_evaluatedAt_iff {x : VertexId} (hx : x ∈ walker.graph.evaluatedExpressions v)
    (hcomputed : (walker.graph.labelOf x).isComputed = true) : x ∈ walker.evaluatedAt v ↔
    x ∉ walker.overlookedAt v := by
  have hsame := same_evaluatedAt forest operands hupdate hstrict
  rw [mem_overlookedAt_iff forest operands hupdate hstrict]
  constructor
  · intro hevaluated hoverlooked
    have hnodup := (List.Perm.nodup_iff hsame).mpr ((nodup_evaluatedExpressions forest v).filter _)
    rw [filter_append, nodup_append] at hnodup
    exact hnodup.2.2 x (mem_filter.mpr ⟨hevaluated, hcomputed⟩) x (mem_filter.mpr ⟨hoverlooked, hcomputed⟩) rfl
  · intro hnot
    exact (mem_append.mp ((hsame.mem_iff hcomputed).mpr hx)).resolve_right hnot

end

theorem filter_eq_of_sublist {α : Type} {part items : List α} {p q : α → Bool} (hpart : part.Sublist items)
    (hnodup : items.Nodup) (h : ∀ a ∈ items, q a = true → (a ∈ part ↔ p a = true)) : part.filter q =
    (items.filter p).filter q := by
  induction hpart with
  | slnil => rfl
  | @cons part items a hrest ih =>
    obtain ⟨hnew, hitems⟩ := nodup_cons.mp hnodup
    obtain ⟨ha, hothers⟩ := forall_mem_cons.mp h
    rw [ih hitems hothers, filter_filter, filter_filter, filter_cons_of_neg]
    intro hboth
    obtain ⟨hq, hp⟩ := Bool.and_eq_true_iff.mp hboth
    exact hnew (hrest.mem ((ha hq).mpr hp))
  | @cons_cons part items a hrest ih =>
    obtain ⟨hnew, hitems⟩ := nodup_cons.mp hnodup
    obtain ⟨ha, hothers⟩ := forall_mem_cons.mp h
    have hsame := ih hitems fun b hb hq => by
      rw [← hothers b hb hq, mem_cons, or_iff_right]
      rintro rfl
      exact hnew hb
    rw [filter_filter] at hsame ⊢
    by_cases hq : q a = true
    · rw [filter_cons_of_pos hq, filter_cons_of_pos (by simp [hq, (ha hq).mp mem_cons_self]), hsame]
    · rw [filter_cons_of_neg hq, filter_cons_of_neg (by simp [hq]), hsame]

theorem filterMap_evaluatedAt {β : Type} (forest : walker.graph.IsForest) (operands : walker.graph.HasOperands)
    {v : VertexId} (hupdate : walker.isUpdate v = false) (hstrict : ∀ x ∈ walker.graph.evaluatedExpressions v,
    walker.isLazy x = false)
    {told : VertexId → Option β} (htold : ∀ x, (walker.graph.labelOf x).isComputed = false → told x = none) :
    (walker.evaluatedAt v).filterMap told =
      ((walker.graph.evaluatedExpressions v).filter fun x => !(walker.overlookedAt v).contains x).filterMap told := by
  have hcomputed : ∀ items : List VertexId,
      items.filterMap told = (items.filter fun x => (walker.graph.labelOf x).isComputed).filterMap told := by
    intro items
    rw [filterMap_filter]
    refine filterMap_congr fun x _ => ?_
    split
    · rfl
    · rename_i hidle
      exact htold x (Bool.eq_false_iff.mpr hidle)
  have hkept := filter_eq_of_sublist (p := fun x => !(walker.overlookedAt v).contains x) (evaluatedAt_sublist forest v)
    (nodup_evaluatedExpressions forest v) fun x hx hq => by
      rw [mem_evaluatedAt_iff forest operands hupdate hstrict hx hq]
      simp
  rw [hcomputed (walker.evaluatedAt v), hkept, ← hcomputed]

end ApexPaths.Walker

/-!
## Calls

An expression with an attached path walks it when it is evaluated, and nothing else walks it. So a step walks the
paths that are attached to what its vertex evaluates, each once and in the order of evaluation; those that are
attached to what is overlooked are left out.
-/

namespace ApexPaths

open WalkM List

variable {σ β : Type}

/-! ## Expressions with attached paths -/

theorem Build.IsGraphOf.hasOperands {settings : Settings} {sources : List (String × String)} {graph : CodeGraph}
    (h : Build.IsGraphOf settings sources graph) : graph.HasOperands := by
  obtain ⟨units, stats, hparse, hbuild⟩ := h
  exact Build.hasOperands_of_build (Source.well_of_parseAll hparse) hbuild

theorem Program.isComputed_of_runMethod? {program : Program} {expr method : VertexId}
    (h : program.runMethod? expr = some method) : (program.graph.labelOf expr).isComputed = true := by
  rw [Program.runMethod?] at h
  cases hlabel : program.graph.labelOf expr <;> rw [hlabel] at h <;> first | rfl | cases h

theorem CodePath.Spliced.of_attached {graph : CodeGraph} {settings : Settings} {options : ExpansionOptions}
    {path sub : CodePath} (h : path.Spliced (Expander.ofGraph graph settings options))
    (hsub : Relation.ReflTransGen (fun outer sub => sub ∈ outer.attached) path sub) :
    sub.Spliced (Expander.ofGraph graph settings options) := by
  induction hsub with
  | refl => exact h
  | tail _ hmem ih => exact ih.attached _ hmem

namespace Walker

section
variable {walker : Walker σ} (operands : walker.graph.HasOperands) {expr method : VertexId}
include operands

theorem isClassCreation_of_target? (hlabel : walker.graph.labelOf expr = .newObjectExpression)
    (h : walker.program.target? expr = some method) : walker.isClassCreation expr = true := by
  obtain ⟨type, htype, hwritten⟩ := (operands.operandsAt expr).creates hlabel
  have hspelling : walker.createdSpelling expr = type := by rw [createdSpelling, htype, Option.getD_some]
  rw [Program.target?, Program.targetGiven?] at h
  rw [show walker.program.graph.labelOf expr = .newObjectExpression from hlabel] at h
  obtain ⟨created, hcreated, h⟩ := Option.bind_eq_some_iff.mp h
  have hcanonical : created = TypeName.canonical type := by
    rw [CodeGraph.createdType?] at hcreated
    split at hcreated
    · rw [CodeGraph.declaredType?, show walker.program.graph.text? expr (.spelled .type) =
        some type from htype] at hcreated
      exact (Option.some.inj hcreated).symm
    · cases hcreated
  rw [hcanonical] at h
  split at h
  · cases h
  rename_i hcollection
  obtain ⟨declared, hdeclared, -⟩ := Option.bind_eq_some_iff.mp h
  have harray : isArray type = false := by
    refine Bool.eq_false_iff.mpr fun harray => hcollection ?_
    exact TypeName.isCollection_of_array hwritten (beq_iff_eq.mp harray)
  have hfound : walker.program.lookup? (walker.graph.enclosingType? expr) (TypeName.canonical type) = some declared :=
    hdeclared
  rw [isClassCreation, hspelling]
  simp [harray, hcollection, hfound]

theorem invokes_of_runMethod? (h : walker.program.runMethod? expr = some method) : walker.invokes expr = true := by
  rw [Program.runMethod?] at h
  rw [invokes]
  cases hlabel : walker.graph.labelOf expr <;> rw [show walker.program.graph.labelOf expr = _ from hlabel] at h
  case newObjectExpression => exact isClassCreation_of_target? operands hlabel h
  case assignmentExpression =>
    obtain ⟨target, source, -, hoperands⟩ := exists_operands operands hlabel fun _ => rfl
    simp [hoperands]
  all_goals first | rfl | cases h

end

/-! ## What is walked -/

/-- The attached paths count that begin at call sites. -/
def sitePick : Pick (VertexId × CodePath) where
  walk site path := site.map (·, path)

/-- The calls that are attached to some expressions of a path, each with its expression. -/
def callsOf (path : CodePath) (exprs : List VertexId) : List (VertexId × CodePath) :=
  exprs.filterMap fun expr => (path.invokedPath? expr).map (expr, ·)

theorem callsOf_append (path : CodePath) (exprs exprs' : List VertexId) :
    callsOf path (exprs ++ exprs') = callsOf path exprs ++ callsOf path exprs' :=
  filterMap_append

theorem callsOf_flatMap (path : CodePath) (exprs : List VertexId) (f : VertexId → List VertexId) :
    callsOf path (exprs.flatMap f) = exprs.flatMap fun expr => callsOf path (f expr) := filterMap_flatMap ..

theorem parts_eq_of_strict {walker : Walker σ} {expr : VertexId} (h : walker.isLazy expr = false) :
    walker.parts false expr = walker.parts true expr := by
  rw [isLazy] at h
  rw [parts, parts]
  cases hlabel : walker.graph.labelOf expr <;> rw [hlabel] at h <;> try rfl
  · rw [show walker.isShortCircuit expr = false from h]
    rfl
  · cases h

theorem obeys_unattached (walker : Walker σ) (pick : Pick β) (nesting : Nat) (site : Option VertexId)
    (init : VertexId) : Obeys (growing pick) .none (walker.recorder nesting site (.eval none init)) := by
  induction nesting generalizing site init with
  | zero => exact .fail _
  | succ nesting ih =>
    rw [recorder]
    have hidle : (siteForecast (fun _ => (.none : Forecast β)) none init).sure = [] := rfl
    have hmain :=
      obeys_evalExpression (fun field => ih (some init) field) walker.records_recorded
      (fun part _ => ih (some init) part) (fun path hpath => absurd hpath (by simp [attached?])) (fun _ => hidle)
      (fun _ _ _ => trivial)
    rw [evaluation_none walker.recorded none init] at hmain
    exact hmain.after fun value => obeys_evaluated init value

section
variable (walker : Walker σ) (built : Build.IsBuilt walker.graph) (placed : Build.WellPlaced walker.graph)
    {settings : Settings} {options : ExpansionOptions} {path : CodePath}
    (h : path.Spliced (Expander.ofGraph walker.graph settings options))
include built placed h

theorem obeys_attached (nesting : Nat) (site : Option VertexId) (this : Option HeapRef) (args : List Value) :
    Obeys (growing sitePick) (.exactly (sitePick.walk site path).toList)
    (walker.recorder nesting site (.invoke path this args)) := by
  cases nesting with
  | zero => exact .fail _
  | succ nesting =>
    rw [recorder]
    have hpath : Obeys (growing visitPick) (.atMost path.walkOrder)
        (walker.recorded.invokePath (walker.recorder nesting none) path this args) :=
      obeys_invokedOrder (walker.obeys_order built placed settings options nesting none) placed
      walker.records_recorded h built this args
    exact obeys_entered (fun _ => rfl) hpath

variable (hprogram : walker.program = Program.ofGraph walker.graph) (operands : walker.graph.HasOperands)
include hprogram operands

/-- By induction on the nesting: one walk for each evaluated call. -/
theorem obeys_calls (nesting : Nat) (site : Option VertexId) (expr : VertexId)
    (hstrict : ∀ x ∈ walker.graph.postOrder expr, walker.isLazy x = false) :
    Obeys (growing sitePick) (.exactly (callsOf path (walker.evaluated expr)))
    (walker.recorder nesting site (.eval (some path) expr)) := by
  induction nesting generalizing site expr with
  | zero => exact .fail _
  | succ nesting ih =>
    have forest := placed.forest
    have hparts : ∀ part ∈ walker.recorded.parts true expr,
      Obeys (growing sitePick) (.exactly (callsOf path (walker.evaluated part)))
      (walker.recorder nesting (some expr) (.eval (some path) part)) := by
      have hlie : ((walker.parts true expr).flatMap walker.graph.postOrder ++ [expr]).Sublist
          (walker.graph.postOrder expr) :=
        parts_sublist_postOrder forest true expr
      refine fun part hpart => ih (some expr) part fun x hx => hstrict x ?_
      exact hlie.mem (mem_append_left _ (mem_flatMap.mpr ⟨part, hpart, hx⟩))
    have hsite : ∀ sub, attached? (some path) expr = some sub → ∀ this args,
      Obeys (growing sitePick) (.exactly (callsOf path [expr]))
      (walker.recorder nesting (some expr) (.invoke sub this args)) := by
      intro sub hsub this args
      have hinvoked : path.invokedPath? expr = some sub := hsub
      have hone : callsOf path [expr] = (sitePick.walk (some expr) sub).toList := by
        rw [callsOf, filterMap_cons, hinvoked]
        rfl
      rw [hone]
      exact obeys_attached walker built placed (h.invoked hinvoked) nesting (some expr) this args
    have hidle : walker.recorded.invokes expr = false →
        (siteForecast (fun expr => .exactly (callsOf path [expr])) (some path) expr).sure = [] := by
      intro hnot
      rw [siteForecast]
      cases hsub : attached? (some path) expr with
      | none => rfl
      | some sub =>
        have hruns := h.runMethod?_eq built placed hsub
        rw [← hprogram] at hruns
        exact absurd (hnot.symm.trans (invokes_of_runMethod? operands hruns)) Bool.false_ne_true
    rw [recorder]
    have hmain :=
      obeys_evalExpression (fun init => obeys_unattached walker sitePick nesting (some expr) init)
      walker.records_recorded hparts hsite hidle (fun _ _ _ => trivial)
    have hforecast : walker.recorded.evaluation (fun part => .exactly (callsOf path (walker.evaluated part)))
        (fun expr => .exactly (callsOf path [expr])) (some path) expr =
        .exactly (callsOf path (walker.evaluated expr)) := by
      have hone : siteForecast (fun expr => .exactly (callsOf path [expr])) (some path) expr =
          .exactly (callsOf path [expr]) := by
        rw [siteForecast]
        cases hsub : attached? (some path) expr with
        | some sub => rfl
        | none =>
          have hnone : path.invokedPath? expr = none := hsub
          rw [callsOf, filterMap_cons, hnone]
          rfl
      rw [evaluation, hone, evaluated_eq forest, callsOf_append, callsOf_flatMap, Forecast.exactly_append,
        ← Forecast.ofAll_exactly]
      have hstrictParts := parts_eq_of_strict (hstrict expr (CodeGraph.self_mem_postOrder forest expr))
      have hsure : walker.recorded.parts false expr = walker.parts true expr := hstrictParts
      rw [hsure]
      rfl
    rw [hforecast] at hmain
    exact hmain.finish fun value => obeys_evaluated expr value

theorem obeys_stepCalls (hconsents : Consents walker.visitor) (nesting : Nat) {v : VertexId}
    (hstrict : ∀ x ∈ walker.graph.evaluatedExpressions v, walker.isLazy x = false) :
    Obeys (growing sitePick) (.exactly (callsOf path (walker.evaluatedAt v)))
    (walker.recorded.step (walker.recorder nesting none) path v) := by
  have hinits : ∀ init ∈ path.staticInits,
      Obeys (growing sitePick) .none (walker.recorder nesting none (.invoke init.2.2 none [])) :=
    fun init hinit => obeys_attached walker built placed (h.initialized hinit) nesting none none []
  have hparts : ∀ part ∈ walker.recorded.vertexParts v,
    Obeys (growing sitePick) (.exactly (callsOf path (walker.evaluated part)))
    (walker.recorder nesting none (.eval (some path) part)) := by
    have hlie : ((walker.vertexParts v).flatMap walker.graph.postOrder).Sublist (walker.graph.evaluatedExpressions v) :=
      vertexParts_sublist placed.forest v
    refine fun part hpart => obeys_calls walker built placed h hprogram operands nesting none part fun x hx =>
      hstrict x ?_
    exact hlie.mem (mem_flatMap.mpr ⟨part, hpart, hx⟩)
  have hpassage :
    passage (growing sitePick) walker.recorded (fun part => .exactly (callsOf path (walker.evaluated part)))
    (fun _ => .none) path v = .exactly (callsOf path (walker.evaluatedAt v)) := by
    rw [passage, Forecast.ofAll_none, Forecast.ofAll_exactly, evaluatedAt, callsOf_flatMap]
    rfl
  have hconsents' : Consents walker.recorded.visitor := fun v symbols recorded => hconsents v symbols recorded.observed
  exact obeys_step (obeys_unattached walker sitePick nesting none) walker.records_recorded hinits hparts
    (hpassage ▸ .refl _) (.inl hconsents')

end

end Walker

/-- Where a step of a visitor that consents to every vertex ends, along an expanded path or any path that is
attached to it at any depth, it has walked the calls that are attached to the expressions of its vertex, each once
and in the order of evaluation, but not those that are attached to what is overlooked. The vertex is not the update
of a `for` loop, and none of its expressions is `&&`, `||` or a choice. To record this does not change the step. -/
theorem step_calls {config : Settings} {sources : List (String × String)} {graph : CodeGraph}
    (h : Build.IsGraphOf config sources graph) {settings : Settings} {options : ExpansionOptions} {method : VertexId}
    {forward : List CodePath} (hforward : Path.forward graph method = .ok forward) {path : CodePath}
    (hpath : path ∈ forward)
    {state : ExpansionState} (valid : state.Valid graph) {paths : List CodePath}
    (hrun : (((Expander.ofGraph graph settings options).expandPath path).run state).1 = .ok paths) {expanded : CodePath}
    (hexpanded : expanded ∈ paths) {σ : Type} {walker : Walker σ} (hwalker : walker.program = Program.ofGraph graph)
    (hconsents : Walker.Consents walker.visitor) {walked : CodePath}
    (hwalked : Relation.ReflTransGen (fun outer sub => sub ∈ outer.attached) expanded walked) {v : VertexId}
    (hupdate : walker.isUpdate v = false) (hstrict : ∀ expr ∈ graph.evaluatedExpressions v, walker.isLazy expr = false)
    {nesting : Nat} {start left : WalkState σ} (hrunning : start.symbols.frames ≠ [])
    (hends : (walker.step (walker.performWithin nesting) walked v).run start = (.ok (), left)) :
    (graph.evaluatedExpressions v).Nodup ∧ ∃ record, (walker.recorded.step (walker.recorder nesting none) walked v).run
        (start.watched { observed := start.observed }) = (.ok (), left.watched record) ∧
        record.observed = left.observed ∧
      Walker.sitePick.events 0 record.log =
      ((graph.evaluatedExpressions v).filter fun expr => !(walker.overlookedAt v).contains expr).filterMap fun expr =>
      (walked.invokedPath? expr).map (expr, ·) := by
  obtain rfl : walker.graph = graph := by rw [Walker.graph, hwalker]; rfl
  have hspliced := (Expander.spliced_of_expandPath h hforward hpath valid hrun expanded hexpanded).of_attached hwalked
  obtain ⟨frame, frames, hframes⟩ := exists_cons_of_ne_nil hrunning
  have houtlines : start.outlines = frame.outline :: frames.map Frame.outline := by
    rw [WalkState.outlines, hframes, map_cons]
  obtain ⟨record, hrecorded, hagrees⟩ :=
    (Walker.agrees_step_recorded (walker.performs_recorder nesting none) walked v frame.outline
    (frames.map Frame.outline)).run start { observed := start.observed } houtlines rfl
  rw [hends] at hrecorded hagrees
  refine ⟨CodeGraph.nodup_evaluatedExpressions h.wellPlaced.forest v, record, hrecorded, hagrees.2, ?_⟩
  have hobeys :=
    (Walker.obeys_stepCalls walker h.isBuilt h.wellPlaced hspliced hwalker h.hasOperands hconsents nesting
    hstrict).run (start.watched { observed := start.observed })
  rw [hrecorded] at hobeys
  obtain ⟨hsure, hpossible⟩ := Grows.of_empty hobeys
  refine (hpossible.antisymm hsure).trans
    (Walker.filterMap_evaluatedAt h.wellPlaced.forest h.hasOperands hupdate hstrict fun x hx => ?_)
  cases hsub : walked.invokedPath? x with
  | none => rfl
  | some sub =>
    have hruns := hspliced.runMethod?_eq h.isBuilt h.wellPlaced hsub
    rw [← hwalker] at hruns
    have hcomputed : (walker.graph.labelOf x).isComputed = true := Program.isComputed_of_runMethod? hruns
    exact absurd (hx.symm.trans hcomputed) Bool.false_ne_true

/-! ## A step that walks a call -/

/-- At a vertex of the path a call is walked, and the step there ends. -/
def callsAtStep (graph : CodeGraph) (path : CodePath) : Bool :=
  let walker : Walker Unit := ⟨Program.ofGraph graph, .silent, 100⟩
  path.ids.any fun v => !walker.isUpdate v && (graph.evaluatedExpressions v).all (!walker.isLazy ·) &&
    ((graph.evaluatedExpressions v).any fun expr => (path.invokedPath? expr).isSome &&
    !(walker.overlookedAt v).contains expr) &&
    ((walker.step (walker.performWithin 20) path v).run { symbols := { frames := [{}] }, observed := () }).1.isOk

theorem callsAtStep_callingOnce :
    (Build.treeOfChars callingOnce.toList).toOption.any (anyMethod (expandsOnce callsAtStep)) = true :=
  Build.any_of_toList_eq String.toList_ofList (by decide +kernel)

/-- A walker without a visitor at a vertex of a method that calls another one. -/
theorem callingOnce_calls : ∃ graph path expanded v expr sub, Build.IsGraphOf bareSettings [("A", callingOnce)] graph ∧
    Path.forward graph path.method = .ok [path] ∧
    (((Expander.ofGraph graph bareSettings {}).expandPath path).run { registry := { limit := .unlimited } }).1 =
    .ok [expanded] ∧
    v ∈ expanded.ids ∧ expr ∈ graph.evaluatedExpressions v ∧ expanded.invokedPath? expr = some sub ∧
    let walker : Walker Unit := ⟨Program.ofGraph graph, .silent, 100⟩
    let start : WalkState Unit := { symbols := { frames := [{}] }, observed := () }
    ∃ left record, (walker.step (walker.performWithin 20) expanded v).run start = (.ok (), left) ∧
      (walker.recorded.step (walker.recorder 20 none) expanded v).run (start.watched { observed := start.observed }) =
      (.ok (), left.watched record) ∧
      (expr, sub) ∈ Walker.sitePick.events 0 record.log := by
  obtain ⟨graph, path, expanded, hgraph, hforward, hrun, htest⟩ := exists_expanded callsAtStep_callingOnce
  obtain ⟨v, hv, htest⟩ := any_eq_true.mp htest
  simp only [Bool.and_eq_true, Bool.not_eq_true', all_eq_true, any_eq_true] at htest
  obtain ⟨⟨⟨hupdate, hstrict⟩, expr, hexpr, hattached, hkept⟩, hstep⟩ := htest
  obtain ⟨sub, hsub⟩ := Option.isSome_iff_exists.mp hattached
  obtain ⟨_, hok⟩ := exists_of_isOk hstep
  obtain ⟨-, record, hrecorded, -, hevents⟩ :=
    step_calls hgraph hforward mem_cons_self (valid_start graph .unlimited) hrun mem_cons_self
    (show (⟨Program.ofGraph graph, .silent, 100⟩ : Walker Unit).program = Program.ofGraph graph from rfl)
    (fun _ _ _ => rfl) .refl hupdate hstrict (cons_ne_nil _ _) (Prod.ext hok rfl)
  refine ⟨graph, path, expanded, v, expr, sub, hgraph, hforward, hrun, hv, hexpr, hsub, _, record, Prod.ext hok rfl,
    hrecorded, ?_⟩
  rw [hevents]
  exact mem_filterMap.mpr ⟨expr, mem_filter.mpr ⟨hexpr, by simpa using hkept⟩, by rw [hsub]; rfl⟩

end ApexPaths
