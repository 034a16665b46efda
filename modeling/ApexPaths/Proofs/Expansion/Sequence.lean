import ApexPaths.Proofs.Path.Reverse
import ApexPaths.Proofs.Walk.Sites

/-!
The sequence of an expanded path. It holds the vertices of the path and, for every path that is attached, the
sequence of that path as one piece: behind the vertex at which it was attached, or at the very beginning. For this
no expression may be evaluated at two vertices of a path, or one of the calls there would be lost.
-/

namespace ApexPaths
set_option autoImplicit false

open List

/-!
## Expressions of a path

No expression is evaluated at two vertices that control passes: of two such vertices, one below the other, the
upper one evaluates nothing that the lower one belongs to.
-/

theorem NodeKind.isValue_of_isExpression {kind : NodeKind} (h : kind.isExpression = true) : kind.isValue = true := by
  simp [isValue, h]

theorem NodeKind.isValue_of_mayEvaluate {kind child : NodeKind} (h : kind.mayEvaluate child = true)
    (hkind : kind.isValue = true) : child.isValue = true := by
  by_cases hmap : kind = .newMapLiteralExpression
  · subst hmap
    rw [beq_iff_eq.mp h]
    rfl
  · have hevaluates : kind.evaluates = true := by cases kind <;> first | rfl | exact absurd hkind (by decide)
    exact isValue_of_isExpression (isExpression_of_mayEvaluate h hevaluates hmap)

namespace CodeGraph

variable {graph : CodeGraph}

section
variable (forest : graph.IsForest)
include forest

theorem exists_parent_of_mem_postOrder {top x : Nat} (h : x ∈ graph.postOrder top) :
    x = top ∨ ∃ p ∈ graph.postOrder top, x ∈ graph.children p := by
  induction top using graph.descend with
  | step top ih =>
    rcases (mem_postOrder forest).mp h with rfl | ⟨c, hc, hx⟩
    · exact .inl rfl
    · have hinside : ∀ {y}, y ∈ graph.postOrder c → y ∈ graph.postOrder top :=
        fun hy => (mem_postOrder forest).mpr (.inr ⟨c, hc, hy⟩)
      rcases ih c (forest.lt_of_mem hc) (lt_of_mem_children forest hc) hx with rfl | ⟨p, hp, hxp⟩
      · exact .inr ⟨top, self_mem_postOrder forest top, hc⟩
      · exact .inr ⟨p, hinside hp, hxp⟩

theorem parent_unique {p q c : VertexId} (hp : c ∈ graph.children p) (hq : c ∈ graph.children q) : p = q :=
  Option.some.inj ((forest.parent_of_mem hp).symm.trans (forest.parent_of_mem hq))

theorem mem_postOrder_or {a b x : Nat} (ha : x ∈ graph.postOrder a) (hb : x ∈ graph.postOrder b) :
    a ∈ graph.postOrder b ∨ b ∈ graph.postOrder a := by
  induction x using Nat.strongRecOn with
  | _ x ih =>
  rcases exists_parent_of_mem_postOrder forest ha with rfl | ⟨p, hp, hxp⟩
  · exact .inl hb
  rcases exists_parent_of_mem_postOrder forest hb with rfl | ⟨q, hq, hxq⟩
  · exact .inr ha
  obtain rfl := parent_unique forest hxp hxq
  exact ih p (forest.lt_of_mem hxp) hp hq

variable (operands : graph.HasOperands)
include operands

theorem isValue_of_mem_postOrder {root x : Nat} (hroot : (graph.labelOf root).isValue = true)
    (h : x ∈ graph.postOrder root) : (graph.labelOf x).isValue = true := by
  induction root using graph.descend with
  | step root ih =>
    rcases (mem_postOrder forest).mp h with rfl | ⟨c, hc, hx⟩
    · exact hroot
    · have hvalue := NodeKind.isValue_of_mayEvaluate ((operands.operandsAt root).parts c hc) hroot
      exact ih c (forest.lt_of_mem hc) (lt_of_mem_children forest hc) hvalue hx

omit forest in
/-- What a vertex evaluates is the vertex or stands directly below it. -/
theorem evaluatedRoots_cases {v root : VertexId} (h : root ∈ graph.evaluatedRoots v) :
    (graph.labelOf root).isValue = true ∧ (root = v ∨ root ∈ graph.children v) := by
  have hchild : (graph.labelOf v).evaluates = true → graph.labelOf v ≠ .newMapLiteralExpression →
    root ∈ graph.children v → (graph.labelOf root).isValue = true ∧ (root = v ∨ root ∈ graph.children v) :=
    fun hevaluates hmap hroot =>
    have hexpression := NodeKind.isExpression_of_mayEvaluate ((operands.operandsAt v).parts root hroot) hevaluates hmap
    ⟨NodeKind.isValue_of_isExpression hexpression, .inr hroot⟩
  rw [evaluatedRoots] at h
  split at h
  case h_2 hlabel =>
    rw [(operands.operandsAt v).declares hlabel root h]
    exact ⟨rfl, .inr h⟩
  case h_6 hlabel =>
    have hroot := Option.mem_toList.mp h
    exact ⟨NodeKind.isValue_of_isExpression ((operands.operandsAt v).iterable hlabel root hroot),
      .inr (mem_children_of_childAt? hroot)⟩
  case h_7 =>
    split at h
    · rename_i hdml
      refine hchild ?_ (fun hlabel => absurd (hlabel ▸ hdml) (by decide)) h
      cases hlabel : graph.labelOf v <;> first | rfl | exact absurd (hlabel ▸ hdml) (by decide)
    · split at h
      · rename_i hexpression
        obtain rfl := mem_singleton.mp h
        exact ⟨NodeKind.isValue_of_isExpression hexpression, .inl rfl⟩
      · cases h
  all_goals
    rename_i hlabel
    exact hchild (by rw [hlabel]; rfl) (by rw [hlabel]; decide) h

theorem Passable.eq_of_mem_postOrder {v w root : Nat} (hw : graph.Passable w) (hroot : root ∈ graph.evaluatedRoots v)
    (h : w ∈ graph.postOrder root) : w = v := by
  obtain ⟨hvalue, hplace⟩ := evaluatedRoots_cases operands hroot
  obtain ⟨label, hlabel, hcase⟩ := hw
  rcases hcase with hidle | ⟨-, switch, hswitch, hchild⟩
  · have hinside := isValue_of_mem_postOrder forest operands hvalue h
    rw [labelOf_eq hlabel, hidle] at hinside
    cases hinside
  have hkind := labelOf_eq hswitch
  rcases exists_parent_of_mem_postOrder forest h with rfl | ⟨p, hp, hwp⟩
  · refine hplace.resolve_right fun hroot' => ?_
    obtain rfl := parent_unique forest hchild hroot'
    rw [evaluatedRoots, hkind] at hroot
    cases hroot
  · obtain rfl := parent_unique forest hchild hwp
    have hinside := isValue_of_mem_postOrder forest operands hvalue hp
    rw [hkind] at hinside
    cases hinside

theorem Passable.eq_of_roots {v w first second : Nat} (hv : graph.Passable v) (hw : graph.Passable w)
    (hfirst : first ∈ graph.evaluatedRoots v) (hsecond : second ∈ graph.evaluatedRoots w)
    (h : second ∈ graph.postOrder first) : w = v := by
  rcases (evaluatedRoots_cases operands hsecond).2 with rfl | hchild
  · exact hw.eq_of_mem_postOrder forest operands hfirst h
  rcases exists_parent_of_mem_postOrder forest h with rfl | ⟨p, hp, hinside⟩
  · rcases (evaluatedRoots_cases operands hfirst).2 with rfl | hchild'
    · exact (hv.eq_of_mem_postOrder forest operands hsecond (self_mem_postOrder forest _)).symm
    · exact parent_unique forest hchild hchild'
  · obtain rfl := parent_unique forest hchild hinside
    exact hw.eq_of_mem_postOrder forest operands hfirst hp

theorem Passable.eq_of_evaluates {v w x : Nat} (hv : graph.Passable v) (hw : graph.Passable w)
    (hxv : x ∈ graph.evaluatedExpressions v) (hxw : x ∈ graph.evaluatedExpressions w) : v = w := by
  obtain ⟨first, hfirst, hx⟩ := mem_flatMap.mp hxv
  obtain ⟨second, hsecond, hx'⟩ := mem_flatMap.mp hxw
  rcases mem_postOrder_or forest hx hx' with h | h
  · exact hw.eq_of_roots forest operands hv hsecond hfirst h
  · exact (hv.eq_of_roots forest operands hw hfirst hsecond h).symm

end

end CodeGraph

/-!
## Pieces

The sequence of any path, told by the paths that are spliced into it.
-/

namespace CodePath

variable (path : CodePath)

/-- The path that was attached, with the vertex at which it was attached, or none if it runs before the path. -/
def splice? : Attachment → Option (Option VertexId × CodePath)
  | .invocation anchor site => (path.invokedPath? site).map (some anchor, ·)
  | .staticInit index => path.staticInits[index]?.map (·.2)

/-- The attached paths in the order of attachment, each with the vertex at which it was attached. -/
def splices : List (Option VertexId × CodePath) := path.attachments.filterMap path.splice?

/-- The sequences of the paths that are attached at a vertex, or before the first one, in the order of attachment. -/
def piecesAt (anchor : Option VertexId) : List VertexId :=
  (path.splices.filter (·.1 == anchor)).flatMap (·.2.expandedVertices)

theorem flatMap_laid (anchor : Option VertexId) :
    path.attachments.flatMap (path.laid expandedVertices anchor) = path.piecesAt anchor := by
  rw [piecesAt, splices]
  induction path.attachments with
  | nil => rfl
  | cons attachment rest ih =>
    rw [flatMap_cons, ih, filterMap_cons]
    cases attachment with
    | invocation at_ site =>
      rw [laid, splice?]
      cases path.invokedPath? site with
      | none => simp
      | some sub => by_cases h : some at_ = anchor <;> simp [h]
    | staticInit index =>
      rw [laid, splice?]
      cases path.staticInits[index]? with
      | none => rfl
      | some init => by_cases h : init.2.1 = anchor <;> simp [h]

theorem expandedVertices_eq_pieces : path.expandedVertices = path.piecesAt none ++ path.ids.flatMap fun v =>
    v :: path.piecesAt (some v) := by
  simp only [expandedVertices_eq, flatMap_laid, ids, flatMap_map]

variable {path : CodePath}

theorem expandedVertices_perm (hnodup : path.ids.Nodup)
    (hanchors : ∀ splice ∈ path.splices, ∀ v ∈ splice.1, v ∈ path.ids) :
    path.expandedVertices.Perm (path.ids ++ path.splices.flatMap (·.2.expandedVertices)) := by
  have hplaces : (none :: path.ids.map some).Nodup := nodup_cons.mpr ⟨by simp, hnodup.map (Option.some_injective _)⟩
  have hkeys : ∀ splice ∈ path.splices, splice.1 ∈ none :: path.ids.map some := fun splice hsplice => by
    cases hanchor : splice.1 with
    | none => exact mem_cons_self
    | some v => exact mem_cons_of_mem _ (mem_map_of_mem (hanchors splice hsplice v hanchor))
  have hsorted := perm_flatMap_filter Prod.fst _ hplaces hkeys
  have hpieces := hsorted.flatMap_right (·.2.expandedVertices)
  rw [flatMap_cons, flatMap_append, flatMap_map, flatMap_assoc] at hpieces
  have hids : (path.ids.flatMap fun v => v :: path.piecesAt (some v)).Perm (path.ids ++ path.ids.flatMap fun v =>
      path.piecesAt (some v)) := by
    have h := (flatMap_append_perm path.ids (fun v => [v]) fun v => path.piecesAt (some v)).symm
    rwa [flatMap_singleton'] at h
  rw [expandedVertices_eq_pieces]
  refine (hids.append_left _).trans ?_
  rw [← List.append_assoc]
  refine (perm_append_comm.append_right _).trans ?_
  rw [List.append_assoc]
  exact hpieces.append_left _

end CodePath

/-!
## Attached once

An expansion attaches at most one path at an expression, so every attached path stands in the record of
attachments, and none of them took the place of another one.
-/

namespace CodePath

theorem pairwise_insertByKey {α : Type} {key : Nat} {value : α} {entries : List (Nat × α)}
    (h : (entries.map Prod.fst).Pairwise (· < ·)) : ((insertByKey key value entries).map Prod.fst).Pairwise
    (· < ·) := by
  induction entries with
  | nil => exact pairwise_singleton ..
  | cons entry rest ih =>
    obtain ⟨k, v⟩ := entry
    obtain ⟨hbelow, hrest⟩ := pairwise_cons.mp h
    rw [insertByKey]
    split
    · rename_i hlt
      exact pairwise_cons.mpr ⟨forall_mem_cons.mpr ⟨hlt, fun other hother => Nat.lt_trans hlt (hbelow other hother)⟩, h⟩
    split
    · rename_i hkey
      exact pairwise_cons.mpr ⟨hkey ▸ hbelow, hrest⟩
    · refine pairwise_cons.mpr ⟨fun other hother => ?_, ih hrest⟩
      rcases mem_keys_insertByKey.mp hother with rfl | hother
      · show k < other
        omega
      · exact hbelow other hother

variable {path : CodePath}

theorem invokedPath?_of_mem (hkeys : (path.invocations.map Prod.fst).Nodup) {entry : VertexId × CodePath}
    (h : entry ∈ path.invocations) : path.invokedPath? entry.1 = some entry.2 := by
  obtain ⟨sub, hsub⟩ := Option.isSome_iff_exists.mp (isSome_invokedPath?.mpr (mem_map_of_mem h))
  rw [hsub, ← inj_on_of_nodup_map hkeys (mem_invocations_of_invokedPath? hsub) h rfl]

theorem map_splices_perm (path : CodePath) : (path.splices.map Prod.snd).Perm
    ((path.calls.map Prod.snd).filterMap path.invokedPath? ++ path.initNumbers.filterMap fun index =>
    path.staticInits[index]?.map (·.2.2)) := by
  rw [splices, calls, initNumbers]
  induction path.attachments with
  | nil => exact .refl _
  | cons attachment rest ih =>
    cases attachment with
    | invocation anchor site =>
      simp only [filterMap_cons, splice?, map_cons]
      cases path.invokedPath? site with
      | none => exact ih
      | some sub => exact ih.cons sub
    | staticInit index =>
      simp only [filterMap_cons, splice?]
      cases path.staticInits[index]? with
      | none => exact ih
      | some init => exact (ih.cons init.2.2).trans perm_middle.symm

theorem splices_perm_attached (hkeys : (path.invocations.map Prod.fst).Nodup) (hcalls : (path.calls.map Prod.snd).Nodup)
    (hmem : ∀ site, site ∈ path.invocations.map Prod.fst ↔ site ∈ path.calls.map Prod.snd)
    (hnumbers : path.initNumbers = List.range path.staticInits.length) :
    (path.splices.map Prod.snd).Perm path.attached := by
  have hinvoked : (path.invocations.map Prod.fst).filterMap path.invokedPath? = path.invocations.map Prod.snd := by
    rw [filterMap_map, ← filterMap_eq_map]
    exact filterMap_congr fun entry hentry => invokedPath?_of_mem hkeys hentry
  have hinits : ((List.range path.staticInits.length).filterMap fun index => path.staticInits[index]?.map (·.2.2)) =
      path.staticInits.map (·.2.2) := by
    rw [filterMap_eq_flatMap_toList, map_eq_flatMap, ← flatMap_range _ path.staticInits]
    exact flatMap_congr fun index _ => by cases path.staticInits[index]? <;> rfl
  have hsame := ((perm_ext_iff_of_nodup hcalls hkeys).mpr fun site => (hmem site).symm).filterMap path.invokedPath?
  refine (map_splices_perm path).trans ?_
  rw [attached, ← hinvoked, ← hinits, ← hnumbers]
  exact hsame.append_right _

end CodePath

namespace Expander

variable {expander : Expander}

theorem invariant_keys :
    expander.Invariant fun _ _ strand => (strand.path.invocations.map Prod.fst).Pairwise (· < ·) where
  start active method path initialized hpath := by
    obtain ⟨vertices, rfl⟩ := eq_of_mem_forwardPaths hpath
    exact .nil
  metadata _ _ _ _ h := h
  entering active first strand site _ h := by
    cases site <;> exact h
  splice active first strand anchor site path sub _ _ _ h _ := by
    cases site with
    | call expr callee => exact CodePath.pairwise_insertByKey h
    | staticInit expression class_ invoker => exact h

theorem Attaches.mem_of_splice {active : List VertexId} {first strand : Strand}
    (h : expander.Attaches active first (expander.stepsOf first) strand) {splice : Option VertexId × CodePath}
    (hsplice : splice ∈ strand.path.splices) {v : VertexId} (hv : v ∈ splice.1) : v ∈ first.path.ids := by
  obtain ⟨attachment, hattachment, hfound⟩ := mem_filterMap.mp hsplice
  cases attachment with
  | invocation anchor site =>
    obtain ⟨sub, -, rfl⟩ := Option.map_eq_some_iff.mp hfound
    obtain rfl := Option.some.inj hv
    have hcall : (anchor, site) ∈ strand.path.calls := mem_filterMap.mpr ⟨_, hattachment, rfl⟩
    rw [h.calls] at hcall
    obtain ⟨step, hstep, hcall⟩ := mem_filterMap.mp hcall
    cases step with
    | settle vertex => cases hcall
    | site at_ site =>
      cases site with
      | staticInit => cases hcall
      | call expr callee =>
        rw [callOf] at hcall
        split at hcall
        · cases hcall
          exact (mem_steps hstep).1
        · cases hcall
  | staticInit index =>
    obtain ⟨init, hinit, rfl⟩ := Option.map_eq_some_iff.mp hfound
    obtain ⟨site, hsite⟩ := h.anchors init (mem_of_getElem? hinit) v hv
    exact (mem_steps hsite).1

/-- Along a path that control may take no expression is called at twice. -/
theorem nodup_callOf_stepsOf {graph : CodeGraph} (placed : Build.WellPlaced graph) (operands : graph.HasOperands)
    {settings : Settings} {options : ExpansionOptions} {active : List VertexId} {first : Strand}
    (hids : first.path.ids.Nodup) (hpasses : ∀ v ∈ first.path.ids, v < graph.vertexCount ∧ graph.Passable v) :
    ((((ofGraph graph settings options).stepsOf first).filterMap
      ((ofGraph graph settings options).callOf active)).map Prod.snd).Nodup := by
  rw [stepsOf, filterMap_steps fun vertex hvertex => (hpasses vertex.id (mem_map_of_mem hvertex)).1, map_flatMap]
  have hentered : ∀ v,
      ((ofGraph graph settings options).enteredAt active v).Sublist (graph.evaluatedExpressions v) := by
    intro v
    rw [enteredAt]
    split
    · exact filter_sublist
    · exact nil_sublist _
  have hsites : (first.path.vertices.flatMap fun vertex =>
      (((ofGraph graph settings options).enteredAt active vertex.id).map (vertex.id, ·)).map Prod.snd) =
      first.path.ids.flatMap ((ofGraph graph settings options).enteredAt active) := by
    simp [CodePath.ids, flatMap_map, Function.comp_def]
  rw [hsites, nodup_flatMap]
  refine ⟨fun v _ => (CodeGraph.nodup_evaluatedExpressions placed.forest v).sublist (hentered v),
    hids.imp_of_mem fun hv hw hne expr hexpr hexpr' => ?_⟩
  exact hne ((hpasses _ hv).2.eq_of_evaluates placed.forest operands (hpasses _ hw).2 ((hentered _).mem hexpr)
    ((hentered _).mem hexpr'))

end Expander

namespace Path

/-- The path was found by an enumeration: it leads through a method, or to a vertex. -/
def IsEnumerated (graph : CodeGraph) (path : CodePath) : Prop :=
  (∃ method paths, forward graph method = .ok paths ∧ path ∈ paths) ∨ ∃ target paths,
  reverse graph target = .ok paths ∧ path ∈ paths

variable {config : Settings} {sources : List (String × String)} {graph : CodeGraph} {path : CodePath}

theorem IsEnumerated.isPrefix (h : IsEnumerated graph path) (hgraph : Build.IsGraphOf config sources graph) :
    ∃ method vertices whole paths, path = { method, vertices } ∧ forward graph method = .ok paths ∧ whole ∈ paths ∧
    path.ids <+: whole.ids := by
  rcases h with ⟨method, paths, hforward, hpath⟩ | ⟨target, found, hreverse, hpath⟩
  · obtain ⟨vertices, rfl⟩ := (Expander.eq_of_forward hforward).2 path hpath
    exact ⟨method, vertices, _, paths, rfl, hforward, hpath, prefix_refl _⟩
  · have hplaces := hreverse
    rw [reverse] at hplaces
    cases hmethod : graph.enclosingMethod? target with
    | none =>
      rw [hmethod] at hplaces
      cases hplaces
    | some method =>
    cases hbody : graph.body? method with
    | none =>
      simp only [hmethod, hbody] at hplaces
      cases hplaces
    | some entry =>
    cases hanchor : anchor? graph target entry with
    | none =>
      simp only [hmethod, hbody, hanchor] at hplaces
      rw [← Except.ok.inj hplaces] at hpath
      cases hpath
    | some anchor =>
      obtain ⟨found', paths, hfound, hforward, -, hmem, -⟩ := reverse_eq_prefixes hgraph hmethod hbody hanchor
      cases hreverse.symm.trans hfound
      obtain ⟨whole, hwhole, before, exit, after, hvertices, rfl⟩ := (hmem path).mp hpath
      refine ⟨method, _, whole, paths, rfl, hforward, hwhole, after.map PathVertex.id, ?_⟩
      simp [CodePath.ids, hvertices]

theorem IsEnumerated.passes (h : IsEnumerated graph path) (hgraph : Build.IsGraphOf config sources graph) :
    path.ids.Nodup ∧ ∀ v ∈ path.ids, v < graph.vertexCount ∧ graph.Passable v := by
  obtain ⟨_, _, whole, paths, rfl, hforward, hwhole, hfront⟩ := h.isPrefix hgraph
  obtain ⟨body, -, route⟩ := hgraph.isBuilt.route hgraph.wellPlaced hforward hwhole
  exact ⟨hfront.sublist.nodup route.nodup, fun v hv =>
    ⟨(route.below v (hfront.subset hv)).1, route.passes v (hfront.subset hv)⟩⟩

end Path

/-- The sequence of an expansion of an enumerated path. Every path that is attached to it has one piece, which is
its own sequence: it stands behind the vertex of the path at which it was attached, or at the beginning if there is
none, and the pieces of one place stand in the order of attachment. So the sequence is as long as the path and the
sequences of the attached paths together. -/
theorem CodePath.expandedVertices_exact {config : Settings} {sources : List (String × String)} {graph : CodeGraph}
    (h : Build.IsGraphOf config sources graph) {settings : Settings} {options : ExpansionOptions} {seed : CodePath}
    (hseed : Path.IsEnumerated graph seed) {state : ExpansionState} (valid : state.Valid graph) {paths : List CodePath}
    (hrun : (((Expander.ofGraph graph settings options).expandPath seed).run state).1 = .ok paths) :
    ∀ path ∈ paths, path.vertices = seed.vertices ∧ path.ids.Nodup ∧
      (path.splices.map Prod.snd).Perm path.attached ∧ (∀ splice ∈ path.splices, ∀ v ∈ splice.1, v ∈ path.ids) ∧
      path.expandedVertices = path.piecesAt none ++ path.ids.flatMap (fun v => v :: path.piecesAt (some v)) ∧
      path.expandedVertices.length = path.vertices.length +
      (path.attached.map fun sub => sub.expandedVertices.length).sum := by
  intro path hpath
  obtain ⟨strand, hstrand, rfl⟩ := Expander.exists_expansion h valid hrun hpath
  obtain ⟨hids, hpasses⟩ := hseed.passes h
  obtain ⟨method, vertices, -, -, rfl, -⟩ := hseed.isPrefix h
  have hkeys := Expander.invariant_keys.expansions .nil strand hstrand
  have attaches := Expander.course_attaches.expansions (Expander.attaches_nil _ method vertices []) strand hstrand
  have hcalls : (strand.path.calls.map Prod.snd).Nodup := by
    rw [attaches.calls]
    exact Expander.nodup_callOf_stepsOf h.wellPlaced h.hasOperands hids hpasses
  have hperm := splices_perm_attached (hkeys.imp Nat.ne_of_lt) hcalls attaches.keys attaches.numbers
  have hsame : strand.path.ids = CodePath.ids { method, vertices } :=
    congrArg (List.map PathVertex.id) attaches.vertices
  have hnodup : strand.path.ids.Nodup := hsame ▸ hids
  have hanchors : ∀ splice ∈ strand.path.splices, ∀ v ∈ splice.1, v ∈ strand.path.ids :=
    fun splice hsplice v hv => hsame ▸ attaches.mem_of_splice hsplice hv
  have hall := expandedVertices_perm hnodup hanchors
  refine ⟨attaches.vertices, hnodup, hperm, hanchors, expandedVertices_eq_pieces _, ?_⟩
  have hsubs := hperm.flatMap_right expandedVertices
  rw [flatMap_map] at hsubs
  rw [(hall.trans (hsubs.append_left _)).length_eq, length_append, length_flatMap, CodePath.ids, length_map]

/-- A method that calls another one twice, where its class is initialized first. -/
theorem callingTwice_expandedVertices : ∃ graph path paths, Build.IsGraphOf bareSettings [("A", callingTwice)] graph ∧
    Path.forward graph path.method = .ok [path] ∧
    (((Expander.ofGraph graph bareSettings {}).expandPath path).run { registry := { limit := .unlimited } }).1 =
    .ok paths ∧ paths.length = 4 ∧
    ∀ expanded ∈ paths, expanded.staticInits.length = 1 ∧
      expanded.expandedVertices.length = path.vertices.length +
      (expanded.attached.map fun sub => sub.expandedVertices.length).sum := by
  obtain ⟨graph, path, paths, hgraph, hforward, hrun, hcount, hinits⟩ := exists_fourfold_run
  refine ⟨graph, path, paths, hgraph, hforward, hrun, hcount, fun expanded hexpanded => ⟨hinits expanded hexpanded, ?_⟩⟩
  obtain ⟨hvertices, -, -, -, -, hlength⟩ :=
    CodePath.expandedVertices_exact hgraph (.inl ⟨_, _, hforward, mem_cons_self⟩) (valid_start graph .unlimited) hrun
    expanded hexpanded
  rw [hlength, hvertices]

end ApexPaths
