import ApexPaths.Proofs.Flow.Laying

/-!
The vertices that control may pass in a statement. They lie below the vertex of the statement, no two
of them are equal, and each of them has one junction.
-/

set_option autoImplicit false

namespace ApexPaths.Flow

open List

mutual

/-- The vertices of a statement that control may pass, in the order of its junctions. -/
def Statement.vertices : Statement → List VertexId
  | .simple id | .exit id | .breaks id | .continues id => [id]
  | .nested block => block.vertices
  | .ifElse id branches otherwise => id :: (branchVertices branches ++ optionVertices otherwise)
  | .whileLoop id head body skip | .forEach id head _ body skip => id :: head :: (body.vertices ++ optionVertices skip)
  | .forLoop id init condition update body skip =>
    id :: (init.toList ++ condition.toList ++ body.vertices ++ update.toList ++ optionVertices skip)
  | .doLoop id body condition => id :: (body.vertices ++ [condition])
  | .switch id subject whens => id :: subject :: clauseVertices whens
  | .tryCatch id body catches final => id :: (body.vertices ++ clauseVertices catches ++ optionVertices final)

/-- The vertices that flow passes in a block. -/
def Block.vertices : Block → List VertexId
  | .mk id body => id :: sequenceVertices body

def sequenceVertices : List Statement → List VertexId
  | [] => []
  | statement :: rest => statement.vertices ++ sequenceVertices rest

def branchVertices : List Branch → List VertexId
  | [] => []
  | .mk id condition body :: rest => id :: condition :: (body.vertices ++ branchVertices rest)

def clauseVertices : List Clause → List VertexId
  | [] => []
  | .mk id _ _ body :: rest => id :: (body.vertices ++ clauseVertices rest)

def optionVertices : Option Block → List VertexId
  | none => []
  | some block => block.vertices

end

theorem Block.id_mem_vertices (b : Block) : b.id ∈ b.vertices := by
  cases b with
  | mk id body => exact mem_cons_self

theorem Statement.id_mem_vertices (s : Statement) : s.id ∈ s.vertices := by
  cases s with
  | nested block => exact block.id_mem_vertices
  | _ => exact mem_cons_self

/-! ## One junction for each vertex -/

theorem breakExit?_isSome (frames : Frames) : (breakExit? frames).isSome = (innermostLoop? frames).isSome := by
  simp [breakExit?]

theorem continueExit?_isSome (frames : Frames) : (continueExit? frames).isSome = (innermostLoop? frames).isSome := by
  rw [continueExit?]
  cases h : innermostLoop? frames with
  | none => rfl
  | some found =>
    obtain ⟨kinds, onBreak, onContinue⟩ := found
    cases onContinue with
    | none => simp [breakExit?_isSome, h]
    | some target => rfl

theorem jump_ids {exit : Option Continuation} {id : VertexId} (h : exit.isSome = true) :
    (exit.toList.map (Junction.handing id · .sequential)).map Junction.id = [id] := by
  obtain ⟨cont, rfl⟩ := Option.isSome_iff_exists.mp h
  rfl

mutual

/-- Every vertex of a sound statement has one junction; by induction on the statement. -/
theorem Statement.junction_ids : (s : Statement) → (frames : Frames) → (cont : Continuation) →
    s.fault? (innermostLoop? frames).isSome = none → (s.junctions frames cont).map Junction.id = s.vertices
  | .simple id, _, _, _ | .exit id, _, _, _ => rfl
  | .breaks id, frames, _, h =>
    jump_ids ((breakExit?_isSome frames).trans (Statement.fault?_breaks_eq_none.mp h))
  | .continues id, frames, _, h =>
    jump_ids ((continueExit?_isSome frames).trans (Statement.fault?_breaks_eq_none.mp h))
  | .nested block, frames, cont, h => block.junction_ids frames cont h
  | .ifElse id branches otherwise, frames, cont, h => by
    rw [Statement.fault?] at h
    split at h
    · exact absurd h (Option.some_ne_none _)
    obtain ⟨hb, ho⟩ := Option.or_eq_none_iff.mp h
    have hbranches := branch_junction_ids branches (⟨.ifElseBlockStatement, none⟩ :: frames)
      (cont.leaving .ifElseBlockStatement) (otherwise.map Block.id) (by rwa [innermostLoop?_scope])
    have hotherwise := option_junction_ids otherwise (⟨.ifElseBlockStatement, none⟩ :: frames)
      (cont.leaving .ifElseBlockStatement) (by rwa [innermostLoop?_scope])
    simp [Statement.junctions, Statement.vertices, hbranches, hotherwise]
  | .whileLoop id condition body skip, frames, cont, h => by
    obtain ⟨hb, hs⟩ := Option.or_eq_none_iff.mp h
    have hbody :=
      body.junction_ids (⟨.whileLoopStatement, some ⟨cont, none⟩⟩ :: frames) (cont.leaving .whileLoopStatement) hb
    have hskip := option_junction_ids skip (⟨.whileLoopStatement, some ⟨cont, none⟩⟩ :: frames)
      (cont.leaving .whileLoopStatement) hs
    simp [Statement.junctions, Statement.vertices, hbody, hskip]
  | .forEach id variable_ iterable body skip, frames, cont, h => by
    obtain ⟨hb, hs⟩ := Option.or_eq_none_iff.mp h
    have hbody :=
      body.junction_ids (⟨.forEachStatement, some ⟨cont, none⟩⟩ :: frames) (cont.leaving .forEachStatement) hb
    have hskip := option_junction_ids skip (⟨.forEachStatement, some ⟨cont, none⟩⟩ :: frames)
      (cont.leaving .forEachStatement) hs
    simp [Statement.junctions, Statement.vertices, hbody, hskip]
  | .forLoop id init condition update body skip, frames, cont, h => by
    obtain ⟨hb, hs⟩ := Option.or_eq_none_iff.mp h
    have hbody := body.junction_ids (⟨.forLoopStatement, some ⟨cont, update⟩⟩ :: frames)
      ((update.map Continuation.to).getD (cont.leaving .forLoopStatement)) hb
    have hskip := option_junction_ids skip (⟨.forLoopStatement, some ⟨cont, update⟩⟩ :: frames)
      (cont.leaving .forLoopStatement) hs
    have hhead : (loopHeadJunctions id init condition body.id (skip.map Block.id)).map Junction.id =
        id :: (init.toList ++ condition.toList) := by
      cases init <;> cases condition <;> rfl
    have hupdate : (update.toList.map (Junction.handing · (cont.leaving .forLoopStatement) .sequential)).map
      Junction.id = update.toList := by
      cases update <;> rfl
    simp only [Statement.junctions, Statement.vertices, map_append, hhead, hbody, hupdate, hskip, cons_append]
  | .doLoop id body condition, frames, cont, h => by
    have hbody := body.junction_ids (⟨.doLoopStatement, some ⟨cont, some condition⟩⟩ :: frames) (.to condition) h
    simp [Statement.junctions, Statement.vertices, hbody, Junction.handing]
  | .switch id subject whens, frames, cont, h => by
    have hwhens := clause_junction_ids whens (⟨.switchStatement, none⟩ :: frames) (cont.leaving .switchStatement)
      (by rwa [innermostLoop?_scope])
    cases whens <;> simp_all [Statement.junctions, Statement.vertices, Junction.handing]
  | .tryCatch id body catches final, frames, cont, h => by
    obtain ⟨hbc, hf⟩ := Option.or_eq_none_iff.mp h
    obtain ⟨hb, hc⟩ := Option.or_eq_none_iff.mp hbc
    let after := (final.map fun block => Continuation.to block.id).getD (cont.leaving .tryCatchFinallyBlockStatement)
    have hbody :=
      body.junction_ids (⟨.tryCatchFinallyBlockStatement, none⟩ :: frames) after (by rwa [innermostLoop?_scope])
    have hcatches := clause_junction_ids catches (⟨.tryCatchFinallyBlockStatement, none⟩ :: frames) after
      (by rwa [innermostLoop?_scope])
    have hfinal := option_junction_ids final (⟨.tryCatchFinallyBlockStatement, none⟩ :: frames)
      (cont.leaving .tryCatchFinallyBlockStatement) (by rwa [innermostLoop?_scope])
    simp [Statement.junctions, Statement.vertices, after, hbody, hcatches, hfinal]

theorem Block.junction_ids : (b : Block) → (frames : Frames) → (cont : Continuation) →
    b.fault? (innermostLoop? frames).isSome = none → (b.junctions frames cont).map Junction.id = b.vertices
  | .mk id [], _, _, _ => rfl
  | .mk id (first :: rest), frames, cont, h => by
    have hbody :=
      sequence_junction_ids (first :: rest) (⟨.blockStatement, none⟩ :: frames) (cont.leaving .blockStatement)
      (by rwa [innermostLoop?_scope])
    simp [Block.junctions, Block.vertices, hbody]

theorem sequence_junction_ids : (body : List Statement) → (frames : Frames) → (cont : Continuation) →
    sequenceFault? (innermostLoop? frames).isSome body = none →
    (sequenceJunctions frames cont body).map Junction.id = sequenceVertices body
  | [], _, _, _ => rfl
  | first :: rest, frames, cont, h => by
    obtain ⟨hf, hr⟩ := Option.or_eq_none_iff.mp h
    have hfirst := first.junction_ids frames ((rest.head?.map fun next => Continuation.to next.id).getD cont) hf
    have hrest := sequence_junction_ids rest frames cont hr
    simp [sequenceJunctions, sequenceVertices, hfirst, hrest]

theorem branch_junction_ids : (branches : List Branch) → (frames : Frames) → (inner : Continuation) →
    (otherwise : Option VertexId) → branchesFault? (innermostLoop? frames).isSome branches = none →
    (branchJunctions frames inner otherwise branches).map Junction.id = branchVertices branches
  | [], _, _, _, _ => rfl
  | .mk id condition body :: rest, frames, inner, otherwise, h => by
    obtain ⟨hb, hr⟩ := Option.or_eq_none_iff.mp h
    have hbody := body.junction_ids frames inner hb
    have hrest := branch_junction_ids rest frames inner otherwise hr
    simp [branchJunctions, branchVertices, hbody, hrest]

theorem clause_junction_ids : (clauses : List Clause) → (frames : Frames) → (after : Continuation) →
    clausesFault? (innermostLoop? frames).isSome clauses = none →
    (clauseJunctions frames after clauses).map Junction.id = clauseVertices clauses
  | [], _, _, _ => rfl
  | .mk id kind cases body :: rest, frames, after, h => by
    obtain ⟨hb, hr⟩ := Option.or_eq_none_iff.mp h
    have hbody := body.junction_ids (⟨kind, none⟩ :: frames) (after.leaving kind) (by rwa [innermostLoop?_scope])
    have hrest := clause_junction_ids rest frames after hr
    simp [clauseJunctions, clauseVertices, hbody, hrest]

theorem option_junction_ids : (b : Option Block) → (frames : Frames) → (cont : Continuation) →
    optionFault? (innermostLoop? frames).isSome b = none → (optionJunctions frames cont b).map Junction.id =
    optionVertices b
  | none, _, _, _ => rfl
  | some block, frames, cont, h => block.junction_ids frames cont h

end

/-! ## Distinct vertices below the statement -/

section
variable (graph : CodeGraph)

/-- Some vertices lie below a vertex and are distinct. -/
def Spans (top : VertexId) (vs : List VertexId) : Prop := vs.Nodup ∧ ∀ v ∈ vs, graph.Below top v

variable {graph}

theorem Spans.leaf {v : VertexId} {label : NodeKind} (h : graph.label? v = some label) : Spans graph v [v] := by
  refine ⟨by simp, fun w hw => ?_⟩
  rw [mem_singleton.mp hw]
  exact .refl (graph.lt_of_label? h)

theorem Spans.node (forest : graph.IsForest) {p : VertexId} {label : NodeKind} (h : graph.label? p = some label)
    (parts : List (VertexId × List VertexId)) (hsub : (parts.map Prod.fst).Sublist (graph.children p))
    (hparts : ∀ part ∈ parts, Spans graph part.1 part.2) : Spans graph p (p :: parts.flatMap Prod.snd) := by
  have hchild : ∀ part ∈ parts, part.1 ∈ graph.children p := fun part hpart => hsub.subset (mem_map_of_mem hpart)
  constructor
  · exact CodeGraph.nodup_subtrees forest parts ((forest.nodup_children p).sublist hsub) hchild
      (fun part hpart => (hparts part hpart).2) fun part hpart => (hparts part hpart).1
  · intro v hv
    rcases mem_cons.mp hv with rfl | hv
    · exact .refl (graph.lt_of_label? h)
    · obtain ⟨part, hpart, hv⟩ := mem_flatMap.mp hv
      exact ((hparts part hpart).2 v hv).of_child forest (hchild part hpart)

theorem Spans.perm {top : VertexId} {vs ws : List VertexId} (h : Spans graph top vs) (hp : vs.Perm ws) :
    Spans graph top ws :=
  ⟨hp.nodup_iff.mp h.1, fun v hv => h.2 v (hp.mem_iff.mpr hv)⟩

theorem sequenceVertices_eq (body : List Statement) :
    sequenceVertices body = (body.map fun s => (s.id, s.vertices)).flatMap Prod.snd := by
  induction body with
  | nil => rfl
  | cons first rest ih => rw [sequenceVertices, ih]; rfl

def Branch.vertices : Branch → List VertexId
  | .mk id condition body => id :: condition :: body.vertices

def Clause.vertices : Clause → List VertexId
  | .mk id _ _ body => id :: body.vertices

theorem branchVertices_eq (branches : List Branch) :
    branchVertices branches = (branches.map fun b => (b.id, b.vertices)).flatMap Prod.snd := by
  induction branches with
  | nil => rfl
  | cons first rest ih =>
    obtain ⟨id, condition, body⟩ := first
    rw [branchVertices, ih]
    rfl

theorem clauseVertices_eq (clauses : List Clause) :
    clauseVertices clauses = (clauses.map fun c => (c.id, c.vertices)).flatMap Prod.snd := by
  induction clauses with
  | nil => rfl
  | cons first rest ih =>
    obtain ⟨id, kind, cases, body⟩ := first
    rw [clauseVertices, ih]
    rfl

theorem optionVertices_eq (b : Option Block) :
    optionVertices b = (b.toList.map fun b => (b.id, b.vertices)).flatMap Prod.snd := by
  cases b with
  | none => rfl
  | some block => simp [optionVertices]

mutual

/-- The vertices of a statement lie below it and are all different. -/
theorem Statement.spans (forest : graph.IsForest) : (s : Statement) → s.Holds graph → Spans graph s.id s.vertices
  | .simple id, h => by
    obtain ⟨label, hl, -⟩ := h
    exact .leaf hl
  | .exit id, h => h.elim .leaf .leaf
  | .breaks id, h => .leaf h
  | .continues id, h => .leaf h
  | .nested block, h => block.spans forest h
  | .ifElse id branches otherwise, h => by
    obtain ⟨hlabel, -, hchildren, hbranches, hotherwise⟩ := h
    have hb := branches_span forest branches hbranches
    have ho := option_spans forest otherwise hotherwise
    have hs := Spans.node forest hlabel
      (branches.map (fun b => (b.id, b.vertices)) ++ otherwise.toList.map fun b => (b.id, b.vertices))
      (by simp [hchildren, Function.comp_def]) (forall_mem_append.mpr ⟨hb, ho⟩)
    rwa [flatMap_append, ← branchVertices_eq, ← optionVertices_eq] at hs
  | .whileLoop id condition body skip, h => by
    obtain ⟨hlabel, hchildren, hcondition, hbody, hskip, -⟩ := h
    have hb := body.spans forest hbody
    have hs := option_spans forest skip hskip
    have h := Spans.node forest hlabel
      ((condition, [condition]) :: (body.id, body.vertices) :: skip.toList.map fun b => (b.id, b.vertices))
      (by simp [hchildren, Function.comp_def])
      (forall_mem_cons.mpr ⟨.leaf hcondition, forall_mem_cons.mpr ⟨hb, hs⟩⟩)
    rwa [flatMap_cons, flatMap_cons, ← optionVertices_eq] at h
  | .forEach id variable_ iterable body skip, h => by
    obtain ⟨hlabel, hchildren, hvariable, -, hbody, hskip, -⟩ := h
    have hb := body.spans forest hbody
    have hs := option_spans forest skip hskip
    have h := Spans.node forest hlabel
      ((variable_, [variable_]) :: (body.id, body.vertices) :: skip.toList.map fun b => (b.id, b.vertices))
      (by simp [hchildren, Function.comp_def])
      (forall_mem_cons.mpr ⟨.leaf hvariable, forall_mem_cons.mpr ⟨hb, hs⟩⟩)
    rwa [flatMap_cons, flatMap_cons, ← optionVertices_eq] at h
  | .forLoop id init condition update body skip, h => by
    obtain ⟨hlabel, hchildren, -, -, -, hinit, hcondition, hupdate, hbody, hskip, -⟩ := h
    have hb := body.spans forest hbody
    have hs := option_spans forest skip hskip
    have hhead : ∀ v ∈ init.toList ++ condition.toList ++ update.toList, Spans graph v [v] := by
      intro v hv
      simp only [mem_append, Option.mem_toList] at hv
      rcases hv with (hv | hv) | hv
      · obtain ⟨label, hl, -⟩ := hinit v hv
        exact .leaf hl
      · exact .leaf (hcondition v hv)
      · obtain ⟨label, hl, -⟩ := hupdate v hv
        exact .leaf hl
    have h := Spans.node forest hlabel
      ((init.toList ++ condition.toList ++ update.toList).map (fun v => (v, [v])) ++
        (body.id, body.vertices) :: skip.toList.map fun b => (b.id, b.vertices))
      (by simp [hchildren, Function.comp_def])
      (forall_mem_append.mpr ⟨forall_mem_map.mpr hhead, forall_mem_cons.mpr ⟨hb, hs⟩⟩)
    rw [flatMap_append, flatMap_cons, ← optionVertices_eq, flatMap_map, flatMap_singleton'] at h
    -- The update is laid after the body but stands before it.
    refine h.perm (List.Perm.cons id ?_)
    simp only [List.append_assoc]
    refine List.Perm.append_left _ (List.Perm.append_left _ ?_)
    rw [← List.append_assoc, ← List.append_assoc]
    exact List.Perm.append_right _ perm_append_comm
  | .doLoop id body condition, h => by
    obtain ⟨hlabel, hchildren, hcondition, hbody⟩ := h
    have hb := body.spans forest hbody
    have h := Spans.node forest hlabel [(body.id, body.vertices), (condition, [condition])] (by simp [hchildren])
      (by simpa using ⟨hb, Spans.leaf hcondition⟩)
    simpa [Statement.vertices, Statement.id] using h
  | .switch id subject whens, h => by
    obtain ⟨hlabel, hchildren, ⟨label, hsubject, -⟩, hwhens⟩ := h
    have hw := clauses_span forest whens _ hwhens
    have h := Spans.node forest hlabel ((subject, [subject]) :: whens.map fun c => (c.id, c.vertices))
      (by simp [hchildren, Function.comp_def]) (forall_mem_cons.mpr ⟨.leaf hsubject, hw⟩)
    rwa [flatMap_cons, ← clauseVertices_eq] at h
  | .tryCatch id body catches final, h => by
    obtain ⟨hlabel, hchildren, -, hbody, hcatches, -, hfinal⟩ := h
    have hb := body.spans forest hbody
    have hc := clauses_span forest catches _ hcatches
    have hf := option_spans forest final hfinal
    have h := Spans.node forest hlabel
      ((body.id, body.vertices) ::
        (catches.map (fun c => (c.id, c.vertices)) ++ final.toList.map fun b => (b.id, b.vertices)))
      (by simp [hchildren, Function.comp_def])
      (forall_mem_cons.mpr ⟨hb, forall_mem_append.mpr ⟨hc, hf⟩⟩)
    rw [flatMap_cons, flatMap_append, ← clauseVertices_eq, ← optionVertices_eq, ← List.append_assoc] at h
    exact h

theorem Block.spans (forest : graph.IsForest) : (b : Block) → b.Holds graph → Spans graph b.id b.vertices
  | .mk id body, h => by
    obtain ⟨hlabel, hchildren, hbody⟩ := h
    have hb := statements_span forest body hbody
    have h := Spans.node forest hlabel (body.map fun s => (s.id, s.vertices))
      (by simp [hchildren, Function.comp_def]) hb
    rwa [← sequenceVertices_eq] at h

theorem statements_span (forest : graph.IsForest) : (body : List Statement) → statementsHold graph body →
    ∀ part ∈ body.map fun s => (s.id, s.vertices), Spans graph part.1 part.2
  | [], _ => by simp
  | first :: rest, h => forall_mem_cons.mpr ⟨first.spans forest h.1, statements_span forest rest h.2⟩

theorem branches_span (forest : graph.IsForest) : (branches : List Branch) → branchesHold graph branches →
    ∀ part ∈ branches.map fun b => (b.id, b.vertices), Spans graph part.1 part.2
  | [], _ => by simp
  | .mk id condition body :: rest, h => by
    obtain ⟨hlabel, hchildren, hcondition, hbody, hrest⟩ := h
    have hb := body.spans forest hbody
    have h := Spans.node forest hlabel [(condition, [condition]), (body.id, body.vertices)] (by simp [hchildren])
      (by simpa using ⟨Spans.leaf hcondition, hb⟩)
    refine forall_mem_cons.mpr ⟨?_, branches_span forest rest hrest⟩
    simpa [Branch.vertices, Branch.id] using h

theorem clauses_span (forest : graph.IsForest) : (clauses : List Clause) → (kinds : NodeKind → Bool) →
    clausesHold graph kinds clauses → ∀ part ∈ clauses.map fun c => (c.id, c.vertices), Spans graph part.1 part.2
  | [], _, _ => by simp
  | .mk id kind cases body :: rest, kinds, h => by
    obtain ⟨hlabel, -, hchildren, hbody, hrest⟩ := h
    have hb := body.spans forest hbody
    have h := Spans.node forest hlabel [(body.id, body.vertices)] (by simp [hchildren]) (by simpa using hb)
    refine forall_mem_cons.mpr ⟨?_, clauses_span forest rest kinds hrest⟩
    simpa [Clause.vertices, Clause.id] using h

theorem option_spans (forest : graph.IsForest) : (b : Option Block) → optionHolds graph b →
    ∀ part ∈ b.toList.map fun b => (b.id, b.vertices), Spans graph part.1 part.2
  | none, _ => by simp
  | some block, h => by simpa using block.spans forest h

end

end

end ApexPaths.Flow

/-! ## What control passes -/

namespace ApexPaths

/-- Expressions, the entries of maps and declarators: the nodes that are evaluated as parts of others. -/
def NodeKind.isValue (kind : NodeKind) : Bool :=
  kind.isExpression || kind == .mapEntryNode || kind == .variableDeclaration

/-- Control may pass the vertex: it is not evaluated as part of another one, or it is the subject of a switch. -/
def CodeGraph.Passable (graph : CodeGraph) (v : VertexId) : Prop :=
  ∃ label, graph.label? v = some label ∧
    (label.isValue = false ∨ label.isExpression = true ∧ ∃ switch, graph.label? switch = some .switchStatement ∧
    v ∈ graph.children switch)

/-- Declarators are parts of statements; control does not pass them. -/
theorem CodeGraph.Passable.not_declarator {graph : CodeGraph} {v : VertexId} (h : graph.Passable v) :
    graph.is v .variableDeclaration = false := by
  obtain ⟨label, hlabel, hcase⟩ := h
  have hne : label ≠ .variableDeclaration := by
    rintro rfl
    rcases hcase with hvalue | ⟨hexpression, -⟩
    · exact absurd hvalue (by decide)
    · exact absurd hexpression (by decide)
  simpa [CodeGraph.is, hlabel] using hne

end ApexPaths

namespace ApexPaths.Flow

open List

section
variable {graph : CodeGraph}

theorem passable_of_label {v : VertexId} {label : NodeKind} (h : graph.label? v = some label)
    (hvalue : label.isValue = false) : graph.Passable v := ⟨label, h, .inl hvalue⟩

theorem IsPlain.passable {v : VertexId} (h : IsPlain graph v) : graph.Passable v := by
  obtain ⟨label, hlabel, hsimple, -⟩ := h
  exact passable_of_label hlabel (by cases label <;> first | rfl | exact absurd hsimple (by decide))

mutual

/-- A path can pass every vertex of a sound statement. -/
theorem Statement.passable : (s : Statement) → s.Holds graph → ∀ v ∈ s.vertices, graph.Passable v
  | .simple id, h => forall_mem_singleton.mpr (IsPlain.passable h)
  | .exit id, h => forall_mem_singleton.mpr <| h.elim (passable_of_label · rfl) (passable_of_label · rfl)
  | .breaks id, h => forall_mem_singleton.mpr (passable_of_label h rfl)
  | .continues id, h => forall_mem_singleton.mpr (passable_of_label h rfl)
  | .nested block, h => block.passable h
  | .ifElse id branches otherwise, h => by
    obtain ⟨hlabel, -, -, hbranches, hotherwise⟩ := h
    have hparts := forall_mem_append.mpr ⟨branches_passable branches hbranches, option_passable otherwise hotherwise⟩
    exact forall_mem_cons.mpr ⟨passable_of_label hlabel rfl, hparts⟩
  | .whileLoop id condition body skip, h => by
    obtain ⟨hlabel, -, hcondition, hbody, hskip, -⟩ := h
    have hparts := forall_mem_append.mpr ⟨body.passable hbody, option_passable skip hskip⟩
    exact forall_mem_cons.mpr ⟨passable_of_label hlabel rfl,
      forall_mem_cons.mpr ⟨passable_of_label hcondition rfl, hparts⟩⟩
  | .forEach id variable_ iterable body skip, h => by
    obtain ⟨hlabel, -, hvariable, -, hbody, hskip, -⟩ := h
    have hparts := forall_mem_append.mpr ⟨body.passable hbody, option_passable skip hskip⟩
    exact forall_mem_cons.mpr ⟨passable_of_label hlabel rfl,
      forall_mem_cons.mpr ⟨passable_of_label hvariable rfl, hparts⟩⟩
  | .forLoop id init condition update body skip, h => by
    obtain ⟨hlabel, -, -, -, -, hinit, hcondition, hupdate, hbody, hskip, -⟩ := h
    refine forall_mem_cons.mpr ⟨passable_of_label hlabel rfl, ?_⟩
    simp only [forall_mem_append, Option.mem_toList]
    exact ⟨⟨⟨⟨fun v hv => (hinit v hv).passable, fun v hv => passable_of_label (hcondition v hv) rfl⟩,
      body.passable hbody⟩, fun v hv => (hupdate v hv).passable⟩, option_passable skip hskip⟩
  | .doLoop id body condition, h => by
    obtain ⟨hlabel, -, hcondition, hbody⟩ := h
    refine forall_mem_cons.mpr ⟨passable_of_label hlabel rfl, forall_mem_append.mpr ⟨body.passable hbody, ?_⟩⟩
    exact forall_mem_singleton.mpr (passable_of_label hcondition rfl)
  | .switch id subject whens, h => by
    obtain ⟨hlabel, hchildren, ⟨label, hsubject, hexpression⟩, hwhens⟩ := h
    refine forall_mem_cons.mpr ⟨passable_of_label hlabel rfl, forall_mem_cons.mpr ⟨?_, ?_⟩⟩
    · exact ⟨label, hsubject, .inr ⟨hexpression, id, hlabel, hchildren ▸ mem_cons_self⟩⟩
    · exact clauses_passable whens _ hwhens fun kind hkind => by
        cases kind <;> first | rfl | exact absurd hkind (by decide)
  | .tryCatch id body catches final, h => by
    obtain ⟨hlabel, -, -, hbody, hcatches, -, hfinal⟩ := h
    refine forall_mem_cons.mpr ⟨passable_of_label hlabel rfl, forall_mem_append.mpr ⟨?_, option_passable final hfinal⟩⟩
    exact forall_mem_append.mpr ⟨body.passable hbody, clauses_passable catches _ hcatches fun kind hkind =>
      beq_iff_eq.mp hkind ▸ rfl⟩

theorem Block.passable : (b : Block) → b.Holds graph → ∀ v ∈ b.vertices, graph.Passable v
  | .mk id body, h => by
    obtain ⟨hlabel, -, hbody⟩ := h
    exact forall_mem_cons.mpr ⟨passable_of_label hlabel rfl, statements_passable body hbody⟩

theorem statements_passable : (body : List Statement) → statementsHold graph body → ∀ v ∈ sequenceVertices body,
    graph.Passable v
  | [], _ => by simp [sequenceVertices]
  | first :: rest, h => forall_mem_append.mpr ⟨first.passable h.1, statements_passable rest h.2⟩

theorem branches_passable : (branches : List Branch) → branchesHold graph branches → ∀ v ∈ branchVertices branches,
    graph.Passable v
  | [], _ => by simp [branchVertices]
  | .mk id condition body :: rest, h => by
    obtain ⟨hlabel, -, hcondition, hbody, hrest⟩ := h
    have hparts := forall_mem_append.mpr ⟨body.passable hbody, branches_passable rest hrest⟩
    exact forall_mem_cons.mpr ⟨passable_of_label hlabel rfl,
      forall_mem_cons.mpr ⟨passable_of_label hcondition rfl, hparts⟩⟩

theorem clauses_passable : (clauses : List Clause) → (kinds : NodeKind → Bool) → clausesHold graph kinds clauses →
    (∀ kind, kinds kind = true → kind.isValue = false) → ∀ v ∈ clauseVertices clauses, graph.Passable v
  | [], _, _, _ => by simp [clauseVertices]
  | .mk id kind cases body :: rest, kinds, h, hkinds => by
    obtain ⟨hlabel, hkind, -, hbody, hrest⟩ := h
    refine forall_mem_cons.mpr ⟨passable_of_label hlabel (hkinds kind hkind), ?_⟩
    exact forall_mem_append.mpr ⟨body.passable hbody, clauses_passable rest kinds hrest hkinds⟩

theorem option_passable : (b : Option Block) → optionHolds graph b → ∀ v ∈ optionVertices b, graph.Passable v
  | none, _ => by simp [optionVertices]
  | some block, h => block.passable h

end

end

/-! ## Distinct next vertices -/

theorem Block.id_sublist (b : Block) : [b.id].Sublist b.vertices := singleton_sublist.mpr b.id_mem_vertices

theorem optionIds_sublist (b : Option Block) : (b.toList.map Block.id).Sublist (optionVertices b) := by
  cases b with
  | none => exact List.Sublist.refl _
  | some block => exact block.id_sublist

theorem clauseIds_sublist (clauses : List Clause) : (clauses.map Clause.id).Sublist (clauseVertices clauses) := by
  induction clauses with
  | nil => exact List.Sublist.refl _
  | cons clause rest ih =>
    obtain ⟨id, kind, cases, body⟩ := clause
    exact List.Sublist.cons_cons id (ih.trans (sublist_append_right _ _))

theorem nextBranch_sublist (branches : List Branch) (otherwise : Option VertexId) :
    ((branches.head?.map Branch.id).or otherwise).toList.Sublist (branchVertices branches ++ otherwise.toList) := by
  cases branches with
  | nil => exact List.Sublist.refl _
  | cons branch rest =>
    obtain ⟨id, condition, body⟩ := branch
    exact singleton_sublist.mpr mem_cons_self

/-- A junction has one edge to each vertex. -/
def Junction.Forks (junction : Junction) : Prop := (junction.next.map Prod.fst).Nodup

theorem Junction.forks_handing (v : VertexId) (cont : Continuation) (kind : FlowKind) :
    (Junction.handing v cont kind).Forks := by
  cases h : cont.target <;> simp [Junction.Forks, Junction.handing, h]

theorem Junction.forks_one (v w : VertexId) (kind : FlowKind) (left : List NodeKind) :
    Junction.Forks ⟨v, [(w, kind)], left⟩ := by simp [Junction.Forks]

theorem Junction.forks_of_sublist {v : VertexId} {next : List (VertexId × FlowKind)} {left : List NodeKind}
    {vs : List VertexId} (hs : (next.map Prod.fst).Sublist vs) (h : vs.Nodup) : Junction.Forks ⟨v, next, left⟩ :=
    h.sublist hs

theorem loopHead_forks (id body : VertexId) (init condition skip : Option VertexId) (h : (body :: skip.toList).Nodup) :
    ∀ j ∈ loopHeadJunctions id init condition body skip, j.Forks := by
  have hcondition : ∀ c, Junction.Forks ⟨c, (body, .positive) :: skip.toList.map (·, .negative), []⟩ := by
    intro c
    simpa [Junction.Forks, Function.comp_def] using h
  cases init <;> cases condition <;> simp [loopHeadJunctions, Junction.forks_one, hcondition]

mutual

/-- Where no vertex stands twice in a statement, a junction has one edge to each vertex. -/
theorem Statement.junctions_fork : (s : Statement) → (frames : Frames) → (cont : Continuation) → s.vertices.Nodup →
    ∀ j ∈ s.junctions frames cont, j.Forks
  | .simple id, _, cont, _ => by
    intro j hj
    rw [mem_singleton.mp hj]
    exact Junction.forks_handing id cont .sequential
  | .exit id, _, _, _ => by
    intro j hj
    rw [mem_singleton.mp hj]
    exact nodup_nil
  | .breaks id, _, _, _ => forall_mem_map.mpr fun _ _ => Junction.forks_handing _ _ _
  | .continues id, _, _, _ => forall_mem_map.mpr fun _ _ => Junction.forks_handing _ _ _
  | .nested block, frames, cont, h => block.junctions_fork frames cont h
  | .ifElse id branches otherwise, frames, cont, h => by
    have hparts := (nodup_cons.mp h).2
    have hids : (branchVertices branches ++ (otherwise.map Block.id).toList).Nodup := by
      refine hparts.sublist (List.Sublist.append (List.Sublist.refl _) ?_)
      rw [Option.toList_map]
      exact optionIds_sublist otherwise
    refine forall_mem_cons.mpr ⟨?_, forall_mem_append.mpr ⟨?_, ?_⟩⟩
    · cases branches with
      | nil => exact nodup_nil
      | cons branch rest => exact Junction.forks_one _ _ _ _
    · exact branches_fork branches _ _ _ hids
    · exact option_forks otherwise _ _ (hparts.sublist (sublist_append_right _ _))
  | .whileLoop id head body skip, frames, cont, h | .forEach id head _ body skip, frames, cont, h => by
    have hparts := (nodup_cons.mp (nodup_cons.mp h).2).2
    have hids : (body.id :: skip.toList.map Block.id).Nodup :=
      hparts.sublist (List.Sublist.append body.id_sublist (optionIds_sublist skip))
    have hb := body.junctions_fork
    have hs := option_forks skip
    refine forall_mem_cons.mpr ⟨Junction.forks_one _ _ _ _, forall_mem_cons.mpr ⟨?_, forall_mem_append.mpr ⟨?_, ?_⟩⟩⟩
    · simpa [Junction.Forks, Function.comp_def] using hids
    · exact hb _ _ (hparts.sublist (sublist_append_left _ _))
    · exact hs _ _ (hparts.sublist (sublist_append_right _ _))
  | .forLoop id init condition update body skip, frames, cont, h => by
    have hparts := (nodup_cons.mp h).2
    have hbody : (init.toList ++ condition.toList ++ body.vertices).Nodup :=
      hparts.sublist ((sublist_append_left _ _).trans (sublist_append_left _ _))
    have hids : (body.id :: (skip.map Block.id).toList).Nodup := by
      have hfirst := (body.id_sublist.trans (sublist_append_right (init.toList ++ condition.toList) _)).trans
        (sublist_append_left _ update.toList)
      rw [Option.toList_map]
      exact hparts.sublist (List.Sublist.append hfirst (optionIds_sublist skip))
    refine forall_mem_append.mpr ⟨forall_mem_append.mpr ⟨forall_mem_append.mpr ⟨?_, ?_⟩, ?_⟩, ?_⟩
    · exact loopHead_forks id body.id init condition _ hids
    · exact body.junctions_fork _ _ (hbody.sublist (sublist_append_right _ _))
    · exact forall_mem_map.mpr fun _ _ => Junction.forks_handing _ _ _
    · exact option_forks skip _ _ (hparts.sublist (sublist_append_right _ _))
  | .doLoop id body condition, frames, cont, h => by
    have hparts := (nodup_cons.mp h).2
    refine forall_mem_cons.mpr ⟨Junction.forks_one _ _ _ _, forall_mem_append.mpr ⟨?_, ?_⟩⟩
    · exact body.junctions_fork _ _ (hparts.sublist (sublist_append_left _ _))
    · exact forall_mem_cons.mpr ⟨Junction.forks_handing _ _ _, by simp⟩
  | .switch id subject whens, frames, cont, h => by
    have hparts := (nodup_cons.mp (nodup_cons.mp h).2).2
    refine forall_mem_cons.mpr ⟨Junction.forks_one _ _ _ _, forall_mem_cons.mpr ⟨?_, ?_⟩⟩
    · split
      · exact Junction.forks_handing _ _ _
      · refine Junction.forks_of_sublist ?_ hparts
        simpa [Function.comp_def] using clauseIds_sublist whens
    · exact clauses_fork whens _ _ hparts
  | .tryCatch id body catches final, frames, cont, h => by
    have hparts := (nodup_cons.mp h).2
    have hblocks := hparts.sublist (sublist_append_left _ _)
    refine forall_mem_cons.mpr ⟨?_, forall_mem_append.mpr ⟨forall_mem_append.mpr ⟨?_, ?_⟩, ?_⟩⟩
    · refine Junction.forks_of_sublist ?_ hblocks
      simpa [Function.comp_def] using List.Sublist.append body.id_sublist (clauseIds_sublist catches)
    · exact body.junctions_fork _ _ (hblocks.sublist (sublist_append_left _ _))
    · exact clauses_fork catches _ _ (hblocks.sublist (sublist_append_right _ _))
    · exact option_forks final _ _ (hparts.sublist (sublist_append_right _ _))

theorem Block.junctions_fork : (b : Block) → (frames : Frames) → (cont : Continuation) → b.vertices.Nodup →
    ∀ j ∈ b.junctions frames cont, j.Forks
  | .mk id [], _, _, _ => forall_mem_cons.mpr ⟨Junction.forks_handing _ _ _, by simp⟩
  | .mk id (first :: rest), frames, cont, h => forall_mem_cons.mpr
    ⟨Junction.forks_one _ _ _ _, sequence_forks (first :: rest) _ _ (nodup_cons.mp h).2⟩

theorem sequence_forks : (body : List Statement) → (frames : Frames) → (cont : Continuation) →
    (sequenceVertices body).Nodup → ∀ j ∈ sequenceJunctions frames cont body, j.Forks
  | [], _, _, _ => by simp [sequenceJunctions]
  | first :: rest, frames, cont, h => forall_mem_append.mpr
    ⟨first.junctions_fork _ _ (h.sublist (sublist_append_left _ _)),
      sequence_forks rest _ _ (h.sublist (sublist_append_right _ _))⟩

theorem branches_fork : (branches : List Branch) → (frames : Frames) → (inner : Continuation) →
    (otherwise : Option VertexId) → (branchVertices branches ++ otherwise.toList).Nodup →
    ∀ j ∈ branchJunctions frames inner otherwise branches, j.Forks
  | [], _, _, _, _ => by simp [branchJunctions]
  | .mk id condition body :: rest, frames, inner, otherwise, h => by
    have hparts : (body.vertices ++ (branchVertices rest ++ otherwise.toList)).Nodup := by
      rw [← List.append_assoc]
      exact (nodup_cons.mp (nodup_cons.mp h).2).2
    refine forall_mem_cons.mpr ⟨Junction.forks_one _ _ _ _, forall_mem_cons.mpr ⟨?_, forall_mem_append.mpr ⟨?_, ?_⟩⟩⟩
    · refine Junction.forks_of_sublist ?_ hparts
      simpa [Function.comp_def] using List.Sublist.append body.id_sublist (nextBranch_sublist rest otherwise)
    · exact body.junctions_fork _ _ (hparts.sublist (sublist_append_left _ _))
    · exact branches_fork rest _ _ _ (hparts.sublist (sublist_append_right _ _))

theorem clauses_fork : (clauses : List Clause) → (frames : Frames) → (after : Continuation) →
    (clauseVertices clauses).Nodup → ∀ j ∈ clauseJunctions frames after clauses, j.Forks
  | [], _, _, _ => by simp [clauseJunctions]
  | .mk id kind cases body :: rest, frames, after, h => by
    have hparts := (nodup_cons.mp h).2
    refine forall_mem_cons.mpr ⟨Junction.forks_one _ _ _ _, forall_mem_append.mpr ⟨?_, ?_⟩⟩
    · exact body.junctions_fork _ _ (hparts.sublist (sublist_append_left _ _))
    · exact clauses_fork rest _ _ (hparts.sublist (sublist_append_right _ _))

theorem option_forks : (b : Option Block) → (frames : Frames) → (cont : Continuation) → (optionVertices b).Nodup →
    ∀ j ∈ optionJunctions frames cont b, j.Forks
  | none, _, _, _ => by simp [optionJunctions]
  | some block, frames, cont, h => block.junctions_fork frames cont h

end

end ApexPaths.Flow
