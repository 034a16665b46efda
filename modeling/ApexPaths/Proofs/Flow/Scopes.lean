import ApexPaths.Proofs.Flow.Effect

/-!
Ended scopes are exact. A vertex ends the innermost scopes that are open at it, and after them control
stands just before its next vertex. A continuation fits a list of open scopes when ending its own
scopes leaves the ones before its target; every construct hands its parts continuations that fit, for
falling through and for the jumps of its loops.
-/

namespace ApexPaths.Flow
set_option autoImplicit false

open List

variable {branches : List Branch} {condition : Option VertexId}

section
variable (graph : CodeGraph) (top : VertexId) (targets : List VertexId)

/-! ## Continuations that fit -/

/-- After the ended scopes of the continuation, the open scopes are those before its target; without a
target none is left. -/
def Fits (scopes : List NodeKind) (cont : Continuation) : Prop :=
  ∃ rest, scopes = cont.endScopes ++ rest ∧
    match cont.target with
    | some w => w ∈ targets ∧ graph.scopesBefore top w = rest
    | none => rest = []

/-- The scopes that end at a junction are innermost open ones, and what is left is open before the next
vertices; at an end of control nothing is left. -/
structure Junction.Exact (junction : Junction) : Prop where
  left_isPrefix : junction.left <+: graph.openScopes top junction.id
  next_mem : ∀ e ∈ junction.next, e.1 ∈ targets
  drop_left : ∀ e ∈ junction.next, (graph.openScopes top junction.id).drop junction.left.length =
    graph.scopesBefore top e.1
  left_eq : junction.next = [] → junction.left = graph.openScopes top junction.id

/-- The kinds of the frames, the innermost first. -/
def Frames.kinds (frames : Frames) : List NodeKind := frames.map (·.kind)

/-- The jumps of the innermost loop fit the open scopes. -/
structure Frames.Fit (frames : Frames) : Prop where
  onBreak : ∀ cont ∈ breakExit? frames, Fits graph top targets (Frames.kinds frames) cont
  onContinue : ∀ cont ∈ continueExit? frames, Fits graph top targets (Frames.kinds frames) cont

/-- A vertex and the scopes that are open before it. -/
structure Placed (v : VertexId) (scopes : List NodeKind) : Prop where
  top_le : (top : Nat) ≤ v
  before_eq : graph.scopesBefore top v = scopes
  open_eq : graph.openScopes top v = (graph.scope? v).toList ++ scopes

variable {graph top targets}

theorem Fits.to {w : VertexId} {scopes : List NodeKind} (hw : w ∈ targets) (h : Placed graph top w scopes) :
    Fits graph top targets scopes (.to w) := ⟨scopes, rfl, hw, h.before_eq⟩

theorem Fits.leaving {scopes : List NodeKind} {cont : Continuation} (h : Fits graph top targets scopes cont)
    (kind : NodeKind) : Fits graph top targets (kind :: scopes) (cont.leaving kind) := by
  obtain ⟨rest, rfl, hrest⟩ := h
  exact ⟨rest, rfl, hrest⟩

theorem Fits.handing {v : VertexId} {scopes : List NodeKind} {cont : Continuation}
    (h : Fits graph top targets scopes cont) (hv : graph.openScopes top v = scopes) (kind : FlowKind) :
    (Junction.handing v cont kind).Exact graph top targets := by
  obtain ⟨rest, hscopes, htarget⟩ := h
  obtain ⟨target, ended⟩ := cont
  have hopen : graph.openScopes top v = ended ++ rest := hv.trans hscopes
  cases target with
  | none =>
    have hrest : rest = [] := htarget
    subst hrest
    rw [append_nil] at hopen
    exact ⟨by simp [Junction.handing, hopen], by simp [Junction.handing], by simp [Junction.handing],
      fun _ => hopen.symm⟩
  | some w =>
    obtain ⟨hw, hbefore⟩ := htarget
    refine ⟨?_, by simpa [Junction.handing] using hw, ?_, by simp [Junction.handing]⟩
    · rw [show (Junction.handing v ⟨some w, ended⟩ kind).id = v from rfl, hopen]
      exact prefix_append ended rest
    · simp [Junction.handing, hopen, hbefore]

/-! ## Places -/

theorem Junction.exact_of_next {v : VertexId} {next : List (VertexId × FlowKind)} {scopes : List NodeKind}
    (hv : graph.openScopes top v = scopes) (hne : next ≠ []) (h : ∀ e ∈ next, e.1 ∈ targets ∧
    Placed graph top e.1 scopes) :
    Junction.Exact graph top targets ⟨v, next, []⟩ where
  left_isPrefix := nil_prefix
  next_mem e he := (h e he).1
  drop_left e he := by
    rw [length_nil, drop_zero, hv, (h e he).2.before_eq]
  left_eq hnil := absurd hnil hne

theorem Placed.entry : Placed graph top top [] where
  top_le := Nat.le_refl _
  before_eq := graph.scopesBefore_top top
  open_eq := by rw [graph.openScopes_top, append_nil]

section
variable {v : VertexId} {scopes : List NodeKind} {label : NodeKind} (h : Placed graph top v scopes)
include h

theorem Placed.open_scope (hl : graph.label? v = some label) (ho : label.opensScope = true) :
    graph.openScopes top v = label :: scopes := by
  rw [h.open_eq, CodeGraph.scope?, hl, Option.filter_some, if_pos ho]
  rfl

theorem Placed.open_plain (hl : graph.label? v = some label) (ho : label.opensScope = false) :
    graph.openScopes top v = scopes := by
  rw [h.open_eq, CodeGraph.scope?, hl, Option.filter_some, if_neg (by simp [ho])]
  rfl

theorem Placed.child (forest : graph.IsForest) {c : VertexId} (hc : c ∈ graph.children v) :
    Placed graph top c (graph.openScopes top v) := by
  have hp := forest.parent_of_mem hc
  have hlt := CodeGraph.lt_of_parent? hp
  have hgt := forest.lt_of_mem hc
  have hle := h.top_le
  have hne : c ≠ top := by
    rintro rfl
    exact absurd hgt (Nat.not_lt.mpr hle)
  exact ⟨Nat.le_of_lt (Nat.lt_of_le_of_lt hle hgt), CodeGraph.scopesBefore_of_parent forest hlt hp hne,
    CodeGraph.openScopes_of_parent forest hlt hp hne⟩

theorem Placed.inside (forest : graph.IsForest) (hl : graph.label? v = some label) (ho : label.opensScope = true)
    {parts : List VertexId} (hparts : graph.children v = parts) : ∀ c ∈ parts,
    Placed graph top c (label :: scopes) := by
  intro c hc
  rw [← h.open_scope hl ho]
  exact h.child forest (hparts ▸ hc)

theorem Placed.beside (forest : graph.IsForest) (hl : graph.label? v = some label) (ho : label.opensScope = false)
    {parts : List VertexId} (hparts : graph.children v = parts) : ∀ c ∈ parts, Placed graph top c scopes := by
  intro c hc
  have hchild := h.child forest (hparts ▸ hc)
  rwa [h.open_plain hl ho] at hchild

end

/-! ## Frames -/

theorem Frames.fit_nil : Frames.Fit graph top targets [] where
  onBreak := by simp [breakExit?, innermostLoop?]
  onContinue := by simp [continueExit?, innermostLoop?]

theorem Frames.Fit.scope {frames : Frames} (h : Frames.Fit graph top targets frames) (kind : NodeKind) :
    Frames.Fit graph top targets (⟨kind, none⟩ :: frames) := by
  obtain ⟨hbreak, hcontinue⟩ := forall_exits_scope (fun cont hc => (h.onBreak cont hc).leaving kind)
    (fun cont hc => (h.onContinue cont hc).leaving kind)
  exact ⟨hbreak, hcontinue⟩

theorem Frames.fit_loop {frames : Frames} {exits : LoopExits} (kind : NodeKind)
    (hbreak : Fits graph top targets (Frames.kinds frames) exits.onBreak)
    (hcontinue : ∀ w ∈ exits.onContinue, w ∈ targets ∧ Placed graph top w (kind :: Frames.kinds frames)) :
    Frames.Fit graph top targets (⟨kind, some exits⟩ :: frames) := by
  obtain ⟨hbreak, hcontinue⟩ :=
    forall_exits_loop (hbreak.leaving kind) (fun w hw => .to (hcontinue w hw).1 (hcontinue w hw).2)
  exact ⟨hbreak, hcontinue⟩

/-! ## Statements -/

theorem branch_id_mem_vertices {branch : Branch} (h : branch ∈ branches) :
    branch.id ∈ branchVertices branches := by
  rw [branchVertices_eq]
  refine mem_flatMap.mpr ⟨_, mem_map_of_mem h, ?_⟩
  obtain ⟨id, condition, body⟩ := branch
  exact mem_cons_self

theorem clause_id_mem_vertices {clauses : List Clause} {clause : Clause} (h : clause ∈ clauses) :
    clause.id ∈ clauseVertices clauses := by
  rw [clauseVertices_eq]
  refine mem_flatMap.mpr ⟨_, mem_map_of_mem h, ?_⟩
  obtain ⟨id, kind, cases, body⟩ := clause
  exact mem_cons_self

theorem IsPlain.opensScope_eq_false {v : VertexId} (h : IsPlain graph v) :
    ∃ label, graph.label? v = some label ∧ label.opensScope = false := by
  obtain ⟨label, hl, hs, -⟩ := h
  refine ⟨label, hl, ?_⟩
  cases label <;> first | rfl | simp [NodeKind.isSimple, NodeKind.isDml, NodeKind.isExit] at hs

theorem jump_exact {v : VertexId} {scopes : List NodeKind} {exit : Option Continuation}
    (h : ∀ cont ∈ exit, Fits graph top targets scopes cont) (hv : graph.openScopes top v = scopes) :
    ∀ j ∈ exit.toList.map (Junction.handing v · .sequential), j.Exact graph top targets := by
  intro j hj
  obtain ⟨cont, hc, rfl⟩ := mem_map.mp hj
  exact (h cont (Option.mem_toList.mp hc)).handing hv .sequential

theorem loop_subset {id head : VertexId} {body : Block} {skip : Option Block}
    (h : id :: head :: (body.vertices ++ optionVertices skip) ⊆ targets) :
    id ∈ targets ∧ head ∈ targets ∧ body.vertices ⊆ targets ∧ optionVertices skip ⊆ targets := by
  simpa [append_subset] using h

theorem guardedLoop_exact {id head : VertexId} {body : Block} {skip : Option Block} {scopes : List NodeKind}
    (hid : graph.openScopes top id = scopes) (hopen : graph.openScopes top head = scopes) (onBody onSkip : FlowKind)
    (hplaced : ∀ v ∈ head :: body.id :: skip.toList.map Block.id, Placed graph top v scopes) (hhead : head ∈ targets)
    (hbody : body.vertices ⊆ targets) (hskip : optionVertices skip ⊆ targets) :
    ∀ j ∈ [⟨id, [(head, .sequential)], []⟩,
    ⟨head, (body.id, onBody) :: skip.toList.map fun skip => (skip.id, onSkip), []⟩],
    Junction.Exact graph top targets j := by
  simp only [forall_mem_cons, forall_mem_map] at hplaced
  obtain ⟨hphead, hpbody, hpskip⟩ := hplaced
  refine forall_mem_cons.mpr ⟨?_, forall_mem_cons.mpr ⟨?_, by simp⟩⟩
  · exact Junction.exact_of_next hid (cons_ne_nil _ _) (by simpa using ⟨hhead, hphead⟩)
  · refine Junction.exact_of_next hopen (cons_ne_nil _ _) ?_
    refine forall_mem_cons.mpr ⟨⟨hbody body.id_mem_vertices, hpbody⟩, forall_mem_map.mpr fun block hb => ?_⟩
    obtain rfl := Option.mem_toList.mp hb
    exact ⟨hskip block.id_mem_vertices, hpskip block hb⟩

theorem loopHead_exact {id body : VertexId} {init skip : Option VertexId} {scopes : List NodeKind}
    (hid : graph.openScopes top id = scopes) (hinit : ∀ v ∈ init, graph.openScopes top v = scopes)
    (hcondition : ∀ v ∈ condition, graph.openScopes top v = scopes)
    (hplaced : ∀ v ∈ init.toList ++ condition.toList ++ body :: skip.toList, v ∈ targets ∧ Placed graph top v scopes) :
    ∀ j ∈ loopHeadJunctions id init condition body skip, j.Exact graph top targets := by
  have hentry : condition.getD body ∈ targets ∧ Placed graph top (condition.getD body) scopes :=
    hplaced _ (by cases condition <;> simp)
  have hcond : ∀ v ∈ condition, Junction.Exact graph top targets
      ⟨v, (body, .positive) :: skip.toList.map (·, .negative), []⟩ := by
    intro v hv
    refine Junction.exact_of_next (hcondition v hv) (cons_ne_nil _ _) fun e he => ?_
    rcases mem_cons.mp he with rfl | he
    · exact hplaced body (by simp)
    · obtain ⟨w, hw, rfl⟩ := mem_map.mp he
      exact hplaced w (by simp [Option.mem_toList.mp hw])
  have hnext : ∀ v, graph.openScopes top v = scopes → ∀ w, w ∈ targets ∧ Placed graph top w scopes →
      Junction.Exact graph top targets ⟨v, [(w, .sequential)], []⟩ := by
    intro v hv w hw
    exact Junction.exact_of_next hv (cons_ne_nil _ _) (by simpa using hw)
  intro j hj
  simp only [loopHeadJunctions, mem_append] at hj
  rcases hj with hj | hj
  · cases init with
    | none =>
      rw [mem_singleton.mp hj]
      exact hnext id hid _ hentry
    | some init =>
      rcases mem_cons.mp hj with rfl | hj
      · exact hnext id hid _ (hplaced init (by simp))
      · rw [mem_singleton.mp hj]
        exact hnext init (hinit init rfl) _ hentry
  · obtain ⟨v, hv, rfl⟩ := mem_map.mp hj
    exact hcond v (Option.mem_toList.mp hv)

section
variable (graph top targets)

/-- In place under frames and a continuation that fit, and with its vertices among the targets, the junctions of the
statement are exact. -/
def Statement.Exact (s : Statement) : Prop :=
  ∀ frames cont, s.Holds graph → Frames.Fit graph top targets frames → Placed graph top s.id (Frames.kinds frames) →
    Fits graph top targets (Frames.kinds frames) cont → s.vertices ⊆ targets →
    ∀ j ∈ s.junctions frames cont, j.Exact graph top targets

@[inherit_doc Statement.Exact]
def Block.Exact (b : Block) : Prop :=
  ∀ frames cont, b.Holds graph → Frames.Fit graph top targets frames → Placed graph top b.id (Frames.kinds frames) →
    Fits graph top targets (Frames.kinds frames) cont → b.vertices ⊆ targets →
    ∀ j ∈ b.junctions frames cont, j.Exact graph top targets

end

/-! ## Parts of statements -/

section
variable {frames : Frames} {cont : Continuation}

theorem option_exact {b : Option Block} (exact_ : ∀ block ∈ b, block.Exact graph top targets) (h : optionHolds graph b)
    (hf : Frames.Fit graph top targets frames) (hp : ∀ v ∈ b.toList.map Block.id,
    Placed graph top v (Frames.kinds frames))
    (hc : Fits graph top targets (Frames.kinds frames) cont) (ht : optionVertices b ⊆ targets) :
    ∀ j ∈ optionJunctions frames cont b, j.Exact graph top targets := by
  cases b with
  | none => simp [optionJunctions]
  | some block => exact exact_ block rfl frames cont h hf (hp block.id (by simp)) hc ht

theorem sequence_exact {body : List Statement} (exact_ : ∀ s ∈ body, s.Exact graph top targets)
    (h : statementsHold graph body) (hf : Frames.Fit graph top targets frames)
    (hp : ∀ v ∈ body.map Statement.id, Placed graph top v (Frames.kinds frames))
    (hc : Fits graph top targets (Frames.kinds frames) cont) (ht : sequenceVertices body ⊆ targets) :
    ∀ j ∈ sequenceJunctions frames cont body, j.Exact graph top targets := by
  induction body with
  | nil => simp [sequenceJunctions]
  | cons first rest ih =>
    obtain ⟨hpfirst, hprest⟩ := forall_mem_cons.mp hp
    obtain ⟨htfirst, htrest⟩ := append_subset.mp ht
    obtain ⟨hexact, hexactRest⟩ := forall_mem_cons.mp exact_
    have hnext : Fits graph top targets (Frames.kinds frames)
        ((rest.head?.map fun next => Continuation.to next.id).getD cont) := by
      cases rest with
      | nil => exact hc
      | cons next rest => exact .to (htrest (mem_append_left _ next.id_mem_vertices)) (hprest next.id (by simp))
    exact forall_mem_append.mpr ⟨hexact frames _ h.1 hf hpfirst hnext htfirst, ih hexactRest h.2 hprest htrest⟩

variable (forest : graph.IsForest)
include forest

theorem block_exact {id : VertexId} {body : List Statement} (exact_ : ∀ s ∈ body, s.Exact graph top targets) :
    (Block.mk id body).Exact graph top targets := by
  intro frames cont ⟨hlabel, hchildren, hbody⟩ hf hp hc ht
  cases body with
  | nil =>
    intro j hj
    rw [mem_singleton.mp hj]
    exact (hc.leaving .blockStatement).handing (hp.open_scope hlabel rfl) .sequential
  | cons first rest =>
    have hplaced := hp.inside forest hlabel rfl hchildren
    have htargets := (cons_subset.mp ht).2
    refine forall_mem_cons.mpr ⟨?_, sequence_exact exact_ hbody (hf.scope _) hplaced (hc.leaving _) htargets⟩
    refine Junction.exact_of_next (hp.open_scope hlabel rfl) (cons_ne_nil _ _) ?_
    simpa using ⟨htargets (mem_append_left _ first.id_mem_vertices), hplaced first.id (by simp)⟩

theorem branches_exact (exact_ : ∀ branch ∈ branches, branch.body.Exact graph top targets)
    {otherwise : Option VertexId} (h : branchesHold graph branches) (hf : Frames.Fit graph top targets frames)
    (hp : ∀ v ∈ branches.map Branch.id, Placed graph top v (Frames.kinds frames))
    (ho : ∀ v ∈ otherwise, v ∈ targets ∧ Placed graph top v (Frames.kinds frames))
    (hc : Fits graph top targets (Frames.kinds frames) cont) (ht : branchVertices branches ⊆ targets) :
    ∀ j ∈ branchJunctions frames cont otherwise branches, j.Exact graph top targets := by
  induction branches with
  | nil => simp [branchJunctions]
  | cons branch rest ih =>
    obtain ⟨id, condition, body⟩ := branch
    obtain ⟨hlabel, hchildren, hcondition, hbody, hrest⟩ := h
    obtain ⟨hpid, hprest⟩ := forall_mem_cons.mp hp
    obtain ⟨hexact, hexactRest⟩ := forall_mem_cons.mp exact_
    have hplaced := hpid.beside forest hlabel rfl hchildren
    obtain ⟨htcondition, ht⟩ := cons_subset.mp (cons_subset.mp ht).2
    obtain ⟨htbody, htrest⟩ := append_subset.mp ht
    have hpcondition := hplaced condition (by simp)
    have hpbody := hplaced body.id (by simp)
    have hnext : ∀ v ∈ (rest.head?.map Branch.id).or otherwise, v ∈ targets ∧
        Placed graph top v (Frames.kinds frames) := by
      cases rest with
      | nil => exact ho
      | cons next rest =>
        intro v hv
        cases hv
        exact ⟨htrest (branch_id_mem_vertices mem_cons_self), hprest next.id (by simp)⟩
    have hb := hexact frames cont hbody hf hpbody hc htbody
    have hr := ih hexactRest hrest hprest htrest
    refine forall_mem_cons.mpr ⟨?_, forall_mem_cons.mpr ⟨?_, forall_mem_append.mpr ⟨hb, hr⟩⟩⟩
    · exact Junction.exact_of_next (hpid.open_plain hlabel rfl) (cons_ne_nil _ _)
        (by simpa using ⟨htcondition, hpcondition⟩)
    · refine Junction.exact_of_next (hpcondition.open_plain hcondition rfl) (cons_ne_nil _ _) ?_
      refine forall_mem_cons.mpr ⟨⟨htbody body.id_mem_vertices, hpbody⟩, ?_⟩
      exact forall_mem_map.mpr fun v hv => hnext v (Option.mem_toList.mp hv)

theorem clauses_exact {clauses : List Clause} (exact_ : ∀ clause ∈ clauses, clause.body.Exact graph top targets)
    {kinds : NodeKind → Bool} (hk : ∀ kind, kinds kind = true → kind.opensScope = true)
    (h : clausesHold graph kinds clauses)
    (hf : Frames.Fit graph top targets frames)
    (hp : ∀ v ∈ clauses.map Clause.id, Placed graph top v (Frames.kinds frames))
    (hc : Fits graph top targets (Frames.kinds frames) cont) (ht : clauseVertices clauses ⊆ targets) :
    ∀ j ∈ clauseJunctions frames cont clauses, j.Exact graph top targets := by
  induction clauses with
  | nil => simp [clauseJunctions]
  | cons clause rest ih =>
    obtain ⟨id, kind, cases, body⟩ := clause
    obtain ⟨hlabel, hkind, hchildren, hbody, hrest⟩ := h
    obtain ⟨hpid, hprest⟩ := forall_mem_cons.mp hp
    obtain ⟨hexact, hexactRest⟩ := forall_mem_cons.mp exact_
    have hplaced := hpid.inside forest hlabel (hk kind hkind) hchildren
    obtain ⟨htbody, htrest⟩ := append_subset.mp (cons_subset.mp ht).2
    have hpbody := hplaced body.id (by simp)
    have hb := hexact (⟨kind, none⟩ :: frames) (cont.leaving kind) hbody (hf.scope kind) hpbody (hc.leaving kind) htbody
    refine forall_mem_cons.mpr ⟨?_, forall_mem_append.mpr ⟨hb, ih hexactRest hrest hprest htrest⟩⟩
    exact Junction.exact_of_next (hpid.open_scope hlabel (hk kind hkind)) (cons_ne_nil _ _)
      (by simpa using ⟨htbody body.id_mem_vertices, hpbody⟩)

end

/-! ## Compound statements -/

section
variable (forest : graph.IsForest)
include forest

theorem ifElse_exact {id : VertexId} {otherwise : Option Block}
    (exact_ : ∀ branch ∈ branches, branch.body.Exact graph top targets)
    (exactElse : ∀ block ∈ otherwise, block.Exact graph top targets) :
    (Statement.ifElse id branches otherwise).Exact graph top targets := by
  intro frames cont ⟨hlabel, hne, hchildren, hbranches, hotherwise⟩ hf hp hc ht
  obtain ⟨hplaced, hplacedElse⟩ := forall_mem_append.mp (hp.inside forest hlabel rfl hchildren)
  obtain ⟨htbranches, htelse⟩ := append_subset.mp (cons_subset.mp ht).2
  have helse : ∀ v ∈ otherwise.map Block.id,
      v ∈ targets ∧ Placed graph top v (.ifElseBlockStatement :: Frames.kinds frames) := by
    intro v hv
    obtain ⟨block, rfl, rfl⟩ := Option.map_eq_some_iff.mp hv
    exact ⟨htelse block.id_mem_vertices, hplacedElse _ (by simp)⟩
  refine forall_mem_cons.mpr ⟨?_, forall_mem_append.mpr ⟨?_, ?_⟩⟩
  · refine Junction.exact_of_next (hp.open_scope hlabel rfl) (by simpa using hne) ?_
    obtain ⟨first, rest, rfl⟩ := exists_cons_of_ne_nil hne
    simpa using ⟨htbranches (branch_id_mem_vertices mem_cons_self), hplaced first.id (by simp)⟩
  · exact branches_exact forest exact_ hbranches (hf.scope _) hplaced helse (hc.leaving _) htbranches
  · exact option_exact exactElse hotherwise (hf.scope _) hplacedElse (hc.leaving _) htelse

section
variable {id : VertexId} {body : Block} {skip : Option Block} (exact_ : body.Exact graph top targets)
  (exactSkip : ∀ block ∈ skip, block.Exact graph top targets)
include exact_ exactSkip

theorem whileLoop_exact {condition : VertexId} :
    (Statement.whileLoop id condition body skip).Exact graph top targets := by
  intro frames cont ⟨hlabel, hchildren, hcondition, hbody, hskip, _⟩ hf hp hc ht
  have hplaced := hp.inside forest hlabel rfl hchildren
  obtain ⟨-, hhead, htbody, htskip⟩ := loop_subset ht
  have hpcondition := hplaced condition (by simp)
  have hloop : Frames.Fit graph top targets (⟨.whileLoopStatement, some ⟨cont, none⟩⟩ :: frames) :=
    Frames.fit_loop .whileLoopStatement hc (by simp)
  have hb := exact_ _ _ hbody hloop (hplaced body.id (by simp)) (hc.leaving _) htbody
  have hs := option_exact exactSkip hskip hloop (fun v hv => hplaced v (by simp [hv])) (hc.leaving _) htskip
  have hg := guardedLoop_exact (hp.open_scope hlabel rfl) (hpcondition.open_plain hcondition rfl) .positive .negative
    hplaced hhead htbody htskip
  exact forall_mem_append.mpr ⟨hg, forall_mem_append.mpr ⟨hb, hs⟩⟩

theorem forEach_exact {variable_ iterable : VertexId} :
    (Statement.forEach id variable_ iterable body skip).Exact graph top targets := by
  intro frames cont ⟨hlabel, hchildren, hvariable, _, hbody, hskip, _⟩ hf hp hc ht
  have hplaced := hp.inside forest hlabel rfl hchildren
  obtain ⟨-, hhead, htbody, htskip⟩ := loop_subset ht
  obtain ⟨hpvariable, hprest⟩ := forall_mem_cons.mp hplaced
  obtain ⟨-, hpblocks⟩ := forall_mem_cons.mp hprest
  have hloop : Frames.Fit graph top targets (⟨.forEachStatement, some ⟨cont, none⟩⟩ :: frames) :=
    Frames.fit_loop .forEachStatement hc (by simp)
  have hb := exact_ _ _ hbody hloop (hplaced body.id (by simp)) (hc.leaving _) htbody
  have hs := option_exact exactSkip hskip hloop (fun v hv => hplaced v (by simp [hv])) (hc.leaving _) htskip
  have hg := guardedLoop_exact (hp.open_scope hlabel rfl) (hpvariable.open_plain hvariable rfl) .sequential .sequential
    (forall_mem_cons.mpr ⟨hpvariable, hpblocks⟩) hhead htbody htskip
  exact forall_mem_append.mpr ⟨hg, forall_mem_append.mpr ⟨hb, hs⟩⟩

theorem forLoop_exact {init update : Option VertexId} :
    (Statement.forLoop id init condition update body skip).Exact graph top targets := by
  intro frames cont ⟨hlabel, hchildren, _, _, _, hinit, hcondition, hupdate, hbody, hskip, _⟩ hf hp hc ht
  have hplaced := hp.inside forest hlabel rfl hchildren
  obtain ⟨ht, htskip⟩ := append_subset.mp (cons_subset.mp ht).2
  obtain ⟨ht, htupdate⟩ := append_subset.mp ht
  obtain ⟨hthead, htbody⟩ := append_subset.mp ht
  obtain ⟨htinit, htcondition⟩ := append_subset.mp hthead
  have hpbody := hplaced body.id (by simp)
  have hpskip : ∀ v ∈ skip.toList.map Block.id, Placed graph top v (.forLoopStatement :: Frames.kinds frames) :=
    fun v hv => hplaced v (by simp [hv])
  have hinskip : ∀ v ∈ (skip.map Block.id).toList,
      v ∈ targets ∧ Placed graph top v (.forLoopStatement :: Frames.kinds frames) := by
    cases skip with
    | none => simp
    | some block => simpa using ⟨htskip block.id_mem_vertices, hpskip block.id (by simp)⟩
  have hpinit : ∀ v ∈ init, v ∈ targets ∧ Placed graph top v (.forLoopStatement :: Frames.kinds frames) :=
    fun v hv => ⟨htinit (Option.mem_toList.mpr hv), hplaced v (by simp [Option.mem_def.mp hv])⟩
  have hpcondition : ∀ v ∈ condition, v ∈ targets ∧ Placed graph top v (.forLoopStatement :: Frames.kinds frames) :=
    fun v hv => ⟨htcondition (Option.mem_toList.mpr hv), hplaced v (by simp [Option.mem_def.mp hv])⟩
  have hpupdate : ∀ v ∈ update, v ∈ targets ∧ Placed graph top v (.forLoopStatement :: Frames.kinds frames) :=
    fun v hv => ⟨htupdate (Option.mem_toList.mpr hv), hplaced v (by simp [Option.mem_def.mp hv])⟩
  have hloop : Frames.Fit graph top targets (⟨.forLoopStatement, some ⟨cont, update⟩⟩ :: frames) :=
    Frames.fit_loop .forLoopStatement hc hpupdate
  have hafter : Fits graph top targets (.forLoopStatement :: Frames.kinds frames)
      ((update.map Continuation.to).getD (cont.leaving .forLoopStatement)) := by
    cases update with
    | none => exact hc.leaving _
    | some v => exact .to (hpupdate v rfl).1 (hpupdate v rfl).2
  have hhead := loopHead_exact (hp.open_scope hlabel rfl)
    (fun v hv => (hinit v hv).opensScope_eq_false.elim fun _ hl => (hpinit v hv).2.open_plain hl.1 hl.2)
    (fun v hv => (hpcondition v hv).2.open_plain (hcondition v hv) rfl)
    (forall_mem_append.mpr ⟨forall_mem_append.mpr ⟨fun v hv => hpinit v (Option.mem_toList.mp hv),
      fun v hv => hpcondition v (Option.mem_toList.mp hv)⟩,
      forall_mem_cons.mpr ⟨⟨htbody body.id_mem_vertices, hpbody⟩, hinskip⟩⟩)
  have hb := exact_ _ _ hbody hloop hpbody hafter htbody
  have hu : ∀ j ∈ update.toList.map (Junction.handing · (cont.leaving .forLoopStatement) .sequential),
      j.Exact graph top targets := by
    refine forall_mem_map.mpr fun v hv => ?_
    obtain ⟨label, hl, ho⟩ := (hupdate v (Option.mem_toList.mp hv)).opensScope_eq_false
    exact (hc.leaving .forLoopStatement).handing ((hpupdate v (Option.mem_toList.mp hv)).2.open_plain hl ho) .sequential
  have hs := option_exact exactSkip hskip hloop hpskip (hc.leaving _) htskip
  exact forall_mem_append.mpr
    ⟨forall_mem_append.mpr ⟨forall_mem_append.mpr ⟨hhead, hb⟩, hu⟩, hs⟩

omit exactSkip in
theorem doLoop_exact {condition : VertexId} : (Statement.doLoop id body condition).Exact graph top targets := by
  intro frames cont ⟨hlabel, hchildren, hcondition, hbody⟩ hf hp hc ht
  have hplaced := hp.inside forest hlabel rfl hchildren
  obtain ⟨htbody, htcondition⟩ := append_subset.mp (cons_subset.mp ht).2
  have hpcondition := hplaced condition (by simp)
  have hpbody := hplaced body.id (by simp)
  have hincondition : condition ∈ targets := htcondition mem_cons_self
  have hloop : Frames.Fit graph top targets (⟨.doLoopStatement, some ⟨cont, some condition⟩⟩ :: frames) :=
    Frames.fit_loop .doLoopStatement hc (by simpa using ⟨hincondition, hpcondition⟩)
  have hb := exact_ _ _ hbody hloop hpbody (.to hincondition hpcondition) htbody
  have hlast := (hc.leaving .doLoopStatement).handing (hpcondition.open_plain hcondition rfl) .negative
  refine forall_mem_cons.mpr ⟨?_, forall_mem_append.mpr ⟨hb, by simpa using hlast⟩⟩
  exact Junction.exact_of_next (hp.open_scope hlabel rfl) (cons_ne_nil _ _)
    (by simpa using ⟨htbody body.id_mem_vertices, hpbody⟩)

end

theorem switch_exact {id subject : VertexId} {whens : List Clause}
    (exact_ : ∀ clause ∈ whens, clause.body.Exact graph top targets) :
    (Statement.switch id subject whens).Exact graph top targets := by
  intro frames cont ⟨hlabel, hchildren, ⟨label, hsubject, hexpression⟩, hwhens⟩ hf hp hc ht
  have hplaced := hp.inside forest hlabel rfl hchildren
  obtain ⟨hpsubject, hpwhens⟩ := forall_mem_cons.mp hplaced
  obtain ⟨htsubject, htwhens⟩ := cons_subset.mp (cons_subset.mp ht).2
  have hopen := hpsubject.open_plain hsubject (NodeKind.opensScope_of_isExpression hexpression)
  have hw := clauses_exact forest exact_ (fun _ => NodeKind.opensScope_of_isWhenBlock) hwhens (hf.scope _) hpwhens
    (hc.leaving .switchStatement) htwhens
  refine forall_mem_cons.mpr ⟨?_, forall_mem_cons.mpr ⟨?_, hw⟩⟩
  · exact Junction.exact_of_next (hp.open_scope hlabel rfl) (cons_ne_nil _ _) (by simpa using ⟨htsubject, hpsubject⟩)
  · split
    · exact (hc.leaving .switchStatement).handing hopen .sequential
    · rename_i hne
      refine Junction.exact_of_next hopen (by simpa using hne) (forall_mem_map.mpr fun clause hclause => ?_)
      exact ⟨htwhens (clause_id_mem_vertices hclause), hpwhens clause.id (mem_map_of_mem hclause)⟩

theorem tryCatch_exact {id : VertexId} {body : Block} {catches : List Clause} {final : Option Block}
    (exact_ : body.Exact graph top targets) (exactCatches : ∀ clause ∈ catches, clause.body.Exact graph top targets)
    (exactFinal : ∀ block ∈ final, block.Exact graph top targets) :
    (Statement.tryCatch id body catches final).Exact graph top targets := by
  intro frames cont ⟨hlabel, hchildren, _, hbody, hcatches, _, hfinal⟩ hf hp hc ht
  have hplaced := hp.inside forest hlabel rfl hchildren
  obtain ⟨hpbody, hprest⟩ := forall_mem_cons.mp hplaced
  obtain ⟨hpcatches, hpfinal⟩ := forall_mem_append.mp hprest
  obtain ⟨ht, htfinal⟩ := append_subset.mp (cons_subset.mp ht).2
  obtain ⟨htbody, htcatches⟩ := append_subset.mp ht
  have hafter : Fits graph top targets (.tryCatchFinallyBlockStatement :: Frames.kinds frames)
      ((final.map fun block => Continuation.to block.id).getD (cont.leaving .tryCatchFinallyBlockStatement)) := by
    cases final with
    | none => exact hc.leaving _
    | some block => exact .to (htfinal block.id_mem_vertices) (hpfinal block.id (by simp))
  have hb := exact_ _ _ hbody (hf.scope _) hpbody hafter htbody
  have hcs := clauses_exact forest exactCatches (by simp [NodeKind.opensScope]) hcatches (hf.scope _) hpcatches
    hafter htcatches
  have hfs := option_exact exactFinal hfinal (hf.scope _) hpfinal (hc.leaving _) htfinal
  refine forall_mem_cons.mpr ⟨?_, forall_mem_append.mpr ⟨forall_mem_append.mpr ⟨hb, hcs⟩, hfs⟩⟩
  refine Junction.exact_of_next (hp.open_scope hlabel rfl) (cons_ne_nil _ _) ?_
  refine forall_mem_cons.mpr ⟨⟨htbody body.id_mem_vertices, hpbody⟩, forall_mem_map.mpr fun clause hclause => ?_⟩
  exact ⟨htcatches (clause_id_mem_vertices hclause), hpcatches clause.id (mem_map_of_mem hclause)⟩

/-! ## All statements -/

/-- End scopes are exact; one case for each kind of statement. -/
theorem inductive_exact : Statement.Inductive (Statement.Exact graph top targets) (Block.Exact graph top targets) where
  simple id := by
    intro frames cont h _ hp hc _ j hj
    obtain ⟨label, hl, ho⟩ := IsPlain.opensScope_eq_false h
    rw [mem_singleton.mp hj]
    exact hc.handing (hp.open_plain hl ho) .sequential
  exit id := by
    intro frames cont h _ hp _ _ j hj
    have hopen : graph.openScopes top id = Frames.kinds frames :=
      h.elim (fun h => hp.open_plain h rfl) fun h => hp.open_plain h rfl
    rw [mem_singleton.mp hj]
    exact ⟨by rw [hopen]; exact prefix_refl _, by simp, by simp, fun _ => hopen.symm⟩
  breaks _ _ _ h hf hp _ _ := jump_exact hf.onBreak (hp.open_plain h rfl)
  continues _ _ _ h hf hp _ _ := jump_exact hf.onContinue (hp.open_plain h rfl)
  nested _ exact_ := exact_
  ifElse _ _ _ := ifElse_exact forest
  whileLoop _ _ _ _ body skip := whileLoop_exact forest body skip
  forEach _ _ _ _ _ body skip := forEach_exact forest body skip
  forLoop _ _ _ _ _ _ body skip := forLoop_exact forest body skip
  doLoop _ _ _ body := doLoop_exact forest body
  switch _ _ _ := switch_exact forest
  tryCatch _ _ _ _ := tryCatch_exact forest
  block _ _ := block_exact forest

theorem Block.exact (b : Block) : b.Exact graph top targets := (inductive_exact forest).forall_block b

end

end

/-! ## Methods -/

section
variable {graph : CodeGraph}

/-- Below a vertex no flow is laid and no scope is closed yet. -/
def Untouched (graph : CodeGraph) (top : VertexId) : Prop :=
  ∀ v, graph.Below top v → graph.hasFlowEdges v = false ∧ graph.property? v (.fact .endScopes) = none

theorem Untouched.flowSuccessors_eq {top v : VertexId} (h : Untouched graph top) (hv : graph.Below top v) :
    graph.flowSuccessors v = [] := by
  have hedges := (h v hv).1
  simp only [CodeGraph.hasFlowEdges, Bool.or_eq_false_iff, Bool.not_eq_false', List.isEmpty_iff] at hedges
  exact hedges.1

theorem Untouched.flowPredecessors_eq {top v : VertexId} (h : Untouched graph top) (hv : graph.Below top v) :
    graph.flowPredecessors v = [] := by
  have hedges := (h v hv).1
  simp only [CodeGraph.hasFlowEdges, Bool.or_eq_false_iff, Bool.not_eq_false', List.isEmpty_iff] at hedges
  exact hedges.2

theorem bodyPlan_follows (forest : graph.IsForest) {b : Block} (h : b.Holds graph) :
    Follows graph (bodyPlan graph b.id) (b.fault? false) ((b.junctions [] {}).flatMap Junction.steps) := by
  have hlaid := b.laid forest graph.vertexCount h (by omega)
  exact hlaid [] {}

def Block.bodyJunctions (b : Block) : List Junction := b.junctions [] {}

/-- The graph with the control flow of a method's body. -/
def Block.layIn (graph : CodeGraph) (b : Block) : CodeGraph :=
  (b.bodyJunctions.flatMap Junction.steps).foldl Step.apply graph

theorem Block.sameTree_layIn (graph : CodeGraph) (b : Block) : graph.SameTree (b.layIn graph) := sameTree_steps graph _

/-- Control flow of a method that was not done before is laid, or its first fault is reported. -/
theorem synthesize_eq (forest : graph.IsForest) {method : VertexId} {b : Block} (hm : graph.is method .method = true)
    (hb : lastBlock? graph method = some b.id) (h : b.Holds graph) (fresh : Untouched graph b.id) :
    match b.fault? false with
    | none => synthesize graph method = (.ok true, b.layIn graph)
    | some fault => (synthesize graph method).1 = .error (fault.error graph) := by
  obtain ⟨hedges, hended⟩ := fresh b.id (.refl (graph.lt_of_label? h.label))
  have hpending : pendingBody? graph method = some b.id := by
    simp [pendingBody?, hb, hedges, hended]
  have hplan := bodyPlan_follows forest h
  rw [synthesize, if_pos hm, hpending]
  cases hf : b.fault? false with
  | none =>
    rw [hf] at hplan
    have hplan : bodyPlan graph b.id = ⟨_, .ok ()⟩ := hplan
    simp only [hplan]
    rfl
  | some fault =>
    rw [hf] at hplan
    have hplan : (bodyPlan graph b.id).result = .error _ := hplan
    simp only [hplan]
    rfl

/-- Control passes a vertex: it is the entry, or it lies on an edge, or scopes end at it. -/
def Passes (graph : CodeGraph) (entry v : VertexId) : Prop :=
  v = entry ∨ graph.hasFlowEdges v = true ∨ (graph.property? v (.fact .endScopes)).isSome = true

/-- Ended scopes are exact below the body of a method. -/
structure ScopesExact (graph : CodeGraph) (body : VertexId) : Prop where
  endScopes_isPrefix : ∀ v, graph.Below body v → Passes graph body v → graph.endScopes v <+: graph.openScopes body v
  drop_endScopes : ∀ v, graph.Below body v → ∀ e ∈ graph.flowSuccessors v,
    (graph.openScopes body v).drop (graph.endScopes v).length = graph.scopesBefore body e.1
  endScopes_eq : ∀ v, graph.Below body v → Passes graph body v → graph.flowSuccessors v = [] →
    graph.endScopes v = graph.openScopes body v

section
variable (forest : graph.IsForest) {b : Block} (h : b.Holds graph)
include forest h

theorem bodyJunctions_exact : ∀ j ∈ b.bodyJunctions, j.Exact graph b.id b.vertices :=
  b.exact forest [] {} h Frames.fit_nil .entry ⟨[], rfl, rfl⟩ (List.Subset.refl _)

variable (hfault : b.fault? false = none)
include hfault

omit forest h in
theorem bodyJunctions_ids : b.bodyJunctions.map Junction.id = b.vertices := b.junction_ids [] {} hfault

theorem bodyJunctions_inRange : ∀ j ∈ b.bodyJunctions, j.InRange graph.vertexCount := by
  intro j hj
  have hbelow := (b.spans forest h).2
  have hid : j.id ∈ b.vertices := by
    rw [← bodyJunctions_ids hfault]
    exact mem_map_of_mem hj
  exact ⟨(hbelow j.id hid).1, fun e he => (hbelow e.1 ((bodyJunctions_exact forest h j hj).next_mem e he)).1⟩

theorem bodyJunctions_nodup : (b.bodyJunctions.map Junction.id).Nodup := by
  rw [bodyJunctions_ids hfault]
  exact (b.spans forest h).1

theorem bodyJunctions_stand (fresh : Untouched graph b.id) :
    ∀ j ∈ b.bodyJunctions, j.Stands (b.layIn graph) := by
  intro j hj
  have hbelow : graph.Below b.id j.id := by
    refine (b.spans forest h).2 j.id ?_
    rw [← bodyJunctions_ids hfault]
    exact mem_map_of_mem hj
  exact stands_steps (bodyJunctions_inRange forest h hfault) (bodyJunctions_nodup forest h hfault) hj
    (fresh.flowSuccessors_eq hbelow) (fresh j.id hbelow).2

theorem mem_vertices_of_passes (fresh : Untouched graph b.id) {v : VertexId} (hv : graph.Below b.id v)
    (hp : Passes (b.layIn graph) b.id v) : v ∈ b.vertices := by
  have hrange := bodyJunctions_inRange forest h hfault
  refine Decidable.byContradiction fun hmem => ?_
  have hids : v ∉ b.bodyJunctions.map Junction.id := by rwa [bodyJunctions_ids hfault]
  have hnext : (b.layIn graph).flowSuccessors v = [] :=
    (flowSuccessors_of_not_mem hrange hids).trans (fresh.flowSuccessors_eq hv)
  have hended : (b.layIn graph).property? v (.fact .endScopes) = none :=
    (endScopes_of_not_mem hrange hids).trans (fresh v hv).2
  rcases hp with rfl | hp | hp
  · exact hmem b.id_mem_vertices
  · simp only [CodeGraph.hasFlowEdges, hnext, isEmpty_nil, Bool.not_true, Bool.false_or, Bool.not_eq_true'] at hp
    obtain ⟨⟨source, kind⟩, hsource⟩ := exists_mem_of_ne_nil _ (isEmpty_eq_false_iff.mp hp)
    rcases mem_flowPredecessors hrange hsource with hold | ⟨j, hj, hnew⟩
    · rw [fresh.flowPredecessors_eq hv] at hold
      exact absurd hold not_mem_nil
    · exact hmem ((bodyJunctions_exact forest h j hj).next_mem _ hnew)
  · rw [hended] at hp
    exact absurd hp Bool.false_ne_true

end

/-- After control flow was laid for a method, the scopes that end in its body are exact: at every vertex
that control passes a first part of the open scopes ends, along every edge the others are those before
the next vertex, and where control ends all of them end. -/
theorem scopesExact_of_synthesize {graph' : CodeGraph} {method : VertexId} {body : Block} {done : Bool}
    (forest : graph.IsForest) (hbody : lastBlock? graph method = some body.id) (h : body.Holds graph)
    (fresh : Untouched graph body.id) (hdone : synthesize graph method = (.ok done, graph')) :
    ScopesExact graph' body.id := by
  have hm : graph.is method .method = true := by
    refine Decidable.byContradiction fun hm => ?_
    rw [synthesize, if_neg hm] at hdone
    exact absurd (Prod.mk.inj hdone).1 (by simp)
  have hrun := synthesize_eq forest hm hbody h fresh
  cases hfault : body.fault? false with
  | some fault =>
    rw [hfault, hdone] at hrun
    exact absurd hrun (by simp)
  | none =>
    rw [hfault, hdone] at hrun
    obtain ⟨-, rfl⟩ := Prod.mk.inj hrun
    have hsame := body.sameTree_layIn graph
    have hstand := bodyJunctions_stand forest h hfault fresh
    have hexact := bodyJunctions_exact forest h
    have hjunction : ∀ v ∈ body.vertices, ∃ j ∈ body.bodyJunctions, j.id = v := by
      intro v hv
      rw [← bodyJunctions_ids hfault] at hv
      exact mem_map.mp hv
    have hpasses : ∀ v, (body.layIn graph).Below body.id v → Passes (body.layIn graph) body.id v → v ∈ body.vertices :=
      fun v hv => mem_vertices_of_passes forest h hfault fresh (hsame.below_iff.mp hv)
    refine ⟨fun v hv hp => ?_, fun v hv e he => ?_, fun v hv hp hnil => ?_⟩
    · obtain ⟨j, hj, rfl⟩ := hjunction v (hpasses v hv hp)
      rw [(hstand j hj).left_eq, hsame.openScopes_eq]
      exact (hexact j hj).left_isPrefix
    · have hp : Passes (body.layIn graph) body.id v :=
        .inr (.inl (by simp [CodeGraph.hasFlowEdges, ne_nil_of_mem he]))
      obtain ⟨j, hj, rfl⟩ := hjunction v (hpasses v hv hp)
      rw [(hstand j hj).next_eq] at he
      rw [(hstand j hj).left_eq, hsame.openScopes_eq, hsame.scopesBefore_eq]
      exact (hexact j hj).drop_left e he
    · obtain ⟨j, hj, rfl⟩ := hjunction v (hpasses v hv hp)
      rw [(hstand j hj).next_eq] at hnil
      rw [(hstand j hj).left_eq, hsame.openScopes_eq]
      exact (hexact j hj).left_eq hnil

end

/-- A method whose body is `while (..) { break; } return;`. -/
def breakingLoop : CodeGraph :=
  let labels : List NodeKind :=
    [.method, .blockStatement, .whileLoopStatement, .standardCondition, .blockStatement, .breakStatement,
    .returnStatement]
  let graph : CodeGraph := labels.foldl (fun graph label => graph.addVertex label .zero) {}
  [(0, 1), (1, 2), (2, 3), (2, 4), (4, 5), (1, 6)].foldl (fun graph (edge : VertexId × VertexId) =>
  graph.addChild edge.1 edge.2) graph

def breakingLoopBody : Block := .mk 1 [.whileLoop 2 3 (.mk 4 [.breaks 5]) none, .exit 6]

theorem breakingLoop_isForest : breakingLoop.IsForest := by decide +kernel

theorem breakingLoop_holds : breakingLoopBody.Holds breakingLoop := by
  simp only [breakingLoopBody, Block.Holds, statementsHold, Statement.Holds, optionHolds, LoopFlags, and_true]
  decide +kernel

theorem breakingLoop_untouched {top : VertexId} : Untouched breakingLoop top := by
  have h : ∀ v ∈ breakingLoop.ids,
      breakingLoop.hasFlowEdges v = false ∧ (breakingLoop.property? v (.fact .endScopes)).isNone = true := by
        decide +kernel
  intro v hv
  have hv := h v (mem_range.mpr hv.1)
  exact ⟨hv.1, Option.isNone_iff_eq_none.mp hv.2⟩

theorem breakingLoop_synthesize : synthesize breakingLoop 0 = (.ok true, breakingLoopBody.layIn breakingLoop) :=
  synthesize_eq breakingLoop_isForest (by decide +kernel) (by decide +kernel) breakingLoop_holds breakingLoop_untouched

/-- The `break` ends its block and the loop; the `return` ends the body. -/
theorem breakingLoop_scopesExact :
    (synthesize breakingLoop 0).2.endScopes 5 = [.blockStatement, .whileLoopStatement] ∧
      (synthesize breakingLoop 0).2.endScopes 6 = [.blockStatement] ∧
      ScopesExact (breakingLoopBody.layIn breakingLoop) 1 :=
  ⟨by decide +kernel, by decide +kernel,
    scopesExact_of_synthesize breakingLoop_isForest (by decide +kernel) breakingLoop_holds breakingLoop_untouched
      breakingLoop_synthesize⟩

end ApexPaths.Flow
