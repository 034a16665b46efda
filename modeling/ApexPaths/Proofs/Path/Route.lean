import ApexPaths.Proofs.Expansion.Built
import ApexPaths.Proofs.Flow.Succession
import Mathlib.Data.List.Chain
import Mathlib.Data.List.Nodup

/-!
Routes through a method's body. A forward path starts at the body, follows control flow, passes no vertex
twice, and ends where all scopes end. What encloses a vertex of the path was passed before it, and of the
declarations beside its ancestors exactly those with smaller numbers were.
-/

set_option autoImplicit false

namespace ApexPaths.Flow

open List

/-! ## No vertex is passed twice -/

namespace Way

def count (way : Way) (a : VertexId) : Nat := (way.vertices.map Prod.fst).count a

theorem count_after (before : List (VertexId × FlowKind)) (way : Way) (a : VertexId) :
    (after before way).count a = (before.map Prod.fst).count a + way.count a := by
  rw [count, after, map_append, count_append, count]

theorem count_round_le (round : Option (VertexId × FlowKind)) (before : List (VertexId × FlowKind)) (way : Way)
    (a : VertexId) : (leavingLoop round (after before (passing round way))).count a ≤
      (before.map Prod.fst).count a + way.count a + (round.toList.map Prod.fst).count a := by
  obtain ⟨vertices, ending⟩ := way
  cases ending <;> simp [leavingLoop, after, passing, count, count_append] <;> omega

theorem count_leavingLoop_le (round : Option (VertexId × FlowKind)) (way : Way) (a : VertexId) :
    (leavingLoop round way).count a ≤ way.count a + (round.toList.map Prod.fst).count a := by
  obtain ⟨vertices, ending⟩ := way
  cases ending <;> simp [leavingLoop, count, count_append]

theorem count_followedBy {next : List Way} {way result : Way} (h : result ∈ followedBy next way) (a : VertexId) :
    ∃ n, result.count a = way.count a + n ∧ (n = 0 ∨ ∃ other ∈ next, n = other.count a) := by
  rw [followedBy] at h
  split at h
  · obtain ⟨other, hother, rfl⟩ := mem_map.mp h
    exact ⟨_, count_after .., .inr ⟨other, hother, rfl⟩⟩
  · rw [mem_singleton.mp h]
    exact ⟨0, rfl, .inl rfl⟩

end Way

/-- No way passes a vertex more often than a list has it. -/
def Among (ways : List Way) (vs : List VertexId) : Prop := ∀ way ∈ ways, ∀ a, way.count a ≤ vs.count a

namespace Among

variable {ways more : List Way} {vs ws : List VertexId}

section
variable (h : Among ways vs)
include h

theorem mono (hle : ∀ a, vs.count a ≤ ws.count a) : Among ways ws :=
  fun way hway a => Nat.le_trans (h way hway a) (hle a)

theorem either (h' : Among more vs) : Among (ways ++ more) vs := forall_mem_append.mpr ⟨h, h'⟩

theorem after (before : List (VertexId × FlowKind)) :
    Among (ways.map (Way.after before)) (before.map Prod.fst ++ vs) := by
  refine forall_mem_map.mpr fun way hway a => ?_
  rw [Way.count_after, count_append]
  exact Nat.add_le_add_left (h way hway a) _

theorem followedBy (h' : Among more ws) : Among (ways.flatMap (Way.followedBy more)) (vs ++ ws) := by
  intro way hway a
  obtain ⟨first, hfirst, hmem⟩ := mem_flatMap.mp hway
  have hle := h first hfirst a
  rw [count_append]
  obtain ⟨n, hcount, rfl | ⟨other, hother, rfl⟩⟩ := Way.count_followedBy hmem a
  · omega
  · have := h' other hother a
    omega

theorem leavingLoop (round : Option (VertexId × FlowKind)) :
    Among (ways.map (Way.leavingLoop round)) (vs ++ round.toList.map Prod.fst) := by
  refine forall_mem_map.mpr fun way hway a => ?_
  rw [count_append]
  exact Nat.le_trans (Way.count_leavingLoop_le round way a) (Nat.add_le_add_right (h way hway a) _)

theorem leavingLoop_none : Among (ways.map (Way.leavingLoop none)) vs := by
  simpa using h.leavingLoop none

/-- One round of a loop passes what prepares the next one at most once. -/
theorem round (before : List (VertexId × FlowKind)) (round : Option (VertexId × FlowKind)) :
    Among (((ways.map (Way.passing round)).map (Way.after before)).map (Way.leavingLoop round))
      (before.map Prod.fst ++ vs ++ round.toList.map Prod.fst) := by
  refine forall_mem_map.mpr (forall_mem_map.mpr (forall_mem_map.mpr fun way hway a => ?_))
  have hle := Way.count_round_le round before way a
  have hway := h way hway a
  rw [count_append, count_append]
  omega

end

end Among

theorem among_optionWays {b : Option Block} (h : ∀ block ∈ b, Among block.ways block.vertices) :
    Among (optionWays b) (optionVertices b) := by
  cases b with
  | none => simp [Among, optionWays]
  | some block => exact h block rfl

theorem among_sequenceWays {body : List Statement} (h : ∀ s ∈ body, Among s.ways s.vertices) :
    Among (sequenceWays body) (sequenceVertices body) := by
  induction body with
  | nil => simp [Among, sequenceWays, Way.count]
  | cons first rest ih =>
    obtain ⟨hfirst, hrest⟩ := forall_mem_cons.mp h
    exact hfirst.followedBy (ih hrest)

theorem among_branchWays {branches : List Branch} (h : ∀ branch ∈ branches, Among branch.body.ways branch.body.vertices)
    {otherwise : List Way} {vs : List VertexId} (hotherwise : Among otherwise vs) :
    Among (branchWays otherwise branches) (branchVertices branches ++ vs) := by
  induction branches with
  | nil => exact hotherwise
  | cons branch rest ih =>
    obtain ⟨id, condition, body⟩ := branch
    obtain ⟨hfirst, hrest⟩ := forall_mem_cons.mp h
    refine ((hfirst.after [(id, .sequential), (condition, .positive)]).mono fun a => ?_).either
      (((ih hrest).after [(id, .sequential), (condition, .negative)]).mono fun a => ?_)
    all_goals
      simp only [branchVertices, Branch.body, map_cons, map_nil, cons_append, nil_append,
        List.append_assoc, count_cons, count_append]
      omega

theorem among_clauseWays {clauses : List Clause} (h : ∀ clause ∈ clauses, Among clause.body.ways clause.body.vertices) :
    Among (clauseWays clauses) (clauseVertices clauses) := by
  induction clauses with
  | nil => simp [Among, clauseWays]
  | cons clause rest ih =>
    obtain ⟨id, kind, cases, body⟩ := clause
    obtain ⟨hfirst, hrest⟩ := forall_mem_cons.mp h
    refine ((hfirst.after [(id, .sequential)]).mono fun a => ?_).either ((ih hrest).mono fun a => ?_)
    all_goals
      simp only [clauseVertices, Clause.body, map_cons, map_nil, cons_append, nil_append,
        count_cons, count_append]
      omega

section
variable {id : VertexId} {body : Block} {skip : Option Block} (h : Among body.ways body.vertices)
  (hskip : ∀ block ∈ skip, Among block.ways block.vertices)
include h hskip

theorem among_whileLoop {condition : VertexId} :
    Among (Statement.whileLoop id condition body skip).ways (Statement.whileLoop id condition body skip).vertices := by
  have hinside := h.after [(id, .sequential), (condition, .positive)]
  have haround := (among_optionWays hskip).after [(id, .sequential), (condition, .negative)]
  refine ((hinside.mono fun a => ?_).either (haround.mono fun a => ?_)).leavingLoop_none
  all_goals
    simp only [Statement.vertices, map_cons, map_nil, cons_append, nil_append, count_cons,
      count_append]
    omega

theorem among_forEach {variable_ iterable : VertexId} :
    Among (Statement.forEach id variable_ iterable body skip).ways
    (Statement.forEach id variable_ iterable body skip).vertices := by
  have hblocks : Among (body.ways ++ optionWays skip) (body.vertices ++ optionVertices skip) :=
    (h.mono fun a => by simp [count_append]).either ((among_optionWays hskip).mono fun a => by simp [count_append])
  exact (hblocks.after [(id, .sequential), (variable_, .sequential)]).leavingLoop_none

theorem among_forLoop {init condition update : Option VertexId} :
    Among (Statement.forLoop id init condition update body skip).ways
      (Statement.forLoop id init condition update body skip).vertices := by
  have hround : (update.map (·, FlowKind.sequential)).toList.map Prod.fst = update.toList := by cases update <;> rfl
  have hhead : ((id, FlowKind.sequential) :: init.toList.map (·, FlowKind.sequential)).map Prod.fst = id ::
      init.toList := by
    cases init <;> rfl
  cases condition with
  | none =>
    refine (h.round ((id, .sequential) :: init.toList.map (·, .sequential)) (update.map (·, .sequential))).mono
      fun a => ?_
    rw [hround, hhead]
    simp only [Statement.vertices, Option.toList_none, append_nil, cons_append, count_cons, count_append]
    omega
  | some condition =>
    have hafter : ∀ before more : List (VertexId × FlowKind), ∀ ways : List Way,
        (ways.map (Way.after more)).map (Way.after before) = ways.map (Way.after (before ++ more)) := by
      simp [Way.after, Function.comp_def]
    simp only [Statement.ways, map_append, hafter]
    refine ((h.round _ _).mono fun a => ?_).either ((((among_optionWays hskip).after _).leavingLoop _).mono fun a => ?_)
    all_goals
      rw [hround, map_append, hhead]
      simp only [Statement.vertices, Option.toList_some, map_cons, map_nil, cons_append, count_cons,
        count_append, count_nil]
      omega

end

/-- One case for each kind of statement. -/
theorem inductive_among :
    Statement.Inductive (fun s => Among s.ways s.vertices) fun b => Among b.ways b.vertices where
  simple id := by simp [Among, Statement.ways, Statement.vertices, Way.count]
  exit id := by simp [Among, Statement.ways, Statement.vertices, Way.count]
  breaks id := by simp [Among, Statement.ways, Statement.vertices, Way.count]
  continues id := by simp [Among, Statement.ways, Statement.vertices, Way.count]
  nested block h := h
  ifElse id branches otherwise h hotherwise :=
    (among_branchWays h (among_optionWays hotherwise)).after [(id, .sequential)]
  whileLoop _ _ _ _ h hskip := among_whileLoop h hskip
  forEach _ _ _ _ _ h hskip := among_forEach h hskip
  forLoop _ _ _ _ _ _ h hskip := among_forLoop h hskip
  doLoop id body condition h := h.round [(id, .sequential)] (some (condition, .negative))
  switch id subject whens h := by
    rw [Statement.ways]
    split
    · simp [Among, Statement.vertices, Way.count, count_cons]
    · exact (among_clauseWays h).after [(id, .sequential), (subject, .case)]
  tryCatch id body catches final h hcatches hfinal := by
    have hguarded : Among (body.ways ++ clauseWays catches) (body.vertices ++ clauseVertices catches) :=
      (h.mono fun a => by simp [count_append]).either ((among_clauseWays hcatches).mono fun a => by simp [count_append])
    have hfirst := hguarded.after [(id, .sequential)]
    cases final with
    | none => exact hfirst.mono fun a => by simp [Statement.vertices, optionVertices]
    | some block => exact hfirst.followedBy (hfinal block rfl)
  block id body h := (among_sequenceWays h).after [(id, .sequential)]

theorem Block.count_ways_le (b : Block) : ∀ way ∈ b.ways, ∀ a, way.count a ≤ b.vertices.count a :=
  inductive_among.forall_block b

theorem ids_closing (vertices : List (VertexId × FlowKind)) :
    (closing vertices).map PathVertex.id = vertices.map Prod.fst := by
  fun_induction closing vertices with
  | case1 => rfl
  | case2 id kind => rfl
  | case3 id kind next rest ih => rw [map_cons, ih, map_cons, map_cons, map_cons]

theorem Block.nodup_trace {b : Block} (h : b.vertices.Nodup) {trace : List PathVertex} (htrace : trace ∈ b.traces) :
    (trace.map PathVertex.id).Nodup ∧ ∀ v ∈ trace.map PathVertex.id, v ∈ b.vertices := by
  obtain ⟨way, hway, rfl⟩ := mem_map.mp htrace
  have hcount := b.count_ways_le way hway
  rw [ids_closing]
  constructor
  · rw [nodup_iff_count_le_one] at h ⊢
    exact fun a => Nat.le_trans (hcount a) (h a)
  · intro v hv
    have hpos : 0 < (way.vertices.map Prod.fst).count v := count_pos_iff.mpr hv
    exact count_pos_iff.mp (Nat.lt_of_lt_of_le hpos (hcount v))

theorem isChain_forwardFrom {graph : CodeGraph} {method : VertexId} (n : Nat) (depth : Int) (v : VertexId)
    (ways : List (List PathVertex)) (h : Path.forwardFrom graph method n depth v = .ok ways) :
    ∀ way ∈ ways, (way.map PathVertex.id).head? = some v ∧
      (way.map PathVertex.id).IsChain (fun a b => b ∈ (graph.flowSuccessors a).map Prod.fst) ∧
      ∀ last ∈ (way.map PathVertex.id).getLast?, graph.flowSuccessors last = [] := by
  induction n generalizing depth v ways with
  | zero => cases h
  | succ n ih =>
    rw [Path.forwardFrom] at h
    by_cases hdepth : depth + Path.scopeChange graph v < 0
    · rw [if_pos hdepth] at h
      obtain ⟨_, h, -⟩ := bind_eq_ok.mp h
      cases h
    rw [if_neg hdepth] at h
    cases hnext : graph.flowSuccessors v with
    | nil =>
      rw [hnext] at h
      by_cases hzero : depth + Path.scopeChange graph v ≠ 0
      · simp only [if_pos hzero] at h
        cases h
      · simp only [if_neg hzero] at h
        cases h
        simp [hnext]
    | cons e next =>
      rw [hnext] at h
      obtain ⟨found, hfound, h⟩ := bind_eq_ok.mp h
      cases h
      intro way hway
      obtain ⟨group, hgroup, hin⟩ := mem_flatten.mp hway
      obtain ⟨edge, hedge, hrun⟩ := exists_of_mapM_eq_ok hfound hgroup
      obtain ⟨rest, hrest, hgroup⟩ := bind_eq_ok.mp hrun
      cases hgroup
      obtain ⟨tail, htail, rfl⟩ := mem_map.mp hin
      obtain ⟨hhead, hchain, hlast⟩ := ih _ edge.1 rest hrest tail htail
      obtain ⟨after, hafter⟩ : ∃ after, tail.map PathVertex.id = edge.1 :: after := by
        cases hids : tail.map PathVertex.id with
        | nil => simp [hids] at hhead
        | cons a after =>
          rw [hids] at hhead
          exact ⟨after, by rw [Option.some.inj hhead]⟩
      rw [map_cons, hafter]
      rw [hafter] at hchain hlast
      refine ⟨rfl, isChain_cons_cons.mpr ⟨?_, hchain⟩, by simpa using hlast⟩
      rw [hnext]
      exact mem_map_of_mem hedge

end ApexPaths.Flow

namespace ApexPaths

open ApexPaths.Flow List

/-! ## Routes -/

/-- A way of control through a method's body, from its entry to an end. -/
structure Route (graph : CodeGraph) (body : VertexId) (ids : List VertexId) : Prop where
  isBlock : graph.label? body = some .blockStatement
  head?_eq : ids.head? = some body
  nodup : ids.Nodup
  below : ∀ v ∈ ids, graph.Below body v
  follows : ids.IsChain graph.Follows
  passes : ∀ v ∈ ids, graph.Passable v
  /-- The scopes that end at a vertex are open there. -/
  ends : ∀ v ∈ ids, (graph.endScopes v).length ≤ (graph.openScopes body v).length
  /-- What does not end at a vertex is open before the next one. -/
  leaves : ids.IsChain fun v w => (graph.openScopes body v).drop (graph.endScopes v).length = graph.scopesBefore body w
  closes : ∀ v ∈ ids.getLast?, graph.endScopes v = graph.openScopes body v

/-- What a built graph has besides its control flow. -/
structure Build.WellPlaced (graph : CodeGraph) : Prop where
  forest : graph.IsForest
  ordered : graph.Ordered
  places : graph.DeclaresInPlace

variable {graph : CodeGraph}

theorem Build.IsGraphOf.wellPlaced {settings : Settings} {sources : List (String × String)}
    (h : Build.IsGraphOf settings sources graph) : Build.WellPlaced graph := by
  obtain ⟨units, stats, hparse, hbuild⟩ := h
  have hread := Source.well_of_parseAll hparse
  have same := Build.sameTree_of_build hread hbuild
  exact ⟨same.isForest (Build.bears_typesGraph settings hread).planted.isForest,
    same.ordered (Build.ordered_typesGraph settings hread),
    same.declaresInPlace (Build.declaresInPlace_typesGraph settings hread)⟩

theorem Path.isMethod_of_forward {method : VertexId} {paths : List CodePath}
    (h : Path.forward graph method = .ok paths) : graph.is method .method = true := by
  refine Decidable.byContradiction fun hnot => ?_
  rw [Path.forward, if_neg hnot] at h
  cases h

/-- A forward path of a method is a route through its body. -/
theorem Build.IsBuilt.route (built : Build.IsBuilt graph) (placed : Build.WellPlaced graph)
    {method : VertexId} {paths : List CodePath} (h : Path.forward graph method = .ok paths) {path : CodePath}
    (hpath : path ∈ paths) :
    ∃ body, graph.body? method = some body ∧ Route graph body path.ids := by
  have hmethod := Path.isMethod_of_forward h
  obtain ⟨found, hfound, hempty⟩ := built.exists_forward hmethod
  cases hfound.symm.trans h
  obtain ⟨body, hbody⟩ := Option.ne_none_iff_exists'.mp fun hnone => ne_nil_of_mem hpath (hempty.mpr hnone)
  obtain ⟨b, rfl, hholds, hfault, hstands, hforward⟩ := built.exists_block hmethod hbody
  rw [hforward] at h
  cases h
  obtain ⟨trace, htrace, rfl⟩ := mem_map.mp hpath
  have forest := placed.forest
  have hspans := b.spans forest hholds
  obtain ⟨hnodup, hinside⟩ := b.nodup_trace hspans.1 htrace
  have hrun := forwardFrom_of_stands forest hholds hfault (.refl graph) hstands method
  obtain ⟨hhead, hchain, hlast⟩ := isChain_forwardFrom _ _ _ _ hrun trace htrace
  -- Every vertex of the trace has its junction, which stands in the graph.
  have hjunction : ∀ v ∈ trace.map PathVertex.id, ∃ j ∈ b.bodyJunctions, j.id = v ∧ j.Stands graph := by
    intro v hv
    have hin := hinside v hv
    rw [← bodyJunctions_ids hfault] at hin
    obtain ⟨j, hj, rfl⟩ := mem_map.mp hin
    exact ⟨j, hj, rfl, hstands j hj⟩
  have hexact := bodyJunctions_exact forest hholds
  have hleads := b.leads forest placed.ordered placed.places [] {} hholds (jumps_nil _) (by simp [Hands])
  have hisBlock : graph.is b.id .blockStatement = true := by
    rw [CodeGraph.body?, CodeGraph.lastBlock?] at hbody
    exact (Option.filter_eq_some_iff.mp hbody).2
  refine ⟨b.id, hbody, graph.is_iff.mp hisBlock, hhead, hnodup, fun v hv => hspans.2 v (hinside v hv), ?_,
    fun v hv => b.passable hholds v (hinside v hv), fun v hv => ?_, ?_, fun v hv => ?_⟩
  · refine hchain.imp_of_mem_imp fun v w hv _ hvw => ?_
    obtain ⟨j, hj, rfl, hstands⟩ := hjunction v hv
    rw [hstands.next_eq] at hvw
    obtain ⟨e, he, rfl⟩ := mem_map.mp hvw
    exact hleads j hj e he
  · obtain ⟨j, hj, rfl, hstands⟩ := hjunction v hv
    rw [hstands.left_eq]
    exact (hexact j hj).left_isPrefix.length_le
  · refine hchain.imp_of_mem_imp fun v w hv _ hvw => ?_
    obtain ⟨j, hj, rfl, hstands⟩ := hjunction v hv
    rw [hstands.next_eq] at hvw
    obtain ⟨e, he, rfl⟩ := mem_map.mp hvw
    rw [hstands.left_eq]
    exact (hexact j hj).drop_left e he
  · obtain ⟨j, hj, rfl, hstands⟩ := hjunction v (mem_of_getLast? hv)
    have hnone := hlast j.id hv
    rw [hstands.next_eq] at hnone
    rw [hstands.left_eq]
    exact (hexact j hj).left_eq hnone

end ApexPaths
