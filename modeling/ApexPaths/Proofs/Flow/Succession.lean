import ApexPaths.Proofs.Build.Order

/-!
Where control goes next, seen in the tree. A successor of a vertex lies directly under the vertex or under
one of its ancestors. Among its siblings that declare variables those come before it that were passed on
the way: a block is passed from left to right, and a loop declares its variables first.
-/

set_option autoImplicit false

namespace ApexPaths.CodeGraph

open List

variable {p w : Nat} {label : NodeKind}

/-- Control may go from `v` to `w`. The vertex `w` lies directly under a vertex `p` on the line of `v`, and the
declarations under `p` before `w` are those up to the child of `p` on this line. -/
def Follows (graph : CodeGraph) (v w : Nat) : Prop :=
  ∃ p ∈ graph.line v, w ∈ graph.children p ∧
    ∀ d : Nat, d ∈ graph.children p → graph.declares d = true →
    (d < w ↔ ∃ c : Nat, c ∈ graph.line v ∧ c ∈ graph.children p ∧ d ≤ c)

/-- No declaration among the children of `p` comes before `w`. -/
def LeadsAmong (graph : CodeGraph) (p w : Nat) : Prop :=
  ∀ d : Nat, d ∈ graph.children p → graph.declares d = true → w ≤ d

/-- The only declaration under `p` is its first child, and `w` is another one. -/
def TrailsAmong (graph : CodeGraph) (p w : Nat) : Prop :=
  ∀ d : Nat, d ∈ graph.children p → graph.declares d = true → (graph.children p).head? = some d ∧ d ≠ w

section
variable {graph : CodeGraph} (forest : graph.IsForest)
include forest

theorem follows_child (hw : w ∈ graph.children p) (leads : graph.LeadsAmong p w) : graph.Follows p w := by
  refine ⟨p, mem_cons_self, hw, fun d hd hdeclares => ⟨fun hlt => ?_, ?_⟩⟩
  · have := leads d hd hdeclares
    omega
  · rintro ⟨c, hc, hchild, -⟩
    have h1 := le_of_mem_line forest hc
    have h2 := forest.lt_of_mem hchild
    omega

theorem follows_sibling {a v : Nat} (ha : a ∈ graph.children p) (hw : w ∈ graph.children p) (hv : graph.Below a v)
    (h : ∀ d : Nat, d ∈ graph.children p → graph.declares d = true → (d < w ↔ d ≤ a)) : graph.Follows v w := by
  have hp : p ∈ graph.line v := (hv.of_child forest ha).2
  refine ⟨p, hp, hw, fun d hd hdeclares => (h d hd hdeclares).trans ⟨fun hle => ⟨a, hv.2, ha, hle⟩, ?_⟩⟩
  rintro ⟨c, hc, hchild, hle⟩
  obtain rfl : c = a := eq_of_mem_line forest (forest.parent_of_mem hchild) (forest.parent_of_mem ha) hv.1 hc hv.2
  exact hle

variable (ordered : graph.Ordered)
include ordered

omit forest in
theorem Ordered.head_le {first c : Nat} (hfirst : (graph.children p).head? = some first) (hc : c ∈ graph.children p) :
    first ≤ c := by
  have hasc := ordered.ascending p
  cases hch : graph.children p with
  | nil => simp [hch] at hc
  | cons x rest =>
    rw [hch] at hfirst hc hasc
    cases hfirst
    rcases mem_cons.mp hc with rfl | hc
    · exact Nat.le_refl _
    · exact Nat.le_of_lt ((pairwise_cons.mp hasc).1 c hc)

theorem follows_trailing {a v : Nat} (ha : a ∈ graph.children p) (hw : w ∈ graph.children p) (hv : graph.Below a v)
    (trails : graph.TrailsAmong p w) : graph.Follows v w := by
  refine follows_sibling forest ha hw hv fun d hd hdeclares => ?_
  obtain ⟨hhead, hne⟩ := trails d hd hdeclares
  have h1 := ordered.head_le hhead ha
  have h2 := ordered.head_le hhead hw
  omega

theorem follows_next {a v : Nat} {before after : List VertexId}
    (hchildren : graph.children p = before ++ a :: w :: after) (hv : graph.Below a v) : graph.Follows v w := by
  refine follows_sibling forest (p := p) (a := a) (by simp [hchildren]) (by simp [hchildren]) hv fun d hd _ => ?_
  have hasc := ordered.ascending p
  rw [hchildren] at hd hasc
  obtain ⟨-, htail, hbefore⟩ := pairwise_append.mp hasc
  obtain ⟨ha, hrest⟩ := pairwise_cons.mp htail
  obtain ⟨hw, -⟩ := pairwise_cons.mp hrest
  have haw : a < w := ha w mem_cons_self
  rcases mem_append.mp hd with hd | hd
  · have hda : d < a := hbefore d hd a mem_cons_self
    omega
  rcases mem_cons.mp hd with rfl | hd
  · omega
  rcases mem_cons.mp hd with rfl | hd
  · omega
  · have hwd : w < d := hw d hd
    omega

omit forest in
theorem leadsAmong_first {after : List VertexId} (hchildren : graph.children p = w :: after) : graph.LeadsAmong p w :=
  fun d hd _ => ordered.head_le (by rw [hchildren]; rfl) hd

end

section
variable {graph : CodeGraph} (places : graph.DeclaresInPlace)
include places

theorem not_declares {p : VertexId} (hlabel : graph.label? p = some label)
    (hkind : label ≠ .blockStatement ∧ label ≠ .forEachStatement ∧ label ≠ .forLoopStatement) {d : VertexId}
    (hd : d ∈ graph.children p) : graph.declares d = false := by
  refine Bool.eq_false_iff.mpr fun hdeclares => ?_
  rcases places p d hd hdeclares with h | ⟨h | ⟨h, -⟩, -⟩ <;> rw [hlabel] at h <;> cases h
  · exact hkind.1 rfl
  · exact hkind.2.1 rfl
  · exact hkind.2.2 rfl

theorem leadsAmong_of_label {p : VertexId} (hlabel : graph.label? p = some label)
    (hkind : label ≠ .blockStatement ∧ label ≠ .forEachStatement ∧ label ≠ .forLoopStatement) (w : VertexId) :
    graph.LeadsAmong p w :=
  fun d hd hdeclares => by simp [not_declares places hlabel hkind hd] at hdeclares

theorem trailsAmong_of_label {p : VertexId} (hlabel : graph.label? p = some label)
    (hkind : label ≠ .blockStatement ∧ label ≠ .forEachStatement ∧ label ≠ .forLoopStatement) (w : VertexId) :
    graph.TrailsAmong p w :=
  fun d hd hdeclares => by simp [not_declares places hlabel hkind hd] at hdeclares

theorem trailsAmong_of_head {p first w : VertexId} (hlabel : graph.label? p ≠ some .blockStatement)
    (hhead : (graph.children p).head? = some first) (hne : first ≠ w) : graph.TrailsAmong p w := by
  intro d hd hdeclares
  obtain ⟨-, hfirst⟩ := (places p d hd hdeclares).resolve_left hlabel
  cases hhead.symm.trans hfirst
  exact ⟨hfirst, hne⟩

theorem not_declares_of_hasInit {p : VertexId} (hlabel : graph.label? p = some .forLoopStatement)
    (hinit : graph.flag p (.fact .hasInit) = false) {d : VertexId} (hd : d ∈ graph.children p) : graph.declares d =
    false := by
  refine Bool.eq_false_iff.mpr fun hdeclares => ?_
  rcases places p d hd hdeclares with h | ⟨h | ⟨-, h⟩, -⟩
  · rw [hlabel] at h
    cases h
  · rw [hlabel] at h
    cases h
  · rw [hinit] at h
    cases h

end

end ApexPaths.CodeGraph

namespace ApexPaths.Flow

open List CodeGraph

variable {top v : VertexId} {frames : Frames}

/-! ## Continuations -/

section
variable (graph : CodeGraph)

/-- From every vertex below `top` control may go to the target of the continuation. -/
def Hands (top : VertexId) (cont : Continuation) : Prop := ∀ w ∈ cont.target, ∀ v, graph.Below top v → graph.Follows v w

/-- The jumps of the innermost loop lead to successors of every vertex below `top`. -/
def Jumps (top : VertexId) (frames : Frames) : Prop :=
  (∀ cont ∈ breakExit? frames, Hands graph top cont) ∧ ∀ cont ∈ continueExit? frames, Hands graph top cont

/-- Each edge of a junction leads to what may follow it. -/
def Junction.Leads (junction : Junction) : Prop := ∀ e ∈ junction.next, graph.Follows junction.id e.1

end

variable {cont : Continuation} {condition : Option VertexId}

section
variable {graph : CodeGraph}

theorem Hands.leaving {top : VertexId} (h : Hands graph top cont) (kind : NodeKind) :
    Hands graph top (cont.leaving kind) := h

theorem hands_to {w : VertexId} (h : ∀ v, graph.Below top v → graph.Follows v w) : Hands graph top (.to w) := by
  intro target htarget
  cases htarget
  exact h

theorem Hands.within (forest : graph.IsForest) {part : VertexId} (h : Hands graph top cont)
    (hpart : graph.Below top part) : Hands graph part cont :=
  fun w hw v hv => h w hw v (hpart.trans forest hv)

theorem Hands.handing (h : Hands graph top cont) (hv : graph.Below top v) (kind : FlowKind) :
    (Junction.handing v cont kind).Leads graph := by
  intro e he
  obtain ⟨w, hw, rfl⟩ := mem_map.mp he
  exact h w (Option.mem_toList.mp hw) v hv

theorem jumps_nil (top : VertexId) : Jumps graph top [] := by
  simp [Jumps, breakExit?, continueExit?, innermostLoop?]

theorem Jumps.within (forest : graph.IsForest) {part : VertexId} (h : Jumps graph top frames)
    (hpart : graph.Below top part) : Jumps graph part frames :=
  ⟨fun cont hc => (h.1 cont hc).within forest hpart, fun cont hc => (h.2 cont hc).within forest hpart⟩

theorem Jumps.scope (h : Jumps graph top frames) (kind : NodeKind) :
    Jumps graph top (⟨kind, none⟩ :: frames) :=
  forall_exits_scope (fun cont hc => (h.1 cont hc).leaving kind) (fun cont hc => (h.2 cont hc).leaving kind)

theorem jumps_loop (exits : LoopExits) (kind : NodeKind) (hbreak : Hands graph top exits.onBreak)
    (hcontinue : ∀ w ∈ exits.onContinue, ∀ v, graph.Below top v → graph.Follows v w) :
    Jumps graph top (⟨kind, some exits⟩ :: frames) :=
  forall_exits_loop (hbreak.leaving kind) fun w hw => hands_to (hcontinue w hw)

theorem leads_jump {exit : Option Continuation} (h : ∀ cont ∈ exit, Hands graph v cont) (hv : v < graph.vertexCount) :
    ∀ j ∈ exit.toList.map (Junction.handing v · .sequential), j.Leads graph := by
  intro j hj
  obtain ⟨cont, hc, rfl⟩ := mem_map.mp hj
  exact (h cont (Option.mem_toList.mp hc)).handing (.refl hv) .sequential

theorem leads_of_forall {next : List (VertexId × FlowKind)} {left : List NodeKind}
    (h : ∀ w ∈ next.map Prod.fst, graph.Follows v w) : Junction.Leads graph ⟨v, next, left⟩ :=
  fun e he => h e.1 (mem_map_of_mem he)

/-! ## Statements -/

theorem lt_of_mem_children (forest : graph.IsForest) {p c : VertexId} (h : c ∈ graph.children p) :
    c < graph.vertexCount :=
  lt_of_parent? (forest.parent_of_mem h)

theorem below_of_mem_children (forest : graph.IsForest) {p c : VertexId} (h : c ∈ graph.children p) : graph.Below p c :=
  CodeGraph.Below.of_child forest h (.refl (lt_of_mem_children forest h))

section
variable (forest : graph.IsForest) (ordered : graph.Ordered)
include forest ordered

theorem leads_guard {id head : VertexId} {body : Block} {skip : Option Block} (onBody onSkip : FlowKind)
    (hhead : head ∈ graph.children id) (hbody : ∀ w ∈ body.id :: skip.toList.map Block.id, w ∈ graph.children id ∧
    graph.TrailsAmong id w) :
    Junction.Leads graph ⟨head, (body.id, onBody) :: skip.toList.map fun skip => (skip.id, onSkip), []⟩ := by
  refine leads_of_forall fun w hw => ?_
  have hw : w ∈ body.id :: skip.toList.map Block.id := by simpa [Function.comp_def] using hw
  obtain ⟨hchild, trails⟩ := hbody w hw
  exact follows_trailing forest ordered hhead hchild (.refl (lt_of_mem_children forest hhead)) trails

theorem leads_loopHead (places : graph.DeclaresInPlace) {id body : VertexId} {init : Option VertexId}
    (update skip : Option VertexId)
    (hlabel : graph.label? id = some .forLoopStatement) (hflag : graph.flag id (.fact .hasInit) = init.isSome)
    (hchildren : graph.children id = init.toList ++ condition.toList ++ update.toList ++ body :: skip.toList) :
    ∀ j ∈ loopHeadJunctions id init condition body skip, j.Leads graph := by
  have hnodup := forest.nodup_children id
  have hentry : condition.getD body ∈ graph.children id := by
    rw [hchildren]
    cases condition <;> simp
  have hcond : ∀ v ∈ condition, (∀ w ∈ body :: skip.toList, graph.TrailsAmong id w) →
      Junction.Leads graph ⟨v, (body, .positive) :: skip.toList.map (·, .negative), []⟩ := by
    intro v hv trails
    have hvc : v ∈ graph.children id := by simp [hchildren, Option.mem_def.mp hv]
    refine leads_of_forall fun w hw => ?_
    have hw : w ∈ body :: skip.toList := by simpa [Function.comp_def] using hw
    have hchild : w ∈ graph.children id := by
      rw [hchildren]
      exact mem_append_right _ hw
    exact follows_trailing forest ordered hvc hchild (.refl (lt_of_mem_children forest hvc)) (trails w hw)
  intro j hj
  simp only [loopHeadJunctions, mem_append] at hj
  cases init with
  | none =>
    have hnone : ∀ d ∈ graph.children id, graph.declares d = false :=
      fun d hd => not_declares_of_hasInit places hlabel hflag hd
    rcases hj with hj | hj
    · rw [mem_singleton.mp hj]
      refine leads_of_forall fun w hw => ?_
      obtain rfl : w = condition.getD body := by simpa using hw
      exact follows_child forest hentry fun d hd hdeclares => by simp [hnone d hd] at hdeclares
    · obtain ⟨v, hv, rfl⟩ := mem_map.mp hj
      exact hcond v (Option.mem_toList.mp hv) fun w _ d hd hdeclares => by simp [hnone d hd] at hdeclares
  | some first =>
    have hhead : (graph.children id).head? = some first := by
      rw [hchildren]
      rfl
    have hfirst : first ∈ graph.children id := mem_of_head? hhead
    have hrest : ∀ w ∈ condition.toList ++ update.toList ++ body :: skip.toList, graph.TrailsAmong id w := by
      intro w hw
      refine trailsAmong_of_head places (by simp [hlabel]) hhead fun e => ?_
      rw [hchildren] at hnodup
      simp only [Option.toList_some, cons_append, List.append_assoc, nodup_cons] at hnodup
      exact hnodup.1 (by simpa [e] using hw)
    rcases hj with hj | hj
    · rcases mem_cons.mp hj with rfl | hj
      · refine leads_of_forall fun w hw => ?_
        obtain rfl : w = first := by simpa using hw
        exact follows_child forest hfirst fun d hd _ => ordered.head_le hhead hd
      · rw [mem_singleton.mp hj]
        refine leads_of_forall fun w hw => ?_
        obtain rfl : w = condition.getD body := by simpa using hw
        exact follows_trailing forest ordered hfirst hentry (.refl (lt_of_mem_children forest hfirst))
          (hrest _ (by cases condition <;> simp))
    · obtain ⟨v, hv, rfl⟩ := mem_map.mp hj
      exact hcond v (Option.mem_toList.mp hv) fun w hw => hrest w (mem_append_right _ hw)

end

/-! ## Parts of statements -/

section
variable (graph : CodeGraph)

/-- Under jumps and a continuation that lead to successors of all that lies below the statement, its junctions do so. -/
def Statement.Leads (s : Statement) : Prop :=
  ∀ frames cont, s.Holds graph → Jumps graph s.id frames → Hands graph s.id cont → ∀ j ∈ s.junctions frames cont,
  j.Leads graph

@[inherit_doc Statement.Leads]
def Block.Leads (b : Block) : Prop :=
  ∀ frames cont, b.Holds graph → Jumps graph b.id frames → Hands graph b.id cont → ∀ j ∈ b.junctions frames cont,
  j.Leads graph

end

theorem option_leads {b : Option Block} (leads : ∀ block ∈ b, block.Leads graph)
    (h : optionHolds graph b) (hf : ∀ v ∈ b.toList.map Block.id, Jumps graph v frames)
    (hc : ∀ v ∈ b.toList.map Block.id, Hands graph v cont) : ∀ j ∈ optionJunctions frames cont b, j.Leads graph := by
  cases b with
  | none => simp [optionJunctions]
  | some block => exact leads block rfl frames cont h (hf block.id (by simp)) (hc block.id (by simp))

section
variable (forest : graph.IsForest) (ordered : graph.Ordered)
include forest ordered

theorem sequence_leads {body : List Statement} (leads : ∀ s ∈ body, s.Leads graph) (before : List VertexId)
    {block : VertexId} (h : statementsHold graph body) (hchildren : graph.children block = before ++
    body.map Statement.id) (hf : Jumps graph block frames)
    (hc : Hands graph block cont) : ∀ j ∈ sequenceJunctions frames cont body, j.Leads graph := by
  induction body generalizing before with
  | nil => simp [sequenceJunctions]
  | cons first rest ih =>
    have hbelow : graph.Below block first.id := below_of_mem_children forest (by simp [hchildren])
    have hnext : Hands graph first.id ((rest.head?.map fun next => Continuation.to next.id).getD cont) := by
      cases rest with
      | nil => exact hc.within forest hbelow
      | cons next rest =>
        exact hands_to fun v hv => follows_next forest ordered (p := block) (by rw [hchildren]; rfl) hv
    have hfirst := leads first mem_cons_self frames _ h.1 (hf.within forest hbelow) hnext
    have hrest := ih (fun s hs => leads s (mem_cons_of_mem _ hs)) (before ++ [first.id]) h.2
      (by simp [hchildren])
    exact forall_mem_append.mpr ⟨hfirst, hrest⟩

theorem block_leads {id : VertexId} {body : List Statement} (leads : ∀ s ∈ body, s.Leads graph) :
    (Block.mk id body).Leads graph := by
  intro frames cont ⟨hlabel, hchildren, hbody⟩ hf hc
  cases body with
  | nil =>
    intro j hj
    rw [mem_singleton.mp hj]
    exact (hc.leaving .blockStatement).handing (.refl (graph.lt_of_label? hlabel)) .sequential
  | cons first rest =>
    refine forall_mem_cons.mpr ⟨leads_of_forall fun w hw => ?_, ?_⟩
    · obtain rfl : w = first.id := by simpa using hw
      exact follows_child forest (by simp [hchildren])
        (leadsAmong_first ordered (by rw [hchildren, map_cons]))
    · exact sequence_leads forest ordered leads [] hbody hchildren (hf.scope _) (hc.leaving _)

variable (places : graph.DeclaresInPlace)
include places

theorem branches_lead {branches : List Branch} (leads : ∀ branch ∈ branches, branch.body.Leads graph)
    {inner : Continuation} {otherwise : Option VertexId} {chain : VertexId} (h : branchesHold graph branches)
    (hmem : ∀ v ∈ branches.map Branch.id, v ∈ graph.children chain) (ho : ∀ v ∈ otherwise, v ∈ graph.children chain)
    (trails : ∀ w, graph.TrailsAmong chain w) (hf : Jumps graph chain frames) (hc : Hands graph chain inner) :
    ∀ j ∈ branchJunctions frames inner otherwise branches, j.Leads graph := by
  induction branches with
  | nil => simp [branchJunctions]
  | cons branch rest ih =>
    obtain ⟨id, condition, body⟩ := branch
    obtain ⟨hlabel, hchildren, hcondition, hbody, hrest⟩ := h
    obtain ⟨hid, hothers⟩ := forall_mem_cons.mp hmem
    obtain ⟨hleads, hleadsRest⟩ := forall_mem_cons.mp leads
    have hchain : graph.Below chain id := below_of_mem_children forest hid
    have hcondMem : condition ∈ graph.children id := by simp [hchildren]
    have hbodyMem : body.id ∈ graph.children id := by simp [hchildren]
    have hbelow : graph.Below chain body.id := hchain.trans forest (below_of_mem_children forest hbodyMem)
    have hnext : ∀ v ∈ (rest.head?.map Branch.id).or otherwise, v ∈ graph.children chain := by
      cases rest with
      | nil => exact ho
      | cons next rest =>
        intro v hv
        cases hv
        exact hothers next.id (by simp)
    have hb := hleads frames inner hbody (hf.within forest hbelow) (hc.within forest hbelow)
    have hr := ih hleadsRest hrest hothers
    refine forall_mem_cons.mpr ⟨leads_of_forall fun w hw => ?_, forall_mem_cons.mpr
      ⟨leads_of_forall fun w hw => ?_, forall_mem_append.mpr ⟨hb, hr⟩⟩⟩
    · obtain rfl : w = condition := by simpa using hw
      exact follows_child forest hcondMem (leadsAmong_of_label places hlabel (by decide) _)
    · have hself := CodeGraph.Below.refl (lt_of_mem_children forest hcondMem)
      simp only [map_cons, map_map, mem_cons] at hw
      rcases hw with rfl | hw
      · exact follows_trailing forest ordered hcondMem hbodyMem hself
          (trailsAmong_of_label places hlabel (by decide) _)
      · have hw : w ∈ (rest.head?.map Branch.id).or otherwise := by simpa [Function.comp_def] using hw
        exact follows_trailing forest ordered hid (hnext w hw) (below_of_mem_children forest hcondMem)
          (trails w)

omit ordered in
theorem clauses_lead {clauses : List Clause} (leads : ∀ clause ∈ clauses, clause.body.Leads graph)
    {kinds : NodeKind → Bool} {after : Continuation}
    (hk : ∀ kind, kinds kind = true → kind ≠ .blockStatement ∧ kind ≠ .forEachStatement ∧ kind ≠ .forLoopStatement)
    (h : clausesHold graph kinds clauses) (hf : ∀ v ∈ clauses.map Clause.id, Jumps graph v frames)
    (hc : ∀ v ∈ clauses.map Clause.id, Hands graph v after) : ∀ j ∈ clauseJunctions frames after clauses,
    j.Leads graph := by
  induction clauses with
  | nil => simp [clauseJunctions]
  | cons clause rest ih =>
    obtain ⟨id, kind, cases, body⟩ := clause
    obtain ⟨hlabel, hkind, hchildren, hbody, hrest⟩ := h
    obtain ⟨hfid, hfrest⟩ := forall_mem_cons.mp hf
    obtain ⟨hcid, hcrest⟩ := forall_mem_cons.mp hc
    obtain ⟨hleads, hleadsRest⟩ := forall_mem_cons.mp leads
    have hbodyMem : body.id ∈ graph.children id := by simp [hchildren]
    have hbelow : graph.Below id body.id := below_of_mem_children forest hbodyMem
    have hb := hleads (⟨kind, none⟩ :: frames) (after.leaving kind) hbody ((hfid.scope kind).within forest hbelow)
      ((hcid.leaving kind).within forest hbelow)
    refine forall_mem_cons.mpr ⟨leads_of_forall fun w hw => ?_,
      forall_mem_append.mpr ⟨hb, ih hleadsRest hrest hfrest hcrest⟩⟩
    obtain rfl : w = body.id := by simpa using hw
    exact follows_child forest hbodyMem (leadsAmong_of_label places hlabel (hk kind hkind) _)

/-! ## Compound statements -/

theorem ifElse_leads {id : VertexId} {branches : List Branch} {otherwise : Option Block}
    (leads : ∀ branch ∈ branches, branch.body.Leads graph) (leadsElse : ∀ block ∈ otherwise, block.Leads graph) :
    (Statement.ifElse id branches otherwise).Leads graph := by
  intro frames cont ⟨hlabel, hne, hchildren, hbranches, hotherwise⟩ hf hc
  have hmem : ∀ v ∈ branches.map Branch.id ++ otherwise.toList.map Block.id, v ∈ graph.children id :=
    fun v hv => hchildren ▸ hv
  obtain ⟨hmemBranches, hmemElse⟩ := forall_mem_append.mp hmem
  have hbelow : ∀ v ∈ otherwise.toList.map Block.id, graph.Below id v :=
    fun v hv => below_of_mem_children forest (hmemElse v hv)
  refine forall_mem_cons.mpr ⟨leads_of_forall fun w hw => ?_, forall_mem_append.mpr ⟨?_, ?_⟩⟩
  · obtain ⟨first, rest, rfl⟩ := exists_cons_of_ne_nil hne
    obtain rfl : w = first.id := by simpa using hw
    exact follows_child forest (hmem _ (by simp)) (leadsAmong_of_label places hlabel (by decide) _)
  · exact branches_lead forest ordered places leads hbranches hmemBranches (fun v hv => hmemElse v (by simpa using hv))
      (trailsAmong_of_label places hlabel (by decide)) (hf.scope _) (hc.leaving _)
  · exact option_leads leadsElse hotherwise (fun v hv => (hf.scope _).within forest (hbelow v hv))
      fun v hv => (hc.leaving _).within forest (hbelow v hv)

section
variable {id : VertexId} {body : Block} {skip : Option Block} (leads : body.Leads graph)
include leads

section
variable (leadsSkip : ∀ block ∈ skip, block.Leads graph)
include leadsSkip

omit ordered places in
/-- The body of a loop and its skip block lead on as soon as the jumps of the loop and the continuations do. -/
theorem loopBlocks_lead {after inner : Continuation} (hbody : body.Holds graph)
    (hskip : optionHolds graph skip) (hmem : ∀ v ∈ body.id :: skip.toList.map Block.id, v ∈ graph.children id)
    (hf : ∀ v ∈ body.id :: skip.toList.map Block.id, Jumps graph v frames) (hafter : Hands graph body.id after)
    (hc : Hands graph id inner) :
    (∀ j ∈ body.junctions frames after, j.Leads graph) ∧ ∀ j ∈ optionJunctions frames inner skip, j.Leads graph :=
  ⟨leads _ _ hbody (hf _ mem_cons_self) hafter, option_leads leadsSkip hskip (fun v hv => hf v (mem_cons_of_mem _ hv))
    fun v hv => hc.within forest (below_of_mem_children forest (hmem v (mem_cons_of_mem _ hv)))⟩

theorem whileLoop_leads {condition : VertexId} :
    (Statement.whileLoop id condition body skip).Leads graph := by
  intro frames cont ⟨hlabel, hchildren, hcondition, hbody, hskip, _⟩ hf hc
  have hmem : ∀ v ∈ condition :: body.id :: skip.toList.map Block.id, v ∈ graph.children id :=
    fun v hv => hchildren ▸ hv
  obtain ⟨hhead, hblocks⟩ := forall_mem_cons.mp hmem
  have hbelow : ∀ v ∈ body.id :: skip.toList.map Block.id, graph.Below id v := fun v hv =>
    below_of_mem_children forest (hblocks v hv)
  obtain ⟨hb, hs⟩ := loopBlocks_lead forest leads leadsSkip hbody hskip hblocks
    (fun v hv => jumps_loop ⟨cont, none⟩ .whileLoopStatement (hc.within forest (hbelow v hv)) (by simp))
    ((hc.leaving .whileLoopStatement).within forest (hbelow _ mem_cons_self)) (hc.leaving .whileLoopStatement)
  have hguard := leads_guard forest ordered .positive .negative hhead
    fun w hw => ⟨hblocks w hw, trailsAmong_of_label places hlabel (by decide) w⟩
  refine forall_mem_cons.mpr ⟨leads_of_forall fun w hw => ?_,
    forall_mem_cons.mpr ⟨hguard, forall_mem_append.mpr ⟨hb, hs⟩⟩⟩
  obtain rfl : w = condition := by simpa using hw
  exact follows_child forest hhead (leadsAmong_of_label places hlabel (by decide) _)

theorem forEach_leads {variable_ iterable : VertexId} :
    (Statement.forEach id variable_ iterable body skip).Leads graph := by
  intro frames cont ⟨hlabel, hchildren, hvariable, _, hbody, hskip, _⟩ hf hc
  have hhead : (graph.children id).head? = some variable_ := by
    rw [hchildren]
    rfl
  have hfirst : variable_ ∈ graph.children id := mem_of_head? hhead
  have hblocks : ∀ v ∈ body.id :: skip.toList.map Block.id, v ∈ graph.children id := fun v hv => by
    rw [hchildren]
    exact mem_cons_of_mem _ (mem_cons_of_mem _ hv)
  have hbelow : ∀ v ∈ body.id :: skip.toList.map Block.id, graph.Below id v := fun v hv =>
    below_of_mem_children forest (hblocks v hv)
  have htrails : ∀ v ∈ body.id :: skip.toList.map Block.id, graph.TrailsAmong id v := by
    intro v hv
    have hnodup := forest.nodup_children id
    rw [hchildren, nodup_cons] at hnodup
    exact trailsAmong_of_head places (by simp [hlabel]) hhead fun e => hnodup.1 (e ▸ mem_cons_of_mem _ hv)
  obtain ⟨hb, hs⟩ := loopBlocks_lead forest leads leadsSkip hbody hskip hblocks
    (fun v hv => jumps_loop ⟨cont, none⟩ .forEachStatement (hc.within forest (hbelow v hv)) (by simp))
    ((hc.leaving .forEachStatement).within forest (hbelow _ mem_cons_self)) (hc.leaving .forEachStatement)
  have hguard := leads_guard forest ordered .sequential .sequential hfirst fun w hw => ⟨hblocks w hw, htrails w hw⟩
  refine forall_mem_cons.mpr ⟨leads_of_forall fun w hw => ?_,
    forall_mem_cons.mpr ⟨hguard, forall_mem_append.mpr ⟨hb, hs⟩⟩⟩
  obtain rfl : w = variable_ := by simpa using hw
  exact follows_child forest hfirst fun d hd _ => ordered.head_le hhead hd

/-- A `for` loop, whichever of its parts are written. -/
theorem forLoop_leads {init update : Option VertexId} :
    (Statement.forLoop id init condition update body skip).Leads graph := by
  intro frames cont ⟨hlabel, hchildren, hflag, _, _, _, _, _, hbody, hskip, _⟩ hf hc
  have hmem : ∀ v ∈ update.toList ++ body.id :: skip.toList.map Block.id, v ∈ graph.children id := fun v hv => by
    rw [hchildren]
    simp only [List.append_assoc]
    exact mem_append_right _ (mem_append_right _ hv)
  obtain ⟨hupdates, hblocks⟩ := forall_mem_append.mp hmem
  have htrails : ∀ v ∈ update, graph.TrailsAmong id v := by
    intro v hv
    cases init with
    | none =>
      intro d hd hdeclares
      simp [not_declares_of_hasInit places hlabel hflag hd] at hdeclares
    | some first =>
      have hhead : (graph.children id).head? = some first := by
        rw [hchildren]
        rfl
      refine trailsAmong_of_head places (by simp [hlabel]) hhead fun e => ?_
      have hnodup := forest.nodup_children id
      rw [hchildren] at hnodup
      simp only [Option.toList_some, cons_append, List.append_assoc, nodup_cons] at hnodup
      exact hnodup.1 (by simp [e, Option.mem_def.mp hv])
  have hround : ∀ a ∈ body.id :: skip.toList.map Block.id, ∀ w ∈ update, ∀ v, graph.Below a v → graph.Follows v w :=
    fun a ha w hw v hv =>
      follows_trailing forest ordered (hblocks a ha) (hupdates w (Option.mem_toList.mpr hw)) hv (htrails w hw)
  have hwithin : ∀ v ∈ update.toList ++ body.id :: skip.toList.map Block.id, Hands graph v cont := fun v hv =>
    hc.within forest (below_of_mem_children forest (hmem v hv))
  have hafter : Hands graph body.id ((update.map Continuation.to).getD (cont.leaving .forLoopStatement)) := by
    cases update with
    | none => exact (hwithin body.id (by simp)).leaving _
    | some v => exact hands_to (hround body.id mem_cons_self v rfl)
  have hparts : graph.children id =
      init.toList ++ condition.toList ++ update.toList ++ body.id :: (skip.map Block.id).toList := by
    rw [hchildren]
    cases skip <;> rfl
  obtain ⟨hb, hs⟩ := loopBlocks_lead forest leads leadsSkip hbody hskip hblocks
    (fun v hv => jumps_loop ⟨cont, update⟩ .forLoopStatement (hwithin v (mem_append_right _ hv)) (hround v hv))
    hafter (hc.leaving .forLoopStatement)
  have hhead := leads_loopHead forest ordered places update (skip.map Block.id) hlabel hflag hparts
  have hu : ∀ j ∈ update.toList.map (Junction.handing · (cont.leaving .forLoopStatement) .sequential), j.Leads graph :=
    forall_mem_map.mpr fun v hv => ((hwithin v (mem_append_left _ hv)).leaving _).handing
      (.refl (lt_of_mem_children forest (hupdates v hv))) .sequential
  exact forall_mem_append.mpr
    ⟨forall_mem_append.mpr ⟨forall_mem_append.mpr ⟨hhead, hb⟩, hu⟩, hs⟩

end

theorem doLoop_leads {condition : VertexId} : (Statement.doLoop id body condition).Leads graph := by
  intro frames cont ⟨hlabel, hchildren, hcondition, hbody⟩ hf hc
  have hbodyMem : body.id ∈ graph.children id := by simp [hchildren]
  have hcondMem : condition ∈ graph.children id := by simp [hchildren]
  have hround : ∀ v, graph.Below body.id v → graph.Follows v condition := fun v hv =>
    follows_trailing forest ordered hbodyMem hcondMem hv
    (trailsAmong_of_label places hlabel (by decide) _)
  have hloop : Jumps graph body.id (⟨.doLoopStatement, some ⟨cont, some condition⟩⟩ :: frames) :=
    jumps_loop _ _ (hc.within forest (below_of_mem_children forest hbodyMem)) (by simpa using hround)
  have hb := leads _ _ hbody hloop (hands_to hround)
  have hlast := ((hc.leaving .doLoopStatement).within forest (below_of_mem_children forest hcondMem)).handing
    (.refl (lt_of_mem_children forest hcondMem)) .negative
  refine forall_mem_cons.mpr ⟨leads_of_forall fun w hw => ?_, forall_mem_append.mpr ⟨hb, by simpa using hlast⟩⟩
  obtain rfl : w = body.id := by simpa using hw
  exact follows_child forest hbodyMem (leadsAmong_of_label places hlabel (by decide) _)

end

theorem switch_leads {id subject : VertexId} {whens : List Clause} (leads : ∀ clause ∈ whens, clause.body.Leads graph) :
    (Statement.switch id subject whens).Leads graph := by
  intro frames cont ⟨hlabel, hchildren, _, hwhens⟩ hf hc
  have hsubject : subject ∈ graph.children id := by simp [hchildren]
  have hmem : ∀ v ∈ whens.map Clause.id, v ∈ graph.children id := fun v hv => hchildren ▸ mem_cons_of_mem _ hv
  have hbelow : ∀ v ∈ whens.map Clause.id, graph.Below id v := fun v hv => below_of_mem_children forest (hmem v hv)
  have hkinds : ∀ kind : NodeKind, kind.isWhenBlock = true →
      kind ≠ .blockStatement ∧ kind ≠ .forEachStatement ∧ kind ≠ .forLoopStatement := by
    intro kind hkind
    refine ⟨?_, ?_, ?_⟩ <;> rintro rfl <;> exact absurd hkind (by decide)
  have hw := clauses_lead forest places leads hkinds hwhens
    (fun v hv => (hf.scope .switchStatement).within forest (hbelow v hv))
    (fun v hv => (hc.leaving .switchStatement).within forest (hbelow v hv))
  refine forall_mem_cons.mpr ⟨leads_of_forall fun w hw => ?_, forall_mem_cons.mpr ⟨?_, hw⟩⟩
  · obtain rfl : w = subject := by simpa using hw
    exact follows_child forest hsubject (leadsAmong_of_label places hlabel (by decide) _)
  · have hself := CodeGraph.Below.refl (lt_of_mem_children forest hsubject)
    split
    · exact ((hc.leaving .switchStatement).within forest (below_of_mem_children forest hsubject)).handing hself
        .sequential
    · refine leads_of_forall fun w hw => ?_
      have hw : w ∈ whens.map Clause.id := by simpa [Function.comp_def] using hw
      exact follows_trailing forest ordered hsubject (hmem w hw) hself
        (trailsAmong_of_label places hlabel (by decide) w)

theorem tryCatch_leads {id : VertexId} {body : Block} {catches : List Clause} {final : Option Block}
    (leads : body.Leads graph) (leadsCatches : ∀ clause ∈ catches, clause.body.Leads graph)
    (leadsFinal : ∀ block ∈ final, block.Leads graph) :
    (Statement.tryCatch id body catches final).Leads graph := by
  intro frames cont ⟨hlabel, hchildren, _, hbody, hcatches, _, hfinal⟩ hf hc
  have hmem : ∀ v ∈ body.id :: (catches.map Clause.id ++ final.toList.map Block.id), v ∈ graph.children id :=
    fun v hv => hchildren ▸ hv
  have hbelow : ∀ v ∈ body.id :: (catches.map Clause.id ++ final.toList.map Block.id), graph.Below id v := fun v hv =>
    below_of_mem_children forest (hmem v hv)
  have hscope : ∀ v ∈ body.id :: (catches.map Clause.id ++ final.toList.map Block.id),
      Jumps graph v (⟨.tryCatchFinallyBlockStatement, none⟩ :: frames) :=
      fun v hv => (hf.scope _).within forest (hbelow v hv)
  have hafter : ∀ v ∈ body.id :: (catches.map Clause.id ++ final.toList.map Block.id), Hands graph v
      ((final.map fun block => Continuation.to block.id).getD (cont.leaving .tryCatchFinallyBlockStatement)) := by
    intro v hv
    cases final with
    | none => exact (hc.leaving _).within forest (hbelow v hv)
    | some block =>
      exact hands_to fun u hu => follows_trailing forest ordered (hmem v hv) (hmem block.id (by simp)) hu
        (trailsAmong_of_label places hlabel (by decide) _)
  have hb := leads _ _ hbody (hscope _ mem_cons_self) (hafter _ mem_cons_self)
  have hcs := clauses_lead forest places leadsCatches (by simp) hcatches (fun v hv => hscope v (by simp [hv]))
    fun v hv => hafter v (by simp [hv])
  have hfs := option_leads leadsFinal hfinal (fun v hv => hscope v (by simp [hv]))
    fun v hv => (hc.leaving .tryCatchFinallyBlockStatement).within forest (hbelow v (by simp [hv]))
  refine forall_mem_cons.mpr ⟨leads_of_forall fun w hw => ?_,
    forall_mem_append.mpr ⟨forall_mem_append.mpr ⟨hb, hcs⟩, hfs⟩⟩
  have hw : w ∈ body.id :: catches.map Clause.id := by simpa [Function.comp_def] using hw
  have hchild := hmem w (by rcases mem_cons.mp hw with rfl | hw <;> simp [*])
  exact follows_child forest hchild (leadsAmong_of_label places hlabel (by decide) _)

/-! ## All statements -/

/-- Junctions lead where a successor is; one case for each kind of statement. -/
theorem inductive_leads : Statement.Inductive (Statement.Leads graph) (Block.Leads graph) where
  simple id := by
    intro frames cont ⟨label, hl, _⟩ _ hc j hj
    rw [mem_singleton.mp hj]
    exact hc.handing (.refl (graph.lt_of_label? hl)) .sequential
  exit id := by
    intro frames cont _ _ _ j hj
    rw [mem_singleton.mp hj]
    simp [Junction.Leads]
  breaks _ _ _ h hf _ := leads_jump hf.1 (graph.lt_of_label? h)
  continues _ _ _ h hf _ := leads_jump hf.2 (graph.lt_of_label? h)
  nested _ leads := leads
  ifElse _ _ _ := ifElse_leads forest ordered places
  whileLoop _ _ _ _ body skip := whileLoop_leads forest ordered places body skip
  forEach _ _ _ _ _ body skip := forEach_leads forest ordered places body skip
  forLoop _ _ _ _ _ _ body skip := forLoop_leads forest ordered places body skip
  doLoop _ _ _ leads := doLoop_leads forest ordered places leads
  switch _ _ _ := switch_leads forest ordered places
  tryCatch _ _ _ _ := tryCatch_leads forest ordered places
  block _ _ := block_leads forest ordered

/-- Control that passes the junctions of a block goes on to successors in the tree. -/
theorem Block.leads (b : Block) : b.Leads graph := (inductive_leads forest ordered places).forall_block b

end

end

end ApexPaths.Flow
