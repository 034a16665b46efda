import ApexPaths.Proofs.Flow.Vertices

/-!
Control only goes on. The course of a statement lists its vertices so that every junction leads to later ones: the
update of a `for` loop comes after its blocks, the condition of a `do` loop after its body, and handlers come after
the block that they guard. Jumps lead beyond the loop that they leave, or to its update or condition.
-/

namespace ApexPaths.Flow
set_option autoImplicit false

open List

mutual

/-- The vertices of a statement in an order in which control passes them. -/
def Statement.course : Statement → List VertexId
  | .simple id | .exit id | .breaks id | .continues id => [id]
  | .nested block => block.course
  | .ifElse id branches otherwise => id :: (branchCourse branches ++ optionCourse otherwise)
  | .whileLoop id head body skip | .forEach id head _ body skip => id :: head :: (body.course ++ optionCourse skip)
  | .forLoop id init condition update body skip =>
    id :: (init.toList ++ (condition.toList ++ ((body.course ++ optionCourse skip) ++ update.toList)))
  | .doLoop id body condition => id :: (body.course ++ [condition])
  | .switch id subject whens => id :: subject :: clauseCourse whens
  | .tryCatch id body catches final => id :: ((body.course ++ clauseCourse catches) ++ optionCourse final)

/-- The vertices of a block in the order in which flow can come to them. -/
def Block.course : Block → List VertexId
  | .mk id body => id :: sequenceCourse body

def sequenceCourse : List Statement → List VertexId
  | [] => []
  | statement :: rest => statement.course ++ sequenceCourse rest

def branchCourse : List Branch → List VertexId
  | [] => []
  | .mk id condition body :: rest => id :: condition :: (body.course ++ branchCourse rest)

def clauseCourse : List Clause → List VertexId
  | [] => []
  | .mk id _ _ body :: rest => id :: (body.course ++ clauseCourse rest)

def optionCourse : Option Block → List VertexId
  | none => []
  | some block => block.course

end

/-! ## The vertices of a course -/

mutual

/-- The course of a statement lists the vertices that it passes. -/
theorem Statement.course_perm : (s : Statement) → s.course.Perm s.vertices
  | .simple id | .exit id | .breaks id | .continues id => .refl [id]
  | .nested block => block.course_perm
  | .ifElse id branches otherwise => .cons id ((branchCourse_perm branches).append (optionCourse_perm otherwise))
  | .whileLoop id head body skip | .forEach id head _ body skip =>
    .cons id (.cons head (body.course_perm.append (optionCourse_perm skip)))
  | .forLoop id init condition update body skip => by
    have hblocks := ((body.course_perm.append (optionCourse_perm skip)).append_right update.toList)
    have hlast : ((body.vertices ++ optionVertices skip) ++ update.toList).Perm
        (body.vertices ++ update.toList ++ optionVertices skip) := by
      rw [List.append_assoc, List.append_assoc]
      exact perm_append_comm.append_left _
    have hall := ((hblocks.trans hlast).append_left condition.toList).append_left init.toList
    rw [Statement.course, Statement.vertices]
    refine .cons id (hall.trans (.of_eq ?_))
    simp only [List.append_assoc]
  | .doLoop id body condition => .cons id (body.course_perm.append_right [condition])
  | .switch id subject whens => .cons id (.cons subject (clauseCourse_perm whens))
  | .tryCatch id body catches final =>
    .cons id ((body.course_perm.append (clauseCourse_perm catches)).append (optionCourse_perm final))

theorem Block.course_perm : (b : Block) → b.course.Perm b.vertices
  | .mk id body => .cons id (sequenceCourse_perm body)

theorem sequenceCourse_perm : (body : List Statement) → (sequenceCourse body).Perm (sequenceVertices body)
  | [] => .refl []
  | first :: rest => first.course_perm.append (sequenceCourse_perm rest)

theorem branchCourse_perm : (branches : List Branch) → (branchCourse branches).Perm (branchVertices branches)
  | [] => .refl []
  | .mk id condition body :: rest => .cons id (.cons condition (body.course_perm.append (branchCourse_perm rest)))

theorem clauseCourse_perm : (clauses : List Clause) → (clauseCourse clauses).Perm (clauseVertices clauses)
  | [] => .refl []
  | .mk id _ _ body :: rest => .cons id (body.course_perm.append (clauseCourse_perm rest))

theorem optionCourse_perm : (b : Option Block) → (optionCourse b).Perm (optionVertices b)
  | none => .refl []
  | some block => block.course_perm

end

theorem Block.id_mem_course (b : Block) : b.id ∈ b.course := b.course_perm.mem_iff.mpr b.id_mem_vertices

theorem Statement.id_mem_course (s : Statement) : s.id ∈ s.course := s.course_perm.mem_iff.mpr s.id_mem_vertices

theorem id_mem_optionCourse {b : Option Block} : ∀ v ∈ b.toList.map Block.id, v ∈ optionCourse b := by
  cases b with
  | none => simp
  | some block => simpa [optionCourse] using block.id_mem_course

theorem id_mem_clauseCourse {clauses : List Clause} : ∀ v ∈ clauses.map Clause.id, v ∈ clauseCourse clauses := by
  induction clauses with
  | nil => simp
  | cons first rest ih =>
    obtain ⟨id, kind, cases, body⟩ := first
    rintro v (_ | ⟨_, hv⟩)
    · exact mem_cons_self
    · exact mem_cons_of_mem _ (mem_append_right _ (ih v hv))

/-! ## Targets beyond a course -/

variable {v : VertexId} {condition : Option VertexId}

section
variable (rank : VertexId → Nat)

/-- Where a continuation leads ranks above all of these vertices. -/
def Beyond (vs : List VertexId) (cont : Continuation) : Prop := ∀ w ∈ cont.target, ∀ v ∈ vs, rank v < rank w

/-- The jumps out of some scopes lead beyond some vertices. -/
def JumpsBeyond (vs : List VertexId) (frames : Frames) : Prop :=
  (∀ cont ∈ breakExit? frames, Beyond rank vs cont) ∧ ∀ cont ∈ continueExit? frames, Beyond rank vs cont

/-- The edges of a junction lead to higher ranks. -/
def Junction.Advances (junction : Junction) : Prop := ∀ e ∈ junction.next, rank junction.id < rank e.1

variable {rank} {vs ws : List VertexId} {cont : Continuation} {frames : Frames}

theorem beyond_none (vs : List VertexId) (kinds : List NodeKind) : Beyond rank vs ⟨none, kinds⟩ :=
  fun _ hw => by cases hw

theorem beyond_to {w : VertexId} (h : ∀ v ∈ vs, rank v < rank w) : Beyond rank vs (.to w) := by
  rintro _ ⟨⟩
  exact h

theorem Beyond.leaving (h : Beyond rank vs cont) (kind : NodeKind) : Beyond rank vs (cont.leaving kind) := h

theorem Beyond.mono (h : Beyond rank vs cont) (hsub : ws ⊆ vs) : Beyond rank ws cont :=
  fun w hw v hv => h w hw v (hsub hv)

theorem Beyond.handing (h : Beyond rank vs cont) (hv : v ∈ vs) (kind : FlowKind) :
    (Junction.handing v cont kind).Advances rank := by
  intro e he
  obtain ⟨w, hw, rfl⟩ := mem_map.mp he
  exact h w (Option.mem_toList.mp hw) v hv

theorem jumpsBeyond_nil (vs : List VertexId) : JumpsBeyond rank vs [] := by
  simp [JumpsBeyond, breakExit?, continueExit?, innermostLoop?]

theorem JumpsBeyond.mono (h : JumpsBeyond rank vs frames) (hsub : ws ⊆ vs) : JumpsBeyond rank ws frames :=
  ⟨fun cont hc => (h.1 cont hc).mono hsub, fun cont hc => (h.2 cont hc).mono hsub⟩

theorem JumpsBeyond.scope (h : JumpsBeyond rank vs frames) (kind : NodeKind) :
    JumpsBeyond rank vs (⟨kind, none⟩ :: frames) :=
  forall_exits_scope (fun cont hc => (h.1 cont hc).leaving kind) (fun cont hc => (h.2 cont hc).leaving kind)

theorem jumpsBeyond_loop {exits : LoopExits} (kind : NodeKind) (hbreak : Beyond rank vs exits.onBreak)
    (hcontinue : ∀ w ∈ exits.onContinue, ∀ v ∈ vs, rank v < rank w) :
    JumpsBeyond rank vs (⟨kind, some exits⟩ :: frames) :=
  forall_exits_loop (hbreak.leaving kind) fun w hw => beyond_to (hcontinue w hw)

/-- Vertices whose ranks rise, with all that leaves them beyond them: the jumps out of some scopes and what comes
after. -/
structure Clear (rank : VertexId → Nat) (vs : List VertexId) (frames : Frames) (cont : Continuation) : Prop where
  rises : vs.Pairwise (rank · < rank ·)
  jumps : JumpsBeyond rank vs frames
  beyond : Beyond rank vs cont

namespace Clear

theorem scope (h : Clear rank vs frames cont) (kind : NodeKind) :
    Clear rank vs (⟨kind, none⟩ :: frames) (cont.leaving kind) :=
  ⟨h.rises, h.jumps.scope kind, h.beyond.leaving kind⟩

theorem inLoop (h : Clear rank vs frames cont) (kind : NodeKind) {onContinue : Option VertexId}
    (hcontinue : ∀ w ∈ onContinue, ∀ v ∈ vs, rank v < rank w) :
    Clear rank vs (⟨kind, some ⟨cont, onContinue⟩⟩ :: frames) (cont.leaving kind) :=
  ⟨h.rises, jumpsBeyond_loop kind h.beyond hcontinue, h.beyond.leaving kind⟩

theorem upTo (h : Clear rank vs frames cont) {after : Continuation} (hafter : Beyond rank vs after) :
    Clear rank vs frames after :=
  { h with beyond := hafter }

theorem head_lt (h : Clear rank (v :: vs) frames cont) : ∀ w ∈ vs, rank v < rank w :=
  (pairwise_cons.mp h.rises).1

theorem tail (h : Clear rank (v :: vs) frames cont) : Clear rank vs frames cont :=
  ⟨(pairwise_cons.mp h.rises).2, h.jumps.mono (subset_cons_self v vs), h.beyond.mono (subset_cons_self v vs)⟩

section
variable (h : Clear rank (vs ++ ws) frames cont)
include h

theorem left : Clear rank vs frames cont :=
  ⟨(pairwise_append.mp h.rises).1, h.jumps.mono (subset_append_left ..),
    h.beyond.mono (subset_append_left ..)⟩

theorem right : Clear rank ws frames cont :=
  ⟨(pairwise_append.mp h.rises).2.1, h.jumps.mono (subset_append_right ..),
    h.beyond.mono (subset_append_right ..)⟩

theorem across : ∀ v ∈ vs, ∀ w ∈ ws, rank v < rank w :=
  (pairwise_append.mp h.rises).2.2

end

end Clear

theorem advances_jump {exit : Option Continuation} (h : ∀ cont ∈ exit, Beyond rank [v] cont) :
    ∀ j ∈ exit.toList.map (Junction.handing v · .sequential), j.Advances rank := by
  intro j hj
  obtain ⟨cont, hc, rfl⟩ := mem_map.mp hj
  exact (h cont (Option.mem_toList.mp hc)).handing mem_cons_self .sequential

theorem advances_of_forall {next : List (VertexId × FlowKind)} {left : List NodeKind}
    (h : ∀ w ∈ next.map Prod.fst, rank v < rank w) : Junction.Advances rank ⟨v, next, left⟩ :=
  fun e he => h e.1 (mem_map_of_mem he)

theorem advances_loopHead {id body : VertexId} {init skip : Option VertexId}
    (hfirst : ∀ v ∈ id :: init.toList, rank v < rank (condition.getD body)) (hinit : ∀ v ∈ init, rank id < rank v)
    (hcondition : ∀ v ∈ condition, ∀ w ∈ body :: skip.toList, rank v < rank w) :
    ∀ j ∈ loopHeadJunctions id init condition body skip, j.Advances rank := by
  have hguard :
    ∀ j ∈ condition.toList.map fun condition => (⟨condition, (body, .positive) :: skip.toList.map (·, .negative),
    []⟩ : Junction), j.Advances rank := by
    intro j hj
    obtain ⟨v, hv, rfl⟩ := mem_map.mp hj
    exact advances_of_forall fun w hw =>
      hcondition v (Option.mem_toList.mp hv) w (by simpa [Function.comp_def] using hw)
  refine forall_mem_append.mpr ⟨?_, hguard⟩
  cases init with
  | none =>
    intro j hj
    rw [mem_singleton.mp hj]
    exact advances_of_forall fun w hw => mem_singleton.mp hw ▸ hfirst id mem_cons_self
  | some first =>
    refine forall_mem_cons.mpr ⟨advances_of_forall fun w hw => ?_, fun j hj => ?_⟩
    · exact mem_singleton.mp hw ▸ hinit first rfl
    · rw [mem_singleton.mp hj]
      exact advances_of_forall fun w hw => mem_singleton.mp hw ▸ hfirst first (by simp)

theorem advances_guard {head : VertexId} {body : Block} {skip : Option Block} (onBody onSkip : FlowKind)
    (h : ∀ v ∈ body.course ++ optionCourse skip, rank head < rank v) :
    Junction.Advances rank ⟨head, (body.id, onBody) :: skip.toList.map fun skip => (skip.id, onSkip), []⟩ := by
  refine advances_of_forall fun w hw => h w ?_
  have hw : w ∈ body.id :: skip.toList.map Block.id := by simpa [Function.comp_def] using hw
  rcases mem_cons.mp hw with rfl | hw
  · exact mem_append_left _ body.id_mem_course
  · exact mem_append_right _ (id_mem_optionCourse w hw)

/-! ## Parts of statements -/

/-- Where the course of a statement is clear its junctions lead to higher ranks. -/
def Statement.Advances (rank : VertexId → Nat) (s : Statement) : Prop :=
  ∀ frames cont, Clear rank s.course frames cont → ∀ j ∈ s.junctions frames cont, j.Advances rank

@[inherit_doc Statement.Advances]
def Block.Advances (rank : VertexId → Nat) (b : Block) : Prop :=
  ∀ frames cont, Clear rank b.course frames cont → ∀ j ∈ b.junctions frames cont, j.Advances rank

theorem option_advances {b : Option Block} (advances : ∀ block ∈ b, block.Advances rank)
    (h : Clear rank (optionCourse b) frames cont) : ∀ j ∈ optionJunctions frames cont b, j.Advances rank := by
  cases b with
  | none => simp [optionJunctions]
  | some block => exact advances block rfl frames cont h

theorem sequence_advances {body : List Statement} (advances : ∀ s ∈ body, s.Advances rank)
    (h : Clear rank (sequenceCourse body) frames cont) : ∀ j ∈ sequenceJunctions frames cont body, j.Advances rank := by
  induction body with
  | nil => simp [sequenceJunctions]
  | cons first rest ih =>
    obtain ⟨hfirst, hrest⟩ := forall_mem_cons.mp advances
    have hnext : Beyond rank first.course ((rest.head?.map fun next => Continuation.to next.id).getD cont) := by
      cases rest with
      | nil => exact h.left.beyond
      | cons next rest => exact beyond_to fun v hv => h.across v hv next.id (mem_append_left _ next.id_mem_course)
    exact forall_mem_append.mpr ⟨hfirst frames _ (h.left.upTo hnext), ih hrest h.right⟩

theorem block_advances {id : VertexId} {body : List Statement} (advances : ∀ s ∈ body, s.Advances rank) :
    (Block.mk id body).Advances rank := by
  intro frames cont h
  cases body with
  | nil =>
    intro j hj
    rw [mem_singleton.mp hj]
    exact (h.beyond.leaving .blockStatement).handing mem_cons_self .sequential
  | cons first rest =>
    refine forall_mem_cons.mpr ⟨advances_of_forall ?_, sequence_advances advances (h.tail.scope .blockStatement)⟩
    simpa using h.head_lt first.id (mem_append_left _ first.id_mem_course)

theorem branches_advance {branches : List Branch} (advances : ∀ branch ∈ branches, branch.body.Advances rank)
    {otherwise : Option VertexId} (h : Clear rank (branchCourse branches) frames cont)
    (ho : ∀ w ∈ otherwise, ∀ v ∈ branchCourse branches, rank v < rank w) :
    ∀ j ∈ branchJunctions frames cont otherwise branches, j.Advances rank := by
  induction branches with
  | nil => simp [branchJunctions]
  | cons branch rest ih =>
    obtain ⟨id, condition, body⟩ := branch
    obtain ⟨hfirst, hrest⟩ := forall_mem_cons.mp advances
    have hblocks := h.tail.tail
    have hb := hfirst frames cont hblocks.left
    have hr := ih hrest hblocks.right fun w hw v hv =>
      ho w hw v (mem_cons_of_mem _ (mem_cons_of_mem _ (mem_append_right _ hv)))
    -- Where the condition fails control goes to the next branch, or to what comes after the last one.
    have hnext : ∀ w ∈ (rest.head?.map Branch.id).or otherwise, rank condition < rank w := by
      cases rest with
      | nil => exact fun w hw => ho w hw condition (mem_cons_of_mem _ mem_cons_self)
      | cons next rest =>
        obtain ⟨next, _, _⟩ := next
        rintro w hw
        cases hw
        exact h.tail.head_lt next (mem_append_right _ mem_cons_self)
    refine forall_mem_cons.mpr ⟨advances_of_forall (by simpa using h.head_lt condition mem_cons_self),
      forall_mem_cons.mpr ⟨advances_of_forall fun w hw => ?_, forall_mem_append.mpr ⟨hb, hr⟩⟩⟩
    simp only [map_cons, map_map, mem_cons] at hw
    rcases hw with rfl | hw
    · exact h.tail.head_lt body.id (mem_append_left _ body.id_mem_course)
    · exact hnext w (by simpa [Function.comp_def] using hw)

theorem clauses_advance {clauses : List Clause} (advances : ∀ clause ∈ clauses, clause.body.Advances rank)
    (h : Clear rank (clauseCourse clauses) frames cont) : ∀ j ∈ clauseJunctions frames cont clauses,
    j.Advances rank := by
  induction clauses with
  | nil => simp [clauseJunctions]
  | cons clause rest ih =>
    obtain ⟨id, kind, cases, body⟩ := clause
    obtain ⟨hfirst, hrest⟩ := forall_mem_cons.mp advances
    have hb := hfirst _ _ (h.tail.left.scope kind)
    refine forall_mem_cons.mpr ⟨advances_of_forall ?_, forall_mem_append.mpr ⟨hb, ih hrest h.tail.right⟩⟩
    simpa using h.head_lt body.id (mem_append_left _ body.id_mem_course)

/-! ## Compound statements -/

theorem ifElse_advances {id : VertexId} {branches : List Branch} {otherwise : Option Block}
    (advances : ∀ branch ∈ branches, branch.body.Advances rank) (advancesElse : ∀ block ∈ otherwise,
    block.Advances rank) :
    (Statement.ifElse id branches otherwise).Advances rank := by
  intro frames cont h
  have hparts := h.tail.scope .ifElseBlockStatement
  have hlast : ∀ w ∈ otherwise.map Block.id, ∀ v ∈ branchCourse branches, rank v < rank w := by
    intro w hw v hv
    obtain ⟨block, rfl, rfl⟩ := Option.map_eq_some_iff.mp hw
    exact hparts.across v hv block.id block.id_mem_course
  refine forall_mem_cons.mpr ⟨advances_of_forall fun w hw => ?_, forall_mem_append.mpr
    ⟨branches_advance advances hparts.left hlast, option_advances advancesElse hparts.right⟩⟩
  cases branches with
  | nil => exact absurd hw not_mem_nil
  | cons first rest =>
    obtain ⟨first, condition, body⟩ := first
    obtain rfl : w = first := by simpa [Branch.id] using hw
    exact h.head_lt w (mem_append_left _ mem_cons_self)

section
variable {id : VertexId} {body : Block} {skip : Option Block} (advances : body.Advances rank)
  (advancesSkip : ∀ block ∈ skip, block.Advances rank)
include advances

section
include advancesSkip

/-- A loop whose body begins where its head leads. -/
theorem guardedLoop_advances {head : VertexId} (kind : NodeKind) (onBody onSkip : FlowKind)
    (h : Clear rank (id :: head :: (body.course ++ optionCourse skip)) frames cont) :
    ∀ j ∈ (⟨id, [(head, .sequential)], []⟩ : Junction) ::
      ⟨head, (body.id, onBody) :: skip.toList.map fun skip => (skip.id, onSkip), []⟩ ::
      (body.junctions (⟨kind, some ⟨cont, none⟩⟩ :: frames) (cont.leaving kind) ++
        optionJunctions (⟨kind, some ⟨cont, none⟩⟩ :: frames) (cont.leaving kind) skip), j.Advances rank := by
  have hblocks : Clear rank (body.course ++ optionCourse skip) (⟨kind, some ⟨cont, none⟩⟩ :: frames)
      (cont.leaving kind) :=
    h.tail.tail.inLoop kind (by simp)
  exact forall_mem_cons.mpr ⟨advances_of_forall (by simpa using h.head_lt head mem_cons_self),
    forall_mem_cons.mpr ⟨advances_guard onBody onSkip h.tail.head_lt,
      forall_mem_append.mpr ⟨advances _ _ hblocks.left, option_advances advancesSkip hblocks.right⟩⟩⟩

theorem forLoop_advances {init update : Option VertexId} :
    (Statement.forLoop id init condition update body skip).Advances rank := by
  intro frames cont h
  have hround := h.tail.right.right
  -- The update comes after both blocks, and so it is where they may continue.
  have hupdate : ∀ w ∈ update, ∀ v ∈ body.course ++ optionCourse skip, rank v < rank w := fun w hw v hv =>
    hround.across v hv w (Option.mem_toList.mpr hw)
  have hblock : ∀ v ∈ body.id :: (skip.map Block.id).toList, v ∈ body.course ++ optionCourse skip := by
    refine forall_mem_cons.mpr ⟨mem_append_left _ body.id_mem_course, fun v hv => ?_⟩
    rw [Option.toList_map] at hv
    exact mem_append_right _ (id_mem_optionCourse v hv)
  have hentry : condition.getD body.id ∈ condition.toList ++ ((body.course ++ optionCourse skip) ++ update.toList) := by
    cases condition with
    | none => exact mem_append_right _ (mem_append_left _ (hblock body.id mem_cons_self))
    | some v => exact mem_cons_self
  have hafter :
      Beyond rank (body.course ++ optionCourse skip)
      ((update.map Continuation.to).getD (cont.leaving .forLoopStatement)) := by
    cases update with
    | none => exact hround.left.beyond.leaving _
    | some v => exact beyond_to (hupdate v rfl)
  have hblocks : Clear rank (body.course ++ optionCourse skip) (⟨.forLoopStatement, some ⟨cont, update⟩⟩ :: frames)
      (cont.leaving .forLoopStatement) := hround.left.inLoop _ hupdate
  have hhead : ∀ j ∈ loopHeadJunctions id init condition body.id (skip.map Block.id), j.Advances rank :=
    advances_loopHead
    (forall_mem_cons.mpr ⟨h.head_lt _ (mem_append_right _ hentry), fun v hv => h.tail.across v hv _ hentry⟩)
    (fun v hv => h.head_lt v (mem_append_left _ (Option.mem_toList.mpr hv)))
    (fun v hv w hw => h.tail.right.across v (Option.mem_toList.mpr hv) w (mem_append_left _ (hblock w hw)))
  have hu : ∀ j ∈ update.toList.map (Junction.handing · (cont.leaving .forLoopStatement) .sequential),
      j.Advances rank :=
    forall_mem_map.mpr fun v hv => (hround.beyond.leaving .forLoopStatement).handing (mem_append_right _ hv) .sequential
  exact forall_mem_append.mpr ⟨forall_mem_append.mpr ⟨forall_mem_append.mpr
    ⟨hhead, advances _ _ (hblocks.upTo hafter).left⟩, hu⟩, option_advances advancesSkip hblocks.right⟩

end

theorem doLoop_advances {condition : VertexId} : (Statement.doLoop id body condition).Advances rank := by
  intro frames cont h
  have hround : ∀ v ∈ body.course, rank v < rank condition := fun v hv => h.tail.across v hv condition mem_cons_self
  have hbody : Clear rank body.course (⟨.doLoopStatement, some ⟨cont, some condition⟩⟩ :: frames)
      (cont.leaving .doLoopStatement) := h.tail.left.inLoop _ (by simpa using hround)
  have hlast := (h.tail.right.beyond.leaving .doLoopStatement).handing mem_cons_self .negative
  exact forall_mem_cons.mpr
    ⟨advances_of_forall (by simpa using h.head_lt body.id (mem_append_left _ body.id_mem_course)),
      forall_mem_append.mpr ⟨advances _ _ (hbody.upTo (beyond_to hround)), by simpa using hlast⟩⟩

end

theorem switch_advances {id subject : VertexId} {whens : List Clause}
    (advances : ∀ clause ∈ whens, clause.body.Advances rank) : (Statement.switch id subject whens).Advances rank := by
  intro frames cont h
  refine forall_mem_cons.mpr ⟨advances_of_forall (by simpa using h.head_lt subject mem_cons_self),
    forall_mem_cons.mpr ⟨?_, clauses_advance advances (h.tail.tail.scope .switchStatement)⟩⟩
  split
  · exact (h.tail.beyond.leaving .switchStatement).handing mem_cons_self .sequential
  · refine advances_of_forall fun w hw => h.tail.head_lt w (id_mem_clauseCourse w ?_)
    simpa [Function.comp_def] using hw

theorem tryCatch_advances {id : VertexId} {body : Block} {catches : List Clause} {final : Option Block}
    (advances : body.Advances rank) (advancesCatches : ∀ clause ∈ catches, clause.body.Advances rank)
    (advancesFinal : ∀ block ∈ final, block.Advances rank) :
    (Statement.tryCatch id body catches final).Advances rank := by
  intro frames cont h
  have hparts := h.tail.scope .tryCatchFinallyBlockStatement
  have hafter : Beyond rank (body.course ++ clauseCourse catches)
      ((final.map fun block => Continuation.to block.id).getD (cont.leaving .tryCatchFinallyBlockStatement)) := by
    cases final with
    | none => exact hparts.left.beyond
    | some block => exact beyond_to fun v hv => hparts.across v hv block.id block.id_mem_course
  have hguarded := hparts.left.upTo hafter
  refine forall_mem_cons.mpr ⟨advances_of_forall fun w hw => h.head_lt w ?_, forall_mem_append.mpr
    ⟨forall_mem_append.mpr ⟨advances _ _ hguarded.left, clauses_advance advancesCatches hguarded.right⟩,
      option_advances advancesFinal hparts.right⟩⟩
  have hw : w ∈ body.id :: catches.map Clause.id := by simpa [Function.comp_def] using hw
  rcases mem_cons.mp hw with rfl | hw
  · exact mem_append_left _ (mem_append_left _ body.id_mem_course)
  · exact mem_append_left _ (mem_append_right _ (id_mem_clauseCourse w hw))

/-! ## All statements -/

/-- One case for each kind of statement. -/
theorem inductive_advances (rank : VertexId → Nat) :
    Statement.Inductive (Statement.Advances rank) (Block.Advances rank) where
  simple id frames cont h := by
    intro j hj
    rw [mem_singleton.mp hj]
    exact h.beyond.handing mem_cons_self .sequential
  exit id frames cont h := by
    intro j hj
    rw [mem_singleton.mp hj]
    exact fun e he => absurd he not_mem_nil
  breaks id frames cont h := advances_jump h.jumps.1
  continues id frames cont h := advances_jump h.jumps.2
  nested block h := h
  ifElse _ _ _ := ifElse_advances
  whileLoop _ _ _ _ hbody hskip _ _ := guardedLoop_advances hbody hskip .whileLoopStatement .positive .negative
  forEach _ _ _ _ _ hbody hskip _ _ := guardedLoop_advances hbody hskip .forEachStatement .sequential .sequential
  forLoop _ _ _ _ _ _ h hskip := forLoop_advances h hskip
  doLoop _ _ _ h := doLoop_advances h
  switch _ _ _ := switch_advances
  tryCatch _ _ _ _ := tryCatch_advances
  block _ _ := block_advances

theorem Block.junctions_advance (b : Block) : b.Advances rank := (inductive_advances rank).forall_block b

end

end ApexPaths.Flow
