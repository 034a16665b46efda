import ApexPaths.Proofs.Path.Traces
import ApexPaths.Proofs.Result

/-!
The forward paths of a method are the traces of its body. A junction whose ended scopes are exact is
passed without a scope error, and what follows it is what follows its next vertices. From that, by
recursion on the statement: under any continuation, the ways on from a statement's entry are the
statement's ways, each resumed where it ends.
-/

namespace ApexPaths.Flow
set_option autoImplicit false

open List

variable {cont : Continuation} {rest : Option (List (List PathVertex))} {kind : FlowKind} {v : VertexId}
variable {first : List (List PathVertex)}

variable {ways second : List (List PathVertex)} {condition : Option VertexId}

section
variable (graph : CodeGraph) (method top : VertexId)

/-! ## Entering a vertex -/

/-- With enough fuel the enumeration from a vertex, under the scopes open before it, gives these ways on. -/
def Enters (n : Nat) (v : VertexId) (ways : List (List PathVertex)) : Prop :=
  ∀ m, n ≤ m → Path.forwardFrom graph method m (graph.scopesBefore top v).length v = .ok ways

/-- What follows a continuation: nothing, or the ways on from its target. -/
def Resumes (n : Nat) (cont : Continuation) (rest : Option (List (List PathVertex))) : Prop :=
  match cont.target, rest with
  | none, none => True
  | some w, some ways => Enters graph method top n w ways
  | _, _ => False

/-- A junction that stands in the graph and ends scopes exactly. -/
structure Junction.Sound (junction : Junction) : Prop where
  stands : junction.Stands graph
  exact : ∃ targets, junction.Exact graph top targets
  balanced : graph.openScopes top junction.id = (graph.scope? junction.id).toList ++ graph.scopesBefore top junction.id

variable {graph method top}

theorem Enters.mono {n m : Nat} {v : VertexId} (h : Enters graph method top n v ways)
    (hnm : n ≤ m) : Enters graph method top m v ways := fun k hk => h k (Nat.le_trans hnm hk)

theorem Resumes.mono {n m : Nat}
    (h : Resumes graph method top n cont rest) (hnm : n ≤ m) : Resumes graph method top m cont rest := by
  obtain ⟨target, ended⟩ := cont
  cases target <;> cases rest
  · trivial
  · exact h
  · exact h
  · exact Enters.mono h hnm

section
variable {junction : Junction} (sound : junction.Sound graph top)
include sound

theorem Junction.Sound.depth_eq :
    ((graph.scopesBefore top junction.id).length : Int) + Path.scopeChange graph junction.id =
      ((graph.openScopes top junction.id).drop junction.left.length).length := by
  obtain ⟨targets, hexact⟩ := sound.exact
  have hle := hexact.left_isPrefix.length_le
  have hopens : (if (graph.label? junction.id).any NodeKind.opensScope then 1 else 0 : Int) =
      (graph.scope? junction.id).toList.length := by
    rw [CodeGraph.scope?]
    cases graph.label? junction.id with
    | none => rfl
    | some label => by_cases ho : label.opensScope = true <;> simp [Option.filter_some, ho]
  have hlength := congrArg List.length sound.balanced
  rw [length_append] at hlength
  rw [Path.scopeChange, hopens, sound.stands.left_eq, length_drop]
  omega

theorem Junction.Sound.enters_end (hnext : junction.next = []) :
    Enters graph method top 1 junction.id [[⟨junction.id, none⟩]] := by
  obtain ⟨targets, hexact⟩ := sound.exact
  have hdepth := sound.depth_eq
  rw [← hexact.left_eq hnext, drop_length, length_nil] at hdepth
  intro m hm
  obtain ⟨k, rfl⟩ : ∃ k, m = k + 1 := ⟨m - 1, by omega⟩
  rw [Path.forwardFrom, hdepth, sound.stands.next_eq, hnext]
  rfl

/-- The paths from a junction, through each of its edges in turn. -/
theorem Junction.Sound.enters_next {n : Nat} (parts : List ((VertexId × FlowKind) × List (List PathVertex)))
    (hnext : junction.next = parts.map Prod.fst) (hne : parts ≠ [])
    (h : ∀ part ∈ parts, Enters graph method top n part.1.1 part.2) :
    Enters graph method top (n + 1) junction.id
      (parts.flatMap fun part => part.2.map (leaving [(junction.id, part.1.2)] ++ ·)) := by
  obtain ⟨targets, hexact⟩ := sound.exact
  have hdepth := sound.depth_eq
  intro m hm
  obtain ⟨k, rfl⟩ : ∃ k, m = k + 1 := ⟨m - 1, by omega⟩
  have hways : ∀ ps : List ((VertexId × FlowKind) × List (List PathVertex)), (∀ part ∈ ps, part ∈ parts) →
      ((ps.map Prod.fst).mapM fun (e : VertexId × FlowKind) => do
        return (← Path.forwardFrom graph method k
          ((graph.openScopes top junction.id).drop junction.left.length).length e.1).map
          (⟨junction.id, some e.2⟩ :: ·) : Except EngineError _) =
        .ok (ps.map fun part => part.2.map (⟨junction.id, some part.1.2⟩ :: ·)) := by
    intro ps hps
    induction ps with
    | nil => rfl
    | cons part ps ih =>
      have hpart := hps part mem_cons_self
      have hscopes := hexact.drop_left part.1 (hnext ▸ mem_map_of_mem hpart)
      have hrest := ih fun p hp => hps p (mem_cons_of_mem _ hp)
      rw [map_cons, mapM_cons, hrest, hscopes, h part hpart k (by omega)]
      rfl
  have hall := hways parts fun _ h => h
  obtain ⟨part, rest, rfl⟩ := exists_cons_of_ne_nil hne
  rw [Path.forwardFrom, hdepth, sound.stands.next_eq, hnext]
  rw [map_cons] at hall ⊢
  simp only [hall, flatMap_def]
  rfl

theorem Junction.Sound.enters_one {n : Nat} {w : VertexId}
    (hnext : junction.next = [(w, kind)]) (h : Enters graph method top n w ways) :
    Enters graph method top (n + 1) junction.id (ways.map (leaving [(junction.id, kind)] ++ ·)) := by
  have hall := sound.enters_next [((w, kind), ways)] hnext (cons_ne_nil _ _) (by simpa using h)
  rwa [flatMap_singleton] at hall

end

theorem enters_handing {n : Nat} (sound : (Junction.handing v cont kind).Sound graph top)
    (h : Resumes graph method top n cont rest) : Enters graph method top (n + 1) v (resume rest [(v, kind)]) := by
  obtain ⟨target, ended⟩ := cont
  cases target <;> cases rest
  · exact (sound.enters_end rfl).mono (by omega)
  · exact h.elim
  · exact h.elim
  · exact sound.enters_one rfl h

/-! ## Tails of continuations -/

/-- The jumps of the innermost loop are followed by the tails. -/
structure Frames.Resume (graph : CodeGraph) (method top : VertexId) (n : Nat) (frames : Frames) (tails : Tails) :
    Prop where
  onBreak : ∀ cont ∈ breakExit? frames, Resumes graph method top n cont tails.breaks
  onContinue : ∀ cont ∈ continueExit? frames, Resumes graph method top n cont tails.continues

section
variable {n m : Nat} {frames : Frames} {tails : Tails}

section
variable (h : Frames.Resume graph method top n frames tails)
include h

theorem Frames.Resume.mono (hnm : n ≤ m) :
    Frames.Resume graph method top m frames tails :=
  ⟨fun cont hc => (h.onBreak cont hc).mono hnm, fun cont hc => (h.onContinue cont hc).mono hnm⟩

theorem Frames.Resume.falls (rest : Option (List (List PathVertex))) :
    Frames.Resume graph method top n frames { tails with falls := rest } := ⟨h.onBreak, h.onContinue⟩

theorem Frames.Resume.scope (kind : NodeKind) :
    Frames.Resume graph method top n (⟨kind, none⟩ :: frames) tails where
  onBreak := by
    intro cont hc
    rw [breakExit?_scope] at hc
    obtain ⟨inner, hi, rfl⟩ := Option.map_eq_some_iff.mp hc
    exact h.onBreak inner hi
  onContinue := by
    intro cont hc
    rw [continueExit?_scope] at hc
    obtain ⟨inner, hi, rfl⟩ := Option.map_eq_some_iff.mp hc
    exact h.onContinue inner hi

end

theorem Frames.resume_loop {kind : NodeKind} {exits : LoopExits}
    (hbreak : Resumes graph method top n exits.onBreak tails.breaks) (hcontinue : Resumes graph method top n
      ((exits.onContinue.map Continuation.to).getD (exits.onBreak.leaving kind)) tails.continues) :
    Frames.Resume graph method top n (⟨kind, some exits⟩ :: frames) tails where
  onBreak := by
    intro cont hc
    rw [breakExit?_loop] at hc
    cases hc
    exact hbreak
  onContinue := by
    intro cont hc
    rw [continueExit?_loop] at hc
    cases hc
    exact hcontinue

theorem resumes_through {last : Option VertexId}
    (label : NodeKind) (h : Resumes graph method top n cont rest)
    (sound : ∀ v ∈ last, (Junction.handing v (cont.leaving label) kind).Sound graph top) :
    Resumes graph method top (n + last.toList.length) ((last.map Continuation.to).getD (cont.leaving label))
      (through rest (last.map (·, kind))) := by
  cases last with
  | none => exact h
  | some v => exact enters_handing (sound v rfl) h

end

/-! ## Statements -/

theorem enters_fork {n : Nat} {w : VertexId} {other : Option VertexId} {onFirst onSecond : FlowKind}
    (sound : Junction.Sound graph top ⟨v, (w, onFirst) :: other.toList.map (·, onSecond), []⟩)
    (hfirst : Enters graph method top n w first) (hsecond : ∀ u ∈ other, Enters graph method top n u second)
    (hnone : other = none → second = []) :
    Enters graph method top (n + 1) v
      (first.map (leaving [(v, onFirst)] ++ ·) ++ second.map (leaving [(v, onSecond)] ++ ·)) := by
  cases other with
  | none =>
    rw [hnone rfl, map_nil, append_nil]
    exact sound.enters_one rfl hfirst
  | some u =>
    have h := sound.enters_next [((w, onFirst), first), ((u, onSecond), second)] rfl (cons_ne_nil _ _)
      (by simpa using ⟨hfirst, hsecond u rfl⟩)
    simpa using h

theorem enters_guardedLoop {n : Nat} {id head : VertexId} {body : Block} {skip : Option Block}
    {onBody onSkip : FlowKind} {tails : Tails} (hid : Junction.Sound graph top ⟨id, [(head, .sequential)], []⟩)
    (hhead : Junction.Sound graph top ⟨head, (body.id, onBody) :: skip.toList.map fun skip => (skip.id, onSkip), []⟩)
    (hbody : Enters graph method top (n + body.vertices.length) body.id first)
    (hskip : ∀ v ∈ skip.map Block.id,
      Enters graph method top (n + (optionVertices skip).length) v ((optionWays skip).flatMap (Way.deliver tails))) :
    Enters graph method top (n + (id :: head :: (body.vertices ++ optionVertices skip)).length) id
      ((first.map (leaving [(head, onBody)] ++ ·) ++
        ((optionWays skip).flatMap (Way.deliver tails)).map (leaving [(head, onSkip)] ++ ·)).map
          (leaving [(id, .sequential)] ++ ·)) := by
  have hlength : (id :: head :: (body.vertices ++ optionVertices skip)).length =
      body.vertices.length + (optionVertices skip).length + 2 := by simp
  have hjunction : Junction.Sound graph top ⟨head, (body.id, onBody) :: (skip.map Block.id).toList.map (·, onSkip),
      []⟩ := by
    cases skip <;> exact hhead
  have hfork := enters_fork hjunction
    (hbody.mono (show _ ≤ n + body.vertices.length + (optionVertices skip).length by omega))
    (fun v hv => (hskip v hv).mono (by omega)) (by cases skip <;> simp [optionWays])
  exact (hid.enters_one rfl hfork).mono (by omega)

theorem enters_loopHead {n : Nat} {id body : VertexId} {init skip : Option VertexId}
    (sound : ∀ j ∈ loopHeadJunctions id init condition body skip, j.Sound graph top)
    (hfirst : Enters graph method top n body first) (hsecond : ∀ u ∈ skip, Enters graph method top n u second)
    (hnone : skip = none → second = []) :
    Enters graph method top (n + 1 + init.toList.length + condition.toList.length) id
      ((match condition with
        | some c => first.map (leaving [(c, .positive)] ++ ·) ++ second.map (leaving [(c, .negative)] ++ ·)
        | none => first).map (leaving ((id, .sequential) :: init.toList.map (·, .sequential)) ++ ·)) := by
  cases condition with
  | none =>
    cases init with
    | none => exact (sound ⟨id, [(body, .sequential)], []⟩ (by simp [loopHeadJunctions])).enters_one rfl hfirst
    | some init =>
      have hinit := (sound ⟨init, [(body, .sequential)], []⟩ (by simp [loopHeadJunctions])).enters_one rfl hfirst
      have hid := (sound ⟨id, [(init, .sequential)], []⟩ (by simp [loopHeadJunctions])).enters_one rfl hinit
      rw [map_map] at hid
      exact hid
  | some c =>
    have hc := enters_fork (sound ⟨c, (body, .positive) :: skip.toList.map (·, .negative), []⟩
      (by simp [loopHeadJunctions])) hfirst hsecond hnone
    cases init with
    | none => exact (sound ⟨id, [(c, .sequential)], []⟩ (by simp [loopHeadJunctions])).enters_one rfl hc
    | some init =>
      have hinit := (sound ⟨init, [(c, .sequential)], []⟩ (by simp [loopHeadJunctions])).enters_one rfl hc
      have hid := (sound ⟨id, [(init, .sequential)], []⟩ (by simp [loopHeadJunctions])).enters_one rfl hinit
      rw [map_map] at hid
      exact hid

theorem enters_clauses {n : Nat} {clauses : List Clause} {tails : Tails}
    (first : List ((VertexId × FlowKind) × List (List PathVertex))) (hne : first ≠ [] ∨ clauses ≠ [])
    (sound : Junction.Sound graph top ⟨v, first.map Prod.fst ++ clauses.map fun clause => (clause.id, kind), []⟩)
    (hfirst : ∀ part ∈ first, Enters graph method top n part.1.1 part.2)
    (h : ∀ clause ∈ clauses, Enters graph method top n clause.id (clause.ways.flatMap (Way.deliver tails))) :
    Enters graph method top (n + 1) v
      (first.flatMap (fun part => part.2.map (leaving [(v, part.1.2)] ++ ·)) ++
        ((clauseWays clauses).flatMap (Way.deliver tails)).map (leaving [(v, kind)] ++ ·)) := by
  have hall := sound.enters_next
    (first ++ clauses.map fun clause => ((clause.id, kind), clause.ways.flatMap (Way.deliver tails)))
    (by simp [Function.comp_def]) (by simpa [Decidable.imp_iff_not_or] using hne)
    (forall_mem_append.mpr ⟨hfirst, forall_mem_map.mpr h⟩)
  rw [flatMap_append, flatMap_map] at hall
  rw [clauseWays_eq, flatMap_assoc, map_flatMap]
  exact hall

section
variable (source graph : CodeGraph) (method top : VertexId)

/-- Where its junctions are sound, the paths from the statement on are its ways, each followed by the tail for its
end. -/
def Statement.Traced (s : Statement) : Prop :=
  ∀ frames cont n tails, s.Holds source → s.fault? (innermostLoop? frames).isSome = none →
    (∀ j ∈ s.junctions frames cont, j.Sound graph top) → Frames.Resume graph method top n frames tails →
    Resumes graph method top n cont tails.falls →
    Enters graph method top (n + s.vertices.length) s.id (s.ways.flatMap (Way.deliver tails))

@[inherit_doc Statement.Traced]
def Block.Traced (b : Block) : Prop :=
  ∀ frames cont n tails, b.Holds source → b.fault? (innermostLoop? frames).isSome = none →
    (∀ j ∈ b.junctions frames cont, j.Sound graph top) → Frames.Resume graph method top n frames tails →
    Resumes graph method top n cont tails.falls →
    Enters graph method top (n + b.vertices.length) b.id (b.ways.flatMap (Way.deliver tails))

end

/-! ## Parts of statements -/

section
variable {source : CodeGraph} (frames : Frames) {n : Nat} {tails : Tails}

theorem option_enters {b : Option Block} (traced : ∀ block ∈ b, block.Traced source graph method top)
    (h : optionHolds source b) (hf : optionFault? (innermostLoop? frames).isSome b = none)
    (hj : ∀ j ∈ optionJunctions frames cont b, j.Sound graph top) (hr : Frames.Resume graph method top n frames tails)
    (hc : Resumes graph method top n cont tails.falls) : ∀ v ∈ b.map Block.id,
    Enters graph method top (n + (optionVertices b).length) v ((optionWays b).flatMap (Way.deliver tails)) := by
  cases b with
  | none => simp
  | some block =>
    intro v hv
    cases hv
    exact traced block rfl frames cont n tails h hf hj hr hc

/-- The ways of a sequence are those of its statements one after the other. -/
theorem sequence_enters {body : List Statement} (traced : ∀ s ∈ body, s.Traced source graph method top)
    (h : statementsHold source body) (hf : sequenceFault? (innermostLoop? frames).isSome body = none)
    (hj : ∀ j ∈ sequenceJunctions frames cont body, j.Sound graph top)
    (hr : Frames.Resume graph method top n frames tails)
    (hc : Resumes graph method top n cont tails.falls) : ∀ first ∈ body.head?,
    Enters graph method top (n + (sequenceVertices body).length) first.id
      ((sequenceWays body).flatMap (Way.deliver tails)) := by
  induction body with
  | nil => simp
  | cons first rest ih =>
    obtain ⟨hffirst, hfrest⟩ := Option.or_eq_none_iff.mp hf
    obtain ⟨hjfirst, hjrest⟩ := forall_mem_append.mp hj
    obtain ⟨htraced, htracedRest⟩ := forall_mem_cons.mp traced
    intro v hv
    cases hv
    cases rest with
    | nil =>
      rw [sequenceWays_singleton, sequenceVertices, sequenceVertices, append_nil]
      exact htraced frames cont n tails h.1 hffirst hjfirst hr hc
    | cons next rest =>
      have hnext := ih htracedRest h.2 hfrest hjrest next rfl
      let tails' : Tails := { tails with falls := some ((sequenceWays (next :: rest)).flatMap (Way.deliver tails)) }
      have hway :=
        htraced frames (.to next.id) _ tails' h.1 hffirst hjfirst ((hr.mono (Nat.le_add_right _ _)).falls _) hnext
      have hlength : (sequenceVertices (first :: next :: rest)).length =
          first.vertices.length + (sequenceVertices (next :: rest)).length := by
        rw [sequenceVertices, length_append]
      rw [sequenceWays, flatMap_deliver_followedBy tails (proper_sequenceWays next rest) first.ways]
      exact hway.mono (by omega)

theorem block_enters {id : VertexId} {body : List Statement} (traced : ∀ s ∈ body, s.Traced source graph method top) :
    (Block.mk id body).Traced source graph method top := by
  intro frames cont n tails h hf hj hr hc
  cases body with
  | nil =>
    have hsound := hj _ mem_cons_self
    rw [Block.ways, sequenceWays, map_singleton, flatMap_singleton]
    exact enters_handing hsound hc
  | cons first rest =>
    obtain ⟨hhead, hbody⟩ := forall_mem_cons.mp hj
    have hway := sequence_enters (⟨.blockStatement, none⟩ :: frames) traced h.2.2
      (by rwa [innermostLoop?_scope]) hbody (hr.scope _)
      (show Resumes graph method top n (cont.leaving .blockStatement) _ from hc)
      first rfl
    rw [Block.ways, flatMap_deliver_after tails _ (proper_sequenceWays first rest)]
    exact hhead.enters_one rfl hway

/-- The ways of branches: each condition passed or taken. -/
theorem branches_enter {branches : List Branch}
    (traced : ∀ branch ∈ branches, branch.body.Traced source graph method top) {otherwise : Option VertexId}
    {ways : List Way} {k : Nat} (h : branchesHold source branches)
    (hf : branchesFault? (innermostLoop? frames).isSome branches = none)
    (hj : ∀ j ∈ branchJunctions frames cont otherwise branches, j.Sound graph top)
    (hr : Frames.Resume graph method top n frames tails) (hc : Resumes graph method top n cont tails.falls)
    (hnk : n ≤ k)
    (hp : Proper ways) (hnone : otherwise = none → ways = [])
    (ho : ∀ v ∈ otherwise, Enters graph method top k v (ways.flatMap (Way.deliver tails))) :
    ∀ v ∈ (branches.head?.map Branch.id).or otherwise, Enters graph method top (k + (branchVertices branches).length) v
      ((branchWays ways branches).flatMap (Way.deliver tails)) := by
  induction branches with
  | nil => exact ho
  | cons branch rest ih =>
    obtain ⟨id, condition, body⟩ := branch
    obtain ⟨hfbody, hfrest⟩ := Option.or_eq_none_iff.mp hf
    obtain ⟨hid, hj⟩ := forall_mem_cons.mp hj
    obtain ⟨hcondition, hj⟩ := forall_mem_cons.mp hj
    obtain ⟨hjbody, hjrest⟩ := forall_mem_append.mp hj
    obtain ⟨htraced, htracedRest⟩ := forall_mem_cons.mp traced
    have hb := htraced frames cont n tails h.2.2.2.1 hfbody hjbody hr hc
    have hrest := ih htracedRest h.2.2.2.2 hfrest hjrest
    have hempty : (rest.head?.map Branch.id).or otherwise = none →
        (branchWays ways rest).flatMap (Way.deliver tails) = [] := by
      intro hnext
      cases rest with
      | nil => simp [branchWays, hnone (by simpa using hnext)]
      | cons next rest => simp at hnext
    have hlength : (branchVertices (.mk id condition body :: rest)).length =
        body.vertices.length + (branchVertices rest).length + 2 := by simp [branchVertices]
    have hfork := enters_fork hcondition (hb.mono (show _ ≤ k + body.vertices.length + (branchVertices rest).length by
      simp only [Branch.body]; omega)) (fun v hv => (hrest v hv).mono (by omega)) hempty
    have hone := hid.enters_one rfl hfork
    intro v hv
    cases hv
    rw [branchWays, flatMap_append, flatMap_deliver_after_pair _ _ _ body.proper_ways,
      flatMap_deliver_after_pair _ _ _ (proper_branchWays hp rest), ← map_append]
    exact hone.mono (by omega)

theorem clauses_enter {clauses : List Clause} (traced : ∀ clause ∈ clauses, clause.body.Traced source graph method top)
    {kinds : NodeKind → Bool} (h : clausesHold source kinds clauses)
    (hf : clausesFault? (innermostLoop? frames).isSome clauses = none)
    (hj : ∀ j ∈ clauseJunctions frames cont clauses, j.Sound graph top)
    (hr : Frames.Resume graph method top n frames tails)
    (hc : Resumes graph method top n cont tails.falls) : ∀ clause ∈ clauses,
    Enters graph method top (n + (clauseVertices clauses).length) clause.id
    (clause.ways.flatMap (Way.deliver tails)) := by
  induction clauses with
  | nil => simp
  | cons clause rest ih =>
    obtain ⟨id, kind, cases, body⟩ := clause
    obtain ⟨hfbody, hfrest⟩ := Option.or_eq_none_iff.mp hf
    obtain ⟨hid, hj⟩ := forall_mem_cons.mp hj
    obtain ⟨hjbody, hjrest⟩ := forall_mem_append.mp hj
    obtain ⟨htraced, htracedRest⟩ := forall_mem_cons.mp traced
    have hb : Enters graph method top (n + body.vertices.length) body.id (body.ways.flatMap (Way.deliver tails)) :=
      htraced (⟨kind, none⟩ :: frames) (cont.leaving kind) n tails h.2.2.2.1 (by rwa [innermostLoop?_scope]) hjbody
        (hr.scope kind) hc
    have hone := hid.enters_one rfl hb
    have hrest := ih htracedRest h.2.2.2.2 hfrest hjrest
    have hlength : (clauseVertices (.mk id kind cases body :: rest)).length =
        body.vertices.length + (clauseVertices rest).length + 1 := by simp [clauseVertices]
    refine forall_mem_cons.mpr ⟨?_, fun clause hclause => (hrest clause hclause).mono (by omega)⟩
    rw [Clause.ways, flatMap_deliver_after tails _ body.proper_ways]
    exact hone.mono (by omega)

end

/-! ## Compound statements -/

section
variable {source : CodeGraph}

theorem ifElse_enters {id : VertexId} {branches : List Branch} {otherwise : Option Block}
    (traced : ∀ branch ∈ branches, branch.body.Traced source graph method top)
    (tracedElse : ∀ block ∈ otherwise, block.Traced source graph method top) :
    (Statement.ifElse id branches otherwise).Traced source graph method top := by
  intro frames cont n tails ⟨_, hne, _, hbranches, hotherwise⟩ hf hj hr hc
  rw [Statement.fault?] at hf
  split at hf
  · exact absurd hf (Option.some_ne_none _)
  obtain ⟨hfbranches, hfotherwise⟩ := Option.or_eq_none_iff.mp hf
  obtain ⟨hid, hj⟩ := forall_mem_cons.mp hj
  obtain ⟨hjbranches, hjotherwise⟩ := forall_mem_append.mp hj
  have hinner : Resumes graph method top n (cont.leaving .ifElseBlockStatement) tails.falls := hc
  have ho := option_enters (⟨.ifElseBlockStatement, none⟩ :: frames) tracedElse hotherwise
    (by rwa [innermostLoop?_scope]) hjotherwise (hr.scope _) hinner
  have hb := branches_enter (⟨.ifElseBlockStatement, none⟩ :: frames) traced hbranches (by rwa [innermostLoop?_scope])
    hjbranches (hr.scope _) hinner (Nat.le_add_right n (optionVertices otherwise).length) (proper_optionWays otherwise)
    (by cases otherwise <;> simp [optionWays]) ho
  obtain ⟨first, rest, rfl⟩ := exists_cons_of_ne_nil hne
  have hone := hid.enters_one rfl (hb first.id rfl)
  have hlength : (Statement.ifElse id (first :: rest) otherwise).vertices.length =
      (branchVertices (first :: rest)).length + (optionVertices otherwise).length + 1 := by simp [Statement.vertices]
  rw [Statement.ways, flatMap_deliver_after tails _ (proper_branchWays (proper_optionWays otherwise) _)]
  exact hone.mono (by omega)

section
variable {id : VertexId} {body : Block} {skip : Option Block} (traced : body.Traced source graph method top)
include traced

section
variable (tracedSkip : ∀ block ∈ skip, block.Traced source graph method top)
include tracedSkip

theorem whileLoop_enters {condition : VertexId} :
    (Statement.whileLoop id condition body skip).Traced source graph method top := by
  intro frames cont n tails ⟨_, _, _, hbody, hskip, _⟩ hf hj hr hc
  obtain ⟨hfbody, hfskip⟩ := Option.or_eq_none_iff.mp hf
  obtain ⟨hid, hj⟩ := forall_mem_cons.mp hj
  obtain ⟨hcondition, hj⟩ := forall_mem_cons.mp hj
  obtain ⟨hjbody, hjskip⟩ := forall_mem_append.mp hj
  have hloop : Frames.Resume graph method top n (⟨.whileLoopStatement, some ⟨cont, none⟩⟩ :: frames)
      (tails.inLoop none) :=
    Frames.resume_loop hc hc
  have hb := traced (⟨.whileLoopStatement, some ⟨cont, none⟩⟩ :: frames) _ n (tails.inLoop none) hbody hfbody
    hjbody hloop hc
  have hs := option_enters (⟨.whileLoopStatement, some ⟨cont, none⟩⟩ :: frames) tracedSkip hskip hfskip hjskip hloop hc
  have hway := enters_guardedLoop hid hcondition hb hs
  rw [Statement.ways, flatMap_deliver_leavingLoop, flatMap_append, flatMap_deliver_after_pair _ _ _ body.proper_ways,
    flatMap_deliver_after_pair _ _ _ (proper_optionWays skip), ← map_append]
  exact hway

theorem forEach_enters {variable_ iterable : VertexId} :
    (Statement.forEach id variable_ iterable body skip).Traced source graph method top := by
  intro frames cont n tails ⟨_, _, _, _, hbody, hskip, _⟩ hf hj hr hc
  obtain ⟨hfbody, hfskip⟩ := Option.or_eq_none_iff.mp hf
  obtain ⟨hid, hj⟩ := forall_mem_cons.mp hj
  obtain ⟨hvariable, hj⟩ := forall_mem_cons.mp hj
  obtain ⟨hjbody, hjskip⟩ := forall_mem_append.mp hj
  have hloop : Frames.Resume graph method top n (⟨.forEachStatement, some ⟨cont, none⟩⟩ :: frames)
      (tails.inLoop none) :=
    Frames.resume_loop hc hc
  have hb := traced (⟨.forEachStatement, some ⟨cont, none⟩⟩ :: frames) _ n (tails.inLoop none) hbody hfbody
    hjbody hloop hc
  have hs := option_enters (⟨.forEachStatement, some ⟨cont, none⟩⟩ :: frames) tracedSkip hskip hfskip hjskip hloop hc
  have hway := enters_guardedLoop hid hvariable hb hs
  rw [Statement.ways, flatMap_deliver_leavingLoop,
    flatMap_deliver_after_pair _ _ _ (body.proper_ways.append (proper_optionWays skip)), flatMap_append, map_append]
  exact hway

theorem forLoop_enters
    {init update : Option VertexId} :
    (Statement.forLoop id init condition update body skip).Traced source graph method top := by
  intro frames cont n tails ⟨_, _, _, _, _, _, _, _, hbody, hskip, _⟩ hf hj hr hc
  obtain ⟨hfbody, hfskip⟩ := Option.or_eq_none_iff.mp hf
  obtain ⟨hj, hjskip⟩ := forall_mem_append.mp hj
  obtain ⟨hj, hjupdate⟩ := forall_mem_append.mp hj
  obtain ⟨hjhead, hjbody⟩ := forall_mem_append.mp hj
  let round : Option (VertexId × FlowKind) := update.map (·, .sequential)
  let k := n + update.toList.length
  have hnk : n ≤ k := Nat.le_add_right _ _
  have hround : Resumes graph method top k ((update.map Continuation.to).getD (cont.leaving .forLoopStatement))
      (through tails.falls round) :=
    resumes_through .forLoopStatement hc fun v hv => hjupdate _ (mem_map_of_mem (Option.mem_toList.mpr hv))
  have hloop : Frames.Resume graph method top k (⟨.forLoopStatement, some ⟨cont, update⟩⟩ :: frames)
      (tails.inLoop round) :=
    Frames.resume_loop (hc.mono hnk) hround
  have hb := traced (⟨.forLoopStatement, some ⟨cont, update⟩⟩ :: frames) _ k
    { tails.inLoop round with falls := through tails.falls round } hbody hfbody hjbody (hloop.falls _) hround
  have hs := option_enters (⟨.forLoopStatement, some ⟨cont, update⟩⟩ :: frames) tracedSkip hskip hfskip hjskip hloop
    (hc.mono hnk)
  have hhead := enters_loopHead hjhead
    (hb.mono (show _ ≤ k + body.vertices.length + (optionVertices skip).length by omega))
    (fun v hv => (hs v hv).mono (by omega)) (by cases skip <;> simp [optionWays])
  have hlength : (Statement.forLoop id init condition update body skip).vertices.length =
      init.toList.length + condition.toList.length + body.vertices.length + update.toList.length +
        (optionVertices skip).length + 1 := by
    simp only [Statement.vertices, length_cons, length_append]
  have hways : (Statement.forLoop id init condition update body skip).ways.flatMap (Way.deliver tails) = _ :=
    forLoop_deliver tails id init condition update body skip
  rw [hways]
  exact hhead.mono (by omega)

end

theorem doLoop_enters {condition : VertexId} : (Statement.doLoop id body condition).Traced source graph method top := by
  intro frames cont n tails h hf hj hr hc
  obtain ⟨hid, hj⟩ := forall_mem_cons.mp hj
  obtain ⟨hjbody, hjcondition⟩ := forall_mem_append.mp hj
  let round : Option (VertexId × FlowKind) := some (condition, .negative)
  have hround : Resumes graph method top (n + 1) (.to condition) (through tails.falls round) :=
    enters_handing (hjcondition _ mem_cons_self) hc
  have hloop : Frames.Resume graph method top (n + 1) (⟨.doLoopStatement, some ⟨cont, some condition⟩⟩ :: frames)
      (tails.inLoop round) := Frames.resume_loop (hc.mono (Nat.le_succ n)) hround
  have hb := traced (⟨.doLoopStatement, some ⟨cont, some condition⟩⟩ :: frames) (.to condition) (n + 1)
    { tails.inLoop round with falls := through tails.falls round } h.2.2.2 hf hjbody (hloop.falls _) hround
  have hway := hid.enters_one rfl hb
  have hlength : (Statement.doLoop id body condition).vertices.length = body.vertices.length + 2 := by
    simp [Statement.vertices]
  rw [Statement.ways, flatMap_deliver_leavingLoop,
    flatMap_deliver_after _ _ (body.proper_ways.map (Way.passing_ne_nil _)), flatMap_deliver_passing]
  exact hway.mono (by omega)

end

theorem switch_enters {id subject : VertexId} {whens : List Clause}
    (traced : ∀ clause ∈ whens, clause.body.Traced source graph method top) :
    (Statement.switch id subject whens).Traced source graph method top := by
  intro frames cont n tails h hf hj hr hc
  obtain ⟨hid, hj⟩ := forall_mem_cons.mp hj
  obtain ⟨hsubject, hjwhens⟩ := forall_mem_cons.mp hj
  have hinner : Resumes graph method top n (cont.leaving .switchStatement) tails.falls := hc
  have hw := clauses_enter (⟨.switchStatement, none⟩ :: frames) traced h.2.2.2 (by rwa [innermostLoop?_scope]) hjwhens
    (hr.scope _) hinner
  cases whens with
  | nil =>
    have hone := enters_handing hsubject hc
    rw [Statement.ways, isEmpty_nil, if_pos rfl, flatMap_singleton]
    have hway := hid.enters_one rfl hone
    rwa [← resume_append _ _ (cons_ne_nil _ _)] at hway
  | cons clause rest =>
    have hfork := enters_clauses [] (.inr (cons_ne_nil _ _)) hsubject (by simp) hw
    have hway := hid.enters_one rfl hfork
    rw [Statement.ways, isEmpty_cons, if_neg Bool.false_ne_true, flatMap_deliver_after_pair _ _ _ (proper_clauseWays _)]
    exact hway

/-- A `try` with its handlers and its `finally` block. -/
theorem tryCatch_enters {id : VertexId} {body : Block} {catches : List Clause} {final : Option Block}
    (traced : body.Traced source graph method top) (tracedCatches : ∀ clause ∈ catches,
    clause.body.Traced source graph method top)
    (tracedFinal : ∀ block ∈ final, block.Traced source graph method top) :
    (Statement.tryCatch id body catches final).Traced source graph method top := by
  intro frames cont n tails ⟨_, _, _, hbody, hcatches, _, hfinal⟩ hf hj hr hc
  obtain ⟨hf, hffinal⟩ := Option.or_eq_none_iff.mp hf
  obtain ⟨hfbody, hfcatches⟩ := Option.or_eq_none_iff.mp hf
  obtain ⟨hid, hj⟩ := forall_mem_cons.mp hj
  obtain ⟨hj, hjfinal⟩ := forall_mem_append.mp hj
  obtain ⟨hjbody, hjcatches⟩ := forall_mem_append.mp hj
  have hleft : Resumes graph method top n (cont.leaving .tryCatchFinallyBlockStatement) tails.falls := hc
  have hlast :=
    option_enters (⟨.tryCatchFinallyBlockStatement, none⟩ :: frames) tracedFinal hfinal
    (by rwa [innermostLoop?_scope]) hjfinal (hr.scope _) hleft
  let k := n + (optionVertices final).length
  let tails' : Tails :=
    { tails with falls := (final.map fun block => some (block.ways.flatMap (Way.deliver tails))).getD tails.falls }
  have hafter : Resumes graph method top k
      ((final.map fun block => Continuation.to block.id).getD (cont.leaving .tryCatchFinallyBlockStatement))
      tails'.falls := by
    cases final with
    | none => exact hc
    | some block => exact hlast block.id rfl
  have hframes : Frames.Resume graph method top k (⟨.tryCatchFinallyBlockStatement, none⟩ :: frames) tails' :=
    ((hr.scope _).mono (Nat.le_add_right _ _)).falls _
  have hb := traced _ _ k tails' hbody (by rwa [innermostLoop?_scope]) hjbody hframes hafter
  have hcs := clauses_enter (⟨.tryCatchFinallyBlockStatement, none⟩ :: frames) tracedCatches hcatches
    (by rwa [innermostLoop?_scope]) hjcatches hframes hafter
  have hlength : (Statement.tryCatch id body catches final).vertices.length =
      body.vertices.length + (clauseVertices catches).length + (optionVertices final).length + 1 := by
    simp only [Statement.vertices, length_cons, length_append]
  have hway :=
    enters_clauses [((body.id, .sequential), body.ways.flatMap (Way.deliver tails'))] (.inl (cons_ne_nil _ _))
    hid (forall_mem_cons.mpr
    ⟨hb.mono (show _ ≤ k + body.vertices.length + (clauseVertices catches).length by omega), by simp⟩)
    fun clause hclause => (hcs clause hclause).mono (by omega)
  rw [tryCatch_deliver, flatMap_append, map_append]
  rw [flatMap_singleton] at hway
  exact hway.mono (by omega)

/-! ## All statements -/

theorem enters_jump {id : VertexId} {n : Nat} {exit? : Option Continuation} (hexit : exit?.isSome = true)
    (hj : ∀ j ∈ exit?.toList.map (Junction.handing id · .sequential), j.Sound graph top)
    (hc : ∀ cont ∈ exit?, Resumes graph method top n cont rest) :
    Enters graph method top (n + 1) id (resume rest [(id, .sequential)]) := by
  obtain ⟨exit, rfl⟩ := Option.isSome_iff_exists.mp hexit
  exact enters_handing (hj (.handing id exit .sequential) (by simp)) (hc exit rfl)

/-- A statement is traced where its parts are; one case for each construct. -/
theorem inductive_traced :
    Statement.Inductive (Statement.Traced source graph method top) (Block.Traced source graph method top) where
  simple id := by
    intro frames cont n tails _ _ hj _ hc
    have hsound := hj _ mem_cons_self
    rw [Statement.ways, flatMap_singleton]
    exact enters_handing hsound hc
  exit id := by
    intro frames cont n tails _ _ hj _ _
    have hsound := hj _ mem_cons_self
    have h : Enters graph method top 1 id [[⟨id, none⟩]] := hsound.enters_end rfl
    rw [Statement.ways, flatMap_singleton]
    exact h.mono (Nat.le_add_left 1 n)
  breaks id := by
    intro frames cont n tails _ hf hj hr _
    have hexit : (breakExit? frames).isSome = true :=
      (breakExit?_isSome frames).trans (Statement.fault?_breaks_eq_none.mp hf)
    rw [Statement.ways, flatMap_singleton]
    exact enters_jump hexit hj hr.onBreak
  continues id := by
    intro frames cont n tails _ hf hj hr _
    have hexit : (continueExit? frames).isSome = true :=
      (continueExit?_isSome frames).trans (Statement.fault?_breaks_eq_none.mp hf)
    rw [Statement.ways, flatMap_singleton]
    exact enters_jump hexit hj hr.onContinue
  nested _ traced := traced
  ifElse _ _ _ := ifElse_enters
  whileLoop _ _ _ _ body skip := whileLoop_enters body skip
  forEach _ _ _ _ _ body skip := forEach_enters body skip
  forLoop _ _ _ _ _ _ body skip := forLoop_enters body skip
  doLoop _ _ _ body := doLoop_enters body
  switch _ _ _ := switch_enters
  tryCatch _ _ _ _ := tryCatch_enters
  block _ _ := block_enters

theorem Block.traced (b : Block) : b.Traced source graph method top := inductive_traced.forall_block b

end

/-! ## Distinct paths -/

theorem nodup_ways {from_ : VertexId → Except EngineError (List (List PathVertex))}
    (next : List (VertexId × FlowKind)) (hnext : (next.map Prod.fst).Nodup)
    (hfrom : ∀ e ∈ next, ∀ ways, from_ e.1 = .ok ways →
      ways.Nodup ∧ ∀ way ∈ ways, way.head?.map PathVertex.id = some e.1) (found : List (List (List PathVertex)))
    (h : (next.mapM fun (e : VertexId × FlowKind) => do
      return (← from_ e.1).map (⟨v, some e.2⟩ :: ·) : Except EngineError _) = .ok found) :
    found.flatten.Nodup ∧ ∀ way ∈ found.flatten, ∃ e ∈ next, ∃ rest : List PathVertex,
      way = ⟨v, some e.2⟩ :: rest ∧ rest.head?.map PathVertex.id = some e.1 := by
  induction next generalizing found with
  | nil =>
    cases h
    simp
  | cons e next ih =>
    rw [map_cons, nodup_cons] at hnext
    obtain ⟨found, rest, hfound, hrest, rfl⟩ := mapM_cons_eq_ok.mp h
    obtain ⟨ways, hways, hfound⟩ := bind_eq_ok.mp hfound
    cases hfound
    obtain ⟨hdistinct, hstart⟩ := hfrom e mem_cons_self ways hways
    obtain ⟨hrestDistinct, hrestStart⟩ := ih hnext.2 (fun e' he' => hfrom e' (mem_cons_of_mem _ he')) rest hrest
    rw [flatten_cons]
    constructor
    · have hmapped : (ways.map (⟨v, some e.2⟩ :: ·)).Nodup :=
        pairwise_map.mpr (hdistinct.imp fun hne heq => hne (List.cons.inj heq).2)
      refine nodup_append.mpr ⟨hmapped, hrestDistinct, ?_⟩
      rintro way hway _ hother rfl
      obtain ⟨way, hin, rfl⟩ := mem_map.mp hway
      obtain ⟨e', he', rest', heq, hstart'⟩ := hrestStart _ hother
      obtain rfl := (List.cons.inj heq).2
      rw [hstart way hin, Option.some.injEq] at hstart'
      exact hnext.1 (hstart' ▸ mem_map_of_mem he')
    · intro way hway
      rcases mem_append.mp hway with hway | hway
      · obtain ⟨way, hin, rfl⟩ := mem_map.mp hway
        exact ⟨e, mem_cons_self, way, rfl, hstart way hin⟩
      · obtain ⟨e', he', hrest'⟩ := hrestStart way hway
        exact ⟨e', mem_cons_of_mem _ he', hrest'⟩

/-- No way is found twice. -/
theorem nodup_forwardFrom {vertices : List VertexId}
    (hforks : ∀ v ∈ vertices, ((graph.flowSuccessors v).map Prod.fst).Nodup ∧ ∀ e ∈ graph.flowSuccessors v,
    e.1 ∈ vertices)
    (n : Nat) (depth : Int) (v : VertexId) (hv : v ∈ vertices) (ways : List (List PathVertex))
    (h : Path.forwardFrom graph method n depth v = .ok ways) :
    ways.Nodup ∧ ∀ way ∈ ways, way.head?.map PathVertex.id = some v := by
  induction n generalizing depth v ways with
  | zero => exact absurd h (by simp [Path.forwardFrom])
  | succ n ih =>
    obtain ⟨hnodup, hclosed⟩ := hforks v hv
    rw [Path.forwardFrom] at h
    by_cases hdepth : depth + Path.scopeChange graph v < 0
    · rw [if_pos hdepth] at h
      obtain ⟨_, h, -⟩ := bind_eq_ok.mp h
      cases h
    rw [if_neg hdepth] at h
    cases hnext : graph.flowSuccessors v with
    | nil =>
      rw [hnext] at h
      by_cases hzero : depth + Path.scopeChange graph v ≠ 0
      · simp only [if_pos hzero] at h
        cases h
      · simp only [if_neg hzero] at h
        cases h
        simp
    | cons e next =>
      rw [hnext] at h hnodup hclosed
      obtain ⟨found, hfound, h⟩ := bind_eq_ok.mp h
      cases h
      obtain ⟨hdistinct, hstart⟩ :=
        nodup_ways (e :: next) hnodup (fun e' he' ways => ih _ e'.1 (hclosed e' he') ways) found hfound
      refine ⟨hdistinct, fun way hway => ?_⟩
      obtain ⟨_, _, rest, rfl, -⟩ := hstart way hway
      rfl

end

/-! ## Methods -/

section
variable {graph : CodeGraph} (forest : graph.IsForest) {b : Block} (h : b.Holds graph) (hfault : b.fault? false = none)
include forest h hfault

section
variable {graph' : CodeGraph} (same : graph.SameTree graph') (stands : ∀ j ∈ b.bodyJunctions, j.Stands graph')
include same stands

theorem bodyJunctions_sound : ∀ j ∈ b.bodyJunctions, j.Sound graph' b.id := by
  intro j hj
  have hexact := bodyJunctions_exact forest h j hj
  have hbelow : graph.Below b.id j.id := by
    refine (b.spans forest h).2 j.id ?_
    rw [← bodyJunctions_ids hfault]
    exact mem_map_of_mem hj
  refine ⟨stands j hj, ⟨b.vertices, ?_⟩, ?_⟩
  · refine ⟨?_, hexact.next_mem, fun e he => ?_, fun hnil => ?_⟩
    · rw [same.openScopes_eq]
      exact hexact.left_isPrefix
    · rw [same.openScopes_eq, same.scopesBefore_eq]
      exact hexact.drop_left e he
    · rw [same.openScopes_eq]
      exact hexact.left_eq hnil
  · rw [same.openScopes_eq, same.scopesBefore_eq, same.scope?_eq]
    refine CodeGraph.openScopes_eq forest hbelow.1 ?_
    by_cases he : j.id = b.id
    · exact .inl he
    · exact .inr (hbelow.parent_of_ne he)

/-- Wherever all its junctions stand, the enumeration from the entry of the body gives its traces. -/
theorem forwardFrom_of_stands (method : VertexId) :
    Path.forwardFrom graph' method (graph'.vertexCount + 1) 0 b.id = .ok b.traces := by
  have hsound := bodyJunctions_sound forest h hfault same stands
  have hframes : Frames.Resume graph' method b.id 0 [] ⟨none, none, none⟩ :=
    ⟨by simp [breakExit?, innermostLoop?], by simp [continueExit?, innermostLoop?]⟩
  have henters := b.traced [] {} 0 ⟨none, none, none⟩ h hfault hsound hframes trivial
  have hfuel : b.vertices.length ≤ graph.vertexCount := by
    obtain ⟨hnodup, hbelow⟩ := b.spans forest h
    have hsub : b.vertices ⊆ List.range graph.vertexCount := fun v hv => mem_range.mpr (hbelow v hv).1
    simpa using hnodup.length_le_of_subset hsub
  have htraces : b.ways.flatMap (Way.deliver ⟨none, none, none⟩) = b.traces := by
    have hone : ∀ way : Way, way.deliver ⟨none, none, none⟩ = [closing way.vertices] := by
      rintro ⟨vertices, ending⟩
      cases ending <;> rfl
    rw [Block.traces, map_eq_flatMap]
    exact flatMap_congr fun way _ => hone way
  have hrun := henters (graph.vertexCount + 1) (by omega)
  rw [graph'.scopesBefore_top, htraces] at hrun
  rw [same.vertexCount_eq]
  exact hrun

end

variable (fresh : Untouched graph b.id)
include fresh

theorem forwardFrom_eq_traces (method : VertexId) :
    Path.forwardFrom (b.layIn graph) method ((b.layIn graph).vertexCount + 1) 0 b.id = .ok b.traces :=
  forwardFrom_of_stands forest h hfault (b.sameTree_layIn graph) (bodyJunctions_stand forest h hfault fresh) method

theorem nodup_traces : b.traces.Nodup := by
  have hforks : ∀ v ∈ b.vertices, (((b.layIn graph).flowSuccessors v).map Prod.fst).Nodup ∧
      ∀ e ∈ (b.layIn graph).flowSuccessors v, e.1 ∈ b.vertices := by
    intro v hv
    rw [← bodyJunctions_ids hfault] at hv
    obtain ⟨j, hj, rfl⟩ := mem_map.mp hv
    rw [(bodyJunctions_stand forest h hfault fresh j hj).next_eq]
    exact ⟨b.junctions_fork [] {} (b.spans forest h).1 j hj, (bodyJunctions_exact forest h j hj).next_mem⟩
  exact (nodup_forwardFrom hforks _ 0 b.id b.id_mem_vertices _ (forwardFrom_eq_traces forest h hfault fresh b.id)).1

end

/-- The paths through a method are the traces of its body, in their order and each once. -/
theorem forward_eq_traces {graph : CodeGraph} {method : VertexId} {body : Block} (forest : graph.IsForest)
    (hm : graph.is method .method = true) (hbody : lastBlock? graph method = some body.id) (h : body.Holds graph)
    (fresh : Untouched graph body.id) (hfault : body.fault? false = none) :
    ∃ graph', synthesize graph method = (.ok true, graph') ∧
      Path.forward graph' method = .ok (body.traces.map fun vertices => { method, vertices }) ∧ body.traces.Nodup := by
  have hsame := body.sameTree_layIn graph
  have hrun := synthesize_eq forest hm hbody h fresh
  rw [hfault] at hrun
  have hentry : (body.layIn graph).body? method = some body.id := by
    have hlast : (body.layIn graph).lastBlock? method = lastBlock? graph method := by
      rw [CodeGraph.lastBlock?, CodeGraph.lastChild?, lastBlock?, hsame.children_eq]
      congr 1
      exact funext fun v => hsame.is_eq v _
    exact hlast.trans hbody
  refine ⟨body.layIn graph, hrun, ?_, nodup_traces forest h hfault fresh⟩
  rw [Path.forward, hsame.is_eq, if_pos hm, hentry]
  simp only [forwardFrom_eq_traces forest h hfault fresh method]
  rfl

/-- The loop runs once or not at all; without a skip block it is not skipped. -/
theorem breakingLoop_forward :
    breakingLoopBody.traces =
        [[⟨1, some .sequential⟩, ⟨2, some .sequential⟩, ⟨3, some .positive⟩, ⟨4, some .sequential⟩,
        ⟨5, some .sequential⟩, ⟨6, none⟩]] ∧
      ∃ graph, synthesize breakingLoop 0 = (.ok true, graph) ∧
        Path.forward graph 0 = .ok (breakingLoopBody.traces.map fun vertices => { method := 0, vertices }) ∧
        breakingLoopBody.traces.Nodup :=
  ⟨by decide, forward_eq_traces breakingLoop_isForest (by decide +kernel) (by decide +kernel) breakingLoop_holds
    breakingLoop_untouched (by decide)⟩

end ApexPaths.Flow
