import ApexPaths.Path.Enumeration
import ApexPaths.Proofs.Flow.Scopes
import Mathlib.Data.List.Basic

/-!
The traces of a statement by recursion on the statement. Loops run once or not at all; a jump ends
with the loop that it leaves or continues, a `return` or `throw` with the method. Traces are listed in
the order of the source: the first branch, block or clause comes first.
-/

namespace ApexPaths.Flow
set_option autoImplicit false

open List

/-! ## Ways through statements -/

/-- How control leaves a statement. -/
inductive Ending where
  | falls
  | returns
  | breaks
  | continues
  deriving DecidableEq, Repr

/-- The vertices that control passes in a statement, each with how it is left, and how the statement is
left. -/
structure Way where
  vertices : List (VertexId × FlowKind)
  ending : Ending
  deriving DecidableEq, Repr

namespace Way

/-- A way that passes these vertices before. -/
def after (before : List (VertexId × FlowKind)) (way : Way) : Way := { way with vertices := before ++ way.vertices }

/-- Go on along each of some ways, unless the first one was left early. -/
def followedBy (next : List Way) (way : Way) : List Way :=
  match way.ending with
  | .falls => next.map (after way.vertices)
  | _ => [way]

/-- Pass one more vertex, unless the way was left early. -/
def passing (last : Option (VertexId × FlowKind)) (way : Way) : Way :=
  match way.ending with
  | .falls => { way with vertices := way.vertices ++ last.toList }
  | _ => way

/-- The jumps of a loop: both leave it, a `continue` through the vertex that prepares the next round. -/
def leavingLoop (round : Option (VertexId × FlowKind)) (way : Way) : Way :=
  match way.ending with
  | .breaks => { way with ending := .falls }
  | .continues => ⟨way.vertices ++ round.toList, .falls⟩
  | _ => way

end Way

mutual

/-- The ways through a statement, each with how it ends. -/
def Statement.ways : Statement → List Way
  | .simple id => [⟨[(id, .sequential)], .falls⟩]
  | .exit id => [⟨[(id, .sequential)], .returns⟩]
  | .breaks id => [⟨[(id, .sequential)], .breaks⟩]
  | .continues id => [⟨[(id, .sequential)], .continues⟩]
  | .nested block => block.ways
  | .ifElse id branches otherwise => (branchWays (optionWays otherwise) branches).map (Way.after [(id, .sequential)])
  | .whileLoop id condition body skip =>
    (body.ways.map (Way.after [(id, .sequential), (condition, .positive)]) ++
      (optionWays skip).map (Way.after [(id, .sequential), (condition, .negative)])).map (Way.leavingLoop none)
  | .forEach id variable_ _ body skip =>
    ((body.ways ++ optionWays skip).map (Way.after [(id, .sequential), (variable_, .sequential)])).map
    (Way.leavingLoop none)
  | .forLoop id init condition update body skip =>
    let head : List (VertexId × FlowKind) := (id, .sequential) :: init.toList.map (·, .sequential)
    let round : Option (VertexId × FlowKind) := update.map (·, .sequential)
    let once := body.ways.map (Way.passing round)
    let ways := match condition with
      | some condition =>
        once.map (Way.after [(condition, .positive)]) ++ (optionWays skip).map (Way.after [(condition, .negative)])
      | none => once
    (ways.map (Way.after head)).map (Way.leavingLoop round)
  | .doLoop id body condition =>
    let round : Option (VertexId × FlowKind) := some (condition, .negative)
    ((body.ways.map (Way.passing round)).map (Way.after [(id, .sequential)])).map (Way.leavingLoop round)
  | .switch id subject whens =>
    if whens.isEmpty then [⟨[(id, .sequential), (subject, .sequential)], .falls⟩]
    else (clauseWays whens).map (Way.after [(id, .sequential), (subject, .case)])
  | .tryCatch id body catches final =>
    let ways := (body.ways ++ clauseWays catches).map (Way.after [(id, .sequential)])
    match final with
    | some block => ways.flatMap (Way.followedBy block.ways)
    | none => ways

def Block.ways : Block → List Way
  | .mk id body => (sequenceWays body).map (Way.after [(id, .sequential)])

def sequenceWays : List Statement → List Way
  | [] => [⟨[], .falls⟩]
  | statement :: rest => statement.ways.flatMap (Way.followedBy (sequenceWays rest))

/-- The ways through the branches of an `if`: into the first block, or past its condition. -/
def branchWays (otherwise : List Way) : List Branch → List Way
  | [] => otherwise
  | .mk id condition body :: rest =>
    body.ways.map (Way.after [(id, .sequential), (condition, .positive)]) ++
      (branchWays otherwise rest).map (Way.after [(id, .sequential), (condition, .negative)])

def clauseWays : List Clause → List Way
  | [] => []
  | .mk id _ _ body :: rest => body.ways.map (Way.after [(id, .sequential)]) ++ clauseWays rest

def optionWays : Option Block → List Way
  | none => []
  | some block => block.ways

end

/-! ## Traces -/

/-- Vertices of a path that goes on. -/
def leaving (vertices : List (VertexId × FlowKind)) : List PathVertex := vertices.map fun (id, kind) => ⟨id, some kind⟩

/-- Vertices of a path that ends with the last of them. -/
def closing : List (VertexId × FlowKind) → List PathVertex
  | [] => []
  | [(id, _)] => [⟨id, none⟩]
  | (id, kind) :: next :: rest => ⟨id, some kind⟩ :: closing (next :: rest)

/-- The paths through a body. -/
def Block.traces (b : Block) : List (List PathVertex) := b.ways.map fun way => closing way.vertices

@[simp] theorem leaving_append (xs ys : List (VertexId × FlowKind)) : leaving (xs ++ ys) = leaving xs ++ leaving ys :=
  map_append

variable {ys : List (VertexId × FlowKind)}

theorem closing_append (xs : List (VertexId × FlowKind)) (h : ys ≠ []) :
    closing (xs ++ ys) = leaving xs ++ closing ys := by
  induction xs with
  | nil => rfl
  | cons x xs ih =>
    obtain ⟨id, kind⟩ := x
    obtain ⟨y, rest, hrest⟩ := exists_cons_of_ne_nil (append_ne_nil_of_right_ne_nil xs h)
    rw [cons_append, hrest, closing, ← hrest, ih]
    rfl

/-! ## Ways with what follows them -/

/-- What follows each ending of a statement: the end of the method, or some ways on. -/
structure Tails where
  falls : Option (List (List PathVertex))
  breaks : Option (List (List PathVertex))
  continues : Option (List (List PathVertex))

/-- Vertices followed by each way of going on, or by the end of the path. -/
def resume (rest : Option (List (List PathVertex))) (vertices : List (VertexId × FlowKind)) : List (List PathVertex) :=
  match rest with
  | none => [closing vertices]
  | some ways => ways.map (leaving vertices ++ ·)

/-- A way with what follows its ending; a `return` is followed by nothing. -/
def Way.deliver (tails : Tails) (way : Way) : List (List PathVertex) :=
  match way.ending with
  | .falls => resume tails.falls way.vertices
  | .returns => resume none way.vertices
  | .breaks => resume tails.breaks way.vertices
  | .continues => resume tails.continues way.vertices

theorem resume_append (rest : Option (List (List PathVertex))) (xs : List (VertexId × FlowKind)) (h : ys ≠ []) :
    resume rest (xs ++ ys) = (resume rest ys).map (leaving xs ++ ·) := by
  cases rest with
  | none => simp [resume, closing_append xs h]
  | some ways => simp [resume, Function.comp_def]

theorem Way.deliver_after (tails : Tails) (before : List (VertexId × FlowKind)) {way : Way} (h : way.vertices ≠ []) :
    (way.after before).deliver tails = (way.deliver tails).map (leaving before ++ ·) := by
  obtain ⟨vertices, ending⟩ := way
  cases ending
  · exact resume_append tails.falls before h
  · exact resume_append none before h
  · exact resume_append tails.breaks before h
  · exact resume_append tails.continues before h

/-- No way is empty. -/
def Proper (ways : List Way) : Prop := ∀ way ∈ ways, way.vertices ≠ []

theorem Proper.append {xs ys : List Way} (hx : Proper xs) (hy : Proper ys) : Proper (xs ++ ys) :=
  forall_mem_append.mpr ⟨hx, hy⟩

theorem proper_after (before : VertexId × FlowKind) (rest : List (VertexId × FlowKind)) (ways : List Way) :
    Proper (ways.map (Way.after (before :: rest))) :=
  forall_mem_map.mpr fun _ _ => cons_ne_nil _ _

theorem Proper.map {ways : List Way} {f : Way → Way} (h : Proper ways)
    (hf : ∀ way, way.vertices ≠ [] → (f way).vertices ≠ []) : Proper (ways.map f) :=
    forall_mem_map.mpr fun way hway => hf way (h way hway)

theorem Way.leavingLoop_ne_nil (round : Option (VertexId × FlowKind)) (way : Way) (h : way.vertices ≠ []) :
    (way.leavingLoop round).vertices ≠ [] := by
  obtain ⟨vertices, ending⟩ := way
  cases ending
  · exact h
  · exact h
  · exact h
  · exact append_ne_nil_of_left_ne_nil h _

theorem Way.passing_ne_nil (last : Option (VertexId × FlowKind)) (way : Way) (h : way.vertices ≠ []) :
    (way.passing last).vertices ≠ [] := by
  obtain ⟨vertices, ending⟩ := way
  cases ending
  · exact append_ne_nil_of_left_ne_nil h _
  · exact h
  · exact h
  · exact h

variable {next : List Way}

theorem Proper.followedBy {ways : List Way} (h : Proper ways) : Proper (ways.flatMap (Way.followedBy next)) := by
  intro way hway
  obtain ⟨first, hfirst, hway⟩ := mem_flatMap.mp hway
  have hne := h first hfirst
  obtain ⟨vertices, ending⟩ := first
  cases ending
  · obtain ⟨second, -, rfl⟩ := mem_map.mp hway
    exact append_ne_nil_of_left_ne_nil hne _
  · exact mem_singleton.mp hway ▸ hne
  · exact mem_singleton.mp hway ▸ hne
  · exact mem_singleton.mp hway ▸ hne

theorem Block.proper_ways (b : Block) : Proper b.ways := by
  obtain ⟨id, body⟩ := b
  rw [Block.ways]
  exact proper_after _ _ _

theorem proper_optionWays (b : Option Block) : Proper (optionWays b) := by
  cases b with
  | none => simp [Proper, optionWays]
  | some block => exact block.proper_ways

theorem proper_branchWays {otherwise : List Way} (h : Proper otherwise) (branches : List Branch) :
    Proper (branchWays otherwise branches) := by
  cases branches with
  | nil => exact h
  | cons branch rest =>
    obtain ⟨id, condition, body⟩ := branch
    rw [branchWays]
    exact (proper_after _ _ _).append (proper_after _ _ _)

theorem proper_clauseWays (clauses : List Clause) : Proper (clauseWays clauses) := by
  induction clauses with
  | nil => simp [Proper, clauseWays]
  | cons clause rest ih =>
    obtain ⟨id, kind, cases, body⟩ := clause
    rw [clauseWays]
    exact (proper_after _ _ _).append ih

/-- No way of a statement is empty. -/
theorem Statement.proper_ways (s : Statement) : Proper s.ways := by
  cases s with
  | simple id | exit id | breaks id | continues id => simp [Proper, Statement.ways]
  | nested block => exact block.proper_ways
  | ifElse id branches otherwise => rw [Statement.ways]; exact proper_after _ _ _
  | whileLoop id condition body skip =>
    rw [Statement.ways]
    exact ((proper_after _ _ _).append (proper_after _ _ _)).map (Way.leavingLoop_ne_nil none)
  | forEach id variable_ iterable body skip =>
    rw [Statement.ways]
    exact (proper_after _ _ _).map (Way.leavingLoop_ne_nil none)
  | forLoop id init condition update body skip =>
    rw [Statement.ways.eq_def]
    exact (proper_after _ _ _).map (Way.leavingLoop_ne_nil _)
  | doLoop id body condition =>
    rw [Statement.ways]
    exact (proper_after _ _ _).map (Way.leavingLoop_ne_nil _)
  | switch id subject whens =>
    rw [Statement.ways]
    split
    · simp [Proper]
    · exact proper_after _ _ _
  | tryCatch id body catches final =>
    cases final with
    | none => rw [Statement.ways]; exact proper_after _ _ _
    | some block => rw [Statement.ways]; exact (proper_after _ _ _).followedBy

theorem proper_sequenceWays (first : Statement) (rest : List Statement) : Proper (sequenceWays (first :: rest)) := by
  rw [sequenceWays]
  exact first.proper_ways.followedBy

theorem sequenceWays_singleton (s : Statement) : sequenceWays [s] = s.ways := by
  have h : ∀ way : Way, way.followedBy (sequenceWays []) = [way] := by
    intro way
    obtain ⟨vertices, ending⟩ := way
    cases ending <;> simp [Way.followedBy, sequenceWays, Way.after]
  rw [sequenceWays, funext h, flatMap_singleton']

section
variable (tails : Tails)

/-- Vertices before some ways stand before everything that the ways are followed by. -/
theorem flatMap_deliver_after (before : List (VertexId × FlowKind)) {ways : List Way} (h : Proper ways) :
    (ways.map (Way.after before)).flatMap (Way.deliver tails) =
      (ways.flatMap (Way.deliver tails)).map (leaving before ++ ·) := by
  rw [flatMap_map, map_flatMap]
  refine flatMap_congr fun way hway => ?_
  exact Way.deliver_after tails before (h way hway)

theorem flatMap_deliver_after_pair (first second : VertexId × FlowKind) {ways : List Way} (h : Proper ways) :
    (ways.map (Way.after [first, second])).flatMap (Way.deliver tails) =
      ((ways.flatMap (Way.deliver tails)).map (leaving [second] ++ ·)).map (leaving [first] ++ ·) := by
  rw [flatMap_deliver_after tails _ h, map_map]
  rfl

/-- What follows a vertex that may be passed before something else. -/
def through (rest : Option (List (List PathVertex))) (round : Option (VertexId × FlowKind)) :
    Option (List (List PathVertex)) :=
  match round with
  | none => rest
  | some last => some (resume rest [last])

theorem resume_through (rest : Option (List (List PathVertex))) (round : Option (VertexId × FlowKind))
    (vertices : List (VertexId × FlowKind)) : resume (through rest round) vertices =
    resume rest (vertices ++ round.toList) := by
  cases round with
  | none => rw [Option.toList_none, append_nil]; rfl
  | some last => exact (resume_append rest vertices (cons_ne_nil last [])).symm

theorem Way.deliver_passing (round : Option (VertexId × FlowKind)) (way : Way) :
    (way.passing round).deliver tails = way.deliver { tails with falls := through tails.falls round } := by
  obtain ⟨vertices, ending⟩ := way
  cases ending
  · exact (resume_through tails.falls round vertices).symm
  · rfl
  · rfl
  · rfl

/-- Inside a loop both jumps lead to what follows the loop. -/
def Tails.inLoop (round : Option (VertexId × FlowKind)) : Tails := ⟨tails.falls, tails.falls, through tails.falls round⟩

theorem Way.deliver_leavingLoop (round : Option (VertexId × FlowKind)) (way : Way) :
    (way.leavingLoop round).deliver tails = way.deliver (tails.inLoop round) := by
  obtain ⟨vertices, ending⟩ := way
  cases ending
  · rfl
  · rfl
  · rfl
  · exact (resume_through tails.falls round vertices).symm

theorem Way.deliver_followedBy (h : Proper next) (way : Way) :
    (way.followedBy next).flatMap (Way.deliver tails) =
      way.deliver { tails with falls := some (next.flatMap (Way.deliver tails)) } := by
  obtain ⟨vertices, ending⟩ := way
  cases ending
  · exact flatMap_deliver_after tails vertices h
  · exact flatMap_singleton ..
  · exact flatMap_singleton ..
  · exact flatMap_singleton ..

theorem flatMap_deliver_passing (round : Option (VertexId × FlowKind)) (ways : List Way) :
    (ways.map (Way.passing round)).flatMap (Way.deliver tails) =
      ways.flatMap (Way.deliver { tails with falls := through tails.falls round }) := by
  rw [flatMap_map]
  exact flatMap_congr fun way _ => way.deliver_passing tails round

theorem flatMap_deliver_leavingLoop (round : Option (VertexId × FlowKind)) (ways : List Way) :
    (ways.map (Way.leavingLoop round)).flatMap (Way.deliver tails) =
    ways.flatMap (Way.deliver (tails.inLoop round)) := by
  rw [flatMap_map]
  exact flatMap_congr fun way _ => way.deliver_leavingLoop tails round

theorem flatMap_deliver_followedBy (h : Proper next) (ways : List Way) :
    (ways.flatMap (Way.followedBy next)).flatMap (Way.deliver tails) =
      ways.flatMap (Way.deliver { tails with falls := some (next.flatMap (Way.deliver tails)) }) := by
  rw [flatMap_assoc]
  exact flatMap_congr fun way _ => way.deliver_followedBy tails h

end

/-- What follows a `for` loop comes after its head, and after its body and update or its skip block. -/
theorem forLoop_deliver (tails : Tails) (id : VertexId) (init condition update : Option VertexId) (body : Block)
    (skip : Option Block) :
    let round : Option (VertexId × FlowKind) := update.map (·, .sequential)
    let once := body.ways.flatMap (Way.deliver { tails.inLoop round with falls := through tails.falls round })
    let skipped := (optionWays skip).flatMap (Way.deliver (tails.inLoop round))
    (Statement.forLoop id init condition update body skip).ways.flatMap (Way.deliver tails) =
      (match condition with
        | some c => once.map (leaving [(c, .positive)] ++ ·) ++ skipped.map (leaving [(c, .negative)] ++ ·)
        | none => once).map (leaving ((id, .sequential) :: init.toList.map (·, .sequential)) ++ ·) := by
  intro round once skipped
  have honce : Proper (body.ways.map (Way.passing round)) := body.proper_ways.map (Way.passing_ne_nil round)
  have hskip := proper_optionWays skip
  have hround : (body.ways.map (Way.passing round)).flatMap (Way.deliver (tails.inLoop round)) = once :=
    flatMap_deliver_passing (tails.inLoop round) round body.ways
  rw [Statement.ways.eq_def]
  cases condition with
  | none =>
    show ((_ : List Way).map (Way.leavingLoop round)).flatMap _ = _
    rw [flatMap_deliver_leavingLoop, flatMap_deliver_after _ _ honce, hround]
  | some c =>
    show ((_ : List Way).map (Way.leavingLoop round)).flatMap _ = _
    rw [flatMap_deliver_leavingLoop, flatMap_deliver_after _ _ ((proper_after _ _ _).append (proper_after _ _ _)),
      flatMap_append, flatMap_deliver_after _ _ honce, flatMap_deliver_after _ _ hskip, hround]

/-- What follows a `try` comes after its `finally` block, when control falls into it. -/
theorem tryCatch_deliver (tails : Tails) (id : VertexId) (body : Block) (catches : List Clause) (final : Option Block) :
    (Statement.tryCatch id body catches final).ways.flatMap (Way.deliver tails) =
      ((body.ways ++ clauseWays catches).flatMap (Way.deliver { tails with
        falls := (final.map fun block => some (block.ways.flatMap (Way.deliver tails))).getD tails.falls })).map
          (leaving [(id, .sequential)] ++ ·) := by
  have hproper := body.proper_ways.append (proper_clauseWays catches)
  rw [Statement.ways.eq_def]
  cases final with
  | none => exact flatMap_deliver_after tails _ hproper
  | some block =>
    show ((_ : List Way).flatMap (Way.followedBy block.ways)).flatMap _ = _
    rw [flatMap_deliver_followedBy tails block.proper_ways, flatMap_deliver_after _ _ hproper]
    rfl

def Clause.ways : Clause → List Way
  | .mk id _ _ body => body.ways.map (Way.after [(id, .sequential)])

theorem clauseWays_eq (clauses : List Clause) : clauseWays clauses = clauses.flatMap Clause.ways := by
  induction clauses with
  | nil => rfl
  | cons clause rest ih =>
    obtain ⟨id, kind, cases, body⟩ := clause
    rw [clauseWays, ih]
    rfl

/-! ## There is a way -/

theorem followedBy_ne_nil {ways : List Way} (hways : ways ≠ []) (hnext : next ≠ []) :
    ways.flatMap (Way.followedBy next) ≠ [] := by
  obtain ⟨⟨vertices, ending⟩, rest, rfl⟩ := exists_cons_of_ne_nil hways
  refine append_ne_nil_of_left_ne_nil ?_ _
  cases ending
  · exact mt map_eq_nil_iff.mp hnext
  all_goals exact cons_ne_nil _ _

theorem branchWays_ne_nil {otherwise : List Way} (h : otherwise ≠ []) (branches : List Branch) :
    branchWays otherwise branches ≠ [] := by
  induction branches with
  | nil => exact h
  | cons branch rest ih =>
    obtain ⟨id, condition, body⟩ := branch
    rw [branchWays]
    exact append_ne_nil_of_right_ne_nil _ (mt map_eq_nil_iff.mp ih)

mutual

/-- A statement without fault has a way. -/
theorem Statement.ways_ne_nil : (s : Statement) → (inLoop : Bool) → s.fault? inLoop = none → s.ways ≠ []
  | .simple id, _, _ | .exit id, _, _ | .breaks id, _, _ | .continues id, _, _ => cons_ne_nil _ _
  | .nested block, inLoop, h => block.ways_ne_nil inLoop h
  | .ifElse id branches none, _, h => absurd h (Option.some_ne_none _)
  | .ifElse id branches (some block), inLoop, h => by
    have hblock := block.ways_ne_nil inLoop (Option.or_eq_none_iff.mp h).2
    simpa [Statement.ways, optionWays] using branchWays_ne_nil hblock branches
  | .whileLoop id condition body skip, _, h | .forEach id variable_ iterable body skip, _, h => by
    have hbody := body.ways_ne_nil true (Option.or_eq_none_iff.mp h).1
    simp [Statement.ways, hbody]
  | .forLoop id init condition update body skip, _, h => by
    have hbody := body.ways_ne_nil true (Option.or_eq_none_iff.mp h).1
    cases condition <;> simp [Statement.ways, hbody]
  | .doLoop id body condition, _, h => by
    have hbody := body.ways_ne_nil true h
    simp [Statement.ways, hbody]
  | .switch id subject [], _, _ => cons_ne_nil _ _
  | .switch id subject (.mk when kind cases body :: rest), inLoop, h => by
    have hbody := body.ways_ne_nil inLoop (Option.or_eq_none_iff.mp h).1
    simp [Statement.ways, clauseWays, hbody]
  | .tryCatch id body catches none, inLoop, h => by
    have hbody := body.ways_ne_nil inLoop (Option.or_eq_none_iff.mp (Option.or_eq_none_iff.mp h).1).1
    simp [Statement.ways, hbody]
  | .tryCatch id body catches (some block), inLoop, h => by
    obtain ⟨hclauses, hfinal⟩ := Option.or_eq_none_iff.mp h
    have hbody := body.ways_ne_nil inLoop (Option.or_eq_none_iff.mp hclauses).1
    rw [Statement.ways]
    exact followedBy_ne_nil (by simp [hbody]) (block.ways_ne_nil inLoop hfinal)

theorem Block.ways_ne_nil : (b : Block) → (inLoop : Bool) → b.fault? inLoop = none → b.ways ≠ []
  | .mk id body, inLoop, h => by
    rw [Block.ways]
    exact mt map_eq_nil_iff.mp (sequenceWays_ne_nil body inLoop h)

theorem sequenceWays_ne_nil : (body : List Statement) → (inLoop : Bool) → sequenceFault? inLoop body = none →
    sequenceWays body ≠ []
  | [], _, _ => cons_ne_nil _ _
  | first :: rest, inLoop, h => by
    obtain ⟨hfirst, hrest⟩ := Option.or_eq_none_iff.mp h
    exact followedBy_ne_nil (first.ways_ne_nil inLoop hfirst) (sequenceWays_ne_nil rest inLoop hrest)

end

theorem Block.traces_ne_nil {b : Block} {inLoop : Bool} (h : b.fault? inLoop = none) : b.traces ≠ [] :=
  mt map_eq_nil_iff.mp (b.ways_ne_nil inLoop h)

end ApexPaths.Flow
