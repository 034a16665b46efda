import ApexPaths.Proofs.Walk.Steps

/-!
Instruments. An instrument keeps a record of a walk beside what the visitor observes: of each vertex and each evaluated
expression, and of the attached paths as they are entered and left. A walk under an instrument does what the walk does.
-/

namespace ApexPaths
set_option autoImplicit false

open WalkM

variable {σ ρ : Type}

/-- How a record is kept: what is observed of it, a visitor that keeps it, and what is noted of evaluated
expressions and of attached paths. -/
structure Instrument (σ ρ : Type) where
  observed : ρ → σ
  visitor : Visitor ρ
  evaluated : VertexId → Symbols → ρ → ρ
  enter : Option VertexId → CodePath → ρ → ρ
  leave : ρ → ρ

namespace Instrument

variable (instrument : Instrument σ ρ)

/-- The record is one of a visitor that observes this. -/
def Shows (observed : σ) (record : ρ) : Prop := instrument.observed record = observed

/-- Nothing that a visitor observes is changed by the instrument. -/
structure Faithful (visitor : Visitor σ) : Prop where
  consent : ∀ v symbols record, (instrument.visitor.visit v symbols record).1 =
    (visitor.visit v symbols (instrument.observed record)).1
  visit : ∀ v symbols record, instrument.observed (instrument.visitor.visit v symbols record).2 =
    (visitor.visit v symbols (instrument.observed record)).2
  afterVisit : ∀ v symbols record, instrument.observed (instrument.visitor.afterVisit v symbols record) =
    visitor.afterVisit v symbols (instrument.observed record)
  onExpression : ∀ expr value record, instrument.observed (instrument.visitor.onExpression expr value record) =
    visitor.onExpression expr value (instrument.observed record)
  enterMethod : ∀ method symbols record, instrument.observed (instrument.visitor.enterMethod method symbols record) =
    visitor.enterMethod method symbols (instrument.observed record)
  exitMethod : ∀ method returned record, instrument.observed (instrument.visitor.exitMethod method returned record) =
    visitor.exitMethod method returned (instrument.observed record)
  evaluated : ∀ expr symbols record, instrument.observed (instrument.evaluated expr symbols record) =
    instrument.observed record
  enter : ∀ site path record, instrument.observed (instrument.enter site path record) = instrument.observed record
  leave : ∀ record, instrument.observed (instrument.leave record) = instrument.observed record

theorem observed_of_ends {instrument : Instrument σ ρ} {α : Type} {left : List FrameOutline} {state : WalkState σ}
    {seen : ρ} {result : Except EngineError α} (h : Ends instrument.Shows instrument.Shows left state seen result) :
    instrument.observed seen = state.observed := by
  cases result with
  | error => exact h.2
  | ok => exact h.2

end Instrument

namespace Walker

/-- Perform a task whose nesting is below the number under an instrument. The site is the expression whose
evaluation asks for the task. -/
def performUnder (walker : Walker σ) (instrument : Instrument σ ρ) : Nat → Option VertexId → Perform ρ
  | 0, _, _ => throw (.internal .exhausted)
  | n + 1, _, .eval sites expr => do
    let value ← (walker.watchedBy instrument.visitor).evalExpression (performUnder walker instrument n (some expr))
      sites expr
    let left ← symbols
    notify (instrument.evaluated expr left)
    return value
  | n + 1, site, .invoke path this args => do
    notify (instrument.enter site path)
    let value ← (walker.watchedBy instrument.visitor).invokePath (performUnder walker instrument n none) path this args
    notify instrument.leave
    return value

/-- Walk a path under an instrument; the record is given also when the walk fails. -/
def walkUnder (walker : Walker σ) (instrument : Instrument σ ρ) (nesting : Nat) (path : CodePath)
    (statics : StaticScopes) (record : ρ) : Except EngineError WalkOutcome × ρ :=
  let (result, state) :=
    ((walker.watchedBy instrument.visitor).walkPath (walker.performUnder instrument nesting none) path).run.run
    { symbols := { statics }, observed := record }
  (result.map fun returned => { returned, visited := state.visited, symbols := state.symbols }, state.observed)

/-- Every expression may be evaluated while some method runs, and every path may be walked. -/
def Framed (outlines : List FrameOutline) : Task → Prop
  | .eval .. => outlines ≠ []
  | .invoke .. => True

theorem admits_framed (graph : CodeGraph) : Admits graph Framed where
  running h := h
  part h _ := h
  attached _ _ _ _ _ := trivial
  field _ _ _ := List.cons_ne_nil _ _

section
variable {walker : Walker σ} {instrument : Instrument σ ρ} (faithful : instrument.Faithful walker.visitor)
include faithful

omit faithful in
theorem keeps_noted (f : ρ → ρ) (h : ∀ record, instrument.observed (f record) = instrument.observed record)
    (outlines : List FrameOutline) : Keeps instrument.Shows instrument.Shows outlines (notify id : WalkM σ Unit)
    (notify f) :=
  agrees_notify fun {_ record} hshows => (h record).trans hshows

theorem sees_under : SeesExpressions instrument.Shows walker.visitor instrument.visitor := by
  rintro expr value _ record rfl
  exact faithful.onExpression ..

theorem observes_under (top : FrameOutline) (rest : List FrameOutline) (v : VertexId) :
    Observes walker instrument.visitor instrument.Shows instrument.Shows instrument.Shows top rest v where
  visit := by
    rintro symbols _ record - rfl
    exact ⟨(faithful.consent ..).symm, faithful.visit ..⟩
  afterVisit := by
    rintro symbols _ record - rfl
    exact faithful.afterVisit ..

theorem agrees_step_under {perform : Perform σ} {perform' : Perform ρ}
    (hperform : Performs Framed instrument.Shows instrument.Shows perform perform') (path : CodePath) (v : VertexId)
    (top : FrameOutline) (rest : List FrameOutline) :
    Agrees instrument.Shows instrument.Shows (top :: rest) (walker.step perform path v)
      ((walker.watchedBy instrument.visitor).step perform' path v) instrument.Shows (walker.passing top v :: rest) :=
  agrees_step (admits_framed _) hperform ⟨fun _ _ _ _ _ _ _ => List.cons_ne_nil _ _, fun _ _ _ => List.cons_ne_nil _ _⟩
    (fun _ _ _ => trivial) (observes_under faithful top rest v)

theorem runsAlike_under {perform : Perform σ} {perform' : Perform ρ}
    (hperform : Performs Framed instrument.Shows instrument.Shows perform perform') (path : CodePath) :
    RunsAlike walker instrument.visitor perform perform' instrument.Shows instrument.Shows path := by
  intro this args outlines
  refine agrees_runMethod (fun _ => instrument.Shows) ?_
    (fun done v _ _ => agrees_step_under faithful hperform path v _ outlines) ?_
  · rintro symbols _ record - rfl
    exact faithful.enterMethod ..
  · rintro returned _ record rfl
    exact faithful.exitMethod ..

section
variable {related : σ → ρ → Prop} {outlines : List FrameOutline} {nesting : Nat} {site : Option VertexId}
omit faithful

/-- An evaluation under an instrument does what the evaluation and then the note of it do. -/
theorem keeps_eval_under {sites : Option CodePath} {expr : VertexId}
    (hmain : Keeps related related outlines (walker.evalExpression (walker.performWithin nesting) sites expr)
      ((walker.watchedBy instrument.visitor).evalExpression (walker.performUnder instrument nesting (some expr))
        sites expr))
    (hnoted : ∀ state : WalkState σ, state.outlines = outlines → Keeps related related outlines
      (notify id : WalkM σ Unit) (notify (instrument.evaluated expr state.symbols))) :
    Keeps related related outlines (walker.performWithin (nesting + 1) (.eval sites expr))
      (walker.performUnder instrument (nesting + 1) site (.eval sites expr)) := by
  have hend : ∀ value : Value, Keeps related related outlines
      (do let _ ← symbols; notify id; return value : WalkM σ Value)
      (do let left ← symbols; notify (instrument.evaluated expr left); return value) := fun value =>
    .get_bind fun state _ houtlines _ => (hnoted state houtlines).bind fun _ => .ret value
  rw [performWithin, ← bind_pure (walker.evalExpression (walker.performWithin nesting) sites expr)]
  exact hmain.bind hend

/-- A walk along an attached path under an instrument does what the notes of its ends and the walk between them do. -/
theorem keeps_invoke_under {path : CodePath} {this : Option HeapRef} {args : List Value}
    (henter : Keeps related related outlines (notify id : WalkM σ Unit) (notify (instrument.enter site path)))
    (hmain : Keeps related related outlines (walker.invokePath (walker.performWithin nesting) path this args)
      ((walker.watchedBy instrument.visitor).invokePath (walker.performUnder instrument nesting none) path this args))
    (hleave : Keeps related related outlines (notify id : WalkM σ Unit) (notify instrument.leave)) :
    Keeps related related outlines (walker.performWithin (nesting + 1) (.invoke path this args))
      (walker.performUnder instrument (nesting + 1) site (.invoke path this args)) := by
  have hend : ∀ value : Value, Keeps related related outlines (do notify id; return value : WalkM σ Value)
      (do notify instrument.leave; return value) := fun value => hleave.bind fun _ => .ret value
  rw [performWithin, ← bind_pure (walker.invokePath (walker.performWithin nesting) path this args)]
  exact henter.bind fun _ => hmain.bind hend

end

/-- An instrument that is carried along changes nothing in the walk; by induction on the nesting. -/
theorem performs_under (nesting : Nat) (site : Option VertexId) :
    Performs Framed instrument.Shows instrument.Shows (walker.performWithin nesting)
    (walker.performUnder instrument nesting site) := by
  induction nesting generalizing site with
  | zero => exact ⟨fun _ => .exhausted id⟩
  | succ nesting ih =>
    refine ⟨fun {outlines task} h => ?_⟩
    cases task with
    | eval sites expr =>
      obtain ⟨top, rest, rfl⟩ := List.exists_cons_of_ne_nil h
      exact keeps_eval_under (keeps_evalExpression (admits_framed _) (ih (some expr)) h (sees_under faithful))
        fun state _ => keeps_noted _ (faithful.evaluated expr state.symbols) _
    | invoke path this args =>
      have hruns := runsAlike_under faithful (ih none) path
      exact keeps_invoke_under (keeps_noted _ (faithful.enter site path) _)
        (keeps_invokePath (admits_framed _) (ih none) (fun _ _ _ => trivial) hruns this args outlines)
        (keeps_noted _ faithful.leave _)

/-- A walk under an instrument ends as the walk does, with the same observations and no method running; it fails
for lack of nesting only. -/
theorem run_walkPath_under (nesting : Nat) (path : CodePath) (statics : StaticScopes) (record : ρ) :
    ∃ seen, ((walker.watchedBy instrument.visitor).walkPath (walker.performUnder instrument nesting none) path).run
        { symbols := { statics }, observed := record } =
      (((walker.walkPath (walker.performWithin nesting) path).run
          { symbols := { statics }, observed := instrument.observed record }).1,
        ((walker.walkPath (walker.performWithin nesting) path).run
          { symbols := { statics }, observed := instrument.observed record }).2.watched seen) ∧
      Ends instrument.Shows instrument.Shows []
        ((walker.walkPath (walker.performWithin nesting) path).run
          { symbols := { statics }, observed := instrument.observed record }).2 seen
        ((walker.walkPath (walker.performWithin nesting) path).run
          { symbols := { statics }, observed := instrument.observed record }).1 := by
  have hperform := performs_under faithful nesting none
  have hruns := runsAlike_under faithful hperform path
  have hkeeps := keeps_walkPath (admits_framed _) hperform (fun _ _ _ => trivial) hruns []
  exact hkeeps.run { symbols := { statics }, observed := instrument.observed record } record rfl rfl

/-- A walk is what it is under an instrument, with what is observed of the record. -/
theorem walkWithin_eq_walkUnder (nesting : Nat) (path : CodePath) (statics : StaticScopes) (record : ρ) :
    walker.walkWithin nesting path statics (instrument.observed record) =
      ((walker.walkUnder instrument nesting path statics record).1,
      instrument.observed (walker.walkUnder instrument nesting path statics record).2) := by
  obtain ⟨seen, hrun, hends⟩ := run_walkPath_under faithful nesting path statics record
  have hunder := congrArg (fun run : Except EngineError (Option Value) × WalkState ρ =>
    (run.1.map fun returned => WalkOutcome.mk returned run.2.visited run.2.symbols, run.2.observed)) hrun
  have hsplit : walker.walkUnder instrument nesting path statics record =
      ((walker.walkWithin nesting path statics (instrument.observed record)).1, seen) := hunder
  rw [hsplit]
  exact Prod.ext rfl (Instrument.observed_of_ends hends).symm

end

end Walker

/-!
## Journals

A journal lists the moments of a walk with all symbols at each: where a vertex is reached and where it has been
passed, where a method has been entered, and where an expression has been evaluated. Each moment carries the
attached paths that are being walked, by the sites at which they are attached.
-/

variable {σ : Type}

/-- What a walk has just come to. -/
inductive Occasion where
  | reached (v : VertexId)
  | passed (v : VertexId)
  | entered (method : VertexId)
  | evaluated (expr : VertexId)
  deriving DecidableEq

/-- The attached paths that are being walked, the innermost first: each by the site of its call, or without one as
a static initializer. -/
abbrev Chain := List (Option VertexId)

/-- What the visitor saw: where, on which occasion and with which symbols. -/
structure Moment where
  chain : Chain
  occasion : Occasion
  symbols : Symbols

/-- What a visitor observes, the attached paths that are being walked, and the moments so far. -/
structure Journal (σ : Type) where
  observed : σ
  chain : Chain := []
  moments : List Moment := []

namespace Journal

/-- One more moment in a journal. -/
def note (occasion : Occasion) (symbols : Symbols) (journal : Journal σ) : Journal σ :=
  { journal with moments := journal.moments ++ [⟨journal.chain, occasion, symbols⟩] }

def enter (site : Option VertexId) (journal : Journal σ) : Journal σ := { journal with chain := site :: journal.chain }

def leave (journal : Journal σ) : Journal σ := { journal with chain := journal.chain.tail }

end Journal

/-- A visitor that shows everything to another one and keeps a journal. -/
def Visitor.journaling (visitor : Visitor σ) : Visitor (Journal σ) where
  visit v symbols journal :=
    let (consent, observed) := visitor.visit v symbols journal.observed
    (consent, { journal with observed }.note (.reached v) symbols)
  afterVisit v symbols journal :=
    { journal with observed := visitor.afterVisit v symbols journal.observed }.note (.passed v) symbols
  onExpression expr value journal := { journal with observed := visitor.onExpression expr value journal.observed }
  enterMethod method symbols journal :=
    { journal with observed := visitor.enterMethod method symbols journal.observed }.note (.entered method) symbols
  exitMethod method returned journal := { journal with observed := visitor.exitMethod method returned journal.observed }

namespace Walker

variable (walker : Walker σ)

/-- The instrument that keeps a journal. -/
def journaling : Instrument σ (Journal σ) where
  observed := Journal.observed
  visitor := walker.visitor.journaling
  evaluated expr symbols := Journal.note (.evaluated expr) symbols
  enter site _ := Journal.enter site
  leave := Journal.leave

/-- Walk a path and keep a journal, also when the walk fails. -/
def journalWithin (nesting : Nat) (path : CodePath) (statics : StaticScopes) (observed : σ) :
    Except EngineError WalkOutcome × Journal σ :=
  walker.walkUnder walker.journaling nesting path statics { observed }

theorem faithful_journaling : walker.journaling.Faithful walker.visitor :=
  ⟨fun _ _ _ => rfl, fun _ _ _ => rfl, fun _ _ _ => rfl, fun _ _ _ => rfl, fun _ _ _ => rfl, fun _ _ _ => rfl,
  fun _ _ _ => rfl, fun _ _ _ => rfl, fun _ => rfl⟩

/-- With a journal a walk ends as without one, with the same observations. -/
theorem walkWithin_eq_journaled (nesting : Nat) (path : CodePath) (statics : StaticScopes) (observed : σ) :
    walker.walkWithin nesting path statics observed =
      ((walker.journalWithin nesting path statics observed).1,
      (walker.journalWithin nesting path statics observed).2.observed) :=
  walkWithin_eq_walkUnder walker.faithful_journaling nesting path statics { observed }

end Walker

end ApexPaths
