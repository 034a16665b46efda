import ApexPaths.Walk.Statements

/-!
Walks along expanded paths. A walk starts at the entry of a method with unknown parameters; an instance
method runs on a new object. The initializers of fields may create objects without end, so the nesting of
a walk is bounded.
-/

namespace ApexPaths
set_option autoImplicit false

open WalkM

/-- What a walk along a path leaves. -/
structure WalkOutcome where
  /-- What the method returned, if the path reached a `return` of a value. -/
  returned : Option Value
  visited : Nat
  symbols : Symbols

namespace Walker

variable {σ : Type} (walker : Walker σ)

/-- Perform a task whose nesting is below the number. -/
def performWithin : Nat → Perform σ
  | 0, _ => throw (.internal .exhausted)
  | n + 1, .eval sites expr => walker.evalExpression (performWithin n) sites expr
  | n + 1, .invoke path this args => walker.invokePath (performWithin n) path this args

/-- Walk a path from the entry of its method, given how tasks are performed. -/
def walkPath (perform : Perform σ) (path : CodePath) : WalkM σ (Option Value) := do
  let method := path.method
  let owner := walker.graph.enclosingType? method
  walker.runStaticInits perform path none
  match owner with
  | some type => walker.ensureInitialized perform type
  | none => pure ()
  let this ← if walker.graph.isStatic method then pure none else owner.mapM (walker.instantiate perform)
  walker.runMethod perform path (walker.methodFrame method this [])

/-- Walk a path with static variables of an earlier walk and with a state of the visitor; the nesting is
below the number. The state of the visitor is given back also when the walk fails. -/
def walkWithin (nesting : Nat) (path : CodePath) (statics : StaticScopes) (observed : σ) :
    Except EngineError WalkOutcome × σ :=
  let (result, state) :=
    (walker.walkPath (walker.performWithin nesting) path).run.run { symbols := { statics }, observed }
  (result.map fun returned => { returned, visited := state.visited, symbols := state.symbols }, state.observed)

/-- The nesting that is allowed to a walk. -/
def maxNesting : Nat := 10000

def walk (path : CodePath) (statics : StaticScopes) (observed : σ) : Except EngineError WalkOutcome × σ :=
  walker.walkWithin maxNesting path statics observed

/-- Walk paths in order, each from new symbols, up to the first that fails. -/
def walkAll (observed : σ) : List CodePath → Except EngineError (List WalkOutcome) × σ
  | [] => (.ok [], observed)
  | path :: paths =>
    match walker.walk path [] observed with
    | (.error error, observed) => (.error error, observed)
    | (.ok outcome, observed) =>
      let (rest, observed) := walkAll observed paths
      (rest.map (outcome :: ·), observed)

end Walker

end ApexPaths
