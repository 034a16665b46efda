import ApexPaths.Expansion.Collapse
import ApexPaths.Expansion.Facts
import ApexPaths.Expansion.Site
import ApexPaths.Path.Enumeration
import ApexPaths.Settings.Basic

/-!
The expansion of a path: at every site the paths of the callee are spliced in, and the path is forked
once for each of them. Methods under expansion are frames on a stack. A frame follows one of its paths
to the end before the next one, and lets a path wait while the callee at one of its sites is expanded
in a frame above. A method is never expanded inside itself; a site beyond the depth limit drops the
path; the registry counts the callees that were entered and the paths that were forked off. A fork is
counted before it is made, so the count never passes the limit: the registry stops the run there.
-/

namespace ApexPaths
set_option autoImplicit false

/-! ## The registry -/

def maxCount : Nat := 18446744073709551615

structure Registry where
  limit : Limit
  expanders : Nat := 0
  forks : Nat := 0
  deriving Repr, Inhabited

namespace Registry

section
variable (registry : Registry)

def countExpander : Registry := { registry with expanders := registry.expanders + 1 }

/-- The count of forks after some more, if it is representable and within the limit. -/
def forksAfter? (count : Nat) : Option Nat :=
  let next := registry.forks + count
  if next ≤ maxCount ∧ registry.limit.allows next then some next else none

/-- Count more forks. No forks are always accepted, a refusal changes nothing. -/
def countForks (count : Nat) : Except EngineError Registry :=
  if count = 0 then .ok registry
  else
    match registry.forksAfter? count with
    | some forks => .ok { registry with forks }
    | none => .error (.expansionLimit (registry.limit.max?.getD maxCount))

def reset : Registry := { limit := registry.limit }

end

end Registry

/-! ## Runs -/

/-- What an expansion reads. -/
structure Expander where
  program : Program
  sites : SiteTable
  options : ExpansionOptions
  depthLimit : Limit

/-- What an expansion keeps, also when it fails. -/
structure ExpansionState where
  registry : Registry
  cache : PathCache := []
  deriving Inhabited

abbrev ExpandM := ExceptT EngineError (StateM ExpansionState)

/-- The expanded paths of a method. -/
structure MethodExpansion where
  method : VertexId
  paths : List CodePath

/-! ## Paths under expansion -/

/-- A path under expansion with the classes initialized along it, in lower case. -/
structure Strand where
  path : CodePath
  initialized : List String := []
  deriving Inhabited

namespace Strand

def isInitialized (strand : Strand) (class_ : String) : Bool := strand.initialized.contains (Text.lower class_)

/-- The class counts as initialized from here on. -/
def markInitialized (strand : Strand) (class_ : String) : Strand :=
  { strand with initialized := strand.initialized ++ [Text.lower class_] }

/-- The strand with which the callee of a site starts: the class of the site counts as initialized. -/
def entering (strand : Strand) (site : Site) : Strand := site.class?.elim strand strand.markInitialized

/-- The strand with a finished one of the callee at a site of an anchor vertex. -/
def splice (strand : Strand) (anchor : VertexId) (site : Site) (sub : Strand) : Strand where
  path := match site with
    | .call expression _ => strand.path.withInvocation anchor expression sub.path
    | .staticInit expression class_ _ => strand.path.withStaticInit class_ (expression.map fun _ => anchor) sub.path
  initialized := sub.initialized

end Strand

/-- A place on a path: at a vertex, before one of its sites. Both are counted from zero. -/
structure Cursor where
  vertex : Nat := 0
  site : Nat := 0
  deriving DecidableEq, Repr, Inhabited

def Cursor.pastSite (cursor : Cursor) : Cursor := { cursor with site := cursor.site + 1 }

def Cursor.pastVertex (cursor : Cursor) : Cursor := { vertex := cursor.vertex + 1 }

/-- A strand that was followed up to a place on its path. -/
structure Partial where
  strand : Strand
  cursor : Cursor := {}
  deriving Inhabited

/-- The vertex at which a path stands, unless it is at its end. -/
def Partial.vertex? (part : Partial) : Option PathVertex := part.strand.path.vertices[part.cursor.vertex]?

namespace Expander

/-- The expansion of some paths of a method. -/
structure Frame where
  method : VertexId
  /-- The paths to be followed, the next one first. -/
  pending : List Partial
  /-- The finished paths, the latest first. -/
  done : List Strand := []
  /-- The path that waits for the frame above, and the site at which it waits. -/
  waiting : Option (Partial × Site) := none

/-- The frame of the first paths of a method that was entered with some classes initialized. -/
def Frame.enter (method : VertexId) (paths : List CodePath) (initialized : List String) : Frame where
  method
  pending := paths.map fun path => { strand := { path, initialized } }

/-- The frame with some more strands to be followed first, all from the same place on their paths. -/
def Frame.ahead (frame : Frame) (strands : List Strand) (cursor : Cursor) : Frame :=
  { frame with pending := strands.map (⟨·, cursor⟩) ++ frame.pending }

def ofGraph (graph : CodeGraph) (settings : Settings) (options : ExpansionOptions) : Expander :=
  let program := Program.ofGraph graph
  { program, sites := SiteTable.ofProgram program, options, depthLimit := settings.depthLimit }

variable (expander : Expander)

def graph : CodeGraph := expander.program.graph

/-! ## Effects -/

def pathsOf (method : VertexId) : ExpandM (List CodePath) := fun state =>
  let (result, cache) := state.cache.fetch expander.graph method
  (result, { state with cache })

def countExpander : ExpandM Unit := modify fun state => { state with registry := state.registry.countExpander }

def countForks (count : Nat) : ExpandM Unit := do
  let state ← get
  let registry ← state.registry.countForks count
  set { state with registry }

/-! ## Vertices and sites -/

/-- The sites of a vertex; the first one of a path also initializes the method's own class. -/
def sitesOf (method : VertexId) (isFirst : Bool) (vertex : VertexId) : List Site :=
  if expander.options.followCalls then
    (if isFirst then (expander.program.entrySite? method).toList else []) ++ expander.sites.sites vertex
  else []

/-- Record what passing a vertex proves and which of its vertices are watched. -/
def annotated (path : CodePath) (vertex : PathVertex) : CodePath :=
  let facts := expander.program.vertexConstraints expander.options.constrainers path.method vertex
  let watched :=
    if expander.options.watchers.isEmpty then [] else watchedAt expander.options.watchers expander.graph vertex.id
  { path with metadata := { path.metadata with
      constraints := path.metadata.constraints ++ facts
      tracked := path.metadata.tracked ++ watched } }

/-- Pass a vertex; an excluded path ends here. -/
def settle? (strand : Strand) (vertex : PathVertex) : Option Strand :=
  let path := expander.annotated strand.path vertex
  if expander.options.excluders.any (·.excludes path) then none else some { strand with path }

/-- Merge the finished paths of a callee by every collapser in turn. -/
def collapse (results : List Strand) : List Strand :=
  expander.options.collapsers.foldl (fun results collapser =>
    collapser.merge expander.graph (·.path)
    (fun name strand => { strand with path := strand.path.collapsedInto name }) results)
    results

/-- What to do at a site. -/
inductive Plan where
  | skip
  /-- The callee has nothing to run, but the class of the site counts as initialized. -/
  | mark
  | drop
  | descend (paths : List CodePath)

def plan (stack : List Frame) (strand : Strand) (site : Site) : ExpandM Plan := do
  if stack.any (·.method == site.callee) || site.class?.any strand.isInitialized then return .skip
  else if !expander.depthLimit.allows stack.length then return .drop
  else
    match ← expander.pathsOf site.callee with
    | [] => return if site.class?.isSome then .mark else .skip
    | paths => return .descend paths

/-! ## Steps -/

/-- Move a path of the innermost frame: past a site or a vertex, into a callee, or off its end. -/
def advance (frame : Frame) (below : List Frame) (part : Partial) : ExpandM (List Frame) := do
  match part.vertex? with
  | none => return { frame with done := part.strand :: frame.done } :: below
  | some vertex =>
    match (expander.sitesOf part.strand.path.method (part.cursor.vertex == 0) vertex.id)[part.cursor.site]? with
    | none => return frame.ahead (expander.settle? part.strand vertex).toList part.cursor.pastVertex :: below
    | some site =>
      match ← expander.plan (frame :: below) part.strand site with
      | .skip => return frame.ahead [part.strand] part.cursor.pastSite :: below
      | .mark => return frame.ahead [part.strand.entering site] part.cursor.pastSite :: below
      | .drop => return frame :: below
      | .descend paths =>
        countExpander
        return Frame.enter site.callee paths (part.strand.entering site).initialized ::
          { frame with waiting := some (part, site) } :: below

/-- Hand the finished paths of a callee to the path that waits for them. -/
def resume (finished : List Strand) (frame : Frame) (below : List Frame) : ExpandM (List Frame) := do
  match frame.waiting with
  | none => throw (.internal .nothingWaiting)
  | some (part, site) =>
    match expander.collapse finished with
    | [] => return { frame with waiting := none } :: below
    | results =>
      countForks (results.length - 1)
      match part.vertex? with
      | none => throw (.internal .cursorPastEnd)
      | some anchor =>
        let strands := results.map (part.strand.splice anchor.id site)
        return { frame with waiting := none }.ahead strands part.cursor.pastSite :: below

/-- A stack to go on with, or the finished paths of the outermost frame. -/
inductive Progress where
  | running (stack : List Frame)
  | finished (paths : List CodePath)

/-- One step of an expansion, in its innermost frame. -/
def step : List Frame → ExpandM Progress
  | [] => throw (.internal .stackUnderflow)
  | frame :: below =>
    match frame.pending, below with
    | part :: rest, below => return .running (← expander.advance { frame with pending := rest } below part)
    | [], caller :: below => return .running (← expander.resume frame.done.reverse caller below)
    | [], [] => return .finished (frame.done.reverse.map (·.path))

/-- A step leads from one stack to another, each with what is kept. -/
def Follows (next current : List Frame × ExpansionState) : Prop :=
  (expander.step current.1).run current.2 = (.ok (.running next.1), next.2)

/-- Take steps until the outermost frame is finished. -/
def loop : List Frame × ExpansionState → Except EngineError (List CodePath) × ExpansionState :=
  -- That there is an end to the steps is a fact about the graph, so no measure stands here.
  WellFounded.partialExtrinsicFix expander.Follows fun current loop =>
    match h : (expander.step current.1).run current.2 with
    | (.ok (.running stack), state) => loop (stack, state) h
    | (.ok (.finished paths), state) => (.ok paths, state)
    | (.error error, state) => (.error error, state)

/-! ## Whole paths -/

def expandPath (path : CodePath) : ExpandM (List CodePath) := fun state =>
  expander.loop ([Frame.enter path.method [path] []], state)

/-- Every expansion of every forward path of a method. -/
def expandMethod (method : VertexId) : ExpandM (List CodePath) := do
  (← expander.pathsOf method).flatMapM expander.expandPath

/-- Expand methods one after the other; their forks are counted together. -/
def expandMethods (methods : List VertexId) : ExpandM (List MethodExpansion) :=
  methods.mapM fun method => return ⟨method, ← expander.expandMethod method⟩

end Expander

end ApexPaths
