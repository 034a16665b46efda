import ApexPaths.Graph.Basic

/-!
Execution paths: the vertices that control passes in one method, the paths of other methods that were
attached at its call sites and at the first use of classes, and what is learned along a path: facts about
variables, watched vertices, and which collapsers merged paths.
-/

namespace ApexPaths
set_option autoImplicit false

/-! ## Metadata -/

/-- A fact about a variable, or the loss of all facts by a new assignment. -/
inductive ConstraintKind where
  | isNull
  | notNull
  | isTrue
  | isFalse
  | reset
  deriving DecidableEq, Repr

namespace ConstraintKind

def all : List ConstraintKind := [.isNull, .notNull, .isTrue, .isFalse, .reset]

def name : ConstraintKind → String
  | .isNull => "IsNull"
  | .notNull => "NotNull"
  | .isTrue => "IsTrue"
  | .isFalse => "IsFalse"
  | .reset => "Reset"

/-- The fact that cannot hold beside this one. -/
def opposite? : ConstraintKind → Option ConstraintKind
  | .isNull => some .notNull
  | .notNull => some .isNull
  | .isTrue => some .isFalse
  | .isFalse => some .isTrue
  | .reset => none

end ConstraintKind

/-- A fact about a variable of a method, found at a vertex. -/
structure Constraint where
  scope : VertexId
  /-- The variable's name in lower case. -/
  variableName : String
  kind : ConstraintKind
  origin : VertexId
  deriving DecidableEq, Repr

def Constraint.make (scope : VertexId) (name : String) (kind : ConstraintKind) (origin : VertexId) : Constraint :=
  ⟨scope, Text.lower name, kind, origin⟩

structure PathMetadata where
  constraints : List Constraint := []
  tracked : List VertexId := []
  collapsedBy : List String := []
  deriving DecidableEq, Repr, Inhabited

namespace PathMetadata

/-- Append the metadata of a sub-path; a collapser is named once. -/
def absorb (metadata other : PathMetadata) : PathMetadata where
  constraints := metadata.constraints ++ other.constraints
  tracked := metadata.tracked ++ other.tracked
  collapsedBy := other.collapsedBy.foldl (fun names name => if names.contains name then names else names ++ [name])
    metadata.collapsedBy

/-- The last fact about a variable, unless it was reset since. -/
def currentFact? (metadata : PathMetadata) (scope : VertexId) (name : String) : Option ConstraintKind :=
  let name := Text.lower name
  let latest := metadata.constraints.reverse.find? fun c => c.scope == scope && c.variableName == name
  (latest.map (·.kind)).filter (· != .reset)

end PathMetadata

/-! ## Paths -/

/-- A vertex on a path and how control leaves it; the last one is not left. -/
structure PathVertex where
  id : VertexId
  exit : Option FlowKind := none
  deriving DecidableEq, Repr, Inhabited

def PathVertex.polarity? (vertex : PathVertex) : Option Polarity := vertex.exit.bind FlowKind.polarity?

/-- What was attached to a path, in the order of attachment. -/
inductive Attachment where
  | invocation (anchor site : VertexId)
  /-- The static initializer with the given number. -/
  | staticInit (index : Nat)
  deriving DecidableEq, Repr

structure CodePath where
  method : VertexId
  vertices : List PathVertex
  /-- The sub-path of each call site, by site. -/
  invocations : List (VertexId × CodePath) := []
  /-- The initialized classes, each with the vertex that first used it and the path of its initializer.
  Without a vertex it ran before the path. -/
  staticInits : List (String × Option VertexId × CodePath) := []
  attachments : List Attachment := []
  metadata : PathMetadata := {}
  deriving Inhabited

namespace CodePath

/-! ## Own vertices -/

def ids (path : CodePath) : List VertexId := path.vertices.map (·.id)

def first? (path : CodePath) : Option VertexId := path.vertices.head?.map (·.id)

def last? (path : CodePath) : Option VertexId := path.vertices.getLast?.map (·.id)

def contains (path : CodePath) (id : VertexId) : Bool := path.vertices.any (·.id == id)

/-- The outcome of a condition on the path. -/
def polarityOf? (path : CodePath) (id : VertexId) : Option Polarity :=
  (path.vertices.find? (·.id == id)).bind (·.polarity?)

/-- The vertices of the path with a label. -/
def withLabel (path : CodePath) (graph : CodeGraph) (label : NodeKind) : List VertexId :=
  path.ids.filter (graph.is · label)

def endsWith (path : CodePath) (graph : CodeGraph) (label : NodeKind) : Bool := path.last?.any (graph.is · label)

/-! ## Attached paths -/

def invokedPath? (path : CodePath) (site : VertexId) : Option CodePath :=
  (path.invocations.find? (·.1 == site)).map (·.2)

/-- The initializer of a class, by name in any ASCII case. -/
def staticInitFor? (path : CodePath) (class_ : String) : Option (String × Option VertexId × CodePath) :=
  path.staticInits.find? fun init => Text.eqIgnoringCase init.1 class_

def isExpanded (path : CodePath) : Bool := !path.invocations.isEmpty || !path.staticInits.isEmpty

/-- A list by ascending keys with one entry set. -/
def insertByKey {α : Type} (key : Nat) (value : α) : List (Nat × α) → List (Nat × α)
  | [] => [(key, value)]
  | (k, v) :: rest =>
    if key < k then (key, value) :: (k, v) :: rest
    else if key = k then (key, value) :: rest
    else (k, v) :: insertByKey key value rest

/-- The path with a sub-path for a call site that is evaluated at an anchor. -/
def withInvocation (path : CodePath) (anchor site : VertexId) (sub : CodePath) : CodePath :=
  { path with
    metadata := path.metadata.absorb sub.metadata
    invocations := insertByKey site sub path.invocations
    attachments := path.attachments ++ [.invocation anchor site] }

/-- The path with a class initialized at an anchor. -/
def withStaticInit (path : CodePath) (class_ : String) (anchor : Option VertexId) (sub : CodePath) : CodePath :=
  { path with
    metadata := path.metadata.absorb sub.metadata
    attachments := path.attachments ++ [.staticInit path.staticInits.length]
    staticInits := path.staticInits ++ [(class_, anchor, sub)] }

theorem sizeOf_invocation {path : CodePath} {entry : VertexId × CodePath} (h : entry ∈ path.invocations) :
    sizeOf entry.2 < sizeOf path := by
  have h1 := List.sizeOf_lt_of_mem h
  cases path
  cases entry
  simp at h1 ⊢
  omega

theorem sizeOf_staticInit {path : CodePath} {entry : String × Option VertexId × CodePath}
    (h : entry ∈ path.staticInits) : sizeOf entry.2.2 < sizeOf path := by
  have h1 := List.sizeOf_lt_of_mem h
  cases path
  obtain ⟨_, _, _⟩ := entry
  simp at h1 ⊢
  omega

/-- The attached vertices at one anchor, given the expanded vertices of the sub-paths. -/
def attachedAt (invoked : List (VertexId × List VertexId)) (initialized : List (Option VertexId × List VertexId))
    (anchor : Option VertexId) (attachments : List Attachment) : List VertexId :=
  attachments.flatMap fun
    | .invocation at_ site =>
      if some at_ == anchor then ((invoked.find? (·.1 == site)).map (·.2)).getD [] else []
    | .staticInit index =>
      match initialized[index]? with
      | some (at_, vertices) => if at_ == anchor then vertices else []
      | none => []

/-- The vertices of the path and of everything attached to it, in execution order: a vertex comes before
what is attached at it. -/
def expandedVertices (path : CodePath) : List VertexId :=
  let invoked := path.invocations.attach.map fun ⟨entry, h⟩ =>
    have := sizeOf_invocation h
    (entry.1, entry.2.expandedVertices)
  let initialized := path.staticInits.attach.map fun ⟨entry, h⟩ =>
    have := sizeOf_staticInit h
    (entry.2.1, entry.2.2.expandedVertices)
  attachedAt invoked initialized none path.attachments ++
    path.vertices.flatMap fun vertex => vertex.id :: attachedAt invoked initialized (some vertex.id) path.attachments
termination_by sizeOf path

/-- The deepest nesting of attached paths. -/
def depth (path : CodePath) : Nat :=
  let invoked := path.invocations.attach.map fun ⟨entry, h⟩ =>
    have := sizeOf_invocation h
    entry.2.depth + 1
  let initialized := path.staticInits.attach.map fun ⟨entry, h⟩ =>
    have := sizeOf_staticInit h
    entry.2.2.depth + 1
  (invoked ++ initialized).foldl max 0
termination_by sizeOf path

/-- Equality of paths down to a depth: same method, vertices and invocations. -/
def sameWithin : Nat → CodePath → CodePath → Bool
  | 0, _, _ => true
  | n + 1, a, b =>
    a.method == b.method && a.vertices == b.vertices && a.invocations.length == b.invocations.length &&
      (a.invocations.zip b.invocations).all fun (x, y) => x.1 == y.1 && sameWithin n x.2 y.2

/-- Equality of paths; static initializers and metadata do not count. -/
def same (a b : CodePath) : Bool := sameWithin (a.depth + 1) a b

end CodePath

end ApexPaths
