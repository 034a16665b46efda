import ApexPaths.Memory.Heap

/-!
Scopes of variables: the blocks of a running method, and the static variables of classes with the state
of their initialization. Names count without case.
-/

namespace ApexPaths
set_option autoImplicit false

/-- A variable of a declared type. -/
structure Variable where
  type : String
  value : Value
  deriving Inhabited

def Variable.make (type : String) (value : Value) : Variable := ⟨TypeName.canonical type, value⟩

/-- Variables by their names in lower case. -/
abbrev VariableMap := List (String × Variable)

namespace VariableMap

def get? (vars : VariableMap) (name : String) : Option Variable :=
  (vars.find? (·.1 == Text.lower name)).map (·.2)

/-- Declare a variable; an older one of the name is gone. -/
def declare (vars : VariableMap) (name type : String) (value : Value) : VariableMap :=
  assign (Text.lower name) (Variable.make type value) vars

/-- Give a declared variable another value. -/
def assign? (vars : VariableMap) (name : String) (value : Value) : Option VariableMap :=
  (vars.get? name).map fun found => assign (Text.lower name) { found with value } vars

end VariableMap

/-! ## Methods -/

/-- A block of a running method and what opened it. -/
structure Block where
  kind : NodeKind
  vars : VariableMap := []
  deriving Inhabited

/-- A running method: its parameters and its open blocks, the innermost first. The initializers of fields
run in a frame without a method. -/
structure Frame where
  method : Option VertexId := none
  /-- The type whose code runs. -/
  owner : Option String := none
  this : Option HeapRef := none
  returned : Option Value := none
  parameters : VariableMap := []
  blocks : List Block := []
  deriving Inhabited

namespace Frame

section
variable (frame : Frame)

def depth : Nat := frame.blocks.length

def pushBlock (kind : NodeKind) : Frame := { frame with blocks := { kind } :: frame.blocks }

/-- Close the innermost block; the parameters always stay. -/
def popBlock : Option Block × Frame :=
  match frame.blocks with
  | [] => (none, frame)
  | block :: blocks => (some block, { frame with blocks })

def popBlocks (count : Nat) : Frame := { frame with blocks := frame.blocks.drop count }

/-- Declare a variable in the innermost block. -/
def declare (name type : String) (value : Value) : Frame :=
  match frame.blocks with
  | [] => { frame with parameters := frame.parameters.declare name type value }
  | block :: blocks => { frame with blocks := { block with vars := block.vars.declare name type value } :: blocks }

def lookup? (name : String) : Option Variable :=
  (frame.blocks.findSome? (·.vars.get? name)) <|> frame.parameters.get? name

end

/-- Give the innermost variable of a name another value. -/
def assignBlocks? (name : String) (value : Value) : List Block → Option (List Block)
  | [] => none
  | block :: blocks =>
    match block.vars.assign? name value with
    | some vars => some ({ block with vars } :: blocks)
    | none => (assignBlocks? name value blocks).map (block :: ·)

/-- Give the innermost variable of a name another value. -/
def assign? (frame : Frame) (name : String) (value : Value) : Option Frame :=
  match assignBlocks? name value frame.blocks with
  | some blocks => some { frame with blocks }
  | none => (frame.parameters.assign? name value).map fun parameters => { frame with parameters }

end Frame

/-! ## Classes -/

/-- How far the static initialization of a class is. -/
inductive InitState where
  | uninitialized
  | initializing
  | initialized
  deriving DecidableEq, Repr, Inhabited

def InitState.name : InitState → String
  | .uninitialized => "Uninitialized"
  | .initializing => "Initializing"
  | .initialized => "Initialized"

/-- The static variables of a class. -/
structure StaticScope where
  owner : String
  state : InitState := .uninitialized
  vars : VariableMap := []
  deriving Inhabited

namespace StaticScope

/-- Begin the initialization; false if it was begun before. -/
def begin (scope : StaticScope) : Bool × StaticScope :=
  if scope.state = .uninitialized then (true, { scope with state := .initializing }) else (false, scope)

def finish (scope : StaticScope) : StaticScope := { scope with state := .initialized }

/-- The variables of another state of the class that are missing here; what was initialized in either is. -/
def adopt (scope other : StaticScope) : StaticScope where
  owner := scope.owner
  state := if other.state = .initialized then .initialized else scope.state
  vars := scope.vars ++ other.vars.filter fun entry => !scope.vars.any (·.1 == entry.1)

end StaticScope

/-- The static scopes by their class names in lower case. -/
abbrev StaticScopes := List (String × StaticScope)

namespace StaticScopes

section
variable (scopes : StaticScopes)

def get? (owner : String) : Option StaticScope :=
  (scopes.find? (·.1 == Text.lower owner)).map (·.2)

/-- The scope of a class, a new one if it has none. -/
def get (owner : String) : StaticScope := (scopes.get? owner).getD { owner }

def put (owner : String) (scope : StaticScope) : StaticScopes :=
  assign (Text.lower owner) scope scopes

def state (owner : String) : InitState := ((scopes.get? owner).map (·.state)).getD .uninitialized

def lookup? (owner name : String) : Option Variable :=
  (scopes.get? owner).bind (·.vars.get? name)

/-- Begin the initialization of a class; false if it was begun before. -/
def begin (owner : String) : Bool × StaticScopes :=
  let (isFirst, scope) := (scopes.get owner).begin
  (isFirst, scopes.put owner scope)

def finish (owner : String) : StaticScopes := scopes.put owner (scopes.get owner).finish

def declare (owner name type : String) (value : Value) : StaticScopes :=
  let scope := scopes.get owner
  scopes.put owner { scope with vars := scope.vars.declare name type value }

/-- Write a static variable; a missing one is declared with the type of the value. -/
def write (owner name : String) (value : Value) : StaticScopes :=
  let scope := scopes.get owner
  let vars := (scope.vars.assign? name value).getD (scope.vars.declare name value.type value)
  scopes.put owner { scope with vars }

end

/-- Adopt what another state knows and this one does not. -/
def merge (scopes other : StaticScopes) : StaticScopes :=
  other.foldl (fun scopes (key, theirs) =>
    let ours := ((scopes.find? (·.1 == key)).map (·.2)).getD { owner := theirs.owner }
    assign key (ours.adopt theirs) scopes) scopes

end StaticScopes

/-! ## All symbols -/

/-- Everything that is bound in a walk: the heap, the static variables and the running methods, the
innermost first. -/
structure Symbols where
  heap : Heap := {}
  statics : StaticScopes := []
  frames : List Frame := []
  deriving Inhabited

namespace Symbols

section
variable (symbols : Symbols)

def frame? : Option Frame := symbols.frames.head?

def callDepth : Nat := symbols.frames.length

def scopeDepth : Nat := (symbols.frame?.map Frame.depth).getD 0

def this? : Option HeapRef := symbols.frame?.bind (·.this)

def method? : Option VertexId := symbols.frame?.bind (·.method)

def pushFrame (frame : Frame) : Symbols := { symbols with frames := frame :: symbols.frames }

def popFrame : Option Frame × Symbols := (symbols.frames.head?, { symbols with frames := symbols.frames.tail })

/-- Change the running method, if there is one. -/
def mapFrame (f : Frame → Frame) : Symbols :=
  match symbols.frames with
  | [] => symbols
  | frame :: frames => { symbols with frames := f frame :: frames }

def staticValue? (owner name : String) : Option Value :=
  (symbols.statics.lookup? owner name).map (·.value)

/-- The value of a name: a local variable, a field of the running object, or a static variable of the
running class. -/
def lookup? (name : String) : Option Value := do
  let frame ← symbols.frame?
  ((frame.lookup? name).map (·.value)) <|> (frame.this.bind (symbols.heap.field? · name))
    <|> (frame.owner.bind (symbols.staticValue? · name))

end

end Symbols

end ApexPaths
