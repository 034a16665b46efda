import ApexPaths.Program.Basic

/-!
What a name means at a place: a local variable, a parameter, or a member of an enclosing type or of one
of its supertypes.
-/

namespace ApexPaths
set_option autoImplicit false

/-- Where a variable is declared. -/
inductive Declared where
  | localVariable (id : VertexId)
  | parameter (id : VertexId)
  | field (owner id : VertexId) (isStatic : Bool)
  | property (owner id : VertexId) (isStatic : Bool)
  deriving DecidableEq, Repr

/-- A variable with its canonical declared type. -/
structure Binding where
  type : String
  declared : Declared
  deriving DecidableEq, Repr

/-- What dotted names denote: a value of a type, with the type whose static member starts the names if
one does; a type; or nothing known. -/
inductive Receiver where
  | value (type : String) (staticOwner : Option VertexId)
  | type (id : VertexId)
  | unknown
  deriving DecidableEq, Repr

namespace Program

variable (program : Program)

/-- The vertex has the name in any case. -/
def hasName (id : VertexId) (name : String) : Bool := (program.graph.name? id).any (Text.eqIgnoringCase · name)

/-- The canonical declared type of a vertex; `Object` without one. -/
def typeOfDeclaration (id : VertexId) : String :=
  TypeName.canonical ((program.graph.text? id (.spelled .type)).getD "Object")

/-! ## Locals and parameters -/

/-- The scope of the variable that a vertex declares. A caught exception and the variable of a typed
case live in their own clause. -/
def localScope? (id : VertexId) : Option VertexId :=
  match program.graph.label? id with
  | some .variableDeclaration => (program.graph.parent? id).bind program.graph.parent?
  | some .catchBlockStatement | some .typeWhenBlock => some id
  | _ => none

/-- The latest local declaration of a name before a place whose scope holds the place. -/
def localBinding? (method : VertexId) (name : String) (place : VertexId) : Option Binding :=
  let around := program.graph.ancestors place
  let before := (program.graph.descendants method).takeWhile (· != place)
  let inScope (id : VertexId) : Bool :=
    match program.localScope? id with
    | some scope => program.hasName id name && around.contains scope
    | none => false
  (before.reverse.find? inScope).map fun id => ⟨program.typeOfDeclaration id, .localVariable id⟩

def parameterBinding? (method : VertexId) (name : String) : Option Binding :=
  ((program.graph.childrenWithLabel method .parameter).find? (program.hasName · name)).map fun id =>
    ⟨program.typeOfDeclaration id, .parameter id⟩

/-! ## Members -/

/-- The variable that a member of a type declares under a name. -/
def memberVariable? (owner : VertexId) (name : String) (member : VertexId) : Option Binding :=
  match program.graph.label? member with
  | some .fieldDeclarationStatements =>
    ((program.graph.childrenWithLabel member .fieldDeclaration).find? (program.hasName · name)).map fun id =>
      ⟨program.typeOfDeclaration id, .field owner id (program.graph.isStatic member)⟩
  | some .propertyDeclaration =>
    if program.hasName member name then
      some ⟨program.typeOfDeclaration member, .property owner member (program.graph.isStatic member)⟩
    else none
  | _ => none

/-- The field or property of a name on a type or its nearest supertype that has one. -/
def memberBinding? (type : VertexId) (name : String) : Option Binding :=
  (program.hierarchy type).findSome? fun owner =>
    (program.graph.children owner).findSome? (program.memberVariable? owner name)

/-- The variable of an unqualified name at a place. -/
def variableBinding? (name : String) (place : VertexId) : Option Binding :=
  let inMethod := (program.graph.enclosingMethod? place).bind fun method =>
    program.localBinding? method name place <|> program.parameterBinding? method name
  inMethod <|> (program.outward (program.graph.enclosingType? place)).findSome? (program.memberBinding? · name)

/-! ## Dotted names -/

/-- The type at the end of a chain of members. -/
def memberChain? (type : String) (context : Option VertexId) : List String → Option String
  | [] => some type
  | name :: names => do
    let owner ← program.lookup? context type
    let member ← program.memberBinding? owner name
    memberChain? member.type (some owner) names

/-- What dotted names mean when their first part is a type of `split` names. -/
def receiverOfType (names : List String) (split : Nat) (type : VertexId) : Receiver :=
  match names.drop split with
  | [] => .type type
  | name :: rest =>
    match (program.memberBinding? type name).bind fun member => program.memberChain? member.type (some type) rest with
    | some found => .value found (some type)
    | none => .unknown

/-- What dotted names mean at a place: a variable and members of it, else the longest start that names a
type and members of that. -/
def receiver (names : List String) (place : VertexId) : Receiver :=
  let context := program.graph.enclosingType? place
  match names with
  | [] => .unknown
  | first :: rest =>
    match program.variableBinding? first place with
    | some binding =>
      match program.memberChain? binding.type context rest with
      | some type => .value type none
      | none => .unknown
    | none =>
      let starts := (List.range names.length).reverse.map (· + 1)
      let found := starts.findSome? fun split =>
        (program.lookup? context (Text.joinStrings "." (names.take split))).map (split, ·)
      match found with
      | some (split, type) => program.receiverOfType names split type
      | none => .unknown

/-- The type declaration behind dotted names. -/
def receiverType? (names : List String) (place : VertexId) : Option VertexId :=
  match program.receiver names place with
  | .value type _ => program.lookup? (program.graph.enclosingType? place) type
  | .type id => some id
  | .unknown => none

end Program

end ApexPaths
