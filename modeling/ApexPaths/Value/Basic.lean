import ApexPaths.Graph.Basic
import ApexPaths.Number.Double
import ApexPaths.Text.Quoted
import ApexPaths.TypeName

/-!
Abstract values. A value has a canonical type and a content: a literal, a reference to an object of the
heap, the values that a loop variable takes, a token of the schema description, or nothing known. The
content may be unknown, the type never is.
-/

namespace ApexPaths
set_option autoImplicit false

/-- The number of an object on the heap. -/
abbrev HeapRef := Nat

/-! ## Literals -/

inductive Literal where
  | null
  | boolean (value : Bool)
  | integer (value : Int)
  | long (value : Int)
  | decimal (value : Float)
  | text (value : String)
  /-- A constant of an enum. -/
  | constant (name : String)
  deriving Repr, Inhabited

namespace Literal

def typeName : Literal → String
  | .null => "null"
  | .boolean _ => "Boolean"
  | .integer _ => "Integer"
  | .long _ => "Long"
  | .decimal _ => "Decimal"
  | .text _ => "String"
  | .constant _ => "Object"

/-- The text of a literal when it is joined to other text. -/
def display : Literal → String
  | .null => "null"
  | .boolean value => toString value
  | .integer value | .long value => toString value
  | .decimal value => Double.text value
  | .text value | .constant value => value

/-- Equality of the same kind of literal; case counts, and a decimal that is no number differs from itself. -/
def same : Literal → Literal → Bool
  | .null, .null => true
  | .boolean a, .boolean b => a == b
  | .integer a, .integer b => a == b
  | .long a, .long b => a == b
  | .decimal a, .decimal b => a == b
  | .text a, .text b => a == b
  | .constant a, .constant b => a == b
  | _, _ => false

end Literal

/-! ## Schema tokens -/

/-- The stages of a description of objects and fields. -/
inductive SchemaKind where
  | globalDescribe
  | objectType
  | objectDescribe
  | fieldMap
  | field
  | fieldDescribe
  deriving DecidableEq, Repr, Inhabited

namespace SchemaKind

def all : List SchemaKind := [.globalDescribe, .objectType, .objectDescribe, .fieldMap, .field, .fieldDescribe]

def name : SchemaKind → String
  | .globalDescribe => "GlobalDescribe"
  | .objectType => "SObjectType"
  | .objectDescribe => "DescribeSObjectResult"
  | .fieldMap => "FieldMap"
  | .field => "SObjectField"
  | .fieldDescribe => "DescribeFieldResult"

def typeName : SchemaKind → String
  | .globalDescribe => "Map<String,Schema.SObjectType>"
  | .objectType => "Schema.SObjectType"
  | .objectDescribe => "Schema.DescribeSObjectResult"
  | .fieldMap => "Map<String,Schema.SObjectField>"
  | .field => "Schema.SObjectField"
  | .fieldDescribe => "Schema.DescribeFieldResult"

end SchemaKind

/-- A stage of a description for an object and a field, as far as they are known. -/
structure SchemaToken where
  kind : SchemaKind
  object : Option String := none
  field : Option String := none
  deriving DecidableEq, Repr, Inhabited

namespace SchemaToken

def step (token : SchemaToken) (kind : SchemaKind) : SchemaToken := { token with kind }

/-- The object is known, and the field where it matters. -/
def isResolved (token : SchemaToken) : Bool :=
  (token.kind == .globalDescribe || token.object.isSome) &&
    ((token.kind != .field && token.kind != .fieldDescribe) || token.field.isSome)

def displayName : Option String → String
  | some name => "Some(" ++ Text.quoted name ++ ")"
  | none => "None"

def display (token : SchemaToken) : String :=
  token.kind.name ++ "(" ++ displayName token.object ++ "." ++ displayName token.field ++ ")"

end SchemaToken

/-! ## Values -/

/-- What is known of a value; `α` is the type of values. -/
inductive Content (α : Type) where
  | literal (literal : Literal)
  | reference (ref : HeapRef)
  /-- The values of a loop variable in the one pass of the loop. -/
  | loop (values : List α)
  | schema (token : SchemaToken)
  | unknown
  deriving Inhabited

structure Value where
  /-- The canonical type. -/
  type : String
  content : Content Value
  /-- The expression or declaration that produced the value. -/
  origin : Option VertexId := none
  deriving Inhabited

namespace Value

def make (type : String) (content : Content Value) : Value := { type := TypeName.canonical type, content }

def ofLiteral (literal : Literal) : Value := make literal.typeName (.literal literal)

def null : Value := ofLiteral .null

def nullOf (type : String) : Value := make type (.literal .null)

def ofText (text : String) : Value := ofLiteral (.text text)

def ofInt (n : Int) : Value := ofLiteral (.integer n)

def ofBool (b : Bool) : Value := ofLiteral (.boolean b)

def unknown (type : String) : Value := make type .unknown

def void : Value := unknown "void"

def ofRef (type : String) (ref : HeapRef) : Value := make type (.reference ref)

def ofToken (token : SchemaToken) : Value := make token.kind.typeName (.schema token)

def ofLoop (type : String) (values : List Value) : Value := make type (.loop values)

def withOrigin (value : Value) (origin : VertexId) : Value := { value with origin := some origin }

/-! ## Parts -/

def literal? (value : Value) : Option Literal :=
  match value.content with
  | .literal literal => some literal
  | _ => none

def isNull (value : Value) : Bool :=
  match value.content with
  | .literal .null => true
  | _ => false

def isUnknown (value : Value) : Bool :=
  match value.content with
  | .unknown => true
  | _ => false

def text? (value : Value) : Option String :=
  match value.content with
  | .literal (.text text) => some text
  | _ => none

def bool? (value : Value) : Option Bool :=
  match value.content with
  | .literal (.boolean b) => some b
  | _ => none

def int? (value : Value) : Option Int :=
  match value.content with
  | .literal (.integer n) | .literal (.long n) => some n
  | _ => none

def double? (value : Value) : Option Float :=
  match value.content with
  | .literal (.integer n) | .literal (.long n) => some (Float.ofInt n)
  | .literal (.decimal x) => some x
  | _ => none

def ref? (value : Value) : Option HeapRef :=
  match value.content with
  | .reference ref => some ref
  | _ => none

def token? (value : Value) : Option SchemaToken :=
  match value.content with
  | .schema token => some token
  | _ => none

def loopValues? (value : Value) : Option (List Value) :=
  match value.content with
  | .loop values => some values
  | _ => none

/-- The text of a known literal when it is joined to other text. -/
def displayText? (value : Value) : Option String := value.literal?.map Literal.display

/-- The value seen through a declared type. Literals and objects keep their own, narrower type. -/
def retyped (value : Value) (type : String) : Value :=
  match value.content with
  | .unknown | .loop _ | .literal .null => { value with type := TypeName.canonical type }
  | _ => value

def display (value : Value) : String :=
  match value.content with
  | .literal (.text text) => "'" ++ text ++ "'"
  | .literal literal => literal.display
  | .reference ref => value.type ++ "@" ++ toString ref
  | .loop values => "for<" ++ value.type ++ ">[" ++ toString values.length ++ " values]"
  | .schema token => token.display
  | .unknown => "?" ++ value.type

/-! ## Equality -/

theorem sizeOf_loopValue {value item : Value} {items : List Value} (h : value.content = .loop items)
    (hmem : item ∈ items) : sizeOf item < sizeOf value := by
  have h1 := List.sizeOf_lt_of_mem hmem
  cases value
  simp only at h
  subst h
  simp
  omega

/-- Equality of types, contents and origins. -/
def same (a b : Value) : Bool :=
  a.type == b.type && a.origin == b.origin &&
    match h : a.content, b.content with
    | .literal x, .literal y => x.same y
    | .reference x, .reference y => x == y
    | .schema x, .schema y => x == y
    | .unknown, .unknown => true
    | .loop xs, .loop ys => xs.length == ys.length && (xs.attach.zip ys).all fun (⟨x, hmem⟩, y) =>
        have := sizeOf_loopValue h hmem
        x.same y
    | _, _ => false
termination_by sizeOf a

/-- Equality of types and contents; the origin of the value itself does not count. -/
def sameContent (a b : Value) : Bool := same { a with origin := none } { b with origin := none }

end Value

end ApexPaths
