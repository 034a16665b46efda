/-!
Documents: nested values as a data format gives them. A value may carry a tag; what a value is read as
does not depend on its tags, but its equality with another value does.
-/

namespace ApexPaths
set_option autoImplicit false

/-- A value of a data format. -/
inductive Document where
  | null
  | flag (value : Bool)
  | int (value : Int)
  | real (value : Float)
  | text (value : String)
  | list (items : List Document)
  | record (fields : List (Document × Document))
  | tagged (tag : String) (value : Document)
  deriving Inhabited

namespace Document

/-! ## Equality -/

/-- A tag without the mark before its name; the mark alone is a name. -/
def tagName (tag : String) : List Char :=
  match tag.toList with
  | '!' :: c :: cs => c :: cs
  | cs => cs

mutual

/-- Equality of values. Records are compared as tables, numbers by value, and the value that is no number
is equal to itself. -/
def same : Document → Document → Bool
  | .null, .null => true
  | .flag a, .flag b => a == b
  | .int a, .int b => a == b
  | .real a, .real b => a == b || (a.isNaN && b.isNaN)
  | .text a, .text b => a == b
  | .list xs, .list ys => sameItems xs ys
  | .record xs, .record ys => xs.length == ys.length && sameFields xs ys
  | .tagged s a, .tagged t b => tagName s == tagName t && same a b
  | _, _ => false

def sameItems : List Document → List Document → Bool
  | [], [] => true
  | x :: xs, y :: ys => same x y && sameItems xs ys
  | _, _ => false

/-- Every field on the left is one on the right. -/
def sameFields : List (Document × Document) → List (Document × Document) → Bool
  | [], _ => true
  | (key, value) :: rest, fields =>
    fields.any (fun field => same key field.1 && same value field.2) && sameFields rest fields

end

/-! ## Reading -/

def untagged : Document → Document
  | .tagged _ value => value.untagged
  | value => value

def flag? (doc : Document) : Option Bool :=
  match doc.untagged with
  | .flag value => some value
  | _ => none

def text? (doc : Document) : Option String :=
  match doc.untagged with
  | .text value => some value
  | _ => none

def intWithin? (least most : Int) (doc : Document) : Option Int :=
  match doc.untagged with
  | .int value => if least ≤ value ∧ value ≤ most then some value else none
  | _ => none

def int64? (doc : Document) : Option Int := doc.intWithin? (-9223372036854775808) 9223372036854775807

def nat64? (doc : Document) : Option Nat := (doc.intWithin? 0 18446744073709551615).map Int.toNat

def nat32? (doc : Document) : Option Nat := (doc.intWithin? 0 4294967295).map Int.toNat

/-- A missing value reads as `none`; any other value must be readable. -/
def optional? {α : Type} (read : Document → Option α) : Document → Option (Option α)
  | .null => some none
  | doc => (read doc).map some

/-! ## Fields -/

/-- The value under a text without a tag. -/
def get? (name : String) : List (Document × Document) → Option Document
  | [] => none
  | (.text key, value) :: rest => if key = name then some value else get? name rest
  | _ :: rest => get? name rest

/-- The value of a field in a list of fields; the tags of its key do not count. -/
def field? (name : String) (fields : List (Document × Document)) : Option Document :=
  (fields.find? fun field => field.1.text? == some name).map (·.2)

/-- Read the field of a record, with a default if it is absent. -/
def readField {α : Type} (name : String) (default : α) (read : Document → Option α)
    (fields : List (Document × Document)) : Option α :=
  match field? name fields with
  | some doc => read doc
  | none => some default

/-- Read the item of a list at a position, with a default if the list is shorter. -/
def readItem {α : Type} (index : Nat) (default : α) (read : Document → Option α) (items : List Document) : Option α :=
  match items[index]? with
  | some doc => read doc
  | none => some default

/-- The names of the fields, if every key is a text. -/
def names? (fields : List (Document × Document)) : Option (List String) := fields.mapM fun field => field.1.text?

/-- Every key is one of the given names, and none occurs twice. -/
def onlyKeys (known : List String) (fields : List (Document × Document)) : Bool :=
  match names? fields with
  | some names => names.all known.contains && decide names.Nodup
  | none => false

end Document

end ApexPaths
