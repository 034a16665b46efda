/-!
Reports: nested records in which results are shown. A report has no meaning of its own; each domain
type says beside its report what the fields hold.
-/

namespace ApexPaths
set_option autoImplicit false

/-- A nested record of texts, integers and flags. -/
inductive Report where
  | null
  | flag (value : Bool)
  | int (value : Int)
  | text (value : String)
  | list (items : List Report)
  | record (fields : List (String × Report))
  deriving Inhabited

namespace Report

def nat (n : Nat) : Report := .int n

def natList (ns : List Nat) : Report := .list (ns.map nat)

def textList (ss : List String) : Report := .list (ss.map .text)

/-- An optional part; an absent one is null. -/
def opt {α : Type} (show_ : α → Report) : Option α → Report
  | some a => show_ a
  | none => .null

def optNat : Option Nat → Report := opt nat

def optText : Option String → Report := opt .text

/-- A field that is shown only under a condition. -/
def fieldIf (shown : Bool) (name : String) (value : Report) : List (String × Report) :=
  if shown then [(name, value)] else []

/-- The record with more fields at its end; other reports stay. -/
def extend (fields : List (String × Report)) : Report → Report
  | .record own => .record (own ++ fields)
  | other => other

end Report

end ApexPaths
