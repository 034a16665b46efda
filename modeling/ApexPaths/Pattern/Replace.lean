import ApexPaths.Pattern.Machine
import ApexPaths.Pattern.Parser

/-!
Splitting and replacing by patterns. A replacement refers to groups by a dollar sign and a number or a
name, in braces or not; two dollar signs stand for one.
-/

namespace ApexPaths.Pattern
set_option autoImplicit false

/-! ## Pieces of a text -/

def slice (text : Array Char) (start stop : Nat) : List Char := (text.extract start stop).toList

/-- The pieces of a text between matches. -/
def between (text : Array Char) (start : Nat) : List Match → List (List Char)
  | [] => [slice text start text.size]
  | found :: rest => slice text start found.start :: between text found.stop rest

/-- The pieces of a text between all matches of a pattern. -/
def Regex.split (regex : Regex) (s : String) : List String :=
  let text := s.toList.toArray
  (between text 0 (regex.searcher.searchAll text)).map String.ofList

/-! ## Replacements -/

/-- The text of a group; a group that took no part is empty. -/
def groupText (text : Array Char) (found : Match) (group : Nat) : List Char :=
  match found.span? group with
  | some (start, stop) => slice text start stop
  | none => []

/-- The text of a group by its number or name; an unknown one is empty. -/
def reference (regex : Regex) (text : Array Char) (found : Match) (name : List Char) : List Char :=
  let digits := match name with
    | '+' :: rest => rest
    | name => name
  match Text.digits? digits with
  | some n => if n ≤ 18446744073709551615 then groupText text found n else []
  | none =>
    match regex.names.find? (·.1 == String.ofList name) with
    | some (_, n) => groupText text found n
    | none => []

def isNameChar (c : Char) : Bool := c.isAlphanum || c == '_'

/-- The name of a group at the start of a text after a dollar sign, and the rest. -/
def groupRef? : List Char → Option (List Char × List Char)
  | '\x7b' :: rest =>
    match rest.dropWhile (· != '\x7d') with
    | [] => none
    | _ :: after => some (rest.takeWhile (· != '\x7d'), after)
  | cs =>
    let name := cs.takeWhile isNameChar
    if name.isEmpty then none else some (name, cs.drop name.length)

/-- A replacement with its references filled in. The number bounds the steps. -/
def fill (lookup : List Char → List Char) : Nat → List Char → List Char
  | 0, cs => cs
  | _, [] => []
  | n + 1, '$' :: '$' :: rest => '$' :: fill lookup n rest
  | n + 1, '$' :: rest =>
    match groupRef? rest with
    | some (name, after) => lookup name ++ fill lookup n after
    | none => '$' :: fill lookup n rest
  | n + 1, c :: rest => c :: fill lookup n rest

/-- The text with every match replaced; `replacement` gives the text for a match. -/
def replaced (text : Array Char) (replacement : Match → List Char) (start : Nat) : List Match → List Char
  | [] => slice text start text.size
  | found :: rest => slice text start found.start ++ replacement found ++ replaced text replacement found.stop rest

/-- The text with every match of a pattern replaced. -/
def Regex.replaceAll (regex : Regex) (s replacement : String) : String :=
  let text := s.toList.toArray
  let template := replacement.toList
  let fillFor (found : Match) : List Char := fill (reference regex text found) (template.length + 1) template
  String.ofList (replaced text fillFor 0 (regex.searcher.searchAll text))

/-- The text of a group in the first match of a pattern. -/
def Regex.firstGroup? (regex : Regex) (s : String) (group : Nat) : Option String :=
  let text := s.toList.toArray
  (regex.searcher.search text 0).bind fun found => (found.span? group).map fun (start, stop) =>
    String.ofList (slice text start stop)

end ApexPaths.Pattern
