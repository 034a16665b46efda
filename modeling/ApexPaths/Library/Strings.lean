import ApexPaths.Library.Call
import ApexPaths.Pattern.Replace

/-!
Methods of strings. Positions count characters; patterns are read by the pattern language, and a text
that is no pattern leaves the result unknown.
-/

namespace ApexPaths.Library
set_option autoImplicit false

open Text

/-! ## Operations on text -/

/-- The text with every occurrence of another one replaced; the empty text occurs between all characters.
The number bounds the occurrences. -/
def replaceText (needle replacement : List Char) : Nat → List Char → List Char
  | 0, cs => cs
  | n + 1, cs =>
    if needle.isEmpty then replacement ++ cs.flatMap fun c => c :: replacement
    else
      match cutAt? needle cs with
      | some (before, after) => before ++ replacement ++ replaceText needle replacement n after
      | none => cs

def escapeQuotes (s : String) : String :=
  String.ofList (s.toList.flatMap fun c => if c = '\'' then ['\\', '\''] else [c])

def isBlankText (s : String) : Bool := (trim s.toList).isEmpty

/-- The words of a text with one space between them. -/
def normalizeSpace (cs : List Char) : List Char :=
  let spaced := cs.map fun c => if isBlank c then ' ' else c
  joinWith [' '] ((splitOn ' ' spaced).filter (!·.isEmpty))

def capitalize : List Char → List Char
  | [] => []
  | c :: cs => upperChar c ++ cs

/-- The position of the first occurrence of a text, or -1. -/
def indexOf (needle cs : List Char) : Int :=
  match cutAt? needle cs with
  | some (before, _) => before.length
  | none => -1

/-- References to groups by a dollar sign and a number. -/
def groupReferences : Option Pattern.Regex := Pattern.Regex.ofText? "\\$(\\d+)"

/-- A replacement in which a number after a dollar sign ends where its digits end. -/
def delimitGroups (replacement : String) : String :=
  match groupReferences with
  | some regex => regex.replaceAll replacement "$$\x7b$1\x7d"
  | none => replacement

/-! ## Methods of a string -/

def stringMethodType? (method : String) : Option String :=
  if ["trim", "tolowercase", "touppercase", "substring", "replace", "replaceall", "left", "right", "capitalize",
      "escapesinglequotes", "normalizespace", "reverse"].contains method then some "String"
  else if ["contains", "containsignorecase", "startswith", "endswith", "equals", "equalsignorecase", "isblank",
  "isnotblank", "isempty", "isnotempty"].contains method then some "Boolean"
  else if ["length", "indexof"].contains method then some "Integer"
  else if method = "split" then some "List<String>"
  else none

/-- The result of a method on a known string that needs no heap. -/
def stringResult? (s : String) (call : LibraryCall) : Option Value := do
  let cs := s.toList
  let arg := fun index => (call.textArg? index).map String.toList
  let text (cs : List Char) : Value := .ofText (String.ofList cs)
  match call.method with
  | "trim" => some (text (trim cs))
  | "tolowercase" => some (.ofText (lower s))
  | "touppercase" => some (.ofText (upper s))
  | "normalizespace" => some (text (normalizeSpace cs))
  | "reverse" => some (text cs.reverse)
  | "capitalize" => some (text (capitalize cs))
  | "escapesinglequotes" => some (.ofText (escapeQuotes s))
  | "length" => some (.ofInt cs.length)
  | "isblank" => some (.ofBool (isBlankText s))
  | "isnotblank" => some (.ofBool !(isBlankText s))
  | "isempty" => some (.ofBool cs.isEmpty)
  | "isnotempty" => some (.ofBool !cs.isEmpty)
  | "contains" => return .ofBool (occursIn (← arg 0) cs)
  | "containsignorecase" => return .ofBool (occursIn (lower (← call.textArg? 0)).toList (lower s).toList)
  | "startswith" => return .ofBool (dropStart? (← arg 0) cs).isSome
  | "endswith" => return .ofBool (dropEnd? (← arg 0) cs).isSome
  | "equals" =>
    let other ← call.arg? 0
    if other.isNull then some (.ofBool false) else other.text?.map fun t => .ofBool (s == t)
  | "equalsignorecase" => return .ofBool (eqIgnoringCase s (← call.textArg? 0))
  | "indexof" => return .ofInt (indexOf (← arg 0) cs)
  | "substring" =>
    let start ← call.indexArg? 0
    let stop ← if call.args.length = 1 then some cs.length else call.indexArg? 1
    if start ≤ stop ∧ stop ≤ cs.length then some (text ((cs.take stop).drop start)) else none
  | "left" => return text (cs.take (← call.intArg? 0).toNat)
  | "right" => return text (cs.drop (cs.length - (← call.intArg? 0).toNat))
  | "replace" => return text (replaceText (← arg 0) (← arg 1) (cs.length + 1) cs)
  | "replaceall" =>
    let regex ← Pattern.Regex.ofText? (← call.textArg? 0)
    return .ofText (regex.replaceAll s (delimitGroups (← call.textArg? 1)))
  | _ => none

/-- The pieces of a string between matches of a pattern; empty ones at the end are dropped. -/
def splitPieces? (s : String) (call : LibraryCall) : Option (List String) := do
  let regex ← Pattern.Regex.ofText? (← call.textArg? 0)
  return ((regex.split s).reverse.dropWhile (·.isEmpty)).reverse

def stringMethod (receiver : Value) (call : LibraryCall) (heap : Heap) : Option (Value × Heap) := do
  let type ← stringMethodType? call.method
  let computed := receiver.text?.bind fun s =>
    if call.method = "split" then
      (splitPieces? s call).map fun pieces => heap.newList "String" { items := pieces.map .ofText }
    else (stringResult? s call).map (·, heap)
  return computed.getD (.unknown type, heap)

/-! ## Static methods -/

/-- A null or a string passes a test; other values leave it open. -/
def textTest? (test : String → Bool) (value : Value) : Option Bool :=
  if value.isNull then some true else value.text?.map test

def staticStringMethod? (call : LibraryCall) : Option Value :=
  let flag (value : Option Bool) : Option Value := some ((value.map .ofBool).getD (.unknown "Boolean"))
  let text (value : Option String) : Option Value := some ((value.map .ofText).getD (.unknown "String"))
  let arg := call.arg? 0
  match call.method with
  | "valueof" => text (arg.bind Value.displayText?)
  | "isblank" => flag (arg.bind (textTest? isBlankText))
  | "isnotblank" => flag ((arg.bind (textTest? isBlankText)).map (!·))
  | "isempty" => flag (arg.bind (textTest? String.isEmpty))
  | "isnotempty" => flag ((arg.bind (textTest? String.isEmpty)).map (!·))
  | "escapesinglequotes" => text ((arg.bind Value.text?).map escapeQuotes)
  | "join" | "format" => text none
  | _ => none

def strings : Handler := fun call heap =>
  match call.target with
  | .type _ => if call.isStaticOn "String" then (staticStringMethod? call).map (·, heap) else none
  | .value receiver => if receiver.type = "String" ∨ receiver.type = "Id" then stringMethod receiver call heap else none

end ApexPaths.Library
