import ApexPaths.Source.Lexer
import ApexPaths.Source.Tree

/-!
Reading constructs from a token stream. A reader takes tokens from a cursor and fails at a place.
Repetitions are bounded by the number of tokens left, which `bounded` supplies.
-/

namespace ApexPaths.Source
set_option autoImplicit false

/-- The tokens left, the last one taken, and the end mark. -/
structure Cursor where
  rest : List Token
  last : Option Token := none
  stop : Token
  deriving Repr

abbrev Reader (α : Type) := StateT Cursor (Except Fault) α

def Token.span (token : Token) : Span := ⟨token.line, token.column, token.endLine, token.endColumn⟩

def openBrace : String := "\x7b"

def closeBrace : String := "\x7d"

namespace Cursor

section
variable (cursor : Cursor)

/-- The token at a distance from the next one. -/
def ahead (n : Nat) : Token := cursor.rest.getD n cursor.stop

def peek : Token := cursor.ahead 0

def atEnd : Bool := cursor.peek.kind == .eof

/-- The next token and the cursor after it; at an end mark nothing moves. -/
def advance : Token × Cursor :=
  if cursor.atEnd then (cursor.peek, cursor)
    else (cursor.peek, { cursor with rest := cursor.rest.tail, last := some cursor.peek })

/-- The span from a token to the last one taken. -/
def spanFrom (start : Token) : Span :=
  let last := cursor.last.getD start
  ⟨start.line, start.column, last.endLine, last.endColumn⟩

end

end Cursor

namespace Reader

/-! ## Single tokens -/

def peek : Reader Token := fun cursor => .ok (cursor.peek, cursor)

def ahead (n : Nat) : Reader Token := fun cursor => .ok (cursor.ahead n, cursor)

def advance : Reader Token := fun cursor => .ok cursor.advance

def atEnd : Reader Bool := fun cursor => .ok (cursor.atEnd, cursor)

def spanFrom (start : Token) : Reader Span := fun cursor => .ok (cursor.spanFrom start, cursor)

def fail {α : Type} (cause : Cause) : Reader α := fun cursor =>
  .error ⟨cursor.peek.line, cursor.peek.column, cause⟩

/-- Fail at the next token, which is not what was expected. -/
def unexpected {α : Type} (wanted : Expectation) : Reader α := fun cursor =>
  .error ⟨cursor.peek.line, cursor.peek.column, .unexpected wanted cursor.peek.kind⟩

def check (mark : String) : Reader Bool := return (← peek).isPunct mark

def checkWord (word : String) : Reader Bool := return (← peek).isWord word

/-- The first of some marks that is next. -/
def checkAny (marks : List String) : Reader (Option String) := return marks.find? (← peek).isPunct

def eat (mark : String) : Reader Bool := do
  if ← check mark then
    let _ ← advance
    return true
  else return false

def eatWord (word : String) : Reader Bool := do
  if ← checkWord word then
    let _ ← advance
    return true
  else return false

def expect (mark : String) : Reader Token := do
  if ← check mark then advance else unexpected (.mark mark)

def expectWord (word : String) : Reader Token := do
  if ← checkWord word then advance else unexpected (.mark word)

def identifier : Reader String := do
  match (← peek).identifier? with
  | some name =>
    let _ ← advance
    return name
  | none => unexpected .identifier

/-! ## Choice and repetition -/

/-- Read, or leave the cursor where it was. A bound that was too small is no reason to go on. -/
def attempt {α : Type} (read : Reader α) : Reader (Option α) := fun cursor =>
  match read cursor with
  | .ok (a, cursor') => .ok (some a, cursor')
  | .error fault => if fault.cause = .exhausted then .error fault else .ok (none, cursor)

/-- Give a reader a bound that exceeds the number of tokens left. -/
def bounded {α : Type} (read : Nat → Reader α) : Reader α := fun cursor => read (cursor.rest.length + 1) cursor

/-- One or more items with commas between them. -/
def commaSeparated {α : Type} (item : Reader α) : Nat → Reader (List α)
  | 0 => fail .exhausted
  | n + 1 => do
    let first ← item
    if ← eat "," then return first :: (← commaSeparated item n) else return [first]

/-- Items with commas between them up to a closing mark, which is left; a comma may stand before it. -/
def itemsUntil {α : Type} (close : String) (item : Reader α) : Nat → Reader (List α)
  | 0 => fail .exhausted
  | n + 1 => do
    if ← check close then return []
    let first ← item
    if ← eat "," then return first :: (← itemsUntil close item n) else return [first]

/-- Items up to the closing brace, which is taken; semicolons between them are skipped. -/
def itemsInBraces {α : Type} (item : Reader α) : Nat → Reader (List α)
  | 0 => fail .exhausted
  | n + 1 => do
    if ← eat closeBrace then return []
    if ← atEnd then unexpected (.mark closeBrace)
    else if ← eat ";" then itemsInBraces item n
    else
      let first ← item
      return first :: (← itemsInBraces item n)

/-! ## Types -/

/-- The dotted part of a type name after its first word. -/
def dottedWords : Nat → Reader String
  | 0 => fail .exhausted
  | n + 1 => do
    if (← check ".") && (← ahead 1).identifier?.isSome then
      let _ ← advance
      let name ← identifier
      return "." ++ name ++ (← dottedWords n)
    else return ""

/-- The empty brackets after a type name. -/
def arrayMarks : Nat → Reader String
  | 0 => fail .exhausted
  | n + 1 => do
    if (← check "[") && (← ahead 1).isPunct "]" then
      let _ ← advance
      let _ ← advance
      return "[]" ++ (← arrayMarks n)
    else return ""

/-- A type name whose arguments are read by `argument`. -/
def typeNameWith (argument : Reader String) : Reader String := do
  let first ← identifier
  let name := first ++ (← bounded dottedWords)
  let args ←
    if ← eat "<" then do
      let args ← bounded (commaSeparated argument)
      let _ ← expect ">"
      pure ("<" ++ Text.joinStrings "," args ++ ">")
    else pure ""
  return name ++ args ++ (← bounded arrayMarks)

def typeNameWithin : Nat → Reader String
  | 0 => fail .exhausted
  | n + 1 => typeNameWith (typeNameWithin n)

/-- A type name, as written but without blanks. -/
def typeName : Reader String := bounded typeNameWithin

end Reader

end ApexPaths.Source
