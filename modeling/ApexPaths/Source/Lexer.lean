import ApexPaths.Source.Fault
import ApexPaths.Text.Integer

/-!
The scanner. Each step looks at the start of the remaining text and says how many characters it
takes, so that the lexemes and the skipped stretches tile the text; places are counted over the
characters taken.
-/

namespace ApexPaths.Source
set_option autoImplicit false

open Text

/-- A line and a column, both from 1. -/
structure Place where
  line : Nat := 1
  column : Nat := 1
  deriving DecidableEq, Repr, Inhabited

def Place.step (place : Place) (c : Char) : Place :=
  if c = '\n' then ⟨place.line + 1, 1⟩ else ⟨place.line, place.column + 1⟩

def Place.after (place : Place) (cs : List Char) : Place := cs.foldl Place.step place

/-! ## Skipped text -/

/-- The number of characters up to and including the end of a block comment. -/
def commentLength? : List Char → Option Nat
  | [] => none
  | '*' :: '/' :: _ => some 2
  | _ :: rest => (commentLength? rest).map (· + 1)

/-- The length of the blank or comment at the start of the text; zero when there is none. -/
def skipLength : List Char → Except Cause Nat
  | '/' :: '/' :: rest => .ok (2 + (rest.takeWhile (· != '\n')).length)
  | '/' :: '*' :: rest =>
    match commentLength? rest with
    | some n => .ok (n + 2)
    | none => .error .unterminatedComment
  | c :: _ => .ok (if isBlank c then 1 else 0)
  | [] => .ok 0

/-! ## Lexemes -/

def isWordChar (c : Char) : Bool := isLetterOrNumeric c || c == '_'

def isWordStart (c : Char) : Bool := isLetter c || c == '_'

/-- What a character stands for after a backslash. -/
def unescape (c : Char) : Char :=
  match c with
  | 'n' => '\n'
  | 't' => '\t'
  | 'r' => '\r'
  | other => other

/-- The value of a text literal after its opening quote, and its length with the closing quote. A
backslash as the very last character ends the literal; a line break inside it does not. -/
def stringBody? : List Char → Option (List Char × Nat)
  | [] => none
  | ['\\'] => some ([], 1)
  | '\\' :: c :: rest => (stringBody? rest).map fun (value, n) => (unescape c :: value, n + 2)
  | c :: rest =>
    if c = '\'' then some ([], 1)
    else if c = '\n' then none
    else (stringBody? rest).map fun (value, n) => (c :: value, n + 1)

/-- The text of a query after its opening bracket, and its length with the closing one. Brackets nest
at any place of the text. -/
def queryBody? (depth : Nat) : List Char → Option (List Char × Nat)
  | [] => none
  | c :: rest =>
    if c = ']' ∧ depth = 0 then some ([], 1)
    else
      let inner := if c = '[' then depth + 1 else if c = ']' then depth - 1 else depth
      (queryBody? inner rest).map fun (value, n) => (c :: value, n + 1)

/-- Whether the text after an opening bracket begins a query. -/
def startsQuery (cs : List Char) : Bool :=
  let body := trimStart cs
  ["select", "find"].any fun word =>
    (body.take word.length).map Char.toLower == word.toList
      && (match body.drop word.length with
          | c :: _ => isBlank c
          | [] => false)

/-- The number at the start of the text, and its length. -/
def number (cs : List Char) : Except Cause (TokenKind × Nat) :=
  let whole := cs.takeWhile Char.isDigit
  let integral (rest : List Char) : Except Cause (TokenKind × Nat) :=
    let isLong := match rest with
      | c :: _ => c == 'l' || c == 'L'
      | [] => false
    match (digits? whole).bind fun n => inInt64? n with
    | some n => .ok (if isLong then (.long n, whole.length + 1) else (.integer n, whole.length))
    | none => .error (.invalidNumber (String.ofList whole))
  match cs.dropWhile Char.isDigit with
  | '.' :: d :: rest =>
    if d.isDigit then
      let fraction := (d :: rest).takeWhile Char.isDigit
      let written := whole ++ '.' :: fraction
      let suffix := match (d :: rest).dropWhile Char.isDigit with
        | c :: _ => if c == 'd' || c == 'D' then 1 else 0
        | [] => 0
      .ok (.decimal (String.ofList written), written.length + suffix)
    else integral ('.' :: d :: rest)
  | rest => integral rest

/-- The token at the start of the text, which holds no blank or comment there, and its length. -/
def lexeme (cs : List Char) : Except Cause (TokenKind × Nat) :=
  match cs with
  | [] => .ok (.eof, 0)
  | c :: rest =>
    if c = '\'' then
      match stringBody? rest with
      | some (value, n) => .ok (.text (String.ofList value), n + 1)
      | none => .error .unterminatedString
    else if c = '@' then
      let name := rest.takeWhile isWordChar
      if name.isEmpty then .error .annotationName else .ok (.decorator (String.ofList name), name.length + 1)
    else if c = '[' && startsQuery rest then
      match queryBody? 0 rest with
      | some (value, n) => .ok (.query (String.ofList (trim value)), n + 1)
      | none => .error .unterminatedQuery
    else if c.isDigit then number cs
    else if isWordStart c then
      let name := cs.takeWhile isWordChar
      .ok (.identifier (String.ofList name), name.length)
    else
      match punctuation.find? fun mark => (dropStart? mark.toList cs).isSome with
      | some mark => .ok (.punct mark, mark.length)
      | none => .error (.unexpectedCharacter c)

/-! ## Token streams -/

/-- The tokens of a text from a place on, and the place of its end. -/
def scanFrom (fuel : Nat) (place : Place) (cs : List Char) : Except Fault (List Token × Place) :=
  match fuel, cs with
  | _, [] => .ok ([], place)
  | 0, _ => .error ⟨place.line, place.column, .exhausted⟩
  | fuel + 1, cs =>
    match skipLength cs with
    | .error cause => .error ⟨place.line, place.column, cause⟩
    | .ok (n + 1) => scanFrom fuel (place.after (cs.take (n + 1))) (cs.drop (n + 1))
    | .ok 0 =>
      match lexeme cs with
      | .error cause => .error ⟨place.line, place.column, cause⟩
      | .ok (kind, n) => do
        let stop := place.after (cs.take n)
        let (tokens, finish) ← scanFrom fuel stop (cs.drop n)
        return (⟨kind, place.line, place.column, stop.line, stop.column⟩ :: tokens, finish)

def Token.endAt (place : Place) : Token := ⟨.eof, place.line, place.column, place.line, place.column⟩

/-- The tokens of a source text without the end mark, and the end mark. -/
def scan (text : String) : Except Fault (List Token × Token) := do
  let cs := text.toList
  let (tokens, finish) ← scanFrom cs.length {} cs
  return (tokens, Token.endAt finish)

/-- All tokens of a named source, the end mark last. -/
def tokenize (unit text : String) : Except ParseError (List Token) :=
  match scan text with
  | .ok (tokens, stop) => .ok (tokens ++ [stop])
  | .error fault => .error ⟨unit, fault⟩

end ApexPaths.Source
