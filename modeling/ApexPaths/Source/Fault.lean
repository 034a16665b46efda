import ApexPaths.Source.Token

/-!
What can be wrong with a source text, and how it is worded.
-/

namespace ApexPaths.Source
set_option autoImplicit false

/-- What should have stood at a place where something else was found. -/
inductive Expectation where
  | mark (text : String)
  | identifier
  | expression
  | typeDeclaration
  | accessor
  | handler
  | endOfUnit
  /-- A block without `static` in a class body. -/
  | staticBlock
  /-- A second update expression in a loop head. -/
  | singleUpdate
  | declaration
  | castOperand
  | typeCase
  deriving DecidableEq, Repr

/-- Why a source text is refused. -/
inductive Cause where
  | unterminatedComment
  | unterminatedString
  | unterminatedQuery
  | annotationName
  | invalidNumber (digits : String)
  | unexpectedCharacter (c : Char)
  | unexpected (wanted : Expectation) (found : TokenKind)
  | interfaceMember
  /-- The reading bound was too small; a bound taken from the input never is. -/
  | exhausted
  deriving DecidableEq, Repr

/-- A cause and the place it was found at. -/
structure Fault where
  line : Nat
  column : Nat
  cause : Cause
  deriving DecidableEq, Repr

/-- A fault in a named source. -/
structure ParseError where
  unit : String
  fault : Fault
  deriving DecidableEq, Repr

def Expectation.message : Expectation → String
  | .mark text => "expected '" ++ text ++ "'"
  | .identifier => "expected identifier"
  | .expression => "expected expression"
  | .typeDeclaration => "expected 'class', 'interface', 'enum' or 'trigger'"
  | .accessor => "expected 'get' or 'set'"
  | .handler => "expected 'catch' or 'finally'"
  | .endOfUnit => "unexpected input after type declaration"
  | .staticBlock => "instance initializer blocks are not supported"
  | .singleUpdate => "multiple update expressions are not supported"
  | .declaration => "not a declaration"
  | .castOperand => "not a cast"
  | .typeCase => "not a type case"

def Cause.message : Cause → String
  | .unterminatedComment => "unterminated block comment"
  | .unterminatedString => "unterminated string literal"
  | .unterminatedQuery => "unterminated query"
  | .annotationName => "expected annotation name"
  | .invalidNumber digits => "invalid number '" ++ digits ++ "'"
  | .unexpectedCharacter c => "unexpected character '" ++ String.singleton c ++ "'"
  | .unexpected wanted found => wanted.message ++ ", found " ++ found.describe
  | .interfaceMember => "interfaces may only declare methods"
  | .exhausted => "input is nested too deeply"

def ParseError.message (e : ParseError) : String :=
  "Parse error in " ++ e.unit ++ " at " ++ toString e.fault.line ++ ":" ++ toString e.fault.column ++ ": "
    ++ e.fault.cause.message

end ApexPaths.Source
