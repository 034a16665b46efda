import ApexPaths.Text.Case
import ApexPaths.Text.Quoted

/-!
Tokens of a source text. Keywords are plain identifiers: they ignore case and may also be member
names, so the reader of a construct decides from context.
-/

namespace ApexPaths.Source
set_option autoImplicit false

/-- What a token is. -/
inductive TokenKind where
  | identifier (name : String)
  /-- A text literal, unescaped. -/
  | text (value : String)
  | integer (value : Int)
  | long (value : Int)
  /-- A number with a fraction, as written. -/
  | decimal (digits : String)
  /-- A query, without its brackets. -/
  | query (text : String)
  | decorator (name : String)
  | punct (mark : String)
  | eof
  deriving DecidableEq, Repr, Inhabited

/-- A token with the place of its first character and the place after its last one. -/
structure Token where
  kind : TokenKind
  line : Nat
  column : Nat
  endLine : Nat
  endColumn : Nat
  deriving DecidableEq, Repr, Inhabited

namespace TokenKind

/-- How a message names the token that was found. -/
def describe : TokenKind → String
  | .identifier name => "'" ++ name ++ "'"
  | .punct mark => "'" ++ mark ++ "'"
  | .eof => "end of input"
  | .text value => "StringLiteral(" ++ Text.quoted value ++ ")"
  | .integer value => "IntegerLiteral(" ++ toString value ++ ")"
  | .long value => "LongLiteral(" ++ toString value ++ ")"
  | .decimal digits => "DecimalLiteral(" ++ Text.quoted digits ++ ")"
  | .query body => "Soql(" ++ Text.quoted body ++ ")"
  | .decorator name => "Annotation(" ++ Text.quoted name ++ ")"

def identifier? : TokenKind → Option String
  | .identifier name => some name
  | _ => none

end TokenKind

namespace Token

def isPunct (token : Token) (mark : String) : Bool := token.kind == .punct mark

/-- The token is the given keyword, in any case. -/
def isWord (token : Token) (word : String) : Bool :=
  match token.kind with
  | .identifier name => Text.eqIgnoringCase name word
  | _ => false

def identifier? (token : Token) : Option String := token.kind.identifier?

end Token

/-- The punctuation marks; an earlier mark wins over a later one that starts the same way. -/
def punctuation : List String :=
  ["===", "!==", "==", "!=", "<=", ">=", "&&", "||", "++", "--", "+=", "-=", "*=", "/=", "=>", "(", ")", "\x7b", "\x7d",
   "[", "]", ";", ",", ".", "=", "<", ">", "+", "-", "*", "/", "!", "?", ":", "&", "|", "^", "%"]

end ApexPaths.Source
