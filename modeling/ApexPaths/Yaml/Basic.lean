/-!
Characters and places of a marked-up text. All line breaks but the two Unicode separators are read as one
newline, so after `unifyBreaks?` a break is a single character.
-/

namespace ApexPaths.Yaml
set_option autoImplicit false

/-! ## Characters -/

/-- The characters that a text may hold. -/
def isAllowed (c : Char) : Bool :=
  let n := c.toNat
  n == 0x09 || n == 0x0A || n == 0x0D || (0x20 ≤ n && n ≤ 0x7E) || n == 0x85 || (0xA0 ≤ n && n ≤ 0xD7FF)
    || (0xE000 ≤ n && n ≤ 0xFFFD) || 0x10000 ≤ n

/-- The text with every carriage return, alone or before a newline, and every next-line character as a
newline; none if it holds a character that is not allowed. -/
def unifyBreaks? : List Char → Option (List Char)
  | [] => some []
  | '\r' :: '\n' :: cs => (unifyBreaks? cs).map ('\n' :: ·)
  | c :: cs =>
    if !isAllowed c then none
    else (unifyBreaks? cs).map ((if c == '\r' || c.toNat == 0x85 then '\n' else c) :: ·)

def isBreak (c : Char) : Bool := c == '\n' || c.toNat == 0x2028 || c.toNat == 0x2029

def isSpacing (c : Char) : Bool := c == ' ' || c == '\t'

/-- Nothing, a blank or a line break comes next. -/
def atGap : List Char → Bool
  | [] => true
  | c :: _ => isSpacing c || isBreak c

/-- The characters of names: ASCII letters and digits, the underscore and the dash. -/
def isNameChar (c : Char) : Bool := c.isAlphanum || c == '_' || c == '-'

/-- The characters that end a plain scalar inside brackets. -/
def isFlowMark (c : Char) : Bool := [',', '[', ']', '{', '}'].contains c

/-- Three dashes or three points with a gap after them: at the start of a line they bound a document. -/
def isDocumentMark : List Char → Bool
  | '-' :: '-' :: '-' :: cs => atGap cs
  | '.' :: '.' :: '.' :: cs => atGap cs
  | _ => false

/-! ## Places -/

/-- A place in a text: how many characters, lines, and characters of the line come before it. -/
structure Mark where
  index : Nat := 0
  line : Nat := 0
  column : Nat := 0
  deriving DecidableEq, Repr, Inhabited

namespace Mark

/-- The place some characters further on the same line. -/
def across (mark : Mark) (count : Nat) : Mark := ⟨mark.index + count, mark.line, mark.column + count⟩

/-- The place at the start of the next line, after a break. -/
def down (mark : Mark) : Mark := ⟨mark.index + 1, mark.line + 1, 0⟩

def after (mark : Mark) (c : Char) : Mark := if isBreak c then mark.down else mark.across 1

end Mark

/-- A place and the text from there on. -/
structure Cursor where
  mark : Mark
  rest : List Char
  deriving Repr, Inhabited

namespace Cursor

def skip (cursor : Cursor) (count : Nat) : Cursor := ⟨cursor.mark.across count, cursor.rest.drop count⟩

/-- Skip the characters of a kind, which are no breaks. -/
def skipWhile (p : Char → Bool) (cursor : Cursor) : Cursor := cursor.skip (cursor.rest.takeWhile p).length

/-- The next line, if nothing but blanks and a comment is left on this one. -/
def nextLine? (cursor : Cursor) : Option Cursor :=
  let cursor := cursor.skipWhile isSpacing
  let cursor := if cursor.rest.head? == some '#' then cursor.skipWhile (!isBreak ·) else cursor
  match cursor.rest with
  | [] => some cursor
  | c :: cs => if isBreak c then some ⟨cursor.mark.down, cs⟩ else none

/-- The first place of a text. A byte order mark there takes a column but is not read. -/
def ofText : List Char → Cursor
  | [] => ⟨{}, []⟩
  | c :: cs => if c.toNat == 0xFEFF then ⟨Mark.across {} 1, cs⟩ else ⟨{}, c :: cs⟩

end Cursor

/-!
## Tokens

Indentation shows as tokens too: a start where a block goes deeper, and an end where it goes back.
-/

/-- The unit of structure between the characters of a text and its nodes. The stems and suffixes of tags
are bytes, since their escapes need not spell a text. -/
inductive Token where
  | version (major minor : Nat)
  | tagStem (handle : String) (stem : List UInt8)
  | documentStart
  | documentEnd
  | blockListStart
  | blockMappingStart
  | blockEnd
  | flowListStart
  | flowListEnd
  | flowMappingStart
  | flowMappingEnd
  | blockEntry
  | flowEntry
  | key
  | value
  | alias (name : String)
  | anchor (name : String)
  | tag (handle : String) (suffix : List UInt8)
  | scalar (plain : Bool) (text : String)
  deriving DecidableEq, Repr, Inhabited

end ApexPaths.Yaml
