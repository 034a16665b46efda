import ApexPaths.Yaml.Scalar

/-!
From text to tokens. A key is known to be one only when its colon is met, so the lexer remembers where a
key may have started and puts the token for it in later; such a key has to end on its line and within
1024 characters.
-/

namespace ApexPaths.Yaml
set_option autoImplicit false

open Text

/-- A place where a key may have started: the number of its first token, and whether the text is wrong
if it turns out to be none. -/
structure PossibleKey where
  token : Nat
  mark : Mark
  required : Bool
  deriving DecidableEq, Repr, Inhabited

/-- A key has ended at the latest with its line, and 1024 characters after its start. -/
def PossibleKey.isOver (key : PossibleKey) (mark : Mark) : Bool :=
  key.mark.line < mark.line || key.mark.index + 1024 < mark.index

/-- The state of reading: the place in the text, the tokens so far with the latest first, the indentation of
the open blocks, and a possible key for each open bracket and for the block around them. -/
structure Lexer where
  cursor : Cursor
  tokens : List Token := []
  indent : Int := -1
  outerIndents : List Int := []
  key : Option PossibleKey := none
  outerKeys : List (Option PossibleKey) := []
  keyAllowed : Bool := true
  deriving Repr, Inhabited

namespace Lexer

/-! ## Tokens and keys -/

def inFlow (lexer : Lexer) : Bool := !lexer.outerKeys.isEmpty

def push (lexer : Lexer) (token : Token) : Lexer := { lexer with tokens := token :: lexer.tokens }

/-- Put a token before the one with a given number. -/
def insertAt (lexer : Lexer) (number : Nat) (token : Token) : Lexer :=
  { lexer with tokens := lexer.tokens.insertIdx (lexer.tokens.length - number) token }

def skip (lexer : Lexer) (count : Nat) : Lexer := { lexer with cursor := lexer.cursor.skip count }

/-- Give up the possible key, which is wrong if it was required. -/
def dropKey? (lexer : Lexer) : Option Lexer :=
  if lexer.key.any (·.required) then none else some { lexer with key := none }

/-- Remember this place if a key may start here. In a block a key is required at the indentation. -/
def saveKey? (lexer : Lexer) : Option Lexer :=
  if !lexer.keyAllowed then some lexer
  else do
    let mark := lexer.cursor.mark
    let required := !lexer.inFlow && lexer.indent == mark.column
    return { ← lexer.dropKey? with key := some ⟨lexer.tokens.length, mark, required⟩ }

def dropOldKeys? (lexer : Lexer) : Option Lexer := do
  let keep? (key : Option PossibleKey) : Option (Option PossibleKey) :=
    match key with
    | none => some none
    | some k => if !k.isOver lexer.cursor.mark then some key else if k.required then none else some none
  return { lexer with key := ← keep? lexer.key, outerKeys := ← lexer.outerKeys.mapM keep? }

/-! ## Indentation -/

/-- Open a block at a column that is deeper than the indentation; `enter` puts the token that says so. -/
def deepen (lexer : Lexer) (column : Nat) (enter : Lexer → Lexer) : Lexer :=
  if !lexer.inFlow && lexer.indent < column then
    enter { lexer with indent := column, outerIndents := lexer.indent :: lexer.outerIndents }
  else lexer

/-- Close the blocks that are deeper than a column. -/
def closeTo (lexer : Lexer) (column : Int) : Lexer :=
  if lexer.inFlow then lexer
  else go lexer.tokens lexer.indent lexer.outerIndents
where
  go (tokens : List Token) (indent : Int) : List Int → Lexer
    | [] => { lexer with tokens, indent, outerIndents := [] }
    | outer :: rest =>
      if column < indent then go (.blockEnd :: tokens) outer rest
      else { lexer with tokens, indent, outerIndents := outer :: rest }

/-! ## Space between tokens -/

/-- Skip blanks, comments and line breaks. A tab does not count as a blank where a block may start; in a
block a new line may start a key. -/
def skipSpace (inFlow keyAllowed inComment : Bool) (mark : Mark) : List Char → Bool × Cursor
  | [] => (keyAllowed, ⟨mark, []⟩)
  | c :: cs =>
    if isBreak c then skipSpace inFlow (keyAllowed || !inFlow) false mark.down cs
    else if inComment || c == '#' then skipSpace inFlow keyAllowed true (mark.across 1) cs
    else if c == ' ' || (c == '\t' && (inFlow || !keyAllowed)) then skipSpace inFlow keyAllowed false (mark.across 1) cs
    else (keyAllowed, ⟨mark, c :: cs⟩)

/-- Go to the start of the next token: give up keys that are over and close blocks. -/
def toNext? (lexer : Lexer) : Option Lexer := do
  let (keyAllowed, cursor) := skipSpace lexer.inFlow lexer.keyAllowed false lexer.cursor.mark lexer.cursor.rest
  let lexer ← { lexer with keyAllowed, cursor }.dropOldKeys?
  return lexer.closeTo cursor.mark.column

/-! ## Directives -/

/-- A number of at most nine digits, and the place after it. -/
def number? (cursor : Cursor) : Option (Nat × Cursor) := do
  let digits := cursor.rest.takeWhile Char.isDigit
  guard (digits.length ≤ 9)
  return (← digits? digits, cursor.skip digits.length)

/-- The handle of a tag: a mark, or a name between two marks. The second mark may be missing from what is
not a handle after all. -/
def handle? (cursor : Cursor) : Option (List Char × Cursor) :=
  match cursor.rest with
  | '!' :: cs =>
    let name := cs.takeWhile isNameChar
    match cs.drop name.length with
    | '!' :: _ => some ('!' :: name ++ ['!'], cursor.skip (name.length + 2))
    | _ => some ('!' :: name, cursor.skip (name.length + 1))
  | _ => none

/-- How many bytes a character takes, by the first of them. -/
def byteWidth? (byte : Nat) : Option Nat :=
  if byte < 0x80 then some 1
  else if 0xC0 ≤ byte && byte < 0xE0 then some 2
  else if 0xE0 ≤ byte && byte < 0xF0 then some 3
  else if 0xF0 ≤ byte && byte < 0xF8 then some 4
  else none

/-- The bytes of a tag at the start of a text, and the place after them. An escape is a percent sign with two
hexadecimal digits; `due` counts the escapes that have to follow to complete a character. `inBrackets`
allows the marks of lists. -/
def tagBytes? (inBrackets : Bool) (due : Nat) (read : List UInt8) (mark : Mark) :
    List Char → Option (List UInt8 × Cursor)
  | '%' :: a :: b :: cs => do
    let byte ← digitsInBase? 16 [a, b]
    let due ← match due with
      | 0 => (byteWidth? byte).map (· - 1)
      | n + 1 => if 0x80 ≤ byte && byte < 0xC0 then some n else none
    tagBytes? inBrackets due (UInt8.ofNat byte :: read) (mark.across 3) cs
  | [] => if due = 0 then some (read.reverse, ⟨mark, []⟩) else none
  | c :: cs =>
    if 0 < due || c == '%' then none
    else if isNameChar c || ";/?:@&=+$.!~*'()".toList.contains c || (inBrackets && [',', '[', ']'].contains c) then
      tagBytes? inBrackets 0 (UInt8.ofNat c.toNat :: read) (mark.across 1) cs
    else some (read.reverse, ⟨mark, c :: cs⟩)

/-- A directive: the version of the format, or the stem that a handle stands for. -/
def directive? (lexer : Lexer) : Option Lexer := do
  let lexer ← { lexer.closeTo (-1) with keyAllowed := false }.dropKey?
  let name := (lexer.cursor.rest.drop 1).takeWhile isNameChar
  let cursor := lexer.cursor.skip (name.length + 1)
  guard (atGap cursor.rest)
  let cursor := cursor.skipWhile isSpacing
  match String.ofList name with
  | "YAML" =>
    let (major, cursor) ← number? cursor
    guard (cursor.rest.head? == some '.')
    let (minor, cursor) ← number? (cursor.skip 1)
    return { lexer.push (.version major minor) with cursor := ← cursor.nextLine? }
  | "TAG" =>
    let (handle, cursor) ← handle? cursor
    guard (handle.length = 1 || handle.getLast? == some '!')
    guard (cursor.rest.head?.any isSpacing)
    let cursor := cursor.skipWhile isSpacing
    let (stem, cursor) ← tagBytes? true 0 [] cursor.mark cursor.rest
    guard (!stem.isEmpty && atGap cursor.rest)
    return { lexer.push (.tagStem (String.ofList handle) stem) with cursor := ← cursor.nextLine? }
  | _ => none

/-! ## Properties of nodes -/

/-- A name after its mark, for an anchor or an alias. -/
def named? (lexer : Lexer) (token : String → Token) : Option Lexer := do
  let lexer ← lexer.saveKey?
  let name := (lexer.cursor.rest.drop 1).takeWhile isNameChar
  let cursor := lexer.cursor.skip (name.length + 1)
  guard (!name.isEmpty)
  guard (atGap cursor.rest || cursor.rest.head?.any fun c => "?:,]\x7d%@".toList.contains c || c.toNat == 0x60)
  return { lexer.push (token (String.ofList name)) with cursor, keyAllowed := false }

def asciiBytes (cs : List Char) : List UInt8 := cs.map fun c => UInt8.ofNat c.toNat

/-- A tag in angle brackets, a handle with a suffix, a suffix alone, or the mark alone. -/
def tag? (lexer : Lexer) : Option Lexer := do
  let lexer ← lexer.saveKey?
  let start := lexer.cursor
  let (token, cursor) ←
    if start.rest.take 2 == ['!', '<'] then do
      let inside := start.skip 2
      let (suffix, cursor) ← tagBytes? true 0 [] inside.mark inside.rest
      guard (!suffix.isEmpty && cursor.rest.head? == some '>')
      some (Token.tag "" suffix, cursor.skip 1)
    else do
      let (handle, cursor) ← handle? start
      let (suffix, cursor) ← tagBytes? false 0 [] cursor.mark cursor.rest
      if 1 < handle.length && handle.getLast? == some '!' then do
        guard (!suffix.isEmpty)
        some (.tag (String.ofList handle) suffix, cursor)
      else
        let suffix := asciiBytes (handle.drop 1) ++ suffix
        some (if suffix.takeWhile (· != 0) == [] then .tag "" [33] else .tag "!" suffix, cursor)
  guard (atGap cursor.rest || (lexer.inFlow && cursor.rest.head? == some ','))
  return { lexer.push token with cursor, keyAllowed := false }

/-! ## Structure -/

/-- Three dashes or points at the start of a line. -/
def documentMark? (lexer : Lexer) (token : Token) : Option Lexer := do
  let lexer ← { lexer.closeTo (-1) with keyAllowed := false }.dropKey?
  return (lexer.push token).skip 3

def openFlow? (lexer : Lexer) (token : Token) : Option Lexer := do
  let lexer ← lexer.saveKey?
  return { (lexer.push token).skip 1 with key := none, outerKeys := lexer.key :: lexer.outerKeys, keyAllowed := true }

def closeFlow? (lexer : Lexer) (token : Token) : Option Lexer := do
  let lexer := (← lexer.dropKey?).push token |>.skip 1
  match lexer.outerKeys with
  | [] => return { lexer with keyAllowed := false }
  | key :: outerKeys => return { lexer with key, outerKeys, keyAllowed := false }

def flowEntry? (lexer : Lexer) : Option Lexer := do
  return { ((← lexer.dropKey?).push .flowEntry).skip 1 with keyAllowed := true }

/-- Start of an indicator that opens a block of its own where it stands deeper. Outside brackets it needs a
place where a block may start. -/
def openBlock? (lexer : Lexer) (start : Token) : Option Lexer :=
  if !lexer.inFlow && !lexer.keyAllowed then none
  else some (lexer.deepen lexer.cursor.mark.column (·.push start))

def blockEntry? (lexer : Lexer) : Option Lexer := do
  let lexer ← (← lexer.openBlock? .blockListStart).dropKey?
  return { (lexer.push .blockEntry).skip 1 with keyAllowed := true }

def key? (lexer : Lexer) : Option Lexer := do
  let lexer ← (← lexer.openBlock? .blockMappingStart).dropKey?
  return { (lexer.push .key).skip 1 with keyAllowed := !lexer.inFlow }

/-- A colon: the possible key was one, or there is a value of a key that was marked as such. -/
def value? (lexer : Lexer) : Option Lexer := do
  match lexer.key with
  | some key =>
    let lexer := lexer.insertAt key.token .key
    let lexer := lexer.deepen key.mark.column (·.insertAt key.token .blockMappingStart)
    return { (lexer.push .value).skip 1 with key := none, keyAllowed := false }
  | none =>
    let lexer ← lexer.openBlock? .blockMappingStart
    return { (lexer.push .value).skip 1 with keyAllowed := !lexer.inFlow }

/-! ## Scalars -/

def blockScalar? (lexer : Lexer) (folded : Bool) : Option Lexer := do
  let lexer ← lexer.dropKey?
  let scanned ← block? folded lexer.indent (lexer.cursor.skip 1)
  return { lexer.push (.scalar false scanned.text) with cursor := scanned.cursor, keyAllowed := true }

def quoted? (lexer : Lexer) (read : Mark → List Char → Option Scanned) : Option Lexer := do
  let lexer ← lexer.saveKey?
  let inside := lexer.cursor.skip 1
  let scanned ← read inside.mark inside.rest
  return { lexer.push (.scalar false scanned.text) with cursor := scanned.cursor, keyAllowed := false }

def plain? (lexer : Lexer) : Option Lexer := do
  let lexer ← lexer.saveKey?
  let scanned ← plainFrom? lexer.inFlow (lexer.indent + 1) [] {} lexer.cursor.mark lexer.cursor.rest
  return { lexer.push (.scalar true scanned.text) with cursor := scanned.cursor, keyAllowed := scanned.crossedLine }

/-- Whether a plain scalar may begin with a character before the given text. -/
def startsPlain (inFlow : Bool) (c : Char) (after : List Char) : Bool :=
  if c == '-' then !(after.head?.any isSpacing)
  else if c == '?' || c == ':' then !inFlow && !atGap after
  else !(isSpacing c || isBreak c || isFlowMark c || "#&*!|>'\"%@".toList.contains c || c.toNat == 0x60)

/-! ## All tokens -/

/-- Read the token at the cursor, which is not at the end of the text. -/
def token? (lexer : Lexer) : Option Lexer :=
  match lexer.cursor.rest with
  | [] => none
  | c :: cs =>
    let atLineStart := lexer.cursor.mark.column == 0
    let standsAlone := lexer.inFlow || atGap cs
    if atLineStart && c == '%' then lexer.directive?
    else if atLineStart && isDocumentMark (c :: cs) then
      lexer.documentMark? (if c == '-' then .documentStart else .documentEnd)
    else if c == '[' then lexer.openFlow? .flowListStart
    else if c == '{' then lexer.openFlow? .flowMappingStart
    else if c == ']' then lexer.closeFlow? .flowListEnd
    else if c == '}' then lexer.closeFlow? .flowMappingEnd
    else if c == ',' then lexer.flowEntry?
    else if c == '-' && atGap cs then lexer.blockEntry?
    else if c == '?' && standsAlone then lexer.key?
    else if c == ':' && standsAlone then lexer.value?
    else if c == '*' then lexer.named? .alias
    else if c == '&' then lexer.named? .anchor
    else if c == '!' then lexer.tag?
    else if c == '|' && !lexer.inFlow then lexer.blockScalar? false
    else if c == '>' && !lexer.inFlow then lexer.blockScalar? true
    else if c == '\'' then lexer.quoted? (singleFrom? [] {})
    else if c == '"' then lexer.quoted? (doubleFrom? 0 [] {})
    else if startsPlain lexer.inFlow c cs then lexer.plain?
    else none

/-- Read all tokens from a place up to the end of a text of the given size, where all blocks are closed. -/
def run? (size : Nat) (lexer : Lexer) : Option (List Token) :=
  match lexer.toNext? with
  | none => none
  | some lexer' =>
    if lexer'.cursor.rest.isEmpty then (lexer'.closeTo (-1)).dropKey?.map (·.tokens.reverse)
    else match lexer'.token? with
      | none => none
      | some next =>
        if lexer.cursor.mark.index < next.cursor.mark.index ∧
          next.cursor.mark.index ≤ size then run? size next else none
termination_by size - lexer.cursor.mark.index

end Lexer

def tokens? (text : String) : Option (List Token) := do
  let cs ← unifyBreaks? text.toList
  Lexer.run? cs.length { cursor := .ofText cs }

end ApexPaths.Yaml
