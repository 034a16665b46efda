import ApexPaths.Pattern.Folding
import ApexPaths.Pattern.Weight

/-!
The reader of patterns. A text that is no pattern has none; references back and looks around are not
part of the language, and patterns that nest too deeply or weigh too much are refused. Every step reads at
least one character, so the length of the text bounds the steps.
-/

namespace ApexPaths.Pattern
set_option autoImplicit false

/-- The modes of a pattern. -/
structure Flags where
  ignoreCase : Bool := false
  multiLine : Bool := false
  dotAll : Bool := false
  swapGreed : Bool := false
  ignoreBlanks : Bool := false
  /-- Characters beyond ASCII have classes, words and case. -/
  wide : Bool := true
  anyLineEnd : Bool := false

structure ReaderState where
  rest : List Char
  /-- The number of groups so far, the whole match included. -/
  groups : Nat := 1
  names : List (String × Nat) := []

abbrev Reader := StateT ReaderState Option

/-- How deep the parts of a pattern may stand in one another. -/
def nestLimit : Nat := 250

/-- The height of a compound of parts; a single part is no compound. -/
def compoundHeight : List Nat → Nat
  | [] => 0
  | [height] => height
  | heights => heights.foldl max 0 + 1

namespace Reader

/-! ## Characters -/

def peek : Reader (Option Char) := return (← get).rest.head?

def skip : Reader Unit := modify fun state => { state with rest := state.rest.drop 1 }

/-- The next character; fails at the end. -/
def next : Reader Char := do
  match (← get).rest with
  | [] => failure
  | c :: rest =>
    modify fun state => { state with rest }
    return c

def expect (c : Char) : Reader Unit := do
  if (← next) != c then failure

def skipText (text : String) : Reader Bool := do
  let state ← get
  match Text.dropStart? text.toList state.rest with
  | some rest =>
    set { state with rest }
    return true
  | none => return false

def dropBlanks : Nat → List Char → List Char
  | 0, cs => cs
  | n + 1, cs =>
    match cs with
    | '#' :: rest => dropBlanks n (rest.dropWhile (· != '\n'))
    | c :: rest => if Text.isBlank c then dropBlanks n rest else cs
    | [] => []

/-- Skip blanks and comments where they do not count. -/
def skipBlanks (flags : Flags) : Reader Unit :=
  if flags.ignoreBlanks then modify fun state => { state with rest := dropBlanks (state.rest.length + 1) state.rest }
    else pure ()

/-- The next character, with what does not count after it skipped. -/
def nextThenBlanks (flags : Flags) : Reader Char := do
  let c ← next
  skipBlanks flags
  return c

/-- The characters while a test holds, without blanks and comments that do not count. The number bounds the
steps. -/
def collect (flags : Flags) (test : Char → Bool) : Nat → Reader (List Char)
  | 0 => return []
  | n + 1 => do
    match ← peek with
    | some c =>
      if test c then
        skip
        skipBlanks flags
        return c :: (← collect flags test n)
      else return []
    | none => return []

/-- The characters while a test holds, without blanks and comments that do not count. -/
def takeWhile (flags : Flags) (test : Char → Bool) : Reader (List Char) := do
  collect flags test ((← get).rest.length + 1)

/-- The text up to the closing brace, after the opening one. -/
def braced (flags : Flags) : Reader (List Char) := do
  expect '\x7b'
  skipBlanks flags
  let inside ← takeWhile flags (· != '\x7d')
  expect '\x7d'
  return inside

/-! ## Sets -/

/-- A set with all case variants where case does not count. -/
def withCase (flags : Flags) (set : CharSet) : CharSet :=
  if !flags.ignoreCase then set else if flags.wide then set.anyCase else set.anyAsciiCase

/-- The complement where asked for. Without wide characters it would hold bytes that are no text. -/
def negateIf (flags : Flags) (negated : Bool) (set : CharSet) : Reader CharSet :=
  if !negated then return set else if flags.wide then return set.complement else failure

/-! ## Escapes -/

/-- What one escape stands for. -/
inductive Escape where
  | char (c : Char)
  | set (set : CharSet)
  | look (look : Look)

def isMeta (c : Char) : Bool := "\\.+*?()|[]{}^$#&-~".toList.contains c

/-- ASCII characters that have no meaning of their own may be escaped. -/
def isEscapable (c : Char) : Bool := isMeta c || (c.toNat < 0x80 && !c.isAlphanum && c != '<' && c != '>')

def codePoint (digits : List Char) : Reader Char :=
  match Text.digitsInBase? 16 digits with
  | some n => if h : n.isValidChar then return Char.ofNatAux n h else failure
  | none => failure

/-- A fixed number of hexadecimal digits. -/
def hexDigits (flags : Flags) : Nat → Reader (List Char)
  | 0 => return []
  | n + 1 => do
    let c ← nextThenBlanks flags
    return c :: (← hexDigits flags n)

/-- A code point in hexadecimal: a fixed number of digits, or any number in braces. Two digits stand for a
byte, which has to be a character where wide characters do not count. -/
def hexEscape (flags : Flags) (width : Nat) : Reader Char := do
  skipBlanks flags
  if (← peek) == some '\x7b' then
    let c ← codePoint (← braced flags)
    skipBlanks flags
    return c
  else
    let c ← codePoint (← hexDigits flags width)
    if width = 2 ∧ !flags.wide ∧ 0x80 ≤ c.toNat then failure
    return c

/-- The property and its value in a text with a mark between them. -/
def propertyValue? (name : List Char) : Option (List Char × List Char) :=
  Text.cutAt? ['!', '='] name <|> Text.cutAt? [':'] name <|> Text.cutAt? ['='] name

section
variable (flags : Flags)

/-- A property of characters after the escape mark and its letter: one letter, or a name in braces. A mark
of inequality between property and value counts as one of equality. -/
def propertyEscape (negated : Bool) : Reader CharSet := do
  skipBlanks flags
  let found ← match ← peek with
    | some '\x7b' => do
      let name ← braced flags
      pure (match propertyValue? name with
        | some (property, value) => Property.ofValue? property value
        | none => Property.ofName? name)
    | _ => do
      let c ← next
      pure (if c = '\\' then none else Property.ofName? [c])
  match found with
  | some set => if flags.wide then negateIf flags negated (withCase flags set) else failure
  | none => failure

/-- A class by one letter; without wide characters it is its ASCII part. -/
def letterClass (letter : Char) : Reader CharSet :=
  let set := match letter.toLower with
    | 'd' => digits
    | 's' => blanks
    | _ => wordChars
  negateIf flags letter.isUpper (if flags.wide then set else set.intersection (.between '\x00' '\x7f'))

def wordLook (look : WordLook) : Escape := .look (.word look flags.wide)

/-- A word boundary, plain or of a named kind in braces. Braces that start with anything but a letter or a
dash are left for a repetition. -/
def boundary : Reader Escape := do
  let isNameChar (c : Char) : Bool := c.isAlpha || c == '-'
  let before ← get
  if (← peek) == some '\x7b' then
    skip
    skipBlanks flags
    if !(← peek).any isNameChar then
      set before
      return wordLook flags .edge
    let name ← takeWhile flags isNameChar
    expect '\x7d'
    match String.ofList name with
    | "start" => return wordLook flags .start
    | "end" => return wordLook flags .stop
    | "start-half" => return wordLook flags .startHalf
    | "end-half" => return wordLook flags .stopHalf
    | _ => failure
  else return wordLook flags .edge

def escape : Reader Escape := do
  let c ← next
  if c.isDigit then failure
  else if c == 'x' then return .char (← hexEscape flags 2)
  else if c == 'u' then return .char (← hexEscape flags 4)
  else if c == 'U' then return .char (← hexEscape flags 8)
  else if c == 'p' || c == 'P' then return .set (← propertyEscape flags (c == 'P'))
  else if "dswDSW".toList.contains c then return .set (← letterClass flags c)
  else if isEscapable c then return .char c
  else
    match c with
    | 'a' => return .char '\x07'
    | 'f' => return .char '\x0c'
    | 't' => return .char '\t'
    | 'n' => return .char '\n'
    | 'r' => return .char '\r'
    | 'v' => return .char '\x0b'
    | 'A' => return .look .textStart
    | 'z' => return .look .textEnd
    | 'b' => boundary flags
    | 'B' => return wordLook flags .noEdge
    | '<' => return wordLook flags .start
    | '>' => return wordLook flags .stop
    | _ => failure

end

/-! ## Character classes -/

/-- A part of a character class with its height. -/
structure ClassPart where
  set : CharSet
  height : Nat := 0

def ClassPart.union (parts : List ClassPart) : ClassPart :=
  ⟨.unions (parts.map (·.set)), compoundHeight (parts.map (·.height))⟩

def asciiClasses : List (String × List (Char × Char)) :=
  [("alnum", [('0', '9'), ('A', 'Z'), ('a', 'z')]), ("alpha", [('A', 'Z'), ('a', 'z')]), ("ascii", [('\x00', '\x7f')]),
   ("blank", [('\t', '\t'), (' ', ' ')]), ("cntrl", [('\x00', '\x1f'), ('\x7f', '\x7f')]), ("digit", [('0', '9')]),
   ("graph", [('!', '~')]), ("lower", [('a', 'z')]), ("print", [(' ', '~')]),
   ("punct", [('!', '/'), (':', '@'), ('[', '\x60'), ('\x7b', '~')]),
   ("space", [('\t', '\r'), (' ', ' ')]), ("upper", [('A', 'Z')]),
   ("word", [('0', '9'), ('A', 'Z'), ('_', '_'), ('a', 'z')]),
   ("xdigit", [('0', '9'), ('A', 'F'), ('a', 'f')])]

section
variable (flags : Flags)

/-- A named ASCII class between bracket and colon marks, if one stands here. -/
def asciiClass? : Reader (Option CharSet) := do
  let state ← get
  match Text.dropStart? ['[', ':'] state.rest with
  | none => return none
  | some rest =>
    let (negated, rest) := match rest with
      | '^' :: rest => (true, rest)
      | rest => (false, rest)
    let name := rest.takeWhile (· != ':')
    match Text.dropStart? [':', ']'] (rest.drop name.length), asciiClasses.find? (·.1 == String.ofList name) with
    | some rest, some (_, ranges) =>
      set { state with rest }
      let named := CharSet.unions (ranges.map fun r => .between r.1 r.2)
      return some (← negateIf flags negated (withCase flags named))
    | _, _ => return none

/-- One member of a class: a character or a set. -/
def classItem : Reader (Sum Char CharSet) := do
  match ← next with
  | '\\' =>
    match ← escape flags with
    | .char c => return .inl c
    | .set set => return .inr set
    | .look _ => failure
  | c => return .inl c

/-- The characters from one to another; without wide characters both have to be in ASCII. -/
def charRange (first last : Char) : Reader CharSet :=
  if last < first ∨ (!flags.wide ∧ 0x80 ≤ last.toNat) then failure else return .between first last

def itemSet : Sum Char CharSet → Reader CharSet
  | .inl c => charRange flags c c
  | .inr set => return set

/-- The character after the next one, where blanks and the mark of a comment are passed over; at the end,
whatever follows the next one. -/
def peekPastNext : Reader (Option Char) := do
  let rest := (← get).rest.drop 1
  if !flags.ignoreBlanks then return rest.head?
  let seen := match rest.dropWhile Text.isBlank with
    | '#' :: comment => comment.dropWhile Text.isBlank
    | seen => seen
  return seen.head? <|> rest.head?

def classRange : Reader CharSet := do
  let first ← classItem flags
  skipBlanks flags
  let after ← peekPastNext flags
  match ← peek with
  | none => failure
  | some '-' =>
    if after == some ']' || after == some '-' then itemSet flags first
    else
      skip
      skipBlanks flags
      match first, ← classItem flags with
      | .inl a, .inl b => charRange flags a b
      | _, _ => failure
  | some _ => itemSet flags first

end

/-- The operators between the parts of a class. -/
def classOperators : List (String × (CharSet → CharSet → CharSet)) :=
  [("&&", .intersection), ("--", .difference), ("~~", .symmetricDifference)]

/-- The operator that stands here, if one does. -/
def classOperator? : Reader (Option (CharSet → CharSet → CharSet)) :=
  classOperators.findSomeM? fun (text, op) => do return if ← skipText text then some op else none

/-- The plain marks at the start of a class: any number of dashes, or a closing bracket. -/
def classStart (flags : Flags) : Nat → Bool → Reader (List ClassPart)
  | 0, _ => return []
  | n + 1, isFirst => do
    match ← peek with
    | some '-' =>
      skip
      skipBlanks flags
      return ⟨.one '-', 0⟩ :: (← classStart flags n false)
    | some ']' =>
      if isFirst then
        skip
        skipBlanks flags
        return [⟨.one ']', 0⟩]
      else return []
    | _ => return []

/-- What stands before the last operator of a class, with the operator. -/
structure ClassOperand where
  op : CharSet → CharSet → CharSet
  left : ClassPart

/-- Apply the operator before the last part of a class, if there is one. -/
def ClassOperand.join (flags : Flags) (operand : Option ClassOperand) (right : ClassPart) : ClassPart :=
  match operand with
  | none => right
  | some ⟨op, left⟩ =>
    ⟨op (withCase flags left.set) (withCase flags right.set), max left.height right.height + 1⟩

/-- The inside of a class up to its closing bracket. `parts` are those after the last operator. The number
bounds the steps and `depth` the brackets. -/
def classBody (flags : Flags) : Nat → Nat → Option ClassOperand → List ClassPart → Reader ClassPart
  | 0, _, _, _ => failure
  | n + 1, depth, operand, parts => do
    let add (part : ClassPart) : Reader ClassPart := classBody flags n depth operand (part :: parts)
    skipBlanks flags
    match ← peek with
    | none => failure
    | some ']' =>
      skip
      return ClassOperand.join flags operand (.union parts)
    | some '[' =>
      match ← asciiClass? flags with
      | some set => add ⟨set, 0⟩
      | none => match depth with
        | 0 => failure
        | depth + 1 => add (← nested n depth)
    | some _ =>
      match ← classOperator? with
      | some op => classBody flags n depth (some ⟨op, ClassOperand.join flags operand (.union parts)⟩) []
      | none => add ⟨← classRange flags, 0⟩
where
  /-- A class from its opening bracket on. -/
  nested (n depth : Nat) : Reader ClassPart := do
    expect '['
    skipBlanks flags
    let negated ← skipText "^"
    if negated then skipBlanks flags
    let start ← classStart flags ((← get).rest.length + 1) true
    let body ← classBody flags n depth none start
    return ⟨← negateIf flags negated (withCase flags body.set), body.height + 1⟩

/-- A class from its opening bracket on. -/
def charClass (flags : Flags) : Reader ClassPart := do
  classBody.nested flags ((← get).rest.length + 1) nestLimit

/-! ## Repetition -/

/-- An item of a sequence with its height. A change of flags is an item without a node. -/
structure Item where
  node : Option Node
  height : Nat := 0

/-- The repetition of the last item; there has to be one. -/
def repeatLast (items : List Item) (least : Nat) (most : Option Nat) (greedy : Bool) : Reader (List Item) :=
  match items with
  | ⟨some node, height⟩ :: rest => return ⟨some (.rounds least most greedy node), height + 1⟩ :: rest
  | _ => failure

/-- A question mark after a repetition turns its preference round. -/
def greed (flags : Flags) : Reader Bool := do
  let lazily ← skipText "?"
  return lazily == flags.swapGreed

/-- A decimal count within 32 bits, blanks around it. -/
def count (flags : Flags) : Reader (Option Nat) := do
  let _ ← takeWhile {} Text.isBlank
  let digits ← takeWhile flags Char.isDigit
  let _ ← takeWhile flags Text.isBlank
  match Text.digits? digits with
  | some n => if n < 4294967296 then return some n else failure
  | none => return none

/-- The counts in braces, after the opening one. -/
def counts (flags : Flags) : Reader (Nat × Option Nat) := do
  skipBlanks flags
  let least ← count flags
  let range ← if ← skipText "," then do
      skipBlanks flags
      if (← peek) == some '\x7d' then pure (least.map (·, none)) else do
        let most ← count flags
        pure (do return (← least, some (← most)))
    else pure (least.map fun n => (n, some n))
  expect '\x7d'
  match range with
  | some (least, some most) => if most < least then failure else return (least, some most)
  | some (least, none) => return (least, none)
  | none => failure

/-! ## Groups -/

/-- The flags between the marks of a group, up to its colon or end, and whether there were any. -/
def flagList : Nat → Flags → Bool → List Char → Reader (Flags × Bool)
  | 0, _, _, _ => failure
  | n + 1, flags, on, seen => do
    match ← peek with
    | none => failure
    | some c =>
      if c == ':' || c == ')' then
        if seen.head? == some '-' then failure else return (flags, !seen.isEmpty)
      else if seen.contains c then failure
      else
        skip
        let flags ← match c with
          | '-' => pure flags
          | 'i' => pure { flags with ignoreCase := on }
          | 'm' => pure { flags with multiLine := on }
          | 's' => pure { flags with dotAll := on }
          | 'U' => pure { flags with swapGreed := on }
          | 'u' => pure { flags with wide := on }
          | 'R' => pure { flags with anyLineEnd := on }
          | 'x' => pure { flags with ignoreBlanks := on }
          | _ => failure
        flagList n flags (on && c != '-') (c :: seen)

/-- A group name up to its closing angle bracket: new, not empty, of letters, digits and a few marks. -/
def groupName : Reader String := do
  let name ← takeWhile {} (· != '>')
  expect '>'
  let start (c : Char) : Bool := c == '_' || Text.isLetter c
  let later (c : Char) : Bool := start c || Text.isNumeric c || c == '.' || c == '[' || c == ']'
  match name with
  | [] => failure
  | first :: rest =>
    let name := String.ofList name
    if start first && rest.all later && !(← get).names.any (·.1 == name) then return name else failure

def newGroup (name : Option String) : Reader Nat := do
  let state ← get
  let index := state.groups
  set { state with groups := index + 1, names := state.names ++ (name.map (·, index)).toList }
  return index

/-- The mark of a named group, unless it is one of a look around. -/
def namedGroup? : Reader Bool := do
  if ← skipText "?P<" then return true
  let rest := (← get).rest
  if (Text.dropStart? "?<=".toList rest).isSome || (Text.dropStart? "?<!".toList rest).isSome then return false
  skipText "?<"

/-! ## Whole patterns -/

/-- Any character, but for the ends of lines unless they count. -/
def dot (flags : Flags) : Reader CharSet :=
  if !flags.wide then failure
  else if flags.dotAll then return CharSet.empty.complement
  else if flags.anyLineEnd then return ((CharSet.one '\n').union (.one '\r')).complement
  else return (CharSet.one '\n').complement

def startMark (flags : Flags) : Look :=
  if !flags.multiLine then .textStart else if flags.anyLineEnd then .anyLineStart else .lineStart

def endMark (flags : Flags) : Look :=
  if !flags.multiLine then .textEnd else if flags.anyLineEnd then .anyLineEnd else .lineEnd

def literal (flags : Flags) (c : Char) : Node := .one (withCase flags (.one c))

/-- The sequence of items, the last of which comes first. -/
def sequenceOf (items : List Item) : Node × Nat :=
  (Node.sequence (items.reverse.filterMap (·.node)), compoundHeight (items.map (·.height)))

/-- A choice up to the end of its group or of the text, with its height. `items` are those of the open
alternative, the last one first; `done` are the finished alternatives. The first number bounds the steps and
the second one the groups in one another. -/
def alternatives : Nat → Nat → Flags → List Item → List (Node × Nat) → Reader (Node × Nat)
  | 0, _, _, _, _ => failure
  | n + 1, depth, flags, items, done => do
    skipBlanks flags
    let push (node : Node) (height : Nat) : Reader (Node × Nat) :=
      alternatives n depth flags (⟨some node, height⟩ :: items) done
    let again (least : Nat) (most : Option Nat) (greedy : Bool) : Reader (Node × Nat) := do
      alternatives n depth flags (← repeatLast items least most greedy) done
    let inner (flags : Flags) : Reader (Node × Nat) := do
      match depth with
      | 0 => failure
      | depth + 1 =>
        let (node, height) ← alternatives n depth flags [] []
        expect ')'
        return (node, height + 1)
    match ← peek with
    | none | some ')' =>
      let all := (sequenceOf items :: done).reverse
      return (Node.choices (all.map (·.1)), compoundHeight (all.map (·.2)))
    | some '[' =>
      let part ← charClass flags
      push (.one part.set) part.height
    | some c =>
      skip
      match c with
      | '|' => alternatives n depth flags [] (sequenceOf items :: done)
      | '*' => again 0 none (← greed flags)
      | '+' => again 1 none (← greed flags)
      | '?' => again 0 (some 1) (← greed flags)
      | '\x7b' =>
        let (least, most) ← counts flags
        skipBlanks flags
        again least most (← greed flags)
      | '(' =>
        skipBlanks flags
        if ← namedGroup? then
          let index ← newGroup (some (← groupName))
          let (node, height) ← inner flags
          push (.group index node) height
        else if ← skipText "?" then
          let (changed, isChange) ← flagList 20 flags true []
          match ← next with
          | ':' =>
            let (node, height) ← inner changed
            push node height
          | _ => if isChange then alternatives n depth changed (⟨none, 0⟩ :: items) done else failure
        else
          let index ← newGroup none
          let (node, height) ← inner flags
          push (.group index node) height
      | '.' => push (.one (← dot flags)) 0
      | '^' => push (.look (startMark flags)) 0
      | '$' => push (.look (endMark flags)) 0
      | '\\' =>
        match ← escape flags with
        | .char c => push (literal flags c) 0
        | .set set => push (.one set) 0
        | .look look => push (.look look) 0
      | c => push (literal flags c) 0

end Reader

def Regex.ofText? (text : String) : Option Regex := do
  let cs := text.toList
  let ((node, height), state) ← (Reader.alternatives (cs.length + 2) nestLimit {} [] []).run { rest := cs }
  if state.rest.isEmpty && height ≤ nestLimit && Regex.fits node then some ⟨node, state.groups, state.names⟩ else none

end ApexPaths.Pattern
