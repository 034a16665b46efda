import ApexPaths.Text.Integer
import ApexPaths.Yaml.Basic

/-!
Scalars of a marked-up text: plain ones, quoted ones and blocks of lines. In the first two, a line break
among the blanks between words is read as one blank, and further breaks are kept. Texts are collected
last character first.
-/

namespace ApexPaths.Yaml
set_option autoImplicit false

open Text

/-! ## Gaps -/

/-- The blanks and breaks since the last word, latest first. Once a break is met, blanks do not count. -/
structure Gap where
  spaces : List Char := []
  broken : Bool := false
  firstBreak : Option Char := none
  moreBreaks : List Char := []
  deriving DecidableEq, Repr, Inhabited

namespace Gap

def isEmpty (gap : Gap) : Bool := gap.spaces.isEmpty && !gap.broken

def push (gap : Gap) (c : Char) : Gap :=
  match isBreak c, gap.broken with
  | true, true => { gap with moreBreaks := c :: gap.moreBreaks }
  | true, false => { broken := true, firstBreak := some c }
  | false, true => gap
  | false, false => { gap with spaces := c :: gap.spaces }

/-- The words read so far with what the gap adds to them: a single newline becomes a blank. -/
def onto (gap : Gap) (read : List Char) : List Char :=
  if !gap.broken then gap.spaces ++ read
  else match gap.firstBreak with
    | some '\n' => if gap.moreBreaks.isEmpty then ' ' :: read else gap.moreBreaks ++ read
    | some c => gap.moreBreaks ++ c :: read
    | none => gap.moreBreaks ++ read

end Gap

/-- A scalar that was read, whether it was left behind a line break, and the place after it. -/
structure Scanned where
  text : String
  crossedLine : Bool := false
  cursor : Cursor
  deriving Repr, Inhabited

/-! ## Plain scalars -/

/-- Go on with a plain scalar. It ends at a colon before a gap, at a comment, at a mark of its surroundings,
and in a block at a line that is not indented far enough. -/
def plainFrom? (inFlow : Bool) (indent : Int) (read : List Char) (gap : Gap) (mark : Mark) : List Char → Option Scanned
  | [] => some ⟨String.ofList read.reverse, gap.broken, ⟨mark, []⟩⟩
  | c :: cs =>
    let stop : Option Scanned := some ⟨String.ofList read.reverse, gap.broken, ⟨mark, c :: cs⟩⟩
    if isSpacing c || isBreak c then
      if c == '\t' && gap.broken && mark.column < indent then none
      else plainFrom? inFlow indent read (gap.push c) (mark.after c) cs
    else if !gap.isEmpty &&
    ((!inFlow && mark.column < indent) || (mark.column == 0 && isDocumentMark (c :: cs)) || c == '#')
    then stop
    else if inFlow && c == ':' && (match cs with
        | d :: _ => d == '?' || isFlowMark d
        | [] => false)
    then none
    else if (c == ':' && atGap cs) || (inFlow && isFlowMark c) then stop
    else plainFrom? inFlow indent (c :: gap.onto read) {} (mark.across 1) cs

/-! ## Quoted scalars -/

/-- Go on with a scalar in single quotes, where two quotes stand for one. -/
def singleFrom? (read : List Char) (gap : Gap) (mark : Mark) : List Char → Option Scanned
  | [] => none
  | '\'' :: '\'' :: cs => singleFrom? ('\'' :: gap.onto read) {} (mark.across 2) cs
  | c :: cs =>
    if c == '\'' then some { text := String.ofList (gap.onto read).reverse, cursor := ⟨mark.across 1, cs⟩ }
    else if isSpacing c || isBreak c then singleFrom? read (gap.push c) (mark.after c) cs
    else if mark.column == 0 && isDocumentMark (c :: cs) then none
    else singleFrom? (c :: gap.onto read) {} (mark.across 1) cs

/-- The character of a one-letter escape. -/
def shortEscape? (c : Char) : Option Char :=
  match c with
  | '0' => some (Char.ofNat 0)
  | 'a' => some (Char.ofNat 7)
  | 'b' => some (Char.ofNat 8)
  | 't' => some '\t'
  | '\t' => some '\t'
  | 'n' => some '\n'
  | 'v' => some (Char.ofNat 11)
  | 'f' => some (Char.ofNat 12)
  | 'r' => some '\r'
  | 'e' => some (Char.ofNat 27)
  | ' ' => some ' '
  | '"' => some '"'
  | '/' => some '/'
  | '\\' => some '\\'
  | 'N' => some (Char.ofNat 0x85)
  | '_' => some (Char.ofNat 0xA0)
  | 'L' => some (Char.ofNat 0x2028)
  | 'P' => some (Char.ofNat 0x2029)
  | _ => none

/-- How many hexadecimal digits follow the letter of a long escape. -/
def escapeWidth? (c : Char) : Option Nat :=
  match c with
  | 'x' => some 2
  | 'u' => some 4
  | 'U' => some 8
  | _ => none

def charOfCode? (code : Nat) : Option Char :=
  if Nat.isValidChar code then some (Char.ofNat code) else none

/-- Go on with a scalar in double quotes. A backslash before a line break drops the break. The characters
of a long escape are skipped one by one, as counted by `pending`. -/
def doubleFrom? (pending : Nat) (read : List Char) (gap : Gap) (mark : Mark) : List Char → Option Scanned
  | [] => none
  | c :: cs =>
    match pending with
    | n + 1 => doubleFrom? n read gap (mark.across 1) cs
    | 0 =>
      if c == '"' then some { text := String.ofList (gap.onto read).reverse, cursor := ⟨mark.across 1, cs⟩ }
      else if isSpacing c || isBreak c then doubleFrom? 0 read (gap.push c) (mark.after c) cs
      else if mark.column == 0 && isDocumentMark (c :: cs) then none
      else if c == '\\' then
        match cs with
        | [] => none
        | e :: rest =>
          if isBreak e then doubleFrom? 0 (gap.onto read) { broken := true } (mark.across 1).down rest
          else match escapeWidth? e with
            | none => do doubleFrom? 0 ((← shortEscape? e) :: gap.onto read) {} (mark.across 2) rest
            | some width => do
              guard (width ≤ rest.length)
              let escaped ← charOfCode? (← digitsInBase? 16 (rest.take width))
              doubleFrom? width (escaped :: gap.onto read) {} (mark.across 2) rest
      else doubleFrom? 0 (c :: gap.onto read) {} (mark.across 1) cs

/-! ## Block scalars -/

/-- What becomes of the breaks at the end of a block. -/
inductive Chomping where
  | strip
  | clip
  | keep
  deriving DecidableEq, Repr, Inhabited

/-- The chomping and the indentation that the head of a block asks for, and how many characters say so. -/
def blockHead? : List Char → Option (Chomping × Option Nat × Nat)
  | [] => some (.clip, none, 0)
  | c :: cs =>
    match chomping? c with
    | some chomping =>
      match cs.head?.filter Char.isDigit with
      | some d => (increment? d).map fun n => (chomping, some n, 2)
      | none => some (chomping, none, 1)
    | none =>
      if !c.isDigit then some (.clip, none, 0)
      else (increment? c).map fun n =>
        match cs.head?.bind chomping? with
        | some chomping => (chomping, some n, 2)
        | none => (.clip, some n, 1)
where
  chomping? (c : Char) : Option Chomping :=
    if c == '+' then some .keep else if c == '-' then some .strip else none
  increment? (d : Char) : Option Nat := if d == '0' then none else some (d.toNat - '0'.toNat)

/-- The widest margin of the empty lines at the start of a block and of the line after them. A tab in
such a margin is refused. -/
def widestMargin? (column widest : Nat) : List Char → Option Nat
  | [] => some (max widest column)
  | c :: cs =>
    if c == ' ' then widestMargin? (column + 1) widest cs
    else if c == '\t' then none
    else if isBreak c then widestMargin? 0 (max widest column) cs
    else some (max widest column)

/-- The state inside a block: what was read, the break after the last line, the breaks after that one,
whether the last line began with a blank, and whether a line is being read. -/
structure BlockState where
  read : List Char := []
  firstBreak : List Char := []
  moreBreaks : List Char := []
  afterBlank : Bool := false
  inLine : Bool := false
  deriving Repr, Inhabited

namespace BlockState

/-- Start a line. In a folded block the break between two lines that begin with no blank becomes a blank,
and is dropped if other breaks follow it. -/
def startLine (state : BlockState) (folded : Bool) (c : Char) : BlockState :=
  let joined :=
    if folded && state.firstBreak == ['\n'] && !state.afterBlank && !isSpacing c then
      if state.moreBreaks.isEmpty then ' ' :: state.read else state.read
    else state.firstBreak ++ state.read
  { read := c :: (state.moreBreaks ++ joined), afterBlank := isSpacing c, inLine := true }

def text (state : BlockState) (chomping : Chomping) : String :=
  String.ofList <| List.reverse <| match chomping with
    | .strip => state.read
    | .clip => state.firstBreak ++ state.read
    | .keep => state.moreBreaks ++ state.firstBreak ++ state.read

end BlockState

/-- Go on with the lines of a block of a given indentation. -/
def blockLines? (folded : Bool) (indent : Nat) (state : BlockState) (mark : Mark) :
    List Char → Option (BlockState × Cursor)
  | [] => some (state, ⟨mark, []⟩)
  | c :: cs =>
    if state.inLine then
      if isBreak c then blockLines? folded indent { state with firstBreak := [c], inLine := false } mark.down cs
      else blockLines? folded indent { state with read := c :: state.read } (mark.across 1) cs
    else if c == ' ' && mark.column < indent then blockLines? folded indent state (mark.across 1) cs
    else if c == '\t' && mark.column < indent then none
    else if isBreak c then blockLines? folded indent { state with moreBreaks := c :: state.moreBreaks } mark.down cs
    else if mark.column == indent then blockLines? folded indent (state.startLine folded c) (mark.across 1) cs
    else some (state, ⟨mark, c :: cs⟩)

/-- The block whose head starts at the cursor, inside a block of indentation `parent`. -/
def block? (folded : Bool) (parent : Int) (cursor : Cursor) : Option Scanned := do
  let (chomping, increment, width) ← blockHead? cursor.rest
  let cursor ← (cursor.skip width).nextLine?
  let indent ← match increment with
    | some n => some (max parent 0 + n).toNat
    | none => do
      let widest ← widestMargin? cursor.mark.column 0 cursor.rest
      some (max (max widest (parent + 1).toNat) 1)
  let (state, cursor) ← blockLines? folded indent {} cursor.mark cursor.rest
  return { text := state.text chomping, cursor }

end ApexPaths.Yaml
