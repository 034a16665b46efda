import ApexPaths.Pattern.Property.Lookup

/-!
Patterns for text: characters, assertions about a place, groups, sequences, choices and repetitions. Of
several matches the leftmost counts, and among those the one that earlier choices prefer.
-/

namespace ApexPaths.Pattern
set_option autoImplicit false

/-! ## Common classes -/

/-- The class of a known name; an unknown one is empty. -/
def known (name : String) : CharSet := (Property.ofName? name.toList).getD .empty

def digits : CharSet := known "nd"

def blanks : CharSet := known "whitespace"

/-- Letters, marks, digits, connectors and the joiners. -/
def wordChars : CharSet := .unions (["alphabetic", "m", "nd", "pc", "joincontrol"].map known)

/-- A character of a word: any such character, or one in ASCII only. -/
def isWord (wide : Bool) (c : Char) : Bool :=
  if c.toNat < 0x80 then c.isAlphanum || c == '_' else wide && wordChars.contains c

/-! ## Assertions -/

/-- An assertion about the words around a place. -/
inductive WordLook where
  | edge
  | noEdge
  | start
  | stop
  /-- No word character before. -/
  | startHalf
  /-- No word character after. -/
  | stopHalf
  deriving DecidableEq, Repr

/-- An assertion about a place between characters. -/
inductive Look where
  | textStart
  | textEnd
  | lineStart
  | lineEnd
  /-- Starts and ends of lines where a carriage return may stand before a line feed or alone. -/
  | anyLineStart
  | anyLineEnd
  | word (look : WordLook) (wide : Bool)
  deriving DecidableEq, Repr

/-- The assertion holds where a word character is or is not before and after. -/
def WordLook.holds (look : WordLook) (before after : Bool) : Bool :=
  match look with
  | .edge => before != after
  | .noEdge => before == after
  | .start => !before && after
  | .stop => before && !after
  | .startHalf => !before
  | .stopHalf => !after

/-- The assertion holds between two optional characters. -/
def Look.holds (look : Look) (before after : Option Char) : Bool :=
  match look with
  | .textStart => before.isNone
  | .textEnd => after.isNone
  | .lineStart => before.all (· == '\n')
  | .lineEnd => after.all (· == '\n')
  | .anyLineStart => before.isNone || before == some '\n' || (before == some '\r' && after != some '\n')
  | .anyLineEnd => after.isNone || after == some '\r' || (after == some '\n' && before != some '\r')
  | .word look wide => look.holds (before.any (isWord wide)) (after.any (isWord wide))

/-! ## Nodes -/

inductive Node where
  | empty
  | one (set : CharSet)
  | look (look : Look)
  /-- A group whose text is remembered under a number. -/
  | group (index : Nat) (node : Node)
  | seq (a b : Node)
  /-- The first alternative is preferred. -/
  | choice (a b : Node)
  /-- Repetition; a greedy one prefers more rounds. -/
  | repeated (least : Nat) (most : Option Nat) (greedy : Bool) (node : Node)
  deriving DecidableEq, Repr, Inhabited

namespace Node

def consumes : Node → Bool
  | .empty | .look _ => false
  | .one set => !set.ranges.isEmpty
  | .group _ node => node.consumes
  | .seq a b => a.consumes || b.consumes
  | .choice a b => a.consumes && b.consumes
  | .repeated least _ _ node => least != 0 && node.consumes

/-- The node matches nothing but the empty text. -/
def isHollow : Node → Bool
  | .empty | .look _ => true
  | .one _ => false
  | .group _ node => node.isHollow
  | .seq a b => a.isHollow && b.isHollow
  | .choice a b => a.isHollow && b.isHollow
  | .repeated _ most _ node => most.isSome && node.isHollow

/-- Rounds of a node. One round of a node that reads nothing is as good as any number of them. -/
def rounds (least : Nat) (most : Option Nat) (greedy : Bool) (node : Node) : Node :=
  let (least, most) := if node.isHollow then (min least 1, some (min (most.getD 1) 1)) else (least, most)
  if most = some 0 then .empty
  else if least = 1 ∧ most = some 1 then node
  else .repeated least most greedy node

def sequence : List Node → Node
  | [] => .empty
  | [node] => node
  | .empty :: nodes => sequence nodes
  | node :: nodes =>
    match sequence nodes with
    | .empty => node
    | rest => .seq node rest

def parts : Node → List Node
  | .empty => []
  | .seq a b => a.parts ++ b.parts
  | node => [node]

/-- The alternatives of a choice, most preferred first. -/
def alternatives : Node → List Node
  | .choice a b => a.alternatives ++ b.alternatives
  | node => [node]

/-- A choice between nodes, most preferred first. -/
def choiceOf : List Node → Node
  | [] => .empty
  | [node] => node
  | node :: nodes => .choice node (choiceOf nodes)

def set? : Node → Option CharSet
  | .one set => some set
  | _ => none

def isLiteral (node : Node) : Bool := node.set?.any (·.single?.isSome)

/-- The parts of a sequence, neighbouring plain characters taken together. -/
def elements (node : Node) : List (List Node) := node.parts.splitBy fun a b => a.isLiteral && b.isLiteral

def commonStart {α : Type} [DecidableEq α] : List α → List α → List α
  | a :: as, b :: bs => if a = b then a :: commonStart as bs else []
  | _, _ => []

/-- What all nodes start with, if each of them is a sequence of several elements. -/
def sharedStart (nodes : List Node) : List (List Node) :=
  match nodes.map elements with
  | first :: rest => if (first :: rest).all (2 ≤ ·.length) then rest.foldl commonStart first else []
  | [] => []

/-- The union of nodes that are all plain characters, or all other sets. -/
def joinedSets? (nodes : List Node) : Option CharSet :=
  if nodes.all isLiteral || !nodes.any isLiteral then (nodes.mapM set?).map CharSet.unions else none

/-- A choice between nodes, most preferred first. Plain characters are joined to one set and so are sets, and
what all alternatives start with is taken out. The number bounds how often that happens. -/
def choicesWithin : Nat → List Node → Node
  | 0, nodes => choiceOf nodes
  | n + 1, nodes =>
    let nodes := nodes.flatMap alternatives
    match nodes, joinedSets? nodes, sharedStart nodes with
    | _ :: _ :: _, some set, _ => .one set
    | _ :: _ :: _, none, element :: start =>
      let shared := element :: start
      let rests := nodes.map fun node => sequence (node.elements.drop shared.length).flatten
      sequence ((shared.flatten ++ [choicesWithin n rests]).flatMap parts)
    | _, _, _ => choiceOf nodes

/-- A choice between nodes, most preferred first. -/
def choices (nodes : List Node) : Node := choicesWithin (nodes.foldl (fun n node => n + node.parts.length) 1) nodes

end Node

/-- A pattern with the names of its groups. -/
structure Regex where
  node : Node
  /-- The number of groups, the whole match included. -/
  groupCount : Nat
  names : List (String × Nat)
  deriving Inhabited

end ApexPaths.Pattern
