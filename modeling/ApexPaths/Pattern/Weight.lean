import ApexPaths.Pattern.Basic

/-!
How much memory the byte-level machine of a pattern takes. Machines read the UTF-8 form of a text, once
forwards and once backwards, and a pattern is refused if one of its machines weighs too much. Sets of
characters are the heavy parts: their machines branch on the bytes of many sequences.
-/

namespace ApexPaths.Pattern
set_option autoImplicit false

/-! ## Sequences of byte ranges -/

/-- A sequence of byte ranges; it stands for all texts with one byte out of each. -/
abbrev ByteRanges := List (Nat × Nat)

def utf8 (n : Nat) : List Nat :=
  if n < 0x80 then [n]
  else if n < 0x800 then [0xC0 + n / 64, 0x80 + n % 64]
  else if n < 0x10000 then [0xE0 + n / 4096, 0x80 + n / 64 % 64, 0x80 + n % 64]
  else [0xF0 + n / 262144, 0x80 + n / 4096 % 64, 0x80 + n / 64 % 64, 0x80 + n % 64]

/-- The last code points that take one, two and three bytes. -/
def lengthEnds : List Nat := [0x7F, 0x7FF, 0xFFFF]

/-- A place to cut a range: where the number of bytes changes, else where a continuation byte would not run
through all its values. The cut is the last code point of the first part. -/
def cut? (first last : Nat) : Option Nat :=
  match lengthEnds.find? fun n => first ≤ n && n < last with
  | some n => some n
  | none =>
    if last < 0x80 then none
    else [64, 4096, 262144].findSome? fun block =>
      if first / block = last / block then none
      else if first % block ≠ 0 then some (first / block * block + (block - 1))
      else if last % block ≠ block - 1 then some (last / block * block - 1)
      else none

/-- The sequences of byte ranges for a range of code points, in rising order. The number bounds the cuts. -/
def sequencesWithin : Nat → Nat → Nat → List ByteRanges
  | 0, _, _ => []
  | n + 1, first, last =>
    match cut? first last with
    | some middle => sequencesWithin n first middle ++ sequencesWithin n (middle + 1) last
    | none => [(utf8 first).zip (utf8 last)]

/-- The sequences of byte ranges for the characters of a set, in rising order. -/
def CharSet.sequences (set : CharSet) : List ByteRanges := set.ranges.flatMap fun r => sequencesWithin 20 r.1 r.2

/-! ## Sets of characters -/

/-- The weight of a state without what it refers to. -/
def stateWeight : Nat := 32

/-- The weight of a range with its target. -/
def rangeWeight : Nat := 8

/-- The weight of a reference to a state. -/
def linkWeight : Nat := 4

/-- The sequences by their first ranges, each with what may follow it. -/
def branches : List ByteRanges → List ((Nat × Nat) × List ByteRanges)
  | [] => []
  | [] :: rest => branches rest
  | (head :: tail) :: rest =>
    match branches rest with
    | (next, tails) :: others =>
      if next = head then (head, tail :: tails) :: others else (head, [tail]) :: (next, tails) :: others
    | [] => [(head, [tail])]

/-- All that has to be told apart while reading one of the sequences: what is left of them after each
beginning. The number bounds the length of sequences. -/
def remainders : Nat → List ByteRanges → List (List ByteRanges)
  | 0, _ => []
  | n + 1, sequences => sequences :: (branches sequences).flatMap fun branch => remainders n branch.2

/-- The weight of a forward machine for a set: one state for each different remainder and one for the end. -/
def CharSet.forwardWeight (set : CharSet) : Nat :=
  let states := ((remainders 5 set.sequences).filter fun left => left.any (!·.isEmpty)).eraseDups
  states.foldl (fun n left => n + stateWeight + rangeWeight * (branches left).length) stateWeight

/-- The length of the common beginning of two sequences. -/
def commonLength : ByteRanges → ByteRanges → Nat
  | a :: as, b :: bs => if a = b then commonLength as bs + 1 else 0
  | _, _ => 0

/-- The number of different beginnings of sequences in rising order. -/
def beginnings (previous : ByteRanges) : List ByteRanges → Nat
  | [] => 0
  | sequence :: rest => sequence.length - commonLength previous sequence + beginnings sequence rest

/-- The weight of a backward machine for a set: a state for each different beginning, a choice between the
sequences and an end. -/
def CharSet.backwardWeight (set : CharSet) : Nat :=
  2 * stateWeight + linkWeight * set.sequences.length + stateWeight * beginnings [] set.sequences

/-- More than a machine for a set can weigh in either direction. -/
def CharSet.weightBound (set : CharSet) : Nat :=
  set.sequences.foldl (fun n sequence => n + (stateWeight + rangeWeight) * (sequence.length + 1)) (3 * stateWeight)

/-- The weight of a set, where `wide` weighs those that have characters beyond ASCII. -/
def CharSet.weight (wide : CharSet → Nat) (set : CharSet) : Nat :=
  match set.single? with
  | some c => stateWeight * (utf8 c.toNat).length
  | none => if set.isAscii then 2 * stateWeight + rangeWeight * set.ranges.length else wide set

/-! ## Choices between texts -/

/-- What is left of each text at one point, up to every point where a text ends. -/
def stretches (texts : List (List Nat)) : List (List (List Nat)) := (texts.splitBy fun a b => !a.isEmpty && !b.isEmpty)

/-- The weight of the machine that chooses between what is left of texts, more preferred ones first. Between
two ends of texts the next bytes decide. The number bounds the lengths. -/
def textsWeight : Nat → List (List Nat) → Nat
  | 0, _ => 0
  | n + 1, texts =>
    if texts.all List.isEmpty then 0
    else
      let texts := if texts.head?.any List.isEmpty then [] :: texts.dropWhile List.isEmpty else texts
      (stretches texts).foldl (fun weight stretch =>
        let heads := (stretch.filterMap List.head?).eraseDups
        let step := if heads.isEmpty then 0 else if heads.length = 1 then stateWeight else stateWeight + rangeWeight *
          heads.length
        let next := heads.foldl (fun weight head =>
          weight + textsWeight n ((stretch.filter (·.head? = some head)).map (·.drop 1))) 0
        weight + linkWeight + step + next) stateWeight

/-! ## Patterns -/

namespace Node

/-- The bytes of a node that matches a single text. -/
def bytes? (node : Node) : Option (List Nat) :=
  (node.parts.mapM fun (part : Node) => (part.set?.bind CharSet.single?).map fun c => utf8 c.toNat).map List.flatten

/-- How the parts of a machine are weighed: sets with characters beyond ASCII, both marks of a group, and
whether texts are read backwards. -/
structure Scale where
  wide : CharSet → Nat
  marks : Nat := 0
  backward : Bool := false

/-- The weight of a choice between single texts, if it is one. -/
def textChoice? (scale : Scale) (node : Node) : Option Nat := do
  let texts ← node.alternatives.mapM bytes?
  guard (texts.all (!·.isEmpty))
  let texts := if scale.backward then texts.map List.reverse else texts
  return stateWeight + textsWeight (texts.foldl (fun n text => max n text.length) 0 + 1) texts

/-- The weight of the machine for a node, which may be the rest of a choice. -/
def weight (scale : Scale) (isRest : Bool) : Node → Nat
  | .empty => stateWeight
  | .one set => set.weight scale.wide
  | .look _ => stateWeight
  | .group _ node => scale.marks + node.weight scale false
  | .seq a b => a.weight scale false + b.weight scale false
  | .choice a b =>
    match isRest, textChoice? scale (.choice a b) with
    | false, some weight => weight
    | _, _ =>
      let first := a.weight scale false + linkWeight
      match b with
      | .choice _ _ => first + b.weight scale true
      | _ => first + b.weight scale false + linkWeight + 2 * stateWeight
  | .repeated 0 (some 1) _ node => node.weight scale false + 2 * (stateWeight + linkWeight)
  | .repeated 0 none _ node =>
    let fork := stateWeight + 2 * linkWeight
    node.weight scale false + if node.consumes then fork else 2 * fork + stateWeight
  | .repeated least none _ node => least * node.weight scale false + stateWeight + 2 * linkWeight
  | .repeated least (some most) _ node =>
    if least = most then least * node.weight scale false
    else
      (if least = 0 then stateWeight else least * node.weight scale false)
        + stateWeight + (most - least) * (node.weight scale false + stateWeight + 2 * linkWeight)

end Node

namespace Regex

/-- The weight of what every machine has beside its pattern: skipping to the start of a match, and its end. -/
def frameWeight : Nat := 4 * stateWeight + rangeWeight + 2 * linkWeight

def weightLimit : Nat := 10485760

/-- Both machines of a node are light enough. -/
def fits (node : Node) : Bool :=
  let light (scale : Node.Scale) : Bool := (Node.group 0 node).weight scale false + frameWeight ≤ weightLimit
  let forward (wide : CharSet → Nat) : Node.Scale := { wide, marks := 2 * stateWeight }
  let backward (wide : CharSet → Nat) : Node.Scale := { wide, backward := true }
  let isLight (forwardWide backwardWide : CharSet → Nat) : Bool :=
    light (forward forwardWide) && light (backward backwardWide)
  isLight CharSet.weightBound CharSet.weightBound || isLight CharSet.forwardWeight CharSet.backwardWeight

end Regex

end ApexPaths.Pattern
