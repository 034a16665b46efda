/-!
Sets of characters as lists of code-point ranges in rising order, with the set operations of character
classes. No range touches the next one, and none holds a surrogate, so equal sets have equal lists.
-/

namespace ApexPaths.Pattern
set_option autoImplicit false

/-- A set of characters: the first and last code points of its ranges. -/
structure CharSet where
  ranges : List (Nat × Nat)
  deriving DecidableEq, Repr, Inhabited

namespace CharSet

/-! ## Ranges -/

def lastCode : Nat := 0x10FFFF

/-- The parts of a range before and after the surrogates. -/
def withoutSurrogates (range : Nat × Nat) : List (Nat × Nat) :=
  let (first, last) := range
  (if first < 0xD800 then [(first, min last 0xD7FF)] else [])
    ++ (if 0xDFFF < last then [(max first 0xE000, last)] else [])

/-- Ranges in rising order of their first code points, joined onto the current one where they overlap or touch it. -/
def joinOnto (current : Nat × Nat) : List (Nat × Nat) → List (Nat × Nat)
  | [] => [current]
  | range :: rest =>
    if range.1 ≤ current.2 + 1 then joinOnto (current.1, max current.2 range.2) rest
    else current :: joinOnto range rest

/-- Ranges in rising order of their first code points, joined where they overlap or touch. -/
def joined : List (Nat × Nat) → List (Nat × Nat)
  | [] => []
  | range :: rest => joinOnto range rest

/-- The ranges between given ones, from a code point on. -/
def gaps (start : Nat) : List (Nat × Nat) → List (Nat × Nat)
  | [] => if start ≤ lastCode then [(start, lastCode)] else []
  | (first, last) :: rest => if start < first then (start, first - 1) :: gaps (last + 1) rest else gaps (last + 1) rest

/-! ## Sets -/

def ofRanges (ranges : List (Nat × Nat)) : CharSet :=
  ⟨joined ((ranges.flatMap withoutSurrogates).mergeSort fun a b => a.1 ≤ b.1)⟩

def empty : CharSet := ⟨[]⟩

def one (c : Char) : CharSet := ⟨[(c.toNat, c.toNat)]⟩

def between (first last : Char) : CharSet := ofRanges [(first.toNat, last.toNat)]

def union (a b : CharSet) : CharSet := ofRanges (a.ranges ++ b.ranges)

def unions (sets : List CharSet) : CharSet := ofRanges (sets.flatMap (·.ranges))

def complement (a : CharSet) : CharSet := ⟨(gaps 0 a.ranges).flatMap withoutSurrogates⟩

def intersection (a b : CharSet) : CharSet := (a.complement.union b.complement).complement

def difference (a b : CharSet) : CharSet := (a.complement.union b).complement

def symmetricDifference (a b : CharSet) : CharSet := (a.union b).difference (a.intersection b)

/-! ## Membership -/

/-- Whether a code point lies in one of the ranges, which are in rising order. -/
def covers (n : Nat) : List (Nat × Nat) → Bool
  | [] => false
  | (first, last) :: rest => if n ≤ last then first ≤ n else covers n rest

def contains (set : CharSet) (c : Char) : Bool := covers c.toNat set.ranges

/-- Every character of the set is an ASCII character. -/
def isAscii (set : CharSet) : Bool := set.ranges.all (·.2 < 0x80)

/-- The only character of the set, if there is just one. -/
def single? (set : CharSet) : Option Char :=
  match set.ranges with
  | [(first, last)] => if first = last then some (Char.ofNat first) else none
  | _ => none

end CharSet

end ApexPaths.Pattern
