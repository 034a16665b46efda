import ApexPaths.Pattern.Basic
import Std.Data.HashSet

/-!
Patterns as machines: numbered states that read a character, test a place, remember a position or
branch. A machine tries its branches in order of preference; a state that failed at a place is not tried
there again, so the work is bounded by states times places.
-/

namespace ApexPaths.Pattern
set_option autoImplicit false

inductive State where
  | read (set : CharSet) (next : Nat)
  | look (look : Look) (next : Nat)
  /-- Remember the position in a slot. -/
  | save (slot next : Nat)
  | branch (first second : Nat)
  | done
  deriving Inhabited

abbrev Machine := Array State

/-! ## Construction -/

namespace Machine

/-- Add a state; its number comes with the machine. -/
def add (machine : Machine) (state : State) : Nat × Machine := (machine.size, machine.push state)

/-- A branch that prefers the body of a repetition or what follows it. -/
def fork (greedy : Bool) (body next : Nat) : State := if greedy then .branch body next else .branch next body

/-- A loop state to which the body returns, and the start of the body. -/
def loop (greedy : Bool) (body : Nat → Machine → Nat × Machine) (next : Nat) (machine : Machine) :
    Nat × Nat × Machine :=
  let (again, machine) := machine.add .done
  let (start, machine) := body again machine
  (again, start, machine.setIfInBounds again (fork greedy start next))

/-- Some copies of a body one after the other. -/
def copies (body : Nat → Machine → Nat × Machine) : Nat → Nat → Machine → Nat × Machine
  | 0, next, machine => (next, machine)
  | n + 1, next, machine =>
    let (start, machine) := body next machine
    copies body n start machine

/-- Further optional copies of a body before those that start at `next`. A copy may be left out together
with those after it. -/
def optionalCopies (greedy : Bool) (body : Nat → Machine → Nat × Machine) (exit : Nat) :
    Nat → Nat → Machine → Nat × Machine
  | 0, next, machine => (next, machine)
  | n + 1, next, machine =>
    let (start, machine) := body next machine
    let (next, machine) := machine.add (fork greedy start exit)
    optionalCopies greedy body exit n next machine

/-- The start of a machine for a node that goes on to the next state. -/
def compile : Node → Nat → Machine → Nat × Machine
  | .empty, next, machine => (next, machine)
  | .one set, next, machine => machine.add (.read set next)
  | .look look, next, machine => machine.add (.look look next)
  | .group index node, next, machine =>
    let (close, machine) := machine.add (.save (2 * index + 1) next)
    let (start, machine) := compile node close machine
    machine.add (.save (2 * index) start)
  | .seq a b, next, machine =>
    let (start, machine) := compile b next machine
    compile a start machine
  | .choice a b, next, machine =>
    let (second, machine) := compile b next machine
    let (first, machine) := compile a next machine
    machine.add (.branch first second)
  | .repeated least none greedy node, next, machine =>
    let (again, start, machine) := loop greedy (compile node) next machine
    if least = 0 then
      if node.consumes then (again, machine) else machine.add (fork greedy start next)
    else copies (compile node) (least - 1) start machine
  | .repeated least (some most) greedy node, next, machine =>
    let (start, machine) := optionalCopies greedy (compile node) next (most - least) next machine
    copies (compile node) least start machine

end Machine

/-- The start state and the machine of a pattern; the whole match is group 0. -/
def Regex.machine (regex : Regex) : Nat × Machine :=
  let (done, machine) := Machine.add #[] .done
  Machine.compile (.group 0 regex.node) done machine

/-! ## Running -/

abbrev Slots := Array (Option Nat)

/-- A state to try at a place with what is remembered so far. -/
structure Attempt where
  state : Nat
  place : Nat
  slots : Slots

/-- Make attempts, the preferred one first, until one of them ends in a match. `seen` holds the states that
were tried, with their places; the number bounds the steps. -/
def Machine.run (machine : Machine) (text : Array Char) :
    Nat → List Attempt → Std.HashSet Nat → Option Slots × Std.HashSet Nat
  | 0, _, seen => (none, seen)
  | _, [], seen => (none, seen)
  | n + 1, ⟨state, place, slots⟩ :: rest, seen =>
    let key := state * (text.size + 1) + place
    if seen.contains key then machine.run text n rest seen
    else
      let seen := seen.insert key
      match machine[state]? with
      | some (.read set next) =>
        if text[place]?.any set.contains then machine.run text n (⟨next, place + 1, slots⟩ :: rest) seen
        else machine.run text n rest seen
      | some (.look look next) =>
        let before := if place = 0 then none else text[place - 1]?
        if look.holds before text[place]? then machine.run text n (⟨next, place, slots⟩ :: rest) seen
        else machine.run text n rest seen
      | some (.save slot next) => machine.run text n (⟨next, place, slots.setIfInBounds slot (some place)⟩ :: rest) seen
      | some (.branch first second) => machine.run text n (⟨first, place, slots⟩ :: ⟨second, place, slots⟩ :: rest) seen
      | some .done => (some slots, seen)
      | none => machine.run text n rest seen

/-- A match: the positions of its groups. -/
structure Match where
  slots : Slots

namespace Match

/-- Where a group starts and ends, if it took part. -/
def span? (found : Match) (group : Nat) : Option (Nat × Nat) := do
  return (← found.slots[2 * group]?.join, ← found.slots[2 * group + 1]?.join)

def start (found : Match) : Nat := ((found.span? 0).map (·.1)).getD 0

def stop (found : Match) : Nat := ((found.span? 0).map (·.2)).getD 0

end Match

/-- A pattern made ready for searching. -/
structure Searcher where
  regex : Regex
  start : Nat
  machine : Machine

def Regex.searcher (regex : Regex) : Searcher :=
  let (start, machine) := regex.machine
  { regex, start, machine }

namespace Searcher

/-- The leftmost match from a place on, trying at most the given number of places. A state that failed at a
place fails there for every start. -/
def searchWithin (searcher : Searcher) (text : Array Char) : Nat → Nat → Std.HashSet Nat → Option Match
  | 0, _, _ => none
  | n + 1, place, seen =>
    if text.size < place then none
    else
      let steps := 2 * searcher.machine.size * (text.size + 1) + 2
      let slots := Array.replicate (2 * searcher.regex.groupCount) none
      match searcher.machine.run text steps [⟨searcher.start, place, slots⟩] seen with
      | (some slots, _) => some ⟨slots⟩
      | (none, seen) => searcher.searchWithin text n (place + 1) seen

def search (searcher : Searcher) (text : Array Char) (place : Nat) : Option Match :=
  searcher.searchWithin text (text.size + 1) place ∅

/-- All matches from a place on, left to right without overlap. An empty match right after the last match
does not count. -/
def searchAllWithin (searcher : Searcher) (text : Array Char) : Nat → Nat → Option Nat → List Match
  | 0, _, _ => []
  | n + 1, place, last =>
    match searcher.search text place with
    | none => []
    | some found =>
      if found.start = found.stop ∧ last = some found.stop then searcher.searchAllWithin text n (found.stop + 1) last
      else found :: searcher.searchAllWithin text n found.stop (some found.stop)

/-- All matches, left to right without overlap. -/
def searchAll (searcher : Searcher) (text : Array Char) : List Match :=
  searcher.searchAllWithin text (2 * text.size + 3) 0 none

end Searcher

end ApexPaths.Pattern
