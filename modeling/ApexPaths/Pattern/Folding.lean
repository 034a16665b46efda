import ApexPaths.Pattern.CharSet
import ApexPaths.Text.Case

/-!
Character sets where case does not count. Characters that differ in case only fold to the same character;
closing a set takes up every character that folds like one of its members.
-/

namespace ApexPaths.Pattern
set_option autoImplicit false
set_option maxRecDepth 4000

/-- How characters fold, one character to one, version 16 of the character database. -/
def foldRuns : List Text.CaseRun := Text.runsAfter 0 [
  65,25,1,32,91,0,1,775,11,22,1,32,2,6,1,32,34,46,2,1,4,4,2,1,3,14,2,1,3,44,2,1,2,0,1,-121,1,4,2,1,2,0,1,-268,2,0,1,
  210,1,2,2,1,2,0,1,206,1,0,1,1,2,1,1,205,1,0,1,1,3,0,1,79,1,0,1,202,1,0,1,203,1,0,1,1,2,0,1,205,1,0,1,207,2,0,1,211,
  1,0,1,209,1,0,1,1,4,0,1,211,1,0,1,213,2,0,1,214,1,4,2,1,2,0,1,218,1,0,1,1,2,0,1,218,3,0,1,1,2,0,1,218,1,0,1,1,2,1,1,
  217,1,2,2,1,2,0,1,219,1,0,1,1,4,0,1,1,8,0,1,2,1,0,1,1,2,0,1,2,1,0,1,1,2,0,1,2,1,16,2,1,3,16,2,1,3,0,1,2,1,2,2,1,2,0,
  1,-97,1,0,1,-56,1,38,2,1,2,0,1,-130,2,16,2,1,8,0,1,10795,1,0,1,1,2,0,1,-163,1,0,1,10792,3,0,1,1,2,0,1,-195,1,0,1,69,
  1,0,1,71,1,8,2,1,247,0,1,116,43,2,2,1,4,0,1,1,9,0,1,116,7,0,1,38,2,2,1,37,2,0,1,64,2,1,1,63,2,16,1,32,2,8,1,32,23,0,
  1,1,13,0,1,8,1,0,1,-30,1,0,1,-25,4,0,1,-15,1,0,1,-22,2,22,2,1,2,0,1,-54,1,0,1,-48,3,0,1,-60,1,0,1,-64,2,0,1,1,2,0,1,
  -7,1,0,1,1,3,2,1,-130,1,15,1,80,1,31,1,32,49,32,2,1,10,52,2,1,2,0,1,15,1,12,2,1,3,94,2,1,3,37,1,48,2890,37,1,7264,2,
  0,1,7264,6,0,1,7264,723,79,1,38864,1,5,1,8,2187,0,1,-6222,1,0,1,-6221,1,0,1,-6212,1,1,1,-6210,1,0,1,-6211,1,0,1,
  -6204,1,0,1,-6180,1,0,1,35267,1,0,1,1,7,42,1,-3008,3,2,1,-3008,321,148,2,1,7,0,1,-58,3,0,1,-7615,2,94,2,1,10,7,1,-8,
  9,5,1,-8,11,7,1,-8,9,7,1,-8,9,5,1,-8,12,6,2,-8,9,7,1,-8,25,7,1,-8,9,7,1,-8,9,7,1,-8,9,1,1,-8,1,1,1,-74,1,0,1,-9,2,0,
  1,-7173,10,3,1,-86,1,0,1,-9,7,0,1,-7235,5,1,1,-8,1,1,1,-100,8,0,1,-7219,5,1,1,-8,1,1,1,-112,1,0,1,-7,12,1,1,-128,1,
  1,1,-126,1,0,1,-9,298,0,1,-7517,4,0,1,-8383,1,0,1,-8262,7,0,1,28,46,15,1,16,20,0,1,1,819,25,1,26,1841,47,1,48,49,0,
  1,1,2,0,1,-10743,1,0,1,-3814,1,0,1,-10727,3,4,2,1,2,0,1,-10780,1,0,1,-10749,1,0,1,-10783,1,0,1,-10782,2,0,1,1,3,0,1,
  1,9,1,1,-10815,1,98,2,1,9,2,2,1,5,0,1,1,31054,44,2,1,20,26,2,1,136,12,2,1,4,60,2,1,11,2,2,1,2,0,1,-35332,1,8,2,1,5,
  0,1,1,2,0,1,-42280,3,2,2,1,4,18,2,1,2,0,1,-42308,1,0,1,-42319,1,0,1,-42315,1,0,1,-42305,1,0,1,-42308,2,0,1,-42258,1,
  0,1,-42282,1,0,1,-42261,1,0,1,928,1,14,2,1,2,0,1,-48,1,0,1,-42307,1,0,1,-35384,1,2,2,1,2,0,1,-42343,1,0,1,1,4,0,1,1,
  6,4,2,1,2,0,1,-42561,25,0,1,1,21265,0,1,-1,1051,25,1,32,1222,39,1,40,137,35,1,40,157,10,1,39,2,14,1,39,2,6,1,39,2,1,
  1,39,1771,50,1,64,158,21,1,32,2875,31,1,32,21889,31,1,32,31393,33,1,34]

/-- The code points of a run with what they fold to. -/
def foldPairs (run : Text.CaseRun) : List (Nat × Nat) :=
  (List.range ((run.last - run.first) / run.step + 1)).map fun i =>
    let n := run.first + run.step * i
    (n, (n + run.offset).toNat)

namespace CharSet

def ofCodes (codes : List Nat) : CharSet := ofRanges (codes.map fun n => (n, n))

/-- The set with every character that differs from a member in case only. -/
def anyCase (set : CharSet) : CharSet :=
  let pairs := foldRuns.flatMap foldPairs
  let folded := set.union (ofCodes (pairs.filterMap fun p => if covers p.1 set.ranges then some p.2 else none))
  folded.union (ofCodes (pairs.filterMap fun p => if covers p.2 folded.ranges then some p.1 else none))

/-- The set with the other case of its ASCII letters. -/
def anyAsciiCase (set : CharSet) : CharSet :=
  let letters := (List.range 26).filter fun i => covers (0x41 + i) set.ranges || covers (0x61 + i) set.ranges
  set.union (ofCodes (letters.flatMap fun i => [0x41 + i, 0x61 + i]))

end CharSet

end ApexPaths.Pattern
