import ApexPaths.Text.Split

/-!
Reading integers: unsigned ones in any base up to sixteen, and signed decimal ones of 64 bits.
-/

namespace ApexPaths.Text

/-- The value of a list of ASCII digits, if it is one and is not empty. -/
def digits? (cs : List Char) : Option Nat :=
  if cs.isEmpty || !cs.all Char.isDigit then none
  else some (cs.foldl (fun n c => 10 * n + (c.toNat - '0'.toNat)) 0)

/-- The value of a digit; letters of either case go on after nine. -/
def digitValue? (c : Char) : Option Nat :=
  if c.isDigit then some (c.toNat - '0'.toNat)
  else if 'a' ≤ c ∧ c ≤ 'f' then some (c.toNat - 'a'.toNat + 10)
  else if 'A' ≤ c ∧ c ≤ 'F' then some (c.toNat - 'A'.toNat + 10)
  else none

/-- The value of digits in a base, if there are any and all are digits of it. -/
def digitsInBase? (base : Nat) (cs : List Char) : Option Nat :=
  if cs.isEmpty then none
  else cs.foldlM (fun n c => do
    let d ← digitValue? c
    if d < base then some (base * n + d) else none) 0

def minInt64 : Int := -9223372036854775808

def maxInt64 : Int := 9223372036854775807

/-- A number as a signed 64-bit integer, if it fits. -/
def inInt64? (n : Int) : Option Int := if minInt64 ≤ n ∧ n ≤ maxInt64 then some n else none

/-- A decimal integer with an optional sign, within 64 bits. -/
def int64? (s : String) : Option Int :=
  match s.toList with
  | '+' :: cs => (digits? cs).bind fun n => inInt64? n
  | '-' :: cs => (digits? cs).bind fun n => inInt64? (-n)
  | cs => (digits? cs).bind fun n => inInt64? n

end ApexPaths.Text
