import ApexPaths.Text.Integer

/-!
Reading a floating number from text: digits with an optional point, sign and exponent, or the words for
infinity and for no number in any case. The result is the nearest floating number.
-/

namespace ApexPaths.Double
set_option autoImplicit false

open Text

def exponent? : List Char → Option Int
  | '+' :: cs => (digits? cs).map Int.ofNat
  | '-' :: cs => (digits? cs).map fun n => -(n : Int)
  | cs => (digits? cs).map Int.ofNat

/-- The nearest floating number to an integer times a power of ten. Far outside the range of floating
numbers nothing has to be multiplied out. -/
def ofDecimal (digits : Nat) (exponent : Int) : Float :=
  let width : Int := (Nat.toDigits 10 digits).length
  if digits = 0 then 0.0
  else if width + exponent > 400 then 1.0 / 0.0
  else if width + exponent < -400 then 0.0
  else if 0 ≤ exponent then Float.ofScientific digits false exponent.toNat
  else Float.ofScientific digits true (-exponent).toNat

def unsigned? (cs : List Char) : Option Float :=
  let word := String.ofList (cs.map Char.toLower)
  if word = "inf" ∨ word = "infinity" then some (1.0 / 0.0)
  else if word = "nan" then some (0.0 / 0.0)
  else do
    let isMark (c : Char) : Bool := c == 'e' || c == 'E'
    let number := cs.takeWhile (!isMark ·)
    let exponent ← match cs.dropWhile (!isMark ·) with
      | [] => some 0
      | _ :: rest => exponent? rest
    let whole := number.takeWhile (· != '.')
    let fraction := (number.dropWhile (· != '.')).drop 1
    let digits ← digits? (whole ++ fraction)
    return ofDecimal digits (exponent - fraction.length)

/-- The nearest floating number to a decimal. -/
def read? (s : String) : Option Float :=
  match s.toList with
  | '+' :: cs => unsigned? cs
  | '-' :: cs => (unsigned? cs).map (-·)
  | cs => unsigned? cs

end ApexPaths.Double
