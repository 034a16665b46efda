/-!
The parts of a 64-bit floating number: its sign and its magnitude as a natural number times a power of two, and the text
that it has. The remainder of two numbers is exact and computed on these parts.
-/

namespace ApexPaths.Double
set_option autoImplicit false

/-- A finite magnitude: `mantissa * 2 ^ exponent`. -/
structure Magnitude where
  mantissa : Nat
  exponent : Int
  deriving DecidableEq, Repr, Inhabited

/-- The kinds of floating numbers, each but the last with its sign. -/
inductive Parts where
  | finite (negative : Bool) (magnitude : Magnitude)
  | infinite (negative : Bool)
  | notANumber
  deriving DecidableEq, Repr, Inhabited

/-- The least mantissa of full width, `2 ^ 52`. -/
def fullMantissa : Nat := 4503599627370496

def signBit : Nat := 9223372036854775808

def leastExponent : Int := -1074

def parts (x : Float) : Parts :=
  let bits : Nat := x.toBits.toNat
  let negative := bits / signBit == 1
  let exponent : Nat := bits / fullMantissa % 2048
  let fraction := bits % fullMantissa
  if exponent = 2047 then if fraction = 0 then .infinite negative else .notANumber
  else if exponent = 0 then .finite negative ⟨fraction, leastExponent⟩
  else .finite negative ⟨fraction + fullMantissa, (exponent : Int) - 1075⟩

/-- The floating number of a magnitude of at most 53 bits whose exponent is not below the least one. -/
def ofExact (negative : Bool) (magnitude : Magnitude) : Float :=
  let (mantissa, exponent) := normalize 53 magnitude.mantissa magnitude.exponent
  let bits := if mantissa < fullMantissa then mantissa else (exponent + 1075).toNat * fullMantissa +
    (mantissa - fullMantissa)
  Float.ofBits (UInt64.ofNat ((if negative then signBit else 0) + bits))
where
  /-- Shift the mantissa up to its full width as far as the least exponent allows. -/
  normalize : Nat → Nat → Int → Nat × Int
    | 0, mantissa, exponent => (mantissa, exponent)
    | n + 1, mantissa, exponent =>
      if mantissa < fullMantissa ∧ leastExponent < exponent then normalize n (2 * mantissa) (exponent - 1)
      else (mantissa, exponent)

/-- The magnitude as a natural number of units `2 ^ exponent`, for an exponent that is not larger. -/
def Magnitude.units (magnitude : Magnitude) (exponent : Int) : Nat :=
  magnitude.mantissa <<< (magnitude.exponent - exponent).toNat

def notANumber : Float := 0.0 / 0.0

/-- The exact remainder of the quotient toward zero; it has the sign of the dividend. -/
def remainder (x y : Float) : Float :=
  match parts x, parts y with
  | .finite negative a, .finite _ b =>
    if b.mantissa = 0 then notANumber
    else
      let exponent := min a.exponent b.exponent
      let rest := a.units exponent % b.units exponent
      if rest = 0 then ofExact negative ⟨0, leastExponent⟩
      else reduced negative rest exponent
  | .finite _ _, .infinite _ => x
  | _, _ => notANumber
where
  /-- A remainder has at most 53 bits above the lower exponent of its operands; halve it until it shows. -/
  reduced (negative : Bool) (rest : Nat) (exponent : Int) : Float :=
    let shift := (rest.log2 + 1) - 53
    ofExact negative ⟨rest >>> shift, exponent + shift⟩

/-!
## The shortest text

The fewest digits that read back as the same number, written without an exponent. Of several such digits the
nearest to the number are taken, and the upper of two equally near ones. A number stands for all reals that round
to it; the ends of that interval belong to it when the mantissa is even.
-/

/-- A positive rational. -/
structure Ratio where
  num : Nat
  den : Nat

namespace Ratio

def scaled (n : Nat) (e : Int) : Ratio := if 0 ≤ e then ⟨n <<< e.toNat, 1⟩ else ⟨n, 1 <<< (-e).toNat⟩

def le (a b : Ratio) : Bool := a.num * b.den ≤ b.num * a.den

def lt (a b : Ratio) : Bool := a.num * b.den < b.num * a.den

def tenTo (e : Int) : Ratio := if 0 ≤ e then ⟨Nat.pow 10 e.toNat, 1⟩ else ⟨1, Nat.pow 10 (-e).toNat⟩

def mul (a b : Ratio) : Ratio := ⟨a.num * b.num, a.den * b.den⟩

/-- The largest integer that is not above the quotient. -/
def floorDiv (a b : Ratio) : Nat := a.num * b.den / (a.den * b.num)

end Ratio

/-- The reals that round to a number, with the number itself. -/
structure Interval where
  low : Ratio
  value : Ratio
  high : Ratio
  closed : Bool

/-- The interval of a nonzero magnitude. The gap below a power of two is half as wide as the gap above. -/
def Magnitude.interval (magnitude : Magnitude) : Interval where
  low :=
    if magnitude.mantissa = fullMantissa ∧ leastExponent < magnitude.exponent then
      Ratio.scaled (4 * magnitude.mantissa - 1) (magnitude.exponent - 2)
    else Ratio.scaled (2 * magnitude.mantissa - 1) (magnitude.exponent - 1)
  value := Ratio.scaled magnitude.mantissa magnitude.exponent
  high := Ratio.scaled (2 * magnitude.mantissa + 1) (magnitude.exponent - 1)
  closed := magnitude.mantissa % 2 == 0

def Interval.contains (interval : Interval) (x : Ratio) : Bool :=
  if interval.closed then interval.low.le x && x.le interval.high else interval.low.lt x && x.lt interval.high

/-- The exponent of the leading decimal digit: raise a low guess while the next power is not above. -/
def leadingExponent (x : Ratio) : Nat → Int → Int
  | 0, guess => guess
  | n + 1, guess => if (Ratio.tenTo (guess + 1)).le x then leadingExponent x n (guess + 1) else guess

/-- A low guess of the exponent of the leading decimal digit. -/
def Magnitude.leadingGuess (magnitude : Magnitude) : Int :=
  ((magnitude.mantissa.log2 : Int) + magnitude.exponent) * 30103 / 100000 - 2

/-- The multiple of a power of ten in the interval that is nearest to the value, if there is one; the
upper of two equally near ones. -/
def Interval.nearestMultiple? (interval : Interval) (exponent : Int) : Option Nat :=
  let step := Ratio.tenTo exponent
  let below := interval.value.floorDiv step
  let multiple (n : Nat) : Ratio := step.mul ⟨n, 1⟩
  let hasBelow := interval.contains (multiple below)
  let hasAbove := interval.contains (multiple (below + 1))
  let middle := step.mul ⟨2 * below + 1, 2⟩
  if hasBelow && hasAbove then some (if interval.value.lt middle then below else below + 1)
  else if hasBelow then some below
  else if hasAbove then some (below + 1)
  else none

/-- The fewest digits in the interval, as an integer and a power of ten, trying up to the given number of
further digits. -/
def Interval.shortest (interval : Interval) : Nat → Int → Nat × Int
  | 0, exponent => (interval.value.floorDiv (Ratio.tenTo exponent), exponent)
  | n + 1, exponent =>
    match interval.nearestMultiple? exponent with
    | some digits => (digits, exponent)
    | none => interval.shortest n (exponent - 1)

/-- The shortest decimal of a nonzero magnitude, as an integer and a power of ten. -/
def Magnitude.shortest (magnitude : Magnitude) : Nat × Int :=
  let interval := magnitude.interval
  let leading := leadingExponent interval.value 6 magnitude.leadingGuess
  interval.shortest 17 leading

/-- An integer times a power of ten without an exponent and without zeros at the end of a fraction. -/
def positional (digits : Nat) (exponent : Int) : List Char :=
  let ds := Nat.toDigits 10 digits
  if 0 ≤ exponent then ds ++ List.replicate exponent.toNat '0'
  else
    let places := (-exponent).toNat
    let padded := List.replicate (places + 1 - ds.length) '0' ++ ds
    let whole := padded.take (padded.length - places)
    let fraction := ((padded.drop (padded.length - places)).reverse.dropWhile (· == '0')).reverse
    if fraction.isEmpty then whole else whole ++ '.' :: fraction

def text (x : Float) : String :=
  match parts x with
  | .notANumber => "NaN"
  | .infinite negative => if negative then "-inf" else "inf"
  | .finite negative magnitude =>
    let digits := if magnitude.mantissa = 0 then ['0'] else
      let (digits, exponent) := magnitude.shortest
      positional digits exponent
    String.ofList (if negative then '-' :: digits else digits)

end ApexPaths.Double
