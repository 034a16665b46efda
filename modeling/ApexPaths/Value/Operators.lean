import ApexPaths.Value.Basic

/-!
Operators on known operands. An operation that cannot be computed has no result; the caller then knows
only the type. Integers wrap at 32 bits and longs at 64; division is toward zero, and fails where the
quotient is not a word.
-/

namespace ApexPaths
set_option autoImplicit false

/-! ## Signed words -/

/-- The integers of a signed word. -/
structure WordSize where
  modulus : Nat

namespace WordSize

def word32 : WordSize := ⟨4294967296⟩

def word64 : WordSize := ⟨18446744073709551616⟩

section
variable (size : WordSize)

def least : Int := -(size.modulus / 2 : Nat)

/-- Reduction to the word, as the low bits of two's complement. -/
def reduce (n : Int) : Int := Int.bmod n size.modulus

/-- Division and remainder fail for a divisor of zero and for the one quotient that is too large. -/
def divides (a b : Int) : Bool := b != 0 && !(a == size.least && b == -1)

def quotient? (a b : Int) : Option Int := if size.divides a b then some (Int.tdiv a b) else none

/-- The remainder with the sign of the dividend. -/
def remainder? (a b : Int) : Option Int := if size.divides a b then some (Int.tmod a b) else none

end

end WordSize

/-! ## Numbers -/

/-- A number as operators see it: the wider of two operands decides. -/
inductive Number where
  | integer (value : Int)
  | long (value : Int)
  | decimal (value : Float)
  deriving Repr

namespace Number

/-- The number in a value; an integer is reduced to its 32 bits. -/
def ofValue? (value : Value) : Option Number :=
  match value.content with
  | .literal (.integer n) => some (.integer (WordSize.word32.reduce n))
  | .literal (.long n) => some (.long n)
  | .literal (.decimal x) => some (.decimal x)
  | _ => none

def toDouble : Number → Float
  | .integer n | .long n => Float.ofInt n
  | .decimal x => x

def toValue : Number → Value
  | .integer n => .ofInt n
  | .long n => .ofLiteral (.long n)
  | .decimal x => .ofLiteral (.decimal x)

def one : Number → Number
  | .integer _ => .integer 1
  | .long _ => .long 1
  | .decimal _ => .decimal 1.0

end Number

namespace Operator

/-! ## Arithmetic -/

def wordArithmetic? (size : WordSize) (op : String) (a b : Int) : Option Int :=
  match op with
  | "+" => some (size.reduce (a + b))
  | "-" => some (size.reduce (a - b))
  | "*" => some (size.reduce (a * b))
  | "/" => size.quotient? a b
  | "%" => size.remainder? a b
  | _ => none

/-- An operation on floating numbers; nothing is divided by zero. -/
def doubleArithmetic? (op : String) (a b : Float) : Option Float :=
  match op with
  | "+" => some (a + b)
  | "-" => some (a - b)
  | "*" => some (a * b)
  | "/" => if b == 0.0 then none else some (a / b)
  | "%" => if b == 0.0 then none else some (Double.remainder a b)
  | _ => none

def arithmetic? (op : String) (left right : Number) : Option Number :=
  match left, right with
  | .integer a, .integer b => (wordArithmetic? .word32 op a b).map .integer
  | .integer a, .long b | .long a, .integer b | .long a, .long b => (wordArithmetic? .word64 op a b).map .long
  | left, right => (doubleArithmetic? op left.toDouble right.toDouble).map .decimal

/-- `+ - * / %`. Where one side is text, `+` joins the texts of both. -/
def binary? (op : String) (left right : Value) : Option Value :=
  if op = "+" ∧ (left.type = "String" ∨ right.type = "String") then do
    return .ofText ((← left.displayText?) ++ (← right.displayText?))
  else do
    return (← arithmetic? op (← Number.ofValue? left) (← Number.ofValue? right)).toValue

/-! ## Comparison -/

def numeric? : Literal → Option Float
  | .integer n | .long n => some (Float.ofInt n)
  | .decimal x => some x
  | _ => none

/-- Equality of literals. Text ignores case; `null` equals nothing else; other mixed kinds are undecided. -/
def literalEquals? (a b : Literal) : Option Bool :=
  match a, b with
  | .null, .null => some true
  | .null, _ | _, .null => some false
  | .text x, .text y => some (Text.eqIgnoringCase x y)
  | .constant x, .constant y => some (Text.eqIgnoringCase x y)
  | .boolean x, .boolean y => some (x == y)
  | .decimal _, _ | _, .decimal _ => do return (← numeric? a) == (← numeric? b)
  | .integer x, .integer y | .integer x, .long y | .long x, .integer y | .long x, .long y => some (x == y)
  | _, _ => none

/-- Equality of optional names up to case. -/
def sameName (a b : Option String) : Bool :=
  match a, b with
  | some a, some b => Text.eqIgnoringCase a b
  | none, none => true
  | _, _ => false

/-- Equality as `==` sees it. An object or a token is never null; two references are known to be equal only
if they are the same. -/
def equals? (left right : Value) : Option Bool :=
  match left.content, right.content with
  | .literal a, .literal b => literalEquals? a b
  | .literal .null, .reference _ | .literal .null, .schema _ => some false
  | .reference _, .literal .null | .schema _, .literal .null => some false
  | .reference a, .reference b => if a = b then some true else none
  | .schema a, .schema b =>
    if a.isResolved && b.isResolved then
      some (a.kind == b.kind && sameName a.object b.object && sameName a.field b.field)
    else none
  | _, _ => none

/-- The order of two literals: text in lower case by code points, numbers as floating numbers. -/
def order? (a b : Literal) : Option Ordering :=
  match a, b with
  | .text a, .text b => some (compare (Text.lower a) (Text.lower b))
  | a, b => do
    let x ← numeric? a
    let y ← numeric? b
    if x < y then some .lt else if y < x then some .gt else if x == y then some .eq else none

/-- Whether an order operator holds of two literals. -/
def ordered? (test : Ordering → Bool) (left right : Value) : Option Bool := do
  let left ← left.literal?
  let right ← right.literal?
  (order? left right).map test

/-- The truth of an equality or order operator. -/
def comparison? (op : String) (left right : Value) : Option Bool :=
  match op with
  | "==" | "===" => equals? left right
  | "!=" | "!==" => (equals? left right).map (!·)
  | "<" => ordered? Ordering.isLT left right
  | ">" => ordered? Ordering.isGT left right
  | "<=" => ordered? Ordering.isLE left right
  | ">=" => ordered? Ordering.isGE left right
  | _ => none

def compare? (op : String) (left right : Value) : Option Value := (comparison? op left right).map .ofBool

/-! ## Logic -/

/-- The result of `&&` or `||` if the left side decides it. -/
def shortCircuit? (op : String) (left : Value) : Option Value :=
  match op, left.bool? with
  | "&&", some false => some (.ofBool false)
  | "||", some true => some (.ofBool true)
  | _, _ => none

/-- `&&` and `||`. A right side that decides alone does so beside an unknown left side. -/
def logical? (op : String) (left right : Value) : Option Value :=
  match shortCircuit? op left with
  | some decided => some decided
  | none =>
    match op, left.bool?, right.bool? with
    | "&&", some _, some r | "||", some _, some r => some (.ofBool r)
    | "&&", none, some false => some (.ofBool false)
    | "||", none, some true => some (.ofBool true)
    | _, _, _ => none

/-! ## One operand -/

def unary? (op : String) (operand : Value) : Option Value :=
  match op with
  | "!" => operand.bool?.map fun b => .ofBool !b
  | "-" => do return (← arithmetic? "-" (.integer 0) (← Number.ofValue? operand)).toValue
  | "+" => (Number.ofValue? operand).map Number.toValue
  | _ => none

def step? (op : String) (operand : Value) : Option Value := do
  let sign ← match op with
    | "++" => some "+"
    | "--" => some "-"
    | _ => none
  let number ← Number.ofValue? operand
  return (← arithmetic? sign number number.one).toValue

end Operator

end ApexPaths
