import ApexPaths.Proofs.Number.Rounding
import ApexPaths.Proofs.Text.Case

/-!
Arithmetic on integers and longs. Both are words in two's complement: sums, differences and products are those of
the integers, cut to the low bits of the wider operand; quotients are toward zero, remainders have the sign of the
dividend, and both fail only for a divisor of zero and for the one quotient that is no word. Steps and signs are
sums and differences.

Comparison of texts and of whole numbers. Equality sees whole numbers as they are and texts up to ASCII case; order
sees the nearest floating numbers, and texts in lower case. What is equal is the same to order, so no two of less,
equal and greater hold at once, and less is transitive. But some unequal literals are the same to order, and of
them none of the three holds.
-/

namespace ApexPaths
set_option autoImplicit false

open Operator

/-! ## Words -/

/-- The kinds of whole numbers. -/
inductive Rank where
  | integer
  | long

namespace Rank

def bits : Rank → Nat
  | .integer => 32
  | .long => 64

/-- The low bits of an integer, read in two's complement. -/
def wrap (rank : Rank) (n : Int) : Int := (BitVec.ofInt rank.bits n).toInt

/-- The least number of a rank. -/
def least : Rank → Int
  | .integer => -2147483648
  | .long => -9223372036854775808

/-- The kind of a result: a long if an operand is one. -/
def wider : Rank → Rank → Rank
  | .integer, .integer => .integer
  | _, _ => .long

def literal : Rank → Int → Literal
  | .integer => .integer
  | .long => .long

def number : Rank → Int → Number
  | .integer => .integer
  | .long => .long

def value (rank : Rank) (n : Int) : Value := .ofLiteral (rank.literal n)

def size : Rank → WordSize
  | .integer => .word32
  | .long => .word64

def Fits (rank : Rank) (n : Int) : Prop := rank.least ≤ n ∧ n < -rank.least

variable {rank : Rank}

theorem reduce_size (n : Int) : rank.size.reduce n = rank.wrap n := by
  rw [wrap, BitVec.toInt_ofInt]
  cases rank <;> rfl

theorem fits_wrap (n : Int) : rank.Fits (rank.wrap n) := by
  rw [← reduce_size]
  cases rank
  · have hlow := @Int.le_bmod n 4294967296 (by decide)
    have hhigh := @Int.bmod_lt n 4294967296 (by decide)
    exact ⟨hlow, hhigh⟩
  · have hlow := @Int.le_bmod n 18446744073709551616 (by decide)
    have hhigh := @Int.bmod_lt n 18446744073709551616 (by decide)
    exact ⟨hlow, hhigh⟩

theorem wrap_eq_self {n : Int} (h : rank.Fits n) : rank.wrap n = n := by
  obtain ⟨hlow, hhigh⟩ := h
  rw [← reduce_size]
  cases rank <;> exact Int.bmod_eq_of_le hlow hhigh

theorem fits_wider {left right : Rank} {n : Int} (h : left.Fits n) : (left.wider right).Fits n := by
  cases left <;> cases right <;> simp only [Fits, wider, least] at h ⊢ <;> omega

theorem wrap_wrap_mul_add (x y z : Int) : rank.wrap (rank.wrap (x * y) + z) = rank.wrap (x * y + z) := by
  rw [← reduce_size, ← reduce_size, ← reduce_size]
  exact Int.bmod_add_bmod

theorem fits_tdiv {x y : Int} (hx : rank.Fits x) (hleast : ¬(x = rank.least ∧ y = -1)) : rank.Fits (x.tdiv y) := by
  obtain ⟨hlow, hhigh⟩ := hx
  have hsize := Int.natAbs_tdiv_le_natAbs x y
  suffices hne : x.tdiv y ≠ -rank.least by
    exact ⟨by omega, by omega⟩
  intro heq
  -- Only the least word has this size, and only a divisor of size one keeps it.
  have hx : x = rank.least := by omega
  subst hx
  have hsame : rank.least.natAbs / y.natAbs = rank.least.natAbs := by
    have habs := congrArg Int.natAbs heq
    rwa [Int.natAbs_tdiv, Int.natAbs_neg] at habs
  have hpos : 0 < rank.least.natAbs := by cases rank <;> decide
  have hone : y.natAbs = 1 := by
    rcases Nat.lt_trichotomy y.natAbs 1 with hzero | hone | hmany
    · rw [Nat.lt_one_iff.mp hzero, Nat.div_zero] at hsame
      omega
    · exact hone
    · exact absurd hsame (Nat.ne_of_lt (Nat.div_lt_self hpos hmany))
  obtain rfl | rfl : y = 1 ∨ y = -1 := by omega
  · rw [Int.tdiv_one] at heq
    cases rank <;> simp [least] at heq
  · exact hleast ⟨rfl, rfl⟩

theorem fits_tmod {x y : Int} (hx : rank.Fits x) : rank.Fits (x.tmod y) := by
  obtain ⟨hlow, hhigh⟩ := hx
  have hsize : (x.tmod y).natAbs ≤ x.natAbs := by
    rw [Int.natAbs_tmod]
    exact Nat.mod_le _ _
  rcases Int.le_total 0 x with hx | hx
  · have hsign := Int.tmod_nonneg y hx
    exact ⟨by omega, by omega⟩
  · have hsign := Int.tmod_nonneg y (Int.neg_nonneg_of_nonpos hx)
    rw [Int.neg_tmod] at hsign
    exact ⟨by omega, by omega⟩

end Rank

/-! ## Operands -/

/-- A whole number in a literal: 64 bits, of which arithmetic sees only the low ones in an integer. -/
structure Operand where
  rank : Rank
  payload : Int64

namespace Operand

def literal (operand : Operand) : Literal := operand.rank.literal operand.payload.toInt

/-- The number that an operand counts as, in the word of its rank. -/
def word (operand : Operand) : Int := operand.rank.wrap operand.payload.toInt

theorem fits_word (operand : Operand) : operand.rank.Fits operand.word := Rank.fits_wrap _

end Operand

namespace Value

/-- The value is a literal of the operand. Its type is not that of texts, which `+` would join. -/
structure Carries (value : Value) (operand : Operand) : Prop where
  content : value.content = .literal operand.literal
  type_ne : value.type ≠ "String"

theorem Carries.number {value : Value} {operand : Operand} (h : value.Carries operand) :
    Number.ofValue? value = some (operand.rank.number operand.word) := by
  obtain ⟨rank, payload⟩ := operand
  rw [Number.ofValue?, h.content]
  cases rank with
  | integer => exact congrArg (some ∘ Number.integer) (@Rank.reduce_size .integer _)
  | long =>
    have hfits : Rank.long.Fits payload.toInt := ⟨payload.le_toInt, payload.toInt_lt⟩
    exact congrArg (some ∘ Number.long) (Rank.wrap_eq_self hfits).symm

theorem type_value (rank : Rank) (n : Int) : (rank.value n).type ≠ "String" := by
  cases rank
  · exact show TypeName.canonical "Integer" ≠ "String" by decide +kernel
  · exact show TypeName.canonical "Long" ≠ "String" by decide +kernel

theorem carries_literal (operand : Operand) : (operand.rank.value operand.payload.toInt).Carries operand :=
  ⟨rfl, type_value _ _⟩

theorem number_value {rank : Rank} {n : Int} (h : rank.Fits n) :
    Number.ofValue? (rank.value n) = some (rank.number n) := by
  cases rank with
  | integer => exact congrArg (some ∘ Number.integer) ((@Rank.reduce_size .integer n).trans (Rank.wrap_eq_self h))
  | long => rfl

end Value

namespace Operator

/-! ## Operations on numbers -/

theorem arithmetic?_number (op : String) (left right : Rank) (x y : Int) :
    arithmetic? op (left.number x) (right.number y) =
      (wordArithmetic? (left.wider right).size op x y).map (left.wider right).number := by
  cases left <;> cases right <;> rfl

theorem toValue_number (rank : Rank) (n : Int) : (rank.number n).toValue = rank.value n := by
  cases rank <;> rfl

theorem map_toValue (result : Option Number) : (result.bind fun n => some n.toValue) = result.map Number.toValue :=
  Option.map_eq_bind.symm

theorem binary?_of_number (op : String) {left right : Value} {r s : Rank} {x y : Int} (hleft : left.type ≠ "String")
    (hright : right.type ≠ "String") (hx : Number.ofValue? left = some (r.number x))
    (hy : Number.ofValue? right = some (s.number y)) :
    binary? op left right = (wordArithmetic? (r.wider s).size op x y).map (r.wider s).value := by
  have hjoins : ¬(op = "+" ∧ (left.type = "String" ∨ right.type = "String")) := fun h => h.2.elim hleft hright
  have hvalue : Number.toValue ∘ (r.wider s).number = (r.wider s).value := funext (toValue_number _)
  rw [binary?, if_neg hjoins, hx, hy, ← hvalue, ← Option.map_map, ← arithmetic?_number]
  exact map_toValue _

theorem divides_eq_false_iff {rank : Rank} {x y : Int} :
    rank.size.divides x y = false ↔ y = 0 ∨ x = rank.least ∧ y = -1 := by
  have hleast : rank.size.least = rank.least := by cases rank <;> rfl
  rw [WordSize.divides, hleast]
  by_cases hy : y = 0 <;> simp [hy]

section
variable {rank : Rank} {x y : Int} {value : Value}

theorem of_quotient (h : (wordArithmetic? rank.size "/" x y).map rank.value = some value) :
    rank.size.divides x y = true ∧ value = rank.value (x.tdiv y) := by
  rw [wordArithmetic?, WordSize.quotient?] at h
  split at h
  · exact ⟨‹_›, (Option.some.inj h).symm⟩
  · cases h

theorem of_remainder (h : (wordArithmetic? rank.size "%" x y).map rank.value = some value) :
    value = rank.value (x.tmod y) := by
  rw [wordArithmetic?, WordSize.remainder?] at h
  split at h
  · exact (Option.some.inj h).symm
  · cases h

theorem undivided_iff {op : String} (hop : op ∈ ["/", "%"]) :
    wordArithmetic? rank.size op x y = none ↔ y = 0 ∨ x = rank.least ∧ y = -1 := by
  rw [← divides_eq_false_iff]
  rcases List.mem_cons.mp hop with rfl | hop
  · rw [wordArithmetic?, WordSize.quotient?]
    split <;> simp [*]
  · rw [List.mem_singleton.mp hop, wordArithmetic?, WordSize.remainder?]
    split <;> simp [*]

theorem quotient_mul_add_remainder {s : Rank} (hx : rank.Fits x) (hdivides : rank.size.divides x y = true)
    (hwider : rank.wider s = rank) (htype : value.type ≠ "String") (hy : Number.ofValue? value = some (s.number y)) :
    ∃ p, binary? "*" (rank.value (x.tdiv y)) value = some p ∧ binary? "+" p (rank.value (x.tmod y)) =
    some (rank.value x) := by
  have hleast : ¬(x = rank.least ∧ y = -1) := fun h => by
    rw [divides_eq_false_iff.mpr (.inr h)] at hdivides
    cases hdivides
  have hself : rank.wider rank = rank := by cases rank <;> rfl
  have hproduct := binary?_of_number "*" (Value.type_value _ _) htype (Value.number_value (Rank.fits_tdiv hx hleast)) hy
  have hsum := binary?_of_number "+" (Value.type_value rank _) (Value.type_value rank _)
    (Value.number_value (Rank.fits_wrap (x.tdiv y * y))) (Value.number_value (Rank.fits_tmod (y := y) hx))
  refine ⟨rank.value (rank.wrap (x.tdiv y * y)), ?_, ?_⟩
  · rw [hproduct, hwider, ← Rank.reduce_size]
    rfl
  · rw [hsum, hself, wordArithmetic?, Option.map_some, Rank.reduce_size, Rank.wrap_wrap_mul_add, Int.tdiv_mul_add_tmod,
      Rank.wrap_eq_self hx]

end

/-- Arithmetic of two values whose numbers are `x` and `y`, in the words of a kind. -/
structure FoldsExactly (rank : Rank) (x y : Int) (left right : Value) : Prop where
  sum : binary? "+" left right = some (rank.value (rank.wrap (x + y)))
  difference : binary? "-" left right = some (rank.value (rank.wrap (x - y)))
  product : binary? "*" left right = some (rank.value (rank.wrap (x * y)))
  undivided : ∀ op ∈ ["/", "%"], binary? op left right = none ↔ y = 0 ∨ x = rank.least ∧ y = -1
  quotient : ∀ value ∈ binary? "/" left right, value = rank.value (x.tdiv y)
  remainder : ∀ value ∈ binary? "%" left right, value = rank.value (x.tmod y)
  /-- The quotient times the divisor and the remainder make the dividend. -/
  recovered : ∀ q ∈ binary? "/" left right, ∀ r ∈ binary? "%" left right,
    ∃ p, binary? "*" q right = some p ∧ binary? "+" p r = some (rank.value x)

/-- Steps and the sign before an operand are sums and differences. -/
structure StepsExactly (rank : Rank) (operand : Value) : Prop where
  increment : step? "++" operand = binary? "+" operand (rank.value 1)
  decrement : step? "--" operand = binary? "-" operand (rank.value 1)
  negation : unary? "-" operand = binary? "-" (rank.value 0) operand

section
variable {left right : Value} {a b : Operand} (hleft : left.Carries a) (hright : right.Carries b)
include hleft

/-- A step counts in the words of its operand. -/
theorem stepsExactly : StepsExactly a.rank left := by
  have hself : ∀ (rank : Rank), rank.wider rank = rank := fun rank => by cases rank <;> rfl
  have hone : Number.ofValue? (a.rank.value 1) = some (a.rank.number 1) :=
    Value.number_value (by cases a.rank <;> simp [Rank.Fits, Rank.least])
  have hzero : Number.ofValue? (a.rank.value 0) = some (a.rank.number 0) :=
    Value.number_value (by cases a.rank <;> simp [Rank.Fits, Rank.least])
  have hstep : ∀ sign, (arithmetic? sign (a.rank.number a.word) (a.rank.number a.word).one).map Number.toValue =
      binary? sign left (a.rank.value 1) := by
    intro sign
    have hunit : (a.rank.number a.word).one = a.rank.number 1 := by cases a.rank <;> rfl
    have hvalue : Number.toValue ∘ a.rank.number = a.rank.value := funext (toValue_number _)
    rw [binary?_of_number _ hleft.type_ne (Value.type_value _ _) hleft.number hone, hunit, arithmetic?_number,
      Option.map_map, hself, hvalue]
  have hsign : (arithmetic? "-" (.integer 0) (a.rank.number a.word)).map Number.toValue =
      binary? "-" (a.rank.value 0) left := by
    rw [binary?_of_number _ (Value.type_value _ _) hleft.type_ne hzero hleft.number]
    cases a.rank <;> rfl
  refine ⟨?_, ?_, ?_⟩
  · rw [← hstep, step?, hleft.number]
    exact map_toValue _
  · rw [← hstep, step?, hleft.number]
    exact map_toValue _
  · rw [← hsign, unary?, hleft.number]
    exact map_toValue _

include hright

/-- A fold counts in the words of the wider operand. -/
theorem foldsExactly : FoldsExactly (a.rank.wider b.rank) a.word b.word left right := by
  have hx : (a.rank.wider b.rank).Fits a.word := Rank.fits_wider a.fits_word
  have hfold : ∀ op, binary? op left right =
      (wordArithmetic? (a.rank.wider b.rank).size op a.word b.word).map (a.rank.wider b.rank).value := fun op =>
    binary?_of_number op hleft.type_ne hright.type_ne hleft.number hright.number
  have hagain : (a.rank.wider b.rank).wider b.rank = a.rank.wider b.rank := by cases a.rank <;> cases b.rank <;> rfl
  generalize a.rank.wider b.rank = rank at *
  refine ⟨?_, ?_, ?_, fun op hop => ?_, fun q hq => ?_, fun r hr => ?_, fun q hq r hr => ?_⟩
  · rw [hfold, ← Rank.reduce_size]
    rfl
  · rw [hfold, ← Rank.reduce_size]
    rfl
  · rw [hfold, ← Rank.reduce_size]
    rfl
  · rw [hfold, Option.map_eq_none_iff, undivided_iff hop]
  · exact (of_quotient ((hfold "/").symm.trans hq)).2
  · exact of_remainder ((hfold "%").symm.trans hr)
  · obtain ⟨hdivides, rfl⟩ := of_quotient ((hfold "/").symm.trans hq)
    obtain rfl := of_remainder ((hfold "%").symm.trans hr)
    exact quotient_mul_add_remainder hx hdivides hagain hright.type_ne hright.number

end

/-- Integers and longs are folded in two's complement, in the wider of their words. -/
theorem folds_whole_numbers {left right : Value} {a b : Operand} (hleft : left.Carries a) (hright : right.Carries b) :
    FoldsExactly (a.rank.wider b.rank) a.word b.word left right ∧ StepsExactly a.rank left :=
  ⟨foldsExactly hleft hright, stepsExactly hleft⟩

/-- An integer whose literal does not fit into its 32 bits. -/
def overfull : Operand := ⟨.integer, 6442450951⟩

def minusTwo : Operand := ⟨.long, -2⟩

/-- A number beyond its word is cut to the word before it is divided. -/
theorem overfull_folds : (overfull.rank.value overfull.payload.toInt).Carries overfull ∧
    (minusTwo.rank.value minusTwo.payload.toInt).Carries minusTwo ∧ overfull.word = -2147483641 ∧
    FoldsExactly .long (-2147483641) (-2) (.ofLiteral (.integer 6442450951)) (.ofLiteral (.long (-2))) ∧
    StepsExactly .integer (.ofLiteral (.integer 6442450951)) := by
  have hleft := Value.carries_literal overfull
  have hright := Value.carries_literal minusTwo
  exact ⟨hleft, hright, by decide, folds_whole_numbers hleft hright⟩

end Operator

/-! ## Literals with an order -/

/-- A literal that is ordered among its like. -/
inductive Comparand where
  | text (s : String)
  | whole (operand : Operand)

namespace Comparand

def literal : Comparand → Literal
  | .text s => .text s
  | .whole operand => operand.literal

/-- Both are texts, or both are whole numbers. -/
inductive Alike : Comparand → Comparand → Prop where
  | text (s t : String) : Alike (.text s) (.text t)
  | whole (a b : Operand) : Alike (.whole a) (.whole b)

/-- Comparands are the same, texts in any case. -/
def same : Comparand → Comparand → Bool
  | .text s, .text t => Text.eqIgnoringCase s t
  | .whole a, .whole b => a.payload.toInt == b.payload.toInt
  | _, _ => false

/-- The order of comparands: of texts in any case, and of numbers as floats. -/
def order : Comparand → Comparand → Ordering
  | .text s, .text t => compare (Text.lower s) (Text.lower t)
  | .whole a, .whole b => compare (Double.nearest a.payload.toInt) (Double.nearest b.payload.toInt)
  | _, _ => .eq

/-- Coming before the other: as text in lower case, or as an integer. -/
def Precedes : Comparand → Comparand → Prop
  | .text s, .text t => Text.lower s < Text.lower t
  | .whole a, .whole b => a.payload.toInt < b.payload.toInt
  | _, _ => False

/-- Unequal, but with one lower case, or with one nearest floating number. -/
def Confused : Comparand → Comparand → Prop
  | .text s, .text t => Text.eqIgnoringCase s t = false ∧ Text.lower s = Text.lower t
  | .whole a, .whole b =>
    a.payload.toInt ≠ b.payload.toInt ∧ Double.nearest a.payload.toInt = Double.nearest b.payload.toInt
  | _, _ => False

variable {a b c : Comparand}

theorem Alike.trans (h : a.Alike b) (h' : b.Alike c) : a.Alike c := by
  cases h with
  | text s t =>
    cases h' with
    | text t u => exact .text s u
  | whole x y =>
    cases h' with
    | whole y z => exact .whole x z

section
variable (h : a.Alike b)
include h

theorem order_of_same (hsame : a.same b = true) : a.order b = .eq := by
  cases h with
  | text s t => exact Std.LawfulEqOrd.compare_eq_iff_eq.mpr (Text.lower_eq_of_eqIgnoringCase hsame)
  | whole x y => exact Int.compare_eq_eq.mpr (congrArg Double.nearest (beq_iff_eq.mp hsame))

theorem confused_iff : a.Confused b ↔ a.same b = false ∧ a.order b = .eq := by
  cases h with
  | text s t => exact and_congr_right' Std.LawfulEqOrd.compare_eq_iff_eq.symm
  | whole x y => exact and_congr beq_eq_false_iff_ne.symm Int.compare_eq_eq.symm

theorem order_eq_lt_iff : a.order b = .lt ↔ a.Precedes b ∧ ¬a.Confused b := by
  cases h with
  | text s t =>
    refine compare_lt_iff_lt.trans ⟨fun hlt => ⟨hlt, fun hconfused => hlt.ne hconfused.2⟩, And.left⟩
  | whole x y =>
    refine Int.compare_eq_lt.trans ⟨fun hlt => ⟨?_, fun hconfused => hlt.ne hconfused.2⟩, fun ⟨hlt, hconfused⟩ => ?_⟩
    · exact Int.not_le.mp fun hle => Int.not_le.mpr hlt (Double.nearest_mono hle)
    · exact lt_of_le_of_ne (Double.nearest_mono hlt.le) fun hsame => hconfused ⟨hlt.ne, hsame⟩

theorem order_trans (h' : b.Alike c) (hab : a.order b = .lt) (hbc : b.order c = .lt) : a.order c = .lt := by
  cases h with
  | text s t =>
    cases h' with
    | text t u => exact compare_lt_iff_lt.mpr ((compare_lt_iff_lt.mp hab).trans (compare_lt_iff_lt.mp hbc))
  | whole x y =>
    cases h' with
    | whole y z => exact Int.compare_eq_lt.mpr ((Int.compare_eq_lt.mp hab).trans (Int.compare_eq_lt.mp hbc))

theorem order?_literal : order? a.literal b.literal = some (a.order b) ∧
    literalEquals? a.literal b.literal = some (a.same b) := by
  cases h with
  | text s t => exact ⟨rfl, rfl⟩
  | whole x y =>
    have hnumeric : ∀ operand : Operand, numeric? operand.literal =
        some (Float.ofInt operand.payload.toInt) := by
      rintro ⟨rank, payload⟩
      cases rank <;> rfl
    have hdenotes : ∀ operand : Operand,
        Double.Denotes (Float.ofInt operand.payload.toInt).toModel.unpack (Double.nearest operand.payload.toInt) :=
      fun operand =>
      Double.denotes_nearest (by have := operand.payload.le_toInt; have := operand.payload.toInt_lt; omega)
    refine ⟨order?_of_denotes (hnumeric x) (hnumeric y) (hdenotes x) (hdenotes y), ?_⟩
    obtain ⟨rank, payload⟩ := x
    obtain ⟨rank', payload'⟩ := y
    cases rank <;> cases rank' <;> rfl

end

end Comparand

/-! ## Operators -/

namespace Value

variable {left right third : Value}

/-- A comparison is known to hold. -/
def Holds (op : String) (left right : Value) : Prop := compare? op left right = some (.ofBool true)

/-- A comparison is known to fail. -/
def Fails (op : String) (left right : Value) : Prop := compare? op left right = some (.ofBool false)

theorem holds_iff {op : String} {truth : Bool} (h : compare? op left right = some (.ofBool truth)) :
    (Holds op left right ↔ truth = true) ∧ (Fails op left right ↔ truth = false) := by
  have hsame : ∀ other, compare? op left right = some (.ofBool other) ↔ truth = other := by
    intro other
    rw [h]
    refine ⟨fun heq => ?_, fun heq => by rw [heq]⟩
    have hcontent := congrArg Value.content (Option.some.inj heq)
    injection hcontent with hliteral
    injection hliteral
  exact ⟨hsame true, hsame false⟩

/-- Two values that are equal, less or greater, exactly one of the three, unless they are confused; then they are
none. -/
structure Trichotomy (left right : Value) (confused : Prop) : Prop where
  folds : ∀ op ∈ ["<", "==", ">", "<=", ">="], Holds op left right ∨ Fails op left right
  one : ¬confused → (Holds "<" left right ∧ Fails "==" left right ∧ Fails ">" left right) ∨
    (Fails "<" left right ∧ Holds "==" left right ∧ Fails ">" left right) ∨
    (Fails "<" left right ∧ Fails "==" left right ∧ Holds ">" left right)
  none : confused → Fails "<" left right ∧ Fails "==" left right ∧ Fails ">" left right
  atMost : Holds "<=" left right ↔ Holds "<" left right ∨ Holds "==" left right ∨ confused
  atLeast : Holds ">=" left right ↔ Holds ">" left right ∨ Holds "==" left right ∨ confused

/-- What the operators are folded to. -/
structure Compares (left right : Value) (order : Ordering) (same : Bool) : Prop where
  equal : compare? "==" left right = some (.ofBool same)
  less : compare? "<" left right = some (.ofBool order.isLT)
  greater : compare? ">" left right = some (.ofBool order.isGT)
  atMost : compare? "<=" left right = some (.ofBool order.isLE)
  atLeast : compare? ">=" left right = some (.ofBool order.isGE)

theorem Compares.trichotomy {order : Ordering} {same : Bool} {confused : Prop} (h : Compares left right order same)
    (hsame : same = true → order = .eq) (hconfused : confused ↔ same = false ∧ order = .eq) :
    Trichotomy left right confused := by
  have hfolds : ∀ {op truth}, compare? op left right = some (.ofBool truth) → Holds op left right ∨
      Fails op left right := by
    intro op truth h
    cases truth
    · exact .inr h
    · exact .inl h
  obtain ⟨hequal, hunequal⟩ := holds_iff h.equal
  obtain ⟨hless, hnotLess⟩ := holds_iff h.less
  obtain ⟨hgreater, hnotGreater⟩ := holds_iff h.greater
  refine ⟨?_, ?_, ?_, ?_, ?_⟩
  · simpa using ⟨hfolds h.less, hfolds h.equal, hfolds h.greater, hfolds h.atMost, hfolds h.atLeast⟩
  · rw [hequal, hunequal, hless, hnotLess, hgreater, hnotGreater, hconfused]
    cases order <;> cases same <;> simp at hsame ⊢
  · rw [hunequal, hnotLess, hnotGreater, hconfused]
    rintro ⟨rfl, rfl⟩
    exact ⟨rfl, rfl, rfl⟩
  · rw [(holds_iff h.atMost).1, hless, hequal, hconfused]
    cases order <;> cases same <;> simp at hsame ⊢
  · rw [(holds_iff h.atLeast).1, hgreater, hequal, hconfused]
    cases order <;> cases same <;> simp at hsame ⊢

section
variable {a b c : Comparand} (hleft : left.content = .literal a.literal) (hright : right.content = .literal b.literal)
    (hab : a.Alike b)
include hleft hright hab

theorem compares : Compares left right (a.order b) (a.same b) := by
  obtain ⟨horder, hequal⟩ := Comparand.order?_literal hab
  have hordered : ∀ test, ordered? test left right = some (test (a.order b)) := by
    intro test
    rw [ordered?, literal?, literal?, hleft, hright]
    exact congrArg (Option.map test) horder
  have hequals : equals? left right = some (a.same b) := by
    rw [equals?, hleft, hright]
    exact hequal
  refine ⟨?_, ?_, ?_, ?_, ?_⟩
  · exact congrArg (Option.map Value.ofBool) hequals
  all_goals exact congrArg (Option.map Value.ofBool) (hordered _)

theorem trichotomy : Trichotomy left right (a.Confused b) :=
  (compares hleft hright hab).trichotomy (Comparand.order_of_same hab) (Comparand.confused_iff hab)

theorem none_of_confused (hconfused : a.Confused b) :
    Fails "<" left right ∧ Fails "==" left right ∧ Fails ">" left right ∧ Holds "<=" left right := by
  have h := trichotomy hleft hright hab
  obtain ⟨hless, hequal, hgreater⟩ := h.none hconfused
  exact ⟨hless, hequal, hgreater, h.atMost.mpr (.inr (.inr hconfused))⟩

theorem holds_less_iff : Holds "<" left right ↔ a.order b = .lt := by
  rw [(holds_iff (compares hleft hright hab).less).1, Ordering.isLT_iff_eq_lt]

/-- Texts are compared with texts and whole numbers with whole numbers: the operators are folded, exactly one of
less, equal and greater holds unless the two are confused, less is coming before unless they are, and it is
transitive. -/
theorem trichotomy_alike (hthird : third.content = .literal c.literal) (hbc : b.Alike c) :
    Trichotomy left right (a.Confused b) ∧ (Holds "<" left right ↔ a.Precedes b ∧ ¬a.Confused b) ∧
    (Holds "<" left right → Holds "<" right third → Holds "<" left third) := by
  refine ⟨trichotomy hleft hright hab, ?_, fun hfirst hsecond => ?_⟩
  · rw [holds_less_iff hleft hright hab, Comparand.order_eq_lt_iff hab]
  · rw [holds_less_iff hleft hright hab] at hfirst
    rw [holds_less_iff hright hthird hbc] at hsecond
    rw [holds_less_iff hleft hthird (hab.trans hbc)]
    exact Comparand.order_trans hab hbc hfirst hsecond

end

/-- The last long before the first that is no floating number, that one, and the two floating numbers after it. -/
def beforeGap : Operand := ⟨.long, 9007199254740992⟩

def gap : Operand := ⟨.long, 9007199254740993⟩

def afterGap : Operand := ⟨.integer, 9007199254740994⟩

def last : Operand := ⟨.long, 9007199254740996⟩

/-- Numbers on both sides of a gap between floats are confused, and others are not. -/
theorem around_gap : (Comparand.whole beforeGap).Alike (.whole afterGap) ∧
    (Comparand.whole afterGap).Alike (.whole last) ∧
    Trichotomy (.ofLiteral (.long 9007199254740992)) (.ofLiteral (.integer 9007199254740994))
    (Comparand.Confused (.whole beforeGap) (.whole afterGap)) ∧
    Holds "<" (.ofLiteral (.long 9007199254740992)) (.ofLiteral (.integer 9007199254740994)) ∧
    Holds "<" (.ofLiteral (.long 9007199254740992)) (.ofLiteral (.long 9007199254740996)) := by
  have hbefore := (carries_literal beforeGap).content
  have hafter := (carries_literal afterGap).content
  have hlast := (carries_literal last).content
  obtain ⟨htrichotomy, hless, htrans⟩ := trichotomy_alike hbefore hafter (.whole _ _) hlast (.whole _ _)
  have hconfused : ¬Comparand.Confused (.whole beforeGap) (.whole afterGap) := by
    unfold Comparand.Confused
    decide
  have hfirst := hless.mpr ⟨show (9007199254740992 : Int) < 9007199254740994 by decide, hconfused⟩
  have hsecond := (holds_less_iff hafter hlast (.whole _ _)).mpr (by decide)
  exact ⟨.whole _ _, .whole _ _, htrichotomy, hfirst, htrans hfirst hsecond⟩

/-- Of two longs with one floating number, and of two texts with one lower case, none is less, equal or greater. -/
theorem gap_confused :
    (Fails "<" (.ofLiteral (.long 9007199254740992)) (.ofLiteral (.long 9007199254740993)) ∧
      Fails "==" (.ofLiteral (.long 9007199254740992)) (.ofLiteral (.long 9007199254740993)) ∧
      Fails ">" (.ofLiteral (.long 9007199254740992)) (.ofLiteral (.long 9007199254740993)) ∧
      Holds "<=" (.ofLiteral (.long 9007199254740992)) (.ofLiteral (.long 9007199254740993))) ∧
    Fails "<" (.ofText "É") (.ofText "é") ∧ Fails "==" (.ofText "É") (.ofText "é") ∧
    Fails ">" (.ofText "É") (.ofText "é") ∧
    Holds "<=" (.ofText "É") (.ofText "é") := by
  have hbefore : (ofLiteral (.long 9007199254740992)).content = .literal (Comparand.whole beforeGap).literal := rfl
  have hgap : (ofLiteral (.long 9007199254740993)).content = .literal (Comparand.whole gap).literal := rfl
  refine ⟨none_of_confused hbefore hgap (.whole _ _) ?_, none_of_confused rfl rfl (.text "É" "é") ?_⟩
  all_goals
    unfold Comparand.Confused
    decide

end Value

end ApexPaths
