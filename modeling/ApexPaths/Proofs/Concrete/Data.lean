import ApexPaths.Proofs.Memory.References
import ApexPaths.Proofs.Number.Rounding

/-!
Data of concrete executions: null, truth values and integers of 32 bits. A value shows a datum if it is unknown or the
literal of the datum. An operator on values that show its operands has no result or one that shows the result.
-/

namespace ApexPaths
set_option autoImplicit false

variable {x y z : BitVec 32} {holds : Bool} {operand : Value}

/-! ## Data -/

/-- What a variable of the fragment holds. -/
inductive Datum where
  | null
  | boolean (value : Bool)
  | integer (value : BitVec 32)
  deriving DecidableEq, Repr

namespace Datum

def literal : Datum → Literal
  | .null => .null
  | .boolean value => .boolean value
  | .integer value => .integer value.toInt

/-- Arithmetic wraps, and division is toward zero; nothing is divided by zero. -/
def arithmetic? (op : String) (a b : BitVec 32) : Option (BitVec 32) :=
  match op with
  | "+" => some (a + b)
  | "-" => some (a - b)
  | "*" => some (a * b)
  | "/" => if b = 0 then none else some (a.sdiv b)
  | "%" => if b = 0 then none else some (a.srem b)
  | _ => none

/-- An order of integers; that of other data is left open. -/
def Ordered (test : BitVec 32 → BitVec 32 → Bool) (a b : Datum) (holds : Bool) : Prop :=
  ∀ x y, a = .integer x → b = .integer y → holds = test x y

/-- The outcome of a comparison of two data, where it has one. -/
def Compares (op : String) (a b : Datum) (holds : Bool) : Prop :=
  match op with
  | "==" | "===" => holds = decide (a = b)
  | "!=" | "!==" => holds = !decide (a = b)
  | "<" => Ordered BitVec.slt a b holds
  | ">" => Ordered (fun x y => y.slt x) a b holds
  | "<=" => Ordered BitVec.sle a b holds
  | ">=" => Ordered (fun x y => y.sle x) a b holds
  | _ => False

/-- The operation that a compound assignment performs. -/
def compound? : String → Option String
  | "+=" => some "+"
  | "-=" => some "-"
  | "*=" => some "*"
  | "/=" => some "/"
  | _ => none

/-- The truth value of the left side that decides `&&` and `||` alone. -/
def deciding? : String → Option Bool
  | "&&" => some false
  | "||" => some true
  | _ => none

/-- The operation of a step, up or down by one. -/
def step? : String → Option String
  | "++" => some "+"
  | "--" => some "-"
  | _ => none

end Datum

theorem Datum.literal_eq_null {datum : Datum} : datum.literal = .null ↔ datum = .null := by
  cases datum <;> simp [Datum.literal]

/-- The value is unknown or the literal of a datum. Only null may pass for text, which `+` would join. -/
def Value.Shows (value : Value) (datum : Datum) : Prop :=
  value.content = .unknown ∨ value.content = .literal datum.literal ∧ (value.type = "String" → datum = .null)

namespace Value

variable {value : Value} {datum : Datum}

/-! ## Values that show data -/

theorem shows_unknown (type : String) (datum : Datum) : (Value.unknown type).Shows datum := .inl rfl

theorem shows_nullOf (type : String) : (Value.nullOf type).Shows .null := .inr ⟨rfl, fun _ => rfl⟩

theorem shows_null : Value.null.Shows .null := .inr ⟨rfl, fun _ => rfl⟩

theorem shows_ofBool (b : Bool) : (Value.ofBool b).Shows (.boolean b) :=
  .inr ⟨rfl, fun htype => absurd htype (show TypeName.canonical "Boolean" ≠ "String" by decide +kernel)⟩

theorem shows_ofInt (n : BitVec 32) : (Value.ofInt n.toInt).Shows (.integer n) :=
  .inr ⟨rfl, fun htype => absurd htype (show TypeName.canonical "Integer" ≠ "String" by decide +kernel)⟩

theorem Shows.withOrigin (h : value.Shows datum) (origin : VertexId) : (value.withOrigin origin).Shows datum := h

theorem Shows.retyped (h : value.Shows datum) (type : String) : (value.retyped type).Shows datum := by
  rcases h with h | ⟨h, hkind⟩
  · exact .inl ((content_retyped value type).trans h)
  · refine .inr ⟨(content_retyped value type).trans h, ?_⟩
    rw [Value.retyped, h]
    cases hliteral : datum.literal with
    | null => exact fun _ => Datum.literal_eq_null.mp hliteral
    | _ => exact hkind

/-- A literal that is known of a value is what it shows. -/
theorem Shows.literal? (h : value.Shows datum) {literal : Literal} (hliteral : value.literal? = some literal) :
    literal = datum.literal := by
  rw [Value.literal?] at hliteral
  rcases h with h | ⟨h, -⟩ <;> rw [h] at hliteral <;> cases hliteral
  rfl

theorem shows_getD {found : Option Value} {default : Value} (hfound : ∀ value ∈ found, value.Shows datum)
    (hdefault : default.content = .unknown) : (found.getD default).Shows datum := by
  cases found with
  | none => exact .inl hdefault
  | some value => exact hfound value rfl

theorem Shows.bool? {b : Bool} (h : value.Shows (.boolean b)) {found : Bool} (hfound : value.bool? = some found) :
    found = b := by
  rw [Value.bool?] at hfound
  rcases h with h | ⟨h, -⟩ <;> rw [h] at hfound <;> cases hfound
  rfl

theorem Shows.number? (h : value.Shows datum) {number : Number} (hnumber : Number.ofValue? value = some number) :
    ∃ n, datum = .integer n ∧ number = .integer n.toInt := by
  rw [Number.ofValue?] at hnumber
  rcases h with h | ⟨h, -⟩ <;> rw [h] at hnumber
  · cases hnumber
  · cases datum with
    | null => cases hnumber
    | boolean => cases hnumber
    | integer n =>
      refine ⟨n, rfl, (Option.some.inj hnumber).symm.trans (congrArg Number.integer ?_)⟩
      exact BitVec.toInt_bmod_cancel n

end Value

/-! ## Operators -/

namespace Operator

variable {op : String} {left right : Value} {a b : Datum}

/-- Arithmetic on known numbers agrees with that on data. -/
theorem wordArithmetic?_eq (h : Datum.arithmetic? op x y = some z) {n : Int}
    (hn : wordArithmetic? .word32 op x.toInt y.toInt = some n) : n = z.toInt := by
  unfold Datum.arithmetic? at h
  split at h
  · cases h
    exact (Option.some.inj hn).symm.trans (BitVec.toInt_add x y).symm
  · cases h
    exact (Option.some.inj hn).symm.trans BitVec.toInt_sub.symm
  · cases h
    exact (Option.some.inj hn).symm.trans (BitVec.toInt_mul x y).symm
  · obtain ⟨hdivides, hn⟩ := Option.ite_none_right_eq_some.mp hn
    cases hn
    obtain ⟨-, hz⟩ := Option.ite_none_left_eq_some.mp h
    cases hz
    refine (BitVec.toInt_sdiv_of_ne_or_ne x y ?_).symm
    rw [WordSize.divides] at hdivides
    by_contra hboth
    push Not at hboth
    obtain ⟨rfl, rfl⟩ := hboth
    revert hdivides
    decide
  · obtain ⟨-, hn⟩ := Option.ite_none_right_eq_some.mp hn
    cases hn
    obtain ⟨-, hz⟩ := Option.ite_none_left_eq_some.mp h
    cases hz
    exact (BitVec.toInt_srem x y).symm
  · cases h

theorem shows_of_arithmetic? (h : Datum.arithmetic? op x y = some z) :
    ∀ number ∈ arithmetic? op (.integer x.toInt) (.integer y.toInt), number.toValue.Shows (.integer z) := by
  intro number hnumber
  obtain ⟨n, hn, rfl⟩ := Option.map_eq_some_iff.mp hnumber
  obtain rfl := wordArithmetic?_eq h hn
  exact Value.shows_ofInt z

/-- An arithmetic operation shows the result on what its operands show. -/
theorem shows_of_binary? (hleft : left.Shows (.integer x)) (hright : right.Shows (.integer y))
    (h : Datum.arithmetic? op x y = some z) : ∀ value ∈ binary? op left right, value.Shows (.integer z) := by
  intro value hvalue
  rw [binary?] at hvalue
  split at hvalue
  · -- Text is never known: the value with its type is not.
    rename_i htext
    have hnone : ∀ {value : Value} {n : BitVec 32}, value.Shows (.integer n) → value.type = "String" →
        value.displayText? = none := by
      rintro value n (h | ⟨-, h⟩) htype
      · rw [Value.displayText?, Value.literal?, h]
        rfl
      · cases h htype
    obtain ⟨l, hl, hvalue⟩ := Option.bind_eq_some_iff.mp hvalue
    obtain ⟨r, hr, -⟩ := Option.bind_eq_some_iff.mp hvalue
    rcases htext.2 with htype | htype
    · rw [hnone hleft htype] at hl
      cases hl
    · rw [hnone hright htype] at hr
      cases hr
  · obtain ⟨l, hl, hvalue⟩ := Option.bind_eq_some_iff.mp hvalue
    obtain ⟨r, hr, hvalue⟩ := Option.bind_eq_some_iff.mp hvalue
    obtain ⟨number, hnumber, hlast⟩ := Option.bind_eq_some_iff.mp hvalue
    cases hlast
    obtain ⟨_, hx, rfl⟩ := hleft.number? hl
    obtain ⟨_, hy, rfl⟩ := hright.number? hr
    cases hx
    cases hy
    exact shows_of_arithmetic? h number hnumber

/-! ## Comparison -/

theorem literalEquals?_eq (h : literalEquals? a.literal b.literal = some holds) : holds = decide (a = b) := by
  cases a <;> cases b <;> simp_all [literalEquals?, Datum.literal, ← BitVec.toInt_inj, beq_eq_decide]

theorem equals?_eq (hleft : left.Shows a) (hright : right.Shows b) (h : equals? left right = some holds) :
    holds = decide (a = b) := by
  unfold equals? at h
  rcases hleft with hleft | ⟨hleft, -⟩ <;> rcases hright with hright | ⟨hright, -⟩ <;> rw [hleft, hright] at h
  · cases h
  · cases h
  · cases h
  · exact literalEquals?_eq h

theorem natAbs_lt (x : BitVec 32) : x.toInt.natAbs < 2 ^ 53 := by
  have hlow := BitVec.le_toInt x
  have hhigh := BitVec.toInt_lt (x := x)
  norm_num at hlow hhigh ⊢
  omega

theorem ordered?_eq {test : Ordering → Bool} {ordered : BitVec 32 → BitVec 32 → Bool}
    (htest : ∀ x y : BitVec 32, test (compare x.toInt y.toInt) = ordered x y) (hleft : left.Shows a)
    (hright : right.Shows b) (hholds : Datum.Ordered ordered a b holds) {found : Bool}
    (hfound : ordered? test left right = some found) : found = holds := by
  obtain ⟨l, hl, hfound⟩ := Option.bind_eq_some_iff.mp hfound
  obtain ⟨r, hr, hfound⟩ := Option.bind_eq_some_iff.mp hfound
  obtain ⟨order, horder, rfl⟩ := Option.map_eq_some_iff.mp hfound
  obtain rfl := hleft.literal? hl
  obtain rfl := hright.literal? hr
  cases a with
  | null => cases horder
  | boolean => cases horder
  | integer x =>
    cases b with
    | null => cases horder
    | boolean => cases horder
    | integer y =>
      rw [Datum.literal, Datum.literal, order?_integer (natAbs_lt x) (natAbs_lt y)] at horder
      cases horder
      rw [hholds x y rfl rfl, htest]

theorem isLT_compare (x y : BitVec 32) : (compare x.toInt y.toInt).isLT = x.slt y := by
  rw [BitVec.slt_eq_decide, Bool.eq_iff_iff, Ordering.isLT_iff_eq_lt, Int.compare_eq_lt, decide_eq_true_iff]

theorem isLE_compare (x y : BitVec 32) : (compare x.toInt y.toInt).isLE = x.sle y := by
  rw [Bool.eq_iff_iff, Int.isLE_compare, BitVec.sle_iff_toInt_le]

theorem isGT_compare (x y : BitVec 32) : (compare x.toInt y.toInt).isGT = y.slt x := by
  rw [BitVec.slt_eq_decide, Bool.eq_iff_iff, Ordering.isGT_iff_eq_gt, Int.compare_eq_gt, decide_eq_true_iff]

theorem isGE_compare (x y : BitVec 32) : (compare x.toInt y.toInt).isGE = y.sle x := by
  rw [Bool.eq_iff_iff, Int.isGE_compare, BitVec.sle_iff_toInt_le]

theorem not_logical_of_compares (h : Datum.Compares op a b holds) : ¬(op = "&&" ∨ op = "||") := by
  rintro (rfl | rfl) <;> exact h

/-- A comparison shows its outcome on what its operands show. -/
theorem shows_of_compare? (hleft : left.Shows a) (hright : right.Shows b) (h : Datum.Compares op a b holds) :
    ∀ value ∈ compare? op left right, value.Shows (.boolean holds) := by
  intro value hvalue
  obtain ⟨found, hfound, rfl⟩ := Option.map_eq_some_iff.mp hvalue
  suffices hsame : found = holds from hsame ▸ Value.shows_ofBool found
  have hnot : ∀ {found : Bool}, (equals? left right).map (!·) = some found → found = !decide (a = b) := by
    intro found hfound
    obtain ⟨same, hsame, rfl⟩ := Option.map_eq_some_iff.mp hfound
    rw [equals?_eq hleft hright hsame]
  unfold Datum.Compares at h
  split at h
  · exact (equals?_eq hleft hright hfound).trans h.symm
  · exact (equals?_eq hleft hright hfound).trans h.symm
  · exact (hnot hfound).trans h.symm
  · exact (hnot hfound).trans h.symm
  · exact ordered?_eq isLT_compare hleft hright h hfound
  · exact ordered?_eq isGT_compare hleft hright h hfound
  · exact ordered?_eq isLE_compare hleft hright h hfound
  · exact ordered?_eq isGE_compare hleft hright h hfound
  · exact h.elim

/-! ## Logic -/

theorem deciding?_cases {decides : Bool} (h : Datum.deciding? op = some decides) :
    op = "&&" ∧ decides = false ∨ op = "||" ∧ decides = true := by
  unfold Datum.deciding? at h
  split at h
  · exact .inl ⟨rfl, (Option.some.inj h).symm⟩
  · exact .inr ⟨rfl, (Option.some.inj h).symm⟩
  · cases h

section
variable {decides : Bool} (hop : Datum.deciding? op = some decides)
include hop

theorem shortCircuit?_eq (left : Value) :
    shortCircuit? op left = if left.bool? = some decides then some (.ofBool decides) else none := by
  unfold shortCircuit?
  generalize left.bool? = l
  rcases deciding?_cases hop with ⟨rfl, rfl⟩ | ⟨rfl, rfl⟩ <;> rcases l with _ | _ | _ <;> rfl

theorem logical?_eq (left right : Value) : logical? op left right =
    if left.bool? = some decides ∨ right.bool? = some decides then some (.ofBool decides)
    else left.bool?.bind fun _ => right.bool?.map .ofBool := by
  unfold logical?
  rw [shortCircuit?_eq hop]
  generalize left.bool? = l
  generalize right.bool? = r
  rcases deciding?_cases hop with ⟨rfl, rfl⟩ | ⟨rfl, rfl⟩ <;> rcases l with _ | _ | _ <;>
    rcases r with _ | _ | _ <;> rfl

theorem shows_of_shortCircuit? : ∀ value ∈ shortCircuit? op left, value.Shows (.boolean decides) := by
  intro value hvalue
  rw [shortCircuit?_eq hop] at hvalue
  obtain ⟨-, hvalue⟩ := Option.ite_none_right_eq_some.mp hvalue
  exact Option.some.inj hvalue ▸ Value.shows_ofBool decides

theorem shortCircuit?_eq_none (hleft : left.Shows (.boolean !decides)) : shortCircuit? op left = none := by
  rw [shortCircuit?_eq hop, if_neg fun h => ?_]
  exact absurd (hleft.bool? h) (by simp)

/-- Where the left side decides, nothing else comes out of an unknown one. -/
theorem shows_of_logical?_left (hleft : left.Shows (.boolean decides)) :
    ∀ value ∈ logical? op left right, value.Shows (.boolean decides) := by
  intro value hvalue
  rw [logical?_eq hop] at hvalue
  split at hvalue
  · exact Option.some.inj hvalue ▸ Value.shows_ofBool decides
  · rename_i hnot
    obtain ⟨l, hl, -⟩ := Option.bind_eq_some_iff.mp hvalue
    exact absurd (.inl (hleft.bool? hl ▸ hl)) hnot

theorem shows_of_logical?_right {r : Bool} (hleft : left.Shows (.boolean !decides))
    (hright : right.Shows (.boolean r)) : ∀ value ∈ logical? op left right, value.Shows (.boolean r) := by
  intro value hvalue
  rw [logical?_eq hop] at hvalue
  split at hvalue
  · rename_i hdecided
    cases hvalue
    rcases hdecided with hl | hr
    · exact absurd (hleft.bool? hl) (by simp)
    · exact hright.bool? hr ▸ Value.shows_ofBool decides
  · obtain ⟨l, -, hvalue⟩ := Option.bind_eq_some_iff.mp hvalue
    obtain ⟨found, hfound, rfl⟩ := Option.map_eq_some_iff.mp hvalue
    exact hright.bool? hfound ▸ Value.shows_ofBool found

end

/-! ## One operand -/

theorem shows_of_not {b : Bool} (h : operand.Shows (.boolean b)) :
    ∀ value ∈ unary? "!" operand, value.Shows (.boolean !b) := by
  intro value hvalue
  obtain ⟨found, hfound, rfl⟩ := Option.map_eq_some_iff.mp hvalue
  exact h.bool? hfound ▸ Value.shows_ofBool _

theorem shows_of_minus {n : BitVec 32} (h : operand.Shows (.integer n)) :
    ∀ value ∈ unary? "-" operand, value.Shows (.integer (-n)) := by
  intro value hvalue
  obtain ⟨number, hnumber, hvalue⟩ := Option.bind_eq_some_iff.mp hvalue
  obtain ⟨result, hresult, hlast⟩ := Option.bind_eq_some_iff.mp hvalue
  cases hlast
  obtain ⟨_, hn, rfl⟩ := h.number? hnumber
  cases hn
  have hdifference : Datum.arithmetic? "-" 0 n = some (0 - n) := rfl
  exact BitVec.zero_sub n ▸ shows_of_arithmetic? hdifference result hresult

/-- A step shows the next or the previous number. -/
theorem shows_of_step? {sign : String} (hop : Datum.step? op = some sign) (h : operand.Shows (.integer x))
    (hz : Datum.arithmetic? sign x 1 = some z) : ∀ value ∈ step? op operand, value.Shows (.integer z) := by
  intro value hvalue
  have hsign : ∃ number, Number.ofValue? operand = some number ∧ ∃ result ∈ arithmetic? sign number number.one,
      value = result.toValue := by
    unfold Datum.step? at hop
    split at hop
    · obtain ⟨number, hnumber, hvalue⟩ := Option.bind_eq_some_iff.mp hvalue
      obtain ⟨result, hresult, hlast⟩ := Option.bind_eq_some_iff.mp hvalue
      exact ⟨number, hnumber, result, Option.some.inj hop ▸ hresult, (Option.some.inj hlast).symm⟩
    · obtain ⟨number, hnumber, hvalue⟩ := Option.bind_eq_some_iff.mp hvalue
      obtain ⟨result, hresult, hlast⟩ := Option.bind_eq_some_iff.mp hvalue
      exact ⟨number, hnumber, result, Option.some.inj hop ▸ hresult, (Option.some.inj hlast).symm⟩
    · cases hop
  obtain ⟨number, hnumber, result, hresult, rfl⟩ := hsign
  obtain ⟨_, hx, rfl⟩ := h.number? hnumber
  cases hx
  exact shows_of_arithmetic? hz result hresult

end Operator

/-! ## Choice -/

/-- Of two values with the same content the one shows what the other does. -/
theorem Value.Shows.of_sameContent {yes no : Value} {datum : Datum} (hsame : yes.sameContent no = true)
    (h : no.Shows datum) : yes.Shows datum := by
  obtain ⟨type, content, origin⟩ := yes
  obtain ⟨type', content', origin'⟩ := no
  rw [sameContent, same] at hsame
  simp only [Bool.and_eq_true, beq_iff_eq] at hsame
  obtain ⟨⟨rfl, -⟩, hcontent⟩ := hsame
  rcases h with h | ⟨h, hkind⟩
  · obtain rfl : content' = .unknown := h
    cases content <;> first | exact .inl rfl | cases hcontent
  · obtain rfl : content' = .literal datum.literal := h
    refine .inr ⟨?_, hkind⟩
    cases content with
    | literal found =>
      have hfound : found.same datum.literal = true := hcontent
      show Content.literal found = _
      congr 1
      cases found <;> cases datum <;> simp_all [Literal.same, Datum.literal]
    | _ => cases hcontent

end ApexPaths
