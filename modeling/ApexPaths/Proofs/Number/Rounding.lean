import ApexPaths.Value.Operators
import Mathlib

/-!
Integers as floating numbers. An integer of at most 53 bits is a floating number exactly: its mantissa has full
width after a shift, and rounding drops nothing. A larger one is rounded to the nearest multiple of the place of
its 53rd bit, and a tie to the even multiple. Floating numbers are ordered as the integers that they are; rounding
keeps the order, but several integers may become one number.
-/

namespace ApexPaths.Double
set_option autoImplicit false

open Float.Model Float.Model.UnpackedFloat

/-! ## Full mantissas -/

theorem shiftToTargetExponent_full {m : Nat} {e : Int} (hm : m.log2 = 52) (he : -1074 ≤ e) :
    shiftToTargetExponent .binary64 m e .exact = (⟨m, false, false⟩, e) := by
  have htarget : Format.binary64.targetExponent (totalExponent m e) = e := by
    simp only [Format.targetExponent, totalExponent, Format.mantissaBits, Format.minExponent, hm]
    norm_num
    omega
  rw [shiftToTargetExponent, htarget, shiftToExponent, Int.sub_self]
  exact congrArg (Prod.mk _) (Int.add_zero e)

theorem shiftRight_zeros (m k : Nat) : (⟨m * 2 ^ k, false, false⟩ : ExtendedMantissa) >>> k = ⟨m, false, false⟩ := by
  induction k generalizing m with
  | zero =>
    rw [Nat.pow_zero, Nat.mul_one]
    rfl
  | succ k ih =>
    have hlast : (⟨m * 2, false, false⟩ : ExtendedMantissa).shiftRightOne = ⟨m, false, false⟩ := by
      simp [ExtendedMantissa.shiftRightOne]
    show ((⟨m * 2 ^ (k + 1), false, false⟩ : ExtendedMantissa) >>> k).shiftRightOne = _
    rw [Nat.pow_succ, Nat.mul_comm (2 ^ k) 2, ← Nat.mul_assoc, ih, hlast]

theorem log2_mul_two_pow {m : Nat} (hpos : 0 < m) (k : Nat) : (m * 2 ^ k).log2 = m.log2 + k := by
  have hself := (Nat.log2_eq_iff hpos.ne').mp rfl
  refine (Nat.log2_eq_iff (Nat.mul_pos hpos (Nat.two_pow_pos k)).ne').mpr ⟨?_, ?_⟩
  · rw [Nat.pow_add]
    exact Nat.mul_le_mul_right _ hself.1
  · rw [Nat.add_right_comm, Nat.pow_add]
    exact Nat.mul_lt_mul_of_pos_right hself.2 (Nat.two_pow_pos k)

theorem roundWithAccuracy_zeros {m : Nat} {e : Int} (sign : Sign) (k : Nat) (hm : m.log2 = 52) (hpos : 0 < m)
    (he : -1074 ≤ e) : roundWithAccuracy .binary64 sign (m * 2 ^ k) (e - k) .exact = .finite sign m e hpos := by
  have hlog : (m * 2 ^ k).log2 = 52 + k := by rw [log2_mul_two_pow hpos, hm]
  have htarget : Format.binary64.targetExponent (totalExponent (m * 2 ^ k) (e - k)) = e := by
    simp only [Format.targetExponent, totalExponent, Format.mantissaBits, Format.minExponent, hlog]
    norm_num
    omega
  have hshift : shiftToTargetExponent .binary64 (m * 2 ^ k) (e - k) .exact = (⟨m, false, false⟩, e) := by
    rw [shiftToTargetExponent, htarget, shiftToExponent, show (e - (e - (k : Int))).toNat = k by omega]
    exact Prod.ext (shiftRight_zeros m k) (by omega)
  have hkept : (⟨m, false, false⟩ : ExtendedMantissa).roundedMantissa = m := rfl
  simp only [roundWithAccuracy, hshift, hkept, shiftToTargetExponent_full hm he]
  exact dif_neg hpos.ne'

theorem sign_packComponents (sign : Sign) (exponent : BitVec 11) (mantissa : BitVec 52) :
    Sign.ofBitVec (unpackSign (packComponents .binary64 sign exponent mantissa)) = sign := by
  have hsign : unpackSign (packComponents .binary64 sign exponent mantissa) = sign.toBitVec := by
    rw [unpackSign, packComponents, BitVec.extractLsb, BitVec.extractLsb'_append_eq_of_le (by decide),
      BitVec.extractLsb'_append_eq_of_le (by decide)]
    cases sign <;> rfl
  rw [hsign]
  cases sign <;> rfl

theorem unpack_pack {sign : Sign} {m : Nat} {e : Int} (hm : m.log2 = 52) (hpos : 0 < m) (hlow : -1074 ≤ e)
    (hhigh : e ≤ 970) : (Float.Model.pack (.finite sign m e hpos)).unpack = .finite sign m e hpos := by
  have hfull := (Nat.log2_eq_iff hpos.ne').mp hm
  obtain ⟨biased, hbiased⟩ : ∃ biased : Nat, e + 1075 = biased := ⟨(e + 1075).toNat, by omega⟩
  have hpacked : UnpackedFloat.pack .binary64 (.finite sign m e hpos) =
      packComponents .binary64 sign (BitVec.ofNat 11 biased) (BitVec.ofNat 52 m) := by
    have hexponent : (e + Format.binary64.exponentBias + (52 : Nat)).toNat = biased := by
      simp only [Format.exponentBias]
      norm_num
      omega
    simp only [UnpackedFloat.pack, Format.mantissaBits, hm]
    rw [hexponent, if_neg (by norm_num; omega), if_pos (by norm_num)]
  have hnone : BitVec.ofNat 11 biased ≠ -1#11 := fun h => by
    have := congrArg BitVec.toNat h
    norm_num at this
    omega
  have hzero : BitVec.ofNat 11 biased ≠ 0#11 := fun h => by
    have := congrArg BitVec.toNat h
    norm_num at this
    omega
  show UnpackedFloat.unpack .binary64 (UnpackedFloat.pack .binary64 (.finite sign m e hpos)) = _
  rw [hpacked]
  have hexponent : ((BitVec.ofNat 11 biased).toNat : Int) - (Format.binary64.exponentBias + (52 : Nat)) = e := by
    rw [BitVec.toNat_ofNat, Nat.mod_eq_of_lt (by norm_num; omega)]
    simp only [Format.exponentBias]
    norm_num
    omega
  have hmantissa : (1#1 ++ BitVec.ofNat 52 m).toNat = m := by
    rw [BitVec.toNat_append, BitVec.toNat_ofNat, BitVec.toNat_ofNat,
      ← Nat.shiftLeft_add_eq_or_of_lt (Nat.mod_lt m (by norm_num)), Nat.shiftLeft_eq]
    omega
  simp only [UnpackedFloat.unpack, unpackExponent_packComponents, unpackMantissa_packComponents, sign_packComponents,
    if_neg hnone, if_neg hzero, hexponent, hmantissa]

/-! ## Integers -/

/-- The floating number of a positive integer of at most 53 bits. -/
def exactNat (sign : Sign) (n : Nat) (hpos : 0 < n) : UnpackedFloat :=
  .finite sign (n <<< (52 - n.log2)) (n.log2 - 52)
  (by rw [Nat.shiftLeft_eq]; exact Nat.mul_pos hpos (Nat.two_pow_pos _))

section
variable {n : Nat} (hpos : 0 < n) (hn : n < 2 ^ 53)
include hpos hn

theorem log2_le : n.log2 ≤ 52 := Nat.le_of_lt_succ ((Nat.log2_lt hpos.ne').mpr hn)

theorem log2_shifted : (n <<< (52 - n.log2)).log2 = 52 := by
  have hlog := log2_le hpos hn
  have hself := (Nat.log2_eq_iff hpos.ne').mp rfl
  rw [Nat.shiftLeft_eq, Nat.log2_eq_iff (Nat.mul_pos hpos (Nat.two_pow_pos _)).ne']
  have hfull : ∀ k, 2 ^ (n.log2 + k) * 2 ^ (52 - n.log2) = 2 ^ (52 + k) := fun k => by
    rw [← Nat.pow_add]
    congr 1
    omega
  exact ⟨hfull 0 ▸ Nat.mul_le_mul_right _ hself.1, hfull 1 ▸ Nat.mul_lt_mul_of_pos_right hself.2 (Nat.two_pow_pos _)⟩

theorem round_exactNat (sign : Sign) : round .binary64 sign n 0 = exactNat sign n hpos := by
  have hlog := log2_le hpos hn
  have htarget : Format.binary64.targetExponent (totalExponent n 0) = n.log2 - 52 := by
    simp only [Format.targetExponent, totalExponent, Format.mantissaBits, Format.minExponent]
    norm_num
    omega
  have hshift : ((0 : Int) - (n.log2 - 52)).toNat = 52 - n.log2 := by omega
  rw [UnpackedFloat.round, htarget, decreaseExponent, hshift]
  have hround := roundWithAccuracy_zeros (e := n.log2 - 52) sign 0 (log2_shifted hpos hn) (by
    rw [Nat.shiftLeft_eq]
    exact Nat.mul_pos hpos (Nat.two_pow_pos _)) (by omega)
  rw [Nat.pow_zero, Nat.mul_one] at hround
  show roundWithAccuracy .binary64 sign (n <<< (52 - n.log2)) (0 - ((52 - n.log2 : Nat) : Int)) .exact = _
  rw [show (0 : Int) - ((52 - n.log2 : Nat) : Int) = n.log2 - 52 - (0 : Nat) by omega]
  exact hround

theorem unpack_pack_exactNat (sign : Sign) : (Float.Model.pack (exactNat sign n hpos)).unpack = exactNat sign n hpos :=
  unpack_pack (log2_shifted hpos hn) _ (by omega) (by have := log2_le hpos hn; omega)

theorem unpack_ofNat : (Float.ofNat n).toModel.unpack = exactNat .positive n hpos := by
  have hword : n.toUInt64.toNat = n := UInt64.toNat_ofNat_of_lt' (hn.trans (by decide))
  have hconverted : n.toUInt64.toFloat.toModel.unpack = exactNat .positive n hpos := by
    have hnormalize : UnpackedFloat.ofUInt64 .binary64 n.toUInt64 = exactNat .positive n hpos := by
      rw [UnpackedFloat.ofUInt64, hword, UnpackedFloat.ofNat, UnpackedFloat.ofInt, UnpackedFloat.normalize,
        show compare (n : Int) 0 = .gt from Int.compare_eq_gt.mpr (by omega)]
      exact round_exactNat hpos hn .positive
    show (Float.Model.pack (UnpackedFloat.ofUInt64 .binary64 n.toUInt64)).unpack = _
    rw [hnormalize]
    exact unpack_pack_exactNat hpos hn .positive
  have hone : (Float.ofBits 0x3FF0000000000000).toModel.unpack = .finite .positive (2 ^ 52) (-52) (by decide) := rfl
  have hproduct : Float.ofNat n = n.toUInt64.toFloat * Float.ofBits 0x3FF0000000000000 := by
    rw [Float.ofNat]
    show Float.ofScientific n false 0 = _
    rw [Float.ofScientific, dif_pos ⟨hn, Nat.zero_le _⟩]
    rfl
  rw [hproduct]
  show (Float.Model.pack
    (UnpackedFloat.mul .binary64 n.toUInt64.toFloat.toModel.unpack
    (Float.ofBits 0x3FF0000000000000).toModel.unpack)).unpack = _
  rw [hconverted, hone]
  have hround := roundWithAccuracy_zeros (e := n.log2 - 52) .positive 52 (log2_shifted hpos hn) (by
    rw [Nat.shiftLeft_eq]
    exact Nat.mul_pos hpos (Nat.two_pow_pos _)) (by omega)
  have hmul : UnpackedFloat.mul .binary64 (exactNat .positive n hpos) (.finite .positive (2 ^ 52) (-52) (by decide)) =
    exactNat .positive n hpos := hround
  rw [hmul]
  exact unpack_pack_exactNat hpos hn .positive

end

/-- The floating number of an integer of at most 53 bits. -/
def exactInt (n : Int) : UnpackedFloat :=
  if h : n = 0 then .zero .positive else exactNat (if n < 0 then .negative else .positive) n.natAbs
    (Int.natAbs_pos.mpr h)

theorem unpack_ofInt {n : Int} (hn : n.natAbs < 2 ^ 53) : (Float.ofInt n).toModel.unpack = exactInt n := by
  cases n with
  | ofNat n =>
    rcases Nat.eq_zero_or_pos n with rfl | hpos
    · rfl
    · rw [exactInt, dif_neg (by simp; omega), if_neg (by simp)]
      exact unpack_ofNat hpos hn
  | negSucc n =>
    rw [exactInt, dif_neg (Int.negSucc_ne_zero n), if_pos (Int.negSucc_lt_zero n)]
    show (Float.Model.pack (Float.ofNat (n + 1)).toModel.unpack.neg).unpack = _
    rw [unpack_ofNat (Nat.succ_pos n) hn]
    exact unpack_pack_exactNat (Nat.succ_pos n) hn .negative

/-! ## Order -/

/-- The floating number is an integer, and its mantissa has full width. -/
inductive Denotes : UnpackedFloat → Int → Prop where
  | zero (sign : Sign) : Denotes (.zero sign) 0
  | finite (sign : Sign) {m n : Nat} {e : Int} (hpos : 0 < m) (hm : m.log2 = 52) (hlow : -52 ≤ e) (hhigh : e ≤ 970)
    (hn : m * 2 ^ (e + 52).toNat = n * 2 ^ 52) : Denotes (.finite sign m e hpos) (sign.apply n)

section
variable {m₁ m₂ n₁ n₂ : Nat} {e₁ e₂ : Int} (hm₁ : m₁.log2 = 52) (hm₂ : m₂.log2 = 52) (hlow₁ : -52 ≤ e₁)
    (hlow₂ : -52 ≤ e₂) (hn₁ : m₁ * 2 ^ (e₁ + 52).toNat = n₁ * 2 ^ 52) (hn₂ : m₂ * 2 ^ (e₂ + 52).toNat = n₂ * 2 ^ 52)
include hm₁ hm₂ hlow₁ hlow₂ hn₁ hn₂

theorem lt_of_exponent_lt (he : e₁ < e₂) : n₁ < n₂ := by
  have hne : ∀ {m : Nat}, m.log2 = 52 → m ≠ 0 := by
    rintro m hm rfl
    cases hm
  have hfull₁ := (Nat.log2_eq_iff (hne hm₁)).mp hm₁
  have hfull₂ := (Nat.log2_eq_iff (hne hm₂)).mp hm₂
  refine Nat.lt_of_mul_lt_mul_right (a := 2 ^ 52) ?_
  calc n₁ * 2 ^ 52 = m₁ * 2 ^ (e₁ + 52).toNat := hn₁.symm
    _ < 2 ^ 53 * 2 ^ (e₁ + 52).toNat := Nat.mul_lt_mul_of_pos_right hfull₁.2 (Nat.two_pow_pos _)
    _ = 2 ^ 52 * 2 ^ ((e₁ + 52).toNat + 1) := by rw [Nat.pow_succ 2 (e₁ + 52).toNat]; ring
    _ ≤ 2 ^ 52 * 2 ^ (e₂ + 52).toNat := Nat.mul_le_mul_left _ (Nat.pow_le_pow_right (by decide) (by omega))
    _ ≤ m₂ * 2 ^ (e₂ + 52).toNat := Nat.mul_le_mul_right _ hfull₂.1
    _ = n₂ * 2 ^ 52 := hn₂

theorem compare_parts : (compare e₁ e₂).then (compare m₁ m₂) = compare n₁ n₂ := by
  rcases Int.lt_trichotomy e₁ e₂ with h | rfl | h
  · rw [Int.compare_eq_lt.mpr h, Nat.compare_eq_lt.mpr (lt_of_exponent_lt hm₁ hm₂ hlow₁ hlow₂ hn₁ hn₂ h)]
    rfl
  · have hlt : m₁ < m₂ ↔ n₁ < n₂ := by
      rw [← Nat.mul_lt_mul_right (Nat.two_pow_pos (e₁ + 52).toNat), hn₁, hn₂, Nat.mul_lt_mul_right (Nat.two_pow_pos 52)]
    have hgt : m₂ < m₁ ↔ n₂ < n₁ := by
      rw [← Nat.mul_lt_mul_right (Nat.two_pow_pos (e₁ + 52).toNat), hn₁, hn₂, Nat.mul_lt_mul_right (Nat.two_pow_pos 52)]
    rw [Int.compare_eq_eq.mpr rfl]
    rcases Nat.lt_trichotomy n₁ n₂ with h | h | h
    · rw [Nat.compare_eq_lt.mpr h, Nat.compare_eq_lt.mpr (hlt.mpr h)]
      rfl
    · rw [Nat.compare_eq_eq.mpr h, Nat.compare_eq_eq.mpr (by omega)]
      rfl
    · rw [Nat.compare_eq_gt.mpr h, Nat.compare_eq_gt.mpr (hgt.mpr h)]
      rfl
  · rw [Int.compare_eq_gt.mpr h, Nat.compare_eq_gt.mpr (lt_of_exponent_lt hm₂ hm₁ hlow₂ hlow₁ hn₂ hn₁ h)]
    rfl

end

theorem compare_natCast (a b : Nat) : compare (a : Int) b = compare a b := by
  rcases Nat.lt_trichotomy a b with h | rfl | h
  · rw [Int.compare_eq_lt.mpr (Int.ofNat_lt.mpr h), Nat.compare_eq_lt.mpr h]
  · rw [Int.compare_eq_eq.mpr rfl, Nat.compare_eq_eq.mpr rfl]
  · rw [Int.compare_eq_gt.mpr (Int.ofNat_lt.mpr h), Nat.compare_eq_gt.mpr h]

theorem compare_neg (a b : Int) : compare (-a) (-b) = compare b a := by
  rcases Int.lt_trichotomy a b with h | rfl | h
  · rw [Int.compare_eq_gt.mpr (Int.neg_lt_neg h), Int.compare_eq_gt.mpr h]
  · rw [Int.compare_eq_eq.mpr rfl, Int.compare_eq_eq.mpr rfl]
  · rw [Int.compare_eq_lt.mpr (Int.neg_lt_neg h), Int.compare_eq_lt.mpr h]

namespace Denotes

theorem unpack_pack {x : UnpackedFloat} {n : Int} (h : Denotes x n) : (Float.Model.pack x).unpack = x := by
  cases h with
  | zero sign => cases sign <;> rfl
  | finite sign hpos hm hlow hhigh hn => exact Double.unpack_pack hm hpos (by omega) hhigh

theorem neg {x : UnpackedFloat} {n : Int} (h : Denotes x n) : Denotes x.neg (-n) := by
  cases h with
  | zero sign => exact .zero _
  | finite sign hpos hm hlow hhigh hn =>
    cases sign
    · exact (Int.neg_neg _).symm ▸ .finite .positive hpos hm hlow hhigh hn
    · exact .finite .negative hpos hm hlow hhigh hn

/-- Floats that denote whole numbers compare as these do. -/
theorem compare_eq {x y : UnpackedFloat} {a b : Int} (hx : Denotes x a) (hy : Denotes y b) :
    x.compare y = some (compare a b) := by
  have hpositive : ∀ {m n : Nat} {e : Int}, 0 < m → m * 2 ^ (e + 52).toNat = n * 2 ^ 52 → (0 : Int) < n := by
    intro m n e hpos hn
    refine Int.natCast_pos.mpr (Nat.pos_of_ne_zero fun hzero => ?_)
    rw [hzero, Nat.zero_mul] at hn
    exact (Nat.mul_pos hpos (Nat.two_pow_pos _)).ne' hn
  cases hx with
  | zero =>
    cases hy with
    | zero => exact congrArg some (Int.compare_eq_eq.mpr rfl).symm
    | finite sign hpos hm hlow hhigh hn =>
      cases sign
      · exact congrArg some (Int.compare_eq_gt.mpr (Int.neg_neg_of_pos (hpositive hpos hn))).symm
      · exact congrArg some (Int.compare_eq_lt.mpr (hpositive hpos hn)).symm
  | finite sign₁ hpos₁ hm₁ hlow₁ hhigh₁ hn₁ =>
    cases hy with
    | zero =>
      cases sign₁
      · exact congrArg some (Int.compare_eq_lt.mpr (Int.neg_neg_of_pos (hpositive hpos₁ hn₁))).symm
      · exact congrArg some (Int.compare_eq_gt.mpr (hpositive hpos₁ hn₁)).symm
    | finite sign₂ hpos₂ hm₂ hlow₂ hhigh₂ hn₂ =>
      have hparts := compare_parts hm₁ hm₂ hlow₁ hlow₂ hn₁ hn₂
      cases sign₁ <;> cases sign₂
      · show some (Ordering.swap _) = some (compare (-(_ : Int)) (-(_ : Int)))
        rw [hparts, compare_neg, compare_natCast, Nat.compare_swap]
      · exact congrArg some (Int.compare_eq_lt.mpr
          ((Int.neg_neg_of_pos (hpositive hpos₁ hn₁)).trans (hpositive hpos₂ hn₂))).symm
      · exact congrArg some (Int.compare_eq_gt.mpr
          ((Int.neg_neg_of_pos (hpositive hpos₂ hn₂)).trans (hpositive hpos₁ hn₁))).symm
      · exact congrArg some (hparts.trans (compare_natCast _ _).symm)

section
variable {x y : Float} {a b : Int} (hx : Denotes x.toModel.unpack a) (hy : Denotes y.toModel.unpack b)
include hx hy

theorem lt_iff : x < y ↔ a < b := by
  show decide ((x.toModel.unpack.compare y.toModel.unpack == some .lt) = true) = true ↔ _
  rw [hx.compare_eq hy, ← Int.compare_eq_lt]
  simp

theorem beq_iff : (x == y) = true ↔ a = b := by
  show (x.toModel.unpack.compare y.toModel.unpack == some .eq) = true ↔ _
  rw [hx.compare_eq hy, ← Int.compare_eq_eq]
  simp

end

end Denotes

theorem denotes_exactInt {n : Int} (hn : n.natAbs < 2 ^ 53) : Denotes (exactInt n) n := by
  have hexact : ∀ (sign : Sign) (hpos : 0 < n.natAbs), Denotes (exactNat sign n.natAbs hpos) (sign.apply n.natAbs) := by
    intro sign hpos
    have hlog := log2_le hpos hn
    refine .finite sign _ (log2_shifted hpos hn) (by omega) (by omega) ?_
    rw [show ((n.natAbs.log2 : Int) - 52 + 52).toNat =
      n.natAbs.log2 by omega, Nat.shiftLeft_eq, Nat.mul_assoc, ← Nat.pow_add, Nat.sub_add_cancel hlog]
  rcases Int.lt_trichotomy n 0 with h | rfl | h
  · have hself : Sign.negative.apply n.natAbs = n := show -(n.natAbs : Int) = n by omega
    have hdenotes := hexact .negative (Int.natAbs_pos.mpr h.ne)
    rw [exactInt, dif_neg h.ne]
    simp only [if_pos h]
    rwa [hself] at hdenotes
  · exact .zero .positive
  · have hself : Sign.positive.apply n.natAbs = n := show (n.natAbs : Int) = n by omega
    have hdenotes := hexact .positive (Int.natAbs_pos.mpr h.ne')
    rw [exactInt, dif_neg h.ne']
    simp only [if_neg (Int.not_lt.mpr h.le)]
    rwa [hself] at hdenotes

/-! ## The nearest number of 53 bits -/

/-- The quotient to the nearest integer, a tie to the even one. -/
def nearestQuotient (n d : Nat) : Nat :=
  match compare (2 * (n % d)) d with
  | .lt => n / d
  | .eq => n / d + n / d % 2
  | .gt => n / d + 1

/-- The distance of the floats around a number. -/
def unit (n : Nat) : Nat := 2 ^ (n.log2 - 52)

/-- The float nearest to a natural number. -/
def nearestNat (n : Nat) : Nat := nearestQuotient n (unit n) * unit n

/-- The float nearest to a whole number. -/
def nearest : Int → Int
  | .ofNat n => nearestNat n
  | .negSucc n => -nearestNat (n + 1)

theorem nearestQuotient_bounds (n d : Nat) : n / d ≤ nearestQuotient n d ∧ nearestQuotient n d ≤ n / d + 1 := by
  unfold nearestQuotient
  split <;> omega

theorem nearestQuotient_mono {a b d : Nat} (h : a ≤ b) : nearestQuotient a d ≤ nearestQuotient b d := by
  rcases Nat.lt_or_eq_of_le (Nat.div_le_div_right (c := d) h) with hquotient | hquotient
  · exact (nearestQuotient_bounds a d).2.trans (Nat.le_trans hquotient (nearestQuotient_bounds b d).1)
  · -- Of one quotient the larger remainder is rounded no lower.
    have hremainder : a % d ≤ b % d := by
      have ha := Nat.div_add_mod a d
      have hb := Nat.div_add_mod b d
      rw [hquotient] at ha
      omega
    unfold nearestQuotient
    rw [hquotient]
    split <;> split <;> simp only [Nat.compare_eq_lt, Nat.compare_eq_eq, Nat.compare_eq_gt] at * <;> omega

theorem nearestQuotient_mul_right (n d : Nat) {k : Nat} (hk : 0 < k) :
    nearestQuotient (n * k) (d * k) = nearestQuotient n d := by
  have hcompare : compare (2 * (n * k % (d * k))) (d * k) = compare (2 * (n % d)) d := by
    rw [Nat.mul_mod_mul_right, ← Nat.mul_assoc]
    rcases Nat.lt_trichotomy (2 * (n % d)) d with h | h | h
    · rw [Nat.compare_eq_lt.mpr h, Nat.compare_eq_lt.mpr (Nat.mul_lt_mul_of_pos_right h hk)]
    · rw [Nat.compare_eq_eq.mpr h, h, Nat.compare_eq_eq.mpr rfl]
    · rw [Nat.compare_eq_gt.mpr h, Nat.compare_eq_gt.mpr (Nat.mul_lt_mul_of_pos_right h hk)]
  unfold nearestQuotient
  rw [hcompare, Nat.mul_div_mul_right n d hk]

theorem nearestNat_eq_self {n : Nat} (hn : n < 2 ^ 53) : nearestNat n = n := by
  have hlog : n.log2 - 52 = 0 := by
    rcases Nat.eq_zero_or_pos n with rfl | hpos
    · rfl
    · exact Nat.sub_eq_zero_of_le (log2_le hpos hn)
  have hquotient : nearestQuotient n 1 = n := by
    unfold nearestQuotient
    rw [Nat.mod_one, Nat.div_one]
    rfl
  rw [nearestNat, unit, hlog, Nat.pow_zero, hquotient, Nat.mul_one]

section
variable {n : Nat} (hn : 52 ≤ n.log2)
include hn

theorem nearestQuotient_unit_bounds : 2 ^ 52 ≤ nearestQuotient n (unit n) ∧ nearestQuotient n (unit n) ≤ 2 ^ 53 := by
  have hne : n ≠ 0 := by
    rintro rfl
    simp at hn
  obtain ⟨hlow, hhigh⟩ := nearestQuotient_bounds n (unit n)
  obtain ⟨hself, hnext⟩ := (Nat.log2_eq_iff hne).mp rfl
  have hunit : 0 < unit n := Nat.two_pow_pos _
  constructor
  · refine le_trans ((Nat.le_div_iff_mul_le hunit).mpr ?_) hlow
    rwa [unit, ← Nat.pow_add, Nat.add_sub_cancel' hn]
  · refine hhigh.trans ((Nat.div_lt_iff_lt_mul hunit).mpr ?_)
    rwa [unit, ← Nat.pow_add, show 53 + (n.log2 - 52) = n.log2 + 1 by omega]

end

theorem nearestNat_bounds {n : Nat} (hpos : 0 < n) : 2 ^ n.log2 ≤ nearestNat n ∧ nearestNat n ≤ 2 ^ (n.log2 + 1) := by
  by_cases hn : n < 2 ^ 53
  · rw [nearestNat_eq_self hn]
    exact ⟨Nat.log2_self_le hpos.ne', Nat.lt_log2_self.le⟩
  · have hlog : 52 ≤ n.log2 := (Nat.le_log2 hpos.ne').mpr (by omega)
    obtain ⟨hlow, hhigh⟩ := nearestQuotient_unit_bounds hlog
    have hpow : ∀ k, 2 ^ (52 + k) * unit n = 2 ^ (n.log2 + k) := fun k => by
      rw [unit, ← Nat.pow_add, show 52 + k + (n.log2 - 52) = n.log2 + k by omega]
    exact ⟨hpow 0 ▸ Nat.mul_le_mul_right _ hlow, hpow 1 ▸ Nat.mul_le_mul_right _ hhigh⟩

theorem nearestNat_mono {a b : Nat} (h : a ≤ b) : nearestNat a ≤ nearestNat b := by
  rcases Nat.eq_zero_or_pos a with rfl | ha
  · rw [nearestNat_eq_self (by decide)]
    exact Nat.zero_le _
  have hb : 0 < b := ha.trans_le h
  rcases Nat.lt_or_ge a.log2 b.log2 with hlog | hlog
  · calc nearestNat a ≤ 2 ^ (a.log2 + 1) := (nearestNat_bounds ha).2
      _ ≤ 2 ^ b.log2 := Nat.pow_le_pow_right (by decide) hlog
      _ ≤ nearestNat b := (nearestNat_bounds hb).1
  · have hsame : a.log2 = b.log2 := le_antisymm ((Nat.le_log2 hb.ne').mpr ((Nat.log2_self_le ha.ne').trans h)) hlog
    have hunit : unit a = unit b := by rw [unit, unit, hsame]
    rw [nearestNat, nearestNat, hunit]
    exact Nat.mul_le_mul_right _ (nearestQuotient_mono h)

theorem nearest_mono {a b : Int} (h : a ≤ b) : nearest a ≤ nearest b := by
  cases a with
  | ofNat a =>
    cases b with
    | ofNat b => exact Int.ofNat_le.mpr (nearestNat_mono (Int.ofNat_le.mp h))
    | negSucc b => exact absurd h (Int.not_le.mpr ((Int.negSucc_lt_zero b).trans_le (Int.natCast_nonneg a)))
  | negSucc a =>
    cases b with
    | ofNat b => exact (Int.neg_nonpos_of_nonneg (Int.natCast_nonneg _)).trans (Int.natCast_nonneg _)
    | negSucc b => exact Int.neg_le_neg (Int.ofNat_le.mpr (nearestNat_mono (by omega)))

/-! ## Conversion -/

/-- The mantissa and the two bits that are left of `n` when its last places below `d` are shifted out. -/
def shiftedOut (n d : Nat) : ExtendedMantissa := ⟨n / d, decide (d ≤ 2 * (n % d)), decide (n % d ≠ 0 ∧ 2 * (n % d) ≠ d)⟩

theorem roundedMantissa_shiftedOut {n d : Nat} (hd : 0 < d) :
    (shiftedOut n d).roundedMantissa = nearestQuotient n d := by
  unfold shiftedOut ExtendedMantissa.roundedMantissa nearestQuotient
  rcases Nat.lt_trichotomy (2 * (n % d)) d with h | h | h
  · rw [Nat.compare_eq_lt.mpr h, decide_eq_false (Nat.not_le.mpr h)]
    cases decide (n % d ≠ 0 ∧ 2 * (n % d) ≠ d) <;> rfl
  · rw [Nat.compare_eq_eq.mpr h, decide_eq_true h.ge, decide_eq_false (fun hne => hne.2 h)]
    rfl
  · have hne : n % d ≠ 0 := by omega
    rw [Nat.compare_eq_gt.mpr h, decide_eq_true h.le, decide_eq_true ⟨hne, h.ne'⟩]
    rfl

theorem shiftRightOne_shiftedOut {n d : Nat} (hd : 0 < d) : (shiftedOut n d).shiftRightOne = shiftedOut n (d * 2) := by
  have hmod : n % (d * 2) = n % d + d * (n / d % 2) := Nat.mod_mul
  have hrest := Nat.mod_lt n hd
  have hround : (n / d % 2 != 0) = decide (d * 2 ≤ 2 * (n % (d * 2))) := by
    rw [hmod, Bool.eq_iff_iff, bne_iff_ne, decide_eq_true_iff]
    rcases Nat.mod_two_eq_zero_or_one (n / d) with hbit | hbit <;> rw [hbit] <;> omega
  have hsticky : (decide (d ≤ 2 * (n % d)) || decide (n % d ≠ 0 ∧ 2 * (n % d) ≠ d)) =
      decide (n % (d * 2) ≠ 0 ∧ 2 * (n % (d * 2)) ≠ d * 2) := by
    rw [hmod, Bool.eq_iff_iff, Bool.or_eq_true, decide_eq_true_iff, decide_eq_true_iff, decide_eq_true_iff]
    rcases Nat.mod_two_eq_zero_or_one (n / d) with hbit | hbit <;> rw [hbit] <;> omega
  unfold shiftedOut ExtendedMantissa.shiftRightOne
  rw [hround, hsticky, Nat.div_div_eq_div_mul]

theorem shiftRight_shiftedOut (n k : Nat) : (⟨n, false, false⟩ : ExtendedMantissa) >>> k = shiftedOut n (2 ^ k) := by
  induction k with
  | zero =>
    simp [shiftedOut, Nat.mod_one]
    rfl
  | succ k ih =>
    show ((⟨n, false, false⟩ : ExtendedMantissa) >>> k).shiftRightOne = _
    rw [ih, shiftRightOne_shiftedOut (Nat.two_pow_pos k), Nat.pow_succ]

theorem shiftToTargetExponent_carry {e : Int} (he : -1074 ≤ e) :
    shiftToTargetExponent .binary64 (2 ^ 53) e .exact = (⟨2 ^ 52, false, false⟩, e + 1) := by
  have htarget : Format.binary64.targetExponent (totalExponent (2 ^ 53) e) = e + 1 := by
    simp only [Format.targetExponent, totalExponent, Format.mantissaBits, Format.minExponent, Nat.log2_two_pow]
    norm_num
    omega
  rw [shiftToTargetExponent, htarget, shiftToExponent, show (e + 1 - e).toNat = 1 by omega]
  rfl

section
variable {n : Nat} (hlog : 52 ≤ n.log2) (hword : n.log2 < 64)
include hlog hword

theorem shiftToTargetExponent_nearest : ∃ m e, shiftToTargetExponent .binary64 (nearestQuotient n (unit n))
    (n.log2 - 52) .exact = (⟨m, false, false⟩, e) ∧ m.log2 = 52 ∧ -52 ≤ e ∧ e ≤ 970 ∧
    m * 2 ^ (e + 52).toNat = nearestNat n * 2 ^ 52 := by
  obtain ⟨hlow, hhigh⟩ := nearestQuotient_unit_bounds hlog
  rcases Nat.lt_or_eq_of_le hhigh with hfull | hcarry
  · have hm : (nearestQuotient n (unit n)).log2 = 52 := (Nat.log2_eq_iff (by omega)).mpr ⟨hlow, hfull⟩
    refine ⟨_, _, shiftToTargetExponent_full hm (by omega), hm, by omega, by omega, ?_⟩
    rw [nearestNat, unit, Nat.mul_assoc, ← Nat.pow_add, show ((n.log2 : Int) - 52 + 52).toNat = n.log2 - 52 +
      52 by omega]
  · rw [hcarry]
    refine ⟨_, _, shiftToTargetExponent_carry (by omega), Nat.log2_two_pow, by omega, by omega, ?_⟩
    rw [nearestNat, hcarry, unit, ← Nat.pow_add, ← Nat.pow_add, ← Nat.pow_add]
    congr 1
    omega

theorem denotes_roundWithAccuracy (sign : Sign) :
    Denotes (roundWithAccuracy .binary64 sign (n * 2 ^ 53) (-53) .exact) (sign.apply (nearestNat n)) := by
  have hpos : 0 < n := by
    refine Nat.pos_of_ne_zero ?_
    rintro rfl
    simp at hlog
  have htarget : Format.binary64.targetExponent (totalExponent (n * 2 ^ 53) (-53)) = n.log2 - 52 := by
    simp only [Format.targetExponent, totalExponent, Format.mantissaBits, Format.minExponent, log2_mul_two_pow hpos]
    norm_num
    omega
  have hshift : shiftToTargetExponent .binary64 (n * 2 ^ 53) (-53) .exact =
      (shiftedOut (n * 2 ^ 53) (unit n * 2 ^ 53), (n.log2 : Int) - 52) := by
    rw [shiftToTargetExponent, htarget, shiftToExponent, show ((n.log2 : Int) - 52 - -53).toNat = n.log2 - 52 +
      53 by omega, unit, ← Nat.pow_add, ← shiftRight_shiftedOut]
    exact Prod.ext rfl (by push_cast; omega)
  have hrounded : (shiftedOut (n * 2 ^ 53) (unit n * 2 ^ 53)).roundedMantissa = nearestQuotient n (unit n) := by
    have hunit : 0 < unit n := Nat.two_pow_pos _
    rw [roundedMantissa_shiftedOut (Nat.mul_pos hunit (by decide)), nearestQuotient_mul_right n (unit n) (by decide)]
  obtain ⟨m, e, hagain, hm, hlow, hhigh, hvalue⟩ := shiftToTargetExponent_nearest hlog hword
  have hmantissa : m ≠ 0 := by
    rintro rfl
    cases hm
  have hfinite : roundWithAccuracy .binary64 sign (n * 2 ^ 53) (-53) .exact =
      .finite sign m e (Nat.pos_of_ne_zero hmantissa) := by
    simp only [roundWithAccuracy, hshift, hrounded, hagain]
    exact dif_neg hmantissa
  rw [hfinite]
  exact .finite sign _ hm hlow hhigh hvalue

end

/-- The float of a natural number denotes the float nearest to it. -/
theorem denotes_ofNat {n : Nat} (hn : n < 2 ^ 64) : Denotes (Float.ofNat n).toModel.unpack (nearestNat n) := by
  by_cases hsmall : n < 2 ^ 53
  · have hinteger : (n : Int).natAbs < 2 ^ 53 := hsmall
    have hexact := denotes_exactInt hinteger
    rw [← unpack_ofInt hinteger] at hexact
    rw [nearestNat_eq_self hsmall]
    exact hexact
  · have hne : n ≠ 0 := by omega
    have hlog : 52 ≤ n.log2 := (Nat.le_log2 hne).mpr (by omega)
    have hword : n.log2 < 64 := (Nat.log2_lt hne).mpr hn
    have hrounded := denotes_roundWithAccuracy hlog hword .positive
    have hmodel : (Float.ofNat n).toModel = Float.Model.pack (UnpackedFloat.ofScientific .binary64 n 0) := by
      show (Float.ofScientific n false 0).toModel = _
      rw [Float.ofScientific, dif_neg fun h => hsmall h.1]
      rfl
    have hproduct : UnpackedFloat.ofScientific .binary64 n 0 = roundWithAccuracy .binary64 .positive (n * 2 ^ 53)
        (-53) .exact := by
      rw [UnpackedFloat.ofScientific, dif_neg hne, if_neg (by decide), if_neg (by norm_num), if_pos (by decide)]
      show roundWithAccuracy .binary64 .positive ((n <<< 53) * 1) (-53) .exact = _
      rw [Nat.shiftLeft_eq, Nat.mul_one]
    rw [hmodel, hproduct, hrounded.unpack_pack]
    exact hrounded

theorem denotes_nearest {n : Int} (hn : n.natAbs < 2 ^ 64) : Denotes (Float.ofInt n).toModel.unpack (nearest n) := by
  cases n with
  | ofNat n => exact denotes_ofNat hn
  | negSucc n =>
    have hnegated := (denotes_ofNat (show n + 1 < 2 ^ 64 from hn)).neg
    show Denotes (Float.Model.pack (Float.ofNat (n + 1)).toModel.unpack.neg).unpack _
    rw [hnegated.unpack_pack]
    exact hnegated

end ApexPaths.Double

namespace ApexPaths.Operator

/-- Literals whose floating numbers are integers are ordered as these. -/
theorem order?_of_denotes {left right : Literal} {x y : Float} {a b : Int} (hleft : numeric? left = some x)
    (hright : numeric? right = some y) (hx : Double.Denotes x.toModel.unpack a)
    (hy : Double.Denotes y.toModel.unpack b) : order? left right = some (compare a b) := by
  have hnumbers : order? left right = if x < y then some .lt else if y < x then some .gt else if x == y then some .eq
      else none := by
    unfold order?
    split
    · cases hleft
    · rw [hleft, hright]
      rfl
  rw [hnumbers]
  rcases Int.lt_trichotomy a b with h | rfl | h
  · rw [if_pos ((hx.lt_iff hy).mpr h), Int.compare_eq_lt.mpr h]
  · rw [if_neg (fun h => Int.lt_irrefl _ ((hx.lt_iff hy).mp h)),
      if_neg (fun h => Int.lt_irrefl _ ((hy.lt_iff hx).mp h)), if_pos ((hx.beq_iff hy).mpr rfl),
      Int.compare_eq_eq.mpr rfl]
  · rw [if_neg (fun h' => Int.lt_asymm h ((hx.lt_iff hy).mp h')), if_pos ((hy.lt_iff hx).mpr h),
      Int.compare_eq_gt.mpr h]

/-- Integers of at most 53 bits are ordered as such, although they are compared as floating numbers. -/
theorem order?_integer {a b : Int} (ha : a.natAbs < 2 ^ 53) (hb : b.natAbs < 2 ^ 53) :
    order? (.integer a) (.integer b) = some (compare a b) := by
  refine order?_of_denotes rfl rfl ?_ ?_
  · rw [Double.unpack_ofInt ha]
    exact Double.denotes_exactInt ha
  · rw [Double.unpack_ofInt hb]
    exact Double.denotes_exactInt hb

end ApexPaths.Operator
