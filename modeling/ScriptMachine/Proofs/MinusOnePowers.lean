/-
# Powers of minus one

The powers of -1 go back and forth between -1 and 1, so they show whether a parity was lost on the
way.  As long as the exponent is not negative none is, however large it is: -1 is one of the bases
that are looked at before the exponent is cut to 32 bits.  Negative exponents lead to the reals,
where the machine's power function has the parity from the bits of the exponent.  Every exponent
that is an integer of at most 53 bits is exact as a real, and down to -2^31 the exponent is passed
on as it is.  Below that it is passed on as minus infinity, and its parity is gone.

* `Double.value`, `Double.IsWhole`: the number that a double stands for;
* `Double.isWhole_ofNat`, `Double.isWhole_ofInt`: small integers are exact as reals;
* `Double.IsWhole.isOdd_iff`: the parity of a whole number can be read off its bits;
* `Double.Alternates`: what is relied on of a power function;
* `Number.powers_of_minus_one`: the powers of -1 for all exponents.
-/
import Mathlib.Algebra.Order.Field.Rat
import Mathlib.Algebra.Ring.Int.Parity
import Mathlib.Tactic.FieldSimp
import ScriptMachine.Number.Operator

namespace ScriptMachine

namespace Double

variable {x : Double}

/-! ## 1. The number behind the bits -/

/-- The number that a finite double stands for. -/
def value (x : Double) : ℚ :=
  (if x.isNegative then -1 else 1) * x.significand * 2 ^ x.scale

/-- A double that is neither an infinity nor a NaN, and stands for the whole number `k`. -/
def IsWhole (x : Double) (k : Int) : Prop := x.exponentBits ≠ 0x7ff ∧ x.value = k

theorem exponentBits_eq (x : Double) : x.exponentBits = x.bits.toNat / 2 ^ 52 % 2 ^ 11 := by
  rw [exponentBits, UInt64.toNat_and, UInt64.toNat_shiftRight, Nat.shiftRight_eq_div_pow]
  exact Nat.and_two_pow_sub_one_eq_mod _ 11

theorem fractionBits_eq (x : Double) : x.fractionBits = x.bits.toNat % 2 ^ 52 := by
  rw [fractionBits, UInt64.toNat_and]
  exact Nat.and_two_pow_sub_one_eq_mod _ 52

theorem isNegative_iff (x : Double) : x.isNegative = true ↔ 2 ^ 63 ≤ x.bits.toNat := by
  have hlt := x.bits.toNat_lt
  rw [isNegative, bne_iff_ne, ne_eq, ← UInt64.toNat_inj, UInt64.toNat_shiftRight,
    Nat.shiftRight_eq_div_pow]
  change ¬ x.bits.toNat / 2 ^ 63 = 0 ↔ _
  omega

/-- Turning the sign bit changes no bit below it. -/
theorem toNat_bits_neg_mod (x : Double) : (-x).bits.toNat % 2 ^ 63 = x.bits.toNat % 2 ^ 63 := by
  change (x.bits ^^^ 0x8000000000000000).toNat % 2 ^ 63 = _
  rw [UInt64.toNat_xor, Nat.xor_mod_two_pow]
  exact Nat.xor_zero _

theorem isNegative_neg (x : Double) : (-x).isNegative = !x.isNegative := by
  have hlt := x.bits.toNat_lt
  have hhigh : (-x).bits.toNat / 2 ^ 63 = x.bits.toNat / 2 ^ 63 ^^^ 1 := by
    change (x.bits ^^^ 0x8000000000000000).toNat / 2 ^ 63 = _
    rw [UInt64.toNat_xor, Nat.xor_div_two_pow]
    rfl
  rw [Bool.eq_not_iff, ne_eq, Bool.eq_iff_iff, isNegative_iff, isNegative_iff]
  rcases Nat.lt_or_ge x.bits.toNat (2 ^ 63) with hpos | hneg
  · rw [Nat.div_eq_of_lt hpos] at hhigh
    have hone : (-x).bits.toNat / 2 ^ 63 = 1 := hhigh
    omega
  · have hdiv : x.bits.toNat / 2 ^ 63 = 1 := by omega
    rw [hdiv] at hhigh
    have hzero : (-x).bits.toNat / 2 ^ 63 = 0 := hhigh
    omega

theorem exponentBits_neg (x : Double) : (-x).exponentBits = x.exponentBits := by
  have hlow := x.toNat_bits_neg_mod
  rw [exponentBits_eq, exponentBits_eq]
  omega

theorem fractionBits_neg (x : Double) : (-x).fractionBits = x.fractionBits := by
  have hlow := x.toNat_bits_neg_mod
  rw [fractionBits_eq, fractionBits_eq]
  omega

theorem value_neg (x : Double) : (-x).value = -x.value := by
  have hsignificand : (-x).significand = x.significand := by
    rw [significand, significand, exponentBits_neg, fractionBits_neg]
  have hscale : (-x).scale = x.scale := by
    rw [scale, scale, exponentBits_neg]
  rw [value, value, hsignificand, hscale, isNegative_neg]
  cases x.isNegative <;> simp

theorem IsWhole.neg {k : Int} (h : x.IsWhole k) : (-x).IsWhole (-k) := by
  refine ⟨by rw [exponentBits_neg]; exact h.1, ?_⟩
  rw [value_neg, h.2, Int.cast_neg]

theorem IsWhole.isNaN {k : Int} (h : x.IsWhole k) : x.isNaN = false := by
  simp [Double.isNaN, h.1]

/-! ## 2. Integers as reals -/

/-- The significand of a number of at most 53 bits: its leading bit is moved to the 53rd place. -/
theorem significand_bounds {n : Nat} (hn : n ≠ 0) (hleading : n.log2 ≤ 52) :
    2 ^ 52 ≤ n * 2 ^ (52 - n.log2) ∧ n * 2 ^ (52 - n.log2) < 2 ^ 53 := by
  have hpos : 0 < 2 ^ (52 - n.log2) := Nat.two_pow_pos _
  constructor
  · calc 2 ^ 52 = 2 ^ n.log2 * 2 ^ (52 - n.log2) := by rw [← Nat.pow_add]; congr 1; omega
      _ ≤ n * 2 ^ (52 - n.log2) := Nat.mul_le_mul_right _ (Nat.log2_self_le hn)
  · calc n * 2 ^ (52 - n.log2) < 2 ^ (n.log2 + 1) * 2 ^ (52 - n.log2) :=
        Nat.mul_lt_mul_of_pos_right Nat.lt_log2_self hpos
      _ = 2 ^ 53 := by rw [← Nat.pow_add]; congr 1; omega

/-- **Natural numbers of at most 53 bits are exact as reals.** -/
theorem isWhole_ofNat {n : Nat} (h : n < 2 ^ 53) : (ofNat n).IsWhole n := by
  by_cases hn : n = 0
  · subst hn
    exact ⟨by decide, by simp [value, significand, exponentBits, fractionBits, ofNat]⟩
  have hleading : n.log2 ≤ 52 := Nat.lt_succ_iff.1 ((Nat.log2_lt hn).2 h)
  obtain ⟨hle, hlt⟩ := significand_bounds hn hleading
  generalize hm : n * 2 ^ (52 - n.log2) = m at hle hlt
  have hbits : (ofNat n).bits.toNat = (n.log2 + 1022) * 2 ^ 52 + m := by
    simp only [ofNat, if_neg hn, if_pos hleading, Nat.shiftLeft_eq, hm]
    exact UInt64.toNat_ofNat_of_lt (show _ < 2 ^ 64 by omega)
  have hexponent : (ofNat n).exponentBits = n.log2 + 1023 := by
    rw [exponentBits_eq, hbits]
    omega
  have hsignificand : (ofNat n).significand = m := by
    rw [significand, if_neg (by omega), fractionBits_eq, hbits]
    omega
  have hscale : (ofNat n).scale = (n.log2 : Int) - 52 := by
    rw [scale, if_neg (by omega), hexponent]
    omega
  have hpositive : (ofNat n).isNegative = false := by
    rw [← Bool.not_eq_true, isNegative_iff, hbits]
    omega
  refine ⟨by omega, ?_⟩
  rw [value, hpositive, hsignificand, hscale, ← hm]
  have hplaces : ((n.log2 : Int) - 52) = -((52 - n.log2 : Nat) : Int) := by omega
  rw [hplaces, zpow_neg, zpow_natCast]
  push_cast
  field_simp

/-- **Integers of at most 53 bits are exact as reals.** -/
theorem isWhole_ofInt {i : Int64} (h : i.toInt.natAbs < 2 ^ 53) : (ofInt i).IsWhole i.toInt := by
  have hwhole := isWhole_ofNat h
  unfold ofInt
  split
  · next hneg =>
    have hvalue : -(i.toInt.natAbs : Int) = i.toInt := by omega
    have hturned := hwhole.neg
    rwa [hvalue] at hturned
  · next hpos => rwa [Int.natAbs_of_nonneg (by omega)] at hwhole

/-! ## 3. Odd exponents -/

/-- What a whole number says about the bits of its double: with a scale of zero or less the
significand ends in as many zeros, and else the number is a multiple of the scale. -/
theorem IsWhole.natAbs_eq {k : Int} (h : x.IsWhole k) :
    k.natAbs * 2 ^ (-x.scale).toNat = x.significand * 2 ^ x.scale.toNat := by
  have hpower : (2 : ℚ) ^ x.scale * 2 ^ (-x.scale).toNat = 2 ^ x.scale.toNat := by
    rw [← zpow_natCast, ← zpow_natCast, ← zpow_add₀ two_ne_zero]
    congr 1
    omega
  have hwhole : (if x.isNegative then -1 else 1) * (x.significand : Int) * 2 ^ x.scale.toNat =
      k * 2 ^ (-x.scale).toNat := by
    have hvalue := h.2
    rw [value] at hvalue
    have hrational : (if x.isNegative then -1 else 1) * (x.significand : ℚ) * 2 ^ x.scale.toNat =
        k * 2 ^ (-x.scale).toNat := by
      rw [← hpower, ← mul_assoc, hvalue]
    exact_mod_cast hrational
  have habs := congrArg Int.natAbs hwhole
  rw [Int.natAbs_mul, Int.natAbs_mul, Int.natAbs_mul, Int.natAbs_pow, Int.natAbs_pow] at habs
  cases hsign : x.isNegative with
  | true => simpa [hsign] using habs.symm
  | false => simpa [hsign] using habs.symm

/-- The bits tell odd whole numbers from even ones. -/
theorem IsWhole.isOdd_iff {k : Int} (h : x.IsWhole k) : x.isOdd = true ↔ Odd k := by
  have hbits := h.natAbs_eq
  rw [← Int.natAbs_odd, Nat.odd_iff, isOdd]
  by_cases hscale : x.scale ≤ 0
  · -- shifting the zeros out leaves the number
    rw [Int.toNat_of_nonpos hscale, pow_zero, mul_one] at hbits
    have hshift : x.significand >>> (-x.scale).toNat = k.natAbs := by
      rw [Nat.shiftRight_eq_div_pow, ← hbits, Nat.mul_div_cancel _ (Nat.two_pow_pos _)]
    simp [hscale, hshift, Nat.shiftLeft_eq, hbits]
  · -- a multiple of two
    obtain ⟨places, hplaces⟩ : ∃ places, x.scale.toNat = places + 1 :=
      ⟨x.scale.toNat - 1, by omega⟩
    rw [Int.toNat_of_nonpos (by omega), pow_zero, mul_one, hplaces, pow_succ,
      ← mul_assoc] at hbits
    simp [hscale, hbits]

/-- What is relied on of a power function: with whole exponents, the powers of -1 are -1 for odd
exponents and 1 for even ones. -/
structure Alternates (pow : PowerFunction) : Prop where
  odd : ∀ y k, y.IsWhole k → Odd k → pow (-one) y = -one
  even : ∀ y k, y.IsWhole k → Even k → pow (-one) y = one

/-- The powers of -1, by the parity of the exponent.  Infinities are not odd. -/
def parityPower : PowerFunction := fun _ y => if y.isOdd then -one else one

theorem alternates_parityPower : Alternates parityPower where
  odd := fun _ _ hy hodd => if_pos (hy.isOdd_iff.2 hodd)
  even := fun _ _ hy heven => if_neg fun hodd => Int.not_odd_iff_even.2 heven (hy.isOdd_iff.1 hodd)

end Double

namespace Number

open Double (Alternates PowerFunction)

variable {pow : PowerFunction} {e e₁ e₂ : Int64}

/-! ## 4. Powers -/

/-- The power of the integer -1 with an integer exponent. -/
def minusOneTo (e : Int64) (pow : PowerFunction) : Except FaultKind NumericResult :=
  evalBinary .pow (.int (-1)) (.int e) pow

/-- Integers, for exponents that are not negative. -/
theorem minusOneTo_of_nonneg (h : 0 ≤ e.toInt) :
    minusOneTo e pow = .ok (.int (if Even e.toInt then 1 else -1)) := by
  have hparity : e.toInt.toNat % 2 = 0 ↔ Even e.toInt := by
    rw [Int.even_iff]
    omega
  have hpow : Integer.pow? (-1) e.toInt.toNat = some (if Even e.toInt then 1 else -1) := by
    rw [Integer.pow?, if_neg (by decide), if_pos rfl]
    simp only [hparity]
  simp only [minusOneTo, evalBinary, evalIntegers, power, if_neg (Int.not_lt.2 h), hpow, checked]

/-- Reals, for negative exponents, by the power function. -/
theorem minusOneTo_of_neg (h : e.toInt < 0) (hnumber : (negativeExponent e).isNaN = false) :
    minusOneTo e pow = .ok (.real (pow (-.one) (negativeExponent e))) := by
  have hbase : (-Double.one).isNaN = false := by decide
  simp only [minusOneTo, evalBinary, evalIntegers, power, if_pos h]
  rw [show Double.ofInt (-1) = -.one from rfl, Double.power, hbase, hnumber]
  rfl

/-- A negative exponent of 32 bits is passed on as it is, parity included. -/
theorem minusOneTo_of_neg_of_le (hpow : Alternates pow) (h : e.toInt < 0)
    (hle : -2 ^ 31 ≤ e.toInt) :
    minusOneTo e pow = .ok (.real (if Even e.toInt then .one else -.one)) := by
  have hexponent : negativeExponent e = .ofInt e := if_neg (by omega)
  have hwhole : (Double.ofInt e).IsWhole e.toInt := Double.isWhole_ofInt (by omega)
  rw [minusOneTo_of_neg h (by rw [hexponent]; exact hwhole.isNaN), hexponent]
  split
  · next heven => rw [hpow.even _ _ hwhole heven]
  · next hodd => rw [hpow.odd _ _ hwhole (Int.not_even_iff_odd.1 hodd)]

/-- Smaller exponents are passed on as minus infinity. -/
theorem minusOneTo_of_lt (h : e.toInt < -2 ^ 31) :
    minusOneTo e pow = .ok (.real (pow (-.one) (-.infinity))) := by
  have hexponent : negativeExponent e = -.infinity := if_pos (by omega)
  rw [minusOneTo_of_neg (by omega) (by rw [hexponent]; decide), hexponent]

/-- Both exponents are in the range where parity counts, and on the same side of zero. -/
def Comparable (e₁ e₂ : Int64) : Prop :=
  (0 ≤ e₁.toInt ∧ 0 ≤ e₂.toInt) ∨
    (-2 ^ 31 ≤ e₁.toInt ∧ e₁.toInt < 0 ∧ -2 ^ 31 ≤ e₂.toInt ∧ e₂.toInt < 0)

/-- **Powers of minus one** follow the parity of the exponent down to -2^31: they are the integers 1
and -1 for exponents that are not negative, and the reals 1 and -1 for negative ones.  So an odd and
an even exponent on the same side of zero have different powers.  Below -2^31 all exponents have the
same power, odd or even: that with minus infinity, whatever the power function makes of it. -/
theorem powers_of_minus_one (hpow : Alternates pow) :
    (∀ e : Int64, 0 ≤ e.toInt →
      minusOneTo e pow = .ok (.int (if Even e.toInt then 1 else -1))) ∧
    (∀ e : Int64, -2 ^ 31 ≤ e.toInt → e.toInt < 0 →
      minusOneTo e pow = .ok (.real (if Even e.toInt then .one else -.one))) ∧
    (∀ e₁ e₂ : Int64, Odd e₁.toInt → Even e₂.toInt → Comparable e₁ e₂ →
      minusOneTo e₁ pow ≠ minusOneTo e₂ pow) ∧
    (∀ e : Int64, e.toInt < -2 ^ 31 →
      minusOneTo e pow = .ok (.real (pow (-.one) (-.infinity)))) ∧
    ∀ e₁ e₂ : Int64, e₁.toInt < -2 ^ 31 → e₂.toInt < -2 ^ 31 →
      minusOneTo e₁ pow = minusOneTo e₂ pow := by
  refine ⟨fun e => minusOneTo_of_nonneg, fun e hle h => minusOneTo_of_neg_of_le hpow h hle,
    fun e₁ e₂ hodd heven hrange => ?_, fun e => minusOneTo_of_lt,
    fun e₁ e₂ h₁ h₂ => (minusOneTo_of_lt h₁).trans (minusOneTo_of_lt h₂).symm⟩
  have hnot : ¬ Even e₁.toInt := Int.not_even_iff_odd.2 hodd
  rcases hrange with ⟨h₁, h₂⟩ | ⟨hle₁, h₁, hle₂, h₂⟩
  · rw [minusOneTo_of_nonneg h₁, minusOneTo_of_nonneg h₂, if_neg hnot, if_pos heven]
    simp
  · rw [minusOneTo_of_neg_of_le hpow h₁ hle₁, minusOneTo_of_neg_of_le hpow h₂ hle₂, if_neg hnot,
      if_pos heven]
    intro hsame
    have hone : -Double.one = Double.one := by simpa using hsame
    exact absurd (congrArg Double.bits hone) (by decide)

/-- The power of -1 with the odd exponent -3 is -1, and with the odd exponent -2^31 - 1 it is 1, like
that with the even exponent -2^31 - 2. -/
theorem powers_of_minus_one_beyond :
    Alternates Double.parityPower ∧
    minusOneTo (-3) Double.parityPower = .ok (.real (-.one)) ∧
    minusOneTo (-2147483649) Double.parityPower = .ok (.real .one) ∧
    minusOneTo (-2147483649) Double.parityPower =
      minusOneTo (-2147483650) Double.parityPower := by
  obtain ⟨-, hreal, -, hbelow, hsame⟩ := powers_of_minus_one Double.alternates_parityPower
  have hodd : ¬ Even (-3 : Int64).toInt := by decide
  have hinfinity : Double.parityPower (-.one) (-.infinity) = .one := if_neg (by decide)
  refine ⟨Double.alternates_parityPower, ?_, ?_, hsame _ _ (by decide) (by decide)⟩
  · rw [hreal (-3) (by decide) (by decide), if_neg hodd]
  · rw [hbelow (-2147483649) (by decide), hinfinity]

end Number

end ScriptMachine
