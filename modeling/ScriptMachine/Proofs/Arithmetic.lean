/-
# Integer arithmetic is exact

An operator on two integers gives the value that the operation has on whole numbers, or a fault: of
overflow if the value has no 64-bit integer, and of division by zero.

For sums, differences and products that is how they are defined.  A quotient fits unless it is that of
the least integer by -1, and the remainder is refused along with it although it would be 0.  A power is
computed by repeated squaring, and there a product on the way may not fit.  It has to be shown that
then the power itself does not fit: each product but the last is followed by another one, which makes
the value larger still, and no square is exactly 2^63, the one value that would fit with the other
sign.

* `Integer.raise?_eq_fit?`, `Integer.pow?_eq_fit?`: powers;
* `Number.Exactly`: a value, or overflow;
* `Number.integers_exact`: all operators on integers, the negative and the absolute value.
-/
import Mathlib.Algebra.Order.Ring.Int
import ScriptMachine.Machine.Builtin.Procedure

namespace ScriptMachine

namespace Integer

/-! ## 1. Values that fit -/

/-- There is a 64-bit integer with this value. -/
def Fits (n : Int) : Prop := -2 ^ 63 ≤ n ∧ n < 2 ^ 63

instance (n : Int) : Decidable (Fits n) := inferInstanceAs (Decidable (_ ∧ _))

theorem fits_toInt (i : Int64) : Fits i.toInt := ⟨i.le_toInt, i.toInt_lt⟩

/-- A value that fits is that of one integer. -/
theorem fit?_eq_some_iff {n : Int} {i : Int64} : fit? n = some i ↔ i.toInt = n := by
  unfold fit?
  constructor
  · intro h
    split at h
    · next hn =>
      obtain rfl := Option.some.inj h
      exact Int64.toInt_ofInt_of_le hn.1 hn.2
    · cases h
  · rintro rfl
    rw [if_pos ⟨i.le_toInt, i.toInt_lt⟩, Int64.ofInt_toInt]

theorem fit?_toInt (i : Int64) : fit? i.toInt = some i := fit?_eq_some_iff.2 rfl

theorem fit?_eq_none_iff {n : Int} : fit? n = none ↔ ¬ Fits n := by
  unfold fit?
  split
  · next hn => exact ⟨nofun, fun h => (h hn).elim⟩
  · next hn => exact ⟨fun _ => hn, fun _ => rfl⟩

theorem fits_iff_natAbs {n : Int} : Fits n ↔ n.natAbs < 2 ^ 63 ∨ n = -2 ^ 63 := by
  unfold Fits
  omega

/-- A value beyond 2^63 does not fit with either sign. -/
theorem not_fits_of_lt {n : Int} (h : 2 ^ 63 < n.natAbs) : ¬ Fits n := by
  rw [fits_iff_natAbs]
  omega

/-! ## 2. Powers -/

/-- Twice a value that does not fit, or more of it, fits no better. -/
theorem not_fits_mul {n k : Int} (hn : ¬ Fits n) (hk : 2 ≤ k.natAbs) : ¬ Fits (n * k) := by
  rw [fits_iff_natAbs] at hn
  refine not_fits_of_lt ?_
  have hle : n.natAbs * 2 ≤ n.natAbs * k.natAbs := Nat.mul_le_mul_left _ hk
  rw [Int.natAbs_mul]
  omega

/-- A square that does not fit is beyond 2^63, which is no square. -/
theorem lt_sq_of_not_fits {n : Int} (h : ¬ Fits (n * n)) : 2 ^ 63 < (n * n).natAbs := by
  rw [fits_iff_natAbs, Int.natAbs_mul] at h
  rw [Int.natAbs_mul]
  obtain ⟨k, hk⟩ : ∃ k, n.natAbs = k := ⟨_, rfl⟩
  rw [hk] at h ⊢
  have hge : 2 ^ 63 ≤ k * k := by omega
  -- 3037000500 is the least number whose square is at least 2^63
  have hk' : 3037000500 ≤ k := by
    by_contra hlt
    have : k * k ≤ 3037000499 * 3037000499 := Nat.mul_le_mul (by omega) (by omega)
    omega
  have : 3037000500 * 3037000500 ≤ k * k := Nat.mul_le_mul hk' hk'
  omega

/-- A power of a value beyond 2^63, times anything but 0, does not fit. -/
theorem not_fits_mul_pow {n k : Int} (hn : n ≠ 0) (hk : 2 ^ 63 < k.natAbs) {e : Nat} (he : e ≠ 0) :
    ¬ Fits (n * k ^ e) := by
  refine not_fits_of_lt ?_
  calc 2 ^ 63 < k.natAbs := hk
    _ ≤ k.natAbs ^ e := Nat.le_self_pow he _
    _ ≤ n.natAbs * k.natAbs ^ e := Nat.le_mul_of_pos_left _ (Int.natAbs_pos.2 hn)
    _ = (n * k ^ e).natAbs := by rw [Int.natAbs_mul, Int.natAbs_pow]

/-- The factor that an odd exponent gives up. -/
def oddFactor (n : Int) (e : Nat) : Int := if e % 2 = 1 then n else 1

theorem oddFactor_ne_zero {n : Int} (hn : n ≠ 0) (e : Nat) : oddFactor n e ≠ 0 := by
  unfold oddFactor
  split
  · exact hn
  · exact one_ne_zero

/-- The exponent is halved and the base squared. -/
theorem pow_eq_oddFactor_mul (n : Int) (e : Nat) : n ^ e = oddFactor n e * (n * n) ^ (e / 2) := by
  unfold oddFactor
  rw [← pow_two, ← pow_mul]
  split
  · rw [← pow_succ']
    congr 1
    omega
  · rw [one_mul]
    congr 1
    omega

theorem takeFactor?_eq_fit? (acc base : Int64) (e : Nat) :
    takeFactor? acc base e = fit? (acc.toInt * oddFactor base.toInt e) := by
  unfold takeFactor? oddFactor
  split
  · rfl
  · rw [mul_one, fit?_toInt]

/-- **Repeated squaring is exact**, for a base whose powers grow: a product on the way that does not
fit means that the power does not.  The induction is on the exponent, which every round halves. -/
theorem raise?_eq_fit? {acc base : Int64} (hacc : acc.toInt ≠ 0) (hbase : 2 ≤ base.toInt.natAbs)
    (e : Nat) : raise? acc base e = fit? (acc.toInt * base.toInt ^ e) := by
  induction e using Nat.strongRecOn generalizing acc base with
  | ind e ih =>
    rw [raise?]
    by_cases hzero : e = 0
    · rw [if_pos hzero, hzero, pow_zero, mul_one, fit?_toInt]
    by_cases hone : e = 1
    · rw [if_neg hzero, if_pos hone, hone, pow_one]
      rfl
    rw [if_neg hzero, if_neg hone, pow_eq_oddFactor_mul, ← mul_assoc, takeFactor?_eq_fit?]
    have hhalf : e / 2 ≠ 0 := by omega
    have hacc' : acc.toInt * oddFactor base.toInt e ≠ 0 :=
      mul_ne_zero hacc (oddFactor_ne_zero (by omega) e)
    have hsquare : 2 ≤ (base.toInt * base.toInt).natAbs := by
      rw [Int.natAbs_mul]
      exact hbase.trans (Nat.le_mul_self _)
    cases htaken : fit? (acc.toInt * oddFactor base.toInt e) with
    | none =>
      -- the square, to a power of at least one, is still to be multiplied
      have hgrows : 2 ≤ ((base.toInt * base.toInt) ^ (e / 2)).natAbs := by
        rw [Int.natAbs_pow]
        exact hsquare.trans (Nat.le_self_pow hhalf _)
      exact (fit?_eq_none_iff.2 (not_fits_mul (fit?_eq_none_iff.1 htaken) hgrows)).symm
    | some acc' =>
      have hvalue := fit?_eq_some_iff.1 htaken
      simp only [Option.bind_eq_bind, Option.bind_some, mul?]
      cases hsquared : fit? (base.toInt * base.toInt) with
      | none =>
        have hlarge := lt_sq_of_not_fits (fit?_eq_none_iff.1 hsquared)
        exact (fit?_eq_none_iff.2 (not_fits_mul_pow hacc' hlarge hhalf)).symm
      | some base' =>
        have hbase' := fit?_eq_some_iff.1 hsquared
        rw [Option.bind_some, ih (e / 2) (by omega) (hvalue ▸ hacc') (hbase' ▸ hsquare), hvalue,
          hbase']

/-- **Powers are exact** for every base and exponent. -/
theorem pow?_eq_fit? (base : Int64) (e : Nat) : pow? base e = fit? (base.toInt ^ e) := by
  unfold pow?
  split
  · next hsmall =>
    symm
    rw [fit?_eq_some_iff]
    rcases hsmall with rfl | rfl
    · split
      · next he => rw [he, pow_zero]; rfl
      · next he => exact (zero_pow he).symm
    · rw [ite_self]
      exact (one_pow e).symm
  · next hsmall =>
    split
    · next hminus =>
      subst hminus
      symm
      rw [fit?_eq_some_iff]
      split
      · next he => exact (Even.neg_one_pow (Nat.even_iff.2 he)).symm
      · next he => exact (Odd.neg_one_pow (Nat.odd_iff.2 (by omega))).symm
    · next hminus =>
      have hbase : 2 ≤ base.toInt.natAbs := by
        have h0 : base.toInt ≠ 0 := fun h => hsmall (.inl (Int64.toInt_inj.1 h))
        have h1 : base.toInt ≠ 1 := fun h => hsmall (.inr (Int64.toInt_inj.1 h))
        have h2 : base.toInt ≠ -1 := fun h => hminus (Int64.toInt_inj.1 h)
        omega
      split
      · next hlarge =>
        refine (fit?_eq_none_iff.2 (not_fits_of_lt ?_)).symm
        have hlimit : 64 ≤ e := le_trans (by decide) hlarge
        calc 2 ^ 63 < 2 ^ 64 := by decide
          _ ≤ base.toInt.natAbs ^ 64 := Nat.pow_le_pow_left hbase 64
          _ ≤ base.toInt.natAbs ^ e := Nat.pow_le_pow_right (by omega) hlimit
          _ = (base.toInt ^ e).natAbs := (Int.natAbs_pow _ _).symm
      · rw [raise?_eq_fit? (by decide) hbase]
        exact congrArg fit? (one_mul _)

/-! ## 3. Quotients and remainders -/

/-- The quotient and the remainder of a division toward zero. -/
structure Divides (a b q r : Int) : Prop where
  sum : a = q * b + r
  small : r.natAbs < b.natAbs
  sign : r = 0 ∨ r.sign = a.sign

/-- A remainder has the sign of the dividend. -/
theorem sign_tmod (a b : Int) : a.tmod b = 0 ∨ (a.tmod b).sign = a.sign := by
  rcases Int.lt_trichotomy a 0 with ha | rfl | ha
  · have hneg : 0 ≤ -a.tmod b := by
      rw [← Int.neg_tmod]
      exact Int.tmod_nonneg b (by omega)
    rcases hneg.lt_or_eq with hlt | heq
    · exact .inr (by rw [Int.sign_eq_neg_one_of_neg (by omega), Int.sign_eq_neg_one_of_neg ha])
    · exact .inl (by omega)
  · exact .inl (Int.zero_tmod b)
  · rcases (Int.tmod_nonneg b ha.le).lt_or_eq with hlt | heq
    · exact .inr (by rw [Int.sign_eq_one_of_pos hlt, Int.sign_eq_one_of_pos ha])
    · exact .inl heq.symm

theorem divides_tdiv {a b : Int} (hb : b ≠ 0) : Divides a b (a.tdiv b) (a.tmod b) where
  sum := by
    rw [Int.mul_comm]
    exact (Int.mul_tdiv_add_tmod a b).symm
  small := by
    rw [Int.natAbs_tmod]
    exact Nat.mod_lt _ (Int.natAbs_pos.2 hb)
  sign := sign_tmod a b

/-- The least integer by -1: the one division whose quotient does not fit. -/
def Overflows (a b : Int64) : Prop := a.toInt = -2 ^ 63 ∧ b.toInt = -1

theorem fits_tdiv_iff {a b : Int64} : Fits (a.toInt.tdiv b.toInt) ↔ ¬ Overflows a b := by
  have ha := fits_toInt a
  constructor
  · rintro h ⟨hmin, hminus⟩
    rw [hmin, hminus] at h
    exact absurd h (by decide)
  · intro h
    by_cases hone : b.toInt = 1
    · rw [hone, Int.tdiv_one]
      exact ha
    by_cases hminus : b.toInt = -1
    · have hmin : a.toInt ≠ -2 ^ 63 := fun hmin => h ⟨hmin, hminus⟩
      rw [hminus, Int.tdiv_neg, Int.tdiv_one]
      unfold Fits at ha ⊢
      omega
    -- by zero the quotient is zero, and by anything else at most half of the dividend
    rw [fits_iff_natAbs, Int.natAbs_tdiv]
    refine .inl ?_
    have hle : a.toInt.natAbs ≤ 2 ^ 63 := by
      unfold Fits at ha
      omega
    by_cases hzero : b.toInt = 0
    · rw [hzero]
      exact Nat.lt_of_le_of_lt (Nat.div_zero _).le (by decide)
    · calc a.toInt.natAbs / b.toInt.natAbs ≤ a.toInt.natAbs / 2 :=
            Nat.div_le_div_left (by omega) (by decide)
        _ < 2 ^ 63 := by omega

/-- A remainder is smaller than the divisor, so it fits. -/
theorem fits_tmod {a b : Int64} (hb : b.toInt ≠ 0) : Fits (a.toInt.tmod b.toInt) := by
  have hsmall := (divides_tdiv (a := a.toInt) hb).small
  have hdivisor := fits_toInt b
  rw [fits_iff_natAbs]
  unfold Fits at hdivisor
  omega

end Integer

namespace Number

open Integer

/-! ## 4. Operators -/

/-- The outcome of an operation with this value: the integer if there is one, and overflow if not. -/
def Exactly (n : Int) (symbol : String) (outcome : Except FaultKind NumericResult) : Prop :=
  (Fits n → ∃ i : Int64, i.toInt = n ∧ outcome = .ok (.int i)) ∧
  (¬ Fits n → outcome = .error (.integerOverflow symbol))

/-- Outcomes are exact if they come from a value by way of `fit?`. -/
theorem exactly_of_fit? {n : Int} {symbol : String} {outcome : Except FaultKind NumericResult}
    (hsome : ∀ i, fit? n = some i → outcome = .ok (.int i))
    (hnone : fit? n = none → outcome = .error (.integerOverflow symbol)) :
    Exactly n symbol outcome := by
  refine ⟨fun hfits => ?_, fun hnot => hnone (fit?_eq_none_iff.2 hnot)⟩
  obtain ⟨i, hi⟩ : ∃ i, fit? n = some i := by
    rw [← Option.ne_none_iff_exists']
    exact fun h => fit?_eq_none_iff.1 h hfits
  exact ⟨i, fit?_eq_some_iff.1 hi, hsome i hi⟩

theorem exactly_checked (op : BinaryOp) (n : Int) : Exactly n op.symbol (checked op (fit? n)) :=
  exactly_of_fit? (fun i hi => by rw [hi]; rfl) fun hnone => by rw [hnone]; rfl

/-- An exact outcome is overflow if and only if the value does not fit. -/
theorem Exactly.eq_error_iff {n : Int} {symbol : String} {outcome : Except FaultKind NumericResult}
    (h : Exactly n symbol outcome) : outcome = .error (.integerOverflow symbol) ↔ ¬ Fits n := by
  refine ⟨fun hover hfits => ?_, h.2⟩
  obtain ⟨i, -, hok⟩ := h.1 hfits
  rw [hok] at hover
  cases hover

theorem exactly_negate (a : Int64) : Exactly (-a.toInt) "-" (negate (.int a)) := by
  refine exactly_of_fit? (fun i hi => ?_) fun hnone => ?_
  · rw [negate, neg?, hi]
  · rw [negate, neg?, hnone]
    rfl

theorem abs?_eq_fit? (a : Int64) : abs? a = fit? |a.toInt| := by
  unfold abs?
  split
  · next hneg => rw [abs_of_neg hneg, neg?]
  · next hpos => rw [abs_of_nonneg (by omega), fit?_toInt]

theorem exactly_absolute (a : Int64) : Exactly |a.toInt| "abs" (absolute (.int a)) := by
  refine exactly_of_fit? (fun i hi => ?_) fun hnone => ?_
  · rw [absolute, abs?_eq_fit?, hi]
  · rw [absolute, abs?_eq_fit?, hnone]

/-- The least integer has no negative. -/
theorem fits_neg_iff {a : Int64} : Fits (-a.toInt) ↔ a.toInt ≠ -2 ^ 63 := by
  have ha := fits_toInt a
  unfold Fits at ha ⊢
  omega

/-- The least integer has no absolute value. -/
theorem fits_abs_iff {a : Int64} : Fits |a.toInt| ↔ a.toInt ≠ -2 ^ 63 := by
  have ha := fits_toInt a
  rw [Int.abs_eq_natAbs]
  unfold Fits at ha ⊢
  omega

/-- The absolute value as a program asks for it. -/
theorem run_abs (a : Int64) {m : Machine} {r : Ref} {v : Value} (hr : m.resolve r = .ok v)
    (hv : v.payload = .int a) :
    Procedure.abs.run [r] m = Effect.allocateOrRaise (absolute (.int a)) m := by
  have hvalue : Effect.value r m = .done m v := by
    simp only [Effect.value, Effect.readOrDefect, hr]
  have hnumber : Effect.expectNumber "abs" r m = .done m (.int a) := by
    change (Effect.value r m).bind _ = _
    rw [hvalue]
    simp only [Step.bind, hv, Payload.number?]
    rfl
  change (Effect.expectNumber "abs" r m).bind _ = _
  rw [hnumber]
  rfl

/-- The outcome of a division and of its remainder, by the three cases of their operands. -/
theorem evalBinary_division (a b : Int64) :
    (b.toInt = 0 ∧ evalBinary .div (.int a) (.int b) = .error .divisionByZero ∧
      evalBinary .mod (.int a) (.int b) = .error .divisionByZero) ∨
    (Overflows a b ∧ evalBinary .div (.int a) (.int b) = .error (.integerOverflow "/") ∧
      evalBinary .mod (.int a) (.int b) = .error (.integerOverflow "%")) ∨
    (b.toInt ≠ 0 ∧ ¬ Overflows a b ∧ ∃ q r : Int64,
      evalBinary .div (.int a) (.int b) = .ok (.int q) ∧
      evalBinary .mod (.int a) (.int b) = .ok (.int r) ∧
      Divides a.toInt b.toInt q.toInt r.toInt) := by
  by_cases hzero : b = 0
  · subst hzero
    exact .inl ⟨rfl, rfl, rfl⟩
  have hne : b.toInt ≠ 0 := fun h => hzero (Int64.toInt_inj.1 h)
  refine .inr ?_
  simp only [evalBinary, evalIntegers, if_neg hzero, mod?, div?]
  cases hquotient : fit? (a.toInt.tdiv b.toInt) with
  | none =>
    have hover : Overflows a b := by
      by_contra hnot
      exact fit?_eq_none_iff.1 hquotient (fits_tdiv_iff.2 hnot)
    exact .inl ⟨hover, rfl, rfl⟩
  | some q =>
    have hq := fit?_eq_some_iff.1 hquotient
    obtain ⟨r, hr, hmod⟩ := (exactly_checked .mod (a.toInt.tmod b.toInt)).1 (fits_tmod hne)
    refine .inr ⟨hne, fits_tdiv_iff.1 (hq ▸ fits_toInt q), q, r, rfl, hmod, ?_⟩
    rw [hq, hr]
    exact divides_tdiv hne

/-! ## 5. The laws -/

/-- The arithmetic of two integers, by their values. -/
structure IntegerLaws (a b : Int64) : Prop where
  add : Exactly (a.toInt + b.toInt) "+" (evalBinary .add (.int a) (.int b))
  sub : Exactly (a.toInt - b.toInt) "-" (evalBinary .sub (.int a) (.int b))
  mul : Exactly (a.toInt * b.toInt) "*" (evalBinary .mul (.int a) (.int b))
  pow : 0 ≤ b.toInt → Exactly (a.toInt ^ b.toInt.toNat) "**" (evalBinary .pow (.int a) (.int b))
  /-- A negative exponent leads to the reals, and to no fault. -/
  pow_neg : b.toInt < 0 → ∃ x, evalBinary .pow (.int a) (.int b) = .ok (.real x)
  div_zero_iff : evalBinary .div (.int a) (.int b) = .error .divisionByZero ↔ b.toInt = 0
  mod_zero_iff : evalBinary .mod (.int a) (.int b) = .error .divisionByZero ↔ b.toInt = 0
  div_overflow_iff : evalBinary .div (.int a) (.int b) = .error (.integerOverflow "/") ↔
    a.toInt = -2 ^ 63 ∧ b.toInt = -1
  mod_overflow_iff : evalBinary .mod (.int a) (.int b) = .error (.integerOverflow "%") ↔
    a.toInt = -2 ^ 63 ∧ b.toInt = -1
  /-- In all other cases there are a quotient and a remainder. -/
  divides : b.toInt ≠ 0 → ¬ (a.toInt = -2 ^ 63 ∧ b.toInt = -1) → ∃ q r : Int64,
    evalBinary .div (.int a) (.int b) = .ok (.int q) ∧
    evalBinary .mod (.int a) (.int b) = .ok (.int r) ∧
    a.toInt = q.toInt * b.toInt + r.toInt ∧ |r.toInt| < |b.toInt| ∧
    (r.toInt = 0 ∨ r.toInt.sign = a.toInt.sign)
  eq : evalBinary .eq (.int a) (.int b) = .ok (.bool (a.toInt = b.toInt))
  ne : evalBinary .ne (.int a) (.int b) = .ok (.bool (a.toInt ≠ b.toInt))
  lt : evalBinary .lt (.int a) (.int b) = .ok (.bool (a.toInt < b.toInt))
  le : evalBinary .le (.int a) (.int b) = .ok (.bool (a.toInt ≤ b.toInt))
  gt : evalBinary .gt (.int a) (.int b) = .ok (.bool (a.toInt > b.toInt))
  ge : evalBinary .ge (.int a) (.int b) = .ok (.bool (a.toInt ≥ b.toInt))
  neg : Exactly (-a.toInt) "-" (negate (.int a))
  neg_overflow_iff : negate (.int a) = .error (.integerOverflow "-") ↔ a.toInt = -2 ^ 63
  abs : Exactly |a.toInt| "abs" (absolute (.int a))
  abs_overflow_iff : absolute (.int a) = .error (.integerOverflow "abs") ↔ a.toInt = -2 ^ 63
  /-- What a program gets that asks for the absolute value: a new integer, or a fault. -/
  run_abs : ∀ (m : Machine) (r : Ref) (v : Value), m.resolve r = .ok v → v.payload = .int a →
    (a.toInt = -2 ^ 63 → Procedure.abs.run [r] m = .fault m (.integerOverflow "abs")) ∧
    (a.toInt ≠ -2 ^ 63 → ∃ i : Int64, i.toInt = |a.toInt| ∧
      Procedure.abs.run [r] m = Effect.allocate (.ofInt i) m)

/-- **Integer arithmetic is exact**: an operator on two integers gives what it gives on whole numbers,
as an integer if that fits in 64 bits and as the fault of overflow if it does not.  Division goes
toward zero; it is a fault by zero, and an overflow for the least integer by -1 alone.  Nothing wraps,
and every operator has an outcome for all operands. -/
theorem integers_exact (a b : Int64) : IntegerLaws a b where
  add := exactly_checked .add _
  sub := exactly_checked .sub _
  mul := exactly_checked .mul _
  pow := by
    intro hb
    simp only [evalBinary, evalIntegers, power, if_neg (Int.not_lt.2 hb), pow?_eq_fit?]
    exact exactly_checked .pow _
  pow_neg := by
    intro hb
    simp only [evalBinary, evalIntegers, power, if_pos hb]
    exact ⟨_, rfl⟩
  div_zero_iff := by
    rcases evalBinary_division a b with ⟨hb, hdiv, -⟩ | ⟨hover, hdiv, -⟩ | ⟨hb, -, q, r, hdiv, -⟩
    · simp [hb, hdiv]
    · simp [hover.2, hdiv]
    · simp [hb, hdiv]
  mod_zero_iff := by
    rcases evalBinary_division a b with ⟨hb, -, hmod⟩ | ⟨hover, -, hmod⟩ | ⟨hb, -, q, r, -, hmod, -⟩
    · simp [hb, hmod]
    · simp [hover.2, hmod]
    · simp [hb, hmod]
  div_overflow_iff := by
    rcases evalBinary_division a b with ⟨hb, hdiv, -⟩ | ⟨hover, hdiv, -⟩ | ⟨-, hnot, q, r, hdiv, -⟩
    · simp [hb, hdiv]
    · exact iff_of_true hdiv hover
    · exact iff_of_false (by simp [hdiv]) hnot
  mod_overflow_iff := by
    rcases evalBinary_division a b with ⟨hb, -, hmod⟩ | ⟨hover, -, hmod⟩ |
      ⟨-, hnot, q, r, -, hmod, -⟩
    · simp [hb, hmod]
    · exact iff_of_true hmod hover
    · exact iff_of_false (by simp [hmod]) hnot
  divides := by
    intro hb hnot
    rcases evalBinary_division a b with ⟨hzero, -⟩ | ⟨hover, -⟩ | ⟨-, -, q, r, hdiv, hmod, h⟩
    · exact absurd hzero hb
    · exact absurd hover hnot
    · refine ⟨q, r, hdiv, hmod, h.sum, ?_, h.sign⟩
      rw [Int.abs_eq_natAbs, Int.abs_eq_natAbs]
      exact Int.ofNat_lt.2 h.small
  eq := by simp [evalBinary, evalIntegers, Int64.toInt_inj, beq_eq_decide]
  ne := by simp [evalBinary, evalIntegers, Int64.toInt_inj, bne, beq_eq_decide]
  lt := by simp [evalBinary, evalIntegers, Int64.lt_iff_toInt_lt]
  le := by simp [evalBinary, evalIntegers, Int64.le_iff_toInt_le]
  gt := by simp [evalBinary, evalIntegers, Int64.lt_iff_toInt_lt]
  ge := by simp [evalBinary, evalIntegers, Int64.le_iff_toInt_le]
  neg := exactly_negate a
  neg_overflow_iff := by
    rw [(exactly_negate a).eq_error_iff, fits_neg_iff, not_not]
  abs := exactly_absolute a
  abs_overflow_iff := by
    rw [(exactly_absolute a).eq_error_iff, fits_abs_iff, not_not]
  run_abs := by
    intro m r v hr hv
    rw [Number.run_abs a hr hv]
    refine ⟨fun hmin => ?_, fun hmin => ?_⟩
    · rw [(exactly_absolute a).2 (by rw [fits_abs_iff, not_not]; exact hmin)]
      rfl
    · obtain ⟨i, hi, hok⟩ := (exactly_absolute a).1 (fits_abs_iff.2 hmin)
      refine ⟨i, hi, ?_⟩
      rw [hok]
      rfl

end Number

end ScriptMachine
