import ZetaValues.Proofs.Bernoulli.Polynomial
import ZetaValues.Proofs.DensePoly.Shift
import Mathlib.Algebra.Polynomial.HasseDeriv

/-! # The Bernoulli polynomials are an Appell sequence

The list computed for the degree `n` stands for the Bernoulli polynomial `B_n`
(`toPolynomial_polynomial`), whose derivative is `n B_{n-1}`. By induction its `i`-th derivative is
`n (n - 1) ⋯ (n - i + 1) B_{n-i}`, and after division by `i!` the coefficient of `x ^ i` in
`B_n(x + y)` is `C(n, i) B_{n-i}(y)` (`coeff_shift_polynomial`). -/

namespace ZetaValues.Bernoulli

open DensePoly

/-- The polynomial whose degree is lower by `i`. -/
theorem bernoulliPolynomial_sub_of_le {n i : Int64} (h0 : 0 ≤ i.toInt) (hi : i.toInt ≤ n.toInt)
    (h : n.toInt ≤ maxIndex) :
    bernoulliPolynomial (n - i) =
      .ok (polynomial (upTo (n.toInt.toNat - i.toInt.toNat)) (n.toInt.toNat - i.toInt.toNat)) := by
  have hsub : (n - i).toInt = n.toInt - i.toInt := Argument.toInt_sub_of_le h0 hi
  have hnat : (n - i).toInt.toNat = n.toInt.toNat - i.toInt.toNat := by omega
  rw [bernoulliPolynomial_of_le (by omega) (by omega), hnat]

theorem toPolynomial_polynomial {n : ℕ} (hn : n < UInt32.size) :
    (polynomial (upTo n) n).toPolynomial = Polynomial.bernoulli n := by
  refine Polynomial.funext fun x => ?_
  rw [eval_toPolynomial, eval_polynomial hn]

/-! ### Derivatives -/

/-- The derivative has lost the constant coefficient, and the polynomial below has one coefficient
fewer from the start. -/
theorem derivative_polynomial {n : ℕ} (h1 : 1 ≤ n) (hn : n < UInt32.size) :
    (polynomial (upTo n) n).derivative = (polynomial (upTo (n - 1)) (n - 1)).scale n := by
  refine ext_of_length ?_ ?_
  · rw [length_derivative, length_scale, length_polynomial (by simp), length_polynomial (by simp)]
    omega
  · rw [toPolynomial_derivative, toPolynomial_scale, toPolynomial_polynomial hn,
      toPolynomial_polynomial (by omega), Polynomial.derivative_bernoulli, map_natCast]

theorem iterate_derivative_bernoulli (n i : ℕ) :
    Polynomial.derivative^[i] (Polynomial.bernoulli n) =
      (n.descFactorial i : Polynomial ℚ) * Polynomial.bernoulli (n - i) := by
  induction i with
  | zero => simp
  | succ i ih =>
    rw [Function.iterate_succ_apply', ih, Polynomial.derivative_natCast_mul,
      Polynomial.derivative_bernoulli, Nat.descFactorial_succ, Nat.sub_sub]
    push_cast
    ring

/-- Division by `i!` turns the falling product into a binomial coefficient. -/
theorem hasseDeriv_bernoulli (n i : ℕ) :
    Polynomial.hasseDeriv i (Polynomial.bernoulli n) =
      (n.choose i : Polynomial ℚ) * Polynomial.bernoulli (n - i) := by
  have hfact : (i.factorial : Polynomial ℚ) ≠ 0 := Nat.cast_ne_zero.mpr i.factorial_ne_zero
  refine mul_left_cancel₀ hfact ?_
  rw [← mul_assoc, ← Nat.cast_mul, ← Nat.descFactorial_eq_factorial_mul_choose,
    ← iterate_derivative_bernoulli, ← Polynomial.factorial_smul_hasseDeriv, ← nsmul_eq_mul]
  rfl

/-- **The derivative laws**, as equalities of lists: the derivative of a Bernoulli polynomial is its
degree times the one before it, and shifting any polynomial commutes with taking its derivative. -/
theorem derivative_laws :
    (∀ n : Int64, 1 ≤ n.toInt → n.toInt ≤ maxIndex →
      ∃ p q, bernoulliPolynomial n = .ok p ∧ bernoulliPolynomial (n - 1) = .ok q ∧
        p.derivative = q.scale n.toInt) ∧
      ∀ (p : DensePoly) (a : ℚ), (p.shift a).derivative = p.derivative.shift a := by
  refine ⟨fun n h1 h => ?_, fun p a => derivative_shift a p⟩
  have hcast : (n.toInt.toNat : ℚ) = n.toInt := by
    exact_mod_cast Int.toNat_of_nonneg (by omega : 0 ≤ n.toInt)
  refine ⟨_, _, bernoulliPolynomial_of_le (by omega) h,
    bernoulliPolynomial_sub_of_le (by decide) h1 h, ?_⟩
  rw [← hcast]
  exact derivative_polynomial (by omega) (toNat_lt_size h)

/-- The degree 1, whose derivative is the constant 1; the largest degree; and the polynomial without
coefficients. -/
theorem derivative_laws_ends :
    1 ≤ (1 : Int64).toInt ∧ (1 : Int64).toInt ≤ maxIndex ∧
      (∃ p, bernoulliPolynomial 1 = .ok p ∧ p.derivative = ⟨[1]⟩) ∧
      1 ≤ (16384 : Int64).toInt ∧ (16384 : Int64).toInt ≤ maxIndex ∧
      (∃ p q, bernoulliPolynomial 16384 = .ok p ∧ bernoulliPolynomial 16383 = .ok q ∧
        p.derivative = q.scale 16384) ∧
      (DensePoly.zero.shift 5).derivative = DensePoly.zero := by
  have h1' : (1 : Int64).toInt ≤ maxIndex := by decide
  have hmax' : (16384 : Int64).toInt ≤ maxIndex := by decide
  obtain ⟨hdegree, hshift⟩ := derivative_laws
  obtain ⟨p, b, hp, hb, hone⟩ := hdegree 1 (by decide) h1'
  obtain ⟨q, r, hq, hr, hlast⟩ := hdegree 16384 (by decide) hmax'
  have hb1 : b = ⟨[1]⟩ := by
    have hok : bernoulliPolynomial (1 - 1) = .ok ⟨[1]⟩ := by decide +kernel
    exact Except.ok.inj (hb.symm.trans hok)
  refine ⟨by decide, h1', ⟨p, hp, ?_⟩, by decide, hmax', ⟨q, r, hq, hr, hlast⟩, ?_⟩
  · have hint : (1 : Int64).toInt = 1 := rfl
    rw [hone, hb1, hint]
    simp [scale]
  · rw [hshift]
    rfl

/-! ### The addition theorem -/

theorem coeff_shift_polynomial {n : ℕ} (hn : n < UInt32.size) (i : ℕ) (y : ℚ) :
    ((polynomial (upTo n) n).shift y).coeff i =
      n.choose i * (polynomial (upTo (n - i)) (n - i)).eval y := by
  have hi : n - i < UInt32.size := by omega
  rw [← coeff_toPolynomial, toPolynomial_shift, Polynomial.taylor_coeff,
    toPolynomial_polynomial hn, hasseDeriv_bernoulli, Polynomial.eval_natCast_mul,
    eval_polynomial hi]

/-- **The addition theorem**: the coefficients of a shifted Bernoulli polynomial are values of the
Bernoulli polynomials up to its degree, times binomial coefficients. -/
theorem bernoulliPolynomial_shift {n : Int64} (h0 : 0 ≤ n.toInt) (h : n.toInt ≤ maxIndex) (y : ℚ) :
    ∃ p, bernoulliPolynomial n = .ok p ∧ (p.shift y).coeffs.length = n.toInt.toNat + 1 ∧
      ∀ i : Int64, 0 ≤ i.toInt → i.toInt ≤ n.toInt →
        ∃ q, bernoulliPolynomial (n - i) = .ok q ∧
          (p.shift y).coeff i.toInt.toNat =
            (binomial n.toInt.toNat i.toInt.toNat : ℚ) * q.eval y := by
  refine ⟨_, bernoulliPolynomial_of_le h0 h, ?_, fun i hi hin => ?_⟩
  · rw [length_shift, length_polynomial (by simp)]
  · refine ⟨_, bernoulliPolynomial_sub_of_le hi hin h, ?_⟩
    rw [coeff_shift_polynomial (toNat_lt_size h), binomial_eq_choose]

/-- The second highest coefficient at the largest degree, which is `16384` times the value `1/2` of
the polynomial of degree 1 at 1. -/
theorem bernoulliPolynomial_shift_largest :
    0 ≤ (16384 : Int64).toInt ∧ (16384 : Int64).toInt ≤ maxIndex ∧
      0 ≤ (16383 : Int64).toInt ∧ (16383 : Int64).toInt ≤ (16384 : Int64).toInt ∧
      ∃ p, bernoulliPolynomial 16384 = .ok p ∧ (p.shift 1).coeffs.length = 16385 ∧
        (p.shift 1).coeff 16383 = 8192 := by
  have hmax : (16384 : Int64).toInt ≤ maxIndex := by decide
  have hle : (16383 : Int64).toInt ≤ (16384 : Int64).toInt := by decide
  obtain ⟨p, hp, hlen, hcoeff⟩ := bernoulliPolynomial_shift (n := 16384) (by decide) hmax 1
  obtain ⟨q, hq, hvalue⟩ := hcoeff 16383 (by decide) hle
  have hq1 : q = ⟨[-1 / 2, 1]⟩ := by
    have hok : bernoulliPolynomial (16384 - 16383) = .ok ⟨[-1 / 2, 1]⟩ := by decide +kernel
    exact Except.ok.inj (hq.symm.trans hok)
  have hbinomial : binomial 16384 16383 = 16384 := by
    rw [binomial_eq_choose]
    exact Nat.choose_succ_self_right 16383
  refine ⟨by decide, hmax, by decide, hle, p, hp, hlen, hvalue.trans ?_⟩
  show (binomial 16384 16383 : ℚ) * q.eval 1 = 8192
  rw [hbinomial, hq1, eval_cons, eval_cons, eval_nil]
  norm_num

end ZetaValues.Bernoulli
