import ZetaValues.Bernoulli.Polynomial
import ZetaValues.Proofs.Bernoulli.Recurrence
import ZetaValues.Proofs.DensePoly.Horner
import Mathlib.NumberTheory.BernoulliPolynomials

/-! # The computed polynomials are the Bernoulli polynomials

The coefficient of `x ^ i` in the `n`-th one is `C(n, i) B_{n-i}` (`coeff_polynomial`), so its value
is that of the Bernoulli polynomial over the fractions (`eval_polynomial`), whose laws then hold. -/

namespace ZetaValues.Bernoulli

theorem polynomial_upTo {n : ℕ} (hn : n < UInt32.size) :
    polynomial (upTo n) n =
      ⟨(List.range (n + 1)).map fun i => (n.choose i : ℚ) * bernoulli (n - i)⟩ := by
  unfold polynomial
  rw [upTo_eq_map hn, binomialEntries_eq]
  congr 1
  refine List.ext_getElem (by simp) fun i h1 h2 => ?_
  have hi : i ≤ n := by simpa [Nat.lt_succ_iff] using h2
  simp [List.getElem_reverse]

theorem coeff_polynomial {n i : ℕ} (hn : n < UInt32.size) (hi : i ≤ n) :
    (polynomial (upTo n) n).coeff i = (n.choose i : ℚ) * bernoulli (n - i) := by
  rw [polynomial_upTo hn, DensePoly.coeff, List.getD_eq_getElem _ _ (by simp; omega)]
  simp

/-- **The values of a Bernoulli polynomial.** -/
theorem eval_polynomial {n : ℕ} (hn : n < UInt32.size) (x : ℚ) :
    (polynomial (upTo n) n).eval x = (Polynomial.bernoulli n).eval x := by
  have hlen : (polynomial (upTo n) n).coeffs.length = n + 1 := length_polynomial (by simp)
  rw [DensePoly.eval_eq_sum, hlen, Polynomial.bernoulli_def, Polynomial.eval_finsetSum]
  refine Finset.sum_congr rfl fun i hi => ?_
  rw [coeff_polynomial hn (Nat.lt_succ_iff.mp (Finset.mem_range.mp hi)), Polynomial.eval_monomial,
    mul_comm (n.choose i : ℚ)]

/-- The step from `x` to `x + 1` adds one power. -/
theorem eval_polynomial_add_one {n : ℕ} (hn : n < UInt32.size) (x : ℚ) :
    (polynomial (upTo n) n).eval (x + 1) = (polynomial (upTo n) n).eval x + n * x ^ (n - 1) := by
  rw [eval_polynomial hn, eval_polynomial hn, add_comm x 1, Polynomial.bernoulli_eval_one_add]

/-! ### Accepted degrees -/

theorem bernoulliPolynomial_of_le {n : Int64} (h0 : 0 ≤ n.toInt) (h : n.toInt ≤ maxIndex) :
    bernoulliPolynomial n = .ok (polynomial (upTo n.toInt.toNat) n.toInt.toNat) := by
  rw [bernoulliPolynomial, Query.bernoulliPolynomial, Argument.n.index_of_le h0 h]
  rfl

/-! ### Reflection -/

theorem eval_polynomial_one_sub {n : ℕ} (hn : n < UInt32.size) (x : ℚ) :
    (polynomial (upTo n) n).eval (1 - x) = (-1) ^ n * (polynomial (upTo n) n).eval x := by
  rw [eval_polynomial hn, eval_polynomial hn, Polynomial.bernoulli_eval_one_sub]

/-- The value at 0 is the Bernoulli number. -/
theorem eval_polynomial_zero {n : ℕ} (hn : n < UInt32.size) :
    (polynomial (upTo n) n).eval 0 = bernoulli n := by
  rw [eval_polynomial hn, Polynomial.bernoulli_eval_zero]

/-- **The reflection of the Bernoulli polynomials**: they are even or odd about `1/2` as their
degree is, and so the value at 1 is the Bernoulli number up to sign. -/
theorem bernoulliPolynomial_reflection {n : Int64} (h0 : 0 ≤ n.toInt) (h : n.toInt ≤ maxIndex) :
    ∃ p b, bernoulliPolynomial n = .ok p ∧ bernoulliNumber n = .ok b ∧
      (∀ x, p.eval (1 - x) = (-1) ^ n.toInt.toNat * p.eval x) ∧
      p.eval 1 = (-1) ^ n.toInt.toNat * b := by
  have hlt := toNat_lt_size h
  refine ⟨_, _, bernoulliPolynomial_of_le h0 h, bernoulliNumber_of_le h0 h,
    eval_polynomial_one_sub hlt, ?_⟩
  have hone := eval_polynomial_one_sub hlt 0
  rwa [sub_zero, eval_polynomial_zero hlt] at hone

/-- The degree 1, whose number `-1/2` is the only odd one that does not vanish; and the largest odd
degree, where the value at `1/2` is its own negative. -/
theorem bernoulliPolynomial_reflection_odd :
    0 ≤ (1 : Int64).toInt ∧ (1 : Int64).toInt ≤ maxIndex ∧
      (∃ p, bernoulliPolynomial 1 = .ok p ∧ p.eval 1 = 1 / 2) ∧
      0 ≤ (16383 : Int64).toInt ∧ (16383 : Int64).toInt ≤ maxIndex ∧
      ∃ p, bernoulliPolynomial 16383 = .ok p ∧ p.eval (1 / 2) = 0 := by
  have h1 : (1 : Int64).toInt ≤ maxIndex := by decide
  have hmax : (16383 : Int64).toInt ≤ maxIndex := by decide
  have hodd : Odd (16383 : Int64).toInt.toNat := ⟨8191, rfl⟩
  obtain ⟨p, b, hp, hb, -, hone⟩ := bernoulliPolynomial_reflection (n := 1) (by decide) h1
  obtain ⟨q, -, hq, -, hreflect, -⟩ := bernoulliPolynomial_reflection (n := 16383) (by decide) hmax
  have hb1 : b = -1 / 2 := by
    rw [bernoulliNumber_of_le (by decide) h1] at hb
    exact (Except.ok.inj hb).symm.trans bernoulli_one
  have hhalf : q.eval (1 / 2) = -q.eval (1 / 2) := by
    have h := hreflect (1 / 2)
    rwa [hodd.neg_one_pow, neg_one_mul, sub_half] at h
  have hpow : (-1 : ℚ) ^ (1 : Int64).toInt.toNat = -1 := pow_one (-1)
  refine ⟨by decide, h1, ⟨p, hp, ?_⟩, by decide, hmax, q, hq, self_eq_neg.mp hhalf⟩
  rw [hone, hb1, hpow]
  norm_num

/-! ### The difference equation -/

/-- **The difference equation of the Bernoulli polynomials**: the step from `x` to `x + 1` adds
`n x ^ (n - 1)` to the value, which in degree 1 is 1 at every `x`, at 0 as well. -/
theorem bernoulliPolynomial_difference {n : Int64} (h1 : 1 ≤ n.toInt) (h : n.toInt ≤ maxIndex) :
    ∃ p, bernoulliPolynomial n = .ok p ∧
      ∀ x, p.eval (x + 1) - p.eval x = n.toInt * x ^ (n.toInt.toNat - 1) := by
  have hcast : (n.toInt.toNat : ℚ) = n.toInt := by
    exact_mod_cast Int.toNat_of_nonneg (by omega : 0 ≤ n.toInt)
  refine ⟨_, bernoulliPolynomial_of_le (by omega) h, fun x => ?_⟩
  rw [eval_polynomial_add_one (toNat_lt_size h), add_sub_cancel_left, hcast]

/-- The degree 1 at 0, where the power is `0 ^ 0`, and the largest degree at `-1`. -/
theorem bernoulliPolynomial_difference_ends :
    1 ≤ (1 : Int64).toInt ∧ (1 : Int64).toInt ≤ maxIndex ∧
      (∃ p, bernoulliPolynomial 1 = .ok p ∧ p.eval 1 - p.eval 0 = 1) ∧
      1 ≤ (16384 : Int64).toInt ∧ (16384 : Int64).toInt ≤ maxIndex ∧
      ∃ p, bernoulliPolynomial 16384 = .ok p ∧ p.eval 0 - p.eval (-1) = -16384 := by
  have h1 : 1 ≤ (1 : Int64).toInt := by decide
  have h1' : (1 : Int64).toInt ≤ maxIndex := by decide
  have hmax : 1 ≤ (16384 : Int64).toInt := by decide
  have hmax' : (16384 : Int64).toInt ≤ maxIndex := by decide
  obtain ⟨p, hp, hstep⟩ := bernoulliPolynomial_difference h1 h1'
  obtain ⟨q, hq, hlast⟩ := bernoulliPolynomial_difference hmax hmax'
  have hone : (1 : Int64).toInt = 1 := rfl
  have hdegree : (16384 : Int64).toInt = 16384 := rfl
  have hodd : Odd ((16384 : ℤ).toNat - 1) := ⟨8191, rfl⟩
  refine ⟨h1, h1', ⟨p, hp, ?_⟩, hmax, hmax', q, hq, ?_⟩
  · have h := hstep 0
    rw [zero_add, hone] at h
    rw [h]
    norm_num
  · have h := hlast (-1)
    rw [neg_add_cancel, hdegree, hodd.neg_one_pow] at h
    rw [h]
    norm_num

end ZetaValues.Bernoulli
