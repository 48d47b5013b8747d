import ZetaValues.Bernoulli.TwistedSum
import ZetaValues.Proofs.Bernoulli.Polynomial
import ZetaValues.Proofs.IntervalSums

/-! # Twisted sums by values of Bernoulli polynomials

The rescaled polynomial at `N y` is `N ^ k` times the polynomial at `y` (`eval_rescale_mul`), so the
sum over integers that is divided by `N` once is `N ^ (k - 1) ∑ χ(a) B_k(a / N)`, for the polynomial
that is computed (`twistedSum_eq_sum`) and for the Bernoulli polynomial (`twistedSum_eq`). -/

namespace ZetaValues.Bernoulli

theorem foldr_rescale_snd (N : ℚ) (cs : List ℚ) :
    (cs.foldr (fun c (coeffs, power) => (c * power :: coeffs, power * N)) ([], 1)).2 =
      N ^ cs.length := by
  induction cs with
  | nil => exact (pow_zero N).symm
  | cons c cs ih => rw [List.foldr_cons, List.length_cons, pow_succ, ← ih]

/-- The running power has one factor `N` more than the degree when the last coefficient is read. -/
theorem eval_rescale_mul (p : DensePoly) (N y : ℚ) :
    (rescale p N).eval (N * y) * N = N ^ p.coeffs.length * p.eval y := by
  obtain ⟨cs⟩ := p
  induction cs with
  | nil => simp [rescale]
  | cons c cs ih =>
    have hstep : rescale ⟨c :: cs⟩ N = ⟨c * N ^ cs.length :: (rescale ⟨cs⟩ N).coeffs⟩ := by
      rw [← foldr_rescale_snd]; rfl
    have hcons : (rescale ⟨c :: cs⟩ N).eval (N * y) =
        (rescale ⟨cs⟩ N).eval (N * y) * (N * y) + c * N ^ cs.length := by
      rw [hstep]; rfl
    calc (rescale ⟨c :: cs⟩ N).eval (N * y) * N
        = (rescale ⟨cs⟩ N).eval (N * y) * N * (N * y) + c * N ^ cs.length * N := by
          rw [hcons]; ring
      _ = N ^ (c :: cs).length * DensePoly.eval ⟨c :: cs⟩ y := by
          rw [ih, List.length_cons, DensePoly.eval_cons, pow_succ]; ring

theorem weightedSum_eq (p : DensePoly) (N : ℕ) (χ : ℕ → ℤ) :
    weightedSum p N χ = ∑ a ∈ Finset.Icc 1 N, (χ a : ℚ) * p.eval a := by
  have h := foldl_skip (fun a => χ a = 0) (fun a => (χ a : ℚ) * p.eval (a : ℚ))
    (fun a ha => by rw [ha, Int.cast_zero, zero_mul]) (List.range' 1 N) 0
  rw [zero_add] at h
  exact h

/-- A twisted sum only asks for values from 1 to the modulus. -/
theorem twistedSum_congr {numbers : List ℚ} {k N : ℕ} {χ ψ : ℕ → ℤ}
    (h : ∀ a ∈ Finset.Icc 1 N, χ a = ψ a) :
    twistedSum numbers k N χ = twistedSum numbers k N ψ := by
  rw [twistedSum, twistedSum, weightedSum_eq, weightedSum_eq,
    Finset.sum_congr rfl fun a ha => by rw [h a ha]]

/-- **One division is enough**: the sum over the integers is that of the values at `a / N`, whatever
list the polynomial comes from. -/
theorem twistedSum_eq_sum {numbers : List ℚ} {k N : ℕ} (h : k < numbers.length) (hN : N ≠ 0)
    (χ : ℕ → ℤ) :
    twistedSum numbers k N χ =
      (N : ℚ) ^ k / N *
        ∑ a ∈ Finset.Icc 1 N, (χ a : ℚ) * (polynomial numbers k).eval (a / N : ℚ) := by
  have hN' : (N : ℚ) ≠ 0 := Nat.cast_ne_zero.mpr hN
  have heval : ∀ a : ℕ, (rescale (polynomial numbers k) N).eval a =
      (N : ℚ) ^ k * (polynomial numbers k).eval (a / N : ℚ) := by
    intro a
    have hpoint := eval_rescale_mul (polynomial numbers k) N (a / N)
    rw [mul_div_cancel₀ _ hN', length_polynomial h, pow_succ, mul_right_comm] at hpoint
    exact mul_right_cancel₀ hN' hpoint
  rw [twistedSum, weightedSum_eq, Finset.mul_sum, Finset.sum_div]
  refine Finset.sum_congr rfl fun a _ => ?_
  rw [heval]
  ring

/-- **The defining formula** of the generalized Bernoulli numbers, with `N ^ (k - 1)` written as
`N ^ k / N`. -/
theorem twistedSum_eq {k N : ℕ} (hk : k < UInt32.size) (hN : N ≠ 0) (χ : ℕ → ℤ) :
    twistedSum (upTo k) k N χ =
      (N : ℚ) ^ k / N *
        ∑ a ∈ Finset.Icc 1 N, (χ a : ℚ) * (Polynomial.bernoulli k).eval (a / N : ℚ) := by
  rw [twistedSum_eq_sum (by simp) hN]
  simp only [eval_polynomial hk]

/-- **At weight 0** the twisted sum is the mean value of the function. -/
theorem twistedSum_weight_zero {N : ℕ} (hN : N ≠ 0) (χ : ℕ → ℤ) :
    twistedSum (upTo 0) 0 N χ = ((∑ a ∈ Finset.Icc 1 N, χ a : ℤ) : ℚ) / N := by
  rw [twistedSum_eq (by decide) hN, pow_zero, one_div_mul_eq_div, Int.cast_sum]
  simp only [Polynomial.bernoulli_zero, Polynomial.eval_one, mul_one]

/-! ### Accepted arguments -/

theorem ne_zero_of_one_le {N : UInt64} (h : 1 ≤ N.toNat) : N ≠ 0 := by
  rintro rfl
  exact absurd h (by decide)

theorem bernoulliForFunction_of_le {k : Int64} (h0 : 0 ≤ k.toInt) (h : k.toInt ≤ maxIndex)
    {N : UInt64} (hN : N ≠ 0) (χ : UInt64 → Int64) :
    bernoulliForFunction k N χ = .ok (twistedSum (upTo k.toInt.toNat) k.toInt.toNat N.toNat
      fun a => (χ (.ofNat a)).toInt) := by
  rw [bernoulliForFunction, Query.forFunction, Argument.k.index_of_le h0 h]
  show (Except.map _ (do let N ← Argument.modulus.positive N; _)) = _
  rw [Argument.modulus.positive_of_ne_zero hN]
  rfl

/-- **The number of a function is given by the defining formula** for every function, periodic or
not: `N ^ (k - 1)` times the sum of `χ(a) B_k(a / N)`, where the exponent `-1` of weight 0 stands
for the division by `N`. -/
theorem bernoulliForFunction_eq_sum {k : Int64} (h0 : 0 ≤ k.toInt) (hk : k.toInt ≤ maxIndex)
    {N : UInt64} (hN : 1 ≤ N.toNat) (χ : UInt64 → Int64) :
    ∃ p, bernoulliPolynomial k = .ok p ∧
      bernoulliForFunction k N χ = .ok ((N.toNat : ℚ) ^ (k.toInt - 1) *
        ∑ a ∈ Finset.Icc 1 N.toNat, ((χ (.ofNat a)).toInt : ℚ) * p.eval (a / N.toNat : ℚ)) := by
  have hN' : (N.toNat : ℚ) ≠ 0 := Nat.cast_ne_zero.mpr (by omega)
  have hpow : (N.toNat : ℚ) ^ (k.toInt - 1) = (N.toNat : ℚ) ^ k.toInt.toNat / N.toNat := by
    rw [zpow_sub_one₀ hN', ← div_eq_mul_inv, ← zpow_natCast, Int.toNat_of_nonneg h0]
  refine ⟨_, bernoulliPolynomial_of_le h0 hk, ?_⟩
  rw [bernoulliForFunction_of_le h0 hk (ne_zero_of_one_le hN), hpow,
    twistedSum_eq_sum (by simp) (by omega)]

/-- Weight 0 and the largest modulus, for a function that wraps around to negative values. -/
theorem bernoulliForFunction_eq_sum_largest :
    0 ≤ (0 : Int64).toInt ∧ (0 : Int64).toInt ≤ maxIndex ∧
      1 ≤ (18446744073709551615 : UInt64).toNat ∧
      ∃ p, bernoulliPolynomial 0 = .ok p ∧
        bernoulliForFunction 0 18446744073709551615 UInt64.toInt64 =
          .ok (18446744073709551615 ^ (-1 : ℤ) * ∑ a ∈ Finset.Icc 1 18446744073709551615,
            ((UInt64.ofNat a).toInt64.toInt : ℚ) * p.eval (a / 18446744073709551615 : ℚ)) := by
  have h0 : 0 ≤ (0 : Int64).toInt := by decide
  have hk : (0 : Int64).toInt ≤ maxIndex := by decide
  have hN : 1 ≤ (18446744073709551615 : UInt64).toNat := by decide
  exact ⟨h0, hk, hN, bernoulliForFunction_eq_sum h0 hk hN UInt64.toInt64⟩

/-! ### Reflection -/

/-- **A function whose sign under reflection is not `(-1) ^ k`** has twisted sum zero, if it
vanishes at both ends. -/
theorem twistedSum_eq_zero {k N : ℕ} (hk : k < UInt32.size) (hN : N ≠ 0) {χ : ℕ → ℤ} {s : ℤ}
    (h0 : χ 0 = 0) (hs : ∀ a ≤ N, χ (N - a) = s * χ a) (hsk : s * (-1) ^ k = -1) :
    twistedSum (upTo k) k N χ = 0 := by
  have hN' : (N : ℚ) ≠ 0 := Nat.cast_ne_zero.mpr hN
  set term : ℕ → ℚ := fun a => (χ a : ℚ) * (Polynomial.bernoulli k).eval (a / N : ℚ) with hterm
  -- the term at 0 vanishes, and with it the range is its own reflection
  have hsum : ∑ a ∈ Finset.Icc 1 N, term a = ∑ a ∈ Finset.range (N + 1), term a :=
    sum_Icc_one_eq (by simp only [hterm, h0, Int.cast_zero, zero_mul]) N
  have hflip : ∀ a ∈ Finset.range (N + 1), term (N - a) = -term a := by
    intro a ha
    have haN : a ≤ N := Nat.lt_succ_iff.mp (Finset.mem_range.mp ha)
    have hsub : ((N - a : ℕ) : ℚ) / N = 1 - a / N := by
      rw [Nat.cast_sub haN, sub_div, div_self hN']
    have hsk' : (s : ℚ) * (-1) ^ k = -1 := by exact_mod_cast hsk
    simp only [hterm, hs a haN, hsub, Polynomial.bernoulli_eval_one_sub]
    push_cast
    linear_combination (χ a * (Polynomial.bernoulli k).eval (a / N : ℚ)) * hsk'
  have hneg : ∑ a ∈ Finset.range (N + 1), term a = -∑ a ∈ Finset.range (N + 1), term a := by
    conv_lhs => rw [← Finset.sum_flip]
    rw [Finset.sum_congr rfl hflip, Finset.sum_neg_distrib]
  rw [twistedSum_eq hk hN, hsum, self_eq_neg.mp hneg, mul_zero]

end ZetaValues.Bernoulli
