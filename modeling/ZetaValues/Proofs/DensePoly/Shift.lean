import ZetaValues.DensePoly.Shift
import ZetaValues.Proofs.Binomial
import ZetaValues.Proofs.DensePoly.Polynomial
import Mathlib.Algebra.Polynomial.Taylor
import Mathlib.Tactic.Ring

/-! # The shifted polynomial is the substitution

The list `shiftedPower a c i` holds the coefficients of `c (x + a) ^ i`
(`toPolynomial_shiftedPower`). The sum has room for all of them, so one step adds this power
(`toPolynomial_shiftStep`), and the steps from index `k` on add `(x + a) ^ k q(x + a)` for the
polynomial `q` of the coefficients that are left (`toPolynomial_foldl_shiftStep`). At the end the sum
is `p(x + a)` (`toPolynomial_shift`), and the laws of the substitution are laws of lists, because the
length stays. -/

namespace ZetaValues.DensePoly

open Polynomial

variable (a c : ℚ)

/-! ### One power -/

theorem foldr_expandStep_snd (row : List ℕ) :
    (row.foldr (expandStep a c) ([], 1)).2 = a ^ row.length := by
  induction row with
  | nil => exact (pow_zero a).symm
  | cons b row ih => rw [List.foldr_cons, List.length_cons, pow_succ, ← ih]; rfl

theorem foldr_expandStep_fst (b : ℕ) (row : List ℕ) :
    ((b :: row).foldr (expandStep a c) ([], 1)).1 =
      c * (b * a ^ row.length) :: (row.foldr (expandStep a c) ([], 1)).1 := by
  rw [← foldr_expandStep_snd a c row]
  rfl

theorem length_foldr_expandStep (row : List ℕ) :
    (row.foldr (expandStep a c) ([], 1)).1.length = row.length := by
  induction row with
  | nil => rfl
  | cons b row ih => rw [foldr_expandStep_fst, List.length_cons, ih, List.length_cons]

/-- The entry `b` of a row is multiplied by one factor `a` for each entry after it. -/
theorem getD_foldr_expandStep (row : List ℕ) (j : ℕ) :
    (row.foldr (expandStep a c) ([], 1)).1.getD j 0 =
      c * (row.getD j 0 * a ^ (row.length - 1 - j)) := by
  induction row generalizing j with
  | nil => simp
  | cons b row ih =>
    rw [foldr_expandStep_fst]
    cases j with
    | zero => simp
    | succ j =>
      rw [List.getD_cons_succ, List.getD_cons_succ, ih, List.length_cons,
        show row.length + 1 - 1 - (j + 1) = row.length - 1 - j by omega]

theorem length_shiftedPower (i : ℕ) : (shiftedPower a c i).length = i + 1 := by
  rw [shiftedPower, length_foldr_expandStep, length_binomialEntries]

/-- **One power, expanded.** -/
theorem toPolynomial_shiftedPower (i : ℕ) :
    toPolynomial ⟨shiftedPower a c i⟩ = C c * (X + C a) ^ i := by
  ext j
  rw [coeff_toPolynomial, coeff_C_mul, coeff_X_add_C_pow, coeff, shiftedPower,
    getD_foldr_expandStep, getD_binomialEntries, length_binomialEntries, Nat.add_sub_cancel,
    mul_comm (i.choose j : ℚ)]

/-! ### The sum -/

theorem toPolynomial_addLow {sum terms : List ℚ} (h : terms.length ≤ sum.length) :
    toPolynomial ⟨addLow sum terms⟩ = toPolynomial ⟨sum⟩ + toPolynomial ⟨terms⟩ := by
  induction sum generalizing terms with
  | nil =>
    obtain rfl : terms = [] := List.eq_nil_of_length_eq_zero (Nat.le_zero.mp h)
    exact (add_zero _).symm
  | cons s sum ih =>
    cases terms with
    | nil => exact (add_zero _).symm
    | cons t terms =>
      rw [addLow, toPolynomial_cons, toPolynomial_cons, toPolynomial_cons,
        ih (Nat.le_of_succ_le_succ h), C_add]
      ring

/-- A vanishing coefficient is skipped, and its power would have added nothing. -/
theorem toPolynomial_shiftStep {sum : List ℚ} {i : ℕ} (h : i < sum.length) :
    toPolynomial ⟨shiftStep a sum (c, i)⟩ = toPolynomial ⟨sum⟩ + C c * (X + C a) ^ i := by
  simp only [shiftStep]
  split_ifs with hc
  · rw [hc, C_0, zero_mul, add_zero]
  · rw [toPolynomial_addLow (by rw [length_shiftedPower]; exact h), toPolynomial_shiftedPower]

/-- The steps from index `k` on, for a sum that has room for what they add. -/
theorem toPolynomial_foldl_shiftStep (cs : List ℚ) {sum : List ℚ} {k : ℕ}
    (h : k + cs.length ≤ sum.length) :
    toPolynomial ⟨(cs.zipIdx k).foldl (shiftStep a) sum⟩ =
      toPolynomial ⟨sum⟩ + (X + C a) ^ k * taylor a (toPolynomial ⟨cs⟩) := by
  induction cs generalizing sum k with
  | nil => simp
  | cons c cs ih =>
    rw [List.length_cons] at h
    have hstep : toPolynomial ⟨shiftStep a sum (c, k)⟩ =
        toPolynomial ⟨sum⟩ + C c * (X + C a) ^ k :=
      toPolynomial_shiftStep a c (by omega)
    have htail : taylor a (toPolynomial ⟨c :: cs⟩) =
        taylor a (toPolynomial ⟨cs⟩) * (X + C a) + C c := by
      rw [toPolynomial_cons, map_add, taylor_mul, taylor_X, taylor_C]
    rw [List.zipIdx_cons, List.foldl_cons, ih (by rw [length_shiftStep]; omega), hstep, htail]
    ring

/-- **Shifting is the substitution of `x + a` for `x`.** -/
theorem toPolynomial_shift (p : DensePoly) :
    (p.shift a).toPolynomial = taylor a p.toPolynomial := by
  rw [shift, toPolynomial_foldl_shiftStep a p.coeffs (by simp), toPolynomial_replicate, zero_add,
    pow_zero, one_mul]

/-! ### Laws -/

theorem eval_shift (p : DensePoly) (x : ℚ) : (p.shift a).eval x = p.eval (x + a) := by
  rw [← eval_toPolynomial, toPolynomial_shift, taylor_eval, eval_toPolynomial]

theorem shift_shift (p : DensePoly) (b : ℚ) : (p.shift a).shift b = p.shift (a + b) := by
  refine ext_of_length (by simp only [length_shift]) ?_
  rw [toPolynomial_shift, toPolynomial_shift, toPolynomial_shift, taylor_taylor, add_comm]

theorem shift_zero (p : DensePoly) : p.shift 0 = p := by
  refine ext_of_length (length_shift p 0) ?_
  rw [toPolynomial_shift, taylor_zero]

theorem derivative_shift (p : DensePoly) : (p.shift a).derivative = p.derivative.shift a := by
  refine ext_of_length (by simp only [length_derivative, length_shift]) ?_
  rw [toPolynomial_derivative, toPolynomial_shift, toPolynomial_shift, toPolynomial_derivative]
  simp [taylor_apply, derivative_comp]

/-- **Shifting is substitution, and an action of the fractions under addition**, on lists as they
are kept: zeros at the end stay, two shifts are one by the sum, and the shift by `-a` takes that by
`a` back. -/
theorem shift_action (p : DensePoly) (a b x : ℚ) :
    (p.shift a).coeffs.length = p.coeffs.length ∧ (p.shift a).eval x = p.eval (x + a) ∧
      (p.shift a).shift b = p.shift (a + b) ∧ p.shift 0 = p ∧ (p.shift a).shift (-a) = p := by
  refine ⟨length_shift p a, eval_shift a p x, shift_shift a p b, shift_zero p, ?_⟩
  rw [shift_shift, add_neg_cancel, shift_zero]

end ZetaValues.DensePoly
