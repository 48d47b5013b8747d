import ZetaValues.DensePoly.Basic
import Mathlib.Algebra.BigOperators.Group.Finset.Basic
import Mathlib.Algebra.BigOperators.Ring.Finset
import Mathlib.Algebra.Field.Rat
import Mathlib.Tactic.Ring

/-! # Horner's rule

The value of a dense polynomial is the sum of `c_i x ^ i` over its coefficients, those of degree 0
upward (`eval_eq_sum`). Zeros at the end of the list are where the rule starts, and it is still at 0
when it comes to the coefficients before them (`eval_append_replicate`). -/

namespace ZetaValues.DensePoly

/-- **Horner's rule computes the sum of the terms.** -/
theorem eval_eq_sum (p : DensePoly) (x : ℚ) :
    p.eval x = ∑ i ∈ Finset.range p.coeffs.length, p.coeff i * x ^ i := by
  obtain ⟨cs⟩ := p
  induction cs with
  | nil => rfl
  | cons c cs ih =>
    have hterm : ∀ i, coeff ⟨c :: cs⟩ (i + 1) * x ^ (i + 1) = coeff ⟨cs⟩ i * x ^ i * x := by
      intro i
      rw [pow_succ, mul_assoc]; rfl
    rw [eval_cons, ih, List.length_cons, Finset.sum_range_succ',
      Finset.sum_congr rfl fun i _ => hterm i, ← Finset.sum_mul, pow_zero, mul_one]
    rfl

/-- At 0 the constant term is left, since `x ^ 0` is 1 there too. -/
theorem eval_zero_right (p : DensePoly) : p.eval 0 = p.coeff 0 := by
  obtain ⟨cs⟩ := p
  cases cs with
  | nil => rfl
  | cons c cs => rw [eval_cons, mul_zero, zero_add]; rfl

theorem eval_replicate_zero (n : ℕ) (x : ℚ) : eval ⟨List.replicate n 0⟩ x = 0 := by
  induction n with
  | zero => rfl
  | succ n ih => rw [List.replicate_succ, eval_cons, ih, zero_mul, add_zero]

/-- **Zeros at the end** do not change the value. -/
theorem eval_append_replicate (p : DensePoly) (n : ℕ) (x : ℚ) :
    eval ⟨p.coeffs ++ List.replicate n 0⟩ x = p.eval x := by
  obtain ⟨cs⟩ := p
  induction cs with
  | nil => exact eval_replicate_zero n x
  | cons c cs ih => rw [List.cons_append, eval_cons, ih, eval_cons]

theorem eval_scale (p : DensePoly) (a x : ℚ) : (p.scale a).eval x = a * p.eval x := by
  obtain ⟨cs⟩ := p
  induction cs with
  | nil => exact (mul_zero a).symm
  | cons c cs ih =>
    have hcons : scale ⟨c :: cs⟩ a = ⟨c * a :: (scale ⟨cs⟩ a).coeffs⟩ := rfl
    rw [hcons, eval_cons, ih, eval_cons]
    ring

/-- **Horner's rule is direct summation**: the sum of `c_i x ^ i` over the whole list, at 0 the
constant term and for the empty list 0. It does not see zeros at the end, however many, and it
commutes with scaling. -/
theorem eval_laws (p : DensePoly) (a x : ℚ) (n : ℕ) :
    p.eval x = ∑ i ∈ Finset.range p.coeffs.length, p.coeff i * x ^ i ∧
      p.eval 0 = p.coeff 0 ∧ zero.eval x = 0 ∧
      eval ⟨p.coeffs ++ List.replicate n 0⟩ x = p.eval x ∧ (p.scale a).eval x = a * p.eval x :=
  ⟨eval_eq_sum p x, eval_zero_right p, eval_nil x, eval_append_replicate p n x, eval_scale p a x⟩

end ZetaValues.DensePoly
