import ZetaValues.DensePoly.Basic
import Mathlib.Algebra.Polynomial.Derivative
import Mathlib.Algebra.Field.Rat
import Mathlib.Data.List.GetD

/-! # Dense polynomials as polynomials

A dense polynomial stands for the polynomial with its coefficients. The list is not determined by
that, since zeros at its end are kept, but it is by the polynomial and its own length
(`ext_of_length`). So a law of polynomials is a law of lists as soon as the lengths on both sides are
the same. -/

namespace ZetaValues.DensePoly

open Polynomial

/-- The polynomial with these coefficients. -/
noncomputable def toPolynomial (p : DensePoly) : ℚ[X] :=
  p.coeffs.foldr (fun c q => q * X + C c) 0

@[simp] theorem toPolynomial_nil : toPolynomial ⟨[]⟩ = 0 := rfl

@[simp] theorem toPolynomial_cons (c : ℚ) (cs : List ℚ) :
    toPolynomial ⟨c :: cs⟩ = toPolynomial ⟨cs⟩ * X + C c := rfl

@[simp] theorem coeff_toPolynomial (p : DensePoly) (i : ℕ) :
    p.toPolynomial.coeff i = p.coeff i := by
  obtain ⟨cs⟩ := p
  induction cs generalizing i with
  | nil => rfl
  | cons c cs ih =>
    rw [toPolynomial_cons, coeff_add]
    cases i with
    | zero => rw [coeff_mul_X_zero, coeff_C_zero, zero_add]; rfl
    | succ i => rw [coeff_mul_X, coeff_C_succ, add_zero, ih]; rfl

/-- The value by Horner's rule is the value of the polynomial. -/
@[simp] theorem eval_toPolynomial (p : DensePoly) (x : ℚ) :
    p.toPolynomial.eval x = p.eval x := by
  obtain ⟨cs⟩ := p
  induction cs with
  | nil => exact Polynomial.eval_zero
  | cons c cs ih =>
    rw [toPolynomial_cons, Polynomial.eval_add, eval_mul_X, Polynomial.eval_C, ih, eval_cons]

/-- **The polynomial and the number of coefficients** are all there is to a dense polynomial. -/
theorem ext_of_length {p q : DensePoly} (hlen : p.coeffs.length = q.coeffs.length)
    (h : p.toPolynomial = q.toPolynomial) : p = q := by
  have hcoeff : ∀ i, p.coeff i = q.coeff i := by
    intro i
    rw [← coeff_toPolynomial, h, coeff_toPolynomial]
  obtain ⟨cs⟩ := p
  obtain ⟨ds⟩ := q
  congr 1
  refine List.ext_getElem hlen fun i hi hi' => ?_
  have hget := hcoeff i
  rwa [coeff, coeff, List.getD_eq_getElem _ _ hi, List.getD_eq_getElem _ _ hi'] at hget

/-! ### Coefficient by coefficient -/

theorem coeff_scale (p : DensePoly) (a : ℚ) (i : ℕ) : (p.scale a).coeff i = p.coeff i * a := by
  simp only [coeff, scale, List.getD_eq_getElem?_getD, List.getElem?_map]
  cases p.coeffs[i]? with
  | none => exact (zero_mul a).symm
  | some c => rfl

theorem coeff_derivative (p : DensePoly) (i : ℕ) :
    p.derivative.coeff i = p.coeff (i + 1) * (i + 1) := by
  simp only [coeff, derivative, List.getD_eq_getElem?_getD, List.getElem?_map, List.getElem?_drop,
    List.getElem?_zipIdx, add_comm 1 i]
  cases p.coeffs[i + 1]? with
  | none => exact (zero_mul _).symm
  | some c => simp

theorem toPolynomial_scale (p : DensePoly) (a : ℚ) :
    (p.scale a).toPolynomial = C a * p.toPolynomial := by
  ext i
  rw [coeff_toPolynomial, coeff_scale, coeff_C_mul, coeff_toPolynomial, mul_comm]

theorem toPolynomial_derivative (p : DensePoly) :
    p.derivative.toPolynomial = Polynomial.derivative p.toPolynomial := by
  ext i
  rw [coeff_toPolynomial, coeff_derivative, Polynomial.coeff_derivative, coeff_toPolynomial]

theorem toPolynomial_replicate (n : ℕ) : toPolynomial ⟨List.replicate n 0⟩ = 0 := by
  induction n with
  | zero => rfl
  | succ n ih => rw [List.replicate_succ, toPolynomial_cons, ih, C_0, zero_mul, add_zero]

end ZetaValues.DensePoly
