import ZetaValues.Bernoulli.Numbers
import ZetaValues.DensePoly.Basic

/-! # Bernoulli polynomials

`B_n(x) = ∑_i C(n, i) B_{n-i} x ^ i`, with all its `n + 1` coefficients. -/

namespace ZetaValues.Bernoulli

/-- The Bernoulli polynomial `B_n(x)`, from a list that reaches at least to `B_n`. -/
def polynomial (numbers : List Rat) (n : Nat) : DensePoly :=
  ⟨List.zipWith (fun (c : Nat) b => (c : Rat) * b) (binomialEntries n)
    (numbers.take (n + 1)).reverse⟩

theorem length_polynomial {numbers : List Rat} {n : Nat} (h : n < numbers.length) :
    (polynomial numbers n).coeffs.length = n + 1 := by
  simp only [polynomial, List.length_zipWith, length_binomialEntries, List.length_reverse,
    List.length_take]
  omega

end ZetaValues.Bernoulli
