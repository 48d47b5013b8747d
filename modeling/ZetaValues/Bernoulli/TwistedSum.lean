import ZetaValues.Bernoulli.Polynomial

/-! # Twisted sums of Bernoulli polynomials

The generalized Bernoulli number of a function `χ` on the integers modulo `N` is
`N ^ (k - 1) ∑_{a = 1}^{N} χ(a) B_k(a / N)`. Writing `c_i` for the coefficients of `B_k(x)`, each
term is `χ(a) / N` times the value at the integer `a` of the polynomial with the coefficients
`c_i N ^ (k - i)`, so the sum is taken over integers and divided by `N` once. -/

namespace ZetaValues.Bernoulli

/-- The polynomial with the coefficients `c_i N ^ (k - i)`, for those of `p` up to degree `k`; the
powers of `N` are built up from the highest degree down. -/
def rescale (p : DensePoly) (N : Rat) : DensePoly :=
  ⟨(p.coeffs.foldr (fun c (coeffs, power) => (c * power :: coeffs, power * N)) ([], 1)).1⟩

/-- The sum of `χ(a) p(a)` over `a = 1, …, N`; where `χ` vanishes `p` is not evaluated. -/
def weightedSum (p : DensePoly) (N : Nat) (χ : Nat → Int) : Rat :=
  (List.range' 1 N).foldl
    (fun sum a => if χ a = 0 then sum else sum + (χ a : Rat) * p.eval (a : Rat)) 0

/-- The generalized Bernoulli number of weight `k` of the function `χ` modulo `N`, from a list that
reaches at least to `B_k`. -/
def twistedSum (numbers : List Rat) (k N : Nat) (χ : Nat → Int) : Rat :=
  weightedSum (rescale (polynomial numbers k) N) N χ / (N : Rat)

end ZetaValues.Bernoulli
