import ZetaValues.DensePoly.Basic
import ZetaValues.Exact.Text

/-! # Written forms of polynomials

The terms with a nonzero coefficient stand from the highest degree down, joined by `" + "`, and a
polynomial without such terms is written `0`. The labelled form lists every coefficient instead. -/

namespace ZetaValues.DensePoly

open Exact

/-- The text of the term `c * x ^ i`. -/
def termText (c : Rat) : Nat → String
  | 0 => fractionText c
  | 1 => fractionText c ++ "*x"
  | i => fractionText c ++ "*x^" ++ i.repr

/-- The texts of the nonzero terms, from the highest degree down. -/
def termTexts (p : DensePoly) : List String :=
  (p.coeffs.zipIdx.reverse.filter fun (c, _) => c ≠ 0).map fun (c, i) => termText c i

def text (p : DensePoly) : String :=
  if p.termTexts.isEmpty then "0" else " + ".intercalate p.termTexts

/-- The text of a polynomial with all its coefficients, marked as such. -/
def label (p : DensePoly) : String :=
  "RationalPoly \x7b coeffs: [" ++ ", ".intercalate (p.coeffs.map fractionLabel) ++ "] \x7d"

end ZetaValues.DensePoly
