/-! # Dense polynomials over the fractions

A polynomial is the list of its coefficients from degree 0 upward. The list is kept as given: zeros
at its end stay, and two polynomials are equal when their lists are. -/

namespace ZetaValues

/-- A polynomial in one variable, by its coefficients in ascending degree. -/
structure DensePoly where
  coeffs : List Rat
  deriving DecidableEq

namespace DensePoly

def zero : DensePoly := ⟨[]⟩

/-- The coefficient of `x ^ i`, which is zero past the end of the list. -/
def coeff (p : DensePoly) (i : Nat) : Rat :=
  p.coeffs.getD i 0

/-- The value at `x`, by Horner's rule from the highest degree down. -/
def eval (p : DensePoly) (x : Rat) : Rat :=
  p.coeffs.foldr (fun c value => value * x + c) 0

def scale (p : DensePoly) (a : Rat) : DensePoly :=
  ⟨p.coeffs.map (· * a)⟩

/-- The derivative: each coefficient above degree 0 moves down, multiplied by its degree. -/
def derivative (p : DensePoly) : DensePoly :=
  ⟨(p.coeffs.zipIdx.drop 1).map fun (c, i) => c * (i : Rat)⟩

@[simp] theorem eval_nil (x : Rat) : eval ⟨[]⟩ x = 0 := rfl

@[simp] theorem eval_cons (c : Rat) (cs : List Rat) (x : Rat) :
    eval ⟨c :: cs⟩ x = eval ⟨cs⟩ x * x + c := rfl

@[simp] theorem length_scale (p : DensePoly) (a : Rat) :
    (p.scale a).coeffs.length = p.coeffs.length := by
  simp [scale]

@[simp] theorem length_derivative (p : DensePoly) :
    p.derivative.coeffs.length = p.coeffs.length - 1 := by
  simp [derivative]

end DensePoly

end ZetaValues
