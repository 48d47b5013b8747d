import ZetaValues.Binomial
import ZetaValues.DensePoly.Basic

/-! # Shifting a polynomial

`p.shift a` is `p(x + a)`. Each term `c (x + a) ^ i` is expanded with a row of binomial
coefficients, and its `i + 1` coefficients are added to the lowest ones of a sum that has as many as
`p` from the start, so the length stays. A vanishing coefficient adds nothing, and its power is not
expanded. -/

namespace ZetaValues.DensePoly

/-- One step down a row of binomial coefficients: the next lower coefficient is put before those so
far, and the power of `a` is raised for the one after it. -/
def expandStep (a c : Rat) (b : Nat) : List Rat × Rat → List Rat × Rat
  | (terms, power) => (c * ((b : Rat) * power) :: terms, power * a)

/-- The coefficients of `c (x + a) ^ i`, from that of `x ^ i` at the end of the row down. -/
def shiftedPower (a c : Rat) (i : Nat) : List Rat :=
  ((binomialEntries i).foldr (expandStep a c) ([], 1)).1

/-- The list `sum` with `terms` added to its first entries. -/
def addLow : (sum terms : List Rat) → List Rat
  | s :: sum, t :: terms => (s + t) :: addLow sum terms
  | sum, _ => sum

/-- The sum after the term of one coefficient, which stands at its index. -/
def shiftStep (a : Rat) (sum : List Rat) : Rat × Nat → List Rat
  | (c, i) => if c = 0 then sum else addLow sum (shiftedPower a c i)

/-- The polynomial `p(x + a)`, with as many coefficients as `p`. -/
def shift (p : DensePoly) (a : Rat) : DensePoly :=
  ⟨p.coeffs.zipIdx.foldl (shiftStep a) (List.replicate p.coeffs.length 0)⟩

@[simp] theorem length_addLow (sum terms : List Rat) : (addLow sum terms).length = sum.length := by
  induction sum generalizing terms with
  | nil => cases terms <;> rfl
  | cons s sum ih =>
    cases terms with
    | nil => rfl
    | cons t terms => simp only [addLow, List.length_cons, ih]

@[simp] theorem length_shiftStep (a : Rat) (sum : List Rat) (term : Rat × Nat) :
    (shiftStep a sum term).length = sum.length := by
  unfold shiftStep
  split
  split
  · rfl
  · exact length_addLow _ _

@[simp] theorem length_foldl_shiftStep (a : Rat) (terms : List (Rat × Nat)) (sum : List Rat) :
    (terms.foldl (shiftStep a) sum).length = sum.length := by
  induction terms generalizing sum with
  | nil => rfl
  | cons term terms ih => rw [List.foldl_cons, ih, length_shiftStep]

@[simp] theorem length_shift (p : DensePoly) (a : Rat) :
    (p.shift a).coeffs.length = p.coeffs.length := by
  simp [shift]

end ZetaValues.DensePoly
