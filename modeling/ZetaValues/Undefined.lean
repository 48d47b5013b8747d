/-! # Operations without a value

Division, fractions, the greatest common divisor and the Jacobi symbol have no value at some
operands, and a list has none when it is longer than memory can address. Such an operation answers
with the cause, and `Undefined.message` says it in words. -/

namespace ZetaValues

/-- Why an operation has no value at its operands. -/
inductive Undefined where
  | zeroDenominator
  | fractionByZero
  | integerByZero
  | gcdOfZeros
  | evenModulus
  | listTooLong
  deriving DecidableEq

def Undefined.message : Undefined → String
  | .zeroDenominator => "denominator cannot be zero"
  | .fractionByZero => "Divisor or denominator must not be zero!"
  | .integerByZero => "divisor must not be 0"
  | .gcdOfZeros => "the greatest common divisor is not defined between zeros!"
  | .evenModulus => "Jacobi symbol needs an odd positive modulus"
  | .listTooLong => "capacity overflow"

end ZetaValues
