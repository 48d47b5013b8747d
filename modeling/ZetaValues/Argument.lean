import ZetaValues.Discriminant
import ZetaValues.Exact.Text

/-! # Arguments and their refusal

Arguments arrive as words. A check either narrows one to the natural number it stands for, or says
which argument was refused, with its value as given, and for what reason. -/

namespace ZetaValues

/-- The arguments that can be refused: `n` is an index, a degree or a number of terms, `k` a weight
or an exponent, `d` a discriminant, and `modulus` that of a function. -/
inductive Argument where
  | n
  | k
  | d
  | modulus
  deriving DecidableEq

def Argument.name : Argument → String
  | n => "n"
  | k => "k"
  | d => "d"
  | modulus => "modulus"

/-- Why an argument is refused; `notNegative` is for the discriminant of an imaginary field. -/
inductive Reason where
  | negative
  | aboveMaxIndex
  | belowOne
  | notPositive
  | zero
  | notNegative
  | notAdmitted (admission : Admission)
  deriving DecidableEq

def Reason.message : Reason → String
  | negative => "must be non-negative"
  | aboveMaxIndex => "exceeds the supported index range"
  | belowOne => "must be at least 1"
  | notPositive => "must be positive"
  | zero => "must be nonzero"
  | notNegative => "must be negative"
  | notAdmitted .fundamental => "not a fundamental discriminant"
  | notAdmitted .discriminant => "not a discriminant (must be nonzero and ≡ 0 or 1 mod 4)"

/-- The refusal of an argument, with the value as the caller gave it. -/
structure ArgumentError where
  argument : Argument
  value : Int64
  reason : Reason
  deriving DecidableEq

/-- What is reported for a refused argument. -/
def ArgumentError.message (e : ArgumentError) : String :=
  "invalid argument `" ++ e.argument.name ++ "` = " ++ Exact.integerText e.value.toInt ++ ": " ++
    e.reason.message

/-- A value, or the refusal of an argument. -/
abbrev Checked (α : Type) := Except ArgumentError α

/-- The largest index of a Bernoulli number that is computed. -/
def maxIndex : Nat := 16384

namespace Argument

/-- The natural number that `v` stands for. -/
def natural (a : Argument) (v : Int64) : Checked Nat :=
  if v.toInt < 0 then .error ⟨a, v, .negative⟩ else .ok v.toInt.toNat

/-- The index that `v` stands for, at most `bound`. -/
def indexUpTo (bound : Nat) (a : Argument) (v : Int64) : Checked Nat := do
  let i ← a.natural v
  if bound < i then .error ⟨a, v, .aboveMaxIndex⟩ else .ok i

/-- The index of a Bernoulli number. -/
def index (a : Argument) (v : Int64) : Checked Nat :=
  a.indexUpTo maxIndex v

/-- An index whose successor is the index of a Bernoulli number. -/
def indexBelow (a : Argument) (v : Int64) : Checked Nat :=
  a.indexUpTo (maxIndex - 1) v

/-- A weight, which is at least 1. -/
def weight (a : Argument) (v : Int64) : Checked Nat :=
  if v.toInt < 1 then .error ⟨a, v, .belowOne⟩ else .ok v.toInt.toNat

/-- A modulus, which is at least 1. -/
def positive (a : Argument) (m : UInt64) : Checked Nat :=
  if m = 0 then .error ⟨a, 0, .notPositive⟩ else .ok m.toNat

end Argument

end ZetaValues
