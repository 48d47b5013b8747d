/-! # Machine words beside integers

Arguments arrive as 64-bit words. The passages between words and integers that lose nothing:
`magnitude` and `residue` always fit, and `word?` answers only when the integer does. -/

namespace ZetaValues.Exact

/-- The signed word with the value `n`, if there is one. -/
def word? (n : Int) : Option Int64 :=
  if (Int64.ofInt n).toInt = n then some (Int64.ofInt n) else none

/-- The absolute value of `a`, as an unsigned word: that of the least word fits too. -/
def magnitude (a : Int64) : UInt64 :=
  .ofNat a.toInt.natAbs

/-- The residue of `a` among `0, …, n - 1`, for a positive `n`. -/
def residue (a : Int64) (n : UInt64) : UInt64 :=
  .ofNat (a.toInt % n.toNat).toNat

end ZetaValues.Exact
