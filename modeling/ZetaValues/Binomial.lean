import ZetaValues.Undefined

/-! # Binomial coefficients

A single coefficient and a row run the products `1, n, n (n - 1) / 2, …`: the `i`-th is `C(n, i)`,
and the next is it times `n - i`, divided by `i + 1` without a remainder.

The room for a row is reserved before its first entry is formed, so a row that no list can hold is
refused (`binomialRow`). A recurrence and an expansion take the entries beside a list of fractions
that is held already. A fraction is two integers, so there is room for the entries too, and
`binomialEntries` gives them without that check. -/

namespace ZetaValues

/-- One step of the running product, from `c = C(n, i)` to `C(n, i + 1)`. -/
def binomialStep (n c i : Nat) : Nat :=
  c * (n - i) / (i + 1)

/-- The binomial coefficient `C(n, k)`, along the shorter side; zero when `k > n`. -/
def binomial (n k : Nat) : Nat :=
  if n < k then 0 else (List.range (min k (n - k))).foldl (binomialStep n) 1

/-- The entries `C(n, 0), …, C(n, n)` of a row. -/
def binomialEntries (n : Nat) : List Nat :=
  (List.range n).scanl (binomialStep n) 1

@[simp] theorem length_binomialEntries (n : Nat) : (binomialEntries n).length = n + 1 := by
  simp [binomialEntries]

/-! ### Room for a row -/

/-- The most bytes that the entries of one list can take up: distances in memory are signed words. -/
def maxBytes : Nat := 9223372036854775807

/-- Room for a list of `count` entries, of `size` bytes each. -/
def reserve (size count : Nat) : Except Undefined Unit :=
  if maxBytes < size * count then .error .listTooLong else .ok ()

/-- The number of entries for which the row of `n` needs room; one past the largest word, it stays at
that word. -/
def rowCapacity (n : UInt64) : Nat :=
  min (n.toNat + 1) (UInt64.size - 1)

/-- The row `C(n, 0), …, C(n, n)`, for integers that take up `size` bytes in a list. -/
def binomialRow (size : Nat) (n : UInt64) : Except Undefined (List Nat) := do
  reserve size (rowCapacity n)
  return binomialEntries n.toNat

end ZetaValues
