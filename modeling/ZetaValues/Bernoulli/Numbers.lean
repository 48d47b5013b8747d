import ZetaValues.Binomial

/-! # Bernoulli numbers

The numbers with `B_0 = 1` and `∑_{j ≤ m} C(m + 1, j) B_j = 0` for `m ≥ 1`, so that `B_1 = -1/2`.
The recurrence is run only where no closed form is known: at even indices from 2 on. The index of a
closed form is a 32-bit word. -/

namespace ZetaValues.Bernoulli

/-- The Bernoulli numbers that need no recurrence: `B_0`, `B_1`, and the odd ones, which vanish. Of
an index that is not a 32-bit word the low bits count. -/
def closedForm (n : Nat) : Option Rat :=
  match n % UInt32.size with
  | 0 => some 1
  | 1 => some (-1 / 2)
  | n => if n % 2 = 1 then some 0 else none

/-- The sum of `C(m + 1, j) B_j` over the list `B_0, …, B_{m-1}`; vanishing terms are skipped. -/
def recurrenceSum (numbers : List Rat) : Rat :=
  (numbers.zip (binomialEntries (numbers.length + 1))).foldl
    (fun sum (b, c) => if b = 0 then sum else sum + (c : Rat) * b) 0

/-- The Bernoulli number `B_m` by the recurrence, from the list `B_0, …, B_{m-1}`. -/
def recur (numbers : List Rat) : Rat :=
  -recurrenceSum numbers / ((numbers.length + 1 : Nat) : Rat)

/-- The Bernoulli number after those in the list. -/
def next (numbers : List Rat) : Rat :=
  (closedForm numbers.length).getD (recur numbers)

/-- The list with the next `count` Bernoulli numbers added. -/
def extend (numbers : List Rat) : (count : Nat) → List Rat
  | 0 => numbers
  | count + 1 => extend (numbers ++ [next numbers]) count

/-- The list, extended if it does not yet reach to `B_n`. -/
def extendTo (numbers : List Rat) (n : Nat) : List Rat :=
  extend numbers (n + 1 - numbers.length)

/-- The list `B_0, …, B_n`. -/
def upTo (n : Nat) : List Rat :=
  extendTo [] n

/-- The Bernoulli number `B_n`. -/
def number (n : Nat) : Rat :=
  (closedForm n).getD ((upTo n).getD n 0)

@[simp] theorem length_extend (numbers : List Rat) (count : Nat) :
    (extend numbers count).length = numbers.length + count := by
  induction count generalizing numbers with
  | zero => rfl
  | succ count ih => simp only [extend, ih, List.length_append, List.length_singleton]; omega

@[simp] theorem length_extendTo (numbers : List Rat) (n : Nat) :
    (extendTo numbers n).length = max numbers.length (n + 1) := by
  simp only [extendTo, length_extend]; omega

@[simp] theorem length_upTo (n : Nat) : (upTo n).length = n + 1 := by
  simp [upTo]

end ZetaValues.Bernoulli
