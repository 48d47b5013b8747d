import ZetaValues.Bernoulli.Table

/-! # Queries

A query is an answer that still waits for Bernoulli numbers: it says which it needs, and how they
finish the answer. The numbers can be computed afresh (`fresh`) or be taken from a table, which
may grow by that (`fromTable`). -/

namespace ZetaValues

/-- An answer that waits for Bernoulli numbers. -/
inductive Query (α : Type) where
  /-- The answer needs none. -/
  | known (answer : α)
  /-- The answer needs `B_n`. -/
  | fromNumber (n : Nat) (finish : Rat → α)
  /-- The answer needs the list `B_0, …, B_n`. -/
  | fromNumbers (n : Nat) (finish : List Rat → α)

namespace Query

variable {α β : Type}

/-- The query with `f` applied to the answer. -/
def map (f : α → β) : Query α → Query β
  | known answer => known (f answer)
  | fromNumber n finish => fromNumber n fun b => f (finish b)
  | fromNumbers n finish => fromNumbers n fun numbers => f (finish numbers)

/-- The answer, with the Bernoulli numbers computed for it alone. -/
def fresh : Query α → α
  | known answer => answer
  | fromNumber n finish => finish (Bernoulli.number n)
  | fromNumbers n finish => finish (Bernoulli.upTo n)

/-- The answer, with the Bernoulli numbers taken from a table, and the table after that. -/
def fromTable (t : Bernoulli.Table) : Query α → α × Bernoulli.Table
  | known answer => (answer, t)
  | fromNumber n finish => (finish (t.get n).1, (t.get n).2)
  | fromNumbers n finish => (finish (t.upTo n).1, (t.upTo n).2)

end Query

end ZetaValues
