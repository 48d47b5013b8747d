import ZetaValues.Bernoulli.Numbers

/-! # A table of Bernoulli numbers

The table remembers `B_0, …, B_m` for some `m` up to its limit. A question for more numbers than it
holds makes it grow, as far as the limit lets it; what is wanted beyond the limit is computed from
there and not kept. -/

namespace ZetaValues.Bernoulli

/-- A list of the first Bernoulli numbers, with the largest index that may be kept. -/
structure Table where
  limit : Nat
  entries : List Rat

namespace Table

def defaultLimit : Nat := 4096

/-- The table that holds nothing yet. -/
def empty (limit : Nat) : Table :=
  ⟨limit, []⟩

/-- The table without its entries. -/
def clear (t : Table) : Table :=
  empty t.limit

/-- The table, grown to hold `B_n`. -/
def grow (t : Table) (n : Nat) : Table :=
  { t with entries := extendTo t.entries n }

/-- The list `B_0, …, B_n` from the entries, and the table, which grows if they do not reach that
far. -/
def held (t : Table) (n : Nat) : List Rat × Table :=
  let t := if n < t.entries.length then t else t.grow n
  (t.entries.take (n + 1), t)

/-- The list `B_0, …, B_n`, and the table after that. If it is wanted beyond both the entries and
the limit, then the table grows to its limit, and a copy goes on from there. -/
def upTo (t : Table) (n : Nat) : List Rat × Table :=
  if t.entries.length ≤ n ∧ t.limit < n then
    let (numbers, t) := t.held t.limit
    (extendTo numbers n, t)
  else
    t.held n

/-- The closed form of `B_n`, for an `n` that is a 32-bit word. -/
def closedForm? (n : Nat) : Option Rat :=
  if n < UInt32.size then closedForm n else none

/-- The Bernoulli number `B_n`, for which the table grows only if neither a closed form nor an entry
is at hand. -/
def get (t : Table) (n : Nat) : Rat × Table :=
  match closedForm? n <|> t.entries[n]? with
  | some b => (b, t)
  | none => let (numbers, t) := t.upTo n; (numbers.getD n 0, t)

end Table

end ZetaValues.Bernoulli
