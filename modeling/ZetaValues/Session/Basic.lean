import ZetaValues.Query.SpecialValues

/-! # Sessions

A session answers queries one after the other, and may keep a table of the Bernoulli numbers that it
has computed. A refused query leaves the table as it is. -/

namespace ZetaValues

/-- How a session is set up. -/
structure Settings where
  /-- Whether Bernoulli numbers are kept for later queries. -/
  remembers : Bool := true
  /-- The largest index that is kept. -/
  tableLimit : Nat := Bernoulli.Table.defaultLimit
  /-- The discriminants whose characters may be asked for. -/
  admission : Admission := .fundamental
  deriving DecidableEq

def Settings.forgetful : Settings :=
  { remembers := false }

/-- What a session carries from one query to the next. -/
structure Session where
  admission : Admission
  /-- The numbers kept so far, in a session that keeps them. -/
  table : Option Bernoulli.Table

namespace Session

variable {α : Type}

/-- A session with nothing answered yet. -/
def start (s : Settings) : Session :=
  ⟨s.admission, if s.remembers then some (.empty s.tableLimit) else none⟩

/-- The answer to a query, and the session after it. -/
def answer (s : Session) (q : Query α) : α × Session :=
  match s.table with
  | none => (q.fresh, s)
  | some t => let (a, t) := q.fromTable t; (a, { s with table := some t })

/-- The answer to a checked query, or its refusal, and the session after it. -/
def ask (s : Session) : Checked (Query α) → Checked α × Session
  | .error e => (.error e, s)
  | .ok q => let (a, s) := s.answer q; (.ok a, s)

/-- How many Bernoulli numbers are kept, in a session that keeps them. -/
def kept (s : Session) : Option Nat :=
  s.table.map (·.entries.length)

end Session

end ZetaValues
