import ZetaValues.Session.Basic

/-! # Requests to a session

Everything that can be asked of a session, as data: the questions, which differ in the kind of their
answer, and direct use of the table. A history of a session is a list of requests. -/

namespace ZetaValues

/-- A question that a session answers. -/
inductive Question where
  | bernoulliNumber (n : Int64)
  | bernoulliNumbers (n : Int64)
  | bernoulliPolynomial (n : Int64)
  | evaluate (p : DensePoly) (x : Rat)
  | character (d : Int64)
  | forFunction (k : Int64) (modulus : UInt64) (χ : UInt64 → Int64)
  | forCharacter (χ : QuadraticCharacter) (k : Int64)
  | forDiscriminant (k d : Int64)
  | zeta (n : Int64)
  | lValue (k d : Int64)
  | eisensteinConstant (k d : Int64)
  | classNumber (d : Int64)
  | powerSum (k n : Int64)

/-- What is answered. -/
inductive Answer where
  | integer (n : Int)
  | fraction (q : Rat)
  | fractions (qs : List Rat)
  | polynomial (p : DensePoly)
  | character (χ : QuadraticCharacter)
  | nothing
  deriving DecidableEq

/-- The query for the answer to a question, in a session that admits certain discriminants. -/
def Question.query (admission : Admission) : Question → Checked (Query Answer)
  | bernoulliNumber n => (Query.bernoulliNumber n).map (·.map .fraction)
  | bernoulliNumbers n => (Query.bernoulliNumbers n).map (·.map .fractions)
  | bernoulliPolynomial n => (Query.bernoulliPolynomial n).map (·.map .polynomial)
  | evaluate p x => .ok (.known (.fraction (p.eval x)))
  | character d =>
    (QuadraticCharacter.ofDiscriminant admission d).map fun χ => .known (.character χ)
  | forFunction k modulus χ => (Query.forFunction k modulus χ).map (·.map .fraction)
  | forCharacter χ k => (Query.forCharacter χ k).map (·.map .fraction)
  | forDiscriminant k d => (Query.forDiscriminant admission k d).map (·.map .fraction)
  | zeta n => (Query.zeta n).map (·.map .fraction)
  | lValue k d => (Query.lValue admission k d).map (·.map .fraction)
  | eisensteinConstant k d => (Query.eisensteinConstant admission k d).map (·.map .fraction)
  | classNumber d => (Query.classNumber admission d).map (·.map .integer)
  | powerSum k n => (Query.powerSum k n).map (·.map .integer)

/-- A question, or direct use of the table. -/
inductive Request where
  | question (q : Question)
  | tableUpTo (n : Nat)
  | tableGet (n : Nat)
  | tableClear

namespace Session

/-- Direct use of the table, in a session that keeps one. -/
def useTable (s : Session) (use : Bernoulli.Table → Answer × Bernoulli.Table) : Answer × Session :=
  match s.table with
  | none => (.nothing, s)
  | some t => let (a, t) := use t; (a, { s with table := some t })

/-- What a request is answered, and the session after it. -/
def perform (s : Session) : Request → Checked Answer × Session
  | .question q => s.ask (q.query s.admission)
  | .tableUpTo n => (s.useTable fun t => (.fractions (t.upTo n).1, (t.upTo n).2)).map .ok id
  | .tableGet n => (s.useTable fun t => (.fraction (t.get n).1, (t.get n).2)).map .ok id
  | .tableClear => (s.useTable fun t => (.nothing, t.clear)).map .ok id

/-- The session after a history of requests. -/
def after (s : Session) (history : List Request) : Session :=
  history.foldl (fun s r => (s.perform r).2) s

end Session

end ZetaValues
