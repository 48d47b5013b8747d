import ZetaValues.Fresh
import ZetaValues.Session.Request
import ZetaValues.Proofs.Bernoulli.Table

/-! # The table of a session cannot be observed

A session that was started with some settings and has answered any requests since is `Reached` by
these settings: it admits the same discriminants, and its table, if it keeps one, has the set limit
and satisfies the invariant. One request keeps this (`Reached.perform`), hence so does a history
(`Reached.after`). Since a valid table gives fresh numbers, a session answers as one without a table
that has answered nothing (`answers_eq_fresh`). -/

namespace ZetaValues

open ZetaValues.Bernoulli

/-! ### Queries -/

namespace Query

variable {α β : Type}

@[simp] theorem fresh_map (f : α → β) (q : Query α) : (q.map f).fresh = f q.fresh := by
  cases q <;> rfl

theorem fromTable_fst {t : Table} (ht : t.Valid) (q : Query α) : (q.fromTable t).1 = q.fresh := by
  cases q with
  | known answer => rfl
  | fromNumber n finish => exact congrArg finish (ht.get_fst n)
  | fromNumbers n finish => exact congrArg finish (ht.upTo_fst n)

theorem step_fromTable (t : Table) (q : Query α) : t.Step (q.fromTable t).2 := by
  cases q with
  | known answer => exact .none
  | fromNumber n finish => exact .get n
  | fromNumbers n finish => exact .upTo n

/-- A checked query for a renamed answer has the renamed fresh answer. -/
theorem map_fresh_map (f : α → β) (q : Checked (Query α)) :
    (q.map (·.map f)).map fresh = (q.map fresh).map f := by
  cases q with
  | error e => rfl
  | ok q => exact congrArg Except.ok (fresh_map f q)

/-- Once `d` is admitted, the query for `d` is that for its character. -/
theorem forDiscriminant_of_ok {admission : Admission} {d : Int64} {χ : QuadraticCharacter}
    (h : QuadraticCharacter.ofDiscriminant admission d = .ok χ) (k : Int64) :
    forDiscriminant admission k d = forCharacter χ k := by
  unfold forDiscriminant forCharacter
  rw [h]
  cases Argument.k.index k <;> rfl

end Query

theorem bernoulliForDiscriminant_of_ok {d : Int64} {χ : QuadraticCharacter}
    (h : QuadraticCharacter.ofDiscriminant .fundamental d = .ok χ) (k : Int64) :
    bernoulliForDiscriminant k d = bernoulliForCharacter χ k := by
  rw [bernoulliForDiscriminant, Query.forDiscriminant_of_ok h, bernoulliForCharacter]

namespace Session

variable {s : Session} {t : Table}

/-! ### One request -/

section one

variable {α : Type}

theorem answer_of_none (h : s.table = none) (q : Query α) : s.answer q = (q.fresh, s) := by
  simp only [answer, h]

theorem answer_of_some (h : s.table = some t) (q : Query α) :
    s.answer q = ((q.fromTable t).1, { s with table := some (q.fromTable t).2 }) := by
  simp only [answer, h]

theorem useTable_of_none (h : s.table = none) (use : Table → Answer × Table) :
    s.useTable use = (.nothing, s) := by
  simp only [useTable, h]

theorem useTable_of_some (h : s.table = some t) (use : Table → Answer × Table) :
    s.useTable use = ((use t).1, { s with table := some (use t).2 }) := by
  simp only [useTable, h]

theorem ask_of_none (h : s.table = none) (q : Checked (Query α)) : (s.ask q).2 = s := by
  cases q with
  | error e => rfl
  | ok q => rw [ask, answer_of_none h]

theorem ask_of_some (h : s.table = some t) (q : Checked (Query α)) :
    ∃ t', t.Step t' ∧ (s.ask q).2 = { s with table := some t' } := by
  cases q with
  | error e => exact ⟨t, .none, by rw [← h]; rfl⟩
  | ok q => exact ⟨_, q.step_fromTable t, by rw [ask, answer_of_some h]⟩

end one

theorem perform_of_none (h : s.table = none) (r : Request) : (s.perform r).2 = s := by
  cases r with
  | question q => exact ask_of_none h _
  | tableUpTo n => rw [perform, useTable_of_none h]; rfl
  | tableGet n => rw [perform, useTable_of_none h]; rfl
  | tableClear => rw [perform, useTable_of_none h]; rfl

/-- **What a request does to a session with a table**: one step of the table, and nothing else. -/
theorem perform_of_some (h : s.table = some t) (r : Request) :
    ∃ t', t.Step t' ∧ (s.perform r).2 = { s with table := some t' } := by
  cases r with
  | question q => exact ask_of_some h _
  | tableUpTo n => exact ⟨_, .upTo n, by rw [perform, useTable_of_some h]; rfl⟩
  | tableGet n => exact ⟨_, .get n, by rw [perform, useTable_of_some h]; rfl⟩
  | tableClear => exact ⟨_, .clear, by rw [perform, useTable_of_some h]; rfl⟩

/-! ### Reached sessions -/

/-- **What is known of a session** that was started with these settings, whatever it has been asked
since. -/
structure Reached (s : Session) (settings : Settings) : Prop where
  admission : s.admission = settings.admission
  remembers : s.table.isSome = settings.remembers
  limit : ∀ t, s.table = some t → t.limit = settings.tableLimit
  valid : ∀ t, s.table = some t → t.Valid

theorem reached_start (settings : Settings) : (start settings).Reached settings := by
  unfold start
  cases h : settings.remembers with
  | false => exact ⟨rfl, h.symm, by simp, by simp⟩
  | true =>
    refine ⟨rfl, h.symm, ?_, ?_⟩
    · rintro t ⟨⟩; rfl
    · rintro t ⟨⟩; exact Table.valid_empty _

theorem Reached.perform {settings : Settings} (hs : s.Reached settings) (r : Request) :
    (s.perform r).2.Reached settings := by
  cases h : s.table with
  | none => rw [perform_of_none h]; exact hs
  | some t =>
    obtain ⟨t', hstep, hs'⟩ := perform_of_some h r
    rw [hs']
    refine ⟨hs.admission, ?_, ?_, ?_⟩
    · rw [← hs.remembers, h]; rfl
    · rintro _ ⟨⟩; rw [hstep.limit_eq]; exact hs.limit t h
    · rintro _ ⟨⟩; exact hstep.valid (hs.valid t h)

/-- **Every history keeps what is known of a session.** -/
theorem Reached.after {settings : Settings} (hs : s.Reached settings) (history : List Request) :
    (s.after history).Reached settings := by
  induction history generalizing s with
  | nil => exact hs
  | cons r history ih => exact ih (hs.perform r)

/-! ### Answers -/

variable {settings : Settings}

theorem Reached.answer_fst (hs : s.Reached settings) {α : Type} (q : Query α) :
    (s.answer q).1 = q.fresh := by
  cases h : s.table with
  | none => rw [answer_of_none h]
  | some t => rw [answer_of_some h]; exact Query.fromTable_fst (hs.valid t h) q

theorem Reached.ask_fst (hs : s.Reached settings) {α : Type} (q : Checked (Query α)) :
    (s.ask q).1 = q.map Query.fresh := by
  cases q with
  | error e => rfl
  | ok q => exact congrArg Except.ok (hs.answer_fst q)

/-- **A question is answered with fresh numbers**, or refused as it would be afresh. -/
theorem Reached.perform_question (hs : s.Reached settings) (q : Question) :
    (s.perform (.question q)).1 = (q.query settings.admission).map Query.fresh := by
  rw [← hs.admission]
  exact hs.ask_fst _

/-- A question for one kind of answer, by the query for that kind. -/
theorem Reached.perform_question_of_query (hs : s.Reached settings) {q : Question} {α : Type}
    {f : α → Answer} {query : Checked (Query α)}
    (hq : q.query settings.admission = query.map (·.map f)) :
    (s.perform (.question q)).1 = (query.map Query.fresh).map f := by
  rw [hs.perform_question, hq, Query.map_fresh_map]

/-- **Direct use of the table**, which is there if the settings ask for one. -/
theorem Reached.perform_table (hs : s.Reached settings) (hr : settings.remembers = true) (n : ℕ) :
    (s.perform (.tableUpTo n)).1 = .ok (.fractions (upTo n)) ∧
      (s.perform (.tableGet n)).1 = .ok (.fraction (number n)) := by
  obtain ⟨t, ht⟩ := Option.isSome_iff_exists.mp (hs.remembers.trans hr)
  have hv := hs.valid t ht
  constructor
  · rw [Session.perform, useTable_of_some ht, ← hv.upTo_fst n]; rfl
  · rw [Session.perform, useTable_of_some ht, ← hv.get_fst n]; rfl

/-- **The table cannot be observed.** After any history a session answers every question as one
that keeps nothing and has answered nothing, which for numbers and polynomials is the answer
computed afresh; and its table, used directly, gives the fresh list and the last entry of it. -/
theorem answers_eq_fresh (settings : Settings) (history : List Request) :
    let s := (start settings).after history
    let blank := start { settings with remembers := false }
    (∀ q : Question, (s.perform (.question q)).1 = (blank.perform (.question q)).1) ∧
      (∀ n, (s.perform (.question (.bernoulliNumber n))).1 =
        (bernoulliNumber n).map .fraction) ∧
      (∀ n, (s.perform (.question (.bernoulliNumbers n))).1 =
        (bernoulliNumbers n).map .fractions) ∧
      (∀ n, (s.perform (.question (.bernoulliPolynomial n))).1 =
        (bernoulliPolynomial n).map .polynomial) ∧
      (∀ k modulus χ, (s.perform (.question (.forFunction k modulus χ))).1 =
        (bernoulliForFunction k modulus χ).map .fraction) ∧
      (∀ k d χ, QuadraticCharacter.ofDiscriminant settings.admission d = .ok χ →
        (s.perform (.question (.forDiscriminant k d))).1 =
          (bernoulliForCharacter χ k).map .fraction) ∧
      (settings.remembers = true → ∀ n,
        (s.perform (.tableUpTo n)).1 = .ok (.fractions (upTo n)) ∧ (upTo n).length = n + 1 ∧
          ∃ b, (upTo n).getLast? = some b ∧ (s.perform (.tableGet n)).1 = .ok (.fraction b)) := by
  intro s blank
  have hs : s.Reached settings := (reached_start settings).after history
  have hblank : blank.Reached { settings with remembers := false } := reached_start _
  refine ⟨fun q => ?_, fun n => hs.perform_question_of_query rfl,
    fun n => hs.perform_question_of_query rfl, fun n => hs.perform_question_of_query rfl,
    fun k modulus χ => hs.perform_question_of_query rfl, fun k d χ hχ => ?_, fun hr n => ?_⟩
  · rw [hs.perform_question, hblank.perform_question]
  · have hq := Query.forDiscriminant_of_ok hχ k
    exact hs.perform_question_of_query (by rw [Question.query, hq])
  · obtain ⟨hlist, hget⟩ := hs.perform_table hr n
    refine ⟨hlist, length_upTo n, number n, ?_, hget⟩
    rw [List.getLast?_eq_getElem?, length_upTo, Nat.add_sub_cancel]
    exact getElem?_upTo_self n

/-- A table that may keep `B_0` and `B_1` only, after growth, a refusal, a clearing and a question
beyond the limit: the question for the imprimitive discriminant `-12`, and the table. -/
theorem answers_eq_fresh_tiny :
    let settings : Settings := { tableLimit := 1, admission := .discriminant }
    let s := (start settings).after [.question (.bernoulliNumbers 6), .question (.zeta (-1)),
      .tableClear, .tableGet 4, .question (.character 9)]
    let χ : QuadraticCharacter := { discriminant := -12 }
    QuadraticCharacter.ofDiscriminant .discriminant (-12) = .ok χ ∧
      (s.perform (.question (.forDiscriminant 1 (-12)))).1 =
        (bernoulliForCharacter χ 1).map .fraction ∧
      settings.remembers = true ∧ (s.perform (.tableUpTo 3)).1 = .ok (.fractions (upTo 3)) := by
  intro settings s χ
  have hχ : QuadraticCharacter.ofDiscriminant .discriminant (-12) = .ok χ := rfl
  obtain ⟨-, -, -, -, -, hd, ht⟩ := answers_eq_fresh settings
    [.question (.bernoulliNumbers 6), .question (.zeta (-1)), .tableClear, .tableGet 4,
      .question (.character 9)]
  exact ⟨hχ, hd 1 (-12) χ hχ, rfl, (ht rfl 3).1⟩

end Session

end ZetaValues
