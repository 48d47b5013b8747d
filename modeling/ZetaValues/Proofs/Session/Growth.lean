import ZetaValues.Proofs.Character.Parity
import ZetaValues.Proofs.Session.Refusals

/-! # How the table of a session grows

An answer takes at most one thing from the table: a number, or a list. So a question that is
answered leaves the session as one direct use of the table does, or as it was
(`Question.tableUse`), and the length of the table after any history follows from the growth of a
table by its direct uses. The use of a question is that of the query it ends in, past all checks
(`Uses`). -/

namespace ZetaValues

open ZetaValues.Bernoulli

/-! ### Queries -/

/-- The direct use of the table that an answer amounts to: none, or one. -/
def Query.tableUse {α : Type} : Query α → List Request
  | known _ => []
  | fromNumber n _ => [.tableGet n]
  | fromNumbers n _ => [.tableUpTo n]

/-- If the checks are passed, what is left uses the table in this way. -/
def Uses {α : Type} (uses : List Request) (x : Checked (Query α)) : Prop :=
  ∀ q, x = .ok q → q.tableUse = uses

section Uses
variable {α β : Type} {uses : List Request}

theorem uses_ok (q : Query α) : Uses q.tableUse (.ok q) := by
  rintro _ ⟨⟩
  rfl

theorem Uses.bind {x : Checked β} {f : β → Checked (Query α)}
    (h : ∀ b, x = .ok b → Uses uses (f b)) : Uses uses (x >>= f) := by
  intro q hq
  cases x with
  | error e => cases hq
  | ok b => exact h b rfl q hq

theorem Uses.ite {c : Prop} [Decidable c] {e : ArgumentError} {x : Checked (Query α)}
    (h : ¬ c → Uses uses x) : Uses uses (if c then .error e else x) := by
  split_ifs with hc
  · rintro q ⟨⟩
  · exact h hc

/-- What an answer uses does not depend on how it is finished. -/
theorem Uses.map {x : Checked (Query α)} (h : Uses uses x) (f : α → β) :
    Uses uses (x.map (·.map f)) := by
  intro q hq
  cases x with
  | error e => cases hq
  | ok q' =>
    obtain rfl := Except.ok.inj hq
    rw [← h q' rfl]
    cases q' <;> rfl

/-- An index that is accepted is the natural number that the argument stands for. -/
theorem Uses.index {a : Argument} {bound : ℕ} {v : Int64} {f : ℕ → Checked (Query α)}
    (h : Uses uses (f v.toInt.toNat)) : Uses uses (a.indexUpTo bound v >>= f) := by
  refine Uses.bind fun i hi => ?_
  rwa [(Argument.indexUpTo_eq_ok hi).1, Int.toNat_natCast] at h

end Uses

namespace Query

/-- What the number of weight `k` of the character of `d` uses: nothing if it vanishes by parity. -/
def usesOfWeight (d k : Int64) : List Request :=
  if 1 < d.toInt.natAbs ∧ d.toInt.sign ≠ (-1) ^ k.toInt.toNat then []
  else [.tableUpTo k.toInt.toNat]

theorem uses_ofCharacter (χ : QuadraticCharacter) (k : Int64) :
    Uses (usesOfWeight χ.discriminant k) (.ok (ofCharacter χ k.toInt.toNat)) := by
  by_cases hv : χ.VanishesAt k.toInt.toNat
  · rw [ofCharacter, if_pos hv, usesOfWeight, if_pos ((χ.vanishesAt_iff _).mp hv)]
    exact uses_ok _
  · rw [ofCharacter, if_neg hv, usesOfWeight, if_neg (mt (χ.vanishesAt_iff _).mpr hv)]
    exact uses_ok _

theorem uses_forCharacter (χ : QuadraticCharacter) (k : Int64) :
    Uses (usesOfWeight χ.discriminant k) (forCharacter χ k) :=
  Uses.index (uses_ofCharacter χ k)

theorem uses_forDiscriminant (admission : Admission) (k d : Int64) :
    Uses (usesOfWeight d k) (forDiscriminant admission k d) := by
  refine Uses.index (Uses.bind fun χ hχ => ?_)
  rw [← χ.discriminant_of_ok hχ]
  exact uses_ofCharacter χ k

theorem uses_weighted (admission : Admission) (k d : Int64) (f : ℕ → ℚ → ℚ) :
    Uses (usesOfWeight d k) (do
      let weight ← Argument.k.weight k
      let b ← forDiscriminant admission k d
      return b.map (f weight)) :=
  Uses.bind fun weight _ => (uses_forDiscriminant admission k d).map (f weight)

/-- The weight 1 is that of the odd characters, which those of imaginary fields are. -/
theorem uses_classNumber (admission : Admission) (d : Int64) :
    Uses [.tableUpTo 1] (classNumber admission d) := by
  refine Uses.ite fun hneg => Uses.ite fun _ => ?_
  have hone : usesOfWeight d 1 = [.tableUpTo 1] := by
    refine if_neg fun h => h.2 ?_
    rw [Int.sign_eq_neg_one_of_neg (by omega)]
    rfl
  rw [← hone]
  exact (uses_forDiscriminant admission 1 d).map fun b => (classNumberOf d b).num

end Query

/-! ### Questions -/

namespace Question

/-- **What a question uses**, once its arguments are accepted. -/
def tableUse : Question → List Request
  | bernoulliNumber n => [.tableGet n.toInt.toNat]
  | bernoulliNumbers n => [.tableUpTo n.toInt.toNat]
  | bernoulliPolynomial n => [.tableUpTo n.toInt.toNat]
  | evaluate _ _ => []
  | character _ => []
  | forFunction k _ _ => [.tableUpTo k.toInt.toNat]
  | forCharacter χ k => Query.usesOfWeight χ.discriminant k
  | forDiscriminant k d => Query.usesOfWeight d k
  | zeta n => [.tableGet (n.toInt.toNat + 1)]
  | lValue k d => Query.usesOfWeight d k
  | eisensteinConstant k d => Query.usesOfWeight d k
  | classNumber _ => [.tableUpTo 1]
  | powerSum k _ => [.tableUpTo (k.toInt.toNat + 1)]

theorem uses_query (admission : Admission) (q : Question) :
    Uses q.tableUse (q.query admission) := by
  cases q with
  | bernoulliNumber n => exact (Uses.index (uses_ok _)).map _
  | bernoulliNumbers n => exact (Uses.index (uses_ok _)).map _
  | bernoulliPolynomial n => exact (Uses.index (uses_ok _)).map _
  | evaluate p x => exact uses_ok _
  | character d =>
    cases h : QuadraticCharacter.ofDiscriminant admission d with
    | error e =>
      rw [query, h]
      rintro q ⟨⟩
    | ok χ =>
      rw [query, h]
      exact uses_ok (.known (Answer.character χ))
  | forFunction k modulus χ =>
    refine Uses.map (Uses.index (Uses.bind fun N _ => ?_)) _
    exact uses_ok _
  | forCharacter χ k => exact (Query.uses_forCharacter χ k).map _
  | forDiscriminant k d => exact (Query.uses_forDiscriminant admission k d).map _
  | zeta n =>
    rw [query, Query.zeta_eq]
    exact (Uses.index (uses_ok _)).map _
  | lValue k d => exact (Query.uses_weighted admission k d _).map _
  | eisensteinConstant k d => exact (Query.uses_weighted admission k d _).map _
  | classNumber d => exact (Query.uses_classNumber admission d).map _
  | powerSum k n =>
    rw [query, Query.powerSum_eq]
    refine Uses.map (Uses.index (Uses.bind fun m _ => ?_)) _
    exact uses_ok _

end Question

/-! ### Sessions -/

namespace Session

variable {s : Session} {t : Table}

/-- An answer leaves the session as the direct use of the table does. -/
theorem answer_snd {α : Type} (s : Session) (q : Query α) :
    (s.answer q).2 = s.after q.tableUse := by
  cases h : s.table with
  | none =>
    rw [answer_of_none h]
    cases q with
    | known a => rfl
    | fromNumber n finish => exact (perform_of_none h (.tableGet n)).symm
    | fromNumbers n finish => exact (perform_of_none h (.tableUpTo n)).symm
  | some t =>
    rw [answer_of_some h]
    cases q with
    | known a =>
      show { s with table := some t } = s
      rw [← h]
    | fromNumber n finish =>
      show _ = (s.perform (.tableGet n)).2
      rw [perform, useTable_of_some h]
      rfl
    | fromNumbers n finish =>
      show _ = (s.perform (.tableUpTo n)).2
      rw [perform, useTable_of_some h]
      rfl

/-- **A question that is answered** leaves the session as its use of the table does. -/
theorem perform_question_snd {q : Question} (h : s.Accepts q) :
    (s.perform (.question q)).2 = s.after q.tableUse := by
  obtain ⟨a, ha⟩ := h
  rw [perform] at ha ⊢
  cases hq : q.query s.admission with
  | error e =>
    rw [hq] at ha
    cases ha
  | ok query =>
    rw [← q.uses_query s.admission query hq, ← answer_snd]
    rfl

theorem perform_question_snd_of_not {q : Question} (h : ¬ s.Accepts q) :
    (s.perform (.question q)).2 = s := by
  cases hq : (s.perform (.question q)).1 with
  | error e => exact ask_of_error hq
  | ok a => exact absurd ⟨a, hq⟩ h

/-- The table of a session after any history was empty once, and used since. -/
theorem exists_table_after (h : s.table = some t) {limit : ℕ} (ht : t.Reachable limit)
    (history : List Request) : ∃ t', (s.after history).table = some t' ∧ t'.Reachable limit := by
  induction history generalizing s t with
  | nil => exact ⟨t, h, ht⟩
  | cons r history ih =>
    obtain ⟨t', hstep, hs'⟩ := perform_of_some h r
    exact ih (s := (s.perform r).2) (by rw [hs']) (ht.tail hstep)

/-- **How a table grows.** A table that was empty once holds nothing or a fresh list, which is not
longer than the limit allows. A list makes it reach as far as the list or the limit, and not less
far than before; a number leaves it as it is if a closed form is known, and else does what the list
does. In a session the table is such a table after any history: a question that is answered does to
it what the question uses (`Question.tableUse`), and one that is refused nothing. -/
theorem table_growth (limit : ℕ) :
    (∀ t : Table, t.Reachable limit →
      (t.entries = [] ∨ t.entries = upTo (t.entries.length - 1)) ∧
        t.entries.length ≤ limit + 1 ∧
        (∀ n, (t.upTo n).2.entries.length = max t.entries.length (min n limit + 1)) ∧
        (∀ n < UInt32.size, (n ≤ 1 ∨ n % 2 = 1 → (t.get n).2 = t) ∧
          (¬ (n ≤ 1 ∨ n % 2 = 1) → (t.get n).2 = (t.upTo n).2)) ∧
        t.clear.entries.length = 0) ∧
      ∀ settings : Settings, settings.remembers = true → settings.tableLimit = limit →
        ∀ history : List Request,
          let s := (start settings).after history
          ∃ t, s.table = some t ∧ t.Reachable limit ∧
            (∀ n, (s.perform (.tableUpTo n)).2.table = some (t.upTo n).2 ∧
              (s.perform (.tableGet n)).2.table = some (t.get n).2) ∧
            (s.perform .tableClear).2.table = some t.clear ∧
            ∀ q, (s.Accepts q → (s.perform (.question q)).2 = s.after q.tableUse) ∧
              (¬ s.Accepts q → (s.perform (.question q)).2 = s) := by
  constructor
  · intro t ht
    refine ⟨ht.valid.entries_eq, ?_, fun n => ?_, fun n hn => ?_, rfl⟩
    · rw [← ht.limit_eq]
      exact ht.valid.length_le
    · rw [← ht.limit_eq]
      exact t.length_upTo n
    · exact ⟨t.get_snd_of_closedForm hn, t.get_snd_of_recurrence hn⟩
  · intro settings hr hl history s
    have hstart : (start settings).table = some (.empty limit) := by
      rw [start, if_pos hr, hl]
    obtain ⟨t, ht, hreach⟩ := exists_table_after hstart .refl history
    refine ⟨t, ht, hreach, fun n => ⟨?_, ?_⟩, ?_, fun q => ?_⟩
    · rw [perform, useTable_of_some ht]; rfl
    · rw [perform, useTable_of_some ht]; rfl
    · rw [perform, useTable_of_some ht]; rfl
    · exact ⟨perform_question_snd, perform_question_snd_of_not⟩

/-- A table that may keep `B_0, …, B_3`, after a list beyond that, a clearing and a number. -/
theorem table_growth_three :
    let settings : Settings := { tableLimit := 3, admission := .discriminant }
    let s := (start settings).after [.question (.bernoulliNumbers 6), .tableClear, .tableGet 4]
    ∃ t, s.table = some t ∧ t.Reachable 3 ∧ t.entries.length = 4 ∧
      (t.upTo 6).2.entries.length = 4 ∧ (t.get 5).2 = t ∧ (t.get 6).2 = (t.upTo 6).2 ∧
      s.Accepts (.lValue 3 (-4)) ∧
      (s.perform (.question (.lValue 3 (-4)))).2 = (s.perform (.tableUpTo 3)).2 ∧
      s.Accepts (.forDiscriminant 2 (-4)) ∧
      (s.perform (.question (.forDiscriminant 2 (-4)))).2 = s ∧
      ¬ s.Accepts (.zeta (-1)) ∧ (s.perform (.question (.zeta (-1)))).2 = s := by
  intro settings s
  obtain ⟨hlaws, hsession⟩ := table_growth 3
  obtain ⟨t, ht, hreach, -, -, hquestion⟩ := hsession settings rfl rfl
    [.question (.bernoulliNumbers 6), .tableClear, .tableGet 4]
  obtain ⟨-, -, hlist, hnumber, -⟩ := hlaws t hreach
  have hs : s.Reached settings := (reached_start settings).after _
  have hlen : t.entries.length = 4 := by
    have hkept : s.kept = some 4 := by decide +kernel
    rw [kept, ht] at hkept
    exact Option.some.inj hkept
  have hodd : s.Accepts (.lValue 3 (-4)) := by
    rw [hs.accepts_iff]
    simp only [Question.demands, Demand.weighted, Demand.admitted, List.forall_mem_cons]
    exact ⟨by decide, by decide, by decide, by decide, by simp⟩
  have heven : s.Accepts (.forDiscriminant 2 (-4)) := by
    rw [hs.accepts_iff]
    simp only [Question.demands, Demand.index, Demand.admitted, List.cons_append, List.nil_append,
      List.forall_mem_cons]
    exact ⟨by decide, by decide, by decide, by decide, by simp⟩
  have hneg : ¬ s.Accepts (.zeta (-1)) := fun h =>
    absurd ((hs.accepts_iff _).mp h _ List.mem_cons_self) (by decide)
  refine ⟨t, ht, hreach, hlen, ?_, ?_, ?_, hodd, ?_, heven, ?_, hneg, (hquestion _).2 hneg⟩
  · rw [hlist, hlen]; rfl
  · exact (hnumber 5 (by decide)).1 (by decide)
  · exact (hnumber 6 (by decide)).2 (by decide)
  · exact (hquestion _).1 hodd
  · exact (hquestion _).1 heven

end Session

end ZetaValues
