import ZetaValues.Proofs.Query
import ZetaValues.Proofs.Session.Caching
import Mathlib.Tactic.Tauto

/-! # What is refused, and for what reason

Each question makes demands on its arguments in a fixed order (`Question.demands`), and the first
one that is not met is reported. The checks of a question are put together from a few checks of one
argument, so it is enough to know the demands of these (`Guards`) and that they add up along a chain
of checks (`Guards.bind`). A check that comes again on an argument that has passed a stricter one
makes no demand any more. -/

namespace ZetaValues

/-! ### Demands -/

/-- What must hold of an argument, and the refusal where it does not. -/
structure Demand where
  met : Prop
  refusal : ArgumentError

/-- The first demand that is not met is refused by `e`. -/
def FirstUnmet : List Demand → ArgumentError → Prop
  | [], _ => False
  | D :: ds, e => (¬ D.met ∧ D.refusal = e) ∨ (D.met ∧ FirstUnmet ds e)

/-- A checked value is refused as the first unmet demand says, and only so. -/
def Guards {α : Type} (ds : List Demand) (x : Checked α) : Prop :=
  ∀ e, x = .error e ↔ FirstUnmet ds e

theorem exists_firstUnmet_iff {ds : List Demand} :
    (∃ e, FirstUnmet ds e) ↔ ¬ ∀ D ∈ ds, D.met := by
  induction ds with
  | nil => simp [FirstUnmet]
  | cons D ds ih =>
    by_cases h : D.met
    · simp only [FirstUnmet, h, not_true, false_and, false_or, true_and, ih, List.forall_mem_cons]
    · simp [FirstUnmet, h]

theorem FirstUnmet.exists_mem {ds : List Demand} {e : ArgumentError} (h : FirstUnmet ds e) :
    ∃ D ∈ ds, ¬ D.met ∧ D.refusal = e := by
  induction ds with
  | nil => exact h.elim
  | cons D ds ih =>
    rcases h with h | ⟨-, h⟩
    · exact ⟨D, List.mem_cons_self, h⟩
    · obtain ⟨D', hD', he⟩ := ih h
      exact ⟨D', List.mem_cons_of_mem D hD', he⟩

theorem firstUnmet_append {ds es : List Demand} {e : ArgumentError} :
    FirstUnmet (ds ++ es) e ↔ FirstUnmet ds e ∨ ((∀ D ∈ ds, D.met) ∧ FirstUnmet es e) := by
  induction ds with
  | nil => simp [FirstUnmet]
  | cons D ds ih =>
    simp only [List.cons_append, FirstUnmet, ih, List.forall_mem_cons]
    tauto

section Guards
variable {α β : Type} {ds es : List Demand} {x : Checked α}

theorem guards_ok (a : α) : Guards [] (.ok a : Checked α) := by
  intro e
  simp [FirstUnmet]

theorem Guards.exists_ok_iff (h : Guards ds x) : (∃ a, x = .ok a) ↔ ∀ D ∈ ds, D.met := by
  cases x with
  | error e =>
    have hnot := exists_firstUnmet_iff.mp ⟨e, (h e).mp rfl⟩
    exact iff_of_false (by simp) hnot
  | ok a =>
    refine iff_of_true ⟨a, rfl⟩ (by_contra fun hnot => ?_)
    obtain ⟨e, he⟩ := exists_firstUnmet_iff.mpr hnot
    simpa using (h e).mpr he

theorem Guards.met (h : Guards ds x) {a : α} (hx : x = .ok a) : ∀ D ∈ ds, D.met :=
  h.exists_ok_iff.mp ⟨a, hx⟩

/-- A demand that is met anyway may be left out. -/
theorem Guards.tail {D : Demand} (h : Guards (D :: ds) x) (hD : D.met) : Guards ds x := by
  intro e
  rw [h e]
  simp [FirstUnmet, hD]

/-- Demands that are all met leave nothing to refuse. -/
theorem Guards.nil_of_met (h : Guards ds x) (hmet : ∀ D ∈ ds, D.met) : Guards [] x := by
  intro e
  rw [h e]
  exact iff_of_false (fun he => exists_firstUnmet_iff.mp ⟨e, he⟩ hmet) id

/-- **The demands of a chain of checks** are those of the first and then those of the second. -/
theorem Guards.bind (hx : Guards ds x) {f : α → Checked β}
    (hf : ∀ a, x = .ok a → Guards es (f a)) : Guards (ds ++ es) (x >>= f) := by
  intro e
  rw [firstUnmet_append, ← hx e]
  cases x with
  | error e' =>
    have hnot : ¬ ∀ D ∈ ds, D.met := exists_firstUnmet_iff.mp ⟨e', (hx e').mp rfl⟩
    show Except.error e' = Except.error e ↔ _
    simp [hnot]
  | ok a =>
    have hmet := hx.met rfl
    show f a = .error e ↔ _
    rw [hf a rfl e]
    simp only [reduceCtorEq, false_or]
    exact (and_iff_right hmet).symm

theorem Guards.map (hx : Guards ds x) (f : α → β) : Guards ds (x.map f) := by
  intro e
  rw [← hx e]
  cases x with
  | error e' => simp [Except.map]
  | ok a => simp [Except.map]

/-- One check, and what comes after it. -/
theorem Guards.ite {c P : Prop} [Decidable c] (hP : P ↔ ¬ c) {e₀ : ArgumentError}
    (hx : ¬ c → Guards ds x) : Guards (⟨P, e₀⟩ :: ds) (if c then .error e₀ else x) := by
  intro e
  by_cases h : c
  · simp [FirstUnmet, hP, h]
  · simp [FirstUnmet, hP, h, hx h e]

end Guards

/-! ### Checks of one argument -/

namespace Demand

/-- An index from 0 to `bound`. -/
def index (a : Argument) (v : Int64) (bound : ℤ) : List Demand :=
  [⟨0 ≤ v.toInt, ⟨a, v, .negative⟩⟩, ⟨v.toInt ≤ bound, ⟨a, v, .aboveMaxIndex⟩⟩]

/-- A discriminant that is admitted. -/
def admitted (admission : Admission) (d : Int64) : List Demand :=
  [⟨d ≠ 0, ⟨.d, d, .zero⟩⟩, ⟨admission.Admits d, ⟨.d, d, .notAdmitted admission⟩⟩]

/-- A weight from 1 to the largest index, and then a discriminant that is admitted. -/
def weighted (admission : Admission) (k d : Int64) : List Demand :=
  ⟨1 ≤ k.toInt, ⟨.k, k, .belowOne⟩⟩ :: ⟨k.toInt ≤ 16384, ⟨.k, k, .aboveMaxIndex⟩⟩ ::
    admitted admission d

/-- The weight 1 and a fundamental discriminant are accepted together in any case. -/
theorem met_of_isFundamental (admission : Admission) {d : Int64} (h : IsFundamental d) :
    ∀ D ∈ index .k 1 16384 ++ admitted admission d, D.met := by
  simp only [index, admitted, List.cons_append, List.nil_append, List.forall_mem_cons]
  exact ⟨by decide, by decide, h.isDiscriminant.1, admission.admits_of_isFundamental h, by simp⟩

end Demand

namespace Argument

theorem guards_natural (a : Argument) (v : Int64) :
    Guards [⟨0 ≤ v.toInt, ⟨a, v, .negative⟩⟩] (a.natural v) :=
  Guards.ite Int.not_lt.symm fun _ => guards_ok _

theorem guards_indexUpTo (a : Argument) (v : Int64) (bound : ℕ) :
    Guards (Demand.index a v bound) (a.indexUpTo bound v) := by
  refine Guards.bind (a.guards_natural v) fun i hi => ?_
  have hv := natural_eq_ok hi
  exact Guards.ite (by omega) fun _ => guards_ok _

theorem guards_index (a : Argument) (v : Int64) : Guards (Demand.index a v 16384) (a.index v) :=
  a.guards_indexUpTo v maxIndex

theorem guards_indexBelow (a : Argument) (v : Int64) :
    Guards (Demand.index a v 16383) (a.indexBelow v) :=
  a.guards_indexUpTo v (maxIndex - 1)

theorem guards_weight (a : Argument) (v : Int64) :
    Guards [⟨1 ≤ v.toInt, ⟨a, v, .belowOne⟩⟩] (a.weight v) :=
  Guards.ite Int.not_lt.symm fun _ => guards_ok _

theorem guards_positive (a : Argument) (m : UInt64) :
    Guards [⟨m ≠ 0, ⟨a, 0, .notPositive⟩⟩] (a.positive m) :=
  Guards.ite Iff.rfl fun _ => guards_ok _

end Argument

theorem QuadraticCharacter.guards_ofDiscriminant (admission : Admission) (d : Int64) :
    Guards (Demand.admitted admission d) (ofDiscriminant admission d) := by
  refine Guards.ite Iff.rfl fun _ => ?_
  intro e
  by_cases h : admission.Admits d
  · simp [FirstUnmet, h]
  · simp [FirstUnmet, h]

/-! ### Queries -/

namespace Query

theorem guards_forDiscriminant (admission : Admission) (k d : Int64) :
    Guards (Demand.index .k k 16384 ++ Demand.admitted admission d)
      (forDiscriminant admission k d) := by
  refine Guards.bind (Argument.k.guards_index k) fun i _ => ?_
  exact (QuadraticCharacter.guards_ofDiscriminant admission d).map (ofCharacter · i)

/-- After its own check a weight is not negative any more. -/
theorem guards_weighted {α : Type} (admission : Admission) (k d : Int64)
    (f : ℕ → Query Rat → α) :
    Guards (Demand.weighted admission k d) (do
      let weight ← Argument.k.weight k
      let b ← forDiscriminant admission k d
      return f weight b) := by
  refine Guards.bind (Argument.k.guards_weight k) fun i hi => ?_
  have h1 : 1 ≤ k.toInt := (Argument.k.guards_weight k).met hi _ List.mem_cons_self
  have h0 : 0 ≤ k.toInt := by omega
  exact ((guards_forDiscriminant admission k d).tail h0).map (f i)

/-- The query that a class number rests on refuses nothing any more. -/
theorem guards_classNumber (admission : Admission) (d : Int64) :
    Guards [⟨d.toInt < 0, ⟨.d, d, .notNegative⟩⟩,
      ⟨IsFundamental d, ⟨.d, d, .notAdmitted .fundamental⟩⟩] (classNumber admission d) := by
  refine Guards.ite Int.not_le.symm fun _ => Guards.ite not_not.symm fun h => ?_
  have hmet := Demand.met_of_isFundamental admission (not_not.mp h)
  exact ((guards_forDiscriminant admission 1 d).nil_of_met hmet).map _

theorem guards_powerSum (k n : Int64) :
    Guards (Demand.index .k k 16383 ++ [⟨0 ≤ n.toInt, ⟨.n, n, .negative⟩⟩]) (powerSum k n) := by
  rw [powerSum_eq]
  refine Guards.bind (Argument.k.guards_indexBelow k) fun i _ => ?_
  exact (Argument.n.guards_natural n).map _

end Query

namespace Question

/-- **The demands of a question**, in the order in which they are made. -/
def demands (admission : Admission) : Question → List Demand
  | bernoulliNumber n => Demand.index .n n 16384
  | bernoulliNumbers n => Demand.index .n n 16384
  | bernoulliPolynomial n => Demand.index .n n 16384
  | evaluate _ _ => []
  | character d => Demand.admitted admission d
  | forFunction k modulus _ =>
    Demand.index .k k 16384 ++ [⟨modulus ≠ 0, ⟨.modulus, 0, .notPositive⟩⟩]
  | forCharacter _ k => Demand.index .k k 16384
  | forDiscriminant k d => Demand.index .k k 16384 ++ Demand.admitted admission d
  | zeta n => Demand.index .n n 16383
  | lValue k d => Demand.weighted admission k d
  | eisensteinConstant k d => Demand.weighted admission k d
  | classNumber d =>
    [⟨d.toInt < 0, ⟨.d, d, .notNegative⟩⟩,
      ⟨IsFundamental d, ⟨.d, d, .notAdmitted .fundamental⟩⟩]
  | powerSum k n => Demand.index .k k 16383 ++ [⟨0 ≤ n.toInt, ⟨.n, n, .negative⟩⟩]

/-- The arguments of a question as they are given, those that can be refused. -/
def arguments : Question → List (Argument × ℤ)
  | bernoulliNumber n => [(.n, n.toInt)]
  | bernoulliNumbers n => [(.n, n.toInt)]
  | bernoulliPolynomial n => [(.n, n.toInt)]
  | evaluate _ _ => []
  | character d => [(.d, d.toInt)]
  | forFunction k modulus _ => [(.k, k.toInt), (.modulus, modulus.toNat)]
  | forCharacter _ k => [(.k, k.toInt)]
  | forDiscriminant k d => [(.k, k.toInt), (.d, d.toInt)]
  | zeta n => [(.n, n.toInt)]
  | lValue k d => [(.k, k.toInt), (.d, d.toInt)]
  | eisensteinConstant k d => [(.k, k.toInt), (.d, d.toInt)]
  | classNumber d => [(.d, d.toInt)]
  | powerSum k n => [(.k, k.toInt), (.n, n.toInt)]

theorem mem_arguments {admission : Admission} {q : Question} {e : ArgumentError}
    (h : FirstUnmet (q.demands admission) e) : (e.argument, e.value.toInt) ∈ q.arguments := by
  obtain ⟨D, hD, hunmet, rfl⟩ := h.exists_mem
  clear h
  revert D
  cases q with
  | forFunction k modulus χ =>
    simp only [demands, arguments, Demand.index, List.cons_append, List.nil_append,
      List.forall_mem_cons]
    refine ⟨fun _ => by simp, fun _ => by simp, fun hmod => ?_, by simp⟩
    -- the modulus is reported as 0, which it is
    obtain rfl : modulus = 0 := not_not.mp hmod
    have hzero : (0 : Int64).toInt = 0 := rfl
    simp [hzero]
  | _ => simp [demands, arguments, Demand.index, Demand.admitted, Demand.weighted]

theorem guards_query (admission : Admission) (q : Question) :
    Guards (q.demands admission) (q.query admission) := by
  cases q with
  | bernoulliNumber n => exact ((Argument.n.guards_index n).map _).map _
  | bernoulliNumbers n => exact ((Argument.n.guards_index n).map _).map _
  | bernoulliPolynomial n => exact ((Argument.n.guards_index n).map _).map _
  | evaluate p x => exact guards_ok _
  | character d => exact (QuadraticCharacter.guards_ofDiscriminant admission d).map _
  | forFunction k modulus χ =>
    refine Guards.map (Guards.bind (Argument.k.guards_index k) fun i _ => ?_) _
    exact (Argument.modulus.guards_positive modulus).map _
  | forCharacter χ k => exact ((Argument.k.guards_index k).map _).map _
  | forDiscriminant k d => exact (Query.guards_forDiscriminant admission k d).map _
  | zeta n =>
    rw [query, Query.zeta_eq]
    exact ((Argument.n.guards_indexBelow n).map _).map _
  | lValue k d => exact (Query.guards_weighted admission k d _).map _
  | eisensteinConstant k d => exact (Query.guards_weighted admission k d _).map _
  | classNumber d => exact (Query.guards_classNumber admission d).map _
  | powerSum k n => exact (Query.guards_powerSum k n).map _

end Question

/-! ### Sessions -/

namespace Session

variable {s : Session} {settings : Settings}

/-- The question is refused by `e`. -/
def Refuses (s : Session) (q : Question) (e : ArgumentError) : Prop :=
  (s.perform (.question q)).1 = .error e

/-- The question is answered. -/
def Accepts (s : Session) (q : Question) : Prop :=
  ∃ a, (s.perform (.question q)).1 = .ok a

theorem Reached.guards (hs : s.Reached settings) (q : Question) :
    Guards (q.demands settings.admission) (s.perform (.question q)).1 := by
  rw [hs.perform_question]
  exact (q.guards_query settings.admission).map _

theorem Reached.accepts_iff (hs : s.Reached settings) (q : Question) :
    s.Accepts q ↔ ∀ D ∈ q.demands settings.admission, D.met :=
  (hs.guards q).exists_ok_iff

theorem ask_of_error {α : Type} {q : Checked (Query α)} {e : ArgumentError}
    (h : (s.ask q).1 = .error e) : (s.ask q).2 = s := by
  cases q with
  | error e => rfl
  | ok q => exact absurd h (by simp [ask])

theorem toInt_two_mul {k : Int64} (h0 : 0 ≤ k.toInt) (h : k.toInt ≤ 16384) :
    (2 * k).toInt = 2 * k.toInt := by
  have htwo : (2 : Int64).toInt = 2 := rfl
  rw [Int64.toInt_mul, htwo]
  exact Int.bmod_eq_of_le (by omega) (by omega)

/-! ### Answers that rest on other answers -/

/-- An index that has a successor: its checks leave nothing to refuse in the successor. -/
theorem index_add_one (a b : Argument) {v : Int64} (h : ∀ D ∈ Demand.index a v 16383, D.met) :
    (v + 1).toInt = v.toInt + 1 ∧ ∀ D ∈ Demand.index b (v + 1) 16384, D.met := by
  simp only [Demand.index, List.forall_mem_cons] at h ⊢
  obtain ⟨h0, hmax, -⟩ := h
  have hbound : maxIndex = 16384 := rfl
  have hsucc : (v + 1).toInt = v.toInt + 1 := Argument.toInt_add_one h0 (by omega)
  rw [hsucc]
  exact ⟨rfl, by omega, by omega, by simp⟩

theorem Reached.accepts_zeta (hs : s.Reached settings) {n : Int64} (h : s.Accepts (.zeta n)) :
    (n + 1).toInt = n.toInt + 1 ∧ s.Accepts (.bernoulliNumber (n + 1)) := by
  rw [hs.accepts_iff] at h ⊢
  exact index_add_one .n .n h

theorem Reached.accepts_powerSum (hs : s.Reached settings) {k n : Int64}
    (h : s.Accepts (.powerSum k n)) :
    (k + 1).toInt = k.toInt + 1 ∧ s.Accepts (.bernoulliPolynomial (k + 1)) := by
  rw [hs.accepts_iff] at h ⊢
  exact index_add_one .k .n fun D hD => h D (List.mem_append_left _ hD)

theorem Reached.accepts_eisensteinConstant (hs : s.Reached settings) {k d : Int64}
    (h : s.Accepts (.eisensteinConstant k d)) : (2 * k).toInt = 2 * k.toInt := by
  rw [hs.accepts_iff] at h
  simp only [Question.demands, Demand.weighted, List.forall_mem_cons] at h
  obtain ⟨h1, hmax, -⟩ := h
  exact toInt_two_mul (by omega) hmax

theorem Reached.accepts_classNumber (hs : s.Reached settings) {d : Int64}
    (h : s.Accepts (.classNumber d)) : s.Accepts (.forDiscriminant 1 d) := by
  rw [hs.accepts_iff] at h ⊢
  simp only [Question.demands, List.forall_mem_cons] at h
  exact Demand.met_of_isFundamental settings.admission h.2.1

/-- A weight that is at least 1 is checked like an index. -/
theorem firstUnmet_weighted_iff (admission : Admission) {k : Int64} (h : 1 ≤ k.toInt)
    (d : Int64) (e : ArgumentError) : FirstUnmet (Demand.weighted admission k d) e ↔
      FirstUnmet (Demand.index .k k 16384 ++ Demand.admitted admission d) e := by
  have h0 : 0 ≤ k.toInt := by omega
  simp [Demand.weighted, Demand.index, FirstUnmet, h, h0]

/-- **Refusals are exact**, after any history: a question is refused exactly if one of its demands
is not met, and by the first of these. The refusal carries an argument of the question as it was
given, and the session stays as it is. The questions that an answer rests on are then not refused,
or refused alike: the number after the one asked for (the sum that is its argument is a word), the
polynomial, and the number of the character, whatever discriminants are admitted. -/
theorem refuses_iff_firstUnmet (settings : Settings) (history : List Request) :
    let s := (start settings).after history
    (∀ q e, s.Refuses q e ↔ FirstUnmet (q.demands settings.admission) e) ∧
      (∀ q e, s.Refuses q e → (e.argument, e.value.toInt) ∈ q.arguments ∧
        (s.perform (.question q)).2 = s) ∧
      (∀ n, s.Accepts (.zeta n) →
        (n + 1).toInt = n.toInt + 1 ∧ s.Accepts (.bernoulliNumber (n + 1))) ∧
      (∀ k n, s.Accepts (.powerSum k n) →
        (k + 1).toInt = k.toInt + 1 ∧ s.Accepts (.bernoulliPolynomial (k + 1))) ∧
      (∀ k d, 1 ≤ k.toInt → ∀ e,
        (s.Refuses (.lValue k d) e ↔ s.Refuses (.forDiscriminant k d) e) ∧
          (s.Refuses (.eisensteinConstant k d) e ↔ s.Refuses (.forDiscriminant k d) e)) ∧
      (∀ k d, s.Accepts (.eisensteinConstant k d) → (2 * k).toInt = 2 * k.toInt) ∧
      (∀ d, s.Accepts (.classNumber d) → s.Accepts (.forDiscriminant 1 d)) := by
  intro s
  have hs : s.Reached settings := (reached_start settings).after history
  have hexact : ∀ q e, s.Refuses q e ↔ FirstUnmet (q.demands settings.admission) e := hs.guards
  refine ⟨hexact, fun q e h => ?_, fun n => hs.accepts_zeta, fun k n => hs.accepts_powerSum,
    fun k d h1 e => ?_, fun k d => hs.accepts_eisensteinConstant, fun d => hs.accepts_classNumber⟩
  · exact ⟨Question.mem_arguments ((hexact q e).mp h), ask_of_error h⟩
  · have hweight := firstUnmet_weighted_iff settings.admission h1 d e
    rw [hexact, hexact, hexact]
    exact ⟨hweight, hweight⟩

/-- After a list, a refusal and a clearing: an index that has no successor is refused as it was
given, and so is a weight that is too large, before the discriminant 0; the class number of `-4`
rests on a number that is answered. -/
theorem refuses_iff_firstUnmet_largest :
    let s := (start { tableLimit := 3 }).after
      [.question (.bernoulliNumbers 6), .question (.powerSum 16384 2), .tableClear]
    s.Refuses (.zeta 16384) ⟨.n, 16384, .aboveMaxIndex⟩ ∧
      (s.perform (.question (.zeta 16384))).2 = s ∧
      1 ≤ Int64.maxValue.toInt ∧
      s.Refuses (.forDiscriminant Int64.maxValue 0) ⟨.k, Int64.maxValue, .aboveMaxIndex⟩ ∧
      s.Refuses (.lValue Int64.maxValue 0) ⟨.k, Int64.maxValue, .aboveMaxIndex⟩ ∧
      s.Accepts (.classNumber (-4)) ∧ s.Accepts (.forDiscriminant 1 (-4)) := by
  intro s
  have hs : s.Reached { tableLimit := 3 } := (reached_start _).after _
  obtain ⟨hexact, hstays, -, -, hweight, -, hclass⟩ := refuses_iff_firstUnmet { tableLimit := 3 }
    [.question (.bernoulliNumbers 6), .question (.powerSum 16384 2), .tableClear]
  have hn : s.Refuses (.zeta 16384) ⟨.n, 16384, .aboveMaxIndex⟩ :=
    (hexact _ _).mpr (Or.inr ⟨by decide, Or.inl ⟨by decide, rfl⟩⟩)
  have hk : s.Refuses (.forDiscriminant Int64.maxValue 0) ⟨.k, Int64.maxValue, .aboveMaxIndex⟩ :=
    (hexact _ _).mpr (Or.inr ⟨by decide, Or.inl ⟨by decide, rfl⟩⟩)
  have h1 : 1 ≤ Int64.maxValue.toInt := by decide
  have hfund : IsFundamental (-4) :=
    (isFundamental_iff (-4)).mpr (Or.inr ⟨-1, rfl, by decide, isUnit_one.neg.squarefree⟩)
  have h4 : s.Accepts (.classNumber (-4)) := by
    rw [hs.accepts_iff]
    simp only [Question.demands, List.forall_mem_cons]
    exact ⟨by decide, hfund, by simp⟩
  exact ⟨hn, (hstays _ _ hn).2, h1, hk, (hweight _ _ h1 _).1.mpr hk, h4, hclass _ h4⟩

end Session

end ZetaValues
