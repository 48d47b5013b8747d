import ZetaValues.Proofs.Bernoulli.Multiplication
import ZetaValues.Proofs.Character.Parity
import ZetaValues.Proofs.Session.Refusals

/-! # Zeta values as L-values, and L-values as Eisenstein constants

The L-function of the discriminant 1 is the zeta function. The two answers are computed from
different numbers: the zeta value from the Bernoulli number `B_{n+1}`, with a sign that alternates
in `n`, and the L-value from the twisted sum of the function that is 1 everywhere, which is the
value of the Bernoulli polynomial at 1 (`bernoulliForCharacter_trivial`), with a fixed sign. The
value at 1 is `(-1) ^ (n + 1) B_{n+1}`, so they agree (`lValue_trivial`). An Eisenstein constant is
checked like the L-value and is half of it (`fresh_lValue`). -/

namespace ZetaValues

open ZetaValues.Bernoulli Exact Residue

/-! ### The discriminant 1 -/

theorem QuadraticCharacter.ofDiscriminant_one (admission : Admission) :
    ofDiscriminant admission 1 = .ok trivial :=
  trivial.ofDiscriminant_of_admits (admission.admits_of_isFundamental isFundamental_one)

/-- The numbers of the trivial character are the Bernoulli numbers with `B_1 = 1/2`. -/
theorem bernoulliForCharacter_trivial {k : Int64} (h0 : 0 ≤ k.toInt) (h : k.toInt ≤ maxIndex) :
    bernoulliForCharacter .trivial k = .ok (bernoulli' k.toInt.toNat) := by
  have hone : QuadraticCharacter.trivial.discriminant.toInt = 1 := rfl
  rw [QuadraticCharacter.trivial.bernoulliForCharacter_eq_symbols h0 h, hone]
  simp only [kroneckerSymbol_one_left]
  rw [Int.natAbs_one, twistedSum_one (toNat_lt_size h) one_ne_zero]

namespace Query

/-! ### Accepted arguments -/

theorem zetaOf_eq (n : ℕ) (b : ℚ) : zetaOf n b = (-1) ^ n * b / ((n + 1 : ℕ) : ℚ) := by
  rw [zetaOf, mul_div_assoc]
  split_ifs with heven
  · rw [(Nat.even_iff.mpr heven).neg_one_pow, one_mul]
  · rw [(Nat.odd_iff.mpr (by omega)).neg_one_pow, neg_one_mul]

/-- The zeta value at `-n`, where the sign is that of `(-1) ^ n`. -/
theorem zeta_of_lt {n : Int64} (h0 : 0 ≤ n.toInt) (h : n.toInt < maxIndex) :
    (zeta n).map fresh = .ok ((-1) ^ n.toInt.toNat * bernoulli (n.toInt.toNat + 1) /
      ((n.toInt.toNat + 1 : ℕ) : ℚ)) := by
  have hlt : n.toInt.toNat + 1 < UInt32.size := by
    have := maxIndex_lt
    omega
  rw [zeta_eq, Argument.n.indexBelow_of_lt h0 h]
  show Except.ok (zetaOf n.toInt.toNat (number _)) = _
  rw [number_eq hlt, zetaOf_eq]

theorem lValue_of_ok {admission : Admission} {k d : Int64} {χ : QuadraticCharacter}
    (hχ : QuadraticCharacter.ofDiscriminant admission d = .ok χ) (h1 : 1 ≤ k.toInt) :
    (lValue admission k d).map fresh =
      (bernoulliForCharacter χ k).map fun b => -b / (k.toInt.toNat : ℚ) := by
  rw [lValue, Argument.k.weight_of_pos h1, forDiscriminant_of_ok hχ, bernoulliForCharacter]
  exact map_fresh_map _ (forCharacter χ k)

/-- **The L-function of the discriminant 1** has the zeta values. -/
theorem lValue_trivial (admission : Admission) {n : Int64} (h0 : 0 ≤ n.toInt)
    (h : n.toInt < maxIndex) :
    (lValue admission (n + 1) 1).map fresh = (zeta n).map fresh := by
  have hsucc := Argument.toInt_add_one h0 h
  have hindex : (n + 1).toInt.toNat = n.toInt.toNat + 1 := by omega
  rw [lValue_of_ok (QuadraticCharacter.ofDiscriminant_one admission) (by omega),
    bernoulliForCharacter_trivial (by omega) (by omega), zeta_of_lt h0 h, hindex]
  refine congrArg Except.ok (congrArg (· / _) ?_)
  rw [bernoulli'_eq_bernoulli, pow_succ]
  ring

/-- **An L-value is twice the Eisenstein constant**, or they are refused alike. -/
theorem fresh_lValue (admission : Admission) (k d : Int64) :
    (lValue admission k d).map fresh =
      ((eisensteinConstant admission k d).map fresh).map (2 * ·) := by
  unfold lValue eisensteinConstant
  cases Argument.k.weight k with
  | error e => rfl
  | ok weight =>
    cases forDiscriminant admission k d with
    | error e => rfl
    | ok b =>
      show Except.ok (b.map _).fresh = Except.ok (2 * (b.map _).fresh)
      rw [fresh_map, fresh_map, Nat.cast_mul, Nat.cast_two]
      refine congrArg Except.ok ?_
      ring

end Query

namespace Session

variable {s : Session} {settings : Settings}

theorem Reached.perform_bernoulliNumber (hs : s.Reached settings) (n : Int64) :
    (s.perform (.question (.bernoulliNumber n))).1 = (bernoulliNumber n).map .fraction :=
  hs.perform_question_of_query rfl

theorem Reached.perform_zeta (hs : s.Reached settings) (n : Int64) :
    (s.perform (.question (.zeta n))).1 = ((Query.zeta n).map Query.fresh).map .fraction :=
  hs.perform_question_of_query rfl

theorem Reached.perform_lValue (hs : s.Reached settings) (k d : Int64) :
    (s.perform (.question (.lValue k d))).1 =
      ((Query.lValue settings.admission k d).map Query.fresh).map .fraction :=
  hs.perform_question_of_query rfl

theorem Reached.perform_eisensteinConstant (hs : s.Reached settings) (k d : Int64) :
    (s.perform (.question (.eisensteinConstant k d))).1 =
      ((Query.eisensteinConstant settings.admission k d).map Query.fresh).map .fraction :=
  hs.perform_question_of_query rfl

theorem Reached.lValue_or_refuses (hs : s.Reached settings) (k d : Int64) :
    (∃ e, s.Refuses (.lValue k d) e ∧ s.Refuses (.eisensteinConstant k d) e) ∨
      ∃ l c : ℚ, (s.perform (.question (.lValue k d))).1 = .ok (.fraction l) ∧
        (s.perform (.question (.eisensteinConstant k d))).1 = .ok (.fraction c) ∧ l = 2 * c := by
  unfold Refuses
  rw [hs.perform_lValue, hs.perform_eisensteinConstant, Query.fresh_lValue]
  cases (Query.eisensteinConstant settings.admission k d).map Query.fresh with
  | error e => exact Or.inl ⟨e, rfl, rfl⟩
  | ok c => exact Or.inr ⟨2 * c, c, rfl, rfl, rfl⟩

/-- **Zeta values, L-values and Eisenstein constants agree**, under any settings and after any
history. The zeta value at `-n` is the L-value of the discriminant 1 at the weight `n + 1`, it is
`(-1) ^ n B_{n+1} / (n + 1)`, and it vanishes at every even `n` from 2 on. For all weights and
discriminants the L-value and the Eisenstein constant are refused alike, or the one is twice the
other. -/
theorem zeta_eq_lValue (settings : Settings) (history : List Request) :
    let s := (start settings).after history
    (∀ n : Int64, 0 ≤ n.toInt → n.toInt < maxIndex → (n + 1).toInt = n.toInt + 1 ∧
      ∃ b z : ℚ, (s.perform (.question (.bernoulliNumber (n + 1)))).1 = .ok (.fraction b) ∧
        (s.perform (.question (.zeta n))).1 = .ok (.fraction z) ∧
        (s.perform (.question (.lValue (n + 1) 1))).1 = .ok (.fraction z) ∧
        z = (-1) ^ n.toInt.toNat * b / (n.toInt + 1) ∧
        (2 ≤ n.toInt → Even n.toInt → z = 0)) ∧
      ∀ k d : Int64,
        (∃ e, s.Refuses (.lValue k d) e ∧ s.Refuses (.eisensteinConstant k d) e) ∨
          ∃ l c : ℚ, (s.perform (.question (.lValue k d))).1 = .ok (.fraction l) ∧
            (s.perform (.question (.eisensteinConstant k d))).1 = .ok (.fraction c) ∧
            l = 2 * c := by
  intro s
  have hs : s.Reached settings := (reached_start settings).after history
  refine ⟨fun n h0 h => ?_, hs.lValue_or_refuses⟩
  have hsucc := Argument.toInt_add_one h0 h
  have hindex : (n + 1).toInt.toNat = n.toInt.toNat + 1 := by omega
  have hcast : ((n.toInt.toNat + 1 : ℕ) : ℚ) = n.toInt + 1 := by
    exact_mod_cast congrArg (· + 1) (Int.toNat_of_nonneg h0)
  refine ⟨hsucc, bernoulli (n.toInt.toNat + 1), _, ?_, ?_, ?_, rfl, ?_⟩
  · rw [hs.perform_bernoulliNumber, bernoulliNumber_of_le (by omega) (by omega), hindex]
    rfl
  · rw [hs.perform_zeta, Query.zeta_of_lt h0 h, hcast]
    rfl
  · rw [hs.perform_lValue, Query.lValue_trivial _ h0 h, Query.zeta_of_lt h0 h, hcast]
    rfl
  · intro h2 heven
    have hodd : Odd (n.toInt.toNat + 1) := by
      rw [Int.even_iff] at heven
      exact Nat.odd_iff.mpr (by omega)
    rw [bernoulli_eq_zero_of_odd hodd (by omega), mul_zero, zero_div]

/-- The values at 0, where the weight is 1 and the two conventions for `B_1` meet, and the largest
even `n`; in a session that may keep two numbers. -/
theorem zeta_eq_lValue_ends :
    let s := (start { tableLimit := 1, admission := .discriminant }).after
      [.question (.bernoulliNumbers 6), .question (.eisensteinConstant 0 5), .tableClear]
    0 ≤ (0 : Int64).toInt ∧ (0 : Int64).toInt < maxIndex ∧
      (s.perform (.question (.zeta 0))).1 = .ok (.fraction (-1 / 2)) ∧
      (s.perform (.question (.lValue 1 1))).1 = .ok (.fraction (-1 / 2)) ∧
      0 ≤ (16382 : Int64).toInt ∧ (16382 : Int64).toInt < maxIndex ∧
      2 ≤ (16382 : Int64).toInt ∧ Even (16382 : Int64).toInt ∧
      (s.perform (.question (.zeta 16382))).1 = .ok (.fraction 0) ∧
      (s.perform (.question (.lValue 16383 1))).1 = .ok (.fraction 0) := by
  intro s
  have h0 : 0 ≤ (0 : Int64).toInt := by decide
  have h0' : (0 : Int64).toInt < maxIndex := by decide
  have hmax : 0 ≤ (16382 : Int64).toInt := by decide
  have hmax' : (16382 : Int64).toInt < maxIndex := by decide
  have h2 : 2 ≤ (16382 : Int64).toInt := by decide
  have heven : Even (16382 : Int64).toInt := ⟨8191, rfl⟩
  obtain ⟨hzeta, -⟩ := zeta_eq_lValue { tableLimit := 1, admission := .discriminant }
    [.question (.bernoulliNumbers 6), .question (.eisensteinConstant 0 5), .tableClear]
  obtain ⟨-, b, z, hb, hz, hl, hform, -⟩ := hzeta 0 h0 h0'
  obtain ⟨-, -, y, -, hy, hm, -, hvanish⟩ := hzeta 16382 hmax hmax'
  rw [hvanish h2 heven] at hy hm
  have hone : (s.perform (.question (.bernoulliNumber 1))).1 = .ok (.fraction (-1 / 2)) := by cbv
  have hb' : b = -1 / 2 := Answer.fraction.inj (Except.ok.inj (hb.symm.trans hone))
  have hz' : z = -1 / 2 := by
    have hzero : (0 : Int64).toInt = 0 := rfl
    rw [hform, hb', hzero]
    norm_num
  rw [hz'] at hz hl
  exact ⟨h0, h0', hz, hl, hmax, hmax', h2, heven, hy, hm⟩

end Session

end ZetaValues
