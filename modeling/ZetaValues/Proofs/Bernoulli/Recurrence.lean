import ZetaValues.Fresh
import ZetaValues.Proofs.Argument
import ZetaValues.Proofs.Bernoulli.Initial
import ZetaValues.Proofs.Binomial
import Mathlib.NumberTheory.Bernoulli

/-! # The computed numbers are the Bernoulli numbers

The recurrence `∑_{j ≤ m} C(m + 1, j) B_j = 0`, taken at every `m ≥ 1` whatever its parity,
determines one sequence (`SatisfiesRecurrence.unique`). The lists run it at even indices only
and write closed forms elsewhere; they hold the same numbers (`upTo_eq_map`), because the odd
Bernoulli numbers from the third on vanish. An index is below `2 ^ 32` here: from there on closed
forms are looked up by the low bits. -/

namespace ZetaValues.Bernoulli

/-! ### Folds that skip terms -/

/-- **A fold that skips terms which vanish** is the sum of all the terms. -/
theorem foldl_skip {α : Type} (skip : α → Prop) [DecidablePred skip] (term : α → ℚ)
    (h : ∀ a, skip a → term a = 0) (l : List α) (init : ℚ) :
    l.foldl (fun sum a => if skip a then sum else sum + term a) init =
      init + (l.map term).sum := by
  induction l generalizing init with
  | nil => simp
  | cons a l ih =>
    rw [List.foldl_cons, ih, List.map_cons, List.sum_cons]
    split_ifs with ha
    · rw [h a ha, zero_add]
    · rw [add_assoc]

/-! ### The sequence -/

/-- **The recurrence of the Bernoulli numbers**, at even and odd indices alike. -/
def SatisfiesRecurrence (B : ℕ → ℚ) : Prop :=
  B 0 = 1 ∧ ∀ m, 1 ≤ m → ∑ j ∈ Finset.range (m + 1), ((m + 1).choose j : ℚ) * B j = 0

theorem satisfiesRecurrence_bernoulli : SatisfiesRecurrence bernoulli := by
  refine ⟨bernoulli_zero, fun m hm => ?_⟩
  rw [sum_bernoulli, if_neg (by omega)]

/-- The recurrence, solved for its last term. -/
theorem SatisfiesRecurrence.eq_neg_div {B : ℕ → ℚ} (hB : SatisfiesRecurrence B) {m : ℕ}
    (hm : 1 ≤ m) :
    B m = -(∑ j ∈ Finset.range m, ((m + 1).choose j : ℚ) * B j) / ((m + 1 : ℕ) : ℚ) := by
  have h := hB.2 m hm
  rw [Finset.sum_range_succ, Nat.choose_succ_self_right] at h
  rw [eq_div_iff (by exact_mod_cast Nat.succ_ne_zero m)]
  linarith

theorem SatisfiesRecurrence.unique {B B' : ℕ → ℚ} (hB : SatisfiesRecurrence B)
    (hB' : SatisfiesRecurrence B') : B = B' := by
  funext m
  induction m using Nat.strong_induction_on with
  | _ m ih =>
    rcases Nat.eq_zero_or_pos m with rfl | hm
    · rw [hB.1, hB'.1]
    · rw [hB.eq_neg_div hm, hB'.eq_neg_div hm]
      congr 2
      refine Finset.sum_congr rfl fun j hj => ?_
      rw [ih j (Finset.mem_range.mp hj)]

/-! ### One step -/

theorem recurrenceSum_map (B : ℕ → ℚ) (m : ℕ) :
    recurrenceSum ((List.range m).map B) =
      ∑ j ∈ Finset.range m, ((m + 1).choose j : ℚ) * B j := by
  have hzip : ((List.range m).map B).zip (binomialEntries (m + 1)) =
      (List.range m).map fun j => (B j, (m + 1).choose j) := by
    refine List.ext_getElem (by simp; omega) fun j h1 h2 => ?_
    simp [binomialEntries_eq]
  have hfold := foldl_skip (fun x : ℚ × ℕ => x.1 = 0) (fun x => (x.2 : ℚ) * x.1)
    (fun x hx => by rw [hx, mul_zero]) ((List.range m).map fun j => (B j, (m + 1).choose j)) 0
  rw [zero_add, List.map_map] at hfold
  unfold recurrenceSum
  rw [List.length_map, List.length_range, hzip]
  exact hfold

theorem recur_map_bernoulli {m : ℕ} (hm : 1 ≤ m) :
    recur ((List.range m).map bernoulli) = bernoulli m := by
  rw [recur, recurrenceSum_map, List.length_map, List.length_range]
  exact (satisfiesRecurrence_bernoulli.eq_neg_div hm).symm

/-- **The closed forms are right**: 1, `-1/2`, and 0 at the odd indices from 3 on. -/
theorem bernoulli_of_closedForm {m : ℕ} (hm : m < UInt32.size) {b : ℚ}
    (hb : closedForm m = some b) : bernoulli m = b := by
  unfold closedForm at hb
  rw [Nat.mod_eq_of_lt hm] at hb
  split at hb
  · rw [← Option.some.inj hb, bernoulli_zero]
  · rw [← Option.some.inj hb, bernoulli_one]
  · next h0 h1 =>
    split_ifs at hb with hodd
    rw [← Option.some.inj hb]
    refine bernoulli_eq_zero_of_odd (Nat.odd_iff.mpr hodd) ?_
    have : m ≠ 0 := h0
    have : m ≠ 1 := h1
    omega

theorem next_map_bernoulli {m : ℕ} (hm : m < UInt32.size) :
    next ((List.range m).map bernoulli) = bernoulli m := by
  rw [next, List.length_map, List.length_range]
  rcases h : closedForm m with _ | b
  · have h0 : m ≠ 0 := by rintro rfl; simp [closedForm] at h
    exact recur_map_bernoulli (by omega)
  · exact (bernoulli_of_closedForm hm h).symm

/-! ### The lists -/

theorem extend_nil_eq_map {count : ℕ} (h : count ≤ UInt32.size) :
    extend [] count = (List.range count).map bernoulli := by
  induction count with
  | zero => rfl
  | succ count ih =>
    rw [extend_succ, ih (by omega), next_map_bernoulli (by omega), List.range_succ, List.map_append]
    rfl

/-- **The list `B_0, …, B_n`.** -/
theorem upTo_eq_map {n : ℕ} (hn : n < UInt32.size) :
    upTo n = (List.range (n + 1)).map bernoulli :=
  extend_nil_eq_map hn

/-- **The number `B_n`.** -/
theorem number_eq {n : ℕ} (hn : n < UInt32.size) : number n = bernoulli n := by
  have h := getElem?_upTo_self n
  rw [upTo_eq_map hn] at h
  simpa using h.symm

/-! ### Accepted indices -/

theorem maxIndex_lt : maxIndex < UInt32.size := by decide

/-- An accepted index is below the bound of the closed forms. -/
theorem toNat_lt_size {n : Int64} (h : n.toInt ≤ maxIndex) : n.toInt.toNat < UInt32.size := by
  have := maxIndex_lt
  omega

theorem bernoulliNumbers_of_le {n : Int64} (h0 : 0 ≤ n.toInt) (h : n.toInt ≤ maxIndex) :
    bernoulliNumbers n = .ok (upTo n.toInt.toNat) := by
  rw [bernoulliNumbers, Query.bernoulliNumbers, Argument.n.index_of_le h0 h]
  rfl

theorem bernoulliNumber_of_le {n : Int64} (h0 : 0 ≤ n.toInt) (h : n.toInt ≤ maxIndex) :
    bernoulliNumber n = .ok (bernoulli n.toInt.toNat) := by
  rw [bernoulliNumber, Query.bernoulliNumber, Argument.n.index_of_le h0 h,
    ← number_eq (toNat_lt_size h)]
  rfl

/-- **The recurrence has one solution, and it is what is computed**: every list has one entry for
each index, equal to the solution there, and so is the number asked for by itself. -/
theorem numbers_solve_recurrence :
    (∃! B, SatisfiesRecurrence B) ∧
      ∀ B, SatisfiesRecurrence B → ∀ n m : Int64, 0 ≤ n.toInt → n.toInt ≤ m.toInt →
        m.toInt ≤ maxIndex →
          ∃ numbers, bernoulliNumbers m = .ok numbers ∧ numbers.length = m.toInt.toNat + 1 ∧
            numbers[n.toInt.toNat]? = some (B n.toInt.toNat) ∧
            bernoulliNumber n = .ok (B n.toInt.toNat) := by
  refine ⟨⟨bernoulli, satisfiesRecurrence_bernoulli,
    fun B hB => hB.unique satisfiesRecurrence_bernoulli⟩, fun B hB n m h0 hnm hm => ?_⟩
  have hlt := toNat_lt_size hm
  rw [hB.unique satisfiesRecurrence_bernoulli]
  refine ⟨upTo m.toInt.toNat, bernoulliNumbers_of_le (by omega) hm, length_upTo _, ?_,
    bernoulliNumber_of_le h0 (by omega)⟩
  rw [upTo_eq_map hlt, List.getElem?_map, List.getElem?_range (by omega)]
  rfl

/-- The third number, in the longest list that is computed. -/
theorem numbers_solve_recurrence_two :
    SatisfiesRecurrence bernoulli ∧ 0 ≤ (2 : Int64).toInt ∧
      (2 : Int64).toInt ≤ (16384 : Int64).toInt ∧ (16384 : Int64).toInt ≤ maxIndex ∧
      ∃ numbers, bernoulliNumbers 16384 = .ok numbers ∧ numbers.length = 16385 ∧
        numbers[2]? = some (1 / 6) ∧ bernoulliNumber 2 = .ok (1 / 6) := by
  have hB := satisfiesRecurrence_bernoulli
  have h0 : 0 ≤ (2 : Int64).toInt := by decide
  have h2 : (2 : Int64).toInt ≤ (16384 : Int64).toInt := by decide
  have hmax : (16384 : Int64).toInt ≤ maxIndex := by decide
  obtain ⟨numbers, hlist, hlen, hentry, hnumber⟩ :=
    numbers_solve_recurrence.2 bernoulli hB 2 16384 h0 h2 hmax
  have h6 : bernoulli (2 : Int64).toInt.toNat = 1 / 6 := bernoulli_two.trans (one_div 6).symm
  rw [h6] at hentry hnumber
  exact ⟨hB, h0, h2, hmax, numbers, hlist, hlen, hentry, hnumber⟩

end ZetaValues.Bernoulli
