import ZetaValues.Binomial
import Mathlib.Data.Nat.Choose.Basic
import Mathlib.Tactic.SplitIfs

/-! # Running products are binomial coefficients

One step takes `C(n, i)` to `C(n, i + 1)` (`binomialStep_choose`), so a row lists the coefficients
`C(n, 0), …, C(n, n)` (`binomialEntries_eq`), and the shorter side of it ends in the one that is
asked for (`binomial_eq_choose`). A row is returned exactly when a list has room for it
(`binomialRow_eq`).

The loop that forms the products counts in machine words. While its counter `i` stays at most `n`
the words `n - i` and `i + 1` are the numbers they stand for, so its states are the counters with
their coefficients (`visits_iff`), and no round leaves a remainder (`Visits.exactRound`). -/

namespace ZetaValues

theorem binomialStep_choose (n i : ℕ) : binomialStep n (n.choose i) i = n.choose (i + 1) := by
  rw [binomialStep, ← Nat.choose_succ_right_eq, Nat.mul_div_cancel _ (Nat.succ_pos i)]

theorem foldl_binomialStep (n k : ℕ) :
    (List.range k).foldl (binomialStep n) 1 = n.choose k := by
  induction k with
  | zero => rw [Nat.choose_zero_right]; rfl
  | succ k ih =>
    rw [List.range_succ, List.foldl_append, ih]
    exact binomialStep_choose n k

/-- **The entries of a row.** -/
theorem binomialEntries_eq (n : ℕ) : binomialEntries n = (List.range (n + 1)).map n.choose := by
  refine List.ext_getElem (by simp) fun k hk _ => ?_
  have hkn : k ≤ n := by rw [length_binomialEntries] at hk; omega
  simp only [binomialEntries, List.getElem_scanl, List.take_range, Nat.min_eq_left hkn,
    foldl_binomialStep, List.getElem_map, List.getElem_range]

theorem getElem?_binomialEntries_eq_some_iff {n k c : ℕ} :
    (binomialEntries n)[k]? = some c ↔ k ≤ n ∧ c = n.choose k := by
  rw [binomialEntries_eq, List.getElem?_eq_some_iff]
  simp only [List.getElem_map, List.getElem_range, List.length_map, List.length_range,
    Nat.lt_succ_iff, exists_prop]
  exact and_congr_right fun _ => eq_comm

/-- The entries of a row; past its end both sides vanish. -/
theorem getD_binomialEntries (n k : ℕ) : (binomialEntries n).getD k 0 = n.choose k := by
  rw [List.getD_eq_getElem?_getD]
  rcases Nat.lt_or_ge n k with h | h
  · rw [List.getElem?_eq_none (by rw [length_binomialEntries]; exact h),
      Nat.choose_eq_zero_of_lt h]
    rfl
  · rw [getElem?_binomialEntries_eq_some_iff.mpr ⟨h, rfl⟩]; rfl

/-- The shorter side of a row ends in the coefficient that is asked for. -/
theorem choose_min_sub {n k : ℕ} (h : k ≤ n) : n.choose (min k (n - k)) = n.choose k := by
  rcases Nat.le_total k (n - k) with hk | hk
  · rw [Nat.min_eq_left hk]
  · rw [Nat.min_eq_right hk, Nat.choose_symm h]

/-- **One coefficient**, along the shorter side of its row. -/
theorem binomial_eq_choose (n k : ℕ) : binomial n k = n.choose k := by
  unfold binomial
  split_ifs with h
  · exact (Nat.choose_eq_zero_of_lt h).symm
  · rw [foldl_binomialStep, choose_min_sub (Nat.le_of_not_lt h)]

/-! ### Room for a row -/

/-- A capacity that stays at the largest word is refused as the row itself would be. -/
theorem maxBytes_lt_mul_rowCapacity_iff {size : ℕ} (hsize : 0 < size) (n : UInt64) :
    maxBytes < size * rowCapacity n ↔ maxBytes < size * (n.toNat + 1) := by
  rcases Nat.le_total (n.toNat + 1) (UInt64.size - 1) with h | h
  · rw [rowCapacity, Nat.min_eq_left h]
  · have hword : maxBytes < size * (UInt64.size - 1) :=
      Nat.lt_of_lt_of_le (by decide) (Nat.le_mul_of_pos_left _ hsize)
    rw [rowCapacity, Nat.min_eq_right h]
    exact iff_of_true hword (Nat.lt_of_lt_of_le hword (Nat.mul_le_mul_left size h))

/-- **A row** is refused exactly when its entries take up more than a list can hold. -/
theorem binomialRow_eq {size : ℕ} (hsize : 0 < size) (n : UInt64) :
    binomialRow size n =
      if maxBytes < size * (n.toNat + 1) then .error .listTooLong
      else .ok (binomialEntries n.toNat) := by
  simp only [binomialRow, reserve, maxBytes_lt_mul_rowCapacity_iff hsize]
  split_ifs <;> rfl

/-! ### The loop in machine words -/

namespace RunningProduct

/-- The loop for the coefficients of `n` comes to the counter `i` with the product `c`; it makes a
round as long as the counter is below `rounds`. The counter, the factor `n - i` and the divisor
`i + 1` are words, and it is not asked here whether they wrap around. -/
inductive Visits (n rounds : UInt64) : UInt64 → ℕ → Prop
  | start : Visits n rounds 0 1
  | round {i : UInt64} {c : ℕ} (h : Visits n rounds i c) (hi : i < rounds) :
      Visits n rounds (i + 1) (c * (n - i).toNat / (i + 1).toNat)

/-- The round at the counter `i` with the product `c` is made in numbers: neither word wraps around,
and the division by `i + 1`, which is not 0, leaves no remainder. -/
structure ExactRound (n i : UInt64) (c : ℕ) : Prop where
  le : i ≤ n
  factor : (n - i).toNat = n.toNat - i.toNat
  divisor : (i + 1).toNat = i.toNat + 1
  divisor_ne_zero : i + 1 ≠ 0
  dvd : (i + 1).toNat ∣ c * (n - i).toNat

theorem dvd_choose_mul (n i : ℕ) : i + 1 ∣ n.choose i * (n - i) :=
  ⟨n.choose (i + 1), by rw [Nat.mul_comm (i + 1), Nat.choose_succ_right_eq]⟩

section
variable {n rounds i : UInt64} {c : ℕ} (hn : rounds ≤ n)

theorem toNat_add_one (hi : i < rounds) : (i + 1).toNat = i.toNat + 1 := by
  have hlt := rounds.toNat_lt
  rw [UInt64.lt_iff_toNat_lt] at hi
  rw [UInt64.toNat_add, UInt64.toNat_one]
  omega

include hn

theorem toNat_sub (hi : i < rounds) : (n - i).toNat = n.toNat - i.toNat :=
  UInt64.toNat_sub_of_le n i (UInt64.le_trans (UInt64.le_of_lt hi) hn)

/-- **One round** goes from `C(n, i)` to `C(n, i + 1)`. -/
theorem round_eq_choose (hi : i < rounds) :
    n.toNat.choose i.toNat * (n - i).toNat / (i + 1).toNat = n.toNat.choose (i + 1).toNat := by
  rw [toNat_sub hn hi, toNat_add_one hi]
  exact binomialStep_choose n.toNat i.toNat

theorem Visits.eq_choose (h : Visits n rounds i c) : i ≤ rounds ∧ c = n.toNat.choose i.toNat := by
  induction h with
  | start => exact ⟨UInt64.zero_le, (Nat.choose_zero_right _).symm⟩
  | @round i c _ hi ih =>
    obtain ⟨-, rfl⟩ := ih
    refine ⟨?_, round_eq_choose hn hi⟩
    rw [UInt64.le_iff_toNat_le, toNat_add_one hi]
    exact UInt64.lt_iff_toNat_lt.mp hi

/-- The loop comes to every counter up to the number of its rounds. -/
theorem visits_choose (hi : i ≤ rounds) : Visits n rounds i (n.toNat.choose i.toNat) := by
  induction hk : i.toNat generalizing i with
  | zero =>
    obtain rfl : i = 0 := UInt64.toNat_inj.mp hk
    rw [Nat.choose_zero_right]
    exact .start
  | succ k ih =>
    -- the counter before this one
    have hpred : (i - 1).toNat = k := by
      rw [UInt64.toNat_sub_of_le i 1 (by rw [UInt64.le_iff_toNat_le, UInt64.toNat_one]; omega),
        UInt64.toNat_one]
      omega
    have hlt : i - 1 < rounds := by
      rw [UInt64.le_iff_toNat_le] at hi
      rw [UInt64.lt_iff_toNat_lt]
      omega
    have hstep := (ih (UInt64.le_of_lt hlt) hpred).round hlt
    rw [← hpred, round_eq_choose hn hlt, UInt64.sub_add_cancel, hk] at hstep
    exact hstep

/-- **The states of the loop** are the counters with their coefficients. -/
theorem visits_iff : Visits n rounds i c ↔ i ≤ rounds ∧ c = n.toNat.choose i.toNat := by
  refine ⟨fun h => h.eq_choose hn, ?_⟩
  rintro ⟨hi, rfl⟩
  exact visits_choose hn hi

/-- **No round leaves a remainder**, and no word wraps around in it. -/
theorem Visits.exactRound (h : Visits n rounds i c) (hi : i < rounds) : ExactRound n i c := by
  obtain ⟨-, rfl⟩ := h.eq_choose hn
  have hdivisor := toNat_add_one hi
  refine ⟨UInt64.le_trans (UInt64.le_of_lt hi) hn, toNat_sub hn hi, hdivisor, ?_, ?_⟩
  · intro h0
    rw [h0] at hdivisor
    exact absurd hdivisor (Nat.succ_ne_zero _).symm
  · rw [hdivisor, toNat_sub hn hi]
    exact dvd_choose_mul n.toNat i.toNat

end

theorem toNat_min_sub {n k : UInt64} (hk : k ≤ n) :
    (min k (n - k)).toNat = min k.toNat (n.toNat - k.toNat) := by
  rw [← UInt64.toNat_sub_of_le n k hk, UInt64.min_def]
  split_ifs with h
  · exact (Nat.min_eq_left (UInt64.le_iff_toNat_le.mp h)).symm
  · exact (Nat.min_eq_right (UInt64.le_iff_toNat_le.mp (UInt64.le_of_lt (UInt64.not_le.mp h)))).symm

/-- **The running products are binomial coefficients**, of all words. The row of `n` is what the loop
of `n` rounds forms, if a list has room for its `n + 1` entries, and it is refused if not. A
coefficient is where the loop stands after as many rounds as the shorter side has. In both loops
every round is made in numbers, and its division leaves no remainder. -/
theorem runningProducts_exact {size : ℕ} (hsize : 0 < size) (n k : UInt64) :
    binomial n.toNat k.toNat = n.toNat.choose k.toNat ∧
    (size * (n.toNat + 1) ≤ maxBytes →
      ∃ row, binomialRow size n = .ok row ∧ row.length = n.toNat + 1 ∧
        (∀ j ≤ n.toNat, row[j]? = some (binomial n.toNat j)) ∧
        ∀ i c, Visits n n i c ↔ row[i.toNat]? = some c) ∧
    (maxBytes < size * (n.toNat + 1) → binomialRow size n = .error .listTooLong) ∧
    (k ≤ n → min k (n - k) ≤ n ∧
      ∀ c, Visits n (min k (n - k)) (min k (n - k)) c ↔ c = binomial n.toNat k.toNat) ∧
    ∀ rounds ≤ n, ∀ i c, Visits n rounds i c → i < rounds → ExactRound n i c := by
  refine ⟨binomial_eq_choose _ _, fun hroom => ?_, fun hroom => ?_, fun hk => ?_,
    fun rounds hn i c h hi => h.exactRound hn hi⟩
  · refine ⟨binomialEntries n.toNat, ?_, length_binomialEntries _, fun j hj => ?_, fun i c => ?_⟩
    · rw [binomialRow_eq hsize, if_neg (Nat.not_lt.mpr hroom)]
    · rw [getElem?_binomialEntries_eq_some_iff, binomial_eq_choose]
      exact ⟨hj, rfl⟩
    · rw [visits_iff (UInt64.le_refl n), getElem?_binomialEntries_eq_some_iff,
        UInt64.le_iff_toNat_le]
  · rw [binomialRow_eq hsize, if_pos hroom]
  · have hside := toNat_min_sub hk
    have hle : min k (n - k) ≤ n := by
      rw [UInt64.le_iff_toNat_le, hside]
      omega
    refine ⟨hle, fun c => ?_⟩
    rw [visits_iff hle, and_iff_right (UInt64.le_refl _), binomial_eq_choose, hside,
      choose_min_sub (UInt64.le_iff_toNat_le.mp hk)]

/-- With three words an integer, the row of 12 has room. That of the largest word has none, and the
coefficient third from its end is formed in two rounds. -/
theorem runningProducts_exact_largest :
    0 < 24 ∧ 24 * ((12 : UInt64).toNat + 1) ≤ maxBytes ∧
      (∃ row, binomialRow 24 12 = .ok row ∧ row.length = 13 ∧ row[6]? = some 924 ∧
        Visits 12 12 6 924) ∧ (6 : ℕ) ≤ 12 ∧ binomial 12 6 = 924 ∧
      maxBytes < 24 * ((18446744073709551615 : UInt64).toNat + 1) ∧
      binomialRow 24 18446744073709551615 = .error .listTooLong ∧
      (18446744073709551613 : UInt64) ≤ 18446744073709551615 ∧
      binomial 18446744073709551615 18446744073709551613 =
        170141183460469231704017187605319778305 ∧
      Visits 18446744073709551615 2 2 170141183460469231704017187605319778305 ∧
      Visits 18446744073709551615 2 1 18446744073709551615 ∧ (1 : UInt64) < 2 ∧
      ExactRound 18446744073709551615 1 18446744073709551615 := by
  have hsize : 0 < 24 := by decide
  have hroom : 24 * ((12 : UInt64).toNat + 1) ≤ maxBytes := by decide
  have hj : (6 : ℕ) ≤ 12 := by decide
  have hmiddle : binomial 12 6 = 924 := by decide
  have hnone : maxBytes < 24 * ((18446744073709551615 : UInt64).toNat + 1) := by decide
  have hk : (18446744073709551613 : UInt64) ≤ 18446744073709551615 := by decide
  have hlast : binomial 18446744073709551615 18446744073709551613 =
      170141183460469231704017187605319778305 := by decide
  have h1 : Visits 18446744073709551615 2 1 18446744073709551615 :=
    Visits.start.round (by decide)
  obtain ⟨-, hrow, -⟩ := runningProducts_exact hsize 12 6
  obtain ⟨row, hok, hlength, hentries, hstates⟩ := hrow hroom
  have hentry : row[6]? = some 924 := (hentries 6 hj).trans (congrArg some hmiddle)
  obtain ⟨-, -, hrefused, hside, hrounds⟩ :=
    runningProducts_exact hsize 18446744073709551615 18446744073709551613
  exact ⟨hsize, hroom, ⟨row, hok, hlength, hentry, (hstates 6 924).mpr hentry⟩, hj, hmiddle,
    hnone, hrefused hnone, hk, hlast, ((hside hk).2 _).mpr hlast.symm, h1, by decide,
    hrounds 2 (by decide) 1 _ h1 (by decide)⟩

/-- The row of the largest word is not returned: its entries, of three words each, are more than a
list can hold. -/
theorem row_of_largest_refused :
    binomialRow 24 18446744073709551615 = .error .listTooLong ∧
      ¬ ∃ row, binomialRow 24 18446744073709551615 = .ok row ∧
        row.length = 18446744073709551615 + 1 := by
  have hrefused : binomialRow 24 18446744073709551615 = .error .listTooLong := by
    rw [binomialRow_eq (by decide), if_pos (by decide)]
  refine ⟨hrefused, ?_⟩
  rintro ⟨row, hrow, -⟩
  rw [hrefused] at hrow
  cases hrow

end RunningProduct

end ZetaValues
