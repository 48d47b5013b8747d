import ZetaValues.TrialDivision
import Mathlib.Data.Nat.Squarefree
import Mathlib.Tactic.NormNum.GCD
import Mathlib.Tactic.NormNum.Prime

/-! # Trial division decides squarefreeness

A cofactor without divisors below the trial divisor `p` is squarefree if it is less than `p ^ 2`
(`FreeBelow.squarefree`), and `p` is a prime if it divides (`FreeBelow.prime_of_dvd`), so that
splitting `p` off once keeps squarefreeness. The trial divisor stays 2 or odd (`IsTrial`), which is
why the even candidates may be left out. One round keeps this invariant (`Invariant.round`), and so
every state that the loop comes to has it (`Visits.invariant`).

A round is only made with a trial divisor below `2 ^ 32` (`FreeBelow.lt_of_cappedSquare_le`): the
capped square of a larger one is the largest word, which is a multiple of 3 and so no cofactor by
then. So in every state the capped square does what the square would, the next trial divisor is a
word, and there are at most `2 ^ 31` rounds. -/

namespace ZetaValues.TrialDivision

/-! ### Words -/

/-- **The capped square** is the square, or the largest word if that is less. -/
theorem toNat_cappedSquare (p : UInt64) :
    (cappedSquare p).toNat = min (p.toNat * p.toNat) (2 ^ 64 - 1) := by
  unfold cappedSquare
  split_ifs with h
  · have hlt : p.toNat * p.toNat < 2 ^ 32 * 2 ^ 32 := Nat.mul_lt_mul'' h h
    rw [UInt64.toNat_mul, Nat.mod_eq_of_lt (by omega), Nat.min_eq_left (by omega)]
  · have hp : 2 ^ 32 ≤ p.toNat := Nat.le_of_not_lt h
    have hle : 2 ^ 32 * 2 ^ 32 ≤ p.toNat * p.toNat := Nat.mul_le_mul hp hp
    rw [Nat.min_eq_right (by omega)]
    rfl

/-- The square of a trial divisor is only reached by words that reach the capped square. -/
theorem lt_sq_of_lt_cappedSquare {n p : UInt64} (h : n < cappedSquare p) :
    n.toNat < p.toNat * p.toNat := by
  rw [UInt64.lt_iff_toNat_lt, toNat_cappedSquare] at h
  exact lt_of_lt_of_le h (Nat.min_le_left _ _)

theorem toNat_next {p : UInt64} (h : p.toNat < 2 ^ 32) :
    (next p).toNat = if p.toNat = 2 then 3 else p.toNat + 2 := by
  unfold next
  by_cases h2 : p = 2
  · subst h2; rfl
  · have h2' : p.toNat ≠ 2 := fun h' => h2 (UInt64.toNat_inj.mp h')
    have htwo : (2 : UInt64).toNat = 2 := rfl
    rw [if_neg h2, if_neg h2', UInt64.toNat_add]
    omega

theorem lt_next {p : UInt64} (h : p.toNat < 2 ^ 32) : p < next p := by
  rw [UInt64.lt_iff_toNat_lt, toNat_next h]
  split_ifs <;> omega

theorem mod_eq_zero_iff_dvd {n p : UInt64} : n % p = 0 ↔ p.toNat ∣ n.toNat := by
  rw [← UInt64.toNat_inj, UInt64.toNat_mod, Nat.dvd_iff_mod_eq_zero]; rfl

/-! ### Cofactors -/

/-- A trial divisor is 2, or odd. -/
def IsTrial (p : ℕ) : Prop := p = 2 ∨ 3 ≤ p ∧ p % 2 = 1

/-- There is no divisor from 2 to below `p`. -/
def FreeBelow (p n : ℕ) : Prop := ∀ q, 2 ≤ q → q < p → ¬ q ∣ n

theorem freeBelow_two (n : ℕ) : FreeBelow 2 n := by
  intro q h2 hq
  omega

section FreeBelow
variable {p n : ℕ} (h : FreeBelow p n)
include h

theorem FreeBelow.of_dvd {m : ℕ} (hm : m ∣ n) : FreeBelow p m :=
  fun q h2 hq hqm => h q h2 hq (hqm.trans hm)

theorem FreeBelow.prime_of_dvd (hp : 2 ≤ p) (hdvd : p ∣ n) : p.Prime := by
  have hmin : p ≤ p.minFac := by
    by_contra hlt
    exact h p.minFac (Nat.minFac_prime (by omega)).two_le (by omega)
      ((Nat.minFac_dvd p).trans hdvd)
  exact Nat.prime_def_minFac.mpr ⟨hp, le_antisymm (Nat.minFac_le (by omega)) hmin⟩

/-- **What is left at the end** is 1 or a prime. -/
theorem FreeBelow.squarefree (hn : n ≠ 0) (hlt : n < p * p) : Squarefree n := by
  rw [Nat.squarefree_iff_prime_squarefree]
  intro q hq hqq
  have hle : q * q ≤ n := Nat.le_of_dvd (Nat.pos_of_ne_zero hn) hqq
  have hqp : q < p := Nat.mul_self_lt_mul_self_iff.mp (lt_of_le_of_lt hle hlt)
  exact h q hq.two_le hqp ((Dvd.intro q rfl).trans hqq)

/-- The next trial divisor: what lies between is `p` itself, or even. -/
theorem FreeBelow.next (ht : IsTrial p) (hp : ¬ p ∣ n) :
    FreeBelow (if p = 2 then 3 else p + 2) n := by
  intro q h2 hq hdvd
  rcases Nat.lt_or_ge q p with hlt | hge
  · exact h q h2 hlt hdvd
  · rcases Nat.eq_or_lt_of_le hge with rfl | hgt
    · exact hp hdvd
    · rcases ht with rfl | ⟨h3, hodd⟩
      · rw [if_pos rfl] at hq; omega
      · rw [if_neg (by omega)] at hq
        have heven : 2 ∣ q := by omega
        exact h 2 le_rfl (by omega) (heven.trans hdvd)

end FreeBelow

theorem IsTrial.two_le {p : ℕ} (h : IsTrial p) : 2 ≤ p := by
  unfold IsTrial at h
  omega

theorem IsTrial.next {p : ℕ} (h : IsTrial p) : IsTrial (if p = 2 then 3 else p + 2) := by
  unfold IsTrial at h ⊢
  split_ifs <;> omega

/-- Splitting off a prime that does not divide again. -/
theorem squarefree_div_iff {p n : ℕ} (hp : p.Prime) (hdvd : p ∣ n) (hnot : ¬ p ∣ n / p) :
    Squarefree n ↔ Squarefree (n / p) := by
  have hcop : p.Coprime (n / p) := (hp.coprime_iff_not_dvd).mpr hnot
  conv_lhs => rw [← Nat.mul_div_cancel' hdvd]
  rw [Nat.squarefree_mul hcop]
  exact and_iff_right hp.prime.squarefree

/-- **The trial divisor of a round** is less than `2 ^ 32`, because the largest word has the divisor
3 and so is no cofactor beyond it. -/
theorem FreeBelow.lt_of_cappedSquare_le {m p : UInt64} (h : FreeBelow p.toNat m.toNat)
    (hle : cappedSquare p ≤ m) : p.toNat < 2 ^ 32 := by
  by_contra hp
  have hsq : 2 ^ 32 * 2 ^ 32 ≤ p.toNat * p.toNat :=
    Nat.mul_le_mul (Nat.le_of_not_lt hp) (Nat.le_of_not_lt hp)
  have hm : m.toNat = 2 ^ 64 - 1 := by
    have hlt := m.toNat_lt
    rw [UInt64.le_iff_toNat_le, toNat_cappedSquare, Nat.min_eq_right (by omega)] at hle
    omega
  exact h 3 (by decide) (by omega) (by rw [hm]; decide)

/-! ### The states of the loop -/

/-- The cofactor after a round with the trial divisor `p`. -/
def splitOff (m p : UInt64) : UInt64 :=
  if m % p = 0 then m / p else m

/-- The loop for `n` comes to the cofactor `m` and the trial divisor `p` after `i` rounds. It is not
asked here whether the next trial divisor is a word: if it is not, it wraps around. -/
inductive Visits (n : UInt64) : ℕ → UInt64 → UInt64 → Prop
  | start (hn : n ≠ 0) : Visits n 0 n 2
  | round {i : ℕ} {m p : UInt64} (h : Visits n i m p) (hle : cappedSquare p ≤ m)
      (honce : ¬ (m % p = 0 ∧ m / p % p = 0)) : Visits n (i + 1) (splitOff m p) (next p)

/-- The loop ends at the cofactor `m` and the trial divisor `p`, with this answer. -/
inductive Ends (m p : UInt64) : Bool → Prop
  | small (hlt : m < cappedSquare p) : Ends m p true
  | square (hle : cappedSquare p ≤ m) (hdvd : m % p = 0) (hagain : m / p % p = 0) : Ends m p false

/-! ### What every state keeps -/

theorem toNat_splitOff (m p : UInt64) :
    (splitOff m p).toNat = if p.toNat ∣ m.toNat then m.toNat / p.toNat else m.toNat := by
  unfold splitOff
  by_cases h : m % p = 0
  · rw [if_pos h, if_pos (mod_eq_zero_iff_dvd.mp h), UInt64.toNat_div]
  · rw [if_neg h, if_neg (mt mod_eq_zero_iff_dvd.mpr h)]

/-- **The invariant of the loop** for `n`: the cofactor `m` has no divisor below the trial divisor
`p`, and it is squarefree exactly if `n` is. -/
structure Invariant (n m p : ℕ) : Prop where
  isTrial : IsTrial p
  freeBelow : FreeBelow p m
  ne_zero : m ≠ 0
  squarefree_iff : Squarefree n ↔ Squarefree m

theorem invariant_start {n : ℕ} (hn : n ≠ 0) : Invariant n n 2 :=
  ⟨Or.inl rfl, freeBelow_two n, hn, Iff.rfl⟩

/-- **One round** keeps the invariant. -/
theorem Invariant.round {n : ℕ} {m p : UInt64} (h : Invariant n m.toNat p.toNat)
    (honce : ¬ (m % p = 0 ∧ m / p % p = 0)) :
    Invariant n (splitOff m p).toNat (if p.toNat = 2 then 3 else p.toNat + 2) := by
  rw [mod_eq_zero_iff_dvd, mod_eq_zero_iff_dvd, UInt64.toNat_div] at honce
  rw [toNat_splitOff]
  by_cases hdvd : p.toNat ∣ m.toNat
  · have hp := h.freeBelow.prime_of_dvd h.isTrial.two_le hdvd
    have hnot : ¬ p.toNat ∣ m.toNat / p.toNat := fun hagain => honce ⟨hdvd, hagain⟩
    have hquot : m.toNat / p.toNat ≠ 0 :=
      Nat.div_ne_zero_iff.mpr ⟨hp.ne_zero, Nat.le_of_dvd (Nat.pos_of_ne_zero h.ne_zero) hdvd⟩
    have hfree := h.freeBelow.of_dvd (Nat.div_dvd_of_dvd hdvd)
    rw [if_pos hdvd]
    exact ⟨h.isTrial.next, hfree.next h.isTrial hnot, hquot,
      h.squarefree_iff.trans (squarefree_div_iff hp hdvd hnot)⟩
  · rw [if_neg hdvd]
    exact ⟨h.isTrial.next, h.freeBelow.next h.isTrial hdvd, h.ne_zero, h.squarefree_iff⟩

/-- **Where the loop ends** it answers whether `n` is squarefree. -/
theorem Invariant.eq_true_iff {n : ℕ} {m p : UInt64} {b : Bool} (h : Invariant n m.toNat p.toNat)
    (hend : Ends m p b) : b = true ↔ Squarefree n := by
  rw [h.squarefree_iff]
  cases hend with
  | small hlt =>
    exact iff_of_true rfl (h.freeBelow.squarefree h.ne_zero (lt_sq_of_lt_cappedSquare hlt))
  | square _ hdvd hagain =>
    rw [mod_eq_zero_iff_dvd] at hdvd hagain
    rw [UInt64.toNat_div] at hagain
    have hp := h.freeBelow.prime_of_dvd h.isTrial.two_le hdvd
    have hsq : p.toNat * p.toNat ∣ m.toNat := by
      rw [← Nat.mul_div_cancel' hdvd]
      exact Nat.mul_dvd_mul_left _ hagain
    exact iff_of_false Bool.false_ne_true fun hm =>
      Nat.squarefree_iff_prime_squarefree.mp hm _ hp hsq

section Visits
variable {n m p : UInt64} {i : ℕ} (h : Visits n i m p)
include h

theorem Visits.invariant : Invariant n.toNat m.toNat p.toNat := by
  induction h with
  | start hn => exact invariant_start fun h0 => hn (UInt64.toNat_inj.mp h0)
  | round _ hle honce ih =>
    rw [toNat_next (ih.freeBelow.lt_of_cappedSquare_le hle)]
    exact ih.round honce

theorem Visits.lt_of_cappedSquare_le (hle : cappedSquare p ≤ m) : p.toNat < 2 ^ 32 :=
  h.invariant.freeBelow.lt_of_cappedSquare_le hle

theorem Visits.toNat_next (hle : cappedSquare p ≤ m) :
    (next p).toNat = if p.toNat = 2 then 3 else p.toNat + 2 :=
  TrialDivision.toNat_next (h.lt_of_cappedSquare_le hle)

/-- The cap changes no comparison. -/
theorem Visits.cappedSquare_le_iff : cappedSquare p ≤ m ↔ p.toNat * p.toNat ≤ m.toNat := by
  constructor
  · intro hle
    have hp := h.lt_of_cappedSquare_le hle
    have hsq : p.toNat * p.toNat < 2 ^ 32 * 2 ^ 32 := Nat.mul_lt_mul'' hp hp
    rwa [UInt64.le_iff_toNat_le, toNat_cappedSquare, Nat.min_eq_left (by omega)] at hle
  · intro hle
    rw [UInt64.le_iff_toNat_le, toNat_cappedSquare]
    exact (Nat.min_le_left _ _).trans hle

/-- The trial divisors are 2, 3, 5, 7, …, one in each round. -/
theorem Visits.toNat_divisor : i = 0 ∧ p.toNat = 2 ∨ 1 ≤ i ∧ p.toNat = 2 * i + 1 := by
  induction h with
  | start => exact Or.inl ⟨rfl, rfl⟩
  | round h hle _ ih =>
    rw [h.toNat_next hle]
    split_ifs <;> omega

theorem Visits.rounds_le : i ≤ 2 ^ 31 := by
  cases h with
  | start => exact Nat.zero_le _
  | round h hle =>
    have hp := h.toNat_divisor
    have hlt := h.lt_of_cappedSquare_le hle
    omega

/-! ### The answer -/

/-- Every state has the answer of the whole loop still before it. -/
theorem Visits.squarefreeFrom_eq : squarefreeFrom m p = isSquarefree n := by
  induction h with
  | start hn => simp [isSquarefree, hn]
  | @round _ m p h hle honce ih =>
    rw [← ih, squarefreeFrom.eq_def m p, if_pos ⟨hle, lt_next (h.lt_of_cappedSquare_le hle)⟩]
    unfold splitOff
    split_ifs with hdvd hagain
    · exact absurd ⟨hdvd, hagain⟩ honce
    · rfl
    · rfl

/-- Where the loop ends it answers for `n`. -/
theorem Visits.eq_of_ends {b : Bool} (hend : Ends m p b) : b = isSquarefree n := by
  rw [← h.squarefreeFrom_eq, squarefreeFrom]
  cases hend with
  | small hlt => rw [if_neg fun hloop => UInt64.not_le.mpr hlt hloop.1]
  | square hle hdvd hagain =>
    rw [if_pos ⟨hle, lt_next (h.lt_of_cappedSquare_le hle)⟩, if_pos hdvd, if_pos hagain]

/-- **One round**: the loop ends, or it goes on. -/
theorem Visits.ends_or_round :
    (∃ b, Ends m p b) ∨ Visits n (i + 1) (splitOff m p) (next p) := by
  by_cases hle : cappedSquare p ≤ m
  · by_cases hsq : m % p = 0 ∧ m / p % p = 0
    · exact Or.inl ⟨false, .square hle hsq.1 hsq.2⟩
    · exact Or.inr (h.round hle hsq)
  · exact Or.inl ⟨true, .small (UInt64.not_le.mp hle)⟩

end Visits

/-- **The loop ends**, since it cannot make `2 ^ 31 + 1` rounds. -/
theorem exists_ends {n : UInt64} (hn : n ≠ 0) :
    ∃ i m p b, Visits n i m p ∧ Ends m p b := by
  by_contra hnone
  -- then every round is followed by one more
  have hall : ∀ i, ∃ m p, Visits n i m p := by
    intro i
    induction i with
    | zero => exact ⟨n, 2, .start hn⟩
    | succ i ih =>
      obtain ⟨m, p, h⟩ := ih
      exact ⟨_, _, h.ends_or_round.resolve_left fun ⟨b, hend⟩ => hnone ⟨i, m, p, b, h, hend⟩⟩
  obtain ⟨m, p, h⟩ := hall (2 ^ 31 + 1)
  exact absurd h.rounds_le (by decide)

/-- **Trial division decides squarefreeness.** -/
theorem isSquarefree_iff (n : UInt64) : isSquarefree n = true ↔ Squarefree n.toNat := by
  by_cases hn : n = 0
  · subst hn
    simp [isSquarefree]
  · obtain ⟨i, m, p, b, h, hend⟩ := exists_ends hn
    rw [← h.eq_of_ends hend]
    exact h.invariant.eq_true_iff hend

theorem squarefree_iff_forall_not_dvd (n : ℕ) :
    Squarefree n ↔ n ≠ 0 ∧ ∀ q, 2 ≤ q → ¬ q * q ∣ n := by
  constructor
  · intro h
    refine ⟨h.ne_zero, fun q hq hdvd => ?_⟩
    have hone : q = 1 := Nat.isUnit_iff.mp (h q hdvd)
    omega
  · rintro ⟨h0, h⟩ q hdvd
    have hq : q ≠ 0 := fun hq => h0 (by rw [hq] at hdvd; exact Nat.eq_zero_of_zero_dvd hdvd)
    have hq2 : ¬ 2 ≤ q := fun hq2 => h q hq2 hdvd
    exact Nat.isUnit_iff.mpr (by omega)

/-- **Trial division is exact on all words.** In every state of the loop the capped square compares
as the square does, the next trial divisor is a word if a round is made, and an answer is the right
one; the loop ends after at most `2 ^ 31` rounds, and it answers whether no square above 1
divides. -/
theorem isSquarefree_exact (n : UInt64) :
    (∀ i m p, Visits n i m p →
      i ≤ 2 ^ 31 ∧ (cappedSquare p ≤ m ↔ p.toNat * p.toNat ≤ m.toNat) ∧
        (cappedSquare p ≤ m → (next p).toNat = if p.toNat = 2 then 3 else p.toNat + 2) ∧
        ∀ b, Ends m p b → b = isSquarefree n) ∧
      (n ≠ 0 → ∃ i m p b, Visits n i m p ∧ Ends m p b) ∧
      (isSquarefree n = true ↔ n ≠ 0 ∧ ∀ q, 2 ≤ q → ¬ q * q ∣ n.toNat) := by
  refine ⟨fun i m p h => ?_, exists_ends, ?_⟩
  · exact ⟨h.rounds_le, h.cappedSquare_le_iff, h.toNat_next, fun b hend => h.eq_of_ends hend⟩
  · have hne : n.toNat ≠ 0 ↔ n ≠ 0 := not_congr (UInt64.toNat_inj (b := 0))
    rw [isSquarefree_iff, squarefree_iff_forall_not_dvd, hne]

/-- The largest word, which alone reaches the capped squares of the numbers from `2 ^ 32` on. It is
the product of seven primes. -/
theorem isSquarefree_exact_largest :
    (18446744073709551615 : UInt64) ≠ 0 ∧
      Visits 18446744073709551615 0 18446744073709551615 2 ∧
      cappedSquare 2 ≤ 18446744073709551615 ∧ (next 2).toNat = 3 ∧
      (∃ i m p, Visits 18446744073709551615 i m p ∧ i ≤ 2 ^ 31 ∧ Ends m p true) ∧
      isSquarefree 18446744073709551615 = true := by
  have h0 : (18446744073709551615 : UInt64) ≠ 0 := by decide
  have hstart : Visits 18446744073709551615 0 18446744073709551615 2 := .start h0
  have hgo : cappedSquare 2 ≤ 18446744073709551615 := by decide
  have hsq : Squarefree (3 * 5 * 17 * 257 * 641 * 65537 * 6700417) := by
    have hprime : ∀ {q : ℕ}, q.Prime → Squarefree q := fun hq => hq.prime.squarefree
    simp only [Nat.squarefree_mul_iff]
    refine ⟨by norm_num, ⟨by norm_num, ⟨by norm_num, ⟨by norm_num, ⟨by norm_num,
      ⟨by norm_num, ?_, ?_⟩, ?_⟩, ?_⟩, ?_⟩, ?_⟩, ?_⟩
    all_goals exact hprime (by norm_num)
  obtain ⟨hstates, hends, hiff⟩ := isSquarefree_exact 18446744073709551615
  have htrue : isSquarefree 18446744073709551615 = true :=
    hiff.mpr ⟨h0, ((squarefree_iff_forall_not_dvd _).mp hsq).2⟩
  obtain ⟨i, m, p, b, hvisit, hend⟩ := hends h0
  obtain ⟨hrounds, -, -, hanswer⟩ := hstates i m p hvisit
  rw [hanswer b hend, htrue] at hend
  exact ⟨h0, hstart, hgo, (hstates _ _ _ hstart).2.2.1 hgo, ⟨i, m, p, hvisit, hrounds, hend⟩, htrue⟩

end ZetaValues.TrialDivision
