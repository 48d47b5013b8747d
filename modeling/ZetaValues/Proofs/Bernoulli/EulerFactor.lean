import ZetaValues.Proofs.Bernoulli.Multiplication

/-! # Euler factors of twisted sums

If `χ` has the period `M` and takes `p a` to `χ(p) χ(a)`, then the multiples of `p` up to `M p` make
up `χ(p) p ^ (k - 1)` times the twisted sum over `M` (`twistedSum_multiples`). What is left without
them is the sum over `M` with the Euler factor `1 - χ(p) p ^ (k - 1)`. The function without these
values has the period `M p` and still takes `q a` to `χ(q)` times its value at `a` for the other
primes `q`, so the primes may be removed one by one (`twistedSum_without`). -/

namespace ZetaValues.Bernoulli

/-- The function `χ` without its values at the multiples of the numbers in `s`. -/
def without (s : Finset ℕ) (χ : ℕ → ℤ) (a : ℕ) : ℤ :=
  if ∃ p ∈ s, p ∣ a then 0 else χ a

variable {k M : ℕ} {χ ψ : ℕ → ℤ}

theorem twistedSum_sub (numbers : List ℚ) (N : ℕ) :
    twistedSum numbers k N (fun a => χ a - ψ a) =
      twistedSum numbers k N χ - twistedSum numbers k N ψ := by
  simp only [twistedSum, weightedSum_eq, Int.cast_sub, sub_mul, Finset.sum_sub_distrib, sub_div]

/-! ### One prime -/

/-- **The multiples of `p`** make up the sum over `M`, multiplied by what `p` adds. -/
theorem twistedSum_multiples (hk : k < UInt32.size) (hM : M ≠ 0) {p : ℕ} (hp : 0 < p) {c : ℤ}
    (hc : ∀ a, χ (p * a) = c * χ a) :
    twistedSum (upTo k) k (M * p) (fun a => if p ∣ a then χ a else 0) =
      c * ((p : ℚ) ^ k / p) * twistedSum (upTo k) k M χ := by
  have hM' : (M : ℚ) ≠ 0 := Nat.cast_ne_zero.mpr hM
  have hp' : (p : ℚ) ≠ 0 := Nat.cast_ne_zero.mpr hp.ne'
  set term : ℕ → ℚ := fun a =>
    (χ a : ℚ) * (Polynomial.bernoulli k).eval (a / (M * p : ℕ) : ℚ) with hterm
  have hsplit : ∀ a : ℕ, ((if p ∣ a then χ a else 0 : ℤ) : ℚ) *
      (Polynomial.bernoulli k).eval (a / (M * p : ℕ) : ℚ) = if p ∣ a then term a else 0 := by
    intro a
    split_ifs
    · rfl
    · rw [Int.cast_zero, zero_mul]
  have hmultiple : ∀ b : ℕ, term (p * b) =
      c * ((χ b : ℚ) * (Polynomial.bernoulli k).eval (b / M : ℚ)) := by
    intro b
    have hpoint : ((p * b : ℕ) : ℚ) / (M * p : ℕ) = b / M := by
      push_cast
      field_simp
    simp only [hterm, hc, hpoint]
    push_cast
    ring
  rw [twistedSum_eq hk (mul_ne_zero hM hp.ne'), Finset.sum_congr rfl fun a _ => hsplit a,
    sum_Icc_multiples _ _ hp, Finset.sum_congr rfl fun b _ => hmultiple b, ← Finset.mul_sum,
    twistedSum_eq hk hM]
  push_cast
  ring

/-- **Removing the multiples of `p`** gives the twisted sum an Euler factor. -/
theorem twistedSum_without_multiples (hk : k < UInt32.size) (hM : M ≠ 0) {p : ℕ} (hp : 0 < p)
    (hχ : ∀ a, 1 ≤ a → χ (a + M) = χ a) {c : ℤ} (hc : ∀ a, χ (p * a) = c * χ a) :
    twistedSum (upTo k) k (M * p) (fun a => if p ∣ a then 0 else χ a) =
      twistedSum (upTo k) k M χ * (1 - c * ((p : ℚ) ^ k / p)) := by
  have hdiff : (fun a => if p ∣ a then 0 else χ a) = fun a => χ a - if p ∣ a then χ a else 0 := by
    funext a
    split_ifs <;> simp
  rw [hdiff, twistedSum_sub, twistedSum_mul hk hM hp.ne' fun a ha _ => hχ a ha,
    twistedSum_multiples hk hM hp hc]
  ring

/-! ### Several primes -/

theorem without_insert (p : ℕ) (s : Finset ℕ) (χ : ℕ → ℤ) (a : ℕ) :
    without (insert p s) χ a = if p ∣ a then 0 else without s χ a := by
  unfold without
  by_cases h : p ∣ a
  · rw [if_pos ⟨p, Finset.mem_insert_self p s, h⟩, if_pos h]
  · simp only [Finset.exists_mem_insert, h, false_or, if_false]

theorem without_add (hχ : ∀ a, 1 ≤ a → χ (a + M) = χ a) (s : Finset ℕ) {N : ℕ} (hM : M ∣ N)
    (hs : ∀ p ∈ s, p ∣ N) {a : ℕ} (ha : 1 ≤ a) : without s χ (a + N) = without s χ a := by
  have hper : ∀ t, χ (a + M * t) = χ a := fun t =>
    apply_add_mul (fun b hb _ => hχ b hb) ha le_rfl
  have hdvd : (∃ p ∈ s, p ∣ a + N) ↔ ∃ p ∈ s, p ∣ a := by
    refine exists_congr fun p => and_congr_right fun hp => ?_
    exact Nat.dvd_add_left (hs p hp)
  obtain ⟨t, rfl⟩ := hM
  unfold without
  rw [hper]
  simp only [hdvd]

theorem without_mul {s : Finset ℕ} (hs : ∀ q ∈ s, q.Prime) {p : ℕ} (hp : p.Prime) (hps : p ∉ s)
    (hmul : ∀ a, χ (p * a) = χ p * χ a) (a : ℕ) : without s χ (p * a) = χ p * without s χ a := by
  have hdvd : (∃ q ∈ s, q ∣ p * a) ↔ ∃ q ∈ s, q ∣ a := by
    refine exists_congr fun q => and_congr_right fun hq => ?_
    have hne : q ≠ p := fun h => hps (h ▸ hq)
    exact ((Nat.coprime_primes (hs q hq) hp).mpr hne).dvd_mul_left
  unfold without
  simp only [hdvd, hmul, mul_ite, mul_zero]

/-- **Removing primes from the function** gives the twisted sum one Euler factor for each. -/
theorem twistedSum_without (hk : k < UInt32.size) (hM : M ≠ 0) {s : Finset ℕ}
    (hs : ∀ p ∈ s, p.Prime) (hχ : ∀ a, 1 ≤ a → χ (a + M) = χ a)
    (hmul : ∀ p ∈ s, ∀ a, χ (p * a) = χ p * χ a) :
    twistedSum (upTo k) k (M * ∏ p ∈ s, p) (without s χ) =
      twistedSum (upTo k) k M χ * ∏ p ∈ s, (1 - (χ p : ℚ) * (p : ℚ) ^ ((k : ℤ) - 1)) := by
  induction s using Finset.induction_on with
  | empty =>
    rw [Finset.prod_empty, Finset.prod_empty, mul_one, mul_one]
    refine twistedSum_congr fun a _ => ?_
    simp [without]
  | insert p s hps ih =>
    have hprime : ∀ q ∈ s, q.Prime := fun q hq => hs q (Finset.mem_insert_of_mem hq)
    have hp : p.Prime := hs p (Finset.mem_insert_self p s)
    have hp' : (p : ℚ) ≠ 0 := Nat.cast_ne_zero.mpr hp.ne_zero
    have hprod : ∏ q ∈ s, q ≠ 0 := Finset.prod_ne_zero_iff.mpr fun q hq => (hprime q hq).ne_zero
    have hper : ∀ a, 1 ≤ a → without s χ (a + M * ∏ q ∈ s, q) = without s χ a := fun a ha =>
      without_add hχ s (Dvd.intro _ rfl)
        (fun q hq => Dvd.dvd.mul_left (Finset.dvd_prod_of_mem _ hq) M) ha
    have hstep := twistedSum_without_multiples hk (mul_ne_zero hM hprod) hp.pos hper
      (without_mul hprime hp hps (hmul p (Finset.mem_insert_self p s)))
    rw [Finset.prod_insert hps, Finset.prod_insert hps, mul_comm p, ← mul_assoc,
      zpow_sub_one₀ hp', zpow_natCast, ← div_eq_mul_inv]
    have hcongr : ∀ a ∈ Finset.Icc 1 (M * (∏ q ∈ s, q) * p),
        without (insert p s) χ a = if p ∣ a then 0 else without s χ a :=
      fun a _ => without_insert p s χ a
    rw [twistedSum_congr hcongr, hstep,
      ih hprime fun q hq => hmul q (Finset.mem_insert_of_mem hq)]
    ring

end ZetaValues.Bernoulli
