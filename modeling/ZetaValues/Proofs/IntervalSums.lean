import Mathlib.Algebra.BigOperators.Intervals
import Mathlib.Algebra.Order.Interval.Finset.Basic

/-! # Sums over the numbers from 1 on

Sums over `1, …, L`, taken block by block (`sum_Icc_mul`), over the multiples of a number only
(`sum_Icc_multiples`), and by the pairs of numbers that change places when the range is read
backward (`sum_Icc_pairs`). -/

namespace ZetaValues

variable {R : Type*} [AddCommMonoid R]

/-- A term that vanishes at 0 may be counted there. -/
theorem sum_Icc_one_eq {f : ℕ → R} (h0 : f 0 = 0) (L : ℕ) :
    ∑ a ∈ Finset.Icc 1 L, f a = ∑ a ∈ Finset.range (L + 1), f a := by
  refine Finset.sum_subset (fun a ha => ?_) fun a ha hna => ?_
  · rw [Finset.mem_Icc] at ha
    exact Finset.mem_range.mpr (by omega)
  · rw [Finset.mem_range] at ha
    rw [Finset.mem_Icc] at hna
    obtain rfl : a = 0 := by omega
    exact h0

/-- The last term may be counted at 0 instead, if it is the same there. -/
theorem sum_Icc_eq_sum_range {f : ℕ → R} {L : ℕ} (h : f L = f 0) :
    ∑ a ∈ Finset.Icc 1 L, f a = ∑ a ∈ Finset.range L, f a := by
  rcases Nat.eq_zero_or_pos L with rfl | hL
  · rfl
  · rw [Finset.sum_range_eq_add_Ico f hL, ← h, add_comm, ← Finset.sum_Ico_succ_top hL]
    rfl

/-- The numbers up to `M t`, in blocks of `M`. -/
theorem sum_Icc_mul (f : ℕ → R) (M t : ℕ) :
    ∑ a ∈ Finset.Icc 1 (M * t), f a =
      ∑ j ∈ Finset.range t, ∑ b ∈ Finset.Icc 1 M, f (b + M * j) := by
  induction t with
  | zero => simp
  | succ t ih =>
    have hshift : ∑ b ∈ Finset.Icc 1 M, f (b + M * t) =
        ∑ a ∈ Finset.Icc (1 + M * t) (M + M * t), f a := by
      rw [← Finset.map_add_right_Icc, Finset.sum_map]
      rfl
    rw [Finset.sum_range_succ, ← ih, hshift, Nat.mul_succ, ← Finset.sum_union]
    · refine Finset.sum_congr (Finset.ext fun a => ?_) fun _ _ => rfl
      simp only [Finset.mem_union, Finset.mem_Icc]
      omega
    · rw [Finset.disjoint_left]
      intro a
      simp only [Finset.mem_Icc]
      omega

/-- The multiples of `p` up to `M p`. -/
theorem sum_Icc_multiples (f : ℕ → R) (M : ℕ) {p : ℕ} (hp : 0 < p) :
    ∑ a ∈ Finset.Icc 1 (M * p), (if p ∣ a then f a else 0) = ∑ b ∈ Finset.Icc 1 M, f (p * b) := by
  rw [← Finset.sum_filter]
  symm
  refine Finset.sum_nbij (p * ·) ?_ ?_ ?_ fun _ _ => rfl
  · intro b hb
    rw [Finset.mem_Icc] at hb
    rw [Finset.mem_filter, Finset.mem_Icc]
    exact ⟨⟨Nat.mul_pos hp hb.1, by rw [mul_comm M]; exact Nat.mul_le_mul_left p hb.2⟩,
      Dvd.intro b rfl⟩
  · intro b _ c _ hbc
    exact Nat.eq_of_mul_eq_mul_left hp hbc
  · intro a ha
    rw [Finset.mem_coe, Finset.mem_filter, Finset.mem_Icc] at ha
    obtain ⟨⟨h1, hle⟩, b, rfl⟩ := ha
    rw [mul_comm M] at hle
    have hb : 0 < b := Nat.pos_of_mul_pos_left h1
    exact ⟨b, Finset.mem_coe.mpr (Finset.mem_Icc.mpr ⟨hb, Nat.le_of_mul_le_mul_left hle hp⟩), rfl⟩

/-- A sum over `1, …, L`, by the pairs with sum `L + 1`, in each of which one number satisfies
`p`. -/
theorem sum_Icc_pairs (f : ℕ → R) {L : ℕ} (p : ℕ → Prop) [DecidablePred p]
    (hp : ∀ a ∈ Finset.Icc 1 L, p (L + 1 - a) ↔ ¬ p a) :
    ∑ a ∈ Finset.Icc 1 L, f a =
      ∑ a ∈ Finset.Icc 1 L, if p a then f a + f (L + 1 - a) else 0 := by
  have hmem : ∀ a ∈ Finset.Icc 1 L, L + 1 - a ∈ Finset.Icc 1 L := by
    intro a ha
    rw [Finset.mem_Icc] at ha ⊢
    omega
  have hback : ∀ a ∈ Finset.Icc 1 L, L + 1 - (L + 1 - a) = a := by
    intro a ha
    rw [Finset.mem_Icc] at ha
    omega
  have hother : ∑ a ∈ Finset.Icc 1 L with ¬ p a, f a =
      ∑ a ∈ Finset.Icc 1 L with p a, f (L + 1 - a) := by
    refine Finset.sum_nbij' (L + 1 - ·) (L + 1 - ·) ?_ ?_ ?_ ?_ ?_
    · intro a ha
      rw [Finset.mem_filter] at ha ⊢
      exact ⟨hmem a ha.1, (hp a ha.1).mpr ha.2⟩
    · intro a ha
      rw [Finset.mem_filter] at ha ⊢
      exact ⟨hmem a ha.1, fun h => (hp a ha.1).mp h ha.2⟩
    · exact fun a ha => hback a (Finset.mem_filter.mp ha).1
    · exact fun a ha => hback a (Finset.mem_filter.mp ha).1
    · intro a ha
      rw [hback a (Finset.mem_filter.mp ha).1]
  rw [← Finset.sum_filter_add_sum_filter_not _ p, hother, ← Finset.sum_add_distrib,
    Finset.sum_filter]

end ZetaValues
