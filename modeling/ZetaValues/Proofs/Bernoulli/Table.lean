import ZetaValues.Bernoulli.Table
import ZetaValues.Proofs.Bernoulli.Initial
import Mathlib.Logic.Relation
import Mathlib.Tactic.SplitIfs

/-! # What a table of Bernoulli numbers holds

The invariant of a table is that its entries are an initial list, not longer than the limit allows
(`Table.Valid`). Under it every way to answer a question gives the number that would be computed
afresh (`Valid.upTo_fst`, `Valid.get_fst`), and it survives everything that can be done to a table
(`Step.valid`). How far a table reaches afterwards depends on its length and its limit only
(`length_upTo`); one number is the list that ends in it, or leaves the table as it is
(`get_snd_of_recurrence`, `get_snd_of_closedForm`). -/

namespace ZetaValues.Bernoulli.Table

/-- **The invariant of a table.** -/
structure Valid (t : Table) : Prop where
  initial : IsInitial t.entries
  length_le : t.entries.length ≤ t.limit + 1

theorem valid_empty (limit : ℕ) : (empty limit).Valid :=
  ⟨isInitial_nil, Nat.zero_le _⟩

theorem valid_clear (t : Table) : t.clear.Valid := valid_empty _

variable {t : Table}

theorem Valid.grow (h : t.Valid) {n : ℕ} (hn : n ≤ t.limit) : (t.grow n).Valid := by
  refine ⟨h.initial.extendTo n, ?_⟩
  have := h.length_le
  simp only [Table.grow, length_extendTo]
  omega

/-! ### The list of numbers -/

theorem Valid.held_snd (h : t.Valid) {n : ℕ} (hn : n < t.entries.length ∨ n ≤ t.limit) :
    (t.held n).2.Valid := by
  unfold held
  split_ifs with hlt
  · exact h
  · exact h.grow (hn.resolve_left hlt)

/-- Entries that are there, or that growth puts there. -/
theorem Valid.held_fst (h : t.Valid) (n : ℕ) : (t.held n).1 = Bernoulli.upTo n := by
  unfold held
  split_ifs with hlt
  · exact h.initial.take hlt
  · exact (h.initial.extendTo n).take (by rw [length_extendTo]; omega)

/-- **A table answers with the fresh list**, whether its entries reach that far, the table grows, or
a copy goes on beyond the limit. -/
theorem Valid.upTo_fst (h : t.Valid) (n : ℕ) : (t.upTo n).1 = Bernoulli.upTo n := by
  unfold upTo
  split_ifs with hc
  · show extendTo (t.held t.limit).1 n = Bernoulli.upTo n
    rw [h.held_fst]
    exact (isInitial_nil.extendTo t.limit).extendTo_eq_upTo (by rw [length_extendTo]; simp; omega)
  · exact h.held_fst n

theorem Valid.upTo_snd (h : t.Valid) (n : ℕ) : (t.upTo n).2.Valid := by
  unfold upTo
  split_ifs with hc
  · exact h.held_snd (Or.inr (Nat.le_refl _))
  · exact h.held_snd (by omega)

/-! ### One number -/

theorem number_of_closedForm? {n : ℕ} {b : Rat} (hb : closedForm? n = some b) : number n = b := by
  unfold closedForm? at hb
  split_ifs at hb
  rw [number, hb]; rfl

/-- **A table answers with the fresh number**, whether by a closed form, by an entry, or by the list
that ends in it. -/
theorem Valid.get_fst (h : t.Valid) (n : ℕ) : (t.get n).1 = number n := by
  unfold get
  rcases hc : closedForm? n with _ | b
  · rcases he : t.entries[n]? with _ | b
    · show (t.upTo n).1.getD n 0 = number n
      rw [h.upTo_fst, List.getD_eq_getElem?_getD, getElem?_upTo_self]; rfl
    · obtain ⟨hn, -⟩ := List.getElem?_eq_some_iff.mp he
      exact Option.some.inj (he.symm.trans (h.initial.getElem? hn))
  · exact (number_of_closedForm? hc).symm

theorem Valid.get_snd (h : t.Valid) (n : ℕ) : (t.get n).2.Valid := by
  unfold get
  split
  · exact h
  · exact h.upTo_snd n

/-! ### The limit stays -/

@[simp] theorem limit_held (t : Table) (n : ℕ) : (t.held n).2.limit = t.limit := by
  unfold held; split_ifs <;> rfl

@[simp] theorem limit_upTo (t : Table) (n : ℕ) : (t.upTo n).2.limit = t.limit := by
  unfold upTo
  split_ifs
  · exact limit_held t _
  · exact limit_held t _

@[simp] theorem limit_get (t : Table) (n : ℕ) : (t.get n).2.limit = t.limit := by
  unfold get
  split
  · rfl
  · exact limit_upTo t n

/-! ### What can be done to a table -/

/-- What becomes of a table when it is used once: nothing, or one of its operations. -/
inductive Step (t : Table) : Table → Prop
  | none : Step t t
  | upTo (n : ℕ) : Step t (t.upTo n).2
  | get (n : ℕ) : Step t (t.get n).2
  | clear : Step t t.clear

theorem Step.valid {t' : Table} (h : t.Step t') (ht : t.Valid) : t'.Valid := by
  cases h with
  | none => exact ht
  | upTo n => exact ht.upTo_snd n
  | get n => exact ht.get_snd n
  | clear => exact valid_clear t

theorem Step.limit_eq {t' : Table} (h : t.Step t') : t'.limit = t.limit := by
  cases h with
  | none => rfl
  | upTo n => exact limit_upTo t n
  | get n => exact limit_get t n
  | clear => rfl

/-- A table that was empty once, after any uses. -/
def Reachable (limit : ℕ) (t : Table) : Prop := Relation.ReflTransGen Step (empty limit) t

theorem Reachable.valid {limit : ℕ} (h : Reachable limit t) : t.Valid := by
  induction h with
  | refl => exact valid_empty limit
  | tail _ hstep ih => exact hstep.valid ih

theorem Reachable.limit_eq {limit : ℕ} (h : Reachable limit t) : t.limit = limit := by
  induction h with
  | refl => rfl
  | tail _ hstep ih => exact hstep.limit_eq.trans ih

/-- The entries are a fresh list, unless there are none. -/
theorem Valid.entries_eq (h : t.Valid) :
    t.entries = [] ∨ t.entries = Bernoulli.upTo (t.entries.length - 1) := by
  rcases Nat.eq_zero_or_pos t.entries.length with h0 | hpos
  · exact Or.inl (List.length_eq_zero_iff.mp h0)
  · right
    have htake := h.initial.take (n := t.entries.length - 1) (by omega)
    rwa [Nat.sub_add_cancel hpos, List.take_length] at htake

/-! ### How far it reaches -/

theorem length_held (t : Table) (n : ℕ) :
    (t.held n).2.entries.length = max t.entries.length (n + 1) := by
  unfold held
  split_ifs with h
  · exact (Nat.max_eq_left h).symm
  · exact length_extendTo t.entries n

/-- **The growth of a table**: up to the index asked for, or to the limit, and never back. -/
theorem length_upTo (t : Table) (n : ℕ) :
    (t.upTo n).2.entries.length = max t.entries.length (min n t.limit + 1) := by
  unfold upTo
  split_ifs with h
  · rw [Nat.min_eq_right (Nat.le_of_lt h.2)]
    exact length_held t t.limit
  · -- beyond the limit the entries reach further than `n` here
    show (t.held n).2.entries.length = _
    rw [length_held]
    omega

theorem closedForm?_eq_none_iff {n : ℕ} (hn : n < UInt32.size) :
    closedForm? n = none ↔ ¬ (n ≤ 1 ∨ n % 2 = 1) := by
  rw [closedForm?, if_pos hn, closedForm, Nat.mod_eq_of_lt hn]
  split
  · simp
  · simp
  · next h0 h1 =>
    have : n ≠ 0 := h0
    have : n ≠ 1 := h1
    split_ifs <;> simp <;> omega

/-- A number with a closed form leaves the table as it is. -/
theorem get_snd_of_closedForm (t : Table) {n : ℕ} (hn : n < UInt32.size)
    (h : n ≤ 1 ∨ n % 2 = 1) : (t.get n).2 = t := by
  unfold get
  rcases hc : closedForm? n with _ | b
  · exact absurd h ((closedForm?_eq_none_iff hn).mp hc)
  · rfl

/-- Any other number does to the table what the list that ends in it does. -/
theorem get_snd_of_recurrence (t : Table) {n : ℕ} (hn : n < UInt32.size)
    (h : ¬ (n ≤ 1 ∨ n % 2 = 1)) : (t.get n).2 = (t.upTo n).2 := by
  unfold get
  rw [(closedForm?_eq_none_iff hn).mpr h]
  rcases he : t.entries[n]? with _ | b
  · rfl
  · -- an entry is there, so the list needs no growth either
    obtain ⟨hlt, -⟩ := List.getElem?_eq_some_iff.mp he
    show t = (t.upTo n).2
    rw [upTo, if_neg (by omega), held, if_pos hlt]

end ZetaValues.Bernoulli.Table
