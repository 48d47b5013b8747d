import ZetaValues.Bernoulli.Numbers
import Mathlib.Data.Nat.Notation

/-! # Initial lists of Bernoulli numbers

A list is *initial* if it is what the recurrence gives from the empty list after as many steps as it
has entries. The recurrence reads nothing but the list, so it may be interrupted and resumed
(`extend_add`), an initial list stays one when it is extended (`IsInitial.extend`), and each of its
own beginnings is one of the lists `upTo n` (`IsInitial.take`). -/

namespace ZetaValues.Bernoulli

/-- The recurrence may be interrupted and resumed. -/
theorem extend_add (numbers : List Rat) (a b : ℕ) :
    extend numbers (a + b) = extend (extend numbers a) b := by
  induction a generalizing numbers with
  | zero => rw [Nat.zero_add]; rfl
  | succ a ih => rw [Nat.succ_add_eq_add_succ]; exact ih _

theorem extend_succ (numbers : List Rat) (count : ℕ) :
    extend numbers (count + 1) = extend numbers count ++ [next (extend numbers count)] :=
  extend_add numbers count 1

/-- Extending a list leaves its beginnings as they are. -/
theorem take_extend {numbers : List Rat} {k : ℕ} (hk : k ≤ numbers.length) (count : ℕ) :
    (extend numbers count).take k = numbers.take k := by
  induction count with
  | zero => rfl
  | succ count ih =>
    rw [extend_succ, List.take_append_of_le_length (by rw [length_extend]; omega), ih]

/-- **An initial list**: the first Bernoulli numbers, by the recurrence from the empty list. -/
def IsInitial (numbers : List Rat) : Prop := numbers = extend [] numbers.length

theorem isInitial_nil : IsInitial [] := rfl

theorem IsInitial.extend {numbers : List Rat} (h : IsInitial numbers) (count : ℕ) :
    IsInitial (extend numbers count) := by
  unfold IsInitial at h ⊢
  rw [length_extend, extend_add, ← h]

theorem IsInitial.extendTo {numbers : List Rat} (h : IsInitial numbers) (n : ℕ) :
    IsInitial (extendTo numbers n) :=
  h.extend _

/-- The beginnings of an initial list are the lists `B_0, …, B_n`. -/
theorem IsInitial.take {numbers : List Rat} (h : IsInitial numbers) {n : ℕ}
    (hn : n < numbers.length) : numbers.take (n + 1) = upTo n := by
  obtain ⟨c, hc⟩ := Nat.exists_eq_add_of_lt hn
  have hl : (upTo n).length = n + 1 := length_upTo n
  have hnum : numbers = Bernoulli.extend (upTo n) c := by
    rw [h, hc, show n + c + 1 = (n + 1) + c by omega, extend_add]; rfl
  rw [hnum, take_extend (by omega), ← hl, List.take_length]

/-- An initial list that does not reach beyond `B_n` is extended to the list `B_0, …, B_n`. -/
theorem IsInitial.extendTo_eq_upTo {numbers : List Rat} (h : IsInitial numbers) {n : ℕ}
    (hn : numbers.length ≤ n + 1) : Bernoulli.extendTo numbers n = upTo n := by
  have ht := (h.extendTo n).take (n := n) (by rw [length_extendTo]; omega)
  have hl : (Bernoulli.extendTo numbers n).length = n + 1 := by rw [length_extendTo]; omega
  rwa [← hl, List.take_length] at ht

/-! ### The last entry -/

theorem upTo_eq_append (n : ℕ) : upTo n = extend [] n ++ [next (extend [] n)] :=
  extend_succ [] n

/-- **One number and the list agree**: `B_n` by itself is the last entry of `B_0, …, B_n`. -/
theorem getElem?_upTo_self (n : ℕ) : (upTo n)[n]? = some (number n) := by
  have hlen : (extend [] n).length = n := by simp
  have hlast : (upTo n)[n]? = some (next (extend [] n)) := by
    rw [upTo_eq_append, List.getElem?_append_right (Nat.le_of_eq hlen), hlen, Nat.sub_self]; rfl
  have hnext : next (extend [] n) = (closedForm n).getD (recur (extend [] n)) := by
    rw [next, hlen]
  rw [number, List.getD_eq_getElem?_getD, hlast, hnext]
  cases closedForm n <;> rfl

/-- The entries of an initial list are the Bernoulli numbers one by one. -/
theorem IsInitial.getElem? {numbers : List Rat} (h : IsInitial numbers) {n : ℕ}
    (hn : n < numbers.length) : numbers[n]? = some (number n) := by
  rw [← getElem?_upTo_self, ← h.take hn, List.getElem?_take_of_lt (by omega)]

end ZetaValues.Bernoulli
