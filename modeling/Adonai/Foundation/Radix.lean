/-
Conversion of a number between two bases, digit by digit, in an array of fixed size.

The cells hold the digits so far, least significant first. A further digit of the other base
multiplies them by that base and is added, with a carry that runs on until it is spent.
-/

import Mathlib.Data.Nat.Digits.Lemmas

namespace Adonai.Radix

/-- One pass over the cells: the new cells, how many were used, and the carry that is left.
The pass ends when the used cells are passed and nothing is carried. -/
def propagate (base factor : Nat) : (cells : List Nat) → (length carry : Nat) → List Nat × Nat × Nat
  | [], _, carry => ([], 0, carry)
  | cell :: cells, length, carry =>
    if carry ≠ 0 ∨ 0 < length then
      let total := carry + factor * cell
      let (rest, used, left) := propagate base factor cells (length - 1) (total / base)
      (total % base :: rest, used + 1, left)
    else (cell :: cells, 0, carry)

def extend (base value : Nat) (digits : List Nat) : Nat :=
  digits.foldl (fun value digit => base * value + digit) value

def valueOf (base : Nat) (digits : List Nat) : Nat := extend base 0 digits

def cellsOf (base size value : Nat) : List Nat :=
  Nat.digits base value ++ List.replicate (size - (Nat.digits base value).length) 0

variable {base factor : Nat}

theorem cellsOf_zero (size : Nat) : cellsOf base size 0 = List.replicate size 0 := by
  rw [cellsOf, Nat.digits_zero, List.nil_append, List.length_nil, Nat.sub_zero]

theorem cellsOf_succ (large : 1 < base) (size value : Nat) :
    cellsOf base (size + 1) value = value % base :: cellsOf base size (value / base) := by
  rcases Nat.eq_zero_or_pos value with zero | positive
  · rw [zero, Nat.zero_mod, Nat.zero_div, cellsOf_zero, cellsOf_zero, List.replicate_succ]
  · rw [cellsOf, cellsOf, Nat.digits_def' large positive, List.length_cons,
      Nat.add_sub_add_right, List.cons_append]

theorem drop_reverse_cellsOf (base size value : Nat) :
    (cellsOf base size value).reverse.drop (size - (Nat.digits base value).length) =
      (Nat.digits base value).reverse := by
  rw [cellsOf, List.reverse_append, List.reverse_replicate]
  exact List.drop_left' List.length_replicate

private theorem length_digits_pred (large : 1 < base) (value : Nat) :
    (Nat.digits base value).length - 1 = (Nat.digits base (value / base)).length := by
  rcases Nat.eq_zero_or_pos value with zero | positive
  · rw [zero, Nat.zero_div, Nat.digits_zero]
    rfl
  · rw [Nat.digits_def' large positive, List.length_cons, Nat.add_sub_cancel]

theorem length_digits_pos_iff {value : Nat} : 0 < (Nat.digits base value).length ↔ value ≠ 0 := by
  rw [List.length_pos_iff, ne_eq, Nat.digits_eq_nil_iff_eq_zero]

theorem propagate_eq (large : 1 < base) (positive : 0 < factor) (size value carry : Nat)
    (fits : factor * value + carry < base ^ size) :
    propagate base factor (cellsOf base size value) (Nat.digits base value).length carry =
      (cellsOf base size (factor * value + carry),
        (Nat.digits base (factor * value + carry)).length, 0) := by
  have none_of_zero {value carry : Nat} (zero : factor * value + carry = 0) :
      value = 0 ∧ carry = 0 := by
    rw [Nat.add_eq_zero_iff, Nat.mul_eq_zero] at zero
    exact ⟨zero.1.resolve_left positive.ne', zero.2⟩
  induction size generalizing value carry with
  | zero =>
    have zero : factor * value + carry = 0 := Nat.lt_one_iff.mp fits
    obtain ⟨rfl, rfl⟩ := none_of_zero zero
    rw [zero, cellsOf_zero, Nat.digits_zero]
    rfl
  | succ size ih =>
    have division : factor * (value / base) + (carry + factor * (value % base)) / base =
        (factor * value + carry) / base := by
      have expanded : factor * value + carry =
          carry + factor * (value % base) + factor * (value / base) * base := by
        conv_lhs => rw [← Nat.mod_add_div value base]
        ring
      rw [expanded, Nat.add_mul_div_right _ _ (by omega), Nat.add_comm]
    have remainder : (carry + factor * (value % base)) % base =
        (factor * value + carry) % base := by
      rw [Nat.add_comm, Nat.add_mod, Nat.mul_mod, Nat.mod_mod, ← Nat.mul_mod, ← Nat.add_mod]
    rw [cellsOf_succ large, cellsOf_succ large, propagate]
    by_cases nothing : factor * value + carry = 0
    · obtain ⟨rfl, rfl⟩ := none_of_zero nothing
      rw [nothing, Nat.digits_zero]
      rfl
    · have continues : carry ≠ 0 ∨ 0 < (Nat.digits base value).length := by
        rw [length_digits_pos_iff]
        by_contra stops
        obtain ⟨rfl, rfl⟩ : carry = 0 ∧ value = 0 := by omega
        exact nothing rfl
      have smaller : factor * (value / base) + (carry + factor * (value % base)) / base <
          base ^ size := by
        rw [division]
        rw [Nat.pow_succ'] at fits
        exact Nat.div_lt_of_lt_mul fits
      have used : (Nat.digits base ((factor * value + carry) / base)).length + 1 =
          (Nat.digits base (factor * value + carry)).length := by
        rw [Nat.digits_def' large (Nat.pos_of_ne_zero nothing), List.length_cons]
      rw [if_pos continues, length_digits_pred large]
      dsimp only
      rw [ih _ _ smaller, division, remainder, used]

theorem extend_cons (value digit : Nat) (digits : List Nat) :
    extend base value (digit :: digits) = extend base (base * value + digit) digits :=
  List.foldl_cons ..

theorem extend_eq (value : Nat) (digits : List Nat) :
    extend base value digits = base ^ digits.length * value + valueOf base digits := by
  induction digits generalizing value with
  | nil =>
    rw [List.length_nil, Nat.pow_zero, Nat.one_mul]
    rfl
  | cons digit digits ih =>
    rw [valueOf, extend_cons, extend_cons, ih, ih (base * 0 + digit), List.length_cons]
    ring

theorem le_extend (positive : 0 < base) (value : Nat) (digits : List Nat) :
    value ≤ extend base value digits := by
  rw [extend_eq]
  exact (Nat.le_mul_of_pos_left value (Nat.pow_pos positive)).trans (Nat.le_add_right _ _)

theorem valueOf_cons (digit : Nat) (digits : List Nat) :
    valueOf base (digit :: digits) = base ^ digits.length * digit + valueOf base digits := by
  rw [valueOf, extend_cons, extend_eq, Nat.mul_zero, Nat.zero_add]

theorem valueOf_append (front back : List Nat) :
    valueOf base (front ++ back) = base ^ back.length * valueOf base front + valueOf base back := by
  rw [← extend_eq]
  exact List.foldl_append

theorem valueOf_eq_ofDigits (digits : List Nat) :
    valueOf base digits = Nat.ofDigits base digits.reverse := by
  induction digits with
  | nil => rfl
  | cons digit digits ih =>
    rw [valueOf_cons, List.reverse_cons, Nat.ofDigits_append, Nat.ofDigits_singleton,
      List.length_reverse, ih, Nat.add_comm]

section

variable {digits : List Nat} (large : 1 < base) (small : ∀ digit ∈ digits, digit < base)

include large small

theorem valueOf_lt : valueOf base digits < base ^ digits.length := by
  rw [valueOf_eq_ofDigits, ← List.length_reverse]
  apply Nat.ofDigits_lt_base_pow_length large
  intro digit member
  exact small digit (List.mem_reverse.mp member)

theorem digits_valueOf (leading : digits.head? ≠ some 0) :
    Nat.digits base (valueOf base digits) = digits.reverse := by
  rw [valueOf_eq_ofDigits]
  apply Nat.digits_ofDigits _ large
  · intro digit member
    exact small digit (List.mem_reverse.mp member)
  · intro nonempty zero
    apply leading
    rw [← List.getLast?_reverse, List.getLast?_eq_some_getLast nonempty, zero]

end

theorem head?_reverse_digits (base value : Nat) :
    (Nat.digits base value).reverse.head? ≠ some 0 := by
  rw [List.head?_reverse]
  intro last
  obtain ⟨nonempty, isLast⟩ := List.mem_getLast?_eq_getLast last
  exact Nat.getLast_digit_ne_zero base (Nat.digits_ne_nil_iff_ne_zero.mp nonempty) isLast.symm

theorem valueOf_reverse_digits (base value : Nat) :
    valueOf base (Nat.digits base value).reverse = value := by
  rw [valueOf_eq_ofDigits, List.reverse_reverse, Nat.ofDigits_digits]

theorem exists_low_digits (large : 1 < base) (places value : Nat)
    (long : 0 < value / base ^ places) :
    ∃ low, low.length = places ∧
      Nat.digits base value = low ++ Nat.digits base (value / base ^ places) := by
  induction places generalizing value with
  | zero => exact ⟨[], rfl, by rw [Nat.pow_zero, Nat.div_one, List.nil_append]⟩
  | succ places ih =>
    have shifted : value / base / base ^ places = value / base ^ (places + 1) := by
      rw [Nat.div_div_eq_div_mul, ← Nat.pow_succ']
    have positive : 0 < value := long.trans_le (Nat.div_le_self _ _)
    obtain ⟨low, length, digits⟩ := ih (value / base) (shifted ▸ long)
    refine ⟨value % base :: low, by rw [List.length_cons, length], ?_⟩
    rw [Nat.digits_def' large positive, digits, shifted, List.cons_append]

/-- A ratio of exponents at which one base catches up with another gives the size that a
number of so many digits needs. -/
theorem pow_le_pow_of_ratio {small large numerator denominator : Nat} (positive : 0 < denominator)
    (one : 1 ≤ large) (ratio : small ^ denominator ≤ large ^ numerator) (count : Nat) :
    small ^ count ≤ large ^ (count * numerator / denominator + 1) := by
  apply (Nat.pow_le_pow_iff_left positive.ne').mp
  calc
    (small ^ count) ^ denominator = (small ^ denominator) ^ count := by
      rw [← Nat.pow_mul, ← Nat.pow_mul, Nat.mul_comm]
    _ ≤ (large ^ numerator) ^ count := Nat.pow_le_pow_left ratio count
    _ = large ^ (count * numerator) := by rw [← Nat.pow_mul, Nat.mul_comm]
    _ ≤ large ^ ((count * numerator / denominator + 1) * denominator) := by
      apply Nat.pow_le_pow_right one
      exact (Nat.lt_mul_of_div_lt (Nat.lt_succ_self _) positive).le
    _ = (large ^ (count * numerator / denominator + 1)) ^ denominator := Nat.pow_mul ..

end Adonai.Radix
