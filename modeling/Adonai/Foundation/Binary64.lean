/-
Finite binary64 arithmetic over exact rationals.

Every operation is the exact rational one followed by `round`, to 53 significant bits with ties to
even. Exponents are unbounded: overflow, NaN and the loss of precision below the normal range are
outside this component.
-/

import Mathlib.Data.Rat.Floor
import Mathlib.Tactic.Positivity

namespace Adonai.Binary64

/-- The exponent `e` with `2 ^ e ≤ |q| < 2 ^ (e + 1)`, computed from bit lengths. -/
def binade (q : ℚ) : ℤ :=
  let guess : ℤ := (Nat.log2 q.num.natAbs : ℤ) - (Nat.log2 q.den : ℤ)
  if q.den * 2 ^ guess.toNat ≤ q.num.natAbs * 2 ^ (-guess).toNat then guess
  else guess - 1

def scale (exponent : ℤ) : ℚ := mkRat (2 ^ exponent.toNat) (2 ^ (-exponent).toNat)

def roundHalfEven (q : ℚ) : ℤ :=
  let whole := ⌊q⌋
  let rest := q - whole
  if rest < 1 / 2 then whole
  else if 1 / 2 < rest then whole + 1
  else if whole % 2 = 0 then whole
  else whole + 1

def round (q : ℚ) : ℚ :=
  let ulp := scale (binade q - 52)
  roundHalfEven (q / ulp) * ulp

def ofInt (value : ℤ) : ℚ := round value

def add (left right : ℚ) : ℚ := round (left + right)

def sub (left right : ℚ) : ℚ := round (left - right)

def mul (left right : ℚ) : ℚ := round (left * right)

def div (left right : ℚ) : ℚ := round (left / right)

/-- Conversion of a double to an integer, dropping the fraction. -/
def toInt (q : ℚ) : ℤ := if 0 ≤ q then ⌊q⌋ else ⌈q⌉

/-- `llround`: the nearest integer, halfway cases away from zero. -/
def llround (q : ℚ) : ℤ := if 0 ≤ q then ⌊q + 1 / 2⌋ else ⌈q - 1 / 2⌉

variable (exponent : ℤ)

theorem scale_eq_zpow : scale exponent = (2 : ℚ) ^ exponent := by
  unfold scale
  rw [Rat.mkRat_eq_div]
  rcases Int.eq_nat_or_neg exponent with ⟨size, rfl | rfl⟩
  · simp
  · simp

theorem scale_pos : 0 < scale exponent := by
  rw [scale_eq_zpow]
  exact zpow_pos (by norm_num) exponent

variable (q : ℚ)

private theorem abs_eq_div : |q| = (q.num.natAbs : ℚ) / q.den := by
  conv_lhs => rw [← Rat.num_div_den q]
  rw [abs_div, Nat.abs_cast, Nat.cast_natAbs, Int.cast_abs]

private theorem zpow_eq_div : (2 : ℚ) ^ exponent = 2 ^ exponent.toNat / 2 ^ (-exponent).toNat := by
  rw [← scale_eq_zpow, scale, Rat.mkRat_eq_div]
  push_cast
  rfl

theorem binade_lower (nonzero : q ≠ 0) : (2 : ℚ) ^ binade q ≤ |q| := by
  have numPos : 0 < q.num.natAbs := Int.natAbs_pos.mpr (Rat.num_ne_zero.mpr nonzero)
  have denPos : (0 : ℚ) < q.den := by exact_mod_cast q.den_pos
  rw [abs_eq_div, le_div_iff₀ denPos]
  unfold binade
  set guess : ℤ := (Nat.log2 q.num.natAbs : ℤ) - (Nat.log2 q.den : ℤ) with hGuess
  have split := zpow_eq_div guess
  by_cases accepted : q.den * 2 ^ guess.toNat ≤ q.num.natAbs * 2 ^ (-guess).toNat
  · rw [if_pos accepted, split, div_mul_eq_mul_div, div_le_iff₀ (by positivity), mul_comm]
    exact_mod_cast accepted
  rw [if_neg accepted]
  -- The rejected guess overestimates by one, so the bit lengths alone suffice.
  have numBound : (2 : ℚ) ^ (Nat.log2 q.num.natAbs) ≤ q.num.natAbs := by
    exact_mod_cast Nat.log2_self_le (Nat.pos_iff_ne_zero.mp numPos)
  have denBound : (q.den : ℚ) ≤ 2 ^ (Nat.log2 q.den + 1) := by
    exact_mod_cast (Nat.lt_log2_self (n := q.den)).le
  calc (2 : ℚ) ^ (guess - 1) * q.den
      ≤ (2 : ℚ) ^ (guess - 1) * 2 ^ (Nat.log2 q.den + 1) :=
        mul_le_mul_of_nonneg_left denBound (zpow_pos (by norm_num) _).le
    _ = (2 : ℚ) ^ (Nat.log2 q.num.natAbs) := by
        rw [← zpow_natCast, ← zpow_natCast, ← zpow_add₀ (by norm_num)]
        congr 1
        omega
    _ ≤ q.num.natAbs := numBound

theorem binade_upper : |q| < (2 : ℚ) ^ (binade q + 1) := by
  have denPos : (0 : ℚ) < q.den := by exact_mod_cast q.den_pos
  rw [abs_eq_div, div_lt_iff₀ denPos]
  unfold binade
  set guess : ℤ := (Nat.log2 q.num.natAbs : ℤ) - (Nat.log2 q.den : ℤ) with hGuess
  by_cases accepted : q.den * 2 ^ guess.toNat ≤ q.num.natAbs * 2 ^ (-guess).toNat
  · rw [if_pos accepted]
    have numBound : (q.num.natAbs : ℚ) < 2 ^ (Nat.log2 q.num.natAbs + 1) := by
      exact_mod_cast Nat.lt_log2_self
    have denBound : (2 : ℚ) ^ (Nat.log2 q.den) ≤ q.den := by
      exact_mod_cast Nat.log2_self_le q.den_pos.ne'
    calc (q.num.natAbs : ℚ) < 2 ^ (Nat.log2 q.num.natAbs + 1) := numBound
      _ = (2 : ℚ) ^ (guess + 1) * 2 ^ (Nat.log2 q.den) := by
          rw [← zpow_natCast, ← zpow_natCast, ← zpow_add₀ (by norm_num)]
          congr 1
          omega
      _ ≤ (2 : ℚ) ^ (guess + 1) * q.den :=
          mul_le_mul_of_nonneg_left denBound (zpow_pos (by norm_num) _).le
  · rw [if_neg accepted, show guess - 1 + 1 = guess by omega, zpow_eq_div, div_mul_eq_mul_div,
      lt_div_iff₀ (by positivity), mul_comm (2 ^ guess.toNat)]
    exact_mod_cast Nat.lt_of_not_le accepted

theorem binade_le (small : |q| < 2 ^ 53) : binade q ≤ 52 := by
  by_cases zero : q = 0
  · subst zero
    decide
  · have lower := (binade_lower q zero).trans_lt small
    have := (zpow_lt_zpow_iff_right₀ (by norm_num : (1 : ℚ) < 2)).mp
      (show (2 : ℚ) ^ binade q < 2 ^ (53 : ℤ) by exact_mod_cast lower)
    omega

theorem roundHalfEven_le (bound : ℤ) (le : q ≤ bound) : roundHalfEven q ≤ bound := by
  have floorLe : ⌊q⌋ ≤ bound := by
    exact_mod_cast (Int.floor_le q).trans le
  unfold roundHalfEven
  by_cases same : ⌊q⌋ = bound
  · -- `q` is then the integer `bound`, so nothing is left to round up.
    have rest : q - ⌊q⌋ = 0 := by
      have := Int.floor_le q
      rw [same] at this ⊢
      linarith
    simp [rest, floorLe]
  · dsimp only
    split_ifs <;> omega

theorem le_roundHalfEven (bound : ℤ) (le : (bound : ℚ) ≤ q) : bound ≤ roundHalfEven q := by
  have boundLe : bound ≤ ⌊q⌋ := Int.le_floor.mpr le
  unfold roundHalfEven
  dsimp only
  split_ifs <;> omega

theorem roundHalfEven_mono {low high : ℚ} (ordered : low ≤ high) :
    roundHalfEven low ≤ roundHalfEven high := by
  by_cases same : ⌊low⌋ = ⌊high⌋
  · unfold roundHalfEven
    rw [same]
    dsimp only
    split_ifs <;> first | omega | (exfalso; linarith)
  have floors : ⌊low⌋ + 1 ≤ ⌊high⌋ := by
    have := Int.floor_le_floor ordered
    omega
  have below : roundHalfEven low ≤ ⌊low⌋ + 1 :=
    roundHalfEven_le low _ (by push_cast; exact (Int.lt_floor_add_one low).le)
  have above : ⌊high⌋ ≤ roundHalfEven high := le_roundHalfEven high _ (Int.floor_le high)
  omega

theorem round_zero : round 0 = 0 := by
  decide +kernel

theorem round_le_ulps {q : ℚ} {count : ℤ} (le : q ≤ count * scale (binade q - 52)) :
    round q ≤ count * scale (binade q - 52) := by
  have ulpPos := scale_pos (binade q - 52)
  have rounded : roundHalfEven (q / scale (binade q - 52)) ≤ count :=
    roundHalfEven_le _ count ((div_le_iff₀ ulpPos).mpr le)
  exact mul_le_mul_of_nonneg_right (Int.cast_le.mpr rounded) ulpPos.le

theorem ulps_le_round {q : ℚ} {count : ℤ} (le : count * scale (binade q - 52) ≤ q) :
    count * scale (binade q - 52) ≤ round q := by
  have ulpPos := scale_pos (binade q - 52)
  have rounded : count ≤ roundHalfEven (q / scale (binade q - 52)) :=
    le_roundHalfEven _ count ((le_div_iff₀ ulpPos).mpr le)
  exact mul_le_mul_of_nonneg_right (Int.cast_le.mpr rounded) ulpPos.le

theorem round_nonneg {q : ℚ} (nonneg : 0 ≤ q) : 0 ≤ round q := by
  have bound := @ulps_le_round q 0
  rw [Int.cast_zero, zero_mul] at bound
  exact bound nonneg

theorem zpow_eq_ulps (places : ℕ) :
    (2 : ℚ) ^ (exponent + places) = ((2 ^ places : ℤ) : ℚ) * scale exponent := by
  rw [scale_eq_zpow, zpow_add₀ (by norm_num), zpow_natCast, Int.cast_pow, Int.cast_ofNat, mul_comm]

theorem round_le_binade {q : ℚ} (positive : 0 < q) : round q ≤ (2 : ℚ) ^ (binade q + 1) := by
  have whole := zpow_eq_ulps (binade q - 52) 53
  rw [show binade q - 52 + (53 : ℕ) = binade q + 1 by omega] at whole
  have upper := binade_upper q
  rw [abs_of_pos positive] at upper
  rw [whole] at upper ⊢
  exact round_le_ulps upper.le

theorem binade_le_round {q : ℚ} (positive : 0 < q) : (2 : ℚ) ^ binade q ≤ round q := by
  have whole := zpow_eq_ulps (binade q - 52) 52
  rw [show binade q - 52 + (52 : ℕ) = binade q by omega] at whole
  have lower := binade_lower q positive.ne'
  rw [abs_of_pos positive] at lower
  rw [whole] at lower ⊢
  exact ulps_le_round lower

theorem round_mono {low high : ℚ} (nonneg : 0 ≤ low) (ordered : low ≤ high) :
    round low ≤ round high := by
  rcases nonneg.eq_or_lt with zero | lowPos
  · rw [← zero, round_zero]
    exact round_nonneg (nonneg.trans ordered)
  have highPos := lowPos.trans_le ordered
  have binades : binade low ≤ binade high := by
    have below := binade_lower low lowPos.ne'
    have above := binade_upper high
    rw [abs_of_pos lowPos] at below
    rw [abs_of_pos highPos] at above
    have powers := (zpow_lt_zpow_iff_right₀ (by norm_num : (1 : ℚ) < 2)).mp
      ((below.trans ordered).trans_lt above)
    omega
  rcases binades.eq_or_lt with same | less
  · have ulpPos := scale_pos (binade high - 52)
    unfold round
    rw [same]
    have rounded : (roundHalfEven (low / scale (binade high - 52)) : ℚ) ≤
        roundHalfEven (high / scale (binade high - 52)) := by
      exact_mod_cast roundHalfEven_mono (div_le_div_of_nonneg_right ordered ulpPos.le)
    exact mul_le_mul_of_nonneg_right rounded ulpPos.le
  · calc round low ≤ (2 : ℚ) ^ (binade low + 1) := round_le_binade lowPos
      _ ≤ (2 : ℚ) ^ binade high := zpow_le_zpow_right₀ (by norm_num) (by omega)
      _ ≤ round high := binade_le_round highPos

theorem exists_integer_ulps (small : |q| < 2 ^ 53) (bound : ℤ) :
    ∃ count : ℤ, (bound : ℚ) = count * scale (binade q - 52) := by
  have exponent := binade_le q small
  refine ⟨bound * 2 ^ (52 - binade q).toNat, ?_⟩
  rw [scale_eq_zpow]
  push_cast
  rw [mul_assoc, ← zpow_natCast, ← zpow_add₀ (by norm_num),
    show ((52 - binade q).toNat : ℤ) + (binade q - 52) = 0 by omega, zpow_zero, mul_one]

/-- Rounding does not leave an interval between two integers that are representable. -/
theorem round_between (low high : ℤ) (lowFits : -2 ^ 53 < low) (highFits : high < 2 ^ 53)
    (above : low ≤ q) (below : q ≤ high) : low ≤ round q ∧ round q ≤ high := by
  have small : |q| < 2 ^ 53 :=
    abs_lt.mpr ⟨lt_of_lt_of_le (by exact_mod_cast lowFits) above,
      lt_of_le_of_lt below (by exact_mod_cast highFits)⟩
  obtain ⟨lowCount, isLow⟩ := exists_integer_ulps q small low
  obtain ⟨highCount, isHigh⟩ := exists_integer_ulps q small high
  rw [isLow] at above ⊢
  rw [isHigh] at below ⊢
  exact ⟨ulps_le_round above, round_le_ulps below⟩

theorem ofInt_eq (value : ℤ) (small : |value| < 2 ^ 53) : ofInt value = value := by
  obtain ⟨low, high⟩ := abs_lt.mp small
  obtain ⟨above, below⟩ := round_between value value value low high le_rfl le_rfl
  exact le_antisymm below above

theorem toInt_le (q : ℚ) (bound : ℤ) (le : q ≤ bound) : toInt q ≤ bound := by
  unfold toInt
  split_ifs
  · exact_mod_cast (Int.floor_le q).trans le
  · exact Int.ceil_le.mpr le

theorem le_toInt (q : ℚ) (bound : ℤ) (le : (bound : ℚ) ≤ q) : bound ≤ toInt q := by
  unfold toInt
  split_ifs
  · exact Int.le_floor.mpr le
  · exact_mod_cast le.trans (Int.le_ceil q)

theorem llround_mono {low high : ℚ} (ordered : low ≤ high) : llround low ≤ llround high := by
  unfold llround
  split_ifs with lowSign highSign highSign
  · exact Int.floor_le_floor (by linarith)
  · linarith
  · have below : ⌈low - 1 / 2⌉ ≤ 0 := Int.ceil_le.mpr (by push_cast; linarith)
    have above : 0 ≤ ⌊high + 1 / 2⌋ := Int.le_floor.mpr (by push_cast; linarith)
    exact below.trans above
  · exact Int.ceil_le_ceil (by linarith)

end Adonai.Binary64
