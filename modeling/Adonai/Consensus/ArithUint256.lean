/-
The 256-bit integers of the difficulty arithmetic and their 32-bit compact form.

A value is the natural number it denotes, and an operation that can leave the range is reduced
modulo `2 ^ 256`. The compact form keeps the 23 leading bits at byte granularity, so decoding an
encoded value rounds it down.
-/

import Mathlib.Data.Nat.Bitwise
import Mathlib.Data.Nat.Log
import Mathlib.Tactic.Ring
import Mathlib.Tactic.Linarith

namespace Adonai.ArithUint256

def add (left right : Nat) : Nat := (left + right) % 2 ^ 256

def mul (left right : Nat) : Nat := (left * right) % 2 ^ 256

def shiftLeft (value shift : Nat) : Nat := (value <<< shift) % 2 ^ 256

def bits (value : Nat) : Nat := if value = 0 then 0 else Nat.log2 value + 1

/-- The rounds of `operator/=`; the last one is at shift 0. -/
def divLoop : (rounds num div quotient : Nat) → Nat
  | 0, _, _, quotient => quotient
  | shift + 1, num, div, quotient =>
    if num ≥ div then divLoop shift (num - div) (div >>> 1) (quotient ||| 1 <<< shift)
    else divLoop shift num (div >>> 1) quotient

def div (num b : Nat) : Option Nat :=
  let num_bits := bits num
  let div_bits := bits b
  if div_bits = 0 then none
  else if div_bits > num_bits then some 0
  else some (divLoop (num_bits - div_bits + 1) num (shiftLeft b (num_bits - div_bits)) 0)

/-- What `SetCompact` leaves in the target and in its two output flags. -/
structure SetCompact where
  target : Nat
  fNegative : Bool
  fOverflow : Bool
  deriving DecidableEq, Repr

def setCompact (nCompact : UInt32) : SetCompact :=
  let nSize := nCompact.toNat >>> 24
  let nMantissa := nCompact.toNat &&& 0x007fffff
  let nWord := if nSize ≤ 3 then nMantissa >>> (8 * (3 - nSize)) else nMantissa
  { target := if nSize ≤ 3 then nWord else shiftLeft nWord (8 * (nSize - 3))
    fNegative := nWord != 0 && (nCompact.toNat &&& 0x00800000) != 0
    fOverflow := nWord != 0 && (decide (nSize > 34) ||
      (decide (nWord > 0xff) && decide (nSize > 33)) ||
      (decide (nWord > 0xffff) && decide (nSize > 32))) }

def getCompact (value : Nat) (fNegative : Bool) : UInt32 :=
  let nSize := (bits value + 7) / 8
  let nCompact :=
    if nSize ≤ 3 then ((value % 2 ^ 64) <<< (8 * (3 - nSize))) % 2 ^ 32
    else ((value >>> (8 * (nSize - 3))) % 2 ^ 64) % 2 ^ 32
  -- The 0x00800000 bit denotes the sign.
  let signed := nCompact &&& 0x00800000 != 0
  let nCompact := if signed then nCompact >>> 8 else nCompact
  let nSize := if signed then nSize + 1 else nSize
  let nCompact := nCompact ||| nSize <<< 24
  UInt32.ofNat
    (nCompact ||| if fNegative && (nCompact &&& 0x007fffff) != 0 then 0x00800000 else 0)

/-- The exponent byte `GetCompact` chooses for a nonzero value. -/
def compactSize (value : Nat) : Nat := bits value / 8 + 1

def compactUnit (value : Nat) : Nat := 256 ^ (compactSize value - 3)

def compactFloor (value : Nat) : Nat := value / compactUnit value * compactUnit value

def compactNext (value : Nat) : Nat := compactFloor value + compactUnit value

theorem bits_zero : bits 0 = 0 := rfl

variable (value : Nat)

theorem bits_le_iff (value size : Nat) : bits value ≤ size ↔ value < 2 ^ size := by
  unfold bits
  split_ifs with zero
  · simp [zero]
  · exact Nat.log2_lt zero

theorem lt_two_pow_bits : value < 2 ^ bits value := (bits_le_iff value _).mp le_rfl

theorem two_pow_le_of_bits (positive : 0 < value) : 2 ^ (bits value - 1) ≤ value := by
  have nonzero : value ≠ 0 := Nat.pos_iff_ne_zero.mp positive
  unfold bits
  rw [if_neg nonzero]
  exact Nat.log2_self_le nonzero

theorem bits_pos (positive : 0 < value) : 0 < bits value := by
  unfold bits
  rw [if_neg (Nat.pos_iff_ne_zero.mp positive)]
  omega

variable {left right : Nat}

theorem bits_mono (le : left ≤ right) : bits left ≤ bits right :=
  (bits_le_iff left (bits right)).mpr (le.trans_lt (lt_two_pow_bits right))

theorem divLoop_eq {b : Nat} (rounds num high : Nat) (below : num < b * 2 ^ rounds) (div : Nat)
    (aligned : rounds ≠ 0 → div = b * 2 ^ (rounds - 1)) :
    divLoop rounds num div (2 ^ rounds * high) = 2 ^ rounds * high + num / b := by
  induction rounds generalizing num high div with
  | zero =>
    rw [Nat.pow_zero, Nat.mul_one] at below
    rw [divLoop, Nat.div_eq_of_lt below, Nat.add_zero]
  | succ shift ih =>
    obtain rfl : div = b * 2 ^ shift := aligned (Nat.succ_ne_zero shift)
    have next : shift ≠ 0 → (b * 2 ^ shift) >>> 1 = b * 2 ^ (shift - 1) := by
      intro more
      obtain ⟨less, rfl⟩ := Nat.exists_eq_succ_of_ne_zero more
      rw [Nat.shiftRight_one, Nat.succ_sub_one, Nat.pow_succ, ← Nat.mul_assoc,
        Nat.mul_div_cancel _ Nat.two_pos]
    rw [Nat.pow_succ, ← Nat.mul_assoc] at below
    rw [divLoop]
    split
    case isTrue reaches =>
      have sets : 2 ^ (shift + 1) * high ||| 1 <<< shift = 2 ^ shift * (2 * high + 1) := by
        rw [Nat.one_shiftLeft, ← Nat.two_pow_add_eq_or_of_lt (Nat.pow_lt_pow_succ Nat.one_lt_two)]
        ring
      have quotient : (num - b * 2 ^ shift) / b + 2 ^ shift = num / b := by
        rw [Nat.sub_mul_div, Nat.sub_add_cancel]
        rw [Nat.le_div_iff_mul_le (Nat.pos_of_mul_pos_right (by omega : 0 < b * 2 ^ shift)),
          Nat.mul_comm]
        exact reaches
      rw [sets, ih _ _ (by omega) _ next, ← quotient]
      ring
    case isFalse short =>
      have keeps : 2 ^ (shift + 1) * high = 2 ^ shift * (2 * high) := by ring
      rw [keeps, ih _ _ (by omega) _ next]

theorem div_eq {num b : Nat} (small : num < 2 ^ 256) (positive : 0 < b) :
    div num b = some (num / b) := by
  have some_bit : bits b ≠ 0 := (bits_pos b positive).ne'
  unfold div
  rw [if_neg some_bit]
  split
  case isTrue longer =>
    have less : num < b := by
      by_contra reaches
      exact absurd (bits_mono (Nat.le_of_not_lt reaches)) (Nat.not_le.mpr longer)
    rw [Nat.div_eq_of_lt less]
  case isFalse within =>
    have shifted : shiftLeft b (bits num - bits b) = b * 2 ^ (bits num - bits b) := by
      have inside : b * 2 ^ (bits num - bits b) < 2 ^ bits num := by
        calc b * 2 ^ (bits num - bits b) < 2 ^ bits b * 2 ^ (bits num - bits b) :=
              Nat.mul_lt_mul_of_pos_right (lt_two_pow_bits b) (Nat.two_pow_pos _)
          _ = 2 ^ bits num := by rw [← Nat.pow_add, Nat.add_sub_cancel' (Nat.le_of_not_lt within)]
      rw [shiftLeft, Nat.shiftLeft_eq, Nat.mod_eq_of_lt]
      exact inside.trans_le (Nat.pow_le_pow_right Nat.two_pos ((bits_le_iff num 256).mpr small))
    have below : num < b * 2 ^ (bits num - bits b + 1) := by
      calc num < 2 ^ bits num := lt_two_pow_bits num
        _ = 2 ^ (bits b - 1) * 2 ^ (bits num - bits b + 1) := by
            rw [← Nat.pow_add]
            congr 1
            omega
        _ ≤ b * 2 ^ (bits num - bits b + 1) :=
            Nat.mul_le_mul_right _ (two_pow_le_of_bits b positive)
    have loop := divLoop_eq _ num 0 below _ fun _ => shifted
    rw [Nat.mul_zero, Nat.zero_add] at loop
    rw [loop]

theorem compactUnit_pos : 0 < compactUnit value := Nat.pow_pos (by decide)

theorem compactUnit_mono (le : left ≤ right) : compactUnit left ≤ compactUnit right := by
  apply Nat.pow_le_pow_right (by decide)
  have := Nat.div_le_div_right (c := 8) (bits_mono le)
  unfold compactSize
  omega

theorem compactFloor_le : compactFloor value ≤ value :=
  Nat.div_mul_le_self value (compactUnit value)

theorem lt_compactNext : value < compactNext value := by
  unfold compactNext compactFloor
  have := Nat.div_add_mod' value (compactUnit value)
  have := Nat.mod_lt value (compactUnit_pos value)
  omega

theorem lt_of_compactSize_le {value size : Nat} (le : compactSize value ≤ size) :
    value < 2 ^ (8 * size - 1) := by
  apply (bits_le_iff value (8 * size - 1)).mp
  unfold compactSize at le
  omega

theorem le_of_lt_compactSize {value size : Nat} (positive : 0 < value)
    (lt : size < compactSize value) : 2 ^ (8 * size - 1) ≤ value := by
  apply le_trans _ (two_pow_le_of_bits value positive)
  apply Nat.pow_le_pow_right (by decide)
  unfold compactSize at lt
  omega

private theorem byte_pow (exponent : Nat) : (256 : Nat) ^ exponent = 2 ^ (8 * exponent) := by
  rw [pow_mul]
  rfl

theorem compactUnit_eq : compactUnit value = 2 ^ (8 * (compactSize value - 3)) := byte_pow _

theorem two_pow_le_compactFloor {value exponent : Nat}
    (covered : 8 * (compactSize value - 3) ≤ exponent) (le : 2 ^ exponent ≤ value) :
    2 ^ exponent ≤ compactFloor value := by
  rcases Nat.pow_dvd_pow 2 covered with ⟨quotient, hQuotient⟩
  unfold compactFloor
  rw [compactUnit_eq, hQuotient, Nat.mul_comm]
  apply Nat.mul_le_mul_right
  rw [Nat.le_div_iff_mul_le (Nat.pow_pos (by decide)), Nat.mul_comm, ← hQuotient]
  exact le

theorem compactFloor_le_iff (value bound : Nat) :
    compactFloor value ≤ bound ↔ value < compactNext bound := by
  rcases Nat.lt_or_ge bound value with above | below
  swap
  · exact ⟨fun _ => below.trans_lt (lt_compactNext bound),
      fun _ => (compactFloor_le value).trans below⟩
  have valuePos : 0 < value := by omega
  by_cases sameSize : compactSize value ≤ compactSize bound
  · -- Both values share one unit, so rounding compares the quotients.
    have sameUnit : compactUnit value = compactUnit bound := by
      apply le_antisymm _ (compactUnit_mono above.le)
      apply Nat.pow_le_pow_right (by decide)
      omega
    unfold compactNext compactFloor
    rw [sameUnit, ← Nat.succ_mul, ← Nat.div_lt_iff_lt_mul (compactUnit_pos bound),
      Nat.lt_succ_iff, ← Nat.le_div_iff_mul_le (compactUnit_pos bound)]
  · -- The sizes differ, so a byte boundary lies between the two values.
    have sizeLt : compactSize bound < compactSize value := by omega
    have boundary : 2 ^ (8 * compactSize bound - 1) ≤ value := le_of_lt_compactSize valuePos sizeLt
    have boundBelow : bound < 2 ^ (8 * compactSize bound - 1) := lt_of_compactSize_le le_rfl
    have nextBelow : compactNext bound ≤ 2 ^ (8 * compactSize bound - 1) := by
      rcases Nat.pow_dvd_pow 2
          (show 8 * (compactSize bound - 3) ≤ 8 * compactSize bound - 1 by omega) with
        ⟨quotient, hQuotient⟩
      unfold compactNext compactFloor
      rw [hQuotient, compactUnit_eq, ← Nat.succ_mul, Nat.mul_comm]
      apply Nat.mul_le_mul_left
      rw [Nat.succ_le_iff, Nat.div_lt_iff_lt_mul (Nat.pow_pos (by decide)), Nat.mul_comm,
        ← hQuotient]
      exact boundBelow
    have floorAbove : bound < compactFloor value := by
      have top : 2 ^ (8 * (compactSize value - 1) - 1) ≤ value :=
        le_of_lt_compactSize valuePos (by omega)
      apply lt_of_lt_of_le boundBelow
      apply le_trans (Nat.pow_le_pow_right (by decide) _)
        (two_pow_le_compactFloor (by omega) top)
      omega
    constructor
    · intro le
      omega
    · intro lt
      omega

theorem compactSize_compactFloor : compactSize (compactFloor value) = compactSize value := by
  rcases Nat.eq_zero_or_pos value with rfl | positive
  · rfl
  apply le_antisymm
  · have := Nat.div_le_div_right (c := 8) (bits_mono (compactFloor_le value))
    unfold compactSize
    omega
  · by_contra smaller
    have belowTop := lt_of_compactSize_le
      (show compactSize (compactFloor value) ≤ compactSize value - 1 by omega)
    have top : 2 ^ (8 * (compactSize value - 1) - 1) ≤ value :=
      le_of_lt_compactSize positive (by omega)
    have := two_pow_le_compactFloor (by omega) top
    omega

theorem compactFloor_idem : compactFloor (compactFloor value) = compactFloor value := by
  have sameUnit : compactUnit (compactFloor value) = compactUnit value := by
    unfold compactUnit
    rw [compactSize_compactFloor]
  calc compactFloor (compactFloor value)
      = compactFloor value / compactUnit value * compactUnit value := by
        rw [← sameUnit]
        rfl
    _ = compactFloor value := by
        unfold compactFloor
        rw [Nat.mul_div_cancel _ (compactUnit_pos value)]

theorem compactNext_compactFloor : compactNext (compactFloor value) = compactNext value := by
  unfold compactNext
  rw [compactFloor_idem]
  unfold compactUnit
  rw [compactSize_compactFloor]

theorem compactFloor_mono (le : left ≤ right) : compactFloor left ≤ compactFloor right := by
  rw [compactFloor_le_iff, compactNext_compactFloor]
  exact le.trans_lt (lt_compactNext right)

private theorem and_sign_ne_zero (mantissa : Nat) (small : mantissa < 2 ^ 24) :
    (mantissa &&& 0x00800000 != 0) = decide (2 ^ 23 ≤ mantissa) := by
  have top : mantissa.testBit 23 = decide (2 ^ 23 ≤ mantissa) := by
    rw [Nat.testBit_eq_decide_div_mod_eq, decide_eq_decide]
    omega
  change (mantissa &&& 2 ^ 23 != 0) = _
  rw [Nat.and_two_pow, ← top]
  cases mantissa.testBit 23 <;> rfl

def leadingBytes (value size : Nat) : Nat :=
  if size ≤ 3 then value * 256 ^ (3 - size) else value / 256 ^ (size - 3)

def compactMantissa (value : Nat) : Nat := leadingBytes value (compactSize value)

theorem leadingBytes_lt (value size slack : Nat) (short : slack ≤ 8 * size)
    (few : slack ≤ 24) (below : value < 2 ^ (8 * size - slack)) :
    leadingBytes value size < 2 ^ (24 - slack) := by
  unfold leadingBytes
  split_ifs with atMost
  · rw [byte_pow]
    calc value * 2 ^ (8 * (3 - size))
        < 2 ^ (8 * size - slack) * 2 ^ (8 * (3 - size)) :=
          Nat.mul_lt_mul_of_pos_right below (Nat.pow_pos (by decide))
      _ = 2 ^ (24 - slack) := by
          rw [← pow_add]
          congr 1
          omega
  · rw [byte_pow, Nat.div_lt_iff_lt_mul (Nat.pow_pos (by decide)), ← pow_add]
    apply below.trans_le
    apply Nat.pow_le_pow_right (by decide)
    omega

theorem leadingBytes_shiftRight (value size : Nat) :
    leadingBytes value size >>> 8 = leadingBytes value (size + 1) := by
  unfold leadingBytes
  rw [Nat.shiftRight_eq_div_pow]
  rcases Nat.lt_trichotomy size 3 with less | rfl | more
  · rw [if_pos less.le, if_pos (by omega : size + 1 ≤ 3),
      show 3 - size = (3 - (size + 1)) + 1 by omega, pow_succ, ← Nat.mul_assoc]
    exact Nat.mul_div_cancel _ (by decide)
  · simp
  · rw [if_neg (by omega), if_neg (by omega), Nat.div_div_eq_div_mul,
      show size + 1 - 3 = (size - 3) + 1 by omega, pow_succ 256 (size - 3)]

/-- The leading bytes reach the sign bit exactly when the bit length is a whole
number of bytes. -/
theorem sign_le_leadingBytes_iff (value size : Nat) (positive : 0 < value)
    (hSize : (bits value + 7) / 8 = size) :
    2 ^ 23 ≤ leadingBytes value size ↔ bits value = 8 * size := by
  have bitsPos := bits_pos value positive
  have reach : bits value = 8 * size ↔ 2 ^ (8 * size - 1) ≤ value := by
    rw [← not_lt, ← bits_le_iff]
    omega
  rw [reach]
  unfold leadingBytes
  split_ifs with short
  · rw [byte_pow, show 23 = (8 * size - 1) + 8 * (3 - size) by omega, pow_add]
    exact Nat.mul_le_mul_right_iff (Nat.pow_pos (by decide))
  · rw [byte_pow, Nat.le_div_iff_mul_le (Nat.pow_pos (by decide)), ← pow_add,
      show 23 + 8 * (size - 3) = 8 * size - 1 by omega]

theorem words_eq_leadingBytes (value size : Nat) (below : value < 2 ^ (8 * size)) :
    (if size ≤ 3 then ((value % 2 ^ 64) <<< (8 * (3 - size))) % 2 ^ 32
      else ((value >>> (8 * (size - 3))) % 2 ^ 64) % 2 ^ 32) = leadingBytes value size := by
  have small := leadingBytes_lt value size 0 (by omega) (by omega) below
  unfold leadingBytes at small ⊢
  split_ifs at small ⊢ with short
  · rw [byte_pow] at small ⊢
    have valueLt : value < 2 ^ 64 := below.trans_le (Nat.pow_le_pow_right (by decide) (by omega))
    rw [Nat.mod_eq_of_lt valueLt, Nat.shiftLeft_eq, Nat.mod_eq_of_lt (small.trans (by norm_num))]
  · rw [byte_pow] at small ⊢
    rw [Nat.shiftRight_eq_div_pow, Nat.mod_eq_of_lt (small.trans (by norm_num)),
      Nat.mod_eq_of_lt (small.trans (by norm_num))]

theorem compactMantissa_lt : compactMantissa value < 2 ^ 23 := by
  have sizePos : 1 ≤ compactSize value := by
    unfold compactSize
    omega
  exact leadingBytes_lt value (compactSize value) 1 (by omega) (by omega)
    (lt_of_compactSize_le le_rfl)

theorem compactSize_le (small : value < 2 ^ 256) : compactSize value ≤ 33 := by
  have := (bits_le_iff value 256).mpr small
  unfold compactSize
  omega

private theorem assemble_toNat (mantissa exponent : Nat) (mantissaLt : mantissa < 2 ^ 23)
    (exponentLe : exponent ≤ 33) :
    (UInt32.ofNat (mantissa ||| exponent <<< 24)).toNat = exponent * 2 ^ 24 + mantissa := by
  rw [Nat.or_comm, ← Nat.shiftLeft_add_eq_or_of_lt (mantissaLt.trans (by norm_num)),
    Nat.shiftLeft_eq]
  apply UInt32.toNat_ofNat_of_lt'
  change _ < 2 ^ 32
  omega

theorem getCompact_toNat (positive : 0 < value) (small : value < 2 ^ 256) :
    (getCompact value false).toNat = compactSize value * 2 ^ 24 + compactMantissa value := by
  unfold getCompact
  generalize hSize : (bits value + 7) / 8 = size
  have below : value < 2 ^ (8 * size) := (bits_le_iff value (8 * size)).mp (by omega)
  have leadingLt := leadingBytes_lt value size 0 (by omega) (by omega) below
  have signedIff := sign_le_leadingBytes_iff value size positive hSize
  simp only [Bool.false_and, Bool.false_eq_true, if_false, Nat.or_zero]
  rw [words_eq_leadingBytes value size below, and_sign_ne_zero _ leadingLt]
  by_cases whole : bits value = 8 * size
  · have sizeEq : size + 1 = compactSize value := by
      unfold compactSize
      omega
    rw [decide_eq_true (signedIff.mpr whole)]
    rw [leadingBytes_shiftRight, sizeEq]
    exact assemble_toNat _ _ (compactMantissa_lt value) (compactSize_le value small)
  · have sizeEq : size = compactSize value := by
      unfold compactSize
      omega
    rw [decide_eq_false (fun reached => whole (signedIff.mp reached))]
    rw [sizeEq]
    exact assemble_toNat _ _ (compactMantissa_lt value) (compactSize_le value small)

theorem setCompact_getCompact (small : value < 2 ^ 256) :
    setCompact (getCompact value false) =
      { target := compactFloor value, fNegative := false, fOverflow := false } := by
  rcases Nat.eq_zero_or_pos value with rfl | positive
  · decide
  have encoded := getCompact_toNat value positive small
  have sizeLe := compactSize_le value small
  have mantissaLt := compactMantissa_lt value
  have sizeEq : (getCompact value false).toNat >>> 24 = compactSize value := by
    omega
  have wordEq : (getCompact value false).toNat &&& 0x007fffff = compactMantissa value := by
    rw [show (0x007fffff : Nat) = 2 ^ 23 - 1 by norm_num, Nat.and_two_pow_sub_one_eq_mod]
    omega
  have signEq : ((getCompact value false).toNat &&& 0x00800000 != 0) = false := by
    change (_ &&& 2 ^ 23 != 0) = false
    rw [encoded, Nat.and_two_pow, Nat.testBit_eq_decide_div_mod_eq]
    have clear : (compactSize value * 2 ^ 24 + compactMantissa value) / 2 ^ 23 % 2 = 0 := by
      omega
    rw [clear]
    rfl
  unfold setCompact
  simp only [sizeEq, wordEq, signEq, Bool.and_false]
  have notLonger : ¬ compactSize value > 34 := by omega
  have notLong : ¬ compactSize value > 33 := by omega
  by_cases short : compactSize value ≤ 3
  · have decoded : compactMantissa value >>> (8 * (3 - compactSize value)) = value := by
      unfold compactMantissa leadingBytes
      rw [if_pos short, byte_pow, Nat.shiftRight_eq_div_pow]
      exact Nat.mul_div_cancel _ (Nat.pow_pos (by decide))
    have floorEq : compactFloor value = value := by
      unfold compactFloor compactUnit
      rw [show compactSize value - 3 = 0 by omega]
      simp
    simp only [if_pos short, floorEq]
    congr 1
    simp [notLonger, notLong, show ¬ compactSize value > 32 by omega]
  · have mantissaEq : compactMantissa value = value / compactUnit value := by
      unfold compactMantissa leadingBytes
      rw [if_neg short]
      rfl
    have decoded : shiftLeft (compactMantissa value) (8 * (compactSize value - 3)) =
        compactFloor value := by
      unfold shiftLeft
      rw [Nat.shiftLeft_eq, ← compactUnit_eq, mantissaEq]
      exact Nat.mod_eq_of_lt ((compactFloor_le value).trans_lt small)
    simp only [if_neg short]
    congr 1
    -- Only a 33-byte size can overflow, and its mantissa has at most two bytes.
    have noOverflow : ¬ (compactMantissa value > 0xffff ∧ compactSize value > 32) := by
      rintro ⟨wide, long⟩
      have longEq : compactSize value = 33 := by omega
      rw [mantissaEq, compactUnit_eq, longEq] at wide
      omega
    have wideOff : (decide (compactMantissa value > 0xffff) &&
        decide (compactSize value > 32)) = false := by
      rw [← Bool.decide_and]
      exact decide_eq_false noOverflow
    rw [wideOff]
    simp [notLonger, notLong]

variable (nCompact : UInt32)

private theorem mantissa_lt : nCompact.toNat &&& 0x007fffff < 2 ^ 23 := by
  rw [show (0x007fffff : Nat) = 2 ^ 23 - 1 by norm_num, Nat.and_two_pow_sub_one_eq_mod]
  exact Nat.mod_lt _ (by decide)

theorem exists_size_setCompact :
    ∃ size, 3 ≤ size ∧ 256 ^ (size - 3) ∣ (setCompact nCompact).target ∧
      (setCompact nCompact).target < 2 ^ (8 * size - 1) := by
  have mantissaLt := mantissa_lt nCompact
  unfold setCompact
  dsimp only
  set nSize := nCompact.toNat >>> 24
  set nMantissa := nCompact.toNat &&& 0x007fffff
  split_ifs with short
  · refine ⟨3, le_rfl, one_dvd _, ?_⟩
    rw [Nat.shiftRight_eq_div_pow]
    exact (Nat.div_le_self _ _).trans_lt mantissaLt
  rw [shiftLeft, Nat.shiftLeft_eq]
  refine ⟨nSize, by omega, ?_, ?_⟩
  · rw [byte_pow]
    rcases Nat.lt_or_ge (8 * (nSize - 3)) 256 with inside | outside
    · exact (Nat.dvd_mod_iff (Nat.pow_dvd_pow 2 inside.le)).mpr (Nat.dvd_mul_left _ _)
    · have whole : 2 ^ 256 ∣ nMantissa * 2 ^ (8 * (nSize - 3)) :=
        (Nat.pow_dvd_pow 2 outside).mul_left nMantissa
      rw [Nat.mod_eq_zero_of_dvd whole]
      exact dvd_zero _
  · calc
      nMantissa * 2 ^ (8 * (nSize - 3)) % 2 ^ 256 ≤ nMantissa * 2 ^ (8 * (nSize - 3)) :=
        Nat.mod_le _ _
      _ < 2 ^ 23 * 2 ^ (8 * (nSize - 3)) :=
        Nat.mul_lt_mul_of_pos_right mantissaLt (Nat.pow_pos (by decide))
      _ = 2 ^ (8 * nSize - 1) := by
        rw [← Nat.pow_add]
        congr 1
        omega

/-- Decoded targets are fixed by rounding, whatever the flags say. -/
theorem compactFloor_setCompact :
    compactFloor (setCompact nCompact).target = (setCompact nCompact).target := by
  obtain ⟨size, _, divides, bound⟩ := exists_size_setCompact nCompact
  have sizeLe : compactSize (setCompact nCompact).target ≤ size := by
    have few := (bits_le_iff _ _).mpr bound
    unfold compactSize
    omega
  apply Nat.div_mul_cancel
  apply dvd_trans _ divides
  exact Nat.pow_dvd_pow 256 (Nat.sub_le_sub_right sizeLe 3)

theorem setCompact_lt : (setCompact nCompact).target < 2 ^ 256 := by
  unfold setCompact
  dsimp only
  split_ifs with short
  · rw [Nat.shiftRight_eq_div_pow]
    have narrow : 2 ^ 23 < 2 ^ 256 := by decide
    exact (Nat.div_le_self _ _).trans_lt ((mantissa_lt nCompact).trans narrow)
  · exact Nat.mod_lt _ (by decide)

theorem compactFloor_pos (positive : 0 < value) : 0 < compactFloor value := by
  by_contra zero
  have := (compactFloor_le_iff value 0).mp (by omega)
  unfold compactNext at this
  simp [compactFloor, compactUnit, compactSize, bits_zero] at this
  omega

theorem getCompact_compactFloor (small : value < 2 ^ 256) :
    getCompact (compactFloor value) false = getCompact value false := by
  rcases Nat.eq_zero_or_pos value with rfl | positive
  · rfl
  have mantissaEq : compactMantissa (compactFloor value) = compactMantissa value := by
    unfold compactMantissa leadingBytes
    rw [compactSize_compactFloor]
    have unitEq : compactUnit value = 256 ^ (compactSize value - 3) := rfl
    split_ifs with short
    · rw [show compactSize value - 3 = 0 by omega, pow_zero] at unitEq
      unfold compactFloor
      rw [unitEq, Nat.div_one, Nat.mul_one]
    · exact Nat.mul_div_cancel _ (compactUnit_pos value)
  apply UInt32.toNat_inj.mp
  rw [getCompact_toNat value positive small,
    getCompact_toNat _ (compactFloor_pos value positive) ((compactFloor_le value).trans_lt small),
    compactSize_compactFloor, mantissaEq]

theorem getCompact_eq_iff (left right : Nat) (leftSmall : left < 2 ^ 256)
    (rightSmall : right < 2 ^ 256) :
    getCompact left false = getCompact right false ↔ compactFloor left = compactFloor right := by
  constructor
  · intro same
    have decoded := congrArg setCompact same
    rw [setCompact_getCompact left leftSmall, setCompact_getCompact right rightSmall] at decoded
    exact congrArg SetCompact.target decoded
  · intro same
    rw [← getCompact_compactFloor left leftSmall, same, getCompact_compactFloor right rightSmall]

end Adonai.ArithUint256
