/-
Fractions of fee and size: exact products and quotients in words of 64 and 32 bits.

A compiler with a type of 128 bits (`wide`) forms the product in it; the fallback keeps a high
word and the low 32 bits. A signed sum or product beyond 64 bits has no value here, while a left
shift and a conversion wrap.
-/

import Adonai.Policy.Fees
import Adonai.Pow.Window
import Mathlib.Data.Int.ConditionallyCompleteOrder
import Mathlib.Data.Prod.Lex
import Mathlib.Tactic.LinearCombination

namespace Adonai.Mining

structure FeeFrac where
  fee : Int
  size : Int
  deriving DecidableEq, Repr

namespace FeeFrac

open Policy (checked64)
open Adonai.Pow (wrap64 wrap64_eq)

def mulFallback (a b : Int) : Option (Int × Nat) := do
  let low ← checked64 (a % 2 ^ 32 * b)
  let high ← checked64 (a / 2 ^ 32 * b)
  let sum ← checked64 (high + low / 2 ^ 32)
  pure (sum, (low % 2 ^ 32).toNat)

/-- What both divisions add to a quotient that was rounded towards zero. -/
def correction (mod : Int) (round_down : Bool) : Int :=
  (if mod > 0 then 1 else 0) - (if mod ≠ 0 ∧ round_down then 1 else 0)

def divFallback (n : Int × Nat) (d : Int) (round_down : Bool) : Option Int := do
  let quot_high := n.1.tdiv d
  let n_low ← checked64 (wrap64 (n.1.tmod d * 2 ^ 32) + n.2)
  let quot_low ← checked64 (n_low.tdiv d + correction (n_low.tmod d) round_down)
  checked64 (wrap64 (quot_high * 2 ^ 32) + quot_low)

/-- `Div` on 128 bits. -/
def div (n d : Int) (round_down : Bool) : Option Int :=
  checked64 (wrap64 (n.tdiv d) + correction (n.tmod d) round_down)

def evaluateFee (wide round_down : Bool) (f : FeeFrac) (at_size : Int) : Option Int :=
  if 0 ≤ f.fee ∧ f.fee < 0x200000000 then
    if round_down then some (wrap64 (f.fee * at_size % 2 ^ 64 / f.size))
    else some (wrap64 ((f.fee * at_size + f.size - 1) % 2 ^ 64 / f.size))
  else if wide then div (f.fee * at_size) f.size round_down
  else do
    let product ← mulFallback f.fee at_size
    divFallback product f.size round_down

/-- The products of fee and size crosswise; pairs of words are compared in order. -/
def crossCompare (wide : Bool) (a b : FeeFrac) : Option Ordering :=
  if wide then some (compare (a.fee * b.size) (b.fee * a.size))
  else do
    let cross_a ← mulFallback a.fee b.size
    let cross_b ← mulFallback b.fee a.size
    pure ((compare cross_a.1 cross_b.1).then (compare cross_a.2 cross_b.2))

/-- `operator<=>`: by feerate, then by decreasing size. -/
def spaceship (wide : Bool) (a b : FeeFrac) : Option Ordering :=
  (crossCompare wide a b).map fun cross => cross.then (compare b.size a.size)

def rounded (round_down : Bool) (n d : Int) : Int :=
  if round_down then ⌊(n : ℚ) / d⌋ else ⌈(n : ℚ) / d⌉

def FitsInt64 (value : Int) : Prop := -2 ^ 63 ≤ value ∧ value < 2 ^ 63

def FitsInt32 (value : Int) : Prop := -2 ^ 31 ≤ value ∧ value < 2 ^ 31

theorem checked64_eq {value : Int} (fits : FitsInt64 value) : checked64 value = some value :=
  if_pos (@decide_eq_true (-2 ^ 63 ≤ value ∧ value < 2 ^ 63) _ fits)

theorem mulFallback_eq {a b : Int} (isA : FitsInt64 a) (isB : FitsInt32 b) :
    mulFallback a b = some (a * b / 2 ^ 32, (a * b % 2 ^ 32).toNat) := by
  obtain ⟨aLow, aHigh⟩ := isA
  obtain ⟨bLow, bHigh⟩ := isB
  have split : a * b = a % 2 ^ 32 * b + 2 ^ 32 * (a / 2 ^ 32 * b) := by
    rw [← mul_assoc, ← add_mul, Int.emod_add_mul_ediv]
  have word : 0 ≤ a % 2 ^ 32 ∧ a % 2 ^ 32 ≤ 2 ^ 32 - 1 := by omega
  have top : -2 ^ 31 ≤ a / 2 ^ 32 ∧ a / 2 ^ 32 ≤ 2 ^ 31 - 1 := by omega
  have low : -2 ^ 63 ≤ a % 2 ^ 32 * b ∧ a % 2 ^ 32 * b < 2 ^ 63 := by
    constructor <;> nlinarith
  have high : -2 ^ 62 ≤ a / 2 ^ 32 * b ∧ a / 2 ^ 32 * b ≤ 2 ^ 62 := by
    constructor <;> nlinarith
  rw [split, Int.add_mul_ediv_left _ _ (by norm_num), Int.add_mul_emod_self_left, add_comm]
  unfold mulFallback
  rw [checked64_eq low]
  change (checked64 (a / 2 ^ 32 * b)).bind _ = _
  rw [checked64_eq ⟨by omega, by omega⟩]
  change (checked64 (a / 2 ^ 32 * b + a % 2 ^ 32 * b / 2 ^ 32)).bind _ = _
  rw [checked64_eq ⟨by omega, by omega⟩]
  rfl

section Quotients

variable {n d : Int} (positive : 0 < d) (round_down : Bool)

include positive

theorem rounded_eq_iff {z : Int} : rounded round_down n d = z ↔
    if round_down then z * d ≤ n ∧ n < (z + 1) * d else (z - 1) * d < n ∧ n ≤ z * d := by
  have dPositive : (0 : ℚ) < d := Int.cast_pos.mpr positive
  unfold rounded
  split
  · rw [Int.floor_eq_iff, le_div_iff₀ dPositive, div_lt_iff₀ dPositive]
    norm_cast
  · rw [Int.ceil_eq_iff, lt_div_iff₀ dPositive, div_le_iff₀ dPositive]
    norm_cast

/-- Truncated division with its correction rounds the right way. -/
theorem tdiv_add_correction :
    n.tdiv d + correction (n.tmod d) round_down = rounded round_down n d := by
  have whole := Int.mul_tdiv_add_tmod n d
  have above := Int.tmod_lt_of_pos n positive
  have below := Int.lt_tmod_of_pos n positive
  refine ((rounded_eq_iff positive round_down).mpr ?_).symm
  cases round_down with
  | true =>
    have down : correction (n.tmod d) true = if n.tmod d < 0 then -1 else 0 := by
      simp only [correction, and_true]
      split_ifs <;> omega
    rw [down, if_pos rfl]
    constructor <;> split_ifs <;> nlinarith
  | false =>
    simp only [correction, Bool.false_eq_true, and_false, if_false]
    constructor <;> split_ifs <;> nlinarith

private theorem tdiv_tmod_nonpos (nonpos : n ≤ 0) : n.tdiv d ≤ 0 ∧ n.tmod d ≤ 0 := by
  have quotient := Int.tdiv_nonneg (neg_nonneg.mpr nonpos) positive.le
  have mod := Int.tmod_nonneg d (neg_nonneg.mpr nonpos)
  rw [Int.neg_tdiv] at quotient
  rw [Int.neg_tmod] at mod
  constructor <;> omega

theorem rounded_add (k : Int) : rounded round_down (k * d + n) d = k + rounded round_down n d := by
  have spec := (rounded_eq_iff positive round_down).mp (Eq.refl (rounded round_down n d))
  rw [rounded_eq_iff positive]
  split at spec
  next isDown =>
    rw [if_pos isDown]
    constructor <;> nlinarith
  next isUp =>
    rw [if_neg isUp]
    constructor <;> nlinarith

private theorem rounded_le {k : Int} (less : n ≤ k * d) : rounded round_down n d ≤ k := by
  have spec := (rounded_eq_iff positive round_down).mp (Eq.refl (rounded round_down n d))
  split at spec <;> nlinarith

private theorem le_rounded {k : Int} (less : k * d ≤ n) : k ≤ rounded round_down n d := by
  have spec := (rounded_eq_iff positive round_down).mp (Eq.refl (rounded round_down n d))
  split at spec <;> nlinarith

theorem rounded_down : rounded true n d = n / d := by
  rw [rounded_eq_iff positive, if_pos rfl]
  exact ⟨Int.ediv_mul_le n positive.ne', Int.lt_ediv_add_one_mul_self n positive⟩

theorem rounded_up : rounded false n d = (n + d - 1) / d := by
  have low := Int.ediv_mul_le (n + d - 1) positive.ne'
  have high := Int.lt_ediv_add_one_mul_self (n + d - 1) positive
  rw [rounded_eq_iff positive, if_neg Bool.false_ne_true]
  constructor <;> nlinarith

theorem div_eq (fits : FitsInt64 (rounded round_down n d)) :
    div n d round_down = some (rounded round_down n d) := by
  have same := tdiv_add_correction (n := n) positive round_down
  obtain ⟨low, high⟩ := fits
  have inside : FitsInt64 (n.tdiv d) := by
    rcases le_total 0 n with nonneg | nonpos
    · have quotient := Int.tdiv_nonneg nonneg positive.le
      have more : 0 ≤ correction (n.tmod d) round_down := by
        have mod := Int.tmod_nonneg d nonneg
        unfold correction
        split_ifs <;> omega
      constructor <;> omega
    · obtain ⟨quotient, mod⟩ := tdiv_tmod_nonpos positive nonpos
      have less : correction (n.tmod d) round_down ≤ 0 := by
        unfold correction
        split_ifs <;> omega
      constructor <;> omega
  rw [div, wrap64_eq _ inside.1 inside.2, same, checked64_eq ⟨low, high⟩]

/-- Both parts of `DivFallback` stay inside their words when the exact result fits. -/
theorem divFallback_eq {high : Int} {low : Nat} (isLow : low < 2 ^ 32) (small : d < 2 ^ 31)
    (fits : FitsInt64 (rounded round_down (high * 2 ^ 32 + low) d)) :
    divFallback (high, low) d round_down = some (rounded round_down (high * 2 ^ 32 + low) d) := by
  have whole := Int.mul_tdiv_add_tmod high d
  have above := Int.tmod_lt_of_pos high positive
  have below := Int.lt_tmod_of_pos high positive
  have split : high * 2 ^ 32 + low = high.tdiv d * 2 ^ 32 * d + (high.tmod d * 2 ^ 32 + low) := by
    linear_combination (-2 ^ 32) * whole
  rw [split, rounded_add positive] at fits ⊢
  obtain ⟨resultLow, resultHigh⟩ := fits
  have same := tdiv_add_correction (n := high.tmod d * 2 ^ 32 + low) positive round_down
  have most : rounded round_down (high.tmod d * 2 ^ 32 + low) d ≤ 2 ^ 32 :=
    rounded_le positive _ (by omega)
  have least : -2 ^ 32 ≤ rounded round_down (high.tmod d * 2 ^ 32 + low) d :=
    le_rounded positive _ (by omega)
  -- the remainder has the sign of the dividend, so the high part is never past the result
  have inside : FitsInt64 (high.tdiv d * 2 ^ 32) := by
    rcases le_total 0 high with nonneg | nonpos
    · have quotient := Int.tdiv_nonneg nonneg positive.le
      have mod := Int.tmod_nonneg d nonneg
      have rest : 0 ≤ rounded round_down (high.tmod d * 2 ^ 32 + low) d :=
        le_rounded positive _ (by omega)
      constructor <;> omega
    · obtain ⟨quotient, mod⟩ := tdiv_tmod_nonpos positive nonpos
      have rest : rounded round_down (high.tmod d * 2 ^ 32 + low) d ≤ 2 ^ 32 - 1 :=
        rounded_le positive _ (by omega)
      constructor <;> omega
  rw [divFallback]
  dsimp only
  rw [wrap64_eq _ (by omega) (by omega), checked64_eq ⟨by omega, by omega⟩]
  change (checked64 _).bind _ = _
  rw [same, checked64_eq ⟨by omega, by omega⟩]
  change checked64 _ = _
  rw [wrap64_eq _ inside.1 inside.2, checked64_eq ⟨resultLow, resultHigh⟩]

end Quotients

theorem evaluateFee_eq {f : FeeFrac} {at_size : Int} (isFee : FitsInt64 f.fee)
    (positive : 0 < f.size) (small : f.size < 2 ^ 31) (nonneg : 0 ≤ at_size)
    (atSmall : at_size < 2 ^ 31) (wide round_down : Bool)
    (fits : FitsInt64 (rounded round_down (f.fee * at_size) f.size)) :
    evaluateFee wide round_down f at_size = some (rounded round_down (f.fee * at_size) f.size) := by
  unfold evaluateFee
  split
  next likely =>
    have low : 0 ≤ f.fee * at_size := mul_nonneg likely.1 nonneg
    have high : f.fee * at_size ≤ (2 ^ 33 - 1) * (2 ^ 31 - 1) :=
      mul_le_mul (by omega) (by omega) nonneg (by norm_num)
    cases round_down with
    | true =>
      rw [rounded_down positive] at fits ⊢
      rw [if_pos rfl, Int.emod_eq_of_lt low (by omega), wrap64_eq _ fits.1 fits.2]
    | false =>
      rw [rounded_up positive] at fits ⊢
      rw [if_neg Bool.false_ne_true, Int.emod_eq_of_lt (by omega) (by omega),
        wrap64_eq _ fits.1 fits.2]
  next =>
    cases wide with
    | true => exact div_eq positive round_down fits
    | false =>
      have whole : f.fee * at_size / 2 ^ 32 * 2 ^ 32 + ((f.fee * at_size % 2 ^ 32).toNat : Int) =
          f.fee * at_size := by omega
      rw [if_neg Bool.false_ne_true, mulFallback_eq isFee ⟨by omega, atSmall⟩]
      change divFallback _ _ _ = _
      rw [← whole] at fits
      rw [divFallback_eq positive round_down (by omega) small fits, whole]

section Order

variable {a b : FeeFrac}

structure Valid (f : FeeFrac) : Prop where
  fee : FitsInt64 f.fee
  nonneg : 0 ≤ f.size
  size : f.size < 2 ^ 31
  empty : f.size = 0 → f.fee = 0

private theorem mulFallback_compare {x y : Int} :
    (compare (x / 2 ^ 32) (y / 2 ^ 32)).then
      (compare (x % 2 ^ 32).toNat (y % 2 ^ 32).toNat) = compare x y := by
  rcases lt_trichotomy x y with less | same | more
  · rw [compare_lt_iff_lt.mpr less, Ordering.then_eq_lt, compare_lt_iff_lt, compare_eq_iff_eq,
      compare_lt_iff_lt]
    omega
  · rw [same, compare_eq_iff_eq.mpr rfl, compare_eq_iff_eq.mpr rfl, compare_eq_iff_eq.mpr rfl]
    rfl
  · rw [compare_gt_iff_gt.mpr more, Ordering.then_eq_gt, compare_gt_iff_gt, compare_eq_iff_eq,
      compare_gt_iff_gt]
    omega

theorem spaceship_eq (isA : Valid a) (isB : Valid b) (wide : Bool) : spaceship wide a b =
      some ((compare (a.fee * b.size) (b.fee * a.size)).then (compare b.size a.size)) := by
  unfold spaceship crossCompare
  cases wide with
  | true => rfl
  | false =>
    rw [mulFallback_eq isA.fee ⟨by have := isB.nonneg; omega, isB.size⟩,
      mulFallback_eq isB.fee ⟨by have := isA.nonneg; omega, isA.size⟩]
    change some ((Ordering.then (Ordering.then _ _) _)) = _
    rw [mulFallback_compare]

/-- Where a value stands: by its feerate and then its size, the empty one last. -/
def rank (f : FeeFrac) : WithTop (ℚ ×ₗ ℤ) :=
  if f.size = 0 then ⊤ else ((toLex ((f.fee : ℚ) / f.size, -f.size) : ℚ ×ₗ ℤ) : WithTop (ℚ ×ₗ ℤ))

theorem rank_of_pos (positive : 0 < a.size) :
    rank a = ((toLex ((a.fee : ℚ) / a.size, -a.size) : ℚ ×ₗ ℤ) : WithTop (ℚ ×ₗ ℤ)) :=
  if_neg positive.ne'

theorem rank_lt_iff_of_pos (aPositive : 0 < a.size) (bPositive : 0 < b.size) : rank a < rank b ↔
    a.fee * b.size < b.fee * a.size ∨ a.fee * b.size = b.fee * a.size ∧ b.size < a.size := by
  have aPos : (0 : ℚ) < a.size := Int.cast_pos.mpr aPositive
  have bPos : (0 : ℚ) < b.size := Int.cast_pos.mpr bPositive
  rw [rank_of_pos aPositive, rank_of_pos bPositive, WithTop.coe_lt_coe, Prod.Lex.toLex_lt_toLex,
    div_lt_div_iff₀ aPos bPos, div_eq_div_iff aPos.ne' bPos.ne', neg_lt_neg_iff]
  simp only [← Int.cast_mul, Int.cast_lt, Int.cast_inj]

theorem rank_lt_iff (isA : Valid a) (isB : Valid b) : rank a < rank b ↔
    a.fee * b.size < b.fee * a.size ∨ a.fee * b.size = b.fee * a.size ∧ b.size < a.size := by
  rcases isA.nonneg.eq_or_lt' with aEmpty | aPositive
  · have bNonneg := isB.nonneg
    rw [rank, if_pos aEmpty, isA.empty aEmpty, aEmpty]
    simp only [not_top_lt, zero_mul, mul_zero, lt_irrefl, true_and, false_or, false_iff]
    omega
  rcases isB.nonneg.eq_or_lt' with bEmpty | bPositive
  · rw [rank_of_pos aPositive, rank, if_pos bEmpty, isB.empty bEmpty, bEmpty]
    simp only [WithTop.coe_lt_top, zero_mul, mul_zero, lt_irrefl, true_and, false_or, true_iff]
    omega
  · exact rank_lt_iff_of_pos aPositive bPositive

theorem eq_of_rank_eq_of_pos (aPositive : 0 < a.size) (bPositive : 0 < b.size)
    (same : rank a = rank b) : a = b := by
  have notLess := (rank_lt_iff_of_pos aPositive bPositive).not.mp same.not_lt
  have notMore := (rank_lt_iff_of_pos bPositive aPositive).not.mp same.not_gt
  have sizes : a.size = b.size := by omega
  rw [← sizes] at notLess notMore
  have fees : a.fee = b.fee := Int.eq_of_mul_eq_mul_right aPositive.ne' (by omega)
  cases a
  cases b
  cases sizes
  cases fees
  rfl

theorem rank_injective (isA : Valid a) (isB : Valid b) (same : rank a = rank b) : a = b := by
  have notLess := (rank_lt_iff isA isB).not.mp same.not_lt
  have notMore := (rank_lt_iff isB isA).not.mp same.not_gt
  have sizes : a.size = b.size := by omega
  rcases isA.nonneg.eq_or_lt' with empty | positive
  · have fees : a.fee = b.fee := by rw [isA.empty empty, isB.empty (by omega)]
    cases a
    cases b
    cases sizes
    cases fees
    rfl
  · exact eq_of_rank_eq_of_pos positive (by omega) same

end Order

/-- Products in two words are ordered as the integers, quotients that fit are exact, and the
comparison is a linear order that puts a lower feerate first. -/
theorem feeFrac_exact :
    (∀ a b c d, FitsInt64 a → FitsInt32 b → FitsInt64 c → FitsInt32 d → ∃ cross_a cross_b,
      mulFallback a b = some cross_a ∧ mulFallback c d = some cross_b ∧
        (compare cross_a.1 cross_b.1).then (compare cross_a.2 cross_b.2) =
          compare (a * b) (c * d)) ∧
    (∀ (high : Int) (low : Nat) d round_down, FitsInt64 high → low < 2 ^ 32 → 0 < d → d < 2 ^ 31 →
      FitsInt64 (rounded round_down (high * 2 ^ 32 + low) d) →
        divFallback (high, low) d round_down = some (rounded round_down (high * 2 ^ 32 + low) d)) ∧
    (∀ f at_size wide round_down, FitsInt64 f.fee → 0 < f.size → f.size < 2 ^ 31 → 0 ≤ at_size →
      at_size < 2 ^ 31 → FitsInt64 (rounded round_down (f.fee * at_size) f.size) →
        evaluateFee wide round_down f at_size =
          some (rounded round_down (f.fee * at_size) f.size)) ∧
    ∃ order : LinearOrder {f // Valid f},
      (∀ wide a b, spaceship wide a.1 b.1 = some (order.compare a b)) ∧
        ∀ a b, 0 < a.1.size → 0 < b.1.size →
          (a.1.fee : ℚ) / a.1.size < b.1.fee / b.1.size → order.lt a b := by
  refine ⟨?_, ?_, ?_, ?_⟩
  · intro a b c d isA isB isC isD
    refine ⟨_, _, mulFallback_eq isA isB, mulFallback_eq isC isD, ?_⟩
    exact mulFallback_compare (x := a * b) (y := c * d)
  · intro high low d round_down _ isLow positive small fits
    exact divFallback_eq positive round_down isLow small fits
  · intro f at_size wide round_down isFee positive small nonneg atSmall fits
    exact evaluateFee_eq isFee positive small nonneg atSmall wide round_down fits
  · let order : LinearOrder {f // Valid f} := LinearOrder.lift' (fun f => rank f.1)
      fun a b same => Subtype.ext (rank_injective a.2 b.2 same)
    refine ⟨order, ?_, ?_⟩
    · intro wide a b
      rw [spaceship_eq a.2 b.2, Option.some.injEq]
      change _ = compare (rank a.1) (rank b.1)
      have less := rank_lt_iff a.2 b.2
      have more := rank_lt_iff b.2 a.2
      rcases lt_trichotomy (rank a.1) (rank b.1) with before | same | after
      · rw [compare_lt_iff_lt.mpr before, Ordering.then_eq_lt, compare_lt_iff_lt,
          compare_eq_iff_eq, compare_lt_iff_lt]
        exact less.mp before
      · rw [compare_eq_iff_eq.mpr same, rank_injective a.2 b.2 same, compare_eq_iff_eq.mpr rfl,
          compare_eq_iff_eq.mpr rfl]
        rfl
      · rw [compare_gt_iff_gt.mpr after, Ordering.then_eq_gt, compare_gt_iff_gt,
          compare_eq_iff_eq, compare_gt_iff_gt]
        exact (more.mp after).imp id fun both => ⟨both.1.symm, both.2⟩
    · intro a b aPositive bPositive lower
      rw [div_lt_div_iff₀ (Int.cast_pos.mpr aPositive) (Int.cast_pos.mpr bPositive)] at lower
      exact (rank_lt_iff a.2 b.2).mpr (.inl (by exact_mod_cast lower))

/-- A negative product against one of two words, a negative quotient rounded down, a fee beyond the
short path rounded up, and a negative fee before a positive one. -/
theorem feeFrac_exact_mixed :
    (∃ cross_a cross_b, mulFallback (-7) 3 = some cross_a ∧ mulFallback (2 ^ 40) 5 = some cross_b ∧
      (compare cross_a.1 cross_b.1).then (compare cross_a.2 cross_b.2) = .lt) ∧
    divFallback (-1, 2 ^ 32 - 7) 2 true = some (-4) ∧
    (∀ wide, evaluateFee wide false ⟨2 ^ 40, 3⟩ 2 = some 733007751851) ∧
    ∀ wide, spaceship wide ⟨-5, 3⟩ ⟨7, 2⟩ = some .lt := by
  obtain ⟨products, quotients, fees, order, computes, lower⟩ := feeFrac_exact
  have down : rounded true (-1 * 2 ^ 32 + ((2 ^ 32 - 7 : Nat) : Int)) 2 = -4 :=
    (rounded_eq_iff (by decide) true).mpr (by decide)
  have up : rounded false (2 ^ 40 * 2) 3 = 733007751851 :=
    (rounded_eq_iff (by decide) false).mpr (by decide)
  refine ⟨products (-7) 3 (2 ^ 40) 5 ⟨by decide, by decide⟩ ⟨by decide, by decide⟩
    ⟨by decide, by decide⟩ ⟨by decide, by decide⟩, ?_, ?_, ?_⟩
  · rw [quotients (-1) (2 ^ 32 - 7) 2 true ⟨by decide, by decide⟩ (by decide) (by decide)
      (by decide) (by rw [down]; exact ⟨by decide, by decide⟩), down]
  · intro wide
    rw [fees ⟨2 ^ 40, 3⟩ 2 wide false ⟨by decide, by decide⟩ (by decide) (by decide) (by decide)
      (by decide) (by rw [up]; exact ⟨by decide, by decide⟩), up]
  · intro wide
    have less := lower ⟨⟨-5, 3⟩, ⟨⟨by decide, by decide⟩, by decide, by decide, by decide⟩⟩
      ⟨⟨7, 2⟩, ⟨⟨by decide, by decide⟩, by decide, by decide, by decide⟩⟩ (by decide) (by decide)
      (by norm_num)
    exact (computes wide _ _).trans (congrArg some (compare_lt_iff_lt.mpr less))

end FeeFrac

end Adonai.Mining
