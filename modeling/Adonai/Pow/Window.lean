/-
The retarget formula over unbounded integers, and when `GetNextWorkRequired` computes it.

The targets, clamped solve times and spacings of the last sixty blocks are summed without
reduction. The machine value can differ only by the 256-bit product of the average target and the
weighted time.
-/

import Adonai.Pow.NextWork
import Mathlib.Algebra.BigOperators.Intervals
import Mathlib.Algebra.BigOperators.Ring.Finset

namespace Adonai.Pow

open ArithUint256
open Consensus (Params mainParams)
open Finset (range)

def LinkedHeights : List CBlockIndex → Prop
  | [] => True
  | [genesis] => genesis.nHeight = 0
  | block :: pprev :: rest =>
    block.nHeight = pprev.nHeight + 1 ∧ LinkedHeights (pprev :: rest)

instance decidableLinkedHeights : (chain : List CBlockIndex) → Decidable (LinkedHeights chain)
  | [] => inferInstanceAs (Decidable True)
  | [genesis] => inferInstanceAs (Decidable (genesis.nHeight = 0))
  | block :: pprev :: rest =>
    have : Decidable (LinkedHeights (pprev :: rest)) := decidableLinkedHeights (pprev :: rest)
    inferInstanceAs (Decidable (block.nHeight = pprev.nHeight + 1 ∧ LinkedHeights (pprev :: rest)))

section

variable {block : CBlockIndex} {rest : List CBlockIndex} (linked : LinkedHeights (block :: rest))

include linked

theorem LinkedHeights.tail : LinkedHeights rest := by
  cases rest with
  | nil => trivial
  | cons pprev rest => exact linked.2

theorem LinkedHeights.height_eq : block.nHeight = rest.length := by
  induction rest generalizing block with
  | nil => exact linked
  | cons pprev rest ih =>
    have below := ih linked.2
    rw [linked.1, below]
    rfl

end

def tipHeight (chain : List CBlockIndex) : Int := (chain.head?.map CBlockIndex.nHeight).getD (-1)

variable {chain : List CBlockIndex}

theorem tipHeight_eq (linked : LinkedHeights chain) :
    tipHeight chain = (chain.length : Int) - 1 := by
  cases chain with
  | nil => rfl
  | cons last rest =>
    change last.nHeight = _
    rw [linked.height_eq, List.length_cons]
    omega

def timeAt (chain : List CBlockIndex) (j : Nat) : Int :=
  ((chain[j]?).map CBlockIndex.getBlockTime).getD 0

def targetAt (chain : List CBlockIndex) (j : Nat) : Nat :=
  ((chain[j]?).map fun block => (setCompact block.nBits).target).getD 0

variable (params : Params)

def spacingAt (chain : List CBlockIndex) (j : Nat) : Int :=
  params.getTargetSpacing (((chain[j]?).map CBlockIndex.nHeight).getD 0)

def solvetimeAt (chain : List CBlockIndex) (j : Nat) : Int :=
  clamp (timeAt chain j - timeAt chain (j + 1)) (-6 * spacingAt params chain j)
    (6 * spacingAt params chain j)

def sumTargets (chain : List CBlockIndex) (N : Nat) : Nat := ∑ j ∈ range N, targetAt chain j

def weightedTimes (chain : List CBlockIndex) (N : Nat) : Int :=
  ∑ j ∈ range N, ((j : Int) + 1) * solvetimeAt params chain j

def weightedSpacing (chain : List CBlockIndex) (N : Nat) : Int :=
  ∑ j ∈ range N, ((j : Int) + 1) * spacingAt params chain j

def lwmaProduct (chain : List CBlockIndex) (N : Nat) : Nat :=
  sumTargets chain N / N * (max 1 (weightedTimes params chain N)).toNat

def lwmaTarget (chain : List CBlockIndex) (N : Nat) : Nat :=
  min params.powLimit (lwmaProduct params chain N / (weightedSpacing params chain N).toNat)

theorem wrap64_eq (value : Int) (low : -2 ^ 63 ≤ value) (high : value < 2 ^ 63) :
    wrap64 value = value := by
  apply Int.bmod_eq_of_le <;> omega

private theorem clamp_bounds (value low high : Int) (ordered : low ≤ high) :
    low ≤ clamp value low high ∧ clamp value low high ≤ high := by
  unfold clamp
  split_ifs <;> omega

theorem spacingAt_bounds (chain : List CBlockIndex) (j : Nat) :
    45 ≤ spacingAt mainParams chain j ∧ spacingAt mainParams chain j ≤ 120 :=
  Params.getTargetSpacing_main_bounds _

private theorem solvetimeAt_bounds (chain : List CBlockIndex) (j : Nat) :
    -6 * spacingAt mainParams chain j ≤ solvetimeAt mainParams chain j ∧
      solvetimeAt mainParams chain j ≤ 6 * spacingAt mainParams chain j := by
  have spacing := spacingAt_bounds chain j
  exact clamp_bounds _ _ _ (by omega)

variable {params}

private theorem wrap64_add_wrap64 (left right : Int) :
    wrap64 (wrap64 left + wrap64 right) = wrap64 (left + right) := by
  unfold wrap64
  rw [Int.bmod_add_bmod, Int.add_bmod_bmod]

def SpacingsFit (params : Params) (chain : List CBlockIndex) (N : Nat) : Prop :=
  ∀ j, j < N → -2 ^ 63 < 6 * spacingAt params chain j ∧ 6 * spacingAt params chain j < 2 ^ 63

theorem lwmaRound_wraps (block pprev : CBlockIndex) (rest : List CBlockIndex) (i : Int)
    (targets : Nat) (times k : Int)
    (low : -2 ^ 63 < 6 * spacingAt params (block :: pprev :: rest) 0)
    (high : 6 * spacingAt params (block :: pprev :: rest) 0 < 2 ^ 63) :
    lwmaRound params block pprev i ⟨targets % 2 ^ 256, wrap64 times, wrap64 k⟩ =
      ⟨(targets + targetAt (block :: pprev :: rest) 0) % 2 ^ 256,
        wrap64 (times + i * solvetimeAt params (block :: pprev :: rest) 0),
        wrap64 (k + i * spacingAt params (block :: pprev :: rest) 0)⟩ := by
  have lowWrap : wrap64 (-6 * spacingAt params (block :: pprev :: rest) 0) =
      -6 * spacingAt params (block :: pprev :: rest) 0 := wrap64_eq _ (by omega) (by omega)
  have highWrap : wrap64 (6 * spacingAt params (block :: pprev :: rest) 0) =
      6 * spacingAt params (block :: pprev :: rest) 0 := wrap64_eq _ (by omega) (by omega)
  have isSolvetime : clamp (block.getBlockTime - pprev.getBlockTime)
      (wrap64 (-6 * params.getTargetSpacing block.nHeight))
      (wrap64 (6 * params.getTargetSpacing block.nHeight)) =
        solvetimeAt params (block :: pprev :: rest) 0 := by
    change clamp _ (wrap64 (-6 * spacingAt params (block :: pprev :: rest) 0))
      (wrap64 (6 * spacingAt params (block :: pprev :: rest) 0)) = _
    rw [lowWrap, highWrap]
    rfl
  unfold lwmaRound
  dsimp only
  rw [isSolvetime, wrap64_add_wrap64, wrap64_add_wrap64, add, Nat.mod_add_mod,
    mul_comm (solvetimeAt params (block :: pprev :: rest) 0)]
  rfl

theorem lwmaLoop_wraps (rounds : Nat) (chain : List CBlockIndex) (i targets : Nat) (times k : Int)
    (long : rounds < chain.length) (fits : SpacingsFit params chain rounds) :
    lwmaLoop params rounds (i + 1) chain ⟨targets % 2 ^ 256, wrap64 times, wrap64 k⟩ =
      ⟨(targets + ∑ j ∈ range rounds, targetAt chain j) % 2 ^ 256,
        wrap64 (times + ∑ j ∈ range rounds, ((i + j : Int) + 1) * solvetimeAt params chain j),
        wrap64 (k + ∑ j ∈ range rounds, ((i + j : Int) + 1) * spacingAt params chain j)⟩ := by
  induction rounds generalizing chain i targets times k with
  | zero =>
    simp only [lwmaLoop, Finset.range_zero, Finset.sum_empty, Nat.add_zero, Int.add_zero]
  | succ rounds ih =>
    rcases chain with _ | ⟨block, _ | ⟨pprev, rest⟩⟩
    · simp at long
    · simp at long
    obtain ⟨low, high⟩ := fits 0 (Nat.succ_pos rounds)
    have tail := ih (pprev :: rest) (i + 1)
      (targets + targetAt (block :: pprev :: rest) 0)
      (times + ((i : Int) + 1) * solvetimeAt params (block :: pprev :: rest) 0)
      (k + ((i : Int) + 1) * spacingAt params (block :: pprev :: rest) 0)
      (by simpa using long) (fun j less => fits (j + 1) (Nat.succ_lt_succ less))
    have weights : ∀ values : Nat → Int,
        ∑ j ∈ range (rounds + 1), ((i + j : Int) + 1) * values j =
          ((i : Int) + 1) * values 0 +
            ∑ j ∈ range rounds, (((i + 1 : Nat) + j : Int) + 1) * values (j + 1) := by
      intro values
      rw [Finset.sum_range_succ', add_comm]
      congr 1
      apply Finset.sum_congr rfl
      intro j _
      push_cast
      ring
    have next : ((i : Int) + 1) + 1 = ((i + 1 : Nat) : Int) + 1 := by
      rfl
    rw [lwmaLoop, lwmaRound_wraps block pprev rest _ _ _ _ low high, next, tail, weights,
      weights, Finset.sum_range_succ', add_assoc, add_assoc, add_assoc,
      add_comm (∑ j ∈ range rounds, targetAt (block :: pprev :: rest) (j + 1))]
    rfl

theorem requiredBits_wraps (linked : LinkedHeights chain)
    (adjusting : params.fPowNoRetargeting = false) {N : Nat}
    (isN : params.difficultyAdjustmentInterval = N) (positive : 0 < N) (interval : N < 2 ^ 63)
    (long : N < chain.length) (spacings : SpacingsFit params chain N)
    (targets : sumTargets chain N < 2 ^ 256) (timesLow : -2 ^ 63 ≤ weightedTimes params chain N)
    (timesHigh : weightedTimes params chain N < 2 ^ 32)
    (kLow : 0 ≤ weightedSpacing params chain N) (kHigh : weightedSpacing params chain N < 2 ^ 63) :
    requiredBits chain params =
      if weightedSpacing params chain N = 0 then none
      else some (getCompact (min params.powLimit (lwmaProduct params chain N % 2 ^ 256 /
        (weightedSpacing params chain N).toNat)) false) := by
  rcases chain with _ | ⟨last, rest⟩
  · exact absurd long (Nat.not_lt_zero N)
  have notShort : ¬last.nHeight + 1 ≤ (N : Int) := by
    have height := linked.height_eq
    rw [List.length_cons] at long
    omega
  have loop := lwmaLoop_wraps N (last :: rest) 0 0 0 0 long spacings
  have weights : ∀ values : Nat → Int,
      ∑ j ∈ range N, (((0 : Nat) + j : Int) + 1) * values j =
        ∑ j ∈ range N, ((j : Int) + 1) * values j := by
    intro values
    apply Finset.sum_congr rfl
    intro j _
    rw [Nat.cast_zero, zero_add]
  have times := wrap64_eq _ timesLow (timesHigh.trans (by norm_num))
  have spacing := wrap64_eq (weightedSpacing params (last :: rest) N)
    (le_trans (by norm_num) kLow) kHigh
  unfold weightedTimes at times
  unfold weightedSpacing at spacing
  have sums : lwmaLoop params N 1 (last :: rest) ⟨0, 0, 0⟩ =
      ⟨sumTargets (last :: rest) N, weightedTimes params (last :: rest) N,
        weightedSpacing params (last :: rest) N⟩ := by
    rw [weights, weights, zero_add, zero_add, zero_add, times, spacing] at loop
    rw [Nat.mod_eq_of_lt (show ∑ j ∈ range N, targetAt (last :: rest) j < _ from targets)] at loop
    exact loop
  have interval : toUint64 (N : Int) = N := by
    unfold toUint64
    rw [Int.emod_eq_of_lt (by omega) (by omega), Int.toNat_natCast]
  have divisor : toUint64 (weightedSpacing params (last :: rest) N) =
      (weightedSpacing params (last :: rest) N).toNat := by
    unfold toUint64
    rw [Int.emod_eq_of_lt kLow (by omega)]
  have weight : toUint32 (max 1 (weightedTimes params (last :: rest) N)) =
      (max 1 (weightedTimes params (last :: rest) N)).toNat := by
    unfold toUint32
    rw [Int.emod_eq_of_lt (by omega) (by omega)]
  unfold requiredBits
  dsimp only
  rw [if_neg (Bool.eq_false_iff.mp adjusting), isN, if_neg notShort, Int.toNat_natCast, sums,
    lwmaFinish_eq, isN, interval, divisor, weight]
  by_cases zero : weightedSpacing params (last :: rest) N = 0
  · rw [if_pos zero, if_pos (.inr (by rw [zero]; rfl))]
    rfl
  · rw [if_neg zero, if_neg (by omega)]
    rfl

theorem sumTargets_le (chain : List CBlockIndex)
    (limited : ∀ j, j < 60 → targetAt chain j ≤ mainParams.powLimit) :
    sumTargets chain 60 ≤ 60 * mainParams.powLimit := by
  have := Finset.sum_le_card_nsmul (range 60) (targetAt chain) mainParams.powLimit
    (fun j member => limited j (Finset.mem_range.mp member))
  exact this

theorem weightedSpacing_bounds (chain : List CBlockIndex) :
    82350 ≤ weightedSpacing mainParams chain 60 ∧ weightedSpacing mainParams chain 60 ≤ 219600 := by
  have weights : ∑ j ∈ range 60, ((j : Int) + 1) = 1830 := by decide
  constructor
  · calc (82350 : Int) = ∑ j ∈ range 60, ((j : Int) + 1) * 45 := by
          rw [← Finset.sum_mul, weights]
          norm_num
      _ ≤ weightedSpacing mainParams chain 60 := by
          apply Finset.sum_le_sum
          intro j _
          exact mul_le_mul_of_nonneg_left (spacingAt_bounds chain j).1 (by omega)
  · calc weightedSpacing mainParams chain 60
        ≤ ∑ j ∈ range 60, ((j : Int) + 1) * 120 := by
          apply Finset.sum_le_sum
          intro j _
          exact mul_le_mul_of_nonneg_left (spacingAt_bounds chain j).2 (by omega)
      _ = 219600 := by
          rw [← Finset.sum_mul, weights]
          norm_num

theorem weightedTimes_bounds (chain : List CBlockIndex) :
    -6 * weightedSpacing mainParams chain 60 ≤ weightedTimes mainParams chain 60 ∧
      weightedTimes mainParams chain 60 ≤ 6 * weightedSpacing mainParams chain 60 := by
  unfold weightedSpacing
  rw [Finset.mul_sum, Finset.mul_sum]
  constructor
  all_goals
    apply Finset.sum_le_sum
    intro j _
    have solvetime := solvetimeAt_bounds chain j
    nlinarith

theorem spacingsFit_main (chain : List CBlockIndex) : SpacingsFit mainParams chain 60 := by
  intro j _
  obtain ⟨low, high⟩ := spacingAt_bounds chain j
  omega

theorem powLimit_main : mainParams.powLimit = 2 ^ 236 - 1 := by
  norm_num [mainParams]

theorem requiredBits_window (chain : List CBlockIndex) (linked : LinkedHeights chain)
    (long : 60 < chain.length) (limited : ∀ j, j < 60 → targetAt chain j ≤ mainParams.powLimit) :
    requiredBits chain mainParams =
      some (getCompact (min mainParams.powLimit
        (lwmaProduct mainParams chain 60 % 2 ^ 256 /
          (weightedSpacing mainParams chain 60).toNat)) false) := by
  have spacing := weightedSpacing_bounds chain
  have times := weightedTimes_bounds chain
  have total := sumTargets_le chain limited
  rw [powLimit_main] at total
  rw [requiredBits_wraps (N := 60) linked rfl rfl (by omega) (by omega) long
    (spacingsFit_main chain) (by omega) (by omega) (by omega) (by omega) (by omega),
    if_neg (by omega)]

theorem lwmaProduct_lt (chain : List CBlockIndex)
    (limited : ∀ j, j < 60 → targetAt chain j ≤ mainParams.powLimit) :
    lwmaProduct mainParams chain 60 < 2 * 2 ^ 256 := by
  have total := sumTargets_le chain limited
  have spacing := weightedSpacing_bounds chain
  have times := weightedTimes_bounds chain
  have average : sumTargets chain 60 / 60 ≤ 2 ^ 236 - 1 := by
    rw [powLimit_main] at total
    omega
  have weight : (max 1 (weightedTimes mainParams chain 60)).toNat ≤ 1317600 := by omega
  calc lwmaProduct mainParams chain 60
      ≤ (2 ^ 236 - 1) * 1317600 := Nat.mul_le_mul average weight
    _ < 2 * 2 ^ 256 := by norm_num

theorem lwmaTarget_of_wrap (chain : List CBlockIndex)
    (wraps : 2 ^ 256 ≤ lwmaProduct mainParams chain 60) :
    lwmaTarget mainParams chain 60 = mainParams.powLimit := by
  have spacing := weightedSpacing_bounds chain
  apply Nat.min_eq_left
  rw [Nat.le_div_iff_mul_le (by omega)]
  calc (2 ^ 236 - 1) * (weightedSpacing mainParams chain 60).toNat
      ≤ (2 ^ 236 - 1) * 219600 := Nat.mul_le_mul_left _ (by omega)
    _ ≤ 2 ^ 256 := by norm_num
    _ ≤ lwmaProduct mainParams chain 60 := wraps

theorem getCompact_limited_eq_iff (limit value : Nat) (small : limit < 2 ^ 256) :
    getCompact (min limit value) false = getCompact limit false ↔ compactFloor limit ≤ value := by
  have minSmall : min limit value < 2 ^ 256 := (Nat.min_le_left limit value).trans_lt small
  rw [getCompact_eq_iff _ _ minSmall small]
  constructor
  · intro same
    rw [← same]
    exact (compactFloor_le _).trans (Nat.min_le_right limit value)
  · intro le
    apply le_antisymm (compactFloor_mono (Nat.min_le_left limit value))
    rw [← compactFloor_idem limit]
    exact compactFloor_mono (le_min (compactFloor_le limit) le)

/-- On a full main-network window the code returns the compact form of the
formula exactly when the product fits in 256 bits, or wraps to a quotient that the
proof-of-work limit cuts off all the same. -/
theorem getNextWorkRequired_formula_iff (chain : List CBlockIndex)
    (pblock : Option CBlockHeader) (linked : LinkedHeights chain) (tall : 60 ≤ tipHeight chain)
    (limited : ∀ j, j < 60 → 0 < targetAt chain j ∧ targetAt chain j ≤ mainParams.powLimit) :
    (getNextWorkRequired chain pblock mainParams).map Prod.fst =
        some (getCompact (lwmaTarget mainParams chain 60) false) ↔
      lwmaProduct mainParams chain 60 < 2 ^ 256 ∨
        compactFloor mainParams.powLimit * (weightedSpacing mainParams chain 60).toNat ≤
          lwmaProduct mainParams chain 60 - 2 ^ 256 := by
  have bounded : ∀ j, j < 60 → targetAt chain j ≤ mainParams.powLimit :=
    fun j less => (limited j less).2
  have long : 60 < chain.length := by
    have := tipHeight_eq linked
    omega
  have spacing := weightedSpacing_bounds chain
  have productLt := lwmaProduct_lt chain bounded
  have limitSmall : mainParams.powLimit < 2 ^ 256 := by
    rw [powLimit_main]
    norm_num
  rw [getNextWorkRequired_bits, requiredBits_window chain linked long bounded, Option.some.injEq]
  rcases Nat.lt_or_ge (lwmaProduct mainParams chain 60) (2 ^ 256) with fits | wraps
  · rw [Nat.mod_eq_of_lt fits]
    exact ⟨fun _ => .inl fits, fun _ => rfl⟩
  have reduced : lwmaProduct mainParams chain 60 % 2 ^ 256 =
      lwmaProduct mainParams chain 60 - 2 ^ 256 := by
    rw [Nat.mod_eq_sub_mod wraps, Nat.mod_eq_of_lt (by omega)]
  rw [reduced, lwmaTarget_of_wrap chain wraps, getCompact_limited_eq_iff _ _ limitSmall,
    Nat.le_div_iff_mul_le (by omega)]
  constructor
  · exact Or.inr
  · intro condition
    rcases condition with fits | cut
    · omega
    · exact cut

/-- A chain from the main genesis time on, one block every `spacing` seconds, all
at the proof-of-work limit. -/
def steadyChain (spacing : Nat) : (height : Nat) → List CBlockIndex
  | 0 => [steadyBlock spacing 0]
  | height + 1 => steadyBlock spacing (height + 1) :: steadyChain spacing height
where
  steadyBlock (spacing height : Nat) : CBlockIndex :=
    { hashBlock := BitVec.ofNat 256 height
      nHeight := height
      nVersion := 1
      hashMerkleRoot := 0
      nTime := UInt32.ofNat (1723502400 + spacing * height)
      nBits := 0x1e0fffff
      nNonce := 0 }

/-- Blocks every 100 seconds stay within the product's range. -/
theorem getNextWorkRequired_formula_steady :
    (getNextWorkRequired (steadyChain 100 60) none mainParams).map Prod.fst =
      some (getCompact (lwmaTarget mainParams (steadyChain 100 60) 60) false) :=
  (getNextWorkRequired_formula_iff (steadyChain 100 60) none (by decide +kernel)
    (by decide +kernel) (by decide +kernel)).mpr (.inl (by decide +kernel))

/-- Blocks every 575 seconds at the limit make the product wrap to a small value. -/
theorem getNextWorkRequired_formula_wraps :
    LinkedHeights (steadyChain 575 60) ∧ 60 ≤ tipHeight (steadyChain 575 60) ∧
      (∀ j, j < 60 → 0 < targetAt (steadyChain 575 60) j ∧
        targetAt (steadyChain 575 60) j ≤ mainParams.powLimit) ∧
      (getNextWorkRequired (steadyChain 575 60) none mainParams).map Prod.fst ≠
        some (getCompact (lwmaTarget mainParams (steadyChain 575 60) 60) false) := by
  decide +kernel

end Adonai.Pow
