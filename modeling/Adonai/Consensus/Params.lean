/-
Consensus parameters and the block spacing schedule.

`GetTargetSpacing` interpolates between the stages of a ramp in double
precision; the arithmetic is that of `Binary64`, and its result is bounded by the
two stages it lies between.
-/

import Adonai.Foundation.Binary64
import Adonai.Primitives.Block

namespace Adonai

open Binary64 (ofInt ofInt_eq toInt round_between)

/-- Amounts count the smallest unit and can be negative. -/
def COIN : Int := 100000000

def MAX_MONEY : Int := 100915200 * COIN

def moneyRange (nValue : Int) : Bool := decide (0 ≤ nValue) && decide (nValue ≤ MAX_MONEY)

theorem moneyRange_iff (nValue : Int) :
    moneyRange nValue = true ↔ 0 ≤ nValue ∧ nValue ≤ MAX_MONEY := by
  simp [moneyRange]

namespace Consensus

structure Params where
  nSubsidyInitial : Int
  nCoinbaseMaturity : Int
  hashGenesisBlock : Uint256
  nSubsidyHalvingInterval : Int
  BIP34Height : Int
  BIP34Hash : Uint256
  BIP65Height : Int
  BIP66Height : Int
  CSVHeight : Int
  SegwitHeight : Int
  powLimit : Nat
  enforce_BIP94 : Bool
  fPowNoRetargeting : Bool
  nPowTargetSpacing : Int
  nPowAveragingWindow : Int
  powSpacingRamps : List (Int × Int)
  signet_blocks : Bool

inductive BuriedDeployment
  | heightInCb
  | cltv
  | dersig
  | csv
  | segwit
  deriving DecidableEq, Repr

namespace Params

variable (params : Params)

def deploymentHeight : BuriedDeployment → Int
  | .heightInCb => params.BIP34Height
  | .cltv => params.BIP65Height
  | .dersig => params.BIP66Height
  | .csv => params.CSVHeight
  | .segwit => params.SegwitHeight

def difficultyAdjustmentInterval : Int := params.nPowAveragingWindow

def interpolateSpacing (prev stage : Int × Int) (height : Int) : Int :=
  if stage.1 = prev.1 then stage.2
  else
    let alpha := Binary64.div (ofInt (height - prev.1))
      (ofInt (stage.1 - prev.1))
    prev.2 + toInt (Binary64.mul (ofInt (stage.2 - prev.2)) alpha)

def searchRamp (height : Int) : (prev : Int × Int) → List (Int × Int) → Option Int
  | _, [] => none
  | prev, stage :: rest =>
    if height ≤ stage.1 then some (interpolateSpacing prev stage height)
    else searchRamp height stage rest

def getTargetSpacing (height : Int) : Int :=
  match params.powSpacingRamps with
  | [] => params.nPowTargetSpacing
  | first :: rest =>
    if height ≤ first.1 then first.2
    else (searchRamp height first (first :: rest)).getD
      ((first :: rest).getLast (List.cons_ne_nil first rest)).2

end Params

def mainParams : Params where
  nSubsidyInitial := 18 * COIN
  nCoinbaseMaturity := 200
  hashGenesisBlock := 0x00000d250c9c1bfdfd933cabc32268b39d1556f6a29db879025019976f287d1e
  nSubsidyHalvingInterval := 2803200
  BIP34Height := 0
  BIP34Hash := 0
  BIP65Height := 0
  BIP66Height := 0
  CSVHeight := 0
  SegwitHeight := 0
  powLimit := 0x00000fffffffffffffffffffffffffffffffffffffffffffffffffffffffffff
  enforce_BIP94 := false
  fPowNoRetargeting := false
  nPowTargetSpacing := 45
  nPowAveragingWindow := 60
  powSpacingRamps := [(0, 120), (3000, 90), (6000, 60), (10000, 45)]
  signet_blocks := false

namespace Params

private theorem interpolateSpacing_bounds (prev stage : Int × Int) (height : Int)
    (after : prev.1 < height) (within : height ≤ stage.1) (falling : stage.2 ≤ prev.2)
    (lengthSmall : stage.1 - prev.1 < 2 ^ 52) (dropSmall : prev.2 - stage.2 < 2 ^ 52) :
    stage.2 ≤ interpolateSpacing prev stage height ∧
      interpolateSpacing prev stage height ≤ prev.2 := by
  have different : stage.1 ≠ prev.1 := by omega
  have isExact {value : Int} (low : -2 ^ 53 < value) (high : value < 2 ^ 53) :
      ofInt value = value := ofInt_eq value (abs_lt.mpr ⟨low, high⟩)
  have lengthPos : (0 : ℚ) < ((stage.1 - prev.1 : Int) : ℚ) := by
    exact_mod_cast (show (0 : Int) < stage.1 - prev.1 by omega)
  set ratio : ℚ := ((height - prev.1 : Int) : ℚ) / ((stage.1 - prev.1 : Int) : ℚ) with hRatio
  have ratioNonneg : 0 ≤ ratio := by
    apply div_nonneg _ lengthPos.le
    exact_mod_cast (show (0 : Int) ≤ height - prev.1 by omega)
  have ratioLe : ratio ≤ 1 := by
    rw [div_le_one lengthPos]
    exact_mod_cast (show height - prev.1 ≤ stage.1 - prev.1 by omega)
  set alpha := Binary64.round ratio with hAlpha
  have alphaBounds : 0 ≤ alpha ∧ alpha ≤ 1 := by
    exact_mod_cast round_between ratio 0 1 (by decide) (by decide) (by exact_mod_cast ratioNonneg)
      (by exact_mod_cast ratioLe)
  obtain ⟨alphaNonneg, alphaLe⟩ := alphaBounds
  have dropNonpos : ((stage.2 - prev.2 : Int) : ℚ) ≤ 0 := by
    exact_mod_cast (show stage.2 - prev.2 ≤ (0 : Int) by omega)
  set scaled : ℚ := ((stage.2 - prev.2 : Int) : ℚ) * alpha with hScaled
  have scaledLe : scaled ≤ 0 := mul_nonpos_of_nonpos_of_nonneg dropNonpos alphaNonneg
  have scaledGe : ((stage.2 - prev.2 : Int) : ℚ) ≤ scaled := by
    nlinarith
  obtain ⟨productGe, productLe⟩ := round_between scaled (stage.2 - prev.2) 0 (by omega) (by decide)
    scaledGe (by exact_mod_cast scaledLe)
  have value : interpolateSpacing prev stage height = prev.2 + toInt (Binary64.round scaled) := by
    unfold interpolateSpacing
    rw [if_neg different, isExact (by omega) (by omega), isExact (by omega) (by omega),
      isExact (by omega) (by omega)]
    rfl
  have lower := Binary64.le_toInt _ _ productGe
  have upper := Binary64.toInt_le _ _ productLe
  constructor <;> omega

theorem getTargetSpacing_main_bounds (height : Int) :
    45 ≤ mainParams.getTargetSpacing height ∧ mainParams.getTargetSpacing height ≤ 120 := by
  unfold getTargetSpacing
  simp only [mainParams, searchRamp]
  have first := interpolateSpacing_bounds (0, 120) (3000, 90) height
  have second := interpolateSpacing_bounds (3000, 90) (6000, 60) height
  have third := interpolateSpacing_bounds (6000, 60) (10000, 45) height
  norm_num at first second third
  split_ifs <;> simp <;> omega

end Params

end Consensus

end Adonai
