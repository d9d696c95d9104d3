/-
The fee rates a wallet pays, and what coin selection hands to the builder of a transaction.

The fee model is that of the assembler with an exact `beta`: the product with the value is rounded
once. Amounts are exact integers; where `CalculateFee` leaves 64 bits or its bounds are crossed the
result is undefined.
-/

import Adonai.Mempool.Entry
import Adonai.Policy.Fees

namespace Adonai

namespace Policy

variable (model : FeeModel)

/-- The part of the fee proportional to the value moved, for an exact `beta`. -/
def FeeModel.exactValueFee (value : Int) : Option Int :=
  model.beta.bind fun beta => checked64 (Binary64.llround (beta * value))

def calculateFeeExact (weight : Nat) (value : Int) (consolidation : Bool) : Option Int := do
  let sizeFee ← model.alpha.getFee (UInt32.ofNat weight)
  let valueFee ← model.exactValueFee value
  let fee ← checked64 (sizeFee + valueFee)
  let fee := if consolidation then fee.tdiv 2 else fee
  stdClamp fee model.min_fee model.max_fee

def FeeModel.atLeast (feerate : CFeeRate) : FeeModel :=
  if feerate.nSatoshisPerK > model.alpha.nSatoshisPerK then { model with alpha := feerate }
  else model

def CFeeRate.max (left right : CFeeRate) : CFeeRate :=
  if left.nSatoshisPerK < right.nSatoshisPerK then right else left

def CFeeRate.min (left right : CFeeRate) : CFeeRate :=
  if right.nSatoshisPerK < left.nSatoshisPerK then right else left

/-- `ToString` for the mode `SAT_VB`. -/
def CFeeRate.toStringPerVByte (rate : CFeeRate) : String :=
  let fraction := toString (rate.nSatoshisPerK.tmod 1000)
  toString (rate.nSatoshisPerK.tdiv 1000) ++ "." ++
    String.ofList (List.replicate (3 - fraction.length) '0') ++ fraction ++ " ang/vB"

end Policy

namespace CScript

def isWitnessProgram (script : CScript) : Bool :=
  decide (4 ≤ script.length) && decide (script.length ≤ 42) &&
    match script with
    | version :: size :: _ =>
      (version == 0 || (decide (0x51 ≤ version) && decide (version ≤ 0x60))) &&
        size.toNat + 2 == script.length
    | _ => false

end CScript

namespace Wallet

open Policy

/-- The rate is at least the lower bound of the fee model, read as a rate. -/
def getDustThreshold (model : FeeModel) (txout : CTxOut) (dustRelayFee : CFeeRate) : Option Int :=
  if txout.scriptPubKey.isUnspendable then some 0
  else
    let spending := if txout.scriptPubKey.isWitnessProgram then 32 + 4 + 1 + 107 / 4 + 4
      else 32 + 4 + 1 + 107 + 4
    (dustRelayFee.max ⟨model.min_fee⟩).getFee (UInt32.ofNat (txout.serializeSize + spending))

def isDust (model : FeeModel) (txout : CTxOut) (dustRelayFee : CFeeRate) : Option Bool :=
  (getDustThreshold model txout dustRelayFee).map fun threshold => decide (txout.nValue < threshold)

inductive FeeEstimateMode where
  | unset
  | economical
  | conservative
  deriving DecidableEq, Repr

inductive FeeReason where
  | none
  | payTxFee
  | fallback
  | mempoolMin
  | required
  deriving DecidableEq, Repr

structure RateSource where
  relayMinFee : CFeeRate
  mempoolMinFee : CFeeRate
  relayDustFee : CFeeRate
  estimateSmartFee : UInt32 → Bool → CFeeRate × FeeReason
  estimateMaxBlocks : UInt32
  m_min_fee : CFeeRate
  m_pay_tx_fee : CFeeRate
  m_fallback_fee : CFeeRate
  m_discard_rate : CFeeRate
  m_confirm_target : UInt32
  m_signal_rbf : Bool

structure RateControl where
  fOverrideFeeRate : Bool
  m_feerate : Option CFeeRate
  m_confirm_target : Option UInt32
  m_signal_bip125_rbf : Option Bool
  m_fee_mode : FeeEstimateMode

variable (source : RateSource)

def getRequiredFeeRate : CFeeRate := source.m_min_fee.max source.relayMinFee

def obeyRequired (found : CFeeRate × FeeReason) : CFeeRate × FeeReason :=
  let required_feerate := getRequiredFeeRate source
  if required_feerate.nSatoshisPerK > found.1.nSatoshisPerK then (required_feerate, .required)
  else found

def smartFeeRate (control : RateControl) : CFeeRate × FeeReason :=
  let target := control.m_confirm_target.getD source.m_confirm_target
  let conservative_estimate := match control.m_fee_mode with
    | .conservative => true
    | .economical => false
    | .unset => !control.m_signal_bip125_rbf.getD source.m_signal_rbf
  let estimate := source.estimateSmartFee target conservative_estimate
  let found := if estimate.1 = ⟨0⟩ then (source.m_fallback_fee, .fallback) else estimate
  if estimate.1 = ⟨0⟩ ∧ source.m_fallback_fee = ⟨0⟩ then found
  else if found.1.nSatoshisPerK < source.mempoolMinFee.nSatoshisPerK then
    obeyRequired source (source.mempoolMinFee, .mempoolMin)
  else obeyRequired source found

def getMinimumFeeRate (control : RateControl) : CFeeRate × FeeReason :=
  match control.m_feerate with
  | some feerate =>
    if control.fOverrideFeeRate then (feerate, .payTxFee)
    else obeyRequired source (feerate, .payTxFee)
  | none =>
    if control.m_confirm_target = none ∧ source.m_pay_tx_fee ≠ ⟨0⟩ then
      obeyRequired source (source.m_pay_tx_fee, .payTxFee)
    else smartFeeRate source control

def getDiscardRate : CFeeRate :=
  let discard_rate := (source.estimateSmartFee source.estimateMaxBlocks false).1
  let discard_rate := if discard_rate = ⟨0⟩ then source.m_discard_rate
    else discard_rate.min source.m_discard_rate
  discard_rate.max source.relayDustFee

/-- A coin of the wallet: `fee` is the cost of spending it with the bump of its ancestors. -/
structure COutput where
  outpoint : COutPoint
  txout : CTxOut
  input_bytes : Int
  fee : Int
  ancestor_bump_fees : Int
  deriving DecidableEq

def COutput.getEffectiveValue (coin : COutput) : Int := coin.txout.nValue - coin.fee

structure SelectionResult where
  m_selected_inputs : List COutput
  m_target : Int
  m_use_effective : Bool
  m_weight : Int
  bump_fee_group_discount : Int

namespace SelectionResult

variable (result : SelectionResult)

def getSelectedValue : Int := (result.m_selected_inputs.map fun coin => coin.txout.nValue).sum

def getSelectedEffectiveValue : Int :=
  (result.m_selected_inputs.map COutput.getEffectiveValue).sum + result.bump_fee_group_discount

def getTotalBumpFees : Int :=
  (result.m_selected_inputs.map COutput.ancestor_bump_fees).sum - result.bump_fee_group_discount

def getChange (min_viable_change change_fee : Int) : Int :=
  let change := if result.m_use_effective then
      result.getSelectedEffectiveValue - result.m_target - change_fee
    else result.getSelectedValue - result.m_target
  if change < min_viable_change then 0 else change

/-- The assertions of `RecalculateWaste`. -/
def wasteDefined (min_viable_change change_fee : Int) : Bool :=
  !result.m_selected_inputs.isEmpty &&
    (decide (result.getChange min_viable_change change_fee ≠ 0) ||
      decide (result.m_target ≤
        if result.m_use_effective then result.getSelectedEffectiveValue
        else result.getSelectedValue))

def inputsWeight (inputs : List COutput) : Int :=
  (inputs.map fun coin => max coin.input_bytes 0 * (Consensus.WITNESS_SCALE_FACTOR : Int)).sum

def manual (target : Int) (inputs : List COutput) (subtract_fee_outputs : Bool) : SelectionResult :=
  { m_selected_inputs := inputs
    m_target := target
    m_use_effective := !subtract_fee_outputs
    m_weight := inputsWeight inputs
    bump_fee_group_discount := 0 }

def merge (result other : SelectionResult) : SelectionResult :=
  { result with
    m_selected_inputs := result.m_selected_inputs ++ other.m_selected_inputs
    m_target := result.m_target + other.m_target
    m_use_effective := result.m_use_effective || other.m_use_effective
    m_weight := result.m_weight + other.m_weight }

end SelectionResult

end Wallet

end Adonai
