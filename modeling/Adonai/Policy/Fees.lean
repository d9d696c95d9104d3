/-
The fees demanded for admission to the mempool and by the block assembler.

Both are called `CalculateFee`. Admission charges the default relay rate and ignores the installed
model, the value moved and the consolidation flag. An overflow, a clamp with crossed bounds and a
rounding without a result have no value here.
-/

import Adonai.Consensus.Params

namespace Adonai.Policy

def inInt64 (value : Int) : Bool := decide (-2 ^ 63 ≤ value ∧ value < 2 ^ 63)

/-- An `int64_t` result, or nothing when it overflows. -/
def checked64 (value : Int) : Option Int := if inInt64 value then some value else none

theorem checked64_eq_some_iff {value result : Int} :
    checked64 value = some result ↔ value = result ∧ -2 ^ 63 ≤ value ∧ value < 2 ^ 63 := by
  unfold checked64 inInt64
  rw [Option.ite_none_right_eq_some, decide_eq_true_eq, Option.some.injEq, and_comm]

structure CFeeRate where
  nSatoshisPerK : Int
  deriving DecidableEq, Repr

def CFeeRate.getFee (rate : CFeeRate) (num_bytes : UInt32) : Option Int :=
  let nSize : Int := num_bytes.toNat
  (checked64 (rate.nSatoshisPerK * nSize)).map fun product =>
    let nFee := ⌈Binary64.div (Binary64.ofInt product) 1000⌉
    if nFee = 0 ∧ nSize ≠ 0 then
      if rate.nSatoshisPerK > 0 then 1 else if rate.nSatoshisPerK < 0 then -1 else nFee
    else nFee

def DEFAULT_MIN_RELAY_TX_FEE : Int := 1000

/-- The installed model; `beta` is absent when the double is not finite. -/
structure FeeModel where
  alpha : CFeeRate
  beta : Option ℚ
  min_fee : Int
  max_fee : Int
  deriving DecidableEq

def defaultFeeModel : FeeModel :=
  { alpha := ⟨100⟩
    beta := some (Binary64.round (5 / 1000000))
    min_fee := 100
    max_fee := 1000000 }

variable (model : FeeModel)

def FeeModel.valueFee (value : Int) : Option Int :=
  model.beta.bind fun beta =>
    checked64 (Binary64.llround (Binary64.mul beta (Binary64.ofInt value)))

def stdClamp (value low high : Int) : Option Int :=
  if high < low then none
  else some (if value < low then low else if high < value then high else value)

/-- The assembler's demand, from `policy/feemodel.cpp`. -/
def calculateFee (weight : Nat) (value : Int) (consolidation : Bool) : Option Int := do
  let sizeFee ← model.alpha.getFee (UInt32.ofNat weight)
  let valueFee ← model.valueFee value
  let fee ← checked64 (sizeFee + valueFee)
  let fee := if consolidation then fee.tdiv 2 else fee
  stdClamp fee model.min_fee model.max_fee

/-- The admission demand, from `policy/hybridfee.h`. -/
def calculateHybridFee (weight : Nat) (_value_out : Int) (_consolidation : Bool) : Option Int :=
  (CFeeRate.mk DEFAULT_MIN_RELAY_TX_FEE).getFee (UInt32.ofNat weight)

/-- What the fee checks read of a transaction; `dust` tells whether an output is
below the dust threshold. -/
structure FeeSubject where
  vsize : Nat
  value_out : Int
  vinSize : Nat
  voutSize : Nat
  version : UInt32
  dust : Bool
  deriving DecidableEq, Repr

def TRUC_VERSION : UInt32 := 3

def isConsolidationTx (tx : FeeSubject) : Bool :=
  decide (tx.vinSize > 5) && decide (tx.voutSize ≤ 1)

/-- The smallest package fee with which the assembler takes a transaction without
unconfirmed ancestors. -/
def assemblerMinimum (tx : FeeSubject) : Option Int :=
  calculateFee model tx.vsize tx.value_out (isConsolidationTx tx)

structure Admission where
  bypass_limits : Bool
  package_feerates : Bool
  require_standard : Bool
  poolMinFee : CFeeRate
  deriving DecidableEq, Repr

inductive TxValidationResult where
  | notStandard
  | mempoolPolicy
  | reconsiderable
  deriving DecidableEq, Repr

inductive FeeVerdict where
  | accepted
  | invalid (result : TxValidationResult) (rejectReason debugMessage : String)
  | undefined
  deriving DecidableEq, Repr

def lessMessage (paid demanded : Int) : String := toString paid ++ " < " ++ toString demanded

variable (admission : Admission)

def checkFeeRate (package_size : Nat) (package_fee package_value_out : Int) : FeeVerdict :=
  match admission.poolMinFee.getFee (UInt32.ofNat package_size),
      calculateHybridFee package_size package_value_out false with
  | some mempoolRejectFee, some required_fee =>
    if mempoolRejectFee > 0 ∧ package_fee < mempoolRejectFee then
      .invalid .reconsiderable "mempool min fee not met" (lessMessage package_fee mempoolRejectFee)
    else if package_fee < required_fee then
      .invalid .reconsiderable "required fee not met" (lessMessage package_fee required_fee)
    else .accepted
  | _, _ => .undefined

variable (tx : FeeSubject)

def preChecksFee (base_fees modified_fees : Int) : FeeVerdict :=
  if admission.require_standard ∧ (base_fees ≠ 0 ∨ modified_fees ≠ 0) ∧ tx.dust then
    .invalid .notStandard "dust" "tx with dust output must be 0-fee"
  else
    let consolidation := decide (tx.vinSize > 1) && decide (tx.voutSize = 1)
    match calculateHybridFee tx.vsize tx.value_out consolidation with
    | none => .undefined
    | some required_fee =>
      if ¬ admission.bypass_limits ∧ tx.version ≠ TRUC_VERSION ∧ modified_fees < required_fee then
        .invalid .mempoolPolicy "required fee not met" (lessMessage modified_fees required_fee)
      else if ¬ admission.bypass_limits ∧ ¬ admission.package_feerates then
        checkFeeRate admission tx.vsize modified_fees tx.value_out
      else .accepted

theorem calculateHybridFee_eq (weight : Nat) (value_out : Int) (consolidation : Bool) :
    calculateHybridFee weight value_out consolidation = some ((weight % 2 ^ 32 : Nat) : Int) := by
  have size : (UInt32.ofNat weight).toNat = weight % 2 ^ 32 := UInt32.toNat_ofNat'
  have small : weight % 2 ^ 32 < 2 ^ 32 := Nat.mod_lt _ (by norm_num)
  unfold calculateHybridFee CFeeRate.getFee DEFAULT_MIN_RELAY_TX_FEE
  simp only [size]
  generalize weight % 2 ^ 32 = bytes at small
  have fits : inInt64 (1000 * (bytes : Int)) = true := by
    unfold inInt64
    rw [decide_eq_true_eq]
    omega
  have product : Binary64.ofInt (1000 * (bytes : Int)) = ((1000 * (bytes : Int) : Int) : ℚ) :=
    Binary64.ofInt_eq _ (by rw [abs_lt]; constructor <;> omega)
  have quotient : ((1000 * (bytes : Int) : Int) : ℚ) / 1000 = ((bytes : Int) : ℚ) := by
    push_cast
    ring
  have exact : Binary64.div (Binary64.ofInt (1000 * (bytes : Int))) 1000 = ((bytes : Int) : ℚ) := by
    unfold Binary64.div
    rw [product, quotient]
    exact Binary64.ofInt_eq _ (by rw [abs_lt]; constructor <;> omega)
  rw [checked64, if_pos fits, Option.map_some, exact, Int.ceil_intCast]
  rw [if_neg (fun both => both.2 both.1)]

def FeeSubject.chargedSize : Int := (tx.vsize % 2 ^ 32 : Nat)

theorem checkFeeRate_accepted_iff (fee : Int) :
    checkFeeRate admission tx.vsize fee tx.value_out = .accepted ↔
      ∃ reject, admission.poolMinFee.getFee (UInt32.ofNat tx.vsize) = some reject ∧
        max tx.chargedSize reject ≤ fee := by
  unfold checkFeeRate
  rw [calculateHybridFee_eq]
  cases admission.poolMinFee.getFee (UInt32.ofNat tx.vsize) with
  | none => simp
  | some reject => ?_
  have size : (0 : Int) ≤ tx.chargedSize := Int.natCast_nonneg _
  change (if reject > 0 ∧ fee < reject then _ else if fee < tx.chargedSize then _ else _) = _ ↔ _
  simp only [Option.some.injEq, exists_eq_left']
  split
  · simp only [reduceCtorEq, false_iff]
    omega
  split
  case isTrue belowSize =>
    simp only [reduceCtorEq, false_iff]
    omega
  case isFalse belowSize =>
    simp only [true_iff]
    omega

/-- All that a single transaction's fee must satisfy. The exemption of TRUC
transactions has no effect: `CheckFeeRate` makes the same demand. -/
theorem preChecksFee_accepted_iff (single : admission.package_feerates = false)
    (tx : FeeSubject) (base_fees modified_fees : Int) :
    preChecksFee admission tx base_fees modified_fees = .accepted ↔
      (admission.require_standard = true ∧ tx.dust = true → base_fees = 0 ∧ modified_fees = 0) ∧
        (admission.bypass_limits = true ∨
          ∃ reject, admission.poolMinFee.getFee (UInt32.ofNat tx.vsize) = some reject ∧
            max tx.chargedSize reject ≤ modified_fees) := by
  rw [← checkFeeRate_accepted_iff]
  unfold preChecksFee
  dsimp only
  rw [calculateHybridFee_eq]
  split
  case isTrue dusty =>
    simp only [reduceCtorEq, false_iff, not_and]
    intro free
    have := free ⟨dusty.1, dusty.2.2⟩
    omega
  case isFalse dusty =>
    have free : admission.require_standard = true ∧ tx.dust = true →
        base_fees = 0 ∧ modified_fees = 0 := by
      intro both
      by_contra paid
      exact dusty ⟨both.1, by omega, both.2⟩
    simp only [single]
    cases bypass : admission.bypass_limits with
    | true => simpa using free
    | false => ?_
    simp only [Bool.false_eq_true, not_false_eq_true, true_and, false_or]
    split_ifs with low
    · simp only [false_iff, not_and]
      intro _ accepted
      rcases (checkFeeRate_accepted_iff admission tx modified_fees).mp accepted
        with ⟨reject, _, enough⟩
      have short : modified_fees < tx.chargedSize := low.2
      omega
    · exact ⟨fun accepted => ⟨free, accepted⟩, fun both => both.2⟩

private theorem stdClamp_le_iff (value low high fee : Int) :
    (∃ clamped, stdClamp value low high = some clamped ∧ clamped ≤ fee) ↔
      low ≤ high ∧ low ≤ fee ∧ (high ≤ fee ∨ value ≤ fee) := by
  unfold stdClamp
  split
  case isTrue crossed =>
    simp only [reduceCtorEq, false_and, exists_false, false_iff]
    omega
  case isFalse crossed =>
    simp only [Option.some.injEq, exists_eq_left']
    split_ifs <;> omega

/-- A fee covers the installed model: it is at least the lower bound, and at least
the upper bound or the sum of the size fee and the value fee, halved for a
transaction with more than five inputs and at most one output. -/
def Covers (fee : Int) : Prop :=
  ∃ sizeFee valueFee, model.alpha.getFee (UInt32.ofNat tx.vsize) = some sizeFee ∧
    model.valueFee tx.value_out = some valueFee ∧ inInt64 (sizeFee + valueFee) = true ∧
    model.min_fee ≤ model.max_fee ∧ model.min_fee ≤ fee ∧
    (model.max_fee ≤ fee ∨
      (if tx.vinSize > 5 ∧ tx.voutSize ≤ 1 then (sizeFee + valueFee).tdiv 2
        else sizeFee + valueFee) ≤ fee)

theorem assemblerMinimum_le_iff (fee : Int) :
    (∃ minimum, assemblerMinimum model tx = some minimum ∧ minimum ≤ fee) ↔
      Covers model tx fee := by
  unfold assemblerMinimum calculateFee Covers isConsolidationTx
  cases model.alpha.getFee (UInt32.ofNat tx.vsize) with
  | none => simp
  | some sizeFee => ?_
  cases model.valueFee tx.value_out with
  | none => simp
  | some valueFee =>
    unfold checked64
    by_cases fits : inInt64 (sizeFee + valueFee) = true
    · simp only [Option.bind_eq_bind, Option.bind_some, fits, if_true, stdClamp_le_iff,
        Bool.and_eq_true, decide_eq_true_eq, Option.some.injEq, exists_and_left,
        exists_eq_left', true_and]
    · simp [fits]

/-- For one transaction and mempool: every fee that admission can accept covers the model. It
accepts every fee from the larger of the charged size and the pool's minimum on; a standard node
takes dust only at no fee, and a reorganisation bypasses the checks. -/
def AdmissionCovers : Prop :=
  if admission.require_standard = true ∧ tx.dust = true then
    (admission.bypass_limits = true ∨
      ∃ reject, admission.poolMinFee.getFee (UInt32.ofNat tx.vsize) = some reject ∧
        max tx.chargedSize reject ≤ 0) → Covers model tx 0
  else
    admission.bypass_limits = false ∧
      ∀ reject, admission.poolMinFee.getFee (UInt32.ofNat tx.vsize) = some reject →
        Covers model tx (max tx.chargedSize reject)

private theorem Covers.mono {model : FeeModel} {tx : FeeSubject} {less more : Int}
    (covers : Covers model tx less) (le : less ≤ more) : Covers model tx more := by
  rcases covers with ⟨sizeFee, valueFee, size, value, fits, ordered, low, enough⟩
  exact ⟨sizeFee, valueFee, size, value, fits, ordered, low.trans le,
    enough.imp (fun above => above.trans le) (fun above => above.trans le)⟩

private theorem exists_not_covers : ∃ fee, ¬ Covers model tx fee := by
  refine ⟨model.min_fee - 1, ?_⟩
  rintro ⟨sizeFee, valueFee, _, _, _, _, low, _⟩
  omega

/-- An admitted single transaction can be mined alone exactly when the smallest
admissible fee covers the installed model. -/
theorem preChecksFee_minable_iff (model : FeeModel) (admission : Admission)
    (single : admission.package_feerates = false) (tx : FeeSubject) : (∀ base_fees modified_fees,
        preChecksFee admission tx base_fees modified_fees = .accepted →
          ∃ minimum, assemblerMinimum model tx = some minimum ∧ minimum ≤ modified_fees) ↔
      AdmissionCovers model admission tx := by
  simp only [preChecksFee_accepted_iff admission single, assemblerMinimum_le_iff]
  unfold AdmissionCovers
  split_ifs with dusty
  · constructor
    · intro minable open_
      exact minable 0 0 ⟨fun _ => ⟨rfl, rfl⟩, open_⟩
    · rintro covers base_fees modified_fees ⟨free, open_⟩
      rcases free dusty with ⟨_, rfl⟩
      exact covers open_
  · constructor
    · intro minable
      refine ⟨?_, ?_⟩
      · rw [← Bool.not_eq_true]
        intro bypass
        rcases exists_not_covers model tx with ⟨fee, uncovered⟩
        exact uncovered (minable 0 fee ⟨fun both => absurd both dusty, .inl bypass⟩)
      · intro reject demanded
        exact minable 0 _ ⟨fun both => absurd both dusty, .inr ⟨reject, demanded, le_rfl⟩⟩
    · rintro ⟨limited, covers⟩ base_fees modified_fees ⟨_, bypass | ⟨reject, demanded, enough⟩⟩
      · rw [limited] at bypass
        cases bypass
      · exact (covers reject demanded).mono enough

def largePayment : FeeSubject :=
  { vsize := 200, value_out := 1000 * COIN, vinSize := 1, voutSize := 2,
    version := 2, dust := false }

def ordinaryAdmission : Admission :=
  { bypass_limits := false, package_feerates := false, require_standard := true, poolMinFee := ⟨0⟩ }

theorem preChecksFee_minable_small : ∃ minimum,
      assemblerMinimum defaultFeeModel { largePayment with value_out := COIN / 10 } =
        some minimum ∧ minimum ≤ 200 :=
  (preChecksFee_minable_iff defaultFeeModel ordinaryAdmission rfl
      { largePayment with value_out := COIN / 10 }).mpr
    ⟨rfl, fun _ _ =>
      (show Covers defaultFeeModel { largePayment with value_out := COIN / 10 } 200 from
        ⟨20, 50, by decide +kernel, by decide +kernel, by decide, by decide, by decide,
          .inr (by decide)⟩).mono (le_max_left _ _)⟩
    200 200 (by decide +kernel)

/-- With the default model a fee of 200 is admitted and 500020 is demanded. -/
theorem preChecksFee_unminable : preChecksFee ordinaryAdmission largePayment 200 200 = .accepted ∧
      assemblerMinimum defaultFeeModel largePayment = some 500020 := by
  decide +kernel

end Adonai.Policy
