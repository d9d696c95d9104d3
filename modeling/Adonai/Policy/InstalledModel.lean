/-
The two writers of the installed fee model, and what the model they leave is good for.

`ApplyArgsManFeeModel` and `setfeemodel` overwrite the fields they are given. Neither compares the
bounds or looks at the sign of `beta`. How text becomes a double, absent when it is not finite, is
a parameter.
-/

import Adonai.Foundation.Program
import Adonai.Policy.Fees
import Adonai.Util.Money

namespace Adonai.Policy

open Binary64 (ofInt round_nonneg round_mono llround llround_mono)

structure FeeModelArgs where
  feemodelalpha : Option (List Char)
  feemodelbeta : Option (List Char)
  feemodelmin : Option (List Char)
  feemodelmax : Option (List Char)
  deriving DecidableEq, Repr

/-- Text to double: nothing when the conversion fails. -/
abbrev ReadDouble := List Char → Option (Option ℚ)

def amountErrMsg (optname : String) (strValue : List Char) : String :=
  "Invalid amount for -" ++ optname ++ "=<amount>: '" ++ String.ofList strValue ++ "'"

def readAmount (optname : String) (arg : Option (List Char)) (current : Int) : Except String Int :=
  match arg with
  | none => .ok current
  | some text =>
    match Util.parseMoney text with
    | some parsed => .ok parsed
    | none => .error (amountErrMsg optname text)

def readBeta (stod : ReadDouble) (arg : Option (List Char)) (current : Option ℚ) :
    Except String (Option ℚ) :=
  match arg with
  | none => .ok current
  | some text =>
    match stod text with
    | some parsed => .ok parsed
    | none => .error "Invalid -feemodelbeta, must be a number"

def applyArgsManFeeModel (stod : ReadDouble) (args : FeeModelArgs) (model : FeeModel) :
    Except String FeeModel := do
  let alpha ← readAmount "feemodelalpha" args.feemodelalpha model.alpha.nSatoshisPerK
  let beta ← readBeta stod args.feemodelbeta model.beta
  let min_fee ← readAmount "feemodelmin" args.feemodelmin model.min_fee
  let max_fee ← readAmount "feemodelmax" args.feemodelmax model.max_fee
  pure { alpha := ⟨alpha⟩, beta := beta, min_fee := min_fee, max_fee := max_fee }

inductive UniValue where
  | null
  | bool
  | obj
  | arr
  | str (val : List Char)
  | num (val : List Char)
  deriving DecidableEq, Repr

def UniValue.typeName : UniValue → String
  | .null => "null"
  | .bool => "bool"
  | .obj => "object"
  | .arr => "array"
  | .str _ => "string"
  | .num _ => "number"

/-- An error of a call; `wrongType` has the position, name and type of each argument that is
not a number. -/
inductive RpcError where
  | wrongType (mismatches : List (Nat × String × String))
  | failed (text : String)
  deriving DecidableEq, Repr

structure FeeModelParams where
  alpha : UniValue
  beta : UniValue
  min : UniValue
  max : UniValue
  deriving DecidableEq, Repr

def FeeModelParams.named (params : FeeModelParams) : List (Nat × String × UniValue) :=
  [(1, "alpha", params.alpha), (2, "beta", params.beta), (3, "min", params.min),
    (4, "max", params.max)]

/-- The arguments that are given and not numbers. -/
def FeeModelParams.mismatches (params : FeeModelParams) : List (Nat × String × String) :=
  params.named.filterMap fun (position, name, value) =>
    match value with
    | .null => none
    | .num _ => none
    | other => some (position, name, other.typeName)

def amountFromValue (value : UniValue) : Except RpcError Int :=
  match value with
  | .num val | .str val =>
    match Util.parseFixedPoint val 8 with
    | none => .error (.failed "Invalid amount")
    | some amount =>
      if moneyRange amount then .ok amount else .error (.failed "Amount out of range")
  | _ => .error (.failed "Amount is not a number or string")

def givenAmount (value : UniValue) (current : Int) : Except RpcError Int :=
  if value = .null then .ok current else amountFromValue value

def getReal (parseDouble : ReadDouble) (value : UniValue) : Except RpcError (Option ℚ) :=
  match value with
  | .num val =>
    match parseDouble val with
    | some real => .ok real
    | none => .error (.failed "JSON double out of range")
  | other =>
    .error (.failed ("JSON value of type " ++ other.typeName ++ " is not of expected type number"))

def givenReal (parseDouble : ReadDouble) (value : UniValue) (current : Option ℚ) :
    Except RpcError (Option ℚ) :=
  if value = .null then .ok current else getReal parseDouble value

def setfeemodel (isTestChain : Bool) (parseDouble : ReadDouble) (params : FeeModelParams)
    (g_fee_model : FeeModel) : Except RpcError FeeModel :=
  if params.mismatches ≠ [] then .error (.wrongType params.mismatches)
  else if ¬isTestChain then
    .error (.failed "setfeemodel is for testing only (-testnet or -regtest)")
  else do
    let alpha ← givenAmount params.alpha g_fee_model.alpha.nSatoshisPerK
    let beta ← givenReal parseDouble params.beta g_fee_model.beta
    let min_fee ← givenAmount params.min g_fee_model.min_fee
    let max_fee ← givenAmount params.max g_fee_model.max_fee
    pure { alpha := ⟨alpha⟩, beta := beta, min_fee := min_fee, max_fee := max_fee }

def callSetfeemodel (isTestChain : Bool) (parseDouble : ReadDouble) (model : FeeModel)
    (params : FeeModelParams) : FeeModel :=
  match setfeemodel isTestChain parseDouble params model with
  | .ok installed => installed
  | .error _ => model

def callsSetfeemodel (isTestChain : Bool) (parseDouble : ReadDouble) (model : FeeModel)
    (calls : List FeeModelParams) : FeeModel :=
  calls.foldl (callSetfeemodel isTestChain parseDouble) model

structure AmountsInRange (model : FeeModel) : Prop where
  alpha : moneyRange model.alpha.nSatoshisPerK = true
  min : moneyRange model.min_fee = true
  max : moneyRange model.max_fee = true

private theorem defaultFeeModel_inRange : AmountsInRange defaultFeeModel := by
  constructor <;> decide

/-! ### The values that are given -/

/-- A model with the fields overwritten for which there is a value. -/
def FeeModel.given (model : FeeModel) (alpha : Option Int) (beta : Option (Option ℚ))
    (min_fee max_fee : Option Int) : FeeModel where
  alpha := ⟨alpha.getD model.alpha.nSatoshisPerK⟩
  beta := beta.getD model.beta
  min_fee := min_fee.getD model.min_fee
  max_fee := max_fee.getD model.max_fee

def amountOf (value : UniValue) : Option Int := (amountFromValue value).toOption

def realOf (parseDouble : ReadDouble) (value : UniValue) : Option (Option ℚ) :=
  (getReal parseDouble value).toOption

/-- The call returns: on a test chain, each argument is left out or a number that can be read. -/
def callReturns (isTestChain : Bool) (parseDouble : ReadDouble) (params : FeeModelParams) : Bool :=
  isTestChain && params.mismatches = [] &&
    [params.alpha, params.min, params.max].all
      (fun value => value = .null || (amountOf value).isSome) &&
    (params.beta = .null || (realOf parseDouble params.beta).isSome)

private theorem givenAmount_eq_ok_iff {value : UniValue} {current amount : Int} :
    givenAmount value current = .ok amount ↔
      (value = .null ∨ (amountOf value).isSome) ∧ (amountOf value).getD current = amount := by
  unfold givenAmount amountOf
  split
  case isTrue isNull => simp [isNull, amountFromValue, Except.toOption]
  case isFalse isGiven => cases amountFromValue value <;> simp [Except.toOption, isGiven]

private theorem givenReal_eq_ok_iff {parseDouble : ReadDouble} {value : UniValue}
    {current real : Option ℚ} :
    givenReal parseDouble value current = .ok real ↔
      (value = .null ∨ (realOf parseDouble value).isSome) ∧
        (realOf parseDouble value).getD current = real := by
  unfold givenReal realOf
  split
  case isTrue isNull => simp [isNull, getReal, Except.toOption]
  case isFalse isGiven => cases getReal parseDouble value <;> simp [Except.toOption, isGiven]

variable {model : FeeModel} {isTestChain : Bool} {parseDouble : ReadDouble}

theorem setfeemodel_eq_ok_iff {params : FeeModelParams} {installed : FeeModel} :
    setfeemodel isTestChain parseDouble params model = .ok installed ↔
      callReturns isTestChain parseDouble params = true ∧
        model.given (amountOf params.alpha) (realOf parseDouble params.beta)
          (amountOf params.min) (amountOf params.max) = installed := by
  unfold setfeemodel callReturns
  split
  case isTrue mismatched => simp [mismatched]
  case isFalse matching =>
    split
    case isTrue main => simp [main]
    case isFalse test =>
      simp only [Program.bind_eq_ok_iff, givenAmount_eq_ok_iff, givenReal_eq_ok_iff]
      constructor
      · rintro ⟨_, ⟨readsAlpha, rfl⟩, _, ⟨readsBeta, rfl⟩, _, ⟨readsMin, rfl⟩, _, ⟨readsMax, rfl⟩,
          ⟨⟩⟩
        simp_all [FeeModel.given]
      · rintro ⟨returns, rfl⟩
        simp only [Bool.and_eq_true, List.all_cons, Bool.or_eq_true, decide_eq_true_eq] at returns
        obtain ⟨⟨_, readsAlpha, readsMin, readsMax, _⟩, readsBeta⟩ := returns
        exact ⟨_, ⟨readsAlpha, rfl⟩, _, ⟨readsBeta, rfl⟩, _, ⟨readsMin, rfl⟩, _, ⟨readsMax, rfl⟩,
          rfl⟩

theorem callSetfeemodel_eq (params : FeeModelParams) :
    callSetfeemodel isTestChain parseDouble model params =
      if callReturns isTestChain parseDouble params then
        model.given (amountOf params.alpha) (realOf parseDouble params.beta)
          (amountOf params.min) (amountOf params.max)
      else model := by
  unfold callSetfeemodel
  cases sets : setfeemodel isTestChain parseDouble params model with
  | ok installed =>
    obtain ⟨returns, isInstalled⟩ := setfeemodel_eq_ok_iff.mp sets
    rw [if_pos returns, isInstalled]
  | error _ =>
    rw [if_neg]
    intro returns
    rw [setfeemodel_eq_ok_iff.mpr ⟨returns, rfl⟩] at sets
    cases sets

theorem applyArgsManFeeModel_eq {stod : ReadDouble} {args : FeeModelArgs} {started : FeeModel}
    (applies : applyArgsManFeeModel stod args model = .ok started) : started =
      model.given (args.feemodelalpha.bind Util.parseMoney) (args.feemodelbeta.bind stod)
        (args.feemodelmin.bind Util.parseMoney) (args.feemodelmax.bind Util.parseMoney) := by
  have amount : ∀ {optname arg current read}, readAmount optname arg current = .ok read →
      read = (arg.bind Util.parseMoney).getD current := by
    intro optname arg current read reads
    cases arg with
    | none => exact (Except.ok.inj reads).symm
    | some text => cases parses : Util.parseMoney text <;> simp_all [readAmount]
  have real : ∀ {arg current read}, readBeta stod arg current = .ok read →
      read = (arg.bind stod).getD current := by
    intro arg current read reads
    cases arg with
    | none => exact (Except.ok.inj reads).symm
    | some text => cases parses : stod text <;> simp_all [readBeta]
  obtain ⟨alpha, readsAlpha, applies⟩ := Program.exists_of_bind_ok applies
  obtain ⟨beta, readsBeta, applies⟩ := Program.exists_of_bind_ok applies
  obtain ⟨min_fee, readsMin, applies⟩ := Program.exists_of_bind_ok applies
  obtain ⟨max_fee, readsMax, applies⟩ := Program.exists_of_bind_ok applies
  cases applies
  rw [amount readsAlpha, real readsBeta, amount readsMin, amount readsMax]
  rfl

theorem AmountsInRange.given {alpha min_fee max_fee : Option Int} (before : AmountsInRange model)
    (alphaIn : ∀ amount ∈ alpha, moneyRange amount = true)
    (minIn : ∀ amount ∈ min_fee, moneyRange amount = true)
    (maxIn : ∀ amount ∈ max_fee, moneyRange amount = true) (beta : Option (Option ℚ)) :
    AmountsInRange (model.given alpha beta min_fee max_fee) := by
  have each : ∀ {value : Option Int} {current : Int}, moneyRange current = true →
      (∀ amount ∈ value, moneyRange amount = true) → moneyRange (value.getD current) = true := by
    intro value current kept inRange
    cases value with
    | none => exact kept
    | some amount => exact inRange amount rfl
  exact ⟨each before.alpha alphaIn, each before.min minIn, each before.max maxIn⟩

theorem amountOf_inRange {value : UniValue} (amount : Int) (isAmount : amount ∈ amountOf value) :
    moneyRange amount = true := by
  have reads := Program.ok_of_toOption isAmount
  unfold amountFromValue at reads
  split at reads
  case h_3 => cases reads
  case h_1 | h_2 =>
    split at reads
    · cases reads
    · split at reads
      case isTrue inRange =>
        cases reads
        exact inRange
      case isFalse => cases reads

theorem applyArgsManFeeModel_inRange {stod : ReadDouble} {args : FeeModelArgs}
    {installed : FeeModel} (before : AmountsInRange model)
    (applies : applyArgsManFeeModel stod args model = .ok installed) :
    AmountsInRange installed := by
  have parsed {text : Option (List Char)} (amount : Int)
      (isAmount : amount ∈ text.bind Util.parseMoney) : moneyRange amount = true := by
    obtain ⟨_, _, parses⟩ := Option.bind_eq_some_iff.mp isAmount
    exact Util.moneyRange_of_parseMoney parses
  rw [applyArgsManFeeModel_eq applies]
  exact before.given parsed parsed parsed _

theorem callsSetfeemodel_inRange (before : AmountsInRange model) (calls : List FeeModelParams) :
    AmountsInRange (callsSetfeemodel isTestChain parseDouble model calls) := by
  induction calls generalizing model with
  | nil => exact before
  | cons params calls ih =>
    apply ih
    rw [callSetfeemodel_eq]
    split
    · exact before.given amountOf_inRange amountOf_inRange amountOf_inRange _
    · exact before

/-! ### Fees -/

variable {value small large : Int}

theorem checked64_of_le (nonneg : 0 ≤ small) (le : small ≤ large)
    (fits : checked64 large = some value) : checked64 small = some small := by
  obtain ⟨_, _, bound⟩ := checked64_eq_some_iff.mp fits
  exact checked64_eq_some_iff.mpr ⟨rfl, by omega, by omega⟩

def perThousand (product : Int) : Int := ⌈Binary64.div (ofInt product) 1000⌉

theorem perThousand_nonneg {product : Int} (nonneg : 0 ≤ product) : 0 ≤ perThousand product := by
  have converted : 0 ≤ ofInt product := round_nonneg (by exact_mod_cast nonneg)
  have quotient : 0 ≤ Binary64.div (ofInt product) 1000 :=
    round_nonneg (div_nonneg converted (by norm_num))
  exact Int.ceil_nonneg quotient

theorem perThousand_mono (nonneg : 0 ≤ small) (le : small ≤ large) :
    perThousand small ≤ perThousand large := by
  have converted : 0 ≤ ofInt small := round_nonneg (by exact_mod_cast nonneg)
  have ordered : ofInt small ≤ ofInt large :=
    round_mono (by exact_mod_cast nonneg) (by exact_mod_cast le)
  exact Int.ceil_le_ceil (round_mono (div_nonneg converted (by norm_num))
    (div_le_div_of_nonneg_right ordered (by norm_num)))

theorem getFee_eq {rate : CFeeRate} (nonneg : 0 ≤ rate.nSatoshisPerK) (size : UInt32) :
    rate.getFee size = (checked64 (rate.nSatoshisPerK * size.toNat)).map fun product =>
      if perThousand product = 0 ∧ size.toNat ≠ 0 ∧ 0 < rate.nSatoshisPerK then 1
      else perThousand product := by
  apply congrArg (fun charge => Option.map charge _)
  funext product
  change (if perThousand product = 0 ∧ (size.toNat : Int) ≠ 0 then _ else _) = _
  split
  case isTrue zero =>
    split
    case isTrue positive =>
      rw [if_pos ⟨zero.1, by omega, positive⟩]
    case isFalse positive =>
      rw [if_neg (by omega), if_neg (fun all => positive all.2.2)]
      rfl
  case isFalse zero =>
    rw [if_neg (fun all => zero ⟨all.1, by omega⟩)]
    rfl

private theorem getFee_largest {rate : CFeeRate} (nonneg : 0 ≤ rate.nSatoshisPerK) :
    rate.getFee (UInt32.ofNat (2 ^ 32 - 1)) =
      (checked64 (rate.nSatoshisPerK * (2 ^ 32 - 1))).map perThousand := by
  rw [getFee_eq nonneg]
  change Option.map _ (checked64 (rate.nSatoshisPerK * (2 ^ 32 - 1))) = _
  unfold checked64
  split
  case isFalse => rfl
  case isTrue =>
    refine congrArg some (if_neg ?_)
    rintro ⟨free, _, charged⟩
    have least := perThousand_mono (by norm_num : (0 : Int) ≤ 1)
      (by omega : 1 ≤ rate.nSatoshisPerK * (2 ^ 32 - 1))
    have isOne : perThousand 1 = 1 := by decide +kernel
    omega

theorem getFee_mono {rate : CFeeRate} (nonneg : 0 ≤ rate.nSatoshisPerK) {small large : UInt32}
    (ordered : small.toNat ≤ large.toNat) {fee : Int} (charges : rate.getFee large = some fee) :
    ∃ less, rate.getFee small = some less ∧ 0 ≤ less ∧ less ≤ fee := by
  have products : rate.nSatoshisPerK * small.toNat ≤ rate.nSatoshisPerK * large.toNat :=
    mul_le_mul_of_nonneg_left (by exact_mod_cast ordered) nonneg
  have product : 0 ≤ rate.nSatoshisPerK * small.toNat := mul_nonneg nonneg (Int.natCast_nonneg _)
  rw [getFee_eq nonneg] at charges ⊢
  obtain ⟨_, fits, isFee⟩ := Option.map_eq_some_iff.mp charges
  have same := checked64_of_le (product.trans products) le_rfl fits
  rw [same] at fits
  cases fits
  rw [checked64_of_le product products same]
  refine ⟨_, rfl, ?_, ?_⟩
  · have := perThousand_nonneg product
    dsimp only
    split_ifs <;> omega
  · have quotients := perThousand_mono product products
    dsimp only
    split_ifs <;> omega

theorem valueFee_mono {beta : ℚ} (finite : model.beta = some beta) (nonneg : 0 ≤ beta)
    (notNegative : 0 ≤ small) (ordered : small ≤ large) {fee : Int}
    (charges : model.valueFee large = some fee) :
    ∃ less, model.valueFee small = some less ∧ 0 ≤ less ∧ less ≤ fee := by
  unfold FeeModel.valueFee at charges ⊢
  rw [finite, Option.bind_some] at charges ⊢
  have converted : 0 ≤ ofInt small := round_nonneg (by exact_mod_cast notNegative)
  have conversions : ofInt small ≤ ofInt large :=
    round_mono (by exact_mod_cast notNegative) (by exact_mod_cast ordered)
  have product : 0 ≤ Binary64.mul beta (ofInt small) := round_nonneg (mul_nonneg nonneg converted)
  have products : Binary64.mul beta (ofInt small) ≤ Binary64.mul beta (ofInt large) :=
    round_mono (mul_nonneg nonneg converted) (mul_le_mul_of_nonneg_left conversions nonneg)
  have rounded := llround_mono product
  have zero : llround 0 = 0 := by decide +kernel
  rw [zero] at rounded
  have fits := checked64_of_le rounded (llround_mono products) charges
  have same := checked64_of_le (rounded.trans (llround_mono products)) le_rfl charges
  rw [charges] at same
  exact ⟨_, fits, rounded, (Option.some.inj same) ▸ llround_mono products⟩

def halved (consolidation : Bool) (fee : Int) : Int := if consolidation then fee.tdiv 2 else fee

private theorem stdClamp_eq {low high : Int} (ordered : low ≤ high) (value : Int) :
    stdClamp value low high = some (max low (min value high)) := by
  unfold stdClamp
  rw [if_neg (Int.not_lt.mpr ordered)]
  congr 1
  split_ifs <;> omega

theorem calculateFee_eq {size : Nat} {sizeFee valueFee : Int}
    (ordered : model.min_fee ≤ model.max_fee)
    (chargesSize : model.alpha.getFee (UInt32.ofNat size) = some sizeFee)
    (chargesValue : model.valueFee value = some valueFee)
    (fits : checked64 (sizeFee + valueFee) = some (sizeFee + valueFee)) (consolidation : Bool) :
    calculateFee model size value consolidation =
      some (max model.min_fee
        (min (halved consolidation (sizeFee + valueFee)) model.max_fee)) := by
  simp only [calculateFee, chargesSize, chargesValue, fits, Option.bind_eq_bind, Option.bind_some]
  exact stdClamp_eq ordered _

/-! ### Sound models -/

/-- Transaction sizes that `GetFee` can be given, and amounts. -/
def Chargeable (size : Nat) (value : Int) : Prop := size < 2 ^ 32 ∧ moneyRange value = true

/-- The bounds are ordered, `beta` is not negative, and the fee is what a fee should be. -/
structure Sound (model : FeeModel) : Prop where
  min_nonneg : 0 ≤ model.min_fee
  ordered : model.min_fee ≤ model.max_fee
  beta_nonneg : ∃ beta, model.beta = some beta ∧ 0 ≤ beta
  bounded : ∀ size value consolidation, Chargeable size value →
    ∃ fee, calculateFee model size value consolidation = some fee ∧
      model.min_fee ≤ fee ∧ fee ≤ model.max_fee
  size_mono : ∀ size size' value consolidation fee fee', Chargeable size value →
    Chargeable size' value → size ≤ size' →
    calculateFee model size value consolidation = some fee →
    calculateFee model size' value consolidation = some fee' → fee ≤ fee'
  value_mono : ∀ size value value' consolidation fee fee', Chargeable size value →
    Chargeable size value' → value ≤ value' →
    calculateFee model size value consolidation = some fee →
    calculateFee model size value' consolidation = some fee' → fee ≤ fee'
  consolidation_le : ∀ size value fee fee', Chargeable size value →
    calculateFee model size value true = some fee →
    calculateFee model size value false = some fee' → fee ≤ fee'

/-- What neither writer checks of its values: the bounds are ordered, `beta` is a number that is
not negative, and 64 bits hold the charge for the largest size and amount. -/
structure Checked (alpha : Int) (beta : Option ℚ) (min_fee max_fee : Int) : Prop where
  ordered : min_fee ≤ max_fee
  chargeable : ∃ real, beta = some real ∧ 0 ≤ real ∧ alpha * (2 ^ 32 - 1) < 2 ^ 63 ∧
    perThousand (alpha * (2 ^ 32 - 1)) + llround (Binary64.mul real (ofInt MAX_MONEY)) < 2 ^ 63

private theorem charges_largest_iff {real : ℚ} (inRange : AmountsInRange model)
    (finite : model.beta = some real) (nonneg : 0 ≤ real) :
    (∃ sizeFee valueFee, model.alpha.getFee (UInt32.ofNat (2 ^ 32 - 1)) = some sizeFee ∧
      model.valueFee MAX_MONEY = some valueFee ∧
      checked64 (sizeFee + valueFee) = some (sizeFee + valueFee)) ↔
    model.alpha.nSatoshisPerK * (2 ^ 32 - 1) < 2 ^ 63 ∧
      perThousand (model.alpha.nSatoshisPerK * (2 ^ 32 - 1)) +
        llround (Binary64.mul real (ofInt MAX_MONEY)) < 2 ^ 63 := by
  have alpha := ((moneyRange_iff _).mp inRange.alpha).1
  have charged := perThousand_nonneg (by omega : 0 ≤ model.alpha.nSatoshisPerK * (2 ^ 32 - 1))
  have product : 0 ≤ Binary64.mul real (ofInt MAX_MONEY) :=
    round_nonneg (mul_nonneg nonneg (round_nonneg (by norm_num [MAX_MONEY, COIN])))
  have rounded := llround_mono product
  have zero : llround 0 = 0 := by decide +kernel
  rw [zero] at rounded
  simp only [getFee_largest alpha, FeeModel.valueFee, finite, Option.bind_some,
    Option.map_eq_some_iff, checked64_eq_some_iff]
  constructor
  · rintro ⟨_, _, ⟨_, ⟨rfl, _, small⟩, rfl⟩, ⟨rfl, _⟩, _, _, fits⟩
    exact ⟨small, fits⟩
  · rintro ⟨small, fits⟩
    exact ⟨_, _, ⟨_, ⟨rfl, by omega, small⟩, rfl⟩, ⟨rfl, by omega, by omega⟩, trivial, by omega,
      fits⟩

variable (checked : Checked model.alpha.nSatoshisPerK model.beta model.min_fee model.max_fee)

include checked in
theorem Checked.charges_le (inRange : AmountsInRange model)
    {size size' : Nat} {value' : Int} (chargeable : Chargeable size value)
    (chargeable' : Chargeable size' value') (sizes : size ≤ size') (values : value ≤ value') :
    ∃ charge charge', 0 ≤ charge ∧ charge ≤ charge' ∧ ∀ consolidation,
      calculateFee model size value consolidation =
        some (max model.min_fee (min (halved consolidation charge) model.max_fee)) ∧
      calculateFee model size' value' consolidation =
        some (max model.min_fee (min (halved consolidation charge') model.max_fee)) := by
  obtain ⟨beta, finite, nonneg, largest⟩ := checked.chargeable
  obtain ⟨topSize, topValue, chargesSize, chargesValue, fits⟩ :=
    (charges_largest_iff inRange finite nonneg).mpr largest
  have alpha := ((moneyRange_iff _).mp inRange.alpha).1
  have valueRange := (moneyRange_iff _).mp chargeable.2
  have valueRange' := (moneyRange_iff _).mp chargeable'.2
  have toNat : ∀ {size : Nat}, size < 2 ^ 32 → (UInt32.ofNat size).toNat = size := by
    intro size small
    rw [UInt32.toNat_ofNat', Nat.mod_eq_of_lt small]
  have small := chargeable.1
  have small' := chargeable'.1
  obtain ⟨sizeFee', isSize', sizeNonneg', sizeLe'⟩ := getFee_mono alpha
    (show (UInt32.ofNat size').toNat ≤ (UInt32.ofNat (2 ^ 32 - 1)).toNat by
      rw [toNat small', toNat (by norm_num)]
      omega) chargesSize
  obtain ⟨sizeFee, isSize, sizeNonneg, sizeLe⟩ := getFee_mono alpha
    (show (UInt32.ofNat size).toNat ≤ (UInt32.ofNat size').toNat by
      rw [toNat small, toNat small']
      exact sizes) isSize'
  obtain ⟨valueFee', isValue', valueNonneg', valueLe'⟩ :=
    valueFee_mono finite nonneg valueRange'.1 valueRange'.2 chargesValue
  obtain ⟨valueFee, isValue, valueNonneg, valueLe⟩ :=
    valueFee_mono finite nonneg valueRange.1 values isValue'
  have fits' : checked64 (sizeFee' + valueFee') = some (sizeFee' + valueFee') :=
    checked64_of_le (by omega) (by omega) fits
  have fitsLess : checked64 (sizeFee + valueFee) = some (sizeFee + valueFee) :=
    checked64_of_le (by omega) (by omega) fits'
  refine ⟨sizeFee + valueFee, sizeFee' + valueFee', by omega, by omega, ?_⟩
  intro consolidation
  exact ⟨calculateFee_eq checked.ordered isSize isValue fitsLess consolidation,
    calculateFee_eq checked.ordered isSize' isValue' fits' consolidation⟩

theorem halved_mono (consolidation : Bool) (nonneg : 0 ≤ small) (ordered : small ≤ large) :
    halved consolidation small ≤ halved consolidation large := by
  unfold halved
  split
  · rw [Int.tdiv_eq_ediv_of_nonneg nonneg, Int.tdiv_eq_ediv_of_nonneg (nonneg.trans ordered)]
    omega
  · exact ordered

private theorem halved_le {charge : Int} (nonneg : 0 ≤ charge) :
    halved true charge ≤ halved false charge := by
  unfold halved
  rw [if_pos rfl, Int.tdiv_eq_ediv_of_nonneg nonneg]
  omega

include checked in
theorem Checked.fee_mono (inRange : AmountsInRange model)
    {size size' : Nat} {value' : Int} (chargeable : Chargeable size value)
    (chargeable' : Chargeable size' value') (sizes : size ≤ size') (values : value ≤ value')
    {consolidation : Bool} {fee fee' : Int}
    (isFee : calculateFee model size value consolidation = some fee)
    (isFee' : calculateFee model size' value' consolidation = some fee') : fee ≤ fee' := by
  obtain ⟨charge, charge', nonneg, ordered, fees⟩ :=
    checked.charges_le inRange chargeable chargeable' sizes values
  rw [(fees consolidation).1] at isFee
  rw [(fees consolidation).2] at isFee'
  cases isFee
  cases isFee'
  have charges := halved_mono consolidation nonneg ordered
  omega

theorem sound_iff_checked (inRange : AmountsInRange model) : Sound model ↔
    Checked model.alpha.nSatoshisPerK model.beta model.min_fee model.max_fee := by
  constructor
  · intro sound
    obtain ⟨real, finite, nonneg⟩ := sound.beta_nonneg
    refine ⟨sound.ordered, real, finite, nonneg,
      (charges_largest_iff inRange finite nonneg).mp ?_⟩
    have largest : Chargeable (2 ^ 32 - 1) MAX_MONEY := ⟨by norm_num, by decide⟩
    obtain ⟨fee, isFee, _⟩ := sound.bounded (2 ^ 32 - 1) MAX_MONEY false largest
    unfold calculateFee at isFee
    cases chargesSize : model.alpha.getFee (UInt32.ofNat (2 ^ 32 - 1)) with
    | none =>
      rw [chargesSize] at isFee
      cases isFee
    | some sizeFee => ?_
    cases chargesValue : model.valueFee MAX_MONEY with
    | none =>
      rw [chargesSize, chargesValue] at isFee
      cases isFee
    | some valueFee => ?_
    rw [chargesSize, chargesValue] at isFee
    refine ⟨sizeFee, valueFee, rfl, rfl, ?_⟩
    unfold checked64 at isFee ⊢
    by_cases fits : inInt64 (sizeFee + valueFee) = true
    · rw [if_pos fits]
    · simp only [Option.bind_eq_bind, Option.bind_some, if_neg fits] at isFee
      cases isFee
  · intro checked
    have ordered := checked.ordered
    constructor
    case min_nonneg => exact ((moneyRange_iff _).mp inRange.min).1
    case ordered => exact ordered
    case beta_nonneg =>
      obtain ⟨real, finite, nonneg, _⟩ := checked.chargeable
      exact ⟨real, finite, nonneg⟩
    case bounded =>
      intro size value consolidation chargeable
      obtain ⟨charge, _, _, _, fees⟩ :=
        checked.charges_le inRange chargeable chargeable le_rfl le_rfl
      exact ⟨_, (fees consolidation).1, by omega, by omega⟩
    case size_mono =>
      intro size size' value consolidation fee fee' chargeable chargeable' sizes
      exact checked.fee_mono inRange chargeable chargeable' sizes le_rfl
    case value_mono =>
      intro size value value' consolidation fee fee' chargeable chargeable' values
      exact checked.fee_mono inRange chargeable chargeable' le_rfl values
    case consolidation_le =>
      intro size value fee fee' chargeable isFee isFee'
      obtain ⟨charge, _, nonneg, _, fees⟩ :=
        checked.charges_le inRange chargeable chargeable le_rfl le_rfl
      rw [(fees true).1] at isFee
      rw [(fees false).1] at isFee'
      cases isFee
      cases isFee'
      have charges := halved_le nonneg
      omega

/-- The last of the values that are present, or the default. -/
def lastGiven {α : Type} (default : α) (values : List (Option α)) : α :=
  (values.filterMap id).getLast?.getD default

private theorem lastGiven_concat {α : Type} (default : α) (values : List (Option α))
    (value : Option α) :
    lastGiven default (values ++ [value]) = value.getD (lastGiven default values) := by
  cases value <;> simp [lastGiven]

section

/-- One more call changes the fields that it gives, if it returns. -/
private theorem lastGiven_calls {α : Type} (default : α) (text : Option α)
    (field : FeeModelParams → Option α) (returns : FeeModelParams → Bool)
    (calls : List FeeModelParams) (params : FeeModelParams) :
    lastGiven default (text :: ((calls ++ [params]).filter returns).map field) =
      if returns params then
        (field params).getD (lastGiven default (text :: (calls.filter returns).map field))
      else lastGiven default (text :: (calls.filter returns).map field) := by
  split
  case isTrue accepted =>
    rw [List.filter_append, List.filter_singleton, accepted, cond_true, List.map_append,
      ← List.cons_append]
    exact lastGiven_concat _ _ _
  case isFalse refused =>
    simp [refused]

variable {stod : ReadDouble} {args : FeeModelArgs} {started : FeeModel}
  (applies : applyArgsManFeeModel stod args defaultFeeModel = .ok started)

include applies

/-- Each field has the value that was given last. -/
theorem callsSetfeemodel_eq (calls : List FeeModelParams) :
    let returned := calls.filter (callReturns isTestChain parseDouble)
    callsSetfeemodel isTestChain parseDouble started calls =
      { alpha := ⟨lastGiven defaultFeeModel.alpha.nSatoshisPerK
          (args.feemodelalpha.bind Util.parseMoney :: returned.map (amountOf ·.alpha))⟩
        beta := lastGiven defaultFeeModel.beta
          (args.feemodelbeta.bind stod :: returned.map (realOf parseDouble ·.beta))
        min_fee := lastGiven defaultFeeModel.min_fee
          (args.feemodelmin.bind Util.parseMoney :: returned.map (amountOf ·.min))
        max_fee := lastGiven defaultFeeModel.max_fee
          (args.feemodelmax.bind Util.parseMoney :: returned.map (amountOf ·.max)) } := by
  induction calls using List.reverseRecOn with
  | nil =>
    rw [applyArgsManFeeModel_eq applies]
    have single : ∀ {α : Type} (default : α) text, lastGiven default [text] = text.getD default :=
      fun default text => lastGiven_concat default [] text
    simp only [callsSetfeemodel, List.foldl_nil, List.filter_nil, List.map_nil, single,
      FeeModel.given]
  | append_singleton calls params ih =>
    unfold callsSetfeemodel at ih ⊢
    rw [List.foldl_append, ih]
    dsimp only [List.foldl_cons, List.foldl_nil]
    rw [callSetfeemodel_eq, FeeModel.given]
    simp only [lastGiven_calls]
    split <;> rfl

/-- The installed model is sound exactly when no one gave values that a writer should have
refused: per field, the value of the last call that returned and gave it, else that of the command
line, else the default. -/
theorem installed_sound_iff (calls : List FeeModelParams) :
    let returned := calls.filter (callReturns isTestChain parseDouble)
    Sound (callsSetfeemodel isTestChain parseDouble started calls) ↔ Checked
      (lastGiven defaultFeeModel.alpha.nSatoshisPerK
        (args.feemodelalpha.bind Util.parseMoney :: returned.map (amountOf ·.alpha)))
      (lastGiven defaultFeeModel.beta
        (args.feemodelbeta.bind stod :: returned.map (realOf parseDouble ·.beta)))
      (lastGiven defaultFeeModel.min_fee
        (args.feemodelmin.bind Util.parseMoney :: returned.map (amountOf ·.min)))
      (lastGiven defaultFeeModel.max_fee
        (args.feemodelmax.bind Util.parseMoney :: returned.map (amountOf ·.max))) := by
  have inRange := @callsSetfeemodel_inRange _ isTestChain parseDouble
    (applyArgsManFeeModel_inRange defaultFeeModel_inRange applies) calls
  rw [callsSetfeemodel_eq applies] at inRange ⊢
  exact sound_iff_checked inRange

end

/-- An upper bound on the command line, then a call for the lower bound and one that fails. -/
theorem installed_sound_given :
    let args : FeeModelArgs := ⟨none, none, none, some "0.02".toList⟩
    let call : FeeModelParams := ⟨.null, .null, .num "0.015".toList, .null⟩
    let failing : FeeModelParams := ⟨.null, .null, .num "x".toList, .num "0".toList⟩
    ∃ started, applyArgsManFeeModel (fun _ => none) args defaultFeeModel = .ok started ∧
      Sound (callsSetfeemodel true (fun _ => none) started [call, failing]) := by
  intro args call failing
  have applies : applyArgsManFeeModel (fun _ => none) args defaultFeeModel =
      .ok { defaultFeeModel with max_fee := 2000000 } := by rfl
  refine ⟨_, applies, (installed_sound_iff applies _).mpr ⟨by decide +kernel, _, rfl, ?_⟩⟩
  decide +kernel

/-- A lower bound of one coin alone crosses the default upper bound, and no fee can be
computed. -/
theorem feemodelmin_crosses_default : ∃ installed,
      applyArgsManFeeModel (fun _ => none) ⟨none, none, some ['1'], none⟩ defaultFeeModel =
        .ok installed ∧
      installed.max_fee < installed.min_fee ∧ calculateFee installed 200 COIN false = none := by
  refine ⟨{ defaultFeeModel with min_fee := COIN }, ?_, ?_, ?_⟩
  · rfl
  · decide
  · decide +kernel

end Adonai.Policy
