/-
Building a transaction: `CreateTransactionInternal`.

Coin selection, fee estimation, descriptors, signing and randomness are parameters. The
transaction is drafted first, with a change output for what coin selection left over; then its fee
is settled by moving values between the outputs and the fee.
-/

import Adonai.Wallet.CoinSelection

namespace Adonai.Wallet

open Policy Consensus

/-- The ways no transaction is returned: an error for the user, a detected internal bug,
a failed assertion, or arithmetic that the source leaves undefined. -/
inductive SpendError where
  | error (text : String)
  | internalBug (text : String)
  | assertion
  | undefined
  deriving DecidableEq, Repr

def defined {α : Type} : Option α → Except SpendError α
  | some value => .ok value
  | none => .error .undefined

structure CMutableTransaction where
  vin : List CTxIn
  vout : List CTxOut
  version : UInt32
  nLockTime : UInt32
  deriving DecidableEq, Repr

def calculateOutputValue (vout : List CTxOut) : Int := (vout.map CTxOut.nValue).sum

def CMutableTransaction.getTransactionWeight (tx : CMutableTransaction) : Nat :=
  CTransaction.getTransactionWeight
    { vin := tx.vin, vout := tx.vout, version := tx.version, nLockTime := tx.nLockTime, hash := 0 }

structure CRecipient where
  scriptPubKey : CScript
  nAmount : Int
  fSubtractFeeFromAmount : Bool
  deriving DecidableEq, Repr

def CRecipient.txout (recipient : CRecipient) : CTxOut :=
  { nValue := recipient.nAmount, scriptPubKey := recipient.scriptPubKey }

structure CoinSelectionParams where
  change_output_size : Nat
  change_spend_size : Nat
  m_min_change_target : Int
  min_viable_change : Int
  m_change_fee : Int
  m_cost_of_change : Int
  m_effective_feerate : CFeeRate
  m_long_term_feerate : CFeeRate
  m_discard_feerate : CFeeRate
  tx_noinputs_size : Nat
  m_subtract_fee_outputs : Bool
  m_avoid_partial_spends : Bool
  m_include_unsafe_inputs : Bool
  m_max_tx_weight : Int

structure CCoinControl where
  rates : RateControl
  destChange : Option CScript
  m_include_unsafe_inputs : Bool
  m_allow_other_inputs : Bool
  m_avoid_partial_spends : Bool
  m_locktime : Option UInt32
  m_version : Option UInt32
  m_max_tx_weight : Option Int
  /-- The coins chosen by the user. -/
  selected : List COutPoint
  getSelectionPos : COutPoint → Option Nat
  getSequence : COutPoint → Option UInt32
  getScriptSig : COutPoint → Option CScript
  getScriptWitness : COutPoint → Option (List (List UInt8))

structure CWallet where
  rates : RateSource
  m_consolidate_feerate : CFeeRate
  m_allow_fallback_fee : Bool
  m_default_max_tx_fee : Int
  rejectLongChains : Bool
  /-- A new destination for change, or why there is none. -/
  reservedDestination : Except String CScript
  maximumSignedInputSize : CScript → Option Nat
  fetchSelectedInputs : List COutPoint → CoinSelectionParams → Except String (List COutput)
  /-- The selection among the wallet's own coins; an empty text means too few of them. -/
  automaticCoinSelection : Int → CoinSelectionParams → Except String SelectionResult
  /-- Whether an input spends a witness program, and its weight when signed. -/
  spendsWitness : CTxIn → Bool
  signedTxinWeight : CTxIn → Bool → Option Nat
  /-- Signature scripts and witnesses for all inputs. -/
  signTransaction : CMutableTransaction → Option (List (CScript × List (List UInt8)))
  checkChainLimits : CMutableTransaction → Option String
  /-- Randomness: a change target below a bound, a position, an order, a lock time. -/
  randomChangeTarget : Int → Int
  randomChangePosition : Nat → Nat
  shuffle : List COutput → List COutput
  antiFeeSnipingLockTime : UInt32

structure TxSize where
  vsize : Nat
  weight : Nat

variable (wallet : CWallet)

/-- `none` when the inputs lack solving data. The values of the outputs play no part. -/
def calculateMaximumSignedTxSize (vin : List CTxIn) (vout : List CTxOut) : Option TxSize :=
  let is_segwit := vin.any wallet.spendsWitness
  let fixed := (4 + 4 + compactSizeLength vin.length + compactSizeLength vout.length) *
    WITNESS_SCALE_FACTOR + (if is_segwit then 2 else 0) +
      (vout.map fun txo => txo.serializeSize * WITNESS_SCALE_FACTOR).sum
  (vin.mapM fun txin => wallet.signedTxinWeight txin is_segwit).map fun weights =>
    let weight := fixed + weights.sum
    { vsize := Mempool.getVirtualTransactionSize weight 0 0, weight := weight }

structure Outlay where
  tx_noinputs_size : Nat
  recipients_sum : Int
  outputs_to_subtract_fee_from : Nat

def Outlay.m_subtract_fee_outputs (outlay : Outlay) : Bool :=
  decide (outlay.outputs_to_subtract_fee_from ≠ 0)

def tallyRecipients (model : FeeModel) (wallet : CWallet) :
    List CRecipient → Outlay → Except SpendError Outlay
  | [], outlay => .ok outlay
  | recipient :: rest, outlay => do
    if ← defined (isDust model recipient.txout wallet.rates.relayDustFee) then
      .error (.error "Transaction amount too small")
    else
      tallyRecipients model wallet rest
        { tx_noinputs_size := outlay.tx_noinputs_size + recipient.txout.serializeSize
          recipients_sum := outlay.recipients_sum + recipient.nAmount
          outputs_to_subtract_fee_from := outlay.outputs_to_subtract_fee_from +
            if recipient.fSubtractFeeFromAmount then 1 else 0 }

variable (coin_control : CCoinControl)

/-- The change script, empty when no destination could be reserved, and then the error. -/
def changeDestination : CScript × String :=
  match coin_control.destChange with
  | some script => (script, "")
  | none =>
    match wallet.reservedDestination with
    | .ok script => (script, "")
    | .error reason =>
      ([], "Transaction needs a change address, but we can't generate it. " ++ reason)

def MIN_STANDARD_TX_NONWITNESS_SIZE : Nat := 65

def MAX_STANDARD_TX_WEIGHT : Int := 400000

def DUMMY_NESTED_P2WPKH_INPUT_SIZE : Nat := 91

def CHANGE_LOWER : Int := 50000

def CHANGE_UPPER : Int := 1000000

def generateChangeTarget (payment_value change_fee : Int) : Int :=
  if payment_value ≤ CHANGE_LOWER / 2 then change_fee + CHANGE_LOWER
  else change_fee + wallet.randomChangeTarget
    (min (payment_value * 2) CHANGE_UPPER - CHANGE_LOWER) +
    CHANGE_LOWER

/-- The rate to aim at, refused where it is not the one asked for or only a fallback. -/
def effectiveFeeRate : Except SpendError CFeeRate :=
  let (feerate, reason) := getMinimumFeeRate wallet.rates coin_control.rates
  match coin_control.rates.m_feerate with
  | some asked =>
    if feerate.nSatoshisPerK > asked.nSatoshisPerK then
      .error (.error ("Fee rate (" ++ asked.toStringPerVByte ++
        ") is lower than the minimum fee rate setting (" ++ feerate.toStringPerVByte ++ ")"))
    else .ok feerate
  | none =>
    if reason = .fallback ∧ ¬wallet.m_allow_fallback_fee then
      .error (.error
        "Fee estimation failed. Fallbackfee is disabled. Wait a few blocks or enable -fallbackfee.")
    else .ok feerate

def selectionParams (model : FeeModel) (wallet : CWallet) (coin_control : CCoinControl)
    (recipients : Nat) (outlay : Outlay) (scriptChange : CScript) (max_tx_weight : Int) :
    Except SpendError CoinSelectionParams := do
  let change_prototype_txout : CTxOut := { nValue := 0, scriptPubKey := scriptChange }
  let change_output_size := change_prototype_txout.serializeSize
  let change_spend_size :=
    (wallet.maximumSignedInputSize scriptChange).getD DUMMY_NESTED_P2WPKH_INPUT_SIZE
  let discard_feerate := getDiscardRate wallet.rates
  let effective_feerate ← effectiveFeeRate wallet coin_control
  let change_fee ← defined (effective_feerate.getFee (UInt32.ofNat change_output_size))
  let change_spend_fee ← defined (discard_feerate.getFee (UInt32.ofNat change_spend_size))
  let dust ← defined (getDustThreshold model change_prototype_txout discard_feerate)
  if recipients = 0 then .error .undefined
  else
    pure
      { change_output_size := change_output_size
        change_spend_size := change_spend_size
        m_min_change_target :=
          generateChangeTarget wallet (outlay.recipients_sum / recipients) change_fee
        min_viable_change := max (change_spend_fee + 1) dust
        m_change_fee := change_fee
        m_cost_of_change := change_spend_fee + change_fee
        m_effective_feerate := effective_feerate
        m_long_term_feerate := wallet.m_consolidate_feerate
        m_discard_feerate := discard_feerate
        tx_noinputs_size := outlay.tx_noinputs_size
        m_subtract_fee_outputs := outlay.m_subtract_fee_outputs
        m_avoid_partial_spends := coin_control.m_avoid_partial_spends
        m_include_unsafe_inputs := coin_control.m_include_unsafe_inputs
        m_max_tx_weight := max_tx_weight }

def selectionError (text : String) : SpendError :=
  .error (if text.isEmpty then "Insufficient funds" else text)

def presetTotal (inputs : List COutput) (subtract_fee_outputs : Bool) : Int :=
  (inputs.map fun coin =>
    if subtract_fee_outputs then coin.txout.nValue else coin.getEffectiveValue).sum

def recalculated (params : CoinSelectionParams) (result : SelectionResult) :
    Except SpendError SelectionResult :=
  if result.wasteDefined params.min_viable_change params.m_change_fee then .ok result
  else .error .assertion

def selectCoins (pre_set_inputs : List COutput) (nTargetValue : Int)
    (coin_control : CCoinControl) (params : CoinSelectionParams) :
    Except SpendError SelectionResult :=
  let total_amount := presetTotal pre_set_inputs params.m_subtract_fee_outputs
  let selection_target := nTargetValue - total_amount
  if !coin_control.m_allow_other_inputs ∧ selection_target > 0 then
    .error (.error ("The preselected coins total amount does not cover the transaction target. " ++
      "Please allow other inputs to be automatically selected or include more coins manually"))
  else if selection_target ≤ 0 then
    recalculated params (.manual nTargetValue pre_set_inputs params.m_subtract_fee_outputs)
  else
    match wallet.automaticCoinSelection selection_target params with
    | .error text => .error (selectionError text)
    | .ok result =>
      if pre_set_inputs.isEmpty then .ok result
      else do
        let merged ← recalculated params
          (result.merge (.manual total_amount pre_set_inputs params.m_subtract_fee_outputs))
        if merged.m_weight >
            params.m_max_tx_weight - (params.tx_noinputs_size * WITNESS_SCALE_FACTOR : Nat) then
          .error (.error ("The combination of the pre-selected inputs and the wallet automatic " ++
            "inputs selection exceeds the transaction maximum weight. Please try sending a " ++
              "smaller amount or manually consolidating your wallet's UTXOs"))
        else .ok merged

def selectionOrder (left right : COutput) : Bool :=
  match coin_control.getSelectionPos left.outpoint, coin_control.getSelectionPos right.outpoint with
  | some first, some second => decide (first ≤ second)
  | none, some _ => false
  | _, none => true

def orderedCoins (result : SelectionResult) : List COutput :=
  let selected_coins := wallet.shuffle result.m_selected_inputs
  if coin_control.selected.any fun outpoint => (coin_control.getSelectionPos outpoint).isSome then
    selected_coins.mergeSort (selectionOrder coin_control)
  else selected_coins

def MAX_BIP125_RBF_SEQUENCE : UInt32 := 0xfffffffd

def MAX_SEQUENCE_NONFINAL : UInt32 := 0xfffffffe

def fillInput (coin : COutput) : CTxIn :=
  let default_sequence :=
    if coin_control.rates.m_signal_bip125_rbf.getD wallet.rates.m_signal_rbf then
      MAX_BIP125_RBF_SEQUENCE
    else MAX_SEQUENCE_NONFINAL
  { prevout := coin.outpoint
    scriptSig := (coin_control.getScriptSig coin.outpoint).getD []
    nSequence := (coin_control.getSequence coin.outpoint).getD default_sequence
    scriptWitness := (coin_control.getScriptWitness coin.outpoint).getD [] }

def chooseLockTime (coins : List COutput) : UInt32 :=
  match coin_control.m_locktime with
  | some nLockTime => nLockTime
  | none =>
    if coins.any fun coin => (coin_control.getSequence coin.outpoint).isSome then 0
    else wallet.antiFeeSnipingLockTime

/-- A transaction whose fee is not settled: its change is what coin selection left over. -/
structure Draft where
  params : CoinSelectionParams
  outlay : Outlay
  scriptChange : CScript
  changeError : String
  result : SelectionResult
  change_pos : Option Nat
  tx : CMutableTransaction
  tx_sizes : TxSize

def placeChange (payees : List CTxOut) (change_pos : Option Nat)
    (change_amount : Int) (scriptChange : CScript) :
    Except SpendError (List CTxOut × Option Nat) :=
  if change_amount > 0 then
    let position := change_pos.getD (wallet.randomChangePosition (payees.length + 1))
    if position > payees.length then
      .error (.error "Transaction change output index out of range")
    else
      .ok (payees.insertIdx position { nValue := change_amount, scriptPubKey := scriptChange },
        some position)
  else .ok (payees, none)

def draftTransaction (model : FeeModel) (wallet : CWallet) (vecSend : List CRecipient)
    (change_pos : Option Nat) (coin_control : CCoinControl) : Except SpendError Draft := do
  let minimum_tx_weight : Int := (MIN_STANDARD_TX_NONWITNESS_SIZE * WITNESS_SCALE_FACTOR : Nat)
  let max_tx_weight := coin_control.m_max_tx_weight.getD MAX_STANDARD_TX_WEIGHT
  if max_tx_weight < minimum_tx_weight ∨ max_tx_weight > MAX_STANDARD_TX_WEIGHT then
    .error (.error ("Maximum transaction weight must be between " ++ toString minimum_tx_weight ++
      " and " ++ toString MAX_STANDARD_TX_WEIGHT))
  else
    let outlay ← tallyRecipients model wallet vecSend
      { tx_noinputs_size := 10 + compactSizeLength vecSend.length
        recipients_sum := 0
        outputs_to_subtract_fee_from := 0 }
    let (scriptChange, changeError) := changeDestination wallet coin_control
    let params ← selectionParams model wallet coin_control vecSend.length outlay scriptChange
      max_tx_weight
    let not_input_fees ← if params.m_subtract_fee_outputs then pure 0
      else defined (calculateFeeExact (model.atLeast params.m_effective_feerate)
        params.tx_noinputs_size outlay.recipients_sum false)
    let selection_target := outlay.recipients_sum + not_input_fees
    if selection_target = 0 ∧ coin_control.selected.isEmpty then
      .error (.error ("Transaction requires one destination of non-zero value, a non-zero " ++
        "feerate, or a pre-selected input"))
    else
      let preset_inputs ← if coin_control.selected.isEmpty then pure []
        else (wallet.fetchSelectedInputs coin_control.selected params).mapError SpendError.error
      let result ← selectCoins wallet preset_inputs selection_target coin_control params
      let (vout, change_pos) ← placeChange wallet (vecSend.map CRecipient.txout) change_pos
        (result.getChange params.min_viable_change params.m_change_fee) scriptChange
      let coins := orderedCoins wallet coin_control result
      let vin := coins.map (fillInput wallet coin_control)
      match calculateMaximumSignedTxSize wallet vin vout with
      | none => .error (.error "Missing solving data for estimating transaction size")
      | some tx_sizes =>
        pure
          { params := params
            outlay := outlay
            scriptChange := scriptChange
            changeError := changeError
            result := result
            change_pos := change_pos
            tx :=
              { vin := vin
                vout := vout
                version := coin_control.m_version.getD 2
                nLockTime := chooseLockTime wallet coin_control coins }
            tx_sizes := tx_sizes }

structure Quote where
  vout : List CTxOut
  current_fee : Int
  fee_needed : Int

def adjustOutput (vout : List CTxOut) (position : Nat) (amount : Int) : List CTxOut :=
  vout.modify position fun out => { out with nValue := out.nValue + amount }

variable (draft : Draft) (model : FeeModel)

def Draft.feeFor (value : Int) : Option Int :=
  (calculateFeeExact (model.atLeast draft.params.m_effective_feerate) draft.tx_sizes.vsize value
    false).map fun fee => fee + draft.result.getTotalBumpFees

def raiseChange (quote : Quote) : Except SpendError Quote :=
  match draft.change_pos with
  | some position =>
    if quote.fee_needed < quote.current_fee then
      let vout := adjustOutput quote.vout position (quote.current_fee - quote.fee_needed)
      let current_fee := draft.result.getSelectedValue - calculateOutputValue vout
      if quote.fee_needed ≠ current_fee then
        .error (.internalBug "Change adjustment: Fee needed != fee paid")
      else .ok { quote with vout := vout, current_fee := current_fee }
    else .ok quote
  | none => .ok quote

def absorbGap (quote : Quote) : Except SpendError Quote :=
  match draft.change_pos with
  | some position =>
    if !draft.params.m_subtract_fee_outputs ∧ quote.fee_needed > quote.current_fee then
      let gap := quote.fee_needed - quote.current_fee
      if (quote.vout[position]?.elim 0 CTxOut.nValue) > gap + 294 then do
        let vout := adjustOutput quote.vout position (-gap)
        let fee_needed ← defined (draft.feeFor model (calculateOutputValue vout))
        pure
          { vout := vout
            current_fee := draft.result.getSelectedValue - calculateOutputValue vout
            fee_needed := fee_needed }
      else .ok quote
    else .ok quote
  | none => .ok quote

/-- The loop over the recipients: `i` is the output of the next one, and the first that
pays also pays the remainder. -/
def subtractLoop (draft : Draft) (model : FeeModel) (relayDustFee : CFeeRate) (to_reduce : Int) :
    List CRecipient → (i : Nat) → (fFirst : Bool) → List CTxOut → Except SpendError (List CTxOut)
  | [], _, _, vout => .ok vout
  | recipient :: rest, i, fFirst, vout =>
    let i := if draft.change_pos = some i then i + 1 else i
    if recipient.fSubtractFeeFromAmount then
      let count : Int := draft.outlay.outputs_to_subtract_fee_from
      let share := to_reduce.tdiv count + if fFirst then to_reduce.tmod count else 0
      let vout := adjustOutput vout i (-share)
      match vout[i]? with
      | none => .error .undefined
      | some txout => do
        if ← defined (isDust model txout relayDustFee) then
          if txout.nValue < 0 then
            .error (.error "The transaction amount is too small to pay the fee")
          else
            .error (.error
              "The transaction amount is too small to send after the fee has been deducted")
        else subtractLoop draft model relayDustFee to_reduce rest (i + 1) false vout
    else subtractLoop draft model relayDustFee to_reduce rest (i + 1) fFirst vout

def subtractFee (relayDustFee : CFeeRate)
    (vecSend : List CRecipient) (quote : Quote) : Except SpendError Quote :=
  if draft.params.m_subtract_fee_outputs then do
    let vout ← subtractLoop draft model relayDustFee
      (quote.fee_needed - quote.current_fee) vecSend 0
      true quote.vout
    let current_fee := draft.result.getSelectedValue - calculateOutputValue vout
    if quote.fee_needed ≠ current_fee then
      .error (.internalBug "SFFO: Fee needed != fee paid")
    else pure { quote with vout := vout, current_fee := current_fee }
  else .ok quote

def settleFee (relayDustFee : CFeeRate) (vecSend : List CRecipient) : Except SpendError Quote := do
  let output_value := calculateOutputValue draft.tx.vout
  let fee_needed ← defined (draft.feeFor model output_value)
  let current_fee := draft.result.getSelectedValue - output_value
  if current_fee < 0 then .error (.internalBug "Fee paid < 0")
  else
    let quote ← raiseChange draft
      { vout := draft.tx.vout, current_fee := current_fee, fee_needed := fee_needed }
    let quote ← absorbGap draft model quote
    let quote ← subtractFee draft model relayDustFee vecSend quote
    if quote.fee_needed > quote.current_fee then
      .error (.error ("Fee too low (paid " ++ formatMoney quote.current_fee ++ ", required " ++
        formatMoney quote.fee_needed ++ ")"))
    else pure quote

structure CreatedTransactionResult where
  tx : CMutableTransaction
  fee : Int
  change_pos : Option Nat
  deriving DecidableEq, Repr

def applySignatures (vin : List CTxIn) (signatures : List (CScript × List (List UInt8))) :
    List CTxIn :=
  vin.zipWith (fun txin signature =>
    { txin with scriptSig := signature.1, scriptWitness := signature.2 }) signatures

def signDraft (tx : CMutableTransaction) (sign : Bool) : Except SpendError CMutableTransaction :=
  if sign then
    match wallet.signTransaction tx with
    | none => .error (.error "Signing transaction failed")
    | some signatures => .ok { tx with vin := applySignatures tx.vin signatures }
  else .ok tx

def createTransactionInternal (wallet : CWallet) (vecSend : List CRecipient)
    (change_pos : Option Nat) (coin_control : CCoinControl) (sign : Bool) :
    Except SpendError CreatedTransactionResult := do
  let draft ← draftTransaction model wallet vecSend change_pos coin_control
  let quote ← settleFee draft model wallet.rates.relayDustFee vecSend
  if draft.scriptChange.isEmpty ∧ draft.change_pos.isSome then .error (.error draft.changeError)
  else
    let tx ← signDraft wallet { draft.tx with vout := quote.vout } sign
    if (if sign then (tx.getTransactionWeight : Int) else draft.tx_sizes.weight) >
        MAX_STANDARD_TX_WEIGHT then
      .error (.error "Transaction too large")
    else if quote.current_fee > wallet.m_default_max_tx_fee then
      .error (.error "Fee exceeds maximum configured by user (e.g. -maxtxfee, maxfeerate)")
    else
      match if wallet.rejectLongChains then wallet.checkChainLimits tx else none with
      | some reason => .error (.error reason)
      | none => pure { tx := tx, fee := quote.current_fee, change_pos := draft.change_pos }

end Adonai.Wallet
