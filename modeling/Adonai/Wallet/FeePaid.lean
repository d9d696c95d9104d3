/-
The fee a created transaction pays, and the fee of the model for its outputs.

The fee asked for is computed from the drafted outputs. It is computed again when a missing part
was taken from the change, but not when the change was raised or recipients pay the fee.
-/

import Adonai.Wallet.Spend

namespace Adonai.Wallet

open Policy Program

namespace Draft

variable (draft : Draft)

def outputValue : Int := calculateOutputValue draft.tx.vout

def currentFee : Int := draft.result.getSelectedValue - draft.outputValue

/-- Values move between the outputs and the fee after the fee was computed. -/
def Restated (fee_needed : Int) : Prop :=
  draft.params.m_subtract_fee_outputs = true ∨
    (draft.change_pos.isSome = true ∧ fee_needed < draft.currentFee)

/-- Where values move, the fee computed also covers the outputs it leaves. -/
def Covered (model : FeeModel) : Prop :=
  ∀ fee_needed, draft.feeFor model draft.outputValue = some fee_needed →
    draft.Restated fee_needed →
      ∀ required, draft.feeFor model (draft.result.getSelectedValue - fee_needed) = some required →
        required ≤ fee_needed

/-- The inputs less the outputs are at least the fee of the model for these outputs, with
the bump fees. -/
def Pays (model : FeeModel) (vout : List CTxOut) : Prop :=
  ∀ required, draft.feeFor model (calculateOutputValue vout) = some required →
    required ≤ draft.result.getSelectedValue - calculateOutputValue vout

def Balanced (quote : Quote) : Prop :=
  quote.current_fee = draft.result.getSelectedValue - calculateOutputValue quote.vout

end Draft

section Steps

variable {draft : Draft} {model : FeeModel} {quote after : Quote}

theorem defined_eq_ok {α : Type} {option : Option α} {value : α}
    (succeeds : defined option = .ok value) : option = some value := by
  cases option with
  | none => cases succeeds
  | some found =>
    cases succeeds
    rfl

theorem raiseChange_ok (succeeds : raiseChange draft quote = .ok after) :
    (after = quote ∧ ¬(draft.change_pos.isSome = true ∧ quote.fee_needed < quote.current_fee)) ∨
      ((draft.change_pos.isSome = true ∧ quote.fee_needed < quote.current_fee) ∧
        draft.Balanced after ∧ after.current_fee = quote.fee_needed ∧
          after.fee_needed = quote.fee_needed ∧ ∀ position, draft.change_pos = some position →
            after.vout =
              adjustOutput quote.vout position (quote.current_fee - quote.fee_needed)) := by
  unfold raiseChange at succeeds
  split at succeeds
  next position found =>
    split at succeeds
    next surplus =>
      dsimp only at succeeds
      split at succeeds
      · cases succeeds
      next exactly =>
        cases succeeds
        refine .inr ⟨⟨by rw [found]; rfl, surplus⟩, rfl, (not_ne_iff.mp exactly).symm, rfl, ?_⟩
        intro other placed
        rw [found] at placed
        cases placed
        rfl
    next enough =>
      cases succeeds
      exact .inl ⟨rfl, fun both => enough both.2⟩
  next missing =>
    cases succeeds
    refine .inl ⟨rfl, fun both => ?_⟩
    rw [missing] at both
    cases both.1

theorem absorbGap_ok (succeeds : absorbGap draft model quote = .ok after) : after = quote ∨
      (draft.params.m_subtract_fee_outputs = false ∧ quote.current_fee < quote.fee_needed ∧
        draft.Balanced after ∧
          draft.feeFor model (calculateOutputValue after.vout) = some after.fee_needed ∧
          ∀ position, draft.change_pos = some position → after.vout =
            adjustOutput quote.vout position (-(quote.fee_needed - quote.current_fee))) := by
  unfold absorbGap at succeeds
  split at succeeds
  next position found =>
    split at succeeds
    next short =>
      dsimp only at succeeds
      split at succeeds
      · obtain ⟨fee_needed, asked, made⟩ := exists_of_bind_ok succeeds
        cases made
        rw [Bool.not_eq_true'] at short
        refine .inr ⟨short.1, short.2, rfl, defined_eq_ok asked, ?_⟩
        intro other placed
        rw [found] at placed
        cases placed
        rfl
      · cases succeeds
        exact .inl rfl
    · cases succeeds
      exact .inl rfl
  · cases succeeds
    exact .inl rfl

theorem subtractFee_ok {relayDustFee : CFeeRate} {vecSend : List CRecipient}
    (succeeds : subtractFee draft model relayDustFee vecSend quote = .ok after) :
    (draft.params.m_subtract_fee_outputs = false ∧ after = quote) ∨
      (draft.params.m_subtract_fee_outputs = true ∧ draft.Balanced after ∧
        after.current_fee = quote.fee_needed ∧ after.fee_needed = quote.fee_needed) := by
  unfold subtractFee at succeeds
  split at succeeds
  next subtracting =>
    obtain ⟨vout, -, checked⟩ := exists_of_bind_ok succeeds
    dsimp only at checked
    split at checked
    · cases checked
    next exactly =>
      cases checked
      exact .inr ⟨subtracting, rfl, (not_ne_iff.mp exactly).symm, rfl⟩
  next keeping =>
    cases succeeds
    exact .inl ⟨Bool.eq_false_iff.mpr keeping, rfl⟩

/-- A settled fee is the one computed from the draft when values were moved, and at least
the one for its own outputs otherwise. -/
private theorem settleFee_ok {relayDustFee : CFeeRate} {vecSend : List CRecipient}
    (succeeds : settleFee draft model relayDustFee vecSend = .ok after) :
    ∃ fee_needed, draft.feeFor model draft.outputValue = some fee_needed ∧ draft.Balanced after ∧
      ((draft.Restated fee_needed ∧ after.current_fee = fee_needed) ∨
        (¬draft.Restated fee_needed ∧
          draft.feeFor model (calculateOutputValue after.vout) = some after.fee_needed ∧
            after.fee_needed ≤ after.current_fee)) := by
  obtain ⟨fee_needed, asked, rest⟩ := exists_of_bind_ok succeeds
  have known : draft.feeFor model draft.outputValue = some fee_needed := defined_eq_ok asked
  refine ⟨fee_needed, known, ?_⟩
  dsimp only at rest
  split at rest
  · cases rest
  obtain ⟨raised, first, rest⟩ := exists_of_bind_ok rest
  obtain ⟨absorbed, second, rest⟩ := exists_of_bind_ok rest
  obtain ⟨subtracted, third, rest⟩ := exists_of_bind_ok rest
  split at rest
  · cases rest
  next enough =>
    cases rest
    have paid : after.fee_needed ≤ after.current_fee := Int.not_lt.mp enough
    rcases subtractFee_ok third with ⟨keeping, rfl⟩ | ⟨subtracting, balanced, exactly, -⟩
    · rcases raiseChange_ok first with ⟨rfl, still⟩ | ⟨surplus, balanced, exactly, same, -⟩
      · have fixed : ¬draft.Restated fee_needed := by
          intro restated
          rcases restated with subtracting | raised
          · rw [keeping] at subtracting
            cases subtracting
          · exact still raised
        rcases absorbGap_ok second with rfl | ⟨-, -, balanced, asked, -⟩
        · exact ⟨rfl, .inr ⟨fixed, known, paid⟩⟩
        · exact ⟨balanced, .inr ⟨fixed, asked, paid⟩⟩
      · -- Nothing is missing once the change was raised.
        rcases absorbGap_ok second with rfl | ⟨-, short, -⟩
        · exact ⟨balanced, .inl ⟨.inr surplus, exactly⟩⟩
        · rw [exactly, same] at short
          exact absurd short (lt_irrefl _)
    · refine ⟨balanced, .inl ⟨.inl subtracting, ?_⟩⟩
      have untouched : absorbed = raised := by
        rcases absorbGap_ok second with same | ⟨keeping, -⟩
        · exact same
        · rw [subtracting] at keeping
          cases keeping
      rw [exactly, untouched]
      rcases raiseChange_ok first with ⟨rfl, -⟩ | ⟨-, -, -, same, -⟩
      · rfl
      · exact same

end Steps

private theorem signDraft_vout {wallet : CWallet} {tx signed : CMutableTransaction} {sign : Bool}
    (succeeds : signDraft wallet tx sign = .ok signed) : signed.vout = tx.vout := by
  unfold signDraft at succeeds
  split at succeeds
  · split at succeeds
    · cases succeeds
    · cases succeeds
      rfl
  · cases succeeds
    rfl

theorem createTransactionInternal_ok {model : FeeModel} {wallet : CWallet}
    {vecSend : List CRecipient} {change_pos : Option Nat} {coin_control : CCoinControl}
    {sign : Bool}
    {created : CreatedTransactionResult}
    (returned : createTransactionInternal model wallet vecSend change_pos coin_control sign =
      .ok created) :
    ∃ draft quote, draftTransaction model wallet vecSend change_pos coin_control = .ok draft ∧
      settleFee draft model wallet.rates.relayDustFee vecSend = .ok quote ∧
        created.tx.vout = quote.vout ∧ created.fee = quote.current_fee ∧
          created.change_pos = draft.change_pos := by
  obtain ⟨draft, drafted, rest⟩ := exists_of_bind_ok returned
  obtain ⟨quote, settled, rest⟩ := exists_of_bind_ok rest
  refine ⟨draft, quote, drafted, settled, ?_⟩
  split at rest
  · cases rest
  obtain ⟨tx, signed, rest⟩ := exists_of_bind_ok rest
  have outputs := signDraft_vout signed
  generalize (if sign then (tx.getTransactionWeight : Int) else draft.tx_sizes.weight) =
    weight at rest
  repeat' split at rest
  all_goals cases rest
  exact ⟨outputs, rfl, rfl⟩

/-- A created transaction pays the fee of the model for its final outputs, with the bump
fees, exactly when the fee computed for the draft covers the outputs that moving values
leaves. -/
theorem createTransactionInternal_pays_iff (model : FeeModel) (wallet : CWallet)
    (vecSend : List CRecipient) (change_pos : Option Nat) (coin_control : CCoinControl)
    (sign : Bool)
    {draft : Draft} {created : CreatedTransactionResult}
    (drafted : draftTransaction model wallet vecSend change_pos coin_control = .ok draft)
    (returned : createTransactionInternal model wallet vecSend change_pos coin_control sign =
      .ok created) : draft.Pays model created.tx.vout ↔ draft.Covered model := by
  obtain ⟨draft', quote, drafted', settled, outputs, -⟩ := createTransactionInternal_ok returned
  rw [drafted] at drafted'
  cases drafted'
  obtain ⟨fee_needed, known, balanced, outcome⟩ := settleFee_ok settled
  have balanced : quote.current_fee =
      draft.result.getSelectedValue - calculateOutputValue quote.vout := balanced
  unfold Draft.Pays
  rw [outputs]
  rcases outcome with ⟨restated, exactly⟩ | ⟨fixed, asked, paid⟩
  · have left : calculateOutputValue quote.vout = draft.result.getSelectedValue - fee_needed := by
      omega
    rw [left, Int.sub_sub_self]
    constructor
    · intro pays fee known' _
      rw [known] at known'
      cases known'
      exact pays
    · intro covered
      exact covered fee_needed known restated
  · constructor
    · intro _ fee known' restated
      rw [known] at known'
      cases known'
      exact absurd restated fixed
    · intro _ required same
      rw [asked] at same
      cases same
      omega

def keyHashScript (byte : UInt8) : CScript := 0x00 :: 0x14 :: List.replicate 20 byte

/-- The default model, with its `beta` as an exact fraction. -/
def exactFeeModel : FeeModel :=
  { alpha := ⟨100⟩, beta := some (5 / 1000000), min_fee := 100, max_fee := 1000000 }

def loneRates : RateSource where
  relayMinFee := ⟨1000⟩
  mempoolMinFee := ⟨1000⟩
  relayDustFee := ⟨3000⟩
  estimateSmartFee _ _ := (⟨0⟩, .none)
  estimateMaxBlocks := 1008
  m_min_fee := ⟨1000⟩
  m_pay_tx_fee := ⟨0⟩
  m_fallback_fee := ⟨0⟩
  m_discard_rate := ⟨10000⟩
  m_confirm_target := 6
  m_signal_rbf := true

def loneCoin (value : Int) : COutput :=
  { outpoint := ⟨7, 0⟩
    txout := ⟨value, keyHashScript 1⟩
    input_bytes := 68
    fee := 68
    ancestor_bump_fees := 0 }

def loneWallet (value : Int) : CWallet where
  rates := loneRates
  m_consolidate_feerate := ⟨10000⟩
  m_allow_fallback_fee := false
  m_default_max_tx_fee := 10000000
  rejectLongChains := true
  reservedDestination := .ok (keyHashScript 2)
  maximumSignedInputSize _ := some 68
  fetchSelectedInputs _ _ := .ok [loneCoin value]
  automaticCoinSelection _ _ := .error ""
  spendsWitness _ := true
  signedTxinWeight _ _ := some 272
  signTransaction _ := some [([], [List.replicate 72 0, List.replicate 33 0])]
  checkChainLimits _ := none
  randomChangeTarget _ := 0
  randomChangePosition _ := 1
  shuffle coins := coins
  antiFeeSnipingLockTime := 0

def loneControl : CCoinControl where
  rates :=
    { fOverrideFeeRate := false
      m_feerate := some ⟨1000⟩
      m_confirm_target := none
      m_signal_bip125_rbf := none
      m_fee_mode := .unset }
  destChange := none
  m_include_unsafe_inputs := false
  m_allow_other_inputs := false
  m_avoid_partial_spends := false
  m_locktime := none
  m_version := none
  m_max_tx_weight := none
  selected := [⟨7, 0⟩]
  getSelectionPos _ := none
  getSequence _ := none
  getScriptSig _ := none
  getScriptWitness _ := none

def lonePayment (amount : Int) : List CRecipient := [⟨keyHashScript 3, amount, false⟩]

def createLone (value amount : Int) : Except SpendError CreatedTransactionResult :=
  createTransactionInternal exactFeeModel (loneWallet value) (lonePayment amount) none loneControl
    true

def draftLone (value amount : Int) : Except SpendError Draft :=
  draftTransaction exactFeeModel (loneWallet value) (lonePayment amount) none loneControl

theorem exists_lone : ∃ draft created, draftLone 200000 90000 = .ok draft ∧
    createLone 200000 90000 = .ok created ∧ created.change_pos = some 1 := by
  have drafts : (draftLone 200000 90000).toOption.map Draft.currentFee = some 199 := by
    decide +kernel
  have creates : (createLone 200000 90000).toOption.map CreatedTransactionResult.change_pos =
      some (some 1) := by decide +kernel
  obtain ⟨draft, drafted, _⟩ := Program.exists_ok_of_map drafts
  obtain ⟨created, returned, placed⟩ := Program.exists_ok_of_map creates
  exact ⟨draft, created, drafted, returned, placed⟩

theorem createTransactionInternal_pays_iff_lone :
    ∃ draft created, draftLone 200000 90000 = .ok draft ∧ createLone 200000 90000 = .ok created ∧
      (draft.Pays exactFeeModel created.tx.vout ↔ draft.Covered exactFeeModel) := by
  obtain ⟨draft, created, drafted, returned, _⟩ := exists_lone
  exact ⟨draft, created, drafted, returned,
    createTransactionInternal_pays_iff exactFeeModel (loneWallet 200000) (lonePayment 90000)
      none loneControl true drafted returned⟩

/-- A coin of 100149 pays 90000. The draft leaves 9950 as change and 199 for the fee, of
which 141 are asked for. The other 58 raise the change and the outputs to 100008, for
which the model asks 142. -/
theorem createTransactionInternal_underpays : (draftLone 100149 90000).toOption.map (fun draft =>
        (draft.result.getSelectedValue, draft.outputValue, draft.tx_sizes.vsize,
          draft.feeFor exactFeeModel draft.outputValue)) =
        some (100149, 99950, 141, some 141) ∧
      (createLone 100149 90000).toOption.map (fun created =>
        (created.fee, calculateOutputValue created.tx.vout)) = some (141, 100008) ∧
      calculateFeeExact (exactFeeModel.atLeast ⟨1000⟩) 141 100008 false = some 142 := by
  decide +kernel

end Adonai.Wallet
