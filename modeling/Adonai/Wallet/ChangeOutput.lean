/-
What is left of the change output when the fee is settled.

Coin selection makes no change below the smallest viable amount. Later the change shrinks by a
missing part of the fee whenever more than a fixed number of units would remain.
-/

import Adonai.Wallet.FeePaid

namespace Adonai.Wallet

open Policy Program

namespace Draft

def change (draft : Draft) : Int :=
  draft.result.getChange draft.params.min_viable_change draft.params.m_change_fee

/-- No fee is taken from the change, or enough of it remains. -/
def ChangeSpared (draft : Draft) (model : FeeModel) : Prop :=
  ∀ fee_needed, draft.feeFor model draft.outputValue = some fee_needed →
    draft.params.m_subtract_fee_outputs = true ∨ fee_needed ≤ draft.currentFee ∨
      draft.params.min_viable_change ≤ draft.change - (fee_needed - draft.currentFee)

/-- The change output stands at its position, and its parameters fit its script. -/
structure HasChange (draft : Draft) (model : FeeModel) (position : Nat) : Prop where
  output : draft.tx.vout[position]? = some ⟨draft.change, draft.scriptChange⟩
  viable : draft.params.min_viable_change ≤ draft.change
  dust : ∃ threshold,
    getDustThreshold model ⟨0, draft.scriptChange⟩ draft.params.m_discard_feerate = some threshold ∧
      threshold ≤ draft.params.min_viable_change

end Draft

private theorem getChange_viable {result : SelectionResult} {min_viable_change change_fee : Int}
    (positive : result.getChange min_viable_change change_fee > 0) :
    min_viable_change ≤ result.getChange min_viable_change change_fee := by
  unfold SelectionResult.getChange at positive ⊢
  generalize (if result.m_use_effective = true then
    result.getSelectedEffectiveValue - result.m_target - change_fee
    else result.getSelectedValue - result.m_target) = change at positive ⊢
  by_cases small : change < min_viable_change
  · rw [if_pos small] at positive
    exact absurd positive (lt_irrefl 0)
  · rw [if_neg small]
    exact not_lt.mp small

theorem placeChange_ok {wallet : CWallet} {payees vout : List CTxOut} {change_pos : Option Nat}
    {change_amount : Int} {scriptChange : CScript} {position : Nat}
    (succeeds : placeChange wallet payees change_pos change_amount scriptChange =
      .ok (vout, some position)) :
    change_amount > 0 ∧ vout[position]? = some ⟨change_amount, scriptChange⟩ := by
  unfold placeChange at succeeds
  split at succeeds
  next positive =>
    dsimp only at succeeds
    split at succeeds
    · cases succeeds
    next inside =>
      cases succeeds
      exact ⟨positive, List.getElem?_insertIdx_self.trans (if_pos (not_lt.mp inside))⟩
  · cases succeeds

theorem selectionParams_dust {model : FeeModel} {wallet : CWallet} {coin_control : CCoinControl}
    {recipients : Nat} {outlay : Outlay} {scriptChange : CScript} {max_tx_weight : Int}
    {params : CoinSelectionParams}
    (succeeds : selectionParams model wallet coin_control recipients outlay scriptChange
      max_tx_weight = .ok params) : ∃ threshold,
      getDustThreshold model ⟨0, scriptChange⟩ params.m_discard_feerate = some threshold ∧
        threshold ≤ params.min_viable_change := by
  obtain ⟨feerate, _, rest⟩ := exists_of_bind_ok succeeds
  obtain ⟨change_fee, _, rest⟩ := exists_of_bind_ok rest
  obtain ⟨spend_fee, _, rest⟩ := exists_of_bind_ok rest
  obtain ⟨dust, isDust, rest⟩ := exists_of_bind_ok rest
  split at rest
  · cases rest
  · cases rest
    exact ⟨dust, defined_eq_ok isDust, le_max_right _ _⟩

variable {vecSend : List CRecipient}

theorem draftTransaction_hasChange {model : FeeModel} {wallet : CWallet} {change_pos : Option Nat}
    {coin_control : CCoinControl} {draft : Draft} {position : Nat}
    (drafted : draftTransaction model wallet vecSend change_pos coin_control = .ok draft)
    (placed : draft.change_pos = some position) : draft.HasChange model position := by
  unfold draftTransaction at drafted
  dsimp only at drafted
  split at drafted
  · cases drafted
  obtain ⟨outlay, _, rest⟩ := exists_of_bind_ok drafted
  obtain ⟨params, isParams, rest⟩ := exists_of_bind_ok rest
  split at rest
  all_goals
    obtain ⟨fees, _, rest⟩ := exists_of_bind_ok rest
    split at rest
    · cases rest
    split at rest
    all_goals
      obtain ⟨preset, _, rest⟩ := exists_of_bind_ok rest
      obtain ⟨result, _, rest⟩ := exists_of_bind_ok rest
      obtain ⟨⟨vout, position'⟩, isPlaced, rest⟩ := exists_of_bind_ok rest
      split at rest
      · cases rest
      · cases rest
        cases placed
        obtain ⟨positive, output⟩ := placeChange_ok isPlaced
        exact ⟨output, getChange_viable positive, selectionParams_dust isParams⟩

section Steps

variable {draft : Draft} {model : FeeModel} {quote after : Quote} {position : Nat}

variable {relayDustFee : CFeeRate}

private theorem subtractLoop_vout {to_reduce : Int} (placed : draft.change_pos = some position)
    (vecSend : List CRecipient) (i : Nat) (fFirst : Bool) (vout : List CTxOut) {final : List CTxOut}
    (succeeds : subtractLoop draft model relayDustFee to_reduce vecSend i fFirst vout = .ok final) :
    final[position]? = vout[position]? := by
  induction vecSend generalizing i fFirst vout with
  | nil =>
    cases succeeds
    rfl
  | cons recipient rest ih =>
    rw [subtractLoop] at succeeds
    dsimp only at succeeds
    have elsewhere : (if draft.change_pos = some i then i + 1 else i) ≠ position := by
      rw [placed]
      split
      next here =>
        cases here
        omega
      next other =>
        intro same
        exact other (congrArg some same.symm)
    generalize (if draft.change_pos = some i then i + 1 else i) = place at succeeds elsewhere
    split at succeeds
    · split at succeeds
      · cases succeeds
      obtain ⟨dust, _, further⟩ := exists_of_bind_ok succeeds
      split at further
      · split at further
        · cases further
        · cases further
      · rw [ih _ _ _ further]
        exact List.getElem?_modify_ne _ _ elsewhere
    · exact ih _ _ _ succeeds

private theorem subtractFee_change (placed : draft.change_pos = some position)
    (succeeds : subtractFee draft model relayDustFee vecSend quote = .ok after) :
    after.vout[position]? = quote.vout[position]? := by
  unfold subtractFee at succeeds
  split at succeeds
  · obtain ⟨vout, loops, checked⟩ := exists_of_bind_ok succeeds
    dsimp only at checked
    split at checked
    · cases checked
    · cases checked
      exact subtractLoop_vout placed vecSend 0 true quote.vout loops
  · cases succeeds
    rfl

theorem settleFee_change (has : draft.HasChange model position)
    (placed : draft.change_pos = some position)
    (succeeds : settleFee draft model relayDustFee vecSend = .ok after) :
    ∃ fee_needed value, draft.feeFor model draft.outputValue = some fee_needed ∧
      after.vout[position]? = some ⟨value, draft.scriptChange⟩ ∧
      (((draft.params.m_subtract_fee_outputs = true ∨ fee_needed ≤ draft.currentFee) ∧
          draft.change ≤ value) ∨
        (draft.params.m_subtract_fee_outputs = false ∧ draft.currentFee < fee_needed ∧
          value = draft.change - (fee_needed - draft.currentFee))) := by
  have output := has.output
  have adjusted : ∀ amount, (adjustOutput draft.tx.vout position amount)[position]? =
      some ⟨draft.change + amount, draft.scriptChange⟩ := by
    intro amount
    rw [adjustOutput, List.getElem?_modify_eq, output]
    rfl
  obtain ⟨fee_needed, asked, rest⟩ := exists_of_bind_ok succeeds
  have known : draft.feeFor model draft.outputValue = some fee_needed := defined_eq_ok asked
  dsimp only at rest
  split at rest
  · cases rest
  obtain ⟨raised, first, rest⟩ := exists_of_bind_ok rest
  obtain ⟨absorbed, second, rest⟩ := exists_of_bind_ok rest
  obtain ⟨subtracted, third, rest⟩ := exists_of_bind_ok rest
  have kept := subtractFee_change placed third
  split at rest
  · cases rest
  next enough =>
    cases rest
    rcases raiseChange_ok first with ⟨rfl, -⟩ | ⟨⟨-, surplus⟩, -, exactly, same, isRaised⟩
    · rcases absorbGap_ok second with rfl | ⟨keeping, short, -, -, isAbsorbed⟩
      · refine ⟨fee_needed, draft.change, known, kept.trans output, .inl ⟨?_, le_refl _⟩⟩
        -- without a subtraction the fee asked for is the one checked last
        rcases subtractFee_ok third with ⟨_, rfl⟩ | ⟨subtracting, _⟩
        · exact .inr (not_lt.mp enough)
        · exact .inl subtracting
      · refine ⟨fee_needed, _, known, ?_, .inr ⟨keeping, short, rfl⟩⟩
        rw [kept, isAbsorbed position placed]
        exact adjusted _
    · have untouched : absorbed = raised := by
        rcases absorbGap_ok second with rfl | ⟨-, short, -⟩
        · rfl
        · rw [exactly, same] at short
          exact absurd short (lt_irrefl _)
      refine ⟨fee_needed, draft.change + (draft.currentFee - fee_needed), known, ?_,
        .inl ⟨.inr (le_of_lt surplus), ?_⟩⟩
      · rw [kept, untouched, isRaised position placed]
        exact adjusted _
      · have surplus : fee_needed < draft.currentFee := surplus
        omega

end Steps

/-- The change output of a created transaction is at least the smallest viable change, and then
no dust at the discard rate, exactly when the change was spared or enough of it remained. -/
theorem createTransactionInternal_change_iff (model : FeeModel) (wallet : CWallet)
    (vecSend : List CRecipient) (change_pos : Option Nat) (coin_control : CCoinControl)
    (sign : Bool)
    (draft : Draft) (created : CreatedTransactionResult) (position : Nat)
    (drafted : draftTransaction model wallet vecSend change_pos coin_control = .ok draft)
    (returned : createTransactionInternal model wallet vecSend change_pos coin_control sign =
      .ok created) (placed : created.change_pos = some position) :
    ∃ value, created.tx.vout[position]? = some ⟨value, draft.scriptChange⟩ ∧
      (draft.params.min_viable_change ≤ value ↔ draft.ChangeSpared model) ∧
      (draft.params.min_viable_change ≤ value →
        isDust model ⟨value, draft.scriptChange⟩ draft.params.m_discard_feerate = some false) := by
  obtain ⟨draft', quote, drafted', settled, outputs, _, position'⟩ :=
    createTransactionInternal_ok returned
  rw [drafted] at drafted'
  cases drafted'
  rw [position'] at placed
  have has := draftTransaction_hasChange drafted placed
  obtain ⟨fee_needed, value, known, isValue, cases⟩ := settleFee_change has placed settled
  refine ⟨value, outputs ▸ isValue, ?_, ?_⟩
  · have viable := has.viable
    rcases cases with ⟨spared, atLeast⟩ | ⟨keeping, short, isLess⟩
    · refine iff_of_true (le_trans viable atLeast) ?_
      intro fee_needed' known'
      rw [known] at known'
      cases known'
      rcases spared with subtracting | enough
      · exact .inl subtracting
      · exact .inr (.inl enough)
    · rw [isLess]
      constructor
      · intro remains fee_needed' known'
        rw [known] at known'
        cases known'
        exact .inr (.inr remains)
      · intro spared
        rcases spared fee_needed known with subtracting | enough | remains
        · rw [keeping] at subtracting
          cases subtracting
        · exact absurd enough (not_le.mpr short)
        · exact remains
  · intro atLeast
    obtain ⟨threshold, isThreshold, below⟩ := has.dust
    have same : getDustThreshold model ⟨value, draft.scriptChange⟩ draft.params.m_discard_feerate =
        some threshold := isThreshold
    rw [isDust, same, Option.map_some, Option.some.injEq, decide_eq_false_iff_not, not_lt]
    exact le_trans below atLeast

theorem createTransactionInternal_change_lone :
    ∃ draft created value, draftLone 200000 90000 = .ok draft ∧
      createLone 200000 90000 = .ok created ∧ created.change_pos = some 1 ∧
        created.tx.vout[1]? = some ⟨value, draft.scriptChange⟩ ∧
        (draft.params.min_viable_change ≤ value ↔ draft.ChangeSpared exactFeeModel) := by
  obtain ⟨draft, created, drafted, returned, placed⟩ := exists_lone
  obtain ⟨value, isValue, viable, _⟩ := createTransactionInternal_change_iff exactFeeModel
    (loneWallet 200000) (lonePayment 90000) none loneControl true draft created 1 drafted
    returned placed
  exact ⟨draft, created, value, drafted, returned, placed, isValue, viable⟩

/-- A coin of 20101121 pays 20099900 and leaves 980, the smallest viable change. The fee for
both outputs rounds up to one unit more than is left, and the change that pays for it is
dust at the discard rate. -/
theorem createTransactionInternal_dust_change :
    (draftLone 20101121 20099900).toOption.map (fun draft =>
        (draft.params.min_viable_change, draft.change, draft.currentFee,
          draft.feeFor exactFeeModel draft.outputValue)) = some (980, 980, 241, some 242) ∧
      (createLone 20101121 20099900).toOption.map (fun created =>
        (created.change_pos, created.tx.vout[1]?)) = some (some 1, some ⟨979, keyHashScript 2⟩) ∧
      isDust exactFeeModel ⟨979, keyHashScript 2⟩ (getDiscardRate loneRates) = some true := by
  decide +kernel

end Adonai.Wallet
