/-
The fee that a light wallet estimates, and what the assembler demands.

The estimate counts 41 bytes for an input, without its witness, and the amount sent, without the
change. It covers the demand only where the model's bounds hide the difference.
-/

import Adonai.Consensus.TxVerify
import Adonai.Light.Serialization
import Adonai.Light.Store
import Adonai.Policy.Fees

namespace Adonai.Light

open Consensus (valueOut)
open Policy (calculateFee checked64 stdClamp)

variable (model : Policy.FeeModel)

/-- The estimate for a model of the node, whose amounts are shown to the wallet in coins. -/
def estimateFor (amountAdo : ℚ) (numInputs : Nat) : ℚ :=
  estimateLightFee (model.alpha.nSatoshisPerK / 100000000) (model.beta.getD 0)
    (model.min_fee / 100000000) amountAdo numInputs

def virtualSize (tx : CMutableTransaction) : Nat :=
  (3 * (serializeTransaction false tx).length + (serializeTransaction true tx).length + 3) / 4

theorem clamp_le_iff {charge low high fee : Int} {bound : ℚ}
    (clamped : stdClamp charge low high = some fee)
    (covers : (low : ℚ) ≤ bound) : (fee : ℚ) ≤ bound ↔
      (charge : ℚ) ≤ bound ∨ (high : ℚ) ≤ bound := by
  unfold stdClamp at clamped
  split at clamped
  · cases clamped
  next ordered =>
    cases clamped
    split
    next below =>
      have chargeLow : (charge : ℚ) < low := by exact_mod_cast below
      exact iff_of_true covers (.inl (by linarith))
    · split
      next above =>
        have highCharge : (high : ℚ) < charge := by exact_mod_cast above
        exact ⟨.inr, fun either => either.elim (fun within => by linarith) id⟩
      next within =>
        have chargeHigh : (charge : ℚ) ≤ high := by exact_mod_cast not_lt.mp within
        exact ⟨.inl, fun either => either.elim id fun capped => by linarith⟩

variable {library : Bech32Library} {crypto : Crypto} {params : BuildTxParams} {hex : List Char}

/-! ### The size of what is signed -/

def signatureBytes (witnesses : List (List (List UInt8))) : Nat :=
  (witnesses.map fun witness => (witness.headD []).length - 1).sum

/-- The virtual size of a transaction with two outputs, from the number of its inputs and the
bytes of its scripts and signatures. -/
def signedSize (numInputs scripts signatures : Nat) : Nat :=
  27 + compactSizeLength numInputs + 41 * numInputs + scripts +
    (5 + 37 * numInputs + signatures) / 4

section

variable {recipientScript changeScript : List UInt8} {keys : List KeyPair}
  {witnesses : List (List (List UInt8))}

private theorem length_writeTxIn_toTxIn (input : TxInput) (witness : List (List UInt8)) :
    (writeTxIn (input.toTxIn witness)).length = 41 := by
  simp only [writeTxIn, writeOutPoint, writeByteVector, writeUint256, writeUint32, TxInput.toTxIn,
    List.length_append, littleEndian_length, writeCompactSize_length]
  rfl

private theorem length_writeTxOut {txout : CTxOut} (short : txout.scriptPubKey.length < 253) :
    (writeTxOut txout).length = 9 + txout.scriptPubKey.length := by
  simp only [writeTxOut, writeByteVector, writeInt64, List.length_append, littleEndian_length,
    writeCompactSize_length, compactSizeLength, if_pos short]
  omega

private theorem length_stacks (items : ∀ witness ∈ witnesses, ∃ signature publicKey,
      witness = [signature ++ [0x01], publicKey] ∧ signature.length ≤ 72 ∧
        publicKey.length = 33) :
    (witnesses.flatMap (writeVector writeByteVector)).length =
      37 * witnesses.length + signatureBytes witnesses := by
  induction witnesses with
  | nil => rfl
  | cons witness witnesses ih =>
    rw [List.forall_mem_cons] at items
    obtain ⟨signature, publicKey, rfl, short, length⟩ := items.1
    have small : signature.length + 1 < 253 := by omega
    have rest := ih items.2
    simp [signatureBytes, writeVector, writeByteVector, writeCompactSize_length, compactSizeLength,
      length, small] at rest ⊢
    omega

variable (built : Built library crypto params hex recipientScript changeScript keys witnesses)

include built

theorem Built.virtualSize_eq (nonempty : params.utxos ≠ []) (change : params.changeSats > 546) :
    virtualSize (nodeTx (params.utxos.zipWith (inputOf crypto) keys)
        (outputsOf params.amountSats params.changeSats recipientScript changeScript) witnesses) =
      signedSize params.utxos.length (recipientScript.length + changeScript.length)
        (signatureBytes witnesses) := by
  set tx := nodeTx (params.utxos.zipWith (inputOf crypto) keys)
    (outputsOf params.amountSats params.changeSats recipientScript changeScript) witnesses
  have count : tx.vin.length = params.utxos.length := by
    change (List.zipWith _ _ _).length = _
    rw [List.length_zipWith, built.length_witnesses, built.length_inputs, Nat.min_self]
  have inputs : (writeVector writeTxIn tx.vin).length =
      compactSizeLength params.utxos.length + 41 * params.utxos.length := by
    have each : ∀ txin ∈ tx.vin, (writeTxIn txin).length = 41 := by
      intro txin member
      obtain ⟨input, _, witness, _, rfl⟩ := exists_of_mem_zipWith member
      exact length_writeTxIn_toTxIn input witness
    rw [writeVector, List.length_append, writeCompactSize_length, List.length_flatMap,
      List.map_congr_left each, List.map_const', List.sum_replicate_nat, count, Nat.mul_comm]
  have witnessed : (tx.vin.flatMap writeStack).length =
      37 * params.utxos.length + signatureBytes witnesses := by
    have same : tx.vin.flatMap writeStack = witnesses.flatMap (writeVector writeByteVector) :=
      flatMap_zipWith_right built.length_witnesses fun _ _ _ => rfl
    rw [same, length_stacks built.witness_items, built.length_witnesses, built.length_inputs]
  have outputs : (writeVector writeTxOut tx.vout).length =
      19 + recipientScript.length + changeScript.length := by
    have pair : tx.vout =
        [⟨params.amountSats, recipientScript⟩, ⟨params.changeSats, changeScript⟩] := by
      change List.map _ (outputsOf _ _ _ _) = _
      rw [outputsOf, if_pos change]
      rfl
    have recipient := @length_writeTxOut ⟨params.amountSats, recipientScript⟩
      (length_payScript built.recipient)
    have returned := @length_writeTxOut ⟨params.changeSats, changeScript⟩
      (length_payScript built.change)
    rw [pair, writeVector, List.length_append, writeCompactSize_length]
    simp [recipient, returned, compactSizeLength]
    omega
  have signed : tx.hasWitness = true := by
    obtain ⟨txin, rest, isCons⟩ := List.exists_cons_of_length_pos
      (count ▸ List.length_pos_iff.mpr nonempty)
    have member : txin ∈ tx.vin := isCons ▸ List.mem_cons_self
    obtain ⟨input, _, witness, listed, rfl⟩ := exists_of_mem_zipWith member
    obtain ⟨signature, publicKey, rfl, _⟩ := built.witness_items witness listed
    exact List.any_eq_true.mpr ⟨_, member, rfl⟩
  have base : (serializeTransaction false tx).length =
      27 + compactSizeLength params.utxos.length + 41 * params.utxos.length +
        (recipientScript.length + changeScript.length) := by
    simp only [serializeTransaction, writeUint32, Bool.false_and, Bool.false_eq_true, if_false,
      List.append_nil, List.length_append, littleEndian_length, inputs, outputs]
    omega
  have total : (serializeTransaction true tx).length = (serializeTransaction false tx).length +
      2 + 37 * params.utxos.length + signatureBytes witnesses := by
    simp only [serializeTransaction, signed, Bool.true_and, Bool.false_and, Bool.false_eq_true,
      if_true, if_false, List.append_nil, List.length_append, witnessed]
    change _ + 2 + _ + _ + _ + _ = _
    omega
  rw [virtualSize, total, base, signedSize]
  omega

end

/-- The estimate in the smallest unit: the size is taken from the number of inputs alone, and the
value from the amount without the change. -/
theorem estimateFor_eq (amountAdo : ℚ) (numInputs : Nat) :
    estimateFor model amountAdo numInputs * 100000000 =
      max (model.min_fee : ℚ) (model.alpha.nSatoshisPerK * (145 / 2 + 41 * numInputs) / 1000 +
        model.beta.getD 0 * amountAdo * 100000000) := by
  rw [estimateFor, estimateLightFee, max_mul_of_nonneg _ _ (by norm_num)]
  congr 1
  · ring
  · ring

/-- With change, the estimated fee covers the demand for the transaction that is built exactly when
it reaches the upper bound of the model, or what the model charges for the size with the
signatures and for both outputs. -/
theorem estimate_covers_iff (model : Policy.FeeModel) (nonempty : params.utxos ≠ [])
    (estimated : params.feeAdo = estimateFor model params.amountAdo params.utxos.length)
    (builds : buildAndSignTx library crypto params = some hex) (change : params.changeSats > 546) :
    ∃ recipientScript changeScript keys witnesses,
      Built library crypto params hex recipientScript changeScript keys witnesses ∧
        let tx := nodeTx (params.utxos.zipWith (inputOf crypto) keys)
          (outputsOf params.amountSats params.changeSats recipientScript changeScript) witnesses
        let size := signedSize params.utxos.length (recipientScript.length + changeScript.length)
          (signatureBytes witnesses)
        let estimate : ℚ := max model.min_fee
          (model.alpha.nSatoshisPerK * (145 / 2 + 41 * params.utxos.length) / 1000 +
            model.beta.getD 0 * params.amountAdo * 100000000)
        ∀ fee, calculateFee model (virtualSize tx) (valueOut tx.vout) false = some fee →
          ((fee : ℚ) ≤ params.feeAdo * 100000000 ↔ (model.max_fee : ℚ) ≤ estimate ∨
            ∃ sizeFee valueFee, model.alpha.getFee (UInt32.ofNat size) = some sizeFee ∧
              model.valueFee (params.amountSats + params.changeSats) = some valueFee ∧
              (sizeFee + valueFee : ℚ) ≤ estimate) := by
  obtain ⟨recipientScript, changeScript, keys, witnesses, built⟩ := buildAndSignTx_some builds
  refine ⟨recipientScript, changeScript, keys, witnesses, built, ?_⟩
  intro tx size estimate fee demanded
  have value : valueOut tx.vout = params.amountSats + params.changeSats := by
    change valueOut (List.map _ (outputsOf _ _ _ _)) = _
    rw [outputsOf, if_pos change]
    change params.amountSats + (params.changeSats + 0) = _
    rw [Int.add_zero]
  have isEstimate : params.feeAdo * 100000000 = estimate := by
    rw [estimated]
    exact estimateFor_eq model _ _
  rw [value, built.virtualSize_eq nonempty change] at demanded
  change calculateFee model size _ false = some fee at demanded
  unfold calculateFee at demanded
  obtain ⟨sizeFee, chargesSize, demanded⟩ := Option.bind_eq_some_iff.mp demanded
  obtain ⟨valueFee, chargesValue, demanded⟩ := Option.bind_eq_some_iff.mp demanded
  obtain ⟨charge, fits, clamped⟩ := Option.bind_eq_some_iff.mp demanded
  obtain ⟨rfl, _⟩ := Policy.checked64_eq_some_iff.mp fits
  change stdClamp (sizeFee + valueFee) _ _ = some fee at clamped
  rw [isEstimate, clamp_le_iff clamped (le_max_left _ _), or_comm, Int.cast_add]
  apply or_congr_right
  constructor
  · intro within
    exact ⟨_, _, chargesSize, chargesValue, within⟩
  · rintro ⟨_, _, isSize, isValue, within⟩
    cases chargesSize.symm.trans isSize
    cases chargesValue.symm.trans isValue
    exact within

def sendingEstimated (coin amountAdo : ℚ) : BuildTxParams where
  utxos := [{ txid := zeroTxid, vout := 0, amountAdo := coin, isChange := false, index := 0
              vout_lt := Nat.two_pow_pos 32 }]
  recipientAddress := keyHashAddress
  amountAdo := amountAdo
  changeAddress := keyHashAddress
  feeAdo := estimateFor Policy.defaultFeeModel amountAdo 1
  mnemonic := ""
  passphrase := ""

/-- About 511 units are paid where 500013 are demanded. -/
theorem estimate_below_demand :
    let params := sendingEstimated 1000 1
    ∃ hex recipientScript changeScript keys witnesses,
      Built standardLibrary zeroCrypto params hex recipientScript changeScript keys witnesses ∧
        params.changeSats > 546 ∧
        calculateFee Policy.defaultFeeModel
            (virtualSize (nodeTx (params.utxos.zipWith (inputOf zeroCrypto) keys)
              (outputsOf params.amountSats params.changeSats recipientScript changeScript)
              witnesses))
            (params.amountSats + params.changeSats) false = some 500013 ∧
        params.feeAdo * 100000000 < 512 := by
  intro params
  have pays : payScript standardLibrary keyHashAddress = some (p2wpkhScript (zeros 20).1) := by
    decide +kernel
  refine ⟨_, _, _, [⟨zeros 32, zeros 33⟩], [[(zeros 8).1 ++ [0x01], (zeros 33).1]],
    { funded := by decide +kernel
      recipient := pays
      change := pays
      derived := rfl
      signed := rfl
      text := rfl }, ?_⟩
  decide +kernel

/-- The estimate for a payment of 3000 coins is above the upper bound of the model. -/
theorem estimate_covers_large_payment :
    let params := sendingEstimated 4000 3000
    ∃ hex recipientScript changeScript keys witnesses,
      Built standardLibrary zeroCrypto params hex recipientScript changeScript keys witnesses ∧
        let tx := nodeTx (params.utxos.zipWith (inputOf zeroCrypto) keys)
          (outputsOf params.amountSats params.changeSats recipientScript changeScript) witnesses
        ∀ fee, calculateFee Policy.defaultFeeModel (virtualSize tx) (valueOut tx.vout) false =
          some fee → (fee : ℚ) ≤ params.feeAdo * 100000000 := by
  intro params
  obtain ⟨hex, builds⟩ := Option.isSome_iff_exists.mp
    (by decide +kernel : (buildAndSignTx standardLibrary zeroCrypto params).isSome = true)
  obtain ⟨recipientScript, changeScript, keys, witnesses, built, covers⟩ :=
    estimate_covers_iff Policy.defaultFeeModel (List.cons_ne_nil _ _) rfl builds (by decide +kernel)
  refine ⟨hex, recipientScript, changeScript, keys, witnesses, built, ?_⟩
  intro tx fee demanded
  exact (covers fee demanded).mpr (.inl (by decide +kernel))

end Adonai.Light
