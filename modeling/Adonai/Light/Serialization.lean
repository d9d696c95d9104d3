/-
What the node reads from a transaction of the light wallet.

The wallet has a serializer and a signature hash of its own. Both write what the node writes
for the same transaction as long as the amounts fit 64 bits.
-/

import Adonai.Light.Payment
import Adonai.Script.SignatureHash

namespace Adonai.Light

open Bech32 (getElem?_of_mapM)
open List (append_assoc length_append length_cons length_map mem_cons_self mem_map mem_pair)

private theorem mapM_isSome {α β : Type} {f : α → Option β} {xs : List α}
    (all : ∀ x ∈ xs, (f x).isSome = true) : (xs.mapM f).isSome = true := by
  induction xs with
  | nil => rfl
  | cons x xs ih =>
    rw [List.forall_mem_cons] at all
    obtain ⟨y, first⟩ := Option.isSome_iff_exists.mp all.1
    obtain ⟨rest, later⟩ := Option.isSome_iff_exists.mp (ih all.2)
    rw [List.mapM_cons, first, later]
    rfl

theorem exists_of_mem_zipWith {α β γ : Type} {join : α → β → γ} {xs : List α} {ys : List β} {z : γ}
    (member : z ∈ xs.zipWith join ys) : ∃ x ∈ xs, ∃ y ∈ ys, join x y = z := by
  obtain ⟨i, listed⟩ := List.mem_iff_getElem?.mp member
  obtain ⟨x, y, left, right, joined⟩ := List.getElem?_zipWith_eq_some.mp listed
  exact ⟨x, List.mem_of_getElem? left, y, List.mem_of_getElem? right, joined⟩

section

variable {α β γ δ : Type} {xs : List α} {ys : List β} (length : ys.length = xs.length)

include length

private theorem flatMap_zipWith_left {join : α → β → γ} {write : γ → List δ} {front : α → List δ}
    (same : ∀ x ∈ xs, ∀ y, write (join x y) = front x) :
    (xs.zipWith join ys).flatMap write = xs.flatMap front := by
  induction xs generalizing ys with
  | nil => rfl
  | cons x xs ih =>
    cases ys with
    | nil => cases length
    | cons y ys =>
      rw [List.forall_mem_cons] at same
      rw [List.zipWith_cons_cons, List.flatMap_cons, List.flatMap_cons, same.1,
        ih (Nat.succ.inj length) same.2]

theorem flatMap_zipWith_right {join : α → β → γ} {write : γ → List δ} {back : β → List δ}
    (same : ∀ x, ∀ y ∈ ys, write (join x y) = back y) :
    (xs.zipWith join ys).flatMap write = ys.flatMap back := by
  rw [List.zipWith_comm]
  exact flatMap_zipWith_left length.symm fun y member x => same x y member

end

theorem writeUint64LE_eq {value : Int} (fits : InInt64 value) :
    writeUint64LE value = writeInt64 value := by
  obtain ⟨low, high⟩ := fits
  have exact53 : Binary64.ofInt (value / 2 ^ 32) = (value / 2 ^ 32 : Int) :=
    Binary64.ofInt_eq _ (by rw [abs_lt]; omega)
  have whole : Binary64.toInt ((value / 2 ^ 32 : Int) : ℚ) = value / 2 ^ 32 :=
    le_antisymm (Binary64.toInt_le _ _ le_rfl) (Binary64.le_toInt _ _ le_rfl)
  have lower : (value % 2 ^ 32).toNat = (value % 2 ^ 64).toNat % 256 ^ 4 := by omega
  have upper : (value / 2 ^ 32 % 2 ^ 32).toNat = (value % 2 ^ 64).toNat / 256 ^ 4 := by omega
  rw [writeUint64LE, exact53, whole, lower, upper, littleEndian_mod, writeInt64, ← littleEndian_add]

theorem writeVarInt_eq {n : Nat} (small : n ≤ 0xffffffff) : writeVarInt n = writeCompactSize n := by
  unfold writeVarInt writeCompactSize
  rw [if_pos small]

theorem writeUint32LE_eq {n : Nat} (small : n < 2 ^ 32) :
    writeUint32LE n = writeUint32 (UInt32.ofNat n) := by
  rw [writeUint32LE, writeUint32, UInt32.toNat_ofNat_of_lt' small]

theorem hexValue_lt (c : Char) : (hexValue c).getD 0 < 16 := by
  unfold hexValue
  split
  next digit =>
    have code : c.toNat ≤ 57 := digit.2
    rw [Option.getD_some]
    omega
  split
  next lower =>
    have code : c.toNat ≤ 102 := lower.2
    rw [Option.getD_some]
    omega
  split
  next upper =>
    have code : c.toNat ≤ 70 := upper.2
    rw [Option.getD_some]
    omega
  · decide

def hexNumberFrom (value : Nat) (text : List Char) : Nat :=
  text.foldl (fun value c => 16 * value + (hexValue c).getD 0) value

def hexNumber (text : List Char) : Nat := hexNumberFrom 0 text

def Txid.hash (txid : Txid) : Uint256 := BitVec.ofNat 256 (hexNumber txid.text)

theorem littleEndian_hexNumberFrom : ∀ (text : List Char) (value size more : Nat),
    text.length = 2 * size →
      littleEndian (size + more) (hexNumberFrom value text) =
        (hexToBytes text).reverse ++ littleEndian more value
  | [], value, size, more, length => by
    have none : size = 0 := by
      rw [List.length_nil] at length
      omega
    rw [none, Nat.zero_add]
    rfl
  | [_], _, _, _, length => by
    rw [List.length_singleton] at length
    omega
  | high :: low :: rest, value, 0, more, length => by
    rw [length_cons] at length
    omega
  | high :: low :: rest, value, size + 1, more, length => by
    have shorter : rest.length = 2 * size := by
      rw [length_cons, length_cons] at length
      omega
    have highDigit := hexValue_lt high
    have lowDigit := hexValue_lt low
    have next : hexNumberFrom value (high :: low :: rest) =
        hexNumberFrom (16 * (16 * value + (hexValue high).getD 0) + (hexValue low).getD 0) rest :=
      rfl
    have byte : UInt8.ofNat (16 * (16 * value + (hexValue high).getD 0) + (hexValue low).getD 0) =
        UInt8.ofNat (16 * (hexValue high).getD 0 + (hexValue low).getD 0) := by
      apply UInt8.toNat_inj.mp
      rw [UInt8.toNat_ofNat', UInt8.toNat_ofNat']
      omega
    have before : (16 * (16 * value + (hexValue high).getD 0) + (hexValue low).getD 0) / 256 =
        value := by
      omega
    rw [next, Nat.add_right_comm size 1 more, Nat.add_assoc size more 1,
      littleEndian_hexNumberFrom rest _ size (more + 1) shorter, littleEndian, byte, before,
      hexToBytes, List.reverse_cons, append_assoc, List.singleton_append]

private theorem hexNumber_lt (text : List Char) : hexNumber text < 16 ^ text.length := by
  have bound := @Radix.valueOf_lt 16 (text.map fun c => (hexValue c).getD 0) (by decide)
    (List.forall_mem_map.mpr fun c _ => hexValue_lt c)
  rw [length_map, Radix.valueOf, Radix.extend, List.foldl_map] at bound
  exact bound

theorem writeUint256_hash (txid : Txid) :
    writeUint256 txid.hash = (hexToBytes txid.text).reverse := by
  have small : hexNumber txid.text < 2 ^ 256 := by
    have bound := hexNumber_lt txid.text
    rw [txid.length] at bound
    exact bound
  have number : txid.hash.toNat = hexNumber txid.text := by
    rw [Txid.hash, BitVec.toNat_ofNat, Nat.mod_eq_of_lt small]
  rw [writeUint256, number]
  have written := littleEndian_hexNumberFrom txid.text 0 32 0 txid.length
  rw [littleEndian, List.append_nil] at written
  exact written

/-! ### The transaction the node reads -/

def TxInput.toTxIn (input : TxInput) (witness : List (List UInt8)) : CTxIn where
  prevout := { hash := input.txid.hash, n := UInt32.ofNat input.vout }
  scriptSig := []
  nSequence := UInt32.ofNat input.sequence
  scriptWitness := witness

def TxOutput.toTxOut (output : TxOutput) : CTxOut where
  nValue := output.valueSats
  scriptPubKey := output.scriptPubKey

def nodeTx (inputs : List TxInput) (outputs : List TxOutput)
    (witnesses : List (List (List UInt8))) : CMutableTransaction where
  vin := inputs.zipWith TxInput.toTxIn witnesses
  vout := outputs.map TxOutput.toTxOut
  version := 2
  nLockTime := 0

structure TxInput.Fits (input : TxInput) : Prop where
  vout : input.vout < 2 ^ 32
  sequence : input.sequence < 2 ^ 32
  amount : InInt64 input.amountSats

structure TxOutput.Fits (output : TxOutput) : Prop where
  script : output.scriptPubKey.length ≤ MAX_SIZE
  value : InInt64 output.valueSats

theorem writeOutPoint_toTxIn {input : TxInput} (fits : input.Fits) (witness : List (List UInt8)) :
    writeOutPoint (input.toTxIn witness).prevout = writePrevout input := by
  rw [writePrevout, writeUint32LE_eq fits.vout, ← writeUint256_hash]
  rfl

theorem writeTxIn_toTxIn {input : TxInput} (fits : input.Fits) (witness : List (List UInt8)) :
    writeTxIn (input.toTxIn witness) =
      writePrevout input ++ [0x00] ++ writeUint32LE input.sequence := by
  rw [writeTxIn, writeOutPoint_toTxIn fits, writeUint32LE_eq fits.sequence]
  rfl

private theorem writeTxOut_toTxOut {output : TxOutput} (fits : output.Fits) :
    writeTxOut output.toTxOut = writeOutput output := by
  have short : output.scriptPubKey.length ≤ 0xffffffff := fits.script.trans (by decide)
  rw [writeOutput, writeUint64LE_eq fits.value, writeVarInt_eq short]
  rfl

theorem flatMap_toTxOut {outputs : List TxOutput} (fits : ∀ output ∈ outputs, output.Fits) :
    (outputs.map TxOutput.toTxOut).flatMap writeTxOut = outputs.flatMap writeOutput := by
  rw [List.flatMap_map]
  apply List.flatMap_congr
  intro output member
  exact writeTxOut_toTxOut (fits output member)

theorem writeStack_toTxIn (input : TxInput) {witness : List (List UInt8)}
    (few : witness.length ≤ MAX_SIZE) (short : ∀ item ∈ witness, item.length ≤ MAX_SIZE) :
    writeStack (input.toTxIn witness) =
      writeVarInt witness.length ++ witness.flatMap writeItem := by
  rw [writeVarInt_eq (few.trans (by decide))]
  change writeCompactSize witness.length ++ witness.flatMap writeByteVector = _
  congr 1
  apply List.flatMap_congr
  intro item member
  rw [writeItem, writeVarInt_eq ((short item member).trans (by decide))]
  rfl

theorem writeByteVector_pkHash (id : Key.Bytes 20) :
    writeByteVector (Key.getScriptForDestination (.pkHash id)) =
      [0x19, 0x76, 0xa9, 0x14] ++ id.1 ++ [0x88, 0xac] := by
  have script : Key.getScriptForDestination (.pkHash id) =
      [0x76, 0xa9, 0x14] ++ id.1 ++ [0x88, 0xac] := by
    change [Compressor.OP_DUP, Compressor.OP_HASH160] ++ (CScript.dataSize id.1.length ++ id.1) ++
      [Compressor.OP_EQUALVERIFY, Compressor.OP_CHECKSIG] = _
    rw [id.2]
    rfl
  have length : ([0x76, 0xa9, 0x14] ++ id.1 ++ [0x88, 0xac]).length = 25 := by
    rw [length_append, length_append, id.2]
    rfl
  rw [writeByteVector, script, length]
  rfl

/-- The parts of a transaction go together and fit their types. -/
structure Fitting (inputs : List TxInput) (outputs : List TxOutput)
    (witnesses : List (List (List UInt8))) : Prop where
  nonempty : inputs ≠ []
  length : witnesses.length = inputs.length
  fewInputs : inputs.length ≤ MAX_SIZE
  fewOutputs : outputs.length ≤ MAX_SIZE
  inputs : ∀ input ∈ inputs, input.Fits
  outputs : ∀ output ∈ outputs, output.Fits
  witnesses : ∀ witness ∈ witnesses, witness ≠ [] ∧ witness.length ≤ MAX_SIZE ∧
    ∀ item ∈ witness, item.length ≤ MAX_SIZE

section

variable {inputs : List TxInput} {outputs : List TxOutput} {witnesses : List (List (List UInt8))}

section

variable (fitting : Fitting inputs outputs witnesses)

include fitting

theorem Fitting.length_vin : (nodeTx inputs outputs witnesses).vin.length = inputs.length := by
  change (inputs.zipWith TxInput.toTxIn witnesses).length = _
  rw [List.length_zipWith, fitting.length, Nat.min_self]

theorem Fitting.hasWitness : (nodeTx inputs outputs witnesses).hasWitness = true := by
  obtain ⟨input, rest, rfl⟩ := List.exists_cons_of_ne_nil fitting.nonempty
  obtain ⟨witness, others, rfl⟩ := List.exists_cons_of_length_eq_add_one fitting.length
  have signed := (fitting.witnesses witness mem_cons_self).1
  apply List.any_eq_true.mpr
  refine ⟨input.toTxIn witness, mem_cons_self, ?_⟩
  change (!witness.isEmpty) = true
  rw [List.isEmpty_eq_false_iff.mpr signed]
  rfl

theorem Fitting.serializeSegwit_eq : serializeSegwit inputs outputs witnesses =
      serializeTransaction true (nodeTx inputs outputs witnesses) := by
  have vin : (nodeTx inputs outputs witnesses).vin.flatMap writeTxIn =
      inputs.flatMap fun inp => writePrevout inp ++ [0x00] ++ writeUint32LE inp.sequence :=
    flatMap_zipWith_left fitting.length fun input member =>
      writeTxIn_toTxIn (fitting.inputs input member)
  have vout : (nodeTx inputs outputs witnesses).vout.flatMap writeTxOut =
      outputs.flatMap writeOutput := flatMap_toTxOut fitting.outputs
  have signatures : (nodeTx inputs outputs witnesses).vin.flatMap writeStack =
      witnesses.flatMap fun witness =>
        writeVarInt witness.length ++ witness.flatMap writeItem :=
    flatMap_zipWith_right fitting.length fun input witness member =>
      writeStack_toTxIn input (fitting.witnesses witness member).2.1
        (fitting.witnesses witness member).2.2
  have countOutputs : (nodeTx inputs outputs witnesses).vout.length = outputs.length := length_map _
  simp only [serializeTransaction, fitting.hasWitness, writeVector, vin,
    vout, signatures, fitting.length_vin, countOutputs]
  rw [serializeSegwit, writeVarInt_eq (fitting.fewInputs.trans (by decide)),
    writeVarInt_eq (fitting.fewOutputs.trans (by decide))]
  simp only [append_assoc]
  rfl

theorem Fitting.serializable : (nodeTx inputs outputs witnesses).Serializable where
  inputs := fitting.length_vin.trans_le fitting.fewInputs
  outputs := (length_map _).trans_le fitting.fewOutputs
  scripts := by
    intro txin member
    obtain ⟨input, _, witness, _, rfl⟩ := exists_of_mem_zipWith member
    exact Nat.zero_le _
  witnesses := by
    intro txin member
    obtain ⟨input, _, witness, listed, rfl⟩ := exists_of_mem_zipWith member
    exact (fitting.witnesses witness listed).2
  amounts := by
    intro txout member
    obtain ⟨output, listed, rfl⟩ := mem_map.mp member
    exact ⟨(fitting.outputs output listed).value, (fitting.outputs output listed).script⟩

theorem Fitting.reads : unserializeTransaction true (serializeSegwit inputs outputs witnesses) =
      some (nodeTx inputs outputs witnesses, []) := by
  have nonempty : (nodeTx inputs outputs witnesses).vin ≠ [] := by
    apply List.ne_nil_of_length_pos
    rw [fitting.length_vin]
    exact List.length_pos_iff.mpr fitting.nonempty
  have reads := reads_transaction nonempty fitting.serializable []
  rw [List.append_nil] at reads
  rw [fitting.serializeSegwit_eq]
  exact reads

theorem Fitting.bip143SigHash_eq (crypto : Crypto)
    {i : Nat} {input : TxInput} (listed : inputs[i]? = some input) :
    bip143SigHash crypto VERSION inputs outputs i LOCKTIME =
      signatureHash crypto.sha256 (Key.getScriptForDestination (.pkHash input.pubKeyHash))
        (nodeTx inputs outputs witnesses) i SIGHASH_ALL input.amountSats := by
  obtain ⟨inside, _⟩ := List.getElem?_eq_some_iff.mp listed
  rw [← fitting.length] at inside
  have txin : (nodeTx inputs outputs witnesses).vin[i]? = some (input.toTxIn witnesses[i]) :=
    List.getElem?_zipWith_eq_some.mpr
      ⟨input, witnesses[i], listed, List.getElem?_eq_getElem inside, rfl⟩
  have fits := fitting.inputs input (List.mem_of_getElem? listed)
  have prevouts : ((nodeTx inputs outputs witnesses).vin.flatMap fun txin =>
      writeOutPoint txin.prevout) = inputs.flatMap writePrevout :=
    flatMap_zipWith_left fitting.length fun other member =>
      writeOutPoint_toTxIn (fitting.inputs other member)
  have sequences : ((nodeTx inputs outputs witnesses).vin.flatMap fun txin =>
      writeUint32 txin.nSequence) = inputs.flatMap fun other => writeUint32LE other.sequence :=
    flatMap_zipWith_left fitting.length fun other member _ =>
      (writeUint32LE_eq (fitting.inputs other member).sequence).symm
  have vout : (nodeTx inputs outputs witnesses).vout.flatMap writeTxOut =
      outputs.flatMap writeOutput := flatMap_toTxOut fitting.outputs
  have code := writeByteVector_pkHash input.pubKeyHash
  rw [signatureHash, txin, getPrevoutsSHA256, prevouts, getSequencesSHA256, sequences,
    getOutputsSHA256, vout, bip143SigHash, listed, code]
  dsimp only [Option.map_some]
  rw [writeOutPoint_toTxIn fits, writeUint64LE_eq fits.amount, writeUint32LE_eq fits.sequence]
  rfl

end

end

/-! ### Transactions of the wallet -/

/-- The node reads the text to its end, as the transaction with the inputs, the outputs and the
signatures of the payment. -/
structure Transmits (crypto : Crypto) (params : BuildTxParams)
    (recipientScript changeScript : List UInt8) (keys : List KeyPair) (hex : List Char)
    (tx : CMutableTransaction) : Prop where
  reads : ∃ bytes, hex = bytesToHex bytes ∧ unserializeTransaction true bytes = some (tx, [])
  version : tx.version = 2
  nLockTime : tx.nLockTime = 0
  vout : tx.vout = (outputsOf params.amountSats params.changeSats recipientScript changeScript).map
    TxOutput.toTxOut
  count : tx.vin.length = params.utxos.length
  vin : ∀ (i : Nat) (u : LightUTXO) (key : KeyPair), params.utxos[i]? = some u →
    keys[i]? = some key →
    ∃ sigHash,
      bip143SigHash crypto VERSION (params.utxos.zipWith (inputOf crypto) keys)
          (outputsOf params.amountSats params.changeSats recipientScript changeScript) i LOCKTIME =
        some sigHash ∧
      tx.vin[i]? = some
        { prevout := { hash := u.txid.hash, n := UInt32.ofNat u.vout }
          scriptSig := []
          nSequence := 0xfffffffd
          scriptWitness :=
            [crypto.sign defaultPrehash sigHash key.privateKey ++ [0x01], key.publicKey.1] } ∧
      signatureHash crypto.sha256
          (Key.getScriptForDestination (.pkHash (crypto.hash160 key.publicKey.1))) tx i SIGHASH_ALL
          (adoToSats u.amountAdo) = some (crypto.signedDigest defaultPrehash sigHash)

variable {library : Bech32Library} {crypto : Crypto} {params : BuildTxParams} {hex : List Char}

theorem Transmits.fits {recipientScript changeScript : List UInt8} {keys : List KeyPair}
    {tx : CMutableTransaction}
    (transmits : Transmits crypto params recipientScript changeScript keys hex tx) :
    params.utxos.length ≤ MAX_SIZE ∧
      ∀ output ∈ outputsOf params.amountSats params.changeSats recipientScript changeScript,
        InInt64 output.valueSats := by
  obtain ⟨bytes, _, parses⟩ := transmits.reads
  obtain ⟨few, values⟩ := returns_transaction true bytes tx [] parses
  rw [transmits.count] at few
  refine ⟨few, ?_⟩
  intro output member
  apply values output.toTxOut
  rw [transmits.vout]
  exact List.mem_map_of_mem member

theorem payment_mem_outputsOf (amountSats changeSats : Int)
    (recipientScript changeScript : List UInt8) :
    { scriptPubKey := recipientScript, valueSats := amountSats } ∈
      outputsOf amountSats changeSats recipientScript changeScript := by
  unfold outputsOf
  split
  · exact mem_cons_self
  · exact mem_cons_self

theorem change_mem_outputsOf {changeSats : Int} (large : changeSats > 546) (amountSats : Int)
    (recipientScript changeScript : List UInt8) :
    { scriptPubKey := changeScript, valueSats := changeSats } ∈
      outputsOf amountSats changeSats recipientScript changeScript := by
  unfold outputsOf
  rw [if_pos large]
  exact List.mem_cons_of_mem _ mem_cons_self

theorem length_payScript {address : List Char} {script : List UInt8}
    (pays : payScript library address = some script) : script.length < 253 := by
  obtain ⟨⟨hrp, words⟩, decodes, pays⟩ := Option.bind_eq_some_iff.mp pays
  obtain ⟨program, converts, pays⟩ := Option.bind_eq_some_iff.mp pays
  cases pays
  have short := library.decode_short _ _ _ decodes
  have shorter := library.fromWords_short _ _ converts
  rw [List.length_drop] at shorter
  change program.length + 1 + 1 < 253
  unfold Bech32.CharLimit at short
  omega

section

variable {recipientScript changeScript : List UInt8} {keys : List KeyPair}
  {witnesses : List (List (List UInt8))}

private theorem getElem?_inputs {i : Nat} {u : LightUTXO} {key : KeyPair}
    (listed : params.utxos[i]? = some u) (derived : keys[i]? = some key) :
    (params.utxos.zipWith (inputOf crypto) keys)[i]? = some (inputOf crypto u key) :=
  List.getElem?_zipWith_eq_some.mpr ⟨u, key, listed, derived, rfl⟩

section

variable (built : Built library crypto params hex recipientScript changeScript keys witnesses)

include built

theorem Built.length_keys : keys.length = params.utxos.length := (getElem?_of_mapM built.derived).1

theorem Built.length_inputs :
    (params.utxos.zipWith (inputOf crypto) keys).length = params.utxos.length := by
  rw [List.length_zipWith, built.length_keys, Nat.min_self]

theorem Built.length_witnesses :
    witnesses.length = (params.utxos.zipWith (inputOf crypto) keys).length := by
  rw [(getElem?_of_mapM built.signed).1, List.length_range]

theorem Built.witness {i : Nat} {u : LightUTXO} {key : KeyPair} (listed : params.utxos[i]? = some u)
    (derived : keys[i]? = some key) : ∃ digest,
      bip143SigHash crypto VERSION (params.utxos.zipWith (inputOf crypto) keys)
          (outputsOf params.amountSats params.changeSats recipientScript changeScript) i LOCKTIME =
        some digest ∧
      witnesses[i]? =
        some [crypto.sign defaultPrehash digest key.privateKey ++ [0x01], key.publicKey.1] := by
  have input := @getElem?_inputs crypto _ _ _ _ _ listed derived
  obtain ⟨inside, _⟩ := List.getElem?_eq_some_iff.mp input
  have entry := (getElem?_of_mapM built.signed).2 i
  rw [List.getElem?_range inside, Option.bind_some, signInput, bip143SigHash, input, derived]
    at entry
  rw [bip143SigHash, input]
  exact ⟨_, rfl, entry⟩

theorem Built.witness_items : ∀ witness ∈ witnesses, ∃ signature publicKey,
    witness = [signature ++ [0x01], publicKey] ∧ signature.length ≤ 72 ∧
      publicKey.length = 33 := by
  intro witness member
  obtain ⟨i, listed⟩ := List.mem_iff_getElem?.mp member
  obtain ⟨inside, _⟩ := List.getElem?_eq_some_iff.mp listed
  rw [built.length_witnesses, built.length_inputs] at inside
  have keyed : i < keys.length := inside.trans_eq built.length_keys.symm
  obtain ⟨digest, _, entry⟩ := built.witness (List.getElem?_eq_getElem inside)
    (List.getElem?_eq_getElem keyed)
  rw [entry] at listed
  cases listed
  exact ⟨_, _, rfl, crypto.ecdsa_length _ _, keys[i].publicKey.2⟩

theorem Built.fitting (nonempty : params.utxos ≠ [])
    (amounts : ∀ u ∈ params.utxos, moneyRange (adoToSats u.amountAdo) = true)
    (few : params.utxos.length ≤ MAX_SIZE) (amountFits : InInt64 params.amountSats)
    (changeFits : params.changeSats > 546 → InInt64 params.changeSats) :
    Fitting (params.utxos.zipWith (inputOf crypto) keys)
      (outputsOf params.amountSats params.changeSats recipientScript changeScript) witnesses where
  nonempty := by
    apply List.ne_nil_of_length_pos
    rw [built.length_inputs]
    exact List.length_pos_iff.mpr nonempty
  length := built.length_witnesses
  fewInputs := built.length_inputs.trans_le few
  fewOutputs := by
    have pair : 2 ≤ MAX_SIZE := by decide
    unfold outputsOf
    dsimp only
    split
    · exact pair
    · exact Nat.le_of_succ_le pair
  inputs := by
    intro input member
    obtain ⟨u, listed, key, _, rfl⟩ := exists_of_mem_zipWith member
    have range := (moneyRange_iff _).mp (amounts u listed)
    have sequence : 0xfffffffd < 2 ^ 32 := by decide
    refine ⟨u.vout_lt, sequence, ?_⟩
    change InInt64 (adoToSats u.amountAdo)
    unfold MAX_MONEY COIN at range
    unfold InInt64
    omega
  outputs := by
    intro output member
    unfold outputsOf at member
    dsimp only at member
    split at member
    next large =>
      rcases mem_pair.mp member with rfl | rfl
      · exact ⟨(length_payScript built.recipient).le.trans (by decide), amountFits⟩
      · exact ⟨(length_payScript built.change).le.trans (by decide), changeFits large⟩
    next =>
      rw [List.mem_singleton.mp member]
      exact ⟨(length_payScript built.recipient).le.trans (by decide), amountFits⟩
  witnesses := by
    intro witness member
    obtain ⟨signature, publicKey, rfl, shortSignature, length⟩ := built.witness_items witness member
    have pair : 2 ≤ MAX_SIZE := by decide
    refine ⟨List.cons_ne_nil _ _, pair, ?_⟩
    intro item member
    rcases mem_pair.mp member with rfl | rfl
    · rw [length_append, List.length_singleton]
      unfold MAX_SIZE
      omega
    · rw [length]
      decide

/-- The node reads nothing but the transaction that was built. -/
theorem Built.eq_nodeTx {tx : CMutableTransaction}
    (transmits : Transmits crypto params recipientScript changeScript keys hex tx) :
    tx = nodeTx (params.utxos.zipWith (inputOf crypto) keys)
      (outputsOf params.amountSats params.changeSats recipientScript changeScript) witnesses := by
  have vin : tx.vin =
      (params.utxos.zipWith (inputOf crypto) keys).zipWith TxInput.toTxIn witnesses := by
    apply List.ext_getElem?
    intro i
    by_cases inside : i < params.utxos.length
    · have keyed : i < keys.length := inside.trans_eq built.length_keys.symm
      have listed := List.getElem?_eq_getElem inside
      have derived := List.getElem?_eq_getElem keyed
      obtain ⟨digest, isDigest, entry⟩ := built.witness listed derived
      obtain ⟨sigHash, isHash, read, _⟩ := transmits.vin i _ _ listed derived
      obtain rfl := Option.some.inj (isDigest.symm.trans isHash)
      rw [read, eq_comm]
      exact List.getElem?_zipWith_eq_some.mpr ⟨_, _, getElem?_inputs listed derived, entry, rfl⟩
    · rw [List.getElem?_eq_none (transmits.count.trans_le (Nat.not_lt.mp inside)),
        List.getElem?_eq_none]
      rw [List.length_zipWith, built.length_inputs]
      omega
  obtain ⟨_, _, _, _⟩ := tx
  obtain rfl := transmits.version
  obtain rfl := transmits.nLockTime
  obtain rfl := transmits.vout
  obtain rfl := vin
  rfl

theorem Built.transmits_iff (nonempty : params.utxos ≠ [])
    (amounts : ∀ u ∈ params.utxos, moneyRange (adoToSats u.amountAdo) = true) :
    (∃ tx, Transmits crypto params recipientScript changeScript keys hex tx) ↔
      params.utxos.length ≤ MAX_SIZE ∧ InInt64 params.amountSats ∧
        (params.changeSats > 546 → InInt64 params.changeSats) ∧
        ∀ i sigHash, bip143SigHash crypto VERSION (params.utxos.zipWith (inputOf crypto) keys)
            (outputsOf params.amountSats params.changeSats recipientScript changeScript) i
              LOCKTIME = some sigHash → crypto.sha256 sigHash = sigHash := by
  constructor
  · rintro ⟨tx, transmits⟩
    obtain ⟨few, values⟩ := transmits.fits
    have amountFits := values _ (payment_mem_outputsOf _ _ _ _)
    have changeFits := fun large => values _ (change_mem_outputsOf large _ _ _)
    refine ⟨few, amountFits, changeFits, ?_⟩
    intro i sigHash isHash
    have fitting := built.fitting nonempty amounts few amountFits changeFits
    obtain ⟨_, entry, _⟩ := Option.map_eq_some_iff.mp isHash
    obtain ⟨u, key, listed, derived, rfl⟩ := List.getElem?_zipWith_eq_some.mp entry
    obtain ⟨digest, isDigest, _, signs⟩ := transmits.vin i u key listed derived
    obtain rfl := Option.some.inj (isHash.symm.trans isDigest)
    rw [built.eq_nodeTx transmits] at signs
    rw [fitting.bip143SigHash_eq crypto entry] at isHash
    exact Option.some.inj (signs.symm.trans isHash)
  · rintro ⟨few, amountFits, changeFits, fixed⟩
    have fitting := built.fitting nonempty amounts few amountFits changeFits
    refine ⟨nodeTx (params.utxos.zipWith (inputOf crypto) keys)
      (outputsOf params.amountSats params.changeSats recipientScript changeScript) witnesses, ?_⟩
    constructor
    case reads => exact ⟨_, built.text, fitting.reads⟩
    case version => rfl
    case nLockTime => rfl
    case vout => rfl
    case count => rw [fitting.length_vin, built.length_inputs]
    case vin =>
      intro i u key listed derived
      obtain ⟨digest, isDigest, entry⟩ := built.witness listed derived
      have isInput := @getElem?_inputs crypto _ _ _ _ _ listed derived
      refine ⟨digest, isDigest,
        List.getElem?_zipWith_eq_some.mpr ⟨_, _, isInput, entry, rfl⟩, ?_⟩
      rw [Crypto.signedDigest, defaultPrehash, if_pos rfl, fixed i digest isDigest]
      exact (fitting.bip143SigHash_eq crypto isInput).symm.trans isDigest

end

end

/-- Provided the coins are amounts of money, the node reads the transaction that was meant, and
checks the signatures against the digests that were signed, exactly when there are not more
inputs than a vector may have, the amounts of the outputs fit 64 bits, and each digest is its own
hash. -/
theorem buildAndSignTx_transmits_iff (nonempty : params.utxos ≠ [])
    (amounts : ∀ u ∈ params.utxos, moneyRange (adoToSats u.amountAdo) = true)
    (builds : buildAndSignTx library crypto params = some hex) :
    ∃ recipientScript changeScript keys witnesses,
      Built library crypto params hex recipientScript changeScript keys witnesses ∧
        ((∃ tx, Transmits crypto params recipientScript changeScript keys hex tx) ↔
          params.utxos.length ≤ MAX_SIZE ∧ InInt64 params.amountSats ∧
            (params.changeSats > 546 → InInt64 params.changeSats) ∧
            ∀ i sigHash, bip143SigHash crypto VERSION (params.utxos.zipWith (inputOf crypto) keys)
                (outputsOf params.amountSats params.changeSats recipientScript changeScript) i
                  LOCKTIME = some sigHash → crypto.sha256 sigHash = sigHash) := by
  obtain ⟨recipientScript, changeScript, keys, witnesses, built⟩ := buildAndSignTx_some builds
  exact ⟨recipientScript, changeScript, keys, witnesses, built,
    built.transmits_iff nonempty amounts⟩

theorem buildAndSignTx_isSome (funded : 0 ≤ params.changeSats)
    (recipient : (payScript library params.recipientAddress).isSome = true)
    (change : (payScript library params.changeAddress).isSome = true)
    (derives : ∀ u ∈ params.utxos, (crypto.deriveKeyAtIndex params.mnemonic u.index u.isChange
      params.passphrase).isSome = true) : (buildAndSignTx library crypto params).isSome = true := by
  obtain ⟨recipientScript, recipient⟩ := Option.isSome_iff_exists.mp recipient
  obtain ⟨changeScript, change⟩ := Option.isSome_iff_exists.mp change
  obtain ⟨keys, derived⟩ := Option.isSome_iff_exists.mp (mapM_isSome derives)
  have signs : ∀ i ∈ List.range (params.utxos.zipWith (inputOf crypto) keys).length,
      (signInput crypto (params.utxos.zipWith (inputOf crypto) keys)
        (outputsOf params.amountSats params.changeSats recipientScript changeScript) keys
        i).isSome = true := by
    intro i member
    have inside := List.mem_range.mp member
    have keyed : i < keys.length := by
      rw [List.length_zipWith] at inside
      omega
    rw [signInput, bip143SigHash, List.getElem?_eq_getElem inside, List.getElem?_eq_getElem keyed]
    rfl
  obtain ⟨witnesses, signed⟩ := Option.isSome_iff_exists.mp (mapM_isSome signs)
  unfold buildAndSignTx
  rw [if_neg (not_lt.mpr funded), recipient, change, derived]
  dsimp only [bind, Option.bind]
  rw [signed]
  rfl

def coinOf (vout : Nat) (amountAdo : ℚ) : LightUTXO where
  txid := zeroTxid
  vout := vout % 2 ^ 32
  amountAdo := amountAdo
  isChange := false
  index := vout
  vout_lt := Nat.mod_lt _ (by decide)

/-- Two coins are sent from, and there is change. -/
def sendingTwo : BuildTxParams where
  utxos := [coinOf 0 1, coinOf 1 3]
  recipientAddress := keyHashAddress
  amountAdo := 2
  changeAddress := keyHashAddress
  feeAdo := 1 / 10000
  mnemonic := ""
  passphrase := ""

theorem sendingTwo_amounts : ∀ u ∈ sendingTwo.utxos, moneyRange (adoToSats u.amountAdo) = true := by
  decide +kernel

theorem buildAndSignTx_transmits_two : ∃ hex recipientScript changeScript keys witnesses,
      Built standardLibrary zeroCrypto sendingTwo hex recipientScript changeScript keys witnesses ∧
        sendingTwo.changeSats > 546 ∧
        ∃ tx, Transmits zeroCrypto sendingTwo recipientScript changeScript keys hex tx := by
  obtain ⟨hex, builds⟩ := Option.isSome_iff_exists.mp
    (by decide +kernel : (buildAndSignTx standardLibrary zeroCrypto sendingTwo).isSome = true)
  obtain ⟨recipientScript, changeScript, keys, witnesses, built, transmits⟩ :=
    buildAndSignTx_transmits_iff (List.cons_ne_nil _ _) sendingTwo_amounts builds
  refine ⟨hex, recipientScript, changeScript, keys, witnesses, built, by decide +kernel,
    transmits.mpr ⟨by decide, by unfold InInt64; decide +kernel,
      fun _ => by unfold InInt64; decide +kernel, ?_⟩⟩
  intro i sigHash isHash
  obtain ⟨_, _, rfl⟩ := Option.map_eq_some_iff.mp isHash
  rfl

/-- A hash to 32 bytes without fixed points. -/
def countingCrypto : Crypto :=
  { zeroCrypto with sha256 := fun data => (List.range 32).map fun i => data.getD i 0 + 1 }

theorem countingCrypto_fixes_nothing (data : List UInt8) : countingCrypto.sha256 data ≠ data := by
  intro fixed
  have first := congrArg (fun bytes => bytes.getD 0 0) fixed
  have next : data.getD 0 0 + 1 = data.getD 0 0 := first
  have numbers := congrArg UInt8.toNat next
  rw [UInt8.toNat_add] at numbers
  have small := (data.getD 0 0).toNat_lt
  have one : (1 : UInt8).toNat = 1 := rfl
  omega

/-- The signatures are over the hashes of the digests that the node checks them against. -/
theorem signs_hashed_digest : ∃ hex recipientScript changeScript keys witnesses,
      Built standardLibrary countingCrypto sendingTwo hex recipientScript changeScript keys
          witnesses ∧
        sendingTwo.changeSats > 546 ∧
        ¬∃ tx, Transmits countingCrypto sendingTwo recipientScript changeScript keys hex tx := by
  obtain ⟨hex, builds⟩ := Option.isSome_iff_exists.mp
    (by decide +kernel : (buildAndSignTx standardLibrary countingCrypto sendingTwo).isSome = true)
  obtain ⟨recipientScript, changeScript, keys, witnesses, built⟩ := buildAndSignTx_some builds
  refine ⟨hex, recipientScript, changeScript, keys, witnesses, built, by decide +kernel, ?_⟩
  rw [built.transmits_iff (List.cons_ne_nil _ _) sendingTwo_amounts]
  rintro ⟨_, _, _, fixed⟩
  have keyed : 0 < keys.length := built.length_keys.trans_gt (by decide)
  obtain ⟨digest, isDigest, _⟩ := built.witness (i := 0) rfl (List.getElem?_eq_getElem keyed)
  exact countingCrypto_fixes_nothing digest (fixed 0 digest isDigest)

end Adonai.Light
