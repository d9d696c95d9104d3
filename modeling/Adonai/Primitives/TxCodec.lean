/-
The serialization of transactions.

A transaction with a witness is written in the extended format: an empty vector of inputs
and a flag stand before the inputs, and the witness stacks follow the outputs. An amount is
written as its 64 bits.
-/

import Adonai.Primitives.Serialize
import Adonai.Primitives.Transaction

namespace Adonai

open Reader

structure CMutableTransaction where
  vin : List CTxIn
  vout : List CTxOut
  version : UInt32
  nLockTime : UInt32
  deriving DecidableEq, Repr

def CMutableTransaction.hasWitness (tx : CMutableTransaction) : Bool :=
  tx.vin.any fun txin => !txin.scriptWitness.isEmpty

def writeUint32 (value : UInt32) : List UInt8 := littleEndian 4 value.toNat

def writeInt64 (value : Int) : List UInt8 := littleEndian 8 (value % 2 ^ 64).toNat

def writeUint256 (hash : Uint256) : List UInt8 := littleEndian 32 hash.toNat

def writeByteVector (bytes : List UInt8) : List UInt8 := writeCompactSize bytes.length ++ bytes

def writeOutPoint (prevout : COutPoint) : List UInt8 :=
  writeUint256 prevout.hash ++ writeUint32 prevout.n

def writeTxIn (txin : CTxIn) : List UInt8 :=
  writeOutPoint txin.prevout ++ writeByteVector txin.scriptSig ++ writeUint32 txin.nSequence

def writeTxOut (txout : CTxOut) : List UInt8 :=
  writeInt64 txout.nValue ++ writeByteVector txout.scriptPubKey

def writeStack (txin : CTxIn) : List UInt8 := writeVector writeByteVector txin.scriptWitness

def serializeTransaction (allow_witness : Bool) (tx : CMutableTransaction) : List UInt8 :=
  let extended := allow_witness && tx.hasWitness
  writeUint32 tx.version ++
    (if extended then writeVector writeTxIn [] ++ [1] else []) ++
    writeVector writeTxIn tx.vin ++
    writeVector writeTxOut tx.vout ++
    (if extended then tx.vin.flatMap writeStack else []) ++
    writeUint32 tx.nLockTime

def readUint32 : Reader UInt32 := do
  let value ← readLittleEndian 4
  pure (UInt32.ofNat value)

def readInt64 : Reader Int := do
  let value ← readLittleEndian 8
  pure ((value : Int).bmod (2 ^ 64))

def readUint256 : Reader Uint256 := do
  let value ← readLittleEndian 32
  pure (BitVec.ofNat 256 value)

def readByteVector : Reader (List UInt8) := do
  let size ← readCompactSize
  readBytes size

def readOutPoint : Reader COutPoint := do
  let hash ← readUint256
  let n ← readUint32
  pure { hash := hash, n := n }

/-- The witness of an input is not part of it. -/
def readTxIn : Reader CTxIn := do
  let prevout ← readOutPoint
  let scriptSig ← readByteVector
  let nSequence ← readUint32
  pure { prevout := prevout, scriptSig := scriptSig, nSequence := nSequence, scriptWitness := [] }

def readTxOut : Reader CTxOut := do
  let nValue ← readInt64
  let scriptPubKey ← readByteVector
  pure { nValue := nValue, scriptPubKey := scriptPubKey }

/-- The flags, the inputs and the outputs. An empty vector of inputs is taken for the mark of
the extended format. -/
def readInputsOutputs (fAllowWitness : Bool) : Reader (UInt8 × List CTxIn × List CTxOut) := do
  let vin ← readVector readTxIn
  if vin.isEmpty && fAllowWitness then do
    let flags ← readByte
    if flags = 0 then pure (flags, [], [])
    else do
      let vin ← readVector readTxIn
      let vout ← readVector readTxOut
      pure (flags, vin, vout)
  else do
    let vout ← readVector readTxOut
    pure (0, vin, vout)

def readWitnesses : List CTxIn → Reader (List CTxIn)
  | [] => pure []
  | txin :: vin => do
    let stack ← readVector readByteVector
    let rest ← readWitnesses vin
    pure ({ txin with scriptWitness := stack } :: rest)

def unserializeTransaction (fAllowWitness : Bool) : Reader CMutableTransaction := do
  let version ← readUint32
  let (flags, vin, vout) ← readInputsOutputs fAllowWitness
  if flags &&& 1 ≠ 0 && fAllowWitness then do
    let vin ← readWitnesses vin
    if vin.all fun txin => txin.scriptWitness.isEmpty then failure
    else if flags ^^^ 1 ≠ 0 then failure
    else do
      let nLockTime ← readUint32
      pure { vin := vin, vout := vout, version := version, nLockTime := nLockTime }
  else if flags ≠ 0 then failure
  else do
    let nLockTime ← readUint32
    pure { vin := vin, vout := vout, version := version, nLockTime := nLockTime }

theorem reads_uint32 (value : UInt32) : Reads readUint32 (writeUint32 value) value := by
  have number : UInt32.ofNat value.toNat = value := UInt32.ofNat_toNat
  have reads := (reads_littleEndian 4 value.toNat value.toNat_lt).map UInt32.ofNat
  rw [number] at reads
  exact reads

def InInt64 (value : Int) : Prop := -2 ^ 63 ≤ value ∧ value < 2 ^ 63

theorem reads_int64 {value : Int} (fits : InInt64 value) :
    Reads readInt64 (writeInt64 value) value := by
  obtain ⟨low, high⟩ := fits
  have small : (value % 2 ^ 64).toNat < 256 ^ 8 := by omega
  have number : ((value % 2 ^ 64).toNat : Int).bmod (2 ^ 64) = value := by
    rw [Int.bmod_def]
    omega
  have reads := (reads_littleEndian 8 _ small).map fun read => (read : Int).bmod (2 ^ 64)
  rw [number] at reads
  exact reads

theorem reads_uint256 (hash : Uint256) : Reads readUint256 (writeUint256 hash) hash := by
  have number : BitVec.ofNat 256 hash.toNat = hash := by
    rw [BitVec.ofNat_toNat, BitVec.setWidth_eq]
  have reads := (reads_littleEndian 32 hash.toNat hash.isLt).map (BitVec.ofNat 256)
  rw [number] at reads
  exact reads

theorem reads_byteVector {bytes : List UInt8} (few : bytes.length ≤ MAX_SIZE) :
    Reads readByteVector (writeByteVector bytes) bytes :=
  (reads_compactSize few).bind (reads_bytes rfl)

theorem reads_outPoint (prevout : COutPoint) : Reads readOutPoint (writeOutPoint prevout) prevout :=
  (reads_uint256 prevout.hash).bind ((reads_uint32 prevout.n).map _)

def CTxIn.stripped (txin : CTxIn) : CTxIn := { txin with scriptWitness := [] }

private theorem reads_txIn {txin : CTxIn} (few : txin.scriptSig.length ≤ MAX_SIZE) :
    Reads readTxIn (writeTxIn txin) txin.stripped := by
  exact (reads_outPoint txin.prevout).bind
    ((reads_byteVector few).bind ((reads_uint32 txin.nSequence).map _))

/-- No vector is longer than what is read, and every amount fits its type. -/
structure CMutableTransaction.Serializable (tx : CMutableTransaction) : Prop where
  inputs : tx.vin.length ≤ MAX_SIZE
  outputs : tx.vout.length ≤ MAX_SIZE
  scripts : ∀ txin ∈ tx.vin, txin.scriptSig.length ≤ MAX_SIZE
  witnesses : ∀ txin ∈ tx.vin, txin.scriptWitness.length ≤ MAX_SIZE ∧
    ∀ item ∈ txin.scriptWitness, item.length ≤ MAX_SIZE
  amounts : ∀ txout ∈ tx.vout, InInt64 txout.nValue ∧ txout.scriptPubKey.length ≤ MAX_SIZE

variable {vin : List CTxIn}

private theorem writeInputs_stripped (vin : List CTxIn) :
    writeVector writeTxIn (vin.map CTxIn.stripped) = writeVector writeTxIn vin := by
  rw [writeVector, List.length_map, List.flatMap_map]
  rfl

theorem reads_inputs (few : vin.length ≤ MAX_SIZE)
    (scripts : ∀ txin ∈ vin, txin.scriptSig.length ≤ MAX_SIZE) :
    Reads (readVector readTxIn) (writeVector writeTxIn vin) (vin.map CTxIn.stripped) := by
  rw [← writeInputs_stripped]
  apply reads_vector
  · rw [List.length_map]
    exact few
  · intro txin member
    obtain ⟨original, listed, rfl⟩ := List.mem_map.mp member
    exact reads_txIn (scripts original listed)

variable {vout : List CTxOut}

theorem reads_outputs (few : vout.length ≤ MAX_SIZE)
    (amounts : ∀ txout ∈ vout, InInt64 txout.nValue ∧ txout.scriptPubKey.length ≤ MAX_SIZE) :
    Reads (readVector readTxOut) (writeVector writeTxOut vout) vout := by
  apply reads_vector few
  intro txout member
  obtain ⟨fits, short⟩ := amounts txout member
  exact (reads_int64 fits).bind ((reads_byteVector short).map _)

theorem reads_witnesses
    (witnesses : ∀ txin ∈ vin, txin.scriptWitness.length ≤ MAX_SIZE ∧ ∀ item ∈ txin.scriptWitness,
      item.length ≤ MAX_SIZE) :
    Reads (readWitnesses (vin.map CTxIn.stripped)) (vin.flatMap writeStack) vin := by
  induction vin with
  | nil => exact reads_pure []
  | cons txin vin ih =>
    rw [List.forall_mem_cons] at witnesses
    have stack := reads_vector witnesses.1.1 fun item member =>
      reads_byteVector (witnesses.1.2 item member)
    exact stack.bind ((ih witnesses.2).map (txin :: ·))

theorem stripped_of_no_witness (bare : (vin.any fun txin => !txin.scriptWitness.isEmpty) = false) :
    vin.map CTxIn.stripped = vin := by
  conv_rhs => rw [← List.map_id vin]
  apply List.map_congr_left
  intro txin member
  have empty := List.any_eq_false.mp bare txin member
  rw [Bool.not_eq_true, Bool.not_eq_false', List.isEmpty_iff] at empty
  rw [CTxIn.stripped, ← empty]
  rfl

theorem reads_plain (nonempty : vin ≠ []) {front : List UInt8}
    (inputs : Reads (readVector readTxIn) front vin) {back : List UInt8}
    (outputs : Reads (readVector readTxOut) back vout) :
    Reads (readInputsOutputs true) (front ++ back) (0, vin, vout) := by
  apply inputs.bind
  have listed : vin.isEmpty = false := List.isEmpty_eq_false_iff.mpr nonempty
  rw [listed]
  exact outputs.map fun vout => (0, vin, vout)

theorem reads_extended {front : List UInt8} (inputs : Reads (readVector readTxIn) front vin)
    {back : List UInt8} (outputs : Reads (readVector readTxOut) back vout) :
    Reads (readInputsOutputs true) (writeVector writeTxIn [] ++ ([1] ++ (front ++ back)))
      (1, vin, vout) := by
  have none : Reads (readVector readTxIn) (writeVector writeTxIn []) [] :=
    reads_vector (Nat.zero_le _) fun txin member => absurd member List.not_mem_nil
  exact none.bind ((reads_byte 1).bind (inputs.bind (outputs.map fun vout => (1, vin, vout))))

theorem reads_transaction {tx : CMutableTransaction} (nonempty : tx.vin ≠ [])
    (serializable : tx.Serializable) :
    Reads (unserializeTransaction true) (serializeTransaction true tx) tx := by
  have inputs := reads_inputs serializable.inputs serializable.scripts
  have outputs := reads_outputs serializable.outputs serializable.amounts
  have rest := (reads_uint32 tx.nLockTime).map fun nLockTime =>
      ({ vin := tx.vin, vout := tx.vout, version := tx.version, nLockTime := nLockTime } :
        CMutableTransaction)
  cases witness : tx.hasWitness with
  | true =>
    have whole : serializeTransaction true tx = writeUint32 tx.version ++
        ((writeVector writeTxIn [] ++ ([1] ++
          (writeVector writeTxIn tx.vin ++ writeVector writeTxOut tx.vout))) ++
        (tx.vin.flatMap writeStack ++ writeUint32 tx.nLockTime)) := by
      simp only [serializeTransaction, witness, Bool.and_self, if_true, List.append_assoc]
    have present : ¬(tx.vin.all fun txin => txin.scriptWitness.isEmpty) = true := by
      obtain ⟨txin, member, listed⟩ := List.any_eq_true.mp witness
      intro all
      rw [List.all_eq_true.mp all txin member] at listed
      cases listed
    rw [whole]
    refine (reads_uint32 tx.version).bind ((reads_extended inputs outputs).bind ?_)
    refine (reads_witnesses serializable.witnesses).bind ?_
    rw [if_neg present]
    exact rest
  | false =>
    have whole : serializeTransaction true tx = writeUint32 tx.version ++
        ((writeVector writeTxIn tx.vin ++ writeVector writeTxOut tx.vout) ++
          writeUint32 tx.nLockTime) := by
      simp only [serializeTransaction, witness, Bool.and_false, Bool.false_eq_true, if_false,
        List.append_nil, List.append_assoc]
    rw [stripped_of_no_witness witness] at inputs
    rw [whole]
    exact (reads_uint32 tx.version).bind ((reads_plain nonempty inputs outputs).bind rest)

/-! ### Only what is written is read -/

private theorem takes_uint32 : Takes readUint32 fun taken value => taken = writeUint32 value := by
  refine (takes_littleEndian 4).map fun taken value ⟨written, small⟩ => ?_
  rw [writeUint32, UInt32.toNat_ofNat_of_lt' small, written]

private theorem takes_uint256 : Takes readUint256 fun taken hash => taken = writeUint256 hash := by
  refine (takes_littleEndian 32).map fun taken value ⟨written, small⟩ => ?_
  rw [writeUint256, BitVec.toNat_ofNat, Nat.mod_eq_of_lt (by exact small), written]

theorem takes_int64 : Takes readInt64 fun taken value =>
    taken = writeInt64 value ∧ InInt64 value := by
  refine (takes_littleEndian 8).map fun taken value ⟨written, small⟩ => ?_
  have number : ((value : Int).bmod (2 ^ 64) % 2 ^ 64).toNat = value := by
    rw [Int.bmod_def]
    omega
  have low := Int.le_bmod (x := value) (m := 2 ^ 64) (by decide)
  have high := Int.bmod_lt (x := value) (m := 2 ^ 64) (by decide)
  rw [writeInt64, number, InInt64]
  exact ⟨written, by omega⟩

theorem takes_byteVector : Takes readByteVector fun taken bytes =>
    taken = writeByteVector bytes ∧ True := by
  refine takes_compactSize.bind fun front size sizes => ?_
  refine (takes_bytes size).mono fun back bytes both => ?_
  rw [sizes.1, both.1, ← both.2]
  exact ⟨rfl, trivial⟩

theorem takes_txIn : Takes readTxIn fun taken txin =>
    taken = writeTxIn txin ∧ txin.scriptWitness = [] := by
  have prevouts : Takes readOutPoint fun taken prevout => taken = writeOutPoint prevout := by
    refine takes_uint256.bind fun front hash first => takes_uint32.map fun back n second => ?_
    rw [first, second]
    rfl
  refine prevouts.bind fun front prevout first =>
    takes_byteVector.bind fun mid scriptSig second => ?_
  refine takes_uint32.map fun back nSequence third => ⟨?_, rfl⟩
  rw [first, second.1, third]
  rfl

theorem takes_txOut : Takes readTxOut fun taken txout =>
    taken = writeTxOut txout ∧ InInt64 txout.nValue := by
  refine takes_int64.bind fun front nValue amount =>
    takes_byteVector.map fun back script second => ?_
  rw [amount.1, second.1]
  exact ⟨rfl, amount.2⟩

theorem takes_witnesses (vin : List CTxIn) : Takes (readWitnesses vin) fun taken after =>
    taken = after.flatMap writeStack ∧ after.map CTxIn.stripped = vin.map CTxIn.stripped := by
  induction vin with
  | nil => exact takes_pure ⟨rfl, rfl⟩
  | cons txin vin ih =>
    refine (takes_vector takes_byteVector).bind fun front stack first => ?_
    refine ih.map fun back rest ⟨second, same⟩ => ?_
    rw [first.1, second, List.map_cons, same]
    exact ⟨rfl, rfl⟩

structure Parts (taken : List UInt8) (flags : UInt8) (vin : List CTxIn)
    (vout : List CTxOut) : Prop where
  few : vin.length ≤ MAX_SIZE
  bare : ∀ txin ∈ vin, txin.scriptWitness = []
  amounts : ∀ txout ∈ vout, InInt64 txout.nValue
  bytes : vin ≠ [] → taken =
    (if flags ≠ 0 then writeVector writeTxIn [] ++ [flags] else []) ++
      writeVector writeTxIn vin ++ writeVector writeTxOut vout

variable (fAllowWitness : Bool)

theorem takes_inputsOutputs : Takes (readInputsOutputs fAllowWitness)
    fun taken parts => Parts taken parts.1 parts.2.1 parts.2.2 := by
  have inputs := takes_vector takes_txIn
  have outputs := takes_vector takes_txOut
  refine inputs.bind fun front vin ⟨first, few, bare⟩ => ?_
  split
  next empty =>
    have none : vin = [] := by
      rw [Bool.and_eq_true, List.isEmpty_iff] at empty
      exact empty.1
    refine takes_byte.bind fun mark flags isMark => ?_
    split
    · exact takes_pure ⟨Nat.zero_le _, List.forall_mem_nil _, List.forall_mem_nil _,
        fun listed => absurd rfl listed⟩
    next extended =>
      refine inputs.bind fun mid vin ⟨second, few, bare⟩ => ?_
      refine outputs.map fun back vout ⟨third, _, amounts⟩ => ⟨few, bare, amounts, fun _ => ?_⟩
      rw [if_pos extended, first, none, isMark, second, third]
      simp only [List.append_assoc]
  · refine outputs.map fun back vout ⟨second, _, amounts⟩ => ⟨few, bare, amounts, fun _ => ?_⟩
    rw [first, second]
    rfl

theorem takes_transaction : Takes (unserializeTransaction fAllowWitness)
    fun taken tx => tx.vin.length ≤ MAX_SIZE ∧ (∀ txout ∈ tx.vout, InInt64 txout.nValue) ∧
      (tx.vin ≠ [] → taken = serializeTransaction fAllowWitness tx) := by
  refine takes_uint32.bind fun front version first => ?_
  refine (takes_inputsOutputs fAllowWitness).bind fun mid parts both => ?_
  obtain ⟨flags, vin, vout⟩ := parts
  obtain ⟨few, bare, amounts, bytes⟩ := both
  dsimp only at few bare amounts bytes ⊢
  split
  next extended =>
    rw [Bool.and_eq_true] at extended
    refine (takes_witnesses vin).bind fun back after ⟨second, same⟩ => ?_
    have length : after.length = vin.length := by
      simpa using congrArg List.length same
    split_ifs with superfluous more
    · exact takes_failure _
    · exact takes_failure _
    refine takes_uint32.map fun last nLockTime third => ?_
    refine ⟨length.trans_le few, amounts, fun listed => ?_⟩
    have one : flags = 1 := UInt8.xor_eq_zero_iff.mp (not_not.mp more)
    have witness : (after.any fun txin => !txin.scriptWitness.isEmpty) = true := by
      simpa using superfluous
    have there : vin ≠ [] := by
      rintro rfl
      exact listed (List.length_eq_zero_iff.mp length)
    simp [first, bytes there, second, third, serializeTransaction, CMutableTransaction.hasWitness,
      witness, extended.2, one, ← writeInputs_stripped after, same, writeInputs_stripped vin]
  split
  · exact takes_failure _
  next plain =>
    refine takes_uint32.map fun last nLockTime third => ⟨few, amounts, fun listed => ?_⟩
    have none : (vin.any fun txin => !txin.scriptWitness.isEmpty) = false := by
      simpa using bare
    simp [first, bytes listed, third, plain, serializeTransaction,
      CMutableTransaction.hasWitness, none]

/-- However a transaction was written, what is read has no more inputs than a vector may
have, and amounts of 64 bits. -/
theorem returns_transaction :
    Returns (unserializeTransaction fAllowWitness) fun tx =>
      tx.vin.length ≤ MAX_SIZE ∧ ∀ txout ∈ tx.vout, InInt64 txout.nValue := by
  intro bytes tx rest reads
  obtain ⟨_, _, few, amounts, _⟩ := takes_transaction fAllowWitness bytes tx rest reads
  exact ⟨few, amounts⟩

theorem transaction_codec :
    (∀ tx : CMutableTransaction, tx.vin ≠ [] → tx.Serializable →
      Reads (unserializeTransaction true) (serializeTransaction true tx) tx) ∧
    (∀ bytes tx rest, unserializeTransaction true bytes = some (tx, rest) → tx.vin ≠ [] →
      bytes = serializeTransaction true tx ++ rest) ∧
    ∀ bytes bytes' tx, unserializeTransaction true bytes = some (tx, []) →
      unserializeTransaction true bytes' = some (tx, []) → tx.vin ≠ [] → bytes = bytes' := by
  have canonical : ∀ bytes tx rest, unserializeTransaction true bytes = some (tx, rest) →
      tx.vin ≠ [] → bytes = serializeTransaction true tx ++ rest := by
    intro bytes tx rest reads listed
    obtain ⟨taken, rfl, _, _, written⟩ := takes_transaction true bytes tx rest reads
    rw [written listed]
  refine ⟨fun tx => reads_transaction, canonical, ?_⟩
  intro bytes bytes' tx reads reads' listed
  rw [canonical bytes tx [] reads listed, canonical bytes' tx [] reads' listed]

theorem transaction_codec_of_witness : ∃ tx : CMutableTransaction, tx.hasWitness = true ∧
    unserializeTransaction true (serializeTransaction true tx ++ [7]) = some (tx, [7]) ∧
    ∀ bytes, unserializeTransaction true bytes = some (tx, []) →
      bytes = serializeTransaction true tx ++ [] := by
  refine ⟨⟨[⟨⟨0, 0⟩, [], 0, [[1]]⟩], [], 2, 0⟩, rfl, ?_, ?_⟩
  · apply transaction_codec.1
    · decide
    · exact ⟨by decide, by decide, by decide, by decide, List.forall_mem_nil _⟩
  · intro bytes reads
    exact transaction_codec.2.1 bytes _ [] reads (by decide)

end Adonai
