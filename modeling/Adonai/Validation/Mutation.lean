/-
Blocks whose transactions were changed without a change to the header.

`CheckBlock` and `IsBlockMutated` refuse a transaction tree with equal neighbours, `IsBlockMutated`
also a witness the coinbase does not commit to and a transaction of 64 bytes. The hashes are
parameters: double SHA-256, and BLAKE3, which is behind `CHash256` here.
-/

import Adonai.Consensus.MerkleBlock
import Adonai.Mempool.Entry
import Adonai.Validation.Connect

namespace Adonai

open Merkle (computeMerkleRoot pairedSha)

def Uint256.bytes (hash : Uint256) : List UInt8 := littleEndian 32 hash.toNat

def CTxIn.serialize (txin : CTxIn) : List UInt8 :=
  txin.prevout.hash.bytes ++ littleEndian 4 txin.prevout.n.toNat ++
    writeCompactSize txin.scriptSig.length ++ txin.scriptSig ++ littleEndian 4 txin.nSequence.toNat

def CTxOut.serialize (out : CTxOut) : List UInt8 :=
  littleEndian 8 (BitVec.ofInt 64 out.nValue).toNat ++
    writeCompactSize out.scriptPubKey.length ++ out.scriptPubKey

def CTxIn.serializeWitness (txin : CTxIn) : List UInt8 :=
  writeCompactSize txin.scriptWitness.length ++
    txin.scriptWitness.flatMap fun item => writeCompactSize item.length ++ item

structure Hashes where
  sha256d : List UInt8 → Uint256
  blake3 : List UInt8 → Uint256

namespace CTransaction

/-- `SerializeTransaction`, where `flags` is 1 when there are witnesses to write. -/
def serializeTransaction (tx : CTransaction) (allow_witness : Bool) : List UInt8 :=
  let flags := allow_witness && tx.hasWitness
  littleEndian 4 tx.version.toNat ++ (if flags then [0, 1] else []) ++
    writeCompactSize tx.vin.length ++ tx.vin.flatMap CTxIn.serialize ++
      writeCompactSize tx.vout.length ++ tx.vout.flatMap CTxOut.serialize ++
        (if flags then tx.vin.flatMap CTxIn.serializeWitness else []) ++
          littleEndian 4 tx.nLockTime.toNat

def computeHash (hashes : Hashes) (tx : CTransaction) : Uint256 :=
  hashes.sha256d (tx.serializeTransaction false)

def computeWitnessHash (hashes : Hashes) (tx : CTransaction) : Uint256 :=
  if tx.hasWitness then hashes.sha256d (tx.serializeTransaction true) else tx.hash

end CTransaction

theorem length_flatMap_eq {α : Type} (items : List α) (write : α → List UInt8) (size : α → Nat)
    (each : ∀ item, (write item).length = size item) :
    (items.flatMap write).length = (items.map size).sum := by
  rw [List.length_flatMap]
  simp only [each]

theorem CTxIn.serialize_length (txin : CTxIn) : txin.serialize.length = txin.serializeSize := by
  simp only [serialize, serializeSize, Uint256.bytes, List.length_append, littleEndian_length,
    writeCompactSize_length]

theorem CTxOut.serialize_length (out : CTxOut) : out.serialize.length = out.serializeSize := by
  simp only [serialize, serializeSize, List.length_append, littleEndian_length,
    writeCompactSize_length]

private theorem CTransaction.serializeTransaction_length (tx : CTransaction) :
    (tx.serializeTransaction false).length = tx.sizeNoWitness := by
  simp only [serializeTransaction, sizeNoWitness, Bool.false_and, Bool.false_eq_true, if_false,
    List.length_append, List.length_nil, littleEndian_length, writeCompactSize_length,
    length_flatMap_eq tx.vin _ _ CTxIn.serialize_length,
    length_flatMap_eq tx.vout _ _ CTxOut.serialize_length]

theorem exists_littleEndian (bytes : List UInt8) :
    ∃ value, value < 256 ^ bytes.length ∧ littleEndian bytes.length value = bytes := by
  induction bytes with
  | nil => exact ⟨0, by simp, rfl⟩
  | cons byte rest ih =>
    obtain ⟨high, small, written⟩ := ih
    have low := byte.toNat_lt
    refine ⟨byte.toNat + 256 * high, ?_, ?_⟩
    · rw [List.length_cons]
      omega
    · have digit : UInt8.ofNat (byte.toNat + 256 * high) = byte := by
        apply UInt8.toNat_inj.mp
        rw [UInt8.toNat_ofNat']
        omega
      have carried : (byte.toNat + 256 * high) / 256 = high := by omega
      rw [List.length_cons, littleEndian, digit, carried, written]

private theorem exists_bytes {bytes : List UInt8} (length : bytes.length = 32) :
    ∃ hash : Uint256, hash.bytes = bytes := by
  obtain ⟨value, small, written⟩ := exists_littleEndian bytes
  rw [length] at small written
  refine ⟨BitVec.ofNat 256 value, ?_⟩
  rw [Uint256.bytes, BitVec.toNat_ofNat, Nat.mod_eq_of_lt (by norm_num at small ⊢; exact small),
    written]

namespace Validation

open Coins Consensus MerkleTree

def MINIMUM_WITNESS_COMMITMENT : Nat := 38

def carriesCommitment (out : CTxOut) : Bool :=
  decide (out.scriptPubKey.length ≥ MINIMUM_WITNESS_COMMITMENT) &&
    out.scriptPubKey.take 6 == [CScript.OP_RETURN, 0x24, 0xaa, 0x21, 0xa9, 0xed]

def commitmentLoop : List CTxOut → (o : Nat) → (commitpos : Option Nat) → Option Nat
  | [], _, commitpos => commitpos
  | vout :: rest, o, commitpos =>
    commitmentLoop rest (o + 1) (if carriesCommitment vout then some o else commitpos)

/-- `none` is `NO_WITNESS_COMMITMENT`. -/
def getWitnessCommitmentIndex (block : CBlock) : Option Nat :=
  match block.vtx with
  | [] => none
  | coinbase :: _ => commitmentLoop coinbase.vout 0 none

variable (env : Environment) (hashes : Hashes) (block : CBlock)

def blockWitnessMerkleRoot : Uint256 :=
  (computeMerkleRoot env.sha 0
    (0 :: block.vtx.tail.map (CTransaction.computeWitnessHash hashes))).1

def unexpectedWitness : Option BlockValidationState :=
  if block.vtx.any CTransaction.hasWitness then
    some ⟨.mutated, "unexpected-witness", "CheckWitnessMalleation : unexpected witness data found"⟩
  else none

def checkCommitment (commitpos : Nat) : Except Halt (Option BlockValidationState) :=
  match block.vtx with
  | coinbase :: _ =>
    match coinbase.vin, coinbase.vout[commitpos]? with
    | txin :: _, some out =>
      match txin.scriptWitness with
      | [nonce] =>
        if nonce.length ≠ 32 then
          .ok (some ⟨.mutated, "bad-witness-nonce-size",
            "CheckWitnessMalleation : invalid witness reserved value size"⟩)
        else
          let hash_witness := hashes.blake3
            ((blockWitnessMerkleRoot env hashes block).bytes ++ nonce)
          if hash_witness.bytes ≠ (out.scriptPubKey.drop 6).take 32 then
            .ok (some ⟨.mutated, "bad-witness-merkle-match",
              "CheckWitnessMalleation : witness merkle commitment mismatch"⟩)
          else .ok none
      | _ =>
        .ok (some ⟨.mutated, "bad-witness-nonce-size",
          "CheckWitnessMalleation : invalid witness reserved value size"⟩)
    | _, _ => .error .assertion
  | [] => .error .assertion

def checkWitnessMalleation
    (expect_witness_commitment : Bool) : Except Halt (Option BlockValidationState) :=
  match if expect_witness_commitment then getWitnessCommitmentIndex block else none with
  | some commitpos => checkCommitment env hashes block commitpos
  | none => .ok (unexpectedWitness block)

def isBlockMutated (check_witness_root : Bool) : Except Halt Bool :=
  match checkMerkleRoot env block with
  | some _ => .ok true
  | none =>
    if block.vtx.head?.all fun tx => !tx.isCoinBase then
      .ok (block.vtx.any fun tx => decide (tx.sizeNoWitness = 64))
    else do
      match ← checkWitnessMalleation env hashes block check_witness_root with
      | some _ => .ok true
      | none => .ok false

def committedOutput : Option CTxOut :=
  block.vtx.head?.bind fun coinbase => (coinbase.vout.filter carriesCommitment).getLast?

/-- With a commitment, the first input of the coinbase holds a reserved value that makes
it the hash of the witness tree; without one, there is no witness. -/
def WitnessCommitted (expect_witness_commitment : Bool) : Prop :=
  match if expect_witness_commitment then committedOutput block else none with
  | some out =>
    ∃ coinbase rest txin others nonce, block.vtx = coinbase :: rest ∧
      coinbase.vin = txin :: others ∧ txin.scriptWitness = [nonce] ∧ nonce.length = 32 ∧
        (hashes.blake3 ((blockWitnessMerkleRoot env hashes block).bytes ++ nonce)).bytes =
          (out.scriptPubKey.drop 6).take 32
  | none => ∀ tx ∈ block.vtx, tx.hasWitness = false

def txids : List Uint256 := block.vtx.map CTransaction.hash

/-- The header commits to the transactions, and their tree repeats no pair. -/
structure Unmutated (env : Environment) (block : CBlock) : Prop where
  root : block.header.hashMerkleRoot = (computeMerkleRoot env.sha 0 (txids block)).1
  distinct : ¬RepeatedPair env.sha (txids block).length fun i => (txids block).getD i 0

/-! ### No unmutated block is refused -/

section Refusals

variable {env : Environment} {hashes : Hashes} {block : CBlock}

theorem commitmentLoop_last (vout : List CTxOut) (o : Nat) (commitpos : Option Nat) :
    (∃ i out, commitmentLoop vout o commitpos = some (o + i) ∧ vout[i]? = some out ∧
        (vout.filter carriesCommitment).getLast? = some out) ∨
      (commitmentLoop vout o commitpos = commitpos ∧ vout.filter carriesCommitment = []) := by
  induction vout generalizing o commitpos with
  | nil => exact .inr ⟨rfl, rfl⟩
  | cons first rest ih =>
    rw [commitmentLoop, List.filter_cons]
    split_ifs with carries
    · rcases ih (o + 1) (some o) with ⟨i, out, found, there, last⟩ | ⟨found, none⟩
      · refine .inl ⟨i + 1, out, ?_, there, ?_⟩
        · rw [found, Nat.add_assoc, Nat.add_comm 1 i]
        · rw [List.getLast?_cons, last]
          rfl
      · refine .inl ⟨0, first, found, rfl, ?_⟩
        rw [none]
        rfl
    · rcases ih (o + 1) commitpos with ⟨i, out, found, there, last⟩ | unchanged
      · refine .inl ⟨i + 1, out, ?_, there, last⟩
        rw [found, Nat.add_assoc, Nat.add_comm 1 i]
      · exact .inr unchanged

theorem getWitnessCommitmentIndex_spec (block : CBlock) :
    (∃ commitpos coinbase rest out, getWitnessCommitmentIndex block = some commitpos ∧
        block.vtx = coinbase :: rest ∧ coinbase.vout[commitpos]? = some out ∧
          committedOutput block = some out) ∨
      (getWitnessCommitmentIndex block = none ∧ committedOutput block = none) := by
  unfold getWitnessCommitmentIndex committedOutput
  cases block.vtx with
  | nil => exact .inr ⟨rfl, rfl⟩
  | cons coinbase rest =>
    rcases commitmentLoop_last coinbase.vout 0 none with ⟨i, out, found, there, last⟩ | absent
    · rw [Nat.zero_add] at found
      exact .inl ⟨i, coinbase, rest, out, found, rfl, there, last⟩
    · refine .inr ⟨absent.1, ?_⟩
      rw [List.head?_cons, Option.bind_some, absent.2]
      rfl

theorem checkCommitment_committed {commitpos : Nat} {coinbase : CTransaction}
    {rest : List CTransaction} {txin : CTxIn} {others : List CTxIn} {nonce : List UInt8}
    {out : CTxOut} (transactions : block.vtx = coinbase :: rest)
    (inputs : coinbase.vin = txin :: others) (output : coinbase.vout[commitpos]? = some out)
    (witness : txin.scriptWitness = [nonce]) (length : nonce.length = 32)
    (committed : (hashes.blake3 ((blockWitnessMerkleRoot env hashes block).bytes ++ nonce)).bytes =
      (out.scriptPubKey.drop 6).take 32) :
    checkCommitment env hashes block commitpos = .ok none := by
  unfold checkCommitment
  simp only [transactions, inputs, output, witness]
  rw [if_neg (fun other => other length), if_neg (fun other => other committed)]

theorem checkWitnessMalleation_committed {expect : Bool}
    (committed : WitnessCommitted env hashes block expect) :
    checkWitnessMalleation env hashes block expect = .ok none := by
  have plain : (∀ tx ∈ block.vtx, tx.hasWitness = false) → unexpectedWitness block = none := by
    intro bare
    have quiet : ¬block.vtx.any CTransaction.hasWitness = true := by
      rw [List.any_eq_true]
      intro some
      obtain ⟨tx, member, witness⟩ := some
      rw [bare tx member] at witness
      cases witness
    rw [unexpectedWitness, if_neg quiet]
  unfold WitnessCommitted at committed
  unfold checkWitnessMalleation
  cases expect with
  | false => exact congrArg Except.ok (plain committed)
  | true => ?_
  rcases getWitnessCommitmentIndex_spec block with
    ⟨commitpos, coinbase, rest, out, found, transactions, output, last⟩ | ⟨found, absent⟩
  · rw [last] at committed
    obtain ⟨coinbase', rest', txin, others, nonce, transactions', inputs, witness, length,
      root⟩ := committed
    rw [transactions] at transactions'
    cases transactions'
    rw [found]
    exact checkCommitment_committed transactions inputs output witness length root
  · rw [absent] at committed
    rw [found]
    exact congrArg Except.ok (plain committed)

theorem checkMerkleRoot_unmutated (unmutated : Unmutated env block) :
    checkMerkleRoot env block = none := by
  have quiet : (computeMerkleRoot env.sha 0 (txids block)).2 = false := by
    rw [Bool.eq_false_iff, ne_eq, Merkle.computeMerkleRoot_mutated]
    exact unmutated.distinct
  change (if block.header.hashMerkleRoot ≠ (computeMerkleRoot env.sha 0 (txids block)).1 then
    _ else if (computeMerkleRoot env.sha 0 (txids block)).2 then _ else _) = none
  rw [if_neg (fun differs => differs unmutated.root), quiet]
  rfl

section

variable (pairs : ∀ left right, env.sha left right = hashes.sha256d (left.bytes ++ right.bytes))

include pairs

theorem exists_pair_of_size {tx : CTransaction}
    (identified : tx.hash = tx.computeHash hashes) (size : tx.sizeNoWitness = 64) :
    ∃ left right, tx.hash = env.sha left right := by
  have length : (tx.serializeTransaction false).length = 64 := by
    rw [CTransaction.serializeTransaction_length, size]
  have front : ((tx.serializeTransaction false).take 32).length = 32 := by
    rw [List.length_take, length]
    rfl
  have back : ((tx.serializeTransaction false).drop 32).length = 32 := by
    rw [List.length_drop, length]
  obtain ⟨left, first⟩ := exists_bytes front
  obtain ⟨right, second⟩ := exists_bytes back
  refine ⟨left, right, ?_⟩
  rw [pairs, first, second, List.take_append_drop]
  exact identified

theorem isBlockMutated_unmutated (identified : ∀ tx ∈ block.vtx, tx.hash = tx.computeHash hashes)
    (fresh : ∀ tx ∈ block.vtx, ∀ left right, tx.hash ≠ env.sha left right)
    (unmutated : Unmutated env block) {check_witness_root : Bool}
    (committed : WitnessCommitted env hashes block check_witness_root) :
    isBlockMutated env hashes block check_witness_root = .ok false := by
  unfold isBlockMutated
  rw [checkMerkleRoot_unmutated unmutated]
  dsimp only
  split
  · have none64 : ¬(block.vtx.any fun tx => decide (tx.sizeNoWitness = 64)) = true := by
      rw [List.any_eq_true]
      intro some
      obtain ⟨tx, member, size⟩ := some
      obtain ⟨left, right, same⟩ := exists_pair_of_size pairs (identified tx member)
        (of_decide_eq_true size)
      exact fresh tx member left right same
    rw [Bool.eq_false_iff.mpr none64]
  · rw [checkWitnessMalleation_committed committed]
    rfl

end

variable {state : BlockValidationState}

theorem checkTransactions_consensus (vtx : List CTransaction)
    (refused : checkTransactions vtx = .ok (some state)) : state.result = .consensus := by
  induction vtx with
  | nil => cases refused
  | cons tx rest ih =>
    rw [checkTransactions] at refused
    obtain ⟨verdict, _, refused⟩ := Program.exists_of_bind_ok refused
    cases verdict with
    | none => exact ih refused
    | some txState =>
      cases refused
      rfl

private theorem checkStructure_consensus (refused : checkStructure block = some state) :
    state.result = .consensus := by
  unfold checkStructure at refused
  split_ifs at refused
  all_goals
    cases refused
    rfl

theorem checkSigOps_consensus (refused : checkSigOps env block = some state) :
    state.result = .consensus := by
  unfold checkSigOps at refused
  dsimp only at refused
  split_ifs at refused
  cases refused
  rfl

theorem checkBlock_unmutated (unmutated : Unmutated env block) {fCheckPOW fCheckMerkleRoot : Bool}
    (refused : checkBlock env block fCheckPOW fCheckMerkleRoot = .ok (some state)) :
    state.result ≠ .mutated := by
  have root : (if fCheckMerkleRoot then checkMerkleRoot env block else none) = none := by
    rw [checkMerkleRoot_unmutated unmutated, ite_self]
  unfold checkBlock checkBlockHeader at refused
  split at refused
  · cases refused
  next invalid =>
    split at invalid
    · cases invalid
      cases refused
      decide
    · cases invalid
  next =>
    split at refused
    · cases refused
      decide
    rw [root] at refused
    cases structural : checkStructure block with
    | some found =>
      rw [structural] at refused
      cases refused
      rw [checkStructure_consensus structural]
      decide
    | none =>
      rw [structural] at refused
      obtain ⟨verdict, checked, refused⟩ := Program.exists_of_bind_ok refused
      cases verdict with
      | some found =>
        cases refused
        rw [checkTransactions_consensus block.vtx checked]
        decide
      | none =>
        have counted : checkSigOps env block = some state := Except.ok.inj refused
        rw [checkSigOps_consensus counted]
        decide

end Refusals

/-- Where the hash of two nodes has no collision between the trees compared, the root of a
list that is not reported determines the list; a reported list has equal neighbours; and a
block without them is not called mutated. -/
theorem computeMerkleRoot_binding :
    (∀ (Digest : Type) [DecidableEq Digest] (sha : Digest → Digest → Digest) (zero : Digest)
        (first second : List Digest), first ≠ [] → second ≠ [] →
        CollisionFree sha first.length (fun i => first.getD i zero) second.length
          (fun i => second.getD i zero) →
        (computeMerkleRoot sha zero first).2 = false →
        (computeMerkleRoot sha zero second).2 = false →
        (computeMerkleRoot sha zero first).1 = (computeMerkleRoot sha zero second).1 →
          first = second) ∧
      (∀ (Digest : Type) [DecidableEq Digest] (sha : Digest → Digest → Digest) (zero : Digest)
        (hashes : List Digest), (computeMerkleRoot sha zero hashes).2 = true →
          ∃ level index, 2 * index + 1 < width hashes.length level ∧
            node sha hashes.length (fun i => hashes.getD i zero) level (2 * index) =
              node sha hashes.length (fun i => hashes.getD i zero) level (2 * index + 1)) ∧
      ∀ (env : Environment) (hashes : Hashes) (block : CBlock),
        (∀ left right, env.sha left right = hashes.sha256d (left.bytes ++ right.bytes)) →
        (∀ tx ∈ block.vtx, tx.hash = tx.computeHash hashes) →
        (∀ tx ∈ block.vtx, ∀ left right, tx.hash ≠ env.sha left right) →
        Unmutated env block →
          (∀ (fCheckPOW fCheckMerkleRoot : Bool) (state : BlockValidationState),
            checkBlock env block fCheckPOW fCheckMerkleRoot = .ok (some state) →
              state.result ≠ .mutated) ∧
            ∀ check_witness_root, WitnessCommitted env hashes block check_witness_root →
              isBlockMutated env hashes block check_witness_root = .ok false := by
  refine ⟨?_, ?_, ?_⟩
  · intro Digest _ sha zero first second nonempty nonempty' free unreported unreported' same
    exact Merkle.eq_of_computeMerkleRoot_eq sha zero nonempty nonempty' free unreported
      unreported' same
  · intro Digest _ sha zero hashes reported
    exact (Merkle.computeMerkleRoot_mutated sha zero hashes).mp reported
  · intro env hashes block pairs identified fresh unmutated
    constructor
    · intro fCheckPOW fCheckMerkleRoot state refused
      exact checkBlock_unmutated unmutated refused
    · intro check_witness_root committed
      exact isBlockMutated_unmutated pairs identified fresh unmutated committed

def lengthHashes : Hashes where
  sha256d bytes := if bytes.length = 64 then 1 else 0
  blake3 _ := 0

def lengthEnvironment : Environment where
  params := mainParams
  hasher _ := 0
  sha _ _ := 1
  checkSignetBlockSolution _ := true
  getLegacySigOpCount _ := 0
  getTransactionSigOpCost _ _ _ := 0
  fScriptChecks _ := false
  checkInputScripts _ _ _ := none
  completeChecks _ := none

def loneCoinbase : CTransaction :=
  { vin := [⟨⟨0, COutPoint.NULL_INDEX⟩, [], 0, []⟩]
    vout := []
    version := 1
    nLockTime := 0
    hash := 0 }

def loneBlock : CBlock :=
  { header := ⟨1, 0, 0, 0, 0, 0⟩
    vtx := [loneCoinbase] }

theorem loneBlock_unmutated : Unmutated lengthEnvironment loneBlock where
  root := rfl
  distinct := by
    intro repeated
    obtain ⟨level, index, inside, -⟩ := repeated
    have single : width (txids loneBlock).length 0 ≤ 1 := Nat.le_refl 1
    have := width_le_one single (Nat.zero_le level)
    omega

theorem computeMerkleRoot_binding_lone : ([3, 6, 9] : List Nat) = [3, 6, 9] ∧
      (∃ level index, 2 * index + 1 < width 2 level ∧
        node pairedSha 2 (fun i => [3, 3].getD i 0) level (2 * index) =
          node pairedSha 2 (fun i => [3, 3].getD i 0) level (2 * index + 1)) ∧
      isBlockMutated lengthEnvironment lengthHashes loneBlock true = .ok false := by
  have injective : Function.Injective2 pairedSha := by
    intro a b c d same
    unfold pairedSha at same
    exact Nat.pair_eq_pair.mp (by omega)
  have fresh : ∀ index, index < 3 → ∀ left right,
      [3, 6, 9].getD index 0 ≠ pairedSha left right := by
    intro index inside left right same
    unfold pairedSha at same
    interval_cases index <;> simp at same <;> omega
  refine ⟨computeMerkleRoot_binding.1 Nat pairedSha 0 [3, 6, 9] [3, 6, 9] (by decide)
      (by decide) (.of_injective injective fresh fresh) (by decide +kernel) (by decide +kernel) rfl,
    computeMerkleRoot_binding.2.1 Nat pairedSha 0 [3, 3] (by decide +kernel), ?_⟩
  have pairs : ∀ left right : Uint256, lengthEnvironment.sha left right =
      lengthHashes.sha256d (left.bytes ++ right.bytes) := by
    intro left right
    have length : (left.bytes ++ right.bytes).length = 64 := by
      rw [List.length_append, Uint256.bytes, Uint256.bytes, littleEndian_length,
        littleEndian_length]
    change 1 = if (left.bytes ++ right.bytes).length = 64 then 1 else 0
    rw [if_pos length]
  have identified : ∀ tx ∈ loneBlock.vtx, tx.hash = tx.computeHash lengthHashes := by
    decide +kernel
  have unhashed : ∀ tx ∈ loneBlock.vtx, ∀ left right, tx.hash ≠ lengthEnvironment.sha left right :=
    List.forall_mem_singleton.mpr fun _ _ => (by decide : (0 : Uint256) ≠ 1)
  have law := computeMerkleRoot_binding.2.2 lengthEnvironment lengthHashes loneBlock pairs
    identified unhashed loneBlock_unmutated
  exact law.2 true (List.forall_mem_singleton.mpr rfl)

end Validation

end Adonai
