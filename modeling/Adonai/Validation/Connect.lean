/-
Connecting a block to a coins view.

Script execution, signature operation counts and the signet solution are arbitrary functions of
what they read. Rejections carry the state the source fills in; the memory flags of a block only
repeat an earlier result and are not kept.
-/

import Adonai.Consensus.Merkle
import Adonai.Consensus.TxVerify
import Adonai.Validation.Header

namespace Adonai.Validation

open Coins Coins.StackedView Consensus

structure CBlock where
  header : CBlockHeader
  vtx : List CTransaction

structure Environment where
  params : Params
  hasher : List UInt8 → Uint256
  sha : Uint256 → Uint256 → Uint256
  checkSignetBlockSolution : CBlock → Bool
  getLegacySigOpCount : CTransaction → UInt32
  getTransactionSigOpCost : List CBlockIndex → CTransaction → List Coin → Int
  fScriptChecks : List CBlockIndex → Bool
  checkInputScripts : List CBlockIndex → CTransaction → List Coin → Option TxValidationState
  /-- What the queue of script checks reports in the end: an error and its text. -/
  completeChecks : CBlock → Option (String × String)

def getBlockSubsidy (nHeight : Int) (params : Params) : Int :=
  let halvings := nHeight.tdiv params.nSubsidyHalvingInterval
  if halvings ≥ 64 then 0 else params.nSubsidyInitial >>> halvings.toNat

def CBlock.getHash (env : Environment) (block : CBlock) : Uint256 := block.header.getHash env.hasher

def CBlock.sizeNoWitness (block : CBlock) : Nat :=
  80 + compactSizeLength block.vtx.length + (block.vtx.map CTransaction.sizeNoWitness).sum

variable (env : Environment) (block : CBlock)

def checkMerkleRoot : Option BlockValidationState :=
  let (merkle_root, mutated) := Merkle.computeMerkleRoot env.sha 0 (block.vtx.map CTransaction.hash)
  if block.header.hashMerkleRoot ≠ merkle_root then
    some ⟨.mutated, "bad-txnmrklroot", "hashMerkleRoot mismatch"⟩
  else if mutated then some ⟨.mutated, "bad-txns-duplicate", "duplicate transaction"⟩
  else none

def checkTransactions : List CTransaction → Except Halt (Option BlockValidationState)
  | [] => .ok none
  | tx :: rest => do
    match ← checkTransaction tx with
    | none => checkTransactions rest
    | some state =>
      .ok (some ⟨.consensus, state.rejectReason,
        "Transaction check failed (tx hash " ++ tx.hash.toHex ++ ") " ++ state.debugMessage⟩)

def checkStructure : Option BlockValidationState :=
  if block.vtx.isEmpty ∨ block.vtx.length * WITNESS_SCALE_FACTOR > MAX_BLOCK_WEIGHT ∨
      block.sizeNoWitness * WITNESS_SCALE_FACTOR > MAX_BLOCK_WEIGHT then
    some ⟨.consensus, "bad-blk-length", "size limits failed"⟩
  else if block.vtx.head?.all fun tx => !tx.isCoinBase then
    some ⟨.consensus, "bad-cb-missing", "first tx is not coinbase"⟩
  else if block.vtx.tail.any CTransaction.isCoinBase then
    some ⟨.consensus, "bad-cb-multiple", "more than one coinbase"⟩
  else none

def checkSigOps : Option BlockValidationState :=
  let nSigOps := (block.vtx.map env.getLegacySigOpCount).sum
  if (nSigOps * UInt32.ofNat WITNESS_SCALE_FACTOR).toNat > MAX_BLOCK_SIGOPS_COST then
    some ⟨.consensus, "bad-blk-sigops", "out-of-bounds SigOpCount"⟩
  else none

def checkBlock (fCheckPOW fCheckMerkleRoot : Bool) : Except Halt (Option BlockValidationState) :=
  match checkBlockHeader env.hasher block.header fCheckPOW with
  | .fault => .error .assertion
  | .invalid state => .ok (some state)
  | .valid =>
    if env.params.signet_blocks ∧ fCheckPOW ∧ ¬env.checkSignetBlockSolution block then
      .ok (some ⟨.consensus, "bad-signet-blksig", "signet block signature validation failure"⟩)
    else
      match if fCheckMerkleRoot then checkMerkleRoot env block else none with
      | some state => .ok (some state)
      | none =>
        match checkStructure block with
        | some state => .ok (some state)
        | none => do
          match ← checkTransactions block.vtx with
          | some state => .ok (some state)
          | none => .ok (checkSigOps env block)

/-- A spent input without a coin fails the assertion. -/
def spendInputs : List CTxIn → ViewProgram (List Coin)
  | [] => pure []
  | txin :: rest => do
    match ← spendCoin txin.prevout with
    | none => throw .assertion
    | some coin => do
      let later ← spendInputs rest
      pure (coin :: later)

variable (tx : CTransaction)

def outputPoint (index : Nat) : COutPoint :=
  { hash := tx.hash, n := UInt32.ofNat index }

/-- `AddCoins` from an output on, without the check for overwriting. -/
def addOutputs (tx : CTransaction) (nHeight : Int) : List CTxOut → Nat → ViewProgram Unit
  | [], _ => pure ()
  | out :: rest, index => do
    addCoin (outputPoint tx index) (.ofOutput out nHeight tx.isCoinBase) tx.isCoinBase
    addOutputs tx nHeight rest (index + 1)

def spendTransaction : ViewProgram (List Coin) :=
  if tx.isCoinBase then pure [] else spendInputs tx.vin

def updateCoins (nHeight : Int) : ViewProgram (List Coin) := do
  let vprevout ← spendTransaction tx
  addOutputs tx nHeight tx.vout 0
  pure vprevout

def isBIP30Repeat (block_index : CBlockIndex) : Bool :=
  (block_index.nHeight == 91842 && block_index.hashBlock ==
    0x00000000000a4d0a398161ffc163c503763b1f4360639393e0e4c8e300e0caec) ||
  (block_index.nHeight == 91880 && block_index.hashBlock ==
    0x00000000000743f190a18c5577a3c2d2a1f610ae9601ac046a38084ccb7cd721)

def BIP34_IMPLIES_BIP30_LIMIT : Int := 1983702

def enforceBIP30 (params : Params) (pindex : CBlockIndex) (pprev : List CBlockIndex) : Bool :=
  (!isBIP30Repeat pindex &&
    (match CBlockIndex.getAncestor pprev params.BIP34Height with
      | [] => true
      | pindexBIP34height :: _ => !(pindexBIP34height.hashBlock == params.BIP34Hash))) ||
  decide (pindex.nHeight ≥ BIP34_IMPLIES_BIP30_LIMIT)

/-- Whether some output of the block is unspent already. Every output is looked up,
also after one was found. -/
def haveOutputs : List COutPoint → ViewProgram Bool
  | [] => pure false
  | outpoint :: rest => do
    let found ← haveCoin outpoint
    let later ← haveOutputs rest
    pure (found || later)

def blockOutputs (vtx : List CTransaction) : List COutPoint :=
  vtx.flatMap fun tx => (List.range tx.vout.length).map (outputPoint tx)

def accessInputs : List CTxIn → ViewProgram (List Coin)
  | [] => pure []
  | txin :: rest => do
    let coin ← accessCoin txin.prevout
    if coin.isSpent then throw .assertion
    else do
      let later ← accessInputs rest
      pure (coin :: later)

def inputCoins : ViewProgram (List Coin) := if tx.isCoinBase then pure [] else accessInputs tx.vin

variable (pindex : List CBlockIndex)

/-- Amounts and lock times of a transaction that spends coins: the fees so far, and
the state the block fails with, if it does. -/
def checkSpending (nHeight : Int)
    (tx : CTransaction) (nFees : Int) : ViewProgram (Int × Option BlockValidationState) := do
  match ← checkTxInputs tx nHeight with
  | .error state =>
    pure (nFees, some ⟨.consensus, state.rejectReason,
      state.debugMessage ++ " in transaction " ++ tx.hash.toHex⟩)
  | .ok txfee => do
    let nFees ← addAmount nFees txfee
    if !moneyRange nFees then
      pure (nFees, some ⟨.consensus, "bad-txns-accumulated-fee-outofrange",
        "accumulated fee in the block out of range"⟩)
    else do
      let coins ← accessInputs tx.vin
      let prevheights := coins.map fun coin => (coin.nHeight.toNat : Int)
      let verifySequence := decide (nHeight ≥ env.params.deploymentHeight .csv)
      if ← sequenceLocks tx verifySequence prevheights pindex then pure (nFees, none)
      else
        pure (nFees, some ⟨.consensus, "bad-txns-nonfinal",
          "contains a non-BIP68-final transaction " ++ tx.hash.toHex⟩)

structure Progress where
  nFees : Int
  nSigOpsCost : Int
  vtxundo : List (List Coin)
  invalid : Option BlockValidationState

def checkScriptsAndUpdate (nHeight : Int)
    (tx : CTransaction) (first : Bool) (progress : Progress) : ViewProgram Progress := do
  let coins ← inputCoins tx
  let nSigOpsCost := progress.nSigOpsCost + env.getTransactionSigOpCost pindex tx coins
  if nSigOpsCost > MAX_BLOCK_SIGOPS_COST then
    pure { progress with
      nSigOpsCost := nSigOpsCost
      invalid := some ⟨.consensus, "bad-blk-sigops", "too many sigops"⟩ }
  else
    match if tx.isCoinBase || !env.fScriptChecks pindex then none
      else env.checkInputScripts pindex tx coins with
    | some state =>
      pure { progress with
        nSigOpsCost := nSigOpsCost
        invalid := some ⟨.consensus, state.rejectReason, state.debugMessage⟩ }
    | none => do
      let vprevout ← updateCoins tx nHeight
      pure { progress with
        nSigOpsCost := nSigOpsCost
        vtxundo := if first then progress.vtxundo else progress.vtxundo ++ [vprevout] }

def connectTransaction (nHeight : Int)
    (tx : CTransaction) (first : Bool) (progress : Progress) : ViewProgram Progress :=
  if tx.isCoinBase then checkScriptsAndUpdate env pindex nHeight tx first progress
  else do
    let spending ← checkSpending env pindex nHeight tx progress.nFees
    let progress := { progress with nFees := spending.1, invalid := spending.2 }
    if progress.invalid.isSome then pure progress
    else checkScriptsAndUpdate env pindex nHeight tx first progress

def connectTransactions (env : Environment) (pindex : List CBlockIndex) (nHeight : Int) :
    List CTransaction → (first : Bool) → Progress → ViewProgram Progress
  | [], _, progress => pure progress
  | tx :: rest, first, progress =>
    if progress.invalid.isSome then pure progress
    else do
      let progress ← connectTransaction env pindex nHeight tx first progress
      connectTransactions env pindex nHeight rest false progress

inductive ConnectResult where
  | connected (vtxundo : List (List Coin))
  | rejected (state : BlockValidationState)
  | fatal (message : String)

def rewardVerdict (progress : Progress) (paid blockReward : Int) : Option BlockValidationState :=
  if progress.invalid.isSome then progress.invalid
  else if paid > blockReward then
    some ⟨.consensus, "bad-cb-amount", "coinbase pays too much (actual=" ++ toString paid ++
      " vs limit=" ++ toString blockReward ++ ")"⟩
  else (env.completeChecks block).map fun (error, text) =>
    ⟨.consensus, "mandatory-script-verify-flag-failed (" ++ error ++ ")", text⟩

def checkReward (nHeight : Int) (progress : Progress) :
    Except Halt (Option BlockValidationState) := do
  let blockReward ← addAmount progress.nFees (getBlockSubsidy nHeight env.params)
  match block.vtx with
  | [] => .error .assertion
  | coinbase :: _ => do
    let paid ← coinbase.getValueOut
    .ok (rewardVerdict env block progress paid blockReward)

def bip30State : BlockValidationState :=
  ⟨.consensus, "bad-txns-BIP30", "tried to overwrite transaction"⟩

def checkBIP30 (pindex : CBlockIndex) (pprev : List CBlockIndex) : ViewProgram Bool :=
  if enforceBIP30 env.params pindex pprev then haveOutputs (blockOutputs block.vtx)
  else pure false

def acceptBlock (hashBlock : Uint256) (vtxundo : List (List Coin)) (fJustCheck : Bool) :
    ViewProgram ConnectResult :=
  if fJustCheck then pure (.connected vtxundo)
  else do
    setBestBlock hashBlock
    pure (.connected vtxundo)

def connectBody (pindex : CBlockIndex)
    (pprev : List CBlockIndex) (fJustCheck : Bool) : ViewProgram ConnectResult := do
  let overwrites ← checkBIP30 env block pindex pprev
  let start : Progress :=
    { nFees := 0, nSigOpsCost := 0, vtxundo := []
      invalid := if overwrites then some bip30State else none }
  let progress ← connectTransactions env (pindex :: pprev) pindex.nHeight block.vtx true start
  match ← checkReward env block pindex.nHeight progress with
  | some state => pure (.rejected state)
  | none => acceptBlock pindex.hashBlock progress.vtxundo fJustCheck

def connectBlock (fJustCheck : Bool) : ViewProgram ConnectResult :=
  match pindex with
  | [] => throw .assertion
  | pindex :: pprev => do
    if pindex.hashBlock ≠ block.getHash env then throw .assertion
    else
      match ← checkBlock env block (!fJustCheck) (!fJustCheck) with
      | some state =>
        if state.result = .mutated then
          pure (.fatal "Corrupt block found indicating potential hardware failure.")
        else pure (.rejected state)
      | none => do
        let hashPrevBlock := (pprev.head?.map CBlockIndex.hashBlock).getD 0
        let best ← getBestBlock
        if hashPrevBlock ≠ best then throw .assertion
        else if block.getHash env = env.params.hashGenesisBlock then
          acceptBlock pindex.hashBlock [] fJustCheck
        else if pprev.isEmpty then throw .assertion
        else connectBody env block pindex pprev fJustCheck

end Adonai.Validation
