/-
Selecting mempool transactions for a block template.

Each round of `addPackageTxs` takes the better of two candidates: the next entry of the ancestor
score index, with the aggregates stored there, or the best entry of `mapModifiedTx`, whose
aggregates leave out ancestors already in the block. The totals are exact integers.
-/

import Adonai.Mempool.Pool

namespace Adonai.Mining

open Mempool

/-- What a selection is given besides the mempool: the limits, the installed fee model and
the position of the block. -/
structure Options where
  nBlockMaxWeight : Nat
  block_reserved_weight : Nat
  coinbase_output_max_additional_sigops : Nat
  feeModel : Policy.FeeModel
  nHeight : Int
  m_lock_time_cutoff : Int

/-- A modified entry; `iter` is its key in `mapModifiedTx`. -/
structure CTxMemPoolModifiedEntry where
  nSizeWithAncestors : Int
  nModFeesWithAncestors : Int
  nSigOpCostWithAncestors : Int
  deriving DecidableEq, Repr

namespace CTxMemPoolModifiedEntry

def ofEntry (entry : CTxMemPoolEntry) : CTxMemPoolModifiedEntry :=
  { nSizeWithAncestors := entry.nSizeWithAncestors
    nModFeesWithAncestors := entry.nModFeesWithAncestors
    nSigOpCostWithAncestors := entry.nSigOpCostWithAncestors }

def updateForParentInclusion (iter : CTxMemPoolEntry) (e : CTxMemPoolModifiedEntry) :
    CTxMemPoolModifiedEntry :=
  { nModFeesWithAncestors := e.nModFeesWithAncestors - iter.m_modified_fee
    nSizeWithAncestors := e.nSizeWithAncestors - iter.nTxSize
    nSigOpCostWithAncestors := e.nSigOpCostWithAncestors - iter.sigOpCost }

end CTxMemPoolModifiedEntry

abbrev ModifiedMap := AList fun _ : Uint256 => CTxMemPoolModifiedEntry

def isConsolidationTx (tx : CTransaction) : Bool :=
  decide (tx.vin.length > 5) && decide (tx.vout.length ≤ 1)

def getValue (entry : CTxMemPoolEntry) : Int := Consensus.valueOut entry.tx.vout

variable (feeModel : Policy.FeeModel)

/-- `MempoolEntryFee`; nothing when the fee computation is undefined. -/
def mempoolEntryFee (entry : CTxMemPoolEntry) (size : Int) : Option Int :=
  Policy.calculateFee feeModel size.toNat (getValue entry) (isConsolidationTx entry.tx)

/-- The score `CompareTxMemPoolEntryByAncestorFee` compares; an undefined fee counts as 0. -/
def ancestorFeeScore (entry : CTxMemPoolEntry) (nSizeWithAncestors : Int) : Int :=
  min ((mempoolEntryFee feeModel entry nSizeWithAncestors).getD 0)
    ((mempoolEntryFee feeModel entry entry.nTxSize).getD 0)

structure Score where
  fee : Int
  txid : Uint256

def Score.compare (a b : Score) : Bool :=
  if a.fee = b.fee then decide (a.txid.memcmpRank < b.txid.memcmpRank) else decide (a.fee > b.fee)

variable (entries : EntryMap)

def entryScore (txid : Uint256) : Score :=
  { fee := (entries.lookup txid).elim 0 fun entry =>
      ancestorFeeScore feeModel entry entry.nSizeWithAncestors
    txid := txid }

def modifiedScore (modified : ModifiedMap) (txid : Uint256) : Score :=
  { fee := (entries.lookup txid).elim 0 fun entry =>
      (modified.lookup txid).elim 0 fun modEntry =>
        ancestorFeeScore feeModel entry modEntry.nSizeWithAncestors
    txid := txid }

def ancestorScoreIndex : List Uint256 :=
  entries.keys.insertionSort fun a b =>
    (entryScore feeModel entries b).compare (entryScore feeModel entries a) = false

def bestModified (modified : ModifiedMap) : Option Uint256 :=
  let score := modifiedScore feeModel entries modified
  modified.keys.foldl (fun best txid =>
    match best with
    | none => some txid
    | some other => if (score txid).compare (score other) then some txid else some other) none

/-- The block template with the variables of `addPackageTxs`; `mi` is what is left of the
ancestor score index. -/
structure Assembly where
  vtx : List CTransaction
  vTxFees : List Int
  vTxSigOpsCost : List Int
  m_package_feerates : List (Int × Int)
  nBlockWeight : Int
  nBlockTx : Nat
  nBlockSigOpsCost : Int
  nFees : Int
  inBlock : List Uint256
  mapModifiedTx : ModifiedMap
  failedTx : List Uint256
  mi : List Uint256
  nConsecutiveFailed : Nat
  nPackagesSelected : Nat
  nDescendantsUpdated : Nat

variable (options : Options)

/-- `resetBlock`, and the variables as `addPackageTxs` initialises them. -/
def Assembly.start (entries : EntryMap) : Assembly :=
  { vtx := []
    vTxFees := []
    vTxSigOpsCost := []
    m_package_feerates := []
    nBlockWeight := options.block_reserved_weight
    nBlockTx := 0
    nBlockSigOpsCost := options.coinbase_output_max_additional_sigops
    nFees := 0
    inBlock := []
    mapModifiedTx := ∅
    failedTx := []
    mi := ancestorScoreIndex options.feeModel entries
    nConsecutiveFailed := 0
    nPackagesSelected := 0
    nDescendantsUpdated := 0 }

structure Candidate where
  iter : Uint256
  packageSize : Int
  packageFees : Int
  packageSigOpsCost : Int
  fUsingModified : Bool

def Candidate.ofEntry (iter : Uint256) (entry : CTxMemPoolEntry) : Candidate :=
  { iter := iter
    packageSize := entry.nSizeWithAncestors
    packageFees := entry.nModFeesWithAncestors
    packageSigOpsCost := entry.nSigOpCostWithAncestors
    fUsingModified := false }

def Candidate.ofModified (iter : Uint256) (modEntry : CTxMemPoolModifiedEntry) : Candidate :=
  { iter := iter
    packageSize := modEntry.nSizeWithAncestors
    packageFees := modEntry.nModFeesWithAncestors
    packageSigOpsCost := modEntry.nSigOpCostWithAncestors
    fUsingModified := true }

inductive Progress where
  | continues (assembly : Assembly)
  | done (assembly : Assembly)

def BLOCK_FULL_ENOUGH_WEIGHT_DELTA : Int := 4000

def MAX_CONSECUTIVE_FAILURES : Nat := 1000

def testPackage (assembly : Assembly) (packageSize packageSigOpsCost : Int) : Bool :=
  !(decide (assembly.nBlockWeight + Consensus.WITNESS_SCALE_FACTOR * packageSize ≥
      options.nBlockMaxWeight) ||
    decide (assembly.nBlockSigOpsCost + packageSigOpsCost ≥ Consensus.MAX_BLOCK_SIGOPS_COST))

def testPackageTransactions (options : Options) (entries : EntryMap) :
    List Uint256 → Except PoolHalt Bool
  | [] => .ok true
  | it :: rest => do
    let entry ← followEntry entries it
    if Consensus.isFinalTx entry.tx options.nHeight options.m_lock_time_cutoff then
      testPackageTransactions options entries rest
    else .ok false

def onlyUnconfirmed (inBlock : List Uint256) (testSet : SetEntries) : SetEntries :=
  inBlock.foldl OrderedSet.erase testSet

def addToBlock (iter : CTxMemPoolEntry) (assembly : Assembly) : Assembly :=
  { assembly with
    vtx := assembly.vtx ++ [iter.tx]
    vTxFees := assembly.vTxFees ++ [iter.nFee]
    vTxSigOpsCost := assembly.vTxSigOpsCost ++ [iter.sigOpCost]
    nBlockWeight := assembly.nBlockWeight + iter.tx.getTransactionWeight
    nBlockTx := assembly.nBlockTx + 1
    nBlockSigOpsCost := assembly.nBlockSigOpsCost + iter.sigOpCost
    nFees := assembly.nFees + iter.nFee
    inBlock := assembly.inBlock ++ [iter.tx.hash] }

def addEntries (entries : EntryMap) : List Uint256 → Assembly → Except PoolHalt Assembly
  | [], assembly => .ok assembly
  | it :: rest, assembly => do
    let entry ← followEntry entries it
    let added := addToBlock entry assembly
    addEntries entries rest { added with mapModifiedTx := added.mapModifiedTx.erase it }

def includeParent (entries : EntryMap) (alreadyAdded : SetEntries) (parent : CTxMemPoolEntry) :
    List Uint256 → ModifiedMap × Nat → Except PoolHalt (ModifiedMap × Nat)
  | [], updated => .ok updated
  | desc :: rest, (modified, nDescendantsUpdated) =>
    if desc ∈ alreadyAdded then
      includeParent entries alreadyAdded parent rest (modified, nDescendantsUpdated)
    else do
      let entry ← followEntry entries desc
      let modEntry := (modified.lookup desc).getD (.ofEntry entry)
      includeParent entries alreadyAdded parent rest
        (modified.insert desc (modEntry.updateForParentInclusion parent), nDescendantsUpdated + 1)

def updatePackagesForAdded (entries : EntryMap) (alreadyAdded : SetEntries) :
    List Uint256 → ModifiedMap × Nat → Except PoolHalt (ModifiedMap × Nat)
  | [], updated => .ok updated
  | it :: rest, updated => do
    let parent ← followEntry entries it
    let descendants ← calculateDescendants entries it .empty
    let updated ← includeParent entries alreadyAdded parent descendants.elems updated
    updatePackagesForAdded entries alreadyAdded rest updated

def countWithAncestors (txid : Uint256) : Int :=
  (entries.lookup txid).elim 0 CTxMemPoolEntry.m_count_with_ancestors

/-- `CompareTxIterByAncestorCount`, as the order of which it is the strict part. -/
def ancestorCountLe (a b : Uint256) : Prop :=
  countWithAncestors entries a < countWithAncestors entries b ∨
    countWithAncestors entries a = countWithAncestors entries b ∧ a.memcmpRank ≤ b.memcmpRank

instance (entries : EntryMap) : DecidableRel (ancestorCountLe entries) := fun _ _ =>
  inferInstanceAs (Decidable (_ ∨ _))

def sortForBlock (package : SetEntries) : List Uint256 :=
  package.elems.insertionSort (ancestorCountLe entries)

variable (candidate : Candidate) (assembly : Assembly)

/-- A failed entry leaves `mapModifiedTx`; one taken from the index was never there. -/
def dropFailed : Assembly :=
  if candidate.fUsingModified then
    { assembly with
      mapModifiedTx := assembly.mapModifiedTx.erase candidate.iter
      failedTx := candidate.iter :: assembly.failedTx }
  else assembly

def rejectLarge : Progress :=
  let dropped := dropFailed candidate assembly
  let failed := { dropped with nConsecutiveFailed := dropped.nConsecutiveFailed + 1 }
  if failed.nConsecutiveFailed > MAX_CONSECUTIVE_FAILURES ∧
      failed.nBlockWeight > (options.nBlockMaxWeight - BLOCK_FULL_ENOUGH_WEIGHT_DELTA) % 2 ^ 64 then
    .done failed
  else .continues failed

def addPackage (package : SetEntries) (assembly : Assembly) : Except PoolHalt Assembly := do
  let added ← addEntries entries (sortForBlock entries package)
    { assembly with nConsecutiveFailed := 0 }
  let updated ← updatePackagesForAdded entries package package.elems
    (added.mapModifiedTx, added.nDescendantsUpdated)
  pure
    { added with
      nPackagesSelected := added.nPackagesSelected + 1
      m_package_feerates := added.m_package_feerates ++
        [(candidate.packageFees, candidate.packageSize.bmod (2 ^ 32))]
      mapModifiedTx := updated.1
      nDescendantsUpdated := updated.2 }

def evaluate (entries : EntryMap) (candidate : Candidate)
    (assembly : Assembly) : Except PoolHalt Progress := do
  let entry ← followEntry entries candidate.iter
  assert (candidate.iter ∉ assembly.inBlock)
  match mempoolEntryFee options.feeModel entry candidate.packageSize with
  | none => .error .overflow
  | some min_fee =>
    if candidate.packageFees < min_fee then pure (.done assembly)
    else if !testPackage options assembly candidate.packageSize candidate.packageSigOpsCost then
      pure (rejectLarge options candidate assembly)
    else do
      let ancestors ← assumeCalculateMemPoolAncestors entries entry .noLimits false
      let package := (onlyUnconfirmed assembly.inBlock ancestors).insert candidate.iter
      if !(← testPackageTransactions options entries package.elems) then
        pure (.continues (dropFailed candidate assembly))
      else do
        let added ← addPackage entries candidate package assembly
        pure (.continues added)

/-- The entry of `mapTx` was taken up before, or its aggregates are stale. -/
def isStale (txid : Uint256) : Bool :=
  decide (txid ∈ assembly.mapModifiedTx) || decide (txid ∈ assembly.inBlock) ||
    decide (txid ∈ assembly.failedTx)

/-- The choice of a candidate: the index entry is taken off the index when it is chosen. -/
def choose (entries : EntryMap) (assembly : Assembly) :
    Except PoolHalt (Option (Candidate × Assembly)) :=
  let best : Option (Uint256 × CTxMemPoolModifiedEntry) :=
    (bestModified options.feeModel entries assembly.mapModifiedTx).bind fun txid =>
      (assembly.mapModifiedTx.lookup txid).map (txid, ·)
  match assembly.mi, best with
  | [], none => .ok none
  | [], some (txid, modEntry) => .ok (some (.ofModified txid modEntry, assembly))
  | it :: rest, none => do
    let entry ← followEntry entries it
    pure (some (.ofEntry it entry, { assembly with mi := rest }))
  | it :: rest, some (txid, modEntry) => do
    let entry ← followEntry entries it
    if (modifiedScore options.feeModel entries assembly.mapModifiedTx txid).compare
        (entryScore options.feeModel entries it) then
      pure (some (.ofModified txid modEntry, assembly))
    else pure (some (.ofEntry it entry, { assembly with mi := rest }))

def round (entries : EntryMap) (assembly : Assembly) : Except PoolHalt Progress :=
  match assembly.mi.head?.filter (isStale assembly) with
  | some _ => .ok (.continues { assembly with mi := assembly.mi.tail })
  | none => do
    match ← choose options entries assembly with
    | none => pure (.done assembly)
    | some (candidate, assembly) => evaluate options entries candidate assembly

def rounds (options : Options) (entries : EntryMap) : Nat → Assembly → Except PoolHalt Assembly
  | 0, _ => .error .diverged
  | fuel + 1, assembly => do
    match ← round options entries assembly with
    | .done final => pure final
    | .continues next => rounds options entries fuel next

def addPackageTxs (entries : EntryMap) : Except PoolHalt Assembly :=
  let count := entries.keys.length
  rounds options entries ((count + 1) * (2 * count + 2)) (.start options entries)

end Adonai.Mining
