/-
The mempool and the functions that change it.

Functions that only maintain links and aggregates are programs on the map of entries, the others
on the whole pool. Memory use and the order of the descendant score index are parameters of the
options: they decide what `TrimToSize` evicts, and nothing else.
-/

import Adonai.Mempool.Entry
import Adonai.Policy.Fees

namespace Adonai.Mempool

open Program

structure Limits where
  ancestor_count : Int
  ancestor_size_vbytes : Int
  descendant_count : Int
  descendant_size_vbytes : Int
  deriving DecidableEq, Repr

def Limits.noLimits : Limits :=
  { ancestor_count := 2 ^ 63 - 1
    ancestor_size_vbytes := 2 ^ 63 - 1
    descendant_count := 2 ^ 63 - 1
    descendant_size_vbytes := 2 ^ 63 - 1 }

def asUint64 (value : Int) : Nat := (value % 2 ^ 64).toNat

variable (entries : EntryMap)

def followEntry (it : Uint256) : Except PoolHalt CTxMemPoolEntry :=
  match entries.lookup it with
  | some entry => .ok entry
  | none => .error .dangling

def stageMissing (seen : SetEntries) : List Uint256 → SetEntries → SetEntries
  | [], stage => stage
  | item :: rest, stage =>
    stageMissing seen rest (if item ∈ seen then stage else stage.insert item)

def visitDescendant (it : Uint256) (stage setDescendants : SetEntries) :
    Except PoolHalt (SetEntries × SetEntries) := do
  let setDescendants := setDescendants.insert it
  let entry ← followEntry entries it
  pure (stageMissing setDescendants entry.m_children.elems stage, setDescendants)

def calculateDescendants (entryit : Uint256) (setDescendants : SetEntries) :
    Except PoolHalt SetEntries :=
  let stage : SetEntries :=
    if entryit ∈ setDescendants then .empty else OrderedSet.empty.insert entryit
  worklist (visitDescendant entries) .diverged entries.keys.length stage setDescendants

inductive Failure where
  | halt (halt : PoolHalt)
  | refused (error : String)
  deriving DecidableEq, Repr

def orHalt {α : Type} (computation : Except PoolHalt α) : Except Failure α :=
  computation.mapError .halt

def stageParents (limits : Limits) (entry_count : Nat) (ancestors : SetEntries) :
    List Uint256 → SetEntries → Except Failure SetEntries
  | [], staged => .ok staged
  | parent :: rest, staged =>
    let staged := if parent ∈ ancestors then staged else staged.insert parent
    if staged.size + ancestors.size + entry_count > asUint64 limits.ancestor_count then
      .error (.refused s!"too many unconfirmed ancestors [limit: {limits.ancestor_count}]")
    else stageParents limits entry_count ancestors rest staged

def checkAncestorLimits (limits : Limits) (entry_count : Nat) (stage : CTxMemPoolEntry)
    (sizeWithEntry totalSizeWithAncestors : Int) : Except Failure Unit :=
  let txid := Uint256.toHex stage.tx.hash
  if sizeWithEntry > limits.descendant_size_vbytes then
    .error (.refused
      s!"exceeds descendant size limit for tx {txid} [limit: {limits.descendant_size_vbytes}]")
  else if asUint64 stage.m_count_with_descendants + entry_count >
      asUint64 limits.descendant_count then
    .error (.refused s!"too many descendants for tx {txid} [limit: {limits.descendant_count}]")
  else if totalSizeWithAncestors > limits.ancestor_size_vbytes then
    .error (.refused s!"exceeds ancestor size limit [limit: {limits.ancestor_size_vbytes}]")
  else .ok ()

def visitAncestor (entry_size : Int) (entry_count : Nat) (limits : Limits)
    (stageit : Uint256) (staged : SetEntries) (found : SetEntries × Int) :
    Except Failure (SetEntries × SetEntries × Int) := do
  let stage ← orHalt (followEntry entries stageit)
  let ancestors := found.1.insert stageit
  let totalSizeWithAncestors ← orHalt (addInt64 found.2 stage.nTxSize)
  let sizeWithEntry ← orHalt (addInt64 stage.nSizeWithDescendants entry_size)
  checkAncestorLimits limits entry_count stage sizeWithEntry totalSizeWithAncestors
  let staged ← stageParents limits entry_count ancestors stage.m_parents.elems staged
  pure (staged, ancestors, totalSizeWithAncestors)

def calculateAncestorsAndCheckLimits (entry_size : Int) (entry_count : Nat)
    (staged_ancestors : SetEntries) (limits : Limits) : Except Failure SetEntries := do
  let found ← worklist (visitAncestor entries entry_size entry_count limits) (.halt .diverged)
    entries.keys.length staged_ancestors (.empty, entry_size)
  pure found.1

def stageInputs (entries : EntryMap) (limits : Limits) :
    List CTxIn → SetEntries → Except Failure SetEntries
  | [], staged => .ok staged
  | txin :: rest, staged =>
    if (entries.lookup txin.prevout.hash).isSome then
      let staged := staged.insert txin.prevout.hash
      if staged.size + 1 > asUint64 limits.ancestor_count then
        .error (.refused s!"too many unconfirmed parents [limit: {limits.ancestor_count}]")
      else stageInputs entries limits rest staged
    else stageInputs entries limits rest staged

def calculateMemPoolAncestors (entry : CTxMemPoolEntry) (limits : Limits)
    (fSearchForParents : Bool) : Except Failure SetEntries := do
  let staged_ancestors ←
    if fSearchForParents then stageInputs entries limits entry.tx.vin .empty
    else .ok entry.m_parents
  calculateAncestorsAndCheckLimits entries entry.nTxSize 1 staged_ancestors limits

/-- After an unexpected error the ancestor set is taken to be empty. -/
def assumeCalculateMemPoolAncestors (entry : CTxMemPoolEntry)
    (limits : Limits) (fSearchForParents : Bool) : Except PoolHalt SetEntries :=
  match calculateMemPoolAncestors entries entry limits fSearchForParents with
  | .ok ancestors => .ok ancestors
  | .error (.halt halt) => .error halt
  | .error (.refused _) => .ok .empty

def updateAncestorsOf (add : Bool) (it : Uint256) (setAncestors : SetEntries) :
    EntryProgram Unit := do
  let entry ← entryAt it
  forEach (fun parent => updateChild parent it add) entry.m_parents.elems
  let entry ← entryAt it
  let updateCount : Int := if add then 1 else -1
  let updateSize ← liftM (narrow 32 (updateCount * entry.nTxSize))
  let updateFee ← liftM (narrow 64 (updateCount * entry.m_modified_fee))
  forEach (fun ancestorIt => modifyEntry ancestorIt
    (·.updateDescendantState updateSize updateFee updateCount)) setAncestors.elems

def updateChildrenForRemoval (it : Uint256) : EntryProgram Unit := do
  let entry ← entryAt it
  forEach (fun updateIt => updateParent updateIt it false) entry.m_children.elems

def updateDescendantsForRemoval (removeIt : Uint256) : EntryProgram Unit := do
  let setDescendants ← liftM (calculateDescendants (← get) removeIt .empty)
  let entry ← entryAt removeIt
  let modifySize ← liftM (narrow 32 (-entry.nTxSize))
  let modifyFee ← liftM (narrow 64 (-entry.m_modified_fee))
  let modifySigOps ← liftM (narrow 32 (-entry.sigOpCost))
  forEach (fun dit => modifyEntry dit
    (·.updateAncestorState modifySize modifyFee (-1) modifySigOps))
    (setDescendants.erase removeIt).elems

def updateAncestorsForRemoval (removeIt : Uint256) : EntryProgram Unit := do
  let entry ← entryAt removeIt
  let ancestors ← liftM (assumeCalculateMemPoolAncestors (← get) entry .noLimits false)
  updateAncestorsOf false removeIt ancestors

def updateForRemoveFromMempool (entriesToRemove : SetEntries) (updateDescendants : Bool) :
    EntryProgram Unit := do
  forEach updateDescendantsForRemoval (if updateDescendants then entriesToRemove.elems else [])
  forEach updateAncestorsForRemoval entriesToRemove.elems
  forEach updateChildrenForRemoval entriesToRemove.elems

structure CTxMemPool where
  mapTx : EntryMap
  mapNextTx : AList fun _ : COutPoint => CTransaction
  mapDeltas : AList fun _ : Uint256 => Int
  totalTxSize : Int
  m_total_fee : Int
  rollingMinimumFeeRate : ℚ
  blockSinceLastRollingFeeBump : Bool
  lastRollingFeeUpdate : Int

abbrev PoolProgram := Program CTxMemPool PoolHalt

structure Options where
  limits : Limits
  incremental_relay_feerate : Policy.CFeeRate
  nBytesPerSigOp : Nat
  dynamicMemoryUsage : CTxMemPool → Nat
  /-- `mapTx.get<descendant_score>().begin()`. -/
  descendantScoreBegin : CTxMemPool → Uint256
  descendantScoreBegin_mem : ∀ pool, pool.mapTx.keys ≠ [] → descendantScoreBegin pool ∈ pool.mapTx

namespace CTxMemPool

def new : CTxMemPool :=
  { mapTx := ∅, mapNextTx := ∅, mapDeltas := ∅, totalTxSize := 0, m_total_fee := 0
    rollingMinimumFeeRate := 0, blockSinceLastRollingFeeBump := false, lastRollingFeeUpdate := 0 }

def existsTx (pool : CTxMemPool) (txid : Uint256) : Bool := (pool.mapTx.lookup txid).isSome

end CTxMemPool

def onEntries {α : Type} (program : EntryProgram α) : PoolProgram α := fun pool =>
  (program pool.mapTx).map fun result => (result.1, { pool with mapTx := result.2 })

/-- The entry leaves, and with it the outputs it spends and its part of the totals. -/
def removeUnchecked (it : Uint256) : PoolProgram Unit := fun pool =>
  match pool.mapTx.lookup it with
  | none => .error .dangling
  | some entry =>
    (narrow 64 (pool.m_total_fee - entry.nFee)).map fun m_total_fee =>
      ((), { pool with
        mapNextTx := entry.tx.vin.foldl (fun spent txin => spent.erase txin.prevout) pool.mapNextTx
        totalTxSize := (pool.totalTxSize - entry.nTxSize) % 2 ^ 64
        m_total_fee := m_total_fee
        mapTx := pool.mapTx.erase it })

def removeStaged (stage : SetEntries) (updateDescendants : Bool) : PoolProgram Unit := do
  onEntries (updateForRemoveFromMempool stage updateDescendants)
  forEach removeUnchecked stage.elems

def ancestorSums (entries : EntryMap) :
    List Uint256 → Int × Int × Int → Except PoolHalt (Int × Int × Int)
  | [], sums => .ok sums
  | ancestorIt :: rest, (updateSize, updateFee, updateSigOpsCost) => do
    let entry ← followEntry entries ancestorIt
    let updateSize ← addInt64 updateSize entry.nTxSize
    let updateFee ← addInt64 updateFee entry.m_modified_fee
    let updateSigOpsCost ← addInt64 updateSigOpsCost entry.sigOpCost
    ancestorSums entries rest (updateSize, updateFee, updateSigOpsCost)

def updateEntryForAncestors (it : Uint256) (setAncestors : SetEntries) : EntryProgram Unit := do
  let sums ← liftM (ancestorSums (← get) setAncestors.elems (0, 0, 0))
  modifyEntry it (·.updateAncestorState sums.1 sums.2.1 setAncestors.size sums.2.2)

def addNewTransaction (newit : Uint256) (setAncestors : SetEntries) : PoolProgram Unit := do
  let pool ← get
  let entry ← liftM (followEntry pool.mapTx newit)
  let parents : SetEntries := OrderedSet.empty.insertAll
    ((entry.tx.vin.map (·.prevout.hash)).filter (· ∈ pool.mapTx))
  onEntries (forEach (fun pit => updateParent newit pit true) parents.elems)
  onEntries (updateAncestorsOf true newit setAncestors)
  onEntries (updateEntryForAncestors newit setAncestors)
  let m_total_fee ← liftM (addInt64 pool.m_total_fee entry.nFee)
  modify fun after =>
    { after with
      mapNextTx := entry.tx.vin.foldl (fun spent txin => spent.insert txin.prevout entry.tx)
        pool.mapNextTx
      totalTxSize := (pool.totalTxSize + entry.nTxSize) % 2 ^ 64
      m_total_fee := m_total_fee }

def splice (entry : CTxMemPoolEntry) : EntryProgram Unit := fun entries =>
  if entry.tx.hash ∈ entries then .error .assertion
  else .ok ((), entries.insert entry.tx.hash entry)

/-- `Apply` with one entry to add and none to remove. -/
def applyAddition (entry : CTxMemPoolEntry) : PoolProgram Unit := do
  let pool ← get
  let ancestors ← liftM (assumeCalculateMemPoolAncestors pool.mapTx entry .noLimits true)
  onEntries (splice entry)
  addNewTransaction entry.tx.hash ancestors

def testLockPointValidity (active_chain : List Uint256) (lp : LockPoints) : Bool :=
  lp.maxInputBlock.all (· ∈ active_chain)

def feeRateOf (nFeePaid size : Int) : Except PoolHalt Policy.CFeeRate := do
  let nSize : Int := size % 2 ^ 32
  let perThousand ← narrow 64 (nFeePaid * 1000)
  pure { nSatoshisPerK := if nSize > 0 then perThousand.tdiv nSize else 0 }

def trackPackageRemoved (rate : Policy.CFeeRate) : PoolProgram Unit :=
  modify fun pool =>
    if Binary64.ofInt rate.nSatoshisPerK > pool.rollingMinimumFeeRate then
      { pool with
        rollingMinimumFeeRate := Binary64.ofInt rate.nSatoshisPerK
        blockSinceLastRollingFeeBump := false }
    else pool

/-- One round of `TrimToSize`; the outputs no entry spends any more are returned. -/
def trimOnce (options : Options) : PoolProgram (List COutPoint) := do
  let pool ← get
  let it := options.descendantScoreBegin pool
  let entry ← liftM (followEntry pool.mapTx it)
  let removed ← liftM (feeRateOf entry.nModFeesWithDescendants entry.nSizeWithDescendants)
  let raised ← liftM
    (addInt64 removed.nSatoshisPerK options.incremental_relay_feerate.nSatoshisPerK)
  trackPackageRemoved { nSatoshisPerK := raised }
  let stage ← liftM (calculateDescendants pool.mapTx it .empty)
  removeStaged stage false
  let after ← get
  let txn := stage.elems.filterMap fun it => (pool.mapTx.lookup it).map CTxMemPoolEntry.tx
  pure (txn.flatMap fun tx =>
    (tx.vin.map CTxIn.prevout).filter fun prevout => !after.existsTx prevout.hash)

def trimLoop (options : Options) (sizelimit : Nat) : Nat → PoolProgram (List COutPoint)
  | 0 => do
    let pool ← get
    if pool.mapTx.keys ≠ [] ∧ options.dynamicMemoryUsage pool > sizelimit then throw .diverged
    else pure []
  | fuel + 1 => do
    let pool ← get
    if pool.mapTx.keys ≠ [] ∧ options.dynamicMemoryUsage pool > sizelimit then do
      let noSpendsRemaining ← trimOnce options
      let later ← trimLoop options sizelimit fuel
      pure (noSpendsRemaining ++ later)
    else pure []

def trimToSize (options : Options) (sizelimit : Nat) : PoolProgram (List COutPoint) := do
  let pool ← get
  trimLoop options sizelimit pool.mapTx.keys.length

def stageAll (entries : EntryMap) (toremove : List Uint256) : Except PoolHalt SetEntries :=
  toremove.foldlM (fun stage removeit => calculateDescendants entries removeit stage) .empty

def expired (time : Int) (pool : CTxMemPool) (it : Uint256) : Bool :=
  (pool.mapTx.lookup it).any fun entry => entry.nTime < time

/-- The index by time begins with what is expired; in which order it is staged plays no part. -/
def expire (time : Int) : PoolProgram Nat := do
  let pool ← get
  let stage ← liftM (stageAll pool.mapTx (pool.mapTx.keys.filter (expired time pool)))
  removeStaged stage false
  pure stage.size

structure Addition where
  tx : CTransaction
  fee : Int
  time : Int
  spends_coinbase : Bool
  sigops_cost : Nat
  lp : LockPoints
  deriving DecidableEq

def newEntry (addition : Addition) (nTxSize : Int) : CTxMemPoolEntry :=
  { tx := addition.tx
    m_parents := .empty
    m_children := .empty
    nFee := addition.fee
    nTxSize := nTxSize
    nTime := addition.time
    spendsCoinbase := addition.spends_coinbase
    sigOpCost := addition.sigops_cost
    m_modified_fee := addition.fee
    lockPoints := addition.lp
    m_count_with_descendants := 1
    nSizeWithDescendants := nTxSize
    nModFeesWithDescendants := addition.fee
    m_count_with_ancestors := 1
    nSizeWithAncestors := nTxSize
    nModFeesWithAncestors := addition.fee
    nSigOpCostWithAncestors := addition.sigops_cost }

end Adonai.Mempool
