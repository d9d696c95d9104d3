/-
The filter `MaybeUpdateMempoolForReorg` applies to the mempool, and coinbase maturity.

An entry stays only if it is final, its relative locks are met and its coinbase inputs are mature
in the block after the tip. An input the mempool provides is taken to confirm in that block.
-/

import Adonai.Mempool.Pool

namespace Adonai.Validation

open Coins Coins.StackedView Consensus Mempool Program

def MEMPOOL_HEIGHT : Int := 0x7fffffff

variable (chain : List CBlockIndex) (tip : CBlockIndex)

def checkFinalTxAtTip (tx : CTransaction) : Bool :=
  isFinalTx tx (tip.nHeight + 1) (CBlockIndex.getMedianTimePast chain)

variable (mapTx : EntryMap)

/-- `CCoinsViewMemPool::GetCoin` on the coins at the tip, with no package coins added. -/
def getMempoolCoin (outpoint : COutPoint) : ViewProgram (Option Coin) :=
  match mapTx.lookup outpoint.hash with
  | some entry =>
    pure (entry.tx.vout[outpoint.n.toNat]?.map fun out => .ofOutput out MEMPOOL_HEIGHT false)
  | none => do
    let coin ← accessCoin outpoint
    pure (if coin.isSpent then none else some coin)

def calculatePrevHeights (tip : CBlockIndex) (mapTx : EntryMap) :
    List CTxIn → ViewProgram (Option (List Int))
  | [] => pure (some [])
  | txin :: rest => do
    match ← getMempoolCoin mapTx txin.prevout with
    | none => pure none
    | some coin => do
      let prev_heights ← calculatePrevHeights tip mapTx rest
      let height : Int :=
        if (coin.nHeight.toNat : Int) = MEMPOOL_HEIGHT then tip.nHeight + 1
        else coin.nHeight.toNat
      pure (prev_heights.map (height :: ·))

def confirmation (coins : CoinMap) (txin : CTxIn) : Option Int :=
  match mapTx.lookup txin.prevout.hash with
  | some _ => none
  | none => (coins txin.prevout).bind fun coin =>
    if (coin.nHeight.toNat : Int) = MEMPOOL_HEIGHT then none else some coin.nHeight.toNat

def prevHeight (coins : CoinMap) (txin : CTxIn) : Int :=
  (confirmation mapTx coins txin).getD (tip.nHeight + 1)

/-- The block index `next_tip`, of which only the height and the links are set. -/
def nextTip : CBlockIndex :=
  { hashBlock := 0, nHeight := tip.nHeight + 1, nVersion := 0, hashMerkleRoot := 0, nTime := 0
    nBits := 0, nNonce := 0 }

variable (tx : CTransaction)

/-- The heights as `CalculateSequenceLocks` leaves them: an input without a lock is at zero. -/
def lockedHeights (prev_heights : List Int) : List Int :=
  if tx.version ≥ 2 then
    (tx.vin.zip prev_heights).map fun (txin, height) =>
      if txin.nSequence &&& CTxIn.SEQUENCE_LOCKTIME_DISABLE_FLAG ≠ 0 then 0 else height
  else prev_heights

def lockPointsAt (prev_heights : List Int) : Except Halt LockPoints := do
  let (min_height, min_time) ← calculateSequenceLocks tx true prev_heights (nextTip tip :: chain)
  let max_input_height := ((lockedHeights tx prev_heights).filter (· ≠ tip.nHeight + 1)).foldl max 0
  match CBlockIndex.getAncestor chain max_input_height with
  | [] => .error .assertion
  | block :: _ =>
    .ok { height := min_height, time := min_time, maxInputBlock := some block.hashBlock }

def calculateLockPointsAtTip : ViewProgram (Option LockPoints) := do
  match ← calculatePrevHeights tip mapTx tx.vin with
  | none => pure none
  | some prev_heights => do
    let lock_points ← lockPointsAt chain tip tx prev_heights
    pure (some lock_points)

def checkSequenceLocksAtTip (lock_points : LockPoints) : Except Halt Bool :=
  evaluateSequenceLocks (nextTip tip :: chain) (lock_points.height, lock_points.time)

def currentLockPoints (entry : CTxMemPoolEntry) : ViewProgram (Option LockPoints) :=
  if testLockPointValidity (chain.map CBlockIndex.hashBlock) entry.lockPoints then
    pure (some entry.lockPoints)
  else calculateLockPointsAtTip chain tip mapTx entry.tx

/-- The scan for immature coinbase inputs; false stands for an early `return true`. -/
def matureInputs (mempool_spend_height : Int) (mapTx : EntryMap) : List CTxIn → ViewProgram Bool
  | [] => pure true
  | txin :: rest =>
    if (mapTx.lookup txin.prevout.hash).isSome then matureInputs mempool_spend_height mapTx rest
    else do
      let coin ← accessCoin txin.prevout
      if coin.isSpent then throw .assertion
      else if coin.fCoinBase ∧ mempool_spend_height - coin.nHeight.toNat < COINBASE_MATURITY then
        pure false
      else matureInputs mempool_spend_height mapTx rest

/-- `filter_final_and_mature`: the lock points of an entry that is kept. -/
def filterFinalAndMature (entry : CTxMemPoolEntry) : ViewProgram (Option LockPoints) :=
  match chain with
  | [] => throw .assertion
  | tip :: _ =>
    if !checkFinalTxAtTip chain tip entry.tx then pure none
    else do
      match ← currentLockPoints chain tip mapTx entry with
      | none => pure none
      | some lp => do
        if !(← checkSequenceLocksAtTip chain tip lp) then pure none
        else if !entry.spendsCoinbase then pure (some lp)
        else do
          let mature ← matureInputs (tip.nHeight + 1) mapTx entry.tx.vin
          pure (if mature then some lp else none)

/-- The scan of `PreChecks` that sets `fSpendsCoinbase`. -/
def spendsCoinbaseCoin : List CTxIn → ViewProgram Bool
  | [] => pure false
  | txin :: rest => do
    let coin ← accessCoin txin.prevout
    if coin.fCoinBase then pure true else spendsCoinbaseCoin rest

def confirmedInputs (vin : List CTxIn) : List CTxIn :=
  vin.filter fun txin => (mapTx.lookup txin.prevout.hash).isNone

/-- The flag of an entry covers every coinbase coin it spends at the tip. -/
def FlagsCoinbase (coins : CoinMap) (entry : CTxMemPoolEntry) : Prop :=
  ∀ txin ∈ confirmedInputs mapTx entry.tx.vin, ∀ coin, coins txin.prevout = some coin →
    coin.fCoinBase = true → entry.spendsCoinbase = true

/-- The coins of a block after the tip that holds the mempool's part of the inputs:
what the tip shows, and outputs of mempool transactions, none of them a coinbase. -/
structure NextBlockCoins (mapTx : EntryMap) (vin : List CTxIn) (tipCoins coins : CoinMap) :
    Prop where
  confirmed : ∀ txin ∈ confirmedInputs mapTx vin, coins txin.prevout = tipCoins txin.prevout
  unconfirmed : ∀ txin ∈ vin, txin ∉ confirmedInputs mapTx vin →
    ∀ coin, coins txin.prevout = some coin → coin.fCoinBase = false

variable {nSpendHeight : Int} {coins : CoinMap} {vin : List CTxIn}

private theorem Mature.mono {maturity lower : Int} (mature : Mature maturity nSpendHeight coins vin)
    (below : lower ≤ maturity) : Mature lower nSpendHeight coins vin :=
  fun txin member coin shown coinbase => below.trans (mature txin member coin shown coinbase)

variable {mapTx}

section Checks

variable {stack : StackedView}

theorem meets_checkTxInputs_maturity (tx : CTransaction) (nSpendHeight : Int)
    (sound : stack.Sound) :
    Meets (checkTxInputs tx nSpendHeight) stack (fun _ => True) fun verdict _ =>
      JudgesMaturity nSpendHeight stack.shown tx.vin verdict := by
  apply Meets.bind
  refine (meets_haveInputs sound tx).weaken fun present middle becomes => ?_
  split
  · exact meets_pure (.of_other nofun)
  apply Meets.bind
  rw [← becomes.shown]
  refine Meets.weaken (meets_sumInputs trivial nSpendHeight tx.vin 0 (by decide) becomes.sound
    (.inl trivial)) ?_
  rintro verdict after ⟨_, judged, _⟩
  cases verdict with
  | error state => exact meets_pure judged
  | ok nValueIn => ?_
  have passed := judged.passed nValueIn rfl
  apply Meets.bind
  refine meets_lift (fun value_out _ => ?_) fun _ _ => trivial
  split
  · exact meets_pure (.of_other nofun)
  apply Meets.bind
  refine meets_lift (fun txfee _ => ?_) fun _ _ => trivial
  split
  · exact meets_pure ⟨fun _ _ => passed, nofun⟩
  · exact meets_pure (.of_other nofun)

/-! ### What the filter ensures -/

theorem meets_getMempoolCoin (mapTx : EntryMap) (txin : CTxIn) (sound : stack.Sound) :
    Meets (getMempoolCoin mapTx txin.prevout) stack (fun _ => True) fun found after =>
      Becomes stack stack.shown after ∧ ∀ coin, found = some coin →
        confirmation mapTx stack.shown txin =
          if (coin.nHeight.toNat : Int) = MEMPOOL_HEIGHT then none
          else some ↑coin.nHeight.toNat := by
  unfold getMempoolCoin confirmation
  split
  · refine meets_pure ⟨Becomes.refl sound, fun coin found => ?_⟩
    obtain ⟨out, _, rfl⟩ := Option.map_eq_some_iff.mp found
    rfl
  apply Meets.bind
  apply meets_accessCoin sound
  intro coin after becomes seen
  refine meets_pure ⟨becomes, fun other found => ?_⟩
  split at found
  · cases found
  · next unspent =>
    rw [if_neg unspent] at seen
    cases found
    rw [seen]
    rfl

theorem meets_calculatePrevHeights (tip : CBlockIndex) (mapTx : EntryMap) (vin : List CTxIn)
    (sound : stack.Sound) :
    Meets (calculatePrevHeights tip mapTx vin) stack (fun _ => True) fun found after =>
      Becomes stack stack.shown after ∧ ∀ prev_heights, found = some prev_heights →
        prev_heights = vin.map (prevHeight tip mapTx stack.shown) := by
  induction vin generalizing stack with
  | nil =>
    refine meets_pure ⟨Becomes.refl sound, fun prev_heights found => ?_⟩
    cases found
    rfl
  | cons txin rest ih =>
    apply Meets.bind
    refine (meets_getMempoolCoin mapTx txin sound).weaken ?_
    rintro found middle ⟨becomes, confirms⟩
    cases found with
    | none => exact meets_pure ⟨becomes, nofun⟩
    | some coin => ?_
    apply Meets.bind
    refine (ih becomes.sound).weaken ?_
    rintro later after ⟨becomesAfter, heights⟩
    rw [becomes.shown] at becomesAfter heights
    refine meets_pure ⟨becomes.trans becomesAfter, fun prev_heights found => ?_⟩
    obtain ⟨others, isLater, rfl⟩ := Option.map_eq_some_iff.mp found
    rw [heights others isLater, List.map_cons, prevHeight, confirms coin rfl]
    split
    · rfl
    · rfl

theorem meets_currentLockPoints (chain : List CBlockIndex) (tip : CBlockIndex) (mapTx : EntryMap)
    (entry : CTxMemPoolEntry) (sound : stack.Sound) :
    Meets (currentLockPoints chain tip mapTx entry) stack (fun _ => True)
      fun _ after => Becomes stack stack.shown after := by
  unfold currentLockPoints
  split
  · exact meets_pure (Becomes.refl sound)
  apply Meets.bind
  refine (meets_calculatePrevHeights tip mapTx entry.tx.vin sound).weaken ?_
  rintro found after ⟨becomes, -⟩
  cases found with
  | none => exact meets_pure becomes
  | some prev_heights =>
    apply Meets.bind
    exact meets_lift (fun _ _ => meets_pure becomes) fun _ _ => trivial

private theorem confirmedInputs_cons_some {txin : CTxIn} (rest : List CTxIn)
    (provided : (mapTx.lookup txin.prevout.hash).isSome = true) :
    confirmedInputs mapTx (txin :: rest) = confirmedInputs mapTx rest := by
  refine List.filter_cons_of_neg ?_
  rw [← Option.not_isSome, provided]
  decide

theorem confirmedInputs_cons_none {txin : CTxIn} (rest : List CTxIn)
    (absent : ¬(mapTx.lookup txin.prevout.hash).isSome = true) :
    confirmedInputs mapTx (txin :: rest) = txin :: confirmedInputs mapTx rest := by
  refine List.filter_cons_of_pos ?_
  rw [← Option.not_isSome, Bool.eq_false_iff.mpr absent]
  decide

theorem meets_matureInputs {expected : Halt → Prop} (mempool_spend_height : Int) (vin : List CTxIn)
    (sound : stack.Sound) (halts : (¬∀ txin ∈ confirmedInputs mapTx vin,
      (stack.shown txin.prevout).isSome = true) → expected .assertion) :
    Meets (matureInputs mempool_spend_height mapTx vin) stack expected fun mature _ =>
      mature = true ↔
        Mature COINBASE_MATURITY mempool_spend_height stack.shown (confirmedInputs mapTx vin) := by
  induction vin generalizing stack with
  | nil => exact meets_pure (iff_of_true rfl nofun)
  | cons txin rest ih =>
    rw [matureInputs]
    split
    next provided =>
      rw [confirmedInputs_cons_some rest provided] at halts ⊢
      exact ih sound halts
    next absent =>
      rw [confirmedInputs_cons_none rest absent, List.forall_mem_cons] at halts
      rw [confirmedInputs_cons_none rest absent]
      apply Meets.bind
      apply meets_accessCoin sound
      intro coin middle becomes seen
      by_cases spent : coin.isSpent = true
      · rw [if_pos spent] at seen ⊢
        refine meets_throw (halts fun present => ?_)
        rw [seen] at present
        cases present.1
      rw [if_neg spent] at seen ⊢
      split
      next immature =>
        refine meets_pure (iff_of_false Bool.false_ne_true fun mature => ?_)
        have deep := mature txin List.mem_cons_self coin seen immature.1
        omega
      next deep =>
        have later := ih becomes.sound
        rw [becomes.shown] at later
        refine (later fun missing => halts fun present => missing present.2).weaken ?_
        intro mature _ ensures
        refine ensures.trans ⟨fun later => later.cons fun other shown coinbase => ?_, ?_⟩
        · rw [seen] at shown
          cases shown
          exact Int.not_lt.mp fun shallow => deep ⟨coinbase, shallow⟩
        · exact fun mature other member => mature other (List.mem_cons_of_mem txin member)

theorem filterFinalAndMature_mature {tip : CBlockIndex} {pprev : List CBlockIndex}
    {entry : CTxMemPoolEntry} (sound : stack.Sound)
    (flagged : FlagsCoinbase mapTx stack.shown entry) {lp : LockPoints} {after : StackedView}
    (kept : filterFinalAndMature (tip :: pprev) mapTx entry stack = .ok (some lp, after)) :
    Mature COINBASE_MATURITY (tip.nHeight + 1) stack.shown
      (confirmedInputs mapTx entry.tx.vin) := by
  suffices meets : Meets (filterFinalAndMature (tip :: pprev) mapTx entry) stack (fun _ => True)
      fun verdict _ => verdict.isSome = true →
        Mature COINBASE_MATURITY (tip.nHeight + 1) stack.shown
          (confirmedInputs mapTx entry.tx.vin) from meets.result kept rfl
  unfold filterFinalAndMature
  dsimp only
  split
  · exact meets_pure nofun
  apply Meets.bind
  refine (meets_currentLockPoints _ tip mapTx entry sound).weaken fun found middle becomes => ?_
  cases found with
  | none => exact meets_pure nofun
  | some lp => ?_
  apply Meets.bind
  refine meets_lift (fun locked _ => ?_) fun _ _ => trivial
  split
  · exact meets_pure nofun
  split
  next unflagged =>
    refine meets_pure fun _ txin member coin shown coinbase => ?_
    rw [flagged txin member coin shown coinbase] at unflagged
    cases unflagged
  · apply Meets.bind
    rw [← becomes.shown]
    refine Meets.weaken (meets_matureInputs (tip.nHeight + 1) entry.tx.vin becomes.sound
      fun _ => trivial) fun mature _ ensures => meets_pure fun keeps => ?_
    cases mature with
    | true => exact ensures.mp rfl
    | false => cases keeps

theorem meets_spendsCoinbaseCoin (vin : List CTxIn) (sound : stack.Sound) :
    Meets (spendsCoinbaseCoin vin) stack (fun _ => False) fun flag _ =>
      ∀ txin ∈ vin, ∀ coin, stack.shown txin.prevout = some coin → coin.fCoinBase = true →
        flag = true := by
  induction vin generalizing stack with
  | nil => exact meets_pure nofun
  | cons txin rest ih =>
    apply Meets.bind
    apply meets_accessCoin sound
    intro coin middle becomes seen
    split
    · exact meets_pure fun _ _ _ _ _ => rfl
    next plain =>
      have later := ih becomes.sound
      rw [becomes.shown] at later
      refine later.weaken fun flag _ covers other member found shown coinbase => ?_
      rcases List.mem_cons.mp member with rfl | inRest
      · rw [seen] at shown
        split at shown
        · cases shown
        · cases shown
          exact absurd coinbase plain
      · exact covers other inRest found shown coinbase

/-- A flag set at acceptance still covers the entry at a later tip: a coin there that is a
coinbase output was one when the transaction was accepted. -/
theorem flagsCoinbase_of_accepted {entry : CTxMemPoolEntry} {after : StackedView}
    (sound : stack.Sound)
    (scanned : spendsCoinbaseCoin entry.tx.vin stack = .ok (entry.spendsCoinbase, after))
    (same : ∀ txin ∈ confirmedInputs mapTx entry.tx.vin, ∀ coin, coins txin.prevout = some coin →
      coin.fCoinBase = true → ∃ accepted, stack.shown txin.prevout = some accepted ∧
      accepted.fCoinBase = true) : FlagsCoinbase mapTx coins entry := by
  intro txin member coin shown coinbase
  obtain ⟨accepted, wasShown, wasCoinbase⟩ := same txin member coin shown coinbase
  have covers := (meets_spendsCoinbaseCoin entry.tx.vin sound).result scanned
  exact covers txin (List.mem_filter.mp member).1 accepted wasShown wasCoinbase

end Checks

/-- The input check and the reorg filter let a coinbase coin through only at the depth the
parameters ask for, and judge alike a transaction of the block after the tip. -/
structure MaturityEnforced (params : Params) : Prop where
  checked : ∀ (tx : CTransaction) (nSpendHeight : Int) (stack after : StackedView) (fee : Int),
    stack.Sound → checkTxInputs tx nSpendHeight stack = .ok (.ok fee, after) →
      Mature params.nCoinbaseMaturity nSpendHeight stack.shown tx.vin
  kept : ∀ (tip : CBlockIndex) (pprev : List CBlockIndex) (mapTx : EntryMap)
    (entry : CTxMemPoolEntry) (stack after : StackedView) (lp : LockPoints),
    stack.Sound → FlagsCoinbase mapTx stack.shown entry →
      filterFinalAndMature (tip :: pprev) mapTx entry stack = .ok (some lp, after) →
        Mature params.nCoinbaseMaturity (tip.nHeight + 1) stack.shown
          (confirmedInputs mapTx entry.tx.vin)
  notPremature : ∀ (tip : CBlockIndex) (pprev : List CBlockIndex) (mapTx : EntryMap)
    (entry : CTxMemPoolEntry) (stack after next final : StackedView) (lp : LockPoints)
    (state : TxValidationState),
    stack.Sound → next.Sound → FlagsCoinbase mapTx stack.shown entry →
      NextBlockCoins mapTx entry.tx.vin stack.shown next.shown →
        filterFinalAndMature (tip :: pprev) mapTx entry stack = .ok (some lp, after) →
          checkTxInputs entry.tx (tip.nHeight + 1) next = .ok (.error state, final) →
            state.result ≠ .prematureSpend
  notRemoved : ∀ (tip : CBlockIndex) (mapTx : EntryMap) (tx : CTransaction)
    (stack next final : StackedView) (fee : Int),
    stack.Sound → next.Sound → NextBlockCoins mapTx tx.vin stack.shown next.shown →
      checkTxInputs tx (tip.nHeight + 1) next = .ok (.ok fee, final) →
        ∃ after, matureInputs (tip.nHeight + 1) mapTx tx.vin stack = .ok (true, after)

theorem NextBlockCoins.mature {tipCoins : CoinMap} (next : NextBlockCoins mapTx vin tipCoins coins)
    {maturity : Int} (mature : Mature maturity nSpendHeight tipCoins (confirmedInputs mapTx vin)) :
    Mature maturity nSpendHeight coins vin := by
  intro txin member coin shown coinbase
  by_cases confirmed : txin ∈ confirmedInputs mapTx vin
  · rw [next.confirmed txin confirmed] at shown
    exact mature txin confirmed coin shown coinbase
  · rw [next.unconfirmed txin member confirmed coin shown] at coinbase
    cases coinbase

theorem maturityEnforced_of_le {params : Params}
    (configured : params.nCoinbaseMaturity ≤ COINBASE_MATURITY) : MaturityEnforced params where
  checked := by
    intro tx nSpendHeight stack after fee sound passes
    have judged := (meets_checkTxInputs_maturity tx nSpendHeight sound).result passes
    exact (judged.passed fee rfl).1.mono configured
  kept := by
    intro tip pprev mapTx entry stack after lp sound flagged keeps
    exact (filterFinalAndMature_mature sound flagged keeps).mono configured
  notPremature := by
    intro tip pprev mapTx entry stack after next final lp state sound nextSound flagged coins keeps
      fails immature
    have judged := (meets_checkTxInputs_maturity entry.tx (tip.nHeight + 1) nextSound).result fails
    exact judged.premature state rfl immature
      (coins.mature (filterFinalAndMature_mature sound flagged keeps))
  notRemoved := by
    intro tip mapTx tx stack next final fee sound nextSound coins passes
    have judged := (meets_checkTxInputs_maturity tx (tip.nHeight + 1) nextSound).result passes
    obtain ⟨mature, present⟩ := judged.passed fee rfl
    have spent (txin : CTxIn) (confirmed : txin ∈ confirmedInputs mapTx tx.vin) :
        txin ∈ tx.vin := (List.mem_filter.mp confirmed).1
    have scanned : Meets (matureInputs (tip.nHeight + 1) mapTx tx.vin) stack (fun _ => False) _ :=
      meets_matureInputs _ tx.vin sound fun absent => absent fun txin confirmed => by
        rw [← coins.confirmed txin confirmed]
        exact present txin (spent txin confirmed)
    cases found : matureInputs (tip.nHeight + 1) mapTx tx.vin stack with
    | error halt => cases scanned.halt found
    | ok result =>
      have passed := (scanned.result found).mpr fun txin confirmed => by
        rw [← coins.confirmed txin confirmed]
        exact mature txin (spent txin confirmed)
      exact ⟨result.2, by rw [← passed]⟩

def rewardOutpoint : COutPoint := { hash := 9, n := 0 }

def rewardCoin : Coin :=
  { out := { nValue := 1000, scriptPubKey := [0x51] }, fCoinBase := true, nHeight := 0 }

def rewardView : StackedView :=
  { view := .new
    below := []
    base :=
      { coins := Function.update (fun _ => none) rewardOutpoint (some rewardCoin)
        hashBlock := 99
        unspent := by
          intro outpoint coin stored
          rw [Function.update_apply] at stored
          split at stored
          · cases stored
            rfl
          · cases stored } }

theorem rewardView_sound : rewardView.Sound := ⟨CCoinsViewCache.LayerSound.new _, trivial⟩

def rewardSpend : CTransaction :=
  { vin := [{ prevout := rewardOutpoint, scriptSig := [], nSequence := 0xffffffff
              scriptWitness := [] }]
    vout := [{ nValue := 900, scriptPubKey := [0x51] }]
    version := 2
    nLockTime := 0
    hash := 6 }

private theorem checkTxInputs_rewardSpend :
    ∃ after, checkTxInputs rewardSpend 100 rewardView = .ok (.ok 100, after) := ⟨_, rfl⟩

theorem maturityEnforced_iff (params : Params) :
    MaturityEnforced params ↔ params.nCoinbaseMaturity ≤ COINBASE_MATURITY := by
  refine ⟨fun enforced => ?_, maturityEnforced_of_le⟩
  obtain ⟨after, passes⟩ := checkTxInputs_rewardSpend
  exact enforced.checked rewardSpend 100 rewardView after 100 rewardView_sound passes _
    List.mem_cons_self rewardCoin rfl rfl

def hundredBlocks : List CBlockIndex :=
  (List.range 100).reverse.map fun height : Nat =>
    { hashBlock := BitVec.ofNat 256 height, nHeight := height, nVersion := 1, hashMerkleRoot := 0
      nTime := UInt32.ofNat height, nBits := 0x1e0fffff, nNonce := 0 }

def rewardEntry : CTxMemPoolEntry :=
  { tx := rewardSpend, m_parents := .empty, m_children := .empty, nFee := 100, nTxSize := 60
    nTime := 0, spendsCoinbase := true, sigOpCost := 0, m_modified_fee := 100
    lockPoints := { height := -1, time := -1, maxInputBlock := some 0 }
    m_count_with_descendants := 1, nSizeWithDescendants := 60, nModFeesWithDescendants := 100
    m_count_with_ancestors := 1, nSizeWithAncestors := 60, nModFeesWithAncestors := 100
    nSigOpCostWithAncestors := 0 }

/-- On the main network, which asks for 200 blocks, a reward 100 blocks deep is spendable,
and the filter keeps the transaction that spends it. -/
theorem maturity_main_exceeded :
    (∃ after, checkTxInputs rewardSpend 100 rewardView = .ok (.ok 100, after)) ∧
      (∃ after, filterFinalAndMature hundredBlocks ∅ rewardEntry rewardView =
        .ok (some rewardEntry.lockPoints, after)) ∧
      rewardView.shown rewardOutpoint = some rewardCoin ∧
      (hundredBlocks.head?.map fun tip => tip.nHeight + 1) = some 100 ∧
      ¬Mature mainParams.nCoinbaseMaturity 100 rewardView.shown rewardSpend.vin := by
  refine ⟨⟨_, rfl⟩, ⟨_, rfl⟩, rfl, by decide, fun mature => ?_⟩
  exact absurd (mature _ List.mem_cons_self rewardCoin rfl rfl) (by decide)

end Adonai.Validation
