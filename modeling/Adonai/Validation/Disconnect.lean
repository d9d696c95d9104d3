/-
Disconnecting a block, and that it undoes connecting it.

After the later transactions are undone the view shows what it did right after the transaction at
hand; removing its outputs and putting back its inputs leads to what it showed before.
-/

import Adonai.Coins.Undo
import Adonai.Validation.ConnectRules

namespace Adonai.Validation

open Coins Coins.StackedView Consensus Program Compressor Reader
open List (append_nil length_cons map_cons mem_cons_of_mem mem_cons_self nil_append zip_cons_cons)
open Function (update_apply update_comm update_eq_self update_idem update_of_ne update_self)

inductive DisconnectResult where
  | ok
  | unclean
  | failed
  deriving DecidableEq, Repr

def MAX_OUTPUTS_PER_BLOCK : Nat :=
  MAX_BLOCK_WEIGHT / (WITNESS_SCALE_FACTOR * CTxOut.null.serializeSize)

def accessByTxid (txid : Uint256) : (left n : Nat) → ViewProgram Coin
  | 0, _ => pure .empty
  | left + 1, n => do
    let alternate ← accessCoin { hash := txid, n := UInt32.ofNat n }
    if alternate.isSpent then accessByTxid txid left (n + 1) else pure alternate

/-- Undo records of old versions lack the height, here zero, and the coinbase flag;
another output of the same transaction supplies them. -/
def completeUndo (undo : Coin) (out : COutPoint) : ViewProgram (Option Coin) :=
  if undo.nHeight = 0 then do
    let alternate ← accessByTxid out.hash MAX_OUTPUTS_PER_BLOCK 0
    if alternate.isSpent then pure none
    else pure (some { undo with nHeight := alternate.nHeight, fCoinBase := alternate.fCoinBase })
  else pure (some undo)

def applyTxInUndo (undo : Coin) (out : COutPoint) : ViewProgram DisconnectResult := do
  let found ← haveCoin out
  match ← completeUndo undo out with
  | none => pure .failed
  | some coin => do
    addCoin out coin found
    pure (if found then .unclean else .ok)

def outputMatches (pindex : CBlockIndex) (is_coinbase : Bool) (out : CTxOut) : Option Coin → Bool
  | none => false
  | some coin =>
    out == coin.out && decide (pindex.nHeight = coin.nHeight.toNat) &&
      is_coinbase == coin.fCoinBase

/-- Take the outputs from an index on out of the view; the flag tells whether all
was as expected so far. -/
def disconnectOutputs (pindex : CBlockIndex) (tx : CTransaction) (is_bip30_exception : Bool) :
    List CTxOut → Nat → Bool → ViewProgram Bool
  | [], _, fClean => pure fClean
  | out :: rest, index, fClean =>
    if out.scriptPubKey.isUnspendable then
      disconnectOutputs pindex tx is_bip30_exception rest (index + 1) fClean
    else do
      let spent ← spendCoin (outputPoint tx index)
      let clean := outputMatches pindex tx.isCoinBase out spent || is_bip30_exception
      disconnectOutputs pindex tx is_bip30_exception rest (index + 1) (fClean && clean)

def restoreInputs : List (CTxIn × Coin) → Bool → ViewProgram (Option Bool)
  | [], fClean => pure (some fClean)
  | (txin, undo) :: rest, fClean => do
    match ← applyTxInUndo undo txin.prevout with
    | .failed => pure none
    | .unclean => restoreInputs rest false
    | .ok => restoreInputs rest fClean

/-- The first transaction of a block comes without undo data. -/
def disconnectTransaction (pindex : CBlockIndex) (fEnforceBIP30 : Bool) (tx : CTransaction)
    (txundo : Option (List Coin)) (fClean : Bool) : ViewProgram (Option Bool) := do
  let fClean ← disconnectOutputs pindex tx (tx.isCoinBase && !fEnforceBIP30) tx.vout 0 fClean
  match txundo with
  | none => pure (some fClean)
  | some vprevout =>
    if vprevout.length ≠ tx.vin.length then pure none
    else restoreInputs (tx.vin.zip vprevout).reverse fClean

def disconnectTransactions (pindex : CBlockIndex) (fEnforceBIP30 : Bool) :
    List (CTransaction × Option (List Coin)) → Bool → ViewProgram (Option Bool)
  | [], fClean => pure (some fClean)
  | (tx, txundo) :: rest, fClean => do
    match ← disconnectTransaction pindex fEnforceBIP30 tx txundo fClean with
    | none => pure none
    | some fClean => disconnectTransactions pindex fEnforceBIP30 rest fClean

def isBIP30Overwritten (pindex : CBlockIndex) : Bool :=
  (pindex.nHeight == 91722 && pindex.hashBlock ==
    0x00000000000271a2dc26e7667f8419f2e15416dc6955e5a6c6cdf3f2574dd08e) ||
  (pindex.nHeight == 91812 && pindex.hashBlock ==
    0x00000000000af0aed4792b1acee3d966af36cf5def14935db8de83d6f9306f2f)

/-- The undo data is what was read for the block, or nothing if that failed. -/
def disconnectBlock (block : CBlock) (pindex : CBlockIndex) (pprev : List CBlockIndex)
    (blockUndo : Option (List (List Coin))) : ViewProgram DisconnectResult :=
  match blockUndo with
  | none => pure .failed
  | some vtxundo =>
    if vtxundo.length + 1 ≠ block.vtx.length then pure .failed
    else do
      let fEnforceBIP30 := !isBIP30Overwritten pindex
      let records := block.vtx.zip (none :: vtxundo.map some)
      match ← disconnectTransactions pindex fEnforceBIP30 records.reverse true, pprev with
      | none, _ => pure .failed
      | some _, [] => throw .assertion
      | some fClean, last :: _ => do
        setBestBlock last.hashBlock
        pure (if fClean then .ok else .unclean)

variable {coins : CoinMap} {pindex : CBlockIndex} {stack : StackedView}

section Undoing

variable {tx : CTransaction} {nHeight : Int}

/-- A coin at a free place that no output takes stays there, apart from the outputs. -/
theorem addedMap_update {vout : List CTxOut} {index : Nat} {place : COutPoint} {coin : Coin}
    (free : coins place = none)
    (vacant : Vacant tx nHeight vout index (Function.update coins place (some coin))) :
    addedMap tx nHeight vout index (Function.update coins place (some coin)) =
        Function.update (addedMap tx nHeight vout index coins) place (some coin) ∧
      addedMap tx nHeight vout index coins place = none ∧ Vacant tx nHeight vout index coins := by
  induction vout generalizing index coins with
  | nil => exact ⟨rfl, free, trivial⟩
  | cons out rest ih =>
    obtain ⟨swaps, still, here⟩ :
        withCoin (Function.update coins place (some coin)) (outputPoint tx index)
            (outputCoin tx nHeight out) =
          Function.update (withCoin coins (outputPoint tx index) (outputCoin tx nHeight out)) place
            (some coin) ∧
        withCoin coins (outputPoint tx index) (outputCoin tx nHeight out) place = none ∧
        (out.scriptPubKey.isUnspendable = false → coins (outputPoint tx index) = none) := by
      unfold withCoin
      split
      next unspendable =>
        exact ⟨rfl, free, fun spendable => by cases unspendable.symm.trans spendable⟩
      next spendable =>
        have taken := vacant.1 (Bool.eq_false_of_not_eq_true spendable)
        have elsewhere : outputPoint tx index ≠ place := by
          intro same
          rw [same, update_self] at taken
          cases taken
        rw [update_of_ne elsewhere] at taken
        exact ⟨update_comm elsewhere.symm _ _ _, (update_of_ne elsewhere.symm _ _).trans free,
          fun _ => taken⟩
    have later := vacant.2
    rw [swaps] at later
    obtain ⟨apart, empty, before⟩ := ih still later
    rw [addedMap, swaps]
    exact ⟨apart, empty, here, before⟩

private theorem outputMatches_own (height : 0 ≤ pindex.nHeight) (small : pindex.nHeight < 2 ^ 31)
    (out : CTxOut) :
    outputMatches pindex tx.isCoinBase out (some (outputCoin tx pindex.nHeight out)) = true := by
  have back : pindex.nHeight = (BitVec.ofInt 31 pindex.nHeight).toNat := by
    rw [BitVec.toNat_ofInt]
    omega
  simp only [outputMatches, outputCoin, Coin.ofOutput, beq_self_eq_true, Bool.and_true]
  exact decide_eq_true back

theorem disconnectOutputs_spec (height : 0 ≤ pindex.nHeight) (small : pindex.nHeight < 2 ^ 31)
    (is_bip30_exception : Bool) (vout : List CTxOut) (index : Nat) (sound : stack.Sound)
    (shows : stack.shown = addedMap tx pindex.nHeight vout index coins)
    (vacant : Vacant tx pindex.nHeight vout index coins) (fClean : Bool) :
    ∃ after, disconnectOutputs pindex tx is_bip30_exception vout index fClean stack =
        .ok (fClean, after) ∧ Becomes stack coins after := by
  induction vout generalizing index coins stack with
  | nil => exact ⟨stack, rfl, sound, shows, rfl, rfl, rfl⟩
  | cons out rest ih =>
    rw [disconnectOutputs]
    cases unspendable : out.scriptPubKey.isUnspendable with
    | true =>
      have skipped : withCoin coins (outputPoint tx index)
          (outputCoin tx pindex.nHeight out) = coins := if_pos unspendable
      have later := vacant.2
      rw [skipped] at later
      rw [addedMap, skipped] at shows
      exact ih (index + 1) sound shows later
    | false =>
      set place := outputPoint tx index with hPlace
      set coin := outputCoin tx pindex.nHeight out with hCoin
      have stored : withCoin coins place coin = Function.update coins place (some coin) :=
        if_neg (ne_true_of_eq_false unspendable)
      have later := vacant.2
      rw [stored] at later
      obtain ⟨apart, empty, before⟩ := addedMap_update (vacant.1 unspendable) later
      rw [addedMap, stored, apart] at shows
      have present : stack.shown place = some coin := by
        rw [shows, update_self]
      obtain ⟨middle, spent, becomes⟩ := spendCoin_some sound present
      have shownMiddle : middle.shown = addedMap tx pindex.nHeight rest (index + 1) coins := by
        rw [becomes.shown, shows, update_idem, ← empty, update_eq_self]
      obtain ⟨after, runs, final⟩ := ih (index + 1) becomes.sound shownMiddle before
      refine ⟨after, ?_, becomes.trans final⟩
      rw [if_neg Bool.false_ne_true]
      rw [bind_ok spent, outputMatches_own height small out, Bool.true_or, Bool.and_true]
      exact runs

end Undoing

theorem applyTxInUndo_ok (sound : stack.Sound) {undo : Coin} {out : COutPoint}
    (absent : stack.shown out = none) (known : undo.nHeight ≠ 0) (live : undo.isSpent = false) :
    ∃ after, applyTxInUndo undo out stack = .ok (.ok, after) ∧
      Becomes stack (withCoin stack.shown out undo) after := by
  obtain ⟨middle, asked, becomes⟩ := haveCoin_spec sound out
  rw [absent] at asked
  have absentMiddle : middle.shown out = none := by
    rw [becomes.shown]
    exact absent
  obtain ⟨after, added, final⟩ := addCoin_ok becomes.sound out undo false live
    (fun _ _ => absentMiddle)
  rw [becomes.shown] at final
  refine ⟨after, ?_, becomes.trans final⟩
  have complete : completeUndo undo out middle = .ok (some undo, middle) := by
    rw [completeUndo, if_neg known]
    rfl
  rw [applyTxInUndo, bind_ok asked, bind_ok complete]
  exact bind_ok added

/-- A coin that undo data can bring back: its height is known, and it is stored. -/
structure Restorable (coin : Coin) : Prop where
  known : coin.nHeight ≠ 0
  spendable : coin.out.scriptPubKey.isUnspendable = false

theorem restoreInputs_spec (inputs : List (CTxIn × Coin)) (more : List (CTxIn × Coin))
    (sound : stack.Sound) (shows : stack.shown = spentMap coins (inputs.map Prod.fst))
    (distinct : ((inputs.map Prod.fst).map CTxIn.prevout).Nodup)
    (held : ∀ input ∈ inputs, coins input.1.prevout = some input.2)
    (restorable : ∀ input ∈ inputs, Restorable input.2 ∧ input.2.isSpent = false) (fClean : Bool) :
    ∃ after, restoreInputs (inputs.reverse ++ more) fClean stack =
        restoreInputs more fClean after ∧ Becomes stack coins after := by
  induction inputs generalizing coins stack more with
  | nil => exact ⟨stack, rfl, sound, shows, rfl, rfl, rfl⟩
  | cons input rest ih =>
    obtain ⟨txin, coin⟩ := input
    rw [map_cons, map_cons, List.nodup_cons] at distinct
    have found : coins txin.prevout = some coin := held (txin, coin) mem_cons_self
    have elsewhere : ∀ other ∈ rest, other.1.prevout ≠ txin.prevout := by
      intro other member same
      apply distinct.1
      rw [← same]
      exact List.mem_map_of_mem (List.mem_map_of_mem member)
    -- the inputs after this one were spent from the map without it
    have heldRest : ∀ other ∈ rest,
        Function.update coins txin.prevout none other.1.prevout = some other.2 := by
      intro other member
      rw [update_of_ne (elsewhere other member)]
      exact held other (mem_cons_of_mem _ member)
    have showsRest : stack.shown =
        spentMap (Function.update coins txin.prevout none) (rest.map Prod.fst) := shows
    obtain ⟨middle, runs, becomes⟩ := ih ((txin, coin) :: more) sound showsRest distinct.2 heldRest
      (fun other member => restorable other (mem_cons_of_mem _ member))
    obtain ⟨⟨known, spendable⟩, live⟩ := restorable (txin, coin) mem_cons_self
    have absent : middle.shown txin.prevout = none := by
      rw [becomes.shown, update_self]
    obtain ⟨after, applied, final⟩ := applyTxInUndo_ok becomes.sound absent known live
    have stored : withCoin middle.shown txin.prevout coin = coins := by
      rw [withCoin, if_neg (ne_true_of_eq_false spendable), becomes.shown,
        update_idem, ← found, update_eq_self]
    rw [stored] at final
    refine ⟨after, ?_, becomes.trans final⟩
    rw [List.reverse_cons, List.append_assoc, List.singleton_append, runs, restoreInputs]
    exact bind_ok applied

/-! ### Whole transactions and blocks -/

def AllRestorable (coins : CoinMap) : Prop :=
  ∀ outpoint coin, coins outpoint = some coin → Restorable coin

variable {tx : CTransaction}

theorem AllRestorable.updated {nHeight : Int} (all : AllRestorable coins) (height : 0 < nHeight)
    (small : nHeight < 2 ^ 31) : AllRestorable (updatedMap nHeight coins tx) := by
  intro outpoint coin found
  rcases updatedMap_some found with old | ⟨out, _, rfl, spendable⟩
  · exact all outpoint coin old
  refine ⟨fun zero => ?_, spendable⟩
  change BitVec.ofInt 31 nHeight = 0 at zero
  have value := congrArg BitVec.toNat zero
  rw [BitVec.toNat_ofInt] at value
  change _ = 0 at value
  omega

theorem zip_filterMap {vin : List CTxIn} (present : Present coins vin) :
    (vin.filterMap fun txin => coins txin.prevout).length = vin.length ∧
      (vin.zip (vin.filterMap fun txin => coins txin.prevout)).map Prod.fst = vin ∧
      ∀ input ∈ vin.zip (vin.filterMap fun txin => coins txin.prevout),
        coins input.1.prevout = some input.2 ∧ moneyRange input.2.out.nValue = true := by
  induction vin with
  | nil => exact ⟨rfl, rfl, nofun⟩
  | cons txin rest ih =>
    obtain ⟨coin, found, range⟩ := present txin mem_cons_self
    obtain ⟨length, inputs, held⟩ := ih fun other member => present other (mem_cons_of_mem _ member)
    rw [List.filterMap_cons, found]
    refine ⟨?_, ?_, ?_⟩
    · rw [length_cons, length_cons, length]
    · rw [zip_cons_cons, map_cons, inputs]
    · intro input member
      rcases List.mem_cons.mp member with rfl | inRest
      · exact ⟨found, range⟩
      · exact held input inRest

private theorem not_spent_of_range {coin : Coin} (range : moneyRange coin.out.nValue = true) :
    coin.isSpent = false := by
  rw [moneyRange_iff] at range
  simp only [Coin.isSpent, CTxOut.isNull, beq_eq_false_iff_ne, ne_eq]
  omega

def recordOf (coins : CoinMap) (tx : CTransaction) : CTransaction × Option (List Coin) :=
  (tx, if tx.isCoinBase then none else some (undoOf coins tx))

theorem disconnectTransaction_spec (height : 0 < pindex.nHeight) (small : pindex.nHeight < 2 ^ 31)
    (fEnforceBIP30 : Bool) (checked : Checked tx) (present : InputsPresent coins tx)
    (vacant : Vacant tx pindex.nHeight tx.vout 0 (inputsSpent coins tx)) (all : AllRestorable coins)
    (sound : stack.Sound) (shows : stack.shown = updatedMap pindex.nHeight coins tx) (fClean : Bool)
    : ∃ after, disconnectTransaction pindex fEnforceBIP30 tx (recordOf coins tx).2 fClean stack =
        .ok (some fClean, after) ∧ Becomes stack coins after := by
  obtain ⟨middle, removed, becomes⟩ := disconnectOutputs_spec height.le small
    (tx.isCoinBase && !fEnforceBIP30) tx.vout 0 sound shows vacant fClean
  rw [disconnectTransaction, bind_ok removed]
  cases coinbase : tx.isCoinBase with
  | true =>
    have none : (recordOf coins tx).2 = none := if_pos coinbase
    rw [none]
    refine ⟨middle, rfl, ?_⟩
    have same : inputsSpent coins tx = coins := if_pos coinbase
    rw [same] at becomes
    exact becomes
  | false =>
    obtain ⟨length, inputs, held⟩ := zip_filterMap (present coinbase)
    have spends : ¬tx.isCoinBase = true := ne_true_of_eq_false coinbase
    have undo : (recordOf coins tx).2 = some (tx.vin.filterMap fun txin => coins txin.prevout) := by
      rw [recordOf, if_neg spends, undoOf, if_neg spends]
    have spent : middle.shown = spentMap coins
        ((tx.vin.zip (tx.vin.filterMap fun txin => coins txin.prevout)).map Prod.fst) := by
      rw [becomes.shown, inputsSpent, if_neg spends, inputs]
    obtain ⟨after, runs, final⟩ := restoreInputs_spec
      (tx.vin.zip (tx.vin.filterMap fun txin => coins txin.prevout)) [] becomes.sound spent
      (by rw [inputs]; exact checked.distinct) (fun input member => (held input member).1)
      (fun input member => ⟨all _ _ (held input member).1,
        not_spent_of_range (held input member).2⟩) fClean
    rw [append_nil] at runs
    rw [undo]
    refine ⟨after, ?_, becomes.trans final⟩
    change (if _ ≠ _ then _ else restoreInputs _ fClean : ViewProgram (Option Bool)) middle = _
    rw [if_neg (not_not.mpr length), runs]
    rfl

def recordsAlong (nHeight : Int) : List CTransaction → CoinMap →
    List (CTransaction × Option (List Coin))
  | [], _ => []
  | tx :: rest, coins => recordOf coins tx :: recordsAlong nHeight rest
      (updatedMap nHeight coins tx)

theorem disconnectTransactions_spec (height : 0 < pindex.nHeight) (small : pindex.nHeight < 2 ^ 31)
    (fEnforceBIP30 : Bool) (vtx : List CTransaction) (checked : ∀ tx ∈ vtx, Checked tx)
    (more : List (CTransaction × Option (List Coin)))
    (present : PresentAlong pindex.nHeight vtx coins)
    (vacant : VacantAlong pindex.nHeight vtx coins) (all : AllRestorable coins)
    (sound : stack.Sound) (shows : stack.shown = coinsAfter pindex.nHeight vtx coins)
    (fClean : Bool) : ∃ after, disconnectTransactions pindex fEnforceBIP30
        ((recordsAlong pindex.nHeight vtx coins).reverse ++ more) fClean stack =
          disconnectTransactions pindex fEnforceBIP30 more fClean after ∧
      Becomes stack coins after := by
  induction vtx generalizing coins stack more with
  | nil => exact ⟨stack, rfl, sound, shows, rfl, rfl, rfl⟩
  | cons tx rest ih =>
    obtain ⟨middle, runs, becomes⟩ := ih
      (fun other member => checked other (mem_cons_of_mem _ member))
      (recordOf coins tx :: more) present.2 vacant.2 (all.updated height small) sound shows
    obtain ⟨after, undone, final⟩ := disconnectTransaction_spec height small fEnforceBIP30
      (checked tx mem_cons_self) present.1 vacant.1 all becomes.sound becomes.shown fClean
    refine ⟨after, ?_, becomes.trans final⟩
    rw [recordsAlong, List.reverse_cons, List.append_assoc, List.singleton_append, runs, recordOf]
    exact bind_ok undone

theorem zip_undoAlong {nHeight : Int} (vtx : List CTransaction) (coins : CoinMap)
    (noCoinbase : ∀ tx ∈ vtx, tx.isCoinBase = false) :
    (undoAlong nHeight false vtx coins).length = vtx.length ∧
      vtx.zip ((undoAlong nHeight false vtx coins).map some) = recordsAlong nHeight vtx coins := by
  induction vtx generalizing coins with
  | nil => exact ⟨rfl, rfl⟩
  | cons tx rest ih =>
    have spends := noCoinbase tx mem_cons_self
    obtain ⟨length, zipped⟩ := ih (updatedMap nHeight coins tx)
      fun other member => noCoinbase other (mem_cons_of_mem _ member)
    rw [undoAlong, if_neg Bool.false_ne_true, List.singleton_append]
    refine ⟨?_, ?_⟩
    · rw [length_cons, length_cons, length]
    · rw [map_cons, zip_cons_cons, zipped, recordsAlong, recordOf, spends,
        if_neg Bool.false_ne_true]

/-! ### The undo data -/

theorem inputs_le_maxSize (checked : Checked tx) : tx.vin.length ≤ MAX_SIZE := by
  have sizes := List.length_le_sum_of_one_le (tx.vin.map CTxIn.serializeSize)
    (List.forall_mem_map.mpr fun txin _ => by
      unfold CTxIn.serializeSize
      omega)
  rw [List.length_map] at sizes
  have total := checked.size
  unfold CTransaction.sizeNoWitness WITNESS_SCALE_FACTOR MAX_BLOCK_WEIGHT at total
  unfold MAX_SIZE
  omega

theorem undoOf_storable (checked : Checked tx) (present : InputsPresent coins tx)
    (all : AllRestorable coins) :
    (undoOf coins tx).length ≤ MAX_SIZE ∧ ∀ coin ∈ undoOf coins tx, Storable coin := by
  unfold undoOf
  split
  · exact ⟨Nat.zero_le _, nofun⟩
  next spends =>
    refine ⟨le_trans (List.length_filterMap_le _ _) (inputs_le_maxSize checked), ?_⟩
    intro coin member
    obtain ⟨txin, inside, found⟩ := List.mem_filterMap.mp member
    obtain ⟨other, same, range⟩ := present (Bool.not_eq_true _ ▸ spends) txin inside
    rw [found] at same
    cases same
    refine ⟨range, ?_⟩
    have spendable := (all _ _ found).spendable
    unfold CScript.isUnspendable at spendable
    rw [Bool.or_eq_false_iff, decide_eq_false_iff_not] at spendable
    exact Nat.le_of_not_lt spendable.2

theorem undoAlong_storable {nHeight : Int} (height : 0 < nHeight) (small : nHeight < 2 ^ 31)
    (vtx : List CTransaction) (first : Bool) (checked : ∀ tx ∈ vtx, Checked tx)
    (present : PresentAlong nHeight vtx coins) (all : AllRestorable coins) :
    ∀ vprevout ∈ undoAlong nHeight first vtx coins,
      vprevout.length ≤ MAX_SIZE ∧ ∀ coin ∈ vprevout, Storable coin := by
  induction vtx generalizing first coins with
  | nil =>
    intro vprevout member
    cases member
  | cons tx rest ih =>
    intro vprevout member
    rw [undoAlong, List.mem_append] at member
    rcases member with own | later
    · split at own
      · cases own
      · rw [List.mem_singleton] at own
        rw [own]
        exact undoOf_storable (checked tx mem_cons_self) present.1 all
    · exact ih false (fun other inside => checked other (mem_cons_of_mem _ inside))
        present.2 (all.updated height small) vprevout later

/-- A view none of whose coins is overwritten, and whose coins have a known height
and are spendable: a connected block other than the genesis block is undone by
disconnecting it, with the undo data as produced and as read back. -/
theorem disconnectBlock_restores (env : Environment) (codec : PubKeyCodec) (block : CBlock)
    (pindex : CBlockIndex) (pprev : List CBlockIndex) (stack after : StackedView)
    (vtxundo : List (List Coin)) (sound : stack.Sound)
    (restorable : ∀ outpoint coin, stack.shown outpoint = some coin → Restorable coin)
    (height : 0 < pindex.nHeight) (small : pindex.nHeight < 2 ^ 31)
    (notGenesis : block.getHash env ≠ env.params.hashGenesisBlock)
    (vacant : VacantAlong pindex.nHeight block.vtx stack.shown)
    (accepted : connectBlock env block (pindex :: pprev) false stack =
      .ok (.connected vtxundo, after)) : ∀ blockUndo, blockUndo = some vtxundo ∨
        blockUndo = (readBlockUndo codec (writeBlockUndo codec vtxundo)).map Prod.fst →
      ∃ final, disconnectBlock block pindex pprev blockUndo after = .ok (.ok, final) ∧
        final.shown = stack.shown ∧ final.best = stack.best := by
  have meets : Meets (connectBlock env block (pindex :: pprev) false) stack (fun _ => True) _ :=
    meets_connectBlock env block pindex pprev false trivial sound (.inl trivial)
      (.inl trivial) (.inr vacant)
  obtain ⟨onTop, _, way⟩ := meets.result accepted vtxundo rfl
  rcases way with ⟨genesis, _⟩ | ⟨hasParent, ⟨coinbase, rest, connected⟩, acceptedView⟩
  · exact absurd genesis notGenesis
  obtain ⟨blockChecked, present, _, _, undo⟩ := connected
  obtain ⟨shape, first, others, count, checked⟩ := blockChecked
  have lengths : vtxundo.length + 1 = block.vtx.length := by
    rw [undo, shape, undoAlong, if_pos rfl, nil_append, (zip_undoAlong rest _ others).1,
      length_cons]
  -- what was written is what is read
  have written : (readBlockUndo codec (writeBlockUndo codec vtxundo)).map Prod.fst =
      some vtxundo := by
    have storable := undoAlong_storable height small block.vtx true checked present restorable
    rw [← undo] at storable
    have few : vtxundo.length ≤ MAX_SIZE := by
      unfold WITNESS_SCALE_FACTOR MAX_BLOCK_WEIGHT at count
      unfold MAX_SIZE
      omega
    have reads : readBlockUndo codec (writeBlockUndo codec vtxundo ++ []) = some (vtxundo, []) :=
      reads_blockUndo few (fun vprevout member => (storable vprevout member).1)
        (fun vprevout member => (storable vprevout member).2) []
    rw [append_nil] at reads
    rw [reads]
    rfl
  intro blockUndo source
  have given : blockUndo = some vtxundo := by
    rcases source with produced | readBack
    · exact produced
    · exact readBack.trans written
  subst given
  -- the records are those of the transactions, in order
  have records : block.vtx.zip (none :: vtxundo.map some) =
      recordsAlong pindex.nHeight block.vtx stack.shown := by
    rw [undo, shape, undoAlong, if_pos rfl, nil_append, zip_cons_cons, recordsAlong,
      (zip_undoAlong rest _ others).2, recordOf, if_pos first]
  obtain ⟨restored, runs, becomes⟩ := disconnectTransactions_spec height small
    (!isBIP30Overwritten pindex) block.vtx checked [] present vacant restorable
    acceptedView.sound acceptedView.shown true
  rw [append_nil, ← records] at runs
  cases pprev with
  | nil => exact absurd rfl hasParent
  | cons last ancestors => ?_
  obtain ⟨final, set, _, shown, _, bestBelow, best⟩ :=
    setBestBlock_spec becomes.sound last.hashBlock
  refine ⟨final, ?_, shown.trans becomes.shown, ?_⟩
  · rw [disconnectBlock]
    dsimp only
    rw [if_neg (not_not.mpr lengths), bind_ok runs]
    exact bind_ok set
  · have hash : last.hashBlock = stack.best := onTop
    have below : restored.bestBelow = stack.bestBelow :=
      becomes.bestBelow.trans acceptedView.bestBelow
    rw [best, hash, below]
    split
    next null =>
      rw [best_eq] at null ⊢
      split at null
      next viewNull => rw [if_pos viewNull]
      next viewSet => exact absurd null viewSet
    · rfl

/-! ### A coin at height zero

Height zero in an undo record means that the height is missing. A coin that really
has it is not restored once no other output of its transaction is unspent. -/

theorem accessByTxid_spent (txid : Uint256) (left n : Nat) (sound : stack.Sound)
    (none : ∀ n, stack.shown { hash := txid, n := n } = none) :
    ∃ coin after, accessByTxid txid left n stack = .ok (coin, after) ∧ coin.isSpent = true := by
  induction left generalizing n stack with
  | zero => exact ⟨.empty, stack, rfl, rfl⟩
  | succ left ih =>
    obtain ⟨coin, middle, runs, becomes, seen⟩ :=
      accessCoin_spec sound { hash := txid, n := UInt32.ofNat n }
    have spent : coin.isSpent = true := by
      rw [none] at seen
      split at seen
      next spent => exact spent
      · cases seen
    obtain ⟨last, after, later, lastSpent⟩ := ih (n + 1) becomes.sound (by
      intro n
      rw [becomes.shown]
      exact none n)
    refine ⟨last, after, ?_, lastSpent⟩
    rw [accessByTxid, bind_ok runs, if_pos spent]
    exact later

theorem applyTxInUndo_failed (sound : stack.Sound) {undo : Coin} {out : COutPoint}
    (unknown : undo.nHeight = 0) (none : ∀ n, stack.shown { hash := out.hash, n := n } = none) :
    ∃ after, applyTxInUndo undo out stack = .ok (.failed, after) := by
  obtain ⟨middle, asked, becomes⟩ := haveCoin_spec sound out
  obtain ⟨alternate, after, searched, spent⟩ :=
    accessByTxid_spent out.hash MAX_OUTPUTS_PER_BLOCK 0 becomes.sound (by
      intro n
      rw [becomes.shown]
      exact none n)
  have incomplete : completeUndo undo out middle = .ok (Option.none, after) := by
    rw [completeUndo, if_pos unknown, bind_ok searched, if_pos spent]
    rfl
  refine ⟨after, ?_⟩
  rw [applyTxInUndo, bind_ok asked, bind_ok incomplete]
  rfl

def oldOutpoint : COutPoint := { hash := 9, n := 0 }

def oldCoin (nHeight : BitVec 31) : Coin :=
  { out := { nValue := 1000, scriptPubKey := [0x51] }, fCoinBase := false, nHeight := nHeight }

def viewWith (nHeight : BitVec 31) : StackedView :=
  { view := .new
    below := []
    base :=
      { coins := Function.update (fun _ => none) oldOutpoint (some (oldCoin nHeight))
        hashBlock := mainParams.hashGenesisBlock
        unspent := by
          intro outpoint coin stored
          rw [update_apply] at stored
          split at stored
          · cases stored
            rfl
          · cases stored } }

variable (nHeight : BitVec 31)

theorem viewWith_sound : (viewWith nHeight).Sound := ⟨CCoinsViewCache.LayerSound.new _, trivial⟩

def spendingTransaction : CTransaction :=
  { vin := [{ prevout := oldOutpoint, scriptSig := [], nSequence := 0xffffffff
              scriptWitness := [] }]
    vout := [{ nValue := 900, scriptPubKey := [0x51] }]
    version := 2
    nLockTime := 0
    hash := 6 }

def spendingBlock : CBlock :=
  { header := { genesisHeader with
      hashPrevBlock := mainParams.hashGenesisBlock, hashMerkleRoot := 5, nTime := 1 }
    vtx := [coinbaseTo 5 (18 * COIN), spendingTransaction] }

def spendingIndex : CBlockIndex :=
  { hashBlock := 1, nHeight := 1, nVersion := 1, hashMerkleRoot := 5, nTime := 1
    nBits := 0x1e0fffff, nNonce := 0 }

theorem connectBlock_spending
    (connects : (match connectBlock permissive spendingBlock [spendingIndex, Pow.mainGenesis] false
        (viewWith nHeight) with
      | .ok (.connected _, _) => true
      | _ => false) = true) :
    ∃ vtxundo after, connectBlock permissive spendingBlock [spendingIndex, Pow.mainGenesis] false
      (viewWith nHeight) = .ok (.connected vtxundo, after) := by
  split at connects
  next vtxundo after runs => exact ⟨vtxundo, after, runs⟩
  · cases connects

private theorem spendingBlock_vacant :
    VacantAlong spendingIndex.nHeight spendingBlock.vtx (viewWith nHeight).shown :=
  ⟨⟨fun _ => rfl, trivial⟩, ⟨fun _ => rfl, trivial⟩, trivial⟩

theorem disconnectBlock_height_zero : ∃ vtxundo after final,
      connectBlock permissive spendingBlock [spendingIndex, Pow.mainGenesis] false (viewWith 0) =
        .ok (.connected vtxundo, after) ∧
      disconnectBlock spendingBlock spendingIndex [Pow.mainGenesis] (some vtxundo) after =
        .ok (.failed, final) := by
  obtain ⟨vtxundo, after, runs⟩ := connectBlock_spending 0 (by decide +kernel)
  have meets : Meets (connectBlock permissive spendingBlock [spendingIndex, Pow.mainGenesis] false)
      (viewWith 0) (fun _ => True) _ :=
    meets_connectBlock permissive spendingBlock spendingIndex [Pow.mainGenesis] false trivial
      (viewWith_sound 0) (.inl trivial) (.inl trivial) (.inr (spendingBlock_vacant 0))
  obtain ⟨_, _, way⟩ := meets.result runs vtxundo rfl
  rcases way with ⟨genesis, _⟩ | ⟨_, ⟨coinbase, rest, connected⟩, accepted⟩
  · exact absurd genesis (by decide +kernel)
  have undo : vtxundo = [[oldCoin 0]] := connected.undo.trans (by decide +kernel)
  subst undo
  -- without its output the transaction leaves no coin of the one it spent
  set coins := inputsSpent (updatedMap 1 (viewWith 0).shown (coinbaseTo 5 (18 * COIN)))
    spendingTransaction with hCoins
  have shows : after.shown = addedMap spendingTransaction spendingIndex.nHeight
      spendingTransaction.vout 0 coins := accepted.shown
  have vacant : Vacant spendingTransaction spendingIndex.nHeight spendingTransaction.vout 0
      coins := ⟨fun _ => rfl, trivial⟩
  obtain ⟨middle, removed, becomes⟩ := disconnectOutputs_spec (by decide) (by decide)
    (spendingTransaction.isCoinBase && !!isBIP30Overwritten spendingIndex)
    spendingTransaction.vout 0 accepted.sound shows vacant true
  have gone : ∀ n, middle.shown { hash := oldOutpoint.hash, n := n } = none := by
    intro n
    rw [becomes.shown]
    have spends : coins = Function.update (Function.update (viewWith 0).shown
        (outputPoint (coinbaseTo 5 (18 * COIN)) 0)
        (some (outputCoin (coinbaseTo 5 (18 * COIN)) 1
          { nValue := 18 * COIN, scriptPubKey := [0x51] })))
        oldOutpoint none := rfl
    by_cases same : ({ hash := oldOutpoint.hash, n := n } : COutPoint) = oldOutpoint
    · rw [spends, same, update_self]
    · rw [spends, update_of_ne same, update_of_ne]
      · exact update_of_ne same (some (oldCoin 0)) (fun _ => none)
      · intro coinbasePlace
        have hashes : oldOutpoint.hash = (5 : Uint256) := congrArg COutPoint.hash coinbasePlace
        exact absurd hashes (by decide)
  have unknown : (oldCoin 0).nHeight = 0 := rfl
  obtain ⟨final, failed⟩ := applyTxInUndo_failed becomes.sound unknown gone
  refine ⟨_, after, final, runs, ?_⟩
  have transaction : disconnectTransaction spendingIndex (!isBIP30Overwritten spendingIndex)
      spendingTransaction (some [oldCoin 0]) true after = .ok (none, final) := by
    rw [disconnectTransaction, bind_ok removed]
    exact bind_ok failed
  have all : disconnectTransactions spendingIndex (!isBIP30Overwritten spendingIndex)
      (spendingBlock.vtx.zip (none :: [[oldCoin 0]].map some)).reverse true after =
        .ok (none, final) := bind_ok transaction
  rw [disconnectBlock]
  dsimp only
  rw [if_neg (by decide), bind_ok all]
  rfl

def keyless : PubKeyCodec :=
  { isFullyValid := fun _ => false
    decompress := fun _ => none
    inverts := nofun }

theorem disconnectBlock_restores_spending : ∃ vtxundo after final,
      connectBlock permissive spendingBlock [spendingIndex, Pow.mainGenesis] false (viewWith 4) =
        .ok (.connected vtxundo, after) ∧
      disconnectBlock spendingBlock spendingIndex [Pow.mainGenesis]
        ((readBlockUndo keyless (writeBlockUndo keyless vtxundo)).map Prod.fst) after =
          .ok (.ok, final) ∧
      final.shown = (viewWith 4).shown ∧ final.best = (viewWith 4).best := by
  obtain ⟨vtxundo, after, runs⟩ := connectBlock_spending 4 (by decide +kernel)
  have restorable : ∀ outpoint coin, (viewWith 4).shown outpoint = some coin → Restorable coin := by
    intro outpoint coin found
    change Function.update (fun _ => none) oldOutpoint (some (oldCoin 4)) outpoint = some coin
      at found
    rw [update_apply] at found
    split at found
    · cases found
      exact ⟨by decide, rfl⟩
    · cases found
  obtain ⟨final, undone, shown, best⟩ := disconnectBlock_restores permissive keyless spendingBlock
    spendingIndex [Pow.mainGenesis] (viewWith 4) after vtxundo (viewWith_sound 4) restorable
    (by decide) (by decide) (by decide +kernel) (spendingBlock_vacant 4) runs _ (.inr rfl)
  exact ⟨vtxundo, after, final, runs, undone, shown, best⟩

end Adonai.Validation
