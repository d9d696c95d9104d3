/-
What connecting transactions does to the coins a view shows.

The effect of a transaction on the coins, its fee and its undo data are plain functions that the
programs compute. Which halts are expected is left open, for statements about every outcome and
about accepted blocks.
-/

import Adonai.Validation.Connect

namespace Adonai.Validation

open Coins Coins.StackedView Consensus Program

variable (coins : CoinMap)

def spentMap (vin : List CTxIn) : CoinMap :=
  vin.foldl (fun coins txin => Function.update coins txin.prevout none) coins

variable (tx : CTransaction)

def outputCoin (nHeight : Int) (out : CTxOut) : Coin := .ofOutput out nHeight tx.isCoinBase

def addedMap (tx : CTransaction) (nHeight : Int) : List CTxOut → Nat → CoinMap → CoinMap
  | [], _, coins => coins
  | out :: rest, index, coins =>
    addedMap tx nHeight rest (index + 1)
      (withCoin coins (outputPoint tx index) (outputCoin tx nHeight out))

def inputsSpent : CoinMap := if tx.isCoinBase then coins else spentMap coins tx.vin

def updatedMap (nHeight : Int) (coins : CoinMap) (tx : CTransaction) : CoinMap :=
  addedMap tx nHeight tx.vout 0 (inputsSpent coins tx)

def feeOf : Int := if tx.isCoinBase then 0 else valueIn coins tx.vin - valueOut tx.vout

def undoOf : List Coin :=
  if tx.isCoinBase then [] else tx.vin.filterMap fun txin => coins txin.prevout

def InputsPresent : Prop := tx.isCoinBase = false → Present coins tx.vin

def Vacant (tx : CTransaction) (nHeight : Int) : List CTxOut → Nat → CoinMap → Prop
  | [], _, _ => True
  | out :: rest, index, coins =>
    (out.scriptPubKey.isUnspendable = false → coins (outputPoint tx index) = none) ∧
      Vacant tx nHeight rest (index + 1)
        (withCoin coins (outputPoint tx index) (outputCoin tx nHeight out))

variable {coins} {progress : Progress}

section Rules

variable {expected : Halt → Prop} {stack : StackedView} {nHeight : Int} {tx}

theorem spendInputs_spec (sound : stack.Sound) (vin : List CTxIn)
    (distinct : (vin.map CTxIn.prevout).Nodup) (present : Present stack.shown vin) :
    ∃ after, spendInputs vin stack =
        .ok (vin.filterMap (fun txin => stack.shown txin.prevout), after) ∧
      Becomes stack (spentMap stack.shown vin) after := by
  induction vin generalizing stack with
  | nil => exact ⟨stack, rfl, Becomes.refl sound⟩
  | cons txin rest ih =>
    rw [List.map_cons, List.nodup_cons] at distinct
    obtain ⟨coin, found, _⟩ := present txin List.mem_cons_self
    obtain ⟨middle, spent, becomes⟩ := spendCoin_some sound found
    -- the other inputs are different outpoints, so their coins are still there
    have kept : ∀ other ∈ rest, middle.shown other.prevout = stack.shown other.prevout := by
      intro other member
      rw [becomes.shown, Function.update_of_ne]
      intro same
      exact distinct.1 (same ▸ List.mem_map_of_mem member)
    have later : Present middle.shown rest := by
      intro other member
      rw [kept other member]
      exact present other (List.mem_cons_of_mem _ member)
    obtain ⟨after, runs, final⟩ := ih becomes.sound distinct.2 later
    have coins := List.filterMap_congr kept
    refine ⟨after, ?_, ?_⟩
    · rw [spendInputs, List.filterMap_cons, found, ← coins, bind_ok spent]
      exact bind_ok runs
    · rw [becomes.shown] at final
      exact becomes.trans final

/-- Either a refused overwrite is expected and the coins are all in the top cache,
or every output finds its place vacant. -/
def Replaceable (expected : Halt → Prop) (stack : StackedView) (vacant : Prop) : Prop :=
  (expected (.coins .overwritesUnspent) ∧ ∀ outpoint, stack.shownBelow outpoint = none) ∨ vacant

theorem Replaceable.transfer {vacant later : Prop} {after : StackedView}
    (replaceable : Replaceable expected stack vacant) (becomes : Becomes stack coins after)
    (imply : vacant → later) : Replaceable expected after later := by
  rcases replaceable with ⟨refused, own⟩ | holds
  · refine .inl ⟨refused, fun outpoint => ?_⟩
    rw [becomes.shownBelow]
    exact own outpoint
  · exact .inr (imply holds)

theorem meets_addOutputs (sound : stack.Sound) (vout : List CTxOut) (index : Nat)
    (live : ∀ out ∈ vout, out.isNull = false)
    (replaceable : Replaceable expected stack (Vacant tx nHeight vout index stack.shown)) :
    Meets (addOutputs tx nHeight vout index) stack expected fun _ after =>
      Becomes stack (addedMap tx nHeight vout index stack.shown) after := by
  induction vout generalizing stack index with
  | nil => exact meets_pure (Becomes.refl sound)
  | cons out rest ih =>
    apply Meets.bind
    have coinLive : (outputCoin tx nHeight out).isSpent = false := live out List.mem_cons_self
    have restLive : ∀ out ∈ rest, out.isNull = false :=
      fun out member => live out (List.mem_cons_of_mem _ member)
    have continues : ∀ after,
        Becomes stack (withCoin stack.shown (outputPoint tx index) (outputCoin tx nHeight out))
          after →
        Meets (addOutputs tx nHeight rest (index + 1)) after expected fun _ final =>
          Becomes stack (addedMap tx nHeight (out :: rest) index stack.shown) final := by
      intro after becomes
      have again := replaceable.transfer becomes fun vacant => becomes.shown ▸ vacant.2
      refine (ih becomes.sound (index + 1) restLive again).weaken fun _ final holds => ?_
      rw [becomes.shown] at holds
      exact becomes.trans holds
    by_cases blocked : tx.isCoinBase = false ∧ out.scriptPubKey.isUnspendable = false ∧
        stack.shown (outputPoint tx index) ≠ none
    · obtain ⟨strict, spendable, present⟩ := blocked
      rcases replaceable with ⟨refused, own⟩ | vacant
      · have fails := addCoin_overwrites coinLive spendable present (own _)
        rw [← strict] at fails
        exact .of_error fails refused
      · exact absurd (vacant.1 spendable) present
    · obtain ⟨after, added, becomes⟩ := addCoin_ok sound (outputPoint tx index)
        (outputCoin tx nHeight out) tx.isCoinBase coinLive (by
          intro strict spendable
          by_contra present
          exact blocked ⟨strict, spendable, present⟩)
      exact .of_ok added (continues after becomes)

private theorem checked_live (checked : Checked tx) (out : CTxOut) (member : out ∈ tx.vout) :
    out.isNull = false := by
  have range := (moneyRange_iff _).mp (checked.values out member)
  simp only [CTxOut.isNull, beq_eq_false_iff_ne]
  omega

theorem meets_updateCoins (sound : stack.Sound) (checked : Checked tx)
    (present : InputsPresent stack.shown tx) (replaceable : Replaceable expected stack
      (Vacant tx nHeight tx.vout 0 (inputsSpent stack.shown tx))) :
    Meets (updateCoins tx nHeight) stack expected fun vprevout after =>
      vprevout = undoOf stack.shown tx ∧
        Becomes stack (updatedMap nHeight stack.shown tx) after := by
  have spends : ∃ middle, spendTransaction tx stack = .ok (undoOf stack.shown tx, middle) ∧
      Becomes stack (inputsSpent stack.shown tx) middle := by
    unfold spendTransaction undoOf inputsSpent
    cases coinbase : tx.isCoinBase with
    | true => exact ⟨stack, rfl, Becomes.refl sound⟩
    | false => exact spendInputs_spec sound tx.vin checked.distinct (present coinbase)
  obtain ⟨middle, runs, becomes⟩ := spends
  apply Meets.bind
  refine .of_ok runs ?_
  apply Meets.bind
  have again := replaceable.transfer becomes fun vacant => becomes.shown ▸ vacant
  refine (meets_addOutputs becomes.sound tx.vout 0 (checked_live checked) again).weaken
    fun _ after holds => meets_pure ⟨rfl, ?_⟩
  rw [becomes.shown] at holds
  exact becomes.trans holds

/-! ### One transaction -/

theorem meets_accessInputs (asserted : expected .assertion) (sound : stack.Sound)
    (vin : List CTxIn) :
    Meets (accessInputs vin) stack expected fun _ after => Becomes stack stack.shown after := by
  induction vin generalizing stack with
  | nil => exact meets_pure (Becomes.refl sound)
  | cons txin rest ih =>
    apply Meets.bind
    apply meets_accessCoin sound
    intro coin middle becomes _
    split
    · exact meets_throw asserted
    · apply Meets.bind
      refine (ih becomes.sound).weaken fun _ after holds => meets_pure ?_
      rw [becomes.shown] at holds
      exact becomes.trans holds

theorem sequenceLocks_no_overflow (verifySequence : Bool) (prevHeights : List Int)
    (block : List CBlockIndex) (halt : Halt)
    (halts : sequenceLocks tx verifySequence prevHeights block = .error halt) :
    halt = .assertion := by
  have loop : ∀ inputs lock, sequenceLocksLoop block inputs lock = .error halt →
      halt = .assertion := by
    intro inputs
    induction inputs with
    | nil =>
      intro lock impossible
      cases impossible
    | cons input rest ih =>
      intro lock failed
      rw [sequenceLocksLoop] at failed
      cases one : sequenceLock block input.1 input.2 lock with
      | ok next =>
        rw [one] at failed
        exact ih next failed
      | error reason => ?_
      rw [one] at failed
      cases failed
      unfold sequenceLock at one
      repeat' split at one
      all_goals cases one
      rfl
  unfold sequenceLocks at halts
  cases locks : calculateSequenceLocks tx verifySequence prevHeights block with
  | error reason =>
    rw [locks] at halts
    cases halts
    unfold calculateSequenceLocks at locks
    split at locks
    · exact loop _ _ locks
    · cases locks
  | ok lockPair =>
    rw [locks] at halts
    unfold evaluateSequenceLocks at halts
    split at halts
    · cases halts
    · cases halts
      rfl

variable (env : Environment) (pindex : List CBlockIndex)

/-- The fees grow by the fee of the transaction and stay a valid amount, unless the
block is invalid. -/
theorem meets_checkSpending
    (asserted : expected .assertion) (sound : stack.Sound) (checked : Checked tx)
    (excused : OverflowExcused expected stack.shown) {nFees : Int}
    (range : moneyRange nFees = true) :
    Meets (checkSpending env pindex nHeight tx nFees) stack expected fun result after =>
      Becomes stack stack.shown after ∧ 0 ≤ result.1 ∧ result.1 ≤ 2 * MAX_MONEY ∧
        (result.2 = none → moneyRange result.1 = true ∧
          result.1 = nFees + (valueIn stack.shown tx.vin - valueOut tx.vout) ∧
          Present stack.shown tx.vin) := by
  have bounds := (moneyRange_iff _).mp range
  apply Meets.bind
  refine (meets_checkTxInputs asserted checked nHeight sound excused).weaken
    fun result middle holds => ?_
  obtain ⟨becomes, ensures⟩ := holds
  cases result with
  | error state =>
    exact meets_pure ⟨becomes, by omega, by omega, nofun⟩
  | ok txfee => ?_
  obtain ⟨feeRange, equals, present⟩ := ensures txfee rfl
  have feeBounds := (moneyRange_iff _).mp feeRange
  apply Meets.bind
  rw [addAmount_range range feeRange]
  change Meets (if (!moneyRange (nFees + txfee)) = true then _ else _) middle expected _
  split
  · refine meets_pure ⟨becomes, ?_, ?_, nofun⟩
    · omega
    · omega
  next within =>
    rw [Bool.not_eq_true, Bool.not_eq_false'] at within
    apply Meets.bind
    refine (meets_accessInputs asserted becomes.sound tx.vin).weaken fun coins after kept => ?_
    rw [becomes.shown] at kept
    have whole := becomes.trans kept
    apply Meets.bind
    apply meets_lift
    · intro final _
      have withinBounds := (moneyRange_iff _).mp within
      split
      · refine meets_pure ⟨whole, withinBounds.1, ?_, fun _ => ⟨within, ?_, present⟩⟩
        · omega
        · rw [equals]
      · refine meets_pure ⟨whole, withinBounds.1, ?_, nofun⟩
        omega
    · intro halt halts
      rw [sequenceLocks_no_overflow _ _ _ halt halts]
      exact asserted

structure Advanced (nHeight : Int) (stack : StackedView) (tx : CTransaction) (first : Bool)
    (progress next : Progress) (after : StackedView) : Prop where
  becomes : Becomes stack (updatedMap nHeight stack.shown tx) after
  present : InputsPresent stack.shown tx
  fees : next.nFees = progress.nFees + feeOf stack.shown tx
  range : moneyRange next.nFees = true
  undo : next.vtxundo =
    if first then progress.vtxundo else progress.vtxundo ++ [undoOf stack.shown tx]

def FeesBounded (progress : Progress) : Prop := 0 ≤ progress.nFees ∧ progress.nFees ≤ 2 * MAX_MONEY

theorem FeesBounded.of_range (range : moneyRange progress.nFees = true) : FeesBounded progress := by
  have bounds := (moneyRange_iff _).mp range
  exact ⟨bounds.1, by omega⟩

theorem meets_checkScriptsAndUpdate
    (first : Bool) (progress : Progress) (asserted : expected .assertion) (sound : stack.Sound)
    (checked : Checked tx)
    (present : InputsPresent stack.shown tx) (replaceable : Replaceable expected stack
      (Vacant tx nHeight tx.vout 0 (inputsSpent stack.shown tx))) :
    Meets (checkScriptsAndUpdate env pindex nHeight tx first progress) stack expected
      fun next after => next.nFees = progress.nFees ∧ (next.invalid = none →
        Becomes stack (updatedMap nHeight stack.shown tx) after ∧
          next.vtxundo =
            if first then progress.vtxundo
            else progress.vtxundo ++ [undoOf stack.shown tx]) := by
  have reads : Meets (inputCoins tx) stack expected
      fun _ after => Becomes stack stack.shown after := by
    unfold inputCoins
    split
    · exact meets_pure (Becomes.refl sound)
    · exact meets_accessInputs asserted sound tx.vin
  apply Meets.bind
  refine reads.weaken fun coins middle becomes => ?_
  dsimp only
  split
  · exact meets_pure ⟨rfl, nofun⟩
  split
  · exact meets_pure ⟨rfl, nofun⟩
  apply Meets.bind
  have again := replaceable.transfer becomes fun vacant => becomes.shown ▸ vacant
  have updates := meets_updateCoins becomes.sound checked (becomes.shown ▸ present) again
  rw [becomes.shown] at updates
  refine updates.weaken fun vprevout after holds => meets_pure ⟨rfl, fun _ => ?_⟩
  rw [holds.1]
  exact ⟨becomes.trans holds.2, rfl⟩

theorem meets_connectTransaction (first : Bool)
    (asserted : expected .assertion) (sound : stack.Sound) (checked : Checked tx)
    (excused : OverflowExcused expected stack.shown)
    (replaceable : Replaceable expected stack (Vacant tx nHeight tx.vout 0 (inputsSpent stack.shown
      tx))) (range : moneyRange progress.nFees = true) :
    Meets (connectTransaction env pindex nHeight tx first progress) stack expected
      fun next after => FeesBounded next ∧
        (next.invalid = none → Advanced nHeight stack tx first progress next after) := by
  rw [connectTransaction]
  cases coinbase : tx.isCoinBase with
  | true =>
    have present : InputsPresent stack.shown tx := by
      intro spends
      rw [coinbase] at spends
      cases spends
    refine (meets_checkScriptsAndUpdate env pindex first progress asserted sound checked present
      replaceable).weaken fun next after holds => ?_
    have nextRange : moneyRange next.nFees = true := by
      rw [holds.1]
      exact range
    refine ⟨FeesBounded.of_range nextRange, fun stillValid => ?_⟩
    obtain ⟨becomes, undo⟩ := holds.2 stillValid
    refine ⟨becomes, present, ?_, nextRange, undo⟩
    rw [holds.1, feeOf, if_pos coinbase, Int.add_zero]
  | false =>
    apply Meets.bind
    refine (meets_checkSpending env pindex asserted sound checked excused range).weaken
      fun spending middle holds => ?_
    obtain ⟨becomes, low, high, ensures⟩ := holds
    dsimp only
    split
    next invalid =>
      refine meets_pure ⟨⟨low, high⟩, fun impossible => ?_⟩
      change spending.2 = none at impossible
      rw [impossible] at invalid
      cases invalid
    next ok =>
      have spendingValid : spending.2 = none := by
        cases state : spending.2 with
        | none => rfl
        | some state' =>
          rw [state] at ok
          exact absurd rfl ok
      obtain ⟨feesRange, equals, present⟩ := ensures spendingValid
      have again := replaceable.transfer becomes fun vacant => becomes.shown ▸ vacant
      have presentAgain : InputsPresent middle.shown tx := by
        rw [becomes.shown]
        exact fun _ => present
      have rest := meets_checkScriptsAndUpdate env pindex first
        { progress with nFees := spending.1, invalid := spending.2 } asserted
        becomes.sound checked presentAgain again
      rw [becomes.shown] at rest
      refine rest.weaken fun next after final => ?_
      have nextRange : moneyRange next.nFees = true := by
        rw [final.1]
        exact feesRange
      refine ⟨FeesBounded.of_range nextRange, fun stillValid => ?_⟩
      obtain ⟨kept, undo⟩ := final.2 stillValid
      refine ⟨becomes.trans kept, fun _ => present, ?_, nextRange, undo⟩
      rw [final.1, feeOf, if_neg (ne_true_of_eq_false coinbase)]
      exact equals

end Rules

/-! ### The loop over the transactions -/

variable {outpoint : COutPoint} {coin : Coin}

private theorem spentMap_some {vin : List CTxIn} (left : spentMap coins vin outpoint = some coin) :
    coins outpoint = some coin := by
  induction vin generalizing coins with
  | nil => exact left
  | cons txin rest ih =>
    have earlier : Function.update coins txin.prevout none outpoint = some coin := ih left
    rw [Function.update_apply] at earlier
    split at earlier
    · cases earlier
    · exact earlier

theorem withCoin_some {place : COutPoint} {added : Coin}
    (found : withCoin coins place added outpoint = some coin) : coins outpoint = some coin ∨
      (added = coin ∧ coin.out.scriptPubKey.isUnspendable = false) := by
  unfold withCoin at found
  split at found
  · exact .inl found
  next spendable =>
    rw [Function.update_apply] at found
    split at found
    · cases found
      exact .inr ⟨rfl, Bool.not_eq_true _ ▸ spendable⟩
    · exact .inl found

variable {tx} {nHeight : Int}

theorem addedMap_some {vout : List CTxOut} {index : Nat}
    (found : addedMap tx nHeight vout index coins outpoint = some coin) :
    coins outpoint = some coin ∨ ∃ out ∈ vout, coin = outputCoin tx nHeight out ∧
      coin.out.scriptPubKey.isUnspendable = false := by
  induction vout generalizing index coins with
  | nil => exact .inl found
  | cons out rest ih =>
    rcases ih found with before | ⟨other, member, same⟩
    · rcases withCoin_some before with old | new
      · exact .inl old
      · exact .inr ⟨out, List.mem_cons_self, new.1.symm, new.2⟩
    · exact .inr ⟨other, List.mem_cons_of_mem _ member, same⟩

theorem updatedMap_some (found : updatedMap nHeight coins tx outpoint = some coin) :
    coins outpoint = some coin ∨ ∃ out ∈ tx.vout, coin = outputCoin tx nHeight out ∧
      coin.out.scriptPubKey.isUnspendable = false := by
  rcases addedMap_some found with before | output
  · refine .inl ?_
    unfold inputsSpent at before
    split at before
    · exact before
    · exact spentMap_some before
  · exact .inr output

variable {expected : Halt → Prop}

theorem overflowExcused_updated (excused : OverflowExcused expected coins) (checked : Checked tx) :
    OverflowExcused expected (updatedMap nHeight coins tx) := by
  rcases excused with overflow | bounded
  · exact .inl overflow
  · refine .inr fun outpoint coin found => ?_
    rcases updatedMap_some found with old | ⟨out, member, rfl, _⟩
    · exact bounded outpoint coin old
    · exact checked.values out member

def coinsAfter (nHeight : Int) (vtx : List CTransaction) (coins : CoinMap) : CoinMap :=
  vtx.foldl (updatedMap nHeight) coins

def feesAlong (nHeight : Int) : List CTransaction → CoinMap → Int
  | [], _ => 0
  | tx :: rest, coins => feeOf coins tx + feesAlong nHeight rest (updatedMap nHeight coins tx)

def undoAlong (nHeight : Int) : (first : Bool) → List CTransaction → CoinMap → List (List Coin)
  | _, [], _ => []
  | first, tx :: rest, coins =>
    (if first then [] else [undoOf coins tx]) ++
      undoAlong nHeight false rest (updatedMap nHeight coins tx)

def PresentAlong (nHeight : Int) : List CTransaction → CoinMap → Prop
  | [], _ => True
  | tx :: rest, coins =>
    InputsPresent coins tx ∧ PresentAlong nHeight rest (updatedMap nHeight coins tx)

def VacantAlong (nHeight : Int) : List CTransaction → CoinMap → Prop
  | [], _ => True
  | tx :: rest, coins =>
    Vacant tx nHeight tx.vout 0 (inputsSpent coins tx) ∧
      VacantAlong nHeight rest (updatedMap nHeight coins tx)

structure Completed (nHeight : Int) (stack : StackedView) (vtx : List CTransaction)
    (first : Bool) (progress final : Progress) (after : StackedView) : Prop where
  becomes : Becomes stack (coinsAfter nHeight vtx stack.shown) after
  present : PresentAlong nHeight vtx stack.shown
  fees : final.nFees = progress.nFees + feesAlong nHeight vtx stack.shown
  range : moneyRange final.nFees = true
  undo : final.vtxundo = progress.vtxundo ++ undoAlong nHeight first vtx stack.shown

variable {stack : StackedView} {rest : List CTransaction}

theorem Completed.cons {middle after : StackedView} {first : Bool} {next final : Progress}
    (advanced : Advanced nHeight stack tx first progress next middle)
    (completed : Completed nHeight middle rest false next final after) :
    Completed nHeight stack (tx :: rest) first progress final after := by
  obtain ⟨becomes, present, fees, _, undo⟩ := advanced
  obtain ⟨laterBecomes, laterPresent, laterFees, range, laterUndo⟩ := completed
  rw [becomes.shown] at laterBecomes laterPresent laterFees laterUndo
  refine ⟨becomes.trans laterBecomes, ⟨present, laterPresent⟩, ?_, range, ?_⟩
  · rw [laterFees, fees, feesAlong, Int.add_assoc]
  · rw [laterUndo, undo, undoAlong]
    cases first with
    | true => rfl
    | false => rw [if_neg Bool.false_ne_true, if_neg Bool.false_ne_true, List.append_assoc]

theorem meets_connectTransactions (env : Environment) (pindex : List CBlockIndex) (nHeight : Int)
    (asserted : expected .assertion) (vtx : List CTransaction) (checked : ∀ tx ∈ vtx, Checked tx)
    (first : Bool) (sound : stack.Sound) (excused : OverflowExcused expected stack.shown)
    (replaceable : Replaceable expected stack (VacantAlong nHeight vtx stack.shown))
    (range : moneyRange progress.nFees = true) :
    Meets (connectTransactions env pindex nHeight vtx first progress) stack expected
      fun final after => FeesBounded final ∧
        (final.invalid = none → Completed nHeight stack vtx first progress final after) := by
  induction vtx generalizing first stack progress with
  | nil =>
    refine meets_pure ⟨FeesBounded.of_range range, fun _ => ⟨Becomes.refl sound, trivial, ?_,
      range, ?_⟩⟩
    · exact (Int.add_zero _).symm
    · exact (List.append_nil _).symm
  | cons tx rest ih =>
    rw [connectTransactions]
    split
    next invalid =>
      refine meets_pure ⟨FeesBounded.of_range range, fun valid => ?_⟩
      rw [valid] at invalid
      cases invalid
    apply Meets.bind
    have one := replaceable.transfer (Becomes.refl sound) And.left
    have txChecked := checked tx List.mem_cons_self
    refine (meets_connectTransaction env pindex first asserted sound txChecked excused one
      range).weaken fun next middle holds => ?_
    cases state : next.invalid with
    | some invalid =>
      -- the next round of the loop ends it at once
      have stops : connectTransactions env pindex nHeight rest false next = pure next := by
        cases rest with
        | nil => rfl
        | cons _ _ =>
          rw [connectTransactions, state]
          rfl
      rw [stops]
      refine meets_pure ⟨holds.1, fun valid => ?_⟩
      rw [state] at valid
      cases valid
    | none =>
      have advanced := holds.2 state
      have becomes := advanced.becomes
      have laterExcused : OverflowExcused expected middle.shown := by
        rw [becomes.shown]
        exact overflowExcused_updated excused txChecked
      have later := replaceable.transfer becomes fun vacant => becomes.shown ▸ vacant.2
      refine (ih (fun other member => checked other (List.mem_cons_of_mem _ member)) false
        becomes.sound laterExcused later advanced.range).weaken fun final after ends => ?_
      exact ⟨ends.1, fun valid => Completed.cons advanced (ends.2 valid)⟩

/-! ### The whole block -/

theorem checkTransactions_spec (vtx : List CTransaction) :
    ∃ result, checkTransactions vtx = .ok result ∧ (result = none → ∀ tx ∈ vtx, Checked tx) := by
  induction vtx with
  | nil => exact ⟨none, rfl, nofun⟩
  | cons tx rest ih =>
    obtain ⟨verdict, runs, ensures⟩ := checkTransaction_spec tx
    rw [checkTransactions, runs]
    cases verdict with
    | some state => exact ⟨_, rfl, nofun⟩
    | none =>
      obtain ⟨result, laterRuns, later⟩ := ih
      refine ⟨result, laterRuns, fun passed other member => ?_⟩
      rcases List.mem_cons.mp member with rfl | inRest
      · exact ensures rfl
      · exact later passed other inRest

/-- What `CheckBlock` ensures of a block that passes. -/
structure CheckedBlock (block : CBlock) (coinbase : CTransaction) (rest : List CTransaction) :
    Prop where
  vtx : block.vtx = coinbase :: rest
  first : coinbase.isCoinBase = true
  others : ∀ tx ∈ rest, tx.isCoinBase = false
  count : block.vtx.length * WITNESS_SCALE_FACTOR ≤ MAX_BLOCK_WEIGHT
  checked : ∀ tx ∈ block.vtx, Checked tx

variable {block : CBlock}

theorem checkStructure_none (passed : checkStructure block = none) :
    ∃ coinbase rest, block.vtx = coinbase :: rest ∧ coinbase.isCoinBase = true ∧
      (∀ tx ∈ rest, tx.isCoinBase = false) ∧
      block.vtx.length * WITNESS_SCALE_FACTOR ≤ MAX_BLOCK_WEIGHT := by
  unfold checkStructure at passed
  split at passed
  · cases passed
  next sizes =>
  split at passed
  · cases passed
  next first =>
  split at passed
  · cases passed
  next others =>
  cases shape : block.vtx with
  | nil =>
    rw [shape] at sizes
    exact absurd (.inl rfl) sizes
  | cons coinbase rest =>
    rw [shape] at first others sizes
    refine ⟨coinbase, rest, rfl, ?_, ?_, ?_⟩
    · simpa using first
    · simpa using others
    · rw [not_or, not_or] at sizes
      exact Nat.le_of_not_lt sizes.2.1

variable (env : Environment)

theorem checkBlock_cases (block : CBlock) (fCheckPOW fCheckMerkleRoot : Bool) :
    checkBlock env block fCheckPOW fCheckMerkleRoot = .error .assertion ∨
      ∃ result, checkBlock env block fCheckPOW fCheckMerkleRoot = .ok result ∧
        (result = none → ∃ coinbase rest, CheckedBlock block coinbase rest) := by
  unfold checkBlock
  split
  · exact .inl rfl
  · exact .inr ⟨_, rfl, nofun⟩
  split
  · exact .inr ⟨_, rfl, nofun⟩
  split
  · exact .inr ⟨_, rfl, nofun⟩
  cases structured : checkStructure block with
  | some state => exact .inr ⟨_, rfl, nofun⟩
  | none => ?_
  obtain ⟨coinbase, rest, shape, first, others, count⟩ := checkStructure_none structured
  obtain ⟨result, runs, ensures⟩ := checkTransactions_spec block.vtx
  rw [runs]
  cases result with
  | some state => exact .inr ⟨_, rfl, nofun⟩
  | none =>
    refine .inr ⟨checkSigOps env block, rfl, fun _ => ⟨coinbase, rest, ?_⟩⟩
    exact ⟨shape, first, others, count, ensures rfl⟩

theorem getBlockSubsidy_range {params : Params} (initial : moneyRange params.nSubsidyInitial = true)
    (nHeight : Int) : moneyRange (getBlockSubsidy nHeight params) = true := by
  rw [moneyRange_iff] at initial ⊢
  unfold getBlockSubsidy
  dsimp only
  split
  · exact ⟨le_refl _, MAX_MONEY_nonneg⟩
  · rw [Int.shiftRight_eq_div_pow]
    have positive : (0 : Int) <
        ((2 ^ (nHeight.tdiv params.nSubsidyHalvingInterval).toNat : Nat) : Int) := by positivity
    refine ⟨Int.ediv_nonneg initial.1 positive.le, ?_⟩
    exact le_trans (Int.ediv_le_self _ initial.1) initial.2

theorem rewardVerdict_none {env : Environment} {paid blockReward : Int}
    (passed : rewardVerdict env block progress paid blockReward = none) :
    progress.invalid = none ∧ paid ≤ blockReward := by
  unfold rewardVerdict at passed
  split at passed
  next invalid =>
    rw [passed] at invalid
    cases invalid
  next valid =>
    rw [Option.not_isSome_iff_eq_none] at valid
    split at passed
    · cases passed
    next within => exact ⟨valid, not_lt.mp within⟩

private theorem addAmount_cases (left right : Int) :
    addAmount left right = .ok (left + right) ∨ addAmount left right = .error .overflow := by
  unfold addAmount
  split
  · exact .inl rfl
  · exact .inr rfl

theorem meets_checkReward {coinbase : CTransaction}
    (blockChecked : CheckedBlock block coinbase rest) (nHeight : Int)
    (excused : expected .overflow ∨ moneyRange env.params.nSubsidyInitial = true)
    (bounded : FeesBounded progress) (stack : StackedView) :
    Meets (liftM (checkReward env block nHeight progress)) stack expected fun result after =>
      after = stack ∧ (result = none → progress.invalid = none ∧
        valueOut coinbase.vout ≤ progress.nFees + getBlockSubsidy nHeight env.params) := by
  have paid : coinbase.getValueOut = .ok (valueOut coinbase.vout) := by
    apply Checked.getValueOut_eq
    apply blockChecked.checked
    rw [blockChecked.vtx]
    exact List.mem_cons_self
  rcases addAmount_cases progress.nFees (getBlockSubsidy nHeight env.params) with sum | sum
  · have runs : checkReward env block nHeight progress =
        .ok (rewardVerdict env block progress (valueOut coinbase.vout)
          (progress.nFees + getBlockSubsidy nHeight env.params)) := by
      unfold checkReward
      rw [blockChecked.vtx, sum]
      simp only [Bind.bind, Except.bind, paid]
    rw [runs]
    exact ⟨rfl, rewardVerdict_none⟩
  · have halts : checkReward env block nHeight progress = .error .overflow := by
      unfold checkReward
      rw [sum]
      rfl
    rw [halts]
    rcases excused with overflow | initial
    · exact overflow
    · have subsidy := (moneyRange_iff _).mp (getBlockSubsidy_range initial nHeight)
      have low := bounded.1
      rw [addAmount_small (by omega) bounded.2 (by omega) (by omega)] at sum
      cases sum

theorem haveOutputs_spec (sound : stack.Sound) (outputs : List COutPoint) :
    ∃ found after, haveOutputs outputs stack = .ok (found, after) ∧
      Becomes stack stack.shown after := by
  induction outputs generalizing stack with
  | nil => exact ⟨false, stack, rfl, Becomes.refl sound⟩
  | cons outpoint rest ih =>
    obtain ⟨middle, runs, becomes⟩ := haveCoin_spec sound outpoint
    obtain ⟨found, after, later, kept⟩ := ih becomes.sound
    rw [becomes.shown] at kept
    refine ⟨(stack.shown outpoint).isSome || found, after, ?_, becomes.trans kept⟩
    rw [haveOutputs, bind_ok runs]
    exact bind_ok later

structure Accepted (stack : StackedView) (coins : CoinMap) (hashBlock : Uint256)
    (fJustCheck : Bool) (after : StackedView) : Prop where
  sound : after.Sound
  shown : after.shown = coins
  shownBelow : after.shownBelow = stack.shownBelow
  bestBelow : after.bestBelow = stack.bestBelow
  best : after.best =
    if fJustCheck then stack.best else if hashBlock = 0 then stack.bestBelow else hashBlock

theorem meets_acceptBlock {middle : StackedView} (becomes : Becomes stack coins middle)
    (hashBlock : Uint256) (vtxundo : List (List Coin)) (fJustCheck : Bool) :
    Meets (acceptBlock hashBlock vtxundo fJustCheck) middle expected fun result after =>
      result = .connected vtxundo ∧ Accepted stack coins hashBlock fJustCheck after := by
  cases fJustCheck with
  | true =>
    exact meets_pure ⟨rfl, becomes.sound, becomes.shown, becomes.shownBelow, becomes.bestBelow,
      becomes.best⟩
  | false => ?_
  obtain ⟨after, runs, sound, shown, below, bestBelow, best⟩ :=
    setBestBlock_spec becomes.sound hashBlock
  apply Meets.bind
  refine .of_ok runs (meets_pure ⟨rfl, sound, shown.trans becomes.shown,
    below.trans becomes.shownBelow, bestBelow.trans becomes.bestBelow, ?_⟩)
  rw [best, becomes.bestBelow]
  rfl

/-- What a block other than the genesis block has passed when it is connected. -/
structure Connected (env : Environment) (block : CBlock) (nHeight : Int) (coins : CoinMap)
    (vtxundo : List (List Coin)) (coinbase : CTransaction) (rest : List CTransaction) :
    Prop where
  blockChecked : CheckedBlock block coinbase rest
  present : PresentAlong nHeight block.vtx coins
  fees : moneyRange (feesAlong nHeight block.vtx coins) = true
  reward : valueOut coinbase.vout ≤
    feesAlong nHeight block.vtx coins + getBlockSubsidy nHeight env.params
  undo : vtxundo = undoAlong nHeight true block.vtx coins

def ConnectedOn (block : CBlock) (pindex : CBlockIndex)
    (pprev : List CBlockIndex) (fJustCheck : Bool) (stack : StackedView)
    (vtxundo : List (List Coin)) (after : StackedView) : Prop :=
  (pprev.head?.map CBlockIndex.hashBlock).getD 0 = stack.best ∧
    pindex.hashBlock = block.getHash env ∧
    ((block.getHash env = env.params.hashGenesisBlock ∧ vtxundo = [] ∧
        Accepted stack stack.shown pindex.hashBlock fJustCheck after) ∨
      (pprev ≠ [] ∧
        (∃ coinbase rest, Connected env block pindex.nHeight stack.shown vtxundo coinbase rest) ∧
        Accepted stack (coinsAfter pindex.nHeight block.vtx stack.shown) pindex.hashBlock fJustCheck
          after))

section ConnectBlock

variable (env : Environment) (block : CBlock) (pindex : CBlockIndex) (pprev : List CBlockIndex)
  (fJustCheck : Bool) (asserted : expected .assertion) (sound : stack.Sound)
  (excused : OverflowExcused expected stack.shown)
  (subsidyExcused : expected .overflow ∨ moneyRange env.params.nSubsidyInitial = true)
  (replaceable : Replaceable expected stack (VacantAlong pindex.nHeight block.vtx stack.shown))

include asserted sound excused subsidyExcused replaceable

theorem meets_connectBody {coinbase : CTransaction}
    (blockChecked : CheckedBlock block coinbase rest) :
    Meets (connectBody env block pindex pprev fJustCheck) stack expected fun result after =>
      ∀ vtxundo, result = .connected vtxundo →
        Connected env block pindex.nHeight stack.shown vtxundo coinbase rest ∧
          Accepted stack (coinsAfter pindex.nHeight block.vtx stack.shown) pindex.hashBlock
            fJustCheck after := by
  have bip30 : Meets (checkBIP30 env block pindex pprev) stack expected
      fun _ after => Becomes stack stack.shown after := by
    unfold checkBIP30
    split
    · obtain ⟨found, after, runs, becomes⟩ := haveOutputs_spec sound (blockOutputs block.vtx)
      exact .of_ok runs becomes
    · exact meets_pure (Becomes.refl sound)
  apply Meets.bind
  refine bip30.weaken fun overwrites middle becomes => ?_
  apply Meets.bind
  have laterExcused : OverflowExcused expected middle.shown := becomes.shown ▸ excused
  have later := replaceable.transfer becomes fun vacant => becomes.shown ▸ vacant
  have startRange : moneyRange (Progress.nFees
      ⟨0, 0, [], if overwrites = true then some bip30State else none⟩) = true := by
    rfl
  have loop := meets_connectTransactions env (pindex :: pprev) pindex.nHeight asserted block.vtx
    blockChecked.checked true becomes.sound laterExcused later startRange
  refine loop.weaken fun progress final holds => ?_
  apply Meets.bind
  refine (meets_checkReward env blockChecked pindex.nHeight subsidyExcused holds.1 final).weaken
    fun verdict last passed => ?_
  obtain ⟨rfl, ensures⟩ := passed
  cases verdict with
  | some state => exact meets_pure nofun
  | none => ?_
  obtain ⟨valid, reward⟩ := ensures rfl
  obtain ⟨completed, present, fees, range, undo⟩ := holds.2 valid
  rw [becomes.shown] at completed present fees undo
  rw [Int.zero_add] at fees
  refine (meets_acceptBlock (becomes.trans completed) pindex.hashBlock progress.vtxundo
    fJustCheck).weaken fun result after accepted => ?_
  intro vtxundo same
  rw [accepted.1] at same
  cases same
  refine ⟨⟨blockChecked, present, ?_, ?_, ?_⟩, accepted.2⟩
  · rw [← fees]
    exact range
  · rw [fees] at reward
    exact reward
  · rw [undo, List.nil_append]

theorem meets_connectBlock :
    Meets (connectBlock env block (pindex :: pprev) fJustCheck) stack expected
      fun result after => ∀ vtxundo, result = .connected vtxundo →
        ConnectedOn env block pindex pprev fJustCheck stack vtxundo after := by
  rw [connectBlock]
  by_cases hash : pindex.hashBlock = block.getHash env
  swap
  · rw [if_pos hash]
    exact meets_throw asserted
  rw [if_neg (not_not.mpr hash)]
  apply Meets.bind
  rcases checkBlock_cases env block (!fJustCheck) (!fJustCheck) with
    failed | ⟨verdict, runs, ensures⟩
  · rw [failed]
    exact asserted
  rw [runs]
  cases verdict with
  | some state =>
    change Meets (if state.result = .mutated then _ else _) stack expected _
    split
    · exact meets_pure nofun
    · exact meets_pure nofun
  | none =>
    obtain ⟨coinbase, rest, blockChecked⟩ := ensures rfl
    obtain ⟨middle, asked, becomes⟩ := getBestBlock_spec sound
    apply Meets.bind
    refine .of_ok asked ?_
    by_cases onTop : (pprev.head?.map CBlockIndex.hashBlock).getD 0 = stack.best
    swap
    · rw [if_pos onTop]
      exact meets_throw asserted
    rw [if_neg (not_not.mpr onTop)]
    split
    next genesis =>
      refine (meets_acceptBlock becomes pindex.hashBlock [] fJustCheck).weaken
        fun result after accepted vtxundo same => ?_
      rw [accepted.1] at same
      cases same
      exact ⟨onTop, hash, .inl ⟨genesis, rfl, accepted.2⟩⟩
    next notGenesis =>
      split
      · exact meets_throw asserted
      next parent =>
        have laterExcused : OverflowExcused expected middle.shown := becomes.shown ▸ excused
        have later := replaceable.transfer becomes fun vacant => becomes.shown ▸ vacant
        refine (meets_connectBody env block pindex pprev fJustCheck asserted becomes.sound
          laterExcused subsidyExcused later blockChecked).weaken
          fun result after holds vtxundo same => ?_
        obtain ⟨connected, accepted⟩ := holds vtxundo same
        rw [becomes.shown] at connected accepted
        refine ⟨onTop, hash, .inr ⟨?_, ⟨coinbase, rest, connected⟩, ?_⟩⟩
        · rintro rfl
          exact parent rfl
        · refine ⟨accepted.sound, accepted.shown, accepted.shownBelow.trans becomes.shownBelow,
            accepted.bestBelow.trans becomes.bestBelow, ?_⟩
          rw [accepted.best, becomes.best, becomes.bestBelow]

end ConnectBlock

def coinbaseTo (txid : Uint256) (nValue : Int) : CTransaction :=
  { vin := [{ prevout := { hash := 0, n := COutPoint.NULL_INDEX }, scriptSig := [1, 1]
              nSequence := 0xffffffff, scriptWitness := [] }]
    vout := [{ nValue := nValue, scriptPubKey := [0x51] }]
    version := 2
    nLockTime := 0
    hash := txid }

/-- Every header but the genesis block's hashes to one, and no script fails. -/
def permissive : Environment :=
  { params := mainParams
    hasher := fun bytes =>
      if bytes = genesisHeader.serialize then mainParams.hashGenesisBlock else 1
    sha := fun left _ => left
    checkSignetBlockSolution := fun _ => true
    getLegacySigOpCount := fun _ => 0
    getTransactionSigOpCost := fun _ _ _ => 0
    fScriptChecks := fun _ => true
    checkInputScripts := fun _ _ _ => none
    completeChecks := fun _ => none }

end Adonai.Validation
