/-
Checks of single transactions: amounts, inputs and relative lock times.

Sums of amounts are computed as the source does, in 64 signed bits; a sum that
does not fit halts with `overflow`. Checks return the state they fail with, or
nothing when they pass.
-/

import Adonai.Coins.View
import Adonai.Consensus.Params
import Adonai.Primitives.Serialize

namespace Adonai

open Coins Coins.StackedView

def fitsInt64 (value : Int) : Bool := decide (-2 ^ 63 ≤ value) && decide (value < 2 ^ 63)

def addAmount (left right : Int) : Except Halt Int :=
  if fitsInt64 (left + right) then .ok (left + right) else .error .overflow

/-- At least two decimals are kept when trailing zeros are trimmed. -/
def formatMoney (n : Int) : String :=
  let quotient := n.natAbs / COIN.toNat
  let remainder := n.natAbs % COIN.toNat
  let decimals := (List.range 8).map fun digit => Nat.digitChar (remainder / 10 ^ (7 - digit) % 10)
  let trimmed := ((decimals.drop 2).reverse.dropWhile (· == '0')).reverse
  (if n < 0 then "-" else "") ++ toString quotient ++ "." ++
    String.ofList (decimals.take 2 ++ trimmed)

def Uint256.toHex (hash : Uint256) : String :=
  String.ofList ((List.range 64).map fun digit =>
    Nat.digitChar (hash.toNat / 16 ^ (63 - digit) % 16))

def compactSizeLength (size : Nat) : Nat :=
  if size < 253 then 1 else if size ≤ 0xffff then 3 else if size ≤ 0xffffffff then 5 else 9

theorem writeCompactSize_length (size : Nat) :
    (writeCompactSize size).length = compactSizeLength size := by
  unfold writeCompactSize compactSizeLength
  split_ifs <;> simp only [List.length_cons, List.length_nil, littleEndian_length]

namespace CTxIn

def SEQUENCE_FINAL : UInt32 := 0xffffffff

def SEQUENCE_LOCKTIME_DISABLE_FLAG : UInt32 := 0x80000000

def SEQUENCE_LOCKTIME_TYPE_FLAG : UInt32 := 0x00400000

def SEQUENCE_LOCKTIME_MASK : UInt32 := 0x0000ffff

def SEQUENCE_LOCKTIME_GRANULARITY : Nat := 9

def serializeSize (txin : CTxIn) : Nat :=
  36 + compactSizeLength txin.scriptSig.length + txin.scriptSig.length + 4

end CTxIn

def CTxOut.serializeSize (out : CTxOut) : Nat :=
  8 + compactSizeLength out.scriptPubKey.length + out.scriptPubKey.length

namespace CTransaction

/-- `GetSerializeSize(TX_NO_WITNESS(tx))`. -/
def sizeNoWitness (tx : CTransaction) : Nat :=
  4 + compactSizeLength tx.vin.length + (tx.vin.map CTxIn.serializeSize).sum +
    compactSizeLength tx.vout.length + (tx.vout.map CTxOut.serializeSize).sum + 4

def getValueOutLoop : List CTxOut → Int → Except Halt Int
  | [], nValueOut => if moneyRange nValueOut then .ok nValueOut else .error .assertion
  | out :: rest, nValueOut =>
    if moneyRange out.nValue then do
      let sum ← addAmount nValueOut out.nValue
      if moneyRange sum then getValueOutLoop rest sum else .error .valueOutOfRange
    else .error .valueOutOfRange

def getValueOut (tx : CTransaction) : Except Halt Int := getValueOutLoop tx.vout 0

end CTransaction

namespace CBlockIndex

def getAncestor (pindex : List CBlockIndex) (height : Int) : List CBlockIndex :=
  match pindex with
  | [] => []
  | block :: _ =>
    if height > block.nHeight ∨ height < 0 then [] else pindex.drop (block.nHeight - height).toNat

end CBlockIndex

namespace Consensus

def WITNESS_SCALE_FACTOR : Nat := 4

def MAX_BLOCK_WEIGHT : Nat := 4000000

def MAX_BLOCK_SIGOPS_COST : Int := 80000

def COINBASE_MATURITY : Int := 100

inductive TxValidationResult where
  | consensus
  | missingInputs
  | prematureSpend
  deriving DecidableEq, Repr

structure TxValidationState where
  result : TxValidationResult
  rejectReason : String
  debugMessage : String
  deriving DecidableEq, Repr

def checkOutputs : List CTxOut → Int → Except Halt (Option TxValidationState)
  | [], _ => .ok none
  | out :: rest, nValueOut =>
    if out.nValue < 0 then .ok (some ⟨.consensus, "bad-txns-vout-negative", ""⟩)
    else if out.nValue > MAX_MONEY then .ok (some ⟨.consensus, "bad-txns-vout-toolarge", ""⟩)
    else do
      let sum ← addAmount nValueOut out.nValue
      if moneyRange sum then checkOutputs rest sum
      else .ok (some ⟨.consensus, "bad-txns-txouttotal-toolarge", ""⟩)

variable (tx : CTransaction)

def checkInputs : Option TxValidationState :=
  if ¬(tx.vin.map CTxIn.prevout).Nodup then some ⟨.consensus, "bad-txns-inputs-duplicate", ""⟩
  else if tx.isCoinBase then
    match tx.vin with
    | [] => none
    | txin :: _ =>
      if txin.scriptSig.length < 2 ∨ txin.scriptSig.length > 100 then
        some ⟨.consensus, "bad-cb-length", ""⟩
      else none
  else if tx.vin.any fun txin => txin.prevout.isNull then
    some ⟨.consensus, "bad-txns-prevout-null", ""⟩
  else none

def checkTransaction : Except Halt (Option TxValidationState) :=
  if tx.vin.isEmpty then .ok (some ⟨.consensus, "bad-txns-vin-empty", ""⟩)
  else if tx.vout.isEmpty then .ok (some ⟨.consensus, "bad-txns-vout-empty", ""⟩)
  else if tx.sizeNoWitness * WITNESS_SCALE_FACTOR > MAX_BLOCK_WEIGHT then
    .ok (some ⟨.consensus, "bad-txns-oversize", ""⟩)
  else do
    match ← checkOutputs tx.vout 0 with
    | some state => .ok (some state)
    | none => .ok (checkInputs tx)

def haveCoins : List CTxIn → ViewProgram Bool
  | [] => pure true
  | txin :: rest => do
    if ← haveCoin txin.prevout then haveCoins rest else pure false

def haveInputs : ViewProgram Bool := if tx.isCoinBase then pure true else haveCoins tx.vin

def sumInputs (nSpendHeight : Int) : List CTxIn → Int → ViewProgram (Except TxValidationState Int)
  | [], nValueIn => pure (.ok nValueIn)
  | txin :: rest, nValueIn => do
    let coin ← accessCoin txin.prevout
    if coin.isSpent then throw .assertion
    else if coin.fCoinBase ∧ nSpendHeight - coin.nHeight.toNat < COINBASE_MATURITY then
      pure (.error ⟨.prematureSpend, "bad-txns-premature-spend-of-coinbase",
        "tried to spend coinbase at depth " ++ toString (nSpendHeight - coin.nHeight.toNat)⟩)
    else do
      let sum ← addAmount nValueIn coin.out.nValue
      if moneyRange coin.out.nValue && moneyRange sum then sumInputs nSpendHeight rest sum
      else pure (.error ⟨.consensus, "bad-txns-inputvalues-outofrange", ""⟩)

def checkTxInputs (nSpendHeight : Int) : ViewProgram (Except TxValidationState Int) := do
  if !(← haveInputs tx) then
    pure (.error ⟨.missingInputs, "bad-txns-inputs-missingorspent",
      "CheckTxInputs: inputs missing/spent"⟩)
  else
    match ← sumInputs nSpendHeight tx.vin 0 with
    | .error state => pure (.error state)
    | .ok nValueIn => do
      let value_out ← tx.getValueOut
      if nValueIn < value_out then
        pure (.error ⟨.consensus, "bad-txns-in-belowout",
          "value in (" ++ formatMoney nValueIn ++ ") < value out (" ++ formatMoney value_out ++
            ")"⟩)
      else do
        let txfee ← addAmount nValueIn (-value_out)
        if moneyRange txfee then pure (.ok txfee)
        else pure (.error ⟨.consensus, "bad-txns-fee-outofrange", ""⟩)

def LOCKTIME_THRESHOLD : Nat := 500000000

def isFinalTx (nBlockHeight nBlockTime : Int) : Bool :=
  let limit := if tx.nLockTime.toNat < LOCKTIME_THRESHOLD then nBlockHeight else nBlockTime
  tx.nLockTime == 0 || decide (tx.nLockTime.toNat < limit) ||
    tx.vin.all fun txin => txin.nSequence == CTxIn.SEQUENCE_FINAL

def sequenceLock (block : List CBlockIndex) (txin : CTxIn) (nCoinHeight : Int)
    (lock : Int × Int) : Except Halt (Int × Int) :=
  let masked := (txin.nSequence &&& CTxIn.SEQUENCE_LOCKTIME_MASK).toNat
  if txin.nSequence &&& CTxIn.SEQUENCE_LOCKTIME_DISABLE_FLAG ≠ 0 then .ok lock
  else if txin.nSequence &&& CTxIn.SEQUENCE_LOCKTIME_TYPE_FLAG ≠ 0 then
    match CBlockIndex.getAncestor block (max (nCoinHeight - 1) 0) with
    | [] => .error .assertion
    | ancestor =>
      let nCoinTime := CBlockIndex.getMedianTimePast ancestor
      let shifted : Int := masked * 2 ^ CTxIn.SEQUENCE_LOCKTIME_GRANULARITY
      .ok (lock.1, max lock.2 (nCoinTime + shifted - 1))
  else .ok (max lock.1 (nCoinHeight + masked - 1), lock.2)

def sequenceLocksLoop (block : List CBlockIndex) :
    List (CTxIn × Int) → Int × Int → Except Halt (Int × Int)
  | [], lock => .ok lock
  | (txin, nCoinHeight) :: rest, lock => do
    let lock ← sequenceLock block txin nCoinHeight lock
    sequenceLocksLoop block rest lock

def calculateSequenceLocks (verifySequence : Bool) (prevHeights : List Int)
    (block : List CBlockIndex) : Except Halt (Int × Int) :=
  if tx.version ≥ 2 ∧ verifySequence then
    sequenceLocksLoop block (tx.vin.zip prevHeights) (-1, -1)
  else .ok (-1, -1)

def evaluateSequenceLocks (block : List CBlockIndex) (lockPair : Int × Int) : Except Halt Bool :=
  match block with
  | entry :: last :: ancestors =>
    .ok (decide (lockPair.1 < entry.nHeight) &&
      decide (lockPair.2 < CBlockIndex.getMedianTimePast (last :: ancestors)))
  | _ => .error .assertion

def sequenceLocks (verifySequence : Bool) (prevHeights : List Int)
    (block : List CBlockIndex) : Except Halt Bool := do
  let lockPair ← calculateSequenceLocks tx verifySequence prevHeights block
  evaluateSequenceLocks block lockPair

theorem addAmount_small {left right : Int} (leftLow : -2 * MAX_MONEY ≤ left)
    (leftHigh : left ≤ 2 * MAX_MONEY) (rightLow : -2 * MAX_MONEY ≤ right)
    (rightHigh : right ≤ 2 * MAX_MONEY) : addAmount left right = .ok (left + right) := by
  unfold MAX_MONEY COIN at *
  rw [addAmount, if_pos]
  simp only [fitsInt64, Bool.and_eq_true, decide_eq_true_eq]
  omega

theorem MAX_MONEY_nonneg : 0 ≤ MAX_MONEY := by decide

theorem addAmount_range {left right : Int} (leftRange : moneyRange left = true)
    (rightRange : moneyRange right = true) : addAmount left right = .ok (left + right) := by
  rw [moneyRange_iff] at leftRange rightRange
  exact addAmount_small (by omega) (by omega) (by omega) (by omega)

def valueOut (vout : List CTxOut) : Int := (vout.map CTxOut.nValue).sum

theorem valueOut_cons (out : CTxOut) (rest : List CTxOut) :
    valueOut (out :: rest) = out.nValue + valueOut rest := by
  rfl

theorem valueOut_nonneg {vout : List CTxOut} (each : ∀ out ∈ vout, moneyRange out.nValue = true) :
    0 ≤ valueOut vout := by
  induction vout with
  | nil => exact le_refl _
  | cons out rest ih =>
    have first := (moneyRange_iff _).mp (each out List.mem_cons_self)
    have later := ih fun out member => each out (List.mem_cons_of_mem _ member)
    rw [valueOut_cons]
    omega

private theorem checkOutputs_spec (vout : List CTxOut) (nValueOut : Int)
    (range : moneyRange nValueOut = true) : ∃ result, checkOutputs vout nValueOut = .ok result ∧
      (result = none → (∀ out ∈ vout, moneyRange out.nValue = true) ∧
        moneyRange (nValueOut + valueOut vout) = true) := by
  induction vout generalizing nValueOut with
  | nil =>
    refine ⟨none, rfl, fun _ => ⟨nofun, ?_⟩⟩
    rw [valueOut, List.map_nil, List.sum_nil, Int.add_zero]
    exact range
  | cons out rest ih =>
    rw [checkOutputs]
    split
    · exact ⟨_, rfl, nofun⟩
    split_ifs with large
    · exact ⟨_, rfl, nofun⟩
    have outRange : moneyRange out.nValue = true := by
      rw [moneyRange_iff]
      omega
    rw [addAmount_range range outRange]
    change ∃ result, (if moneyRange (nValueOut + out.nValue) = true then
      checkOutputs rest (nValueOut + out.nValue) else _) = _ ∧ _
    split_ifs with within
    · obtain ⟨result, runs, ensures⟩ := ih _ within
      refine ⟨result, runs, fun passed => ⟨?_, ?_⟩⟩
      · exact List.forall_mem_cons.mpr ⟨outRange, (ensures passed).1⟩
      · rw [valueOut_cons, ← Int.add_assoc]
        exact (ensures passed).2
    · exact ⟨_, rfl, nofun⟩

private theorem getValueOutLoop_eq {vout : List CTxOut} {nValueOut : Int}
    (range : moneyRange nValueOut = true) (each : ∀ out ∈ vout, moneyRange out.nValue = true)
    (total : moneyRange (nValueOut + valueOut vout) = true) :
    CTransaction.getValueOutLoop vout nValueOut = .ok (nValueOut + valueOut vout) := by
  induction vout generalizing nValueOut with
  | nil =>
    rw [CTransaction.getValueOutLoop, if_pos range, valueOut, List.map_nil, List.sum_nil,
      Int.add_zero]
  | cons out rest ih =>
    have outRange := each out List.mem_cons_self
    have restEach : ∀ other ∈ rest, moneyRange other.nValue = true :=
      fun other member => each other (List.mem_cons_of_mem _ member)
    rw [valueOut_cons, ← Int.add_assoc] at total ⊢
    have within : moneyRange (nValueOut + out.nValue) = true := by
      have later := valueOut_nonneg restEach
      rw [moneyRange_iff] at range outRange total ⊢
      omega
    rw [CTransaction.getValueOutLoop, if_pos outRange, addAmount_range range outRange]
    change (if moneyRange (nValueOut + out.nValue) = true then _ else _) = _
    rw [if_pos within]
    exact ih within restEach total

structure Checked (tx : CTransaction) : Prop where
  size : tx.sizeNoWitness * WITNESS_SCALE_FACTOR ≤ MAX_BLOCK_WEIGHT
  values : ∀ out ∈ tx.vout, moneyRange out.nValue = true
  total : moneyRange (valueOut tx.vout) = true
  distinct : (tx.vin.map CTxIn.prevout).Nodup

theorem checkTransaction_spec :
    ∃ result, checkTransaction tx = .ok result ∧ (result = none → Checked tx) := by
  unfold checkTransaction
  split
  · exact ⟨_, rfl, nofun⟩
  split
  · exact ⟨_, rfl, nofun⟩
  split_ifs with large
  · exact ⟨_, rfl, nofun⟩
  obtain ⟨result, runs, ensures⟩ := checkOutputs_spec tx.vout 0 (by decide)
  rw [runs]
  cases result with
  | some state => exact ⟨_, rfl, nofun⟩
  | none => ?_
  refine ⟨checkInputs tx, rfl, fun passed => ?_⟩
  obtain ⟨values, total⟩ := ensures rfl
  rw [Int.zero_add] at total
  refine ⟨Nat.le_of_not_lt large, values, total, ?_⟩
  by_contra duplicate
  rw [checkInputs, if_pos duplicate] at passed
  cases passed

theorem Checked.getValueOut_eq {tx : CTransaction} (checked : Checked tx) :
    tx.getValueOut = .ok (valueOut tx.vout) := by
  have zeroRange : moneyRange 0 = true := by decide
  have total : moneyRange (0 + valueOut tx.vout) = true := by
    rw [Int.zero_add]
    exact checked.total
  have sum := getValueOutLoop_eq zeroRange checked.values total
  rw [Int.zero_add] at sum
  exact sum

section Inputs

open Program

variable {expected : Halt → Prop} {stack : StackedView}

def coinValue (coin : Option Coin) : Int := coin.elim 0 fun coin => coin.out.nValue

variable (coins : CoinMap)

def valueIn (vin : List CTxIn) : Int := (vin.map fun txin => coinValue (coins txin.prevout)).sum

theorem valueIn_cons (txin : CTxIn) (rest : List CTxIn) :
    valueIn coins (txin :: rest) = coinValue (coins txin.prevout) + valueIn coins rest := by
  rfl

def Present (vin : List CTxIn) : Prop :=
  ∀ txin ∈ vin, ∃ coin, coins txin.prevout = some coin ∧ moneyRange coin.out.nValue = true

/-- Either an overflow is expected, or no coin could cause one. -/
def OverflowExcused (expected : Halt → Prop) (coins : CoinMap) : Prop :=
  expected .overflow ∨
    ∀ outpoint coin, coins outpoint = some coin → moneyRange coin.out.nValue = true

private theorem haveCoins_spec (sound : stack.Sound) (vin : List CTxIn) :
    ∃ present after, haveCoins vin stack = .ok (present, after) ∧
      Becomes stack stack.shown after := by
  induction vin generalizing stack with
  | nil => exact ⟨true, stack, rfl, Becomes.refl sound⟩
  | cons txin rest ih =>
    obtain ⟨middle, runs, becomes⟩ := haveCoin_spec sound txin.prevout
    have unfolds : haveCoins (txin :: rest) stack =
        if (stack.shown txin.prevout).isSome = true then haveCoins rest middle
        else .ok (false, middle) := by
      rw [haveCoins, bind_ok runs]
      split <;> rfl
    rw [unfolds]
    split
    · obtain ⟨present, after, later, kept⟩ := ih becomes.sound
      rw [becomes.shown] at kept
      exact ⟨present, after, later, becomes.trans kept⟩
    · exact ⟨false, middle, rfl, becomes⟩

theorem meets_accessCoin (sound : stack.Sound) (outpoint : COutPoint)
    {post : Coin → StackedView → Prop} (ensures : ∀ coin after, Becomes stack stack.shown after →
      (stack.shown outpoint = if coin.isSpent then none else some coin) → post coin after) :
    Meets (accessCoin outpoint) stack expected post := by
  obtain ⟨coin, after, runs, becomes, seen⟩ := accessCoin_spec sound outpoint
  exact .of_ok runs (ensures coin after becomes seen)

theorem meets_haveInputs (sound : stack.Sound) (tx : CTransaction) :
    Meets (haveInputs tx) stack expected fun _ after => Becomes stack stack.shown after := by
  unfold haveInputs
  split
  · exact meets_pure (Becomes.refl sound)
  · obtain ⟨present, after, runs, becomes⟩ := haveCoins_spec sound tx.vin
    exact .of_ok runs becomes

end Inputs

end Consensus

namespace Validation

open Consensus

variable {nSpendHeight : Int} {coins : CoinMap} {vin : List CTxIn}

def Mature (maturity nSpendHeight : Int) (coins : CoinMap) (vin : List CTxIn) : Prop :=
  ∀ txin ∈ vin, ∀ coin, coins txin.prevout = some coin → coin.fCoinBase = true →
    maturity ≤ nSpendHeight - coin.nHeight.toNat

theorem Mature.cons {maturity : Int} {txin : CTxIn} {rest : List CTxIn}
    (first : ∀ coin, coins txin.prevout = some coin → coin.fCoinBase = true → maturity ≤
      nSpendHeight - coin.nHeight.toNat) (later : Mature maturity nSpendHeight coins rest) :
    Mature maturity nSpendHeight coins (txin :: rest) :=
  List.forall_mem_cons.mpr ⟨first, later⟩

structure JudgesMaturity (nSpendHeight : Int) (coins : CoinMap) (vin : List CTxIn)
    (verdict : Except TxValidationState Int) : Prop where
  passed : ∀ amount, verdict = .ok amount → Mature COINBASE_MATURITY nSpendHeight coins vin ∧
    ∀ txin ∈ vin, (coins txin.prevout).isSome = true
  premature : ∀ state, verdict = .error state → state.result = .prematureSpend →
    ¬Mature COINBASE_MATURITY nSpendHeight coins vin

theorem JudgesMaturity.of_other {state : TxValidationState}
    (other : state.result ≠ .prematureSpend) :
    JudgesMaturity nSpendHeight coins vin (.error state) where
  passed := nofun
  premature := fun _ same immature => by
    cases same
    exact absurd immature other

end Validation

namespace Consensus

open Program Validation

section Inputs

variable {expected : Halt → Prop} {stack : StackedView}

theorem meets_sumInputs (asserted : expected .assertion) (nSpendHeight : Int) (vin : List CTxIn)
    (nValueIn : Int) (range : moneyRange nValueIn = true) (sound : stack.Sound)
    (excused : OverflowExcused expected stack.shown) :
    Meets (sumInputs nSpendHeight vin nValueIn) stack expected fun result after =>
      Becomes stack stack.shown after ∧ JudgesMaturity nSpendHeight stack.shown vin result ∧
        ∀ sum, result = .ok sum →
          moneyRange sum = true ∧ sum = nValueIn + valueIn stack.shown vin ∧
            Present stack.shown vin := by
  induction vin generalizing nValueIn stack with
  | nil =>
    refine meets_pure ⟨Becomes.refl sound, ⟨fun _ _ => ⟨nofun, nofun⟩, nofun⟩, fun sum same => ?_⟩
    cases same
    refine ⟨range, ?_, nofun⟩
    rw [valueIn, List.map_nil, List.sum_nil, Int.add_zero]
  | cons txin rest ih =>
    apply Meets.bind
    apply meets_accessCoin sound
    intro coin middle becomes seen
    by_cases spent : coin.isSpent = true
    · rw [if_pos spent]
      exact meets_throw asserted
    rw [if_neg spent] at seen ⊢
    split
    next immature =>
      refine meets_pure ⟨becomes, ⟨nofun, fun _ _ _ mature => ?_⟩, nofun⟩
      have deep := mature txin List.mem_cons_self coin seen immature.1
      omega
    next deep =>
    apply Meets.bind
    apply meets_lift
    · intro sum added
      have value : sum = nValueIn + coin.out.nValue := by
        unfold addAmount at added
        split at added
        · exact (Except.ok.inj added).symm
        · cases added
      split
      next within =>
        rw [Bool.and_eq_true] at within
        have later := ih sum within.2 becomes.sound (becomes.shown ▸ excused)
        rw [becomes.shown] at later
        refine later.weaken fun result after holds => ?_
        obtain ⟨kept, judged, ensures⟩ := holds
        refine ⟨becomes.trans kept, ⟨fun amount same => ?_, ?_⟩, fun total same => ?_⟩
        · obtain ⟨mature, present⟩ := judged.passed amount same
          refine ⟨mature.cons fun other shown coinbase => ?_, ?_⟩
          · rw [seen] at shown
            cases shown
            exact Int.not_lt.mp fun shallow => deep ⟨coinbase, shallow⟩
          · exact List.forall_mem_cons.mpr ⟨by rw [seen]; rfl, present⟩
        · intro state same immature mature
          exact judged.premature state same immature fun other member =>
            mature other (List.mem_cons_of_mem txin member)
        obtain ⟨inRange, equals, present⟩ := ensures total same
        refine ⟨inRange, ?_, ?_⟩
        · have first : coinValue (some coin) = coin.out.nValue := rfl
          rw [valueIn_cons, seen]
          omega
        · exact List.forall_mem_cons.mpr ⟨⟨coin, seen, within.1⟩, present⟩
      next outside =>
        exact meets_pure ⟨becomes, .of_other (by decide), nofun⟩
    · intro halt failed
      rcases excused with overflow | bounded
      · unfold addAmount at failed
        split at failed
        · cases failed
        · cases failed
          exact overflow
      · rw [addAmount_range range (bounded _ coin seen)] at failed
        cases failed

theorem meets_checkTxInputs (asserted : expected .assertion) {tx : CTransaction}
    (checked : Checked tx) (nSpendHeight : Int) (sound : stack.Sound)
    (excused : OverflowExcused expected stack.shown) :
    Meets (checkTxInputs tx nSpendHeight) stack expected fun result after =>
      Becomes stack stack.shown after ∧ ∀ fee, result = .ok fee →
        moneyRange fee = true ∧ fee = valueIn stack.shown tx.vin - valueOut tx.vout ∧
          Present stack.shown tx.vin := by
  apply Meets.bind
  refine (meets_haveInputs sound tx).weaken fun present middle becomes => ?_
  split
  · exact meets_pure ⟨becomes, nofun⟩
  apply Meets.bind
  have summed := meets_sumInputs asserted nSpendHeight tx.vin 0 (by decide) becomes.sound
    (becomes.shown ▸ excused)
  rw [becomes.shown] at summed
  refine summed.weaken fun result after holds => ?_
  have kept : Becomes stack stack.shown after := becomes.trans holds.1
  cases result with
  | error state => exact meets_pure ⟨kept, nofun⟩
  | ok sum => ?_
  obtain ⟨range, equals, present⟩ := holds.2.2 sum rfl
  apply Meets.bind
  rw [checked.getValueOut_eq]
  change Meets (if sum < valueOut tx.vout then _ else _) after expected _
  split
  · exact meets_pure ⟨kept, nofun⟩
  next enough =>
    have total := (moneyRange_iff _).mp checked.total
    have bounds := (moneyRange_iff _).mp range
    have feeRange : moneyRange (sum + -valueOut tx.vout) = true := by
      rw [moneyRange_iff]
      omega
    apply Meets.bind
    rw [addAmount_small (by omega) (by omega) (by omega) (by omega)]
    change Meets (if moneyRange (sum + -valueOut tx.vout) = true then _ else _) after expected _
    rw [if_pos feeRange]
    refine meets_pure ⟨kept, fun fee same => ?_⟩
    cases same
    exact ⟨feeRange, by omega, present⟩

end Inputs

end Consensus

end Adonai
