/-
The coin statistics index: totals over the coins, kept while blocks are appended and rewound.

Amounts are elements of a commutative group, for the wrapping sums and the exact ones alike. So are
the numbers of `MuHash3072`, in the source those modulo a prime, among which the hash of a coin,
an arbitrary function here, is never zero.
-/

import Adonai.Validation.Mutation

namespace Adonai.CoinStats

open Consensus (Params)
open Validation (getBlockSubsidy)

/-- What ends a call: `return false`, a failed assertion, or an access out of range. -/
inductive IndexFault where
  | notFound
  | assertion
  | outOfRange
  deriving DecidableEq, Repr

structure MuHash3072 (M : Type) where
  m_numerator : M
  m_denominator : M
  deriving DecidableEq

namespace MuHash3072

variable {M : Type} [CommGroup M]

def insert (number : M) (muhash : MuHash3072 M) : MuHash3072 M :=
  { muhash with m_numerator := muhash.m_numerator * number }

def remove (number : M) (muhash : MuHash3072 M) : MuHash3072 M :=
  { muhash with m_denominator := muhash.m_denominator * number }

/-- The object after `Finalize`, which divides and keeps the quotient. -/
def divided (muhash : MuHash3072 M) : MuHash3072 M := ⟨muhash.m_numerator / muhash.m_denominator, 1⟩

end MuHash3072

@[ext]
structure Totals (A : Type) where
  transaction_output_count : BitVec 64
  bogo_size : BitVec 64
  total_amount : A
  total_subsidy : A
  total_unspendable_amount : A
  total_prevout_spent_amount : A
  total_new_outputs_ex_coinbase_amount : A
  total_coinbase_amount : A
  total_unspendables_genesis_block : A
  total_unspendables_bip30 : A
  total_unspendables_scripts : A
  total_unspendables_unclaimed_rewards : A
  deriving DecidableEq

structure DBVal (A : Type) where
  muhash : Uint256
  totals : Totals A
  deriving DecidableEq

/-- What appending and reversing a block change in memory. -/
structure Tally (A M : Type) where
  m_muhash : MuHash3072 M
  totals : Totals A
  deriving DecidableEq

structure CoinStatsIndex (A M : Type) where
  tally : Tally A M
  heights : Nat → Option (Uint256 × DBVal A)
  hashes : Uint256 → Option (DBVal A)

/-- Block data and undo data are given as pointers. -/
structure BlockInfo where
  hash : Uint256
  prev_hash : Option Uint256
  height : Nat
  data : Option (List CTransaction)
  undo_data : Option (List (List Coin))
  deriving DecidableEq

structure Environment (A M : Type) where
  params : Params
  amount : Int → A
  toNum3072 : List UInt8 → M
  digest : M → Uint256

section Functions

variable {A M : Type} [AddCommGroup A] [CommGroup M] (env : Environment A M)

def CoinStatsIndex.empty : CoinStatsIndex A M where
  tally :=
    { m_muhash := ⟨1, 1⟩
      totals :=
        { transaction_output_count := 0
          bogo_size := 0
          total_amount := 0
          total_subsidy := 0
          total_unspendable_amount := 0
          total_prevout_spent_amount := 0
          total_new_outputs_ex_coinbase_amount := 0
          total_coinbase_amount := 0
          total_unspendables_genesis_block := 0
          total_unspendables_bip30 := 0
          total_unspendables_scripts := 0
          total_unspendables_unclaimed_rewards := 0 } }
  heights := fun _ => none
  hashes := fun _ => none

def isBIP30Unspendable (block_hash : Uint256) (block_height : Nat) : Bool :=
  (block_height == 91722 &&
      block_hash == 0x00000000000271a2dc26e7667f8419f2e15416dc6955e5a6c6cdf3f2574dd08e) ||
    (block_height == 91812 &&
      block_hash == 0x00000000000af0aed4792b1acee3d966af36cf5def14935db8de83d6f9306f2f)

def getBogoSize (script_pub_key : CScript) : BitVec 64 :=
  BitVec.ofNat 64 (32 + 4 + 4 + 8 + 2 + script_pub_key.length)

def txOutSer (outpoint : COutPoint) (coin : Coin) : List UInt8 :=
  littleEndian 32 outpoint.hash.toNat ++ littleEndian 4 outpoint.n.toNat ++
    littleEndian 4 ((coin.nHeight.toNat * 2 + if coin.fCoinBase then 1 else 0) % 2 ^ 32) ++
    coin.out.serialize

def coinNumber (outpoint : COutPoint) (coin : Coin) : M := env.toNum3072 (txOutSer outpoint coin)

def appendOutput (height : Nat) (tx : CTransaction) (j : Nat) (out : CTxOut) (tally : Tally A M) :
    Tally A M :=
  let coin := Coin.ofOutput out height tx.isCoinBase
  let outpoint : COutPoint := ⟨tx.hash, UInt32.ofNat j⟩
  let value := env.amount coin.out.nValue
  let totals := tally.totals
  if coin.out.scriptPubKey.isUnspendable then
    { tally with totals :=
      { totals with
        total_unspendable_amount := totals.total_unspendable_amount + value
        total_unspendables_scripts := totals.total_unspendables_scripts + value } }
  else
    let totals :=
      if tx.isCoinBase then
        { totals with total_coinbase_amount := totals.total_coinbase_amount + value }
      else
        { totals with
          total_new_outputs_ex_coinbase_amount :=
            totals.total_new_outputs_ex_coinbase_amount + value }
    { m_muhash := tally.m_muhash.insert (coinNumber env outpoint coin)
      totals :=
        { totals with
          transaction_output_count := totals.transaction_output_count + 1
          total_amount := totals.total_amount + value
          bogo_size := totals.bogo_size + getBogoSize coin.out.scriptPubKey } }

def appendSpent (outpoint : COutPoint) (coin : Coin) (tally : Tally A M) : Tally A M :=
  let value := env.amount coin.out.nValue
  let totals := tally.totals
  { m_muhash := tally.m_muhash.remove (coinNumber env outpoint coin)
    totals :=
      { totals with
        total_prevout_spent_amount := totals.total_prevout_spent_amount + value
        transaction_output_count := totals.transaction_output_count - 1
        total_amount := totals.total_amount - value
        bogo_size := totals.bogo_size - getBogoSize coin.out.scriptPubKey } }

def reverseOutput (height : Nat) (tx : CTransaction) (j : Nat) (out : CTxOut)
    (tally : Tally A M) : Tally A M :=
  let outpoint : COutPoint := ⟨tx.hash, UInt32.ofNat j⟩
  let coin := Coin.ofOutput out height tx.isCoinBase
  let value := env.amount coin.out.nValue
  let totals := tally.totals
  if coin.out.scriptPubKey.isUnspendable then
    { tally with totals :=
      { totals with
        total_unspendable_amount := totals.total_unspendable_amount - value
        total_unspendables_scripts := totals.total_unspendables_scripts - value } }
  else
    let totals :=
      if tx.isCoinBase then
        { totals with total_coinbase_amount := totals.total_coinbase_amount - value }
      else
        { totals with
          total_new_outputs_ex_coinbase_amount :=
            totals.total_new_outputs_ex_coinbase_amount - value }
    { m_muhash := tally.m_muhash.remove (coinNumber env outpoint coin)
      totals :=
        { totals with
          transaction_output_count := totals.transaction_output_count - 1
          total_amount := totals.total_amount - value
          bogo_size := totals.bogo_size - getBogoSize coin.out.scriptPubKey } }

def reverseSpent (outpoint : COutPoint) (coin : Coin) (tally : Tally A M) : Tally A M :=
  let value := env.amount coin.out.nValue
  let totals := tally.totals
  { m_muhash := tally.m_muhash.insert (coinNumber env outpoint coin)
    totals :=
      { totals with
        total_prevout_spent_amount := totals.total_prevout_spent_amount - value
        transaction_output_count := totals.transaction_output_count + 1
        total_amount := totals.total_amount + value
        bogo_size := totals.bogo_size + getBogoSize coin.out.scriptPubKey } }

def overOutputs (change : Nat → CTxOut → Tally A M → Tally A M) :
    Nat → List CTxOut → Tally A M → Tally A M
  | _, [], tally => tally
  | j, out :: vout, tally => overOutputs change (j + 1) vout (change j out tally)

def overSpent (change : COutPoint → Coin → Tally A M → Tally A M) (vin : List CTxIn) :
    Nat → List Coin → Tally A M → Except IndexFault (Tally A M)
  | _, [], tally => .ok tally
  | j, coin :: vprevout, tally =>
    match vin[j]? with
    | none => .error .outOfRange
    | some txin => overSpent change vin (j + 1) vprevout (change txin.prevout coin tally)

def undoAt (vtxundo : List (List Coin)) (i : Nat) : Except IndexFault (List Coin) :=
  match i with
  | 0 => .error .outOfRange
  | i + 1 =>
    match vtxundo[i]? with
    | none => .error .outOfRange
    | some vprevout => .ok vprevout

variable (block : BlockInfo)

def appendTransaction (block_subsidy : A) (i : Nat) (tx : CTransaction)
    (tally : Tally A M) : Except IndexFault (Tally A M) :=
  if isBIP30Unspendable block.hash block.height && tx.isCoinBase then
    .ok { tally with totals :=
      { tally.totals with
        total_unspendable_amount := tally.totals.total_unspendable_amount + block_subsidy
        total_unspendables_bip30 := tally.totals.total_unspendables_bip30 + block_subsidy } }
  else
    let tally := overOutputs (appendOutput env block.height tx) 0 tx.vout tally
    if tx.isCoinBase then .ok tally
    else
      match block.undo_data with
      | none => .error .assertion
      | some vtxundo => do
        let vprevout ← undoAt vtxundo i
        overSpent (appendSpent env) tx.vin 0 vprevout tally

def reverseTransaction (vtxundo : List (List Coin)) (i : Nat)
    (tx : CTransaction) (tally : Tally A M) : Except IndexFault (Tally A M) :=
  let tally := overOutputs (reverseOutput env block.height tx) 0 tx.vout tally
  if tx.isCoinBase then .ok tally
  else do
    let vprevout ← undoAt vtxundo i
    overSpent (reverseSpent env) tx.vin 0 vprevout tally

def overTransactions
    (change : Nat → CTransaction → Tally A M → Except IndexFault (Tally A M)) :
    Nat → List CTransaction → Tally A M → Except IndexFault (Tally A M)
  | _, [], tally => .ok tally
  | i, tx :: vtx, tally => do
    let tally ← change i tx tally
    overTransactions change (i + 1) vtx tally

/-- The entry of the block before: by height, or by hash if another block has that height. -/
def readPrevious (index : CoinStatsIndex A M) : Except IndexFault (DBVal A) :=
  match index.heights (block.height - 1) with
  | none => .error .notFound
  | some (hash, value) =>
    match block.prev_hash with
    | none => .error .assertion
    | some expected_block_hash =>
      if hash = expected_block_hash then .ok value
      else
        match index.hashes expected_block_hash with
        | none => .error .notFound
        | some value => .ok value

def claimRest (totals : Totals A) : Totals A :=
  let unclaimed_rewards := (totals.total_prevout_spent_amount + totals.total_subsidy) -
    (totals.total_new_outputs_ex_coinbase_amount + totals.total_coinbase_amount +
      totals.total_unspendable_amount)
  { totals with
    total_unspendable_amount := totals.total_unspendable_amount + unclaimed_rewards
    total_unspendables_unclaimed_rewards :=
      totals.total_unspendables_unclaimed_rewards + unclaimed_rewards }

def unclaimRest (totals : Totals A) : Totals A :=
  let unclaimed_rewards := (totals.total_new_outputs_ex_coinbase_amount +
      totals.total_coinbase_amount + totals.total_unspendable_amount) -
    (totals.total_prevout_spent_amount + totals.total_subsidy)
  { totals with
    total_unspendable_amount := totals.total_unspendable_amount - unclaimed_rewards
    total_unspendables_unclaimed_rewards :=
      totals.total_unspendables_unclaimed_rewards - unclaimed_rewards }

def customAppend (index : CoinStatsIndex A M) : Except IndexFault (CoinStatsIndex A M) := do
  let block_subsidy := env.amount (getBlockSubsidy block.height env.params)
  let totals :=
    { index.tally.totals with
      total_subsidy := index.tally.totals.total_subsidy + block_subsidy }
  let tally ←
    if block.height > 0 then do
      let _ ← readPrevious block index
      match block.data with
      | none => .error .assertion
      | some vtx =>
        overTransactions (appendTransaction env block block_subsidy) 0 vtx
          { index.tally with totals := totals }
    else
      .ok { index.tally with totals :=
        { totals with
          total_unspendable_amount := totals.total_unspendable_amount + block_subsidy
          total_unspendables_genesis_block :=
            totals.total_unspendables_genesis_block + block_subsidy } }
  let totals := claimRest tally.totals
  let m_muhash := tally.m_muhash.divided
  let value : DBVal A := ⟨env.digest m_muhash.m_numerator, totals⟩
  pure
    { index with
      tally := ⟨m_muhash, totals⟩
      heights := Function.update index.heights block.height (some (block.hash, value)) }

def copyHeightIndexToHashIndex (height : Nat) (index : CoinStatsIndex A M) :
    Except IndexFault (CoinStatsIndex A M) :=
  match index.heights height with
  | none => .error .notFound
  | some (hash, value) =>
    .ok { index with hashes := Function.update index.hashes hash (some value) }

variable [DecidableEq A]

def reverseBlock (block : BlockInfo) (index : CoinStatsIndex A M) :
    Except IndexFault (CoinStatsIndex A M) := do
  let block_subsidy := env.amount (getBlockSubsidy block.height env.params)
  let totals :=
    { index.tally.totals with
      total_subsidy := index.tally.totals.total_subsidy - block_subsidy }
  -- the entry compared with below is empty for the genesis block
  let read_out ←
    if block.height > 0 then readPrevious block index
    else pure ⟨0, (CoinStatsIndex.empty : CoinStatsIndex A M).tally.totals⟩
  match block.data, block.undo_data with
  | some vtx, some vtxundo => do
    let tally ← overTransactions (reverseTransaction env block vtxundo) 0 vtx
      { index.tally with totals := totals }
    let totals := unclaimRest tally.totals
    let m_muhash := tally.m_muhash.divided
    if read_out = ⟨env.digest m_muhash.m_numerator, totals⟩ then
      pure { index with tally := ⟨m_muhash, totals⟩ }
    else throw .assertion
  | _, _ => throw .assertion

def customRemove (block : BlockInfo) (index : CoinStatsIndex A M) :
    Except IndexFault (CoinStatsIndex A M) := do
  let index ← copyHeightIndexToHashIndex block.height index
  reverseBlock env block index

end Functions

/-- The changes that the transactions of a block make; the amount of all coins changes by
the new outputs and the coinbase less what is spent. -/
@[ext]
structure Delta (A M : Type) where
  count : BitVec 64
  bogo : BitVec 64
  newOutputs : A
  coinbase : A
  spent : A
  scripts : A
  inserted : M
  removed : M

section Changes

variable {A M : Type} [AddCommGroup A] [CommGroup M]

namespace Delta

def none : Delta A M := ⟨0, 0, 0, 0, 0, 0, 1, 1⟩

def join (first second : Delta A M) : Delta A M where
  count := first.count + second.count
  bogo := first.bogo + second.bogo
  newOutputs := first.newOutputs + second.newOutputs
  coinbase := first.coinbase + second.coinbase
  spent := first.spent + second.spent
  scripts := first.scripts + second.scripts
  inserted := first.inserted * second.inserted
  removed := first.removed * second.removed

end Delta

namespace Tally

omit [AddCommGroup A] [CommGroup M] in
@[ext]
theorem ext_fields {first second : Tally A M}
    (numerator : first.m_muhash.m_numerator = second.m_muhash.m_numerator)
    (denominator : first.m_muhash.m_denominator = second.m_muhash.m_denominator)
    (totals : first.totals = second.totals) : first = second := by
  obtain ⟨⟨_, _⟩, _⟩ := first
  obtain ⟨⟨_, _⟩, _⟩ := second
  cases numerator
  cases denominator
  cases totals
  rfl

def forward (delta : Delta A M) (tally : Tally A M) : Tally A M where
  m_muhash :=
    ⟨tally.m_muhash.m_numerator * delta.inserted, tally.m_muhash.m_denominator * delta.removed⟩
  totals :=
    { tally.totals with
      transaction_output_count := tally.totals.transaction_output_count + delta.count
      bogo_size := tally.totals.bogo_size + delta.bogo
      total_amount := tally.totals.total_amount + (delta.newOutputs + delta.coinbase - delta.spent)
      total_unspendable_amount := tally.totals.total_unspendable_amount + delta.scripts
      total_prevout_spent_amount := tally.totals.total_prevout_spent_amount + delta.spent
      total_new_outputs_ex_coinbase_amount :=
        tally.totals.total_new_outputs_ex_coinbase_amount + delta.newOutputs
      total_coinbase_amount := tally.totals.total_coinbase_amount + delta.coinbase
      total_unspendables_scripts := tally.totals.total_unspendables_scripts + delta.scripts }

def backward (delta : Delta A M) (tally : Tally A M) : Tally A M where
  m_muhash :=
    ⟨tally.m_muhash.m_numerator * delta.removed, tally.m_muhash.m_denominator * delta.inserted⟩
  totals :=
    { tally.totals with
      transaction_output_count := tally.totals.transaction_output_count - delta.count
      bogo_size := tally.totals.bogo_size - delta.bogo
      total_amount := tally.totals.total_amount - (delta.newOutputs + delta.coinbase - delta.spent)
      total_unspendable_amount := tally.totals.total_unspendable_amount - delta.scripts
      total_prevout_spent_amount := tally.totals.total_prevout_spent_amount - delta.spent
      total_new_outputs_ex_coinbase_amount :=
        tally.totals.total_new_outputs_ex_coinbase_amount - delta.newOutputs
      total_coinbase_amount := tally.totals.total_coinbase_amount - delta.coinbase
      total_unspendables_scripts := tally.totals.total_unspendables_scripts - delta.scripts }

/-- Deltas are applied one after the other as their join is. -/
structure Acts (act : Delta A M → Tally A M → Tally A M) : Prop where
  none : ∀ tally, act Delta.none tally = tally
  join : ∀ first second tally, act second (act first tally) = act (first.join second) tally

theorem acts_forward : Acts (forward : Delta A M → Tally A M → Tally A M) where
  none tally := by
    ext1
    case totals => ext1 <;> simp [forward, Delta.none]
    all_goals exact mul_one _
  join first second tally := by
    ext1
    case numerator => exact mul_assoc ..
    case denominator => exact mul_assoc ..
    case totals =>
      ext1
      all_goals dsimp only [forward, Delta.join]
      all_goals abel

theorem acts_backward : Acts (backward : Delta A M → Tally A M → Tally A M) where
  none tally := by
    ext1
    case totals => ext1 <;> simp [backward, Delta.none]
    all_goals exact mul_one _
  join first second tally := by
    ext1
    case numerator => exact mul_assoc ..
    case denominator => exact mul_assoc ..
    case totals =>
      ext1
      all_goals dsimp only [backward, Delta.join]
      all_goals abel

end Tally

/-! ### The deltas of outputs, spent coins and transactions -/

variable (env : Environment A M)

def outputDelta (height : Nat) (tx : CTransaction) (j : Nat) (out : CTxOut) : Delta A M :=
  let coin := Coin.ofOutput out height tx.isCoinBase
  let value := env.amount out.nValue
  if out.scriptPubKey.isUnspendable then { Delta.none with scripts := value }
  else
    { Delta.none with
      count := 1
      bogo := getBogoSize out.scriptPubKey
      newOutputs := if tx.isCoinBase then 0 else value
      coinbase := if tx.isCoinBase then value else 0
      inserted := coinNumber env ⟨tx.hash, UInt32.ofNat j⟩ coin }

def spentDelta (outpoint : COutPoint) (coin : Coin) : Delta A M :=
  { Delta.none with
    count := -1
    bogo := -getBogoSize coin.out.scriptPubKey
    spent := env.amount coin.out.nValue
    removed := coinNumber env outpoint coin }

section

variable (height : Nat) (tx : CTransaction) (j : Nat) (out : CTxOut) (tally : Tally A M)

include height tx j out tally

theorem appendOutput_eq :
    appendOutput env height tx j out tally = tally.forward (outputDelta env height tx j out) := by
  unfold appendOutput outputDelta
  by_cases unspendable : out.scriptPubKey.isUnspendable = true
  · simp only [Coin.ofOutput, unspendable]
    ext1
    case totals => ext1 <;> simp [Tally.forward, Delta.none]
    all_goals exact (mul_one _).symm
  cases coinbase : tx.isCoinBase
  all_goals
    simp only [Coin.ofOutput, unspendable]
    ext1
    case numerator => rfl
    case denominator => exact (mul_one _).symm
    case totals => ext1 <;> simp [Tally.forward, Delta.none]

theorem reverseOutput_eq :
    reverseOutput env height tx j out tally = tally.backward (outputDelta env height tx j out) := by
  unfold reverseOutput outputDelta
  by_cases unspendable : out.scriptPubKey.isUnspendable = true
  · simp only [Coin.ofOutput, unspendable]
    ext1
    case totals => ext1 <;> simp [Tally.backward, Delta.none]
    all_goals exact (mul_one _).symm
  cases coinbase : tx.isCoinBase
  all_goals
    simp only [Coin.ofOutput, unspendable]
    ext1
    case numerator => exact (mul_one _).symm
    case denominator => rfl
    case totals => ext1 <;> simp [Tally.backward, Delta.none]

end

theorem appendSpent_eq (outpoint : COutPoint) (coin : Coin) (tally : Tally A M) :
    appendSpent env outpoint coin tally = tally.forward (spentDelta env outpoint coin) := by
  unfold appendSpent spentDelta
  ext1
  case numerator => exact (mul_one _).symm
  case denominator => rfl
  case totals =>
    ext1
    all_goals
      simp only [Tally.forward, Delta.none, add_zero, zero_add, sub_eq_add_neg]

theorem reverseSpent_eq (outpoint : COutPoint) (coin : Coin) (tally : Tally A M) :
    reverseSpent env outpoint coin tally = tally.backward (spentDelta env outpoint coin) := by
  unfold reverseSpent spentDelta
  ext1
  case numerator => rfl
  case denominator => exact (mul_one _).symm
  case totals =>
    ext1
    all_goals
      simp only [Tally.backward, Delta.none, add_zero, zero_sub, sub_zero, sub_neg_eq_add]

def outputsDelta (height : Nat) (tx : CTransaction) : Nat → List CTxOut → Delta A M
  | _, [] => Delta.none
  | j, out :: vout => (outputDelta env height tx j out).join (outputsDelta height tx (j + 1) vout)

def spentsDelta (vin : List CTxIn) : Nat → List Coin → Delta A M
  | _, [] => Delta.none
  | j, coin :: vprevout =>
    match vin[j]? with
    | none => Delta.none
    | some txin => (spentDelta env txin.prevout coin).join (spentsDelta vin (j + 1) vprevout)

section Loops

variable {env} {act : Delta A M → Tally A M → Tally A M} (acts : Tally.Acts act)
include acts

theorem overOutputs_eq {height : Nat} {tx : CTransaction}
    {change : Nat → CTxOut → Tally A M → Tally A M}
    (each : ∀ j out tally, change j out tally = act (outputDelta env height tx j out) tally)
    (j : Nat)
    (vout : List CTxOut) (tally : Tally A M) :
    overOutputs change j vout tally = act (outputsDelta env height tx j vout) tally := by
  induction vout generalizing j tally with
  | nil => exact (acts.none tally).symm
  | cons out vout ih =>
    rw [overOutputs, each, ih, acts.join]
    rfl

theorem overSpent_eq {change : COutPoint → Coin → Tally A M → Tally A M}
    (each : ∀ outpoint coin tally, change outpoint coin tally =
      act (spentDelta env outpoint coin) tally)
    {vin : List CTxIn} (j : Nat) (vprevout : List Coin) (enough : j + vprevout.length ≤ vin.length)
    (tally : Tally A M) :
    overSpent change vin j vprevout tally = .ok (act (spentsDelta env vin j vprevout) tally) := by
  induction vprevout generalizing j tally with
  | nil => rw [overSpent, spentsDelta, acts.none]
  | cons coin vprevout ih =>
    rw [List.length_cons] at enough
    have inside : j < vin.length := by omega
    rw [overSpent, spentsDelta, List.getElem?_eq_getElem inside]
    dsimp only
    rw [each, ih (j + 1) (by omega), acts.join]

end Loops

def HasUndo (vtxundo : List (List Coin)) (i : Nat) (tx : CTransaction) : Prop :=
  tx.isCoinBase = true ∨
    ∃ vprevout, undoAt vtxundo i = .ok vprevout ∧ vprevout.length ≤ tx.vin.length

def transactionDelta (height : Nat) (vtxundo : List (List Coin)) (i : Nat) (tx : CTransaction) :
    Delta A M :=
  (outputsDelta env height tx 0 tx.vout).join
    (if tx.isCoinBase then Delta.none
    else
      match undoAt vtxundo i with
      | .error _ => Delta.none
      | .ok vprevout => spentsDelta env tx.vin 0 vprevout)

def transactionsDelta (height : Nat) (vtxundo : List (List Coin)) :
    Nat → List CTransaction → Delta A M
  | _, [] => Delta.none
  | i, tx :: vtx =>
    (transactionDelta env height vtxundo i tx).join (transactionsDelta height vtxundo (i + 1) vtx)

variable {env} {block : BlockInfo} {vtxundo : List (List Coin)}

/-- The first transaction, and no other, is a coinbase, and there is undo data for the inputs
of each of the others. -/
def ValidBody (vtx : List CTransaction) (vtxundo : List (List Coin)) : Prop :=
  ∃ coinbase rest, vtx = coinbase :: rest ∧ coinbase.isCoinBase = true ∧
    List.Forall₂ (fun tx vprevout => tx.isCoinBase = false ∧ vprevout.length = tx.vin.length)
      rest vtxundo

variable {vtx : List CTransaction}

theorem ValidBody.hasUndo (valid : ValidBody vtx vtxundo) {k : Nat}
    {tx : CTransaction} (found : vtx[k]? = some tx) : HasUndo vtxundo k tx := by
  obtain ⟨coinbase, rest, rfl, isCoinbase, undone⟩ := valid
  cases k with
  | zero =>
    cases found
    exact .inl isCoinbase
  | succ k => ?_
  rw [List.getElem?_cons_succ] at found
  obtain ⟨inside, isTx⟩ := List.getElem?_eq_some_iff.mp found
  have insideUndo : k < vtxundo.length := undone.length_eq ▸ inside
  obtain ⟨_, length⟩ := List.forall₂_iff_get.mp undone |>.2 k inside insideUndo
  refine .inr ⟨vtxundo[k], ?_, ?_⟩
  · rw [undoAt, List.getElem?_eq_getElem insideUndo]
  · rw [← isTx]
    exact length.le

def blockDelta (env : Environment A M) (block : BlockInfo) : Delta A M :=
  transactionsDelta env block.height (block.undo_data.getD []) 0 (block.data.getD [])

section Loops

variable {act : Delta A M → Tally A M → Tally A M} (acts : Tally.Acts act)
include acts

theorem spending_eq {change : COutPoint → Coin → Tally A M → Tally A M}
    (each : ∀ outpoint coin tally, change outpoint coin tally =
      act (spentDelta env outpoint coin) tally)
    {i : Nat} {tx : CTransaction} (hasUndo : HasUndo vtxundo i tx) (height : Nat)
    (tally : Tally A M) :
    (if tx.isCoinBase = true then .ok (act (outputsDelta env height tx 0 tx.vout) tally)
      else undoAt vtxundo i >>= fun vprevout => overSpent change tx.vin 0 vprevout
        (act (outputsDelta env height tx 0 tx.vout) tally)) =
      .ok (act (transactionDelta env height vtxundo i tx) tally) := by
  rw [transactionDelta, ← acts.join]
  cases coinbase : tx.isCoinBase with
  | true => rw [if_pos rfl, if_pos rfl, acts.none]
  | false =>
    obtain ⟨vprevout, found, enough⟩ := hasUndo.resolve_left (by rw [coinbase]; decide)
    rw [if_neg Bool.false_ne_true, if_neg Bool.false_ne_true]
    simp only [found, Program.ok_bind]
    rw [overSpent_eq acts each 0 vprevout (by omega)]

theorem overTransactions_eq
    {change : Nat → CTransaction → Tally A M → Except IndexFault (Tally A M)} {height : Nat}
    (each : ∀ i tx tally, HasUndo vtxundo i tx →
      change i tx tally = .ok (act (transactionDelta env height vtxundo i tx) tally)) (i : Nat)
    (vtx : List CTransaction)
    (hasUndo : ∀ k tx, vtx[k]? = some tx → HasUndo vtxundo (i + k) tx) (tally : Tally A M) :
    overTransactions change i vtx tally =
      .ok (act (transactionsDelta env height vtxundo i vtx) tally) := by
  induction vtx generalizing i tally with
  | nil => rw [overTransactions, transactionsDelta, acts.none]
  | cons tx vtx ih =>
    have rest : ∀ k later, vtx[k]? = some later → HasUndo vtxundo (i + 1 + k) later := by
      intro k later found
      rw [Nat.add_assoc, Nat.add_comm 1]
      exact hasUndo (k + 1) later found
    rw [overTransactions, each i tx tally (hasUndo 0 tx rfl), Program.ok_bind, ih (i + 1) rest,
      acts.join]
    rfl

theorem overBlock_eq {change : Nat → CTransaction → Tally A M → Except IndexFault (Tally A M)}
    (each : ∀ i tx tally, HasUndo vtxundo i tx →
      change i tx tally = .ok (act (transactionDelta env block.height vtxundo i tx) tally))
    (isData : block.data = some vtx) (isUndo : block.undo_data = some vtxundo)
    (valid : ValidBody vtx vtxundo) (tally : Tally A M) :
    overTransactions change 0 vtx tally = .ok (act (blockDelta env block) tally) := by
  have isDelta : blockDelta env block = transactionsDelta env block.height vtxundo 0 vtx := by
    rw [blockDelta, isData, isUndo]
    rfl
  rw [isDelta]
  apply overTransactions_eq acts each
  intro k tx found
  rw [Nat.zero_add]
  exact valid.hasUndo found

end Loops

section

variable (isData : block.data = some vtx) (isUndo : block.undo_data = some vtxundo)
  (valid : ValidBody vtx vtxundo) (tally : Tally A M)

include isData isUndo valid

private theorem appendTransactions_eq {block_subsidy : A}
    (regular : isBIP30Unspendable block.hash block.height = false) :
    overTransactions (appendTransaction env block block_subsidy) 0 vtx tally =
      .ok (tally.forward (blockDelta env block)) := by
  apply overBlock_eq Tally.acts_forward _ isData isUndo valid
  intro i tx tally hasUndo
  unfold appendTransaction
  rw [regular, overOutputs_eq Tally.acts_forward (appendOutput_eq env block.height tx), isUndo]
  exact spending_eq Tally.acts_forward (appendSpent_eq env) hasUndo block.height tally

private theorem reverseTransactions_eq :
    overTransactions (reverseTransaction env block vtxundo) 0 vtx tally =
      .ok (tally.backward (blockDelta env block)) := by
  apply overBlock_eq Tally.acts_backward _ isData isUndo valid
  intro i tx tally hasUndo
  unfold reverseTransaction
  rw [overOutputs_eq Tally.acts_backward (reverseOutput_eq env block.height tx)]
  exact spending_eq Tally.acts_backward (reverseSpent_eq env) hasUndo block.height tally

end

/-- What was ever created is spent, unspent or lost: subsidy and spent coins went into new
outputs, the coinbase or unspendable amounts, and the amount of all coins is what is left of
the subsidy. -/
structure Balanced (totals : Totals A) : Prop where
  spent : totals.total_subsidy + totals.total_prevout_spent_amount =
    totals.total_new_outputs_ex_coinbase_amount + totals.total_coinbase_amount +
      totals.total_unspendable_amount
  amount : totals.total_amount = totals.total_subsidy - totals.total_unspendable_amount

def subsidyOf (env : Environment A M) (block : BlockInfo) : A :=
  env.amount (getBlockSubsidy block.height env.params)

variable (subsidy : A)

def addSubsidy (totals : Totals A) : Totals A :=
  { totals with total_subsidy := totals.total_subsidy + subsidy }

def settle (close : Totals A → Totals A) (tally : Tally A M) : Tally A M :=
  ⟨tally.m_muhash.divided, close tally.totals⟩

def appendDelta (delta : Delta A M) (tally : Tally A M) : Tally A M :=
  settle claimRest
    (Tally.forward delta { tally with totals := addSubsidy subsidy tally.totals })

def reverseDelta (delta : Delta A M) (tally : Tally A M) : Tally A M :=
  settle unclaimRest
    (Tally.backward delta { tally with totals := addSubsidy (-subsidy) tally.totals })

private theorem Balanced.subsidy_eq {totals : Totals A} (balanced : Balanced totals) :
    totals.total_subsidy = totals.total_new_outputs_ex_coinbase_amount +
      totals.total_coinbase_amount + totals.total_unspendable_amount -
        totals.total_prevout_spent_amount :=
  eq_sub_of_add_eq balanced.spent

theorem appendDelta_balanced {tally : Tally A M} (balanced : Balanced tally.totals) (subsidy : A)
    (delta : Delta A M) : Balanced (appendDelta subsidy delta tally).totals := by
  have isSubsidy := balanced.subsidy_eq
  have isAmount := balanced.amount
  constructor
  case spent =>
    dsimp only [appendDelta, settle, claimRest, Tally.forward, addSubsidy]
    abel
  case amount =>
    dsimp only [appendDelta, settle, claimRest, Tally.forward, addSubsidy]
    rw [isAmount, isSubsidy]
    abel

theorem reverseDelta_appendDelta {tally : Tally A M} (balanced : Balanced tally.totals)
    (divided : tally.m_muhash.m_denominator = 1) (subsidy : A) (delta : Delta A M) :
    reverseDelta subsidy delta (appendDelta subsidy delta tally) = tally := by
  have isSubsidy := balanced.subsidy_eq
  ext1
  case numerator =>
    change tally.m_muhash.m_numerator * delta.inserted /
      (tally.m_muhash.m_denominator * delta.removed) * delta.removed / (1 * delta.inserted) = _
    rw [divided, one_mul, one_mul, div_mul_cancel, mul_div_cancel_right]
  case denominator => exact divided.symm
  case totals =>
    ext1
    all_goals
      dsimp only [reverseDelta, appendDelta, settle, claimRest, unclaimRest, Tally.forward,
        Tally.backward, addSubsidy]
    case total_unspendable_amount =>
      rw [isSubsidy]
      abel
    case total_unspendables_unclaimed_rewards =>
      rw [isSubsidy]
      abel
    all_goals abel

/-! ### Chains -/

/-- A block that can be appended to a chain, which is listed from its tip; of the genesis block
nothing is asked. -/
def LegalAppend (chain : List BlockInfo) (block : BlockInfo) : Prop :=
  block.height = chain.length ∧
    ∀ tip ∈ chain.head?, block.prev_hash = some tip.hash ∧
      isBIP30Unspendable block.hash block.height = false ∧
      ∃ vtx vtxundo, block.data = some vtx ∧ block.undo_data = some vtxundo ∧ ValidBody vtx vtxundo

def genesisTally (env : Environment A M) (block : BlockInfo) (tally : Tally A M) : Tally A M :=
  let totals := addSubsidy (subsidyOf env block) tally.totals
  settle claimRest
    { tally with totals :=
      { totals with
        total_unspendable_amount := totals.total_unspendable_amount + subsidyOf env block
        total_unspendables_genesis_block :=
          totals.total_unspendables_genesis_block + subsidyOf env block } }

def tallyOf (env : Environment A M) : List BlockInfo → Tally A M
  | [] => (CoinStatsIndex.empty : CoinStatsIndex A M).tally
  | [genesis] => genesisTally env genesis (CoinStatsIndex.empty : CoinStatsIndex A M).tally
  | block :: tip :: chain =>
    appendDelta (subsidyOf env block) (blockDelta env block) (tallyOf env (tip :: chain))

def valueOf (env : Environment A M) (tally : Tally A M) : DBVal A :=
  ⟨env.digest tally.m_muhash.m_numerator, tally.totals⟩

def Recorded (env : Environment A M) (heights : Nat → Option (Uint256 × DBVal A)) :
    List BlockInfo → Prop
  | [] => True
  | block :: chain =>
    heights chain.length = some (block.hash, valueOf env (tallyOf env (block :: chain))) ∧
      Recorded env heights chain

structure Indexed (env : Environment A M) (chain : List BlockInfo) (index : CoinStatsIndex A M) :
    Prop where
  tally : index.tally = tallyOf env chain
  recorded : Recorded env index.heights chain

theorem tallyOf_balanced (env : Environment A M) (chain : List BlockInfo) :
    Balanced (tallyOf env chain).totals := by
  induction chain with
  | nil =>
    constructor
    · simp [tallyOf, CoinStatsIndex.empty]
    · simp [tallyOf, CoinStatsIndex.empty]
  | cons block chain ih =>
    cases chain with
    | nil =>
      constructor
      · simp [tallyOf, genesisTally, settle, claimRest, addSubsidy, CoinStatsIndex.empty]
      · simp [tallyOf, genesisTally, settle, claimRest, addSubsidy, CoinStatsIndex.empty]
    | cons tip chain => exact appendDelta_balanced ih _ _

theorem Recorded.update {heights : Nat → Option (Uint256 × DBVal A)} {chain : List BlockInfo}
    (recorded : Recorded env heights chain) {height : Nat} (above : chain.length ≤ height)
    (entry : Option (Uint256 × DBVal A)) :
    Recorded env (Function.update heights height entry) chain := by
  induction chain with
  | nil => trivial
  | cons block chain ih =>
    rw [List.length_cons] at above
    refine ⟨?_, ih recorded.2 (by omega)⟩
    rw [Function.update_of_ne (by omega)]
    exact recorded.1

theorem readPrevious_eq {tip : BlockInfo} {chain : List BlockInfo} {index : CoinStatsIndex A M}
    (recorded : Recorded env index.heights (tip :: chain))
    (legal : LegalAppend (tip :: chain) block) :
    readPrevious block index = .ok (valueOf env (tallyOf env (tip :: chain))) := by
  obtain ⟨isHeight, rest⟩ := legal
  obtain ⟨isPrevious, _⟩ := rest tip rfl
  have below : block.height - 1 = chain.length := by
    rw [isHeight, List.length_cons, Nat.add_sub_cancel]
  rw [readPrevious, below, recorded.1, isPrevious]
  dsimp only
  rw [if_pos rfl]

theorem customAppend_eq {chain : List BlockInfo} {index : CoinStatsIndex A M}
    (indexed : Indexed env chain index) (legal : LegalAppend chain block) :
    ∃ next, customAppend env block index = .ok next ∧ Indexed env (block :: chain) next := by
  have isHeight := legal.1
  cases chain with
  | nil =>
    have isGenesis : ¬block.height > 0 := by
      rw [isHeight]
      decide
    refine ⟨_, by rw [customAppend, if_neg isGenesis]; rfl, ?_, ?_, trivial⟩
    · rw [indexed.tally]
      rfl
    · rw [indexed.tally]
      change _ = some (block.hash, valueOf env (genesisTally env block (tallyOf env [])))
      rw [genesisTally, subsidyOf, isHeight]
      rfl
  | cons tip chain =>
    have above : block.height > 0 := by
      rw [isHeight]
      exact Nat.succ_pos _
    obtain ⟨_, regular, vtx, vtxundo, isData, isUndo, valid⟩ := legal.2 tip rfl
    have appends : customAppend env block index = .ok
        { index with
          tally := tallyOf env (block :: tip :: chain)
          heights := Function.update index.heights block.height
            (some (block.hash, valueOf env (tallyOf env (block :: tip :: chain)))) } := by
      rw [customAppend, if_pos above, readPrevious_eq indexed.recorded legal, isData]
      change Except.bind (overTransactions (appendTransaction env block (subsidyOf env block)) 0
        vtx { index.tally with
          totals := addSubsidy (subsidyOf env block) index.tally.totals }) _ = _
      rw [appendTransactions_eq isData isUndo valid _ regular, tallyOf, ← indexed.tally]
      rfl
    refine ⟨_, appends, rfl, ?_, ?_⟩
    · rw [isHeight]
      exact Function.update_self ..
    · exact indexed.recorded.update isHeight.ge _

variable [DecidableEq A]

theorem customRemove_eq {tip : BlockInfo} {chain : List BlockInfo} {index : CoinStatsIndex A M}
    (indexed : Indexed env (block :: tip :: chain) index)
    (legal : LegalAppend (tip :: chain) block) :
    ∃ next, customRemove env block index = .ok next ∧ Indexed env (tip :: chain) next := by
  have isHeight := legal.1
  have above : block.height > 0 := by
    rw [isHeight]
    exact Nat.succ_pos _
  obtain ⟨_, _, vtx, vtxundo, isData, isUndo, valid⟩ := legal.2 tip rfl
  have entry : index.heights block.height =
      some (block.hash, valueOf env (tallyOf env (block :: tip :: chain))) := by
    rw [isHeight]
    exact indexed.recorded.1
  set copied : CoinStatsIndex A M :=
    { index with
      hashes := Function.update index.hashes block.hash
        (some (valueOf env (tallyOf env (block :: tip :: chain)))) } with isCopied
  have copies : copyHeightIndexToHashIndex block.height index = .ok copied := by
    rw [copyHeightIndexToHashIndex, entry]
  have restores : reverseDelta (subsidyOf env block) (blockDelta env block) index.tally =
      tallyOf env (tip :: chain) := by
    rw [indexed.tally]
    exact reverseDelta_appendDelta (tallyOf_balanced env _) (by cases chain <;> rfl) _ _
  have reverses : reverseBlock env block copied =
      .ok { copied with tally := tallyOf env (tip :: chain) } := by
    have reads := @readPrevious_eq A M _ _ env block tip chain copied indexed.recorded.2 legal
    have subtracts : ({ copied.tally.totals with
        total_subsidy := copied.tally.totals.total_subsidy - subsidyOf env block } : Totals A) =
        addSubsidy (-subsidyOf env block) index.tally.totals := by
      rw [addSubsidy, ← sub_eq_add_neg]
    rw [reverseBlock, if_pos above, reads, isData, isUndo]
    change Except.bind (overTransactions (reverseTransaction env block vtxundo) 0 vtx
      { copied.tally with totals := { copied.tally.totals with
        total_subsidy := copied.tally.totals.total_subsidy - subsidyOf env block } }) _ = _
    rw [subtracts, reverseTransactions_eq isData isUndo valid]
    change (if valueOf env (tallyOf env (tip :: chain)) =
        valueOf env (reverseDelta (subsidyOf env block) (blockDelta env block) index.tally) then
      Except.ok { copied with
        tally := reverseDelta (subsidyOf env block) (blockDelta env block) index.tally }
      else _) = _
    rw [restores, if_pos rfl]
  refine ⟨{ copied with tally := tallyOf env (tip :: chain) }, ?_, rfl, indexed.recorded.2⟩
  rw [customRemove, copies, Program.ok_bind, reverses]

end Changes

/-! ### Runs -/

/-- What reorganisations do: a block is put on the chain, or the tip is taken off. -/
inductive Step where
  | append (block : BlockInfo)
  | rewind

def chainAfter (chain : List BlockInfo) : Step → List BlockInfo
  | .append block => block :: chain
  | .rewind => chain.tail

/-- The genesis block is never taken off. -/
def LegalStep (chain : List BlockInfo) : Step → Prop
  | .append block => LegalAppend chain block
  | .rewind => 2 ≤ chain.length

def LegalChain : List BlockInfo → Prop
  | [] => True
  | block :: chain => LegalAppend chain block ∧ LegalChain chain

/-- The legal steps in which chain and index start empty. -/
def LegalRun (steps : List Step) : Prop := Run.Along chainAfter LegalStep [] steps

def chainOf (steps : List Step) : List BlockInfo := Run.run chainAfter [] steps

section Runs

variable {A M : Type} [AddCommGroup A] [CommGroup M] [DecidableEq A] (env : Environment A M)

def perform (state : List BlockInfo × CoinStatsIndex A M) (step : Step) :
    Except IndexFault (List BlockInfo × CoinStatsIndex A M) :=
  match step, state with
  | .append block, (chain, index) => do
    let index ← customAppend env block index
    pure (block :: chain, index)
  | .rewind, ([], _) => throw .notFound
  | .rewind, (block :: chain, index) => do
    let index ← customRemove env block index
    pure (chain, index)

def performAll (state : List BlockInfo × CoinStatsIndex A M) :
    List Step → Except IndexFault (List BlockInfo × CoinStatsIndex A M)
  | [] => pure state
  | step :: steps => do
    let state ← perform env state step
    performAll state steps

variable {env}

section

variable {chain : List BlockInfo} {index : CoinStatsIndex A M} (indexed : Indexed env chain index)

include indexed

theorem perform_eq {step : Step} (grown : LegalChain chain) (legal : LegalStep chain step) :
    ∃ next, perform env (chain, index) step = .ok (chainAfter chain step, next) ∧
      Indexed env (chainAfter chain step) next ∧ LegalChain (chainAfter chain step) := by
  cases step with
  | append block =>
    obtain ⟨next, appends, isNext⟩ := customAppend_eq indexed legal
    refine ⟨next, ?_, isNext, legal, grown⟩
    rw [perform, appends]
    rfl
  | rewind =>
    match chain, legal with
    | block :: tip :: chain, _ =>
      obtain ⟨next, removes, isNext⟩ := customRemove_eq indexed grown.1
      refine ⟨next, ?_, isNext, grown.2⟩
      rw [perform, removes]
      rfl

theorem performAll_eq {steps : List Step} (grown : LegalChain chain)
    (legal : Run.Along chainAfter LegalStep chain steps) :
    ∃ final, performAll env (chain, index) steps = .ok (Run.run chainAfter chain steps, final) ∧
      Indexed env (Run.run chainAfter chain steps) final := by
  induction steps generalizing chain index with
  | nil => exact ⟨index, rfl, indexed⟩
  | cons step steps ih =>
    obtain ⟨next, performs, isNext, stillGrown⟩ := perform_eq indexed grown legal.1
    obtain ⟨final, rest, isFinal⟩ := ih isNext stillGrown legal.2
    refine ⟨final, ?_, isFinal⟩
    rw [performAll, performs, Program.ok_bind, rest]
    rfl

end

omit [DecidableEq A] in
theorem indexed_empty : Indexed env [] (CoinStatsIndex.empty : CoinStatsIndex A M) := ⟨rfl, trivial⟩

end Runs

def wrapping {M : Type} (params : Params) (toNum3072 : List UInt8 → M) (digest : M → Uint256) :
    Environment (BitVec 64) M where
  params := params
  amount := BitVec.ofInt 64
  toNum3072 := toNum3072
  digest := digest

/-- However blocks are appended and rewound, no step fails, the totals balance, and they are,
with the hash, those of any earlier time at which the chain was the same. -/
theorem performAll_restores {M : Type} [CommGroup M] (params : Params) (toNum3072 : List UInt8 → M)
    (digest : M → Uint256) (steps : List Step) (legal : LegalRun steps) :
    ∃ index, performAll (wrapping params toNum3072 digest) ([], .empty) steps =
        .ok (chainOf steps, index) ∧
      Balanced index.tally.totals ∧
      ∀ earlier, LegalRun earlier → chainOf earlier = chainOf steps →
        ∃ before, performAll (wrapping params toNum3072 digest) ([], .empty) earlier =
            .ok (chainOf steps, before) ∧
          index.tally = before.tally := by
  have initially : Indexed (wrapping params toNum3072 digest) [] .empty := indexed_empty
  obtain ⟨index, performs, indexed⟩ := performAll_eq initially trivial legal
  refine ⟨index, performs, ?_, ?_⟩
  · rw [indexed.tally]
    exact tallyOf_balanced _ _
  · intro earlier legalEarlier same
    obtain ⟨before, performsEarlier, indexedEarlier⟩ := performAll_eq initially trivial legalEarlier
    refine ⟨before, ?_, ?_⟩
    · rw [← same]
      exact performsEarlier
    · have isBefore : before.tally = tallyOf _ (chainOf earlier) := indexedEarlier.tally
      rw [isBefore, same]
      exact indexed.tally

def genesisInfo : BlockInfo := ⟨7, none, 0, none, none⟩

def coinbaseTransaction : CTransaction where
  vin := [⟨⟨0, COutPoint.NULL_INDEX⟩, [], 0, []⟩]
  vout := [⟨50, [0x51]⟩]
  version := 1
  nLockTime := 0
  hash := 11

def spendingTransaction : CTransaction where
  vin := [⟨⟨3, 0⟩, [], 0, []⟩]
  vout := [⟨20, [0x51]⟩, ⟨5, [CScript.OP_RETURN]⟩]
  version := 1
  nLockTime := 0
  hash := 12

def spendingInfo : BlockInfo :=
  ⟨8, some 7, 1, some [coinbaseTransaction, spendingTransaction], some [[⟨⟨30, [0x51]⟩, false, 0⟩]]⟩

/-- A block that spends a coin goes on and off the genesis block. -/
theorem performAll_restores_spending : LegalRun [.append genesisInfo] ∧
      ∃ index before : CoinStatsIndex (BitVec 64) (Multiplicative ℤ),
        performAll (wrapping Consensus.mainParams (fun bytes => .ofAdd bytes.length) fun _ => 0)
            ([], .empty) [.append genesisInfo, .append spendingInfo, .rewind] =
          .ok ([genesisInfo], index) ∧
        performAll (wrapping Consensus.mainParams (fun bytes => .ofAdd bytes.length) fun _ => 0)
            ([], .empty) [.append genesisInfo] =
          .ok ([genesisInfo], before) ∧
        index.tally = before.tally := by
  have first : LegalAppend [] genesisInfo := ⟨rfl, by simp⟩
  have second : LegalAppend [genesisInfo] spendingInfo := by
    refine ⟨rfl, ?_⟩
    intro tip isTip
    cases isTip
    exact ⟨rfl, rfl, _, _, rfl, rfl, coinbaseTransaction, [spendingTransaction], rfl, rfl,
      .cons ⟨rfl, rfl⟩ .nil⟩
  have short : LegalRun [.append genesisInfo] := ⟨first, trivial⟩
  have long : LegalRun [.append genesisInfo, .append spendingInfo, .rewind] :=
    ⟨first, second, le_refl 2, trivial⟩
  obtain ⟨index, performs, _, restored⟩ := performAll_restores Consensus.mainParams
    (fun bytes => Multiplicative.ofAdd (bytes.length : ℤ)) (fun _ => 0) _ long
  obtain ⟨before, performsBefore, same⟩ := restored _ short rfl
  exact ⟨short, index, before, performs, performsBefore, same⟩

end Adonai.CoinStats
