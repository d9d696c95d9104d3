/-
The state of the light wallet, its scans and its sends.

Amounts in coins are exact rationals. A scan returns the unspent coins of the two ranges of
scripts; the path of a coin, which the wallet parses out of a descriptor, is given with it.
-/

import Adonai.Light.WalletCore

namespace Adonai.Light

/-- The keys of a wallet and what is shared with the node: the addresses of the browser are
paid with the scripts that the node derives, and the scripts of different paths differ. -/
structure Wallet where
  library : Bech32Library
  crypto : Crypto
  mnemonic : String
  address : (isChange : Bool) → (index : Nat) → List Char
  script : (isChange : Bool) → (index : Nat) → List UInt8
  pays : ∀ isChange index, payScript library (address isChange index) = some (script isChange index)
  injective : ∀ {isChange isChange' : Bool} {index index' : Nat}, index < 2 ^ 31 →
    index' < 2 ^ 31 → script isChange index = script isChange' index' →
      isChange = isChange' ∧ index = index'
  validateAddress : List Char → Bool

structure ChainCoin where
  txid : Txid
  vout : Nat
  amountSats : Int
  scriptPubKey : List UInt8
  vout_lt : vout < 2 ^ 32
  deriving DecidableEq

structure ScannedUTXO where
  coin : ChainCoin
  isChange : Bool
  index : Nat
  deriving DecidableEq

namespace Wallet

variable (wallet : Wallet)

def inRange (isChange : Bool) (range : Nat) (coin : ChainCoin) : Option ScannedUTXO :=
  ((List.range (range + 1)).find? fun index =>
    coin.scriptPubKey == wallet.script isChange index).map
    fun index => { coin := coin, isChange := isChange, index := index }

def scantxoutset (receiveRange changeRange : Nat) (coins : List ChainCoin) : List ScannedUTXO :=
  coins.filterMap fun coin =>
    (wallet.inRange false receiveRange coin).or (wallet.inRange true changeRange coin)

def lightScan (coins : List ChainCoin) : List ScannedUTXO := wallet.scantxoutset 200 50 coins

end Wallet

def ScannedUTXO.amount (scanned : ScannedUTXO) : ℚ := scanned.coin.amountSats / 100000000

def ScannedUTXO.toLightUTXO (scanned : ScannedUTXO) : LightUTXO where
  txid := scanned.coin.txid
  vout := scanned.coin.vout
  amountAdo := scanned.amount
  isChange := scanned.isChange
  index := scanned.index
  vout_lt := scanned.coin.vout_lt

structure LightWalletState where
  balance : ℚ
  utxos : List LightUTXO
  receiveIndex : Nat
  changeIndex : Nat

namespace LightWalletState

def empty : LightWalletState where
  balance := 0
  utxos := []
  receiveIndex := 0
  changeIndex := 0

/-- `Math.max(...indices) + 1`, and 0 without indices. -/
def nextIndex (indices : List Nat) : Nat :=
  if indices.length > 0 then indices.foldl max 0 + 1 else 0

def setScanResult (scanned : List ScannedUTXO) : LightWalletState where
  balance := (scanned.map ScannedUTXO.amount).sum
  utxos := scanned.map ScannedUTXO.toLightUTXO
  receiveIndex := nextIndex ((scanned.filter fun u => !u.isChange).map ScannedUTXO.index)
  changeIndex := nextIndex ((scanned.filter fun u => u.isChange).map ScannedUTXO.index)

end LightWalletState

structure FeeModel where
  alpha : ℚ
  beta : ℚ
  min : ℚ

def estimateLightFee (alpha beta minFee amountAdo : ℚ) (numInputs : Nat) : ℚ :=
  let vsizeBytes : ℚ := 21 / 2 + 41 * numInputs + 31 * 2
  let vsizeKb := vsizeBytes / 1000
  max minFee (alpha * vsizeKb + beta * amountAdo)

structure SendRequest where
  address : List Char
  amountNum : ℚ
  model : Option FeeModel

def SendRequest.estimatedFee (request : SendRequest) (numInputs : Nat) : ℚ :=
  match request.model with
  | some model => estimateLightFee model.alpha model.beta model.min request.amountNum numInputs
  | none => 1 / 1000000

/-- The coins up to the one with which the target is reached, and their total. -/
def pickCoins (target : ℚ) : (total : ℚ) → List LightUTXO → List LightUTXO × ℚ
  | total, [] => ([], total)
  | total, u :: sorted =>
    let total := total + u.amountAdo
    if total ≥ target then ([u], total)
    else
      let (selected, total) := pickCoins target total sorted
      (u :: selected, total)

/-- The parameters of the transaction that is built, unless the request is refused. -/
def handleSend (wallet : Wallet) (store : LightWalletState) (request : SendRequest) :
    Option BuildTxParams :=
  let estimatedFee := request.estimatedFee store.utxos.length
  let isValidAmount := request.amountNum > 0 ∧ request.amountNum ≤ store.balance
  if wallet.validateAddress request.address ∧ isValidAmount ∧ store.utxos.length > 0 then
    let sorted := store.utxos.insertionSort fun a b => a.amountAdo ≥ b.amountAdo
    let target := request.amountNum + estimatedFee
    let (selected, total) := pickCoins target 0 sorted
    if total < target then none
    else
      some
        { utxos := selected
          recipientAddress := request.address
          amountAdo := request.amountNum
          changeAddress := wallet.address true store.changeIndex
          feeAdo := estimatedFee
          mnemonic := wallet.mnemonic
          passphrase := "" }
  else none

end Adonai.Light
