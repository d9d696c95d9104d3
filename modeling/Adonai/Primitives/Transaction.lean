/-
Transactions and coins.

A transaction carries its identifier as a field, as the source does; nothing is
assumed about how identifiers are computed, so two transactions may share one.
-/

import Adonai.Primitives.Block

namespace Adonai

abbrev CScript := List UInt8

namespace CScript

def OP_RETURN : UInt8 := 0x6a

def MAX_SCRIPT_SIZE : Nat := 10000

def isUnspendable (script : CScript) : Bool :=
  script.head? == some OP_RETURN || decide (script.length > MAX_SCRIPT_SIZE)

end CScript

structure COutPoint where
  hash : Uint256
  n : UInt32
  deriving DecidableEq, Repr

namespace COutPoint

def NULL_INDEX : UInt32 := 0xffffffff

def isNull (outpoint : COutPoint) : Bool := outpoint.hash == 0 && outpoint.n == NULL_INDEX

end COutPoint

structure CTxIn where
  prevout : COutPoint
  scriptSig : CScript
  nSequence : UInt32
  scriptWitness : List (List UInt8)
  deriving DecidableEq, Repr

structure CTxOut where
  nValue : Int
  scriptPubKey : CScript
  deriving DecidableEq, Repr

namespace CTxOut

def null : CTxOut := { nValue := -1, scriptPubKey := [] }

def isNull (out : CTxOut) : Bool := out.nValue == -1

end CTxOut

structure CTransaction where
  vin : List CTxIn
  vout : List CTxOut
  version : UInt32
  nLockTime : UInt32
  hash : Uint256
  deriving DecidableEq, Repr

namespace CTransaction

def isCoinBase (tx : CTransaction) : Bool :=
  match tx.vin with
  | [input] => input.prevout.isNull
  | _ => false

end CTransaction

/-- An unspent output with the height, in 31 bits, and kind of the transaction that
made it. -/
structure Coin where
  out : CTxOut
  fCoinBase : Bool
  nHeight : BitVec 31
  deriving DecidableEq, Repr

namespace Coin

def ofOutput (out : CTxOut) (nHeight : Int) (fCoinBase : Bool) : Coin :=
  { out := out, fCoinBase := fCoinBase, nHeight := BitVec.ofInt 31 nHeight }

def empty : Coin := { out := .null, fCoinBase := false, nHeight := 0 }

def isSpent (coin : Coin) : Bool := coin.out.isNull

/-- Heap bytes of the script: scripts of up to 28 bytes are stored in place. -/
def dynamicMemoryUsage (coin : Coin) : UInt64 :=
  let size := coin.out.scriptPubKey.length
  if size ≤ 28 then 0 else UInt64.ofNat ((size + 31) / 16 * 16)

end Coin

end Adonai
