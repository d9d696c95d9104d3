/-
The message behind a signature of a version 0 witness program.

SHA-256 is an arbitrary function. Only the branch of `SignatureHash` for `WITNESS_V0` is
modelled; the precomputed hashes of a transaction are the hashes computed here.
-/

import Adonai.Primitives.TxCodec

namespace Adonai

def SIGHASH_ALL : UInt32 := 1
def SIGHASH_NONE : UInt32 := 2
def SIGHASH_SINGLE : UInt32 := 3
def SIGHASH_ANYONECANPAY : UInt32 := 0x80

variable (sha256 : List UInt8 → List UInt8)

def getHash (bytes : List UInt8) : List UInt8 := sha256 (sha256 bytes)

variable (txTo : CMutableTransaction)

def getPrevoutsSHA256 : List UInt8 :=
  sha256 (txTo.vin.flatMap fun txin => writeOutPoint txin.prevout)

def getSequencesSHA256 : List UInt8 :=
  sha256 (txTo.vin.flatMap fun txin => writeUint32 txin.nSequence)

def getOutputsSHA256 : List UInt8 := sha256 (txTo.vout.flatMap writeTxOut)

/-- A `uint256` that was not assigned. -/
def blankHash : List UInt8 := List.replicate 32 0

/-- No result means that the assertion on the input fails. -/
def signatureHash (scriptCode : CScript) (txTo : CMutableTransaction) (nIn : Nat)
    (nHashType : UInt32) (amount : Int) : Option (List UInt8) :=
  let anyoneCanPay := nHashType &&& SIGHASH_ANYONECANPAY ≠ 0
  let single := nHashType &&& 0x1f = SIGHASH_SINGLE
  let none_ := nHashType &&& 0x1f = SIGHASH_NONE
  txTo.vin[nIn]?.map fun txin =>
    let hashPrevouts := if anyoneCanPay then blankHash else sha256 (getPrevoutsSHA256 sha256 txTo)
    let hashSequence :=
      if ¬anyoneCanPay ∧ ¬single ∧ ¬none_ then sha256 (getSequencesSHA256 sha256 txTo)
      else blankHash
    let hashOutputs :=
      if ¬single ∧ ¬none_ then sha256 (getOutputsSHA256 sha256 txTo)
      else if single then
        match txTo.vout[nIn]? with
        | some txout => getHash sha256 (writeTxOut txout)
        | none => blankHash
      else blankHash
    getHash sha256
      (writeUint32 txTo.version ++
        hashPrevouts ++
        hashSequence ++
        writeOutPoint txin.prevout ++
        writeByteVector scriptCode ++
        writeInt64 amount ++
        writeUint32 txin.nSequence ++
        hashOutputs ++
        writeUint32 txTo.nLockTime ++
        writeUint32 nHashType)

end Adonai
