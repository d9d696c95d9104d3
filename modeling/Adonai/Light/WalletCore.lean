/-
The transaction builder of the light wallet.

An exception is the absence of a result. Characters are code points, amounts in coins are doubles
and amounts in the smallest unit integers. Key derivation, hashes, signatures and the decoder of
addresses come from libraries; what is assumed of them is part of their structures.
-/

import Adonai.Foundation.Binary64
import Adonai.Key.Derive
import Adonai.Primitives.TxCodec
import Adonai.Util.Bech32

namespace Adonai.Light

open Key (Bytes)
open BitGroups (regroup)

/-- `BigInt(Math.round(ado * 100_000_000))`. -/
def adoToSats (ado : ℚ) : Int := ⌊Binary64.mul ado 100000000 + 1 / 2⌋

def writeUint32LE (n : Nat) : List UInt8 := littleEndian 4 n

/-- The high half passes through a double. -/
def writeUint64LE (n : Int) : List UInt8 :=
  littleEndian 4 (n % 2 ^ 32).toNat ++
    littleEndian 4 (Binary64.toInt (Binary64.ofInt (n / 2 ^ 32)) % 2 ^ 32).toNat

def writeVarInt (n : Nat) : List UInt8 :=
  if n < 0xfd then [UInt8.ofNat n]
  else if n ≤ 0xffff then 0xfd :: littleEndian 2 n
  else 0xfe :: littleEndian 4 n

def hexValue (c : Char) : Option Nat :=
  if '0' ≤ c ∧ c ≤ '9' then some (c.toNat - 48)
  else if 'a' ≤ c ∧ c ≤ 'f' then some (c.toNat - 87)
  else if 'A' ≤ c ∧ c ≤ 'F' then some (c.toNat - 55)
  else none

/-- For a string of hexadecimal digits. -/
def hexToBytes : List Char → List UInt8
  | high :: low :: rest =>
    UInt8.ofNat (16 * (hexValue high).getD 0 + (hexValue low).getD 0) :: hexToBytes rest
  | _ => []

def bytesToHex (bytes : List UInt8) : List Char :=
  bytes.flatMap fun b => [Nat.digitChar (b.toNat / 16), Nat.digitChar (b.toNat % 16)]

/-- The bech32 library: on ASCII strings it decodes as the standard says, on others it does
what it wants, but returns no more words than a string may have characters. -/
structure Bech32Library where
  decode : List Char → Option (List Char × List Nat)
  fromWords : List Nat → Option (List UInt8)
  decode_ascii : ∀ str, (∀ c ∈ str, c.toNat < 128) →
    decode str = (Bech32.decode str).bind fun dec =>
      if dec.encoding = .bech32 then some (dec.hrp, dec.data) else none
  decode_short : ∀ str hrp words, decode str = some (hrp, words) → words.length ≤ Bech32.CharLimit
  fromWords_eq : ∀ words, (∀ word ∈ words, word < 32) →
    fromWords words =
      if (regroup 5 8 false words).2 then some ((regroup 5 8 false words).1.map UInt8.ofNat)
      else none
  fromWords_short : ∀ words bytes, fromWords words = some bytes → bytes.length ≤ words.length

structure KeyPair where
  privateKey : Bytes 32
  publicKey : Bytes 33

structure Crypto where
  sha256 : List UInt8 → List UInt8
  ripemd160 : List UInt8 → Bytes 20
  deriveKeyAtIndex : (mnemonic : String) → (index : Nat) → (isChange : Bool) →
    (passphrase : String) → Option KeyPair
  ecdsa : (digest : List UInt8) → (privateKey : Bytes 32) → List UInt8
  ecdsa_length : ∀ digest privateKey, (ecdsa digest privateKey).length ≤ 72

variable (crypto : Crypto)

def Crypto.hash160 (data : List UInt8) : Bytes 20 := crypto.ripemd160 (crypto.sha256 data)

def Crypto.hash256 (data : List UInt8) : List UInt8 := crypto.sha256 (crypto.sha256 data)

/-- What `secp256k1.sign` of `@noble/curves` 2 signs: the hash of its argument, unless the option
`prehash` is false. -/
def Crypto.signedDigest (prehash : Bool) (message : List UInt8) : List UInt8 :=
  if prehash then crypto.sha256 message else message

def Crypto.sign (prehash : Bool) (message : List UInt8) (privateKey : Bytes 32) : List UInt8 :=
  crypto.ecdsa (crypto.signedDigest prehash message) privateKey

def defaultPrehash : Bool := true

structure Txid where
  text : List Char
  length : text.length = 64
  digits : ∀ c ∈ text, (hexValue c).isSome
  deriving DecidableEq

structure LightUTXO where
  txid : Txid
  vout : Nat
  amountAdo : ℚ
  isChange : Bool
  index : Nat
  vout_lt : vout < 2 ^ 32

structure TxInput where
  txid : Txid
  vout : Nat
  sequence : Nat
  amountSats : Int
  pubKeyHash : Bytes 20

structure TxOutput where
  scriptPubKey : List UInt8
  valueSats : Int

def p2wpkhScript (pubKeyHash : List UInt8) : List UInt8 := 0x00 :: 0x14 :: pubKeyHash

def writePrevout (input : TxInput) : List UInt8 :=
  (hexToBytes input.txid.text).reverse ++ writeUint32LE input.vout

def writeOutput (output : TxOutput) : List UInt8 :=
  writeUint64LE output.valueSats ++ writeVarInt output.scriptPubKey.length ++ output.scriptPubKey

def bip143SigHash (version : Nat) (inputs : List TxInput)
    (outputs : List TxOutput) (inputIndex locktime : Nat) : Option (List UInt8) :=
  inputs[inputIndex]?.map fun inp =>
    let hashPrevouts := crypto.hash256 (inputs.flatMap writePrevout)
    let hashSequence := crypto.hash256 (inputs.flatMap fun i => writeUint32LE i.sequence)
    let hashOutputs := crypto.hash256 (outputs.flatMap writeOutput)
    let scriptCode := [0x19, 0x76, 0xa9, 0x14] ++ inp.pubKeyHash.1 ++ [0x88, 0xac]
    crypto.hash256
      (writeUint32LE version ++
        hashPrevouts ++
        hashSequence ++
        writePrevout inp ++
        scriptCode ++
        writeUint64LE inp.amountSats ++
        writeUint32LE inp.sequence ++
        hashOutputs ++
        writeUint32LE locktime ++
        writeUint32LE 1)

structure BuildTxParams where
  utxos : List LightUTXO
  recipientAddress : List Char
  amountAdo : ℚ
  changeAddress : List Char
  feeAdo : ℚ
  mnemonic : String
  passphrase : String

namespace BuildTxParams

variable (params : BuildTxParams)

def amountSats : Int := adoToSats params.amountAdo

def totalIn : Int := (params.utxos.map fun u => adoToSats u.amountAdo).sum

def changeSats : Int := params.totalIn - params.amountSats - adoToSats params.feeAdo

end BuildTxParams

/-- The script an address is paid with: the witness version is cut off unread. -/
def payScript (library : Bech32Library) (address : List Char) : Option (List UInt8) := do
  let (_, words) ← library.decode address
  let hash ← library.fromWords (words.drop 1)
  pure (p2wpkhScript hash)

def inputOf (crypto : Crypto) (u : LightUTXO) (key : KeyPair) : TxInput :=
  { txid := u.txid
    vout := u.vout
    sequence := 0xfffffffd
    amountSats := adoToSats u.amountAdo
    pubKeyHash := crypto.hash160 key.publicKey.1 }

/-- Change of up to 546 is left to the fee. -/
def outputsOf (amountSats changeSats : Int) (recipientScript changeScript : List UInt8) :
    List TxOutput :=
  let payment := { scriptPubKey := recipientScript, valueSats := amountSats }
  if changeSats > 546 then [payment, { scriptPubKey := changeScript, valueSats := changeSats }]
  else [payment]

def VERSION : Nat := 2

def LOCKTIME : Nat := 0

def signInput (crypto : Crypto) (inputs : List TxInput) (outputs : List TxOutput)
    (keys : List KeyPair) (i : Nat) : Option (List (List UInt8)) := do
  let sigHash ← bip143SigHash crypto VERSION inputs outputs i LOCKTIME
  let key ← keys[i]?
  -- the options set `lowS` and `format` only
  pure [crypto.sign defaultPrehash sigHash key.privateKey ++ [0x01], key.publicKey.1]

def writeItem (item : List UInt8) : List UInt8 := writeVarInt item.length ++ item

def serializeSegwit (inputs : List TxInput) (outputs : List TxOutput)
    (witnesses : List (List (List UInt8))) : List UInt8 :=
  writeUint32LE VERSION ++
    [0x00, 0x01] ++
    writeVarInt inputs.length ++
    (inputs.flatMap fun inp => writePrevout inp ++ [0x00] ++ writeUint32LE inp.sequence) ++
    writeVarInt outputs.length ++
    outputs.flatMap writeOutput ++
    (witnesses.flatMap fun witness => writeVarInt witness.length ++ witness.flatMap writeItem) ++
    writeUint32LE LOCKTIME

def buildAndSignTx (library : Bech32Library) (crypto : Crypto) (params : BuildTxParams) :
    Option (List Char) :=
  if params.changeSats < 0 then none
  else do
    let recipientScript ← payScript library params.recipientAddress
    let changeScript ← payScript library params.changeAddress
    let keys ← params.utxos.mapM fun u =>
      crypto.deriveKeyAtIndex params.mnemonic u.index u.isChange params.passphrase
    let inputs := params.utxos.zipWith (inputOf crypto) keys
    let outputs := outputsOf params.amountSats params.changeSats recipientScript changeScript
    let witnesses ← (List.range inputs.length).mapM (signInput crypto inputs outputs keys)
    pure (bytesToHex (serializeSegwit inputs outputs witnesses))

structure Built (library : Bech32Library) (crypto : Crypto) (params : BuildTxParams)
    (hex : List Char) (recipientScript changeScript : List UInt8) (keys : List KeyPair)
    (witnesses : List (List (List UInt8))) : Prop where
  funded : 0 ≤ params.changeSats
  recipient : payScript library params.recipientAddress = some recipientScript
  change : payScript library params.changeAddress = some changeScript
  derived : (params.utxos.mapM fun u =>
    crypto.deriveKeyAtIndex params.mnemonic u.index u.isChange params.passphrase) = some keys
  signed : (List.range (params.utxos.zipWith (inputOf crypto) keys).length).mapM
    (signInput crypto (params.utxos.zipWith (inputOf crypto) keys)
      (outputsOf params.amountSats params.changeSats recipientScript changeScript) keys) =
    some witnesses
  text : hex = bytesToHex (serializeSegwit (params.utxos.zipWith (inputOf crypto) keys)
    (outputsOf params.amountSats params.changeSats recipientScript changeScript) witnesses)

theorem buildAndSignTx_some {library : Bech32Library} {crypto : Crypto} {params : BuildTxParams}
    {hex : List Char} (builds : buildAndSignTx library crypto params = some hex) :
    ∃ recipientScript changeScript keys witnesses,
      Built library crypto params hex recipientScript changeScript keys witnesses := by
  unfold buildAndSignTx at builds
  split at builds
  · cases builds
  next funded =>
  obtain ⟨recipientScript, recipient, builds⟩ := Option.bind_eq_some_iff.mp builds
  obtain ⟨changeScript, change, builds⟩ := Option.bind_eq_some_iff.mp builds
  obtain ⟨keys, derived, builds⟩ := Option.bind_eq_some_iff.mp builds
  obtain ⟨witnesses, signed, builds⟩ := Option.bind_eq_some_iff.mp builds
  exact ⟨recipientScript, changeScript, keys, witnesses,
    { funded := not_lt.mp funded
      recipient := recipient
      change := change
      derived := derived
      signed := signed
      text := (Option.some.inj builds).symm }⟩

end Adonai.Light
