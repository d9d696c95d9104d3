/-
The undo data of a block: the coins its transactions spent.
-/

import Adonai.Coins.Compressor

namespace Adonai

open Reader Compressor

variable (codec : PubKeyCodec)

/-- `TxInUndoFormatter`: a zero byte stands after the height of a coin, unless the
height is zero. -/
def writeTxInUndo (txout : Coin) : List UInt8 :=
  writeVarInt 32 (txout.nHeight.toNat * 2 + txout.fCoinBase.toNat) ++
    ((if txout.nHeight.toNat > 0 then [0] else []) ++
      (writeAmount txout.out.nValue ++ writeScript codec txout.out.scriptPubKey))

def skipVersion (nHeight : Nat) : Reader Unit :=
  if nHeight > 0 then do
    let _ ← readVarInt 32
    pure ()
  else pure ()

def readTxInUndo : Reader Coin := do
  let nCode ← readVarInt 32
  skipVersion (nCode / 2)
  let nValue ← readAmount
  let scriptPubKey ← readScript codec
  pure { out := { nValue := nValue, scriptPubKey := scriptPubKey }
         fCoinBase := nCode % 2 == 1
         nHeight := BitVec.ofNat 31 (nCode / 2) }

/-- `Coin::Serialize`; nothing when its assertion fails. -/
def writeCoin (coin : Coin) : Option (List UInt8) :=
  if coin.isSpent then none
  else some (writeVarInt 32 (coin.nHeight.toNat * 2 + coin.fCoinBase.toNat) ++
    (writeAmount coin.out.nValue ++ writeScript codec coin.out.scriptPubKey))

def readCoin : Reader Coin := do
  let code ← readVarInt 32
  let nValue ← readAmount
  let scriptPubKey ← readScript codec
  pure { out := { nValue := nValue, scriptPubKey := scriptPubKey }
         fCoinBase := code % 2 == 1
         nHeight := BitVec.ofNat 31 (code / 2) }

def writeTxUndo (vprevout : List Coin) : List UInt8 := writeVector (writeTxInUndo codec) vprevout

def readTxUndo : Reader (List Coin) := readVector (readTxInUndo codec)

def writeBlockUndo (vtxundo : List (List Coin)) : List UInt8 :=
  writeVector (writeTxUndo codec) vtxundo

def readBlockUndo : Reader (List (List Coin)) := readVector (readTxUndo codec)

variable {codec}

def Storable (coin : Coin) : Prop :=
  moneyRange coin.out.nValue = true ∧ coin.out.scriptPubKey.length ≤ CScript.MAX_SCRIPT_SIZE

private theorem reads_skipVersion (nHeight : Nat) :
    Reads (skipVersion nHeight) (if nHeight > 0 then [0] else []) () := by
  unfold skipVersion
  split
  · have zero : (0 : Nat) < 2 ^ 32 := by decide
    exact (reads_varInt zero).map fun _ => ()
  · exact reads_pure ()

private theorem coinCode_spec (coin : Coin) :
    coin.nHeight.toNat * 2 + coin.fCoinBase.toNat < 2 ^ 32 ∧
      (coin.nHeight.toNat * 2 + coin.fCoinBase.toNat) / 2 = coin.nHeight.toNat ∧
      ((coin.nHeight.toNat * 2 + coin.fCoinBase.toNat) % 2 == 1) = coin.fCoinBase := by
  obtain ⟨_, fCoinBase, nHeight⟩ := coin
  have flag : fCoinBase.toNat ≤ 1 := Bool.toNat_le fCoinBase
  refine ⟨by dsimp only; omega, by dsimp only; omega, ?_⟩
  cases fCoinBase <;> simp [Nat.add_mod]

section

variable {coin : Coin} (storable : Storable coin)

include storable

theorem reads_compressedOut : Reads (do
      let nValue ← readAmount
      let scriptPubKey ← readScript codec
      pure { out := { nValue := nValue, scriptPubKey := scriptPubKey }
             fCoinBase := coin.fCoinBase
             nHeight := BitVec.ofNat 31 coin.nHeight.toNat })
    (writeAmount coin.out.nValue ++ writeScript codec coin.out.scriptPubKey) coin := by
  rw [BitVec.ofNat_toNat]
  exact (reads_amount storable.1).bind ((reads_script storable.2).map fun script =>
    ({ coin with out := { nValue := coin.out.nValue, scriptPubKey := script } } : Coin))

private theorem reads_txInUndo : Reads (readTxInUndo codec) (writeTxInUndo codec coin) coin := by
  obtain ⟨code, height, coinbase⟩ := coinCode_spec coin
  refine (reads_varInt code).bind ?_
  rw [height, coinbase]
  exact (reads_skipVersion _).bind (reads_compressedOut storable)

end

theorem coin_round_trips {coin : Coin} (storable : Storable coin) :
    (∃ bytes, writeCoin codec coin = some bytes ∧ Reads (readCoin codec) bytes coin) ∧
      Reads (readTxInUndo codec) (writeTxInUndo codec coin) coin ∧
      ∃ n : Nat, coin.out.nValue = n ∧ compressAmount n = compressAmountExact n ∧
        decompressAmount (compressAmount n) = decompressAmountExact (compressAmount n) := by
  have range := storable.1
  rw [moneyRange_iff] at range
  refine ⟨?_, reads_txInUndo storable, ?_⟩
  · obtain ⟨code, height, coinbase⟩ := coinCode_spec coin
    refine ⟨_, if_neg ?_, (reads_varInt code).bind ?_⟩
    · intro spent
      have null := beq_iff_eq.mp spent
      omega
    · rw [height, coinbase]
      exact reads_compressedOut storable
  · obtain ⟨n, isAmount⟩ := Int.eq_ofNat_of_zero_le range.1
    unfold MAX_MONEY COIN at range
    obtain ⟨compressed, decompressed, _⟩ := @decompress_compress n (by omega)
    exact ⟨n, isAmount, compressed, decompressed⟩

def generatorX : List UInt8 :=
  [0x79, 0xbe, 0x66, 0x7e, 0xf9, 0xdc, 0xbb, 0xac, 0x55, 0xa0, 0x62, 0x95, 0xce, 0x87, 0x0b, 0x07,
   0x02, 0x9b, 0xfc, 0xdb, 0x2d, 0xce, 0x28, 0xd9, 0x59, 0xf2, 0x81, 0x5b, 0x16, 0xf8, 0x17, 0x98]

def generatorKey : List UInt8 := 4 :: generatorX ++
  [0x48, 0x3a, 0xda, 0x77, 0x26, 0xa3, 0xc4, 0x65, 0x5d, 0xa4, 0xfb, 0xfc, 0x0e, 0x11, 0x08, 0xa8,
   0xfd, 0x17, 0xb4, 0x48, 0xa6, 0x85, 0x54, 0x19, 0x9c, 0x47, 0xd0, 0x8f, 0xfb, 0x10, 0xd4, 0xb8]

/-- Knows one key, the generator of the curve. -/
def generatorCodec : PubKeyCodec where
  isFullyValid key := key == generatorKey
  decompress key := if key = 2 :: generatorX then some generatorKey else none
  inverts key _ _ valid := by
    rw [beq_iff_eq.mp valid]
    decide +kernel

/-- Pays to an uncompressed key, which is stored as its first coordinate. -/
def generatorCoin : Coin := ⟨⟨5000000000, 65 :: generatorKey ++ [OP_CHECKSIG]⟩, true, 7⟩

theorem coin_round_trips_generator :
    compressScript generatorCodec generatorCoin.out.scriptPubKey = some (4 :: generatorX) ∧
    ∃ bytes, writeCoin generatorCodec generatorCoin = some bytes ∧
      Reads (readCoin generatorCodec) bytes generatorCoin :=
  ⟨by decide +kernel, (coin_round_trips ⟨by decide, by decide⟩).1⟩

theorem reads_blockUndo {vtxundo : List (List Coin)} (few : vtxundo.length ≤ MAX_SIZE)
    (fewInputs : ∀ vprevout ∈ vtxundo, vprevout.length ≤ MAX_SIZE)
    (storable : ∀ vprevout ∈ vtxundo, ∀ coin ∈ vprevout, Storable coin) :
    Reads (readBlockUndo codec) (writeBlockUndo codec vtxundo) vtxundo := by
  refine reads_vector few fun vprevout member => ?_
  refine reads_vector (fewInputs vprevout member) fun coin inside => ?_
  exact reads_txInUndo (storable vprevout member coin inside)

end Adonai
