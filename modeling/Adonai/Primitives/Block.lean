/-
Block headers, their 80 serialized bytes, and positions in the block tree.

The block hash is an arbitrary function of the serialized header. A `CBlockIndex` pointer is the
list of the blocks it reaches through `pprev`, empty for the null pointer: what is read of an
entry never changes once it is in the index.
-/

import Mathlib.Data.UInt

namespace Adonai

abbrev Uint256 := BitVec 256

instance : LawfulBEq Uint256 := inferInstanceAs (LawfulBEq (BitVec 256))

structure CBlockHeader where
  nVersion : Int32
  hashPrevBlock : Uint256
  hashMerkleRoot : Uint256
  nTime : UInt32
  nBits : UInt32
  nNonce : UInt32
  deriving DecidableEq, Repr

def littleEndian : (size value : Nat) → List UInt8
  | 0, _ => []
  | size + 1, value => UInt8.ofNat value :: littleEndian size (value / 256)

theorem littleEndian_length (size value : Nat) : (littleEndian size value).length = size := by
  induction size generalizing value with
  | zero => rfl
  | succ size ih =>
    simp only [littleEndian, List.length_cons, ih]

namespace CBlockHeader

def serialize (header : CBlockHeader) : List UInt8 :=
  littleEndian 4 header.nVersion.toUInt32.toNat ++
    littleEndian 32 header.hashPrevBlock.toNat ++
    littleEndian 32 header.hashMerkleRoot.toNat ++
    littleEndian 4 header.nTime.toNat ++
    littleEndian 4 header.nBits.toNat ++
    littleEndian 4 header.nNonce.toNat

def getHash (hasher : List UInt8 → Uint256) (header : CBlockHeader) : Uint256 :=
  hasher header.serialize

def getBlockTime (header : CBlockHeader) : Int := header.nTime.toNat

end CBlockHeader

structure CBlockIndex where
  hashBlock : Uint256
  nHeight : Int
  nVersion : Int32
  hashMerkleRoot : Uint256
  nTime : UInt32
  nBits : UInt32
  nNonce : UInt32
  deriving DecidableEq, Repr

namespace CBlockIndex

def getBlockTime (block : CBlockIndex) : Int := block.nTime.toNat

def nMedianTimeSpan : Nat := 11

def getMedianTimePast (pindex : List CBlockIndex) : Int :=
  let sorted := ((pindex.take nMedianTimeSpan).map getBlockTime).insertionSort (· ≤ ·)
  sorted.getD (sorted.length / 2) 0

/-- The header an index entry reproduces; the parent supplies `hashPrevBlock`. -/
def getBlockHeader (block : CBlockIndex) (pprev : List CBlockIndex) : CBlockHeader :=
  { nVersion := block.nVersion
    hashPrevBlock := (pprev.head?.map CBlockIndex.hashBlock).getD 0
    hashMerkleRoot := block.hashMerkleRoot
    nTime := block.nTime
    nBits := block.nBits
    nNonce := block.nNonce }

end CBlockIndex

end Adonai
