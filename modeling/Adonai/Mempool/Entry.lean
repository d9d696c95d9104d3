/-
Entries of the mempool and the map that holds them.

An iterator into `mapTx` is the txid of its entry; following one whose entry is gone halts with
`dangling`. A quantity that leaves its machine type halts with `overflow`, and a fee sum that
`SaturatingAdd` would clamp with `saturated`.
-/

import Adonai.Consensus.TxVerify
import Adonai.Foundation.Worklist
import Adonai.Primitives.Serialize
import Mathlib.Data.List.AList

namespace Adonai

/-- Rank of a hash in the order of `memcmp`: its bytes are stored least significant first. -/
def Uint256.memcmpRank (hash : Uint256) : Nat :=
  (littleEndian 32 hash.toNat).foldl (fun rank byte => rank * 256 + byte.toNat) 0

theorem foldl_bytes_injective {left right : List UInt8} (sameLength : left.length = right.length)
    {low high : Nat} (same : left.foldl (fun rank byte => rank * 256 + byte.toNat) low =
      right.foldl (fun rank byte => rank * 256 + byte.toNat) high) : low = high ∧ left = right := by
  induction left generalizing right low high with
  | nil =>
    have empty : right = [] := List.length_eq_zero_iff.mp sameLength.symm
    rw [empty] at same ⊢
    exact ⟨same, rfl⟩
  | cons first left ih =>
    cases right with
    | nil => cases sameLength
    | cons second right =>
      obtain ⟨digits, rest⟩ := ih (Nat.succ.inj sameLength) same
      dsimp only at digits
      have firstSmall := first.toNat_lt
      have secondSmall := second.toNat_lt
      have byte : first = second := UInt8.toNat_inj.mp (by omega)
      exact ⟨by omega, by rw [byte, rest]⟩

theorem memcmpRank_injective {left right : Uint256}
    (same : left.memcmpRank = right.memcmpRank) : left = right := by
  have lengths : (littleEndian 32 left.toNat).length = (littleEndian 32 right.toNat).length := by
    rw [littleEndian_length, littleEndian_length]
  have bytes := (foldl_bytes_injective lengths same).2
  exact BitVec.eq_of_toNat_eq (littleEndian_inj left.isLt right.isLt bytes)

namespace CTransaction

variable (tx : CTransaction)

def hasWitness : Bool := tx.vin.any fun txin => !txin.scriptWitness.isEmpty

def sizeWithWitness : Nat :=
  tx.sizeNoWitness +
    if tx.hasWitness then
      2 + (tx.vin.map fun txin => compactSizeLength txin.scriptWitness.length +
        (txin.scriptWitness.map fun item => compactSizeLength item.length + item.length).sum).sum
    else 0

def getTransactionWeight : Nat :=
  tx.sizeNoWitness * (Consensus.WITNESS_SCALE_FACTOR - 1) + tx.sizeWithWitness

end CTransaction

namespace Mempool

def getVirtualTransactionSize (nWeight nSigOpCost bytes_per_sigop : Nat) : Nat :=
  (max nWeight (nSigOpCost * bytes_per_sigop) + Consensus.WITNESS_SCALE_FACTOR - 1) /
    Consensus.WITNESS_SCALE_FACTOR

inductive PoolHalt where
  | saturated
  | overflow
  | sigOpCost
  | assertion
  | dangling
  | diverged
  deriving DecidableEq, Repr

/-- A bound of a machine type was reached; `sigOpCost` is the assertion that the sum of
sigop costs is not negative as an `int`. -/
def PoolHalt.OutOfRange : PoolHalt → Prop
  | .saturated | .overflow | .sigOpCost => True
  | .assertion | .dangling | .diverged => False

def inRange (bits : Nat) (value : Int) : Bool :=
  decide (-2 ^ (bits - 1) ≤ value) && decide (value < 2 ^ (bits - 1))

def narrow (bits : Nat) (value : Int) : Except PoolHalt Int :=
  if inRange bits value then .ok value else .error .overflow

def addInt64 (left right : Int) : Except PoolHalt Int := narrow 64 (left + right)

def saturatingAdd (i j : Int) : Int :=
  if i > 0 ∧ j > 2 ^ 63 - 1 - i then 2 ^ 63 - 1
  else if i < 0 ∧ j < -2 ^ 63 - i then -2 ^ 63
  else i + j

def addUnsaturated (left right : Int) : Except PoolHalt Int :=
  if saturatingAdd left right = left + right then .ok (left + right) else .error .saturated

def assert (condition : Bool) : Except PoolHalt Unit :=
  if condition then .ok () else .error .assertion

/-- `int(cost) >= 0`. -/
def assertSigOpCost (cost : Int) : Except PoolHalt Unit :=
  if 0 ≤ cost.bmod (2 ^ 32) then .ok () else .error .sigOpCost

abbrev SetEntries := OrderedSet Uint256 Uint256.memcmpRank

structure LockPoints where
  height : Int
  time : Int
  maxInputBlock : Option Uint256
  deriving DecidableEq, Repr

/-- An entry; `nTxSize` is what `GetTxSize` computes from the weight and the sigop cost. -/
structure CTxMemPoolEntry where
  tx : CTransaction
  m_parents : SetEntries
  m_children : SetEntries
  nFee : Int
  nTxSize : Int
  nTime : Int
  spendsCoinbase : Bool
  sigOpCost : Int
  m_modified_fee : Int
  lockPoints : LockPoints
  m_count_with_descendants : Int
  nSizeWithDescendants : Int
  nModFeesWithDescendants : Int
  m_count_with_ancestors : Int
  nSizeWithAncestors : Int
  nModFeesWithAncestors : Int
  nSigOpCostWithAncestors : Int

namespace CTxMemPoolEntry

def updateDescendantState (modifySize modifyFee modifyCount : Int) (entry : CTxMemPoolEntry) :
    Except PoolHalt CTxMemPoolEntry := do
  let nSizeWithDescendants ← addInt64 entry.nSizeWithDescendants modifySize
  assert (0 < nSizeWithDescendants)
  let nModFeesWithDescendants ← addUnsaturated entry.nModFeesWithDescendants modifyFee
  let m_count_with_descendants ← addInt64 entry.m_count_with_descendants modifyCount
  assert (0 < m_count_with_descendants)
  pure
    { entry with
      nSizeWithDescendants := nSizeWithDescendants
      nModFeesWithDescendants := nModFeesWithDescendants
      m_count_with_descendants := m_count_with_descendants }

def updateAncestorState (modifySize modifyFee modifyCount modifySigOps : Int)
    (entry : CTxMemPoolEntry) : Except PoolHalt CTxMemPoolEntry := do
  let nSizeWithAncestors ← addInt64 entry.nSizeWithAncestors modifySize
  assert (0 < nSizeWithAncestors)
  let nModFeesWithAncestors ← addUnsaturated entry.nModFeesWithAncestors modifyFee
  let m_count_with_ancestors ← addInt64 entry.m_count_with_ancestors modifyCount
  assert (0 < m_count_with_ancestors)
  let nSigOpCostWithAncestors ← addInt64 entry.nSigOpCostWithAncestors modifySigOps
  assertSigOpCost nSigOpCostWithAncestors
  pure
    { entry with
      nSizeWithAncestors := nSizeWithAncestors
      nModFeesWithAncestors := nModFeesWithAncestors
      m_count_with_ancestors := m_count_with_ancestors
      nSigOpCostWithAncestors := nSigOpCostWithAncestors }

end CTxMemPoolEntry

abbrev EntryMap := AList fun _ : Uint256 => CTxMemPoolEntry

abbrev EntryProgram := Program EntryMap PoolHalt

def entryAt (it : Uint256) : EntryProgram CTxMemPoolEntry := fun entries =>
  match entries.lookup it with
  | some entry => .ok (entry, entries)
  | none => .error .dangling

def modifyEntry (it : Uint256) (change : CTxMemPoolEntry → Except PoolHalt CTxMemPoolEntry) :
    EntryProgram Unit := fun entries =>
  match entries.lookup it with
  | some entry => (change entry).map fun changed => ((), entries.insert it changed)
  | none => .error .dangling

def updateChild (entry child : Uint256) (add : Bool) : EntryProgram Unit :=
  modifyEntry entry fun parent =>
    .ok
      { parent with
        m_children :=
          if add then parent.m_children.insert child else parent.m_children.erase child }

def updateParent (entry parent : Uint256) (add : Bool) : EntryProgram Unit :=
  modifyEntry entry fun child =>
    .ok
      { child with
        m_parents := if add then child.m_parents.insert parent else child.m_parents.erase parent }

end Mempool

end Adonai
