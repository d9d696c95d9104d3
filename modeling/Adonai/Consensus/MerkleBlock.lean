/-
Partial Merkle trees: the nodes above the matched transactions, in pre-order.

`CalcHash` and `TraverseAndExtract` combine two nodes with `Hash`, which is BLAKE3 here, while the
block's root is computed with a double SHA-256. Both are parameters over arbitrary digests.
-/

import Adonai.Consensus.Merkle
import Adonai.Consensus.TxVerify
import Adonai.Primitives.Serialize
import Mathlib.Data.Nat.Pairing
import Mathlib.Tactic.IntervalCases

namespace Adonai.Merkle

open MerkleTree Reader

def MIN_TRANSACTION_WEIGHT : Nat := Consensus.WITNESS_SCALE_FACTOR * 60

/-- The byte that holds the bits from `8 * index` on, least significant first. -/
def packByte (bits : List Bool) (index : Nat) : UInt8 :=
  (List.range 8).foldl (fun byte j =>
    byte ||| if bits.getD (8 * index + j) false then 1 <<< UInt8.ofNat j else 0) 0

def bitsToBytes (bits : List Bool) : List UInt8 :=
  (List.range ((bits.length + 7) / 8)).map (packByte bits)

def bytesToBits (bytes : List UInt8) : List Bool :=
  (List.range (bytes.length * 8)).map fun p =>
    decide (bytes.getD (p / 8) 0 &&& 1 <<< UInt8.ofNat (p % 8) ≠ 0)

structure CPartialMerkleTree (Digest : Type) where
  nTransactions : Nat
  vBits : List Bool
  vHash : List Digest
  fBad : Bool
  deriving DecidableEq, Repr

def calcTreeWidth (nTransactions height : Nat) : Nat :=
  (nTransactions + 2 ^ height - 1) % 2 ^ 32 / 2 ^ height

def treeHeightLoop (nTransactions : Nat) : (fuel nHeight : Nat) → Nat
  | 0, nHeight => nHeight
  | fuel + 1, nHeight =>
    if calcTreeWidth nTransactions nHeight > 1 then treeHeightLoop nTransactions fuel (nHeight + 1)
    else nHeight

def treeHeight (nTransactions : Nat) : Nat := treeHeightLoop nTransactions 32 0

section Definitions

variable {Digest : Type} (blake : Digest → Digest → Digest) (zero : Digest)

def calcHash (nTransactions : Nat) (vTxid : List Digest) : (height pos : Nat) → Digest
  | 0, pos => vTxid.getD pos zero
  | height + 1, pos =>
    let left := calcHash nTransactions vTxid height (pos * 2)
    let right :=
      if pos * 2 + 1 < calcTreeWidth nTransactions height then
        calcHash nTransactions vTxid height (pos * 2 + 1)
      else left
    blake left right

def parentOfMatch (nTransactions : Nat) (vMatch : List Bool) (height pos : Nat) : Bool :=
  let first := pos * 2 ^ height % 2 ^ 32
  (List.range' first (min ((pos + 1) * 2 ^ height % 2 ^ 32) nTransactions - first)).any
    fun p => vMatch.getD p false

/-- The bits and hashes that are pushed for a node and what is below it. -/
def traverseAndBuild (nTransactions : Nat) (vTxid : List Digest) (vMatch : List Bool) :
    (height pos : Nat) → List Bool × List Digest
  | 0, pos =>
    ([parentOfMatch nTransactions vMatch 0 pos], [calcHash blake zero nTransactions vTxid 0 pos])
  | height + 1, pos =>
    if parentOfMatch nTransactions vMatch (height + 1) pos then
      let left := traverseAndBuild nTransactions vTxid vMatch height (pos * 2)
      let right :=
        if pos * 2 + 1 < calcTreeWidth nTransactions height then
          traverseAndBuild nTransactions vTxid vMatch height (pos * 2 + 1)
        else ([], [])
      (true :: (left.1 ++ right.1), left.2 ++ right.2)
    else ([false], [calcHash blake zero nTransactions vTxid (height + 1) pos])

/-- `CPartialMerkleTree(vTxid, vMatch)`. -/
def buildTree (vTxid : List Digest) (vMatch : List Bool) : CPartialMerkleTree Digest :=
  let nTransactions := vTxid.length % 2 ^ 32
  let built := traverseAndBuild blake zero nTransactions vTxid vMatch (treeHeight nTransactions) 0
  { nTransactions := nTransactions, vBits := built.1, vHash := built.2, fBad := false }

structure Extraction (Digest : Type) where
  nBitsUsed : Nat
  nHashUsed : Nat
  vMatch : List Digest
  vnIndex : List Nat
  fBad : Bool

def useHash (tree : CPartialMerkleTree Digest) (isMatch : Bool) (pos : Nat)
    (state : Extraction Digest) : Digest × Extraction Digest :=
  match tree.vHash[state.nHashUsed]? with
  | none => (zero, { state with fBad := true })
  | some hash =>
    (hash,
      { state with
        nHashUsed := state.nHashUsed + 1
        vMatch := if isMatch then state.vMatch ++ [hash] else state.vMatch
        vnIndex := if isMatch then state.vnIndex ++ [pos] else state.vnIndex })

variable [DecidableEq Digest]

def traverseAndExtract (tree : CPartialMerkleTree Digest) :
    (height pos : Nat) → Extraction Digest → Digest × Extraction Digest
  | 0, pos, state =>
    match tree.vBits[state.nBitsUsed]? with
    | none => (zero, { state with fBad := true })
    | some fParentOfMatch =>
      useHash zero tree fParentOfMatch pos { state with nBitsUsed := state.nBitsUsed + 1 }
  | height + 1, pos, state =>
    match tree.vBits[state.nBitsUsed]? with
    | none => (zero, { state with fBad := true })
    | some false => useHash zero tree false pos { state with nBitsUsed := state.nBitsUsed + 1 }
    | some true =>
      let left := traverseAndExtract tree height (pos * 2)
        { state with nBitsUsed := state.nBitsUsed + 1 }
      if pos * 2 + 1 < calcTreeWidth tree.nTransactions height then
        let right := traverseAndExtract tree height (pos * 2 + 1) left.2
        (blake left.1 right.1, { right.2 with fBad := right.2.fBad || decide (right.1 = left.1) })
      else (blake left.1 left.1, left.2)

/-- The root, the matched txids and their positions; the root is zero on failure. -/
def extractMatches (tree : CPartialMerkleTree Digest) : Digest × List Digest × List Nat :=
  if tree.nTransactions = 0 then (zero, [], [])
  else if tree.nTransactions > Consensus.MAX_BLOCK_WEIGHT / MIN_TRANSACTION_WEIGHT then
    (zero, [], [])
  else if tree.vHash.length > tree.nTransactions then (zero, [], [])
  else if tree.vBits.length < tree.vHash.length then (zero, [], [])
  else
    let result := traverseAndExtract blake zero tree (treeHeight tree.nTransactions) 0
      { nBitsUsed := 0, nHashUsed := 0, vMatch := [], vnIndex := [], fBad := tree.fBad }
    let state := result.2
    if state.fBad then (zero, state.vMatch, state.vnIndex)
    else if (state.nBitsUsed + 7) / 8 ≠ (tree.vBits.length + 7) / 8 then
      (zero, state.vMatch, state.vnIndex)
    else if state.nHashUsed ≠ tree.vHash.length then (zero, state.vMatch, state.vnIndex)
    else (result.1, state.vMatch, state.vnIndex)

end Definitions

/-- How a digest is written and read. -/
structure DigestFormat (Digest : Type) where
  write : Digest → List UInt8
  read : Reader Digest
  reads : ∀ digest, Reads read (write digest) digest

def CPartialMerkleTree.serialize {Digest : Type} (format : DigestFormat Digest)
    (tree : CPartialMerkleTree Digest) : List UInt8 :=
  let bytes := bitsToBytes tree.vBits
  littleEndian 4 tree.nTransactions ++
    (writeCompactSize tree.vHash.length ++
      (tree.vHash.flatMap format.write ++ (writeCompactSize bytes.length ++ bytes)))

def CPartialMerkleTree.unserialize {Digest : Type} (format : DigestFormat Digest) :
    Reader (CPartialMerkleTree Digest) := do
  let nTransactions ← readLittleEndian 4
  let hashes ← readCompactSize
  let vHash ← readMany format.read hashes
  let size ← readCompactSize
  let bytes ← readBytes size
  pure { nTransactions := nTransactions, vBits := bytesToBits bytes, vHash := vHash, fBad := false }

theorem width_eq_div (leaves height : Nat) :
    width leaves height = (leaves + 2 ^ height - 1) / 2 ^ height := by
  induction height with
  | zero => rw [Nat.pow_zero, Nat.add_sub_cancel, Nat.div_one]; rfl
  | succ height ih =>
    have positive := Nat.two_pow_pos height
    change (width leaves height + 1) / 2 = _
    rw [ih, ← Nat.add_div_right _ positive, Nat.div_div_eq_div_mul]
    congr 1
    omega

variable {leaves height pos : Nat}

theorem lt_width_iff : pos < width leaves height ↔ pos * 2 ^ height < leaves := by
  have positive := Nat.two_pow_pos height
  rw [width_eq_div, Nat.lt_iff_add_one_le, Nat.le_div_iff_mul_le positive, Nat.succ_mul]
  omega

theorem calcTreeWidth_eq (small : leaves ≤ 2 ^ 31) (low : height ≤ 31) :
    calcTreeWidth leaves height = width leaves height := by
  have power : 2 ^ height ≤ 2 ^ 31 := Nat.pow_le_pow_right (by omega) low
  rw [calcTreeWidth, Nat.mod_eq_of_lt (by omega), width_eq_div]

theorem treeHeightLoop_isDepth (positive : 0 < leaves) (small : leaves ≤ 2 ^ 31) (fuel height : Nat)
    (total : height + fuel = 32) (low : height ≤ 31)
    (wider : ∀ below, below < height → 2 ≤ width leaves below) :
    IsDepth leaves (treeHeightLoop leaves fuel height) ∧
      treeHeightLoop leaves fuel height ≤ 31 := by
  induction fuel generalizing height with
  | zero => omega
  | succ fuel ih =>
    rw [treeHeightLoop, calcTreeWidth_eq small low]
    split
    next more =>
      have notTop : height ≠ 31 := by
        rintro rfl
        have top := width_le_pow small (Nat.le_refl 31)
        omega
      exact ih (height + 1) (by omega) (by omega) (Nat.forall_lt_succ_right.mpr ⟨wider, more⟩)
    next single =>
      have nonempty : 0 < width leaves height :=
        lt_width_iff.mpr (by rw [Nat.zero_mul]; exact positive)
      exact ⟨⟨by omega, wider⟩, low⟩

theorem treeHeight_isDepth (positive : 0 < leaves) (small : leaves ≤ 2 ^ 31) :
    IsDepth leaves (treeHeight leaves) ∧ treeHeight leaves ≤ 31 :=
  treeHeightLoop_isDepth positive small 32 0 rfl (by omega)
    fun _ below => absurd below (Nat.not_lt_zero _)

def leavesBelow (leaves height pos : Nat) : Nat :=
  min ((pos + 1) * 2 ^ height) leaves - pos * 2 ^ height

def matchedBelow (leaves : Nat) (vMatch : List Bool) (height pos : Nat) : List Nat :=
  (List.range' (pos * 2 ^ height) (leavesBelow leaves height pos)).filter
    fun p => vMatch.getD p false

theorem double_mul_pow (pos height : Nat) : pos * 2 * 2 ^ height = pos * 2 ^ (height + 1) := by
  rw [Nat.mul_assoc, Nat.pow_succ, Nat.mul_comm 2]

theorem leavesBelow_succ (leaves height pos : Nat) : leavesBelow leaves (height + 1) pos =
      leavesBelow leaves height (pos * 2) + leavesBelow leaves height (pos * 2 + 1) := by
  have left := double_mul_pow pos height
  unfold leavesBelow
  rw [Nat.succ_mul pos, Nat.succ_mul (pos * 2 + 1), Nat.succ_mul (pos * 2)]
  omega

theorem leavesBelow_of_le (outside : leaves ≤ pos * 2 ^ height) :
    leavesBelow leaves height pos = 0 := by
  rw [leavesBelow]
  omega

theorem matchedBelow_succ (leaves : Nat) (vMatch : List Bool) (height pos : Nat) :
    matchedBelow leaves vMatch (height + 1) pos =
      matchedBelow leaves vMatch height (pos * 2) ++
        matchedBelow leaves vMatch height (pos * 2 + 1) := by
  rw [matchedBelow, matchedBelow, matchedBelow, ← List.filter_append, leavesBelow_succ,
    ← double_mul_pow]
  by_cases full : (pos * 2 + 1) * 2 ^ height ≤ leaves
  · have count : leavesBelow leaves height (pos * 2) = 2 ^ height := by
      rw [leavesBelow, Nat.min_eq_left full, Nat.succ_mul, Nat.add_sub_cancel_left]
    rw [count, Nat.succ_mul (pos * 2), List.range'_append_1]
  · rw [leavesBelow_of_le (Nat.le_of_not_le full), Nat.add_zero, List.range'_zero, List.append_nil]

theorem matchedBelow_of_le (vMatch : List Bool) (outside : leaves ≤ pos * 2 ^ height) :
    matchedBelow leaves vMatch height pos = [] := by
  rw [matchedBelow, leavesBelow_of_le outside]
  rfl

theorem pos_succ_mul_lt (small : leaves ≤ 2 ^ 31) (low : height ≤ 31)
    (inside : pos < width leaves height) : (pos + 1) * 2 ^ height < 2 ^ 32 := by
  have power : 2 ^ height ≤ 2 ^ 31 := Nat.pow_le_pow_right (by omega) low
  have first := lt_width_iff.mp inside
  rw [Nat.succ_mul]
  omega

theorem parentOfMatch_eq (vMatch : List Bool) (small : leaves ≤ 2 ^ 31) (low : height ≤ 31)
    (inside : pos < width leaves height) :
    parentOfMatch leaves vMatch height pos = true ↔ matchedBelow leaves vMatch height pos ≠ [] := by
  have last := pos_succ_mul_lt small low inside
  have first : pos * 2 ^ height < 2 ^ 32 := by
    rw [Nat.succ_mul] at last
    exact Nat.lt_of_le_of_lt (Nat.le_add_right _ _) last
  rw [parentOfMatch, Nat.mod_eq_of_lt last, Nat.mod_eq_of_lt first, matchedBelow, leavesBelow,
    List.any_eq_true, ne_eq, List.filter_eq_nil_iff]
  simp only [not_forall, not_not, exists_prop]

section Build

variable {Digest : Type} {blake : Digest → Digest → Digest} {zero : Digest} {vTxid : List Digest}
  {vMatch : List Bool} {leaves : Nat}

theorem left_inside (inside : pos < width leaves (height + 1)) : pos * 2 < width leaves height := by
  rw [lt_width_iff, double_mul_pow]
  exact lt_width_iff.mp inside

theorem calcHash_eq (small : leaves ≤ 2 ^ 31) (height pos : Nat) (low : height ≤ 31)
    (inside : pos < width leaves height) : calcHash blake zero leaves vTxid height pos =
      node blake leaves (fun i => vTxid.getD i zero) height pos := by
  induction height generalizing pos with
  | zero => rfl
  | succ height ih =>
    have leftInside := left_inside inside
    rw [calcHash, node, calcTreeWidth_eq small (by omega), ih (pos * 2) (by omega) leftInside,
      Nat.mul_comm 2 pos]
    split
    next rightInside =>
      rw [ih (pos * 2 + 1) (by omega) rightInside,
        Nat.min_eq_left (Nat.le_sub_one_of_lt rightInside)]
    next last => rw [show min (pos * 2 + 1) (width leaves height - 1) = pos * 2 by omega]

theorem traverseAndBuild_hashes_le_bits (height pos : Nat) :
    (traverseAndBuild blake zero leaves vTxid vMatch height pos).2.length ≤
      (traverseAndBuild blake zero leaves vTxid vMatch height pos).1.length := by
  induction height generalizing pos with
  | zero => exact Nat.le_refl 1
  | succ height ih =>
    rw [traverseAndBuild]
    split
    · have left := ih (pos * 2)
      have right := ih (pos * 2 + 1)
      rw [List.length_append, List.length_cons, List.length_append]
      split
      · omega
      · rw [List.length_nil, List.length_nil]
        omega
    · exact Nat.le_refl 1

theorem leavesBelow_pos (inside : pos < width leaves height) :
    1 ≤ leavesBelow leaves height pos := by
  have first := lt_width_iff.mp inside
  have positive := Nat.two_pow_pos height
  rw [leavesBelow, Nat.succ_mul]
  omega

theorem traverseAndBuild_le (small : leaves ≤ 2 ^ 31) (height pos : Nat) (low : height ≤ 31)
    (inside : pos < width leaves height) :
    (traverseAndBuild blake zero leaves vTxid vMatch height pos).2.length ≤
        leavesBelow leaves height pos ∧
      (traverseAndBuild blake zero leaves vTxid vMatch height pos).1.length ≤
        (height + 1) * leavesBelow leaves height pos := by
  have some := leavesBelow_pos inside
  induction height generalizing pos with
  | zero =>
    rw [Nat.one_mul]
    exact ⟨some, some⟩
  | succ height ih =>
    have halves := leavesBelow_succ leaves height pos
    have product := congrArg ((height + 1) * ·) halves
    rw [Nat.succ_mul, traverseAndBuild, calcTreeWidth_eq small (by omega)]
    rw [Nat.mul_add] at product
    split
    · have leftInside := left_inside inside
      have left := ih (pos * 2) (by omega) leftInside (leavesBelow_pos leftInside)
      dsimp only
      rw [List.length_append, List.length_cons, List.length_append]
      split
      next rightInside =>
        have right := ih (pos * 2 + 1) (by omega) rightInside (leavesBelow_pos rightInside)
        omega
      · rw [List.length_nil, List.length_nil]
        omega
    · rw [List.length_singleton, List.length_singleton]
      omega

end Build

/-! ### Extraction of what was built -/

section Extract

variable {Digest : Type} {blake : Digest → Digest → Digest} {zero : Digest}
  {vTxid : List Digest} {vMatch : List Bool} {leaves : Nat}

def SiblingsDiffer (blake : Digest → Digest → Digest) (zero : Digest)
    (vTxid : List Digest) : Prop :=
  ∀ height pos, pos * 2 + 1 < width vTxid.length height →
    node blake vTxid.length (fun i => vTxid.getD i zero) height (pos * 2) ≠
      node blake vTxid.length (fun i => vTxid.getD i zero) height (pos * 2 + 1)

private theorem isPrefix_drop_append {α : Type} {first second list : List α} {start : Nat}
    (whole : first ++ second <+: list.drop start) :
    first <+: list.drop start ∧ second <+: list.drop (start + first.length) := by
  obtain ⟨rest, same⟩ := whole
  rw [List.append_assoc] at same
  refine ⟨⟨second ++ rest, same⟩, rest, ?_⟩
  rw [← List.drop_drop, ← same, List.drop_left]

private theorem getElem?_of_isPrefix_drop {α : Type} {item : α} {rest list : List α} {start : Nat}
    (starts : item :: rest <+: list.drop start) : list[start]? = some item := by
  obtain ⟨more, same⟩ := starts
  have first : (list.drop start)[0]? = some item := by
    rw [← same]
    rfl
  rw [List.getElem?_drop] at first
  exact first

/-- What an extraction of everything below a node adds to its state. -/
def Extraction.below (vTxid : List Digest) (zero : Digest) (state : Extraction Digest)
    (built : List Bool × List Digest) (positions : List Nat) : Extraction Digest :=
  { nBitsUsed := state.nBitsUsed + built.1.length
    nHashUsed := state.nHashUsed + built.2.length
    vMatch := state.vMatch ++ positions.map fun p => vTxid.getD p zero
    vnIndex := state.vnIndex ++ positions
    fBad := state.fBad }

variable (state : Extraction Digest)

theorem Extraction.below_nil (built : List Bool × List Digest) :
    state.below vTxid zero built [] =
      { state with
        nBitsUsed := state.nBitsUsed + built.1.length
        nHashUsed := state.nHashUsed + built.2.length } := by
  rw [Extraction.below, List.map_nil, List.append_nil, List.append_nil]

theorem Extraction.below_below (first second : List Bool × List Digest)
    (positions more : List Nat) :
    (state.below vTxid zero first positions).below vTxid zero second more =
      state.below vTxid zero (first.1 ++ second.1, first.2 ++ second.2) (positions ++ more) := by
  simp only [Extraction.below, List.length_append, List.map_append, List.append_assoc,
    Nat.add_assoc]

theorem Extraction.below_flag (bits : List Bool) (hashes : List Digest) (positions : List Nat) :
    Extraction.below vTxid zero { state with nBitsUsed := state.nBitsUsed + 1 } (bits, hashes)
        positions =
      state.below vTxid zero (true :: bits, hashes) positions := by
  simp only [Extraction.below, List.length_cons, Nat.add_assoc, Nat.add_comm 1]

theorem matchedBelow_zero (inside : pos < leaves) :
    matchedBelow leaves vMatch 0 pos = if vMatch.getD pos false then [pos] else [] := by
  have single : leavesBelow leaves 0 pos = 1 := by
    rw [leavesBelow]
    omega
  rw [matchedBelow, single, Nat.pow_zero, Nat.mul_one]
  exact List.filter_cons

def matchedPositions (vTxid : List Digest) (vMatch : List Bool) : List Nat :=
  (List.range vTxid.length).filter fun p => vMatch.getD p false

theorem matchedBelow_root (isDepth : IsDepth vTxid.length height) :
    matchedBelow vTxid.length vMatch height 0 = matchedPositions vTxid vMatch := by
  have all : vTxid.length ≤ 2 ^ height := by
    have outside : ¬ 1 < width vTxid.length height := by
      rw [isDepth.single]
      exact Nat.lt_irrefl 1
    rw [lt_width_iff, Nat.one_mul] at outside
    exact Nat.le_of_not_lt outside
  have count : leavesBelow vTxid.length height 0 = vTxid.length := by
    rw [leavesBelow, Nat.zero_mul, Nat.one_mul, Nat.min_eq_right all, Nat.sub_zero]
  rw [matchedBelow, count, Nat.zero_mul, ← List.range_eq_range']
  rfl

theorem buildTree_eq (small : vTxid.length ≤ 2 ^ 31) : buildTree blake zero vTxid vMatch =
      { nTransactions := vTxid.length
        vBits := (traverseAndBuild blake zero vTxid.length vTxid vMatch
          (treeHeight vTxid.length) 0).1
        vHash := (traverseAndBuild blake zero vTxid.length vTxid vMatch
          (treeHeight vTxid.length) 0).2
        fBad := false } := by
  have wide : vTxid.length % 2 ^ 32 = vTxid.length := Nat.mod_eq_of_lt (by omega)
  rw [buildTree, wide]

theorem buildTree_sizes (nonempty : 0 < vTxid.length) (small : vTxid.length ≤ 2 ^ 31) :
    (buildTree blake zero vTxid vMatch).vHash.length ≤ vTxid.length ∧
      (buildTree blake zero vTxid vMatch).vBits.length ≤ 32 * vTxid.length := by
  obtain ⟨isDepth, low⟩ := treeHeight_isDepth nonempty small
  have top : 0 < width vTxid.length (treeHeight vTxid.length) := by
    rw [isDepth.single]
    exact Nat.one_pos
  have below : leavesBelow vTxid.length (treeHeight vTxid.length) 0 ≤ vTxid.length := by
    rw [leavesBelow]
    omega
  have sizes := @traverseAndBuild_le _ blake zero vTxid vMatch _ small _ 0 low top
  rw [buildTree_eq small]
  exact ⟨sizes.1.trans below, sizes.2.trans (Nat.mul_le_mul (by omega) below)⟩

/-- No other pair hashes to an inner node of the block's tree. -/
def Unforged (blake : Digest → Digest → Digest) (zero : Digest) (vTxid : List Digest) : Prop :=
  ∀ left right, HashedPair blake vTxid.length (fun i => vTxid.getD i zero) left right →
    ∀ other other', blake other other' = blake left right → other = left ∧ other' = right

variable [DecidableEq Digest]

section

variable {tree : CPartialMerkleTree Digest} (transactions : tree.nTransactions = vTxid.length)

include transactions

theorem traverseAndExtract_built (small : vTxid.length ≤ 2 ^ 31)
    (differ : SiblingsDiffer blake zero vTxid) (height pos : Nat) (low : height ≤ 31)
    (inside : pos < width vTxid.length height) {state : Extraction Digest}
    (bits : (traverseAndBuild blake zero vTxid.length vTxid vMatch height pos).1 <+:
      tree.vBits.drop state.nBitsUsed)
    (hashes : (traverseAndBuild blake zero vTxid.length vTxid vMatch height pos).2 <+:
      tree.vHash.drop state.nHashUsed) :
    traverseAndExtract blake zero tree height pos state =
      (node blake vTxid.length (fun i => vTxid.getD i zero) height pos,
        state.below vTxid zero (traverseAndBuild blake zero vTxid.length vTxid vMatch height pos)
          (matchedBelow vTxid.length vMatch height pos)) := by
  induction height generalizing pos state with
  | zero =>
    have single : matchedBelow vTxid.length vMatch 0 pos =
        if vMatch.getD pos false then [pos] else [] := matchedBelow_zero inside
    have isMatch : parentOfMatch vTxid.length vMatch 0 pos = vMatch.getD pos false := by
      rw [Bool.eq_iff_iff, parentOfMatch_eq vMatch small low inside, single]
      cases vMatch.getD pos false with
      | false => simp only [Bool.false_eq_true, if_false, ne_eq, not_true_eq_false]
      | true => simp only [if_true, ne_eq, List.cons_ne_nil, not_false_eq_true]
    rw [traverseAndExtract, getElem?_of_isPrefix_drop bits]
    dsimp only [useHash]
    rw [getElem?_of_isPrefix_drop hashes, single, isMatch]
    cases vMatch.getD pos false with
    | false =>
      rw [if_neg Bool.false_ne_true, if_neg Bool.false_ne_true, Extraction.below_nil]
      rfl
    | true => rfl
  | succ height ih =>
    have isMatch := parentOfMatch_eq vMatch small low inside
    by_cases matched : parentOfMatch vTxid.length vMatch (height + 1) pos = true
    · have leftInside := left_inside inside
      have widthEq := calcTreeWidth_eq small (show height ≤ 31 by omega)
      rw [traverseAndBuild, if_pos matched, widthEq] at bits hashes ⊢
      rw [traverseAndExtract, getElem?_of_isPrefix_drop bits, transactions, widthEq,
        matchedBelow_succ]
      dsimp only
      have flag : [true] ++ _ <+: tree.vBits.drop state.nBitsUsed := bits
      have leftBits := isPrefix_drop_append (isPrefix_drop_append flag).2
      have leftHashes := isPrefix_drop_append hashes
      -- the children are read from where the flag of this node ends
      have left := @ih (pos * 2) (by omega) leftInside
        { state with nBitsUsed := state.nBitsUsed + 1 } leftBits.1 leftHashes.1
      rw [left, node, Nat.mul_comm 2 pos]
      by_cases rightInside : pos * 2 + 1 < width vTxid.length height
      · rw [if_pos rightInside] at leftBits leftHashes ⊢
        rw [if_pos rightInside]
        have right := @ih (pos * 2 + 1) (by omega) rightInside
          (Extraction.below vTxid zero { state with nBitsUsed := state.nBitsUsed + 1 }
            (traverseAndBuild blake zero vTxid.length vTxid vMatch height (pos * 2))
            (matchedBelow vTxid.length vMatch height (pos * 2))) leftBits.2 leftHashes.2
        rw [right, Nat.min_eq_left (Nat.le_sub_one_of_lt rightInside)]
        have apart := differ height pos rightInside
        dsimp only
        rw [decide_eq_false apart.symm, Bool.or_false, Extraction.below_below,
          Extraction.below_flag]
      · have last : matchedBelow vTxid.length vMatch height (pos * 2 + 1) = [] :=
          matchedBelow_of_le vMatch (Nat.le_of_not_lt fun less =>
            rightInside (lt_width_iff.mpr less))
        have clipped : min (pos * 2 + 1) (width vTxid.length height - 1) = pos * 2 := by omega
        rw [if_neg rightInside, if_neg rightInside, last, clipped]
        rw [List.append_nil, List.append_nil, List.append_nil, ← Extraction.below_flag]
    · have nothing : matchedBelow vTxid.length vMatch (height + 1) pos = [] :=
        not_not.mp fun some => matched (isMatch.mpr some)
      rw [traverseAndBuild, if_neg matched] at bits hashes ⊢
      rw [traverseAndExtract, getElem?_of_isPrefix_drop bits]
      dsimp only [useHash]
      rw [getElem?_of_isPrefix_drop hashes, nothing, calcHash_eq small _ pos low inside,
        Extraction.below_nil]
      rfl

theorem extractMatches_built (hashes : tree.vHash = (buildTree blake zero vTxid vMatch).vHash)
    (bits : (buildTree blake zero vTxid vMatch).vBits <+: tree.vBits)
    (padding : ((buildTree blake zero vTxid vMatch).vBits.length + 7) / 8 =
      (tree.vBits.length + 7) / 8)
    (good : tree.fBad = false) (nonempty : 0 < vTxid.length)
    (few : vTxid.length ≤ Consensus.MAX_BLOCK_WEIGHT / MIN_TRANSACTION_WEIGHT)
    (differ : SiblingsDiffer blake zero vTxid) : extractMatches blake zero tree =
      (blockMerkleRoot blake zero vTxid,
        (matchedPositions vTxid vMatch).map fun p => vTxid.getD p zero,
        matchedPositions vTxid vMatch) := by
  have fits : vTxid.length < 2 ^ 31 := few.trans_lt (by decide)
  obtain ⟨isDepth, low⟩ := treeHeight_isDepth nonempty fits.le
  obtain ⟨depth, isRootDepth, root⟩ := computeMerkleRoot_eq blake zero vTxid nonempty
  have top : 0 < width vTxid.length (treeHeight vTxid.length) := by
    rw [isDepth.single]
    exact Nat.one_pos
  have fewHashes : tree.vHash.length ≤ vTxid.length := by
    rw [hashes]
    exact (buildTree_sizes nonempty fits.le).1
  rw [buildTree_eq fits.le] at hashes bits padding
  have enoughBits : tree.vHash.length ≤ tree.vBits.length := by
    rw [hashes]
    exact (traverseAndBuild_hashes_le_bits _ 0).trans bits.length_le
  have allHashes : (traverseAndBuild blake zero vTxid.length vTxid vMatch
      (treeHeight vTxid.length) 0).2 <+: tree.vHash := by
    rw [hashes]
  have extracted : traverseAndExtract blake zero tree (treeHeight vTxid.length) 0
      { nBitsUsed := 0, nHashUsed := 0, vMatch := [], vnIndex := [], fBad := tree.fBad } = _ :=
    traverseAndExtract_built transactions fits.le differ _ 0 low top bits allHashes
  unfold extractMatches
  rw [transactions, if_neg (by omega), if_neg (by omega), if_neg (by omega), if_neg (by omega),
    extracted, matchedBelow_root isDepth]
  dsimp only [Extraction.below]
  rw [good, Nat.zero_add, Nat.zero_add, hashes, if_neg (not_not.mpr padding),
    if_neg (not_not.mpr rfl), blockMerkleRoot, root, isDepth.unique isRootDepth]
  rfl

/-- A traversal that ends in a node of the block's tree has found transactions below the node. -/
theorem traverseAndExtract_sound (unforged : Unforged blake zero vTxid)
    (small : vTxid.length ≤ 2 ^ 31) (height pos : Nat) (low : height ≤ 31)
    (wide : ∀ level, level < height → 2 ≤ width vTxid.length level)
    (inside : pos < width vTxid.length height) (state : Extraction Digest) :
    (traverseAndExtract blake zero tree height pos state).2.fBad = false →
    (traverseAndExtract blake zero tree height pos state).1 =
      node blake vTxid.length (fun i => vTxid.getD i zero) height pos →
    ∃ built positions, (traverseAndExtract blake zero tree height pos state).2 =
        state.below vTxid zero built positions ∧
      positions.Sublist
        (matchedBelow vTxid.length (List.replicate vTxid.length true) height pos) := by
  induction height generalizing pos state with
  | zero =>
    change pos < vTxid.length at inside
    rw [matchedBelow_zero inside]
    unfold traverseAndExtract useHash
    split
    · simp
    next bit _ =>
      split
      · simp
      next hash _ =>
        intro _ same
        change hash = vTxid.getD pos zero at same
        refine ⟨([bit], [hash]), if bit then [pos] else [], ?_⟩
        cases bit <;> simp [Extraction.below, same, inside]
  | succ height ih =>
    rw [matchedBelow_succ]
    unfold traverseAndExtract useHash
    split
    · simp
    · split
      · simp
      next hash _ =>
        exact fun _ _ => ⟨([false], [hash]), [], by simp [Extraction.below]⟩
    rw [transactions, calcTreeWidth_eq small (by omega), node]
    have here := Nat.lt_succ_self height
    have apart := unforged _ _ ⟨height, pos, wide height here, inside, rfl, rfl⟩
    have below := fun level less => wide level (Nat.lt_trans less here)
    rw [Nat.mul_comm 2 pos] at apart ⊢
    dsimp only
    have left := ih (pos * 2) (by omega) below (left_inside inside)
      { state with nBitsUsed := state.nBitsUsed + 1 }
    split
    case isTrue rightInside =>
      intro good same
      rw [Bool.or_eq_false_iff] at good
      obtain ⟨isLeft, isRight⟩ := apart _ _ same
      rw [Nat.min_eq_left (by omega)] at isRight
      -- the right half keeps the flag of the left one, so that was good as well
      obtain ⟨rightBuilt, right, rightFound, rightBelow⟩ :=
        ih (pos * 2 + 1) (by omega) below rightInside _ good.1 isRight
      rw [rightFound] at good
      obtain ⟨leftBuilt, first, leftFound, leftBelow⟩ := left good.1 isLeft
      dsimp only
      rw [good.2, rightFound, leftFound, Bool.or_false, Extraction.below_below,
        Extraction.below_flag]
      exact ⟨_, first ++ right, rfl, leftBelow.append rightBelow⟩
    case isFalse last =>
      intro good same
      obtain ⟨built, positions, found, below⟩ := left good (apart _ _ same).1
      rw [found, Extraction.below_flag]
      exact ⟨_, positions, rfl, below.trans (List.sublist_append_left _ _)⟩

/-- Whatever a partial tree holds: if it has the number of transactions of a block and leads to
the root of their tree, it proves transactions of the block, each once and with its position. -/
theorem extractMatches_sound (unforged : Unforged blake zero vTxid) {matches_ : List Digest}
    {positions : List Nat} (nonzero : blockMerkleRoot blake zero vTxid ≠ zero)
    (extracted : extractMatches blake zero tree =
      (blockMerkleRoot blake zero vTxid, matches_, positions)) :
    matches_ = positions.map (vTxid.getD · zero) ∧
      positions.Sublist (List.range vTxid.length) := by
  unfold extractMatches at extracted
  dsimp only at extracted
  split_ifs at extracted with none many _ _ bad
  case neg =>
    have fits : vTxid.length ≤ 16666 := by
      rw [← transactions]
      exact Nat.le_of_not_lt many
    rw [transactions] at extracted none bad
    have positive := Nat.pos_of_ne_zero none
    obtain ⟨isDepth, low⟩ := treeHeight_isDepth positive (by omega)
    obtain ⟨depth, isRootDepth, root⟩ := computeMerkleRoot_eq blake zero vTxid positive
    rw [blockMerkleRoot, root, isRootDepth.unique isDepth] at extracted
    obtain ⟨same, found⟩ := Prod.mk.inj extracted
    obtain ⟨built, chosen, isState, below⟩ := traverseAndExtract_sound transactions unforged
      (by omega) _ 0 low isDepth.wider (isDepth.single ▸ Nat.one_pos) _ (eq_false_of_ne_true bad)
      same
    rw [isState] at found
    cases found
    rw [matchedBelow_root isDepth] at below
    exact ⟨rfl, below.trans List.filter_sublist⟩
  all_goals exact absurd (Prod.mk.inj extracted).1.symm nonzero

end

theorem extractMatches_root (tree : CPartialMerkleTree Digest) :
    (extractMatches blake zero tree).1 = zero ∨
      (extractMatches blake zero tree).1 =
        (traverseAndExtract blake zero tree (treeHeight tree.nTransactions) 0
          { nBitsUsed := 0, nHashUsed := 0, vMatch := [], vnIndex := [],
            fBad := tree.fBad }).1 := by
  unfold extractMatches
  iterate 4
    split
    · exact .inl rfl
  dsimp only
  iterate 3
    split
    · exact .inl rfl
  exact .inr rfl

theorem extractMatches_buildTree_root (several : 2 ≤ vTxid.length) (small : vTxid.length ≤ 2 ^ 31) :
    (extractMatches blake zero (buildTree blake zero vTxid vMatch)).1 = zero ∨
      ∃ left right, (extractMatches blake zero (buildTree blake zero vTxid vMatch)).1 =
        blake left right := by
  obtain ⟨isDepth, _⟩ := treeHeight_isDepth (by omega) small
  obtain ⟨height, isHeight⟩ : ∃ height, treeHeight vTxid.length = height + 1 := by
    refine Nat.exists_eq_succ_of_ne_zero ?_
    intro isZero
    have single := isDepth.single
    rw [isZero] at single
    change vTxid.length = 1 at single
    omega
  refine (extractMatches_root _).imp_right ?_
  intro extracted
  rw [extracted, buildTree_eq small]
  rw [isHeight, traverseAndExtract, traverseAndBuild]
  by_cases matched : parentOfMatch vTxid.length vMatch (height + 1) 0 = true
  · rw [if_pos matched]
    dsimp only [List.getElem?_cons_zero]
    split
    · exact ⟨_, _, rfl⟩
    · exact ⟨_, _, rfl⟩
  · rw [if_neg matched]
    exact ⟨_, _, rfl⟩

end Extract

private theorem testBit_packed : ∀ (b0 b1 b2 b3 b4 b5 b6 b7 : Bool) (j : Fin 8),
    decide (([(0, b0), (1, b1), (2, b2), (3, b3), (4, b4), (5, b5), (6, b6), (7, b7)].foldl
      (fun (byte : UInt8) (item : Nat × Bool) =>
        byte ||| if item.2 then 1 <<< UInt8.ofNat item.1 else 0) 0) &&& 1 <<< UInt8.ofNat j ≠ 0) =
      [b0, b1, b2, b3, b4, b5, b6, b7].get j := by
  decide +kernel

variable (bits : List Bool)

theorem testBit_packByte (index : Nat) {j : Nat} (inside : j < 8) :
    decide (packByte bits index &&& 1 <<< UInt8.ofNat j ≠ 0) = bits.getD (8 * index + j) false := by
  have packed := testBit_packed (bits.getD (8 * index + 0) false) (bits.getD (8 * index + 1) false)
    (bits.getD (8 * index + 2) false) (bits.getD (8 * index + 3) false)
    (bits.getD (8 * index + 4) false) (bits.getD (8 * index + 5) false)
    (bits.getD (8 * index + 6) false) (bits.getD (8 * index + 7) false) ⟨j, inside⟩
  interval_cases j <;> exact packed

theorem bitsToBytes_length : (bitsToBytes bits).length = (bits.length + 7) / 8 := by
  rw [bitsToBytes, List.length_map, List.length_range]

private theorem bytesToBits_bitsToBytes_length :
    (bytesToBits (bitsToBytes bits)).length = (bits.length + 7) / 8 * 8 := by
  rw [bytesToBits, List.length_map, List.length_range, bitsToBytes_length]

theorem bits_isPrefix : bits <+: bytesToBits (bitsToBytes bits) := by
  rw [List.prefix_iff_getElem?]
  intro p inside
  have room : p < (bits.length + 7) / 8 * 8 := by omega
  have position : 8 * (p / 8) + p % 8 = p := Nat.div_add_mod p 8
  have byte : (bitsToBytes bits).getD (p / 8) 0 = packByte bits (p / 8) := by
    rw [bitsToBytes, List.getD_eq_getElem?_getD, List.getElem?_map, List.getElem?_range (by omega)]
    rfl
  rw [bytesToBits, bitsToBytes_length, List.getElem?_map, List.getElem?_range room, Option.map_some,
    byte, testBit_packByte bits (p / 8) (Nat.mod_lt p (by omega)), position,
    List.getD_eq_getElem?_getD, List.getElem?_eq_getElem inside]
  rfl

theorem reads_unserialize {Digest : Type} (format : DigestFormat Digest)
    (tree : CPartialMerkleTree Digest) (transactions : tree.nTransactions < 2 ^ 32)
    (hashes : tree.vHash.length ≤ MAX_SIZE) (bits : (tree.vBits.length + 7) / 8 ≤ MAX_SIZE) :
    Reads (CPartialMerkleTree.unserialize format) (tree.serialize format)
      { tree with vBits := bytesToBits (bitsToBytes tree.vBits), fBad := false } := by
  have readBits : Reads (readBytes (bitsToBytes tree.vBits).length >>= fun bytes =>
      pure ({ nTransactions := tree.nTransactions, vBits := bytesToBits bytes,
              vHash := tree.vHash, fBad := false } : CPartialMerkleTree Digest))
      (bitsToBytes tree.vBits)
      { tree with vBits := bytesToBits (bitsToBytes tree.vBits), fBad := false } :=
    (reads_bytes rfl).map _
  rw [← bitsToBytes_length] at bits
  exact (reads_littleEndian 4 _ transactions).bind ((reads_compactSize hashes).bind
    ((reads_many tree.vHash fun digest _ => format.reads digest).bind
      ((reads_compactSize bits).bind readBits)))

/-! ### The block's root -/

section Block

variable {Digest : Type} [DecidableEq Digest] (sha blake : Digest → Digest → Digest) (zero : Digest)
  (format : DigestFormat Digest) (vTxid : List Digest) (vMatch : List Bool)

def Returns (root : Digest) (tree : CPartialMerkleTree Digest) : Prop :=
  extractMatches blake zero tree =
    (root, (matchedPositions vTxid vMatch).map fun p => vTxid.getD p zero,
      matchedPositions vTxid vMatch)

/-- The same for the built tree and for the tree that is read back from its bytes. -/
def ReturnsAlsoRead (root : Digest) : Prop :=
  Returns blake zero vTxid vMatch root (buildTree blake zero vTxid vMatch) ∧
    ∃ tree, CPartialMerkleTree.unserialize format
        ((buildTree blake zero vTxid vMatch).serialize format) = some (tree, []) ∧
      Returns blake zero vTxid vMatch root tree

omit [DecidableEq Digest] in
theorem node_injective {blake : Digest → Digest → Digest} (injective : Function.Injective2 blake)
    (distinct : vTxid.Nodup) (height : Nat) {first second : Nat}
    (firstInside : first < width vTxid.length height)
    (secondInside : second < width vTxid.length height)
    (same : node blake vTxid.length (fun i => vTxid.getD i zero) height first =
      node blake vTxid.length (fun i => vTxid.getD i zero) height second) : first = second := by
  induction height generalizing first second with
  | zero =>
    change vTxid.getD first zero = vTxid.getD second zero at same
    rw [List.getD_eq_getElem _ _ firstInside, List.getD_eq_getElem _ _ secondInside] at same
    exact (List.Nodup.getElem_inj_iff distinct).mp same
  | succ height ih =>
    have lefts := (injective same).1
    rw [Nat.mul_comm 2 first, Nat.mul_comm 2 second] at lefts
    have := ih (left_inside firstInside) (left_inside secondInside) lefts
    omega

omit [DecidableEq Digest] in
theorem siblingsDiffer_of_nodup {blake : Digest → Digest → Digest}
    (injective : Function.Injective2 blake) (distinct : vTxid.Nodup) :
    SiblingsDiffer blake zero vTxid := by
  intro height pos inside same
  have := node_injective zero vTxid injective distinct height (by omega) inside same
  omega

theorem returnsAlsoRead_same (nonempty : 0 < vTxid.length)
    (few : vTxid.length ≤ Consensus.MAX_BLOCK_WEIGHT / MIN_TRANSACTION_WEIGHT)
    (differ : SiblingsDiffer blake zero vTxid) :
    ReturnsAlsoRead blake zero format vTxid vMatch (blockMerkleRoot blake zero vTxid) := by
  have bound : vTxid.length ≤ 16666 := few
  have transactions : (buildTree blake zero vTxid vMatch).nTransactions = vTxid.length :=
    Nat.mod_eq_of_lt (by omega)
  have sizes := @buildTree_sizes _ blake zero vTxid vMatch nonempty (by omega)
  have hashes : (buildTree blake zero vTxid vMatch).vHash.length ≤ MAX_SIZE := by
    rw [MAX_SIZE]
    omega
  have bits : ((buildTree blake zero vTxid vMatch).vBits.length + 7) / 8 ≤ MAX_SIZE := by
    rw [MAX_SIZE]
    omega
  have built := extractMatches_built transactions rfl
    (List.prefix_refl _) rfl rfl nonempty few differ
  have read := reads_unserialize format (buildTree blake zero vTxid vMatch)
    (by omega) hashes bits []
  rw [List.append_nil] at read
  have padding := bytesToBits_bitsToBytes_length (buildTree blake zero vTxid vMatch).vBits
  refine ⟨built, _, read, extractMatches_built transactions rfl (bits_isPrefix _) ?_ rfl nonempty
    few differ⟩
  dsimp only
  omega

/-- The block's root is returned exactly in a block with one transaction: `sha` and `blake`
share no value, and `sha` does not give the zero that stands for a failure. With `blake` for
both, the tree gives back the root, the matched txids and their positions. -/
theorem extractMatches_root_iff (distinct : vTxid.Nodup) (nonempty : 0 < vTxid.length)
    (small : vTxid.length ≤ 2 ^ 31) (unrelated : ∀ a b c d, sha a b ≠ blake c d)
    (nonzero : ∀ a b, sha a b ≠ zero) : (Function.Injective2 blake →
      vTxid.length ≤ Consensus.MAX_BLOCK_WEIGHT / MIN_TRANSACTION_WEIGHT →
        ReturnsAlsoRead blake zero format vTxid vMatch (blockMerkleRoot blake zero vTxid)) ∧
      (ReturnsAlsoRead blake zero format vTxid vMatch (blockMerkleRoot sha zero vTxid) ↔
        vTxid.length = 1) := by
  refine ⟨fun injective few => returnsAlsoRead_same blake zero format vTxid vMatch nonempty few
    (siblingsDiffer_of_nodup zero vTxid injective distinct), ?_⟩
  obtain ⟨depth, isDepth, root⟩ := computeMerkleRoot_eq sha zero vTxid nonempty
  constructor
  · rintro ⟨returned, _⟩
    have returnedRoot : (extractMatches blake zero (buildTree blake zero vTxid vMatch)).1 =
        blockMerkleRoot sha zero vTxid := congrArg Prod.fst returned
    cases depth with
    | zero => exact isDepth.single
    | succ depth =>
      have several : 2 ≤ vTxid.length := isDepth.wider 0 (Nat.succ_pos depth)
      rw [blockMerkleRoot, root] at returnedRoot
      rcases extractMatches_buildTree_root several small with failed | ⟨left, right, compressed⟩
      · exact absurd (returnedRoot.symm.trans failed) (nonzero _ _)
      · exact absurd (returnedRoot.symm.trans compressed) (unrelated _ _ _ _)
  · intro single
    have differ : SiblingsDiffer blake zero vTxid := by
      intro height pos inside
      have first := lt_width_iff.mp inside
      have positive := Nat.two_pow_pos height
      rw [Nat.succ_mul] at first
      omega
    have bottom : IsDepth vTxid.length 0 :=
      ⟨single, fun _ below => absurd below (Nat.not_lt_zero _)⟩
    obtain ⟨depth', isDepth', root'⟩ := computeMerkleRoot_eq blake zero vTxid nonempty
    have same : blockMerkleRoot sha zero vTxid = blockMerkleRoot blake zero vTxid := by
      rw [blockMerkleRoot, blockMerkleRoot, root, root', isDepth.unique bottom,
        isDepth'.unique bottom]
      rfl
    rw [same]
    refine returnsAlsoRead_same blake zero format vTxid vMatch nonempty ?_ differ
    rw [single]
    decide

end Block

def readUnary : Reader Nat
  | [] => none
  | byte :: rest => if byte = 0 then some (0, rest) else (readUnary rest).map fun (n, left) =>
    (n + 1, left)

theorem reads_unary (n : Nat) : Reads readUnary (List.replicate n 1 ++ [0]) n := by
  induction n with
  | zero => exact fun _ => rfl
  | succ n ih =>
    intro rest
    rw [List.replicate_succ, List.cons_append, List.cons_append, readUnary, ih]
    rfl

def unaryFormat : DigestFormat Nat where
  write n := List.replicate n 1 ++ [0]
  read := readUnary
  reads := reads_unary

/-- Digests as numbers: txids are divisible by three, and each compression has a residue of
its own. -/
def pairedSha (left right : Nat) : Nat := 3 * Nat.pair left right + 1

def pairedBlake (left right : Nat) : Nat := 3 * Nat.pair left right + 2

theorem extractMatches_root_pair : ReturnsAlsoRead pairedBlake 0 unaryFormat [3, 6] [true, false]
        (blockMerkleRoot pairedBlake 0 [3, 6]) ∧
      ReturnsAlsoRead pairedBlake 0 unaryFormat [3] [true] (blockMerkleRoot pairedSha 0 [3]) := by
  have unrelated : ∀ a b c d, pairedSha a b ≠ pairedBlake c d := by
    intro a b c d same
    unfold pairedSha pairedBlake at same
    omega
  have nonzero : ∀ a b, pairedSha a b ≠ 0 := fun _ _ => Nat.succ_ne_zero _
  have injective : Function.Injective2 pairedBlake := by
    intro a b c d same
    unfold pairedBlake at same
    exact Nat.pair_eq_pair.mp (by omega)
  exact ⟨(extractMatches_root_iff pairedSha pairedBlake 0 unaryFormat [3, 6] [true, false]
      (by decide) (by decide) (by decide) unrelated nonzero).1 injective (by decide),
    (extractMatches_root_iff pairedSha pairedBlake 0 unaryFormat [3] [true]
      (by decide) (by decide) (by decide) unrelated nonzero).2.mpr rfl⟩

theorem extractMatches_sound_pair :
    extractMatches pairedBlake 0 ⟨2, [true, true, false, true], [3, 6], false⟩ =
        (blockMerkleRoot pairedBlake 0 [3, 6], [3], [0]) ∧
      [3] = [0].map ([3, 6].getD · 0) ∧ [0].Sublist (List.range 2) := by
  have unforged : Unforged pairedBlake 0 [3, 6] := by
    intro left right _ other other' same
    unfold pairedBlake at same
    exact Nat.pair_eq_pair.mp (by omega)
  have extracted : extractMatches pairedBlake 0 ⟨2, [true, true, false, true], [3, 6], false⟩ =
      (blockMerkleRoot pairedBlake 0 [3, 6], [3], [0]) := by decide +kernel
  exact ⟨extracted, extractMatches_sound rfl unforged (by decide +kernel) extracted⟩

/-- Two transactions, the first matched: the txid and its position come back, with another root. -/
theorem extractMatches_root_differs :
    extractMatches pairedBlake 0 (buildTree pairedBlake 0 [3, 6] [true, false]) =
        (pairedBlake 3 6, [3], [0]) ∧
      blockMerkleRoot pairedSha 0 [3, 6] = pairedSha 3 6 ∧ pairedBlake 3 6 ≠ pairedSha 3 6 := by
  decide +kernel

end Adonai.Merkle
