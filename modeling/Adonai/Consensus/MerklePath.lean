/-
The branch computed from the stack of subtree hashes, folded with its own compression.

The branch only grows. A leaf that is matched waits at level 0 while it is the last of an odd number
of leaves; the next leaf, or the final sweep over more than one leaf, records its first sibling. So
the branch of one leaf among several is never empty, and it folds to a compression.
-/

import Adonai.Consensus.Merkle

namespace Adonai.Merkle

open MerkleTree

variable {Digest : Type} [DecidableEq Digest] {blake : Digest → Digest → Digest}

section Path

variable {inner : Nat → Digest} {matchlevel : Int} {carry last : Carry Digest}

theorem carryLoop_path {count fuel : Nat} {track : Bool}
    (runs : carryLoop blake count inner matchlevel track fuel carry = some last) :
    carry.path <+: last.path := by
  induction fuel generalizing carry with
  | zero => cases runs
  | succ fuel ih =>
    rw [carryLoop] at runs
    split at runs
    · cases runs
      exact List.prefix_rfl
    · refine List.IsPrefix.trans ?_ (ih runs)
      dsimp only
      split_ifs
      · exact List.prefix_append _ _
      · exact List.prefix_append _ _
      · exact List.prefix_rfl

/-- No bit of zero is set. -/
theorem carryLoop_zero (fuel : Nat) (track : Bool) :
    carryLoop blake 0 inner matchlevel track fuel carry = none := by
  induction fuel generalizing carry with
  | zero => rfl
  | succ fuel ih =>
    rw [carryLoop, Nat.zero_testBit, if_neg Bool.false_ne_true]
    exact ih

private theorem sweep_path {count fuel : Nat}
    (runs : sweep blake inner matchlevel fuel count carry = some last) :
    carry.path <+: last.path := by
  induction fuel generalizing count carry with
  | zero => cases runs
  | succ fuel ih =>
    rw [sweep] at runs
    split at runs
    · cases runs
      exact List.prefix_rfl
    · obtain ⟨raised, carried, runs⟩ := Option.bind_eq_some_iff.mp runs
      refine List.IsPrefix.trans ?_ ((carryLoop_path carried).trans (ih runs))
      dsimp only
      split_ifs
      · exact List.prefix_append _ _
      · exact List.prefix_rfl

/-- A carry that is matched and not yet alone gets a sibling. -/
theorem sweep_nonempty {count fuel : Nat} (matched : carry.matchh = true)
    (several : count ≠ 2 ^ carry.level)
    (runs : sweep blake inner matchlevel fuel count carry = some last) : last.path ≠ [] := by
  cases fuel with
  | zero => cases runs
  | succ fuel =>
    rw [sweep, if_neg several] at runs
    obtain ⟨raised, carried, runs⟩ := Option.bind_eq_some_iff.mp runs
    have grows := (carryLoop_path carried).trans (sweep_path runs)
    rw [if_pos matched] at grows
    exact grows.ne_nil (List.append_ne_nil_of_right_ne_nil _ (List.cons_ne_nil _ _))

end Path

/-- After `absorbed` leaves: the branch is begun, or the leaf at the position was the last one and
waits at level 0. -/
structure Followed (position absorbed : Nat) (acc : Accumulator Digest) : Prop where
  count : acc.count = absorbed
  small : absorbed < 2 ^ 32
  begun : position < absorbed →
    acc.path ≠ [] ∨ acc.matchlevel = 0 ∧ absorbed = position + 1 ∧ absorbed % 2 = 1

variable {position : Nat}

theorem Followed.absorb {absorbed : Nat} {acc after : Accumulator Digest} {leaf : Digest}
    (followed : Followed position absorbed acc)
    (absorbs : absorb blake position acc leaf = some after) :
    Followed position (absorbed + 1) after := by
  obtain ⟨carry, carried, rfl⟩ := Option.map_eq_some_iff.mp absorbs
  rw [followed.count] at carried ⊢
  have room : absorbed + 1 < 2 ^ 32 := by
    by_contra full
    have small := followed.small
    rw [show absorbed + 1 = 2 ^ 32 by omega, Nat.mod_self, carryLoop_zero] at carried
    cases carried
  rw [Nat.mod_eq_of_lt room] at carried ⊢
  refine ⟨rfl, room, fun passed => ?_⟩
  rw [carryLoop] at carried
  split at carried
  next odd =>
    -- the leaf is stored at level 0
    rw [Nat.testBit_zero, decide_eq_true_eq] at odd
    cases carried
    rcases Nat.lt_succ_iff_lt_or_eq.mp passed with before | rfl
    · refine (followed.begun before).imp_right ?_
      omega
    · exact .inr ⟨if_pos (decide_eq_true rfl), rfl, odd⟩
  next even =>
    have grows := carryLoop_path carried
    refine .inl (grows.ne_nil ?_)
    dsimp only
    split_ifs with isLeaf isWaiting
    · exact List.append_ne_nil_of_right_ne_nil _ (List.cons_ne_nil _ _)
    · exact List.append_ne_nil_of_right_ne_nil _ (List.cons_ne_nil _ _)
    · rw [decide_eq_true_eq] at isLeaf
      exact (followed.begun (by omega)).resolve_right fun waits => isWaiting waits.1

theorem Followed.foldlM {absorbed : Nat} {acc final : Accumulator Digest} {leaves : List Digest}
    (followed : Followed position absorbed acc)
    (folds : leaves.foldlM (Merkle.absorb blake position) acc = some final) :
    Followed position (absorbed + leaves.length) final := by
  induction leaves generalizing absorbed acc with
  | nil =>
    cases folds
    exact followed
  | cons leaf rest ih =>
    rw [List.foldlM_cons] at folds
    obtain ⟨next, absorbs, folds⟩ := Option.bind_eq_some_iff.mp folds
    rw [List.length_cons, ← Nat.add_assoc, Nat.add_right_comm]
    exact ih (followed.absorb absorbs) folds

section Computation

variable (blake) (zero : Digest) (txids : List Digest)

theorem transactionMerklePath_nonempty {position : UInt32} (inside : position.toNat < txids.length)
    (several : txids.length ≠ 1) {path : List Digest}
    (computed : transactionMerklePath blake zero txids position = some path) : path ≠ [] := by
  obtain ⟨result, computes, rfl⟩ := Option.map_eq_some_iff.mp computed
  rw [merkleComputation, if_neg (by omega)] at computes
  obtain ⟨acc, folds, computes⟩ := Option.bind_eq_some_iff.mp computes
  obtain ⟨level, lowest, computes⟩ := Option.bind_eq_some_iff.mp computes
  obtain ⟨top, sweeps, computes⟩ := Option.bind_eq_some_iff.mp computes
  cases computes
  have start : Followed position.toNat 0 (⟨0, fun _ => zero, -1, [], false⟩ : Accumulator Digest) :=
    ⟨rfl, by decide, fun impossible => absurd impossible (Nat.not_lt_zero _)⟩
  have followed := start.foldlM folds
  rw [Nat.zero_add] at followed
  rcases followed.begun inside with begun | ⟨waits, _, odd⟩
  · exact (sweep_path sweeps).ne_nil begun
  · have bottom : level = 0 := by
      rw [followed.count, lowestBit, Nat.testBit_zero, odd] at lowest
      exact (Option.some.inj lowest).symm
    rw [bottom] at sweeps
    refine sweep_nonempty (decide_eq_true waits) ?_ sweeps
    rw [followed.count]
    exact several

private theorem transactionMerklePath_single (txid : Digest) (position : UInt32) :
    transactionMerklePath blake zero [txid] position = some [] := by
  have nonempty : [txid].length ≠ 0 := Nat.one_ne_zero
  have bit : Nat.testBit ((0 + 1) % 2 ^ 32) 0 = true := by decide
  have lowest : lowestBit ((0 + 1) % 2 ^ 32) 32 0 = some 0 := rfl
  have done : (0 + 1) % 2 ^ 32 = 2 ^ 0 := by decide
  rw [transactionMerklePath, merkleComputation, if_neg nonempty, List.foldlM_cons, absorb,
    carryLoop, if_pos bit]
  simp only [Option.map_some, Option.bind_eq_bind, Option.bind_some, List.foldlM_nil,
    Option.pure_def, lowest]
  rw [sweep, if_pos done]
  rfl

omit [DecidableEq Digest] in
private theorem foldBranch_compressed (position level : Nat) (h : Digest) (path : List Digest)
    (nonempty : path ≠ []) :
    ∃ left right, foldBranch blake position level h path = blake left right := by
  induction path generalizing level h with
  | nil => exact absurd rfl nonempty
  | cons beside rest ih =>
    rw [foldBranch]
    cases rest with
    | nil =>
      split_ifs
      · exact ⟨beside, h, rfl⟩
      · exact ⟨h, beside, rfl⟩
    | cons next rest => exact ih _ _ (List.cons_ne_nil next rest)

/-- With two compressions that share no value, a branch folds to the block's root
exactly in a block with one transaction. -/
theorem transactionMerklePath_folds_iff (sha : Digest → Digest → Digest)
    (unrelated : ∀ a b c d, sha a b ≠ blake c d) (position : UInt32)
    (inside : position.toNat < txids.length) :
    (∃ path, transactionMerklePath blake zero txids position = some path ∧
        foldBranch blake position.toNat 0 (txids.getD position.toNat zero) path =
          blockMerkleRoot sha zero txids) ↔
      txids.length = 1 := by
  constructor
  · rintro ⟨path, computed, folded⟩
    obtain ⟨depth, isDepth, root⟩ := computeMerkleRoot_eq sha zero txids (by omega)
    cases depth with
    | zero => exact isDepth.single
    | succ depth => ?_
    by_contra several
    -- both sides are compressions, by different functions
    obtain ⟨left, right, compressed⟩ := foldBranch_compressed blake position.toNat 0
      (txids.getD position.toNat zero) path
      (transactionMerklePath_nonempty blake zero txids inside several computed)
    rw [compressed, blockMerkleRoot, root] at folded
    exact unrelated _ _ _ _ folded.symm
  · intro single
    obtain ⟨txid, rfl⟩ := List.length_eq_one_iff.mp single
    have first : position.toNat = 0 := Nat.lt_one_iff.mp inside
    refine ⟨[], transactionMerklePath_single blake zero txid position, ?_⟩
    rw [first]
    rfl

end Computation

/-- Digests as terms: two compressions that are injective and share no value. -/
inductive Term where
  | txid (n : Nat)
  | blake (left right : Term)
  | sha (left right : Term)
  deriving DecidableEq, Repr

theorem transactionMerklePath_folds_coinbase :
    ∃ path, transactionMerklePath Term.blake (.txid 0) [.txid 1] 0 = some path ∧
      foldBranch Term.blake 0 0 (.txid 1) path = blockMerkleRoot Term.sha (.txid 0) [.txid 1] :=
  (transactionMerklePath_folds_iff Term.blake (.txid 0) [.txid 1] Term.sha
    (fun _ _ _ _ => by simp) 0 (by decide)).mpr rfl

/-- Two transactions: the branch is the other one, and the fold is not the root. -/
theorem transactionMerklePath_folds_differs :
    transactionMerklePath Term.blake (.txid 0) [.txid 1, .txid 2] 0 = some [.txid 2] ∧
      foldBranch Term.blake 0 0 (.txid 1) [.txid 2] ≠
        blockMerkleRoot Term.sha (.txid 0) [.txid 1, .txid 2] := by
  decide +kernel

end Adonai.Merkle
