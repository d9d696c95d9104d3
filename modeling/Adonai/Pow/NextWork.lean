/-
Per-block difficulty adjustment, the proof-of-work check, and the transition check of header sync.

Targets are summed and multiplied in 256 bits, solve times are 64-bit signed integers, and the
weighted time is narrowed to 32 bits. `none` is a null dereference on a network without
retargeting, or a division by zero.
-/

import Adonai.Consensus.ArithUint256
import Adonai.Consensus.Params

namespace Adonai.Pow

open ArithUint256
open Consensus (Params)

def wrap64 (value : Int) : Int := Int.bmod value (2 ^ 64)

/-- Conversion of a 64-bit signed integer to the unsigned type of its width. -/
def toUint64 (value : Int) : Nat := (value % 2 ^ 64).toNat

def toUint32 (value : Int) : Nat := (value % 2 ^ 32).toNat

def clamp (value low high : Int) : Int :=
  if value < low then low else if high < value then high else value

structure LwmaState where
  sum_target : Nat
  weighted_times : Int
  k : Int
  deriving DecidableEq, Repr

variable (params : Params)

def lwmaRound (block pprev : CBlockIndex) (i : Int) (state : LwmaState) : LwmaState :=
  let T := params.getTargetSpacing block.nHeight
  let solvetime := clamp (block.getBlockTime - pprev.getBlockTime) (wrap64 (-6 * T))
    (wrap64 (6 * T))
  { sum_target := add state.sum_target (setCompact block.nBits).target
    weighted_times := wrap64 (state.weighted_times + wrap64 (solvetime * i))
    k := wrap64 (state.k + wrap64 (i * T)) }

def lwmaLoop (params : Params) :
    (rounds : Nat) → (i : Int) → (block : List CBlockIndex) → LwmaState → LwmaState
  | 0, _, _, state => state
  | _ + 1, _, [], state => state
  | _ + 1, _, [_], state => state
  | rounds + 1, i, block :: pprev :: rest, state =>
    lwmaLoop params rounds (i + 1) (pprev :: rest) (lwmaRound params block pprev i state)

def lwmaFinish (state : LwmaState) : Option Nat :=
  let N := toUint64 params.difficultyAdjustmentInterval
  let k := toUint64 state.k
  if N = 0 || k = 0 then none
  else
    let avg_target := state.sum_target / N
    let weighted_times := if state.weighted_times < 1 then 1 else state.weighted_times
    let avg_target := mul avg_target (toUint32 weighted_times)
    let avg_target := avg_target / k
    some (if avg_target > params.powLimit then params.powLimit else avg_target)

theorem lwmaFinish_eq (state : LwmaState) : lwmaFinish params state =
      if toUint64 params.difficultyAdjustmentInterval = 0 ∨ toUint64 state.k = 0 then none
      else some (min params.powLimit
        (mul (state.sum_target / toUint64 params.difficultyAdjustmentInterval)
          (toUint32 (max 1 state.weighted_times)) / toUint64 state.k)) := by
  have floor : (if state.weighted_times < 1 then 1 else state.weighted_times) =
      max 1 state.weighted_times := by
    split <;> omega
  have cut (average : Nat) : (if average > params.powLimit then params.powLimit else average) =
      min params.powLimit average := by
    split <;> omega
  simp only [lwmaFinish, floor, cut, Bool.or_eq_true, decide_eq_true_eq]

variable (pindexLast : List CBlockIndex)

def requiredBits (params : Params) : Option UInt32 :=
  if params.fPowNoRetargeting then pindexLast.head?.map CBlockIndex.nBits
  else
    let N := params.difficultyAdjustmentInterval
    match pindexLast with
    | [] => some (getCompact params.powLimit false)
    | last :: rest =>
      if last.nHeight + 1 ≤ N then some (getCompact params.powLimit false)
      else
        (lwmaFinish params (lwmaLoop params N.toNat 1 (last :: rest)
          { sum_target := 0, weighted_times := 0, k := 0 })).map
          (fun target => getCompact target false)

/-- Every return path first stores the result in the caller's header, which the
signature declares constant. -/
def getNextWorkRequired (pblock : Option CBlockHeader)
    (params : Params) : Option (UInt32 × Option CBlockHeader) :=
  (requiredBits pindexLast params).map fun nBits =>
    (nBits, pblock.map fun header => { header with nBits := nBits })

def checkProofOfWork (hash : Uint256) (nBits : UInt32) : Bool :=
  let bnTarget := setCompact nBits
  !(bnTarget.fNegative || bnTarget.target == 0 || bnTarget.fOverflow ||
    decide (hash.toNat > bnTarget.target))

def getBlockProof (nBits : UInt32) : Nat :=
  let bnTarget := setCompact nBits
  if bnTarget.fNegative || bnTarget.fOverflow || bnTarget.target == 0 then 0
  else (2 ^ 256 - 1 - bnTarget.target) / (bnTarget.target + 1) + 1

/-- The second output of `SetCompact` is its sign flag, so the overflow flags are
never read here. -/
def permittedDifficultyTransition (height : Int) (oldBits newBits : UInt32) : Bool :=
  if height < 1 then true
  else
    let old := setCompact oldBits
    let new := setCompact newBits
    let overflow1 := old.fNegative
    let overflow2 := new.fNegative
    if overflow1 || overflow2 || old.target == 0 || new.target == 0 then false
    else if new.target > mul old.target 4 then false
    else if old.target > mul new.target 4 then false
    else true

theorem getNextWorkRequired_bits (pblock : Option CBlockHeader)
    (params : Params) : (getNextWorkRequired pindexLast pblock params).map Prod.fst =
      requiredBits pindexLast params := by
  unfold getNextWorkRequired
  cases requiredBits pindexLast params <;> rfl

theorem checkProofOfWork_iff (hash : Uint256) (nBits : UInt32) :
    checkProofOfWork hash nBits = true ↔
      (setCompact nBits).fNegative = false ∧ (setCompact nBits).fOverflow = false ∧
        0 < (setCompact nBits).target ∧ hash.toNat ≤ (setCompact nBits).target := by
  unfold checkProofOfWork
  simp only [Bool.not_eq_true', Bool.or_eq_false_iff, beq_eq_false_iff_ne,
    decide_eq_false_iff_not, not_lt, Nat.pos_iff_ne_zero]
  tauto

end Adonai.Pow
