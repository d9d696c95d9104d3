/-
The work that a list of headers claims.

`CheckProofOfWork` compares a hash with the target that the header names; only `DeriveTarget`
compares that target with the limit. So what n accepted headers cost their sender depends on the
targets they name.
-/

import Adonai.Validation.Header

namespace Adonai.Validation

open ArithUint256
open Consensus (mainParams)
open Adonai.Pow

def deriveTarget (nBits : UInt32) (pow_limit : Uint256) : Option Nat :=
  let target := setCompact nBits
  if target.fNegative || target.target == 0 || target.fOverflow ||
      decide (target.target > pow_limit.toNat) then none
  else some target.target

def hasValidProofOfWork (hasher : List UInt8 → Uint256) (headers : List CBlockHeader) : Bool :=
  headers.all fun header => checkProofOfWork (header.getHash hasher) header.nBits

def calculateClaimedHeadersWork (headers : List CBlockHeader) : Nat :=
  headers.foldl (fun total_work header => add total_work (getBlockProof header.nBits)) 0

def limitProof (pow_limit : Uint256) : Nat := getBlockProof (getCompact pow_limit.toNat false)

def workOf (headers : List CBlockHeader) : Nat :=
  (headers.map fun header => getBlockProof header.nBits).sum

/-- What accepted headers are taken to show: each hash meets a target that `DeriveTarget`
gives, and the claimed work is that of as many blocks at the limit. -/
structure WithinLimit (hasher : List UInt8 → Uint256) (pow_limit : Uint256)
    (headers : List CBlockHeader) : Prop where
  targets : ∀ header ∈ headers, ∃ target, deriveTarget header.nBits pow_limit = some target ∧
    (header.getHash hasher).toNat ≤ target
  work : headers.length * limitProof pow_limit ≤ calculateClaimedHeadersWork headers

variable {nBits : UInt32} {pow_limit : Uint256}

variable {target : Nat}

def PositiveTarget (nBits : UInt32) : Prop :=
  (setCompact nBits).fNegative = false ∧ (setCompact nBits).fOverflow = false ∧
    0 < (setCompact nBits).target

private theorem refused_iff : ((setCompact nBits).fNegative || (setCompact nBits).fOverflow ||
    (setCompact nBits).target == 0) = true ↔ ¬PositiveTarget nBits := by
  simp only [PositiveTarget]
  cases (setCompact nBits).fNegative <;> cases (setCompact nBits).fOverflow <;> simp

theorem deriveTarget_eq_some_iff : deriveTarget nBits pow_limit = some target ↔
      (setCompact nBits).fNegative = false ∧ (setCompact nBits).fOverflow = false ∧
        0 < (setCompact nBits).target ∧ (setCompact nBits).target ≤ pow_limit.toNat ∧
        (setCompact nBits).target = target := by
  unfold deriveTarget
  dsimp only
  split
  case isTrue refused =>
    simp only [Bool.or_eq_true, beq_iff_eq, decide_eq_true_eq] at refused
    refine iff_of_false nofun ?_
    intro ⟨positive, fits, nonzero, small, _⟩
    rw [positive, fits] at refused
    rcases refused with ((sign | zero) | overflow) | large
    · cases sign
    · omega
    · cases overflow
    · omega
  case isFalse accepted =>
    simp only [Bool.or_eq_true, beq_iff_eq, decide_eq_true_eq, not_or, Bool.not_eq_true,
      not_lt] at accepted
    obtain ⟨⟨⟨positive, nonzero⟩, fits⟩, small⟩ := accepted
    rw [Option.some.injEq]
    constructor
    · intro same
      exact ⟨positive, fits, Nat.pos_of_ne_zero nonzero, small, same⟩
    · intro ⟨_, _, _, _, same⟩
      exact same

private theorem complement_div (small : target < 2 ^ 256) :
    (2 ^ 256 - 1 - target) / (target + 1) + 1 = 2 ^ 256 / (target + 1) := by
  have whole : 2 ^ 256 - 1 - target + (target + 1) = 2 ^ 256 := by omega
  rw [← Nat.add_div_right _ (Nat.succ_pos _), whole]

theorem getBlockProof_eq (valid : PositiveTarget nBits) :
    getBlockProof nBits = 2 ^ 256 / ((setCompact nBits).target + 1) := by
  unfold getBlockProof
  rw [if_neg (refused_iff.not.mpr (not_not_intro valid)), complement_div (setCompact_lt nBits)]

theorem limitProof_eq (nonzero : 0 < pow_limit.toNat) :
    limitProof pow_limit = 2 ^ 256 / (compactFloor pow_limit.toNat + 1) := by
  have decoded := setCompact_getCompact pow_limit.toNat pow_limit.isLt
  have target : (setCompact (getCompact pow_limit.toNat false)).target =
      compactFloor pow_limit.toNat := by rw [decoded]
  have valid : PositiveTarget (getCompact pow_limit.toNat false) := by
    rw [PositiveTarget, decoded]
    exact ⟨rfl, rfl, compactFloor_pos _ nonzero⟩
  rw [limitProof, getBlockProof_eq valid, target]

/-- A lower target has a larger proof: a target within the limit has at least the proof of
the limit, although the limit's own bits round it down. -/
theorem limitProof_le (derived : deriveTarget nBits pow_limit = some target) :
    limitProof pow_limit ≤ getBlockProof nBits := by
  obtain ⟨positive, fits, nonzero, small, _⟩ := deriveTarget_eq_some_iff.mp derived
  have rounded : (setCompact nBits).target ≤ compactFloor pow_limit.toNat := by
    rw [← compactFloor_setCompact]
    exact compactFloor_mono small
  rw [getBlockProof_eq ⟨positive, fits, nonzero⟩, limitProof_eq (nonzero.trans_le small)]
  exact Nat.div_le_div_left (Nat.add_le_add_right rounded 1) (Nat.succ_pos _)

variable {headers : List CBlockHeader}

theorem calculateClaimedHeadersWork_eq (headers : List CBlockHeader) :
    calculateClaimedHeadersWork headers = workOf headers % 2 ^ 256 := by
  have adds : ∀ (rest : List CBlockHeader) (total_work : Nat), total_work < 2 ^ 256 →
      rest.foldl (fun total_work header => add total_work (getBlockProof header.nBits))
        total_work = (total_work + workOf rest) % 2 ^ 256 := by
    intro rest
    induction rest with
    | nil =>
      intro total_work small
      exact (Nat.mod_eq_of_lt small).symm
    | cons header rest ih =>
      intro total_work _
      have small : add total_work (getBlockProof header.nBits) < 2 ^ 256 := Nat.mod_lt _ (by decide)
      rw [List.foldl_cons, ih _ small, add, Nat.mod_add_mod, Nat.add_assoc]
      rfl
  rw [calculateClaimedHeadersWork, adds headers 0 (by decide), Nat.zero_add]

theorem length_mul_limitProof_le
    (derived : ∀ header ∈ headers, ∃ target, deriveTarget header.nBits pow_limit = some target) :
    headers.length * limitProof pow_limit ≤ workOf headers := by
  induction headers with
  | nil => exact Nat.le_of_eq (Nat.zero_mul _)
  | cons header headers ih =>
    obtain ⟨target, derives⟩ := derived header List.mem_cons_self
    have first := limitProof_le derives
    have rest := ih fun later member => derived later (List.mem_cons_of_mem _ member)
    rw [List.length_cons, Nat.succ_mul, Nat.add_comm]
    exact Nat.add_le_add first rest

theorem deriveTarget_of_checked {hash : Uint256} (checked : checkProofOfWork hash nBits = true)
    (small : (setCompact nBits).target ≤ pow_limit.toNat) :
    ∃ target, deriveTarget nBits pow_limit = some target ∧ hash.toNat ≤ target := by
  obtain ⟨positive, fits, nonzero, meets⟩ := (checkProofOfWork_iff hash nBits).mp checked
  exact ⟨_, deriveTarget_eq_some_iff.mpr ⟨positive, fits, nonzero, small, rfl⟩, meets⟩

/-- Accepted headers show what they are taken to show exactly if no target is above the limit,
which nothing has checked, and the total of the proofs, where it exceeds 256 bits, is not
reduced below the bound. -/
theorem accepted_within_limit_iff (hasher : List UInt8 → Uint256) (pow_limit : Uint256)
    (headers : List CBlockHeader) (accepted : hasValidProofOfWork hasher headers = true) :
    WithinLimit hasher pow_limit headers ↔
      (∀ header ∈ headers, (setCompact header.nBits).target ≤ pow_limit.toNat) ∧
        (workOf headers < 2 ^ 256 ∨
          headers.length * limitProof pow_limit ≤ workOf headers % 2 ^ 256) := by
  constructor
  · intro within
    constructor
    · intro header member
      obtain ⟨target, derives, _⟩ := within.targets header member
      exact (deriveTarget_eq_some_iff.mp derives).2.2.2.1
    · right
      rw [← calculateClaimedHeadersWork_eq]
      exact within.work
  · intro ⟨small, total⟩
    have targets : ∀ header ∈ headers, ∃ target,
        deriveTarget header.nBits pow_limit = some target ∧
          (header.getHash hasher).toNat ≤ target := by
      intro header member
      exact deriveTarget_of_checked (List.all_eq_true.mp accepted header member)
        (small header member)
    constructor
    case targets => exact targets
    case work =>
      rw [calculateClaimedHeadersWork_eq]
      rcases total with fits | enough
      · rw [Nat.mod_eq_of_lt fits]
        apply length_mul_limitProof_le
        intro header member
        obtain ⟨target, derives, _⟩ := targets header member
        exact ⟨target, derives⟩
      · exact enough

def mainPowLimit : Uint256 := BitVec.ofNat 256 mainParams.powLimit

def headerWithBits (nBits : UInt32) : CBlockHeader where
  nVersion := 1
  hashPrevBlock := 0
  hashMerkleRoot := 0
  nTime := 0
  nBits := nBits
  nNonce := 0

/-- With a hash far below the limit of the main chain, the bits of the limit and of half of it are
accepted. -/
theorem accepted_within_limit_main : WithinLimit (fun _ => mainPowLimit >>> 16) mainPowLimit
    [headerWithBits 0x1e0fffff, headerWithBits 0x1e07ffff] :=
  (accepted_within_limit_iff (fun _ => mainPowLimit >>> 16) mainPowLimit
    [headerWithBits 0x1e0fffff, headerWithBits 0x1e07ffff] (by decide +kernel)).mpr
      (by decide +kernel)

/-- The bits 0x207fffff, which every second hash meets, are accepted on the main chain: the
header claims a work of 2, where a block at the limit has 1048577. -/
theorem easy_header_accepted :
    hasValidProofOfWork (fun _ => mainPowLimit) [headerWithBits 0x207fffff] = true ∧
      ¬WithinLimit (fun _ => mainPowLimit) mainPowLimit [headerWithBits 0x207fffff] ∧
      deriveTarget 0x207fffff mainPowLimit = none ∧
      calculateClaimedHeadersWork [headerWithBits 0x207fffff] = 2 ∧
      limitProof mainPowLimit = 1048577 := by
  have refused : deriveTarget 0x207fffff mainPowLimit = none := by decide +kernel
  refine ⟨by decide +kernel, ?_, refused, by decide +kernel, by decide +kernel⟩
  intro within
  obtain ⟨target, derives, _⟩ := within.targets _ List.mem_cons_self
  cases derives

/-- `nChainWork`, which `AddToBlockIndex` computes from that of the parent. -/
def nChainWork : List CBlockIndex → Nat
  | [] => 0
  | block :: pprev => add (nChainWork pprev) (getBlockProof block.nBits)

private theorem getBlockProof_pos (valid : PositiveTarget nBits) : 0 < getBlockProof nBits := by
  rw [getBlockProof_eq valid]
  exact Nat.div_pos (setCompact_lt nBits) (Nat.succ_pos _)

private theorem getBlockProof_zero (refused : ¬PositiveTarget nBits) : getBlockProof nBits = 0 := by
  unfold getBlockProof
  rw [if_pos (refused_iff.mpr refused)]

/-- The largest number is no compact value, so the divisor does not wrap to zero. -/
theorem target_succ_lt (nBits : UInt32) : (setCompact nBits).target + 1 < 2 ^ 256 := by
  have small := setCompact_lt nBits
  have rounded := compactFloor_setCompact nBits
  have other : (setCompact nBits).target ≠ 2 ^ 256 - 1 := by
    intro largest
    rw [largest] at rounded
    exact absurd rounded (by decide +kernel)
  omega

theorem nChainWork_eq (chain : List CBlockIndex) :
    nChainWork chain = (chain.map fun block => getBlockProof block.nBits).sum % 2 ^ 256 := by
  induction chain with
  | nil => rfl
  | cons block pprev ih =>
    rw [nChainWork, ih, add, Nat.mod_add_mod, List.map_cons, List.sum_cons, Nat.add_comm]

theorem nChainWork_lt {newer older : List CBlockIndex} (more : newer ≠ [])
    (valid : ∀ block ∈ newer, PositiveTarget block.nBits)
    (fits : ((newer ++ older).map fun block => getBlockProof block.nBits).sum < 2 ^ 256) :
    nChainWork older < nChainWork (newer ++ older) := by
  obtain ⟨block, others, rfl⟩ := List.exists_cons_of_ne_nil more
  have positive := getBlockProof_pos (valid block List.mem_cons_self)
  rw [nChainWork_eq, nChainWork_eq]
  rw [List.map_append, List.sum_append, List.map_cons, List.sum_cons] at fits ⊢
  omega

/-- The proof is the number of hashes expected for the target, computed without leaving 256
bits, and the work of a chain grows with each block. -/
theorem getBlockProof_and_nChainWork :
    (∀ nBits, PositiveTarget nBits →
      (∃ quotient, div (2 ^ 256 - 1 - (setCompact nBits).target)
          (add (setCompact nBits).target 1) = some quotient ∧
        getBlockProof nBits = add quotient 1) ∧
      getBlockProof nBits = 2 ^ 256 / ((setCompact nBits).target + 1) ∧
      1 ≤ getBlockProof nBits) ∧
    (∀ nBits easier, PositiveTarget nBits → PositiveTarget easier →
      (setCompact nBits).target ≤ (setCompact easier).target →
      getBlockProof easier ≤ getBlockProof nBits) ∧
    (∀ nBits, ¬PositiveTarget nBits → getBlockProof nBits = 0) ∧
    ∀ newer older : List CBlockIndex, newer ≠ [] →
      (∀ block ∈ newer ++ older, PositiveTarget block.nBits) →
      ((newer ++ older).map fun block => getBlockProof block.nBits).sum < 2 ^ 256 →
      nChainWork older < nChainWork (newer ++ older) := by
  refine ⟨?_, ?_, fun nBits => getBlockProof_zero, ?_⟩
  · intro nBits valid
    have proof := getBlockProof_eq valid
    have succ := target_succ_lt nBits
    have divides : div (2 ^ 256 - 1 - (setCompact nBits).target) (add (setCompact nBits).target 1) =
        some ((2 ^ 256 - 1 - (setCompact nBits).target) / ((setCompact nBits).target + 1)) := by
      rw [add, Nat.mod_eq_of_lt succ]
      exact div_eq (by omega) (Nat.succ_pos _)
    refine ⟨⟨_, divides, ?_⟩, proof, getBlockProof_pos valid⟩
    rw [proof, add, complement_div (setCompact_lt nBits), Nat.mod_eq_of_lt]
    exact Nat.div_lt_self (Nat.two_pow_pos 256) (Nat.succ_lt_succ valid.2.2)
  · intro nBits easier valid validEasier le
    rw [getBlockProof_eq valid, getBlockProof_eq validEasier]
    exact Nat.div_le_div_left (Nat.add_le_add_right le 1) (Nat.succ_pos _)
  · intro newer older more valid fits
    exact nChainWork_lt more (fun block member => valid block (List.mem_append_left _ member)) fits

/-- A block with half the target of the one before it. -/
theorem getBlockProof_and_nChainWork_halved :
    getBlockProof mainGenesis.nBits ≤ getBlockProof 0x1e07ffff ∧
      nChainWork [mainGenesis] <
        nChainWork [{ mainGenesis with nHeight := 1, nBits := 0x1e07ffff }, mainGenesis] := by
  obtain ⟨_, antitone, _, grows⟩ := getBlockProof_and_nChainWork
  have valid : PositiveTarget mainGenesis.nBits := ⟨rfl, rfl, by decide +kernel⟩
  have halved : PositiveTarget 0x1e07ffff := ⟨rfl, rfl, by decide +kernel⟩
  refine ⟨antitone _ _ halved valid (by decide +kernel), grows [_] [mainGenesis]
    (List.cons_ne_nil _ _) ?_ (by decide +kernel)⟩
  exact List.forall_mem_cons.mpr ⟨halved, List.forall_mem_singleton.mpr valid⟩

end Adonai.Validation
