/-
Contextual header checks and the block index they guard.

`GetNextWorkRequired` stores its result in the header under validation, so the comparison with it
depends on which operand is read first, and the header that reaches `AddToBlockIndex` need not be
the one whose work was checked. Both orders are modelled.
-/

import Adonai.Pow.Transition
import Adonai.Foundation.Run

namespace Adonai.Validation

open ArithUint256
open Consensus (Params mainParams BuriedDeployment)
open CBlockIndex (getMedianTimePast)
open Adonai.Pow

inductive BlockValidationResult where
  | resultUnset
  | consensus
  | cachedInvalid
  | invalidHeader
  | mutated
  | missingPrev
  | invalidPrev
  | timeFuture
  | headerLowWork
  deriving DecidableEq, Repr

structure BlockValidationState where
  result : BlockValidationResult
  rejectReason : String
  debugMessage : String
  deriving DecidableEq, Repr

inductive Verdict where
  | valid
  | invalid (state : BlockValidationState)
  | fault
  deriving DecidableEq, Repr

/-- Which operand of the comparison with the required bits is read first. -/
inductive OperandOrder where
  | headerFirst
  | requiredFirst
  deriving DecidableEq, Repr

def MAX_TIMEWARP : Int := 600

def MAX_FUTURE_BLOCK_TIME : Int := 2 * 60 * 60

def deploymentActiveAfter (pindexPrev : List CBlockIndex) (params : Params)
    (dep : BuriedDeployment) : Bool :=
  decide ((match pindexPrev with
    | [] => 0
    | last :: _ => last.nHeight + 1) ≥ params.deploymentHeight dep)

def hexVersion (nVersion : Int32) : String :=
  String.ofList ((List.range 8).map fun digit =>
    Nat.digitChar (nVersion.toUInt32.toNat / 16 ^ (7 - digit) % 16))

/-- The checks after the difficulty comparison. The clock reading is in
nanoseconds. -/
def contextualTimeAndVersion (params : Params) (now : Int) (last : CBlockIndex)
    (ancestors : List CBlockIndex) (block : CBlockHeader) : Verdict :=
  let pindexPrev := last :: ancestors
  let nHeight := last.nHeight + 1
  if block.getBlockTime ≤ getMedianTimePast pindexPrev then
    .invalid ⟨.invalidHeader, "time-too-old", "block's timestamp is too early"⟩
  else if params.enforce_BIP94 && params.difficultyAdjustmentInterval == 0 then .fault
  else if params.enforce_BIP94 && nHeight.tmod params.difficultyAdjustmentInterval == 0 &&
      decide (block.getBlockTime < last.getBlockTime - MAX_TIMEWARP) then
    .invalid ⟨.invalidHeader, "time-timewarp-attack",
      "block's timestamp is too early on diff adjustment block"⟩
  else if block.getBlockTime * 10 ^ 9 > now + MAX_FUTURE_BLOCK_TIME * 10 ^ 9 then
    .invalid ⟨.timeFuture, "time-too-new", "block timestamp too far in the future"⟩
  else if (decide (block.nVersion < 2) && deploymentActiveAfter pindexPrev params .heightInCb) ||
      (decide (block.nVersion < 3) && deploymentActiveAfter pindexPrev params .dersig) ||
      (decide (block.nVersion < 4) && deploymentActiveAfter pindexPrev params .cltv) then
    .invalid ⟨.invalidHeader, "bad-version(0x" ++ hexVersion block.nVersion ++ ")",
      "rejected nVersion=0x" ++ hexVersion block.nVersion ++ " block"⟩
  else .valid

def contextualCheckBlockHeader (order : OperandOrder) (params : Params) (now : Int)
    (pindexPrev : List CBlockIndex) (block : CBlockHeader) : CBlockHeader × Verdict :=
  match pindexPrev with
  | [] => (block, .fault)
  | last :: ancestors =>
    match getNextWorkRequired (last :: ancestors) (some block) params with
    | none => (block, .fault)
    | some (required, written) =>
      let after := written.getD block
      -- with the call evaluated first, the left operand is the value just stored
      let nBits := match order with
        | .headerFirst => block.nBits
        | .requiredFirst => after.nBits
      if nBits ≠ required then
        (after, .invalid ⟨.invalidHeader, "bad-diffbits", "incorrect proof of work"⟩)
      else (after, contextualTimeAndVersion params now last ancestors after)

variable (hasher : List UInt8 → Uint256)

def checkBlockHeader (block : CBlockHeader) (fCheckPOW : Bool) : Verdict :=
  if fCheckPOW && !checkProofOfWork (block.getHash hasher) block.nBits then
    .invalid ⟨.invalidHeader, "high-hash", "proof of work failed"⟩
  else .valid

/-- The block index by hash; an entry is listed with its ancestors. -/
abbrev BlockMap := Uint256 → Option (List CBlockIndex)

/-- Insertion under the hash of the header as it is now. A header that names itself
as its parent would be linked to itself; `AcceptBlockHeader` has already found the
parent under an older key. -/
def addToBlockIndex (index : BlockMap) (block : CBlockHeader) : BlockMap × List CBlockIndex :=
  let hash := block.getHash hasher
  match index hash with
  | some entry => (index, entry)
  | none =>
    let pprev := (index block.hashPrevBlock).getD []
    let entry : CBlockIndex :=
      { hashBlock := hash
        nHeight := match pprev with
          | [] => 0
          | last :: _ => last.nHeight + 1
        nVersion := block.nVersion
        hashMerkleRoot := block.hashMerkleRoot
        nTime := block.nTime
        nBits := block.nBits
        nNonce := block.nNonce }
    (fun key => if key = hash then some (entry :: pprev) else index key, entry :: pprev)

/-- One call of `AcceptBlockHeader`: the header, the order of evaluation, the
caller's flag, the clock, and which entries are marked as failed at that time. -/
structure Submission where
  header : CBlockHeader
  order : OperandOrder
  minPowChecked : Bool
  now : Int
  failed : Uint256 → Bool

structure Acceptance where
  index : BlockMap
  header : CBlockHeader
  verdict : Verdict
  pindex : Option (List CBlockIndex)

def acceptBlockHeader (params : Params) (index : BlockMap) (submission : Submission) : Acceptance :=
  let block := submission.header
  let hash := block.getHash hasher
  let reject (block : CBlockHeader) (state : BlockValidationState) : Acceptance :=
    { index := index, header := block, verdict := .invalid state, pindex := none }
  let insert (block : CBlockHeader) : Acceptance :=
    if submission.minPowChecked = false then
      reject block ⟨.headerLowWork, "too-little-chainwork", ""⟩
    else
      { index := (addToBlockIndex hasher index block).1
        header := block
        verdict := .valid
        pindex := some (addToBlockIndex hasher index block).2 }
  if hash = params.hashGenesisBlock then insert block
  else
    match index hash with
    | some pindex =>
      if submission.failed hash then
        { reject block ⟨.cachedInvalid, "duplicate-invalid", ""⟩ with pindex := some pindex }
      else { index := index, header := block, verdict := .valid, pindex := some pindex }
    | none =>
      match checkBlockHeader hasher block true with
      | .invalid state => reject block state
      | .fault => { index := index, header := block, verdict := .fault, pindex := none }
      | .valid =>
        match index block.hashPrevBlock with
        | none => reject block ⟨.missingPrev, "prev-blk-not-found", ""⟩
        | some pindexPrev =>
          if submission.failed block.hashPrevBlock then
            reject block ⟨.invalidPrev, "bad-prevblk", ""⟩
          else
            match contextualCheckBlockHeader submission.order params submission.now
                pindexPrev block with
            | (block, .valid) => insert block
            | (block, .invalid state) => reject block state
            | (block, .fault) =>
              { index := index, header := block, verdict := .fault, pindex := none }

def loadGenesisBlock (genesis : CBlockHeader) : BlockMap :=
  (addToBlockIndex hasher (fun _ => none) genesis).1

/-- The bits a child of `pindexPrev` must already carry for the check not to change them: the
parent's on a network that never retargets, the limit's before a full window, and those of the
limited window average after it. Where the average divides by zero nothing is stored. -/
def BitsDemanded (params : Params) (pindexPrev : List CBlockIndex) (nBits : UInt32) : Prop :=
  let N := params.difficultyAdjustmentInterval
  let window := lwmaLoop params N.toNat 1 pindexPrev
    { sum_target := 0, weighted_times := 0, k := 0 }
  let average := mul (window.sum_target / toUint64 N) (toUint32 (max 1 window.weighted_times)) /
    toUint64 window.k
  if params.fPowNoRetargeting then ∀ last ∈ pindexPrev.head?, nBits = last.nBits
  else if tipHeight pindexPrev + 1 ≤ N ∨ pindexPrev = [] then
    nBits = getCompact params.powLimit false
  else toUint64 N = 0 ∨ toUint64 window.k = 0 ∨
    nBits = getCompact (min params.powLimit average) false

theorem bitsDemanded_iff (params : Params) (pindexPrev : List CBlockIndex) (nBits : UInt32) :
    BitsDemanded params pindexPrev nBits ↔
      ∀ required, requiredBits pindexPrev params = some required → nBits = required := by
  unfold BitsDemanded requiredBits
  by_cases still : params.fPowNoRetargeting = true
  · cases pindexPrev <;> simp [still]
  cases pindexPrev with
  | nil => simp [still, tipHeight]
  | cons last rest => ?_
  have tip : tipHeight (last :: rest) = last.nHeight := rfl
  simp only [still, tip, reduceCtorEq, or_false]
  by_cases short : last.nHeight + 1 ≤ params.difficultyAdjustmentInterval
  · simp [short]
  simp only [if_false, lwmaFinish_eq]
  split_ifs with zero
  · rcases zero with noBlocks | noSpacing
    · simp [noBlocks]
    · simp [noSpacing]
  · rw [not_or] at zero
    simp [zero.1, zero.2]

theorem contextualCheckBlockHeader_header (order : OperandOrder) (params : Params) (now : Int)
    (last : CBlockIndex) (ancestors : List CBlockIndex) (block : CBlockHeader) :
    (contextualCheckBlockHeader order params now (last :: ancestors) block).1 =
      { block with nBits := (requiredBits (last :: ancestors) params).getD block.nBits } := by
  unfold contextualCheckBlockHeader getNextWorkRequired
  cases required : requiredBits (last :: ancestors) params with
  | none => simp only [required, Option.map_none, Option.getD_none]
  | some bits =>
    simp only [required, Option.map_some, Option.getD_some]
    rw [apply_ite Prod.fst, ite_self]

variable {block : CBlockHeader}

variable {params : Params} {pindexPrev : List CBlockIndex}

theorem contextualCheckBlockHeader_valid {order : OperandOrder} {now : Int} {after : CBlockHeader}
    (passed : contextualCheckBlockHeader order params now pindexPrev block = (after, .valid)) :
    requiredBits pindexPrev params = some after.nBits ∧
      after = { block with nBits := after.nBits } ∧
      (order = .headerFirst → after.nBits = block.nBits) := by
  cases pindexPrev with
  | nil => simp [contextualCheckBlockHeader] at passed
  | cons last ancestors => ?_
  unfold contextualCheckBlockHeader getNextWorkRequired at passed
  cases required : requiredBits (last :: ancestors) params with
  | none => simp [required] at passed
  | some bits => ?_
  simp only [required, Option.map_some] at passed
  cases order with
  | headerFirst =>
    split_ifs at passed with different
    · simp at passed
    · have same := (Prod.mk.inj passed).1
      subst same
      exact ⟨rfl, rfl, fun _ => (not_not.mp different).symm⟩
  | requiredFirst =>
    rw [if_neg (by simp)] at passed
    have same := (Prod.mk.inj passed).1
    subst same
    exact ⟨rfl, rfl, by simp⟩

/-- Validation leaves a submitted header and its hash as they were exactly when the
header already carries the demanded bits, whatever the outcome and the order of
evaluation. -/
theorem contextualCheckBlockHeader_frame_iff (hasher : List UInt8 → Uint256)
    (order : OperandOrder) (params : Params) (now : Int) (last : CBlockIndex)
    (ancestors : List CBlockIndex) (block : CBlockHeader) :
    ((∀ result, getNextWorkRequired (last :: ancestors) (some block) params = some result →
          result.2 = some block) ∧
        (contextualCheckBlockHeader order params now (last :: ancestors) block).1 = block ∧
        (contextualCheckBlockHeader order params now (last :: ancestors) block).1.getHash hasher =
          block.getHash hasher) ↔
      BitsDemanded params (last :: ancestors) block.nBits := by
  rw [bitsDemanded_iff, contextualCheckBlockHeader_header]
  unfold getNextWorkRequired
  cases requiredBits (last :: ancestors) params with
  | none => simp
  | some required => ?_
  have stored : { block with nBits := required } = block ↔ block.nBits = required := by
    constructor
    · intro same
      exact (congrArg CBlockHeader.nBits same).symm
    · intro same
      rw [← same]
  simp only [Option.map_some, Option.some.injEq, forall_eq', stored]
  constructor
  · intro kept
    exact kept.1
  · intro same
    rw [← same]
    exact ⟨rfl, rfl, rfl⟩

def easyChild : CBlockHeader :=
  { nVersion := 4
    hashPrevBlock := mainParams.hashGenesisBlock
    hashMerkleRoot := 0
    nTime := 1723502500
    nBits := 0x207fffff
    nNonce := 0 }

/-- The rejected header comes back with other bits and another hash. -/
theorem contextualCheckBlockHeader_frame_fails :
    let check := contextualCheckBlockHeader .headerFirst mainParams (1723502500 * 10 ^ 9)
      [mainGenesis] easyChild
    let hasher := fun bytes : List UInt8 => BitVec.ofNat 256 (bytes.getD 75 0).toNat
    check.2 = .invalid ⟨.invalidHeader, "bad-diffbits", "incorrect proof of work"⟩ ∧
      check.1.nBits = 0x1e0fffff ∧ check.1.getHash hasher ≠ easyChild.getHash hasher := by
  decide +kernel

/-! ### The index over whole runs -/

def MeetsTarget (hash : Uint256) (nBits : UInt32) : Prop :=
  (setCompact nBits).fNegative = false ∧ (setCompact nBits).fOverflow = false ∧
    hash.toNat ≤ (setCompact nBits).target

instance (hash : Uint256) (nBits : UInt32) : Decidable (MeetsTarget hash nBits) :=
  inferInstanceAs (Decidable (_ ∧ _))

/-- An entry stores the bits required after its parent, and the header it
reproduces has a hash within their target. -/
def EntrySound (hasher : List UInt8 → Uint256) (params : Params) : List CBlockIndex → Prop
  | [] => False
  | block :: pprev =>
    requiredBits pprev params = some block.nBits ∧
      MeetsTarget ((block.getBlockHeader pprev).getHash hasher) block.nBits

instance (hasher : List UInt8 → Uint256) (params : Params) (entry : List CBlockIndex) :
    Decidable (EntrySound hasher params entry) :=
  match entry with
  | [] => inferInstanceAs (Decidable False)
  | _ :: _ => inferInstanceAs (Decidable (_ ∧ _))

structure IndexSound (hasher : List UInt8 → Uint256) (params : Params) (index : BlockMap) :
    Prop where
  genesis : (index params.hashGenesisBlock).isSome
  keyed : ∀ key entry, index key = some entry → entry.head?.map CBlockIndex.hashBlock = some key
  sound : ∀ key entry, index key = some entry → key ≠ params.hashGenesisBlock →
    EntrySound hasher params entry

variable {hasher}

private theorem checkBlockHeader_valid (passed : checkBlockHeader hasher block true = .valid) :
    MeetsTarget (block.getHash hasher) block.nBits := by
  unfold checkBlockHeader at passed
  split_ifs at passed with failed
  rw [Bool.true_and, Bool.not_eq_true', Bool.not_eq_false] at failed
  rw [checkProofOfWork_iff] at failed
  exact ⟨failed.1, failed.2.1, failed.2.2.2⟩

/-- A call adds at most one entry: the header the checks left, under its own hash,
below a parent that was already there. -/
theorem acceptBlockHeader_cases (hasher : List UInt8 → Uint256) (params : Params)
    (index : BlockMap) (submission : Submission) :
    (acceptBlockHeader hasher params index submission).index = index ∨
      (submission.header.getHash hasher = params.hashGenesisBlock ∧
        (acceptBlockHeader hasher params index submission).index =
          (addToBlockIndex hasher index submission.header).1) ∨
      ∃ pindexPrev after,
        index submission.header.hashPrevBlock = some pindexPrev ∧
          MeetsTarget (submission.header.getHash hasher) submission.header.nBits ∧
          contextualCheckBlockHeader submission.order params submission.now pindexPrev
            submission.header = (after, .valid) ∧
          (acceptBlockHeader hasher params index submission).index =
            (addToBlockIndex hasher index after).1 := by
  unfold acceptBlockHeader
  dsimp only
  by_cases genesis : submission.header.getHash hasher = params.hashGenesisBlock
  · split_ifs
    · exact .inl rfl
    · exact .inr (.inl ⟨genesis, rfl⟩)
  rw [if_neg genesis]
  split
  · split_ifs <;> exact .inl rfl
  split
  · exact .inl rfl
  · exact .inl rfl
  rename_i work
  split
  · exact .inl rfl
  rename_i pindexPrev parent
  split
  · exact .inl rfl
  split
  · rename_i after passed
    split_ifs
    · exact .inl rfl
    · exact .inr (.inr ⟨pindexPrev, after, parent, checkBlockHeader_valid work, passed, rfl⟩)
  · exact .inl rfl
  · exact .inl rfl

variable {index : BlockMap}

theorem addToBlockIndex_known (known : (index (block.getHash hasher)).isSome) :
    (addToBlockIndex hasher index block).1 = index := by
  rcases Option.isSome_iff_exists.mp known with ⟨entry, found⟩
  simp only [addToBlockIndex, found]

private theorem IndexSound.addToBlockIndex (sound : IndexSound hasher params index)
    (parent : index block.hashPrevBlock = some pindexPrev)
    (required : requiredBits pindexPrev params = some block.nBits)
    (work : MeetsTarget (block.getHash hasher) block.nBits) :
    IndexSound hasher params (addToBlockIndex hasher index block).1 := by
  cases found : index (block.getHash hasher) with
  | some entry =>
    rw [addToBlockIndex_known (by rw [found]; rfl)]
    exact sound
  | none => ?_
  have parentKey := sound.keyed _ _ parent
  have other (key : Uint256) (entry : List CBlockIndex) (at_ : index key = some entry) :
      key ≠ block.getHash hasher := by
    rintro rfl
    rw [found] at at_
    cases at_
  simp only [Validation.addToBlockIndex, found, parent, Option.getD_some]
  refine ⟨?_, ?_, ?_⟩
  · rcases Option.isSome_iff_exists.mp sound.genesis with ⟨entry, genesis⟩
    rw [if_neg (other _ _ genesis), genesis]
    rfl
  · intro key entry stored
    split_ifs at stored with new
    · rw [← Option.some.inj stored, new]
      rfl
    · exact sound.keyed key entry stored
  · intro key entry stored notGenesis
    split_ifs at stored with new
    · rw [← Option.some.inj stored]
      have reproduced (nHeight : Int) : CBlockIndex.getBlockHeader
          { hashBlock := block.getHash hasher, nHeight := nHeight, nVersion := block.nVersion,
            hashMerkleRoot := block.hashMerkleRoot, nTime := block.nTime,
            nBits := block.nBits, nNonce := block.nNonce } pindexPrev = block := by
        simp only [CBlockIndex.getBlockHeader, parentKey, Option.getD_some]
      exact ⟨required, by rw [reproduced]; exact work⟩
    · exact sound.sound key entry stored notGenesis

/-- The submission is evaluated header first, or it already carries the bits
demanded after its parent. -/
def OrderHarmless (params : Params) (index : BlockMap) (submission : Submission) : Prop :=
  submission.order = .headerFirst ∨
    ∀ pindexPrev, index submission.header.hashPrevBlock = some pindexPrev →
      BitsDemanded params pindexPrev submission.header.nBits

def acceptStep (hasher : List UInt8 → Uint256) (params : Params) (index : BlockMap)
    (submission : Submission) : BlockMap :=
  (acceptBlockHeader hasher params index submission).index

theorem IndexSound.acceptStep (sound : IndexSound hasher params index) {submission : Submission}
    (harmless : OrderHarmless params index submission) :
    IndexSound hasher params (acceptStep hasher params index submission) := by
  unfold Validation.acceptStep
  rcases acceptBlockHeader_cases hasher params index submission with
    same | ⟨genesis, added⟩ | ⟨pindexPrev, after, parent, work, passed, added⟩
  · rw [same]
    exact sound
  · rw [added, addToBlockIndex_known (by rw [genesis]; exact sound.genesis)]
    exact sound
  · rcases contextualCheckBlockHeader_valid passed with ⟨required, rest, headerFirst⟩
    -- in both cases the header whose work was checked is the header that is stored
    have bits : after.nBits = submission.header.nBits := by
      rcases harmless with first | demanded
      · exact headerFirst first
      · exact ((bitsDemanded_iff params pindexPrev _).mp (demanded pindexPrev parent)
          after.nBits required).symm
    rw [bits] at rest
    rw [added]
    refine sound.addToBlockIndex ?_ required ?_
    · rw [rest]
      exact parent
    · rw [rest]
      exact work

private theorem loadGenesisBlock_sound (hasher : List UInt8 → Uint256) (params : Params)
    (genesis : CBlockHeader) (isGenesis : genesis.getHash hasher = params.hashGenesisBlock) :
    IndexSound hasher params (loadGenesisBlock hasher genesis) := by
  simp only [loadGenesisBlock, addToBlockIndex, isGenesis]
  refine ⟨by simp, ?_, ?_⟩
  · intro key entry stored
    split_ifs at stored with new
    rw [← Option.some.inj stored, new]
    rfl
  · intro key entry stored notGenesis
    rw [if_neg notGenesis] at stored
    cases stored

/-- Every index reached by submissions whose evaluation order is harmless holds,
outside the genesis block, only entries with the required bits and the work they
demand. -/
theorem acceptBlockHeader_run_sound (hasher : List UInt8 → Uint256) (params : Params)
    (genesis : CBlockHeader) (isGenesis : genesis.getHash hasher = params.hashGenesisBlock)
    (submissions : List Submission)
    (harmless : Run.Along (acceptStep hasher params) (OrderHarmless params)
      (loadGenesisBlock hasher genesis) submissions)
    (key : Uint256) (notGenesis : key ≠ params.hashGenesisBlock) (entry : List CBlockIndex)
    (added : Run.run (acceptStep hasher params) (loadGenesisBlock hasher genesis) submissions key =
      some entry) : EntrySound hasher params entry :=
  (Run.invariant (IndexSound hasher params) (fun _ _ sound order => sound.acceptStep order)
    (loadGenesisBlock_sound hasher params genesis isGenesis) harmless).sound
    key entry added notGenesis

def genesisHeader : CBlockHeader := mainGenesis.getBlockHeader []

/-- A hash function that knows the genesis header and maps every other header to
one value. -/
def constantHasher (value : Uint256) (bytes : List UInt8) : Uint256 :=
  if bytes = genesisHeader.serialize then mainParams.hashGenesisBlock else value

def submit (header : CBlockHeader) (order : OperandOrder) : Submission :=
  { header := header
    order := order
    minPowChecked := true
    now := 1723502500 * 10 ^ 9
    failed := fun _ => false }

/-- A child with the required bits and a small hash is stored and sound. -/
theorem acceptBlockHeader_run_sound_child :
    let hasher := constantHasher 1
    let child := submit { easyChild with nBits := 0x1e0fffff } .headerFirst
    ∃ entry, Run.run (acceptStep hasher mainParams) (loadGenesisBlock hasher genesisHeader) [child]
        1 = some entry ∧ EntrySound hasher mainParams entry := by
  refine ⟨_, rfl, ?_⟩
  exact acceptBlockHeader_run_sound (constantHasher 1) mainParams genesisHeader
    (by decide +kernel) [submit { easyChild with nBits := 0x1e0fffff } .headerFirst]
    ⟨.inl rfl, trivial⟩ 1 (by decide +kernel) _ rfl

/-- With the call evaluated first, a header worked on for an easy target is stored
with the required bits, which its hash does not meet. -/
theorem acceptBlockHeader_run_unsound :
    let hasher := constantHasher (2 ^ 250)
    let index := Run.run (acceptStep hasher mainParams) (loadGenesisBlock hasher genesisHeader)
      [submit easyChild .requiredFirst]
    (2 ^ 250 : Uint256) ≠ mainParams.hashGenesisBlock ∧
      (index (2 ^ 250)).map (fun entry => decide (EntrySound hasher mainParams entry)) =
        some false := by
  decide +kernel

end Adonai.Validation
