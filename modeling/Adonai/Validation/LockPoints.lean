/-
Relative lock times, and lock points kept from an earlier tip.

Lock points remember the highest block an input was confirmed in. While that block is in the chain,
the locks of confirmed inputs are what they would be at the new tip; those of inputs still
unconfirmed were counted from the old tip.
-/

import Adonai.Validation.MedianTime
import Adonai.Validation.ReorgFilter

namespace Adonai.Validation

open CBlockIndex (getAncestor getMedianTimePast)
open Coins Consensus Mempool Program
open Adonai.Pow (LinkedHeights)

def lockValue (txin : CTxIn) : Int := (txin.nSequence &&& CTxIn.SEQUENCE_LOCKTIME_MASK).toNat

def Satisfied (chain : List CBlockIndex) (nHeight nTime : Int) (txin : CTxIn) (nCoinHeight : Int) :
    Prop :=
  if txin.nSequence &&& CTxIn.SEQUENCE_LOCKTIME_DISABLE_FLAG ≠ 0 then True
  else if txin.nSequence &&& CTxIn.SEQUENCE_LOCKTIME_TYPE_FLAG ≠ 0 then
    match getAncestor chain (max (nCoinHeight - 1) 0) with
    | [] => False
    | ancestor => getMedianTimePast ancestor + lockValue txin * 512 ≤ nTime
  else nCoinHeight + lockValue txin ≤ nHeight

def Unlocked (txin : CTxIn) : Prop :=
  txin.nSequence &&& CTxIn.SEQUENCE_LOCKTIME_DISABLE_FLAG ≠ 0 ∨ lockValue txin = 0

def Passes (locks : Except Halt (Int × Int)) (nHeight nTime : Int) : Prop :=
  match locks with
  | .ok lock => lock.1 < nHeight ∧ lock.2 < nTime
  | .error _ => False

theorem passes_sequenceLock (chain : List CBlockIndex) (nHeight nTime : Int) (txin : CTxIn)
    (nCoinHeight : Int) (lock : Int × Int) :
    Passes (sequenceLock chain txin nCoinHeight lock) nHeight nTime ↔
      (lock.1 < nHeight ∧ lock.2 < nTime) ∧ Satisfied chain nHeight nTime txin nCoinHeight := by
  unfold sequenceLock Satisfied
  split_ifs
  · simp only [Passes, and_true]
  · cases getAncestor chain (max (nCoinHeight - 1) 0) with
    | nil => simp only [Passes, and_false]
    | cons block ancestors =>
      simp only [Passes, lockValue, CTxIn.SEQUENCE_LOCKTIME_GRANULARITY]
      omega
  · simp only [Passes, lockValue]
    omega

variable {chain : List CBlockIndex} {nHeight nTime : Int}

theorem passes_sequenceLocksLoop (inputs : List (CTxIn × Int)) (lock : Int × Int) :
    Passes (sequenceLocksLoop chain inputs lock) nHeight nTime ↔
      (lock.1 < nHeight ∧ lock.2 < nTime) ∧
        ∀ input ∈ inputs, Satisfied chain nHeight nTime input.1 input.2 := by
  induction inputs generalizing lock with
  | nil => simp [sequenceLocksLoop, Passes]
  | cons input inputs ih =>
    have first := passes_sequenceLock chain nHeight nTime input.1 input.2 lock
    rw [sequenceLocksLoop, List.forall_mem_cons, ← and_assoc, ← first]
    cases sequenceLock chain input.1 input.2 lock with
    | ok lock => exact ih lock
    | error halt => simp [Passes, bind, Except.bind]

theorem passes_calculateSequenceLocks (tx : CTransaction) (verifySequence : Bool)
    (prevHeights : List Int) (chain : List CBlockIndex) (height : 0 ≤ nHeight) (time : 0 ≤ nTime) :
    Passes (calculateSequenceLocks tx verifySequence prevHeights chain) nHeight nTime ↔
      (tx.version ≥ 2 ∧ verifySequence = true →
        ∀ input ∈ tx.vin.zip prevHeights, Satisfied chain nHeight nTime input.1 input.2) := by
  rw [calculateSequenceLocks]
  have start : (-1 : Int) < nHeight ∧ (-1 : Int) < nTime := ⟨by omega, by omega⟩
  split_ifs with enforced
  · rw [passes_sequenceLocksLoop, forall_prop_of_true enforced]
    exact and_iff_right start
  · exact iff_of_true start fun isEnforced => absurd isEnforced enforced

variable {ancestors : List CBlockIndex}

theorem sequenceLocks_iff_satisfied (tx : CTransaction) (verifySequence : Bool)
    (prevHeights : List Int) {block last : CBlockIndex}
    (linked : LinkedHeights (block :: last :: ancestors)) :
    sequenceLocks tx verifySequence prevHeights (block :: last :: ancestors) = .ok true ↔
      (tx.version ≥ 2 ∧ verifySequence = true → ∀ input ∈ tx.vin.zip prevHeights,
        Satisfied (block :: last :: ancestors) block.nHeight (getMedianTimePast (last :: ancestors))
          input.1 input.2) := by
  have height : 0 ≤ block.nHeight := by
    rw [linked.height_eq]
    exact Int.natCast_nonneg _
  rw [← passes_calculateSequenceLocks tx verifySequence prevHeights _ height
    (getMedianTimePast_nonneg _), sequenceLocks]
  cases calculateSequenceLocks tx verifySequence prevHeights (block :: last :: ancestors) with
  | ok lock => simp [Passes, evaluateSequenceLocks, bind, Except.bind]
  | error halt => simp [Passes, bind, Except.bind]

/-! ### Lock points -/

/-- Blocks of two chains with one hash are one block, with one ancestry. -/
def SameTree (chain other : List CBlockIndex) : Prop :=
  ∀ block ancestors block' ancestors', block :: ancestors <:+ chain →
    block' :: ancestors' <:+ other →
    block.hashBlock = block'.hashBlock → block :: ancestors = block' :: ancestors'

theorem linkedHeights_suffix (linked : LinkedHeights chain) (below : ancestors <:+ chain) :
      LinkedHeights ancestors := by
  obtain ⟨newer, rfl⟩ := below
  induction newer with
  | nil => exact linked
  | cons block newer ih =>
    exact ih linked.tail

private theorem linkedHeights_nextTip {tip : CBlockIndex} {pprev : List CBlockIndex}
    (linked : LinkedHeights (tip :: pprev)) : LinkedHeights (nextTip tip :: tip :: pprev) :=
  ⟨rfl, linked⟩

theorem getAncestor_eq_suffix (linked : LinkedHeights chain) {height : Nat}
    (inside : height < chain.length) :
    getAncestor chain height = chain.drop (chain.length - 1 - height) := by
  cases chain with
  | nil => cases inside
  | cons last rest =>
    have isHeight := linked.height_eq
    rw [List.length_cons] at inside ⊢
    have back : (height : Int) = last.nHeight - (rest.length + 1 - 1 - height : Nat) := by omega
    rw [back, getAncestor_eq_drop linked]

variable {height : Int}

theorem getAncestor_cons {block : CBlockIndex} (linked : LinkedHeights chain)
    (found : getAncestor chain height = block :: ancestors) :
    block :: ancestors <:+ chain ∧ height = ancestors.length := by
  cases chain with
  | nil => cases found
  | cons last rest => ?_
  have isHeight := linked.height_eq
  rw [getAncestor] at found
  split at found
  · cases found
  · have length := congrArg List.length found
    rw [List.length_drop, List.length_cons, List.length_cons] at length
    refine ⟨?_, by omega⟩
    rw [← found]
    exact List.drop_suffix _ _

theorem getAncestor_suffix (linked : LinkedHeights chain) (below : ancestors <:+ chain)
    {height : Nat} (inside : height < ancestors.length) :
    getAncestor chain height = getAncestor ancestors height := by
  rw [getAncestor_eq_suffix linked (inside.trans_le below.length_le),
    getAncestor_eq_suffix (linkedHeights_suffix linked below) inside]
  obtain ⟨newer, rfl⟩ := below
  rw [List.drop_append, List.length_append]
  have past : newer.drop (newer.length + ancestors.length - 1 - height) = [] := by
    apply List.drop_eq_nil_of_le
    omega
  rw [past, List.nil_append]
  congr 1
  omega

variable {tip next : CBlockIndex} {pprev nextPprev : List CBlockIndex} {tx : CTransaction}
  {prev_heights : List Int} {lp : LockPoints}

theorem lockPointsAt_ok (computed : lockPointsAt chain tip tx prev_heights = .ok lp) :
    calculateSequenceLocks tx true prev_heights (nextTip tip :: chain) = .ok (lp.height, lp.time) ∧
      ∃ block ancestors, getAncestor chain
          (((lockedHeights tx prev_heights).filter (· ≠ tip.nHeight + 1)).foldl max 0) =
        block :: ancestors ∧ lp.maxInputBlock = some block.hashBlock := by
  rw [lockPointsAt] at computed
  obtain ⟨lock, locks, computed⟩ := Program.exists_of_bind_ok computed
  dsimp only at computed
  split at computed
  · cases computed
  · next block ancestors found =>
    cases computed
    exact ⟨locks, block, ancestors, found, rfl⟩

private theorem zip_map (vin : List CTxIn) (height : CTxIn → Int) :
    vin.zip (vin.map height) = vin.map fun txin => (txin, height txin) := by
  have pairs : (vin.map id).zip (vin.map height) = vin.map fun txin => (id txin, height txin) :=
    List.zip_map'
  rwa [List.map_id] at pairs

theorem checkSequenceLocksAtTip_iff {height : CTxIn → Int}
    (linked : LinkedHeights (next :: nextPprev))
    (computed : lockPointsAt chain tip tx (tx.vin.map height) = .ok lp) :
    checkSequenceLocksAtTip (next :: nextPprev) next lp = .ok true ↔
      (tx.version ≥ 2 → ∀ txin ∈ tx.vin, Satisfied (nextTip tip :: chain) (next.nHeight + 1)
        (getMedianTimePast (next :: nextPprev)) txin (height txin)) := by
  have positive : 0 ≤ next.nHeight + 1 := by
    have isHeight := linked.height_eq
    omega
  have passes := passes_calculateSequenceLocks tx true (tx.vin.map height) (nextTip tip :: chain)
    positive (getMedianTimePast_nonneg (next :: nextPprev))
  rw [(lockPointsAt_ok computed).1, zip_map, List.forall_mem_map] at passes
  simp only [and_true] at passes
  rw [← passes]
  simp only [checkSequenceLocksAtTip, evaluateSequenceLocks, Except.ok.injEq,
    Bool.and_eq_true, decide_eq_true_eq]
  rfl

private theorem le_foldl_max {heights : List Int} (member : height ∈ heights) :
    height ≤ heights.foldl max 0 := by
  rw [List.foldl_max]
  cases highest : heights.max? with
  | none =>
    rw [List.max?_eq_none_iff.mp highest] at member
    cases member
  | some most => exact ((List.max?_eq_some_iff.mp highest).2 height member).trans (le_max_right _ _)

theorem satisfied_congr {other : List CBlockIndex} {txin : CTxIn} {nCoinHeight : Int}
    (same : txin.nSequence &&& CTxIn.SEQUENCE_LOCKTIME_DISABLE_FLAG = 0 →
      getAncestor chain (max (nCoinHeight - 1) 0) = getAncestor other (max (nCoinHeight - 1) 0)) :
    Satisfied chain nHeight nTime txin nCoinHeight ↔
      Satisfied other nHeight nTime txin nCoinHeight := by
  unfold Satisfied
  by_cases disabled : txin.nSequence &&& CTxIn.SEQUENCE_LOCKTIME_DISABLE_FLAG ≠ 0
  · rw [if_pos disabled, if_pos disabled]
  · rw [same (not_not.mp disabled)]

theorem satisfied_nextTip_iff (linked : LinkedHeights (next :: nextPprev)) (txin : CTxIn) :
    Satisfied (nextTip next :: next :: nextPprev) (next.nHeight + 1)
      (getMedianTimePast (next :: nextPprev)) txin (next.nHeight + 1) ↔ Unlocked txin := by
  have isHeight := linked.height_eq
  have last : getAncestor (nextTip next :: next :: nextPprev) (max (next.nHeight + 1 - 1) 0) =
      next :: nextPprev := by
    have back : max (next.nHeight + 1 - 1) 0 = (nextTip next).nHeight - (1 : Nat) := by
      change _ = next.nHeight + 1 - ((1 : Nat) : Int)
      omega
    rw [back, getAncestor_eq_drop (linkedHeights_nextTip linked)]
    rfl
  have nonneg : 0 ≤ lockValue txin := Int.natCast_nonneg _
  unfold Satisfied Unlocked
  rw [last]
  split
  case isTrue disabled =>
    exact iff_of_true trivial (.inl disabled)
  case isFalse disabled =>
    rw [or_iff_right disabled]
    split
    · omega
    · omega

/-- Lock points computed at one tip pass `TestLockPointValidity` at another tip of the tree, and
the same inputs are confirmed at both. -/
structure Kept (tip : CBlockIndex) (pprev : List CBlockIndex) (next : CBlockIndex)
    (nextPprev : List CBlockIndex) (tx : CTransaction) (confirmed : CTxIn → Option Int)
    (lp fresh : LockPoints) : Prop where
  linked : LinkedHeights (tip :: pprev)
  nextLinked : LinkedHeights (next :: nextPprev)
  tree : SameTree (tip :: pprev) (next :: nextPprev)
  computed : ∃ mapTx stack after, stack.Sound ∧
    calculateLockPointsAtTip (tip :: pprev) tip mapTx tx stack = .ok (some lp, after) ∧
    ∀ txin ∈ tx.vin, confirmation mapTx stack.shown txin = confirmed txin
  recomputed : ∃ mapTx stack after, stack.Sound ∧
    calculateLockPointsAtTip (next :: nextPprev) next mapTx tx stack = .ok (some fresh, after) ∧
    ∀ txin ∈ tx.vin, confirmation mapTx stack.shown txin = confirmed txin
  valid : testLockPointValidity ((next :: nextPprev).map CBlockIndex.hashBlock) lp = true
  buried : ∀ txin ∈ tx.vin, ∀ height, confirmed txin = some height → height ≤ tip.nHeight

variable {confirmed : CTxIn → Option Int}

theorem lockPointsAt_of_calculated
    (computed : ∃ mapTx stack after, StackedView.Sound stack ∧
      calculateLockPointsAtTip chain tip mapTx tx stack = .ok (some lp, after) ∧
      ∀ txin ∈ tx.vin, confirmation mapTx stack.shown txin = confirmed txin) :
    lockPointsAt chain tip tx
      (tx.vin.map fun txin => (confirmed txin).getD (tip.nHeight + 1)) = .ok lp := by
  obtain ⟨mapTx, stack, after, sound, runs, confirms⟩ := computed
  have meets : Meets (calculateLockPointsAtTip chain tip mapTx tx) stack (fun _ => True)
      fun found _ => ∀ lp, found = some lp → lockPointsAt chain tip tx
        (tx.vin.map (prevHeight tip mapTx stack.shown)) = .ok lp := by
    apply Meets.bind
    refine (meets_calculatePrevHeights tip mapTx tx.vin sound).weaken ?_
    rintro found middle ⟨-, heights⟩
    cases found with
    | none => exact meets_pure nofun
    | some prev_heights =>
      apply Meets.bind
      refine meets_lift (fun lock_points locks => ?_) fun _ _ => trivial
      refine meets_pure fun lp same => ?_
      cases same
      rw [← heights prev_heights rfl]
      exact locks
  rw [← meets.result runs lp rfl]
  congr 1
  apply List.map_congr_left
  intro txin member
  rw [prevHeight, confirms txin member]

theorem Kept.common {fresh : LockPoints}
    (kept : Kept tip pprev next nextPprev tx confirmed lp fresh) (enforced : tx.version ≥ 2)
    {txin : CTxIn} (member : txin ∈ tx.vin) (isConfirmed : confirmed txin = some height) :
    Satisfied (nextTip tip :: tip :: pprev) nHeight nTime txin height ↔
      Satisfied (nextTip next :: next :: nextPprev) nHeight nTime txin height := by
  apply satisfied_congr
  intro enabled
  obtain ⟨-, block, ancestors, found, isBlock⟩ :=
    lockPointsAt_ok (lockPointsAt_of_calculated kept.computed)
  obtain ⟨inChain, isHighest⟩ := getAncestor_cons kept.linked found
  have inNext : block :: ancestors <:+ next :: nextPprev := by
    have valid := kept.valid
    rw [testLockPointValidity, isBlock, Option.all_some, decide_eq_true_eq] at valid
    obtain ⟨other, isOther, sameHash⟩ := List.mem_map.mp valid
    obtain ⟨newer, older, isNext⟩ := List.append_of_mem isOther
    have inOther : other :: older <:+ next :: nextPprev := ⟨newer, isNext.symm⟩
    rw [kept.tree block ancestors other older inChain inOther sameHash.symm]
    exact inOther
  have below : height ≤ ancestors.length := by
    rw [← isHighest]
    apply le_foldl_max
    rw [lockedHeights, if_pos enforced, zip_map, List.map_map, List.mem_filter]
    refine ⟨List.mem_map.mpr ⟨txin, member, ?_⟩, ?_⟩
    · change (if _ then _ else _) = _
      rw [isConfirmed, if_neg (not_not.mpr enabled)]
      rfl
    · have isBuried := kept.buried txin member height isConfirmed
      rw [decide_eq_true_eq]
      omega
  obtain ⟨position, isPosition⟩ := Int.eq_ofNat_of_zero_le (le_max_right (height - 1) 0)
  have inside : position < (block :: ancestors).length := by
    rw [List.length_cons]
    omega
  rw [isPosition, getAncestor_suffix (linkedHeights_nextTip kept.linked)
      (inChain.trans (List.suffix_cons _ _)) inside,
    getAncestor_suffix (linkedHeights_nextTip kept.nextLinked)
      (inNext.trans (List.suffix_cons _ _)) inside]

theorem forall_getD {P : CTxIn → Int → Prop} {vin : List CTxIn} {unconfirmed : Int} :
      (∀ txin ∈ vin, P txin ((confirmed txin).getD unconfirmed)) ↔
      (∀ txin ∈ vin, ∀ height, confirmed txin = some height → P txin height) ∧
        ∀ txin ∈ vin, confirmed txin = none → P txin unconfirmed := by
  constructor
  · intro each
    constructor
    · intro txin member height isConfirmed
      have holds := each txin member
      rwa [isConfirmed] at holds
    · intro txin member isUnconfirmed
      have holds := each txin member
      rwa [isUnconfirmed] at holds
  · rintro ⟨first, second⟩ txin member
    cases isConfirmed : confirmed txin with
    | none => exact second txin member isConfirmed
    | some height => exact first txin member height isConfirmed

/-- Sequence locks accept exactly when every enabled lock is met, and kept lock points judge as
new ones do exactly when, other locks being met, the locks of unconfirmed inputs counted from
the old tip are met if and only if there are none. -/
theorem sequenceLocks_and_kept_lockPoints :
    (∀ (tx : CTransaction) (verifySequence : Bool) (prevHeights : List Int)
        (block last : CBlockIndex) (ancestors : List CBlockIndex),
      LinkedHeights (block :: last :: ancestors) →
        (sequenceLocks tx verifySequence prevHeights (block :: last :: ancestors) = .ok true ↔
          (tx.version ≥ 2 ∧ verifySequence = true → ∀ input ∈ tx.vin.zip prevHeights,
            Satisfied (block :: last :: ancestors) block.nHeight
              (getMedianTimePast (last :: ancestors)) input.1 input.2))) ∧
      ∀ (tip : CBlockIndex) (pprev : List CBlockIndex) (next : CBlockIndex)
          (nextPprev : List CBlockIndex) (tx : CTransaction) (confirmed : CTxIn → Option Int)
          (lp fresh : LockPoints),
        Kept tip pprev next nextPprev tx confirmed lp fresh →
          (checkSequenceLocksAtTip (next :: nextPprev) next lp =
              checkSequenceLocksAtTip (next :: nextPprev) next fresh ↔
            (tx.version ≥ 2 →
              (∀ txin ∈ tx.vin, ∀ height, confirmed txin = some height →
                Satisfied (nextTip next :: next :: nextPprev) (next.nHeight + 1)
                  (getMedianTimePast (next :: nextPprev)) txin height) →
              ((∀ txin ∈ tx.vin, confirmed txin = none →
                  Satisfied (nextTip tip :: tip :: pprev) (next.nHeight + 1)
                    (getMedianTimePast (next :: nextPprev)) txin (tip.nHeight + 1)) ↔
                ∀ txin ∈ tx.vin, confirmed txin = none → Unlocked txin))) := by
  refine ⟨fun tx verifySequence prevHeights block last ancestors linked =>
    sequenceLocks_iff_satisfied tx verifySequence prevHeights linked, ?_⟩
  intro tip pprev next nextPprev tx confirmed lp fresh kept
  have stale := checkSequenceLocksAtTip_iff kept.nextLinked
    (lockPointsAt_of_calculated kept.computed)
  have renewed :=
    checkSequenceLocksAtTip_iff kept.nextLinked (lockPointsAt_of_calculated kept.recomputed)
  rw [forall_getD] at stale renewed
  have same : checkSequenceLocksAtTip (next :: nextPprev) next lp =
        checkSequenceLocksAtTip (next :: nextPprev) next fresh ↔
      (checkSequenceLocksAtTip (next :: nextPprev) next lp = .ok true ↔
        checkSequenceLocksAtTip (next :: nextPprev) next fresh = .ok true) := by
    unfold checkSequenceLocksAtTip evaluateSequenceLocks
    rw [Except.ok.injEq, Except.ok.injEq, Except.ok.injEq, Bool.eq_iff_iff]
  rw [same, stale, renewed]
  by_cases enforced : tx.version ≥ 2
  · rw [forall₂_congr fun txin (member : txin ∈ tx.vin) =>
      forall₂_congr fun _ => kept.common enforced member]
    simp only [satisfied_nextTip_iff kept.nextLinked, forall_prop_of_true enforced,
      and_congr_right_iff]
  · simp only [enforced, false_implies]

def numberedBlock (height : Nat) : CBlockIndex :=
  { timedBlock height 10 with hashBlock := BitVec.ofNat 256 height }

def lockedSpend (nSequence : UInt32) : CTransaction :=
  { rewardSpend with
    vin := [{ prevout := { hash := 6, n := 0 }, scriptSig := [], nSequence := nSequence
              scriptWitness := [] }]
    hash := 7 }

theorem kept_lockedSpend {nSequence : UInt32} {lp fresh : LockPoints}
    (isGenesis : lp.maxInputBlock = some 0)
    (computed : calculateLockPointsAtTip [numberedBlock 0] (numberedBlock 0)
      (AList.singleton 6 rewardEntry) (lockedSpend nSequence) rewardView =
        .ok (some lp, rewardView))
    (recomputed : calculateLockPointsAtTip [numberedBlock 1, numberedBlock 0] (numberedBlock 1)
      (AList.singleton 6 rewardEntry) (lockedSpend nSequence) rewardView =
        .ok (some fresh, rewardView)) :
    Kept (numberedBlock 0) [] (numberedBlock 1) [numberedBlock 0] (lockedSpend nSequence)
      (fun _ => none) lp fresh := by
  have unconfirmed : ∀ txin ∈ (lockedSpend nSequence).vin,
      confirmation (AList.singleton 6 rewardEntry) rewardView.shown txin = none := by
    intro txin member
    rw [List.mem_singleton.mp member]
    rfl
  refine ⟨rfl, ⟨rfl, rfl⟩, ?_, ⟨_, _, _, rewardView_sound, computed, unconfirmed⟩,
    ⟨_, _, _, rewardView_sound, recomputed, unconfirmed⟩, ?_, nofun⟩
  · intro block ancestors block' ancestors' below below' sameHash
    simp only [List.suffix_cons_iff, List.suffix_nil, reduceCtorEq, or_false] at below below'
    obtain ⟨rfl, rfl⟩ := below
    rcases below' with ⟨rfl, rfl⟩ | ⟨rfl, rfl⟩
    · exact absurd sameHash (by decide)
    · rfl
  · rw [testLockPointValidity, isGenesis]
    rfl

theorem kept_lockPoints_differ :
    ∃ lp fresh, Kept (numberedBlock 0) [] (numberedBlock 1) [numberedBlock 0] (lockedSpend 1)
        (fun _ => none) lp fresh ∧
      checkSequenceLocksAtTip [numberedBlock 1, numberedBlock 0] (numberedBlock 1) lp = .ok true ∧
      checkSequenceLocksAtTip [numberedBlock 1, numberedBlock 0] (numberedBlock 1) fresh =
        .ok false :=
  ⟨⟨1, -1, some 0⟩, ⟨2, -1, some 0⟩, kept_lockedSpend rfl rfl rfl, rfl, rfl⟩

theorem sequenceLocks_and_kept_lockPoints_unlocked :
    sequenceLocks (lockedSpend 0) true [1] [numberedBlock 1, numberedBlock 0] = .ok true ∧
      ∃ lp fresh, Kept (numberedBlock 0) [] (numberedBlock 1) [numberedBlock 0] (lockedSpend 0)
          (fun _ => none) lp fresh ∧
        checkSequenceLocksAtTip [numberedBlock 1, numberedBlock 0] (numberedBlock 1) lp =
          checkSequenceLocksAtTip [numberedBlock 1, numberedBlock 0] (numberedBlock 1) fresh := by
  obtain ⟨accepts, keeps⟩ := sequenceLocks_and_kept_lockPoints
  constructor
  · apply (accepts (lockedSpend 0) true [1] (numberedBlock 1) (numberedBlock 0) [] ⟨rfl, rfl⟩).mpr
    intro _ input member
    rw [List.mem_singleton.mp member]
    change (1 : Int) + 0 ≤ 1
    decide
  · have kept : Kept (numberedBlock 0) [] (numberedBlock 1) [numberedBlock 0] (lockedSpend 0)
        (fun _ => none) ⟨0, -1, some 0⟩ ⟨1, -1, some 0⟩ := kept_lockedSpend rfl rfl rfl
    refine ⟨_, _, kept, (keeps _ _ _ _ _ _ _ _ kept).mpr fun _ _ => ?_⟩
    apply iff_of_true
    · intro txin member _
      rw [List.mem_singleton.mp member]
      change (1 : Int) + 0 ≤ 2
      decide
    · intro txin member _
      rw [List.mem_singleton.mp member]
      exact .inr rfl

end Adonai.Validation
