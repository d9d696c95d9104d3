/-
The median time past along a chain.

A block later than the median before it takes the place of the oldest time of a full window, or is
added to one that is not full. No more times lie below the old median than before.
-/

import Adonai.Validation.Header
import Adonai.Consensus.TxVerify

namespace Adonai.Validation

open CBlockIndex (getAncestor getMedianTimePast nMedianTimeSpan)
open Adonai.Pow (LinkedHeights)
open Consensus (Params isFinalTx evaluateSequenceLocks LOCKTIME_THRESHOLD)

theorem getAncestor_eq_drop {last : CBlockIndex} {rest : List CBlockIndex}
    (linked : LinkedHeights (last :: rest)) (n : Nat) :
    getAncestor (last :: rest) (last.nHeight - n) = (last :: rest).drop n := by
  have isHeight := linked.height_eq
  rw [getAncestor]
  by_cases below : last.nHeight - n < 0
  · rw [if_pos (.inr below), List.drop_eq_nil_of_le (by rw [List.length_cons]; omega)]
  · rw [if_neg (by omega)]
    have steps : (last.nHeight - (last.nHeight - n)).toNat = n := by omega
    rw [steps]

section OrderStatistics

variable {α : Type} [LinearOrder α]

theorem countP_eq_zero_of_le {bound : α} {items : List α} (above : ∀ item ∈ items, bound ≤ item) :
    items.countP (fun item => decide (item < bound)) = 0 := by
  rw [List.countP_eq_zero]
  intro item member below
  exact absurd (of_decide_eq_true below) (not_lt_of_ge (above item member))

/-- A bound is at most the item at a position of a sorted list exactly when no more items than
stand before that position are below it. -/
theorem le_getElem_iff_countP {sorted : List α} (ascending : sorted.Pairwise (· ≤ ·)) {bound : α}
    {position : Nat} (inside : position < sorted.length) : bound ≤ sorted[position] ↔
      sorted.countP (fun item => decide (item < bound)) ≤ position := by
  induction sorted generalizing position with
  | nil => cases inside
  | cons first rest ih =>
    obtain ⟨least, ascending⟩ := List.pairwise_cons.mp ascending
    by_cases below : first < bound
    · have counted : decide (first < bound) = true := decide_eq_true below
      rw [List.countP_cons_of_pos (p := fun item => decide (item < bound)) counted]
      cases position with
      | zero =>
        exact iff_of_false (not_le_of_gt below) (Nat.not_succ_le_zero _)
      | succ position =>
        rw [List.getElem_cons_succ, ih ascending (Nat.lt_of_succ_lt_succ inside)]
        exact Nat.succ_le_succ_iff.symm
    · have all : ∀ item ∈ first :: rest, bound ≤ item := by
        intro item member
        rcases List.mem_cons.mp member with rfl | later
        · exact le_of_not_gt below
        · exact (le_of_not_gt below).trans (least item later)
      rw [countP_eq_zero_of_le all]
      exact iff_of_true (all _ (List.getElem_mem inside)) (Nat.zero_le _)

end OrderStatistics

def windowTimes (pindex : List CBlockIndex) : List Int :=
  (pindex.take nMedianTimeSpan).map CBlockIndex.getBlockTime

private theorem le_getMedianTimePast_iff {pindex : List CBlockIndex} (nonempty : pindex ≠ [])
    {bound : Int} : bound ≤ getMedianTimePast pindex ↔
      (windowTimes pindex).countP (fun time => decide (time < bound)) ≤
        (windowTimes pindex).length / 2 := by
  have sameLength : ((windowTimes pindex).insertionSort (· ≤ ·)).length =
      (windowTimes pindex).length := List.length_insertionSort _ _
  have some : 0 < (windowTimes pindex).length := by
    have := List.length_pos_iff.mpr nonempty
    rw [windowTimes, List.length_map, List.length_take, nMedianTimeSpan]
    omega
  have inside : (windowTimes pindex).length / 2 <
      ((windowTimes pindex).insertionSort (· ≤ ·)).length := by omega
  change bound ≤ ((windowTimes pindex).insertionSort (· ≤ ·)).getD
    (((windowTimes pindex).insertionSort (· ≤ ·)).length / 2) 0 ↔ _
  rw [sameLength, List.getD_eq_getElem _ _ inside,
    le_getElem_iff_countP (List.pairwise_insertionSort _ _) inside,
    (List.perm_insertionSort (· ≤ ·) (windowTimes pindex)).countP_eq]

theorem getMedianTimePast_child {block : CBlockIndex} {pindex : List CBlockIndex}
    (nonempty : pindex ≠ []) (later : getMedianTimePast pindex < block.getBlockTime) :
    getMedianTimePast pindex ≤ getMedianTimePast (block :: pindex) := by
  have kept : ((pindex.take 10).map CBlockIndex.getBlockTime).Sublist (windowTimes pindex) :=
    (List.take_sublist_take_left (by decide)).map _
  have below := (le_getMedianTimePast_iff nonempty).mp (le_refl (getMedianTimePast pindex))
  rw [le_getMedianTimePast_iff (List.cons_ne_nil _ _), windowTimes, nMedianTimeSpan,
    List.take_succ_cons, List.map_cons, List.countP_cons_of_neg (by simpa using later.le)]
  calc _ ≤ (windowTimes pindex).countP fun time => decide (time < getMedianTimePast pindex) :=
        kept.countP_le
    _ ≤ (windowTimes pindex).length / 2 := below
    _ ≤ _ := by
      apply Nat.div_le_div_right
      simp only [windowTimes, nMedianTimeSpan, List.length_map, List.length_take, List.length_cons]
      omega

/-- Every block of the chain but the first is later than the median time past of its parent. -/
def TimesAdvance : List CBlockIndex → Prop
  | block :: last :: ancestors =>
    getMedianTimePast (last :: ancestors) < block.getBlockTime ∧ TimesAdvance (last :: ancestors)
  | _ => True

theorem TimesAdvance.accept {params : Params} {now : Int} {last entry : CBlockIndex}
    {ancestors : List CBlockIndex} {block : CBlockHeader}
    (advance : TimesAdvance (last :: ancestors))
    (valid : contextualTimeAndVersion params now last ancestors block = .valid)
    (same : entry.nTime = block.nTime) : TimesAdvance (entry :: last :: ancestors) := by
  refine ⟨?_, advance⟩
  unfold contextualTimeAndVersion at valid
  dsimp only at valid
  split at valid
  · cases valid
  next later =>
    rw [CBlockIndex.getBlockTime, same]
    exact Int.not_le.mp later

theorem getMedianTimePast_nonneg (pindex : List CBlockIndex) : 0 ≤ getMedianTimePast pindex := by
  by_cases nonempty : pindex = []
  · rw [nonempty]
    exact le_refl _
  have none : (windowTimes pindex).countP (fun time => decide (time < 0)) = 0 := by
    apply countP_eq_zero_of_le
    intro time member
    obtain ⟨block, _, rfl⟩ := List.mem_map.mp member
    exact Int.natCast_nonneg _
  rw [le_getMedianTimePast_iff nonempty, none]
  exact Nat.zero_le _

private theorem getMedianTimePast_append {newer pindex : List CBlockIndex}
    (advance : TimesAdvance (newer ++ pindex)) :
    getMedianTimePast pindex ≤ getMedianTimePast (newer ++ pindex) := by
  induction newer with
  | nil => exact le_refl _
  | cons block newer ih =>
    cases isParent : newer ++ pindex with
    | nil =>
      rw [(List.append_eq_nil_iff.mp isParent).2]
      exact getMedianTimePast_nonneg _
    | cons last ancestors =>
      rw [List.cons_append, isParent] at advance ⊢
      rw [isParent] at ih
      exact (ih advance.2).trans (getMedianTimePast_child (List.cons_ne_nil _ _) advance.1)

theorem isFinalTx_later {tx : CTransaction} (timed : LOCKTIME_THRESHOLD ≤ tx.nLockTime.toNat)
    {height laterHeight time laterTime : Int} (later : time ≤ laterTime)
    (final : isFinalTx tx height time = true) : isFinalTx tx laterHeight laterTime = true := by
  unfold isFinalTx at final ⊢
  rw [if_neg (Nat.not_lt.mpr timed)] at final ⊢
  rw [Bool.or_eq_true, Bool.or_eq_true, decide_eq_true_iff] at final ⊢
  rcases final with (zero | passed) | unlocked
  · exact .inl (.inl zero)
  · exact .inl (.inr (lt_of_lt_of_le passed later))
  · exact .inr unlocked

private theorem evaluateSequenceLocks_later {block descendant : CBlockIndex}
    {newer pindex : List CBlockIndex} {lockPair : Int × Int}
    (higher : block.nHeight ≤ descendant.nHeight)
    (later : getMedianTimePast pindex ≤ getMedianTimePast (newer ++ pindex))
    (passes : evaluateSequenceLocks (block :: pindex) lockPair = .ok true) :
    evaluateSequenceLocks (descendant :: (newer ++ pindex)) lockPair = .ok true := by
  cases pindex with
  | nil => cases passes
  | cons last ancestors => ?_
  obtain ⟨next, rest, isNext⟩ := List.exists_cons_of_ne_nil
    (List.append_ne_nil_of_right_ne_nil newer (List.cons_ne_nil last ancestors))
  rw [isNext] at later ⊢
  injection passes with passes
  rw [Bool.and_eq_true, decide_eq_true_iff, decide_eq_true_iff] at passes
  apply congrArg Except.ok
  rw [Bool.and_eq_true, decide_eq_true_iff, decide_eq_true_iff]
  exact ⟨passes.1.trans_le higher, passes.2.trans_le later⟩

/-- The median time past of a descendant is at least that of the ancestor, so a lock by time
that is met for a block on the ancestor is met for every block on the descendant. -/
theorem medianTimePast_never_decreases {newer pindex : List CBlockIndex}
    (advance : TimesAdvance (newer ++ pindex)) :
    getMedianTimePast pindex ≤ getMedianTimePast (newer ++ pindex) ∧
      (∀ (tx : CTransaction) (height laterHeight : Int),
        LOCKTIME_THRESHOLD ≤ tx.nLockTime.toNat →
          isFinalTx tx height (getMedianTimePast pindex) = true →
            isFinalTx tx laterHeight (getMedianTimePast (newer ++ pindex)) = true) ∧
      ∀ (block descendant : CBlockIndex) (lockPair : Int × Int),
        block.nHeight ≤ descendant.nHeight →
          evaluateSequenceLocks (block :: pindex) lockPair = .ok true →
            evaluateSequenceLocks (descendant :: (newer ++ pindex)) lockPair = .ok true := by
  have later := getMedianTimePast_append advance
  refine ⟨later, ?_, ?_⟩
  · intro tx height laterHeight timed final
    exact isFinalTx_later timed later final
  · intro block descendant lockPair higher passes
    exact evaluateSequenceLocks_later higher later passes

def timedBlock (height : Int) (nTime : UInt32) : CBlockIndex :=
  { hashBlock := 0, nHeight := height, nVersion := 4, hashMerkleRoot := 0, nTime := nTime
    nBits := 0, nNonce := 0 }

/-- The last block is earlier than its parent, and later than the median. -/
theorem medianTimePast_never_decreases_unordered :
    TimesAdvance ([timedBlock 3 31] ++ [timedBlock 2 40, timedBlock 1 30, timedBlock 0 20]) ∧
      getMedianTimePast [timedBlock 2 40, timedBlock 1 30, timedBlock 0 20] ≤
        getMedianTimePast
          ([timedBlock 3 31] ++ [timedBlock 2 40, timedBlock 1 30, timedBlock 0 20]) := by
  have advance :
      TimesAdvance ([timedBlock 3 31] ++ [timedBlock 2 40, timedBlock 1 30, timedBlock 0 20]) :=
    ⟨by decide, by decide, by decide, trivial⟩
  exact ⟨advance, (medianTimePast_never_decreases advance).1⟩

end Adonai.Validation
