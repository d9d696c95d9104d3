/-
What the required target does when seconds move from an older block of a window to a newer one.

The loop gives the tip the weight one and the oldest block of the window the largest weight.
-/

import Adonai.Pow.Window

namespace Adonai.Pow

open ArithUint256
open Consensus (Params mainParams)
open Finset (range)

variable {params : Params} {chain : List CBlockIndex}

/-- Nothing wraps in the window: the two 64-bit sums, the narrowing of the weighted time to 32
bits, and the 256-bit sum and product. -/
structure NoWrap (params : Params) (chain : List CBlockIndex) (N : Nat) : Prop where
  interval : N < 2 ^ 63
  limit : params.powLimit < 2 ^ 256
  spacings : SpacingsFit params chain N
  targets : sumTargets chain N < 2 ^ 256
  timesLow : -2 ^ 63 ≤ weightedTimes params chain N
  timesHigh : weightedTimes params chain N < 2 ^ 32
  kLow : 0 ≤ weightedSpacing params chain N
  kHigh : weightedSpacing params chain N < 2 ^ 63
  product : lwmaProduct params chain N < 2 ^ 256

def Retargets (params : Params) (chain : List CBlockIndex) : Prop :=
  params.fPowNoRetargeting = false ∧ params.difficultyAdjustmentInterval < tipHeight chain + 1

theorem requiredBits_steady (fixed : ¬Retargets params chain) : requiredBits chain params =
      if params.fPowNoRetargeting then chain.head?.map CBlockIndex.nBits
      else some (getCompact params.powLimit false) := by
  unfold requiredBits
  split
  · rfl
  next adjusting =>
    have short : ¬params.difficultyAdjustmentInterval < tipHeight chain + 1 := by
      intro tall
      exact fixed ⟨Bool.eq_false_iff.mpr adjusting, tall⟩
    cases chain with
    | nil => rfl
    | cons last rest =>
      exact if_pos (not_lt.mp short)

theorem requiredBits_exact (linked : LinkedHeights chain) (retargets : Retargets params chain)
    {N : Nat} (isN : params.difficultyAdjustmentInterval = N) (positive : 0 < N)
    (noWrap : NoWrap params chain N) : requiredBits chain params =
      if weightedSpacing params chain N = 0 then none
      else some (getCompact (lwmaTarget params chain N) false) := by
  obtain ⟨adjusting, tall⟩ := retargets
  have long : N < chain.length := by
    have height := tipHeight_eq linked
    omega
  rw [requiredBits_wraps linked adjusting isN positive noWrap.interval long noWrap.spacings
    noWrap.targets noWrap.timesLow noWrap.timesHigh noWrap.kLow noWrap.kHigh,
    Nat.mod_eq_of_lt noWrap.product]
  rfl

/-! ### Moving seconds -/

/-- The chain with `d` seconds of the older block's solve time given to the more recent one: the
timestamps from the older block up to the one before the recent are `d` seconds earlier. Blocks
are counted from the tip. -/
def moveSeconds (chain : List CBlockIndex) (recent older d : Nat) : List CBlockIndex :=
  chain.mapIdx fun j block =>
    if recent < j ∧ j ≤ older then { block with nTime := block.nTime - UInt32.ofNat d } else block

def Unclamped (params : Params) (chain : List CBlockIndex) (j : Nat) : Prop :=
  -6 * spacingAt params chain j ≤ timeAt chain j - timeAt chain (j + 1) ∧
    timeAt chain j - timeAt chain (j + 1) ≤ 6 * spacingAt params chain j

private theorem Unclamped.solvetimeAt_eq {j : Nat} (unclamped : Unclamped params chain j) :
    solvetimeAt params chain j = timeAt chain j - timeAt chain (j + 1) := by
  obtain ⟨low, high⟩ := unclamped
  unfold solvetimeAt clamp
  rw [if_neg (not_lt.mpr low), if_neg (not_lt.mpr high)]

section Move

variable (chain : List CBlockIndex) (recent older d : Nat) (j : Nat)

theorem moveSeconds_getElem? :
    (moveSeconds chain recent older d)[j]? = (chain[j]?).map fun block =>
      if recent < j ∧ j ≤ older then { block with nTime := block.nTime - UInt32.ofNat d }
      else block :=
  List.getElem?_mapIdx

theorem moveSeconds_height :
    ((moveSeconds chain recent older d)[j]?).map CBlockIndex.nHeight =
      (chain[j]?).map CBlockIndex.nHeight := by
  rw [moveSeconds_getElem?, Option.map_map]
  congr 1
  funext block
  split <;> rfl

theorem targetAt_moveSeconds :
    targetAt (moveSeconds chain recent older d) j = targetAt chain j := by
  unfold targetAt
  rw [moveSeconds_getElem?, Option.map_map]
  congr 2
  funext block
  split <;> rfl

private theorem spacingAt_moveSeconds :
    spacingAt params (moveSeconds chain recent older d) j = spacingAt params chain j := by
  unfold spacingAt
  rw [moveSeconds_height]

theorem tipHeight_moveSeconds : tipHeight (moveSeconds chain recent older d) = tipHeight chain := by
  have height := moveSeconds_height chain recent older d 0
  unfold tipHeight
  rw [List.head?_eq_getElem?, List.head?_eq_getElem?, height]

private theorem timeAt_outside {j : Nat} (outside : ¬(recent < j ∧ j ≤ older)) :
    timeAt (moveSeconds chain recent older d) j = timeAt chain j := by
  unfold timeAt
  rw [moveSeconds_getElem?]
  simp only [if_neg outside, Option.map_id']

theorem timeAt_between {j : Nat} (between : recent < j ∧ j ≤ older) (inside : j < chain.length)
    (late : (d : Int) ≤ timeAt chain j) :
    timeAt (moveSeconds chain recent older d) j = timeAt chain j - d := by
  unfold timeAt at late ⊢
  rw [moveSeconds_getElem?]
  simp only [if_pos between]
  rw [List.getElem?_eq_getElem inside] at late ⊢
  change (d : Int) ≤ (chain[j].nTime.toNat : Int) at late
  change ((chain[j].nTime - UInt32.ofNat d).toNat : Int) = (chain[j].nTime.toNat : Int) - d
  have below : chain[j].nTime.toNat < 2 ^ 32 := chain[j].nTime.toNat_lt
  have isD : (UInt32.ofNat d).toNat = d := by
    rw [UInt32.toNat_ofNat', Nat.mod_eq_of_lt (by omega)]
  have ordered : UInt32.ofNat d ≤ chain[j].nTime := by
    rw [UInt32.le_iff_toNat_le]
    omega
  rw [UInt32.toNat_sub_of_le _ _ ordered]
  omega

theorem linked_moveSeconds (linked : LinkedHeights chain) :
    LinkedHeights (moveSeconds chain recent older d) := by
  have general : ∀ (f : Nat → CBlockIndex → CBlockIndex),
      (∀ j block, (f j block).nHeight = block.nHeight) →
        ∀ chain, LinkedHeights chain → LinkedHeights (chain.mapIdx f) := by
    intro f same chain linked
    induction chain generalizing f with
    | nil => trivial
    | cons block rest ih =>
      rw [List.mapIdx_cons]
      have later := ih (fun j => f (j + 1)) (fun j other => same (j + 1) other)
      cases rest with
      | nil =>
        change (f 0 block).nHeight = 0
        rw [same]
        exact linked
      | cons pprev rest =>
        rw [List.mapIdx_cons] at later ⊢
        refine ⟨?_, later linked.2⟩
        rw [same, same]
        exact linked.1
  apply general _ _ chain linked
  intro j block
  split <;> rfl

end Move

theorem weightedTimes_moveSeconds {recent older N : Nat} (d : Nat) (ordered : recent < older)
    (inside : older < N) (long : N < chain.length)
    (late : ∀ j, j ≤ older → recent < j → (d : Int) ≤ timeAt chain j)
    (unclamped : ∀ j, j = recent ∨ j = older →
      Unclamped params chain j ∧ Unclamped params (moveSeconds chain recent older d) j) :
    weightedTimes params (moveSeconds chain recent older d) N =
      weightedTimes params chain N - d * (older - recent : Nat) := by
  have outside := @timeAt_outside chain recent older d
  have between : ∀ j, recent < j → j ≤ older →
      timeAt (moveSeconds chain recent older d) j = timeAt chain j - d := by
    intro j after before
    exact timeAt_between chain recent older d ⟨after, before⟩ (by omega) (late j before after)
  have terms : ∀ j : Nat, ((j : Int) + 1) * solvetimeAt params
    (moveSeconds chain recent older d) j =
      ((j : Int) + 1) * solvetimeAt params chain j +
        ((if j = recent then ((recent : Int) + 1) * d else 0) -
          if j = older then ((older : Int) + 1) * d else 0) := by
    intro j
    by_cases first : j = recent
    · subst first
      obtain ⟨before, after⟩ := unclamped j (.inl rfl)
      rw [before.solvetimeAt_eq, after.solvetimeAt_eq, outside (by omega),
        between (j + 1) (by omega) (by omega), if_pos rfl, if_neg (by omega)]
      ring
    by_cases last : j = older
    · subst last
      obtain ⟨before, after⟩ := unclamped j (.inr rfl)
      rw [before.solvetimeAt_eq, after.solvetimeAt_eq, outside (j := j + 1) (by omega),
        between j ordered (le_refl j), if_neg first, if_pos rfl]
      ring
    have same : solvetimeAt params (moveSeconds chain recent older d) j =
        solvetimeAt params chain j := by
      unfold solvetimeAt
      by_cases inner : recent < j ∧ j < older
      · rw [between j inner.1 (by omega), between (j + 1) (by omega) (by omega),
          spacingAt_moveSeconds]
        congr 1
        ring
      · rw [outside (by omega), outside (by omega), spacingAt_moveSeconds]
    rw [same, if_neg first, if_neg last]
    ring
  unfold weightedTimes
  rw [Finset.sum_congr rfl fun j _ => terms j, Finset.sum_add_distrib, Finset.sum_sub_distrib,
    Finset.sum_ite_eq', Finset.sum_ite_eq', if_pos (Finset.mem_range.mpr (by omega)),
    if_pos (Finset.mem_range.mpr inside)]
  push_cast [ordered.le]
  ring

private theorem lwmaTarget_lt {N : Nat} (noWrap : NoWrap params chain N) :
    lwmaTarget params chain N < 2 ^ 256 :=
  (Nat.min_le_left _ _).trans_lt noWrap.limit

/-- Moving seconds towards the tip never lowers the required target exactly when the difficulty
is not adjusted, or the average target times the lesser weighted time still reaches the rounded
target of the window. -/
theorem getNextWorkRequired_moved_iff (params : Params) (chain : List CBlockIndex)
    (pblock : Option CBlockHeader) (linked : LinkedHeights chain) (N recent older d : Nat)
    (isN : params.difficultyAdjustmentInterval = N) (ordered : recent < older) (inside : older < N)
    (late : ∀ j, j ≤ older → recent < j → (d : Int) ≤ timeAt chain j)
    (unclamped : ∀ j, j = recent ∨ j = older →
      Unclamped params chain j ∧ Unclamped params (moveSeconds chain recent older d) j)
    (noWrap : NoWrap params chain N)
    (noWrapMoved : NoWrap params (moveSeconds chain recent older d) N) (before after : UInt32)
    (isBefore : (getNextWorkRequired chain pblock params).map Prod.fst = some before)
    (isAfter : (getNextWorkRequired (moveSeconds chain recent older d) pblock params).map Prod.fst =
      some after) : (setCompact before).target ≤ (setCompact after).target ↔
      ¬Retargets params chain ∨
        compactFloor (lwmaTarget params chain N) * (weightedSpacing params chain N).toNat ≤
          sumTargets chain N / N *
            (max 1 (weightedTimes params chain N - d * (older - recent : Nat))).toNat := by
  rw [getNextWorkRequired_bits] at isBefore isAfter
  have moved : Retargets params (moveSeconds chain recent older d) ↔ Retargets params chain := by
    rw [Retargets, tipHeight_moveSeconds, Retargets]
  by_cases retargets : Retargets params chain
  swap
  · -- without an adjustment the result does not depend on any time
    have bits : ((moveSeconds chain recent older d).head?).map CBlockIndex.nBits =
        chain.head?.map CBlockIndex.nBits := by
      rw [List.head?_eq_getElem?, List.head?_eq_getElem?, moveSeconds_getElem?, Option.map_map]
      congr 1
    rw [requiredBits_steady (moved.not.mpr retargets), bits, ← requiredBits_steady retargets,
      isBefore] at isAfter
    cases isAfter
    exact iff_of_true (le_refl _) (.inl retargets)
  have long : N < chain.length := by
    have tall := retargets.2
    rw [tipHeight_eq linked] at tall
    omega
  have positive : 0 < N := by omega
  have spacingMoved : weightedSpacing params (moveSeconds chain recent older d) N =
      weightedSpacing params chain N :=
    Finset.sum_congr rfl fun j _ => by rw [spacingAt_moveSeconds]
  have targetsMoved : sumTargets (moveSeconds chain recent older d) N = sumTargets chain N :=
    Finset.sum_congr rfl fun j _ => targetAt_moveSeconds chain recent older d j
  have timesMoved := weightedTimes_moveSeconds d ordered inside long late unclamped
  rw [requiredBits_exact linked retargets isN positive noWrap] at isBefore
  rw [requiredBits_exact (linked_moveSeconds chain recent older d linked) (moved.mpr retargets)
    isN positive noWrapMoved, spacingMoved] at isAfter
  by_cases zero : weightedSpacing params chain N = 0
  · rw [if_pos zero] at isBefore
    cases isBefore
  rw [if_neg zero, Option.some.injEq] at isBefore isAfter
  have kPositive : 0 < (weightedSpacing params chain N).toNat := by
    have low := noWrap.kLow
    omega
  rw [← isBefore, ← isAfter, setCompact_getCompact _ (lwmaTarget_lt noWrap),
    setCompact_getCompact _ (lwmaTarget_lt noWrapMoved)]
  have isMoved : lwmaTarget params (moveSeconds chain recent older d) N = min _ (_ / _) := rfl
  rw [lwmaProduct, targetsMoved, timesMoved, spacingMoved] at isMoved
  rw [isMoved, ← Nat.le_div_iff_mul_le kPositive]
  have limited : compactFloor (lwmaTarget params chain N) ≤ params.powLimit :=
    (compactFloor_le _).trans (Nat.min_le_left _ _)
  constructor
  · intro kept
    exact .inr ((kept.trans (compactFloor_le _)).trans (Nat.min_le_right _ _))
  · intro kept
    rcases kept with impossible | reached
    · exact absurd retargets impossible
    · rw [← compactFloor_idem (lwmaTarget params chain N)]
      exact compactFloor_mono (le_min limited reached)

theorem noWrap_main (chain : List CBlockIndex) (targets : sumTargets chain 60 < 2 ^ 256)
    (product : lwmaProduct mainParams chain 60 < 2 ^ 256) : NoWrap mainParams chain 60 := by
  obtain ⟨low, high⟩ := weightedSpacing_bounds chain
  have times := weightedTimes_bounds chain
  exact ⟨by norm_num, by norm_num [mainParams], spacingsFit_main chain, targets, by omega,
    by omega, by omega, by omega, product⟩

instance (params : Params) (chain : List CBlockIndex) (j : Nat) :
    Decidable (Unclamped params chain j) :=
  inferInstanceAs (Decidable (_ ∧ _))

/-- Blocks every 500 seconds: the limit cuts off both targets. -/
theorem getNextWorkRequired_moved_slow :
    (getNextWorkRequired (steadyChain 500 60) none mainParams).map Prod.fst = some 0x1e0fffff ∧
      (getNextWorkRequired (moveSeconds (steadyChain 500 60) 0 59 100) none mainParams).map
        Prod.fst = some 0x1e0fffff ∧
      ((setCompact 0x1e0fffff).target ≤ (setCompact 0x1e0fffff).target ↔
        ¬Retargets mainParams (steadyChain 500 60) ∨
          compactFloor (lwmaTarget mainParams (steadyChain 500 60) 60) *
              (weightedSpacing mainParams (steadyChain 500 60) 60).toNat ≤
            sumTargets (steadyChain 500 60) 60 / 60 *
              (max 1 (weightedTimes mainParams (steadyChain 500 60) 60 -
                (100 : Nat) * (59 - 0 : Nat))).toNat) := by
  have before : (getNextWorkRequired (steadyChain 500 60) none mainParams).map Prod.fst =
      some 0x1e0fffff := by decide +kernel
  have after : (getNextWorkRequired (moveSeconds (steadyChain 500 60) 0 59 100) none
      mainParams).map Prod.fst = some 0x1e0fffff := by decide +kernel
  have late : ∀ j, j ≤ 59 → 0 < j → ((100 : Nat) : Int) ≤ timeAt (steadyChain 500 60) j := by
    decide +kernel
  have unclamped : ∀ j, j = 0 ∨ j = 59 → Unclamped mainParams (steadyChain 500 60) j ∧
      Unclamped mainParams (moveSeconds (steadyChain 500 60) 0 59 100) j := by
    intro j isEither
    rcases isEither with rfl | rfl
    · decide +kernel
    · decide +kernel
  exact ⟨before, after, getNextWorkRequired_moved_iff mainParams (steadyChain 500 60) none
    (by decide +kernel) 60 0 59 100 rfl (by decide) (by decide) late unclamped
    (noWrap_main _ (by decide +kernel) (by decide +kernel))
    (noWrap_main _ (by decide +kernel) (by decide +kernel)) _ _ before after⟩

/-- Blocks every 100 seconds: 100 seconds moved from the oldest block of the window to the tip
lower the target. -/
theorem getNextWorkRequired_moved_lowers :
    LinkedHeights (steadyChain 100 60) ∧ Retargets mainParams (steadyChain 100 60) ∧
      (∀ j, j ≤ 59 → 0 < j → (100 : Int) ≤ timeAt (steadyChain 100 60) j) ∧
      (∀ j, j = 0 ∨ j = 59 → Unclamped mainParams (steadyChain 100 60) j ∧
        Unclamped mainParams (moveSeconds (steadyChain 100 60) 0 59 100) j) ∧
      NoWrap mainParams (steadyChain 100 60) 60 ∧
      NoWrap mainParams (moveSeconds (steadyChain 100 60) 0 59 100) 60 ∧
      ∃ before after,
        (getNextWorkRequired (steadyChain 100 60) none mainParams).map Prod.fst = some before ∧
        (getNextWorkRequired (moveSeconds (steadyChain 100 60) 0 59 100) none mainParams).map
          Prod.fst = some after ∧
        (setCompact after).target < (setCompact before).target := by
  refine ⟨by decide +kernel, ⟨rfl, by decide +kernel⟩, by decide +kernel, ?_,
    noWrap_main _ (by decide +kernel) (by decide +kernel),
    noWrap_main _ (by decide +kernel) (by decide +kernel),
    0x1e0d5554, 0x1e0ce748, ?_⟩
  · intro j isEither
    rcases isEither with rfl | rfl
    · decide +kernel
    · decide +kernel
  · decide +kernel

end Adonai.Pow
