/-
Honestly retargeted main-network chains against the transition check of header presync.

A chain is honest when every block after the genesis block carries the required bits and a time
above the median time past of its parent. The check allows a factor of four per block, the
weighted window far more.
-/

import Adonai.Pow.Window

namespace Adonai.Pow

open ArithUint256
open Consensus (Params mainParams)
open CBlockIndex (getMedianTimePast)

def mainGenesis : CBlockIndex :=
  { hashBlock := mainParams.hashGenesisBlock
    nHeight := 0
    nVersion := 1
    hashMerkleRoot := 0x3c27610446c91576f0f18fa4e758b72565f678ae063346fe6d271d6d850783b6
    nTime := 1723502400
    nBits := 0x1e0fffff
    nNonce := 1534261 }

def HonestChain : List CBlockIndex → Prop
  | [] => False
  | [genesis] => genesis = mainGenesis
  | block :: pprev :: rest =>
    block.nHeight = pprev.nHeight + 1 ∧
      requiredBits (pprev :: rest) mainParams = some block.nBits ∧
      getMedianTimePast (pprev :: rest) < block.getBlockTime ∧
      HonestChain (pprev :: rest)

instance decidableHonestChain : (chain : List CBlockIndex) → Decidable (HonestChain chain)
  | [] => inferInstanceAs (Decidable False)
  | [genesis] => inferInstanceAs (Decidable (genesis = mainGenesis))
  | block :: pprev :: rest =>
    have : Decidable (HonestChain (pprev :: rest)) := decidableHonestChain (pprev :: rest)
    inferInstanceAs (Decidable (block.nHeight = pprev.nHeight + 1 ∧
      requiredBits (pprev :: rest) mainParams = some block.nBits ∧
      getMedianTimePast (pprev :: rest) < block.getBlockTime ∧ HonestChain (pprev :: rest)))

def presyncAccepts (chain : List CBlockIndex) : Bool :=
  match chain, requiredBits chain mainParams with
  | last :: _, some next => permittedDifficultyTransition (last.nHeight + 1) last.nBits next
  | _, _ => false

/-- The next target stays within a factor of four of the last: the product of the average
target and the weighted time, as 256 bits hold it, lies between the weighted spacing times the
least compact value of at least a quarter of the last target, and times the least compact value
above four times it. Above the proof-of-work limit no upper bound is needed. -/
def WithinFactorFour (chain : List CBlockIndex) : Prop :=
  (weightedSpacing mainParams chain 60).toNat * compactNext ((targetAt chain 0 - 1) / 4) ≤
      lwmaProduct mainParams chain 60 % 2 ^ 256 ∧
    (mainParams.powLimit < compactNext (4 * targetAt chain 0) ∨
      lwmaProduct mainParams chain 60 % 2 ^ 256 <
        (weightedSpacing mainParams chain 60).toNat * compactNext (4 * targetAt chain 0))

instance (chain : List CBlockIndex) : Decidable (WithinFactorFour chain) :=
  inferInstanceAs (Decidable (_ ∧ _))

variable {chain : List CBlockIndex}

theorem HonestChain.linked (honest : HonestChain chain) : LinkedHeights chain := by
  induction chain with
  | nil => trivial
  | cons block rest ih =>
    cases rest with
    | nil =>
      have genesis : block = mainGenesis := honest
      rw [genesis]
      rfl
    | cons pprev rest => exact ⟨honest.1, ih honest.2.2.2⟩

theorem HonestChain.suffix {tail : List CBlockIndex} (honest : HonestChain chain)
    (suffix : tail <:+ chain) (nonempty : tail ≠ []) : HonestChain tail := by
  induction chain with
  | nil =>
    rw [List.suffix_nil] at suffix
    exact absurd suffix nonempty
  | cons block rest ih =>
    rcases List.suffix_cons_iff.mp suffix with rfl | below
    · exact honest
    · cases rest with
      | nil =>
        rw [List.suffix_nil] at below
        exact absurd below nonempty
      | cons pprev rest => exact ih honest.2.2.2 below

private theorem lwmaFinish_le {params : Params} {state : LwmaState} {target : Nat}
    (finished : lwmaFinish params state = some target) : target ≤ params.powLimit := by
  rw [lwmaFinish_eq, Option.ite_none_left_eq_some, Option.some.injEq] at finished
  rw [← finished.2]
  exact min_le_left _ _

theorem requiredBits_encoded {nBits : UInt32}
    (required : requiredBits chain mainParams = some nBits) :
    ∃ value, value ≤ mainParams.powLimit ∧ nBits = getCompact value false := by
  have limitCase (same : some (getCompact mainParams.powLimit false) = some nBits) :
      ∃ value, value ≤ mainParams.powLimit ∧ nBits = getCompact value false :=
    ⟨mainParams.powLimit, le_rfl, (Option.some.inj same).symm⟩
  unfold requiredBits at required
  rw [if_neg (show ¬ mainParams.fPowNoRetargeting = true by decide)] at required
  cases chain with
  | nil => exact limitCase required
  | cons last rest =>
    dsimp only at required
    split_ifs at required with short
    · exact limitCase required
    · rcases Option.map_eq_some_iff.mp required with ⟨target, finished, encoded⟩
      exact ⟨target, lwmaFinish_le finished, encoded.symm⟩

private theorem genesis_encoded : mainGenesis.nBits = getCompact mainParams.powLimit false := by
  decide +kernel

variable {block : CBlockIndex} {rest : List CBlockIndex}

theorem HonestChain.head_encoded (honest : HonestChain (block :: rest)) :
    ∃ value, value ≤ mainParams.powLimit ∧ block.nBits = getCompact value false := by
  cases rest with
  | nil =>
    have genesis : block = mainGenesis := honest
    rw [genesis]
    exact ⟨mainParams.powLimit, le_rfl, genesis_encoded⟩
  | cons pprev rest => exact requiredBits_encoded honest.2.1

private theorem powLimit_lt : mainParams.powLimit < 2 ^ 256 := by
  rw [powLimit_main]
  norm_num

theorem HonestChain.target_le (honest : HonestChain chain) (j : Nat) :
    targetAt chain j ≤ mainParams.powLimit := by
  induction chain generalizing j with
  | nil => exact honest.elim
  | cons block rest ih =>
    cases j with
    | zero =>
      rcases honest.head_encoded with ⟨value, le, encoded⟩
      change (setCompact block.nBits).target ≤ _
      rw [encoded, setCompact_getCompact value (le.trans_lt powLimit_lt)]
      exact (compactFloor_le value).trans le
    | succ j =>
      cases rest with
      | nil => exact Nat.zero_le _
      | cons pprev rest => exact ih honest.2.2.2 j

theorem HonestChain.head_at_limit (honest : HonestChain (block :: rest)) (low : block.nHeight ≤ 60)
    : block.nBits = getCompact mainParams.powLimit false := by
  cases rest with
  | nil =>
    have genesis : block = mainGenesis := honest
    rw [genesis]
    exact genesis_encoded
  | cons pprev rest =>
    have short : pprev.nHeight + 1 ≤ 60 := honest.1 ▸ low
    have required := honest.2.1
    change (if pprev.nHeight + 1 ≤ 60 then some (getCompact mainParams.powLimit false)
      else _) = _ at required
    rw [if_pos short] at required
    exact (Option.some.inj required).symm

theorem permittedDifficultyTransition_encoded (height : Int) (old new : Nat)
    (later : 1 ≤ height) (oldLe : old ≤ mainParams.powLimit) (newLe : new ≤ mainParams.powLimit) :
    permittedDifficultyTransition height (getCompact old false) (getCompact new false) = true ↔
      0 < compactFloor old ∧ compactFloor new ≤ 4 * compactFloor old ∧
        compactFloor old ≤ 4 * compactFloor new := by
  have oldFloor := compactFloor_le old
  have newFloor := compactFloor_le new
  rw [powLimit_main] at oldLe newLe
  have oldProduct : mul (compactFloor old) 4 = 4 * compactFloor old := by
    rw [Nat.mul_comm]
    exact Nat.mod_eq_of_lt (by omega)
  have newProduct : mul (compactFloor new) 4 = 4 * compactFloor new := by
    rw [Nat.mul_comm]
    exact Nat.mod_eq_of_lt (by omega)
  unfold permittedDifficultyTransition
  rw [if_neg (by omega), setCompact_getCompact old (by omega), setCompact_getCompact new (by omega)]
  simp only [Bool.false_or, Bool.or_eq_true, beq_iff_eq]
  constructor
  · intro accepted
    split_ifs at accepted with zero above below
    omega
  · rintro ⟨positive, upper, lower⟩
    rw [if_neg (by omega), if_neg (by omega), if_neg (by omega)]

theorem compactNext_quarter_le (value : Nat) (positive : 0 < compactFloor value) :
    compactNext ((compactFloor value - 1) / 4) ≤ value := by
  have above : ¬ compactFloor value ≤ (compactFloor value - 1) / 4 := by omega
  rw [compactFloor_le_iff] at above
  omega

/-- A limited quotient rounds to within a factor of four exactly when the
unrounded product lies between the two multiples of the divisor. -/
theorem factor_four_iff (value limit product divisor : Nat) (limitPos : 0 < limit)
    (valueLe : value ≤ limit) (divisorPos : 0 < divisor) : (0 < compactFloor value ∧
        compactFloor (min limit (product / divisor)) ≤ 4 * compactFloor value ∧
        compactFloor value ≤ 4 * compactFloor (min limit (product / divisor))) ↔
      divisor * compactNext ((compactFloor value - 1) / 4) ≤ product ∧
        (limit < compactNext (4 * compactFloor value) ∨
          product < divisor * compactNext (4 * compactFloor value)) := by
  have upper : compactFloor (min limit (product / divisor)) ≤ 4 * compactFloor value ↔
      limit < compactNext (4 * compactFloor value) ∨
        product < divisor * compactNext (4 * compactFloor value) := by
    rw [compactFloor_le_iff, min_lt_iff, Nat.div_lt_iff_lt_mul divisorPos, Nat.mul_comm divisor]
  rcases Nat.eq_zero_or_pos (compactFloor value) with zero | positive
  · -- a zero target fails both sides: nothing is a quarter of it
    have next_zero : compactNext 0 = 1 := by decide
    rw [zero]
    simp only [lt_self_iff_false, false_and, false_iff, next_zero]
    omega
  · have lower : compactFloor value ≤ 4 * compactFloor (min limit (product / divisor)) ↔
        divisor * compactNext ((compactFloor value - 1) / 4) ≤ product := by
      have quarter : compactFloor value ≤ 4 * compactFloor (min limit (product / divisor)) ↔
          ¬ compactFloor (min limit (product / divisor)) ≤ (compactFloor value - 1) / 4 := by
        omega
      have below := compactNext_quarter_le value positive
      rw [quarter, compactFloor_le_iff, not_lt, le_min_iff, Nat.le_div_iff_mul_le divisorPos,
        Nat.mul_comm divisor]
      exact ⟨fun both => both.2, fun within => ⟨below.trans valueLe, within⟩⟩
    rw [upper, lower]
    exact ⟨fun all => ⟨all.2.2, all.2.1⟩, fun both => ⟨positive, both.2, both.1⟩⟩

theorem targetAt_encoded {value : Nat} (small : value < 2 ^ 256)
    (encoded : block.nBits = getCompact value false) :
    targetAt (block :: rest) 0 = compactFloor value := by
  change (setCompact block.nBits).target = _
  rw [encoded, setCompact_getCompact value small]

theorem HonestChain.presyncAccepts_iff (honest : HonestChain chain) :
    presyncAccepts chain = true ↔ (60 ≤ tipHeight chain → WithinFactorFour chain) := by
  rcases chain with _ | ⟨last, rest⟩
  · exact honest.elim
  have height : last.nHeight = rest.length := honest.linked.height_eq
  have limitPos : 0 < mainParams.powLimit := by
    rw [powLimit_main]
    norm_num
  by_cases full : 60 ≤ last.nHeight
  · rcases honest.head_encoded with ⟨value, valueLe, encoded⟩
    have required := requiredBits_window (last :: rest) honest.linked
      (by rw [List.length_cons]; omega) (fun j _ => honest.target_le j)
    have spacing := weightedSpacing_bounds (last :: rest)
    simp only [presyncAccepts, required, encoded]
    rw [permittedDifficultyTransition_encoded _ value _ (by omega) valueLe
      (min_le_left _ _), factor_four_iff value _ _ _ limitPos valueLe (by omega)]
    unfold WithinFactorFour
    rw [targetAt_encoded (valueLe.trans_lt powLimit_lt) encoded]
    exact ⟨fun within _ => within, fun within => within full⟩
  · have encoded := honest.head_at_limit (by omega)
    have required : requiredBits (last :: rest) mainParams =
        some (getCompact mainParams.powLimit false) := by
      change (if last.nHeight + 1 ≤ 60 then some (getCompact mainParams.powLimit false)
        else _) = _
      rw [if_pos (by omega)]
    have positive := compactFloor_pos mainParams.powLimit limitPos
    simp only [presyncAccepts, required, encoded]
    rw [permittedDifficultyTransition_encoded _ _ _ (by omega) le_rfl le_rfl]
    exact ⟨fun _ full' => absurd full' full, fun _ => by omega⟩

/-- Presync follows an honest chain at every height exactly when every full window
along it stays within the factor of four. -/
theorem presyncAccepts_along_iff (chain : List CBlockIndex) (honest : HonestChain chain) :
    (∀ tail, tail <:+ chain → tail ≠ [] → presyncAccepts tail = true) ↔
      ∀ tail, tail <:+ chain → 60 ≤ tipHeight tail → WithinFactorFour tail := by
  constructor
  · intro accepted tail suffix full
    have nonempty : tail ≠ [] := by
      rintro rfl
      exact absurd full (by decide)
    exact ((honest.suffix suffix nonempty).presyncAccepts_iff).mp
      (accepted tail suffix nonempty) full
  · intro within tail suffix nonempty
    exact ((honest.suffix suffix nonempty).presyncAccepts_iff).mpr (within tail suffix)

def windowAfterGenesis (spacing : Nat) : List CBlockIndex :=
  (steadyChain spacing 60).dropLast ++ [mainGenesis]

theorem presyncAccepts_along_steady : presyncAccepts (windowAfterGenesis 100) = true :=
  (presyncAccepts_along_iff (windowAfterGenesis 100) (by decide +kernel)).mpr
    (fun tail suffix full =>
      (by decide +kernel : ∀ tail ∈ (windowAfterGenesis 100).tails,
        60 ≤ tipHeight tail → WithinFactorFour tail) tail ((List.mem_tails _ _).mpr suffix) full)
    (windowAfterGenesis 100) (List.suffix_refl _) (by decide +kernel)

/-- One block per second is consistent with the time rule and divides the target by
more than a hundred. -/
theorem presyncAccepts_fast_window :
    HonestChain (windowAfterGenesis 1) ∧ presyncAccepts (windowAfterGenesis 1) = false := by
  decide +kernel

/-- Both decode to positive targets without a flag, and neither is more than four times the
other. -/
def TransitionAllowed (oldBits newBits : UInt32) : Prop :=
  (∀ nBits, nBits = oldBits ∨ nBits = newBits →
    (setCompact nBits).fNegative = false ∧ (setCompact nBits).fOverflow = false ∧
      0 < (setCompact nBits).target) ∧
    (setCompact newBits).target ≤ 4 * (setCompact oldBits).target ∧
    (setCompact oldBits).target ≤ 4 * (setCompact newBits).target

def droppedByFour (target : Nat) : Nat := 2 ^ 256 * (4 * target / 2 ^ 256)

private theorem le_mul_four_iff (value target : Nat) :
    value ≤ mul target 4 ↔ value + droppedByFour target ≤ 4 * target := by
  unfold mul droppedByFour
  omega

theorem permittedDifficultyTransition_iff {height : Int} (later : 1 ≤ height)
    (oldBits newBits : UInt32) : permittedDifficultyTransition height oldBits newBits = true ↔
      (∀ nBits, nBits = oldBits ∨ nBits = newBits →
        (setCompact nBits).fNegative = false ∧ 0 < (setCompact nBits).target) ∧
        (setCompact newBits).target + droppedByFour (setCompact oldBits).target ≤
          4 * (setCompact oldBits).target ∧
        (setCompact oldBits).target + droppedByFour (setCompact newBits).target ≤
          4 * (setCompact newBits).target := by
  rw [← le_mul_four_iff, ← le_mul_four_iff]
  unfold permittedDifficultyTransition
  rw [if_neg (by omega)]
  simp only [forall_eq_or_imp, forall_eq, Bool.or_eq_true, beq_iff_eq]
  constructor
  · intro accepted
    split_ifs at accepted with flagged above below
    simp only [not_or, Bool.not_eq_true] at flagged
    obtain ⟨⟨⟨oldSign, newSign⟩, oldZero⟩, newZero⟩ := flagged
    exact ⟨⟨⟨oldSign, Nat.pos_of_ne_zero oldZero⟩, newSign, Nat.pos_of_ne_zero newZero⟩,
      not_lt.mp above, not_lt.mp below⟩
  · intro holds
    obtain ⟨⟨⟨oldSign, oldPositive⟩, newSign, newPositive⟩, above, below⟩ := holds
    rw [oldSign, newSign, if_neg, if_neg (not_lt.mpr above), if_neg (not_lt.mpr below)]
    simp only [Bool.false_eq_true, false_or, not_or]
    exact ⟨oldPositive.ne', newPositive.ne'⟩

/-- The check agrees with the factor of four over unbounded integers exactly when, for positive
targets without a sign, overflowing bits are refused by the reduced products, and bits that do
not overflow are not. -/
theorem permittedDifficultyTransition_exact_iff (height : Int) (later : 1 ≤ height)
    (oldBits newBits : UInt32) : (permittedDifficultyTransition height oldBits newBits = true ↔
        TransitionAllowed oldBits newBits) ↔
      ((∀ nBits, nBits = oldBits ∨ nBits = newBits →
          (setCompact nBits).fNegative = false ∧ 0 < (setCompact nBits).target) →
        if (setCompact oldBits).fOverflow = true ∨ (setCompact newBits).fOverflow = true then
          4 * (setCompact oldBits).target <
              (setCompact newBits).target + droppedByFour (setCompact oldBits).target ∨
            4 * (setCompact newBits).target <
              (setCompact oldBits).target + droppedByFour (setCompact newBits).target
        else
          (setCompact newBits).target ≤ 4 * (setCompact oldBits).target →
          (setCompact oldBits).target ≤ 4 * (setCompact newBits).target →
            (setCompact newBits).target + droppedByFour (setCompact oldBits).target ≤
                4 * (setCompact oldBits).target ∧
              (setCompact oldBits).target + droppedByFour (setCompact newBits).target ≤
                4 * (setCompact newBits).target) := by
  rw [permittedDifficultyTransition_iff later]
  unfold TransitionAllowed
  simp only [forall_eq_or_imp, forall_eq]
  generalize setCompact oldBits = old
  generalize setCompact newBits = new
  -- the two flags are all that is left to distinguish
  split_ifs with flagged
  · have refused : ¬((old.fNegative = false ∧ old.fOverflow = false ∧ 0 < old.target) ∧
        new.fNegative = false ∧ new.fOverflow = false ∧ 0 < new.target) := by
      intro clear
      rw [clear.1.2.1, clear.2.2.1] at flagged
      simp at flagged
    constructor
    · intro agree positive
      by_contra passes
      rw [not_or, not_lt, not_lt] at passes
      exact refused (agree.mp ⟨positive, passes⟩).1
    · intro fails
      refine iff_of_false ?_ fun allowed => refused allowed.1
      intro passes
      rcases fails passes.1 with above | below
      · exact absurd passes.2.1 (not_le.mpr above)
      · exact absurd passes.2.2 (not_le.mpr below)
  · rw [not_or, Bool.not_eq_true, Bool.not_eq_true] at flagged
    obtain ⟨oldFits, newFits⟩ := flagged
    constructor
    · intro agree positive above below
      exact (agree.mpr ⟨⟨⟨positive.1.1, oldFits, positive.1.2⟩, positive.2.1, newFits,
        positive.2.2⟩, above, below⟩).2
    · intro keeps
      constructor
      · intro passes
        obtain ⟨⟨⟨oldSign, oldPositive⟩, newSign, newPositive⟩, above, below⟩ := passes
        exact ⟨⟨⟨oldSign, oldFits, oldPositive⟩, newSign, newFits, newPositive⟩, by omega, by omega⟩
      · intro allowed
        obtain ⟨⟨⟨oldSign, _, oldPositive⟩, newSign, _, newPositive⟩, above, below⟩ := allowed
        have positive : (old.fNegative = false ∧ 0 < old.target) ∧
            new.fNegative = false ∧ 0 < new.target :=
          ⟨⟨oldSign, oldPositive⟩, newSign, newPositive⟩
        exact ⟨positive, keeps positive above below⟩

theorem permittedDifficultyTransition_exact_limit :
    permittedDifficultyTransition 1 0x1e0fffff 0x1e040000 = true ∧
      TransitionAllowed 0x1e0fffff 0x1e040000 := by
  have accepted : permittedDifficultyTransition 1 0x1e0fffff 0x1e040000 = true := by decide +kernel
  refine ⟨accepted, ((permittedDifficultyTransition_exact_iff 1 (le_refl 1) _ _).mpr ?_).mp
    accepted⟩
  intro _
  decide +kernel

/-- Valid bits that may not follow themselves, and overflowing bits that may. -/
theorem permittedDifficultyTransition_not_exact :
    (permittedDifficultyTransition 1 0x20400000 0x20400000 = false ∧
        (setCompact 0x20400000).fNegative = false ∧ (setCompact 0x20400000).fOverflow = false ∧
        0 < (setCompact 0x20400000).target) ∧
      permittedDifficultyTransition 1 0x21017fff 0x21017fff = true ∧
        (setCompact 0x21017fff).fOverflow = true := by
  decide +kernel

end Adonai.Pow
