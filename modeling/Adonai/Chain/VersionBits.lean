/-
The states of a deployment, computed with a cache and as BIP 9 defines them.

A pointer to a block is the chain that ends in it. The cache maps the last blocks of periods to
the state of the next period. Walking back stops at a known state or before the start time, where
all earlier periods are DEFINED as long as the median time past does not go down.
-/

import Adonai.Chain.BlockTree
import Adonai.Validation.MedianTime

namespace Adonai.VersionBits

open BlockTree (Fault)
open Validation (timedBlock getAncestor_eq_drop)
open CBlockIndex (getAncestor getMedianTimePast)
open Adonai.Pow (LinkedHeights)

inductive ThresholdState where
  | defined
  | started
  | lockedIn
  | active
  | failed
  deriving DecidableEq, Repr

def ALWAYS_ACTIVE : Int := -1

def NEVER_ACTIVE : Int := -2

/-- `AbstractThresholdConditionChecker`: the condition may look at a block and its ancestors. -/
structure Checker where
  period : Nat
  threshold : Int
  minActivationHeight : Int
  beginTime : Int
  endTime : Int
  condition : (pindex : List CBlockIndex) → Bool
  period_pos : 0 < period

abbrev ThresholdConditionCache := List CBlockIndex → Option ThresholdState

def countConditions (checker : Checker) :
    (i : Nat) → (pindexCount : List CBlockIndex) → Except Fault Nat
  | 0, _ => .ok 0
  | _ + 1, [] => .error .nullDereference
  | i + 1, block :: rest => do
    let count ← countConditions checker i rest
    .ok (if checker.condition (block :: rest) then count + 1 else count)

variable (checker : Checker)

def stateNext (state : ThresholdState) (pindexPrev : List CBlockIndex) :
    Except Fault ThresholdState :=
  match state with
  | .defined =>
    .ok (if getMedianTimePast pindexPrev ≥ checker.beginTime then .started else .defined)
  | .started => do
    let count ← countConditions checker checker.period pindexPrev
    .ok (if (count : Int) ≥ checker.threshold then .lockedIn
      else if getMedianTimePast pindexPrev ≥ checker.endTime then .failed
      else .started)
  | .lockedIn =>
    match pindexPrev with
    | [] => .error .nullDereference
    | last :: _ =>
      .ok (if last.nHeight + 1 ≥ checker.minActivationHeight then .active else .lockedIn)
  | .failed => .ok .failed
  | .active => .ok .active

/-- The walk back to a block whose state is known; the blocks passed are stacked. -/
def walkBack (checker : Checker) : (fuel : Nat) → (pindexPrev : List CBlockIndex) →
    (cache : ThresholdConditionCache) → (vToCompute : List (List CBlockIndex)) →
    Except Fault (List CBlockIndex × ThresholdConditionCache × List (List CBlockIndex))
  | 0, _, _, _ => .error .endless
  | fuel + 1, pindexPrev, cache, vToCompute =>
    if (cache pindexPrev).isSome then .ok (pindexPrev, cache, vToCompute)
    else
      match pindexPrev with
      | [] => .ok ([], Function.update cache [] (some .defined), vToCompute)
      | last :: rest =>
        if getMedianTimePast (last :: rest) < checker.beginTime then
          .ok (last :: rest, Function.update cache (last :: rest) (some .defined), vToCompute)
        else
          walkBack checker fuel (getAncestor (last :: rest) (last.nHeight - checker.period)) cache
            ((last :: rest) :: vToCompute)

def replay (checker : Checker) : (vToCompute : List (List CBlockIndex)) → (state : ThresholdState) →
    (cache : ThresholdConditionCache) → Except Fault (ThresholdState × ThresholdConditionCache)
  | [], state, cache => .ok (state, cache)
  | pindexPrev :: vToCompute, state, cache => do
    let next ← stateNext checker state pindexPrev
    replay checker vToCompute next (Function.update cache pindexPrev (some next))

def resume (known : List CBlockIndex × ThresholdConditionCache × List (List CBlockIndex)) :
    Except Fault (ThresholdState × ThresholdConditionCache) :=
  match known.2.1 known.1 with
  | none => .error .assertion
  | some state => replay checker known.2.2 state known.2.1

def periodParent : (pindexPrev : List CBlockIndex) → List CBlockIndex
  | [] => []
  | last :: rest =>
    getAncestor (last :: rest) (last.nHeight - (last.nHeight + 1) % checker.period)

variable (pindexPrev : List CBlockIndex)

def getStateFor
    (cache : ThresholdConditionCache) : Except Fault (ThresholdState × ThresholdConditionCache) :=
  if checker.beginTime = ALWAYS_ACTIVE then .ok (.active, cache)
  else if checker.beginTime = NEVER_ACTIVE then .ok (.failed, cache)
  else do
    let start := periodParent checker pindexPrev
    let known ← walkBack checker (start.length + 1) start cache []
    resume checker known

def sinceLoop (checker : Checker) (initialState : ThresholdState) :
    (fuel : Nat) → (pindexPrev : List CBlockIndex) → (cache : ThresholdConditionCache) →
      Except Fault (Int × ThresholdConditionCache)
  | 0, _, _ => .error .endless
  | _ + 1, [], _ => .error .nullDereference
  | fuel + 1, last :: rest, cache =>
    match getAncestor (last :: rest) (last.nHeight - checker.period) with
    | [] => .ok (last.nHeight + 1, cache)
    | previous :: ancestors => do
      let (state, cache) ← getStateFor checker (previous :: ancestors) cache
      if state = initialState then sinceLoop checker initialState fuel (previous :: ancestors) cache
      else .ok (last.nHeight + 1, cache)

def getStateSinceHeightFor
    (cache : ThresholdConditionCache) : Except Fault (Int × ThresholdConditionCache) :=
  if checker.beginTime = ALWAYS_ACTIVE ∨ checker.beginTime = NEVER_ACTIVE then .ok (0, cache)
  else do
    let (initialState, cache) ← getStateFor checker pindexPrev cache
    if initialState = .defined then .ok (0, cache)
    else
      match periodParent checker pindexPrev with
      | [] => .error .assertion
      | parent => sinceLoop checker initialState parent.length parent cache

def signals : Nat :=
  (List.range checker.period).countP fun i => checker.condition (pindexPrev.drop i)

/-- The state of the period after a block, from the state of the period it ends. -/
def advance (state : ThresholdState) (pindexPrev : List CBlockIndex) : ThresholdState :=
  match state with
  | .defined => if getMedianTimePast pindexPrev ≥ checker.beginTime then .started else .defined
  | .started =>
    if (signals checker pindexPrev : Int) ≥ checker.threshold then .lockedIn
    else if getMedianTimePast pindexPrev ≥ checker.endTime then .failed
    else .started
  | .lockedIn =>
    if (pindexPrev.length : Int) ≥ checker.minActivationHeight then .active else .lockedIn
  | .active => .active
  | .failed => .failed

/-- The recursion over a chain: the state changes after the last block of a period only. -/
def periodState (checker : Checker) : (pindexPrev : List CBlockIndex) → ThresholdState
  | [] => .defined
  | last :: rest =>
    if (last :: rest).length % checker.period = 0 then
      advance checker (periodState checker rest) (last :: rest)
    else periodState checker rest

def bip9State : ThresholdState :=
  if checker.beginTime = ALWAYS_ACTIVE then .active
  else if checker.beginTime = NEVER_ACTIVE then .failed
  else periodState checker pindexPrev

inductive Step : ThresholdState → ThresholdState → Prop where
  | start : Step .defined .started
  | lockIn : Step .started .lockedIn
  | fail : Step .started .failed
  | activate : Step .lockedIn .active

def MedianAscends : List CBlockIndex → Prop
  | [] => True
  | block :: rest =>
    getMedianTimePast rest ≤ getMedianTimePast (block :: rest) ∧ MedianAscends rest

/-- A chain of the block tree. -/
structure Branch (pindex : List CBlockIndex) : Prop where
  linked : LinkedHeights pindex
  ascends : MedianAscends pindex

variable {checker} {pindexPrev} {cache : ThresholdConditionCache}

theorem medianAscends_of_timesAdvance {pindex : List CBlockIndex}
    (advance : Validation.TimesAdvance pindex) : MedianAscends pindex := by
  induction pindex with
  | nil => trivial
  | cons block rest ih =>
    cases rest with
    | nil => exact ⟨Validation.getMedianTimePast_nonneg _, trivial⟩
    | cons last ancestors =>
      exact ⟨Validation.getMedianTimePast_child (List.cons_ne_nil _ _) advance.1, ih advance.2⟩

variable {rest : List CBlockIndex}

private theorem Branch.tail {block : CBlockIndex} (branch : Branch (block :: rest)) :
    Branch rest := ⟨branch.linked.tail, branch.ascends.2⟩

theorem Branch.drop (branch : Branch pindexPrev) (n : Nat) : Branch (pindexPrev.drop n) := by
  induction n generalizing pindexPrev with
  | zero => exact branch
  | succ n ih =>
    cases pindexPrev with
    | nil => exact branch
    | cons block rest => exact ih branch.tail

theorem Branch.periodParent_eq (branch : Branch pindexPrev) :
    periodParent checker pindexPrev = pindexPrev.drop (pindexPrev.length % checker.period) := by
  cases pindexPrev with
  | nil => exact List.drop_nil.symm
  | cons last rest =>
    have isHeight := branch.linked.height_eq
    rw [periodParent, ← getAncestor_eq_drop branch.linked, isHeight]
    norm_cast

theorem Branch.stateNext_eq (branch : Branch pindexPrev) (full : checker.period ≤ pindexPrev.length)
    (state : ThresholdState) :
    stateNext checker state pindexPrev = .ok (advance checker state pindexPrev) := by
  have counts : ∀ (i : Nat) (pindexCount : List CBlockIndex), i ≤ pindexCount.length →
      countConditions checker i pindexCount =
        .ok ((List.range i).countP fun j => checker.condition (pindexCount.drop j)) := by
    intro i
    induction i with
    | zero =>
      intro pindexCount _
      rfl
    | succ i ih =>
      intro pindexCount enough
      cases pindexCount with
      | nil => cases enough
      | cons block rest =>
        rw [countConditions, ih rest (Nat.le_of_succ_le_succ enough), List.range_succ_eq_map,
          List.countP_cons, List.countP_map]
        change Except.ok _ = _
        by_cases met : checker.condition (block :: rest) = true <;> simp [met, Function.comp_def]
  cases state with
  | defined => rfl
  | started =>
    rw [stateNext, counts checker.period pindexPrev full]
    rfl
  | lockedIn =>
    cases pindexPrev with
    | nil =>
      have := checker.period_pos
      rw [List.length_nil] at full
      omega
    | cons last rest =>
      rw [stateNext, advance, branch.linked.height_eq, List.length_cons]
      norm_cast
  | active | failed => rfl

theorem length_tail_mod (checker : Checker) {last : CBlockIndex}
    (inner : (last :: rest).length % checker.period ≠ 0) :
    rest.length % checker.period + 1 = (last :: rest).length % checker.period := by
  rw [List.length_cons, ← Nat.mod_add_mod] at inner ⊢
  have below : rest.length % checker.period + 1 ≤ checker.period := Nat.mod_lt _ checker.period_pos
  refine (Nat.mod_eq_of_lt (lt_of_le_of_ne below fun full => ?_)).symm
  rw [full, Nat.mod_self] at inner
  exact inner rfl

variable {n : Nat}

theorem periodState_drop (inside : n ≤ pindexPrev.length % checker.period) :
    periodState checker (pindexPrev.drop n) = periodState checker pindexPrev := by
  induction n generalizing pindexPrev with
  | zero => rfl
  | succ n ih =>
    cases pindexPrev with
    | nil => rfl
    | cons last rest =>
      have inner : (last :: rest).length % checker.period ≠ 0 := by omega
      have shorter := length_tail_mod checker inner
      rw [List.drop_succ_cons, ih (by omega), periodState, if_neg inner]

def Aligned (checker : Checker) (pindexPrev : List CBlockIndex) : Prop :=
  checker.period ∣ pindexPrev.length

private theorem aligned_drop (checker : Checker) (pindexPrev : List CBlockIndex) :
    Aligned checker (pindexPrev.drop (pindexPrev.length % checker.period)) := by
  rw [Aligned, List.length_drop]
  exact Nat.dvd_sub_mod _

section

variable (aligned : Aligned checker pindexPrev)

include aligned

theorem Aligned.full (nonempty : pindexPrev ≠ []) : checker.period ≤ pindexPrev.length :=
  Nat.le_of_dvd (List.length_pos_of_ne_nil nonempty) aligned

theorem Aligned.previous : Aligned checker (pindexPrev.drop checker.period) := by
  rw [Aligned, List.length_drop]
  exact Nat.dvd_sub aligned (dvd_refl _)

theorem Aligned.inner_state (positive : 0 < n) (inside : n ≤ checker.period) :
    periodState checker (pindexPrev.drop n) =
      periodState checker (pindexPrev.drop checker.period) := by
  by_cases nonempty : pindexPrev = []
  · rw [nonempty, List.drop_nil, List.drop_nil]
  have rest : (pindexPrev.drop n).length % checker.period = checker.period - n := by
    obtain ⟨periods, length⟩ := aligned
    cases periods with
    | zero => exact absurd (List.length_eq_zero_iff.mp length) nonempty
    | succ periods =>
      rw [Nat.mul_succ] at length
      have dropped : (pindexPrev.drop n).length =
          checker.period * periods + (checker.period - n) := by
        rw [List.length_drop]
        omega
      rw [dropped, Nat.mul_add_mod, Nat.mod_eq_of_lt (by omega)]
  rw [← periodState_drop (le_of_eq rest.symm), List.drop_drop, Nat.add_sub_cancel' inside]

end

theorem Aligned.state {last : CBlockIndex} (aligned : Aligned checker (last :: rest)) :
      periodState checker (last :: rest) =
      advance checker (periodState checker ((last :: rest).drop checker.period))
        (last :: rest) := by
  rw [periodState, if_pos (Nat.mod_eq_zero_of_dvd aligned),
    ← aligned.inner_state Nat.one_pos checker.period_pos]
  rfl

theorem defined_of_early (branch : Branch pindexPrev)
    (early : getMedianTimePast pindexPrev < checker.beginTime) :
    periodState checker pindexPrev = .defined := by
  induction pindexPrev with
  | nil => rfl
  | cons last rest ih =>
    rw [periodState, ih branch.tail (branch.ascends.1.trans_lt early), advance,
      if_neg (not_le_of_gt early), ite_self]

theorem advance_step (state : ThresholdState) :
    advance checker state pindexPrev = state ∨ Step state (advance checker state pindexPrev) := by
  cases state with
  | defined =>
    rw [advance]
    split
    · exact .inr .start
    · exact .inl rfl
  | started =>
    rw [advance]
    split_ifs
    · exact .inr .lockIn
    · exact .inr .fail
    · exact .inl rfl
  | lockedIn =>
    rw [advance]
    split
    · exact .inr .activate
    · exact .inl rfl
  | active | failed => exact .inl rfl

theorem periodState_child (block : CBlockIndex) (rest : List CBlockIndex) :
    periodState checker (block :: rest) = periodState checker rest ∨
      Step (periodState checker rest) (periodState checker (block :: rest)) := by
  rw [periodState]
  split
  · exact advance_step _
  · exact .inl rfl

theorem bip9State_child (block : CBlockIndex) (rest : List CBlockIndex) :
    bip9State checker (block :: rest) = bip9State checker rest ∨
      Step (bip9State checker rest) (bip9State checker (block :: rest)) := by
  unfold bip9State
  split_ifs
  · exact .inl rfl
  · exact .inl rfl
  · exact periodState_child block rest

theorem bip9State_advances (checker : Checker) (newer older : List CBlockIndex) :
    Relation.ReflTransGen Step (bip9State checker older) (bip9State checker (newer ++ older)) := by
  induction newer with
  | nil => exact .refl
  | cons block newer ih =>
    rcases bip9State_child block (newer ++ older) with same | step
    · rw [List.cons_append, same]
      exact ih
    · exact ih.tail step

def Sound (checker : Checker) (cache : ThresholdConditionCache) : Prop :=
  ∀ pindexPrev state, cache pindexPrev = some state → state = periodState checker pindexPrev

variable {state : ThresholdState}

theorem Sound.update (sound : Sound checker cache)
    (isState : state = periodState checker pindexPrev) :
    Sound checker (Function.update cache pindexPrev (some state)) := by
  intro other otherState found
  by_cases same : other = pindexPrev
  · rw [same, Function.update_self] at found
    cases found
    rw [same]
    exact isState
  · rw [Function.update_of_ne same] at found
    exact sound other otherState found

theorem resume_walkBack (sound : Sound checker cache) (aligned : Aligned checker pindexPrev)
    (branch : Branch pindexPrev) (fuel : Nat)
    (enough : pindexPrev.length < fuel) (vToCompute : List (List CBlockIndex)) :
    ∃ after, Sound checker after ∧
      (walkBack checker fuel pindexPrev cache vToCompute >>= resume checker) =
        replay checker vToCompute (periodState checker pindexPrev) after := by
  induction fuel generalizing pindexPrev cache vToCompute with
  | zero => cases enough
  | succ fuel ih =>
    unfold walkBack
    split_ifs with known
    · obtain ⟨state, found⟩ := Option.isSome_iff_exists.mp known
      refine ⟨cache, sound, ?_⟩
      change resume checker (pindexPrev, cache, vToCompute) = _
      rw [resume]
      dsimp only
      rw [found, sound pindexPrev state found]
    · -- Where the walk stops the state is entered as DEFINED.
      have stops : periodState checker pindexPrev = .defined → ∃ after, Sound checker after ∧
          resume checker
            (pindexPrev, Function.update cache pindexPrev (some .defined), vToCompute) =
            replay checker vToCompute (periodState checker pindexPrev) after := by
        intro isDefined
        refine ⟨_, sound.update isDefined.symm, ?_⟩
        rw [resume]
        dsimp only
        rw [Function.update_self, isDefined]
      cases pindexPrev with
      | nil => exact stops rfl
      | cons last rest => ?_
      dsimp only
      split_ifs with early
      · exact stops (defined_of_early branch early)
      rw [getAncestor_eq_drop branch.linked]
      have positive := checker.period_pos
      obtain ⟨after, afterSound, resumes⟩ := ih sound aligned.previous (branch.drop _)
        (by rw [List.length_drop]; rw [List.length_cons] at enough ⊢; omega)
        ((last :: rest) :: vToCompute)
      have updated : Sound checker (Function.update after (last :: rest)
          (some (periodState checker (last :: rest)))) := afterSound.update rfl
      refine ⟨_, updated, ?_⟩
      rw [resumes, replay, branch.stateNext_eq (aligned.full (List.cons_ne_nil _ _)),
        ← aligned.state]
      rfl

theorem getStateFor_eq (sound : Sound checker cache) (branch : Branch pindexPrev) :
    ∃ after, getStateFor checker pindexPrev cache = .ok (bip9State checker pindexPrev, after) ∧
      Sound checker after := by
  unfold getStateFor bip9State
  split_ifs
  · exact ⟨cache, rfl, sound⟩
  · exact ⟨cache, rfl, sound⟩
  rw [branch.periodParent_eq]
  obtain ⟨after, afterSound, resumes⟩ := resume_walkBack sound (aligned_drop checker pindexPrev)
    (branch.drop _) _ (Nat.lt_succ_self _) []
  rw [periodState_drop (le_refl _)] at resumes
  exact ⟨after, resumes, afterSound⟩

/-! ### Since when -/

/-- The state holds from a height on, and did not hold before. -/
structure Since (checker : Checker) (pindexPrev : List CBlockIndex) (since : Nat) : Prop where
  reached : since ≤ pindexPrev.length
  holds : ∀ height, since ≤ height → height ≤ pindexPrev.length →
    bip9State checker (pindexPrev.drop (pindexPrev.length - height)) = bip9State checker pindexPrev
  first : since = 0 ∨
    bip9State checker (pindexPrev.drop (pindexPrev.length - (since - 1))) ≠
      bip9State checker pindexPrev

theorem bip9State_eq
    (regular : ¬(checker.beginTime = ALWAYS_ACTIVE ∨ checker.beginTime = NEVER_ACTIVE))
    (pindexPrev : List CBlockIndex) :
      bip9State checker pindexPrev = periodState checker pindexPrev := by
  obtain ⟨notAlways, notNever⟩ := not_or.mp regular
  rw [bip9State, if_neg notAlways, if_neg notNever]

private theorem bip9State_drop (inside : n ≤ pindexPrev.length % checker.period) :
    bip9State checker (pindexPrev.drop n) = bip9State checker pindexPrev := by
  unfold bip9State
  rw [periodState_drop inside]

theorem Aligned.inner (aligned : Aligned checker pindexPrev) (positive : 0 < n)
    (inside : n ≤ checker.period) :
    bip9State checker (pindexPrev.drop n) = bip9State checker (pindexPrev.drop checker.period) := by
  unfold bip9State
  rw [aligned.inner_state positive inside]

theorem Since.extend {n since : Nat} (earlier : Since checker (pindexPrev.drop n) since)
    (fits : n ≤ pindexPrev.length)
    (inside : ∀ j, j ≤ n → bip9State checker (pindexPrev.drop j) = bip9State checker pindexPrev) :
    Since checker pindexPrev since := by
  have reached := earlier.reached
  rw [List.length_drop] at reached
  have shift : ∀ height, height ≤ pindexPrev.length - n →
      (pindexPrev.drop n).drop ((pindexPrev.drop n).length - height) =
        pindexPrev.drop (pindexPrev.length - height) := by
    intro height low
    rw [List.drop_drop, List.length_drop]
    congr 1
    omega
  constructor
  · omega
  · intro height above upTo
    by_cases low : height ≤ pindexPrev.length - n
    · rw [← shift height low, earlier.holds height above (by rw [List.length_drop]; exact low)]
      exact inside n (le_refl _)
    · exact inside _ (by omega)
  · rcases earlier.first with isZero | differs
    · exact .inl isZero
    · right
      rw [← shift (since - 1) (by omega), ← inside n (le_refl _)]
      exact differs

theorem sinceLoop_eq
    (regular : ¬(checker.beginTime = ALWAYS_ACTIVE ∨ checker.beginTime = NEVER_ACTIVE))
    (sound : Sound checker cache) (aligned : Aligned checker pindexPrev)
    (branch : Branch pindexPrev)
    (nonempty : pindexPrev ≠ []) (notDefined : bip9State checker pindexPrev ≠ .defined) (fuel : Nat)
    (enough : pindexPrev.length ≤ fuel) :
    ∃ since after, sinceLoop checker (bip9State checker pindexPrev) fuel pindexPrev cache =
      .ok (((since : Nat) : Int), after) ∧ Sound checker after ∧
        Since checker pindexPrev since := by
  induction fuel generalizing pindexPrev cache with
  | zero => exact absurd (List.length_eq_zero_iff.mp (Nat.le_zero.mp enough)) nonempty
  | succ fuel ih =>
    cases pindexPrev with
    | nil => exact absurd rfl nonempty
    | cons last rest => ?_
    have isHeight : last.nHeight + 1 = ((last :: rest).length : Nat) := by
      rw [branch.linked.height_eq, List.length_cons]
      norm_cast
    -- The loop ends here if the period before has another state.
    have ends : bip9State checker ((last :: rest).drop checker.period) ≠
        bip9State checker (last :: rest) → Since checker (last :: rest) (last :: rest).length := by
      intro differs
      constructor
      · exact le_refl _
      · intro height above upTo
        rw [Nat.le_antisymm upTo above, Nat.sub_self]
        rfl
      · right
        have one : (last :: rest).length - ((last :: rest).length - 1) = 1 := by
          rw [List.length_cons]
          omega
        rw [one, aligned.inner Nat.one_pos checker.period_pos]
        exact differs
    rw [sinceLoop, getAncestor_eq_drop branch.linked, isHeight]
    generalize isPrevious : (last :: rest).drop checker.period = previous at ends
    cases previous with
    | nil =>
      refine ⟨_, cache, rfl, sound, ends ?_⟩
      rw [bip9State_eq regular]
      exact notDefined.symm
    | cons previous ancestors => ?_
    have previousBranch := branch.drop checker.period
    have previousAligned := aligned.previous
    rw [isPrevious] at previousBranch previousAligned
    obtain ⟨after, computes, afterSound⟩ := getStateFor_eq sound previousBranch
    change ∃ since final, (getStateFor checker (previous :: ancestors) cache >>= _) = _ ∧ _
    rw [computes]
    change ∃ since final, (if bip9State checker (previous :: ancestors) =
      bip9State checker (last :: rest) then _ else _) = _ ∧ _
    split_ifs with same
    · rw [← same]
      rw [← same] at notDefined
      have shorter : (previous :: ancestors).length ≤ fuel := by
        have positive := checker.period_pos
        rw [← isPrevious, List.length_drop]
        omega
      obtain ⟨since, final, runs, finalSound, isSince⟩ :=
        ih afterSound previousAligned previousBranch (List.cons_ne_nil _ _) notDefined shorter
      refine ⟨since, final, runs, finalSound, ?_⟩
      rw [← isPrevious] at isSince same
      apply isSince.extend (aligned.full nonempty)
      intro j inside
      rcases Nat.eq_zero_or_pos j with rfl | positive
      · rfl
      · rw [aligned.inner positive inside]
        exact same
    · exact ⟨_, after, rfl, afterSound, ends same⟩

theorem eq_defined_of_advances (advances : Relation.ReflTransGen Step state .defined) :
      state = .defined := by
  rcases advances.cases_tail with same | ⟨before, _, step⟩
  · exact same.symm
  · cases step

theorem eq_of_advances {state next : ThresholdState}
    (advances : Relation.ReflTransGen Step state next)
    (final : state = .active ∨ state = .failed) : next = state := by
  rcases advances.cases_head with same | ⟨after, step, _⟩
  · exact same.symm
  · rcases final with rfl | rfl
    · cases step
    · cases step

private theorem since_zero (same : ∀ n,
    bip9State checker (pindexPrev.drop n) = bip9State checker pindexPrev) :
    Since checker pindexPrev 0 :=
  ⟨Nat.zero_le _, fun _ _ _ => same _, .inl rfl⟩

theorem getStateSinceHeightFor_eq (sound : Sound checker cache) (branch : Branch pindexPrev) :
    ∃ since after, getStateSinceHeightFor checker pindexPrev cache =
      .ok (((since : Nat) : Int), after) ∧ Sound checker after ∧
        Since checker pindexPrev since := by
  unfold getStateSinceHeightFor
  split_ifs with special
  · refine ⟨0, cache, rfl, sound, since_zero fun n => ?_⟩
    unfold bip9State
    split_ifs
    · rfl
    · rfl
    · tauto
  obtain ⟨after, computes, afterSound⟩ := getStateFor_eq sound branch
  rw [computes]
  change ∃ since final, (if bip9State checker pindexPrev = .defined then _ else _) = _ ∧ _
  split_ifs with isDefined
  · refine ⟨0, after, rfl, afterSound, since_zero fun n => ?_⟩
    have advances := bip9State_advances checker (pindexPrev.take n) (pindexPrev.drop n)
    rw [List.take_append_drop, isDefined] at advances
    rw [eq_defined_of_advances advances, isDefined]
  rw [branch.periodParent_eq, ← bip9State_drop (le_refl _)]
  have aligned := aligned_drop checker pindexPrev
  have parentBranch := branch.drop (pindexPrev.length % checker.period)
  have notDefined : bip9State checker (pindexPrev.drop (pindexPrev.length % checker.period)) ≠
      .defined := by
    rw [bip9State_drop (le_refl _)]
    exact isDefined
  have nonempty : pindexPrev.drop (pindexPrev.length % checker.period) ≠ [] := by
    -- A block of the first period is DEFINED.
    intro isNil
    rw [isNil, bip9State_eq special] at notDefined
    exact notDefined rfl
  obtain ⟨since, final, runs, finalSound, isSince⟩ :=
    sinceLoop_eq special afterSound aligned parentBranch nonempty notDefined _ (le_refl _)
  refine ⟨since, final, ?_, finalSound, isSince.extend (Nat.mod_le _ _) fun j inside =>
    bip9State_drop inside⟩
  generalize pindexPrev.drop (pindexPrev.length % checker.period) = parent at nonempty runs ⊢
  cases parent with
  | nil => exact absurd rfl nonempty
  | cons last rest => exact runs

inductive Query where
  | state (pindexPrev : List CBlockIndex)
  | since (pindexPrev : List CBlockIndex)

def Query.block : Query → List CBlockIndex
  | .state pindexPrev => pindexPrev
  | .since pindexPrev => pindexPrev

def ask (checker : Checker) (cache : ThresholdConditionCache) :
    (query : Query) → Except Fault ThresholdConditionCache
  | .state pindexPrev => do
    let (_, cache) ← getStateFor checker pindexPrev cache
    .ok cache
  | .since pindexPrev => do
    let (_, cache) ← getStateSinceHeightFor checker pindexPrev cache
    .ok cache

def askAll (checker : Checker) (queries : List Query) (cache : ThresholdConditionCache) :
    Except Fault ThresholdConditionCache :=
  queries.foldlM (ask checker) cache

theorem ask_sound (sound : Sound checker cache) (query : Query) (branch : Branch query.block) :
    ∃ after, ask checker cache query = .ok after ∧ Sound checker after := by
  cases query with
  | state pindexPrev =>
    change Branch pindexPrev at branch
    obtain ⟨after, computes, afterSound⟩ := getStateFor_eq sound branch
    refine ⟨after, ?_, afterSound⟩
    rw [ask, computes]
    rfl
  | since pindexPrev =>
    change Branch pindexPrev at branch
    obtain ⟨since, after, computes, afterSound, -⟩ := getStateSinceHeightFor_eq sound branch
    refine ⟨after, ?_, afterSound⟩
    rw [ask, computes]
    rfl

theorem askAll_sound (sound : Sound checker cache) (queries : List Query)
    (asked : ∀ query ∈ queries, Branch query.block) :
    ∃ after, askAll checker queries cache = .ok after ∧ Sound checker after := by
  apply Program.exists_foldlM_ok _ sound
  intro cache sound query member
  exact ask_sound sound query (asked query member)

/-- After any queries on any branches the cached computations return the state of the recursion
and the first height from which it holds; the state is one for each period and only advances. -/
theorem getStateFor_after_queries (checker : Checker) (queries : List Query)
    (asked : ∀ query ∈ queries, Branch query.block) :
    ∃ cache, askAll checker queries (fun _ => none) = .ok cache ∧
      ∀ pindexPrev, Branch pindexPrev →
        (∃ after, getStateFor checker pindexPrev cache =
          .ok (bip9State checker pindexPrev, after)) ∧
        (∃ since after, getStateSinceHeightFor checker pindexPrev cache =
          .ok (((since : Nat) : Int), after) ∧ Since checker pindexPrev since) ∧
        (∀ n, n ≤ pindexPrev.length % checker.period →
          bip9State checker (pindexPrev.drop n) = bip9State checker pindexPrev) ∧
        ∀ n, Relation.ReflTransGen Step (bip9State checker (pindexPrev.drop n))
            (bip9State checker pindexPrev) ∧
          (bip9State checker (pindexPrev.drop n) = .active ∨
            bip9State checker (pindexPrev.drop n) = .failed →
            bip9State checker pindexPrev = bip9State checker (pindexPrev.drop n)) := by
  have fresh : Sound checker (fun _ => none) := by
    intro pindexPrev state found
    cases found
  obtain ⟨cache, runs, sound⟩ := askAll_sound fresh queries asked
  refine ⟨cache, runs, fun pindexPrev branch => ?_⟩
  obtain ⟨after, computes, -⟩ := getStateFor_eq sound branch
  obtain ⟨since, final, finds, -, isSince⟩ := getStateSinceHeightFor_eq sound branch
  refine ⟨⟨after, computes⟩, ⟨since, final, finds, isSince⟩, fun n inside => bip9State_drop inside,
    fun n => ?_⟩
  have advances := bip9State_advances checker (pindexPrev.take n) (pindexPrev.drop n)
  rw [List.take_append_drop] at advances
  exact ⟨advances, eq_of_advances advances⟩

def everyBlock : Checker where
  period := 1
  threshold := 1
  minActivationHeight := 0
  beginTime := 10
  endTime := 50
  condition := fun _ => true
  period_pos := Nat.one_pos

theorem getStateFor_after_queries_fork : ∃ cache, askAll everyBlock
        [.since [timedBlock 1 30, timedBlock 0 20],
          .state [timedBlock 1 40, timedBlock 0 20]] (fun _ => none) = .ok cache ∧
      ∃ after, getStateFor everyBlock [timedBlock 2 45, timedBlock 1 40,
        timedBlock 0 20] cache = .ok (.active, after) := by
  have asked : ∀ query ∈ [Query.since [timedBlock 1 30, timedBlock 0 20],
      .state [timedBlock 1 40, timedBlock 0 20]], Branch query.block := by
    intro query isQuery
    rw [List.mem_pair] at isQuery
    rcases isQuery with rfl | rfl
    · exact ⟨by decide, by decide, by decide, trivial⟩
    · exact ⟨by decide, by decide, by decide, trivial⟩
  have branch : Branch [timedBlock 2 45, timedBlock 1 40,
      timedBlock 0 20] := ⟨by decide, by decide, by decide, by decide, trivial⟩
  obtain ⟨cache, runs, answers⟩ := getStateFor_after_queries everyBlock _ asked
  obtain ⟨⟨after, computes⟩, -⟩ := answers _ branch
  exact ⟨cache, runs, after, computes⟩

section Accepted

open Validation
open Consensus (mainParams Params)

variable {hasher : List UInt8 → Uint256} {params : Params} {index : BlockMap}

/-- Every entry ends a chain whose blocks are later than the medians before them. -/
structure Grown (params : Params) (index : BlockMap) : Prop where
  genesis : (index params.hashGenesisBlock).isSome
  chains : ∀ key entry, index key = some entry → LinkedHeights entry ∧ TimesAdvance entry

theorem contextualTimeAndVersion_valid {order : OperandOrder} {now : Int}
    {pindexPrev : List CBlockIndex} {block after : CBlockHeader}
    (passed : contextualCheckBlockHeader order params now pindexPrev block = (after, .valid)) :
    ∃ last ancestors, pindexPrev = last :: ancestors ∧
      contextualTimeAndVersion params now last ancestors after = .valid := by
  unfold contextualCheckBlockHeader at passed
  split at passed
  · simp at passed
  next last ancestors =>
    split at passed
    · simp at passed
    dsimp only at passed
    split_ifs at passed
    · simp at passed
    · obtain ⟨rfl, valid⟩ := Prod.mk.inj passed
      exact ⟨last, ancestors, rfl, valid⟩

theorem Grown.acceptStep (grown : Grown params index) (submission : Submission) :
    Grown params (acceptStep hasher params index submission) := by
  unfold Validation.acceptStep
  rcases acceptBlockHeader_cases hasher params index submission with
    same | ⟨isGenesis, added⟩ | ⟨pindexPrev, after, parent, _, passed, added⟩
  · rw [same]
    exact grown
  · rw [added, addToBlockIndex_known (by rw [isGenesis]; exact grown.genesis)]
    exact grown
  obtain ⟨last, ancestors, rfl, valid⟩ := contextualTimeAndVersion_valid passed
  have below : index after.hashPrevBlock = some (last :: ancestors) := by
    rw [(contextualCheckBlockHeader_valid passed).2.1]
    exact parent
  rw [added]
  unfold addToBlockIndex
  dsimp only
  split
  · exact grown
  rw [below]
  constructor
  · dsimp only
    split
    · rfl
    · exact grown.genesis
  · intro key entry stored
    dsimp only [Option.getD_some] at stored
    split at stored
    · cases stored
      obtain ⟨linked, advance⟩ := grown.chains _ _ below
      exact ⟨⟨rfl, linked⟩, advance.accept valid rfl⟩
    · exact grown.chains key entry stored

theorem loadGenesisBlock_grown (genesis : CBlockHeader)
    (isGenesis : genesis.getHash hasher = params.hashGenesisBlock) :
    Grown params (loadGenesisBlock hasher genesis) := by
  simp only [loadGenesisBlock, addToBlockIndex, isGenesis]
  constructor
  · simp
  · intro key entry stored
    split_ifs at stored
    cases stored
    exact ⟨rfl, trivial⟩

/-- Along every chain of an index that headers were submitted to, in either order of evaluation,
the cached states and the heights they hold from are those of the recursion. -/
theorem getStateFor_of_accepted (genesis : CBlockHeader)
    (isGenesis : genesis.getHash hasher = params.hashGenesisBlock) (submissions : List Submission)
    (isIndex : Run.run (acceptStep hasher params) (loadGenesisBlock hasher genesis) submissions =
      index) (checker : Checker) (queries : List Query)
    (asked : ∀ query ∈ queries, ∃ key, index key = some query.block) :
    ∃ cache, askAll checker queries (fun _ => none) = .ok cache ∧
      ∀ key entry, index key = some entry →
        (∃ after, getStateFor checker entry cache = .ok (bip9State checker entry, after)) ∧
        ∃ since after, getStateSinceHeightFor checker entry cache =
          .ok (((since : Nat) : Int), after) ∧ Since checker entry since := by
  have grown := @Run.invariant _ _ (fun _ _ => True) (acceptStep hasher params) (Grown params)
    (fun _ submission before _ => before.acceptStep submission) _ submissions
    (loadGenesisBlock_grown genesis isGenesis) (Run.along_of_all (fun _ _ => trivial) _ _)
  rw [isIndex] at grown
  have branch : ∀ key entry, index key = some entry → Branch entry := fun key entry stored =>
    ⟨(grown.chains key entry stored).1,
      medianAscends_of_timesAdvance (grown.chains key entry stored).2⟩
  obtain ⟨cache, answered, sound⟩ := @askAll_sound checker (fun _ => none) nofun queries
    fun query member => (asked query member).elim fun key => branch key _
  refine ⟨cache, answered, fun key entry stored => ?_⟩
  obtain ⟨after, computes, _⟩ := getStateFor_eq sound (branch key entry stored)
  obtain ⟨since, final, finds, _, isSince⟩ :=
    getStateSinceHeightFor_eq sound (branch key entry stored)
  exact ⟨⟨after, computes⟩, since, final, finds, isSince⟩

theorem getStateFor_of_accepted_child : ∃ entry cache after,
    askAll everyBlock [.state entry] (fun _ => none) = .ok cache ∧
      getStateFor everyBlock entry cache = .ok (bip9State everyBlock entry, after) := by
  obtain ⟨cache, answered, answers⟩ := @getStateFor_of_accepted (constantHasher 1) mainParams _
    genesisHeader (by decide +kernel) [submit { easyChild with nBits := 0x1e0fffff } .headerFirst]
    rfl everyBlock [.state _] (List.forall_mem_singleton.mpr ⟨1, rfl⟩)
  obtain ⟨⟨after, computes⟩, _⟩ := answers 1 _ rfl
  exact ⟨_, cache, after, answered, computes⟩

end Accepted

end Adonai.VersionBits
