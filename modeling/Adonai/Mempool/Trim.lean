/-
Eviction for size.

A round of `TrimToSize` evicts the first entry of the descendant score index with its descendants
and raises the rolling minimum feerate past their rate. The index is sorted by what the fee model
asks of the entries; what they pay does not enter it.
-/

import Adonai.Mempool.ScoreIndex
import Adonai.Mempool.Snapshot
import Adonai.Mempool.Updates
import Mathlib.Data.Finset.Max

namespace Adonai.Mempool

open Program Digraph Relation
open Policy (FeeModel defaultFeeModel)

variable {entries : EntryMap} {ledger : Ledger} {bytes_per_sigop : Nat}

def paidScore (entry : CTxMemPoolEntry) : ℚ :=
  max ((entry.m_modified_fee : ℚ) / entry.nTxSize)
    ((entry.nModFeesWithDescendants : ℚ) / entry.nSizeWithDescendants)

def askedLess (model : FeeModel) (first second : CTxMemPoolEntry) : Bool :=
  match descendantScore model first, descendantScore model second with
  | some low, some high => decide (low < high)
  | _, _ => false

def BeginsLeast (model : FeeModel) (options : Options) : Prop :=
  ∀ (pool : CTxMemPool) (txid : Uint256) (entry root : CTxMemPoolEntry),
    pool.mapTx.lookup txid = some entry →
    pool.mapTx.lookup (options.descendantScoreBegin pool) = some root →
      askedLess model entry root = false

noncomputable def Ledger.paidScore (ledger : Ledger) (txid : Uint256) : ℚ :=
  max (((ledger.core txid).m_modified_fee : ℚ) / (ledger.core txid).nTxSize)
    (((ledger.descendantState txid).2.2 : ℚ) / (ledger.descendantState txid).2.1)

theorem EntryMatches.paidScore {txid : Uint256} {entry : CTxMemPoolEntry}
    (matched : EntryMatches ledger txid entry) : paidScore entry = ledger.paidScore txid := by
  have fee : entry.m_modified_fee = (ledger.core txid).m_modified_fee :=
    congrArg Core.m_modified_fee matched.core
  have size : entry.nTxSize = (ledger.core txid).nTxSize := congrArg Core.nTxSize matched.core
  have fees : entry.nModFeesWithDescendants = (ledger.descendantState txid).2.2 :=
    congrArg (fun state => state.2.2) matched.descendants
  have sizes : entry.nSizeWithDescendants = (ledger.descendantState txid).2.1 :=
    congrArg (fun state => state.2.1) matched.descendants
  rw [Mempool.paidScore, Ledger.paidScore, fee, size, fees, sizes]

def packageRate (root : CTxMemPoolEntry) : Int :=
  if root.nSizeWithDescendants % 2 ^ 32 > 0 then
    (root.nModFeesWithDescendants * 1000).tdiv (root.nSizeWithDescendants % 2 ^ 32)
  else 0

def raisedMinimum (options : Options) (root : CTxMemPoolEntry) : ℚ :=
  Binary64.ofInt (packageRate root + options.incremental_relay_feerate.nSatoshisPerK)

theorem feeRateOf_yields (root : CTxMemPoolEntry) :
    Yields (feeRateOf root.nModFeesWithDescendants root.nSizeWithDescendants) PoolHalt.OutOfRange
      fun rate => rate.nSatoshisPerK = packageRate root := by
  refine .bind ((narrow_yields _ _).weaken ?_)
  rintro _ rfl
  exact rfl

structure Evicted (options : Options) (before after : CTxMemPool) (ledger : Ledger)
    (bytes_per_sigop : Nat) (root : CTxMemPoolEntry) (stage : SetEntries) : Prop where
  found : before.mapTx.lookup (options.descendantScoreBegin before) = some root
  staged : ∀ txid, txid ∈ stage ↔
    txid = options.descendantScoreBegin before ∨
      ledger.above (options.descendantScoreBegin before) txid
  consistent : Consistent after.mapTx (ledger.remove stage) bytes_per_sigop
  minimum : after.rollingMinimumFeeRate =
    if raisedMinimum options root > before.rollingMinimumFeeRate then raisedMinimum options root
    else before.rollingMinimumFeeRate

variable {stage : SetEntries}

theorem Consistent.staged_closed (consistent : Consistent entries ledger bytes_per_sigop)
    {root : Uint256} (staged : ∀ txid, txid ∈ stage ↔ txid = root ∨ ledger.above root txid)
    (source target : Uint256) (linked : ledger.parent source target) (leaves : source ∈ stage) :
    target ∈ stage := by
  have step : ledger.above source target := by
    rw [consistent.above_iff]
    exact .single linked
  rw [staged] at leaves ⊢
  rcases leaves with rfl | above
  · exact .inr step
  · exact .inr (consistent.above_trans above step)

variable {before : CTxMemPool}

theorem meets_trimOnce (options : Options)
    (consistent : Consistent before.mapTx ledger bytes_per_sigop)
    (nonempty : before.mapTx.keys ≠ []) :
    Meets (trimOnce options) before PoolHalt.OutOfRange fun _ after =>
      ∃ root stage, Evicted options before after ledger bytes_per_sigop root stage := by
  have listed : options.descendantScoreBegin before ∈ ledger.txids :=
    (consistent.represents.present _).mp (options.descendantScoreBegin_mem before nonempty)
  obtain ⟨root, found, _⟩ := consistent.represents.found listed
  refine .bind (meets_get (Meets.bind (meets_lift ?_ ?_)))
  rotate_left
  · intro halt halts
    rw [followEntry, found] at halts
    cases halts
  intro entry follows
  rw [followEntry, found] at follows
  cases follows
  have priced := feeRateOf_yields root
  refine .bind (meets_lift ?_ fun _ halts => priced.halt halts)
  intro removed isRemoved
  have raises := addInt64_yields removed.nSatoshisPerK
    options.incremental_relay_feerate.nSatoshisPerK
  refine .bind (meets_lift ?_ fun _ halts => raises.halt halts)
  intro raised isRaised
  have minimum : Binary64.ofInt raised = raisedMinimum options root := by
    rw [raises.result isRaised, priced.result isRemoved, raisedMinimum]
  refine .bind (Meets.of_ok rfl ?_)
  have walk := consistent.descendants_yields listed
  refine .bind (meets_lift ?_ fun _ halts => walk.halt halts)
  intro stage isStage
  have staged := walk.result isStage
  have inside : ∀ it, it ∈ stage → it ∈ ledger.txids := by
    intro it leaves
    rcases (staged it).mp leaves with rfl | above
    · exact listed
    · exact (consistent.above_inside above).2
  dsimp only
  rw [minimum]
  split
  all_goals
    rename_i raises
    refine .bind ((meets_removeStaged (by exact consistent) inside
      (consistent.staged_closed staged)).weaken ?_)
    intro _ after removes
    refine .bind (meets_get (meets_pure ⟨root, stage, found, staged, removes.1, ?_⟩))
    simp only [removes.2, raises, if_true, if_false]

def Full (options : Options) (sizelimit : Nat) (pool : CTxMemPool) : Prop :=
  pool.mapTx.keys ≠ [] ∧ options.dynamicMemoryUsage pool > sizelimit

def TrimRound (options : Options) (sizelimit : Nat) (before after : CTxMemPool) : Prop :=
  Full options sizelimit before ∧
    ∃ noSpendsRemaining, trimOnce options before = .ok (noSpendsRemaining, after)

def LeftOf (ledger : Ledger) (bytes_per_sigop : Nat) (pool : CTxMemPool)
    (current : Ledger) : Prop :=
  Consistent pool.mapTx current bytes_per_sigop ∧
    ∀ source target, current.above source target ↔
      ledger.above source target ∧ target ∈ current.txids

variable {root : CTxMemPoolEntry} {options : Options} {after : CTxMemPool}

theorem LeftOf.round {current : Ledger} (left : LeftOf ledger bytes_per_sigop before current)
    (evicted : Evicted options before after current bytes_per_sigop root stage) :
    LeftOf ledger bytes_per_sigop after (current.remove stage) := by
  obtain ⟨consistent, related⟩ := left
  refine ⟨evicted.consistent, ?_⟩
  intro source target
  change TransGen (without current.parent (· ∈ stage)) source target ↔ _
  rw [transGen_without_successors (consistent.staged_closed evicted.staged), ← consistent.above_iff,
    related, Ledger.mem_remove, and_assoc]

theorem TrimRound.evicted {sizelimit : Nat} (round : TrimRound options sizelimit before after)
    (consistent : Consistent before.mapTx ledger bytes_per_sigop) :
    ∃ root stage, Evicted options before after ledger bytes_per_sigop root stage := by
  obtain ⟨full, noSpendsRemaining, runs⟩ := round
  exact (meets_trimOnce options consistent full.1).result runs

theorem exists_leftOf {sizelimit : Nat} {pool : CTxMemPool}
    (consistent : Consistent pool.mapTx ledger bytes_per_sigop)
    (rounds : ReflTransGen (TrimRound options sizelimit) pool before) :
    ∃ current, LeftOf ledger bytes_per_sigop before current := by
  induction rounds with
  | refl =>
    refine ⟨ledger, consistent, ?_⟩
    intro source target
    rw [iff_self_and]
    exact fun above => (consistent.above_inside above).2
  | tail _ round ih =>
    obtain ⟨current, left⟩ := ih
    obtain ⟨root, stage, evicted⟩ := round.evicted left.1
    exact ⟨current.remove stage, left.round evicted⟩

theorem Evicted.fewer (consistent : Consistent before.mapTx ledger bytes_per_sigop)
    (evicted : Evicted options before after ledger bytes_per_sigop root stage) :
    after.mapTx.keys.length < before.mapTx.keys.length := by
  rw [consistent.represents.keys_length, evicted.consistent.represents.keys_length]
  apply Finset.card_lt_card
  apply Finset.filter_ssubset.mpr
  refine ⟨options.descendantScoreBegin before, consistent.represents.mem_of_found evicted.found, ?_⟩
  rw [not_not, evicted.staged]
  exact .inl rfl

theorem meets_trimLoop (options : Options) (sizelimit : Nat) {pool : CTxMemPool} (fuel : Nat)
    (consistent : Consistent pool.mapTx ledger bytes_per_sigop)
    (enough : pool.mapTx.keys.length ≤ fuel) :
    Meets (trimLoop options sizelimit fuel) pool PoolHalt.OutOfRange fun _ final =>
      ReflTransGen (TrimRound options sizelimit) pool final ∧ ¬Full options sizelimit final := by
  induction fuel generalizing pool ledger with
  | zero =>
    refine .bind (meets_get ?_)
    split
    next full => exact absurd (List.eq_nil_of_length_eq_zero (Nat.le_zero.mp enough)) full.1
    next empty => exact meets_pure ⟨.refl, empty⟩
  | succ fuel ih =>
    refine .bind (meets_get ?_)
    split
    next full =>
      have once := meets_trimOnce options consistent full.1
      cases runs : trimOnce options pool with
      | error halt => exact .bind (Meets.of_error runs (once.halt runs))
      | ok result =>
        obtain ⟨root, stage, evicted⟩ := once.result runs
        have fewer := evicted.fewer consistent
        refine .bind (Meets.of_ok runs (Meets.bind ((ih evicted.consistent ?_).weaken ?_)))
        · omega
        · intro _ final later
          exact meets_pure ⟨.head ⟨full, result.1, runs⟩ later.1, later.2⟩
    next within => exact meets_pure ⟨.refl, within⟩

theorem Ledger.descendantState_detached (ledger : Ledger) (gone : Uint256 → Prop) (txid : Uint256) :
    (ledger.detached gone).descendantState txid = ledger.descendantState txid -
      tally ledger.txids (fun other => (ledger.core other).descendantWeight)
        fun other => ledger.below txid other ∧ gone other := by
  have counts : ∀ other ∈ ledger.txids, ledger.below txid other ∧ ¬gone other ↔
      ledger.below txid other ∧ ¬(ledger.below txid other ∧ gone other) := by
    intro other _
    exact and_congr_right fun below => not_congr (and_iff_right below).symm
  change (ledger.core txid).descendantWeight + tally ledger.txids
    (fun other => (ledger.core other).descendantWeight)
    (fun other => ledger.below txid other ∧ ¬gone other) - (0, 0, ledger.descendantLag txid) = _
  rw [tally_congr counts, tally_diff fun _ _ both => both.1, Ledger.descendantState]
  abel

private theorem le_div_sub {score fees part size share : ℚ} (positive : 0 < size)
    (sharePositive : 0 < share)
    (rest : 0 < size - share) (whole : score ≤ fees / size) (lower : part / share ≤ score) :
    score ≤ (fees - part) / (size - share) := by
  rw [le_div_iff₀ positive] at whole
  rw [div_le_iff₀ sharePositive] at lower
  rw [le_div_iff₀ rest, mul_sub]
  exact sub_le_sub whole lower

/-! ### What is evicted and what stays -/

/-- A transaction and its descendants. -/
def Ledger.package (ledger : Ledger) (root txid : Uint256) : Prop :=
  txid = root ∨ ledger.above root txid

/-- The score of the second entry once the package of the first is gone. -/
noncomputable def Ledger.paidWithout (ledger : Ledger) (first second : Uint256) : ℚ :=
  (ledger.detached (ledger.package first)).paidScore second

theorem Ledger.paidWithout_of_apart {first second : Uint256}
    (apart : ∀ other, ledger.below second other → ¬ledger.package first other) :
    ledger.paidWithout first second = ledger.paidScore second := by
  have states := ledger.descendantState_detached (ledger.package first) second
  rw [tally_none fun other _ both => apart other both.1 both.2, sub_zero] at states
  rw [paidWithout, paidScore, paidScore, states]
  rfl

section

variable (consistent : Consistent entries ledger bytes_per_sigop) {first second : Uint256}
  (listed : first ∈ ledger.txids) (above : ledger.above second first)

include consistent listed above

theorem Consistent.descendantState_without :
    (ledger.detached (ledger.package first)).descendantState second =
      ledger.descendantState second - ledger.descendantState first := by
  have counts : ∀ other ∈ ledger.txids, (ledger.below second other ∧ ledger.package first other) ↔
      other = first ∨ ledger.below first other := by
    intro other _
    rw [consistent.below, ← consistent.above]
    refine ⟨fun both => both.2, fun leaves => ⟨?_, leaves⟩⟩
    rcases leaves with rfl | lower
    · exact above
    · exact consistent.above_trans above lower
  have apart : ∀ other ∈ ledger.txids, other = first → ¬ledger.below first other := by
    rintro other _ rfl
    rw [consistent.below, ← consistent.above]
    exact consistent.above_irrefl _
  have own : ledger.descendantState first = (ledger.core first).descendantWeight +
      tally ledger.txids (fun other => (ledger.core other).descendantWeight)
        (ledger.below first) := by
    rw [Ledger.descendantState, consistent.descendantLag]
    exact sub_zero _
  rw [Ledger.descendantState_detached, tally_congr counts, tally_or apart, tally_single listed, own]

/-- An ancestor is not worse off without a package that pays a lower rate. -/
theorem Consistent.le_paidWithout (lower : ledger.paidScore first ≤ ledger.paidScore second) :
    ledger.paidScore first ≤ ledger.paidWithout first second := by
  have inside := (consistent.above_inside above).1
  have whole := ledger.descendantState_size_pos inside
  have share := ledger.descendantState_size_pos listed
  have left := (ledger.detached (ledger.package first)).descendantState_size_pos inside
  have states := consistent.descendantState_without listed above
  rcases le_max_iff.mp lower with own | together
  · exact own.trans (le_max_left _ _)
  refine le_trans ?_ (le_max_right _ _)
  rw [states] at left ⊢
  have rest : (0 : ℚ) <
      (ledger.descendantState second).2.1 - (ledger.descendantState first).2.1 := by
    exact_mod_cast left
  push_cast [Prod.snd_sub, Prod.fst_sub]
  exact le_div_sub (Int.cast_pos.mpr whole) (Int.cast_pos.mpr share) rest together
    (le_max_right _ _)

end

/-- The evicted entry pays the lowest score of all, no remaining entry pays a lower one, and
the raised minimum feerate is not above what a remaining entry pays. -/
structure Fair (before after : CTxMemPool) (root : CTxMemPoolEntry) : Prop where
  minimal : ∀ txid entry, before.mapTx.lookup txid = some entry → paidScore root ≤ paidScore entry
  remaining : ∀ txid entry, after.mapTx.lookup txid = some entry → paidScore root ≤ paidScore entry
  raised : before.rollingMinimumFeeRate < after.rollingMinimumFeeRate →
    ∀ txid entry, after.mapTx.lookup txid = some entry →
      after.rollingMinimumFeeRate ≤ 1000 * paidScore entry

/-- For every two entries, if the model asks no more of the first, then the first pays no higher
score, also than the second without the descendants they share, and the minimum feerate that its
package would raise is not above what the second pays without it. -/
structure PaysAsAsked (options : Options) (model : FeeModel) (ledger : Ledger)
    (pool : CTxMemPool) : Prop where
  ordered : ∀ first second low high, pool.mapTx.lookup first = some low →
    pool.mapTx.lookup second = some high → askedLess model high low = false →
      paidScore low ≤ paidScore high
  shared : ∀ first second low high, pool.mapTx.lookup first = some low →
    pool.mapTx.lookup second = some high → askedLess model high low = false →
    ¬ledger.package first second → ¬ledger.above second first →
    (∃ lost, ledger.above first lost ∧ ledger.above second lost) →
      paidScore low ≤ ledger.paidWithout first second
  raised : ∀ first second low high, pool.mapTx.lookup first = some low →
    pool.mapTx.lookup second = some high → askedLess model high low = false →
    ¬ledger.package first second → pool.rollingMinimumFeeRate < raisedMinimum options low →
      raisedMinimum options low ≤ 1000 * ledger.paidWithout first second

section

variable (consistent : Consistent before.mapTx ledger bytes_per_sigop)
  (evicted : Evicted options before after ledger bytes_per_sigop root stage)

include consistent evicted

theorem Evicted.kept {txid : Uint256} {entry : CTxMemPoolEntry}
    (found : after.mapTx.lookup txid = some entry) :
    (∃ old, before.mapTx.lookup txid = some old ∧ paidScore old = ledger.paidScore txid) ∧
      ¬ledger.package (options.descendantScoreBegin before) txid ∧
      paidScore entry = ledger.paidWithout (options.descendantScoreBegin before) txid := by
  obtain ⟨listed, stays⟩ := Ledger.mem_remove.mp (evicted.consistent.represents.mem_of_found found)
  obtain ⟨old, isOld, matched⟩ := consistent.represents.found listed
  refine ⟨⟨old, isOld, matched.paidScore⟩,
    fun leaves => stays ((evicted.staged txid).mpr leaves), ?_⟩
  have same : (· ∈ stage) = ledger.package (options.descendantScoreBegin before) :=
    funext fun other => propext (evicted.staged other)
  rw [(evicted.consistent.represents.entry txid entry found).paidScore, Ledger.paidScore,
    consistent.descendantState_remove (consistent.staged_closed evicted.staged), same]
  rfl

/-- One round. -/
theorem PaysAsAsked.fair {model : FeeModel} (least : BeginsLeast model options)
    (pays : PaysAsAsked options model ledger before) : Fair before after root := by
  have rootScore := (consistent.represents.entry _ root evicted.found).paidScore
  have minimal : ∀ txid entry, before.mapTx.lookup txid = some entry →
      paidScore root ≤ paidScore entry := fun txid entry found =>
    pays.ordered _ txid root entry evicted.found found
      (least before txid entry root found evicted.found)
  refine ⟨minimal, ?_, ?_⟩
  · intro txid entry found
    obtain ⟨⟨old, isOld, oldScore⟩, outside, score⟩ := evicted.kept consistent found
    rw [score]
    have lower := minimal txid old isOld
    by_cases above : ledger.above txid (options.descendantScoreBegin before)
    · rw [rootScore, oldScore] at lower
      rw [rootScore]
      exact consistent.le_paidWithout (consistent.represents.mem_of_found evicted.found) above lower
    by_cases shares : ∃ lost, ledger.above (options.descendantScoreBegin before) lost ∧
        ledger.above txid lost
    · exact pays.shared _ txid root old evicted.found isOld
        (least before txid old root isOld evicted.found) outside above shares
    rw [Ledger.paidWithout_of_apart, ← oldScore]
    · exact lower
    intro other below leaves
    rw [consistent.below, ← consistent.above] at below
    rcases leaves with rfl | lost
    · exact above below
    · exact shares ⟨other, lost, below⟩
  · intro raises txid entry found
    obtain ⟨⟨old, isOld, _⟩, outside, score⟩ := evicted.kept consistent found
    have minimum := evicted.minimum
    split at minimum
    next higher =>
      rw [minimum, score]
      exact pays.raised _ txid root old evicted.found isOld
        (least before txid old root isOld evicted.found) outside higher
    next => exact absurd raises (minimum ▸ lt_irrefl _)

end

/-- Every round of `TrimToSize` is fair if in every state that it trims the entries pay as they are
asked. -/
theorem trimToSize_fair {options : Options} {model : FeeModel}
    (least : BeginsLeast model options) {pool : CTxMemPool}
    (consistent : Consistent pool.mapTx ledger bytes_per_sigop) (sizelimit : Nat)
    (pays : ∀ before, ReflTransGen (TrimRound options sizelimit) pool before →
      Full options sizelimit before → ∃ current,
        Consistent before.mapTx current bytes_per_sigop ∧
          PaysAsAsked options model current before) :
    Meets (trimToSize options sizelimit) pool PoolHalt.OutOfRange (fun _ final =>
        ReflTransGen (TrimRound options sizelimit) pool final ∧ ¬Full options sizelimit final) ∧
      ∀ before after root, ReflTransGen (TrimRound options sizelimit) pool before →
        TrimRound options sizelimit before after →
        before.mapTx.lookup (options.descendantScoreBegin before) = some root →
          Fair before after root := by
  refine ⟨Meets.bind (meets_get (meets_trimLoop options sizelimit _ consistent le_rfl)), ?_⟩
  intro before after root rounds round found
  obtain ⟨current, isCurrent, agree⟩ := pays before rounds round.1
  obtain ⟨first, stage, evicted⟩ := round.evicted isCurrent
  obtain rfl : first = root := Option.some.inj (evicted.found.symm.trans found)
  exact agree.fair isCurrent evicted least

/-- `TrimToSize` ends within its limit or with an empty pool, whose links and aggregates are exact
again, and it never leaves a transaction without one that it spends. -/
theorem trimToSize_keeps_consistent (options : Options) {pool : CTxMemPool}
    (consistent : Consistent pool.mapTx ledger bytes_per_sigop) (sizelimit : Nat) :
    Meets (trimToSize options sizelimit) pool PoolHalt.OutOfRange fun _ final =>
      ¬Full options sizelimit final ∧ ∃ current, Consistent final.mapTx current bytes_per_sigop ∧
        ∀ source target, ledger.above source target → target ∈ final.mapTx →
          source ∈ final.mapTx ∧ current.above source target := by
  refine Meets.bind (meets_get ((meets_trimLoop options sizelimit _ consistent le_rfl).weaken ?_))
  intro _ final ⟨rounds, within⟩
  obtain ⟨current, left, related⟩ := exists_leftOf consistent rounds
  refine ⟨within, current, left, fun source target above stays => ?_⟩
  have still := (related source target).mpr ⟨above, (left.represents.present target).mp stays⟩
  exact ⟨(left.represents.present source).mpr (left.above_inside still).1, still⟩

theorem stageAll_yields (consistent : Consistent entries ledger bytes_per_sigop)
    {toremove : List Uint256} (inside : ∀ it ∈ toremove, it ∈ ledger.txids) :
    Yields (stageAll entries toremove) PoolHalt.OutOfRange fun stage =>
      ∀ txid, txid ∈ stage ↔ ∃ it ∈ toremove, ReflTransGen ledger.parent it txid := by
  refine foldlM_yields (fun done (stage : SetEntries) => ∀ txid, txid ∈ stage ↔
    ∃ it ∈ done, ReflTransGen ledger.parent it txid) ?_ (by simp [OrderedSet.not_mem_empty])
  intro done it stage listed gathered
  have walk := @calculateDescendants_yields entries ledger consistent.represents
  rw [consistent.child] at walk
  refine (walk (fun source target linked => (consistent.parent_inside source target linked).2)
    (inside it listed) ?_).weaken ?_
  · intro txid known child linked
    rw [gathered] at known ⊢
    obtain ⟨first, member, path⟩ := known
    exact ⟨first, member, path.tail linked⟩
  · intro found isFound txid
    simp [isFound, gathered, or_and_right, exists_or]

/-- `Expire` takes out exactly what is expired or descends from an expired transaction, returns
their number, and leaves the links and aggregates of the others exact. -/
theorem expire_exact (time : Int) {pool : CTxMemPool}
    (consistent : Consistent pool.mapTx ledger bytes_per_sigop) :
    Meets (expire time) pool PoolHalt.OutOfRange fun count after => ∃ stage : SetEntries,
      (∀ txid, txid ∈ stage ↔ ∃ it ∈ pool.mapTx.keys.filter (expired time pool),
        ReflTransGen ledger.parent it txid) ∧
        Consistent after.mapTx (ledger.remove stage) bytes_per_sigop ∧ count = stage.size := by
  have inside : ∀ it ∈ pool.mapTx.keys.filter (expired time pool), it ∈ ledger.txids := by
    intro it member
    rw [← consistent.represents.present]
    exact AList.mem_keys.mpr (List.mem_filter.mp member).1
  have gathers := stageAll_yields consistent inside
  refine Meets.bind (meets_get (Meets.bind (meets_lift ?_ fun _ halts => gathers.halt halts)))
  intro stage isStage
  have staged := gathers.result isStage
  refine Meets.bind ((meets_removeStaged consistent ?_ ?_).weaken ?_)
  · intro txid leaves
    obtain ⟨it, old, path⟩ := (staged txid).mp leaves
    exact mem_of_reached (fun _ _ linked => (consistent.parent_inside _ _ linked).2)
      (inside it old) path
  · intro source target linked leaves
    rw [staged] at leaves ⊢
    obtain ⟨it, old, path⟩ := leaves
    exact ⟨it, old, path.tail linked⟩
  · intro _ after removed
    exact meets_pure ⟨stage, staged, removed.1, rfl⟩

/-- The parent is expired, and its child goes with it. -/
theorem expire_exact_family :
    ((expire 1 family.pool).toOption.map fun result => (result.1, result.2.mapTx.keys)) =
        some (2, [3]) ∧
      Meets (expire 1) family.pool PoolHalt.OutOfRange fun count after => ∃ stage : SetEntries,
        (∀ txid, txid ∈ stage ↔ ∃ it ∈ family.pool.mapTx.keys.filter (expired 1 family.pool),
          ReflTransGen family.ledger.parent it txid) ∧
          Consistent after.mapTx (family.ledger.remove stage) 20 ∧ count = stage.size :=
  ⟨by decide +kernel, expire_exact 1 family.consistent⟩

variable (model : FeeModel)

def askedOf (entries : EntryMap) (txid : Uint256) : Int :=
  ((entries.lookup txid).bind (descendantScore model)).getD 0

/-- The first key of which no less is asked than of any other. -/
def firstLeast (entries : EntryMap) : Option Uint256 :=
  entries.keys.find? fun txid =>
    entries.keys.all fun other => decide (askedOf model entries txid ≤ askedOf model entries other)

theorem exists_firstLeast {entries : EntryMap}
    (nonempty : entries.keys ≠ []) : ∃ first, firstLeast model entries = some first := by
  obtain ⟨least, listed, lowest⟩ := Finset.exists_min_image entries.keys.toFinset
    (askedOf model entries) (List.toFinset_nonempty_iff _ |>.mpr nonempty)
  apply Option.isSome_iff_exists.mp
  rw [firstLeast, List.find?_isSome]
  refine ⟨least, List.mem_toFinset.mp listed, List.all_eq_true.mpr ?_⟩
  intro other member
  exact decide_eq_true (lowest other (List.mem_toFinset.mpr member))

/-- Options that find the first entry of the index by comparing all entries, and count a memory
usage of 1000 for each of them. -/
def freshOptions : Options :=
  { limits := .noLimits
    incremental_relay_feerate := ⟨1000⟩
    nBytesPerSigOp := 20
    dynamicMemoryUsage := fun pool => 1000 * pool.mapTx.keys.length
    descendantScoreBegin := fun pool => (firstLeast model pool.mapTx).getD 0
    descendantScoreBegin_mem := by
      intro pool nonempty
      obtain ⟨first, isFirst⟩ := exists_firstLeast model nonempty
      rw [isFirst]
      exact AList.mem_keys.mpr (List.mem_of_find?_eq_some isFirst) }

theorem freshOptions_beginsLeast : BeginsLeast model (freshOptions model) := by
  intro pool txid entry root found atFirst
  have listed : txid ∈ pool.mapTx.keys := by
    rw [← AList.mem_keys, ← AList.lookup_isSome, found]
    rfl
  obtain ⟨first, isFirst⟩ := exists_firstLeast model (List.ne_nil_of_mem listed)
  have begins : (freshOptions model).descendantScoreBegin pool = first := by
    change (firstLeast model pool.mapTx).getD 0 = first
    rw [isFirst, Option.getD_some]
  rw [begins] at atFirst
  have least := List.find?_some (p := fun txid => pool.mapTx.keys.all fun other =>
      decide (askedOf model pool.mapTx txid ≤ askedOf model pool.mapTx other)) isFirst
  have lowest := of_decide_eq_true (List.all_eq_true.mp least txid listed)
  unfold askedOf at lowest
  rw [found, atFirst, Option.bind_some, Option.bind_some] at lowest
  unfold askedLess
  split
  next low high isLow isHigh =>
    rw [isLow, isHigh] at lowest
    exact decide_eq_false (not_lt.mpr lowest)
  · rfl

theorem trimToSize_keeps_consistent_family :
    ((trimToSize (freshOptions defaultFeeModel) 1000 family.pool).toOption.map fun result =>
        result.2.mapTx.keys) = some [3] ∧
      Meets (trimToSize (freshOptions defaultFeeModel) 1000) family.pool PoolHalt.OutOfRange
        fun _ final => ¬Full (freshOptions defaultFeeModel) 1000 final ∧
          ∃ current, Consistent final.mapTx current 20 ∧
            ∀ source target, family.ledger.above source target → target ∈ final.mapTx →
              source ∈ final.mapTx ∧ current.above source target :=
  ⟨by decide +kernel, trimToSize_keeps_consistent _ family.consistent 1000⟩

private theorem family_above {source target : Uint256} (above : family.ledger.above source target) :
    source = 1 ∧ target = 2 := by
  have pair := @Contents.of_above _ family (fun source target => source == 1 && target == 2)
    (by decide +kernel) source target above
  simpa using pair

/-- Outside the package of an entry, only the third is asked no less, and it pays far more. -/
theorem family_asked {first second : Uint256} {low high : CTxMemPoolEntry}
    (isLow : family.pool.mapTx.lookup first = some low)
    (isHigh : family.pool.mapTx.lookup second = some high)
    (asked : askedLess defaultFeeModel high low = false) :
    paidScore low ≤ paidScore high ∧ (second = first ∨ first = 1 ∧ second = 2 ∨ second = 3 ∧
      raisedMinimum (freshOptions defaultFeeModel) low ≤ 1000 * paidScore high) := by
  have pairs : ((hashes family.cores).all fun first => (hashes family.cores).all fun second =>
      (family.pool.mapTx.lookup first).all fun low =>
        (family.pool.mapTx.lookup second).all fun high =>
          askedLess defaultFeeModel high low || decide (paidScore low ≤ paidScore high ∧
            (second = first ∨ first = 1 ∧ second = 2 ∨ second = 3 ∧
              raisedMinimum (freshOptions defaultFeeModel) low ≤ 1000 * paidScore high))) =
      true := by
    decide +kernel
  have pair := List.all_eq_true.mp (List.all_eq_true.mp pairs first
    (List.mem_toFinset.mp (family.represents.mem_of_found isLow))) second
    (List.mem_toFinset.mp (family.represents.mem_of_found isHigh))
  rw [isLow, isHigh, Option.all_some, Option.all_some, asked, Bool.false_or] at pair
  exact of_decide_eq_true pair

private theorem family_child : family.ledger.above 1 2 :=
  (isAbove_iff family.topological 1 2).mp (by decide +kernel)

theorem family_paysAsAsked :
    PaysAsAsked (freshOptions defaultFeeModel) defaultFeeModel family.ledger family.pool where
  ordered first second low high isLow isHigh asked := (family_asked isLow isHigh asked).1
  shared first second low high isLow isHigh asked outside _ := by
    rintro ⟨lost, lower, upper⟩
    exact absurd (.inl ((family_above upper).1.trans (family_above lower).1.symm)) outside
  raised first second low high isLow isHigh asked outside _ := by
    rcases (family_asked isLow isHigh asked).2 with same | ⟨rfl, rfl⟩ | ⟨rfl, covers⟩
    · exact absurd (.inl same) outside
    · exact absurd (.inr family_child) outside
    · rw [Ledger.paidWithout_of_apart, ← (family.represents.entry _ _ isHigh).paidScore]
      · exact covers
      intro other below
      exact absurd (family_above below).1 (by decide)

private theorem trimOnce_family :
    ((trimOnce (freshOptions defaultFeeModel) family.pool).toOption.map fun result =>
      decide (result.2.mapTx.keys = [3])) = some true := by
  decide +kernel

/-- The parent and its child are evicted together, and what is left fits. -/
theorem trimToSize_fair_family :
    let options := freshOptions defaultFeeModel
    BeginsLeast defaultFeeModel options ∧ Consistent family.pool.mapTx family.ledger 20 ∧
      ∃ root after, TrimRound options 1000 family.pool after ∧ after.mapTx.keys = [3] ∧
        Fair family.pool after root := by
  intro options
  obtain ⟨⟨noSpends, after⟩, runs, evaluated⟩ := Program.exists_ok_of_map trimOnce_family
  have keys : after.mapTx.keys = [3] := of_decide_eq_true evaluated
  have full : Full options 1000 family.pool := by
    unfold Full
    decide +kernel
  have round : TrimRound options 1000 family.pool after := ⟨full, noSpends, runs⟩
  have fits : ¬Full options 1000 after := by
    rintro ⟨_, large⟩
    change 1000 * after.mapTx.keys.length > 1000 at large
    rw [keys] at large
    exact absurd large (by decide)
  obtain ⟨root, found, _⟩ := family.represents.found
    ((family.represents.present _).mp (options.descendantScoreBegin_mem _ full.1))
  refine ⟨freshOptions_beginsLeast _, family.consistent, root, after, round, keys,
    (trimToSize_fair (freshOptions_beginsLeast _) family.consistent 1000 ?_).2 _ after root .refl
      round found⟩
  intro before rounds isFull
  rcases rounds.cases_head with rfl | ⟨next, ⟨_, _, again⟩, rest⟩
  · exact ⟨family.ledger, family.consistent, family_paysAsAsked⟩
  obtain ⟨rfl, rfl⟩ := Prod.mk.inj (Except.ok.inj (runs.symm.trans again))
  rcases rest.cases_head with rfl | ⟨_, further, _⟩
  · exact absurd isFull fits
  · exact absurd further.1 fits

theorem trimToSize_unlinked :
    ((trimToSize (freshOptions defaultFeeModel) 1000 unlinked.pool).toOption.map fun result =>
      decide (result.2.mapTx.keys = [1] ∧ result.2.rollingMinimumFeeRate = 13195 ∧
        (result.2.mapTx.lookup 1).map paidScore = some 1)) = some true := by
  decide +kernel

/-- The payment of 1000 units pays 1000 for 82 bytes, that of 1000 coins pays 82. The model asks
100 of the first and 500009 of the second, so the first is evicted, and the minimum feerate
rises far above what the second pays. -/
theorem trimToSize_evicts_best : Consistent unlinked.pool.mapTx unlinked.ledger 20 ∧
      BeginsLeast defaultFeeModel (freshOptions defaultFeeModel) ∧
      (unlinked.pool.mapTx.lookup 2).map paidScore = some (1000 / 82) ∧
      (unlinked.pool.mapTx.lookup 1).map paidScore = some 1 ∧
      ∃ noSpendsRemaining after,
        trimToSize (freshOptions defaultFeeModel) 1000 unlinked.pool =
          .ok (noSpendsRemaining, after) ∧
        after.mapTx.keys = [1] ∧ after.rollingMinimumFeeRate = 13195 ∧
        (after.mapTx.lookup 1).map paidScore = some 1 := by
  refine ⟨unlinked.consistent, freshOptions_beginsLeast _, by decide +kernel, by decide +kernel, ?_⟩
  obtain ⟨result, runs, evaluated⟩ := Program.exists_ok_of_map trimToSize_unlinked
  exact ⟨result.1, result.2, runs, of_decide_eq_true evaluated⟩

end Adonai.Mempool
