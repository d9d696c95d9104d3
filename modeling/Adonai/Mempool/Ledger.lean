/-
What the entries of the mempool say about each other.

A ledger says of every two transactions whether one is listed as parent or child of the other and
counts in its aggregates. During an update the four relations differ, and an entry may lag behind
a change of another's modified fee.
-/

import Adonai.Foundation.Digraph
import Adonai.Mempool.Pool

namespace Adonai.Mempool

open Program Digraph

abbrev AncestorTotals := Int × Int × Int × Int

abbrev DescendantTotals := Int × Int × Int

structure Core where
  tx : CTransaction
  nFee : Int
  nTxSize : Int
  sigOpCost : Int
  m_modified_fee : Int

namespace Core

def ancestorWeight (core : Core) : AncestorTotals :=
  (1, core.nTxSize, core.m_modified_fee, core.sigOpCost)

def descendantWeight (core : Core) : DescendantTotals := (1, core.nTxSize, core.m_modified_fee)

end Core

namespace CTxMemPoolEntry

variable (entry : CTxMemPoolEntry)

def core : Core :=
  { tx := entry.tx
    nFee := entry.nFee
    nTxSize := entry.nTxSize
    sigOpCost := entry.sigOpCost
    m_modified_fee := entry.m_modified_fee }

def ancestorState : AncestorTotals :=
  (entry.m_count_with_ancestors, entry.nSizeWithAncestors, entry.nModFeesWithAncestors,
    entry.nSigOpCostWithAncestors)

def descendantState : DescendantTotals :=
  (entry.m_count_with_descendants, entry.nSizeWithDescendants, entry.nModFeesWithDescendants)

end CTxMemPoolEntry

structure Ledger where
  txids : Finset Uint256
  core : Uint256 → Core
  parent : Uint256 → Uint256 → Prop
  child : Uint256 → Uint256 → Prop
  /-- The first counts in the ancestor state of the second. -/
  above : Uint256 → Uint256 → Prop
  /-- The second counts in the descendant state of the first. -/
  below : Uint256 → Uint256 → Prop
  /-- The modified fees missing from an ancestor state. -/
  ancestorLag : Uint256 → Int
  descendantLag : Uint256 → Int
  hash_core : ∀ txid ∈ txids, (core txid).tx.hash = txid
  size_pos : ∀ txid ∈ txids, 0 < (core txid).nTxSize
  cost_nonneg : ∀ txid ∈ txids, 0 ≤ (core txid).sigOpCost
  few : txids.card ≤ 2 ^ 60

variable {txid : Uint256}

namespace Ledger

noncomputable def ancestorState (ledger : Ledger) (txid : Uint256) : AncestorTotals :=
  (ledger.core txid).ancestorWeight +
    tally ledger.txids (fun other => (ledger.core other).ancestorWeight) (ledger.above · txid) -
    (0, 0, ledger.ancestorLag txid, 0)

noncomputable def descendantState (ledger : Ledger) (txid : Uint256) : DescendantTotals :=
  (ledger.core txid).descendantWeight +
    tally ledger.txids (fun other => (ledger.core other).descendantWeight) (ledger.below txid ·) -
    (0, 0, ledger.descendantLag txid)

private theorem descendantState_count (ledger : Ledger) (txid : Uint256) :
    (ledger.descendantState txid).1 =
      1 + tally ledger.txids (fun _ => (1 : Int)) (ledger.below txid ·) := by
  rw [descendantState, sub_eq_add_neg, ← AddMonoidHom.coe_fst, map_add, map_add, map_tally]
  exact add_zero _

theorem descendantState_count_pos (ledger : Ledger) (txid : Uint256) :
    0 < (ledger.descendantState txid).1 := by
  rw [descendantState_count]
  exact Int.add_pos_of_pos_of_nonneg Int.one_pos (tally_nonneg fun _ _ => Int.one_nonneg)

theorem descendantState_count_le (ledger : Ledger) (txid : Uint256) :
    (ledger.descendantState txid).1 ≤ 2 ^ 60 + 1 := by
  rw [descendantState_count, add_comm]
  exact Int.add_le_add_right (tally_le_card.trans (mod_cast ledger.few)) 1

theorem descendantState_size_pos (ledger : Ledger) (member : txid ∈ ledger.txids) :
    0 < (ledger.descendantState txid).2.1 := by
  have others : (0 : Int) ≤ (tally ledger.txids (fun other => (ledger.core other).descendantWeight)
      (ledger.below txid ·)).2.1 := by
    rw [← AddMonoidHom.coe_snd, ← AddMonoidHom.coe_fst, map_tally, map_tally]
    exact tally_nonneg fun other inside => (ledger.size_pos other inside).le
  exact (add_pos_of_pos_of_nonneg (ledger.size_pos txid member) others).trans_eq (sub_zero _).symm

end Ledger

/-- An entry says of itself what the ledger says of it. -/
structure EntryMatches (ledger : Ledger) (txid : Uint256) (entry : CTxMemPoolEntry) : Prop where
  core : entry.core = ledger.core txid
  parents : ∀ other, other ∈ entry.m_parents ↔ ledger.parent other txid
  children : ∀ other, other ∈ entry.m_children ↔ ledger.child txid other
  ancestors : entry.ancestorState = ledger.ancestorState txid
  descendants : entry.descendantState = ledger.descendantState txid

structure Represents (entries : EntryMap) (ledger : Ledger) : Prop where
  present : ∀ txid, txid ∈ entries ↔ txid ∈ ledger.txids
  entry : ∀ txid entry, entries.lookup txid = some entry → EntryMatches ledger txid entry

variable {entries : EntryMap} {ledger : Ledger}

section

variable (represents : Represents entries ledger)

include represents

theorem Represents.found (member : txid ∈ ledger.txids) :
    ∃ entry, entries.lookup txid = some entry ∧ EntryMatches ledger txid entry := by
  have present := AList.lookup_isSome.mpr ((represents.present txid).mpr member)
  obtain ⟨entry, found⟩ := Option.isSome_iff_exists.mp present
  exact ⟨entry, found, represents.entry txid entry found⟩

theorem Represents.mem_of_found {entry : CTxMemPoolEntry}
    (found : entries.lookup txid = some entry) :
    txid ∈ ledger.txids := by
  refine (represents.present txid).mp (AList.lookup_isSome.mp ?_)
  rw [found]
  rfl

theorem Represents.keys_length : entries.keys.length = ledger.txids.card := by
  rw [← List.toFinset_card_of_nodup entries.keys_nodup]
  congr 1
  ext txid
  rw [List.mem_toFinset, ← AList.mem_keys, represents.present]

end

/-- Two ledgers of the same transactions that agree about one of them. -/
structure AgreeAt (ledger other : Ledger) (txid : Uint256) : Prop where
  txids : other.txids = ledger.txids
  core : other.core = ledger.core
  parents : ∀ item, other.parent item txid ↔ ledger.parent item txid
  children : ∀ item, other.child txid item ↔ ledger.child txid item
  ancestors : ∀ item ∈ ledger.txids, other.above item txid ↔ ledger.above item txid
  descendants : ∀ item ∈ ledger.txids, other.below txid item ↔ ledger.below txid item
  ancestorLag : other.ancestorLag txid = ledger.ancestorLag txid
  descendantLag : other.descendantLag txid = ledger.descendantLag txid

variable {other : Ledger}

private theorem AgreeAt.matches (agree : AgreeAt ledger other txid) {entry : CTxMemPoolEntry}
    (before : EntryMatches ledger txid entry) : EntryMatches other txid entry where
  core := by rw [before.core, agree.core]
  parents item := (before.parents item).trans (agree.parents item).symm
  children item := (before.children item).trans (agree.children item).symm
  ancestors := by
    rw [before.ancestors, Ledger.ancestorState, Ledger.ancestorState, agree.txids, agree.core,
      agree.ancestorLag, tally_congr agree.ancestors]
  descendants := by
    rw [before.descendants, Ledger.descendantState, Ledger.descendantState, agree.txids, agree.core,
      agree.descendantLag, tally_congr agree.descendants]

theorem narrow_yields (bits : Nat) (value : Int) :
    Yields (narrow bits value) PoolHalt.OutOfRange fun result => result = value := by
  unfold narrow
  split
  · exact rfl
  · exact trivial

variable (left right : Int)

theorem addInt64_yields :
    Yields (addInt64 left right) PoolHalt.OutOfRange fun result => result = left + right :=
  narrow_yields 64 (left + right)

theorem addInt64_bounded :
    Yields (addInt64 left right) PoolHalt.OutOfRange fun result => result ≤ 2 ^ 63 - 1 := by
  unfold addInt64 narrow
  split
  next fits =>
    rw [inRange, Bool.and_eq_true, decide_eq_true_eq, decide_eq_true_eq] at fits
    exact Int.le_sub_one_of_lt fits.2
  · exact trivial

private theorem addUnsaturated_yields :
    Yields (addUnsaturated left right) PoolHalt.OutOfRange fun result => result = left + right := by
  unfold addUnsaturated
  split
  · exact rfl
  · exact trivial

theorem assert_yields {condition : Bool} {expected : PoolHalt → Prop} (holds : condition = true) :
    Yields (assert condition) expected fun _ => True := by
  rw [assert, if_pos holds]
  exact trivial

theorem updateDescendantState_yields (entry : CTxMemPoolEntry) {size fee count : Int}
    (positiveSize : 0 < entry.nSizeWithDescendants + size)
    (positiveCount : 0 < entry.m_count_with_descendants + count) :
    Yields (entry.updateDescendantState size fee count) PoolHalt.OutOfRange fun changed =>
      changed = { entry with
        nSizeWithDescendants := entry.nSizeWithDescendants + size
        nModFeesWithDescendants := entry.nModFeesWithDescendants + fee
        m_count_with_descendants := entry.m_count_with_descendants + count } := by
  refine .bind ((addInt64_yields _ _).weaken ?_)
  rintro _ rfl
  refine .bind ((assert_yields (decide_eq_true positiveSize)).weaken ?_)
  rintro _ _
  refine .bind ((addUnsaturated_yields _ _).weaken ?_)
  rintro _ rfl
  refine .bind ((addInt64_yields _ _).weaken ?_)
  rintro _ rfl
  refine .bind ((assert_yields (decide_eq_true positiveCount)).weaken ?_)
  rintro _ _
  exact rfl

section Changes

variable {entries : EntryMap} {ledger : Ledger}

theorem meets_entryAt (represents : Represents entries ledger) (member : txid ∈ ledger.txids) :
    Meets (entryAt txid) entries PoolHalt.OutOfRange fun entry after =>
      after = entries ∧ EntryMatches ledger txid entry := by
  obtain ⟨entry, found, matched⟩ := represents.found member
  refine .of_ok ?_ ⟨rfl, matched⟩
  rw [entryAt, found]

theorem meets_modifyEntry (represents : Represents entries ledger) (member : txid ∈ ledger.txids)
    {change : CTxMemPoolEntry → Except PoolHalt CTxMemPoolEntry}
    (txids : other.txids = ledger.txids)
    (agree : ∀ item ∈ ledger.txids, item ≠ txid → AgreeAt ledger other item)
    (changes : ∀ entry, EntryMatches ledger txid entry → Yields (change entry) PoolHalt.OutOfRange
      (EntryMatches other txid)) :
    Meets (modifyEntry txid change) entries PoolHalt.OutOfRange fun _ after =>
      Represents after other := by
  obtain ⟨entry, found, matched⟩ := represents.found member
  have yields := changes entry matched
  cases outcome : change entry with
  | error halt =>
    refine .of_error ?_ (yields.halt outcome)
    rw [modifyEntry, found]
    change (change entry).map _ = _
    rw [outcome]
    rfl
  | ok changed =>
    have runs : modifyEntry txid change entries = .ok ((), entries.insert txid changed) := by
      rw [modifyEntry, found]
      change (change entry).map _ = _
      rw [outcome]
      rfl
    refine .of_ok runs { present := ?_, entry := ?_ }
    · intro item
      rw [AList.mem_insert, represents.present, txids]
      exact ⟨fun cases => cases.elim (fun same => same ▸ member) id, Or.inr⟩
    · intro item itsEntry atItem
      by_cases same : item = txid
      · subst same
        rw [AList.lookup_insert] at atItem
        cases atItem
        exact yields.result outcome
      · rw [AList.lookup_insert_ne same] at atItem
        exact (agree item (represents.mem_of_found atItem) same).matches
          (represents.entry item itsEntry atItem)

variable (relation : Uint256 → Uint256 → Prop)

def alter (add : Bool) (pairs : Uint256 → Uint256 → Prop) (source target : Uint256) : Prop :=
  if add then relation source target ∨ pairs source target
  else relation source target ∧ ¬ pairs source target

theorem alter_elsewhere {relation pairs : Uint256 → Uint256 → Prop} (add : Bool)
    {source target : Uint256} (elsewhere : ¬ pairs source target) :
    alter relation add pairs source target ↔ relation source target := by
  cases add with
  | false => exact and_iff_left elsewhere
  | true => exact or_iff_left elsewhere

theorem alter_alter (add : Bool)
    (pairs others : Uint256 → Uint256 → Prop) : alter (alter relation add pairs) add others =
      alter relation add fun source target => pairs source target ∨ others source target := by
  funext source target
  cases add with
  | false =>
    change ((_ ∧ ¬ _) ∧ ¬ _) = (_ ∧ ¬ (_ ∨ _))
    rw [not_or, and_assoc]
  | true =>
    change ((_ ∨ _) ∨ _) = (_ ∨ (_ ∨ _))
    rw [or_assoc]

theorem alter_nothing (add : Bool)
    {pairs : Uint256 → Uint256 → Prop} (nothing : ∀ source target, ¬ pairs source target) :
    alter relation add pairs = relation := by
  funext source target
  exact propext (alter_elsewhere add (nothing source target))

theorem meets_updateChild (represents : Represents entries ledger) (member : txid ∈ ledger.txids)
    (child : Uint256) (add : Bool) :
    Meets (updateChild txid child add) entries PoolHalt.OutOfRange fun _ after =>
      Represents after { ledger with
        child := alter ledger.child add fun source target => source = txid ∧ target = child } := by
  have elsewhere : ∀ item, item ≠ txid → ∀ target,
      alter ledger.child add (fun source target => source = txid ∧ target = child) item target ↔
        ledger.child item target := by
    intro item different target
    exact alter_elsewhere add fun same => different same.1
  refine meets_modifyEntry represents member rfl ?_ ?_
  · intro item _ different
    exact
      { txids := rfl, core := rfl, ancestorLag := rfl, descendantLag := rfl
        parents := fun _ => Iff.rfl
        children := elsewhere item different
        ancestors := fun _ _ => Iff.rfl
        descendants := fun _ _ => Iff.rfl }
  · intro entry matched
    refine { core := matched.core, parents := matched.parents, children := ?_,
             ancestors := matched.ancestors, descendants := matched.descendants }
    intro other
    cases add with
    | false =>
      change other ∈ entry.m_children.erase child ↔
        ledger.child txid other ∧ ¬ (txid = txid ∧ other = child)
      rw [OrderedSet.mem_erase, matched.children, and_iff_right rfl]
      exact and_comm
    | true =>
      change other ∈ entry.m_children.insert child ↔
        ledger.child txid other ∨ txid = txid ∧ other = child
      rw [OrderedSet.mem_insert, matched.children, and_iff_right rfl]
      exact or_comm

theorem meets_updateDescendantState (represents : Represents entries ledger)
    (member : txid ∈ ledger.txids) {below : Uint256 → Uint256 → Prop} {lag : Uint256 → Int}
    (isOther : other = { ledger with below := below, descendantLag := lag }) {size fee count : Int}
    (others : ∀ source, source ≠ txid → ∀ target, below source target ↔ ledger.below source target)
    (lags : ∀ source, source ≠ txid → lag source = ledger.descendantLag source)
    (total : other.descendantState txid = ledger.descendantState txid + (count, size, fee)) :
    Meets (modifyEntry txid (·.updateDescendantState size fee count)) entries PoolHalt.OutOfRange
      fun _ after => Represents after other := by
  subst isOther
  refine meets_modifyEntry represents member rfl ?_ ?_
  · intro item _ different
    exact
      { txids := rfl, core := rfl, ancestorLag := rfl, descendantLag := lags item different
        parents := fun _ => Iff.rfl
        children := fun _ => Iff.rfl
        ancestors := fun _ _ => Iff.rfl
        descendants := fun target _ => others item different target }
  · intro entry matched
    have after : entry.descendantState + (count, size, fee) =
        Ledger.descendantState { ledger with below := below, descendantLag := lag } txid := by
      rw [matched.descendants, total]
    have positiveCount :=
      Ledger.descendantState_count_pos { ledger with below := below, descendantLag := lag } txid
    have positiveSize :=
      Ledger.descendantState_size_pos { ledger with below := below, descendantLag := lag } member
    rw [← after] at positiveCount positiveSize
    refine (updateDescendantState_yields entry positiveSize positiveCount).weaken ?_
    rintro changed rfl
    exact { core := matched.core, parents := matched.parents, children := matched.children,
            ancestors := matched.ancestors, descendants := after }

end Changes

def signed {M : Type} [Neg M] (add : Bool) (weight : M) : M := if add then weight else -weight

theorem tally_alter {M : Type} [AddCommGroup M] {members : Finset Uint256} {weight : Uint256 → M}
    {counts before : Uint256 → Prop} {items : List Uint256} (nodup : items.Nodup)
    (inside : ∀ item ∈ items, item ∈ members) {add : Bool}
    (changes : ∀ item ∈ items, before item ↔ add = false) (counted : ∀ item ∈ members, counts item ↔
      if add then before item ∨ item ∈ items else before item ∧ item ∉ items) :
    tally members weight counts =
      tally members weight before + signed add (items.map weight).sum := by
  rw [tally_congr counted, ← tally_list nodup inside]
  cases add with
  | true =>
    refine tally_or ?_
    intro item _ wasCounted listed
    cases (changes item listed).mp wasCounted
  | false =>
    change _ = _ + - _
    rw [← sub_eq_add_neg]
    exact tally_diff fun item _ listed => (changes item listed).mpr rfl

theorem Ledger.descendantState_alter {below : Uint256 → Uint256 → Prop}
    (isOther : other = { ledger with below := below }) {source : Uint256} {items : List Uint256}
    (nodup : items.Nodup) (inside : ∀ item ∈ items, item ∈ ledger.txids) {add : Bool}
    (changes : ∀ item ∈ items, ledger.below source item ↔ add = false)
    (counted : ∀ item, below source item ↔ if add then ledger.below source item ∨ item ∈ items else
      ledger.below source item ∧ item ∉ items) :
    other.descendantState source = ledger.descendantState source +
      signed add (items.map fun item => (ledger.core item).descendantWeight).sum := by
  subst isOther
  change (ledger.core source).descendantWeight + tally ledger.txids _ (below source) -
    (0, 0, ledger.descendantLag source) = _
  rw [tally_alter nodup inside changes fun item _ => counted item, Ledger.descendantState]
  abel

end Adonai.Mempool
