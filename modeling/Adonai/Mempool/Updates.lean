/-
What the functions that maintain links and aggregates make of a ledger.
-/

import Adonai.Mempool.Walks

namespace Adonai.Mempool

open Program Digraph Relation

variable {entries : EntryMap} {ledger : Ledger}

section

variable (represents : Represents entries ledger)

include represents

private theorem meets_updateChildren {sources : List Uint256} (nodup : sources.Nodup)
    (inside : ∀ source ∈ sources, source ∈ ledger.txids) (child : Uint256) (add : Bool) :
    Meets (forEach (fun source => updateChild source child add) sources) entries PoolHalt.OutOfRange
      fun _ after => Represents after { ledger with
        child := alter ledger.child add fun source target =>
          source ∈ sources ∧ target = child } := by
  refine meets_forEach_nodup (fun done entries => Represents entries { ledger with
    child := alter ledger.child add fun source target => done source ∧ target = child }) nodup ?_ ?_
  · intro done item entries listed _ before
    refine (meets_updateChild before (inside item listed) child add).weaken ?_
    intro _ after changed
    simp only [alter_alter, ← or_and_right] at changed
    exact changed
  · rw [alter_nothing ledger.child add fun _ _ both => both.1]
    exact represents

theorem meets_countBelowOne {source counted : Uint256} (memberSource : source ∈ ledger.txids)
    (member : counted ∈ ledger.txids) {add : Bool}
    (changes : ledger.below source counted ↔ add = false) {size fee count : Int}
    (weight : (count, size, fee) = signed add (ledger.core counted).descendantWeight) :
    Meets (modifyEntry source (·.updateDescendantState size fee count)) entries PoolHalt.OutOfRange
      fun _ after => Represents after { ledger with
        below := alter ledger.below add fun left right => left = source ∧ right = counted } := by
  refine meets_updateDescendantState represents memberSource rfl ?_ (fun _ _ => rfl) ?_
  · intro left different right
    exact alter_elsewhere add fun same => different same.1
  · refine (Ledger.descendantState_alter rfl (List.nodup_singleton counted)
      (fun item listed => List.mem_singleton.mp listed ▸ member)
      (fun item listed => List.mem_singleton.mp listed ▸ changes) fun item => ?_).trans ?_
    · rw [alter, List.mem_singleton, and_iff_right rfl]
    · rw [weight, List.map_singleton, List.sum_singleton]

theorem meets_countBelow {counted : Uint256} (member : counted ∈ ledger.txids)
    {sources : List Uint256} (nodup : sources.Nodup)
    (inside : ∀ source ∈ sources, source ∈ ledger.txids) {add : Bool}
    (changes : ∀ source ∈ sources, ledger.below source counted ↔ add = false) {size fee count : Int}
    (weight : (count, size, fee) = signed add (ledger.core counted).descendantWeight) :
    Meets (forEach (fun source => modifyEntry source (·.updateDescendantState size fee count))
      sources) entries PoolHalt.OutOfRange fun _ after => Represents after { ledger with
        below := alter ledger.below add fun source target =>
          source ∈ sources ∧ target = counted } := by
  refine meets_forEach_nodup (fun done entries => Represents entries { ledger with
    below := alter ledger.below add fun source target =>
      done source ∧ target = counted }) nodup ?_ ?_
  · intro done item entries listed fresh before
    have notYet : alter ledger.below add (fun source target => done source ∧ target = counted)
        item counted ↔ add = false :=
      (alter_elsewhere add fun both => fresh both.1).trans (changes item listed)
    refine (meets_countBelowOne before (inside item listed) member notYet weight).weaken ?_
    intro _ after changed
    simp only [alter_alter, ← or_and_right] at changed
    exact changed
  · rw [alter_nothing ledger.below add fun _ _ both => both.1]
    exact represents

end

variable {it : Uint256}

/-- The parents of an entry list it, or no longer do, and it counts, or no longer counts, in the
descendant states of its ancestors. -/
theorem meets_updateAncestorsOf (represents : Represents entries ledger)
    (parentsInside : ∀ source target, ledger.parent source target → source ∈ ledger.txids)
    (member : it ∈ ledger.txids) {setAncestors : SetEntries}
    (ancestorsInside : ∀ source, source ∈ setAncestors → source ∈ ledger.txids) {add : Bool}
    (changes : ∀ source, source ∈ setAncestors → (ledger.below source it ↔ add = false)) :
    Meets (updateAncestorsOf add it setAncestors) entries PoolHalt.OutOfRange fun _ after =>
      Represents after { ledger with
        child := alter ledger.child add fun source target => ledger.parent source it ∧ target = it
        below := alter ledger.below add fun source target =>
          source ∈ setAncestors ∧ target = it } := by
  refine .bind ((meets_entryAt represents member).weaken ?_)
  rintro entry _ ⟨rfl, matched⟩
  have listed : ∀ source, source ∈ entry.m_parents.elems ↔ ledger.parent source it :=
    fun source => matched.parents source
  refine .bind ((meets_updateChildren represents entry.m_parents.nodup ?_ it add).weaken ?_)
  · intro source isParent
    exact parentsInside source it ((listed source).mp isParent)
  intro _ linked relinked
  simp only [listed] at relinked
  refine .bind ((meets_entryAt relinked member).weaken ?_)
  rintro entry _ ⟨rfl, matched⟩
  have size : entry.nTxSize = (ledger.core it).nTxSize := congrArg Core.nTxSize matched.core
  have fee : entry.m_modified_fee = (ledger.core it).m_modified_fee :=
    congrArg Core.m_modified_fee matched.core
  refine .bind (meets_lift ?_ fun _ halts => (narrow_yields _ _).halt halts)
  intro updateSize isSize
  refine .bind (meets_lift ?_ fun _ halts => (narrow_yields _ _).halt halts)
  intro updateFee isFee
  refine meets_countBelow relinked member setAncestors.nodup ancestorsInside changes ?_
  rw [(narrow_yields _ _).result isSize, (narrow_yields _ _).result isFee, size, fee]
  cases add with
  | true =>
    change _ = (1, (ledger.core it).nTxSize, (ledger.core it).m_modified_fee)
    rw [if_pos rfl, one_mul, one_mul]
  | false =>
    change _ = (-1, -(ledger.core it).nTxSize, -(ledger.core it).m_modified_fee)
    rw [if_neg Bool.false_ne_true, neg_one_mul, neg_one_mul]

theorem alter_detached {relation : Uint256 → Uint256 → Prop} {gone pointing : Uint256 → Prop}
    (covers : ∀ source, relation source it → pointing source) :
    alter (alter relation false fun _ target => gone target) false
        (fun source target => pointing source ∧ target = it) =
      alter relation false fun _ target => gone target ∨ target = it := by
  funext source target
  apply propext
  constructor
  · intro kept
    obtain ⟨⟨related, stays⟩, other⟩ := kept
    refine ⟨related, ?_⟩
    rintro (leaves | rfl)
    · exact stays leaves
    · exact other ⟨covers source related, rfl⟩
  · intro kept
    obtain ⟨related, stays⟩ := kept
    exact ⟨⟨related, fun leaves => stays (.inl leaves)⟩, fun both => stays (.inr both.2)⟩

/-- The entries that go are no longer listed as children nor counted as descendants. -/
def Ledger.detached (ledger : Ledger) (gone : Uint256 → Prop) : Ledger :=
  { ledger with
    child := alter ledger.child false fun _ target => gone target
    below := alter ledger.below false fun _ target => gone target }

variable {stage : SetEntries}

section Removal

variable {bytes_per_sigop : Nat} {now : EntryMap} {gone : Uint256 → Prop}

theorem meets_updateAncestorsForRemoval (consistent : Consistent entries ledger bytes_per_sigop)
    (member : it ∈ ledger.txids) (remains : ¬gone it)
    (represents : Represents now (ledger.detached gone)) :
    Meets (updateAncestorsForRemoval it) now PoolHalt.OutOfRange fun _ after =>
      Represents after (ledger.detached fun other => gone other ∨ other = it) := by
  have parentsInside : ∀ source target, ledger.parent source target → source ∈ ledger.txids :=
    fun source target linked => (consistent.parent_inside source target linked).1
  refine .bind ((meets_entryAt represents member).weaken ?_)
  rintro entry _ ⟨rfl, matched⟩
  have walk := assumeCalculateMemPoolAncestors_yields
    (calculateMemPoolAncestors_linked_yields represents parentsInside matched .noLimits)
  refine .bind (meets_get (Meets.bind (meets_lift ?_ fun _ halts => walk.halt halts)))
  intro ancestors found
  have isFound : ∀ other, other ∈ ancestors ↔ ledger.above other it := by
    intro other
    rw [consistent.above_iff]
    exact walk.result found other
  refine (meets_updateAncestorsOf represents parentsInside member ?_ ?_).weaken ?_
  · intro source isAncestor
    exact (consistent.above_inside ((isFound source).mp isAncestor)).1
  · intro source isAncestor
    refine iff_of_true ⟨?_, remains⟩ rfl
    rw [consistent.below, ← consistent.above]
    exact (isFound source).mp isAncestor
  · intro _ after changed
    have links : ∀ source, ledger.child source it → ledger.parent source it := by
      rw [consistent.child]
      exact fun _ => id
    have counts : ∀ source, ledger.below source it → source ∈ ancestors := by
      rw [consistent.below, ← consistent.above]
      exact fun source => (isFound source).mpr
    have changed : Represents after { ledger with
        child := alter (alter ledger.child false fun _ target => gone target) false
          fun source target => ledger.parent source it ∧ target = it
        below := alter (alter ledger.below false fun _ target => gone target) false
          fun source target => source ∈ ancestors ∧ target = it } := changed
    rw [alter_detached links, alter_detached counts] at changed
    exact changed

theorem meets_updateForRemoveFromMempool (consistent : Consistent entries ledger bytes_per_sigop)
    (inside : ∀ it, it ∈ stage → it ∈ ledger.txids)
    (closed : ∀ source target, ledger.parent source target → source ∈ stage → target ∈ stage) :
    Meets (updateForRemoveFromMempool stage false) entries PoolHalt.OutOfRange fun _ after =>
      Represents after (ledger.detached (· ∈ stage)) := by
  refine .bind (meets_pure (Meets.bind ((meets_forEach_nodup
    (fun done now => Represents now (ledger.detached done)) stage.nodup ?_ ?_).weaken ?_)))
  · intro done it now listed fresh represents
    exact meets_updateAncestorsForRemoval consistent (inside it listed) fresh represents
  · have untouched : ledger.detached (fun _ => False) = ledger := by
      unfold Ledger.detached
      rw [alter_nothing ledger.child false fun _ _ => id,
        alter_nothing ledger.below false fun _ _ => id]
    rw [untouched]
    exact consistent.represents
  · intro _ middle represents
    refine meets_forEach_nodup (fun _ now => Represents now (ledger.detached (· ∈ stage)))
      stage.nodup ?_ represents
    intro _ it now listed _ represents
    refine .bind ((meets_entryAt represents (inside it listed)).weaken ?_)
    rintro entry _ ⟨rfl, matched⟩
    have childless : entry.m_children.elems = [] := by
      apply List.eq_nil_iff_forall_not_mem.mpr
      intro other isChild
      obtain ⟨linked, remains⟩ := (matched.children other).mp isChild
      rw [consistent.child] at linked
      exact remains (closed it other linked listed)
    rw [childless]
    exact meets_pure represents

def Ledger.remove (ledger : Ledger) (stage : SetEntries) : Ledger where
  txids := ledger.txids.filter (· ∉ stage)
  core := ledger.core
  parent := without ledger.parent (· ∈ stage)
  child := without ledger.parent (· ∈ stage)
  above := TransGen (without ledger.parent (· ∈ stage))
  below := TransGen (without ledger.parent (· ∈ stage))
  ancestorLag := ledger.ancestorLag
  descendantLag := ledger.descendantLag
  hash_core txid member := ledger.hash_core txid (Finset.mem_filter.mp member).1
  size_pos txid member := ledger.size_pos txid (Finset.mem_filter.mp member).1
  cost_nonneg txid member := ledger.cost_nonneg txid (Finset.mem_filter.mp member).1
  few := (Finset.card_filter_le _ _).trans ledger.few

theorem Ledger.mem_remove {txid : Uint256} :
    txid ∈ (ledger.remove stage).txids ↔ txid ∈ ledger.txids ∧ txid ∉ stage := Finset.mem_filter

section

variable (consistent : Consistent entries ledger bytes_per_sigop)
  (closed : ∀ source target, ledger.parent source target → source ∈ stage → target ∈ stage)

include consistent closed

private theorem Consistent.above_closed
    {source target : Uint256} (above : ledger.above source target) (leaves : source ∈ stage) :
    target ∈ stage := by
  rw [consistent.above_iff] at above
  induction above with
  | single step => exact closed _ _ step leaves
  | tail _ step ih => exact closed _ _ step ih

theorem Consistent.descendantState_remove
    (txid : Uint256) : (ledger.remove stage).descendantState txid =
      (ledger.detached (· ∈ stage)).descendantState txid := by
  refine congrArg (_ + · - _) (tally_ext fun other => ?_)
  change _ ∧ TransGen (without ledger.parent (· ∈ stage)) txid other ↔
    other ∈ ledger.txids ∧ ledger.below txid other ∧ other ∉ stage
  rw [Ledger.mem_remove, transGen_without_successors closed, consistent.below]
  tauto

theorem EntryMatches.remove {txid : Uint256} (stays : txid ∉ stage) {entry : CTxMemPoolEntry}
    (matched : EntryMatches (ledger.detached (· ∈ stage)) txid entry) :
    EntryMatches (ledger.remove stage) txid entry where
  core := matched.core
  parents other := by
    refine (matched.parents other).trans ⟨?_, fun kept => kept.1⟩
    intro linked
    exact ⟨linked, fun leaves => stays (closed other txid linked leaves), stays⟩
  children other := by
    refine (matched.children other).trans ?_
    change ledger.child txid other ∧ _ ↔ _
    rw [consistent.child]
    exact ⟨fun kept => ⟨kept.1, stays, kept.2⟩, fun kept => ⟨kept.1, kept.2.2⟩⟩
  ancestors := by
    rw [matched.ancestors]
    refine congrArg (_ + · - _) (tally_ext fun other => ?_)
    change other ∈ ledger.txids ∧ ledger.above other txid ↔
      _ ∧ TransGen (without ledger.parent (· ∈ stage)) other txid
    rw [Ledger.mem_remove, transGen_without_successors closed, ← consistent.above_iff]
    have remains : ledger.above other txid → other ∉ stage :=
      fun above leaves => stays (consistent.above_closed closed above leaves)
    tauto
  descendants := by rw [matched.descendants, consistent.descendantState_remove closed]

theorem Consistent.remove
    {detached after : EntryMap} (represents : Represents detached (ledger.detached (· ∈ stage)))
    (lookups : ∀ txid, after.lookup txid = if txid ∈ stage then none else detached.lookup txid) :
    Consistent after (ledger.remove stage) bytes_per_sigop where
  represents :=
    { present := by
        intro txid
        rw [← AList.lookup_isSome, lookups, Ledger.mem_remove]
        have present := represents.present txid
        change txid ∈ detached ↔ txid ∈ ledger.txids at present
        split
        next leaves => exact iff_of_false Bool.false_ne_true fun both => both.2 leaves
        next stays => rw [AList.lookup_isSome, present, and_iff_left stays]
      entry := by
        intro txid entry found
        rw [lookups] at found
        split at found
        · cases found
        next stays => exact (represents.entry txid entry found).remove consistent closed stays }
  parent source target := by
    change ledger.parent source target ∧ source ∉ stage ∧ target ∉ stage ↔
      source ∈ (ledger.remove stage).txids ∧ target ∈ (ledger.remove stage).txids ∧
        Spends (ledger.core target).tx source
    rw [consistent.parent, Ledger.mem_remove, Ledger.mem_remove]
    tauto
  child := rfl
  above := rfl
  below := rfl
  ancestorLag := consistent.ancestorLag
  descendantLag := consistent.descendantLag
  acyclic := consistent.acyclic.without _
  sized txid member := consistent.sized txid (Ledger.mem_remove.mp member).1

end

end Removal

private theorem meets_removeUnchecked (pool : CTxMemPool) (present : it ∈ pool.mapTx) :
    Meets (removeUnchecked it) pool PoolHalt.OutOfRange fun _ after =>
      after.mapTx = pool.mapTx.erase it ∧
        after.rollingMinimumFeeRate = pool.rollingMinimumFeeRate := by
  obtain ⟨entry, found⟩ := Option.isSome_iff_exists.mp (AList.lookup_isSome.mpr present)
  unfold Meets removeUnchecked
  rw [found]
  dsimp only
  cases outcome : narrow 64 (pool.m_total_fee - entry.nFee) with
  | error halt => exact (narrow_yields _ _).halt outcome
  | ok total => exact ⟨rfl, rfl⟩

theorem meets_removeEach (pool : CTxMemPool) {stage : List Uint256} (nodup : stage.Nodup)
    (present : ∀ it ∈ stage, it ∈ pool.mapTx) :
    Meets (forEach removeUnchecked stage) pool PoolHalt.OutOfRange fun _ after =>
      (∀ txid, after.mapTx.lookup txid = if txid ∈ stage then none else pool.mapTx.lookup txid) ∧
        after.rollingMinimumFeeRate = pool.rollingMinimumFeeRate := by
  classical
  refine (meets_forEach_nodup (fun done after =>
    (∀ txid, after.mapTx.lookup txid = if done txid then none else pool.mapTx.lookup txid) ∧
      after.rollingMinimumFeeRate = pool.rollingMinimumFeeRate) nodup ?_ ?_).weaken ?_
  · intro done it now listed fresh sofar
    have stillPresent : it ∈ now.mapTx := by
      rw [← AList.lookup_isSome, sofar.1, if_neg fresh, AList.lookup_isSome]
      exact present it listed
    refine (meets_removeUnchecked now stillPresent).weaken ?_
    intro _ after removed
    constructor
    · intro txid
      rw [removed.1]
      by_cases same : txid = it
      · rw [same, AList.lookup_erase, if_pos (.inr rfl)]
      · rw [AList.lookup_erase_ne same, sofar.1]
        by_cases before : done txid
        · rw [if_pos before, if_pos (.inl before)]
        · rw [if_neg before, if_neg (not_or.mpr ⟨before, same⟩)]
    · rw [removed.2, sofar.2]
  · exact ⟨fun txid => (if_neg id).symm, rfl⟩
  · intro _ after removed
    refine ⟨?_, removed.2⟩
    intro txid
    rw [removed.1]
    congr

theorem meets_removeStaged {pool : CTxMemPool} {bytes_per_sigop : Nat}
    (consistent : Consistent pool.mapTx ledger bytes_per_sigop)
    (inside : ∀ it, it ∈ stage → it ∈ ledger.txids)
    (closed : ∀ source target, ledger.parent source target → source ∈ stage → target ∈ stage) :
    Meets (removeStaged stage false) pool PoolHalt.OutOfRange fun _ after =>
      Consistent after.mapTx (ledger.remove stage) bytes_per_sigop ∧
        after.rollingMinimumFeeRate = pool.rollingMinimumFeeRate := by
  refine .bind ?_
  have updates := meets_updateForRemoveFromMempool consistent inside closed
  unfold Meets onEntries
  cases runs : updateForRemoveFromMempool stage false pool.mapTx with
  | error halt => exact updates.halt runs
  | ok result =>
    have represents := updates.result runs
    refine (meets_removeEach { pool with mapTx := result.2 } stage.nodup ?_).weaken ?_
    · intro it listed
      exact (represents.present it).mpr (inside it listed)
    · intro _ after removed
      exact ⟨consistent.remove closed represents removed.1, removed.2⟩

end Adonai.Mempool
