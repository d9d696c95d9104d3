/-
What a selection keeps.

Every round either leaves the block alone or adds one package. The totals in `mapModifiedTx` may
count ancestors that are in the block already: an entry that failed is erased, and when a later
package puts it back it starts from the aggregates of the mempool again.
-/

import Adonai.Mining.Packages

namespace Adonai.Mining

open Mempool Digraph Relation
open Consensus (WITNESS_SCALE_FACTOR MAX_BLOCK_SIGOPS_COST)
open List (append_nil mem_append mem_append_left mem_append_right mem_cons mem_cons_self suffix_cons
  suffix_rfl)
open AList (lookup_isSome mem_erase mem_keys)

variable {entries : EntryMap} {ledger : Ledger} {bytes_per_sigop : Nat} {options : Mining.Options}

def sumOver (amount : Core → Int) (ledger : Ledger) (txids : List Uint256) : Int :=
  (txids.map fun txid => amount (ledger.core txid)).sum

def weightOf (core : Core) : Int := core.tx.getTransactionWeight

private theorem sumOver_append (amount : Core → Int) (first second : List Uint256) :
    sumOver amount ledger (first ++ second) =
      sumOver amount ledger first + sumOver amount ledger second := by
  rw [sumOver, List.map_append, List.sum_append]
  rfl

structure Added (ledger : Ledger) (items : List Uint256) (before after : Assembly) : Prop where
  inBlock : after.inBlock = before.inBlock ++ items
  vtx : after.vtx = before.vtx ++ items.map fun txid => (ledger.core txid).tx
  nBlockWeight : after.nBlockWeight = before.nBlockWeight + sumOver weightOf ledger items
  nBlockSigOpsCost :
    after.nBlockSigOpsCost = before.nBlockSigOpsCost + sumOver Core.sigOpCost ledger items
  nFees : after.nFees = before.nFees + sumOver Core.nFee ledger items
  failedTx : after.failedTx = before.failedTx
  mi : after.mi = before.mi
  erased : ∀ txid ∈ items, txid ∉ after.mapModifiedTx
  modified : ∀ txid, txid ∉ items →
    after.mapModifiedTx.lookup txid = before.mapModifiedTx.lookup txid

variable {items : List Uint256}

theorem addEntries_yields (represents : Represents entries ledger)
    (inside : ∀ txid ∈ items, txid ∈ ledger.txids) (before : Assembly) :
    Yields (addEntries entries items before) PoolHalt.OutOfRange (Added ledger items before) := by
  induction items generalizing before with
  | nil =>
    exact
      { inBlock := (append_nil _).symm
        vtx := (append_nil _).symm
        nBlockWeight := (Int.add_zero _).symm
        nBlockSigOpsCost := (Int.add_zero _).symm
        nFees := (Int.add_zero _).symm
        failedTx := rfl
        mi := rfl
        erased := nofun
        modified := fun _ _ => rfl }
  | cons txid rest ih =>
    rw [List.forall_mem_cons] at inside
    refine .bind ((followEntry_yields represents inside.1).weaken ?_)
    intro entry matched
    refine (ih inside.2 _).weaken fun after added => ?_
    have tx : entry.tx = (ledger.core txid).tx := congrArg Core.tx matched.core
    have hash : entry.tx.hash = txid := by rw [tx, ledger.hash_core txid inside.1]
    refine ⟨?_, ?_, ?_, ?_, ?_, added.failedTx, added.mi, ?_, ?_⟩
    · rw [added.inBlock]
      change (before.inBlock ++ [entry.tx.hash]) ++ rest = _
      rw [hash, List.append_assoc]
      rfl
    · rw [added.vtx]
      change (before.vtx ++ [entry.tx]) ++ _ = _
      rw [tx, List.append_assoc]
      rfl
    · rw [added.nBlockWeight]
      change before.nBlockWeight + weightOf entry.core + _ = _
      rw [matched.core, Int.add_assoc]
      rfl
    · rw [added.nBlockSigOpsCost]
      change before.nBlockSigOpsCost + entry.core.sigOpCost + _ = _
      rw [matched.core, Int.add_assoc]
      rfl
    · rw [added.nFees]
      change before.nFees + entry.core.nFee + _ = _
      rw [matched.core, Int.add_assoc]
      rfl
    · intro other listed
      by_cases inRest : other ∈ rest
      · exact added.erased other inRest
      · rw [← lookup_isSome, added.modified other inRest]
        rcases mem_cons.mp listed with rfl | again
        · rw [AList.lookup_erase]
          exact nofun
        · exact absurd again inRest
    · intro other outside
      rw [mem_cons, not_or] at outside
      rw [added.modified other outside.2]
      exact AList.lookup_erase_ne outside.1

variable {ancestor txid : Uint256}

theorem count_lt_of_above (consistent : Consistent entries ledger bytes_per_sigop)
    (above : ledger.above ancestor txid) :
    countWithAncestors entries ancestor < countWithAncestors entries txid := by
  have inside := consistent.above_inside above
  have count (other : Uint256) (member : other ∈ ledger.txids) :
      countWithAncestors entries other =
        1 + tally ledger.txids (fun _ => (1 : Int)) (ledger.above · other) := by
    obtain ⟨entry, found, matched⟩ := consistent.represents.found member
    have state : entry.m_count_with_ancestors = (ledger.ancestorState other).1 :=
      congrArg Prod.fst matched.ancestors
    rw [countWithAncestors, found, Option.elim_some, state]
    exact (sub_zero _).trans
      (congrArg (1 + ·) (map_tally (AddMonoidHom.fst Int (Int × Int × Int))))
  rw [count ancestor inside.1, count txid inside.2, add_lt_add_iff_left, ← sub_pos,
    ← tally_diff fun other _ higher => consistent.above_trans higher above]
  exact tally_pos (fun _ _ => Int.one_nonneg) inside.1
    ⟨above, consistent.above_irrefl ancestor⟩ Int.one_pos

instance (entries : EntryMap) : Std.Total (ancestorCountLe entries) where
  total a b := by
    unfold ancestorCountLe
    omega

instance (entries : EntryMap) : IsTrans Uint256 (ancestorCountLe entries) where
  trans a b c := by
    unfold ancestorCountLe
    omega

variable {package : SetEntries}

theorem mem_sortForBlock : txid ∈ sortForBlock entries package ↔ txid ∈ package := by
  unfold sortForBlock
  rw [List.mem_insertionSort]
  exact OrderedSet.mem_elems

theorem sortForBlock_nodup (package : SetEntries) : (sortForBlock entries package).Nodup := by
  exact (List.perm_insertionSort _ _).nodup_iff.mpr package.nodup

theorem sortForBlock_ordered (consistent : Consistent entries ledger bytes_per_sigop)
    {earlier later : List Uint256}
    (position : sortForBlock entries package = earlier ++ txid :: later)
    (above : ledger.above ancestor txid) (member : ancestor ∈ package) : ancestor ∈ earlier := by
  have sorted : (sortForBlock entries package).Pairwise (ancestorCountLe entries) :=
    List.pairwise_insertionSort _ _
  have fewer := count_lt_of_above consistent above
  have listed : ancestor ∈ sortForBlock entries package := mem_sortForBlock.mpr member
  rw [position, mem_append, mem_cons] at listed
  rw [position, List.pairwise_append, List.pairwise_cons] at sorted
  rcases listed with before | same | after
  · exact before
  · rw [same] at fewer
    omega
  · have larger := sorted.2.1.1 ancestor after
    unfold ancestorCountLe at larger
    omega

/-- The transactions of the block are distinct mempool transactions, each after its
ancestors; the totals are their sums; and a block that starts below its limits, or to which
anything was added, is below them. -/
structure Template (options : Mining.Options) (ledger : Ledger) (assembly : Assembly) : Prop where
  distinct : assembly.inBlock.Nodup
  inside : ∀ txid ∈ assembly.inBlock, txid ∈ ledger.txids
  vtx : assembly.vtx = assembly.inBlock.map fun txid => (ledger.core txid).tx
  ordered : ∀ earlier txid later, assembly.inBlock = earlier ++ txid :: later →
    ∀ ancestor, ledger.above ancestor txid → ancestor ∈ earlier
  nBlockWeight : assembly.nBlockWeight =
    options.block_reserved_weight + sumOver weightOf ledger assembly.inBlock
  nBlockSigOpsCost : assembly.nBlockSigOpsCost =
    options.coinbase_output_max_additional_sigops + sumOver Core.sigOpCost ledger assembly.inBlock
  nFees : assembly.nFees = sumOver Core.nFee ledger assembly.inBlock
  weightBelow : options.block_reserved_weight < options.nBlockMaxWeight ∨ assembly.inBlock ≠ [] →
    assembly.nBlockWeight < options.nBlockMaxWeight
  sigOpsBelow :
    options.coinbase_output_max_additional_sigops < MAX_BLOCK_SIGOPS_COST ∨
      assembly.inBlock ≠ [] → assembly.nBlockSigOpsCost < MAX_BLOCK_SIGOPS_COST

/-- Every modified entry counts its transaction and the ancestors not in the block. -/
def Exact (ledger : Ledger) (assembly : Assembly) : Prop :=
  ∀ txid e, assembly.mapModifiedTx.lookup txid = some e →
    e.totals = remaining ledger (· ∈ assembly.inBlock) txid

def Affected (ledger : Ledger) (inBlock : List Uint256) (txid : Uint256) : Prop :=
  txid ∉ inBlock ∧ ∃ ancestor ∈ inBlock, ledger.above ancestor txid

/-- What every reachable assembly satisfies. The totals of a modified entry leave out some
ancestors that are in the block, though not always all of them. -/
structure Holds (options : Mining.Options) (ledger : Ledger) (assembly : Assembly) : Prop where
  template : Template options ledger assembly
  modified : ∀ txid ∈ assembly.mapModifiedTx, Affected ledger assembly.inBlock txid
  totals : ∀ txid e, assembly.mapModifiedTx.lookup txid = some e →
    ∃ gone : Uint256 → Prop, (∀ other, gone other → other ∈ assembly.inBlock) ∧
      e.totals = remaining ledger gone txid
  covered : ∀ txid, Affected ledger assembly.inBlock txid →
    txid ∈ assembly.mapModifiedTx ∨ txid ∈ assembly.failedTx
  failed : ∀ txid ∈ assembly.failedTx, txid ∉ assembly.inBlock →
    ∃ ancestor ∈ assembly.inBlock, ledger.above ancestor txid
  index : ∀ txid ∈ assembly.mi, txid ∈ ledger.txids
  indexLength : assembly.mi.length ≤ ledger.txids.card

theorem Template.closed {assembly : Assembly} (template : Template options ledger assembly)
    (member : txid ∈ assembly.inBlock) (above : ledger.above ancestor txid) :
    ancestor ∈ assembly.inBlock := by
  obtain ⟨earlier, later, position⟩ := List.append_of_mem member
  rw [position]
  exact mem_append_left _ (template.ordered earlier txid later position ancestor above)

/-- The index entries and modified entries left, and the rounds each transaction outside the
block may still cause. -/
def workLeft (ledger : Ledger) (assembly : Assembly) : Nat :=
  (ledger.txids.card - assembly.inBlock.length) * (2 * ledger.txids.card + 2) +
    assembly.mi.length + assembly.mapModifiedTx.keys.length

theorem holds_start (consistent : Consistent entries ledger bytes_per_sigop) :
    Holds options ledger (.start options entries) := by
  have sorted : (ancestorScoreIndex options.feeModel entries).Perm entries.keys :=
    List.perm_insertionSort _ _
  exact
    { template :=
        { distinct := List.nodup_nil
          inside := nofun
          vtx := rfl
          ordered := fun earlier _ _ position => by
            cases earlier with
            | nil => cases position
            | cons _ _ => cases position
          nBlockWeight := (Int.add_zero _).symm
          nBlockSigOpsCost := (Int.add_zero _).symm
          nFees := rfl
          weightBelow := fun below => Int.ofNat_lt.mpr (below.resolve_right (not_not.mpr rfl))
          sigOpsBelow := fun below => below.resolve_right (not_not.mpr rfl) }
      modified := fun txid member => absurd member (AList.notMem_empty txid)
      totals := fun txid e found => by
        cases found
      covered := fun _ affected => by
        obtain ⟨_, _, impossible, _⟩ := affected
        cases impossible
      failed := nofun
      index := fun txid listed =>
        (consistent.represents.present txid).mp (mem_keys.mpr (sorted.mem_iff.mp listed))
      indexLength := by
        rw [← consistent.represents.keys_length]
        exact sorted.length_eq.le }

structure SameBlock (before after : Assembly) : Prop where
  inBlock : after.inBlock = before.inBlock
  vtx : after.vtx = before.vtx
  nBlockWeight : after.nBlockWeight = before.nBlockWeight
  nBlockSigOpsCost : after.nBlockSigOpsCost = before.nBlockSigOpsCost
  nFees : after.nFees = before.nFees

/-- A package went into the block: a transaction with its ancestors outside the block. -/
structure PackageAdded (options : Mining.Options) (ledger : Ledger) (before after : Assembly)
    (iter : Uint256) (items : List Uint256) : Prop where
  member : iter ∈ ledger.txids
  fresh : iter ∉ before.inBlock
  nodup : items.Nodup
  listed : ∀ txid, txid ∈ items ↔ txid = iter ∨ ledger.above txid iter ∧ txid ∉ before.inBlock
  ordered : ∀ earlier txid later, items = earlier ++ txid :: later →
    ∀ ancestor ∈ items, ledger.above ancestor txid → ancestor ∈ earlier
  weightFits : before.nBlockWeight + WITNESS_SCALE_FACTOR *
    (remaining ledger (· ∈ before.inBlock) iter).1 < options.nBlockMaxWeight
  sigOpsFit : before.nBlockSigOpsCost +
    (remaining ledger (· ∈ before.inBlock) iter).2.2 < MAX_BLOCK_SIGOPS_COST
  inBlock : after.inBlock = before.inBlock ++ items
  vtx : after.vtx = before.vtx ++ items.map fun txid => (ledger.core txid).tx
  nBlockWeight : after.nBlockWeight = before.nBlockWeight + sumOver weightOf ledger items
  nBlockSigOpsCost :
    after.nBlockSigOpsCost = before.nBlockSigOpsCost + sumOver Core.sigOpCost ledger items
  nFees : after.nFees = before.nFees + sumOver Core.nFee ledger items
  failedTx : after.failedTx = before.failedTx
  mi : after.mi <:+ before.mi
  keys : ∀ txid, txid ∈ after.mapModifiedTx ↔ txid ∉ items ∧
    (txid ∈ before.mapModifiedTx ∨ ∃ parent ∈ items, ledger.above parent txid)
  totals : ∀ txid (gone : Uint256 → Prop),
    (∀ e, before.mapModifiedTx.lookup txid = some e → e.totals = remaining ledger gone txid) →
    (txid ∉ before.mapModifiedTx → ∀ other, ¬ gone other) →
    (∀ other ∈ items, ¬ gone other) →
    ∀ e, after.mapModifiedTx.lookup txid = some e →
      e.totals = remaining ledger (fun other => gone other ∨ other ∈ items) txid

inductive Effect (options : Mining.Options) (ledger : Ledger) (before after : Assembly) : Prop
  | kept (same : SameBlock before after)
      (modified : after.mapModifiedTx = before.mapModifiedTx)
      (failedTx : after.failedTx = before.failedTx) (mi : after.mi <:+ before.mi)
  | dropped (txid : Uint256) (member : txid ∈ before.mapModifiedTx)
      (same : SameBlock before after)
      (modified : after.mapModifiedTx = before.mapModifiedTx.erase txid)
      (failedTx : after.failedTx = txid :: before.failedTx) (mi : after.mi = before.mi)
  | added (iter : Uint256) (items : List Uint256)
      (package : PackageAdded options ledger before after iter items)

/-! ### Every round keeps the invariant -/

variable {before after : Assembly}

theorem Template.same (template : Template options ledger before) (same : SameBlock before after) :
    Template options ledger after where
  distinct := same.inBlock ▸ template.distinct
  inside := same.inBlock ▸ template.inside
  vtx := by rw [same.vtx, same.inBlock, template.vtx]
  ordered := same.inBlock ▸ template.ordered
  nBlockWeight := by rw [same.nBlockWeight, same.inBlock, template.nBlockWeight]
  nBlockSigOpsCost := by rw [same.nBlockSigOpsCost, same.inBlock, template.nBlockSigOpsCost]
  nFees := by rw [same.nFees, same.inBlock, template.nFees]
  weightBelow := by
    rw [same.nBlockWeight, same.inBlock]
    exact template.weightBelow
  sigOpsBelow := by
    rw [same.nBlockSigOpsCost, same.inBlock]
    exact template.sigOpsBelow

namespace PackageAdded

variable {before after : Assembly} {iter : Uint256} {items : List Uint256}

theorem not_inBlock (package : PackageAdded options ledger before after iter items)
    (member : txid ∈ items) : txid ∉ before.inBlock := by
  rcases (package.listed txid).mp member with same | ⟨_, outside⟩
  · exact same ▸ package.fresh
  · exact outside

section

variable (consistent : Consistent entries ledger bytes_per_sigop)
  (adds : PackageAdded options ledger before after iter items)

include consistent adds

theorem inside (member : txid ∈ items) : txid ∈ ledger.txids := by
  rcases (adds.listed txid).mp member with same | ⟨above, _⟩
  · exact same ▸ adds.member
  · exact (consistent.above_inside above).1

theorem closed (member : txid ∈ items)
    (above : ledger.above ancestor txid) (outside : ancestor ∉ before.inBlock) :
    ancestor ∈ items := by
  refine (adds.listed ancestor).mpr (.inr ⟨?_, outside⟩)
  rcases (adds.listed txid).mp member with same | ⟨higher, _⟩
  · exact same ▸ above
  · exact consistent.above_trans above higher

theorem sumOver_items (amount : Core → Int) :
    sumOver amount ledger items = amount (ledger.core iter) +
      tally ledger.txids (fun other => amount (ledger.core other))
        fun other => ledger.above other iter ∧ other ∉ before.inBlock := by
  refine (tally_list adds.nodup fun _ => adds.inside consistent).symm.trans ?_
  rw [tally_congr fun other _ => adds.listed other, tally_or, tally_single adds.member]
  intro other _ same both
  rw [same] at both
  exact consistent.above_irrefl iter both.1

theorem weight_le : sumOver weightOf ledger items ≤
      WITNESS_SCALE_FACTOR * (remaining ledger (· ∈ before.inBlock) iter).1 := by
  have each : ∀ txid ∈ items, weightOf (ledger.core txid) ≤ 4 * (ledger.core txid).nTxSize := by
    intro txid member
    rw [consistent.sized txid (adds.inside consistent member), weightOf]
    unfold getVirtualTransactionSize WITNESS_SCALE_FACTOR
    omega
  have size := adds.sumOver_items consistent Core.nTxSize
  rw [← remaining_size] at size
  rw [← size]
  clear size adds
  induction items with
  | nil => exact le_rfl
  | cons txid rest ih =>
    rw [List.forall_mem_cons] at each
    have later := ih each.2
    change weightOf (ledger.core txid) + sumOver weightOf ledger rest ≤
      4 * ((ledger.core txid).nTxSize + sumOver Core.nTxSize ledger rest)
    change _ ≤ 4 * sumOver Core.nTxSize ledger rest at later
    omega

theorem template (template : Template options ledger before) : Template options ledger after where
  distinct := by
    rw [adds.inBlock, List.nodup_append]
    refine ⟨template.distinct, adds.nodup, fun txid listed other member same => ?_⟩
    exact adds.not_inBlock member (same ▸ listed)
  inside txid listed := by
    rw [adds.inBlock, mem_append] at listed
    rcases listed with old | new
    · exact template.inside txid old
    · exact adds.inside consistent new
  vtx := by rw [adds.vtx, adds.inBlock, template.vtx, List.map_append]
  ordered earlier txid later position ancestor above := by
    rw [adds.inBlock] at position
    rcases List.append_eq_append_iff.mp position with ⟨middle, split, rest⟩ | ⟨middle, split, rest⟩
    · -- the transaction is one of the adds
      rw [split, mem_append]
      have member : txid ∈ items := by
        rw [rest]
        exact mem_append_right _ mem_cons_self
      by_cases old : ancestor ∈ before.inBlock
      · exact .inl old
      · exact .inr (adds.ordered middle txid later rest ancestor
          (adds.closed consistent member above old) above)
    · cases middle with
      | nil =>
        rw [append_nil] at split
        rw [List.nil_append] at rest
        have member : txid ∈ items := rest ▸ mem_cons_self
        by_cases old : ancestor ∈ before.inBlock
        · exact split ▸ old
        · have first := adds.ordered [] txid later rest.symm ancestor
            (adds.closed consistent member above old) above
          cases first
      | cons first middle =>
        obtain ⟨rfl, _⟩ := rest
        exact template.ordered earlier txid middle split ancestor above
  nBlockWeight := by
    rw [adds.nBlockWeight, adds.inBlock, template.nBlockWeight, sumOver_append, Int.add_assoc]
  nBlockSigOpsCost := by
    rw [adds.nBlockSigOpsCost, adds.inBlock, template.nBlockSigOpsCost, sumOver_append,
      Int.add_assoc]
  nFees := by rw [adds.nFees, adds.inBlock, template.nFees, sumOver_append]
  weightBelow _ := by
    have fits := adds.weightFits
    have sum := adds.weight_le consistent
    rw [adds.nBlockWeight]
    omega
  sigOpsBelow _ := by
    have fits := adds.sigOpsFit
    have sum := adds.sumOver_items consistent Core.sigOpCost
    rw [← remaining_sigops] at sum
    rw [adds.nBlockSigOpsCost, sum]
    exact fits

theorem holds (earlier : Holds options ledger before) : Holds options ledger after where
  template := adds.template consistent earlier.template
  modified txid member := by
    rw [adds.keys] at member
    obtain ⟨outside, found⟩ := member
    rw [Affected, adds.inBlock, mem_append, not_or]
    rcases found with old | ⟨parent, added, above⟩
    · obtain ⟨notIn, ancestor, inBlock, above⟩ := earlier.modified txid old
      exact ⟨⟨notIn, outside⟩, ancestor, mem_append_left _ inBlock, above⟩
    · refine ⟨⟨fun inBlock => ?_, outside⟩, parent, mem_append_right _ added, above⟩
      exact adds.not_inBlock added (earlier.template.closed inBlock above)
  totals txid e found := by
    by_cases old : txid ∈ before.mapModifiedTx
    · obtain ⟨stored, isStored⟩ := Option.isSome_iff_exists.mp (lookup_isSome.mpr old)
      obtain ⟨gone, within, totals⟩ := earlier.totals txid stored isStored
      refine ⟨fun other => gone other ∨ other ∈ items, ?_, adds.totals txid gone ?_ ?_ ?_ e found⟩
      · rw [adds.inBlock]
        rintro other (out | added)
        · exact mem_append_left _ (within other out)
        · exact mem_append_right _ added
      · intro other same
        rw [isStored] at same
        cases same
        exact totals
      · exact fun absent => absurd old absent
      · exact fun other added out => adds.not_inBlock added (within other out)
    · refine ⟨fun other => False ∨ other ∈ items, ?_,
        adds.totals txid (fun _ => False) ?_ (fun _ _ => id) (fun _ _ => id) e found⟩
      · rw [adds.inBlock]
        exact fun other added => mem_append_right _ (added.resolve_left id)
      · intro other same
        exact absurd (lookup_isSome.mp (same ▸ rfl)) old
  covered txid affected := by
    obtain ⟨outside, ancestor, listed, above⟩ := affected
    rw [adds.inBlock, mem_append] at listed outside
    rw [not_or] at outside
    rw [adds.keys, adds.failedTx]
    rcases listed with old | added
    · rcases earlier.covered txid ⟨outside.1, ancestor, old, above⟩ with modified | failed
      · exact .inl ⟨outside.2, .inl modified⟩
      · exact .inr failed
    · exact .inl ⟨outside.2, .inr ⟨ancestor, added, above⟩⟩
  failed txid failed outside := by
    rw [adds.failedTx] at failed
    rw [adds.inBlock] at outside ⊢
    rw [mem_append, not_or] at outside
    obtain ⟨ancestor, old, above⟩ := earlier.failed txid failed outside.1
    exact ⟨ancestor, mem_append_left _ old, above⟩
  index txid listed := earlier.index txid (adds.mi.mem listed)
  indexLength := adds.mi.length_le.trans earlier.indexLength

end

end PackageAdded

theorem Holds.fewer (earlier : Holds options ledger before) (same : SameBlock before after)
    (modified : ∀ txid e, after.mapModifiedTx.lookup txid = some e → before.mapModifiedTx.lookup
      txid = some e)
    (covered : ∀ txid, txid ∈ before.mapModifiedTx ∨ txid ∈ before.failedTx → txid ∈
      after.mapModifiedTx ∨ txid ∈ after.failedTx)
    (failed : ∀ txid ∈ after.failedTx, txid ∈ before.failedTx ∨ txid ∈ before.mapModifiedTx)
    (mi : after.mi <:+ before.mi) : Holds options ledger after where
  template := earlier.template.same same
  modified txid member := by
    obtain ⟨e, found⟩ := Option.isSome_iff_exists.mp (lookup_isSome.mpr member)
    rw [same.inBlock]
    exact earlier.modified txid (lookup_isSome.mp ((modified txid e found) ▸ rfl))
  totals txid e found := by
    rw [same.inBlock]
    exact earlier.totals txid e (modified txid e found)
  covered txid affected := covered txid (earlier.covered txid (same.inBlock ▸ affected))
  failed txid isFailed outside := by
    rw [same.inBlock] at outside ⊢
    rcases failed txid isFailed with old | new
    · exact earlier.failed txid old outside
    · exact (earlier.modified txid new).2
  index txid listed := earlier.index txid (mi.mem listed)
  indexLength := mi.length_le.trans earlier.indexLength

theorem lookup_erase_some {modified : ModifiedMap} {other : Uint256} {e : CTxMemPoolModifiedEntry}
    (found : (modified.erase txid).lookup other = some e) : modified.lookup other = some e := by
  by_cases same : other = txid
  · rw [same, AList.lookup_erase] at found
    cases found
  · rw [AList.lookup_erase_ne same] at found
    exact found

theorem Holds.effect (consistent : Consistent entries ledger bytes_per_sigop)
    (earlier : Holds options ledger before) (effect : Effect options ledger before after) :
    Holds options ledger after := by
  cases effect with
  | kept same modified failedTx mi =>
    refine earlier.fewer same ?_ ?_ ?_ mi
    · rw [modified]
      exact fun _ _ => id
    · rw [modified, failedTx]
      exact fun _ => id
    · rw [failedTx]
      exact fun _ => Or.inl
  | dropped txid member same modified failedTx mi =>
    refine earlier.fewer same ?_ ?_ ?_ (mi ▸ suffix_rfl)
    · rw [modified]
      exact fun _ _ => lookup_erase_some
    · rw [modified, failedTx]
      rintro other (old | failed)
      · by_cases chosen : other = txid
        · exact .inr (chosen ▸ mem_cons_self)
        · exact .inl (mem_erase.mpr ⟨chosen, old⟩)
      · exact .inr (List.mem_cons_of_mem _ failed)
    · rw [failedTx]
      intro other listed
      rcases mem_cons.mp listed with rfl | old
      · exact .inr member
      · exact .inl old
  | added iter items package => exact package.holds consistent earlier

/-- The round puts an entry back into `mapModifiedTx` that failed and was erased from it. -/
def Readmits (before after : Assembly) : Prop :=
  ∃ txid ∈ before.failedTx, txid ∉ before.mapModifiedTx ∧ txid ∈ after.mapModifiedTx

private theorem Exact.fewer (exact' : Exact ledger before) (same : SameBlock before after)
    (modified : ∀ txid e, after.mapModifiedTx.lookup txid = some e → before.mapModifiedTx.lookup
      txid = some e) : Exact ledger after := by
  intro txid e found
  rw [same.inBlock]
  exact exact' txid e (modified txid e found)

theorem Exact.effect (holds : Holds options ledger before)
    (effect : Effect options ledger before after) (fresh : ¬ Readmits before after)
    (earlier : Exact ledger before) : Exact ledger after := by
  cases effect with
  | kept same modified failedTx mi =>
    exact earlier.fewer same fun _ _ found => modified ▸ found
  | dropped txid member same modified failedTx mi =>
    refine earlier.fewer same fun _ _ found => ?_
    rw [modified] at found
    exact lookup_erase_some found
  | added iter items package => ?_
  intro txid e found
  rw [package.inBlock]
  by_cases old : txid ∈ before.mapModifiedTx
  · have totals := package.totals txid (· ∈ before.inBlock) (fun e => earlier txid e)
      (fun absent => absurd old absent) (fun other added => package.not_inBlock added) e found
    rw [totals]
    exact remaining_congr fun other _ => mem_append.symm
  have totals := package.totals txid (fun _ => False)
    (fun e same => absurd (lookup_isSome.mp (same ▸ rfl)) old) (fun _ _ => id)
    (fun _ _ => id) e found
  rw [totals]
  refine remaining_congr fun other above => ?_
  rw [false_or, mem_append]
  refine (or_iff_right fun inBlock => ?_).symm
  -- with an ancestor in the block the entry would have been modified, or failed before
  have present : txid ∈ after.mapModifiedTx := lookup_isSome.mp (found ▸ rfl)
  have outside : txid ∉ before.inBlock := fun member => by
    obtain ⟨_, found⟩ := (package.keys txid).mp present
    obtain ⟨parent, added, higher⟩ := found.resolve_left old
    exact package.not_inBlock added (holds.template.closed member higher)
  have failed := (holds.covered txid ⟨outside, other, inBlock, above⟩).resolve_left old
  exact fresh ⟨txid, failed, old, present⟩

theorem Readmits.not_exact (consistent : Consistent entries ledger bytes_per_sigop)
    (holds : Holds options ledger before) (effect : Effect options ledger before after)
    (readmits : Readmits before after) : ¬ Exact ledger after := by
  obtain ⟨txid, failed, absent, present⟩ := readmits
  have later := holds.effect consistent effect
  cases effect with
  | kept same modified failedTx mi => exact absurd (modified ▸ present) absent
  | dropped other member same modified failedTx mi =>
    rw [modified, mem_erase] at present
    exact absurd present.2 absent
  | added iter items package => ?_
  intro isExact
  obtain ⟨e, found⟩ := Option.isSome_iff_exists.mp (lookup_isSome.mpr present)
  have totals := package.totals txid (fun _ => False)
    (fun e same => absurd (lookup_isSome.mp (same ▸ rfl)) absent) (fun _ _ => id)
    (fun _ _ => id) e found
  have outside := (later.modified txid present).1
  rw [package.inBlock, mem_append, not_or] at outside
  obtain ⟨ancestor, inBlock, above⟩ := holds.failed txid failed outside.1
  have less : (remaining ledger (· ∈ after.inBlock) txid).1 <
      (remaining ledger (fun other => False ∨ other ∈ items) txid).1 := by
    rw [package.inBlock]
    refine remaining_size_lt (consistent.above_inside above).1 above
      (mem_append_left _ inBlock) ?_ ?_
    · exact fun again => package.not_inBlock (again.resolve_left id) inBlock
    · exact fun other added => mem_append_right _ (added.resolve_left id)
  rw [← totals, isExact txid e found] at less
  exact lt_irrefl _ less

/-! ### Every round has one of the effects -/

theorem mem_onlyUnconfirmed {inBlock : List Uint256} {testSet : SetEntries} :
    txid ∈ onlyUnconfirmed inBlock testSet ↔ txid ∈ testSet ∧ txid ∉ inBlock := by
  unfold onlyUnconfirmed
  induction inBlock generalizing testSet with
  | nil => simp only [List.foldl_nil, List.not_mem_nil, not_false_eq_true, and_true]
  | cons first rest ih =>
    rw [List.foldl_cons, ih, OrderedSet.mem_erase, mem_cons]
    tauto

theorem testPackageTransactions_yields (represents : Represents entries ledger)
    (inside : ∀ txid ∈ items, txid ∈ ledger.txids) :
    Yields (testPackageTransactions options entries items) PoolHalt.OutOfRange fun _ => True := by
  induction items with
  | nil => trivial
  | cons txid rest ih =>
    rw [List.forall_mem_cons] at inside
    refine .bind ((followEntry_yields represents inside.1).weaken ?_)
    intro entry _
    split
    · exact ih inside.2
    · trivial

def Untouched (ledger : Ledger) (assembly : Assembly) (txid : Uint256) : Prop :=
  ∀ ancestor, ledger.above ancestor txid → ancestor ∉ assembly.inBlock

theorem Untouched.remaining_eq {assembly : Assembly} (untouched : Untouched ledger assembly txid) :
    remaining ledger (· ∈ assembly.inBlock) txid = remaining ledger (fun _ => False) txid :=
  remaining_congr fun other above => iff_of_false (untouched other above) id

theorem Holds.untouched (holds : Holds options ledger before)
    (current : isStale before txid = false) : Untouched ledger before txid := by
  unfold isStale at current
  simp only [Bool.or_eq_false_iff, decide_eq_false_iff_not] at current
  intro ancestor above member
  rcases holds.covered txid ⟨current.1.2, ancestor, member, above⟩ with modified | failed
  · exact current.1.1 modified
  · exact current.2 failed

structure Chosen (ledger : Ledger) (before : Assembly) (candidate : Candidate)
    (after : Assembly) : Prop where
  member : candidate.iter ∈ ledger.txids
  outside : candidate.iter ∉ before.inBlock
  totals : ∃ gone : Uint256 → Prop, (∀ other, gone other → other ∈ before.inBlock) ∧
    (candidate.packageSize, candidate.packageFees, candidate.packageSigOpsCost) =
      remaining ledger gone candidate.iter
  exact : Exact ledger before →
    (candidate.packageSize, candidate.packageFees, candidate.packageSigOpsCost) =
      remaining ledger (· ∈ before.inBlock) candidate.iter
  fromIndex : candidate.fUsingModified = false →
    ∃ rest, before.mi = candidate.iter :: rest ∧ after = { before with mi := rest }
  fromModified : candidate.fUsingModified = true →
    candidate.iter ∈ before.mapModifiedTx ∧ after = before

section

variable (consistent : Consistent entries ledger bytes_per_sigop)

include consistent

section

variable (holds : Holds options ledger before)

include holds

theorem chosen_modified {e : CTxMemPoolModifiedEntry}
    (found : before.mapModifiedTx.lookup txid = some e) :
    Chosen ledger before (.ofModified txid e) before := by
  have present : txid ∈ before.mapModifiedTx := lookup_isSome.mp (found ▸ rfl)
  obtain ⟨outside, ancestor, _, above⟩ := holds.modified txid present
  exact
    { member := (consistent.above_inside above).2
      outside := outside
      totals := holds.totals txid e found
      exact := fun exact => exact txid e found
      fromIndex := nofun
      fromModified := fun _ => ⟨present, rfl⟩ }

theorem chosen_index {it : Uint256} {rest : List Uint256} (first : before.mi = it :: rest)
    (current : isStale before it = false) {entry : CTxMemPoolEntry}
    (matched : EntryMatches ledger it entry) :
    Chosen ledger before (.ofEntry it entry) { before with mi := rest } := by
  have untouched : Untouched ledger before it := holds.untouched current
  have totals := totals_ofEntry consistent matched
  unfold isStale at current
  simp only [Bool.or_eq_false_iff, decide_eq_false_iff_not] at current
  exact
    { member := holds.index it (first ▸ mem_cons_self)
      outside := current.1.2
      totals := ⟨fun _ => False, fun _ => False.elim, totals⟩
      exact := fun _ => totals.trans untouched.remaining_eq.symm
      fromIndex := fun _ => ⟨rest, first, rfl⟩
      fromModified := nofun }

theorem choose_yields (current : ∀ it rest, before.mi = it :: rest → isStale before it = false) :
    Yields (choose options entries before) PoolHalt.OutOfRange fun choice =>
      ∀ candidate after, choice = some (candidate, after) →
        Chosen ledger before candidate after := by
  unfold choose
  dsimp only
  have isBest : ∀ txid e, ((bestModified options.feeModel entries before.mapModifiedTx).bind
      fun txid => (before.mapModifiedTx.lookup txid).map (txid, ·)) = some (txid, e) →
      before.mapModifiedTx.lookup txid = some e := by
    intro txid e best
    obtain ⟨other, _, mapped⟩ := Option.bind_eq_some_iff.mp best
    obtain ⟨found, lookup, same⟩ := Option.map_eq_some_iff.mp mapped
    cases same
    exact lookup
  split
  · exact nofun
  next txid e _ best =>
    rintro _ _ ⟨⟩
    exact chosen_modified consistent holds (isBest txid e best)
  next it rest first _ =>
    have member := holds.index it (first ▸ mem_cons_self)
    refine .bind ((followEntry_yields consistent.represents member).weaken ?_)
    intro entry matched
    rintro _ _ ⟨⟩
    exact chosen_index consistent holds first (current it rest first) matched
  next it rest txid e first best =>
    have member := holds.index it (first ▸ mem_cons_self)
    refine .bind ((followEntry_yields consistent.represents member).weaken ?_)
    intro entry matched
    split
    · rintro _ _ ⟨⟩
      exact chosen_modified consistent holds (isBest txid e best)
    · rintro _ _ ⟨⟩
      exact chosen_index consistent holds first (current it rest first) matched

end

end

/-- A round has an effect, and one after which the loop goes on leaves less work. -/
def Advances (options : Mining.Options) (ledger : Ledger) (before : Assembly) : Progress → Prop
  | .continues after =>
    Effect options ledger before after ∧ workLeft ledger after < workLeft ledger before
  | .done after => Effect options ledger before after

variable {chosen : Assembly} {candidate : Candidate}

section

variable (choice : Chosen ledger before candidate chosen)

include choice

theorem Chosen.advances_dropped (nConsecutiveFailed : Nat) :
    Advances options ledger before (.continues
      { dropFailed candidate chosen with nConsecutiveFailed := nConsecutiveFailed }) := by
  cases modified : candidate.fUsingModified with
  | false =>
    obtain ⟨rest, first, rfl⟩ := choice.fromIndex modified
    rw [dropFailed, modified, if_neg Bool.false_ne_true]
    refine ⟨.kept ⟨rfl, rfl, rfl, rfl, rfl⟩ rfl rfl ?_, ?_⟩
    · rw [first]
      exact suffix_cons _ rest
    · unfold workLeft
      rw [first, List.length_cons]
      dsimp only
      omega
  | true =>
    obtain ⟨member, rfl⟩ := choice.fromModified modified
    rw [dropFailed, modified, if_pos rfl]
    refine ⟨.dropped candidate.iter member ⟨rfl, rfl, rfl, rfl, rfl⟩ rfl rfl rfl, ?_⟩
    have listed : candidate.iter ∈ chosen.mapModifiedTx.keys := mem_keys.mp member
    have shorter := List.length_erase_of_mem listed
    have positive := List.length_pos_of_mem listed
    unfold workLeft
    dsimp only
    rw [AList.keys_erase]
    omega

private theorem advances_rejectLarge :
    Advances options ledger before (rejectLarge options candidate chosen) := by
  unfold rejectLarge
  dsimp only
  split
  · exact (choice.advances_dropped _).1
  · exact choice.advances_dropped _

theorem Chosen.sameBlock : SameBlock before chosen ∧ chosen.mapModifiedTx = before.mapModifiedTx ∧
      chosen.failedTx = before.failedTx ∧ chosen.mi <:+ before.mi := by
  cases modified : candidate.fUsingModified with
  | false =>
    obtain ⟨rest, first, rfl⟩ := choice.fromIndex modified
    exact ⟨⟨rfl, rfl, rfl, rfl, rfl⟩, rfl, rfl, first ▸ suffix_cons _ rest⟩
  | true =>
    obtain ⟨_, rfl⟩ := choice.fromModified modified
    exact ⟨⟨rfl, rfl, rfl, rfl, rfl⟩, rfl, rfl, suffix_rfl⟩

theorem Chosen.fits
    (passes : testPackage options chosen candidate.packageSize candidate.packageSigOpsCost = true) :
    before.nBlockWeight + WITNESS_SCALE_FACTOR *
        (remaining ledger (· ∈ before.inBlock) candidate.iter).1 < options.nBlockMaxWeight ∧
      before.nBlockSigOpsCost + (remaining ledger (· ∈ before.inBlock) candidate.iter).2.2 <
        MAX_BLOCK_SIGOPS_COST := by
  obtain ⟨same, _, _, _⟩ := choice.sameBlock
  obtain ⟨gone, within, totals⟩ := choice.totals
  have size : candidate.packageSize = (remaining ledger gone candidate.iter).1 :=
    congrArg Prod.fst totals
  have sigops : candidate.packageSigOpsCost = (remaining ledger gone candidate.iter).2.2 :=
    congrArg (fun totals => totals.2.2) totals
  have smaller : (remaining ledger (· ∈ before.inBlock) candidate.iter).1 ≤
      (remaining ledger gone candidate.iter).1 := remaining_size_le candidate.iter within
  have fewer : (remaining ledger (· ∈ before.inBlock) candidate.iter).2.2 ≤
      (remaining ledger gone candidate.iter).2.2 := remaining_sigops_le candidate.iter within
  unfold testPackage WITNESS_SCALE_FACTOR at passes
  rw [Bool.not_eq_true', Bool.or_eq_false_iff, decide_eq_false_iff_not, decide_eq_false_iff_not,
    same.nBlockWeight, same.nBlockSigOpsCost, size] at passes
  unfold WITNESS_SCALE_FACTOR
  constructor
  · omega
  · omega

end

section

variable (consistent : Consistent entries ledger bytes_per_sigop)

include consistent

theorem addPackage_yields (choice : Chosen ledger before candidate chosen)
    (passes : testPackage options chosen candidate.packageSize candidate.packageSigOpsCost = true)
    (listed : ∀ txid, txid ∈ package ↔ txid = candidate.iter ∨ ledger.above txid candidate.iter ∧
      txid ∉ before.inBlock) :
    Yields (addPackage entries candidate package chosen) PoolHalt.OutOfRange fun after =>
      PackageAdded options ledger before after candidate.iter (sortForBlock entries package) := by
  obtain ⟨same, modified, failedTx, mi⟩ := choice.sameBlock
  have inside : ∀ txid, txid ∈ package → txid ∈ ledger.txids := by
    intro txid member
    rcases (listed txid).mp member with rfl | ⟨above, _⟩
    · exact choice.member
    · exact (consistent.above_inside above).1
  refine .bind ((addEntries_yields consistent.represents
    (fun txid member => inside txid (mem_sortForBlock.mp member)) _).weaken ?_)
  intro added isAdded
  refine .bind ((updatePackagesForAdded_yields consistent (List.nil_append _) inside
    (Subtracted.none package added.mapModifiedTx)).weaken ?_)
  intro updated subtracted
  obtain ⟨weightFits, sigOpsFit⟩ := choice.fits passes
  have middle (txid : Uint256) (outside : txid ∉ package) :
      added.mapModifiedTx.lookup txid = before.mapModifiedTx.lookup txid := by
    rw [isAdded.modified txid fun member => outside (mem_sortForBlock.mp member)]
    exact congrArg (AList.lookup txid) modified
  have erased (txid : Uint256) (member : txid ∈ package) : txid ∉ added.mapModifiedTx :=
    isAdded.erased txid (mem_sortForBlock.mpr member)
  have keys (txid : Uint256) : txid ∈ updated.1 ↔ txid ∉ package ∧
      (txid ∈ before.mapModifiedTx ∨ ∃ parent ∈ package, ledger.above parent txid) := by
    rw [subtracted.keys]
    by_cases outside : txid ∈ package
    · exact iff_of_false (not_or.mpr ⟨erased txid outside, fun both => both.1 outside⟩)
        fun both => both.1 outside
    · rw [← lookup_isSome, middle txid outside, lookup_isSome]
      exact ⟨fun either => ⟨outside, either.imp_right And.right⟩,
        fun both => both.2.imp_right (⟨outside, ·⟩)⟩
  exact
    { member := choice.member
      fresh := choice.outside
      nodup := sortForBlock_nodup package
      listed := fun txid => mem_sortForBlock.trans (listed txid)
      ordered := fun earlier txid later position ancestor member above =>
        sortForBlock_ordered consistent position above (mem_sortForBlock.mp member)
      weightFits := weightFits
      sigOpsFit := sigOpsFit
      inBlock := same.inBlock ▸ isAdded.inBlock
      vtx := same.vtx ▸ isAdded.vtx
      nBlockWeight := same.nBlockWeight ▸ isAdded.nBlockWeight
      nBlockSigOpsCost := same.nBlockSigOpsCost ▸ isAdded.nBlockSigOpsCost
      nFees := same.nFees ▸ isAdded.nFees
      failedTx := failedTx ▸ isAdded.failedTx
      mi := isAdded.mi ▸ mi
      keys := fun txid => by
        simp only [mem_sortForBlock]
        exact keys txid
      totals := fun txid gone start missing disjoint e found => by
        have outside : txid ∉ package := ((keys txid).mp (lookup_isSome.mp (found ▸ rfl))).1
        have absent : txid ∉ added.mapModifiedTx → txid ∉ before.mapModifiedTx := by
          rw [← lookup_isSome, middle txid outside, lookup_isSome]
          exact id
        have totals := subtracted.totals txid gone outside
          (fun e stored => start e (middle txid outside ▸ stored))
          (fun none => missing (absent none))
          (fun other member => disjoint other (mem_sortForBlock.mpr member)) e found
        rw [totals]
        exact remaining_congr fun other _ => or_congr_right mem_sortForBlock.symm }

theorem PackageAdded.workLeft_lt
    {iter : Uint256} (package : PackageAdded options ledger before after iter items)
    (earlier : Holds options ledger before) : workLeft ledger after < workLeft ledger before := by
  have later := package.holds consistent earlier
  have within : after.inBlock.length ≤ ledger.txids.card := by
    rw [← List.toFinset_card_of_nodup later.template.distinct]
    exact Finset.card_le_card fun txid listed =>
      later.template.inside txid (List.mem_toFinset.mp listed)
  have modified : after.mapModifiedTx.keys.length ≤ ledger.txids.card := by
    rw [← List.toFinset_card_of_nodup after.mapModifiedTx.keys_nodup]
    refine Finset.card_le_card fun txid listed => ?_
    obtain ⟨_, ancestor, _, above⟩ :=
      later.modified txid (mem_keys.mpr (List.mem_toFinset.mp listed))
    exact (consistent.above_inside above).2
  have grows : before.inBlock.length + 1 ≤ after.inBlock.length := by
    have some := List.length_pos_of_mem ((package.listed iter).mpr (.inl rfl))
    rw [package.inBlock, List.length_append]
    omega
  have index := later.indexLength
  -- one transaction less outside the block pays for refilling both sources
  have pays : (ledger.txids.card - after.inBlock.length + 1) * (2 * ledger.txids.card + 2) ≤
      (ledger.txids.card - before.inBlock.length) * (2 * ledger.txids.card + 2) :=
    Nat.mul_le_mul_right _ (by omega)
  rw [Nat.add_mul] at pays
  unfold workLeft
  omega

theorem evaluate_yields
    (holds : Holds options ledger before) (choice : Chosen ledger before candidate chosen) :
    Yields (evaluate options entries candidate chosen) PoolHalt.OutOfRange
      (Advances options ledger before) := by
  obtain ⟨same, modified, failedTx, mi⟩ := choice.sameBlock
  refine .bind ((followEntry_yields consistent.represents choice.member).weaken ?_)
  intro entry matched
  have outside : decide (candidate.iter ∉ chosen.inBlock) = true := by
    rw [same.inBlock]
    exact decide_eq_true choice.outside
  refine .bind ((assert_yields outside).weaken ?_)
  intro _ _
  split
  · trivial
  next min_fee _ =>
    split
    · exact Effect.kept same modified failedTx mi
    split
    · exact advances_rejectLarge choice
    next passes =>
      rw [Bool.not_eq_true, Bool.not_eq_false'] at passes
      refine .bind ((consistent.ancestors_yields matched).weaken ?_)
      intro ancestors isAncestor
      have listed (txid : Uint256) :
          txid ∈ (onlyUnconfirmed chosen.inBlock ancestors).insert candidate.iter ↔
            txid = candidate.iter ∨ ledger.above txid candidate.iter ∧ txid ∉ before.inBlock := by
        rw [OrderedSet.mem_insert, mem_onlyUnconfirmed, isAncestor, same.inBlock]
      refine .bind ((testPackageTransactions_yields consistent.represents ?_).weaken ?_)
      · intro txid member
        rcases (listed txid).mp member with rfl | ⟨above, _⟩
        · exact choice.member
        · exact (consistent.above_inside above).1
      intro isFinal _
      split
      · exact choice.advances_dropped (dropFailed candidate chosen).nConsecutiveFailed
      · refine .bind ((addPackage_yields consistent choice passes listed).weaken ?_)
        intro after package
        exact ⟨.added candidate.iter _ package, package.workLeft_lt consistent holds⟩

theorem round_yields (holds : Holds options ledger before) :
    Yields (round options entries before) PoolHalt.OutOfRange (Advances options ledger before) := by
  unfold round
  cases stale : before.mi.head?.filter (isStale before) with
  | some it =>
    obtain ⟨rest, first⟩ := List.head?_eq_some_iff.mp (Option.filter_eq_some_iff.mp stale).1
    refine ⟨.kept ⟨rfl, rfl, rfl, rfl, rfl⟩ rfl rfl (List.tail_suffix _), ?_⟩
    unfold workLeft
    rw [first, List.length_cons]
    dsimp only [List.tail_cons]
    omega
  | none =>
    refine .bind ((choose_yields consistent holds ?_).weaken ?_)
    · intro it rest first
      rw [first, List.head?_cons, Option.filter_eq_none_iff] at stale
      exact Bool.eq_false_of_not_eq_true (stale it rfl)
    intro choice chosen
    cases choice with
    | none => exact Effect.kept ⟨rfl, rfl, rfl, rfl, rfl⟩ rfl rfl suffix_rfl
    | some pair => exact evaluate_yields consistent holds (chosen pair.1 pair.2 rfl)

end

end Adonai.Mining
