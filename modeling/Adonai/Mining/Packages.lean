/-
Package totals during a selection.

The totals of a modified entry are those of its transaction and of its ancestors without
the ones that were subtracted. Adding a package subtracts its members from every entry
below them, once each.
-/

import Adonai.Mempool.Walks
import Adonai.Mining.Assembler

namespace Adonai.Mining

open Mempool Digraph

abbrev PackageTotals := Int × Int × Int

def packageWeight (core : Core) : PackageTotals :=
  (core.nTxSize, core.m_modified_fee, core.sigOpCost)

def CTxMemPoolModifiedEntry.totals (e : CTxMemPoolModifiedEntry) : PackageTotals :=
  (e.nSizeWithAncestors, e.nModFeesWithAncestors, e.nSigOpCostWithAncestors)

noncomputable def remaining (ledger : Ledger) (gone : Uint256 → Prop) (txid : Uint256) :
    PackageTotals :=
  packageWeight (ledger.core txid) +
    tally ledger.txids (fun other => packageWeight (ledger.core other))
      fun other => ledger.above other txid ∧ ¬ gone other

variable {txid : Uint256}

section Totals

variable {ledger : Ledger}

variable {gone others : Uint256 → Prop}

theorem remaining_congr (same : ∀ other, ledger.above other txid → (gone other ↔ others other)) :
    remaining ledger gone txid = remaining ledger others txid := by
  unfold remaining
  congr 1
  refine tally_congr ?_
  intro other _
  exact and_congr_right fun above => not_congr (same other above)

theorem remaining_size (gone : Uint256 → Prop) (txid : Uint256) :
    (remaining ledger gone txid).1 = (ledger.core txid).nTxSize +
      tally ledger.txids (fun other => (ledger.core other).nTxSize)
        fun other => ledger.above other txid ∧ ¬ gone other :=
  congrArg ((ledger.core txid).nTxSize + ·) (map_tally (AddMonoidHom.fst Int (Int × Int)))

theorem remaining_sigops (gone : Uint256 → Prop) (txid : Uint256) :
    (remaining ledger gone txid).2.2 = (ledger.core txid).sigOpCost +
      tally ledger.txids (fun other => (ledger.core other).sigOpCost)
        fun other => ledger.above other txid ∧ ¬ gone other :=
  congrArg ((ledger.core txid).sigOpCost + ·) (map_tally
    ((AddMonoidHom.snd Int Int).comp (AddMonoidHom.snd Int (Int × Int))))

private theorem remaining_or_eq {parent : Uint256} (member : parent ∈ ledger.txids)
    (above : ledger.above parent txid) (fresh : ¬ gone parent) :
    remaining ledger (fun other => gone other ∨ other = parent) txid =
      remaining ledger gone txid - packageWeight (ledger.core parent) := by
  simp only [remaining, not_or, ← and_assoc]
  rw [tally_diff fun other _ same => same ▸ ⟨above, fresh⟩, tally_single member, add_sub_assoc]

theorem remaining_size_le (txid : Uint256) (fewer : ∀ other, others other → gone other) :
    (remaining ledger gone txid).1 ≤ (remaining ledger others txid).1 := by
  rw [remaining_size, remaining_size, Int.add_le_add_iff_left]
  exact tally_mono (fun other inside => (ledger.size_pos other inside).le)
    fun other _ both => ⟨both.1, fun isGone => both.2 (fewer other isGone)⟩

theorem remaining_sigops_le (txid : Uint256) (fewer : ∀ other, others other → gone other) :
    (remaining ledger gone txid).2.2 ≤ (remaining ledger others txid).2.2 := by
  rw [remaining_sigops, remaining_sigops, Int.add_le_add_iff_left]
  exact tally_mono (fun other inside => ledger.cost_nonneg other inside)
    fun other _ both => ⟨both.1, fun isGone => both.2 (fewer other isGone)⟩

theorem remaining_size_lt {ancestor : Uint256} (member : ancestor ∈ ledger.txids)
    (above : ledger.above ancestor txid) (isGone : gone ancestor) (counted : ¬ others ancestor)
    (fewer : ∀ other, others other → gone other) :
    (remaining ledger gone txid).1 < (remaining ledger others txid).1 := by
  have within : (remaining ledger gone txid).1 ≤
      (remaining ledger (fun other => others other ∨ other = ancestor) txid).1 := by
    refine remaining_size_le txid ?_
    rintro other (out | same)
    · exact fewer other out
    · exact same ▸ isGone
  rw [remaining_or_eq member above counted] at within
  have positive := ledger.size_pos ancestor member
  change _ ≤ (remaining ledger others txid).1 - (ledger.core ancestor).nTxSize at within
  omega

end Totals

section Subtract

variable {entries : EntryMap} {ledger : Ledger} {bytes_per_sigop : Nat}

theorem totals_ofEntry (consistent : Consistent entries ledger bytes_per_sigop)
    {entry : CTxMemPoolEntry} (matched : EntryMatches ledger txid entry) :
    (CTxMemPoolModifiedEntry.ofEntry entry).totals = remaining ledger (fun _ => False) txid := by
  have state : (CTxMemPoolModifiedEntry.ofEntry entry).totals = (ledger.ancestorState txid).2 :=
    congrArg Prod.snd matched.ancestors
  rw [state, Ledger.ancestorState, consistent.ancestorLag]
  simp only [remaining, not_false_eq_true, and_true]
  exact (sub_zero _).trans
    (congrArg (packageWeight _ + ·) (map_tally (AddMonoidHom.snd Int PackageTotals)))

theorem totals_updateForParentInclusion (parent : CTxMemPoolEntry) (e : CTxMemPoolModifiedEntry) :
    (e.updateForParentInclusion parent).totals = e.totals - packageWeight parent.core := rfl

theorem includeParent_yields (represents : Represents entries ledger) {alreadyAdded : SetEntries}
    (parent : CTxMemPoolEntry) {descendants : List Uint256} (nodup : descendants.Nodup)
    (inside : ∀ desc ∈ descendants, desc ∈ ledger.txids) (updated : ModifiedMap × Nat) :
    Yields (includeParent entries alreadyAdded parent descendants updated) PoolHalt.OutOfRange
      fun after =>
        (∀ txid, txid ∈ descendants → txid ∉ alreadyAdded → ∃ entry,
          EntryMatches ledger txid entry ∧ after.1.lookup txid =
            some (((updated.1.lookup txid).getD
              (.ofEntry entry)).updateForParentInclusion parent)) ∧
        ∀ txid, (txid ∈ descendants → txid ∈ alreadyAdded) →
          after.1.lookup txid = updated.1.lookup txid := by
  induction descendants generalizing updated with
  | nil => exact ⟨nofun, fun _ _ => rfl⟩
  | cons desc rest ih =>
    rw [List.nodup_cons] at nodup
    rw [List.forall_mem_cons] at inside
    rw [includeParent]
    split
    next added =>
      refine (ih nodup.2 inside.2 _).weaken ?_
      rintro after ⟨changed, kept⟩
      refine ⟨fun txid listed outside => ?_, fun txid covered => ?_⟩
      · rcases List.mem_cons.mp listed with rfl | inRest
        · exact absurd added outside
        · exact changed txid inRest outside
      · exact kept txid fun inRest => covered (List.mem_cons_of_mem _ inRest)
    next outside =>
      refine .bind ((followEntry_yields represents inside.1).weaken ?_)
      intro entry matched
      refine (ih nodup.2 inside.2 _).weaken ?_
      rintro after ⟨changed, kept⟩
      refine ⟨fun txid listed out => ?_, fun txid covered => ?_⟩
      · rcases List.mem_cons.mp listed with rfl | inRest
        · refine ⟨entry, matched, ?_⟩
          rw [kept txid fun again => absurd again nodup.1, AList.lookup_insert]
        · have other : txid ≠ desc := fun same => nodup.1 (same ▸ inRest)
          obtain ⟨found, matches', value⟩ := changed txid inRest out
          rw [AList.lookup_insert_ne other] at value
          exact ⟨found, matches', value⟩
      · have other : txid ≠ desc := by
          rintro rfl
          exact outside (covered List.mem_cons_self)
        rw [kept txid fun inRest => covered (List.mem_cons_of_mem _ inRest),
          AList.lookup_insert_ne other]

/-- The modified entries after some members of an added package were subtracted: entries
below one of them are there, and what is gone from an entry is what was gone before with
those members. -/
structure Subtracted (ledger : Ledger) (package : SetEntries) (done : List Uint256)
    (before after : ModifiedMap) : Prop where
  keys : ∀ txid, txid ∈ after ↔ txid ∈ before ∨
    txid ∉ package ∧ ∃ parent ∈ done, ledger.above parent txid
  totals : ∀ txid (gone : Uint256 → Prop), txid ∉ package →
    (∀ e, before.lookup txid = some e → e.totals = remaining ledger gone txid) →
    (txid ∉ before → ∀ other, ¬ gone other) →
    (∀ other, other ∈ package → ¬ gone other) →
    ∀ e, after.lookup txid = some e →
      e.totals = remaining ledger (fun other => gone other ∨ other ∈ done) txid

theorem Subtracted.none (package : SetEntries) (modified : ModifiedMap) :
    Subtracted ledger package [] modified modified where
  keys txid := by simp only [List.not_mem_nil, false_and, exists_false, and_false, or_false]
  totals txid gone _ earlier _ _ e found := by
    rw [earlier e found]
    exact remaining_congr fun _ _ => by simp only [List.not_mem_nil, or_false]

theorem Subtracted.parent (consistent : Consistent entries ledger bytes_per_sigop)
    {package : SetEntries} {done : List Uint256} {before middle after : ModifiedMap}
    {parent : Uint256} (earlier : Subtracted ledger package done before middle)
    (member : parent ∈ ledger.txids) (added : parent ∈ package) (fresh : parent ∉ done)
    {parentEntry : CTxMemPoolEntry} (isParent : EntryMatches ledger parent parentEntry)
    (changed : ∀ txid, ledger.above parent txid → txid ∉ package → ∃ entry,
      EntryMatches ledger txid entry ∧ after.lookup txid =
        some (((middle.lookup txid).getD (.ofEntry entry)).updateForParentInclusion parentEntry))
    (kept : ∀ txid, (ledger.above parent txid → txid ∈ package) →
      after.lookup txid = middle.lookup txid) :
    Subtracted ledger package (done ++ [parent]) before after where
  keys txid := by
    rw [← AList.lookup_isSome]
    by_cases below : ledger.above parent txid ∧ txid ∉ package
    · obtain ⟨entry, _, value⟩ := changed txid below.1 below.2
      rw [value]
      refine iff_of_true rfl (.inr ⟨below.2, parent, ?_, below.1⟩)
      exact List.mem_append_right done List.mem_cons_self
    rw [not_and, not_not] at below
    rw [kept txid below, AList.lookup_isSome, earlier.keys]
    refine or_congr_right (and_congr_right fun outside => ?_)
    constructor
    · rintro ⟨other, listed, above⟩
      exact ⟨other, List.mem_append_left _ listed, above⟩
    · rintro ⟨other, listed, above⟩
      rcases List.mem_append.mp listed with old | new
      · exact ⟨other, old, above⟩
      · rw [List.mem_singleton.mp new] at above
        exact absurd (below above) outside
  totals txid gone outside start missing disjoint e found := by
    have extend : remaining ledger (fun other => gone other ∨ other ∈ done ++ [parent]) txid =
        remaining ledger (fun other => (gone other ∨ other ∈ done) ∨ other = parent) txid := by
      refine remaining_congr fun other _ => ?_
      rw [List.mem_append, List.mem_singleton, or_assoc]
    by_cases below : ledger.above parent txid
    · obtain ⟨entry, matched, value⟩ := changed txid below outside
      have counted : ¬(gone parent ∨ parent ∈ done) := not_or.mpr ⟨disjoint parent added, fresh⟩
      have base : ((middle.lookup txid).getD (.ofEntry entry)).totals =
          remaining ledger (fun other => gone other ∨ other ∈ done) txid := by
        cases present : middle.lookup txid with
        | some e => exact earlier.totals txid gone outside start missing disjoint e present
        | none => ?_
        have absent : txid ∉ middle := by
          rw [← AList.lookup_isSome, present]
          exact nofun
        rw [earlier.keys, not_or] at absent
        rw [Option.getD_none, totals_ofEntry consistent matched]
        refine remaining_congr fun other above => iff_of_false id ?_
        rintro (isGone | isDone)
        · exact missing absent.1 other isGone
        · exact absent.2 ⟨outside, other, isDone, above⟩
      rw [value] at found
      cases found
      rw [extend, remaining_or_eq member below counted, totals_updateForParentInclusion, base,
        isParent.core]
    · rw [kept txid fun above => absurd above below] at found
      rw [earlier.totals txid gone outside start missing disjoint e found, extend]
      refine remaining_congr fun other above => (or_iff_left_of_imp ?_).symm
      rintro rfl
      exact absurd above below

theorem updatePackagesForAdded_yields (consistent : Consistent entries ledger bytes_per_sigop)
    {package : SetEntries} {done rest : List Uint256} (whole : done ++ rest = package.elems)
    (inside : ∀ txid, txid ∈ package → txid ∈ ledger.txids) {before : ModifiedMap}
    {updated : ModifiedMap × Nat} (earlier : Subtracted ledger package done before updated.1) :
    Yields (updatePackagesForAdded entries package rest updated) PoolHalt.OutOfRange
      fun after => Subtracted ledger package package.elems before after.1 := by
  induction rest generalizing done updated with
  | nil =>
    rw [List.append_nil] at whole
    exact whole ▸ earlier
  | cons parent rest ih =>
    have added : parent ∈ package := by
      rw [← OrderedSet.mem_elems, ← whole]
      exact List.mem_append_right done List.mem_cons_self
    have fresh : parent ∉ done := by
      have nodup := package.nodup
      rw [← whole] at nodup
      exact fun listed =>
        (List.nodup_append.mp nodup).2.2 parent listed parent List.mem_cons_self rfl
    refine .bind ((followEntry_yields consistent.represents (inside parent added)).weaken ?_)
    intro parentEntry isParent
    refine .bind ((consistent.descendants_yields (inside parent added)).weaken ?_)
    intro descendants isDescendant
    have descendantInside : ∀ desc ∈ descendants.elems, desc ∈ ledger.txids := by
      intro desc listed
      rcases (isDescendant desc).mp listed with rfl | above
      · exact inside desc added
      · exact (consistent.above_inside above).2
    refine .bind ((includeParent_yields consistent.represents parentEntry descendants.nodup
      descendantInside updated).weaken ?_)
    rintro after ⟨changed, kept⟩
    refine ih (by rw [List.append_assoc]; exact whole)
      (earlier.parent consistent (inside parent added) added fresh isParent ?_ ?_)
    · intro txid above outside
      exact changed txid ((isDescendant txid).mpr (.inr above)) outside
    · intro txid covered
      refine kept txid fun listed => ?_
      rcases (isDescendant txid).mp listed with rfl | above
      · exact added
      · exact covered above

end Subtract

end Adonai.Mining
