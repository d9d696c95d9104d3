/-
The walks along the links find exactly the ancestors and descendants.
-/

import Adonai.Mempool.Ledger

namespace Adonai.Mempool

open Program Digraph Relation
open OrderedSet (not_mem_empty pending mem_insert mem_erase mem_elems)

variable {entries : EntryMap} {ledger : Ledger}

variable {txid : Uint256}

theorem followEntry_yields (represents : Represents entries ledger) (member : txid ∈ ledger.txids)
    {expected : PoolHalt → Prop} :
    Yields (followEntry entries txid) expected (EntryMatches ledger txid) := by
  obtain ⟨entry, found, matched⟩ := represents.found member
  refine .of_ok ?_ matched
  rw [followEntry, found]

theorem mem_stageMissing {seen : SetEntries} {items : List Uint256} {stage : SetEntries} :
    txid ∈ stageMissing seen items stage ↔ txid ∈ stage ∨ txid ∈ items ∧ txid ∉ seen := by
  induction items generalizing stage with
  | nil => simp only [stageMissing, List.not_mem_nil, false_and, or_false]
  | cons item items ih =>
    rw [stageMissing, ih]
    split_ifs with isSeen
    · rw [List.mem_cons]
      constructor
      · rintro (staged | ⟨listed, unseen⟩)
        · exact .inl staged
        · exact .inr ⟨.inr listed, unseen⟩
      · rintro (staged | ⟨same | listed, unseen⟩)
        · exact .inl staged
        · exact absurd (same ▸ isSeen) unseen
        · exact .inr ⟨listed, unseen⟩
    · rw [mem_insert, List.mem_cons]
      constructor
      · rintro ((same | staged) | ⟨listed, unseen⟩)
        · exact .inr ⟨.inl same, same ▸ isSeen⟩
        · exact .inl staged
        · exact .inr ⟨.inr listed, unseen⟩
      · rintro (staged | ⟨same | listed, unseen⟩)
        · exact .inl (.inr staged)
        · exact .inl (.inl same)
        · exact .inr ⟨listed, unseen⟩

theorem mem_of_reached {edge : Uint256 → Uint256 → Prop}
    (inside : ∀ source target, edge source target → target ∈ ledger.txids) {first last : Uint256}
    (member : first ∈ ledger.txids) (path : ReflTransGen edge first last) :
      last ∈ ledger.txids := by
  cases path with
  | refl => exact member
  | tail _ step => exact inside _ _ step

theorem visitDescendant_yields (represents : Represents entries ledger) {start : Uint256 → Prop}
    {known stage done : SetEntries} (search : Search ledger.child start known stage done)
    (staged : txid ∈ stage) (member : txid ∈ ledger.txids) :
    Yields (visitDescendant entries txid (stage.erase txid) done) PoolHalt.OutOfRange fun next =>
      Search ledger.child start known next.1 next.2 ∧
        pending ledger.txids next.1 next.2 < pending ledger.txids stage done := by
  refine .bind ((followEntry_yields represents member).weaken ?_)
  intro entry matched
  refine search.round staged (fun child => ?_) member
  rw [mem_stageMissing, mem_erase, mem_elems, matched.children]

theorem calculateDescendants_yields (represents : Represents entries ledger)
    (inside : ∀ source target, ledger.child source target → target ∈ ledger.txids)
    {start : Uint256} (member : start ∈ ledger.txids) {known : SetEntries}
    (closed : ∀ txid, txid ∈ known → ∀ child, ledger.child txid child → child ∈ known) :
    Yields (calculateDescendants entries start known) PoolHalt.OutOfRange fun found =>
      ∀ txid, txid ∈ found ↔ txid ∈ known ∨ ReflTransGen ledger.child start txid := by
  have initially : Search ledger.child (· = start) known
      (if start ∈ known then .empty else OrderedSet.empty.insert start) known := by
    refine { staged := ?_, sound := fun _ => Or.inl, kept := fun _ => id, started := ?_,
             complete := fun txid old child step => .inl (closed txid old child step) }
    · intro txid staged
      split at staged
      · exact absurd staged (not_mem_empty txid)
      · rcases mem_insert.mp staged with same | impossible
        · exact ⟨start, rfl, same ▸ .refl⟩
        · exact absurd impossible (not_mem_empty txid)
    · rintro _ rfl
      split
      next old => exact .inl old
      next => exact .inr (mem_insert.mpr (.inl rfl))
  refine (worklist_yields (pending ledger.txids)
    (Search ledger.child (· = start) known) ?_ entries.keys.length initially ?_).weaken ?_
  · intro stage done txid search staged
    have reached : txid ∈ ledger.txids := by
      obtain ⟨_, rfl, path⟩ := search.staged txid staged
      exact mem_of_reached inside member path
    exact ⟨OrderedSet.pending_pos reached staged,
      visitDescendant_yields represents search staged reached⟩
  · rw [represents.keys_length]
    exact OrderedSet.pending_le_card _ _ _
  · rintro found ⟨stage, search, ended⟩ txid
    rw [search.closed ended txid, Reached, exists_eq_left]

/-- A walk within limits may be refused; one without limits only halts out of range. -/
def Failure.Expected (limits : Limits) : Failure → Prop
  | .halt reason => reason.OutOfRange
  | .refused _ => limits ≠ .noLimits

private theorem orHalt_yields {α : Type} {computation : Except PoolHalt α} {post : α → Prop}
    {limits : Limits} (yields : Yields computation PoolHalt.OutOfRange post) :
    Yields (orHalt computation) (Failure.Expected limits) post := by
  cases outcome : computation with
  | ok value => exact yields.result outcome
  | error halt => exact yields.halt outcome

private theorem asUint64_noLimit : asUint64 (2 ^ 63 - 1) = 2 ^ 63 - 1 := by decide

variable {entry_count : Nat} {staged : SetEntries}

theorem stageParents_yields (limits : Limits) (few : ledger.txids.card ≤ 2 ^ 60)
    (small : entry_count ≤ 2 ^ 60) {ancestors : SetEntries}
    (found : ∀ txid, txid ∈ ancestors → txid ∈ ledger.txids) {parents : List Uint256}
    (inside : ∀ txid ∈ parents, txid ∈ ledger.txids)
    (stagedInside : ∀ txid, txid ∈ staged → txid ∈ ledger.txids) :
    Yields (stageParents limits entry_count ancestors parents staged) (Failure.Expected limits)
      fun after => ∀ txid, txid ∈ after ↔ txid ∈ staged ∨ txid ∈ parents ∧ txid ∉ ancestors := by
  induction parents generalizing staged with
  | nil =>
    intro txid
    simp only [List.not_mem_nil, false_and, or_false]
  | cons parent rest ih =>
    rw [List.forall_mem_cons] at inside
    have memNext : ∀ txid, txid ∈ stageMissing ancestors [parent] staged ↔
        txid ∈ staged ∨ txid ∈ [parent] ∧ txid ∉ ancestors := fun _ => mem_stageMissing
    have nextInside : ∀ txid, txid ∈ stageMissing ancestors [parent] staged →
        txid ∈ ledger.txids := by
      intro txid member
      rcases (memNext txid).mp member with before | ⟨same, _⟩
      · exact stagedInside txid before
      · exact List.mem_singleton.mp same ▸ inside.1
    have stagedFew := OrderedSet.size_le nextInside
    have foundFew := OrderedSet.size_le found
    change Yields (if (stageMissing ancestors [parent] staged).size + ancestors.size + entry_count >
      asUint64 limits.ancestor_count then _ else _) _ _
    split
    next exceeds =>
      refine .of_error rfl ?_
      rintro rfl
      change _ > asUint64 (2 ^ 63 - 1) at exceeds
      rw [asUint64_noLimit] at exceeds
      omega
    next =>
      refine (ih inside.2 nextInside).weaken ?_
      intro after isAfter txid
      rw [isAfter, memNext, List.mem_singleton, List.mem_cons, or_and_right, or_assoc]

variable {entry : CTxMemPoolEntry}

theorem checkAncestorLimits_yields (limits : Limits) (small : entry_count ≤ 2 ^ 60)
    (matched : EntryMatches ledger txid entry) {sizeWithEntry totalSizeWithAncestors : Int}
    (sizeFits : sizeWithEntry ≤ 2 ^ 63 - 1) (totalFits : totalSizeWithAncestors ≤ 2 ^ 63 - 1) :
    Yields (checkAncestorLimits limits entry_count entry sizeWithEntry totalSizeWithAncestors)
      (Failure.Expected limits) fun _ => True := by
  have count : entry.m_count_with_descendants = (ledger.descendantState txid).1 :=
    congrArg Prod.fst matched.descendants
  have positive := ledger.descendantState_count_pos txid
  have bounded := ledger.descendantState_count_le txid
  unfold checkAncestorLimits
  split
  next exceeds =>
    refine .of_error rfl ?_
    rintro rfl
    exact absurd exceeds (not_lt.mpr sizeFits)
  split
  next exceeds =>
    refine .of_error rfl ?_
    rintro rfl
    change _ > asUint64 (2 ^ 63 - 1) at exceeds
    rw [asUint64_noLimit, asUint64] at exceeds
    omega
  split
  next exceeds =>
    refine .of_error rfl ?_
    rintro rfl
    exact absurd exceeds (not_lt.mpr totalFits)
  · exact trivial

section

variable (represents : Represents entries ledger)
  (inside : ∀ source target, ledger.parent source target → source ∈ ledger.txids) (entry_size : Int)
  (small : entry_count ≤ 2 ^ 60)

include represents inside entry_size small

theorem visitAncestor_yields (limits : Limits) {start : Uint256 → Prop}
    (members : ∀ txid, start txid → txid ∈ ledger.txids) {found : SetEntries × Int}
    (search : Search (Function.swap ledger.parent) start .empty staged found.1)
    (isStaged : txid ∈ staged) :
    Yields (visitAncestor entries entry_size entry_count limits txid (staged.erase txid) found)
      (Failure.Expected limits) fun next =>
        Search (Function.swap ledger.parent) start .empty next.1 next.2.1 ∧
          pending ledger.txids next.1 next.2.1 < pending ledger.txids staged found.1 := by
  have reachedInside : ∀ other, Reached (Function.swap ledger.parent) start other →
      other ∈ ledger.txids := by
    rintro other ⟨first, starts, path⟩
    exact mem_of_reached (fun source target step => inside target source step)
      (members first starts) path
  have member := reachedInside txid (search.staged txid isStaged)
  have foundInside : ∀ other, other ∈ found.1.insert txid → other ∈ ledger.txids := by
    intro other isFound
    rcases mem_insert.mp isFound with same | before
    · exact same ▸ member
    · exact reachedInside other
        ((search.sound other before).resolve_left (not_mem_empty other))
  refine .bind ((orHalt_yields (followEntry_yields represents member)).weaken ?_)
  intro entry matched
  refine .bind ((orHalt_yields (addInt64_bounded _ _)).weaken ?_)
  intro total totalFits
  refine .bind ((orHalt_yields (addInt64_bounded _ _)).weaken ?_)
  intro size sizeFits
  refine .bind ((checkAncestorLimits_yields limits small matched sizeFits totalFits).weaken ?_)
  intro _ _
  refine .bind ((stageParents_yields limits ledger.few small foundInside ?_ ?_).weaken ?_)
  · intro parent listed
    exact inside parent txid ((matched.parents parent).mp listed)
  · intro other remains
    exact reachedInside other (search.staged other (mem_erase.mp remains).2)
  · intro after isAfter
    refine search.round isStaged (fun parent => ?_) member
    rw [isAfter, mem_erase, mem_elems, matched.parents]

private theorem calculateAncestorsAndCheckLimits_yields (limits : Limits)
    (members : ∀ txid, txid ∈ staged → txid ∈ ledger.txids) :
    Yields (calculateAncestorsAndCheckLimits entries entry_size entry_count staged limits)
      (Failure.Expected limits) fun found =>
        ∀ txid, txid ∈ found ↔ ∃ first, first ∈ staged ∧ ReflTransGen ledger.parent txid first := by
  have initially : Search (Function.swap ledger.parent) (· ∈ staged) .empty staged .empty :=
    { staged := fun txid isStaged => ⟨txid, isStaged, .refl⟩
      sound := fun _ => Or.inl
      kept := fun _ => id
      started := fun _ => Or.inr
      complete := fun txid impossible => absurd impossible (not_mem_empty txid) }
  refine .bind ((worklist_yields (fun stage found => pending ledger.txids stage found.1)
    (fun stage found => Search (Function.swap ledger.parent) (· ∈ staged) .empty stage found.1)
    ?_ entries.keys.length initially ?_).weaken ?_)
  · intro stage found txid search isStaged
    obtain ⟨first, starts, path⟩ := search.staged txid isStaged
    have member : txid ∈ ledger.txids := mem_of_reached
      (fun source target step => inside target source step) (members first starts) path
    exact ⟨OrderedSet.pending_pos member isStaged,
      visitAncestor_yields represents inside entry_size small limits members search isStaged⟩
  · rw [represents.keys_length]
    exact OrderedSet.pending_le_card _ _ _
  · rintro found ⟨stage, search, ended⟩ txid
    rw [search.closed ended txid, or_iff_right (not_mem_empty txid)]
    exact exists_congr fun first => and_congr_right fun _ => reflTransGen_swap

end

def Spends (tx : CTransaction) (txid : Uint256) : Prop := ∃ txin ∈ tx.vin, txin.prevout.hash = txid

theorem calculateMemPoolAncestors_linked_yields (represents : Represents entries ledger)
    (inside : ∀ source target, ledger.parent source target → source ∈ ledger.txids)
    (matched : EntryMatches ledger txid entry) (limits : Limits) :
    Yields (calculateMemPoolAncestors entries entry limits false) (Failure.Expected limits)
      fun found => ∀ other, other ∈ found ↔ TransGen ledger.parent other txid := by
  refine .bind ?_
  refine (calculateAncestorsAndCheckLimits_yields represents inside entry.nTxSize (by decide) limits
    fun other listed => inside other txid ((matched.parents other).mp listed)).weaken ?_
  intro found isFound other
  rw [isFound, TransGen.tail'_iff]
  refine exists_congr fun first => ?_
  rw [matched.parents, and_comm]

theorem assumeCalculateMemPoolAncestors_yields {search : Bool} {post : SetEntries → Prop}
    (yields : Yields (calculateMemPoolAncestors entries entry .noLimits search) (Failure.Expected
      .noLimits) post) :
    Yields (assumeCalculateMemPoolAncestors entries entry .noLimits search) PoolHalt.OutOfRange
      post := by
  unfold assumeCalculateMemPoolAncestors
  cases outcome : calculateMemPoolAncestors entries entry .noLimits search with
  | ok found => exact yields.result outcome
  | error failure =>
    cases failure with
    | halt reason => exact yields.halt outcome
    | refused error => exact absurd rfl (yields.halt outcome)

/-- The links of the entries are the spends between their transactions, each aggregate is
the sum over the transactions linked by a chain of them, and no chain is a circle. -/
structure Consistent (entries : EntryMap) (ledger : Ledger) (bytes_per_sigop : Nat) : Prop where
  represents : Represents entries ledger
  parent : ∀ source target, ledger.parent source target ↔
    source ∈ ledger.txids ∧ target ∈ ledger.txids ∧ Spends (ledger.core target).tx source
  child : ledger.child = ledger.parent
  above : ledger.above = TransGen ledger.parent
  below : ledger.below = TransGen ledger.parent
  ancestorLag : ∀ txid, ledger.ancestorLag txid = 0
  descendantLag : ∀ txid, ledger.descendantLag txid = 0
  acyclic : Digraph.Acyclic ledger.parent
  sized : ∀ txid ∈ ledger.txids, (ledger.core txid).nTxSize =
    getVirtualTransactionSize (ledger.core txid).tx.getTransactionWeight
      (ledger.core txid).sigOpCost.toNat bytes_per_sigop

namespace Consistent

variable {bytes_per_sigop : Nat}

section

variable (consistent : Consistent entries ledger bytes_per_sigop)

include consistent

theorem above_iff {source target : Uint256} :
    ledger.above source target ↔ TransGen ledger.parent source target := by
  rw [consistent.above]

theorem parent_inside (source target : Uint256)
    (linked : ledger.parent source target) : source ∈ ledger.txids ∧ target ∈ ledger.txids :=
  ⟨((consistent.parent source target).mp linked).1,
    ((consistent.parent source target).mp linked).2.1⟩

theorem above_inside {source target : Uint256}
    (linked : ledger.above source target) : source ∈ ledger.txids ∧ target ∈ ledger.txids := by
  rw [consistent.above_iff] at linked
  constructor
  · obtain ⟨next, step, _⟩ := TransGen.head'_iff.mp linked
    exact (consistent.parent_inside source next step).1
  · obtain ⟨last, _, step⟩ := TransGen.tail'_iff.mp linked
    exact (consistent.parent_inside last target step).2

theorem above_trans {first second third : Uint256} (lower : ledger.above first second)
    (upper : ledger.above second third) : ledger.above first third := by
  rw [consistent.above_iff] at lower upper ⊢
  exact lower.trans upper

theorem above_irrefl (txid : Uint256) : ¬ ledger.above txid txid := by
  rw [consistent.above_iff]
  exact consistent.acyclic txid

theorem ancestors_yields (matched : EntryMatches ledger txid entry) :
    Yields (assumeCalculateMemPoolAncestors entries entry .noLimits false) PoolHalt.OutOfRange
      fun found => ∀ other, other ∈ found ↔ ledger.above other txid := by
  rw [consistent.above]
  exact assumeCalculateMemPoolAncestors_yields (calculateMemPoolAncestors_linked_yields
    consistent.represents (fun source target linked =>
      (consistent.parent_inside source target linked).1) matched .noLimits)

theorem descendants_yields (member : txid ∈ ledger.txids) :
    Yields (calculateDescendants entries txid .empty) PoolHalt.OutOfRange
      fun found => ∀ other, other ∈ found ↔ other = txid ∨ ledger.above txid other := by
  refine (calculateDescendants_yields consistent.represents ?_ member ?_).weaken ?_
  · rw [consistent.child]
    exact fun source target linked => (consistent.parent_inside source target linked).2
  · exact fun other impossible => absurd impossible (not_mem_empty other)
  · intro found isFound other
    rw [isFound, or_iff_right (not_mem_empty other), consistent.child, consistent.above,
      reflTransGen_iff_eq_or_transGen]

end

end Consistent

end Adonai.Mempool
