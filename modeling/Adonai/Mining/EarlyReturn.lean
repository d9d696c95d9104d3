/-
The early return of `addPackageTxs`.

Candidates come in the order of the fees asked of them, and the first that pays less than its
minimum fee ends the selection. Packages that failed or were passed by cannot follow any more:
they did not fit or were not final, and the block has only grown since. Those still listed are
asked no more than the candidate, which says nothing of what they pay.
-/

import Adonai.Mining.Runs

namespace Adonai.Mining

open Mempool Digraph Program Relation

variable {entries : EntryMap} {ledger : Ledger} {bytes_per_sigop : Nat} {options : Mining.Options}

def InPackage (ledger : Ledger) (assembly : Assembly) (txid member : Uint256) : Prop :=
  member = txid ∨ ledger.above member txid ∧ member ∉ assembly.inBlock

section

variable (options : Mining.Options) (ledger : Ledger)

/-- The fee the model asks of a transaction in a package of the given size. -/
def askedFee (txid : Uint256) (size : Int) : Option Int :=
  Policy.calculateFee options.feeModel size.toNat (Consensus.valueOut (ledger.core txid).tx.vout)
    (isConsolidationTx (ledger.core txid).tx)

variable (assembly : Assembly) (txid : Uint256)

def Fits : Prop :=
  (∀ member, InPackage ledger assembly txid member →
    Consensus.isFinalTx (ledger.core member).tx options.nHeight options.m_lock_time_cutoff = true) ∧
    testPackage options assembly (remaining ledger (· ∈ assembly.inBlock) txid).1
      (remaining ledger (· ∈ assembly.inBlock) txid).2.2 = true

def Pays : Prop :=
  ∃ min_fee, askedFee options ledger txid (remaining ledger (· ∈ assembly.inBlock) txid).1 =
      some min_fee ∧
    min_fee ≤ (remaining ledger (· ∈ assembly.inBlock) txid).2.1

def Underpaid : Prop :=
  ∃ min_fee, askedFee options ledger txid (remaining ledger (· ∈ assembly.inBlock) txid).1 =
      some min_fee ∧
    (remaining ledger (· ∈ assembly.inBlock) txid).2.1 < min_fee

def Acceptable : Prop := Pays options ledger assembly txid ∧ Fits options ledger assembly txid

/-- The score of a package as it is now, without the transactions in the block. -/
noncomputable def askedScore : Score :=
  { fee := min ((askedFee options ledger txid
        (remaining ledger (· ∈ assembly.inBlock) txid).1).getD 0)
      ((askedFee options ledger txid (ledger.core txid).nTxSize).getD 0)
    txid := txid }

/-- The modified totals are exact, and a package that fits and comes after an underpaid one in
the order of the fees asked is underpaid too. -/
structure AskedAsPaid : Prop where
  exact : Exact ledger assembly
  ordered : ∀ first ∈ ledger.txids, ∀ second ∈ ledger.txids, first ∉ assembly.inBlock →
    second ∉ assembly.inBlock → second ≠ first →
    (askedScore options ledger assembly second).compare
      (askedScore options ledger assembly first) = false →
    Underpaid options ledger assembly first → Fits options ledger assembly second →
      ¬Pays options ledger assembly second

end

/-- A round that ends the selection because the chosen package pays too little. -/
structure StopsShort (options : Mining.Options) (entries : EntryMap) (before : Assembly)
    (candidate : Candidate) (stopped : Assembly) : Prop where
  visited : Visited options entries before
  current : before.mi.head?.filter (isStale before) = none
  chosen : choose options entries before = .ok (some (candidate, stopped))
  underpaid : ∃ entry min_fee, entries.lookup candidate.iter = some entry ∧
    mempoolEntryFee options.feeModel entry candidate.packageSize = some min_fee ∧
      candidate.packageFees < min_fee

variable {txid : Uint256}

theorem followEntry_ok {entry : CTxMemPoolEntry} (found : followEntry entries txid = .ok entry) :
    entries.lookup txid = some entry := by
  unfold followEntry at found
  split at found
  · cases found
    assumption
  · cases found

variable {before after chosen : Assembly} {candidate : Candidate}

theorem addEntries_mi {items : List Uint256} (runs : addEntries entries items before = .ok after) :
    after.mi = before.mi := by
  induction items generalizing before with
  | nil =>
    cases runs
    rfl
  | cons it rest ih =>
    obtain ⟨entry, _, later⟩ := exists_of_bind_ok runs
    have kept := ih later
    exact kept

theorem addPackage_mi {package : SetEntries}
    (runs : addPackage entries candidate package before = .ok after) : after.mi = before.mi := by
  obtain ⟨added, adds, runs⟩ := exists_of_bind_ok runs
  obtain ⟨updated, _, runs⟩ := exists_of_bind_ok runs
  cases runs
  have kept := addEntries_mi adds
  exact kept

private theorem dropFailed_mi (candidate : Candidate) (assembly : Assembly) :
    (dropFailed candidate assembly).mi = assembly.mi := by
  unfold dropFailed
  split <;> rfl

theorem dropFailed_failedTx (candidate : Candidate) (assembly : Assembly) :
    (dropFailed candidate assembly).failedTx = assembly.failedTx ∨
      (dropFailed candidate assembly).failedTx = candidate.iter :: assembly.failedTx := by
  unfold dropFailed
  split
  · exact .inr rfl
  · exact .inl rfl

theorem testPackageTransactions_false (represents : Represents entries ledger)
    {items : List Uint256} (fails : testPackageTransactions options entries items = .ok false) :
    ∃ member ∈ items, Consensus.isFinalTx (ledger.core member).tx options.nHeight
      options.m_lock_time_cutoff = false := by
  induction items with
  | nil => cases fails
  | cons it rest ih =>
    obtain ⟨entry, follows, fails⟩ := exists_of_bind_ok fails
    have matched := represents.entry it entry (followEntry_ok follows)
    have tx : entry.tx = (ledger.core it).tx := congrArg Core.tx matched.core
    split at fails
    · obtain ⟨member, listed, unfinished⟩ := ih fails
      exact ⟨member, List.mem_cons_of_mem _ listed, unfinished⟩
    next unfinished =>
      refine ⟨it, List.mem_cons_self, ?_⟩
      rw [← tx]
      exact Bool.eq_false_iff.mpr unfinished

/-- A candidate enters the block, or its package does not fit. -/
structure Settles (options : Mining.Options) (ledger : Ledger) (before : Assembly)
    (candidate : Candidate) (chosen after : Assembly) : Prop where
  settled : candidate.iter ∈ after.inBlock ∨ ¬Fits options ledger before candidate.iter
  mi : after.mi = chosen.mi
  failedTx : after.failedTx = chosen.failedTx ∨ after.failedTx = candidate.iter :: chosen.failedTx

theorem evaluate_settles (consistent : Consistent entries ledger bytes_per_sigop)
    (choice : Chosen ledger before candidate chosen) (exact : Exact ledger before)
    (continues : evaluate options entries candidate chosen = .ok (.continues after)) :
    Settles options ledger before candidate chosen after := by
  have same := choice.sameBlock.1
  have totals := choice.exact exact
  have size : candidate.packageSize =
      (remaining ledger (· ∈ before.inBlock) candidate.iter).1 := congrArg (·.1) totals
  have sigOps : candidate.packageSigOpsCost =
      (remaining ledger (· ∈ before.inBlock) candidate.iter).2.2 := congrArg (·.2.2) totals
  obtain ⟨entry, follows, continues⟩ := exists_of_bind_ok continues
  obtain ⟨_, _, continues⟩ := exists_of_bind_ok continues
  split at continues
  · cases continues
  split at continues
  · cases continues
  split at continues
  next fails =>
    unfold rejectLarge at continues
    dsimp only at continues
    split at continues
    · cases continues
    cases continues
    refine ⟨.inr fun fits => ?_, dropFailed_mi candidate chosen,
      dropFailed_failedTx candidate chosen⟩
    have passes := fits.2
    unfold testPackage at fails passes
    rw [← size, ← sigOps, ← same.nBlockWeight, ← same.nBlockSigOpsCost] at passes
    rw [passes] at fails
    cases fails
  next passes =>
    rw [Bool.not_eq_true, Bool.not_eq_false'] at passes
    obtain ⟨ancestors, walked, continues⟩ := exists_of_bind_ok continues
    obtain ⟨isFinal, tested, continues⟩ := exists_of_bind_ok continues
    have matched := consistent.represents.entry candidate.iter entry (followEntry_ok follows)
    have isAncestor := (consistent.ancestors_yields matched).result walked
    have listed (txid : Uint256) :
        txid ∈ (onlyUnconfirmed chosen.inBlock ancestors).insert candidate.iter ↔
          InPackage ledger before candidate.iter txid := by
      rw [OrderedSet.mem_insert, mem_onlyUnconfirmed, isAncestor, InPackage, same.inBlock]
    split at continues
    next unfinished =>
      cases continues
      rw [(Bool.not_eq_true' _).mp unfinished] at tested
      obtain ⟨member, inItems, notFinal⟩ :=
        testPackageTransactions_false consistent.represents tested
      refine ⟨.inr fun fits => ?_, dropFailed_mi candidate chosen,
        dropFailed_failedTx candidate chosen⟩
      have final := fits.1 member ((listed member).mp (OrderedSet.mem_elems.mp inItems))
      rw [notFinal] at final
      cases final
    · obtain ⟨added, adds, continues⟩ := exists_of_bind_ok continues
      cases continues
      have package := (addPackage_yields consistent choice passes listed).result adds
      refine ⟨.inl ?_, addPackage_mi adds, .inl ?_⟩
      · rw [package.inBlock]
        exact List.mem_append_right _ ((package.listed _).mpr (.inl rfl))
      · rw [package.failedTx, choice.sameBlock.2.2.1]

theorem chosen_of_choose (consistent : Consistent entries ledger bytes_per_sigop)
    (holds : Holds options ledger before)
    (current : before.mi.head?.filter (isStale before) = none)
    (chooses : choose options entries before = .ok (some (candidate, chosen))) :
    Chosen ledger before candidate chosen := by
  refine (choose_yields consistent holds ?_).result chooses candidate chosen rfl
  intro it rest first
  rw [first, List.head?_cons, Option.filter_eq_none_iff] at current
  exact Bool.eq_false_of_not_eq_true (current it rfl)

theorem round_settles (consistent : Consistent entries ledger bytes_per_sigop)
    (holds : Holds options ledger before) (exact : Exact ledger before)
    (continues : Continues options entries before after) :
    (∃ it rest, before.mi = it :: rest ∧ isStale before it = true ∧
        after = { before with mi := rest }) ∨
      ∃ candidate chosen, Chosen ledger before candidate chosen ∧
        Settles options ledger before candidate chosen after := by
  unfold Continues round at continues
  split at continues
  next it stale =>
    cases continues
    obtain ⟨first, isStale⟩ := Option.filter_eq_some_iff.mp stale
    obtain ⟨rest, first⟩ := List.head?_eq_some_iff.mp first
    exact .inl ⟨it, rest, first, isStale, by rw [first, List.tail_cons]⟩
  next current =>
    obtain ⟨choice, chooses, continues⟩ := exists_of_bind_ok continues
    split at continues
    · cases continues
    next candidate chosen =>
      have choice := chosen_of_choose consistent holds current chooses
      exact .inr ⟨candidate, chosen, choice, evaluate_settles consistent choice exact continues⟩

/-! ### Entries that were passed by -/

variable {assembly : Assembly}

/-- Outside the block and `mapModifiedTx`, no package fits that failed or has left the index. -/
def PassedBy (options : Mining.Options) (ledger : Ledger) (assembly : Assembly) : Prop :=
  ∀ txid ∈ ledger.txids, txid ∉ assembly.inBlock → txid ∉ assembly.mapModifiedTx →
    txid ∉ assembly.mi ∨ txid ∈ assembly.failedTx → ¬Fits options ledger assembly txid

private theorem sumOver_nonneg {amount : Core → Int} {txids : List Uint256}
    (each : ∀ txid ∈ txids, 0 ≤ amount (ledger.core txid)) : 0 ≤ sumOver amount ledger txids := by
  apply List.sum_nonneg
  intro value listed
  obtain ⟨txid, member, rfl⟩ := List.mem_map.mp listed
  exact each txid member

structure Grows (before after : Assembly) : Prop where
  inBlock : ∀ txid ∈ before.inBlock, txid ∈ after.inBlock
  weight : before.nBlockWeight ≤ after.nBlockWeight
  sigOps : before.nBlockSigOpsCost ≤ after.nBlockSigOpsCost

private theorem SameBlock.grows (same : SameBlock before after) : Grows before after where
  inBlock := fun _ member => same.inBlock ▸ member
  weight := same.nBlockWeight.ge
  sigOps := same.nBlockSigOpsCost.ge

theorem Effect.grows (consistent : Consistent entries ledger bytes_per_sigop)
    (effect : Effect options ledger before after) : Grows before after := by
  cases effect with
  | kept same => exact same.grows
  | dropped txid member same => exact same.grows
  | added iter items package => ?_
  have inside : ∀ txid ∈ items, txid ∈ ledger.txids := fun _ => package.inside consistent
  constructor
  case inBlock =>
    intro txid member
    rw [package.inBlock]
    exact List.mem_append_left _ member
  case weight =>
    have nonneg : 0 ≤ sumOver weightOf ledger items :=
      sumOver_nonneg fun _ _ => Int.natCast_nonneg _
    rw [package.nBlockWeight]
    omega
  case sigOps =>
    have nonneg : 0 ≤ sumOver Core.sigOpCost ledger items :=
      sumOver_nonneg fun txid member => ledger.cost_nonneg txid (inside txid member)
    rw [package.nBlockSigOpsCost]
    omega

theorem Fits.earlier (grows : Grows before after)
    (same : ∀ ancestor, ledger.above ancestor txid → ancestor ∈ after.inBlock →
      ancestor ∈ before.inBlock)
    (fits : Fits options ledger after txid) : Fits options ledger before txid := by
  have remains : remaining ledger (· ∈ after.inBlock) txid =
      remaining ledger (· ∈ before.inBlock) txid :=
    remaining_congr fun ancestor above => ⟨same ancestor above, grows.inBlock ancestor⟩
  obtain ⟨final, passes⟩ := fits
  constructor
  · intro member inPackage
    apply final member
    rcases inPackage with same' | ⟨above, outside⟩
    · exact .inl same'
    · exact .inr ⟨above, fun added => outside (same member above added)⟩
  · have weight := grows.weight
    have sigOps := grows.sigOps
    rw [remains] at passes
    unfold testPackage at passes ⊢
    rw [Bool.not_eq_true', Bool.or_eq_false_iff, decide_eq_false_iff_not,
      decide_eq_false_iff_not] at passes ⊢
    constructor
    · omega
    · omega

theorem Effect.sameAncestors (effect : Effect options ledger before after)
    (outside : txid ∉ after.inBlock) (unmodified : txid ∉ after.mapModifiedTx) :
    (∀ ancestor, ledger.above ancestor txid → ancestor ∈ after.inBlock →
        ancestor ∈ before.inBlock) ∧
      (txid ∈ before.mapModifiedTx → after.failedTx = txid :: before.failedTx) := by
  cases effect with
  | kept same modified _ _ =>
    exact ⟨fun _ _ member => same.inBlock ▸ member,
      fun member => absurd (modified ▸ member) unmodified⟩
  | dropped other _ same modified failedTx _ =>
    refine ⟨fun _ _ member => same.inBlock ▸ member, fun member => ?_⟩
    by_cases isOther : txid = other
    · rw [isOther, failedTx]
    · rw [modified, AList.mem_erase] at unmodified
      exact absurd ⟨isOther, member⟩ unmodified
  | added iter items package =>
    rw [package.inBlock, List.mem_append, not_or] at outside
    have untouched := fun touched => unmodified ((package.keys txid).mpr ⟨outside.2, touched⟩)
    refine ⟨fun ancestor above member => ?_, fun member => absurd (.inl member) untouched⟩
    rw [package.inBlock, List.mem_append] at member
    rcases member with member | listed
    · exact member
    · exact absurd (.inr ⟨ancestor, listed, above⟩) untouched

theorem PassedBy.step (consistent : Consistent entries ledger bytes_per_sigop)
    (holds : Holds options ledger before) (exact : Exact ledger before)
    (passedBy : PassedBy options ledger before)
    (continues : Continues options entries before after) : PassedBy options ledger after := by
  have effect : Effect options ledger before after :=
    ((round_yields consistent holds).result continues).1
  have grows := effect.grows consistent
  intro txid known outside unmodified passed fits
  obtain ⟨sameAncestors, erased⟩ := effect.sameAncestors outside unmodified
  have earlier : Fits options ledger before txid := fits.earlier grows sameAncestors
  have outsideBefore : txid ∉ before.inBlock := fun member => outside (grows.inBlock txid member)
  have notCandidate : ∀ {candidate chosen}, Settles options ledger before candidate chosen after →
      candidate.iter ≠ txid := by
    rintro candidate chosen settles rfl
    exact settles.settled.elim outside (absurd earlier)
  have turn := round_settles consistent holds exact continues
  by_cases modified : txid ∈ before.mapModifiedTx
  · rcases turn with ⟨_, _, _, _, rfl⟩ | ⟨candidate, chosen, choice, settles⟩
    · exact unmodified modified
    have failedTx := settles.failedTx
    rw [erased modified, choice.sameBlock.2.2.1] at failedTx
    rcases failedTx with same | same
    · exact List.cons_ne_self _ _ same
    · exact notCandidate settles (List.cons.inj same).1.symm
  have listed : txid ∈ before.mi ∧ txid ∉ before.failedTx := by
    by_contra settled
    rw [not_and_or, not_not] at settled
    exact passedBy txid known outsideBefore modified settled earlier
  rcases turn with ⟨it, rest, first, stale, rfl⟩ | ⟨candidate, chosen, choice, settles⟩
  · have notIt : txid ≠ it := by
      rintro rfl
      simp [isStale, modified, outsideBefore, listed.2] at stale
    rw [first, List.mem_cons, or_iff_right notIt] at listed
    exact passed.elim (absurd listed.1) listed.2
  · rcases passed with unlisted | failed
    · rw [settles.mi] at unlisted
      cases isModified : candidate.fUsingModified with
      | true =>
        obtain ⟨_, rfl⟩ := choice.fromModified isModified
        exact unlisted listed.1
      | false =>
        obtain ⟨rest, first, rfl⟩ := choice.fromIndex isModified
        rw [first, List.mem_cons, or_iff_left unlisted] at listed
        exact notCandidate settles listed.1.symm
    · have failedTx := settles.failedTx
      rw [choice.sameBlock.2.2.1] at failedTx
      rcases failedTx with same | same
      · exact listed.2 (same ▸ failed)
      · rw [same, List.mem_cons, or_iff_left listed.2] at failed
        exact notCandidate settles failed.symm

theorem Visited.passedBy (consistent : Consistent entries ledger bytes_per_sigop)
    (exact : ∀ before, Visited options entries before → Exact ledger before)
    (visited : Visited options entries assembly) : PassedBy options ledger assembly := by
  induction visited with
  | refl =>
    intro txid known _ _ passed
    have sorted : (ancestorScoreIndex options.feeModel entries).Perm entries.keys :=
      List.perm_insertionSort _ _
    have listed : txid ∈ (Assembly.start options entries).mi :=
      sorted.mem_iff.mpr (AList.mem_keys.mp ((consistent.represents.present txid).mpr known))
    exact passed.elim (absurd listed) (absurd · List.not_mem_nil)
  | tail path step ih =>
    exact ih.step consistent (Visited.holds consistent path) (exact _ path) step

/-! ### The order of the candidates -/

theorem Score.compare_iff {a b : Score} : a.compare b = true ↔
      b.fee < a.fee ∨ a.fee = b.fee ∧ a.txid.memcmpRank < b.txid.memcmpRank := by
  unfold Score.compare
  split
  next same => simp [same]
  next different => simp [different]

theorem Score.compare_self (a : Score) : a.compare a = false := by
  simp [Score.compare]

theorem Score.compare_trans {a b c : Score} (first : a.compare b = false)
    (second : b.compare c = false) : a.compare c = false := by
  rw [Bool.eq_false_iff, ne_eq, compare_iff] at *
  omega

theorem Score.compare_total (a b : Score) : a.compare b = false ∨ b.compare a = false := by
  rw [Bool.eq_false_iff, Bool.eq_false_iff, ne_eq, ne_eq, compare_iff, compare_iff]
  omega

def better (score : Uint256 → Score) (best : Option Uint256) (txid : Uint256) : Option Uint256 :=
  match best with
  | none => some txid
  | some other => if (score txid).compare (score other) then some txid else some other

theorem better_first (score : Uint256 → Score) (best : Option Uint256) (txid : Uint256) :
    ∃ kept, better score best txid = some kept ∧ (kept = txid ∨ best = some kept) ∧
      ∀ other, other = txid ∨ best = some other →
        (score other).compare (score kept) = false := by
  cases best with
  | none =>
    refine ⟨txid, rfl, .inl rfl, ?_⟩
    rintro _ (rfl | ⟨⟨⟩⟩)
    exact Score.compare_self _
  | some current =>
    cases less : (score txid).compare (score current) with
    | false =>
      refine ⟨current, if_neg (Bool.eq_false_iff.mp less), .inr rfl, ?_⟩
      rintro _ (rfl | ⟨⟨⟩⟩)
      · exact less
      · exact Score.compare_self _
    | true =>
      refine ⟨txid, if_pos less, .inl rfl, ?_⟩
      rintro _ (rfl | ⟨⟨⟩⟩)
      · exact Score.compare_self _
      · exact (Score.compare_total _ _).resolve_left (by rw [less]; exact nofun)

theorem foldl_better (score : Uint256 → Score) (txids : List Uint256) (start : Option Uint256)
    (known : txid ∈ txids ∨ start = some txid) :
    ∃ best, txids.foldl (better score) start = some best ∧ (best ∈ txids ∨ start = some best) ∧
      (score txid).compare (score best) = false := by
  induction txids generalizing start txid with
  | nil =>
    have isStart := known.resolve_left List.not_mem_nil
    exact ⟨txid, isStart, .inr isStart, Score.compare_self _⟩
  | cons head rest ih =>
    obtain ⟨kept, step, origin, least⟩ := better_first score start head
    have listed : ∀ {best}, best ∈ rest ∨ some kept = some best →
        best ∈ head :: rest ∨ start = some best := by
      grind
    rw [List.foldl_cons, step]
    by_cases later : txid ∈ rest
    · obtain ⟨best, found, from', after⟩ := ih (some kept) (.inl later)
      exact ⟨best, found, listed from', after⟩
    · obtain ⟨best, found, from', after⟩ := ih (some kept) (.inr rfl)
      refine ⟨best, found, listed from', Score.compare_trans (least txid ?_) after⟩
      rwa [List.mem_cons, or_iff_left later] at known

theorem bestModified_first {feeModel : Policy.FeeModel} {modified : ModifiedMap}
    (member : txid ∈ modified) :
    ∃ best, bestModified feeModel entries modified = some best ∧ best ∈ modified ∧
      (modifiedScore feeModel entries modified txid).compare
        (modifiedScore feeModel entries modified best) = false := by
  obtain ⟨best, found, listed, after⟩ := foldl_better (modifiedScore feeModel entries modified)
    modified.keys none (.inl (AList.mem_keys.mp member))
  exact ⟨best, found, AList.mem_keys.mpr (listed.resolve_right nofun), after⟩

theorem index_sorted (feeModel : Policy.FeeModel) (entries : EntryMap) :
    (ancestorScoreIndex feeModel entries).Pairwise fun a b =>
      (entryScore feeModel entries b).compare (entryScore feeModel entries a) = false := by
  have : Std.Total fun a b : Uint256 =>
      (entryScore feeModel entries b).compare (entryScore feeModel entries a) = false :=
    ⟨fun a b => Score.compare_total _ _⟩
  have : IsTrans Uint256 fun a b =>
      (entryScore feeModel entries b).compare (entryScore feeModel entries a) = false :=
    ⟨fun a b c first second => Score.compare_trans second first⟩
  exact List.pairwise_insertionSort _ _

theorem Effect.mi (effect : Effect options ledger before after) : after.mi <:+ before.mi := by
  cases effect with
  | kept _ _ _ mi => exact mi
  | dropped _ _ _ _ _ mi => exact mi ▸ List.suffix_rfl
  | added _ _ package => exact package.mi

theorem Visited.sorted (consistent : Consistent entries ledger bytes_per_sigop)
    (visited : Visited options entries assembly) :
    assembly.mi.Pairwise fun a b => (entryScore options.feeModel entries b).compare
      (entryScore options.feeModel entries a) = false := by
  induction visited with
  | refl => exact index_sorted options.feeModel entries
  | tail path step ih =>
    have effect := ((round_yields consistent (Visited.holds consistent path)).result step).1
    exact ih.sublist effect.mi.sublist

theorem mempoolEntryFee_eq {entry : CTxMemPoolEntry} (matched : EntryMatches ledger txid entry)
    (size : Int) :
    mempoolEntryFee options.feeModel entry size = askedFee options ledger txid size := by
  have tx : entry.tx = (ledger.core txid).tx := congrArg Core.tx matched.core
  rw [mempoolEntryFee, askedFee, getValue, tx]

theorem ancestorFeeScore_eq {entry : CTxMemPoolEntry} (matched : EntryMatches ledger txid entry)
    {size : Int} (exact : size = (remaining ledger (· ∈ assembly.inBlock) txid).1) :
    ancestorFeeScore options.feeModel entry size =
      (askedScore options ledger assembly txid).fee := by
  have own : entry.nTxSize = (ledger.core txid).nTxSize := congrArg Core.nTxSize matched.core
  rw [ancestorFeeScore, mempoolEntryFee_eq matched, mempoolEntryFee_eq matched, own, exact]
  rfl

section

variable (consistent : Consistent entries ledger bytes_per_sigop)

include consistent

theorem entryScore_eq (member : txid ∈ ledger.txids) (untouched : Untouched ledger assembly txid) :
    entryScore options.feeModel entries txid = askedScore options ledger assembly txid := by
  obtain ⟨entry, found, matched⟩ := consistent.represents.found member
  have totals := (totals_ofEntry consistent matched).trans untouched.remaining_eq.symm
  have size : entry.nSizeWithAncestors = (remaining ledger (· ∈ assembly.inBlock) txid).1 :=
    congrArg (·.1) totals
  rw [entryScore, found, Option.elim_some, ancestorFeeScore_eq matched size]
  rfl

theorem modifiedScore_eq (holds : Holds options ledger assembly) (exact : Exact ledger assembly)
    (modified : txid ∈ assembly.mapModifiedTx) :
    modifiedScore options.feeModel entries assembly.mapModifiedTx txid =
      askedScore options ledger assembly txid := by
  obtain ⟨_, ancestor, _, above⟩ := holds.modified txid modified
  obtain ⟨entry, found, matched⟩ :=
    consistent.represents.found (consistent.above_inside above).2
  obtain ⟨e, isModified⟩ := Option.isSome_iff_exists.mp (AList.lookup_isSome.mpr modified)
  have size : e.nSizeWithAncestors = (remaining ledger (· ∈ assembly.inBlock) txid).1 :=
    congrArg (·.1) (exact txid e isModified)
  rw [modifiedScore, found, Option.elim_some, isModified, Option.elim_some,
    ancestorFeeScore_eq matched size]
  rfl

/-- The candidate comes first of the packages that are left in the order of the fees asked. -/
theorem choose_first (holds : Holds options ledger before) (exact : Exact ledger before)
    (sorted : before.mi.Pairwise fun a b => (entryScore options.feeModel entries b).compare
      (entryScore options.feeModel entries a) = false)
    (current : before.mi.head?.filter (isStale before) = none)
    (chooses : choose options entries before = .ok (some (candidate, chosen)))
    (left : txid ∈ before.mapModifiedTx ∨ txid ∈ before.mi ∧ isStale before txid = false) :
    (askedScore options ledger before txid).compare
      (askedScore options ledger before candidate.iter) = false := by
  have best : ∀ other ∈ before.mapModifiedTx, ∃ first e,
      ((bestModified options.feeModel entries before.mapModifiedTx).bind fun txid =>
        (before.mapModifiedTx.lookup txid).map (txid, ·)) = some (first, e) ∧
      (askedScore options ledger before other).compare
        (askedScore options ledger before first) = false := by
    intro other modified
    obtain ⟨first, found, member, after⟩ := bestModified_first modified
    obtain ⟨e, isModified⟩ := Option.isSome_iff_exists.mp (AList.lookup_isSome.mpr member)
    rw [modifiedScore_eq consistent holds exact modified,
      modifiedScore_eq consistent holds exact member] at after
    exact ⟨first, e, by rw [found, Option.bind_some, isModified, Option.map_some], after⟩
  have indexed : ∀ it rest, before.mi = it :: rest →
      entryScore options.feeModel entries it = askedScore options ledger before it ∧
        (txid ∈ before.mi ∧ isStale before txid = false →
          (askedScore options ledger before txid).compare
            (askedScore options ledger before it) = false) := by
    intro it rest first
    have score : ∀ other ∈ before.mi, isStale before other = false →
        entryScore options.feeModel entries other = askedScore options ledger before other :=
      fun other listed fresh =>
        entryScore_eq consistent (holds.index other listed) (holds.untouched fresh)
    rw [first] at current sorted score ⊢
    rw [List.head?_cons, Option.filter_eq_none_iff] at current
    have head := score it List.mem_cons_self (Bool.eq_false_of_not_eq_true (current it rfl))
    refine ⟨head, fun ⟨listed, fresh⟩ => ?_⟩
    rcases List.mem_cons.mp listed with rfl | inRest
    · exact Score.compare_self _
    · rw [← head, ← score txid listed fresh]
      exact List.rel_of_pairwise_cons sorted inRest
  unfold choose at chooses
  dsimp only at chooses
  split at chooses
  · cases chooses
  next first e empty isBest =>
    cases chooses
    rcases left with modified | ⟨listed, _⟩
    · obtain ⟨_, _, same, after⟩ := best txid modified
      cases isBest.symm.trans same
      exact after
    · rw [empty] at listed
      cases listed
  next it rest isHead noBest =>
    obtain ⟨entry, _, chooses⟩ := exists_of_bind_ok chooses
    cases chooses
    rcases left with modified | listed
    · obtain ⟨_, _, same, _⟩ := best txid modified
      cases noBest.symm.trans same
    · exact (indexed it rest isHead).2 listed
  next it rest first e isHead isBest =>
    obtain ⟨entry, _, chooses⟩ := exists_of_bind_ok chooses
    have member : first ∈ before.mapModifiedTx := by
      obtain ⟨_, _, mapped⟩ := Option.bind_eq_some_iff.mp isBest
      obtain ⟨_, isModified, same⟩ := Option.map_eq_some_iff.mp mapped
      cases same
      exact AList.lookup_isSome.mp (isModified ▸ rfl)
    obtain ⟨headScore, headFirst⟩ := indexed it rest isHead
    rw [headScore, modifiedScore_eq consistent holds exact member] at chooses
    have bestFirst : txid ∈ before.mapModifiedTx →
        (askedScore options ledger before txid).compare
          (askedScore options ledger before first) = false := by
      intro modified
      obtain ⟨_, _, same, after⟩ := best txid modified
      cases isBest.symm.trans same
      exact after
    split at chooses
    next less =>
      cases chooses
      have notLess : (askedScore options ledger before it).compare
          (askedScore options ledger before first) = false :=
        (Score.compare_total _ _).resolve_left (by rw [less]; exact nofun)
      exact left.elim bestFirst fun listed => Score.compare_trans (headFirst listed) notLess
    next notLess =>
      cases chooses
      exact left.elim (fun modified =>
        Score.compare_trans (bestFirst modified) (Bool.eq_false_of_not_eq_true notLess)) headFirst

end

section

variable {stopped : Assembly} (consistent : Consistent entries ledger bytes_per_sigop)
  (stops : StopsShort options entries before candidate stopped)

include consistent stops

theorem StopsShort.choice : Chosen ledger before candidate stopped :=
  chosen_of_choose consistent (stops.visited.holds consistent) stops.current stops.chosen

theorem StopsShort.round_done : round options entries before = .ok (.done stopped) := by
  have choice := stops.choice consistent
  obtain ⟨entry, min_fee, found, asked, short⟩ := stops.underpaid
  have outside : decide (candidate.iter ∉ stopped.inBlock) = true := by
    rw [choice.sameBlock.1.inBlock]
    exact decide_eq_true choice.outside
  have follows : followEntry entries candidate.iter = .ok entry := by
    rw [followEntry, found]
  unfold round
  rw [stops.current, stops.chosen]
  change evaluate options entries candidate stopped = _
  unfold evaluate
  rw [follows, assert, if_pos outside]
  dsimp only [bind, Except.bind]
  rw [asked]
  exact if_pos short

theorem StopsShort.candidate_underpaid (exact : Exact ledger before) :
    Underpaid options ledger before candidate.iter := by
  have totals := (stops.choice consistent).exact exact
  obtain ⟨entry, min_fee, found, asked, short⟩ := stops.underpaid
  rw [mempoolEntryFee_eq (consistent.represents.entry _ _ found)] at asked
  unfold Underpaid
  rw [← totals]
  exact ⟨min_fee, asked, short⟩

theorem StopsShort.acceptable_before (acceptable : Acceptable options ledger stopped txid) :
    Acceptable options ledger before txid := by
  have choice := stops.choice consistent
  cases modified : candidate.fUsingModified with
  | true =>
    obtain ⟨_, rfl⟩ := choice.fromModified modified
    exact acceptable
  | false =>
    obtain ⟨_, _, rfl⟩ := choice.fromIndex modified
    exact acceptable

end

/-- In a run whose states all ask for more of the packages that pay, the selection that stops at
a package with too small a fee leaves out none that is acceptable. -/
theorem addPackageTxs_stop_complete (consistent : Consistent entries ledger bytes_per_sigop)
    (asked : ∀ before, Visited options entries before → AskedAsPaid options ledger before)
    (before : Assembly) (candidate : Candidate) (stopped : Assembly)
    (stops : StopsShort options entries before candidate stopped) :
    round options entries before = .ok (.done stopped) ∧
      ∀ txid ∈ ledger.txids, txid ∉ stopped.inBlock → txid ≠ candidate.iter →
        ¬Acceptable options ledger stopped txid := by
  have choice := stops.choice consistent
  have holds : Holds options ledger before := stops.visited.holds consistent
  have exact := (asked before stops.visited).exact
  have passedBy : PassedBy options ledger before :=
    stops.visited.passedBy consistent fun before visited => (asked before visited).exact
  refine ⟨stops.round_done consistent, fun txid known outside other acceptable => ?_⟩
  rw [choice.sameBlock.1.inBlock] at outside
  obtain ⟨pays, fits⟩ := stops.acceptable_before consistent acceptable
  by_cases left : txid ∈ before.mapModifiedTx ∨ txid ∈ before.mi ∧ isStale before txid = false
  · have after := choose_first consistent holds exact (stops.visited.sorted consistent)
      stops.current stops.chosen left
    exact (asked before stops.visited).ordered candidate.iter choice.member txid known
      choice.outside outside other after (stops.candidate_underpaid consistent exact) fits pays
  · rw [not_or] at left
    refine passedBy txid known outside left.1 ?_ fits
    by_contra listed
    rw [not_or, not_not] at listed
    refine left.2 ⟨listed.1, ?_⟩
    simp [isStale, left.1, outside, listed.2]

def roomyOptions : Mining.Options :=
  { nBlockMaxWeight := 4000000
    block_reserved_weight := 8000
    coinbase_output_max_additional_sigops := 400
    feeModel := Policy.defaultFeeModel
    nHeight := 1
    m_lock_time_cutoff := 0 }

/-- The candidate at which the selection stops in this state, and what `mi` leaves then. -/
def stop (options : Mining.Options) (entries : EntryMap) (before : Assembly) :
    Option (Candidate × Assembly) := do
  let (candidate, stopped) ← (choose options entries before).toOption.join
  let entry ← entries.lookup candidate.iter
  let min_fee ← mempoolEntryFee options.feeModel entry candidate.packageSize
  if (before.mi.head?.filter (isStale before)).isNone ∧ candidate.packageFees < min_fee then
    some (candidate, stopped)
  else none

theorem stopsShort_of_stop {stopped : Assembly} (visited : Visited options entries before)
    (stops : stop options entries before = some (candidate, stopped)) :
    StopsShort options entries before candidate stopped := by
  obtain ⟨choice, chooses, stops⟩ := Option.bind_eq_some_iff.mp stops
  obtain ⟨entry, found, stops⟩ := Option.bind_eq_some_iff.mp stops
  obtain ⟨min_fee, asked, stops⟩ := Option.bind_eq_some_iff.mp stops
  split at stops
  next short =>
    cases stops
    exact ⟨visited, Option.isNone_iff_eq_none.mp short.1,
      ok_of_toOption (Option.join_eq_some_iff.mp chooses), entry, min_fee, found, asked, short.2⟩
  · cases stops

theorem remaining_unlinked {contents : Contents bytes_per_sigop}
    (isUnlinked : contents.isUnlinked = true) (gone : Uint256 → Prop) (txid : Uint256) :
    remaining contents.ledger gone txid = packageWeight (contents.core txid) := by
  rw [remaining, tally_none fun other _ both => contents.not_above isUnlinked other txid both.1,
    add_zero]
  rfl

theorem stop_unlinked :
    (stop roomyOptions unlinked.pool.mapTx (.start roomyOptions unlinked.pool.mapTx)).map
        (fun stops => (stops.1.iter, stops.2.inBlock, stops.2.nBlockWeight,
          stops.2.nBlockSigOpsCost)) =
      some (1, [], 8000, 400) := by
  decide +kernel

/-- The selection ends with an empty block, and the payment of 1000 units with its fee of 1000
is left out. -/
theorem addPackageTxs_stops_short : Consistent unlinked.pool.mapTx unlinked.ledger 20 ∧
      ∃ candidate stopped, StopsShort roomyOptions unlinked.pool.mapTx
        (.start roomyOptions unlinked.pool.mapTx)
          candidate stopped ∧
        stopped.inBlock = [] ∧ candidate.iter = 1 ∧ (2 : Uint256) ∈ unlinked.ledger.txids ∧
          Acceptable roomyOptions unlinked.ledger stopped 2 := by
  obtain ⟨⟨candidate, stopped⟩, stops, fields⟩ := Option.map_eq_some_iff.mp stop_unlinked
  simp only [Prod.mk.injEq] at fields
  obtain ⟨isIter, isBlock, isWeight, isSigOps⟩ := fields
  refine ⟨unlinked.consistent, candidate, stopped, stopsShort_of_stop .refl stops, isBlock, isIter,
    by decide +kernel, ?_⟩
  have isUnlinked : unlinked.isUnlinked = true := by decide +kernel
  have alone := remaining_unlinked isUnlinked (· ∈ stopped.inBlock) 2
  refine ⟨?_, ?_, ?_⟩
  · unfold Pays
    rw [alone]
    exact ⟨100, by decide +kernel, by decide +kernel⟩
  · intro member inPackage
    rcases inPackage with rfl | ⟨above, _⟩
    · decide +kernel
    · exact absurd above (unlinked.not_above isUnlinked member 2)
  · rw [alone, testPackage, isWeight, isSigOps]
    decide +kernel

/-- Payments of 2000 coins, 1000 units and 1000 coins; only the first pays what it is asked. -/
def graded : Contents 20 where
  cores := [payment 3 [13] (2000 * COIN) 1000000, payment 2 [12] 1000 90,
    payment 1 [11] (1000 * COIN) 82]
  topological := by decide +kernel
  size_pos := by decide +kernel
  cost_nonneg := by decide +kernel
  sized := by decide +kernel
  few := by decide +kernel

theorem stop_graded :
    (advance roomyOptions graded.pool.mapTx 1).bind (fun before =>
        (stop roomyOptions graded.pool.mapTx before).map fun stops =>
          (before.inBlock, stops.1.iter)) =
      some ([3], 1) := by
  decide +kernel

theorem graded_asked {assembly : Assembly} (holds : Holds roomyOptions graded.ledger assembly) :
    AskedAsPaid roomyOptions graded.ledger assembly := by
  have isUnlinked : graded.isUnlinked = true := by decide +kernel
  have alone := remaining_unlinked isUnlinked (· ∈ assembly.inBlock)
  constructor
  case exact =>
    intro txid e found
    obtain ⟨_, ancestor, _, above⟩ := holds.modified txid (AList.lookup_isSome.mp (found ▸ rfl))
    exact absurd above (graded.not_above isUnlinked ancestor txid)
  case ordered =>
    intro first inPool second inPool' _ _ different
    have listed : first ∈ [3, 2, 1] := List.mem_toFinset.mp inPool
    have listed' : second ∈ [3, 2, 1] := List.mem_toFinset.mp inPool'
    rintro after ⟨min_fee, asked, short⟩ _ ⟨min_fee', asked', paid⟩
    unfold askedScore at after
    rw [alone] at after asked short asked' paid
    rw [alone] at after
    simp only [List.mem_cons, List.not_mem_nil, or_false] at listed listed'
    rcases listed with rfl | rfl | rfl
    · have pays : askedFee roomyOptions graded.ledger 3 (packageWeight (graded.core 3)).1 =
          some 1000000 := by decide +kernel
      cases pays.symm.trans asked
      exact absurd short (by decide +kernel)
    · rcases listed' with rfl | rfl | rfl
      · exact absurd after (by decide +kernel)
      · exact different rfl
      · exact absurd after (by decide +kernel)
    · rcases listed' with rfl | rfl | rfl
      · exact absurd after (by decide +kernel)
      · have minimum : askedFee roomyOptions graded.ledger 2 (packageWeight (graded.core 2)).1 =
            some 100 := by decide +kernel
        cases minimum.symm.trans asked'
        exact absurd paid (by decide +kernel)
      · exact different rfl

theorem addPackageTxs_stop_complete_graded : Consistent graded.pool.mapTx graded.ledger 20 ∧
      (∀ before, Visited roomyOptions graded.pool.mapTx before →
        AskedAsPaid roomyOptions graded.ledger before) ∧
      ∃ before candidate stopped,
        StopsShort roomyOptions graded.pool.mapTx before candidate stopped ∧
          before.inBlock = [3] ∧ candidate.iter = 1 ∧
          round roomyOptions graded.pool.mapTx before = .ok (.done stopped) ∧
          ∀ txid ∈ graded.ledger.txids, txid ∉ stopped.inBlock → txid ≠ candidate.iter →
            ¬Acceptable roomyOptions graded.ledger stopped txid := by
  have asked : ∀ before, Visited roomyOptions graded.pool.mapTx before →
      AskedAsPaid roomyOptions graded.ledger before :=
    fun _ visited => graded_asked (Visited.holds graded.consistent visited)
  refine ⟨graded.consistent, asked, ?_⟩
  obtain ⟨before, reached, rest⟩ := Option.bind_eq_some_iff.mp stop_graded
  obtain ⟨⟨candidate, stopped⟩, stops, fields⟩ := Option.map_eq_some_iff.mp rest
  simp only [Prod.mk.injEq] at fields
  have stopsShort := stopsShort_of_stop (visited_of_advance reached) stops
  exact ⟨before, candidate, stopped, stopsShort, fields.1, fields.2,
    addPackageTxs_stop_complete graded.consistent asked before candidate stopped stopsShort⟩

end Adonai.Mining
