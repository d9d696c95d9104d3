/-
The entries of a mempool from the transactions it holds.

The transactions are listed with the latest first, none spent by one after it in the list. Links
and aggregates are computed by recursion over the list, and the mempool is consistent.
-/

import Adonai.Mempool.Walks

namespace Adonai.Mempool

open Digraph Relation

instance (tx : CTransaction) (txid : Uint256) : Decidable (Spends tx txid) :=
  inferInstanceAs (Decidable (∃ txin ∈ tx.vin, txin.prevout.hash = txid))

def hashes (cores : List Core) : List Uint256 := cores.map fun core => core.tx.hash

variable {cores : List Core}

private theorem mem_hashes_cons {core : Core} {txid : Uint256} :
    txid ∈ hashes (core :: cores) ↔ txid = core.tx.hash ∨ txid ∈ hashes cores := List.mem_cons

private theorem mem_hashes_of_mem {core : Core} (member : core ∈ cores) :
    core.tx.hash ∈ hashes cores := List.mem_map_of_mem member

/-- No transaction shares its hash with an earlier one or is spent by it. -/
def Topological : List Core → Prop
  | [] => True
  | core :: earlier =>
    (core.tx.hash ∉ hashes earlier ∧ ¬ Spends core.tx core.tx.hash ∧
      ∀ other ∈ earlier, ¬ Spends other.tx core.tx.hash) ∧ Topological earlier

instance decidableTopological : (cores : List Core) → Decidable (Topological cores)
  | [] => inferInstanceAs (Decidable True)
  | _ :: earlier =>
    have := decidableTopological earlier
    inferInstanceAs (Decidable (_ ∧ Topological earlier))

theorem Topological.nodup (topological : Topological cores) : (hashes cores).Nodup := by
  induction cores with
  | nil => exact List.nodup_nil
  | cons core earlier ih => exact List.nodup_cons.mpr ⟨topological.1.1, ih topological.2⟩

def isParent : List Core → Uint256 → Uint256 → Bool
  | [], _, _ => false
  | core :: earlier, source, target =>
    if target = core.tx.hash then
      decide (source ∈ hashes earlier) && decide (Spends core.tx source)
    else isParent earlier source target

def isAbove : List Core → Uint256 → Uint256 → Bool
  | [], _, _ => false
  | core :: earlier, source, target =>
    if target = core.tx.hash then
      (hashes earlier).any fun parent =>
        decide (Spends core.tx parent) && (source == parent || isAbove earlier source parent)
    else isAbove earlier source target

theorem isParent_inside {source target : Uint256} (linked : isParent cores source target = true) :
    source ∈ hashes cores ∧ target ∈ hashes cores := by
  induction cores with
  | nil => cases linked
  | cons core earlier ih =>
    rw [isParent] at linked
    split at linked
    next same =>
      rw [Bool.and_eq_true, decide_eq_true_eq] at linked
      exact ⟨List.mem_cons_of_mem _ linked.1, same ▸ List.mem_cons_self⟩
    · exact ⟨List.mem_cons_of_mem _ (ih linked).1, List.mem_cons_of_mem _ (ih linked).2⟩

theorem isParent_cons {core : Core} {earlier : List Core} (fresh : core.tx.hash ∉ hashes earlier) :
    (fun source target => isParent (core :: earlier) source target = true) =
      withSink (fun source target => isParent earlier source target = true) core.tx.hash
        (fun source => source ∈ hashes earlier ∧ Spends core.tx source) := by
  funext source target
  apply propext
  rw [isParent]
  split
  next same =>
    rw [Bool.and_eq_true, decide_eq_true_eq, decide_eq_true_eq]
    constructor
    · intro both
      exact .inr ⟨same, both⟩
    · intro either
      rcases either with linked | ⟨_, both⟩
      · exact absurd (same ▸ (isParent_inside linked).2) fresh
      · exact both
  next different =>
    constructor
    · exact Or.inl
    · intro either
      exact either.resolve_right fun entered => different entered.1

theorem not_isParent_of_fresh {txid : Uint256} (fresh : txid ∉ hashes cores) (target : Uint256) :
      ¬ isParent cores txid target = true :=
  fun linked => fresh (isParent_inside linked).1

theorem isAbove_iff (topological : Topological cores) (source target : Uint256) :
    isAbove cores source target = true ↔
      TransGen (fun source target => isParent cores source target = true) source target := by
  induction cores generalizing source target with
  | nil =>
    refine iff_of_false nofun ?_
    intro path
    obtain ⟨_, step, _⟩ := TransGen.head'_iff.mp path
    cases step
  | cons core earlier ih =>
    obtain ⟨⟨fresh, _, _⟩, rest⟩ := topological
    rw [isParent_cons fresh, transGen_withSink (not_isParent_of_fresh fresh) fun entered =>
      fresh entered.1, isAbove]
    split
    next same =>
      have first : ¬ TransGen (fun source target => isParent earlier source target = true) source
          target := by
        intro path
        obtain ⟨_, _, step⟩ := TransGen.tail'_iff.mp path
        exact fresh (same ▸ (isParent_inside step).2)
      rw [or_iff_right first, and_iff_right same, List.any_eq_true]
      refine exists_congr fun parent => ?_
      rw [Bool.and_eq_true, decide_eq_true_eq, Bool.or_eq_true, beq_iff_eq, ih rest,
        reflTransGen_iff_eq_or_transGen, and_assoc, eq_comm]
    next different =>
      rw [ih rest, or_iff_left fun sink => different sink.1]

theorem isParent_acyclic (topological : Topological cores) :
    Acyclic fun source target => isParent cores source target = true := by
  induction cores with
  | nil =>
    intro txid path
    obtain ⟨_, step, _⟩ := TransGen.head'_iff.mp path
    cases step
  | cons core earlier ih =>
    obtain ⟨⟨fresh, _, _⟩, rest⟩ := topological
    rw [isParent_cons fresh]
    exact (ih rest).withSink (not_isParent_of_fresh fresh) fun entered => fresh entered.1

/-- The transactions of a mempool, the latest first. -/
structure Contents (bytes_per_sigop : Nat) where
  cores : List Core
  time : Uint256 → Int := fun _ => 0
  topological : Topological cores
  size_pos : ∀ core ∈ cores, 0 < core.nTxSize
  cost_nonneg : ∀ core ∈ cores, 0 ≤ core.sigOpCost
  sized : ∀ core ∈ cores, core.nTxSize =
    getVirtualTransactionSize core.tx.getTransactionWeight core.sigOpCost.toNat bytes_per_sigop
  few : cores.length ≤ 2 ^ 60

namespace Contents

variable {bytes_per_sigop : Nat} (contents : Contents bytes_per_sigop)

def absent : Core :=
  { tx := { vin := [], vout := [], version := 0, nLockTime := 0, hash := 0 }
    nFee := 0
    nTxSize := 0
    sigOpCost := 0
    m_modified_fee := 0 }

def core (txid : Uint256) : Core :=
  (contents.cores.find? fun core => core.tx.hash == txid).getD absent

def related (relation : Uint256 → Bool) : List Uint256 := (hashes contents.cores).filter relation

def entryOf (core : Core) : CTxMemPoolEntry :=
  let txid := core.tx.hash
  let above := contents.related (isAbove contents.cores · txid)
  let below := contents.related (isAbove contents.cores txid ·)
  let ancestors := core.ancestorWeight +
    (above.map fun other => (contents.core other).ancestorWeight).sum
  let descendants := core.descendantWeight +
    (below.map fun other => (contents.core other).descendantWeight).sum
  { tx := core.tx
    m_parents := OrderedSet.empty.insertAll (contents.related (isParent contents.cores · txid))
    m_children := OrderedSet.empty.insertAll (contents.related (isParent contents.cores txid ·))
    nFee := core.nFee
    nTxSize := core.nTxSize
    nTime := contents.time txid
    spendsCoinbase := false
    sigOpCost := core.sigOpCost
    m_modified_fee := core.m_modified_fee
    lockPoints := { height := 0, time := 0, maxInputBlock := none }
    m_count_with_descendants := descendants.1
    nSizeWithDescendants := descendants.2.1
    nModFeesWithDescendants := descendants.2.2
    m_count_with_ancestors := ancestors.1
    nSizeWithAncestors := ancestors.2.1
    nModFeesWithAncestors := ancestors.2.2.1
    nSigOpCostWithAncestors := ancestors.2.2.2 }

def written : List Core → EntryMap
  | [] => ∅
  | core :: rest => (written rest).insert core.tx.hash (contents.entryOf core)

def entries : EntryMap := contents.written contents.cores

def nextTx : AList fun _ : COutPoint => CTransaction :=
  contents.cores.foldr (fun core spent =>
    core.tx.vin.foldr (fun txin spent => spent.insert txin.prevout core.tx) spent) ∅

/-- A mempool without prioritisations that never was full. -/
def pool : CTxMemPool :=
  { CTxMemPool.new with
    mapTx := contents.entries
    mapNextTx := contents.nextTx
    totalTxSize := (contents.cores.map Core.nTxSize).sum
    m_total_fee := (contents.cores.map Core.nFee).sum }

variable {cores : List Core}

theorem find_of_mem (nodup : (hashes cores).Nodup) {core : Core} (member : core ∈ cores) :
    cores.find? (fun other => other.tx.hash == core.tx.hash) = some core := by
  induction cores with
  | nil => cases member
  | cons first rest ih =>
    obtain ⟨fresh, restNodup⟩ := List.nodup_cons.mp nodup
    rw [List.find?_cons]
    rcases List.mem_cons.mp member with same | later
    · rw [same, beq_self_eq_true]
    have different : first.tx.hash ≠ core.tx.hash := by
      intro same
      apply fresh
      change first.tx.hash ∈ hashes rest
      rw [same]
      exact mem_hashes_of_mem later
    rw [beq_false_of_ne different]
    exact ih restNodup later

private theorem core_of_mem {core : Core} (member : core ∈ contents.cores) :
    contents.core core.tx.hash = core := by
  rw [Contents.core, find_of_mem contents.topological.nodup member, Option.getD_some]

variable {txid : Uint256}

theorem exists_core (member : txid ∈ hashes contents.cores) :
    contents.core txid ∈ contents.cores ∧ (contents.core txid).tx.hash = txid := by
  obtain ⟨core, listed, rfl⟩ := List.mem_map.mp member
  rw [contents.core_of_mem listed]
  exact ⟨listed, rfl⟩

def ledger : Ledger where
  txids := (hashes contents.cores).toFinset
  core := contents.core
  parent := fun source target => isParent contents.cores source target = true
  child := fun source target => isParent contents.cores source target = true
  above := TransGen fun source target => isParent contents.cores source target = true
  below := TransGen fun source target => isParent contents.cores source target = true
  ancestorLag := fun _ => 0
  descendantLag := fun _ => 0
  hash_core := fun _ member => (contents.exists_core (List.mem_toFinset.mp member)).2
  size_pos := fun _ member =>
    contents.size_pos _ (contents.exists_core (List.mem_toFinset.mp member)).1
  cost_nonneg := fun _ member =>
    contents.cost_nonneg _ (contents.exists_core (List.mem_toFinset.mp member)).1
  few := by
    refine (List.toFinset_card_le _).trans ?_
    rw [hashes, List.length_map]
    exact contents.few

variable {relation : Uint256 → Bool}

private theorem mem_related :
    txid ∈ contents.related relation ↔ txid ∈ hashes contents.cores ∧ relation txid = true :=
  List.mem_filter

theorem tally_related {M : Type} [AddCommGroup M] (weight : Uint256 → M) {counts : Uint256 → Prop}
    (same : ∀ txid, relation txid = true ↔ counts txid) :
    tally contents.ledger.txids weight counts = ((contents.related relation).map weight).sum := by
  have inside : ∀ txid ∈ contents.related relation, txid ∈ contents.ledger.txids :=
    fun txid listed => List.mem_toFinset.mpr (contents.mem_related.mp listed).1
  have nodup : (contents.related relation).Nodup := contents.topological.nodup.filter relation
  rw [← tally_list nodup inside]
  refine tally_congr ?_
  intro txid member
  rw [contents.mem_related, and_iff_right (List.mem_toFinset.mp member), same]

theorem mem_links {other : Uint256}
    (inside : relation other = true → other ∈ hashes contents.cores) :
    other ∈ (OrderedSet.empty.insertAll (contents.related relation) : SetEntries) ↔
      relation other = true := by
  rw [OrderedSet.mem_insertAll, or_iff_left (OrderedSet.not_mem_empty other), contents.mem_related,
    and_iff_right_of_imp inside]

theorem entryOf_matches {core : Core} (member : core ∈ contents.cores) :
    EntryMatches contents.ledger core.tx.hash (contents.entryOf core) where
  core := (contents.core_of_mem member).symm
  parents _ := contents.mem_links fun linked => (isParent_inside linked).1
  children _ := contents.mem_links fun linked => (isParent_inside linked).2
  ancestors := by
    have counted := contents.tally_related (fun other => (contents.core other).ancestorWeight)
      fun other => isAbove_iff contents.topological other core.tx.hash
    change core.ancestorWeight + _ = (contents.core core.tx.hash).ancestorWeight +
      tally contents.ledger.txids _ _ - 0
    rw [sub_zero, contents.core_of_mem member]
    exact congrArg (core.ancestorWeight + ·) counted.symm
  descendants := by
    have counted := contents.tally_related (fun other => (contents.core other).descendantWeight)
      fun other => isAbove_iff contents.topological core.tx.hash other
    change core.descendantWeight + _ = (contents.core core.tx.hash).descendantWeight +
      tally contents.ledger.txids _ _ - 0
    rw [sub_zero, contents.core_of_mem member]
    exact congrArg (core.descendantWeight + ·) counted.symm

theorem mem_written : txid ∈ contents.written cores ↔ txid ∈ hashes cores := by
  induction cores with
  | nil => exact iff_of_false (AList.notMem_empty txid) List.not_mem_nil
  | cons core rest ih => rw [written, AList.mem_insert, ih, mem_hashes_cons]

theorem written_matches (inside : ∀ core ∈ cores, core ∈ contents.cores) {entry : CTxMemPoolEntry}
    (found : (contents.written cores).lookup txid = some entry) :
    EntryMatches contents.ledger txid entry := by
  induction cores with
  | nil =>
    cases found
  | cons core rest ih =>
    rw [List.forall_mem_cons] at inside
    rw [written] at found
    by_cases same : txid = core.tx.hash
    · subst same
      rw [AList.lookup_insert] at found
      cases found
      exact contents.entryOf_matches inside.1
    · rw [AList.lookup_insert_ne same] at found
      exact ih inside.2 found

theorem represents : Represents contents.entries contents.ledger where
  present _ := contents.mem_written.trans List.mem_toFinset.symm
  entry _ _ found := contents.written_matches (fun _ => id) found

theorem isParent_iff (topological : Topological cores) {core : Core} (member : core ∈ cores)
    (source : Uint256) :
    isParent cores source core.tx.hash = true ↔ source ∈ hashes cores ∧ Spends core.tx source := by
  induction cores with
  | nil => cases member
  | cons latest earlier ih =>
    obtain ⟨⟨fresh, notItself, notEarlier⟩, rest⟩ := topological
    rw [isParent, mem_hashes_cons]
    rcases List.mem_cons.mp member with same | before
    · subst same
      rw [if_pos rfl, Bool.and_eq_true, decide_eq_true_eq, decide_eq_true_eq]
      refine and_congr_left fun spends => (or_iff_right ?_).symm
      intro self
      exact notItself (self ▸ spends)
    · have different : core.tx.hash ≠ latest.tx.hash := by
        intro same
        exact fresh (same ▸ mem_hashes_of_mem before)
      rw [if_neg different, ih rest before]
      refine and_congr_left fun spends => (or_iff_right ?_).symm
      intro self
      exact notEarlier core before (self ▸ spends)

theorem consistent : Consistent contents.pool.mapTx contents.ledger bytes_per_sigop where
  represents := contents.represents
  parent source target := by
    change isParent contents.cores source target = true ↔
      source ∈ (hashes contents.cores).toFinset ∧ target ∈ (hashes contents.cores).toFinset ∧
        Spends (contents.core target).tx source
    rw [List.mem_toFinset, List.mem_toFinset]
    constructor
    · intro linked
      obtain ⟨first, second⟩ := isParent_inside linked
      obtain ⟨listed, hash⟩ := contents.exists_core second
      rw [← hash, isParent_iff contents.topological listed] at linked
      exact ⟨first, second, linked.2⟩
    · intro spending
      obtain ⟨first, second, spends⟩ := spending
      obtain ⟨listed, hash⟩ := contents.exists_core second
      rw [← hash, isParent_iff contents.topological listed]
      exact ⟨first, spends⟩
  child := rfl
  above := rfl
  below := rfl
  ancestorLag _ := rfl
  descendantLag _ := rfl
  acyclic := isParent_acyclic contents.topological
  sized _ member := contents.sized _ (contents.exists_core (List.mem_toFinset.mp member)).1

theorem of_above {holds : Uint256 → Uint256 → Bool}
    (all : ((hashes contents.cores).all fun source => (hashes contents.cores).all fun target =>
      !isAbove contents.cores source target || holds source target) = true)
    {source target : Uint256} (above : contents.ledger.above source target) :
    holds source target = true := by
  obtain ⟨inside, listed⟩ := contents.consistent.above_inside above
  have pair := List.all_eq_true.mp (List.all_eq_true.mp all source (List.mem_toFinset.mp inside))
    target (List.mem_toFinset.mp listed)
  rwa [(isAbove_iff contents.topological source target).mpr above] at pair

def isUnlinked : Bool :=
  contents.cores.all fun core => core.tx.vin.all fun txin =>
    !(hashes contents.cores).contains txin.prevout.hash

theorem not_above (isUnlinked : contents.isUnlinked = true) (source target : Uint256) :
    ¬contents.ledger.above source target := by
  intro path
  obtain ⟨next, step, _⟩ := TransGen.head'_iff.mp path
  obtain ⟨known, listed, txin, spent, rfl⟩ := (contents.consistent.parent source next).mp step
  simp only [Contents.isUnlinked, List.all_eq_true] at isUnlinked
  have outside := isUnlinked _ (contents.exists_core (List.mem_toFinset.mp listed)).1 txin spent
  simp [List.mem_toFinset.mp known] at outside

end Contents

def payment (hash : Uint256) (spent : List Uint256) (nValue fee : Int) : Core :=
  { tx :=
      { vin := spent.map fun txid => { prevout := { hash := txid, n := 0 }, scriptSig := []
                                       nSequence := 0xffffffff, scriptWitness := [] }
        vout := [{ nValue := nValue, scriptPubKey := 0x00 :: 0x14 :: List.replicate 20 0x01 }]
        version := 2
        nLockTime := 0
        hash := hash }
    nFee := fee
    nTxSize := 41 * (spent.length + 1)
    sigOpCost := 4
    m_modified_fee := fee }

/-- The first pays 1000 coins and a fee of 82, the second 1000 units and a fee of 1000. -/
def unlinked : Contents 20 where
  cores := [payment 2 [12] 1000 1000, payment 1 [11] (1000 * COIN) 82]
  topological := by decide +kernel
  size_pos := by decide +kernel
  cost_nonneg := by decide +kernel
  sized := by decide +kernel
  few := by decide +kernel

/-- A transaction with a child that entered later, and one that pays far more. -/
def family : Contents 20 where
  cores := [payment 3 [13] (1000 * COIN) 600000, payment 2 [1, 12] (10 * COIN) 400,
    payment 1 [11] 1000 82]
  time txid := if txid = 1 then 0 else 5
  topological := by decide +kernel
  size_pos := by decide +kernel
  cost_nonneg := by decide +kernel
  sized := by decide +kernel
  few := by decide +kernel

end Adonai.Mempool
