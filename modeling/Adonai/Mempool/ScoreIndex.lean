/-
The two score indexes of `mapTx` and the fee model they are sorted by.

Every operation of the mempool inserts, erases and modifies single entries. Both comparators ask
the installed fee model, which `setfeemodel` replaces without touching `mapTx`. A comparison whose
fee computation is undefined halts.
-/

import Adonai.Foundation.SearchTree
import Adonai.Mining.Assembler
import Adonai.Policy.InstalledModel
import Mathlib.Data.Prod.Lex

namespace Adonai.Mempool

open OrderedIndex SearchTree Program
open Policy (FeeModel callSetfeemodel)
open Mining (mempoolEntryFee)

def descendantScore (model : FeeModel) (entry : CTxMemPoolEntry) : Option Int := do
  let withDescendants ← mempoolEntryFee model entry entry.nSizeWithDescendants
  let alone ← mempoolEntryFee model entry entry.nTxSize
  pure (max withDescendants alone)

def ancestorScore (model : FeeModel) (entry : CTxMemPoolEntry) : Option Int := do
  let withAncestors ← mempoolEntryFee model entry entry.nSizeWithAncestors
  let alone ← mempoolEntryFee model entry entry.nTxSize
  pure (min withAncestors alone)

def compareByDescendantScore (model : FeeModel) (a b : CTxMemPoolEntry) : Option Bool := do
  let f1 ← descendantScore model a
  let f2 ← descendantScore model b
  pure (if f1 = f2 then decide (a.nTime ≥ b.nTime) else decide (f1 < f2))

def compareByAncestorFee (model : FeeModel) (a b : CTxMemPoolEntry) : Option Bool := do
  let f1 ← ancestorScore model a
  let f2 ← ancestorScore model b
  pure (if f1 = f2 then decide (a.tx.hash.memcmpRank < b.tx.hash.memcmpRank) else decide (f1 > f2))

abbrev Comparator := CTxMemPoolEntry → CTxMemPoolEntry → Option Bool

def compareIn (compare : Comparator) (entries : EntryMap) (x y : Uint256) : Option Bool :=
  match entries.lookup x, entries.lookup y with
  | some a, some b => compare a b
  | _, _ => none

/-- A modification of an entry; the transaction of an entry is constant. -/
structure Change where
  change : CTxMemPoolEntry → Except PoolHalt CTxMemPoolEntry
  keeps : ∀ entry changed, change entry = .ok changed → changed.tx = entry.tx

/-- The ways `mapTx` is changed. The links of an entry are written in place, past the indexes. -/
inductive Edit where
  | insert (entry : CTxMemPoolEntry)
  | erase (txid : Uint256)
  | modify (txid : Uint256) (change : Change)
  | relink (txid : Uint256) (m_parents m_children : SetEntries)

def CTxMemPoolEntry.relinked (m_parents m_children : SetEntries) (entry : CTxMemPoolEntry) :
    CTxMemPoolEntry :=
  { entry with m_parents := m_parents, m_children := m_children }

def Edit.apply (entries : EntryMap) : Edit → Option EntryMap
  | .insert entry =>
    if entry.tx.hash ∈ entries then none else some (entries.insert entry.tx.hash entry)
  | .erase txid => if txid ∈ entries then some (entries.erase txid) else none
  | .modify txid change => do
    let entry ← entries.lookup txid
    let changed ← (change.change entry).toOption
    pure (entries.insert txid changed)
  | .relink txid m_parents m_children => do
    let entry ← entries.lookup txid
    pure (entries.insert txid (entry.relinked m_parents m_children))

/-- What an edit does to an index. -/
def Edit.place (balancing : Balancing Uint256) (before : Uint256 → Uint256 → Option Bool)
    (tree : BinaryTree Uint256) : Edit → Option (BinaryTree Uint256)
  | .insert entry => add balancing before entry.tx.hash tree
  | .erase txid => some (balancing.unlink txid tree)
  | .modify txid _ => update balancing before txid tree
  | .relink _ _ _ => some tree

def Edit.compares : Edit → Bool
  | .insert _ | .modify _ _ => true
  | .erase _ | .relink _ _ _ => false

structure IndexedSet where
  entries : EntryMap
  descendant_score : BinaryTree Uint256
  ancestor_score : BinaryTree Uint256

/-- Nothing when the edit does not apply or a comparison is undefined. -/
def IndexedSet.edit (balancing : Balancing Uint256) (model : FeeModel) (edit : Edit)
    (set : IndexedSet) : Option IndexedSet := do
  let entries ← edit.apply set.entries
  let descendant_score ← edit.place balancing (compareIn (compareByDescendantScore model) entries)
    set.descendant_score
  let ancestor_score ← edit.place balancing (compareIn (compareByAncestorFee model) entries)
    set.ancestor_score
  pure { entries, descendant_score, ancestor_score }

structure ScoredPool where
  g_fee_model : FeeModel
  mapTx : IndexedSet

def ScoredPool.new (model : FeeModel) : ScoredPool :=
  { g_fee_model := model
    mapTx := { entries := ∅, descendant_score := .nil, ancestor_score := .nil } }

inductive PoolStep where
  | edit (edit : Edit)
  | setfeemodel (params : Policy.FeeModelParams)

structure Environment where
  balancing : Balancing Uint256
  isTestChain : Bool
  parseDouble : Policy.ReadDouble

variable (env : Environment)

def ScoredPool.setfeemodel (params : Policy.FeeModelParams) (pool : ScoredPool) : ScoredPool :=
  { pool with
    g_fee_model := callSetfeemodel env.isTestChain env.parseDouble pool.g_fee_model params }

def ScoredPool.step (pool : ScoredPool) : PoolStep → Option ScoredPool
  | .edit edit =>
    (pool.mapTx.edit env.balancing pool.g_fee_model edit).map fun mapTx =>
      { pool with mapTx := mapTx }
  | .setfeemodel params => some (pool.setfeemodel env params)

/-- Every entry is listed where the comparator puts it: before all that come after. -/
def Lists (compare : Comparator) (entries : EntryMap) (nodes : List Uint256) : Prop :=
  nodes.Pairwise fun x y => compareIn compare entries x y = some true

instance (compare : Comparator) (entries : EntryMap) (nodes : List Uint256) :
    Decidable (Lists compare entries nodes) :=
  inferInstanceAs (Decidable (nodes.Pairwise _))

/-- Both indexes list their entries in the order of the installed model. -/
def ScoredPool.Consistent (pool : ScoredPool) : Prop :=
  Lists (compareByDescendantScore pool.g_fee_model) pool.mapTx.entries
      (inorder pool.mapTx.descendant_score) ∧
    Lists (compareByAncestorFee pool.g_fee_model) pool.mapTx.entries
      (inorder pool.mapTx.ancestor_score)

instance (pool : ScoredPool) : Decidable pool.Consistent := inferInstanceAs (Decidable (_ ∧ _))

/-- The steps go through, and the indexes are consistent in every state. -/
def StaysConsistent : ScoredPool → List PoolStep → Prop
  | pool, [] => pool.Consistent
  | pool, step :: steps =>
    pool.Consistent ∧
      match pool.step env step with
      | some next => StaysConsistent next steps
      | none => False

instance decidableStaysConsistent :
    (pool : ScoredPool) → (steps : List PoolStep) → Decidable (StaysConsistent env pool steps)
  | pool, [] => inferInstanceAs (Decidable pool.Consistent)
  | pool, step :: steps =>
    have : Decidable
        (match pool.step env step with
        | some next => StaysConsistent env next steps
        | none => False) :=
      match pool.step env step with
      | some next => decidableStaysConsistent next steps
      | none => inferInstanceAs (Decidable False)
    inferInstanceAs (Decidable (_ ∧ _))

/-! ### The condition -/

def isScored (model : FeeModel) (entry : CTxMemPoolEntry) : Bool :=
  (descendantScore model entry).isSome && (ancestorScore model entry).isSome

/-- A single entry is never compared. -/
def allScored (model : FeeModel) (entries : EntryMap) : Bool :=
  decide (entries.keys.length < 2) || entries.entries.all fun item => isScored model item.2

def keepsOrder (old new : Comparator) (entries : EntryMap) : Bool :=
  entries.entries.all fun a => entries.entries.all fun b =>
    a.1 == b.1 || old a.2 b.2 != some true || new a.2 b.2 == some true

/-- The scores an edit compares are defined, and a new model puts no two entries in another
order than the one before. -/
def safeStep (pool : ScoredPool) : PoolStep → Bool
  | .edit edit =>
    !edit.compares || (edit.apply pool.mapTx.entries).all (allScored pool.g_fee_model)
  | .setfeemodel params =>
    keepsOrder (compareByDescendantScore pool.g_fee_model)
        (compareByDescendantScore (pool.setfeemodel env params).g_fee_model) pool.mapTx.entries &&
      keepsOrder (compareByAncestorFee pool.g_fee_model)
        (compareByAncestorFee (pool.setfeemodel env params).g_fee_model) pool.mapTx.entries

def safeRun : ScoredPool → List PoolStep → Bool
  | _, [] => true
  | pool, step :: steps => safeStep env pool step && (pool.step env step).all (safeRun · steps)

/-! ### The order of an index -/

section Keys

variable (model : FeeModel)

def descendantKey (entry : CTxMemPoolEntry) : Int ×ₗ Int :=
  toLex ((descendantScore model entry).getD 0, -entry.nTime)

def ancestorKey (entry : CTxMemPoolEntry) : Int ×ₗ Nat :=
  toLex (-(ancestorScore model entry).getD 0, entry.tx.hash.memcmpRank)

variable {model} {a b : CTxMemPoolEntry} (aScored : isScored model a = true)
  (bScored : isScored model b = true)

include aScored bScored

theorem compareByDescendantScore_eq : compareByDescendantScore model a b =
      some (decide (descendantKey model a ≤ descendantKey model b)) := by
  rw [isScored, Bool.and_eq_true] at aScored bScored
  obtain ⟨f1, isF1⟩ := Option.isSome_iff_exists.mp aScored.1
  obtain ⟨f2, isF2⟩ := Option.isSome_iff_exists.mp bScored.1
  simp only [compareByDescendantScore, isF1, isF2, descendantKey, Prod.Lex.toLex_le_toLex,
    Option.pure_def]
  by_cases same : f1 = f2
  · simp [same]
  · simp [same]

theorem compareByAncestorFee_eq (different : a.tx.hash ≠ b.tx.hash) :
    compareByAncestorFee model a b = some (decide (ancestorKey model a ≤ ancestorKey model b)) := by
  rw [isScored, Bool.and_eq_true] at aScored bScored
  obtain ⟨f1, isF1⟩ := Option.isSome_iff_exists.mp aScored.2
  obtain ⟨f2, isF2⟩ := Option.isSome_iff_exists.mp bScored.2
  have ranks : a.tx.hash.memcmpRank ≠ b.tx.hash.memcmpRank := fun same =>
    different (memcmpRank_injective same)
  simp only [compareByAncestorFee, isF1, isF2, ancestorKey, Prod.Lex.toLex_le_toLex,
    Option.bind_eq_bind, Option.pure_def, neg_inj]
  by_cases same : f1 = f2
  · simp [same]
    omega
  · simp [same]

end Keys

variable {env} {txid : Uint256} {entry : CTxMemPoolEntry} {entries after : EntryMap}

theorem two_le_of_ne {x y : Uint256} (xMember : x ∈ entries) (yMember : y ∈ entries)
    (different : x ≠ y) : 2 ≤ entries.keys.length := by
  have both : [x, y] ⊆ entries.keys := by
    simp [AList.mem_keys.mp xMember, AList.mem_keys.mp yMember]
  have pair : [x, y].Nodup := by simpa using different
  exact (pair.subperm both).length_le

section Index

variable {κ : Type} [LinearOrder κ] [Inhabited κ] {compare : Comparator} {key : CTxMemPoolEntry → κ}
  {nodes : List Uint256} {x y : Uint256}

def keyIn (key : CTxMemPoolEntry → κ) (entries : EntryMap) (txid : Uint256) : κ :=
  (entries.lookup txid).elim default key

def Decides (compare : Comparator) (key : CTxMemPoolEntry → κ) (entries : EntryMap) : Prop :=
  ∀ x ∈ entries, ∀ y ∈ entries, x ≠ y →
    compareIn compare entries x y = some (decide (keyIn key entries x ≤ keyIn key entries y))

theorem lists_iff_sorted (decides : Decides compare key entries) (distinct : nodes.Nodup)
    (members : ∀ x ∈ nodes, x ∈ entries) :
    Lists compare entries nodes ↔ Sorted (keyIn key entries) nodes := by
  have pair : ∀ x ∈ nodes, ∀ y ∈ nodes, x ≠ y →
      (compareIn compare entries x y = some true ↔ keyIn key entries x ≤ keyIn key entries y) := by
    intro x xMember y yMember different
    rw [decides x (members x xMember) y (members y yMember) different, Option.some.injEq,
      decide_eq_true_iff]
  constructor
  · intro lists
    exact (lists.and distinct).imp_of_mem fun xMember yMember both =>
      (pair _ xMember _ yMember both.2).mp both.1
  · intro sorted
    exact (List.Pairwise.and sorted distinct).imp_of_mem fun xMember yMember both =>
      (pair _ xMember _ yMember both.2).mpr both.1

theorem lists_congr {others : EntryMap} (same : ∀ x ∈ nodes, others.lookup x = entries.lookup x)
    (lists : Lists compare entries nodes) : Lists compare others nodes := by
  refine List.Pairwise.imp_of_mem ?_ lists
  intro x y xMember yMember before
  unfold compareIn at before ⊢
  rw [same x xMember, same y yMember]
  exact before

theorem lists_insert (notListed : txid ∉ nodes) (lists : Lists compare entries nodes) :
    Lists compare (entries.insert txid entry) nodes := by
  apply lists_congr _ lists
  intro x member
  exact AList.lookup_insert_ne fun same => notListed (same ▸ member)

/-- A comparator that does not look at the links of the entries. -/
def IgnoresLinks (compare : Comparator) : Prop :=
  ∀ a b m_parents m_children, compare (a.relinked m_parents m_children) b = compare a b ∧
    compare b (a.relinked m_parents m_children) = compare b a

theorem compareIn_relink (ignores : IgnoresLinks compare) (found : entries.lookup txid = some entry)
    (m_parents m_children : SetEntries) (x y : Uint256) :
    compareIn compare (entries.insert txid (entry.relinked m_parents m_children)) x y =
      compareIn compare entries x y := by
  unfold compareIn
  rcases eq_or_ne x txid with rfl | isX
  · rw [AList.lookup_insert, found]
    rcases eq_or_ne y x with rfl | isY
    · rw [AList.lookup_insert, found]
      exact (ignores _ _ _ _).1.trans (ignores _ _ _ _).2
    · rw [AList.lookup_insert_ne isY]
      cases entries.lookup y with
      | none => rfl
      | some b => exact (ignores entry b _ _).1
  · rw [AList.lookup_insert_ne isX]
    rcases eq_or_ne y txid with rfl | isY
    · rw [AList.lookup_insert, found]
      cases entries.lookup x with
      | none => rfl
      | some a => exact (ignores entry a _ _).2
    · rw [AList.lookup_insert_ne isY]

/-- A tree with the keys of the entries that lists them in order. -/
structure Orders (compare : Comparator) (entries : EntryMap) (tree : BinaryTree Uint256) :
    Prop where
  listed : (inorder tree).Perm entries.keys
  lists : Lists compare entries (inorder tree)

namespace Orders

variable (balancing : Balancing Uint256) {tree : BinaryTree Uint256}
  (orders : Orders compare entries tree)

include orders

theorem distinct : (inorder tree).Nodup := orders.listed.nodup_iff.mpr entries.keys_nodup

private theorem mem_iff : txid ∈ inorder tree ↔ txid ∈ entries := by
  rw [orders.listed.mem_iff]
  exact AList.mem_keys.symm

theorem add (isNew : txid ∉ entries) (decides : Decides compare key (entries.insert txid entry)) :
    ∃ after, add balancing (compareIn compare (entries.insert txid entry)) txid tree = some after ∧
      Orders compare (entries.insert txid entry) after := by
  have notListed : txid ∉ inorder tree := fun member => isNew (orders.mem_iff.mp member)
  have inside : ∀ x ∈ inorder tree, x ∈ entries.insert txid entry := fun x member =>
    (AList.mem_insert _).mpr (.inr (orders.mem_iff.mp member))
  have sorted := (lists_iff_sorted decides orders.distinct inside).mp
    (lists_insert notListed orders.lists)
  obtain ⟨after, adds, afterSorted, perm⟩ := add_eq balancing sorted fun other member =>
    decides txid ((AList.mem_insert _).mpr (.inl rfl)) other (inside other member)
      fun same => notListed (same ▸ member)
  have listed : (inorder after).Perm (entries.insert txid entry).keys := by
    rw [AList.keys_insert, List.erase_of_not_mem fun member => isNew (AList.mem_keys.mpr member)]
    exact perm.trans (orders.listed.cons txid)
  refine ⟨after, adds, listed, (lists_iff_sorted decides ?_ ?_).mpr afterSorted⟩
  · exact listed.nodup_iff.mpr (AList.keys_nodup _)
  · exact fun x member => AList.mem_keys.mpr (listed.mem_iff.mp member)

theorem update (isOld : txid ∈ entries)
    (decides : Decides compare key (entries.insert txid entry)) : ∃ after,
      update balancing (compareIn compare (entries.insert txid entry)) txid tree = some after ∧
      Orders compare (entries.insert txid entry) after := by
  have inside : ∀ x ∈ inorder tree, x ∈ entries.insert txid entry := fun x member =>
    (AList.mem_insert _).mpr (.inr (orders.mem_iff.mp member))
  have here : txid ∈ entries.insert txid entry := (AList.mem_insert _).mpr (.inl rfl)
  have others : Sorted (keyIn key (entries.insert txid entry)) ((inorder tree).erase txid) := by
    apply (lists_iff_sorted decides (orders.distinct.erase txid) _).mp
    · exact lists_insert (List.Nodup.not_mem_erase orders.distinct)
        (List.Pairwise.sublist List.erase_sublist orders.lists)
    · exact fun x inOthers => inside x (List.mem_of_mem_erase inOthers)
  obtain ⟨after, updates, afterSorted, perm⟩ := update_eq balancing orders.distinct
    (orders.mem_iff.mpr isOld) others fun other inTree different =>
      ⟨decides txid here other (inside other inTree) (Ne.symm different),
        decides other (inside other inTree) txid here different⟩
  have listed : (inorder after).Perm (entries.insert txid entry).keys := by
    rw [AList.keys_insert]
    exact perm.trans (orders.listed.trans (List.perm_cons_erase (AList.mem_keys.mp isOld)))
  refine ⟨after, updates, listed, (lists_iff_sorted decides ?_ ?_).mpr afterSorted⟩
  · exact listed.nodup_iff.mpr (AList.keys_nodup _)
  · exact fun x member => AList.mem_keys.mpr (listed.mem_iff.mp member)

theorem unlink : Orders compare (entries.erase txid) (balancing.unlink txid tree) := by
  constructor
  · rw [balancing.inorder_unlink, AList.keys_erase]
    exact orders.listed.erase txid
  · rw [balancing.inorder_unlink]
    apply lists_congr _ (List.Pairwise.sublist List.erase_sublist orders.lists)
    intro x member
    exact AList.lookup_erase_ne fun same => List.Nodup.not_mem_erase orders.distinct (same ▸ member)

theorem relink (ignores : IgnoresLinks compare) (found : entries.lookup txid = some entry)
    (m_parents m_children : SetEntries) :
    Orders compare (entries.insert txid (entry.relinked m_parents m_children)) tree := by
  have isOld : txid ∈ entries := AList.lookup_isSome.mp (found ▸ rfl)
  constructor
  · rw [AList.keys_insert]
    exact orders.listed.trans (List.perm_cons_erase (AList.mem_keys.mp isOld))
  · exact List.Pairwise.imp (compareIn_relink ignores found m_parents m_children _ _).trans
      orders.lists

/-- One step of an index: where a comparison takes place, the keys decide it. -/
theorem place (ignores : IgnoresLinks compare) {edit : Edit}
    (applies : edit.apply entries = some after)
    (decides : edit.compares = true → Decides compare key after) :
    ∃ next, edit.place balancing (compareIn compare after) tree = some next ∧
      Orders compare after next := by
  cases edit with
  | insert entry =>
    simp only [Edit.apply, Option.ite_none_left_eq_some, Option.some.injEq] at applies
    obtain ⟨isNew, rfl⟩ := applies
    exact orders.add balancing isNew (decides rfl)
  | erase txid =>
    simp only [Edit.apply, Option.ite_none_right_eq_some, Option.some.injEq] at applies
    obtain ⟨_, rfl⟩ := applies
    exact ⟨_, rfl, orders.unlink balancing⟩
  | modify txid change =>
    obtain ⟨entry, found, applies⟩ := Option.bind_eq_some_iff.mp applies
    obtain ⟨changed, _, applies⟩ := Option.bind_eq_some_iff.mp applies
    cases applies
    exact orders.update balancing (AList.lookup_isSome.mp (found ▸ rfl)) (decides rfl)
  | relink txid m_parents m_children =>
    obtain ⟨entry, found, applies⟩ := Option.bind_eq_some_iff.mp applies
    cases applies
    exact ⟨tree, rfl, orders.relink ignores found m_parents m_children⟩

/-- Under a comparator that reverses no two entries the index stays as it is. -/
theorem keepsOrder {new : Comparator} (keeps : keepsOrder compare new entries = true) :
    Orders new entries tree := by
  refine ⟨orders.listed, ?_⟩
  refine (orders.lists.and orders.distinct).imp ?_
  intro x y ⟨before, different⟩
  unfold compareIn at before ⊢
  split at before
  next a b isX isY =>
    simp only [Mempool.keepsOrder, List.all_eq_true] at keeps
    have pair := keeps ⟨x, a⟩ (AList.mem_lookup_iff.mp isX) ⟨y, b⟩ (AList.mem_lookup_iff.mp isY)
    simpa [different, before] using pair
  · cases before

end Orders

end Index

/-! ### Steps and runs -/

structure Ordered (pool : ScoredPool) : Prop where
  descendants : Orders (compareByDescendantScore pool.g_fee_model) pool.mapTx.entries
    pool.mapTx.descendant_score
  ancestors : Orders (compareByAncestorFee pool.g_fee_model) pool.mapTx.entries
    pool.mapTx.ancestor_score
  txids : ∀ txid entry, pool.mapTx.entries.lookup txid = some entry → entry.tx.hash = txid

theorem decides_of_scored {model : FeeModel}
    (txids : ∀ txid entry, entries.lookup txid = some entry → entry.tx.hash = txid)
    (scored : allScored model entries = true) :
    Decides (compareByDescendantScore model) (descendantKey model) entries ∧
      Decides (compareByAncestorFee model) (ancestorKey model) entries := by
  have found : ∀ x ∈ entries, ∀ y ∈ entries, x ≠ y → ∃ a b, entries.lookup x = some a ∧
      entries.lookup y = some b ∧ isScored model a = true ∧ isScored model b = true ∧
        a.tx.hash ≠ b.tx.hash := by
    intro x xMember y yMember different
    have enough := two_le_of_ne xMember yMember different
    rw [allScored, decide_eq_false (by omega), Bool.false_or, List.all_eq_true] at scored
    obtain ⟨a, isA⟩ := Option.isSome_iff_exists.mp (AList.lookup_isSome.mpr xMember)
    obtain ⟨b, isB⟩ := Option.isSome_iff_exists.mp (AList.lookup_isSome.mpr yMember)
    refine ⟨a, b, isA, isB, scored ⟨x, a⟩ (AList.mem_lookup_iff.mp isA),
      scored ⟨y, b⟩ (AList.mem_lookup_iff.mp isB), ?_⟩
    rw [txids x a isA, txids y b isB]
    exact different
  constructor
  · intro x xMember y yMember different
    obtain ⟨a, b, isA, isB, aScored, bScored, _⟩ := found x xMember y yMember different
    simp only [compareIn, keyIn, isA, isB]
    exact compareByDescendantScore_eq aScored bScored
  · intro x xMember y yMember different
    obtain ⟨a, b, isA, isB, aScored, bScored, hashes⟩ := found x xMember y yMember different
    simp only [compareIn, keyIn, isA, isB]
    exact compareByAncestorFee_eq aScored bScored hashes

theorem txids_insert (isTxid : entry.tx.hash = txid)
    (txids : ∀ txid entry, entries.lookup txid = some entry → entry.tx.hash = txid) :
    ∀ other found, (entries.insert txid entry).lookup other = some found →
      found.tx.hash = other := by
  intro other found isFound
  by_cases same : other = txid
  · rw [same, AList.lookup_insert] at isFound
    cases isFound
    rw [isTxid, same]
  · rw [AList.lookup_insert_ne same] at isFound
    exact txids other found isFound

theorem txids_apply {edit : Edit} (applies : edit.apply entries = some after)
    (txids : ∀ txid entry, entries.lookup txid = some entry → entry.tx.hash = txid) :
    ∀ txid entry, after.lookup txid = some entry → entry.tx.hash = txid := by
  cases edit with
  | insert entry =>
    simp only [Edit.apply, Option.ite_none_left_eq_some, Option.some.injEq] at applies
    obtain ⟨_, rfl⟩ := applies
    exact txids_insert rfl txids
  | erase txid =>
    simp only [Edit.apply, Option.ite_none_right_eq_some, Option.some.injEq] at applies
    obtain ⟨_, rfl⟩ := applies
    intro other entry isEntry
    have different : other ≠ txid := by
      rintro rfl
      rw [AList.lookup_erase] at isEntry
      cases isEntry
    rw [AList.lookup_erase_ne different] at isEntry
    exact txids other entry isEntry
  | modify txid change =>
    obtain ⟨entry, found, applies⟩ := Option.bind_eq_some_iff.mp applies
    obtain ⟨changed, changes, applies⟩ := Option.bind_eq_some_iff.mp applies
    cases applies
    refine txids_insert ?_ txids
    rw [change.keeps entry changed (ok_of_toOption changes)]
    exact txids txid entry found
  | relink txid m_parents m_children =>
    obtain ⟨entry, found, applies⟩ := Option.bind_eq_some_iff.mp applies
    cases applies
    exact txids_insert (txids txid entry found) txids

def PoolStep.apply (entries : EntryMap) : PoolStep → Option EntryMap
  | .edit applied => applied.apply entries
  | .setfeemodel _ => some entries

variable {pool : ScoredPool}

theorem Ordered.step {step : PoolStep} (ordered : Ordered pool)
    (applies : step.apply pool.mapTx.entries = some after) (safe : safeStep env pool step = true) :
    ∃ next, pool.step env step = some next ∧ next.mapTx.entries = after ∧ Ordered next := by
  cases step with
  | setfeemodel params =>
    cases applies
    rw [safeStep, Bool.and_eq_true] at safe
    exact ⟨_, rfl, rfl, ordered.descendants.keepsOrder safe.1, ordered.ancestors.keepsOrder safe.2,
      ordered.txids⟩
  | edit edit =>
    have isAfter : edit.apply pool.mapTx.entries = some after := applies
    have txids := txids_apply isAfter ordered.txids
    have decides (compares : edit.compares = true) := by
      rw [safeStep, compares, Bool.not_true, Bool.false_or, isAfter, Option.all_some] at safe
      exact decides_of_scored txids safe
    obtain ⟨descendants, placesDescendants, inOrder⟩ := ordered.descendants.place env.balancing
      (fun _ _ _ _ => ⟨rfl, rfl⟩) isAfter fun compares => (decides compares).1
    obtain ⟨ancestors, placesAncestors, inOrder'⟩ := ordered.ancestors.place env.balancing
      (fun _ _ _ _ => ⟨rfl, rfl⟩) isAfter fun compares => (decides compares).2
    refine ⟨{ pool with mapTx := ⟨after, descendants, ancestors⟩ }, ?_, rfl, inOrder, inOrder',
      txids⟩
    simp only [ScoredPool.step, IndexedSet.edit, isAfter, Option.bind_eq_bind, Option.bind_some,
      placesDescendants, placesAncestors, Option.pure_def, Option.map_some]

theorem run_consistent {steps : List PoolStep} (ordered : Ordered pool)
    (applies : steps.foldlM PoolStep.apply pool.mapTx.entries = some after)
    (safe : safeRun env pool steps = true) :
    StaysConsistent env pool steps ∧
      ∃ final, steps.foldlM (ScoredPool.step env) pool = some final ∧
        final.mapTx.entries = after := by
  have consistent : pool.Consistent := ⟨ordered.descendants.lists, ordered.ancestors.lists⟩
  induction steps generalizing pool with
  | nil => exact ⟨consistent, pool, rfl, Option.some.inj applies⟩
  | cons step steps ih =>
    rw [List.foldlM_cons] at applies
    obtain ⟨middle, here, later⟩ := Option.bind_eq_some_iff.mp applies
    rw [safeRun, Bool.and_eq_true] at safe
    obtain ⟨next, steps', rfl, nextOrdered⟩ := ordered.step here safe.1
    have nextSafe : safeRun env next steps = true := by
      have rest := safe.2
      rw [steps', Option.all_some] at rest
      exact rest
    obtain ⟨stays, final, runs, same⟩ := ih nextOrdered later nextSafe
      ⟨nextOrdered.descendants.lists, nextOrdered.ancestors.lists⟩
    refine ⟨⟨consistent, ?_⟩, final, ?_, same⟩
    · rw [steps']
      exact stays
    · rw [List.foldlM_cons, steps']
      exact runs

/-! ### The mempool functions as edits -/

def Edited (start entries : EntryMap) : Prop :=
  ∃ edits : List Edit, edits.foldlM Edit.apply start = some entries

section Programs

variable {start : EntryMap}

theorem Edited.edit (edited : Edited start entries) (edit : Edit)
    (applies : edit.apply entries = some after) : Edited start after := by
  obtain ⟨edits, runs⟩ := edited
  refine ⟨edits ++ [edit], ?_⟩
  rw [List.foldlM_append, runs, Option.bind_eq_bind, Option.bind_some, List.foldlM_cons, applies]
  rfl

def Change.descendantState (size fee count : Int) : Change where
  change := (·.updateDescendantState size fee count)
  keeps entry changed changes := by
    iterate 5 obtain ⟨_, _, changes⟩ := exists_of_bind_ok changes
    cases changes
    rfl

def Change.ancestorState (size fee count sigOps : Int) : Change where
  change := (·.updateAncestorState size fee count sigOps)
  keeps entry changed changes := by
    iterate 7 obtain ⟨_, _, changes⟩ := exists_of_bind_ok changes
    cases changes
    rfl

theorem keeps_entryAt (it : Uint256) : Keeps (Edited start) (entryAt it) := by
  intro entries edited
  unfold Meets entryAt
  cases entries.lookup it with
  | none => trivial
  | some entry => exact edited

theorem keeps_modifyEntry {it : Uint256}
    {change : CTxMemPoolEntry → Except PoolHalt CTxMemPoolEntry}
    (edits : ∀ entries entry changed, entries.lookup it = some entry →
      change entry = .ok changed → ∃ edit : Edit, edit.apply entries =
        some (entries.insert it changed)) : Keeps (Edited start) (modifyEntry it change) := by
  intro entries edited
  unfold Meets modifyEntry
  cases found : entries.lookup it with
  | none => trivial
  | some entry =>
    dsimp only
    cases changes : change entry with
    | error halt => trivial
    | ok changed =>
      obtain ⟨edit, applies⟩ := edits entries entry changed found changes
      exact edited.edit edit applies

theorem keeps_modify (it : Uint256) (change : Change) :
    Keeps (Edited start) (modifyEntry it change.change) := by
  refine keeps_modifyEntry fun entries entry changed found changes => ⟨.modify it change, ?_⟩
  simp [Edit.apply, found, changes, Except.toOption]

theorem keeps_relink (it : Uint256) {change : CTxMemPoolEntry → Except PoolHalt CTxMemPoolEntry}
    (relinks : ∀ entry, ∃ m_parents m_children, change entry =
      .ok (entry.relinked m_parents m_children)) :
    Keeps (Edited start) (modifyEntry it change) := by
  refine keeps_modifyEntry fun entries entry changed found changes => ?_
  obtain ⟨m_parents, m_children, isChanged⟩ := relinks entry
  cases isChanged.symm.trans changes
  exact ⟨.relink it m_parents m_children, by simp [Edit.apply, found]⟩

private theorem keeps_updateChild (it child : Uint256) (add : Bool) :
    Keeps (Edited start) (updateChild it child add) :=
  keeps_relink it fun _ => ⟨_, _, rfl⟩

private theorem keeps_updateParent (it parent : Uint256) (add : Bool) :
    Keeps (Edited start) (updateParent it parent add) :=
  keeps_relink it fun _ => ⟨_, _, rfl⟩

theorem keeps_updateAncestorsOf (add : Bool) (it : Uint256) (setAncestors : SetEntries) :
    Keeps (Edited start) (updateAncestorsOf add it setAncestors) :=
  .bind (keeps_entryAt it) fun _ =>
    .bind (keeps_forEach (fun parent => keeps_updateChild parent it add) _) fun _ =>
    .bind (keeps_entryAt it) fun _ => .bind (keeps_lift _) fun size =>
    .bind (keeps_lift _) fun fee => keeps_forEach (fun ancestorIt =>
      keeps_modify ancestorIt (.descendantState size fee _)) _

theorem keeps_updateForRemoveFromMempool (stage : SetEntries) (updateDescendants : Bool) :
    Keeps (Edited start) (updateForRemoveFromMempool stage updateDescendants) := by
  refine .bind (keeps_forEach (fun removeIt => ?_) _) fun _ =>
    .bind (keeps_forEach (fun removeIt => ?_) _) fun _ => keeps_forEach (fun it => ?_) _
  · exact .bind keeps_get fun _ => .bind (keeps_lift _) fun _ => .bind (keeps_entryAt _) fun _ =>
      .bind (keeps_lift _) fun size => .bind (keeps_lift _) fun fee =>
      .bind (keeps_lift _) fun sigOps => keeps_forEach (fun dit =>
        keeps_modify dit (.ancestorState size fee (-1) sigOps)) _
  · exact .bind (keeps_entryAt _) fun _ => .bind keeps_get fun _ => .bind (keeps_lift _)
      fun ancestors => keeps_updateAncestorsOf false removeIt ancestors
  · exact .bind (keeps_entryAt it) fun _ =>
      keeps_forEach (fun updateIt => keeps_updateParent updateIt it false) _

def EditedPool (start : EntryMap) (pool : CTxMemPool) : Prop := Edited start pool.mapTx

theorem keeps_onEntries {α : Type} {program : EntryProgram α}
    (keeps : Keeps (Edited start) program) : Keeps (EditedPool start) (onEntries program) := by
  intro pool edited
  have meets := keeps pool.mapTx edited
  unfold Meets onEntries at *
  cases outcome : program pool.mapTx with
  | error halt => trivial
  | ok result =>
    rw [outcome] at meets
    exact meets

theorem keeps_removeStaged (stage : SetEntries) (updateDescendants : Bool) :
    Keeps (EditedPool start) (removeStaged stage updateDescendants) := by
  refine .bind (keeps_onEntries (keeps_updateForRemoveFromMempool stage updateDescendants))
    fun _ => keeps_forEach (fun it pool edited => ?_) _
  unfold Meets removeUnchecked
  cases found : pool.mapTx.lookup it with
  | none => trivial
  | some entry =>
    dsimp only
    cases narrow 64 (pool.m_total_fee - entry.nFee) with
    | error halt => trivial
    | ok m_total_fee =>
      have present : it ∈ pool.mapTx := AList.lookup_isSome.mp (found ▸ rfl)
      exact edited.edit (.erase it) (if_pos present)

theorem keeps_trimToSize (options : Options) (sizelimit : Nat) :
    Keeps (EditedPool start) (trimToSize options sizelimit) := by
  have once : Keeps (EditedPool start) (trimOnce options) :=
    .bind keeps_get fun _ => .bind (keeps_lift _) fun _ => .bind (keeps_lift _) fun _ =>
      .bind (keeps_lift _) fun raised => .bind (fun pool edited => by
        change EditedPool start _
        dsimp only
        split
        · exact edited
        · exact edited) fun _ =>
      .bind (keeps_lift _) fun stage => .bind (keeps_removeStaged stage false) fun _ =>
      .bind keeps_get fun _ => keeps_pure _
  refine .bind keeps_get fun pool => ?_
  generalize pool.mapTx.keys.length = fuel
  induction fuel with
  | zero =>
    refine .bind keeps_get fun _ => ?_
    split
    · exact fun _ _ => trivial
    · exact keeps_pure _
  | succ fuel ih =>
    refine .bind keeps_get fun _ => ?_
    split
    · exact .bind once fun _ => .bind ih fun _ => keeps_pure _
    · exact keeps_pure _

private theorem keeps_expire (time : Int) : Keeps (EditedPool start) (expire time) :=
  .bind keeps_get fun _ => .bind (keeps_lift _) fun stage =>
    .bind (keeps_removeStaged stage false) fun _ => keeps_pure _

theorem keeps_applyAddition (entry : CTxMemPoolEntry) :
    Keeps (EditedPool start) (applyAddition entry) := by
  refine .bind keeps_get fun _ => .bind (keeps_lift _) fun setAncestors =>
    .bind (keeps_onEntries fun entries edited => ?_) fun _ =>
    .bind keeps_get fun _ => .bind (keeps_lift _) fun _ =>
    .bind (keeps_onEntries (keeps_forEach (fun pit => keeps_updateParent _ pit true) _)) fun _ =>
    .bind (keeps_onEntries (keeps_updateAncestorsOf true _ setAncestors)) fun _ =>
    .bind (keeps_onEntries (.bind keeps_get fun _ => .bind (keeps_lift _) fun sums =>
      keeps_modify _ (.ancestorState sums.1 sums.2.1 setAncestors.size sums.2.2))) fun _ =>
    .bind (keeps_lift _) fun _ _ edited => edited
  unfold Meets splice
  by_cases present : entry.tx.hash ∈ entries
  · rw [if_pos present]
    trivial
  · rw [if_neg present]
    exact edited.edit (.insert entry) (if_neg present)

end Programs

inductive Call where
  | applyAddition (entry : CTxMemPoolEntry)
  | removeStaged (stage : SetEntries) (updateDescendants : Bool)
  | expire (time : Int)
  | trimToSize (options : Options) (sizelimit : Nat)
  | setfeemodel (params : Policy.FeeModelParams)

def Call.run (pool : CTxMemPool) : Call → Except PoolHalt CTxMemPool
  | .applyAddition entry => (Mempool.applyAddition entry pool).map Prod.snd
  | .removeStaged stage updateDescendants =>
    (Mempool.removeStaged stage updateDescendants pool).map Prod.snd
  | .expire time => (Mempool.expire time pool).map Prod.snd
  | .trimToSize options sizelimit => (Mempool.trimToSize options sizelimit pool).map Prod.snd
  | .setfeemodel _ => .ok pool

/-- The steps of the container by which a call changes `mapTx`. -/
def Call.Performs (call : Call) (before : CTxMemPool) (steps : List PoolStep)
    (after : CTxMemPool) : Prop :=
  call.run before = .ok after ∧
    match call with
    | .setfeemodel params => steps = [.setfeemodel params]
    | _ => ∃ edits : List Edit, steps = edits.map .edit ∧
        edits.foldlM Edit.apply before.mapTx = some after.mapTx

inductive Expands : CTxMemPool → List Call → List PoolStep → CTxMemPool → Prop
  | nil (pool : CTxMemPool) : Expands pool [] [] pool
  | cons {before middle after : CTxMemPool} {call : Call} {calls : List Call}
      {front back : List PoolStep} (performs : call.Performs before front middle)
      (later : Expands middle calls back after) :
      Expands before (call :: calls) (front ++ back) after

section Calls

variable {before after : CTxMemPool} {call : Call} {calls : List Call} {steps : List PoolStep}

theorem edited_of_keeps {α : Type} {program : PoolProgram α}
    (keeps : ∀ start, Keeps (EditedPool start) program)
    (runs : (program before).map Prod.snd = .ok after) :
    Edited before.mapTx after.mapTx := by
  have meets := keeps before.mapTx before ⟨[], rfl⟩
  unfold Meets at meets
  cases outcome : program before with
  | error halt =>
    rw [outcome] at runs
    cases runs
  | ok result =>
    rw [outcome] at runs meets
    cases runs
    exact meets

theorem exists_performs (runs : call.run before = .ok after) :
    ∃ steps, call.Performs before steps after := by
  cases call with
  | setfeemodel params => exact ⟨_, runs, rfl⟩
  | applyAddition entry =>
    obtain ⟨edits, applies⟩ := edited_of_keeps (fun _ => keeps_applyAddition entry) runs
    exact ⟨_, runs, edits, rfl, applies⟩
  | removeStaged stage updateDescendants =>
    obtain ⟨edits, applies⟩ :=
      edited_of_keeps (fun _ => keeps_removeStaged stage updateDescendants) runs
    exact ⟨_, runs, edits, rfl, applies⟩
  | expire time =>
    obtain ⟨edits, applies⟩ := edited_of_keeps (fun _ => keeps_expire time) runs
    exact ⟨_, runs, edits, rfl, applies⟩
  | trimToSize options sizelimit =>
    obtain ⟨edits, applies⟩ := edited_of_keeps (fun _ => keeps_trimToSize options sizelimit) runs
    exact ⟨_, runs, edits, rfl, applies⟩

theorem exists_expands (runs : calls.foldlM Call.run before = .ok after) :
    ∃ steps, Expands before calls steps after := by
  induction calls generalizing before with
  | nil =>
    cases runs
    exact ⟨[], .nil _⟩
  | cons call calls ih =>
    rw [List.foldlM_cons] at runs
    obtain ⟨middle, here, later⟩ := exists_of_bind_ok runs
    obtain ⟨front, performs⟩ := exists_performs here
    obtain ⟨back, expands⟩ := ih later
    exact ⟨_, .cons performs expands⟩

theorem Call.Performs.applies (performs : call.Performs before steps after) :
    steps.foldlM PoolStep.apply before.mapTx = some after.mapTx := by
  obtain ⟨runs, expands⟩ := performs
  split at expands
  · cases runs
    rw [expands]
    rfl
  · obtain ⟨edits, rfl, applies⟩ := expands
    rw [List.foldlM_map]
    exact applies

theorem Expands.applies (expands : Expands before calls steps after) :
    steps.foldlM PoolStep.apply before.mapTx = some after.mapTx := by
  induction expands with
  | nil pool => rfl
  | cons performs _ ih =>
    rw [List.foldlM_append, performs.applies]
    exact ih

end Calls

/-- The steps by which a sequence of mempool calls changes `mapTx` leave the score indexes in
order throughout, if the scores they compare are defined and every model that `setfeemodel`
installs keeps the order of the entries. -/
theorem score_indexes_consistent (env : Environment) (model : FeeModel) (calls : List Call)
    (mempool : CTxMemPool) (runs : calls.foldlM Call.run .new = .ok mempool) :
    (∃ steps, Expands .new calls steps mempool) ∧
      ∀ steps, Expands .new calls steps mempool → safeRun env (.new model) steps = true →
        StaysConsistent env (.new model) steps ∧
          ∃ node, steps.foldlM (ScoredPool.step env) (.new model) = some node ∧
            node.mapTx.entries = mempool.mapTx := by
  refine ⟨exists_expands runs, fun steps expands safe => ?_⟩
  refine run_consistent ⟨⟨.refl _, .nil⟩, ⟨.refl _, .nil⟩, ?_⟩ expands.applies safe
  intro txid entry isEntry
  cases isEntry

def paymentEntry (hash spent : Uint256) (nValue nTxSize : Int) : CTxMemPoolEntry :=
  newEntry
    { tx :=
        { vin := [{ prevout := { hash := spent, n := 0 }, scriptSig := [], nSequence := 0
                    scriptWitness := [] }]
          vout := [{ nValue := nValue, scriptPubKey := [] }]
          version := 2
          nLockTime := 0
          hash := hash }
      fee := 5000
      time := 0
      spends_coinbase := false
      sigops_cost := 0
      lp := { height := 0, time := 0, maxInputBlock := none } }
    nTxSize

def testEnvironment : Environment := ⟨unbalanced Uint256, true, fun _ => none⟩

/-- Two payments enter the mempool, the second with this input, and then the rate is set. -/
def pairCalls (spent : Uint256) (alpha : List Char) : List Call :=
  [.applyAddition (paymentEntry 1 101 COIN 200), .applyAddition (paymentEntry 2 spent 0 1000),
    .setfeemodel ⟨.num alpha, .null, .null, .null⟩]

def newSteps (entry : CTxMemPoolEntry) : List PoolStep :=
  [.edit (.insert entry), .edit (.modify entry.tx.hash (.ancestorState 0 0 0 0))]

def linkedSteps : List PoolStep :=
  newSteps (paymentEntry 1 101 COIN 200) ++
    ([.edit (.insert (paymentEntry 2 1 0 1000)),
        .edit (.relink 2 (OrderedSet.empty.insert 1) .empty),
        .edit (.relink 1 .empty (OrderedSet.empty.insert 2)),
        .edit (.modify 1 (.descendantState 1000 5000 1)),
        .edit (.modify 2 (.ancestorState 200 5000 1 0))] ++
      ([.setfeemodel ⟨.num ['0', '.', '0', '0', '0', '0', '0', '2'], .null, .null, .null⟩] ++ []))

theorem score_indexes_consistent_linked : ∃ mempool,
      (pairCalls 1 ['0', '.', '0', '0', '0', '0', '0', '2']).foldlM Call.run .new = .ok mempool ∧
      Expands .new (pairCalls 1 ['0', '.', '0', '0', '0', '0', '0', '2']) linkedSteps mempool ∧
      safeRun testEnvironment (.new Policy.defaultFeeModel) linkedSteps = true ∧
      StaysConsistent testEnvironment (.new Policy.defaultFeeModel) linkedSteps := by
  have expands : Expands .new (pairCalls 1 ['0', '.', '0', '0', '0', '0', '0', '2']) linkedSteps
      _ :=
    .cons ⟨rfl, [_, _], rfl, rfl⟩ (.cons ⟨rfl, [_, _, _, _, _], rfl, rfl⟩
      (.cons ⟨rfl, rfl⟩ (.nil _)))
  have safe : safeRun testEnvironment (.new Policy.defaultFeeModel) linkedSteps = true := by
    decide +kernel
  exact ⟨_, rfl, expands, safe, ((score_indexes_consistent testEnvironment Policy.defaultFeeModel
    _ _ rfl).2 linkedSteps expands safe).1⟩

def unlinkedSteps : List PoolStep :=
  newSteps (paymentEntry 1 101 COIN 200) ++ (newSteps (paymentEntry 2 102 0 1000) ++
    ([.setfeemodel ⟨.num ['0', '.', '0', '1'], .null, .null, .null⟩] ++ []))

/-- With the default model one coin in 200 bytes scores 520 and nothing in 1000 bytes 100;
once the rate is a hundredth of a coin the scores are 200500 and 1000000. -/
theorem setfeemodel_reverses_scores : ∃ mempool,
      Expands .new (pairCalls 102 ['0', '.', '0', '1']) unlinkedSteps mempool ∧
      StaysConsistent testEnvironment (.new Policy.defaultFeeModel) unlinkedSteps.dropLast ∧
      ¬StaysConsistent testEnvironment (.new Policy.defaultFeeModel) unlinkedSteps := by
  refine ⟨_, .cons ⟨rfl, [_, _], rfl, rfl⟩ (.cons ⟨rfl, [_, _], rfl, rfl⟩
    (.cons ⟨rfl, rfl⟩ (.nil _))), ?_⟩
  decide +kernel

end Adonai.Mempool
