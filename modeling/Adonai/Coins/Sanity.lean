/-
The assertions of `SanityCheck` over every sequence of calls on one cache.

What the view below does is part of a call: its answer, how far it went through the entries, which
coins it moved out of them, and whether it threw. `SpendCoin` for which it throws does what
`FetchCoin` does. Four calls can leave a wrong usage or an impossible entry, and no others.
-/

import Adonai.Coins.Refinement

namespace Adonai.Coins

open CCoinsViewCache Run Total

def CCoinsCacheEntry.attr (entry : CCoinsCacheEntry) : Nat :=
  entry.dirty.toNat + 2 * entry.fresh.toNat + 4 * entry.coin.isSpent.toNat

def CCoinsCacheEntry.counted (entry : CCoinsCacheEntry) : Int :=
  entry.coin.dynamicMemoryUsage.toNat

def CCoinsCacheEntry.Possible (entry : CCoinsCacheEntry) : Prop :=
  entry.attr ≠ 2 ∧ entry.attr ≠ 4 ∧ entry.attr ≠ 7

structure SanityCheck (cache : CCoinsViewCache) : Prop where
  finite : {outpoint | cache.cacheCoins outpoint ≠ none}.Finite
  possible : ∀ outpoint entry, cache.cacheCoins outpoint = some entry → entry.Possible
  linked : cache.Tracked
  usage : cache.cachedCoinsUsage = .ofInt (total CCoinsCacheEntry.counted cache.cacheCoins)

namespace CCoinsViewCache

/-- `FetchCoin`, with the answer from below unless that throws. -/
def fetchCoin (cache : CCoinsViewCache) (outpoint : COutPoint) (answer : Option (Option Coin)) :
    CCoinsViewCache :=
  if (cache.cacheCoins outpoint).isSome then cache
  else match answer with
    -- the entry made for the answer stays
    | none => cache.setCoin outpoint .empty
    | some found => cache.fetched outpoint found

def emplaceCoinInternalDANGER (cache : CCoinsViewCache) (outpoint : COutPoint) (coin : Coin) :
    CCoinsViewCache :=
  if (cache.cacheCoins outpoint).isSome then cache.addUsage coin
  else ((cache.addUsage coin).setCoin outpoint coin).setDirty outpoint

/-- A coin moved from keeps its amount and loses its script. -/
def movedFrom (cache : CCoinsViewCache) (moved : List COutPoint) : CCoinsViewCache :=
  { cache with cacheCoins := fun outpoint => (cache.cacheCoins outpoint).map fun entry =>
      if outpoint ∈ moved then
        { entry with coin := { entry.coin with out := { entry.coin.out with scriptPubKey := [] } } }
      else entry }

end CCoinsViewCache

inductive Call where
  | fetchCoin (outpoint : COutPoint) (answer : Option (Option Coin))
  | addCoin (outpoint : COutPoint) (coin : Coin) (possible_overwrite : Bool)
  | emplaceCoin (outpoint : COutPoint) (coin : Coin)
  | spendCoin (outpoint : COutPoint) (answer : Option Coin)
  | uncache (outpoint : COutPoint)
  | batchWrite (cursor : List (COutPoint × CCoinsCacheEntry)) (hashBlock : Uint256)
  | setBestBlock (hashBlock : Uint256)
  | sync (visited : Nat)
  | flush (moved : List COutPoint) (returned : Option Bool)

def perform (cache : CCoinsViewCache) : Call → CCoinsViewCache
  | .fetchCoin outpoint answer => cache.fetchCoin outpoint answer
  | .addCoin outpoint coin possible_overwrite => (cache.addCoin outpoint coin possible_overwrite).1
  | .emplaceCoin outpoint coin => cache.emplaceCoinInternalDANGER outpoint coin
  | .spendCoin outpoint answer =>
    let cache := cache.fetchCoin outpoint (some answer)
    match cache.cacheCoins outpoint with
    | none => cache
    | some entry => cache.spendFetched outpoint entry
  | .uncache outpoint => cache.uncache outpoint
  | .batchWrite cursor hashBlock => (cache.batchWrite cursor hashBlock).1
  | .setBestBlock hashBlock => { cache with hashBlock := hashBlock }
  | .sync visited =>
    (cache.cursor.take visited).foldl (fun cache item => cache.keepEntry item.1 item.2) cache
  | .flush moved returned =>
    match returned with
    | some true => cache.flushed
    | some false => { cache.movedFrom moved with cachedCoinsUsage := 0 }
    | none => cache.movedFrom moved

/-- A call that keeps the books: nothing below throws for a missing coin, `AddCoin` does not throw
over a coin that is counted, `EmplaceCoinInternalDANGER` does not count a coin that it does not
store, and where `Flush` fails no coin counted differs from the coins left. -/
def Accounted (cache : CCoinsViewCache) : Call → Prop
  | .fetchCoin outpoint answer => answer = none → cache.cacheCoins outpoint ≠ none
  | .addCoin outpoint coin possible_overwrite =>
    coin.isSpent = false → coin.out.scriptPubKey.isUnspendable = false →
      possible_overwrite = false → ∀ entry, cache.cacheCoins outpoint = some entry →
        entry.coin.isSpent = false → entry.coin.dynamicMemoryUsage = 0
  | .emplaceCoin outpoint coin =>
    cache.cacheCoins outpoint ≠ none → coin.dynamicMemoryUsage = 0
  | .flush moved returned => ∀ outpoint entry, cache.cacheCoins outpoint = some entry →
    (returned = none ∧ outpoint ∈ moved ∨ returned = some false ∧ outpoint ∉ moved) →
      entry.coin.dynamicMemoryUsage = 0
  | _ => True

variable {cache after : CCoinsViewCache} {outpoint : COutPoint}

theorem possible_of_dirty {coin : Coin} {fresh : Bool} (fits : (fresh && coin.isSpent) = false) :
    CCoinsCacheEntry.Possible ⟨coin, true, fresh⟩ := by
  unfold CCoinsCacheEntry.Possible CCoinsCacheEntry.attr
  cases fresh <;> cases spent : coin.isSpent <;> simp_all

private theorem possible_of_clean (coin : Coin) :
    CCoinsCacheEntry.Possible ⟨coin, false, coin.isSpent⟩ := by
  unfold CCoinsCacheEntry.Possible CCoinsCacheEntry.attr
  cases coin.isSpent <;> simp

private theorem ofInt_usage (entry : Option CCoinsCacheEntry) :
    UInt64.ofInt (entry.elim 0 CCoinsCacheEntry.counted) = usageAt entry := by
  cases entry with
  | none => rfl
  | some entry =>
    have small := entry.coin.dynamicMemoryUsage.toNat_lt
    rw [Option.elim_some, CCoinsCacheEntry.counted, UInt64.ofInt,
      Int.emod_eq_of_lt (by omega) (by omega), Int.toNat_natCast, UInt64.ofNat_toNat]
    rfl

namespace SanityCheck

theorem sets (sane : SanityCheck cache) {entry : Option CCoinsCacheEntry}
    (sets : Sets cache after outpoint entry)
    (possible : ∀ found, entry = some found → found.Possible) : SanityCheck after := by
  refine ⟨?_, sets.entries sane.possible possible, sets.tracked, ?_⟩
  · rw [sets.stored]
    exact finite_update sane.finite outpoint entry
  · rw [sets.counted, sets.stored, total_update _ sane.finite, Int.sub_eq_add_neg,
      UInt64.ofInt_add, UInt64.ofInt_add, UInt64.ofInt_neg, ← UInt64.sub_eq_add_neg, ← sane.usage,
      ofInt_usage, ofInt_usage]

theorem of_empty (coins : ∀ outpoint, cache.cacheCoins outpoint = none) (list : cache.flagged = [])
    (usage : cache.cachedCoinsUsage = 0) : SanityCheck cache := by
  have none : cache.cacheCoins = fun _ => none := funext coins
  refine ⟨?_, ?_, .of_empty coins list, ?_⟩
  · simp [none]
  · simp [none]
  · rw [usage, none, total_empty]
    rfl

theorem setsSome (sane : SanityCheck cache) {entry : CCoinsCacheEntry}
    (sets : Sets cache after outpoint (some entry)) (possible : entry.Possible) :
    SanityCheck after :=
  sane.sets sets fun _ same => Option.some.inj same ▸ possible

private theorem fetched (sane : SanityCheck cache) (outpoint : COutPoint) (answer : Option Coin) :
    SanityCheck (cache.fetchCoin outpoint (some answer)) := by
  unfold fetchCoin
  split
  · exact sane
  next missing =>
    rw [Option.not_isSome_iff_eq_none] at missing
    cases answer with
    | none => exact sane
    | some coin =>
      exact sane.setsSome (sets_fetched sane.linked missing coin) (possible_of_clean coin)

theorem spent (sane : SanityCheck cache) {entry : CCoinsCacheEntry}
    (found : cache.cacheCoins outpoint = some entry) :
    SanityCheck (cache.spendFetched outpoint entry) := by
  refine sane.sets (sets_spent sane.linked found) ?_
  intro left same
  unfold spentEntry at same
  split at same
  · cases same
  · cases same
    exact possible_of_dirty rfl

/-- Only the count of a coin that counts for nothing may be wrong. -/
theorem of_usage (sane : SanityCheck cache) {usage : UInt64}
    (same : usage = cache.cachedCoinsUsage) :
    SanityCheck { cache with cachedCoinsUsage := usage } :=
  ⟨sane.finite, sane.possible, ⟨sane.linked.listed, sane.linked.once⟩, same.trans sane.usage⟩

theorem added (sane : SanityCheck cache) {coin : Coin} {possible_overwrite : Bool}
    (accounted : Accounted cache (.addCoin outpoint coin possible_overwrite)) :
    SanityCheck (cache.addCoin outpoint coin possible_overwrite).1 := by
  cases live : coin.isSpent with
  | true =>
    rw [addCoin, if_pos live]
    exact sane
  | false => ?_
  cases spendable : coin.out.scriptPubKey.isUnspendable with
  | true =>
    rw [addCoin, if_neg (by simp [live]), if_pos spendable]
    exact sane
  | false => ?_
  by_cases throws : possible_overwrite = false ∧
      (((cache.cacheCoins outpoint).map CCoinsCacheEntry.coin).getD .empty).isSpent = false
  · rw [addCoin, if_neg (by simp [live]), if_neg (by simp [spendable])]
    dsimp only
    rw [if_pos (by simp [throws])]
    cases found : cache.cacheCoins outpoint with
    | none => exact sane
    | some entry =>
      rw [found] at throws
      have nothing := accounted live spendable throws.1 entry found throws.2
      refine sane.of_usage ?_
      change cache.cachedCoinsUsage - entry.coin.dynamicMemoryUsage = _
      rw [nothing, UInt64.sub_zero]
  · obtain ⟨after, wrote, sets⟩ := sets_added sane.linked live spendable (by
      intro strict
      exact (Bool.not_eq_false _).mp fun old => throws ⟨strict, old⟩)
    rw [wrote]
    exact sane.setsSome sets (possible_of_dirty (by rw [live, Bool.and_false]))

theorem kept (sane : SanityCheck cache) (visited : Nat) :
    SanityCheck (perform cache (.sync visited)) := by
  have distinct : (cache.cursor.map Prod.fst).Nodup := sane.linked.cursor_keys ▸ sane.linked.once
  refine (foldl_keepEntry (fun _ sane => sane.linked) ?_ _ cache sane
    (distinct.sublist ((List.take_sublist visited _).map _)) ?_).1
  · intro cache after outpoint entry sane sets
    refine sane.sets sets ?_
    intro left same
    unfold keptEntry at same
    split at same
    · cases same
    next live =>
      cases same
      exact (Bool.not_eq_true _).mp live ▸ possible_of_clean entry.coin
  · intro item member
    exact ((cache.mem_cursor_iff item.1 item.2).mp (List.mem_of_mem_take member)).2

theorem moved (sane : SanityCheck cache) (moved : List COutPoint) {usage : UInt64}
    (counted : usage =
      .ofInt (total CCoinsCacheEntry.counted (cache.movedFrom moved).cacheCoins)) :
    SanityCheck { cache.movedFrom moved with cachedCoinsUsage := usage } := by
  refine ⟨?_, ?_, ⟨?_, sane.linked.once⟩, counted⟩
  · refine sane.finite.subset ?_
    intro outpoint present missing
    exact present (by simp [movedFrom, missing])
  · intro outpoint entry left
    obtain ⟨old, found, rfl⟩ := Option.map_eq_some_iff.mp left
    have possible := sane.possible outpoint old found
    split <;> exact possible
  · intro outpoint
    refine (sane.linked.listed outpoint).trans ?_
    change _ ↔ ∃ entry, (cache.cacheCoins outpoint).map _ = some entry ∧ _
    cases cache.cacheCoins outpoint with
    | none => simp
    | some old => by_cases inside : outpoint ∈ moved <;> simp [inside, CCoinsCacheEntry.flagged]

theorem flushed (sane : SanityCheck cache) {moved : List COutPoint} {returned : Option Bool}
    (accounted : Accounted cache (.flush moved returned)) :
    SanityCheck (perform cache (.flush moved returned)) := by
  have left : ∀ outpoint, ((cache.movedFrom moved).cacheCoins outpoint).elim 0
      CCoinsCacheEntry.counted = if outpoint ∈ moved then 0
        else (cache.cacheCoins outpoint).elim 0 CCoinsCacheEntry.counted := by
    intro outpoint
    change ((cache.cacheCoins outpoint).map _).elim 0 _ = _
    cases cache.cacheCoins outpoint with
    | none => exact (ite_self 0).symm
    | some entry => by_cases inside : outpoint ∈ moved <;> simp only [inside] <;> rfl
  have uncounted : ∀ outpoint,
      (returned = none ∧ outpoint ∈ moved ∨ returned = some false ∧ outpoint ∉ moved) →
        (cache.cacheCoins outpoint).elim 0 CCoinsCacheEntry.counted = 0 := by
    intro outpoint defect
    cases found : cache.cacheCoins outpoint with
    | none => rfl
    | some entry =>
      rw [Option.elim_some, CCoinsCacheEntry.counted, accounted outpoint entry found defect]
      rfl
  rcases returned with _ | _ | _
  · refine sane.moved moved (sane.usage.trans (congrArg UInt64.ofInt ?_))
    refine finsum_congr fun outpoint => ?_
    rw [left]
    split
    next inside => exact uncounted outpoint (.inl ⟨rfl, inside⟩)
    · rfl
  · refine sane.moved moved (congrArg UInt64.ofInt (?_ : total _ _ = 0)).symm
    refine finsum_eq_zero_of_forall_eq_zero fun outpoint => ?_
    rw [left]
    split
    · rfl
    next outside => exact uncounted outpoint (.inr ⟨rfl, outside⟩)
  · exact of_empty (fun _ => rfl) rfl rfl

end SanityCheck

end Adonai.Coins
