/-
One cache over a parent map: what its entries may be, and what each operation shows.

An entry that is not DIRTY repeats what the parent shows. A FRESH entry stands over nothing, and
is unspent, since spending it erases it. Every operation updates one entry, and with it the list
of flagged ones and the usage.
-/

import Adonai.Coins.Cache
import Adonai.Foundation.Total

namespace Adonai.Coins

open Function (update_eq_self update_idem update_of_ne update_self)
open Total

abbrev CoinMap := COutPoint → Option Coin

namespace CCoinsViewCache

/-- What an entry, or its absence, shows over the parent's answer. -/
def showsEntry (parent : Option Coin) : Option CCoinsCacheEntry → Option Coin
  | some entry => visible (some entry)
  | none => parent

def shows (cache : CCoinsViewCache) (parent : CoinMap) : CoinMap := fun outpoint =>
  showsEntry (parent outpoint) (cache.cacheCoins outpoint)

structure Tracked (cache : CCoinsViewCache) : Prop where
  listed : ∀ outpoint, outpoint ∈ cache.flagged ↔
    ∃ entry, cache.cacheCoins outpoint = some entry ∧ entry.flagged = true
  once : cache.flagged.Nodup

variable {cache : CCoinsViewCache} {outpoint : COutPoint}

theorem Tracked.mem_iff (tracked : cache.Tracked) {entry : CCoinsCacheEntry}
    (found : cache.cacheCoins outpoint = some entry) :
    outpoint ∈ cache.flagged ↔ entry.flagged = true := by
  rw [tracked.listed, found]
  simp

variable {after : CCoinsViewCache}

theorem Tracked.rewrite (tracked : cache.Tracked) {entry : Option CCoinsCacheEntry}
    (stored : after.cacheCoins = Function.update cache.cacheCoins outpoint entry)
    (others : ∀ other, other ≠ outpoint → (other ∈ after.flagged ↔ other ∈ cache.flagged))
    (here : outpoint ∈ after.flagged ↔ ∃ found, entry = some found ∧ found.flagged = true)
    (once : after.flagged.Nodup) : after.Tracked := by
  refine ⟨?_, once⟩
  intro other
  by_cases same : other = outpoint
  · rw [same, here, stored, update_self]
  · rw [others other same, tracked.listed other, stored, update_of_ne same]

theorem setCoin_cacheCoins (cache : CCoinsViewCache) (outpoint : COutPoint) (coin : Coin) :
    (cache.setCoin outpoint coin).cacheCoins =
      Function.update cache.cacheCoins outpoint
        (some { (cache.cacheCoins outpoint).getD
          { coin := .empty, dirty := false, fresh := false } with coin := coin }) := rfl

theorem Tracked.setCoin (tracked : cache.Tracked) (outpoint : COutPoint) (coin : Coin) :
    (cache.setCoin outpoint coin).Tracked := by
  refine tracked.rewrite (cache.setCoin_cacheCoins outpoint coin) (fun _ _ => Iff.rfl) ?_
    tracked.once
  change outpoint ∈ cache.flagged ↔ _
  rw [tracked.listed outpoint]
  cases cache.cacheCoins outpoint <;> simp [CCoinsCacheEntry.flagged]

theorem Tracked.addUsage (tracked : cache.Tracked) (coin : Coin) : (cache.addUsage coin).Tracked :=
  ⟨tracked.listed, tracked.once⟩

theorem Tracked.subUsage (tracked : cache.Tracked) (coin : Coin) : (cache.subUsage coin).Tracked :=
  ⟨tracked.listed, tracked.once⟩

variable {entry : CCoinsCacheEntry}

theorem addFlags_cacheCoins (found : cache.cacheCoins outpoint = some entry) (dirty fresh : Bool) :
    (cache.addFlags outpoint dirty fresh).cacheCoins =
      Function.update cache.cacheCoins outpoint
        (some { entry with dirty := entry.dirty || dirty, fresh := entry.fresh || fresh }) := by
  simp only [addFlags, found]

theorem addFlags_others (cache : CCoinsViewCache) (outpoint : COutPoint) (dirty fresh : Bool) :
    (cache.addFlags outpoint dirty fresh).cachedCoinsUsage = cache.cachedCoinsUsage ∧
      (cache.addFlags outpoint dirty fresh).hashBlock = cache.hashBlock := by
  unfold addFlags
  split <;> exact ⟨rfl, rfl⟩

theorem Tracked.addFlags (tracked : cache.Tracked) (found : cache.cacheCoins outpoint = some entry)
    (dirty fresh : Bool) (adds : (dirty || fresh) = true) :
    (cache.addFlags outpoint dirty fresh).Tracked := by
  have flaggedAfter : (CCoinsCacheEntry.flagged
      { entry with dirty := entry.dirty || dirty, fresh := entry.fresh || fresh }) = true := by
    unfold CCoinsCacheEntry.flagged
    cases dirty with
    | true => simp
    | false => simp_all
  have list : (cache.addFlags outpoint dirty fresh).flagged =
      if entry.flagged then cache.flagged else cache.flagged ++ [outpoint] := by
    simp only [CCoinsViewCache.addFlags, found]
  have member := tracked.mem_iff found
  refine tracked.rewrite (addFlags_cacheCoins found dirty fresh) ?_ ?_ ?_
  · intro other different
    rw [list]
    cases entry.flagged with
    | true => exact Iff.rfl
    | false => simp [different]
  · rw [list]
    cases was : entry.flagged with
    | true => exact iff_of_true (member.mpr was) ⟨_, rfl, flaggedAfter⟩
    | false => simp [flaggedAfter]
  · rw [list]
    cases was : entry.flagged with
    | true => exact tracked.once
    | false =>
      rw [was] at member
      exact List.nodup_append_comm.mp (tracked.once.cons (by simp [member]))

private theorem Tracked.unlist (tracked : cache.Tracked) {entry : Option CCoinsCacheEntry}
    (stored : after.cacheCoins = Function.update cache.cacheCoins outpoint entry)
    (list : after.flagged = cache.flagged.erase outpoint)
    (unflagged : ∀ found, entry = some found → ¬found.flagged = true) : after.Tracked := by
  refine tracked.rewrite stored ?_ ?_ ?_
  · intro other different
    rw [list, List.mem_erase_of_ne different]
  · rw [list]
    refine iff_of_false tracked.once.not_mem_erase ?_
    rintro ⟨found, same, flagged⟩
    exact unflagged found same flagged
  · rw [list]
    exact tracked.once.erase outpoint

private theorem Tracked.erase (tracked : cache.Tracked) (outpoint : COutPoint) :
    (cache.erase outpoint).Tracked := tracked.unlist rfl rfl nofun

def usageAt (entry : Option CCoinsCacheEntry) : UInt64 :=
  (entry.map fun entry => entry.coin.dynamicMemoryUsage).getD 0

/-- What an operation does to one entry: the list stays exact and the usage is counted. -/
structure Sets (cache after : CCoinsViewCache) (outpoint : COutPoint)
    (entry : Option CCoinsCacheEntry) : Prop where
  stored : after.cacheCoins = Function.update cache.cacheCoins outpoint entry
  tracked : after.Tracked
  counted : after.cachedCoinsUsage =
    cache.cachedCoinsUsage - usageAt (cache.cacheCoins outpoint) + usageAt entry
  hashBlock : after.hashBlock = cache.hashBlock

theorem Sets.entries {entry : Option CCoinsCacheEntry} (sets : Sets cache after outpoint entry)
    {holds : COutPoint → CCoinsCacheEntry → Prop}
    (before : ∀ other found, cache.cacheCoins other = some found → holds other found)
    (here : ∀ found, entry = some found → holds outpoint found) (other : COutPoint)
    (found : CCoinsCacheEntry) (at_ : after.cacheCoins other = some found) :
    holds other found := by
  rw [sets.stored] at at_
  by_cases same : other = outpoint
  · subst same
    rw [update_self] at at_
    exact here found at_
  · rw [update_of_ne same] at at_
    exact before other found at_

theorem sets_dropped (tracked : cache.Tracked) (found : cache.cacheCoins outpoint = some entry) :
    Sets cache ((cache.subUsage entry.coin).erase outpoint) outpoint none := by
  refine ⟨rfl, (tracked.subUsage entry.coin).erase outpoint, ?_, rfl⟩
  rw [found]
  exact (UInt64.add_zero _).symm

private theorem entered_cacheCoins (missing : cache.cacheCoins outpoint = none) (coin : Coin) :
    ((cache.setCoin outpoint coin).addUsage coin).cacheCoins =
      Function.update cache.cacheCoins outpoint (some ⟨coin, false, false⟩) := by
  rw [addUsage, setCoin_cacheCoins, missing, Option.getD_none]

theorem fetched_cacheCoins (missing : cache.cacheCoins outpoint = none) (coin : Coin) :
    (cache.fetched outpoint (some coin)).cacheCoins =
      Function.update cache.cacheCoins outpoint (some ⟨coin, false, coin.isSpent⟩) := by
  have stored := entered_cacheCoins missing coin
  rw [fetched]
  cases coin.isSpent with
  | false => exact stored
  | true =>
    have found := congrFun stored outpoint
    rw [update_self] at found
    rw [if_pos rfl, setFresh, addFlags_cacheCoins found, stored, update_idem]
    rfl

theorem sets_fetched (tracked : cache.Tracked) (missing : cache.cacheCoins outpoint = none)
    (coin : Coin) :
    Sets cache (cache.fetched outpoint (some coin)) outpoint
      (some ⟨coin, false, coin.isSpent⟩) := by
  have trackedCoin := (tracked.setCoin outpoint coin).addUsage coin
  have counted : ((cache.setCoin outpoint coin).addUsage coin).cachedCoinsUsage =
      cache.cachedCoinsUsage - usageAt (cache.cacheCoins outpoint) + coin.dynamicMemoryUsage := by
    rw [missing]
    exact congrArg (· + _) (UInt64.sub_zero _).symm
  have stored := fetched_cacheCoins missing coin
  rw [fetched] at stored ⊢
  cases spent : coin.isSpent with
  | false =>
    rw [spent] at stored
    exact ⟨stored, trackedCoin, counted, rfl⟩
  | true =>
    rw [spent] at stored
    have found := congrFun (entered_cacheCoins missing coin) outpoint
    rw [update_self] at found
    obtain ⟨usage, best⟩ := addFlags_others _ outpoint false true
    exact ⟨stored, trackedCoin.addFlags found false true rfl, usage.trans counted, best⟩

/-- Writing a coin leaves a DIRTY entry, which is FRESH if it was or is to be marked so. -/
theorem Tracked.written (tracked : cache.Tracked) {coins : COutPoint → Option CCoinsCacheEntry}
    (same : cache.cacheCoins = coins) {wasFresh : Bool}
    (was : ((coins outpoint).map CCoinsCacheEntry.fresh).getD false = wasFresh) (coin : Coin)
    (markFresh : Bool) : let after := (cache.setCoin outpoint coin).setDirty outpoint
    let after := if markFresh then after.setFresh outpoint else after
    after.cacheCoins = Function.update coins outpoint (some ⟨coin, true, wasFresh || markFresh⟩) ∧
      after.Tracked ∧ after.cachedCoinsUsage = cache.cachedCoinsUsage ∧
      after.hashBlock = cache.hashBlock := by
  subst same was
  have stored := cache.setCoin_cacheCoins outpoint coin
  have trackedCoin := tracked.setCoin outpoint coin
  have found : (cache.setCoin outpoint coin).cacheCoins outpoint = some
      { (cache.cacheCoins outpoint).getD { coin := .empty, dirty := false, fresh := false } with
        coin := coin } := by
    rw [stored, update_self]
  have dirtyStored := addFlags_cacheCoins found true false
  have trackedDirty := trackedCoin.addFlags found true false rfl
  have dirtyOthers := addFlags_others (cache.setCoin outpoint coin) outpoint true false
  rw [stored, update_idem] at dirtyStored
  have freshEntry : ((cache.cacheCoins outpoint).getD
        { coin := .empty, dirty := false, fresh := false }).fresh =
      ((cache.cacheCoins outpoint).map CCoinsCacheEntry.fresh).getD false := by
    cases cache.cacheCoins outpoint <;> rfl
  cases markFresh with
  | false =>
    refine ⟨?_, trackedDirty, dirtyOthers⟩
    change ((cache.setCoin outpoint coin).setDirty outpoint).cacheCoins = _
    rw [setDirty, dirtyStored]
    simp only [Bool.or_true, freshEntry]
  | true =>
    have foundDirty : ((cache.setCoin outpoint coin).setDirty outpoint).cacheCoins outpoint = _ :=
      congrFun dirtyStored outpoint
    rw [update_self] at foundDirty
    obtain ⟨usage, best⟩ :=
      addFlags_others ((cache.setCoin outpoint coin).setDirty outpoint) outpoint false true
    refine ⟨?_, trackedDirty.addFlags foundDirty false true rfl, usage.trans dirtyOthers.1,
      best.trans dirtyOthers.2⟩
    change (((cache.setCoin outpoint coin).setDirty outpoint).addFlags outpoint false
      true).cacheCoins = _
    rw [addFlags_cacheCoins foundDirty, setDirty, dirtyStored, update_idem]
    simp only [Bool.or_true, Bool.or_false]

/-- The entry that `AddCoin` leaves where it does not throw. -/
def addedEntry (coin : Coin) (possible_overwrite : Bool) (existing : Option CCoinsCacheEntry) :
    CCoinsCacheEntry :=
  ⟨coin, true, (existing.map CCoinsCacheEntry.fresh).getD false ||
    (!possible_overwrite && !(existing.map CCoinsCacheEntry.dirty).getD false)⟩

theorem sets_added (tracked : cache.Tracked) {coin : Coin} {possible_overwrite : Bool}
    (live : coin.isSpent = false) (spendable : coin.out.scriptPubKey.isUnspendable = false)
    (absent : possible_overwrite = false →
      (((cache.cacheCoins outpoint).map CCoinsCacheEntry.coin).getD .empty).isSpent = true) :
    ∃ after, cache.addCoin outpoint coin possible_overwrite = (after, none) ∧
      Sets cache after outpoint
        (some (addedEntry coin possible_overwrite (cache.cacheCoins outpoint))) := by
  rw [addCoin, if_neg (by simp [live]), if_neg (by simp [spendable])]
  dsimp only
  generalize counted : (if (cache.cacheCoins outpoint).isSome = true then
    cache.subUsage (((cache.cacheCoins outpoint).map CCoinsCacheEntry.coin).getD .empty)
    else cache) = start
  have startCoins : start.cacheCoins = cache.cacheCoins ∧ start.Tracked ∧
      start.cachedCoinsUsage = cache.cachedCoinsUsage - usageAt (cache.cacheCoins outpoint) ∧
      start.hashBlock = cache.hashBlock := by
    rw [← counted]
    cases cache.cacheCoins outpoint with
    | none => exact ⟨rfl, tracked, (UInt64.sub_zero _).symm, rfl⟩
    | some entry => exact ⟨rfl, tracked.subUsage _, rfl, rfl⟩
  obtain ⟨coins, startTracked, usage, best⟩ := startCoins
  rw [if_neg (by
    cases possible_overwrite with
    | true => simp
    | false => simp [absent rfl])]
  obtain ⟨stored, trackedAfter, usageAfter, bestAfter⟩ := startTracked.written coins rfl coin
    (!possible_overwrite && !((cache.cacheCoins outpoint).map CCoinsCacheEntry.dirty).getD false)
  exact ⟨_, rfl, stored, trackedAfter.addUsage coin,
    congrArg (· + coin.dynamicMemoryUsage) (usageAfter.trans usage), bestAfter.trans best⟩

/-- The entry that spending leaves. -/
def spentEntry (entry : CCoinsCacheEntry) : Option CCoinsCacheEntry :=
  if entry.fresh then none else some ⟨.empty, true, false⟩

theorem sets_spent (tracked : cache.Tracked) (found : cache.cacheCoins outpoint = some entry) :
    Sets cache (cache.spendFetched outpoint entry) outpoint (spentEntry entry) := by
  unfold spendFetched spentEntry
  cases isFresh : entry.fresh with
  | true => exact sets_dropped tracked found
  | false =>
    have foundUsage : (cache.subUsage entry.coin).cacheCoins outpoint = some entry := found
    have dirty := addFlags_cacheCoins foundUsage true false
    have trackedDirty := (tracked.subUsage entry.coin).addFlags foundUsage true false rfl
    obtain ⟨usage, best⟩ := addFlags_others (cache.subUsage entry.coin) outpoint true false
    refine ⟨?_, trackedDirty.setCoin outpoint .empty, ?_, best⟩
    · change (setCoin _ _ _).cacheCoins = _
      rw [setCoin_cacheCoins, setDirty, dirty, update_idem, update_self, isFresh, Bool.or_true]
      rfl
    · rw [found]
      exact usage.trans (UInt64.add_zero _).symm

/-- The entry left after writing a DIRTY entry of a child. -/
def mergedEntry (child : CCoinsCacheEntry) : Option CCoinsCacheEntry → Option CCoinsCacheEntry
  | none =>
    if child.fresh && child.coin.isSpent then none else some ⟨child.coin, true, child.fresh⟩
  | some entry =>
    if entry.fresh && child.coin.isSpent then none else some ⟨child.coin, true, entry.fresh⟩

theorem sets_merged (tracked : cache.Tracked) {child : CCoinsCacheEntry}
    (isDirty : child.dirty = true)
    (applied : ∀ entry, cache.cacheCoins outpoint = some entry →
      ¬(child.fresh && !entry.coin.isSpent) = true) :
    ∃ after, cache.batchWriteEntry outpoint child = (after, none) ∧
      Sets cache after outpoint (mergedEntry child (cache.cacheCoins outpoint)) := by
  rw [batchWriteEntry, isDirty]
  cases found : cache.cacheCoins outpoint with
  | none =>
    rw [mergedEntry]
    by_cases gone : (child.fresh && child.coin.isSpent) = true
    · simp only [if_pos gone]
      refine ⟨cache, rfl, ?_, tracked, ?_, rfl⟩
      · rw [← found, update_eq_self]
      · rw [found]
        exact ((UInt64.add_zero _).trans (UInt64.sub_zero _)).symm
    · simp only [if_neg gone]
      obtain ⟨stored, trackedAfter, usage, best⟩ := (tracked.addUsage child.coin).written rfl
        (show ((cache.cacheCoins outpoint).map CCoinsCacheEntry.fresh).getD false = false by
          rw [found]; rfl) child.coin child.fresh
      refine ⟨_, rfl, stored, trackedAfter, usage.trans ?_, best⟩
      rw [found]
      exact congrArg (· + _) (UInt64.sub_zero _).symm
  | some entry =>
    rw [mergedEntry]
    simp only [if_neg (applied entry found)]
    by_cases gone : (entry.fresh && child.coin.isSpent) = true
    · simp only [if_pos gone]
      exact ⟨_, rfl, sets_dropped tracked found⟩
    · simp only [if_neg gone]
      obtain ⟨stored, trackedAfter, usage, best⟩ :=
        ((tracked.subUsage entry.coin).addUsage child.coin).written rfl
          (show ((cache.cacheCoins outpoint).map CCoinsCacheEntry.fresh).getD false = entry.fresh by
            rw [found]; rfl) child.coin false
      rw [Bool.or_false] at stored
      refine ⟨_, rfl, stored, trackedAfter, usage.trans ?_, best⟩
      rw [found]
      rfl

def keptEntry (entry : CCoinsCacheEntry) : Option CCoinsCacheEntry :=
  if entry.coin.isSpent then none else some { entry with dirty := false, fresh := false }

theorem sets_kept (tracked : cache.Tracked) (found : cache.cacheCoins outpoint = some entry) :
    Sets cache (cache.keepEntry outpoint entry) outpoint (keptEntry entry) := by
  unfold keepEntry keptEntry
  cases spent : entry.coin.isSpent with
  | true => exact sets_dropped tracked found
  | false =>
    have clean : cache.setClean outpoint = { cache with
        cacheCoins := Function.update cache.cacheCoins outpoint
          (some { entry with dirty := false, fresh := false })
        flagged := cache.flagged.erase outpoint } := by
      simp only [setClean, found]
    rw [clean]
    refine ⟨rfl, tracked.unlist rfl rfl ?_, ?_, rfl⟩
    · intro _ same
      cases same
      exact Bool.false_ne_true
    · rw [found]
      exact (UInt64.sub_add_cancel _ _).symm

/-- A rule for the entries that a cursor leaves behind, one after the other. -/
theorem foldl_keepEntry {holds : CCoinsViewCache → Prop}
    (tracks : ∀ cache, holds cache → cache.Tracked)
    (keeps : ∀ cache after outpoint entry, holds cache →
      Sets cache after outpoint (keptEntry entry) → holds after)
    (items : List (COutPoint × CCoinsCacheEntry)) (cache : CCoinsViewCache) (start : holds cache)
    (distinct : (items.map Prod.fst).Nodup)
    (found : ∀ item ∈ items, cache.cacheCoins item.1 = some item.2) :
    let after := items.foldl (fun cache item => cache.keepEntry item.1 item.2) cache
    holds after ∧ after.cacheCoins = writeAll keptEntry items cache.cacheCoins := by
  induction items generalizing cache with
  | nil => exact ⟨start, rfl⟩
  | cons item rest ih =>
    rw [List.map_cons, List.nodup_cons] at distinct
    have sets := sets_kept (tracks cache start) (found item List.mem_cons_self)
    obtain ⟨after, coins⟩ := ih _ (keeps _ _ _ _ start sets) distinct.2 (by
      intro other member
      rw [sets.stored, update_of_ne (ne_of_mem_of_not_mem (List.mem_map_of_mem member) distinct.1)]
      exact found other (List.mem_cons_of_mem _ member))
    rw [sets.stored] at coins
    exact ⟨after, coins⟩

/-- What an entry may be over what the parent shows. -/
structure EntrySound (parent : Option Coin) (entry : CCoinsCacheEntry) : Prop where
  clean : entry.dirty = false →
    entry.fresh = false ∧ entry.coin.isSpent = false ∧ parent = some entry.coin
  fresh : entry.fresh = true → parent = none ∧ entry.coin.isSpent = false

theorem EntrySound.flagged_eq {parent : Option Coin} (sound : EntrySound parent entry) :
    entry.flagged = entry.dirty := by
  unfold CCoinsCacheEntry.flagged
  cases dirty : entry.dirty with
  | true => rfl
  | false => rw [(sound.clean dirty).1, Bool.or_false]

structure LayerSound (cache : CCoinsViewCache) (parent : CoinMap) : Prop where
  entries : ∀ outpoint entry, cache.cacheCoins outpoint = some entry →
    EntrySound (parent outpoint) entry
  tracked : cache.Tracked

theorem Tracked.of_empty (coins : ∀ outpoint, cache.cacheCoins outpoint = none)
    (list : cache.flagged = []) : cache.Tracked := by
  constructor
  · intro outpoint
    simp [list, coins]
  · rw [list]
    exact List.nodup_nil

theorem LayerSound.new (parent : CoinMap) : LayerSound CCoinsViewCache.new parent :=
  ⟨nofun, .of_empty (fun _ => rfl) rfl⟩

theorem LayerSound.flushed (cache : CCoinsViewCache) (parent : CoinMap) :
    LayerSound cache.flushed parent ∧ cache.flushed.shows parent = parent :=
  ⟨⟨nofun, .of_empty (fun _ => rfl) rfl⟩, rfl⟩

theorem visible_none_iff (entry : CCoinsCacheEntry) :
    visible (some entry) = none ↔ entry.coin.isSpent = true := by
  unfold visible
  cases spent : entry.coin.isSpent <;> simp [spent]

theorem visible_of_live (live : entry.coin.isSpent = false) :
    visible (some entry) = some entry.coin :=
  (visible_some_iff entry _).mpr ⟨live, rfl⟩

variable {parent : CoinMap}

theorem shows_of_some (parent : CoinMap) (found : cache.cacheCoins outpoint = some entry) :
    cache.shows parent outpoint = visible (some entry) := by
  unfold shows
  rw [found]
  rfl

theorem shows_of_none (parent : CoinMap) (missing : cache.cacheCoins outpoint = none) :
    cache.shows parent outpoint = parent outpoint := by
  unfold shows
  rw [missing]
  rfl

theorem LayerSound.sets (sound : LayerSound cache parent) {entry : Option CCoinsCacheEntry}
    (sets : Sets cache after outpoint entry)
    (fits : ∀ found, entry = some found → EntrySound (parent outpoint) found) :
    LayerSound after parent ∧ after.shows parent =
      Function.update (cache.shows parent) outpoint (showsEntry (parent outpoint) entry) := by
  refine ⟨⟨sets.entries sound.entries fits, sets.tracked⟩, ?_⟩
  funext other
  unfold shows
  rw [sets.stored]
  by_cases same : other = outpoint
  · subst same
    rw [update_self, update_self]
  · rw [update_of_ne same, update_of_ne same]

/-! ### Single operations -/

theorem LayerSound.fetched (sound : LayerSound cache parent)
    (missing : cache.cacheCoins outpoint = none)
    (unspent : ∀ coin, parent outpoint = some coin → coin.isSpent = false) :
    LayerSound (cache.fetched outpoint (parent outpoint)) parent ∧
      (cache.fetched outpoint (parent outpoint)).shows parent = cache.shows parent ∧
      visible ((cache.fetched outpoint (parent outpoint)).cacheCoins outpoint) =
        parent outpoint := by
  cases found : parent outpoint with
  | none =>
    refine ⟨sound, rfl, ?_⟩
    rw [CCoinsViewCache.fetched, missing]
    rfl
  | some coin =>
    have live := unspent coin found
    have sets := sets_fetched sound.tracked missing coin
    rw [live] at sets
    have shown : visible (some ⟨coin, false, false⟩) = some coin := visible_of_live live
    obtain ⟨layer, shows⟩ := sound.sets sets (by
      intro entry same
      cases same
      exact ⟨fun _ => ⟨rfl, live, found⟩, nofun⟩)
    refine ⟨layer, ?_, ?_⟩
    · rw [shows, showsEntry, shown, ← found, ← shows_of_none parent missing, update_eq_self]
    · rw [sets.stored, update_self, shown]

theorem LayerSound.uncache (sound : LayerSound cache parent) (outpoint : COutPoint) :
    LayerSound (cache.uncache outpoint) parent ∧
      (cache.uncache outpoint).shows parent = cache.shows parent := by
  unfold CCoinsViewCache.uncache
  split
  · exact ⟨sound, rfl⟩
  next entry found =>
    split
    · exact ⟨sound, rfl⟩
    next unflagged =>
      have fits := sound.entries outpoint entry found
      rw [fits.flagged_eq, Bool.not_eq_true] at unflagged
      obtain ⟨_, live, same⟩ := fits.clean unflagged
      obtain ⟨layer, shows⟩ := sound.sets (sets_dropped sound.tracked found) nofun
      refine ⟨layer, ?_⟩
      rw [shows, showsEntry, same, ← visible_of_live live, ← shows_of_some parent found,
        update_eq_self]

/-- `AddCoin` where the caller keeps the rule on overwriting. -/
theorem LayerSound.addCoin (sound : LayerSound cache parent) (outpoint : COutPoint) (coin : Coin)
    (possible_overwrite : Bool) (live : coin.isSpent = false)
    (absent : possible_overwrite = false → cache.shows parent outpoint = none) :
    ∃ after, cache.addCoin outpoint coin possible_overwrite = (after, none) ∧
      LayerSound after parent ∧ after.hashBlock = cache.hashBlock ∧
      after.shows parent =
        if coin.out.scriptPubKey.isUnspendable then cache.shows parent
        else Function.update (cache.shows parent) outpoint (some coin) := by
  by_cases unspendable : coin.out.scriptPubKey.isUnspendable = true
  · rw [CCoinsViewCache.addCoin, if_neg (by simp [live]), if_pos unspendable, if_pos unspendable]
    exact ⟨cache, rfl, sound, rfl, rfl⟩
  rw [if_neg unspendable]
  -- without permission to overwrite, the entry is spent or missing
  have oldSpent : possible_overwrite = false →
      (((cache.cacheCoins outpoint).map CCoinsCacheEntry.coin).getD .empty).isSpent = true := by
    intro strict
    have nothing := absent strict
    cases found : cache.cacheCoins outpoint with
    | none => rfl
    | some entry =>
      rw [shows_of_some parent found] at nothing
      exact (visible_none_iff entry).mp nothing
  obtain ⟨after, added, sets⟩ :=
    sets_added sound.tracked live (Bool.not_eq_true _ ▸ unspendable) oldSpent
  obtain ⟨layer, shows⟩ := sound.sets sets (by
    intro entry same
    cases same
    refine ⟨nofun, ?_⟩
    intro isFresh
    refine ⟨?_, live⟩
    cases found : cache.cacheCoins outpoint with
    | none =>
      rw [found] at isFresh
      have strict : possible_overwrite = false := by simpa [addedEntry] using isFresh
      rw [← shows_of_none parent found]
      exact absent strict
    | some old =>
      have fits := sound.entries outpoint old found
      cases wasFresh : old.fresh with
      | true => exact (fits.fresh wasFresh).1
      | false => ?_
      rw [found] at isFresh oldSpent
      have both : possible_overwrite = false ∧ old.dirty = false := by
        simpa [addedEntry, wasFresh] using isFresh
      have spent : old.coin.isSpent = true := oldSpent both.1
      rw [(fits.clean both.2).2.1] at spent
      cases spent)
  refine ⟨after, added, layer, sets.hashBlock, ?_⟩
  rw [shows, showsEntry, visible_of_live live]
  rfl

theorem LayerSound.spendFetched (sound : LayerSound cache parent)
    (found : cache.cacheCoins outpoint = some entry) :
    LayerSound (cache.spendFetched outpoint entry) parent ∧
      (cache.spendFetched outpoint entry).shows parent =
        Function.update (cache.shows parent) outpoint none := by
  have fits := sound.entries outpoint entry found
  have sets := sets_spent sound.tracked found
  unfold spentEntry at sets
  cases isFresh : entry.fresh with
  | true =>
    rw [if_pos isFresh] at sets
    rw [← (fits.fresh isFresh).1]
    exact sound.sets sets nofun
  | false =>
    rw [isFresh] at sets
    refine sound.sets sets ?_
    intro after same
    cases same
    exact ⟨nofun, nofun⟩

/-! ### Writing a child's entries -/

/-- What a child's flagged entry satisfies over what this cache shows. -/
structure ChildEntry (shown : Option Coin) (child : CCoinsCacheEntry) : Prop where
  dirty : child.dirty = true
  fresh : child.fresh = true → shown = none ∧ child.coin.isSpent = false

theorem LayerSound.batchWriteEntry (sound : LayerSound cache parent) {child : CCoinsCacheEntry}
    (fits : ChildEntry (cache.shows parent outpoint) child) :
    ∃ after, cache.batchWriteEntry outpoint child = (after, none) ∧ LayerSound after parent ∧
      after.shows parent =
        Function.update (cache.shows parent) outpoint (visible (some child)) := by
  obtain ⟨after, wrote, sets⟩ := @sets_merged _ outpoint sound.tracked child fits.dirty (by
    intro entry found
    rw [Bool.and_eq_true, Bool.not_eq_true']
    rintro ⟨isFresh, live⟩
    have nothing := (fits.fresh isFresh).1
    rw [shows_of_some parent found, visible_of_live live] at nothing
    cases nothing)
  refine ⟨after, wrote, ?_⟩
  cases found : cache.cacheCoins outpoint with
  | none =>
    have notGone : ¬ (child.fresh && child.coin.isSpent) = true := by
      rw [Bool.and_eq_true]
      rintro ⟨isFresh, spent⟩
      rw [(fits.fresh isFresh).2] at spent
      cases spent
    rw [found, mergedEntry, if_neg notGone] at sets
    refine sound.sets sets ?_
    intro entry same
    cases same
    refine ⟨nofun, ?_⟩
    intro isFresh
    rw [← shows_of_none parent found]
    exact fits.fresh isFresh
  | some entry =>
    have old := sound.entries outpoint entry found
    rw [found, mergedEntry] at sets
    by_cases gone : (entry.fresh && child.coin.isSpent) = true
    · rw [if_pos gone] at sets
      rw [Bool.and_eq_true] at gone
      rw [(visible_none_iff child).mpr gone.2, ← (old.fresh gone.1).1]
      exact sound.sets sets nofun
    · rw [if_neg gone] at sets
      refine sound.sets sets ?_
      intro after same
      cases same
      refine ⟨nofun, ?_⟩
      intro isFresh
      refine ⟨(old.fresh isFresh).1, ?_⟩
      rw [Bool.and_eq_true, not_and, Bool.not_eq_true] at gone
      exact gone isFresh

/-- What a child's entries make of the map below. -/
def through (cursor : List (COutPoint × CCoinsCacheEntry)) (below : CoinMap) : CoinMap :=
  writeAll (fun entry => visible (some entry)) cursor below

theorem LayerSound.batchWriteEntries (sound : LayerSound cache parent)
    (items : List (COutPoint × CCoinsCacheEntry)) (distinct : (items.map Prod.fst).Nodup)
    (fits : ∀ item ∈ items, ChildEntry (cache.shows parent item.1) item.2) :
    ∃ after, cache.batchWriteEntries items = (after, none) ∧ LayerSound after parent ∧
      after.shows parent = through items (cache.shows parent) := by
  induction items generalizing cache with
  | nil => exact ⟨cache, rfl, sound, rfl⟩
  | cons item rest ih =>
    rw [List.map_cons, List.nodup_cons] at distinct
    obtain ⟨next, wrote, nextSound, nextShows⟩ :=
      sound.batchWriteEntry (fits item List.mem_cons_self)
    obtain ⟨after, wroteRest, afterSound, shown⟩ := ih nextSound distinct.2 (by
      intro other member
      rw [nextShows,
        update_of_ne (ne_of_mem_of_not_mem (List.mem_map_of_mem member) distinct.1)]
      exact fits other (List.mem_cons_of_mem _ member))
    refine ⟨after, ?_, afterSound, ?_⟩
    · simp only [CCoinsViewCache.batchWriteEntries, wrote, wroteRest]
    · rw [shown, nextShows]
      rfl

theorem mem_cursor_iff (cache : CCoinsViewCache) (outpoint : COutPoint) (entry : CCoinsCacheEntry) :
    (outpoint, entry) ∈ cache.cursor ↔
      outpoint ∈ cache.flagged ∧ cache.cacheCoins outpoint = some entry := by
  unfold cursor
  rw [List.mem_filterMap]
  constructor
  · rintro ⟨other, member, found⟩
    obtain ⟨stored, at_, same⟩ := Option.map_eq_some_iff.mp found
    cases same
    exact ⟨member, at_⟩
  · rintro ⟨member, found⟩
    exact ⟨outpoint, member, by rw [found]; rfl⟩

theorem Tracked.cursor_keys (tracked : cache.Tracked) :
    cache.cursor.map Prod.fst = cache.flagged := by
  have keys : ∀ list : List COutPoint, (∀ outpoint ∈ list, outpoint ∈ cache.flagged) →
      (list.filterMap fun outpoint =>
        (cache.cacheCoins outpoint).map fun entry => (outpoint, entry)).map Prod.fst = list := by
    intro list
    induction list with
    | nil => exact fun _ => rfl
    | cons outpoint rest ih =>
      intro within
      obtain ⟨entry, found, _⟩ :=
        (tracked.listed outpoint).mp (within outpoint List.mem_cons_self)
      have restKeys := ih (fun other member => within other (List.mem_cons_of_mem _ member))
      rw [List.filterMap_cons, found, Option.map_some, List.map_cons, restKeys]
  exact keys cache.flagged (fun _ member => member)

theorem LayerSound.cursor_fits (sound : LayerSound cache parent) :
    ∀ item ∈ cache.cursor, ChildEntry (parent item.1) item.2 := by
  rintro ⟨outpoint, entry⟩ member
  obtain ⟨listed, found⟩ := (cache.mem_cursor_iff outpoint entry).mp member
  have fits := sound.entries outpoint entry found
  exact ⟨fits.flagged_eq ▸ (sound.tracked.mem_iff found).mp listed, fits.fresh⟩

/-- An entry off the list repeats what the parent shows. -/
theorem LayerSound.shows_unlisted (sound : LayerSound cache parent)
    (found : cache.cacheCoins outpoint = some entry) (unlisted : outpoint ∉ cache.flagged) :
    entry.dirty = false ∧ entry.fresh = false ∧ entry.coin.isSpent = false ∧
      parent outpoint = some entry.coin := by
  have fits := sound.entries outpoint entry found
  rw [sound.tracked.mem_iff found, fits.flagged_eq, Bool.not_eq_true] at unlisted
  exact ⟨unlisted, fits.clean unlisted⟩

theorem LayerSound.written_through (sound : LayerSound cache parent) :
    through cache.cursor parent = cache.shows parent := by
  have keys := sound.tracked.cursor_keys
  funext outpoint
  by_cases listed : outpoint ∈ cache.flagged
  · obtain ⟨entry, found, _⟩ := (sound.tracked.listed outpoint).mp listed
    rw [shows_of_some parent found]
    exact writeAll_of_mem (keys ▸ sound.tracked.once)
      ((cache.mem_cursor_iff outpoint entry).mpr ⟨listed, found⟩)
  · rw [through, writeAll_of_not_mem (keys ▸ listed)]
    cases found : cache.cacheCoins outpoint with
    | none => exact (shows_of_none parent found).symm
    | some entry =>
      obtain ⟨_, _, live, same⟩ := sound.shows_unlisted found listed
      rw [shows_of_some parent found, visible_of_live live, same]

/-- A synced cache holds only clean entries over the view it was written to. -/
theorem LayerSound.synced (sound : LayerSound cache parent) :
    cache.synced.flagged = [] ∧ LayerSound cache.synced (cache.shows parent) ∧
      cache.synced.shows (cache.shows parent) = cache.shows parent := by
  have keys := sound.tracked.cursor_keys
  have distinct : (cache.cursor.map Prod.fst).Nodup := keys ▸ sound.tracked.once
  obtain ⟨tracked, coins⟩ := foldl_keepEntry (fun _ tracked => tracked)
    (fun _ _ _ _ _ sets => sets.tracked) cache.cursor cache sound.tracked distinct
    (fun item member => ((cache.mem_cursor_iff item.1 item.2).mp member).2)
  change cache.synced.Tracked at tracked
  change cache.synced.cacheCoins = _ at coins
  -- every entry left is clean and equal to what the cache showed
  have entries : ∀ outpoint entry, cache.synced.cacheCoins outpoint = some entry →
      entry.dirty = false ∧ entry.fresh = false ∧ entry.coin.isSpent = false ∧
        cache.shows parent outpoint = some entry.coin := by
    intro outpoint entry left
    rw [coins] at left
    by_cases listed : outpoint ∈ cache.flagged
    · obtain ⟨old, found, _⟩ := (sound.tracked.listed outpoint).mp listed
      rw [writeAll_of_mem distinct ((cache.mem_cursor_iff outpoint old).mpr ⟨listed, found⟩),
        keptEntry] at left
      split at left
      · cases left
      next live =>
        cases left
        rw [Bool.not_eq_true] at live
        rw [shows_of_some parent found, visible_of_live live]
        exact ⟨rfl, rfl, live, rfl⟩
    · rw [writeAll_of_not_mem (keys ▸ listed)] at left
      obtain ⟨dirty, notFresh, live, _⟩ := sound.shows_unlisted left listed
      rw [shows_of_some parent left, visible_of_live live]
      exact ⟨dirty, notFresh, live, rfl⟩
  refine ⟨?_, ⟨?_, tracked⟩, ?_⟩
  · refine List.eq_nil_iff_forall_not_mem.mpr fun outpoint listed => ?_
    obtain ⟨entry, left, flagged⟩ := (tracked.listed outpoint).mp listed
    obtain ⟨clean, notFresh, _⟩ := entries outpoint entry left
    rw [CCoinsCacheEntry.flagged, clean, notFresh] at flagged
    cases flagged
  · intro outpoint entry left
    obtain ⟨_, notFresh, live, shown⟩ := entries outpoint entry left
    exact ⟨fun _ => ⟨notFresh, live, shown⟩,
      fun isFresh => by rw [notFresh] at isFresh; cases isFresh⟩
  · funext outpoint
    cases left : cache.synced.cacheCoins outpoint with
    | none => rw [shows_of_none _ left]
    | some entry =>
      obtain ⟨_, _, live, shown⟩ := entries outpoint entry left
      rw [shows_of_some _ left, shown, visible_of_live live]

end CCoinsViewCache

end Adonai.Coins
