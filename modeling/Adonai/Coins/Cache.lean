/-
The coins cache: entries with DIRTY and FRESH flags over a parent view.

A stack of caches is the list of its layers, the top one first, over a base map. Reading may fetch
the coin into every layer on the way, so reads return the layers as they leave them. The circular
list of flagged entries is the list of their outpoints.
-/

import Adonai.Primitives.Transaction

namespace Adonai.Coins

structure CCoinsCacheEntry where
  coin : Coin
  dirty : Bool
  fresh : Bool
  deriving DecidableEq, Repr

namespace CCoinsCacheEntry

def flagged (entry : CCoinsCacheEntry) : Bool := entry.dirty || entry.fresh

end CCoinsCacheEntry

structure CCoinsViewCache where
  hashBlock : Uint256
  cacheCoins : COutPoint → Option CCoinsCacheEntry
  flagged : List COutPoint
  cachedCoinsUsage : UInt64

/-- A plain map of unspent coins with its best block, such as the coins database. -/
structure BaseView where
  coins : COutPoint → Option Coin
  hashBlock : Uint256
  unspent : ∀ outpoint coin, coins outpoint = some coin → coin.isSpent = false

inductive CoinsError where
  | spentCoinAdded
  | overwritesUnspent
  | freshMisapplied
  | flagsNotCleared
  deriving DecidableEq, Repr

namespace CCoinsViewCache

def new : CCoinsViewCache :=
  { hashBlock := 0, cacheCoins := fun _ => none, flagged := [], cachedCoinsUsage := 0 }

variable (cache : CCoinsViewCache)

def setCoin (outpoint : COutPoint) (coin : Coin) : CCoinsViewCache :=
  let entry := (cache.cacheCoins outpoint).getD { coin := .empty, dirty := false, fresh := false }
  { cache with
    cacheCoins := Function.update cache.cacheCoins outpoint (some { entry with coin := coin }) }

/-- `AddFlags`: an entry without flags joins the end of the list. -/
def addFlags (outpoint : COutPoint) (dirty fresh : Bool) : CCoinsViewCache :=
  match cache.cacheCoins outpoint with
  | none => cache
  | some entry =>
    { cache with
      cacheCoins := Function.update cache.cacheCoins outpoint
        (some { entry with dirty := entry.dirty || dirty, fresh := entry.fresh || fresh })
      flagged := if entry.flagged then cache.flagged else cache.flagged ++ [outpoint] }

def setDirty (outpoint : COutPoint) : CCoinsViewCache := cache.addFlags outpoint true false

def setFresh (outpoint : COutPoint) : CCoinsViewCache := cache.addFlags outpoint false true

def setClean (outpoint : COutPoint) : CCoinsViewCache :=
  match cache.cacheCoins outpoint with
  | none => cache
  | some entry =>
    { cache with
      cacheCoins := Function.update cache.cacheCoins outpoint
        (some { entry with dirty := false, fresh := false })
      flagged := cache.flagged.erase outpoint }

def erase (cache : CCoinsViewCache) (outpoint : COutPoint) : CCoinsViewCache :=
  { cache with
    cacheCoins := Function.update cache.cacheCoins outpoint none
    flagged := cache.flagged.erase outpoint }

def addUsage (coin : Coin) : CCoinsViewCache :=
  { cache with cachedCoinsUsage := cache.cachedCoinsUsage + coin.dynamicMemoryUsage }

def subUsage (coin : Coin) : CCoinsViewCache :=
  { cache with cachedCoinsUsage := cache.cachedCoinsUsage - coin.dynamicMemoryUsage }

/-- The second half of `FetchCoin`, once the parent has answered. -/
def fetched (outpoint : COutPoint) (found : Option Coin) : CCoinsViewCache :=
  match found with
  | none => cache
  | some coin =>
    let cache := (cache.setCoin outpoint coin).addUsage coin
    if coin.isSpent then cache.setFresh outpoint else cache

def visible (entry : Option CCoinsCacheEntry) : Option Coin :=
  entry.bind fun entry => if entry.coin.isSpent then none else some entry.coin

theorem visible_some_iff (entry : CCoinsCacheEntry) (coin : Coin) :
    visible (some entry) = some coin ↔ entry.coin.isSpent = false ∧ entry.coin = coin := by
  unfold visible
  cases spent : entry.coin.isSpent with
  | true => simp [spent]
  | false => simp [spent]

def cursor : List (COutPoint × CCoinsCacheEntry) :=
  cache.flagged.filterMap fun outpoint =>
    (cache.cacheCoins outpoint).map fun entry => (outpoint, entry)

def addCoin (outpoint : COutPoint) (coin : Coin)
    (possible_overwrite : Bool) : CCoinsViewCache × Option CoinsError :=
  if coin.isSpent then (cache, some .spentCoinAdded)
  else if coin.out.scriptPubKey.isUnspendable then (cache, none)
  else
    let existing := cache.cacheCoins outpoint
    let old := (existing.map CCoinsCacheEntry.coin).getD .empty
    let wasDirty := (existing.map CCoinsCacheEntry.dirty).getD false
    let cache := if existing.isSome then cache.subUsage old else cache
    if !possible_overwrite && !old.isSpent then (cache, some .overwritesUnspent)
    else
      let fresh := !possible_overwrite && !wasDirty
      let cache := (cache.setCoin outpoint coin).setDirty outpoint
      let cache := if fresh then cache.setFresh outpoint else cache
      (cache.addUsage coin, none)

/-- `SpendCoin` once the entry has been fetched: the coin handed out and the cache. -/
def spendFetched (outpoint : COutPoint) (entry : CCoinsCacheEntry) : CCoinsViewCache :=
  let cache := cache.subUsage entry.coin
  if entry.fresh then cache.erase outpoint
  else (cache.setDirty outpoint).setCoin outpoint .empty

def uncache (outpoint : COutPoint) : CCoinsViewCache :=
  match cache.cacheCoins outpoint with
  | none => cache
  | some entry => if entry.flagged then cache else (cache.subUsage entry.coin).erase outpoint

def batchWriteEntry (outpoint : COutPoint)
    (child : CCoinsCacheEntry) : CCoinsViewCache × Option CoinsError :=
  if !child.dirty then (cache, none)
  else
    match cache.cacheCoins outpoint with
    | none =>
      if child.fresh && child.coin.isSpent then (cache, none)
      else
        let cache := ((cache.setCoin outpoint child.coin).addUsage child.coin).setDirty outpoint
        (if child.fresh then cache.setFresh outpoint else cache, none)
    | some entry =>
      if child.fresh && !entry.coin.isSpent then (cache, some .freshMisapplied)
      else if entry.fresh && child.coin.isSpent then
        ((cache.subUsage entry.coin).erase outpoint, none)
      else
        (((cache.subUsage entry.coin).setCoin outpoint child.coin).addUsage child.coin
          |>.setDirty outpoint, none)

def batchWriteEntries (cache : CCoinsViewCache) :
    List (COutPoint × CCoinsCacheEntry) → CCoinsViewCache × Option CoinsError
  | [] => (cache, none)
  | (outpoint, child) :: rest =>
    match cache.batchWriteEntry outpoint child with
    | (cache, some error) => (cache, some error)
    | (cache, none) => cache.batchWriteEntries rest

def batchWrite (cursor : List (COutPoint × CCoinsCacheEntry))
    (hashBlock : Uint256) : CCoinsViewCache × Option CoinsError :=
  match cache.batchWriteEntries cursor with
  | (cache, some error) => (cache, some error)
  | (cache, none) => ({ cache with hashBlock := hashBlock }, none)

/-- `NextAndMaybeErase` of a cursor that keeps the cache. -/
def keepEntry (outpoint : COutPoint) (entry : CCoinsCacheEntry) : CCoinsViewCache :=
  if entry.coin.isSpent then (cache.subUsage entry.coin).erase outpoint else cache.setClean outpoint

def synced : CCoinsViewCache :=
  cache.cursor.foldl (fun cache item => cache.keepEntry item.1 item.2) cache

def flushed : CCoinsViewCache :=
  { cache with cacheCoins := fun _ => none, flagged := [], cachedCoinsUsage := 0 }

end CCoinsViewCache

namespace BaseView

open CCoinsViewCache

def empty : BaseView :=
  { coins := fun _ => none, hashBlock := 0, unspent := nofun }

def writeEntry (base : BaseView) (item : COutPoint × CCoinsCacheEntry) : BaseView :=
  if item.2.dirty then
    { base with
      coins := Function.update base.coins item.1 (visible (some item.2))
      unspent := by
        intro outpoint coin stored
        rw [Function.update_apply] at stored
        split at stored
        · obtain ⟨live, same⟩ := (visible_some_iff _ _).mp stored
          rw [← same]
          exact live
        · exact base.unspent outpoint coin stored }
  else base

def batchWrite (base : BaseView) (cursor : List (COutPoint × CCoinsCacheEntry))
    (hashBlock : Uint256) : BaseView :=
  { cursor.foldl writeEntry base with hashBlock := hashBlock }

end BaseView

structure CoinsStack where
  caches : List CCoinsViewCache
  base : BaseView

open CCoinsViewCache

def getCoin (base : BaseView) (outpoint : COutPoint) :
    List CCoinsViewCache → List CCoinsViewCache × Option Coin
  | [] => ([], base.coins outpoint)
  | cache :: below =>
    match cache.cacheCoins outpoint with
    | some entry => (cache :: below, visible (some entry))
    | none =>
      let parent := getCoin base outpoint below
      let cache := cache.fetched outpoint parent.2
      (cache :: parent.1, visible (cache.cacheCoins outpoint))

def haveCoin (base : BaseView) (outpoint : COutPoint) (caches : List CCoinsViewCache) :
    List CCoinsViewCache × Bool :=
  let result := getCoin base outpoint caches
  (result.1, result.2.isSome)

/-- `SpendCoin` on the top layer: the layers afterwards, the coin handed out, and
the return value, which is true for every entry found, spent or not. -/
def spendCoin (base : BaseView) (outpoint : COutPoint) :
    List CCoinsViewCache → List CCoinsViewCache × Option Coin
  | [] => ([], none)
  | cache :: below =>
    let (cache, below) :=
      match cache.cacheCoins outpoint with
      | some _ => (cache, below)
      | none =>
        let parent := getCoin base outpoint below
        (cache.fetched outpoint parent.2, parent.1)
    match cache.cacheCoins outpoint with
    | none => (cache :: below, none)
    | some entry => (cache.spendFetched outpoint entry :: below, some entry.coin)

def batchWriteBelow (cache : CCoinsViewCache) (below : List CCoinsViewCache) (base : BaseView) :
    (List CCoinsViewCache × BaseView) × Option CoinsError :=
  match below with
  | [] => (([], base.batchWrite cache.cursor cache.hashBlock), none)
  | parent :: rest =>
    let (parent, error) := parent.batchWrite cache.cursor cache.hashBlock
    ((parent :: rest, base), error)

def flush (caches : List CCoinsViewCache) (base : BaseView) : CoinsStack × Option CoinsError :=
  match caches with
  | [] => (⟨[], base⟩, none)
  | cache :: below =>
    match batchWriteBelow cache below base with
    | ((below, base), some error) => (⟨cache :: below, base⟩, some error)
    | ((below, base), none) => (⟨cache.flushed :: below, base⟩, none)

def sync (caches : List CCoinsViewCache) (base : BaseView) : CoinsStack × Option CoinsError :=
  match caches with
  | [] => (⟨[], base⟩, none)
  | cache :: below =>
    match batchWriteBelow cache below base with
    | ((below, base), some error) => (⟨cache :: below, base⟩, some error)
    | ((below, base), none) =>
      let cache := cache.synced
      (⟨cache :: below, base⟩, if cache.flagged.isEmpty then none else some .flagsNotCleared)

end Adonai.Coins
