/-
A stack of caches against a list of plain maps.

The plain model keeps one map for every view. Reading, fetching and uncaching leave all maps as
they are; adding and spending change the top map; `Sync` and `Flush` at a level copy its map over
the next one.
-/

import Adonai.Coins.Layer
import Adonai.Foundation.Run

namespace Adonai.Coins

open CCoinsViewCache

def read (base : BaseView) : List CCoinsViewCache → CoinMap
  | [] => base.coins
  | cache :: below => cache.shows (read base below)

def views (base : BaseView) : List CCoinsViewCache → List CoinMap
  | [] => [base.coins]
  | cache :: below => cache.shows (read base below) :: views base below

def StackSound (base : BaseView) : List CCoinsViewCache → Prop
  | [] => True
  | cache :: below => LayerSound cache (read base below) ∧ StackSound base below

theorem views_head (base : BaseView) (caches : List CCoinsViewCache) :
    (views base caches).head? = some (read base caches) := by
  cases caches with
  | nil => rfl
  | cons cache below => rfl

theorem views_eq_cons (base : BaseView) (caches : List CCoinsViewCache) :
    views base caches = read base caches :: (views base caches).tail := by
  cases caches with
  | nil => rfl
  | cons cache below => rfl

variable {base : BaseView}

theorem read_eq_of_views {base' : BaseView} {caches caches' : List CCoinsViewCache}
    (same : (views base' caches').head? = (views base caches).head?) :
    read base' caches' = read base caches := by
  rw [views_head, views_head] at same
  exact Option.some.inj same

theorem StackSound.unspent {caches : List CCoinsViewCache} (sound : StackSound base caches)
    (outpoint : COutPoint) (coin : Coin) (shown : read base caches outpoint = some coin) :
    coin.isSpent = false := by
  induction caches with
  | nil => exact base.unspent outpoint coin shown
  | cons cache below ih =>
    change cache.shows (read base below) outpoint = some coin at shown
    cases found : cache.cacheCoins outpoint with
    | none =>
      rw [shows_of_none _ found] at shown
      exact ih sound.2 shown
    | some entry =>
      rw [shows_of_some _ found, visible_some_iff] at shown
      rw [← shown.2]
      exact shown.1

theorem getCoin_spec (base : BaseView) (outpoint : COutPoint) (caches : List CCoinsViewCache)
    (sound : StackSound base caches) : StackSound base (getCoin base outpoint caches).1 ∧
      views base (getCoin base outpoint caches).1 = views base caches ∧
      (getCoin base outpoint caches).2 = read base caches outpoint := by
  induction caches with
  | nil => exact ⟨sound, rfl, rfl⟩
  | cons cache below ih =>
    rw [getCoin]
    cases found : cache.cacheCoins outpoint with
    | some entry => exact ⟨sound, rfl, (shows_of_some _ found).symm⟩
    | none => ?_
    obtain ⟨belowSound, belowViews, answer⟩ := ih sound.2
    have belowRead : read base (getCoin base outpoint below).1 = read base below :=
      read_eq_of_views (by rw [belowViews])
    obtain ⟨layer, shown, seen⟩ := sound.1.fetched found (sound.2.unspent outpoint)
    dsimp only
    rw [answer]
    refine ⟨⟨?_, belowSound⟩, ?_, ?_⟩
    · rw [belowRead]
      exact layer
    · rw [views, belowRead, belowViews, shown]
      rfl
    · rw [seen]
      exact (shows_of_none _ found).symm

theorem BaseView.foldl_writeEntry (items : List (COutPoint × CCoinsCacheEntry)) (base : BaseView)
    (dirty : ∀ item ∈ items, item.2.dirty = true) :
    (items.foldl writeEntry base).coins = through items base.coins := by
  induction items generalizing base with
  | nil => rfl
  | cons head rest ih =>
    rw [List.foldl_cons, ih _ fun item member => dirty item (List.mem_cons_of_mem _ member),
      writeEntry, if_pos (dirty head List.mem_cons_self)]
    rfl

variable {cache : CCoinsViewCache} {below : List CCoinsViewCache}

private theorem batchWriteBelow_spec (sound : StackSound base (cache :: below)) :
    ∃ below' base', batchWriteBelow cache below base = ((below', base'), none) ∧
      StackSound base' below' ∧ read base' below' = cache.shows (read base below) ∧
      (views base' below').tail = (views base below).tail := by
  obtain ⟨layer, belowSound⟩ := sound
  have distinct : (cache.cursor.map Prod.fst).Nodup := by
    rw [layer.tracked.cursor_keys]
    exact layer.tracked.once
  have fits := layer.cursor_fits
  cases below with
  | nil =>
    have wrote := BaseView.foldl_writeEntry cache.cursor base
      fun item member => (fits item member).dirty
    exact ⟨[], base.batchWrite cache.cursor cache.hashBlock, rfl, trivial,
      wrote.trans layer.written_through, rfl⟩
  | cons parent rest =>
    obtain ⟨after, wrote, afterLayer, shown⟩ :=
      belowSound.1.batchWriteEntries cache.cursor distinct fits
    refine ⟨{ after with hashBlock := cache.hashBlock } :: rest, base, ?_, ?_,
      shown.trans layer.written_through, rfl⟩
    · simp only [batchWriteBelow, batchWrite, wrote]
    · exact ⟨⟨afterLayer.entries, afterLayer.tracked.listed, afterLayer.tracked.once⟩, belowSound.2⟩

/-- The view below comes to show what is written, and nothing else changes. -/
def CopiesDown (write : List CCoinsViewCache → BaseView → CoinsStack × Option CoinsError) : Prop :=
  ∀ base cache below, StackSound base (cache :: below) →
    ∃ stack, write (cache :: below) base = (stack, none) ∧ StackSound stack.base stack.caches ∧
      views stack.base stack.caches = read base (cache :: below) :: read base (cache :: below) ::
        (views base below).tail

theorem flush_copiesDown : CopiesDown flush := by
  intro base cache below sound
  obtain ⟨below', base', wrote, belowSound, through, tail⟩ := batchWriteBelow_spec sound
  obtain ⟨layer, shown⟩ := LayerSound.flushed cache (read base' below')
  refine ⟨⟨cache.flushed :: below', base'⟩, ?_, ⟨layer, belowSound⟩, ?_⟩
  · simp only [flush, wrote]
  · rw [views, views_eq_cons base' below', through, tail]
    rfl

theorem sync_copiesDown : CopiesDown sync := by
  intro base cache below sound
  obtain ⟨below', base', wrote, belowSound, through, tail⟩ := batchWriteBelow_spec sound
  obtain ⟨cleared, layer, shown⟩ := sound.1.synced
  rw [← through] at layer shown
  refine ⟨⟨cache.synced :: below', base'⟩, ?_, ⟨layer, belowSound⟩, ?_⟩
  · simp only [sync, wrote, cleared, List.isEmpty_nil, if_true]
  · rw [views, shown, views_eq_cons base' below', through, tail]
    rfl

theorem addCoin_spec (sound : StackSound base (cache :: below)) (outpoint : COutPoint) (coin : Coin)
    (possible_overwrite : Bool) (live : coin.isSpent = false)
    (absent : possible_overwrite = false → read base (cache :: below) outpoint = none) :
    ∃ after, cache.addCoin outpoint coin possible_overwrite = (after, none) ∧
      StackSound base (after :: below) ∧
      read base (after :: below) =
        if coin.out.scriptPubKey.isUnspendable then read base (cache :: below)
        else Function.update (read base (cache :: below)) outpoint (some coin) := by
  obtain ⟨after, added, layer, _, shown⟩ :=
    sound.1.addCoin outpoint coin possible_overwrite live absent
  exact ⟨after, added, ⟨layer, sound.2⟩, shown⟩

theorem spendCoin_spec (sound : StackSound base (cache :: below)) (outpoint : COutPoint) :
    ∃ after below', (spendCoin base outpoint (cache :: below)).1 = after :: below' ∧
      StackSound base (after :: below') ∧ views base below' = views base below ∧
      read base (after :: below') = Function.update (read base (cache :: below)) outpoint none ∧
      (spendCoin base outpoint (cache :: below)).2.filter (fun coin => !coin.isSpent) =
        read base (cache :: below) outpoint := by
  have handed : ∀ entry : CCoinsCacheEntry,
      (some entry.coin).filter (fun coin => !coin.isSpent) = visible (some entry) := by
    intro entry
    cases spent : entry.coin.isSpent with
    | true => simp [Option.filter, visible, spent]
    | false => simp [Option.filter, visible, spent]
  -- the coin is fetched as for reading, and the entry found then is spent
  obtain ⟨top, below', fetched, spends, hands⟩ : ∃ top below',
      getCoin base outpoint (cache :: below) = (top :: below', visible (top.cacheCoins outpoint)) ∧
      (top.cacheCoins outpoint = none → spendCoin base outpoint (cache :: below) =
        (top :: below', none)) ∧
      ∀ entry, top.cacheCoins outpoint = some entry → spendCoin base outpoint (cache :: below) =
        (top.spendFetched outpoint entry :: below', some entry.coin) := by
    rw [getCoin, spendCoin]
    cases found : cache.cacheCoins outpoint with
    | some entry =>
      exact ⟨cache, below, by rw [found], fun none => by simp only [none],
        fun entry some => by simp only [some]⟩
    | none =>
      exact ⟨_, _, rfl, fun none => by simp only [none], fun entry some => by simp only [some]⟩
  obtain ⟨topSound, same, answer⟩ := getCoin_spec base outpoint (cache :: below) sound
  rw [fetched] at topSound same answer
  obtain ⟨shown, belowViews⟩ := List.cons.inj same
  cases found : top.cacheCoins outpoint with
  | none =>
    rw [found] at answer
    rw [spends found]
    refine ⟨top, below', rfl, topSound, belowViews, ?_, answer⟩
    rw [read, shown, show none = read base (cache :: below) outpoint from answer,
      Function.update_eq_self]
    rfl
  | some entry =>
    rw [found] at answer
    rw [hands entry found]
    obtain ⟨layer, spent⟩ := topSound.1.spendFetched found
    refine ⟨_, below', rfl, ⟨layer, topSound.2⟩, belowViews, ?_, (handed entry).trans answer⟩
    rw [read, spent, shown]
    rfl

end Adonai.Coins
