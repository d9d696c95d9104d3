/-
The cache a caller works on, as programs over the stack it stands on.

Every operation is described by what the view shows afterwards. `Becomes` also records that the
stack stays sound, and that the views below and the best block are the same.
-/

import Adonai.Coins.Stack
import Adonai.Foundation.Program

namespace Adonai.Coins

open CCoinsViewCache

/-- What can end a computation on a view: an exception of the cache, a failed
assertion, an output sum out of range, or a signed overflow. -/
inductive Halt where
  | coins (error : CoinsError)
  | assertion
  | valueOutOfRange
  | overflow
  deriving DecidableEq, Repr

structure StackedView where
  view : CCoinsViewCache
  below : List CCoinsViewCache
  base : BaseView

abbrev ViewProgram := Program StackedView Halt

def bestBlock (base : BaseView) : List CCoinsViewCache → List CCoinsViewCache × Uint256
  | [] => ([], base.hashBlock)
  | cache :: below =>
    if cache.hashBlock = 0 then
      let parent := bestBlock base below
      ({ cache with hashBlock := parent.2 } :: parent.1, parent.2)
    else (cache :: below, cache.hashBlock)

namespace StackedView

variable (stack : StackedView)

def fetchCoin (outpoint : COutPoint) : StackedView :=
  match stack.view.cacheCoins outpoint with
  | some _ => stack
  | none =>
    let parent := getCoin stack.base outpoint stack.below
    { stack with view := stack.view.fetched outpoint parent.2, below := parent.1 }

def accessCoin (outpoint : COutPoint) : ViewProgram Coin := fun stack =>
  let stack := stack.fetchCoin outpoint
  .ok (((stack.view.cacheCoins outpoint).map CCoinsCacheEntry.coin).getD .empty, stack)

def haveCoin (outpoint : COutPoint) : ViewProgram Bool := fun stack =>
  let stack := stack.fetchCoin outpoint
  .ok ((visible (stack.view.cacheCoins outpoint)).isSome, stack)

/-- The coin handed out, or nothing when `SpendCoin` returns false. -/
def spendCoin (outpoint : COutPoint) : ViewProgram (Option Coin) := fun stack =>
  let stack := stack.fetchCoin outpoint
  match stack.view.cacheCoins outpoint with
  | none => .ok (none, stack)
  | some entry =>
    .ok (some entry.coin, { stack with view := stack.view.spendFetched outpoint entry })

def addCoin (outpoint : COutPoint) (coin : Coin) (possible_overwrite : Bool) :
    ViewProgram Unit := fun stack =>
  match stack.view.addCoin outpoint coin possible_overwrite with
  | (_, some error) => .error (.coins error)
  | (view, none) => .ok ((), { stack with view := view })

def getBestBlock : ViewProgram Uint256 := fun stack =>
  if stack.view.hashBlock = 0 then
    let parent := bestBlock stack.base stack.below
    .ok (parent.2, { stack with
      view := { stack.view with hashBlock := parent.2 }, below := parent.1 })
  else .ok (stack.view.hashBlock, stack)

def setBestBlock (hashBlock : Uint256) : ViewProgram Unit := fun stack =>
  .ok ((), { stack with view := { stack.view with hashBlock := hashBlock } })

def shown : CoinMap := read stack.base (stack.view :: stack.below)

def shownBelow : CoinMap := read stack.base stack.below

def best : Uint256 := (bestBlock stack.base (stack.view :: stack.below)).2

def bestBelow : Uint256 := (bestBlock stack.base stack.below).2

def Sound : Prop := StackSound stack.base (stack.view :: stack.below)

theorem best_eq :
    stack.best = if stack.view.hashBlock = 0 then stack.bestBelow else stack.view.hashBlock := by
  unfold best bestBelow
  rw [bestBlock]
  split <;> rfl

structure Becomes (stack : StackedView) (coins : CoinMap) (after : StackedView) : Prop where
  sound : after.Sound
  shown : after.shown = coins
  shownBelow : after.shownBelow = stack.shownBelow
  best : after.best = stack.best
  bestBelow : after.bestBelow = stack.bestBelow

variable {stack}

theorem Becomes.refl (sound : stack.Sound) : Becomes stack stack.shown stack :=
  ⟨sound, rfl, rfl, rfl, rfl⟩

theorem Becomes.trans {middle after : StackedView} {coins later : CoinMap}
    (first : Becomes stack coins middle) (second : Becomes middle later after) :
    Becomes stack later after :=
  ⟨second.sound, second.shown, second.shownBelow.trans first.shownBelow,
    second.best.trans first.best, second.bestBelow.trans first.bestBelow⟩

private theorem fetched_hashBlock (cache : CCoinsViewCache) (outpoint : COutPoint)
    (found : Option Coin) : (cache.fetched outpoint found).hashBlock = cache.hashBlock := by
  cases found with
  | none => rfl
  | some coin =>
    unfold CCoinsViewCache.fetched
    dsimp only
    split
    · unfold setFresh addFlags
      split <;> rfl
    · rfl

theorem bestBlock_getCoin (base : BaseView) (outpoint : COutPoint) (caches : List CCoinsViewCache) :
    (bestBlock base (getCoin base outpoint caches).1).2 = (bestBlock base caches).2 := by
  induction caches with
  | nil => rfl
  | cons cache below ih =>
    rw [getCoin]
    cases found : cache.cacheCoins outpoint with
    | some entry => rfl
    | none =>
      rw [bestBlock, bestBlock, fetched_hashBlock]
      by_cases null : cache.hashBlock = 0
      · rw [if_pos null, if_pos null]
        exact ih
      · rw [if_neg null, if_neg null]

section

variable (sound : stack.Sound) (outpoint : COutPoint)

include sound outpoint

theorem fetchCoin_spec :
    Becomes stack stack.shown (stack.fetchCoin outpoint) ∧
      visible ((stack.fetchCoin outpoint).view.cacheCoins outpoint) = stack.shown outpoint := by
  obtain ⟨view, below, isFetched, fetched, bestBelow⟩ : ∃ view below,
      stack.fetchCoin outpoint = { stack with view := view, below := below } ∧
      getCoin stack.base outpoint (stack.view :: stack.below) =
        (view :: below, visible (view.cacheCoins outpoint)) ∧
      (bestBlock stack.base below).2 = stack.bestBelow := by
    rw [getCoin, fetchCoin]
    cases found : stack.view.cacheCoins outpoint with
    | some entry => exact ⟨stack.view, stack.below, rfl, by rw [found], rfl⟩
    | none => exact ⟨_, _, rfl, rfl, bestBlock_getCoin _ _ _⟩
  obtain ⟨after, same, answer⟩ := getCoin_spec stack.base outpoint _ sound
  have best := bestBlock_getCoin stack.base outpoint (stack.view :: stack.below)
  rw [fetched] at after same answer best
  obtain ⟨shown, belowViews⟩ := List.cons.inj same
  rw [isFetched]
  exact ⟨⟨after, shown, read_eq_of_views (by rw [belowViews]), best, bestBelow⟩, answer⟩

theorem haveCoin_spec :
    ∃ after, haveCoin outpoint stack = .ok ((stack.shown outpoint).isSome, after) ∧
      Becomes stack stack.shown after := by
  obtain ⟨becomes, seen⟩ := fetchCoin_spec sound outpoint
  refine ⟨stack.fetchCoin outpoint, ?_, becomes⟩
  unfold haveCoin
  dsimp only
  rw [seen]

/-- `AccessCoin` returns the coin shown, and otherwise a spent one. -/
theorem accessCoin_spec :
    ∃ coin after, accessCoin outpoint stack = .ok (coin, after) ∧
      Becomes stack stack.shown after ∧
      stack.shown outpoint = if coin.isSpent then none else some coin := by
  obtain ⟨becomes, seen⟩ := fetchCoin_spec sound outpoint
  refine ⟨_, stack.fetchCoin outpoint, rfl, becomes, ?_⟩
  rw [← seen]
  cases (stack.fetchCoin outpoint).view.cacheCoins outpoint with
  | none => rfl
  | some entry => rfl

end

private theorem becomes_of_view {view : CCoinsViewCache} {coins : CoinMap}
    (below : StackSound stack.base stack.below) (layer : LayerSound view stack.shownBelow)
    (shows : view.shows stack.shownBelow = coins) (same : view.hashBlock = stack.view.hashBlock) :
    Becomes stack coins { stack with view := view } := by
  refine ⟨⟨layer, below⟩, shows, rfl, ?_, rfl⟩
  rw [best_eq, best_eq]
  rw [same]
  rfl

theorem spendCoin_some (sound : stack.Sound) {outpoint : COutPoint} {coin : Coin}
    (present : stack.shown outpoint = some coin) :
    ∃ after, spendCoin outpoint stack = .ok (some coin, after) ∧
      Becomes stack (Function.update stack.shown outpoint none) after := by
  obtain ⟨becomes, seen⟩ := fetchCoin_spec sound outpoint
  rw [present] at seen
  cases found : (stack.fetchCoin outpoint).view.cacheCoins outpoint with
  | none =>
    rw [found] at seen
    cases seen
  | some entry => ?_
  rw [found, visible_some_iff] at seen
  obtain ⟨layer, shows⟩ := becomes.sound.1.spendFetched found
  refine ⟨{ stack.fetchCoin outpoint with
    view := (stack.fetchCoin outpoint).view.spendFetched outpoint entry }, ?_, ?_⟩
  · unfold spendCoin
    dsimp only
    rw [found, ← seen.2]
  · apply becomes.trans
    apply becomes_of_view becomes.sound.2 layer ?_
      (sets_spent becomes.sound.1.tracked found).hashBlock
    rw [← becomes.shown]
    exact shows

/-- The map after `AddCoin`: an unspendable output is not stored. -/
def withCoin (coins : CoinMap) (outpoint : COutPoint) (coin : Coin) : CoinMap :=
  if coin.out.scriptPubKey.isUnspendable then coins
  else Function.update coins outpoint (some coin)

theorem addCoin_ok (sound : stack.Sound) (outpoint : COutPoint) (coin : Coin)
    (possible_overwrite : Bool) (live : coin.isSpent = false)
    (absent : possible_overwrite = false → coin.out.scriptPubKey.isUnspendable = false →
      stack.shown outpoint = none) :
    ∃ after, addCoin outpoint coin possible_overwrite stack = .ok ((), after) ∧
      Becomes stack (withCoin stack.shown outpoint coin) after := by
  cases unspendable : coin.out.scriptPubKey.isUnspendable with
  | true =>
    refine ⟨stack, ?_, ?_⟩
    · simp only [addCoin, CCoinsViewCache.addCoin, live, unspendable, Bool.false_eq_true,
        if_false, if_true]
    · rw [withCoin, if_pos unspendable]
      exact .refl sound
  | false =>
    obtain ⟨view, added, layer, best, shows⟩ := sound.1.addCoin outpoint coin possible_overwrite
      live (fun strict => absent strict unspendable)
    refine ⟨{ stack with view := view }, ?_, ?_⟩
    · unfold addCoin
      rw [added]
    · exact becomes_of_view sound.2 layer shows best

theorem addCoin_overwrites {outpoint : COutPoint} {coin : Coin} (live : coin.isSpent = false)
    (spendable : coin.out.scriptPubKey.isUnspendable = false)
    (present : stack.shown outpoint ≠ none) (own : stack.shownBelow outpoint = none) :
    addCoin outpoint coin false stack = .error (.coins .overwritesUnspent) := by
  cases found : stack.view.cacheCoins outpoint with
  | none => exact absurd ((shows_of_none _ found).trans own) present
  | some entry => ?_
  have unspent : entry.coin.isSpent = false := by
    cases spent : entry.coin.isSpent with
    | false => rfl
    | true =>
      refine absurd ?_ present
      exact (shows_of_some _ found).trans ((visible_none_iff entry).mpr spent)
  simp only [addCoin, CCoinsViewCache.addCoin, live, spendable, found, unspent,
    Bool.false_eq_true, if_false, if_true, Option.map_some, Option.getD_some, Bool.not_false,
      Bool.and_self]

private theorem bestBlock_keeps (base : BaseView) (caches : List CCoinsViewCache) :
    (StackSound base caches → StackSound base (bestBlock base caches).1) ∧
      read base (bestBlock base caches).1 = read base caches ∧
      (bestBlock base (bestBlock base caches).1).2 = (bestBlock base caches).2 := by
  induction caches with
  | nil => exact ⟨id, rfl, rfl⟩
  | cons cache below ih =>
    obtain ⟨keeps, reads, again⟩ := ih
    rw [bestBlock]
    by_cases null : cache.hashBlock = 0
    · rw [if_pos null]
      refine ⟨?_, ?_, ?_⟩
      · rintro ⟨layer, belowSound⟩
        refine ⟨?_, keeps belowSound⟩
        rw [reads]
        exact ⟨layer.entries, layer.tracked.listed, layer.tracked.once⟩
      · rw [read, reads]
        rfl
      · rw [bestBlock]
        by_cases zero : (bestBlock base below).2 = 0
        · rw [if_pos zero, again]
        · rw [if_neg zero]
    · rw [if_neg null]
      refine ⟨id, rfl, ?_⟩
      rw [bestBlock, if_neg null]

theorem getBestBlock_spec (sound : stack.Sound) :
    ∃ after, getBestBlock stack = .ok (stack.best, after) ∧ Becomes stack stack.shown after := by
  unfold getBestBlock
  by_cases null : stack.view.hashBlock = 0
  · rw [if_pos null]
    obtain ⟨keeps, reads, again⟩ := bestBlock_keeps stack.base stack.below
    have value : stack.best = (bestBlock stack.base stack.below).2 := by
      rw [best_eq, if_pos null]
      rfl
    refine ⟨{ stack with
      view := { stack.view with hashBlock := (bestBlock stack.base stack.below).2 }
      below := (bestBlock stack.base stack.below).1 }, by rw [value],
      ⟨⟨?_, keeps sound.2⟩, ?_, reads, ?_, again⟩⟩
    · rw [reads]
      exact ⟨sound.1.entries, sound.1.tracked.listed, sound.1.tracked.once⟩
    · unfold StackedView.shown
      rw [read, reads]
      rfl
    · rw [best_eq, value]
      split
      · exact again
      · rfl
  · rw [if_neg null]
    refine ⟨stack, ?_, Becomes.refl sound⟩
    rw [best_eq, if_neg null]

/-- The best block set, unless it is null: then the layers below are asked. -/
theorem setBestBlock_spec (sound : stack.Sound) (hashBlock : Uint256) :
    ∃ after, setBestBlock hashBlock stack = .ok ((), after) ∧ after.Sound ∧
      after.shown = stack.shown ∧ after.shownBelow = stack.shownBelow ∧
      after.bestBelow = stack.bestBelow ∧
      after.best = if hashBlock = 0 then stack.bestBelow else hashBlock := by
  refine ⟨_, rfl, ⟨⟨sound.1.entries, sound.1.tracked.listed, sound.1.tracked.once⟩, sound.2⟩,
    rfl, rfl, rfl, ?_⟩
  rw [best_eq]
  rfl

end StackedView

end Adonai.Coins
