/-
Whole runs of a cache stack against plain maps.

An operation names the view it addresses by its depth. Coins are added and spent in the top cache;
a new cache can be put on top and the top one thrown away, as temporary views are.
-/

import Adonai.Coins.Stack

namespace Adonai.Coins

open CCoinsViewCache Run

inductive Operation where
  | getCoin (level : Nat) (outpoint : COutPoint)
  | haveCoin (level : Nat) (outpoint : COutPoint)
  | uncache (level : Nat) (outpoint : COutPoint)
  | sync (level : Nat)
  | flush (level : Nat)
  | addCoin (outpoint : COutPoint) (coin : Coin) (possible_overwrite : Bool)
  | spendCoin (outpoint : COutPoint)
  | push
  | discard
  deriving DecidableEq, Repr

inductive Reply where
  | coin (found : Option Coin)
  | present (found : Bool)
  | done
  | noView
  | failed (error : CoinsError)
  deriving DecidableEq, Repr

def Reply.ofError : Option CoinsError → Reply
  | none => .done
  | some error => .failed error

def atLevel (operation : List CCoinsViewCache → BaseView → CoinsStack × Reply) :
    Nat → List CCoinsViewCache → BaseView → CoinsStack × Reply
  | 0, caches, base => operation caches base
  | _ + 1, [], base => (⟨[], base⟩, .noView)
  | level + 1, cache :: below, base =>
    let result := atLevel operation level below base
    (⟨cache :: result.1.caches, result.1.base⟩, result.2)

def uncacheTop (outpoint : COutPoint) (caches : List CCoinsViewCache) (base : BaseView) :
    CoinsStack × Reply :=
  match caches with
  | [] => (⟨[], base⟩, .noView)
  | cache :: below => (⟨cache.uncache outpoint :: below, base⟩, .done)

/-- `Sync` and `Flush` need a view below the one addressed. -/
def writeDown (write : List CCoinsViewCache → BaseView → CoinsStack × Option CoinsError)
    (caches : List CCoinsViewCache) (base : BaseView) : CoinsStack × Reply :=
  match caches with
  | [] => (⟨[], base⟩, .noView)
  | cache :: below =>
    let result := write (cache :: below) base
    (result.1, .ofError result.2)

/-- A spent entry found by `SpendCoin` counts as no coin here. -/
def step (stack : CoinsStack) : Operation → CoinsStack × Reply
  | .getCoin level outpoint =>
    atLevel (fun caches base =>
      let result := getCoin base outpoint caches
      (⟨result.1, base⟩, .coin result.2)) level stack.caches stack.base
  | .haveCoin level outpoint =>
    atLevel (fun caches base =>
      let result := haveCoin base outpoint caches
      (⟨result.1, base⟩, .present result.2)) level stack.caches stack.base
  | .uncache level outpoint => atLevel (uncacheTop outpoint) level stack.caches stack.base
  | .sync level => atLevel (writeDown sync) level stack.caches stack.base
  | .flush level => atLevel (writeDown flush) level stack.caches stack.base
  | .addCoin outpoint coin possible_overwrite =>
    match stack.caches with
    | [] => (stack, .noView)
    | cache :: below =>
      let result := cache.addCoin outpoint coin possible_overwrite
      ({ stack with caches := result.1 :: below }, .ofError result.2)
  | .spendCoin outpoint =>
    match stack.caches with
    | [] => (stack, .noView)
    | cache :: below =>
      let result := spendCoin stack.base outpoint (cache :: below)
      ({ stack with caches := result.1 }, .coin (result.2.filter fun coin => !coin.isSpent))
  | .push => ({ stack with caches := .new :: stack.caches }, .done)
  | .discard =>
    match stack.caches with
    | [] => (stack, .noView)
    | _ :: below => ({ stack with caches := below }, .done)

def plainAt (operation : List CoinMap → List CoinMap × Reply) :
    Nat → List CoinMap → List CoinMap × Reply
  | 0, maps => operation maps
  | _ + 1, [] => ([], .noView)
  | level + 1, map :: rest =>
    let result := plainAt operation level rest
    (map :: result.1, result.2)

def plainRead (reply : CoinMap → Reply) (maps : List CoinMap) : List CoinMap × Reply :=
  match maps with
  | [] => ([], .noView)
  | map :: rest => (map :: rest, reply map)

def plainChange (change : CoinMap → CoinMap) (reply : CoinMap → Reply) (maps : List CoinMap) :
    List CoinMap × Reply :=
  match maps with
  | top :: next :: rest => (change top :: next :: rest, reply top)
  | maps => (maps, .noView)

variable (maps : List CoinMap)

def plainCopyDown : List CoinMap × Reply :=
  match maps with
  | top :: _ :: rest => (top :: top :: rest, .done)
  | maps => (maps, .noView)

def plainStep : Operation → List CoinMap × Reply
  | .getCoin level outpoint => plainAt (plainRead fun map => .coin (map outpoint)) level maps
  | .haveCoin level outpoint =>
    plainAt (plainRead fun map => .present (map outpoint).isSome) level maps
  | .uncache level _ => plainAt (plainChange id fun _ => .done) level maps
  | .sync level => plainAt plainCopyDown level maps
  | .flush level => plainAt plainCopyDown level maps
  | .addCoin outpoint coin _ =>
    plainChange
      (fun map => if coin.out.scriptPubKey.isUnspendable then map
        else Function.update map outpoint (some coin))
      (fun _ => .done) maps
  | .spendCoin outpoint =>
    plainChange (fun map => Function.update map outpoint none)
      (fun map => .coin (map outpoint)) maps
  | .push => (match maps with | [] => [] | top :: rest => top :: top :: rest, .done)
  | .discard =>
    match maps with
    | _ :: next :: rest => (next :: rest, .done)
    | maps => (maps, .noView)

/-- What `AddCoin` asserts of the coin, and its callers of the place it goes to. -/
def Allowed : Operation → Prop
  | .addCoin outpoint coin possible_overwrite =>
    coin.isSpent = false ∧ (possible_overwrite = false → ∀ top ∈ maps.head?, top outpoint = none)
  | _ => True

/-- An operation that acts as the plain one does and keeps what the view it
addresses shows, so that the layers above stay sound. -/
def Simulates (operation : List CCoinsViewCache → BaseView → CoinsStack × Reply)
    (plain : List CoinMap → List CoinMap × Reply) : Prop :=
  ∀ caches base, StackSound base caches →
    StackSound (operation caches base).1.base (operation caches base).1.caches ∧
      views (operation caches base).1.base (operation caches base).1.caches =
        (plain (views base caches)).1 ∧
      (operation caches base).2 = (plain (views base caches)).2 ∧
      read (operation caches base).1.base (operation caches base).1.caches = read base caches

variable {operation : List CCoinsViewCache → BaseView → CoinsStack × Reply}
   {plain : List CoinMap → List CoinMap × Reply}

theorem Simulates.atLevel (simulates : Simulates operation plain)
    (nothing : plain [] = ([], .noView)) (level : Nat) :
    Simulates (atLevel operation level) (plainAt plain level) := by
  induction level with
  | zero => exact simulates
  | succ level ih =>
    intro caches base sound
    cases caches with
    | nil =>
      have empty : plainAt plain level [] = ([], .noView) := by
        cases level with
        | zero => exact nothing
        | succ level => rfl
      simp only [Coins.atLevel, views, plainAt, empty]
      exact ⟨sound, trivial, trivial, trivial⟩
    | cons cache below =>
      obtain ⟨belowSound, belowViews, reply, same⟩ := ih below base sound.2
      simp only [Coins.atLevel, views, plainAt, StackSound, read, same, belowViews, reply]
      exact ⟨⟨sound.1, belowSound⟩, trivial, trivial, trivial⟩

theorem simulates_getCoin (outpoint : COutPoint) (reply : Option Coin → Reply) : Simulates
      (fun caches base => (⟨(getCoin base outpoint caches).1, base⟩,
        reply (getCoin base outpoint caches).2))
      (plainRead fun map => reply (map outpoint)) := by
  intro caches base sound
  obtain ⟨after, same, answer⟩ := getCoin_spec base outpoint caches sound
  refine ⟨after, ?_, ?_, read_eq_of_views (by rw [same])⟩
  · rw [same, views_eq_cons base caches]
    rfl
  · dsimp only
    rw [views_eq_cons base caches, answer]
    rfl

theorem simulates_uncache (outpoint : COutPoint) :
    Simulates (uncacheTop outpoint) (plainChange id fun _ => .done) := by
  intro caches base sound
  cases caches with
  | nil => exact ⟨sound, rfl, rfl, rfl⟩
  | cons cache below => ?_
  obtain ⟨layer, same⟩ := sound.1.uncache outpoint
  refine ⟨⟨layer, sound.2⟩, ?_, ?_, same⟩
  · simp only [uncacheTop, views, same]
    rw [views_eq_cons base below]
    rfl
  · simp only [views]
    rw [views_eq_cons base below]
    rfl

theorem simulates_writeDown
    {write : List CCoinsViewCache → BaseView → CoinsStack × Option CoinsError}
    (copies : CopiesDown write) : Simulates (writeDown write) plainCopyDown := by
  intro caches base sound
  cases caches with
  | nil => exact ⟨sound, rfl, rfl, rfl⟩
  | cons cache below => ?_
  obtain ⟨stack, wrote, after, shown⟩ := copies base cache below sound
  simp only [writeDown, wrote]
  refine ⟨after, ?_, ?_, ?_⟩
  · rw [shown, views, views_eq_cons base below]
    rfl
  · rw [views, views_eq_cons base below]
    rfl
  · apply read_eq_of_views
    rw [shown]
    rfl

def Shows (stack : CoinsStack) (maps : List CoinMap) : Prop :=
  StackSound stack.base stack.caches ∧ views stack.base stack.caches = maps

theorem Simulates.shows (simulates : Simulates operation plain) {stack : CoinsStack}
    {maps : List CoinMap} (shows : Shows stack maps) :
    Shows (operation stack.caches stack.base).1 (plain maps).1 ∧
      (operation stack.caches stack.base).2 = (plain maps).2 := by
  obtain ⟨sound, rfl⟩ := shows
  obtain ⟨after, same, reply, _⟩ := simulates stack.caches stack.base sound
  exact ⟨⟨after, same⟩, reply⟩

theorem step_shows (stack : CoinsStack) (maps : List CoinMap) (operation : Operation)
    (shows : Shows stack maps) (allowed : Allowed maps operation) :
    Shows (step stack operation).1 (plainStep maps operation).1 ∧
      (step stack operation).2 = (plainStep maps operation).2 := by
  cases operation with
  | getCoin level outpoint =>
    exact ((simulates_getCoin outpoint .coin).atLevel rfl level).shows shows
  | haveCoin level outpoint =>
    exact ((simulates_getCoin outpoint fun found => .present found.isSome).atLevel rfl level).shows
      shows
  | uncache level outpoint => exact ((simulates_uncache outpoint).atLevel rfl level).shows shows
  | sync level => exact ((simulates_writeDown sync_copiesDown).atLevel rfl level).shows shows
  | flush level => exact ((simulates_writeDown flush_copiesDown).atLevel rfl level).shows shows
  | addCoin outpoint coin possible_overwrite =>
    obtain ⟨sound, rfl⟩ := shows
    obtain ⟨caches, base⟩ := stack
    cases caches with
    | nil => exact ⟨⟨sound, rfl⟩, rfl⟩
    | cons cache below => ?_
    obtain ⟨after, added, afterSound, shown⟩ := addCoin_spec sound outpoint coin
      possible_overwrite allowed.1 (fun strict => allowed.2 strict _ rfl)
    simp only [step, added, views]
    rw [views_eq_cons base below]
    refine ⟨⟨afterSound, ?_⟩, rfl⟩
    rw [views, views_eq_cons base below]
    exact congrArg (· :: _) shown
  | spendCoin outpoint =>
    obtain ⟨sound, rfl⟩ := shows
    obtain ⟨caches, base⟩ := stack
    cases caches with
    | nil => exact ⟨⟨sound, rfl⟩, rfl⟩
    | cons cache below => ?_
    obtain ⟨after, below', spent, afterSound, belowViews, shown, handed⟩ :=
      spendCoin_spec sound outpoint
    simp only [step, views, spent]
    rw [views_eq_cons base below]
    refine ⟨⟨afterSound, ?_⟩, congrArg Reply.coin handed⟩
    rw [views, belowViews, views_eq_cons base below]
    exact congrArg (· :: _) shown
  | push =>
    obtain ⟨sound, rfl⟩ := shows
    refine ⟨⟨⟨LayerSound.new _, sound⟩, ?_⟩, rfl⟩
    simp only [step]
    rw [views, views_eq_cons stack.base stack.caches]
    rfl
  | discard =>
    obtain ⟨sound, rfl⟩ := shows
    obtain ⟨caches, base⟩ := stack
    cases caches with
    | nil => exact ⟨⟨sound, rfl⟩, rfl⟩
    | cons cache below =>
      simp only [views]
      rw [views_eq_cons base below]
      exact ⟨⟨sound.2, views_eq_cons base below⟩, rfl⟩

theorem plainAt_reply_ne (operation : List CoinMap → List CoinMap × Reply) (error : CoinsError)
    (never : ∀ maps, (operation maps).2 ≠ .failed error) (level : Nat) (maps : List CoinMap) :
    (plainAt operation level maps).2 ≠ .failed error := by
  induction level generalizing maps with
  | zero => exact never maps
  | succ level ih =>
    cases maps with
    | nil => exact Reply.noConfusion
    | cons map rest => exact ih rest

theorem plainStep_reply_ne (maps : List CoinMap) (operation : Operation) (error : CoinsError) :
    (plainStep maps operation).2 ≠ .failed error := by
  have copies : ∀ maps, (plainCopyDown maps).2 ≠ .failed error := by
    intro maps
    unfold plainCopyDown
    split <;> exact Reply.noConfusion
  have reads : ∀ reply : CoinMap → Reply, (∀ map, reply map ≠ .failed error) →
      ∀ maps, (plainRead reply maps).2 ≠ .failed error := by
    intro reply never maps
    unfold plainRead
    split
    · exact Reply.noConfusion
    · exact never _
  have changes : ∀ change, ∀ reply : CoinMap → Reply, (∀ map, reply map ≠ .failed error) →
      ∀ maps, (plainChange change reply maps).2 ≠ .failed error := by
    intro change reply never maps
    unfold plainChange
    split
    · exact never _
    · exact Reply.noConfusion
  cases operation with
  | getCoin level outpoint =>
    exact plainAt_reply_ne _ error (reads _ fun _ => Reply.noConfusion) level maps
  | haveCoin level outpoint =>
    exact plainAt_reply_ne _ error (reads _ fun _ => Reply.noConfusion) level maps
  | uncache level outpoint =>
    exact plainAt_reply_ne _ error (changes _ _ fun _ => Reply.noConfusion) level maps
  | sync level => exact plainAt_reply_ne _ error copies level maps
  | flush level => exact plainAt_reply_ne _ error copies level maps
  | addCoin outpoint coin possible_overwrite =>
    exact changes _ _ (fun _ => Reply.noConfusion) maps
  | spendCoin outpoint => exact changes _ _ (fun _ => Reply.noConfusion) maps
  | push => exact Reply.noConfusion
  | discard =>
    rcases maps with _ | ⟨top, _ | ⟨next, rest⟩⟩
    · exact Reply.noConfusion
    · exact Reply.noConfusion
    · exact Reply.noConfusion

def flushEvery (layers : Nat) : List Operation := (List.range layers).map .flush

private theorem trace_flush_below (map : CoinMap) (maps : List CoinMap) (levels : List Nat) :
    (trace plainStep (map :: maps) ((levels.map Nat.succ).map .flush)).1 =
      map :: (trace plainStep maps (levels.map .flush)).1 := by
  induction levels generalizing maps with
  | nil => rfl
  | cons level levels ih => exact ih _

theorem trace_flushEvery (top : CoinMap) (maps : List CoinMap) :
    (trace plainStep (top :: maps) (flushEvery maps.length)).1 =
      List.replicate (maps.length + 1) top := by
  induction maps with
  | nil => rfl
  | cons next rest ih =>
    rw [List.length_cons, flushEvery, List.range_succ_eq_map]
    exact (trace_flush_below top (top :: rest) _).trans (congrArg (top :: ·) ih)

theorem along_flushEvery (maps : List CoinMap) (levels : List Nat) :
    Along (fun maps operation => (plainStep maps operation).1) Allowed maps
      (levels.map .flush) := by
  induction levels generalizing maps with
  | nil => trivial
  | cons level levels ih => exact ⟨trivial, ih _⟩

private theorem length_views (base : BaseView) (caches : List CCoinsViewCache) :
    (views base caches).length = caches.length + 1 := by
  induction caches with
  | nil => rfl
  | cons cache below ih => rw [views, List.length_cons, ih, List.length_cons]

private theorem base_mem_views (base : BaseView) (caches : List CCoinsViewCache) :
    base.coins ∈ views base caches := by
  induction caches with
  | nil => exact List.mem_singleton_self _
  | cons cache below ih => exact List.mem_cons_of_mem _ ih

variable {caches : List CCoinsViewCache} {base : BaseView}

theorem getCoin_drop (sound : StackSound base caches) {level : Nat} {map : CoinMap}
    (shown : (views base caches)[level]? = some map) (outpoint : COutPoint) :
    (getCoin base outpoint (caches.drop level)).2 = map outpoint := by
  induction caches generalizing level with
  | nil =>
    cases level with
    | zero =>
      cases shown
      rfl
    | succ level => cases shown
  | cons cache below ih =>
    cases level with
    | zero =>
      cases shown
      exact (getCoin_spec base outpoint (cache :: below) sound).2.2
    | succ level => exact ih sound.2 shown

theorem shows_new (layers : Nat) (base : BaseView) :
    Shows ⟨List.replicate layers .new, base⟩ (List.replicate (layers + 1) base.coins) := by
  induction layers with
  | zero => exact ⟨trivial, rfl⟩
  | succ layers ih =>
    obtain ⟨sound, same⟩ := ih
    have below : read base (List.replicate layers .new) = base.coins := by
      have head := views_head base (List.replicate layers .new)
      rw [same] at head
      exact (Option.some.inj head).symm
    refine ⟨⟨LayerSound.new _, sound⟩, ?_⟩
    change read base (List.replicate layers .new) :: views base (List.replicate layers .new) = _
    rw [below, same]
    rfl

/-- After every run of allowed operations on new caches over a base: the replies
were those of the plain maps and no operation failed, every view reads as its map,
and flushing all layers leaves the top map in the base. -/
theorem trace_reads_plain (layers : Nat) (base : BaseView) (operations : List Operation)
    (allowed : Along (fun maps operation => (plainStep maps operation).1) Allowed
      (List.replicate (layers + 1) base.coins) operations) :
    let stack := trace step ⟨List.replicate layers .new, base⟩ operations
    let plain := trace plainStep (List.replicate (layers + 1) base.coins) operations
    stack.2 = plain.2 ∧ (∀ error, Reply.failed error ∉ stack.2) ∧
      plain.1.length = stack.1.caches.length + 1 ∧
      (∀ level map, plain.1[level]? = some map → ∀ outpoint,
        (getCoin stack.1.base outpoint (stack.1.caches.drop level)).2 = map outpoint) ∧
      ∀ top, plain.1.head? = some top →
        let flushed := trace step stack.1 (flushEvery stack.1.caches.length)
        flushed.1.base.coins = top ∧ ∀ error, Reply.failed error ∉ flushed.2 := by
  intro stack plain
  obtain ⟨⟨sound, same⟩, replies⟩ := simulation Shows step_shows (shows_new layers base) allowed
  have noError : ∀ maps inputs error, Reply.failed error ∉ (trace plainStep maps inputs).2 := by
    intro maps inputs error member
    obtain ⟨reached, operation, failed⟩ := mem_trace_replies member
    exact plainStep_reply_ne reached operation error failed
  have length : plain.1.length = stack.1.caches.length + 1 := by
    rw [← same, length_views]
  refine ⟨replies, ?_, length, ?_, ?_⟩
  · intro error
    rw [replies]
    exact noError _ _ error
  · intro level map present outpoint
    rw [← same] at present
    exact getCoin_drop sound present outpoint
  · intro top head flushed
    have shown : Shows stack.1 plain.1 := ⟨sound, same⟩
    obtain ⟨⟨_, flushedViews⟩, flushedReplies⟩ := simulation Shows step_shows shown
      (along_flushEvery plain.1 (List.range stack.1.caches.length))
    obtain ⟨maps, split⟩ := List.head?_eq_some_iff.mp head
    have count : stack.1.caches.length = maps.length := by
      rw [split, List.length_cons] at length
      omega
    have copied : views flushed.1.base flushed.1.caches = List.replicate (maps.length + 1) top := by
      refine flushedViews.trans ?_
      rw [← flushEvery, split, count, trace_flushEvery]
    refine ⟨?_, ?_⟩
    · have member := base_mem_views flushed.1.base flushed.1.caches
      rw [copied] at member
      exact List.eq_of_mem_replicate member
    · intro error member
      exact noError _ _ error (flushedReplies ▸ member)

def someOutpoint : COutPoint := { hash := 7, n := 0 }

def someCoin : Coin :=
  { out := { nValue := 5, scriptPubKey := [0x51] }, fCoinBase := false, nHeight := 1 }

def someRun : List Operation :=
  [.addCoin someOutpoint someCoin false, .flush 0, .sync 1, .spendCoin someOutpoint,
    .getCoin 0 someOutpoint, .getCoin 1 someOutpoint, .flush 0, .haveCoin 1 someOutpoint,
    .getCoin 2 someOutpoint]

theorem trace_reads_plain_someRun : (trace step ⟨List.replicate 2 .new, BaseView.empty⟩ someRun).2 =
      [.done, .done, .done, .coin (some someCoin), .coin none, .coin (some someCoin), .done,
        .present false, .coin (some someCoin)] := by
  have allowed : Along (fun maps operation => (plainStep maps operation).1) Allowed
      (List.replicate 3 BaseView.empty.coins) someRun := by
    refine ⟨⟨by decide, ?_⟩, trivial, trivial, trivial, trivial, trivial, trivial, trivial,
      trivial, trivial⟩
    intro _ top member
    cases member
    rfl
  refine (trace_reads_plain 2 BaseView.empty someRun allowed).1.trans ?_
  decide

variable {outpoint : COutPoint}

theorem getCoin_live {coin : Coin} (found : (getCoin base outpoint caches).2 = some coin) :
    coin.isSpent = false := by
  have shown : ∀ entry, visible entry = some coin → coin.isSpent = false := by
    rintro (_ | entry) seen
    · cases seen
    · obtain ⟨live, rfl⟩ := (visible_some_iff entry coin).mp seen
      exact live
  cases caches with
  | nil => exact base.unspent outpoint coin found
  | cons cache below =>
    rw [getCoin] at found
    split at found
    case h_1 entry _ => exact shown (some entry) found
    case h_2 => exact shown _ found

/-- `SpendCoin` returns true exactly if there is an unspent coin, which it hands out; where there is
none, the views and what a flush leaves are the same. -/
structure SpendsAsPromised (base : BaseView) (caches : List CCoinsViewCache)
    (outpoint : COutPoint) : Prop where
  returned : (spendCoin base outpoint caches).2 = (getCoin base outpoint caches).2
  unaffected : (getCoin base outpoint caches).2 = none →
    let after := (spendCoin base outpoint caches).1
    let flushed := flush after base
    let otherwise := flush caches base
    views base after = views base caches ∧ flushed.2 = otherwise.2 ∧
      views flushed.1.base flushed.1.caches = views otherwise.1.base otherwise.1.caches

theorem getCoin_missing (missing : (getCoin base outpoint caches).2 = none) :
    (getCoin base outpoint caches).1 = caches := by
  induction caches with
  | nil => rfl
  | cons cache below ih =>
    rw [getCoin] at missing ⊢
    cases stored : cache.cacheCoins outpoint with
    | some entry => rfl
    | none => ?_
    rw [stored] at missing
    dsimp only at missing ⊢
    cases answer : (getCoin base outpoint below).2 with
    | none => rw [ih answer, CCoinsViewCache.fetched]
    | some coin =>
      rw [answer, fetched_cacheCoins stored, Function.update_self, visible_none_iff,
        getCoin_live answer] at missing
      cases missing

/-- The promise is kept exactly where the cache has no spent entry. -/
theorem spendCoin_as_promised_iff (base : BaseView) (cache : CCoinsViewCache)
    (below : List CCoinsViewCache) (outpoint : COutPoint) :
    SpendsAsPromised base (cache :: below) outpoint ↔
      ∀ entry, cache.cacheCoins outpoint = some entry → entry.coin.isSpent = false := by
  constructor
  · intro promised entry stored
    have same := promised.returned
    simp only [spendCoin, getCoin, stored] at same
    exact ((visible_some_iff entry _).mp same.symm).1
  · intro unspent
    cases stored : cache.cacheCoins outpoint with
    | some entry =>
      have seen : visible (some entry) = some entry.coin :=
        (visible_some_iff entry _).mpr ⟨unspent entry stored, rfl⟩
      constructor
      · simp only [spendCoin, getCoin, stored, seen]
      · simp [getCoin, stored, seen]
    | none =>
      cases answer : (getCoin base outpoint below).2 with
      | none =>
        have unchanged := getCoin_missing answer
        constructor
        · simp [spendCoin, getCoin, stored, answer, CCoinsViewCache.fetched, visible]
        · simp [spendCoin, stored, answer, CCoinsViewCache.fetched, unchanged]
      | some coin =>
        have live := getCoin_live answer
        have fetches := congrFun (fetched_cacheCoins stored coin) outpoint
        have seen := (visible_some_iff ⟨coin, false, coin.isSpent⟩ coin).mpr ⟨live, rfl⟩
        constructor
        · simp [spendCoin, getCoin, stored, answer, fetches, seen]
        · simp [getCoin, stored, answer, fetches, seen]

def oneCoin : BaseView := BaseView.empty.writeEntry (someOutpoint, ⟨someCoin, true, false⟩)

/-- The second of two calls returns true with a spent coin. -/
theorem spendCoin_twice :
    let once := spendCoin oneCoin someOutpoint [.new]
    let twice := spendCoin oneCoin someOutpoint once.1
    once.2 = some someCoin ∧ (getCoin oneCoin someOutpoint once.1).2 = none ∧
      twice.2 = some .empty ∧ ¬SpendsAsPromised oneCoin once.1 someOutpoint := by
  refine ⟨by decide, by decide, by decide, ?_⟩
  intro promised
  exact absurd promised.returned (by decide)

end Adonai.Coins
