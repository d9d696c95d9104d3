/-
Histories of a light wallet: payments by others, confirmed sends and scans.

The wallet pays change to the index after the largest one its last scan reported, and a scan covers
the change indices up to 50 only. So a coin at index 51 is never reported, and so never spent.
-/

import Adonai.Light.Store
import Adonai.Light.Serialization

namespace Adonai.Light

open LightWalletState (setScanResult)
open List (mem_append mem_cons mem_cons_of_mem mem_cons_self mem_filter mem_filterMap mem_map
  mem_of_mem_filter mem_pair mem_singleton not_mem_nil)

/-- The unspent outputs, the transactions there have been, the store of the wallet, and the
indices that confirmed sends have paid change to. -/
structure History where
  coins : List ChainCoin
  txids : List Txid
  store : LightWalletState
  changes : List Nat

namespace History

def empty : History where
  coins := []
  txids := []
  store := LightWalletState.empty
  changes := []

def spends (utxos : List LightUTXO) (coin : ChainCoin) : Bool :=
  utxos.any fun u => coin.txid == u.txid && coin.vout == u.vout

def newCoins (txid : Txid) (outputs : List TxOutput) : List ChainCoin :=
  outputs.mapIdx fun vout output =>
    { txid := txid
      vout := (UInt32.ofNat vout).toNat
      amountSats := output.valueSats
      scriptPubKey := output.scriptPubKey
      vout_lt := (UInt32.ofNat vout).toNat_lt }

def receive (history : History) (coin : ChainCoin) : History :=
  { history with
    coins := history.coins ++ [coin]
    txids := coin.txid :: history.txids }

def confirm (history : History) (txid : Txid) (params : BuildTxParams)
    (recipientScript changeScript : List UInt8) : History :=
  { history with
    coins := (history.coins.filter fun coin => !spends params.utxos coin) ++
      newCoins txid (outputsOf params.amountSats params.changeSats recipientScript changeScript)
    txids := txid :: history.txids
    changes :=
      if params.changeSats > 546 then history.store.changeIndex :: history.changes
      else history.changes }

def rescan (history : History) (scanned : List ScannedUTXO) : History :=
  { history with store := setScanResult scanned }

/-- A send is confirmed if its inputs are unspent; the identifier of a transaction is not used
twice. -/
inductive Sent (wallet : Wallet) (history : History) : History → Prop where
  | confirmed (request : SendRequest) {params : BuildTxParams} {hex : List Char}
      {recipientScript changeScript : List UInt8} (txid : Txid)
      (handled : handleSend wallet history.store request = some params)
      (builds : buildAndSignTx wallet.library wallet.crypto params = some hex)
      (recipient : payScript wallet.library params.recipientAddress = some recipientScript)
      (change : payScript wallet.library params.changeAddress = some changeScript)
      (unspent : ∀ u ∈ params.utxos,
        ∃ coin ∈ history.coins, coin.txid = u.txid ∧ coin.vout = u.vout)
      (fresh : txid ∉ history.txids) :
      Sent wallet history (history.confirm txid params recipientScript changeScript)

/-- A scan reports its coins in any order. -/
inductive Step (wallet : Wallet) : History → History → Prop where
  | pay {history : History} (coin : ChainCoin) {index : Nat} (receives : index ≤ 200)
      (pays : coin.scriptPubKey = wallet.script false index) (fresh : coin.txid ∉ history.txids) :
      Step wallet history (history.receive coin)
  | send {before after : History} (sent : Sent wallet before after) : Step wallet before after
  | rescan {history : History} {scanned : List ScannedUTXO}
      (reports : scanned.Perm (wallet.lightScan history.coins)) :
      Step wallet history (history.rescan scanned)

def Reachable (wallet : Wallet) (history : History) : Prop :=
  Relation.ReflTransGen (Step wallet) empty history

end History

open History

variable {wallet : Wallet}

variable {isChange : Bool} {range : Nat} {coin : ChainCoin} {scanned : ScannedUTXO}

theorem inRange_some (found : wallet.inRange isChange range coin = some scanned) :
    scanned.coin = coin ∧ scanned.isChange = isChange ∧ scanned.index ≤ range ∧
      coin.scriptPubKey = wallet.script isChange scanned.index := by
  obtain ⟨index, finds, rfl⟩ := Option.map_eq_some_iff.mp found
  have member := List.mem_of_find?_eq_some finds
  rw [List.mem_range] at member
  have pays := List.find?_some (p := fun index => coin.scriptPubKey == wallet.script isChange index)
    finds
  exact ⟨rfl, rfl, Nat.le_of_lt_succ member, beq_iff_eq.mp pays⟩

variable {index : Nat}

private theorem inRange_isSome (inside : index ≤ range)
    (pays : coin.scriptPubKey = wallet.script isChange index) :
    (wallet.inRange isChange range coin).isSome = true := by
  rw [Wallet.inRange, Option.isSome_map, List.find?_isSome]
  exact ⟨index, List.mem_range.mpr (Nat.lt_succ_of_le inside), beq_iff_eq.mpr pays⟩

def Covered (wallet : Wallet) (coin : ChainCoin) : Prop :=
  (∃ index ≤ 200, coin.scriptPubKey = wallet.script false index) ∨
    ∃ index ≤ 50, coin.scriptPubKey = wallet.script true index

structure Reported (wallet : Wallet) (coins : List ChainCoin) (scanned : ScannedUTXO) : Prop where
  unspent : scanned.coin ∈ coins
  pays : scanned.coin.scriptPubKey = wallet.script scanned.isChange scanned.index
  receives : scanned.isChange = false → scanned.index ≤ 200
  changes : scanned.isChange = true → scanned.index ≤ 50

variable {coins : List ChainCoin}

theorem mem_lightScan (member : scanned ∈ wallet.lightScan coins) :
    Reported wallet coins scanned := by
  obtain ⟨coin, unspent, found⟩ := mem_filterMap.mp member
  rcases Option.or_eq_some_iff.mp found with inFirst | ⟨_, inSecond⟩
  · obtain ⟨isCoin, isReceive, inside, pays⟩ := inRange_some inFirst
    rw [← isCoin] at unspent pays
    exact
      { unspent := unspent
        pays := isReceive ▸ pays
        receives := fun _ => inside
        changes := fun isChange => by rw [isReceive] at isChange; cases isChange }
  · obtain ⟨isCoin, isChange, inside, pays⟩ := inRange_some inSecond
    rw [← isCoin] at unspent pays
    exact
      { unspent := unspent
        pays := isChange ▸ pays
        receives := fun isReceive => by rw [isChange] at isReceive; cases isReceive
        changes := fun _ => inside }

theorem covered_of_path (receives : isChange = false → index ≤ 200)
    (changes : isChange = true → index ≤ 50)
    (pays : coin.scriptPubKey = wallet.script isChange index) :
    Covered wallet coin ∧ index < 2 ^ 31 := by
  cases isChange with
  | false => exact ⟨.inl ⟨index, receives rfl, pays⟩, (receives rfl).trans_lt (by decide)⟩
  | true => exact ⟨.inr ⟨index, changes rfl, pays⟩, (changes rfl).trans_lt (by decide)⟩

theorem exists_lightScan_iff :
    (∃ scanned ∈ wallet.lightScan coins, scanned.coin = coin) ↔
      coin ∈ coins ∧ Covered wallet coin := by
  constructor
  · intro reported
    obtain ⟨scanned, member, rfl⟩ := reported
    have known := mem_lightScan member
    exact ⟨known.unspent, (covered_of_path known.receives known.changes known.pays).1⟩
  · intro covered
    obtain ⟨unspent, covered⟩ := covered
    have found : ((wallet.inRange false 200 coin).or (wallet.inRange true 50 coin)).isSome =
        true := by
      rw [Option.isSome_or, Bool.or_eq_true]
      rcases covered with ⟨index, inside, pays⟩ | ⟨index, inside, pays⟩
      · exact .inl (inRange_isSome inside pays)
      · exact .inr (inRange_isSome inside pays)
    obtain ⟨scanned, found⟩ := Option.isSome_iff_exists.mp found
    refine ⟨scanned, mem_filterMap.mpr ⟨coin, unspent, found⟩, ?_⟩
    rcases Option.or_eq_some_iff.mp found with inFirst | ⟨_, inSecond⟩
    · exact (inRange_some inFirst).1
    · exact (inRange_some inSecond).1

theorem not_covered_of_change (high : 50 < index) (small : index < 2 ^ 31)
    (pays : coin.scriptPubKey = wallet.script true index) : ¬Covered wallet coin := by
  intro covered
  rcases covered with ⟨other, inside, paysOther⟩ | ⟨other, inside, paysOther⟩
  · cases (wallet.injective small (by omega) (pays.symm.trans paysOther)).1
  · have same := (wallet.injective small (by omega) (pays.symm.trans paysOther)).2
    omega

private theorem foldl_max_le {indices : List Nat} {start : Nat} (below : start ≤ range)
    (inside : ∀ index ∈ indices, index ≤ range) : indices.foldl max start ≤ range := by
  induction indices generalizing start with
  | nil => exact below
  | cons index indices ih =>
    rw [List.forall_mem_cons] at inside
    exact ih (max_le below inside.1) inside.2

theorem nextIndex_le {indices : List Nat} (inside : ∀ index ∈ indices, index ≤ range) :
    LightWalletState.nextIndex indices ≤ range + 1 := by
  unfold LightWalletState.nextIndex
  split
  · exact Nat.succ_le_succ (foldl_max_le (Nat.zero_le _) inside)
  · exact Nat.zero_le _

theorem changeIndices_le {scanned : List ScannedUTXO}
    (reports : scanned.Perm (wallet.lightScan coins)) :
    ∀ index ∈ (scanned.filter fun u => u.isChange).map ScannedUTXO.index, index ≤ 50 := by
  intro index member
  obtain ⟨reported, inChange, rfl⟩ := mem_map.mp member
  obtain ⟨inScan, isChange⟩ := mem_filter.mp inChange
  exact (mem_lightScan (reports.mem_iff.mp inScan)).changes isChange

theorem mem_pickCoins {target total : ℚ} {sorted : List LightUTXO} {u : LightUTXO}
    (member : u ∈ (pickCoins target total sorted).1) : u ∈ sorted := by
  induction sorted generalizing total with
  | nil => exact member
  | cons first sorted ih =>
    unfold pickCoins at member
    dsimp only at member
    split at member
    · rw [mem_singleton.mp member]
      exact mem_cons_self
    · rcases mem_cons.mp member with rfl | later
      · exact mem_cons_self
      · exact mem_cons_of_mem _ (ih later)

variable {params : BuildTxParams}

theorem handleSend_some {store : LightWalletState} {request : SendRequest}
    (handled : handleSend wallet store request = some params) :
    (∀ u ∈ params.utxos, u ∈ store.utxos) ∧
      params.changeAddress = wallet.address true store.changeIndex := by
  unfold handleSend at handled
  dsimp only at handled
  split at handled
  · split at handled
    · cases handled
    · cases handled
      constructor
      · intro u member
        exact (List.mem_insertionSort _).mp (mem_pickCoins member)
      · rfl
  · cases handled

variable {txid : Txid} {recipientScript changeScript : List UInt8}

theorem mem_newCoins
    (member : coin ∈ newCoins txid (outputsOf params.amountSats params.changeSats recipientScript
      changeScript)) : coin.txid = txid ∧
      (coin.vout = 0 ∨
        coin.vout = 1 ∧ params.changeSats > 546 ∧ coin.scriptPubKey = changeScript) := by
  unfold outputsOf at member
  split at member
  next large =>
    rcases mem_pair.mp member with rfl | rfl
    · exact ⟨rfl, .inl rfl⟩
    · exact ⟨rfl, .inr ⟨rfl, large, rfl⟩⟩
  next =>
    rw [mem_singleton.mp member]
    exact ⟨rfl, .inl rfl⟩

theorem newCoins_outpoint {left right : ChainCoin}
    (leftNew : left ∈ newCoins txid (outputsOf params.amountSats params.changeSats recipientScript
      changeScript))
    (rightNew : right ∈ newCoins txid (outputsOf params.amountSats params.changeSats
      recipientScript changeScript)) (vout : left.vout = right.vout) : left = right := by
  unfold outputsOf at leftNew rightNew
  split_ifs at leftNew rightNew
  · rcases mem_pair.mp leftNew with rfl | rfl <;> rcases mem_pair.mp rightNew with rfl | rfl
    all_goals first | rfl | cases vout
  · rw [mem_singleton.mp leftNew, mem_singleton.mp rightNew]

theorem newCoins_change (large : params.changeSats > 546) :
    newCoins txid (outputsOf params.amountSats params.changeSats recipientScript changeScript) =
      [⟨txid, 0, params.amountSats, recipientScript, by decide⟩,
        ⟨txid, 1, params.changeSats, changeScript, by decide⟩] := by
  rw [outputsOf, if_pos large]
  rfl

/-! ### Histories -/

/-- What holds in every history. The coin at index 51 stays because the wallet never sees it. -/
structure Tracked (wallet : Wallet) (history : History) : Prop where
  known : ∀ coin ∈ history.coins, coin.txid ∈ history.txids
  unique : ∀ left ∈ history.coins, ∀ right ∈ history.coins, left.txid = right.txid →
    left.vout = right.vout → left = right
  seen : ∀ u ∈ history.store.utxos, u.txid ∈ history.txids ∧
    ∀ coin ∈ history.coins, coin.txid = u.txid → coin.vout = u.vout → Covered wallet coin
  next : history.store.changeIndex ≤ 51
  bounded : ∀ index ∈ history.changes, index ≤ 51
  change : ∀ coin ∈ history.coins, coin.vout ≠ 0 → ∀ index < 2 ^ 31,
    coin.scriptPubKey = wallet.script true index → index ∈ history.changes
  lost : 51 ∈ history.changes → ∃ coin ∈ history.coins, coin.scriptPubKey = wallet.script true 51

theorem tracked_empty : Tracked wallet History.empty where
  known := List.forall_mem_nil _
  unique := List.forall_mem_nil _
  seen := List.forall_mem_nil _
  next := Nat.zero_le _
  bounded := List.forall_mem_nil _
  change := List.forall_mem_nil _
  lost member := absurd member not_mem_nil

variable {history : History}

theorem mem_changes_confirm {next : Nat} :
    next ∈ (history.confirm txid params recipientScript changeScript).changes ↔
      params.changeSats > 546 ∧ next = history.store.changeIndex ∨ next ∈ history.changes := by
  change next ∈ (if params.changeSats > 546 then _ else _) ↔ _
  split_ifs with large
  · simp [large]
  · simp [large]

section

variable (tracked : Tracked wallet history)

include tracked

theorem Tracked.extend {kept new : List ChainCoin} (before : kept ⊆ history.coins)
    (isNew : ∀ coin ∈ new, coin.txid = txid)
    (distinct : ∀ left ∈ new, ∀ right ∈ new, left.vout = right.vout → left = right)
    (fresh : txid ∉ history.txids) :
    (∀ coin ∈ kept ++ new, coin.txid ∈ txid :: history.txids) ∧
      (∀ left ∈ kept ++ new, ∀ right ∈ kept ++ new, left.txid = right.txid →
        left.vout = right.vout → left = right) ∧
      ∀ u ∈ history.store.utxos, u.txid ∈ txid :: history.txids ∧
        ∀ coin ∈ kept ++ new, coin.txid = u.txid → coin.vout = u.vout → Covered wallet coin := by
  have apart {coin : ChainCoin} (member : coin ∈ new) : coin.txid ∉ history.txids :=
    isNew coin member ▸ fresh
  refine ⟨?_, ?_, ?_⟩
  · intro coin member
    rcases mem_append.mp member with old | added
    · exact mem_cons_of_mem _ (tracked.known coin (before old))
    · rw [isNew coin added]
      exact mem_cons_self
  · intro left leftMember right rightMember same vout
    rcases mem_append.mp leftMember with leftOld | leftNew
    · rcases mem_append.mp rightMember with rightOld | rightNew
      · exact tracked.unique left (before leftOld) right (before rightOld) same vout
      · exact absurd (same ▸ tracked.known left (before leftOld)) (apart rightNew)
    · rcases mem_append.mp rightMember with rightOld | rightNew
      · exact absurd (same ▸ tracked.known right (before rightOld)) (apart leftNew)
      · exact distinct left leftNew right rightNew vout
  · intro u member
    obtain ⟨isKnown, covered⟩ := tracked.seen u member
    refine ⟨mem_cons_of_mem _ isKnown, ?_⟩
    intro coin unspent same vout
    rcases mem_append.mp unspent with old | added
    · exact covered coin (before old) same vout
    · exact absurd (same ▸ isKnown) (apart added)

theorem Tracked.receive (receives : index ≤ 200)
    (pays : coin.scriptPubKey = wallet.script false index) (fresh : coin.txid ∉ history.txids) :
    Tracked wallet (history.receive coin) := by
  have isNew {other : ChainCoin} (new : other ∈ [coin]) : other = coin := mem_singleton.mp new
  obtain ⟨known, unique, seen⟩ := tracked.extend (fun _ => id)
    (fun _ new => congrArg ChainCoin.txid (isNew new))
    (fun _ left _ right _ => (isNew left).trans (isNew right).symm) fresh
  refine ⟨known, unique, seen, tracked.next, tracked.bounded, ?_, ?_⟩
  · intro other member later changeIndex small isChange
    rcases mem_append.mp member with before | new
    · exact tracked.change other before later changeIndex small isChange
    · rw [isNew new, pays] at isChange
      cases (wallet.injective (by omega) small isChange).1
  · intro member
    obtain ⟨other, unspent, isLost⟩ := tracked.lost member
    exact ⟨other, List.mem_append_left _ unspent, isLost⟩

theorem Tracked.confirm (selected : ∀ u ∈ params.utxos, u ∈ history.store.utxos)
    (fresh : txid ∉ history.txids) :
    Tracked wallet (history.confirm txid params recipientScript
      (wallet.script true history.store.changeIndex)) := by
  obtain ⟨known, unique, seen⟩ := tracked.extend (List.filter_subset_self _)
    (fun _ new => (mem_newCoins new).1) (fun _ left _ => newCoins_outpoint left) fresh
  refine ⟨known, unique, seen, tracked.next, ?_, ?_, ?_⟩
  · intro index member
    rcases mem_changes_confirm.mp member with ⟨_, rfl⟩ | before
    · exact tracked.next
    · exact tracked.bounded index before
  · intro coin member later index small isChange
    rw [mem_changes_confirm]
    rcases mem_append.mp member with before | new
    · exact .inr (tracked.change coin (mem_of_mem_filter before) later index small isChange)
    rcases (mem_newCoins new).2 with first | ⟨_, large, script⟩
    · exact absurd first later
    · have next := tracked.next
      have same := (wallet.injective (by omega) small (script.symm.trans isChange)).2
      exact .inl ⟨large, same.symm⟩
  · intro member
    -- the wallet has not seen a coin at 51, so it did not select it
    have stays : 51 ∈ history.changes →
        ∃ coin ∈ (history.confirm txid params recipientScript
          (wallet.script true history.store.changeIndex)).coins,
            coin.scriptPubKey = wallet.script true 51 := by
      intro before
      obtain ⟨coin, unspent, isLost⟩ := tracked.lost before
      have kept : spends params.utxos coin = false := by
        rw [spends, List.any_eq_false]
        intro u chosen same
        rw [Bool.and_eq_true, beq_iff_eq, beq_iff_eq] at same
        exact not_covered_of_change (by decide) (by decide) isLost
          ((tracked.seen u (selected u chosen)).2 coin unspent same.1 same.2)
      refine ⟨coin, List.mem_append_left _ (mem_filter.mpr ⟨unspent, ?_⟩), isLost⟩
      rw [kept]
      rfl
    rcases mem_changes_confirm.mp member with ⟨large, isNext⟩ | before
    · refine ⟨⟨txid, 1, params.changeSats, _, by decide⟩, List.mem_append_right _ ?_,
        congrArg (wallet.script true) isNext.symm⟩
      rw [newCoins_change large]
      exact mem_cons_of_mem _ mem_cons_self
    · exact stays before

theorem Tracked.rescan {scanned : List ScannedUTXO}
    (reports : scanned.Perm (wallet.lightScan history.coins)) :
    Tracked wallet (history.rescan scanned) where
  known := tracked.known
  unique := tracked.unique
  seen u member := by
    obtain ⟨reported, inScan, rfl⟩ := mem_map.mp member
    have inReport := reports.mem_iff.mp inScan
    have known := mem_lightScan inReport
    refine ⟨tracked.known _ known.unspent, ?_⟩
    intro coin unspent txid vout
    rw [tracked.unique coin unspent reported.coin known.unspent txid vout]
    exact (exists_lightScan_iff.mp ⟨reported, inReport, rfl⟩).2
  next := nextIndex_le (changeIndices_le reports)
  bounded := tracked.bounded
  change := tracked.change
  lost := tracked.lost

end

theorem Tracked.step {before after : History} (tracked : Tracked wallet before)
    (step : Step wallet before after) : Tracked wallet after := by
  cases step with
  | pay coin receives pays fresh => exact tracked.receive receives pays fresh
  | send sent =>
    obtain ⟨request, txid, handled, builds, recipient, change, unspent, fresh⟩ := sent
    obtain ⟨selected, isNext⟩ := handleSend_some handled
    rw [isNext, wallet.pays] at change
    cases change
    exact tracked.confirm selected fresh
  | rescan reports => exact tracked.rescan reports

theorem tracked_of_reachable (reachable : Reachable wallet history) : Tracked wallet history := by
  induction reachable with
  | refl => exact tracked_empty
  | tail _ step ih => exact ih.step step

/-- Coins at one of the receive addresses, or at a change address the wallet has chosen. -/
def Owned (wallet : Wallet) (history : History) (coin : ChainCoin) : Prop :=
  (∃ index ≤ 200, coin.scriptPubKey = wallet.script false index) ∨
    ∃ index ∈ history.changes, coin.scriptPubKey = wallet.script true index

def Exact (wallet : Wallet) (history : History) (scanned : List ScannedUTXO) : Prop :=
  ∀ coin, (∃ reported ∈ scanned, reported.coin = coin) ↔
    coin ∈ history.coins ∧ Owned wallet history coin

/-- A scan is exact unless change was paid to index 51, or a send named an own change address
as its recipient that is in the range of the scan without having been chosen, or the other way
round. -/
theorem rescan_exact_iff {history : History} (reachable : Reachable wallet history)
    {scanned : List ScannedUTXO} (reports : scanned.Perm (wallet.lightScan history.coins)) :
    Exact wallet history scanned ↔
      51 ∉ history.changes ∧
        ∀ coin ∈ history.coins, coin.vout = 0 → ∀ index < 2 ^ 31,
          coin.scriptPubKey = wallet.script true index →
            (index ≤ 50 ↔ index ∈ history.changes) := by
  have tracked := tracked_of_reachable reachable
  have reported (coin : ChainCoin) : (∃ reported ∈ scanned, reported.coin = coin) ↔
      coin ∈ history.coins ∧ Covered wallet coin := by
    rw [← exists_lightScan_iff]
    simp only [reports.mem_iff]
  constructor
  · intro isExact
    constructor
    · intro member
      obtain ⟨coin, unspent, isLost⟩ := tracked.lost member
      have inScan := (isExact coin).mpr ⟨unspent, .inr ⟨51, member, isLost⟩⟩
      exact not_covered_of_change (by decide) (by decide) isLost ((reported coin).mp inScan).2
    · intro coin unspent _ index small pays
      have same := (reported coin).symm.trans (isExact coin)
      constructor
      · intro inside
        rcases (same.mp ⟨unspent, .inr ⟨index, inside, pays⟩⟩).2 with
          ⟨other, below, paysOther⟩ | ⟨other, chosen, paysOther⟩
        · cases (wallet.injective small (by omega) (pays.symm.trans paysOther)).1
        · have bound := tracked.bounded other chosen
          rw [(wallet.injective small (by omega) (pays.symm.trans paysOther)).2]
          exact chosen
      · intro chosen
        by_contra high
        exact not_covered_of_change (Nat.not_le.mp high) small pays
          (same.mpr ⟨unspent, .inr ⟨index, chosen, pays⟩⟩).2
  · intro conditions coin
    obtain ⟨noneLost, direct⟩ := conditions
    rw [reported]
    apply and_congr_right
    intro unspent
    -- coins at receive addresses are on both sides; a change coin is chosen by the wallet or direct
    have agree : ∀ index < 2 ^ 31, coin.scriptPubKey = wallet.script true index →
        (index ≤ 50 ↔ index ∈ history.changes) := by
      intro index small pays
      by_cases first : coin.vout = 0
      · exact direct coin unspent first index small pays
      · have chosen := tracked.change coin unspent first index small pays
        have bound := tracked.bounded index chosen
        have other : index ≠ 51 := fun isLost => noneLost (isLost ▸ chosen)
        exact ⟨fun _ => chosen, fun _ => by omega⟩
    constructor
    · intro covered
      rcases covered with receives | ⟨index, inside, pays⟩
      · exact .inl receives
      · exact .inr ⟨index, (agree index (by omega) pays).mp inside, pays⟩
    · intro owned
      rcases owned with receives | ⟨index, chosen, pays⟩
      · exact .inl receives
      · have bound := tracked.bounded index chosen
        exact .inr ⟨index, (agree index (by omega) pays).mpr chosen, pays⟩

/-! ### A wallet that is spent from one coin -/

def pathHash (isChange : Bool) (index : Nat) : Key.Bytes 20 :=
  ⟨littleEndian 20 (2 * index + isChange.toNat + 1), littleEndian_length _ _⟩

theorem pathHash_injective {isChange' : Bool} {index' : Nat} (small : index < 2 ^ 31)
    (small' : index' < 2 ^ 31) (same : (pathHash isChange index).1 = (pathHash isChange' index').1)
    : isChange = isChange' ∧ index = index' := by
  have bit := isChange.toNat_lt
  have bit' := isChange'.toNat_lt
  have number := littleEndian_inj (by omega) (by omega) same
  have parity : isChange.toNat = isChange'.toNat := by omega
  constructor
  · cases isChange <;> cases isChange' <;> first | rfl | cases parity
  · omega

def pathAddress (isChange : Bool) (index : Nat) : List Char :=
  (Key.encodeWitness Key.mainAddressParams .bech32 0 (pathHash isChange index).1).getD []

def plainWallet : Wallet where
  library := standardLibrary
  crypto := zeroCrypto
  mnemonic := ""
  address := pathAddress
  script isChange index := p2wpkhScript (pathHash isChange index).1
  pays isChange index := by
    obtain ⟨str, encodes, pays⟩ := payScript_encodeWitness standardLibrary (pathHash isChange index)
    rw [pathAddress, encodes]
    exact pays
  injective small small' same :=
    pathHash_injective small small' (List.cons.inj (List.cons.inj same).2).2
  validateAddress _ := true

theorem foreign_ne_script (small : index < 2 ^ 31) :
    p2wpkhScript (zeros 20).1 ≠ plainWallet.script isChange index := by
  intro same
  have bit := isChange.toNat_lt
  have hashes : littleEndian 20 0 = littleEndian 20 (2 * index + isChange.toNat + 1) :=
    (List.cons.inj (List.cons.inj same).2).2
  have number := littleEndian_inj (by decide) (by omega) hashes
  omega

def markedTxid (count : Nat) : Txid where
  text := List.replicate (min count 64) '1' ++ List.replicate (64 - min count 64) '0'
  length := by
    rw [List.length_append, List.length_replicate, List.length_replicate]
    omega
  digits c member := by
    rcases mem_append.mp member with one | zero
    · rw [List.eq_of_mem_replicate one]
      rfl
    · rw [List.eq_of_mem_replicate zero]
      rfl

theorem markedTxid_injective {count other : Nat} (small : count ≤ 64) (otherSmall : other ≤ 64)
    (same : markedTxid count = markedTxid other) : count = other := by
  have ones (number : Nat) : (markedTxid number).text.count '1' = min number 64 := by
    rw [markedTxid, List.count_append, List.count_replicate_self, List.count_replicate,
      if_neg (by decide), Nat.add_zero]
  have counts := ones count
  rw [same, ones] at counts
  omega

def remaining (sends : Nat) : Int := 100000000000 - sends * 100000511

def sendOne : SendRequest where
  address := keyHashAddress
  amountNum := 1
  model := some { alpha := 1 / 1000000, beta := 5 / 1000000, min := 1 / 1000000 }

def coinPath (sends : Nat) : Bool × Nat := if sends = 0 then (false, 0) else (true, sends - 1)

structure Holding (sends : Nat) (history : History) : Prop where
  reachable : Reachable plainWallet history
  txids : ∀ txid ∈ history.txids, ∃ count ≤ sends, txid = markedTxid count
  scan : ∃ scanned, plainWallet.lightScan history.coins = [scanned] ∧
    scanned.coin.amountSats = remaining sends ∧ scanned.isChange = (coinPath sends).1 ∧
    scanned.index = (coinPath sends).2

theorem adoToSats_exact {sats : Int} (small : |sats| < 2 ^ 53) :
    adoToSats ((sats : ℚ) / 100000000) = sats := by
  have product : (sats : ℚ) / 100000000 * 100000000 = sats := div_mul_cancel₀ _ (by norm_num)
  have rounds : Binary64.mul ((sats : ℚ) / 100000000) 100000000 = sats := by
    rw [Binary64.mul, product]
    exact Binary64.ofInt_eq sats small
  rw [adoToSats, rounds, Int.floor_eq_iff]
  constructor
  · linarith
  · linarith

variable {sends : Nat}

theorem remaining_bounds (few : sends ≤ 52) :
    94799973428 ≤ remaining sends ∧ remaining sends ≤ 100000000000 := by
  unfold remaining
  omega

def sendingOne (scanned : ScannedUTXO) : BuildTxParams where
  utxos := [scanned.toLightUTXO]
  recipientAddress := keyHashAddress
  amountAdo := 1
  changeAddress := pathAddress true (setScanResult [scanned]).changeIndex
  feeAdo := sendOne.estimatedFee 1
  mnemonic := ""
  passphrase := ""

section

variable (few : sends ≤ 51) (amount : scanned.coin.amountSats = remaining sends)

include few amount

theorem handleSend_sendOne :
    handleSend plainWallet (setScanResult [scanned]) sendOne = some (sendingOne scanned) := by
  have bounds := remaining_bounds (Nat.le_succ_of_le few)
  have enough : (94799973428 : ℚ) / 100000000 ≤ scanned.amount := by
    rw [ScannedUTXO.amount, amount]
    have cast : (94799973428 : ℚ) ≤ (remaining sends : ℚ) := by exact_mod_cast bounds.1
    linarith
  have balance : (setScanResult [scanned]).balance = scanned.amount := by
    change [scanned.amount].sum = _
    rw [List.sum_singleton]
  have covers : 1 ≤ (setScanResult [scanned]).balance := by
    rw [balance]
    linarith
  have fee : sendOne.estimatedFee 1 = 51135 / 10000000000 := by decide +kernel
  have reached : 0 + scanned.amount ≥ 1 + sendOne.estimatedFee 1 := by
    rw [fee]
    linarith
  have picks : pickCoins
      (sendOne.amountNum + sendOne.estimatedFee (setScanResult [scanned]).utxos.length)
      0 ((setScanResult [scanned]).utxos.insertionSort
        fun a b => a.amountAdo ≥ b.amountAdo) =
      ([scanned.toLightUTXO], 0 + scanned.amount) :=
    if_pos reached
  have positive : sendOne.amountNum > 0 := by
    change (1 : ℚ) > 0
    norm_num
  unfold handleSend
  dsimp only
  rw [if_pos ⟨rfl, ⟨positive, covers⟩, Nat.zero_lt_one⟩]
  rw [picks]
  exact if_neg (not_lt.mpr reached)

theorem changeSats_sendingOne : (sendingOne scanned).changeSats = remaining (sends + 1) := by
  have bounds := remaining_bounds (Nat.le_succ_of_le few)
  have total : (sendingOne scanned).totalIn = remaining sends := by
    change [adoToSats scanned.amount].sum = _
    rw [List.sum_singleton, ScannedUTXO.amount, amount]
    exact adoToSats_exact (by rw [abs_lt]; omega)
  have sent : (sendingOne scanned).amountSats = 100000000 := by
    change adoToSats 1 = _
    decide +kernel
  have fee : adoToSats (sendingOne scanned).feeAdo = 511 := by
    change adoToSats (sendOne.estimatedFee 1) = _
    decide +kernel
  rw [BuildTxParams.changeSats, total, sent, fee]
  unfold remaining
  push_cast
  ring

end

theorem changeIndex_coinPath (isChange : scanned.isChange = (coinPath sends).1)
    (index : scanned.index = (coinPath sends).2) :
    (setScanResult [scanned]).changeIndex = sends := by
  obtain ⟨coin, isChange', index'⟩ := scanned
  cases isChange
  cases index
  cases sends with
  | zero => rfl
  | succ sends =>
    change max 0 sends + 1 = sends + 1
    rw [Nat.zero_max]

private theorem lightScan_append (front back : List ChainCoin) :
    wallet.lightScan (front ++ back) = wallet.lightScan front ++ wallet.lightScan back :=
  List.filterMap_append

theorem lightScan_eq_nil (none : ∀ coin ∈ coins, ¬Covered wallet coin) :
    wallet.lightScan coins = [] := by
  apply List.eq_nil_iff_forall_not_mem.mpr
  intro scanned member
  obtain ⟨unspent, covered⟩ := exists_lightScan_iff.mp ⟨scanned, member, rfl⟩
  exact none _ unspent covered

theorem lightScan_singleton (receives : isChange = false → index ≤ 200)
    (changes : isChange = true → index ≤ 50)
    (pays : coin.scriptPubKey = wallet.script isChange index) :
    wallet.lightScan [coin] = [{ coin := coin, isChange := isChange, index := index }] := by
  have covered := covered_of_path receives changes pays
  obtain ⟨scanned, member, isCoin⟩ :=
    exists_lightScan_iff.mpr ⟨List.mem_singleton_self coin, covered.1⟩
  have known := mem_lightScan member
  have small := (covered_of_path known.receives known.changes known.pays).2
  have samePath := known.pays
  rw [isCoin, pays] at samePath
  obtain ⟨sameBranch, sameIndex⟩ := wallet.injective covered.2 small samePath
  have isScanned : scanned = { coin := coin, isChange := isChange, index := index } := by
    rw [← isCoin, sameBranch, sameIndex]
  obtain ⟨other, isOther, found⟩ := mem_filterMap.mp member
  rw [mem_singleton.mp isOther, isScanned] at found
  exact List.filterMap_cons_some
    (f := fun coin => (wallet.inRange false 200 coin).or (wallet.inRange true 50 coin)) found

/-- The only coin that is found is sent from, and the change goes to the next index. -/
theorem sent_sendOne (scan : plainWallet.lightScan history.coins = [scanned])
    (amount : scanned.coin.amountSats = remaining sends)
    (isChange : scanned.isChange = (coinPath sends).1) (index : scanned.index = (coinPath sends).2)
    (few : sends ≤ 51) (fresh : txid ∉ history.txids) :
    Sent plainWallet (history.rescan [scanned]) ((history.rescan [scanned]).confirm txid
      (sendingOne scanned) (p2wpkhScript (zeros 20).1) (plainWallet.script true sends)) := by
  have listed : scanned ∈ plainWallet.lightScan history.coins := scan ▸ mem_cons_self
  have paysOwn : payScript plainWallet.library (sendingOne scanned).changeAddress =
      some (plainWallet.script true sends) :=
    changeIndex_coinPath isChange index ▸ plainWallet.pays true _
  have paid : payScript standardLibrary keyHashAddress = some (p2wpkhScript (zeros 20).1) := by
    decide +kernel
  have change := changeSats_sendingOne few amount
  have bounds : _ ≤ remaining (sends + 1) ∧ _ := remaining_bounds (Nat.succ_le_succ few)
  have builds : (buildAndSignTx standardLibrary zeroCrypto (sendingOne scanned)).isSome = true := by
    apply buildAndSignTx_isSome
    · omega
    · exact Option.isSome_of_eq_some paid
    · exact Option.isSome_of_eq_some paysOwn
    · intro u _
      rfl
  obtain ⟨hex, builds⟩ := Option.isSome_iff_exists.mp builds
  refine .confirmed sendOne txid (handleSend_sendOne few amount) builds paid paysOwn ?_ fresh
  intro u member
  rw [mem_singleton.mp member]
  exact ⟨scanned.coin, (mem_lightScan listed).unspent, rfl, rfl⟩

theorem Holding.send (holding : Holding sends history) (few : sends ≤ 51) :
    ∃ after coin, Relation.ReflTransGen (Step plainWallet) history after ∧
      (∀ txid ∈ after.txids, ∃ count ≤ sends + 1, txid = markedTxid count) ∧
      sends ∈ after.changes ∧ coin ∈ after.coins ∧ coin.amountSats = remaining (sends + 1) ∧
      coin.scriptPubKey = plainWallet.script true sends ∧
      plainWallet.lightScan after.coins = plainWallet.lightScan [coin] := by
  obtain ⟨scanned, scan, amount, isChange, index⟩ := holding.scan
  have isNext := changeIndex_coinPath isChange index
  have change := changeSats_sendingOne few amount
  have bounds : _ ≤ remaining (sends + 1) ∧ _ := remaining_bounds (Nat.succ_le_succ few)
  have fresh : markedTxid (sends + 1) ∉ history.txids := by
    intro used
    obtain ⟨count, before, same⟩ := holding.txids _ used
    have equal := markedTxid_injective (by omega) (by omega) same
    omega
  have rescans : Step plainWallet history (history.rescan [scanned]) :=
    Step.rescan (scan ▸ List.Perm.refl _)
  have sent := Step.send (sent_sendOne scan amount isChange index few fresh)
  set params := sendingOne scanned
  set txid := markedTxid (sends + 1)
  set recipient := p2wpkhScript (zeros 20).1
  set own := plainWallet.script true sends
  have large : params.changeSats > 546 := by omega
  -- the coin that was found is spent, and nothing else of the wallet was unspent
  have spent : plainWallet.lightScan
      (history.coins.filter fun coin => !spends params.utxos coin) = [] := by
    apply lightScan_eq_nil
    intro coin member covered
    obtain ⟨before, kept⟩ := mem_filter.mp member
    obtain ⟨other, inScan, isCoin⟩ := exists_lightScan_iff.mpr ⟨before, covered⟩
    rw [scan, mem_singleton] at inScan
    have isSpent : spends params.utxos coin = true := by
      rw [← isCoin, inScan, spends, List.any_eq_true]
      refine ⟨scanned.toLightUTXO, mem_cons_self, ?_⟩
      rw [Bool.and_eq_true, beq_iff_eq, beq_iff_eq]
      exact ⟨rfl, rfl⟩
    rw [isSpent] at kept
    cases kept
  set payment : ChainCoin :=
    { txid := txid, vout := 0, amountSats := params.amountSats, scriptPubKey := recipient
      vout_lt := by decide }
  set coin : ChainCoin :=
    { txid := txid, vout := 1, amountSats := params.changeSats, scriptPubKey := own
      vout_lt := by decide }
  have created : newCoins txid (outputsOf params.amountSats params.changeSats recipient own) =
    [payment] ++ [coin] := newCoins_change large
  have foreign : plainWallet.lightScan [payment] = [] := by
    apply lightScan_eq_nil
    intro other member covered
    rw [mem_singleton.mp member] at covered
    rcases covered with ⟨index, inside, pays⟩ | ⟨index, inside, pays⟩
    · exact foreign_ne_script (by omega) pays
    · exact foreign_ne_script (by omega) pays
  refine ⟨_, coin, (Relation.ReflTransGen.single rescans).tail sent, ?_, ?_, ?_, change, rfl, ?_⟩
  · intro txid member
    rcases mem_cons.mp member with isNew | before
    · exact ⟨sends + 1, le_rfl, isNew⟩
    · obtain ⟨count, below, same⟩ := holding.txids txid before
      exact ⟨count, Nat.le_succ_of_le below, same⟩
  · exact mem_changes_confirm.mpr (.inl ⟨large, isNext.symm⟩)
  · change coin ∈ _ ++ newCoins _ _
    rw [created, ← List.append_assoc]
    exact List.mem_append_right _ mem_cons_self
  · change plainWallet.lightScan (_ ++ newCoins _ _) = _
    rw [created, lightScan_append, lightScan_append, foreign, List.nil_append]
    change plainWallet.lightScan (history.coins.filter _) ++ _ = _
    rw [spent, List.nil_append]

theorem exists_holding (few : sends ≤ 51) : ∃ history, Holding sends history := by
  induction sends with
  | zero =>
    set coin : ChainCoin :=
      { txid := markedTxid 0, vout := 0, amountSats := remaining 0
        scriptPubKey := plainWallet.script false 0, vout_lt := by decide } with isCoin
    have pays : Step plainWallet History.empty (History.empty.receive coin) :=
      Step.pay coin (Nat.zero_le _) rfl not_mem_nil
    refine ⟨_, Relation.ReflTransGen.single pays, ?_, ?_⟩
    · intro txid member
      exact ⟨0, le_rfl, mem_singleton.mp member⟩
    · have scan : plainWallet.lightScan [coin] = [_] :=
        lightScan_singleton (fun _ => Nat.zero_le 200) (fun _ => Nat.zero_le 50) rfl
      exact ⟨_, scan, rfl, rfl, rfl⟩
  | succ sends ih =>
    obtain ⟨history, holding⟩ := ih (Nat.le_of_succ_le few)
    obtain ⟨after, coin, runs, txids, _, _, amount, script, scan⟩ :=
      holding.send (Nat.le_of_succ_le few)
    have inside : sends ≤ 50 := Nat.le_of_succ_le_succ few
    rw [lightScan_singleton (fun _ => inside.trans (by decide)) (fun _ => inside) script] at scan
    exact ⟨after, holding.reachable.trans runs, txids, _, scan, amount, rfl, rfl⟩

theorem rescan_exact_iff_deposited : ∃ history, Reachable plainWallet history ∧
      (Exact plainWallet history (plainWallet.lightScan history.coins) ↔
        51 ∉ history.changes ∧
          ∀ coin ∈ history.coins, coin.vout = 0 → ∀ index < 2 ^ 31,
            coin.scriptPubKey = plainWallet.script true index →
              (index ≤ 50 ↔ index ∈ history.changes)) := by
  obtain ⟨history, holding⟩ := exists_holding (Nat.zero_le 51)
  exact ⟨history, holding.reachable, rescan_exact_iff holding.reachable (List.Perm.refl _)⟩

/-- After 52 sends of one coin each, everything that is left lies where no scan finds it. -/
theorem rescan_loses_change : ∃ history, Reachable plainWallet history ∧
      (∃ coin ∈ history.coins, Owned plainWallet history coin ∧ coin.amountSats = 94799973428) ∧
      plainWallet.lightScan history.coins = [] ∧
      ¬Exact plainWallet history (plainWallet.lightScan history.coins) := by
  obtain ⟨history, holding⟩ := exists_holding (le_refl 51)
  obtain ⟨after, coin, runs, _, changes, unspent, amount, script, scan⟩ := holding.send (le_refl 51)
  have lost : plainWallet.lightScan after.coins = [] := by
    rw [scan]
    apply lightScan_eq_nil
    intro other member
    rw [mem_singleton.mp member]
    exact not_covered_of_change (by decide) (by decide) script
  have owned : Owned plainWallet after coin := .inr ⟨51, changes, script⟩
  refine ⟨after, holding.reachable.trans runs, ⟨coin, unspent, owned, amount⟩, lost, ?_⟩
  intro isExact
  obtain ⟨reported, member, _⟩ := (isExact coin).mpr ⟨unspent, owned⟩
  rw [lost] at member
  cases member

end Adonai.Light
