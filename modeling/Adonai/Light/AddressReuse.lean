/-
Addresses a light wallet offers a second time.

A scan reports unspent coins only, and the next indices are computed from what it reports. So an
address is offered again once its coins and those of all later addresses are spent.
-/

import Adonai.Light.History

namespace Adonai.Light

open History
open LightWalletState (nextIndex setScanResult)

/-- What a scan met, and the store that it set. -/
structure Scan where
  received : List ChainCoin
  coins : List ChainCoin
  store : LightWalletState

/-- A history, with its scans and all coins there have ever been. Others may pay any script. -/
inductive Past (wallet : Wallet) :
    (scans : List Scan) → (received : List ChainCoin) → History → Prop where
  | start : Past wallet [] [] History.empty
  | paid {scans : List Scan} {received : List ChainCoin} {history : History} (coin : ChainCoin)
      (fresh : coin.txid ∉ history.txids) (past : Past wallet scans received history) :
      Past wallet scans (coin :: received) (history.receive coin)
  | sent {scans : List Scan} {received : List ChainCoin} {before after : History}
      (sent : Sent wallet before after) (past : Past wallet scans received before) :
      Past wallet scans (after.coins ++ received) after
  | scanned {scans : List Scan} {received : List ChainCoin} {history : History}
      {scanned : List ScannedUTXO} (reports : scanned.Perm (wallet.lightScan history.coins))
      (past : Past wallet scans received history) :
      Past wallet (⟨received, history.coins, setScanResult scanned⟩ :: scans) received
        (history.rescan scanned)

variable {wallet : Wallet} {scans : List Scan} {received coins : List ChainCoin} {history : History}

section

variable {scanned : List ScannedUTXO} (reports : scanned.Perm (wallet.lightScan coins))
  (isChange : Bool)

include reports

end

theorem Past.covers (past : Past wallet scans received history) :
    ∀ coin ∈ history.coins, coin ∈ received := by
  induction past with
  | start => exact List.forall_mem_nil _
  | paid coin fresh past ih =>
    intro other member
    rcases List.mem_append.mp member with before | new
    · exact List.mem_cons_of_mem _ (ih other before)
    · rw [List.mem_singleton.mp new]
      exact List.mem_cons_self
  | sent sent past ih =>
    intro coin member
    exact List.mem_append_left _ member
  | scanned reports past ih => exact ih

theorem Past.run (past : Past wallet scans received history) {after : History}
    (runs : Relation.ReflTransGen (Step wallet) history after) :
    ∃ scans more, Past wallet scans more after ∧ ∀ coin ∈ received, coin ∈ more := by
  induction runs with
  | refl => exact ⟨scans, received, past, fun _ member => member⟩
  | tail _ step ih =>
    obtain ⟨scans, more, later, kept⟩ := ih
    cases step with
    | pay coin receives pays fresh =>
      exact ⟨_, _, .paid coin fresh later, fun coin member => .tail _ (kept coin member)⟩
    | send sent =>
      exact ⟨_, _, .sent sent later, fun coin member => List.mem_append_right _ (kept coin member)⟩
    | rescan reports => exact ⟨_, _, .scanned reports later, kept⟩

end Adonai.Light
