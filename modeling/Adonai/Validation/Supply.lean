/-
The money supply along a chain of connected blocks.

Adding outputs adds at most their value, less when an old coin is overwritten. With the reward check
a block therefore adds at most its subsidy to the total of all coins.
-/

import Adonai.Foundation.Total
import Adonai.Validation.ConnectRules

namespace Adonai.Validation

open Coins Coins.StackedView Consensus Program Total

def HasCoins (coins : CoinMap) : Set COutPoint := {outpoint | coins outpoint ≠ none}

noncomputable def totalValue (coins : CoinMap) : Int :=
  total (fun coin : Coin => coin.out.nValue) coins

structure Solvent (coins : CoinMap) : Prop where
  finite : (HasCoins coins).Finite
  values : ∀ outpoint coin, coins outpoint = some coin → moneyRange coin.out.nValue = true

variable {coins : CoinMap}

section

variable (solvent : Solvent coins) (outpoint : COutPoint)

include solvent outpoint

private theorem Solvent.value_nonneg : 0 ≤ coinValue (coins outpoint) := by
  cases found : coins outpoint with
  | none => exact le_refl _
  | some coin => exact ((moneyRange_iff _).mp (solvent.values outpoint coin found)).1

private theorem totalValue_update (coin : Option Coin) :
    totalValue (Function.update coins outpoint coin) =
      totalValue coins - coinValue (coins outpoint) + coinValue coin :=
  total_update _ solvent.finite outpoint coin

theorem Solvent.update (coin : Option Coin)
    (valid : ∀ added, coin = some added → moneyRange added.out.nValue = true) :
    Solvent (Function.update coins outpoint coin) := by
  refine ⟨finite_update solvent.finite outpoint coin, fun other present found => ?_⟩
  rw [Function.update_apply] at found
  split at found
  · exact valid present found
  · exact solvent.values other present found

end

theorem spentMap_total (vin : List CTxIn) (solvent : Solvent coins)
    (distinct : (vin.map CTxIn.prevout).Nodup) : Solvent (spentMap coins vin) ∧
      totalValue (spentMap coins vin) = totalValue coins - valueIn coins vin := by
  induction vin generalizing coins with
  | nil =>
    refine ⟨solvent, ?_⟩
    rw [valueIn, List.map_nil, List.sum_nil, Int.sub_zero]
    rfl
  | cons txin rest ih =>
    rw [List.map_cons, List.nodup_cons] at distinct
    have removed : Solvent (Function.update coins txin.prevout none) :=
      solvent.update _ none (by simp)
    obtain ⟨restSolvent, restTotal⟩ := ih removed distinct.2
    -- the coins of the other inputs are elsewhere
    have others : valueIn (Function.update coins txin.prevout none) rest = valueIn coins rest := by
      unfold valueIn
      congr 1
      refine List.map_congr_left fun other member => ?_
      rw [Function.update_of_ne]
      intro same
      exact distinct.1 (same ▸ List.mem_map_of_mem member)
    refine ⟨restSolvent, ?_⟩
    change totalValue (spentMap (Function.update coins txin.prevout none) rest) = _
    have gone : coinValue none = 0 := rfl
    rw [restTotal, totalValue_update solvent, valueIn_cons]
    omega

def spendableOut (vout : List CTxOut) : Int :=
  (vout.map fun out => if out.scriptPubKey.isUnspendable then 0 else out.nValue).sum

private theorem spendableOut_cons (out : CTxOut) (rest : List CTxOut) : spendableOut (out :: rest) =
      (if out.scriptPubKey.isUnspendable then 0 else out.nValue) + spendableOut rest := by
  rfl

theorem spendableOut_bounds {vout : List CTxOut}
    (values : ∀ out ∈ vout, moneyRange out.nValue = true) :
    0 ≤ spendableOut vout ∧ spendableOut vout ≤ valueOut vout := by
  induction vout with
  | nil => exact ⟨le_refl _, le_refl _⟩
  | cons out rest ih =>
    have later := ih fun other member => values other (List.mem_cons_of_mem _ member)
    have nonneg := ((moneyRange_iff _).mp (values out List.mem_cons_self)).1
    rw [spendableOut_cons, valueOut_cons]
    split
    · omega
    · omega

theorem addedMap_total (tx : CTransaction) (nHeight : Int) (vout : List CTxOut) (index : Nat)
    (solvent : Solvent coins) (values : ∀ out ∈ vout, moneyRange out.nValue = true) :
    Solvent (addedMap tx nHeight vout index coins) ∧
      totalValue (addedMap tx nHeight vout index coins) ≤ totalValue coins + spendableOut vout := by
  induction vout generalizing index coins with
  | nil =>
    refine ⟨solvent, ?_⟩
    rw [spendableOut, List.map_nil, List.sum_nil, Int.add_zero]
    exact le_refl _
  | cons out rest ih =>
    have outRange := values out List.mem_cons_self
    have restValues : ∀ other ∈ rest, moneyRange other.nValue = true :=
      fun other member => values other (List.mem_cons_of_mem _ member)
    set place := outputPoint tx index
    set coin := outputCoin tx nHeight out
    have one : Solvent (withCoin coins place coin) ∧
        totalValue (withCoin coins place coin) ≤
          totalValue coins + if out.scriptPubKey.isUnspendable then 0 else out.nValue := by
      have script : coin.out.scriptPubKey = out.scriptPubKey := rfl
      unfold withCoin
      rw [script]
      split
      · exact ⟨solvent, by omega⟩
      refine ⟨solvent.update place (some coin) ?_, ?_⟩
      · intro added same
        cases same
        exact outRange
      · have replaced := solvent.value_nonneg place
        have value : coinValue (some coin) = out.nValue := rfl
        rw [totalValue_update solvent]
        omega
    obtain ⟨restSolvent, restTotal⟩ := ih (index + 1) one.1 restValues
    refine ⟨restSolvent, ?_⟩
    rw [spendableOut_cons]
    change totalValue (addedMap tx nHeight rest (index + 1) (withCoin coins place coin)) ≤ _
    omega

section

variable {tx : CTransaction} (nHeight : Int) (solvent : Solvent coins) (checked : Checked tx)

include nHeight solvent checked

theorem updatedMap_spendable : Solvent (updatedMap nHeight coins tx) ∧
      totalValue (updatedMap nHeight coins tx) ≤
        totalValue coins - (if tx.isCoinBase then 0 else valueIn coins tx.vin) +
          spendableOut tx.vout := by
  have spent : Solvent (inputsSpent coins tx) ∧ totalValue (inputsSpent coins tx) =
      totalValue coins - if tx.isCoinBase then 0 else valueIn coins tx.vin := by
    unfold inputsSpent
    split
    · exact ⟨solvent, (Int.sub_zero _).symm⟩
    · exact spentMap_total tx.vin solvent checked.distinct
  obtain ⟨addedSolvent, addedTotal⟩ := addedMap_total tx nHeight tx.vout 0 spent.1 checked.values
  refine ⟨addedSolvent, ?_⟩
  rw [spent.2] at addedTotal
  exact addedTotal

theorem updatedMap_total : Solvent (updatedMap nHeight coins tx) ∧
      totalValue (updatedMap nHeight coins tx) ≤
        totalValue coins - feeOf coins tx + (if tx.isCoinBase then valueOut tx.vout else 0) := by
  obtain ⟨updatedSolvent, total⟩ := updatedMap_spendable nHeight solvent checked
  have outputs := (spendableOut_bounds checked.values).2
  refine ⟨updatedSolvent, ?_⟩
  unfold feeOf
  split at total
  next coinbase =>
    rw [if_pos coinbase, if_pos coinbase]
    omega
  next spending =>
    rw [if_neg spending, if_neg spending]
    omega

end

theorem coinsAfter_total (nHeight : Int) (vtx : List CTransaction) (solvent : Solvent coins)
    (checked : ∀ tx ∈ vtx, Checked tx) (noCoinbase : ∀ tx ∈ vtx, tx.isCoinBase = false) :
    Solvent (coinsAfter nHeight vtx coins) ∧
      totalValue (coinsAfter nHeight vtx coins) ≤
        totalValue coins - feesAlong nHeight vtx coins := by
  induction vtx generalizing coins with
  | nil =>
    refine ⟨solvent, ?_⟩
    rw [feesAlong, Int.sub_zero]
    exact le_refl _
  | cons tx rest ih =>
    obtain ⟨oneSolvent, oneTotal⟩ :=
      updatedMap_total nHeight solvent (checked tx List.mem_cons_self)
    have spending := noCoinbase tx List.mem_cons_self
    obtain ⟨restSolvent, restTotal⟩ := ih oneSolvent
      (fun other member => checked other (List.mem_cons_of_mem _ member))
      (fun other member => noCoinbase other (List.mem_cons_of_mem _ member))
    refine ⟨restSolvent, ?_⟩
    rw [spending, if_neg Bool.false_ne_true] at oneTotal
    rw [feesAlong]
    change totalValue (coinsAfter nHeight rest (updatedMap nHeight coins tx)) ≤ _
    omega

theorem Connected.total {env : Environment} {block : CBlock} {nHeight : Int}
    {vtxundo : List (List Coin)} {coinbase : CTransaction} {rest : List CTransaction}
    (connected : Connected env block nHeight coins vtxundo coinbase rest) (solvent : Solvent coins)
    : Solvent (coinsAfter nHeight block.vtx coins) ∧
      totalValue (coinsAfter nHeight block.vtx coins) ≤
        totalValue coins + getBlockSubsidy nHeight env.params := by
  obtain ⟨⟨shape, first, others, _, checked⟩, _, _, reward, _⟩ := connected
  rw [shape] at checked reward ⊢
  obtain ⟨oneSolvent, oneTotal⟩ :=
    updatedMap_total nHeight solvent (checked coinbase List.mem_cons_self)
  obtain ⟨restSolvent, restTotal⟩ := coinsAfter_total nHeight rest oneSolvent
    (fun other member => checked other (List.mem_cons_of_mem _ member)) others
  refine ⟨restSolvent, ?_⟩
  rw [if_pos first] at oneTotal
  rw [feesAlong] at reward
  change totalValue (coinsAfter nHeight rest (updatedMap nHeight coins coinbase)) ≤ _
  omega

def indexEntry (env : Environment) (block : CBlock) (pprev : List CBlockIndex) : CBlockIndex :=
  { hashBlock := block.getHash env
    nHeight := match pprev with
      | [] => 0
      | last :: _ => last.nHeight + 1
    nVersion := block.header.nVersion
    hashMerkleRoot := block.header.hashMerkleRoot
    nTime := block.header.nTime
    nBits := block.header.nBits
    nNonce := block.header.nNonce }

def connectChain (env : Environment) :
    List CBlock → List CBlockIndex → ViewProgram (Option (List CBlockIndex))
  | [], pindex => pure (some pindex)
  | block :: rest, pprev => do
    match ← connectBlock env block (indexEntry env block pprev :: pprev) false with
    | .connected _ => connectChain env rest (indexEntry env block pprev :: pprev)
    | _ => pure none

def issued (params : Params) (count : Nat) : Int :=
  ∑ height ∈ Finset.range count, getBlockSubsidy height params

structure Empty (stack : StackedView) : Prop where
  sound : stack.Sound
  shown : ∀ outpoint, stack.shown outpoint = none
  shownBelow : ∀ outpoint, stack.shownBelow outpoint = none

structure Funded (env : Environment) (pindex : List CBlockIndex) (stack : StackedView) : Prop where
  sound : stack.Sound
  shownBelow : ∀ outpoint, stack.shownBelow outpoint = none
  solvent : Solvent stack.shown
  height : ∀ last ∈ pindex.head?, last.nHeight = pindex.length - 1
  total : totalValue stack.shown ≤ issued env.params pindex.length

variable {stack : StackedView}

theorem Empty.funded (env : Environment) (empty : Empty stack) : Funded env [] stack := by
  have nothing : stack.shown = fun _ => none := funext empty.shown
  refine ⟨empty.sound, empty.shownBelow, ⟨?_, ?_⟩, nofun, ?_⟩
  · rw [nothing]
    have none : HasCoins (fun _ => none) = ∅ := by
      ext outpoint
      exact ⟨fun present => absurd rfl present, nofun⟩
    rw [none]
    exact Set.finite_empty
  · intro outpoint coin found
    rw [empty.shown] at found
    cases found
  · rw [nothing]
    exact le_of_eq (total_empty _)

variable {pprev : List CBlockIndex}

theorem indexEntry_height (env : Environment) (block : CBlock)
    (height : ∀ last ∈ pprev.head?, last.nHeight = pprev.length - 1) :
    (indexEntry env block pprev).nHeight = pprev.length := by
  cases pprev with
  | nil => rfl
  | cons last ancestors =>
    have same := height last rfl
    change last.nHeight + 1 = _
    omega

section

variable {env : Environment} (initial : moneyRange env.params.nSubsidyInitial = true)

include initial

theorem Funded.connect (funded : Funded env pprev stack) (block : CBlock) :
    Meets (connectBlock env block (indexEntry env block pprev :: pprev) false) stack
      (· ≠ Halt.overflow) fun result after => ∀ vtxundo, result = .connected vtxundo →
        Funded env (indexEntry env block pprev :: pprev) after := by
  have height := indexEntry_height env block funded.height
  have refused : Halt.coins .overwritesUnspent ≠ .overflow := nofun
  refine (meets_connectBlock env block (indexEntry env block pprev) pprev false
    nofun funded.sound (.inr funded.solvent.values)
    (.inr initial) (.inl ⟨refused, funded.shownBelow⟩)).weaken
    fun result after holds vtxundo same => ?_
  obtain ⟨_, _, way⟩ := holds vtxundo same
  have subsidy := ((moneyRange_iff _).mp (getBlockSubsidy_range initial pprev.length)).1
  have grows : issued env.params (pprev.length + 1) =
      issued env.params pprev.length + getBlockSubsidy pprev.length env.params :=
    Finset.sum_range_succ _ _
  have below := funded.total
  have nextHeight : ∀ last ∈ (indexEntry env block pprev :: pprev).head?,
      last.nHeight = (indexEntry env block pprev :: pprev).length - 1 := by
    intro last member
    cases member
    rw [List.length_cons]
    omega
  rcases way with ⟨_, _, accepted⟩ | ⟨_, ⟨coinbase, rest, connected⟩, accepted⟩
  · refine ⟨accepted.sound, ?_, ?_, nextHeight, ?_⟩
    · rw [accepted.shownBelow]
      exact funded.shownBelow
    · rw [accepted.shown]
      exact funded.solvent
    · rw [accepted.shown, List.length_cons]
      omega
  · obtain ⟨solvent, total⟩ := connected.total funded.solvent
    refine ⟨accepted.sound, ?_, ?_, nextHeight, ?_⟩
    · rw [accepted.shownBelow]
      exact funded.shownBelow
    · rw [accepted.shown]
      exact solvent
    · rw [height] at total accepted
      rw [accepted.shown, List.length_cons]
      omega

theorem meets_connectChain (blocks : List CBlock) (funded : Funded env pprev stack) :
    Meets (connectChain env blocks pprev) stack (· ≠ Halt.overflow) fun result after =>
      ∀ pindex, result = some pindex →
        pindex.length = pprev.length + blocks.length ∧ Funded env pindex after := by
  induction blocks generalizing pprev stack with
  | nil =>
    refine meets_pure fun pindex same => ?_
    cases same
    exact ⟨rfl, funded⟩
  | cons block rest ih =>
    apply Meets.bind
    refine (funded.connect initial block).weaken fun result after holds => ?_
    cases result with
    | connected vtxundo =>
      refine (ih (holds vtxundo rfl)).weaken fun final last ends pindex same => ?_
      obtain ⟨length, lastFunded⟩ := ends pindex same
      refine ⟨?_, lastFunded⟩
      rw [length, List.length_cons, List.length_cons]
      omega
    | rejected state => exact meets_pure nofun
    | fatal message => exact meets_pure nofun

end

theorem getBlockSubsidy_main (era offset : Nat) (within : offset < 2803200) :
    getBlockSubsidy ((era * 2803200 + offset : Nat) : Int) mainParams =
      if era ≥ 64 then 0 else (18 * COIN) >>> era := by
  have halvings : ((era * 2803200 + offset : Nat) : Int).tdiv 2803200 = era := by
    rw [Int.tdiv_eq_ediv_of_nonneg (by omega)]
    omega
  change (if ((era * 2803200 + offset : Nat) : Int).tdiv 2803200 ≥ 64 then (0 : Int)
    else (18 * COIN) >>> (((era * 2803200 + offset : Nat) : Int).tdiv 2803200).toNat) = _
  rw [halvings, Int.toNat_natCast]
  by_cases late : era ≥ 64
  · rw [if_pos late, if_pos (by omega)]
  · rw [if_neg late, if_neg (by omega)]

theorem issued_era (era : Nat) :
    issued mainParams ((era + 1) * 2803200) = issued mainParams (era * 2803200) +
      2803200 * if era ≥ 64 then 0 else (18 * COIN) >>> era := by
  have same := Finset.sum_congr rfl fun offset member =>
      getBlockSubsidy_main era offset (Finset.mem_range.mp member)
  rw [Nat.succ_mul, issued, Finset.sum_range_add, same, Finset.sum_const, Finset.card_range]
  rfl

theorem issued_eras (eras : Nat) : issued mainParams (eras * 2803200) =
      2803200 * ∑ era ∈ Finset.range eras, if era ≥ 64 then 0 else (18 * COIN) >>> era := by
  induction eras with
  | zero => rfl
  | succ era ih => rw [issued_era, ih, Finset.sum_range_succ, Int.mul_add]

variable {params : Params}

theorem issued_mono (initial : moneyRange params.nSubsidyInitial = true) {fewer more : Nat}
    (le : fewer ≤ more) : issued params fewer ≤ issued params more := by
  apply Finset.sum_le_sum_of_subset_of_nonneg (Finset.range_mono le)
  intro height _ _
  exact ((moneyRange_iff _).mp (getBlockSubsidy_range initial height)).1

theorem issued_main_lt (count : Nat) : issued mainParams count < MAX_MONEY := by
  have initial : moneyRange mainParams.nSubsidyInitial = true := by decide
  have late : ∀ eras, ∑ era ∈ Finset.range (64 + eras),
      (if era ≥ 64 then (0 : Int) else (18 * COIN) >>> era) =
        ∑ era ∈ Finset.range 64, if era ≥ 64 then (0 : Int) else (18 * COIN) >>> era := by
    intro eras
    rw [Finset.sum_range_add, add_eq_left]
    exact Finset.sum_eq_zero fun era _ => if_pos (Nat.le_add_right 64 era)
  calc issued mainParams count
      ≤ issued mainParams ((64 + count) * 2803200) := issued_mono initial (by omega)
    _ = 2803200 * ∑ era ∈ Finset.range 64,
          if era ≥ 64 then (0 : Int) else (18 * COIN) >>> era := by rw [issued_eras, late]
    _ < MAX_MONEY := by decide +kernel

/-- Blocks connected one after the other to an empty view: the coins are worth no
more than the subsidies of their heights, and no sum of amounts overflows, also in a
block that is not connected. The main network's subsidies stay below `MAX_MONEY`. -/
theorem connectChain_supply (env : Environment)
    (initial : moneyRange env.params.nSubsidyInitial = true) (blocks : List CBlock)
    (stack : StackedView) (empty : Empty stack) : (match connectChain env blocks [] stack with
      | .ok (some _, after) =>
        (HasCoins after.shown).Finite ∧ totalValue after.shown ≤ issued env.params blocks.length
      | .ok (none, _) => True
      | .error halt => halt ≠ .overflow) ∧
      ∀ count, issued mainParams count < MAX_MONEY := by
  refine ⟨?_, issued_main_lt⟩
  have meets := meets_connectChain initial blocks (empty.funded env)
  cases runs : connectChain env blocks [] stack with
  | error halt => exact meets.halt runs
  | ok result => ?_
  obtain ⟨chain, after⟩ := result
  cases chain with
  | none => trivial
  | some pindex =>
    obtain ⟨length, funded⟩ := meets.result runs pindex rfl
    rw [List.length_nil, Nat.zero_add] at length
    refine ⟨funded.solvent.finite, ?_⟩
    rw [← length]
    exact funded.total

def genesisBlock : CBlock :=
  { header := genesisHeader, vtx := [coinbaseTo genesisHeader.hashMerkleRoot (18 * COIN)] }

def firstBlock : CBlock :=
  { header := { genesisHeader with
      hashPrevBlock := mainParams.hashGenesisBlock, hashMerkleRoot := 5, nTime := 1 }
    vtx := [coinbaseTo 5 (18 * COIN)] }

def newView : StackedView := { view := .new, below := [], base := .empty }

private theorem newView_empty : Empty newView :=
  ⟨⟨CCoinsViewCache.LayerSound.new _, trivial⟩, fun _ => rfl, fun _ => rfl⟩

theorem connectChain_supply_twoBlocks :
    (match connectChain permissive [genesisBlock, firstBlock] [] newView with
      | .ok (some _, after) => (after.shown { hash := 5, n := 0 }).isSome
      | _ => false) = true ∧
    match connectChain permissive [genesisBlock, firstBlock] [] newView with
      | .ok (some _, after) =>
        (HasCoins after.shown).Finite ∧ totalValue after.shown ≤ issued mainParams 2
      | .ok (none, _) => True
      | .error halt => halt ≠ .overflow :=
  ⟨by decide +kernel, (connectChain_supply permissive (by decide) [genesisBlock, firstBlock] newView
    newView_empty).1⟩

end Adonai.Validation
