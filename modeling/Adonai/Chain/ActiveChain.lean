/-
The active chain: `SetTip`, `FindFork` and `LocatorEntries`.

`SetTip` stops at the first slot that already holds the block of the new chain. That is enough
because every slot was filled from a tip: the slots below it hold the ancestors of its block.
-/

import Adonai.Chain.BlockTree

namespace Adonai.BlockTree

open Ancestry

/-- A null pointer is in a slot until it is written. -/
structure CChain where
  vChain : List (Option Uint256)

namespace CChain

def height (chain : CChain) : Int := chain.vChain.length - 1

def get (chain : CChain) (nHeight : Int) : Option Uint256 :=
  if nHeight < 0 ∨ nHeight ≥ chain.vChain.length then none
  else (chain.vChain[nHeight.toNat]?).join

def contains (index : BlockLinks) (chain : CChain) (pindex : Uint256) : Except Fault Bool :=
  match index pindex with
  | none => .error .nullDereference
  | some entry => .ok (chain.get entry.nHeight == some pindex)

def resize (size : Nat) (vChain : List (Option Uint256)) : List (Option Uint256) :=
  vChain.take size ++ List.replicate (size - vChain.length) none

/-- Writing outside the slots counts as a null dereference. -/
def setTipLoop (index : BlockLinks) : (fuel : Nat) → (pindex : Option Uint256) →
    (vChain : List (Option Uint256)) → Except Fault (List (Option Uint256))
  | _, none, vChain => .ok vChain
  | 0, some _, _ => .error .endless
  | fuel + 1, some pindex, vChain =>
    match index pindex with
    | none => .error .nullDereference
    | some entry =>
      match vChain[entry.nHeight]? with
      | none => .error .nullDereference
      | some slot =>
        if slot = some pindex then .ok vChain
        else setTipLoop index fuel entry.pprev (vChain.set entry.nHeight (some pindex))

def setTip (index : BlockLinks) (chain : CChain) (block : Uint256) : Except Fault CChain :=
  match index block with
  | none => .error .nullDereference
  | some entry =>
    (setTipLoop index (entry.nHeight + 1) (some block)
      (resize (entry.nHeight + 1) chain.vChain)).map CChain.mk

def findForkLoop (index : BlockLinks) (chain : CChain) :
    (fuel : Nat) → (pindex : Option Uint256) → Except Fault (Option Uint256)
  | _, none => .ok none
  | 0, some _ => .error .endless
  | fuel + 1, some pindex => do
    if ← chain.contains index pindex then .ok (some pindex)
    else findForkLoop index chain fuel (pprevOf index pindex)

def findFork (index : BlockLinks) (chain : CChain) :
    (pindex : Option Uint256) → Except Fault (Option Uint256)
  | none => .ok none
  | some pindex =>
    match index pindex with
    | none => .error .nullDereference
    | some entry =>
      if entry.nHeight > chain.height then do
        findForkLoop index chain (entry.nHeight + 1) (← getAncestor index pindex chain.height)
      else findForkLoop index chain (entry.nHeight + 1) (some pindex)

end CChain

def locatorLoop (index : BlockLinks) :
    (fuel : Nat) → (pindex : Uint256) → (step size : Nat) → Except Fault (List Uint256)
  | 0, _, _, _ => .error .endless
  | fuel + 1, pindex, step, size =>
    match index pindex with
    | none => .error .nullDereference
    | some entry =>
      if entry.nHeight = 0 then .ok [pindex]
      else do
        match ← getAncestor index pindex (max (entry.nHeight - step : Int) 0) with
        | none => .ok [pindex]
        | some next => do
          let rest ← locatorLoop index fuel next (if size + 1 > 10 then step * 2 else step)
            (size + 1)
          .ok (pindex :: rest)

def locatorEntries (index : BlockLinks) : (pindex : Option Uint256) → Except Fault (List Uint256)
  | none => .ok []
  | some pindex => locatorLoop index (heightOf index pindex + 1) pindex 1 0

variable {index : BlockLinks} {tip pindex : Uint256} {vChain : List (Option Uint256)}

/-- The slots hold the ancestors of a tip, and there are no others. -/
structure ChainOf (index : BlockLinks) (tip : Uint256) (vChain : List (Option Uint256)) : Prop where
  length : vChain.length = heightOf index tip + 1
  slots : ∀ k ≤ heightOf index tip,
    vChain[k]? = some (back (pprevOf index) (heightOf index tip - k) (some tip))

/-- Below a block in a slot are its ancestors. -/
def Rooted (index : BlockLinks) (vChain : List (Option Uint256)) (bound : Nat) : Prop :=
  ∀ j ≤ bound, ∀ block, vChain[j]? = some (some block) → heightOf index block = j ∧
    ∀ i ≤ j, vChain[i]? = some (back (pprevOf index) (j - i) (some block))

theorem ChainOf.rooted (linked : WellLinked index) (holds : ChainOf index tip vChain)
    (bound : Nat) : Rooted index vChain bound := by
  intro j _ block found
  have inside : j < vChain.length := by
    by_contra outside
    rw [List.getElem?_eq_none (Nat.le_of_not_lt outside)] at found
    cases found
  have below : j ≤ heightOf index tip := by
    have := holds.length
    omega
  have reaches := (holds.slots j below).symm.trans found
  rw [Option.some_inj] at reaches
  have sum := linked.ranked.rank_back reaches
  refine ⟨by omega, ?_⟩
  intro i lower
  have total : heightOf index tip - i = (j - i) + (heightOf index tip - j) := by omega
  rw [holds.slots i (by omega), total, ← back_back, reaches]

theorem resize_getElem? {size k : Nat} (inside : k < size) :
    (CChain.resize size vChain)[k]? = some (vChain[k]?).join := by
  unfold CChain.resize
  by_cases old : k < vChain.length
  · rw [List.getElem?_append_left (by rw [List.length_take]; omega),
      List.getElem?_take_of_lt inside,
      List.getElem?_eq_getElem old]
    rfl
  have taken : (vChain.take size).length ≤ k := by
    rw [List.length_take]
    omega
  rw [List.getElem?_append_right taken, List.getElem?_replicate_of_lt
    (by rw [List.length_take]; omega), List.getElem?_eq_none (Nat.le_of_not_lt old)]
  rfl

private theorem length_resize (size : Nat) : (CChain.resize size vChain).length = size := by
  rw [CChain.resize, List.length_append, List.length_take, List.length_replicate]
  omega

theorem Rooted.resize {size : Nat} (rooted : Rooted index vChain size) :
    Rooted index (CChain.resize (size + 1) vChain) size := by
  intro j below block found
  rw [resize_getElem? (Nat.lt_succ_of_le below), Option.some_inj, Option.join_eq_some_iff] at found
  obtain ⟨level, lower⟩ := rooted j below block found
  refine ⟨level, ?_⟩
  intro i isLower
  rw [resize_getElem? (by omega), lower i isLower]
  rfl

namespace WellLinked

theorem setTipLoop_eq (linked : WellLinked index) (fuel : Nat)
    (isAncestor : IsAncestor (pprevOf index) pindex tip) (inside : (index pindex).isSome)
    (enough : heightOf index pindex < fuel) (length : vChain.length = heightOf index tip + 1)
    (written : ∀ k ≤ heightOf index tip, heightOf index pindex < k →
      vChain[k]? = some (back (pprevOf index) (heightOf index tip - k) (some tip)))
    (rooted : Rooted index vChain (heightOf index pindex)) :
    ∃ after, CChain.setTipLoop index fuel (some pindex) vChain = .ok after ∧
      ChainOf index tip after := by
  induction fuel generalizing pindex vChain with
  | zero => cases enough
  | succ fuel ih =>
    obtain ⟨entry, found⟩ := Option.isSome_iff_exists.mp inside
    have isHeight := heightOf_eq found
    have below := linked.ranked.rank_le isAncestor
    have reaches := linked.ranked.back_of_ancestor isAncestor
    obtain ⟨slot, isSlot⟩ : ∃ slot, vChain[heightOf index pindex]? = some slot :=
      ⟨_, List.getElem?_eq_getElem (by omega)⟩
    rw [CChain.setTipLoop, found]
    dsimp only
    rw [← isHeight, isSlot]
    dsimp only
    split_ifs with here
    · refine ⟨vChain, rfl, length, ?_⟩
      intro k isBelow
      by_cases lower : k ≤ heightOf index pindex
      · rw [here] at isSlot
        rw [(rooted _ (le_refl _) pindex isSlot).2 k lower]
        have total : heightOf index tip - k =
            (heightOf index pindex - k) + (heightOf index tip - heightOf index pindex) := by omega
        rw [total, ← back_back, reaches]
      · exact written k isBelow (Nat.lt_of_not_le lower)
    · have set : ∀ k ≤ heightOf index tip, heightOf index pindex ≤ k →
          (vChain.set (heightOf index pindex) (some pindex))[k]? =
            some (back (pprevOf index) (heightOf index tip - k) (some tip)) := by
        intro k isBelow above
        by_cases same : heightOf index pindex = k
        · rw [← same, List.getElem?_set_self (by omega), reaches]
        · rw [List.getElem?_set_ne same]
          exact written k isBelow (by omega)
      cases link : entry.pprev with
      | none =>
        have isRoot := linked.ranked.root pindex ((pprevOf_eq found).trans link)
        rw [CChain.setTipLoop]
        refine ⟨_, rfl, by rw [List.length_set, length], ?_⟩
        intro k isBelow
        exact set k isBelow (by omega)
      | some pprev =>
        have isLink := (pprevOf_eq found).trans link
        have isChild := linked.ranked.child pindex pprev isLink
        apply ih ((IsAncestor.of_link isLink).trans isAncestor) (linked.closed pindex pprev isLink)
          (by omega) (by rw [List.length_set, length])
        · intro k isBelow above
          exact set k isBelow (by omega)
        · intro j isBelow block isBlock
          rw [List.getElem?_set_ne (by omega)] at isBlock
          obtain ⟨level, lower⟩ := rooted j (by omega) block isBlock
          refine ⟨level, ?_⟩
          intro i isLower
          rw [List.getElem?_set_ne (by omega)]
          exact lower i isLower

theorem setTip_eq (linked : WellLinked index) {chain : CChain} (inside : (index tip).isSome)
    (rooted : Rooted index chain.vChain (heightOf index tip)) :
    ∃ after, chain.setTip index tip = .ok after ∧ ChainOf index tip after.vChain := by
  obtain ⟨entry, found⟩ := Option.isSome_iff_exists.mp inside
  have isHeight := heightOf_eq found
  obtain ⟨after, loops, holds⟩ := linked.setTipLoop_eq (heightOf index tip + 1) (.refl tip) inside
    (Nat.lt_succ_self _) (length_resize _)
    (fun k below above => absurd above (Nat.not_lt.mpr below))
    rooted.resize
  refine ⟨⟨after⟩, ?_, holds⟩
  rw [CChain.setTip, found]
  dsimp only
  rw [← isHeight, loops]
  rfl

end WellLinked

def setTips (index : BlockLinks) (tips : List Uint256) : Except Fault CChain :=
  tips.foldlM (CChain.setTip index) ⟨[]⟩

def Follows (index : BlockLinks) (chain : CChain) : (last : Option Uint256) → Prop
  | none => chain.vChain = []
  | some tip => (index tip).isSome ∧ ChainOf index tip chain.vChain

variable {chain : CChain}

private theorem Follows.rooted (linked : WellLinked index) {last : Option Uint256}
    (follows : Follows index chain last) (bound : Nat) : Rooted index chain.vChain bound := by
  cases last with
  | none =>
    intro j _ block found
    rw [follows] at found
    cases found
  | some tip => exact follows.2.rooted linked bound

theorem setTips_follows (linked : WellLinked index) {tips : List Uint256}
    (inside : ∀ tip ∈ tips, (index tip).isSome) :
    ∃ chain, setTips index tips = .ok chain ∧ Follows index chain tips.getLast? := by
  -- The induction is on the tips from the last one, since each call sees the chain so far.
  induction tips using List.reverseRecOn with
  | nil => exact ⟨⟨[]⟩, rfl, rfl⟩
  | append_singleton tips tip ih =>
    obtain ⟨chain, sets, follows⟩ := ih fun tip member => inside tip (List.mem_append_left _ member)
    have tipInside := inside tip (List.mem_append_right _ List.mem_cons_self)
    obtain ⟨after, setsTip, holds⟩ := linked.setTip_eq tipInside (follows.rooted linked _)
    refine ⟨after, ?_, ?_⟩
    · rw [setTips, List.foldlM_append]
      unfold setTips at sets
      rw [sets]
      change List.foldlM (CChain.setTip index) chain [tip] = _
      rw [List.foldlM_cons, setsTip]
      rfl
    · rw [List.getLast?_append_of_ne_nil _ (List.cons_ne_nil _ _)]
      exact ⟨tipInside, holds⟩

theorem Follows.get_eq (follows : Follows index chain (some tip)) (nHeight : Nat) :
    chain.get nHeight =
      if nHeight ≤ heightOf index tip then
        back (pprevOf index) (heightOf index tip - nHeight) (some tip)
      else none := by
  have length := follows.2.length
  rw [CChain.get]
  by_cases below : nHeight ≤ heightOf index tip
  · rw [if_pos below, if_neg (by omega), Int.toNat_natCast, follows.2.slots nHeight below]
    rfl
  · rw [if_neg below, if_pos (by omega)]

def InChain (index : BlockLinks) (chain : CChain) (pindex : Uint256) : Prop :=
  chain.get (heightOf index pindex) = some pindex

theorem Follows.inChain_iff (linked : WellLinked index) (follows : Follows index chain (some tip)) :
    InChain index chain pindex ↔ IsAncestor (pprevOf index) pindex tip := by
  rw [InChain, follows.get_eq]
  constructor
  · intro found
    split at found
    · exact ⟨_, found⟩
    · cases found
  · intro isAncestor
    rw [if_pos (linked.ranked.rank_le isAncestor)]
    exact linked.ranked.back_of_ancestor isAncestor

private theorem contains_eq (inside : (index pindex).isSome) :
    chain.contains index pindex = .ok (chain.get (heightOf index pindex) == some pindex) := by
  obtain ⟨entry, found⟩ := Option.isSome_iff_exists.mp inside
  rw [CChain.contains, found, heightOf_eq found]

theorem findForkLoop_eq (linked : WellLinked index) (follows : Follows index chain (some tip))
    (fuel : Nat) (inside : (index pindex).isSome) (enough : heightOf index pindex < fuel)
    (low : heightOf index pindex ≤ heightOf index tip) :
    ∃ fork, chain.findForkLoop index fuel (some pindex) = .ok (some fork) ∧
      HighestCommon index fork pindex tip := by
  induction fuel generalizing pindex with
  | zero => cases enough
  | succ fuel ih =>
    rw [CChain.findForkLoop, contains_eq inside]
    change ∃ fork, (if (chain.get (heightOf index pindex) == some pindex) = true then _
      else _) = _ ∧ _
    by_cases here : InChain index chain pindex
    · rw [if_pos (beq_iff_eq.mpr here)]
      refine ⟨pindex, rfl, .refl pindex, (follows.inChain_iff linked).mp here, ?_⟩
      intro other ofBlock _
      exact linked.ranked.rank_le ofBlock
    rw [if_neg (fun same => here (beq_iff_eq.mp same))]
    obtain ⟨level, reaches, isLevel⟩ := linked.ranked.exists_back
      (Nat.sub_le (heightOf index tip) (heightOf index pindex))
    have different : pindex ≠ level := by
      intro same
      rw [← same] at reaches
      exact here ((follows.inChain_iff linked).mpr ⟨_, reaches⟩)
    obtain ⟨pprev, _, link, _⟩ := linked.exists_pprev inside
      (linked.isSome_back follows.1 reaches) (by omega) different
    have isChild := linked.ranked.child pindex pprev link
    rw [link]
    obtain ⟨fork, loops, ofPrev, ofTip, most⟩ :=
      ih (linked.closed pindex pprev link) (by omega) (by omega)
    refine ⟨fork, loops, ofPrev.trans (.of_link link), ofTip, ?_⟩
    intro other ofBlock otherOfTip
    have below := linked.ranked.rank_le ofBlock
    rcases Nat.lt_or_eq_of_le below with lower | same
    · exact most other (linked.ranked.ancestor_of_rank_le ofBlock (.of_link link) (by omega))
        otherOfTip
    · rw [linked.ranked.ancestor_unique ofBlock (.refl pindex) same] at otherOfTip
      exact absurd ((follows.inChain_iff linked).mpr otherOfTip) here

theorem findFork_eq (linked : WellLinked index) (follows : Follows index chain (some tip))
    (inside : (index pindex).isSome) :
    ∃ fork, chain.findFork index (some pindex) = .ok (some fork) ∧
      HighestCommon index fork pindex tip := by
  obtain ⟨entry, found⟩ := Option.isSome_iff_exists.mp inside
  have isHeight := heightOf_eq found
  have chainHeight : chain.height = heightOf index tip := by
    rw [CChain.height, follows.2.length]
    omega
  rw [CChain.findFork, found]
  dsimp only
  rw [chainHeight, ← isHeight]
  by_cases higher : heightOf index pindex > heightOf index tip
  · obtain ⟨lower, descends, reaches, level⟩ := linked.getAncestor_eq inside higher.le
    obtain ⟨fork, loops, highest⟩ := findForkLoop_eq linked follows (heightOf index pindex + 1)
      (linked.isSome_back inside reaches) (by omega) (by omega)
    rw [if_pos (by omega), descends]
    exact ⟨fork, loops, highest.descend linked ⟨_, reaches⟩ level⟩
  · rw [if_neg (by omega)]
    exact findForkLoop_eq linked follows _ inside (Nat.lt_succ_self _) (Nat.le_of_not_lt higher)

theorem findFork_empty (isEmpty : chain.vChain = []) (inside : (index pindex).isSome) :
    chain.findFork index (some pindex) = .ok none := by
  obtain ⟨entry, found⟩ := Option.isSome_iff_exists.mp inside
  have chainHeight : chain.height = -1 := by
    rw [CChain.height, isEmpty]
    rfl
  rw [CChain.findFork]
  rw [chainHeight, getAncestor, found]
  rfl

structure Locates (index : BlockLinks) (pindex : Uint256) (entries : List Uint256) : Prop where
  first : entries.head? = some pindex
  ancestors : ∀ entry ∈ entries, IsAncestor (pprevOf index) entry pindex
  descending : entries.Pairwise fun higher lower => heightOf index lower < heightOf index higher
  last : ∃ genesis, entries.getLast? = some genesis ∧ pprevOf index genesis = none

theorem locatorLoop_eq (linked : WellLinked index) (fuel step size : Nat)
    (positive : 0 < step) (inside : (index pindex).isSome) (enough : heightOf index pindex < fuel) :
    ∃ entries, locatorLoop index fuel pindex step size = .ok entries ∧
      Locates index pindex entries := by
  induction fuel generalizing pindex step size with
  | zero => cases enough
  | succ fuel ih =>
    obtain ⟨entry, found⟩ := Option.isSome_iff_exists.mp inside
    have isHeight := heightOf_eq found
    rw [locatorLoop, found]
    dsimp only
    split
    case isTrue isGenesis =>
      have noPrev : pprevOf index pindex = none := by
        cases link : pprevOf index pindex with
        | none => rfl
        | some pprev =>
          have isChild := linked.ranked.child pindex pprev link
          omega
      refine ⟨[pindex], rfl, rfl, ?_, List.pairwise_singleton _ _, pindex, rfl, noPrev⟩
      intro entry member
      rw [List.mem_singleton.mp member]
      exact .refl pindex
    case isFalse isGenesis =>
      have isTarget : max (entry.nHeight - step : Int) 0 = (entry.nHeight - step : Nat) := by omega
      obtain ⟨next, descends, reaches, level⟩ :=
        linked.getAncestor_eq inside (by omega : entry.nHeight - step ≤ heightOf index pindex)
      have isNext : IsAncestor (pprevOf index) next pindex := ⟨_, reaches⟩
      obtain ⟨rest, loops, locates⟩ := ih (if size + 1 > 10 then step * 2 else step) (size + 1)
        (by split <;> omega) (linked.isSome_back inside reaches) (by omega)
      rw [isTarget, descends]
      refine ⟨pindex :: rest, ?_, rfl, ?_, ?_, ?_⟩
      · change (locatorLoop index fuel next _ _ >>= _) = _
        rw [loops]
        rfl
      · intro entry member
        rcases List.mem_cons.mp member with rfl | later
        · exact .refl entry
        · exact (locates.ancestors entry later).trans isNext
      · refine List.pairwise_cons.mpr ⟨?_, locates.descending⟩
        intro lower member
        have below := linked.ranked.rank_le (locates.ancestors lower member)
        omega
      · obtain ⟨genesis, isLast, noPrev⟩ := locates.last
        refine ⟨genesis, ?_, noPrev⟩
        rw [List.getLast?_cons, isLast]
        rfl

/-- After any tips the chain is that of the last one, forks are found where the branch of a
block leaves it, and locators go back to genesis. -/
theorem setTips_findFork_locatorEntries (linked : WellLinked index) {tips : List Uint256}
    (inside : ∀ tip ∈ tips, (index tip).isSome) : ∃ chain, setTips index tips = .ok chain ∧
      (tips = [] → chain.vChain = []) ∧
      (∀ tip, tips.getLast? = some tip → ∀ nHeight : Nat,
        chain.get nHeight =
          if nHeight ≤ heightOf index tip then
            back (pprevOf index) (heightOf index tip - nHeight) (some tip)
          else none) ∧
      ∀ pindex, (index pindex).isSome →
        (∃ fork, chain.findFork index (some pindex) = .ok fork ∧ (fork = none ↔ tips = []) ∧
          ∀ block, fork = some block → InChain index chain block ∧
            IsAncestor (pprevOf index) block pindex ∧
            ∀ other, InChain index chain other → IsAncestor (pprevOf index) other pindex →
              heightOf index other ≤ heightOf index block) ∧
        ∃ entries, locatorEntries index (some pindex) = .ok entries ∧
          Locates index pindex entries := by
  obtain ⟨chain, sets, follows⟩ := setTips_follows linked inside
  refine ⟨chain, sets, ?_, ?_, ?_⟩
  · intro none
    rw [none] at follows
    exact follows
  · intro tip isLast nHeight
    rw [isLast] at follows
    exact follows.get_eq nHeight
  · intro pindex isInside
    refine ⟨?_, locatorLoop_eq linked _ 1 0 Nat.one_pos isInside (Nat.lt_succ_self _)⟩
    cases isLast : tips.getLast? with
    | none =>
      rw [isLast] at follows
      refine ⟨none, findFork_empty follows isInside,
        iff_of_true rfl (List.getLast?_eq_none_iff.mp isLast), ?_⟩
      intro block impossible
      cases impossible
    | some tip =>
      rw [isLast] at follows
      obtain ⟨fork, finds, ofBlock, ofTip, most⟩ := findFork_eq linked follows isInside
      have some : tips ≠ [] := by
        intro none
        rw [none] at isLast
        cases isLast
      refine ⟨fork, finds, iff_of_false (Option.some_ne_none fork) some, ?_⟩
      intro block isFork
      cases isFork
      refine ⟨(follows.inChain_iff linked).mpr ofTip, ofBlock, ?_⟩
      intro other inChain otherOfBlock
      exact most other otherOfBlock ((follows.inChain_iff linked).mp inChain)

/-- The tip moves from block 4 to block 3 of the fork. -/
theorem setTips_findFork_locatorEntries_fork :
    ∃ index chain, addHeaders nonceHasher forkHeaders = .ok index ∧
      setTips index [4, 3] = .ok chain ∧ ∀ nHeight : Nat,
        chain.get nHeight =
          if nHeight ≤ heightOf index 3 then
            back (pprevOf index) (heightOf index 3 - nHeight) (some 3)
          else none := by
  obtain ⟨index, adds, linked⟩ := addHeaders_wellLinked forkHeaders_parentFirst
  have stored : (index 4).isSome = true ∧ (index 3).isSome = true := by
    have known : (match addHeaders nonceHasher forkHeaders with
      | .ok index => (index 4).isSome && (index 3).isSome
      | .error _ => false) = true := by decide +kernel
    rw [adds, Bool.and_eq_true] at known
    exact known
  have inside : ∀ tip ∈ [(4 : Uint256), 3], (index tip).isSome := by
    intro tip member
    rcases List.mem_pair.mp member with rfl | rfl
    · exact stored.1
    · exact stored.2
  obtain ⟨chain, sets, _, slots, _⟩ := setTips_findFork_locatorEntries linked inside
  exact ⟨index, chain, adds, sets, slots 3 rfl⟩

end Adonai.BlockTree
