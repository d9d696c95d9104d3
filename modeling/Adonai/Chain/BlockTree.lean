/-
The links of the block index: parents, skip pointers and common ancestors.

A pointer to an entry is the hash it is stored under. Of an entry only its height, which does not
overflow, and its two links are kept. Dereferencing nothing, a failed assertion and a loop that
does not end are faults.
-/

import Adonai.Foundation.Ancestry
import Adonai.Primitives.Block

namespace Adonai.BlockTree

open Ancestry

inductive Fault where
  | assertion
  | nullDereference
  | endless
  deriving DecidableEq, Repr

structure Entry where
  nHeight : Nat
  pprev : Option Uint256
  pskip : Option Uint256
  deriving DecidableEq, Repr

abbrev BlockLinks := Uint256 → Option Entry

variable (index : BlockLinks)

def pprevOf (pindex : Uint256) : Option Uint256 := (index pindex).bind Entry.pprev

def heightOf (pindex : Uint256) : Nat := (index pindex).elim 0 Entry.nHeight

def invertLowestOne (n : Nat) : Nat := n &&& (n - 1)

def getSkipHeight (height : Nat) : Nat :=
  if height < 2 then 0
  else if height &&& 1 ≠ 0 then invertLowestOne (invertLowestOne (height - 1)) + 1
  else invertLowestOne height

def followsSkip (height heightWalk : Nat) : Bool :=
  let heightSkip := getSkipHeight heightWalk
  let heightSkipPrev := getSkipHeight (heightWalk - 1)
  heightSkip == height ||
    decide (heightSkip > height) &&
      !(decide (heightSkipPrev + 2 < heightSkip) && decide (heightSkipPrev ≥ height))

def ancestorLoop (index : BlockLinks) (height : Nat) :
    (fuel : Nat) → (pindexWalk : Uint256) → (heightWalk : Nat) → Except Fault Uint256
  | 0, pindexWalk, heightWalk => if heightWalk > height then .error .endless else .ok pindexWalk
  | fuel + 1, pindexWalk, heightWalk =>
    if heightWalk > height then
      match index pindexWalk with
      | none => .error .nullDereference
      | some entry =>
        match entry.pskip.filter fun _ => followsSkip height heightWalk with
        | some pskip => ancestorLoop index height fuel pskip (getSkipHeight heightWalk)
        | none =>
          match entry.pprev with
          | none => .error .assertion
          | some pprev => ancestorLoop index height fuel pprev (heightWalk - 1)
    else .ok pindexWalk

def getAncestor (pindex : Uint256) (height : Int) : Except Fault (Option Uint256) :=
  match index pindex with
  | none => .error .nullDereference
  | some entry =>
    if height > entry.nHeight ∨ height < 0 then .ok none
    else (ancestorLoop index height.toNat entry.nHeight pindex entry.nHeight).map some

def commonLoop (index : BlockLinks) :
    (fuel : Nat) → (pa pb : Option Uint256) → Except Fault (Option Uint256)
  | 0, _, _ => .error .endless
  | fuel + 1, pa, pb =>
    if pa ≠ pb ∧ pa.isSome ∧ pb.isSome then
      commonLoop index fuel (pa.bind (pprevOf index)) (pb.bind (pprevOf index))
    else if pa = pb then .ok pa
    else .error .assertion

def lastCommonAncestor (pa pb : Uint256) : Except Fault (Option Uint256) :=
  match index pa, index pb with
  | some a, some b =>
    if a.nHeight > b.nHeight then do
      commonLoop index (b.nHeight + 1) (← getAncestor index pa b.nHeight) (some pb)
    else if b.nHeight > a.nHeight then do
      commonLoop index (a.nHeight + 1) (some pa) (← getAncestor index pb a.nHeight)
    else commonLoop index (a.nHeight + 1) (some pa) (some pb)
  | _, _ => .error .nullDereference

/-- The parent is looked up after the new entry is in place. -/
def addToBlockIndex (hasher : List UInt8 → Uint256) (index : BlockLinks) (block : CBlockHeader) :
    Except Fault BlockLinks :=
  let hash := block.getHash hasher
  match index hash with
  | some _ => .ok index
  | none =>
    let inserted := Function.update index hash (some ⟨0, none, none⟩)
    match inserted block.hashPrevBlock with
    | none => .ok inserted
    | some parent => do
      let nHeight := parent.nHeight + 1
      let linked := Function.update index hash (some ⟨nHeight, some block.hashPrevBlock, none⟩)
      -- `BuildSkip`
      let pskip ← getAncestor linked block.hashPrevBlock (getSkipHeight nHeight)
      .ok (Function.update index hash (some ⟨nHeight, some block.hashPrevBlock, pskip⟩))

private theorem invertLowestOne_le (n : Nat) : invertLowestOne n ≤ n := Nat.and_le_left

private theorem invertLowestOne_lt {n : Nat} (positive : 0 < n) : invertLowestOne n < n := by
  have below : invertLowestOne n ≤ n - 1 := Nat.and_le_right
  omega

theorem getSkipHeight_lt {height : Nat} (positive : 0 < height) :
    getSkipHeight height < height := by
  unfold getSkipHeight
  split
  · exact positive
  · split
    · have outer := invertLowestOne_le (invertLowestOne (height - 1))
      have inner : invertLowestOne (height - 1) < height - 1 := invertLowestOne_lt (by omega)
      omega
    · exact invertLowestOne_lt positive

private theorem height_le_of_followsSkip {height heightWalk : Nat}
    (follows : followsSkip height heightWalk = true) : height ≤ getSkipHeight heightWalk := by
  simp only [followsSkip, Bool.or_eq_true, beq_iff_eq, Bool.and_eq_true,
    decide_eq_true_eq] at follows
  omega

/-- Heights count the links to the one block without parent, and a skip pointer leads to the
ancestor at the skip height. -/
structure WellLinked (index : BlockLinks) : Prop where
  ranked : Ranked (pprevOf index) (heightOf index)
  closed : ∀ pindex pprev, pprevOf index pindex = some pprev → (index pprev).isSome
  single : ∀ first second, (index first).isSome → (index second).isSome →
    pprevOf index first = none → pprevOf index second = none → first = second
  skip : ∀ pindex entry pskip, index pindex = some entry → entry.pskip = some pskip →
    back (pprevOf index) (entry.nHeight - getSkipHeight entry.nHeight) (some pindex) = some pskip

variable {index} {pindex : Uint256} {entry : Entry}

theorem heightOf_eq (found : index pindex = some entry) :
    heightOf index pindex = entry.nHeight := by
  rw [heightOf, found]
  rfl

theorem pprevOf_eq (found : index pindex = some entry) : pprevOf index pindex = entry.pprev := by
  rw [pprevOf, found]
  rfl

namespace WellLinked

theorem isSome_back (linked : WellLinked index) {steps : Nat} {ancestor : Uint256}
    (inside : (index pindex).isSome)
    (reaches : back (pprevOf index) steps (some pindex) = some ancestor) :
    (index ancestor).isSome := by
  induction steps generalizing pindex with
  | zero =>
    cases reaches
    exact inside
  | succ steps ih =>
    rw [back_succ] at reaches
    cases link : pprevOf index pindex with
    | none =>
      rw [link, back_none] at reaches
      cases reaches
    | some pprev =>
      rw [link] at reaches
      exact ih (linked.closed pindex pprev link) reaches

/-- The walk to an ancestor takes the skip pointer only where it does not lead too far. -/
theorem ancestorLoop_eq (linked : WellLinked index) {height : Nat} (fuel : Nat)
    (inside : (index pindex).isSome) (above : height ≤ heightOf index pindex)
    (enough : heightOf index pindex ≤ fuel + height) :
    ∃ ancestor, ancestorLoop index height fuel pindex (heightOf index pindex) = .ok ancestor ∧
      back (pprevOf index) (heightOf index pindex - height) (some pindex) = some ancestor := by
  induction fuel generalizing pindex with
  | zero =>
    have arrived : heightOf index pindex = height := by omega
    refine ⟨pindex, ?_, ?_⟩
    · rw [ancestorLoop, if_neg (by omega)]
    · rw [arrived, Nat.sub_self]
      rfl
  | succ fuel ih =>
    rw [ancestorLoop]
    split_ifs with arrived
    · obtain ⟨entry, found⟩ := Option.isSome_iff_exists.mp inside
      have isHeight := heightOf_eq found
      -- From a node on the way the rest of the walk is that of the induction hypothesis.
      have rest : ∀ {next : Uint256} {steps : Nat}, 0 < steps →
          back (pprevOf index) steps (some pindex) = some next → height ≤ heightOf index next →
            ∃ ancestor,
              ancestorLoop index height fuel next (heightOf index next) = .ok ancestor ∧
                back (pprevOf index) (heightOf index pindex - height) (some pindex) =
                  some ancestor := by
        intro next steps positive reaches still
        have sum := linked.ranked.rank_back reaches
        obtain ⟨ancestor, loops, arrives⟩ := ih (linked.isSome_back inside reaches) still (by omega)
        refine ⟨ancestor, loops, ?_⟩
        have total : heightOf index pindex - height = (heightOf index next - height) + steps := by
          omega
        rw [total, ← back_back, reaches]
        exact arrives
      rw [found]
      dsimp only
      cases skips : entry.pskip.filter fun _ => followsSkip height (heightOf index pindex) with
      | some pskip =>
        obtain ⟨isSkip, follows⟩ := Option.filter_eq_some_iff.mp skips
        have reaches := linked.skip pindex entry pskip found isSkip
        rw [← isHeight] at reaches
        have lower := getSkipHeight_lt (by omega : 0 < heightOf index pindex)
        have sum := linked.ranked.rank_back reaches
        have still := height_le_of_followsSkip follows
        have skipped : heightOf index pskip = getSkipHeight (heightOf index pindex) := by omega
        obtain ⟨ancestor, loops, arrives⟩ := rest (by omega) reaches (by omega)
        rw [skipped] at loops
        exact ⟨ancestor, loops, arrives⟩
      | none =>
        cases isPrev : entry.pprev with
        | none =>
          have isRoot := linked.ranked.root pindex ((pprevOf_eq found).trans isPrev)
          omega
        | some pprev => ?_
        have link := (pprevOf_eq found).trans isPrev
        have isChild := linked.ranked.child pindex pprev link
        have reaches : back (pprevOf index) 1 (some pindex) = some pprev := by
          rw [back_succ, link]
          rfl
        obtain ⟨ancestor, loops, arrives⟩ := rest Nat.one_pos reaches (by omega)
        rw [isChild]
        rw [isChild] at arrives
        exact ⟨ancestor, loops, arrives⟩
    · refine ⟨pindex, rfl, ?_⟩
      rw [Nat.sub_eq_zero_of_le (Nat.le_of_not_lt arrived)]
      rfl

theorem getAncestor_eq (linked : WellLinked index) (inside : (index pindex).isSome) {height : Nat}
    (above : height ≤ heightOf index pindex) :
    ∃ ancestor, getAncestor index pindex height = .ok (some ancestor) ∧
      back (pprevOf index) (heightOf index pindex - height) (some pindex) = some ancestor ∧
        heightOf index ancestor = height := by
  obtain ⟨entry, found⟩ := Option.isSome_iff_exists.mp inside
  have isHeight := heightOf_eq found
  obtain ⟨ancestor, loops, reaches⟩ := linked.ancestorLoop_eq entry.nHeight inside above (by omega)
  refine ⟨ancestor, ?_, reaches, ?_⟩
  · rw [getAncestor, found]
    dsimp only
    rw [if_neg (by omega), Int.toNat_natCast]
    rw [isHeight] at loops
    rw [loops]
    rfl
  · have sum := linked.ranked.rank_back reaches
    omega

end WellLinked

def HighestCommon (index : BlockLinks) (common pa pb : Uint256) : Prop :=
  IsAncestor (pprevOf index) common pa ∧ IsAncestor (pprevOf index) common pb ∧
    ∀ other, IsAncestor (pprevOf index) other pa → IsAncestor (pprevOf index) other pb →
      heightOf index other ≤ heightOf index common

variable {pa pb common : Uint256}

theorem HighestCommon.symm (highest : HighestCommon index common pa pb) :
    HighestCommon index common pb pa :=
  ⟨highest.2.1, highest.1, fun other ofB ofA => highest.2.2 other ofA ofB⟩

theorem HighestCommon.descend (linked : WellLinked index) {lower : Uint256}
    (isLower : IsAncestor (pprevOf index) lower pa)
    (level : heightOf index lower = heightOf index pb)
    (highest : HighestCommon index common lower pb) : HighestCommon index common pa pb := by
  obtain ⟨ofLower, ofB, most⟩ := highest
  refine ⟨ofLower.trans isLower, ofB, ?_⟩
  intro other otherOfA otherOfB
  have below := linked.ranked.rank_le otherOfB
  exact most other (linked.ranked.ancestor_of_rank_le otherOfA isLower (by omega)) otherOfB

namespace WellLinked

theorem exists_pprev (linked : WellLinked index) (insideA : (index pa).isSome)
    (insideB : (index pb).isSome) (level : heightOf index pa = heightOf index pb)
    (different : pa ≠ pb) :
    ∃ above other, pprevOf index pa = some above ∧ pprevOf index pb = some other := by
  cases linkA : pprevOf index pa with
  | none =>
    have isRoot := linked.ranked.root pa linkA
    cases linkB : pprevOf index pb with
    | none => exact absurd (linked.single pa pb insideA insideB linkA linkB) different
    | some other =>
      have isChild := linked.ranked.child pb other linkB
      omega
  | some above =>
    have isChild := linked.ranked.child pa above linkA
    cases linkB : pprevOf index pb with
    | none =>
      have isRoot := linked.ranked.root pb linkB
      omega
    | some other => exact ⟨above, other, rfl, rfl⟩

theorem commonLoop_eq (linked : WellLinked index) (fuel : Nat) (insideA : (index pa).isSome)
    (insideB : (index pb).isSome) (level : heightOf index pa = heightOf index pb)
    (enough : heightOf index pa < fuel) :
    ∃ common, commonLoop index fuel (some pa) (some pb) = .ok (some common) ∧
      HighestCommon index common pa pb := by
  induction fuel generalizing pa pb with
  | zero => cases enough
  | succ fuel ih =>
    rw [commonLoop]
    by_cases different : pa = pb
    · subst different
      rw [if_neg (fun guard => guard.1 rfl), if_pos rfl]
      exact ⟨pa, rfl, .refl pa, .refl pa, fun other ofA _ => linked.ranked.rank_le ofA⟩
    rw [if_pos ⟨fun same => different (Option.some.inj same), rfl, rfl⟩, Option.bind_some,
      Option.bind_some]
    obtain ⟨above, otherAbove, linkA, linkB⟩ := linked.exists_pprev insideA insideB level different
    have childA := linked.ranked.child pa above linkA
    have childB := linked.ranked.child pb otherAbove linkB
    rw [linkA, linkB]
    obtain ⟨common, loops, ofAbove, ofOther, most⟩ := ih (linked.closed pa above linkA)
      (linked.closed pb otherAbove linkB) (by omega) (by omega)
    refine ⟨common, loops, ofAbove.trans (.of_link linkA), ofOther.trans (.of_link linkB), ?_⟩
    intro other ofA ofB
    have below := linked.ranked.rank_le ofA
    rcases Nat.lt_or_eq_of_le below with lower | same
    · exact most other
        (linked.ranked.ancestor_of_rank_le ofA (.of_link linkA) (by omega))
        (linked.ranked.ancestor_of_rank_le ofB (.of_link linkB) (by omega))
    · -- A common ancestor at the height of the two blocks would be both of them.
      have isA := linked.ranked.ancestor_unique ofA (.refl pa) same
      have isB := linked.ranked.ancestor_unique ofB (.refl pb) (same.trans level)
      exact absurd (isA.symm.trans isB) different

theorem lastCommonAncestor_eq (linked : WellLinked index) (insideA : (index pa).isSome)
    (insideB : (index pb).isSome) : ∃ common, lastCommonAncestor index pa pb = .ok (some common) ∧
      HighestCommon index common pa pb := by
  obtain ⟨a, foundA⟩ := Option.isSome_iff_exists.mp insideA
  obtain ⟨b, foundB⟩ := Option.isSome_iff_exists.mp insideB
  have heightA := heightOf_eq foundA
  have heightB := heightOf_eq foundB
  rw [lastCommonAncestor, foundA, foundB]
  dsimp only
  split
  case isTrue higher =>
    obtain ⟨lower, descends, reaches, level⟩ :=
      linked.getAncestor_eq insideA (by omega : b.nHeight ≤ heightOf index pa)
    obtain ⟨common, loops, highest⟩ := linked.commonLoop_eq (b.nHeight + 1)
      (linked.isSome_back insideA reaches) insideB (by omega) (by omega)
    rw [descends]
    exact ⟨common, loops, highest.descend linked ⟨_, reaches⟩ (by omega)⟩
  case isFalse higher =>
    split_ifs with lower
    · obtain ⟨below, descends, reaches, level⟩ :=
        linked.getAncestor_eq insideB (by omega : a.nHeight ≤ heightOf index pb)
      obtain ⟨common, loops, highest⟩ := linked.commonLoop_eq (a.nHeight + 1) insideA
        (linked.isSome_back insideB reaches) (by omega) (by omega)
      rw [descends]
      exact ⟨common, loops, (highest.symm.descend linked ⟨_, reaches⟩ (by omega)).symm⟩
    · exact linked.commonLoop_eq (a.nHeight + 1) insideA insideB (by omega) (by omega)

end WellLinked

/-! ### Additions -/

section Additions

variable {after : BlockLinks} {hash prev : Uint256} {parent added : Entry} {pskip : Option Uint256}

structure Adds (index after : BlockLinks) (hash : Uint256) (added : Entry) : Prop where
  new : index hash = none
  here : after hash = some added
  others : ∀ pindex, pindex ≠ hash → after pindex = index pindex

theorem adds_update (new : index hash = none) (added : Entry) :
    Adds index (Function.update index hash (some added)) hash added where
  new := new
  here := Function.update_self _ _ _
  others _ different := Function.update_of_ne different _ _

namespace Adds

section

variable (adds : Adds index after hash added)

include adds

theorem old (inside : (index pindex).isSome) : after pindex = index pindex := by
  apply adds.others
  intro same
  rw [same, adds.new] at inside
  cases inside

theorem isSome_iff : (after pindex).isSome ↔ pindex = hash ∨ (index pindex).isSome := by
  by_cases same : pindex = hash
  · rw [same, adds.here]
    exact iff_of_true rfl (.inl rfl)
  · rw [adds.others pindex same, or_iff_right same]

private theorem pprevOf_others (different : pindex ≠ hash) :
    pprevOf after pindex = pprevOf index pindex := by
  rw [pprevOf, adds.others pindex different]
  rfl

theorem back_old (linked : WellLinked index) (inside : (index pindex).isSome) (steps : Nat) :
    back (pprevOf after) steps (some pindex) = back (pprevOf index) steps (some pindex) := by
  apply back_congr (fun pindex => (index pindex).isSome = true) _ _ inside
  · intro node above _ link
    exact linked.closed node above link
  · intro node isInside
    rw [pprevOf, adds.old isInside]
    rfl

end

theorem root (adds : Adds (fun _ => none) after hash ⟨0, none, none⟩) : WellLinked after := by
  have isHash : ∀ {node entry}, after node = some entry →
      node = hash ∧ entry = ⟨0, none, none⟩ := by
    intro node entry found
    by_cases same : node = hash
    · rw [same, adds.here] at found
      exact ⟨same, (Option.some.inj found).symm⟩
    · rw [adds.others node same] at found
      cases found
  have noLink : ∀ node, pprevOf after node = none := by
    intro node
    cases found : after node with
    | none => rw [pprevOf, found]; rfl
    | some entry => rw [pprevOf_eq found, (isHash found).2]
  constructor
  · constructor
    · intro node _
      cases found : after node with
      | none => rw [heightOf, found]; rfl
      | some entry => rw [heightOf_eq found, (isHash found).2]
    · intro node above link
      rw [noLink node] at link
      cases link
  · intro node above link
    rw [noLink node] at link
    cases link
  · intro first second insideFirst insideSecond _ _
    obtain ⟨_, foundFirst⟩ := Option.isSome_iff_exists.mp insideFirst
    obtain ⟨_, foundSecond⟩ := Option.isSome_iff_exists.mp insideSecond
    rw [(isHash foundFirst).1, (isHash foundSecond).1]
  · intro node entry target found isSkip
    rw [(isHash found).2] at isSkip
    cases isSkip

theorem child (adds : Adds index after hash ⟨parent.nHeight + 1, some prev, pskip⟩)
    (linked : WellLinked index) (isParent : index prev = some parent)
    (skips : ∀ target, pskip = some target →
      back (pprevOf index) (parent.nHeight - getSkipHeight (parent.nHeight + 1)) (some prev) =
        some target) : WellLinked after := by
  have prevInside : (index prev).isSome := by rw [isParent]; rfl
  have linkHash : pprevOf after hash = some prev := pprevOf_eq adds.here
  have different : ∀ {node}, pprevOf after node = none → node ≠ hash := by
    intro node isRoot same
    rw [same, linkHash] at isRoot
    cases isRoot
  constructor
  · constructor
    · intro node isRoot
      rw [heightOf, adds.others node (different isRoot)]
      rw [adds.pprevOf_others (different isRoot)] at isRoot
      exact linked.ranked.root node isRoot
    · intro node above link
      by_cases same : node = hash
      · rw [same, linkHash] at link
        cases link
        rw [same, heightOf_eq adds.here, heightOf_eq ((adds.old prevInside).trans isParent)]
      · rw [adds.pprevOf_others same] at link
        rw [heightOf, heightOf, adds.others node same, adds.old (linked.closed node above link)]
        exact linked.ranked.child node above link
  · intro node above link
    by_cases same : node = hash
    · rw [same, linkHash] at link
      cases link
      exact adds.isSome_iff.mpr (.inr prevInside)
    · rw [adds.pprevOf_others same] at link
      exact adds.isSome_iff.mpr (.inr (linked.closed node above link))
  · intro first second insideFirst insideSecond rootFirst rootSecond
    have oldFirst := different rootFirst
    have oldSecond := different rootSecond
    rw [adds.pprevOf_others oldFirst] at rootFirst
    rw [adds.pprevOf_others oldSecond] at rootSecond
    exact linked.single first second ((adds.isSome_iff.mp insideFirst).resolve_left oldFirst)
      ((adds.isSome_iff.mp insideSecond).resolve_left oldSecond) rootFirst rootSecond
  · intro node entry target found isSkip
    by_cases same : node = hash
    · rw [same, adds.here] at found
      cases found
      have lower := getSkipHeight_lt (Nat.succ_pos parent.nHeight)
      rw [same, Nat.sub_add_comm (Nat.le_of_lt_succ lower), back_succ, linkHash,
        adds.back_old linked prevInside]
      exact skips target isSkip
    · rw [adds.others node same] at found
      rw [adds.back_old linked (by rw [found]; rfl)]
      exact linked.skip node entry target found isSkip

end Adds

theorem wellLinked_empty : WellLinked fun _ => none where
  ranked := ⟨fun _ _ => rfl, nofun⟩
  closed _ _ link := by cases link
  single _ _ inside := by cases inside
  skip _ _ _ found := by cases found

def ParentFirst (hasher : List UInt8 → Uint256) : (seen : List Uint256) → List CBlockHeader → Prop
  | _, [] => True
  | seen, block :: rest =>
    (block.getHash hasher ∈ seen ∨ block.hashPrevBlock ∈ seen ∨
      seen = [] ∧ block.hashPrevBlock ≠ block.getHash hasher) ∧
        ParentFirst hasher (block.getHash hasher :: seen) rest

structure Grown (seen : List Uint256) (index : BlockLinks) : Prop where
  linked : WellLinked index
  stored : ∀ pindex, (index pindex).isSome ↔ pindex ∈ seen

variable {hasher : List UInt8 → Uint256} {seen : List Uint256} {block : CBlockHeader}

theorem Grown.of_adds (grown : Grown seen index) (adds : Adds index after hash added)
    (linked : WellLinked after) : Grown (hash :: seen) after := by
  refine ⟨linked, ?_⟩
  intro pindex
  rw [adds.isSome_iff, grown.stored, List.mem_cons]

theorem Grown.addChild (grown : Grown seen index) (new : index (block.getHash hasher) = none)
    (isParent : index block.hashPrevBlock = some parent) :
    ∃ after, addToBlockIndex hasher index block = .ok after ∧
      Grown (block.getHash hasher :: seen) after := by
  have prevInside : (index block.hashPrevBlock).isSome := by rw [isParent]; rfl
  have adds (pskip : Option Uint256) :=
    adds_update new ⟨parent.nHeight + 1, some block.hashPrevBlock, pskip⟩
  have linked := (adds none).child grown.linked isParent nofun
  have lower : getSkipHeight (parent.nHeight + 1) ≤ parent.nHeight :=
    Nat.le_of_lt_succ (getSkipHeight_lt (Nat.succ_pos _))
  have level := heightOf_eq (((adds none).old prevInside).trans isParent)
  obtain ⟨pskip, descends, reaches, _⟩ := linked.getAncestor_eq
    ((adds none).isSome_iff.mpr (.inr prevInside)) (lower.trans_eq level.symm)
  rw [level, (adds none).back_old grown.linked prevInside] at reaches
  refine ⟨_, ?_, grown.of_adds (adds (some pskip)) ?_⟩
  · have isPrev := (adds_update new ⟨0, none, none⟩).old prevInside
    rw [addToBlockIndex]
    simp only [new, isPrev, isParent]
    rw [descends]
    rfl
  · apply (adds (some pskip)).child grown.linked isParent
    intro target isTarget
    rw [reaches]
    exact isTarget

theorem Grown.add (grown : Grown seen index)
    (ordered : block.getHash hasher ∈ seen ∨ block.hashPrevBlock ∈ seen ∨
      seen = [] ∧ block.hashPrevBlock ≠ block.getHash hasher) :
    ∃ after, addToBlockIndex hasher index block = .ok after ∧
      Grown (block.getHash hasher :: seen) after := by
  cases found : index (block.getHash hasher) with
  | some entry =>
    have member : block.getHash hasher ∈ seen := by
      rw [← grown.stored, found]
      rfl
    refine ⟨index, ?_, grown.linked, ?_⟩
    · rw [addToBlockIndex]
      simp only [found]
    · intro pindex
      rw [grown.stored, List.mem_cons]
      exact (or_iff_right_of_imp fun same => same ▸ member).symm
  | none =>
    rcases ordered with known | isChild | ⟨isFirst, different⟩
    · rw [← grown.stored, found] at known
      cases known
    · obtain ⟨parent, isParent⟩ := Option.isSome_iff_exists.mp ((grown.stored _).mpr isChild)
      exact grown.addChild found isParent
    · have isEmpty : index = fun _ => none := by
        funext pindex
        rw [← Option.not_isSome_iff_eq_none, grown.stored, isFirst]
        exact List.not_mem_nil
      subst isEmpty
      have adds : Adds (fun _ => none) _ (block.getHash hasher) ⟨0, none, none⟩ := adds_update rfl _
      refine ⟨_, ?_, grown.of_adds adds adds.root⟩
      rw [addToBlockIndex]
      simp only [Function.update_of_ne different]

end Additions

def addHeaders (hasher : List UInt8 → Uint256) (headers : List CBlockHeader) :
    Except Fault BlockLinks :=
  headers.foldlM (addToBlockIndex hasher) fun _ => none

theorem Grown.addAll {hasher : List UInt8 → Uint256} {seen : List Uint256}
    (grown : Grown seen index) {headers : List CBlockHeader}
    (ordered : ParentFirst hasher seen headers) :
    ∃ after, headers.foldlM (addToBlockIndex hasher) index = .ok after ∧ WellLinked after := by
  induction headers generalizing seen index with
  | nil => exact ⟨index, rfl, grown.linked⟩
  | cons block rest ih =>
    obtain ⟨next, adds, nextGrown⟩ := grown.add ordered.1
    obtain ⟨after, addsRest, linked⟩ := ih nextGrown ordered.2
    refine ⟨after, ?_, linked⟩
    rw [List.foldlM_cons, adds]
    exact addsRest

theorem addHeaders_wellLinked {hasher : List UInt8 → Uint256} {headers : List CBlockHeader}
    (ordered : ParentFirst hasher [] headers) :
    ∃ index, addHeaders hasher headers = .ok index ∧ WellLinked index :=
  Grown.addAll ⟨wellLinked_empty, fun _ => iff_of_false Bool.false_ne_true List.not_mem_nil⟩ ordered

/-- In a tree built parent first, the skip pointers lead to the blocks that the links to the
parents lead to, and two blocks have their highest common ancestor found. -/
theorem getAncestor_and_lastCommonAncestor {hasher : List UInt8 → Uint256}
    {headers : List CBlockHeader} (ordered : ParentFirst hasher [] headers) :
    ∃ index, addHeaders hasher headers = .ok index ∧
      (∀ pindex entry, index pindex = some entry → ∀ height ≤ entry.nHeight,
        ∃ ancestor, getAncestor index pindex height = .ok (some ancestor) ∧
          back (pprevOf index) (entry.nHeight - height) (some pindex) = some ancestor ∧
          heightOf index ancestor = height) ∧
      ∀ pa pb, (index pa).isSome → (index pb).isSome →
        ∃ common, lastCommonAncestor index pa pb = .ok (some common) ∧
          IsAncestor (pprevOf index) common pa ∧ IsAncestor (pprevOf index) common pb ∧
          ∀ other, IsAncestor (pprevOf index) other pa → IsAncestor (pprevOf index) other pb →
            heightOf index other ≤ heightOf index common := by
  obtain ⟨index, adds, linked⟩ := addHeaders_wellLinked ordered
  refine ⟨index, adds, ?_, ?_⟩
  · intro pindex entry found height below
    rw [← heightOf_eq found] at below ⊢
    exact linked.getAncestor_eq (by rw [found]; rfl) below
  · intro pa pb insideA insideB
    exact linked.lastCommonAncestor_eq insideA insideB

def nonceHasher (bytes : List UInt8) : Uint256 := BitVec.ofNat 256 (bytes.getD 76 0).toNat

def headerOf (nNonce : UInt32) (hashPrevBlock : Uint256) : CBlockHeader :=
  { nVersion := 4, hashPrevBlock := hashPrevBlock, hashMerkleRoot := 0, nTime := 0, nBits := 0
    nNonce := nNonce }

def forkHeaders : List CBlockHeader := [headerOf 1 0, headerOf 2 1, headerOf 3 1, headerOf 4 2]

theorem forkHeaders_parentFirst : ParentFirst nonceHasher [] forkHeaders := by
  refine ⟨.inr (.inr ⟨rfl, ?_⟩), .inr (.inl ?_), .inr (.inl ?_), .inr (.inl ?_), trivial⟩
  all_goals decide

theorem getAncestor_and_lastCommonAncestor_fork :
    ∃ index, addHeaders nonceHasher forkHeaders = .ok index ∧
      ∀ pa pb, (index pa).isSome → (index pb).isSome →
        ∃ common, lastCommonAncestor index pa pb = .ok (some common) := by
  obtain ⟨index, adds, _, commons⟩ := getAncestor_and_lastCommonAncestor forkHeaders_parentFirst
  refine ⟨index, adds, ?_⟩
  intro pa pb insideA insideB
  obtain ⟨common, finds, _⟩ := commons pa pb insideA insideB
  exact ⟨common, finds⟩

end Adonai.BlockTree
