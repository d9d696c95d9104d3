/-
Binary hash trees that repeat the last node of an odd level.

The tree is described by its nodes, independently of any way of computing them. A branch lists the
siblings above one leaf, and folding it climbs back to the node it was taken for.
-/

import Mathlib.Data.List.Range
import Mathlib.Data.Nat.Bitwise

namespace Adonai.MerkleTree

variable {α : Type*}

def width (leaves : Nat) : (level : Nat) → Nat
  | 0 => leaves
  | level + 1 => (width leaves level + 1) / 2

def node (hash : α → α → α) (leaves : Nat) (leaf : Nat → α) : (level index : Nat) → α
  | 0, index => leaf index
  | level + 1, index =>
    hash (node hash leaves leaf level (2 * index))
      (node hash leaves leaf level (min (2 * index + 1) (width leaves level - 1)))

/-- The level of the root: the first one with a single node. -/
structure IsDepth (leaves depth : Nat) : Prop where
  single : width leaves depth = 1
  wider : ∀ level, level < depth → 2 ≤ width leaves level

theorem IsDepth.unique {leaves first second : Nat} (one : IsDepth leaves first)
    (other : IsDepth leaves second) : first = second := by
  rcases Nat.lt_trichotomy first second with less | same | greater
  · have := other.wider first less
    have := one.single
    omega
  · exact same
  · have := one.wider second greater
    have := other.single
    omega

theorem div_two_pow_succ (value level : Nat) : value / 2 ^ (level + 1) = value / 2 ^ level / 2 := by
  rw [Nat.pow_succ, Nat.div_div_eq_div_mul]

theorem index_lt_width {leaves position : Nat} (inside : position < leaves) (level : Nat) :
    position / 2 ^ level < width leaves level := by
  induction level with
  | zero =>
    rw [Nat.pow_zero, Nat.div_one]
    exact inside
  | succ level ih =>
    rw [div_two_pow_succ]
    change position / 2 ^ level / 2 < (width leaves level + 1) / 2
    omega

theorem width_le_pow {leaves height level : Nat} (bounded : leaves ≤ 2 ^ height)
    (low : level ≤ height) : width leaves level ≤ 2 ^ (height - level) := by
  induction level with
  | zero => exact bounded
  | succ level ih =>
    have below := ih (by omega)
    rw [show height - level = height - (level + 1) + 1 by omega] at below
    change (width leaves level + 1) / 2 ≤ _
    omega

theorem width_pos {leaves : Nat} (positive : 0 < leaves) (level : Nat) :
    0 < width leaves level := by
  have first := index_lt_width positive level
  exact Nat.lt_of_le_of_lt (Nat.zero_le _) first

theorem width_le_one {leaves level above : Nat} (single : width leaves level ≤ 1)
    (higher : level ≤ above) : width leaves above ≤ 1 := by
  induction above, higher using Nat.le_induction with
  | base => exact single
  | succ above _ ih =>
    change (width leaves above + 1) / 2 ≤ 1
    omega

/-- Two neighbours of a level below the root, which are hashed together. -/
def HashedPair (hash : α → α → α) (leaves : Nat) (leaf : Nat → α) (left right : α) : Prop :=
  ∃ level index, 2 ≤ width leaves level ∧ index < width leaves (level + 1) ∧
    left = node hash leaves leaf level (2 * index) ∧
      right = node hash leaves leaf level (min (2 * index + 1) (width leaves level - 1))

def RepeatedAt (hash : α → α → α) (leaves : Nat) (leaf : Nat → α) (level : Nat) : Prop :=
  ∃ index, 2 * index + 1 < width leaves level ∧
    node hash leaves leaf level (2 * index) = node hash leaves leaf level (2 * index + 1)

def RepeatedPair (hash : α → α → α) (leaves : Nat) (leaf : Nat → α) : Prop :=
  ∃ level, RepeatedAt hash leaves leaf level

/-- Between the pairs hashed in two trees there is no collision, and no leaf of one tree is
the hash of a pair of the other. -/
structure CollisionFree (hash : α → α → α) (leaves : Nat) (leaf : Nat → α) (others : Nat)
    (other : Nat → α) : Prop where
  pairs : ∀ left right left' right', HashedPair hash leaves leaf left right →
    HashedPair hash others other left' right' → hash left right = hash left' right' →
      left = left' ∧ right = right'
  fresh : ∀ index, index < leaves → ∀ left right, HashedPair hash others other left right →
    leaf index ≠ hash left right
  freshOther : ∀ index, index < others → ∀ left right, HashedPair hash leaves leaf left right →
    other index ≠ hash left right

section Determined

variable {hash : α → α → α} {leaves others : Nat} {leaf other : Nat → α}

theorem CollisionFree.symm (free : CollisionFree hash leaves leaf others other) :
    CollisionFree hash others other leaves leaf where
  pairs := by
    intro left right left' right' hashed hashed' same
    obtain ⟨lefts, rights⟩ := free.pairs left' right' left right hashed' hashed same.symm
    exact ⟨lefts.symm, rights.symm⟩
  fresh := free.freshOther
  freshOther := free.fresh

theorem CollisionFree.of_injective (injective : Function.Injective2 hash)
    (fresh : ∀ index, index < leaves → ∀ left right, leaf index ≠ hash left right)
    (freshOther : ∀ index, index < others → ∀ left right, other index ≠ hash left right) :
    CollisionFree hash leaves leaf others other where
  pairs := fun _ _ _ _ _ _ same => injective same
  fresh := fun index inside left right _ => fresh index inside left right
  freshOther := fun index inside left right _ => freshOther index inside left right

section

variable (free : CollisionFree hash leaves leaf others other)

include free

theorem CollisionFree.children {level level' index index' : Nat} (wide : 2 ≤ width leaves level)
    (wide' : 2 ≤ width others level') (inside : index < width leaves (level + 1))
    (inside' : index' < width others (level' + 1))
    (same : node hash leaves leaf (level + 1) index = node hash others other (level' + 1) index') :
    node hash leaves leaf level (2 * index) = node hash others other level' (2 * index') ∧
      node hash leaves leaf level (min (2 * index + 1) (width leaves level - 1)) =
        node hash others other level' (min (2 * index' + 1) (width others level' - 1)) :=
  free.pairs _ _ _ _ ⟨level, index, wide, inside, rfl, rfl⟩
    ⟨level', index', wide', inside', rfl, rfl⟩ same

theorem CollisionFree.leftmost
    (positive : 0 < leaves) (positive' : 0 < others) {level level' : Nat} (steps : Nat)
    (wide : ∀ step, step < steps →
      2 ≤ width leaves (level + step) ∧ 2 ≤ width others (level' + step))
    (same : node hash leaves leaf (level + steps) 0 = node hash others other (level' + steps) 0) :
    node hash leaves leaf level 0 = node hash others other level' 0 := by
  induction steps with
  | zero => exact same
  | succ steps ih =>
    obtain ⟨here, there⟩ := wide steps (Nat.lt_succ_self steps)
    have below := free.children here there (width_pos positive _) (width_pos positive' _) same
    exact ih (fun step less => wide step (Nat.lt_succ_of_lt less)) below.1

theorem CollisionFree.depth_le (positive : 0 < leaves) (positive' : 0 < others) {depth depth' : Nat}
    (isDepth : IsDepth leaves depth) (isDepth' : IsDepth others depth')
    (same : node hash leaves leaf depth 0 = node hash others other depth' 0) : depth' ≤ depth := by
  by_contra deeper
  obtain ⟨extra, rfl⟩ : ∃ extra, depth' = extra + 1 + depth := ⟨depth' - depth - 1, by omega⟩
  have raised : node hash leaves leaf (0 + depth) 0 =
      node hash others other (extra + 1 + depth) 0 := by
    rw [Nat.zero_add]
    exact same
  have bottom := free.leftmost positive positive' depth
    (fun step less => ⟨isDepth.wider _ (by omega), isDepth'.wider _ (by omega)⟩) raised
  exact free.fresh 0 positive _ _
    ⟨extra, 0, isDepth'.wider _ (by omega), width_pos positive' _, rfl, rfl⟩ bottom

theorem CollisionFree.width_le_of_above (distinct : ¬RepeatedPair hash leaves leaf) {level : Nat}
    (wide : 2 ≤ width leaves level) (wide' : 2 ≤ width others level)
    (widths : width leaves (level + 1) = width others (level + 1))
    (nodes : ∀ index, index < width leaves (level + 1) →
      node hash leaves leaf (level + 1) index = node hash others other (level + 1) index) :
    width leaves level ≤ width others level := by
  have halves : (width leaves level + 1) / 2 = (width others level + 1) / 2 := widths
  by_contra wider
  obtain ⟨index, even, odd⟩ : ∃ index, width leaves level = 2 * index + 2 ∧
      width others level = 2 * index + 1 := ⟨width others level / 2, by omega, by omega⟩
  have inside : index < width leaves (level + 1) := by
    change index < (width leaves level + 1) / 2
    omega
  have below := free.children wide wide' inside (widths ▸ inside) (nodes index inside)
  have last : min (2 * index + 1) (width leaves level - 1) = 2 * index + 1 := by omega
  have doubled : min (2 * index + 1) (width others level - 1) = 2 * index := by omega
  rw [last, doubled] at below
  exact distinct ⟨level, index, by omega, below.1.trans below.2.symm⟩

end

structure SameLevel (hash : α → α → α) (leaves : Nat) (leaf : Nat → α) (others : Nat)
    (other : Nat → α) (level : Nat) : Prop where
  widths : width leaves level = width others level
  nodes : ∀ index, index < width leaves level →
    node hash leaves leaf level index = node hash others other level index

theorem SameLevel.symm {level : Nat} (same : SameLevel hash leaves leaf others other level) :
    SameLevel hash others other leaves leaf level where
  widths := same.widths.symm
  nodes := fun index inside => (same.nodes index (same.widths ▸ inside)).symm

theorem SameLevel.below (free : CollisionFree hash leaves leaf others other)
    (distinct : ¬RepeatedPair hash leaves leaf) (distinct' : ¬RepeatedPair hash others other)
    {level : Nat} (wide : 2 ≤ width leaves level) (wide' : 2 ≤ width others level)
    (above : SameLevel hash leaves leaf others other (level + 1)) :
    SameLevel hash leaves leaf others other level := by
  have most := free.width_le_of_above distinct wide wide' above.widths above.nodes
  have least := free.symm.width_le_of_above distinct' wide' wide above.symm.widths above.symm.nodes
  have widths : width leaves level = width others level := by omega
  refine ⟨widths, fun index inside => ?_⟩
  have parent : index / 2 < width leaves (level + 1) := by
    change index / 2 < (width leaves level + 1) / 2
    omega
  have children := free.children wide wide' parent (above.widths ▸ parent) (above.nodes _ parent)
  rw [← widths] at children
  by_cases odd : index % 2 = 1
  · have right : min (2 * (index / 2) + 1) (width leaves level - 1) = index := by omega
    rw [right] at children
    exact children.2
  · have left : 2 * (index / 2) = index := by omega
    rw [left] at children
    exact children.1

theorem eq_of_root_eq (free : CollisionFree hash leaves leaf others other)
    (positive : 0 < leaves) (positive' : 0 < others) (distinct : ¬RepeatedPair hash leaves leaf)
    (distinct' : ¬RepeatedPair hash others other) {depth depth' : Nat}
    (isDepth : IsDepth leaves depth) (isDepth' : IsDepth others depth')
    (same : node hash leaves leaf depth 0 = node hash others other depth' 0) :
    SameLevel hash leaves leaf others other 0 := by
  have depths : depth' = depth :=
    Nat.le_antisymm (free.depth_le positive positive' isDepth isDepth' same)
      (free.symm.depth_le positive' positive isDepth' isDepth same.symm)
  subst depths
  have top : SameLevel hash leaves leaf others other depth' := by
    refine ⟨isDepth.single.trans isDepth'.single.symm, fun index inside => ?_⟩
    have single := isDepth.single
    have first : index = 0 := by omega
    rw [first]
    exact same
  -- From the root down to the leaves.
  have wide := isDepth.wider
  have wide' := isDepth'.wider
  clear same isDepth isDepth'
  induction depth' with
  | zero => exact top
  | succ level ih =>
    have here := Nat.lt_succ_self level
    exact ih (top.below free distinct distinct' (wide level here) (wide' level here))
      (fun lower less => wide lower (less.trans here))
      fun lower less => wide' lower (less.trans here)

end Determined

/-- Climb from a node, with the side of each sibling given by the bits of the position. -/
def foldBranch (hash : α → α → α) (position : Nat) : (level : Nat) → α → List α → α
  | _, h, [] => h
  | level, h, beside :: rest =>
    foldBranch hash position (level + 1)
      (if position.testBit level then hash beside h else hash h beside) rest

end Adonai.MerkleTree
