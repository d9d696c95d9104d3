/-
The block's transaction tree: the root level by level, and the branch from a stack of hashes.

`ComputeMerkleRoot` combines two nodes with a double SHA-256, `MerkleComputation` with `Hash`,
which is BLAKE3 here. Both compressions are parameters over an arbitrary type of digests.
-/

import Adonai.Foundation.MerkleTree

namespace Adonai.Merkle

open MerkleTree

variable {Digest : Type} [DecidableEq Digest]

def adjacentEqual : List Digest → Bool
  | first :: second :: rest => first == second || adjacentEqual rest
  | _ => false

def sha256D64 (sha : Digest → Digest → Digest) : List Digest → List Digest
  | first :: second :: rest => sha first second :: sha256D64 sha rest
  | _ => []

def computeMerkleRootLoop (sha : Digest → Digest → Digest) :
    (fuel : Nat) → List Digest → (mutation : Bool) → List Digest × Bool
  | 0, hashes, mutation => (hashes, mutation)
  | fuel + 1, hashes, mutation =>
    if hashes.length ≤ 1 then (hashes, mutation)
    else
      let padded := if hashes.length % 2 = 1 then hashes ++ hashes.getLast?.toList else hashes
      computeMerkleRootLoop sha fuel (sha256D64 sha padded) (mutation || adjacentEqual hashes)

def computeMerkleRoot (sha : Digest → Digest → Digest) (zero : Digest) (hashes : List Digest) :
    Digest × Bool :=
  let (hashes, mutation) := computeMerkleRootLoop sha hashes.length hashes false
  (hashes.headD zero, mutation)

def blockMerkleRoot (sha : Digest → Digest → Digest) (zero : Digest) (txids : List Digest) :
    Digest :=
  (computeMerkleRoot sha zero txids).1

structure Carry (Digest : Type) where
  level : Nat
  h : Digest
  matchh : Bool
  path : List Digest
  mutated : Bool

/-- The loop that combines `h` with stored subtree hashes while the bits of `count`
are zero. The mutation test belongs to the first of its two uses. Level 32 would
shift a 32-bit one out of range and read past `inner`. -/
def carryLoop (blake : Digest → Digest → Digest) (count : Nat) (inner : Nat → Digest)
    (matchlevel : Int) (track : Bool) : (fuel : Nat) → Carry Digest → Option (Carry Digest)
  | 0, _ => none
  | fuel + 1, carry =>
    if count.testBit carry.level then some carry
    else
      carryLoop blake count inner matchlevel track fuel
        { level := carry.level + 1
          h := blake (inner carry.level) carry.h
          matchh := carry.matchh || decide (matchlevel = carry.level)
          path :=
            if carry.matchh then carry.path ++ [inner carry.level]
            else if matchlevel = carry.level then carry.path ++ [carry.h]
            else carry.path
          mutated := carry.mutated || (track && inner carry.level == carry.h) }

structure Accumulator (Digest : Type) where
  count : Nat
  inner : Nat → Digest
  matchlevel : Int
  path : List Digest
  mutated : Bool

variable (blake : Digest → Digest → Digest)

def absorb (leaf_pos : Nat) (acc : Accumulator Digest)
    (leaf : Digest) : Option (Accumulator Digest) :=
  let count := (acc.count + 1) % 2 ^ 32
  (carryLoop blake count acc.inner acc.matchlevel true 32
      { level := 0
        h := leaf
        matchh := decide (acc.count = leaf_pos)
        path := acc.path
        mutated := acc.mutated }).map fun carry =>
    { count := count
      inner := Function.update acc.inner carry.level carry.h
      matchlevel := if carry.matchh then carry.level else acc.matchlevel
      path := carry.path
      mutated := carry.mutated }

def lowestBit (count : Nat) : (fuel level : Nat) → Option Nat
  | 0, _ => none
  | fuel + 1, level =>
    if count.testBit level then some level else lowestBit count fuel (level + 1)

def sweep (blake : Digest → Digest → Digest) (inner : Nat → Digest) (matchlevel : Int) :
    (fuel count : Nat) → Carry Digest → Option (Carry Digest)
  | 0, _, _ => none
  | fuel + 1, count, carry =>
    if count = 2 ^ carry.level then some carry
    else
      let raised := (count + 2 ^ carry.level) % 2 ^ 32
      (carryLoop blake raised inner matchlevel false (32 - (carry.level + 1))
          { level := carry.level + 1
            h := blake carry.h carry.h
            matchh := carry.matchh
            path := if carry.matchh then carry.path ++ [carry.h] else carry.path
            mutated := carry.mutated }).bind
        (sweep blake inner matchlevel fuel raised)

/-- The root, the mutation flag and the branch of `leaf_pos`. -/
def merkleComputation (zero : Digest) (leaves : List Digest)
    (leaf_pos : Nat) : Option (Digest × Bool × List Digest) :=
  if leaves.length = 0 then some (zero, false, [])
  else do
    let acc ← leaves.foldlM (absorb blake leaf_pos)
      { count := 0, inner := fun _ => zero, matchlevel := -1, path := [], mutated := false }
    let level ← lowestBit acc.count 32 0
    let top ← sweep blake acc.inner acc.matchlevel 32 acc.count
      { level := level
        h := acc.inner level
        matchh := decide (acc.matchlevel = level)
        path := acc.path
        mutated := acc.mutated }
    pure (top.h, top.mutated, top.path)

def transactionMerklePath (zero : Digest)
    (txids : List Digest) (position : UInt32) : Option (List Digest) :=
  (merkleComputation blake zero txids position.toNat).map fun result => result.2.2

section Root

variable (sha : Digest → Digest → Digest)

omit [DecidableEq Digest] in
theorem sha256D64_range (count : Nat) (entry : Nat → Digest) :
    sha256D64 sha ((List.range (2 * count)).map entry) =
      (List.range count).map fun i => sha (entry (2 * i)) (entry (2 * i + 1)) := by
  induction count generalizing entry with
  | zero => rfl
  | succ count ih =>
    rw [Nat.mul_succ, List.range_succ_eq_map, List.range_succ_eq_map, List.range_succ_eq_map]
    simp only [List.map_cons, List.map_map, sha256D64]
    have shifted := ih (entry ∘ Nat.succ ∘ Nat.succ)
    rw [shifted]
    rfl

omit [DecidableEq Digest] in
private theorem padded_range (count : Nat) (entry : Nat → Digest) (positive : 0 < count) :
    (if ((List.range count).map entry).length % 2 = 1 then
        (List.range count).map entry ++ ((List.range count).map entry).getLast?.toList
      else (List.range count).map entry) =
      (List.range (2 * ((count + 1) / 2))).map fun i => entry (min i (count - 1)) := by
  have inside : (List.range count).map (fun i => entry (min i (count - 1))) =
      (List.range count).map entry := by
    apply List.map_congr_left
    intro i member
    have := List.mem_range.mp member
    rw [Nat.min_eq_left (by omega)]
  rw [List.length_map, List.length_range]
  split_ifs with odd
  · have more : 2 * ((count + 1) / 2) = count + 1 := by omega
    have last : ((List.range count).map entry).getLast? = some (entry (count - 1)) := by
      rcases Nat.exists_eq_succ_of_ne_zero positive.ne' with ⟨before, rfl⟩
      rw [List.range_succ, List.map_append, List.map_singleton, List.getLast?_concat]
      rfl
    have clipped : entry (min count (count - 1)) = entry (count - 1) := by
      rw [Nat.min_eq_right (Nat.sub_le count 1)]
    rw [more, List.range_succ, List.map_append, inside, last, List.map_singleton, clipped]
    rfl
  · have same : 2 * ((count + 1) / 2) = count := by omega
    rw [same, inside]

omit [DecidableEq Digest] in
theorem level_single {leaves level : Nat} (leaf : Nat → Digest) (single : width leaves level = 1) :
    (List.range (width leaves level)).map (node sha leaves leaf level) =
      [node sha leaves leaf level 0] := by
  rw [single]
  rfl

theorem computeMerkleRootLoop_succ {leaves level : Nat} (leaf : Nat → Digest) (fuel : Nat)
    (mutation : Bool) (several : 2 ≤ width leaves level) : computeMerkleRootLoop sha (fuel + 1)
        ((List.range (width leaves level)).map (node sha leaves leaf level)) mutation =
      computeMerkleRootLoop sha fuel
        ((List.range (width leaves (level + 1))).map (node sha leaves leaf (level + 1)))
        (mutation ||
          adjacentEqual ((List.range (width leaves level)).map (node sha leaves leaf level))) := by
  rw [computeMerkleRootLoop, if_neg (by rw [List.length_map, List.length_range]; omega)]
  dsimp only
  rw [padded_range _ _ (by omega), sha256D64_range]
  refine congrArg (computeMerkleRootLoop sha fuel · _) (List.map_congr_left fun i member => ?_)
  have := List.mem_range.mp member
  rw [Nat.min_eq_left (by omega)]
  rfl

theorem computeMerkleRootLoop_level {leaves : Nat} (leaf : Nat → Digest) (fuel level : Nat)
    (mutation : Bool) (positive : 0 < width leaves level) (enough : width leaves level ≤ fuel + 1)
    (wider : ∀ below, below < level → 2 ≤ width leaves below) : ∃ depth, IsDepth leaves depth ∧
      (computeMerkleRootLoop sha fuel ((List.range (width leaves level)).map
        (node sha leaves leaf level)) mutation).1 = [node sha leaves leaf depth 0] := by
  induction fuel generalizing level mutation with
  | zero =>
    have single : width leaves level = 1 := by omega
    exact ⟨level, ⟨single, wider⟩, level_single sha leaf single⟩
  | succ fuel ih =>
    by_cases single : width leaves level ≤ 1
    · refine ⟨level, ⟨by omega, wider⟩, ?_⟩
      rw [computeMerkleRootLoop, if_pos (by rw [List.length_map, List.length_range]; exact single)]
      exact level_single sha leaf (by omega)
    rw [computeMerkleRootLoop_succ sha leaf fuel mutation (by omega)]
    have above : width leaves (level + 1) = (width leaves level + 1) / 2 := rfl
    have widerNow : ∀ below, below < level + 1 → 2 ≤ width leaves below :=
      Nat.forall_lt_succ_right.mpr ⟨wider, by omega⟩
    exact ih (level + 1) _ (by omega) (by omega) widerNow

omit [DecidableEq Digest] in
private theorem range_map_getD (leaves : List Digest) (zero : Digest) :
    (List.range leaves.length).map (fun i => leaves.getD i zero) = leaves := by
  apply List.ext_getElem
  · simp
  · intro i _ inside
    simp [List.getElem?_eq_getElem inside]

theorem computeMerkleRoot_eq (zero : Digest) (leaves : List Digest) (nonempty : 0 < leaves.length) :
    ∃ depth, IsDepth leaves.length depth ∧
      (computeMerkleRoot sha zero leaves).1 =
        node sha leaves.length (fun i => leaves.getD i zero) depth 0 := by
  rcases computeMerkleRootLoop_level sha (fun i => leaves.getD i zero) leaves.length 0 false
    nonempty (Nat.le_succ _) (fun _ below => absurd below (Nat.not_lt_zero _))
    with ⟨depth, isDepth, top⟩
  have bottom : (List.range (width leaves.length 0)).map
      (node sha leaves.length (fun i => leaves.getD i zero) 0) = leaves :=
    range_map_getD leaves zero
  rw [bottom] at top
  refine ⟨depth, isDepth, ?_⟩
  unfold computeMerkleRoot
  dsimp only
  rw [top]
  rfl

theorem adjacentEqual_iff (hashes : List Digest) : adjacentEqual hashes = true ↔
      ∃ index, 2 * index + 1 < hashes.length ∧ hashes[2 * index]? = hashes[2 * index + 1]? := by
  induction hashes using adjacentEqual.induct with
  | case1 first second rest ih =>
    simp only [adjacentEqual, Bool.or_eq_true, beq_iff_eq, ih, List.length_cons]
    constructor
    · intro equal
      rcases equal with here | ⟨index, inside, later⟩
      · exact ⟨0, by omega, congrArg some here⟩
      · exact ⟨index + 1, by omega, later⟩
    · intro equal
      obtain ⟨index, inside, pair⟩ := equal
      cases index with
      | zero => exact .inl (Option.some.inj pair)
      | succ index => exact .inr ⟨index, by omega, pair⟩
  | case2 hashes short =>
    have few : hashes.length ≤ 1 := by
      match hashes, short with
      | [], _ => exact Nat.zero_le 1
      | [_], _ => exact Nat.le_refl 1
      | first :: second :: rest, short => exact absurd rfl (short first second rest)
    rw [adjacentEqual]
    · constructor
      · intro impossible
        cases impossible
      · intro equal
        omega
    · exact short

theorem adjacentEqual_level {leaves level : Nat} (leaf : Nat → Digest) :
    adjacentEqual ((List.range (width leaves level)).map (node sha leaves leaf level)) = true ↔
      RepeatedAt sha leaves leaf level := by
  rw [adjacentEqual_iff, List.length_map, List.length_range]
  apply exists_congr
  intro index
  apply and_congr_right
  intro inside
  have before : 2 * index < width leaves level := by omega
  simp only [List.getElem?_map, List.getElem?_range inside, List.getElem?_range before,
    Option.map_some, Option.some.injEq]

omit [DecidableEq Digest] in
private theorem not_repeatedAt_of_single {leaves level : Nat} (leaf : Nat → Digest)
    (single : width leaves level ≤ 1) :
    ¬∃ above, level ≤ above ∧ RepeatedAt sha leaves leaf above := by
  intro repeated
  obtain ⟨above, higher, index, inside, -⟩ := repeated
  have := width_le_one single higher
  omega

theorem computeMerkleRootLoop_mutation {leaves : Nat} (leaf : Nat → Digest) (fuel level : Nat)
    (mutation : Bool) (enough : width leaves level ≤ fuel + 1) :
    (computeMerkleRootLoop sha fuel ((List.range (width leaves level)).map
        (node sha leaves leaf level)) mutation).2 = true ↔
      mutation = true ∨ ∃ above, level ≤ above ∧ RepeatedAt sha leaves leaf above := by
  induction fuel generalizing level mutation with
  | zero =>
    rw [computeMerkleRootLoop, or_iff_left (not_repeatedAt_of_single sha leaf (by omega))]
  | succ fuel ih =>
    by_cases single : width leaves level ≤ 1
    · rw [computeMerkleRootLoop,
        if_pos (by rw [List.length_map, List.length_range]; exact single),
        or_iff_left (not_repeatedAt_of_single sha leaf single)]
    have above : width leaves (level + 1) = (width leaves level + 1) / 2 := rfl
    rw [computeMerkleRootLoop_succ sha leaf fuel mutation (by omega),
      ih (level + 1) _ (by omega), Bool.or_eq_true, adjacentEqual_level, or_assoc]
    apply or_congr_right
    constructor
    · intro repeated
      rcases repeated with here | ⟨above, higher, pair⟩
      · exact ⟨level, Nat.le_refl level, here⟩
      · exact ⟨above, by omega, pair⟩
    · intro repeated
      obtain ⟨above, higher, pair⟩ := repeated
      rcases Nat.eq_or_lt_of_le higher with rfl | later
      · exact .inl pair
      · exact .inr ⟨above, later, pair⟩

theorem computeMerkleRoot_mutated (zero : Digest) (leaves : List Digest) :
    (computeMerkleRoot sha zero leaves).2 = true ↔
      RepeatedPair sha leaves.length (fun i => leaves.getD i zero) := by
  have bottom : (List.range (width leaves.length 0)).map
      (node sha leaves.length (fun i => leaves.getD i zero) 0) = leaves :=
    range_map_getD leaves zero
  have flag := computeMerkleRootLoop_mutation sha (fun i => leaves.getD i zero) leaves.length 0
    false (Nat.le_succ _)
  rw [bottom] at flag
  unfold computeMerkleRoot
  rw [flag]
  constructor
  · intro repeated
    rcases repeated with impossible | ⟨above, -, pair⟩
    · cases impossible
    · exact ⟨above, pair⟩
  · intro repeated
    obtain ⟨above, pair⟩ := repeated
    exact .inr ⟨above, Nat.zero_le above, pair⟩

/-- Of two lists that are not reported, and between whose trees the hash has no collision,
equal roots make equal lists. -/
theorem eq_of_computeMerkleRoot_eq (zero : Digest) {first second : List Digest}
    (nonempty : first ≠ []) (nonempty' : second ≠ [])
    (free : CollisionFree sha first.length (fun i => first.getD i zero) second.length
      (fun i => second.getD i zero)) (unreported : (computeMerkleRoot sha zero first).2 = false)
    (unreported' : (computeMerkleRoot sha zero second).2 = false)
    (same : (computeMerkleRoot sha zero first).1 = (computeMerkleRoot sha zero second).1) :
    first = second := by
  have positive := List.length_pos_iff.mpr nonempty
  have positive' := List.length_pos_iff.mpr nonempty'
  obtain ⟨depth, isDepth, root⟩ := computeMerkleRoot_eq sha zero first positive
  obtain ⟨depth', isDepth', root'⟩ := computeMerkleRoot_eq sha zero second positive'
  rw [root, root'] at same
  rw [Bool.eq_false_iff, ne_eq, computeMerkleRoot_mutated] at unreported unreported'
  have leaves := eq_of_root_eq free positive positive' unreported unreported' isDepth isDepth' same
  apply List.ext_getElem leaves.widths
  intro i inside inside'
  have digest : first.getD i zero = second.getD i zero := leaves.nodes i inside
  rw [List.getD_eq_getElem _ _ inside, List.getD_eq_getElem _ _ inside'] at digest
  exact digest

end Root

end Adonai.Merkle
