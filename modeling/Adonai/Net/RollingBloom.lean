/-
The rolling Bloom filter.

A position holds the number of the generation in which it was last written, or zero. There are
three numbers, and a new generation wipes the positions with the number it takes: what was
written in it or in the two generations before it stays.
-/

import Mathlib.Tactic.IntervalCases

namespace Adonai.RollingBloom

/-- The words `data[2 * i]` and `data[2 * i + 1]`; a position has a bit in each. -/
abbrev WordPair := BitVec 64 × BitVec 64

def generationAt (bit : Nat) (words : WordPair) : Nat :=
  (words.1.getLsbD bit).toNat + 2 * (words.2.getLsbD bit).toNat

def putGeneration (nGeneration bit : Nat) (words : WordPair) : WordPair :=
  (words.1 &&& ~~~(1#64 <<< bit) ||| BitVec.ofNat 64 (nGeneration &&& 1) <<< bit,
    words.2 &&& ~~~(1#64 <<< bit) ||| BitVec.ofNat 64 (nGeneration >>> 1) <<< bit)

def wipeGeneration (nGeneration : Nat) (words : WordPair) : WordPair :=
  let nGenerationMask1 := 0 - BitVec.ofNat 64 (nGeneration &&& 1)
  let nGenerationMask2 := 0 - BitVec.ofNat 64 (nGeneration >>> 1)
  let mask := (words.1 ^^^ nGenerationMask1) ||| (words.2 ^^^ nGenerationMask2)
  (words.1 &&& mask, words.2 &&& mask)

def nextGeneration (nGeneration : Nat) : Nat := if nGeneration + 1 = 4 then 1 else nGeneration + 1

def IsGeneration (nGeneration : Nat) : Prop := 1 ≤ nGeneration ∧ nGeneration ≤ 3

variable {nGeneration bit : Nat} (words : WordPair)

private theorem or_shiftRight_iff :
    (words.1 ||| words.2) >>> bit &&& 1 ≠ 0 ↔ generationAt bit words ≠ 0 := by
  rw [BitVec.ofNat_eq_ofNat, BitVec.and_one_eq_setWidth_ofBool_getLsbD]
  cases isFirst : words.1.getLsbD bit <;> cases isSecond : words.2.getLsbD bit <;>
    simp [generationAt, isFirst, isSecond]

section

variable (valid : IsGeneration nGeneration)

include valid

private theorem isGeneration_next : IsGeneration (nextGeneration nGeneration) := by
  unfold IsGeneration nextGeneration at *
  split <;> omega

theorem generationAt_put {other : Nat} (inside : bit < 64) (otherInside : other < 64) :
    generationAt other (putGeneration nGeneration bit words) =
      if other = bit then nGeneration else generationAt other words := by
  obtain ⟨low, high⟩ := valid
  split
  next same =>
    subst same
    interval_cases nGeneration <;> simp [generationAt, putGeneration, inside]
  next different =>
    have apart : other < bit ∨ other - bit ≠ 0 := by omega
    interval_cases nGeneration <;> rcases apart with apart | apart <;>
      simp [generationAt, putGeneration, apart, otherInside]

theorem generationAt_wipe (inside : bit < 64) :
    generationAt bit (wipeGeneration nGeneration words) =
      if generationAt bit words = nGeneration then 0 else generationAt bit words := by
  obtain ⟨low, high⟩ := valid
  have ones : (18446744073709551615#64).getLsbD bit = true :=
    BitVec.getLsbD_allOnes.trans (decide_eq_true inside)
  interval_cases nGeneration <;>
    cases isFirst : words.1.getLsbD bit <;> cases isSecond : words.2.getLsbD bit <;>
    simp [generationAt, wipeGeneration, isFirst, isSecond, ones, -BitVec.getLsbD_eq_getElem]

end

def fastRange32 (x n : UInt32) : Nat := x.toNat * n.toNat / 2 ^ 32

def bitOf (h : UInt32) : Nat := (h &&& 0x3F).toNat

private theorem bitOf_lt (h : UInt32) : bitOf h < 64 := by
  rw [bitOf, UInt32.toNat_and]
  exact Nat.and_le_right.trans_lt (by decide)

structure CRollingBloomFilter where
  nEntriesPerGeneration : Nat
  nEntriesThisGeneration : Nat
  nGeneration : Nat
  pairs : Nat
  data : Nat → WordPair
  nTweak : UInt32
  nHashFuncs : Nat

namespace CRollingBloomFilter

/-- The numbers of hash functions and of words come from the false positive rate. -/
def new (nElements : UInt32) (nHashFuncs pairs : Nat) (nTweak : UInt32) : CRollingBloomFilter where
  nEntriesPerGeneration := ((nElements + 1) / 2).toNat
  nEntriesThisGeneration := 0
  nGeneration := 1
  pairs := pairs
  data _ := (0, 0)
  nTweak := nTweak
  nHashFuncs := nHashFuncs

variable {Key : Type} (rollingBloomHash : Nat → UInt32 → Key → UInt32)
  (filter : CRollingBloomFilter) (vKey : Key)

def hashes : List UInt32 :=
  (List.range filter.nHashFuncs).map fun n => rollingBloomHash n filter.nTweak vKey

/-- The lowest bit of the position, which would choose between the two words, is ignored. -/
def pairOf (h : UInt32) : Nat := fastRange32 h (.ofNat (2 * filter.pairs)) / 2

def startGeneration : CRollingBloomFilter :=
  { filter with
    nEntriesThisGeneration := 0
    nGeneration := nextGeneration filter.nGeneration
    data := fun i => wipeGeneration (nextGeneration filter.nGeneration) (filter.data i) }

def write (h : UInt32) : CRollingBloomFilter :=
  { filter with
    data := Function.update filter.data (filter.pairOf h)
      (putGeneration filter.nGeneration (bitOf h) (filter.data (filter.pairOf h))) }

def insert : CRollingBloomFilter :=
  let filter :=
    if filter.nEntriesThisGeneration = filter.nEntriesPerGeneration then filter.startGeneration
    else filter
  (filter.hashes rollingBloomHash vKey).foldl write
    { filter with nEntriesThisGeneration := filter.nEntriesThisGeneration + 1 }

def contains : Bool :=
  (filter.hashes rollingBloomHash vKey).all fun h =>
    let words := filter.data (filter.pairOf h)
    (words.1 ||| words.2) >>> bitOf h &&& 1 != 0

def stored (h : UInt32) : Nat := generationAt (bitOf h) (filter.data (filter.pairOf h))

/-- A position of the key inserted `age` keys ago. What is not older than the last generation
does not hold the number that is taken next. -/
structure Kept (age : Nat) (h : UInt32) : Prop where
  now : age < filter.nEntriesThisGeneration → filter.stored h = filter.nGeneration
  last : age < filter.nEntriesThisGeneration + filter.nEntriesPerGeneration →
    filter.stored h ≠ 0 ∧ filter.stored h ≠ nextGeneration filter.nGeneration
  older : age < filter.nEntriesThisGeneration + 2 * filter.nEntriesPerGeneration →
    filter.stored h ≠ 0

/-- What holds after the keys, the latest first. At the largest capacity the entries of a
generation wrap to zero; then no generation with a key ends. -/
structure Remembers (capacity : Nat) (keys : List Key) : Prop where
  valid : IsGeneration filter.nGeneration
  room : capacity ≤ 2 * filter.nEntriesPerGeneration ∨
    filter.nEntriesPerGeneration = 0 ∧ keys.length = filter.nEntriesThisGeneration
  kept : ∀ age key, keys[age]? = some key → ∀ h ∈ filter.hashes rollingBloomHash key,
    filter.Kept age h

variable {rollingBloomHash filter} {capacity : Nat} {keys : List Key}

theorem stored_write (valid : IsGeneration filter.nGeneration) (h other : UInt32) :
    (filter.write h).stored other =
      if filter.pairOf other = filter.pairOf h ∧ bitOf other = bitOf h then filter.nGeneration
      else filter.stored other := by
  have place : (filter.write h).pairOf other = filter.pairOf other := rfl
  rw [stored, place, write, stored]
  by_cases same : filter.pairOf other = filter.pairOf h
  · simp [same, generationAt_put _ valid (bitOf_lt h) (bitOf_lt other)]
  · simp [same]

theorem foldl_write (valid : IsGeneration filter.nGeneration) (hs : List UInt32) :
    ∃ data, hs.foldl write filter = { filter with data := data } ∧
      (∀ h ∈ hs, { filter with data := data }.stored h = filter.nGeneration) ∧
      ∀ h, { filter with data := data }.stored h = filter.nGeneration ∨
        { filter with data := data }.stored h = filter.stored h := by
  induction hs generalizing filter with
  | nil => exact ⟨filter.data, rfl, nofun, fun _ => .inr rfl⟩
  | cons first hs ih =>
    obtain ⟨data, writes, written, others⟩ := @ih (filter.write first) valid
    have either : ∀ h, { filter with data := data }.stored h = filter.nGeneration ∨
        { filter with data := data }.stored h = (filter.write first).stored h := others
    simp only [stored_write valid] at either
    refine ⟨data, writes, List.forall_mem_cons.mpr ⟨?_, written⟩, fun h => ?_⟩
    · grind
    · grind

theorem Remembers.startGeneration (remembers : filter.Remembers rollingBloomHash capacity keys)
    (full : filter.nEntriesThisGeneration = filter.nEntriesPerGeneration) :
    filter.startGeneration.Remembers rollingBloomHash capacity keys where
  valid := isGeneration_next remembers.valid
  room := remembers.room.imp_right fun both => ⟨both.1, both.2.trans (full.trans both.1)⟩
  kept age key found h member := by
    obtain ⟨low, high⟩ := remembers.valid
    obtain ⟨now, last, _⟩ := remembers.kept age key found h member
    have wiped : filter.startGeneration.stored h =
        if filter.stored h = nextGeneration filter.nGeneration then 0 else filter.stored h :=
      generationAt_wipe _ (isGeneration_next remembers.valid) (bitOf_lt h)
    -- this generation becomes the last one, and the last one an older one
    constructor
    case now => exact nofun
    all_goals
      rw [wiped]
      simp only [CRollingBloomFilter.startGeneration]
      grind [nextGeneration]

theorem Remembers.insert (remembers : filter.Remembers rollingBloomHash capacity keys)
    (vKey : Key) :
    (filter.insert rollingBloomHash vKey).Remembers rollingBloomHash capacity (vKey :: keys) := by
  have begun : Remembers rollingBloomHash
      (if filter.nEntriesThisGeneration = filter.nEntriesPerGeneration then filter.startGeneration
        else filter) capacity keys := by
    split
    next full => exact remembers.startGeneration full
    · exact remembers
  rw [CRollingBloomFilter.insert]
  generalize (if filter.nEntriesThisGeneration = filter.nEntriesPerGeneration then
    filter.startGeneration else filter) = before at begun
  have valid := begun.valid
  obtain ⟨data, writes, written, others⟩ := @foldl_write
    { before with nEntriesThisGeneration := before.nEntriesThisGeneration + 1 } valid
    (before.hashes rollingBloomHash vKey)
  rw [writes]
  refine ⟨valid, begun.room.imp_right (And.imp_right (congrArg (· + 1))), ?_⟩
  intro age key found h member
  obtain ⟨low, high⟩ := valid
  cases age with
  | zero =>
    cases found
    have now := written h member
    constructor <;> grind [nextGeneration]
  | succ age =>
    obtain ⟨now, last, older⟩ := begun.kept age key found h member
    have either : _ ∨ _ = before.stored h := others h
    constructor <;> grind [nextGeneration]

theorem remembers_foldr (nElements nTweak : UInt32) (nHashFuncs pairs : Nat) (keys : List Key) :
    Remembers rollingBloomHash (keys.foldr (fun vKey filter => filter.insert rollingBloomHash vKey)
      (new nElements nHashFuncs pairs nTweak)) nElements.toNat keys := by
  induction keys with
  | nil =>
    have := nElements.toNat_lt
    exact ⟨⟨le_rfl, Nat.le_add_left 1 2⟩, by simp [new]; omega, nofun⟩
  | cons vKey keys ih => exact ih.insert vKey

/-- With the latest key first, as many keys as the capacity are found. -/
theorem contains_latest (rollingBloomHash : Nat → UInt32 → Key → UInt32) (nElements nTweak : UInt32)
    (nHashFuncs pairs : Nat) (keys : List Key) :
    ((keys.take nElements.toNat).all fun key =>
      (keys.foldr (fun vKey filter => filter.insert rollingBloomHash vKey)
        (new nElements nHashFuncs pairs nTweak)).contains rollingBloomHash key) = true := by
  rw [List.all_eq_true]
  intro key member
  have remembers := @remembers_foldr Key rollingBloomHash nElements nTweak nHashFuncs pairs keys
  obtain ⟨age, found⟩ := List.mem_iff_getElem?.mp member
  rw [List.getElem?_take, Option.ite_none_right_eq_some] at found
  obtain ⟨inside, _⟩ := List.getElem?_eq_some_iff.mp found.2
  rw [contains, List.all_eq_true]
  intro h isHash
  have kept := remembers.kept age key found.2 h isHash
  have := remembers.room
  rw [bne_iff_ne]
  exact (or_shiftRight_iff _).mpr (kept.older (by omega))

end CRollingBloomFilter

end Adonai.RollingBloom
