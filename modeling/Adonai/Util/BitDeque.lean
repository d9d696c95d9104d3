/-
The bit deque: words of `B` bits, which is `BITS_PER_WORD`, with unused bits at both ends.

The words are listed one after the other, as bits. Sizes are unbounded.
-/

import Adonai.Foundation.Run
import Mathlib.Algebra.Ring.Nat
import Mathlib.Data.List.Induction

namespace Adonai

open List (replicate)

structure Bitdeque (B : Nat) where
  m_deque : List Bool := []
  m_pad_begin : Nat := 0
  m_pad_end : Nat := 0

namespace Bitdeque

variable (B : Nat)

/-- The word is counted from the front of the deque. -/
structure Iterator where
  m_it : Int
  m_bitpos : Int

namespace Iterator

variable (x : Iterator) (dist : Int)

def forward : Iterator :=
  let jump := dist / B
  ⟨x.m_it + jump, x.m_bitpos + (dist - jump * B)⟩

def backward : Iterator :=
  let jump := dist / B
  ⟨x.m_it - jump, x.m_bitpos - (dist - jump * B)⟩

/-- The operator `+=`. -/
def add : Iterator :=
  if dist > 0 then
    if dist + x.m_bitpos ≥ B then forward B ⟨x.m_it + 1, 0⟩ (dist - (B - x.m_bitpos))
    else forward B x dist
  else if dist < 0 then
    if -dist > x.m_bitpos then backward B ⟨x.m_it - 1, B - 1⟩ (-dist - (x.m_bitpos + 1))
    else backward B x (-dist)
  else x

def sub (y : Iterator) : Int := B * (x.m_it - y.m_it) + x.m_bitpos - y.m_bitpos

def next : Iterator :=
  if x.m_bitpos + 1 = B then ⟨x.m_it + 1, 0⟩ else ⟨x.m_it, x.m_bitpos + 1⟩

def prev : Iterator :=
  if x.m_bitpos = 0 then ⟨x.m_it - 1, B - 1⟩ else ⟨x.m_it, x.m_bitpos - 1⟩

/-- Where a bit of a word is in the list of bits. -/
def slot : Option Nat :=
  if 0 ≤ x.m_it ∧ 0 ≤ x.m_bitpos ∧ x.m_bitpos < B then
    some (B * x.m_it + x.m_bitpos).toNat
  else none

def pos (p : Nat) : Iterator := ⟨p / B, p % B⟩

variable {B} {p q : Nat}

theorem eq_pos {m_it m_bitpos : Int} (low : 0 ≤ m_bitpos) (high : m_bitpos < B)
    (isP : B * m_it + m_bitpos = p) : (⟨m_it, m_bitpos⟩ : Iterator) = .pos B p := by
  obtain ⟨rfl, rfl⟩ := (Int.ediv_emod_unique (by omega : 0 < (B : Int))).mpr
    ⟨(Int.add_comm _ _).trans isP, low, high⟩
  rfl

variable [NeZero B]

theorem division (p : Int) : (0 ≤ p % B ∧ p % B < B) ∧ B * (p / B) + p % B = p := by
  have positive : 0 < (B : Int) := Int.natCast_pos.mpr (Nat.pos_of_neZero B)
  exact ⟨⟨Int.emod_nonneg p (Int.ne_of_gt positive), Int.emod_lt_of_pos p positive⟩,
    Int.mul_ediv_add_emod p B⟩

theorem sub_pos_pos : (pos B p).sub B (.pos B q) = p - q := by
  have := @division B _ p
  have := @division B _ q
  grind [sub, pos]

theorem next_pos : (pos B p).next B = .pos B (p + 1) := by
  have := @division B _ p
  unfold next
  split_ifs <;> apply eq_pos <;> grind [pos]

theorem prev_pos : (pos B (p + 1)).prev B = .pos B p := by
  have := @division B _ (p + 1)
  unfold prev
  split_ifs <;> apply eq_pos <;> grind [pos]

theorem add_pos {dist : Int} (isQ : q = p + dist) : (pos B p).add B dist = .pos B q := by
  have := @division B _ p
  have beyond := @division B _ (dist - (B - p % B))
  have under := @division B _ (-dist - (p % B + 1))
  have small := @Int.ediv_eq_zero_of_lt dist B
  have small' := @Int.ediv_eq_zero_of_lt (-dist) B
  unfold add
  split_ifs
  iterate 4 · apply eq_pos <;> grind [pos]
  rw [show q = p by omega]

private theorem slot_pos : (pos B p).slot B = some p := by
  obtain ⟨inside, isP⟩ := @division B _ p
  rw [slot, pos, if_pos ⟨Int.natCast_nonneg (p / B), inside⟩, isP, Int.toNat_natCast]

end Iterator

open Iterator

variable {B} (d : Bitdeque B)

def read (x : Iterator) : Bool := ((x.slot B).bind (d.m_deque[·]?)).getD false

def write (x : Iterator) (val : Bool) : Bitdeque B :=
  { d with m_deque := (x.slot B).elim d.m_deque (d.m_deque.set · val) }

@[simp]
theorem write_m_pad_begin {x : Iterator} {val : Bool} :
    (d.write x val).m_pad_begin = d.m_pad_begin := rfl

/-- The number of words. -/
def words : Nat := d.m_deque.length / B

/-- The loop of `erase_back`, on the last word. -/
def resetBack : Nat → Bitdeque B → Bitdeque B
  | 0, d => d
  | n + 1, d => resetBack n
    { d.write ⟨d.words - 1, B - 1 - d.m_pad_end⟩ false with m_pad_end := d.m_pad_end + 1 }

def eraseBack (n : Nat) : Bitdeque B :=
  if n ≥ B - d.m_pad_end then
    let n := n - (B - d.m_pad_end)
    resetBack (n % B)
      { d with m_pad_end := 0, m_deque := d.m_deque.take ((d.words - (1 + n / B)) * B) }
  else resetBack n d

def extendBack (n : Nat) : Bitdeque B :=
  if n > d.m_pad_end then
    let n := n - (d.m_pad_end + 1)
    { d with
      m_pad_end := B - 1 - n % B
      m_deque := d.m_deque ++ replicate ((1 + n / B) * B) false }
  else { d with m_pad_end := d.m_pad_end - n }

/-- The loop of `erase_front`, on the first word. -/
def resetFront : Nat → Bitdeque B → Bitdeque B
  | 0, d => d
  | n + 1, d => resetFront n
    { d.write ⟨0, d.m_pad_begin⟩ false with m_pad_begin := d.m_pad_begin + 1 }

def eraseFront (n : Nat) : Bitdeque B :=
  if n ≥ B - d.m_pad_begin then
    let n := n - (B - d.m_pad_begin)
    resetFront (n % B) { d with m_pad_begin := 0, m_deque := d.m_deque.drop ((1 + n / B) * B) }
  else resetFront n d

def extendFront (n : Nat) : Bitdeque B :=
  if n > d.m_pad_begin then
    let n := n - (d.m_pad_begin + 1)
    { d with
      m_pad_begin := B - 1 - n % B
      m_deque := replicate ((1 + n / B) * B) false ++ d.m_deque }
  else { d with m_pad_begin := d.m_pad_begin - n }

def first : Iterator := ⟨0, d.m_pad_begin⟩

def last : Iterator := .add B ⟨d.words, 0⟩ (-d.m_pad_end)

def size : Nat := d.words * B - d.m_pad_begin - d.m_pad_end

/-- `std::move` of so many bits. -/
def move : Nat → Iterator → Iterator → Bitdeque B → Bitdeque B
  | 0, _, _, d => d
  | n + 1, source, target, d =>
    move n (source.next B) (target.next B) (d.write target (d.read source))

def moveBackward : Nat → Iterator → Iterator → Bitdeque B → Bitdeque B
  | 0, _, _, d => d
  | n + 1, source, target, d =>
    moveBackward n (source.prev B) (target.prev B)
      (d.write (target.prev B) (d.read (source.prev B)))

/-- The loops that assign through `it++`. -/
def copy : List Bool → Iterator → Bitdeque B → Bitdeque B
  | [], _, d => d
  | val :: vals, it, d => copy vals (it.next B) (d.write it val)

def insertZeroes (before count : Nat) : Bitdeque B :=
  let after := d.size - before
  if before < after then
    let d := d.extendFront count
    d.move before (d.first.add B count) d.first
  else
    let d := d.extendBack count
    d.moveBackward after (d.first.add B (before + after)) d.last

def assign (count : Nat) (val : Bool) : Bitdeque B :=
  let d : Bitdeque B := { m_deque := replicate ((count + B - 1) / B * B) val }
  if count % B ≠ 0 then d.eraseBack (B - count % B) else d

def assignList (ilist : List Bool) : Bitdeque B :=
  let d : Bitdeque B := assign ilist.length false
  d.copy ilist d.first

def pushBack (val : Bool) : Bitdeque B :=
  let d := d.extendBack 1
  d.write (d.last.add B (-1)) val

def pushFront (val : Bool) : Bitdeque B :=
  let d := d.extendFront 1
  d.write d.first val

def resize (n : Nat) : Bitdeque B :=
  if n < d.size then d.eraseBack (d.size - n) else d.extendBack (n - d.size)

def erase (start stop : Iterator) : Bitdeque B :=
  let before := (start.sub B d.first).toNat
  let dist := (stop.sub B start).toNat
  let after := (d.last.sub B stop).toNat
  if before < after then
    (d.moveBackward before (d.first.add B before) (d.last.add B (-after))).eraseFront dist
  else (d.move after (d.last.add B (-after)) (d.first.add B before)).eraseBack dist

def insert (pos : Iterator) (vals : List Bool) : Bitdeque B :=
  let before := (pos.sub B d.first).toNat
  let d := d.insertZeroes before vals.length
  d.copy vals (d.first.add B before)

/-! ### The list of the bits -/

/-- The unused bits at both ends are false, and the words are whole. -/
structure Holds (bits : List Bool) : Prop where
  begin_lt : d.m_pad_begin < B
  end_lt : d.m_pad_end < B
  whole : B ∣ d.m_deque.length
  deque : d.m_deque = replicate d.m_pad_begin false ++ (bits ++ replicate d.m_pad_end false)

namespace Holds

variable {d} {bits front moved gap back : List Bool} {old bit val : Bool}

section Ends

variable (holds : d.Holds bits)

include holds

theorem words_mul : B * d.words = d.m_pad_begin + bits.length + d.m_pad_end := by
  rw [words, Nat.mul_div_cancel' holds.whole, holds.deque]
  simp [Nat.add_assoc]

theorem size_eq : d.size = bits.length := by
  rw [size, Nat.mul_comm, holds.words_mul]
  omega

theorem first_eq : d.first = .pos B d.m_pad_begin :=
  eq_pos (by simp) (by simpa using holds.begin_lt) (by simp)

variable [NeZero B]

theorem first_add (n : Nat) : d.first.add B n = .pos B (d.m_pad_begin + n) := by
  rw [holds.first_eq]
  exact Iterator.add_pos (Int.natCast_add _ _)

theorem last_eq : d.last = .pos B (d.m_pad_begin + bits.length) := by
  have total := holds.words_mul
  rw [last, @eq_pos B (B * d.words) _ _ (by simp) (by simpa using Nat.pos_of_neZero B) (by simp)]
  exact Iterator.add_pos (by omega)

theorem last_sub {p n : Nat} (isP : p + n = bits.length) :
    d.last.add B (-n) = .pos B (d.m_pad_begin + p) := by
  rw [holds.last_eq]
  exact Iterator.add_pos (by omega)

end Ends

variable [NeZero B]

theorem read (holds : d.Holds (front ++ bit :: back)) :
    d.read (.pos B (d.m_pad_begin + front.length)) = bit := by
  simp [Bitdeque.read, slot_pos, holds.deque]

theorem write (holds : d.Holds (front ++ old :: back)) :
    (d.write (.pos B (d.m_pad_begin + front.length)) val).Holds (front ++ val :: back) := by
  refine ⟨holds.begin_lt, holds.end_lt, ?_, ?_⟩
  · simpa [Bitdeque.write, slot_pos] using holds.whole
  · simp [Bitdeque.write, slot_pos, holds.deque]

/-- A block moves to the front over a gap, which is behind it afterwards. -/
theorem move (holds : d.Holds (front ++ (gap ++ (moved ++ back)))) :
    ∃ left, left.length = gap.length ∧
      (d.move moved.length (.pos B (d.m_pad_begin + (front.length + gap.length)))
        (.pos B (d.m_pad_begin + front.length))).Holds (front ++ (moved ++ (left ++ back))) := by
  induction moved generalizing d front gap with
  | nil => exact ⟨gap, rfl, holds⟩
  | cons bit moved ih =>
    have reads := @read _ _ (front ++ gap) (moved ++ back) bit _ (by simpa using holds)
    rw [List.length_append] at reads
    rw [List.length_cons, Bitdeque.move, reads, next_pos, next_pos]
    cases gap with
    | nil =>
      have next := @ih _ (front ++ [bit]) [] (by simpa using holds.write)
      simpa [Nat.add_assoc] using next
    | cons old gap =>
      have next := @ih _ (front ++ [bit]) (gap ++ [bit]) (by simpa using holds.write)
      simpa [Nat.add_assoc, Nat.add_comm 1] using next

theorem moveBackward (holds : d.Holds (front ++ (moved ++ (gap ++ back)))) :
    ∃ left, left.length = gap.length ∧
      (d.moveBackward moved.length (.pos B (d.m_pad_begin + (front.length + moved.length)))
        (.pos B (d.m_pad_begin + (front.length + (moved.length + gap.length))))).Holds
          (front ++ (left ++ (moved ++ back))) := by
  induction moved using List.reverseRecOn generalizing d back gap with
  | nil => exact ⟨gap, rfl, holds⟩
  | append_singleton moved bit ih =>
    have reads := @read _ _ (front ++ moved) (gap ++ back) bit _ (by simpa using holds)
    simp only [List.length_append, List.length_singleton, Nat.add_right_comm _ 1,
      ← Nat.add_assoc] at reads ⊢
    rw [Bitdeque.moveBackward, prev_pos, prev_pos, reads]
    cases gap using List.reverseRecOn with
    | nil =>
      have writes := @write _ _ (front ++ moved) back bit bit _ (by simpa using holds)
      have next := @ih _ [] (bit :: back) (by simpa using writes)
      simpa [Nat.add_assoc] using next
    | append_singleton gap old =>
      have writes := @write _ _ (front ++ (moved ++ bit :: gap)) back old bit _
        (by simpa using holds)
      have next := @ih _ (bit :: gap) (bit :: back) (by simpa using writes)
      simpa [Nat.add_assoc] using next

theorem copy {vals olds : List Bool} (holds : d.Holds (front ++ (olds ++ back)))
    (sameLength : olds.length = vals.length) :
    (d.copy vals (.pos B (d.m_pad_begin + front.length))).Holds (front ++ (vals ++ back)) := by
  induction vals generalizing d front olds with
  | nil => rwa [List.eq_nil_of_length_eq_zero sameLength] at holds
  | cons val vals ih =>
    obtain ⟨old, olds, rfl⟩ := List.exists_cons_of_length_eq_add_one sameLength
    have next := @ih _ (front ++ [val]) olds (by simpa using holds.write)
      (Nat.succ_inj.mp sameLength)
    rw [Bitdeque.copy, next_pos]
    simpa [Nat.add_assoc] using next

/-! #### Both ends -/

variable {kept erased : List Bool}

theorem resetBack (holds : d.Holds (kept ++ erased)) (inWord : erased.length + d.m_pad_end < B) :
    (d.resetBack erased.length).Holds kept := by
  induction erased using List.reverseRecOn generalizing d with
  | nil => simpa [Bitdeque.resetBack] using holds
  | append_singleton erased bit ih =>
    have total := holds.words_mul
    simp only [List.length_append, List.length_singleton] at inWord total ⊢
    have isLast : (⟨d.words - 1, B - 1 - d.m_pad_end⟩ : Iterator) =
        .pos B (d.m_pad_begin + (kept ++ erased).length) :=
      eq_pos (by omega) (by omega) (by rw [Int.mul_sub, List.length_append]; omega)
    have writes := @write _ _ (kept ++ erased) [] bit false _ (by simpa using holds)
    rw [Bitdeque.resetBack, isLast]
    refine ih ⟨writes.begin_lt, by dsimp only; omega, writes.whole, ?_⟩ (by dsimp only; omega)
    simpa [List.replicate_succ, Bitdeque.write] using writes.deque

theorem resetFront (holds : d.Holds (erased ++ kept))
    (inWord : erased.length + d.m_pad_begin < B) : (d.resetFront erased.length).Holds kept := by
  induction erased generalizing d with
  | nil => simpa [Bitdeque.resetFront] using holds
  | cons bit erased ih =>
    have isFirst := holds.first_eq
    have writes := @write _ _ [] (erased ++ kept) bit false _ holds
    rw [first] at isFirst
    rw [List.length_cons] at inWord ⊢
    rw [Bitdeque.resetFront, isFirst]
    refine ih ⟨by dsimp only; omega, writes.end_lt, writes.whole, ?_⟩ (by dsimp only; omega)
    simpa [List.replicate_succ'] using writes.deque

omit [NeZero B] in
private theorem round_up (n : Nat) : (1 + n / B) * B + n % B = B + n ∧ n % B ≤ n := by
  rw [Nat.mul_comm, Nat.mul_add, Nat.mul_one, Nat.add_assoc, Nat.div_add_mod]
  exact ⟨rfl, Nat.mod_le n B⟩

omit [NeZero B] in
private theorem exists_append {n : Nat} (low : n ≤ bits.length) :
    ∃ front back, bits = front ++ back ∧ front.length = n :=
  ⟨_, _, (List.take_append_drop n bits).symm, List.length_take_of_le low⟩

theorem eraseBack (holds : d.Holds (kept ++ erased)) :
    (d.eraseBack erased.length).Holds kept := by
  have endLt := holds.end_lt
  unfold Bitdeque.eraseBack
  split_ifs with words
  · dsimp only
    generalize isN : erased.length - (B - d.m_pad_end) = n
    have rounded := @round_up B n
    obtain ⟨rest, gone, rfl, isRest⟩ := exists_append (show n % B ≤ erased.length by omega)
    have total := holds.words_mul
    simp only [List.length_append] at total isN words
    have isLength : (d.words - (1 + n / B)) * B =
        (replicate d.m_pad_begin false ++ (kept ++ rest)).length := by
      rw [Nat.sub_mul, Nat.mul_comm d.words]
      simp
      omega
    have isTaken : d.m_deque.take ((d.words - (1 + n / B)) * B) =
        replicate d.m_pad_begin false ++ (kept ++ rest) := by
      rw [isLength, show d.m_deque = _ ++ (kept ++ rest) ++ (gone ++ _) by simpa using holds.deque,
        List.take_left]
    rw [← isRest]
    refine resetBack ⟨holds.begin_lt, Nat.pos_of_neZero B, ?_, by simpa using isTaken⟩ ?_
    · rw [isTaken, ← isLength]
      exact Nat.dvd_mul_left B _
    · simpa [isRest] using Nat.mod_lt n (Nat.pos_of_neZero B)
  · exact holds.resetBack (by omega)

theorem eraseFront (holds : d.Holds (erased ++ kept)) :
    (d.eraseFront erased.length).Holds kept := by
  have beginLt := holds.begin_lt
  unfold Bitdeque.eraseFront
  split_ifs with words
  · dsimp only
    generalize isN : erased.length - (B - d.m_pad_begin) = n
    have rounded := @round_up B n
    obtain ⟨gone, rest, rfl, isGone⟩ :=
      exists_append (Nat.sub_le erased.length (n % B))
    simp only [List.length_append] at isN isGone words
    have isRest : rest.length = n % B := by omega
    have isDropped : d.m_deque.drop ((1 + n / B) * B) =
        rest ++ (kept ++ replicate d.m_pad_end false) := by
      rw [show (1 + n / B) * B = d.m_pad_begin + gone.length by omega, holds.deque]
      simp [← List.drop_drop]
    rw [← isRest]
    refine resetFront ⟨Nat.pos_of_neZero B, holds.end_lt, ?_, by simpa using isDropped⟩ ?_
    · simpa using Nat.dvd_sub holds.whole (Nat.dvd_mul_left _ _)
    · simpa [isRest] using Nat.mod_lt n (Nat.pos_of_neZero B)
  · exact holds.resetFront (by omega)

section Extension

variable (holds : d.Holds bits) (n : Nat)

include holds

theorem extendBack : (d.extendBack n).Holds (bits ++ replicate n false) := by
  have endLt := holds.end_lt
  unfold Bitdeque.extendBack
  split_ifs with words
  · have rounded := @round_up B (n - (d.m_pad_end + 1))
    have small := Nat.mod_lt (n - (d.m_pad_end + 1)) (Nat.pos_of_neZero B)
    refine ⟨holds.begin_lt, by dsimp only; omega, ?_, ?_⟩
    · simpa using (Nat.dvd_add_right holds.whole).mpr (Nat.dvd_mul_left _ _)
    · simp [holds.deque]
      omega
  · refine ⟨holds.begin_lt, by dsimp only; omega, holds.whole, ?_⟩
    simp [holds.deque, Nat.add_sub_cancel' (Nat.le_of_not_lt words)]

theorem extendFront : (d.extendFront n).Holds (replicate n false ++ bits) := by
  have beginLt := holds.begin_lt
  unfold Bitdeque.extendFront
  split_ifs with words
  · have rounded := @round_up B (n - (d.m_pad_begin + 1))
    have small := Nat.mod_lt (n - (d.m_pad_begin + 1)) (Nat.pos_of_neZero B)
    refine ⟨by dsimp only; omega, holds.end_lt, ?_, ?_⟩
    · simpa using (Nat.dvd_add_left holds.whole).mpr (Nat.dvd_mul_left _ _)
    · simp [holds.deque, ← List.append_assoc]
      omega
  · refine ⟨by dsimp only; omega, holds.end_lt, holds.whole, ?_⟩
    simp [holds.deque, ← List.append_assoc, Nat.sub_add_cancel (Nat.le_of_not_lt words)]

end Extension

theorem insertZeroes (holds : d.Holds (front ++ back)) (count : Nat) :
    ∃ left, left.length = count ∧
      (d.insertZeroes front.length count).Holds (front ++ (left ++ back)) := by
  unfold Bitdeque.insertZeroes
  dsimp only
  rw [holds.size_eq, List.length_append, Nat.add_sub_cancel_left]
  split_ifs
  · have holds := holds.extendFront count
    have moves := @move _ _ [] front _ back _ holds
    rw [holds.first_add, holds.first_eq]
    simpa using moves
  · have holds := holds.extendBack count
    have moves := @moveBackward _ _ front back _ [] _ (by simpa using holds)
    rw [← Int.natCast_add, holds.first_add, holds.last_eq]
    simpa using moves

section Middle

variable (holds : d.Holds bits) (p q : Nat)

include holds

private theorem add_sub_first : ((d.first.add B p).sub B d.first).toNat = p := by
  rw [holds.first_add, holds.first_eq, sub_pos_pos]
  omega

theorem add_sub_add : ((d.first.add B (p + q : Nat)).sub B (d.first.add B p)).toNat = q := by
  rw [holds.first_add, holds.first_add, sub_pos_pos]
  omega

end Middle

theorem insert {vals : List Bool} (holds : d.Holds (front ++ back)) :
    (d.insert (d.first.add B front.length) vals).Holds (front ++ (vals ++ back)) := by
  unfold Bitdeque.insert
  dsimp only
  rw [holds.add_sub_first]
  obtain ⟨left, sameLength, holds⟩ := holds.insertZeroes vals.length
  rw [holds.first_add]
  exact holds.copy sameLength

theorem erase (holds : d.Holds (front ++ (erased ++ back))) :
    (d.erase (d.first.add B front.length)
      (d.first.add B (front.length + erased.length : Nat))).Holds (front ++ back) := by
  have after : (d.last.sub B (d.first.add B (front.length + erased.length : Nat))).toNat =
      back.length := by
    rw [holds.first_add, holds.last_eq, sub_pos_pos]
    simp only [List.length_append]
    omega
  unfold Bitdeque.erase
  dsimp only
  rw [holds.add_sub_first, holds.add_sub_add, after, holds.first_add,
    holds.last_sub (by simp [Nat.add_assoc] : front.length + erased.length + back.length = _)]
  split_ifs
  · obtain ⟨left, sameLength, moved⟩ := @moveBackward _ _ [] front erased back _ holds
    rw [← sameLength]
    exact eraseFront (by simpa [sameLength] using moved)
  · obtain ⟨left, sameLength, moved⟩ := @move _ _ front back erased [] _ (by simpa using holds)
    rw [← sameLength]
    exact eraseBack (by simpa [sameLength] using moved)

theorem assign (count : Nat) (val : Bool) :
    (assign count val : Bitdeque B).Holds (replicate count val) := by
  have positive := Nat.pos_of_neZero B
  have parts := Nat.div_add_mod count B
  have small := Nat.mod_lt count positive
  have isLength : (count + B - 1) / B * B =
      count + if count % B ≠ 0 then B - count % B else 0 := by
    rw [show count + B - 1 = B * (count / B) + (count % B + B - 1) by omega,
      Nat.mul_add_div positive, Nat.mul_comm, Nat.mul_add]
    split_ifs
    · rw [show count % B + B - 1 = count % B - 1 + B by omega, Nat.add_div_right _ positive,
        Nat.div_eq_of_lt (show count % B - 1 < B by omega)]
      omega
    · rw [Nat.div_eq_of_lt (show count % B + B - 1 < B by omega)]
      omega
  have full : (⟨replicate ((count + B - 1) / B * B) val, 0, 0⟩ : Bitdeque B).Holds
      (replicate ((count + B - 1) / B * B) val) :=
    ⟨positive, positive, by simpa using Nat.dvd_mul_left B _, by simp⟩
  unfold Bitdeque.assign
  dsimp only
  split_ifs at isLength ⊢
  · rw [isLength, ← List.replicate_append_replicate] at full ⊢
    simpa using full.eraseBack
  · rw [isLength] at full ⊢
    exact full

theorem assignList (ilist : List Bool) : (assignList ilist : Bitdeque B).Holds ilist := by
  have holds := @assign B _ ilist.length false
  have copied := @copy _ _ [] [] _ ilist _ (by simpa using holds) (by simp)
  simpa [Bitdeque.assignList, holds.first_eq] using copied

theorem pushBack (holds : d.Holds bits) (val : Bool) : (d.pushBack val).Holds (bits ++ [val]) := by
  have holds := holds.extendBack 1
  have isBack : (d.extendBack 1).last.add B (-1) = _ :=
    holds.last_sub (by simp : bits.length + 1 = _)
  unfold Bitdeque.pushBack
  dsimp only
  rw [isBack]
  exact holds.write

theorem pushFront (holds : d.Holds bits) (val : Bool) : (d.pushFront val).Holds (val :: bits) := by
  have holds := holds.extendFront 1
  unfold Bitdeque.pushFront
  dsimp only
  rw [holds.first_eq]
  exact @write _ _ [] bits false val _ holds

end Holds

inductive Operation where
  | pushBack (val : Bool)
  | pushFront (val : Bool)
  | popBack
  | popFront
  | resize (n : Nat)
  | assign (count : Nat) (val : Bool)
  | assignList (ilist : List Bool)
  | insert (before : Nat) (vals : List Bool)
  | erase (start stop : Nat)

def perform (d : Bitdeque B) : Operation → Bitdeque B
  | .pushBack val => d.pushBack val
  | .pushFront val => d.pushFront val
  | .popBack => d.eraseBack 1
  | .popFront => d.eraseFront 1
  | .resize n => d.resize n
  | .assign count val => .assign count val
  | .assignList ilist => .assignList ilist
  | .insert before vals => d.insert (d.first.add B before) vals
  | .erase start stop => d.erase (d.first.add B start) (d.first.add B stop)

/-- What `std::deque` asks of each operation. -/
def Legal (bits : List Bool) : Operation → Prop
  | .popBack | .popFront => bits ≠ []
  | .insert before _ => before ≤ bits.length
  | .erase start stop => start ≤ stop ∧ stop ≤ bits.length
  | _ => True

def performList (bits : List Bool) : Operation → List Bool
  | .pushBack val => bits ++ [val]
  | .pushFront val => val :: bits
  | .popBack => bits.dropLast
  | .popFront => bits.tail
  | .resize n => bits.take n ++ replicate (n - bits.length) false
  | .assign count val => replicate count val
  | .assignList ilist => ilist
  | .insert before vals => bits.take before ++ (vals ++ bits.drop before)
  | .erase start stop => bits.take start ++ bits.drop stop

/-- `at`, which throws out of range. -/
def get (position : Nat) : Option Bool :=
  if position ≥ d.size then none else some (d.read (d.first.add B position))

variable {d} [NeZero B] {bits : List Bool}

namespace Holds

variable (holds : d.Holds bits)

include holds

theorem perform {operation : Operation} (legal : Legal bits operation) :
    (d.perform operation).Holds (performList bits operation) := by
  cases operation with
  | pushBack val => exact holds.pushBack val
  | pushFront val => exact holds.pushFront val
  | popBack =>
    cases bits using List.reverseRecOn with
    | nil => cases legal rfl
    | append_singleton bits bit =>
      rw [performList, List.dropLast_concat]
      exact holds.eraseBack
  | popFront =>
    cases bits with
    | nil => cases legal rfl
    | cons bit bits => exact @eraseFront _ _ _ bits [bit] holds
  | resize n =>
    rw [Bitdeque.perform, resize, performList, holds.size_eq]
    split_ifs with shorter
    · obtain ⟨front, back, rfl, rfl⟩ := exists_append (Nat.le_of_lt shorter)
      simpa using holds.eraseBack
    · simpa [List.take_of_length_le (Nat.le_of_not_lt shorter)] using holds.extendBack _
  | assign count val => exact assign count val
  | assignList ilist => exact assignList ilist
  | insert before vals =>
    obtain ⟨front, back, rfl, rfl⟩ := exists_append legal
    simpa [performList, Bitdeque.perform] using holds.insert
  | erase start stop =>
    obtain ⟨front, back, rfl, rfl⟩ := exists_append legal.2
    obtain ⟨front, erased, rfl, rfl⟩ := exists_append legal.1
    simpa [performList, Bitdeque.perform] using erase (by simpa using holds)

theorem run {operations : List Operation} (legal : Run.Along performList Legal bits operations) :
    (Run.run Bitdeque.perform d operations).Holds (Run.run performList bits operations) := by
  induction operations generalizing d bits with
  | nil => exact holds
  | cons operation operations ih => exact ih (holds.perform legal.1) legal.2

theorem get_eq (position : Nat) : d.get position = bits[position]? := by
  rw [get, holds.size_eq]
  split_ifs with outside
  · exact (List.getElem?_eq_none outside).symm
  · obtain ⟨front, back, rfl, rfl⟩ := exists_append (Nat.le_of_not_le outside)
    rcases back with _ | ⟨bit, back⟩
    · simp at outside
    · rw [holds.first_add, holds.read]
      simp

end Holds

/-- After any legal operations the container reads as the list does, and its unused bits are
false. -/
theorem reads_as_list {operations : List Operation}
    (legal : Run.Along performList Legal [] operations) :
    let d := Run.run perform ({} : Bitdeque B) operations
    let bits := Run.run performList [] operations
    (d.size = bits.length ∧ ∀ position, d.get position = bits[position]?) ∧ d.Holds bits := by
  have positive := Nat.pos_of_neZero B
  have initially : ({} : Bitdeque B).Holds [] := ⟨positive, positive, Nat.dvd_zero B, rfl⟩
  have holds := initially.run legal
  exact ⟨⟨holds.size_eq, holds.get_eq⟩, holds⟩

/-- Words of three bits. -/
theorem reads_as_list_of_three :
    (Run.run perform ({} : Bitdeque 3) [.assignList [true, false, true, true],
      .insert 1 [true, true], .popFront, .erase 1 3, .resize 4]).get 3 = some false :=
  (reads_as_list (by simp [Run.Along, Legal, performList])).1.2 3

end Bitdeque
end Adonai
