/-
Regrouping a string of bits, from values of one width to values of another.

`regroup` reads values and keeps the bits that do not fill a group yet in an accumulator.
What it has written and what it still holds are together the bits that it has read.
-/

import Mathlib.Data.List.Induction
import Mathlib.Data.Nat.Bitwise

namespace Adonai.BitGroups

/-- The low bits of a value, most significant first. -/
def bitsOf : (width : Nat) → (value : Nat) → List Bool
  | 0, _ => []
  | width + 1, value => value.testBit width :: bitsOf width value

theorem length_bitsOf (width value : Nat) : (bitsOf width value).length = width := by
  induction width with
  | zero => rfl
  | succ width ih => rw [bitsOf, List.length_cons, ih]

variable {width left right : Nat}

theorem bitsOf_congr (same : ∀ i < width, left.testBit i = right.testBit i) :
    bitsOf width left = bitsOf width right := by
  induction width with
  | zero => rfl
  | succ width ih =>
    rw [bitsOf, bitsOf, same width (Nat.lt_succ_self width),
      ih fun i less => same i (Nat.lt_succ_of_lt less)]

theorem bitsOf_add (high low value : Nat) :
    bitsOf (high + low) value = bitsOf high (value >>> low) ++ bitsOf low value := by
  induction high with
  | zero => rw [Nat.zero_add, bitsOf, List.nil_append]
  | succ high ih =>
    rw [Nat.succ_add, bitsOf, ih, bitsOf, Nat.testBit_shiftRight, Nat.add_comm low high,
      List.cons_append]

theorem bitsOf_zero (width : Nat) : bitsOf width 0 = List.replicate width false := by
  induction width with
  | zero => rfl
  | succ width ih => rw [bitsOf, ih, Nat.zero_testBit, List.replicate_succ]

theorem testBit_of_bitsOf_eq (same : bitsOf width left = bitsOf width right)
    {i : Nat} (less : i < width) : left.testBit i = right.testBit i := by
  induction width with
  | zero => exact absurd less (Nat.not_lt_zero i)
  | succ width ih =>
    rw [bitsOf, bitsOf, List.cons.injEq] at same
    rcases Nat.lt_succ_iff_lt_or_eq.mp less with below | top
    · exact ih same.2 below
    · rw [top]
      exact same.1

theorem bitsOf_injective (leftSmall : left < 2 ^ width)
    (rightSmall : right < 2 ^ width) (same : bitsOf width left = bitsOf width right) :
    left = right := by
  apply Nat.eq_of_testBit_eq
  intro i
  rcases Nat.lt_or_ge i width with less | above
  · exact testBit_of_bitsOf_eq same less
  · have bound := Nat.pow_le_pow_right (by decide : 0 < 2) above
    rw [Nat.testBit_lt_two_pow (leftSmall.trans_le bound),
      Nat.testBit_lt_two_pow (rightSmall.trans_le bound)]

def allBits (width : Nat) (values : List Nat) : List Bool := values.flatMap (bitsOf width)

theorem allBits_append (width : Nat) (front back : List Nat) :
    allBits width (front ++ back) = allBits width front ++ allBits width back :=
  List.flatMap_append

theorem allBits_singleton (width value : Nat) : allBits width [value] = bitsOf width value :=
  List.flatMap_singleton ..

theorem allBits_cons (width value : Nat) (values : List Nat) :
    allBits width (value :: values) = bitsOf width value ++ allBits width values :=
  List.flatMap_cons

theorem length_allBits (width : Nat) (values : List Nat) :
    (allBits width values).length = values.length * width := by
  induction values with
  | nil => rw [List.length_nil, Nat.zero_mul]; rfl
  | cons value values ih =>
    rw [allBits_cons, List.length_append, ih, length_bitsOf, List.length_cons, Nat.succ_mul,
      Nat.add_comm]

theorem allBits_injective {width : Nat} {left right : List Nat}
    (leftSmall : ∀ value ∈ left, value < 2 ^ width)
    (rightSmall : ∀ value ∈ right, value < 2 ^ width) (length : left.length = right.length)
    (same : allBits width left = allBits width right) : left = right := by
  induction left generalizing right with
  | nil => exact (List.length_eq_zero_iff.mp length.symm).symm
  | cons first left ih =>
    cases right with
    | nil => cases length
    | cons second right => ?_
    have sameLength : (bitsOf width first).length = (bitsOf width second).length := by
      rw [length_bitsOf, length_bitsOf]
    obtain ⟨head, tail⟩ := List.append_inj same sameLength
    rw [bitsOf_injective (leftSmall first List.mem_cons_self)
        (rightSmall second List.mem_cons_self) head,
      ih (fun value member => leftSmall value (List.mem_cons_of_mem _ member))
        (fun value member => rightSmall value (List.mem_cons_of_mem _ member))
        (Nat.succ.inj length) tail]

structure Regrouping where
  acc : Nat
  bits : Nat
  out : List Nat
  deriving DecidableEq, Repr

def emit (tobits : Nat) : (fuel : Nat) → Regrouping → Regrouping
  | 0, state => state
  | fuel + 1, state =>
    if tobits ≤ state.bits then
      let bits := state.bits - tobits
      emit tobits fuel
        { state with
          bits := bits
          out := state.out ++ [(state.acc >>> bits) &&& (2 ^ tobits - 1)] }
    else state

def readValue (frombits tobits : Nat) (state : Regrouping) (value : Nat) : Regrouping :=
  emit tobits (state.bits + frombits)
    { acc := (state.acc <<< frombits ||| value) &&& (2 ^ (frombits + tobits - 1) - 1)
      bits := state.bits + frombits
      out := state.out }

def readAll (frombits tobits : Nat) (values : List Nat) : Regrouping :=
  values.foldl (readValue frombits tobits) ⟨0, 0, []⟩

/-- The groups written, and whether the input ends as it should: the bits that are left are
written with zeros after them, or else they must be fewer than a value has and all zero. -/
def regroup (frombits tobits : Nat) (pad : Bool) (values : List Nat) : List Nat × Bool :=
  let state := readAll frombits tobits values
  let left := (state.acc <<< (tobits - state.bits)) &&& (2 ^ tobits - 1)
  if pad then (if state.bits ≠ 0 then state.out ++ [left] else state.out, true)
  else (state.out, !(decide (state.bits ≥ frombits) || left != 0))

/-- What is written and what is held are the bits that were read. -/
structure Holds (frombits tobits : Nat) (values : List Nat) (state : Regrouping) : Prop where
  bits : allBits tobits state.out ++ bitsOf state.bits state.acc = allBits frombits values
  small : ∀ value ∈ state.out, value < 2 ^ tobits

variable {frombits tobits : Nat} {values : List Nat} {state : Regrouping}

theorem and_mask_lt (value width : Nat) : value &&& (2 ^ width - 1) < 2 ^ width := by
  rw [Nat.and_two_pow_sub_one_eq_mod]
  exact Nat.mod_lt _ (Nat.two_pow_pos width)

theorem small_append {out : List Nat} (small : ∀ value ∈ out, value < 2 ^ tobits) (last : Nat) :
    ∀ value ∈ out ++ [last &&& (2 ^ tobits - 1)], value < 2 ^ tobits :=
  List.forall_mem_append.mpr ⟨small, List.forall_mem_singleton.mpr (and_mask_lt _ _)⟩

theorem bitsOf_and_mask {width size : Nat} (value : Nat) (le : size ≤ width) :
    bitsOf size (value &&& (2 ^ width - 1)) = bitsOf size value := by
  apply bitsOf_congr
  intro i less
  have inside : i < width := less.trans_le le
  rw [Nat.testBit_and, Nat.testBit_two_pow_sub_one, decide_eq_true inside, Bool.and_true]

theorem emit_holds (positive : 0 < tobits) (fuel : Nat) (enough : state.bits ≤ fuel)
    (holds : Holds frombits tobits values state) :
    Holds frombits tobits values (emit tobits fuel state) ∧
      (emit tobits fuel state).bits < tobits := by
  induction fuel generalizing state with
  | zero =>
    refine ⟨holds, ?_⟩
    rw [emit, Nat.le_zero.mp enough]
    exact positive
  | succ fuel ih =>
    unfold emit
    split
    case isFalse few => exact ⟨holds, Nat.not_le.mp few⟩
    case isTrue group =>
      apply ih
      · change state.bits - tobits ≤ fuel
        omega
      · have split : state.bits = tobits + (state.bits - tobits) := by omega
        constructor
        case bits =>
          have whole := holds.bits
          rw [split, bitsOf_add] at whole
          rw [allBits_append, allBits_singleton, bitsOf_and_mask _ (Nat.le_refl tobits),
            List.append_assoc]
          exact whole
        case small => exact small_append holds.small _

theorem readValue_holds (positive : 0 < tobits) {value : Nat} (isValue : value < 2 ^ frombits)
    (holds : Holds frombits tobits values state) (few : state.bits < tobits) :
    Holds frombits tobits (values ++ [value]) (readValue frombits tobits state value) ∧
      (readValue frombits tobits state value).bits < tobits := by
  apply emit_holds positive
  case enough => exact Nat.le_refl _
  constructor
  case small => exact holds.small
  case bits =>
    have wide : state.bits + frombits ≤ frombits + tobits - 1 := by omega
    have high : bitsOf state.bits ((state.acc <<< frombits ||| value) >>> frombits) =
        bitsOf state.bits state.acc := by
      apply bitsOf_congr
      intro i _
      have above : value.testBit (frombits + i) = false :=
        Nat.testBit_lt_two_pow (isValue.trans_le
          (Nat.pow_le_pow_right (by decide) (Nat.le_add_right _ _)))
      rw [Nat.testBit_shiftRight, Nat.testBit_or, above, Bool.or_false, Nat.testBit_shiftLeft,
        Nat.add_sub_cancel_left, decide_eq_true (Nat.le_add_right _ _), Bool.true_and]
    have low : bitsOf frombits (state.acc <<< frombits ||| value) = bitsOf frombits value := by
      apply bitsOf_congr
      intro i less
      rw [Nat.testBit_or, Nat.testBit_shiftLeft, decide_eq_false (Nat.not_le.mpr less),
        Bool.false_and, Bool.false_or]
    rw [bitsOf_and_mask _ wide, bitsOf_add, high, low, ← List.append_assoc, holds.bits,
      allBits_append, allBits_singleton]

theorem readAll_holds (positive : 0 < tobits) (values : List Nat)
    (small : ∀ value ∈ values, value < 2 ^ frombits) :
    Holds frombits tobits values (readAll frombits tobits values) ∧
      (readAll frombits tobits values).bits < tobits := by
  induction values using List.reverseRecOn with
  | nil =>
    refine ⟨⟨rfl, ?_⟩, positive⟩
    intro value impossible
    cases impossible
  | append_singleton values value ih =>
    obtain ⟨holds, few⟩ := ih fun earlier member => small earlier (List.mem_append_left _ member)
    have isValue := small value (List.mem_append_right _ List.mem_cons_self)
    rw [readAll, List.foldl_append]
    exact readValue_holds positive isValue holds few

theorem bitsOf_left (few : state.bits ≤ tobits) :
    bitsOf tobits ((state.acc <<< (tobits - state.bits)) &&& (2 ^ tobits - 1)) =
      bitsOf state.bits state.acc ++ List.replicate (tobits - state.bits) false := by
  rw [bitsOf_and_mask _ (Nat.le_refl tobits)]
  obtain ⟨zeros, rfl⟩ := Nat.exists_eq_add_of_le few
  rw [Nat.add_sub_cancel_left, bitsOf_add, Nat.shiftLeft_shiftRight, ← bitsOf_zero]
  congr 1
  apply bitsOf_congr
  intro i less
  rw [Nat.testBit_shiftLeft, decide_eq_false (Nat.not_le.mpr less), Bool.false_and,
    Nat.zero_testBit]

theorem regroup_padded (positive : 0 < tobits) (values : List Nat)
    (small : ∀ value ∈ values, value < 2 ^ frombits) :
    ∃ out zeros, regroup frombits tobits true values = (out, true) ∧ zeros < tobits ∧
      allBits tobits out = allBits frombits values ++ List.replicate zeros false ∧
      ∀ value ∈ out, value < 2 ^ tobits := by
  obtain ⟨holds, few⟩ := readAll_holds positive values small
  unfold regroup
  dsimp only
  set state := readAll frombits tobits values
  by_cases nothing : state.bits = 0
  · rw [if_neg (not_not_intro nothing)]
    have whole := holds.bits
    rw [nothing, bitsOf, List.append_nil] at whole
    refine ⟨state.out, 0, rfl, positive, ?_, holds.small⟩
    rw [List.replicate_zero, List.append_nil]
    exact whole
  · rw [if_pos nothing]
    refine ⟨_, tobits - state.bits, rfl, by omega, ?_, ?_⟩
    · rw [allBits_append, allBits_singleton, bitsOf_left few.le, ← List.append_assoc, holds.bits]
    · exact small_append holds.small _

private theorem groups_unique {width left right rest rest' : Nat} (few : rest < width)
    (few' : rest' < width) (same : left * width + rest = right * width + rest') :
    left = right ∧ rest = rest' := by
  have quotients := congrArg (· / width) same
  have rests := congrArg (· % width) same
  simp only [Nat.mul_comm _ width, Nat.mul_add_mod, Nat.mul_add_div (Nat.zero_lt_of_lt few),
    Nat.div_eq_of_lt, Nat.mod_eq_of_lt, few, few'] at quotients rests
  exact ⟨quotients, rests⟩

theorem regroup_back (narrow : tobits ≤ frombits) (positive : 0 < tobits) (values : List Nat)
    (small : ∀ value ∈ values, value < 2 ^ frombits) :
    ∃ out, regroup frombits tobits true values = (out, true) ∧
      regroup tobits frombits false out = (values, true) ∧ (∀ value ∈ out, value < 2 ^ tobits) ∧
      out.length * tobits < values.length * frombits + tobits := by
  obtain ⟨out, zeros, pads, fewZeros, bits, outSmall⟩ := regroup_padded positive values small
  have size := congrArg List.length bits
  rw [List.length_append, length_allBits, length_allBits, List.length_replicate] at size
  refine ⟨out, pads, ?_, outSmall, by omega⟩
  obtain ⟨holds, few⟩ := readAll_holds (positive.trans_le narrow) out outSmall
  unfold regroup
  dsimp only
  set state := readAll tobits frombits out
  have whole := holds.bits
  rw [bits] at whole
  have lengths := congrArg List.length whole
  rw [List.length_append, List.length_append, length_allBits, length_allBits, length_bitsOf,
    List.length_replicate] at lengths
  obtain ⟨count, held⟩ := groups_unique few (fewZeros.trans_le narrow) lengths
  have sameLength : (allBits frombits state.out).length = (allBits frombits values).length := by
    rw [length_allBits, length_allBits, count]
  obtain ⟨sameBits, restBits⟩ := List.append_inj whole sameLength
  have written : state.out = values := allBits_injective holds.small small count sameBits
  have zeroLeft : (state.acc <<< (frombits - state.bits)) &&& (2 ^ frombits - 1) = 0 := by
    apply bitsOf_injective (and_mask_lt _ _) (Nat.two_pow_pos frombits)
    rw [bitsOf_left few.le, restBits, bitsOf_zero, List.replicate_append_replicate]
    congr 1
    omega
  have short : ¬state.bits ≥ tobits := by omega
  rw [written, zeroLeft, decide_eq_false short]
  rfl

/-- An accepted list ends in fewer zeros than a value has, and padding writes as many. -/
theorem regroup_forth (narrow : frombits ≤ tobits) (positive : 0 < frombits)
    (small : ∀ value ∈ values, value < 2 ^ frombits) {out : List Nat}
    (accepted : regroup frombits tobits false values = (out, true)) :
    regroup tobits frombits true out = (values, true) := by
  obtain ⟨holds, few⟩ := readAll_holds (positive.trans_le narrow) values small
  have whole := holds.bits
  have left := bitsOf_left few.le
  simp only [regroup, Bool.false_eq_true, if_false, Prod.mk.injEq, Bool.not_eq_true',
    Bool.or_eq_false_iff, decide_eq_false_iff_not, bne_eq_false_iff_eq] at accepted
  obtain ⟨rfl, short, zeroLeft⟩ := accepted
  rw [zeroLeft, bitsOf_zero, eq_comm, List.append_eq_replicate_iff, length_bitsOf] at left
  obtain ⟨words, zeros, pads, fewZeros, bits, wordsSmall⟩ := regroup_padded positive _ holds.small
  rw [left.2.1] at whole
  have lengths := congrArg List.length whole
  have wordLengths := congrArg List.length bits
  rw [List.length_append, length_allBits, length_allBits, List.length_replicate]
    at lengths wordLengths
  obtain ⟨count, held⟩ := groups_unique (Nat.not_le.mp short) fewZeros
    (by omega : words.length * frombits + _ = values.length * frombits + zeros)
  rw [held, ← bits] at whole
  rw [pads, allBits_injective wordsSmall small count whole]

end Adonai.BitGroups
