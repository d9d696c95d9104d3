/-
Errors in Bech32 strings.

The remainder is linear in exclusive or, so that what errors leave of it is the sum of what each
leaves alone. Up to three errors leave something.
-/

import Adonai.Util.Bech32
import Mathlib.Data.List.Nodup

namespace Adonai.Bech32

open BitGroups

/-- What is left of an error after a number of right symbols. -/
def trace (error : Nat) : Nat → Nat
  | 0 => error
  | gap + 1 => polyModStep (trace error gap) 0

/-- Compares the bits of values, which are all different if this holds. -/
def apart : Nat → List Nat → Bool
  | 0, values => decide (values.length ≤ 1)
  | bit + 1, values => decide (values.length ≤ 1) ||
    apart bit (values.filter (·.testBit bit)) && apart bit (values.filter (! ·.testBit bit))

theorem count_le_of_apart {bit : Nat} {values : List Nat} (differ : apart bit values = true)
    (value : Nat) : values.count value ≤ 1 := by
  induction bit generalizing values with
  | zero => exact List.count_le_length.trans (of_decide_eq_true differ)
  | succ bit ih =>
    rw [apart, Bool.or_eq_true, Bool.and_eq_true, decide_eq_true_eq] at differ
    rcases differ with short | ⟨set, clear⟩
    · exact List.count_le_length.trans short
    cases has : value.testBit bit with
    | true =>
      rw [← List.count_filter (p := (·.testBit bit)) has]
      exact ih set
    | false =>
      rw [← List.count_filter (p := (! ·.testBit bit)) (congrArg not has)]
      exact ih clear

/-- Errors before the last symbol of a string. -/
def places : List (Nat × Nat) := (List.range' 1 31).product (List.range' 1 88)

private theorem traces_nodup : (0 :: places.map fun (error, gap) => trace error gap >>> 5).Nodup :=
  List.nodup_iff_count_le_one.mpr (@count_le_of_apart 25 _ (by decide +kernel))

private theorem polyModStep_split (c v_i : Nat) : polyModStep c v_i = polyModStep c 0 ^^^ v_i := by
  have split := polyModStep_xor c 0 0 v_i
  rw [Nat.xor_zero, Nat.zero_xor, @polyModStep_of_small 0 (by decide), Nat.zero_shiftLeft,
    Nat.zero_xor] at split
  exact split

theorem eq_zero_of_polyModStep {c : Nat} (small : c < 2 ^ 30) (zero : polyModStep c 0 = 0) :
    c = 0 := by
  have top : ∀ high < 32, polyModStep (high <<< 25) 0 % 32 = 0 → high = 0 := by decide +kernel
  have split := polyModStep_xor ((c >>> 25) <<< 25) (c &&& (2 ^ 25 - 1)) 0 0
  rw [shift_xor_low 25, Nat.xor_zero, zero, polyModStep_of_small (and_mask_lt c 25),
    Nat.xor_zero] at split
  have same := Nat.xor_eq_zero_iff.mp split.symm
  have high : c >>> 25 = 0 := by
    apply top
    · rw [Nat.shiftRight_eq_div_pow]
      omega
    · rw [same, Nat.shiftLeft_eq, Nat.mul_mod_left]
  rw [high, Nat.zero_shiftLeft] at same
  have low : c &&& (2 ^ 25 - 1) = 0 := by
    change 0 = _ at same
    omega
  have whole := shift_xor_low 25 c
  rw [high, low] at whole
  exact whole.symm

/-- What at most `count` errors can leave, with `low` or more symbols after each of them. -/
def Leaves (length : Nat) : Nat → Nat → Nat → Prop
  | 0, _, c => c = 0
  | count + 1, low, c => c = 0 ∨ ∃ error gap rest, (0 < error ∧ error < 32) ∧
    (low ≤ gap ∧ gap < length) ∧ Leaves length count (gap + 1) rest ∧ c = trace error gap ^^^ rest

theorem Leaves.zero (length count low : Nat) : Leaves length count low 0 := by
  cases count with
  | zero => rfl
  | succ count => exact .inl rfl

theorem Leaves.shift {length count low next c : Nat} (leaves : Leaves length count low c)
    (le : next ≤ low + 1) : Leaves (length + 1) count next (polyModStep c 0) := by
  induction count generalizing low next c with
  | zero =>
    rw [show c = 0 from leaves]
    rfl
  | succ count ih =>
    rcases leaves with rfl | ⟨error, gap, rest, isError, ⟨above, below⟩, later, rfl⟩
    · exact .inl rfl
    · refine .inr ⟨error, gap + 1, polyModStep rest 0, isError, ⟨by omega, by omega⟩,
        ih later le_rfl, ?_⟩
      exact polyModStep_xor (trace error gap) rest 0 0

/-- The remainder of a list of errors, the last one first. -/
def remainder (errors : List Nat) : Nat := errors.foldr (fun error c => polyModStep c error) 0

variable {errors : List Nat}

theorem leaves_remainder (small : ∀ error ∈ errors, error < 32) {count : Nat}
    (few : errors.countP (· ≠ 0) ≤ count) : Leaves errors.length count 0 (remainder errors) := by
  induction errors generalizing count with
  | nil => exact .zero _ _ _
  | cons error errors ih =>
    rw [List.forall_mem_cons] at small
    rw [List.countP_cons] at few
    change Leaves _ _ _ (polyModStep (remainder errors) error)
    rw [polyModStep_split]
    by_cases right : error = 0
    · rw [right, Nat.xor_zero]
      exact (ih small.2 (by omega)).shift (Nat.zero_le _)
    · rw [if_pos (decide_eq_true right)] at few
      cases count with
      | zero => omega
      | succ count =>
        refine .inr ⟨error, 0, _, ⟨by omega, small.1⟩, ⟨le_rfl, Nat.succ_pos _⟩,
          (ih small.2 (by omega)).shift le_rfl, Nat.xor_comm _ _⟩

theorem remainder_lt (small : ∀ error ∈ errors, error < 32) : remainder errors < 2 ^ 30 := by
  cases errors with
  | nil => decide
  | cons error errors =>
    exact polyModStep_lt ((small error List.mem_cons_self).trans (by decide))

private theorem mem_places {error gap : Nat} (isError : 0 < error ∧ error < 32)
    (inside : 1 ≤ gap ∧ gap < 89) : (error, gap) ∈ places :=
  List.pair_mem_product.mpr ⟨List.mem_range'_1.mpr isError, List.mem_range'_1.mpr inside⟩

theorem errors_eq_zero (small : ∀ error ∈ errors, error < 32) (short : errors.length ≤ 88)
    (few : errors.countP (· ≠ 0) ≤ 3) (zero : remainder errors = 0) :
    ∀ error ∈ errors, error = 0 := by
  obtain ⟨nonzero, distinct⟩ := List.nodup_cons.mp traces_nodup
  induction errors with
  | nil => exact List.forall_mem_nil _
  | cons error errors ih =>
    rw [List.forall_mem_cons] at small ⊢
    rw [List.length_cons] at short
    rw [List.countP_cons] at few
    change polyModStep (remainder errors) error = 0 at zero
    rw [polyModStep_split, Nat.xor_eq_zero_iff] at zero
    by_cases right : error = 0
    · have before := eq_zero_of_polyModStep (remainder_lt small.2) (zero.trans right)
      exact ⟨right, ih small.2 (by omega) (by omega) before⟩
    rw [if_pos (decide_eq_true right)] at few
    have shifted : polyModStep (remainder errors) 0 >>> 5 = 0 := by
      rw [zero, Nat.shiftRight_eq_div_pow]
      omega
    have leaves := (leaves_remainder small.2 (by omega : _ ≤ 2)).shift (le_refl 1)
    rcases leaves with none_ | ⟨first, gap, rest, isFirst, inside, later, sum⟩
    · exact absurd (zero.symm.trans none_) right
    have place := mem_places isFirst ⟨inside.1, by omega⟩
    rcases later with rfl | ⟨second, other, _, isSecond, above, rfl, rfl⟩
    · rw [sum, Nat.xor_zero] at shifted
      exact absurd (List.mem_map.mpr ⟨_, place, shifted⟩) nonzero
    · rw [sum, Nat.xor_zero, Nat.shiftRight_xor_distrib, Nat.xor_eq_zero_iff] at shifted
      have same := List.inj_on_of_nodup_map distinct place
        (mem_places isSecond ⟨by omega, by omega⟩) shifted
      cases same
      omega

theorem polyMod_of_verifyChecksum {encoding : Encoding} {hrp : List Char} {values : List Nat}
    (checks : verifyChecksum hrp values = some encoding) :
    polyMod (preparePolynomialCoefficients hrp values) = encodingConstant encoding := by
  unfold verifyChecksum at checks
  dsimp only at checks
  split at checks
  next first =>
    cases checks
    exact first
  split at checks
  next second =>
    cases checks
    exact second
  · cases checks

def differences (left right : List Nat) : List Nat :=
  (left.zip right).map fun both => both.1 ^^^ both.2

section

variable {left right : List Nat} (length : left.length = right.length)

include length

theorem foldl_differences (c d : Nat) :
    (differences left right).foldl polyModStep (c ^^^ d) =
      left.foldl polyModStep c ^^^ right.foldl polyModStep d := by
  induction left generalizing right c d with
  | nil =>
    cases right with
    | nil => rfl
    | cons => cases length
  | cons v_i left ih =>
    cases right with
    | nil => cases length
    | cons w_i right =>
      change (differences left right).foldl polyModStep (polyModStep (c ^^^ d) (v_i ^^^ w_i)) = _
      rw [polyModStep_xor]
      exact ih (Nat.succ.inj length) _ _

theorem symbols_eq {encoding : Encoding} {hrp : List Char}
    (leftSmall : ∀ value ∈ left, value < 32) (rightSmall : ∀ value ∈ right, value < 32)
    (short : left.length ≤ 88) (leftChecks : verifyChecksum hrp left = some encoding)
    (rightChecks : verifyChecksum hrp right = some encoding)
    (few : (left.zip right).countP (fun both => both.1 ≠ both.2) ≤ 3) : left = right := by
  obtain ⟨start, starts⟩ : ∃ start, ∀ values,
      polyMod (preparePolynomialCoefficients hrp values) = values.foldl polyModStep start :=
    ⟨_, fun _ => List.foldl_append⟩
  have sum := foldl_differences length start start
  rw [Nat.xor_self, ← starts, ← starts, polyMod_of_verifyChecksum leftChecks,
    polyMod_of_verifyChecksum rightChecks, Nat.xor_self] at sum
  have none_ := @errors_eq_zero (differences left right).reverse ?_ ?_ ?_ ?_
  · calc
      left = (left.zip right).map Prod.fst := (List.map_fst_zip length.le).symm
      _ = (left.zip right).map Prod.snd := by
        apply List.map_congr_left
        intro both member
        have zero := none_ _ (List.mem_reverse.mpr (List.mem_map_of_mem member))
        exact Nat.xor_eq_zero_iff.mp zero
      _ = right := List.map_snd_zip length.ge
  · intro error member
    obtain ⟨both, listed, rfl⟩ := List.mem_map.mp (List.mem_reverse.mp member)
    have inside := List.of_mem_zip listed
    exact Nat.xor_lt_two_pow (n := 5) (leftSmall _ inside.1) (rightSmall _ inside.2)
  · rw [List.length_reverse, differences, List.length_map, List.length_zip]
    omega
  · rw [List.countP_reverse, differences, List.countP_map]
    refine le_of_eq_of_le (List.countP_congr ?_) few
    intro both _
    simp [Nat.xor_eq_zero_iff]
  · rw [remainder, List.foldr_reverse]
    exact sum

end

/-- The symbols after the separator, those of the checksum included. -/
def symbols (str : List Char) : Option (List Nat) := do
  let pos ← rfind SEPARATOR str
  (str.drop (pos + 1)).mapM decodeValue

/-- What is encoded is decoded, and accepted strings with the same prefix and encoding have the
same symbols or differ in more than three. -/
theorem bech32_code :
    (∀ encoding hrp values, (∀ c ∈ hrp, Plain c) → hrp ≠ [] → (∀ value ∈ values, value < 32) →
      hrp.length + 1 + values.length + 6 ≤ CharLimit →
        ∃ str, encode encoding hrp values = some str ∧
          decode str = some ⟨encoding, hrp, values⟩) ∧
    ∀ left right leftDec rightDec leftSymbols rightSymbols,
      decode left = some leftDec → decode right = some rightDec → left.length = right.length →
        leftDec.hrp = rightDec.hrp → leftDec.encoding = rightDec.encoding →
        symbols left = some leftSymbols → symbols right = some rightSymbols →
        (leftSymbols.zip rightSymbols).countP (fun both => both.1 ≠ both.2) ≤ 3 →
          leftSymbols = rightSymbols := by
  constructor
  · intro encoding hrp values plain nonempty small short
    obtain ⟨str, encodes, _, decodes⟩ := decode_encode encoding plain nonempty small short
    exact ⟨str, encodes, decodes⟩
  · intro left right leftDec rightDec leftSymbols rightSymbols decodes decodes' length hrp encoding
      isLeft isRight few
    obtain ⟨pos, values, parts⟩ := decode_parts decodes
    obtain ⟨pos', values', parts'⟩ := decode_parts decodes'
    rw [symbols, parts.found, Option.bind_eq_bind, Option.bind_some, parts.maps] at isLeft
    rw [symbols, parts'.found, Option.bind_eq_bind, Option.bind_some, parts'.maps] at isRight
    cases isLeft
    cases isRight
    obtain ⟨count, small⟩ := mapM_decodeValue_lt parts.maps
    obtain ⟨count', small'⟩ := mapM_decodeValue_lt parts'.maps
    rw [List.length_drop] at count count'
    have same := congrArg List.length hrp
    rw [parts.hrp, parts'.hrp, List.length_map, List.length_map, List.length_take,
      List.length_take] at same
    have inside := parts.inside
    have inside' := parts'.inside
    have fits := parts.fits
    rw [CharLimit] at fits
    exact symbols_eq (by omega) small small' (by omega) parts.checks
      (hrp ▸ encoding ▸ parts'.checks) few

theorem bech32_code_short :
    (∃ str, encode .bech32m ['a'] [4, 31] = some str ∧
      decode str = some ⟨.bech32m, ['a'], [4, 31]⟩) ∧
    ∃ left right, symbols "2142KK52".toList = some left ∧
      symbols "2142kk52".toList = some right ∧ left = right := by
  have upper : decode "2142KK52".toList = some ⟨.bech32, ['2'], []⟩ := by decide +kernel
  have lower : decode "2142kk52".toList = some ⟨.bech32, ['2'], []⟩ := by decide +kernel
  refine ⟨bech32_code.1 _ _ _ (by simp [Plain]) (by decide) (by decide) (by decide),
    [21, 10, 22, 22, 20, 10], [21, 10, 22, 22, 20, 10], by decide +kernel, by decide +kernel, ?_⟩
  exact bech32_code.2 _ _ _ _ _ _ upper lower (by decide +kernel) rfl rfl (by decide +kernel)
    (by decide +kernel) (by decide)

/-- Letters of one case are accepted as those of the other, and an empty prefix never is. -/
theorem accepts_both_cases :
    ("2142kk52".toList.zip "2142KK52".toList).countP (fun both => both.1 ≠ both.2) = 2 ∧
      decode "2142kk52".toList = some ⟨.bech32, ['2'], []⟩ ∧
      decode "2142KK52".toList = some ⟨.bech32, ['2'], []⟩ ∧
      ((encode .bech32 [] []).bind decode) = none := by
  decide +kernel

end Adonai.Bech32
