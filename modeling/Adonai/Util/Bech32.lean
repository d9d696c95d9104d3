/-
Bech32 and Bech32m strings.

A string is a list of characters with codes below 256, data are 5-bit values, and the
invalid encoding of the source is the absence of a result. The remainder in `PolyMod` has 30
bits, so that nothing of it is lost in the source's 32.
-/

import Adonai.Foundation.BitGroups

namespace Adonai.Bech32

open BitGroups

def CHECKSUM_SIZE : Nat := 6

def SEPARATOR : Char := '1'

def CharLimit : Nat := 90

inductive Encoding where
  | bech32
  | bech32m
  deriving DecidableEq, Repr

def CHARSET : List Char :=
  ['q', 'p', 'z', 'r', 'y', '9', 'x', '8', 'g', 'f', '2', 't', 'v', 'd', 'w', '0',
   's', '3', 'j', 'n', '5', '4', 'k', 'h', 'c', 'e', '6', 'm', 'u', 'a', '7', 'l']

def CHARSET_REV : List Int :=
  [-1, -1, -1, -1, -1, -1, -1, -1, -1, -1, -1, -1, -1, -1, -1, -1,
   -1, -1, -1, -1, -1, -1, -1, -1, -1, -1, -1, -1, -1, -1, -1, -1,
   -1, -1, -1, -1, -1, -1, -1, -1, -1, -1, -1, -1, -1, -1, -1, -1,
   15, -1, 10, 17, 21, 20, 26, 30, 7, 5, -1, -1, -1, -1, -1, -1,
   -1, 29, -1, 24, 13, 25, 9, 8, 23, -1, 18, 22, 31, 27, 19, -1,
   1, 0, 3, 16, 11, 28, 12, 14, 6, 4, 2, -1, -1, -1, -1, -1,
   -1, 29, -1, 24, 13, 25, 9, 8, 23, -1, 18, 22, 31, 27, 19, -1,
   1, 0, 3, 16, 11, 28, 12, 14, 6, 4, 2, -1, -1, -1, -1, -1]

def encodingConstant : Encoding → Nat
  | .bech32 => 1
  | .bech32m => 0x2bc830a3

def polyModStep (c v_i : Nat) : Nat :=
  let c0 := c >>> 25
  let c := ((c &&& 0x1ffffff) <<< 5) ^^^ v_i
  let c := if c0 &&& 1 ≠ 0 then c ^^^ 0x3b6a57b2 else c
  let c := if c0 &&& 2 ≠ 0 then c ^^^ 0x26508e6d else c
  let c := if c0 &&& 4 ≠ 0 then c ^^^ 0x1ea119fa else c
  let c := if c0 &&& 8 ≠ 0 then c ^^^ 0x3d4233dd else c
  if c0 &&& 16 ≠ 0 then c ^^^ 0x2a1462b3 else c

def polyMod (v : List Nat) : Nat := v.foldl polyModStep 1

def lowerCase (c : Char) : Char :=
  if 'A' ≤ c ∧ c ≤ 'Z' then Char.ofNat (c.toNat - 'A'.toNat + 'a'.toNat) else c

/-- The positions of invalid characters: letters of a case that does not go with the letters
before, and characters that are not printed. -/
def checkFrom (i : Nat) (lower upper : Bool) : List Char → List Nat
  | [] => []
  | c :: str =>
    if 'a' ≤ c ∧ c ≤ 'z' then
      if upper then i :: checkFrom (i + 1) lower upper str
      else checkFrom (i + 1) true upper str
    else if 'A' ≤ c ∧ c ≤ 'Z' then
      if lower then i :: checkFrom (i + 1) lower upper str
      else checkFrom (i + 1) lower true str
    else if c.toNat < 33 ∨ c.toNat > 126 then i :: checkFrom (i + 1) lower upper str
    else checkFrom (i + 1) lower upper str

def checkCharacters (str : List Char) : List Nat := checkFrom 0 false false str

def preparePolynomialCoefficients (hrp : List Char) (values : List Nat) : List Nat :=
  hrp.map (fun c => c.toNat >>> 5) ++ [0] ++ hrp.map (fun c => c.toNat &&& 0x1f) ++ values

def verifyChecksum (hrp : List Char) (values : List Nat) : Option Encoding :=
  let check := polyMod (preparePolynomialCoefficients hrp values)
  if check = encodingConstant .bech32 then some .bech32
  else if check = encodingConstant .bech32m then some .bech32m
  else none

variable (encoding : Encoding)

def createChecksum (hrp : List Char) (values : List Nat) : List Nat :=
  let enc := preparePolynomialCoefficients hrp values ++ List.replicate CHECKSUM_SIZE 0
  let mod := polyMod enc ^^^ encodingConstant encoding
  (List.range CHECKSUM_SIZE).map fun i => (mod >>> (5 * (5 - i))) &&& 31

/-- There is no string for a prefix with uppercase letters: the assertion fails. -/
def encode (hrp : List Char) (values : List Nat) : Option (List Char) :=
  if hrp.any fun c => decide ('A' ≤ c) && decide (c ≤ 'Z') then none
  else
    some (hrp ++ [SEPARATOR] ++ values.map (fun i => CHARSET.getD i '\x00') ++
      (createChecksum encoding hrp values).map fun i => CHARSET.getD i '\x00')

structure DecodeResult where
  encoding : Encoding
  hrp : List Char
  data : List Nat
  deriving DecidableEq, Repr

def rfind (c : Char) (str : List Char) : Option Nat :=
  (str.reverse.findIdx? (· == c)).map fun i => str.length - 1 - i

def decodeValue (c : Char) : Option Nat :=
  let rev := CHARSET_REV.getD c.toNat (-1)
  if rev = -1 then none else some rev.toNat

def decode (str : List Char) : Option DecodeResult := do
  if checkCharacters str ≠ [] then failure
  if str.length > CharLimit then failure
  let pos ← rfind SEPARATOR str
  if pos = 0 ∨ pos + CHECKSUM_SIZE ≥ str.length then failure
  let values ← (str.drop (pos + 1)).mapM decodeValue
  let hrp := (str.take pos).map lowerCase
  let encoding ← verifyChecksum hrp values
  pure ⟨encoding, hrp, values.take (values.length - CHECKSUM_SIZE)⟩

def feedback (generator n c : Nat) : Nat := if c.testBit (25 + n) then generator else 0

theorem feedback_xor (generator n left right : Nat) : feedback generator n (left ^^^ right) =
      feedback generator n left ^^^ feedback generator n right := by
  unfold feedback
  rw [Nat.testBit_xor]
  cases left.testBit (25 + n) <;> cases right.testBit (25 + n) <;> simp

theorem xor_feedback {generator n c acc : Nat} :
    (if (c >>> 25) &&& 2 ^ n ≠ 0 then acc ^^^ generator else acc) =
      acc ^^^ feedback generator n c := by
  have bit : (c >>> 25) &&& 2 ^ n ≠ 0 ↔ c.testBit (25 + n) = true := by
    rw [Nat.and_two_pow, Nat.testBit_shiftRight]
    cases c.testBit (25 + n) <;> simp
  unfold feedback
  by_cases set : c.testBit (25 + n) = true
  · rw [if_pos (bit.mpr set), if_pos set]
  · rw [if_neg (fun nonzero => set (bit.mp nonzero)), if_neg set, Nat.xor_zero]

theorem polyModStep_eq (c v_i : Nat) :
    polyModStep c v_i = ((c &&& 0x1ffffff) <<< 5) ^^^ v_i ^^^ feedback 0x3b6a57b2 0 c ^^^
      feedback 0x26508e6d 1 c ^^^ feedback 0x1ea119fa 2 c ^^^ feedback 0x3d4233dd 3 c ^^^
      feedback 0x2a1462b3 4 c := by
  have first := @xor_feedback 0x3b6a57b2 0 c
  have second := @xor_feedback 0x26508e6d 1 c
  have third := @xor_feedback 0x1ea119fa 2 c
  have fourth := @xor_feedback 0x3d4233dd 3 c
  have fifth := @xor_feedback 0x2a1462b3 4 c
  rw [← fifth, ← fourth, ← third, ← second, ← first]
  rfl

theorem polyModStep_xor (c d v_i w_i : Nat) :
    polyModStep (c ^^^ d) (v_i ^^^ w_i) = polyModStep c v_i ^^^ polyModStep d w_i := by
  rw [polyModStep_eq, polyModStep_eq, polyModStep_eq, feedback_xor, feedback_xor, feedback_xor,
    feedback_xor, feedback_xor, Nat.and_xor_distrib_right, Nat.shiftLeft_xor_distrib]
  ac_rfl

theorem feedback_lt {generator : Nat} (small : generator < 2 ^ 30) (n c : Nat) :
    feedback generator n c < 2 ^ 30 := by
  unfold feedback
  split
  · exact small
  · decide

theorem polyModStep_lt {c v_i : Nat} (small : v_i < 2 ^ 30) : polyModStep c v_i < 2 ^ 30 := by
  have shifted : (c &&& 0x1ffffff) <<< 5 < 2 ^ 30 := by
    have masked := and_mask_lt c 25
    change c &&& 0x1ffffff < 2 ^ 25 at masked
    omega
  rw [polyModStep_eq]
  exact Nat.xor_lt_two_pow (Nat.xor_lt_two_pow (Nat.xor_lt_two_pow (Nat.xor_lt_two_pow
    (Nat.xor_lt_two_pow (Nat.xor_lt_two_pow shifted small) (feedback_lt (by decide) _ _))
    (feedback_lt (by decide) _ _)) (feedback_lt (by decide) _ _)) (feedback_lt (by decide) _ _))
    (feedback_lt (by decide) _ _)

theorem polyModStep_of_small {c : Nat} (small : c < 2 ^ 25) (v_i : Nat) :
    polyModStep c v_i = (c <<< 5) ^^^ v_i := by
  have quiet (generator n : Nat) : feedback generator n c = 0 := by
    have clear : c.testBit (25 + n) = false :=
      Nat.testBit_lt_two_pow (small.trans_le (Nat.pow_le_pow_right (by decide) (by omega)))
    rw [feedback, clear]
    rfl
  have whole : c &&& 0x1ffffff = c := by
    change c &&& (2 ^ 25 - 1) = c
    rw [Nat.and_two_pow_sub_one_eq_mod, Nat.mod_eq_of_lt small]
  rw [polyModStep_eq, quiet, quiet, quiet, quiet, quiet, whole]
  simp only [Nat.xor_zero]

theorem shift_xor_low (width mod : Nat) :
    ((mod >>> width) <<< width) ^^^ (mod &&& (2 ^ width - 1)) = mod := by
  apply Nat.eq_of_testBit_eq
  intro i
  rw [Nat.testBit_xor, Nat.testBit_shiftLeft, Nat.testBit_shiftRight, Nat.testBit_and,
    Nat.testBit_two_pow_sub_one]
  by_cases low : i < width
  · rw [decide_eq_true low, decide_eq_false (Nat.not_le.mpr low), Bool.false_and, Bool.false_xor,
      Bool.and_true]
  · rw [decide_eq_false low, decide_eq_true (Nat.not_lt.mp low), Bool.true_and, Bool.and_false,
      Bool.xor_false, Nat.add_sub_cancel' (Nat.not_lt.mp low)]

theorem foldl_groups (c mod : Nat) (small : mod < 2 ^ 30) (count : Nat) (le : count ≤ 6) :
    ((List.range count).map fun i => (mod >>> (5 * (5 - i))) &&& 31).foldl polyModStep c =
      (List.replicate count 0).foldl polyModStep c ^^^ (mod >>> (5 * (6 - count))) := by
  induction count with
  | zero =>
    have none_ : mod >>> 30 = 0 := by
      rw [Nat.shiftRight_eq_div_pow, Nat.div_eq_of_lt small]
    change c = c ^^^ mod >>> 30
    rw [none_, Nat.xor_zero]
  | succ count ih =>
    have shifts : 5 * (6 - count) = 5 * (5 - count) + 5 := by omega
    have last : 6 - (count + 1) = 5 - count := by omega
    have front : mod >>> (5 * (6 - count)) < 2 ^ 25 := by
      rw [Nat.shiftRight_eq_div_pow]
      apply Nat.div_lt_of_lt_mul
      rw [← Nat.pow_add]
      exact small.trans_le (Nat.pow_le_pow_right (by decide) (by omega))
    have group : polyModStep (mod >>> (5 * (6 - count))) ((mod >>> (5 * (5 - count))) &&& 31) =
        mod >>> (5 * (5 - count)) := by
      rw [polyModStep_of_small front, shifts, Nat.shiftRight_add]
      exact shift_xor_low 5 _
    have linear := polyModStep_xor ((List.replicate count 0).foldl polyModStep c)
      (mod >>> (5 * (6 - count))) 0 ((mod >>> (5 * (5 - count))) &&& 31)
    rw [Nat.zero_xor, group] at linear
    rw [List.range_succ, List.map_append, List.foldl_append, ih (by omega),
      List.replicate_succ', List.foldl_append, last]
    exact linear

private theorem encodingConstant_lt : encodingConstant encoding < 2 ^ 30 := by
  cases encoding <;> decide

theorem polyMod_createChecksum (hrp : List Char) (values : List Nat) :
    polyMod (preparePolynomialCoefficients hrp (values ++ createChecksum encoding hrp values)) =
      encodingConstant encoding := by
  set enc := preparePolynomialCoefficients hrp values with isEnc
  have split : preparePolynomialCoefficients hrp (values ++ createChecksum encoding hrp values) =
      enc ++ createChecksum encoding hrp values := by
    rw [isEnc, preparePolynomialCoefficients, preparePolynomialCoefficients, ← List.append_assoc]
  have remainder : polyMod (enc ++ List.replicate CHECKSUM_SIZE 0) < 2 ^ 30 := by
    rw [polyMod, List.foldl_append]
    exact polyModStep_lt (by decide)
  have small := Nat.xor_lt_two_pow remainder (encodingConstant_lt encoding)
  have groups := foldl_groups (enc.foldl polyModStep 1) _ small 6 (Nat.le_refl 6)
  rw [split, polyMod, List.foldl_append, createChecksum]
  change List.foldl polyModStep _ ((List.range 6).map _) = _
  rw [groups, polyMod, List.foldl_append]
  change _ ^^^ (List.foldl polyModStep _ (List.replicate 6 0) ^^^ _) = _
  rw [← Nat.xor_assoc, Nat.xor_self, Nat.zero_xor]

theorem verifyChecksum_createChecksum (hrp : List Char) (values : List Nat) :
    verifyChecksum hrp (values ++ createChecksum encoding hrp values) = some encoding := by
  unfold verifyChecksum
  rw [polyMod_createChecksum]
  cases encoding <;> rfl

def Plain (c : Char) : Prop := ¬('A' ≤ c ∧ c ≤ 'Z') ∧ 33 ≤ c.toNat ∧ c.toNat ≤ 126

instance (c : Char) : Decidable (Plain c) := inferInstanceAs (Decidable (_ ∧ _))

private theorem charset_plain : ∀ value < 32, Plain (CHARSET.getD value '\x00') := by
  decide +kernel

private theorem charset_ne_separator : ∀ value < 32, CHARSET.getD value '\x00' ≠ SEPARATOR := by
  decide +kernel

theorem decodeValue_charset : ∀ value < 32,
    decodeValue (CHARSET.getD value '\x00') = some value := by
  decide +kernel

variable {str : List Char}

theorem checkFrom_plain (plain : ∀ c ∈ str, Plain c) (i : Nat) (lower : Bool) :
    checkFrom i lower false str = [] := by
  induction str generalizing i lower with
  | nil => rfl
  | cons c str ih =>
    have isPlain := plain c List.mem_cons_self
    obtain ⟨notUpper, printed⟩ := isPlain
    have rest := ih fun later member => plain later (List.mem_cons_of_mem _ member)
    unfold checkFrom
    split
    · exact rest (i + 1) true
    · rw [if_neg (by omega)]
      exact rest (i + 1) lower

theorem map_lowerCase_plain (plain : ∀ c ∈ str, Plain c) : str.map lowerCase = str := by
  conv_rhs => rw [← List.map_id str]
  apply List.map_congr_left
  intro c member
  rw [lowerCase, if_neg (plain c member).1]
  rfl

theorem rfind_append {c : Char} (front : List Char) {back : List Char} (none_ : c ∉ back) :
    rfind c (front ++ c :: back) = some front.length := by
  have reversed : (front ++ c :: back).reverse = back.reverse ++ c :: front.reverse := by
    rw [List.reverse_append, List.reverse_cons, List.append_assoc]
    rfl
  have skips : back.reverse.findIdx? (· == c) = none := by
    rw [List.findIdx?_eq_none_iff]
    intro other member
    rw [beq_eq_false_iff_ne]
    intro same
    exact none_ (same ▸ List.mem_reverse.mp member)
  rw [rfind, reversed, List.findIdx?_append, skips, Option.none_or, List.findIdx?_cons]
  simp only [beq_self_eq_true, if_true, Option.map_some, List.length_append, List.length_cons,
    List.length_reverse]
  congr 1
  omega

theorem mapM_decodeValue {values : List Nat} (small : ∀ value ∈ values, value < 32) :
    (values.map fun i => CHARSET.getD i '\x00').mapM decodeValue = some values := by
  induction values with
  | nil => rfl
  | cons value values ih =>
    rw [List.map_cons, List.mapM_cons, decodeValue_charset value (small value List.mem_cons_self),
      ih fun later member => small later (List.mem_cons_of_mem _ member)]
    rfl

theorem decode_encode (encoding : Encoding) {hrp : List Char} {values : List Nat}
    (plain : ∀ c ∈ hrp, Plain c) (nonempty : hrp ≠ []) (small : ∀ value ∈ values, value < 32)
    (short : hrp.length + 1 + values.length + 6 ≤ CharLimit) :
    ∃ str, encode encoding hrp values = some str ∧ str.take hrp.length = hrp ∧
      decode str = some ⟨encoding, hrp, values⟩ := by
  set all := values ++ createChecksum encoding hrp values with isAll
  have six : (createChecksum encoding hrp values).length = 6 := rfl
  have allSmall : ∀ value ∈ all, value < 32 := by
    intro value member
    rcases List.mem_append.mp member with data | check
    · exact small value data
    · obtain ⟨i, _, rfl⟩ := List.mem_map.mp check
      exact and_mask_lt _ 5
  set chars := all.map fun i => CHARSET.getD i '\x00' with isChars
  have writes : encode encoding hrp values = some (hrp ++ SEPARATOR :: chars) := by
    have noUpper : ¬(hrp.any fun c => decide ('A' ≤ c) && decide (c ≤ 'Z')) = true := by
      rw [List.any_eq_true]
      intro ⟨c, member, upper⟩
      rw [Bool.and_eq_true, decide_eq_true_eq, decide_eq_true_eq] at upper
      exact (plain c member).1 upper
    rw [encode, if_neg noUpper, isChars, List.map_append, List.append_assoc, List.append_assoc]
    rfl
  refine ⟨_, writes, List.take_left, ?_⟩
  have allPlain : ∀ c ∈ hrp ++ SEPARATOR :: chars, Plain c := by
    intro c member
    rcases List.mem_append.mp member with inHrp | rest
    · exact plain c inHrp
    · rcases List.mem_cons.mp rest with isSeparator | inChars
      · rw [isSeparator]
        decide
      · obtain ⟨value, isValue, rfl⟩ := List.mem_map.mp inChars
        exact charset_plain value (allSmall value isValue)
  have noSeparator : SEPARATOR ∉ chars := by
    intro member
    obtain ⟨value, isValue, same⟩ := List.mem_map.mp member
    exact charset_ne_separator value (allSmall value isValue) same
  have allLength : all.length = values.length + 6 := by rw [isAll, List.length_append, six]
  have length : (hrp ++ SEPARATOR :: chars).length = hrp.length + 1 + values.length + 6 := by
    rw [List.length_append, List.length_cons, List.length_map]
    omega
  have fits : ¬(hrp ++ SEPARATOR :: chars).length > CharLimit := by
    rw [length]
    exact Nat.not_lt.mpr short
  have inside : ¬(hrp.length = 0 ∨
      hrp.length + CHECKSUM_SIZE ≥ (hrp ++ SEPARATOR :: chars).length) := by
    have positive := List.length_pos_iff.mpr nonempty
    rw [CHECKSUM_SIZE]
    omega
  have back : (hrp ++ SEPARATOR :: chars).drop (hrp.length + 1) = chars := by
    simp
  have data : all.take (all.length - CHECKSUM_SIZE) = values := by
    rw [allLength]
    exact List.take_left
  rw [decode, checkCharacters, checkFrom_plain allPlain, if_neg fits, rfind_append hrp noSeparator]
  change (if _ then failure else _) = _
  rw [if_neg inside, back, mapM_decodeValue allSmall]
  change Option.bind (verifyChecksum ((List.take hrp.length _).map lowerCase) all) _ = _
  rw [List.take_left, map_lowerCase_plain plain, verifyChecksum_createChecksum]
  change some (DecodeResult.mk encoding hrp (all.take (all.length - CHECKSUM_SIZE))) = _
  rw [data]

theorem checkFrom_of_unprintable {c : Char} (high : c.toNat > 126) (member : c ∈ str) (i : Nat)
    (lower upper : Bool) : checkFrom i lower upper str ≠ [] := by
  have notLower : ¬('a' ≤ c ∧ c ≤ 'z') := by
    intro between
    have below : c.toNat ≤ 122 := between.2
    omega
  have notUpper : ¬('A' ≤ c ∧ c ≤ 'Z') := by
    intro between
    have below : c.toNat ≤ 90 := between.2
    omega
  induction str generalizing i lower upper with
  | nil => cases member
  | cons first str ih =>
    rcases List.mem_cons.mp member with rfl | later
    · rw [checkFrom, if_neg notLower, if_neg notUpper, if_pos (.inr high)]
      exact List.cons_ne_nil _ _
    have rest := ih later
    unfold checkFrom
    split
    · split
      · exact List.cons_ne_nil _ _
      · exact rest _ _ _
    split
    · split
      · exact List.cons_ne_nil _ _
      · exact rest _ _ _
    split
    · exact List.cons_ne_nil _ _
    · exact rest _ _ _

private theorem charset_rev_lt : ∀ code < 128, CHARSET_REV.getD code (-1) < 32 := by
  decide +kernel

theorem decodeValue_lt {c : Char} {value : Nat} (decodes : decodeValue c = some value) :
    value < 32 := by
  unfold decodeValue at decodes
  dsimp only at decodes
  split at decodes
  · cases decodes
  cases decodes
  by_cases small : c.toNat < 128
  · have bound := charset_rev_lt c.toNat small
    omega
  · have outside : CHARSET_REV.getD c.toNat (-1) = -1 :=
      List.getD_eq_default _ _ (Nat.not_lt.mp small)
    contradiction

theorem getElem?_of_mapM {α β : Type} {f : α → Option β} {xs : List α} {ys : List β}
    (maps : xs.mapM f = some ys) : ys.length = xs.length ∧ ∀ i : Nat, ys[i]? = xs[i]?.bind f := by
  induction xs generalizing ys with
  | nil =>
    cases maps
    exact ⟨rfl, fun i => rfl⟩
  | cons x xs ih =>
    rw [List.mapM_cons] at maps
    obtain ⟨y, first, maps⟩ := Option.bind_eq_some_iff.mp maps
    obtain ⟨rest, later, maps⟩ := Option.bind_eq_some_iff.mp maps
    cases maps
    obtain ⟨length, entries⟩ := ih later
    constructor
    · rw [List.length_cons, List.length_cons, length]
    · intro i
      cases i with
      | zero => exact first.symm
      | succ i => exact entries i

theorem mapM_decodeValue_lt {values : List Nat} (decodes : str.mapM decodeValue = some values) :
    values.length = str.length ∧ ∀ value ∈ values, value < 32 := by
  obtain ⟨length, entries⟩ := getElem?_of_mapM decodes
  refine ⟨length, ?_⟩
  intro value member
  obtain ⟨i, found⟩ := List.getElem?_of_mem member
  rw [entries] at found
  obtain ⟨c, _, decoded⟩ := Option.bind_eq_some_iff.mp found
  exact decodeValue_lt decoded

structure Decodes (str : List Char) (dec : DecodeResult) : Prop where
  printable : ∀ c ∈ str, c.toNat ≤ 126
  short : str.length ≤ CharLimit
  hrp : ∃ pos < str.length, dec.hrp = (str.take pos).map lowerCase
  small : ∀ value ∈ dec.data, value < 32
  length : dec.data.length ≤ str.length

structure Parts (str : List Char) (dec : DecodeResult) (pos : Nat) (values : List Nat) : Prop where
  printed : checkCharacters str = []
  fits : str.length ≤ CharLimit
  found : rfind SEPARATOR str = some pos
  inside : ¬(pos = 0 ∨ pos + CHECKSUM_SIZE ≥ str.length)
  maps : (str.drop (pos + 1)).mapM decodeValue = some values
  hrp : dec.hrp = (str.take pos).map lowerCase
  checks : verifyChecksum dec.hrp values = some dec.encoding
  data : dec.data = values.take (values.length - CHECKSUM_SIZE)

variable {dec : DecodeResult}

theorem decode_parts (decodes : decode str = some dec) :
    ∃ pos values, Parts str dec pos values := by
  unfold decode at decodes
  by_cases printed : checkCharacters str ≠ []
  · rw [if_pos printed] at decodes
    cases decodes
  rw [if_neg printed] at decodes
  split_ifs at decodes with fits
  · cases decodes
  obtain ⟨pos, found, decodes⟩ := Option.bind_eq_some_iff.mp decodes
  split_ifs at decodes with inside
  · cases decodes
  obtain ⟨values, maps, decodes⟩ := Option.bind_eq_some_iff.mp decodes
  obtain ⟨encoding, checks, decodes⟩ := Option.bind_eq_some_iff.mp decodes
  cases decodes
  exact ⟨pos, values, not_not.mp printed, Nat.not_lt.mp fits, found, inside, maps, rfl, checks, rfl⟩

theorem decode_some (decodes : decode str = some dec) : Decodes str dec := by
  obtain ⟨pos, values, parts⟩ := decode_parts decodes
  have inside := parts.inside
  obtain ⟨length, small⟩ := mapM_decodeValue_lt parts.maps
  rw [List.length_drop] at length
  constructor
  · intro c member
    by_contra high
    exact checkFrom_of_unprintable (Nat.not_le.mp high) member 0 false false parts.printed
  · exact parts.fits
  · exact ⟨pos, by omega, parts.hrp⟩
  · intro value member
    rw [parts.data] at member
    exact small value (List.mem_of_mem_take member)
  · rw [parts.data, List.length_take]
    omega

end Adonai.Bech32
