/-
Base58, with and without a checksum.

A string is a list of characters with codes below 256. Positions, counts and lengths are
`int` in the source and unbounded here.
-/

import Adonai.Foundation.Radix
import Adonai.Util.Money

namespace Adonai.Base58

open Radix
open Util (isSpace containsNoNUL)

/-- All alphanumeric characters except for "0", "I", "O", and "l". -/
def pszBase58 : List Char :=
  ['1', '2', '3', '4', '5', '6', '7', '8', '9', 'A', 'B', 'C', 'D', 'E', 'F', 'G',
   'H', 'J', 'K', 'L', 'M', 'N', 'P', 'Q', 'R', 'S', 'T', 'U', 'V', 'W', 'X', 'Y',
   'Z', 'a', 'b', 'c', 'd', 'e', 'f', 'g', 'h', 'i', 'j', 'k', 'm', 'n', 'o', 'p',
   'q', 'r', 's', 't', 'u', 'v', 'w', 'x', 'y', 'z']

def mapBase58 : List Int :=
  [-1, -1, -1, -1, -1, -1, -1, -1, -1, -1, -1, -1, -1, -1, -1, -1,
   -1, -1, -1, -1, -1, -1, -1, -1, -1, -1, -1, -1, -1, -1, -1, -1,
   -1, -1, -1, -1, -1, -1, -1, -1, -1, -1, -1, -1, -1, -1, -1, -1,
   -1, 0, 1, 2, 3, 4, 5, 6, 7, 8, -1, -1, -1, -1, -1, -1,
   -1, 9, 10, 11, 12, 13, 14, 15, 16, -1, 17, 18, 19, 20, 21, -1,
   22, 23, 24, 25, 26, 27, 28, 29, 30, 31, 32, -1, -1, -1, -1, -1,
   -1, 33, 34, 35, 36, 37, 38, 39, 40, 41, 42, 43, -1, 44, 45, 46,
   47, 48, 49, 50, 51, 52, 53, 54, 55, 56, 57, -1, -1, -1, -1, -1,
   -1, -1, -1, -1, -1, -1, -1, -1, -1, -1, -1, -1, -1, -1, -1, -1,
   -1, -1, -1, -1, -1, -1, -1, -1, -1, -1, -1, -1, -1, -1, -1, -1,
   -1, -1, -1, -1, -1, -1, -1, -1, -1, -1, -1, -1, -1, -1, -1, -1,
   -1, -1, -1, -1, -1, -1, -1, -1, -1, -1, -1, -1, -1, -1, -1, -1,
   -1, -1, -1, -1, -1, -1, -1, -1, -1, -1, -1, -1, -1, -1, -1, -1,
   -1, -1, -1, -1, -1, -1, -1, -1, -1, -1, -1, -1, -1, -1, -1, -1,
   -1, -1, -1, -1, -1, -1, -1, -1, -1, -1, -1, -1, -1, -1, -1, -1,
   -1, -1, -1, -1, -1, -1, -1, -1, -1, -1, -1, -1, -1, -1, -1, -1]

/-- Why nothing comes back: the string is refused, or an assertion fails. -/
inductive Base58Error where
  | refused
  | assertion
  deriving DecidableEq, Repr

def encodeLoop (input : List UInt8) (state : List Nat × Nat) :
    Except Base58Error (List Nat × Nat) :=
  input.foldlM (fun (b58, length) ch =>
    let (b58, i, carry) := propagate 58 256 b58 length ch.toNat
    if carry = 0 then .ok (b58, i) else .error .assertion) state

def encodeBase58 (input : List UInt8) : Except Base58Error (List Char) := do
  let zeroes := (input.takeWhile (· == 0)).length
  let input := input.dropWhile (· == 0)
  let size := input.length * 138 / 100 + 1
  let (b58, length) ← encodeLoop input (List.replicate size 0, 0)
  let digits := (b58.reverse.drop (size - length)).dropWhile (· == 0)
  pure (List.replicate zeroes '1' ++ digits.map fun digit => pszBase58.getD digit '\x00')

def decodeLoop (max_ret_len zeroes : Nat) : List Char → List Nat × Nat →
    Except Base58Error (List Char × List Nat × Nat)
  | [], state => .ok ([], state)
  | c :: psz, (b256, length) =>
    if isSpace c then .ok (c :: psz, b256, length)
    else
      let digit := mapBase58.getD c.toNat (-1)
      if digit = -1 then .error .refused
      else
        let (b256, i, carry) := propagate 256 58 b256 length digit.toNat
        if carry ≠ 0 then .error .assertion
        else if i + zeroes > max_ret_len then .error .refused
        else decodeLoop max_ret_len zeroes psz (b256, i)

def decodeChars (psz : List Char) (max_ret_len : Nat) : Except Base58Error (List UInt8) := do
  let psz := psz.dropWhile isSpace
  let zeroes := (psz.takeWhile (· == '1')).length
  if zeroes > max_ret_len then throw .refused
  let psz := psz.dropWhile (· == '1')
  let size := psz.length * 733 / 1000 + 1
  let (rest, b256, length) ← decodeLoop max_ret_len zeroes psz (List.replicate size 0, 0)
  if rest.dropWhile isSpace ≠ [] then throw .refused
  pure (List.replicate zeroes 0 ++ (b256.reverse.drop (size - length)).map UInt8.ofNat)

def decodeBase58 (str : List Char) (max_ret_len : Nat) : Except Base58Error (List UInt8) :=
  if containsNoNUL str then decodeChars str max_ret_len else .error .refused

variable (hash : List UInt8 → Uint256)

def checksum (input : List UInt8) : List UInt8 := (littleEndian 32 (hash input).toNat).take 4

def encodeBase58Check (input : List UInt8) : Except Base58Error (List Char) :=
  encodeBase58 (input ++ checksum hash input)

def decodeBase58Check (str : List Char) (max_ret_len : Nat) : Except Base58Error (List UInt8) := do
  if !containsNoNUL str then throw .refused
  let max_ret_len := if max_ret_len > 2 ^ 31 - 1 - 4 then 2 ^ 31 - 1 else max_ret_len + 4
  let vch ← decodeChars str max_ret_len
  if vch.length < 4 then throw .refused
  let input := vch.take (vch.length - 4)
  if checksum hash input ≠ vch.drop (vch.length - 4) then throw .refused
  pure input

theorem mapBase58_pszBase58 : ∀ digit < 58,
    mapBase58.getD (pszBase58.getD digit '\x00').toNat (-1) = digit := by
  decide +kernel

theorem isSpace_pszBase58 : ∀ digit < 58, isSpace (pszBase58.getD digit '\x00') = false := by
  decide +kernel

private theorem pszBase58_eq_one : ∀ digit < 58, pszBase58.getD digit '\x00' = '1' ↔ digit = 0 := by
  decide +kernel

theorem pszBase58_ne_nul : ∀ digit < 58, pszBase58.getD digit '\x00' ≠ '\x00' := by
  decide +kernel

def digitsOf (input : List UInt8) : List Nat := input.map UInt8.toNat

theorem digitsOf_lt {input : List UInt8} : ∀ digit ∈ digitsOf input, digit < 256 := by
  intro digit member
  obtain ⟨byte, _, rfl⟩ := List.mem_map.mp member
  exact byte.toNat_lt

theorem encodeLoop_eq (size : Nat) (input : List UInt8) (value : Nat)
    (fits : extend 256 value (digitsOf input) < 58 ^ size) :
    encodeLoop input (cellsOf 58 size value, (Nat.digits 58 value).length) =
      .ok (cellsOf 58 size (extend 256 value (digitsOf input)),
        (Nat.digits 58 (extend 256 value (digitsOf input))).length) := by
  induction input generalizing value with
  | nil => rfl
  | cons ch input ih =>
    have next := (le_extend (by decide) _ (digitsOf input)).trans_lt fits
    have step := propagate_eq (by decide) (by decide : 0 < 256) size value ch.toNat next
    rw [encodeLoop, List.foldlM_cons]
    dsimp only
    rw [step]
    exact ih (256 * value + ch.toNat) fits

def stringOf (zeroes value : Nat) : List Char :=
  List.replicate zeroes '1' ++
    (Nat.digits 58 value).reverse.map fun digit => pszBase58.getD digit '\x00'

private theorem takeWhile_eq_replicate {α : Type} [BEq α] [LawfulBEq α] (items : List α) (a : α) :
    items.takeWhile (· == a) = List.replicate (items.takeWhile (· == a)).length a := by
  rw [List.eq_replicate_iff]
  refine ⟨rfl, ?_⟩
  intro item member
  exact beq_iff_eq.mp (List.all_eq_true.mp List.all_takeWhile item member)

private theorem head?_dropWhile_ne {α : Type} [BEq α] [LawfulBEq α] (items : List α) (a : α) :
    (items.dropWhile (· == a)).head? ≠ some a := by
  intro first
  have stops := List.head?_dropWhile_not (· == a) items
  rw [first] at stops
  simp at stops

private theorem span_replicate {α : Type} [BEq α] [LawfulBEq α] {a : α} {rest : List α}
    (other : rest.head? ≠ some a) (n : Nat) :
    (List.replicate n a ++ rest).takeWhile (· == a) = List.replicate n a ∧
      (List.replicate n a ++ rest).dropWhile (· == a) = rest := by
  have same : ∀ item ∈ List.replicate n a, (item == a) = true := by
    intro item member
    rw [List.eq_of_mem_replicate member, beq_self_eq_true]
  rw [List.takeWhile_append_of_pos same, List.dropWhile_append_of_pos same]
  cases rest with
  | nil => exact ⟨List.append_nil _, rfl⟩
  | cons first rest =>
    have differs : ¬(first == a) = true := by
      rw [beq_iff_eq]
      rintro rfl
      exact other rfl
    rw [List.takeWhile_cons_of_neg (p := (· == a)) differs, List.append_nil]
    exact ⟨rfl, List.dropWhile_cons_of_neg differs⟩

theorem encodeBase58_eq (input : List UInt8) :
    encodeBase58 input = .ok (stringOf (input.takeWhile (· == 0)).length
      (valueOf 256 (digitsOf (input.dropWhile (· == 0))))) := by
  set bytes := input.dropWhile (· == 0) with isBytes
  have bound := valueOf_lt (by decide) (@digitsOf_lt bytes)
  have enough := pow_le_pow_of_ratio (by decide : 0 < 100) (by decide : 1 ≤ 58)
    (by decide +kernel : 256 ^ 100 ≤ 58 ^ 138) bytes.length
  rw [digitsOf, List.length_map] at bound
  have loop := encodeLoop_eq (bytes.length * 138 / 100 + 1) bytes 0 (bound.trans_le enough)
  rw [cellsOf_zero, Nat.digits_zero, List.length_nil] at loop
  rw [encodeBase58, ← isBytes]
  dsimp only
  rw [loop]
  change Except.ok _ = _
  dsimp only
  have written : (Nat.digits 58 (valueOf 256 (digitsOf bytes))).reverse.dropWhile (· == 0) = _ :=
    (span_replicate (head?_reverse_digits 58 _) 0).2
  rw [drop_reverse_cellsOf, ← valueOf, written]
  rfl

def charsOf (digits : List Nat) : List Char := digits.map fun digit => pszBase58.getD digit '\x00'

theorem decodeLoop_eq (max_ret_len zeroes size : Nat) (digits : List Nat) (value : Nat)
    (small : ∀ digit ∈ digits, digit < 58) (fits : extend 58 value digits < 256 ^ size)
    (short : (Nat.digits 256 (extend 58 value digits)).length + zeroes ≤ max_ret_len) :
    decodeLoop max_ret_len zeroes (charsOf digits)
        (cellsOf 256 size value, (Nat.digits 256 value).length) =
      .ok ([], cellsOf 256 size (extend 58 value digits),
        (Nat.digits 256 (extend 58 value digits)).length) := by
  induction digits generalizing value with
  | nil => rfl
  | cons digit digits ih =>
    have isDigit := small digit List.mem_cons_self
    have rest : extend 58 (58 * value + digit) digits < 256 ^ size := fits
    have grows := le_extend (by decide : 0 < 58) (58 * value + digit) digits
    have step := propagate_eq (by decide) (by decide : 0 < 58) size value digit
      (grows.trans_lt rest)
    have shorter := (Nat.add_le_add_right
      (Nat.le_length_digits_le 256 _ _ grows) zeroes).trans short
    have found : ¬((digit : Int) = -1) := by omega
    rw [charsOf, List.map_cons, decodeLoop, isSpace_pszBase58 digit isDigit,
      mapBase58_pszBase58 digit isDigit]
    dsimp only
    rw [if_neg Bool.false_ne_true, if_neg found, Int.toNat_natCast, step]
    dsimp only
    rw [if_neg (not_not_intro rfl), if_neg (Nat.not_lt.mpr shorter)]
    exact ih _ (fun later member => small later (List.mem_cons_of_mem _ member)) rest short

theorem digits_small (value : Nat) : ∀ digit ∈ (Nat.digits 58 value).reverse, digit < 58 := by
  intro digit member
  exact Nat.digits_lt_base (by decide) (List.mem_reverse.mp member)

variable (zeroes value : Nat)

theorem stringOf_eq :
    stringOf zeroes value = List.replicate zeroes '1' ++ charsOf (Nat.digits 58 value).reverse :=
  rfl

theorem head?_charsOf {digits : List Nat} (small : ∀ digit ∈ digits, digit < 58) :
    (charsOf digits).head? = some '1' ↔ digits.head? = some 0 := by
  cases digits with
  | nil => exact iff_of_false nofun nofun
  | cons digit digits =>
    change some _ = some _ ↔ some _ = some _
    rw [Option.some.injEq, Option.some.injEq,
      pszBase58_eq_one digit (small digit List.mem_cons_self)]

theorem span_stringOf :
    (stringOf zeroes value).takeWhile (· == '1') = List.replicate zeroes '1' ∧
      (stringOf zeroes value).dropWhile (· == '1') = charsOf (Nat.digits 58 value).reverse := by
  apply span_replicate
  rw [ne_eq, ← charsOf, head?_charsOf (digits_small value)]
  exact head?_reverse_digits 58 value

theorem mem_stringOf {zeroes value : Nat} {c : Char} (member : c ∈ stringOf zeroes value) :
    ∃ digit < 58, c = pszBase58.getD digit '\x00' := by
  rcases List.mem_append.mp member with one | written
  · exact ⟨0, by decide, List.eq_of_mem_replicate one⟩
  · obtain ⟨digit, isDigit, rfl⟩ := List.mem_map.mp written
    exact ⟨digit, digits_small value digit isDigit, rfl⟩

theorem containsNoNUL_stringOf : containsNoNUL (stringOf zeroes value) = true := by
  rw [containsNoNUL, List.all_eq_true]
  intro c member
  obtain ⟨digit, isDigit, rfl⟩ := mem_stringOf member
  rw [bne_iff_ne]
  exact pszBase58_ne_nul digit isDigit

theorem dropWhile_isSpace_stringOf :
    (stringOf zeroes value).dropWhile isSpace = stringOf zeroes value := by
  cases written : stringOf zeroes value with
  | nil => rfl
  | cons c str => ?_
  have member : c ∈ stringOf zeroes value := by
    rw [written]
    exact List.mem_cons_self
  obtain ⟨digit, isDigit, rfl⟩ := mem_stringOf member
  apply List.dropWhile_cons_of_neg
  rw [isSpace_pszBase58 digit isDigit]
  exact Bool.false_ne_true

theorem decodeChars_stringOf (max_ret_len zeroes value : Nat)
    (short : (Nat.digits 256 value).length + zeroes ≤ max_ret_len) :
    decodeChars (stringOf zeroes value) max_ret_len =
      .ok (List.replicate zeroes 0 ++ (Nat.digits 256 value).reverse.map UInt8.ofNat) := by
  set digits := (Nat.digits 58 value).reverse with isDigits
  have whole : extend 58 0 digits = value := valueOf_reverse_digits 58 value
  have bound : valueOf 58 digits < 58 ^ digits.length := valueOf_lt (by decide) (digits_small value)
  have enough := pow_le_pow_of_ratio (by decide : 0 < 1000) (by decide : 1 ≤ 256)
    (by decide +kernel : 58 ^ 1000 ≤ 256 ^ 733) digits.length
  have loop := decodeLoop_eq max_ret_len zeroes (digits.length * 733 / 1000 + 1) digits 0
    (digits_small value) (bound.trans_le enough) (whole.symm ▸ short)
  rw [cellsOf_zero, Nat.digits_zero, List.length_nil, whole] at loop
  have few : ¬zeroes > max_ret_len := by omega
  have length : (charsOf digits).length = digits.length := List.length_map ..
  rw [decodeChars, dropWhile_isSpace_stringOf, (span_stringOf zeroes value).1,
    (span_stringOf zeroes value).2, List.length_replicate, if_neg few, ← isDigits]
  dsimp only
  rw [length]
  rw [loop]
  change Except.ok _ = _
  rw [drop_reverse_cellsOf]

theorem digits_of_bytes (input : List UInt8) :
    (Nat.digits 256 (valueOf 256 (digitsOf (input.dropWhile (· == 0))))).reverse =
      digitsOf (input.dropWhile (· == 0)) := by
  have leading : (digitsOf (input.dropWhile (· == 0))).head? ≠ some 0 := by
    rw [digitsOf, List.head?_map, ne_eq, Option.map_eq_some_iff]
    rintro ⟨byte, first, isZero⟩
    obtain rfl : byte = 0 := UInt8.toNat_inj.mp isZero
    exact head?_dropWhile_ne input 0 first
  rw [digits_valueOf (by decide) digitsOf_lt leading, List.reverse_reverse]

theorem decodeChars_encodeBase58 {input : List UInt8} {max_ret_len : Nat}
    (short : input.length ≤ max_ret_len) :
    ∃ str, encodeBase58 input = .ok str ∧ containsNoNUL str = true ∧
      decodeChars str max_ret_len = .ok input := by
  refine ⟨_, encodeBase58_eq input, containsNoNUL_stringOf _ _, ?_⟩
  have digits := digits_of_bytes input
  have length : (Nat.digits 256 (valueOf 256 (digitsOf (input.dropWhile (· == 0))))).length +
      (input.takeWhile (· == 0)).length = input.length := by
    rw [← List.length_reverse, digits, digitsOf, List.length_map, Nat.add_comm,
      ← List.length_append, List.takeWhile_append_dropWhile]
  rw [decodeChars_stringOf _ _ _ (length.le.trans short), digits,
    ← takeWhile_eq_replicate, digitsOf, List.map_map]
  have same : (UInt8.ofNat ∘ UInt8.toNat) = id := by
    funext byte
    exact UInt8.ofNat_toNat
  rw [same, List.map_id, List.takeWhile_append_dropWhile]

theorem mapBase58_inv {c : Char} (valid : mapBase58.getD c.toNat (-1) ≠ -1) :
    ∃ digit < 58, c = pszBase58.getD digit '\x00' ∧ mapBase58.getD c.toNat (-1) = digit := by
  have table : ∀ n < 256, mapBase58.getD n (-1) ≠ -1 →
      ∃ digit < 58, n = (pszBase58.getD digit '\x00').toNat ∧ mapBase58.getD n (-1) = digit := by
    decide +kernel
  have inside : c.toNat < 256 := by
    by_contra outside
    have length : mapBase58.length = 256 := by decide +kernel
    apply valid
    rw [List.getD_eq_getElem?_getD, List.getElem?_eq_none (by omega), Option.getD_none]
  obtain ⟨digit, isDigit, same, maps⟩ := table c.toNat inside valid
  exact ⟨digit, isDigit, Char.toNat_inj.mp same, maps⟩

/-- Whatever the characters are, the cells suffice; what is accepted are digits up to a space. -/
theorem decodeLoop_cases (max_ret_len zeroes size : Nat) (str : List Char) (value : Nat)
    (room : (value + 1) * 58 ^ str.length ≤ 256 ^ size) :
    let result := decodeLoop max_ret_len zeroes str
      (cellsOf 256 size value, (Nat.digits 256 value).length)
    result = .error .refused ∨ ∃ digits rest, (∀ digit ∈ digits, digit < 58) ∧
      str = charsOf digits ++ rest ∧
      result = .ok (rest, cellsOf 256 size (extend 58 value digits),
        (Nat.digits 256 (extend 58 value digits)).length) := by
  induction str generalizing value with
  | nil => exact .inr ⟨[], [], nofun, rfl, rfl⟩
  | cons c str ih =>
    dsimp only
    rw [decodeLoop]
    split_ifs with space
    · exact .inr ⟨[], c :: str, nofun, rfl, rfl⟩
    dsimp only
    split
    · exact .inl rfl
    rename_i invalid
    obtain ⟨digit, isDigit, rfl, maps⟩ := mapBase58_inv invalid
    have roomLeft : (58 * value + digit + 1) * 58 ^ str.length ≤ 256 ^ size := by
      refine le_trans ?_ room
      rw [List.length_cons, Nat.pow_succ', ← Nat.mul_assoc]
      exact Nat.mul_le_mul_right _ (by omega)
    have fits : 58 * value + digit < 256 ^ size :=
      (Nat.le_mul_of_pos_right _ (Nat.pow_pos (by decide))).trans roomLeft
    rw [maps, Int.toNat_natCast, propagate_eq (by decide) (by decide) size value digit fits]
    dsimp only
    rw [if_neg (not_not_intro rfl)]
    split
    · exact .inl rfl
    rcases ih _ roomLeft with refused | ⟨digits, rest, small, rfl, accepted⟩
    · exact .inl refused
    · exact .inr ⟨digit :: digits, rest, List.forall_mem_cons.mpr ⟨isDigit, small⟩, rfl, accepted⟩

theorem decodeChars_cases (str : List Char) (max_ret_len : Nat) :
    decodeChars str max_ret_len = .error .refused ∨ ∃ zeroes digits rest,
      (∀ digit ∈ digits, digit < 58) ∧ digits.head? ≠ some 0 ∧ (∀ c ∈ rest, isSpace c = true) ∧
      str.dropWhile isSpace = List.replicate zeroes '1' ++ (charsOf digits ++ rest) ∧
      decodeChars str max_ret_len = .ok (List.replicate zeroes 0 ++
        (Nat.digits 256 (valueOf 58 digits)).reverse.map UInt8.ofNat) := by
  set psz := str.dropWhile isSpace with isPsz
  set body := psz.dropWhile (· == '1') with isBody
  have ones : psz = List.replicate (psz.takeWhile (· == '1')).length '1' ++ body := by
    rw [← takeWhile_eq_replicate, isBody, List.takeWhile_append_dropWhile]
  have enough := pow_le_pow_of_ratio (by decide : 0 < 1000) (by decide : 1 ≤ 256)
    (by decide +kernel : 58 ^ 1000 ≤ 256 ^ 733) body.length
  rw [decodeChars, ← isPsz, ← isBody]
  dsimp only
  split
  · exact .inl rfl
  have loop := decodeLoop_cases max_ret_len (psz.takeWhile (· == '1')).length _ body 0
    (by rw [Nat.zero_add, Nat.one_mul]; exact enough)
  rw [cellsOf_zero, Nat.digits_zero, List.length_nil] at loop
  rcases loop with refused | ⟨digits, rest, small, split, accepted⟩
  · left
    change Except.bind (decodeLoop _ _ _ _) _ = _
    rw [refused]
    rfl
  rw [accepted]
  change (if rest.dropWhile isSpace ≠ [] then _ else _) = _ ∨ ∃ _ _ _, _ ∧ _ ∧ _ ∧ _ ∧
    (if rest.dropWhile isSpace ≠ [] then _ else _) = _
  by_cases spaces : rest.dropWhile isSpace = []
  · have leading : digits.head? ≠ some 0 := by
      intro zero
      apply head?_dropWhile_ne psz '1'
      rw [← isBody, split, List.head?_append, (head?_charsOf small).mpr zero, Option.some_or]
    have trailing : rest.takeWhile isSpace = rest := by
      rw [← List.append_nil (rest.takeWhile isSpace), ← spaces, List.takeWhile_append_dropWhile]
    rw [if_neg (not_not_intro spaces), drop_reverse_cellsOf]
    exact .inr ⟨_, digits, rest, small, leading,
      List.all_eq_true.mp (trailing ▸ List.all_takeWhile), split ▸ ones, rfl⟩
  · rw [if_pos spaces]
    exact .inl rfl

def Trimmed (str : List Char) : Prop :=
  ∀ c, str.head? = some c ∨ str.getLast? = some c → isSpace c = false

theorem encodeBase58_decoded {str : List Char} {max_ret_len : Nat} {input : List UInt8}
    (trimmed : Trimmed str) (decodes : decodeChars str max_ret_len = .ok input) :
    encodeBase58 input = .ok str := by
  rcases decodeChars_cases str max_ret_len with
    refused | ⟨zeroes, digits, rest, small, leading, spaces, split, accepted⟩
  · rw [refused] at decodes
    cases decodes
  rw [accepted] at decodes
  cases decodes
  have untouched : str.dropWhile isSpace = str := by
    cases str with
    | nil => rfl
    | cons c str =>
      apply List.dropWhile_cons_of_neg
      rw [trimmed c (.inl rfl)]
      exact Bool.false_ne_true
  have nothing : rest = [] := by
    rcases List.eq_nil_or_concat rest with empty | ⟨init, c, rfl⟩
    · exact empty
    have last : str.getLast? = some c := by
      rw [← untouched, split]
      simp
    have space := spaces c (by simp)
    rw [trimmed c (.inr last)] at space
    cases space
  have bytes : digitsOf ((Nat.digits 256 (valueOf 58 digits)).reverse.map UInt8.ofNat) =
      (Nat.digits 256 (valueOf 58 digits)).reverse := by
    rw [digitsOf, List.map_map]
    refine (List.map_congr_left ?_).trans (List.map_id _)
    intro digit member
    exact UInt8.toNat_ofNat_of_lt (Nat.digits_lt_base (by decide) (List.mem_reverse.mp member))
  have nonzero : ((Nat.digits 256 (valueOf 58 digits)).reverse.map UInt8.ofNat).head? ≠ some 0 := by
    intro zero
    apply head?_reverse_digits 256 (valueOf 58 digits)
    rw [← bytes, digitsOf, List.head?_map, zero]
    rfl
  rw [encodeBase58_eq, (span_replicate nonzero zeroes).1, (span_replicate nonzero zeroes).2, bytes,
    valueOf_reverse_digits, List.length_replicate, stringOf_eq,
    digits_valueOf (by decide) small leading, List.reverse_reverse, ← untouched, split, nothing,
    List.append_nil]

/-- Both directions are inverse to each other, and no assertion on a carry fails. -/
theorem base58_round_trips :
    (∀ (input : List UInt8) (max_ret_len : Nat), input.length < 2 ^ 20 →
      input.length ≤ max_ret_len → ∃ str, encodeBase58 input = .ok str ∧
        decodeBase58 str max_ret_len = .ok input) ∧
    (∀ (str : List Char) (max_ret_len : Nat) (input : List UInt8), str.length < 2 ^ 20 →
      Trimmed str → decodeBase58 str max_ret_len = .ok input → encodeBase58 input = .ok str) ∧
    (∀ input, encodeBase58 input ≠ .error .assertion) ∧
    ∀ str max_ret_len, decodeBase58 str max_ret_len ≠ .error .assertion := by
  refine ⟨?_, ?_, ?_, ?_⟩
  · intro input max_ret_len _ short
    obtain ⟨str, encodes, noNul, decodes⟩ := decodeChars_encodeBase58 short
    exact ⟨str, encodes, by rw [decodeBase58, if_pos noNul, decodes]⟩
  · intro str max_ret_len input _ trimmed decodes
    rw [decodeBase58] at decodes
    split at decodes
    · exact encodeBase58_decoded trimmed decodes
    · cases decodes
  · intro input failed
    rw [encodeBase58_eq] at failed
    cases failed
  · intro str max_ret_len failed
    rw [decodeBase58] at failed
    split at failed
    · rcases decodeChars_cases str max_ret_len with refused | ⟨_, _, _, _, _, _, _, accepted⟩
      · rw [refused] at failed
        cases failed
      · rw [accepted] at failed
        cases failed
    · cases failed

theorem base58_round_trips_one :
    ∃ str, encodeBase58 [0, 1] = .ok str ∧ decodeBase58 str 2 = .ok [0, 1] ∧
      encodeBase58 [0, 1] = .ok ['1', '2'] := by
  obtain ⟨str, encodes, decodes⟩ := base58_round_trips.1 [0, 1] 2 (by decide) (by decide)
  refine ⟨str, encodes, decodes, base58_round_trips.2.1 ['1', '2'] 2 [0, 1] (by decide) ?_ ?_⟩
  · rintro c (first | last)
    · cases first
      rfl
    · cases last
      rfl
  · decide +kernel

theorem checksum_length (input : List UInt8) : (checksum hash input).length = 4 := by
  rfl

theorem decodeBase58Check_encode {input : List UInt8} {max_ret_len : Nat}
    (short : input.length ≤ max_ret_len) (int : max_ret_len ≤ 2 ^ 31 - 1 - 4) :
    ∃ str, encodeBase58Check hash input = .ok str ∧
      decodeBase58Check hash str max_ret_len = .ok input := by
  have four := checksum_length hash input
  have total : (input ++ checksum hash input).length ≤ max_ret_len + 4 := by
    rw [List.length_append, four]
    exact Nat.add_le_add_right short 4
  obtain ⟨str, encodes, noNul, decodes⟩ := decodeChars_encodeBase58 total
  refine ⟨str, encodes, ?_⟩
  have size : (input ++ checksum hash input).length - 4 = input.length := by
    rw [List.length_append, four, Nat.add_sub_cancel]
  have long : ¬(input ++ checksum hash input).length < 4 := by
    rw [List.length_append, four]
    omega
  have front : (input ++ checksum hash input).take input.length = input := List.take_left
  have back : (input ++ checksum hash input).drop input.length = checksum hash input :=
    List.drop_left
  rw [decodeBase58Check, noNul, if_neg (Nat.not_lt.mpr int)]
  change Except.bind (decodeChars _ _) _ = _
  rw [decodes]
  change (if (input ++ checksum hash input).length < 4 then _ else _) = _
  rw [if_neg long]
  dsimp only
  rw [size, front, back, if_neg (not_not_intro rfl)]
  rfl

end Adonai.Base58
