/-
Addresses: the strings of destinations, and destinations read from strings.

Key and script hashes are written in base58, witness destinations in bech32 or bech32m, and the
reader decides by the first characters. The checksum hash and the search for errors are arbitrary
functions. No result means a failed assertion.
-/

import Adonai.Key.Derive
import Adonai.Util.Base58
import Adonai.Util.Bech32

namespace Adonai.Key

open Base58 (encodeBase58Check decodeBase58Check decodeBase58)
open Base58 (digitsOf stringOf checksum)
open BitGroups (regroup)

def BECH32_WITNESS_PROG_MAX_LEN : Nat := 40

def WITNESS_V1_TAPROOT_SIZE : Nat := 32

def ANCHOR_BYTES : List UInt8 := [0x4e, 0x73]

inductive CTxDestination where
  | noDestination (script : List UInt8)
  | pubKeyDestination (pubkey : List UInt8)
  | pkHash (id : Bytes 20)
  | scriptHash (id : Bytes 20)
  | witnessV0ScriptHash (id : Bytes 32)
  | witnessV0KeyHash (id : Bytes 20)
  | witnessV1Taproot (tap : Bytes 32)
  | payToAnchor
  | witnessUnknown (version : UInt32) (program : List UInt8)
  deriving DecidableEq

structure AddressParams where
  pubkeyAddress : List UInt8
  scriptAddress : List UInt8
  bech32HRP : List Char
  deriving DecidableEq

def mainAddressParams : AddressParams where
  pubkeyAddress := [23]
  scriptAddress := [83]
  bech32HRP := ['a', 'd']

variable (params : AddressParams) (hash : List UInt8 → Uint256)
  (locateErrors : List Char → String × List Nat)

/-- `ConvertBits` of values that are not negative: what it writes, and whether it succeeds. -/
def convertBits (frombits tobits : Nat) (pad : Bool) (values : List Nat) : List Nat × Bool :=
  regroup frombits tobits pad values

def encodeWitness (encoding : Bech32.Encoding) (version : Nat) (program : List UInt8) :
    Option (List Char) :=
  let data := version :: (convertBits 8 5 true (program.map UInt8.toNat)).1
  Bech32.encode encoding params.bech32HRP data

def encodeWitnessUnknown (version : UInt32) (program : List UInt8) : Option (List Char) :=
  if version < 1 ∨ version > 16 ∨ program.length < 2 ∨ program.length > 40 then some []
  else encodeWitness params .bech32m version.toNat program

/-- An anchor is encoded as the unknown witness destination that it derives from. -/
def encodeDestination : CTxDestination → Option (List Char)
  | .pkHash id => (encodeBase58Check hash (params.pubkeyAddress ++ id.1)).toOption
  | .scriptHash id => (encodeBase58Check hash (params.scriptAddress ++ id.1)).toOption
  | .witnessV0KeyHash id => encodeWitness params .bech32 0 id.1
  | .witnessV0ScriptHash id => encodeWitness params .bech32 0 id.1
  | .witnessV1Taproot tap => encodeWitness params .bech32m 1 tap.1
  | .witnessUnknown version program => encodeWitnessUnknown params version program
  | .payToAnchor => encodeWitnessUnknown params 1 ANCHOR_BYTES
  | .noDestination _ => some []
  | .pubKeyDestination _ => some []

structure Decoded where
  destination : CTxDestination
  error_str : String
  error_locations : List Nat
  deriving DecidableEq

def Decoded.valid (destination : CTxDestination) : Decoded := ⟨destination, "", []⟩

def Decoded.error (error_str : String) : Decoded := ⟨.noDestination [], error_str, []⟩

def decodeBase58Data (data : List UInt8) : Decoded :=
  let pubkey_prefix := params.pubkeyAddress
  let script_prefix := params.scriptAddress
  if isKey : data.length = 20 + pubkey_prefix.length ∧
      data.take pubkey_prefix.length = pubkey_prefix then
    .valid (.pkHash ⟨data.drop pubkey_prefix.length, by
      rw [List.length_drop, isKey.1, Nat.add_sub_cancel]⟩)
  else if isScript : data.length = 20 + script_prefix.length ∧
      data.take script_prefix.length = script_prefix then
    .valid (.scriptHash ⟨data.drop script_prefix.length, by
      rw [List.length_drop, isScript.1, Nat.add_sub_cancel]⟩)
  else if data.length ≥ script_prefix.length ∧ data.take script_prefix.length = script_prefix ∨
      data.length ≥ pubkey_prefix.length ∧ data.take pubkey_prefix.length = pubkey_prefix then
    .error "Invalid length for Base58 address (P2PKH or P2SH)"
  else .error "Invalid or unsupported Base58-encoded address."

def isPayToAnchor (version : Nat) (program : List UInt8) : Bool :=
  version == 1 && program == ANCHOR_BYTES

def decodeProgram (version : Nat) (data : List UInt8) : Decoded :=
  let byte_str := if data.length = 1 then "byte" else "bytes"
  let size := toString data.length ++ " " ++ byte_str
  if version = 0 then
    if isKey : data.length = 20 then .valid (.witnessV0KeyHash ⟨data, isKey⟩)
    else if isScript : data.length = 32 then .valid (.witnessV0ScriptHash ⟨data, isScript⟩)
    else .error ("Invalid Bech32 v0 address program size (" ++ size ++ "), per BIP141")
  else if isTaproot : version = 1 ∧ data.length = WITNESS_V1_TAPROOT_SIZE then
    .valid (.witnessV1Taproot ⟨data, isTaproot.2⟩)
  else if isPayToAnchor version data then .valid .payToAnchor
  else if version > 16 then .error "Invalid Bech32 address witness version"
  else if data.length < 2 ∨ data.length > BECH32_WITNESS_PROG_MAX_LEN then
    .error ("Invalid Bech32 address program size (" ++ size ++ ")")
  else .valid (.witnessUnknown (UInt32.ofNat version) data)

def decodeBech32Data (dec : Bech32.DecodeResult) : Decoded :=
  match dec.data with
  | [] => .error "Empty Bech32 data section"
  | version :: program =>
    if dec.hrp ≠ params.bech32HRP then
      .error ("Invalid or unsupported prefix for Segwit (Bech32) address (expected " ++
        String.ofList params.bech32HRP ++ ", got " ++ String.ofList dec.hrp ++ ").")
    else if version = 0 ∧ dec.encoding ≠ .bech32 then
      .error "Version 0 witness address must use Bech32 checksum"
    else if version ≠ 0 ∧ dec.encoding ≠ .bech32m then
      .error "Version 1+ witness address must use Bech32m checksum"
    else
      match convertBits 5 8 false program with
      | (data, true) => decodeProgram version (data.map UInt8.ofNat)
      | (_, false) => .error "Invalid padding in Bech32 data section"

def toLower (c : Char) : Char :=
  if 'A' ≤ c ∧ c ≤ 'Z' then Char.ofNat (c.toNat - 'A'.toNat + 'a'.toNat) else c

def isBech32 (str : List Char) : Bool :=
  (str.take params.bech32HRP.length).map toLower == params.bech32HRP

def decodeDestination (str : List Char) : Option Decoded :=
  if isBech32 params str then
    match Bech32.decode str with
    | some dec => some (decodeBech32Data params dec)
    | none =>
      let (error_str, error_locations) := locateErrors str
      some ⟨.noDestination [], error_str, error_locations⟩
  else
    match decodeBase58Check hash str 21 with
    | .ok data => some (decodeBase58Data params data)
    | .error .assertion => none
    | .error .refused =>
      match decodeBase58 str 100 with
      | .error .assertion => none
      | .error .refused =>
        some (.error "Invalid or unsupported Segwit (Bech32) or Base58 encoding.")
      | .ok _ => some (.error "Invalid checksum or length of Base58 address (P2PKH or P2SH)")

def RoundTrips (dest : CTxDestination) : Prop :=
  ∃ str, encodeDestination params hash dest = some str ∧
    ∃ decoded, decodeDestination params hash locateErrors str = some decoded ∧
      decoded.destination = dest

variable {hash locateErrors}

def encodingOf (version : Nat) : Bech32.Encoding := if version = 0 then .bech32 else .bech32m

theorem map_toNat_lt (program : List UInt8) : ∀ value ∈ program.map UInt8.toNat, value < 2 ^ 8 := by
  intro value member
  obtain ⟨byte, _, rfl⟩ := List.mem_map.mp member
  exact byte.toNat_lt

theorem map_ofNat_toNat (program : List UInt8) :
    (program.map UInt8.toNat).map UInt8.ofNat = program := by
  have same : (UInt8.ofNat ∘ UInt8.toNat) = id := by
    funext byte
    exact UInt8.ofNat_toNat
  rw [List.map_map, same, List.map_id]

theorem convertBits_round_trips :
    (∀ input : List UInt8, ∃ words, convertBits 8 5 true (input.map UInt8.toNat) = (words, true) ∧
      convertBits 5 8 false words = (input.map UInt8.toNat, true)) ∧
    ∀ (words : List (Fin 32)) (out : List Nat),
      convertBits 5 8 false (words.map Fin.val) = (out, true) →
        convertBits 8 5 true out = (words.map Fin.val, true) := by
  constructor
  · intro input
    obtain ⟨words, pads, back, _⟩ := BitGroups.regroup_back (by decide : 5 ≤ 8) (by decide)
      (input.map UInt8.toNat) (map_toNat_lt input)
    exact ⟨words, pads, back⟩
  · intro words out accepted
    apply BitGroups.regroup_forth (by decide : 5 ≤ 8) (by decide) _ accepted
    intro value member
    obtain ⟨word, _, rfl⟩ := List.mem_map.mp member
    exact word.isLt

theorem convertBits_ff : convertBits 5 8 false [31, 28] = ([255], true) ∧
    convertBits 8 5 true [255] = ([31, 28], true) :=
  ⟨by decide, convertBits_round_trips.2 [31, 28] [255] (by decide)⟩

section

variable {version : Nat} {program : List UInt8} (isVersion : version < 32)
  (short : program.length ≤ 40)

include isVersion short

theorem decode_encodeWitness :
    ∃ str words, encodeWitness mainAddressParams (encodingOf version) version program = some str ∧
      str.take 2 = mainAddressParams.bech32HRP ∧
      Bech32.decode str = some ⟨encodingOf version, mainAddressParams.bech32HRP, version :: words⟩ ∧
      regroup 5 8 false words = (program.map UInt8.toNat, true) := by
  obtain ⟨words, pads, back, small, size⟩ := BitGroups.regroup_back (by decide : 5 ≤ 8) (by decide)
    (program.map UInt8.toNat) (map_toNat_lt program)
  rw [List.length_map] at size
  have dataSmall : ∀ value ∈ version :: words, value < 32 :=
    List.forall_mem_cons.mpr ⟨isVersion, small⟩
  have fits : mainAddressParams.bech32HRP.length + 1 + (version :: words).length + 6 ≤
      Bech32.CharLimit := by
    rw [List.length_cons]
    change 2 + 1 + (words.length + 1) + 6 ≤ 90
    omega
  have plain : ∀ c ∈ mainAddressParams.bech32HRP, Bech32.Plain c := by
    intro c member
    rcases List.mem_pair.mp member with rfl | rfl
    · decide
    · decide
  obtain ⟨str, encodes, front, decodes⟩ :=
    Bech32.decode_encode (encodingOf version) plain (by decide) dataSmall fits
  refine ⟨str, words, ?_, front, decodes, back⟩
  rw [encodeWitness, convertBits, pads]
  exact encodes

theorem decodeDestination_encodeWitness :
    ∃ str, encodeWitness mainAddressParams (encodingOf version) version program = some str ∧
      decodeDestination mainAddressParams hash locateErrors str =
        some (decodeProgram version program) := by
  obtain ⟨str, words, encodes, front, decodes, back⟩ := decode_encodeWitness isVersion short
  refine ⟨str, encodes, ?_⟩
  have isWitness : isBech32 mainAddressParams str = true := by
    change ((str.take 2).map toLower == _) = true
    rw [front]
    rfl
  have rightEncoding : ¬(version = 0 ∧ encodingOf version ≠ .bech32) ∧
      ¬(version ≠ 0 ∧ encodingOf version ≠ .bech32m) := by
    unfold encodingOf
    split <;> simp_all
  rw [decodeDestination, if_pos isWitness, decodes]
  dsimp only
  rw [decodeBech32Data]
  dsimp only
  rw [if_neg (not_not_intro rfl), if_neg rightEncoding.1, if_neg rightEncoding.2, convertBits, back]
  dsimp only
  rw [map_ofNat_toNat]

end

/-! ### Base58 destinations -/

def base58Number (hash : List UInt8 → Uint256) (payload : List UInt8) : Nat :=
  Radix.valueOf 256 (digitsOf (payload ++ checksum hash payload))

theorem base58Number_bounds (header body : List UInt8) :
    Radix.valueOf 256 (digitsOf header) * 256 ^ (body.length + 4) ≤
        base58Number hash (header ++ body) ∧
      base58Number hash (header ++ body) <
        (Radix.valueOf 256 (digitsOf header) + 1) * 256 ^ (body.length + 4) := by
  set rest := digitsOf (body ++ checksum hash (header ++ body)) with isRest
  have length : rest.length = body.length + 4 := by
    rw [isRest, digitsOf, List.length_map, List.length_append, Base58.checksum_length]
  have bound := Radix.valueOf_lt (by decide) (@Base58.digitsOf_lt
    (body ++ checksum hash (header ++ body)))
  have number : base58Number hash (header ++ body) =
      256 ^ rest.length * Radix.valueOf 256 (digitsOf header) + Radix.valueOf 256 rest := by
    rw [base58Number, List.append_assoc, digitsOf, List.map_append, Radix.valueOf_append]
    rfl
  rw [number, ← length, Nat.add_mul, Nat.one_mul, Nat.mul_comm (256 ^ _)]
  exact ⟨Nat.le_add_right _ _, Nat.add_lt_add_left bound _⟩

theorem encodeBase58Check_eq {version : UInt8} (nonzero : version ≠ 0) (body : List UInt8) :
    encodeBase58Check hash (version :: body) =
      .ok (stringOf 0 (base58Number hash (version :: body))) := by
  have first : ¬(version == 0) = true := by
    rw [beq_iff_eq]
    exact nonzero
  have takes (rest : List UInt8) : (version :: rest).takeWhile (· == 0) = [] :=
    List.takeWhile_cons_of_neg first
  have drops (rest : List UInt8) : (version :: rest).dropWhile (· == 0) = version :: rest :=
    List.dropWhile_cons_of_neg first
  rw [encodeBase58Check, Base58.encodeBase58_eq, List.cons_append, takes, drops]
  rfl

def leadingPair (pair : Nat) : List Char := Base58.charsOf [pair / 58, pair % 58]

theorem take_stringOf {value : Nat} (low : 58 ≤ value / 58 ^ 32) (high : value / 58 ^ 32 < 58 ^ 2) :
    (stringOf 0 value).take 2 = leadingPair (value / 58 ^ 32) := by
  obtain ⟨tail, _, digits⟩ := Radix.exists_low_digits (by decide : 1 < 58) 32 value (by omega)
  have pair : Nat.digits 58 (value / 58 ^ 32) = [value / 58 ^ 32 % 58, value / 58 ^ 32 / 58] := by
    have second : value / 58 ^ 32 / 58 < 58 := Nat.div_lt_of_lt_mul high
    have positive : 0 < value / 58 ^ 32 / 58 := Nat.div_pos low (by decide)
    rw [Nat.digits_def' (by decide) (by omega), Nat.digits_of_lt 58 _ positive.ne' second]
  rw [Base58.stringOf_eq, digits, pair, List.reverse_append]
  rfl

theorem isBech32_stringOf {value low count special : Nat} (lower : low * 58 ^ 32 ≤ value)
    (upper : value < (low + count) * 58 ^ 32) (two : 58 ≤ low) (few : low + count ≤ 58 ^ 2)
    (reads : ∀ offset < count,
      (isBech32 mainAddressParams (leadingPair (low + offset)) = true ↔ low + offset = special)) :
    isBech32 mainAddressParams (stringOf 0 value) = true ↔ value / 58 ^ 32 = special := by
  have atLeast : low ≤ value / 58 ^ 32 := (Nat.le_div_iff_mul_le (by decide)).mpr lower
  have atMost : value / 58 ^ 32 < low + count := (Nat.div_lt_iff_lt_mul (by decide)).mpr upper
  have front := take_stringOf (two.trans atLeast) (Nat.lt_of_lt_of_le atMost few)
  have frontOnly : isBech32 mainAddressParams (stringOf 0 value) =
      isBech32 mainAddressParams (leadingPair (value / 58 ^ 32)) := by
    change (((stringOf 0 value).take 2).map toLower == ['a', 'd']) = _
    rw [front]
    rfl
  obtain ⟨offset, isOffset⟩ := Nat.exists_eq_add_of_le atLeast
  rw [frontOnly, isOffset]
  exact reads offset (by omega)

theorem not_base58_of_isBech32 {str : List Char} {decoded : Decoded}
    (taken : isBech32 mainAddressParams str = true)
    (decodes : decodeDestination mainAddressParams hash locateErrors str = some decoded)
    (id : Bytes 20) : decoded.destination ≠ .pkHash id ∧ decoded.destination ≠ .scriptHash id := by
  have program (version : Nat) (data : List UInt8) :
      (decodeProgram version data).destination ≠ .pkHash id ∧
        (decodeProgram version data).destination ≠ .scriptHash id := by
    unfold decodeProgram
    dsimp only
    repeat' split
    all_goals simp [Decoded.valid, Decoded.error]
  have witness (dec : Bech32.DecodeResult) :
      (decodeBech32Data mainAddressParams dec).destination ≠ .pkHash id ∧
        (decodeBech32Data mainAddressParams dec).destination ≠ .scriptHash id := by
    unfold decodeBech32Data
    cases dec.data with
    | nil => simp [Decoded.error]
    | cons version rest =>
      dsimp only
      repeat' split
      all_goals first | exact program _ _ | simp [Decoded.error]
  rw [decodeDestination, if_pos taken] at decodes
  cases dec : Bech32.decode str with
  | some dec =>
    rw [dec] at decodes
    cases decodes
    exact witness _
  | none =>
    rw [dec] at decodes
    cases decodes
    simp

/-- A base58 destination is read back unless its string is taken for bech32. -/
theorem decodeDestination_base58 {version : UInt8} (nonzero : version ≠ 0) (id : Bytes 20)
    (other : isBech32 mainAddressParams
      (stringOf 0 (base58Number hash (version :: id.1))) = false) :
    decodeDestination mainAddressParams hash locateErrors
        (stringOf 0 (base58Number hash (version :: id.1))) =
      some (decodeBase58Data mainAddressParams (version :: id.1)) := by
  have size : (version :: id.1).length ≤ 21 := by rw [List.length_cons, id.2]
  obtain ⟨str, encodes, decodes⟩ := Base58.decodeBase58Check_encode hash size (by decide)
  rw [encodeBase58Check_eq nonzero] at encodes
  cases encodes
  rw [decodeDestination, other, if_neg Bool.false_ne_true, decodes]

variable (id : Bytes 20)

private theorem decodeBase58Data_key :
    decodeBase58Data mainAddressParams (23 :: id.1) = .valid (.pkHash id) := by
  rw [decodeBase58Data, dif_pos (by rw [List.length_cons, id.2]; exact ⟨rfl, rfl⟩)]
  rfl

private theorem decodeBase58Data_script :
    decodeBase58Data mainAddressParams (83 :: id.1) = .valid (.scriptHash id) := by
  rw [decodeBase58Data, dif_neg (by rintro ⟨_, front⟩; cases front),
    dif_pos (by rw [List.length_cons, id.2]; exact ⟨rfl, rfl⟩)]
  rfl

/-- With version byte 23 a string starts with `A`, and with `Ad` for one value of the leading
digits. -/
theorem isBech32_key :
    isBech32 mainAddressParams (stringOf 0 (base58Number hash (23 :: id.1))) = true ↔
      base58Number hash (23 :: id.1) / 58 ^ 32 = 9 * 58 + 36 := by
  obtain ⟨lower, upper⟩ := @base58Number_bounds hash [23] id.1
  rw [id.2] at lower upper
  apply @isBech32_stringOf _ 536 25
  · exact le_trans (by decide +kernel) lower
  · exact lt_of_lt_of_le upper (by decide +kernel)
  · decide
  · decide
  · decide +kernel

/-- With version byte 83 a string starts with `a`, and with `ad` for one value of the leading
digits. -/
theorem isBech32_script :
    isBech32 mainAddressParams (stringOf 0 (base58Number hash (83 :: id.1))) = true ↔
      base58Number hash (83 :: id.1) / 58 ^ 32 = 33 * 58 + 36 := by
  obtain ⟨lower, upper⟩ := @base58Number_bounds hash [83] id.1
  rw [id.2] at lower upper
  apply @isBech32_stringOf _ 1937 24
  · exact le_trans (by decide +kernel) lower
  · exact lt_of_lt_of_le upper (by decide +kernel)
  · decide
  · decide
  · decide +kernel

/-! ### Which addresses are read back -/

/-- The destinations whose address the node understands. A witness destination of the shape of
another kind is read as that kind, and what has no address is written as the empty string. -/
def Readable (hash : List UInt8 → Uint256) : CTxDestination → Prop
  | .pkHash id => base58Number hash (23 :: id.1) / 58 ^ 32 ≠ 9 * 58 + 36
  | .scriptHash id => base58Number hash (83 :: id.1) / 58 ^ 32 ≠ 33 * 58 + 36
  | .witnessV0KeyHash _ => True
  | .witnessV0ScriptHash _ => True
  | .witnessV1Taproot _ => True
  | .payToAnchor => True
  | .witnessUnknown version program =>
    (1 ≤ version ∧ version ≤ 16 ∧ 2 ≤ program.length ∧ program.length ≤ 40) ∧
      ¬(version = 1 ∧ program.length = 32) ∧ ¬(version = 1 ∧ program = ANCHOR_BYTES)
  | .noDestination script => script = []
  | .pubKeyDestination _ => False

theorem roundTrips_of_encode {dest : CTxDestination} {str : List Char} {decoded : Decoded}
    (encodes : encodeDestination mainAddressParams hash dest = some str)
    (decodes : decodeDestination mainAddressParams hash locateErrors str = some decoded) :
    RoundTrips mainAddressParams hash locateErrors dest ↔ decoded.destination = dest := by
  constructor
  · intro ⟨other, encodesOther, result, decodesOther, same⟩
    rw [encodes] at encodesOther
    cases encodesOther
    rw [decodes] at decodesOther
    cases decodesOther
    exact same
  · intro same
    exact ⟨str, encodes, decoded, decodes, same⟩

theorem roundTrips_base58_iff {version : UInt8} (nonzero : version ≠ 0) {id : Bytes 20}
    {dest : CTxDestination} (base58 : dest = .pkHash id ∨ dest = .scriptHash id)
    (encodes : encodeDestination mainAddressParams hash dest =
      (encodeBase58Check hash (version :: id.1)).toOption)
    (reads : decodeBase58Data mainAddressParams (version :: id.1) = .valid dest) :
    RoundTrips mainAddressParams hash locateErrors dest ↔
      ¬isBech32 mainAddressParams (stringOf 0 (base58Number hash (version :: id.1))) = true := by
  rw [encodeBase58Check_eq nonzero] at encodes
  constructor
  · intro ⟨str, encodesTo, decoded, decodes, same⟩ taken
    rw [encodes] at encodesTo
    cases encodesTo
    have neither := not_base58_of_isBech32 taken decodes id
    rw [same] at neither
    exact base58.elim neither.1 neither.2
  · intro other
    rw [Bool.not_eq_true] at other
    have decodes := @decodeDestination_base58 hash locateErrors _ nonzero id other
    rw [roundTrips_of_encode encodes decodes, reads]
    rfl

private theorem roundTrips_key_iff :
    RoundTrips mainAddressParams hash locateErrors (.pkHash id) ↔
      base58Number hash (23 :: id.1) / 58 ^ 32 ≠ 9 * 58 + 36 := by
  rw [ne_eq, ← isBech32_key]
  exact roundTrips_base58_iff (by decide) (.inl rfl) rfl (decodeBase58Data_key id)

theorem roundTrips_script_iff :
    RoundTrips mainAddressParams hash locateErrors (.scriptHash id) ↔
      base58Number hash (83 :: id.1) / 58 ^ 32 ≠ 33 * 58 + 36 := by
  rw [ne_eq, ← isBech32_script]
  exact roundTrips_base58_iff (by decide) (.inr rfl) rfl (decodeBase58Data_script id)

theorem roundTrips_witness_iff {dest : CTxDestination} {version : Nat} {program : List UInt8}
    (isVersion : version < 32) (short : program.length ≤ 40)
    (encodes : encodeDestination mainAddressParams hash dest =
      encodeWitness mainAddressParams (encodingOf version) version program) :
    RoundTrips mainAddressParams hash locateErrors dest ↔
      (decodeProgram version program).destination = dest := by
  obtain ⟨str, writes, decodes⟩ :=
    @decodeDestination_encodeWitness hash locateErrors version program isVersion short
  exact roundTrips_of_encode (encodes.trans writes) decodes

theorem decodeProgram_unknown {version : UInt32} {program : List UInt8} (positive : 1 ≤ version)
    (high : version ≤ 16) (long : 2 ≤ program.length) (short : program.length ≤ 40) :
    (decodeProgram version.toNat program).destination = .witnessUnknown version program ↔
      ¬(version = 1 ∧ program.length = 32) ∧ ¬(version = 1 ∧ program = ANCHOR_BYTES) := by
  have isOne : version.toNat = 1 ↔ version = 1 := UInt32.toNat_inj (b := 1)
  have notZero : version.toNat ≠ 0 := by
    have le : 1 ≤ version.toNat := UInt32.le_iff_toNat_le.mp positive
    omega
  have le : ¬version.toNat > 16 := by
    have le : version.toNat ≤ 16 := UInt32.le_iff_toNat_le.mp high
    omega
  have size : ¬(program.length < 2 ∨ program.length > BECH32_WITNESS_PROG_MAX_LEN) := by
    rw [BECH32_WITNESS_PROG_MAX_LEN]
    omega
  unfold decodeProgram
  dsimp only
  rw [if_neg notZero]
  by_cases taproot : version.toNat = 1 ∧ program.length = WITNESS_V1_TAPROOT_SIZE
  · rw [dif_pos taproot]
    refine iff_of_false nofun ?_
    intro ⟨other, _⟩
    exact absurd ⟨isOne.mp taproot.1, taproot.2⟩ other
  · rw [dif_neg taproot]
    have notTaproot : ¬(version = 1 ∧ program.length = 32) := by
      rw [← isOne]
      exact taproot
    by_cases anchor : isPayToAnchor version.toNat program = true
    · rw [if_pos anchor]
      rw [isPayToAnchor, Bool.and_eq_true, beq_iff_eq, beq_iff_eq, isOne] at anchor
      refine iff_of_false nofun ?_
      intro ⟨_, other⟩
      exact absurd anchor other
    · rw [if_neg anchor, if_neg le, if_neg size]
      rw [isPayToAnchor, Bool.and_eq_true, beq_iff_eq, beq_iff_eq, isOne] at anchor
      refine iff_of_true ?_ ⟨notTaproot, anchor⟩
      rw [Decoded.valid, UInt32.ofNat_toNat]

private theorem decodeDestination_nil : decodeDestination mainAddressParams hash locateErrors [] =
      some (.error "Invalid checksum or length of Base58 address (P2PKH or P2SH)") := by
  rfl

/-- On the main chain, whatever function makes the checksums, exactly the readable
destinations are read back from their addresses. -/
theorem address_read_back_iff (hash : List UInt8 → Uint256)
    (locateErrors : List Char → String × List Nat) (dest : CTxDestination) :
    RoundTrips mainAddressParams hash locateErrors dest ↔ Readable hash dest := by
  cases dest with
  | pkHash id => exact roundTrips_key_iff id
  | scriptHash id => exact roundTrips_script_iff id
  | witnessV0KeyHash id =>
    rw [roundTrips_witness_iff (by decide : 0 < 32) (by rw [id.2]; decide) rfl, Readable,
      decodeProgram, if_pos rfl, dif_pos id.2]
    exact iff_of_true rfl trivial
  | witnessV0ScriptHash id =>
    have notKey : ¬id.1.length = 20 := by
      rw [id.2]
      decide
    rw [roundTrips_witness_iff (by decide : 0 < 32) (by rw [id.2]; decide) rfl, Readable,
      decodeProgram, if_pos rfl, dif_neg notKey, dif_pos id.2]
    exact iff_of_true rfl trivial
  | witnessV1Taproot tap =>
    rw [roundTrips_witness_iff (by decide : 1 < 32) (by rw [tap.2]; decide) rfl, Readable,
      decodeProgram, if_neg (by decide), dif_pos ⟨rfl, tap.2⟩]
    exact iff_of_true rfl trivial
  | payToAnchor =>
    rw [roundTrips_witness_iff (by decide : 1 < 32) (by decide) rfl]
    exact iff_of_true rfl trivial
  | noDestination script =>
    rw [roundTrips_of_encode rfl decodeDestination_nil]
    constructor
    · intro same
      cases same
      rfl
    · intro empty
      rw [Readable] at empty
      rw [empty]
      rfl
  | pubKeyDestination pubkey =>
    rw [roundTrips_of_encode rfl decodeDestination_nil]
    exact iff_of_false nofun id
  | witnessUnknown version program =>
    by_cases outside : version < 1 ∨ version > 16 ∨ program.length < 2 ∨ program.length > 40
    · have encodes : encodeDestination mainAddressParams hash
          (.witnessUnknown version program) = some [] := if_pos outside
      rw [roundTrips_of_encode encodes decodeDestination_nil]
      apply iff_of_false
      · intro same
        cases same
      · intro ⟨⟨positive, high, long, short⟩, _⟩
        rcases outside with low | above | few | many
        · exact absurd low (UInt32.not_lt.mpr positive)
        · exact absurd above (UInt32.not_lt.mpr high)
        · omega
        · omega
    · have inside := outside
      simp only [not_or, UInt32.not_lt, Nat.not_lt, gt_iff_lt] at inside
      obtain ⟨positive, high, long, short⟩ := inside
      have low : 1 ≤ version.toNat := UInt32.le_iff_toNat_le.mp positive
      have top : version.toNat ≤ 16 := UInt32.le_iff_toNat_le.mp high
      have isOther : encodingOf version.toNat = .bech32m := if_neg (by omega)
      have encodes : encodeDestination mainAddressParams hash (.witnessUnknown version program) =
          encodeWitness mainAddressParams (encodingOf version.toNat) version.toNat program := by
        rw [isOther]
        exact if_neg outside
      rw [roundTrips_witness_iff (by omega) short encodes,
        decodeProgram_unknown positive high long short, Readable]
      exact (and_iff_right ⟨positive, high, long, short⟩).symm

/-- A key hash whose address starts with `Ad`, whatever its checksum is. -/
def adKeyHash : Bytes 20 :=
  ⟨[0xee, 0x52, 0x40, 0x0f, 0xb7, 0x2d, 0xea, 0xed, 0xb0, 0xfc, 0x16, 0xeb, 0x0c, 0xc8, 0x24, 0xc2,
    0x2d, 0x45, 0x7e, 0x6e], rfl⟩

theorem not_roundTrips_adKeyHash (hash : List UInt8 → Uint256)
    (locateErrors : List Char → String × List Nat) :
    ¬RoundTrips mainAddressParams hash locateErrors (.pkHash adKeyHash) := by
  have four : (digitsOf (checksum hash (23 :: adKeyHash.1))).length = 4 := by
    rw [digitsOf, List.length_map, Base58.checksum_length]
  have small := Radix.valueOf_lt (by decide) (@Base58.digitsOf_lt
    (checksum hash (23 :: adKeyHash.1)))
  have payload : Radix.valueOf 256 (digitsOf (23 :: adKeyHash.1)) =
      34975111703707142714522677221788249164467774258798 := by decide +kernel
  have number : base58Number hash (23 :: adKeyHash.1) =
      256 ^ 4 * 34975111703707142714522677221788249164467774258798 +
        Radix.valueOf 256 (digitsOf (checksum hash (23 :: adKeyHash.1))) := by
    rw [base58Number, digitsOf, List.map_append, Radix.valueOf_append, ← digitsOf,
      ← digitsOf, four, payload]
  rw [four] at small
  rw [roundTrips_key_iff, not_not, number]
  omega

theorem ad_address_not_read_back :
    ¬RoundTrips mainAddressParams (fun _ => 0) (fun _ => ("", [])) (.pkHash adKeyHash) :=
  not_roundTrips_adKeyHash _ _

end Adonai.Key
