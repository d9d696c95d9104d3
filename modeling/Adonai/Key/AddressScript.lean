/-
The output script the node assigns to an address.

A string reaches the node in UTF-8; characters with codes below 256 stand for its bytes.
-/

import Adonai.Key.Destination
import Adonai.Script.Bytes

namespace Adonai.Key

open BitGroups (regroup)
open CScript (pushData OP_0)
open Compressor

def encodeOP_N (n : UInt32) : UInt8 := if n = 0 then OP_0 else CScript.OP_1 + n.toUInt8 - 1

def getScriptForDestination : CTxDestination → CScript
  | .noDestination script => script
  | .pubKeyDestination pubkey => pushData pubkey ++ [OP_CHECKSIG]
  | .pkHash id => [OP_DUP, OP_HASH160] ++ pushData id.1 ++ [OP_EQUALVERIFY, OP_CHECKSIG]
  | .scriptHash id => [OP_HASH160] ++ pushData id.1 ++ [OP_EQUAL]
  | .witnessV0KeyHash id => OP_0 :: pushData id.1
  | .witnessV0ScriptHash id => OP_0 :: pushData id.1
  | .witnessV1Taproot tap => CScript.OP_1 :: pushData tap.1
  | .witnessUnknown version program => encodeOP_N version :: pushData program
  | .payToAnchor => encodeOP_N 1 :: pushData ANCHOR_BYTES

def isValidDestination : CTxDestination → Bool
  | .noDestination _ => false
  | .pubKeyDestination _ => false
  | _ => true

def utf8 (c : Char) : List Char :=
  let n := c.toNat
  if n < 0x80 then [c]
  else if n < 0x800 then [Char.ofNat (0xc0 + n / 64), Char.ofNat (0x80 + n % 64)]
  else if n < 0x10000 then
    [Char.ofNat (0xe0 + n / 4096), Char.ofNat (0x80 + n / 64 % 64), Char.ofNat (0x80 + n % 64)]
  else
    [Char.ofNat (0xf0 + n / 262144), Char.ofNat (0x80 + n / 4096 % 64),
      Char.ofNat (0x80 + n / 64 % 64), Char.ofNat (0x80 + n % 64)]

theorem utf8_ascii {str : List Char} (ascii : ∀ c ∈ str, c.toNat < 128) :
    str.flatMap utf8 = str := by
  induction str with
  | nil => rfl
  | cons c str ih =>
    rw [List.forall_mem_cons] at ascii
    rw [List.flatMap_cons, ih ascii.2, utf8, if_pos ascii.1]
    rfl

private theorem toNat_ofNat_of_small {n : Nat} (small : n < 0xd800) : (Char.ofNat n).toNat = n := by
  have valid : n.isValidChar := .inl small
  rw [Char.ofNat, dif_pos valid]
  rfl

theorem exists_utf8_high {c : Char} (high : 128 ≤ c.toNat) : ∃ byte ∈ utf8 c, byte.toNat > 126 := by
  have code : c.toNat < 0x110000 := by
    have valid := c.valid
    change c.val.toNat < _
    omega
  unfold utf8
  rw [if_neg (Nat.not_lt.mpr high)]
  split_ifs
  all_goals
    refine ⟨_, List.mem_cons_self, ?_⟩
    rw [toNat_ofNat_of_small (by omega)]
    omega

section

variable (params : AddressParams) (hash : List UInt8 → Uint256)
  (locateErrors : List Char → String × List Nat)

def scriptOfAddress (str : List Char) : Option CScript :=
  (decodeDestination params hash locateErrors (str.flatMap utf8)).bind fun decoded =>
    if isValidDestination decoded.destination then
      some (getScriptForDestination decoded.destination)
    else none

end

variable {hash : List UInt8 → Uint256} {locateErrors : List Char → String × List Nat}

variable {id : List UInt8}

private theorem getScriptForDestination_keyHash (isKey : id.length = 20) :
    getScriptForDestination (.witnessV0KeyHash ⟨id, isKey⟩) = 0x00 :: 0x14 :: id := by
  change OP_0 :: (CScript.dataSize id.length ++ id) = _
  rw [isKey]
  rfl

private theorem encodeOP_N_ne_zero : ∀ version ≤ 16, version ≠ 0 →
    encodeOP_N (UInt32.ofNat version) ≠ 0 := by
  decide

/-- Of all witness programs only a key hash of version 0 has a script of this form. -/
theorem decodeProgram_keyHash {version : Nat} {data : List UInt8}
    (valid : isValidDestination (decodeProgram version data).destination = true)
    (script : getScriptForDestination (decodeProgram version data).destination = 0x00 :: 0x14 :: id)
    : version = 0 ∧ data.length = 20 ∧ data = id := by
  generalize isDecoded : decodeProgram version data = decoded at valid script
  unfold decodeProgram at isDecoded
  dsimp only at isDecoded
  split at isDecoded
  next zero =>
    split at isDecoded
    next isKey =>
      rw [← isDecoded] at script
      change getScriptForDestination (.witnessV0KeyHash ⟨data, isKey⟩) = _ at script
      rw [getScriptForDestination_keyHash] at script
      exact ⟨zero, isKey, (List.cons.inj (List.cons.inj script).2).2⟩
    · split at isDecoded
      next isScript =>
        rw [← isDecoded] at script
        change OP_0 :: (CScript.dataSize data.length ++ data) = _ at script
        rw [isScript] at script
        cases (List.cons.inj (List.cons.inj script).2).1
      · subst isDecoded
        cases valid
  next later =>
    split at isDecoded
    · subst isDecoded
      cases (List.cons.inj script).1
    split at isDecoded
    · subst isDecoded
      cases (List.cons.inj script).1
    split at isDecoded
    · subst isDecoded
      cases valid
    next known =>
    split at isDecoded
    · subst isDecoded
      cases valid
    · subst isDecoded
      exact absurd (List.cons.inj script).1
        (encodeOP_N_ne_zero version (Nat.not_lt.mp known) later)

variable {params : AddressParams}

theorem decodeBase58Data_keyHash {data : List UInt8}
    (valid : isValidDestination (decodeBase58Data params data).destination = true) :
    getScriptForDestination (decodeBase58Data params data).destination ≠ 0x00 :: 0x14 :: id := by
  intro script
  generalize isDecoded : decodeBase58Data params data = decoded at valid script
  unfold decodeBase58Data at isDecoded
  dsimp only at isDecoded
  split_ifs at isDecoded
  all_goals
    subst isDecoded
    first
    | cases (List.cons.inj script).1
    | cases valid

theorem decodeBech32Data_keyHash {dec : Bech32.DecodeResult}
    (valid : isValidDestination (decodeBech32Data params dec).destination = true)
    (script : getScriptForDestination (decodeBech32Data params dec).destination = 0x00 :: 0x14 ::
      id) : ∃ words, dec = ⟨.bech32, params.bech32HRP, 0 :: words⟩ ∧
      (regroup 5 8 false words).2 = true ∧
      (regroup 5 8 false words).1.map UInt8.ofNat = id ∧ id.length = 20 := by
  obtain ⟨encoding, hrp, data⟩ := dec
  cases data with
  | nil => cases valid
  | cons version words => ?_
  unfold decodeBech32Data convertBits at valid script
  dsimp only at valid script
  split at valid
  · cases valid
  next isHrp =>
  rw [if_neg isHrp] at script
  split at valid
  · cases valid
  next zeroEncoding =>
  rw [if_neg zeroEncoding] at script
  split at valid
  · cases valid
  next laterEncoding =>
  rw [if_neg laterEncoding] at script
  cases groups : regroup 5 8 false words with
  | mk bytes ends =>
    rw [groups] at valid script
    cases ends with
    | false => cases valid
    | true => ?_
    obtain ⟨zero, length, same⟩ := decodeProgram_keyHash valid script
    have isBech32 : encoding = .bech32 := not_not.mp fun other =>
      zeroEncoding ⟨zero, other⟩
    refine ⟨words, ?_, ?_, ?_, ?_⟩
    · rw [isBech32, not_not.mp isHrp, zero]
    · rw [groups]
    · rw [groups]
      exact same
    · rw [← same]
      exact length

/-- The node pays a key hash of version 0 exactly for a bech32 string with the prefix of the
chain, version 0 and 20 bytes. -/
theorem scriptOfAddress_keyHash_iff {str : List Char} :
    scriptOfAddress params hash locateErrors str = some (0x00 :: 0x14 :: id) ↔
      ∃ words, isBech32 params (str.flatMap utf8) = true ∧
        Bech32.decode (str.flatMap utf8) = some ⟨.bech32, params.bech32HRP, 0 :: words⟩ ∧
        (regroup 5 8 false words).2 = true ∧
        (regroup 5 8 false words).1.map UInt8.ofNat = id ∧ id.length = 20 := by
  constructor
  · intro assigned
    obtain ⟨decoded, decodes, assigned⟩ := Option.bind_eq_some_iff.mp assigned
    split at assigned
    next valid =>
      have script := Option.some.inj assigned
      unfold decodeDestination at decodes
      split at decodes
      next isWitness =>
        cases reads : Bech32.decode (str.flatMap utf8) with
        | none =>
          rw [reads] at decodes
          cases decodes
          cases valid
        | some dec =>
          rw [reads] at decodes
          cases decodes
          obtain ⟨words, isDec, rest⟩ := decodeBech32Data_keyHash valid script
          exact ⟨words, isWitness, by rw [isDec], rest⟩
      next =>
        split at decodes
        · cases decodes
          exact absurd script (decodeBase58Data_keyHash valid)
        · cases decodes
        · split at decodes
          · cases decodes
          · cases decodes
            cases valid
          · cases decodes
            cases valid
    · cases assigned
  · intro known
    obtain ⟨words, isWitness, decodes, ends, isId, length⟩ := known
    have program : decodeProgram 0 ((regroup 5 8 false words).1.map UInt8.ofNat) =
        .valid (.witnessV0KeyHash ⟨id, length⟩) := by
      unfold decodeProgram
      simp only [isId, length, if_true, dif_pos]
    have decoded : decodeBech32Data params ⟨.bech32, params.bech32HRP, 0 :: words⟩ =
        .valid (.witnessV0KeyHash ⟨id, length⟩) := by
      unfold decodeBech32Data convertBits
      dsimp only
      rw [if_neg (not_not_intro rfl)]
      cases groups : regroup 5 8 false words with
      | mk bytes fits =>
        rw [groups] at ends program
        rw [show fits = true from ends]
        exact program
    rw [scriptOfAddress, decodeDestination, if_pos isWitness, decodes]
    dsimp only
    rw [decoded]
    exact congrArg some (getScriptForDestination_keyHash length)

end Adonai.Key
