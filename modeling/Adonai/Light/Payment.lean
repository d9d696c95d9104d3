/-
Which script the light wallet pays to.

The wallet writes every program it decodes behind the header of a key hash; the network
prefix, the witness version and the length of the program are not looked at.
-/

import Adonai.Light.WalletCore
import Adonai.Key.AddressScript

namespace Adonai.Light

open Key (Bytes mainAddressParams scriptOfAddress scriptOfAddress_keyHash_iff isBech32 utf8_ascii
  exists_utf8_high encodeWitness decode_encodeWitness map_ofNat_toNat)
open Bech32 (decode_some decode)
open BitGroups (regroup)

/-- A bech32 string of the main chain with version 0 and a program of 20 bytes. -/
def KeyHashAddress (address : List Char) : Prop :=
  (∀ c ∈ address, c.toNat < 128) ∧
    ∃ words, decode address = some ⟨.bech32, mainAddressParams.bech32HRP, 0 :: words⟩ ∧
      (regroup 5 8 false words).2 = true ∧ (regroup 5 8 false words).1.length = 20

private theorem ascii_of_decode {address : List Char} {dec : Bech32.DecodeResult}
    (decodes : decode (address.flatMap Key.utf8) = some dec) :
    ∀ c ∈ address, c.toNat < 128 := by
  intro c member
  by_contra high
  obtain ⟨byte, inside, unprintable⟩ := exists_utf8_high (Nat.not_lt.mp high)
  have printable := (decode_some decodes).printable byte
    (List.mem_flatMap.mpr ⟨c, member, inside⟩)
  omega

theorem isBech32_of_decode {address : List Char} {encoding : Bech32.Encoding} {data : List Nat}
    (decodes : decode address = some ⟨encoding, mainAddressParams.bech32HRP, data⟩) :
    isBech32 mainAddressParams address = true := by
  obtain ⟨pos, inside, isHrp⟩ := (decode_some decodes).hrp
  have two : pos = 2 := by
    have lengths := congrArg List.length isHrp
    rw [List.length_map, List.length_take, Nat.min_eq_left inside.le] at lengths
    exact lengths.symm
  rw [two] at isHrp
  exact beq_iff_eq.mpr isHrp.symm

variable {library : Bech32Library} {crypto : Crypto} {hash : List UInt8 → Uint256}
  {locateErrors : List Char → String × List Nat}

/-- Where the wallet pays at all, it pays what the node assigns to the address exactly when
the address is one of a key hash. -/
private theorem payScript_assigned_iff {address : List Char} {script : List UInt8}
    (pays : payScript library address = some script) :
    scriptOfAddress mainAddressParams hash locateErrors address = some script ↔
      KeyHashAddress address := by
  obtain ⟨⟨prefixed, words⟩, decodes, pays⟩ := Option.bind_eq_some_iff.mp pays
  obtain ⟨program, converts, pays⟩ := Option.bind_eq_some_iff.mp pays
  cases pays
  unfold p2wpkhScript
  rw [scriptOfAddress_keyHash_iff]
  constructor
  · intro assigned
    obtain ⟨groups, _, reads, ends, isProgram, length⟩ := assigned
    have ascii := ascii_of_decode reads
    rw [utf8_ascii ascii] at reads
    refine ⟨ascii, groups, reads, ends, ?_⟩
    rw [← length, ← isProgram, List.length_map]
  · intro known
    obtain ⟨ascii, groups, reads, ends, length⟩ := known
    rw [library.decode_ascii address ascii, reads] at decodes
    cases decodes
    have small : ∀ word ∈ groups, word < 32 := fun word member =>
      (decode_some reads).small word (List.mem_cons_of_mem _ member)
    rw [List.drop_one, List.tail_cons, library.fromWords_eq groups small, if_pos ends] at converts
    cases converts
    rw [utf8_ascii ascii]
    refine ⟨groups, isBech32_of_decode reads, reads, ends, rfl, ?_⟩
    rw [List.length_map]
    exact length

theorem payScript_encodeWitness (library : Bech32Library) (program : Bytes 20) :
    ∃ str, encodeWitness mainAddressParams .bech32 0 program.1 = some str ∧
      payScript library str = some (p2wpkhScript program.1) := by
  have short : program.1.length ≤ 40 := program.2.trans_le (by decide)
  obtain ⟨str, words, encodes, _, decodes, back⟩ := decode_encodeWitness (by decide : 0 < 32) short
  have known := decode_some decodes
  have ascii : ∀ c ∈ str, c.toNat < 128 := fun c member =>
    (known.printable c member).trans_lt (by decide)
  have small : ∀ word ∈ words, word < 32 := fun word member =>
    known.small word (List.mem_cons_of_mem _ member)
  refine ⟨str, encodes, ?_⟩
  rw [payScript, library.decode_ascii str ascii, decodes]
  change (library.fromWords words >>= fun hash => pure (p2wpkhScript hash)) = _
  rw [library.fromWords_eq words small, back, map_ofNat_toNat]
  rfl

private theorem length_regroup_le {words : List Nat} (small : ∀ word ∈ words, word < 32) :
    (regroup 5 8 false words).1.length ≤ words.length := by
  have holds : BitGroups.Holds 5 8 words (BitGroups.readAll 5 8 words) :=
    (BitGroups.readAll_holds (by decide) words small).1
  have lengths := congrArg List.length holds.bits
  rw [List.length_append, BitGroups.length_allBits, BitGroups.length_allBits] at lengths
  change (BitGroups.readAll 5 8 words).out.length ≤ words.length
  omega

def standardLibrary : Bech32Library where
  decode str := (decode str).bind fun dec =>
    if dec.encoding = .bech32 then some (dec.hrp, dec.data) else none
  fromWords words :=
    if (words.all fun word => word < 32) && (regroup 5 8 false words).2 then
      some ((regroup 5 8 false words).1.map UInt8.ofNat)
    else none
  decode_ascii _ _ := rfl
  decode_short str hrp words decodes := by
    obtain ⟨dec, reads, decodes⟩ := Option.bind_eq_some_iff.mp decodes
    split at decodes
    · cases decodes
      exact (decode_some reads).length.trans (decode_some reads).short
    · cases decodes
  fromWords_eq words small := by
    have all : (words.all fun word => word < 32) = true :=
      List.all_eq_true.mpr fun word member => decide_eq_true (small word member)
    rw [all, Bool.true_and]
  fromWords_short words bytes converts := by
    split at converts
    next both =>
      rw [Bool.and_eq_true, List.all_eq_true] at both
      cases converts
      rw [List.length_map]
      exact length_regroup_le fun word member => of_decide_eq_true (both.1 word member)
    · cases converts

/-- The outputs of a transaction that is built pay the scripts the node assigns to the two
addresses exactly when they are addresses of key hashes. -/
theorem buildAndSignTx_pays_iff {params : BuildTxParams} {hex : List Char}
    (builds : buildAndSignTx library crypto params = some hex) :
    ∃ recipientScript changeScript keys witnesses,
      Built library crypto params hex recipientScript changeScript keys witnesses ∧
      (∃ output, (outputsOf params.amountSats params.changeSats recipientScript changeScript)[0]? =
          some output ∧
        (scriptOfAddress mainAddressParams hash locateErrors params.recipientAddress =
          some output.scriptPubKey ↔ KeyHashAddress params.recipientAddress)) ∧
      (params.changeSats > 546 → ∃ output,
        (outputsOf params.amountSats params.changeSats recipientScript changeScript)[1]? =
          some output ∧
        (scriptOfAddress mainAddressParams hash locateErrors params.changeAddress =
          some output.scriptPubKey ↔ KeyHashAddress params.changeAddress)) := by
  obtain ⟨recipientScript, changeScript, keys, witnesses, built⟩ := buildAndSignTx_some builds
  refine ⟨recipientScript, changeScript, keys, witnesses, built, ?_, ?_⟩
  · refine ⟨{ scriptPubKey := recipientScript, valueSats := params.amountSats }, ?_,
      payScript_assigned_iff built.recipient⟩
    unfold outputsOf
    split <;> rfl
  · intro change
    refine ⟨{ scriptPubKey := changeScript, valueSats := params.changeSats }, ?_,
      payScript_assigned_iff built.change⟩
    rw [outputsOf, if_pos change]
    rfl

def zeros (size : Nat) : Bytes size := ⟨List.replicate size 0, List.length_replicate⟩

def zeroCrypto : Crypto where
  sha256 _ := (zeros 32).1
  ripemd160 _ := zeros 20
  deriveKeyAtIndex _ _ _ _ := some ⟨zeros 32, zeros 33⟩
  ecdsa _ _ := (zeros 8).1
  ecdsa_length _ _ := by
    rw [(zeros 8).2]
    decide

def zeroTxid : Txid where
  text := List.replicate 64 '0'
  length := List.length_replicate
  digits c member := by
    rw [List.eq_of_mem_replicate member]
    rfl

def keyHashAddress : List Char := "ad1qqqqqqqqqqqqqqqqqqqqqqqqqqqqqqqqqe3n4sq".toList

def scriptHashAddress : List Char :=
  "ad1qqqqqqqqqqqqqqqqqqqqqqqqqqqqqqqqqqqqqqqqqqqqqqqqqqqqq0flw0q".toList

def payingTo (address : List Char) : BuildTxParams where
  utxos := [{ txid := zeroTxid
              vout := 0
              amountAdo := 1
              isChange := false
              index := 0
              vout_lt := by decide }]
  recipientAddress := address
  amountAdo := 1
  changeAddress := keyHashAddress
  feeAdo := 0
  mnemonic := ""
  passphrase := ""

def payingHalf : BuildTxParams := { payingTo keyHashAddress with amountAdo := 1 / 2 }

theorem buildAndSignTx_pays_keyHash : ∃ hex recipientScript changeScript keys witnesses,
      Built standardLibrary zeroCrypto payingHalf hex recipientScript changeScript keys
          witnesses ∧
        (∃ output, (outputsOf payingHalf.amountSats payingHalf.changeSats recipientScript
            changeScript)[0]? = some output ∧
          (scriptOfAddress mainAddressParams (fun _ => 0) (fun _ => ("", [])) keyHashAddress =
            some output.scriptPubKey ↔ KeyHashAddress keyHashAddress)) ∧
        ∃ output, (outputsOf payingHalf.amountSats payingHalf.changeSats recipientScript
            changeScript)[1]? = some output ∧
          (scriptOfAddress mainAddressParams (fun _ => 0) (fun _ => ("", [])) keyHashAddress =
            some output.scriptPubKey ↔ KeyHashAddress keyHashAddress) := by
  obtain ⟨hex, builds⟩ : ∃ hex, buildAndSignTx standardLibrary zeroCrypto payingHalf = some hex :=
    Option.isSome_iff_exists.mp (by decide +kernel)
  obtain ⟨recipientScript, changeScript, keys, witnesses, built, pays, change⟩ :=
    buildAndSignTx_pays_iff builds
  exact ⟨hex, recipientScript, changeScript, keys, witnesses, built, pays,
    change (by decide +kernel)⟩

/-- The node reads 32 zeros as a script hash; the wallet writes them behind the header of a
key hash. -/
theorem scriptHash_paid_as_keyHash :
    (buildAndSignTx standardLibrary zeroCrypto (payingTo scriptHashAddress)).isSome = true ∧
      payScript standardLibrary (payingTo scriptHashAddress).recipientAddress =
        some (0x00 :: 0x14 :: List.replicate 32 0) ∧
      scriptOfAddress mainAddressParams (fun _ => 0) (fun _ => ("", []))
          (payingTo scriptHashAddress).recipientAddress =
        some (0x00 :: 0x20 :: List.replicate 32 0) := by
  decide +kernel

end Adonai.Light
