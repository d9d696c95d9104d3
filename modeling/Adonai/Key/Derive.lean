/-
Derivation of child keys, and the derivation BIP32 defines.

HMAC-SHA512 is an arbitrary function, and the curve is given by its three operations. `BIP32Hash`
writes the index as it lies in memory, so the byte order of the host is a parameter; BIP32 asks for
the most significant byte first.
-/

import Adonai.Primitives.Block

namespace Adonai.Key

abbrev Bytes (size : Nat) := { bytes : List UInt8 // bytes.length = size }

def firstHalf (out : Bytes 64) : Bytes 32 := ⟨out.1.take 32, by rw [List.length_take, out.2]; rfl⟩

def secondHalf (out : Bytes 64) : Bytes 32 := ⟨out.1.drop 32, by rw [List.length_drop, out.2]⟩

def joinHalves (first second : Bytes 32) : Bytes 64 :=
  ⟨first.1 ++ second.1, by rw [List.length_append, first.2, second.2]⟩

theorem firstHalf_join (first second : Bytes 32) : firstHalf (joinHalves first second) = first :=
  Subtype.ext (List.take_left' first.2)

theorem secondHalf_join (first second : Bytes 32) : secondHalf (joinHalves first second) = second :=
  Subtype.ext (List.drop_left' first.2)

structure CPubKey where
  header : UInt8
  data : Bytes 32
  compressed : header = 2 ∨ header = 3
  deriving DecidableEq

structure CKey where
  keydata : Bytes 32
  deriving DecidableEq

abbrev ChainCode := Bytes 32

abbrev HmacSha512 := ChainCode → List UInt8 → Bytes 64

/-- The operations of the curve, where `none` is an invalid result; `getID` is the hash that
identifies a public key. -/
structure Secp256k1 where
  getPubKey : CKey → CPubKey
  seckeyTweakAdd : CKey → Bytes 32 → Option CKey
  pubkeyTweakAdd : CPubKey → Bytes 32 → Option CPubKey
  getID : CPubKey → List UInt8

inductive ByteOrder where
  | little
  | big
  deriving DecidableEq, Repr

def ByteOrder.memory (order : ByteOrder) (value : UInt32) : List UInt8 :=
  match order with
  | .little => littleEndian 4 value.toNat
  | .big => (littleEndian 4 value.toNat).reverse

def bip32Hash (hmac : HmacSha512) (order : ByteOrder) (chainCode : ChainCode) (child : UInt32)
    (header : UInt8) (data : Bytes 32) : Bytes 64 :=
  hmac chainCode ([header] ++ data.1 ++ order.memory child)

def CKey.derive (curve : Secp256k1) (hmac : HmacSha512) (order : ByteOrder) (key : CKey)
    (nChild : UInt32) (cc : ChainCode) : Option (CKey × ChainCode) :=
  let vout :=
    if nChild.toNat / 2 ^ 31 = 0 then
      let pubkey := curve.getPubKey key
      bip32Hash hmac order cc nChild pubkey.header pubkey.data
    else bip32Hash hmac order cc nChild 0 key.keydata
  (curve.seckeyTweakAdd key (firstHalf vout)).map fun keyChild => (keyChild, secondHalf vout)

inductive DeriveFailure where
  | assertion
  | refused
  deriving DecidableEq, Repr

def CPubKey.derive (curve : Secp256k1) (hmac : HmacSha512) (order : ByteOrder) (pubkey : CPubKey)
    (nChild : UInt32) (cc : ChainCode) : Except DeriveFailure (CPubKey × ChainCode) :=
  if nChild.toNat / 2 ^ 31 ≠ 0 then .error .assertion
  else
    let out := bip32Hash hmac order cc nChild pubkey.header pubkey.data
    match curve.pubkeyTweakAdd pubkey (firstHalf out) with
    | none => .error .refused
    | some pubkeyChild => .ok (pubkeyChild, secondHalf out)

structure CExtPubKey where
  nDepth : UInt8
  vchFingerprint : List UInt8
  nChild : UInt32
  chaincode : ChainCode
  pubkey : CPubKey
  deriving DecidableEq

def CExtPubKey.derive (curve : Secp256k1) (hmac : HmacSha512) (order : ByteOrder) (key : CExtPubKey)
    (nChild : UInt32) : Except DeriveFailure CExtPubKey :=
  if key.nDepth = 255 then .error .refused
  else
    (key.pubkey.derive curve hmac order nChild key.chaincode).map fun child =>
      { nDepth := key.nDepth + 1
        vchFingerprint := (curve.getID key.pubkey).take 4
        nChild := nChild
        chaincode := child.2
        pubkey := child.1 }

def CExtPubKey.derivePath (curve : Secp256k1) (hmac : HmacSha512) (order : ByteOrder) :
    CExtPubKey → List UInt32 → Except DeriveFailure CExtPubKey
  | key, [] => .ok key
  | key, entry :: path => do
    let child ← key.derive curve hmac order entry
    child.derivePath curve hmac order path

namespace Bip32

/-- The most significant byte first. -/
def ser32 (i : UInt32) : List UInt8 :=
  [UInt8.ofNat (i.toNat / 2 ^ 24), UInt8.ofNat (i.toNat / 2 ^ 16), UInt8.ofNat (i.toNat / 2 ^ 8),
    UInt8.ofNat i.toNat]

def serP (point : CPubKey) : List UInt8 := point.header :: point.data.1

def ser256 (key : CKey) : List UInt8 := key.keydata.1

def hardened (i : UInt32) : Prop := 2 ^ 31 ≤ i.toNat

instance (i : UInt32) : Decidable (hardened i) := inferInstanceAs (Decidable (2 ^ 31 ≤ i.toNat))

def ckdPriv (curve : Secp256k1) (hmac : HmacSha512) (k : CKey) (i : UInt32) (c : ChainCode) :
    Option (CKey × ChainCode) :=
  let I :=
    if hardened i then hmac c (0 :: ser256 k ++ ser32 i)
    else hmac c (serP (curve.getPubKey k) ++ ser32 i)
  (curve.seckeyTweakAdd k (firstHalf I)).map fun child => (child, secondHalf I)

def ckdPub (curve : Secp256k1) (hmac : HmacSha512) (K : CPubKey) (i : UInt32) (c : ChainCode) :
    Option (CPubKey × ChainCode) :=
  if hardened i then none
  else
    let I := hmac c (serP K ++ ser32 i)
    (curve.pubkeyTweakAdd K (firstHalf I)).map fun child => (child, secondHalf I)

def ckdPubPath (curve : Secp256k1) (hmac : HmacSha512) :
    CPubKey × ChainCode → List UInt32 → Option (CPubKey × ChainCode)
  | key, [] => some key
  | key, i :: path => do
    let child ← ckdPub curve hmac key.1 i key.2
    ckdPubPath curve hmac child path

end Bip32

open Bip32 (ser32 hardened ckdPriv)

def BytePalindrome (i : UInt32) : Prop := (ser32 i).reverse = ser32 i

instance (i : UInt32) : Decidable (BytePalindrome i) :=
  inferInstanceAs (Decidable ((ser32 i).reverse = ser32 i))

variable (order : ByteOrder)

def StoresAsBip32 (i : UInt32) : Prop := order = .big ∨ BytePalindrome i

instance (order : ByteOrder) (i : UInt32) : Decidable (StoresAsBip32 order i) :=
  inferInstanceAs (Decidable (order = .big ∨ BytePalindrome i))

variable (i : UInt32)

private theorem littleEndian_eq_reverse : littleEndian 4 i.toNat = (ser32 i).reverse := by
  simp only [littleEndian, ser32, List.reverse_cons, List.reverse_nil, List.nil_append,
    List.cons_append, Nat.div_div_eq_div_mul, Nat.reducePow]

private theorem memory_eq_iff : order.memory i = ser32 i ↔ StoresAsBip32 order i := by
  cases order with
  | little =>
    rw [ByteOrder.memory, littleEndian_eq_reverse]
    exact ⟨Or.inr, fun stores => stores.resolve_left (fun same => nomatch same)⟩
  | big =>
    rw [ByteOrder.memory, littleEndian_eq_reverse]
    exact iff_of_true rfl (.inl rfl)

private theorem not_hardened_iff : ¬ hardened i ↔ i.toNat / 2 ^ 31 = 0 := by
  rw [hardened]
  omega

def finish {K : Type} (tweakAdd : Bytes 32 → Option K) (out : Bytes 64) : Option (K × ChainCode) :=
  (tweakAdd (firstHalf out)).map fun child => (child, secondHalf out)

/-- Two messages give the same child under every HMAC only when they are the same. -/
theorem finish_eq_iff {K : Type} {tweakAdd : Bytes 32 → Option K}
    (usable : ∃ tweak, (tweakAdd tweak).isSome) (cc : ChainCode) (first second : List UInt8) :
    (∀ hmac : HmacSha512, finish tweakAdd (hmac cc first) = finish tweakAdd (hmac cc second)) ↔
      first = second := by
  constructor
  · intro same
    obtain ⟨tweak, isSome⟩ := usable
    obtain ⟨child, added⟩ := Option.isSome_iff_exists.mp isSome
    -- an HMAC whose second half tells the one message from every other
    let mark (bit : UInt8) : Bytes 32 := ⟨List.replicate 32 bit, List.length_replicate⟩
    let telling : HmacSha512 := fun _ message =>
      joinHalves tweak (mark (if message = second then 1 else 0))
    have told : ∀ message, finish tweakAdd (telling cc message) =
        some (child, mark (if message = second then 1 else 0)) := by
      intro message
      rw [finish, firstHalf_join, added, secondHalf_join]
      rfl
    have marks := same telling
    rw [told, told, if_pos rfl, Option.some.injEq, Prod.mk.injEq] at marks
    by_contra different
    rw [if_neg different] at marks
    exact absurd (congrArg (fun bytes => bytes.1.head?) marks.2) (by decide)
  · rintro rfl _
    rfl

theorem message_eq_iff (header : UInt8) (data : List UInt8) :
    [header] ++ data ++ order.memory i = header :: data ++ ser32 i ↔ StoresAsBip32 order i := by
  rw [List.singleton_append, List.append_cancel_left_eq, memory_eq_iff]

section Derivation

variable (curve : Secp256k1) (order : ByteOrder)

theorem cKey_derive_iff {key : CKey} (usable : ∃ tweak, (curve.seckeyTweakAdd key tweak).isSome)
    (i : UInt32) (cc : ChainCode) :
    (∀ hmac, key.derive curve hmac order i cc = ckdPriv curve hmac key i cc) ↔
      StoresAsBip32 order i := by
  by_cases hard : hardened i
  · have notZero : ¬ i.toNat / 2 ^ 31 = 0 := fun zero => (not_hardened_iff i).mpr zero hard
    rw [← message_eq_iff order i 0 key.keydata.1, ← finish_eq_iff usable cc]
    refine forall_congr' fun hmac => ?_
    rw [CKey.derive, ckdPriv, if_neg notZero, if_pos hard]
    rfl
  · have isZero := (not_hardened_iff i).mp hard
    rw [← message_eq_iff order i (curve.getPubKey key).header (curve.getPubKey key).data.1,
      ← finish_eq_iff usable cc]
    refine forall_congr' fun hmac => ?_
    rw [CKey.derive, ckdPriv, if_pos isZero, if_neg hard]
    rfl

theorem cPubKey_derive_ok_iff (hmac : HmacSha512) (pubkey : CPubKey) {i : UInt32}
    (soft : ¬ hardened i) (cc : ChainCode) : (pubkey.derive curve hmac order i cc).toOption =
      finish (curve.pubkeyTweakAdd pubkey)
        (hmac cc ([pubkey.header] ++ pubkey.data.1 ++ order.memory i)) := by
  rw [CPubKey.derive, if_neg (not_not.mpr ((not_hardened_iff i).mp soft)), finish, bip32Hash]
  dsimp only
  cases curve.pubkeyTweakAdd pubkey _ with
  | none => rfl
  | some child => rfl

theorem cPubKey_derive_iff {pubkey : CPubKey}
    (usable : ∃ tweak, (curve.pubkeyTweakAdd pubkey tweak).isSome) {i : UInt32}
    (soft : ¬ hardened i) (cc : ChainCode) :
    (∀ hmac, (pubkey.derive curve hmac order i cc).toOption = Bip32.ckdPub curve hmac pubkey i cc) ↔
      StoresAsBip32 order i := by
  rw [← message_eq_iff order i pubkey.header pubkey.data.1, ← finish_eq_iff usable cc]
  refine forall_congr' fun hmac => ?_
  rw [cPubKey_derive_ok_iff curve order hmac pubkey soft, Bip32.ckdPub, if_neg soft]
  rfl

theorem derivePath_eq (hmac : HmacSha512) (key : CExtPubKey) (path : List UInt32)
    (deep : key.nDepth.toNat + path.length ≤ 255)
    (agrees : ∀ i ∈ path, ¬ hardened i ∧ StoresAsBip32 order i) :
    ((key.derivePath curve hmac order path).toOption.map fun child =>
        (child.pubkey, child.chaincode)) =
      Bip32.ckdPubPath curve hmac (key.pubkey, key.chaincode) path := by
  induction path generalizing key with
  | nil => rfl
  | cons i path ih =>
    rw [List.forall_mem_cons] at agrees
    obtain ⟨⟨soft, stores⟩, rest⟩ := agrees
    have notDeepest : key.nDepth ≠ 255 := by
      intro deepest
      rw [deepest] at deep
      change 255 + (path.length + 1) ≤ 255 at deep
      omega
    have step : (key.pubkey.derive curve hmac order i key.chaincode).toOption =
        Bip32.ckdPub curve hmac key.pubkey i key.chaincode := by
      rw [cPubKey_derive_ok_iff curve order hmac key.pubkey soft,
        (message_eq_iff order i key.pubkey.header key.pubkey.data.1).mpr stores, Bip32.ckdPub,
        if_neg soft]
      rfl
    rw [CExtPubKey.derivePath, CExtPubKey.derive, if_neg notDeepest, Bip32.ckdPubPath, ← step]
    cases derived : key.pubkey.derive curve hmac order i key.chaincode with
    | error failure => rfl
    | ok child => ?_
    have next := ih
      { nDepth := key.nDepth + 1
        vchFingerprint := (curve.getID key.pubkey).take 4
        nChild := i
        chaincode := child.2
        pubkey := child.1 } ?_ rest
    · exact next
    · rw [List.length_cons] at deep
      have next : (key.nDepth + 1).toNat = key.nDepth.toNat + 1 := by
        change (key.nDepth.toNat + 1) % 256 = _
        omega
      change (key.nDepth + 1).toNat + path.length ≤ 255
      omega

/-- A key that can be tweaked at all is derived as BIP32 defines, whatever HMAC is, exactly
when the host stores the index with the most significant byte first; along a path of such
indexes every key and chain code, and with it every address, is the one BIP32 defines. -/
theorem derive_bip32_iff (key : CKey) (pubkey : CPubKey) (cc : ChainCode) (i : UInt32)
    (usableKey : ∃ tweak, (curve.seckeyTweakAdd key tweak).isSome)
    (usablePubkey : ∃ tweak, (curve.pubkeyTweakAdd pubkey tweak).isSome) :
    ((∀ hmac, key.derive curve hmac order i cc = ckdPriv curve hmac key i cc) ↔
        StoresAsBip32 order i) ∧
      (¬ hardened i →
        ((∀ hmac, (pubkey.derive curve hmac order i cc).toOption =
            Bip32.ckdPub curve hmac pubkey i cc) ↔ StoresAsBip32 order i)) ∧
      ∀ (Address : Type) (address : CPubKey → Address) (hmac : HmacSha512) (xpub : CExtPubKey)
        (path : List UInt32), xpub.nDepth.toNat + path.length ≤ 255 →
          (∀ j ∈ path, ¬ hardened j ∧ StoresAsBip32 order j) →
            ((xpub.derivePath curve hmac order path).toOption.map fun child =>
              address child.pubkey) =
              (Bip32.ckdPubPath curve hmac (xpub.pubkey, xpub.chaincode) path).map
                fun child => address child.1 := by
  refine ⟨cKey_derive_iff curve order usableKey i cc,
    fun soft => cPubKey_derive_iff curve order usablePubkey soft cc, ?_⟩
  intro Address address hmac xpub path deep agrees
  rw [← derivePath_eq curve order hmac xpub path deep agrees, Option.map_map]
  rfl

end Derivation

def bytesOf (byte : UInt8) : Bytes 32 := ⟨List.replicate 32 byte, List.length_replicate⟩

def toyCurve : Secp256k1 where
  getPubKey key := { header := 2, data := key.keydata, compressed := .inl rfl }
  seckeyTweakAdd _ tweak := some { keydata := tweak }
  pubkeyTweakAdd _ tweak := some { header := 2, data := tweak, compressed := .inl rfl }
  getID pubkey := pubkey.data.1

def toyHmac : HmacSha512 := fun _ message =>
  ⟨(message.reverse ++ List.replicate 64 0).take 64, by
    rw [List.length_take, List.length_append, List.length_replicate]
    omega⟩

def toyKey : CKey := { keydata := bytesOf 7 }

def toyPubkey : CPubKey := { header := 2, data := bytesOf 9, compressed := .inl rfl }

def toyXpub : CExtPubKey :=
  { nDepth := 0, vchFingerprint := [], nChild := 0, chaincode := bytesOf 1, pubkey := toyPubkey }

theorem derive_bip32_zero : (∀ hmac, toyKey.derive toyCurve hmac .little 0 (bytesOf 1) =
        ckdPriv toyCurve hmac toyKey 0 (bytesOf 1)) ∧
      (toyXpub.derivePath toyCurve toyHmac .little [0, 0x01000001]).toOption.map
          (fun child => child.pubkey) =
        (Bip32.ckdPubPath toyCurve toyHmac (toyXpub.pubkey, toyXpub.chaincode)
          [0, 0x01000001]).map fun child => child.1 := by
  have law := derive_bip32_iff toyCurve .little toyKey toyPubkey (bytesOf 1) 0 ⟨bytesOf 0, rfl⟩
    ⟨bytesOf 0, rfl⟩
  have agrees : ∀ j ∈ [(0 : UInt32), 0x01000001], ¬ hardened j ∧ StoresAsBip32 .little j := by
    simp only [List.forall_mem_cons]
    exact ⟨by decide +kernel, by decide +kernel, List.forall_mem_nil _⟩
  exact ⟨law.1.mpr (.inr (by decide +kernel)),
    law.2.2 CPubKey id toyHmac toyXpub [0, 0x01000001] (by decide +kernel) agrees⟩

/-- Branch 0, index 1 on a host that stores the least significant byte first. -/
theorem derive_bip32_differs :
    (ByteOrder.little.memory 1 = [1, 0, 0, 0] ∧ ser32 1 = [0, 0, 0, 1]) ∧
      (toyXpub.derivePath toyCurve toyHmac .little [0, 1]).toOption.map
          (fun child => child.pubkey) ≠
        (Bip32.ckdPubPath toyCurve toyHmac (toyXpub.pubkey, toyXpub.chaincode) [0, 1]).map
          fun child => child.1 := by
  decide +kernel

end Adonai.Key
