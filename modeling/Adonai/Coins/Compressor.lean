/-
Compressed amounts and scripts, and the serialization of spent coins.

Recovering a public key from its x coordinate belongs to the curve library; it is a
parameter that inverts the compression of every key found fully valid.
-/

import Adonai.Consensus.Params
import Adonai.Primitives.Serialize
import Adonai.Primitives.Transaction

namespace Adonai.Compressor

open Reader

/-- Divide by ten while that is exact, at most as often as the first argument says:
the quotient and the number of divisions. -/
def stripZeros : Nat → Nat → Nat × Nat
  | 0, n => (n, 0)
  | more + 1, n =>
    if n % 10 = 0 then
      let rest := stripZeros more (n / 10)
      (rest.1, rest.2 + 1)
    else (n, 0)

def compressAmount (n : Nat) : Nat :=
  if n = 0 then 0
  else
    let (n, e) := stripZeros 9 n
    if e < 9 then (1 + (n / 10 * 9 + n % 10 - 1) * 10 + e) % 2 ^ 64
    else (1 + (n - 1) * 10 + 9) % 2 ^ 64

def decompressAmount (x : Nat) : Nat :=
  if x = 0 then 0
  else
    let e := (x - 1) % 10
    let x := (x - 1) / 10
    let n := if e < 9 then x / 9 * 10 + (x % 9 + 1) else x + 1
    n * 10 ^ e % 2 ^ 64

def writeAmount (nValue : Int) : List UInt8 :=
  writeVarInt 64 (compressAmount (nValue % 2 ^ 64).toNat)

def readAmount : Reader Int := do
  let v ← readVarInt 64
  pure (Int.bmod (decompressAmount v) (2 ^ 64))

theorem stripZeros_spec (more n : Nat) (positive : 0 < n) :
    n = (stripZeros more n).1 * 10 ^ (stripZeros more n).2 ∧ (stripZeros more n).2 ≤ more ∧
      ((stripZeros more n).2 < more → (stripZeros more n).1 % 10 ≠ 0) ∧
      0 < (stripZeros more n).1 := by
  induction more generalizing n with
  | zero => exact ⟨by rw [stripZeros, Nat.pow_zero, Nat.mul_one], le_refl _,
      fun impossible => absurd impossible (Nat.not_lt_zero _), positive⟩
  | succ more ih =>
    rw [stripZeros]
    split
    next exactly =>
      obtain ⟨value, count, last, left⟩ := ih (n / 10) (by omega)
      refine ⟨?_, by dsimp only; omega, fun fewer => last (by dsimp only at fewer; omega), left⟩
      dsimp only
      rw [Nat.pow_succ, ← Nat.mul_assoc, ← value]
      omega
    next inexact =>
      exact ⟨by rw [Nat.pow_zero, Nat.mul_one], Nat.zero_le _, fun _ => inexact, positive⟩

/-- `CompressAmount` in the integers, where nothing is lost. -/
def compressAmountExact (n : Nat) : Nat :=
  if n = 0 then 0
  else
    let (n, e) := stripZeros 9 n
    if e < 9 then 1 + (n / 10 * 9 + n % 10 - 1) * 10 + e else 1 + (n - 1) * 10 + 9

def decompressAmountExact (x : Nat) : Nat :=
  if x = 0 then 0
  else
    let e := (x - 1) % 10
    let x := (x - 1) / 10
    (if e < 9 then x / 9 * 10 + (x % 9 + 1) else x + 1) * 10 ^ e

theorem compressAmount_eq (n : Nat) : compressAmount n = compressAmountExact n % 2 ^ 64 := by
  unfold compressAmount compressAmountExact
  dsimp only
  split_ifs <;> rfl

theorem decompressAmount_eq (x : Nat) : decompressAmount x = decompressAmountExact x % 2 ^ 64 := by
  unfold decompressAmount decompressAmountExact
  dsimp only
  split_ifs <;> rfl

theorem decompressExact_compressExact {n : Nat} (small : n < 2 ^ 60) :
    compressAmountExact n < 2 ^ 64 ∧ decompressAmountExact (compressAmountExact n) = n := by
  by_cases zero : n = 0
  · subst zero
    exact ⟨by decide, rfl⟩
  obtain ⟨value, count, last, left⟩ := stripZeros_spec 9 n (Nat.pos_of_ne_zero zero)
  unfold compressAmountExact
  rw [if_neg zero]
  generalize hm : (stripZeros 9 n).1 = m at *
  generalize he : (stripZeros 9 n).2 = e at *
  have split : stripZeros 9 n = (m, e) := Prod.ext hm he
  rw [split]
  dsimp only
  have mSmall : m ≤ n := by
    rw [value]
    exact Nat.le_mul_of_pos_right m (by positivity)
  by_cases few : e < 9
  · have digit := last few
    rw [if_pos few]
    refine ⟨by omega, ?_⟩
    unfold decompressAmountExact
    rw [if_neg (by omega)]
    have eBack : (1 + (m / 10 * 9 + m % 10 - 1) * 10 + e - 1) % 10 = e := by omega
    have xBack : (1 + (m / 10 * 9 + m % 10 - 1) * 10 + e - 1) / 10 = m / 10 * 9 + m % 10 - 1 := by
      omega
    have mBack : (m / 10 * 9 + m % 10 - 1) / 9 * 10 + ((m / 10 * 9 + m % 10 - 1) % 9 + 1) = m := by
      omega
    dsimp only
    rw [eBack, xBack, if_pos few, mBack, ← value]
  · have nine : e = 9 := by omega
    rw [if_neg few]
    refine ⟨by omega, ?_⟩
    unfold decompressAmountExact
    rw [if_neg (by omega)]
    have eBack : (1 + (m - 1) * 10 + 9 - 1) % 10 = 9 := by omega
    have xBack : (1 + (m - 1) * 10 + 9 - 1) / 10 = m - 1 := by omega
    dsimp only
    rw [eBack, xBack, if_neg (by omega), Nat.sub_add_cancel left, ← nine, ← value]

theorem decompress_compress {n : Nat} (small : n < 2 ^ 60) :
    compressAmount n = compressAmountExact n ∧
      decompressAmount (compressAmount n) = decompressAmountExact (compressAmount n) ∧
      decompressAmount (compressAmount n) = n := by
  obtain ⟨fits, back⟩ := decompressExact_compressExact small
  rw [compressAmount_eq, Nat.mod_eq_of_lt fits, decompressAmount_eq, back]
  exact ⟨rfl, Nat.mod_eq_of_lt (by omega), Nat.mod_eq_of_lt (by omega)⟩

theorem reads_amount {nValue : Int} (range : moneyRange nValue = true) :
    Reads readAmount (writeAmount nValue) nValue := by
  rw [moneyRange_iff] at range
  unfold MAX_MONEY COIN at range
  obtain ⟨amount, rfl⟩ := Int.eq_ofNat_of_zero_le range.1
  have small : amount < 2 ^ 60 := by omega
  have wrapped : ((amount : Int) % 2 ^ 64).toNat = amount := by omega
  obtain ⟨exact_, _, back⟩ := decompress_compress small
  have compressed : compressAmount amount < 2 ^ 64 :=
    exact_ ▸ (decompressExact_compressExact small).1
  have value : Int.bmod (decompressAmount (compressAmount amount) : Nat) (2 ^ 64) = amount := by
    rw [back]
    exact Int.bmod_eq_of_le (by omega) (by omega)
  unfold writeAmount
  rw [wrapped]
  have whole := (reads_varInt compressed).map
    fun v : Nat => Int.bmod (decompressAmount v) (2 ^ 64)
  rw [value] at whole
  exact whole

structure PubKeyCodec where
  isFullyValid : List UInt8 → Bool
  decompress : List UInt8 → Option (List UInt8)
  inverts : ∀ key, key.length = 65 → key.head? = some 4 → isFullyValid key = true →
    decompress (UInt8.ofNat (2 + (key.getLastD 0).toNat % 2) :: (key.drop 1).take 32) = some key

def OP_DUP : UInt8 := 0x76
def OP_EQUAL : UInt8 := 0x87
def OP_EQUALVERIFY : UInt8 := 0x88
def OP_HASH160 : UInt8 := 0xa9
def OP_CHECKSIG : UInt8 := 0xac

def nSpecialScripts : Nat := 6

variable (codec : PubKeyCodec)

def payload (script front back : List UInt8) (size : Nat) : Option (List UInt8) :=
  if script.length = front.length + size + back.length ∧ script.take front.length = front ∧
      script.drop (front.length + size) = back then
    some ((script.drop front.length).take size)
  else none

variable (script : CScript)

def isToKeyID : Option (List UInt8) :=
  payload script [OP_DUP, OP_HASH160, 20] [OP_EQUALVERIFY, OP_CHECKSIG] 20

def isToScriptID : Option (List UInt8) := payload script [OP_HASH160, 20] [OP_EQUAL] 20

def isToPubKey : Option (List UInt8) :=
  match (payload script [33] [OP_CHECKSIG] 33).filter fun key =>
      key.head? == some 2 || key.head? == some 3 with
  | some pubkey => some pubkey
  | none =>
    (payload script [65] [OP_CHECKSIG] 65).filter fun key =>
      key.head? == some 4 && codec.isFullyValid key

def compressScript : Option (List UInt8) :=
  match isToKeyID script with
  | some keyID => some (0 :: keyID)
  | none =>
    match isToScriptID script with
    | some scriptID => some (1 :: scriptID)
    | none =>
      match isToPubKey codec script with
      | none => none
      | some pubkey =>
        let type := pubkey.headD 0
        if type = 2 ∨ type = 3 then some (type :: (pubkey.drop 1).take 32)
        else if type = 4 then
          some (UInt8.ofNat (4 + (pubkey.getLastD 0).toNat % 2) :: (pubkey.drop 1).take 32)
        else none

def getSpecialScriptSize (nSize : Nat) : Nat :=
  if nSize = 0 ∨ nSize = 1 then 20
  else if nSize = 2 ∨ nSize = 3 ∨ nSize = 4 ∨ nSize = 5 then 32 else 0

/-- Nothing when the script cannot be recovered. -/
def decompressScript (nSize : Nat) (input : List UInt8) : Option CScript :=
  if nSize = 0 then some ([OP_DUP, OP_HASH160, 20] ++ input ++ [OP_EQUALVERIFY, OP_CHECKSIG])
  else if nSize = 1 then some ([OP_HASH160, 20] ++ input ++ [OP_EQUAL])
  else if nSize = 2 ∨ nSize = 3 then some ([33, UInt8.ofNat nSize] ++ input ++ [OP_CHECKSIG])
  else if nSize = 4 ∨ nSize = 5 then
    (codec.decompress (UInt8.ofNat (nSize - 2) :: input)).map fun pubkey =>
      [65] ++ pubkey ++ [OP_CHECKSIG]
  else none

def writeScript : List UInt8 :=
  match compressScript codec script with
  | some compr => compr
  | none => writeVarInt 32 ((script.length + nSpecialScripts) % 2 ^ 32) ++ script

/-- A special script that cannot be recovered is left empty, and one that is too
long is replaced by a short invalid one. -/
def readScript : Reader CScript := do
  let nSize ← readVarInt 32
  if nSize < nSpecialScripts then do
    let vch ← readBytes (getSpecialScriptSize nSize)
    pure ((decompressScript codec nSize vch).getD [])
  else if nSize - nSpecialScripts > CScript.MAX_SCRIPT_SIZE then do
    let _ ← readBytes (nSize - nSpecialScripts)
    pure [CScript.OP_RETURN]
  else readBytes (nSize - nSpecialScripts)

variable {codec}

private theorem payload_some {script front back found : List UInt8} {size : Nat}
    (match' : payload script front back size = some found) :
    script = front ++ found ++ back ∧ found.length = size := by
  unfold payload at match'
  split at match'
  next shape =>
    obtain ⟨length, frontEq, backEq⟩ := shape
    cases match'
    refine ⟨?_, ?_⟩
    · have middle : (script.drop front.length).take size ++ back = script.drop front.length := by
        rw [← backEq, ← List.drop_drop, List.take_append_drop]
      rw [List.append_assoc, middle]
      nth_rewrite 1 [← List.take_append_drop front.length script]
      rw [frontEq]
    · rw [List.length_take, List.length_drop]
      omega
  · cases match'

theorem reads_special {type : UInt8} {data : List UInt8} {script : CScript}
    (special : type.toNat < nSpecialScripts)
    (length : data.length = getSpecialScriptSize type.toNat)
    (recovers : decompressScript codec type.toNat data = some script) :
    Reads (readScript codec) (type :: data) script := by
  have number : Reads (readVarInt 32) [type] type.toNat := by
    have small : type.toNat < 2 ^ 32 := by
      unfold nSpecialScripts at special
      omega
    have reads := reads_varInt small
    have one : writeVarInt 32 type.toNat = [type] := by
      unfold nSpecialScripts at special
      rw [writeVarInt, if_pos (by omega), UInt8.ofNat_toNat]
    rw [one] at reads
    exact reads
  have whole := (reads_bytes length).map fun vch => (decompressScript codec type.toNat vch).getD []
  rw [recovers] at whole
  refine number.bind ?_
  rw [if_pos special]
  exact whole

private theorem isToPubKey_some {script : CScript} {pubkey : List UInt8}
    (found : isToPubKey codec script = some pubkey) :
    (payload script [33] [OP_CHECKSIG] 33 = some pubkey ∧
        (pubkey.head? = some 2 ∨ pubkey.head? = some 3)) ∨
      (payload script [65] [OP_CHECKSIG] 65 = some pubkey ∧ pubkey.head? = some 4 ∧
        codec.isFullyValid pubkey = true) := by
  unfold isToPubKey at found
  split at found
  next key short =>
    cases found
    rw [Option.filter_eq_some_iff] at short
    refine .inl ⟨short.1, ?_⟩
    simpa using short.2
  next notShort =>
    rw [Option.filter_eq_some_iff] at found
    refine .inr ⟨found.1, ?_⟩
    simpa using found.2

private theorem eq_cons_of_head {key : List UInt8} {first : UInt8} (head : key.head? = some first) :
    key = first :: key.drop 1 := by
  cases key with
  | nil => cases head
  | cons byte rest =>
    cases head
    rfl

theorem reads_compressed {script : CScript} {compr : List UInt8}
    (compressed : compressScript codec script = some compr) :
    Reads (readScript codec) compr script := by
  unfold compressScript at compressed
  split at compressed
  next keyID found =>
    cases compressed
    obtain ⟨shape, length⟩ := payload_some found
    have special : (0 : UInt8).toNat < nSpecialScripts := by decide
    refine reads_special special length ?_
    rw [shape]
    rfl
  next notKey =>
    split at compressed
    next scriptID found =>
      cases compressed
      obtain ⟨shape, length⟩ := payload_some found
      have special : (1 : UInt8).toNat < nSpecialScripts := by decide
      refine reads_special special length ?_
      rw [shape]
      rfl
    next notScript =>
      split at compressed
      · cases compressed
      next pubkey found =>
        rcases isToPubKey_some found with ⟨whole, head⟩ | ⟨whole, head, valid⟩
        · obtain ⟨shape, length⟩ := payload_some whole
          have short : ∀ first : UInt8, pubkey.head? = some first → first = 2 ∨ first = 3 →
              Reads (readScript codec) compr script := by
            intro first starts which
            have split := eq_cons_of_head starts
            have type : pubkey.headD 0 = first := by rw [split]; rfl
            have data : (pubkey.drop 1).take 32 = pubkey.drop 1 := by
              apply List.take_of_length_le
              rw [List.length_drop]
              omega
            dsimp only at compressed
            rw [type, if_pos which, data] at compressed
            cases compressed
            have restLength : (pubkey.drop 1).length = 32 := by
              rw [List.length_drop]
              omega
            rcases which with rfl | rfl
            all_goals
              refine reads_special (by decide) restLength ?_
              rw [shape, split]
              rfl
          rcases head with two | three
          · exact short 2 two (.inl rfl)
          · exact short 3 three (.inr rfl)
        · obtain ⟨shape, length⟩ := payload_some whole
          have split := eq_cons_of_head head
          have type : pubkey.headD 0 = 4 := by rw [split]; rfl
          have recovers := codec.inverts pubkey length head valid
          have restLength : ((pubkey.drop 1).take 32).length = 32 := by
            rw [List.length_take, List.length_drop]
            omega
          dsimp only at compressed
          rw [type, if_neg (by decide), if_pos rfl] at compressed
          cases compressed
          rcases Nat.mod_two_eq_zero_or_one (pubkey.getLastD 0).toNat with parity | parity
          all_goals
            rw [parity] at recovers ⊢
            refine reads_special (by decide) restLength ?_
            rw [shape]
            exact congrArg (Option.map _) recovers

theorem reads_script {script : CScript} (short : script.length ≤ CScript.MAX_SCRIPT_SIZE) :
    Reads (readScript codec) (writeScript codec script) script := by
  unfold writeScript
  split
  next compr compressed => exact reads_compressed compressed
  next notSpecial =>
    unfold CScript.MAX_SCRIPT_SIZE at short
    have wrapped : (script.length + nSpecialScripts) % 2 ^ 32 =
        script.length + nSpecialScripts := by
      unfold nSpecialScripts
      omega
    have small : script.length + nSpecialScripts < 2 ^ 32 := by
      unfold nSpecialScripts
      omega
    have back : script.length + nSpecialScripts - nSpecialScripts = script.length :=
      Nat.add_sub_cancel _ _
    rw [wrapped]
    refine (reads_varInt small).bind ?_
    rw [if_neg (by omega), back, if_neg (by unfold CScript.MAX_SCRIPT_SIZE; omega)]
    exact reads_bytes rfl

end Adonai.Compressor
