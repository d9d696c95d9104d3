/-
Number formats of the serialization, fixed width, CompactSize and VarInt, and vectors.
-/

import Adonai.Foundation.Codec
import Adonai.Primitives.Block

namespace Adonai

open Reader

def MAX_SIZE : Nat := 0x02000000

theorem littleEndian_add (low high value : Nat) : littleEndian (low + high) value =
      littleEndian low value ++ littleEndian high (value / 256 ^ low) := by
  induction low generalizing value with
  | zero => rw [Nat.zero_add, Nat.pow_zero, Nat.div_one]; rfl
  | succ low ih =>
    rw [Nat.succ_add, littleEndian, ih, littleEndian, List.cons_append, Nat.div_div_eq_div_mul,
      Nat.pow_succ']

theorem littleEndian_mod (size value : Nat) :
    littleEndian size (value % 256 ^ size) = littleEndian size value := by
  induction size generalizing value with
  | zero => rfl
  | succ size ih =>
    have low : UInt8.ofNat (value % 256 ^ (size + 1)) = UInt8.ofNat value := by
      apply UInt8.toNat_inj.mp
      exact Nat.mod_mod_of_dvd value (Dvd.intro_left (256 ^ size) rfl)
    have high : value % 256 ^ (size + 1) / 256 = value / 256 % 256 ^ size := by
      rw [Nat.pow_succ', Nat.mod_mul_right_div_self]
    rw [littleEndian, littleEndian, low, high, ih]

def readLittleEndian : (size : Nat) → Reader Nat
  | 0 => pure 0
  | size + 1 => do
    let low ← readByte
    let high ← readLittleEndian size
    pure (low.toNat + 256 * high)

theorem reads_littleEndian (size value : Nat) (small : value < 256 ^ size) :
    Reads (readLittleEndian size) (littleEndian size value) value := by
  induction size generalizing value with
  | zero =>
    have zero : value = 0 := by
      omega
    rw [zero]
    exact reads_pure 0
  | succ size ih =>
    have high : value / 256 < 256 ^ size := by
      exact Nat.div_lt_of_lt_mul (Nat.mul_comm _ _ ▸ small)
    have digits : (UInt8.ofNat value).toNat + 256 * (value / 256) = value := by
      rw [UInt8.toNat_ofNat']
      omega
    have whole : Reads (readLittleEndian (size + 1))
        ([UInt8.ofNat value] ++ littleEndian size (value / 256))
        ((UInt8.ofNat value).toNat + 256 * (value / 256)) :=
      (reads_byte (UInt8.ofNat value)).bind
        ((ih (value / 256) high).map fun high => (UInt8.ofNat value).toNat + 256 * high)
    rw [digits] at whole
    exact whole

def writeCompactSize (nSize : Nat) : List UInt8 :=
  if nSize < 253 then [UInt8.ofNat nSize]
  else if nSize ≤ 0xffff then 253 :: littleEndian 2 nSize
  else if nSize ≤ 0xffffffff then 254 :: littleEndian 4 nSize
  else 255 :: littleEndian 8 nSize

def readMarked (size least : Nat) : Reader Nat := do
  let nSizeRet ← readLittleEndian size
  if nSizeRet < least then failure else pure nSizeRet

def readCompactPayload (chSize : UInt8) : Reader Nat :=
  if chSize < 253 then pure chSize.toNat
  else if chSize = 253 then readMarked 2 253
  else if chSize = 254 then readMarked 4 0x10000
  else readMarked 8 0x100000000

def readCompactSize : Reader Nat := do
  let chSize ← readByte
  let nSizeRet ← readCompactPayload chSize
  if nSizeRet > MAX_SIZE then failure else pure nSizeRet

theorem reads_marked {size least value : Nat} (small : value < 256 ^ size)
    (canonical : least ≤ value) :
    Reads (readMarked size least) (littleEndian size value) value := by
  have checked : Reads (if value < least then failure else pure value : Reader Nat) [] value := by
    rw [if_neg (Nat.not_lt.mpr canonical)]
    exact reads_pure value
  have whole : Reads (readMarked size least) (littleEndian size value ++ []) value :=
    (reads_littleEndian size value small).bind checked
  rw [List.append_nil] at whole
  exact whole

theorem reads_compactSize {nSize : Nat} (small : nSize ≤ MAX_SIZE) :
    Reads readCompactSize (writeCompactSize nSize) nSize := by
  have finish : ∀ (chSize : UInt8) (payload : List UInt8),
      Reads (readCompactPayload chSize) payload nSize →
        Reads readCompactSize ([chSize] ++ payload) nSize := by
    intro chSize payload reads
    have checked :
        Reads (if nSize > MAX_SIZE then failure else pure nSize : Reader Nat) [] nSize := by
      rw [if_neg (Nat.not_lt.mpr small)]
      exact reads_pure nSize
    have whole : Reads (readCompactPayload chSize >>= fun nSizeRet =>
        if nSizeRet > MAX_SIZE then failure else pure nSizeRet) (payload ++ []) nSize :=
      reads.bind checked
    rw [List.append_nil] at whole
    exact (reads_byte chSize).bind whole
  unfold MAX_SIZE at small
  unfold writeCompactSize
  split
  next one =>
    have low : UInt8.ofNat nSize < 253 := by
      change nSize % 2 ^ 8 < 253
      omega
    have value : (UInt8.ofNat nSize).toNat = nSize := by
      rw [UInt8.toNat_ofNat']
      omega
    have payload : Reads (readCompactPayload (UInt8.ofNat nSize)) [] nSize := by
      rw [readCompactPayload, if_pos low, value]
      exact reads_pure nSize
    exact finish _ _ payload
  next more =>
    split
    next two =>
      exact finish 253 _ (reads_marked (by omega) (by omega))
    next larger =>
      rw [if_pos (by omega)]
      exact finish 254 _ (reads_marked (by omega) (by omega))

def writeVector {α : Type} (write : α → List UInt8) (values : List α) : List UInt8 :=
  writeCompactSize values.length ++ values.flatMap write

def readVector {α : Type} (reader : Reader α) : Reader (List α) := do
  let size ← readCompactSize
  readMany reader size

theorem reads_vector {α : Type} {write : α → List UInt8} {reader : Reader α} {values : List α}
    (few : values.length ≤ MAX_SIZE) (each : ∀ value ∈ values, Reads reader (write value) value) :
    Reads (readVector reader) (writeVector write values) values :=
  (reads_compactSize few).bind (reads_many values each)

/-! ### Only canonical sizes are read -/

theorem littleEndian_inj {size left right : Nat} (small : left < 256 ^ size)
    (small' : right < 256 ^ size) (same : littleEndian size left = littleEndian size right) :
    left = right := by
  have reads := reads_littleEndian size left small []
  rw [same, reads_littleEndian size right small'] at reads
  exact (congrArg Prod.fst (Option.some.inj reads)).symm

theorem takes_littleEndian (size : Nat) : Takes (readLittleEndian size) fun taken value =>
    taken = littleEndian size value ∧ value < 256 ^ size := by
  induction size with
  | zero => exact takes_pure ⟨rfl, Nat.one_pos⟩
  | succ size ih =>
    refine takes_byte.bind fun front low isLow => ih.map fun back high both => ?_
    obtain ⟨rfl, small⟩ := both
    have bound := low.toNat_lt
    have digit : UInt8.ofNat (low.toNat + 256 * high) = low := by
      apply UInt8.toNat_inj.mp
      rw [UInt8.toNat_ofNat']
      omega
    have rest : (low.toNat + 256 * high) / 256 = high := by omega
    rw [isLow, littleEndian, digit, rest]
    exact ⟨rfl, by omega⟩

private theorem takes_marked (size least : Nat) : Takes (readMarked size least) fun taken value =>
    taken = littleEndian size value ∧ value < 256 ^ size ∧ least ≤ value := by
  refine (takes_littleEndian size).bind fun front value both => ?_
  split
  · exact takes_failure _
  next canonical =>
    apply takes_pure
    rw [List.append_nil]
    exact ⟨both.1, both.2, Nat.not_lt.mp canonical⟩

theorem takes_compactPayload (chSize : UInt8) : Takes (readCompactPayload chSize)
    fun taken nSize => nSize ≤ MAX_SIZE → chSize :: taken = writeCompactSize nSize := by
  unfold readCompactPayload writeCompactSize MAX_SIZE
  split_ifs with one two four
  · apply takes_pure
    rw [if_pos (by exact UInt8.lt_iff_toNat_lt.mp one), UInt8.ofNat_toNat]
    exact fun _ => rfl
  · refine (takes_marked 2 253).mono fun taken nSize ⟨written, small, canonical⟩ _ => ?_
    rw [if_neg (by omega), if_pos (by omega), two, written]
  · refine (takes_marked 4 0x10000).mono fun taken nSize ⟨written, small, canonical⟩ _ => ?_
    rw [if_neg (by omega), if_neg (by omega), if_pos (by omega), four, written]
  · refine (takes_marked 8 0x100000000).mono fun taken nSize ⟨_, _, canonical⟩ fits => ?_
    omega

theorem takes_compactSize : Takes readCompactSize fun taken nSize =>
    taken = writeCompactSize nSize ∧ nSize ≤ MAX_SIZE := by
  refine takes_byte.bind fun front chSize isFirst => ?_
  refine (takes_compactPayload chSize).bind fun back nSize written => ?_
  split
  · exact takes_failure _
  next small =>
    apply takes_pure
    rw [isFirst, List.append_nil, ← written (Nat.not_lt.mp small)]
    exact ⟨rfl, Nat.not_lt.mp small⟩

theorem takes_vector {α : Type} {write : α → List UInt8} {reader : Reader α} {has : α → Prop}
    (each : Takes reader fun taken value => taken = write value ∧ has value) :
    Takes (readVector reader) fun taken values =>
      taken = writeVector write values ∧ values.length ≤ MAX_SIZE ∧ ∀ value ∈ values,
        has value := by
  refine takes_compactSize.bind fun front size sizes => ?_
  refine (takes_many each size).mono fun back values ⟨written, length, all⟩ => ?_
  rw [sizes.1, written, ← length]
  exact ⟨rfl, length.trans_le sizes.2, all⟩

/-- The digits before the last one, written in front of what follows; each but the
last has the mark, and one is subtracted for it. -/
def writeVarIntHigh : (fuel : Nat) → (n : Nat) → List UInt8 → List UInt8
  | 0, _, rest => rest
  | fuel + 1, n, rest =>
    if n ≤ 0x7f then UInt8.ofNat (n % 128 + 128) :: rest
    else writeVarIntHigh fuel (n / 128 - 1) (UInt8.ofNat (n % 128 + 128) :: rest)

/-- A number of the given width in bits takes at most one byte for seven of them. -/
def writeVarInt (width n : Nat) : List UInt8 :=
  if n ≤ 0x7f then [UInt8.ofNat n]
  else writeVarIntHigh ((width + 6) / 7) (n / 128 - 1) [UInt8.ofNat (n % 128)]

def readVarIntLoop (most : Nat) : (n : Nat) → List UInt8 → Option (Nat × List UInt8)
  | _, [] => none
  | n, chData :: rest =>
    if n > most / 128 then none
    else
      let n := n * 128 + chData.toNat % 128
      if chData ≥ 0x80 then
        if n = most then none else readVarIntLoop most (n + 1) rest
      else some (n, rest)

def readVarInt (width : Nat) : Reader Nat := readVarIntLoop (2 ^ width - 1) 0

theorem readVarIntLoop_marked {most n : Nat} (rest : List UInt8) (small : n < most) :
    readVarIntLoop most (n / 128) (UInt8.ofNat (n % 128 + 128) :: rest) =
      readVarIntLoop most (n + 1) rest := by
  have value : (UInt8.ofNat (n % 128 + 128)).toNat = n % 128 + 128 := by
    rw [UInt8.toNat_ofNat']
    omega
  have marked : UInt8.ofNat (n % 128 + 128) ≥ 0x80 := by
    rw [ge_iff_le, UInt8.le_iff_toNat_le, value]
    exact Nat.le_add_left _ _
  have digits : n / 128 * 128 + (n % 128 + 128) % 128 = n := by omega
  rw [readVarIntLoop, if_neg (by omega)]
  rw [if_pos marked, value, digits, if_neg (by omega)]

theorem readVarIntLoop_high {most : Nat} (fuel n : Nat) (rest : List UInt8)
    (enough : n < 128 ^ (fuel + 1)) (small : n < most) :
    readVarIntLoop most 0 (writeVarIntHigh (fuel + 1) n rest) =
      readVarIntLoop most (n + 1) rest := by
  induction fuel generalizing n rest with
  | zero =>
    have one : n ≤ 0x7f := by omega
    have zero : 0 = n / 128 := by omega
    rw [writeVarIntHigh, if_pos one, zero]
    exact readVarIntLoop_marked rest small
  | succ fuel ih =>
    rw [writeVarIntHigh]
    split
    next one =>
      have zero : 0 = n / 128 := by omega
      rw [zero]
      exact readVarIntLoop_marked rest small
    next more =>
      have enoughHigh : n / 128 - 1 < 128 ^ (fuel + 1) := by
        omega
      have back : n / 128 - 1 + 1 = n / 128 := by omega
      rw [ih _ _ enoughHigh (by omega), back]
      exact readVarIntLoop_marked rest small

theorem writeVarIntHigh_append (fuel n : Nat) (digits rest : List UInt8) :
    writeVarIntHigh fuel n digits ++ rest = writeVarIntHigh fuel n (digits ++ rest) := by
  induction fuel generalizing n digits with
  | zero => rfl
  | succ fuel ih =>
    rw [writeVarIntHigh, writeVarIntHigh]
    split
    · rfl
    · rw [ih]
      rfl

theorem readVarIntLoop_last {most n : Nat} (rest : List UInt8) (small : n ≤ most) :
    readVarIntLoop most (n / 128) (UInt8.ofNat (n % 128) :: rest) = some (n, rest) := by
  have value : (UInt8.ofNat (n % 128)).toNat = n % 128 := by
    rw [UInt8.toNat_ofNat']
    omega
  have last : ¬UInt8.ofNat (n % 128) ≥ 0x80 := by
    rw [ge_iff_le, UInt8.le_iff_toNat_le, value]
    change ¬128 ≤ n % 128
    omega
  have digits : n / 128 * 128 + n % 128 % 128 = n := by omega
  rw [readVarIntLoop, if_neg (by omega)]
  rw [if_neg last, value, digits]

theorem reads_varInt {width n : Nat} (small : n < 2 ^ width) :
    Reads (readVarInt width) (writeVarInt width n) n := by
  intro rest
  unfold readVarInt writeVarInt
  split
  next one =>
    have last := readVarIntLoop_last rest (Nat.le_pred_of_lt small)
    have zero : n / 128 = 0 := by omega
    have same : n % 128 = n := by omega
    rw [zero, same] at last
    exact last
  next more =>
    have positive : 0 < (width + 6) / 7 := by
      by_contra none
      have narrow : width = 0 := by omega
      rw [narrow] at small
      omega
    obtain ⟨fuel, fuelEq⟩ : ∃ fuel, (width + 6) / 7 = fuel + 1 :=
      ⟨_, (Nat.succ_pred_eq_of_pos positive).symm⟩
    have enough : n / 128 - 1 < 128 ^ (fuel + 1) := by
      have power : 2 ^ width ≤ 128 ^ (fuel + 1) := by
        rw [show 128 = 2 ^ 7 from rfl, ← Nat.pow_mul]
        exact Nat.pow_le_pow_right (by omega) (by omega)
      omega
    have back : n / 128 - 1 + 1 = n / 128 := by omega
    rw [writeVarIntHigh_append, fuelEq, readVarIntLoop_high fuel _ _ enough (by omega), back]
    exact readVarIntLoop_last rest (Nat.le_pred_of_lt small)

/-! ### Only one string for each number -/

theorem readVarIntLoop_le {most n value : Nat} {bytes rest : List UInt8} (full : most % 128 = 127)
    (reads : readVarIntLoop most n bytes = some (value, rest)) : value ≤ most := by
  induction bytes generalizing n with
  | nil => cases reads
  | cons chData bytes ih => grind [readVarIntLoop]

theorem readVarIntLoop_mono {most more n : Nat} {bytes : List UInt8} {read : Nat × List UInt8}
    (full : most % 128 = 127) (le : most ≤ more) (reads : readVarIntLoop most n bytes = some read) :
    readVarIntLoop more n bytes = some read := by
  induction bytes generalizing n with
  | nil => cases reads
  | cons chData bytes ih =>
    unfold readVarIntLoop at reads ⊢
    grind

private theorem writeVarIntHigh_enough (fuel more n : Nat) (rest : List UInt8)
    (enough : n < 128 ^ (fuel + 1)) :
    writeVarIntHigh (fuel + 1 + more) n rest = writeVarIntHigh (fuel + 1) n rest := by
  induction fuel generalizing n rest with
  | zero => grind [writeVarIntHigh]
  | succ fuel ih =>
    rw [Nat.succ_add, writeVarIntHigh, ih _ _ (by omega), ← writeVarIntHigh]

private theorem ofNat_digit (chData : UInt8) :
    UInt8.ofNat (chData.toNat % 128 + if chData ≥ 0x80 then 128 else 0) = chData := by
  have bound := chData.toNat_lt
  have mark : chData ≥ 0x80 ↔ 128 ≤ chData.toNat := UInt8.le_iff_toNat_le
  apply UInt8.toNat_inj.mp
  simp only [UInt8.toNat_ofNat', mark]
  split <;> omega

/-- Writing the digits that were read in front of the bytes that follow gives the digits of the
whole number. -/
theorem writeVarIntHigh_of_reads {most n value : Nat} {bytes rest : List UInt8}
    (reads : readVarIntLoop most (n + 1) bytes = some (value, rest)) :
    127 < value ∧ writeVarIntHigh (n + 1) n bytes =
      writeVarIntHigh (value / 128) (value / 128 - 1) [UInt8.ofNat (value % 128)] ++ rest := by
  induction bytes generalizing n with
  | nil => cases reads
  | cons chData bytes ih =>
    have digit := ofNat_digit chData
    have low : ((n + 1) * 128 + chData.toNat % 128) % 128 = chData.toNat % 128 := by omega
    have high : ((n + 1) * 128 + chData.toNat % 128) / 128 = n + 1 := by omega
    unfold readVarIntLoop at reads
    dsimp only at reads
    split_ifs at reads with _ marked
    · obtain ⟨more, written⟩ := ih reads
      rw [if_pos marked] at digit
      have small : n < 128 ^ (n + 1) := n.lt_succ_self.trans (Nat.lt_pow_self (by decide))
      obtain ⟨extra, fuel⟩ : ∃ extra, (n + 1) * 128 + chData.toNat % 128 = n + 1 + extra :=
        Nat.exists_eq_add_of_le (by omega)
      rw [writeVarIntHigh, if_neg (by omega), low, high, digit, fuel, Nat.add_sub_cancel,
        writeVarIntHigh_enough _ _ _ _ small] at written
      exact ⟨more, written⟩
    · cases reads
      rw [if_neg marked, Nat.add_zero] at digit
      rw [low, high, digit, writeVarIntHigh_append]
      exact ⟨by omega, rfl⟩

theorem eq_writeVarInt_of_reads {width value : Nat} {bytes rest : List UInt8}
    (reads : readVarInt width bytes = some (value, rest)) :
    bytes = writeVarInt (value / 128 * 7) value ++ rest := by
  cases bytes with
  | nil => cases reads
  | cons chData bytes =>
    have digit := ofNat_digit chData
    have high := @writeVarIntHigh_of_reads (2 ^ width - 1) (chData.toNat % 128) value bytes rest
    unfold readVarInt readVarIntLoop at reads
    grind [writeVarInt, writeVarIntHigh]

theorem readVarInt_exact {width : Nat} (wide : 7 ≤ width) :
    (∀ bytes n rest, readVarInt width bytes = some (n, rest) ↔
      n < 2 ^ width ∧ bytes = writeVarInt width n ++ rest) ∧
    ∀ wider n rest, n < 2 ^ wider → 2 ^ width ≤ n →
      readVarInt width (writeVarInt wider n ++ rest) = none := by
  have positive := Nat.two_pow_pos width
  have full : (2 ^ width - 1) % 128 = 127 := by
    obtain ⟨high, rfl⟩ := Nat.exists_eq_add_of_le wide
    have power : 2 ^ (7 + high) = 128 * 2 ^ high := Nat.pow_add 2 7 high
    omega
  have bound : ∀ {bytes n rest}, readVarInt width bytes = some (n, rest) → n < 2 ^ width :=
    fun reads => Nat.lt_of_le_pred positive (readVarIntLoop_le full reads)
  constructor
  · intro bytes n rest
    constructor
    · intro reads
      have written := reads_varInt (bound reads) rest
      rw [eq_writeVarInt_of_reads reads]
      exact ⟨bound reads, (eq_writeVarInt_of_reads written).symm⟩
    · rintro ⟨small, rfl⟩
      exact reads_varInt small rest
  · intro wider n rest small large
    apply Option.eq_none_iff_forall_ne_some.mpr
    intro read reads
    have same := readVarIntLoop_mono full (by omega : _ ≤ 2 ^ wider - 1) reads
    rw [← readVarInt, reads_varInt small rest] at same
    cases same
    exact absurd (bound reads) (Nat.not_lt.mpr large)

theorem readVarInt_of_256 : (readVarInt 16 [0x81, 0x00] = some (256, []) ↔
      256 < 2 ^ 16 ∧ [0x81, 0x00] = writeVarInt 16 256 ++ []) ∧
    readVarInt 8 (writeVarInt 16 256 ++ []) = none :=
  ⟨(readVarInt_exact (by decide)).1 [0x81, 0x00] 256 [],
    (readVarInt_exact (by decide)).2 16 256 [] (by decide) (by decide)⟩

end Adonai
