/-
Scripts as bytes: reading instructions, pushing data, numbers and templates.

Each instruction carries the bytes after it, where the source keeps an iterator. An unreadable
instruction ends the reading, as every loop of the source over a script stops there.
-/

import Adonai.Coins.Compressor

namespace Adonai

abbrev Valtype := List UInt8

open Compressor

namespace CScript

def OP_0 : UInt8 := 0x00
def OP_PUSHDATA1 : UInt8 := 0x4c
def OP_PUSHDATA2 : UInt8 := 0x4d
def OP_PUSHDATA4 : UInt8 := 0x4e
def OP_1 : UInt8 := 0x51
def OP_16 : UInt8 := 0x60

def fromLittleEndian (bytes : List UInt8) : Nat :=
  bytes.foldr (fun byte high => byte.toNat + 256 * high) 0

def sizeWidth (opcode : UInt8) : Nat :=
  if opcode = OP_PUSHDATA1 then 1 else if opcode = OP_PUSHDATA2 then 2 else 4

/-- The size of the data pushed by an opcode up to `OP_PUSHDATA4`, and where the data starts. -/
def pushSize (opcode : UInt8) (pc : CScript) : Option (Nat × CScript) :=
  if opcode < OP_PUSHDATA1 then some (opcode.toNat, pc)
  else if pc.length < sizeWidth opcode then none
  else some (fromLittleEndian (pc.take (sizeWidth opcode)), pc.drop (sizeWidth opcode))

/-- `GetScriptOp`: the opcode, the data it pushes and the bytes after them. -/
def getScriptOp : CScript → Option (UInt8 × Valtype × CScript)
  | [] => none
  | opcode :: pc =>
    if opcode ≤ OP_PUSHDATA4 then
      (pushSize opcode pc).bind fun (nSize, start) =>
        if start.length < nSize then none
        else some (opcode, start.take nSize, start.drop nSize)
    else some (opcode, [], pc)

private theorem pushSize_length {opcode : UInt8} {pc start : CScript} {nSize : Nat}
    (reads : pushSize opcode pc = some (nSize, start)) : start.length ≤ pc.length := by
  unfold pushSize at reads
  split at reads
  · cases reads
    exact Nat.le_refl _
  · split at reads
    · cases reads
    · cases reads
      rw [List.length_drop]
      exact Nat.sub_le _ _

theorem getScriptOp_length {script rest : CScript} {opcode : UInt8} {data : Valtype}
    (reads : getScriptOp script = some (opcode, data, rest)) : rest.length < script.length := by
  cases script with
  | nil => cases reads
  | cons first pc => ?_
  rw [getScriptOp] at reads
  split_ifs at reads with pushes
  · obtain ⟨⟨nSize, start⟩, sized, taken⟩ := Option.bind_eq_some_iff.mp reads
    have starts := pushSize_length sized
    dsimp only at taken
    split at taken
    · cases taken
    · cases taken
      rw [List.length_cons, List.length_drop]
      omega
  · cases reads
    exact Nat.lt_succ_self _

/-- An instruction with the bytes after it, or the point where none can be read. -/
inductive Instruction where
  | op (opcode : UInt8) (data : Valtype) (rest : CScript)
  | unreadable
  deriving DecidableEq, Repr

def instructionsWithin : (fuel : Nat) → CScript → List Instruction
  | 0, _ => []
  | fuel + 1, script =>
    if script.isEmpty then []
    else
      match getScriptOp script with
      | none => [.unreadable]
      | some (opcode, data, rest) => .op opcode data rest :: instructionsWithin fuel rest

variable (script : CScript)

def instructions : List Instruction := instructionsWithin script.length script

private theorem instructionsWithin_enough {fuel other : Nat} {script : CScript}
    (enough : script.length ≤ fuel) (also : script.length ≤ other) :
    instructionsWithin fuel script = instructionsWithin other script := by
  induction fuel generalizing other script with
  | zero =>
    have empty : script = [] := List.length_eq_zero_iff.mp (by omega)
    cases other with
    | zero => rfl
    | succ other =>
      rw [empty]
      rfl
  | succ fuel ih =>
    cases other with
    | zero =>
      have empty : script = [] := List.length_eq_zero_iff.mp (by omega)
      rw [empty]
      rfl
    | succ other => ?_
    rw [instructionsWithin, instructionsWithin]
    cases reads : getScriptOp script with
    | none => rfl
    | some read =>
      obtain ⟨opcode, data, rest⟩ := read
      have shorter := getScriptOp_length reads
      dsimp only
      rw [ih (by omega) (by omega : rest.length ≤ other)]

/-- The reading of a script unrolled once: the bound on its steps is never reached. -/
theorem instructions_eq : instructions script =
      if script.isEmpty then []
      else
        match getScriptOp script with
        | none => [.unreadable]
        | some (opcode, data, rest) => .op opcode data rest :: instructions rest := by
  unfold instructions
  rw [instructionsWithin_enough (Nat.le_refl _) (Nat.le_succ _), instructionsWithin]
  cases reads : getScriptOp script with
  | none => rfl
  | some read =>
    obtain ⟨opcode, data, rest⟩ := read
    have shorter := getScriptOp_length reads
    dsimp only
    rw [instructionsWithin_enough (by omega) (Nat.le_refl rest.length)]

def isPushOnly : Bool :=
  (instructions script).all fun instruction =>
    match instruction with
    | .op opcode _ _ => decide (opcode ≤ OP_16)
    | .unreadable => false

def dataSize (size : Nat) : CScript :=
  if size < OP_PUSHDATA1.toNat then [UInt8.ofNat size]
  else if size ≤ 0xff then [OP_PUSHDATA1, UInt8.ofNat size]
  else if size ≤ 0xffff then OP_PUSHDATA2 :: littleEndian 2 size
  else OP_PUSHDATA4 :: littleEndian 4 size

def pushData (data : Valtype) : CScript := dataSize data.length ++ data

/-- Whether the opcode is the shortest that pushes the data; asked up to `OP_PUSHDATA4`. -/
def checkMinimalPush (data : Valtype) (opcode : UInt8) : Bool :=
  if data.length = 0 then opcode == OP_0
  else if data.length = 1 ∧ 1 ≤ data.headD 0 ∧ data.headD 0 ≤ 16 then false
  else if data.length = 1 ∧ data.headD 0 = 0x81 then false
  else if data.length ≤ 75 then opcode.toNat == data.length
  else if data.length ≤ 255 then opcode == OP_PUSHDATA1
  else if data.length ≤ 65535 then opcode == OP_PUSHDATA2
  else true

def skipCopies (b : CScript) : (fuel : Nat) → CScript → CScript × Nat
  | 0, pc => (pc, 0)
  | fuel + 1, pc =>
    if b.isPrefixOf pc then
      let (pc2, nFound) := skipCopies b fuel (pc.drop b.length)
      (pc2, nFound + 1)
    else (pc, 0)

/-- One round skips copies of `b` and keeps the next instruction; an unreadable rest is kept. -/
def deleteCopies (b : CScript) : (fuel : Nat) → CScript → CScript × Nat
  | 0, pc => (pc, 0)
  | fuel + 1, pc =>
    let (pc2, skipped) := skipCopies b pc.length pc
    match getScriptOp pc2 with
    | none => (pc2, skipped)
    | some (_, _, rest) =>
      let (result, nFound) := deleteCopies b fuel rest
      (pc2.take (pc2.length - rest.length) ++ result, skipped + nFound)

def findAndDelete (script b : CScript) : CScript × Nat :=
  if b.isEmpty then (script, 0)
  else
    let (result, nFound) := deleteCopies b (script.length + 1) script
    (if nFound > 0 then result else script, nFound)

private theorem skipCopies_length (b : CScript) (fuel : Nat) (pc : CScript) :
    (skipCopies b fuel pc).1.length ≤ pc.length := by
  induction fuel generalizing pc with
  | zero => exact Nat.le_refl _
  | succ fuel ih =>
    rw [skipCopies]
    split
    · have shorter := ih (pc.drop b.length)
      rw [List.length_drop] at shorter
      dsimp only
      omega
    · exact Nat.le_refl _

theorem deleteCopies_enough {b pc : CScript} {fuel other : Nat} (enough : pc.length < fuel)
    (also : pc.length < other) : deleteCopies b fuel pc = deleteCopies b other pc := by
  induction fuel generalizing other pc with
  | zero => omega
  | succ fuel ih =>
    cases other with
    | zero => omega
    | succ other => ?_
    have skipped := skipCopies_length b pc.length pc
    rw [deleteCopies, deleteCopies]
    dsimp only
    cases reads : getScriptOp (skipCopies b pc.length pc).1 with
    | none => rfl
    | some read =>
      obtain ⟨opcode, data, rest⟩ := read
      have shorter := getScriptOp_length reads
      dsimp only
      rw [ih (by omega) (by omega : rest.length < other)]

def isPayToScriptHash : Bool :=
  script.length == 23 && script.getD 0 0 == OP_HASH160 && script.getD 1 0 == 0x14 &&
    script.getD 22 0 == OP_EQUAL

def witnessProgram : Option (Nat × Valtype) :=
  let version := script.getD 0 0
  if script.length < 4 ∨ 42 < script.length then none
  else if version ≠ OP_0 ∧ (version < OP_1 ∨ OP_16 < version) then none
  else if (script.getD 1 0).toNat + 2 = script.length then
    some (if version = OP_0 then 0 else version.toNat - (OP_1.toNat - 1), script.drop 2)
  else none

def isPayToAnchor (version : Nat) (program : Valtype) : Bool :=
  version == 1 && program == [0x4e, 0x73]

def isOpSuccess (opcode : UInt8) : Bool :=
  opcode == 80 || opcode == 98 || (126 ≤ opcode && opcode ≤ 129) ||
    (131 ≤ opcode && opcode ≤ 134) || (137 ≤ opcode && opcode ≤ 138) ||
    (141 ≤ opcode && opcode ≤ 142) || (149 ≤ opcode && opcode ≤ 153) ||
    (187 ≤ opcode && opcode ≤ 254)

end CScript

def castToBool : Valtype → Bool
  | [] => false
  | [last] => last != 0 && last != 0x80
  | byte :: next :: rest => byte != 0 || castToBool (next :: rest)

namespace CScriptNum

/-- No byte could be dropped: the last one holds more than the sign, or makes room for it. -/
def isMinimal (vch : Valtype) : Bool :=
  match vch.reverse with
  | [] => true
  | last :: before =>
    last &&& 0x7f != 0 ||
      match before with
      | [] => false
      | second :: _ => second &&& 0x80 != 0

def setVch (vch : Valtype) : Int :=
  let result := CScript.fromLittleEndian vch
  if vch.getLastD 0 &&& 0x80 != 0 then -((result - 0x80 * 256 ^ (vch.length - 1) : Nat) : Int)
  else result

def absBytes : (fuel absvalue : Nat) → Valtype
  | 0, _ => []
  | fuel + 1, absvalue =>
    if absvalue = 0 then [] else UInt8.ofNat absvalue :: absBytes fuel (absvalue / 256)

def serialize (value : Int) : Valtype :=
  let result := absBytes 8 value.natAbs
  let neg := decide (value < 0)
  match result.reverse with
  | [] => []
  | last :: before =>
    if last &&& 0x80 != 0 then result ++ [if neg then 0x80 else 0]
    else if neg then ((last ||| 0x80) :: before).reverse
    else result

def getint (value : Int) : Int := max (-2 ^ 31) (min value (2 ^ 31 - 1))

end CScriptNum

end Adonai
