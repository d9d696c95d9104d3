/-
`EvalScript`.

Stacks are lists with the top at the head. The cryptography and the checker of signatures and locks
are parameters. An assertion and an access below the bottom of a stack end in halts of their own
(the source's `at` throws there, which gives `SCRIPT_ERR_UNKNOWN_ERROR`).
-/

import Adonai.Foundation.Relaxation
import Adonai.Script.Bytes

namespace Adonai.Script

open CScript

inductive VerifyFlag where
  | p2sh
  | strictenc
  | dersig
  | lowS
  | nulldummy
  | sigpushonly
  | minimaldata
  | discourageUpgradableNops
  | cleanstack
  | checklocktimeverify
  | checksequenceverify
  | witness
  | discourageUpgradableWitnessProgram
  | minimalif
  | nullfail
  | witnessPubkeytype
  | constScriptcode
  | taproot
  | discourageUpgradableTaprootVersion
  | discourageOpSuccess
  | discourageUpgradablePubkeytype
  deriving DecidableEq, Repr

def VerifyFlag.bit : VerifyFlag → Nat
  | .p2sh => 0
  | .strictenc => 1
  | .dersig => 2
  | .lowS => 3
  | .nulldummy => 4
  | .sigpushonly => 5
  | .minimaldata => 6
  | .discourageUpgradableNops => 7
  | .cleanstack => 8
  | .checklocktimeverify => 9
  | .checksequenceverify => 10
  | .witness => 11
  | .discourageUpgradableWitnessProgram => 12
  | .minimalif => 13
  | .nullfail => 14
  | .witnessPubkeytype => 15
  | .constScriptcode => 16
  | .taproot => 17
  | .discourageUpgradableTaprootVersion => 18
  | .discourageOpSuccess => 19
  | .discourageUpgradablePubkeytype => 20

structure VerifyFlags where
  bits : BitVec 32
  deriving DecidableEq, Repr

namespace VerifyFlags

def has (flags : VerifyFlags) (flag : VerifyFlag) : Bool := flags.bits.getLsbD flag.bit

def ofList (set : List VerifyFlag) : VerifyFlags where
  bits := set.foldl (fun bits flag => bits ||| (1#32 <<< flag.bit)) 0

/-- Flag sets by inclusion; bits that are no flag do not count. -/
instance : LE VerifyFlags where
  le fewer more := ∀ flag, fewer.has flag = true → more.has flag = true

end VerifyFlags

inductive ScriptError where
  | unknownError
  | evalFalse
  | opReturn
  | scriptSize
  | pushSize
  | opCount
  | stackSize
  | sigCount
  | pubkeyCount
  | verify
  | equalverify
  | checkmultisigverify
  | checksigverify
  | numequalverify
  | badOpcode
  | disabledOpcode
  | invalidStackOperation
  | invalidAltstackOperation
  | unbalancedConditional
  | negativeLocktime
  | unsatisfiedLocktime
  | sigHashtype
  | sigDer
  | minimaldata
  | sigPushonly
  | sigHighS
  | sigNulldummy
  | pubkeytype
  | cleanstack
  | minimalif
  | sigNullfail
  | discourageUpgradableNops
  | discourageUpgradableWitnessProgram
  | discourageUpgradableTaprootVersion
  | discourageOpSuccess
  | discourageUpgradablePubkeytype
  | witnessProgramWrongLength
  | witnessProgramWitnessEmpty
  | witnessProgramMismatch
  | witnessMalleated
  | witnessMalleatedP2sh
  | witnessUnexpected
  | witnessPubkeytype
  | schnorrSigSize
  | schnorrSigHashtype
  | schnorrSig
  | taprootWrongControlSize
  | tapscriptValidationWeight
  | tapscriptCheckmultisig
  | tapscriptMinimalif
  | opCodeseparator
  | sigFindanddelete
  deriving DecidableEq, Repr

inductive ScriptHalt where
  | error (code : ScriptError)
  | assertion
  | underflow
  deriving DecidableEq, Repr

abbrev Outcome := Except ScriptHalt

def fail {α : Type} (code : ScriptError) : Outcome α := .error (.error code)

def check (condition : Bool) (code : ScriptError) : Outcome Unit := ensure condition (.error code)

def assert (condition : Bool) : Outcome Unit := ensure condition .assertion

def orUnderflow {α : Type} : Option α → Outcome α
  | some value => .ok value
  | none => .error .underflow

inductive SigVersion where
  | base
  | witnessV0
  | taproot
  | tapscript
  deriving DecidableEq, Repr

structure ScriptExecutionData where
  m_tapleaf_hash_init : Bool := false
  m_tapleaf_hash : Valtype := []
  m_codeseparator_pos_init : Bool := false
  m_codeseparator_pos : Nat := 0
  m_annex_init : Bool := false
  m_annex_present : Bool := false
  m_annex_hash : Valtype := []
  m_validation_weight_left_init : Bool := false
  m_validation_weight_left : Int := 0
  m_output_hash : Option Valtype := none
  deriving DecidableEq, Repr

/-- `BaseSignatureChecker`: `checkSchnorrSignature` may fill in the execution data. -/
structure SignatureChecker where
  checkECDSASignature : (vchSig vchPubKey : Valtype) → (scriptCode : CScript) → SigVersion → Bool
  checkSchnorrSignature :
    (sig pubkey : Valtype) → SigVersion → ScriptExecutionData → Outcome ScriptExecutionData
  checkLockTime : Int → Bool
  checkSequence : Int → Bool

structure Crypto where
  ripemd160 : Valtype → Valtype
  sha1 : Valtype → Valtype
  sha256 : Valtype → Valtype
  -- BLAKE3, once
  hash256 : Valtype → Valtype
  checkLowS : Valtype → Bool
  xonlyPubkeyParse : Valtype → Bool
  xonlyPubkeyTweakAddCheck : (tweaked : Valtype) → (parity : Bool) →
    (internal tweak : Valtype) → Bool

structure Context where
  crypto : Crypto
  checker : SignatureChecker

def isCompressedOrUncompressedPubKey (vchPubKey : Valtype) : Bool :=
  if vchPubKey.length < 33 then false
  else if vchPubKey.getD 0 0 = 0x04 then vchPubKey.length == 65
  else if vchPubKey.getD 0 0 = 0x02 ∨ vchPubKey.getD 0 0 = 0x03 then vchPubKey.length == 33
  else false

def isCompressedPubKey (vchPubKey : Valtype) : Bool :=
  vchPubKey.length == 33 && (vchPubKey.getD 0 0 == 0x02 || vchPubKey.getD 0 0 == 0x03)

/-- A positive number without padding: its length, and its first bytes from `start`. -/
def isPositiveInteger (sig : Valtype) (size start : Nat) : Bool :=
  size != 0 && sig.getD start 0 &&& 0x80 == 0 &&
    !(decide (size > 1) && sig.getD start 0 == 0 && sig.getD (start + 1) 0 &&& 0x80 == 0)

def isValidSignatureEncoding (sig : Valtype) : Bool :=
  let lenR := (sig.getD 3 0).toNat
  let lenS := (sig.getD (5 + lenR) 0).toNat
  decide (9 ≤ sig.length) && decide (sig.length ≤ 73) && sig.getD 0 0 == 0x30 &&
    (sig.getD 1 0).toNat == sig.length - 3 && decide (5 + lenR < sig.length) &&
    lenR + lenS + 7 == sig.length && sig.getD 2 0 == 0x02 && isPositiveInteger sig lenR 4 &&
    sig.getD (lenR + 4) 0 == 0x02 && isPositiveInteger sig lenS (lenR + 6)

def isLowDERSignature (crypto : Crypto) (vchSig : Valtype) : Outcome Unit := do
  check (isValidSignatureEncoding vchSig) .sigDer
  check (crypto.checkLowS vchSig.dropLast) .sigHighS

def isDefinedHashtypeSignature (vchSig : Valtype) : Bool :=
  match vchSig.getLast? with
  | none => false
  | some byte =>
    let nHashType := byte &&& ~~~0x80
    decide (1 ≤ nHashType) && decide (nHashType ≤ 3)

def checkSignatureEncoding (crypto : Crypto) (flags : VerifyFlags) (vchSig : Valtype) :
    Outcome Unit :=
  if vchSig.length = 0 then .ok ()
  else do
    whenEnabled (flags.has .dersig || flags.has .lowS || flags.has .strictenc)
      (check (isValidSignatureEncoding vchSig) .sigDer)
    whenEnabled (flags.has .lowS) (isLowDERSignature crypto vchSig)
    whenEnabled (flags.has .strictenc) (check (isDefinedHashtypeSignature vchSig) .sigHashtype)

def checkPubKeyEncoding (flags : VerifyFlags) (sigversion : SigVersion) (vchPubKey : Valtype) :
    Outcome Unit := do
  whenEnabled (flags.has .strictenc)
    (check (isCompressedOrUncompressedPubKey vchPubKey) .pubkeytype)
  whenEnabled (flags.has .witnessPubkeytype)
    (check (sigversion != .witnessV0 || isCompressedPubKey vchPubKey) .witnessPubkeytype)

/-- `CScriptNum(vch, fRequireMinimal, nMaxNumSize)`; what it throws is caught. -/
def scriptNum (flags : VerifyFlags) (vch : Valtype) (nMaxNumSize : Nat := 4) : Outcome Int := do
  check (vch.length ≤ nMaxNumSize) .unknownError
  whenEnabled (flags.has .minimaldata) (check (CScriptNum.isMinimal vch) .unknownError)
  pure (CScriptNum.setVch vch)

def ConditionStack.NO_FALSE : UInt32 := 0xFFFFFFFF

/-- A stack of conditions: only its size and the position of its first false one are kept. -/
structure ConditionStack where
  m_stack_size : UInt32 := 0
  m_first_false_pos : UInt32 := ConditionStack.NO_FALSE
  deriving DecidableEq, Repr

namespace ConditionStack

variable (conditions : ConditionStack)

def empty : Bool := conditions.m_stack_size == 0

def allTrue : Bool := conditions.m_first_false_pos == NO_FALSE

def pushBack (f : Bool) (conditions : ConditionStack) : ConditionStack where
  m_stack_size := conditions.m_stack_size + 1
  m_first_false_pos :=
    if conditions.m_first_false_pos = NO_FALSE ∧ f = false then conditions.m_stack_size
    else conditions.m_first_false_pos

def popBack : Outcome ConditionStack := do
  assert (0 < conditions.m_stack_size)
  let size := conditions.m_stack_size - 1
  pure
    { m_stack_size := size
      m_first_false_pos :=
        if conditions.m_first_false_pos = size then NO_FALSE
        else conditions.m_first_false_pos }

def toggleTop : Outcome ConditionStack := do
  assert (0 < conditions.m_stack_size)
  let top := conditions.m_stack_size - 1
  pure
    { conditions with
      m_first_false_pos :=
        if conditions.m_first_false_pos = NO_FALSE then top
        else if conditions.m_first_false_pos = top then NO_FALSE
        else conditions.m_first_false_pos }

end ConditionStack

/-- The local variables of `EvalScript` except the iterator. -/
structure Frame where
  stack : List Valtype
  altstack : List Valtype
  vfExec : ConditionStack
  nOpCount : Nat
  opcode_pos : Nat
  pbegincodehash : CScript
  execdata : ScriptExecutionData
  deriving DecidableEq, Repr

def Frame.push (value : Valtype) (frame : Frame) : Frame :=
  { frame with stack := value :: frame.stack }

def MAX_SCRIPT_ELEMENT_SIZE : Nat := 520
def MAX_OPS_PER_SCRIPT : Nat := 201
def MAX_PUBKEYS_PER_MULTISIG : Nat := 20
def MAX_STACK_SIZE : Nat := 1000
def VALIDATION_WEIGHT_PER_SIGOP_PASSED : Int := 50
def VALIDATION_WEIGHT_OFFSET : Int := 50

def stacktop (stack : List Valtype) (depth : Nat) : Outcome Valtype := orUnderflow stack[depth - 1]?

def popstack : List Valtype → Outcome (List Valtype)
  | [] => .error .underflow
  | _ :: below => .ok below

def need (count : Nat) (stack : List Valtype) : Outcome Unit :=
  check (count ≤ stack.length) .invalidStackOperation

def boolVch (value : Bool) : Valtype := if value then [1] else []

inductive StackOp where
  | twoDrop
  | twoDup
  | threeDup
  | twoOver
  | twoRot
  | twoSwap
  | ifDup
  | depth
  | drop
  | dup
  | nip
  | opOver
  | rot
  | swap
  | tuck
  | size
  deriving DecidableEq, Repr

inductive UnaryOp where
  | oneAdd
  | oneSub
  | negate
  | abs
  | not
  | zeroNotEqual
  deriving DecidableEq, Repr

inductive BinaryOp where
  | add
  | sub
  | boolAnd
  | boolOr
  | numEqual
  | numNotEqual
  | lessThan
  | greaterThan
  | lessThanOrEqual
  | greaterThanOrEqual
  | min
  | max
  deriving DecidableEq, Repr

inductive HashOp where
  | ripemd160
  | sha1
  | sha256
  | hash160
  | hash256
  deriving DecidableEq, Repr

inductive Opcode where
  | number (value : Int)
  | nop
  | checkLockTimeVerify
  | checkSequenceVerify
  | upgradableNop
  | conditional (negated : Bool)
  | elseBranch
  | endIf
  | verify
  | opReturn
  | toAltStack
  | fromAltStack
  | stack (op : StackOp)
  | pick (roll : Bool)
  | equal (verify : Bool)
  | unary (op : UnaryOp)
  | binary (op : BinaryOp)
  | numEqualVerify
  | within
  | hash (op : HashOp)
  | codeSeparator
  | checkSig (verify : Bool)
  | checkSigAdd
  | checkMultiSig (verify : Bool)
  | invalid
  deriving DecidableEq, Repr

def OP_IF : UInt8 := 0x63
def OP_ENDIF : UInt8 := 0x68
def OP_CODESEPARATOR : UInt8 := 0xab

/-- Above `OP_PUSHDATA4`; `OP_VERIF` and `OP_VERNOTIF` have no case of their own. -/
def Opcode.ofByte (opcode : UInt8) : Opcode :=
  if OP_1 ≤ opcode ∧ opcode ≤ OP_16 then .number (opcode.toNat - (OP_1.toNat - 1))
  else
    match opcode.toNat with
    | 0x4f => .number (-1)
    | 0x61 => .nop
    | 0x63 => .conditional false
    | 0x64 => .conditional true
    | 0x67 => .elseBranch
    | 0x68 => .endIf
    | 0x69 => .verify
    | 0x6a => .opReturn
    | 0x6b => .toAltStack
    | 0x6c => .fromAltStack
    | 0x6d => .stack .twoDrop
    | 0x6e => .stack .twoDup
    | 0x6f => .stack .threeDup
    | 0x70 => .stack .twoOver
    | 0x71 => .stack .twoRot
    | 0x72 => .stack .twoSwap
    | 0x73 => .stack .ifDup
    | 0x74 => .stack .depth
    | 0x75 => .stack .drop
    | 0x76 => .stack .dup
    | 0x77 => .stack .nip
    | 0x78 => .stack .opOver
    | 0x79 => .pick false
    | 0x7a => .pick true
    | 0x7b => .stack .rot
    | 0x7c => .stack .swap
    | 0x7d => .stack .tuck
    | 0x82 => .stack .size
    | 0x87 => .equal false
    | 0x88 => .equal true
    | 0x8b => .unary .oneAdd
    | 0x8c => .unary .oneSub
    | 0x8f => .unary .negate
    | 0x90 => .unary .abs
    | 0x91 => .unary .not
    | 0x92 => .unary .zeroNotEqual
    | 0x93 => .binary .add
    | 0x94 => .binary .sub
    | 0x9a => .binary .boolAnd
    | 0x9b => .binary .boolOr
    | 0x9c => .binary .numEqual
    | 0x9d => .numEqualVerify
    | 0x9e => .binary .numNotEqual
    | 0x9f => .binary .lessThan
    | 0xa0 => .binary .greaterThan
    | 0xa1 => .binary .lessThanOrEqual
    | 0xa2 => .binary .greaterThanOrEqual
    | 0xa3 => .binary .min
    | 0xa4 => .binary .max
    | 0xa5 => .within
    | 0xa6 => .hash .ripemd160
    | 0xa7 => .hash .sha1
    | 0xa8 => .hash .sha256
    | 0xa9 => .hash .hash160
    | 0xaa => .hash .hash256
    | 0xab => .codeSeparator
    | 0xac => .checkSig false
    | 0xad => .checkSig true
    | 0xae => .checkMultiSig false
    | 0xaf => .checkMultiSig true
    | 0xb0 => .upgradableNop
    | 0xb1 => .checkLockTimeVerify
    | 0xb2 => .checkSequenceVerify
    | 0xb3 => .upgradableNop
    | 0xb4 => .upgradableNop
    | 0xb5 => .upgradableNop
    | 0xb6 => .upgradableNop
    | 0xb7 => .upgradableNop
    | 0xb8 => .upgradableNop
    | 0xb9 => .upgradableNop
    | 0xba => .checkSigAdd
    | _ => .invalid

/-- `OP_CAT` to `OP_RIGHT`, `OP_INVERT` to `OP_XOR`, `OP_2MUL`, `OP_2DIV`, `OP_MUL` to
`OP_RSHIFT`. -/
def isDisabled (opcode : UInt8) : Bool :=
  (0x7e ≤ opcode && opcode ≤ 0x81) || (0x83 ≤ opcode && opcode ≤ 0x86) ||
    opcode == 0x8d || opcode == 0x8e || (0x95 ≤ opcode && opcode ≤ 0x99)

def StackOp.arity : StackOp → Nat
  | .depth => 0
  | .ifDup | .drop | .dup | .size => 1
  | .twoDrop | .twoDup | .nip | .opOver | .swap | .tuck => 2
  | .threeDup | .rot => 3
  | .twoOver | .twoSwap => 4
  | .twoRot => 6

def StackOp.apply : StackOp → List Valtype → Option (List Valtype)
  | .twoDrop, _ :: _ :: below => some below
  | .twoDup, x2 :: x1 :: below => some (x2 :: x1 :: x2 :: x1 :: below)
  | .threeDup, x3 :: x2 :: x1 :: below => some (x3 :: x2 :: x1 :: x3 :: x2 :: x1 :: below)
  | .twoOver, x4 :: x3 :: x2 :: x1 :: below => some (x2 :: x1 :: x4 :: x3 :: x2 :: x1 :: below)
  | .twoRot, x6 :: x5 :: x4 :: x3 :: x2 :: x1 :: below =>
    some (x2 :: x1 :: x6 :: x5 :: x4 :: x3 :: below)
  | .twoSwap, x4 :: x3 :: x2 :: x1 :: below => some (x2 :: x1 :: x4 :: x3 :: below)
  | .ifDup, x :: below => some (if castToBool x then x :: x :: below else x :: below)
  | .depth, stack => some (CScriptNum.serialize stack.length :: stack)
  | .drop, _ :: below => some below
  | .dup, x :: below => some (x :: x :: below)
  | .nip, x2 :: _ :: below => some (x2 :: below)
  | .opOver, x2 :: x1 :: below => some (x1 :: x2 :: x1 :: below)
  | .rot, x3 :: x2 :: x1 :: below => some (x1 :: x3 :: x2 :: below)
  | .swap, x2 :: x1 :: below => some (x1 :: x2 :: below)
  | .tuck, x2 :: x1 :: below => some (x2 :: x1 :: x2 :: below)
  | .size, x :: below => some (CScriptNum.serialize x.length :: x :: below)
  | _, _ => none

def UnaryOp.apply (bn : Int) : UnaryOp → Int
  | .oneAdd => bn + 1
  | .oneSub => bn - 1
  | .negate => -bn
  | .abs => if bn < 0 then -bn else bn
  | .not => if bn = 0 then 1 else 0
  | .zeroNotEqual => if bn ≠ 0 then 1 else 0

def BinaryOp.apply (bn1 bn2 : Int) : BinaryOp → Int
  | .add => bn1 + bn2
  | .sub => bn1 - bn2
  | .boolAnd => if bn1 ≠ 0 ∧ bn2 ≠ 0 then 1 else 0
  | .boolOr => if bn1 ≠ 0 ∨ bn2 ≠ 0 then 1 else 0
  | .numEqual => if bn1 = bn2 then 1 else 0
  | .numNotEqual => if bn1 ≠ bn2 then 1 else 0
  | .lessThan => if bn1 < bn2 then 1 else 0
  | .greaterThan => if bn1 > bn2 then 1 else 0
  | .lessThanOrEqual => if bn1 ≤ bn2 then 1 else 0
  | .greaterThanOrEqual => if bn1 ≥ bn2 then 1 else 0
  | .min => if bn1 < bn2 then bn1 else bn2
  | .max => if bn1 > bn2 then bn1 else bn2

def HashOp.apply (crypto : Crypto) (vch : Valtype) : HashOp → Valtype
  | .ripemd160 => crypto.ripemd160 vch
  | .sha1 => crypto.sha1 vch
  | .sha256 => crypto.sha256 vch
  | .hash160 => crypto.ripemd160 (crypto.sha256 vch)
  | .hash256 => crypto.hash256 vch

variable (context : Context) (flags : VerifyFlags) (sigversion : SigVersion)

/-- Before segwit the signature is dropped from the script code. -/
def dropSignature (scriptCode : CScript) (vchSig : Valtype) : Outcome CScript :=
  if sigversion = .base then do
    let (deleted, found) := findAndDelete scriptCode (pushData vchSig)
    whenEnabled (flags.has .constScriptcode) (check (found == 0) .sigFindanddelete)
    pure deleted
  else .ok scriptCode

def evalChecksigPreTapscript (pbegincodehash : CScript) (vchSig vchPubKey : Valtype) :
    Outcome Bool := do
  let scriptCode ← dropSignature flags sigversion pbegincodehash vchSig
  checkSignatureEncoding context.crypto flags vchSig
  checkPubKeyEncoding flags sigversion vchPubKey
  let fSuccess := context.checker.checkECDSASignature vchSig vchPubKey scriptCode sigversion
  whenEnabled (flags.has .nullfail) (check (fSuccess || vchSig.isEmpty) .sigNullfail)
  pure fSuccess

/-- The sigops budget of a tapscript, charged for each signature that is not empty. -/
def chargeSignature (sig : Valtype) (execdata : ScriptExecutionData) :
    Outcome ScriptExecutionData :=
  if sig.isEmpty then .ok execdata
  else do
    assert execdata.m_validation_weight_left_init
    let left := execdata.m_validation_weight_left - VALIDATION_WEIGHT_PER_SIGOP_PASSED
    check (0 ≤ left) .tapscriptValidationWeight
    pure { execdata with m_validation_weight_left := left }

def evalChecksigTapscript (execdata : ScriptExecutionData) (sig pubkey : Valtype) :
    Outcome (Bool × ScriptExecutionData) := do
  let execdata ← chargeSignature sig execdata
  if pubkey.length = 0 then fail .pubkeytype
  else if pubkey.length = 32 then
    if sig.isEmpty then .ok (false, execdata)
    else do
      let execdata ← context.checker.checkSchnorrSignature sig pubkey sigversion execdata
      pure (true, execdata)
  else do
    whenEnabled (flags.has .discourageUpgradablePubkeytype) (fail .discourageUpgradablePubkeytype)
    pure (!sig.isEmpty, execdata)

variable (frame : Frame)

def evalChecksig (sig pubkey : Valtype) : Outcome (Bool × ScriptExecutionData) :=
  match sigversion with
  | .base | .witnessV0 => do
    let success ← evalChecksigPreTapscript context flags sigversion frame.pbegincodehash sig pubkey
    pure (success, frame.execdata)
  | .tapscript => evalChecksigTapscript context flags sigversion frame.execdata sig pubkey
  | .taproot => .error .assertion

def matchSignatures (scriptCode : CScript) : (sigs keys : List Valtype) → Outcome Bool
  | [], _ => .ok true
  -- not reached: the loop ends as soon as fewer keys than signatures are left
  | _ :: _, [] => .error .underflow
  | vchSig :: sigs, vchPubKey :: keys => do
    checkSignatureEncoding context.crypto flags vchSig
    checkPubKeyEncoding flags sigversion vchPubKey
    if context.checker.checkECDSASignature vchSig vchPubKey scriptCode sigversion then
      if sigs.length > keys.length then .ok false
      else matchSignatures scriptCode sigs keys
    else if sigs.length + 1 > keys.length then .ok false
    else matchSignatures scriptCode (vchSig :: sigs) keys
termination_by structural _ keys => keys

/-- Pop the arguments; those after the first `ikey2` are signatures. -/
def cleanUp (fSuccess : Bool) : (count ikey2 : Nat) → List Valtype → Outcome (List Valtype)
  | 0, _, stack => .ok stack
  | count + 1, ikey2, stack => do
    let top ← stacktop stack 1
    whenEnabled (flags.has .nullfail)
      (check (fSuccess || ikey2 != 0 || top.isEmpty) .sigNullfail)
    let below ← popstack stack
    cleanUp fSuccess count (ikey2 - 1) below

def pushResult (below : List Valtype) (fSuccess verify : Bool)
    (code : ScriptError) : Outcome Frame :=
  if verify then do
    check fSuccess code
    pure { frame with stack := below }
  else .ok { frame with stack := boolVch fSuccess :: below }

def evalCheckSig (verify : Bool) (frame : Frame) : Outcome Frame := do
  need 2 frame.stack
  let vchSig ← stacktop frame.stack 2
  let vchPubKey ← stacktop frame.stack 1
  let (fSuccess, execdata) ← evalChecksig context flags sigversion frame vchSig vchPubKey
  let below ← popstack frame.stack
  let below ← popstack below
  pushResult { frame with execdata := execdata } below fSuccess verify .checksigverify

def evalCheckSigAdd : Outcome Frame := do
  check (sigversion != .base && sigversion != .witnessV0) .badOpcode
  need 3 frame.stack
  let sig ← stacktop frame.stack 3
  let item ← stacktop frame.stack 2
  let num ← scriptNum flags item
  let pubkey ← stacktop frame.stack 1
  let (success, execdata) ← evalChecksig context flags sigversion frame sig pubkey
  let below ← popstack frame.stack
  let below ← popstack below
  let below ← popstack below
  pure
    { frame with
      stack := CScriptNum.serialize (num + if success then 1 else 0) :: below
      execdata := execdata }

/-- `OP_CHECKMULTISIG`: with `i` as in the source, `i - 1` arguments and one element more go. -/
def evalCheckMultiSig (verify : Bool) (frame : Frame) : Outcome Frame := do
  check (sigversion != .tapscript) .tapscriptCheckmultisig
  need 1 frame.stack
  let item ← stacktop frame.stack 1
  let keysNum ← scriptNum flags item
  let nKeysCount := (CScriptNum.getint keysNum).toNat
  check (0 ≤ CScriptNum.getint keysNum && nKeysCount ≤ MAX_PUBKEYS_PER_MULTISIG) .pubkeyCount
  let nOpCount := frame.nOpCount + nKeysCount
  check (nOpCount ≤ MAX_OPS_PER_SCRIPT) .opCount
  need (2 + nKeysCount) frame.stack
  let item ← stacktop frame.stack (2 + nKeysCount)
  let sigsNum ← scriptNum flags item
  let nSigsCount := (CScriptNum.getint sigsNum).toNat
  check (0 ≤ CScriptNum.getint sigsNum && nSigsCount ≤ nKeysCount) .sigCount
  let i := 3 + nKeysCount + nSigsCount
  need i frame.stack
  let keys := (frame.stack.drop 1).take nKeysCount
  let sigs := (frame.stack.drop (2 + nKeysCount)).take nSigsCount
  let scriptCode ← sigs.foldlM (dropSignature flags sigversion) frame.pbegincodehash
  let fSuccess ← matchSignatures context flags sigversion scriptCode sigs keys
  let stack ← cleanUp flags fSuccess (i - 1) (nKeysCount + 2) frame.stack
  need 1 stack
  let dummy ← stacktop stack 1
  whenEnabled (flags.has .nulldummy) (check dummy.isEmpty .sigNulldummy)
  let below ← popstack stack
  pushResult { frame with nOpCount := nOpCount } below fSuccess verify .checkmultisigverify

def lockOperand : Outcome Int := do
  need 1 frame.stack
  let item ← stacktop frame.stack 1
  let operand ← scriptNum flags item 5
  check (0 ≤ operand) .negativeLocktime
  pure operand

def evalCheckLockTimeVerify : Outcome Unit := do
  let nLockTime ← lockOperand flags frame
  check (context.checker.checkLockTime nLockTime) .unsatisfiedLocktime

def SEQUENCE_LOCKTIME_DISABLE_FLAG : Int := 2 ^ 31

/-- An operand with the disable bit makes it a no-operation. -/
def evalCheckSequenceVerify : Outcome Unit := do
  let nSequence ← lockOperand flags frame
  check
    (nSequence / SEQUENCE_LOCKTIME_DISABLE_FLAG % 2 != 0 ||
      context.checker.checkSequence nSequence)
    .unsatisfiedLocktime

def isMinimalIf (vch : Valtype) : Bool :=
  !(decide (vch.length > 1) || (vch.length == 1 && vch.headD 0 != 1))

def evalIf (fExec negated : Bool) (frame : Frame) : Outcome Frame :=
  if fExec then do
    check (1 ≤ frame.stack.length) .unbalancedConditional
    let vch ← stacktop frame.stack 1
    check (sigversion != .tapscript || isMinimalIf vch) .tapscriptMinimalif
    whenEnabled (flags.has .minimalif)
      (check (sigversion != .witnessV0 || isMinimalIf vch) .minimalif)
    let below ← popstack frame.stack
    pure { frame with stack := below, vfExec := frame.vfExec.pushBack (castToBool vch != negated) }
  else .ok { frame with vfExec := frame.vfExec.pushBack false }

def evalPick (roll : Bool) (frame : Frame) : Outcome Frame := do
  need 2 frame.stack
  let item ← stacktop frame.stack 1
  let num ← scriptNum flags item
  let n := CScriptNum.getint num
  let stack ← popstack frame.stack
  check (0 ≤ n && n < stack.length) .invalidStackOperation
  let vch ← stacktop stack (n.toNat + 1)
  pure { frame with stack := vch :: if roll then stack.eraseIdx n.toNat else stack }

def evalEqual (verify : Bool) (frame : Frame) : Outcome Frame := do
  need 2 frame.stack
  let vch1 ← stacktop frame.stack 2
  let vch2 ← stacktop frame.stack 1
  let below ← popstack frame.stack
  let below ← popstack below
  pushResult frame below (vch1 == vch2) verify .equalverify

def evalUnary (op : UnaryOp) (frame : Frame) : Outcome Frame := do
  need 1 frame.stack
  let item ← stacktop frame.stack 1
  let bn ← scriptNum flags item
  let below ← popstack frame.stack
  pure { frame with stack := CScriptNum.serialize (op.apply bn) :: below }

def applyBinary (op : BinaryOp) (frame : Frame) : Outcome (Valtype × List Valtype) := do
  need 2 frame.stack
  let item1 ← stacktop frame.stack 2
  let bn1 ← scriptNum flags item1
  let item2 ← stacktop frame.stack 1
  let bn2 ← scriptNum flags item2
  let below ← popstack frame.stack
  let below ← popstack below
  pure (CScriptNum.serialize (op.apply bn1 bn2), below)

def evalBinary (op : BinaryOp) (frame : Frame) : Outcome Frame := do
  let (bn, below) ← applyBinary flags op frame
  pure { frame with stack := bn :: below }

def evalNumEqualVerify : Outcome Frame := do
  let (bn, below) ← applyBinary flags .numEqual frame
  pushResult frame below (castToBool bn) true .numequalverify

def evalWithin : Outcome Frame := do
  need 3 frame.stack
  let item1 ← stacktop frame.stack 3
  let bn1 ← scriptNum flags item1
  let item2 ← stacktop frame.stack 2
  let bn2 ← scriptNum flags item2
  let item3 ← stacktop frame.stack 1
  let bn3 ← scriptNum flags item3
  let below ← popstack frame.stack
  let below ← popstack below
  let below ← popstack below
  pure { frame with stack := boolVch (decide (bn2 ≤ bn1) && decide (bn1 < bn3)) :: below }

/-- The switch over an opcode; `pc` is where the script goes on. -/
def execute (fExec : Bool) (pc : CScript) (frame : Frame) : Opcode → Outcome Frame
  | .number value => .ok (frame.push (CScriptNum.serialize value))
  | .nop => .ok frame
  | .checkLockTimeVerify => do
    whenEnabled (flags.has .checklocktimeverify) (evalCheckLockTimeVerify context flags frame)
    pure frame
  | .checkSequenceVerify => do
    whenEnabled (flags.has .checksequenceverify) (evalCheckSequenceVerify context flags frame)
    pure frame
  | .upgradableNop => do
    whenEnabled (flags.has .discourageUpgradableNops) (fail .discourageUpgradableNops)
    pure frame
  | .conditional negated => evalIf flags sigversion fExec negated frame
  | .elseBranch => do
    check (!frame.vfExec.empty) .unbalancedConditional
    let vfExec ← frame.vfExec.toggleTop
    pure { frame with vfExec := vfExec }
  | .endIf => do
    check (!frame.vfExec.empty) .unbalancedConditional
    let vfExec ← frame.vfExec.popBack
    pure { frame with vfExec := vfExec }
  | .verify => do
    need 1 frame.stack
    let item ← stacktop frame.stack 1
    check (castToBool item) .verify
    let below ← popstack frame.stack
    pure { frame with stack := below }
  | .opReturn => fail .opReturn
  | .toAltStack => do
    need 1 frame.stack
    let item ← stacktop frame.stack 1
    let below ← popstack frame.stack
    pure { frame with stack := below, altstack := item :: frame.altstack }
  | .fromAltStack => do
    check (1 ≤ frame.altstack.length) .invalidAltstackOperation
    let item ← stacktop frame.altstack 1
    let below ← popstack frame.altstack
    pure { frame with stack := item :: frame.stack, altstack := below }
  | .stack op => do
    need op.arity frame.stack
    let stack ← orUnderflow (op.apply frame.stack)
    pure { frame with stack := stack }
  | .pick roll => evalPick flags roll frame
  | .equal verify => evalEqual verify frame
  | .unary op => evalUnary flags op frame
  | .binary op => evalBinary flags op frame
  | .numEqualVerify => evalNumEqualVerify flags frame
  | .within => evalWithin flags frame
  | .hash op => do
    need 1 frame.stack
    let vch ← stacktop frame.stack 1
    let below ← popstack frame.stack
    pure { frame with stack := op.apply context.crypto vch :: below }
  | .codeSeparator =>
    .ok
      { frame with
        pbegincodehash := pc
        execdata := { frame.execdata with m_codeseparator_pos := frame.opcode_pos } }
  | .checkSig verify => evalCheckSig context flags sigversion verify frame
  | .checkSigAdd => evalCheckSigAdd context flags sigversion frame
  | .checkMultiSig verify => evalCheckMultiSig context flags sigversion verify frame
  | .invalid => fail .badOpcode

def countOp (opcode : UInt8) (frame : Frame) : Outcome Frame :=
  if (sigversion = .base ∨ sigversion = .witnessV0) ∧ OP_16 < opcode then do
    check (frame.nOpCount + 1 ≤ MAX_OPS_PER_SCRIPT) .opCount
    pure { frame with nOpCount := frame.nOpCount + 1 }
  else .ok frame

/-- In a branch that is not taken only the opcodes from `OP_IF` to `OP_ENDIF` are executed. -/
def dispatch (opcode : UInt8) (vchPushValue : Valtype) (pc : CScript) (frame : Frame) :
    Outcome Frame :=
  let fExec := frame.vfExec.allTrue
  if fExec = true ∧ opcode ≤ OP_PUSHDATA4 then do
    whenEnabled (flags.has .minimaldata)
      (check (checkMinimalPush vchPushValue opcode) .minimaldata)
    pure (frame.push vchPushValue)
  else if fExec = true ∨ (OP_IF ≤ opcode ∧ opcode ≤ OP_ENDIF) then
    execute context flags sigversion fExec pc frame (.ofByte opcode)
  else .ok frame

def step (opcode : UInt8) (vchPushValue : Valtype) (pc : CScript) (frame : Frame) :
    Outcome Frame := do
  check (vchPushValue.length ≤ MAX_SCRIPT_ELEMENT_SIZE) .pushSize
  let frame ← countOp sigversion opcode frame
  check (!isDisabled opcode) .disabledOpcode
  whenEnabled (flags.has .constScriptcode)
    (check (!(opcode == OP_CODESEPARATOR && sigversion == .base)) .opCodeseparator)
  let frame ← dispatch context flags sigversion opcode vchPushValue pc frame
  check (frame.stack.length + frame.altstack.length ≤ MAX_STACK_SIZE) .stackSize
  pure { frame with opcode_pos := frame.opcode_pos + 1 }

def evalLoop : List Instruction → Frame → Outcome Frame
  | [], frame => .ok frame
  | .unreadable :: _, _ => fail .badOpcode
  | .op opcode vchPushValue pc :: later, frame => do
    let frame ← step context flags sigversion opcode vchPushValue pc frame
    evalLoop later frame

def Frame.start (script : CScript) (stack : List Valtype) (execdata : ScriptExecutionData) :
    Frame where
  stack := stack
  altstack := []
  vfExec := {}
  nOpCount := 0
  opcode_pos := 0
  pbegincodehash := script
  execdata :=
    { execdata with m_codeseparator_pos := 0xFFFFFFFF, m_codeseparator_pos_init := true }

def evalScript (script : CScript) (stack : List Valtype) (execdata : ScriptExecutionData := {}) :
    Outcome (List Valtype) := do
  assert (sigversion != .taproot)
  check (sigversion == .tapscript || script.length ≤ MAX_SCRIPT_SIZE) .scriptSize
  let frame ← evalLoop context flags sigversion (instructions script) (.start script stack execdata)
  check frame.vfExec.empty .unbalancedConditional
  pure frame.stack

end Adonai.Script
