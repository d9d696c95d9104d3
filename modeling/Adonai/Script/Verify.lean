/-
`VerifyScript`: both scripts of an input, pay-to-script-hash and witness programs.

A witness stack is a list with its bottom first, as in a transaction.
-/

import Adonai.Consensus.TxVerify
import Adonai.Script.Interpreter

namespace Adonai.Script

open CScript Compressor

variable (context : Context) (flags : VerifyFlags)

/-- The scan of a tapscript before its execution: whether an `OP_SUCCESSx` was found. -/
def scanOpSuccess : List Instruction → Outcome Bool
  | [] => .ok false
  | .unreadable :: _ => fail .badOpcode
  | .op opcode _ _ :: later => if isOpSuccess opcode then .ok true else scanOpSuccess later

/-- What is asked of a witness script that is executed; it must leave a single true element. -/
def runWitnessScript (sigversion : SigVersion) (stack : List Valtype) (exec_script : CScript)
    (execdata : ScriptExecutionData) : Outcome Unit := do
  check (stack.all fun elem => elem.length ≤ MAX_SCRIPT_ELEMENT_SIZE) .pushSize
  let stack ← evalScript context flags sigversion exec_script stack execdata
  check (stack.length == 1) .cleanstack
  check (castToBool (stack.headD [])) .evalFalse

def executeWitnessScript (sigversion : SigVersion) (stack : List Valtype) (exec_script : CScript)
    (execdata : ScriptExecutionData) : Outcome Unit :=
  if sigversion = .tapscript then do
    let found ← scanOpSuccess (instructions exec_script)
    if found then whenEnabled (flags.has .discourageOpSuccess) (fail .discourageOpSuccess)
    else do
      check (stack.length ≤ MAX_STACK_SIZE) .stackSize
      runWitnessScript context flags sigversion stack exec_script execdata
  else runWitnessScript context flags sigversion stack exec_script execdata

namespace Crypto

variable (crypto : Crypto)

def taggedHash (tag : String) (data : Valtype) : Valtype :=
  let prefed := crypto.sha256 tag.toUTF8.data.toList
  crypto.sha256 (prefed ++ prefed ++ data)

def computeTapleafHash (leaf_version : UInt8) (script : Valtype) : Valtype :=
  crypto.taggedHash "TapLeaf" (leaf_version :: writeCompactSize script.length ++ script)

def computeTapbranchHash (a b : Valtype) : Valtype :=
  crypto.taggedHash "TapBranch" (if a < b then a ++ b else b ++ a)

def TAPROOT_CONTROL_BASE_SIZE : Nat := 33
def TAPROOT_CONTROL_NODE_SIZE : Nat := 32
def TAPROOT_CONTROL_MAX_SIZE : Nat := TAPROOT_CONTROL_BASE_SIZE + TAPROOT_CONTROL_NODE_SIZE * 128

def isControlSize (size : Nat) : Bool :=
  decide (TAPROOT_CONTROL_BASE_SIZE ≤ size) && decide (size ≤ TAPROOT_CONTROL_MAX_SIZE) &&
    (size - TAPROOT_CONTROL_BASE_SIZE) % TAPROOT_CONTROL_NODE_SIZE == 0

/-- The nodes of the path follow the internal key in the control block. -/
def computeTaprootMerkleRoot (control tapleaf_hash : Valtype) : Valtype :=
  let path_len := (control.length - TAPROOT_CONTROL_BASE_SIZE) / TAPROOT_CONTROL_NODE_SIZE
  (List.range path_len).foldl
    (fun k i =>
      let start := TAPROOT_CONTROL_BASE_SIZE + TAPROOT_CONTROL_NODE_SIZE * i
      crypto.computeTapbranchHash k ((control.drop start).take TAPROOT_CONTROL_NODE_SIZE))
    tapleaf_hash

def checkTapTweak (output internal merkle_root : Valtype) (parity : Bool) : Bool :=
  crypto.xonlyPubkeyParse internal &&
    crypto.xonlyPubkeyTweakAddCheck output parity internal
      (crypto.taggedHash "TapTweak" (internal ++ merkle_root))

/-- Asked only of a control block of a valid size and a program of 32 bytes. -/
def verifyTaprootCommitment (control program tapleaf_hash : Valtype) : Bool :=
  let p := (control.drop 1).take (TAPROOT_CONTROL_BASE_SIZE - 1)
  crypto.checkTapTweak program p (crypto.computeTaprootMerkleRoot control tapleaf_hash)
    (control.headD 0 &&& 1 != 0)

end Crypto

def WITNESS_V0_SCRIPTHASH_SIZE : Nat := 32
def WITNESS_V0_KEYHASH_SIZE : Nat := 20
def WITNESS_V1_TAPROOT_SIZE : Nat := 32
def TAPROOT_LEAF_MASK : UInt8 := 0xfe
def TAPROOT_LEAF_TAPSCRIPT : UInt8 := 0xc0
def ANNEX_TAG : UInt8 := 0x50

variable (witness : List Valtype)

def witnessSize : Nat :=
  compactSizeLength witness.length +
    (witness.map fun item => compactSizeLength item.length + item.length).sum

variable (stack : List Valtype)

/-- Version 0: the script or the key whose hash is the program. -/
def verifyWitnessV0 (program : Valtype) : Outcome Unit :=
  if program.length = WITNESS_V0_SCRIPTHASH_SIZE then
    match stack with
    | [] => fail .witnessProgramWitnessEmpty
    | exec_script :: stack => do
      check (context.crypto.sha256 exec_script == program) .witnessProgramMismatch
      executeWitnessScript context flags .witnessV0 stack exec_script {}
  else if program.length = WITNESS_V0_KEYHASH_SIZE then do
    check (stack.length == 2) .witnessProgramMismatch
    executeWitnessScript context flags .witnessV0 stack
      ([OP_DUP, OP_HASH160] ++ pushData program ++ [OP_EQUALVERIFY, OP_CHECKSIG]) {}
  else fail .witnessProgramWrongLength

def dropAnnex : List Valtype × ScriptExecutionData :=
  match stack with
  | annex :: below =>
    if stack.length ≥ 2 ∧ annex.head? = some ANNEX_TAG then
      (below,
        { m_annex_hash := context.crypto.sha256 (writeCompactSize annex.length ++ annex)
          m_annex_present := true
          m_annex_init := true })
    else (stack, { m_annex_present := false, m_annex_init := true })
  | [] => (stack, { m_annex_present := false, m_annex_init := true })

/-- A spend of a taproot output through a script; `weight` is the size of the whole witness. -/
def verifyScriptPath (weight : Nat) (program control script : Valtype) (stack : List Valtype)
    (execdata : ScriptExecutionData) : Outcome Unit := do
  check (Crypto.isControlSize control.length) .taprootWrongControlSize
  let leaf_version := control.headD 0 &&& TAPROOT_LEAF_MASK
  let tapleaf_hash := context.crypto.computeTapleafHash leaf_version script
  check (context.crypto.verifyTaprootCommitment control program tapleaf_hash)
    .witnessProgramMismatch
  if leaf_version = TAPROOT_LEAF_TAPSCRIPT then
    executeWitnessScript context flags .tapscript stack script
      { execdata with
        m_tapleaf_hash := tapleaf_hash
        m_tapleaf_hash_init := true
        m_validation_weight_left := weight + VALIDATION_WEIGHT_OFFSET
        m_validation_weight_left_init := true }
  else
    whenEnabled (flags.has .discourageUpgradableTaprootVersion)
      (fail .discourageUpgradableTaprootVersion)

def verifyTaproot (weight : Nat) (program : Valtype) (stack : List Valtype) : Outcome Unit := do
  check (!stack.isEmpty) .witnessProgramWitnessEmpty
  let (stack, execdata) := dropAnnex context stack
  match stack with
  | [sig] => do
    let _ ← context.checker.checkSchnorrSignature sig program .taproot execdata
    pure ()
  | control :: script :: stack =>
    verifyScriptPath context flags weight program control script stack execdata
  | [] => .error .underflow

def verifyWitnessProgram (witversion : Nat) (program : Valtype) (is_p2sh : Bool) : Outcome Unit :=
  let stack := witness.reverse
  if witversion = 0 then verifyWitnessV0 context flags stack program
  else if witversion = 1 ∧ program.length = WITNESS_V1_TAPROOT_SIZE ∧ is_p2sh = false then
    whenEnabled (flags.has .taproot)
      (verifyTaproot context flags (witnessSize witness) program stack)
  else if is_p2sh = false ∧ isPayToAnchor witversion program = true then .ok ()
  else
    whenEnabled (flags.has .discourageUpgradableWitnessProgram)
      (fail .discourageUpgradableWitnessProgram)

structure Progress where
  stack : List Valtype
  hadWitness : Bool
  deriving DecidableEq, Repr

def resizeOne : List Valtype := (stack.reverse ++ [[]]).take 1

def verifyWitness (script : CScript) (unmalleated is_p2sh : Bool)
    (malleated : ScriptError) (progress : Progress) : Outcome Progress :=
  if flags.has .witness then
    match witnessProgram script with
    | none => .ok progress
    | some (witnessversion, program) => do
      check unmalleated malleated
      verifyWitnessProgram context flags witness witnessversion program is_p2sh
      pure { stack := resizeOne progress.stack, hadWitness := true }
  else .ok progress

def requireTrue : Outcome Unit := do
  check (!stack.isEmpty) .evalFalse
  check (castToBool (stack.headD [])) .evalFalse

def verifyRedeemScript (scriptSig : CScript) (stackCopy : List Valtype)
    (progress : Progress) : Outcome Progress := do
  check scriptSig.isPushOnly .sigPushonly
  assert (!stackCopy.isEmpty)
  let pubKey2 := stackCopy.headD []
  let stack ← evalScript context flags .base pubKey2 (stackCopy.drop 1)
  requireTrue stack
  verifyWitness context flags witness pubKey2 (scriptSig == pushData pubKey2) true
    .witnessMalleatedP2sh { progress with stack := stack }

variable (scriptSig scriptPubKey : CScript)

def verifyScriptHash (stackCopy : List Valtype) (progress : Progress) : Outcome Progress :=
  if flags.has .p2sh && scriptPubKey.isPayToScriptHash then
    verifyRedeemScript context flags witness scriptSig stackCopy progress
  else .ok progress

def finalChecks (progress : Progress) : Outcome Unit := do
  whenEnabled (flags.has .cleanstack) do
    assert (flags.has .p2sh)
    assert (flags.has .witness)
    check (progress.stack.length == 1) .cleanstack
  whenEnabled (flags.has .witness) do
    assert (flags.has .p2sh)
    check (progress.hadWitness || witness.isEmpty) .witnessUnexpected

def verifyPrograms (stackCopy stack : List Valtype) : Outcome Unit := do
  let progress ← verifyWitness context flags witness scriptPubKey scriptSig.isEmpty false
    .witnessMalleated { stack := stack, hadWitness := false }
  let progress ← verifyScriptHash context flags witness scriptSig scriptPubKey stackCopy progress
  finalChecks flags witness progress

/-- A null `witness` is the empty one. -/
def verifyScript (witness : Option (List Valtype)) : Outcome Unit := do
  whenEnabled (flags.has .sigpushonly) (check scriptSig.isPushOnly .sigPushonly)
  let stackCopy ← evalScript context flags .base scriptSig []
  let stack ← evalScript context flags .base scriptPubKey stackCopy
  requireTrue stack
  verifyPrograms context flags (witness.getD []) scriptSig scriptPubKey stackCopy stack

end Adonai.Script
