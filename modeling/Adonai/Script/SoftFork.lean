/-
Every verification flag is a soft fork.

A flag that is read inside the interpreter only adds a check, so that each function
`Relaxes` in the flags. In `VerifyScript` two flags also choose what is run: there the
conditions on flag sets are used.
-/

import Adonai.Script.Verify

namespace Adonai.Script

open CScript

@[fun_prop]
theorem relaxes_flag (flag : VerifyFlag) {run : VerifyFlags → Outcome Unit} (checks : Relaxes run) :
    Relaxes fun flags => whenEnabled (VerifyFlags.has flags flag) (run flags) :=
  Relaxes.whenEnabled (fun _ _ fewer => fewer flag) checks

section Opcodes

variable (context : Context) (sigversion : SigVersion) (frame : Frame)

@[fun_prop]
theorem relaxes_checkSignatureEncoding (crypto : Crypto) (vchSig : Valtype) :
    Relaxes fun flags => checkSignatureEncoding crypto flags vchSig := by
  have der : Relaxes fun flags : VerifyFlags =>
      whenEnabled (flags.has .dersig || flags.has .lowS || flags.has .strictenc)
        (check (isValidSignatureEncoding vchSig) .sigDer) := by
    refine Relaxes.whenEnabled (fun lax strict fewer => ?_) (.const _)
    simp only [Bool.or_eq_true]
    intro enabled
    rcases enabled with (dersig | lowS) | strictenc
    · exact .inl (.inl (fewer _ dersig))
    · exact .inl (.inr (fewer _ lowS))
    · exact .inr (fewer _ strictenc)
  unfold checkSignatureEncoding
  fun_prop

@[fun_prop]
theorem relaxes_checkPubKeyEncoding (vchPubKey : Valtype) :
    Relaxes fun flags => checkPubKeyEncoding flags sigversion vchPubKey := by
  unfold checkPubKeyEncoding
  fun_prop

@[fun_prop]
theorem relaxes_scriptNum (vch : Valtype) (nMaxNumSize : Nat) :
    Relaxes fun flags => scriptNum flags vch nMaxNumSize := by
  unfold scriptNum
  fun_prop

@[fun_prop]
theorem relaxes_dropSignature (scriptCode : CScript) (vchSig : Valtype) :
    Relaxes fun flags => dropSignature flags sigversion scriptCode vchSig := by
  unfold dropSignature
  fun_prop

@[fun_prop]
theorem relaxes_evalChecksig (sig pubkey : Valtype) :
    Relaxes fun flags => evalChecksig context flags sigversion frame sig pubkey := by
  unfold evalChecksig evalChecksigPreTapscript evalChecksigTapscript
  cases sigversion <;> fun_prop

@[fun_prop]
theorem relaxes_matchSignatures (scriptCode : CScript) (sigs keys : List Valtype) :
    Relaxes fun flags => matchSignatures context flags sigversion scriptCode sigs keys := by
  induction keys generalizing sigs with
  | nil => cases sigs <;> exact .const _
  | cons vchPubKey keys ih =>
    cases sigs with
    | nil => exact .const _
    | cons vchSig sigs =>
      unfold matchSignatures
      fun_prop

@[fun_prop]
theorem relaxes_cleanUp (fSuccess : Bool) (count ikey2 : Nat) (stack : List Valtype) :
    Relaxes fun flags => cleanUp flags fSuccess count ikey2 stack := by
  induction count generalizing ikey2 stack with
  | zero => exact .const _
  | succ count ih =>
    unfold cleanUp
    fun_prop

@[fun_prop]
theorem relaxes_execute (fExec : Bool) (pc : CScript) (opcode : Opcode) :
    Relaxes fun flags => execute context flags sigversion fExec pc frame opcode := by
  cases opcode <;>
    simp only [execute, evalCheckLockTimeVerify, evalCheckSequenceVerify, lockOperand, evalIf,
      evalPick, evalUnary, evalBinary, evalNumEqualVerify, applyBinary, evalWithin, evalCheckSig,
      evalCheckSigAdd, evalCheckMultiSig] <;>
    fun_prop

end Opcodes

section Scripts

variable (context : Context) (sigversion : SigVersion)

@[fun_prop]
theorem relaxes_step (opcode : UInt8) (vchPushValue : Valtype) (pc : CScript) (frame : Frame) :
    Relaxes fun flags => step context flags sigversion opcode vchPushValue pc frame := by
  unfold step dispatch
  fun_prop

@[fun_prop]
theorem relaxes_evalLoop (script : List Instruction) (frame : Frame) :
    Relaxes fun flags => evalLoop context flags sigversion script frame := by
  induction script generalizing frame with
  | nil => exact .const _
  | cons instruction later ih =>
    cases instruction with
    | unreadable => exact .const _
    | op opcode vchPushValue pc =>
      unfold evalLoop
      fun_prop

@[fun_prop]
theorem relaxes_evalScript (script : CScript) (stack : List Valtype)
    (execdata : ScriptExecutionData) :
    Relaxes fun flags => evalScript context flags sigversion script stack execdata := by
  unfold evalScript
  fun_prop

@[fun_prop]
theorem relaxes_executeWitnessScript (stack : List Valtype) (exec_script : CScript)
    (execdata : ScriptExecutionData) : Relaxes fun flags =>
      executeWitnessScript context flags sigversion stack exec_script execdata := by
  unfold executeWitnessScript runWitnessScript
  fun_prop

@[fun_prop]
theorem relaxes_verifyWitnessV0 (stack : List Valtype) (program : Valtype) :
    Relaxes fun flags => verifyWitnessV0 context flags stack program := by
  unfold verifyWitnessV0
  cases stack <;> fun_prop

@[fun_prop]
theorem relaxes_verifyTaproot (weight : Nat) (program : Valtype) (stack : List Valtype) :
    Relaxes fun flags => verifyTaproot context flags weight program stack := by
  unfold verifyTaproot verifyScriptPath
  obtain ⟨_ | ⟨control, _ | ⟨script, below⟩⟩, execdata⟩ := dropAnnex context stack <;> fun_prop

private theorem relaxes_verifyWitnessProgram (witness : List Valtype) (witversion : Nat)
    (program : Valtype) (is_p2sh : Bool) : Relaxes fun flags =>
      verifyWitnessProgram context flags witness witversion program is_p2sh := by
  unfold verifyWitnessProgram
  fun_prop

end Scripts

/-- The flag sets the source asserts: the stack can be clean only after all scripts were
run, and a witness is looked for behind every script hash. -/
structure VerifyFlags.Consistent (flags : VerifyFlags) : Prop where
  witness_p2sh : flags.has .witness = true → flags.has .p2sh = true
  cleanstack_p2sh : flags.has .cleanstack = true → flags.has .p2sh = true
  cleanstack_witness : flags.has .cleanstack = true → flags.has .witness = true

section Verification

variable {lax strict : VerifyFlags}

theorem laxer_finalChecks (fewer : lax ≤ strict) (consistent : lax.Consistent)
    (witness : List Valtype) (progress : Progress) :
    Laxer (finalChecks strict witness progress) (finalChecks lax witness progress) := by
  apply Laxer.bind
  · intro value passes
    cases cleanstack : lax.has .cleanstack with
    | false => rfl
    | true =>
      rw [fewer _ cleanstack] at passes
      obtain ⟨_, _, passes⟩ := Program.exists_of_bind_ok passes
      obtain ⟨_, _, passes⟩ := Program.exists_of_bind_ok passes
      simp only [assert, ensure_true (consistent.cleanstack_p2sh cleanstack),
        ensure_true (consistent.cleanstack_witness cleanstack)]
      exact passes
  · intro _ value passes
    cases enabled : lax.has .witness with
    | false => rfl
    | true =>
      rw [fewer _ enabled] at passes
      obtain ⟨_, _, passes⟩ := Program.exists_of_bind_ok passes
      simp only [whenEnabled, assert, ensure_true (consistent.witness_p2sh enabled)]
      exact passes

variable (context : Context) (witness : List Valtype)

private theorem laxer_verifyWitness (fewer : lax ≤ strict) (enabled : lax.has .witness = true)
    (script : CScript) (unmalleated is_p2sh : Bool) (malleated : ScriptError)
    (progress : Progress) :
    Laxer (verifyWitness context strict witness script unmalleated is_p2sh malleated progress)
      (verifyWitness context lax witness script unmalleated is_p2sh malleated progress) := by
  unfold verifyWitness
  rw [enabled, fewer _ enabled]
  cases witnessProgram script with
  | none => exact .refl _
  | some found =>
    exact (Laxer.refl _).bind fun _ =>
      (relaxes_verifyWitnessProgram context witness _ _ is_p2sh lax strict fewer).bind fun _ =>
        Laxer.refl _

private theorem verifyWitness_disabled (disabled : lax.has .witness = false) (script : CScript)
    (unmalleated is_p2sh : Bool) (malleated : ScriptError) (progress : Progress) :
    verifyWitness context lax witness script unmalleated is_p2sh malleated progress =
      .ok progress := by
  rw [verifyWitness, disabled]
  rfl

theorem laxer_verifyScriptHash (fewer : lax ≤ strict) (consistent : lax.Consistent)
    (enabled : lax.has .witness = true) (scriptSig scriptPubKey : CScript)
    (stackCopy : List Valtype) (progress : Progress) :
    Laxer (verifyScriptHash context strict witness scriptSig scriptPubKey stackCopy progress)
      (verifyScriptHash context lax witness scriptSig scriptPubKey stackCopy progress) := by
  have p2sh := consistent.witness_p2sh enabled
  unfold verifyScriptHash
  rw [p2sh, fewer _ p2sh]
  split
  · exact (Laxer.refl _).bind fun _ => (Laxer.refl _).bind fun _ =>
      (relaxes_evalScript context .base _ _ _ lax strict fewer).bind fun _ =>
        (Laxer.refl _).bind fun _ => laxer_verifyWitness context witness fewer enabled _ _ _ _ _
  · exact .refl _

theorem verifyScriptHash_disabled (fewer : lax ≤ strict) (disabled : lax.has .witness = false)
    (scriptSig scriptPubKey : CScript) (stackCopy : List Valtype) (first second : Progress)
    {progress : Progress}
    (verifies : verifyScriptHash context strict witness scriptSig scriptPubKey stackCopy first =
      .ok progress) :
    ∃ after, verifyScriptHash context lax witness scriptSig scriptPubKey stackCopy second =
      .ok after := by
  unfold verifyScriptHash at verifies ⊢
  cases p2sh : lax.has .p2sh with
  | false => exact ⟨second, rfl⟩
  | true => ?_
  rw [fewer _ p2sh] at verifies
  cases hash : scriptPubKey.isPayToScriptHash with
  | false => exact ⟨second, rfl⟩
  | true => ?_
  rw [hash] at verifies
  unfold verifyRedeemScript at verifies ⊢
  obtain ⟨_, pushOnly, verifies⟩ := Program.exists_of_bind_ok verifies
  obtain ⟨_, nonempty, verifies⟩ := Program.exists_of_bind_ok verifies
  obtain ⟨stack, evaluates, verifies⟩ := Program.exists_of_bind_ok verifies
  obtain ⟨_, leavesTrue, _⟩ := Program.exists_of_bind_ok verifies
  have evaluatesLax := relaxes_evalScript context .base _ _ _ lax strict fewer _ evaluates
  refine ⟨{ second with stack := stack }, ?_⟩
  simp only [pushOnly, nonempty, evaluatesLax, verifyWitness_disabled context witness disabled]
  change (requireTrue stack >>= fun _ => _) = _
  rw [leavesTrue]
  rfl

theorem laxer_verifyPrograms (fewer : lax ≤ strict) (consistent : lax.Consistent)
    (scriptSig scriptPubKey : CScript) (stackCopy stack : List Valtype) :
    Laxer (verifyPrograms context strict witness scriptSig scriptPubKey stackCopy stack)
      (verifyPrograms context lax witness scriptSig scriptPubKey stackCopy stack) := by
  unfold verifyPrograms
  cases enabled : lax.has .witness with
  | true =>
    exact (laxer_verifyWitness context witness fewer enabled _ _ _ _ _).bind fun progress =>
      (laxer_verifyScriptHash context witness fewer consistent enabled _ _ _ progress).bind
        fun progress => laxer_finalChecks fewer consistent witness progress
  | false => ?_
  intro value verifies
  obtain ⟨bare, _, verifies⟩ := Program.exists_of_bind_ok verifies
  obtain ⟨_, redeemed, _⟩ := Program.exists_of_bind_ok verifies
  obtain ⟨after, redeems⟩ := verifyScriptHash_disabled context witness fewer enabled _ _ _ bare
    { stack := stack, hadWitness := false } redeemed
  -- no witness rule, hence no clean-stack rule: nothing is left to check
  have noCleanstack : lax.has .cleanstack = false := by
    cases cleanstack : lax.has .cleanstack with
    | false => rfl
    | true =>
      rw [consistent.cleanstack_witness cleanstack] at enabled
      cases enabled
  rw [verifyWitness_disabled context witness enabled]
  change verifyScriptHash context lax witness _ _ _ _ >>= _ = _
  rw [redeems]
  change finalChecks lax witness after = _
  rw [finalChecks, noCleanstack, enabled]
  rfl

end Verification

/-- Verification that succeeds under some flags succeeds under fewer of them. Nothing is
asked of the larger set, since its own assertions have passed. -/
theorem verifyScript_of_fewer_flags (context : Context) (scriptSig scriptPubKey : CScript)
    (witness : Option (List Valtype)) (lax strict : VerifyFlags) (fewer : lax ≤ strict)
    (consistent : lax.Consistent)
    (verifies : verifyScript context strict scriptSig scriptPubKey witness = .ok ()) :
    verifyScript context lax scriptSig scriptPubKey witness = .ok () := by
  have laxer : Laxer (verifyScript context strict scriptSig scriptPubKey witness)
      (verifyScript context lax scriptSig scriptPubKey witness) := by
    apply Laxer.bind (relaxes_flag .sigpushonly (.const _) lax strict fewer)
    intro _
    apply Laxer.bind (relaxes_evalScript context .base _ _ _ lax strict fewer)
    intro stackCopy
    apply Laxer.bind (relaxes_evalScript context .base _ _ _ lax strict fewer)
    intro stack
    apply Laxer.bind (Laxer.refl _)
    intro _
    exact laxer_verifyPrograms context _ fewer consistent _ _ _ _
  exact laxer () verifies

def onesContext : Context where
  crypto :=
    { ripemd160 := fun _ => List.replicate 20 1
      sha1 := fun _ => List.replicate 20 1
      sha256 := fun _ => List.replicate 32 1
      hash256 := fun _ => List.replicate 32 2
      checkLowS := fun _ => false
      xonlyPubkeyParse := fun _ => false
      xonlyPubkeyTweakAddCheck := fun _ _ _ _ => false }
  checker :=
    { checkECDSASignature := fun _ _ _ _ => false
      checkSchnorrSignature := fun _ _ _ _ => fail .schnorrSig
      checkLockTime := fun _ => false
      checkSequence := fun _ => false }

/-- A script hash of a witness script, spent with the witness rules and without them. -/
theorem verifyScript_without_witness_flag : verifyScript onesContext (VerifyFlags.ofList [.p2sh])
      ([34, 0, 32] ++ List.replicate 32 1) ([0xa9, 20] ++ List.replicate 20 1 ++ [0x87])
      (some [[0x51]]) = .ok () :=
  verifyScript_of_fewer_flags onesContext _ _ _ _
    (VerifyFlags.ofList [.p2sh, .witness, .cleanstack, .sigpushonly, .minimaldata])
    (by
      intro flag enabled
      cases flag <;> first | rfl | cases enabled)
    { witness_p2sh := fun _ => rfl
      cleanstack_p2sh := fun _ => rfl
      cleanstack_witness := nofun }
    (by decide +kernel)

end Adonai.Script
