/-
The stacks of `EvalScript`.

Every opcode makes sure of its arguments before it reads them, so that no read goes below the
bottom of a stack, and whatever it pushes is small.
-/

import Adonai.Foundation.Worklist
import Adonai.Script.SoftFork

namespace Adonai.Script

open CScript

def Small (items : List Valtype) : Prop := ∀ item ∈ items, item.length ≤ MAX_SCRIPT_ELEMENT_SIZE

def Frame.Small (frame : Frame) : Prop := Script.Small frame.stack ∧ Script.Small frame.altstack

def Frame.Fits (frame : Frame) : Prop :=
  frame.Small ∧ frame.stack.length + frame.altstack.length ≤ MAX_STACK_SIZE

structure Crypto.Sized (crypto : Crypto) : Prop where
  ripemd160 : ∀ vch, (crypto.ripemd160 vch).length = 20
  sha1 : ∀ vch, (crypto.sha1 vch).length = 20
  sha256 : ∀ vch, (crypto.sha256 vch).length = 32
  hash256 : ∀ vch, (crypto.hash256 vch).length = 32

def Opcode.checksSignature : Opcode → Bool
  | .checkSig _ | .checkSigAdd => true
  | _ => false

/-- An opcode halts with an error of the script. Only one that checks a signature may also end in
an assertion of `EvalChecksig` or in what the checker itself halts with. -/
inductive Opcode.Halts (context : Context) (sigversion : SigVersion) (op : Opcode) :
    ScriptHalt → Prop
  | error (code : ScriptError) : op.Halts context sigversion (.error code)
  | assertion (checks : op.checksSignature = true) : op.Halts context sigversion .assertion
  | checker {sig pubkey : Valtype} {execdata : ScriptExecutionData} {halt : ScriptHalt}
      (checks : op.checksSignature = true)
      (ends : context.checker.checkSchnorrSignature sig pubkey sigversion execdata = .error halt) :
      op.Halts context sigversion halt

variable {context : Context} {flags : VerifyFlags} {sigversion : SigVersion} {frame : Frame}
  {op : Opcode}

section Outcomes

variable {α β : Type} {expected : ScriptHalt → Prop} {post : α → Prop}

@[simp]
theorem yields_ok (value : α) : Yields (.ok value) expected post ↔ post value := Iff.rfl

@[simp]
theorem yields_pure (value : α) : Yields (pure value) expected post ↔ post value := Iff.rfl

@[simp]
theorem yields_bind {outcome : Outcome β} {next : β → Outcome α} :
    Yields (outcome >>= next) expected post ↔
      Yields outcome expected fun value => Yields (next value) expected post := by
  cases outcome <;> exact Iff.rfl

@[simp]
theorem yields_fail (code : ScriptError) :
    Yields (fail code) (op.Halts context sigversion) post := .error code

@[simp]
theorem yields_check {post : Unit → Prop} (condition : Bool) (code : ScriptError) :
    Yields (check condition code) (op.Halts context sigversion) post ↔
      (condition = true → post ()) := by
  cases condition with
  | false => exact ⟨fun _ => nofun, fun _ => .error code⟩
  | true => exact ⟨fun holds _ => holds, fun holds => holds rfl⟩

@[simp]
theorem yields_whenEnabled {post : Unit → Prop} (enabled : Bool) (checks : Outcome Unit) :
    Yields (whenEnabled enabled checks) expected post ↔
      (enabled = true → Yields checks expected fun _ => True) ∧
        (whenEnabled enabled checks = .ok () → post ()) := by
  cases enabled <;> cases checks <;> simp [whenEnabled, Yields]

@[simp]
theorem yields_ite {condition : Prop} [Decidable condition] {first second : Outcome α} :
    Yields (if condition then first else second) expected post ↔
      (condition → Yields first expected post) ∧ (¬condition → Yields second expected post) := by
  split <;> simp [*]

private theorem yields_stacktop {stack : List Valtype} {depth : Nat} {post : Valtype → Prop}
    (inside : depth - 1 < stack.length) (later : ∀ item ∈ stack, post item) :
    Yields (stacktop stack depth) expected post := by
  rw [stacktop, List.getElem?_eq_getElem inside]
  exact later _ (List.getElem_mem inside)

end Outcomes

@[simp]
theorem small_cons {item : Valtype} {items : List Valtype} :
    Small (item :: items) ↔ item.length ≤ MAX_SCRIPT_ELEMENT_SIZE ∧ Small items :=
  List.forall_mem_cons

@[simp]
theorem boolVch_small (value : Bool) : (boolVch value).length ≤ MAX_SCRIPT_ELEMENT_SIZE := by
  cases value <;> decide

@[simp]
theorem serialize_small (value : Int) :
    (CScriptNum.serialize value).length ≤ MAX_SCRIPT_ELEMENT_SIZE := by
  have short : (CScriptNum.absBytes 8 value.natAbs).length ≤ 8 := by
    simp only [CScriptNum.absBytes]
    split_ifs <;> simp
  rw [CScriptNum.serialize]
  cases reversed : (CScriptNum.absBytes 8 value.natAbs).reverse with
  | nil => exact Nat.zero_le _
  | cons last before =>
    have same := congrArg List.length reversed
    rw [List.length_reverse, List.length_cons] at same
    dsimp only
    split_ifs <;> simp [same, MAX_SCRIPT_ELEMENT_SIZE] <;> omega

private theorem HashOp.apply_small (sized : context.crypto.Sized) (vch : Valtype) (op : HashOp) :
    (op.apply context.crypto vch).length ≤ MAX_SCRIPT_ELEMENT_SIZE := by
  cases op <;>
    simp [HashOp.apply, sized.ripemd160, sized.sha1, sized.sha256, sized.hash256,
      MAX_SCRIPT_ELEMENT_SIZE]

private theorem StackOp.apply_small {op : StackOp} {stack : List Valtype}
    (enough : op.arity ≤ stack.length) (small : Small stack) :
    ∃ result, op.apply stack = some result ∧ Small result := by
  rcases stack with _ | ⟨_, _ | ⟨_, _ | ⟨_, _ | ⟨_, _ | ⟨_, _ | ⟨_, _⟩⟩⟩⟩⟩⟩ <;> cases op <;>
    simp_all [StackOp.apply, StackOp.arity]
  all_goals split <;> simp_all

section Opcodes

attribute [local simp] execute need scriptNum stacktop orUnderflow popstack pushResult Frame.Small

-- a program stays a chain of binds, which the rules above take apart
attribute [-simp] bind_pure_comp

@[simp]
theorem yields_checkSignatureEncoding (vchSig : Valtype) :
    Yields (checkSignatureEncoding context.crypto flags vchSig) (op.Halts context sigversion)
      fun _ => True := by
  simp [checkSignatureEncoding, isLowDERSignature]

@[simp]
theorem yields_checkPubKeyEncoding (vchPubKey : Valtype) :
    Yields (checkPubKeyEncoding flags sigversion vchPubKey) (op.Halts context sigversion)
      fun _ => True := by
  simp [checkPubKeyEncoding]

@[simp]
theorem yields_dropSignature (scriptCode : CScript) (vchSig : Valtype) :
    Yields (dropSignature flags sigversion scriptCode vchSig) (op.Halts context sigversion)
      fun _ => True := by
  simp [dropSignature]

theorem yields_matchSignatures {scriptCode : CScript} {sigs keys : List Valtype}
    (enough : sigs.length ≤ keys.length) :
    Yields (matchSignatures context flags sigversion scriptCode sigs keys)
      (op.Halts context sigversion) fun _ => True := by
  induction keys generalizing sigs with
  | nil =>
    obtain rfl := List.eq_nil_of_length_eq_zero (Nat.le_zero.mp enough)
    trivial
  | cons key keys ih =>
    cases sigs with
    | nil => trivial
    | cons sig sigs => simp +contextual [matchSignatures, ih]

theorem yields_cleanUp {fSuccess : Bool} {count : Nat} (ikey2 : Nat) {stack : List Valtype}
    (enough : count ≤ stack.length) :
    Yields (cleanUp flags fSuccess count ikey2 stack) (op.Halts context sigversion)
      (· = stack.drop count) := by
  induction count generalizing ikey2 stack with
  | zero => rfl
  | succ count ih =>
    cases stack with
    | nil => cases enough
    | cons top below =>
      have later := ih (ikey2 - 1) (Nat.le_of_succ_le_succ enough)
      simp [cleanUp, later]

theorem yields_evalChecksig (checks : op.checksSignature = true) (sig pubkey : Valtype) :
    Yields (evalChecksig context flags sigversion frame sig pubkey) (op.Halts context sigversion)
      fun _ => True := by
  cases sigversion with
  | taproot => exact .assertion checks
  | base => simp [evalChecksig, evalChecksigPreTapscript]
  | witnessV0 => simp [evalChecksig, evalChecksigPreTapscript]
  | tapscript =>
    have asserts : ∀ condition,
        Yields (assert condition) (op.Halts context .tapscript) fun _ => True := by
      rintro (_ | _)
      · exact .assertion checks
      · trivial
    have called : ∀ execdata, Yields (context.checker.checkSchnorrSignature sig pubkey .tapscript
        execdata) (op.Halts context .tapscript) fun _ => True := by
      intro execdata
      cases ends : context.checker.checkSchnorrSignature sig pubkey .tapscript execdata with
      | error halt => exact .checker checks ends
      | ok => trivial
    simp [evalChecksig, evalChecksigTapscript, chargeSignature, asserts, called]

theorem yields_evalPick (small : frame.Small) (roll : Bool) :
    Yields (evalPick flags roll frame) (op.Halts context sigversion) Frame.Small := by
  obtain ⟨_ | ⟨top, below⟩, altstack, _⟩ := frame
  · exact .error _
  obtain ⟨smallTop, smallBelow⟩ := small_cons.mp small.1
  simp only [evalPick, need, yields_bind, yields_check]
  refine fun _ => yields_stacktop (by simp) fun item _ => ?_
  simp only [scriptNum, popstack, yields_bind, yields_check, yields_whenEnabled, yields_pure,
    yields_ok, Bool.and_eq_true, decide_eq_true_eq, implies_true, true_and]
  refine fun _ _ inside => yields_stacktop (by omega) fun item member => ?_
  refine ⟨small_cons.mpr ⟨smallBelow item member, ?_⟩, small.2⟩
  cases roll with
  | true => exact fun other kept => smallBelow other (List.mem_of_mem_eraseIdx kept)
  | false => exact smallBelow

theorem yields_evalCheckMultiSig (small : frame.Small) (verify : Bool) :
    Yields (evalCheckMultiSig context flags sigversion verify frame) (op.Halts context sigversion)
      Frame.Small := by
  simp only [evalCheckMultiSig, need, scriptNum, yields_bind, yields_check, yields_whenEnabled,
    yields_pure, Bool.and_eq_true, decide_eq_true_eq, implies_true, true_and]
  refine fun _ one => yields_stacktop one fun keysItem _ _ _ _ _ keys => ?_
  refine yields_stacktop (by omega) fun sigsItem _ _ _ fewer sigs => ?_
  refine (foldlM_yields (fun _ _ => True) (fun _ _ _ _ _ => yields_dropSignature _ _)
    trivial).weaken fun scriptCode _ => ?_
  refine (yields_matchSignatures ?_).weaken fun fSuccess _ => ?_
  · simp only [List.length_take, List.length_drop]
    omega
  refine (yields_cleanUp _ (by omega)).weaken ?_
  rintro (_ | ⟨dummy, below⟩) rest extra
  · cases extra
  have smallBelow : Small below := fun item member =>
    small.1 item (List.mem_of_mem_drop (rest ▸ List.mem_cons_of_mem dummy member))
  simp [small.2, smallBelow]

theorem yields_execute (sized : context.crypto.Sized) (small : frame.Small) (fExec : Bool)
    (pc : CScript) (op : Opcode) :
    Yields (execute context flags sigversion fExec pc frame op) (op.Halts context sigversion)
      Frame.Small := by
  cases op with
  | pick roll => exact yields_evalPick small roll
  | checkMultiSig verify => exact yields_evalCheckMultiSig small verify
  | stack op =>
    simp only [execute, need, yields_bind, yields_check, decide_eq_true_eq]
    intro enough
    obtain ⟨result, applies, smallResult⟩ := StackOp.apply_small enough small.1
    rw [applies]
    exact ⟨smallResult, small.2⟩
  | elseBranch | endIf =>
    simp_all [ConditionStack.empty, ConditionStack.toggleTop, ConditionStack.popBack, assert,
      ensure]
  | checkSig verify =>
    obtain ⟨_ | ⟨_, _ | ⟨_, below⟩⟩, altstack, _⟩ := frame <;> simp [evalCheckSig]
    refine (yields_evalChecksig rfl _ _).weaken fun _ _ => ?_
    simp_all
  | checkSigAdd =>
    obtain ⟨_ | ⟨_, _ | ⟨_, _ | ⟨_, below⟩⟩⟩, altstack, _⟩ := frame <;> simp [evalCheckSigAdd]
    refine fun _ _ _ _ => (yields_evalChecksig rfl _ _).weaken fun _ _ => ?_
    simp_all
  | fromAltStack => obtain ⟨stack, _ | ⟨_, below⟩, _⟩ := frame <;> simp_all
  | within =>
    obtain ⟨_ | ⟨_, _ | ⟨_, _ | ⟨_, below⟩⟩⟩, altstack, _⟩ := frame <;> simp_all [evalWithin]
  | equal | binary | numEqualVerify =>
    obtain ⟨_ | ⟨_, _ | ⟨_, below⟩⟩, altstack, _⟩ := frame <;>
      simp_all [evalEqual, evalBinary, evalNumEqualVerify, applyBinary]
  | _ =>
    obtain ⟨_ | ⟨_, below⟩, altstack, _⟩ := frame <;>
      simp_all [evalCheckLockTimeVerify, evalCheckSequenceVerify, lockOperand, evalIf, evalUnary,
        Frame.push, HashOp.apply_small]

end Opcodes

theorem yields_step (sized : context.crypto.Sized) (small : frame.Small) (opcode : UInt8)
    (data : Valtype) (pc : CScript) :
    Yields (step context flags sigversion opcode data pc frame)
      ((Opcode.ofByte opcode).Halts context sigversion) Frame.Fits := by
  simp only [step, yields_bind, yields_check, yields_whenEnabled, yields_pure, decide_eq_true_eq,
    implies_true, true_and]
  have counted : Yields (countOp sigversion opcode frame)
      ((Opcode.ofByte opcode).Halts context sigversion) Frame.Small := by
    simp_all [countOp, Frame.Small, -bind_pure_comp]
  refine fun pushed => counted.weaken fun frame small _ _ => ?_
  suffices dispatched : Yields (dispatch context flags sigversion opcode data pc frame) _
    Frame.Small from dispatched.weaken fun _ small few => ⟨small, few⟩
  simp only [dispatch, yields_ite, yields_bind, yields_whenEnabled, yields_check, yields_pure,
    yields_ok, yields_execute sized small, implies_true, true_and]
  exact ⟨fun _ _ => ⟨small_cons.mpr ⟨pushed, small.1⟩, small.2⟩, fun _ _ => small⟩

theorem evalLoop_fits (sized : context.crypto.Sized) {done : List Instruction} {final : Frame}
    (fits : frame.Fits) (runs : evalLoop context flags sigversion done frame = .ok final) :
    final.Fits := by
  induction done generalizing frame with
  | nil => exact Except.ok.inj runs ▸ fits
  | cons instruction later ih =>
    cases instruction with
    | unreadable => cases runs
    | op opcode data pc =>
      obtain ⟨next, steps, runs⟩ := Program.exists_of_bind_ok runs
      exact ih ((yields_step sized fits.1 opcode data pc).result steps) runs

/-- However many instructions of a script have been executed, the next opcode keeps the limits or
halts, and it never reads below the bottom of a stack. -/
theorem step_stays_inside (sized : context.crypto.Sized) {script : CScript} {stack : List Valtype}
    {execdata : ScriptExecutionData} (few : stack.length ≤ MAX_STACK_SIZE) (small : Small stack)
    {executed : Nat} (runs : evalLoop context flags sigversion
      ((instructions script).take executed) (.start script stack execdata) = .ok frame)
    (opcode : UInt8) (data : Valtype) (pc : CScript) :
    frame.Fits ∧ Yields (step context flags sigversion opcode data pc frame)
      ((Opcode.ofByte opcode).Halts context sigversion) Frame.Fits := by
  have starts : (Frame.start script stack execdata).Fits := ⟨⟨small, List.forall_mem_nil _⟩, few⟩
  have fits := evalLoop_fits sized starts runs
  exact ⟨fits, yields_step sized fits.1 opcode data pc⟩

theorem endIf_stays_inside :
    Yields (step onesContext (.ofList []) .base OP_ENDIF [] []
        { Frame.start [OP_1, OP_ENDIF] [[7]] {} with stack := [[1], [7]], opcode_pos := 1 })
      (Opcode.endIf.Halts onesContext .base) Frame.Fits :=
  (@step_stays_inside onesContext _ _ _ ⟨fun _ => rfl, fun _ => rfl, fun _ => rfl, fun _ => rfl⟩
    [OP_1, OP_ENDIF] [[7]] {} (by decide) (List.forall_mem_singleton.mpr (by decide)) 1 rfl
    OP_ENDIF [] []).2

end Adonai.Script
