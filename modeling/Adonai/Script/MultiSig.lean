/-
What `OP_CHECKMULTISIG` decides.

The loop gives each signature the first key that verifies it. That is enough: in an assignment
that keeps the order, the key of the first signature may be replaced by an earlier one.
-/

import Adonai.Script.SoftFork

namespace Adonai.Script

/-- None of the rules on encodings and on failed signatures is in force. -/
structure VerifyFlags.Lenient (flags : VerifyFlags) : Prop where
  dersig : flags.has .dersig = false
  lowS : flags.has .lowS = false
  strictenc : flags.has .strictenc = false
  witnessPubkeytype : flags.has .witnessPubkeytype = false
  nullfail : flags.has .nullfail = false

/-- Keys chosen in the order of `keys`, each of them once, verify the signatures one by one. -/
def Assignable (context : Context) (sigversion : SigVersion) (scriptCode : CScript)
    (sigs keys : List Valtype) : Prop :=
  ∃ chosen, chosen.Sublist keys ∧ List.Forall₂
    (fun sig key => context.checker.checkECDSASignature sig key scriptCode sigversion = true)
    sigs chosen

/-- The opcode finds keys and signatures, each under their number, and one element more. -/
structure MultiSigCall (flags : VerifyFlags) (sigversion : SigVersion) (frame : Frame)
    (keysItem sigsItem extra : Valtype) (keys sigs below : List Valtype) (scriptCode : CScript) :
    Prop where
  stack : frame.stack = keysItem :: (keys ++ sigsItem :: (sigs ++ extra :: below))
  keysNum : scriptNum flags keysItem = .ok keys.length
  sigsNum : scriptNum flags sigsItem = .ok sigs.length
  extra_null : flags.has .nulldummy = true → extra = []
  keys_le : keys.length ≤ MAX_PUBKEYS_PER_MULTISIG
  sigs_le : sigs.length ≤ keys.length
  ops_le : frame.nOpCount + keys.length ≤ MAX_OPS_PER_SCRIPT
  version : sigversion ≠ .tapscript
  stripped : sigs.foldlM (dropSignature flags sigversion) frame.pbegincodehash = .ok scriptCode

variable {context : Context} {flags : VerifyFlags} {sigversion : SigVersion} {frame : Frame}
  {keysItem sigsItem extra : Valtype} {keys sigs below : List Valtype} {scriptCode : CScript}

private theorem matchSignatures_eq (lenient : flags.Lenient) (enough : sigs.length ≤ keys.length) :
    ∃ found, matchSignatures context flags sigversion scriptCode sigs keys = .ok found ∧
      (found = true ↔ Assignable context sigversion scriptCode sigs keys) := by
  induction keys generalizing sigs with
  | nil =>
    obtain rfl := List.eq_nil_of_length_eq_zero (Nat.le_zero.mp enough)
    exact ⟨true, rfl, fun _ => ⟨[], .slnil, .nil⟩, fun _ => rfl⟩
  | cons key keys ih =>
    cases sigs with
    | nil => exact ⟨true, rfl, fun _ => ⟨[], List.nil_sublist _, .nil⟩, fun _ => rfl⟩
    | cons sig sigs =>
      have sigChecked : checkSignatureEncoding context.crypto flags sig = .ok () := by
        simp [checkSignatureEncoding, lenient.dersig, lenient.lowS, lenient.strictenc,
          whenEnabled, Program.ok_bind]
      have keyChecked : checkPubKeyEncoding flags sigversion key = .ok () := by
        simp [checkPubKeyEncoding, lenient.strictenc, lenient.witnessPubkeytype, whenEnabled,
          Program.ok_bind]
      rw [matchSignatures, sigChecked, Program.ok_bind, keyChecked, Program.ok_bind]
      have fits : sigs.length ≤ keys.length := Nat.le_of_succ_le_succ enough
      cases verifies : context.checker.checkECDSASignature sig key scriptCode sigversion with
      | true =>
        rw [if_pos rfl, if_neg (Nat.not_lt.mpr fits)]
        obtain ⟨found, isFound, correct⟩ := ih fits
        refine ⟨found, isFound, correct.trans ⟨?_, ?_⟩⟩
        · rintro ⟨chosen, inOrder, verified⟩
          exact ⟨key :: chosen, inOrder.cons_cons key, .cons verifies verified⟩
        · rintro ⟨_, inOrder, _ | ⟨_, verified⟩⟩
          exact ⟨_, inOrder.tail, verified⟩
      | false =>
        have skips : Assignable context sigversion scriptCode (sig :: sigs) (key :: keys) ↔
            Assignable context sigversion scriptCode (sig :: sigs) keys := by
          constructor
          · rintro ⟨chosen, inOrder, verified⟩
            cases inOrder with
            | cons _ inOrder => exact ⟨chosen, inOrder, verified⟩
            | cons_cons => cases verified with
              | cons isVerified => rw [verifies] at isVerified; cases isVerified
          · rintro ⟨chosen, inOrder, verified⟩
            exact ⟨chosen, inOrder.cons key, verified⟩
        rw [if_neg Bool.false_ne_true, skips]
        split
        next tooFew =>
          refine ⟨false, rfl, fun impossible => (Bool.false_ne_true impossible).elim, ?_⟩
          rintro ⟨chosen, inOrder, verified⟩
          have sameLength := verified.length_eq
          have := inOrder.length_le
          simp only [List.length_cons] at sameLength
          omega
        next fewer => exact ih (Nat.not_lt.mp fewer)

private theorem cleanUp_eq (lenient : flags.Lenient) (fSuccess : Bool) (popped : List Valtype)
    (ikey2 : Nat) (rest : List Valtype) :
    cleanUp flags fSuccess popped.length ikey2 (popped ++ rest) = .ok rest := by
  induction popped generalizing ikey2 with
  | nil => rfl
  | cons top popped ih =>
    rw [List.length_cons, cleanUp, lenient.nullfail]
    exact ih _

theorem evalCheckMultiSig_eq (lenient : flags.Lenient) (call :
      MultiSigCall flags sigversion frame keysItem sigsItem extra keys sigs below scriptCode) :
    ∃ found, evalCheckMultiSig context flags sigversion false frame =
        .ok { frame with
          stack := boolVch found :: below
          nOpCount := frame.nOpCount + keys.length } ∧
      (found = true ↔ Assignable context sigversion scriptCode sigs keys) := by
  obtain ⟨found, isFound, correct⟩ := matchSignatures_eq lenient call.sigs_le
  refine ⟨found, ?_, correct⟩
  have getint_eq : ∀ count : Nat, count ≤ keys.length → CScriptNum.getint count = count := by
    intro count small
    have bound : keys.length ≤ 20 := call.keys_le
    rw [CScriptNum.getint]
    omega
  have cleaned := cleanUp_eq lenient found (keysItem :: (keys ++ sigsItem :: sigs))
    (keys.length + 2) (extra :: below)
  have depth : (keysItem :: (keys ++ sigsItem :: sigs)).length =
      3 + keys.length + sigs.length - 1 := by simp +arith
  rw [depth] at cleaned
  simp only [List.cons_append, List.append_assoc, ← call.stack] at cleaned
  have isItem : frame.stack[2 + keys.length - 1]? = some sigsItem := by
    rw [call.stack, show 2 + keys.length - 1 = keys.length + 1 by omega]
    simp
  have isSigs : (frame.stack.drop (2 + keys.length)).take sigs.length = sigs := by
    rw [call.stack, show 2 + keys.length = keys.length + 1 + 1 by omega]
    simp [← List.drop_drop]
  have isTop : frame.stack[1 - 1]? = some keysItem := by simp [call.stack]
  have isKeys : (frame.stack.drop 1).take keys.length = keys := by simp [call.stack]
  simp only [evalCheckMultiSig, need, stacktop, isTop, orUnderflow, Program.ok_bind, call.keysNum,
    getint_eq _ le_rfl, Int.toNat_natCast, isItem, call.sigsNum, getint_eq _ call.sigs_le, isKeys,
    isSigs, call.stripped, isFound, cleaned]
  simp +arith [check, ensure, call.stack, call.version, call.keys_le, call.ops_le, call.sigs_le,
    Program.ok_bind, popstack, pushResult]
  cases enabled : flags.has .nulldummy with
  | false => rfl
  | true => rw [call.extra_null enabled]; rfl

/-- A checker under which a signature and a key that are equal belong together. -/
def equalContext : Context :=
  { onesContext with
    checker :=
      { onesContext.checker with checkECDSASignature := fun sig key _ _ => decide (sig = key) } }

theorem evalCheckMultiSig_two_of_three :
    evalCheckMultiSig equalContext (.ofList []) .witnessV0 false
        (.start [] [[3], [7], [8], [9], [2], [7], [9], [0]] {}) =
        .ok { Frame.start [] [boolVch true] {} with nOpCount := 3 } ∧
      Assignable equalContext .witnessV0 [] [[7], [9]] [[7], [8], [9]] := by
  obtain ⟨found, runs, assigned⟩ := @evalCheckMultiSig_eq equalContext (.ofList []) .witnessV0
    (.start [] [[3], [7], [8], [9], [2], [7], [9], [0]] {}) [3] [2] [0] [[7], [8], [9]] [[7], [9]]
    [] [] ⟨rfl, rfl, rfl, rfl, rfl⟩
    ⟨rfl, rfl, rfl, by decide, by decide, by decide, by decide, by decide, rfl⟩
  have isTrue : found = true := by
    cases found with
    | true => rfl
    | false => exact absurd runs (by decide +kernel)
  subst isTrue
  exact ⟨runs, assigned.mp rfl⟩

end Adonai.Script
