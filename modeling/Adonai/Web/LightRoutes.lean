/-
The light wallet routes of the web server, and the node's import of descriptors.

An import creates or loads a watch-only node wallet that is named after eight characters of the
key, and hands it two descriptors of the key. A request for transactions names such a wallet.
The node refuses a descriptor without a checksum, and the route sends none, so that these wallets
stay without scripts: keys that share a wallet do not share a history.
-/

import Adonai.Foundation.Run
import Adonai.Util.Bech32

namespace Adonai.LightRoutes

/-! ### Descriptor checksums -/

def polyMod (c val : Nat) : Nat :=
  let c0 := c >>> 35
  let c := ((c &&& 0x7ffffffff) <<< 5) ^^^ val
  let c := if c0 &&& 1 ≠ 0 then c ^^^ 0xf5dee51989 else c
  let c := if c0 &&& 2 ≠ 0 then c ^^^ 0xa9fdca3312 else c
  let c := if c0 &&& 4 ≠ 0 then c ^^^ 0x1bab10e32d else c
  let c := if c0 &&& 8 ≠ 0 then c ^^^ 0x3706b1677a else c
  if c0 &&& 16 ≠ 0 then c ^^^ 0x644d626ffd else c

def INPUT_CHARSET : List Char :=
  ("0123456789()[],'/*abcdefgh@:$%\x7b\x7d" ++ "IJKLMNOPQRSTUVWXYZ&+-.;<=>?!^_|~" ++
    "ijklmnopqrstuvwxyzABCDEFGH`#\"\\ ").toList

/-- The variables of the loop: the remainder, the group numbers and how many they are. -/
structure Symbols where
  c : Nat
  cls : Nat
  clscount : Nat

def emit (symbols : Symbols) (ch : Char) : Option Symbols :=
  (INPUT_CHARSET.idxOf? ch).map fun pos =>
    let c := polyMod symbols.c (pos &&& 31)
    let cls := symbols.cls * 3 + (pos >>> 5)
    if symbols.clscount + 1 = 3 then ⟨polyMod c cls, 0, 0⟩ else ⟨c, cls, symbols.clscount + 1⟩

/-- No checksum, in place of an empty one, if a character is not in the set. -/
def descriptorChecksum (span : List Char) : Option (List Char) :=
  (span.foldlM emit ⟨1, 0, 0⟩).map fun symbols =>
    let c := if symbols.clscount > 0 then polyMod symbols.c symbols.cls else symbols.c
    let c := (List.range 8).foldl (fun c _ => polyMod c 0) c ^^^ 1
    -- the set of bech32
    (List.range 8).map fun j => Bech32.CHARSET.getD ((c >>> (5 * (7 - j))) &&& 31) '\x00'

/-- The descriptor without its checksum, or the error. -/
def checkChecksum (sp : List Char) (require_checksum : Bool) : Except String (List Char) :=
  match sp.splitOn '#' with
  | [payload] =>
    if require_checksum then .error "Missing checksum"
    else if descriptorChecksum payload = none then .error "Invalid characters in payload"
    else .ok payload
  | [payload, given] =>
    if given.length ≠ 8 then
      .error s!"Expected 8 character checksum, not {given.length} characters"
    else
      match descriptorChecksum payload with
      | none => .error "Invalid characters in payload"
      | some checksum =>
        if checksum ≠ given then
          .error ("Provided checksum '" ++ String.ofList given ++
            "' does not match computed checksum '" ++ String.ofList checksum ++ "'")
        else .ok payload
  | _ => .error "Multiple '#' symbols"

private theorem descriptorChecksum_letters {span checksum : List Char}
    (computes : descriptorChecksum span = some checksum) :
    checksum.length = 8 ∧ ∀ c ∈ checksum, c ≠ '#' ∧ c ≠ ')' := by
  obtain ⟨symbols, _, rfl⟩ := Option.map_eq_some_iff.mp computes
  refine ⟨by simp, fun c member => ?_⟩
  obtain ⟨j, _, rfl⟩ := List.mem_map.mp member
  have letters : (Bech32.CHARSET.all fun c => c ≠ '#' ∧ c ≠ ')') = true := by decide
  rw [List.getD_eq_getElem _ _ (Nat.and_lt_two_pow _ (by decide : 31 < 2 ^ 5))]
  exact of_decide_eq_true (List.all_eq_true.mp letters _ (List.getElem_mem _))

theorem checkChecksum_marked {span checksum : List Char} (unmarked : '#' ∉ span)
    (computes : descriptorChecksum span = some checksum) :
    checkChecksum (span ++ '#' :: checksum) true = .ok span := by
  obtain ⟨full, letters⟩ := descriptorChecksum_letters computes
  have split : (span ++ '#' :: checksum).splitOn '#' = [span, checksum] := by
    have unsplit : ∀ part ∈ [span, checksum], '#' ∉ part := by
      simpa using ⟨unmarked, fun member => (letters '#' member).1 rfl⟩
    simpa [List.intercalate] using List.splitOn_intercalate '#' unsplit (List.cons_ne_nil _ _)
  simp [checkChecksum, split, full, computes]

example : descriptorChecksum "raw(deadbeef)".toList = some "89f8spxm".toList := by decide +kernel

/-- What ends in a bracket is refused: behind a mark, the bracket is in no checksum. -/
theorem checkChecksum_bracket (text : List Char) :
    ∃ error, checkChecksum (text ++ [')']) true = .error error := by
  have joined := @List.intercalate_splitOn _ (text ++ [')']) _ _ '#'
  unfold checkChecksum
  split
  · exact ⟨_, rfl⟩
  next payload given isSplit =>
    split
    · exact ⟨_, rfl⟩
    next full =>
      split
      · exact ⟨_, rfl⟩
      next checksum computes =>
        split
        · exact ⟨_, rfl⟩
        next same =>
          obtain rfl := not_not.mp same
          obtain ⟨full, letters⟩ := descriptorChecksum_letters computes
          rw [isSplit] at joined
          rcases List.eq_nil_or_concat checksum with rfl | ⟨before, last, rfl⟩
          · cases full
          · have isLast : last = ')' := by
              simpa [List.intercalate, List.getLast?_cons] using congrArg List.getLast? joined
            exact absurd isLast (letters last (by simp)).2
  · exact ⟨_, rfl⟩

/-! ### The routes -/

variable {Script : Type}

structure Transfer (Script : Type) where
  spends : List Script
  pays : List Script
deriving DecidableEq

def Transfer.scripts (tx : Transfer Script) : List Script := tx.spends ++ tx.pays

/-- A request for transactions meets the chain of its time, oldest transaction first. -/
inductive Request (Script : Type) where
  | importKey (xpub : List Char)
  | transactions (walletId : List Char) (count skip : Nat) (chain : List (Transfer Script))

abbrev Wallets (Script : Type) := List Char → Option (List Script)

/-- "light_" and "xpub.slice(4, 12)". -/
def walletIdOf (xpub : List Char) : List Char := "light_".toList ++ (xpub.drop 4).take 8

/-- The receive or the change descriptor. -/
def descriptorOf (xpub : List Char) (internal : Bool) : List Char :=
  "wpkh(".toList ++ xpub ++ (if internal then "/1/*)" else "/0/*)").toList

-- `ParseScript` and `Expand`: the scripts of a descriptor without its checksum, or the error
variable (parseScript : List Char → Except String (Nat → Script))

/-- The scripts of the indexes up to the last, which are added to the wallet. -/
def processDescriptorImport (desc : List Char) (last : Nat) : Except String (List Script) := do
  let sp ← checkChecksum desc true
  let child ← parseScript sp
  pure ((List.range (last + 1)).map child)

/-- What fails is reported, and adds nothing. -/
def importDescriptors (requests : List (List Char × Nat)) : List Script :=
  requests.flatMap fun (desc, last) =>
    match processDescriptorImport parseScript desc last with
    | .ok scripts => scripts
    | .error _ => []

/-- The wallet id and whether the wallet is new, and the wallets after it. -/
def importKey (xpub : List Char) (wallets : Wallets Script) :
    Option (List Char × Bool) × Wallets Script :=
  if xpub.length < 20 then (none, wallets)
  else
    let walletId := walletIdOf xpub
    let watched := (wallets walletId).getD [] ++ importDescriptors parseScript
      [(descriptorOf xpub false, 200), (descriptorOf xpub true, 50)]
    (some (walletId, (wallets walletId).isNone), Function.update wallets walletId (some watched))

def serve (wallets : Wallets Script) : Request Script → Wallets Script
  | .importKey xpub => (importKey parseScript xpub wallets).2
  | .transactions .. => wallets

section

variable [DecidableEq Script]

def listTransactions (watched : List Script) (count skip : Nat) (chain : List (Transfer Script)) :
    List (Transfer Script) :=
  (((chain.filter fun tx => tx.scripts.any (· ∈ watched)).reverse.drop skip).take count).reverse

def transactions (walletId : List Char) (count skip : Nat) (chain : List (Transfer Script))
    (wallets : Wallets Script) : Option (List (Transfer Script)) :=
  (wallets walletId).map fun watched => (listTransactions watched count skip chain).reverse

end

private theorem importDescriptors_refused (xpub : List Char) (receive change : Nat) :
    importDescriptors parseScript
      [(descriptorOf xpub false, receive), (descriptorOf xpub true, change)] = [] := by
  have refused : ∀ internal last, ∃ error,
      processDescriptorImport parseScript (descriptorOf xpub internal) last = .error error := by
    intro internal last
    obtain ⟨error, refuses⟩ := checkChecksum_bracket
      ("wpkh(".toList ++ xpub ++ (if internal then "/1/*" else "/0/*").toList)
    refine ⟨error, ?_⟩
    have ends : descriptorOf xpub internal =
        "wpkh(".toList ++ xpub ++ (if internal then "/1/*" else "/0/*").toList ++ [')'] := by
      cases internal <;> simp [descriptorOf]
    rw [processDescriptorImport, ends, refuses]
    rfl
  obtain ⟨_, first⟩ := refused false receive
  obtain ⟨_, second⟩ := refused true change
  simp [importDescriptors, first, second]

private theorem serve_watches_nothing {wallets : Wallets Script} (request : Request Script)
    (nothing : ∀ walletId, (wallets walletId).getD [] = []) (walletId : List Char) :
    (serve parseScript wallets request walletId).getD [] = [] := by
  cases request with
  | transactions => exact nothing walletId
  | importKey xpub =>
    rw [serve, importKey]
    split
    · exact nothing walletId
    · dsimp only
      rw [importDescriptors_refused, nothing]
      by_cases same : walletId = walletIdOf xpub
      · simp [same]
      · simpa [Function.update_of_ne same] using nothing walletId

/-- After any imports and requests, each transaction that is listed under the wallet id of a key
touches a script of its own descriptors. -/
theorem transactions_confined [DecidableEq Script] (requests : List (Request Script))
    (xpub : List Char) {count skip : Nat} {chain returned : List (Transfer Script)}
    (replies : transactions (walletIdOf xpub) count skip chain
      (Run.run (serve parseScript) (fun _ => none) requests) = some returned) :
    ∀ tx ∈ returned, ∃ internal child index,
      parseScript (descriptorOf xpub internal) = .ok child ∧ child index ∈ tx.scripts := by
  have nothing := @Run.invariant _ _ (fun _ _ => True) (serve parseScript)
    (fun wallets => ∀ walletId, (wallets walletId).getD [] = [])
    (fun _ request before _ => serve_watches_nothing parseScript request before)
    (fun _ => none) requests (fun _ => rfl) (Run.along_of_all (fun _ _ => trivial) _ _)
  intro tx listed
  obtain ⟨watched, found, rfl⟩ := Option.map_eq_some_iff.mp replies
  obtain rfl : watched = [] := by simpa [found] using nothing (walletIdOf xpub)
  rw [listTransactions, List.reverse_reverse] at listed
  have touches := List.mem_reverse.mp (List.mem_of_mem_drop (List.mem_of_mem_take listed))
  simp at touches

theorem transactions_confined_shared :
    let first := "xpub661MyMwAqRbcFtXg".toList
    let second := "xpub661MyMwAqRbcGczj".toList
    let parseScript : List Char → Except String (Nat → List Char × Nat) :=
      fun sp => .ok fun index => (sp, index)
    let payment : Transfer (List Char × Nat) := ⟨[], [(descriptorOf second false, 0)]⟩
    walletIdOf first = walletIdOf second ∧
      transactions (walletIdOf first) 10 0 [payment] (Run.run (serve parseScript) (fun _ => none)
        [.importKey first, .importKey second]) = some [] ∧
      ∀ tx ∈ ([] : List (Transfer (List Char × Nat))), ∃ internal child index,
        parseScript (descriptorOf first internal) = .ok child ∧ child index ∈ tx.scripts := by
  intro first second parseScript payment
  have replies : transactions (walletIdOf first) 10 0 [payment] (Run.run (serve parseScript)
      (fun _ => none) [.importKey first, .importKey second]) = some [] := by decide +kernel
  exact ⟨by decide, replies, transactions_confined parseScript _ first replies⟩

end Adonai.LightRoutes
