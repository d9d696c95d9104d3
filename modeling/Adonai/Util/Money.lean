/-
Amounts read from text: `ParseMoney` for the command line, `ParseFixedPoint` for calls.

A string is a list of characters. Positions and counts are `int` in the source and unbounded here,
so the functions are those of the source on strings shorter than `2 ^ 31`.
-/

import Adonai.Consensus.Params

namespace Adonai.Util

def isDigit (c : Char) : Bool := decide ('0' ≤ c) && decide (c ≤ '9')

def isSpace (c : Char) : Bool :=
  c == ' ' || c == '\x0c' || c == '\n' || c == '\r' || c == '\t' || c == '\x0b'

def digitValue (c : Char) : Nat := c.toNat - '0'.toNat

def containsNoNUL (str : List Char) : Bool := str.all fun c => c != '\x00'

def trimString (str : List Char) : List Char :=
  ((str.dropWhile isSpace).reverse.dropWhile isSpace).reverse

def decimalValue (digits : List Char) : Nat :=
  digits.foldl (fun value c => value * 10 + digitValue c) 0

/-- `std::from_chars` on an optional sign and digits, with what `LocaleIndependentAtoi` makes
of its errors: nothing read is 0, and a value out of range is clamped. -/
def fromCharsOrClamp (str : List Char) : Int :=
  let negative := str.head? == some '-'
  let digits := (if negative then str.tail else str).takeWhile isDigit
  let value : Int := if negative then -decimalValue digits else decimalValue digits
  max (-2 ^ 63) (min (2 ^ 63 - 1) value)

def localeIndependentAtoi (str : List Char) : Int :=
  match trimString str with
  | '+' :: '-' :: _ => 0
  | '+' :: rest => fromCharsOrClamp rest
  | s => fromCharsOrClamp s

def parseUnits : (nMult : Int) → (nUnits : Int) → List Char → Int × List Char
  | _, nUnits, [] => (nUnits, [])
  | nMult, nUnits, c :: rest =>
    if isDigit c ∧ nMult > 0 then parseUnits (nMult.tdiv 10) (nUnits + nMult * digitValue c) rest
    else (nUnits, c :: rest)

def parseWhole (strWhole : List Char) : List Char → Option (List Char × Int × List Char)
  | [] => some (strWhole, 0, [])
  | c :: rest =>
    if c = '.' then
      let (nUnits, left) := parseUnits (COIN.tdiv 10) 0 rest
      some (strWhole, nUnits, left)
    else if isSpace c then none
    else if ¬isDigit c then none
    else parseWhole (strWhole ++ [c]) rest

def parseMoney (money_string : List Char) : Option Int :=
  if ¬containsNoNUL money_string then none
  else
    let str := trimString money_string
    if str.isEmpty then none
    else
      match parseWhole [] str with
      | none => none
      | some (strWhole, nUnits, left) =>
        if ¬left.isEmpty then none
        else if strWhole.length > 10 then none
        else if nUnits < 0 ∨ nUnits > COIN then none
        else
          let value := localeIndependentAtoi strWhole * COIN + nUnits
          if moneyRange value then some value else none

def UPPER_BOUND : Int := 10 ^ 18 - 1

def timesTen : (times : Nat) → Int → Option Int
  | 0, mantissa => some mantissa
  | times + 1, mantissa =>
    if mantissa > UPPER_BOUND.tdiv 10 then none else timesTen times (mantissa * 10)

/-- The mantissa without its trailing zeros, which are counted. -/
structure Mantissa where
  mantissa : Int
  mantissa_tzeros : Nat
  deriving DecidableEq, Repr

def processMantissaDigit (ch : Char) (state : Mantissa) : Option Mantissa :=
  if ch = '0' then some { state with mantissa_tzeros := state.mantissa_tzeros + 1 }
  else
    (timesTen (state.mantissa_tzeros + 1) state.mantissa).map fun mantissa =>
      { mantissa := mantissa + digitValue ch, mantissa_tzeros := 0 }

/-- Digits of the mantissa: the state after them, how many there were, what is left. -/
def mantissaDigits : List Char → Mantissa → Option (Mantissa × Nat × List Char)
  | [], state => some (state, 0, [])
  | c :: rest, state =>
    if isDigit c then do
      let state ← processMantissaDigit c state
      let (state, count, left) ← mantissaDigits rest state
      pure (state, count + 1, left)
    else some (state, 0, c :: rest)

def integerPart (val : List Char) : Option (Mantissa × List Char) :=
  match val with
  | [] => none
  | c :: rest =>
    if c = '0' then some (⟨0, 0⟩, rest)
    else if '1' ≤ c ∧ c ≤ '9' then do
      let (state, _, left) ← mantissaDigits val ⟨0, 0⟩
      pure (state, left)
    else none

def fractionPart (state : Mantissa) (val : List Char) : Option (Mantissa × Nat × List Char) :=
  match val with
  | '.' :: rest => if rest.head?.any isDigit then mantissaDigits rest state else none
  | _ => some (state, 0, val)

def exponentDigits : List Char → Int → Option (Int × List Char)
  | [], exponent => some (exponent, [])
  | c :: rest, exponent =>
    if isDigit c then
      if exponent > UPPER_BOUND.tdiv 10 then none
      else exponentDigits rest (exponent * 10 + digitValue c)
    else some (exponent, c :: rest)

def signedExponent (val : List Char) : Option (Int × List Char) :=
  let (exponent_sign, digits) :=
    match val with
    | '+' :: rest => (false, rest)
    | '-' :: rest => (true, rest)
    | _ => (false, val)
  if digits.head?.any isDigit then
    (exponentDigits digits 0).map fun (exponent, left) =>
      (if exponent_sign then -exponent else exponent, left)
  else none

def exponentPart (val : List Char) : Option (Int × List Char) :=
  match val with
  | 'e' :: rest => signedExponent rest
  | 'E' :: rest => signedExponent rest
  | _ => some (0, val)

def scaleMantissa : (times : Nat) → Int → Option Int
  | 0, mantissa => some mantissa
  | times + 1, mantissa =>
    if mantissa > UPPER_BOUND.tdiv 10 ∨ mantissa < -UPPER_BOUND.tdiv 10 then none
    else scaleMantissa times (mantissa * 10)

def parseFixedPoint (val : List Char) (decimals : Nat) : Option Int := do
  let mantissa_sign := val.head? == some '-'
  let (state, left) ← integerPart (if mantissa_sign then val.tail else val)
  let (state, point_ofs, left) ← fractionPart state left
  let (exponent, left) ← exponentPart left
  if ¬left.isEmpty then none
  else
    let exponent := exponent - point_ofs + state.mantissa_tzeros + decimals
    let mantissa := if mantissa_sign then -state.mantissa else state.mantissa
    if exponent < 0 ∨ exponent ≥ 18 then none
    else do
      let mantissa ← scaleMantissa exponent.toNat mantissa
      if mantissa > UPPER_BOUND ∨ mantissa < -UPPER_BOUND then none else some mantissa

theorem moneyRange_of_parseMoney {text : List Char} {value : Int}
    (parses : parseMoney text = some value) : moneyRange value = true := by
  unfold parseMoney at parses
  dsimp only at parses
  -- only the branch that has checked the range returns a value
  repeat' split at parses
  all_goals cases parses
  assumption

example : parseMoney " 1.5 ".toList = some 150000000 := by decide +kernel

example : parseFixedPoint "0.01".toList 8 = some 1000000 := by decide +kernel

end Adonai.Util
