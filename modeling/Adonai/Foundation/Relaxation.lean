/-
Computations under a set of rules that may only refuse.

A computation `Relaxes` when whatever it returns under more rules it returns under fewer. The
rules below carry this along a program, so that it is checked only where a rule is read.
-/

import Adonai.Foundation.Program
import Mathlib.Tactic.FunProp

namespace Adonai

variable {Rules Halt α β : Type}

/-- Every result of the strict computation is the result of the lax one. -/
def Laxer (strict lax : Except Halt α) : Prop := ∀ value, strict = .ok value → lax = .ok value

@[fun_prop]
def Relaxes [LE Rules] (run : Rules → Except Halt α) : Prop :=
  ∀ lax strict, lax ≤ strict → Laxer (run strict) (run lax)

def ensure (condition : Bool) (halt : Halt) : Except Halt Unit :=
  if condition then .ok () else .error halt

def whenEnabled (enabled : Bool) (check : Except Halt Unit) : Except Halt Unit :=
  if enabled then check else .ok ()

theorem ensure_true {condition : Bool} (holds : condition = true) (halt : Halt) :
    ensure condition halt = .ok () := by
  rw [holds]
  rfl

namespace Laxer

theorem refl (outcome : Except Halt α) : Laxer outcome outcome := fun _ returns => returns

theorem bind {strict lax : Except Halt α} {strictNext laxNext : α → Except Halt β}
    (first : Laxer strict lax) (next : ∀ value, Laxer (strictNext value) (laxNext value)) :
    Laxer (strict >>= strictNext) (lax >>= laxNext) := by
  intro value returns
  obtain ⟨between, begins, ends⟩ := Program.exists_of_bind_ok returns
  rw [first between begins]
  exact next between value ends

theorem whenEnabled {strict lax : Bool} {strictCheck laxCheck : Except Halt Unit}
    (fewer : lax = true → strict = true) (check : Laxer strictCheck laxCheck) :
    Laxer (whenEnabled strict strictCheck) (whenEnabled lax laxCheck) := by
  intro value returns
  cases lax with
  | false => rfl
  | true =>
    rw [fewer rfl] at returns
    exact check value returns

end Laxer

namespace Relaxes

variable [LE Rules]

@[fun_prop]
theorem const (outcome : Except Halt α) : Relaxes fun _ : Rules => outcome :=
  fun _ _ _ => Laxer.refl outcome

variable {next : Rules → α → Except Halt β} {first : Rules → Except Halt α}

@[fun_prop]
theorem bind (begins : Relaxes first) (goesOn : ∀ value, Relaxes fun rules => next rules value) :
    Relaxes fun rules => first rules >>= next rules :=
  fun lax strict fewer =>
    (begins lax strict fewer).bind fun value => goesOn value lax strict fewer

@[fun_prop]
theorem ite {condition : Prop} [Decidable condition] {first second : Rules → Except Halt α}
    (yes : condition → Relaxes first) (no : ¬condition → Relaxes second) :
    Relaxes fun rules => if condition then first rules else second rules := by
  by_cases holds : condition
  · simp only [if_pos holds]
    exact yes holds
  · simp only [if_neg holds]
    exact no holds

theorem whenEnabled {inForce : Rules → Bool} {check : Rules → Except Halt Unit}
    (fewer : ∀ lax strict, lax ≤ strict → inForce lax = true → inForce strict = true)
    (checks : Relaxes check) :
    Relaxes fun rules => Adonai.whenEnabled (inForce rules) (check rules) :=
  fun lax strict subset => Laxer.whenEnabled (fewer lax strict subset) (checks lax strict subset)

@[fun_prop]
theorem foldlM {body : Rules → β → α → Except Halt β}
    (each : ∀ acc item, Relaxes fun rules => body rules acc item) (items : List α) (acc : β) :
    Relaxes fun rules => items.foldlM (body rules) acc := by
  induction items generalizing acc with
  | nil => exact const _
  | cons item items ih =>
    exact (each acc item).bind fun next => ih next

end Relaxes

end Adonai
