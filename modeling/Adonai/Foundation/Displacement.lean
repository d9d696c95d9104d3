/-
Tables in which an element that is put in may displace another one, which is then put in itself.

Every element has slots of its own. A chain of displacements ends with one element left over.
-/

import Mathlib.Logic.Function.Basic

namespace Adonai.Displacement

variable {Slot Element : Type*} [DecidableEq Slot] (own : Element → Slot → Prop)

/-- A table and an element in hand from which the chain ends with `after` and `left`. -/
inductive Chain (after : Slot → Element) (left : Element) : (Slot → Element) → Element → Prop
  | stop : Chain after left after left
  | swap {table : Slot → Element} {hand : Element} {slot : Slot} (fits : own hand slot)
      (later : Chain after left (Function.update table slot hand) (table slot)) :
      Chain after left table hand

def Held (table : Slot → Element) (x : Element) : Prop := ∃ slot, own x slot ∧ table slot = x

/-- Every element but the blank one is in one slot only, one of its own. -/
def Proper (blank : Element) (table : Slot → Element) : Prop :=
  ∀ slot, table slot ≠ blank →
    own (table slot) slot ∧ ∀ other, table other = table slot → other = slot

variable {own} {table after : Slot → Element} {hand left : Element}
  (chain : Chain own after left table hand)

include chain

theorem Chain.held {x : Element} (before : x = hand ∨ Held own table x) :
    x = left ∨ Held own after x := by
  induction chain with
  | stop => exact before
  | swap fits _ ih =>
    apply ih
    grind [Held, Function.update_apply]

theorem Chain.from_before (slot : Slot) :
    after slot = hand ∨ ∃ place, table place = after slot := by
  induction chain with
  | stop => exact .inr ⟨slot, rfl⟩
  | swap _ _ ih => grind [Function.update_apply]

theorem Chain.proper {blank : Element} (proper : Proper own blank table)
    (absent : hand ≠ blank → ∀ slot, table slot ≠ hand) : Proper own blank after := by
  induction chain with
  | stop => exact proper
  | swap fits _ ih =>
    -- the displaced element was in no other slot, so that it is in none now
    apply ih
    · intro slot solid
      grind [Proper, Function.update_apply]
    · intro solid slot same
      grind [Proper, Function.update_apply]

end Adonai.Displacement
