/-
Functions with finite support: their totals, and how updates change them.
-/

import Mathlib.Algebra.BigOperators.Finprod

namespace Adonai.Total

variable {Key Item : Type*}

theorem finite_update [DecidableEq Key] {items : Key → Option Item}
    (finite : {key | items key ≠ none}.Finite) (key : Key) (item : Option Item) :
    {other | Function.update items key item other ≠ none}.Finite := by
  apply (finite.insert key).subset
  intro other present
  by_cases same : other = key
  · exact .inl same
  · rw [Set.mem_ofPred_eq, Function.update_of_ne same] at present
    exact .inr present

/-- The items of a list, written one after the other. -/
def writeAll {Value : Type*} [DecidableEq Key] (value : Item → Value) (items : List (Key × Item))
    (start : Key → Value) : Key → Value :=
  items.foldl (fun map item => Function.update map item.1 (value item.2)) start

section

variable {Value : Type*} [DecidableEq Key] {value : Item → Value} {items : List (Key × Item)}
  {start : Key → Value}

theorem writeAll_of_not_mem {key : Key} (absent : key ∉ items.map Prod.fst) :
    writeAll value items start key = start key := by
  induction items generalizing start with
  | nil => rfl
  | cons item rest ih =>
    rw [List.map_cons, List.mem_cons, not_or] at absent
    exact (ih absent.2).trans (Function.update_of_ne absent.1 _ _)

theorem writeAll_of_mem (distinct : (items.map Prod.fst).Nodup) {item : Key × Item}
    (member : item ∈ items) : writeAll value items start item.1 = value item.2 := by
  induction items generalizing start with
  | nil => cases member
  | cons head rest ih =>
    rw [List.map_cons, List.nodup_cons] at distinct
    rcases List.mem_cons.mp member with rfl | inRest
    · exact (writeAll_of_not_mem distinct.1).trans (Function.update_self _ _ _)
    · exact ih distinct.2 inRest

end

noncomputable def total (value : Item → Int) (items : Key → Option Item) : Int :=
  ∑ᶠ key, (items key).elim 0 value

theorem total_update [DecidableEq Key] (value : Item → Int) {items : Key → Option Item}
    (finite : {key | items key ≠ none}.Finite) (key : Key) (item : Option Item) :
    total value (Function.update items key item) =
      total value items - (items key).elim 0 value + item.elim 0 value := by
  set keys : Finset Key := insert key finite.toFinset with hKeys
  have within : ∀ changed : Key → Option Item, (∀ other ≠ key, changed other = items other) →
      Function.support (fun other => (changed other).elim 0 value) ⊆ (keys : Set Key) := by
    intro changed same other nonzero
    rw [Finset.coe_insert, Set.Finite.coe_toFinset]
    by_cases here : other = key
    · exact .inl here
    right
    intro absent
    apply nonzero
    change (changed other).elim 0 value = 0
    rw [same other here, absent]
    rfl
  have before := within items fun _ _ => rfl
  have after := within _ fun _ different => Function.update_of_ne different item items
  have member : key ∈ keys := Finset.mem_insert_self _ _
  have others : ∑ other ∈ keys.erase key, (Function.update items key item other).elim 0 value =
      ∑ other ∈ keys.erase key, (items other).elim 0 value := by
    refine Finset.sum_congr rfl fun other inside => ?_
    rw [Function.update_of_ne (Finset.ne_of_mem_erase inside)]
  unfold total
  rw [finsum_eq_sum_of_support_subset _ before, finsum_eq_sum_of_support_subset _ after,
    ← Finset.add_sum_erase _ _ member, ← Finset.add_sum_erase keys _ member, others,
    Function.update_self]
  ring

theorem total_empty (value : Item → Int) : total value (fun _ : Key => none) = 0 := by
  exact finsum_zero

end Adonai.Total
