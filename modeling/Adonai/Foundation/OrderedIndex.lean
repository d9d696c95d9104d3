/-
Ordered indexes of a container: lists that a key sorts, with equal keys allowed.

An element is put after those with the same key. One that changed stays while its neighbours allow
it, and is put anew otherwise. `Sorted.next_between` and `Sorted.previous_between` say what a
neighbour tells about all others.
-/

import Mathlib.Order.Lattice
import Mathlib.Order.Lex
import Mathlib.Data.List.Perm.Basic
import Mathlib.Data.List.TakeWhile

namespace Adonai.OrderedIndex

variable {α κ : Type} [LinearOrder κ] (key : α → κ)

def Sorted (items : List α) : Prop := items.Pairwise fun left right => key left ≤ key right

def place (item : α) (items : List α) : List α :=
  items.takeWhile (fun other => decide (key other ≤ key item)) ++
    item :: items.dropWhile fun other => decide (key other ≤ key item)

def fits (front : List α) (item : α) (back : List α) : Bool :=
  (front.getLast?.all fun last => decide (key last ≤ key item)) &&
    back.head?.all fun next => decide (key item ≤ key next)

def relocate (front : List α) (item : α) (back : List α) : List α :=
  if fits key front item back then front ++ item :: back else place key item (front ++ back)

def cut (wanted : α → Bool) : List α → Option (List α × α × List α)
  | [] => none
  | item :: items =>
    if wanted item then some ([], item, items)
    else (cut wanted items).map fun (front, found, back) => (item :: front, found, back)

variable {key}

variable {wanted : α → Bool}

theorem cut_eq {items front back : List α} {found : α}
    (cuts : cut wanted items = some (front, found, back)) :
    items = front ++ found :: back ∧ wanted found = true := by
  induction items generalizing front with
  | nil => cases cuts
  | cons item items ih =>
    rw [cut] at cuts
    split_ifs at cuts with here
    · cases cuts
      exact ⟨rfl, here⟩
    obtain ⟨⟨before, other, after⟩, later, same⟩ := Option.map_eq_some_iff.mp cuts
    cases same
    obtain ⟨split, holds⟩ := ih later
    rw [split]
    exact ⟨rfl, holds⟩

variable {items : List α} {item : α}

theorem exists_cut (member : item ∈ items) (holds : wanted item = true) :
    ∃ front found back, cut wanted items = some (front, found, back) := by
  induction items with
  | nil => cases member
  | cons head items ih =>
    by_cases here : wanted head = true
    · exact ⟨[], head, items, by rw [cut, if_pos here]⟩
    have later : item ∈ items := by
      rcases List.mem_cons.mp member with same | later
      · rw [same] at holds
        exact absurd holds here
      · exact later
    obtain ⟨front, found, back, cuts⟩ := ih later
    exact ⟨head :: front, found, back, by rw [cut, if_neg here, cuts]; rfl⟩

theorem place_perm (item : α) (items : List α) : (place key item items).Perm (item :: items) := by
  refine List.perm_middle.trans ?_
  rw [List.takeWhile_append_dropWhile]

theorem relocate_perm (front : List α) (item : α) (back : List α) :
    (relocate key front item back).Perm (item :: (front ++ back)) := by
  unfold relocate
  split
  · exact List.perm_middle
  · exact place_perm item (front ++ back)

variable {front back : List α}

theorem sorted_insert_iff : Sorted key (front ++ item :: back) ↔
      Sorted key (front ++ back) ∧ (∀ other ∈ front, key other ≤ key item) ∧
        ∀ other ∈ back, key item ≤ key other := by
  unfold Sorted
  rw [List.pairwise_append, List.pairwise_append, List.pairwise_cons]
  constructor
  · intro ⟨fronts, ⟨above, backs⟩, across⟩
    exact ⟨⟨fronts, backs, fun left inFront right inBack =>
      across left inFront right (List.mem_cons_of_mem item inBack)⟩,
      fun other inFront => across other inFront item List.mem_cons_self, above⟩
  · intro ⟨⟨fronts, backs, across⟩, below, above⟩
    exact ⟨fronts, ⟨above, backs⟩, fun left inFront =>
      List.forall_mem_cons.mpr ⟨below left inFront, across left inFront⟩⟩

section

variable (sorted : Sorted key items)

include sorted

theorem Sorted.le_last {item last : α} (member : item ∈ items)
    (isLast : items.getLast? = some last) :
    key item ≤ key last := by
  obtain ⟨before, split⟩ := List.getLast?_eq_some_iff.mp isLast
  rw [split] at member sorted
  rcases List.mem_append.mp member with earlier | same
  · exact (List.pairwise_append.mp sorted).2.2 item earlier last (List.mem_singleton_self last)
  · rw [List.mem_singleton.mp same]

theorem Sorted.head_le {item first : α} (member : item ∈ items)
    (isFirst : items.head? = some first) :
    key first ≤ key item := by
  obtain ⟨after, split⟩ := List.head?_eq_some_iff.mp isFirst
  rw [split] at member sorted
  rcases List.mem_cons.mp member with same | later
  · rw [same]
  · exact (List.pairwise_cons.mp sorted).1 item later

theorem Sorted.exists_last {item : α} (member : item ∈ items) :
    ∃ last, items.getLast? = some last ∧ key item ≤ key last :=
  ⟨_, List.getLast?_eq_some_getLast (List.ne_nil_of_mem member),
    sorted.le_last member (List.getLast?_eq_some_getLast _)⟩

theorem Sorted.exists_first {item : α} (member : item ∈ items) :
    ∃ first, items.head? = some first ∧ key first ≤ key item :=
  ⟨_, List.head?_eq_some_head (List.ne_nil_of_mem member),
    sorted.head_le member (List.head?_eq_some_head _)⟩

variable {holds : α → Bool}

theorem Sorted.not_mem_dropWhile
    (closed : ∀ other ∈ items, key other ≤ key item → holds other = true) :
    item ∉ items.dropWhile holds := by
  intro member
  cases rest : items.dropWhile holds with
  | nil =>
    rw [rest] at member
    cases member
  | cons first after => ?_
  have tail := List.Pairwise.sublist (List.dropWhile_sublist holds) sorted
  have inItems : first ∈ items := (List.dropWhile_sublist holds).mem (by
    rw [rest]
    exact List.mem_cons_self)
  have stops := List.head?_dropWhile_not holds items
  rw [rest] at member stops tail
  have fails : holds first = false := stops
  rw [closed first inItems (Sorted.head_le tail member rfl)] at fails
  cases fails

theorem Sorted.place (item : α) : Sorted key (place key item items) := by
  unfold OrderedIndex.place
  rw [sorted_insert_iff, List.takeWhile_append_dropWhile]
  refine ⟨sorted, ?_, ?_⟩
  · intro other inFront
    have passes := List.mem_takeWhile_imp inFront
    exact of_decide_eq_true passes
  · intro other inBack
    by_contra below
    refine sorted.not_mem_dropWhile ?_ inBack
    intro earlier _ le
    exact decide_eq_true (le.trans (le_of_not_ge below))

end

theorem sorted_of_inPlace (sorted : Sorted key (front ++ back))
    (previous : ∀ other, front.getLast? = some other → key other ≤ key item)
    (next : ∀ other, back.head? = some other → key item ≤ key other) :
    Sorted key (front ++ item :: back) := by
  have parts := List.pairwise_append.mp sorted
  rw [sorted_insert_iff]
  refine ⟨sorted, ?_, ?_⟩
  · intro other member
    obtain ⟨last, isLast, below⟩ := Sorted.exists_last parts.1 member
    exact below.trans (previous last isLast)
  · intro other member
    obtain ⟨first, isFirst, above⟩ := Sorted.exists_first parts.2.1 member
    exact (next first isFirst).trans above

theorem Sorted.relocate (sorted : Sorted key (front ++ back)) (item : α) :
    Sorted key (relocate key front item back) := by
  unfold OrderedIndex.relocate
  split
  case isTrue inPlace =>
    unfold fits at inPlace
    rw [Bool.and_eq_true] at inPlace
    apply sorted_of_inPlace sorted
    · intro last isLast
      rw [isLast] at inPlace
      exact of_decide_eq_true inPlace.1
    · intro first isFirst
      rw [isFirst] at inPlace
      exact of_decide_eq_true inPlace.2
  case isFalse => exact sorted.place item

theorem Sorted.remove (sorted : Sorted key (front ++ item :: back)) : Sorted key (front ++ back) :=
  (sorted_insert_iff.mp sorted).1

theorem Sorted.next_between {item next other : α} (sorted : Sorted key (front ++ item :: back))
    (isNext : back.head? = some next) (member : other ∈ front ++ item :: back) :
      key other ≤ key item ∨ key next ≤ key other := by
  have placed := sorted_insert_iff.mp sorted
  rcases List.mem_append.mp member with inFront | here
  · exact .inl (placed.2.1 other inFront)
  · rcases List.mem_cons.mp here with same | inBack
    · rw [same]
      exact .inl (le_refl _)
    · exact .inr (Sorted.head_le (List.pairwise_append.mp placed.1).2.1 inBack isNext)

theorem Sorted.previous_between {item previous other : α}
    (sorted : Sorted key (front ++ item :: back)) (isPrevious : front.getLast? = some previous)
    (member : other ∈ front ++ item :: back) : key other ≤ key previous ∨ key item ≤ key other := by
  have placed := sorted_insert_iff.mp sorted
  rcases List.mem_append.mp member with inFront | here
  · exact .inl (Sorted.le_last (List.pairwise_append.mp placed.1).1 inFront isPrevious)
  · rcases List.mem_cons.mp here with same | inBack
    · rw [same]
      exact .inr (le_refl _)
    · exact .inr (placed.2.2 other inBack)

theorem Sorted.mem_takeWhile (sorted : Sorted key items) (member : item ∈ items)
    (closed : ∀ other ∈ items, key other ≤ key item → holds other = true) :
    item ∈ items.takeWhile holds := by
  rw [← @List.takeWhile_append_dropWhile α holds items] at member
  exact (List.mem_append.mp member).resolve_right (sorted.not_mem_dropWhile closed)

theorem Sorted.mem_lower_iff {bound : κ} (sorted : Sorted key items) :
    item ∈ items.dropWhile (fun other => decide (key other < bound)) ↔
      item ∈ items ∧ bound ≤ key item := by
  constructor
  · intro member
    refine ⟨(List.dropWhile_sublist _).mem member, ?_⟩
    by_contra below
    apply sorted.not_mem_dropWhile _ member
    intro other _ notAbove
    rw [decide_eq_true_iff]
    exact lt_of_le_of_lt notAbove (lt_of_not_ge below)
  · intro ⟨member, above⟩
    rw [← @List.takeWhile_append_dropWhile α (fun other => decide (key other < bound)) items]
      at member
    refine (List.mem_append.mp member).resolve_left ?_
    intro before
    have below := List.mem_takeWhile_imp before
    rw [decide_eq_true_iff] at below
    exact absurd above (not_le_of_gt below)

theorem run_perm (below own : α → Bool) (items : List α) :
    items.Perm ((items.dropWhile below).takeWhile own ++
      (items.takeWhile below ++ (items.dropWhile below).dropWhile own)) := by
  refine .trans ?_ (List.perm_append_comm_assoc _ _ _)
  rw [List.takeWhile_append_dropWhile, List.takeWhile_append_dropWhile]

end Adonai.OrderedIndex
