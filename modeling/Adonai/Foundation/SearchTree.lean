/-
Ordered indexes kept in search trees whose comparison may be undefined.

An element descends from the root, so its place depends on the shape of the tree when the tree is
not in order. Balancing is a parameter that keeps the sequence of elements.
-/

import Adonai.Foundation.OrderedIndex
import Mathlib.Data.Tree.Basic

namespace Adonai.SearchTree

open OrderedIndex

variable {α κ : Type}

def inorder : BinaryTree α → List α
  | .nil => []
  | .node value left right => inorder left ++ value :: inorder right

/-- Descend to a free place; `before` compares the new element with one in the tree. -/
def link (before : α → Option Bool) (item : α) : BinaryTree α → Option (BinaryTree α)
  | .nil => some (.node item .nil .nil)
  | .node value left right =>
    match before value with
    | none => none
    | some true => (link before item left).map fun left => .node value left right
    | some false => (link before item right).map fun right => .node value left right

/-- What a balanced tree does besides: it restores its shape, and takes a node out. -/
structure Balancing (α : Type) [DecidableEq α] where
  restore : BinaryTree α → BinaryTree α
  inorder_restore : ∀ tree, inorder (restore tree) = inorder tree
  unlink : α → BinaryTree α → BinaryTree α
  inorder_unlink : ∀ item tree, inorder (unlink item tree) = (inorder tree).erase item

def ofList : List α → BinaryTree α
  | [] => .nil
  | item :: items => .node item .nil (ofList items)

theorem inorder_ofList (items : List α) : inorder (ofList items) = items := by
  induction items with
  | nil => rfl
  | cons item items ih => rw [ofList, inorder, inorder, List.nil_append, ih]

def unbalanced (α : Type) [DecidableEq α] : Balancing α where
  restore tree := tree
  inorder_restore _ := rfl
  unlink item tree := ofList ((inorder tree).erase item)
  inorder_unlink _ _ := inorder_ofList _

def inPlace (before : α → α → Option Bool) (front : List α) (item : α) (back : List α) :
    Option Bool :=
  match front.getLast?, back.head? with
  | none, none => some true
  | none, some next => (before next item).map (!·)
  | some previous, none => (before item previous).map (!·)
  | some previous, some next =>
    match before item previous with
    | none => none
    | some true => some false
    | some false => (before next item).map (!·)

section Operations

variable [DecidableEq α] (balancing : Balancing α) (before : α → α → Option Bool)

def add (item : α) (tree : BinaryTree α) : Option (BinaryTree α) :=
  (link (before item) item tree).map balancing.restore

/-- An element whose key changed is taken out and added again, unless it may stay. -/
def update (item : α) (tree : BinaryTree α) : Option (BinaryTree α) :=
  match cut (fun other => other == item) (inorder tree) with
  | none => none
  | some (front, _, back) =>
    match inPlace before front item back with
    | none => none
    | some true => some tree
    | some false => add balancing before item (balancing.unlink item tree)

end Operations

variable [LinearOrder κ] {key : α → κ}

theorem link_eq {before : α → Option Bool} {item : α} {tree : BinaryTree α}
    (sorted : Sorted key (inorder tree))
    (compares : ∀ other ∈ inorder tree, before other = some (decide (key item ≤ key other))) :
    ∃ after front back, link before item tree = some after ∧ inorder tree = front ++ back ∧
      inorder after = front ++ item :: back ∧ (∀ other ∈ front, key other ≤ key item) ∧
      ∀ other ∈ back, key item ≤ key other := by
  induction tree with
  | nil => exact ⟨_, [], [], rfl, rfl, rfl, by simp, by simp⟩
  | node value left right ihLeft ihRight =>
    have parts := List.pairwise_append.mp sorted
    have afterValue := List.pairwise_cons.mp parts.2.1
    have here := compares value (List.mem_append_right _ List.mem_cons_self)
    by_cases lower : key item ≤ key value
    · obtain ⟨after, front, back, links, split, placed, below, above⟩ := ihLeft parts.1
        (fun other member => compares other (List.mem_append_left _ member))
      refine ⟨.node value after right, front, back ++ value :: inorder right, ?_, ?_, ?_, below, ?_⟩
      · simp only [link, here, lower, decide_true, links, Option.map_some]
      · rw [inorder, split, List.append_assoc]
      · rw [inorder, placed, List.append_assoc, List.cons_append]
      · rw [List.forall_mem_append, List.forall_mem_cons]
        exact ⟨above, lower, fun other inRight => lower.trans (afterValue.1 other inRight)⟩
    · obtain ⟨after, front, back, links, split, placed, below, above⟩ := ihRight afterValue.2
        (fun other member =>
          compares other (List.mem_append_right _ (List.mem_cons_of_mem value member)))
      have higher : key value ≤ key item := le_of_not_ge lower
      refine ⟨.node value left after, inorder left ++ value :: front, back, ?_, ?_, ?_, ?_, above⟩
      · simp only [link, here, lower, decide_false, links, Option.map_some]
      · rw [inorder, split, List.append_assoc, List.cons_append]
      · rw [inorder, placed, List.append_assoc, List.cons_append]
      · rw [List.forall_mem_append, List.forall_mem_cons]
        exact ⟨fun other inLeft => (parts.2.2 other inLeft value List.mem_cons_self).trans higher,
          higher, below⟩

theorem inPlace_eq {before : α → α → Option Bool} {item : α} {front back : List α}
    (compares : ∀ other ∈ front ++ back,
      before item other = some (decide (key item ≤ key other)) ∧
        before other item = some (decide (key other ≤ key item))) :
    ∃ stays, inPlace before front item back = some stays ∧
      (stays = true → (∀ other, front.getLast? = some other → key other ≤ key item) ∧
        ∀ other, back.head? = some other → key item ≤ key other) := by
  have previous : ∀ other, front.getLast? = some other →
      before item other = some (decide (key item ≤ key other)) := fun other isLast =>
    (compares other (List.mem_append_left back (List.mem_of_getLast? isLast))).1
  have next : ∀ other, back.head? = some other →
      before other item = some (decide (key other ≤ key item)) := fun other isFirst =>
    (compares other (List.mem_append_right front (List.mem_of_head? isFirst))).2
  unfold inPlace
  cases isLast : front.getLast? with
  | none =>
    cases isFirst : back.head? with
    | none => exact ⟨true, rfl, fun _ => ⟨by simp, by simp⟩⟩
    | some first =>
      simp only [next first isFirst, Option.map_some]
      exact ⟨_, rfl, by simpa using (le_of_lt : key item < key first → _)⟩
  | some last =>
    cases isFirst : back.head? with
    | none =>
      simp only [previous last isLast, Option.map_some]
      exact ⟨_, rfl, by simpa using (le_of_lt : key last < key item → _)⟩
    | some first =>
      simp only [previous last isLast, next first isFirst, Option.map_some]
      by_cases lower : key item ≤ key last
      · exact ⟨false, by simp only [lower, decide_true], by simp⟩
      · rw [decide_eq_false lower]
        exact ⟨_, rfl, by simpa [(lt_of_not_ge lower).le] using
          (le_of_lt : key item < key first → _)⟩

section Operations

variable [DecidableEq α] (balancing : Balancing α) {before : α → α → Option Bool} {item : α}
  {tree : BinaryTree α}

theorem add_eq (sorted : Sorted key (inorder tree))
    (compares : ∀ other ∈ inorder tree, before item other = some (decide (key item ≤ key other))) :
    ∃ after, add balancing before item tree = some after ∧ Sorted key (inorder after) ∧
      (inorder after).Perm (item :: inorder tree) := by
  obtain ⟨after, front, back, links, split, placed, below, above⟩ := link_eq sorted compares
  refine ⟨balancing.restore after, ?_, ?_, ?_⟩
  · rw [add, links]
    rfl
  · rw [balancing.inorder_restore, placed, sorted_insert_iff, ← split]
    exact ⟨sorted, below, above⟩
  · rw [balancing.inorder_restore, placed, split]
    exact List.perm_middle

theorem update_eq (distinct : (inorder tree).Nodup) (member : item ∈ inorder tree)
    (sorted : Sorted key ((inorder tree).erase item))
    (compares : ∀ other ∈ inorder tree, other ≠ item →
      before item other = some (decide (key item ≤ key other)) ∧
        before other item = some (decide (key other ≤ key item))) :
    ∃ after, update balancing before item tree = some after ∧ Sorted key (inorder after) ∧
      (inorder after).Perm (inorder tree) := by
  have wanted : (item == item) = true := beq_self_eq_true item
  obtain ⟨front, found, back, cuts⟩ :=
    @exists_cut α (fun other => other == item) (inorder tree) item member wanted
  obtain ⟨split, holds⟩ := cut_eq cuts
  rw [beq_iff_eq.mp holds] at cuts split
  have notInFront : item ∉ front := by
    rw [split] at distinct
    intro inFront
    exact (List.nodup_append.mp distinct).2.2 item inFront item List.mem_cons_self rfl
  have erased : (inorder tree).erase item = front ++ back := by
    rw [split, List.erase_append_right _ notInFront, List.erase_cons_head]
  have others : ∀ other ∈ front ++ back, other ∈ inorder tree ∧ other ≠ item := by
    intro other inOthers
    rw [← erased] at inOthers
    exact ⟨List.mem_of_mem_erase inOthers, fun same =>
      (List.Nodup.not_mem_erase distinct) (same ▸ inOthers)⟩
  rw [erased] at sorted
  obtain ⟨stays, decides, neighbours⟩ := inPlace_eq (fun other inOthers =>
    compares other (others other inOthers).1 (others other inOthers).2)
  simp only [update, cuts, decides]
  cases stays with
  | true =>
    refine ⟨tree, rfl, ?_, .refl _⟩
    rw [split]
    exact sorted_of_inPlace sorted (neighbours rfl).1 (neighbours rfl).2
  | false => ?_
  have unlinked := balancing.inorder_unlink item tree
  rw [erased] at unlinked
  obtain ⟨after, adds, afterSorted, perm⟩ := add_eq balancing
    (show Sorted key (inorder (balancing.unlink item tree)) by rw [unlinked]; exact sorted)
    (by
      rw [unlinked]
      exact fun other inOthers =>
        (compares other (others other inOthers).1 (others other inOthers).2).1)
  refine ⟨after, adds, afterSorted, perm.trans ?_⟩
  rw [unlinked, split]
  exact List.perm_middle.symm

end Operations

end Adonai.SearchTree
