/-
Nodes with a link to a parent.

A missing node is `none`, and following the link from it leads nowhere. A rank that goes down
by one along every link and is zero where there is none turns the number of links to an
ancestor into a difference of ranks.
-/

import Mathlib.Logic.Function.Iterate
import Mathlib.Tactic.Common

namespace Adonai.Ancestry

variable {α : Type}

def back (parent : α → Option α) (steps : Nat) (node : Option α) : Option α :=
  (fun node => node.bind parent)^[steps] node

/-- A node is an ancestor of itself. -/
def IsAncestor (parent : α → Option α) (ancestor node : α) : Prop :=
  ∃ steps, back parent steps (some node) = some ancestor

variable {parent : α → Option α}

theorem back_succ (steps : Nat) (node : α) :
    back parent (steps + 1) (some node) = back parent steps (parent node) := rfl

theorem back_back (first second : Nat) (node : Option α) :
    back parent second (back parent first node) = back parent (second + first) node :=
  (Function.iterate_add_apply _ second first node).symm

theorem back_none (steps : Nat) : back parent steps none = none := by
  induction steps with
  | zero => rfl
  | succ steps ih => exact ih

theorem IsAncestor.refl (node : α) : IsAncestor parent node node := ⟨0, rfl⟩

theorem IsAncestor.trans {first second third : α} (upper : IsAncestor parent first second)
    (lower : IsAncestor parent second third) : IsAncestor parent first third := by
  obtain ⟨above, reaches⟩ := upper
  obtain ⟨below, passes⟩ := lower
  refine ⟨above + below, ?_⟩
  rw [← back_back, passes]
  exact reaches

theorem IsAncestor.of_link {node above : α} (link : parent node = some above) :
    IsAncestor parent above node := by
  refine ⟨1, ?_⟩
  rw [back_succ, link]
  rfl

theorem back_congr {other : α → Option α} (inside : α → Prop)
    (closed : ∀ node above, inside node → parent node = some above → inside above)
    (same : ∀ node, inside node → other node = parent node) {node : α} (isInside : inside node)
    (steps : Nat) : back other steps (some node) = back parent steps (some node) := by
  induction steps generalizing node with
  | zero => rfl
  | succ steps ih =>
    rw [back_succ, back_succ, same node isInside]
    cases link : parent node with
    | none => rw [back_none, back_none]
    | some above => exact ih (closed node above isInside link)

structure Ranked (parent : α → Option α) (rank : α → Nat) : Prop where
  root : ∀ node, parent node = none → rank node = 0
  child : ∀ node above, parent node = some above → rank node = rank above + 1

namespace Ranked

variable {rank : α → Nat} {node ancestor : α} {steps : Nat}

section

variable (ranked : Ranked parent rank)

include ranked

theorem exists_back (few : steps ≤ rank node) :
    ∃ ancestor, back parent steps (some node) = some ancestor ∧
      rank ancestor + steps = rank node := by
  induction steps generalizing node with
  | zero => exact ⟨node, rfl, rfl⟩
  | succ steps ih =>
    cases link : parent node with
    | none =>
      rw [ranked.root node link] at few
      cases few
    | some above =>
      have isRank := ranked.child node above link
      obtain ⟨ancestor, reaches, sum⟩ := ih (by omega : steps ≤ rank above)
      refine ⟨ancestor, ?_, by omega⟩
      rw [back_succ, link]
      exact reaches

theorem rank_back (reaches : back parent steps (some node) = some ancestor) :
    rank ancestor + steps = rank node := by
  induction steps generalizing node with
  | zero =>
    cases reaches
    rfl
  | succ steps ih =>
    rw [back_succ] at reaches
    cases link : parent node with
    | none =>
      rw [link, back_none] at reaches
      cases reaches
    | some above =>
      rw [link] at reaches
      have sum := ih reaches
      have isRank := ranked.child node above link
      omega

section

variable (isAncestor : IsAncestor parent ancestor node)

include isAncestor

theorem back_of_ancestor : back parent (rank node - rank ancestor) (some node) = some ancestor := by
  obtain ⟨steps, reaches⟩ := isAncestor
  have sum := ranked.rank_back reaches
  have isSteps : rank node - rank ancestor = steps := by omega
  rw [isSteps]
  exact reaches

theorem rank_le : rank ancestor ≤ rank node := by
  obtain ⟨steps, reaches⟩ := isAncestor
  have sum := ranked.rank_back reaches
  omega

theorem ancestor_of_rank_le {higher : α} (isHigher : IsAncestor parent higher node)
    (le : rank ancestor ≤ rank higher) : IsAncestor parent ancestor higher := by
  have below := ranked.rank_le isHigher
  have reaches := ranked.back_of_ancestor isAncestor
  have sum : rank node - rank ancestor =
      (rank higher - rank ancestor) + (rank node - rank higher) := by omega
  rw [sum, ← back_back, ranked.back_of_ancestor isHigher] at reaches
  exact ⟨_, reaches⟩

theorem ancestor_unique {other : α} (isOther : IsAncestor parent other node)
    (same : rank ancestor = rank other) : ancestor = other := by
  have reaches := ranked.back_of_ancestor isAncestor
  rw [same, ranked.back_of_ancestor isOther] at reaches
  exact (Option.some.inj reaches).symm

end

end

end Ranked

end Adonai.Ancestry
