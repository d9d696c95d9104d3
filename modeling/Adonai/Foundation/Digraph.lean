/-
Relations under small changes: what happens to the transitive closure when nodes
leave or a node without successors arrives, and sums over the members a predicate
counts.
-/

import Mathlib.Algebra.Order.BigOperators.Group.Finset

namespace Adonai.Digraph

open Relation

variable {α : Type*} (edge : α → α → Prop)

def Acyclic : Prop := ∀ node, ¬ TransGen edge node node

def without (gone : α → Prop) (source target : α) : Prop :=
  edge source target ∧ ¬ gone source ∧ ¬ gone target

theorem transGen_without {edge : α → α → Prop} {gone : α → Prop} {source target : α}
    (path : TransGen (without edge gone) source target) : TransGen edge source target :=
  TransGen.mono (fun _ _ step => step.1 : without edge gone ≤ edge) _ _ path

theorem Acyclic.without {edge : α → α → Prop} (acyclic : Acyclic edge) (gone : α → Prop) :
    Acyclic (without edge gone) := fun node path => acyclic node (transGen_without path)

theorem transGen_without_successors {edge : α → α → Prop} {gone : α → Prop}
    (closed : ∀ source target, edge source target → gone source → gone target) (source target : α) :
    TransGen (without edge gone) source target ↔ TransGen edge source target ∧ ¬ gone target := by
  constructor
  · intro path
    refine ⟨transGen_without path, ?_⟩
    cases path with
    | single step => exact step.2.2
    | tail _ step => exact step.2.2
  · rintro ⟨path, stays⟩
    induction path with
    | single step => exact .single ⟨step, fun left => stays (closed _ _ step left), stays⟩
    | tail _ step ih =>
      have before : ¬ gone _ := fun left => stays (closed _ _ step left)
      exact .tail (ih before) ⟨step, before, stays⟩

def withSink (node : α) (entry : α → Prop) (source target : α) : Prop :=
  edge source target ∨ target = node ∧ entry source

theorem le_withSink (node : α) (entry : α → Prop) :
    edge ≤ withSink edge node entry := fun _ _ step => .inl step

section Sink

variable {edge : α → α → Prop} {node : α} {entry : α → Prop}

theorem transGen_withSink (fresh : ∀ target, ¬ edge node target) (outside : ¬ entry node)
    (source target : α) : TransGen (withSink edge node entry) source target ↔
      TransGen edge source target ∨
        target = node ∧ ∃ last, entry last ∧ ReflTransGen edge source last := by
  constructor
  · intro path
    induction path with
    | single step =>
      rcases step with old | ⟨same, enters⟩
      · exact .inl (.single old)
      · exact .inr ⟨same, source, enters, .refl⟩
    | @tail middle last _ step ih =>
      rcases ih with old | ⟨atNode, _⟩
      · rcases step with edge | ⟨same, enters⟩
        · exact .inl (old.tail edge)
        · exact .inr ⟨same, middle, enters, old.to_reflTransGen⟩
      · subst atNode
        rcases step with edge | ⟨_, enters⟩
        · exact absurd edge (fresh last)
        · exact absurd enters outside
  · rintro (old | ⟨same, last, enters, path⟩)
    · exact TransGen.mono (le_withSink edge node entry) _ _ old
    · have before : ReflTransGen (withSink edge node entry) source last :=
        ReflTransGen.mono (le_withSink edge node entry) _ _ path
      exact TransGen.tail' before (.inr ⟨same, enters⟩)

theorem Acyclic.withSink (acyclic : Acyclic edge) (fresh : ∀ target, ¬ edge node target)
    (outside : ¬ entry node) : Acyclic (withSink edge node entry) := by
  intro start path
  rcases (transGen_withSink fresh outside start start).mp path with old | ⟨same, last, enters, walk⟩
  · exact acyclic start old
  · subst same
    rcases ReflTransGen.cases_head walk with same | ⟨next, step, _⟩
    · exact outside (same ▸ enters)
    · exact fresh next step

end Sink

section Tally

variable {M : Type*} [AddCommGroup M]

open Classical in
noncomputable def tally (members : Finset α) (weight : α → M) (counts : α → Prop) : M :=
  ∑ item ∈ members with counts item, weight item

variable {members : Finset α} {weight : α → M} {counts : α → Prop}

theorem tally_eq_sum {counted : Finset α}
    (same : ∀ item, item ∈ counted ↔ item ∈ members ∧ counts item) :
    tally members weight counts = ∑ item ∈ counted, weight item := by
  classical
  refine Finset.sum_congr ?_ fun _ _ => rfl
  ext item
  rw [Finset.mem_filter, same]

variable {others : α → Prop}

theorem tally_ext {items : Finset α}
    (same : ∀ item, item ∈ members ∧ counts item ↔ item ∈ items ∧ others item) :
    tally members weight counts = tally items weight others := by
  classical
  refine tally_eq_sum fun item => ?_
  rw [Finset.mem_filter, same]

theorem tally_congr (same : ∀ item ∈ members, counts item ↔ others item) :
    tally members weight counts = tally members weight others :=
  tally_ext fun item => and_congr_right (same item)

theorem tally_none (none : ∀ item ∈ members, ¬ counts item) : tally members weight counts = 0 := by
  refine (tally_eq_sum fun item => ?_).trans Finset.sum_empty
  exact iff_of_false (Finset.notMem_empty item) fun both => none item both.1 both.2

theorem tally_or (disjoint : ∀ item ∈ members, counts item → ¬ others item) :
    tally members weight (fun item => counts item ∨ others item) =
      tally members weight counts + tally members weight others := by
  classical
  refine (tally_eq_sum fun item => ?_).trans
    (Finset.sum_union (Finset.disjoint_filter.mpr disjoint))
  simp [and_or_left]

theorem tally_list [DecidableEq α] {items : List α} (nodup : items.Nodup)
    (inside : ∀ item ∈ items, item ∈ members) :
    tally members weight (· ∈ items) = (items.map weight).sum := by
  have listed : ∀ item, item ∈ items.toFinset ↔ item ∈ members ∧ item ∈ items := by
    intro item
    rw [List.mem_toFinset]
    exact ⟨fun member => ⟨inside item member, member⟩, fun both => both.2⟩
  rw [tally_eq_sum listed, List.sum_toFinset weight nodup]

theorem tally_diff (covered : ∀ item ∈ members, others item → counts item) :
    tally members weight (fun item => counts item ∧ ¬ others item) =
      tally members weight counts - tally members weight others := by
  rw [eq_sub_iff_add_eq, ← tally_or fun _ _ both => both.2]
  refine tally_congr fun item member => ?_
  by_cases other : others item
  · exact iff_of_true (.inr other) (covered item member other)
  · exact ⟨fun either => (either.resolve_right other).1, fun counted => .inl ⟨counted, other⟩⟩

theorem map_tally {N : Type*} [AddCommGroup N] (hom : M →+ N) :
    hom (tally members weight counts) = tally members (fun item => hom (weight item)) counts := by
  rw [tally, map_sum, tally]

theorem tally_nonneg {weight : α → Int} (nonneg : ∀ item ∈ members, 0 ≤ weight item) :
    0 ≤ tally members weight counts := by
  classical
  exact Finset.sum_nonneg fun item member => nonneg item (Finset.mem_of_mem_filter item member)

theorem tally_single {item : α} (member : item ∈ members) :
    tally members weight (· = item) = weight item := by
  refine (tally_eq_sum fun other => ?_).trans (Finset.sum_singleton weight item)
  rw [Finset.mem_singleton]
  exact ⟨fun same => ⟨same ▸ member, same⟩, And.right⟩

section

variable {weight : α → Int} (nonneg : ∀ item ∈ members, 0 ≤ weight item)

include nonneg

theorem tally_mono {others : α → Prop} (fewer : ∀ item ∈ members, counts item → others item) :
    tally members weight counts ≤ tally members weight others := by
  rw [← sub_nonneg, ← tally_diff fewer]
  exact tally_nonneg nonneg

theorem tally_pos {item : α} (member : item ∈ members) (counted : counts item)
    (positive : 0 < weight item) : 0 < tally members weight counts := by
  have alone : tally members weight (· = item) ≤ tally members weight counts :=
    tally_mono nonneg fun other _ same => same ▸ counted
  rw [tally_single member] at alone
  exact positive.trans_le alone

end

theorem tally_le_card : tally members (fun _ => (1 : Int)) counts ≤ members.card := by
  classical
  rw [tally, Finset.sum_const, Int.nsmul_eq_mul, mul_one]
  exact_mod_cast Finset.card_filter_le _ _

end Tally

end Adonai.Digraph
