/-
Ordered sets and loops that work them off.

An ordered set is a list without repetition in the order of iteration. A worklist visits the first
member of its stage and goes on with what the visit leaves. When every visit lowers a measure that
starts within the fuel, the fuel lasts.
-/

import Adonai.Foundation.Program
import Mathlib.Data.Finset.Card
import Mathlib.Data.List.Sort

namespace Adonai

structure OrderedSet (α : Type) (rank : α → Nat) where
  elems : List α
  nodup : elems.Nodup

namespace OrderedSet

variable {α : Type} {rank : α → Nat}

instance : Membership α (OrderedSet α rank) := ⟨fun set item => item ∈ set.elems⟩

variable {set : OrderedSet α rank} {item : α}

theorem mem_elems : item ∈ set.elems ↔ item ∈ set := Iff.rfl

def empty : OrderedSet α rank := { elems := [], nodup := List.nodup_nil }

theorem not_mem_empty (item : α) : item ∉ (empty : OrderedSet α rank) := List.not_mem_nil

variable [DecidableEq α]

instance (item : α) (set : OrderedSet α rank) : Decidable (item ∈ set) :=
  inferInstanceAs (Decidable (item ∈ set.elems))

def insert (set : OrderedSet α rank) (item : α) : OrderedSet α rank :=
  if present : item ∈ set.elems then set
  else
    { elems := set.elems.orderedInsert (fun left right => rank left ≤ rank right) item
      nodup := by
        rw [(List.perm_orderedInsert _ item set.elems).nodup_iff, List.nodup_cons]
        exact ⟨present, set.nodup⟩ }

def erase (set : OrderedSet α rank) (item : α) : OrderedSet α rank :=
  { elems := set.elems.erase item, nodup := set.nodup.erase item }

def insertAll (set : OrderedSet α rank) (items : List α) : OrderedSet α rank :=
  items.foldl insert set

def size (set : OrderedSet α rank) : Nat := set.elems.length

@[simp]
theorem mem_insert {item other : α} : other ∈ set.insert item ↔ other = item ∨ other ∈ set := by
  unfold insert
  split
  next present =>
    constructor
    · exact Or.inr
    · rintro (same | member)
      · exact same ▸ present
      · exact member
  next =>
    change other ∈ set.elems.orderedInsert _ item ↔ _
    rw [List.mem_orderedInsert]
    rfl

@[simp]
theorem mem_erase {item other : α} :
    other ∈ set.erase item ↔ other ≠ item ∧ other ∈ set := set.nodup.mem_erase_iff

@[simp]
theorem mem_insertAll {items : List α} {other : α} :
    other ∈ set.insertAll items ↔ other ∈ items ∨ other ∈ set := by
  induction items generalizing set with
  | nil =>
    change other ∈ set ↔ _
    simp only [List.not_mem_nil, false_or]
  | cons item items ih =>
    change other ∈ (set.insert item).insertAll items ↔ _
    rw [ih, mem_insert, List.mem_cons]
    tauto

def pending (items : Finset α) (stage done : OrderedSet α rank) : Nat :=
  (items.filter fun item => item ∈ stage ∨ item ∉ done).card

theorem pending_le_card (items : Finset α) (stage done : OrderedSet α rank) :
    pending items stage done ≤ items.card := Finset.card_filter_le items _

variable {items : Finset α}

theorem pending_pos {stage done : OrderedSet α rank} (member : item ∈ items)
    (staged : item ∈ stage) : 0 < pending items stage done :=
  Finset.card_pos.mpr ⟨item, Finset.mem_filter.mpr ⟨member, .inl staged⟩⟩

theorem pending_lt {stage done stage' done' : OrderedSet α rank} (member : item ∈ items)
    (staged : item ∈ stage) (left : item ∉ stage') (gotDone : item ∈ done')
    (grows : ∀ other, other ∈ done → other ∈ done')
    (fresh : ∀ other, other ∈ stage' → other ∈ stage ∨ other ∉ done) :
    pending items stage' done' < pending items stage done := by
  refine Finset.card_lt_card (Finset.ssubset_iff_subset_ne.mpr ⟨?_, ?_⟩)
  · intro other
    rw [Finset.mem_filter, Finset.mem_filter]
    rintro ⟨inside, isStaged | notDone⟩
    · exact ⟨inside, fresh other isStaged⟩
    · exact ⟨inside, .inr fun isDone => notDone (grows other isDone)⟩
  · intro same
    have counted : item ∈ items.filter fun item => item ∈ stage' ∨ item ∉ done' := by
      rw [same, Finset.mem_filter]
      exact ⟨member, .inl staged⟩
    rcases (Finset.mem_filter.mp counted).2 with isStaged | notDone
    · exact left isStaged
    · exact notDone gotDone

theorem size_le (inside : ∀ item, item ∈ set → item ∈ items) : set.size ≤ items.card := by
  rw [size, ← List.toFinset_card_of_nodup set.nodup]
  refine Finset.card_le_card ?_
  intro item member
  exact inside item (List.mem_toFinset.mp member)

def pop (set : OrderedSet α rank) : Option (α × OrderedSet α rank) :=
  set.elems.head?.map fun item => (item, set.erase item)

theorem pop_eq_none (popped : set.pop = none) (item : α) : item ∉ set := by
  have empty : set.elems = [] := by
    rw [pop, Option.map_eq_none_iff, List.head?_eq_none_iff] at popped
    exact popped
  rw [← mem_elems, empty]
  exact List.not_mem_nil

theorem pop_eq_some {set rest : OrderedSet α rank} (popped : set.pop = some (item, rest)) :
    item ∈ set ∧ rest = set.erase item := by
  rw [pop, Option.map_eq_some_iff] at popped
  obtain ⟨first, head, same⟩ := popped
  cases same
  exact ⟨List.mem_of_mem_head? head, rfl⟩

end OrderedSet

open OrderedSet (mem_insert not_mem_empty pending pop_eq_none pop_eq_some)

section Yields

variable {Halt α β : Type}

/-- What a computation ensures of its value, and which halts are expected of it. -/
def Yields (computation : Except Halt α) (expected : Halt → Prop) (post : α → Prop) : Prop :=
  match computation with
  | .ok value => post value
  | .error halt => expected halt

variable {computation : Except Halt α} {expected : Halt → Prop} {post : α → Prop}

theorem Yields.of_ok {value : α} (runs : computation = .ok value) (ensures : post value) :
    Yields computation expected post := by
  subst runs
  exact ensures

theorem Yields.of_error {halt : Halt} (halts : computation = .error halt)
    (allowed : expected halt) : Yields computation expected post := by
  subst halts
  exact allowed

section

variable (yields : Yields computation expected post)

include yields

theorem Yields.result {value : α} (runs : computation = .ok value) : post value := by
  subst runs
  exact yields

theorem Yields.halt {halt : Halt} (halts : computation = .error halt) : expected halt := by
  subst halts
  exact yields

theorem Yields.weaken {weaker : α → Prop}
    (imply : ∀ value, post value → weaker value) : Yields computation expected weaker := by
  cases outcome : computation with
  | ok value => exact imply value (yields.result outcome)
  | error halt => exact yields.halt outcome

end

theorem Yields.bind {next : α → Except Halt β} {final : β → Prop}
    (first : Yields computation expected fun value => Yields (next value) expected final) :
    Yields (computation >>= next) expected final := by
  cases outcome : computation with
  | ok value => exact first.result outcome
  | error halt => exact first.halt outcome

/-- The rule for a loop over a list; the invariant speaks about the items that are done. -/
theorem foldlM_yields {State : Type} {step : State → α → Except Halt State}
    (invariant : List α → State → Prop) {items : List α}
    (round : ∀ done item state, item ∈ items → invariant done state →
      Yields (step state item) expected (invariant (done ++ [item])))
    {state : State} (initially : invariant [] state) :
    Yields (items.foldlM step state) expected (invariant items) := by
  have onwards : ∀ (rest done : List α) (state : State), done ++ rest = items →
      invariant done state → Yields (rest.foldlM step state) expected (invariant items) := by
    intro rest
    induction rest with
    | nil =>
      intro done state complete kept
      rw [List.append_nil] at complete
      exact complete ▸ kept
    | cons item rest ih =>
      intro done state complete kept
      have member : item ∈ items := by
        rw [← complete]
        exact List.mem_append_right done List.mem_cons_self
      refine .bind ((round done item state member kept).weaken ?_)
      intro next keptAgain
      refine ih (done ++ [item]) next ?_ keptAgain
      rw [List.append_assoc, List.singleton_append, complete]
  exact onwards items [] state rfl initially

end Yields

section Worklist

variable {α State Halt : Type} {rank : α → Nat} [DecidableEq α]

def worklist (visit : α → OrderedSet α rank → State → Except Halt (OrderedSet α rank × State))
    (diverged : Halt) : Nat → OrderedSet α rank → State → Except Halt State
  | 0, stage, state => if stage.pop.isNone then .ok state else .error diverged
  | fuel + 1, stage, state =>
    match stage.pop with
    | none => .ok state
    | some (item, rest) =>
      visit item rest state >>= fun next => worklist visit diverged fuel next.1 next.2

theorem worklist_yields
    {visit : α → OrderedSet α rank → State → Except Halt (OrderedSet α rank × State)}
    {diverged : Halt} {expected : Halt → Prop} (measure : OrderedSet α rank → State → Nat)
    (invariant : OrderedSet α rank → State → Prop)
    (round : ∀ stage state item, invariant stage state → item ∈ stage →
      0 < measure stage state ∧ Yields (visit item (stage.erase item) state) expected fun next =>
        invariant next.1 next.2 ∧ measure next.1 next.2 < measure stage state)
    (fuel : Nat) {stage : OrderedSet α rank} {state : State} (initially : invariant stage state)
    (enough : measure stage state ≤ fuel) :
    Yields (worklist visit diverged fuel stage state) expected fun final =>
      ∃ stage, invariant stage final ∧ ∀ item, item ∉ stage := by
  induction fuel generalizing stage state with
  | zero =>
    cases popped : stage.pop with
    | none =>
      rw [worklist, popped]
      exact ⟨stage, initially, pop_eq_none popped⟩
    | some next =>
      obtain ⟨positive, _⟩ := round stage state next.1 initially
        (pop_eq_some popped).1
      omega
  | succ fuel ih =>
    cases popped : stage.pop with
    | none =>
      rw [worklist, popped]
      exact ⟨stage, initially, pop_eq_none popped⟩
    | some next => ?_
    obtain ⟨item, rest⟩ := next
    obtain ⟨member, erased⟩ := pop_eq_some popped
    obtain ⟨_, visited⟩ := round stage state item initially member
    rw [worklist, popped, erased]
    refine .bind (visited.weaken ?_)
    intro after kept
    exact ih kept.1 (by omega)

end Worklist

section Search

open Relation

variable {α : Type} {rank : α → Nat} [DecidableEq α]

def Reached (edge : α → α → Prop) (start : α → Prop) (item : α) : Prop :=
  ∃ first, start first ∧ ReflTransGen edge first item

/-- What a search keeps: it has started, it has not left what is reached, and only staged
items have successors it has not met. Known items count as done from the start. -/
structure Search (edge : α → α → Prop) (start : α → Prop) (known stage done : OrderedSet α rank) :
    Prop where
  staged : ∀ item, item ∈ stage → Reached edge start item
  sound : ∀ item, item ∈ done → item ∈ known ∨ Reached edge start item
  kept : ∀ item, item ∈ known → item ∈ done
  started : ∀ item, start item → item ∈ done ∨ item ∈ stage
  complete : ∀ item, item ∈ done → ∀ next, edge item next → next ∈ done ∨ next ∈ stage

variable {edge : α → α → Prop} {start : α → Prop} {known stage done : OrderedSet α rank}

omit [DecidableEq α] in
theorem Search.closed (search : Search edge start known stage done) (ended : ∀ item, item ∉ stage)
    (item : α) : item ∈ done ↔ item ∈ known ∨ Reached edge start item := by
  refine ⟨search.sound item, ?_⟩
  rintro (old | ⟨first, starts, path⟩)
  · exact search.kept item old
  · induction path with
    | refl => exact (search.started first starts).resolve_right (ended first)
    | tail _ step ih => exact (search.complete _ ih _ step).resolve_right (ended _)

variable {after : OrderedSet α rank} {item : α} (staged : item ∈ stage)
  (staging : ∀ next, next ∈ after ↔
    (next ≠ item ∧ next ∈ stage) ∨ edge item next ∧ next ∉ done.insert item)

include staged staging

theorem Search.visit (search : Search edge start known stage done) :
    Search edge start known after (done.insert item) where
  staged next isStaged := by
    rcases (staging next).mp isStaged with ⟨_, before⟩ | ⟨step, _⟩
    · exact search.staged next before
    · obtain ⟨first, starts, path⟩ := search.staged item staged
      exact ⟨first, starts, path.tail step⟩
  sound other isDone := by
    rcases mem_insert.mp isDone with same | before
    · exact .inr (same ▸ search.staged item staged)
    · exact search.sound other before
  kept other old := mem_insert.mpr (.inr (search.kept other old))
  started first starts := by
    by_cases same : first = item
    · exact .inl (mem_insert.mpr (.inl same))
    · rcases search.started first starts with isDone | isStaged
      · exact .inl (mem_insert.mpr (.inr isDone))
      · exact .inr ((staging first).mpr (.inl ⟨same, isStaged⟩))
  complete other isDone next step := by
    by_cases already : next ∈ done.insert item
    · exact .inl already
    · refine .inr ((staging next).mpr ?_)
      rcases mem_insert.mp isDone with same | before
      · exact .inr ⟨same ▸ step, already⟩
      · rw [mem_insert, not_or] at already
        exact .inl ⟨already.1, (search.complete other before next step).resolve_left already.2⟩

theorem Search.pending_lt {items : Finset α} (member : item ∈ items) :
    pending items after (done.insert item) < pending items stage done := by
  have isDone : item ∈ done.insert item := mem_insert.mpr (.inl rfl)
  refine OrderedSet.pending_lt member staged ?_ isDone ?_ ?_
  · intro again
    rcases (staging item).mp again with ⟨different, _⟩ | ⟨_, notDone⟩
    · exact different rfl
    · exact notDone isDone
  · intro other before
    exact mem_insert.mpr (.inr before)
  · intro other isStaged
    rcases (staging other).mp isStaged with ⟨_, before⟩ | ⟨_, notDone⟩
    · exact .inl before
    · exact .inr fun before => notDone (mem_insert.mpr (.inr before))

theorem Search.round (search : Search edge start known stage done) {items : Finset α}
    (member : item ∈ items) : Search edge start known after (done.insert item) ∧
      pending items after (done.insert item) < pending items stage done :=
  ⟨search.visit staged staging, pending_lt staged staging member⟩

end Search

namespace Program

variable {State Halt α : Type}

def forEach (body : α → Program State Halt Unit) : List α → Program State Halt Unit
  | [] => pure ()
  | item :: items => do
    body item
    forEach body items

variable {body : α → Program State Halt Unit} {expected : Halt → Prop}

theorem meets_forEach (invariant : List α → State → Prop)
    (round : ∀ item items state, invariant (item :: items) state →
      Meets (body item) state expected fun _ after => invariant items after)
    (items : List α) {state : State} (initially : invariant items state) :
    Meets (forEach body items) state expected fun _ after => invariant [] after := by
  induction items generalizing state with
  | nil => exact meets_pure initially
  | cons item items ih =>
    exact .bind ((round item items state initially).weaken fun _ _ kept => ih kept)

theorem keeps_forEach {invariant : State → Prop} (round : ∀ item, Keeps invariant (body item))
    (items : List α) : Keeps invariant (forEach body items) :=
  fun _ => meets_forEach (fun _ => invariant) (fun item _ => round item) items

theorem meets_forEach_nodup (invariant : (α → Prop) → State → Prop) {items : List α}
    (nodup : items.Nodup)
    (round : ∀ done item state, item ∈ items → ¬ done item → invariant done state →
      Meets (body item) state expected fun _ after =>
        invariant (fun other => done other ∨ other = item) after)
    {state : State} (initially : invariant (fun _ => False) state) :
    Meets (forEach body items) state expected fun _ after => invariant (· ∈ items) after := by
  refine (meets_forEach (fun rest state => ∃ before, before ++ rest = items ∧
    invariant (· ∈ before) state) ?_ items ?_).weaken ?_
  · rintro item rest state ⟨before, rfl, holds⟩
    have fresh : item ∉ before := by
      intro listed
      exact (List.nodup_append.mp nodup).2.2 item listed item List.mem_cons_self rfl
    refine (round _ item state (List.mem_append_right _ List.mem_cons_self) fresh holds).weaken ?_
    intro _ after kept
    refine ⟨before ++ [item], List.append_assoc _ _ _, ?_⟩
    have same : (fun other => other ∈ before ++ [item]) = fun other =>
        other ∈ before ∨ other = item := by
      funext other
      rw [List.mem_append, List.mem_singleton]
    rw [same]
    exact kept
  · refine ⟨[], rfl, ?_⟩
    have nothing : (fun other : α => other ∈ ([] : List α)) = fun _ => False := by
      funext other
      exact eq_false List.not_mem_nil
    rw [nothing]
    exact initially
  · rintro _ after ⟨before, rfl, holds⟩
    rw [List.append_nil]
    exact holds

end Program

end Adonai
