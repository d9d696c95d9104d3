/-
Programs that pass a state along and may halt, and rules for what they ensure.

`Meets` speaks about both ways a program can end: a result with the postcondition, or a halt that
was expected. With no halt expected it is total correctness, with every halt partial correctness.
-/

import Mathlib.Init

namespace Adonai

abbrev Program (State Halt : Type) := StateT State (Except Halt)

namespace Program

variable {State Halt α β : Type}

def Meets (program : Program State Halt α) (state : State) (expected : Halt → Prop)
    (post : α → State → Prop) : Prop :=
  match program state with
  | .ok (value, after) => post value after
  | .error halt => expected halt

variable {program : Program State Halt α} {state : State} {expected : Halt → Prop}
  {post : α → State → Prop}

theorem Meets.of_ok {value : α} {after : State} (runs : program state = .ok (value, after))
    (ensures : post value after) : Meets program state expected post := by
  rw [Meets, runs]
  exact ensures

theorem Meets.of_error {halt : Halt} (halts : program state = .error halt)
    (allowed : expected halt) : Meets program state expected post := by
  rw [Meets, halts]
  exact allowed

section

variable (meets : Meets program state expected post)

include meets

theorem Meets.result {value : α} {after : State}
    (runs : program state = .ok (value, after)) : post value after := by
  rw [Meets, runs] at meets
  exact meets

theorem Meets.halt {halt : Halt} (halts : program state = .error halt) : expected halt := by
  rw [Meets, halts] at meets
  exact meets

theorem Meets.weaken {weaker : α → State → Prop}
    (imply : ∀ value after, post value after → weaker value after) :
    Meets program state expected weaker := by
  unfold Meets at meets ⊢
  cases runs : program state with
  | ok result =>
    rw [runs] at meets
    exact imply result.1 result.2 meets
  | error halt =>
    rw [runs] at meets
    exact meets

end

theorem meets_pure {value : α} (ensures : post value state) :
    Meets (pure value) state expected post := ensures

theorem meets_throw {halt : Halt} (allowed : expected halt) :
    Meets (throw halt : Program State Halt α) state expected post := allowed

theorem meets_get {post : State → State → Prop} (ensures : post state state) :
    Meets (get : Program State Halt State) state expected post := ensures

variable {computation : Except Halt α}

theorem meets_lift (ensures : ∀ value, computation = .ok value → post value state)
    (halts : ∀ halt, computation = .error halt → expected halt) :
    Meets (liftM computation : Program State Halt α) state expected post := by
  cases outcome : computation with
  | ok value => exact ensures value outcome
  | error halt => exact halts halt outcome

theorem ok_bind (value : α) (next : α → Except Halt β) :
    ((.ok value : Except Halt α) >>= next) = next value := rfl

theorem exists_of_bind_ok {next : α → Except Halt β} {result : β}
    (succeeds : (computation >>= next) = .ok result) :
    ∃ value, computation = .ok value ∧ next value = .ok result := by
  cases computation with
  | error halt => cases succeeds
  | ok value => exact ⟨value, rfl, succeeds⟩

theorem bind_eq_ok_iff {next : α → Except Halt β} {result : β} :
    (computation >>= next) = .ok result ↔
      ∃ value, computation = .ok value ∧ next value = .ok result :=
  ⟨exists_of_bind_ok, fun ⟨_, returns, continues⟩ => returns ▸ continues⟩

/-- A loop whose every round succeeds and keeps what is needed for the next one. -/
theorem exists_foldlM_ok {step : State → α → Except Halt State} {keeps : State → Prop}
    {items : List α} (each : ∀ state, keeps state → ∀ item ∈ items,
      ∃ next, step state item = .ok next ∧ keeps next) (initially : keeps state) :
    ∃ final, items.foldlM step state = .ok final ∧ keeps final := by
  induction items generalizing state with
  | nil => exact ⟨state, rfl, initially⟩
  | cons item items ih =>
    obtain ⟨next, steps, kept⟩ := each state initially item List.mem_cons_self
    rw [List.foldlM_cons, steps]
    exact ih (fun state kept item member => each state kept item (.tail _ member)) kept

theorem exists_ok_of_map {view : α → β} {result : β}
    (evaluates : computation.toOption.map view = some result) :
    ∃ value, computation = .ok value ∧ view value = result := by
  cases computation with
  | error halt => cases evaluates
  | ok value => exact ⟨value, rfl, Option.some.inj evaluates⟩

theorem ok_of_toOption {value : α} (returns : computation.toOption = some value) :
    computation = .ok value := by
  cases computation with
  | error halt => cases returns
  | ok value =>
    cases returns
    rfl

variable {next : α → Program State Halt β}

theorem bind_ok {value : α} {after : State}
    (runs : program state = .ok (value, after)) : (program >>= next) state = next value after := by
  simp only [Bind.bind, StateT.bind, runs, Except.bind]

theorem bind_error {halt : Halt}
    (halts : program state = .error halt) : (program >>= next) state = .error halt := by
  simp only [Bind.bind, StateT.bind, halts, Except.bind]

theorem Meets.bind {final : β → State → Prop}
    (first : Meets program state expected fun value after =>
      Meets (next value) after expected final) : Meets (program >>= next) state expected final := by
  unfold Meets at first ⊢
  cases runs : program state with
  | ok result =>
    rw [runs] at first
    rw [bind_ok runs]
    exact first
  | error halt =>
    rw [runs] at first
    rw [bind_error runs]
    exact first

/-- A program that leaves an invariant standing whenever it returns. -/
def Keeps (invariant : State → Prop) (program : Program State Halt α) : Prop :=
  ∀ state, invariant state → Meets program state (fun _ => True) fun _ after => invariant after

variable {invariant : State → Prop}

theorem keeps_pure (value : α) : Keeps invariant (pure value : Program State Halt α) :=
  fun _ holds => holds

theorem keeps_get : Keeps invariant (get : Program State Halt State) := fun _ holds => holds

theorem keeps_lift (computation : Except Halt α) :
    Keeps invariant (liftM computation : Program State Halt α) :=
  fun _ holds => meets_lift (fun _ _ => holds) fun _ _ => trivial

theorem Keeps.bind (first : Keeps invariant program)
    (rest : ∀ value, Keeps invariant (next value)) : Keeps invariant (program >>= next) :=
  fun state holds => .bind ((first state holds).weaken fun value after => rest value after)

end Program

end Adonai
