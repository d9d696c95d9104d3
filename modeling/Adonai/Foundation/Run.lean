/-
Runs of a machine given by a step function, and invariants of such runs.

A run is a list of inputs; what an input may be can depend on the state in which
it arrives.
-/

import Mathlib.Order.Defs.PartialOrder

namespace Adonai.Run

variable {State Input : Type*}

def run (step : State → Input → State) (state : State) (inputs : List Input) : State :=
  inputs.foldl step state

/-- Every input of the run is allowed in the state in which it arrives. -/
def Along (step : State → Input → State) (allowed : State → Input → Prop) :
    State → List Input → Prop
  | _, [] => True
  | state, input :: inputs => allowed state input ∧ Along step allowed (step state input) inputs

variable {allowed : State → Input → Prop} {step : State → Input → State}

theorem along_of_all (all : ∀ state input, allowed state input) (state : State)
    (inputs : List Input) :
    Along step allowed state inputs := by
  induction inputs generalizing state with
  | nil => trivial
  | cons input inputs ih => exact ⟨all state input, ih (step state input)⟩

theorem invariant (holds : State → Prop)
    (keep : ∀ state input, holds state → allowed state input → holds (step state input))
    {state : State} {inputs : List Input} (initially : holds state)
    (along : Along step allowed state inputs) : holds (run step state inputs) := by
  induction inputs generalizing state with
  | nil => exact initially
  | cons input inputs ih => exact ih (keep state input initially along.1) along.2

section Replies

variable {Abstract Reply : Type*}

def trace (step : State → Input → State × Reply) : State → List Input → State × List Reply
  | state, [] => (state, [])
  | state, input :: inputs =>
    let after := step state input
    let rest := trace step after.1 inputs
    (rest.1, after.2 :: rest.2)

variable {step : State → Input → State × Reply} {inputs : List Input}

/-- A concrete machine that keeps up with an abstract one, reply for reply, while
the abstract machine allows the inputs. -/
theorem simulation {abstractStep : Abstract → Input → Abstract × Reply}
    {allowed : Abstract → Input → Prop} (related : State → Abstract → Prop)
    (keep : ∀ state spec input, related state spec → allowed spec input →
      related (step state input).1 (abstractStep spec input).1 ∧
        (step state input).2 = (abstractStep spec input).2)
    {state : State} {spec : Abstract} (initially : related state spec)
    (along : Along (fun spec input => (abstractStep spec input).1) allowed spec inputs) :
    related (trace step state inputs).1 (trace abstractStep spec inputs).1 ∧
      (trace step state inputs).2 = (trace abstractStep spec inputs).2 := by
  induction inputs generalizing state spec with
  | nil => exact ⟨initially, rfl⟩
  | cons input inputs ih =>
    obtain ⟨next, reply⟩ := keep state spec input initially along.1
    obtain ⟨final, replies⟩ := ih next along.2
    refine ⟨final, ?_⟩
    rw [trace, trace, reply, replies]

theorem mem_trace_replies {state : State} {reply : Reply}
    (member : reply ∈ (trace step state inputs).2) :
    ∃ reached input, (step reached input).2 = reply := by
  induction inputs generalizing state with
  | nil => cases member
  | cons input inputs ih =>
    rw [trace, List.mem_cons] at member
    rcases member with same | later
    · exact ⟨state, input, same.symm⟩
    · exact ih later

end Replies

end Adonai.Run
