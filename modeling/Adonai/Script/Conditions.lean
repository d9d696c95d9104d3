/-
The condition stack beside the vector of booleans that it stands for.

A vector lists its values from the back. The stack is the one that pushing them all gives, while
there are fewer of them than 32 bits can count.
-/

import Adonai.Foundation.Run
import Adonai.Script.Interpreter

namespace Adonai.Script.ConditionStack

inductive Operation where
  | pushBack (f : Bool)
  | popBack
  | toggleTop
  deriving DecidableEq

def perform (conditions : ConditionStack) : Operation → Outcome ConditionStack
  | .pushBack f => .ok (conditions.pushBack f)
  | .popBack => conditions.popBack
  | .toggleTop => conditions.toggleTop

/-- Only an empty vector has no top. -/
def Legal (values : List Bool) : Operation → Prop
  | .pushBack _ => True
  | .popBack | .toggleTop => values ≠ []

def performVector (values : List Bool) : Operation → List Bool
  | .pushBack f => f :: values
  | .popBack => values.tail
  | .toggleTop => values.modifyHead not

def ofVector (values : List Bool) : ConditionStack := values.foldr pushBack {}

theorem ofVector_cons (f : Bool) (values : List Bool) :
    ofVector (f :: values) = (ofVector values).pushBack f := rfl

private theorem size_ofVector (values : List Bool) :
    (ofVector values).m_stack_size = UInt32.ofNat values.length := by
  induction values with
  | nil => rfl
  | cons f values ih =>
    rw [ofVector_cons, pushBack, ih, List.length_cons, UInt32.ofNat_add]
    rfl

variable {values : List Bool}

theorem toNat_size_ofVector (fits : values.length < 2 ^ 32) :
    (ofVector values).m_stack_size.toNat = values.length := by
  rw [size_ofVector]
  exact Nat.mod_eq_of_lt fits

private theorem ne_NO_FALSE {position : UInt32} (low : position.toNat + 1 < 2 ^ 32) :
    position ≠ NO_FALSE := by
  rintro rfl
  exact absurd low (by decide)

theorem first_false_ofVector (fits : values.length < 2 ^ 32) :
    (ofVector values).m_first_false_pos = NO_FALSE ∧ values.all id = true ∨
      ((ofVector values).m_first_false_pos ≠ NO_FALSE ∧
        (ofVector values).m_first_false_pos.toNat < values.length) ∧ values.all id = false := by
  induction values with
  | nil => exact .inl ⟨rfl, rfl⟩
  | cons f values ih =>
    rw [List.length_cons] at fits ⊢
    have size := toNat_size_ofVector (Nat.lt_of_succ_lt fits)
    rw [ofVector_cons, List.all_cons]
    rcases ih (by omega) with ⟨absent, all⟩ | ⟨⟨present, below⟩, notAll⟩
    · have top := ne_NO_FALSE (size ▸ fits)
      cases f <;> simp [pushBack, absent, all, top, size]
    · simp [pushBack, present, notAll, Nat.lt_succ_of_lt below]

theorem perform_ofVector {operation : Operation} (legal : Legal values operation)
    (fits : values.length < 2 ^ 32) :
    perform (ofVector values) operation = .ok (ofVector (performVector values operation)) := by
  cases operation with
  | pushBack f => rfl
  | popBack | toggleTop =>
    cases values with
    | nil => cases legal rfl
    | cons f values =>
      rw [List.length_cons] at fits
      have size := toNat_size_ofVector (Nat.lt_of_succ_lt fits)
      have first := first_false_ofVector (Nat.lt_of_succ_lt fits)
      simp only [performVector, List.tail_cons, List.modifyHead_cons, ofVector_cons]
      generalize ofVector values = conditions at *
      obtain ⟨m_stack_size, m_first_false_pos⟩ := conditions
      dsimp only at size
      have top := (ne_NO_FALSE (size ▸ fits)).symm
      have nonempty : 0 < m_stack_size + 1 := by
        rw [UInt32.lt_iff_toNat_lt, UInt32.toNat_add, size]
        exact (Nat.mod_eq_of_lt fits).symm ▸ Nat.succ_pos _
      rcases first with ⟨absent, _⟩ | ⟨⟨present, below⟩, _⟩
      · cases f <;> simp_all [perform, popBack, toggleTop, pushBack, assert, ensure]
      · have lower : m_first_false_pos ≠ m_stack_size := by
          rintro rfl
          exact below.ne size
        simp_all [perform, popBack, toggleTop, pushBack, assert, ensure]

def Shallow (values : List Bool) (operation : Operation) : Prop :=
  (performVector values operation).length < 2 ^ 32

variable {operations : List Operation}

private theorem foldlM_ofVector (legal : Run.Along performVector Legal values operations)
    (fits : values.length < 2 ^ 32) (shallow : Run.Along performVector Shallow values operations) :
    operations.foldlM perform (ofVector values) =
        .ok (ofVector (Run.run performVector values operations)) ∧
      (Run.run performVector values operations).length < 2 ^ 32 := by
  induction operations generalizing values with
  | nil => exact ⟨rfl, fits⟩
  | cons operation operations ih =>
    rw [List.foldlM_cons, perform_ofVector legal.1 fits]
    exact ih legal.2 shallow.1 shallow.2

/-- After any legal operations, in which the vector never has `2 ^ 32` values, the stack answers
as the vector does. -/
theorem answers_as_vector (legal : Run.Along performVector Legal [] operations)
    (shallow : Run.Along performVector Shallow [] operations) :
    ∃ conditions, operations.foldlM perform {} = .ok conditions ∧
      conditions.empty = (Run.run performVector [] operations).isEmpty ∧
      conditions.allTrue = (Run.run performVector [] operations).all id := by
  obtain ⟨runs, fits⟩ := foldlM_ofVector legal (by decide) shallow
  refine ⟨_, runs, ?_, ?_⟩
  · rw [empty, Bool.eq_iff_iff, beq_iff_eq, ← UInt32.toNat_inj, toNat_size_ofVector fits]
    simp
  · rcases first_false_ofVector fits with ⟨absent, all⟩ | ⟨⟨present, _⟩, notAll⟩
    · simp [allTrue, absent, all]
    · simp [allTrue, present, notAll]

/-- A false condition over a true one is toggled twice and popped. -/
theorem answers_as_vector_after_pop :
    ∃ conditions, [.pushBack true, .pushBack false, .toggleTop, .toggleTop, .popBack].foldlM
        perform {} = .ok conditions ∧
      conditions.empty = false ∧ conditions.allTrue = true :=
  answers_as_vector (by simp [Run.Along, Legal, performVector])
    (by simp [Run.Along, Shallow, performVector])

theorem push_all (pushed values : List Bool) :
    Run.Along performVector Legal values (pushed.map .pushBack) ∧
      Run.run performVector values (pushed.map .pushBack) = pushed.reverse ++ values ∧
      (pushed.map .pushBack).foldlM perform (ofVector values) =
        .ok (ofVector (pushed.reverse ++ values)) := by
  induction pushed generalizing values with
  | nil => exact ⟨trivial, rfl, rfl⟩
  | cons f pushed ih =>
    rw [List.reverse_cons, List.append_assoc]
    exact ⟨⟨trivial, (ih _).1⟩, (ih _).2⟩

/-- With `2 ^ 32` values the size is zero again, and the position of the last one is that of no
false value. -/
theorem deep_stack_forgets :
    ∃ (operations : List Operation) (conditions : ConditionStack),
      Run.Along performVector Legal [] operations ∧
      operations.foldlM perform {} = .ok conditions ∧
      ((Run.run performVector [] operations).isEmpty = false ∧ conditions.empty = true) ∧
      (Run.run performVector [] operations).all id = false ∧ conditions.allTrue = true := by
  have absent : ∀ count < 2 ^ 32,
      (ofVector (List.replicate count true)).m_first_false_pos = NO_FALSE := fun count fits =>
    ((first_false_ofVector (by simpa using fits)).resolve_right (by simp)).1
  obtain ⟨legal, isVector, runs⟩ := push_all (List.replicate (2 ^ 32 - 1) true ++ [false]) []
  rw [List.reverse_append, List.append_nil, List.reverse_replicate] at isVector runs
  refine ⟨_, _, legal, runs, ?_⟩
  rw [isVector]
  refine ⟨⟨rfl, ?_⟩, rfl, ?_⟩
  · rw [empty, size_ofVector, List.length_append, List.length_replicate]
    rfl
  · change (ofVector (false :: List.replicate (2 ^ 32 - 1) true)).allTrue = true
    rw [allTrue, ofVector_cons, pushBack, if_pos ⟨absent _ (by decide), rfl⟩, size_ofVector,
      List.length_replicate]
    rfl

end Adonai.Script.ConditionStack
