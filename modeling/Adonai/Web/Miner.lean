/-
The miner of the web server.

A start begins a loop: a child process is launched, and when it closes a timer launches the next
one. The callbacks of a loop test `miner.process` only, which a later start sets again. A start
without an address waits for the node.
-/

import Mathlib.Data.List.Basic

namespace Adonai.Miner

variable {Address : Type}

/-- A loop of `spawnMiner`: its child runs, or its timer is pending. No code reads the rest: whether
there was a stop since the loop began, and which address a request was last answered with. -/
structure Loop (Address : Type) where
  address : Address
  pending : Bool
  stopped : Bool
  answered : Option Address
  deriving DecidableEq

/-- `process` tells whether `miner.process` is set, and `starts` counts the requests that wait.
`halted` is read by no code: no request to start came after the last request to stop. -/
structure State (Address : Type) where
  process : Bool
  address : Option Address
  loops : List (Loop Address)
  starts : Nat
  halted : Bool
  deriving DecidableEq

def State.initial : State Address where
  process := false
  address := none
  loops := []
  starts := 0
  halted := false

/-- A request without an address is answered with one later, or fails. Loops are named by their
positions. -/
inductive Event (Address : Type) where
  | start (address : Option Address)
  | answer (address : Option Address)
  | stop
  | close (position : Nat)
  | timer (position : Nat)

def mine (address : Address) (miner : State Address) : State Address :=
  if miner.process then
    { miner with
      address := some address
      loops := miner.loops.map fun loop => { loop with answered := some address } }
  else
    { miner with
      process := true
      address := some address
      loops := miner.loops ++ [⟨address, false, false, none⟩] }

/-- A callback of a loop: the loop goes on if there is a process, and ends otherwise. -/
def goOn (position : Nat) (loop : Loop Address) (miner : State Address) : State Address :=
  { miner with
    loops :=
      if miner.process then miner.loops.set position { loop with pending := !loop.pending }
      else miner.loops.eraseIdx position }

variable (miner : State Address)

/-- An event that cannot occur changes nothing. -/
def step : Event Address → State Address
  | .start none =>
    if miner.process then miner
    else { miner with starts := miner.starts + 1, halted := false }
  | .start (some address) =>
    if miner.process then miner else mine address { miner with halted := false }
  | .answer none => { miner with starts := miner.starts - 1 }
  | .answer (some address) =>
    if miner.starts = 0 then miner else mine address { miner with starts := miner.starts - 1 }
  | .stop =>
    if miner.process then
      { miner with
        process := false
        address := none
        loops := miner.loops.map fun loop => { loop with stopped := true }
        halted := true }
    else { miner with halted := true }
  | .close position =>
    match miner.loops[position]? with
    | none => miner
    | some loop => if loop.pending then miner else goOn position loop miner
  | .timer position =>
    match miner.loops[position]? with
    | none => miner
    | some loop => if loop.pending then goOn position loop miner else miner

def launch : Event Address → Option (Loop Address)
  | .start (some address) => if miner.process then none else some ⟨address, false, false, none⟩
  | .answer (some address) =>
    if miner.starts = 0 ∨ miner.process then none else some ⟨address, false, false, none⟩
  | .timer position =>
    miner.loops[position]?.filter fun loop => loop.pending && miner.process
  | _ => none

/-- At most one loop can relaunch. A loop that launches a process was not stopped and mines to
the address that is reported, and a start came after the last stop. -/
structure SafeStep (miner : State Address) (event : Event Address) : Prop where
  single : (step miner event).process = true → (step miner event).loops.length ≤ 1
  unstopped : ∀ loop, launch miner event = some loop → loop.stopped = false
  reported : ∀ loop, launch miner event = some loop → (step miner event).address = some loop.address
  started : ∀ loop, launch miner event = some loop → (step miner event).halted = false

/-- A loop begins after all others have ended. No request is answered after a stop, or with another
address than that of a loop that relaunches later. -/
def Undisturbed (event : Event Address) : Prop :=
  ∀ loop, launch miner event = some loop →
    match event with
    | .timer _ => ∀ address, loop.answered = some address → address = loop.address
    | .answer _ => miner.loops = [] ∧ miner.halted = false
    | _ => miner.loops = []

def Along (property : State Address → Event Address → Prop) :
    (miner : State Address) → List (Event Address) → Prop
  | _, [] => True
  | miner, event :: events => property miner event ∧ Along property (step miner event) events

/-- While there is a process, one loop at most is left, which decides with the answers since it
began what is reported, and the stops are over. -/
def Tame : Prop :=
  miner.process = true →
    miner.loops.length ≤ 1 ∧
      (∀ loop ∈ miner.loops,
        loop.stopped = false ∧ miner.address = some (loop.answered.getD loop.address)) ∧
      miner.halted = false

variable {miner} {event : Event Address} {loop : Loop Address}

theorem launch_cases (launched : launch miner event = some loop) :
    (miner.process = false ∧ loop.stopped = false ∧
      ∃ earlier, earlier.process = false ∧ step miner event = mine loop.address earlier) ∨
    ∃ position, event = .timer position ∧ miner.loops[position]? = some loop ∧
      miner.process = true ∧ step miner event = goOn position loop miner := by
  match event with
  | .start (some address) =>
    obtain ⟨isOff, begun⟩ := Option.ite_none_left_eq_some.mp launched
    obtain rfl := Option.some.inj begun
    rw [Bool.not_eq_true] at isOff
    exact .inl ⟨isOff, rfl, { miner with halted := false }, isOff,
      if_neg (Bool.not_eq_true _ ▸ isOff)⟩
  | .answer (some address) =>
    obtain ⟨waiting, begun⟩ := Option.ite_none_left_eq_some.mp launched
    obtain rfl := Option.some.inj begun
    rw [not_or, Bool.not_eq_true] at waiting
    exact .inl ⟨waiting.2, rfl, { miner with starts := miner.starts - 1 }, waiting.2,
      if_neg waiting.1⟩
  | .timer position =>
    obtain ⟨found, due⟩ := Option.filter_eq_some_iff.mp launched
    rw [Bool.and_eq_true] at due
    refine .inr ⟨position, rfl, found, due.2, ?_⟩
    simp only [step, found, due.1, if_true]

private theorem Tame.goOn (tame : Tame miner) {position : Nat}
    (found : miner.loops[position]? = some loop) : Tame (goOn position loop miner) := by
  intro isOn
  change miner.process = true at isOn
  obtain ⟨single, unstopped, started⟩ := tame isOn
  simp only [Miner.goOn, isOn, if_true, List.length_set]
  refine ⟨single, ?_, started⟩
  intro other member
  rcases List.mem_or_eq_of_mem_set member with before | rfl
  · exact unstopped other before
  · exact unstopped loop (List.mem_of_getElem? found)

private theorem Tame.mine (tame : Tame miner) {address : Address}
    (alone : miner.process = false → miner.loops = [] ∧ miner.halted = false) :
    Tame (mine address miner) := by
  unfold Miner.mine
  split
  next isOn =>
    obtain ⟨single, unstopped, started⟩ := tame isOn
    refine fun _ => ⟨(List.length_map _).symm ▸ single, ?_, started⟩
    exact List.forall_mem_map.mpr fun loop member => ⟨(unstopped loop member).1, rfl⟩
  next isOff =>
    obtain ⟨ended, started⟩ := alone (Bool.eq_false_iff.mpr isOff)
    intro _
    rw [ended]
    exact ⟨Nat.le_refl 1, List.forall_mem_singleton.mpr ⟨rfl, rfl⟩, started⟩

theorem Tame.step (tame : Tame miner) (undisturbed : Undisturbed miner event) :
    Tame (step miner event) := by
  match event with
  | .start none =>
    rw [Miner.step]
    split
    · exact tame
    next isOff => exact fun isOn => absurd isOn isOff
  | .start (some address) =>
    rw [Miner.step]
    split
    · exact tame
    next isOff =>
      have before : Tame { miner with halted := false } := fun isOn => absurd isOn isOff
      apply before.mine
      intro _
      exact ⟨undisturbed _ (if_neg isOff), rfl⟩
  | .answer none => exact tame
  | .answer (some address) =>
    rw [Miner.step]
    split
    · exact tame
    next waiting =>
      have before : Tame { miner with starts := miner.starts - 1 } := tame
      apply before.mine
      intro isOff
      exact undisturbed _ (if_neg (not_or.mpr ⟨waiting, Bool.not_eq_true _ ▸ isOff⟩))
  | .stop =>
    rw [Miner.step]
    split
    · exact nofun
    next isOff => exact fun isOn => absurd isOn isOff
  | .close position | .timer position =>
    simp only [Miner.step]
    split
    · exact tame
    next found =>
      split
      all_goals first | exact tame | exact tame.goOn found

private theorem Tame.reported_iff (tame : Tame miner) (isOn : miner.process = true) {position : Nat}
    (found : miner.loops[position]? = some loop) : miner.address = some loop.address ↔
      ∀ address, loop.answered = some address → address = loop.address := by
  rw [((tame isOn).2.1 loop (List.mem_of_getElem? found)).2, Option.some_inj]
  cases loop.answered with
  | none => exact iff_of_true rfl nofun
  | some address =>
    exact ⟨fun same _ answered => Option.some.inj answered ▸ same, fun all => all address rfl⟩

theorem safeStep_iff (tame : Tame miner) : SafeStep miner event ↔ Undisturbed miner event := by
  constructor
  · intro safe loop launched
    match event with
    | .start (some address) =>
      have isOff := (Option.ite_none_left_eq_some.mp launched).1
      have single := safe.single
      simpa [step, mine, isOff] using single
    | .answer (some address) =>
      have waiting := not_or.mp (Option.ite_none_left_eq_some.mp launched).1
      have single := safe.single
      have started := safe.started loop launched
      simp [step, mine, waiting] at single started
      exact ⟨single, started⟩
    | .timer position =>
      rcases launch_cases launched with ⟨isOff, -⟩ | ⟨_, -, found, isOn, stepped⟩
      · simp [launch, isOff] at launched
      · have reported := safe.reported loop launched
        rw [stepped] at reported
        exact (tame.reported_iff isOn found).mp reported
  · intro undisturbed
    have after := tame.step undisturbed
    have running (loop) (launched : launch miner event = some loop) :
        (step miner event).process = true := by
      rcases launch_cases launched with ⟨-, -, _, isOff, stepped⟩ | ⟨_, -, -, isOn, stepped⟩
      · simp [stepped, mine, isOff]
      · simp [stepped, goOn, isOn]
    constructor
    · exact fun isOn => (after isOn).1
    · intro loop launched
      rcases launch_cases launched with ⟨-, fresh, -⟩ | ⟨_, -, found, isOn, -⟩
      · exact fresh
      · exact ((tame isOn).2.1 loop (List.mem_of_getElem? found)).1
    · intro loop launched
      rcases launch_cases launched with ⟨-, -, _, isOff, stepped⟩ | ⟨_, rfl, found, isOn, stepped⟩
      · simp [stepped, mine, isOff]
      · rw [stepped]
        exact (tame.reported_iff isOn found).mpr (undisturbed loop launched)
    · exact fun loop launched => (after (running loop launched)).2.2

/-- A run is safe exactly when each loop begins after all others have ended, no stop comes between a
request and its answer, and no answer changes the address of a loop that relaunches. -/
theorem run_safe_iff (events : List (Event Address)) :
    Along SafeStep State.initial events ↔ Along Undisturbed State.initial events := by
  suffices general : ∀ miner : State Address, Tame miner →
      (Along SafeStep miner events ↔ Along Undisturbed miner events) from
    general State.initial nofun
  induction events with
  | nil => exact fun _ _ => Iff.rfl
  | cons event events ih =>
    intro miner tame
    rw [Along, safeStep_iff tame]
    exact and_congr_right fun undisturbed => ih _ (tame.step undisturbed)

/-- After a stop and a new start the child of the first loop closes late, and its timer launches
a process for the first address. -/
theorem stopped_loop_launches :
    ∃ miner : State Bool, miner = [.start (some true), .stop, .start (some false), .close 0].foldl
        step State.initial ∧
      launch miner (.timer 0) = some ⟨true, true, true, none⟩ ∧
      (step miner (.timer 0)).address = some false ∧ (step miner (.timer 0)).loops.length = 2 ∧
      ¬Along SafeStep State.initial
        [.start (some true), .stop, .start (some false), .close 0, .timer 0] := by
  refine ⟨_, rfl, by decide, by decide, by decide, ?_⟩
  intro safe
  exact absurd (safe.2.2.2.2.1.single rfl) (by decide)

end Adonai.Miner
