/-
Readers of byte streams and what they read.

`Reads reader bytes value`: the reader takes exactly these bytes off any stream and returns the
value. `Returns reader holds`: it returns only values with a property. `Takes reader holds`: it
takes only bytes that have the property with the value.
-/

import Mathlib.Init

namespace Adonai

abbrev Reader (α : Type) := StateT (List UInt8) Option α

namespace Reader

variable {α β : Type}

def Reads (reader : Reader α) (bytes : List UInt8) (value : α) : Prop :=
  ∀ rest, reader (bytes ++ rest) = some (value, rest)

theorem reads_pure (value : α) : Reads (pure value) [] value := fun _ => rfl

variable {reader : Reader α} {next : α → Reader β} {value : α}

theorem Reads.bind {bytes more : List UInt8} {result : β} (first : Reads reader bytes value)
    (second : Reads (next value) more result) :
    Reads (reader >>= next) (bytes ++ more) result := by
  intro rest
  rw [List.append_assoc]
  simp only [Bind.bind, StateT.bind, first (more ++ rest)]
  exact second rest

theorem Reads.map {bytes : List UInt8} (reads : Reads reader bytes value) (image : α → β) :
    Reads (reader >>= fun value => pure (image value)) bytes (image value) := by
  have both : Reads (reader >>= fun value => pure (image value)) (bytes ++ []) (image value) :=
    reads.bind (reads_pure (image value))
  rw [List.append_nil] at both
  exact both

def readBytes (count : Nat) : Reader (List UInt8) := fun bytes =>
  if bytes.length < count then none else some (bytes.take count, bytes.drop count)

theorem reads_bytes {bytes : List UInt8} {count : Nat} (length : bytes.length = count) :
    Reads (readBytes count) bytes bytes := by
  intro rest
  unfold readBytes
  rw [if_neg, List.take_left' length, List.drop_left' length]
  rw [List.length_append]
  omega

def readByte : Reader UInt8
  | [] => none
  | byte :: rest => some (byte, rest)

theorem reads_byte (byte : UInt8) : Reads readByte [byte] byte := fun _ => rfl

def readMany (reader : Reader α) : Nat → Reader (List α)
  | 0 => pure []
  | count + 1 => do
    let value ← reader
    let values ← readMany reader count
    pure (value :: values)

theorem reads_many {write : α → List UInt8} (values : List α)
    (each : ∀ value ∈ values, Reads reader (write value) value) :
    Reads (readMany reader values.length) (values.flatMap write) values := by
  induction values with
  | nil => exact reads_pure []
  | cons value values ih =>
    have rest := ih fun other member => each other (List.mem_cons_of_mem _ member)
    exact (each value List.mem_cons_self).bind (rest.map (value :: ·))

def Returns (reader : Reader α) (holds : α → Prop) : Prop :=
  ∀ bytes value rest, reader bytes = some (value, rest) → holds value

def Takes (reader : Reader α) (holds : List UInt8 → α → Prop) : Prop :=
  ∀ bytes value rest, reader bytes = some (value, rest) →
    ∃ taken, bytes = taken ++ rest ∧ holds taken value

variable {holds : List UInt8 → α → Prop}

theorem takes_pure (has : holds [] value) : Takes (pure value) holds := by
  intro bytes other rest reads
  cases reads
  exact ⟨[], rfl, has⟩

theorem takes_failure (holds : List UInt8 → α → Prop) : Takes (failure : Reader α) holds := by
  intro bytes value rest reads
  cases reads

theorem Takes.bind {then_ : List UInt8 → β → Prop} (first : Takes reader holds)
    (second : ∀ front value, holds front value →
      Takes (next value) fun back => then_ (front ++ back)) :
    Takes (reader >>= next) then_ := by
  intro bytes result rest reads
  simp only [Bind.bind, StateT.bind, Option.bind_eq_some_iff] at reads
  obtain ⟨⟨value, after⟩, reads, later⟩ := reads
  obtain ⟨front, rfl, has⟩ := first bytes value after reads
  obtain ⟨back, rfl, both⟩ := second front value has after result rest later
  exact ⟨front ++ back, (List.append_assoc ..).symm, both⟩

theorem Takes.mono {then_ : List UInt8 → α → Prop} (takes : Takes reader holds)
    (weaker : ∀ taken value, holds taken value → then_ taken value) : Takes reader then_ := by
  intro bytes value rest reads
  obtain ⟨taken, whole, has⟩ := takes bytes value rest reads
  exact ⟨taken, whole, weaker taken value has⟩

theorem Takes.map {then_ : List UInt8 → β → Prop} (takes : Takes reader holds) {image : α → β}
    (has : ∀ taken value, holds taken value → then_ taken (image value)) :
    Takes (reader >>= fun value => pure (image value)) then_ := by
  refine takes.bind fun front value both => takes_pure ?_
  rw [List.append_nil]
  exact has front value both

theorem takes_byte : Takes readByte fun taken byte => taken = [byte] := by
  intro bytes byte rest reads
  cases bytes with
  | nil => cases reads
  | cons first bytes =>
    cases reads
    exact ⟨[byte], rfl, rfl⟩

theorem takes_bytes (count : Nat) :
    Takes (readBytes count) fun taken value => taken = value ∧ value.length = count := by
  intro bytes value rest reads
  unfold readBytes at reads
  split at reads
  · cases reads
  next enough =>
    cases reads
    exact ⟨_, (List.take_append_drop count bytes).symm, rfl,
      List.length_take_of_le (Nat.not_lt.mp enough)⟩

theorem takes_many {write : α → List UInt8} {has : α → Prop}
    (each : Takes reader fun taken value => taken = write value ∧ has value) (count : Nat) :
    Takes (readMany reader count) fun taken values =>
      taken = values.flatMap write ∧ values.length = count ∧ ∀ value ∈ values, has value := by
  induction count with
  | zero => exact takes_pure ⟨rfl, rfl, List.forall_mem_nil _⟩
  | succ count ih =>
    refine each.bind fun front value ⟨written, first⟩ => ih.map fun back values both => ?_
    obtain ⟨rfl, length, later⟩ := both
    rw [written, List.forall_mem_cons]
    exact ⟨rfl, congrArg Nat.succ length, first, later⟩

end Reader

end Adonai
