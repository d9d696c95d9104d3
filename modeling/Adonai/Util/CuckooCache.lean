/-
The cuckoo cache: every element has eight slots, and an insertion may push others along.

The hash functions and the depth that `setup` takes from a logarithm are arbitrary. A packed flag
is a Boolean: the bytes of `bit_packed_atomic_flags` are not modelled, whose number `(size + 7) / 8`
wraps at the seven largest sizes, so that nothing is said of the code for these.
-/

import Adonai.Foundation.Displacement
import Mathlib.Data.List.FinRange
import Mathlib.Data.List.Induction

namespace Adonai.CuckooCache

structure Config (Element : Type) where
  new_size : UInt32
  depth_limit : UInt8
  hash_function : Fin 8 → Element → UInt32

variable {Element : Type} (config : Config Element)

namespace Config

def size : UInt32 := max 2 config.new_size

def epoch_size : UInt32 := max 1 (45 * config.size / 100)

abbrev Slot : Type := Fin config.size.toNat

private theorem size_pos : 0 < config.size.toNat := by
  change 0 < (if (2 : UInt32) ≤ config.new_size then config.new_size else 2).toNat
  split
  next two => exact Nat.lt_of_lt_of_le Nat.two_pos (UInt32.le_iff_toNat_le.mp two)
  next => decide

def computeHashes (e : Element) (i : Fin 8) : config.Slot :=
  ⟨((config.hash_function i e).toNat * config.size.toNat) >>> 32, by
    rw [Nat.shiftRight_eq_div_pow, Nat.div_lt_iff_lt_mul (by decide), Nat.mul_comm]
    exact Nat.mul_lt_mul_of_pos_left (UInt32.toNat_lt _) config.size_pos⟩

end Config

structure Cache (config : Config Element) where
  table : config.Slot → Element
  collection_flags : config.Slot → Bool
  epoch_flags : config.Slot → Bool
  epoch_heuristic_counter : UInt32

def setup [Inhabited Element] : Cache config where
  table := fun _ => default
  collection_flags := fun _ => true
  epoch_flags := fun _ => false
  epoch_heuristic_counter := config.epoch_size

namespace Cache

variable {config} (cache : Cache config)

def allowErase (n : config.Slot) : Cache config :=
  { cache with collection_flags := Function.update cache.collection_flags n true }

/-- `please_keep`, and the epoch of the slot. -/
def pleaseKeep (n : config.Slot) (epoch : Bool) : Cache config :=
  { cache with
    collection_flags := Function.update cache.collection_flags n false
    epoch_flags := Function.update cache.epoch_flags n epoch }

def epochCheck : Cache config :=
  if cache.epoch_heuristic_counter ≠ 0 then
    { cache with epoch_heuristic_counter := cache.epoch_heuristic_counter - 1 }
  else
    let epoch_unused_count := UInt32.ofNat <| (List.finRange config.size.toNat).countP fun i =>
      cache.epoch_flags i && !cache.collection_flags i
    if epoch_unused_count ≥ config.epoch_size then
      { cache with
        collection_flags := fun i => !cache.epoch_flags i || cache.collection_flags i
        epoch_flags := fun _ => false
        epoch_heuristic_counter := config.epoch_size }
    else
      { cache with
        epoch_heuristic_counter :=
          max 1 (max (config.epoch_size / 16) (config.epoch_size - epoch_unused_count)) }

def place : Nat → Option config.Slot → Bool → Element → Cache config → Cache config
  | 0, _, _, _, cache => cache
  | depth + 1, last_loc, last_epoch, e, cache =>
    let locs := config.computeHashes e
    match (List.finRange 8).find? fun i => cache.collection_flags (locs i) with
    | some i =>
      { cache with table := Function.update cache.table (locs i) e }.pleaseKeep (locs i) last_epoch
    | none =>
      -- a search that fails ends behind the last of the eight
      let found := (List.finRange 8).findIdx fun i => some (locs i) == last_loc
      let loc := locs (Fin.ofNat 8 (1 + found))
      place depth (some loc) (cache.epoch_flags loc) (cache.table loc)
        { cache with
          table := Function.update cache.table loc e
          epoch_flags := Function.update cache.epoch_flags loc last_epoch }

variable [DecidableEq Element]

def find (e : Element) : Option (Fin 8) :=
  (List.finRange 8).find? fun i => cache.table (config.computeHashes e i) = e

def insert (e : Element) (cache : Cache config) : Cache config :=
  let cache := cache.epochCheck
  match cache.find e with
  | some i => cache.pleaseKeep (config.computeHashes e i) true
  | none => place config.depth_limit.toNat none true e cache

def contains (e : Element) (erase : Bool) : Bool × Cache config :=
  match cache.find e with
  | some i => (true, if erase then cache.allowErase (config.computeHashes e i) else cache)
  | none => (false, cache)

end Cache

open Cache Displacement

def Config.Own (e : Element) (slot : config.Slot) : Prop := ∃ i, config.computeHashes e i = slot

variable {config} {cache : Cache config}

theorem place_chain (depth : Nat) (last_loc : Option config.Slot) (last_epoch : Bool) (e : Element)
    (cache : Cache config) :
    ∃ left, Chain config.Own (place depth last_loc last_epoch e cache).table left cache.table
      e := by
  induction depth generalizing last_loc last_epoch e cache with
  | zero => exact ⟨e, .stop ..⟩
  | succ depth ih =>
    rw [place]
    dsimp only
    split
    · exact ⟨_, .swap ⟨_, rfl⟩ (.stop ..)⟩
    · obtain ⟨left, later⟩ := ih _ _ _ _
      exact ⟨left, .swap ⟨_, rfl⟩ later⟩

private theorem epochCheck_table : cache.epochCheck.table = cache.table := by
  unfold epochCheck
  dsimp only
  split_ifs <;> rfl

variable [DecidableEq Element]

private theorem find_isSome {e : Element} :
    (cache.find e).isSome = true ↔ Held config.Own cache.table e := by
  simp [find, Held, Config.Own]

theorem insert_table (e : Element) :
    Held config.Own cache.table e ∧ (cache.insert e).table = cache.table ∨
      ¬Held config.Own cache.table e ∧
        ∃ left, Chain config.Own (cache.insert e).table left cache.table e := by
  rw [← epochCheck_table, ← find_isSome, Cache.insert]
  split
  next found => exact .inl ⟨by rw [found]; rfl, rfl⟩
  next absent => exact .inr ⟨by simp [absent], place_chain ..⟩

private theorem contains_iff {e : Element} {erase : Bool} :
    (cache.contains e erase).1 = true ↔ Held config.Own cache.table e := by
  rw [← find_isSome, contains]
  cases cache.find e <;> simp

theorem contains_table (e : Element) (erase : Bool) :
    (cache.contains e erase).2.table = cache.table := by
  unfold contains
  split
  · cases erase <;> rfl
  · rfl

/-- Contained or about to be, an element is not contained after the insertion. -/
def Lost (cache : Cache config) (e x : Element) : Prop :=
  (x = e ∨ (cache.contains x false).1 = true) ∧ ((cache.insert e).contains x false).1 = false

theorem eq_of_lost {e x y : Element} (xLost : Lost cache e x) (yLost : Lost cache e y) : x = y := by
  simp only [Lost, contains_iff, ← Bool.not_eq_true] at xLost yLost
  rcases insert_table e with ⟨held, same⟩ | ⟨_, left, chain⟩
  · rw [same] at xLost
    exact absurd (xLost.1.elim (· ▸ held) id) xLost.2
  · have xLeft := (chain.held xLost.1).resolve_right xLost.2
    have yLeft := (chain.held yLost.1).resolve_right yLost.2
    exact xLeft.trans yLeft.symm

inductive Call (Element : Type) where
  | insert (e : Element)
  | contains (e : Element) (erase : Bool)

def perform (cache : Cache config) : Call Element → Cache config
  | .insert e => cache.insert e
  | .contains e erase => (cache.contains e erase).2

variable [Inhabited Element]

def afterCalls (config : Config Element) (calls : List (Call Element)) : Cache config :=
  calls.foldl perform (setup config)

theorem afterCalls_table (calls : List (Call Element)) :
    Proper config.Own default (afterCalls config calls).table ∧
      ∀ slot, (afterCalls config calls).table slot = default ∨
        .insert ((afterCalls config calls).table slot) ∈ calls := by
  induction calls using List.reverseRecOn with
  | nil => exact ⟨fun _ solid => absurd rfl solid, fun _ => .inl rfl⟩
  | append_singleton calls call ih =>
    unfold afterCalls at ih ⊢
    rw [List.foldl_concat]
    generalize calls.foldl perform (setup config) = cache at *
    obtain ⟨proper, known⟩ := ih
    have older := fun slot => (known slot).imp_right (List.mem_append_left [call])
    cases call with
    | contains e erase =>
      rw [perform, contains_table]
      exact ⟨proper, older⟩
    | insert e =>
      rw [perform]
      rcases insert_table e with ⟨_, same⟩ | ⟨absent, left, chain⟩
      · rw [same]
        exact ⟨proper, older⟩
      · constructor
        · apply chain.proper proper
          rintro solid slot rfl
          exact absent ⟨slot, (proper slot solid).1, rfl⟩
        · intro slot
          rcases chain.from_before slot with isNew | ⟨place, same⟩
          · rw [isNew]
            exact .inr List.mem_concat_self
          · rw [← same]
            exact older place

/-- After any calls only what was inserted, or the default element, is contained, every other
element is in one slot at most, one of its eight, and an insertion loses at most one element. -/
theorem cache_sound (config : Config Element) (calls : List (Call Element)) :
    (∀ e erase, ((afterCalls config calls).contains e erase).1 = true →
      .insert e ∈ calls ∨ e = default) ∧
    (∀ slot, (afterCalls config calls).table slot ≠ default →
      (∃ i, config.computeHashes ((afterCalls config calls).table slot) i = slot) ∧
        ∀ other, (afterCalls config calls).table other = (afterCalls config calls).table slot →
          other = slot) ∧
    ∀ e x y, Lost (afterCalls config calls) e x → Lost (afterCalls config calls) e y → x = y := by
  obtain ⟨proper, known⟩ := @afterCalls_table _ config _ _ calls
  refine ⟨?_, proper, fun e x y => eq_of_lost⟩
  intro e erase found
  obtain ⟨slot, _, rfl⟩ := contains_iff.mp found
  exact (known slot).symm

end Adonai.CuckooCache
