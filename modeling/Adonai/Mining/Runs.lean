/-
Whole runs of `addPackageTxs`.

The block and its totals are right in every run. The totals in `mapModifiedTx` are those
of the transactions outside the block exactly in the runs that never put an entry back
after it failed.
-/

import Adonai.Mempool.Snapshot
import Adonai.Mining.Selection

namespace Adonai.Mining

open Mempool Digraph Relation

variable {entries : EntryMap} {ledger : Ledger} {bytes_per_sigop : Nat} {options : Mining.Options}

def Continues (options : Mining.Options) (entries : EntryMap) (before after : Assembly) : Prop :=
  round options entries before = .ok (.continues after)

def Visited (options : Mining.Options) (entries : EntryMap) (assembly : Assembly) : Prop :=
  ReflTransGen (Continues options entries) (.start options entries) assembly

def Round (options : Mining.Options) (entries : EntryMap) (before after : Assembly) : Prop :=
  Visited options entries before ∧
    (Continues options entries before after ∨ round options entries before = .ok (.done after))

def Occurs (options : Mining.Options) (entries : EntryMap) (assembly : Assembly) : Prop :=
  Visited options entries assembly ∨ ∃ before, Round options entries before assembly

variable {assembly : Assembly}

section

variable (consistent : Consistent entries ledger bytes_per_sigop)

include consistent

theorem Visited.holds (visited : Visited options entries assembly) :
    Holds options ledger assembly := by
  induction visited with
  | refl => exact holds_start consistent
  | tail _ step ih => exact ih.effect consistent ((round_yields consistent ih).result step).1

theorem Round.effect {before after : Assembly} (isRound : Round options entries before after) :
    Effect options ledger before after := by
  have holds : Holds options ledger before := isRound.1.holds consistent
  have yields := round_yields consistent holds
  rcases isRound.2 with continues | done
  · exact (yields.result continues).1
  · exact yields.result done

theorem Occurs.holds (occurs : Occurs options entries assembly) :
    Holds options ledger assembly := by
  rcases occurs with visited | ⟨before, isRound⟩
  · exact visited.holds consistent
  · exact (isRound.1.holds consistent).effect consistent (isRound.effect consistent)

theorem Visited.exact
    (fresh : ∀ before after, Round options entries before after → ¬ Readmits before after)
    (visited : Visited options entries assembly) : Exact ledger assembly := by
  induction visited with
  | refl =>
    intro txid e found
    cases found
  | @tail before after path step ih =>
    have isRound : Round options entries before after := ⟨path, .inl step⟩
    exact Exact.effect (Visited.holds consistent path) (isRound.effect consistent)
      (fresh before after isRound) ih

private theorem rounds_yields {fuel : Nat}
    (visited : Visited options entries assembly) (enough : workLeft ledger assembly < fuel) :
    Yields (rounds options entries fuel assembly) PoolHalt.OutOfRange
      (Occurs options entries) := by
  induction fuel generalizing assembly with
  | zero => exact absurd enough (Nat.not_lt_zero _)
  | succ fuel ih =>
    have holds : Holds options ledger assembly := visited.holds consistent
    have yields := round_yields consistent holds
    refine .bind ?_
    cases outcome : round options entries assembly with
    | error halt => exact yields.halt outcome
    | ok progress =>
      have advances := yields.result outcome
      cases progress with
      | done final => exact .inr ⟨assembly, visited, .inr outcome⟩
      | continues next =>
        have less := advances.2
        exact ih (visited.tail outcome) (by omega)

private theorem addPackageTxs_occurs :
    Yields (addPackageTxs options entries) PoolHalt.OutOfRange (Occurs options entries) := by
  refine rounds_yields consistent .refl ?_
  have start : Holds options ledger (.start options entries) := holds_start consistent
  have index := start.indexLength
  have none : (Assembly.start options entries).mapModifiedTx.keys.length = 0 := rfl
  have empty : (Assembly.start options entries).inBlock.length = 0 := rfl
  rw [consistent.represents.keys_length, Nat.add_mul]
  unfold workLeft
  rw [empty, Nat.sub_zero]
  omega

end

/-- The selection ends, every assembly of the run is a template, and the modified totals
are exact in all of them if and only if no round readmits an entry. -/
theorem addPackageTxs_exact_iff (consistent : Consistent entries ledger bytes_per_sigop) :
    (Yields (addPackageTxs options entries) PoolHalt.OutOfRange (Occurs options entries) ∧
      ∀ assembly, Occurs options entries assembly →
        Template options ledger assembly ∧ Exact ledger assembly) ↔
      ∀ before after, Round options entries before after → ¬ Readmits before after := by
  constructor
  · rintro ⟨_, each⟩ before after isRound readmits
    have holds : Holds options ledger before := isRound.1.holds consistent
    exact readmits.not_exact consistent holds (isRound.effect consistent)
      (each after (.inr ⟨before, isRound⟩)).2
  · intro fresh
    refine ⟨addPackageTxs_occurs consistent, fun assembly occurs => ?_⟩
    refine ⟨(occurs.holds consistent).template, ?_⟩
    rcases occurs with visited | ⟨before, isRound⟩
    · exact visited.exact consistent fresh
    · have holds : Holds options ledger before := isRound.1.holds consistent
      exact Exact.effect holds (isRound.effect consistent) (fresh before assembly isRound)
        (isRound.1.exact consistent fresh)

/-- Two payments and a third that spends both. -/
def pair : Contents 20 where
  cores := [payment 3 [1, 2] 1000 3000, payment 2 [12] 1000 1000, payment 1 [11] 1000 1000]
  topological := by decide +kernel
  size_pos := by decide +kernel
  cost_nonneg := by decide +kernel
  sized := by decide +kernel
  few := by decide +kernel

def tightOptions : Mining.Options :=
  { nBlockMaxWeight := 3600
    block_reserved_weight := 2600
    coinbase_output_max_additional_sigops := 400
    feeModel := { alpha := ⟨1000⟩, beta := some 0, min_fee := 0, max_fee := 1000000 }
    nHeight := 1
    m_lock_time_cutoff := 0 }

def advance (options : Mining.Options) (entries : EntryMap) : Nat → Option Assembly
  | 0 => some (.start options entries)
  | count + 1 =>
    (advance options entries count).bind fun assembly =>
      match round options entries assembly with
      | .ok (.continues next) => some next
      | _ => none

theorem visited_of_advance {count : Nat} (reaches : advance options entries count = some assembly) :
    Visited options entries assembly := by
  induction count generalizing assembly with
  | zero =>
    cases reaches
    exact .refl
  | succ count ih =>
    obtain ⟨before, earlier, step⟩ := Option.bind_eq_some_iff.mp reaches
    split at step
    next next continues =>
      cases step
      exact (ih earlier).tail continues
    · cases step

private theorem advance_tight : (advance tightOptions pair.pool.mapTx 4).map (fun assembly =>
      (assembly.inBlock, assembly.mapModifiedTx.lookup 3)) =
        some ([1, 2], some ⟨205, 4000, 8⟩) := by
  decide +kernel

/-- The spending transaction fails once the first parent is in the block. When the second one
follows, it comes back with the size and fees of the first still counted. -/
theorem addPackageTxs_stale_totals : Consistent pair.pool.mapTx pair.ledger 20 ∧
      ∃ assembly, Occurs tightOptions pair.pool.mapTx assembly ∧ assembly.inBlock = [1, 2] ∧
        assembly.mapModifiedTx.lookup 3 = some ⟨205, 4000, 8⟩ ∧
        remaining pair.ledger (· ∈ assembly.inBlock) 3 = (123, 3000, 4) := by
  refine ⟨pair.consistent, ?_⟩
  obtain ⟨assembly, reached, same⟩ := Option.map_eq_some_iff.mp advance_tight
  rw [Prod.mk.injEq] at same
  refine ⟨assembly, .inl (visited_of_advance reached), same.1, same.2, ?_⟩
  rw [remaining, tally_none, add_zero]
  · rfl
  intro other known both
  refine both.2 ?_
  have listed : other ∈ [3, 2, 1] := List.mem_toFinset.mp known
  rw [same.1]
  have notItself : other ≠ 3 := by
    rintro rfl
    exact pair.consistent.acyclic 3 both.1
  grind

theorem addPackageTxs_exact_iff_pair : Consistent pair.pool.mapTx pair.ledger 20 ∧
      ((Yields (addPackageTxs tightOptions pair.pool.mapTx) PoolHalt.OutOfRange
          (Occurs tightOptions pair.pool.mapTx) ∧
        ∀ assembly, Occurs tightOptions pair.pool.mapTx assembly →
          Template tightOptions pair.ledger assembly ∧ Exact pair.ledger assembly) ↔
        ∀ before after, Round tightOptions pair.pool.mapTx before after →
          ¬ Readmits before after) :=
  ⟨pair.consistent, addPackageTxs_exact_iff pair.consistent⟩

end Adonai.Mining
