/-
Runs of the transaction request tracker.

Every call keeps the tracker sane. Setting the time leaves what still counts as it is and decides
which candidates are due, so what can be requested is a matter of the announcements alone.
-/

import Adonai.Net.Tracker

namespace Adonai.TxRequest

open OrderedIndex
open Announcement (isSelectable isCandidate isWaiting isSelected)
open List (countP_pos_iff dropWhile_sublist map_cons mem_cons mem_cons_of_mem mem_filter mem_map
  pairwise_cons)

variable {siphash : SipHash} {a b x : Announcement} {rest : List Announcement} {impl : Impl}

/-! ### Time -/

/-- What still counts at a time: candidates, and requests that have not expired. -/
def Live (now : Int) (ann : Announcement) : Prop :=
  ann.isCandidate = true ∨ ann.m_state = .requested ∧ now < ann.m_time

def SameLive (now : Int) (before after : List Announcement) : Prop :=
  ∀ ann, Live now ann → (ann ∈ after.map viewed ↔ ann ∈ before.map viewed)

theorem SameLive.refl (now : Int) (anns : List Announcement) : SameLive now anns anns :=
  fun _ _ => Iff.rfl

variable {now : Int} {before after : List Announcement}

theorem SameLive.trans {between : List Announcement} (first : SameLive now before between)
    (second : SameLive now between after) : SameLive now before after :=
  fun ann live => (second ann live).trans (first ann live)

private theorem SameLive.of_perm (views : (after.map viewed).Perm (before.map viewed)) :
    SameLive now before after :=
  fun _ _ => views.mem_iff

theorem viewed_of_not_candidate (other : ¬a.isCandidate = true) : viewed a = a := by
  rw [viewed, if_neg other]

theorem not_candidate (done : a.m_state = .requested ∨ a.m_state = .completed) :
    ¬a.isCandidate = true := by
  rcases done with state | state <;> simp [isCandidate, isSelectable, state]

theorem not_live (other : ¬a.isCandidate = true) (late : a.m_state = .requested → a.m_time ≤ now) :
    ¬Live now (viewed a) := by
  rw [viewed_of_not_candidate other]
  intro live
  rcases live with candidate | ⟨requested, later⟩
  · exact other candidate
  · exact absurd (late requested) (Int.not_le.mpr later)

theorem not_live_of_completed (completed : a.m_state = .completed) : ¬Live now (viewed a) := by
  apply not_live (not_candidate (.inr completed))
  rw [completed]
  intro impossible
  cases impossible

section

variable {still : Bool} (completes : Completes a rest still after)

include completes

theorem Completes.sameLive (perm : before.Perm (a :: rest)) (requested : a.m_state = .requested)
    (expired : a.m_time ≤ now) : SameLive now before after := by
  intro ann live
  rw [(perm.map viewed).mem_iff, map_cons, mem_cons]
  have notHere : ann ≠ viewed a := by
    intro here
    rw [here] at live
    exact not_live (not_candidate (.inl requested)) (fun _ => expired) live
  cases completes with
  | gone _ all left =>
    rw [(left.map viewed).mem_iff, mem_map, mem_map]
    constructor
    · intro ⟨x, inLeft, same⟩
      exact .inr ⟨x, (mem_apartFrom.mp inLeft).1, same⟩
    · intro before
      obtain ⟨x, inRest, same⟩ := before.resolve_left notHere
      refine ⟨x, mem_apartFrom.mpr ⟨inRest, ?_⟩, same⟩
      intro sameHash
      rw [← same] at live
      exact not_live_of_completed (all x (mem_groupOf.mpr ⟨inRest, sameHash⟩)) live
  | stays changed views _ =>
    rw [(changed.map viewed).mem_iff, map_cons, mem_cons, views.mem_iff]
    have notCompleted : ann ≠ viewed (a.setState .completed) := by
      intro here
      rw [here] at live
      exact not_live_of_completed (state_setState .completed) live
    exact or_congr (iff_of_false notCompleted notHere) Iff.rfl

theorem Completes.mem_of_requested (member : x ∈ after) (requested : x.m_state = .requested) :
    x ∈ rest := by
  cases completes with
  | gone _ _ left => exact (mem_apartFrom.mp (left.mem_iff.mp member)).1
  | stays changed views _ => ?_
  rcases mem_cons.mp (changed.mem_iff.mp member) with here | inOthers
  · rw [here] at requested
    cases requested
  have viewedSame : viewed x = x := viewed_of_not_candidate (not_candidate (.inl requested))
  have inViews := views.mem_iff.mp (List.mem_map_of_mem inOthers)
  obtain ⟨y, inRest, same⟩ := mem_map.mp inViews
  rw [viewedSame] at same
  by_cases candidate : y.isCandidate = true
  · rw [← same, viewed, if_pos candidate] at requested
    cases requested
  · rw [viewed_of_not_candidate candidate] at same
    exact same ▸ inRest

theorem Completes.waiting_lt (perm : before.Perm (a :: rest)) (waits : a.isWaiting = true) :
    after.countP isWaiting < before.countP isWaiting := by
  rw [perm.countP_eq, List.countP_cons_of_pos waits]
  apply Nat.lt_succ_of_le
  cases completes with
  | gone _ _ left =>
    rw [left.countP_eq]
    exact List.Sublist.countP_le List.filter_sublist
  | stays changed _ waiting =>
    have sleeps : ¬(a.setState .completed).isWaiting = true := Bool.false_ne_true
    rw [changed.countP_eq, List.countP_cons_of_neg sleeps, List.countP_eq_length_filter,
      List.countP_eq_length_filter, waiting.length_eq]

end

private theorem byTimeView_le_iff : byTimeView a ≤ byTimeView b ↔
      waitState a < waitState b ∨ waitState a = waitState b ∧ a.m_time ≤ b.m_time := by
  simp only [byTimeView, Prod.Lex.toLex_le_toLex]

private theorem waitState_eq_zero_iff : waitState a = 0 ↔ a.isWaiting = true := by
  cases state : a.m_state <;>
    simp [waitState, isSelectable, state]

theorem waitState_eq_two_iff : waitState a = 2 ↔ a.isSelectable = true := by
  cases state : a.m_state <;>
    simp [waitState, isWaiting, isSelectable, state]

theorem waitState_le_two : waitState a ≤ 2 := by
  unfold waitState
  split
  · decide
  · split <;> decide

def Passed (now : Int) (anns : List Announcement) : Prop :=
  ∀ x ∈ anns, x.isWaiting = true → now < x.m_time

def Due (now : Int) (anns : List Announcement) : Prop :=
  ∀ x ∈ anns, x.isSelectable = true → x.m_time ≤ now

theorem passed_of_first (kept : Kept siphash impl)
    (first : ∀ ann, impl.m_index.byTime.head? = some ann → ann.isWaiting = true → now < ann.m_time)
    : Passed now impl.anns := by
  intro x member waits
  have inTimes := kept.times.mem_iff.mpr member
  obtain ⟨ann, isFirst, below⟩ := Sorted.exists_first kept.timesSorted inTimes
  have waitsFirst := waitState_eq_zero_iff.mpr waits
  rcases byTimeView_le_iff.mp below with lower | ⟨same, earlier⟩
  · omega
  · rw [waitsFirst, waitState_eq_zero_iff] at same
    exact lt_of_lt_of_le (first ann isFirst same) earlier

theorem due_of_last (kept : Kept siphash impl)
    (last : ∀ ann, impl.m_index.byTime.getLast? = some ann → ann.isSelectable = true → ann.m_time ≤
      now) : Due now impl.anns := by
  intro x member selectable
  have inTimes := kept.times.mem_iff.mpr member
  obtain ⟨ann, isLast, below⟩ := Sorted.exists_last kept.timesSorted inTimes
  have selectableLast := waitState_eq_two_iff.mpr selectable
  rcases byTimeView_le_iff.mp below with lower | ⟨same, earlier⟩
  · have bound := @waitState_le_two ann
    omega
  · rw [selectableLast] at same
    exact le_trans earlier (last ann isLast (waitState_eq_two_iff.mp same.symm))

/-- The first loop ends: each pass has one announcement less that waits. -/
theorem passTime_eq (now : Int) (fuel : Nat) (expired : List (NodeId × GenTxid))
    (sane : Sane siphash impl) (enough : impl.anns.countP isWaiting < fuel) :
    ∃ gone after, passTime siphash now fuel expired impl = .ok (gone, after) ∧
      Sane siphash after ∧ SameLive now impl.anns after.anns ∧ Passed now after.anns := by
  induction fuel generalizing impl expired with
  | zero => exact absurd enough (Nat.not_lt_zero _)
  | succ fuel ih =>
    unfold passTime
    cases isFirst : impl.m_index.byTime.head? with
    | none =>
      exact ⟨expired, impl, rfl, sane, .refl now _, passed_of_first sane.kept (by simp [isFirst])⟩
    | some ann =>
      have member : ann ∈ impl.anns := sane.kept.times.mem_iff.mp (List.mem_of_head? isFirst)
      dsimp only
      split
      case isTrue due =>
        obtain ⟨next, promotes, nextSane, promoted⟩ := promoteCandidateReady_eq sane member due.1
        obtain ⟨gone, after, passes, afterSane, live, passed⟩ :=
          ih expired nextSane (by have fewer := promoted.waiting; omega)
        rw [promotes]
        exact ⟨gone, after, passes, afterSane, (SameLive.of_perm promoted.views).trans live, passed⟩
      case isFalse notDelayed =>
        split
        case isTrue due =>
          obtain ⟨rest, perm⟩ := exists_rest member
          obtain ⟨still, next, completes, nextSane, effect⟩ := makeCompleted_eq sane perm
          have waits : ann.isWaiting = true := isWaiting_iff.mpr (.inl due.1)
          obtain ⟨gone, after, passes, afterSane, live, passed⟩ :=
            ih (expired ++ [(ann.m_peer, ann.m_gtxid)]) nextSane
              (by have fewer := effect.waiting_lt perm waits; omega)
          rw [completes]
          exact ⟨gone, after, passes, afterSane,
            (effect.sameLive perm due.1 due.2).trans live, passed⟩
        case isFalse notRequested =>
          refine ⟨expired, impl, rfl, sane, .refl now _, passed_of_first sane.kept ?_⟩
          intro first found waits
          rw [isFirst] at found
          cases found
          by_contra late
          rcases isWaiting_iff.mp waits with requested | delayed
          · exact notRequested ⟨requested, Int.not_lt.mp late⟩
          · exact notDelayed ⟨delayed, Int.not_lt.mp late⟩

/-- The second loop ends: each pass has one selectable announcement less. -/
theorem turnBack_eq (now : Int) (fuel : Nat) (sane : Sane siphash impl)
    (passed : Passed now impl.anns) (enough : impl.anns.countP isSelectable < fuel) :
    ∃ after, turnBack siphash now fuel impl = .ok after ∧ Sane siphash after ∧
      SameLive now impl.anns after.anns ∧ Passed now after.anns ∧ Due now after.anns := by
  induction fuel generalizing impl with
  | zero => exact absurd enough (Nat.not_lt_zero _)
  | succ fuel ih =>
    unfold turnBack
    cases isLast : impl.m_index.byTime.getLast? with
    | none =>
      exact ⟨impl, rfl, sane, .refl now _, passed, due_of_last sane.kept (by simp [isLast])⟩
    | some ann =>
      have member : ann ∈ impl.anns := sane.kept.times.mem_iff.mp (List.mem_of_getLast? isLast)
      dsimp only
      split
      case isTrue early =>
        obtain ⟨rest, perm⟩ := exists_rest member
        obtain ⟨next, others, changes, nextSane, changed, views, waiting, selectable⟩ :=
          changeAndReselect_eq sane (.inr rfl) perm nofun
        have candidate : ann.isCandidate = true := by
          rw [isCandidate, early.1, Bool.or_true]
        have sameViews : (next.anns.map viewed).Perm (impl.anns.map viewed) := by
          refine (changed.map viewed).trans (.trans ?_ (perm.map viewed).symm)
          rw [map_cons, viewed_setState candidate rfl]
          exact views.cons _
        have nextPassed : Passed now next.anns := by
          intro x inNext waits
          rcases mem_cons.mp (changed.mem_iff.mp inNext) with here | inOthers
          · rw [here]
            exact early.2
          · have inRest := waiting.mem_iff.mp (mem_filter.mpr ⟨inOthers, waits⟩)
            exact passed x (perm.mem_iff.mpr
              (mem_cons_of_mem ann (mem_filter.mp inRest).1)) waits
        have fewer : next.anns.countP isSelectable < impl.anns.countP isSelectable := by
          have delayed : ¬(ann.setState .candidateDelayed).isSelectable = true := Bool.false_ne_true
          rw [changed.countP_eq, perm.countP_eq, List.countP_cons_of_pos early.1,
            List.countP_cons_of_neg delayed, selectable]
          exact Nat.lt_succ_self _
        obtain ⟨after, turns, afterSane, live, afterPassed, due⟩ :=
          ih nextSane nextPassed (by omega)
        rw [changes]
        exact ⟨after, turns, afterSane, (SameLive.of_perm sameViews).trans live, afterPassed, due⟩
      case isFalse notEarly =>
        refine ⟨impl, rfl, sane, .refl now _, passed, due_of_last sane.kept ?_⟩
        intro last found selectable
        rw [isLast] at found
        cases found
        by_contra early
        exact notEarly ⟨selectable, Int.not_le.mp early⟩

theorem setTimePoint_eq (now : Int) (sane : Sane siphash impl) :
    ∃ expired after, setTimePoint siphash now impl = .ok (expired, after) ∧ Sane siphash after ∧
      SameLive now impl.anns after.anns ∧ Passed now after.anns ∧ Due now after.anns := by
  have enough : ∀ {impl : Impl} {property : Announcement → Bool}, Kept siphash impl →
      impl.anns.countP property < impl.m_index.byTime.length + 1 := by
    intro impl property kept
    rw [kept.times.length_eq]
    exact Nat.lt_succ_of_le List.countP_le_length
  obtain ⟨expired, next, passes, nextSane, passLive, passed⟩ :=
    passTime_eq now _ [] sane (enough sane.kept)
  obtain ⟨after, turns, afterSane, turnLive, afterPassed, due⟩ :=
    turnBack_eq now _ nextSane passed (enough nextSane.kept)
  refine ⟨expired, after, ?_, afterSane, passLive.trans turnLive, afterPassed, due⟩
  simp only [setTimePoint, passes, turns, Program.ok_bind]
  rfl

/-! ### Forgetting and disconnecting -/

variable {txhash : Uint256}

theorem lower_le_iff {state : State} :
    toLex (txhash.memcmpRank, toLex (state.order, 0)) ≤ byTxHashView siphash x ↔
      txhash.memcmpRank < x.txhash.memcmpRank ∨
        x.txhash = txhash ∧ state.order ≤ x.m_state.order := by
  have rank : txhash.memcmpRank = x.txhash.memcmpRank ↔ x.txhash = txhash :=
    ⟨fun same => (memcmpRank_injective same).symm, fun same => by rw [same]⟩
  simp only [byTxHashView, Prod.Lex.toLex_le_toLex, rank, Nat.zero_le, and_true]
  rw [← Nat.le_iff_lt_or_eq]

theorem forgetTxHash_eq (txhash : Uint256) (sane : Sane siphash impl) :
    ∃ after, forgetTxHash siphash txhash impl = .ok after ∧ Sane siphash after := by
  have sorted := sane.kept.hashesSorted
  obtain ⟨after, erases, afterSane, _⟩ := eraseGroup_eq sane
    (run_perm
      (fun ann => decide (byTxHashView siphash ann <
        toLex (txhash.memcmpRank, toLex (State.candidateDelayed.order, 0))))
      (fun ann => ann.txhash == txhash) impl.anns)
    (by
      intro x member
      have same := List.mem_takeWhile_imp member
      exact beq_iff_eq.mp same)
    (by
      intro x member same
      rcases List.mem_append.mp member with before | behind
      · have isBelow := List.mem_takeWhile_imp before
        rw [decide_eq_true_iff] at isBelow
        exact absurd (lower_le_iff.mpr (.inr ⟨same, Nat.zero_le _⟩)) (not_le_of_gt isBelow)
      · apply not_mem_after_run (sorted.sublist (dropWhile_sublist _)) _ same behind
        intro y inLower
        rcases lower_le_iff.mp (sorted.mem_lower_iff.mp inLower).2 with lower | own
        · exact Nat.le_of_lt lower
        · rw [own.1])
  exact ⟨after, erases, afterSane⟩

theorem eq_of_viewed {α : Type} (field : Announcement → α) (same : viewed a = viewed b)
    (kept : ∀ a state, field (a.setState state) = field a := by intros; rfl) :
    field a = field b := by
  have view (c : Announcement) : field (viewed c) = field c := by
    unfold viewed
    split
    · exact kept c _
    · rfl
  rw [← view a, same, view]

theorem erase_completed (sane : Sane siphash impl) (perm : impl.anns.Perm (a :: rest))
    (completed : a.m_state = .completed) :
    ∃ after, erase a.m_sequence impl = .ok after ∧ Sane siphash after ∧ after.anns.Perm rest := by
  obtain ⟨after, erases, kept, left⟩ := sane.kept.erase_eq perm
  refine ⟨after, erases, ⟨kept, ?_⟩, left⟩
  have before : Settled siphash ([a] ++ rest) := sane.settled.perm perm
  have without : Settled siphash ([] ++ rest) := by
    apply before.replace a.txhash
    · intro x member
      rw [List.mem_singleton.mp member]
    · intro x impossible
      cases impossible
    · intro settled
      exact settled.drop completed
  exact without.perm left.symm

structure Removed (a : Announcement) (rest after : List Announcement) : Prop where
  fewer : after.length ≤ rest.length
  others : ∀ y ∈ rest, y.txhash ≠ a.txhash →
    ∃ z ∈ after, z.m_sequence = y.m_sequence ∧ z.m_peer = y.m_peer

theorem disconnectFrom_step (peer : NodeId) (fuel : Nat) (sane : Sane siphash impl)
    (perm : impl.anns.Perm (a :: rest)) {front back : List Announcement}
    (found : position a.m_sequence impl.m_index.byPeer = .ok (front, a, back)) :
    ∃ next, Sane siphash next ∧ Removed a rest next.anns ∧
      disconnectFrom siphash peer (fuel + 1) (some a.m_sequence) impl =
        disconnectFrom siphash peer fuel
          ((back.head?.filter fun next => next.m_peer == peer).map (·.m_sequence)) next := by
  obtain ⟨still, completed, completes, completedSane, effect⟩ := makeCompleted_eq sane perm
  rw [disconnectFrom]
  simp only [found, completes, Program.ok_bind]
  cases effect with
  | gone _ _ left =>
    refine ⟨completed, completedSane, ⟨?_, ?_⟩, rfl⟩
    · rw [left.length_eq]
      exact List.length_filter_le _ rest
    · intro y inRest different
      exact ⟨y, left.mem_iff.mpr (mem_apartFrom.mpr ⟨inRest, different⟩), rfl, rfl⟩
  | stays changed views _ =>
    obtain ⟨next, erases, nextSane, left⟩ := erase_completed completedSane changed rfl
    rw [sequence_setState] at erases
    refine ⟨next, nextSane, ⟨?_, ?_⟩, ?_⟩
    · have same := views.length_eq
      rw [List.length_map, List.length_map] at same
      rw [left.length_eq, same]
    · intro y inRest _
      obtain ⟨z, inOthers, same⟩ := mem_map.mp (views.mem_iff.mpr (List.mem_map_of_mem inRest))
      exact ⟨z, left.mem_iff.mpr inOthers, eq_of_viewed (·.m_sequence) same,
        eq_of_viewed (·.m_peer) same⟩
    · rw [if_pos rfl, erases, Program.ok_bind]

theorem disconnectFrom_eq (peer : NodeId) (fuel : Nat) (it : Option Nat) (sane : Sane siphash impl)
    (points : ∀ node, it = some node → ∃ a ∈ impl.anns, a.m_sequence = node ∧ a.m_peer = peer)
    (enough : impl.anns.length < fuel) :
    ∃ after, disconnectFrom siphash peer fuel it impl = .ok after ∧ Sane siphash after := by
  induction fuel generalizing impl it with
  | zero => exact absurd enough (Nat.not_lt_zero _)
  | succ fuel ih =>
    cases it with
    | none => exact ⟨impl, rfl, sane⟩
    | some node => ?_
    obtain ⟨a, member, isNode, isPeer⟩ := points node rfl
    obtain ⟨rest, perm⟩ := exists_rest member
    obtain ⟨front, back, found, split, around⟩ :=
      position_eq (nodes_perm sane.kept.peers.symm sane.kept.nodes) (sane.kept.peers.trans perm)
    obtain ⟨next, nextSane, removed, passes⟩ := disconnectFrom_step peer fuel sane perm found
    rw [← isNode, passes]
    apply ih
    case sane => exact nextSane
    case enough =>
      have fewer := removed.fewer
      have length := perm.length_eq
      rw [List.length_cons] at length
      omega
    case points =>
      -- the next announcement of the peer is one of another hash
      intro node isNext
      obtain ⟨y, isHead, sequence⟩ := Option.map_eq_some_iff.mp isNext
      obtain ⟨isHead, samePeer⟩ := Option.filter_eq_some_iff.mp isHead
      have inRest : y ∈ rest :=
        around.mem_iff.mp (List.mem_append_right front (List.mem_of_head? isHead))
      have once := (pairwise_cons.mp (once_perm perm sane.kept.once)).1 y inRest
      have different : y.txhash ≠ a.txhash := by
        intro same
        exact once ⟨isPeer.trans (beq_iff_eq.mp samePeer).symm, same.symm⟩
      obtain ⟨z, inNext, zSequence, zPeer⟩ := removed.others y inRest different
      exact ⟨z, inNext, zSequence.trans sequence, zPeer.trans (beq_iff_eq.mp samePeer)⟩

theorem disconnectedPeer_eq (peer : NodeId) (sane : Sane siphash impl) :
    ∃ after, disconnectedPeer siphash peer impl = .ok after ∧ Sane siphash after := by
  apply disconnectFrom_eq peer _ _ sane
  case enough =>
    rw [sane.kept.peers.length_eq]
    exact Nat.lt_succ_self _
  case points =>
    intro node isFirst
    obtain ⟨a, isHead, sequence⟩ := Option.map_eq_some_iff.mp isFirst
    obtain ⟨isHead, samePeer⟩ := Option.filter_eq_some_iff.mp isHead
    have inPeers : a ∈ impl.m_index.byPeer := (dropWhile_sublist _).mem (List.mem_of_head? isHead)
    exact ⟨a, sane.kept.peers.mem_iff.mp inPeers, sequence, beq_iff_eq.mp samePeer⟩

/-! ### Announcements, requests and responses -/

variable {peer : NodeId}

theorem findByPeer_some {best : Bool} (kept : Kept siphash impl)
    (found : findByPeer peer best txhash impl = some a) :
    a ∈ impl.anns ∧ a.m_peer = peer ∧ (a.m_state == .candidateBest) = best ∧ a.txhash = txhash := by
  have view := List.find?_some found
  rw [beq_iff_eq] at view
  simp only [byPeerView, toLex_inj, Prod.mk.injEq] at view
  exact ⟨kept.peers.mem_iff.mp (List.mem_of_find?_eq_some found), view.1, view.2.1,
    memcmpRank_injective view.2.2⟩

theorem not_mem_of_findByPeer (kept : Kept siphash impl)
    (none_ : ∀ best, findByPeer peer best txhash impl = none) (member : a ∈ impl.anns) :
    ¬(a.m_peer = peer ∧ a.txhash = txhash) := by
  intro ⟨isPeer, isHash⟩
  apply List.find?_eq_none.mp (none_ (a.m_state == .candidateBest)) a
    (kept.peers.mem_iff.mpr member)
  rw [byPeerView, isPeer, isHash, beq_self_eq_true]

theorem receivedResponse_eq (peer : NodeId) (txhash : Uint256) (sane : Sane siphash impl) :
    ∃ after, receivedResponse siphash peer txhash impl = .ok after ∧ Sane siphash after ∧
      ∀ x ∈ after.anns, x.m_state = .requested →
        x ∈ impl.anns ∧ ¬(x.m_peer = peer ∧ x.txhash = txhash) := by
  unfold receivedResponse
  cases found : (findByPeer peer false txhash impl).or (findByPeer peer true txhash impl) with
  | none =>
    refine ⟨impl, rfl, sane, ?_⟩
    intro x member _
    exact ⟨member, not_mem_of_findByPeer sane.kept
      (Bool.forall_bool.mpr (Option.or_eq_none_iff.mp found)) member⟩
  | some ann =>
    obtain ⟨best, found⟩ : ∃ best, findByPeer peer best txhash impl = some ann := by
      rcases Option.or_eq_some_iff.mp found with other | ⟨_, best⟩
      · exact ⟨false, other⟩
      · exact ⟨true, best⟩
    obtain ⟨member, isPeer, _, isHash⟩ := findByPeer_some sane.kept found
    obtain ⟨rest, perm⟩ := exists_rest member
    obtain ⟨still, after, makes, afterSane, completes⟩ := makeCompleted_eq sane perm
    refine ⟨after, ?_, afterSane, ?_⟩
    · dsimp only
      rw [makes]
      rfl
    · intro x inAfter requested
      have inRest := completes.mem_of_requested inAfter requested
      refine ⟨perm.mem_iff.mpr (mem_cons_of_mem _ inRest), ?_⟩
      intro ⟨samePeer, sameHash⟩
      have apart := List.rel_of_pairwise_cons (once_perm perm sane.kept.once) inRest
      exact apart ⟨isPeer.trans samePeer.symm, isHash.trans sameHash.symm⟩

theorem insert_sane (sane : Sane siphash impl) (delayed : a.m_state = .candidateDelayed)
    (isNew : a.m_sequence = impl.m_current_sequence)
    (none : ∀ x ∈ impl.anns, ¬(a.m_peer = x.m_peer ∧ a.txhash = x.txhash)) : Sane siphash
      { m_current_sequence := impl.m_current_sequence + 1
        m_index := impl.m_index.insert siphash a
        m_peerinfo := impl.m_peerinfo.insert a.m_peer
          { (impl.m_peerinfo.lookup a.m_peer).getD {} with
            m_total := ((impl.m_peerinfo.lookup a.m_peer).getD {}).m_total + 1 } } := by
  have kept := sane.kept
  have hashes : (impl.m_index.insert siphash a).byTxHash.Perm (a :: impl.anns) :=
    place_perm a impl.m_index.byTxHash
  constructor
  case settled =>
    have before : Settled siphash ([] ++ impl.anns) := sane.settled
    have with_ : Settled siphash ([a] ++ impl.anns) := by
      apply before.replace a.txhash
      · intro x impossible
        cases impossible
      · intro x member
        rw [List.mem_singleton.mp member]
      · intro settled
        exact settled.announce delayed
    exact with_.perm hashes.symm
  case kept =>
    constructor
    case peers =>
      exact (place_perm a impl.m_index.byPeer).trans ((kept.peers.cons a).trans hashes.symm)
    case times =>
      exact (place_perm a impl.m_index.byTime).trans ((kept.times.cons a).trans hashes.symm)
    case peersSorted => exact kept.peersSorted.place a
    case hashesSorted => exact kept.hashesSorted.place a
    case timesSorted => exact kept.timesSorted.place a
    case nodes =>
      apply nodes_perm hashes.symm
      refine pairwise_cons.mpr ⟨?_, kept.nodes⟩
      intro x member
      rw [isNew]
      exact Nat.ne_of_gt (kept.fresh x member)
    case fresh =>
      intro x member
      rcases mem_cons.mp (hashes.mem_iff.mp member) with here | before
      · rw [here, isNew]
        exact Nat.lt_succ_self _
      · exact Nat.lt_succ_of_lt (kept.fresh x before)
    case once =>
      apply once_perm hashes.symm
      exact pairwise_cons.mpr ⟨none, kept.once⟩
    case counted =>
      intro peer
      rw [recomputePeerInfo_perm hashes]
      by_cases same : peer = a.m_peer
      · rw [same, AList.lookup_insert, recomputePeerInfo_cons_self, kept.counted]
        simp only [infoOf, PeerInfo.withOne, delayed, Option.some.injEq, PeerInfo.mk.injEq,
          true_and]
        exact ⟨(Int.add_zero _).symm, (Int.add_zero _).symm⟩
      · rw [AList.lookup_insert_ne same, recomputePeerInfo_cons_ne (Ne.symm same), kept.counted]

theorem receivedInv_sane (peer : NodeId) (gtxid : GenTxid) (preferred : Bool) (reqtime : Int)
    (sane : Sane siphash impl) :
    Sane siphash (receivedInv siphash peer gtxid preferred reqtime impl) := by
  unfold receivedInv
  split
  case isTrue => exact sane
  case isFalse notBest =>
    split
    case isTrue => exact sane
    case isFalse notOther =>
      apply insert_sane sane rfl rfl
      intro x member same
      rw [Option.not_isSome_iff_eq_none] at notBest notOther
      exact not_mem_of_findByPeer sane.kept (Bool.forall_bool.mpr ⟨notOther, notBest⟩) member
        ⟨same.1.symm, same.2.symm⟩

theorem changes_request (expiry : Int) (a : Announcement) :
    Kept.Changes (fun ann => { ann with m_state := .requested, m_time := expiry }) a :=
  ⟨rfl, rfl, rfl⟩

theorem exists_first_selected {items : List Announcement}
    (sorted : Sorted (byTxHashView siphash) items) (member : x ∈ items) (same : x.txhash = txhash)
    (selected : x.isSelected = true) :
    ∃ old, ((items.dropWhile fun ann => decide (byTxHashView siphash ann <
        toLex (txhash.memcmpRank, toLex (State.candidateBest.order, 0)))).head?.filter
          fun old => old.txhash == txhash) = some old ∧
      old.isSelected = true := by
  obtain ⟨afterReady, beforeCompleted⟩ := order_of_isSelected selected
  have fromBest : State.candidateBest.order ≤ x.m_state.order := afterReady
  have inLower := sorted.mem_lower_iff.mpr ⟨member, lower_le_iff.mpr (.inr ⟨same, fromBest⟩)⟩
  obtain ⟨old, isOld, below⟩ := Sorted.exists_first (sorted.sublist (dropWhile_sublist _)) inLower
  rw [isOld]
  rcases lower_le_iff.mp (sorted.mem_lower_iff.mp (List.mem_of_head? isOld)).2 with
    above | ⟨oldSame, atLeast⟩
  · have rank := rank_le_of_view_le below
    rw [same] at rank
    omega
  have atMost := order_le_of_view_le below (oldSame.trans same.symm)
  refine ⟨old, ?_, ?_⟩
  · rw [Option.filter_some, if_pos (beq_iff_eq.mpr oldSame)]
  · rw [isSelected_iff]
    cases state : old.m_state with
    | candidateBest => exact .inl rfl
    | requested => exact .inr rfl
    | candidateDelayed | candidateReady =>
      rw [state] at atLeast
      exact absurd atLeast (by decide)
    | completed =>
      rw [state] at atMost
      omega

theorem settled_request (settled : Settled siphash impl.anns) (perm : impl.anns.Perm (a :: rest))
    (free : ∀ x ∈ groupOf a.txhash rest, ¬x.isSelected = true) (same : b.txhash = a.txhash)
    (requested : b.m_state = .requested) : Settled siphash (b :: rest) := by
  apply settled.replace_one perm same (.refl _)
  intro group
  exact group.request requested free

theorem modify_selected {old : Announcement} {state : State} (sane : Sane siphash impl)
    (perm : impl.anns.Perm (a :: rest)) (member : old ∈ impl.anns) (same : old.txhash = a.txhash)
    (notSelected : ¬a.isSelected = true) (selected : old.isSelected = true)
    (away : state = .candidateReady ∨ state = .completed) :
    ∃ after others, modify siphash old.m_sequence (.setState state) impl = .ok after ∧
      Kept siphash after ∧ after.anns.Perm (a :: others) ∧
      ∀ b, b.txhash = a.txhash → b.m_state = .requested → Settled siphash (b :: others) := by
  have inRest : old ∈ rest := by
    rcases mem_cons.mp (perm.mem_iff.mp member) with here | inRest
    · rw [here] at selected
      exact absurd selected notSelected
    · exact inRest
  obtain ⟨others, restPerm⟩ := exists_rest inRest
  have both := perm.trans (restPerm.cons a)
  obtain ⟨after, modifies, kept, changed⟩ :=
    sane.kept.modify_eq (changes_setState state old) (both.trans (.swap _ _ _))
  refine ⟨after, old.setState state :: others, modifies, kept, changed.trans (.swap _ _ _), ?_⟩
  intro b bSame requested
  apply sane.settled.replace_two both same bSame ((txhash_setState state).trans same) (.refl _)
  intro group
  exact group.request_instead requested selected away

theorem yieldSelected_eq (sane : Sane siphash impl) (perm : impl.anns.Perm (a :: rest))
    (notSelected : ¬a.isSelected = true) :
    ∃ after others, yieldSelected siphash a.txhash impl = .ok after ∧ Kept siphash after ∧
      after.anns.Perm (a :: others) ∧
      ∀ b, b.txhash = a.txhash → b.m_state = .requested → Settled siphash (b :: others) := by
  have first := fun x (inGroup : x ∈ groupOf a.txhash rest) =>
    exists_first_selected sane.kept.hashesSorted
      (perm.mem_iff.mpr (mem_cons_of_mem a (mem_groupOf.mp inGroup).1))
      (mem_groupOf.mp inGroup).2
  unfold yieldSelected
  dsimp only
  cases found : (impl.m_index.byTxHash.dropWhile fun ann => decide (byTxHashView siphash ann <
      toLex (a.txhash.memcmpRank, toLex (State.candidateBest.order, 0)))).head?.filter
        fun old => old.txhash == a.txhash with
  | none =>
    refine ⟨impl, rest, rfl, sane.kept, perm, ?_⟩
    intro b same requested
    apply settled_request sane.settled perm _ same requested
    intro x inGroup selected
    obtain ⟨old, isOld, _⟩ := first x inGroup selected
    rw [found] at isOld
    cases isOld
  | some old =>
    obtain ⟨isHead, sameHash⟩ := Option.filter_eq_some_iff.mp found
    have member : old ∈ impl.anns := (dropWhile_sublist _).mem (List.mem_of_head? isHead)
    have same := beq_iff_eq.mp sameHash
    dsimp only
    split
    case isTrue isBest =>
      exact modify_selected sane perm member same notSelected
        (isSelected_iff.mpr (.inl isBest)) (.inl rfl)
    case isFalse notBest =>
      split
      case isTrue requested =>
        exact modify_selected sane perm member same notSelected
          (isSelected_iff.mpr (.inr requested)) (.inr rfl)
      case isFalse notRequested =>
        refine ⟨impl, rest, rfl, sane.kept, perm, ?_⟩
        intro b same requested
        apply settled_request sane.settled perm _ same requested
        intro x inGroup selected
        obtain ⟨other, isOther, otherSelected⟩ := first x inGroup selected
        rw [found] at isOther
        cases isOther
        exact (isSelected_iff.mp otherSelected).elim notBest notRequested

theorem requestedTx_eq (peer : NodeId) (txhash : Uint256) (expiry : Int)
    (sane : Sane siphash impl) :
    ∃ after, requestedTx siphash peer txhash expiry impl = .ok after ∧ Sane siphash after := by
  unfold requestedTx
  cases isBest : findByPeer peer true txhash impl with
  | some ann =>
    obtain ⟨member, _, best, _⟩ := findByPeer_some sane.kept isBest
    obtain ⟨rest, perm⟩ := exists_rest member
    obtain ⟨after, requests, kept, changed⟩ := sane.kept.modify_eq (changes_request expiry ann) perm
    refine ⟨after, requests, kept, ?_⟩
    refine Settled.perm ?_ changed.symm
    refine settled_request sane.settled perm ?_ rfl rfl
    intro x inGroup selected
    have apart := (SettledGroup.cons_iff.mp (sane.settled.group perm)).1 x inGroup
    exact apart ⟨isSelected_iff.mpr (.inl (beq_iff_eq.mp best)), selected⟩
  | none =>
    cases isOther : findByPeer peer false txhash impl with
    | none => exact ⟨impl, rfl, sane⟩
    | some ann => ?_
    obtain ⟨member, _, _, same⟩ := findByPeer_some sane.kept isOther
    obtain ⟨rest, perm⟩ := exists_rest member
    dsimp only
    split
    case isFalse => exact ⟨impl, rfl, sane⟩
    case isTrue candidate =>
      have notSelected : ¬ann.isSelected = true := by
        rw [isSelected_iff]
        rcases candidate with delayed | ready
        · rw [delayed]
          decide
        · rw [ready]
          decide
      obtain ⟨next, others, yields, kept, left, settled⟩ := yieldSelected_eq sane perm notSelected
      obtain ⟨after, requests, afterKept, changed⟩ :=
        kept.modify_eq (changes_request expiry ann) left
      rw [same] at yields
      rw [yields]
      have request := settled { ann with m_state := .requested, m_time := expiry } rfl rfl
      exact ⟨after, requests, afterKept, request.perm changed.symm⟩

section SanityCheck

variable {group : List Announcement}

theorem countP_selected (group : List Announcement) :
    (group.countP fun ann => ann.m_state == .candidateBest) +
      (group.countP fun ann => ann.m_state == .requested) = group.countP isSelected := by
  induction group with
  | nil => rfl
  | cons first group ih =>
    have selected : first.isSelected =
        (first.m_state == .candidateBest || first.m_state == .requested) := rfl
    simp only [List.countP_cons, selected]
    cases first.m_state <;> simp <;> omega

theorem SettledGroup.selected_le_one (settled : SettledGroup siphash group) :
    group.countP isSelected ≤ 1 := by
  have single := settled.single
  clear settled
  induction group with
  | nil => exact Nat.zero_le 1
  | cons first group ih =>
    obtain ⟨apart, single⟩ := pairwise_cons.mp single
    by_cases selected : first.isSelected = true
    · have others : group.countP isSelected = 0 := by
        rw [List.countP_eq_zero]
        intro x member isSelected
        exact apart x member ⟨selected, isSelected⟩
      rw [List.countP_cons_of_pos selected, others]
    · rw [List.countP_cons_of_neg selected]
      exact ih single

theorem foldl_best {value : Nat} {group : List Announcement} {start : Nat}
    (same : ∀ x ∈ group, x.m_state = .candidateBest → priority siphash x = value)
    (found : start = value ∨ ∃ x ∈ group, x.m_state = .candidateBest) : group.foldl
      (fun best ann => if ann.m_state = .candidateBest then priority siphash ann else best)
      start = value := by
  induction group generalizing start with
  | nil => exact found.resolve_right (by simp)
  | cons first group ih =>
    rw [List.foldl_cons]
    apply ih (fun x member => same x (mem_cons_of_mem first member))
    split_ifs with isBest
    · exact .inl (same first List.mem_cons_self isBest)
    · simp only [mem_cons, exists_eq_or_imp, isBest, false_or] at found
      exact found

theorem foldl_ready_le {bound : Nat} {group : List Announcement} {start : Nat}
    (below : ∀ x ∈ group, x.m_state = .candidateReady → priority siphash x ≤ bound)
    (begin : start ≤ bound) : group.foldl
      (fun best ann =>
        if ann.m_state = .candidateReady then max best (priority siphash ann) else best)
      start ≤ bound := by
  induction group generalizing start with
  | nil => exact begin
  | cons first group ih =>
    rw [List.foldl_cons]
    apply ih (fun x member => below x (mem_cons_of_mem first member))
    split_ifs with ready
    · exact Nat.max_le.mpr ⟨begin, below first List.mem_cons_self ready⟩
    · exact begin

theorem countP_pos_of_live {b : Announcement} (member : b ∈ group)
    (alive : b.m_state ≠ .completed) :
    0 < (group.countP fun ann => ann.m_state == .candidateDelayed) +
      (group.countP fun ann => ann.m_state == .candidateReady) +
      (group.countP fun ann => ann.m_state == .candidateBest) +
      (group.countP fun ann => ann.m_state == .requested) := by
  have counted : 0 < group.countP fun ann => ann.m_state == b.m_state :=
    countP_pos_iff.mpr ⟨b, member, beq_self_eq_true _⟩
  cases state : b.m_state with
  | completed => exact absurd state alive
  | candidateDelayed | candidateReady | candidateBest | requested =>
    rw [state] at counted
    omega

theorem SettledGroup.isSane (settled : SettledGroup siphash group) (nonempty : group ≠ [])
    (peers : (group.map (·.m_peer)).Nodup) : (computeTxHashInfo siphash group).isSane = true := by
  have selected := countP_selected group
  have single := settled.selected_le_one
  obtain ⟨b, member, alive⟩ := settled.live.resolve_left nonempty
  have live := countP_pos_of_live member alive
  have ready : (group.countP fun ann => ann.m_state == .candidateReady) = 0 ∨
      0 < group.countP isSelected := by
    rcases Nat.eq_zero_or_pos (group.countP fun ann => ann.m_state == .candidateReady) with
      none | some
    · exact .inl none
    · obtain ⟨x, inGroup, isReady⟩ := countP_pos_iff.mp some
      obtain ⟨y, yMember, ySelected⟩ := settled.backed x inGroup (beq_iff_eq.mp isReady)
      exact .inr (countP_pos_iff.mpr ⟨y, yMember, ySelected⟩)
  have priorities : (group.countP fun ann => ann.m_state == .candidateBest) = 0 ∨
      (computeTxHashInfo siphash group).m_priority_best_candidate_ready ≤
        (computeTxHashInfo siphash group).m_priority_candidate_best := by
    rcases Nat.eq_zero_or_pos (group.countP fun ann => ann.m_state == .candidateBest) with
      none | some
    · exact .inl none
    obtain ⟨x, inGroup, isBest⟩ := countP_pos_iff.mp some
    have isBest := beq_iff_eq.mp isBest
    have best : (computeTxHashInfo siphash group).m_priority_candidate_best =
        priority siphash x := by
      apply foldl_best
      · intro y yMember yBest
        rw [settled.eq_of_selected yMember inGroup (isSelected_iff.mpr (.inl yBest))
          (isSelected_iff.mpr (.inl isBest))]
      · exact .inr ⟨x, inGroup, isBest⟩
    rw [best]
    refine .inr (foldl_ready_le ?_ (Nat.zero_le _))
    exact fun y yMember yReady => settled.best y yMember x inGroup yReady isBest
  simp only [TxHashInfo.isSane, Bool.and_eq_true, Bool.or_eq_true, decide_eq_true_iff, beq_iff_eq]
  refine ⟨⟨⟨⟨live, ?_⟩, ?_⟩, ?_⟩, peers⟩
  · exact selected ▸ single
  · rcases ready with none | some
    · exact .inl none
    · right
      change (group.countP _) + (group.countP _) = 1
      omega
  · rcases priorities with none | below
    · exact .inl (.inr none)
    · exact .inr below

theorem Sane.sanityCheck_eq (sane : Sane siphash impl) : sanityCheck siphash impl = true := by
  have kept := sane.kept
  rw [sanityCheck, Bool.and_eq_true, List.all_eq_true, List.all_eq_true]
  constructor
  · intro peer _
    rw [beq_iff_eq, kept.counted, recomputePeerInfo_perm kept.peers]
  · intro txhash listed
    have same : (impl.m_index.byPeer.filter fun ann => ann.txhash == txhash).Perm
        (groupOf txhash impl.anns) := kept.peers.filter _
    have settled := (sane.settled txhash).perm same.symm
    apply settled.isSane
    · obtain ⟨x, member, isHash⟩ := mem_map.mp listed
      apply List.ne_nil_of_mem
      exact mem_filter.mpr ⟨member, beq_iff_eq.mpr isHash⟩
    · rw [List.Nodup, List.pairwise_map]
      have once := once_perm kept.peers.symm kept.once
      refine List.Pairwise.imp_of_mem ?_ (once.sublist List.filter_sublist)
      intro x y xMember yMember apart samePeer
      have xHash := beq_iff_eq.mp (mem_filter.mp xMember).2
      have yHash := beq_iff_eq.mp (mem_filter.mp yMember).2
      exact apart ⟨samePeer, xHash.trans yHash.symm⟩

end SanityCheck

/-! ### What can be requested -/

def DueCandidate (now : Int) (txhash : Uint256) (anns : List Announcement) (ann : Announcement) :
    Prop :=
  ann ∈ anns ∧ ann.txhash = txhash ∧ ann.isCandidate = true ∧ ann.m_time ≤ now

def Outstanding (now : Int) (txhash : Uint256) (anns : List Announcement) : Prop :=
  ∃ ann ∈ anns, ann.txhash = txhash ∧ ann.m_state = .requested ∧ now < ann.m_time

/-- One due candidate of highest priority for each hash that has due candidates and no
outstanding request. -/
structure Chosen (siphash : SipHash) (now : Int) (anns chosen : List Announcement) : Prop where
  due : ∀ w ∈ chosen, DueCandidate now w.txhash anns w
  free : ∀ w ∈ chosen, ¬Outstanding now w.txhash anns
  highest : ∀ w ∈ chosen, ∀ c, DueCandidate now w.txhash anns c →
    priority siphash c ≤ priority siphash w
  unique : ∀ w ∈ chosen, ∀ v ∈ chosen, w.txhash = v.txhash → w = v
  complete : ∀ c, DueCandidate now c.txhash anns c → ¬Outstanding now c.txhash anns →
    ∃ w ∈ chosen, w.txhash = c.txhash

theorem viewed_isCandidate (a : Announcement) : (viewed a).isCandidate = a.isCandidate := by
  unfold viewed
  split
  case isTrue candidate =>
    rw [candidate]
    rfl
  case isFalse => rfl

private theorem txhash_of_viewed (same : viewed a = viewed b) : a.txhash = b.txhash :=
  eq_of_viewed Announcement.txhash same

section

variable (same : ∀ ann, Live now ann → (ann ∈ after.map viewed → ann ∈ before.map viewed))

include same

theorem dueCandidate_of_sameLive (due : DueCandidate now txhash after a) :
    ∃ b, DueCandidate now txhash before b ∧ viewed b = viewed a := by
  obtain ⟨member, isHash, candidate, time⟩ := due
  have live : Live now (viewed a) := .inl ((viewed_isCandidate a).trans candidate)
  obtain ⟨b, inBefore, views⟩ := mem_map.mp (same _ live (List.mem_map_of_mem member))
  refine ⟨b, ⟨inBefore, (txhash_of_viewed views).trans isHash, ?_, ?_⟩, views⟩
  · rw [← viewed_isCandidate b, views, viewed_isCandidate, candidate]
  · rw [eq_of_viewed (·.m_time) views]
    exact time

theorem outstanding_of_sameLive (outstanding : Outstanding now txhash after) :
    Outstanding now txhash before := by
  obtain ⟨y, member, isHash, requested, later⟩ := outstanding
  have notCandidate := not_candidate (.inl requested)
  have inBefore := same y (.inr ⟨requested, later⟩)
    (mem_map.mpr ⟨y, member, viewed_of_not_candidate notCandidate⟩)
  obtain ⟨z, zMember, views⟩ := mem_map.mp inBefore
  have zNotCandidate : ¬z.isCandidate = true := by
    rw [← viewed_isCandidate z, views]
    exact notCandidate
  rw [viewed_of_not_candidate zNotCandidate] at views
  rw [views] at zMember
  exact ⟨y, zMember, isHash, requested, later⟩

end

/-- The announcements whose counterparts are the best candidates once the time is set. -/
def bestOf (before after : List Announcement) : List Announcement :=
  before.filter fun w => after.any fun b =>
    b.m_state == .candidateBest && viewed b == viewed w

theorem mem_bestOf : a ∈ bestOf before after ↔
      a ∈ before ∧ ∃ b ∈ after, b.m_state = .candidateBest ∧ viewed b = viewed a := by
  rw [bestOf, mem_filter, List.any_eq_true]
  simp only [Bool.and_eq_true, beq_iff_eq]

theorem dueCandidate_of_best {anns : List Announcement} (due : Due now anns) (member : b ∈ anns)
    (isBest : b.m_state = .candidateBest) : DueCandidate now b.txhash anns b := by
  have selectable := isSelectable_iff.mpr (.inr isBest)
  refine ⟨member, rfl, ?_, due b member selectable⟩
  rw [isCandidate, selectable, Bool.or_true]

theorem best_iff_bestOf (live : SameLive now before after) (due : Due now after) {gtxid : GenTxid} :
    (∃ b ∈ after, b.m_peer = peer ∧ b.m_state = .candidateBest ∧ b.m_gtxid = gtxid) ↔
      ∃ w ∈ bestOf before after, w.m_peer = peer ∧ w.m_gtxid = gtxid := by
  constructor
  · intro ⟨b, member, isPeer, isBest, isGtxid⟩
    obtain ⟨w, wDue, views⟩ := dueCandidate_of_sameLive
      (fun ann isLive => (live ann isLive).mp) (dueCandidate_of_best due member isBest)
    refine ⟨w, mem_bestOf.mpr ⟨wDue.1, b, member, isBest, views.symm⟩, ?_, ?_⟩
    · rw [eq_of_viewed (·.m_peer) views, isPeer]
    · rw [eq_of_viewed (·.m_gtxid) views, isGtxid]
  · intro ⟨w, chosen, isPeer, isGtxid⟩
    obtain ⟨_, b, member, isBest, views⟩ := mem_bestOf.mp chosen
    refine ⟨b, member, ?_, isBest, ?_⟩
    · rw [eq_of_viewed (·.m_peer) views, isPeer]
    · rw [eq_of_viewed (·.m_gtxid) views, isGtxid]

section Chosen

variable {now : Int} {before : List Announcement} (sane : Sane siphash impl)
  (live : SameLive now before impl.anns) (passed : Passed now impl.anns) (due : Due now impl.anns)

include sane passed

theorem selected_of_due (isDue : DueCandidate now txhash impl.anns a) :
    ∃ b ∈ impl.anns, b.txhash = txhash ∧ b.isSelected = true ∧
      (b.m_state = .candidateBest → priority siphash a ≤ priority siphash b) := by
  obtain ⟨member, isHash, candidate, time⟩ := isDue
  have inGroup := mem_groupOf.mpr ⟨member, isHash⟩
  have settled := sane.settled txhash
  cases state : a.m_state with
  | candidateDelayed =>
    have later := passed a member (isWaiting_iff.mpr (.inr state))
    omega
  | candidateReady =>
    obtain ⟨b, bMember, selected⟩ := settled.backed a inGroup state
    have inAnns := mem_groupOf.mp bMember
    exact ⟨b, inAnns.1, inAnns.2, selected, settled.best a inGroup b bMember state⟩
  | candidateBest =>
    exact ⟨a, member, isHash, isSelected_iff.mpr (.inl state), fun _ => le_refl _⟩
  | requested | completed =>
    exact absurd candidate (not_candidate (by simp [state]))

include live due

theorem chosen_bestOf (nodes : before.Pairwise fun x y => x.m_sequence ≠ y.m_sequence) :
    Chosen siphash now before (bestOf before impl.anns) := by
  have backward := fun ann isLive => (live ann isLive).mp
  have forward := fun ann isLive => (live ann isLive).mpr
  have alone : ∀ b ∈ impl.anns, ∀ c ∈ impl.anns, b.txhash = c.txhash → b.isSelected = true →
      c.isSelected = true → b = c := by
    intro b bMember c cMember same bSelected cSelected
    exact (sane.settled c.txhash).eq_of_selected (mem_groupOf.mpr ⟨bMember, same⟩)
      (mem_groupOf.mpr ⟨cMember, rfl⟩) bSelected cSelected
  constructor
  case due =>
    intro w chosen
    obtain ⟨inBefore, b, member, isBest, views⟩ := mem_bestOf.mp chosen
    obtain ⟨v, vDue, same⟩ := dueCandidate_of_sameLive backward
      (dueCandidate_of_best due member isBest)
    have isW : v = w := eq_of_sequence nodes vDue.1 inBefore
      (eq_of_viewed (·.m_sequence) (same.trans views))
    rw [isW] at vDue
    rw [← txhash_of_viewed views]
    exact vDue
  case free =>
    intro w chosen outstanding
    obtain ⟨_, b, member, isBest, views⟩ := mem_bestOf.mp chosen
    obtain ⟨y, yMember, sameHash, requested, _⟩ := outstanding_of_sameLive forward outstanding
    have same := alone b member y yMember ((txhash_of_viewed views).trans sameHash.symm)
      (isSelected_iff.mpr (.inl isBest)) (isSelected_iff.mpr (.inr requested))
    rw [same, requested] at isBest
    cases isBest
  case highest =>
    intro w chosen c cDue
    obtain ⟨_, b, member, isBest, views⟩ := mem_bestOf.mp chosen
    obtain ⟨d, dDue, same⟩ := dueCandidate_of_sameLive forward cDue
    obtain ⟨e, eMember, eHash, eSelected, below⟩ := selected_of_due sane passed dDue
    have isB : e = b := alone e eMember b member (eHash.trans (txhash_of_viewed views).symm)
      eSelected (isSelected_iff.mpr (.inl isBest))
    rw [isB] at below
    rw [← eq_of_viewed (priority siphash) same, ← eq_of_viewed (priority siphash) views]
    exact below isBest
  case unique =>
    intro w wChosen v vChosen sameHash
    obtain ⟨wBefore, b, bMember, bBest, bViews⟩ := mem_bestOf.mp wChosen
    obtain ⟨vBefore, c, cMember, cBest, cViews⟩ := mem_bestOf.mp vChosen
    have hashes : b.txhash = c.txhash :=
      (txhash_of_viewed bViews).trans (sameHash.trans (txhash_of_viewed cViews).symm)
    have same := alone b bMember c cMember hashes (isSelected_iff.mpr (.inl bBest))
      (isSelected_iff.mpr (.inl cBest))
    rw [same] at bViews
    exact eq_of_sequence nodes wBefore vBefore
      (eq_of_viewed (·.m_sequence) (bViews.symm.trans cViews))
  case complete =>
    intro c cDue notOutstanding
    obtain ⟨d, dDue, _⟩ := dueCandidate_of_sameLive forward cDue
    obtain ⟨b, member, isHash, selected, _⟩ := selected_of_due sane passed dDue
    rcases isSelected_iff.mp selected with isBest | requested
    · obtain ⟨w, wDue, views⟩ := dueCandidate_of_sameLive backward
        (dueCandidate_of_best due member isBest)
      exact ⟨w, mem_bestOf.mpr ⟨wDue.1, b, member, isBest, views.symm⟩, wDue.2.1.trans isHash⟩
    · have later := passed b member (isWaiting_iff.mpr (.inl requested))
      exact absurd (outstanding_of_sameLive backward ⟨b, member, isHash, requested, later⟩)
        notOutstanding

end Chosen

theorem lower_peer_le_iff : toLex (peer, toLex (true, 0)) ≤ byPeerView x ↔
      peer < x.m_peer ∨ x.m_peer = peer ∧ x.m_state = .candidateBest := by
  simp only [byPeerView, Prod.Lex.toLex_le_toLex]
  cases best : x.m_state == .candidateBest with
  | true =>
    have isBest := beq_iff_eq.mp best
    simp [isBest, eq_comm]
  | false =>
    have notBest : x.m_state ≠ .candidateBest := by
      intro isBest
      rw [isBest] at best
      cases best
    simp [notBest]

theorem mem_selected_iff (kept : Kept siphash impl) : (x ∈ (impl.m_index.byPeer.dropWhile fun ann =>
        decide (byPeerView ann < toLex (peer, toLex (true, 0)))).takeWhile fun ann =>
          ann.m_peer == peer && ann.m_state == .candidateBest) ↔
      x ∈ impl.anns ∧ x.m_peer = peer ∧ x.m_state = .candidateBest := by
  have sorted := kept.peersSorted
  constructor
  · intro member
    have holds := List.mem_takeWhile_imp member
    rw [Bool.and_eq_true, beq_iff_eq, beq_iff_eq] at holds
    have inPeers := (dropWhile_sublist _).mem ((List.takeWhile_sublist _).mem member)
    exact ⟨kept.peers.mem_iff.mp inPeers, holds⟩
  · intro ⟨member, isPeer, isBest⟩
    have inLower := sorted.mem_lower_iff.mpr
      ⟨kept.peers.mem_iff.mpr member, lower_peer_le_iff.mpr (.inr ⟨isPeer, isBest⟩)⟩
    apply Sorted.mem_takeWhile (sorted.sublist (dropWhile_sublist _)) inLower
    intro y yMember below
    rw [Bool.and_eq_true, beq_iff_eq, beq_iff_eq]
    refine (lower_peer_le_iff.mp (sorted.mem_lower_iff.mp yMember).2).resolve_left ?_
    intro above
    have ranks : y.m_peer ≤ x.m_peer := by
      rcases Prod.Lex.toLex_le_toLex.mp below with lower | same
      · exact Int.le_of_lt lower
      · exact Int.le_of_eq same.1
    rw [isPeer] at ranks
    exact absurd ranks (Int.not_le.mpr above)

theorem getRequestable_eq (peer : NodeId) (now : Int) {expired : List (NodeId × GenTxid)}
    {after : Impl} (afterSane : Sane siphash after)
    (sets : setTimePoint siphash now impl = .ok (expired, after)) :
    ∃ requestable, getRequestable siphash peer now impl = .ok ((requestable, expired), after) ∧
      (requestable.map (·.hash)).Nodup ∧
      ∀ gtxid, gtxid ∈ requestable ↔
        ∃ b ∈ after.anns, b.m_peer = peer ∧ b.m_state = .candidateBest ∧ b.m_gtxid = gtxid := by
  refine ⟨_, by rw [getRequestable, sets]; rfl, ?_, ?_⟩
  · rw [List.map_map, ((List.mergeSort_perm _ _).map _).nodup_iff, List.Nodup, List.pairwise_map]
    have once := once_perm afterSane.kept.peers.symm afterSane.kept.once
    refine List.Pairwise.imp_of_mem ?_
      (once.sublist ((List.takeWhile_sublist _).trans (dropWhile_sublist _)))
    intro x y xMember yMember apart sameHash
    have xPeer := ((mem_selected_iff afterSane.kept).mp xMember).2.1
    have yPeer := ((mem_selected_iff afterSane.kept).mp yMember).2.1
    exact apart ⟨xPeer.trans yPeer.symm, sameHash⟩
  · intro gtxid
    rw [mem_map]
    simp only [(List.mergeSort_perm _ _).mem_iff, mem_selected_iff afterSane.kept, and_assoc]

theorem getRequestable_of_sorted {after : Impl} {expired : List (NodeId × GenTxid)}
    {selected : List Announcement} (sets : setTimePoint siphash now impl = .ok (expired, after))
    (selects : (after.m_index.byPeer.dropWhile fun ann => decide (byPeerView ann < toLex (peer,
      toLex (true, 0)))).takeWhile (fun ann => ann.m_peer == peer && ann.m_state == .candidateBest)
      = selected)
    (sorted : selected.Pairwise fun x y => x.m_sequence % 2 ^ 59 ≤ y.m_sequence % 2 ^ 59) :
    getRequestable siphash peer now impl = .ok ((selected.map (·.m_gtxid), expired), after) := by
  have unchanged : selected.mergeSort (fun x y =>
      decide (x.m_sequence % 2 ^ 59 ≤ y.m_sequence % 2 ^ 59)) = selected := by
    apply List.mergeSort_of_pairwise
    exact sorted.imp fun le => decide_eq_true le
  rw [getRequestable, sets, Program.ok_bind]
  dsimp only
  rw [selects, unchanged]
  rfl

inductive Call where
  | receivedInv (peer : NodeId) (gtxid : GenTxid) (preferred : Bool) (reqtime : Int)
  | requestedTx (peer : NodeId) (txhash : Uint256) (expiry : Int)
  | receivedResponse (peer : NodeId) (txhash : Uint256)
  | forgetTxHash (txhash : Uint256)
  | disconnectedPeer (peer : NodeId)
  | getRequestable (peer : NodeId) (now : Int)
  deriving DecidableEq, Repr

def Call.run (siphash : SipHash) (impl : Impl) : Call → Except Halt Impl
  | .receivedInv peer gtxid preferred reqtime =>
    .ok (TxRequest.receivedInv siphash peer gtxid preferred reqtime impl)
  | .requestedTx peer txhash expiry => TxRequest.requestedTx siphash peer txhash expiry impl
  | .receivedResponse peer txhash => TxRequest.receivedResponse siphash peer txhash impl
  | .forgetTxHash txhash => TxRequest.forgetTxHash siphash txhash impl
  | .disconnectedPeer peer => TxRequest.disconnectedPeer siphash peer impl
  | .getRequestable peer now => do
    let (_, impl) ← TxRequest.getRequestable siphash peer now impl
    pure impl

def runCalls (siphash : SipHash) (calls : List Call) (impl : Impl) : Except Halt Impl :=
  calls.foldlM (Call.run siphash) impl

theorem Call.run_eq (call : Call) (sane : Sane siphash impl) :
    ∃ after, call.run siphash impl = .ok after ∧ Sane siphash after := by
  cases call with
  | receivedInv peer gtxid preferred reqtime =>
    exact ⟨_, rfl, receivedInv_sane peer gtxid preferred reqtime sane⟩
  | requestedTx peer txhash expiry => exact requestedTx_eq peer txhash expiry sane
  | receivedResponse peer txhash =>
    obtain ⟨after, receives, afterSane, _⟩ := receivedResponse_eq peer txhash sane
    exact ⟨after, receives, afterSane⟩
  | forgetTxHash txhash => exact forgetTxHash_eq txhash sane
  | disconnectedPeer peer => exact disconnectedPeer_eq peer sane
  | getRequestable peer now =>
    obtain ⟨expired, after, sets, afterSane, _⟩ := setTimePoint_eq now sane
    obtain ⟨requestable, gets, _⟩ := getRequestable_eq peer now afterSane sets
    refine ⟨after, ?_, afterSane⟩
    rw [Call.run, gets]
    rfl

theorem runCalls_eq (calls : List Call) (sane : Sane siphash impl) :
    ∃ after, runCalls siphash calls impl = .ok after ∧ Sane siphash after := by
  apply Program.exists_foldlM_ok _ sane
  intro impl sane call _
  exact call.run_eq sane

theorem initial_sane : Sane siphash Impl.initial := by
  constructor
  case settled => exact fun _ => .nil
  case kept =>
    constructor
    case peers | times => exact .refl _
    case peersSorted | hashesSorted | timesSorted | nodes | once => exact .nil
    case fresh =>
      intro x impossible
      cases impossible
    case counted => exact fun _ => rfl

/-- After every sequence of calls the tracker passes its check, and what can be requested
from a peer are the hashes for which that peer has the chosen candidate. -/
theorem sane_after_every_run (siphash : SipHash) (calls : List Call) :
    ∃ impl, runCalls siphash calls .initial = .ok impl ∧ sanityCheck siphash impl = true ∧
      ∀ now, ∃ chosen, Chosen siphash now impl.anns chosen ∧
        ∀ peer, ∃ requestable expired after,
          getRequestable siphash peer now impl = .ok ((requestable, expired), after) ∧
          (requestable.map (·.hash)).Nodup ∧
          ∀ gtxid, gtxid ∈ requestable ↔ ∃ w ∈ chosen, w.m_peer = peer ∧ w.m_gtxid = gtxid := by
  obtain ⟨impl, runs, sane⟩ := runCalls_eq calls (@initial_sane siphash)
  refine ⟨impl, runs, sane.sanityCheck_eq, ?_⟩
  intro now
  obtain ⟨expired, after, sets, afterSane, live, passed, due⟩ := setTimePoint_eq now sane
  refine ⟨bestOf impl.anns after.anns, chosen_bestOf afterSane live passed due sane.kept.nodes, ?_⟩
  intro peer
  obtain ⟨requestable, gets, once, exact_⟩ := getRequestable_eq peer now afterSane sets
  refine ⟨requestable, expired, after, gets, once, ?_⟩
  intro gtxid
  exact (exact_ gtxid).trans (best_iff_bestOf live due)

end Adonai.TxRequest
