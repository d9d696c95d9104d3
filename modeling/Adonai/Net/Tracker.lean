/-
What each operation of the tracker does to the announcements.

`Kept` holds between all changes: the three indexes are sorted lists of the same
announcements and the statistics count them. `Settled` holds between operations.
-/

import Adonai.Net.Announcements

namespace Adonai.TxRequest

open OrderedIndex
open Announcement (isSelectable isWaiting)
open List (countP_cons map_cons mem_append mem_cons mem_cons_of_mem mem_cons_self
  mem_singleton pairwise_cons)

variable {siphash : SipHash} {a b x : Announcement} {front back rest : List Announcement}

theorem byTxHashView_le_iff : byTxHashView siphash a ≤ byTxHashView siphash b ↔
      a.txhash.memcmpRank < b.txhash.memcmpRank ∨
        a.txhash = b.txhash ∧ (a.m_state.order < b.m_state.order ∨
          a.m_state.order = b.m_state.order ∧
            (if a.m_state = .candidateReady then priority siphash a else 0) ≤
              (if b.m_state = .candidateReady then priority siphash b else 0)) := by
  have rank : a.txhash.memcmpRank = b.txhash.memcmpRank ↔ a.txhash = b.txhash :=
    ⟨memcmpRank_injective, congrArg _⟩
  simp only [byTxHashView, Prod.Lex.toLex_le_toLex, rank]

theorem order_le_of_view_le (below : byTxHashView siphash a ≤ byTxHashView siphash b)
    (same : a.txhash = b.txhash) : a.m_state.order ≤ b.m_state.order := by
  rcases byTxHashView_le_iff.mp below with lower | ⟨_, lower | ⟨equal, _⟩⟩
  · rw [same] at lower
    exact absurd lower (Nat.lt_irrefl _)
  · exact Nat.le_of_lt lower
  · exact Nat.le_of_eq equal

theorem txhash_of_between (above : byTxHashView siphash a ≤ byTxHashView siphash b)
    (below : byTxHashView siphash b ≤ byTxHashView siphash x) (same : a.txhash = x.txhash) :
    b.txhash = a.txhash := by
  rcases byTxHashView_le_iff.mp above with lower | ⟨equal, _⟩
  · rcases byTxHashView_le_iff.mp below with higher | ⟨equal, _⟩
    · rw [← same] at higher
      exact absurd (Nat.lt_trans lower higher) (Nat.lt_irrefl _)
    · rw [equal, same]
  · exact equal.symm

section

variable (sorted : Sorted (byTxHashView siphash) (front ++ a :: back))
  (member : x ∈ front ++ a :: back) (same : x.txhash = a.txhash)

include sorted member same

theorem exists_next (later : a.m_state.order < x.m_state.order) :
    ∃ next, back.head? = some next ∧ next.txhash = a.txhash ∧
      next.m_state.order ≤ x.m_state.order := by
  have placed := sorted_insert_iff.mp sorted
  have notBelow : ¬byTxHashView siphash x ≤ byTxHashView siphash a := by
    intro below
    have order := order_le_of_view_le below same
    omega
  cases isNext : back.head? with
  | none =>
    rw [List.head?_eq_none_iff.mp isNext] at member
    rcases mem_append.mp member with inFront | here
    · exact absurd (placed.2.1 x inFront) notBelow
    · rw [mem_singleton.mp here] at notBelow
      exact absurd (le_refl _) notBelow
  | some next =>
    have above : byTxHashView siphash a ≤ byTxHashView siphash next :=
      placed.2.2 next (List.mem_of_head? isNext)
    have below : byTxHashView siphash next ≤ byTxHashView siphash x :=
      (sorted.next_between isNext member).resolve_left notBelow
    have hash := txhash_of_between above below same.symm
    exact ⟨next, rfl, hash, order_le_of_view_le below (hash.trans same.symm)⟩

theorem exists_previous (earlier : x.m_state.order < a.m_state.order) :
    ∃ previous, front.getLast? = some previous ∧ previous.txhash = a.txhash ∧
      x.m_state.order ≤ previous.m_state.order ∧ previous.m_state.order ≤ a.m_state.order := by
  have placed := sorted_insert_iff.mp sorted
  have notAbove : ¬byTxHashView siphash a ≤ byTxHashView siphash x := by
    intro above
    have order := order_le_of_view_le above same.symm
    omega
  cases isPrevious : front.getLast? with
  | none =>
    rw [List.getLast?_eq_none_iff.mp isPrevious] at member
    rcases mem_cons.mp member with here | inBack
    · rw [here] at notAbove
      exact absurd (le_refl _) notAbove
    · exact absurd (placed.2.2 x inBack) notAbove
  | some previous =>
    have below : byTxHashView siphash previous ≤ byTxHashView siphash a :=
      placed.2.1 previous (List.mem_of_getLast? isPrevious)
    have above : byTxHashView siphash x ≤ byTxHashView siphash previous :=
      (sorted.previous_between isPrevious member).resolve_right notAbove
    have hash := (txhash_of_between above below same).trans same
    exact ⟨previous, rfl, hash, order_le_of_view_le above (same.trans hash.symm),
      order_le_of_view_le below hash⟩

end

theorem priority_le_of_view_le (below : byTxHashView siphash a ≤ byTxHashView siphash b)
    (same : a.txhash = b.txhash) (aReady : a.m_state = .candidateReady)
    (bReady : b.m_state = .candidateReady) : priority siphash a ≤ priority siphash b := by
  rcases byTxHashView_le_iff.mp below with lower | ⟨_, lower | ⟨_, priorities⟩⟩
  · rw [same] at lower
    exact absurd lower (Nat.lt_irrefl _)
  · rw [aReady, bReady] at lower
    exact absurd lower (Nat.lt_irrefl _)
  · rw [if_pos aReady, if_pos bReady] at priorities
    exact priorities

def infoOf (anns : List Announcement) (peer : NodeId) : PeerInfo :=
  (recomputePeerInfo anns peer).getD {}

theorem recomputePeerInfo_perm {anns others : List Announcement} (same : anns.Perm others)
    (peer : NodeId) : recomputePeerInfo anns peer = recomputePeerInfo others peer := by
  have own := same.filter fun ann => ann.m_peer == peer
  have empty : (anns.filter fun ann => ann.m_peer == peer).isEmpty =
      (others.filter fun ann => ann.m_peer == peer).isEmpty := by
    rw [Bool.eq_iff_iff, List.isEmpty_iff, List.isEmpty_iff, ← List.length_eq_zero_iff,
      ← List.length_eq_zero_iff, own.length_eq]
  unfold recomputePeerInfo
  simp only [empty, own.length_eq, own.countP_eq]

theorem recomputePeerInfo_cons_ne {peer : NodeId} (different : a.m_peer ≠ peer)
    (rest : List Announcement) : recomputePeerInfo (a :: rest) peer =
      recomputePeerInfo rest peer := by
  have dropped : (a :: rest).filter (fun ann => ann.m_peer == peer) =
      rest.filter fun ann => ann.m_peer == peer := by
    apply List.filter_cons_of_neg
    rw [beq_iff_eq]
    exact different
  unfold recomputePeerInfo
  rw [dropped]

def PeerInfo.withOne (a : Announcement) (info : PeerInfo) : PeerInfo where
  m_total := info.m_total + 1
  m_completed := info.m_completed + oneIf (a.m_state == .completed)
  m_requested := info.m_requested + oneIf (a.m_state == .requested)

theorem recomputePeerInfo_cons_self (a : Announcement) (rest : List Announcement) :
    recomputePeerInfo (a :: rest) a.m_peer = some ((infoOf rest a.m_peer).withOne a) := by
  have kept : (a :: rest).filter (fun ann => ann.m_peer == a.m_peer) =
      a :: rest.filter fun ann => ann.m_peer == a.m_peer :=
    List.filter_cons_of_pos (beq_self_eq_true a.m_peer)
  unfold infoOf recomputePeerInfo
  rw [kept]
  cases rest.filter fun ann => ann.m_peer == a.m_peer with
  | nil => simp [PeerInfo.withOne, oneIf, countP_cons]
  | cons first others =>
    simp only [PeerInfo.withOne, oneIf, countP_cons]
    simp

theorem drop_withOne (a : Announcement) (info : PeerInfo) : (info.withOne a).drop a = info := by
  simp only [PeerInfo.drop, PeerInfo.withOne, add_sub_cancel_right]

theorem recomputePeerInfo_eq (anns : List Announcement) (peer : NodeId) :
    recomputePeerInfo anns peer =
      if (infoOf anns peer).m_total = 0 then none else some (infoOf anns peer) := by
  unfold infoOf recomputePeerInfo
  cases anns.filter fun ann => ann.m_peer == peer with
  | nil => rfl
  | cons first others =>
    simp only [List.isEmpty_cons, Bool.false_eq_true, if_false, Option.getD_some]
    rw [if_neg]
    rw [List.length_cons]
    omega

/-! ### The container -/

variable (siphash) in
structure Kept (impl : Impl) : Prop where
  peers : impl.m_index.byPeer.Perm impl.m_index.byTxHash
  times : impl.m_index.byTime.Perm impl.m_index.byTxHash
  peersSorted : Sorted byPeerView impl.m_index.byPeer
  hashesSorted : Sorted (byTxHashView siphash) impl.m_index.byTxHash
  timesSorted : Sorted byTimeView impl.m_index.byTime
  nodes : impl.m_index.byTxHash.Pairwise fun x y => x.m_sequence ≠ y.m_sequence
  fresh : ∀ x ∈ impl.m_index.byTxHash, x.m_sequence < impl.m_current_sequence
  once : impl.m_index.byTxHash.Pairwise fun x y => ¬(x.m_peer = y.m_peer ∧ x.txhash = y.txhash)
  counted : ∀ peer, impl.m_peerinfo.lookup peer = recomputePeerInfo impl.m_index.byTxHash peer

abbrev Impl.anns (impl : Impl) : List Announcement := impl.m_index.byTxHash

theorem nodes_perm {anns others : List Announcement} (same : anns.Perm others)
    (nodes : anns.Pairwise fun x y => x.m_sequence ≠ y.m_sequence) :
    others.Pairwise fun x y => x.m_sequence ≠ y.m_sequence :=
  (same.pairwise_iff fun different => Ne.symm different).mp nodes

theorem once_perm {anns others : List Announcement} (same : anns.Perm others)
    (once : anns.Pairwise fun x y => ¬(x.m_peer = y.m_peer ∧ x.txhash = y.txhash)) :
    others.Pairwise fun x y => ¬(x.m_peer = y.m_peer ∧ x.txhash = y.txhash) := by
  refine (same.pairwise_iff ?_).mp once
  intro x y apart both
  exact apart ⟨both.1.symm, both.2.symm⟩

variable {items : List Announcement}

section

variable (nodes : items.Pairwise fun x y => x.m_sequence ≠ y.m_sequence)

include nodes

theorem eq_of_sequence (aMember : a ∈ items) (bMember : b ∈ items)
    (same : a.m_sequence = b.m_sequence) : a = b := by
  by_contra different
  have symmetric : Std.Symm fun x y : Announcement => x.m_sequence ≠ y.m_sequence :=
    ⟨fun x y apart => Ne.symm apart⟩
  exact nodes.forall aMember bMember different same

theorem position_eq (perm : items.Perm (a :: rest)) :
    ∃ front back, position a.m_sequence items = .ok (front, a, back) ∧
      items = front ++ a :: back ∧ (front ++ back).Perm rest := by
  have member : a ∈ items := perm.mem_iff.mpr mem_cons_self
  have wanted : (a.m_sequence == a.m_sequence) = true := beq_self_eq_true _
  obtain ⟨front, found, back, cuts⟩ :=
    @exists_cut Announcement (fun ann => ann.m_sequence == a.m_sequence) items a member wanted
  obtain ⟨split, holds⟩ := cut_eq cuts
  have inItems : found ∈ items := by
    rw [split]
    exact List.mem_append_right front mem_cons_self
  have same : found = a := eq_of_sequence nodes inItems member (beq_iff_eq.mp holds)
  rw [same] at cuts split
  rw [split] at perm
  exact ⟨front, back, by rw [position, cuts], split,
    (List.perm_cons a).mp (List.perm_middle.symm.trans perm)⟩

variable {κ : Type} [LinearOrder κ] {view : Announcement → κ} (sorted : Sorted view items)
  (perm : items.Perm (a :: rest))

include sorted perm

theorem modifyIn_eq (change : Announcement → Announcement) :
    ∃ after, modifyIn view a.m_sequence change items = .ok after ∧ Sorted view after ∧
      after.Perm (change a :: rest) := by
  obtain ⟨front, back, found, split, around⟩ := position_eq nodes perm
  rw [split] at sorted
  refine ⟨relocate view front (change a) back, ?_, sorted.remove.relocate (change a), ?_⟩
  · rw [modifyIn, found]
    rfl
  · exact (relocate_perm front (change a) back).trans (around.cons (change a))

private theorem removeFrom_eq :
    ∃ after, removeFrom a.m_sequence items = .ok after ∧ Sorted view after ∧ after.Perm rest := by
  obtain ⟨front, back, found, split, around⟩ := position_eq nodes perm
  rw [split] at sorted
  refine ⟨front ++ back, ?_, sorted.remove, around⟩
  rw [removeFrom, found]
  rfl

end

theorem exists_rest {anns : List Announcement} (member : a ∈ anns) :
    ∃ rest, anns.Perm (a :: rest) :=
  ⟨anns.erase a, List.perm_cons_erase member⟩

namespace Kept

variable {impl : Impl}

theorem announcement_eq (kept : Kept siphash impl) (member : a ∈ impl.anns) :
    announcement a.m_sequence impl = .ok a := by
  obtain ⟨rest, perm⟩ := exists_rest member
  obtain ⟨front, back, found, _⟩ := position_eq kept.nodes perm
  rw [announcement, found]
  rfl

/-- A change keeps what an announcement is about, and the node that holds it. -/
structure Changes (change : Announcement → Announcement) (a : Announcement) : Prop where
  sequence : (change a).m_sequence = a.m_sequence
  peer : (change a).m_peer = a.m_peer
  txhash : (change a).txhash = a.txhash

variable {change : Announcement → Announcement}

theorem assertUnique_eq (kept : Kept siphash impl) (changes : Changes change a)
    (perm : impl.anns.Perm (a :: rest)) :
    assertUnique a.m_sequence change impl.m_index.byPeer = .ok () := by
  obtain ⟨front, back, found, split, around⟩ :=
    position_eq (nodes_perm kept.peers.symm kept.nodes) (kept.peers.trans perm)
  have once := (pairwise_cons.mp (once_perm perm kept.once)).1
  have free : ((front ++ back).any fun other => byPeerView other == byPeerView (change a)) =
      false := by
    rw [List.any_eq_false]
    intro other inOthers same
    have views := beq_iff_eq.mp same
    simp only [byPeerView, toLex_inj, Prod.mk.injEq] at views
    apply once other (around.mem_iff.mp inOthers)
    exact ⟨changes.peer.symm.trans views.1.symm,
      changes.txhash.symm.trans (memcmpRank_injective views.2.2).symm⟩
  rw [assertUnique, found]
  change (if _ then _ else _) = _
  rw [free]
  rfl

theorem counted_modify (changes : Changes change a) {infos : AList fun _ : NodeId => PeerInfo}
    (counted : ∀ peer, infos.lookup peer = recomputePeerInfo (a :: rest) peer) {info : PeerInfo}
    (found : infos.lookup a.m_peer = some info) (peer : NodeId) :
    (infos.insert a.m_peer ((info.count (-1) a).count 1 (change a))).lookup peer =
      recomputePeerInfo (change a :: rest) peer := by
  by_cases same : peer = a.m_peer
  · rw [counted, recomputePeerInfo_cons_self] at found
    have recount := recomputePeerInfo_cons_self (change a) rest
    rw [changes.peer] at recount
    rw [same, AList.lookup_insert, recount, ← Option.some.inj found]
    simp only [PeerInfo.count, PeerInfo.withOne, Option.some.injEq, PeerInfo.mk.injEq, true_and]
    constructor <;> omega
  · rw [AList.lookup_insert_ne same, counted, recomputePeerInfo_cons_ne (Ne.symm same),
      recomputePeerInfo_cons_ne]
    rw [changes.peer]
    exact Ne.symm same

private theorem lookup_eq (kept : Kept siphash impl) {anns : List Announcement}
    (perm : impl.anns.Perm anns) (peer : NodeId) :
    impl.m_peerinfo.lookup peer = recomputePeerInfo anns peer := by
  rw [kept.counted, recomputePeerInfo_perm perm]

theorem modify_eq (kept : Kept siphash impl) (changes : Changes change a)
    (perm : impl.anns.Perm (a :: rest)) :
    ∃ after, modify siphash a.m_sequence change impl = .ok after ∧ Kept siphash after ∧
      after.anns.Perm (change a :: rest) := by
  have nodes := kept.nodes
  have member : a ∈ impl.anns := perm.mem_iff.mpr mem_cons_self
  obtain ⟨byPeer, modifiesPeer, peersSorted, peers⟩ :=
    modifyIn_eq (nodes_perm kept.peers.symm nodes) kept.peersSorted (kept.peers.trans perm) change
  obtain ⟨byTxHash, modifiesHash, hashesSorted, hashes⟩ :=
    modifyIn_eq nodes kept.hashesSorted perm change
  obtain ⟨byTime, modifiesTime, timesSorted, times⟩ :=
    modifyIn_eq (nodes_perm kept.times.symm nodes) kept.timesSorted (kept.times.trans perm) change
  have found := kept.lookup_eq perm a.m_peer
  rw [recomputePeerInfo_cons_self] at found
  have restNodes := pairwise_cons.mp (nodes_perm perm nodes)
  have restOnce := pairwise_cons.mp (once_perm perm kept.once)
  refine ⟨{ impl with
      m_index := { byPeer := byPeer, byTxHash := byTxHash, byTime := byTime }
      m_peerinfo := impl.m_peerinfo.insert a.m_peer
        ((((infoOf rest a.m_peer).withOne a).count (-1) a).count 1 (change a)) }, ?_, ?_, hashes⟩
  · simp only [modify, kept.announcement_eq member, peerInfo, found, Index.modify,
      kept.assertUnique_eq changes perm, modifiesPeer, modifiesHash, modifiesTime, Program.ok_bind]
    rfl
  · refine ⟨peers.trans hashes.symm, times.trans hashes.symm, peersSorted, hashesSorted,
      timesSorted, ?nodes, ?fresh, ?once, ?counted⟩
    case nodes =>
      apply nodes_perm hashes.symm
      rw [pairwise_cons, changes.sequence]
      exact restNodes
    case fresh =>
      intro x inAfter
      rcases mem_cons.mp (hashes.mem_iff.mp inAfter) with same | inRest
      · rw [same, changes.sequence]
        exact kept.fresh a member
      · exact kept.fresh x (perm.mem_iff.mpr (mem_cons_of_mem a inRest))
    case once =>
      apply once_perm hashes.symm
      rw [pairwise_cons, changes.peer, changes.txhash]
      exact restOnce
    case counted =>
      intro peer
      rw [recomputePeerInfo_perm hashes]
      exact counted_modify changes (kept.lookup_eq perm) found peer

theorem erase_eq (kept : Kept siphash impl) (perm : impl.anns.Perm (a :: rest)) :
    ∃ after, erase a.m_sequence impl = .ok after ∧ Kept siphash after ∧ after.anns.Perm rest := by
  have nodes := kept.nodes
  have member : a ∈ impl.anns := perm.mem_iff.mpr mem_cons_self
  obtain ⟨byPeer, removesPeer, peersSorted, peers⟩ :=
    removeFrom_eq (nodes_perm kept.peers.symm nodes) kept.peersSorted (kept.peers.trans perm)
  obtain ⟨byTxHash, removesHash, hashesSorted, hashes⟩ := removeFrom_eq nodes kept.hashesSorted perm
  obtain ⟨byTime, removesTime, timesSorted, times⟩ :=
    removeFrom_eq (nodes_perm kept.times.symm nodes) kept.timesSorted (kept.times.trans perm)
  have found := kept.lookup_eq perm a.m_peer
  rw [recomputePeerInfo_cons_self] at found
  refine ⟨{ impl with
      m_index := { byPeer := byPeer, byTxHash := byTxHash, byTime := byTime }
      m_peerinfo :=
        if (infoOf rest a.m_peer).m_total = 0 then impl.m_peerinfo.erase a.m_peer
        else impl.m_peerinfo.insert a.m_peer (infoOf rest a.m_peer) }, ?_, ?_, hashes⟩
  · simp only [erase, kept.announcement_eq member, peerInfo, found, Index.erase, removesPeer,
      removesHash, removesTime, Program.ok_bind, drop_withOne]
    rfl
  · refine ⟨peers.trans hashes.symm, times.trans hashes.symm, peersSorted, hashesSorted,
      timesSorted, ?nodes, ?fresh, ?once, ?counted⟩
    case nodes => exact nodes_perm hashes.symm (pairwise_cons.mp (nodes_perm perm nodes)).2
    case fresh =>
      intro x inAfter
      exact kept.fresh x (perm.mem_iff.mpr (mem_cons_of_mem a (hashes.mem_iff.mp inAfter)))
    case once => exact once_perm hashes.symm (pairwise_cons.mp (once_perm perm kept.once)).2
    case counted =>
      intro peer
      rw [recomputePeerInfo_perm hashes]
      by_cases same : peer = a.m_peer
      · rw [same, recomputePeerInfo_eq]
        by_cases last : (infoOf rest a.m_peer).m_total = 0
        · rw [if_pos last, if_pos last, AList.lookup_erase]
        · rw [if_neg last, if_neg last, AList.lookup_insert]
      have before := kept.lookup_eq perm peer
      rw [recomputePeerInfo_cons_ne (Ne.symm same)] at before
      rw [← before]
      split
      · exact AList.lookup_erase_ne same
      · exact AList.lookup_insert_ne same

end Kept

/-! ### Changes of state -/

theorem changes_setState (state : State) (a : Announcement) :
    Kept.Changes (Announcement.setState state) a :=
  ⟨rfl, rfl, rfl⟩

def Announcement.isCandidate (ann : Announcement) : Bool :=
  ann.m_state == .candidateDelayed || ann.isSelectable

/-- An announcement without the distinction between its three candidate states. -/
def viewed (ann : Announcement) : Announcement :=
  if ann.isCandidate then ann.setState .candidateDelayed else ann

variable {state : State}

theorem viewed_setState (before : a.isCandidate = true)
    (after : (a.setState state).isCandidate = true) : viewed (a.setState state) = viewed a := by
  rw [viewed, viewed, if_pos before, if_pos after]
  rfl

variable (siphash) in
structure Sane (impl : Impl) : Prop where
  kept : Kept siphash impl
  settled : Settled siphash impl.anns

variable {impl : Impl}

theorem Settled.group {anns : List Announcement} (settled : Settled siphash anns)
    (perm : anns.Perm (a :: rest)) : SettledGroup siphash (a :: groupOf a.txhash rest) := by
  have group := (settled.perm perm) a.txhash
  have single : ∀ x ∈ [a], x.txhash = a.txhash := List.forall_mem_singleton.mpr rfl
  rw [show a :: rest = [a] ++ rest from rfl, groupOf_append_of_all single] at group
  exact group

section

variable {anns after : List Announcement} (settled : Settled siphash anns)

include settled

theorem Settled.replace_one (perm : anns.Perm (a :: rest)) (same : b.txhash = a.txhash)
    (changed : after.Perm (b :: rest))
    (here : SettledGroup siphash (a :: groupOf a.txhash rest) →
      SettledGroup siphash (b :: groupOf a.txhash rest)) :
    Settled siphash after := by
  have before : Settled siphash ([a] ++ rest) := settled.perm perm
  have replaced : Settled siphash ([b] ++ rest) := by
    apply before.replace a.txhash
    · simp
    · simp [same]
    · exact here
  exact replaced.perm changed.symm

theorem Settled.replace_two {c d : Announcement} (perm : anns.Perm (a :: b :: rest))
    (ab : b.txhash = a.txhash) (ac : c.txhash = a.txhash) (ad : d.txhash = a.txhash)
    (changed : after.Perm (c :: d :: rest))
    (here : SettledGroup siphash (a :: b :: groupOf a.txhash rest) →
      SettledGroup siphash (c :: d :: groupOf a.txhash rest)) :
    Settled siphash after := by
  have before : Settled siphash ([a, b] ++ rest) := settled.perm perm
  have replaced : Settled siphash ([c, d] ++ rest) := by
    apply before.replace a.txhash
    · simp [ab]
    · simp [ac, ad]
    · exact here
  exact replaced.perm changed.symm

end

/-- What a promotion leaves: the same announcements but for candidate states, one of them
no longer waiting. -/
structure Promoted (before after : List Announcement) : Prop where
  views : (after.map viewed).Perm (before.map viewed)
  waiting : after.countP isWaiting < before.countP isWaiting

theorem order_of_isSelected (selected : x.isSelected = true) :
    State.candidateReady.order < x.m_state.order ∧ x.m_state.order < State.completed.order := by
  rcases isSelected_iff.mp selected with isBest | requested
  · rw [isBest]
    decide
  · rw [requested]
    decide

section Promotion

variable {r next : Announcement} (sorted : Sorted (byTxHashView siphash) (front ++ r :: back))
  (isReady : r.m_state = .candidateReady)

include sorted isReady

theorem free_of_no_next
    (alone : ∀ next, back.head? = some next → next.txhash = r.txhash → next.m_state = .completed)
    (member : x ∈ front ++ r :: back) (same : x.txhash = r.txhash) : ¬x.isSelected = true := by
  intro selected
  obtain ⟨later, earlier⟩ := order_of_isSelected selected
  rw [← isReady] at later
  obtain ⟨next, isNext, hash, notLater⟩ := exists_next sorted member same later
  rw [alone next isNext hash] at notLater
  omega

theorem highest_of_next_best (isNext : back.head? = some next)
    (isBest : next.m_state = .candidateBest) (nextSame : next.txhash = r.txhash)
    (member : x ∈ front ++ r :: back) (same : x.txhash = r.txhash)
    (ready : x.m_state = .candidateReady) : priority siphash x ≤ priority siphash r := by
  rcases sorted.next_between isNext member with below | above
  · exact priority_le_of_view_le below same ready isReady
  · have order := order_le_of_view_le above (nextSame.trans same.symm)
    rw [isBest, ready] at order
    exact absurd order (by decide)

/-- An announcement of the hash that follows and is not completed is beside a selected one,
and bounds the candidate unless it is a worse best one. -/
theorem bounded_of_next (settled : SettledGroup siphash (a :: rest))
    (delayed : a.m_state = .candidateDelayed) (isNext : back.head? = some next)
    (nextMember : next ∈ rest) (nextSame : next.txhash = r.txhash)
    (open_ : next.m_state ≠ .completed)
    (better : next.m_state = .candidateBest → priority siphash r ≤ priority siphash next) :
    (∃ y ∈ rest, y.isSelected = true) ∧
      ∀ y ∈ rest, y.m_state = .candidateBest → priority siphash r ≤ priority siphash y := by
  have above : byTxHashView siphash r ≤ byTxHashView siphash next :=
    (sorted_insert_iff.mp sorted).2.2 next (List.mem_of_head? isNext)
  have order := order_le_of_view_le above nextSame.symm
  rw [isReady] at order
  have inGroup := mem_cons_of_mem a nextMember
  cases nextState : next.m_state with
  | candidateDelayed =>
    rw [nextState] at order
    exact absurd order (by decide)
  | completed => exact absurd nextState open_
  | candidateReady =>
    constructor
    · obtain ⟨y, member, selected⟩ := settled.backed next inGroup nextState
      rcases mem_cons.mp member with head | tail
      · rw [isSelected_iff, head, delayed] at selected
        rcases selected with impossible | impossible <;> cases impossible
      · exact ⟨y, tail, selected⟩
    · intro y member isBest
      exact le_trans (priority_le_of_view_le above nextSame.symm isReady nextState)
        (settled.best next inGroup y (mem_cons_of_mem a member) nextState isBest)
  | candidateBest =>
    have selected : next.isSelected = true := isSelected_iff.mpr (.inl nextState)
    refine ⟨⟨next, nextMember, selected⟩, ?_⟩
    intro y member isBest
    rw [settled.eq_of_selected (mem_cons_of_mem a member) inGroup
      (isSelected_iff.mpr (.inl isBest)) selected]
    exact better nextState
  | requested =>
    have selected : next.isSelected = true := isSelected_iff.mpr (.inr nextState)
    refine ⟨⟨next, nextMember, selected⟩, ?_⟩
    intro y member isBest
    have same := settled.eq_of_selected (mem_cons_of_mem a member) inGroup
      (isSelected_iff.mpr (.inl isBest)) selected
    rw [same, nextState] at isBest
    cases isBest

end Promotion

variable {before after : List Announcement}

theorem promoted_of_perm (delayed : a.m_state = .candidateDelayed) (perm : before.Perm (a :: rest))
    (selectable : state = .candidateReady ∨ state = .candidateBest)
    (changed : after.Perm (a.setState state :: rest)) : Promoted before after := by
  have candidate : a.isCandidate = true := by
    rw [Announcement.isCandidate, delayed]
    rfl
  have stays : (a.setState state).isCandidate = true := by
    rcases selectable with rfl | rfl <;> rfl
  have wakes : (a.setState state).isWaiting = false := by
    rcases selectable with rfl | rfl <;> rfl
  have waits : a.isWaiting = true := isWaiting_iff.mpr (.inr delayed)
  constructor
  · refine (changed.map viewed).trans (.trans ?_ (perm.map viewed).symm)
    rw [map_cons, map_cons, viewed_setState candidate stays]
  · rw [changed.countP_eq, perm.countP_eq, List.countP_cons_of_pos waits,
      List.countP_cons_of_neg (by rw [wakes]; decide)]
    exact Nat.lt_succ_self _

theorem Promoted.demote (isBest : b.m_state = .candidateBest)
    (promoted : Promoted before (a :: b :: rest))
    (changed : after.Perm (a :: b.setState .candidateReady :: rest)) : Promoted before after := by
  have candidate : b.isCandidate = true := by
    rw [Announcement.isCandidate, isSelectable, isBest]
    rfl
  have sleeps : b.isWaiting = false := by
    rw [isWaiting, isBest]
    rfl
  have still : (b.setState .candidateReady).isWaiting = b.isWaiting := sleeps.symm
  constructor
  · refine .trans ?_ promoted.views
    refine (changed.map viewed).trans ?_
    have same : viewed (b.setState .candidateReady) = viewed b := viewed_setState candidate rfl
    simp only [map_cons, same]
    exact .refl _
  · refine Nat.lt_of_le_of_lt (Nat.le_of_eq ?_) promoted.waiting
    simp only [changed.countP_eq, countP_cons, still]

theorem promoteCandidateReady_eq (sane : Sane siphash impl) (member : a ∈ impl.anns)
    (delayed : a.m_state = .candidateDelayed) :
    ∃ after, promoteCandidateReady siphash a.m_sequence impl = .ok after ∧ Sane siphash after ∧
      Promoted impl.anns after.anns := by
  obtain ⟨rest, perm⟩ := exists_rest member
  obtain ⟨ready, makesReady, kept, readyPerm⟩ :=
    sane.kept.modify_eq (changes_setState .candidateReady a) perm
  obtain ⟨front, back, found, split, around⟩ := position_eq kept.nodes readyPerm
  rw [sequence_setState] at found
  have sorted := kept.hashesSorted
  rw [split] at sorted
  have inReady : ∀ x ∈ groupOf a.txhash rest,
      x ∈ front ++ a.setState .candidateReady :: back ∧ x.txhash = a.txhash := by
    intro x inGroup
    obtain ⟨inRest, same⟩ := mem_groupOf.mp inGroup
    rw [← split]
    exact ⟨readyPerm.mem_iff.mpr (mem_cons_of_mem _ inRest), same⟩
  -- the candidate becomes the best when nothing else of its hash is selected
  obtain ⟨best, makesBest, bestKept, bestPerm⟩ :=
    kept.modify_eq (changes_setState .candidateBest (a.setState .candidateReady)) readyPerm
  have becomesBest (alone : ∀ next, back.head? = some next → next.txhash = a.txhash →
      next.m_state = .completed) : Sane siphash best ∧ Promoted impl.anns best.anns := by
    have best : best.anns.Perm (a.setState .candidateBest :: rest) := bestPerm
    refine ⟨⟨bestKept, ?_⟩, promoted_of_perm delayed perm (.inr rfl) best⟩
    apply sane.settled.replace_one perm (txhash_setState .candidateBest) best
    intro settled
    apply settled.promote_best delayed
    intro x inGroup
    exact free_of_no_next sorted rfl alone (inReady x inGroup).1 (inReady x inGroup).2
  simp only [promoteCandidateReady, sane.kept.announcement_eq member, Program.ok_bind, delayed,
    makesReady, found, beq_self_eq_true, assert, if_true]
  cases isNext : back.head? with
  | none =>
    rw [isNext] at becomesBest
    exact ⟨best, makesBest, becomesBest nofun⟩
  | some next => ?_
  dsimp only
  split
  case isTrue other =>
    refine ⟨best, makesBest, becomesBest ?_⟩
    intro found isFound same
    rw [isNext] at isFound
    cases isFound
    exact other.resolve_left (fun different => different same)
  case isFalse other =>
    have nextSame : next.txhash = a.txhash := by
      by_contra different
      exact other (.inl different)
    have notCompleted : next.m_state ≠ .completed := fun completed => other (.inr completed)
    have nextMember : next ∈ rest := by
      apply around.mem_iff.mp
      exact List.mem_append_right front (List.mem_of_head? isNext)
    split
    case isTrue worse =>
      obtain ⟨others, restPerm⟩ := exists_rest nextMember
      have both := readyPerm.trans ((restPerm.cons _).trans (.swap _ _ _))
      obtain ⟨demoted, demotes, demotedKept, demotedPerm⟩ :=
        kept.modify_eq (changes_setState .candidateReady next) both
      obtain ⟨after, makesBest, afterKept, afterPerm⟩ :=
        demotedKept.modify_eq (changes_setState .candidateBest (a.setState .candidateReady))
          (demotedPerm.trans (.swap _ _ _))
      rw [demotes]
      refine ⟨after, makesBest, ⟨afterKept, ?_⟩, ?_⟩
      · apply sane.settled.replace_two (perm.trans (restPerm.cons a)) nextSame
          (txhash_setState .candidateBest) ((txhash_setState .candidateReady).trans nextSame)
          afterPerm
        intro settled
        apply settled.promote_instead worse.1 _ worse.2
        intro x inGroup isReady
        obtain ⟨inOthers, same⟩ := mem_groupOf.mp inGroup
        have inRest := restPerm.mem_iff.mpr (mem_cons_of_mem next inOthers)
        have inAll := inReady x (mem_groupOf.mpr ⟨inRest, same⟩)
        have highest := highest_of_next_best sorted rfl isNext worse.1 nextSame inAll.1
        exact highest inAll.2 isReady
      · have promoted : Promoted impl.anns (a.setState .candidateBest :: next :: others) :=
          promoted_of_perm delayed (perm.trans (restPerm.cons a)) (.inr rfl) (.refl _)
        exact promoted.demote worse.1 afterPerm
    case isFalse better =>
      refine ⟨ready, rfl, ⟨kept, ?_⟩, promoted_of_perm delayed perm (.inl rfl) readyPerm⟩
      apply sane.settled.replace_one perm (txhash_setState .candidateReady) readyPerm
      intro settled
      obtain ⟨taken, bound⟩ := bounded_of_next sorted rfl settled delayed isNext
        (mem_groupOf.mpr ⟨nextMember, nextSame⟩) nextSame notCompleted (by
          intro isBest
          by_contra higher
          exact better ⟨isBest, Nat.lt_of_not_le higher⟩)
      exact settled.wait taken bound

theorem successor_some {previous : Announcement}
    (sorted : Sorted (byTxHashView siphash) (front ++ a :: back))
    (chosen : successor front a = some previous) :
    a.isSelected = true ∧ previous ∈ front ∧ previous.txhash = a.txhash ∧
      previous.m_state = .candidateReady ∧
      ∀ x ∈ front ++ a :: back, x.txhash = a.txhash → x.m_state = .candidateReady →
        priority siphash x ≤ priority siphash previous := by
  unfold successor at chosen
  split at chosen
  case isTrue selected =>
    obtain ⟨isPrevious, holds⟩ := Option.filter_eq_some_iff.mp chosen
    rw [Bool.and_eq_true, beq_iff_eq, beq_iff_eq] at holds
    refine ⟨selected, List.mem_of_getLast? isPrevious, holds.1, holds.2, ?_⟩
    intro x member same ready
    rcases sorted.previous_between isPrevious member with below | above
    · exact priority_le_of_view_le below (same.trans holds.1.symm) ready holds.2
    · have order := order_le_of_view_le above same.symm
      rw [ready] at order
      exact absurd order (Nat.not_le.mpr (order_of_isSelected selected).1)
  case isFalse => cases chosen

theorem successor_none (sorted : Sorted (byTxHashView siphash) (front ++ a :: back))
    (settled : SettledGroup siphash (a :: rest)) (chosen : successor front a = none)
    (selected : a.isSelected = true) (fronts : ∀ x ∈ front, x.txhash = a.txhash → x ∈ rest)
    (member : x ∈ front ++ a :: back) (same : x.txhash = a.txhash) :
    x.m_state ≠ .candidateReady := by
  intro ready
  have order : x.m_state.order < a.m_state.order := by
    rw [ready]
    exact (order_of_isSelected selected).1
  obtain ⟨previous, isPrevious, hash, above, below⟩ := exists_previous sorted member same order
  have inRest := fronts previous (List.mem_of_getLast? isPrevious) hash
  -- it is not ready, hence selected as well
  have notReady : previous.m_state ≠ .candidateReady := by
    intro previousReady
    rw [successor, if_pos selected, isPrevious, Option.filter_some,
      if_pos (by rw [Bool.and_eq_true, beq_iff_eq, beq_iff_eq]; exact ⟨hash, previousReady⟩)]
      at chosen
    cases chosen
  have previousSelected : previous.isSelected = true := by
    rw [isSelected_iff]
    rw [ready] at above
    cases state : previous.m_state with
    | candidateDelayed =>
      rw [state] at above
      exact absurd above (by decide)
    | candidateReady => exact absurd state notReady
    | candidateBest => exact .inl rfl
    | requested => exact .inr rfl
    | completed =>
      rw [state] at below
      exact absurd below (Nat.not_le.mpr (order_of_isSelected selected).2)
  exact (SettledGroup.cons_iff.mp settled).1 previous inRest ⟨selected, previousSelected⟩

/-- `ChangeAndReselect` retires one announcement; at most one other changes, between
candidate states. -/
theorem changeAndReselect_eq (sane : Sane siphash impl)
    (away : state = .completed ∨ state = .candidateDelayed) (perm : impl.anns.Perm (a :: rest))
    (alive : state = .completed → ∃ x ∈ groupOf a.txhash rest, x.m_state ≠ .completed) :
    ∃ after others, changeAndReselect siphash a.m_sequence state impl = .ok after ∧
      Sane siphash after ∧ after.anns.Perm (a.setState state :: others) ∧
      (others.map viewed).Perm (rest.map viewed) ∧
      (others.filter isWaiting).Perm (rest.filter isWaiting) ∧
      others.countP isSelectable = rest.countP isSelectable := by
  obtain ⟨front, back, found, split, around⟩ := position_eq sane.kept.nodes perm
  have sorted := sane.kept.hashesSorted
  rw [split] at sorted
  have allowed : assert (state == .completed || state == .candidateDelayed) = .ok () := by
    rcases away with rfl | rfl <;> rfl
  simp only [changeAndReselect, allowed, found, Program.ok_bind]
  cases chosen : successor front a with
  | none =>
    obtain ⟨after, modifies, kept, changed⟩ := sane.kept.modify_eq (changes_setState state a) perm
    refine ⟨after, rest, modifies, ⟨kept, ?_⟩, changed, .refl _, .refl _, rfl⟩
    apply sane.settled.replace_one perm (txhash_setState state) changed
    intro settled
    apply settled.retire away _ alive
    intro selected x inGroup
    obtain ⟨inRest, same⟩ := mem_groupOf.mp inGroup
    apply successor_none sorted settled chosen selected _ _ same
    · intro y inFront sameHash
      exact mem_groupOf.mpr
        ⟨around.mem_iff.mp (List.mem_append_left back inFront), sameHash⟩
    · rw [← split]
      exact perm.mem_iff.mpr (mem_cons_of_mem a inRest)
  | some previous =>
    obtain ⟨selected, inFront, previousSame, ready, highest⟩ := successor_some sorted chosen
    obtain ⟨others, restPerm⟩ := exists_rest (around.mem_iff.mp (List.mem_append_left back inFront))
    have both := perm.trans ((restPerm.cons a).trans (.swap _ _ _))
    obtain ⟨reselected, reselects, reselectedKept, reselectedPerm⟩ :=
      sane.kept.modify_eq (changes_setState .candidateBest previous) both
    obtain ⟨after, modifies, kept, changed⟩ :=
      reselectedKept.modify_eq (changes_setState state a) (reselectedPerm.trans (.swap _ _ _))
    have candidate : previous.isCandidate = true := by
      rw [Announcement.isCandidate, isSelectable, ready]
      rfl
    have sameView : viewed (previous.setState .candidateBest) = viewed previous :=
      viewed_setState candidate rfl
    have sleeps : ¬previous.isWaiting = true := by
      rw [isWaiting, ready]
      decide
    have selectable : previous.isSelectable = (previous.setState .candidateBest).isSelectable := by
      rw [isSelectable, ready]
      rfl
    dsimp only
    rw [reselects]
    refine ⟨after, previous.setState .candidateBest :: others, modifies, ⟨kept, ?_⟩, changed,
      ?_, ?_, ?_⟩
    · apply sane.settled.replace_two (perm.trans (restPerm.cons a)) previousSame
        (txhash_setState state) ((txhash_setState .candidateBest).trans previousSame) changed
      intro settled
      apply settled.reselect away selected
      intro x inGroup isReady
      obtain ⟨inOthers, same⟩ := mem_groupOf.mp inGroup
      apply highest x _ same isReady
      rw [← split]
      exact both.mem_iff.mpr (mem_cons_of_mem _ (mem_cons_of_mem a inOthers))
    · refine .trans ?_ (restPerm.map viewed).symm
      simp only [map_cons, sameView]
      exact .refl _
    · refine .trans ?_ (restPerm.filter _).symm
      rw [List.filter_cons_of_neg sleeps]
      exact .refl _
    · simp only [restPerm.countP_eq, countP_cons, selectable]

/-! ### Completion -/

theorem eraseAll_eq (kept : Kept siphash impl) (gone : List Announcement)
    (perm : impl.anns.Perm (gone ++ rest)) :
    ∃ after, eraseAll gone impl = .ok after ∧ Kept siphash after ∧ after.anns.Perm rest := by
  induction gone generalizing impl with
  | nil => exact ⟨impl, rfl, kept, perm⟩
  | cons first gone ih =>
    obtain ⟨next, erases, nextKept, nextPerm⟩ := kept.erase_eq perm
    obtain ⟨after, erasesAll, afterKept, afterPerm⟩ := ih nextKept nextPerm
    refine ⟨after, ?_, afterKept, afterPerm⟩
    rw [eraseAll, List.foldlM_cons, erases]
    exact erasesAll

def apartFrom (txhash : Uint256) (anns : List Announcement) : List Announcement :=
  anns.filter fun ann => ann.txhash != txhash

variable {txhash : Uint256}

theorem mem_apartFrom {anns : List Announcement} :
    x ∈ apartFrom txhash anns ↔ x ∈ anns ∧ x.txhash ≠ txhash := by
  rw [apartFrom, List.mem_filter, bne_iff_ne]

variable {gone others : List Announcement}

private theorem apartFrom_append (all : ∀ x ∈ gone, x.txhash = txhash)
    (none : ∀ x ∈ others, x.txhash ≠ txhash) :
    apartFrom txhash (gone ++ others) = others := by
  have dropped : gone.filter (fun ann => ann.txhash != txhash) = [] := by simpa using all
  have kept : others.filter (fun ann => ann.txhash != txhash) = others := by simpa using none
  rw [apartFrom, List.filter_append, dropped, kept, List.nil_append]

theorem eraseGroup_eq (sane : Sane siphash impl) (perm : impl.anns.Perm (gone ++ others))
    (all : ∀ x ∈ gone, x.txhash = txhash) (none : ∀ x ∈ others, x.txhash ≠ txhash) :
    ∃ after, eraseAll gone impl = .ok after ∧ Sane siphash after ∧
      after.anns.Perm (apartFrom txhash impl.anns) := by
  obtain ⟨after, erases, kept, afterPerm⟩ := eraseAll_eq sane.kept gone perm
  have others_eq : (apartFrom txhash impl.anns).Perm others := by
    rw [← apartFrom_append all none]
    exact perm.filter _
  refine ⟨after, erases, ⟨kept, ?_⟩, afterPerm.trans others_eq.symm⟩
  have nobody : groupOf txhash others = [] := by simpa [groupOf] using none
  have left : Settled siphash ([] ++ others) := by
    apply (sane.settled.perm perm).replace txhash all
    · exact List.forall_mem_nil _
    · intro _
      rw [nobody]
      exact .nil
  exact left.perm afterPerm.symm

theorem rank_le_of_view_le (below : byTxHashView siphash a ≤ byTxHashView siphash b) :
    a.txhash.memcmpRank ≤ b.txhash.memcmpRank := by
  rcases byTxHashView_le_iff.mp below with lower | ⟨same, _⟩
  · exact Nat.le_of_lt lower
  · rw [same]

theorem not_mem_after_run (sorted : Sorted (byTxHashView siphash) items)
    (above : ∀ y ∈ items, txhash.memcmpRank ≤ y.txhash.memcmpRank) (same : x.txhash = txhash) :
    x ∉ items.dropWhile fun other => other.txhash == txhash := by
  apply sorted.not_mem_dropWhile
  intro y member below
  rw [beq_iff_eq]
  apply memcmpRank_injective
  have notAbove := rank_le_of_view_le below
  rw [same] at notAbove
  exact Nat.le_antisymm notAbove (above y member)

theorem completed_of_order (last : State.completed.order ≤ state.order) : state = .completed := by
  cases state with
  | completed => rfl
  | candidateDelayed | candidateReady | candidateBest | requested => exact absurd last (by decide)

section Only

variable (sorted : Sorted (byTxHashView siphash) (front ++ a :: back))

include sorted

theorem first_of_previous
    (other : front.getLast?.all (fun previous => previous.txhash != a.txhash) = true) :
    ∀ x ∈ front, x.txhash ≠ a.txhash := by
  intro x inFront same
  have placed := sorted_insert_iff.mp sorted
  obtain ⟨previous, isPrevious, below⟩ :=
    OrderedIndex.Sorted.exists_last (List.pairwise_append.mp placed.1).1 inFront
  rw [isPrevious] at other
  have hash : previous.txhash = x.txhash :=
    txhash_of_between below (placed.2.1 previous (List.mem_of_getLast? isPrevious)) same
  exact bne_iff_ne.mp other (hash.trans same)

theorem completed_of_next
    (other : back.head?.all (fun next => next.txhash != a.txhash || next.m_state == .completed) =
      true) : ∀ x ∈ back, x.txhash = a.txhash → x.m_state = .completed := by
  intro x inBack same
  have placed := sorted_insert_iff.mp sorted
  obtain ⟨next, isNext, below⟩ :=
    OrderedIndex.Sorted.exists_first (List.pairwise_append.mp placed.1).2.1 inBack
  rw [isNext] at other
  have hash : next.txhash = a.txhash :=
    txhash_of_between (placed.2.2 next (List.mem_of_head? isNext)) below same.symm
  have order := order_le_of_view_le below (hash.trans same.symm)
  rcases (Bool.or_eq_true _ _).mp other with different | completed
  · exact absurd hash (bne_iff_ne.mp different)
  · rw [beq_iff_eq.mp completed] at order
    exact completed_of_order order

/-- Whether an announcement is the only one of its hash that is not completed, as its
neighbours say it. -/
theorem isOnlyNonCompleted_eq
    (found : position a.m_sequence impl.m_index.byTxHash = .ok (front, a, back))
    (around : (front ++ back).Perm rest) (notCompleted : a.m_state ≠ .completed) :
    ∃ only, isOnlyNonCompleted a.m_sequence impl = .ok only ∧
      (only = true → (∀ x ∈ front, x.txhash ≠ a.txhash) ∧
        ∀ x ∈ groupOf a.txhash rest, x.m_state = .completed) ∧
      (only = false → ∃ x ∈ groupOf a.txhash rest, x.m_state ≠ .completed) := by
  have placed := sorted_insert_iff.mp sorted
  have open_ : assert (a.m_state != .completed) = .ok () := by
    rw [assert, if_pos (bne_iff_ne.mpr notCompleted)]
  refine ⟨_, by rw [isOnlyNonCompleted, found, Program.ok_bind]; simp only [open_]; rfl, ?_, ?_⟩
  · intro only
    rw [Bool.and_eq_true] at only
    have noPrevious := first_of_previous sorted only.1
    refine ⟨noPrevious, ?_⟩
    intro x inGroup
    obtain ⟨inRest, same⟩ := mem_groupOf.mp inGroup
    rcases mem_append.mp (around.mem_iff.mpr inRest) with inFront | inBack
    · exact absurd same (noPrevious x inFront)
    · exact completed_of_next sorted only.2 x inBack same
  · intro only
    rw [Bool.and_eq_false_iff] at only
    rcases only with hasPrevious | hasNext
    · cases isPrevious : front.getLast? with
      | none =>
        rw [isPrevious] at hasPrevious
        cases hasPrevious
      | some previous => ?_
      rw [isPrevious] at hasPrevious
      have same : previous.txhash = a.txhash := bne_eq_false_iff_eq.mp hasPrevious
      have inFront := List.mem_of_getLast? isPrevious
      refine ⟨previous, mem_groupOf.mpr ⟨?_, same⟩, ?_⟩
      · exact around.mem_iff.mp (List.mem_append_left back inFront)
      · intro completed
        have order := order_le_of_view_le (placed.2.1 previous inFront) same
        rw [completed] at order
        exact notCompleted (completed_of_order order)
    · cases isNext : back.head? with
      | none =>
        rw [isNext] at hasNext
        cases hasNext
      | some next =>
        rw [isNext] at hasNext
        obtain ⟨same, open_⟩ := (Bool.or_eq_false_iff).mp hasNext
        refine ⟨next, mem_groupOf.mpr ⟨?_, bne_eq_false_iff_eq.mp same⟩, ?_⟩
        · exact around.mem_iff.mp (List.mem_append_right front (List.mem_of_head? isNext))
        · exact fun completed => Bool.eq_false_iff.mp open_ (beq_iff_eq.mpr completed)

end Only

/-- What completing an announcement does: the last open one of a hash goes with all of that
hash, and any other stays as a completed one. -/
inductive Completes (a : Announcement) (rest : List Announcement) :
    Bool → List Announcement → Prop where
  | gone {after : List Announcement} (open_ : a.m_state ≠ .completed)
      (all : ∀ x ∈ groupOf a.txhash rest, x.m_state = .completed)
      (perm : after.Perm (apartFrom a.txhash rest)) : Completes a rest false after
  | stays {after others : List Announcement}
      (perm : after.Perm (a.setState .completed :: others))
      (views : (others.map viewed).Perm (rest.map viewed))
      (waiting : (others.filter isWaiting).Perm (rest.filter isWaiting)) :
      Completes a rest true after

theorem makeCompleted_eq (sane : Sane siphash impl) (perm : impl.anns.Perm (a :: rest)) :
    ∃ still after, makeCompleted siphash a.m_sequence impl = .ok (still, after) ∧
      Sane siphash after ∧ Completes a rest still after.anns := by
  obtain ⟨front, back, found, isSplit, around⟩ := position_eq sane.kept.nodes perm
  have sorted := sane.kept.hashesSorted
  rw [isSplit] at sorted
  simp only [makeCompleted, found, Program.ok_bind]
  split
  case isTrue completed =>
    have unchanged : a.setState .completed = a := by
      rw [← completed]
      rfl
    refine ⟨true, impl, rfl, sane, .stays ?_ (.refl _) (.refl _)⟩
    rw [unchanged]
    exact perm
  case isFalse open_ =>
    obtain ⟨only, decides, alone, shared⟩ := isOnlyNonCompleted_eq sorted found around open_
    rw [decides]
    cases only with
    | false =>
      obtain ⟨after, others, changes, afterSane, changed, views, waiting, _⟩ :=
        changeAndReselect_eq sane (.inl rfl) perm (fun _ => shared rfl)
      refine ⟨true, after, ?_, afterSane, .stays changed views waiting⟩
      rw [changes]
      rfl
    | true =>
      obtain ⟨first, all⟩ := alone rfl
      have placed := sorted_insert_iff.mp sorted
      have behind : ∀ x ∈ back.dropWhile (fun other => other.txhash == a.txhash),
          x.txhash ≠ a.txhash := by
        intro x inDropped same
        apply not_mem_after_run (List.pairwise_append.mp placed.1).2.1 _ same inDropped
        exact fun y inBack => rank_le_of_view_le (placed.2.2 y inBack)
      have whole : impl.anns.Perm
          ((a :: back.takeWhile fun other => other.txhash == a.txhash) ++
            (front ++ back.dropWhile fun other => other.txhash == a.txhash)) := by
        rw [Impl.anns, isSplit]
        refine List.perm_middle.trans (.cons a ?_)
        nth_rewrite 1 [← @List.takeWhile_append_dropWhile _ (fun other =>
          other.txhash == a.txhash) back]
        exact List.perm_append_comm_assoc _ _ _
      obtain ⟨after, erases, afterSane, left⟩ := eraseGroup_eq sane whole
        (List.forall_mem_cons.mpr
          ⟨rfl, fun x inRun => beq_iff_eq.mp (List.mem_takeWhile_imp inRun :)⟩)
        (List.forall_mem_append.mpr ⟨first, behind⟩)
      have rest_eq : (apartFrom a.txhash impl.anns).Perm (apartFrom a.txhash rest) := by
        simpa [apartFrom] using perm.filter fun ann => ann.txhash != a.txhash
      refine ⟨false, after, ?_, afterSane, .gone open_ all (left.trans rest_eq)⟩
      rw [erases]
      rfl

end Adonai.TxRequest
