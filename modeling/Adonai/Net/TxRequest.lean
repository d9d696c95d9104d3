/-
`TxRequestTracker`: who announced which transaction, and whom to ask for it.

The three ordered indexes are lists. An iterator is the `m_sequence` of its announcement (59 bits,
which matters only where it is compared). Following an iterator or a peer that is gone halts with
`dangling`, a change for which the unique index would drop the element with `duplicate`.
-/

import Adonai.Foundation.OrderedIndex
import Adonai.Mempool.Entry
import Mathlib.Data.Prod.Lex

namespace Adonai.TxRequest

open OrderedIndex

abbrev NodeId := Int

/-- `std::variant<Txid, Wtxid>`. -/
structure GenTxid where
  isWtxid : Bool
  hash : Uint256
  deriving DecidableEq, Repr

inductive State where
  | candidateDelayed
  | candidateReady
  | candidateBest
  | requested
  | completed
  deriving DecidableEq, Repr

/-- The value of the enumeration, by which `ByTxHash` sorts. -/
def State.order : State → Nat
  | .candidateDelayed => 0
  | .candidateReady => 1
  | .candidateBest => 2
  | .requested => 3
  | .completed => 4

/-- `m_time` is the time to request a candidate, and the expiry of a request. -/
structure Announcement where
  m_gtxid : GenTxid
  m_time : Int
  m_peer : NodeId
  m_sequence : Nat
  m_preferred : Bool
  m_state : State
  deriving DecidableEq, Repr

namespace Announcement

def txhash (ann : Announcement) : Uint256 := ann.m_gtxid.hash

def setState (state : State) (ann : Announcement) : Announcement := { ann with m_state := state }

def isSelected (ann : Announcement) : Bool :=
  ann.m_state == .candidateBest || ann.m_state == .requested

def isWaiting (ann : Announcement) : Bool :=
  ann.m_state == .requested || ann.m_state == .candidateDelayed

def isSelectable (ann : Announcement) : Bool :=
  ann.m_state == .candidateReady || ann.m_state == .candidateBest

end Announcement

/-- `CSipHasher(m_k0, m_k1).Write(txhash).Write(peer).Finalize()`. -/
abbrev SipHash := Uint256 → NodeId → UInt64

variable (siphash : SipHash) (ann : Announcement)

/-- The top bit is the preference, the others are from the hash. -/
def priority : Nat :=
  (siphash ann.txhash ann.m_peer).toNat / 2 + if ann.m_preferred then 2 ^ 63 else 0

def byPeerView : NodeId ×ₗ Bool ×ₗ Nat :=
  toLex (ann.m_peer, toLex (ann.m_state == .candidateBest, ann.txhash.memcmpRank))

def byTxHashView : Nat ×ₗ Nat ×ₗ Nat :=
  toLex (ann.txhash.memcmpRank,
    toLex (ann.m_state.order, if ann.m_state = .candidateReady then priority siphash ann else 0))

def waitState : Nat := if ann.isWaiting then 0 else if ann.isSelectable then 2 else 1

def byTimeView : Nat ×ₗ Int := toLex (waitState ann, ann.m_time)

structure Index where
  byPeer : List Announcement
  byTxHash : List Announcement
  byTime : List Announcement
  deriving DecidableEq, Repr

inductive Halt where
  | assertion
  | dangling
  | duplicate
  | diverged
  deriving DecidableEq, Repr

def assert (condition : Bool) : Except Halt Unit := if condition then .ok () else .error .assertion

def position (it : Nat) (items : List Announcement) :
    Except Halt (List Announcement × Announcement × List Announcement) :=
  match cut (fun ann => ann.m_sequence == it) items with
  | some found => .ok found
  | none => .error .dangling

def modifyIn {κ : Type} [LinearOrder κ] (view : Announcement → κ) (it : Nat)
    (change : Announcement → Announcement) (items : List Announcement) :
    Except Halt (List Announcement) := do
  let (front, ann, back) ← position it items
  pure (relocate view front (change ann) back)

def removeFrom (it : Nat) (items : List Announcement) : Except Halt (List Announcement) := do
  let (front, _, back) ← position it items
  pure (front ++ back)

def assertUnique (it : Nat) (change : Announcement → Announcement) (items : List Announcement) :
    Except Halt Unit := do
  let (front, ann, back) ← position it items
  if (front ++ back).any fun other => byPeerView other == byPeerView (change ann) then
    .error .duplicate
  else .ok ()

namespace Index

def modify (it : Nat) (change : Announcement → Announcement) (index : Index) :
    Except Halt Index := do
  assertUnique it change index.byPeer
  let byPeer ← modifyIn byPeerView it change index.byPeer
  let byTxHash ← modifyIn (byTxHashView siphash) it change index.byTxHash
  let byTime ← modifyIn byTimeView it change index.byTime
  pure { byPeer := byPeer, byTxHash := byTxHash, byTime := byTime }

def erase (it : Nat) (index : Index) : Except Halt Index := do
  let byPeer ← removeFrom it index.byPeer
  let byTxHash ← removeFrom it index.byTxHash
  let byTime ← removeFrom it index.byTime
  pure { byPeer := byPeer, byTxHash := byTxHash, byTime := byTime }

def insert (ann : Announcement) (index : Index) : Index where
  byPeer := place byPeerView ann index.byPeer
  byTxHash := place (byTxHashView siphash) ann index.byTxHash
  byTime := place byTimeView ann index.byTime

end Index

structure PeerInfo where
  m_total : Int := 0
  m_completed : Int := 0
  m_requested : Int := 0
  deriving DecidableEq, Repr

structure Impl where
  m_current_sequence : Nat
  m_index : Index
  m_peerinfo : AList fun _ : NodeId => PeerInfo

def Impl.initial : Impl where
  m_current_sequence := 0
  m_index := { byPeer := [], byTxHash := [], byTime := [] }
  m_peerinfo := ∅

def oneIf (condition : Bool) : Int := if condition then 1 else 0

/-- The statistics of a peer with one announcement counted `times` more often. -/
def PeerInfo.count (times : Int) (ann : Announcement) (info : PeerInfo) : PeerInfo where
  m_total := info.m_total
  m_completed := info.m_completed + times * oneIf (ann.m_state == .completed)
  m_requested := info.m_requested + times * oneIf (ann.m_state == .requested)

def PeerInfo.drop (ann : Announcement) (info : PeerInfo) : PeerInfo where
  m_total := info.m_total - 1
  m_completed := info.m_completed - oneIf (ann.m_state == .completed)
  m_requested := info.m_requested - oneIf (ann.m_state == .requested)

def peerInfo (peer : NodeId) (impl : Impl) : Except Halt PeerInfo :=
  match impl.m_peerinfo.lookup peer with
  | some info => .ok info
  | none => .error .dangling

def announcement (it : Nat) (impl : Impl) : Except Halt Announcement := do
  let (_, ann, _) ← position it impl.m_index.byTxHash
  pure ann

def erase (it : Nat) (impl : Impl) : Except Halt Impl := do
  let ann ← announcement it impl
  let info ← peerInfo ann.m_peer impl
  let remaining := info.drop ann
  let index ← impl.m_index.erase it
  pure
    { impl with
      m_index := index
      m_peerinfo :=
        if remaining.m_total = 0 then impl.m_peerinfo.erase ann.m_peer
        else impl.m_peerinfo.insert ann.m_peer remaining }

def modify (it : Nat) (change : Announcement → Announcement) (impl : Impl) : Except Halt Impl := do
  let ann ← announcement it impl
  let info ← peerInfo ann.m_peer impl
  let index ← impl.m_index.modify siphash it change
  pure
    { impl with
      m_index := index
      m_peerinfo := impl.m_peerinfo.insert ann.m_peer ((info.count (-1) ann).count 1 (change ann)) }

def promoteCandidateReady (it : Nat) (impl : Impl) : Except Halt Impl := do
  let ann ← announcement it impl
  assert (ann.m_state == .candidateDelayed)
  let impl ← modify siphash it (.setState .candidateReady) impl
  let (_, ann, back) ← position it impl.m_index.byTxHash
  match back.head? with
  | none => modify siphash it (.setState .candidateBest) impl
  | some next =>
    if next.txhash ≠ ann.txhash ∨ next.m_state = .completed then
      modify siphash it (.setState .candidateBest) impl
    else if next.m_state = .candidateBest ∧ priority siphash ann > priority siphash next then do
      let impl ← modify siphash next.m_sequence (.setState .candidateReady) impl
      modify siphash it (.setState .candidateBest) impl
    else .ok impl

/-- The ready candidate that is made best when the selected announcement goes. -/
def successor (front : List Announcement) (ann : Announcement) : Option Announcement :=
  if ann.isSelected then
    front.getLast?.filter fun previous =>
      previous.txhash == ann.txhash && previous.m_state == .candidateReady
  else none

def changeAndReselect (it : Nat) (new_state : State) (impl : Impl) : Except Halt Impl := do
  assert (new_state == .completed || new_state == .candidateDelayed)
  let (front, ann, _) ← position it impl.m_index.byTxHash
  match successor front ann with
  | some previous => do
    let impl ← modify siphash previous.m_sequence (.setState .candidateBest) impl
    modify siphash it (.setState new_state) impl
  | none => modify siphash it (.setState new_state) impl

def isOnlyNonCompleted (it : Nat) (impl : Impl) : Except Halt Bool := do
  let (front, ann, back) ← position it impl.m_index.byTxHash
  assert (ann.m_state != .completed)
  pure
    ((front.getLast?.all fun previous => previous.txhash != ann.txhash) &&
      back.head?.all fun next => next.txhash != ann.txhash || next.m_state == .completed)

def eraseAll (anns : List Announcement) (impl : Impl) : Except Halt Impl :=
  anns.foldlM (fun impl ann => erase ann.m_sequence impl) impl

/-- Returns whether the announcement still exists. -/
def makeCompleted (it : Nat) (impl : Impl) : Except Halt (Bool × Impl) := do
  let (_, ann, back) ← position it impl.m_index.byTxHash
  if ann.m_state = .completed then .ok (true, impl)
  else do
    let only ← isOnlyNonCompleted it impl
    if only then do
      let impl ← eraseAll (ann :: back.takeWhile fun other => other.txhash == ann.txhash) impl
      pure (false, impl)
    else do
      let impl ← changeAndReselect siphash it .completed impl
      pure (true, impl)

/-- What came due at the front of the time index: delayed candidates and expired requests. -/
def passTime (now : Int) : (fuel : Nat) → List (NodeId × GenTxid) → Impl →
    Except Halt (List (NodeId × GenTxid) × Impl)
  | 0, _, _ => .error .diverged
  | fuel + 1, expired, impl =>
    match impl.m_index.byTime.head? with
    | none => .ok (expired, impl)
    | some ann =>
      if ann.m_state = .candidateDelayed ∧ ann.m_time ≤ now then do
        let impl ← promoteCandidateReady siphash ann.m_sequence impl
        passTime now fuel expired impl
      else if ann.m_state = .requested ∧ ann.m_time ≤ now then do
        let (_, impl) ← makeCompleted siphash ann.m_sequence impl
        passTime now fuel (expired ++ [(ann.m_peer, ann.m_gtxid)]) impl
      else .ok (expired, impl)

/-- What is due no more, at the back of the time index, after the clock went backwards. -/
def turnBack (now : Int) : (fuel : Nat) → Impl → Except Halt Impl
  | 0, _ => .error .diverged
  | fuel + 1, impl =>
    match impl.m_index.byTime.getLast? with
    | none => .ok impl
    | some ann =>
      if ann.isSelectable = true ∧ now < ann.m_time then do
        let impl ← changeAndReselect siphash ann.m_sequence .candidateDelayed impl
        turnBack now fuel impl
      else .ok impl

def setTimePoint (now : Int) (impl : Impl) : Except Halt (List (NodeId × GenTxid) × Impl) := do
  let (expired, impl) ← passTime siphash now (impl.m_index.byTime.length + 1) [] impl
  let impl ← turnBack siphash now (impl.m_index.byTime.length + 1) impl
  pure (expired, impl)

/-- The iterator is the first announcement of the peer; the next one is fixed beforehand. -/
def disconnectFrom (peer : NodeId) : (fuel : Nat) → Option Nat → Impl → Except Halt Impl
  | _, none, impl => .ok impl
  | 0, some _, _ => .error .diverged
  | fuel + 1, some it, impl => do
    let (_, _, back) ← position it impl.m_index.byPeer
    let it_next := (back.head?.filter fun next => next.m_peer == peer).map (·.m_sequence)
    let (still, impl) ← makeCompleted siphash it impl
    if still then do
      let impl ← erase it impl
      disconnectFrom peer fuel it_next impl
    else disconnectFrom peer fuel it_next impl

def disconnectedPeer (peer : NodeId) (impl : Impl) : Except Halt Impl :=
  let lower := impl.m_index.byPeer.dropWhile fun ann =>
    decide (byPeerView ann < toLex (peer, toLex (false, 0)))
  let first := (lower.head?.filter fun ann => ann.m_peer == peer).map (·.m_sequence)
  disconnectFrom siphash peer (impl.m_index.byPeer.length + 1) first impl

def forgetTxHash (txhash : Uint256) (impl : Impl) : Except Halt Impl :=
  let lower := impl.m_index.byTxHash.dropWhile fun ann =>
    decide (byTxHashView siphash ann <
      toLex (txhash.memcmpRank, toLex (State.candidateDelayed.order, 0)))
  eraseAll (lower.takeWhile fun ann => ann.txhash == txhash) impl

def findByPeer (peer : NodeId) (best : Bool) (txhash : Uint256) (impl : Impl) :
    Option Announcement :=
  impl.m_index.byPeer.find? fun ann =>
    byPeerView ann == toLex (peer, toLex (best, txhash.memcmpRank))

/-- An announcement of a peer that has one for the hash is ignored. -/
def receivedInv (peer : NodeId) (gtxid : GenTxid) (preferred : Bool) (reqtime : Int)
    (impl : Impl) : Impl :=
  if (findByPeer peer true gtxid.hash impl).isSome then impl
  else if (findByPeer peer false gtxid.hash impl).isSome then impl
  else
    let info := (impl.m_peerinfo.lookup peer).getD {}
    { m_current_sequence := impl.m_current_sequence + 1
      m_index :=
        impl.m_index.insert siphash
          { m_gtxid := gtxid
            m_time := reqtime
            m_peer := peer
            m_sequence := impl.m_current_sequence
            m_preferred := preferred
            m_state := .candidateDelayed }
      m_peerinfo := impl.m_peerinfo.insert peer { info with m_total := info.m_total + 1 } }

def getRequestable (peer : NodeId) (now : Int) (impl : Impl) :
    Except Halt ((List GenTxid × List (NodeId × GenTxid)) × Impl) := do
  let (expired, impl) ← setTimePoint siphash now impl
  let lower := impl.m_index.byPeer.dropWhile fun ann =>
    decide (byPeerView ann < toLex (peer, toLex (true, 0)))
  let selected := lower.takeWhile fun ann =>
    ann.m_peer == peer && ann.m_state == .candidateBest
  let sorted := selected.mergeSort fun a b =>
    decide (a.m_sequence % 2 ^ 59 ≤ b.m_sequence % 2 ^ 59)
  pure ((sorted.map (·.m_gtxid), expired), impl)

def request (it : Nat) (expiry : Int) (impl : Impl) : Except Halt Impl :=
  modify siphash it (fun ann => { ann with m_state := .requested, m_time := expiry }) impl

/-- The selected announcement of a hash makes way for a request of another peer. -/
def yieldSelected (txhash : Uint256) (impl : Impl) : Except Halt Impl :=
  let lower := impl.m_index.byTxHash.dropWhile fun ann =>
    decide (byTxHashView siphash ann <
      toLex (txhash.memcmpRank, toLex (State.candidateBest.order, 0)))
  match lower.head?.filter fun old => old.txhash == txhash with
  | none => .ok impl
  | some old =>
    if old.m_state = .candidateBest then
      modify siphash old.m_sequence (.setState .candidateReady) impl
    else if old.m_state = .requested then
      modify siphash old.m_sequence (.setState .completed) impl
    else .ok impl

def requestedTx (peer : NodeId) (txhash : Uint256) (expiry : Int) (impl : Impl) :
    Except Halt Impl :=
  match findByPeer peer true txhash impl with
  | some ann => request siphash ann.m_sequence expiry impl
  | none =>
    match findByPeer peer false txhash impl with
    | none => .ok impl
    | some ann =>
      if ann.m_state = .candidateDelayed ∨ ann.m_state = .candidateReady then do
        let impl ← yieldSelected siphash txhash impl
        request siphash ann.m_sequence expiry impl
      else .ok impl

def receivedResponse (peer : NodeId) (txhash : Uint256) (impl : Impl) : Except Halt Impl :=
  match (findByPeer peer false txhash impl).or (findByPeer peer true txhash impl) with
  | none => .ok impl
  | some ann => do
    let (_, impl) ← makeCompleted siphash ann.m_sequence impl
    pure impl

/-- The entry of a peer in the map computed from the index. -/
def recomputePeerInfo (anns : List Announcement) (peer : NodeId) : Option PeerInfo :=
  let own := anns.filter fun ann => ann.m_peer == peer
  if own.isEmpty then none
  else
    some
      { m_total := own.length
        m_completed := own.countP fun ann => ann.m_state == .completed
        m_requested := own.countP fun ann => ann.m_state == .requested }

structure TxHashInfo where
  m_candidate_delayed : Nat
  m_candidate_ready : Nat
  m_candidate_best : Nat
  m_requested : Nat
  m_priority_candidate_best : Nat
  m_priority_best_candidate_ready : Nat
  m_peers : List NodeId
  deriving DecidableEq, Repr

def computeTxHashInfo (group : List Announcement) : TxHashInfo where
  m_candidate_delayed := group.countP fun ann => ann.m_state == .candidateDelayed
  m_candidate_ready := group.countP fun ann => ann.m_state == .candidateReady
  m_candidate_best := group.countP fun ann => ann.m_state == .candidateBest
  m_requested := group.countP fun ann => ann.m_state == .requested
  m_priority_candidate_best :=
    group.foldl
      (fun best ann => if ann.m_state = .candidateBest then priority siphash ann else best)
      (2 ^ 64 - 1)
  m_priority_best_candidate_ready :=
    group.foldl
      (fun best ann =>
        if ann.m_state = .candidateReady then max best (priority siphash ann) else best)
      0
  m_peers := group.map (·.m_peer)

def TxHashInfo.isSane (info : TxHashInfo) : Bool :=
  decide (info.m_candidate_delayed + info.m_candidate_ready + info.m_candidate_best +
      info.m_requested > 0) &&
    decide (info.m_candidate_best + info.m_requested ≤ 1) &&
    (info.m_candidate_ready == 0 || info.m_candidate_best + info.m_requested == 1) &&
    (info.m_candidate_ready == 0 || info.m_candidate_best == 0 ||
      decide (info.m_priority_candidate_best ≥ info.m_priority_best_candidate_ready)) &&
    decide info.m_peers.Nodup

/-- Whether no assertion of `SanityCheck` fails. -/
def sanityCheck (impl : Impl) : Bool :=
  let anns := impl.m_index.byPeer
  ((impl.m_peerinfo.keys ++ anns.map (·.m_peer)).all fun peer =>
      impl.m_peerinfo.lookup peer == recomputePeerInfo anns peer) &&
    (anns.map (·.txhash)).all fun txhash =>
      (computeTxHashInfo siphash (anns.filter fun ann => ann.txhash == txhash)).isSane

end Adonai.TxRequest
