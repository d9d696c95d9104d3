/-
The rate limit of the TX handler and the requests that the messages answer.

A message takes a token from the peer's bucket or is dropped, and only one that got its token is
reported to the request tracker. Calls to the tracker may come at any time.
-/

import Adonai.Net.TrackerRuns

namespace Adonai.TxRate

open TxRequest

def MAX_TX_RATE_PER_SECOND : ℚ := 1

def MAX_TX_PROCESSING_TOKEN_BUCKET : ℚ := 100

def TX_RATE_LIMIT_THRESHOLD : Nat := 1000

/-- 60 seconds, in microseconds. -/
def GETDATA_TX_INTERVAL : Int := 60000000

structure TxTokens where
  m_tx_token_bucket : ℚ
  m_tx_token_timestamp : Int
  m_tx_rate_limited : Nat
  m_should_discourage : Bool
  deriving DecidableEq

def TxTokens.connected (current_time : Int) : TxTokens where
  m_tx_token_bucket := 1
  m_tx_token_timestamp := current_time
  m_tx_rate_limited := 0
  m_should_discourage := false

/-- `Ticks<SecondsDouble>(time_diff) * MAX_TX_RATE_PER_SECOND`. -/
def increment (time_diff : Int) : ℚ :=
  Binary64.mul (Binary64.div (Binary64.ofInt time_diff) 1000000) MAX_TX_RATE_PER_SECOND

def TxTokens.refilled (current_time : Int) (tokens : TxTokens) : ℚ :=
  if tokens.m_tx_token_bucket < MAX_TX_PROCESSING_TOKEN_BUCKET then
    min (Binary64.add tokens.m_tx_token_bucket
        (increment (max (current_time - tokens.m_tx_token_timestamp) 0)))
      MAX_TX_PROCESSING_TOKEN_BUCKET
  else tokens.m_tx_token_bucket

def TxTokens.take (current_time : Int) (tokens : TxTokens) : TxTokens where
  m_tx_token_bucket := Binary64.sub (tokens.refilled current_time) 1
  m_tx_token_timestamp := current_time
  m_tx_rate_limited := tokens.m_tx_rate_limited
  m_should_discourage := tokens.m_should_discourage

def TxTokens.drop (current_time : Int) (tokens : TxTokens) : TxTokens where
  m_tx_token_bucket := tokens.refilled current_time
  m_tx_token_timestamp := current_time
  m_tx_rate_limited := (tokens.m_tx_rate_limited + 1) % 2 ^ 64
  m_should_discourage :=
    tokens.m_should_discourage ||
      decide ((tokens.m_tx_rate_limited + 1) % 2 ^ 64 > TX_RATE_LIMIT_THRESHOLD)

structure TxMessage where
  txid : Uint256
  wtxid : Uint256
  hasWitness : Bool
  deriving DecidableEq, Repr

def TxMessage.hashes (message : TxMessage) : List Uint256 :=
  if message.hasWitness then [message.txid, message.wtxid] else [message.txid]

inductive Outcome where
  | disconnected
  | ignored
  | dropped
  | processed
  deriving DecidableEq, Repr

/-- This node, with one of its peers; peers that may not send transactions and the initial
block download are told apart before the rate limit. -/
structure Node where
  nodeid : NodeId
  rejectIncomingTxs : Bool
  isInitialBlockDownload : Bool
  tokens : TxTokens
  tracker : Impl

variable (siphash : SipHash)

/-- The first part of `ReceivedTx`. -/
def receivedTx (nodeid : NodeId) (message : TxMessage) (tracker : Impl) : Except Halt Impl :=
  message.hashes.foldlM (fun tracker hash => receivedResponse siphash nodeid hash tracker) tracker

def handleTx (current_time : Int) (message : TxMessage) (node : Node) :
    Except Halt (Outcome × Node) :=
  if node.rejectIncomingTxs then .ok (.disconnected, node)
  else if node.isInitialBlockDownload then .ok (.ignored, node)
  else if node.tokens.refilled current_time < 1 then
    .ok (.dropped, { node with tokens := node.tokens.drop current_time })
  else do
    let tracker ← receivedTx siphash node.nodeid message node.tracker
    pure (.processed, { node with tokens := node.tokens.take current_time, tracker := tracker })

def sendRequest (nodeid : NodeId) (current_time : Int) (alreadyHaveTx : GenTxid → Bool)
    (state : List GenTxid × Impl) (gtxid : GenTxid) : Except Halt (List GenTxid × Impl) :=
  if alreadyHaveTx gtxid then do
    let tracker ← forgetTxHash siphash gtxid.hash state.2
    pure (state.1, tracker)
  else do
    let tracker ← requestedTx siphash nodeid gtxid.hash (current_time + GETDATA_TX_INTERVAL) state.2
    pure (state.1 ++ [gtxid], tracker)

def getRequestsToSend (nodeid : NodeId) (current_time : Int) (alreadyHaveTx : GenTxid → Bool)
    (tracker : Impl) : Except Halt (List GenTxid × Impl) := do
  let ((requestable, _), tracker) ← getRequestable siphash nodeid current_time tracker
  requestable.foldlM (sendRequest siphash nodeid current_time alreadyHaveTx) ([], tracker)

def awaits (node : Node) (hash : Uint256) : Bool :=
  node.tracker.m_index.byTxHash.any fun ann =>
    ann.m_peer == node.nodeid && ann.txhash == hash && ann.m_state == .requested

inductive Event where
  | sendRequests (current_time : Int) (alreadyHaveTx : GenTxid → Bool)
  | tx (current_time : Int) (message : TxMessage)
  | call (call : Call)

inductive Effect where
  | requested (hashes : List Uint256)
  | message (outcome : Outcome)
  | called
  deriving DecidableEq, Repr

def step (node : Node) : Event → Except Halt (Effect × Node)
  | .sendRequests current_time alreadyHaveTx => do
    let (requests, tracker) ←
      getRequestsToSend siphash node.nodeid current_time alreadyHaveTx node.tracker
    pure (.requested (requests.map (·.hash)), { node with tracker := tracker })
  | .tx current_time message => do
    let (outcome, node) ← handleTx siphash current_time message node
    pure (.message outcome, node)
  | .call call => do
    let tracker ← call.run siphash node.tracker
    pure (.called, { node with tracker := tracker })

/-- The requests that are unanswered after an event; a message may answer any one of the
requests for its transaction. -/
def unanswered (pending : List Uint256) (effect : Effect) : Event → List (List Uint256)
  | .tx _ message => (message.hashes.filter (· ∈ pending)).map pending.erase
  | _ =>
    match effect with
    | .requested hashes => [pending ++ hashes]
    | _ => [pending]

/-- The peer sends one message for each request and none besides; `pending` are the hashes
requested and not answered. -/
def Answers : List Uint256 → Node → List Event → Prop
  | _, _, [] => True
  | pending, node, event :: events =>
    match step siphash node event with
    | .error _ => True
    | .ok (effect, next) => ∃ left ∈ unanswered pending effect event, Answers left next events

def Served (effect : Effect) (next : Node) : Event → Prop
  | .tx _ message =>
    effect = .message .processed ∧ ∀ hash ∈ message.hashes, awaits next hash = false
  | _ => True

/-- Every message of a run is served, and the peer is never marked as misbehaving. -/
def AllServed : Node → List Event → Prop
  | _, [] => True
  | node, event :: events =>
    match step siphash node event with
    | .error _ => False
    | .ok (effect, next) =>
      Served effect next event ∧ next.tokens.m_should_discourage = false ∧ AllServed next events

def run (events : List Event) (node : Node) : Except Halt Node :=
  events.foldlM (fun node event => do let (_, node) ← step siphash node event; pure node) node

def Node.connect (nodeid : NodeId) (current_time : Int) : Node where
  nodeid := nodeid
  rejectIncomingTxs := false
  isInitialBlockDownload := false
  tokens := .connected current_time
  tracker := .initial

def arrivals (events : List Event) : List Int :=
  events.filterMap fun event =>
    match event with
    | .tx current_time _ => some current_time
    | _ => none

def Paced : TxTokens → List Int → Prop
  | _, [] => True
  | tokens, current_time :: later =>
    1 ≤ tokens.refilled current_time ∧ Paced (tokens.take current_time) later

instance decidableAnswers : (pending : List Uint256) → (node : Node) → (events : List Event) →
    Decidable (Answers siphash pending node events)
  | _, _, [] => .isTrue trivial
  | pending, node, event :: events =>
    have : Decidable
        (match step siphash node event with
        | .error _ => True
        | .ok (effect, next) =>
          ∃ left ∈ unanswered pending effect event, Answers siphash left next events) :=
      match step siphash node event with
      | .error _ => .isTrue trivial
      | .ok (_, next) =>
        have (left : List Uint256) := decidableAnswers left next events
        List.decidableBEx _ _
    this

instance decidableServed (effect : Effect) (next : Node) :
    (event : Event) → Decidable (Served effect next event)
  | .tx _ _ =>
    -- the hashes of the message are tried, not all hashes
    have := List.decidableBAll (fun hash => awaits next hash = false)
    instDecidableAnd
  | .sendRequests _ _ => .isTrue trivial
  | .call _ => .isTrue trivial

instance decidableAllServed : (node : Node) → (events : List Event) →
    Decidable (AllServed siphash node events)
  | _, [] => .isTrue trivial
  | node, event :: events =>
    have : Decidable
        (match step siphash node event with
        | .error _ => False
        | .ok (effect, next) =>
          Served effect next event ∧ next.tokens.m_should_discourage = false ∧
            AllServed siphash next events) :=
      match step siphash node event with
      | .error _ => .isFalse id
      | .ok (_, next) =>
        have := decidableAllServed next events
        instDecidableAnd
    this

private theorem round_one : Binary64.round 1 = 1 := by
  decide +kernel

theorem one_le_increment {time_diff : Int} (second : 1000000 ≤ time_diff) :
    1 ≤ increment time_diff := by
  unfold increment Binary64.mul MAX_TX_RATE_PER_SECOND
  have cast : (1000000 : ℚ) ≤ (time_diff : ℚ) := by exact_mod_cast second
  have micros : (1000000 : ℚ) ≤ Binary64.round time_diff := by
    have exact_ : Binary64.round 1000000 = 1000000 := by decide +kernel
    rw [← exact_]
    exact Binary64.round_mono (by norm_num) cast
  have seconds : 1 ≤ Binary64.round (Binary64.round time_diff / 1000000) := by
    rw [← round_one]
    apply Binary64.round_mono zero_le_one
    rw [le_div_iff₀ (by norm_num), one_mul]
    exact micros
  rw [mul_one, ← round_one]
  exact Binary64.round_mono zero_le_one seconds

theorem one_le_refilled {tokens : TxTokens} {current_time : Int}
    (enough : 1 ≤ tokens.m_tx_token_bucket +
      increment (max (current_time - tokens.m_tx_token_timestamp) 0)) :
    1 ≤ tokens.refilled current_time := by
  unfold TxTokens.refilled
  split
  · apply le_min
    · rw [← round_one]
      exact Binary64.round_mono zero_le_one enough
    · norm_num [MAX_TX_PROCESSING_TOKEN_BUCKET]
  case isFalse full =>
    have atLeast := not_lt.mp full
    norm_num [MAX_TX_PROCESSING_TOKEN_BUCKET] at atLeast
    linarith

theorem paced_of_spaced {times : List Int} {tokens : TxTokens}
    (nonneg : 0 ≤ tokens.m_tx_token_bucket)
    (first : ∀ current_time ∈ times.head?, 1 ≤ tokens.refilled current_time)
    (spaced : times.IsChain fun earlier later => earlier + 1000000 ≤ later) :
    Paced tokens times := by
  induction times generalizing tokens with
  | nil => trivial
  | cons current_time later ih =>
    have token := first current_time rfl
    have left : 0 ≤ (tokens.take current_time).m_tx_token_bucket :=
      Binary64.round_nonneg (sub_nonneg.mpr token)
    refine ⟨token, ih left ?_ spaced.tail⟩
    intro next isNext
    have gap := List.IsChain.rel_head? spaced isNext
    apply one_le_refilled
    have grows : 1 ≤ increment (max (next - current_time) 0) := one_le_increment (by omega)
    exact grows.trans (le_add_of_nonneg_left left)

variable {siphash} {node : Node} {current_time : Int}

theorem awaits_eq_false_iff {hash : Uint256} : awaits node hash = false ↔
      ∀ ann ∈ node.tracker.anns, ann.m_state = .requested →
        ¬(ann.m_peer = node.nodeid ∧ ann.txhash = hash) := by
  rw [awaits, List.any_eq_false]
  constructor
  · intro none_ ann member requested ⟨isPeer, isHash⟩
    apply none_ ann member
    rw [isPeer, isHash, requested]
    simp
  · intro none_ ann member found
    simp only [Bool.and_eq_true, beq_iff_eq] at found
    exact none_ ann member found.2 found.1

variable (nodeid : NodeId)

theorem receivedTx_eq (message : TxMessage) {tracker : Impl} (sane : Sane siphash tracker) :
    ∃ after, receivedTx siphash nodeid message tracker = .ok after ∧ Sane siphash after ∧
      ∀ ann ∈ after.anns, ann.m_state = .requested → ∀ hash ∈ message.hashes,
        ¬(ann.m_peer = nodeid ∧ ann.txhash = hash) := by
  obtain ⟨first, receivesFirst, firstSane, closedFirst⟩ :=
    receivedResponse_eq nodeid message.txid sane
  unfold receivedTx TxMessage.hashes
  cases message.hasWitness with
  | false =>
    refine ⟨first, ?_, firstSane, ?_⟩
    · simp only [Bool.false_eq_true, if_false, List.foldlM_cons, receivesFirst]
      rfl
    · intro ann member requested hash isHash
      rw [List.mem_singleton.mp isHash]
      exact (closedFirst ann member requested).2
  | true =>
    obtain ⟨after, receives, afterSane, closed⟩ :=
      receivedResponse_eq nodeid message.wtxid firstSane
    refine ⟨after, ?_, afterSane, ?_⟩
    · simp only [if_true, List.foldlM_cons, receivesFirst, Program.ok_bind, receives]
      rfl
    · intro ann member requested hash isHash
      obtain ⟨inFirst, notSecond⟩ := closed ann member requested
      rcases List.mem_cons.mp isHash with isTxid | isWtxid
      · rw [isTxid]
        exact (closedFirst ann inFirst requested).2
      · rw [List.mem_singleton.mp isWtxid]
        exact notSecond

theorem sendRequest_eq (alreadyHaveTx : GenTxid → Bool) (gtxid : GenTxid)
    {state : List GenTxid × Impl} (sane : Sane siphash state.2) :
    ∃ after, sendRequest siphash nodeid current_time alreadyHaveTx state gtxid = .ok after ∧
      Sane siphash after.2 := by
  unfold sendRequest
  split
  · obtain ⟨tracker, forgets, trackerSane⟩ := forgetTxHash_eq gtxid.hash sane
    rw [forgets]
    exact ⟨_, rfl, trackerSane⟩
  · obtain ⟨tracker, requests, trackerSane⟩ :=
      requestedTx_eq nodeid gtxid.hash (current_time + GETDATA_TX_INTERVAL) sane
    rw [requests]
    exact ⟨_, rfl, trackerSane⟩

theorem getRequestsToSend_eq (alreadyHaveTx : GenTxid → Bool) {tracker : Impl}
    (sane : Sane siphash tracker) :
    ∃ requests after, getRequestsToSend siphash nodeid current_time alreadyHaveTx tracker =
      .ok (requests, after) ∧ Sane siphash after := by
  obtain ⟨expired, timed, sets, timedSane, _⟩ := setTimePoint_eq current_time sane
  obtain ⟨requestable, gets, _⟩ := getRequestable_eq nodeid current_time timedSane sets
  have sends : ∀ state : List GenTxid × Impl, Sane siphash state.2 → ∀ gtxid ∈ requestable,
      ∃ after, sendRequest siphash nodeid current_time alreadyHaveTx state gtxid = .ok after ∧
        Sane siphash after.2 :=
    fun _ stateSane gtxid _ => sendRequest_eq _ alreadyHaveTx gtxid stateSane
  obtain ⟨⟨requests, after⟩, sendsAll, afterSane⟩ :=
    @Program.exists_foldlM_ok _ _ _ ([], timed) _ _ _ sends timedSane
  refine ⟨requests, after, ?_, afterSane⟩
  rw [getRequestsToSend, gets]
  exact sendsAll

section

variable {event : Event} {events : List Event} {effect : Effect} {next : Node}
  (steps : step siphash node event = .ok (effect, next))

include steps

private theorem answers_cons {pending : List Uint256} :
    Answers siphash pending node (event :: events) ↔
      ∃ left ∈ unanswered pending effect event, Answers siphash left next events := by
  rw [Answers, steps]

theorem allServed_cons : AllServed siphash node (event :: events) ↔
    Served effect next event ∧ next.tokens.m_should_discourage = false ∧
      AllServed siphash next events := by
  rw [AllServed, steps]

private theorem run_cons : run siphash (event :: events) node = run siphash events next := by
  rw [run, List.foldlM_cons, steps]
  rfl

end

variable {event : Event} {events : List Event}

/-- What a run keeps of a peer that may send transactions and was not caught. -/
structure Serving (siphash : SipHash) (node : Node) : Prop where
  accepts : node.rejectIncomingTxs = false
  synced : node.isInitialBlockDownload = false
  welcome : node.tokens.m_should_discourage = false
  sane : Sane siphash node.tracker

section

variable (serving : Serving siphash node)

include serving

/-- A message without a token changes the bucket only: its request stays open. -/
theorem Serving.drops (message : TxMessage) (empty : node.tokens.refilled current_time < 1) :
    step siphash node (.tx current_time message) =
      .ok (.message .dropped, { node with tokens := node.tokens.drop current_time }) := by
  rw [step, handleTx, serving.accepts, serving.synced, if_pos empty]
  rfl

theorem Serving.processes (message : TxMessage) (token : 1 ≤ node.tokens.refilled current_time) :
    ∃ next, step siphash node (.tx current_time message) = .ok (.message .processed, next) ∧
      Serving siphash next ∧ next.tokens = node.tokens.take current_time ∧
      ∀ hash ∈ message.hashes, awaits next hash = false := by
  obtain ⟨tracker, receives, sane, closed⟩ := receivedTx_eq node.nodeid message serving.sane
  refine ⟨{ node with tokens := node.tokens.take current_time, tracker := tracker }, ?_, ?_,
    rfl, ?_⟩
  · rw [step, handleTx, serving.accepts, serving.synced, if_neg (not_lt.mpr token), receives]
    rfl
  · exact ⟨serving.accepts, serving.synced, serving.welcome, sane⟩
  · intro hash isHash
    rw [awaits_eq_false_iff]
    intro ann member requested
    exact closed ann member requested hash isHash

theorem Serving.other (other : arrivals [event] = []) :
    ∃ effect next, step siphash node event = .ok (effect, next) ∧ Served effect next event ∧
      Serving siphash next ∧ next.tokens = node.tokens := by
  cases event with
  | tx current_time message => cases other
  | sendRequests current_time alreadyHaveTx =>
    obtain ⟨requests, tracker, sends, sane⟩ :=
      @getRequestsToSend_eq siphash current_time node.nodeid alreadyHaveTx node.tracker
        serving.sane
    refine ⟨.requested (requests.map (·.hash)), { node with tracker := tracker }, ?_, trivial,
      ⟨serving.accepts, serving.synced, serving.welcome, sane⟩, rfl⟩
    rw [step, sends]
    rfl
  | call call =>
    obtain ⟨tracker, runs, sane⟩ := call.run_eq serving.sane
    refine ⟨.called, { node with tracker := tracker }, ?_, trivial,
      ⟨serving.accepts, serving.synced, serving.welcome, sane⟩, rfl⟩
    rw [step, runs]
    rfl

theorem Serving.allServed_iff (events : List Event) :
    AllServed siphash node events ↔ Paced node.tokens (arrivals events) := by
  induction events generalizing node with
  | nil => exact Iff.rfl
  | cons event events ih =>
    by_cases other : arrivals [event] = []
    · obtain ⟨effect, next, steps, served, nextServing, sameTokens⟩ := serving.other other
      have rest : arrivals (event :: events) = arrivals events := by
        rw [← List.singleton_append, arrivals, List.filterMap_append]
        exact congrArg (· ++ arrivals events) other
      rw [rest, ← sameTokens, ← ih nextServing, allServed_cons steps]
      constructor
      · intro ⟨_, _, later⟩
        exact later
      · intro later
        exact ⟨served, nextServing.welcome, later⟩
    · cases event with
      | sendRequests current_time alreadyHaveTx => exact absurd rfl other
      | call call => exact absurd rfl other
      | tx current_time message => ?_
      change _ ↔ 1 ≤ node.tokens.refilled current_time ∧
        Paced (node.tokens.take current_time) (arrivals events)
      by_cases token : 1 ≤ node.tokens.refilled current_time
      · obtain ⟨next, steps, nextServing, taken, closed⟩ := serving.processes message token
        rw [allServed_cons steps, ← taken, ← ih nextServing]
        constructor
        · intro ⟨_, _, later⟩
          exact ⟨token, later⟩
        · intro ⟨_, later⟩
          exact ⟨⟨rfl, closed⟩, nextServing.welcome, later⟩
      · rw [allServed_cons (serving.drops message (not_le.mp token))]
        constructor
        · intro ⟨⟨dropped, _⟩, _⟩
          cases dropped
        · intro ⟨token', _⟩
          exact absurd token' token

end

private theorem Serving.connect (siphash : SipHash) (nodeid : NodeId) (current_time : Int) :
    Serving siphash (Node.connect nodeid current_time) :=
  ⟨rfl, rfl, rfl, initial_sane⟩

/-- In every run, with whatever requests and messages, each message is processed and closes
its request, and the peer is not marked as misbehaving, exactly if the times of arrival leave
a token for each message. -/
theorem all_served_iff (siphash : SipHash) (nodeid : NodeId) (connected : Int)
    (events : List Event) : AllServed siphash (.connect nodeid connected) events ↔
      Paced (.connected connected) (arrivals events) :=
  (Serving.connect siphash nodeid connected).allServed_iff events

/-- A peer that leaves a second between its messages is never dropped or marked, whatever is
announced, requested or forgotten in between. -/
theorem spaced_all_served (siphash : SipHash) (nodeid : NodeId) (connected : Int)
    (events : List Event)
    (spaced : (arrivals events).IsChain fun earlier later => earlier + 1000000 ≤ later) :
    AllServed siphash (.connect nodeid connected) events := by
  rw [(Serving.connect siphash nodeid connected).allServed_iff]
  refine paced_of_spaced zero_le_one (fun current_time _ => ?_) spaced
  have grows : 0 ≤ increment (max (current_time - connected) 0) := by
    unfold increment MAX_TX_RATE_PER_SECOND
    have micros := Binary64.round_nonneg
      (Int.cast_nonneg (le_max_right (current_time - connected) 0))
    have seconds := Binary64.round_nonneg (div_nonneg micros (by norm_num : (0 : ℚ) ≤ 1000000))
    exact Binary64.round_nonneg (mul_nonneg seconds zero_le_one)
  exact one_le_refilled (le_add_of_nonneg_right grows)

theorem spaced_all_served_two : AllServed (fun _ _ => 0) (.connect 7 0)
    [.tx 10 ⟨1, 1, false⟩, .sendRequests 20 fun _ => false, .tx 1000010 ⟨2, 2, true⟩] :=
  spaced_all_served _ 7 0 _ (by simp [arrivals])

def answeredTogether : List Event :=
  [.call (.receivedInv 7 ⟨false, 1⟩ true 0), .call (.receivedInv 7 ⟨false, 2⟩ true 0),
    .sendRequests 0 (fun _ => false),
    .tx 10 ⟨1, 1, false⟩, .tx 10 ⟨2, 2, false⟩]

def bothDue : Impl :=
  ((do
    let impl ← runCalls (fun _ _ => 0)
      [.receivedInv 7 ⟨false, 1⟩ true 0, .receivedInv 7 ⟨false, 2⟩ true 0] .initial
    let (_, impl) ← setTimePoint (fun _ _ => 0) 0 impl
    pure impl).toOption).getD .initial

def bothRequested : Node where
  nodeid := 7
  rejectIncomingTxs := false
  isInitialBlockDownload := false
  tokens := .connected 0
  tracker := (runCalls (fun _ _ => 0)
    [.requestedTx 7 1 60000000, .requestedTx 7 2 60000000] bothDue).toOption.getD .initial

theorem requests_both : ∃ first second,
      step (fun _ _ => 0) (.connect 7 0) (.call (.receivedInv 7 ⟨false, 1⟩ true 0)) =
        .ok (.called, first) ∧
      step (fun _ _ => 0) first (.call (.receivedInv 7 ⟨false, 2⟩ true 0)) = .ok (.called, second) ∧
      step (fun _ _ => 0) second (.sendRequests 0 fun _ => false) =
        .ok (.requested [1, 2], bothRequested) := by
  refine ⟨_, _, rfl, rfl, ?_⟩
  rw [step, getRequestsToSend]
  rw [@getRequestable_of_sorted _ _ _ _ bothDue _ _ rfl rfl (by decide +kernel)]
  rfl

/-- The peer answers two requests at once; the second answer is dropped, and the tracker goes
on waiting for it. -/
theorem second_answer_dropped : Answers (fun _ _ => 0) [] (.connect 7 0) answeredTogether ∧
      ¬AllServed (fun _ _ => 0) (.connect 7 0) answeredTogether ∧
      (run (fun _ _ => 0) answeredTogether (.connect 7 0)).toOption.map (awaits · 2) =
        some true := by
  obtain ⟨first, second, announces, announcesMore, requests⟩ := requests_both
  simp only [answeredTogether, answers_cons announces, answers_cons announcesMore,
    answers_cons requests, run_cons announces, run_cons announcesMore, run_cons requests,
    allServed_cons announces, allServed_cons announcesMore, allServed_cons requests]
  have answered : Answers (fun _ _ => 0) [1, 2] bothRequested
      [.tx 10 ⟨1, 1, false⟩, .tx 10 ⟨2, 2, false⟩] := by decide +kernel
  have dropped : ¬AllServed (fun _ _ => 0) bothRequested
      [.tx 10 ⟨1, 1, false⟩, .tx 10 ⟨2, 2, false⟩] := by decide +kernel
  refine ⟨⟨[], List.mem_singleton_self _, [], List.mem_singleton_self _, [1, 2],
    List.mem_singleton_self _, answered⟩, ?_, by decide +kernel⟩
  intro ⟨_, _, _, _, _, _, served⟩
  exact dropped served

end Adonai.TxRate
