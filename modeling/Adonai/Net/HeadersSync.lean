/-
Downloading a peer's headers twice.

The first pass keeps one bit for every commitment period. The second pass checks the headers
against those bits and holds them back until enough lie on top, or the chain has shown the work.
The buffer stores headers without the hash of their parent.
-/

import Adonai.Validation.Header

namespace Adonai.HeadersSync

def HEADER_COMMITMENT_PERIOD : Nat := 624

def REDOWNLOAD_BUFFER_SIZE : Nat := 14827

structure CompressedHeader where
  nVersion : Int32
  hashMerkleRoot : Uint256
  nTime : UInt32
  nBits : UInt32
  nNonce : UInt32
  deriving DecidableEq, Repr

namespace CompressedHeader

def ofHeader (header : CBlockHeader) : CompressedHeader :=
  { nVersion := header.nVersion, hashMerkleRoot := header.hashMerkleRoot, nTime := header.nTime
    nBits := header.nBits, nNonce := header.nNonce }

def getFullHeader (header : CompressedHeader) (hash_prev_block : Uint256) : CBlockHeader :=
  { nVersion := header.nVersion, hashPrevBlock := hash_prev_block
    hashMerkleRoot := header.hashMerkleRoot, nTime := header.nTime, nBits := header.nBits
    nNonce := header.nNonce }

private theorem getFullHeader_ofHeader (header : CBlockHeader) :
    (ofHeader header).getFullHeader header.hashPrevBlock = header := rfl

end CompressedHeader

inductive DownloadState where
  | presync
  | redownload
  | final
  deriving DecidableEq, Repr

/-- What stays fixed during a sync: the block hash, the low bit of the salted hasher, the
offset, the block the peer's chain builds on with its ancestors and work, the work required
and the clock reading, in seconds, of the constructor. -/
structure Setup where
  hasher : List UInt8 → Uint256
  m_hasher : Uint256 → Bool
  m_commit_offset : Nat
  m_chain_start : CBlockIndex
  pprev : List CBlockIndex
  nChainWork : Uint256
  m_minimum_required_work : Uint256
  now : Int

/-- The quotient is one of 64-bit unsigned numbers. -/
def Setup.m_max_commitments (setup : Setup) : Nat :=
  let medianTimePast := CBlockIndex.getMedianTimePast (setup.m_chain_start :: setup.pprev)
  (6 * (setup.now - medianTimePast + Validation.MAX_FUTURE_BLOCK_TIME) % 2 ^ 64).toNat /
    HEADER_COMMITMENT_PERIOD

structure HeadersSyncState where
  m_current_chain_work : Uint256
  m_header_commitments : List Bool
  m_last_header_received : CBlockHeader
  m_current_height : Int
  m_redownloaded_headers : List CompressedHeader
  m_redownload_buffer_last_height : Int
  m_redownload_buffer_last_hash : Uint256
  m_redownload_buffer_first_prev_hash : Uint256
  m_redownload_chain_work : Uint256
  m_process_all_remaining_headers : Bool
  m_download_state : DownloadState

structure ProcessingResult where
  pow_validated_headers : List CBlockHeader
  success : Bool
  request_more : Bool
  deriving DecidableEq, Repr

def nullHeader : CBlockHeader :=
  { nVersion := 0, hashPrevBlock := 0, hashMerkleRoot := 0, nTime := 0, nBits := 0, nNonce := 0 }

namespace HeadersSyncState

def new (setup : Setup) : HeadersSyncState :=
  { m_current_chain_work := setup.nChainWork
    m_header_commitments := []
    m_last_header_received := setup.m_chain_start.getBlockHeader setup.pprev
    m_current_height := setup.m_chain_start.nHeight
    m_redownloaded_headers := []
    m_redownload_buffer_last_height := 0
    m_redownload_buffer_last_hash := 0
    m_redownload_buffer_first_prev_hash := 0
    m_redownload_chain_work := 0
    m_process_all_remaining_headers := false
    m_download_state := .presync }

def finalize (state : HeadersSyncState) : HeadersSyncState :=
  { state with
    m_header_commitments := []
    m_last_header_received := nullHeader
    m_redownloaded_headers := []
    m_redownload_buffer_last_hash := 0
    m_redownload_buffer_first_prev_hash := 0
    m_process_all_remaining_headers := false
    m_current_height := 0
    m_download_state := .final }

end HeadersSyncState

section Model

variable (setup : Setup)

def proofOf (header : CBlockHeader) : Uint256 := BitVec.ofNat 256 (Pow.getBlockProof header.nBits)

/-- The remainder is one of 64-bit unsigned numbers. -/
def isCommitmentHeight (height : Int) : Bool :=
  (height % 2 ^ 64).toNat % HEADER_COMMITMENT_PERIOD == setup.m_commit_offset

def commitment (header : CBlockHeader) : Bool := setup.m_hasher (header.getHash setup.hasher)

/-- The height after one, kept in an `int` while presyncing. -/
def presyncNext (height : Int) : Int := (height + 1).bmod (2 ^ 32)

def addCommitment (commitments : List Bool) (height : Int) (header : CBlockHeader) : List Bool :=
  if isCommitmentHeight setup height then commitments ++ [commitment setup header] else commitments

/-- `ValidateAndProcessSingleHeader`: whether the header is accepted, and the state left. -/
def validateAndProcessSingleHeader (state : HeadersSyncState) (current : CBlockHeader) :
    Bool × HeadersSyncState :=
  let next_height := presyncNext state.m_current_height
  if state.m_download_state ≠ .presync then (false, state)
  else if !Pow.permittedDifficultyTransition next_height state.m_last_header_received.nBits
      current.nBits then (false, state)
  else
    let commitments := addCommitment setup state.m_header_commitments next_height current
    if isCommitmentHeight setup next_height ∧ commitments.length > setup.m_max_commitments then
      (false, { state with m_header_commitments := commitments })
    else
      (true,
        { state with
          m_header_commitments := commitments
          m_current_chain_work := state.m_current_chain_work + proofOf current
          m_last_header_received := current
          m_current_height := next_height })

def validateEach (validate : HeadersSyncState → CBlockHeader → Bool × HeadersSyncState) :
    HeadersSyncState → List CBlockHeader → Bool × HeadersSyncState
  | state, [] => (true, state)
  | state, header :: rest =>
    match validate state header with
    | (true, after) => validateEach validate after rest
    | (false, after) => (false, after)

def startRedownload (state : HeadersSyncState) : HeadersSyncState :=
  { state with
    m_redownloaded_headers := []
    m_redownload_buffer_last_height := setup.m_chain_start.nHeight
    m_redownload_buffer_first_prev_hash := setup.m_chain_start.hashBlock
    m_redownload_buffer_last_hash := setup.m_chain_start.hashBlock
    m_redownload_chain_work := setup.nChainWork
    m_download_state := .redownload }

def validateAndStoreHeadersCommitments (state : HeadersSyncState) (headers : List CBlockHeader) :
    Bool × HeadersSyncState :=
  match headers with
  | [] => (true, state)
  | first :: _ =>
    if state.m_download_state ≠ .presync then (false, state)
    else if first.hashPrevBlock ≠ state.m_last_header_received.getHash setup.hasher then
      (false, state)
    else
      match validateEach (validateAndProcessSingleHeader setup) state headers with
      | (false, after) => (false, after)
      | (true, after) =>
        if setup.m_minimum_required_work ≤ after.m_current_chain_work then
          (true, startRedownload setup after)
        else (true, after)

def previousBits (state : HeadersSyncState) : UInt32 :=
  (state.m_redownloaded_headers.getLast?.map CompressedHeader.nBits).getD
    setup.m_chain_start.nBits

def storeHeader (state : HeadersSyncState) (next_height : Int) (header : CBlockHeader) :
    HeadersSyncState :=
  { state with
    m_redownloaded_headers := state.m_redownloaded_headers ++ [.ofHeader header]
    m_redownload_buffer_last_height := next_height
    m_redownload_buffer_last_hash := header.getHash setup.hasher }

def trackWork (state : HeadersSyncState) (header : CBlockHeader) : HeadersSyncState :=
  let work := state.m_redownload_chain_work + proofOf header
  { state with
    m_redownload_chain_work := work
    m_process_all_remaining_headers :=
      state.m_process_all_remaining_headers || decide (setup.m_minimum_required_work ≤ work) }

def validateAndStoreRedownloadedHeader (state : HeadersSyncState) (header : CBlockHeader) :
    Bool × HeadersSyncState :=
  let next_height := state.m_redownload_buffer_last_height + 1
  if state.m_download_state ≠ .redownload then (false, state)
  else if header.hashPrevBlock ≠ state.m_redownload_buffer_last_hash then (false, state)
  else if !Pow.permittedDifficultyTransition next_height
    (previousBits setup state) header.nBits then
    (false, state)
  else
    let tracked := trackWork setup state header
    if !tracked.m_process_all_remaining_headers && isCommitmentHeight setup next_height then
      match tracked.m_header_commitments with
      | [] => (false, tracked)
      | expected_commitment :: rest =>
        let popped := { tracked with m_header_commitments := rest }
        if commitment setup header ≠ expected_commitment then (false, popped)
        else (true, storeHeader setup popped next_height header)
    else (true, storeHeader setup tracked next_height header)

/-- The loop of `PopHeadersReadyForAcceptance`: what is released, what stays in the buffer,
and the hash before it. -/
def popHeaders (release_all : Bool) : List CompressedHeader → Uint256 →
    List CBlockHeader × List CompressedHeader × Uint256
  | [], first_prev_hash => ([], [], first_prev_hash)
  | first :: rest, first_prev_hash =>
    if rest.length + 1 > REDOWNLOAD_BUFFER_SIZE ∨ release_all then
      let header := first.getFullHeader first_prev_hash
      let popped := popHeaders release_all rest (header.getHash setup.hasher)
      (header :: popped.1, popped.2)
    else ([], first :: rest, first_prev_hash)

def popHeadersReadyForAcceptance (state : HeadersSyncState) :
    List CBlockHeader × HeadersSyncState :=
  if state.m_download_state ≠ .redownload then ([], state)
  else
    let popped := popHeaders setup state.m_process_all_remaining_headers
      state.m_redownloaded_headers state.m_redownload_buffer_first_prev_hash
    (popped.1,
      { state with
        m_redownloaded_headers := popped.2.1
        m_redownload_buffer_first_prev_hash := popped.2.2 })

def processPresync (state : HeadersSyncState) (received_headers : List CBlockHeader)
    (full_headers_message : Bool) : ProcessingResult × HeadersSyncState :=
  let (success, after) := validateAndStoreHeadersCommitments setup state received_headers
  ({ pow_validated_headers := []
     success := success
     request_more := success && (full_headers_message || after.m_download_state == .redownload) },
    after)

def processRedownload (state : HeadersSyncState) (received_headers : List CBlockHeader)
    (full_headers_message : Bool) : ProcessingResult × HeadersSyncState :=
  match validateEach (validateAndStoreRedownloadedHeader setup) state received_headers with
  | (false, after) =>
    ({ pow_validated_headers := [], success := false, request_more := false }, after)
  | (true, stored) =>
    let (ready, after) := popHeadersReadyForAcceptance setup stored
    let complete := after.m_redownloaded_headers.isEmpty && after.m_process_all_remaining_headers
    ({ pow_validated_headers := ready
       success := true
       request_more := !complete && full_headers_message },
      after)

def conclude (outcome : ProcessingResult × HeadersSyncState) :
    ProcessingResult × HeadersSyncState :=
  if outcome.1.success && outcome.1.request_more then outcome else (outcome.1, outcome.2.finalize)

def processNextHeaders (state : HeadersSyncState) (received_headers : List CBlockHeader)
    (full_headers_message : Bool) : ProcessingResult × HeadersSyncState :=
  let ignored : ProcessingResult :=
    { pow_validated_headers := [], success := false, request_more := false }
  match received_headers, state.m_download_state with
  | [], _ => (ignored, state)
  | _ :: _, .final => (ignored, state)
  | _ :: _, .presync => conclude (processPresync setup state received_headers full_headers_message)
  | _ :: _, .redownload =>
    conclude (processRedownload setup state received_headers full_headers_message)

end Model

section Chains

variable (setup : Setup)

def Connects : Uint256 → List CBlockHeader → Prop
  | _, [] => True
  | prev, header :: rest =>
    header.hashPrevBlock = prev ∧ Connects (header.getHash setup.hasher) rest

def lastHash (prev : Uint256) (headers : List CBlockHeader) : Uint256 :=
  headers.foldl (fun _ header => header.getHash setup.hasher) prev

private theorem lastHash_append (prev : Uint256) (headers later : List CBlockHeader) :
    lastHash setup prev (headers ++ later) = lastHash setup (lastHash setup prev headers) later :=
  List.foldl_append

theorem connects_append (prev : Uint256) (headers later : List CBlockHeader) :
    Connects setup prev (headers ++ later) ↔
      Connects setup prev headers ∧ Connects setup (lastHash setup prev headers) later := by
  induction headers generalizing prev with
  | nil => exact (true_and _).symm ▸ Iff.rfl
  | cons header rest ih =>
    rw [List.cons_append, Connects, Connects, ih, and_assoc]
    rfl

def work (headers : List CBlockHeader) : Uint256 :=
  headers.foldl (fun total header => total + proofOf header) setup.nChainWork

private theorem work_append (headers : List CBlockHeader) (header : CBlockHeader) :
    work setup (headers ++ [header]) = work setup headers + proofOf header :=
  List.foldl_append

def ReachesWork (headers : List CBlockHeader) : Prop :=
  ∃ reached, reached <+: headers ∧ reached ≠ [] ∧ setup.m_minimum_required_work ≤ work setup reached

theorem not_reachesWork_nil : ¬ReachesWork setup [] := by
  rintro ⟨reached, within, nonempty, _⟩
  exact nonempty (List.prefix_nil.mp within)

theorem reachesWork_append (headers : List CBlockHeader) (header : CBlockHeader) :
    ReachesWork setup (headers ++ [header]) ↔
      ReachesWork setup headers ∨
        setup.m_minimum_required_work ≤ work setup headers + proofOf header := by
  constructor
  · rintro ⟨reached, within, nonempty, enough⟩
    rcases List.prefix_concat_iff.mp within with whole | before
    · rw [whole, work_append] at enough
      exact .inr enough
    · exact .inl ⟨reached, before, nonempty, enough⟩
  · rintro (⟨reached, within, nonempty, enough⟩ | enough)
    · exact ⟨reached, within.trans (List.prefix_append _ _), nonempty, enough⟩
    · refine ⟨headers ++ [header], List.prefix_rfl, by simp, ?_⟩
      rw [work_append]
      exact enough

def bitsAlong (next : Int → Int) : Int → List CBlockHeader → List Bool
  | _, [] => []
  | height, header :: rest =>
    (if isCommitmentHeight setup (next height) then [commitment setup header] else []) ++
      bitsAlong next (next height) rest

theorem bitsAlong_append (next : Int → Int) (height : Int) (headers : List CBlockHeader)
    (header : CBlockHeader) : bitsAlong setup next height (headers ++ [header]) =
      bitsAlong setup next height headers ++
        if isCommitmentHeight setup (next^[headers.length + 1] height) then
          [commitment setup header]
        else [] := by
  induction headers generalizing height with
  | nil => simp [bitsAlong]
  | cons first rest ih =>
    rw [List.cons_append, bitsAlong, bitsAlong, ih, List.append_assoc]
    rfl

def recordedBits (headers : List CBlockHeader) : List Bool :=
  bitsAlong setup presyncNext setup.m_chain_start.nHeight headers

def commitmentBits (headers : List CBlockHeader) : List Bool :=
  bitsAlong setup (· + 1) setup.m_chain_start.nHeight headers

private theorem iterate_succ_height (count : Nat) (height : Int) :
    (fun height : Int => height + 1)^[count] height = height + count := by
  induction count generalizing height with
  | zero => exact (Int.add_zero height).symm
  | succ count ih =>
    rw [Function.iterate_succ_apply, ih]
    omega

end Chains

/-! ### Presync and redownload -/

variable {headers released pending : List CBlockHeader} {state after : HeadersSyncState}

section Phases

variable {setup : Setup}

theorem validateEach_keeps {validate : HeadersSyncState → CBlockHeader → Bool × HeadersSyncState}
    (holds : List CBlockHeader → HeadersSyncState → Prop)
    (keep : ∀ headers state header after, holds headers state → validate state header = (true,
      after) → holds (headers ++ [header]) after) {before : List CBlockHeader}
    (initially : holds before state) (accepts : validateEach validate state headers = (true, after))
    : holds (before ++ headers) after := by
  induction headers generalizing before state with
  | nil =>
    cases accepts
    rw [List.append_nil]
    exact initially
  | cons header rest ih =>
    rw [validateEach] at accepts
    split at accepts
    next middle first =>
      have later := ih (keep before state header middle initially first) accepts
      rw [List.append_assoc] at later
      exact later
    · cases accepts

structure Presync (setup : Setup) (headers : List CBlockHeader) (state : HeadersSyncState) :
    Prop where
  phase : state.m_download_state = .presync
  idle : state.m_process_all_remaining_headers = false
  commitments : state.m_header_commitments = recordedBits setup headers
  height : state.m_current_height = presyncNext^[headers.length] setup.m_chain_start.nHeight

theorem Presync.new (setup : Setup) : Presync setup [] (.new setup) := ⟨rfl, rfl, rfl, rfl⟩

theorem Presync.header {current : CBlockHeader} (before : Presync setup headers state)
    (accepts : validateAndProcessSingleHeader setup state current = (true, after)) :
    Presync setup (headers ++ [current]) after := by
  have next : presyncNext state.m_current_height =
      presyncNext^[headers.length + 1] setup.m_chain_start.nHeight := by
    rw [before.height, Function.iterate_succ_apply']
  unfold validateAndProcessSingleHeader at accepts
  dsimp only at accepts
  repeat' split at accepts
  all_goals cases accepts
  refine ⟨before.phase, before.idle, ?_, ?_⟩
  · rw [recordedBits, bitsAlong_append, ← next, ← recordedBits, ← before.commitments]
    unfold addCommitment
    split
    · rfl
    · exact (List.append_nil _).symm
  · rw [List.length_append]
    exact next

/-- The buffer holds the headers after the released ones, without their parents. -/
structure Redownload (setup : Setup) (recorded : List Bool) (released pending : List CBlockHeader)
    (state : HeadersSyncState) : Prop where
  phase : state.m_download_state = .redownload
  buffer : state.m_redownloaded_headers = pending.map .ofHeader
  connects : Connects setup setup.m_chain_start.hashBlock (released ++ pending)
  first : state.m_redownload_buffer_first_prev_hash =
    lastHash setup setup.m_chain_start.hashBlock released
  last : state.m_redownload_buffer_last_hash =
    lastHash setup setup.m_chain_start.hashBlock (released ++ pending)
  height : state.m_redownload_buffer_last_height =
    setup.m_chain_start.nHeight + (released ++ pending).length
  work : state.m_redownload_chain_work = work setup (released ++ pending)
  reached : state.m_process_all_remaining_headers = true ↔ ReachesWork setup (released ++ pending)
  matched : state.m_process_all_remaining_headers = false →
    commitmentBits setup (released ++ pending) ++ state.m_header_commitments = recorded

theorem Redownload.start (before : Presync setup headers state) :
    Redownload setup (recordedBits setup headers) [] [] (startRedownload setup state) where
  phase := rfl
  buffer := rfl
  connects := trivial
  first := rfl
  last := rfl
  height := (Int.add_zero _).symm
  work := rfl
  reached := by
    change state.m_process_all_remaining_headers = true ↔ _
    rw [before.idle]
    exact iff_of_false nofun (not_reachesWork_nil setup)
  matched := fun _ => before.commitments

/-- What an accepted header passed: it connects, and unless the work is reached its bit, at a
commitment height, is the next one recorded. -/
theorem validateAndStoreRedownloadedHeader_accepts {header : CBlockHeader}
    (accepts : validateAndStoreRedownloadedHeader setup state header = (true, after)) : ∃ remaining,
      header.hashPrevBlock = state.m_redownload_buffer_last_hash ∧
      after = storeHeader setup { trackWork setup state header with
        m_header_commitments := remaining } (state.m_redownload_buffer_last_height + 1) header ∧
      ((trackWork setup state header).m_process_all_remaining_headers = false →
        state.m_header_commitments =
          (if isCommitmentHeight setup (state.m_redownload_buffer_last_height + 1) then
            [commitment setup header]
          else []) ++ remaining) := by
  unfold validateAndStoreRedownloadedHeader at accepts
  dsimp only at accepts
  split at accepts
  · cases accepts
  split at accepts
  · cases accepts
  next connects =>
    split at accepts
    · cases accepts
    split at accepts
    next checks =>
      rw [Bool.and_eq_true] at checks
      split at accepts
      · cases accepts
      next expected_commitment rest queue =>
        split at accepts
        · cases accepts
        next equal =>
          cases accepts
          refine ⟨rest, not_not.mp connects, rfl, fun _ => ?_⟩
          rw [if_pos checks.2, not_not.mp equal]
          exact queue
    next skips =>
      cases accepts
      refine ⟨state.m_header_commitments, not_not.mp connects, rfl, fun unreached => ?_⟩
      have other : ¬isCommitmentHeight setup (state.m_redownload_buffer_last_height + 1) =
          true := by
        intro committed
        rw [unreached, committed] at skips
        exact skips rfl
      rw [if_neg other]
      rfl

theorem Redownload.header {recorded : List Bool} {header : CBlockHeader}
    (before : Redownload setup recorded released pending state)
    (accepts : validateAndStoreRedownloadedHeader setup state header = (true, after)) :
    Redownload setup recorded released (pending ++ [header]) after := by
  obtain ⟨remaining, connects, rfl, bit⟩ := validateAndStoreRedownloadedHeader_accepts accepts
  have whole : released ++ (pending ++ [header]) = (released ++ pending) ++ [header] :=
    (List.append_assoc _ _ _).symm
  refine ⟨before.phase, ?_, ?_, before.first, ?_, ?_, ?_, ?_, fun unreached => ?_⟩
  · rw [List.map_append, ← before.buffer]
    rfl
  · rw [whole, connects_append, ← before.last]
    exact ⟨before.connects, connects, trivial⟩
  · rw [whole, lastHash_append]
    rfl
  · rw [whole, List.length_append, before.height, Nat.cast_add, ← Int.add_assoc]
    rfl
  · rw [whole, work_append, ← before.work]
    rfl
  · rw [whole, reachesWork_append, ← before.reached, ← before.work]
    change (_ || _) = true ↔ _
    rw [Bool.or_eq_true, decide_eq_true_eq]
  · have earlier := (Bool.or_eq_false_iff.mp unreached).1
    have queue := bit unreached
    rw [← before.matched earlier, whole, commitmentBits, bitsAlong_append, iterate_succ_height,
      Nat.cast_add, ← Int.add_assoc, ← before.height, List.append_assoc]
    exact congrArg _ queue.symm

theorem popHeaders_spec (release_all : Bool) {prev : Uint256}
    (connects : Connects setup prev pending) : ∃ ready left, pending = ready ++ left ∧
      popHeaders setup release_all (pending.map .ofHeader) prev =
        (ready, left.map .ofHeader, lastHash setup prev ready) ∧
      (release_all = true → left = []) ∧
      (release_all = false → ready ≠ [] → REDOWNLOAD_BUFFER_SIZE ≤ left.length) := by
  induction pending generalizing prev with
  | nil => exact ⟨[], [], rfl, rfl, fun _ => rfl, fun _ impossible => absurd rfl impossible⟩
  | cons header rest ih =>
    rw [List.map_cons, popHeaders, List.length_map]
    split
    next releases =>
      obtain ⟨rfl, later⟩ := connects
      obtain ⟨ready, left, rfl, popped, all, some⟩ := ih later
      rw [CompressedHeader.getFullHeader_ofHeader]
      dsimp only
      rw [popped]
      refine ⟨header :: ready, left, rfl, rfl, all, fun partly _ => ?_⟩
      by_cases none : ready = []
      · subst none
        rw [partly] at releases
        have long := releases.resolve_right nofun
        rw [List.nil_append] at long
        omega
      · exact some partly none
    next keeps =>
      refine ⟨[], header :: rest, rfl, rfl, fun all => ?_, fun _ none => absurd rfl none⟩
      exact absurd (.inr all) keeps

theorem Redownload.pop {recorded : List Bool}
    (before : Redownload setup recorded released pending state) :
    ∃ ready left after, pending = ready ++ left ∧
      popHeadersReadyForAcceptance setup state = (ready, after) ∧
      Redownload setup recorded (released ++ ready) left after ∧
      (after.m_process_all_remaining_headers = true → left = []) ∧
      (after.m_process_all_remaining_headers = false → ready ≠ [] →
        REDOWNLOAD_BUFFER_SIZE ≤ left.length) := by
  have tail := ((connects_append setup _ released pending).mp before.connects).2
  obtain ⟨ready, left, rfl, popped, all, some⟩ :=
    popHeaders_spec state.m_process_all_remaining_headers tail
  have whole : (released ++ ready) ++ left = released ++ (ready ++ left) := List.append_assoc _ _ _
  unfold popHeadersReadyForAcceptance
  rw [before.phase, before.buffer, before.first, popped]
  refine ⟨ready, left, _, rfl, rfl, ?_, all, some⟩
  exact
    { phase := rfl
      buffer := rfl
      connects := whole ▸ before.connects
      first := (lastHash_append setup _ _ _).symm
      last := whole ▸ before.last
      height := whole ▸ before.height
      work := whole ▸ before.work
      reached := whole ▸ before.reached
      matched := whole ▸ before.matched }

end Phases

/-! ### Runs -/

structure Message where
  received_headers : List CBlockHeader
  full_headers_message : Bool

/-- The headers of the presync and redownload messages that were accepted, and the headers
released, each in the order in which they came. -/
structure History where
  presynced : List CBlockHeader
  redownloaded : List CBlockHeader
  released : List CBlockHeader

def History.empty : History := { presynced := [], redownloaded := [], released := [] }

def observe (setup : Setup) (run : History × HeadersSyncState) (message : Message) :
    History × HeadersSyncState :=
  let outcome := processNextHeaders setup run.2 message.received_headers
    message.full_headers_message
  let accepted (phase : DownloadState) : List CBlockHeader :=
    if run.2.m_download_state = phase ∧ outcome.1.success then message.received_headers else []
  ({ presynced := run.1.presynced ++ accepted .presync
     redownloaded := run.1.redownloaded ++ accepted .redownload
     released := run.1.released ++ outcome.1.pow_validated_headers },
    outcome.2)

/-- Released headers are the first redownloaded ones, which connect to the block the sync
started from; all are released when the work is reached, and until then each one lies under
a full buffer of headers that match the recorded bits. -/
structure Settled (setup : Setup) (history : History) : Prop where
  inOrder : history.released <+: history.redownloaded
  connects : Connects setup setup.m_chain_start.hashBlock history.redownloaded
  complete : ReachesWork setup history.redownloaded → history.released = history.redownloaded
  heldBack : ¬ReachesWork setup history.redownloaded → ∀ index < history.released.length,
    REDOWNLOAD_BUFFER_SIZE ≤ (history.redownloaded.drop (index + 1)).length
  matched : ¬ReachesWork setup history.redownloaded →
    commitmentBits setup history.redownloaded <+: recordedBits setup history.presynced

section Runs

variable {setup : Setup}

variable {history : History}

theorem Settled.of_nothing (redownloaded : history.redownloaded = [])
    (released : history.released = []) : Settled setup history := by
  refine ⟨?_, ?_, fun _ => ?_, fun _ index below => ?_, fun _ => ?_⟩
  · rw [released]
    exact List.nil_prefix
  · rw [redownloaded]
    trivial
  · rw [released, redownloaded]
  · rw [released] at below
    cases below
  · rw [redownloaded]
    exact List.nil_prefix

variable {presynced : List CBlockHeader}

theorem Redownload.settled
    (after : Redownload setup (recordedBits setup presynced) released pending state)
    (all : state.m_process_all_remaining_headers = true → pending = [])
    (buffered : state.m_process_all_remaining_headers = false → released ≠ [] →
      REDOWNLOAD_BUFFER_SIZE ≤ pending.length) : Settled setup
      { presynced := presynced, redownloaded := released ++ pending, released := released } := by
  have idle (unreached : ¬ReachesWork setup (released ++ pending)) :
      state.m_process_all_remaining_headers = false :=
    Bool.eq_false_iff.mpr fun flag => unreached (after.reached.mp flag)
  refine ⟨List.prefix_append _ _, after.connects, fun reached => ?_,
    fun unreached index below => ?_,
    fun unreached => ⟨_, after.matched (idle unreached)⟩⟩
  · have none := all (after.reached.mpr reached)
    rw [none, List.append_nil]
  · change index < released.length at below
    have some : released ≠ [] := List.ne_nil_of_length_pos (by omega)
    have long := buffered (idle unreached) some
    rw [List.length_drop, List.length_append]
    omega

def Phase (setup : Setup) (history : History) (state : HeadersSyncState) : Prop :=
  match state.m_download_state with
  | .presync => Presync setup history.presynced state ∧ history.redownloaded = [] ∧
      history.released = []
  | .redownload => ∃ pending, history.redownloaded = history.released ++ pending ∧
      Redownload setup (recordedBits setup history.presynced) history.released pending state ∧
      state.m_process_all_remaining_headers = false
  | .final => True

theorem Phase.presync (before : Presync setup history.presynced state)
    (redownloaded : history.redownloaded = []) (released : history.released = []) :
    Phase setup history state := by
  rw [Phase, before.phase]
  exact ⟨before, redownloaded, released⟩

theorem Phase.redownload
    (before : Redownload setup (recordedBits setup presynced) released pending state)
    (idle : state.m_process_all_remaining_headers = false) : Phase setup
      { presynced := presynced, redownloaded := released ++ pending, released := released }
      state := by
  rw [Phase, before.phase]
  exact ⟨pending, rfl, before, idle⟩

def Tracks (setup : Setup) (run : History × HeadersSyncState) : Prop :=
  Settled setup run.1 ∧ Phase setup run.1 run.2

theorem conclude_fst (outcome : ProcessingResult × HeadersSyncState) :
    (conclude outcome).1 = outcome.1 := by
  unfold conclude
  split <;> rfl

theorem tracks_conclude {outcome : ProcessingResult × HeadersSyncState}
    (settled : Settled setup history)
    (continues : outcome.1.success = true → outcome.1.request_more = true → Phase setup history
      outcome.2) : Tracks setup (history, (conclude outcome).2) := by
  refine ⟨settled, ?_⟩
  unfold conclude
  split
  next wanted =>
    rw [Bool.and_eq_true] at wanted
    exact continues wanted.1 wanted.2
  · trivial

variable {run : History × HeadersSyncState}

theorem tracks_ignored (before : Tracks setup run) : Tracks setup
      ({ presynced := run.1.presynced ++ [], redownloaded := run.1.redownloaded ++ []
         released := run.1.released ++ [] }, run.2) := by
  rw [List.append_nil, List.append_nil, List.append_nil]
  exact before

theorem Presync.message (before : Presync setup presynced state)
    (accepts : validateAndStoreHeadersCommitments setup state headers = (true, after)) :
    Presync setup (presynced ++ headers) after ∨
      Redownload setup (recordedBits setup (presynced ++ headers)) [] [] after ∧
        after.m_process_all_remaining_headers = false := by
  unfold validateAndStoreHeadersCommitments at accepts
  split at accepts
  · cases accepts
    rw [List.append_nil]
    exact .inl before
  split at accepts
  · cases accepts
  split at accepts
  · cases accepts
  split at accepts
  · cases accepts
  next middle each =>
    have kept := validateEach_keeps (Presync setup)
      (fun _ _ _ _ held accepted => held.header accepted) before each
    split at accepts
    · cases accepts
      exact .inr ⟨.start kept, kept.idle⟩
    · cases accepts
      exact .inl kept

theorem Phase.processPresync {full : Bool} (before : Presync setup history.presynced state)
    (redownloaded : history.redownloaded = []) (released : history.released = [])
    (accepts : (processPresync setup state headers full).1.success = true) :
    Phase setup { history with presynced := history.presynced ++ headers }
      (processPresync setup state headers full).2 := by
  obtain ⟨presynced, _, _⟩ := history
  cases redownloaded
  cases released
  unfold HeadersSync.processPresync at accepts ⊢
  cases validated : validateAndStoreHeadersCommitments setup state headers with
  | mk success after =>
    rw [validated] at accepts
    cases accepts
    rcases before.message validated with held | ⟨held, idle⟩
    · exact .presync held rfl rfl
    · exact .redownload held idle

theorem Redownload.message {full : Bool}
    (before : Redownload setup (recordedBits setup presynced) released pending state)
    (buffered : released ≠ [] → REDOWNLOAD_BUFFER_SIZE ≤ pending.length)
    (accepts : (processRedownload setup state headers full).1.success = true) :
    let outcome := processRedownload setup state headers full
    let history : History :=
      { presynced := presynced
        redownloaded := (released ++ pending) ++ headers
        released := released ++ outcome.1.pow_validated_headers }
    Settled setup history ∧ (outcome.1.request_more = true → Phase setup history outcome.2) := by
  unfold processRedownload at accepts ⊢
  cases validated : validateEach (validateAndStoreRedownloadedHeader setup) state headers with
  | mk success stored =>
    rw [validated] at accepts
    cases success with
    | false => cases accepts
    | true => ?_
    have held := validateEach_keeps
      (fun pending => Redownload setup (recordedBits setup presynced) released pending)
      (fun _ _ _ _ held accepted => held.header accepted) before validated
    obtain ⟨ready, left, after, split, popped, kept, all, some⟩ := held.pop
    have whole : (released ++ pending) ++ headers = (released ++ ready) ++ left := by
      rw [List.append_assoc, split, List.append_assoc]
    dsimp only
    rw [popped, whole]
    refine ⟨kept.settled all fun idle nonempty => ?_, fun more => .redownload kept ?_⟩
    · by_cases none : ready = []
      · subst none
        rw [List.append_nil] at nonempty
        have length := congrArg List.length split
        rw [List.length_append, List.nil_append] at length
        have long := buffered nonempty
        omega
      · exact some idle none
    · rw [Bool.and_eq_true, Bool.not_eq_true', Bool.and_eq_false_iff] at more
      rcases more.1 with filled | idle
      · refine Bool.eq_false_iff.mpr fun flag => ?_
        rw [kept.buffer, all flag] at filled
        cases filled
      · exact idle

theorem Tracks.redownload (before : Tracks setup run) (phase : run.2.m_download_state = .redownload)
    : ∃ pending, run.1.redownloaded = run.1.released ++ pending ∧
      Redownload setup (recordedBits setup run.1.presynced) run.1.released pending run.2 ∧
      (run.1.released ≠ [] → REDOWNLOAD_BUFFER_SIZE ≤ pending.length) := by
  obtain ⟨settled, held⟩ := before
  rw [Phase, phase] at held
  obtain ⟨pending, whole, held, idle⟩ := held
  refine ⟨pending, whole, held, fun nonempty => ?_⟩
  have unreached : ¬ReachesWork setup run.1.redownloaded := by
    intro reached
    rw [whole, ← held.reached, idle] at reached
    cases reached
  have positive := List.length_pos_iff.mpr nonempty
  have long := settled.heldBack unreached (run.1.released.length - 1) (by omega)
  rw [whole, List.length_drop, List.length_append] at long
  omega

theorem Tracks.presync (before : Tracks setup run) (phase : run.2.m_download_state = .presync) :
    Presync setup run.1.presynced run.2 ∧ run.1.redownloaded = [] ∧ run.1.released = [] := by
  have held := before.2
  rw [Phase, phase] at held
  exact held

theorem tracks_observe (run : History × HeadersSyncState) (message : Message)
    (before : Tracks setup run) : Tracks setup (observe setup run message) := by
  obtain ⟨history, state⟩ := run
  obtain ⟨headers, full⟩ := message
  unfold observe processNextHeaders
  dsimp only
  split
  · simpa only [Bool.false_eq_true, and_false, if_false] using tracks_ignored before
  · simpa only [Bool.false_eq_true, and_false, if_false] using tracks_ignored before
  next _ _ first rest phase =>
    obtain ⟨held, redownloaded, released⟩ := before.presync phase
    have none :
        (processPresync setup state (first :: rest) full).1.pow_validated_headers = [] := rfl
    rw [conclude_fst, phase, none]
    simp only [reduceCtorEq, false_and, true_and, if_false, List.append_nil]
    refine tracks_conclude (.of_nothing redownloaded released) fun accepts _ => ?_
    rw [if_pos accepts]
    exact .processPresync held redownloaded released accepts
  next _ _ first rest phase =>
    obtain ⟨pending, whole, held, buffered⟩ := before.redownload phase
    obtain ⟨presynced, redownloaded, released⟩ := history
    change redownloaded = released ++ pending at whole
    subst whole
    rw [conclude_fst, phase]
    simp only [reduceCtorEq, false_and, true_and, if_false, List.append_nil]
    split_ifs with accepts
    · have after := held.message buffered accepts
      exact tracks_conclude after.1 fun _ => after.2
    have none :
        (processRedownload setup state (first :: rest) full).1.pow_validated_headers = [] := by
      unfold processRedownload at accepts ⊢
      split
      · rfl
      next validated => exact absurd (by rw [validated]) accepts
    rw [none, List.append_nil, List.append_nil]
    exact tracks_conclude before.1 fun impossible => absurd impossible accepts

/-- In every run, whatever the messages hold. -/
theorem released_settled (setup : Setup) (messages : List Message) :
    Settled setup (Run.run (observe setup) (.empty, .new setup) messages).1 := by
  have initially : Tracks setup (.empty, .new setup) :=
    ⟨.of_nothing rfl rfl, .presync (.new setup) rfl rfl⟩
  exact (Run.invariant (Tracks setup) (fun run message before _ =>
    tracks_observe run message before)
    initially (Run.along_of_all (fun _ _ => trivial) _ messages)).1

end Runs

section Memory

variable {setup : Setup} {extra growth : Nat}

/-- What a sync may hold, with more commitments and headers than between messages. -/
structure Within (setup : Setup) (overrun extra : Nat) (state : HeadersSyncState) : Prop where
  commitments : state.m_header_commitments.length ≤ setup.m_max_commitments + overrun
  buffer : state.m_redownloaded_headers.length ≤ REDOWNLOAD_BUFFER_SIZE + extra
  emptied : state.m_download_state = .final →
    state.m_header_commitments = [] ∧ state.m_redownloaded_headers = []

/-- From within the bounds: what is refused may leave one commitment too many. -/
structure StaysWithin (setup : Setup) (extra : Nat) (state : HeadersSyncState)
    (result : Bool × HeadersSyncState) : Prop where
  phase : result.2.m_download_state = state.m_download_state
  held : Within setup 1 extra result.2
  accepted : result.1 = true → Within setup 0 extra result.2

theorem staysWithin_presync (state : HeadersSyncState) (header : CBlockHeader)
    (before : Within setup 0 extra state) :
    StaysWithin setup (extra + 0) state (validateAndProcessSingleHeader setup state header) := by
  unfold validateAndProcessSingleHeader addCommitment
  grind [Within, StaysWithin]

theorem staysWithin_redownload (state : HeadersSyncState) (header : CBlockHeader)
    (before : Within setup 0 extra state) :
    StaysWithin setup (extra + 1) state
      (validateAndStoreRedownloadedHeader setup state header) := by
  unfold validateAndStoreRedownloadedHeader storeHeader trackWork
  grind [Within, StaysWithin]

theorem validateEach_within {validate : HeadersSyncState → CBlockHeader → Bool × HeadersSyncState}
    (stays : ∀ extra state header, Within setup 0 extra state →
      StaysWithin setup (extra + growth) state (validate state header))
    (before : Within setup 0 extra state) (headers : List CBlockHeader) :
    StaysWithin setup (extra + headers.length * growth) state
      (validateEach validate state headers) := by
  induction headers generalizing extra state with
  | nil => grind [Within, StaysWithin, validateEach]
  | cons header rest ih =>
    rw [List.length_cons, validateEach]
    grind [Within, StaysWithin]

theorem length_popHeaders (release_all : Bool) (buffer : List CompressedHeader) (prev : Uint256) :
    (popHeaders setup release_all buffer prev).2.1.length ≤ REDOWNLOAD_BUFFER_SIZE := by
  induction buffer generalizing prev with
  | nil => exact Nat.zero_le _
  | cons first rest ih =>
    rw [popHeaders]
    split
    · exact ih _
    next keeps => exact not_lt.mp (keeps <| .inl ·)

def receive (setup : Setup) (state : HeadersSyncState) (message : Message) : HeadersSyncState :=
  (processNextHeaders setup state message.received_headers message.full_headers_message).2

theorem within_receive (state : HeadersSyncState) (message : Message)
    (before : Within setup 0 0 state) : Within setup 0 0 (receive setup state message) := by
  have presync := validateEach_within (fun _ => staysWithin_presync) before message.received_headers
  have redownload :=
    validateEach_within (fun _ => staysWithin_redownload) before message.received_headers
  unfold receive processNextHeaders
  split
  · exact before
  · exact before
  · unfold conclude HeadersSyncState.finalize processPresync validateAndStoreHeadersCommitments
      startRedownload
    grind [Within, StaysWithin]
  · unfold conclude HeadersSyncState.finalize processRedownload popHeadersReadyForAcceptance
    grind [Within, StaysWithin, length_popHeaders]

/-- After any messages and any headers of the next one. -/
theorem memory_bounded (setup : Setup) (messages : List Message) :
    let state := Run.run (receive setup) (.new setup) messages
    (∀ validate ∈ [validateAndProcessSingleHeader setup, validateAndStoreRedownloadedHeader setup],
      ∀ headers : List CBlockHeader, let held := (validateEach validate state headers).2
        held.m_header_commitments.length ≤ setup.m_max_commitments + 1 ∧
          held.m_redownloaded_headers.length ≤ REDOWNLOAD_BUFFER_SIZE + headers.length) ∧
      (state.m_download_state = .final → state.m_header_commitments = [] ∧
        state.m_redownloaded_headers = [] ∧
        ∀ later, Run.run (receive setup) state later = state) := by
  intro state
  have reached : Within setup 0 0 state := Run.invariant _
    (fun state message before _ => within_receive state message before)
    ⟨Nat.zero_le _, Nat.zero_le _, nofun⟩ (Run.along_of_all (fun _ _ => trivial) _ messages)
  refine ⟨?_, fun final => ?_⟩
  · intro validate member headers
    have presync := (validateEach_within (fun _ => staysWithin_presync) reached headers).held
    have redownload := (validateEach_within (fun _ => staysWithin_redownload) reached headers).held
    rcases List.mem_pair.mp member with rfl | rfl
    · exact ⟨presync.commitments, presync.buffer.trans (by omega)⟩
    · exact ⟨redownload.commitments, redownload.buffer.trans (by omega)⟩
  · obtain ⟨commitments, buffer⟩ := reached.emptied final
    refine ⟨commitments, buffer, fun later => ?_⟩
    refine List.foldl_fixed' (fun message => ?_) later
    unfold receive processNextHeaders
    rw [final]
    split <;> first | rfl | contradiction

end Memory

end Adonai.HeadersSync
