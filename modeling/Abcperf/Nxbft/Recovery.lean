import Abcperf.Nxbft.Consensus
import Abcperf.Lib.Reflection

/-! Crash recovery of an NxBFT replica. A replica that restarts from a backup runs a new enclave and
asks for recovery; everyone proposes the row of its vertices they know, and once all proposals are
there, everyone commits to the longest one. A quorum of equal commits replaces the attestation of
the replica from the end of the row on.

The state here is that of a replica with the fields that only recovery uses. Its `log` records what
was done to other replicas and which commits were counted; no function reads it. -/

namespace Abcperf.Nxbft

open Lib Lib.Outcome Heaps

/-- What recovery needs besides the platform: commits are compared, and the enclave checks
attestations. -/
structure RecoveryPlatform extends Platform where
  txEq : DecidableEq Tx
  signatureEq : DecidableEq Signature
  verifyAttestation : Key → Attestation → Except Error Bool

instance : Coe RecoveryPlatform Platform := ⟨RecoveryPlatform.toPlatform⟩

variable {R : RecoveryPlatform}

structure RecoveryProposal (P : Platform) where
  forId : Nat
  forAttestation : P.Attestation
  messages : List (SignedMessage P)

structure RecoveryCommit (P : Platform) where
  forId : Nat
  forAttestation : P.Attestation
  messages : List (SignedMessage P)

instance : DecidableEq (SignedMessage R) := fun left right =>
  have := R.txEq
  have := R.signatureEq
  decidable_of_iff
    (left.payload.address = right.payload.address ∧ left.payload.edges = right.payload.edges ∧
      left.payload.transactions = right.payload.transactions ∧
      left.payload.signature = right.payload.signature ∧
      left.payload.counter = right.payload.counter) (by
    rcases left with ⟨⟨_, _, _, _, _⟩⟩
    rcases right with ⟨⟨_, _, _, _, _⟩⟩
    simp)

instance : DecidableEq (RecoveryCommit R) := fun left right =>
  decidable_of_iff (left.forId = right.forId ∧ left.forAttestation = right.forAttestation ∧
      left.messages = right.messages) (by
    cases left
    cases right
    simp)

inductive RecoveryMessage (P : Platform)
  | recoveryRequest (attestation : P.Attestation)
  | recoveryProposal (proposal : RecoveryProposal P)
  | recoveryCommit (commit : RecoveryCommit P)

structure RecoveryPeerMessage (P : Platform) where
  sender : Nat
  message : RecoveryMessage P

/-- A `PeerMessage` of the source is one of the protocol or one of the recovery. -/
inductive AnyMessage (P : Platform)
  | protocol (message : PeerMessage P)
  | recovery (message : RecoveryPeerMessage P)

/-- What a replica did in recoveries: it asked for its own recovery, it marked a replica as
recovering, it dropped the vertices of a replica that it had buffered, it counted a commit while
`maxRound` was the newest round in which it had seen a vertex of the replica, and it replaced the
attestation of a replica with `maxRound` as the last round of the old one. -/
inductive Effect (P : Platform)
  | requested (attestation : P.Attestation)
  | marked (id : Nat) (attestation : P.Attestation)
  | dropped (id : Nat) (attestation : P.Attestation)
  | counted (sender : Nat) (commit : RecoveryCommit P) (maxRound : Nat)
  | replaced (commit : RecoveryCommit P) (maxRound : Nat)

/-- Recovery messages a replica broadcasts are collected in `pending`. Within one call they all
come before the messages of the protocol. -/
structure RecoverableReplica (P : Platform) where
  base : Replica P
  recoveryProposalSenders : P.Attestation → Option IdSet
  longestRecoveryProposal : P.Attestation → Option (List (SignedMessage P))
  recoveryCommits : P.Attestation → Option (Nat → Option (RecoveryCommit P))
  seenRecoveryRequests : Finset P.Attestation
  successfulRecoveries : Finset P.Attestation
  recoveryStart : Option Nat
  pending : List (RecoveryPeerMessage P)
  log : List (Effect P)

structure RecoveryOutput (P : Platform) where
  base : Output P
  broadcasts : List (RecoveryPeerMessage P)

def RecoveryOutput.append {P : Platform} (first second : RecoveryOutput P) : RecoveryOutput P :=
  ⟨first.base.append second.base, first.broadcasts ++ second.broadcasts⟩

def RecoveryOutput.empty {P : Platform} : RecoveryOutput P := ⟨Output.empty, []⟩

structure Backup (P : Platform) where
  n : Nat
  quorum : Nat
  me : Nat
  round : Nat
  decidedWave : Nat
  dag : Dag P
  clientLastRequest : Nat → Option Nat
  expectedCounters : Nat → Nat
  highestRounds : Nat → Nat
  vertexBuffer : List (Vertex P)
  pendingWaveCoins : Nat → Option Nat
  vertexTimeout : Nat
  minVertexSize : Nat
  maxVertexSize : Nat
  enclave : EnclaveAutomataExport P
  seenRecoveryRequests : Finset P.Attestation
  successfulRecoveries : Finset P.Attestation
  recoveryProposalSenders : P.Attestation → Option IdSet
  maxRounds : Nat → Nat

namespace RecoverableReplica

variable (env : Env) (replica : RecoverableReplica R.toPlatform)

def ofReplica {P : Platform} (base : Replica P) : RecoverableReplica P where
  base
  recoveryProposalSenders := fun _ => none
  longestRecoveryProposal := fun _ => none
  recoveryCommits := fun _ => none
  seenRecoveryRequests := ∅
  successfulRecoveries := ∅
  recoveryStart := none
  pending := []
  log := []

def stateMessage (message : StateMessage R.toPlatform) : RecoverableReplica R.toPlatform :=
  { replica with base := replica.base.stateMessage message }

def broadcast (message : RecoveryMessage R.toPlatform) : RecoverableReplica R.toPlatform :=
  { replica with pending := replica.pending ++ [⟨replica.base.me, message⟩] }

def record (effect : Effect R.toPlatform) : RecoverableReplica R.toPlatform :=
  { replica with log := replica.log ++ [effect] }

def request (attestation : R.Attestation) : RecoverableReplica R.toPlatform :=
  (replica.record (.requested attestation)).broadcast (.recoveryRequest attestation)

/-- The loop that looks for the newest vertices of `id`, from `round` down. The top of the row is
the newest vertex of all, if it is valid; the row goes down to where the counters start again. A
`top` of 0 says that no vertex was found so far. -/
def searchRow (replica : Replica R.toPlatform) (id : Nat) : Nat → Nat → Nat →
    Outcome (Except (EnclaveAutomataError R.toPlatform) (Nat × Nat))
  | 0, top, bot => return .ok (top, bot)
  | round + 1, top, bot => do
      match ← replica.dag.get ⟨round + 1, id⟩ with
      | none => if top = 0 then searchRow replica id round top bot else return .ok (top, bot)
      | some vertex =>
        let checked ← if top = 0 then
            replica.enclave.verify vertex.creator vertex.counter vertex.signable vertex.signature
          else pure (.ok true)
        match checked with
        | .error error => return .error error
        | .ok false => return .ok (top, bot)
        | .ok true =>
          let top := if top = 0 then round + 1 else top
          if vertex.counter = 0 then
            return .ok (top, round + 1)
          if round + 1 < top then
            let above ← unwrap (← replica.dag.get ⟨round + 2, id⟩)
            if above.counter < vertex.counter then
              return .ok (top, round + 1)
          searchRow replica id round top (round + 1)

def rowBetween (replica : Replica R.toPlatform) (id bot top : Nat) :
    Outcome (List (SignedMessage R.toPlatform)) :=
  (List.range' bot (top + 1 - bot)).mapM fun round => do
    let vertex ← unwrap (← replica.dag.get ⟨round, id⟩)
    return ⟨vertex⟩

def proposalRow (replica : Replica R.toPlatform) (id : Nat) :
    Outcome (Except (EnclaveAutomataError R.toPlatform) (List (SignedMessage R.toPlatform))) := do
  match ← searchRow replica id replica.round 0 0 with
  | .error error => return .error error
  | .ok (top, bot) =>
    if top = 0 then
      return .ok []
    return .ok (← rowBetween replica id bot top)

/-- Remove what is buffered of the vertices of a replica. A replica id indexes the buffers. -/
def dropBuffered (id : Nat) (attestation : R.Attestation) :
    Outcome (RecoverableReplica R.toPlatform) := do
  assert (id < replica.base.n)
  return { replica with
    base := { replica.base with
      vertexBuffer := replica.base.vertexBuffer.filter (fun vertex => vertex.creator ≠ id)
      nonEquivocationMessageBuffers :=
        Function.update replica.base.nonEquivocationMessageBuffers id [] }
    log := replica.log ++ [.dropped id attestation] }

def repeatRequest : Outcome (RecoverableReplica R.toPlatform) :=
  if replica.base.inRecovery then
    match R.attestationCertificate replica.base.enclave.enclave with
    | .ok attestation => return replica.request attestation
    | .error _ => throw .unwrap
  else return replica

/-- The part of `process_recovery_request` after the attestation was found valid. -/
def beginRecovery (sender : Nat) (attestation : R.Attestation) :
    Outcome (RecoverableReplica R.toPlatform) := do
  let replica ← replica.repeatRequest
  assert ((replica.recoveryCommits attestation).isNone)
  assert ((replica.longestRecoveryProposal attestation).isNone)
  assert ((replica.recoveryProposalSenders attestation).isNone)
  let replica := { replica with
    recoveryCommits :=
      Function.update replica.recoveryCommits attestation (some fun _ => none)
    longestRecoveryProposal :=
      Function.update replica.longestRecoveryProposal attestation (some [])
    recoveryProposalSenders :=
      Function.update replica.recoveryProposalSenders attestation (some IdSet.empty)
    base := { replica.base with
      currentlyRecovering := replica.base.currentlyRecovering.insert sender } }
  let replica ← (replica.record (.marked sender attestation)).dropBuffered sender attestation
  match ← proposalRow replica.base sender with
  | .error error => return replica.stateMessage (.enclaveError error)
  | .ok messages => return replica.broadcast (.recoveryProposal ⟨sender, attestation, messages⟩)

def processRecoveryRequest (sender : Nat) (attestation : R.Attestation) :
    Outcome (RecoverableReplica R.toPlatform) :=
  if attestation ∈ replica.successfulRecoveries then
    return replica
  else if attestation ∈ replica.seenRecoveryRequests then
    return replica.stateMessage (.peerRecoveryIgnore sender "RecoveryRequest")
  else
    let replica := { replica with
      seenRecoveryRequests := insert attestation replica.seenRecoveryRequests }
    match R.verifyAttestation replica.base.enclave.enclave attestation with
    | .ok false => return replica.stateMessage (.peerError sender .invalidAttestation)
    | .error error => return replica.stateMessage (.enclaveError (.enclaveTrusted error))
    | .ok true => replica.beginRecovery sender attestation

/-- What a proposal and a commit do first: they count as a request of the replica they name, and
they are dropped if that recovery is over or its attestation is not valid. -/
def relayed (forId : Nat) (forAttestation : R.Attestation)
    (process : RecoverableReplica R.toPlatform → Outcome (RecoverableReplica R.toPlatform)) :
    Outcome (RecoverableReplica R.toPlatform) := do
  let replica ← replica.processRecoveryRequest forId forAttestation
  if forAttestation ∈ replica.successfulRecoveries then
    return replica
  match R.verifyAttestation replica.base.enclave.enclave forAttestation with
  | .ok false => return replica
  | .error error => return replica.stateMessage (.enclaveError (.enclaveTrusted error))
  | .ok true => process replica

/-- The loop over the signatures of a proposed row: whether all are valid, or the first error. -/
def verifyRow (enclave : EnclaveAutomata R.toPlatform) : List (SignedMessage R.toPlatform) →
    Outcome (Except (EnclaveAutomataError R.toPlatform) Bool)
  | [] => return .ok true
  | message :: rest => do
      match ← enclave.verify message.creator message.counter message.payload.signable
          message.payload.signature with
      | .error error => return .error error
      | .ok false => return .ok false
      | .ok true => verifyRow enclave rest

def edgesFit (quorum : Nat) (vertex : Vertex R.toPlatform) : Bool :=
  !(vertex.round == 1 && 0 < vertex.numEdges) && !(1 < vertex.round && vertex.numEdges < quorum)

/-- The check of a proposed row: consecutive rounds, and edges that fit. -/
def rowFits (overflowChecks : Bool) (quorum : Nat) :
    List (SignedMessage R.toPlatform) → Outcome Bool
  | [] => return true
  | [message] => return edgesFit quorum message.payload
  | message :: next :: rest =>
    if edgesFit quorum message.payload then do
      let expected ← nextRound overflowChecks message.payload.round
      if next.payload.round = expected then rowFits overflowChecks quorum (next :: rest)
      else return false
    else return false

/-- Keep the longest row; of two rows of the same length the first. -/
def keepLongest (attestation : R.Attestation) (messages : List (SignedMessage R.toPlatform)) :
    RecoverableReplica R.toPlatform :=
  match replica.longestRecoveryProposal attestation with
  | some longest =>
    if longest.length < messages.length then
      { replica with longestRecoveryProposal :=
          Function.update replica.longestRecoveryProposal attestation (some messages) }
    else replica
  | none => replica

/-- The commit that follows the last proposal. -/
def commitLongest (forId : Nat) (attestation : R.Attestation) :
    Outcome (RecoverableReplica R.toPlatform) := do
  let messages ← unwrap (replica.longestRecoveryProposal attestation)
  let replica := { replica with
    longestRecoveryProposal := Function.update replica.longestRecoveryProposal attestation none }
  return replica.broadcast (.recoveryCommit ⟨forId, attestation, messages⟩)

/-- The part of `process_recovery_proposal` for a proposal with a valid row, after `senders` of
them. -/
def acceptProposal (proposal : RecoveryProposal R.toPlatform) (senders : IdSet) :
    Outcome (RecoverableReplica R.toPlatform) := do
  let replica := replica.keepLongest proposal.forAttestation proposal.messages
  if senders.len ≠ replica.base.n then
    assert (senders.len < replica.base.n)
    return replica
  replica.commitLongest proposal.forId proposal.forAttestation

def collectProposal (sender : Nat) (proposal : RecoveryProposal R.toPlatform) :
    Outcome (RecoverableReplica R.toPlatform) := do
  let senders ← unwrap (replica.recoveryProposalSenders proposal.forAttestation)
  if senders.contains sender then
    return replica
  let senders := senders.insert sender
  let replica := { replica with
    recoveryProposalSenders :=
      Function.update replica.recoveryProposalSenders proposal.forAttestation (some senders) }
  match ← verifyRow replica.base.enclave proposal.messages with
  | .error error => return replica.stateMessage (.enclaveError error)
  | .ok false => return replica
  | .ok true =>
    if ← rowFits env.overflowChecks replica.base.quorum proposal.messages then
      replica.acceptProposal proposal senders
    else return replica

def processRecoveryProposal (sender : Nat) (proposal : RecoveryProposal R.toPlatform) :
    Outcome (RecoverableReplica R.toPlatform) :=
  replica.relayed proposal.forId proposal.forAttestation (·.collectProposal env sender proposal)

def bufferVertex (base : Replica R.toPlatform) (vertex : Vertex R.toPlatform) :
    Replica R.toPlatform :=
  let base := { base with
    vertexBuffer := Heaps.insert (fun left right => left.address.le right.address) vertex
      base.vertexBuffer }
  base.stateMessage (.bufferedVertex vertex.address)

/-- One vertex of the committed row: it is buffered unless the graph has it. The second component
is the round in which a recovered replica goes on. -/
def restoreVertex (overflowChecks : Bool) (forId : Nat)
    (state : RecoverableReplica R.toPlatform × Nat) (message : SignedMessage R.toPlatform) :
    Outcome (RecoverableReplica R.toPlatform × Nat) := do
  let (replica, _) := state
  let vertex := message.payload
  assert (vertex.creator = forId)
  let known ← replica.base.dag.knows vertex.address
  let base := if known then replica.base else bufferVertex replica.base vertex
  let base := { base with
    maxRounds := Function.update base.maxRounds vertex.creator
      (max (base.maxRounds vertex.creator) vertex.round) }
  return ({ replica with base }, ← nextRound overflowChecks vertex.round)

def rejoin (restartRound : Nat) : Outcome (RecoverableReplica R.toPlatform) := do
  assert (replica.base.round ≤ restartRound)
  let _ ← unwrap replica.recoveryStart
  return { replica with base := { replica.base with
    restartRound
    inRecovery := false
    callCreateVertex := true
    output := replica.base.output.setTimeout replica.base.vertexTimeout } }

def finishRecovery (commit : RecoveryCommit R.toPlatform) :
    Outcome (RecoverableReplica R.toPlatform) := do
  let replica := { replica with
    seenRecoveryRequests := replica.seenRecoveryRequests.erase commit.forAttestation
    longestRecoveryProposal :=
      Function.update replica.longestRecoveryProposal commit.forAttestation none
    successfulRecoveries := insert commit.forAttestation replica.successfulRecoveries
    base := { replica.base with
      output := replica.base.output.setBackupEnclave
      currentlyRecovering := replica.base.currentlyRecovering.remove commit.forId } }
  let base ← replica.base.traverseVertexBuffer env
  return { replica with base }

/-- The part of `process_recovery_commit` after a commit has its quorum. -/
def applyCommit (commit : RecoveryCommit R.toPlatform) :
    Outcome (RecoverableReplica R.toPlatform) := do
  let replica ← replica.dropBuffered commit.forId commit.forAttestation
  let (replica, restartRound) ←
    commit.messages.foldlM (restoreVertex env.overflowChecks commit.forId) (replica, 0)
  let replica := { replica with base := { replica.base with
    expectedCounters := Function.update replica.base.expectedCounters commit.forId 0 } }
  let maxRound := replica.base.maxRounds commit.forId
  let (enclave, result) ←
    replica.base.enclave.replacePeer commit.forId commit.forAttestation maxRound
  let replica := { replica with base := { replica.base with enclave } }
  match result with
  | .error error => return replica.stateMessage (.enclaveError error)
  | .ok _ =>
    let replica := replica.record (.replaced commit maxRound)
    if commit.forId = replica.base.me then
      let replica ← replica.rejoin restartRound
      replica.finishRecovery env commit
    else replica.finishRecovery env commit

def storedCommits (n : Nat) (commits : Nat → Option (RecoveryCommit R.toPlatform)) :
    List (RecoveryCommit R.toPlatform) :=
  (List.range n).filterMap commits

/-- The commit that a quorum has sent. The source takes the first one in the order of a hash map,
but there is at most one: a quorum is a majority. -/
def quorumCommit (quorum : Nat) (stored : List (RecoveryCommit R.toPlatform)) :
    Option (RecoveryCommit R.toPlatform) :=
  stored.find? (fun commit => quorum ≤ stored.count commit)

/-- When a quorum of commits is there, all of them are taken out, also when they differ. -/
def collectCommit (sender : Nat) (commit : RecoveryCommit R.toPlatform) :
    Outcome (RecoverableReplica R.toPlatform) := do
  let commits ← unwrap (replica.recoveryCommits commit.forAttestation)
  if (commits sender).isSome then
    return replica
  let commits := Function.update commits sender (some commit)
  let replica := replica.record
    (.counted sender commit (replica.base.maxRounds commit.forId))
  let stored := storedCommits replica.base.n commits
  if stored.length < replica.base.quorum then
    return { replica with
      recoveryCommits :=
        Function.update replica.recoveryCommits commit.forAttestation (some commits) }
  let replica := { replica with
    recoveryCommits :=
      Function.update replica.recoveryCommits commit.forAttestation (some fun _ => none) }
  match quorumCommit replica.base.quorum stored with
  | none => return replica
  | some agreed =>
    assert (agreed.forId = commit.forId)
    assert (agreed.forAttestation = commit.forAttestation)
    replica.applyCommit env agreed

def processRecoveryCommit (sender : Nat) (commit : RecoveryCommit R.toPlatform) :
    Outcome (RecoverableReplica R.toPlatform) :=
  replica.relayed commit.forId commit.forAttestation (·.collectCommit env sender commit)

def dispatch : AnyMessage R.toPlatform → Outcome (RecoverableReplica R.toPlatform)
  | .protocol message => do
      let base ← replica.base.dispatch env message
      return { replica with base }
  | .recovery message =>
    if replica.base.n ≤ message.sender then
      return replica.stateMessage (.peerError message.sender .invalidFrom)
    else
      match message.message with
      | .recoveryRequest attestation =>
        replica.processRecoveryRequest message.sender attestation
      | .recoveryProposal proposal =>
        replica.processRecoveryProposal env message.sender proposal
      | .recoveryCommit commit => replica.processRecoveryCommit env message.sender commit

def take : RecoverableReplica R.toPlatform × RecoveryOutput R.toPlatform ×
      List (AnyMessage R.toPlatform) :=
  ({ replica with
      base := { replica.base with output := .new replica.base.me }
      pending := [] },
    ⟨replica.base.output.output, replica.pending⟩,
    replica.pending.map .recovery ++ replica.base.output.reflectionMessages.map .protocol)

def machine : Reflector (RecoverableReplica R.toPlatform) (RecoveryOutput R.toPlatform)
      (AnyMessage R.toPlatform) where
  dispatch := dispatch env
  take := take
  join := RecoveryOutput.append
  join_assoc := fun first second third => by
    simp [RecoveryOutput.append, Output.append_assoc, List.append_assoc]

def processPeerMessage (message : AnyMessage R.toPlatform) :
    Outcome (RecoverableReplica R.toPlatform × RecoveryOutput R.toPlatform) :=
  (machine env).process env.fuel replica message

/-- A call that starts no recovery: what it sends to the replica itself is of the protocol. -/
def lift (call : Replica R.toPlatform → Outcome (Replica R.toPlatform × Output R.toPlatform))
    (replica : RecoverableReplica R.toPlatform) :
    Outcome (RecoverableReplica R.toPlatform × RecoveryOutput R.toPlatform) := do
  let (base, output) ← call replica.base
  return ({ replica with base }, ⟨output, []⟩)

def initHandshake : RecoverableReplica R.toPlatform →
      Outcome (RecoverableReplica R.toPlatform × RecoveryOutput R.toPlatform) :=
  lift (·.initHandshake env)

def receiveClientRequest (transaction : R.Tx) :
    Outcome (RecoverableReplica R.toPlatform × RecoveryOutput R.toPlatform) :=
  lift (·.receiveClientRequest env transaction) replica

def processVertexTimeout : RecoverableReplica R.toPlatform →
      Outcome (RecoverableReplica R.toPlatform × RecoveryOutput R.toPlatform) :=
  lift (·.processVertexTimeout env)

def backupEnclave : Outcome (Backup R.toPlatform) :=
  match replica.base.enclave.exportState with
  | .error _ => throw .unwrap
  | .ok enclave => return {
      n := replica.base.n
      quorum := replica.base.quorum
      me := replica.base.me
      round := replica.base.round
      decidedWave := replica.base.decidedWave
      dag := replica.base.dag
      clientLastRequest := replica.base.clientLastRequest
      expectedCounters := replica.base.expectedCounters
      highestRounds := replica.base.highestRounds
      vertexBuffer := replica.base.vertexBuffer
      pendingWaveCoins := replica.base.pendingWaveCoins
      vertexTimeout := replica.base.vertexTimeout
      minVertexSize := replica.base.minVertexSize
      maxVertexSize := replica.base.maxVertexSize
      enclave
      seenRecoveryRequests := replica.seenRecoveryRequests
      successfulRecoveries := replica.successfulRecoveries
      recoveryProposalSenders := replica.recoveryProposalSenders
      maxRounds := replica.base.maxRounds }

theorem backupEnclave_ok {replica : RecoverableReplica R} {backup : Backup R}
    (run : replica.backupEnclave = .ok backup) :
    backup.n = replica.base.n ∧ backup.quorum = replica.base.quorum ∧
    backup.me = replica.base.me := by
  unfold backupEnclave at run
  split at run
  · cases run
  · rw [← pure_ok.mp run]
    exact ⟨rfl, rfl, rfl⟩

/-- The replica that `init_recovery` builds around the recovered enclave. -/
def restored (backup : Backup R.toPlatform) (enclave : EnclaveAutomata R.toPlatform) (now : Nat) :
    RecoverableReplica R.toPlatform where
  base := {
    n := backup.n
    quorum := backup.quorum
    me := backup.me
    round := backup.round
    decidedWave := backup.decidedWave
    dag := backup.dag
    helloReplyCount := backup.n
    ready := true
    callCreateVertex := false
    inRecovery := true
    helloSet := IdSet.empty
    readySet := IdSet.empty
    helloMap := fun _ => none
    pendingClientRequests := .new backup.maxVertexSize
    clientLastRequest := backup.clientLastRequest
    expectedCounters := backup.expectedCounters
    highestRounds := backup.highestRounds
    nonEquivocationMessageBuffers := fun _ => []
    vertexBuffer := backup.vertexBuffer
    enclave
    pendingWaveCoins := backup.pendingWaveCoins
    cachedHelloReplies := fun _ => none
    pendingVertices := ∅
    vertexRequests := fun _ => none
    vertexTimeout := backup.vertexTimeout
    allowTimeout := false
    minVertexSize := backup.minVertexSize
    maxVertexSize := backup.maxVertexSize
    restartRound := 0
    currentlyRecovering := IdSet.empty
    output := .new backup.me
    maxRounds := backup.maxRounds
    lastVertexCreatedAt := now }
  recoveryProposalSenders := backup.recoveryProposalSenders
  longestRecoveryProposal := fun _ => none
  recoveryCommits := fun _ => none
  seenRecoveryRequests := backup.seenRecoveryRequests
  successfulRecoveries := backup.successfulRecoveries
  recoveryStart := some now
  pending := []
  log := []

/-- `key` is the trusted instance that `Enc::new` creates; `restore` unwraps the result. -/
def initRecovery (key : R.Key) (now : Nat) (backup : Backup R.toPlatform) :
    Outcome (RecoverableReplica R.toPlatform × RecoveryOutput R.toPlatform) := do
  let (enclave, result) ← (EnclaveAutomata.new backup.n key).recover backup.enclave
  match result with
  | .error _ => throw .unwrap
  | .ok () =>
    match R.attestationCertificate key with
    | .error _ => throw .unwrap
    | .ok attestation =>
      (machine env).reflect env.fuel
        ((restored backup enclave now).request attestation)

end RecoverableReplica

end Abcperf.Nxbft
