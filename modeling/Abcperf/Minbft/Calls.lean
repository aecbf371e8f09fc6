import Abcperf.Minbft.Handlers

/-! The calls into a MinBFT replica: a message of a peer, a request of a client, a timeout, and the
creation of the replica. Before a call returns, the replica processes its own broadcasts. -/

namespace Abcperf.Minbft

open Lib Lib.Outcome

variable {P : Platform} {config : Config}

namespace Replica

variable (env : Context) (replica : Replica P config) (source : Nat)

def processHelloMessage (attestation : P.Attestation) : Replica P config :=
  match replica.usig.addRemoteParty source attestation with
  | (_, false) => replica.error (.attestation config.id source)
  | (usig, true) =>
    let recvAttestations := replica.requestProcessor.recvAttestations.insert source attestation
    let ready := recvAttestations.len = config.n
    { replica with
      usig
      requestProcessor := { replica.requestProcessor with recvAttestations }
      output := { replica.output with
        readyForClientRequests := ready || replica.output.readyForClientRequests } }

/-- Whether a request for a view change is older than what the replica is in or is changing to. -/
def isOutdated (request : ReqViewChange) : ViewState P → Bool
  | .inView state => request.nextView ≤ state.view
  | .changeInProgress state => request.prevView < state.prevView ||
      (request.prevView = state.prevView && request.nextView < state.nextView)

def hasBroadcastViewChange : ViewState P → Bool
  | .inView _ => false
  | .changeInProgress state => state.hasBroadcastViewChange

def processReqViewChange (request : ReqViewChange) : Replica P config :=
  if isOutdated request replica.viewState then replica
  else
    let (collectorRvc, amount) := replica.collectorRvc.collect request source
    let replica := { replica with collectorRvc }
    if amount ≤ config.t then replica
    else if hasBroadcastViewChange replica.viewState then replica
    else
      let replica := replica.timeoutRequest .newStopAnyClientReq
      let replica := { replica with
        viewState := .changeInProgress ⟨request.prevView, request.nextView, true⟩ }
      (replica.issue (.viewChange ⟨config.me, request.nextView, replica.lastCheckpointCert,
        replica.sentUsigMsgs.map UsigMessageV.toNoLog⟩) .viewChange).1

def processRecoveryRequest (attestation : P.Attestation) (nonce : Nat) :
    Outcome (Replica P config) :=
  if source = config.id then return replica
  else do
    let requestId ← replica.requestProcessor.nextClientReqId env.overflowChecks source
    replica.handleInternalClientMessage env source
      (.internal ⟨requestId, source, attestation, nonce⟩)

def processPendingView (message : UsigMessage P) : Outcome (Replica P config) :=
  match message with
  | .viewChange viewChange => replica.processViewChange env viewChange
  | .newView newView =>
    match replica.viewState with
    | .inView state => { replica with
        viewState := .changeInProgress ⟨state.view, newView.data.nextView, false⟩ }.processNewView
          env newView
    | .changeInProgress _ => replica.processNewView env newView
  | .view _ | .checkpoint _ => throw .unreachable

def processRecoveredCounter (recovered : Nat × Nat × List (UsigMessage P)) :
    Outcome (Replica P config) := do
  let (id, counter, pendingNewViews) := recovered
  let replica ← pendingNewViews.foldlM (processPendingView env) replica
  replica.recheckUsigMsgQueue env id counter

def processForwardMessage (source nonce : Nat) (message : UsigMessage P)
    (pendingNewViews : List (UsigMessage P)) : Outcome (Replica P config) :=
  if source = config.id then return replica
  else if replica.recoveringNonce ≠ some nonce then return replica
  else
    match message with
    | .view view =>
      if view.origin = config.id then return replica
      else
        let (collectorRecoveryForwards, recovered) :=
          replica.collectorRecoveryForwards.collect env source view pendingNewViews config
        recovered.foldlM (processRecoveredCounter env) { replica with collectorRecoveryForwards }
    | .viewChange _ | .newView _ | .checkpoint _ => return replica

/-- `process_peer_message` on every message but a `RecoveryReply`. -/
def processMessage : PeerMessage P → Outcome (Replica P config)
  | .hello attestation => return replica.processHelloMessage source attestation
  | .reqViewChange request => return replica.processReqViewChange source request
  | .usig message => replica.processUsigMessage env message
  | .recoveryRequest attestation nonce =>
    replica.processRecoveryRequest env source attestation nonce
  | .recoveryReply _ _ _ => return replica
  | .forward nonce message pendingNewViews =>
    replica.processForwardMessage env source nonce message pendingNewViews

def validateCheckpointCertificate (config : Config) (certificate : CheckpointCertificate P)
    (nonce : Nat) : Bool :=
  let mine := certificate.myCheckpoint.data
  config.t ≤ (certificate.otherCheckpoints.map (·.data.origin)).dedup.length &&
    certificate.otherCheckpoints.all fun checkpoint =>
      checkpoint.data.viewLatestPrep = mine.viewLatestPrep &&
        checkpoint.data.stateHash = mine.stateHash &&
        checkpoint.data.counterLatestPrep = mine.counterLatestPrep &&
        checkpoint.data.totalAmountAcceptedBatches = mine.totalAmountAcceptedBatches &&
        checkpoint.data.lastExecutedClientReq = mine.lastExecutedClientReq &&
        checkpoint.data.usigAttestations = mine.usigAttestations &&
        (checkpoint.data.recoveringReplicas.get config.id).all (nonce = ·)

/-- `add_remote_party` on every attestation of a reply; one that is rejected ends the replica. -/
def addRemoteParties (usig : Usig P) (attestations : IdMap P.Attestation) : Outcome (Usig P) :=
  attestations.entries.foldlM (fun usig entry => do
    let (usig, added) := usig.addRemoteParty entry.1 entry.2
    assert (added = true)
    return usig) usig

def adopt (usig : Usig P) (storage : ReplicaStorage P) (certificate : CheckpointCertificate P) :
    Replica P config :=
  let content := certificate.myCheckpoint.data
  { replica with
    usig
    counterLastAcceptedPrep := some content.counterLatestPrep
    viewState := .inView (.new content.viewLatestPrep)
    requestProcessor := .newRecovered config.batcherConfiguration.init
      content.lastExecutedClientReq content.totalAmountAcceptedBatches content.usigAttestations
    replicaStorage := storage
    checkpointReplicaStorage := storage
    recoveringReplicas := content.recoveringReplicas
    lastCheckpointCert := some certificate
    recovering := false }

/-- A message that was stored during the recovery. A second `RecoveryReply` is ignored, as the
replica is not recovering any more. -/
def retryMessage (stored : Nat × PeerMessage P) : Outcome (Replica P config) := do
  match ← stored.2.validate env.overflowChecks config replica.usig stored.1 with
  | .ok () => replica.processMessage env stored.1 stored.2
  | .error error => return replica.error (.ofInner error)

def handleRecoveryReply (nonce : Nat) (storage : ReplicaStorage P)
    (certificate : CheckpointCertificate P) : Outcome (Replica P config) :=
  if !replica.recovering then return replica
  else do
    let expected ← unwrap replica.recoveringNonce
    if expected ≠ nonce then return replica
    else
      let usig ← addRemoteParties replica.usig certificate.myCheckpoint.data.usigAttestations
      replica.recoveryUnverifiedUsigMessages.foldlM (retryMessage env)
        (replica.adopt usig storage certificate)

def processRecoveryReply (nonce : Nat) (storage : ReplicaStorage P)
    (certificate : CheckpointCertificate P) : Outcome (Replica P config) :=
  if validateCheckpointCertificate config certificate nonce ∧
      certificate.myCheckpoint.data.stateHash = storage.hash then
    replica.handleRecoveryReply env nonce storage certificate
  else return replica

def processPeerMessage (message : PeerMessage P) : Outcome (Replica P config) :=
  match message with
  | .recoveryReply nonce storage certificate =>
    replica.processRecoveryReply env nonce storage certificate
  | message => replica.processMessage env source message

/-- The replica processes its own broadcasts until there are no new ones. The fuel bounds how often
new ones may come up. -/
def reflectFrom (env : Context) : Nat → Nat → Replica P config → Outcome (Replica P config)
  | 0, _, _ => throw .fuel
  | fuel + 1, lastLen, replica =>
    if lastLen = replica.output.broadcasts.length then return replica
    else do
      let curLen := replica.output.broadcasts.length
      let next ← (replica.output.broadcasts.drop lastLen).foldlM
        (fun replica message => replica.processPeerMessage env config.me message) replica
      reflectFrom env fuel curLen next

/-- The state before the first broadcast. -/
def init (usig : Usig P) (recovering : Bool) : Replica P config :=
  { usig
    requestProcessor := .new config.batcherConfiguration.init
    sentUsigMsgs := []
    replicasState := List.replicate config.n .new
    viewState := .inView (.new 0)
    counterLastAcceptedPrep := none
    collectorRvc := .new
    collectorVc := .new
    collectorRecoveryForwards := .new config
    lastCheckpointCert := none
    collectorCheckpoints := .new
    replicaStorage := .new
    checkpointReplicaStorage := .new
    recovering
    recoveringNonce := none
    recoveryUnverifiedUsigMessages := []
    recoveringReplicas := .empty
    awaitingRecoveryReply := .empty
    output := .new false }

end Replica

/-- `MinBft` between two calls. -/
structure MinBft (P : Platform) (config : Config) where
  replica : Replica P config
  currentTimeoutDuration : Nat

namespace MinBft

variable (env : Env) (minbft : MinBft P config)

def context : Context := ⟨env, minbft.currentTimeoutDuration⟩

def reflect : Outcome (MinBft P config × Output P) := do
  let replica ← minbft.replica.reflectFrom (minbft.context env) env.fuel 0
  return ({ minbft with replica }, replica.output)

/-- `MinBft::new`. A replica that recovers asks for the state with a random nonce; there is no
replica if the USIG cannot attest. -/
def new (usig : Usig P) (config : Config) (recovering : Option Nat) :
    Outcome (Except UsigError (MinBft P config × Output P)) := do
  config.validate
  let replica : Replica P config := (Replica.init usig recovering.isSome).call
  match P.attest usig.key, recovering with
  | .error error, _ => return .error error
  | .ok attestation, none =>
    .ok <$> reflect env ⟨replica.broadcast (.hello attestation), config.initialTimeoutDuration⟩
  | .ok attestation, some nonce => do
      let replica := { replica with recoveringNonce := some nonce }
      assert (!replica.readyForClientRequests)
      .ok <$> reflect env
        ⟨replica.broadcast (.recoveryRequest attestation nonce), config.initialTimeoutDuration⟩

def handlePeerMessage (source : Nat) (message : PeerMessage P) :
    Outcome (MinBft P config × Output P) := do
  assert (source ≠ config.me)
  assert (source < config.n)
  let replica := minbft.replica.call
  match ← message.validate env.overflowChecks config replica.usig source with
  | .ok () => do
      let replica ← replica.processPeerMessage (minbft.context env) source message
      reflect env { minbft with replica }
  | .error error =>
    if replica.recovering then
      reflect env { minbft with replica := { replica with recoveryUnverifiedUsigMessages :=
        replica.recoveryUnverifiedUsigMessages ++ [(source, message)] } }
    else reflect env { minbft with replica := replica.error (.ofInner error) }

def handleClientMessage (client requestId : Nat) (payload : P.Payload) :
    Outcome (MinBft P config × Output P) := do
  let replica ← minbft.replica.call.handleInternalClientMessage (minbft.context env) client
    (.client requestId payload)
  reflect env { minbft with replica }

/-- `Duration *= u32` panics where the product is too large, with or without overflow checks. -/
def backOff : Outcome (MinBft P config) :=
  let duration := minbft.currentTimeoutDuration * config.backoffMultiplier
  if duration ≤ durationMax then return { minbft with currentTimeoutDuration := duration }
  else throw .overflow

def processTimeout (timeoutType : TimeoutType) : Outcome (MinBft P config) :=
  let replica := minbft.replica
  match timeoutType, replica.viewState with
  | .batch, .inView _ => do
      let (requestBatcher, controller) ← replica.requestProcessor.requestBatcher.timeout env
      let replica : Replica P config := { replica with
        requestProcessor := { replica.requestProcessor with requestBatcher } }
      let replica ← replica.processBatchingOutput controller
      return { minbft with replica }
  | .client, .inView state =>
    if state.hasRequestedViewChange then return minbft
    else do
      let minbft ← minbft.backOff
      let nextView ← addWord env.overflowChecks state.view 1
      let replica := { replica with
        viewState := .inView { state with hasRequestedViewChange := true } }
      return { minbft with replica := replica.broadcast (.reqViewChange ⟨state.view, nextView⟩) }
  | .viewChange, .changeInProgress state => do
      let minbft ← minbft.backOff
      let nextView ← addWord env.overflowChecks state.nextView 1
      let replica := { replica with
        viewState := .changeInProgress { state with hasBroadcastViewChange := false } }
      let message := .reqViewChange ⟨state.prevView, nextView⟩
      return { minbft with replica := replica.broadcast message }
  | .batch, .changeInProgress _ | .client, .changeInProgress _ | .viewChange, .inView _ =>
    return minbft

def handleTimeout (timeoutType : TimeoutType) : Outcome (MinBft P config × Output P) := do
  let minbft ← processTimeout env { minbft with replica := minbft.replica.call } timeoutType
  minbft.reflect env

end MinBft

end Abcperf.Minbft
