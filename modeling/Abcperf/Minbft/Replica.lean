import Abcperf.Minbft.Requests

/-! The state of a MinBFT replica and what the handlers of all messages have in common: signing and
broadcasting, proposing a batch, accepting a `Prepare` and registering a replica that recovers. -/

namespace Abcperf.Minbft

open Lib Lib.Outcome

variable {P : Platform} {config : Config}

/-- The handlers of messages and of requests read the duration of the timeouts and do not change it.
-/
structure Context extends Env where
  currentTimeoutDuration : Nat

instance : Coe Context Env := ⟨Context.toEnv⟩

structure InView (C : Carriers) where
  view : Nat
  hasRequestedViewChange : Bool
  collectorCommits : CollectorCommits C

structure ChangeInProgress where
  prevView : Nat
  nextView : Nat
  hasBroadcastViewChange : Bool
  deriving DecidableEq

inductive ViewState (C : Carriers)
  | inView (state : InView C)
  | changeInProgress (state : ChangeInProgress)

def InView.new {C : Carriers} (view : Nat) : InView C := ⟨view, false, .new⟩

/-- `MinBft` without the duration of its timeouts and with the output of the call that is being
handled. The configuration never changes. -/
structure Replica (P : Platform) (config : Config) where
  usig : Usig P
  requestProcessor : RequestProcessor P
  sentUsigMsgs : List (UsigMessage P)
  replicasState : List (UsigMsgOrderEnforcer P)
  viewState : ViewState P
  counterLastAcceptedPrep : Option Nat
  collectorRvc : CollectorReqViewChanges
  collectorVc : CollectorViewChanges P
  collectorRecoveryForwards : CollectorForwards P
  lastCheckpointCert : Option (CheckpointCertificate P)
  collectorCheckpoints : CollectorCheckpoints P
  replicaStorage : ReplicaStorage P
  checkpointReplicaStorage : ReplicaStorage P
  recovering : Bool
  recoveringNonce : Option Nat
  recoveryUnverifiedUsigMessages : List (Nat × PeerMessage P)
  recoveringReplicas : IdMap Nat
  awaitingRecoveryReply : IdSet
  output : Output P

namespace Replica

variable (replica : Replica P config)

def readyForClientRequests : Bool :=
  replica.requestProcessor.recvAttestations.len = config.n && !replica.recovering

def call : Replica P config :=
  { replica with output := .new replica.readyForClientRequests }

def timeoutRequest (request : TimeoutRequest) : Replica P config :=
  { replica with output := replica.output.timeoutRequest request }

def error (replica : Replica P config) (error : Error) : Replica P config :=
  { replica with output := replica.output.error error }

def send (receiver : Nat) (message : PeerMessage P) : Replica P config :=
  { replica with output := replica.output.send receiver message }

def broadcast (message : PeerMessage P) : Replica P config :=
  { replica with
    sentUsigMsgs := match message with
      | .usig message => replica.sentUsigMsgs ++ [message]
      | _ => replica.sentUsigMsgs
    output := { replica.output with broadcasts := replica.output.broadcasts ++ [message] } }

/-- Sign a content and broadcast it; an error of the USIG is reported. Whether there was none. -/
def issue (content : Content P) (msgType : MsgType) : Replica P config × Bool :=
  let (usig, result) := replica.usig.sign content
  let replica := { replica with usig }
  match result with
  | .ok signature => (replica.broadcast (.usig (content.message signature)), true)
  | .error error => (replica.error (.usig config.id msgType error), false)

def enforcer (id : Nat) : Outcome (UsigMsgOrderEnforcer P) :=
  unwrap (replica.replicasState[id]?)

def setEnforcer (id : Nat) (enforcer : UsigMsgOrderEnforcer P) : Replica P config :=
  { replica with replicasState := replica.replicasState.set id enforcer }

def processBatchingOutput (controller : ControllerOutput P) : Outcome (Replica P config) := do
  let replica := match controller.2 with
    | none => replica
    | some timeout => (replica.timeoutRequest .newStopBatchReq).timeoutRequest (.start timeout)
  match controller.1 with
  | none => return replica
  | some batch =>
    match replica.viewState with
    | .changeInProgress _ => throw .unreachable
    | .inView state =>
      if ← config.mePrimary state.view then
        return (replica.issue (.prepare ⟨config.me, state.view, batch⟩) .prepare).1
      else return replica

def handleInternalClientMessage (env : Context) (replica : Replica P config) (client : Nat)
    (payload : WrappedRequestPayload P) : Outcome (Replica P config) := do
  let primary ← match replica.viewState with
    | .inView state => config.mePrimary state.view
    | .changeInProgress _ => pure false
  let (requestProcessor, startClientTimeout, controller) ←
    replica.requestProcessor.processClientReq env ⟨client, payload⟩ primary
      env.currentTimeoutDuration
  let replica := { replica with requestProcessor }
  let replica := startClientTimeout.elim replica replica.timeoutRequest
  match replica.viewState with
  | .inView _ => replica.processBatchingOutput controller
  | .changeInProgress _ => return replica

/-- `handle_recovery_request`. An attestation that the USIG rejects is registered nevertheless. -/
def handleRecoveryRequest (entry : Nat × RecoveryRequestPayload P) : Outcome (Replica P config) :=
  let (client, request) := entry
  let processor := replica.requestProcessor
  if client ≠ request.replicaId then return replica
  else if request.replicaId = config.id then return replica
  else if !processor.recvAttestations.containsKey request.replicaId then return replica
  else do
    let (usig, _) := replica.usig.addRemoteParty request.replicaId request.attestation
    let recvAttestations := processor.recvAttestations.insert request.replicaId request.attestation
    let _ ← replica.enforcer request.replicaId
    return { replica.setEnforcer request.replicaId .new with
      usig
      requestProcessor := { processor with recvAttestations }
      recoveringReplicas := replica.recoveringReplicas.insert request.replicaId request.nonce
      awaitingRecoveryReply := replica.awaitingRecoveryReply.insert request.replicaId }

def acceptPrepare (env : Context) (replica : Replica P config) (prepare : Prepare P)
    (commonCase : Bool) :
    Outcome (Replica P config × Option (CheckpointContent P) × RecoveryRequests P ×
      ControllerOutput P) := do
  let (acceptance, checkpoint, recoveries, controller) ←
    Acceptance.acceptPrepare env config
      ⟨replica.requestProcessor, replica.recoveringReplicas, replica.replicaStorage, replica.output⟩
      prepare env.currentTimeoutDuration commonCase
  return ({ replica with
    requestProcessor := acceptance.processor
    recoveringReplicas := acceptance.recoveringReplicas
    replicaStorage := acceptance.storage
    output := acceptance.output }, checkpoint, recoveries, controller)

/-- `process_new_checkpoint` and the broadcast of the checkpoint. Whether it was signed. -/
def issueCheckpoint (content : CheckpointContent P) : Replica P config × Bool :=
  { replica with checkpointReplicaStorage := replica.replicaStorage }.issue
    (.checkpoint content) .prepare

def acceptCommitted (env : Context) (replica : Replica P config) (prepare : Prepare P) :
    Outcome (Replica P config × Bool) := do
  let (replica, checkpoint, recoveries, controller) ← replica.acceptPrepare env prepare true
  let replica ← replica.processBatchingOutput controller
  let replica ← recoveries.foldlM handleRecoveryRequest replica
  return checkpoint.elim (replica, true) replica.issueCheckpoint

/-- The loop over the acceptable `Prepare`s. `process_prepare` ends it where a checkpoint cannot be
signed, `process_commit` goes on. -/
def acceptAll (env : Context) (stops : Bool) :
    List (Prepare P) → Replica P config → Outcome (Replica P config)
  | [], replica => return replica
  | prepare :: prepares, replica => do
      let (replica, signed) ← replica.acceptCommitted env prepare
      if stops && !signed then return replica
      else
        acceptAll env stops prepares
          { replica with counterLastAcceptedPrep := some prepare.counter }

/-- A message about a `Prepare` is sent to the replicas that recover with its requests. -/
def forwardMessage (env : Context) (origin : Nat) (message : UsigMessage P) (prepare : Prepare P)
    (replica : Replica P config) (request : ClientRequest P) : Outcome (Replica P config) :=
  match request.payload with
  | .client _ _ => return replica
  | .internal recovery =>
    if recovery.replicaId = config.id then return replica
    else do
      let enforcer ← replica.enforcer origin
      return replica.send recovery.replicaId (.forward recovery.nonce message
        (enforcer.getPendingNewViews env origin prepare.data.view))

def forwardMessages (env : Context) (replica : Replica P config) (origin : Nat)
    (message : UsigMessage P) (prepare : Prepare P) : Outcome (Replica P config) :=
  prepare.data.requestBatch.foldlM (forwardMessage env origin message prepare) replica

end Replica

end Abcperf.Minbft
