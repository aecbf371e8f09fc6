import Abcperf.Minbft.Replica

/-! How a MinBFT replica processes the messages that are signed by a USIG, once they are in order.
-/

namespace Abcperf.Minbft

open Lib Lib.Outcome

variable {P : Platform} {config : Config}

namespace Replica

variable (env : Context) (replica : Replica P config)

def isAccepted (prepare : Prepare P) : Bool :=
  isAtMost prepare.counter replica.counterLastAcceptedPrep

/-- The message counts for its `Prepare`; what has enough support now is accepted. -/
def collectCommit (stops : Bool) (state : InView P) (message : ViewPeerMessage P) :
    Outcome (Replica P config) := do
  let (collectorCommits, acceptable) ← state.collectorCommits.collect message config
  acceptAll env stops acceptable
    { replica with viewState := .inView { state with collectorCommits } }

/-- A replica does not commit to its own `Prepare`, which already counts. -/
def processPrepare (prepare : Prepare P) : Outcome (Replica P config) :=
  match replica.viewState with
  | .changeInProgress _ => throw .unreachable
  | .inView state =>
    if replica.isAccepted prepare then return replica
    else if prepare.data.origin = config.me then
      replica.collectCommit env true state (.prepare prepare)
    else
      let (replica, signed) := replica.issue (.commit ⟨config.me, prepare⟩) .prepare
      if signed then replica.collectCommit env true state (.prepare prepare) else return replica

def processCommit (commit : Commit P) : Outcome (Replica P config) :=
  match replica.viewState with
  | .changeInProgress _ => throw .unreachable
  | .inView state =>
    if replica.isAccepted commit.data.prepare then return replica
    else replica.collectCommit env false state (.commit commit)

/-- Only messages of the current view are processed. -/
def processView (message : ViewPeerMessage P) : Outcome (Replica P config) :=
  match replica.viewState with
  | .changeInProgress _ => return replica
  | .inView state =>
    if message.view ≠ state.view then return replica
    else match message with
      | .prepare prepare => replica.processPrepare env prepare
      | .commit commit => replica.processCommit env commit

/-- The message with which the replica took part in the checkpointed `Prepare`. -/
def isAbout (view counter : Nat) : UsigMessage P → Bool
  | .view message => message.view = view && message.proposal.counter = counter
  | .viewChange _ | .newView _ | .checkpoint _ => false

/-- The log loses the messages up to the one about the checkpointed `Prepare`. -/
def pruneLog (content : CheckpointContent P) : Replica P config :=
  match replica.sentUsigMsgs.find? (isAbout content.viewLatestPrep content.counterLatestPrep) with
  | none => replica
  | some latest =>
    { replica with sentUsigMsgs := replica.sentUsigMsgs.filter (latest.counter < ·.counter) }

def replyTo (certificate : CheckpointCertificate P) (replica : Replica P config) (id : Nat) :
    Outcome (Replica P config) :=
  if id = config.id then return replica
  else do
    let nonce ← unwrap (replica.recoveringReplicas.get id)
    if certificate.myCheckpoint.data.recoveringReplicas.get id = some nonce then
      return replica.send id (.recoveryReply nonce replica.checkpointReplicaStorage certificate)
    else return { replica with awaitingRecoveryReply := replica.awaitingRecoveryReply.insert id }

def processCheckpoint (checkpoint : Checkpoint P) : Outcome (Replica P config) :=
  match replica.collectorCheckpoints.process env config checkpoint with
  | (collectorCheckpoints, none) => return { replica with collectorCheckpoints }
  | (collectorCheckpoints, some certificate) => do
      let replica : Replica P config := { replica with collectorCheckpoints }
      let awaiting := env.order .awaitingRecoveryReply replica.awaitingRecoveryReply.iter
      let pruned : Replica P config := { replica.pruneLog certificate.myCheckpoint.data with
        awaitingRecoveryReply := .empty }
      let replica ← awaiting.foldlM (replyTo certificate) pruned
      return { replica with lastCheckpointCert := some certificate }

/-- Without enough `ViewChange`s the replica stays in its view. Those that make it leave the view
are dropped. -/
def leaveView (state : InView P) (viewChange : ViewChange P) : Replica P config :=
  if viewChange.data.nextView ≤ state.view then replica
  else
    let (collectorVc, amount) := replica.collectorVc.collectViewChange viewChange
    if amount ≤ config.t then { replica with collectorVc }
    else
      let (collectorVc, _) := collectorVc.retrieveCollectedViewChanges env viewChange config
      ({ replica with
        collectorVc
        viewState := .changeInProgress ⟨state.view, viewChange.data.nextView,
          false⟩ }).timeoutRequest (.newStartViewChange env.currentTimeoutDuration)

/-- The primary of the next view announces it with the `ViewChange`s that it has collected for the
view of the message. -/
def announceView (state : ChangeInProgress) (viewChange : ViewChange P) :
    Outcome (Replica P config) :=
  let (collectorVc, amount) := replica.collectorVc.collectViewChange viewChange
  let replica := { replica with collectorVc }
  if viewChange.data.nextView < state.nextView then return replica
  else if amount ≤ config.t then return replica
  else do
    let (collectorVc, viewChanges) :=
      replica.collectorVc.retrieveCollectedViewChanges env viewChange config
    let replica := { replica with collectorVc }
    if ← config.mePrimary state.nextView then
      assert (viewChanges.isSome)
      let viewChanges ← unwrap viewChanges
      return (replica.issue (.newView ⟨config.me, state.nextView, viewChanges⟩) .newView).1
    else return replica.timeoutRequest (.newStartViewChange env.currentTimeoutDuration)

def processViewChange (viewChange : ViewChange P) : Outcome (Replica P config) :=
  match replica.viewState with
  | .inView state => return replica.leaveView env state viewChange
  | .changeInProgress state => replica.announceView env state viewChange

end Replica

def logEntries (certificate : List (ViewChange P)) : List (UsigMessageV P P.Hash (LogMessage P)) :=
  certificate.flatMap fun viewChange => viewChange.data.variant.map LogMessage.message

def logPrepare : UsigMessageV P P.Hash (LogMessage P) → Option (Prepare P)
  | .view message => some message.proposal
  | .viewChange _ | .newView _ | .checkpoint _ => none

def lastCheckpoint (certificate : List (ViewChange P)) : Option (Checkpoint P) :=
  (logEntries certificate).foldl (fun last entry =>
    match entry, last with
    | .checkpoint checkpoint, some latest =>
      if latest.data.counterLatestPrep < checkpoint.data.counterLatestPrep then some checkpoint
      else last
    | .checkpoint checkpoint, none => some checkpoint
    | _, _ => last) none

/-- `unique_preps`: the `Prepare`s of the logs after the last accepted one in the order of their
counters. Of several with the same counter, any is taken. -/
def uniquePreps (env : Env) (lastAccepted : Option Nat) (certificate : List (ViewChange P)) :
    List (Prepare P) :=
  let preps := ((logEntries certificate).filterMap logPrepare).filter fun prepare =>
    !isAtMost prepare.counter lastAccepted
  let counters := (preps.map (·.counter)).dedup.insertionSort (· ≤ ·)
  counters.filterMap fun counter =>
    let same := preps.filter (·.counter = counter)
    same[env.pick counter % same.length]?

/-- The order by view and counter of the checkpointed `Prepare`. -/
def CheckpointCertificate.isUpTo (certificate other : CheckpointCertificate P) : Bool :=
  let left := certificate.myCheckpoint.data
  let right := other.myCheckpoint.data
  left.viewLatestPrep < right.viewLatestPrep ||
    (left.viewLatestPrep = right.viewLatestPrep && left.counterLatestPrep ≤ right.counterLatestPrep)

/-- The last of the greatest checkpoint certificates. -/
def latestCert (certificate : List (ViewChange P)) : Option (CheckpointCertificate P) :=
  (certificate.filterMap (·.data.checkpointCert)).foldl (fun latest next =>
    match latest with
    | none => some next
    | some latest => if latest.isUpTo next then some next else some latest) none

/-- What a replica does with a `NewView` after it has compared the checkpoints. -/
inductive Comparison
  | install
  | ignore
  | stateTransfer

def compareCheckpoints (certificate : List (ViewChange P))
    (own : Option (CheckpointCertificate P)) :
    Comparison :=
  match latestCert certificate, own with
  | none, none => .install
  | none, some _ => .ignore
  | some _, none => .stateTransfer
  | some latest, some own =>
    let latest := latest.myCheckpoint
    let own := own.myCheckpoint
    if latest.sameCheckpoint own then .install
    else if latest.data.viewLatestPrep ≤ own.data.viewLatestPrep ||
      (latest.data.viewLatestPrep = own.data.viewLatestPrep &&
        latest.data.counterLatestPrep ≤ own.data.counterLatestPrep) then .ignore
    else .stateTransfer

namespace Replica

variable (env : Context) (replica : Replica P config)

/-- One iteration of the loop over the `Prepare`s of the logs. Replicas that recover with one of its
requests are told of it, with the views that this replica itself has pending. -/
def installPrepare (prepare : Prepare P) : Outcome (Replica P config) := do
  let (replica, _, recoveries, controller) ← replica.acceptPrepare env prepare false
  let replica ← replica.processBatchingOutput controller
  let replica ←
    if recoveries.isEmpty ∨ prepare.data.origin = config.me then pure replica
    else
      let (replica, _) := replica.issue (.commit ⟨config.me, prepare⟩) .prepare
      replica.forwardMessages env config.me (.view (.prepare prepare)) prepare
  let replica ← recoveries.foldlM handleRecoveryRequest replica
  let enforcer ← replica.enforcer prepare.data.origin
  return replica.setEnforcer prepare.data.origin
    (← enforcer.updateInNewView env prepare.counter)

/-- The primary of the new view proposes the requests that were not accepted in an earlier view.
Where signing fails, the handler returns early. -/
def proposeRemaining (view : Nat) : Outcome (Replica P config × Bool) := do
  if ← config.mePrimary view then
    let requests := replica.requestProcessor.currentlyProcessingAll env
    if requests.isEmpty then return (replica, true)
    else return replica.issue (.prepare ⟨config.me, view, requests⟩) .prepare
  else return (replica, true)

def installView (newView : NewView P) : Outcome (Replica P config) := do
  let view := newView.data.nextView
  let preps := uniquePreps env replica.counterLastAcceptedPrep newView.data.certificate
  let replica ← preps.foldlM (installPrepare env) (replica.timeoutRequest .newStopViewChange)
  let replica := { replica with
    collectorRvc := replica.collectorRvc.cleanUp view view
    viewState := .inView (.new view)
    counterLastAcceptedPrep := some newView.counter }
  let (replica, proposed) ← replica.proposeRemaining env view
  if proposed then
    return { replica with
      replicasState := replica.replicasState.map (·.updateAfterFinishedNewView view) }
  else return replica

/-- The certificate is validated, but the result of that is not used. -/
def processNewView (newView : NewView P) : Outcome (Replica P config) := do
  let _ ← newView.validateCertificate env.overflowChecks config replica.usig
  match replica.viewState with
  | .inView _ => return replica
  | .changeInProgress state =>
    if state.nextView < newView.data.nextView then return replica
    else
      match compareCheckpoints newView.data.certificate replica.lastCheckpointCert with
      | .ignore => return replica
      | .stateTransfer =>
        assert ((lastCheckpoint newView.data.certificate).isSome)
        return replica.error (.stateTransferRequired config.id)
      | .install => replica.installView env newView

def processUsigMessageOrdered (message : UsigMessage P) : Outcome (Replica P config) :=
  match message with
  | .view view => do
      let replica ← replica.processView env view
      replica.forwardMessages env view.origin message view.proposal
  | .viewChange viewChange => replica.processViewChange env viewChange
  | .newView newView => replica.processNewView env newView
  | .checkpoint checkpoint => replica.processCheckpoint env checkpoint

/-- A message is handed to the order enforcer of an origin; what follows directly is processed. -/
def pushToHandle (origin : Nat) (message : UsigMessage P) : Outcome (Replica P config) := do
  let enforcer ← replica.enforcer origin
  let (enforcer, messages) ← enforcer.pushToHandle env message
  messages.foldlM (processUsigMessageOrdered env) (replica.setEnforcer origin enforcer)

/-- An entry of the log of a `ViewChange`. A `ViewChange` in a log has no log and is dropped, though
its origin has to be the id of a replica. -/
def processLogMessage (entry : LogMessage P) : Outcome (Replica P config) :=
  match entry.message with
  | .view message => replica.pushToHandle env message.origin (.view message)
  | .newView message => replica.pushToHandle env message.data.origin (.newView message)
  | .checkpoint message => replica.pushToHandle env message.data.origin (.checkpoint message)
  | .viewChange message => do
      let _ ← replica.enforcer message.data.origin
      return replica

def processUsigViewChange (viewChange : ViewChange P) : Outcome (Replica P config) := do
  let replica ← viewChange.data.variant.foldlM (processLogMessage env) replica
  replica.pushToHandle env viewChange.data.origin (.viewChange viewChange)

/-- The messages that a message contains come first. -/
def processUsigMessage : UsigMessage P → Outcome (Replica P config)
  | .view (.commit commit) => do
      let prepare := commit.data.prepare
      let replica ← replica.pushToHandle env prepare.data.origin (.view (.prepare prepare))
      replica.pushToHandle env commit.data.origin (.view (.commit commit))
  | .viewChange viewChange => replica.processUsigViewChange env viewChange
  | .newView newView => do
      let replica ← newView.data.certificate.foldlM (processUsigViewChange env) replica
      replica.pushToHandle env newView.data.origin (.newView newView)
  | .view (.prepare prepare) =>
    replica.pushToHandle env prepare.data.origin (.view (.prepare prepare))
  | .checkpoint checkpoint =>
    replica.pushToHandle env checkpoint.data.origin (.checkpoint checkpoint)

def recheckUsigMsgQueue (id counter : Nat) : Outcome (Replica P config) := do
  let enforcer ← replica.enforcer id
  let (enforcer, messages) ← enforcer.updateAfterRecoveredCounter env counter
  messages.foldlM (processUsigMessageOrdered env) (replica.setEnforcer id enforcer)

end Replica

end Abcperf.Minbft
