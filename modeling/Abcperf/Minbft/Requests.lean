import Abcperf.Minbft.Collectors
import Abcperf.Minbft.Validation

/-! How MinBFT keeps track of the requests of its clients, and how it executes the requests of a
`Prepare` that was accepted. -/

namespace Abcperf.Minbft

open Lib Lib.Outcome

variable {P : Platform}

/-- `StopAny` names the type of the timeouts to stop. -/
inductive TimeoutRequest
  | start (timeout : Timeout)
  | stop (timeout : Timeout)
  | stopAny (timeoutType : TimeoutType)
  deriving DecidableEq

namespace TimeoutRequest

def newStartClientReq (clientId duration : Nat) :
    TimeoutRequest := .start (.client clientId duration)

def newStartViewChange (duration : Nat) : TimeoutRequest := .start (.viewChange duration)

def newStopBatchReq : TimeoutRequest := .stop (.batch 0)

def newStopClientReq (clientId : Nat) : TimeoutRequest := .stop (.client clientId 0)

def newStopViewChange : TimeoutRequest := .stop (.viewChange 0)

def newStopAnyClientReq : TimeoutRequest := .stopAny .client

end TimeoutRequest

/-- `NotReflectedOutput`, without the times of the rounds. -/
structure Output (P : Platform) where
  broadcasts : List (PeerMessage P)
  directMessages : List (Nat × PeerMessage P)
  responses : List (Nat × WrappedRequestPayload P)
  timeoutRequests : List TimeoutRequest
  errors : List Error
  readyForClientRequests : Bool

namespace Output

def new (ready : Bool) : Output P := ⟨[], [], [], [], [], ready⟩

def send (output : Output P) (receiver : Nat) (message : PeerMessage P) : Output P :=
  { output with directMessages := output.directMessages ++ [(receiver, message)] }

def response (output : Output P) (client : Nat) (payload : WrappedRequestPayload P) : Output P :=
  { output with responses := output.responses ++ [(client, payload)] }

def timeoutRequest (output : Output P) (request : TimeoutRequest) : Output P :=
  { output with timeoutRequests := output.timeoutRequests ++ [request] }

def error (output : Output P) (error : Error) : Output P :=
  { output with errors := output.errors ++ [error] }

end Output

/-- The order of `Option<RequestId>`: no request comes before every request. -/
def isAtMost (requestId : Nat) (last : Option Nat) : Bool := last.any (requestId ≤ ·)

structure ClientState (C : Carriers) where
  lastAcceptedReq : Option Nat
  currentlyProcessingReq : Option (Nat × ClientRequest C)

namespace ClientState

variable {C : Carriers}

def new : ClientState C := ⟨none, none⟩

def updateUponRequestReceival (state : ClientState C) (requestId : Nat)
    (request : ClientRequest C) : Option (ClientState C) :=
  if isAtMost requestId state.lastAcceptedReq then none
  else if isAtMost requestId (state.currentlyProcessingReq.map Prod.fst) then none
  else some { state with currentlyProcessingReq := some (requestId, request) }

def updateUponRequestCompletion (state : ClientState C) (requestId : Nat) :
    Option (ClientState C) :=
  if isAtMost requestId state.lastAcceptedReq then none
  else some
    { lastAcceptedReq := some requestId
      currentlyProcessingReq := state.currentlyProcessingReq.filter (requestId < ·.1) }

end ClientState

/-- The entry that `entry(..).or_default()` finds or makes. -/
def clientState {C : Carriers} (clients : IdMap (ClientState C)) (client : Nat) : ClientState C :=
  (clients.get client).getD .new

/-- `currently_processing_reqs` without the times at which the requests arrived. -/
structure RequestProcessor (P : Platform) where
  clientsState : IdMap (ClientState P)
  currentlyProcessingReqs : List (Nat × ClientRequest P)
  requestBatcher : RequestBatcher P
  recvAttestations : IdMap P.Attestation
  round : Nat

namespace RequestProcessor

def new (requestBatcher : RequestBatcher P) : RequestProcessor P :=
  ⟨.empty, [], requestBatcher, .empty, 0⟩

def newRecovered (requestBatcher : RequestBatcher P) (clientsLastReq : IdMap Nat) (round : Nat)
    (recvAttestations : IdMap P.Attestation) : RequestProcessor P :=
  { new requestBatcher with
    clientsState := clientsLastReq.entries.foldl
      (fun clients entry => clients.insert entry.1 ⟨some entry.2, none⟩) .empty
    recvAttestations, round }

def nextClientReqId (overflowChecks : Bool) (processor : RequestProcessor P) (clientId : Nat) :
    Outcome Nat := do
  let accepted ← match (clientState processor.clientsState clientId).lastAcceptedReq with
    | none => pure 0
    | some id => addWord overflowChecks id 1
  processor.currentlyProcessingReqs.foldlM (fun highest entry =>
    if entry.2.client = clientId ∧ highest ≤ entry.2.id then addWord overflowChecks entry.2.id 1
    else return highest) accepted

/-- `primary` says whether the replica is the primary of the view that it is in. -/
def processClientReq (env : Env) (processor : RequestProcessor P) (request : ClientRequest P)
    (primary : Bool) (clientTimeoutDuration : Nat) :
    Outcome (RequestProcessor P × Option TimeoutRequest × ControllerOutput P) :=
  let clients := processor.clientsState
  match (clientState clients request.client).updateUponRequestReceival request.id request with
  | none =>
    -- The entry of the client is there from now on even if the request is ignored.
    let entry := clientState clients request.client
    return ({ processor with clientsState := clients.insert request.client entry },
      none, none, none)
  | some entry => do
      let processor := { processor with
        clientsState := clients.insert request.client entry
        currentlyProcessingReqs := processor.currentlyProcessingReqs ++ [(request.id, request)] }
      let startClientTimeout := some (.newStartClientReq request.client clientTimeoutDuration)
      if primary then
        let (requestBatcher, output) ← processor.requestBatcher.batch env request
        return ({ processor with requestBatcher }, startClientTimeout, output)
      else return (processor, startClientTimeout, none, none)

/-- The requests that are being processed, one for each client at most. -/
def currentlyProcessingAll (env : Env) (processor : RequestProcessor P) : List (ClientRequest P) :=
  (processor.clientsState.inOrder (env.order .clientsState processor.clientsState.keys)).filterMap
    fun entry => entry.2.currentlyProcessingReq.map Prod.snd

def lastExecutedClientReq (processor : RequestProcessor P) : IdMap Nat :=
  processor.clientsState.entries.foldl (fun map entry =>
    match entry.2.lastAcceptedReq with
    | none => map
    | some id => map.insert entry.1 id) .empty

def dropAccepted (clients : IdMap (ClientState P)) (requests : List (Nat × ClientRequest P)) :
    List (Nat × ClientRequest P) :=
  requests.dropWhile fun entry =>
    match clients.get entry.2.client with
    | none => true
    | some state => isAtMost entry.1 state.lastAcceptedReq

def generateCheckpoint (config : Config) (processor : RequestProcessor P) (prepare : Prepare P)
    (storageHash : P.Hash) (recoveringReplicas : IdMap Nat) : Option (CheckpointContent P) :=
  if processor.round % config.checkpointPeriod ≠ 0 then none
  else some
    { origin := config.id
      counterLatestPrep := prepare.counter
      viewLatestPrep := prepare.data.view
      stateHash := storageHash
      totalAmountAcceptedBatches := processor.round
      lastExecutedClientReq := processor.lastExecutedClientReq
      usigAttestations := processor.recvAttestations
      recoveringReplicas }

end RequestProcessor

structure Acceptance (P : Platform) where
  processor : RequestProcessor P
  recoveringReplicas : IdMap Nat
  storage : ReplicaStorage P
  output : Output P

abbrev RecoveryRequests (C : Carriers) := List (Nat × RecoveryRequestPayload C)

namespace Acceptance

def advance (acceptance : Acceptance P) (client duration : Nat) :
    Acceptance P × Option TimeoutRequest :=
  let processor := acceptance.processor
  let waiting := RequestProcessor.dropAccepted processor.clientsState
      processor.currentlyProcessingReqs
  ({ acceptance with
      processor := { processor with currentlyProcessingReqs := waiting }
      output := acceptance.output.timeoutRequest (.newStopClientReq client) },
    waiting.head?.map fun oldest => .newStartClientReq oldest.2.client duration)

def acceptRequest (acceptance : Acceptance P) (request : ClientRequest P) (duration : Nat) :
    Acceptance P × Bool × RecoveryRequests P :=
  let clients := acceptance.processor.clientsState
  match (clientState clients request.client).updateUponRequestCompletion request.id with
  | none =>
    let entry := clientState clients request.client
    ({ acceptance with processor := { acceptance.processor with
      clientsState := clients.insert request.client entry } }, false, [])
  | some entry =>
    let (acceptance, startClientTimeout) := advance { acceptance with
      processor := { acceptance.processor with
        clientsState := clients.insert request.client entry } } request.client duration
    let (storage, recovery) := match request.payload with
      | .client requestId payload =>
        (acceptance.storage.executeRequest request.client requestId payload, [])
      | .internal recovery => (acceptance.storage, [(request.client, recovery)])
    let output := acceptance.output.response request.client request.payload
    ({ acceptance with
      storage
      output := startClientTimeout.elim output output.timeoutRequest }, true, recovery)

def acceptRequests (duration : Nat) : List (ClientRequest P) → Acceptance P →
    Acceptance P × Bool × RecoveryRequests P
  | [], acceptance => (acceptance, false, [])
  | request :: requests, acceptance =>
    let (acceptance, first, recovery) := acceptance.acceptRequest request duration
    let recoveringReplicas := recovery.foldl (fun map entry => map.insert entry.1 entry.2.nonce)
      acceptance.recoveringReplicas
    let (acceptance, others, recoveries) :=
      acceptRequests duration requests { acceptance with recoveringReplicas }
    (acceptance, first || others, recovery ++ recoveries)

def acceptPrepare (env : Env) (config : Config) (acceptance : Acceptance P) (prepare : Prepare P)
    (duration : Nat) (commonCase : Bool) :
    Outcome (Acceptance P × Option (CheckpointContent P) × RecoveryRequests P ×
      ControllerOutput P) := do
  let (requestBatcher, controller) ←
    if commonCase then acceptance.processor.requestBatcher.update env prepare.data.requestBatch
    else pure (acceptance.processor.requestBatcher, none, none)
  let (acceptance, accepted, recoveries) := acceptRequests duration prepare.data.requestBatch
    { acceptance with processor := { acceptance.processor with requestBatcher } }
  let processor := acceptance.processor
  let round := if accepted then processor.round + 1 else processor.round
  let acceptance := { acceptance with processor := { processor with round } }
  return (acceptance, acceptance.processor.generateCheckpoint config prepare acceptance.storage.hash
    acceptance.recoveringReplicas, recoveries, controller)

end Acceptance

end Abcperf.Minbft
