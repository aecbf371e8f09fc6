import Abcperf.Heaps
import Abcperf.Nxbft.Dag
import Abcperf.Nxbft.Output

/-! One NxBFT replica: its state and the handlers of `NxBft` that run outside recovery. Messages a
replica sends to itself are processed before the call returns (`reflect`). -/

namespace Abcperf.Nxbft

open Lib Lib.Outcome Heaps

variable {P : Platform}

/-- What a call reads from outside the replica: the clock at each round in which it may create a
vertex (the first and the second reading), whether the build checks overflows, and how many
iterations its loops may take. -/
structure Env where
  clock : Nat → Nat → Nat
  overflowChecks : Bool
  fuel : Nat

structure Replica (P : Platform) where
  n : Nat
  quorum : Nat
  me : Nat
  round : Nat
  decidedWave : Nat
  dag : Dag P
  helloReplyCount : Nat
  ready : Bool
  callCreateVertex : Bool
  inRecovery : Bool
  helloSet : IdSet
  readySet : IdSet
  helloMap : Nat → Option (P.Attestation × IdSet)
  pendingClientRequests : PendingClientRequests P.Tx
  clientLastRequest : Nat → Option Nat
  expectedCounters : Nat → Nat
  highestRounds : Nat → Nat
  nonEquivocationMessageBuffers : Nat → List (SignedMessage P)
  vertexBuffer : List (Vertex P)
  enclave : EnclaveAutomata P
  pendingWaveCoins : Nat → Option Nat
  cachedHelloReplies : Nat → Option P.Handshake
  pendingVertices : Finset DagAddress
  vertexRequests : DagAddress → Option IdSet
  vertexTimeout : Nat
  allowTimeout : Bool
  minVertexSize : Nat
  maxVertexSize : Nat
  restartRound : Nat
  currentlyRecovering : IdSet
  output : UnreflectedOutput P
  maxRounds : Nat → Nat
  lastVertexCreatedAt : Nat

/-- The arguments of `NxBft::new`, with the trusted instance that `Enc::new` creates. -/
structure Config (P : Platform) where
  me : Nat
  n : Nat
  vertexTimeout : Nat
  minVertexSize : Nat
  maxVertexSize : Nat
  enclave : P.Key
  startedAt : Nat

namespace Replica

variable (replica : Replica P)

def initial (config : Config P) : Replica P where
  n := config.n
  quorum := config.n / 2 + 1
  me := config.me
  round := 1
  decidedWave := 0
  dag := Dag.new config.n
  helloReplyCount := 0
  ready := false
  callCreateVertex := false
  inRecovery := false
  helloSet := IdSet.empty
  readySet := IdSet.empty
  helloMap := fun _ => none
  pendingClientRequests := .new config.maxVertexSize
  clientLastRequest := fun _ => none
  expectedCounters := fun _ => 0
  highestRounds := fun _ => 0
  nonEquivocationMessageBuffers := fun _ => []
  vertexBuffer := []
  enclave := .new config.n config.enclave
  pendingWaveCoins := fun _ => none
  cachedHelloReplies := fun _ => none
  pendingVertices := ∅
  vertexRequests := fun _ => none
  vertexTimeout := config.vertexTimeout
  allowTimeout := false
  minVertexSize := config.minVertexSize
  maxVertexSize := config.maxVertexSize
  restartRound := 0
  currentlyRecovering := IdSet.empty
  output := .new config.me
  maxRounds := fun _ => 0
  lastVertexCreatedAt := config.startedAt

def new (config : Config P) : Outcome (Replica P) := do
  assert (3 ≤ config.n)
  assert (config.me < config.n)
  assert (config.maxVertexSize ≠ 0)
  assert (config.minVertexSize ≤ config.maxVertexSize)
  return initial config

def broadcast (message : Message P) : Replica P :=
  { replica with output := replica.output.broadcast ⟨replica.me, message⟩ }

def unicast (receiver : Nat) (message : Message P) : Replica P :=
  { replica with output := replica.output.unicast receiver ⟨replica.me, message⟩ }

def stateMessage (message : StateMessage P) : Replica P :=
  { replica with output := replica.output.stateMessage message }

def processHello (sender : Nat) (attestation : P.Attestation) : Replica P :=
  if replica.helloSet.contains sender then
    replica.stateMessage (.peerError sender .duplicateHello)
  else
    let replica := replica.broadcast (.helloEcho sender attestation)
    let replica := { replica with
      helloSet := replica.helloSet.insert sender
      helloMap := Function.update replica.helloMap sender
        (some ((replica.helloMap sender).getD (attestation, IdSet.empty))) }
    replica.stateMessage (.receivedHello sender)

def processHelloReply (sender : Nat) (handshake : P.Handshake) : Outcome (Replica P) := do
  let (enclave, result) ← replica.enclave.completePeerHandshake sender handshake
  let replica := { replica with enclave }
  match result with
  | .duplicateReply => return replica.stateMessage (.peerError sender .duplicateHelloReply)
  | .invalidHandshakeEncryption =>
    return replica.stateMessage (.peerError sender .invalidHandshakeEncryption)
  | .missingAttestation =>
    let replica := { replica with
      cachedHelloReplies := Function.update replica.cachedHelloReplies sender (some handshake) }
    return replica.stateMessage (.helloReplyBeforeHello sender)
  | .ok =>
    let replica := replica.stateMessage (.receivedHelloReply sender)
    let replica := { replica with helloReplyCount := replica.helloReplyCount + 1 }
    if replica.helloReplyCount = replica.n then
      return replica.broadcast .ready
    return replica
  | .enclaveError error => return replica.stateMessage (.enclaveError error)

/-- The end of `process_hello_echo`, once every replica has echoed the attestation. -/
def startHandshake (sender creator : Nat) (attestation : P.Attestation) : Outcome (Replica P) := do
  let (enclave, result) ← replica.enclave.initPeerHandshake creator attestation
  let replica := { replica with enclave }
  match result with
  | .duplicateHello => return replica.stateMessage (.peerError sender .duplicateHello)
  | .invalidAttestation => return replica.stateMessage (.peerError sender .invalidAttestation)
  | .enclaveError error => return replica.stateMessage (.enclaveError error)
  | .ok handshake =>
    let replica := replica.stateMessage (.receivedHelloEcho sender creator)
    let replica := replica.unicast creator (.helloReply handshake)
    match replica.cachedHelloReplies creator with
    | none => return replica
    | some handshake =>
      let replica := { replica with
        cachedHelloReplies := Function.update replica.cachedHelloReplies creator none }
      let replica := replica.stateMessage (.cachedHelloReply creator)
      replica.processHelloReply creator handshake

def processHelloEcho (sender creator : Nat) (attestation : P.Attestation) : Outcome (Replica P) :=
  if replica.n ≤ creator then
    return replica.stateMessage (.peerError sender (.invalidRelayCreator creator))
  else
    let (stored, echos) := (replica.helloMap creator).getD (attestation, IdSet.empty)
    let replica := { replica with
      helloMap := Function.update replica.helloMap creator (some (stored, echos)) }
    if stored ≠ attestation then
      return replica.stateMessage (.peerError sender (.attestationEquivocation creator))
    else if echos.contains sender then
      return replica.stateMessage (.peerError sender .duplicateHelloEcho)
    else
      let echos := echos.insert sender
      let replica := { replica with
        helloMap := Function.update replica.helloMap creator (some (stored, echos)) }
      if echos.len < replica.n then
        return replica
      else replica.startHandshake sender creator attestation

def processReady (sender : Nat) : Replica P :=
  if replica.readySet.contains sender then
    replica.stateMessage (.peerError sender .duplicateReady)
  else
    let replica := { replica with readySet := replica.readySet.insert sender }
    if replica.readySet.len < replica.n then replica
    else
      let replica := { replica with
        ready := true
        callCreateVertex := true
        allowTimeout := true
        output := (replica.output.setTimeout replica.vertexTimeout).setBackupEnclave }
      replica.stateMessage .ready

end Replica

end Abcperf.Nxbft
