import Abcperf.Nxbft.Enclave

/-! Messages between replicas and what one call of a replica hands to its environment. The times
at which decisions were made are left out: nothing reads them. -/

namespace Abcperf.Nxbft

variable {P : Platform}

/-- `SignedMessage` wraps a `NonEquivocationPayload`, which wraps the vertex. -/
structure SignedMessage (P : Platform) where
  payload : Vertex P

namespace SignedMessage

def creator (message : SignedMessage P) : Nat := message.payload.creator

def counter (message : SignedMessage P) : Nat := message.payload.counter

def payloadText (message : SignedMessage P) : String :=
  let round := message.payload.round
  let creator := message.payload.creator
  s!"Vertex(r: Round({round}), p: {creator})"

def toText (message : SignedMessage P) : String :=
  let creator := message.creator
  let payload := message.payloadText
  s!"NonEquivocationMessage(ReplicaId({creator})): {payload}"

end SignedMessage

inductive Message (P : Platform)
  | hello (attestation : P.Attestation)
  | helloEcho (creator : Nat) (attestation : P.Attestation)
  | helloReply (handshake : P.Handshake)
  | ready
  | signed (message : SignedMessage P)
  | vertexRequest (address : DagAddress)

def Message.vertex : Message P → Option (Vertex P)
  | .signed wrapped => some wrapped.payload
  | _ => none

structure PeerMessage (P : Platform) where
  sender : Nat
  message : Message P

inductive VertexTimeout
  | set (duration : Nat)
  | cancel
  | none
  deriving DecidableEq

inductive PeerErrorType
  | invalidVertexEdgesRound1
  | invalidVertexEdges
  | invalidAttestation
  | duplicateHelloReply
  | invalidHandshakeEncryption
  | duplicateReady
  | duplicateHello
  | attestationEquivocation (creator : Nat)
  | duplicateHelloEcho
  | invalidFrom
  | invalidRelayCreator (given : Nat)

inductive StateMessage (P : Platform)
  | enclaveError (error : EnclaveAutomataError P)
  | notReady
  | peerError (sender : Nat) (errorType : PeerErrorType)
  | unknownWaveLeader
  | directCommitRuleViolated
  | decided (waves : List Nat) (leaders : List DagAddress) (order : List DagAddress)
  | roundTransition (newRound : Nat)
  | vertexRequest (round creator : Nat)
  | ready
  | receivedHello (sender : Nat)
  | receivedHelloReply (sender : Nat)
  | helloReplyBeforeHello (sender : Nat)
  | cachedHelloReply (sender : Nat)
  | receivedHelloEcho (sender creator : Nat)
  | bufferedVertex (vertex : DagAddress)
  | nonEquivocationBroadcastReceive (creator : Nat) (payload : String)
  | nonEquivocationBroadcastDeliver (creator : Nat) (payload : String)
  | vertexAdded (vertex : DagAddress)
  | peerRecoveryIgnore (sender : Nat) (message : String)

/-- `Output`, and the part of `UnreflectedOutput` that becomes one. -/
structure Output (P : Platform) where
  broadcasts : List (PeerMessage P)
  unicasts : List (Nat × PeerMessage P)
  stateMessages : List (StateMessage P)
  delivery : List P.Tx
  vertexTimeout : VertexTimeout
  backupEnclave : Bool

namespace Output

def empty : Output P := ⟨[], [], [], [], .none, false⟩

/-- How `reflect` joins the output of a reflected message to what came before it: the lists are
appended and the timeout of the later call wins, also when it is `None`. -/
def append (first second : Output P) : Output P where
  broadcasts := first.broadcasts ++ second.broadcasts
  unicasts := first.unicasts ++ second.unicasts
  stateMessages := first.stateMessages ++ second.stateMessages
  delivery := first.delivery ++ second.delivery
  vertexTimeout := second.vertexTimeout
  backupEnclave := first.backupEnclave || second.backupEnclave

theorem append_assoc (first second third : Output P) :
    (first.append second).append third = first.append (second.append third) := by
  simp [append, List.append_assoc, Bool.or_assoc]

end Output

structure UnreflectedOutput (P : Platform) where
  me : Nat
  reflectionMessages : List (PeerMessage P)
  output : Output P

namespace UnreflectedOutput

variable (pending : UnreflectedOutput P)

def new (me : Nat) : UnreflectedOutput P := ⟨me, [], Output.empty⟩

def broadcast (message : PeerMessage P) : UnreflectedOutput P :=
  { pending with
    reflectionMessages := pending.reflectionMessages ++ [message]
    output := { pending.output with broadcasts := pending.output.broadcasts ++ [message] } }

def unicast (receiver : Nat) (message : PeerMessage P) : UnreflectedOutput P :=
  if receiver = pending.me then
    { pending with reflectionMessages := pending.reflectionMessages ++ [message] }
  else
    { pending with
      output := { pending.output with
        unicasts := pending.output.unicasts ++ [(receiver, message)] } }

def stateMessage (message : StateMessage P) : UnreflectedOutput P :=
  { pending with
    output := { pending.output with stateMessages := pending.output.stateMessages ++ [message] } }

def appendDelivery (tx : P.Tx) : UnreflectedOutput P :=
  { pending with output := { pending.output with delivery := pending.output.delivery ++ [tx] } }

def setTimeout (duration : Nat) : UnreflectedOutput P :=
  { pending with output := { pending.output with vertexTimeout := .set duration } }

/-- `cancel_timeout` stores `VertexTimeout::None`, not `Cancel`. -/
def cancelTimeout : UnreflectedOutput P :=
  { pending with output := { pending.output with vertexTimeout := .none } }

def setBackupEnclave : UnreflectedOutput P :=
  { pending with output := { pending.output with backupEnclave := true } }

end UnreflectedOutput

end Abcperf.Nxbft
