import Abcperf.IdMap

/-! The messages of MinBFT. Hashes, signatures and attestations are parameters; every id, view,
counter and nonce is a number. -/

namespace Abcperf.Minbft

/-- The types that messages are made of: the payload of the application (`RequestPayload`), and the
attestations, signatures and digests of the USIG and the hash function. -/
structure Carriers where
  Payload : Type
  Attestation : Type
  Signature : Type
  Hash : Type
  attestationEq : DecidableEq Attestation
  hashEq : DecidableEq Hash
  counter : Signature → Nat

instance (C : Carriers) : DecidableEq C.Attestation := C.attestationEq

instance (C : Carriers) : DecidableEq C.Hash := C.hashEq

structure RecoveryRequestPayload (C : Carriers) where
  requestId : Nat
  replicaId : Nat
  attestation : C.Attestation
  nonce : Nat

inductive WrappedRequestPayload (C : Carriers)
  | client (requestId : Nat) (payload : C.Payload)
  | internal (request : RecoveryRequestPayload C)

def WrappedRequestPayload.id {C : Carriers} : WrappedRequestPayload C → Nat
  | .client requestId _ => requestId
  | .internal request => request.requestId

structure ClientRequest (C : Carriers) where
  client : Nat
  payload : WrappedRequestPayload C

def ClientRequest.id {C : Carriers} (request : ClientRequest C) : Nat := request.payload.id

structure UsigSigned (C : Carriers) (Content : Type) where
  data : Content
  signature : C.Signature

def UsigSigned.counter {C : Carriers} {Content : Type} (message : UsigSigned C Content) : Nat :=
  C.counter message.signature

structure PrepareContent (C : Carriers) where
  origin : Nat
  view : Nat
  requestBatch : List (ClientRequest C)

abbrev Prepare (C : Carriers) := UsigSigned C (PrepareContent C)

structure CommitContent (C : Carriers) where
  origin : Nat
  prepare : Prepare C

abbrev Commit (C : Carriers) := UsigSigned C (CommitContent C)

inductive ViewPeerMessage (C : Carriers)
  | prepare (message : Prepare C)
  | commit (message : Commit C)

structure CheckpointContent (C : Carriers) where
  origin : Nat
  counterLatestPrep : Nat
  viewLatestPrep : Nat
  stateHash : C.Hash
  totalAmountAcceptedBatches : Nat
  lastExecutedClientReq : IdMap Nat
  usigAttestations : IdMap C.Attestation
  recoveringReplicas : IdMap Nat

abbrev Checkpoint (C : Carriers) := UsigSigned C (CheckpointContent C)

structure CheckpointCertificate (C : Carriers) where
  myCheckpoint : Checkpoint C
  otherCheckpoints : List (Checkpoint C)

/-- `variant` is the log of the messages that the origin has sent (`ViewChangeVariantLog`), or its
hash where the message is itself an entry of a log (`ViewChangeVariantNoLog`). -/
structure ViewChangeContent (C : Carriers) (Variant : Type) where
  origin : Nat
  nextView : Nat
  checkpointCert : Option (CheckpointCertificate C)
  variant : Variant

/-- The certificate of a `NewView` is the list of its `ViewChange`s, with their logs. -/
structure NewViewContent (C : Carriers) (Entry : Type) where
  origin : Nat
  nextView : Nat
  certificate : List (UsigSigned C (ViewChangeContent C (List Entry)))

inductive UsigMessageV (C : Carriers) (Variant Entry : Type)
  | view (message : ViewPeerMessage C)
  | viewChange (message : UsigSigned C (ViewChangeContent C Variant))
  | newView (message : UsigSigned C (NewViewContent C Entry))
  | checkpoint (message : Checkpoint C)

/-- An entry of the log of a `ViewChange`: `UsigMessageV<ViewChangeVariantNoLog, ..>`. -/
inductive LogMessage (C : Carriers)
  | of (message : UsigMessageV C C.Hash (LogMessage C))

abbrev ViewChange (C : Carriers) := UsigSigned C (ViewChangeContent C (List (LogMessage C)))

abbrev NewView (C : Carriers) := UsigSigned C (NewViewContent C (LogMessage C))

abbrev UsigMessage (C : Carriers) := UsigMessageV C (List (LogMessage C)) (LogMessage C)

inductive Content (C : Carriers)
  | prepare (content : PrepareContent C)
  | commit (content : CommitContent C)
  | checkpoint (content : CheckpointContent C)
  | viewChange (content : ViewChangeContent C (List (LogMessage C)))
  | newView (content : NewViewContent C (LogMessage C))

variable {C : Carriers}

def LogMessage.message : LogMessage C → UsigMessageV C C.Hash (LogMessage C)
  | .of message => message

namespace ViewPeerMessage

def counter : ViewPeerMessage C → Nat
  | .prepare message => message.counter
  | .commit message => message.counter

def origin : ViewPeerMessage C → Nat
  | .prepare message => message.data.origin
  | .commit message => message.data.origin

def proposal : ViewPeerMessage C → Prepare C
  | .prepare message => message
  | .commit message => message.data.prepare

def view (message : ViewPeerMessage C) : Nat := message.proposal.data.view

end ViewPeerMessage

namespace UsigMessageV

variable {Variant Entry : Type}

def counter : UsigMessageV C Variant Entry → Nat
  | .view message => message.counter
  | .viewChange message => message.counter
  | .newView message => message.counter
  | .checkpoint message => message.counter

def origin : UsigMessageV C Variant Entry → Nat
  | .view message => message.origin
  | .viewChange message => message.data.origin
  | .newView message => message.data.origin
  | .checkpoint message => message.data.origin

end UsigMessageV

def UsigMessageV.signed :
    UsigMessage C → UsigSigned C (Content C)
  | .view (.prepare message) => ⟨.prepare message.data, message.signature⟩
  | .view (.commit message) => ⟨.commit message.data, message.signature⟩
  | .viewChange message => ⟨.viewChange message.data, message.signature⟩
  | .newView message => ⟨.newView message.data, message.signature⟩
  | .checkpoint message => ⟨.checkpoint message.data, message.signature⟩

def Content.origin : Content C → Nat
  | .prepare content => content.origin
  | .commit content => content.origin
  | .checkpoint content => content.origin
  | .viewChange content => content.origin
  | .newView content => content.origin

structure ReqViewChange where
  prevView : Nat
  nextView : Nat
  deriving DecidableEq

structure ReplicaStorage (C : Carriers) where
  lastHash : C.Hash

/-- `PeerMessage` and `ValidatedPeerMessage`, which have the same contents. -/
inductive PeerMessage (C : Carriers)
  | hello (attestation : C.Attestation)
  | reqViewChange (request : ReqViewChange)
  | usig (message : UsigMessage C)
  | recoveryRequest (attestation : C.Attestation) (nonce : Nat)
  | recoveryReply (nonce : Nat) (storage : ReplicaStorage C)
      (certificate : CheckpointCertificate C)
  | forward (nonce : Nat) (message : UsigMessage C) (pendingNewViews : List (UsigMessage C))

end Abcperf.Minbft
