import Abcperf.Nxbft.Consensus

/-! NxBFT replicas and their network. Correct hosts run the replica; the other hosts do what they
like, but every enclave runs the automata and a signature that verifies was issued by its enclave.
The transport knows who sent a message, delivers in any order, late, twice or never, and a message
from a correct host is one that host has sent. -/

namespace Abcperf.Nxbft

open Lib Lib.Outcome

variable {P : Platform}

/-- `NxbftABCWrapper::handle_peer_message` drops the sender that the transport names; the replica
reads the sender that the message itself names. -/
def handlePeerMessage (env : Env) (replica : Replica P) (_sender : Nat) (message : PeerMessage P) :
    Outcome (Replica P × Output P) :=
  replica.processPeerMessage env env.fuel message

structure Setup (P : Platform) where
  n : Nat
  correct : Finset Nat
  config : Nat → Config P
  named : ∀ id ∈ correct, (config id).me = id ∧ (config id).n = n
  ownKey : ∀ left ∈ correct, ∀ right ∈ correct,
    (config left).enclave = (config right).enclave → left = right

/-- `history` collects the outputs of every correct replica; `enclaves` are the enclaves of the
other hosts, which may run any number of them, and `issued` is what those have signed. -/
structure World (P : Platform) where
  replicas : Nat → Replica P
  history : Nat → Output P
  enclaves : P.Key → Option (EnclaveAutomata P)
  issued : P.Key → List (Nat × P.Hash)

inductive EnclaveCall (P : Platform)
  | init
  | initPeerHandshake (peerId : Nat) (attestation : P.Attestation)
  | completePeerHandshake (peerId : Nat) (handshake : P.Handshake)
  | sign (messageHash : P.Hash)
  | toss (proof : List (SignedVertex P))

def EnclaveCall.run (automata : EnclaveAutomata P) :
    EnclaveCall P → Outcome (EnclaveAutomata P × List (Nat × P.Hash))
  | .init => do
      let (automata, _) ← automata.init
      return (automata, [])
  | .initPeerHandshake peerId attestation => do
      let (automata, _) ← automata.initPeerHandshake peerId attestation
      return (automata, [])
  | .completePeerHandshake peerId handshake => do
      let (automata, _) ← automata.completePeerHandshake peerId handshake
      return (automata, [])
  | .sign messageHash =>
    match automata.sign messageHash with
    | (automata, .ok (_, counter)) => return (automata, [(counter, messageHash)])
    | (automata, .error _) => return (automata, [])
  | .toss proof => do
      let (automata, _) ← automata.toss proof
      return (automata, [])

inductive Event (P : Platform)
  | init (id : Nat) (env : Env)
  | deliver (source receiver : Nat) (env : Env) (message : PeerMessage P)
  | request (id : Nat) (env : Env) (tx : P.Tx)
  | timeout (id : Nat) (env : Env)
  | launch (key : P.Key)
  | call (key : P.Key) (request : EnclaveCall P)

def signedBy (output : Output P) : List (Vertex P) :=
  output.broadcasts.filterMap (·.message.vertex)

namespace World

def Issued (setup : Setup P) (world : World P) (key : P.Key) (counter : Nat) (hash : P.Hash) :
    Prop :=
  (∃ id ∈ setup.correct, (setup.config id).enclave = key ∧
    ∃ vertex ∈ signedBy (world.history id), vertex.counter = counter ∧ vertex.hash = hash) ∨
  (counter, hash) ∈ world.issued key

/-- A signature that verifies under an attestation was issued by the enclave with that
attestation, for the counter and the hash it verifies for. -/
def Unforgeable (setup : Setup P) (world : World P) (message : PeerMessage P) : Prop :=
  ∀ vertex, message.message.vertex = some vertex → ∀ attestation,
    P.verify attestation vertex.counter vertex.hash vertex.signature = .ok true →
    ∃ key, P.attestationCertificate key = .ok attestation ∧
      world.Issued setup key vertex.counter vertex.hash

/-- What the transport can hand to `receiver` as coming from `source`. -/
def CanSend (setup : Setup P) (world : World P) (source receiver : Nat) (message : PeerMessage P) :
    Prop :=
  source ∈ setup.correct →
    message ∈ (world.history source).broadcasts ∨
      (receiver, message) ∈ (world.history source).unicasts

def acted (world : World P) (id : Nat) (replica : Replica P) (output : Output P) : World P :=
  { world with
    replicas := Function.update world.replicas id replica
    history := Function.update world.history id ((world.history id).append output) }

def Initial (setup : Setup P) (world : World P) : Prop :=
  (∀ id ∈ setup.correct, Replica.new (setup.config id) = .ok (world.replicas id) ∧
    world.history id = Output.empty) ∧
  (∀ key, world.enclaves key = none ∧ world.issued key = [])

end World

inductive Step (setup : Setup P) : World P → Event P → World P → Prop
  | init {world : World P} {id : Nat} {env : Env} {replica : Replica P} {output : Output P}
      (correct : id ∈ setup.correct)
      (run : (world.replicas id).initHandshake env = .ok (replica, output)) :
      Step setup world (.init id env) (world.acted id replica output)
  | deliver {world : World P} {source receiver : Nat} {env : Env} {message : PeerMessage P}
      {replica : Replica P} {output : Output P}
      (correct : receiver ∈ setup.correct) (other : source ≠ receiver)
      (sent : world.CanSend setup source receiver message)
      (unforgeable : world.Unforgeable setup message)
      (run : handlePeerMessage env (world.replicas receiver) source message =
        .ok (replica, output)) :
      Step setup world (.deliver source receiver env message)
        (world.acted receiver replica output)
  | request {world : World P} {id : Nat} {env : Env} {tx : P.Tx} {replica : Replica P}
      {output : Output P} (correct : id ∈ setup.correct)
      (run : (world.replicas id).receiveClientRequest env tx = .ok (replica, output)) :
      Step setup world (.request id env tx) (world.acted id replica output)
  | timeout {world : World P} {id : Nat} {env : Env} {replica : Replica P} {output : Output P}
      (correct : id ∈ setup.correct)
      (run : (world.replicas id).processVertexTimeout env = .ok (replica, output)) :
      Step setup world (.timeout id env) (world.acted id replica output)
  | launch {world : World P} {key : P.Key}
      (foreign : ∀ id ∈ setup.correct, (setup.config id).enclave ≠ key)
      (fresh : world.enclaves key = none) :
      Step setup world (.launch key)
        { world with enclaves := Function.update world.enclaves key (some (.new setup.n key)) }
  | call {world : World P} {key : P.Key} {request : EnclaveCall P}
      {before after : EnclaveAutomata P} {signed : List (Nat × P.Hash)}
      (running : world.enclaves key = some before)
      (run : request.run before = .ok (after, signed)) :
      Step setup world (.call key request)
        { world with
          enclaves := Function.update world.enclaves key (some after)
          issued := Function.update world.issued key (world.issued key ++ signed) }

inductive Run (setup : Setup P) (allowed : Event P → Prop) : World P → Prop
  | start {world : World P} (initial : world.Initial setup) : Run setup allowed world
  | step {world next : World P} {event : Event P} (before : Run setup allowed world)
      (ok : allowed event) (step : Step setup world event next) : Run setup allowed next

/-- A `HelloEcho` names the host that sent it. This is what comparing the message with the sender
that the transport names would ensure. -/
def Event.EchoNamesSource : Event P → Prop
  | .deliver source _ _ ⟨sender, .helloEcho _ _⟩ => sender = source
  | _ => True

/-- What is assumed of the platform. `exclusive` says that a signature of one enclave is not a
signature of another. That a hash binds the transactions is not part of it: those of the harness are
encoded so that one hash stands for several lists of them. -/
structure Secure (P : Platform) : Prop where
  distinct : ∀ left right attestation, P.attestationCertificate left = .ok attestation →
    P.attestationCertificate right = .ok attestation → left = right
  collisionFree : ∀ left right : Vertex P, left.hash = right.hash →
    left.address = right.address ∧ left.edges = right.edges
  exclusive : ∀ key hash counter signature attestation, P.sign key hash counter = .ok signature →
    P.verify attestation counter hash signature = .ok true →
    P.attestationCertificate key = .ok attestation

attribute [class] Secure

/-- No two lists of transactions give a vertex the same hash. -/
def Platform.BindsTransactions (P : Platform) : Prop :=
  ∀ left right : Vertex P, left.hash = right.hash → left.transactions = right.transactions

end Abcperf.Nxbft
