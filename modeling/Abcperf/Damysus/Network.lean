import Abcperf.Damysus.Replica

/-! Damysus replicas and their network. Correct hosts run the replica. The other hosts send what
they like and call their enclaves as they like, but every enclave runs the automata. The transport
delivers in any order, late, twice or never, and a message from a correct host is one that host has
sent. -/

namespace Abcperf.Damysus

open Lib Lib.Outcome

variable {P : Platform}

/-- `DamysusABCWrapper::handle_peer_message` drops the sender that the transport names; the replica
reads the sender that the message itself names. -/
def handlePeerMessage (env : Env P) (replica : Replica P) (_sender : Nat)
    (message : PeerMessage P) : Outcome (Replica P × Output P) :=
  replica.processPeerMessage env message

/-- `trusted` are the trusted instances in the enclaves of hosts that are not correct. -/
structure Setup (P : Platform) where
  n : Nat
  correct : Finset Nat
  config : Nat → Config P
  trusted : Nat → P.Trusted
  inRange : ∀ id ∈ correct, id < n
  named : ∀ id ∈ correct, (config id).me = id ∧ (config id).n = n

/-- `history` collects the outputs of every correct replica. -/
structure World (P : Platform) where
  replicas : Nat → Replica P
  history : Nat → Output P
  enclaves : Nat → Enclave P

inductive Event (P : Platform)
  | init (id : Nat) (env : Env P)
  | deliver (source receiver : Nat) (env : Env P) (message : PeerMessage P)
  | request (id : Nat) (env : Env P) (tx : P.Tx)
  | blockTimeout (id : Nat) (env : Env P)
  | viewTimeout (id : Nat) (env : Env P)
  | addPeer (id peer : Nat) (key : P.PublicKey)
  | call (id : Nat) (request : EnclaveCall P)

def PeerMessage.transmitted (message : PeerMessage P) : PeerMessage P :=
  ⟨message.sender, message.message.transmitted⟩

namespace World

def enclave (setup : Setup P) (world : World P) (id : Nat) : Enclave P :=
  if id ∈ setup.correct then (world.replicas id).enclave else world.enclaves id

/-- What the transport can hand to `receiver` as coming from `source`. -/
def CanSend (setup : Setup P) (world : World P) (source receiver : Nat) (message : PeerMessage P) :
    Prop :=
  ∃ sent : PeerMessage P, sent.transmitted = message ∧ (source ∈ setup.correct →
    sent ∈ (world.history source).broadcasts ∨
      (receiver, sent) ∈ (world.history source).unicasts)

def acted (world : World P) (id : Nat) (replica : Replica P) (output : Output P) : World P :=
  { world with
    replicas := Function.update world.replicas id replica
    history := Function.update world.history id ((world.history id).join output) }

def called (world : World P) (id : Nat) (enclave : Enclave P) : World P :=
  { world with enclaves := Function.update world.enclaves id enclave }

def Initial (setup : Setup P) (world : World P) : Prop :=
  (∀ id ∈ setup.correct, Replica.new (setup.config id) = .ok (world.replicas id) ∧
    world.history id = Output.empty) ∧
  ∀ id, world.enclaves id = .new id setup.n (setup.n / 2 + 1) (setup.trusted id)

theorem Initial.started {setup : Setup P} {world : World P} (initial : world.Initial setup)
    {id : Nat} (correct : id ∈ setup.correct) :
    world.replicas id = .initial (setup.config id) ∧ world.history id = Output.empty := by
  obtain ⟨created, noOutput⟩ := initial.1 id correct
  simp only [Replica.new, bind_ok, assert_ok, pure_ok] at created
  obtain ⟨-, -, -, -, created⟩ := created
  exact ⟨created.symm, noOutput⟩

theorem acted_cases {p : Replica P → Output P → Prop} {world : World P} {place id : Nat}
    {replica : Replica P} {output : Output P}
    (self : id = place → p replica ((world.history id).join output))
    (other : id ≠ place → p (world.replicas id) (world.history id)) :
    p ((world.acted place replica output).replicas id)
    ((world.acted place replica output).history id) := by
  by_cases same : id = place
  · subst same
    simpa only [acted, Function.update_self] using self rfl
  · simpa only [acted, Function.update_of_ne same] using other same

end World

def Event.handle (replica : Replica P) : Event P → Outcome (Replica P × Output P)
  | .init _ env => replica.initHandshake env
  | .deliver source _ env message => handlePeerMessage env replica source message
  | .request _ env tx => replica.receiveClientRequest env tx
  | .blockTimeout _ env => replica.handleBlockTimeout env
  | .viewTimeout _ env => replica.handleViewTimeout env
  | .addPeer _ _ _ | .call _ _ => throw .unreachable

def Event.place : Event P → Nat
  | .init id _ | .deliver _ id _ _ | .request id _ _ | .blockTimeout id _ | .viewTimeout id _
  | .addPeer id _ _ | .call id _ => id

def Event.Possible (setup : Setup P) (world : World P) : Event P → Prop
  | .deliver source receiver _ message =>
    source ≠ receiver ∧ world.CanSend setup source receiver message
  | _ => True

inductive Step (setup : Setup P) : World P → Event P → World P → Prop
  | act {world : World P} {event : Event P} {replica : Replica P} {output : Output P}
      (correct : event.place ∈ setup.correct) (possible : event.Possible setup world)
      (run : event.handle (world.replicas event.place) = .ok (replica, output)) :
      Step setup world event (world.acted event.place replica output)
  | addPeer {world : World P} {id peer : Nat} {key : P.PublicKey} {enclave : Enclave P}
      (foreign : id ∉ setup.correct)
      (run : (world.enclaves id).addPeer peer key = .ok enclave) :
      Step setup world (.addPeer id peer key) (world.called id enclave)
  | call {world : World P} {id : Nat} {request : EnclaveCall P} {enclave : Enclave P}
      {result : EnclaveResult P (SignedCommitment P)} (foreign : id ∉ setup.correct)
      (run : (world.enclaves id).call request = .ok (enclave, result)) :
      Step setup world (.call id request) (world.called id enclave)

inductive Run (setup : Setup P) (allowed : World P → Event P → Prop) : World P → Prop
  | start {world : World P} (initial : world.Initial setup) : Run setup allowed world
  | step {world next : World P} {event : Event P} (before : Run setup allowed world)
      (ok : allowed world event) (step : Step setup world event next) : Run setup allowed next

end Abcperf.Damysus
