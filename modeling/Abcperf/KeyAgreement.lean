import Mathlib.Data.Finset.Card
import Mathlib.Order.Bounds.Basic
import Abcperf.Lib.Outcome

/-! The key that the enclaves of the mobility service share. Every enclave proposes a key to every
other under a key of the two, and uses the least of its own proposal and of those it was sent. -/

namespace Abcperf.Maas

open Lib Lib.Outcome Function

/-- What the enclaves use of `EcKeyPair`, `gen_shared_key` and `AesGcm`. A secret is what `encrypt`
writes, with its authentication code. -/
structure Crypto where
  EcPrivateKey : Type
  EcPublicKey : Type
  Key128bit : Type
  Secret : Type
  [order : LinearOrder Key128bit]
  publicKey : EcPrivateKey → EcPublicKey
  createWithSeed : Key128bit → EcPrivateKey × EcPublicKey
  genSharedKey : EcPrivateKey → EcPublicKey → Key128bit
  encrypt : Key128bit → Key128bit → Secret
  decrypt : Key128bit → Secret → Option Key128bit
  genSharedKey_comm : ∀ own other,
    genSharedKey own (publicKey other) = genSharedKey other (publicKey own)
  decrypt_encrypt : ∀ key text, decrypt key (encrypt key text) = some text

attribute [instance] Crypto.order

variable {C : Crypto}

structure SharedState (C : Crypto) where
  privateKey : C.EcPrivateKey
  proposedKey : C.Key128bit
  usedKey : C.Key128bit
  usedKeyPair : C.EcPrivateKey × C.EcPublicKey

inductive MaasReplicaMessage (C : Crypto)
  | remoteAttestation (pubKey : C.EcPublicKey)
  | proposedSecret (pubKey : C.EcPublicKey) (secret : C.Secret)

namespace SharedState

def init (privateKey : C.EcPrivateKey) (proposedKey : C.Key128bit) : SharedState C :=
  ⟨privateKey, proposedKey, proposedKey, C.createWithSeed proposedKey⟩

variable (state : SharedState C)

def maContinue (remotePubKey : C.EcPublicKey) : MaasReplicaMessage C :=
  .proposedSecret (C.publicKey state.privateKey)
    (C.encrypt (C.genSharedKey state.privateKey remotePubKey) state.proposedKey)

def maFinish (remotePubKey : C.EcPublicKey) (secret : C.Secret) : Option (SharedState C) :=
  (C.decrypt (C.genSharedKey state.privateKey remotePubKey) secret).map fun newKey =>
    if newKey < state.usedKey
    then { state with usedKey := newKey, usedKeyPair := C.createWithSeed newKey } else state

end SharedState

structure MaasServer (C : Crypto) where
  replicaId : Nat
  enclave : SharedState C
  proposalsFrom : Finset Nat

namespace MaasServer

/-- One turn of the loop over the messages of the other replicas, and what is sent in answer. -/
def receive (server : MaasServer C) (id : Nat) (msg : MaasReplicaMessage C) :
    Outcome (MaasServer C × Option (MaasReplicaMessage C)) := do
  -- own messages are ignored
  if id = server.replicaId then return (server, none)
  match msg with
  | .remoteAttestation pubKey => return (server, some (server.enclave.maContinue pubKey))
  | .proposedSecret pubKey secret =>
    let enclave ← unwrap (server.enclave.maFinish pubKey secret)
    return ({ server with enclave, proposalsFrom := insert id server.proposalsFrom }, none)

def Ready (n : Nat) (server : MaasServer C) : Prop := n ≤ server.proposalsFrom.card

end MaasServer

structure Envelope (C : Crypto) where
  source : Nat
  receiver : Nat
  msg : MaasReplicaMessage C

variable (n : Nat) (keys : Nat → C.EcPrivateKey) (proposed : Nat → C.Key128bit)

/-- Every replica broadcasts its attestation; what was sent arrives in any order, any number of
times or never. -/
inductive Exchange : (Nat → MaasServer C) → List (Envelope C) → Prop
  | start : Exchange (fun id => ⟨id, .init (keys id) (proposed id), {id}⟩)
      ((List.range n).flatMap fun source => (List.range n).map fun receiver =>
        ⟨source, receiver, .remoteAttestation (C.publicKey (keys source))⟩)
  | deliver {servers sent envelope server reply} : Exchange servers sent → envelope ∈ sent →
    (servers envelope.receiver).receive envelope.source envelope.msg = .ok (server, reply) →
    Exchange (update servers envelope.receiver server)
      (sent ++ reply.toList.map fun msg => ⟨envelope.receiver, envelope.source, msg⟩)

def Envelope.Genuine : Envelope C → Prop
  | ⟨source, receiver, msg⟩ => source < n ∧ receiver < n ∧
    (msg = .remoteAttestation (C.publicKey (keys source)) ∨
      msg = .proposedSecret (C.publicKey (keys source)) (C.encrypt
        (C.genSharedKey (keys source) (C.publicKey (keys receiver))) (proposed source)))

/-- The key in use is the least of the proposals received. -/
structure MaasServer.Least (id : Nat) (server : MaasServer C) : Prop where
  privateKey : server.enclave.privateKey = keys id
  proposedKey : server.enclave.proposedKey = proposed id
  peers : ∀ peer ∈ server.proposalsFrom, peer < n ∨ peer = id
  used : IsLeast (Set.image proposed server.proposalsFrom) server.enclave.usedKey
  pair : server.enclave.usedKeyPair = C.createWithSeed server.enclave.usedKey

variable {n keys proposed} {servers : Nat → MaasServer C} {sent : List (Envelope C)}

theorem MaasServer.Least.receive {server next : MaasServer C} {envelope : Envelope C}
    {reply : Option (MaasReplicaMessage C)} (least : server.Least n keys proposed envelope.receiver)
    (genuine : envelope.Genuine n keys proposed)
    (run : server.receive envelope.source envelope.msg = .ok (next, reply)) :
    next.Least n keys proposed envelope.receiver ∧
    ∀ msg ∈ reply, Envelope.Genuine n keys proposed ⟨envelope.receiver, envelope.source, msg⟩ := by
  obtain ⟨isSource, isReceiver, content⟩ := genuine
  unfold MaasServer.receive at run
  split at run
  · cases pure_ok.mp run
    exact ⟨least, nofun⟩
  rcases content with content | content
  · rw [content] at run
    cases pure_ok.mp run
    refine ⟨least, ?_⟩
    rintro - ⟨⟩
    refine ⟨isReceiver, isSource, .inr ?_⟩
    rw [SharedState.maContinue, least.privateKey, least.proposedKey]
  rw [content] at run
  simp only [bind_ok, pure_ok, unwrap_ok, Prod.mk.injEq, SharedState.maFinish, least.privateKey,
    C.genSharedKey_comm _ (keys envelope.source), C.decrypt_encrypt, Option.map_some,
    Option.some.injEq] at run
  obtain ⟨-, rfl, rfl, rfl⟩ := run
  have used := least.used.insert (proposed envelope.source)
  rw [← Set.image_insert_eq, ← Finset.coe_insert] at used
  have peers : ∀ peer ∈ insert envelope.source server.proposalsFrom,
      peer < n ∨ peer = envelope.receiver := by
    simpa [isSource] using least.peers
  refine ⟨?_, nofun⟩
  split
  · next lower => exact { least with
      peers, used := min_eq_left lower.le ▸ used, pair := rfl, privateKey := rfl }
  · next higher => exact { least with peers, used := min_eq_right (not_lt.mp higher) ▸ used }

theorem Exchange.least (exchange : Exchange n keys proposed servers sent) :
    (∀ id, (servers id).Least n keys proposed id) ∧
    ∀ envelope ∈ sent, envelope.Genuine n keys proposed := by
  induction exchange with
  | start =>
    refine ⟨fun id => ⟨rfl, rfl, by simp, by simp [SharedState.init], rfl⟩, ?_⟩
    simp only [List.mem_flatMap, List.mem_map, List.mem_range]
    rintro - ⟨source, isSource, receiver, isReceiver, rfl⟩
    exact ⟨isSource, isReceiver, .inl rfl⟩
  | @deliver servers sent envelope server reply _ member run ih =>
    obtain ⟨least, genuine⟩ := ih
    obtain ⟨next, replies⟩ := (least envelope.receiver).receive (genuine envelope member) run
    refine ⟨fun id => ?_, ?_⟩
    · by_cases same : id = envelope.receiver
      · subst same
        rwa [update_self]
      · rw [update_of_ne same]
        exact least id
    · simp only [List.mem_append, List.mem_map, Option.mem_toList]
      rintro _ (earlier | ⟨msg, sent, rfl⟩)
      · exact genuine _ earlier
      · exact replies msg sent

theorem shared_key_agreed (exchange : Exchange n keys proposed servers sent) {id : Nat}
    (inside : id < n) (ready : (servers id).Ready n) :
    IsLeast (Set.image proposed (Set.Iio n)) (servers id).enclave.usedKey ∧
    (servers id).enclave.usedKeyPair = C.createWithSeed (servers id).enclave.usedKey ∧
    ∀ peer < n, (servers peer).Ready n →
      (servers peer).enclave.usedKey = (servers id).enclave.usedKey := by
  have all {id : Nat} (inside : id < n) (ready : (servers id).Ready n) :
      IsLeast (Set.image proposed (Set.Iio n)) (servers id).enclave.usedKey := by
    have least := exchange.least.1 id
    have peers : (servers id).proposalsFrom ⊆ Finset.range n := fun peer member => by
      have := least.peers peer member
      simp only [Finset.mem_range]
      omega
    have full := Finset.eq_of_subset_of_card_le peers (by rw [Finset.card_range]; exact ready)
    simpa [full] using least.used
  exact ⟨all inside ready, (exchange.least.1 id).pair, fun peer isPeer isReady =>
    (all isPeer isReady).unique (all inside ready)⟩

def Crypto.plain : Crypto where
  EcPrivateKey := Nat
  EcPublicKey := Nat
  Key128bit := Nat
  Secret := Nat × Nat
  publicKey := id
  createWithSeed key := (key, key)
  genSharedKey own other := own + other
  encrypt := Prod.mk
  decrypt key secret := if key = secret.1 then some secret.2 else none
  genSharedKey_comm := Nat.add_comm
  decrypt_encrypt _ _ := if_pos rfl

theorem shared_key_agreed_two : ∃ servers sent,
    @Exchange Crypto.plain 2 id (· + (7 : Nat)) servers sent ∧
      (servers 0).Ready 2 ∧ (servers 1).Ready 2 ∧ (servers 1).enclave.proposedKey = (8 : Nat) ∧
      (servers 0).enclave.usedKey = (servers 1).enclave.usedKey := by
  -- each replica answers the attestation of the other, and takes the key in the other's answer
  have answered := ((@Exchange.start Crypto.plain 2 id (· + (7 : Nat))).deliver
    (.tail _ (.tail _ (.head _))) rfl).deliver (List.mem_append_left _ (.tail _ (.head _))) rfl
  have taken := (answered.deliver (List.mem_append_left _ (List.mem_append_right _ (.head _)))
    rfl).deliver (List.mem_append_left _ (List.mem_append_right _ (.head _))) rfl
  refine ⟨_, _, taken, Nat.le_refl 2, Nat.le_refl 2, rfl, ?_⟩
  exact (shared_key_agreed taken Nat.one_lt_two (Nat.le_refl 2)).2.2 0 Nat.two_pos (Nat.le_refl 2)

end Abcperf.Maas
