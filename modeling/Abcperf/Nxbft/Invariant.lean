import Abcperf.Nxbft.Waves

/-! The invariant of a replica's graph, stated over what is known to be signed: `issued` says what
the enclaves had signed before a call, and the replica's outputs what its own enclave has since. -/

namespace Abcperf.Nxbft

open Lib Lib.Outcome Lib.DepthFirst Replica List

variable {P : Platform}

def Vertex.Valid (quorum : Nat) (vertex : Vertex P) : Prop :=
  (vertex.round = 1 → vertex.numEdges = 0) ∧ (1 < vertex.round → quorum ≤ vertex.numEdges)

namespace Replica

def Held (replica : Replica P) (vertex : Vertex P) : Prop :=
  vertex ∈ replica.vertexBuffer ∨
    ∃ entry, replica.dag.lookup vertex.address = some entry ∧ entry.vertex = vertex

variable (issued : P.Attestation → Vertex P → Prop)

def Logged (facts : Facts P) (key : P.Key) (attestation : P.Attestation) (vertex : Vertex P) :
    Prop :=
  issued attestation vertex ∨ (P.attestationCertificate key = .ok attestation ∧
    vertex ∈ facts.signed)

def Authentic (facts : Facts P) (key : P.Key) (vertex : Vertex P) : Prop :=
  ∀ attestation, P.verify attestation vertex.counter vertex.hash vertex.signature = .ok true →
    Logged issued facts key attestation vertex

def Verified (facts : Facts P) (replica : Replica P) (vertex : Vertex P) : Prop :=
  ∃ attestation, replica.enclave.peers vertex.creator =
    .handshakeComplete attestation P.ranges.new ∧
    Logged issued facts replica.enclave.enclave attestation vertex

structure GraphInv (facts : Facts P) (replica : Replica P) : Prop where
  ledger : LedgerInv facts replica
  reachesSound : replica.dag.ReachesSound ledger.wellFormed
  quorum : replica.quorum = replica.n / 2 + 1
  dagN : replica.dag.n = replica.n
  enclaveN : replica.enclave.n = replica.n
  enclaveQuorum : replica.enclave.quorum = replica.quorum
  noOld : ∀ peer attestation old, replica.enclave.peers peer = .handshakeComplete attestation old →
    old = P.ranges.new
  unready : replica.enclave.rng = none → replica.enclave.nextToss = 4 ∧ replica.decidedWave = 0 ∧
    ∀ wave, replica.pendingWaveCoins wave = none
  tosses : ∀ rng, replica.enclave.rng = some rng → ∃ count,
    replica.enclave.nextToss = 4 * (count + 1) ∧
      rng = coinState replica.n replica.enclave.seed count
  counters : ∀ vertex ∈ facts.signed, vertex.counter < replica.enclave.c
  increasing : facts.signed.Pairwise (fun earlier later => earlier.counter < later.counter)
  signatures : ∀ vertex ∈ facts.signed,
    P.sign replica.enclave.enclave vertex.hash vertex.counter = .ok vertex.signature
  buffered : ∀ creator, ∀ message ∈ replica.nonEquivocationMessageBuffers creator,
    message.creator = creator ∧ Verified issued facts replica message.payload ∧
      Authentic issued facts replica.enclave.enclave message.payload
  held : ∀ vertex, replica.Held vertex → vertex.Valid replica.quorum ∧
    Authentic issued facts replica.enclave.enclave vertex

/-- What the replica sends to itself, and what it has sent to one other replica. -/
def told (history : Output P) (replica : Replica P) : List (PeerMessage P) :=
  replica.output.reflectionMessages ++ (replica.total history).unicasts.map Prod.snd

/-- The invariant with pending output: what the replica passes on is authentic too. -/
structure Sound (history : Output P) (replica : Replica P) : Prop where
  graph : GraphInv issued (factsOf (replica.total history)) replica
  told : ∀ message ∈ replica.told history, ∀ vertex, message.message.vertex = some vertex →
    Authentic issued (factsOf (replica.total history)) replica.enclave.enclave vertex

variable {issued}
  {facts : Facts P} {first second third before after : Replica P}

theorem Logged.mono {facts' : Facts P} {key : P.Key} {attestation : P.Attestation}
    {vertex : Vertex P} (logged : Logged issued facts key attestation vertex)
    (more : ∀ vertex ∈ facts.signed, vertex ∈ facts'.signed) :
    Logged issued facts' key attestation vertex :=
  logged.imp_right fun ⟨own, member⟩ => ⟨own, more vertex member⟩

theorem Authentic.mono {facts' : Facts P} {key : P.Key} {vertex : Vertex P}
    (authentic : Authentic issued facts key vertex)
    (more : ∀ vertex ∈ facts.signed, vertex ∈ facts'.signed) : Authentic issued facts' key vertex :=
  fun attestation verified => (authentic attestation verified).mono more

def core (replica : Replica P) : Replica P :=
  { replica with
    helloReplyCount := 0
    ready := false
    callCreateVertex := false
    inRecovery := false
    readySet := IdSet.empty
    pendingClientRequests := .new 0
    highestRounds := fun _ => 0
    cachedHelloReplies := fun _ => none
    pendingVertices := ∅
    vertexRequests := fun _ => none
    vertexTimeout := 0
    allowTimeout := false
    minVertexSize := 0
    maxVertexSize := 0
    restartRound := 0
    currentlyRecovering := IdSet.empty
    output := .new 0
    maxRounds := fun _ => 0
    lastVertexCreatedAt := 0 }

theorem ledgerInv_core {replica : Replica P} :
    LedgerInv facts replica.core ↔ LedgerInv facts replica :=
  ⟨fun inv => { inv with }, fun inv => { inv with }⟩

theorem graphInv_core {replica : Replica P} :
    GraphInv issued facts replica.core ↔ GraphInv issued facts replica :=
  ⟨fun inv => { inv with ledger := ledgerInv_core.mp inv.ledger },
    fun inv => { inv with ledger := ledgerInv_core.mpr inv.ledger }⟩

/-- A step that touches only fields the invariants do not read, and sends nothing they are about.
What it sends to one replica is no echo, and a vertex only if the replica holds it. -/
structure Quiet (before after : Replica P) : Prop where
  core : after.core = before.core
  facts : factsOf after.output.output = factsOf before.output.output
  echoes : echoesOf after.output.output = echoesOf before.output.output
  reflected : ∀ message ∈ after.output.reflectionMessages,
    message ∈ before.output.reflectionMessages ∨
      (message.message.echo = none ∧ ∀ vertex, message.message.vertex = some vertex →
        before.Held vertex)
  unicast : ∀ sent ∈ after.output.output.unicasts, sent ∈ before.output.output.unicasts ∨
    ∀ vertex, sent.2.message.vertex = some vertex → before.Held vertex

/-- What no handler of vertices changes: the state of the handshake, and of what was sent only the
vertices. -/
structure HandshakeKept (before after : Replica P) : Prop where
  n : after.n = before.n
  me : after.me = before.me
  quorum : after.quorum = before.quorum
  helloSet : after.helloSet = before.helloSet
  helloMap : after.helloMap = before.helloMap
  peers : after.enclave.peers = before.enclave.peers
  key : after.enclave.enclave = before.enclave.enclave
  echoes : echoesOf after.output.output = echoesOf before.output.output
  signed : ∀ vertex ∈ signedBy before.output.output, vertex ∈ signedBy after.output.output
  reflectedEchoes : ∀ message ∈ after.output.reflectionMessages, message.message.echo ≠ none →
    message ∈ before.output.reflectionMessages

theorem HandshakeKept.refl (replica : Replica P) : HandshakeKept replica replica :=
  ⟨rfl, rfl, rfl, rfl, rfl, rfl, rfl, rfl, fun _ member => member, fun _ member _ => member⟩

theorem HandshakeKept.trans (left : HandshakeKept first second)
    (right : HandshakeKept second third) : HandshakeKept first third where
  n := right.n.trans left.n
  me := right.me.trans left.me
  quorum := right.quorum.trans left.quorum
  helloSet := right.helloSet.trans left.helloSet
  helloMap := right.helloMap.trans left.helloMap
  peers := right.peers.trans left.peers
  key := right.key.trans left.key
  echoes := right.echoes.trans left.echoes
  signed := fun vertex member => right.signed vertex (left.signed vertex member)
  reflectedEchoes := fun message member isEcho =>
    left.reflectedEchoes message (right.reflectedEchoes message member isEcho) isEcho

structure Kept (before after : Replica P) : Prop extends HandshakeKept before after where
  expected : after.expectedCounters = before.expectedCounters
  buffers : after.nonEquivocationMessageBuffers = before.nonEquivocationMessageBuffers

theorem Kept.refl (replica : Replica P) : Kept replica replica :=
  ⟨HandshakeKept.refl replica, rfl, rfl⟩

theorem Kept.trans (left : Kept first second) (right : Kept second third) : Kept first third :=
  ⟨left.toHandshakeKept.trans right.toHandshakeKept, right.expected.trans left.expected,
    right.buffers.trans left.buffers⟩

theorem factsOf_append (first second : Output P) :
    factsOf (first.append second) = ⟨(factsOf first).signed ++ (factsOf second).signed,
      (factsOf first).leaders ++ (factsOf second).leaders,
      (factsOf first).order ++ (factsOf second).order,
      (factsOf first).delivery ++ (factsOf second).delivery⟩ := by
  simp [factsOf]

theorem factsOf_total (history : Output P)
    (same : factsOf after.output.output = factsOf before.output.output) :
    factsOf (after.total history) = factsOf (before.total history) := by
  rw [total, total, factsOf_append, factsOf_append, same]

section

variable (quiet : Quiet before after)

include quiet

theorem Quiet.field {α : Type} (read : Replica P → α) :
    read after.core = read before.core := congrArg read quiet.core

theorem Quiet.held (vertex : Vertex P) : after.Held vertex ↔ before.Held vertex := by
  have buffer : after.vertexBuffer = before.vertexBuffer := quiet.field vertexBuffer
  have dag : after.dag = before.dag := quiet.field dag
  unfold Held
  rw [buffer, dag]

theorem Quiet.kept : Kept before after where
  n := quiet.field n
  me := quiet.field me
  helloSet := quiet.field helloSet
  helloMap := quiet.field helloMap
  peers := quiet.field (fun replica => replica.enclave.peers)
  key := quiet.field (fun replica => replica.enclave.enclave)
  quorum := quiet.field quorum
  expected := quiet.field expectedCounters
  buffers := quiet.field nonEquivocationMessageBuffers
  echoes := quiet.echoes
  signed := by
    have same : signedBy after.output.output = signedBy before.output.output :=
      congrArg Facts.signed quiet.facts
    intro vertex member
    rw [same]
    exact member
  reflectedEchoes := by
    intro message member isEcho
    rcases quiet.reflected message member with old | ⟨noEcho, _⟩
    · exact old
    · exact absurd noEcho isEcho

theorem Quiet.sound {history : Output P} (sound : Sound issued history before) :
    Sound issued history after := by
  have key : after.enclave.enclave = before.enclave.enclave := quiet.kept.key
  constructor
  · rw [factsOf_total history quiet.facts, ← graphInv_core, quiet.core, graphInv_core]
    exact sound.graph
  intro message member vertex carries
  rw [factsOf_total history quiet.facts, key]
  suffices source : message ∈ before.told history ∨ before.Held vertex from
    source.elim (sound.told message · vertex carries) fun held => (sound.graph.held vertex held).2
  simp only [told, total, Output.append, map_append, mem_append] at member ⊢
  rcases member with reflected | returned | pending
  · rcases quiet.reflected message reflected with old | ⟨_, held⟩
    · exact .inl (.inl old)
    · exact .inr (held vertex carries)
  · exact .inl (.inr (.inl returned))
  obtain ⟨sent, isSent, rfl⟩ := List.mem_map.mp pending
  rcases quiet.unicast sent isSent with old | held
  · exact .inl (.inr (.inr (mem_map_of_mem old)))
  · exact .inr (held vertex carries)

end

theorem Quiet.refl (replica : Replica P) : Quiet replica replica :=
  ⟨rfl, rfl, rfl, fun _ => .inl, fun _ => .inl⟩

theorem Quiet.trans (left : Quiet first second) (right : Quiet second third) :
    Quiet first third where
  core := right.core.trans left.core
  facts := right.facts.trans left.facts
  echoes := right.echoes.trans left.echoes
  reflected := by
    intro message member
    rcases right.reflected message member with old | ⟨noEcho, held⟩
    · exact left.reflected message old
    · exact .inr ⟨noEcho, fun vertex carries => (left.held vertex).mp (held vertex carries)⟩
  unicast := by
    intro sent member
    rcases right.unicast sent member with old | held
    · exact left.unicast sent old
    · exact .inr fun vertex carries => (left.held vertex).mp (held vertex carries)

theorem quiet_fields (before after : Replica P) (core : after.core = before.core)
    (output : after.output = before.output) : Quiet before after :=
  ⟨core, by rw [output], by rw [output], fun _ member => .inl (output ▸ member),
    fun _ member => .inl (output ▸ member)⟩

theorem quiet_stateMessage (replica : Replica P) (message : StateMessage P)
    (noLeaders : message.leaders = []) (noOrder : message.order = []) :
    Quiet replica (replica.stateMessage message) where
  core := rfl
  facts := by
    simp [factsOf, stateMessage, UnreflectedOutput.stateMessage, leadersOf, orderOf, signedBy,
      noLeaders, noOrder]
  echoes := rfl
  reflected := fun _ => .inl
  unicast := fun _ => .inl

theorem quiet_broadcast (replica : Replica P) (message : Message P) (noEcho : message.echo = none)
    (noVertex : message.vertex = none) : Quiet replica (replica.broadcast message) where
  core := rfl
  facts := by
    simp [factsOf, broadcast, UnreflectedOutput.broadcast, leadersOf, orderOf, signedBy, noVertex]
  echoes := by simp [broadcast, UnreflectedOutput.broadcast, echoesOf, noEcho]
  reflected := by
    intro sent member
    simp only [broadcast, UnreflectedOutput.broadcast, mem_append, mem_singleton] at member
    rcases member with old | rfl
    · exact .inl old
    refine .inr ⟨noEcho, fun vertex carries => ?_⟩
    rw [noVertex] at carries
    cases carries
  unicast := fun _ => .inl

theorem quiet_unicast (replica : Replica P) (receiver : Nat) (message : Message P)
    (noEcho : message.echo = none)
    (held : ∀ vertex, message.vertex = some vertex → replica.Held vertex) :
    Quiet replica (replica.unicast receiver message) := by
  unfold unicast UnreflectedOutput.unicast
  split
  · refine ⟨rfl, rfl, rfl, ?_, fun _ => .inl⟩
    intro sent member
    simp only [mem_append, mem_singleton] at member
    rcases member with old | rfl
    · exact .inl old
    · exact .inr ⟨noEcho, held⟩
  refine ⟨rfl, rfl, by simp [echoesOf, noEcho], fun _ => .inl, ?_⟩
  intro sent member
  rcases mem_append.mp member with old | fresh
  · exact .inl old
  · rw [mem_singleton.mp fresh]
    exact .inr held

end Replica

end Abcperf.Nxbft
