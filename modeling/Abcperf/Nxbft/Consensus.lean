import Abcperf.Nxbft.Replica

/-! The handlers of an NxBFT replica that build the graph and decide waves, and the calls its
environment makes. -/

namespace Abcperf.Nxbft

open Lib Lib.Outcome Heaps Function

variable {P : Platform}

namespace Replica

variable (env : Env) (replica : Replica P)

def nextEdges : IdSet :=
  if 1 < replica.round then
    (replica.dag.getRound (replica.round - 1)).foldl
      (fun edges edge => edges.insert edge.creator) IdSet.empty
  else IdSet.empty

/-- The branch of `create_vertex` that signs and sends a vertex. -/
def signVertex : Replica P :=
  let (txs, pendingClientRequests) := replica.pendingClientRequests.popFront
  let edges := replica.nextEdges
  let address : DagAddress := ⟨replica.round, replica.me⟩
  let (enclave, result) := replica.enclave.sign (SignableVertex.new address edges txs).toHash
  let replica := { replica with pendingClientRequests, enclave }
  match result with
  | .error error => replica.stateMessage (.enclaveError error)
  | .ok (signature, counter) =>
    let replica := replica.broadcast (.signed ⟨⟨address, edges, txs, signature, counter⟩⟩)
    { replica with
      lastVertexCreatedAt := env.clock replica.round 1
      callCreateVertex := false
      output := replica.output.cancelTimeout
      allowTimeout := false }

def createVertex (allowedToBeEmptyOrAheadOfTime : Bool) : Outcome (Replica P) := do
  if replica.round < replica.restartRound then
    if replica.callCreateVertex then
      return replica
    return { replica with
      output := replica.output.setTimeout replica.vertexTimeout
      callCreateVertex := true
      allowTimeout := true }
  let wouldBreak :=
    !(← replica.pendingClientRequests.fullBlockOrAtLeast replica.minVertexSize)
  let elapsed := env.clock replica.round 0 - replica.lastVertexCreatedAt
  let timeoutAlreadyPassed := decide (replica.vertexTimeout < elapsed)
  if !wouldBreak || timeoutAlreadyPassed || allowedToBeEmptyOrAheadOfTime then
    return replica.signVertex env
  else
    let elapsed := env.clock replica.round 1 - replica.lastVertexCreatedAt
    return { replica with
      callCreateVertex := true
      output := replica.output.setTimeout (replica.vertexTimeout - elapsed)
      allowTimeout := true }

def waveRound (wave roundInWave : Nat) : Nat := 4 * (wave - 1) + roundInWave

/-- The walk down to the last decided wave. The head of `leadersStack` is the top of the stack,
and `decidedWaves` is kept reversed, as it is reported. -/
def walkLeaders (fuel : Nat) (pendingWaveCoins : Nat → Option Nat) (decidedWave : Nat) :
    Nat → Dag P → DagAddress → List DagAddress → List Nat →
      Outcome (Dag P × List DagAddress × List Nat)
  | 0, dag, _, leadersStack, decidedWaves => return (dag, leadersStack, decidedWaves)
  | wavePrime + 1, dag, vertex, leadersStack, decidedWaves => do
      if wavePrime + 1 ≤ decidedWave then
        return (dag, leadersStack, decidedWaves)
      let coin ← unwrap (pendingWaveCoins (wavePrime + 1))
      let candidate : DagAddress := ⟨waveRound (wavePrime + 1) 1, coin⟩
      if ← dag.knows candidate then
        let (dag, connected) ← dag.hasPath fuel vertex candidate
        if connected then
          walkLeaders fuel pendingWaveCoins decidedWave wavePrime dag candidate
            (candidate :: leadersStack) ((wavePrime + 1) :: decidedWaves)
        else
          walkLeaders fuel pendingWaveCoins decidedWave wavePrime dag vertex leadersStack
            decidedWaves
      else
        walkLeaders fuel pendingWaveCoins decidedWave wavePrime dag vertex leadersStack
          decidedWaves

/-- A transaction is delivered unless its client already had one with as large a request id. -/
def deliverTransaction (tx : P.Tx) : Replica P :=
  let fresh := { replica with
    clientLastRequest :=
      update replica.clientLastRequest (P.clientId tx) (some (P.requestId tx))
    output := replica.output.appendDelivery tx }
  match replica.clientLastRequest (P.clientId tx) with
  | some last => if P.requestId tx ≤ last then replica else fresh
  | none => fresh

def deliverVertex (address : DagAddress) : Outcome (Replica P) := do
  let vertex ← unwrap (← replica.dag.get address)
  return vertex.transactions.foldl deliverTransaction replica

def deliverLeader (fuel : Nat) (replica : Replica P) (leader : DagAddress) :
    Outcome (Replica P × List DagAddress) := do
  let (dag, delivered) ← replica.dag.deliverFrom fuel leader 0
  let replica ← delivered.foldlM deliverVertex { replica with dag }
  return (replica, delivered)

/-- Deliver the leaders from the oldest on; the second component is the `order` so far. -/
def deliverLeaders (fuel : Nat) (replica : Replica P) (leaders : List DagAddress) :
    Outcome (Replica P × List DagAddress) :=
  leaders.foldlM (fun (replica, order) leader => do
    let (replica, delivered) ← replica.deliverLeader fuel leader
    return (replica, order ++ delivered)) (replica, [])

def countReaching (dag : Dag P) (addresses : List DagAddress) (leader : Nat) : Outcome Nat :=
  addresses.foldlM (fun count address => do
    if ← dag.reaches address leader then
      return count + 1
    return count) 0

/-- The part of `wave_ready` after the direct commit rule. -/
def decideWave (fuel : Nat) (replica : Replica P) (wave waveLeader : Nat) :
    Outcome (Replica P) := do
  let leader : DagAddress := ⟨waveRound wave 1, waveLeader⟩
  let (dag, leaders, waves) ← walkLeaders fuel replica.pendingWaveCoins replica.decidedWave
    (wave - 1) replica.dag leader [leader] [wave]
  let (replica, order) ← { replica with dag }.deliverLeaders fuel leaders
  let replica := replica.stateMessage (.decided waves leaders order)
  return { replica with decidedWave := wave, pendingWaveCoins := fun _ => none }

def coinProof (dag : Dag P) (round : Nat) : Outcome (List (SignedVertex P)) :=
  (dag.getRound round).mapM (fun address => do
    let vertex ← unwrap (← dag.get address)
    return vertex.signed)

def waveReady : Outcome (Replica P) := do
  assert (4 ≤ replica.round)
  let wave := replica.round / 4
  let proof ← coinProof replica.dag replica.round
  let (enclave, result) ← replica.enclave.toss proof
  let replica := { replica with enclave }
  match result with
  | .error error => return replica.stateMessage (.enclaveError error)
  | .ok waveLeader =>
    let replica := { replica with
      pendingWaveCoins := update replica.pendingWaveCoins wave (some waveLeader) }
    if !(← replica.dag.knows ⟨waveRound wave 1, waveLeader⟩) then
      return replica.stateMessage .unknownWaveLeader
    let reachingLeader ←
      countReaching replica.dag (replica.dag.getRound (waveRound wave 4)) waveLeader
    if reachingLeader < replica.quorum then
      return replica.stateMessage .directCommitRuleViolated
    replica.decideWave env.fuel wave waveLeader

/-- The check of one edge of a buffered vertex: whether the vertex can still be added, and the
request for the parent if it is missing and was not requested before. -/
def checkEdge (replicaAdd : Replica P × Bool) (edge : DagAddress) :
    Outcome (Replica P × Bool) := do
  let (replica, add) := replicaAdd
  if ← replica.dag.knows edge then
    return (replica, add)
  if edge ∈ replica.pendingVertices then
    return (replica, false)
  let replica := replica.broadcast (.vertexRequest edge)
  let replica := replica.stateMessage (.vertexRequest edge.round edge.creator)
  return ({ replica with pendingVertices := insert edge replica.pendingVertices }, false)

def checkEdgeTo (vertex : Vertex P) (state : Replica P × Bool) (creator : Nat) :
    Outcome (Replica P × Bool) :=
  match previousRound env.overflowChecks vertex.round with
  | none => throw .overflow
  | some round => checkEdge state ⟨round, creator⟩

def checkEdges (vertex : Vertex P) : Outcome (Replica P × Bool) :=
  vertex.edges.iter.foldlM (checkEdgeTo env vertex) (replica, true)

/-- The cursor loop of `traverse_vertex_buffer`: what stays in the buffer and the addresses that
were added to the graph. -/
def traverseLoop (env : Env) : List (Vertex P) → Replica P → List (Vertex P) → List DagAddress →
    Outcome (Replica P × List (Vertex P) × List DagAddress)
  | [], replica, kept, inserts => return (replica, kept, inserts)
  | vertex :: rest, replica, kept, inserts => do
      if replica.round < vertex.round then
        return (replica, kept ++ vertex :: rest, inserts)
      let (replica, add) ← checkEdges env replica vertex
      if add then
        let replica := replica.stateMessage (.vertexAdded vertex.address)
        let dag ← replica.dag.insert vertex
        traverseLoop env rest { replica with dag } kept (inserts ++ [vertex.address])
      else
        traverseLoop env rest replica (kept ++ [vertex]) inserts

/-- Answer the replicas that asked for a vertex which was just added. -/
def answerRequests (address : DagAddress) : Outcome (Replica P) := do
  let waiting := (replica.vertexRequests address).getD IdSet.empty
  let replica := { replica with
    vertexRequests := update replica.vertexRequests address none }
  waiting.iter.foldlM (fun replica receiver => do
    let vertex ← unwrap (← replica.dag.get address)
    return replica.unicast receiver (.signed ⟨vertex⟩)) replica

/-- The round transition at the end of `traverse_vertex_buffer`. -/
def roundTransition : Outcome (Replica P) := do
  let replica ← if replica.round % 4 = 0 then replica.waveReady env else pure replica
  let replica := { replica with round := replica.round + 1, dag := replica.dag.newRound }
  let replica := replica.stateMessage (.roundTransition replica.round)
  replica.createVertex env false

def traverseVertexBuffer : Outcome (Replica P) := do
  let (replica, vertexBuffer, inserts) ← traverseLoop env replica.vertexBuffer replica [] []
  let replica ← inserts.foldlM answerRequests { replica with vertexBuffer }
  if (← replica.dag.knows ⟨replica.round, replica.me⟩) ∧
      replica.quorum ≤ replica.dag.getRoundValidCount replica.round then
    replica.roundTransition env
  else return replica

def processVertex (vertex : Vertex P) : Outcome (Replica P) := do
  if knows Vertex.address vertex.address replica.vertexBuffer then
    return replica
  if ← replica.dag.knows vertex.address then
    return replica
  if vertex.round = 1 ∧ 0 < vertex.numEdges then
    return replica.stateMessage (.peerError vertex.creator .invalidVertexEdgesRound1)
  if 1 < vertex.round ∧ ¬ vertex.edgesValid replica.quorum then
    return replica.stateMessage (.peerError vertex.creator .invalidVertexEdges)
  let replica := { replica with
    maxRounds := update replica.maxRounds vertex.creator
      (max (replica.maxRounds vertex.creator) vertex.round)
    pendingVertices := replica.pendingVertices.erase vertex.address }
  let replica := replica.stateMessage (.bufferedVertex vertex.address)
  let replica := { replica with
    vertexBuffer := Heaps.insert (fun left right => left.address.le right.address) vertex
      replica.vertexBuffer }
  replica.traverseVertexBuffer env

/-- A gap before the first buffered message: ask for the vertex before it. -/
def requestGap (message : SignedMessage P) : Outcome (Replica P) := do
  match previousRound env.overflowChecks message.payload.round with
  | none => throw .overflow
  | some round =>
    let address : DagAddress := ⟨round, message.creator⟩
    if address ∈ replica.pendingVertices then
      return replica
    let replica := replica.broadcast (.vertexRequest address)
    let replica := replica.stateMessage (.vertexRequest address.round address.creator)
    return { replica with pendingVertices := insert address replica.pendingVertices }

/-- The loop of `process_signed_message`: process the messages of one creator in the order of
their counters, up to the first gap. -/
def drainBuffer (env : Env) (creator : Nat) : Nat → Replica P → Outcome (Replica P)
  | 0, _ => .error .fuel
  | fuel + 1, replica =>
    match replica.nonEquivocationMessageBuffers creator with
    | [] => return replica
    | message :: rest =>
      if message.counter ≠ replica.expectedCounters creator then
        replica.requestGap env message
      else do
        let replica := { replica with
          nonEquivocationMessageBuffers :=
            update replica.nonEquivocationMessageBuffers creator rest }
        let replica := replica.stateMessage
          (.nonEquivocationBroadcastDeliver message.creator message.payloadText)
        let replica ← replica.processVertex env message.payload
        drainBuffer env creator fuel { replica with
          expectedCounters := update replica.expectedCounters creator
            (replica.expectedCounters creator + 1) }

def processSignedMessage (sender : Nat) (message : SignedMessage P) : Outcome (Replica P) := do
  let creator := message.creator
  if ¬ replica.ready then
    return replica.stateMessage .notReady
  if replica.currentlyRecovering.contains creator then
    return replica.stateMessage (.peerRecoveryIgnore creator message.toText)
  if replica.n ≤ creator then
    return replica.stateMessage (.peerError sender (.invalidRelayCreator creator))
  if message.counter < replica.expectedCounters creator then
    return replica
  if knows SignedMessage.counter message.counter
      (replica.nonEquivocationMessageBuffers creator) then
    return replica
  match ← replica.enclave.verify creator message.counter message.payload.signable
      message.payload.signature with
  | .error error => return replica.stateMessage (.enclaveError error)
  | .ok false => return replica
  | .ok true =>
    let replica := replica.stateMessage
      (.nonEquivocationBroadcastReceive creator message.payloadText)
    let replica := { replica with
      highestRounds := update replica.highestRounds creator
        (max (replica.highestRounds creator) message.payload.round)
      nonEquivocationMessageBuffers := update replica.nonEquivocationMessageBuffers
        creator (Heaps.insert (fun left right => left.counter ≤ right.counter) message
          (replica.nonEquivocationMessageBuffers creator)) }
    if replica.inRecovery then
      return replica
    drainBuffer env creator env.fuel replica

def processVertexRequest (sender : Nat) (address : DagAddress) : Outcome (Replica P) := do
  if sender = replica.me then
    return replica
  match ← replica.dag.get address with
  | some vertex => return replica.unicast sender (.signed ⟨vertex⟩)
  | none =>
    return { replica with
      vertexRequests := update replica.vertexRequests address
        (some (((replica.vertexRequests address).getD IdSet.empty).insert sender)) }

/-- The body of `process_peer_message` before the reflection. -/
def dispatch (message : PeerMessage P) : Outcome (Replica P) :=
  if replica.n ≤ message.sender then
    return replica.stateMessage (.peerError message.sender .invalidFrom)
  else
    match message.message with
    | .hello attestation => return replica.processHello message.sender attestation
    | .helloEcho creator attestation =>
      replica.processHelloEcho message.sender creator attestation
    | .helloReply handshake => replica.processHelloReply message.sender handshake
    | .ready => return replica.processReady message.sender
    | .signed signed => replica.processSignedMessage env message.sender signed
    | .vertexRequest address => replica.processVertexRequest message.sender address

/-- Take the pending output and process what the replica sent to itself, with `process` for one
message. -/
def reflectWith (process : Replica P → PeerMessage P → Outcome (Replica P × Output P))
    (replica : Replica P) : Outcome (Replica P × Output P) :=
  replica.output.reflectionMessages.foldlM (fun (replica, output) message => do
    let (replica, reflected) ← process replica message
    return (replica, output.append reflected))
    ({ replica with output := .new replica.me }, replica.output.output)

def processPeerMessage (env : Env) :
    Nat → Replica P → PeerMessage P → Outcome (Replica P × Output P)
  | 0, _, _ => .error .fuel
  | fuel + 1, replica, message => do
      let replica ← replica.dispatch env message
      replica.reflectWith (processPeerMessage env fuel)

def reflect : Outcome (Replica P × Output P) :=
  replica.reflectWith (processPeerMessage env env.fuel)

def initHandshake : Outcome (Replica P × Output P) := do
  assert (replica.ready = false)
  let (enclave, result) ← replica.enclave.init
  let replica := { replica with enclave }
  match result with
  | .error error => (replica.stateMessage (.enclaveError error)).reflect env
  | .ok () =>
    match P.attestationCertificate replica.enclave.enclave with
    | .error error =>
      (replica.stateMessage (.enclaveError (.enclaveTrusted error))).reflect env
    | .ok attestation => (replica.broadcast (.hello attestation)).reflect env

def receiveClientRequest (transaction : P.Tx) : Outcome (Replica P × Output P) := do
  let replica := { replica with
    pendingClientRequests := replica.pendingClientRequests.insert transaction }
  if replica.ready && !replica.inRecovery && replica.callCreateVertex then
    let replica ← replica.createVertex env false
    replica.reflect env
  else replica.reflect env

/-- Forces a new vertex to be sent. This vertex may be empty. -/
def processVertexTimeout : Outcome (Replica P × Output P) := do
  if replica.ready && !replica.inRecovery && replica.allowTimeout then
    let replica ← replica.createVertex env true
    replica.reflect env
  else replica.reflect env

end Replica

end Abcperf.Nxbft
