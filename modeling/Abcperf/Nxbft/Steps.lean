import Abcperf.Nxbft.Frame
import Abcperf.Nxbft.Invariant

/-! What the handlers of a replica do, action by action. Almost all of it leaves the graph, the
enclave and the waiting requests alone, so a property of the handlers needs to be shown for the
other actions only. -/

namespace Abcperf.Nxbft

open Lib Lib.Outcome Heaps List

variable {P : Platform}

namespace EnclaveAutomata

/-- Any sequence of calls of the enclave. -/
inductive Evolves (start : EnclaveAutomata P) : EnclaveAutomata P → Prop
  | refl : Evolves start start
  | init {automata after : EnclaveAutomata P} {result : Except (EnclaveAutomataError P) Unit}
      (before : Evolves start automata) (run : automata.init = .ok (after, result)) :
      Evolves start after
  | initPeerHandshake {automata after : EnclaveAutomata P} {peerId : Nat}
      {attestation : P.Attestation} {result : InitHandshakeResult P}
      (before : Evolves start automata)
      (run : automata.initPeerHandshake peerId attestation = .ok (after, result)) :
      Evolves start after
  | completePeerHandshake {automata after : EnclaveAutomata P} {peerId : Nat}
      {handshake : P.Handshake} {result : HandshakeResult P} (before : Evolves start automata)
      (run : automata.completePeerHandshake peerId handshake = .ok (after, result)) :
      Evolves start after
  | sign {automata after : EnclaveAutomata P} {hash : P.Hash}
      {result : Except (EnclaveAutomataError P) (P.Signature × Nat)}
      (before : Evolves start automata) (run : automata.sign hash = (after, result)) :
      Evolves start after
  | toss {automata after : EnclaveAutomata P} {proof : List (SignedVertex P)}
      {result : Except (EnclaveAutomataError P) Nat} (before : Evolves start automata)
      (run : automata.toss proof = .ok (after, result)) : Evolves start after

theorem Evolves.trans {first second third : EnclaveAutomata P} (left : first.Evolves second)
    (right : second.Evolves third) : first.Evolves third := by
  induction right with
  | refl => exact left
  | init _ run ih => exact ih.init run
  | initPeerHandshake _ run ih => exact ih.initPeerHandshake run
  | completePeerHandshake _ run ih => exact ih.completePeerHandshake run
  | sign _ run ih => exact ih.sign run
  | toss _ run ih => exact ih.toss run

end EnclaveAutomata

namespace Replica

variable {before after first second third replica next : Replica P} {sender creator : Nat}
  {env : Env} {vertex : Vertex P} {message : SignedMessage P} {history output : Output P}

structure Idles (before after : Replica P) : Prop extends Spares before after, Still before after

theorem Idles.refl (replica : Replica P) : Idles replica replica := ⟨.refl _, .refl _⟩

theorem Idles.trans (left : Idles first second) (right : Idles second third) : Idles first third :=
  ⟨left.toSpares.trans right.toSpares, left.toStill.trans right.toStill⟩

def rest (replica : Replica P) :=
  (replica.frame, replica.dag, replica.decidedWave, replica.enclave, replica.pendingClientRequests)

theorem idles_silent (rest : after.rest = before.rest)
    (broadcasts : after.output.output.broadcasts = before.output.output.broadcasts)
    (unicasts : after.output.output.unicasts = before.output.output.unicasts) :
    Idles before after := by
  simp only [Replica.rest, Prod.mk.injEq] at rest
  obtain ⟨frame, dag, decidedWave, enclave, requests⟩ := rest
  have me : after.me = before.me := congrArg (·.2.2.1) frame
  exact ⟨⟨frame, dag, decidedWave⟩, still_silent enclave requests me broadcasts unicasts⟩

theorem idles_sending {message : Message P} (rest : after.rest = before.rest)
    (broadcasts : after.output.output.broadcasts =
      before.output.output.broadcasts ++ [⟨before.me, message⟩])
    (unicasts : after.output.output.unicasts = before.output.output.unicasts)
    (none : message.vertex = none) : Idles before after := by
  simp only [Replica.rest, Prod.mk.injEq] at rest
  obtain ⟨frame, dag, decidedWave, enclave, requests⟩ := rest
  refine ⟨⟨frame, dag, decidedWave⟩, enclave, requests, ?_, congrArg (·.2.2.1) frame, ?_⟩
  · simp [signedBy, broadcasts, none]
  intro sent member
  simp only [Output.sent, broadcasts, unicasts, mem_append, mem_singleton] at member ⊢
  rcases member with (old | rfl) | direct
  · exact .inl (.inl old)
  · exact .inr rfl
  · exact .inl (.inr direct)

theorem idles_stateMessage (replica : Replica P) (message : StateMessage P) :
    Idles replica (replica.stateMessage message) := idles_silent rfl rfl rfl

theorem idles_unicast (replica : Replica P) (receiver : Nat) (message : Message P) :
    Idles replica (replica.unicast receiver message) := by
  by_cases itself : receiver = replica.output.me
  · refine idles_silent rfl ?_ ?_ <;> simp [unicast, UnreflectedOutput.unicast, itself]
  refine ⟨⟨rfl, rfl, rfl⟩, rfl, rfl, ?_, rfl, ?_⟩
  · simp [unicast, UnreflectedOutput.unicast, itself, signedBy]
  intro sent member
  simp only [Output.sent, unicast, UnreflectedOutput.unicast, itself, if_false, map_append,
    map_cons, map_nil, mem_append, mem_singleton] at member ⊢
  rcases member with old | old | rfl
  · exact .inl (.inl old)
  · exact .inl (.inr old)
  · exact .inr rfl

def advanced (replica : Replica P) : Replica P :=
  { replica with round := replica.round + 1, dag := replica.dag.newRound }.stateMessage
    (.roundTransition (replica.round + 1))

/-- A round transition decides a wave at its end, enters the next round and creates a vertex. -/
theorem roundTransition_cases (run : replica.roundTransition env = .ok next) :
    ∃ decided, (decided = replica ∨ (replica.round % 4 = 0 ∧ replica.waveReady env = .ok decided)) ∧
      decided.advanced.createVertex env false = .ok next := by
  simp only [roundTransition] at run
  split at run
  · next atEnd =>
    obtain ⟨decided, isDecided, run⟩ := bind_ok.mp run
    exact ⟨decided, .inr ⟨atEnd, isDecided⟩, run⟩
  · exact ⟨replica, .inl rfl, run⟩

def Loops (env : Env) (replica next : Replica P) : Prop :=
  ∃ traversed buffer inserts,
    traverseLoop env replica.vertexBuffer replica [] [] = .ok (traversed, buffer, inserts) ∧
      next = { traversed with vertexBuffer := buffer }

/-- The state in which `process_vertex` traverses the buffer. -/
def buffering (replica : Replica P) (vertex : Vertex P) : Replica P :=
  let replica := { replica with
    maxRounds := Function.update replica.maxRounds vertex.creator
      (max (replica.maxRounds vertex.creator) vertex.round)
    pendingVertices := replica.pendingVertices.erase vertex.address }
  let replica := replica.stateMessage (.bufferedVertex vertex.address)
  { replica with
    vertexBuffer := Heaps.insert (fun left right => left.address.le right.address) vertex
      replica.vertexBuffer }

/-- What `process_vertex` makes sure of before it buffers a vertex. -/
structure Accepts (replica : Replica P) (vertex : Vertex P) : Prop where
  unbuffered : knows Vertex.address vertex.address replica.vertexBuffer = false
  absent : replica.dag.lookup vertex.address = none
  valid : vertex.Valid replica.quorum

/-- One action of a replica. Only a traversal adds vertices to the graph, and a round is left only
once the graph has the replica's own vertex of it. -/
inductive Action : Replica P → Replica P → Prop
  | idles {before after : Replica P} (idles : Idles before after) : Action before after
  | calls {before : Replica P} {enclave : EnclaveAutomata P}
      (evolves : before.enclave.Evolves enclave) : Action before { before with enclave }
  | creates {env : Env} {before after : Replica P} {allowed : Bool}
      (run : before.createVertex env allowed = .ok after) : Action before after
  | buffers {before : Replica P} {vertex : Vertex P} (accepts : before.Accepts vertex) :
      Action before (before.buffering vertex)
  | loops {env : Env} {before after : Replica P} (loops : Loops env before after) :
      Action before after
  | decides {env : Env} {before after : Replica P} (run : before.waveReady env = .ok after) :
      Action before after
  | advances {before : Replica P} (own : (before.dag.lookup ⟨before.round, before.me⟩).isSome) :
      Action before before.advanced

abbrev Path : Replica P → Replica P → Prop := Relation.ReflTransGen Action

theorem Idles.path (idles : Idles before after) : Path before after := .single (.idles idles)

theorem Path.since (path : Path second third) (idles : Idles first second) : Path first third :=
  .head (.idles idles) path

theorem processHello_idles (replica : Replica P) (sender : Nat) (attestation : P.Attestation) :
    Idles replica (replica.processHello sender attestation) := by
  unfold processHello
  split
  · exact idles_stateMessage _ _
  · exact idles_sending rfl rfl rfl rfl

theorem processReady_idles (replica : Replica P) (sender : Nat) :
    Idles replica (replica.processReady sender) := by
  unfold processReady
  split
  · exact idles_stateMessage _ _
  · dsimp only
    split <;> exact idles_silent rfl rfl rfl

theorem processHelloReply_path {handshake : P.Handshake}
    (run : replica.processHelloReply sender handshake = .ok next) : Path replica next := by
  simp only [processHelloReply, bind_ok, Prod.exists] at run
  obtain ⟨enclave, result, called, run⟩ := run
  refine .head (.calls (.completePeerHandshake .refl called)) (Idles.path ?_)
  cases result with
  | duplicateReply => exact pure_ok.mp run ▸ idles_stateMessage _ _
  | invalidHandshakeEncryption => exact pure_ok.mp run ▸ idles_stateMessage _ _
  | missingAttestation => exact pure_ok.mp run ▸ idles_silent rfl rfl rfl
  | enclaveError error => exact pure_ok.mp run ▸ idles_stateMessage _ _
  | ok =>
    dsimp only at run
    split at run
    · cases pure_ok.mp run
      exact idles_sending rfl rfl rfl rfl
    · exact pure_ok.mp run ▸ idles_silent rfl rfl rfl

theorem startHandshake_path {attestation : P.Attestation}
    (run : replica.startHandshake sender creator attestation = .ok next) : Path replica next := by
  simp only [startHandshake, bind_ok, Prod.exists] at run
  obtain ⟨enclave, result, called, run⟩ := run
  refine .head (.calls (.initPeerHandshake .refl called)) ?_
  cases result with
  | duplicateHello => exact pure_ok.mp run ▸ (idles_stateMessage _ _).path
  | invalidAttestation => exact pure_ok.mp run ▸ (idles_stateMessage _ _).path
  | enclaveError error => exact pure_ok.mp run ▸ (idles_stateMessage _ _).path
  | ok handshake =>
    dsimp only at run
    have replied := (idles_stateMessage { replica with enclave }
      (.receivedHelloEcho sender creator)).trans (idles_unicast _ creator (.helloReply handshake))
    split at run
    · exact pure_ok.mp run ▸ replied.path
    · refine Path.since ?_ replied
      exact (processHelloReply_path run).since (idles_silent rfl rfl rfl)

theorem processHelloEcho_path {attestation : P.Attestation}
    (run : replica.processHelloEcho sender creator attestation = .ok next) : Path replica next := by
  have noted : ∀ helloMap, Idles replica { replica with helloMap } :=
    fun helloMap => idles_silent rfl rfl rfl
  unfold processHelloEcho at run
  split at run
  · exact pure_ok.mp run ▸ (idles_stateMessage _ _).path
  dsimp only at run
  split at run
  · exact pure_ok.mp run ▸ ((noted _).trans (idles_stateMessage _ _)).path
  split at run
  · exact pure_ok.mp run ▸ ((noted _).trans (idles_stateMessage _ _)).path
  split at run
  · exact pure_ok.mp run ▸ (noted _).path
  · exact (startHandshake_path run).since (noted _)

def askFor (replica : Replica P) (edge : DagAddress) : Replica P :=
  { (replica.broadcast (.vertexRequest edge)).stateMessage
      (.vertexRequest edge.round edge.creator) with
    pendingVertices := insert edge replica.pendingVertices }

theorem checkEdge_cases {add add' : Bool} {edge : DagAddress}
    (run : checkEdge (replica, add) edge = .ok (next, add')) :
    (next = replica ∨ next = replica.askFor edge) ∧
      (add' = true ↔ add = true ∧ (replica.dag.lookup edge).isSome) := by
  simp only [checkEdge, bind_ok, Dag.knows_ok] at run
  obtain ⟨known, ⟨_, rfl⟩, run⟩ := run
  split at run
  · next present =>
    obtain ⟨rfl, rfl⟩ := pair_ok.mp run
    simp [present]
  rename_i missing
  split at run
  · obtain ⟨rfl, rfl⟩ := pair_ok.mp run
    simp [missing]
  · obtain ⟨rfl, rfl⟩ := pair_ok.mp run
    exact ⟨.inr rfl, by simp [missing]⟩

/-- The check of the edges asks for what is missing, and a vertex is added exactly if all its
parents are known. -/
theorem checkEdges_spec {motive : Replica P → Prop} {add : Bool} (start : motive replica)
    (asks : ∀ current edge, motive current → motive (askFor current edge))
    (run : checkEdges env replica vertex = .ok (next, add)) :
    motive next ∧ next.dag = replica.dag ∧ (add = true ↔ ∀ edge ∈ vertex.edges, ∀ round,
      previousRound env.overflowChecks vertex.round = some round →
        (replica.dag.lookup ⟨round, edge⟩).isSome) := by
  suffices all : ∀ (edges : List Nat) (replica next : Replica P) (start add : Bool),
      motive replica → edges.foldlM (checkEdgeTo env vertex) (replica, start) = .ok (next, add) →
      motive next ∧ next.dag = replica.dag ∧ (add = true ↔ start = true ∧ ∀ edge ∈ edges, ∀ round,
        previousRound env.overflowChecks vertex.round = some round →
          (replica.dag.lookup ⟨round, edge⟩).isSome) by
    obtain ⟨kept, dag, adds⟩ := all vertex.edges.iter replica next true add start run
    refine ⟨kept, dag, adds.trans ?_⟩
    simp
  intro edges
  induction edges with
  | nil =>
    intro replica next start add kept run
    simp only [foldlM_nil, pair_ok] at run
    obtain ⟨rfl, rfl⟩ := run
    simpa using kept
  | cons edge rest ih =>
    intro replica next start add kept run
    simp only [foldlM_cons, bind_ok, Prod.exists] at run
    obtain ⟨middle, middleAdd, step, later⟩ := run
    cases previous : previousRound env.overflowChecks vertex.round with
    | none => simp [checkEdgeTo, previous] at step
    | some round =>
      simp only [checkEdgeTo, previous] at step
      obtain ⟨asked, stepAdds⟩ := checkEdge_cases step
      have stepKept : motive middle ∧ middle.dag = replica.dag := by
        rcases asked with rfl | rfl
        · exact ⟨kept, rfl⟩
        · exact ⟨asks _ _ kept, rfl⟩
      obtain ⟨restKept, restDag, restAdds⟩ := ih middle next middleAdd add stepKept.1 later
      refine ⟨restKept, restDag.trans stepKept.2, ?_⟩
      rw [restAdds, stepAdds, stepKept.2, previous]
      simp [and_assoc]

theorem checkEdges_idles {add : Bool} (run : checkEdges env replica vertex = .ok (next, add)) :
    Idles replica next :=
  (checkEdges_spec (Idles.refl replica)
    (fun _ _ idles => idles.trans (idles_sending rfl rfl rfl rfl)) run).1

theorem traverseLoop_stays (buffer : List (Vertex P)) (replica : Replica P) (kept : List (Vertex P))
    (inserts : List DagAddress) (next : Replica P) (kept' : List (Vertex P))
    (inserts' : List DagAddress)
    (run : traverseLoop env buffer replica kept inserts = .ok (next, kept', inserts')) :
    Stays replica next ∧ Still replica next ∧ next.decidedWave = replica.decidedWave := by
  induction buffer generalizing replica kept inserts next kept' inserts' with
  | nil =>
    simp only [traverseLoop, pair_ok] at run
    exact run.1 ▸ ⟨.refl _, .refl _, rfl⟩
  | cons vertex rest ih =>
    unfold traverseLoop at run
    split at run
    · rw [pair_ok] at run
      exact run.1 ▸ ⟨.refl _, .refl _, rfl⟩
    simp only [bind_ok, Prod.exists] at run
    obtain ⟨checked, add, isChecked, run⟩ := run
    have idles := checkEdges_idles isChecked
    split at run
    · obtain ⟨dag, inserted, run⟩ := bind_ok.mp run
      have placed : Stays checked { checked.stateMessage (.vertexAdded vertex.address) with dag } :=
        { Stays.refl checked with within := Dag.insert_within inserted }
      obtain ⟨stays, still, decidedWave⟩ := ih _ _ _ _ _ _ run
      exact ⟨(idles.stays.trans placed).trans stays, idles.toStill.trans { still with },
        decidedWave.trans idles.decidedWave⟩
    obtain ⟨stays, still, decidedWave⟩ := ih _ _ _ _ _ _ run
    exact ⟨idles.stays.trans stays, idles.toStill.trans still,
      decidedWave.trans idles.decidedWave⟩

theorem Loops.stays (loops : Loops env replica next) :
    Stays replica next ∧ Still replica next ∧ next.decidedWave = replica.decidedWave := by
  obtain ⟨traversed, buffer, inserts, isTraversed, rfl⟩ := loops
  obtain ⟨stays, still, decidedWave⟩ := traverseLoop_stays _ _ _ _ _ _ _ isTraversed
  exact ⟨{ stays with }, { still with }, decidedWave⟩

theorem answerRequests_idles {address : DagAddress}
    (run : replica.answerRequests address = .ok next) : Idles replica next := by
  refine foldlM_keeps (Idles replica) _ _ _ _ ?_ ?_ run
  · intro current receiver after _ idles step
    simp only [bind_ok, pure_ok] at step
    obtain ⟨_, _, vertex, _, rfl⟩ := step
    exact idles.trans (idles_unicast _ _ _)
  · exact idles_silent rfl rfl rfl

/-- A traversal loops over the buffer, answers requests and may enter the next round. -/
theorem traverseVertexBuffer_cases (run : replica.traverseVertexBuffer env = .ok next) :
    ∃ looped answered, Loops env replica looped ∧ Idles looped answered ∧
      (next = answered ∨ ((answered.dag.lookup ⟨answered.round, answered.me⟩).isSome ∧
        answered.roundTransition env = .ok next)) := by
  simp only [traverseVertexBuffer, bind_ok, Prod.exists, Dag.knows_ok] at run
  obtain ⟨traversed, buffer, inserts, isTraversed, answered, isAnswered, known, ⟨_, rfl⟩, run⟩ :=
    run
  have answers : Idles { traversed with vertexBuffer := buffer } answered :=
    foldlM_keeps (Idles _) _ _ _ _
      (fun _ _ _ _ idles step => idles.trans (answerRequests_idles step)) (Idles.refl _) isAnswered
  refine ⟨_, answered, ⟨traversed, buffer, inserts, isTraversed, rfl⟩, answers, ?_⟩
  split at run
  · next reached => exact .inr ⟨reached.1, run⟩
  · exact .inl (pure_ok.mp run).symm

theorem traverseVertexBuffer_path (run : replica.traverseVertexBuffer env = .ok next) :
    Path replica next := by
  obtain ⟨looped, answered, loops, idles, ending⟩ := traverseVertexBuffer_cases run
  have passed : Path replica answered := .tail (.single (.loops loops)) (.idles idles)
  rcases ending with rfl | ⟨own, transition⟩
  · exact passed
  obtain ⟨decided, isDecided, created⟩ := roundTransition_cases transition
  rcases isDecided with rfl | ⟨_, ready⟩
  · exact (passed.tail (.advances own)).tail (.creates created)
  have stays := (waveReady_marks ready).1.stays
  refine ((passed.tail (.decides ready)).tail (.advances ?_)).tail (.creates created)
  rw [stays.round, stays.me]
  exact stays.within _ own

theorem processVertex_cases (run : replica.processVertex env vertex = .ok next) :
    (¬ replica.Accepts vertex ∧ Quiet replica next ∧ Idles replica next) ∨
      (replica.Accepts vertex ∧
        (replica.buffering vertex).traverseVertexBuffer env = .ok next) := by
  unfold processVertex at run
  split at run
  · next buffered =>
    exact .inl ⟨fun accepts => Bool.false_ne_true (accepts.unbuffered.symm.trans buffered),
      pure_ok.mp run ▸ ⟨.refl _, .refl _⟩⟩
  rename_i unbuffered
  simp only [bind_ok, Dag.knows_ok] at run
  obtain ⟨known, ⟨_, rfl⟩, run⟩ := run
  split at run
  · next stored =>
    refine .inl ⟨fun accepts => ?_, pure_ok.mp run ▸ ⟨.refl _, .refl _⟩⟩
    rw [accepts.absent] at stored
    cases stored
  rename_i absent
  simp only [Vertex.edgesValid, decide_eq_true_eq, not_le] at run
  split at run
  · next invalid =>
    refine .inl ⟨fun accepts => ?_, pure_ok.mp run ▸
      ⟨quiet_stateMessage _ _ rfl rfl, idles_stateMessage _ _⟩⟩
    exact absurd (accepts.valid.1 invalid.1) (ne_of_gt invalid.2)
  rename_i first
  split at run
  · next invalid =>
    refine .inl ⟨fun accepts => ?_, pure_ok.mp run ▸
      ⟨quiet_stateMessage _ _ rfl rfl, idles_stateMessage _ _⟩⟩
    exact absurd (accepts.valid.2 invalid.1) (Nat.not_le.mpr invalid.2)
  rename_i dense
  refine .inr ⟨⟨Bool.eq_false_iff.mpr unbuffered, by simpa using absent, ?_⟩, run⟩
  simp only [not_and, not_lt, Nat.le_zero] at first dense
  exact ⟨first, dense⟩

theorem processVertex_path (run : replica.processVertex env vertex = .ok next) :
    Path replica next := by
  rcases processVertex_cases run with ⟨_, _, idles⟩ | ⟨accepts, traversed⟩
  · exact idles.path
  · exact .head (.buffers accepts) (traverseVertexBuffer_path traversed)

theorem requestGap_idles (run : replica.requestGap env message = .ok next) :
    Idles replica next := by
  unfold requestGap at run
  split at run
  · cases run
  dsimp only at run
  split at run
  · exact pure_ok.mp run ▸ Idles.refl _
  · exact pure_ok.mp run ▸ idles_sending rfl rfl rfl rfl

theorem drainBuffer_path (fuel : Nat) (replica next : Replica P)
    (run : drainBuffer env creator fuel replica = .ok next) : Path replica next := by
  induction fuel generalizing replica next with
  | zero => cases run
  | succ fuel ih =>
    unfold drainBuffer at run
    split at run
    · exact pure_ok.mp run ▸ .refl
    split at run
    · exact (requestGap_idles run).path
    obtain ⟨processed, isProcessed, run⟩ := bind_ok.mp run
    have first : Path replica processed :=
      (processVertex_path isProcessed).since (idles_silent rfl rfl rfl)
    exact first.trans ((ih _ _ run).since (idles_silent rfl rfl rfl))

theorem processSignedMessage_path
    (run : replica.processSignedMessage env sender message = .ok next) : Path replica next := by
  unfold processSignedMessage at run
  dsimp only at run
  split at run
  · exact pure_ok.mp run ▸ (idles_stateMessage _ _).path
  split at run
  · exact pure_ok.mp run ▸ (idles_stateMessage _ _).path
  split at run
  · exact pure_ok.mp run ▸ (idles_stateMessage _ _).path
  split at run
  · exact pure_ok.mp run ▸ .refl
  split at run
  · exact pure_ok.mp run ▸ .refl
  obtain ⟨verified, _, run⟩ := bind_ok.mp run
  split at run
  · exact pure_ok.mp run ▸ (idles_stateMessage _ _).path
  · exact pure_ok.mp run ▸ .refl
  split at run
  · exact pure_ok.mp run ▸ Idles.path (idles_silent rfl rfl rfl)
  · exact (drainBuffer_path _ _ _ run).since (idles_silent rfl rfl rfl)

theorem processVertexRequest_idles {address : DagAddress}
    (run : replica.processVertexRequest sender address = .ok next) : Idles replica next := by
  unfold processVertexRequest at run
  split at run
  · exact pure_ok.mp run ▸ Idles.refl _
  obtain ⟨slot, _, run⟩ := bind_ok.mp run
  split at run
  · exact pure_ok.mp run ▸ idles_unicast _ _ _
  · exact pure_ok.mp run ▸ idles_silent rfl rfl rfl

theorem dispatch_path {message : PeerMessage P} (run : replica.dispatch env message = .ok next) :
    Path replica next := by
  unfold dispatch at run
  split at run
  · exact pure_ok.mp run ▸ (idles_stateMessage _ _).path
  split at run
  · exact pure_ok.mp run ▸ (processHello_idles ..).path
  · exact processHelloEcho_path run
  · exact processHelloReply_path run
  · exact pure_ok.mp run ▸ (processReady_idles ..).path
  · exact processSignedMessage_path run
  · exact (processVertexRequest_idles run).path

structure Upheld (holds : Output P → Replica P → Prop) : Prop where
  action : ∀ {history before after}, Action before after → holds history before →
    holds history after
  take : ∀ {history replica}, holds history replica → holds (total history replica) replica.taken

namespace Upheld

variable {holds : Output P → Replica P → Prop} (keeps : Upheld holds)
include keeps

theorem path (path : Path before after) (held : holds history before) : holds history after := by
  induction path with
  | refl => exact held
  | tail _ action ih => exact keeps.action action ih

theorem reflects (env : Env) : Reflects env holds (fun _ _ => True) where
  dispatch := fun _ _ _ _ held _ run => keeps.path (dispatch_path run) held
  take := fun _ _ held => ⟨keeps.take held, fun _ _ => trivial⟩
  later := fun _ _ _ _ => trivial

theorem initHandshake (run : replica.initHandshake env = .ok (next, output))
    (held : holds history replica) : holds (history.append output) next := by
  simp only [Replica.initHandshake, bind_ok, Prod.exists] at run
  obtain ⟨_, _, enclave, result, init, run⟩ := run
  have called := keeps.action (.calls (.init .refl init)) held
  cases result with
  | error error =>
    refine reflect_keeps (keeps.reflects env) (keeps.action (.idles ?_) called) run
    exact idles_stateMessage _ _
  | ok _ =>
    simp only at run
    split at run
    · refine reflect_keeps (keeps.reflects env) (keeps.action (.idles ?_) called) run
      exact idles_stateMessage _ _
    · refine reflect_keeps (keeps.reflects env) (keeps.action (.idles ?_) called) run
      exact idles_sending rfl rfl rfl rfl

theorem processPeerMessage {fuel : Nat} {message : PeerMessage P}
    (run : replica.processPeerMessage env fuel message = .ok (next, output))
    (held : holds history replica) : holds (history.append output) next :=
  processPeerMessage_keeps (keeps.reflects env) _ _ _ _ _ _ held trivial run

theorem receiveClientRequest {tx : P.Tx}
    (run : replica.receiveClientRequest env tx = .ok (next, output))
    (stored : holds history { replica with
      pendingClientRequests := replica.pendingClientRequests.insert tx }) :
    holds (history.append output) next := by
  simp only [Replica.receiveClientRequest] at run
  split at run
  · obtain ⟨created, create, run⟩ := bind_ok.mp run
    exact reflect_keeps (keeps.reflects env) (keeps.action (.creates create) stored) run
  · exact reflect_keeps (keeps.reflects env) stored run

theorem processVertexTimeout (run : replica.processVertexTimeout env = .ok (next, output))
    (held : holds history replica) : holds (history.append output) next := by
  unfold Replica.processVertexTimeout at run
  split at run
  · obtain ⟨created, create, run⟩ := bind_ok.mp run
    exact reflect_keeps (keeps.reflects env) (keeps.action (.creates create) held) run
  · exact reflect_keeps (keeps.reflects env) held run

end Upheld

theorem Action.moves (action : Action before after) : Moves before after := by
  cases action with
  | idles idles => exact idles.moves
  | calls => exact Spares.moves ⟨rfl, rfl, rfl⟩
  | creates run => exact (createVertex_spares run).moves
  | loops loops => exact loops.stays.1.moves
  | decides run => exact (waveReady_marks run).1.stays.moves
  | @buffers _ vertex accepts =>
    refine Stays.moves ⟨⟨rfl, rfl, rfl, rfl, rfl, rfl, fun id => ?_, Dag.within_refl _⟩, rfl⟩
    show _ ≤ Function.update before.maxRounds vertex.creator _ id
    by_cases same : id = vertex.creator
    · subst same
      rw [Function.update_self]
      exact Nat.le_max_left _ _
    · rw [Function.update_of_ne same]
  | advances own =>
    have within : before.dag.Within before.dag.newRound :=
      (Dag.sameVertices_newRound before.dag).within
    refine ⟨⟨rfl, rfl, rfl, rfl, rfl, rfl, fun _ => le_rfl, within⟩, Nat.le_succ _, ?_⟩
    -- the one round that is left is the one of which the own vertex is known
    intro round low high
    obtain rfl : round = before.round := le_antisymm (Nat.lt_succ_iff.mp high) low
    exact within _ own

theorem Path.moves (path : Path before after) : Moves before after := by
  induction path with
  | refl => exact .refl _
  | tail _ action moves => exact moves.trans action.moves

theorem upheld_moves (start : Replica P) : Upheld fun _ replica => Moves start replica where
  action := fun action moves => moves.trans action.moves
  take := fun moves => moves.trans (Spares.moves ⟨rfl, rfl, rfl⟩)

theorem initHandshake_moves (run : replica.initHandshake env = .ok (next, output)) :
    Moves replica next :=
  @Upheld.initHandshake P _ _ _ Output.empty _ _ (upheld_moves replica) run (.refl _)

theorem receiveClientRequest_moves {tx : P.Tx}
    (run : replica.receiveClientRequest env tx = .ok (next, output)) : Moves replica next :=
  @Upheld.receiveClientRequest P _ _ _ Output.empty _ _ (upheld_moves replica) _ run
    (Spares.moves ⟨rfl, rfl, rfl⟩)

theorem processVertexTimeout_moves (run : replica.processVertexTimeout env = .ok (next, output)) :
    Moves replica next :=
  @Upheld.processVertexTimeout P _ _ _ Output.empty _ _ (upheld_moves replica) run (.refl _)

end Replica

open Replica in
/-- What every replica keeps holds at the correct ones after an event, since only the replica that
is called changes. -/
theorem Step.keeps {holds : Nat → Output P → Replica P → Prop} (keeps : ∀ id, Upheld (holds id))
    {setup : Setup P} {world next : World P} {event : Event P}
    (held : ∀ id ∈ setup.correct, holds id (world.history id) (world.replicas id))
    (stored : ∀ id env tx, event = .request id env tx → ∀ history replica,
      holds id history replica → holds id history { replica with
        pendingClientRequests := replica.pendingClientRequests.insert tx })
    (step : Step setup world event next) :
    ∀ id ∈ setup.correct, holds id (next.history id) (next.replicas id) := by
  have acted : ∀ changed (replica : Replica P) (output : Output P),
      holds changed ((world.history changed).append output) replica →
      ∀ id ∈ setup.correct, holds id ((world.acted changed replica output).history id)
        ((world.acted changed replica output).replicas id) := by
    intro changed replica output kept id correct
    by_cases same : id = changed
    · subst same
      simpa only [World.acted, Function.update_self] using kept
    · simpa only [World.acted, Function.update_of_ne same] using held id correct
  cases step with
  | init correct run => exact acted _ _ _ ((keeps _).initHandshake run (held _ correct))
  | deliver correct _ _ _ run =>
    exact acted _ _ _ ((keeps _).processPeerMessage run (held _ correct))
  | request correct run =>
    exact acted _ _ _ ((keeps _).receiveClientRequest run (stored _ _ _ rfl _ _ (held _ correct)))
  | timeout correct run => exact acted _ _ _ ((keeps _).processVertexTimeout run (held _ correct))
  | launch => exact held
  | call => exact held

end Abcperf.Nxbft
