import Abcperf.Nxbft.Handshake

/-! Every call of a replica keeps its invariant and hands out all pending output. -/

namespace Abcperf.Nxbft

open Lib Lib.Outcome

variable {P : Platform}

namespace Replica

variable {issued : P.Attestation → Vertex P → Prop}
  {heard : Nat → Nat → P.Attestation → Prop} {config : Config P}

/-- The messages a replica may process: their signatures are not forged and the echoes are from
the replica they name. -/
structure Admits (issued : P.Attestation → Vertex P → Prop)
    (heard : Nat → Nat → P.Attestation → Prop) (config : Config P) (history : Output P)
    (message : PeerMessage P) : Prop where
  authentic : ∀ vertex, message.message.vertex = some vertex →
    Authentic issued (factsOf history) config.enclave vertex
  echoed : ∀ creator attestation, message.message.echo = some (creator, attestation) →
    Echoed heard history config.me message.sender creator attestation

theorem signed_append (first second : Output P) :
    ∀ vertex ∈ (factsOf first).signed, vertex ∈ (factsOf (first.append second)).signed := by
  intro vertex member
  rw [factsOf_append]
  exact List.mem_append_left _ member

variable {history output : Output P} {message : PeerMessage P} {env : Env}
  {replica next : Replica P}

theorem Admits.later (admitted : Admits issued heard config history message) (output : Output P) :
    Admits issued heard config (history.append output) message where
  authentic := fun vertex carries =>
    (admitted.authentic vertex carries).mono (signed_append history output)
  echoed := by
    intro creator attestation isEcho
    obtain ⟨own, others⟩ := admitted.echoed creator attestation isEcho
    exact ⟨fun isMe => (mem_echoesOf_append ..).mpr (.inl (own isMe)), others⟩

theorem dispatch_healthy [Secure P] (healthy : Healthy issued heard config history replica)
    (admitted : Admits issued heard config (replica.total history) message)
    (run : replica.dispatch env message = .ok next) : Healthy issued heard config history next := by
  unfold dispatch at run
  split at run
  · exact pure_ok.mp run ▸ (quiet_stateMessage _ _ rfl rfl).healthy healthy
  rename_i inRange
  rw [not_le] at inRange
  obtain ⟨sender, body⟩ := message
  cases body with
  | hello attestation =>
    simp only [pure_ok] at run
    exact run ▸ processHello_healthy healthy
  | helloEcho creator attestation =>
    have echoed := admitted.echoed creator attestation rfl
    rw [← healthy.own.me] at echoed
    exact processHelloEcho_healthy healthy inRange echoed run
  | helloReply handshake => exact processHelloReply_healthy healthy run
  | ready =>
    simp only [pure_ok] at run
    exact run ▸ (processReady_quiet replica sender).healthy healthy
  | signed wrapped =>
    have authentic := admitted.authentic wrapped.payload rfl
    rw [← healthy.own.key] at authentic
    obtain ⟨working, kept⟩ :=
      processSignedMessage_working healthy.working authentic run
    exact ⟨working, kept.handshake healthy.handshake, kept.own healthy.own⟩
  | vertexRequest address =>
    exact (processVertexRequest_quiet healthy.working.sound.graph.ledger.wellFormed run).healthy
      healthy

theorem factsOf_append_empty (history : Output P) :
    factsOf (history.append Output.empty) = factsOf history := by
  simp [factsOf, Output.empty, Output.append, signedBy, leadersOf, orderOf]

theorem mem_echoesOf_append_empty (history : Output P) (echo : Nat × P.Attestation) :
    echo ∈ echoesOf (history.append Output.empty) ↔ echo ∈ echoesOf history := by
  simp

theorem take_healthy (healthy : Healthy issued heard config history replica) :
    Healthy issued heard config (replica.total history) replica.taken ∧
      ∀ message ∈ replica.output.reflectionMessages,
        Admits issued heard config (replica.total history) message := by
  have facts : factsOf (replica.taken.total (replica.total history)) =
      factsOf (replica.total history) := factsOf_append_empty _
  have echoes : ∀ echo, echo ∈ echoesOf (replica.taken.total (replica.total history)) ↔
      echo ∈ echoesOf (replica.total history) := mem_echoesOf_append_empty _
  have sameCore : replica.taken.core = replica.core := rfl
  obtain ⟨log, logs⟩ := healthy.working.logs
  have inv := healthy.handshake
  refine ⟨⟨⟨⟨?_, ?_⟩, healthy.working.settled, log, ?_⟩, { inv with
      echoed := ?_, unique := ?_, reflected := fun _ member => (by cases member), collected := ?_ },
    { healthy.own with }⟩, ?_⟩
  · rw [facts, ← graphInv_core, sameCore, graphInv_core]
    exact healthy.working.sound.graph
  · intro message member
    rw [facts]
    obtain ⟨sent, isSent, rfl⟩ := List.mem_map.mp ((List.mem_append.mp member).resolve_left nofun)
    rcases List.mem_append.mp isSent with returned | pending
    · exact healthy.working.sound.told _ (List.mem_append_right _ (List.mem_map_of_mem returned))
    · cases pending
  · rw [facts]
    exact { logs with }
  · intro creator attestation echoed
    exact inv.echoed creator attestation ((echoes _).mp echoed)
  · intro creator left right isLeft isRight
    exact inv.unique creator left right ((echoes _).mp isLeft) ((echoes _).mp isRight)
  · intro creator attestation echos found sender member
    obtain ⟨inRange, own, others⟩ := inv.collected creator attestation echos found sender member
    exact ⟨inRange, fun isMe => (echoes _).mpr (own isMe), others⟩
  intro message member
  refine ⟨fun vertex carries => ?_, fun creator attestation isEcho => ?_⟩
  · rw [← healthy.own.key]
    exact healthy.working.sound.told message (List.mem_append_left _ member) vertex carries
  · obtain ⟨isMe, known⟩ := inv.reflected message member _ isEcho
    exact ⟨fun _ => known, fun other => absurd (isMe.trans healthy.own.me) other⟩

theorem reflects_healthy [Secure P] (env : Env) :
    Reflects env (Healthy issued heard config) (Admits issued heard config) where
  dispatch := fun _ replica _ _ healthy admitted run =>
    dispatch_healthy healthy (admitted.later replica.output.output) run
  take := fun _ _ healthy => take_healthy healthy
  later := fun _ output _ admitted => admitted.later output

def Idle (replica : Replica P) : Prop := ∃ me, replica.output = .new me

theorem reflectWith_idle {process : Replica P → PeerMessage P → Outcome (Replica P × Output P)}
    (each : ∀ replica message next output, process replica message = .ok (next, output) → next.Idle)
    (run : replica.reflectWith process = .ok (next, output)) : next.Idle := by
  refine foldlM_keeps (fun state : Replica P × Output P => state.1.Idle) _ _ _ _ ?_
    ⟨replica.me, rfl⟩ run
  rintro ⟨current, collected⟩ message ⟨after, joined⟩ _ _ step
  simp only [bind_ok, pair_ok, Prod.exists] at step
  obtain ⟨after', more, processed, rfl, rfl⟩ := step
  exact each _ _ _ _ processed

theorem processPeerMessage_idle (fuel : Nat) (replica : Replica P) (message : PeerMessage P)
    (next : Replica P) (output : Output P)
    (run : replica.processPeerMessage env fuel message = .ok (next, output)) : next.Idle := by
  induction fuel generalizing replica message next output with
  | zero => cases run
  | succ fuel ih =>
    simp only [processPeerMessage, bind_ok] at run
    obtain ⟨handled, _, reflected⟩ := run
    exact reflectWith_idle ih reflected

section

variable [Secure P] (healthy : Healthy issued heard config history replica)

include healthy

theorem reflect_healthy (run : replica.reflect env = .ok (next, output)) :
    Healthy issued heard config (history.append output) next ∧ next.Idle :=
  ⟨reflect_keeps (reflects_healthy env) healthy run,
    reflectWith_idle (processPeerMessage_idle env.fuel) run⟩

theorem processPeerMessage_healthy {fuel : Nat}
    (admitted : Admits issued heard config history message)
    (run : replica.processPeerMessage env fuel message = .ok (next, output)) :
    Healthy issued heard config (history.append output) next ∧ next.Idle :=
  ⟨processPeerMessage_keeps (reflects_healthy env) fuel history replica message next output
    healthy admitted run, processPeerMessage_idle fuel replica message next output run⟩

theorem initHandshake_healthy (run : replica.initHandshake env = .ok (next, output)) :
    Healthy issued heard config (history.append output) next ∧ next.Idle := by
  simp only [initHandshake, bind_ok, Prod.exists] at run
  obtain ⟨_, _, enclave, result, initialised, run⟩ := run
  obtain ⟨step, peers⟩ := EnclaveAutomata.init_step initialised
  have stepped := enclave_healthy healthy step (fun peer => by rw [peers])
  cases result with
  | error error =>
    exact reflect_healthy ((quiet_stateMessage _ _ rfl rfl).healthy stepped) run
  | ok _ =>
    simp only at run
    split at run
    · exact reflect_healthy ((quiet_stateMessage _ _ rfl rfl).healthy stepped) run
    · exact reflect_healthy ((quiet_broadcast _ _ rfl rfl).healthy stepped) run

theorem createVertex_healthy {allowed : Bool} (run : replica.createVertex env allowed = .ok next) :
    Healthy issued heard config history next := by
  have built := createVertex_builds healthy.working.sound run
  have kept := built.kept.toHandshakeKept
  exact ⟨built.working ((createVertex_spares run).settled healthy.working.settled) healthy.working,
    kept.handshake healthy.handshake, kept.own healthy.own⟩

theorem receiveClientRequest_healthy {tx : P.Tx}
    (run : replica.receiveClientRequest env tx = .ok (next, output)) :
    Healthy issued heard config (history.append output) next ∧ next.Idle := by
  have stored : Healthy issued heard config history { replica with
      pendingClientRequests := replica.pendingClientRequests.insert tx } := by
    refine Quiet.healthy ?_ healthy
    exact quiet_fields _ _ rfl rfl
  simp only [receiveClientRequest] at run
  split at run
  · obtain ⟨created, create, run⟩ := bind_ok.mp run
    exact reflect_healthy (createVertex_healthy stored create) run
  · exact reflect_healthy stored run

theorem processVertexTimeout_healthy (run : replica.processVertexTimeout env = .ok (next, output)) :
    Healthy issued heard config (history.append output) next ∧ next.Idle := by
  unfold processVertexTimeout at run
  split at run
  · obtain ⟨created, create, run⟩ := bind_ok.mp run
    exact reflect_healthy (createVertex_healthy healthy create) run
  · exact reflect_healthy healthy run

end

theorem new_graphInv (issued : P.Attestation → Vertex P → Prop)
    (run : Replica.new config = .ok replica) : GraphInv issued ⟨[], [], [], []⟩ replica := by
  simp only [new, bind_ok, assert_ok, pure_ok] at run
  obtain ⟨_, _, _, _, _, _, _, _, rfl⟩ := run
  have vacant := Dag.lookup_new (P := P) config.n
  refine ⟨⟨Dag.wellFormed_new _ _, ?_, ordered_empty _, ?_, le_rfl, ?_⟩, ?_, rfl, rfl, rfl, rfl,
    ?_, ?_, ?_, ?_, List.Pairwise.nil, ?_, ?_, ?_⟩
  · exact ⟨fun impossible => absurd impossible (lt_irrefl 0),
      fun impossible => absurd impossible (lt_irrefl 0), rfl⟩
  · rintro address ⟨entry, found, _⟩
    cases (vacant address).symm.trans found
  · intro wave tossed found
    cases found
  · intro address entry found
    cases (vacant address).symm.trans found
  · intro peer attestation old complete
    cases complete
  · exact fun _ => ⟨rfl, rfl, fun _ => rfl⟩
  · intro rng isRng
    cases isRng
  · intro vertex member
    cases member
  · intro vertex member
    cases member
  · intro creator message member
    cases member
  rintro vertex (member | ⟨entry, found, _⟩)
  · cases member
  · cases (vacant vertex.address).symm.trans found

theorem new_idle (run : Replica.new config = .ok replica) :
    replica.Idle ∧ config.me < config.n := by
  simp only [new, bind_ok, assert_ok, pure_ok] at run
  obtain ⟨_, _, _, inRange, _, _, _, _, rfl⟩ := run
  exact ⟨⟨config.me, rfl⟩, inRange⟩

theorem new_healthy (run : Replica.new config = .ok replica) :
    Healthy issued heard config Output.empty replica := by
  have graph := new_graphInv issued run
  simp only [new, bind_ok, assert_ok, pure_ok] at run
  obtain ⟨_, _, _, _, _, _, _, _, rfl⟩ := run
  refine ⟨⟨⟨graph, fun _ member => (by cases member)⟩, Nat.one_pos, fun _ => [], ?_⟩, ?_,
    ⟨rfl, rfl, rfl⟩⟩
  · refine ⟨fun _ => rfl, fun _ _ _ found => (by cases found), fun vertex => ⟨?_, ?_⟩⟩
    · rintro (member | ⟨entry, found, _⟩)
      · cases member
      · cases (Dag.lookup_new config.n vertex.address).symm.trans found
    · intro wins
      cases wins.mem.1
  exact ⟨fun _ _ echoed => (by cases echoed), fun _ _ _ echoed => (by cases echoed),
    fun _ member => (by cases member), fun _ _ _ found => (by cases found),
    fun _ _ found => (by cases found)⟩

end Replica

end Abcperf.Nxbft
