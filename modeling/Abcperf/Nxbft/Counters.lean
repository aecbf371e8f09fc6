import Abcperf.Nxbft.Building

/-! The messages of one creator are processed in the order of their counters and without a gap, and
of the valid vertices of a round only the first one is held. -/

namespace Abcperf.Nxbft

open Lib Lib.Outcome Function List

variable {P : Platform}

namespace Replica

variable {issued : P.Attestation → Vertex P → Prop}

/-- `log creator` is what was processed of `creator`: one message for each counter up to the next
expected one. It decides which vertices are held. -/
structure Logs (issued : P.Attestation → Vertex P → Prop) (facts : Facts P)
    (replica : Replica P) (log : Nat → List (Vertex P)) : Prop where
  length : ∀ creator, (log creator).length = replica.expectedCounters creator
  entry : ∀ (creator index : Nat) vertex, (log creator)[index]? = some vertex →
    vertex.creator = creator ∧ vertex.counter = index ∧ Verified issued facts replica vertex
  held : ∀ vertex, replica.Held vertex ↔
    FirstWins (Vertex.Valid replica.quorum) Vertex.round (log vertex.creator) vertex

/-- The invariant of a replica in its own right. -/
structure Working (issued : P.Attestation → Vertex P → Prop) (history : Output P)
    (replica : Replica P) : Prop where
  sound : Sound issued history replica
  settled : replica.Settled
  logs : ∃ log, Logs issued (factsOf (replica.total history)) replica log

variable {facts facts' : Facts P} {replica next before after : Replica P} {vertex : Vertex P}
  {log : Nat → List (Vertex P)} {history : Output P} {env : Env} {message : SignedMessage P}

theorem Verified.mono (verified : Verified issued facts replica vertex)
    (peers : ∀ attestation, replica.enclave.peers vertex.creator =
      .handshakeComplete attestation P.ranges.new →
      next.enclave.peers vertex.creator = .handshakeComplete attestation P.ranges.new)
    (key : next.enclave.enclave = replica.enclave.enclave)
    (more : ∀ vertex ∈ facts.signed, vertex ∈ facts'.signed) :
    Verified issued facts' next vertex := by
  obtain ⟨attestation, complete, logged⟩ := verified
  exact ⟨attestation, peers attestation complete, key ▸ logged.mono more⟩

theorem Logs.mono (logs : Logs issued facts replica log)
    (peers : ∀ peer attestation,
      replica.enclave.peers peer = .handshakeComplete attestation P.ranges.new →
      next.enclave.peers peer = .handshakeComplete attestation P.ranges.new)
    (key : next.enclave.enclave = replica.enclave.enclave) (quorum : next.quorum = replica.quorum)
    (expected : next.expectedCounters = replica.expectedCounters)
    (held : ∀ vertex, next.Held vertex ↔ replica.Held vertex)
    (more : ∀ vertex ∈ facts.signed, vertex ∈ facts'.signed) : Logs issued facts' next log where
  length := by
    rw [expected]
    exact logs.length
  entry := by
    intro creator index vertex found
    obtain ⟨named, counted, verified⟩ := logs.entry creator index vertex found
    exact ⟨named, counted, verified.mono (peers vertex.creator) key more⟩
  held := by
    intro vertex
    rw [held, quorum]
    exact logs.held vertex

theorem HandshakeKept.more (kept : HandshakeKept before after) :
    ∀ vertex ∈ (factsOf (before.total history)).signed,
      vertex ∈ (factsOf (after.total history)).signed := by
  intro vertex member
  simp only [factsOf, total, signedBy_append, mem_append] at member ⊢
  exact member.imp_right (kept.signed vertex)

theorem Builds.working (builds : Builds issued history before after) (settled : after.Settled)
    (working : Working issued history before) : Working issued history after := by
  obtain ⟨log, logs⟩ := working.logs
  have kept := builds.kept
  refine ⟨builds.sound, settled, log,
    logs.mono ?_ kept.key kept.quorum kept.expected builds.held kept.more⟩
  rw [kept.peers]
  exact fun _ _ complete => complete

theorem Quiet.settled (quiet : Quiet before after) (sameRound : after.round = before.round)
    (settled : before.Settled) : after.Settled := by
  have wave : after.decidedWave = before.decidedWave := quiet.field Replica.decidedWave
  unfold Settled
  rw [wave, sameRound]
  exact settled

theorem Quiet.working (quiet : Quiet before after) (working : Working issued history before) :
    Working issued history after :=
  (quiet.builds working.sound).working (quiet.settled (quiet.field Replica.round) working.settled)
    working

theorem buffer_builds (sound : Sound issued history replica) (valid : vertex.Valid replica.quorum)
    (authentic : Authentic issued (factsOf (replica.total history)) replica.enclave.enclave vertex)
    {vertexBuffer : List (Vertex P)}
    (members : ∀ other, other ∈ vertexBuffer ↔ other = vertex ∨ other ∈ replica.vertexBuffer) :
    Sound issued history { replica with vertexBuffer } ∧
      ∀ other, Held { replica with vertexBuffer } other ↔ replica.Held other ∨ other = vertex := by
  have inv := sound.graph
  have held : ∀ other, Held { replica with vertexBuffer } other ↔ replica.Held other ∨
      other = vertex := by
    intro other
    simp only [Held, members]
    rw [or_assoc, or_comm]
  refine ⟨⟨{ inv with ledger := { inv.ledger with }, held := ?_ }, sound.told⟩, held⟩
  intro other isHeld
  rcases (held other).mp isHeld with before | rfl
  · exact inv.held other before
  · exact ⟨valid, authentic⟩

theorem accept_held [Secure P] (sound : Sound issued history replica) (settled : replica.Settled)
    (authentic : Authentic issued (factsOf (replica.total history)) replica.enclave.enclave vertex)
    (valid : vertex.Valid replica.quorum) (run : traverseVertexBuffer env { replica with
      vertexBuffer := Heaps.insert (fun left right => left.address.le right.address) vertex
        replica.vertexBuffer } = .ok next) :
    Sound issued history next ∧ next.Settled ∧ Kept replica next ∧
      ∀ other, next.Held other ↔ replica.Held other ∨ other = vertex := by
  obtain ⟨added, held⟩ := buffer_builds sound valid authentic
    (fun other => Heaps.mem_insert (fun left right => left.address.le right.address) vertex other
      replica.vertexBuffer)
  obtain ⟨built, isSettled⟩ := traverseVertexBuffer_builds added settled run
  have kept : Kept replica { replica with
      vertexBuffer := Heaps.insert (fun left right => left.address.le right.address) vertex
        replica.vertexBuffer } := { Kept.refl replica with }
  refine ⟨built.sound, isSettled, kept.trans built.kept, ?_⟩
  intro other
  rw [built.held, held]

def Fresh (replica : Replica P) (vertex : Vertex P) : Prop :=
  vertex.Valid replica.quorum ∧ ∀ holder, replica.Held holder → holder.address ≠ vertex.address

theorem fresh_iff (wellFormed : replica.dag.WellFormed replica.quorum) :
    replica.Fresh vertex ↔ replica.Accepts vertex := by
  constructor
  · rintro ⟨valid, fresh⟩
    refine ⟨(Heaps.not_knows_iff ..).mpr fun holder member => fresh holder (.inl member), ?_, valid⟩
    by_contra stored
    obtain ⟨entry, found⟩ := Option.ne_none_iff_exists'.mp stored
    have named := (wellFormed.slot _ entry found).1
    exact fresh entry.vertex (.inr ⟨entry, named.symm ▸ found, rfl⟩) named
  rintro ⟨unbuffered, absent, valid⟩
  refine ⟨valid, ?_⟩
  rintro holder (member | ⟨entry, found, _⟩) same
  · exact (Heaps.not_knows_iff ..).mp unbuffered holder member same
  · cases absent.symm.trans (same ▸ found)

theorem processVertex_held [Secure P] (sound : Sound issued history replica)
    (settled : replica.Settled)
    (authentic : Authentic issued (factsOf (replica.total history)) replica.enclave.enclave vertex)
    (run : replica.processVertex env vertex = .ok next) :
    Sound issued history next ∧ next.Settled ∧ Kept replica next ∧
      ∀ other, next.Held other ↔ replica.Held other ∨ (other = vertex ∧ replica.Fresh vertex) := by
  rw [fresh_iff sound.graph.ledger.wellFormed]
  rcases processVertex_cases run with ⟨refused, quiet, idles⟩ | ⟨accepts, traversed⟩
  · refine ⟨quiet.sound sound, idles.toSpares.settled settled, quiet.kept, fun other => ?_⟩
    rw [quiet.held]
    exact ⟨.inl, fun isHeld => isHeld.elim id fun new => absurd new.2 refused⟩
  have quiet := (quiet_fields replica { replica with
    maxRounds := update replica.maxRounds vertex.creator
      (max (replica.maxRounds vertex.creator) vertex.round)
    pendingVertices := replica.pendingVertices.erase vertex.address } rfl rfl).trans
    (quiet_stateMessage _ (.bufferedVertex vertex.address) rfl rfl)
  obtain ⟨isSound, isSettled, kept, held⟩ := accept_held (quiet.sound sound) settled
    (factsOf_total history quiet.facts ▸ authentic) accepts.valid traversed
  refine ⟨isSound, isSettled, quiet.kept.trans kept, fun other => ?_⟩
  rw [held, quiet.held]
  exact or_congr_right ⟨fun same => ⟨same, accepts⟩, And.left⟩

theorem buffers_sound (sound : Sound issued history replica)
    {nonEquivocationMessageBuffers : Nat → List (SignedMessage P)}
    (each : ∀ creator, ∀ message ∈ nonEquivocationMessageBuffers creator,
      message ∈ replica.nonEquivocationMessageBuffers creator ∨ (message.creator = creator ∧
        Verified issued (factsOf (replica.total history)) replica message.payload ∧
        Authentic issued (factsOf (replica.total history)) replica.enclave.enclave
          message.payload)) :
    Sound issued history { replica with nonEquivocationMessageBuffers } := by
  have inv := sound.graph
  refine ⟨{ inv with ledger := { inv.ledger with }, buffered := ?_ }, sound.told⟩
  intro creator message member
  rcases each creator message member with old | new
  · exact inv.buffered creator message old
  · exact new

/-- Processing the next message of a creator appends it to the log of that creator. -/
theorem Logs.process (logs : Logs issued facts replica log)
    (verified : Verified issued facts replica vertex)
    (counted : vertex.counter = replica.expectedCounters vertex.creator)
    (peers : next.enclave.peers = replica.enclave.peers)
    (key : next.enclave.enclave = replica.enclave.enclave) (quorum : next.quorum = replica.quorum)
    (expected : next.expectedCounters = update replica.expectedCounters vertex.creator
      (replica.expectedCounters vertex.creator + 1)) (held : ∀ other, next.Held other ↔
      replica.Held other ∨ (other = vertex ∧ replica.Fresh vertex))
    (more : ∀ vertex ∈ facts.signed, vertex ∈ facts'.signed) : Logs issued facts' next
      (update log vertex.creator (log vertex.creator ++ [vertex])) where
  length := by
    intro creator
    rw [expected]
    by_cases same : creator = vertex.creator
    · subst same
      simp [logs.length]
    · simp [same, logs.length]
  entry := by
    intro creator index other found
    have keeps : ∀ other, Verified issued facts replica other →
        Verified issued facts' next other := fun other isVerified =>
      isVerified.mono (fun attestation complete => peers ▸ complete) key more
    by_cases same : creator = vertex.creator
    · subst same
      rw [update_self] at found
      rcases lt_or_ge index (log vertex.creator).length with old | new
      · rw [List.getElem?_append_left old] at found
        obtain ⟨named, isIndex, isVerified⟩ := logs.entry _ index other found
        exact ⟨named, isIndex, keeps other isVerified⟩
      rw [List.getElem?_append_right new, List.getElem?_singleton] at found
      split at found
      · next last =>
        cases found
        have length := logs.length vertex.creator
        exact ⟨rfl, by omega, keeps vertex verified⟩
      · cases found
    rw [update_of_ne same] at found
    obtain ⟨named, isIndex, isVerified⟩ := logs.entry creator index other found
    exact ⟨named, isIndex, keeps other isVerified⟩
  held := by
    intro other
    rw [held, quorum, logs.held]
    by_cases same : other.creator = vertex.creator
    · rw [same, update_self, FirstWins.snoc]
      refine or_congr_right (and_congr_right fun _ => and_congr_right fun _ => ?_)
      -- an address is a round and a creator, and this log is that of one creator
      constructor
      · intro fresh winner wins sameRound
        obtain ⟨index, found⟩ := mem_iff_getElem?.mp wins.mem.1
        have named := (logs.entry _ index winner found).1
        refine fresh winner ((logs.held winner).mpr (named ▸ wins)) ?_
        exact congrArg₂ DagAddress.mk sameRound named
      intro fresh holder isHeld sameAddress
      have sameCreator : holder.creator = vertex.creator :=
        congrArg DagAddress.creator sameAddress
      refine fresh holder ?_ (congrArg DagAddress.round sameAddress)
      rw [← sameCreator]
      exact (logs.held holder).mp isHeld
    rw [update_of_ne same]
    refine or_iff_left ?_
    rintro ⟨rfl, _⟩
    exact same rfl

theorem requestGap_quiet (run : replica.requestGap env message = .ok next) :
    Quiet replica next := by
  unfold requestGap at run
  split at run
  · simp at run
  simp only at run
  split at run
  · exact pure_ok.mp run ▸ Quiet.refl replica
  obtain rfl := pure_ok.mp run
  exact ((quiet_broadcast replica _ rfl rfl).trans (quiet_stateMessage _ _ rfl rfl)).trans
    (quiet_fields _ _ rfl rfl)

theorem processNext_working [Secure P] {processed : Replica P}
    {rest : List (SignedMessage P)} (working : Working issued history replica)
    (pending : replica.nonEquivocationMessageBuffers message.creator = message :: rest)
    (isNext : message.counter = replica.expectedCounters message.creator)
    (process : processVertex env ({ replica with
      nonEquivocationMessageBuffers := update replica.nonEquivocationMessageBuffers
        message.creator rest }.stateMessage
      (.nonEquivocationBroadcastDeliver message.creator message.payloadText)) message.payload =
      .ok processed) : Working issued history { processed with
      expectedCounters := update processed.expectedCounters message.creator
        (processed.expectedCounters message.creator + 1) } ∧ HandshakeKept replica processed := by
  obtain ⟨named, verified, authentic⟩ := working.sound.graph.buffered message.creator message
    (pending ▸ mem_cons_self)
  have shorter : Sound issued history { replica with
      nonEquivocationMessageBuffers := update replica.nonEquivocationMessageBuffers
        message.creator rest } := by
    refine buffers_sound working.sound fun creator other member => .inl ?_
    by_cases same : creator = message.creator
    · subst same
      rw [update_self] at member
      exact pending ▸ mem_cons_of_mem _ member
    · rwa [update_of_ne same] at member
  have dropped : HandshakeKept replica { replica with
      nonEquivocationMessageBuffers := update replica.nonEquivocationMessageBuffers
        message.creator rest } := { HandshakeKept.refl replica with }
  have noted := quiet_stateMessage { replica with
    nonEquivocationMessageBuffers := update replica.nonEquivocationMessageBuffers
      message.creator rest }
    (.nonEquivocationBroadcastDeliver message.creator message.payloadText) rfl rfl
  have noted' := factsOf_total history noted.facts
  obtain ⟨sound, settled, kept, held⟩ := processVertex_held (noted.sound shorter)
    working.settled (noted' ▸ authentic) process
  have keptAll : HandshakeKept replica processed :=
    dropped.trans (noted.kept.trans kept).toHandshakeKept
  have expected : processed.expectedCounters = replica.expectedCounters := kept.expected
  obtain ⟨log, logs⟩ := working.logs
  refine ⟨⟨{ sound with graph := { sound.graph with ledger := { sound.graph.ledger with } } },
    settled, _, logs.process verified isNext keptAll.peers keptAll.key keptAll.quorum ?_ ?_
      keptAll.more⟩, keptAll⟩
  · show update processed.expectedCounters _ _ = _
    rw [expected]
    rfl
  · exact held

theorem drainBuffer_working [Secure P] {creator : Nat} (fuel : Nat) (replica next : Replica P)
    (working : Working issued history replica)
    (run : drainBuffer env creator fuel replica = .ok next) :
    Working issued history next ∧ HandshakeKept replica next := by
  induction fuel generalizing replica next with
  | zero => cases run
  | succ fuel ih =>
    simp only [drainBuffer] at run
    split at run
    · obtain rfl := pure_ok.mp run
      exact ⟨working, HandshakeKept.refl _⟩
    rename_i message rest pending
    split at run
    · have quiet := requestGap_quiet run
      exact ⟨quiet.working working, quiet.kept.toHandshakeKept⟩
    rename_i isNext
    obtain ⟨processed, process, run⟩ := bind_ok.mp run
    obtain ⟨rfl, _⟩ := working.sound.graph.buffered creator message (pending ▸ mem_cons_self)
    obtain ⟨step, kept⟩ :=
      processNext_working working pending (not_not.mp isNext) process
    obtain ⟨later, keptLater⟩ := ih _ next step run
    exact ⟨later, kept.trans { keptLater with }⟩

theorem bufferMessage_working (working : Working issued history replica) (message : SignedMessage P)
    (verified : Verified issued (factsOf (replica.total history)) replica message.payload)
    (authentic : Authentic issued (factsOf (replica.total history)) replica.enclave.enclave
      message.payload) (highestRounds : Nat → Nat) :
    let received := replica.stateMessage
      (.nonEquivocationBroadcastReceive message.creator message.payloadText)
    let next := { received with
      highestRounds
      nonEquivocationMessageBuffers := update received.nonEquivocationMessageBuffers
        message.creator (Heaps.insert (fun left right => left.counter ≤ right.counter) message
          (received.nonEquivocationMessageBuffers message.creator)) }
    Working issued history next ∧ HandshakeKept replica next := by
  intro received next
  have quiet : Quiet replica { received with highestRounds } :=
    (quiet_stateMessage replica _ rfl rfl).trans (quiet_fields _ _ rfl rfl)
  have facts := factsOf_total history quiet.facts
  have sound : Sound issued history next := by
    refine buffers_sound (quiet.sound working.sound) fun creator other member => ?_
    by_cases same : creator = message.creator
    · subst same
      rw [update_self, Heaps.mem_insert] at member
      rcases member with rfl | old
      · rw [facts]
        exact .inr ⟨rfl, verified, authentic⟩
      · exact .inl old
    · rw [update_of_ne same] at member
      exact .inl member
  have kept : HandshakeKept replica next := { quiet.kept with }
  obtain ⟨log, logs⟩ := working.logs
  refine ⟨⟨sound, working.settled, log, ?_⟩, kept⟩
  exact logs.mono (fun _ _ complete => complete) rfl rfl rfl (fun _ => Iff.rfl) kept.more

theorem processSignedMessage_working [Secure P] {sender : Nat}
    (working : Working issued history replica)
    (authentic : Authentic issued (factsOf (replica.total history)) replica.enclave.enclave
      message.payload) (run : replica.processSignedMessage env sender message = .ok next) :
    Working issued history next ∧ HandshakeKept replica next := by
  have quiet : ∀ after, Quiet replica after → Working issued history after ∧
      HandshakeKept replica after :=
    fun after quiet => ⟨quiet.working working, quiet.kept.toHandshakeKept⟩
  simp only [processSignedMessage] at run
  split at run
  · exact pure_ok.mp run ▸ quiet _ (quiet_stateMessage replica _ rfl rfl)
  split at run
  · exact pure_ok.mp run ▸ quiet _ (quiet_stateMessage replica _ rfl rfl)
  split at run
  · exact pure_ok.mp run ▸ quiet _ (quiet_stateMessage replica _ rfl rfl)
  split at run
  · exact pure_ok.mp run ▸ quiet _ (Quiet.refl replica)
  split at run
  · exact pure_ok.mp run ▸ quiet _ (Quiet.refl replica)
  obtain ⟨result, verify, run⟩ := bind_ok.mp run
  rcases result with error | (- | -)
  · exact pure_ok.mp run ▸ quiet _ (quiet_stateMessage replica _ rfl rfl)
  · exact pure_ok.mp run ▸ quiet _ (Quiet.refl replica)
  obtain ⟨current, old, complete, verified⟩ := EnclaveAutomata.verify_true verify
  obtain rfl := working.sound.graph.noOld _ _ _ complete
  rw [EnclaveAutomata.attestationAt_new] at verified
  have added := bufferMessage_working working message
    ⟨current, complete, authentic current verified⟩ authentic
    (update replica.highestRounds message.creator
      (max (replica.highestRounds message.creator) message.payload.round))
  simp only at run
  split at run
  · exact pure_ok.mp run ▸ added
  · obtain ⟨drained, kept⟩ := drainBuffer_working _ _ _ added.1 run
    exact ⟨drained, added.2.trans kept⟩

theorem processVertexRequest_quiet {sender : Nat} {address : DagAddress}
    (wellFormed : replica.dag.WellFormed replica.quorum)
    (run : replica.processVertexRequest sender address = .ok next) : Quiet replica next := by
  simp only [processVertexRequest] at run
  split at run
  · exact pure_ok.mp run ▸ Quiet.refl replica
  obtain ⟨found, foundOk, run⟩ := bind_ok.mp run
  obtain ⟨_, rfl⟩ := Dag.get_ok.mp foundOk
  cases stored : replica.dag.lookup address with
  | none =>
    rw [stored] at run
    simp only [Option.map_none, pure_ok] at run
    exact run ▸ quiet_fields _ _ rfl rfl
  | some entry =>
    rw [stored] at run
    simp only [Option.map_some, pure_ok] at run
    subst run
    refine quiet_unicast replica sender _ rfl ?_
    intro vertex carries
    cases carries
    exact .inr ⟨entry, (wellFormed.slot address entry stored).1.symm ▸ stored, rfl⟩

end Replica

end Abcperf.Nxbft
