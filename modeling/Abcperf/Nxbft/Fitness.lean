import Abcperf.Nxbft.Building
import Abcperf.Nxbft.Coin
import Abcperf.Nxbft.Searches

/-! What makes a replica fit to handle messages is elementary: its graph is well formed, what waits
to be added could be part of a graph, and the coins it needs are there. The handlers of the
handshake and those that add vertices return for a fit replica, and leave it fit. -/

namespace Abcperf.Nxbft

open Lib Lib.Outcome List Option

variable {P : Platform} {excused : Panic → Prop}

/-- The round has a predecessor and the edges name replicas. No code checks either. -/
def Vertex.Proper (n : Nat) (vertex : Vertex P) : Prop :=
  0 < vertex.round ∧ ∀ edge ∈ vertex.edges, edge < n

def Message.Proper (n : Nat) : Message P → Prop
  | .signed wrapped => wrapped.payload.Proper n
  | .vertexRequest address => address.creator < n
  | _ => True

namespace EnclaveAutomata

variable {n : Nat} {automata : EnclaveAutomata P} {drawn : List Nat}

theorem Sound.verify_returns (sound : Sound n automata drawn) {peerId : Nat} (inRange : peerId < n)
    (counter : Nat) (message : SignableVertex P) (signature : P.Signature) :
    Returns excused (fun result => result = .ok true → automata.isReady = true)
      (automata.verify peerId counter message signature) := by
  unfold verify
  split
  · exact fun impossible => by cases impossible
  split
  · next isReady =>
    obtain ⟨rng, isRng⟩ := isSome_iff_exists.mp isReady
    have complete := (sound.ready rng isRng).2 peerId inRange
    cases isPeer : automata.peers peerId with
    | handshakeComplete current old =>
      dsimp only
      split <;> exact fun _ => isReady
    | none => simp [isPeer, Peer.isComplete] at complete
    | attested attestation => simp [isPeer, Peer.isComplete] at complete
  · exact fun impossible => by cases impossible

theorem Sound.countValid_returns (sound : Sound n automata drawn) (proof : List (SignedVertex P))
    (seen : List Nat) (valid : Nat)
    (inRange : ∀ vertex ∈ proof, vertex.signable.address.creator < n)
    (ready : 0 < valid → automata.isReady = true) :
    Returns excused
      (fun result => ∀ total, result = .ok total → 0 < total → automata.isReady = true)
      (automata.countValid proof seen valid) := by
  induction proof generalizing seen valid with
  | nil =>
    intro total isTotal positive
    cases isTotal
    exact ready positive
  | cons vertex rest ih =>
    have later := fun other member => inRange other (mem_cons_of_mem _ member)
    rw [countValid]
    split
    · exact ih seen valid later ready
    refine (sound.verify_returns (inRange vertex mem_cons_self) _ _ _).bind ?_
    intro verified isReady
    split
    · exact ih _ _ later fun _ => isReady rfl
    · exact ih _ _ later ready
    · exact fun total impossible => by cases impossible

structure Tossed (n round : Nat) (before after : EnclaveAutomata P)
    (result : Except (EnclaveAutomataError P) Nat) : Prop where
  sound : ∃ drawn, Sound n after drawn
  c : after.c = before.c
  share : after.seedShare = before.seedShare
  failed : ∀ error, result = .error error → after.nextToss = before.nextToss
  drew : ∀ id, result = .ok id → before.nextToss = round ∧ after.nextToss = round + 4 ∧ id < n

theorem Sound.toss_returns (samples : ∀ rng, (P.sample n rng).1 < n)
    (sound : Sound n automata drawn) {proof : List (SignedVertex P)} {round : Nat}
    (inRange : ∀ vertex ∈ proof, vertex.signable.address.creator < n)
    (atRound : ∀ vertex ∈ proof, vertex.signable.address.round = round) :
    Returns excused (fun tossed => Tossed n round automata tossed.1 tossed.2)
    (automata.toss proof) := by
  have returns : Returns excused (fun _ => True) (automata.toss proof) := by
    unfold toss
    refine (sound.countValid_returns proof [] 0 inRange fun impossible => by omega).bind ?_
    intro counted ready
    split
    · exact trivial
    rename_i valid
    split
    · exact trivial
    rename_i enough
    have positive : 0 < valid := by
      have := sound.quorum
      omega
    obtain ⟨rng, isRng⟩ := isSome_iff_exists.mp (ready valid rfl positive)
    have draws : Returns excused (fun _ => True) automata.rand :=
      .step (unwrap_ok.mpr isRng) trivial
    exact draws.bind fun _ _ => trivial
  refine returns.meets ?_
  rintro ⟨after, result⟩ run -
  cases result with
  | error error =>
    obtain rfl := toss_error run
    exact ⟨⟨drawn, sound⟩, rfl, rfl, fun _ _ => rfl, fun id impossible => by cases impossible⟩
  | ok id =>
    have next := toss_sound sound run
    obtain ⟨rng, _, rfl, rfl, vertex, member, isRound⟩ :=
      toss_ok (by rw [sound.quorum]; omega) run
    have same := (atRound vertex member).symm.trans isRound
    refine ⟨⟨_, next⟩, rfl, rfl, fun error impossible => (by cases impossible), ?_⟩
    intro drew isDrew
    cases isDrew
    refine ⟨same.symm, by show automata.nextToss + 4 = _; omega, ?_⟩
    rw [sound.size]
    exact samples rng

structure Shook (n : Nat) (before after : EnclaveAutomata P) : Prop where
  sound : ∃ drawn, Sound n after drawn
  c : after.c = before.c
  nextToss : after.nextToss = before.nextToss
  share : after.seedShare = before.seedShare

theorem Sound.initPeerHandshake_returns (sound : Sound n automata drawn)
    (started : automata.seedShare.isSome) (peerId : Nat) (attestation : P.Attestation) :
    Returns excused (fun called => Shook n automata called.1)
      (automata.initPeerHandshake peerId attestation) := by
  have returns : Returns excused (fun _ => True)
      (automata.initPeerHandshake peerId attestation) := by
    obtain ⟨share, isShare⟩ := isSome_iff_exists.mp started
    unfold initPeerHandshake
    refine .step (unwrap_ok.mpr isShare) ?_
    split
    · exact trivial
    split
    · split <;> exact trivial
    · exact trivial
  refine returns.meets ?_
  rintro ⟨after, result⟩ run -
  have next := initPeerHandshake_sound sound run
  have step := (initPeerHandshake_step run).1
  refine ⟨⟨drawn, next⟩, step.c, step.nextToss, ?_⟩
  rcases initPeerHandshake_cases run with rfl | ⟨_, rfl⟩ <;> rfl

theorem Sound.completePeerHandshake_returns (sound : Sound n automata drawn) (peerId : Nat)
    (handshake : P.Handshake) : Returns excused (fun called => Shook n automata called.1)
      (automata.completePeerHandshake peerId handshake) := by
  have returns : Returns excused (fun _ => True)
      (automata.completePeerHandshake peerId handshake) := by
    unfold completePeerHandshake
    split
    · exact trivial
    rename_i inRange
    split
    · exact trivial
    · exact trivial
    rename_i attestation pending
    split
    · exact trivial
    -- a peer is still pending, so the generator has not been set up
    have unready : automata.rng = none := by
      cases isRng : automata.rng with
      | none => rfl
      | some rng =>
        have complete := (sound.ready rng isRng).2 peerId (by have := sound.size; omega)
        simp [pending, Peer.isComplete] at complete
    exact .step (checkReady_ok.mpr ⟨unready, rfl⟩) trivial
  refine returns.meets ?_
  rintro ⟨after, result⟩ run -
  have next := completePeerHandshake_sound sound run
  have step := (completePeerHandshake_step run).1
  refine ⟨⟨drawn, next⟩, step.c, step.nextToss, ?_⟩
  rcases completePeerHandshake_cases run with rfl | ⟨attestation, share, _, _, _, checked⟩
  · rfl
  · obtain ⟨_, rfl⟩ := checkReady_ok.mp checked
    split <;> rfl

end EnclaveAutomata

namespace Replica

/-- A vertex the replica may keep: `top` bounds the rounds of what others have created. -/
def Welcome (top : Nat) (replica : Replica P) (vertex : Vertex P) : Prop :=
  vertex.Proper replica.n ∧ (vertex.creator ≠ replica.me → vertex.round ≤ top)

/-- Everything but the buffer of vertices. `ceiling` bounds the counters of what waits, also of what
the replica signs itself until the round is above `top`. -/
structure Apt (top ceiling : Nat) (replica : Replica P) : Prop where
  enough : 3 ≤ replica.n
  quorum : replica.quorum = replica.n / 2 + 1
  inRange : replica.me < replica.n
  outputMe : replica.output.me = replica.me
  sized : 0 < replica.minVertexSize
  dagN : replica.dag.n = replica.n
  graph : replica.dag.WellFormed replica.quorum
  counted : replica.dag.Counted
  level : replica.dag.maxRound = replica.round
  positive : 0 < replica.round
  low : replica.round ≤ top + 1
  known : ∀ address, (replica.dag.lookup address).isSome → address.creator ≠ replica.me →
    address.round ≤ top
  enclave : ∃ drawn, EnclaveAutomata.Sound replica.n replica.enclave drawn
  started : replica.ready = true → replica.enclave.seedShare.isSome
  coins : ∀ wave, replica.decidedWave < wave → 4 * wave < replica.enclave.nextToss →
    ∃ coin, replica.pendingWaveCoins wave = some coin ∧ coin < replica.n
  room : replica.enclave.c + (top + 2 - replica.round) ≤ ceiling
  waiting : ∀ creator, ∀ message ∈ replica.nonEquivocationMessageBuffers creator,
    replica.Welcome top message.payload ∧ message.counter < ceiling ∧ message.creator < replica.n
  counters : ∀ creator,
    ((replica.nonEquivocationMessageBuffers creator).map SignedMessage.counter).Nodup
  requests : ∀ address waiting, replica.vertexRequests address = some waiting →
    replica.me ∉ waiting

structure Buffers (top : Nat) (replica : Replica P) (buffer : List (Vertex P)) : Prop where
  each : ∀ vertex ∈ buffer, replica.Welcome top vertex ∧ vertex.creator < replica.n ∧
    vertex.Valid replica.quorum ∧ replica.dag.lookup vertex.address = none
  distinct : (buffer.map Vertex.address).Nodup

structure Fit (top ceiling : Nat) (replica : Replica P) : Prop extends Apt top ceiling replica where
  buffers : Buffers top replica replica.vertexBuffer

def Takes (top ceiling : Nat) (replica : Replica P) (message : PeerMessage P) : Prop :=
  message.message.Proper replica.n ∧ ∀ wrapped, message.message = .signed wrapped →
    wrapped.counter < ceiling ∧ (wrapped.creator ≠ replica.me → wrapped.payload.round ≤ top)

/-- How deep the messages that a message causes can nest in a given round. -/
def rank (top round : Nat) : Message P → Nat
  | .hello _ => 3
  | .helloEcho _ _ => 2
  | .helloReply _ => 1
  | .signed _ => top + 2 - round
  | .ready => 0
  | .vertexRequest _ => 0

variable {top : Nat} {before after : Replica P} {vertex : Vertex P}

theorem rank_anti {round later : Nat} (grown : round ≤ later) (message : Message P) :
    rank top later message ≤ rank top round message := by
  cases message with
  | signed _ => exact Nat.sub_le_sub_left grown _
  | hello _ | helloEcho _ _ | helloReply _ | ready | vertexRequest _ => exact le_rfl

/-- What a handler does to a fit replica: messages it leaves for the replica itself rank below
`bound`. -/
structure Goes (top ceiling bound : Nat) (before after : Replica P) : Prop where
  n : after.n = before.n
  me : after.me = before.me
  round : before.round ≤ after.round
  share : before.enclave.seedShare.isSome → after.enclave.seedShare.isSome
  sent : ∀ message ∈ after.output.reflectionMessages,
    message ∈ before.output.reflectionMessages ∨
      (before.Takes top ceiling message ∧ rank top after.round message.message < bound)

variable {top ceiling bound : Nat} {env : Env} {replica : Replica P}

theorem Goes.refl (replica : Replica P) : Goes top ceiling bound replica replica :=
  ⟨rfl, rfl, le_rfl, id, fun _ member => .inl member⟩

theorem Takes.of_same {message : PeerMessage P} (admits : after.Takes top ceiling message)
    (n : after.n = before.n) (me : after.me = before.me) : before.Takes top ceiling message := by
  unfold Takes at admits ⊢
  rwa [← n, ← me]

theorem Goes.trans {first second third : Replica P} {bound' : Nat}
    (left : Goes top ceiling bound first second) (right : Goes top ceiling bound' second third)
    (below : bound' ≤ bound) : Goes top ceiling bound first third where
  n := right.n.trans left.n
  me := right.me.trans left.me
  round := le_trans left.round right.round
  share := fun started => right.share (left.share started)
  sent := by
    intro message member
    rcases right.sent message member with old | ⟨admitted, low⟩
    · rcases left.sent message old with older | ⟨admitted, low⟩
      · exact .inl older
      · exact .inr ⟨admitted, lt_of_le_of_lt (rank_anti right.round _) low⟩
    · exact .inr ⟨admitted.of_same left.n left.me, lt_of_lt_of_le low below⟩

section

variable (n : after.n = before.n) (me : after.me = before.me) (round : after.round = before.round)
  (share : after.enclave.seedShare = before.enclave.seedShare)

include n me round share

theorem goes_quiet (quiet : after.output.reflectionMessages = before.output.reflectionMessages) :
    Goes top ceiling bound before after :=
  ⟨n, me, Nat.le_of_eq round.symm, fun started => share ▸ started,
    fun _ member => .inl (quiet ▸ member)⟩

theorem goes_sending {message : Message P} (sent : after.output.reflectionMessages =
      before.output.reflectionMessages ++ [⟨before.me, message⟩])
    (admitted : before.Takes top ceiling ⟨before.me, message⟩)
    (low : rank top before.round message < bound) : Goes top ceiling bound before after := by
  refine ⟨n, me, Nat.le_of_eq round.symm, fun started => share ▸ started, ?_⟩
  intro other member
  rw [sent, mem_append, mem_singleton] at member
  rcases member with old | rfl
  · exact .inl old
  · exact .inr ⟨admitted, round ▸ low⟩

end

theorem Goes.since {middle : Replica P} (later : Goes top ceiling bound middle after)
    (n : middle.n = before.n) (me : middle.me = before.me) (round : middle.round = before.round)
    (share : middle.enclave.seedShare = before.enclave.seedShare)
    (quiet : middle.output.reflectionMessages = before.output.reflectionMessages) :
    Goes top ceiling bound before after :=
  (goes_quiet n me round share quiet).trans later le_rfl

theorem goes_stateMessage (replica : Replica P) (message : StateMessage P) :
    Goes top ceiling bound replica (replica.stateMessage message) :=
  goes_quiet rfl rfl rfl rfl rfl

theorem Fit.stateMessage (fit : Fit top ceiling replica) (message : StateMessage P) :
    Fit top ceiling (replica.stateMessage message) :=
  { fit with buffers := { fit.buffers with } }

theorem takes_plain {message : Message P} (proper : message.Proper replica.n)
    (plain : message.vertex = none) : replica.Takes top ceiling ⟨replica.me, message⟩ :=
  ⟨proper, fun wrapped isSigned => by
    cases isSigned
    cases plain⟩

section

variable (fit : Fit top ceiling replica)

include fit

theorem Fit.shook {enclave : EnclaveAutomata P} (shook : replica.enclave.Shook replica.n enclave) :
    Fit top ceiling { replica with enclave } :=
  { fit with
    enclave := shook.sound
    started := fun ready => by
      show enclave.seedShare.isSome = true
      rw [shook.share]
      exact fit.started ready
    coins := fun wave later tossed => fit.coins wave later (shook.nextToss ▸ tossed)
    room := by
      show enclave.c + _ ≤ _
      rw [shook.c]
      exact fit.room
    buffers := { fit.buffers with } }

theorem processHello_goes (sender : Nat) (attestation : P.Attestation) :
    Fit top ceiling (replica.processHello sender attestation) ∧
      Goes top ceiling 3 replica (replica.processHello sender attestation) := by
  unfold processHello
  split
  · exact ⟨fit.stateMessage _, goes_stateMessage _ _⟩
  · exact ⟨{ fit with buffers := { fit.buffers with } },
      goes_sending rfl rfl rfl rfl rfl (takes_plain trivial rfl) (by simp [rank])⟩

theorem processReady_goes (started : replica.enclave.seedShare.isSome) (sender : Nat) :
    Fit top ceiling (replica.processReady sender) ∧
      Goes top ceiling bound replica (replica.processReady sender) := by
  unfold processReady
  split
  · exact ⟨fit.stateMessage _, goes_stateMessage _ _⟩
  dsimp only
  split
  · exact ⟨{ fit with buffers := { fit.buffers with } }, goes_quiet rfl rfl rfl rfl rfl⟩
  · exact ⟨{ fit with started := fun _ => started, buffers := { fit.buffers with } },
      goes_quiet rfl rfl rfl rfl rfl⟩

theorem processHelloReply_returns (sender : Nat) (handshake : P.Handshake) :
    Returns excused (fun next => Fit top ceiling next ∧ Goes top ceiling 1 replica next)
      (replica.processHelloReply sender handshake) := by
  obtain ⟨drawn, sound⟩ := fit.enclave
  unfold processHelloReply
  refine (sound.completePeerHandshake_returns sender handshake).bind ?_
  rintro ⟨enclave, result⟩ shook
  have called := fit.shook shook
  cases result with
  | duplicateReply => exact ⟨called.stateMessage _, goes_quiet rfl rfl rfl shook.share rfl⟩
  | invalidHandshakeEncryption =>
    exact ⟨called.stateMessage _, goes_quiet rfl rfl rfl shook.share rfl⟩
  | enclaveError error => exact ⟨called.stateMessage _, goes_quiet rfl rfl rfl shook.share rfl⟩
  | missingAttestation =>
    exact ⟨{ called with buffers := { called.buffers with } },
      goes_quiet rfl rfl rfl shook.share rfl⟩
  | ok =>
    dsimp only
    split
    · exact ⟨{ called with buffers := { called.buffers with } },
        goes_sending rfl rfl rfl shook.share rfl (takes_plain trivial rfl) (by simp [rank])⟩
    · exact ⟨{ called with buffers := { called.buffers with } },
        goes_quiet rfl rfl rfl shook.share rfl⟩

theorem goes_unicast (receiver : Nat) (message : Message P)
    (admitted : replica.Takes top ceiling ⟨replica.me, message⟩)
    (low : rank top replica.round message < bound) :
    Fit top ceiling (replica.unicast receiver message) ∧
      Goes top ceiling bound replica (replica.unicast receiver message) := by
  by_cases itself : receiver = replica.output.me
  · have sent : (replica.unicast receiver message).output.reflectionMessages =
        replica.output.reflectionMessages ++ [⟨replica.me, message⟩] := by
      simp [unicast, UnreflectedOutput.unicast, itself]
    refine ⟨{ fit with outputMe := ?_, buffers := { fit.buffers with } },
      goes_sending rfl rfl rfl rfl sent admitted low⟩
    simpa [unicast, UnreflectedOutput.unicast, itself] using fit.outputMe
  have quiet : (replica.unicast receiver message).output.reflectionMessages =
      replica.output.reflectionMessages := by
    simp [unicast, UnreflectedOutput.unicast, itself]
  refine ⟨{ fit with outputMe := ?_, buffers := { fit.buffers with } },
    goes_quiet rfl rfl rfl rfl quiet⟩
  simpa [unicast, UnreflectedOutput.unicast, itself] using fit.outputMe

theorem startHandshake_returns (started : replica.enclave.seedShare.isSome) (sender creator : Nat)
    (attestation : P.Attestation) :
    Returns excused (fun next => Fit top ceiling next ∧ Goes top ceiling 2 replica next)
      (replica.startHandshake sender creator attestation) := by
  obtain ⟨drawn, sound⟩ := fit.enclave
  unfold startHandshake
  refine (sound.initPeerHandshake_returns started creator attestation).bind ?_
  rintro ⟨enclave, result⟩ shook
  have called := fit.shook shook
  cases result with
  | duplicateHello => exact ⟨called.stateMessage _, goes_quiet rfl rfl rfl shook.share rfl⟩
  | invalidAttestation => exact ⟨called.stateMessage _, goes_quiet rfl rfl rfl shook.share rfl⟩
  | enclaveError error => exact ⟨called.stateMessage _, goes_quiet rfl rfl rfl shook.share rfl⟩
  | ok handshake =>
    have noted := called.stateMessage (.receivedHelloEcho sender creator)
    have since : Goes top ceiling 2 replica
        ({ replica with enclave }.stateMessage (.receivedHelloEcho sender creator)) :=
      goes_quiet rfl rfl rfl shook.share rfl
    obtain ⟨replied, goes⟩ : _ ∧ Goes top ceiling 2 _ _ :=
      goes_unicast noted creator (.helloReply handshake) (takes_plain trivial rfl) (by simp [rank])
    dsimp only
    split
    · exact ⟨replied, since.trans goes le_rfl⟩
    rename_i cached _
    -- the reply came before the attestation was complete
    refine Returns.imp (processHelloReply_returns (?_ : Fit top ceiling _) creator cached) ?_
    · exact { replied with buffers := { replied.buffers with } }
    rintro next ⟨fitNext, later⟩
    exact ⟨fitNext, (since.trans goes le_rfl).trans (later.since rfl rfl rfl rfl rfl)
      (by omega : 1 ≤ 2)⟩

theorem processHelloEcho_returns (started : replica.enclave.seedShare.isSome) (sender creator : Nat)
    (attestation : P.Attestation) :
    Returns excused (fun next => Fit top ceiling next ∧ Goes top ceiling 2 replica next)
      (replica.processHelloEcho sender creator attestation) := by
  have noted : ∀ helloMap, Fit top ceiling { replica with helloMap } ∧
      Goes top ceiling 2 replica { replica with helloMap } :=
    fun helloMap => ⟨{ fit with buffers := { fit.buffers with } }, goes_quiet rfl rfl rfl rfl rfl⟩
  unfold processHelloEcho
  split
  · exact ⟨fit.stateMessage _, goes_stateMessage _ _⟩
  dsimp only
  split
  · exact ⟨(noted _).1.stateMessage _, (noted _).2.trans (goes_stateMessage _ _) le_rfl⟩
  split
  · exact ⟨(noted _).1.stateMessage _, (noted _).2.trans (goes_stateMessage _ _) le_rfl⟩
  split
  · exact noted _
  refine Returns.imp (startHandshake_returns (?_ : Fit top ceiling _) ?_ sender creator attestation)
    ?_
  · exact (noted _).1
  · exact started
  · rintro next ⟨fitNext, goes⟩
    exact ⟨fitNext, goes.since rfl rfl rfl rfl rfl⟩

end

/-- A step that stays in its round and only sends itself vertex requests. -/
structure Keeps (before after : Replica P) : Prop where
  n : after.n = before.n
  me : after.me = before.me
  round : after.round = before.round
  c : after.enclave.c = before.enclave.c
  share : after.enclave.seedShare = before.enclave.seedShare
  waiting : after.nonEquivocationMessageBuffers = before.nonEquivocationMessageBuffers
  sent : ∀ message ∈ after.output.reflectionMessages,
    message ∈ before.output.reflectionMessages ∨
      ∃ address, address.creator < before.n ∧ message.message = .vertexRequest address

theorem Keeps.refl (replica : Replica P) : Keeps replica replica :=
  ⟨rfl, rfl, rfl, rfl, rfl, rfl, fun _ member => .inl member⟩

theorem Keeps.trans {first second third : Replica P} (left : Keeps first second)
    (right : Keeps second third) : Keeps first third where
  n := right.n.trans left.n
  me := right.me.trans left.me
  round := right.round.trans left.round
  c := right.c.trans left.c
  share := right.share.trans left.share
  waiting := right.waiting.trans left.waiting
  sent := by
    intro message member
    rcases right.sent message member with old | ⟨address, inRange, isRequest⟩
    · exact left.sent message old
    · exact .inr ⟨address, left.n ▸ inRange, isRequest⟩

theorem Keeps.goes (keeps : Keeps before after) (positive : 0 < bound) :
    Goes top ceiling bound before after := by
  refine ⟨keeps.n, keeps.me, Nat.le_of_eq keeps.round.symm, fun started => keeps.share ▸ started,
    fun message member => (keeps.sent message member).imp_right ?_⟩
  rintro ⟨address, inRange, isRequest⟩
  refine ⟨⟨by rw [isRequest]; exact inRange, ?_⟩, by rw [isRequest]; exact positive⟩
  intro wrapped isSigned
  rw [isRequest] at isSigned
  cases isSigned

theorem checkEdge_returns (apt : Apt top ceiling replica) (add : Bool) {edge : DagAddress}
    (inRange : edge.creator < replica.n) :
    Returns excused (fun result => Apt top ceiling result.1 ∧ Keeps replica result.1 ∧
      ∃ pendingVertices output, result.1 = { replica with pendingVertices, output })
      (checkEdge (replica, add) edge) := by
  unfold checkEdge
  refine .step (Dag.knows_ok.mpr ⟨apt.dagN ▸ inRange, rfl⟩) ?_
  split
  · exact ⟨apt, .refl _, _, _, rfl⟩
  split
  · exact ⟨apt, .refl _, _, _, rfl⟩
  refine ⟨{ apt with }, ⟨rfl, rfl, rfl, rfl, rfl, rfl, ?_⟩, _, _, rfl⟩
  exact forall_mem_concat (fun _ => .inl) (.inr ⟨edge, inRange, rfl⟩)

theorem checkEdges_returns (apt : Apt top ceiling replica) (proper : vertex.Proper replica.n) :
    Returns excused (fun result => (Apt top ceiling result.1 ∧ Keeps replica result.1 ∧
      ∃ pendingVertices output, result.1 = { replica with pendingVertices, output }) ∧
      (result.2 = true → ∀ edge ∈ vertex.edges,
        (replica.dag.lookup ⟨vertex.round - 1, edge⟩).isSome)) (checkEdges env replica vertex) := by
  have returns : Returns excused (fun result => Apt top ceiling result.1 ∧ Keeps replica result.1 ∧
      ∃ pendingVertices output, result.1 = { replica with pendingVertices, output })
      (checkEdges env replica vertex) := by
    refine Returns.foldlM ⟨apt, .refl _, _, _, rfl⟩ ?_
    rintro ⟨current, add⟩ edge member ⟨aptNow, keeps, pendingVertices, output, rfl⟩
    unfold checkEdgeTo
    rw [previousRound_pos _ proper.1]
    refine (checkEdge_returns aptNow add (proper.2 edge member)).imp ?_
    rintro ⟨next, add'⟩ ⟨aptNext, later, pendingVertices', output', rfl⟩
    exact ⟨aptNext, keeps.trans later, _, _, rfl⟩
  refine returns.meets ?_
  rintro ⟨next, add⟩ run ⟨aptNext, keeps, pendingVertices, output, rfl⟩
  exact ⟨⟨aptNext, keeps, _, _, rfl⟩, fun isAdd => (checkEdges_quiet run).2 isAdd proper.1⟩

theorem Apt.inserted (apt : Apt top ceiling replica) {dag : Dag P}
    (welcome : replica.Welcome top vertex) (valid : vertex.Valid replica.quorum)
    (parents : ∀ edge ∈ vertex.edges, (replica.dag.lookup ⟨vertex.round - 1, edge⟩).isSome)
    (inserted : replica.dag.Inserted vertex dag) (maxRound : dag.maxRound = replica.dag.maxRound)
    (counted : dag.Counted) : Apt top ceiling { replica with dag } :=
  { apt with
    dagN := inserted.n.trans apt.dagN
    graph := inserted.wellFormed apt.graph parents valid.1 valid.2
    counted := counted
    level := maxRound.trans apt.level
    known := by
      intro address known foreign
      obtain ⟨reaches, _, slots⟩ := inserted.slots
      change (dag.lookup address).isSome at known
      rw [slots] at known
      split at known
      · next isNew =>
        subst isNew
        exact welcome.2 foreign
      · exact apt.known address known foreign }

theorem Buffers.inserted {dag : Dag P} {kept rest : List (Vertex P)}
    (buffers : Buffers top replica (kept ++ vertex :: rest))
    (inserted : replica.dag.Inserted vertex dag) :
    Buffers top { replica with dag } (kept ++ rest) := by
  have distinct := buffers.distinct
  rw [map_append, map_cons, nodup_middle, nodup_cons, ← map_append]
    at distinct
  refine ⟨fun other member => ?_, distinct.2⟩
  have isIn : other ∈ kept ++ vertex :: rest :=
    mem_append.mpr ((mem_append.mp member).imp_right (mem_cons_of_mem _))
  obtain ⟨welcome, inRange, valid, unknown⟩ := buffers.each other isIn
  refine ⟨welcome, inRange, valid, ?_⟩
  obtain ⟨reaches, _, slots⟩ := inserted.slots
  show dag.lookup other.address = none
  rw [slots, if_neg ?_]
  · exact unknown
  · intro same
    exact distinct.1 (same ▸ List.mem_map_of_mem member)

theorem traverseLoop_returns (rest : List (Vertex P)) {replica : Replica P} {kept : List (Vertex P)}
    {inserts : List DagAddress} (apt : Apt top ceiling replica)
    (buffers : Buffers top replica (kept ++ rest))
    (known : ∀ address ∈ inserts, (replica.dag.lookup address).isSome) :
    Returns excused (fun result => Apt top ceiling result.1 ∧ Buffers top result.1 result.2.1 ∧
      (∀ address ∈ result.2.2, (result.1.dag.lookup address).isSome) ∧ Keeps replica result.1)
      (traverseLoop env rest replica kept inserts) := by
  induction rest generalizing replica kept inserts with
  | nil =>
    rw [append_nil] at buffers
    exact .pure ⟨apt, buffers, known, .refl _⟩
  | cons vertex rest ih =>
    obtain ⟨welcome, inRange, valid, unknown⟩ := buffers.each vertex (by simp)
    unfold traverseLoop
    split
    · exact ⟨apt, buffers, known, .refl _⟩
    rename_i reached
    refine (checkEdges_returns apt welcome.1).bind ?_
    rintro ⟨checked, add⟩ ⟨⟨aptChecked, keeps, pendingVertices, output, rfl⟩, parents⟩
    dsimp only
    split
    · next isAdd =>
      have low : replica.dag.offset ≤ vertex.round := apt.graph.offset ▸ welcome.1.1
      have high : vertex.round ≤ replica.dag.maxRound := by
        rw [apt.level]
        exact not_lt.mp reached
      refine (Dag.insert_returns apt.graph apt.counted unknown (apt.dagN ▸ inRange) low high
        (parents isAdd)).bind ?_
      rintro dag ⟨inserted, maxRound, counted⟩
      have grown := aptChecked.inserted welcome valid (parents isAdd) inserted maxRound counted
      refine Returns.imp (ih (?_ : Apt top ceiling _) ?_ ?_) ?_
      · exact { grown with }
      · exact { buffers.inserted inserted with }
      · change ∀ address ∈ inserts ++ [vertex.address], (dag.lookup address).isSome = true
        obtain ⟨reaches, _, slots⟩ := inserted.slots
        refine forall_mem_concat (fun address old => ?_) (by rw [slots, if_pos rfl]; rfl)
        obtain ⟨entry, found⟩ := isSome_iff_exists.mp (known address old)
        rw [inserted.grows address entry found]
        rfl
      · rintro result ⟨aptNext, buffersNext, knownNext, later⟩
        exact ⟨aptNext, buffersNext, knownNext, keeps.trans { later with }⟩
    refine (ih aptChecked ?_ known).imp ?_
    · rw [append_assoc]
      exact { buffers with }
    · rintro result ⟨aptNext, buffersNext, knownNext, later⟩
      exact ⟨aptNext, buffersNext, knownNext, keeps.trans later⟩

theorem answerRequests_returns (fit : Fit top ceiling replica) {address : DagAddress}
    (known : (replica.dag.lookup address).isSome) :
    Returns excused (fun next => Fit top ceiling next ∧ Keeps replica next ∧
      next.dag = replica.dag) (replica.answerRequests address) := by
  obtain ⟨entry, found⟩ := isSome_iff_exists.mp known
  unfold answerRequests
  refine Returns.foldlM ⟨?_, { Keeps.refl replica with }, rfl⟩ ?_
  · refine { fit with requests := ?_, buffers := { fit.buffers with } }
    intro other waiting isWaiting
    by_cases same : other = address
    · subst same
      simp at isWaiting
    · simp only [Function.update_of_ne same] at isWaiting
      exact fit.requests other waiting isWaiting
  rintro current receiver member ⟨fitNow, keeps, dag⟩
  refine Dag.get_returns fitNow.graph (by rw [dag]; exact found) ?_
  -- nobody waits for the replica itself
  have isOther : receiver ≠ replica.me := by
    rintro rfl
    cases isWaiting : replica.vertexRequests address with
    | none =>
      rw [isWaiting] at member
      cases member
    | some waiting =>
      rw [isWaiting] at member
      exact fit.requests address waiting isWaiting member
  have foreign : receiver ≠ current.output.me := by
    rw [fitNow.outputMe, keeps.me]
    exact isOther
  have quiet : (current.unicast receiver (.signed ⟨entry.vertex⟩)).output.reflectionMessages =
      current.output.reflectionMessages := by
    simp [unicast, UnreflectedOutput.unicast, foreign]
  refine ⟨{ fitNow with outputMe := ?_, buffers := { fitNow.buffers with } },
    keeps.trans ⟨rfl, rfl, rfl, rfl, rfl, rfl, fun _ sent => .inl (quiet ▸ sent)⟩, dag⟩
  simpa [unicast, UnreflectedOutput.unicast, foreign] using fitNow.outputMe

end Replica

end Abcperf.Nxbft
