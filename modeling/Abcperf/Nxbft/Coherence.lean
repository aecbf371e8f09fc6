import Abcperf.Nxbft.Calls

/-! The invariant of the whole system: every correct replica is healthy with respect to what the
others have signed and echoed, and every enclave signs one hash per counter. -/

namespace Abcperf.Nxbft

open Lib Lib.Outcome EnclaveAutomata Function List Option

variable {P : Platform}

namespace Replica

variable {issued issued' : P.Attestation → Vertex P → Prop}
  {heard heard' : Nat → Nat → P.Attestation → Prop}
  {facts : Facts P}

section

variable {vertex : Vertex P}
  (more : ∀ attestation vertex, issued attestation vertex → issued' attestation vertex)

include more

theorem Authentic.issued_mono {key : P.Key} (authentic : Authentic issued facts key vertex) :
    Authentic issued' facts key vertex :=
  fun attestation verified => (authentic attestation verified).imp_left (more attestation vertex)

theorem Verified.issued_mono {replica : Replica P}
    (verified : Verified issued facts replica vertex) : Verified issued' facts replica vertex := by
  obtain ⟨attestation, complete, logged⟩ := verified
  exact ⟨attestation, complete, logged.imp_left (more attestation vertex)⟩

end

theorem Healthy.mono {config : Config P} {history : Output P} {replica : Replica P}
    (healthy : Healthy issued heard config history replica)
    (more : ∀ attestation vertex, issued attestation vertex → issued' attestation vertex)
    (louder : ∀ sender creator attestation, heard sender creator attestation →
      heard' sender creator attestation) : Healthy issued' heard' config history replica := by
  have inv := healthy.working.sound.graph
  have shake := healthy.handshake
  obtain ⟨log, logs⟩ := healthy.working.logs
  refine ⟨⟨⟨⟨inv.ledger, inv.reachesSound, inv.quorum, inv.dagN, inv.enclaveN, inv.enclaveQuorum,
    inv.noOld, inv.unready, inv.tosses, inv.counters, inv.increasing, inv.signatures, ?_, ?_⟩,
    ?_⟩, healthy.working.settled, log, ⟨logs.length, ?_, logs.held⟩⟩,
    ⟨shake.echoed, shake.unique, shake.reflected, ?_, shake.attested⟩, healthy.own⟩
  · intro creator message member
    obtain ⟨named, verified, authentic⟩ := inv.buffered creator message member
    exact ⟨named, verified.issued_mono more, authentic.issued_mono more⟩
  · intro vertex isHeld
    exact (inv.held vertex isHeld).imp_right (Authentic.issued_mono more)
  · intro message member vertex carries
    exact (healthy.working.sound.told message member vertex carries).issued_mono more
  · intro creator index vertex found
    obtain ⟨named, counted, verified⟩ := logs.entry creator index vertex found
    exact ⟨named, counted, verified.issued_mono more⟩
  intro creator attestation echos found sender member
  obtain ⟨inRange, own, others⟩ := shake.collected creator attestation echos found sender member
  exact ⟨inRange, own, fun other => louder _ _ _ (others other)⟩

end Replica

open Replica

def Event.FromCorrect (setup : Setup P) : Event P → Prop
  | .deliver source _ _ _ => source ∈ setup.correct
  | .launch _ => False
  | .call _ _ => False
  | _ => True

namespace World

/-- What the enclaves have signed. If only correct hosts send messages, so that these are
`faithful`, vertices are known as their creators have made them. -/
def signatures (setup : Setup P) (faithful : Prop) (world : World P) (attestation : P.Attestation)
    (vertex : Vertex P) : Prop :=
  (∃ key, P.attestationCertificate key = .ok attestation ∧
    world.Issued setup key vertex.counter vertex.hash) ∧
  (faithful → ∃ id ∈ setup.correct, vertex ∈ signedBy (world.history id))

/-- What a host may have echoed: a correct one only what it has sent. -/
def heard (setup : Setup P) (world : World P) (sender creator : Nat) (attestation : P.Attestation) :
    Prop :=
  sender ∈ setup.correct → (creator, attestation) ∈ echoesOf (world.history sender)

/-- The invariant of the network: healthy replicas, and foreign enclaves that count up. -/
structure Coherent (setup : Setup P) (faithful : Prop) (world : World P) : Prop where
  healthy : ∀ id ∈ setup.correct, Healthy (world.signatures setup faithful) (world.heard setup)
    (setup.config id) (world.history id) (world.replicas id)
  idle : ∀ id ∈ setup.correct, (world.replicas id).Idle
  inRange : ∀ id ∈ setup.correct, id < setup.n
  foreign : ∀ key enclave, world.enclaves key = some enclave →
    (∀ id ∈ setup.correct, (setup.config id).enclave ≠ key) ∧ enclave.enclave = key ∧
      ∀ entry ∈ world.issued key, entry.1 < enclave.c
  started : ∀ key, world.enclaves key = none → world.issued key = []
  increasing : ∀ key, (world.issued key).Pairwise (fun earlier later => earlier.1 < later.1)

variable {setup : Setup P} {faithful : Prop} {world : World P} {before after : EnclaveAutomata P}
  {signed : List (Nat × P.Hash)}

theorem initial_coherent (initial : world.Initial setup) : world.Coherent setup faithful := by
  obtain ⟨replicas, enclaves⟩ := initial
  refine ⟨?_, ?_, ?_, ?_, fun key _ => (enclaves key).2, ?_⟩
  · intro id correct
    rw [(replicas id correct).2]
    exact new_healthy (replicas id correct).1
  · intro id correct
    exact (new_idle (replicas id correct).1).1
  · intro id correct
    have inRange := (new_idle (replicas id correct).1).2
    rwa [(setup.named id correct).1, (setup.named id correct).2] at inRange
  · intro key enclave running
    rw [(enclaves key).1] at running
    cases running
  intro key
  rw [(enclaves key).2]
  exact List.Pairwise.nil

structure Extends (setup : Setup P) (world next : World P) : Prop where
  signed : ∀ id ∈ setup.correct, ∀ vertex ∈ signedBy (world.history id),
    vertex ∈ signedBy (next.history id)
  echoes : ∀ id ∈ setup.correct, ∀ echo ∈ echoesOf (world.history id),
    echo ∈ echoesOf (next.history id)
  issued : ∀ key, ∀ entry ∈ world.issued key, entry ∈ next.issued key

theorem Extends.healthy {next : World P} (ext : Extends setup world next) {id : Nat}
    {history : Output P} {replica : Replica P}
    (healthy : Healthy (world.signatures setup faithful) (world.heard setup) (setup.config id)
      history replica) :
    Healthy (next.signatures setup faithful) (next.heard setup) (setup.config id) history
      replica := by
  refine healthy.mono ?_ ?_
  · rintro attestation vertex ⟨⟨key, certified, issued⟩, known⟩
    refine ⟨⟨key, certified, ?_⟩, fun isFaithful => ?_⟩
    · rcases issued with ⟨other, correct, isKey, signed, member, same⟩ | foreign
      · exact .inl ⟨other, correct, isKey, signed, ext.signed other correct signed member, same⟩
      · exact .inr (ext.issued key _ foreign)
    · obtain ⟨other, correct, member⟩ := known isFaithful
      exact ⟨other, correct, ext.signed other correct vertex member⟩
  · intro sender creator attestation isHeard correct
    exact ext.echoes sender correct _ (isHeard correct)

/-- A call of a correct replica: the others only see more signatures and echoes. -/
theorem acted_coherent (coherent : world.Coherent setup faithful) {id : Nat} {replica : Replica P}
    {output : Output P} (call : Healthy (world.signatures setup faithful) (world.heard setup)
      (setup.config id) ((world.history id).append output) replica ∧ replica.Idle) :
    (world.acted id replica output).Coherent setup faithful := by
  have ext : Extends setup world (world.acted id replica output) := by
    refine ⟨?_, ?_, fun _ _ member => member⟩
    · intro other _ vertex member
      simp only [acted]
      by_cases isId : other = id
      · subst isId
        rw [update_self, signedBy_append]
        exact mem_append_left _ member
      · rwa [update_of_ne isId]
    intro other _ echo member
    simp only [acted]
    by_cases isId : other = id
    · subst isId
      rw [update_self, mem_echoesOf_append]
      exact .inl member
    · rwa [update_of_ne isId]
  refine ⟨?_, ?_, coherent.inRange, coherent.foreign, coherent.started, coherent.increasing⟩
  · intro other correct
    by_cases isId : other = id
    · subst isId
      have acting := ext.healthy call.1
      simp only [acted, update_self] at acting ⊢
      exact acting
    have resting := ext.healthy (coherent.healthy other correct)
    simp only [acted, update_of_ne isId] at resting ⊢
    exact resting
  intro other correct
  simp only [acted]
  by_cases isId : other = id
  · subst isId
    rw [update_self]
    exact call.2
  · rw [update_of_ne isId]
    exact coherent.idle other correct

theorem call_signed {request : EnclaveCall P} (run : request.run before = .ok (after, signed)) :
    after.enclave = before.enclave ∧ before.c ≤ after.c ∧
      (signed = [] ∨ ∃ hash, signed = [(before.c, hash)] ∧ before.c < after.c) := by
  cases request with
  | init =>
    simp only [EnclaveCall.run, bind_ok, Prod.exists, pair_ok] at run
    obtain ⟨_, _, called, rfl, rfl⟩ := run
    have step := (init_step called).1
    exact ⟨step.enclave, step.c.ge, .inl rfl⟩
  | initPeerHandshake peerId attestation =>
    simp only [EnclaveCall.run, bind_ok, Prod.exists, pair_ok] at run
    obtain ⟨_, _, called, rfl, rfl⟩ := run
    have step := (initPeerHandshake_step called).1
    exact ⟨step.enclave, step.c.ge, .inl rfl⟩
  | completePeerHandshake peerId handshake =>
    simp only [EnclaveCall.run, bind_ok, Prod.exists, pair_ok] at run
    obtain ⟨_, _, called, rfl, rfl⟩ := run
    have step := (completePeerHandshake_step called).1
    exact ⟨step.enclave, step.c.ge, .inl rfl⟩
  | sign messageHash =>
    rcases called : before.sign messageHash with ⟨automata, result⟩
    simp only [EnclaveCall.run, called] at run
    cases result with
    | error error =>
      obtain ⟨rfl, rfl⟩ := pair_ok.mp run
      obtain ⟨counter, le, rfl⟩ := sign_error called
      exact ⟨rfl, le, .inl rfl⟩
    | ok signature =>
      obtain ⟨rfl, rfl⟩ := pair_ok.mp run
      obtain ⟨rfl, counter, _⟩ := sign_ok called
      refine ⟨rfl, Nat.le_succ _, .inr ⟨messageHash, ?_, Nat.lt_succ_self _⟩⟩
      rw [counter]
  | toss proof =>
    simp only [EnclaveCall.run, bind_ok, Prod.exists, pair_ok] at run
    obtain ⟨_, _, called, rfl, rfl⟩ := run
    obtain ⟨sameC, sameKey⟩ := toss_kept called
    exact ⟨sameKey, sameC.ge, .inl rfl⟩

theorem called_coherent (coherent : world.Coherent setup faithful) {key : P.Key}
    {request : EnclaveCall P} (running : world.enclaves key = some before)
    (run : request.run before = .ok (after, signed)) :
    Coherent setup faithful { world with
      enclaves := update world.enclaves key (some after)
      issued := update world.issued key (world.issued key ++ signed) } := by
  obtain ⟨sameKey, le, isSigned⟩ := call_signed run
  obtain ⟨isForeign, isKey, below⟩ := coherent.foreign key before running
  have fresh : ∀ entry ∈ signed, entry.1 = before.c ∧ before.c < after.c := by
    rcases isSigned with rfl | ⟨hash, rfl, less⟩
    · intro entry member
      cases member
    intro entry member
    rw [mem_singleton.mp member]
    exact ⟨rfl, less⟩
  have ext : Extends setup world { world with
      enclaves := update world.enclaves key (some after)
      issued := update world.issued key (world.issued key ++ signed) } := by
    refine ⟨fun _ _ _ member => member, fun _ _ _ member => member, ?_⟩
    intro other entry member
    by_cases same : other = key
    · subst same
      simp only [update_self]
      exact mem_append_left _ member
    · simpa only [update_of_ne same] using member
  refine ⟨fun id correct => ext.healthy (coherent.healthy id correct), coherent.idle,
    coherent.inRange, ?_, ?_, ?_⟩
  · intro other enclave isRunning
    by_cases same : other = key
    · subst same
      simp only [update_self, some.injEq] at isRunning ⊢
      subst isRunning
      refine ⟨isForeign, sameKey.trans isKey, ?_⟩
      intro entry member
      rcases mem_append.mp member with old | new
      · exact lt_of_lt_of_le (below entry old) le
      · obtain ⟨isCounter, less⟩ := fresh entry new
        omega
    · simp only [update_of_ne same] at isRunning ⊢
      exact coherent.foreign other enclave isRunning
  · intro other isNone
    by_cases same : other = key
    · subst same
      simp at isNone
    · simp only [update_of_ne same] at isNone ⊢
      exact coherent.started other isNone
  intro other
  by_cases same : other = key
  · subst same
    simp only [update_self]
    rw [pairwise_append]
    refine ⟨coherent.increasing other, ?_, ?_⟩
    · rcases isSigned with rfl | ⟨hash, rfl, _⟩
      · exact List.Pairwise.nil
      · exact pairwise_singleton _ _
    intro earlier old later new
    rw [(fresh later new).1]
    exact below earlier old
  · simp only [update_of_ne same]
    exact coherent.increasing other

theorem Coherent.facts (coherent : world.Coherent setup faithful) {id : Nat}
    (correct : id ∈ setup.correct) :
    factsOf ((world.replicas id).total (world.history id)) = factsOf (world.history id) := by
  obtain ⟨me, idle⟩ := coherent.idle id correct
  rw [total, idle]
  exact factsOf_append_empty _

/-- A vertex that a correct host passes on is one that some correct host has signed. -/
theorem Coherent.relayed (coherent : world.Coherent setup faithful) (isFaithful : faithful)
    {source receiver : Nat} {message : PeerMessage P} (correct : source ∈ setup.correct)
    (sent : world.CanSend setup source receiver message) {vertex : Vertex P}
    (carries : message.message.vertex = some vertex) {attestation : P.Attestation}
    (verified : P.verify attestation vertex.counter vertex.hash vertex.signature = .ok true) :
    ∃ id ∈ setup.correct, vertex ∈ signedBy (world.history id) := by
  rcases sent correct with broadcast | unicast
  · exact ⟨source, correct, mem_filterMap.mpr ⟨message, broadcast, carries⟩⟩
  have authentic := (coherent.healthy source correct).working.sound.told message
    (mem_append_right _ (mem_map_of_mem (f := Prod.snd) (mem_append_left _ unicast)))
    vertex carries attestation verified
  rw [coherent.facts correct] at authentic
  rcases authentic with ⟨-, known⟩ | ⟨-, own⟩
  · exact known isFaithful
  · exact ⟨source, correct, own⟩

theorem delivered_admitted {source receiver : Nat} {env : Env} {message : PeerMessage P}
    (coherent : world.Coherent setup faithful) (among : faithful → source ∈ setup.correct)
    (correct : receiver ∈ setup.correct) (other : source ≠ receiver)
    (sent : world.CanSend setup source receiver message)
    (unforgeable : world.Unforgeable setup message)
    (named : (Event.deliver source receiver env message).EchoNamesSource) :
    Admits (world.signatures setup faithful) (world.heard setup) (setup.config receiver)
      (world.history receiver) message where
  authentic := fun vertex carries attestation verified =>
    .inl ⟨unforgeable vertex carries attestation verified, fun isFaithful =>
      coherent.relayed isFaithful (among isFaithful) sent carries verified⟩
  echoed := by
    intro creator attestation isEcho
    obtain ⟨sender, body⟩ := message
    cases body with
    | helloEcho creator' attestation' =>
      cases isEcho
      have isSource : sender = source := named
      have isMe := (setup.named receiver correct).1
      refine ⟨fun same => absurd (isSource.symm.trans (same.trans isMe)) other, ?_⟩
      intro _ isCorrect
      have inHistory := sent (isSource ▸ isCorrect)
      simp only [echoesOf, mem_append, mem_filterMap]
      rw [isSource]
      rcases inHistory with broadcast | unicast
      · exact .inl ⟨_, broadcast, rfl⟩
      · exact .inr ⟨_, unicast, rfl⟩
    | hello _ | helloReply _ | ready | signed _ | vertexRequest _ => cases isEcho

theorem step_coherent [Secure P] {next : World P} {event : Event P}
    (coherent : world.Coherent setup faithful) (among : faithful → event.FromCorrect setup)
    (named : event.EchoNamesSource) (step : Step setup world event next) :
    next.Coherent setup faithful := by
  cases step with
  | init correct run =>
    exact acted_coherent coherent (initHandshake_healthy (coherent.healthy _ correct) run)
  | deliver correct other sent unforgeable run =>
    exact acted_coherent coherent (processPeerMessage_healthy (coherent.healthy _ correct)
      (delivered_admitted coherent among correct other sent unforgeable named) run)
  | request correct run =>
    exact acted_coherent coherent (receiveClientRequest_healthy (coherent.healthy _ correct) run)
  | timeout correct run =>
    exact acted_coherent coherent (processVertexTimeout_healthy (coherent.healthy _ correct) run)
  | @launch key isForeign fresh =>
    refine ⟨coherent.healthy, coherent.idle, coherent.inRange, ?_, ?_, coherent.increasing⟩
    · intro other enclave running
      by_cases same : other = key
      · subst same
        simp only [update_self, some.injEq] at running
        subst running
        refine ⟨isForeign, rfl, ?_⟩
        intro entry member
        rw [coherent.started other fresh] at member
        cases member
      · simp only [update_of_ne same] at running
        exact coherent.foreign other enclave running
    intro other isNone
    by_cases same : other = key
    · subst same
      simp at isNone
    · simp only [update_of_ne same] at isNone
      exact coherent.started other isNone
  | call running run => exact called_coherent coherent running run

theorem run_coherent [Secure P] (run : Run setup Event.EchoNamesSource world) :
    world.Coherent setup False := by
  induction run with
  | start initial => exact initial_coherent initial
  | step _ named step ih => exact step_coherent ih False.elim named step

end World

end Abcperf.Nxbft
