import Abcperf.Nxbft.Coherence

/-! Agreement of correct replicas. They attest the same enclave for every id, so they hold the same
vertex at every address; their graphs then are parts of one graph, and what they have delivered is
a prefix of one sequence. -/

namespace Abcperf.Nxbft

open Lib Lib.Outcome Lib.DepthFirst Replica EnclaveAutomata RoundDag List Option

variable {P : Platform}

namespace World

variable {setup : Setup P} {faithful : Prop} {world : World P}

theorem Coherent.echoes (coherent : world.Coherent setup faithful) {id : Nat}
    (correct : id ∈ setup.correct) (echo : Nat × P.Attestation) :
    echo ∈ echoesOf ((world.replicas id).total (world.history id)) ↔
      echo ∈ echoesOf (world.history id) := by
  obtain ⟨me, idle⟩ := coherent.idle id correct
  rw [total, idle]
  exact mem_echoesOf_append_empty _ _

theorem counter_unique {α : Type} {counter : α → Nat} {entries : List α}
    (increasing : entries.Pairwise (fun earlier later => counter earlier < counter later))
    {left right : α} (isLeft : left ∈ entries) (isRight : right ∈ entries)
    (same : counter left = counter right) : left = right := by
  have distinct : (entries.map counter).Nodup :=
    pairwise_map.mpr (increasing.imp fun less => ne_of_lt less)
  exact inj_on_of_nodup_map distinct isLeft isRight same

theorem issued_unique (coherent : world.Coherent setup faithful) {key : P.Key} {counter : Nat}
    {left right : P.Hash} (isLeft : world.Issued setup key counter left)
    (isRight : world.Issued setup key counter right) : left = right := by
  have foreign : ∀ id ∈ setup.correct, ∀ entry ∈ world.issued key,
      (setup.config id).enclave ≠ key := by
    intro id correct entry member
    cases running : world.enclaves key with
    | none =>
      rw [coherent.started key running] at member
      cases member
    | some enclave => exact (coherent.foreign key enclave running).1 id correct
  rcases isLeft with ⟨id, correct, isKey, vertex, member, isCounter, rfl⟩ | inLeft
  · rcases isRight with ⟨id', correct', isKey', vertex', member', isCounter', rfl⟩ | inRight
    · cases setup.ownKey id correct id' correct' (isKey.trans isKey'.symm)
      have increasing := (coherent.healthy id correct).working.sound.graph.increasing
      rw [coherent.facts correct] at increasing
      rw [counter_unique increasing member member' (isCounter.trans isCounter'.symm)]
    · exact absurd isKey (foreign id correct _ inRight)
  rcases isRight with ⟨id, correct, isKey, _⟩ | inRight
  · exact absurd isKey (foreign id correct _ inLeft)
  · exact congrArg Prod.snd (counter_unique (coherent.increasing key) inLeft inRight rfl)

variable {vertex : Vertex P} {left right : Nat}

section

variable (coherent : world.Coherent setup faithful)

include coherent

/-- What a replica has verified was issued by an enclave with the attestation it used. -/
theorem verified_issued {id : Nat} (correct : id ∈ setup.correct)
    (verified : Verified (world.signatures setup faithful)
      (factsOf ((world.replicas id).total (world.history id))) (world.replicas id) vertex) :
    ∃ attestation key, (world.replicas id).enclave.peers vertex.creator =
        .handshakeComplete attestation P.ranges.new ∧
        P.attestationCertificate key = .ok attestation ∧
      world.Issued setup key vertex.counter vertex.hash := by
  obtain ⟨attestation, complete, ⟨⟨key, certified, issued⟩, -⟩ | ⟨certified, own⟩⟩ := verified
  · exact ⟨attestation, key, complete, certified, issued⟩
  rw [coherent.facts correct] at own
  exact ⟨attestation, _, complete, certified,
    .inl ⟨id, correct, (coherent.healthy id correct).own.key.symm, vertex, own, rfl, rfl⟩⟩

/-- Whoever is attested by `observer` was echoed by every replica, `witness` among them. -/
theorem attested_echoed {observer witness creator : Nat} (isObserver : observer ∈ setup.correct)
    (isWitness : witness ∈ setup.correct) {attestation : P.Attestation}
    (attested : attestationOf ((world.replicas observer).enclave.peers creator) =
      some attestation) :
    (creator, attestation) ∈ echoesOf (world.history witness) := by
  have healthy := coherent.healthy observer isObserver
  have named := setup.named observer isObserver
  obtain ⟨echos, found, enough⟩ :=
    healthy.handshake.attested creator attestation attested
  have sameN : (world.replicas observer).n = setup.n := healthy.own.n.trans named.2
  have member : witness ∈ echos := by
    refine echos.full_of_len _ ?_ enough witness ?_
    · exact fun sender isSender =>
        (healthy.handshake.collected creator attestation echos found sender isSender).1
    · rw [sameN]
      exact coherent.inRange witness isWitness
  obtain ⟨_, own, others⟩ :=
    healthy.handshake.collected creator attestation echos found witness member
  have isMe : (world.replicas observer).me = observer := healthy.own.me.trans named.1
  by_cases same : witness = observer
  · subst same
    exact (coherent.echoes isObserver _).mp (own isMe.symm)
  · exact others (fun itself => same (itself.trans isMe)) isWitness

theorem attestation_agree {creator : Nat} (isLeft : left ∈ setup.correct)
    (isRight : right ∈ setup.correct) {leftAttestation rightAttestation : P.Attestation}
    (atLeft : attestationOf ((world.replicas left).enclave.peers creator) = some leftAttestation)
    (atRight : attestationOf ((world.replicas right).enclave.peers creator) =
      some rightAttestation) :
    leftAttestation = rightAttestation := by
  have leftEcho := attested_echoed coherent isLeft isLeft atLeft
  have rightEcho := attested_echoed coherent isRight isLeft atRight
  exact (coherent.healthy left isLeft).handshake.unique creator _ _
    ((coherent.echoes isLeft _).mpr leftEcho) ((coherent.echoes isLeft _).mpr rightEcho)

theorem verified_agree [secure : Secure P] (isLeft : left ∈ setup.correct)
    (isRight : right ∈ setup.correct) {vertex' : Vertex P}
    (verified : Verified (world.signatures setup faithful)
      (factsOf ((world.replicas left).total (world.history left))) (world.replicas left) vertex)
    (verified' : Verified (world.signatures setup faithful)
      (factsOf ((world.replicas right).total (world.history right))) (world.replicas right) vertex')
    (sameCreator : vertex.creator = vertex'.creator)
    (sameCounter : vertex.counter = vertex'.counter) : vertex.SameSigned vertex' := by
  obtain ⟨attestation, key, complete, certified, issued⟩ :=
    verified_issued coherent isLeft verified
  obtain ⟨attestation', key', complete', certified', issued'⟩ :=
    verified_issued coherent isRight verified'
  rw [sameCreator] at complete
  obtain rfl := attestation_agree coherent isLeft isRight (congrArg attestationOf complete)
    (congrArg attestationOf complete')
  obtain rfl := secure.distinct key key' attestation certified certified'
  rw [sameCounter] at issued
  exact ⟨issued_unique coherent issued issued', sameCounter⟩

theorem held_agree [secure : Secure P] (isLeft : left ∈ setup.correct)
    (isRight : right ∈ setup.correct) {vertex' : Vertex P}
    (atLeft : (world.replicas left).Held vertex) (atRight : (world.replicas right).Held vertex')
    (sameAddress : vertex.address = vertex'.address) : vertex.SameSigned vertex' := by
  have healthy := coherent.healthy left isLeft
  have healthy' := coherent.healthy right isRight
  obtain ⟨log, logs⟩ := healthy.working.logs
  obtain ⟨log', logs'⟩ := healthy'.working.logs
  have sameCreator : vertex.creator = vertex'.creator := congrArg DagAddress.creator sameAddress
  have sameQuorum : (world.replicas left).quorum = (world.replicas right).quorum := by
    rw [healthy.working.sound.graph.quorum, healthy'.working.sound.graph.quorum, healthy.own.n,
      healthy'.own.n, (setup.named left isLeft).2, (setup.named right isRight).2]
  have wins := (logs.held vertex).mp atLeft
  have wins' := (logs'.held vertex').mp atRight
  rw [← sameCreator, ← sameQuorum] at wins'
  refine wins.agree ?_ ?_ ?_ wins' (congrArg DagAddress.round sameAddress)
  · intro index entry entry' found found'
    obtain ⟨named, counted, verified⟩ := logs.entry _ index entry found
    obtain ⟨named', counted', verified'⟩ := logs'.entry _ index entry' found'
    exact verified_agree coherent isLeft isRight verified verified'
      (named.trans named'.symm) (counted.trans counted'.symm)
  · rintro entry entry' ⟨sameHash, _⟩
    obtain ⟨sameAddress, sameEdges⟩ := secure.collisionFree entry entry' sameHash
    simp only [Vertex.Valid, Vertex.round, Vertex.numEdges, sameAddress, sameEdges]
  · exact fun entry entry' same =>
      congrArg DagAddress.round (secure.collisionFree entry entry' same.1).1

end

end World

namespace Dag

def Agree (left right : Dag P) : Prop :=
  ∀ address entry entry', left.lookup address = some entry → right.lookup address = some entry' →
    entry.vertex.SameSigned entry'.vertex

variable {left right : Dag P}

theorem Agree.successors [secure : Secure P] (agree : left.Agree right) {address : DagAddress}
    {below below' : List DagAddress} (known : left.successors address = some below)
    (known' : right.successors address = some below') : below = below' := by
  simp only [Dag.successors, map_eq_some_iff] at known known'
  obtain ⟨entry, found, rfl⟩ := known
  obtain ⟨entry', found', rfl⟩ := known'
  rw [(secure.collisionFree _ _ (agree address entry entry' found found').1).2]

theorem Agree.consistent [Secure P] {quorum quorum' : Nat} (agree : left.Agree right)
    (wellFormed : left.WellFormed quorum) (wellFormed' : right.WellFormed quorum') :
    (left.graph wellFormed).Consistent (right.graph wellFormed') := by
  intro address below below' known known'
  simp only [graph, map_eq_some_iff] at known known'
  obtain ⟨list, found, rfl⟩ := known
  obtain ⟨list', found', rfl⟩ := known'
  rw [agree.successors found found']

theorem Agree.transactionsAt (binds : P.BindsTransactions) (agree : left.Agree right)
    {address : DagAddress} (known : (left.lookup address).isSome)
    (known' : (right.lookup address).isSome) :
    left.transactionsAt address = right.transactionsAt address := by
  obtain ⟨entry, found⟩ := isSome_iff_exists.mp known
  obtain ⟨entry', found'⟩ := isSome_iff_exists.mp known'
  rw [Dag.transactionsAt, Dag.transactionsAt, found, found']
  exact binds _ _ (agree address entry entry' found found').1

end Dag

namespace Replica

/-- The order of a shorter ledger is a prefix of the order of a longer one. -/
theorem ordered_prefix [Secure P] {left right : Dag P}
    {leaders leaders' order order' : List DagAddress}
    {handedOut handedOut' : List P.Tx × (Nat → Option Nat)} (agree : left.Agree right)
    (ordered : Ordered left leaders order handedOut)
    (ordered' : Ordered right leaders' order' handedOut') (isPrefix : leaders <+: leaders') :
    order <+: order' := by
  obtain ⟨more, rfl⟩ := isPrefix
  let both : DagAddress → Option (List DagAddress) := fun address =>
    (left.successors address).or (right.successors address)
  have inLeft : ∀ address below, left.successors address = some below →
      both address = some below := by
    intro address below known
    simp [both, known]
  have inRight : ∀ address below, right.successors address = some below →
      both address = some below := by
    intro address below known
    cases found : left.successors address with
    | none => simp [both, found, known]
    | some below' => simp [both, found, agree.successors found known]
  exact linear_extends (linear_grows inLeft ordered.linear) more
    (linear_grows inRight ordered'.linear)

theorem handedOut_prefix (binds : P.BindsTransactions) {left right : Dag P}
    {leaders leaders' order order' : List DagAddress}
    {handedOut handedOut' : List P.Tx × (Nat → Option Nat)} (agree : left.Agree right)
    (ordered : Ordered left leaders order handedOut)
    (ordered' : Ordered right leaders' order' handedOut') (orders : order <+: order') :
    handedOut.1 <+: handedOut'.1 := by
  have sameTransactions : order.flatMap left.transactionsAt = order.flatMap right.transactionsAt :=
    Dag.flatMap_transactionsAt fun address member =>
      agree.transactionsAt binds (ordered.known address member)
        (ordered'.known address (orders.mem member))
  rw [ordered.replayed, ordered'.replayed, sameTransactions]
  obtain ⟨later, rfl⟩ := orders
  rw [flatMap_append]
  exact replay_prefix (prefix_append _ _)

theorem ledger_prefix [Secure P] {facts facts' : Facts P} {left right : Replica P}
    (ledger : LedgerInv facts left) (ledger' : LedgerInv facts' right)
    (agree : left.dag.Agree right.dag) (sameQuorum : left.quorum = right.quorum)
    (sameN : left.dag.n = right.dag.n) (majority : left.dag.n < 2 * left.quorum)
    (sameLeaders : 0 < left.decidedWave → leaderAt P left.n left.enclave.seed =
      leaderAt P right.n right.enclave.seed) (le : left.decidedWave ≤ right.decidedWave) :
    facts.leaders <+: facts'.leaders ∧ facts.order <+: facts'.order ∧
      (P.BindsTransactions → facts.delivery <+: facts'.delivery) := by
  have isPrefix : facts.leaders <+: facts'.leaders := by
    rcases Nat.eq_zero_or_pos left.decidedWave with zero | positive
    · have none : facts.leaders = [] := by
        rw [ledger.committed.leaders, zero]
        rfl
      rw [none]
      exact nil_prefix
    have within := within_union_left (left.dag.graph ledger.wellFormed)
        (right.dag.graph ledger'.wellFormed)
    have within' := within_union_right (agree.consistent ledger.wellFormed ledger'.wellFormed)
    have known := ledger.committed.known positive
    have known' := ledger'.committed.known (by omega)
    rw [ledger.committed.leaders, ledger'.committed.leaders, ← sequence_within within _ _ known,
      ← sequence_within within' _ _ known', ← sameLeaders positive]
    rw [← sameLeaders positive] at known'
    have dense : (right.dag.graph ledger'.wellFormed).Dense
        (Dag.IsQuorum left.dag.n left.quorum) := by
      rw [sameN, sameQuorum]
      exact Dag.graph_dense ledger'.wellFormed
    exact sequence_prefix (Dag.isQuorum_intersecting majority)
      (dense_union (Dag.graph_dense ledger.wellFormed) dense)
      (leaderAt_ordered left.n left.enclave.seed) le (fun positive => by omega)
      (fun positive => supported_within within (ledger.committed.supported positive))
      (fun _ => within_known within' known')
  have orders := ordered_prefix agree ledger.ordered ledger'.ordered isPrefix
  exact ⟨isPrefix, orders, fun binds =>
    handedOut_prefix binds agree ledger.ordered ledger'.ordered orders⟩

end Replica

end Abcperf.Nxbft
