import Abcperf.Nxbft.Agreement
import Abcperf.Nxbft.Execution

/-! Safety of NxBFT over whole runs: non-equivocation of vertices and agreement on what is
delivered. Both rest on every replica attesting the same enclave under an id, and the handshake
ensures that only as long as an echo comes from the replica it names. -/

namespace Abcperf.Nxbft

open Lib Replica Plain World Option

variable {P : Platform}

/-- The enclaves of correct replicas that are ready have one seed. -/
def World.SharedSeed (setup : Setup P) (world : World P) : Prop :=
  ∀ left ∈ setup.correct, ∀ right ∈ setup.correct,
    (world.replicas left).enclave.isReady = true → (world.replicas right).enclave.isReady = true →
    (world.replicas left).enclave.seed = (world.replicas right).enclave.seed

/-- Correct replicas that hold a vertex at the same address hold the same vertex. -/
theorem held_vertices_agree (secure : Secure P) (binds : P.BindsTransactions) {setup : Setup P}
    {world : World P} (run : Run setup Event.EchoNamesSource world) {left right : Nat}
    (isLeft : left ∈ setup.correct) (isRight : right ∈ setup.correct) {vertex vertex' : Vertex P}
    (atLeft : (world.replicas left).Held vertex) (atRight : (world.replicas right).Held vertex')
    (sameAddress : vertex.address = vertex'.address) : vertex.SameContent vertex' := by
  obtain ⟨sameHash, sameCounter⟩ :=
    held_agree (run_coherent run) isLeft isRight atLeft atRight sameAddress
  exact ⟨sameAddress, (secure.collisionFree _ _ sameHash).2, binds _ _ sameHash, sameCounter⟩

namespace Plain

instance (world : World platform) (setup : Setup platform) : Decidable (world.SharedSeed setup) :=
  inferInstanceAs (Decidable (∀ left ∈ setup.correct, ∀ right ∈ setup.correct, _ → _ → _ = _))

/-- A replica has the first vertex of replica 1 in its graph, with these transactions. -/
def HasFirst (world : World platform) (id : Nat) (txs : List (Nat × Nat)) : Prop :=
  ∃ entry, (world.replicas id).dag.lookup ⟨1, 1⟩ = some entry ∧
    entry.vertex.address = ⟨1, 1⟩ ∧ entry.vertex.transactions = txs

instance (world : World platform) (id : Nat) (txs : List (Nat × Nat)) :
    Decidable (HasFirst world id txs) :=
  inferInstanceAs (Decidable (∃ entry, _ = some entry ∧ _ = _ ∧ _ = _))

theorem HasFirst.held {world : World platform} {id : Nat} {txs : List (Nat × Nat)}
    (has : HasFirst world id txs) : ∃ vertex, (world.replicas id).Held vertex ∧
      vertex.address = ⟨1, 1⟩ ∧ vertex.transactions = txs := by
  obtain ⟨entry, found, named, carries⟩ := has
  exact ⟨entry.vertex, .inr ⟨entry, named ▸ found, rfl⟩, named, carries⟩

theorem faithful_run : ∃ world, Run setup Event.EchoNamesSource world ∧ world.SharedSeed setup ∧
    HasFirst world 0 [(7, 1)] ∧ HasFirst world 1 [(7, 1)] ∧
    (world.history 0).delivery = [(7, 1)] :=
  player.play_run (fun _ => Event.echoNamesSource_sound) start_initial faithful (by decide +kernel)

theorem spoofed_run : ∃ world, Run setup (fun _ => True) world ∧ world.SharedSeed setup ∧
    HasFirst world 0 [(7, 1)] ∧ HasFirst world 1 [(7, 2)] ∧
    (world.history 0).delivery = [(7, 1)] ∧ (world.history 1).delivery = [(7, 2)] :=
  player.play_run (fun _ (_ : true = true) => trivial) start_initial spoofed (by decide +kernel)

end Plain

/-- Two replicas that follow the protocol hold the same first vertex of replica 1. -/
theorem held_vertices_agree_faithful : ∃ world left right,
    Run Plain.setup Event.EchoNamesSource world ∧ (world.replicas 0).Held left ∧
      (world.replicas 1).Held right ∧ left.address = right.address ∧ left.SameContent right := by
  obtain ⟨world, run, -, hasLeft, hasRight, -⟩ := faithful_run
  obtain ⟨left, isLeft, leftAt, -⟩ := hasLeft.held
  obtain ⟨right, isRight, rightAt, -⟩ := hasRight.held
  have sameAddress := leftAt.trans rightAt.symm
  exact ⟨world, left, right, run, isLeft, isRight, sameAddress, held_vertices_agree secure binds
    run (by decide) (by decide) isLeft isRight sameAddress⟩

/-- With echoes in the name of others, the two correct replicas hold different vertices of
replica 1 in round 1. -/
theorem spoofed_echoes_equivocate :
    Secure Plain.platform ∧ Plain.platform.BindsTransactions ∧ ∃ world left right,
    Run Plain.setup (fun _ => True) world ∧ 0 ∈ Plain.setup.correct ∧ 1 ∈ Plain.setup.correct ∧
      (world.replicas 0).Held left ∧ (world.replicas 1).Held right ∧
      left.address = right.address ∧ left.transactions ≠ right.transactions := by
  obtain ⟨world, run, -, hasLeft, hasRight, -⟩ := spoofed_run
  obtain ⟨left, isLeft, leftAt, leftTxs⟩ := hasLeft.held
  obtain ⟨right, isRight, rightAt, rightTxs⟩ := hasRight.held
  refine ⟨secure, binds, world, left, right, run, by decide, by decide, isLeft, isRight,
    leftAt.trans rightAt.symm, ?_⟩
  rw [leftTxs, rightTxs]
  decide

/-- A replica that has decided less has decided, ordered and delivered a prefix. -/
theorem World.ledgers_nested [Secure P] {setup : Setup P} {world : World P}
    (coherent : world.Coherent setup False) (shared : world.SharedSeed setup) {left right : Nat}
    (isLeft : left ∈ setup.correct) (isRight : right ∈ setup.correct)
    (le : (world.replicas left).decidedWave ≤ (world.replicas right).decidedWave) :
    leadersOf (world.history left) <+: leadersOf (world.history right) ∧
      orderOf (world.history left) <+: orderOf (world.history right) ∧
      (P.BindsTransactions →
        (world.history left).delivery <+: (world.history right).delivery) := by
  have leftInv := (coherent.healthy left isLeft).working.sound.graph
  have rightInv := (coherent.healthy right isRight).working.sound.graph
  have sameN : (world.replicas left).n = (world.replicas right).n := by
    rw [(coherent.healthy left isLeft).own.n, (coherent.healthy right isRight).own.n,
      (setup.named left isLeft).2, (setup.named right isRight).2]
  have ready : ∀ id ∈ setup.correct, 0 < (world.replicas id).decidedWave →
      (world.replicas id).enclave.isReady = true := by
    intro id correct positive
    rw [EnclaveAutomata.isReady, isSome_iff_ne_none]
    intro unready
    have := ((coherent.healthy id correct).working.sound.graph.unready unready).2.1
    omega
  have agree : (world.replicas left).dag.Agree (world.replicas right).dag := by
    intro address entry entry' found found'
    have named := (leftInv.ledger.wellFormed.slot address entry found).1
    have named' := (rightInv.ledger.wellFormed.slot address entry' found').1
    exact held_agree coherent isLeft isRight
      (.inr ⟨entry, named.symm ▸ found, rfl⟩) (.inr ⟨entry', named'.symm ▸ found', rfl⟩)
      (named.trans named'.symm)
  have ledgers := ledger_prefix leftInv.ledger rightInv.ledger agree
    (by rw [leftInv.quorum, rightInv.quorum, sameN])
    (by rw [leftInv.dagN, rightInv.dagN, sameN])
    (by rw [leftInv.dagN, leftInv.quorum]; omega)
    (fun positive => by
      rw [sameN, shared left isLeft right isRight (ready left isLeft positive)
        (ready right isRight (by omega))]) le
  rw [coherent.facts isLeft, coherent.facts isRight] at ledgers
  exact ledgers

/-- What two correct replicas have delivered is comparable, and so are the leaders they have
decided; no replica delivers a client's requests out of order or twice. -/
theorem delivered_sequences_agree (secure : Secure P) (binds : P.BindsTransactions)
    {setup : Setup P} {world : World P} (run : Run setup Event.EchoNamesSource world)
    (shared : world.SharedSeed setup) {left right : Nat} (isLeft : left ∈ setup.correct)
    (isRight : right ∈ setup.correct) :
    PrefixComparable (world.history left).delivery (world.history right).delivery ∧
      PrefixComparable (leadersOf (world.history left)) (leadersOf (world.history right)) ∧
      (world.history left).delivery.Pairwise (fun earlier later =>
        P.clientId earlier = P.clientId later → P.requestId earlier < P.requestId later) := by
  have coherent := run_coherent run
  refine ⟨?_, ?_, ?_⟩
  · rcases le_total (world.replicas left).decidedWave (world.replicas right).decidedWave with
      le | ge
    · exact .inl ((ledgers_nested coherent shared isLeft isRight le).2.2 binds)
    · exact .inr ((ledgers_nested coherent shared isRight isLeft ge).2.2 binds)
  · rcases le_total (world.replicas left).decidedWave (world.replicas right).decidedWave with
      le | ge
    · exact .inl (ledgers_nested coherent shared isLeft isRight le).1
    · exact .inr (ledgers_nested coherent shared isRight isLeft ge).1
  have ordered := (coherent.healthy left isLeft).working.sound.graph.ledger.ordered
  rw [coherent.facts isLeft] at ordered
  have newest := replay_newest (P := P)
    ((orderOf (world.history left)).flatMap (world.replicas left).dag.transactionsAt)
  have replayed : ((world.history left).delivery, (world.replicas left).clientLastRequest) =
    replay ((orderOf (world.history left)).flatMap (world.replicas left).dag.transactionsAt) :=
    ordered.replayed
  rw [← replayed] at newest
  exact newest.ascending

theorem delivered_sequences_agree_faithful : ∃ world,
    Run Plain.setup Event.EchoNamesSource world ∧ world.SharedSeed Plain.setup ∧
      (world.history 0).delivery = [(7, 1)] ∧
      PrefixComparable (world.history 0).delivery (world.history 1).delivery := by
  obtain ⟨world, run, shared, -, -, delivered⟩ := faithful_run
  exact ⟨world, run, shared, delivered,
    (delivered_sequences_agree secure binds run shared (by decide) (by decide)).1⟩

/-- With echoes in the name of others, the two correct replicas deliver different first
transactions, although the enclaves share one seed. -/
theorem spoofed_echoes_split_delivery : Secure Plain.platform ∧
    Plain.platform.BindsTransactions ∧ ∃ world, Run Plain.setup (fun _ => True) world ∧
    world.SharedSeed Plain.setup ∧
      0 ∈ Plain.setup.correct ∧ 1 ∈ Plain.setup.correct ∧
      ¬ PrefixComparable (world.history 0).delivery (world.history 1).delivery := by
  obtain ⟨world, run, shared, -, -, first, second⟩ := spoofed_run
  refine ⟨secure, binds, world, run, shared, by decide, by decide, ?_⟩
  rw [first, second]
  unfold PrefixComparable
  decide

end Abcperf.Nxbft
