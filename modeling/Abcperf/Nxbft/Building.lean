import Abcperf.Nxbft.Steps

/-! The handlers that build the graph keep its invariant and hold the same vertices as before. -/

namespace Abcperf.Nxbft

open Lib Lib.Outcome Lib.DepthFirst EnclaveAutomata List Option

variable {P : Platform}

namespace Replica

variable {issued : P.Attestation → Vertex P → Prop}

def Settled (replica : Replica P) : Prop := 4 * replica.decidedWave < replica.round

/-- A step of building the graph: the invariant holds after it and no vertex is gained or lost. -/
structure Builds (issued : P.Attestation → Vertex P → Prop) (history : Output P)
    (before after : Replica P) : Prop where
  sound : Sound issued history after
  kept : Kept before after
  held : ∀ vertex, after.Held vertex ↔ before.Held vertex

variable {history : Output P} {replica next : Replica P} {env : Env} {dag : Dag P}

theorem Builds.refl (sound : Sound issued history replica) :
    Builds issued history replica replica :=
  ⟨sound, Kept.refl replica, fun _ => Iff.rfl⟩

theorem Builds.trans {first second third : Replica P} (left : Builds issued history first second)
    (right : Builds issued history second third) : Builds issued history first third :=
  ⟨right.sound, left.kept.trans right.kept,
    fun vertex => (right.held vertex).trans (left.held vertex)⟩

theorem Quiet.builds {before after : Replica P} (quiet : Quiet before after)
    (sound : Sound issued history before) : Builds issued history before after :=
  ⟨quiet.sound sound, quiet.kept, quiet.held⟩

theorem Spares.settled {before after : Replica P} (spares : Spares before after)
    (settled : before.Settled) : after.Settled := by
  unfold Settled
  rw [spares.stays.round, spares.decidedWave]
  exact settled

section

variable (sound : Sound issued history replica)

include sound

theorem skipCounter_builds {counter : Nat} (le : replica.enclave.c ≤ counter) :
    Builds issued history replica
      { replica with enclave := { replica.enclave with c := counter } } where
  sound := { sound with graph := { sound.graph with
    ledger := { sound.graph.ledger with }
    counters := fun vertex member => (sound.graph.counters vertex member).trans_le le } }
  kept := { Kept.refl replica with }
  held := fun _ => Iff.rfl

/-- The new vertex is the one the enclave has just signed, so it is authentic. -/
theorem signed_builds [secure : Secure P] (vertex : Vertex P)
    (counter : vertex.counter = replica.enclave.c)
    (signed : P.sign replica.enclave.enclave vertex.hash replica.enclave.c = .ok vertex.signature) :
    Builds issued history replica
      ({ replica with enclave := { replica.enclave with c := replica.enclave.c + 1 } }.broadcast
        (.signed ⟨vertex⟩)) := by
  have inv := sound.graph
  have facts : factsOf (total history ({ replica with
      enclave := { replica.enclave with c := replica.enclave.c + 1 } }.broadcast
        (.signed ⟨vertex⟩))) =
      { factsOf (replica.total history) with
        signed := (factsOf (replica.total history)).signed ++ [vertex] } := by
    simp [factsOf, total, broadcast, UnreflectedOutput.broadcast, signedBy, Output.append,
      Message.vertex, leadersOf, orderOf]
  have more : ∀ other ∈ (factsOf (replica.total history)).signed,
      other ∈ (factsOf (replica.total history)).signed ++ [vertex] :=
    fun other member => mem_append_left _ member
  have authentic : Authentic issued { factsOf (replica.total history) with
      signed := (factsOf (replica.total history)).signed ++ [vertex] }
      replica.enclave.enclave vertex := by
    intro attestation verified
    rw [counter] at verified
    exact .inr ⟨secure.exclusive _ _ _ _ _ signed verified,
      mem_append_right _ (mem_singleton.mpr rfl)⟩
  refine ⟨⟨?_, ?_⟩, { Kept.refl replica with echoes := ?_, signed := ?_, reflectedEchoes := ?_ },
    fun _ => Iff.rfl⟩
  · rw [facts]
    refine { inv with
      ledger := { inv.ledger with }
      counters := ?_, increasing := ?_, signatures := ?_, buffered := ?_, held := ?_ }
    · exact forall_mem_concat (fun other old => Nat.lt_succ_of_lt (inv.counters other old))
        (Nat.lt_succ_of_le counter.le)
    · show List.Pairwise _ ((factsOf (replica.total history)).signed ++ [vertex])
      rw [pairwise_append]
      refine ⟨inv.increasing, pairwise_singleton _ _, ?_⟩
      intro earlier old later new
      rw [mem_singleton.mp new, counter]
      exact inv.counters earlier old
    · exact forall_mem_concat inv.signatures (by rw [counter]; exact signed)
    · intro creator message member
      obtain ⟨named, ⟨attestation, complete, logged⟩, isAuthentic⟩ :=
        inv.buffered creator message member
      exact ⟨named, ⟨attestation, complete, logged.mono more⟩, isAuthentic.mono more⟩
    intro other isHeld
    obtain ⟨valid, isAuthentic⟩ := inv.held other isHeld
    exact ⟨valid, isAuthentic.mono more⟩
  · intro message member carried carries
    rw [facts]
    simp only [told, broadcast, UnreflectedOutput.broadcast, mem_append,
      mem_singleton] at member
    rcases member with (old | rfl) | old
    · exact (sound.told message (mem_append_left _ old) carried carries).mono more
    · cases carries
      exact authentic
    · exact (sound.told message (mem_append_right _ old) carried carries).mono more
  · simp [broadcast, UnreflectedOutput.broadcast, echoesOf, Message.echo]
  · intro other member
    simp only [broadcast, UnreflectedOutput.broadcast, signedBy, filterMap_append,
      mem_append]
    exact .inl member
  intro message member isEcho
  simp only [broadcast, UnreflectedOutput.broadcast, mem_append,
    mem_singleton] at member
  rcases member with old | rfl
  · exact old
  · exact absurd rfl isEcho

theorem signVertex_builds [Secure P] : Builds issued history replica (replica.signVertex env) := by
  unfold signVertex
  rcases popped : replica.pendingClientRequests.popFront with ⟨txs, pendingClientRequests⟩
  rcases run : replica.enclave.sign
    (SignableVertex.new ⟨replica.round, replica.me⟩ replica.nextEdges txs).toHash with
    ⟨enclave, result⟩
  simp only [run]
  cases result with
  | error error =>
    obtain ⟨counter, le, rfl⟩ := sign_error run
    have skipped := skipCounter_builds sound le
    refine skipped.trans (Quiet.builds ?_ skipped.sound)
    have quiet := quiet_stateMessage
      { replica with enclave := { replica.enclave with c := counter } }
        (.enclaveError error) rfl rfl
    exact { quiet with core := rfl }
  | ok signature =>
    obtain ⟨rfl, counter, signed⟩ := sign_ok run
    have built := signed_builds sound ⟨⟨replica.round, replica.me⟩,
      replica.nextEdges, txs, signature.1, signature.2⟩ counter signed
    refine built.trans (Quiet.builds ?_ built.sound)
    exact ⟨rfl, rfl, rfl, fun _ => .inl, fun _ => .inl⟩

theorem createVertex_builds [Secure P] {allowed : Bool}
    (run : replica.createVertex env allowed = .ok next) : Builds issued history replica next := by
  unfold createVertex at run
  split at run
  · split at run
    · exact pure_ok.mp run ▸ Builds.refl sound
    · exact pure_ok.mp run ▸ Quiet.builds ⟨rfl, rfl, rfl, fun _ => .inl, fun _ => .inl⟩ sound
  obtain ⟨full, _, run⟩ := bind_ok.mp run
  simp only at run
  split at run
  · exact pure_ok.mp run ▸ signVertex_builds sound
  · exact pure_ok.mp run ▸ Quiet.builds ⟨rfl, rfl, rfl, fun _ => .inl, fun _ => .inl⟩ sound

end

/-- The check of the edges is quiet whatever is in the buffer, since it does not look at it. -/
theorem checkEdges_quiet {vertex : Vertex P} {add : Bool}
    (run : checkEdges env replica vertex = .ok (next, add)) :
    (∀ vertexBuffer, Quiet { replica with vertexBuffer } { next with vertexBuffer }) ∧
      (add = true → 0 < vertex.round → ∀ edge ∈ vertex.edges,
        (next.dag.lookup ⟨vertex.round - 1, edge⟩).isSome) := by
  have asks : ∀ (current : Replica P) edge vertexBuffer,
      Quiet { current with vertexBuffer } { askFor current edge with vertexBuffer } := by
    intro current edge vertexBuffer
    have asked := (quiet_broadcast { current with vertexBuffer }
        (.vertexRequest edge) rfl rfl).trans
      (quiet_stateMessage _ (.vertexRequest edge.round edge.creator) rfl rfl)
    exact { asked with core := by simp only [core, askFor, broadcast, stateMessage] }
  obtain ⟨quiet, dag, adds⟩ := checkEdges_spec (motive := fun current => ∀ vertexBuffer,
    Quiet { replica with vertexBuffer } { current with vertexBuffer }) (fun _ => .refl _)
    (fun current edge quiet vertexBuffer => (quiet vertexBuffer).trans (asks ..)) run
  refine ⟨quiet, fun isAdd positive edge member => ?_⟩
  rw [dag]
  exact adds.mp isAdd edge member _ (previousRound_pos _ positive)

theorem insert_builds (replica : Replica P) {vertex : Vertex P} {kept rest : List (Vertex P)}
    (sound : Sound issued history {replica with vertexBuffer := kept ++ vertex :: rest })
    (parents : 0 < vertex.round → ∀ edge ∈ vertex.edges,
      (replica.dag.lookup ⟨vertex.round - 1, edge⟩).isSome)
    (run : replica.dag.insert vertex = .ok dag) :
    Builds issued history { replica with vertexBuffer := kept ++ vertex :: rest }
      { replica with dag, vertexBuffer := kept ++ rest } := by
  have inv := sound.graph
  have inserted := Dag.insert_inserted run
  have buffered : Held { replica with vertexBuffer := kept ++ vertex :: rest } vertex :=
    .inl (mem_append_right _ mem_cons_self)
  obtain ⟨valid, _⟩ := inv.held vertex buffered
  have positive : 0 < vertex.round := by
    have := inserted.inside
    have : replica.dag.offset = 1 := inv.ledger.wellFormed.offset
    omega
  have wellFormed : dag.WellFormed replica.quorum :=
    inserted.wellFormed inv.ledger.wellFormed (parents positive) valid.1 valid.2
  have held : ∀ other, Held { replica with dag, vertexBuffer := kept ++ rest } other ↔
      Held { replica with vertexBuffer := kept ++ vertex :: rest } other := by
    intro other
    obtain ⟨reaches, _, slots⟩ := inserted.slots
    unfold Held
    simp only [mem_append, mem_cons, slots]
    by_cases isNew : other.address = vertex.address
    · -- the slot was free, and holds the vertex now
      have fresh := inserted.fresh
      rw [if_pos isNew, isNew, fresh]
      grind [VertexWithMeta.new]
    · rw [if_neg isNew]
      grind
  refine ⟨⟨{ inv with
    ledger := { inv.ledger with
      wellFormed
      committed := inv.ledger.committed.grow inserted.grows inserted.n wellFormed
      ordered := inv.ledger.ordered.insert inserted
      exploredBelow := ?_
      exploredFrom := inserted.exploredFrom.trans_le inv.ledger.exploredFrom }
    reachesSound := inserted.reachesSound inv.ledger.wellFormed wellFormed inv.reachesSound
    dagN := inserted.n.trans inv.dagN
    held := fun other isHeld => inv.held other ((held other).mp isHeld) }, sound.told⟩,
    { Kept.refl replica with }, held⟩
  rintro address ⟨entry, found, marked⟩
  show address.round ≤ dag.exploredFrom
  rw [inserted.exploredFrom]
  obtain ⟨reaches, _, slots⟩ := inserted.slots
  have found' : dag.lookup address = some entry := found
  rw [slots] at found'
  by_cases isNew : address = vertex.address
  · rw [if_pos isNew, some.injEq] at found'
    subst found'
    cases marked
  · rw [if_neg isNew] at found'
    exact inv.ledger.exploredBelow address ⟨entry, found', marked⟩

theorem traverseLoop_builds (pending : List (Vertex P)) (replica next : Replica P)
    (kept kept' : List (Vertex P)) (inserts inserts' : List DagAddress)
    (sound : Sound issued history { replica with vertexBuffer := kept ++ pending })
    (run : traverseLoop env pending replica kept inserts = .ok (next, kept', inserts')) :
    Builds issued history { replica with vertexBuffer := kept ++
    pending } { next with vertexBuffer := kept' } := by
  induction pending generalizing replica next kept kept' inserts inserts' with
  | nil =>
    simp only [traverseLoop, pair_ok] at run
    obtain ⟨rfl, rfl, rfl⟩ := run
    rw [append_nil] at sound ⊢
    exact Builds.refl sound
  | cons vertex rest ih =>
    simp only [traverseLoop] at run
    split at run
    · rw [pair_ok, Prod.mk.injEq] at run
      obtain ⟨rfl, rfl, rfl⟩ := run
      exact Builds.refl sound
    obtain ⟨⟨checked, add⟩, edges, run⟩ := bind_ok.mp run
    obtain ⟨quiet, known⟩ := checkEdges_quiet edges
    have check := (quiet (kept ++ vertex :: rest)).builds sound
    split at run
    · next isAdd =>
      obtain ⟨dag, inserted, run⟩ := bind_ok.mp run
      have note := (quiet_stateMessage { checked with vertexBuffer := kept ++ vertex :: rest }
        (.vertexAdded vertex.address) rfl rfl).builds check.sound
      have grown := insert_builds (checked.stateMessage (.vertexAdded vertex.address))
        note.sound (known isAdd) inserted
      exact ((check.trans note).trans grown).trans (ih _ next kept kept' _ inserts' grown.sound run)
    have same : kept ++ vertex :: rest = (kept ++ [vertex]) ++ rest := by simp
    rw [same] at check ⊢
    exact check.trans (ih _ next _ kept' _ inserts' check.sound run)

theorem answerRequests_quiet {address : DagAddress}
    (wellFormed : replica.dag.WellFormed replica.quorum)
    (run : replica.answerRequests address = .ok next) : Quiet replica next := by
  simp only [answerRequests] at run
  refine foldlM_keeps (Quiet replica) _ _ _ _ ?_ ?_ run
  case refine_2 => exact quiet_fields _ _ rfl rfl
  intro state receiver after _ quiet step
  simp only [bind_ok, pure_ok, Dag.get_ok, unwrap_ok] at step
  obtain ⟨_, ⟨_, rfl⟩, vertex, found, rfl⟩ := step
  obtain ⟨entry, entryFound, rfl⟩ := map_eq_some_iff.mp found
  refine quiet.trans (quiet_unicast state receiver _ rfl fun vertex carries => ?_)
  cases carries
  have dag : state.dag = replica.dag := quiet.field Replica.dag
  have named : entry.vertex.address = address :=
    (wellFormed.slot address entry (dag ▸ entryFound)).1
  exact .inr ⟨entry, by rw [named]; exact entryFound, rfl⟩

theorem held_same (replica next : Replica P) (same : replica.dag.SameVertices next.dag)
    (buffer : next.vertexBuffer = replica.vertexBuffer) (vertex : Vertex P) :
    next.Held vertex ↔ replica.Held vertex := by
  have slots := same.vertex vertex.address
  have iff : (∃ entry, next.dag.lookup vertex.address = some entry ∧ entry.vertex = vertex) ↔
      ∃ entry, replica.dag.lookup vertex.address = some entry ∧ entry.vertex = vertex := by
    rw [← map_eq_some_iff, ← map_eq_some_iff, slots]
  unfold Held
  rw [buffer, iff]

theorem GraphInv.remark {facts facts' : Facts P} (inv : GraphInv issued facts replica)
    (signed : facts'.signed = facts.signed) (same : replica.dag.SameVertices dag)
    {round decidedWave : Nat} {clientLastRequest pendingWaveCoins : Nat → Option Nat}
    (unready : replica.enclave.rng = none → decidedWave = 0 ∧ ∀ wave, pendingWaveCoins wave = none)
    (ledger : LedgerInv facts'
      { replica with dag, round, decidedWave, clientLastRequest, pendingWaveCoins }) :
    GraphInv issued facts'
      { replica with dag, round, decidedWave, clientLastRequest, pendingWaveCoins } := by
  have more : ∀ vertex ∈ facts.signed, vertex ∈ facts'.signed := fun _ member => signed ▸ member
  refine { inv with
    ledger, reachesSound := ?_, dagN := same.n.trans inv.dagN
    unready := fun rng => ⟨(inv.unready rng).1, unready rng⟩
    counters := signed ▸ inv.counters, increasing := signed ▸ inv.increasing
    signatures := signed ▸ inv.signatures, buffered := ?_, held := ?_ }
  · intro address entry found creator member
    obtain ⟨older, olderFound, _, sameReaches⟩ := same.slot found
    have sameGraph : dag.graph ledger.wellFormed = replica.dag.graph inv.ledger.wellFormed :=
      same.graph inv.ledger.wellFormed
    rw [sameGraph]
    exact inv.reachesSound address older olderFound creator (sameReaches ▸ member)
  · intro creator message member
    obtain ⟨named, ⟨attestation, complete, logged⟩, isAuthentic⟩ :=
      inv.buffered creator message member
    exact ⟨named, ⟨attestation, complete, logged.mono more⟩, isAuthentic.mono more⟩
  intro vertex isHeld
  have heldBefore := (held_same replica
    { replica with dag, round, decidedWave, clientLastRequest, pendingWaveCoins }
    same rfl vertex).mp isHeld
  obtain ⟨valid, authentic⟩ := inv.held vertex heldBefore
  exact ⟨valid, authentic.mono more⟩

theorem newRound_builds (round : Nat) (sound : Sound issued history replica) :
    Builds issued history replica { replica with round, dag := replica.dag.newRound } := by
  have inv := sound.graph
  have same := Dag.sameVertices_newRound replica.dag
  have marks : ∀ address, replica.dag.newRound.lookup address = replica.dag.lookup address :=
    Dag.lookup_newRound replica.dag
  have wellFormed := same.wellFormed inv.ledger.wellFormed
  refine ⟨⟨inv.remark rfl same (fun rng => (inv.unready rng).2) { inv.ledger with
    wellFormed
    committed := inv.ledger.committed.remark same wellFormed
    ordered := inv.ledger.ordered.remark same (fun address => by rw [marks])
    exploredBelow := ?_ }, sound.told⟩, { Kept.refl replica with },
    held_same replica _ same rfl⟩
  rintro address ⟨entry, found, marked⟩
  exact inv.ledger.exploredBelow address ⟨entry, (marks address).symm.trans found, marked⟩

/-- The coin of a wave: the enclave has tossed one coin for every wave before. -/
theorem tossed_builds {wave drawn : Nat} {rng : P.Rng} (sound : Sound issued history replica)
    (ready : replica.enclave.rng = some rng) (next : replica.enclave.nextToss = 4 * wave)
    (isDrawn : drawn = (P.sample replica.enclave.n rng).1) :
    drawn = coin P replica.n replica.enclave.seed wave ∧
    Builds issued history replica { replica with
      enclave := { replica.enclave with
        nextToss := replica.enclave.nextToss + 4
        rng := some (P.sample replica.enclave.n rng).2 }
      pendingWaveCoins := Function.update replica.pendingWaveCoins wave (some drawn) } := by
  have inv := sound.graph
  obtain ⟨count, atToss, isState⟩ := inv.tosses rng ready
  have before : wave - 1 = count := by omega
  have isCoin : drawn = coin P replica.n replica.enclave.seed wave := by
    rw [isDrawn, coin, before, ← isState, inv.enclaveN]
  refine ⟨isCoin, ⟨⟨{ inv with
    ledger := { inv.ledger with coins := ?_ }, unready := ?_, tosses := ?_ }, sound.told⟩,
    { Kept.refl replica with }, fun _ => Iff.rfl⟩⟩
  · intro other tossed found
    by_cases isWave : other = wave
    · subst isWave
      simp only [Function.update_self, some.injEq] at found
      exact found.symm.trans isCoin
    · simp only [Function.update_of_ne isWave] at found
      exact inv.ledger.coins other tossed found
  · intro impossible
    cases impossible
  intro rng' isRng
  refine ⟨count + 1, by show replica.enclave.nextToss + 4 = _; omega, ?_⟩
  rw [← some.inj isRng, coinState, ← isState, inv.enclaveN]

theorem coinProof_round {quorum round : Nat} {proof : List (SignedVertex P)}
    (wellFormed : dag.WellFormed quorum) (run : coinProof dag round = .ok proof) :
    ∀ vertex ∈ proof, vertex.signable.address.round = round := by
  intro vertex member
  obtain ⟨address, inRound, step⟩ := mem_mapM run vertex member
  simp only [bind_ok, pure_ok, Dag.get_ok, unwrap_ok] at step
  obtain ⟨_, ⟨_, rfl⟩, stored, found, rfl⟩ := step
  obtain ⟨entry, entryFound, rfl⟩ := map_eq_some_iff.mp found
  have named := (wellFormed.slot address entry entryFound).1
  show entry.vertex.address.round = round
  rw [named]
  exact (Dag.mem_getRound wellFormed inRound).1

section

variable (sound : Sound issued history replica)

include sound

theorem decideWave_builds {fuel wave waveLeader : Nat} (later : replica.decidedWave < wave)
    (ready : replica.enclave.rng ≠ none)
    (leader : waveLeader = coin P replica.n replica.enclave.seed wave)
    (present : (replica.dag.lookup ⟨waveRound wave 1, waveLeader⟩).isSome)
    (supported : (replica.dag.graph sound.graph.ledger.wellFormed).Supported
      (Dag.IsQuorum replica.dag.n replica.quorum) ⟨waveRound wave 1, waveLeader⟩ (4 * wave))
    (run : replica.decideWave fuel wave waveLeader = .ok next) :
    Builds issued history replica next ∧ next.decidedWave = wave := by
  have inv := sound.graph
  have majority : replica.dag.n < 2 * replica.quorum := by
    rw [inv.dagN, inv.quorum]
    omega
  obtain ⟨dag, more, last, message, isDecided, same, ledger⟩ :=
    decideWave_ledger inv.ledger majority later leader present supported run
  clear run supported
  subst isDecided
  have signed : (factsOf ((replica.decided dag more last wave message).total history)).signed =
      (factsOf (replica.total history)).signed := rfl
  refine ⟨⟨⟨?_, ?_⟩, { Kept.refl replica with }, held_same replica _ same rfl⟩, rfl⟩
  · have asUpdate : (replica.decided dag more last wave message).core = ({ replica with
          dag, round := replica.round, decidedWave := wave, clientLastRequest := last
          pendingWaveCoins := fun _ => none } : Replica P).core := rfl
    rw [← ledgerInv_core, asUpdate, ledgerInv_core] at ledger
    rw [← graphInv_core, asUpdate, graphInv_core]
    exact inv.remark signed same (fun none => absurd none ready) ledger
  intro message member vertex carries
  exact (sound.told message member vertex carries).mono fun _ isSigned => signed ▸ isSigned

/-- The end of a wave. Its coin belongs to the wave because the enclave has seen a vertex of the
round that it expects next. -/
theorem waveReady_builds (settled : replica.Settled) (lastRound : replica.round % 4 = 0)
    (run : replica.waveReady env = .ok next) :
    Builds issued history replica next ∧ 4 * next.decidedWave ≤ replica.round := by
  have inv := sound.graph
  have wellFormed := inv.ledger.wellFormed
  have before : 4 * replica.decidedWave ≤ replica.round := le_of_lt settled
  simp only [waveReady, bind_ok, assert_ok, Prod.exists] at run
  obtain ⟨_, atLeast, proof, isProof, enclave, result, tossed, run⟩ := run
  cases result with
  | error error =>
    rw [toss_error tossed, pure_ok] at run
    exact run ▸ ⟨(quiet_stateMessage replica _ rfl rfl).builds sound, before⟩
  | ok waveLeader =>
    have positive : 0 < replica.enclave.quorum := by
      rw [inv.enclaveQuorum, inv.quorum]
      omega
    obtain ⟨rng, ready, isDrawn, rfl, vertex, inProof, atToss⟩ :=
      toss_ok positive tossed
    have isWave : replica.enclave.nextToss = 4 * (replica.round / 4) := by
      rw [← atToss, coinProof_round wellFormed isProof vertex inProof]
      omega
    obtain ⟨isCoin, drawn⟩ := tossed_builds sound ready isWave isDrawn
    simp only [bind_ok, Dag.knows_ok] at run
    obtain ⟨known, ⟨_, rfl⟩, run⟩ := run
    split at run
    · exact pure_ok.mp run ▸ ⟨drawn.trans ((quiet_stateMessage _ _ rfl rfl).builds drawn.sound),
        before⟩
    rename_i present
    obtain ⟨reachingLeader, counted, run⟩ := bind_ok.mp run
    split at run
    · exact pure_ok.mp run ▸ ⟨drawn.trans ((quiet_stateMessage _ _ rfl rfl).builds drawn.sound),
        before⟩
    rename_i enough
    have supported := Dag.countReaching_supported wellFormed inv.reachesSound
      (by omega) counted (not_lt.mp enough)
    obtain ⟨decided, isDecided⟩ := decideWave_builds drawn.sound
      (show replica.decidedWave < replica.round / 4 by unfold Settled at settled; omega)
      (by simp) isCoin (by simpa [isSome_iff_ne_none] using present) supported run
    exact ⟨drawn.trans decided, by omega⟩

theorem roundTransition_builds [Secure P] (settled : replica.Settled)
    (run : replica.roundTransition env = .ok next) :
    Builds issued history replica next ∧ next.Settled := by
  obtain ⟨ready, isReady, run⟩ := roundTransition_cases run
  obtain ⟨decided, bound⟩ : Builds issued history replica ready ∧
    4 * ready.decidedWave ≤ ready.round := by
    rcases isReady with rfl | ⟨lastRound, decision⟩
    · exact ⟨Builds.refl sound, le_of_lt settled⟩
    · obtain ⟨built, bound⟩ := waveReady_builds sound settled lastRound decision
      exact ⟨built, (waveReady_marks decision).1.stays.round ▸ bound⟩
  have moved := newRound_builds (ready.round + 1) decided.sound
  have noted := (quiet_stateMessage _ (.roundTransition (ready.round + 1)) rfl rfl).builds
      moved.sound
  have created := createVertex_builds noted.sound run
  exact ⟨((decided.trans moved).trans noted).trans created,
    (createVertex_spares run).settled (Nat.lt_succ_of_le bound)⟩

theorem traverseVertexBuffer_builds [Secure P] (settled : replica.Settled)
    (run : replica.traverseVertexBuffer env = .ok next) :
    Builds issued history replica next ∧ next.Settled := by
  simp only [traverseVertexBuffer, bind_ok, Prod.exists] at run
  obtain ⟨walked, vertexBuffer, inserts, walk, answered, answers, known, _, run⟩ := run
  have added :=
    traverseLoop_builds replica.vertexBuffer replica walked [] vertexBuffer [] inserts sound walk
  obtain ⟨stays, _, sameWave⟩ := traverseLoop_stays _ _ _ _ _ _ _ walk
  have answering : Quiet { walked with vertexBuffer } answered := by
    refine foldlM_keeps (Quiet { walked with vertexBuffer }) _ _ _ _ ?_ (Quiet.refl _) answers
    intro state address after _ quiet step
    exact quiet.trans (answerRequests_quiet (quiet.sound added.sound).graph.ledger.wellFormed step)
  have all := added.trans (answering.builds added.sound)
  have answersSettled : answered.Settled := by
    have round : answered.round = walked.round := answering.field Replica.round
    have wave : answered.decidedWave = walked.decidedWave := answering.field Replica.decidedWave
    unfold Settled
    rw [round, wave, stays.round, sameWave]
    exact settled
  split at run
  · obtain ⟨turned, isSettled⟩ := roundTransition_builds all.sound answersSettled run
    exact ⟨all.trans turned, isSettled⟩
  · exact pure_ok.mp run ▸ ⟨all, answersSettled⟩

end

end Replica

end Abcperf.Nxbft
