import Abcperf.Nxbft.Fitness

/-! Waves, rounds and signed messages of a fit replica. The rounds of what other replicas have
created bound how often one call can advance the round, and with it how deep the messages of a
replica to itself nest. -/

namespace Abcperf.Nxbft

open Lib Lib.Outcome Function Dag Returns List

variable {P : Platform} {excused : Panic → Prop}

namespace Replica

variable {top ceiling bound : Nat} {env : Env} {replica : Replica P}

def Affords (excused : Panic → Prop) (top ceiling n fuel : Nat) : Prop :=
  ¬ excused .fuel → n * ((top + 2) * n) + ceiling + top + 6 ≤ fuel

theorem Apt.reserve_le (apt : Apt top ceiling replica) :
    replica.dag.reserve ≤ replica.n * ((top + 2) * replica.n) + 2 := by
  have rounds : replica.dag.maxRound + 1 ≤ top + 2 := by
    rw [apt.level]
    have := apt.low
    omega
  rw [reserve, grid, Finset.card_product, Finset.card_range, Finset.card_range, apt.dagN]
  have := Nat.mul_le_mul_left replica.n (Nat.mul_le_mul_right replica.n rounds)
  omega

variable {fuel : Nat} {message : SignedMessage P}

theorem Affords.reserve (affords : Affords excused top ceiling replica.n fuel)
    (apt : Apt top ceiling replica) (long : ¬ excused .fuel) : replica.dag.reserve ≤ fuel := by
  have := affords long
  have := apt.reserve_le
  omega

theorem remarked_reserve {before after : Dag P} (remarked : before.Remarked after) :
    after.reserve = before.reserve := by
  rw [reserve, reserve, grid, grid, remarked.maxRound, remarked.same.n]

theorem Fit.remark (fit : Fit top ceiling replica) {dag : Dag P}
    (remarked : replica.dag.Remarked dag) : Fit top ceiling { replica with dag } :=
  { fit with
    dagN := remarked.same.n.trans fit.dagN
    graph := remarked.same.wellFormed fit.graph
    counted := remarked.counted fit.counted
    level := remarked.maxRound.trans fit.level
    known := fun address known foreign => by
      change (dag.lookup address).isSome at known
      rw [remarked.same.isSome] at known
      exact fit.known address known foreign
    buffers := {
      each := fun vertex member => by
        obtain ⟨welcome, inRange, valid, unknown⟩ := fit.buffers.each vertex member
        refine ⟨welcome, inRange, valid, ?_⟩
        show dag.lookup vertex.address = none
        rw [← Option.not_isSome_iff_eq_none, remarked.same.isSome, unknown]
        simp
      distinct := fit.buffers.distinct } }

theorem walkLeaders_returns {quorum n decidedWave : Nat} {pendingWaveCoins : Nat → Option Nat}
    (wavePrime : Nat) {dag : Dag P} {vertex : DagAddress} {leadersStack : List DagAddress}
    {decidedWaves : List Nat} (wellFormed : dag.WellFormed quorum) (size : dag.n = n)
    (enough : ¬ excused .fuel → dag.reserve ≤ fuel) (known : (dag.lookup vertex).isSome)
    (above : 4 * wavePrime < vertex.round)
    (leaders : ∀ leader ∈ leadersStack, (dag.lookup leader).isSome)
    (coins : ∀ wave, decidedWave < wave → wave ≤ wavePrime →
      ∃ coin, pendingWaveCoins wave = some coin ∧ coin < n) :
    Returns excused
      (fun result => dag.Remarked result.1 ∧ ∀ leader ∈ result.2.1, (dag.lookup leader).isSome)
      (walkLeaders fuel pendingWaveCoins decidedWave wavePrime dag vertex leadersStack
        decidedWaves) := by
  induction wavePrime generalizing dag vertex leadersStack decidedWaves with
  | zero => exact .pure ⟨.refl dag, leaders⟩
  | succ wavePrime ih =>
    unfold walkLeaders
    split
    · exact ⟨.refl dag, leaders⟩
    rename_i undecided
    obtain ⟨coin, isCoin, inRange⟩ := coins (wavePrime + 1) (by omega) le_rfl
    have fewer : ∀ wave, decidedWave < wave → wave ≤ wavePrime →
        ∃ coin, pendingWaveCoins wave = some coin ∧ coin < n :=
      fun wave later earlier => coins wave later (by omega)
    refine .step (unwrap_ok.mpr isCoin) (.step (knows_ok.mpr ⟨by rw [size]; exact inRange, rfl⟩) ?_)
    split
    · next isKnown =>
      have below : waveRound (wavePrime + 1) 1 < vertex.round := by
        unfold waveRound
        omega
      refine (hasPath_returns wellFormed known isKnown below enough).bind ?_
      rintro ⟨after, connected⟩ remarked
      have kept : ∀ address, (dag.lookup address).isSome → (after.lookup address).isSome := by
        intro address isSome
        rwa [remarked.same.isSome]
      have wellFormedAfter := remarked.same.wellFormed wellFormed
      have enoughAfter : ¬ excused .fuel → after.reserve ≤ fuel := by
        rw [remarked_reserve remarked]
        exact enough
      have back : ∀ {result : Dag P × List DagAddress × List Nat}, (after.Remarked result.1 ∧
            ∀ leader ∈ result.2.1, (after.lookup leader).isSome) →
          dag.Remarked result.1 ∧ ∀ leader ∈ result.2.1, (dag.lookup leader).isSome := by
        rintro result ⟨later, all⟩
        refine ⟨remarked.trans later, fun leader member => ?_⟩
        rw [← remarked.same.isSome]
        exact all leader member
      dsimp only
      split
      · refine (ih wellFormedAfter (remarked.same.n.trans size) enoughAfter
          (kept _ isKnown) (by simp only [waveRound]; omega) ?_ fewer).imp fun _ => back
        intro leader member
        rcases mem_cons.mp member with rfl | older
        · exact kept _ isKnown
        · exact kept _ (leaders leader older)
      exact (ih wellFormedAfter (remarked.same.n.trans size) enoughAfter (kept _ known)
        (by omega) (fun leader member => kept _ (leaders leader member)) fewer).imp
        fun _ => back
    · exact ih wellFormed size enough known (by omega) leaders fewer

section

variable (fit : Fit top ceiling replica)

include fit

theorem deliverLeaders_returns (enough : ¬ excused .fuel → replica.dag.reserve ≤ fuel)
    {leaders : List DagAddress} (known : ∀ leader ∈ leaders, (replica.dag.lookup leader).isSome) :
    Returns excused (fun result => Fit top ceiling result.1 ∧ Keeps replica result.1 ∧
      result.1.enclave = replica.enclave) (replica.deliverLeaders fuel leaders) := by
  have returns : Returns excused (fun result : Replica P × List DagAddress =>
      (Fit top ceiling result.1 ∧ Keeps replica result.1 ∧ result.1.enclave = replica.enclave) ∧
        replica.dag.Remarked result.1.dag) (replica.deliverLeaders fuel leaders) := by
    refine foldlM ⟨⟨fit, .refl _, rfl⟩, .refl _⟩ ?_
    rintro ⟨current, order⟩ leader member ⟨⟨fitNow, keeps, enclave⟩, remarked⟩
    dsimp only at fitNow keeps enclave remarked ⊢
    have isKnown : (current.dag.lookup leader).isSome := by
      rw [remarked.same.isSome]
      exact known leader member
    unfold deliverLeader
    simp only [bind_assoc]
    refine (deliverFrom_returns fitNow.graph isKnown (Nat.zero_le _)
      (by rw [remarked_reserve remarked]; exact enough)).bind ?_
    rintro ⟨dag, delivered⟩ ⟨marked, all⟩
    have handed : Returns excused (fun next => ∃ more last,
        next = ({ current with dag } : Replica P).delivering more last)
        (delivered.foldlM deliverVertex { current with dag }) := by
      have total : Returns excused (fun next : Replica P => next.dag = dag)
          (delivered.foldlM deliverVertex { current with dag }) := by
        refine foldlM rfl ?_
        rintro state address isDelivered rfl
        have isSome := all address isDelivered
        rw [← marked.same.isSome] at isSome
        obtain ⟨entry, found⟩ := Option.isSome_iff_exists.mp isSome
        refine get_returns (marked.same.wellFormed fitNow.graph) found (pure ?_)
        obtain ⟨more, last, isNext, _⟩ := deliverTransactions_eq entry.vertex.transactions state []
        rw [isNext]
        rfl
      refine total.meets fun next run _ => ?_
      obtain ⟨more, last, isNext, _⟩ := deliverVertices_eq delivered _ next [] run
      exact ⟨more, last, isNext⟩
    refine handed.bind ?_
    rintro next ⟨more, last, rfl⟩
    have fitNext := fitNow.remark marked
    exact ⟨⟨{ fitNext with buffers := { fitNext.buffers with } },
      keeps.trans { Keeps.refl current with }, enclave⟩, remarked.trans marked⟩
  exact returns.imp fun _ done => done.1

/-- What is left of the coins after a decision is nothing, and nothing is needed. -/
theorem decideWave_returns {wave waveLeader : Nat}
    (enough : ¬ excused .fuel → replica.dag.reserve ≤ fuel)
    (position : replica.enclave.nextToss = 4 * wave + 4)
    (known : (replica.dag.lookup ⟨waveRound wave 1, waveLeader⟩).isSome) :
    Returns excused (fun next => Fit top ceiling next ∧ Keeps replica next)
      (replica.decideWave fuel wave waveLeader) := by
  unfold decideWave
  refine (walkLeaders_returns (wave - 1) fit.graph fit.dagN enough known (Nat.lt_succ_self _)
    (fun leader member => mem_singleton.mp member ▸ known) fun earlier later within =>
      fit.coins earlier later (by omega)).bind ?_
  rintro ⟨dag, leaders, waves⟩ ⟨remarked, all⟩
  have walked := fit.remark remarked
  refine (deliverLeaders_returns walked ?_ ?_).bind ?_
  · show ¬ excused .fuel → dag.reserve ≤ fuel
    rw [remarked_reserve remarked]
    exact enough
  · intro leader member
    show (dag.lookup leader).isSome = true
    rw [remarked.same.isSome]
    exact all leader member
  rintro ⟨handed, order⟩ ⟨fitHanded, keeps, enclave⟩
  have kept : Keeps replica handed := { keeps with }
  refine ⟨{ fitHanded with coins := ?_, buffers := { fitHanded.buffers with } },
    kept.trans { Keeps.refl handed with }⟩
  intro later isLater tossed
  change wave < later at isLater
  change 4 * later < handed.enclave.nextToss at tossed
  rw [enclave] at tossed
  change 4 * later < replica.enclave.nextToss at tossed
  omega

theorem coinProof_returns (round : Nat) :
    Returns excused (fun proof => (∀ vertex ∈ proof, vertex.signable.address.creator < replica.n) ∧
      ∀ vertex ∈ proof, vertex.signable.address.round = round) (coinProof replica.dag round) := by
  have returns : Returns excused (fun proof => ∀ vertex ∈ proof,
      vertex.signable.address.creator < replica.n) (coinProof replica.dag round) := by
    refine mapM fun address member => ?_
    obtain ⟨_, inRange, isKnown⟩ := mem_getRound fit.graph member
    obtain ⟨entry, found⟩ := Option.isSome_iff_exists.mp isKnown
    refine get_returns fit.graph found (pure ?_)
    show entry.vertex.address.creator < replica.n
    rw [(fit.graph.slot address entry found).1, ← fit.dagN]
    exact inRange
  exact returns.meets fun proof run inRange => ⟨inRange, coinProof_round fit.graph run⟩

theorem countReaching_returns (round leader : Nat) : Returns excused (fun _ => True)
      (countReaching replica.dag (replica.dag.getRound round) leader) := by
  refine foldlM trivial fun count address member _ => ?_
  obtain ⟨_, _, isKnown⟩ := mem_getRound fit.graph member
  obtain ⟨entry, found⟩ := Option.isSome_iff_exists.mp isKnown
  have reads : Returns excused (fun _ => True) (replica.dag.reaches address leader) :=
    read_returns fit.graph found trivial
  refine reads.bind fun reached _ => ?_
  split <;> exact trivial

end

theorem waveReady_returns (samples : ∀ rng, (P.sample replica.n rng).1 < replica.n)
    (fit : Fit top ceiling replica) (enough : ¬ excused .fuel → replica.dag.reserve ≤ env.fuel)
    (last : replica.round % 4 = 0) :
    Returns excused (fun next => Fit top ceiling next ∧ Keeps replica next)
      (replica.waveReady env) := by
  have positive := fit.positive
  obtain ⟨drawn, sound⟩ := fit.enclave
  unfold waveReady
  refine .asserted (by omega) ((coinProof_returns fit replica.round).bind ?_)
  rintro proof ⟨inRange, atRound⟩
  refine (sound.toss_returns samples inRange atRound).bind ?_
  rintro ⟨enclave, result⟩ tossed
  have kept : ∀ {next : Replica P}, Keeps { replica with enclave } next → Keeps replica next := by
    intro next keeps
    have first : Keeps replica { replica with enclave } :=
      ⟨rfl, rfl, rfl, tossed.c, tossed.share, rfl, fun _ member => .inl member⟩
    exact first.trans keeps
  have started : replica.ready = true → enclave.seedShare.isSome := by
    rw [tossed.share]
    exact fit.started
  have room : enclave.c + (top + 2 - replica.round) ≤ ceiling := by
    rw [tossed.c]
    exact fit.room
  cases result with
  | error error =>
    have missed : enclave.nextToss = replica.enclave.nextToss := tossed.failed error rfl
    refine ⟨{ fit with
      enclave := tossed.sound
      started := started
      coins := fun wave later due => fit.coins wave later (missed ▸ due)
      room := room
      buffers := { fit.buffers with } }, kept { Keeps.refl _ with }⟩
  | ok waveLeader =>
    obtain ⟨atToss, position, isReplica⟩ : replica.enclave.nextToss = replica.round ∧
        enclave.nextToss = replica.round + 4 ∧ waveLeader < replica.n :=
      tossed.drew waveLeader rfl
    -- the coin of this wave joins those of the earlier ones
    have coined : Fit top ceiling { replica with
        enclave
        pendingWaveCoins := update replica.pendingWaveCoins (replica.round / 4)
          (some waveLeader) } :=
      { fit with
        enclave := tossed.sound
        started := started
        coins := by
          intro wave later due
          change 4 * wave < enclave.nextToss at due
          by_cases isWave : wave = replica.round / 4
          · subst isWave
            exact ⟨waveLeader, update_self .., isReplica⟩
          · obtain ⟨coin, isCoin, inside⟩ := fit.coins wave later (by omega)
            exact ⟨coin, by rw [← isCoin]; exact update_of_ne isWave .., inside⟩
        room := room
        buffers := { fit.buffers with } }
    refine .step (knows_ok.mpr ⟨by rw [fit.dagN]; exact isReplica, rfl⟩) ?_
    split
    · exact ⟨coined.stateMessage _, kept { Keeps.refl _ with }⟩
    rename_i isKnown
    refine (countReaching_returns coined _ _).bind fun reaching _ => ?_
    split
    · exact ⟨coined.stateMessage _, kept { Keeps.refl _ with }⟩
    rw [Bool.not_eq_true', Bool.not_eq_false] at isKnown
    refine (decideWave_returns coined enough ?_ isKnown).imp ?_
    · show enclave.nextToss = _
      omega
    · rintro next ⟨fitNext, keeps⟩
      exact ⟨fitNext, kept { keeps with }⟩

theorem nextEdges_inRange (fit : Fit top ceiling replica) :
    ∀ edge ∈ replica.nextEdges, edge < replica.n := by
  intro edge member
  unfold nextEdges at member
  split at member
  · have all : ∀ (addresses : List DagAddress) (edges : IdSet),
        (∀ edge ∈ edges, edge < replica.n) → (∀ address ∈ addresses, address.creator < replica.n) →
        ∀ edge ∈ addresses.foldl (fun edges address => edges.insert address.creator) edges,
          edge < replica.n := by
      intro addresses
      induction addresses with
      | nil => exact fun edges inside _ => inside
      | cons address rest ih =>
        intro edges inside inRange
        refine ih _ (fun other isOther => ?_)
          fun other isOther => inRange other (mem_cons_of_mem _ isOther)
        rcases (IdSet.mem_insert _ _ _).mp isOther with rfl | old
        · exact inRange address mem_cons_self
        · exact inside other old
    refine all _ IdSet.empty (fun other impossible => absurd impossible (IdSet.not_mem_empty other))
      (fun address isAddress => ?_) edge member
    exact fit.dagN ▸ (mem_getRound fit.graph isAddress).2.1
  · exact absurd member (IdSet.not_mem_empty edge)

theorem sign_next (automata : EnclaveAutomata P) (hash : P.Hash) :
    ∃ c, c ≤ automata.c + 1 ∧ (automata.sign hash).1 = { automata with c } := by
  unfold EnclaveAutomata.sign
  split
  · split
    · exact ⟨_, le_rfl, rfl⟩
    · exact ⟨_, le_rfl, rfl⟩
  · exact ⟨_, Nat.le_succ _, rfl⟩

section

variable (fit : Fit top ceiling replica)
  (spare : replica.enclave.c + 1 + (top + 2 - replica.round) ≤ ceiling)

include fit spare

theorem Fit.signed (pendingClientRequests : Heaps.PendingClientRequests P.Tx) (hash : P.Hash) :
    Fit top ceiling { replica with
      pendingClientRequests, enclave := (replica.enclave.sign hash).1 } := by
  obtain ⟨drawn, sound⟩ := fit.enclave
  obtain ⟨c, used, isSigned⟩ := sign_next replica.enclave hash
  have later := EnclaveAutomata.sign_sound sound (Prod.mk.eta (p := replica.enclave.sign hash)).symm
  rw [isSigned] at later ⊢
  exact { fit with
    enclave := ⟨drawn, later⟩
    room := by
      show c + (top + 2 - replica.round) ≤ ceiling
      omega
    buffers := { fit.buffers with } }

theorem signVertex_goes : Fit top ceiling (replica.signVertex env) ∧
      Goes top ceiling (top + 2 - replica.round + 1) replica (replica.signVertex env) ∧
      (replica.signVertex env).nonEquivocationMessageBuffers =
      replica.nonEquivocationMessageBuffers := by
  have inRange := nextEdges_inRange fit
  unfold signVertex
  dsimp only
  generalize isHash : SignableVertex.toHash _ = hash
  have next := fit.signed spare replica.pendingClientRequests.popFront.2 hash
  obtain ⟨c, _, isSigned⟩ := sign_next replica.enclave hash
  have share : (replica.enclave.sign hash).1.seedShare = replica.enclave.seedShare := by
    rw [isSigned]
  split
  · exact ⟨next.stateMessage _, goes_quiet rfl rfl rfl share rfl, rfl⟩
  rename_i signature counter signed
  have run : replica.enclave.sign hash =
      ((replica.enclave.sign hash).1, .ok (signature, counter)) := Prod.ext rfl signed
  have isCounter := (EnclaveAutomata.sign_ok run).2.1
  refine ⟨{ next with buffers := { next.buffers with } },
    goes_sending rfl rfl rfl share rfl ⟨⟨fit.positive, inRange⟩, ?_⟩ (Nat.lt_succ_self _), rfl⟩
  intro wrapped isWrapped
  cases isWrapped
  refine ⟨?_, fun foreign => absurd rfl foreign⟩
  show counter < ceiling
  omega

theorem createVertex_returns (allowed : Bool) : Returns excused (fun next => Fit top ceiling next ∧
      Goes top ceiling (top + 2 - replica.round + 1) replica next ∧
      next.nonEquivocationMessageBuffers = replica.nonEquivocationMessageBuffers)
      (replica.createVertex env allowed) := by
  unfold createVertex
  split
  · split
    · exact ⟨fit, .refl _, rfl⟩
    · exact ⟨{ fit with buffers := { fit.buffers with } }, goes_quiet rfl rfl rfl rfl rfl, rfl⟩
  have checked : Returns excused (fun _ => True)
      (replica.pendingClientRequests.fullBlockOrAtLeast replica.minVertexSize) := by
    unfold Heaps.PendingClientRequests.fullBlockOrAtLeast
    refine .asserted fit.sized ?_
    split <;> exact trivial
  refine checked.bind fun full _ => ?_
  dsimp only
  split
  · exact signVertex_goes fit spare
  · exact ⟨{ fit with buffers := { fit.buffers with } }, goes_quiet rfl rfl rfl rfl rfl, rfl⟩

end

/-- What the handlers of vertices do: the replica leaves a vertex of its own for itself only with a
new round. -/
structure Advances (top ceiling : Nat) (before after : Replica P) : Prop
    extends Goes top ceiling (top + 2 - before.round) before after where
  waiting : after.nonEquivocationMessageBuffers = before.nonEquivocationMessageBuffers

theorem Keeps.advances {before after : Replica P} (keeps : Keeps before after)
    (low : before.round ≤ top + 1) : Advances top ceiling before after :=
  { keeps.goes (by omega : 0 < top + 2 - before.round) with waiting := keeps.waiting }

theorem Advances.trans {first second third : Replica P} (left : Advances top ceiling first second)
    (right : Advances top ceiling second third) : Advances top ceiling first third :=
  { left.toGoes.trans right.toGoes (Nat.sub_le_sub_left left.round _) with
    waiting := right.waiting.trans left.waiting }

theorem Fit.newRound (fit : Fit top ceiling replica) (reached : replica.round ≤ top) :
    Fit top ceiling { replica with round := replica.round + 1, dag := replica.dag.newRound } :=
  { fit with
    dagN := fit.dagN
    graph := {
      offset := fit.graph.offset
      slot := fun address entry found => fit.graph.slot address entry (by simpa using found)
      closed := fun address entry found edge member => by
        rw [lookup_newRound]
        exact fit.graph.closed address entry (by simpa using found) edge member
      first := fun address entry found => fit.graph.first address entry (by simpa using found)
      dense := fun address entry found => fit.graph.dense address entry (by simpa using found) }
    counted := fit.counted.newRound
    level := congrArg (· + 1) fit.level
    positive := Nat.succ_pos _
    low := Nat.succ_le_succ reached
    known := fun address known => by
      change (replica.dag.newRound.lookup address).isSome at known
      rw [lookup_newRound] at known
      exact fit.known address known
    room := by
      have := fit.room
      show replica.enclave.c + (top + 2 - (replica.round + 1)) ≤ ceiling
      omega
    buffers := {
      each := fun vertex member => by
        obtain ⟨welcome, inRange, valid, unknown⟩ := fit.buffers.each vertex member
        exact ⟨welcome, inRange, valid, by rw [lookup_newRound]; exact unknown⟩
      distinct := fit.buffers.distinct } }

section

variable (samples : ∀ rng, (P.sample replica.n rng).1 < replica.n) (fit : Fit top ceiling replica)

include samples fit

theorem roundTransition_returns (enough : ¬ excused .fuel → replica.dag.reserve ≤ env.fuel)
    (reached : replica.round ≤ top) :
    Returns excused (fun next => Fit top ceiling next ∧ Advances top ceiling replica next)
      (replica.roundTransition env) := by
  have finishes : ∀ decided : Replica P, Fit top ceiling decided ∧ Keeps replica decided →
      Returns excused (fun next => Fit top ceiling next ∧ Advances top ceiling replica next)
        (({ decided with round := decided.round + 1, dag := decided.dag.newRound }.stateMessage
          (.roundTransition (decided.round + 1))).createVertex env false) := by
    rintro decided ⟨fitDecided, keeps⟩
    have fitNew := (fitDecided.newRound (by rw [keeps.round]; exact reached)).stateMessage
      (.roundTransition (decided.round + 1))
    have spare : decided.enclave.c + 1 + (top + 2 - (decided.round + 1)) ≤ ceiling := by
      have := fitDecided.room
      have := keeps.round
      omega
    refine (createVertex_returns fitNew spare false).imp ?_
    rintro next ⟨fitNext, goes, waiting⟩
    have first : Goes top ceiling (top + 2 - replica.round) replica decided :=
      keeps.goes (by omega)
    -- the vertex that was signed is one of the new round
    have opened : Goes top ceiling (top + 2 - replica.round) decided
        ({ decided with round := decided.round + 1, dag := decided.dag.newRound }.stateMessage
          (.roundTransition (decided.round + 1))) :=
      ⟨rfl, rfl, Nat.le_succ _, id, fun _ member => .inl member⟩
    have bounds : top + 2 - (decided.round + 1) + 1 ≤ top + 2 - replica.round := by
      have := keeps.round
      omega
    exact ⟨fitNext, { (first.trans opened le_rfl).trans goes bounds with
      waiting := waiting.trans keeps.waiting }⟩
  unfold roundTransition
  dsimp only
  split
  · next last => exact (waveReady_returns samples fit enough last).bind finishes
  · exact .step rfl (finishes replica ⟨fit, .refl _⟩)

theorem traverseVertexBuffer_returns (affords : Affords excused top ceiling replica.n env.fuel) :
    Returns excused (fun next => Fit top ceiling next ∧ Advances top ceiling replica next)
      (replica.traverseVertexBuffer env) := by
  unfold traverseVertexBuffer
  refine (traverseLoop_returns replica.vertexBuffer fit.toApt
    (by rw [nil_append]; exact fit.buffers) (fun _ member => by cases member)).bind ?_
  rintro ⟨traversed, buffer, inserts⟩ ⟨apt, buffers, known, keeps⟩
  have stored : Fit top ceiling { traversed with vertexBuffer := buffer } :=
    { apt with buffers := { buffers with } }
  have answers : Returns excused (fun answered : Replica P => Fit top ceiling answered ∧
      Keeps replica answered ∧ answered.dag = traversed.dag)
      (inserts.foldlM answerRequests { traversed with vertexBuffer := buffer }) := by
    refine foldlM ⟨stored, { keeps with }, rfl⟩ ?_
    rintro current address member ⟨fitNow, keepsNow, sameDag⟩
    refine (answerRequests_returns fitNow (by rw [sameDag]; exact known address member)).imp ?_
    rintro next ⟨fitNext, later, dagNext⟩
    exact ⟨fitNext, keepsNow.trans later, dagNext.trans sameDag⟩
  refine answers.bind ?_
  rintro answered ⟨fitAnswered, kept, _⟩
  have since : Advances top ceiling replica answered := kept.advances fit.low
  refine .step (knows_ok.mpr ⟨by rw [fitAnswered.dagN]; exact fitAnswered.inRange, rfl⟩) ?_
  split
  · next complete =>
    -- a quorum has more than one member, so another replica has a vertex in this round
    have two : 2 ≤ answered.dag.getRoundValidCount answered.round := by
      have := fitAnswered.quorum
      have := fitAnswered.enough
      omega
    obtain ⟨creator, isOther, isKnown⟩ := fitAnswered.counted.other two answered.me
    have reached := fitAnswered.known _ isKnown isOther
    have sameN := kept.n
    refine (roundTransition_returns (by rw [sameN]; exact samples) fitAnswered
      ((sameN ▸ affords : Affords excused top ceiling answered.n env.fuel).reserve
        fitAnswered.toApt) reached).imp ?_
    rintro next ⟨fitNext, advances⟩
    exact ⟨fitNext, since.trans advances⟩
  · exact ⟨fitAnswered, since⟩

theorem processVertex_returns (affords : Affords excused top ceiling replica.n env.fuel)
    {vertex : Vertex P} (welcome : replica.Welcome top vertex)
    (inRange : vertex.creator < replica.n) :
    Returns excused (fun next => Fit top ceiling next ∧ Advances top ceiling replica next)
      (replica.processVertex env vertex) := by
  have unchanged : Advances top ceiling replica replica := (Keeps.refl replica).advances fit.low
  have noted : ∀ message, Advances top ceiling replica (replica.stateMessage message) :=
    fun message => { unchanged with }
  unfold processVertex
  split
  · exact ⟨fit, unchanged⟩
  rename_i unbuffered
  refine .step (knows_ok.mpr ⟨by rw [fit.dagN]; exact inRange, rfl⟩) ?_
  split
  · exact ⟨fit, unchanged⟩
  rename_i unknown
  split
  · exact ⟨fit.stateMessage _, noted _⟩
  rename_i first
  split
  · exact ⟨fit.stateMessage _, noted _⟩
  rename_i dense
  have valid : vertex.Valid replica.quorum := by
    refine ⟨fun isFirst => ?_, fun isLater => ?_⟩
    · by_contra some
      exact first ⟨isFirst, Nat.pos_of_ne_zero some⟩
    · by_contra few
      exact dense ⟨isLater, by simpa [Vertex.edgesValid] using few⟩
  have isNew : replica.dag.lookup vertex.address = none := by simpa using unknown
  have fresh := (Heaps.not_knows_iff Vertex.address vertex.address
    replica.vertexBuffer).mp (by simpa using unbuffered)
  refine imp (traverseVertexBuffer_returns ?_ (?_ : Fit top ceiling _) ?_) ?_
  · exact samples
  · refine { fit with buffers := ⟨?_, ?_⟩ }
    · intro other member
      rcases (Heaps.mem_insert _ _ _ _).mp member with rfl | old
      · exact ⟨welcome, inRange, valid, isNew⟩
      · exact fit.buffers.each other old
    have perm := (perm_orderedInsert (fun left right : Vertex P =>
      left.address.le right.address) vertex replica.vertexBuffer).map Vertex.address
    refine perm.nodup_iff.mpr (nodup_cons.mpr ⟨?_, fit.buffers.distinct⟩)
    intro member
    obtain ⟨other, isOther, same⟩ := mem_map.mp member
    exact fresh other isOther same
  · exact affords
  · rintro next ⟨fitNext, advances⟩
    exact ⟨fitNext, { advances with }⟩

end

theorem requestGap_returns (fit : Fit top ceiling replica)
    (proper : message.payload.Proper replica.n) (inRange : message.creator < replica.n) :
    Returns excused (fun next => Fit top ceiling next ∧ Keeps replica next)
      (replica.requestGap env message) := by
  unfold requestGap
  rw [previousRound_pos _ proper.1]
  dsimp only
  split
  · exact ⟨fit, .refl _⟩
  refine ⟨{ fit with buffers := { fit.buffers with } }, ⟨rfl, rfl, rfl, rfl, rfl, rfl, ?_⟩⟩
  exact forall_mem_concat (fun _ => .inl)
    (.inr ⟨⟨message.payload.round - 1, message.creator⟩, inRange, rfl⟩)

theorem Fit.pop (fit : Fit top ceiling replica) {creator : Nat} {rest : List (SignedMessage P)}
    (isHead : replica.nonEquivocationMessageBuffers creator = message :: rest) :
    Fit top ceiling { replica with
      nonEquivocationMessageBuffers :=
        update replica.nonEquivocationMessageBuffers creator rest } := by
  refine { fit with waiting := ?_, counters := ?_, buffers := { fit.buffers with } }
  · intro other held member
    by_cases same : other = creator
    · subst same
      simp only [update_self] at member
      exact fit.waiting other held (isHead ▸ mem_cons_of_mem _ member)
    · simp only [update_of_ne same] at member
      exact fit.waiting other held member
  intro other
  by_cases same : other = creator
  · subst same
    have counters := fit.counters other
    rw [isHead, map_cons, nodup_cons] at counters
    simpa using counters.2
  · simpa only [update_of_ne same] using fit.counters other

theorem drainBuffer_returns {creator : Nat} (fuel : Nat) {replica : Replica P}
    (samples : ∀ rng, (P.sample replica.n rng).1 < replica.n) (fit : Fit top ceiling replica)
    (affords : Affords excused top ceiling replica.n env.fuel)
    (enough : ¬ excused .fuel → (replica.nonEquivocationMessageBuffers creator).length < fuel) :
    Returns excused (fun next => Fit top ceiling next ∧
      Goes top ceiling (top + 2 - replica.round) replica next)
      (drainBuffer env creator fuel replica) := by
  induction fuel generalizing replica with
  | zero => exact .fuel (by_contra fun long => absurd (enough long) (Nat.not_lt_zero _))
  | succ fuel ih =>
    have positive : 0 < top + 2 - replica.round := by
      have := fit.low
      omega
    unfold drainBuffer
    split
    · exact ⟨fit, .refl _⟩
    rename_i message rest isHead
    obtain ⟨welcome, _, inRange⟩ :=
      fit.waiting creator message (isHead ▸ mem_cons_self)
    split
    · refine (requestGap_returns fit welcome.1 inRange).imp ?_
      rintro next ⟨fitNext, keeps⟩
      exact ⟨fitNext, keeps.goes positive⟩
    have popped := (fit.pop isHead).stateMessage
      (.nonEquivocationBroadcastDeliver message.creator message.payloadText)
    refine bind (processVertex_returns ?_ popped ?_ ?_ ?_) ?_
    · exact samples
    · exact affords
    · exact welcome
    · exact inRange
    rintro processed ⟨fitProcessed, advances⟩
    have since : Goes top ceiling (top + 2 - replica.round) replica processed :=
      advances.toGoes.since rfl rfl rfl rfl rfl
    have sameN : processed.n = replica.n := advances.n
    refine imp (ih ?_ (?_ : Fit top ceiling _) ?_ fun long => ?_) ?_
    · show ∀ rng, (P.sample processed.n rng).1 < processed.n
      rw [sameN]
      exact samples
    · exact { fitProcessed with buffers := { fitProcessed.buffers with } }
    · show Affords excused top ceiling processed.n env.fuel
      rw [sameN]
      exact affords
    · have before := enough long
      show (processed.nonEquivocationMessageBuffers creator).length < fuel
      rw [advances.waiting]
      rw [isHead, length_cons] at before
      simp only [stateMessage, update_self]
      omega
    rintro next ⟨fitNext, later⟩
    exact ⟨fitNext, since.trans (later.since rfl rfl rfl rfl rfl)
      (Nat.sub_le_sub_left since.round _)⟩

theorem Apt.waiting_le (apt : Apt top ceiling replica) (creator : Nat) :
    (replica.nonEquivocationMessageBuffers creator).length ≤ ceiling := by
  have within : ((replica.nonEquivocationMessageBuffers creator).map
      SignedMessage.counter).toFinset ⊆ Finset.range ceiling := by
    intro counter member
    obtain ⟨message, isMessage, rfl⟩ := mem_map.mp (List.mem_toFinset.mp member)
    exact Finset.mem_range.mpr (apt.waiting creator message isMessage).2.1
  have bounded := Finset.card_le_card within
  rwa [toFinset_card_of_nodup (apt.counters creator), length_map, Finset.card_range] at bounded

theorem Fit.push (fit : Fit top ceiling replica) (welcome : replica.Welcome top message.payload)
    (low : message.counter < ceiling) (inRange : message.creator < replica.n)
    (fresh : ∀ other ∈ replica.nonEquivocationMessageBuffers message.creator,
      other.counter ≠ message.counter) : Fit top ceiling { replica with
      nonEquivocationMessageBuffers := update replica.nonEquivocationMessageBuffers
        message.creator (Heaps.insert (fun left right => left.counter ≤ right.counter) message
          (replica.nonEquivocationMessageBuffers message.creator)) } := by
  refine { fit with waiting := ?_, counters := ?_, buffers := { fit.buffers with } }
  · intro other held member
    by_cases same : other = message.creator
    · subst same
      simp only [update_self, Heaps.mem_insert] at member
      rcases member with rfl | old
      · exact ⟨welcome, low, inRange⟩
      · exact fit.waiting _ held old
    · simp only [update_of_ne same] at member
      exact fit.waiting other held member
  intro other
  by_cases same : other = message.creator
  · subst same
    simp only [update_self]
    have perm := (perm_orderedInsert (fun left right : SignedMessage P =>
      left.counter ≤ right.counter) message
        (replica.nonEquivocationMessageBuffers message.creator)).map SignedMessage.counter
    refine perm.nodup_iff.mpr (nodup_cons.mpr ⟨?_, fit.counters _⟩)
    intro member
    obtain ⟨held, isHeld, same⟩ := mem_map.mp member
    exact fresh held isHeld same
  · simpa only [update_of_ne same] using fit.counters other

theorem processSignedMessage_returns (samples : ∀ rng, (P.sample replica.n rng).1 < replica.n)
    (fit : Fit top ceiling replica) (affords : Affords excused top ceiling replica.n env.fuel)
    (sender : Nat) (admitted : replica.Takes top ceiling ⟨sender, .signed message⟩) :
    Returns excused (fun next => Fit top ceiling next ∧
      Goes top ceiling (top + 2 - replica.round) replica next)
      (replica.processSignedMessage env sender message) := by
  have noted : ∀ note, Fit top ceiling (replica.stateMessage note) ∧
      Goes top ceiling (top + 2 - replica.round) replica (replica.stateMessage note) :=
    fun note => ⟨fit.stateMessage note, goes_stateMessage _ _⟩
  obtain ⟨low, belowTop⟩ := admitted.2 message rfl
  obtain ⟨drawn, sound⟩ := fit.enclave
  unfold processSignedMessage
  dsimp only
  split
  · exact noted _
  split
  · exact noted _
  split
  · exact noted _
  rename_i inRange
  split
  · exact ⟨fit, .refl _⟩
  split
  · exact ⟨fit, .refl _⟩
  rename_i unbuffered
  refine (sound.verify_returns (not_le.mp inRange) _ _ _).bind ?_
  intro verified _
  split
  · exact noted _
  · exact ⟨fit, .refl _⟩
  have fresh := (Heaps.not_knows_iff SignedMessage.counter message.counter
    (replica.nonEquivocationMessageBuffers message.creator)).mp (by simpa using unbuffered)
  have pushed := fit.push ⟨admitted.1, belowTop⟩ low (not_le.mp inRange) fresh
  split
  · exact ⟨{ pushed with buffers := { pushed.buffers with } }, goes_quiet rfl rfl rfl rfl rfl⟩
  refine imp (drainBuffer_returns env.fuel ?_ (?_ : Fit top ceiling _) ?_
    fun long => ?_) ?_
  · exact samples
  · exact { pushed with buffers := { pushed.buffers with } }
  · exact affords
  · have few := pushed.toApt.waiting_le message.creator
    have := affords long
    refine lt_of_le_of_lt few ?_
    omega
  · rintro next ⟨fitNext, goes⟩
    exact ⟨fitNext, goes.since rfl rfl rfl rfl rfl⟩

theorem processVertexRequest_returns (fit : Fit top ceiling replica) {sender : Nat}
    {address : DagAddress} (inRange : address.creator < replica.n) :
    Returns excused (fun next => Fit top ceiling next ∧ Goes top ceiling bound replica next)
      (replica.processVertexRequest sender address) := by
  unfold processVertexRequest
  split
  · exact ⟨fit, .refl _⟩
  rename_i isOther
  refine .step (get_ok.mpr ⟨by rw [fit.dagN]; exact inRange, rfl⟩) ?_
  split
  · next vertex _ =>
    have foreign : sender ≠ replica.output.me := by
      rw [fit.outputMe]
      exact isOther
    have quiet : (replica.unicast sender (.signed ⟨vertex⟩)).output.reflectionMessages =
        replica.output.reflectionMessages := by
      simp [unicast, UnreflectedOutput.unicast, foreign]
    refine ⟨{ fit with outputMe := ?_, buffers := { fit.buffers with } },
      goes_quiet rfl rfl rfl rfl quiet⟩
    simpa [unicast, UnreflectedOutput.unicast, foreign] using fit.outputMe
  refine ⟨{ fit with requests := ?_, buffers := { fit.buffers with } },
    goes_quiet rfl rfl rfl rfl rfl⟩
  intro other waiting isWaiting
  by_cases same : other = address
  · subst same
    simp only [update_self, Option.some.injEq] at isWaiting
    subst isWaiting
    intro member
    rcases (IdSet.mem_insert _ _ _).mp member with isMe | old
    · exact isOther isMe.symm
    cases isSet : replica.vertexRequests other with
    | none =>
      rw [isSet] at old
      exact IdSet.not_mem_empty _ old
    | some set =>
      rw [isSet] at old
      exact fit.requests other set isSet old
  · simp only [update_of_ne same] at isWaiting
    exact fit.requests other waiting isWaiting

theorem dispatch_returns (samples : ∀ rng, (P.sample replica.n rng).1 < replica.n)
    (fit : Fit top ceiling replica) (started : replica.enclave.seedShare.isSome)
    (affords : Affords excused top ceiling replica.n env.fuel) {message : PeerMessage P}
    (admitted : replica.Takes top ceiling message) :
    Returns excused (fun next => Fit top ceiling next ∧
      Goes top ceiling (rank top replica.round message.message) replica next)
      (replica.dispatch env message) := by
  obtain ⟨sender, content⟩ := message
  unfold dispatch
  split
  · exact ⟨fit.stateMessage _, goes_stateMessage _ _⟩
  cases content with
  | hello attestation => exact processHello_goes fit sender attestation
  | helloEcho creator attestation =>
    exact processHelloEcho_returns fit started sender creator attestation
  | helloReply handshake => exact processHelloReply_returns fit sender handshake
  | ready => exact processReady_goes fit started sender
  | signed wrapped => exact processSignedMessage_returns samples fit affords sender admitted
  | vertexRequest address => exact processVertexRequest_returns fit admitted.1

end Replica

end Abcperf.Nxbft
