import Abcperf.Nxbft.Safety
import Abcperf.Nxbft.Seeds
import Abcperf.Nxbft.Tidiness

/-! The leaders that `wave_ready` commits. Earlier calls leave marks in the graph, of paths they
have searched and of vertices they have delivered; the marks of a search stay below the round it
started from, so none of them hides a leader of a wave that is not decided yet. -/

namespace Abcperf.Nxbft

open Lib Lib.Outcome Plain RoundDag Option

variable {P : Platform}

namespace Dag

/-- The direct commit rule counts the vertices at the end of the wave with a path to the leader. -/
theorem countReaching_iff {quorum wave leader count : Nat} {dag : Dag P}
    (wellFormed : dag.WellFormed quorum) (collected : dag.ReachesCollected) (positive : 0 < wave)
    (run : Replica.countReaching dag (dag.getRound (Replica.waveRound wave 4)) leader = .ok count) :
    quorum ≤ count ↔ (dag.graph wellFormed).Supported (IsQuorum dag.n quorum)
      ⟨Replica.waveRound wave 1, leader⟩ (4 * wave) := by
  obtain ⟨counted, total, each⟩ := countReaching_votes run (getRound_nodup wellFormed _)
  have lastRound : Replica.waveRound wave 4 = 4 * wave := by
    unfold Replica.waveRound
    omega
  rw [lastRound] at each
  -- the vertex of an entry in the last round reaches the first round of the wave
  have reaches_iff : ∀ vote entry, vote.round = 4 * wave → dag.lookup vote = some entry →
      (leader ∈ entry.reaches ↔
        (dag.graph wellFormed).Reaches vote ⟨Replica.waveRound wave 1, leader⟩) := by
    intro vote entry atRound found
    rw [fourth_iff wellFormed found collected (by omega)]
    have firstRound : vote.round - 3 = Replica.waveRound wave 1 := by
      unfold Replica.waveRound
      omega
    rw [firstRound]
  constructor
  · intro enough
    refine ⟨counted, ⟨by omega, ?_⟩, ?_⟩
    · intro vote member
      exact (mem_getRound wellFormed ((each vote).mp member).1).2.1
    intro vote member
    obtain ⟨inRound, entry, found, reached⟩ := (each vote).mp member
    obtain ⟨atRound, _, known⟩ := mem_getRound wellFormed inRound
    exact ⟨atRound, (graph_known wellFormed vote).mpr known,
      (reaches_iff vote entry atRound found).mp reached⟩
  rintro ⟨votes, ⟨enough, _⟩, voted⟩
  have subset : votes ⊆ counted := by
    intro vote member
    obtain ⟨atRound, known, path⟩ := voted vote member
    have isSome := (graph_known wellFormed vote).mp known
    obtain ⟨entry, found⟩ := isSome_iff_exists.mp isSome
    exact (each vote).mpr ⟨atRound ▸ known_getRound wellFormed isSome, entry, found,
      (reaches_iff vote entry atRound found).mpr path⟩
  have := Finset.card_le_card subset
  omega

end Dag

namespace Replica

structure Searchable (replica : Replica P) : Prop where
  collected : replica.dag.ReachesCollected
  exploredBelow : replica.dag.ExploredBelow
  exploredFrom : replica.dag.exploredFrom ≤ 4 * replica.decidedWave
  decided : 4 * replica.decidedWave ≤ replica.round

/-- The leaders of the waves by the coins the replica has tossed, with `waveLeader` for `wave`. -/
def coinLeader (replica : Replica P) (wave waveLeader other : Nat) : DagAddress :=
  ⟨waveRound other 1,
    (Function.update replica.pendingWaveCoins wave (some waveLeader) other).getD 0⟩

theorem coinLeader_self (replica : Replica P) (wave waveLeader : Nat) :
    replica.coinLeader wave waveLeader wave = ⟨waveRound wave 1, waveLeader⟩ := by
  rw [coinLeader, Function.update_self, getD_some]

variable {replica : Replica P}

theorem coinLeader_tossed {wave waveLeader other tossed : Nat}
    (isTossed : Function.update replica.pendingWaveCoins wave (some waveLeader) other =
      some tossed) :
    replica.coinLeader wave waveLeader other = ⟨waveRound other 1, tossed⟩ := by
  rw [coinLeader, isTossed, getD_some]

/-- A decision commits the leader and what the walk down from it commits, and leaves marks that do
not hide later leaders. -/
theorem decideWave_chain {quorum fuel wave waveLeader : Nat} {next : Replica P}
    (run : replica.decideWave fuel wave waveLeader = .ok next)
    (wellFormed : replica.dag.WellFormed quorum) (below : replica.dag.ExploredBelow)
    (bound : replica.dag.exploredFrom ≤ 4 * replica.decidedWave)
    (later : replica.decidedWave ≤ wave) {leaderOf : Nat → DagAddress}
    (coins : ∀ other tossed, replica.pendingWaveCoins other = some tossed →
      leaderOf other = ⟨waveRound other 1, tossed⟩)
    (isLeader : leaderOf wave = ⟨waveRound wave 1, waveLeader⟩) (positive : 0 < wave)
    (known : (replica.dag.graph wellFormed).Known (leaderOf wave)) :
    leadersOf next.output.output = leadersOf replica.output.output ++
        ((replica.dag.graph wellFormed).committed leaderOf replica.decidedWave (leaderOf wave)
          (wave - 1) ++ [leaderOf wave]) ∧ replica.dag.SameVertices next.dag ∧
          next.dag.ExploredBelow ∧
      next.dag.exploredFrom ≤ 4 * wave ∧ next.decidedWave = wave := by
  simp only [decideWave, bind_ok, Prod.exists, pure_ok] at run
  obtain ⟨walked, leaders, waves, walk, handed, order, delivered, rfl⟩ := run
  rw [← isLeader] at walk
  obtain ⟨same, _, walkBelow, walkBound, isChain⟩ := walkLeaders_committed coins (wave - 1)
    replica.dag wellFormed _ _ _ walked leaders waves below known (.inl bound) walk
  have hands := deliverLeaders_hands delivered
  refine ⟨?_, same.trans hands.kept.same, hands.kept.exploredBelow walkBelow, ?_, rfl⟩
  · show leadersOf (handed.output.stateMessage (.decided waves leaders order)).output = _
    rw [isChain]
    simp [leadersOf, UnreflectedOutput.stateMessage, hands.stateMessages, StateMessage.leaders]
  show handed.dag.exploredFrom ≤ 4 * wave
  rw [hands.kept.exploredFrom]
  have low : (leaderOf wave).round ≤ 4 * wave := by
    rw [isLeader]
    simp only [waveRound]
    omega
  show walked.exploredFrom ≤ 4 * wave
  omega

/-- What a call of `wave_ready` commits: nothing if the toss fails, and otherwise the decision of
the wave in the graph, for the waves above the last decided one. -/
def CommitsDecision (replica next : Replica P)
    (wellFormed : replica.dag.WellFormed replica.quorum) :
    Prop :=
  (leadersOf next.output.output = leadersOf replica.output.output ∧
    ∃ proof enclave error, coinProof replica.dag replica.round = .ok proof ∧
      replica.enclave.toss proof = .ok (enclave, .error error)) ∨
  ∃ proof enclave waveLeader, coinProof replica.dag replica.round = .ok proof ∧
    replica.enclave.toss proof = .ok (enclave, .ok waveLeader) ∧
    leadersOf next.output.output = leadersOf replica.output.output ++
      (replica.dag.graph wellFormed).decision (Dag.IsQuorum replica.dag.n replica.quorum)
        (replica.coinLeader (replica.round / 4) waveLeader) (fun wave => 4 * wave)
        replica.decidedWave (replica.round / 4)

theorem Searchable.kept {before after : Replica P} (searchable : before.Searchable)
    (dag : after.dag = before.dag) (decidedWave : after.decidedWave = before.decidedWave)
    (round : after.round = before.round) : after.Searchable := by
  obtain ⟨collected, exploredBelow, exploredFrom, decided⟩ := searchable
  refine ⟨?_, ?_, ?_, ?_⟩
  · rwa [dag]
  · rwa [dag]
  · rwa [dag, decidedWave]
  · rwa [decidedWave, round]

theorem waveReady_decision {env : Env} {next : Replica P}
    (wellFormed : replica.dag.WellFormed replica.quorum) (searchable : replica.Searchable)
    (run : replica.waveReady env = .ok next) :
    replica.CommitsDecision next wellFormed ∧ next.Searchable := by
  simp only [waveReady, bind_ok, assert_ok, exists_and_left, exists_const, Prod.exists] at run
  obtain ⟨long, proof, isProof, enclave, result, isTossed, run⟩ := run
  have positive : 0 < replica.round / 4 := by omega
  cases result with
  | error error =>
    cases pure_ok.mp run
    refine ⟨.inl ⟨?_, proof, enclave, error, isProof, isTossed⟩, searchable.kept rfl rfl rfl⟩
    simp [leadersOf, stateMessage, UnreflectedOutput.stateMessage, StateMessage.leaders]
  | ok waveLeader =>
    let leaderOf := replica.coinLeader (replica.round / 4) waveLeader
    have isLeader : leaderOf (replica.round / 4) = ⟨waveRound (replica.round / 4) 1, waveLeader⟩ :=
      coinLeader_self replica _ waveLeader
    simp only [bind_ok, Dag.knows_ok] at run
    obtain ⟨known, ⟨_, rfl⟩, run⟩ := run
    rw [← isLeader] at run
    split at run
    · next absent =>
      -- the leader is not in the graph
      cases pure_ok.mp run
      refine ⟨.inr ⟨proof, enclave, waveLeader, isProof, isTossed, ?_⟩, searchable.kept rfl rfl rfl⟩
      have unknown : ¬ (replica.dag.graph wellFormed).Known (leaderOf (replica.round / 4)) := by
        rw [Dag.graph_known]
        simpa using absent
      rw [decision, if_neg fun both => unknown both.1]
      simp [leadersOf, stateMessage, UnreflectedOutput.stateMessage, StateMessage.leaders]
    rename_i present
    have isKnown : (replica.dag.graph wellFormed).Known (leaderOf (replica.round / 4)) := by
      rw [Dag.graph_known, isSome_iff_ne_none]
      simpa using present
    obtain ⟨reaching, isCount, run⟩ := bind_ok.mp run
    have counts := Dag.countReaching_iff wellFormed searchable.collected positive isCount
    rw [← isLeader] at counts
    split at run
    · next few =>
      -- too few vertices reach the leader
      cases pure_ok.mp run
      refine ⟨.inr ⟨proof, enclave, waveLeader, isProof, isTossed, ?_⟩, searchable.kept rfl rfl rfl⟩
      rw [decision, if_neg fun both => not_le.mpr few (counts.mpr both.2)]
      simp [leadersOf, stateMessage, UnreflectedOutput.stateMessage, StateMessage.leaders]
    rename_i enough
    have supported := counts.mp (not_lt.mp enough)
    have later : replica.decidedWave ≤ replica.round / 4 := by
      have := searchable.decided
      omega
    obtain ⟨leaders, same, below, bound, decidedWave⟩ := decideWave_chain run
      wellFormed searchable.exploredBelow searchable.exploredFrom later
      (fun _ _ => coinLeader_tossed) isLeader positive isKnown
    have marks := (decideWave_marks run).1
    refine ⟨.inr ⟨proof, enclave, waveLeader, isProof, isTossed, ?_⟩, ?_⟩
    · rw [decision, if_pos ⟨isKnown, supported⟩]
      exact leaders
    refine ⟨same.reachesCollected searchable.collected, below, ?_, ?_⟩
    · rwa [decidedWave]
    · rw [decidedWave, show next.round = replica.round from marks.buffer.2.1]
      omega

theorem Passes.searchable {config : Config P} (passes : Passes config replica) :
    replica.Searchable := by
  induction passes with
  | new run =>
    simp only [Replica.new, bind_ok, pure_ok] at run
    obtain ⟨_, _, _, _, _, _, _, _, rfl⟩ := run
    refine ⟨?_, ?_, le_rfl, Nat.zero_le _⟩
    · intro address entry found
      simp [initial] at found
    · rintro address ⟨entry, found, _⟩
      simp [initial] at found
  | spares before spares ih => exact ih.kept spares.dag spares.decidedWave spares.marks.buffer.2.1
  | buffers before accepts ih => exact ih.kept rfl rfl rfl
  | loops before loops ih =>
    obtain ⟨_, grown, _⟩ := loops.sweeps before.tidy
    obtain ⟨stays, _, decidedWave⟩ := loops.stays
    have round := stays.round
    refine ⟨grown.reachesCollected ih.collected, grown.exploredBelow ih.exploredBelow, ?_, ?_⟩
    · rw [grown.exploredFrom, decidedWave]
      exact ih.exploredFrom
    · rw [round, decidedWave]
      exact ih.decided
  | decides before run ih => exact (waveReady_decision before.tidy.wellFormed ih run).2
  | @advances replica before ih =>
    have same := Dag.sameVertices_newRound replica.dag
    refine ⟨same.reachesCollected ih.collected, ?_, ih.exploredFrom, ?_⟩
    · rintro address ⟨entry, found, marked⟩
      have found : replica.dag.newRound.lookup address = some entry := found
      rw [Dag.lookup_newRound] at found
      exact ih.exploredBelow address ⟨entry, found, marked⟩
    · exact Nat.le_succ_of_le ih.decided

end Replica

theorem leaderAt_rising (n : Nat) (seed : BitVec 256) (first second : Nat) (positive : 0 < first)
    (less : first < second) :
    (leaderAt P n seed first).round < (leaderAt P n seed second).round := by
  simp only [leaderAt, Replica.waveRound]
  omega

theorem World.Coherent.leaders {setup : Setup P} {world : World P}
    (coherent : world.Coherent setup False) {id : Nat} (correct : id ∈ setup.correct) :
    ∃ wellFormed : (world.replicas id).dag.WellFormed (world.replicas id).quorum,
      leadersOf (world.history id) = ((world.replicas id).dag.graph wellFormed).sequence
        (leaderAt P (world.replicas id).n (world.replicas id).enclave.seed)
        (world.replicas id).decidedWave := by
  have ledger := (coherent.healthy id correct).working.sound.graph.ledger
  rw [coherent.facts correct] at ledger
  exact ⟨ledger.wellFormed, ledger.committed.leaders⟩

/-- A leader that one replica has committed is among those of every replica that has committed a
later one. -/
theorem World.Coherent.leader_shared [Secure P] {setup : Setup P} {world : World P}
    (coherent : world.Coherent setup False) (shared : world.SharedSeed setup) {left right : Nat}
    (isLeft : left ∈ setup.correct) (isRight : right ∈ setup.correct) {early late : DagAddress}
    (isEarly : early ∈ leadersOf (world.history left))
    (isLate : late ∈ leadersOf (world.history right)) (less : early.round < late.round) :
    early ∈ leadersOf (world.history right) := by
  rcases le_total (world.replicas left).decidedWave (world.replicas right).decidedWave with le | ge
  · exact (World.ledgers_nested coherent shared isLeft isRight le).1.subset isEarly
  -- Here the leaders of the right replica come first, and those after them are in later rounds.
  obtain ⟨rest, isSplit⟩ := (World.ledgers_nested coherent shared isRight isLeft ge).1
  obtain ⟨wellFormed, leaders⟩ := coherent.leaders isLeft
  have rising : (leadersOf (world.history left)).Pairwise
      fun first second => first.round < second.round := by
    rw [leaders]
    exact sequence_rising (leaderAt_rising _ _) _
  rw [← isSplit, List.pairwise_append] at rising
  rw [← isSplit] at isEarly
  rcases List.mem_append.mp isEarly with before | after
  · exact before
  · exact absurd (less.trans (rising.2.2 late isLate early after)) (lt_irrefl _)

/-- Every call of `wave_ready` commits the decision of its wave in the replica's graph, in every
state that a correct replica passes through. And a leader that one correct replica has committed is
in the chain of every later leader that any correct replica has committed. -/
theorem leader_chains (secure : Secure P) (sealing : P.Sealing) {setup : Setup P} {world : World P}
    (run : Run setup Event.EchoNamesSource world) {left right : Nat} (isLeft : left ∈ setup.correct)
    (isRight : right ∈ setup.correct) :
    (Replica.Passes (setup.config left) (world.replicas left) ∧
      ∀ replica, Replica.Passes (setup.config left) replica →
        ∃ wellFormed : replica.dag.WellFormed replica.quorum, ∀ env next,
          replica.waveReady env = .ok next → replica.CommitsDecision next wellFormed) ∧
    ∃ wellFormed : (world.replicas right).dag.WellFormed (world.replicas right).quorum,
      ∀ early ∈ leadersOf (world.history left), ∀ late ∈ leadersOf (world.history right),
        early.round < late.round → ∃ wave,
          late = leaderAt P (world.replicas right).n (world.replicas right).enclave.seed wave ∧
          early ∈ ((world.replicas right).dag.graph wellFormed).committed
            (leaderAt P (world.replicas right).n (world.replicas right).enclave.seed) 0 late
            (wave - 1) := by
  have coherent := World.run_coherent run
  have shared : world.SharedSeed setup := fun _ isLeft _ isRight =>
    World.seeds_agree sealing run isLeft isRight
  refine ⟨⟨run_passes run left isLeft, fun replica passes =>
    ⟨passes.tidy.wellFormed, fun env next ready =>
      (Replica.waveReady_decision passes.tidy.wellFormed passes.searchable ready).1⟩⟩, ?_⟩
  obtain ⟨wellFormed, leaders⟩ := coherent.leaders isRight
  refine ⟨wellFormed, fun early isEarly late isLate less => ?_⟩
  have inRight := coherent.leader_shared shared isLeft isRight isEarly isLate less
  rw [leaders] at inRight isLate
  exact sequence_chain (leaderAt_rising _ _) inRight isLate less

namespace Plain

def secondWave : List (Move platform) :=
  [.relay 0 1 9, .relay 1 0 9, .relay 0 1 10, .relay 1 0 10, .relay 0 1 11, .relay 1 0 11,
    .relay 0 1 12, .relay 1 0 12]

end Plain

/-- Two replicas that follow the protocol for two waves: the leader of the first wave that replica
0 has committed is in the chain of the leader of the second that replica 1 has. -/
theorem leader_chains_faithful : ∃ world, Run Plain.setup Event.EchoNamesSource world ∧
    leadersOf (world.history 0) = [⟨1, 1⟩, ⟨5, 1⟩] ∧
    leadersOf (world.history 1) = [⟨1, 1⟩, ⟨5, 1⟩] ∧
    ∃ wellFormed : (world.replicas 1).dag.WellFormed (world.replicas 1).quorum, ∃ wave,
      ⟨5, 1⟩ = leaderAt Plain.platform (world.replicas 1).n (world.replicas 1).enclave.seed wave ∧
      ⟨1, 1⟩ ∈ ((world.replicas 1).dag.graph wellFormed).committed
        (leaderAt Plain.platform (world.replicas 1).n (world.replicas 1).enclave.seed) 0 ⟨5, 1⟩
        (wave - 1) := by
  obtain ⟨world, run, left, right⟩ : ∃ world, Run _ Event.EchoNamesSource world ∧
      leadersOf (world.history 0) = [⟨1, 1⟩, ⟨5, 1⟩] ∧
      leadersOf (world.history 1) = [⟨1, 1⟩, ⟨5, 1⟩] :=
    player.play_run (fun _ => Event.echoNamesSource_sound) start_initial (faithful ++ secondWave)
      (by decide +kernel)
  obtain ⟨_, wellFormed, chain⟩ := leader_chains secure sealing run
    (by decide : 0 ∈ setup.correct) (by decide : 1 ∈ setup.correct)
  exact ⟨world, run, left, right, wellFormed,
    chain ⟨1, 1⟩ (by rw [left]; decide) ⟨5, 1⟩ (by rw [right]; decide) (by decide)⟩

namespace Plain

def outerSetup : Setup platform where
  n := 3
  correct := {0, 2}
  config id := ⟨id, 3, 0, 1, 1, id, 0⟩
  named := fun _ _ => ⟨rfl, rfl⟩
  ownKey := fun _ _ _ _ same => same

def outerPlayer : Player platform where
  setup := outerSetup
  env := player.env
  genuine := genuineAmong outerSetup.correct
  sound := genuineAmong_sound fun _ => rfl

theorem outer_initial : start.Initial outerSetup := by
  refine ⟨?_, fun _ => ⟨rfl, rfl⟩⟩
  intro id correct
  have isId : id = 0 ∨ id = 2 := by simpa [outerSetup] using correct
  rcases isId with rfl | rfl <;> exact ⟨rfl, rfl⟩

/-- The second enclave of host 1. It generates the same share as the first one, so that the seeds
do not tell them apart. -/
def twin : Nat := 1 + Nat.pow 2 254

/-- What host 1 does with one of its enclaves: it exchanges shares with the two others. -/
def enclaveOfOne (key : Nat) : List (Move platform) :=
  [.launch key, .call key .init, .call key (.initPeerHandshake 0 0),
    .call key (.initPeerHandshake 1 key), .call key (.initPeerHandshake 2 2),
    .call key (.completePeerHandshake 0 (share 0 key)),
    .call key (.completePeerHandshake 1 (share key key)),
    .call key (.completePeerHandshake 2 (share 2 key))]

/-- Host 1 presents the enclave `key` as its own to `receiver` and speaks for `other`, too. -/
def presents (key receiver other : Nat) : List (Move platform) :=
  [.inject 1 receiver ⟨1, .hello key⟩, .inject 1 receiver ⟨other, .hello other⟩,
    .inject 1 receiver ⟨1, .helloEcho 0 0⟩, .inject 1 receiver ⟨1, .helloEcho 1 key⟩,
    .inject 1 receiver ⟨1, .helloEcho 2 2⟩, .inject 1 receiver ⟨other, .helloEcho 0 0⟩,
    .inject 1 receiver ⟨other, .helloEcho 1 key⟩, .inject 1 receiver ⟨other, .helloEcho 2 2⟩,
    .inject 1 receiver ⟨other, .helloReply (share other receiver)⟩,
    .inject 1 receiver ⟨1, .helloReply (share key receiver)⟩,
    .inject 1 receiver ⟨1, .ready⟩, .inject 1 receiver ⟨other, .ready⟩, .timeout receiver]

def vertexOfOne (key round counter : Nat) (edges : IdSet) : Vertex platform :=
  ⟨⟨round, 1⟩, edges, [], (key, counter, (round, 1, [], edges.iter)), counter⟩

def sendVertexOfOne (key receiver round counter : Nat) (edges : IdSet) : List (Move platform) :=
  [.call key (.sign (vertexOfOne key round counter edges).hash),
    .inject 1 receiver ⟨1, .signed ⟨vertexOfOne key round counter edges⟩⟩]

def pair (left right : Nat) : IdSet := (IdSet.empty.insert left).insert right

/-- Replica 0 builds on the vertices of the first enclave for one wave. Replica 2 takes the first
vertex of replica 0 and then builds on the vertices of the second enclave for two waves. -/
def twins : List (Move platform) :=
  List.flatten [[.init 0, .init 2], enclaveOfOne 1, enclaveOfOne twin, presents 1 0 2,
    presents twin 2 0,
    sendVertexOfOne 1 0 1 0 IdSet.empty, sendVertexOfOne 1 0 2 1 (pair 0 1),
    sendVertexOfOne 1 0 3 2 (pair 0 1), sendVertexOfOne 1 0 4 3 (pair 0 1),
    [.relay 0 2 5], sendVertexOfOne twin 2 2 0 (pair 0 2), sendVertexOfOne twin 2 3 1 (pair 1 2),
    sendVertexOfOne twin 2 4 2 (pair 1 2), sendVertexOfOne twin 2 5 3 (pair 1 2),
    sendVertexOfOne twin 2 6 4 (pair 1 2), sendVertexOfOne twin 2 7 5 (pair 1 2),
    sendVertexOfOne twin 2 8 6 (pair 1 2)]

end Plain

/-- With echoes in the name of others, replica 0 commits the leader of the first wave directly and
replica 2 commits that of the second wave, whose chain does not have the first. -/
theorem twins_split_chain : Secure Plain.platform ∧ Plain.platform.Sealing ∧ ∃ world,
    Run Plain.outerSetup (fun _ => True) world ∧ world.SharedSeed Plain.outerSetup ∧
    0 ∈ Plain.outerSetup.correct ∧ 2 ∈ Plain.outerSetup.correct ∧
    leadersOf (world.history 0) = [⟨1, 1⟩] ∧ leadersOf (world.history 2) = [⟨5, 1⟩] ∧
    ∃ wellFormed : (world.replicas 2).dag.WellFormed (world.replicas 2).quorum,
      ∀ wave, ⟨1, 1⟩ ∉ ((world.replicas 2).dag.graph wellFormed).committed
        (leaderAt Plain.platform (world.replicas 2).n (world.replicas 2).enclave.seed) 0 ⟨5, 1⟩
        (wave - 1) := by
  obtain ⟨world, run, shared, left, right, absent, present⟩ : ∃ world, Run _ _ world ∧
      world.SharedSeed outerSetup ∧ leadersOf (world.history 0) = [⟨1, 1⟩] ∧
      leadersOf (world.history 2) = [⟨5, 1⟩] ∧
      ((world.replicas 2).dag.lookup ⟨1, 1⟩).isSome = false ∧
      ((world.replicas 2).dag.lookup ⟨5, 1⟩).isSome = true :=
    outerPlayer.play_run (fun _ (_ : true = true) => trivial) outer_initial twins
      (by decide +kernel)
  have wellFormed := (run_passes run 2 (by decide)).tidy.wellFormed
  refine ⟨secure, sealing, world, run, shared, by decide, by decide,
    left, right, wellFormed, fun wave inChain => ?_⟩
  -- what is in the chain of a known leader is in the graph
  have known := reaches_known (committed_reached inChain)
      ((Dag.graph_known wellFormed _).mpr present)
  rw [Dag.graph_known, absent] at known
  cases known

end Abcperf.Nxbft
