import Abcperf.Nxbft.Ledger

/-! What the handlers of the protocol leave alone. Everything that recovery sets stays as it is, the
graph only grows, and a round is left only once the graph has the replica's own vertex of it. -/

namespace Abcperf.Nxbft

open Lib Lib.Outcome

variable {P : Platform}

namespace Dag

variable {dag after : Dag P} {address : DagAddress} {entry : VertexWithMeta P}

def Within (before after : Dag P) : Prop :=
  ∀ address, (before.lookup address).isSome → (after.lookup address).isSome

theorem within_refl (dag : Dag P) : dag.Within dag := fun _ known => known

theorem Within.trans {first second third : Dag P} (left : first.Within second)
    (right : second.Within third) : first.Within third :=
  fun address known => right address (left address known)

theorem SameVertices.within {before : Dag P} (same : before.SameVertices after) :
    before.Within after :=
  fun address known => (same.isSome address).trans known

theorem insert_within {vertex : Vertex P} (run : dag.insert vertex = .ok after) :
    dag.Within after := by
  simp only [insert, bind_ok, assert_ok, pure_ok] at run
  obtain ⟨_, _, _, _, _, inside, reaches, _, rfl⟩ := run
  intro address known
  rw [show vertex.round = (VertexWithMeta.new vertex reaches).vertex.round from rfl,
    lookup_place dag _ inside]
  split
  · rfl
  · exact known

end Dag

def Output.sent (output : Output P) : List (PeerMessage P) :=
  output.broadcasts ++ output.unicasts.map (·.2)

namespace Replica

def frame (replica : Replica P) :=
  (replica.n, replica.quorum, replica.me, replica.inRecovery, replica.currentlyRecovering,
    replica.restartRound, replica.maxRounds, replica.round, replica.vertexBuffer)

structure Marks (before after : Replica P) : Prop where
  frame : after.frame = before.frame
  same : before.dag.SameVertices after.dag

variable {first second third before after replica next : Replica P} {sender creator fuel : Nat}
  {env : Env} {message : SignedMessage P} {output : Output P}

structure Spares (before after : Replica P) : Prop where
  frame : after.frame = before.frame
  dag : after.dag = before.dag
  decidedWave : after.decidedWave = before.decidedWave

theorem Spares.refl (replica : Replica P) : Spares replica replica := ⟨rfl, rfl, rfl⟩

theorem Spares.trans (left : Spares first second) (right : Spares second third) :
    Spares first third :=
  ⟨right.frame.trans left.frame, right.dag.trans left.dag,
    right.decidedWave.trans left.decidedWave⟩

theorem Spares.marks (spares : Spares before after) :
    Marks before after := ⟨spares.frame, spares.dag ▸ .refl _⟩

structure Still (before after : Replica P) : Prop where
  enclave : after.enclave = before.enclave
  requests : after.pendingClientRequests = before.pendingClientRequests
  signed : signedBy after.output.output = signedBy before.output.output
  me : after.me = before.me
  named : ∀ message ∈ after.output.output.sent,
    message ∈ before.output.output.sent ∨ message.sender = before.me

theorem Still.refl (replica : Replica P) : Still replica replica :=
  ⟨rfl, rfl, rfl, rfl, fun _ member => .inl member⟩

theorem Still.trans (left : Still first second) (right : Still second third) :
    Still first third where
  enclave := right.enclave.trans left.enclave
  requests := right.requests.trans left.requests
  signed := right.signed.trans left.signed
  me := right.me.trans left.me
  named := by
    intro message member
    rcases right.named message member with old | fresh
    · exact left.named message old
    · exact .inr (fresh.trans left.me)

theorem still_silent (enclave : after.enclave = before.enclave)
    (requests : after.pendingClientRequests = before.pendingClientRequests)
    (me : after.me = before.me)
    (broadcasts : after.output.output.broadcasts = before.output.output.broadcasts)
    (unicasts : after.output.output.unicasts = before.output.output.unicasts) :
    Still before after where
  enclave := enclave
  requests := requests
  signed := by rw [signedBy, broadcasts, signedBy]
  me := me
  named := fun message member => .inl (by rwa [Output.sent, broadcasts, unicasts] at member)

/-- What a handler leaves alone, but for rounds that it has seen and vertices that it adds. -/
structure Extends (before after : Replica P) : Prop where
  n : after.n = before.n
  quorum : after.quorum = before.quorum
  me : after.me = before.me
  inRecovery : after.inRecovery = before.inRecovery
  recovering : after.currentlyRecovering = before.currentlyRecovering
  restartRound : after.restartRound = before.restartRound
  maxRounds : ∀ id, before.maxRounds id ≤ after.maxRounds id
  within : before.dag.Within after.dag

theorem Extends.trans (left : Extends first second) (right : Extends second third) :
    Extends first third where
  n := right.n.trans left.n
  quorum := right.quorum.trans left.quorum
  me := right.me.trans left.me
  inRecovery := right.inRecovery.trans left.inRecovery
  recovering := right.recovering.trans left.recovering
  restartRound := right.restartRound.trans left.restartRound
  maxRounds := fun id => le_trans (left.maxRounds id) (right.maxRounds id)
  within := left.within.trans right.within

structure Stays (before after : Replica P) : Prop extends Extends before after where
  round : after.round = before.round

theorem Marks.stays (marks : Marks before after) : Stays before after := by
  have same := marks.frame
  simp only [Replica.frame, Prod.mk.injEq] at same
  obtain ⟨n, quorum, me, inRecovery, recovering, restartRound, maxRounds, round, _⟩ := same
  exact ⟨⟨n, quorum, me, inRecovery, recovering, restartRound,
    fun id => Nat.le_of_eq (congrFun maxRounds id).symm, marks.same.within⟩, round⟩

theorem Spares.stays (spares : Spares before after) : Stays before after := spares.marks.stays

theorem Stays.refl (replica : Replica P) : Stays replica replica := (Spares.refl replica).stays

theorem Stays.trans (left : Stays first second) (right : Stays second third) : Stays first third :=
  ⟨left.toExtends.trans right.toExtends, right.round.trans left.round⟩

theorem walkLeaders_same {decidedWave : Nat} {coins : Nat → Option Nat} (wave : Nat)
    (dag after : Dag P) (vertex : DagAddress) (stack stack' : List DagAddress)
    (waves waves' : List Nat) (run : walkLeaders fuel coins decidedWave wave dag vertex stack
      waves = .ok (after, stack', waves')) : dag.SameVertices after := by
  induction wave generalizing dag after vertex stack stack' waves waves' with
  | zero =>
    obtain ⟨rfl, _⟩ := pair_ok.mp run
    exact Dag.SameVertices.refl _
  | succ wave ih =>
    unfold walkLeaders at run
    split at run
    · obtain ⟨rfl, _⟩ := pair_ok.mp run
      exact Dag.SameVertices.refl _
    simp only [bind_ok] at run
    obtain ⟨coin, _, known, _, run⟩ := run
    split at run
    · simp only [bind_ok, Prod.exists] at run
      obtain ⟨searched, connected, isSearched, run⟩ := run
      have same := Dag.hasPath_same isSearched
      split at run
      · exact same.trans (ih _ _ _ _ _ _ _ run)
      · exact same.trans (ih _ _ _ _ _ _ _ run)
    · exact ih _ _ _ _ _ _ _ run

structure Hands (before after : Replica P) : Prop where
  frame : after.frame = before.frame
  kept : before.dag.PathsKept after.dag
  decidedWave : after.decidedWave = before.decidedWave
  stateMessages : after.output.output.stateMessages = before.output.output.stateMessages
  still : Still before after

theorem deliverLeader_hands {leader : DagAddress} {delivered : List DagAddress}
    (run : replica.deliverLeader fuel leader = .ok (next, delivered)) : Hands replica next := by
  simp only [deliverLeader, bind_ok, Prod.exists, pair_ok] at run
  obtain ⟨dag, delivered', searched, next', transactions, rfl, rfl⟩ := run
  obtain ⟨more, last, rfl, _⟩ :=
    deliverVertices_eq delivered' { replica with dag } next' [] transactions
  exact ⟨rfl, Dag.deliverFrom_kept searched, rfl, rfl, still_silent rfl rfl rfl rfl rfl⟩

theorem deliverLeaders_hands {leaders order : List DagAddress}
    (run : replica.deliverLeaders fuel leaders = .ok (next, order)) : Hands replica next := by
  refine foldlM_keeps (fun state : Replica P × List DagAddress => Hands replica state.1) _ _ _ _
    ?_ ⟨rfl, .refl _, rfl, rfl, .refl _⟩ run
  rintro ⟨current, sofar⟩ leader ⟨after, joined⟩ _ hands step
  simp only [bind_ok, pair_ok, Prod.exists] at step
  obtain ⟨after', delivered, isStep, rfl, rfl⟩ := step
  have more := deliverLeader_hands isStep
  exact ⟨more.frame.trans hands.frame, hands.kept.trans more.kept,
    more.decidedWave.trans hands.decidedWave, more.stateMessages.trans hands.stateMessages,
    hands.still.trans more.still⟩

theorem decideWave_marks {wave waveLeader : Nat}
    (run : replica.decideWave fuel wave waveLeader = .ok next) :
    Marks replica next ∧ Still replica next := by
  simp only [decideWave, bind_ok, Prod.exists, pure_ok] at run
  obtain ⟨dag, leaders, waves, walked, handed, order, delivered, rfl⟩ := run
  have hands := deliverLeaders_hands delivered
  have still := hands.still
  exact ⟨⟨hands.frame, (walkLeaders_same _ _ _ _ _ _ _ _ walked).trans hands.kept.same⟩,
    { still with }⟩

/-- The end of a wave marks the graph, and all it does to the enclave is the toss. -/
theorem waveReady_marks (run : replica.waveReady env = .ok next) :
    Marks replica next ∧ ∃ enclave proof result,
      replica.enclave.toss proof = .ok (enclave, result) ∧ Still { replica with enclave } next := by
  simp only [waveReady, bind_ok, Prod.exists] at run
  obtain ⟨_, _, proof, _, enclave, result, tossed, run⟩ := run
  cases result with
  | error error =>
    exact pure_ok.mp run ▸ ⟨⟨rfl, .refl _⟩, enclave, proof, _, tossed,
      still_silent rfl rfl rfl rfl rfl⟩
  | ok waveLeader =>
    obtain ⟨known, _, run⟩ := bind_ok.mp run
    split at run
    · exact pure_ok.mp run ▸ ⟨⟨rfl, .refl _⟩, enclave, proof, _, tossed,
        still_silent rfl rfl rfl rfl rfl⟩
    obtain ⟨reaching, _, run⟩ := bind_ok.mp run
    split at run
    · exact pure_ok.mp run ▸ ⟨⟨rfl, .refl _⟩, enclave, proof, _, tossed,
        still_silent rfl rfl rfl rfl rfl⟩
    · obtain ⟨marks, still⟩ := decideWave_marks run
      exact ⟨⟨marks.frame, marks.same⟩, enclave, proof, _, tossed, { still with }⟩

theorem signVertex_spares (env : Env) (replica : Replica P) :
    Spares replica (replica.signVertex env) := by
  unfold signVertex
  dsimp only
  split <;> exact ⟨rfl, rfl, rfl⟩

theorem createVertex_spares {allowed : Bool} (run : replica.createVertex env allowed = .ok next) :
    Spares replica next := by
  unfold createVertex at run
  split at run
  · split at run <;> exact pure_ok.mp run ▸ ⟨rfl, rfl, rfl⟩
  simp only [bind_ok] at run
  obtain ⟨full, _, run⟩ := run
  split at run
  · exact pure_ok.mp run ▸ signVertex_spares env replica
  · exact pure_ok.mp run ▸ ⟨rfl, rfl, rfl⟩

/-- `chain` says that a replica leaves a round only with its own vertex of it in the graph. -/
structure Moves (before after : Replica P) : Prop extends Extends before after where
  round : before.round ≤ after.round
  chain : ∀ round, before.round ≤ round → round < after.round →
    (after.dag.lookup ⟨round, before.me⟩).isSome

theorem Stays.moves (stays : Stays before after) : Moves before after :=
  { stays with
    round := Nat.le_of_eq stays.round.symm
    chain := fun _ low high => absurd high (Nat.not_lt.mpr (stays.round ▸ low)) }

theorem Spares.moves (spares : Spares before after) : Moves before after := spares.stays.moves

theorem Moves.refl (replica : Replica P) : Moves replica replica := (Stays.refl replica).moves

theorem Moves.trans (left : Moves first second) (right : Moves second third) :
    Moves first third where
  toExtends := left.toExtends.trans right.toExtends
  round := le_trans left.round right.round
  chain := by
    intro round low high
    by_cases early : round < second.round
    · exact right.within _ (left.chain round low early)
    · exact left.me ▸ right.chain round (Nat.not_lt.mp early) high

end Replica

end Abcperf.Nxbft
