import Abcperf.Nxbft.Ledger

/-! Deciding a wave. The leaders a replica has committed are those of the graph's own commit rule,
for the last wave it has decided. -/

namespace Abcperf.Nxbft

open Lib Lib.Outcome Lib.DepthFirst Replica List Option

variable {P : Platform}

structure Committed {quorum : Nat} (dag : Dag P) (wellFormed : dag.WellFormed quorum)
    (leaderOf : Nat → DagAddress) (decidedWave : Nat) (leaders : List DagAddress) : Prop where
  supported : 0 < decidedWave → (dag.graph wellFormed).Supported (Dag.IsQuorum dag.n quorum)
    (leaderOf decidedWave) (4 * decidedWave)
  known : 0 < decidedWave → (dag.graph wellFormed).Known (leaderOf decidedWave)
  leaders : leaders = (dag.graph wellFormed).sequence leaderOf decidedWave

variable {quorum : Nat} {leaderOf : Nat → DagAddress} {leaders : List DagAddress}

section

variable {before after : Dag P} {wellFormed : before.WellFormed quorum} {decidedWave : Nat}
  (committed : Committed before wellFormed leaderOf decidedWave leaders)

include committed

theorem Committed.grow (grows : before.Grows after) (sameN : after.n = before.n)
    (wellFormed' : after.WellFormed quorum) :
    Committed after wellFormed' leaderOf decidedWave leaders := by
  have within := grows.within wellFormed wellFormed'
  refine ⟨?_, ?_, ?_⟩
  · intro positive
    rw [sameN]
    exact RoundDag.supported_within within (committed.supported positive)
  · intro positive
    exact RoundDag.within_known within (committed.known positive)
  rw [committed.leaders]
  rcases Nat.eq_zero_or_pos decidedWave with zero | positive
  · subst zero
    rfl
  · exact (RoundDag.sequence_within within leaderOf _ (committed.known positive)).symm

theorem Committed.remark (same : before.SameVertices after)
    (wellFormed' : after.WellFormed quorum) :
    Committed after wellFormed' leaderOf decidedWave leaders := by
  have sameGraph : after.graph wellFormed' = before.graph wellFormed := same.graph wellFormed
  refine ⟨?_, ?_, ?_⟩
  · rw [sameGraph, same.n]
    exact committed.supported
  · rw [sameGraph]
    exact committed.known
  · rw [sameGraph]
    exact committed.leaders

end

theorem committed_zero {dag : Dag P} {wellFormed : dag.WellFormed quorum}
    {leaderOf' : Nat → DagAddress} (committed : Committed dag wellFormed leaderOf 0 leaders) :
    Committed dag wellFormed leaderOf' 0 leaders :=
  ⟨fun impossible => absurd impossible (lt_irrefl 0),
    fun impossible => absurd impossible (lt_irrefl 0), committed.leaders⟩

namespace Dag

variable {quorum : Nat} {dag : Dag P}

theorem mem_getRound (wellFormed : dag.WellFormed quorum) {round : Nat} {address : DagAddress}
    (member : address ∈ dag.getRound round) :
    address.round = round ∧ address.creator < dag.n ∧ (dag.lookup address).isSome := by
  unfold getRound at member
  split at member
  · next found atRound =>
    simp only [DagRound.allValidAddresses, mem_filterMap, mem_range,
      map_eq_some_iff] at member
    obtain ⟨creator, below, entry, stored, isAddress⟩ := member
    have slot : dag.lookup ⟨round, creator⟩ = some entry := by
      rw [lookup, atRound, bind_some, stored]
    have named := (wellFormed.slot _ entry slot).1
    rw [isAddress] at named
    subst named
    exact ⟨rfl, below, by rw [slot]; rfl⟩
  · cases member

theorem known_getRound (wellFormed : dag.WellFormed quorum) {address : DagAddress}
    (known : (dag.lookup address).isSome) : address ∈ dag.getRound address.round := by
  obtain ⟨entry, found⟩ := isSome_iff_exists.mp known
  have slot := wellFormed.slot address entry found
  obtain ⟨round, atRound, stored⟩ := bind_eq_some_iff.mp found
  rw [getRound, atRound]
  simp only [DagRound.allValidAddresses, mem_filterMap, mem_range, map_eq_some_iff]
  exact ⟨address.creator, slot.2, entry, stored, slot.1⟩

theorem getRound_nodup (wellFormed : dag.WellFormed quorum) (round : Nat) :
    (dag.getRound round).Nodup := by
  unfold getRound
  split
  · next found atRound =>
    refine List.Nodup.filterMap ?_ nodup_range
    intro left right address leftStored rightStored
    simp only [Option.mem_def, map_eq_some_iff] at leftStored rightStored
    obtain ⟨leftEntry, leftFound, leftAddress⟩ := leftStored
    obtain ⟨rightEntry, rightFound, rightAddress⟩ := rightStored
    have leftSlot := (wellFormed.slot ⟨round, left⟩ leftEntry
      (by rw [lookup, atRound, bind_some, leftFound])).1
    have rightSlot := (wellFormed.slot ⟨round, right⟩ rightEntry
      (by rw [lookup, atRound, bind_some, rightFound])).1
    rw [leftAddress] at leftSlot
    rw [rightAddress] at rightSlot
    exact congrArg DagAddress.creator (leftSlot.symm.trans rightSlot)
  · exact nodup_nil

theorem countReaching_votes {leader : Nat} :
    ∀ {addresses : List DagAddress} {start count : Nat},
      addresses.foldlM (fun count address => do
        if ← dag.reaches address leader then
          return count + 1
        return count) start = .ok count →
      addresses.Nodup →
      ∃ votes : Finset DagAddress, count = start + votes.card ∧ ∀ vote, vote ∈ votes ↔
        vote ∈ addresses ∧ ∃ entry, dag.lookup vote = some entry ∧ leader ∈ entry.reaches := by
  intro addresses
  induction addresses with
  | nil =>
    intro start count run _
    simp only [foldlM_nil, pure_ok] at run
    exact ⟨∅, by simp [run], by simp⟩
  | cons address rest ih =>
    intro start count run noDup
    obtain ⟨fresh, restNoDup⟩ := nodup_cons.mp noDup
    simp only [foldlM_cons, reaches, bind_ok, pure_ok] at run
    obtain ⟨middle, ⟨answer, ⟨slot, slotOk, entry, found, rfl⟩, step⟩, later⟩ := run
    obtain ⟨_, rfl⟩ := getWithMeta_ok.mp slotOk
    rw [unwrap_ok] at found
    obtain ⟨votes, total, each⟩ := ih later restNoDup
    by_cases reached : entry.reaches.contains leader = true
    · rw [if_pos reached, pure_ok] at step
      subst step
      have new : address ∉ votes := fun member => fresh ((each address).mp member).1
      refine ⟨Finset.cons address votes new, ?_, ?_⟩
      · rw [Finset.card_cons, total]
        omega
      intro vote
      rw [Finset.mem_cons, mem_cons, each vote]
      constructor
      · rintro (rfl | ⟨old, voted⟩)
        · exact ⟨.inl rfl, entry, found, (IdSet.contains_iff _ _).mp reached⟩
        · exact ⟨.inr old, voted⟩
      rintro ⟨rfl | old, voted⟩
      · exact .inl rfl
      · exact .inr ⟨old, voted⟩
    rw [if_neg reached, pure_ok] at step
    subst step
    refine ⟨votes, total, fun vote => ?_⟩
    rw [mem_cons, each vote]
    constructor
    · rintro ⟨old, voted⟩
      exact ⟨.inr old, voted⟩
    rintro ⟨rfl | old, entry', found', voted⟩
    · cases found.symm.trans found'
      exact absurd ((IdSet.contains_iff _ _).mpr voted) reached
    · exact ⟨old, entry', found', voted⟩

theorem countReaching_supported {wave leader count : Nat} (wellFormed : dag.WellFormed quorum)
    (sound : dag.ReachesSound wellFormed) (positive : 0 < wave)
    (run : countReaching dag (dag.getRound (waveRound wave 4)) leader = .ok count)
    (enough : quorum ≤ count) :
    (dag.graph wellFormed).Supported (IsQuorum dag.n quorum)
      ⟨waveRound wave 1, leader⟩ (4 * wave) := by
  obtain ⟨votes, total, each⟩ := countReaching_votes run (getRound_nodup wellFormed _)
  have lastRound : waveRound wave 4 = 4 * wave := by
    unfold waveRound
    omega
  rw [lastRound] at each
  refine ⟨votes, ⟨by omega, ?_⟩, ?_⟩
  · intro vote member
    exact (mem_getRound wellFormed ((each vote).mp member).1).2.1
  intro vote member
  obtain ⟨inRound, entry, found, reached⟩ := (each vote).mp member
  obtain ⟨atRound, _, known⟩ := mem_getRound wellFormed inRound
  refine ⟨atRound, (graph_known wellFormed vote).mpr known, ?_⟩
  rcases sound vote entry found leader reached with ⟨third, _⟩ | ⟨_, path⟩
  · omega
  have firstRound : vote.round - 3 = waveRound wave 1 := by
    unfold waveRound
    omega
  rwa [firstRound] at path

end Dag

namespace Replica

/-- The walk commits the leaders of the graph's commit rule. Only its first path search may run in
place, and then all marks are below every leader the walk asks for. -/
theorem walkLeaders_committed {quorum fuel decidedWave : Nat} {pendingWaveCoins : Nat → Option Nat}
    {leaderOf : Nat → DagAddress} (coins : ∀ wave coin, pendingWaveCoins wave = some coin →
      leaderOf wave = ⟨waveRound wave 1, coin⟩) (wavePrime : Nat) (dag : Dag P)
    (wellFormed : dag.WellFormed quorum) (vertex : DagAddress) (stack : List DagAddress)
    (waves : List Nat) (after : Dag P) (stack' : List DagAddress) (waves' : List Nat)
    (marks : dag.ExploredBelow) (known : (dag.graph wellFormed).Known vertex)
    (level : dag.exploredFrom ≤ 4 * decidedWave ∨ vertex.round ≤ dag.exploredFrom)
    (run : walkLeaders fuel pendingWaveCoins decidedWave wavePrime dag vertex stack waves =
      .ok (after, stack', waves')) :
    dag.SameVertices after ∧
      (∀ address, (after.lookup address).map (·.delivered) =
        (dag.lookup address).map (·.delivered)) ∧
      after.ExploredBelow ∧ after.exploredFrom ≤ max dag.exploredFrom vertex.round ∧
      stack' = (dag.graph wellFormed).committed leaderOf decidedWave vertex wavePrime ++ stack := by
  induction wavePrime generalizing dag wellFormed vertex stack waves after stack' waves' with
  | zero =>
    simp only [walkLeaders, pair_ok] at run
    obtain ⟨rfl, rfl, rfl⟩ := run
    exact ⟨Dag.SameVertices.refl dag, fun _ => rfl, marks, le_max_left _ _, rfl⟩
  | succ wavePrime ih =>
    simp only [walkLeaders] at run
    by_cases low : wavePrime + 1 ≤ decidedWave
    · rw [if_pos low, pair_ok, Prod.mk.injEq] at run
      obtain ⟨rfl, rfl, rfl⟩ := run
      refine ⟨Dag.SameVertices.refl dag, fun _ => rfl, marks, le_max_left _ _, ?_⟩
      rw [RoundDag.committed_floor _ _ _ _ _ low, nil_append]
    rw [if_neg low, bind_ok] at run
    obtain ⟨coin, tossed, run⟩ := run
    have leader := coins (wavePrime + 1) coin (unwrap_ok.mp tossed)
    obtain ⟨present, presentOk, run⟩ := bind_ok.mp run
    obtain ⟨_, rfl⟩ := Dag.knows_ok.mp presentOk
    rw [← leader] at run presentOk
    by_cases present : (dag.lookup (leaderOf (wavePrime + 1))).isSome = true
    · rw [if_pos present, bind_ok] at run
      obtain ⟨⟨dag', connected⟩, path, run⟩ := run
      have harmless : dag.exploredFrom < vertex.round →
          dag.exploredFrom < (leaderOf (wavePrime + 1)).round := by
        intro above
        rw [leader]
        simp only [waveRound]
        omega
      have checked := Dag.hasPath_checked wellFormed marks harmless path
      have wellFormed' := checked.same.wellFormed wellFormed
      have sameGraph : dag'.graph wellFormed' = dag.graph wellFormed :=
        checked.same.graph wellFormed
      have exploredFrom := checked.exploredFrom
      by_cases isConnected : connected = true
      · have reached := checked.answer.mp isConnected
        have lower := RoundDag.reaches_round reached
        rw [if_pos isConnected] at run
        obtain ⟨same, delivered, below, bound, committed⟩ :=
          ih dag' wellFormed' (leaderOf (wavePrime + 1)) _ _ after stack' waves'
            checked.exploredBelow (sameGraph ▸ RoundDag.reaches_known reached known)
            (.inr (by omega)) run
        refine ⟨checked.same.trans same,
          fun address => (delivered address).trans (checked.delivered address), below,
          by omega, ?_⟩
        rw [committed, sameGraph]
        simp [RoundDag.committed, low, reached]
      have unreached := fun path => isConnected (checked.answer.mpr path)
      rw [if_neg isConnected] at run
      obtain ⟨same, delivered, below, bound, committed⟩ :=
        ih dag' wellFormed' vertex _ _ after stack' waves' checked.exploredBelow
          (sameGraph ▸ known) (.inr (by omega)) run
      refine ⟨checked.same.trans same,
        fun address => (delivered address).trans (checked.delivered address), below,
        by omega, ?_⟩
      rw [committed, sameGraph]
      simp only [RoundDag.committed, low, if_false]
      rw [if_neg unreached]
    have unreached : ¬ (dag.graph wellFormed).Reaches vertex (leaderOf (wavePrime + 1)) := by
      intro path
      exact present ((Dag.graph_known wellFormed _).mp (RoundDag.reaches_known path known))
    rw [if_neg present] at run
    obtain ⟨same, delivered, below, bound, committed⟩ :=
      ih dag wellFormed vertex _ _ after stack' waves' marks known level run
    refine ⟨same, delivered, below, bound, ?_⟩
    rw [committed]
    simp only [RoundDag.committed, low, if_false]
    rw [if_neg unreached]

/-- The ledger is the one that the graph and the coins determine. -/
structure LedgerInv (facts : Facts P) (replica : Replica P) : Prop where
  wellFormed : replica.dag.WellFormed replica.quorum
  committed : Committed replica.dag wellFormed
    (leaderAt P replica.n replica.enclave.seed) replica.decidedWave facts.leaders
  ordered : Ordered replica.dag facts.leaders facts.order
    (facts.delivery, replica.clientLastRequest)
  exploredBelow : replica.dag.ExploredBelow
  exploredFrom : replica.dag.exploredFrom ≤ 4 * replica.decidedWave
  coins : ∀ wave tossed, replica.pendingWaveCoins wave = some tossed →
    tossed = coin P replica.n replica.enclave.seed wave

def decided (replica : Replica P) (dag : Dag P) (more : List P.Tx) (last : Nat → Option Nat)
    (wave : Nat) (message : StateMessage P) : Replica P :=
  { ({ replica with dag }.delivering more last).stateMessage message with
    decidedWave := wave, pendingWaveCoins := fun _ => none }

/-- A decision changes the marks, the ledger and what is handed out, and nothing else. -/
theorem decideWave_ledger {fuel wave waveLeader : Nat} {history : Output P}
    {replica next : Replica P} (ledger : LedgerInv (factsOf (replica.total history)) replica)
    (majority : replica.dag.n < 2 * replica.quorum) (later : replica.decidedWave < wave)
    (leader : waveLeader = coin P replica.n replica.enclave.seed wave)
    (present : (replica.dag.lookup ⟨waveRound wave 1, waveLeader⟩).isSome)
    (supported : (replica.dag.graph ledger.wellFormed).Supported
      (Dag.IsQuorum replica.dag.n replica.quorum) ⟨waveRound wave 1, waveLeader⟩ (4 * wave))
    (run : replica.decideWave fuel wave waveLeader = .ok next) :
    ∃ dag more last message, next = replica.decided dag more last wave message ∧
      replica.dag.SameVertices dag ∧ LedgerInv (factsOf (next.total history)) next := by
  simp only [decideWave, bind_ok, Prod.exists, pure_ok] at run
  obtain ⟨walked, leaders, waves, walk, delivered, order, delivery, nextEq⟩ := run
  have isLeader : (⟨waveRound wave 1, waveLeader⟩ : DagAddress) =
      leaderAt P replica.n replica.enclave.seed wave := by rw [leader, leaderAt]
  rw [isLeader] at walk supported present
  have known := (Dag.graph_known ledger.wellFormed _).mpr present
  have coins : ∀ wave tossed, replica.pendingWaveCoins wave = some tossed →
      leaderAt P replica.n replica.enclave.seed wave = ⟨waveRound wave 1, tossed⟩ := by
    intro wave tossed found
    rw [ledger.coins wave tossed found, leaderAt]
  obtain ⟨walkSame, walkMarks, walkBelow, walkBound, walkStack⟩ :=
    walkLeaders_committed coins (wave - 1) replica.dag ledger.wellFormed _ _ _ walked leaders
      waves ledger.exploredBelow known (.inl ledger.exploredFrom) walk
  -- the leaders of this decision extend the ones committed before
  have extended : (replica.dag.graph ledger.wellFormed).sequence
      (leaderAt P replica.n replica.enclave.seed) wave =
      leadersOf (replica.total history) ++ leaders := by
    rw [show leadersOf (replica.total history) = _ from ledger.committed.leaders, walkStack]
    exact RoundDag.sequence_eq_append (Dag.isQuorum_intersecting majority)
      (Dag.graph_dense ledger.wellFormed) (leaderAt_ordered replica.n replica.enclave.seed) later
      (fun positive => by omega) ledger.committed.supported known
  have walkedOrdered : Ordered walked (leadersOf (replica.total history))
      (orderOf (replica.total history) ++ [])
        (({ replica with dag := walked }).handedOut history) := by
    rw [append_nil]
    exact ledger.ordered.remark walkSame walkMarks
  obtain ⟨dag, more, last, deliveredEq, kept, ordered⟩ :=
    deliverLeaders_ordered fuel history leaders { replica with dag := walked } delivered _ _ _
      order walkedOrdered delivery
  have sameAll : replica.dag.SameVertices dag := walkSame.trans kept.same
  have isDecided : next = replica.decided dag more last wave (.decided waves leaders order) := by
    rw [← nextEq, deliveredEq]
    rfl
  have sameHandedOut : next.handedOut history = delivered.handedOut history := by
    rw [← nextEq]
    rfl
  refine ⟨dag, more, last, .decided waves leaders order, isDecided, sameAll, ?_⟩
  rw [← sameHandedOut] at ordered
  clear nextEq deliveredEq sameHandedOut
  subst isDecided
  have wellFormed : dag.WellFormed replica.quorum := sameAll.wellFormed ledger.wellFormed
  have sameGraph : dag.graph wellFormed = replica.dag.graph ledger.wellFormed :=
    sameAll.graph ledger.wellFormed
  have leadersEq : leadersOf ((replica.decided dag more last wave
      (.decided waves leaders order)).total history) =
      leadersOf (replica.total history) ++ leaders := by
    simp [decided, total, stateMessage, UnreflectedOutput.stateMessage, delivering, leadersOf,
      StateMessage.leaders, Output.append]
  have orderEq : orderOf ((replica.decided dag more last wave
      (.decided waves leaders order)).total history) =
      orderOf (replica.total history) ++ order := by
    simp [decided, total, stateMessage, UnreflectedOutput.stateMessage, delivering, orderOf,
      StateMessage.order, Output.append]
  refine ⟨wellFormed, ⟨?_, ?_, ?_⟩, ?_, ?_, ?_, ?_⟩
  · intro _
    show (dag.graph wellFormed).Supported (Dag.IsQuorum dag.n replica.quorum) _ _
    rw [sameGraph, sameAll.n]
    exact supported
  · intro _
    show (dag.graph wellFormed).Known _
    rw [sameGraph]
    exact known
  · show leadersOf _ = _
    rw [leadersEq, ← extended, ← sameGraph]
    rfl
  · show Ordered _ (leadersOf _) (orderOf _) _
    rw [leadersEq, orderEq]
    exact ordered
  · exact kept.exploredBelow walkBelow
  · show dag.exploredFrom ≤ 4 * wave
    rw [kept.exploredFrom]
    have := ledger.exploredFrom
    have : (leaderAt P replica.n replica.enclave.seed wave).round ≤ 4 * wave := by
      simp only [leaderAt, waveRound]
      omega
    exact le_trans walkBound (by omega)
  · intro other tossed found
    cases found

end Replica

end Abcperf.Nxbft
