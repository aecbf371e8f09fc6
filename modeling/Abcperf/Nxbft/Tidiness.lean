import Abcperf.Nxbft.ReachSets
import Abcperf.Nxbft.Steps

/-! The graph of a replica together with the vertices that wait for it. The buffer is traversed in
the order of addresses, so a vertex that is added comes after every vertex that was left behind and
cannot be a parent of one: a single traversal adds all it can. -/

namespace Abcperf.Nxbft

open Lib Lib.Outcome Heaps DagAddress List Option

variable {P : Platform}

def DagAddress.lt (left right : DagAddress) : Prop :=
  left.round < right.round ∨ (left.round = right.round ∧ left.creator < right.creator)

theorem DagAddress.lt_trans {first second third : DagAddress} (left : first.lt second)
    (right : second.lt third) : first.lt third := by
  unfold lt at *
  omega

theorem DagAddress.lt_irrefl (address : DagAddress) : ¬ address.lt address := by
  unfold lt
  omega

theorem DagAddress.compare {left right : DagAddress} (different : left ≠ right) :
    if left.le right then left.lt right else right.lt left := by
  have unequal : ¬ (left.round = right.round ∧ left.creator = right.creator) := by
    rintro ⟨round, creator⟩
    exact different (by cases left; cases right; simp_all)
  split
  · next notAfter =>
    unfold le at notAfter
    unfold lt
    omega
  rename_i after
  unfold le at after
  unfold lt
  omega

namespace Dag

def Lacks (dag : Dag P) (vertex : Vertex P) : Prop :=
  ∃ edge ∈ vertex.edges, dag.lookup ⟨vertex.round - 1, edge⟩ = none

/-- A graph and vertices that wait to be added to it, in the order in which they are tried. -/
structure Awaits (quorum : Nat) (dag : Dag P) (buffer : List (Vertex P)) : Prop where
  wellFormed : dag.WellFormed quorum
  ordered : buffer.Pairwise fun left right => left.address.lt right.address
  valid : ∀ vertex ∈ buffer, vertex.Valid quorum
  apart : ∀ vertex ∈ buffer, dag.lookup vertex.address = none

variable {quorum : Nat} {dag after : Dag P} {buffer kept rest : List (Vertex P)}
  {vertex : Vertex P}

theorem SameVertices.lookup_none (same : dag.SameVertices after) (address : DagAddress) :
    after.lookup address = none ↔ dag.lookup address = none := by
  rw [← not_isSome_iff_eq_none, ← not_isSome_iff_eq_none, same.isSome]

theorem SameVertices.awaits (same : dag.SameVertices after) (awaits : Awaits quorum dag buffer) :
    Awaits quorum after buffer where
  wellFormed := same.wellFormed awaits.wellFormed
  ordered := awaits.ordered
  valid := awaits.valid
  apart := fun vertex member => (same.lookup_none _).mpr (awaits.apart vertex member)

theorem SameVertices.lacks (same : dag.SameVertices after) (lacks : dag.Lacks vertex) :
    after.Lacks vertex := by
  obtain ⟨edge, isEdge, missing⟩ := lacks
  exact ⟨edge, isEdge, (same.lookup_none _).mpr missing⟩

theorem Awaits.insert (awaits : Awaits quorum dag buffer) (valid : vertex.Valid quorum)
    (fresh : ∀ other ∈ buffer, other.address ≠ vertex.address)
    (absent : dag.lookup vertex.address = none) : Awaits quorum dag
      (Heaps.insert (fun left right => left.address.le right.address) vertex buffer) where
  wellFormed := awaits.wellFormed
  ordered := by
    apply insert_pairwise _ (fun left right : Vertex P => left.address.lt right.address)
      (fun _ _ _ => lt_trans) awaits.ordered
    intro other member
    exact compare (fresh other member).symm
  valid := by
    intro other member
    rcases (mem_insert _ _ _ _).mp member with rfl | old
    · exact valid
    · exact awaits.valid other old
  apart := by
    intro other member
    rcases (mem_insert _ _ _ _).mp member with rfl | old
    · exact absent
    · exact awaits.apart other old

theorem Awaits.around (awaits : Awaits quorum dag (kept ++ vertex :: rest)) :
    (∀ other ∈ kept, other.address.lt vertex.address) ∧
      (∀ other ∈ rest, vertex.address.lt other.address) := by
  obtain ⟨_, later, across⟩ := pairwise_append.mp awaits.ordered
  exact ⟨fun other member => across other member vertex mem_cons_self, (pairwise_cons.mp later).1⟩

theorem Awaits.add (awaits : Awaits quorum dag (kept ++ vertex :: rest))
    (parents : dag.Causal vertex) (inserted : Inserted dag vertex after) :
    Awaits quorum after (kept ++ rest) := by
  have sub : (kept ++ rest).Sublist (kept ++ vertex :: rest) :=
    (sublist_cons_self vertex rest).append_left kept
  have isValid := awaits.valid vertex (by simp)
  obtain ⟨reaches, _, slots⟩ := inserted.slots
  refine ⟨inserted.wellFormed awaits.wellFormed parents isValid.1 isValid.2,
    awaits.ordered.sublist sub, fun other member => awaits.valid other (sub.subset member), ?_⟩
  intro other member
  rw [slots, if_neg ?_]
  · exact awaits.apart other (sub.subset member)
  -- addresses are distinct, since the order is strict
  intro same
  obtain ⟨before, behind⟩ := awaits.around
  rcases mem_append.mp member with inKept | inRest
  · exact lt_irrefl _ (same ▸ before other inKept)
  · exact lt_irrefl _ (same ▸ behind other inRest)

inductive Grown : Dag P → Dag P → Prop
  | refl {dag : Dag P} : Grown dag dag
  | insert {dag middle after : Dag P} {vertex : Vertex P} (inserted : Inserted dag vertex middle)
      (causal : dag.Causal vertex) (wellFormed : ∃ quorum, dag.WellFormed quorum)
      (later : Grown middle after) : Grown dag after

theorem Grown.reachesCollected (grown : Grown dag after) (collected : dag.ReachesCollected) :
    after.ReachesCollected := by
  induction grown with
  | refl => exact collected
  | insert inserted causal wellFormed later ih =>
    obtain ⟨quorum, wellFormed⟩ := wellFormed
    exact ih (inserted.reachesCollected wellFormed causal collected)

theorem Grown.exploredFrom (grown : Grown dag after) : after.exploredFrom = dag.exploredFrom := by
  induction grown with
  | refl => rfl
  | insert inserted causal wellFormed later ih => exact ih.trans inserted.exploredFrom

theorem Inserted.explored (inserted : Inserted dag vertex after) {address : DagAddress}
    (explored : after.Explored address) : dag.Explored address := by
  obtain ⟨entry, found, marked⟩ := explored
  obtain ⟨reaches, _, slots⟩ := inserted.slots
  rw [slots] at found
  split at found
  · cases found
    cases marked
  · exact ⟨entry, found, marked⟩

theorem Grown.exploredBelow (grown : Grown dag after) (below : dag.ExploredBelow) :
    after.ExploredBelow := by
  induction grown with
  | refl => exact below
  | insert inserted causal wellFormed later ih =>
    exact ih fun address explored =>
      inserted.exploredFrom ▸ below address (inserted.explored explored)

/-- A vertex added later is in no lower round, so it is not the parent that was missing. -/
theorem Inserted.lacks {other : Vertex P} (inserted : Inserted dag vertex after)
    (earlier : other.address.lt vertex.address) (positive : 0 < vertex.round)
    (lacks : dag.Lacks other) : after.Lacks other := by
  obtain ⟨edge, isEdge, missing⟩ := lacks
  obtain ⟨reaches, _, slots⟩ := inserted.slots
  refine ⟨edge, isEdge, ?_⟩
  rw [slots, if_neg ?_]
  · exact missing
  intro same
  have round : other.round - 1 = vertex.round := congrArg round same
  have : other.round < vertex.round ∨ other.round = vertex.round :=
    earlier.imp id And.left
  omega

end Dag

namespace Replica

def Tidy (replica : Replica P) : Prop :=
  Dag.Awaits replica.quorum replica.dag replica.vertexBuffer

def Swept (round : Nat) (replica : Replica P) : Prop :=
  ∀ vertex ∈ replica.vertexBuffer, vertex.round ≤ round → replica.dag.Lacks vertex

variable {before after replica next : Replica P} {env : Env} {vertex : Vertex P}

theorem Marks.buffer (marks : Marks before after) :
    after.quorum = before.quorum ∧ after.round = before.round ∧
      after.vertexBuffer = before.vertexBuffer := by
  have same := marks.frame
  simp only [Replica.frame, Prod.mk.injEq] at same
  obtain ⟨_, quorum, _, _, _, _, _, round, buffer⟩ := same
  exact ⟨quorum, round, buffer⟩

theorem Marks.tidy (marks : Marks before after) (tidy : before.Tidy) : after.Tidy := by
  obtain ⟨quorum, _, buffer⟩ := marks.buffer
  unfold Tidy
  rw [quorum, buffer]
  exact marks.same.awaits tidy

theorem Marks.swept {round : Nat} (marks : Marks before after) (swept : before.Swept round) :
    after.Swept round := by
  obtain ⟨_, _, buffer⟩ := marks.buffer
  intro vertex member low
  rw [buffer] at member
  exact marks.same.lacks (swept vertex member low)

/-- Outside round 0 the parents are in the round before. In round 0 there are none, and a vertex
without edges is refused by the graph. -/
theorem checkEdges_lacks {quorum : Nat} {add : Bool} (wellFormed : replica.dag.WellFormed quorum)
    (run : checkEdges env replica vertex = .ok (next, add)) (left : add = false) :
    replica.dag.Lacks vertex := by
  obtain ⟨_, _, adds⟩ := checkEdges_spec (motive := fun _ => True) trivial (fun _ _ => id) run
  have some : ¬ ∀ edge ∈ vertex.edges, ∀ round,
      previousRound env.overflowChecks vertex.round = some round →
        (replica.dag.lookup ⟨round, edge⟩).isSome := by
    rw [← adds, left]
    exact Bool.false_ne_true
  push Not at some
  obtain ⟨edge, isEdge, round, previous, missing⟩ := some
  refine ⟨edge, isEdge, ?_⟩
  by_cases positive : 0 < vertex.round
  · rw [previousRound_pos _ positive, some.injEq] at previous
    rw [previous]
    simpa using missing
  cases found : replica.dag.lookup ⟨vertex.round - 1, edge⟩ with
  | none => rfl
  | some entry =>
    have := Dag.wellFormed_round wellFormed found
    simp only at this
    omega

theorem traverseLoop_sweeps :
    ∀ (rest : List (Vertex P)) (replica : Replica P) (kept : List (Vertex P))
      (inserts : List DagAddress) (next : Replica P) (buffer : List (Vertex P))
      (inserts' : List DagAddress), Dag.Awaits replica.quorum replica.dag (kept ++ rest) →
      (∀ vertex ∈ kept, replica.dag.Lacks vertex) →
      traverseLoop env rest replica kept inserts = .ok (next, buffer, inserts') →
      Dag.Awaits replica.quorum next.dag buffer ∧ replica.dag.Grown next.dag ∧
        ∀ vertex ∈ buffer, vertex.round ≤ replica.round → next.dag.Lacks vertex := by
  intro rest
  -- What was kept lacks a parent, and what is added later is not that parent.
  induction rest with
  | nil =>
    intro replica kept inserts next buffer inserts' awaits lacking run
    simp only [traverseLoop, pair_ok] at run
    obtain ⟨rfl, rfl, _⟩ := run
    rw [append_nil] at awaits
    exact ⟨awaits, .refl, fun vertex member _ => lacking vertex member⟩
  | cons vertex rest ih =>
    intro replica kept inserts next buffer inserts' awaits lacking run
    obtain ⟨before, behind⟩ := awaits.around
    unfold traverseLoop at run
    split at run
    · next high =>
      -- The loop stops early: everything from here on is in a higher round.
      obtain ⟨rfl, rfl, _⟩ := pair_ok.mp run
      refine ⟨awaits, .refl, fun other member low => ?_⟩
      rcases mem_append.mp member with inKept | inRest
      · exact lacking other inKept
      rcases mem_cons.mp inRest with rfl | later
      · omega
      have : vertex.round < other.round ∨ vertex.round = other.round :=
        (behind other later).imp id And.left
      omega
    simp only [bind_ok, Prod.exists] at run
    obtain ⟨checked, add, isChecked, run⟩ := run
    obtain ⟨idles, sameDag, adds⟩ := checkEdges_spec (Idles.refl replica)
      (fun _ _ idles => idles.trans (idles_sending rfl rfl rfl rfl)) isChecked
    have stays := idles.stays
    split at run
    · next isAdd =>
      obtain ⟨dag, isInserted, run⟩ := bind_ok.mp run
      have inserted : Dag.Inserted replica.dag vertex dag :=
        sameDag ▸ Dag.insert_inserted isInserted
      have positive : 0 < vertex.round := by
        have := inserted.inside
        have := awaits.wellFormed.offset
        omega
      have parents : replica.dag.Causal vertex := fun edge isEdge =>
        adds.mp isAdd edge isEdge _ (previousRound_pos _ positive)
      obtain ⟨swept, grown, left⟩ :=
        ih { checked.stateMessage (.vertexAdded vertex.address) with dag } kept _
        next buffer inserts' (stays.quorum.symm ▸ awaits.add parents inserted)
        (fun other member => inserted.lacks (before other member) positive (lacking other member))
          run
      exact ⟨stays.quorum ▸ swept, .insert inserted parents ⟨_, awaits.wellFormed⟩ grown,
        fun other member low => left other member (stays.round.symm ▸ low)⟩
    rename_i isLeft
    have missing := checkEdges_lacks awaits.wellFormed isChecked (Bool.eq_false_iff.mpr isLeft)
    obtain ⟨swept, grown, left⟩ := ih checked (kept ++ [vertex]) inserts next buffer inserts'
      (by rw [stays.quorum, sameDag, append_assoc]; exact awaits)
      (by rw [sameDag]; exact forall_mem_concat lacking missing) run
    exact ⟨stays.quorum ▸ swept, sameDag ▸ grown, fun other member low =>
      left other member (stays.round.symm ▸ low)⟩

theorem Loops.sweeps (loops : Loops env replica next) (tidy : replica.Tidy) :
    next.Tidy ∧ replica.dag.Grown next.dag ∧ next.Swept replica.round := by
  obtain ⟨traversed, buffer, inserts, isTraversed, rfl⟩ := loops
  have stays := (traverseLoop_stays _ _ _ _ _ _ _ isTraversed).1
  obtain ⟨awaits, grown, lacking⟩ := traverseLoop_sweeps replica.vertexBuffer replica [] []
    traversed buffer inserts tidy (fun _ impossible => absurd impossible not_mem_nil)
    isTraversed
  exact ⟨stays.quorum.symm ▸ awaits, grown, lacking⟩

theorem advanced_tidy (tidy : replica.Tidy) : replica.advanced.Tidy :=
  (Dag.sameVertices_newRound replica.dag).awaits tidy

theorem advanced_swept {round : Nat} (swept : replica.Swept round) : replica.advanced.Swept round :=
  fun vertex member low =>
    (Dag.sameVertices_newRound replica.dag).lacks (swept vertex member low)

/-- A traversal leaves no vertex behind that it could have added in the round in which it
started: what follows the loop only marks the graph. -/
theorem traverseVertexBuffer_sweeps (run : replica.traverseVertexBuffer env = .ok next)
    (tidy : replica.Tidy) : next.Swept replica.round := by
  obtain ⟨looped, answered, loops, idles, ending⟩ := traverseVertexBuffer_cases run
  obtain ⟨_, _, swept⟩ := loops.sweeps tidy
  have swept := idles.marks.swept swept
  rcases ending with rfl | ⟨_, transition⟩
  · exact swept
  obtain ⟨decided, isDecided, created⟩ := roundTransition_cases transition
  refine (createVertex_spares created).marks.swept (advanced_swept ?_)
  rcases isDecided with rfl | ⟨_, ready⟩
  · exact swept
  · exact (waveReady_marks ready).1.swept swept

/-- The states a replica goes through, in the calls of its environment and between them: from the
initial state, by steps that leave the graph, the buffer and the round alone, by buffering a vertex
that `process_vertex` accepts, by the loop of a traversal, by deciding a wave at the end of its last
round and by entering the next round. -/
inductive Passes (config : Config P) : Replica P → Prop
  | new {replica : Replica P} (run : Replica.new config = .ok replica) : Passes config replica
  | spares {replica next : Replica P} (before : Passes config replica)
      (spares : Spares replica next) : Passes config next
  | buffers {replica : Replica P} {vertex : Vertex P} (before : Passes config replica)
      (accepts : replica.Accepts vertex) : Passes config (replica.buffering vertex)
  | loops {env : Env} {replica next : Replica P} (before : Passes config replica)
      (loops : Loops env replica next) : Passes config next
  | decides {env : Env} {replica next : Replica P} (before : Passes config replica)
      (run : replica.waveReady env = .ok next) : Passes config next
  | advances {replica : Replica P} (before : Passes config replica) :
      Passes config replica.advanced

namespace Passes

variable {config : Config P} {replica next : Replica P} {env : Env}

theorem tidy (passes : Passes config replica) : replica.Tidy := by
  induction passes with
  | new run =>
    simp only [Replica.new, bind_ok, pure_ok] at run
    obtain ⟨_, _, _, _, _, _, _, _, rfl⟩ := run
    have none : ∀ vertex : Vertex P, vertex ∉ ([] : List (Vertex P)) := fun _ => not_mem_nil
    exact ⟨Dag.wellFormed_new _ _, List.Pairwise.nil,
      fun vertex member => (none vertex member).elim,
      fun vertex member => (none vertex member).elim⟩
  | spares before spares ih => exact spares.marks.tidy ih
  | buffers before accepts ih =>
    exact Dag.Awaits.insert ih accepts.valid ((not_knows_iff _ _ _).mp accepts.unbuffered)
      accepts.absent
  | loops before loops ih => exact (loops.sweeps ih).1
  | decides before run ih => exact (waveReady_marks run).1.tidy ih
  | advances before ih => exact advanced_tidy ih

theorem upheld : Upheld fun _ replica => Passes config replica where
  action := by
    intro _ before after action passes
    cases action with
    | idles idles => exact .spares passes idles.toSpares
    | calls => exact .spares passes ⟨rfl, rfl, rfl⟩
    | creates run => exact .spares passes (createVertex_spares run)
    | buffers accepts => exact .buffers passes accepts
    | loops loops => exact .loops passes loops
    | decides run => exact .decides passes run
    | advances => exact .advances passes
  take := fun passes => .spares passes ⟨rfl, rfl, rfl⟩

end Passes

end Replica

theorem run_passes {setup : Setup P} {allowed : Event P → Prop} {world : World P}
    (run : Run setup allowed world) :
    ∀ id ∈ setup.correct, Replica.Passes (setup.config id) (world.replicas id) := by
  induction run with
  | start initial => exact fun id correct => .new (initial.1 id correct).1
  | @step world next _ _ _ step ih =>
    exact @Step.keeps P (fun id _ => Replica.Passes (setup.config id))
      (fun _ => Replica.Passes.upheld) _ _ _ _ ih
      (fun _ _ _ _ _ _ passes => .spares passes ⟨rfl, rfl, rfl⟩) step

/-- In every state a correct replica passes through, the graph is closed and dense and apart from
the buffer, and every traversal from such a state leaves no vertex behind that it could have
added. -/
theorem graph_and_buffer_tidy {setup : Setup P} {allowed : Event P → Prop} {world : World P}
    (run : Run setup allowed world) {id : Nat} (correct : id ∈ setup.correct) :
    Replica.Passes (setup.config id) (world.replicas id) ∧
      ∀ replica, Replica.Passes (setup.config id) replica → replica.Tidy ∧
        ∀ env next, replica.traverseVertexBuffer env = .ok next → next.Swept replica.round :=
  ⟨run_passes run id correct, fun _ passes => ⟨passes.tidy, fun _ _ traversed =>
    Replica.traverseVertexBuffer_sweeps traversed passes.tidy⟩⟩

/-- Replica 0 after the first wave, with vertices of four rounds in its graph. -/
theorem graph_and_buffer_tidy_faithful : ∃ world, Run Plain.setup (fun _ => True) world ∧
    ((world.replicas 0).dag.lookup ⟨4, 1⟩).isSome ∧
    Replica.Passes (Plain.setup.config 0) (world.replicas 0) ∧
      ∀ replica, Replica.Passes (Plain.setup.config 0) replica → replica.Tidy ∧
        ∀ env next, replica.traverseVertexBuffer env = .ok next → next.Swept replica.round := by
  obtain ⟨world, run, known⟩ : ∃ world, Run _ _ world ∧
      ((world.replicas 0).dag.lookup ⟨4, 1⟩).isSome :=
    Plain.player.play_run (fun _ (_ : true = true) => trivial) Plain.start_initial Plain.faithful
      (by decide +kernel)
  exact ⟨world, run, known, graph_and_buffer_tidy run (by decide)⟩

end Abcperf.Nxbft
