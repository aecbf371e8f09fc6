import Abcperf.Nxbft.Delivery
import Abcperf.Nxbft.Execution

/-! The sets of leaders that a vertex reaches. They are collected when a vertex is added, from its
parents alone, and what they mean depends on the position of its round in the wave. In a graph that
grew in causal order they are the ends of the paths down to the first round of the wave. -/

namespace Abcperf.Nxbft

open Lib Lib.Outcome Option

variable {P : Platform}

namespace Dag

def Causal (dag : Dag P) (vertex : Vertex P) : Prop :=
  ∀ edge ∈ vertex.edges, (dag.lookup ⟨vertex.round - 1, edge⟩).isSome

inductive Built (n : Nat) : Dag P → Prop
  | new : Built n (new n)
  | newRound {dag : Dag P} (before : Built n dag) : Built n dag.newRound
  | insert {dag after : Dag P} {vertex : Vertex P} (before : Built n dag)
      (causal : dag.Causal vertex) (run : dag.insert vertex = .ok after) : Built n after

instance (dag : Dag P) (vertex : Vertex P) : Decidable (dag.Causal vertex) :=
  inferInstanceAs (Decidable (∀ edge ∈ vertex.edges.iter, _))

def insertCausally (dag : Dag P) (vertex : Vertex P) : Outcome (Dag P) := do
  let dag := if dag.maxRound < vertex.round then dag.newRound else dag
  assert (dag.Causal vertex)
  dag.insert vertex

variable {dag after : Dag P} {vertex : Vertex P}

theorem Built.insertCausally {n : Nat} (built : Built n dag)
    (run : dag.insertCausally vertex = .ok after) : Built n after := by
  simp only [Dag.insertCausally, bind_ok, assert_ok] at run
  obtain ⟨_, causal, run⟩ := run
  refine .insert ?_ causal run
  split
  · exact .newRound built
  · exact built

def ReachesCollected (dag : Dag P) : Prop :=
  ∀ address entry, dag.lookup address = some entry → ∀ creator, creator ∈ entry.reaches ↔
    ∃ edge ∈ entry.vertex.edges, ∃ parent,
      dag.lookup ⟨address.round - 1, edge⟩ = some parent ∧ Collects entry.vertex parent creator

theorem Inserted.reachesCollected {quorum : Nat} (inserted : Inserted dag vertex after)
    (wellFormed : dag.WellFormed quorum) (causal : dag.Causal vertex)
    (collected : dag.ReachesCollected) : after.ReachesCollected := by
  obtain ⟨reaches, reachesOk, slots⟩ := inserted.slots
  -- the parents of a vertex are the same entries before and after
  have sameParents : ∀ {round : Nat} {edges : IdSet},
      (∀ edge ∈ edges, (dag.lookup ⟨round - 1, edge⟩).isSome) → ∀ edge ∈ edges,
      after.lookup ⟨round - 1, edge⟩ = dag.lookup ⟨round - 1, edge⟩ := by
    intro round edges known edge member
    obtain ⟨parent, found⟩ := isSome_iff_exists.mp (known edge member)
    rw [found, inserted.grows _ parent found]
  intro address entry found creator
  have found' := found
  rw [slots] at found'
  by_cases isNew : address = vertex.address
  · rw [if_pos isNew, some.injEq] at found'
    subst isNew
    subst found'
    refine (reachesOf_iff reachesOk creator).trans ?_
    refine exists_congr fun edge => and_congr_right fun isEdge => ?_
    rw [show (⟨vertex.address.round - 1, edge⟩ : DagAddress) = ⟨vertex.round - 1, edge⟩ from rfl,
      sameParents causal edge isEdge]
    rfl
  rw [if_neg isNew] at found'
  refine (collected address entry found' creator).trans ?_
  refine exists_congr fun edge => and_congr_right fun isEdge => ?_
  rw [sameParents (wellFormed.closed address entry found') edge isEdge]

theorem SameVertices.reachesCollected (same : dag.SameVertices after)
    (collected : dag.ReachesCollected) : after.ReachesCollected := by
  -- what is collected from a parent does not depend on its marks
  have parents : ∀ (vertex : Vertex P) (address : DagAddress) (creator : Nat),
      (∃ parent, dag.lookup address = some parent ∧ Collects vertex parent creator) →
      ∃ parent, after.lookup address = some parent ∧ Collects vertex parent creator := by
    rintro vertex address creator ⟨parent, found, collects⟩
    obtain ⟨newer, newerFound, sameVertex, sameReaches⟩ := same.symm.slot found
    refine ⟨newer, newerFound, ?_⟩
    unfold Collects at collects ⊢
    rwa [sameVertex, sameReaches]
  have parents' : ∀ (vertex : Vertex P) (address : DagAddress) (creator : Nat),
      (∃ parent, after.lookup address = some parent ∧ Collects vertex parent creator) →
      ∃ parent, dag.lookup address = some parent ∧ Collects vertex parent creator := by
    rintro vertex address creator ⟨parent, found, collects⟩
    obtain ⟨older, olderFound, sameVertex, sameReaches⟩ := same.slot found
    refine ⟨older, olderFound, ?_⟩
    unfold Collects at collects ⊢
    rwa [sameVertex, sameReaches]
  intro address entry found creator
  obtain ⟨older, olderFound, sameVertex, sameReaches⟩ := same.slot found
  rw [← sameReaches, ← sameVertex, collected address older olderFound creator]
  exact exists_congr fun edge => and_congr_right fun _ => ⟨parents _ _ _, parents' _ _ _⟩

section Paths

variable {quorum : Nat} {dag : Dag P} (wellFormed : dag.WellFormed quorum)
  {address bottom : DagAddress} {entry : VertexWithMeta P}
  (found : dag.lookup address = some entry)

include found

theorem edge_iff (parent : DagAddress) : (dag.graph wellFormed).Edge address parent ↔
    ∃ edge ∈ entry.vertex.edges, parent = ⟨address.round - 1, edge⟩ := by
  rw [graph_edge, successors_some found]
  constructor
  · rintro ⟨below, same, member⟩
    cases same
    obtain ⟨edge, isEdge, rfl⟩ := List.mem_map.mp member
    exact ⟨edge, isEdge, rfl⟩
  · rintro ⟨edge, isEdge, rfl⟩
    exact ⟨_, rfl, List.mem_map_of_mem isEdge⟩

theorem path_iff (lower : bottom.round < address.round) :
    (dag.graph wellFormed).Reaches address bottom ↔ ∃ edge ∈ entry.vertex.edges, ∃ parent,
        dag.lookup ⟨address.round - 1, edge⟩ = some parent ∧
          (dag.graph wellFormed).Reaches ⟨address.round - 1, edge⟩ bottom := by
  rw [RoundDag.reaches_lower_iff lower]
  constructor
  · rintro ⟨_, first, rest⟩
    obtain ⟨edge, isEdge, rfl⟩ := (edge_iff wellFormed found _).mp first
    obtain ⟨parent, parentFound⟩ :=
      isSome_iff_exists.mp (wellFormed.closed address entry found edge isEdge)
    exact ⟨edge, isEdge, parent, parentFound, rest⟩
  · rintro ⟨edge, isEdge, parent, parentFound, rest⟩
    exact ⟨_, (edge_iff wellFormed found _).mpr ⟨edge, isEdge, rfl⟩, rest⟩

theorem step_iff (next : bottom.round + 1 = address.round) :
    (dag.graph wellFormed).Reaches address bottom ↔ bottom.creator ∈ entry.vertex.edges := by
  rw [path_iff wellFormed found (by omega)]
  constructor
  · rintro ⟨edge, isEdge, parent, parentFound, rest⟩
    have same := RoundDag.reaches_same_round rest (by simp only; omega)
    rw [← same]
    exact isEdge
  intro isEdge
  have here : bottom = ⟨address.round - 1, bottom.creator⟩ := by
    cases bottom
    simp only [DagAddress.mk.injEq, and_true] at next ⊢
    omega
  obtain ⟨parent, parentFound⟩ :=
    isSome_iff_exists.mp (wellFormed.closed address entry found _ isEdge)
  refine ⟨bottom.creator, isEdge, parent, parentFound, ?_⟩
  rw [← here]
  exact Relation.ReflTransGen.refl

variable (collected : dag.ReachesCollected)

include collected

/-- In the third round of a wave a vertex reaches what is two rounds below. -/
theorem third_iff (third : address.round % 4 = 3) (creator : Nat) : creator ∈ entry.reaches ↔
      (dag.graph wellFormed).Reaches address ⟨address.round - 2, creator⟩ := by
  have isAddress : entry.vertex.round = address.round :=
    congrArg DagAddress.round (wellFormed.slot address entry found).1
  rw [collected address entry found, path_iff wellFormed found (by simp only; omega)]
  refine exists_congr fun edge => and_congr_right fun _ => exists_congr fun parent =>
    and_congr_right fun parentFound => ?_
  rw [step_iff wellFormed parentFound (by simp only; omega), Collects, isAddress]
  simp [third]

/-- In the fourth round it reaches what is three rounds below. -/
theorem fourth_iff (fourth : address.round % 4 = 0) (creator : Nat) : creator ∈ entry.reaches ↔
      (dag.graph wellFormed).Reaches address ⟨address.round - 3, creator⟩ := by
  have isAddress : entry.vertex.round = address.round :=
    congrArg DagAddress.round (wellFormed.slot address entry found).1
  have positive := wellFormed_round wellFormed found
  rw [collected address entry found, path_iff wellFormed found (by simp only; omega)]
  refine exists_congr fun edge => and_congr_right fun _ => exists_congr fun parent =>
    and_congr_right fun parentFound => ?_
  have parents := third_iff wellFormed parentFound collected (by simp only; omega) creator
  rw [show address.round - 1 - 2 = address.round - 3 by omega] at parents
  rw [← parents, Collects, isAddress]
  simp [fourth]

end Paths

namespace Built

variable {n : Nat} {dag : Dag P}

theorem wellFormed (built : Built n dag) : dag.WellFormed 0 := by
  induction built with
  | new => exact wellFormed_new n 0
  | newRound before ih => exact (sameVertices_newRound _).wellFormed ih
  | insert before causal run ih =>
    refine (insert_inserted run).wellFormed ih causal ?_ fun _ => Nat.zero_le _
    -- a vertex of the first round would need a parent in round 0, where no vertex is
    intro first
    by_contra some
    obtain ⟨edge, member⟩ := List.exists_mem_of_length_pos (Nat.pos_of_ne_zero some)
    obtain ⟨parent, found⟩ := isSome_iff_exists.mp (causal edge member)
    have := wellFormed_round ih found
    simp only [first] at this
    omega

theorem reachesCollected (built : Built n dag) : dag.ReachesCollected := by
  induction built with
  | new =>
    intro address entry found
    simp at found
  | newRound before ih => exact (sameVertices_newRound _).reachesCollected ih
  | insert before causal run ih =>
    exact (insert_inserted run).reachesCollected before.wellFormed causal ih

end Built

/-- Two vertices in the first round, and a vertex of replica 0 in each of the next two. -/
def twoRoots : List (Vertex Plain.platform) :=
  [⟨⟨1, 0⟩, IdSet.empty, [], (0, 0, (1, 0, [], [])), 0⟩,
    ⟨⟨1, 1⟩, IdSet.empty, [], (1, 0, (1, 1, [], [])), 0⟩,
    ⟨⟨2, 0⟩, IdSet.empty.insert 0, [], (0, 1, (2, 0, [], [0])), 1⟩,
    ⟨⟨3, 0⟩, IdSet.empty.insert 0, [], (0, 2, (3, 0, [], [0])), 2⟩]

end Dag

end Abcperf.Nxbft
