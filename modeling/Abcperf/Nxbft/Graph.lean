import Abcperf.Lib.Majority
import Abcperf.Lib.RoundDag
import Abcperf.Nxbft.Dag

/-! What the operations of `Dag` do to its slots, and the graph in rounds that a well-formed `Dag`
stands for. -/

namespace Abcperf.Nxbft

open Lib Lib.Outcome List Option

variable {P : Platform}

namespace Dag

theorem roundToIndex_isSome (dag : Dag P) (round : Nat) :
    (dag.roundToIndex round).isSome ↔ dag.offset ≤ round ∧ round ≤ dag.maxRound := by
  unfold roundToIndex
  split
  · next outside => simp; omega
  · next inside => simp; omega

variable {round quorum : Nat} {dag before after : Dag P} {address : DagAddress}
  {entry : VertexWithMeta P}

theorem roundAt_of_inside (dag : Dag P) (low : dag.offset ≤ round) (high : round ≤ dag.maxRound) :
    dag.roundAt round = dag.rounds[round - dag.offset]? := by
  rw [roundAt, roundToIndex, if_neg (by omega), bind_some]

theorem roundAt_of_outside (dag : Dag P) (outside : round < dag.offset ∨ dag.maxRound < round) :
    dag.roundAt round = none := by
  rw [roundAt, roundToIndex, if_pos outside, bind_none]

theorem lookup_inside (found : dag.lookup address = some entry) :
    dag.offset ≤ address.round ∧ address.round ≤ dag.maxRound := by
  by_contra outside
  rw [lookup, roundAt_of_outside dag (by omega), bind_none] at found
  cases found

theorem roundAt_modifyRound (dag : Dag P) (low : dag.offset ≤ round)
    (change : DagRound P → DagRound P) (other : Nat) :
    (dag.modifyRound round change).roundAt other =
      if other = round then (dag.roundAt round).map change else dag.roundAt other := by
  by_cases inside : dag.offset ≤ other ∧ other ≤ dag.maxRound
  · rw [roundAt_of_inside (dag.modifyRound round change) inside.1 inside.2,
      roundAt_of_inside dag inside.1 inside.2]
    simp only [modifyRound, List.getElem?_modify]
    by_cases same : other = round
    · subst same
      simp [roundAt_of_inside dag inside.1 inside.2]
    · have apart : ¬ round - dag.offset = other - dag.offset := by omega
      simp [same, apart]
  have outside : other < dag.offset ∨ dag.maxRound < other := by omega
  rw [roundAt_of_outside (dag.modifyRound round change) outside, roundAt_of_outside dag outside]
  split
  · next same => rw [← same, roundAt_of_outside dag outside]; rfl
  · rfl

theorem lookup_modify (dag : Dag P) (low : dag.offset ≤ address.round)
    (change : VertexWithMeta P → VertexWithMeta P) (other : DagAddress) :
    (dag.modify address change).lookup other =
      if other = address then (dag.lookup address).map change else dag.lookup other := by
  rw [lookup, modify, roundAt_modifyRound dag low]
  by_cases sameRound : other.round = address.round
  · rw [if_pos sameRound]
    by_cases same : other = address
    · subst same
      rw [if_pos rfl, lookup]
      cases dag.roundAt other.round <;> simp [DagRound.modify]
    have creators : other.creator ≠ address.creator := by
      intro sameCreator
      apply same
      cases other
      cases address
      simp_all
    rw [if_neg same, lookup, sameRound]
    cases dag.roundAt address.round <;> simp [DagRound.modify, creators]
  · have different : other ≠ address := fun same => sameRound (same ▸ rfl)
    rw [if_neg sameRound, if_neg different, lookup]

theorem lookup_place (dag : Dag P) (entry : VertexWithMeta P)
    (inside : (dag.roundToIndex entry.vertex.round).isSome) (other : DagAddress) :
    (dag.modifyRound entry.vertex.round (·.insert entry)).lookup other =
      if other = entry.vertex.address then some entry else dag.lookup other := by
  obtain ⟨low, high⟩ := (roundToIndex_isSome dag _).mp inside
  have present : ∃ round, dag.roundAt entry.vertex.round = some round := by
    rw [roundAt_of_inside dag low high]
    have := dag.sized
    exact ⟨_, List.getElem?_eq_getElem (by omega)⟩
  obtain ⟨round, found⟩ := present
  rw [lookup, roundAt_modifyRound dag low]
  by_cases sameRound : other.round = entry.vertex.round
  · rw [if_pos sameRound, found, map_some, bind_some, DagRound.insert]
    by_cases same : other = entry.vertex.address
    · subst same
      simp [Vertex.creator]
    have creators : other.creator ≠ entry.vertex.creator := by
      intro sameCreator
      apply same
      unfold Vertex.round at sameRound
      unfold Vertex.creator at sameCreator
      cases other
      simp_all
    rw [if_neg same, lookup, sameRound, found]
    simp [creators]
  · have different : other ≠ entry.vertex.address := fun same => sameRound (same ▸ rfl)
    rw [if_neg sameRound, if_neg different, lookup]

@[simp] theorem lookup_newRound (dag : Dag P) (address : DagAddress) :
    dag.newRound.lookup address = dag.lookup address := by
  have sized := dag.sized
  by_cases inside : dag.offset ≤ address.round ∧ address.round ≤ dag.maxRound
  · rw [lookup, lookup, roundAt_of_inside dag inside.1 inside.2,
      roundAt_of_inside dag.newRound inside.1 (by simp [newRound]; omega)]
    simp only [newRound]
    rw [List.getElem?_append_left (by omega)]
  rw [lookup, lookup, roundAt_of_outside dag (by omega)]
  by_cases last : address.round = dag.maxRound + 1
  · rw [roundAt_of_inside dag.newRound (by simp [newRound]; omega) (by simp [newRound]; omega)]
    simp only [newRound]
    rw [last, List.getElem?_append_right (by omega),
      show dag.maxRound + 1 - dag.offset - dag.rounds.length = 0 by omega]
    rfl
  · rw [roundAt_of_outside dag.newRound (by simp [newRound]; omega)]

@[simp] theorem lookup_new (n : Nat) (address : DagAddress) :
    (new n : Dag P).lookup address = none := by
  rw [new, lookup_newRound, lookup, roundAt_of_outside _ (by simp; omega), bind_none]

@[simp] theorem getWithMeta_ok {entry : Option (VertexWithMeta P)} :
    dag.getWithMeta address = .ok entry ↔ address.creator < dag.n ∧ dag.lookup address = entry := by
  simp [getWithMeta]

@[simp] theorem get_ok {vertex : Option (Vertex P)} : dag.get address = .ok vertex ↔
      address.creator < dag.n ∧ (dag.lookup address).map (·.vertex) = vertex := by
  simp [get]

@[simp] theorem knows_ok {known : Bool} : dag.knows address = .ok known ↔
      address.creator < dag.n ∧ (dag.lookup address).isSome = known := by
  simp [knows]

def successors (dag : Dag P) (address : DagAddress) : Option (List DagAddress) :=
  (dag.lookup address).map fun entry =>
    entry.vertex.edges.iter.map fun edge => ⟨address.round - 1, edge⟩

theorem successors_some (found : dag.lookup address = some entry) : dag.successors address =
      some (entry.vertex.edges.iter.map fun edge => ⟨address.round - 1, edge⟩) := by
  rw [successors, found, map_some]

/-- The graph the commit rule needs: edges lead one round down, a quorum of them each. -/
structure WellFormed (quorum : Nat) (dag : Dag P) : Prop where
  offset : dag.offset = 1
  slot : ∀ address entry, dag.lookup address = some entry →
    entry.vertex.address = address ∧ address.creator < dag.n
  closed : ∀ address entry, dag.lookup address = some entry → ∀ edge ∈ entry.vertex.edges,
    (dag.lookup ⟨address.round - 1, edge⟩).isSome
  first : ∀ address entry, dag.lookup address = some entry → address.round = 1 →
    entry.vertex.edges.len = 0
  dense : ∀ address entry, dag.lookup address = some entry → 1 < address.round →
    quorum ≤ entry.vertex.edges.len

theorem wellFormed_round (wellFormed : dag.WellFormed quorum)
    (found : dag.lookup address = some entry) : 0 < address.round := by
  have := (lookup_inside found).1
  have := wellFormed.offset
  omega

theorem wellFormed_edge (wellFormed : dag.WellFormed quorum)
    (found : dag.lookup address = some entry) {edge : Nat} (member : edge ∈ entry.vertex.edges) :
    1 < address.round := by
  by_contra low
  have positive := wellFormed_round wellFormed found
  have empty := wellFormed.first address entry found (by omega)
  rw [IdSet.len, length_eq_zero_iff] at empty
  rw [IdSet.mem_def, empty] at member
  cases member

theorem wellFormed_new (n quorum : Nat) : (new n : Dag P).WellFormed quorum where
  offset := rfl
  slot := by intro address entry found; simp at found
  closed := by intro address entry found; simp at found
  first := by intro address entry found; simp at found
  dense := by intro address entry found; simp at found

def graph {quorum : Nat} (dag : Dag P) (wellFormed : dag.WellFormed quorum) :
    RoundDag DagAddress DagAddress.round where
  parents address := (dag.successors address).map List.toFinset
  closed := by
    intro address below known parent member
    obtain ⟨entry, found⟩ : ∃ entry, dag.lookup address = some entry := by
      cases found : dag.lookup address with
      | none => simp [successors, found] at known
      | some entry => exact ⟨entry, rfl⟩
    rw [successors_some found, map_some, some.injEq] at known
    subst known
    simp only [List.mem_toFinset, List.mem_map, IdSet.mem_iter] at member
    obtain ⟨edge, isEdge, rfl⟩ := member
    have above := wellFormed_edge wellFormed found isEdge
    obtain ⟨parent, parentFound⟩ :=
      isSome_iff_exists.mp (wellFormed.closed address entry found edge isEdge)
    refine ⟨?_, by simp only; omega⟩
    rw [successors_some parentFound]
    rfl

theorem graph_known (wellFormed : dag.WellFormed quorum) (address : DagAddress) :
    (dag.graph wellFormed).Known address ↔ (dag.lookup address).isSome := by
  simp [RoundDag.Known, graph, successors]

theorem graph_edge (wellFormed : dag.WellFormed quorum) {parent : DagAddress} :
    (dag.graph wellFormed).Edge address parent ↔
      ∃ below, dag.successors address = some below ∧ parent ∈ below := by
  simp only [RoundDag.Edge, graph, map_eq_some_iff]
  constructor
  · rintro ⟨_, ⟨below, known, rfl⟩, member⟩
    exact ⟨below, known, List.mem_toFinset.mp member⟩
  · rintro ⟨below, known, member⟩
    exact ⟨_, ⟨below, known, rfl⟩, List.mem_toFinset.mpr member⟩

def IsQuorum (n quorum : Nat) (addresses : Finset DagAddress) : Prop :=
  quorum ≤ addresses.card ∧ ∀ address ∈ addresses, address.creator < n

theorem creators_card (addresses : Finset DagAddress) (level : Nat)
    (sameRound : ∀ address ∈ addresses, address.round = level) :
    (addresses.image DagAddress.creator).card = addresses.card := by
  apply Finset.card_image_of_injOn
  intro left leftMember right rightMember sameCreator
  have leftRound := sameRound left leftMember
  have rightRound := sameRound right rightMember
  cases left
  cases right
  simp_all

theorem isQuorum_intersecting {n : Nat} (majority : n < 2 * quorum) :
    RoundDag.Intersecting DagAddress.round (IsQuorum n quorum) := by
  intro left right level leftQuorum rightQuorum leftRound rightRound
  have creators : ∀ addresses, IsQuorum n quorum addresses →
      (∀ address ∈ addresses, address.round = level) →
      Majority n quorum (addresses.image DagAddress.creator) := by
    intro addresses isQuorum sameRound
    refine ⟨?_, (creators_card addresses level sameRound).symm ▸ isQuorum.1⟩
    intro creator member
    obtain ⟨address, isMember, rfl⟩ := Finset.mem_image.mp member
    exact Finset.mem_range.mpr (isQuorum.2 address isMember)
  obtain ⟨creator, inLeft, inRight⟩ :=
    (creators left leftQuorum leftRound).meets (creators right rightQuorum rightRound) majority
  obtain ⟨vertex, isLeft, vertexCreator⟩ := Finset.mem_image.mp inLeft
  obtain ⟨vertex', isRight, vertexCreator'⟩ := Finset.mem_image.mp inRight
  have same : vertex = vertex' := by
    have := leftRound vertex isLeft
    have := rightRound vertex' isRight
    cases vertex
    cases vertex'
    simp_all
  exact ⟨vertex, isLeft, same ▸ isRight⟩

theorem graph_dense (wellFormed : dag.WellFormed quorum) :
    (dag.graph wellFormed).Dense (IsQuorum dag.n quorum) := by
  intro address below known above
  have ⟨entry, found⟩ : ∃ entry, dag.lookup address = some entry := by
    cases found : dag.lookup address with
    | none => simp [graph, successors, found] at known
    | some entry => exact ⟨entry, rfl⟩
  simp only [graph, successors_some found, map_some, some.injEq] at known
  subst known
  constructor
  · rw [toFinset_card_of_nodup, length_map]
    · exact wellFormed.dense address entry found above
    refine List.Nodup.map ?_ entry.vertex.edges.ids_nodup
    intro left right same
    exact congrArg DagAddress.creator same
  intro parent member
  simp only [List.mem_toFinset, List.mem_map, IdSet.mem_iter] at member
  obtain ⟨edge, isEdge, rfl⟩ := member
  obtain ⟨parent, parentFound⟩ :=
    isSome_iff_exists.mp (wellFormed.closed address entry found edge isEdge)
  exact (wellFormed.slot _ parent parentFound).2

structure SameVertices (before after : Dag P) : Prop where
  n : after.n = before.n
  offset : after.offset = before.offset
  slots : ∀ address, (after.lookup address).map (fun entry => (entry.vertex, entry.reaches)) =
    (before.lookup address).map (fun entry => (entry.vertex, entry.reaches))

theorem SameVertices.refl (dag : Dag P) : dag.SameVertices dag := ⟨rfl, rfl, fun _ => rfl⟩

theorem SameVertices.trans {first second third : Dag P} (left : first.SameVertices second)
    (right : second.SameVertices third) : first.SameVertices third :=
  ⟨right.n.trans left.n, right.offset.trans left.offset,
    fun address => (right.slots address).trans (left.slots address)⟩

section

variable (same : before.SameVertices after)

include same

theorem SameVertices.slot (found : after.lookup address = some entry) :
    ∃ older, before.lookup address = some older ∧ older.vertex = entry.vertex ∧
      older.reaches = entry.reaches := by
  have slots := same.slots address
  rw [found, map_some] at slots
  obtain ⟨older, olderFound, equal⟩ := map_eq_some_iff.mp slots.symm
  exact ⟨older, olderFound, congrArg Prod.fst equal, congrArg Prod.snd equal⟩

theorem SameVertices.symm : after.SameVertices before :=
  ⟨same.n.symm, same.offset.symm, fun address => (same.slots address).symm⟩

theorem SameVertices.isSome (address : DagAddress) :
    (after.lookup address).isSome = (before.lookup address).isSome := by
  have := congrArg Option.isSome (same.slots address)
  simpa using this

theorem SameVertices.vertex (address : DagAddress) :
    (after.lookup address).map (·.vertex) = (before.lookup address).map (·.vertex) := by
  have := congrArg (Option.map Prod.fst) (same.slots address)
  simpa [Option.map_map, Function.comp_def] using this

theorem SameVertices.successors : after.successors = before.successors := by
  funext address
  have := congrArg (Option.map fun vertex : Vertex P =>
      vertex.edges.iter.map fun edge => (⟨address.round - 1, edge⟩ : DagAddress))
    (same.vertex address)
  simpa [Dag.successors, Option.map_map, Function.comp_def] using this

theorem SameVertices.wellFormed (wellFormed : before.WellFormed quorum) :
    after.WellFormed quorum where
  offset := same.offset.trans wellFormed.offset
  slot := by
    intro address entry found
    obtain ⟨older, olderFound, sameVertex, _⟩ := same.slot found
    have slot := wellFormed.slot address older olderFound
    exact ⟨sameVertex ▸ slot.1, same.n ▸ slot.2⟩
  closed := by
    intro address entry found edge member
    obtain ⟨older, olderFound, sameVertex, _⟩ := same.slot found
    rw [same.isSome]
    exact wellFormed.closed address older olderFound edge (sameVertex ▸ member)
  first := by
    intro address entry found atFirst
    obtain ⟨older, olderFound, sameVertex, _⟩ := same.slot found
    exact sameVertex ▸ wellFormed.first address older olderFound atFirst
  dense := by
    intro address entry found above
    obtain ⟨older, olderFound, sameVertex, _⟩ := same.slot found
    exact sameVertex ▸ wellFormed.dense address older olderFound above

theorem SameVertices.graph (wellFormed : before.WellFormed quorum) :
    after.graph (same.wellFormed wellFormed) = before.graph wellFormed := by
  simp [Dag.graph, same.successors]

end

theorem sameVertices_modify (dag : Dag P) (low : dag.offset ≤ address.round)
    {change : VertexWithMeta P → VertexWithMeta P}
    (keeps : ∀ entry, (change entry).vertex = entry.vertex ∧
      (change entry).reaches = entry.reaches) :
    dag.SameVertices (dag.modify address change) where
  n := rfl
  offset := rfl
  slots := by
    intro other
    rw [lookup_modify dag low]
    by_cases same : other = address
    · subst same
      cases dag.lookup other <;> simp [keeps]
    · rw [if_neg same]

theorem sameVertices_newRound (dag : Dag P) : dag.SameVertices dag.newRound :=
  ⟨rfl, rfl, fun address => by rw [lookup_newRound]⟩

def Grows (before after : Dag P) : Prop :=
  ∀ address entry, before.lookup address = some entry → after.lookup address = some entry

theorem Grows.within (grows : before.Grows after) (wellFormed : before.WellFormed quorum)
    (wellFormed' : after.WellFormed quorum) :
    (before.graph wellFormed).Within (after.graph wellFormed') := by
  intro address below known
  cases found : before.lookup address with
  | none => simp [Dag.graph, Dag.successors, found] at known
  | some entry =>
    simp only [Dag.graph, successors_some found] at known
    simp only [Dag.graph, successors_some (grows address entry found)]
    exact known

theorem Grows.successors (grows : before.Grows after) (address : DagAddress)
    (below : List DagAddress) (known : before.successors address = some below) :
    after.successors address = some below := by
  cases found : before.lookup address with
  | none => simp [Dag.successors, found] at known
  | some entry =>
    rw [successors_some (grows address entry found), ← known, successors_some found]

end Dag

end Abcperf.Nxbft
