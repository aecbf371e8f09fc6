import Abcperf.Lib.DepthFirst
import Abcperf.Nxbft.Graph

/-! `deliver_from` is a depth-first search whose visited set is the set of delivered vertices, and
`insert` collects for a vertex of the last round of a wave only leaders that the vertex reaches. -/

namespace Abcperf.Nxbft

open Lib Lib.Outcome Lib.DepthFirst Relation.ReflTransGen List

variable {P : Platform}

namespace Dag

def DeliveredIs (dag : Dag P) (order : List DagAddress) : Prop :=
  ∀ address entry, dag.lookup address = some entry → (entry.delivered = true ↔ address ∈ order)

theorem pushNeighbors_eq (dag : Dag P) (address : DagAddress) {order : List DagAddress}
    (marks : dag.DeliveredIs order) (edges : List Nat) (stack result : List DagAddress)
    (run : dag.pushNeighbors 0 address edges stack = .ok result) :
    result = ((edges.map fun edge => (⟨address.round - 1, edge⟩ : DagAddress)).filter
      (fun neighbor => decide (neighbor ∉ order))).reverse ++ stack := by
  induction edges generalizing stack result with
  | nil =>
    simp only [pushNeighbors, foldlM_nil, pure_ok] at run
    simp [run]
  | cons edge rest ih =>
    simp only [pushNeighbors, foldlM_cons, bind_ok, Nat.not_lt_zero, if_false] at run
    obtain ⟨middle, ⟨slot, slotOk, entry, found, push⟩, later⟩ := run
    obtain ⟨_, rfl⟩ := getWithMeta_ok.mp slotOk
    rw [unwrap_ok] at found
    have marked := marks _ entry found
    rw [ih middle result later]
    by_cases delivered : entry.delivered = true
    · have inOrder := marked.mp delivered
      simp only [delivered, if_true, pure_ok] at push
      subst push
      simp [inOrder]
    have notInOrder : (⟨address.round - 1, edge⟩ : DagAddress) ∉ order :=
      fun member => delivered (marked.mpr member)
    simp only [delivered, Bool.false_eq_true, if_false, bind_ok] at push
    obtain ⟨present, presentOk, push⟩ := push
    obtain ⟨_, rfl⟩ := knows_ok.mp presentOk
    simp only [found, Option.isSome_some, not_true_eq_false, if_false, pure_ok] at push
    subst push
    simp [notInOrder]

section Marks

variable {dag after : Dag P} {address : DagAddress} {entry : VertexWithMeta P}

theorem sameVertices_mark (found : dag.lookup address = some entry)
    {change : VertexWithMeta P → VertexWithMeta P}
    (keeps : ∀ entry, (change entry).vertex = entry.vertex ∧
      (change entry).reaches = entry.reaches) :
    dag.SameVertices (dag.modify address change) :=
  sameVertices_modify dag (lookup_inside found).1 keeps

structure PathsKept (before after : Dag P) : Prop where
  same : before.SameVertices after
  exploredFrom : after.exploredFrom = before.exploredFrom
  explored : ∀ address, (after.lookup address).map (·.pathExplored) =
    (before.lookup address).map (·.pathExplored)

theorem PathsKept.refl (dag : Dag P) : dag.PathsKept dag := ⟨.refl _, rfl, fun _ => rfl⟩

theorem PathsKept.trans {first second third : Dag P} (left : first.PathsKept second)
    (right : second.PathsKept third) : first.PathsKept third :=
  ⟨left.same.trans right.same, right.exploredFrom.trans left.exploredFrom,
    fun address => (right.explored address).trans (left.explored address)⟩

theorem deliver_kept (found : dag.lookup address = some entry) :
    dag.PathsKept (dag.modify address .deliver) where
  same := sameVertices_mark found fun _ => ⟨rfl, rfl⟩
  exploredFrom := rfl
  explored := by
    intro other
    rw [lookup_modify dag (lookup_inside found).1]
    by_cases isIt : other = address
    · subst isIt
      rw [if_pos rfl, found]
      rfl
    · rw [if_neg isIt]

theorem deliverLoop_kept {maxDepth : Nat} (fuel : Nat) (dag after : Dag P)
    (stack delivered order : List DagAddress)
    (run : deliverLoop maxDepth fuel dag stack delivered = .ok (after, order)) :
    dag.PathsKept after := by
  induction fuel generalizing dag after stack delivered order with
  | zero => cases run
  | succ fuel ih =>
    cases stack with
    | nil =>
      obtain ⟨rfl, _⟩ := pair_ok.mp run
      exact PathsKept.refl _
    | cons address stack =>
      simp only [deliverLoop, bind_ok, getWithMeta_ok, unwrap_ok] at run
      obtain ⟨_, ⟨_, rfl⟩, entry, found, run⟩ := run
      split at run
      · exact ih _ _ _ _ _ run
      obtain ⟨pushed, _, run⟩ := bind_ok.mp run
      exact (deliver_kept found).trans (ih _ _ _ _ _ run)

theorem deliverFrom_kept {fuel : Nat} {maxDepth : Nat} {order : List DagAddress}
    (run : dag.deliverFrom fuel address maxDepth = .ok (after, order)) : dag.PathsKept after := by
  simp only [deliverFrom, bind_ok] at run
  obtain ⟨_, _, _, _, _, _, _, _, entry, _, run⟩ := run
  split at run
  · obtain ⟨rfl, _⟩ := pair_ok.mp run
    exact PathsKept.refl _
  · exact deliverLoop_kept _ _ _ _ _ _ run

end Marks

structure Delivered (dag : Dag P) (stack before : List DagAddress) (after : Dag P)
    (order : List DagAddress) : Prop where
  same : dag.SameVertices after
  exploredFrom : after.exploredFrom = dag.exploredFrom
  explored : ∀ address, (after.lookup address).map (·.pathExplored) =
    (dag.lookup address).map (·.pathExplored)
  search : Search dag.successors stack before order
  marks : after.DeliveredIs order
  known : ∀ address ∈ order, address ∈ before ∨ (after.lookup address).isSome

theorem deliverLoop_delivered (before : List DagAddress) (fuel : Nat) (dag : Dag P)
    (stack delivered : List DagAddress) (after : Dag P) (result : List DagAddress)
    (marks : dag.DeliveredIs (before ++ delivered))
    (run : deliverLoop 0 fuel dag stack delivered = .ok (after, result)) : Delivered
    dag stack (before ++ delivered) after (before ++ result) := by
  induction fuel generalizing dag stack delivered after result with
  | zero => simp [deliverLoop] at run
  | succ fuel ih =>
    have kept := deliverLoop_kept _ _ _ _ _ _ run
    cases stack with
    | nil =>
      simp only [deliverLoop, pair_ok] at run
      obtain ⟨rfl, rfl⟩ := run
      exact { kept with
        search := Search.finished _, marks := marks, known := fun _ member => .inl member }
    | cons address stack =>
      simp only [deliverLoop, bind_ok, getWithMeta_ok, unwrap_ok] at run
      obtain ⟨_, ⟨_, rfl⟩, entry, found, run⟩ := run
      by_cases isDelivered : entry.delivered = true
      · rw [if_pos isDelivered] at run
        have rest := ih dag stack delivered after result marks run
        have known := (marks address entry found).mp isDelivered
        exact { rest with search := Search.skip known rest.search }
      rw [if_neg isDelivered, bind_ok] at run
      obtain ⟨pushed, pushedOk, run⟩ := run
      have lookups := lookup_modify dag (lookup_inside found).1 VertexWithMeta.deliver
      have same := (deliver_kept found).same
      have fresh : address ∉ before ++ delivered :=
        fun member => isDelivered ((marks address entry found).mpr member)
      have marks' : (dag.modify address .deliver).DeliveredIs
          (before ++ (delivered ++ [address])) := by
        intro other otherEntry otherFound
        rw [lookups] at otherFound
        by_cases isAddress : other = address
        · subst isAddress
          simp only [if_true, found, Option.map_some, Option.some.injEq] at otherFound
          subst otherFound
          simp [VertexWithMeta.deliver]
        rw [if_neg isAddress] at otherFound
        rw [marks other otherEntry otherFound]
        simp [isAddress]
      have rest := ih _ pushed (delivered ++ [address]) after result marks' run
      refine { kept with search := ?_, marks := rest.marks, known := ?_ }
      · refine Search.visit fresh (successors_some found) ?_
        rw [← pushNeighbors_eq dag address marks _ _ _ pushedOk, ← same.successors, append_assoc]
        exact rest.search
      intro other member
      rcases rest.known other member with old | known
      · rw [← append_assoc, mem_append, mem_singleton] at old
        rcases old with older | rfl
        · exact .inl older
        refine .inr ?_
        rw [kept.same.isSome, found]
        rfl
      · exact .inr known

variable {dag after : Dag P} {vertex : Vertex P}

theorem deliverFrom_delivered {fuel : Nat} {leader : DagAddress}
    {before delivered : List DagAddress} (marks : dag.DeliveredIs before)
    (run : dag.deliverFrom fuel leader 0 = .ok (after, delivered)) :
    Delivered dag [leader] before after (before ++ delivered) := by
  simp only [deliverFrom, bind_ok, assert_ok, exists_and_left, exists_const] at run
  obtain ⟨_, _, _, _, slot, slotOk, entry, found, run⟩ := run
  obtain ⟨_, rfl⟩ := getWithMeta_ok.mp slotOk
  rw [unwrap_ok] at found
  by_cases isDelivered : entry.delivered = true
  · simp only [isDelivered, if_true, pair_ok] at run
    obtain ⟨rfl, rfl⟩ := run
    rw [append_nil]
    exact { PathsKept.refl dag with
      search := Search.skip ((marks leader entry found).mp isDelivered) (Search.finished before)
      marks := marks, known := fun _ member => .inl member }
  rw [if_neg isDelivered] at run
  have loop := deliverLoop_delivered before fuel dag [leader] [] after delivered
      (by rwa [append_nil]) run
  rwa [append_nil] at loop

/-- The collected creators of the first round of the wave are reached, two edges down from the
third round and three edges down from the fourth. -/
def ReachesSound {quorum : Nat} (dag : Dag P) (wellFormed : dag.WellFormed quorum) : Prop :=
  ∀ address entry, dag.lookup address = some entry → ∀ creator ∈ entry.reaches,
    (address.round % 4 = 3 ∧
      (dag.graph wellFormed).Reaches address ⟨address.round - 2, creator⟩) ∨
    (address.round % 4 = 0 ∧
      (dag.graph wellFormed).Reaches address ⟨address.round - 3, creator⟩)

theorem merged_iff {α : Type} (dag : Dag P) (vertex : Vertex P) (read : VertexWithMeta P → α)
    (collect : α → IdSet) (creator : Nat) : ∀ (edges : List Nat) (start result : IdSet),
      edges.foldlM (fun reaches creator => do
        let parent ← unwrap ((← dag.getWithMeta ⟨vertex.round - 1, creator⟩).map read)
        return IdSet.merge reaches (collect parent)) start = .ok result →
      (creator ∈ result ↔ creator ∈ start ∨ ∃ edge ∈ edges, ∃ entry,
        dag.lookup ⟨vertex.round - 1, edge⟩ = some entry ∧ creator ∈ collect (read entry)) := by
  intro edges
  induction edges with
  | nil =>
    intro start result run
    simp only [foldlM_nil, pure_ok] at run
    simp [run]
  | cons edge rest ih =>
    intro start result run
    simp only [foldlM_cons, bind_ok, pure_ok] at run
    obtain ⟨middle, ⟨slot, slotOk, parent, found, rfl⟩, later⟩ := run
    obtain ⟨_, rfl⟩ := getWithMeta_ok.mp slotOk
    obtain ⟨entry, entryFound, rfl⟩ := Option.map_eq_some_iff.mp (unwrap_ok.mp found)
    rw [ih _ result later, IdSet.mem_merge]
    simp [entryFound, or_assoc]

def Collects (vertex : Vertex P) (parent : VertexWithMeta P) (creator : Nat) : Prop :=
  (vertex.round % 4 = 3 ∧ creator ∈ parent.vertex.edges) ∨
    (vertex.round % 4 = 0 ∧ creator ∈ parent.reaches)

theorem reachesOf_iff {reaches : IdSet} (run : dag.reachesOf vertex = .ok reaches) (creator : Nat) :
    creator ∈ reaches ↔ ∃ edge ∈ vertex.edges, ∃ parent,
      dag.lookup ⟨vertex.round - 1, edge⟩ = some parent ∧ Collects vertex parent creator := by
  have fresh := IdSet.not_mem_empty creator
  unfold Collects
  unfold reachesOf at run
  split at run
  · next third =>
    rw [merged_iff dag vertex (fun entry => entry.vertex) (fun v => v.edges) creator
      vertex.edges.iter IdSet.empty reaches (by simpa [Dag.get] using run)]
    simp [fresh, third, IdSet.iter]
    rfl
  rename_i notThird
  split at run
  · next fourth =>
    rw [merged_iff dag vertex (fun entry => entry) (fun entry => entry.reaches) creator
      vertex.edges.iter IdSet.empty reaches (by simpa using run)]
    simp [fresh, fourth, IdSet.iter]
    rfl
  rename_i notFourth
  rw [← pure_ok.mp run]
  simp [fresh, notThird, notFourth]

structure Inserted (dag : Dag P) (vertex : Vertex P) (after : Dag P) : Prop where
  n : after.n = dag.n
  offset : after.offset = dag.offset
  exploredFrom : after.exploredFrom = dag.exploredFrom
  fresh : dag.lookup vertex.address = none
  inside : dag.offset ≤ vertex.round
  creator : vertex.creator < dag.n
  slots : ∃ reaches, dag.reachesOf vertex = .ok reaches ∧ ∀ address, after.lookup address =
    if address = vertex.address then some (.new vertex reaches) else dag.lookup address

theorem insert_inserted (run : dag.insert vertex = .ok after) : Inserted dag vertex after := by
  simp only [insert, bind_ok, assert_ok, exists_and_left, exists_const, pure_ok] at run
  obtain ⟨known, knownOk, unknown, inside, reaches, reachesOk, rfl⟩ := run
  obtain ⟨inRange, rfl⟩ := knows_ok.mp knownOk
  refine ⟨rfl, rfl, rfl, by simpa using unknown, ((roundToIndex_isSome dag _).mp inside).1,
    inRange, reaches, reachesOk, ?_⟩
  intro address
  exact lookup_place dag (VertexWithMeta.new vertex reaches) inside address

theorem Inserted.grows (inserted : Inserted dag vertex after) : dag.Grows after := by
  intro address entry found
  obtain ⟨reaches, _, slots⟩ := inserted.slots
  rw [slots, if_neg ?_]
  · exact found
  · rintro rfl
    cases inserted.fresh.symm.trans found

theorem Inserted.wellFormed {quorum : Nat} (inserted : Inserted dag vertex after)
    (wellFormed : dag.WellFormed quorum)
    (parents : ∀ edge ∈ vertex.edges, (dag.lookup ⟨vertex.round - 1, edge⟩).isSome)
    (first : vertex.round = 1 → vertex.edges.len = 0)
    (dense : 1 < vertex.round → quorum ≤ vertex.edges.len) : after.WellFormed quorum := by
  obtain ⟨reaches, _, slots⟩ := inserted.slots
  have grown : ∀ address, (dag.lookup address).isSome → (after.lookup address).isSome := by
    intro address known
    obtain ⟨entry, found⟩ := Option.isSome_iff_exists.mp known
    exact Option.isSome_iff_exists.mpr ⟨entry, inserted.grows address entry found⟩
  -- a slot of the new graph is the new vertex or a slot of the old one
  have slotCases : ∀ address entry, after.lookup address = some entry →
      (address = vertex.address ∧ entry.vertex = vertex) ∨ dag.lookup address = some entry := by
    intro address entry found
    rw [slots] at found
    by_cases isNew : address = vertex.address
    · rw [if_pos isNew, Option.some.injEq] at found
      exact .inl ⟨isNew, found ▸ rfl⟩
    · rw [if_neg isNew] at found
      exact .inr found
  refine ⟨inserted.offset.trans wellFormed.offset, ?_, ?_, ?_, ?_⟩
  · intro address entry found
    rw [inserted.n]
    rcases slotCases address entry found with ⟨rfl, isVertex⟩ | old
    · exact ⟨congrArg Vertex.address isVertex, inserted.creator⟩
    · exact wellFormed.slot address entry old
  · intro address entry found edge member
    apply grown
    rcases slotCases address entry found with ⟨rfl, isVertex⟩ | old
    · exact parents edge (isVertex ▸ member)
    · exact wellFormed.closed address entry old edge member
  · intro address entry found atFirst
    rcases slotCases address entry found with ⟨rfl, isVertex⟩ | old
    · exact isVertex ▸ first atFirst
    · exact wellFormed.first address entry old atFirst
  intro address entry found above
  rcases slotCases address entry found with ⟨rfl, isVertex⟩ | old
  · exact isVertex ▸ dense above
  · exact wellFormed.dense address entry old above

theorem Inserted.reachesSound {quorum : Nat} (inserted : Inserted dag vertex after)
    (wellFormed : dag.WellFormed quorum) (wellFormed' : after.WellFormed quorum)
    (sound : dag.ReachesSound wellFormed) : after.ReachesSound wellFormed' := by
  have within := inserted.grows.within wellFormed wellFormed'
  obtain ⟨reaches, reachesOk, slots⟩ := inserted.slots
  intro address entry found creator member
  have found' := found
  rw [slots] at found'
  by_cases isNew : address = vertex.address
  · rw [if_pos isNew, Option.some.injEq] at found'
    subst isNew
    subst found'
    obtain ⟨edge, isEdge, parent, parentFound, collected⟩ := (reachesOf_iff reachesOk _).mp member
    -- the first step goes to the parent the creator was collected from
    have step : (after.graph wellFormed').Edge vertex.address ⟨vertex.round - 1, edge⟩ :=
      (graph_edge wellFormed').mpr ⟨_, successors_some found, mem_map_of_mem isEdge⟩
    have parentAfter := inserted.grows _ parent parentFound
    rcases collected with ⟨third, isParentEdge⟩ | ⟨fourth, inParent⟩
    · refine .inl ⟨third, head step (single ?_)⟩
      exact (graph_edge wellFormed').mpr ⟨_, successors_some parentAfter,
        mem_map_of_mem isParentEdge⟩
    have atFourth : vertex.address.round % 4 = 0 := fourth
    have positive := wellFormed_round wellFormed' found
    refine .inr ⟨fourth, head step ?_⟩
    rcases sound _ parent parentFound creator inParent with ⟨_, path⟩ | ⟨impossible, _⟩
    · have path' := RoundDag.within_reaches within path
      have sameRound : vertex.round - 1 - 2 = vertex.address.round - 3 := by
        unfold Vertex.round
        omega
      rwa [sameRound] at path'
    · simp only [Vertex.round] at impossible
      omega
  rw [if_neg isNew] at found'
  rcases sound address entry found' creator member with ⟨third, path⟩ | ⟨fourth, path⟩
  · exact .inl ⟨third, RoundDag.within_reaches within path⟩
  · exact .inr ⟨fourth, RoundDag.within_reaches within path⟩

end Dag

end Abcperf.Nxbft
