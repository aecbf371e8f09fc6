import Abcperf.Nxbft.OpenSearches

/-! What was delivered of a graph, and what is left of it after `prune`. Deliveries account for
every vertex once, so pruning returns what was never delivered. The searches over the rounds that
are kept read a neighbour before they ask whether it is there: they stop at the first edge into a
round that was dropped. -/

namespace Abcperf.Nxbft

open Lib Lib.Outcome List

variable {P : Platform}

namespace Dag

def DeliveredClosed (dag : Dag P) : Prop :=
  ∀ address parent, dag.IsDelivered address → dag.Parent address parent → dag.IsDelivered parent

/-- A delivery returns and marks what was not delivered among `address` and its ancestors. -/
structure Accounts (dag : Dag P) (address : DagAddress) (after : Dag P)
    (order : List DagAddress) : Prop where
  same : dag.SameVertices after
  nodup : order.Nodup
  mem : ∀ other, other ∈ order ↔ dag.Reachable address other ∧ ¬ dag.IsDelivered other
  marks : ∀ other, after.IsDelivered other ↔ dag.IsDelivered other ∨ other ∈ order
  closed : after.DeliveredClosed

variable {dag after : Dag P} {vertex : Vertex P} {limit : Nat} {undelivered : List (Vertex P)}

theorem deliverFrom_accounts {fuel : Nat} {address : DagAddress} {order : List DagAddress}
    (causal : dag.CausallyClosed) (closed : dag.DeliveredClosed)
    (run : dag.deliverFrom fuel address 0 = .ok (after, order)) :
    Accounts dag address after order := by
  have delivers := deliverFrom_open causal run
  have mem : ∀ other, other ∈ order ↔ dag.Reachable address other ∧ ¬ dag.IsDelivered other :=
    fun other => (delivers.mem other).trans (OpenPath.iff_of_closed closed)
  refine ⟨delivers.same, delivers.nodup, mem, delivers.marks, ?_⟩
  intro above below isDelivered isParent
  rw [delivers.same.parent] at isParent
  rw [delivers.marks, mem] at isDelivered ⊢
  by_cases already : dag.IsDelivered below
  · exact .inl already
  rcases isDelivered with older | ⟨path, _⟩
  · exact .inl (closed above below older isParent)
  · exact .inr ⟨path.tail isParent, already⟩

theorem isDelivered_of_marks {before : Dag P} (same : ∀ address,
      (after.lookup address).map (·.delivered) = (before.lookup address).map (·.delivered))
    (address : DagAddress) : after.IsDelivered address ↔ before.IsDelivered address := by
  have lookups : ∀ dag : Dag P, dag.IsDelivered address ↔
      (dag.lookup address).map (·.delivered) = some true := by
    intro dag
    rw [Option.map_eq_some_iff]
    rfl
  rw [lookups, lookups, same]

theorem isDelivered_newRound (dag : Dag P) (address : DagAddress) :
    dag.newRound.IsDelivered address ↔ dag.IsDelivered address := by
  rw [IsDelivered, lookup_newRound, IsDelivered]

theorem hasPath_delivered {fuel : Nat} {source target : DagAddress} {connected : Bool}
    (run : dag.hasPath fuel source target = .ok (after, connected)) (address : DagAddress) :
    after.IsDelivered address ↔ dag.IsDelivered address := by
  obtain ⟨_, ⟨_, search⟩ | ⟨_, rfl, _⟩⟩ := hasPath_cases run
  · exact isDelivered_of_marks
      (bestFirstSearchInplace_searched target fuel _ _ _ _ search).delivered address
  · exact Iff.rfl

theorem Inserted.isDelivered (inserted : Inserted dag vertex after) (address : DagAddress) :
    after.IsDelivered address ↔ dag.IsDelivered address := by
  obtain ⟨reaches, _, slots⟩ := inserted.slots
  unfold IsDelivered
  rw [slots]
  by_cases isNew : address = vertex.address
  · simp [isNew, inserted.fresh, VertexWithMeta.new]
  · rw [if_neg isNew]

theorem Inserted.deliveredClosed (inserted : Inserted dag vertex after)
    (closed : dag.DeliveredClosed) : after.DeliveredClosed := by
  intro above below isDelivered isParent
  rw [inserted.isDelivered] at isDelivered ⊢
  refine closed above below isDelivered ?_
  -- a delivered vertex was there before, with the same edges
  obtain ⟨entry, found, _⟩ := isDelivered
  exact (parent_iff found).mpr ((parent_iff (inserted.grows above entry found)).mp isParent)

theorem DeliveredClosed.of_same {before : Dag P} (same : before.SameVertices after)
    (marks : ∀ address, after.IsDelivered address ↔ before.IsDelivered address)
    (closed : before.DeliveredClosed) : after.DeliveredClosed := by
  intro above below isDelivered isParent
  rw [same.parent] at isParent
  rw [marks] at isDelivered ⊢
  exact closed above below isDelivered isParent

/-- What was delivered since `start`: each vertex once, and nothing else carries a new mark. -/
structure Accounted (start dag : Dag P) (done : List DagAddress) : Prop where
  closed : dag.DeliveredClosed
  marks : ∀ address, dag.IsDelivered address ↔ start.IsDelivered address ∨ address ∈ done
  nodup : done.Nodup

theorem Interleaved.accounted {start : Dag P} {done : List DagAddress}
    (causal : start.CausallyClosed) (closed : start.DeliveredClosed)
    (run : Interleaved start dag done) :
    Accounted start dag done := by
  induction run with
  | start => exact ⟨closed, by simp, nodup_nil⟩
  | newRound _ ih =>
    exact ⟨ih.closed.of_same (sameVertices_newRound _) (isDelivered_newRound _),
      fun address => (isDelivered_newRound _ address).trans (ih.marks address), ih.nodup⟩
  | insert _ _ run ih =>
    have inserted := insert_inserted run
    exact ⟨inserted.deliveredClosed ih.closed,
      fun address => (inserted.isDelivered address).trans (ih.marks address), ih.nodup⟩
  | hasPath _ run ih =>
    have marks := hasPath_delivered run
    exact ⟨ih.closed.of_same (hasPath_same run) marks,
      fun address => (marks address).trans (ih.marks address), ih.nodup⟩
  | deliverFrom before run ih =>
    have accounts := deliverFrom_accounts (before.causallyClosed causal) ih.closed run
    refine ⟨accounts.closed, fun address => ?_, ?_⟩
    · rw [accounts.marks, ih.marks, mem_append, or_assoc]
    rw [nodup_append]
    refine ⟨ih.nodup, accounts.nodup, ?_⟩
    intro older isDone newer isNew same
    subst same
    exact ((accounts.mem older).mp isNew).2 ((ih.marks older).mpr (.inr isDone))

/-- The rounds below `limit` are gone, and their undelivered vertices are handed back. -/
structure Pruned (dag : Dag P) (limit : Nat) (kept : Dag P) (undelivered : List (Vertex P)) :
    Prop where
  n : kept.n = dag.n
  offset : kept.offset = limit
  exploredFrom : kept.exploredFrom = dag.exploredFrom
  low : dag.offset ≤ limit
  slots : ∀ address, kept.lookup address =
    if limit ≤ address.round then dag.lookup address else none
  mem : ∀ vertex, vertex ∈ undelivered ↔ ∃ address entry, address.round < limit ∧
    address.creator < dag.n ∧ dag.lookup address = some entry ∧ entry.vertex = vertex ∧
      entry.delivered = false

theorem mem_take_rounds (low : dag.offset ≤ limit) (high : limit ≤ dag.maxRound)
    {round : DagRound P} : round ∈ dag.rounds.take (limit - dag.offset) ↔
      ∃ number, number < limit ∧ dag.roundAt number = some round := by
  rw [mem_iff_getElem?]
  constructor
  · rintro ⟨index, found⟩
    rw [List.getElem?_take] at found
    split at found
    · next small =>
      refine ⟨dag.offset + index, by omega, ?_⟩
      rw [roundAt_of_inside dag (by omega) (by omega), Nat.add_sub_cancel_left, found]
    · cases found
  rintro ⟨number, small, found⟩
  have inside : dag.offset ≤ number := by
    by_contra outside
    rw [roundAt_of_outside dag (by omega)] at found
    cases found
  rw [roundAt_of_inside dag inside (by omega)] at found
  exact ⟨number - dag.offset, by rw [List.getElem?_take, if_pos (by omega), found]⟩

theorem mem_prune {round : DagRound P} {n : Nat} :
    vertex ∈ round.prune n ↔ ∃ creator entry, creator < n ∧
      round.vertices creator = some entry ∧ entry.vertex = vertex ∧ entry.delivered = false := by
  simp only [DagRound.prune, mem_filterMap, mem_range, Option.map_eq_some_iff,
    Option.filter_eq_some_iff, Bool.not_eq_true']
  constructor
  · rintro ⟨creator, inRange, entry, ⟨found, fresh⟩, isVertex⟩
    exact ⟨creator, entry, inRange, found, isVertex, fresh⟩
  · rintro ⟨creator, entry, inRange, found, isVertex, fresh⟩
    exact ⟨creator, inRange, entry, ⟨found, fresh⟩, isVertex⟩

theorem lookup_drained (dag : Dag P) (low : dag.offset ≤ limit) (high : limit ≤ dag.maxRound)
    (address : DagAddress) : (dag.drained limit low high).lookup address =
      if limit ≤ address.round then dag.lookup address else none := by
  by_cases inside : limit ≤ address.round ∧ address.round ≤ dag.maxRound
  · rw [if_pos inside.1, lookup, lookup,
      roundAt_of_inside (dag.drained limit low high) inside.1 inside.2,
      roundAt_of_inside dag (by omega) inside.2]
    simp only [drained, List.getElem?_drop]
    rw [show limit - dag.offset + (address.round - limit) = address.round - dag.offset by omega]
  rw [lookup, roundAt_of_outside (dag.drained limit low high) (by simp only [drained]; omega),
    Option.bind_none]
  split
  · rw [lookup, roundAt_of_outside dag (by omega), Option.bind_none]
  · rfl

theorem prune_pruned (dag : Dag P) (low : dag.offset ≤ limit) (high : limit ≤ dag.maxRound) :
    ∃ kept undelivered, dag.prune limit = .ok (kept, dag.offset, limit, undelivered) ∧
      Pruned dag limit kept undelivered := by
  refine ⟨_, _, dif_pos ⟨low, high⟩, rfl, rfl, rfl, low, lookup_drained dag low high, ?_⟩
  intro vertex
  simp only [mem_flatMap, mem_take_rounds low high, mem_prune]
  constructor
  · rintro ⟨round, ⟨number, small, isRound⟩, creator, entry, inRange, found, rest⟩
    refine ⟨⟨number, creator⟩, entry, small, inRange, ?_, rest⟩
    rw [lookup, isRound, Option.bind_some, found]
  rintro ⟨address, entry, small, inRange, found, rest⟩
  obtain ⟨round, isRound, isEntry⟩ := Option.bind_eq_some_iff.mp found
  exact ⟨round, ⟨_, small, isRound⟩, address.creator, entry, inRange, isEntry, rest⟩

theorem prune_inside {kept : Dag P} {old new : Nat}
    (run : dag.prune limit = .ok (kept, old, new, undelivered)) :
    dag.offset ≤ limit ∧ limit ≤ dag.maxRound := by
  by_contra outside
  rw [prune, dif_neg outside] at run
  cases run

theorem prune_nodup {quorum : Nat} {kept : Dag P} (wellFormed : dag.WellFormed quorum)
    {old new : Nat} (run : dag.prune limit = .ok (kept, old, new, undelivered)) :
    undelivered.Nodup := by
  obtain ⟨low, high⟩ := prune_inside run
  rw [prune, dif_pos ⟨low, high⟩] at run
  cases run
  have slot : ∀ {index : Nat} {round : DagRound P}, index < limit - dag.offset →
      dag.rounds[index]? = some round → ∀ {creator entry}, round.vertices creator = some entry →
      entry.vertex.address = ⟨dag.offset + index, creator⟩ := by
    intro index round small isRound creator entry found
    refine (wellFormed.slot ⟨dag.offset + index, creator⟩ entry ?_).1
    rw [lookup, roundAt_of_inside dag (by simp) (by simp only; omega), Nat.add_sub_cancel_left,
      isRound, Option.bind_some, found]
  rw [nodup_flatMap]
  constructor
  · intro round member
    obtain ⟨index, isRound⟩ := mem_iff_getElem?.mp member
    rw [List.getElem?_take] at isRound
    split at isRound
    · next small =>
      refine List.Nodup.filterMap ?_ nodup_range
      intro left right vertex isLeft isRight
      obtain ⟨leftEntry, leftFound, rfl⟩ := Option.map_eq_some_iff.mp (Option.mem_def.mp isLeft)
      obtain ⟨rightEntry, rightFound, same⟩ :=
        Option.map_eq_some_iff.mp (Option.mem_def.mp isRight)
      have leftSlot := slot small isRound (Option.filter_eq_some_iff.mp leftFound).1
      have rightSlot := slot small isRound (Option.filter_eq_some_iff.mp rightFound).1
      rw [same, leftSlot] at rightSlot
      exact congrArg DagAddress.creator rightSlot
    · cases isRound
  rw [pairwise_iff_getElem]
  intro left right leftSmall rightSmall below vertex isLeft isRight
  obtain ⟨leftCreator, leftEntry, _, leftFound, rfl, _⟩ := mem_prune.mp isLeft
  obtain ⟨rightCreator, rightEntry, _, rightFound, same, _⟩ := mem_prune.mp isRight
  rw [length_take] at leftSmall rightSmall
  rw [getElem_take] at leftFound rightFound
  have leftSlot := slot (by omega) (List.getElem?_eq_getElem (by omega)) leftFound
  have rightSlot := slot (by omega) (List.getElem?_eq_getElem (by omega)) rightFound
  rw [same, leftSlot] at rightSlot
  have sameRound := congrArg DagAddress.round rightSlot
  simp only at sameRound
  omega

end Dag

namespace Plain

theorem new_settled (n : Nat) : (Dag.new n : Dag platform).DeliveredClosed := by
  rintro address parent ⟨entry, found, _⟩
  simp at found

/-- Three vertices of the first round with one above two of them, which is delivered. -/
def fork : List (Dag.Call platform) :=
  [.insert (bare 1 0 []), .insert (bare 1 1 []), .insert (bare 1 2 []), .newRound,
    .insert (bare 2 0 [0, 1]), .deliverFrom ⟨2, 0⟩]

end Plain

end Abcperf.Nxbft
