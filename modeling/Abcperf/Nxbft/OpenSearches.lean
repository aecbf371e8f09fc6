import Abcperf.Nxbft.Execution
import Abcperf.Nxbft.Searches

/-! What the searches of `Dag` find while marks of earlier searches are left. `deliver_from` and the
search in place of `has_path` go along the open paths of the graph, those without an earlier mark.
For a delivery these are all paths to what was not delivered, because everything below a delivered
vertex is delivered too. The marks of path searches have no such property: a search that finds its
target leaves a marked vertex whose parents it never looked at. -/

namespace Abcperf.Nxbft

open Lib Lib.Outcome Lib.DepthFirst List Option

variable {P : Platform}

namespace Dag

variable {dag after start : Dag P} {address : DagAddress} {entry : VertexWithMeta P} {fuel : Nat}

def CausallyClosed (dag : Dag P) : Prop := dag.WellFormed 0

theorem CausallyClosed.insert {vertex : Vertex P} (closed : dag.CausallyClosed)
    (parents : ∀ edge ∈ vertex.edges, (dag.lookup ⟨vertex.round - 1, edge⟩).isSome)
    (run : dag.insert vertex = .ok after) : after.CausallyClosed := by
  refine (insert_inserted run).wellFormed closed parents ?_ fun _ => Nat.zero_le _
  intro isFirst
  rw [IdSet.len, length_eq_zero_iff, eq_nil_iff_forall_not_mem]
  intro edge isEdge
  -- there is no round before the first
  obtain ⟨parent, found⟩ := isSome_iff_exists.mp (parents edge isEdge)
  have low := (lookup_inside found).1
  rw [closed.offset, isFirst] at low
  exact absurd low (by simp)

def IsDelivered (dag : Dag P) (address : DagAddress) : Prop :=
  ∃ entry, dag.lookup address = some entry ∧ entry.delivered = true

theorem exists_delivered (closed : dag.CausallyClosed) :
    ∃ order : List DagAddress, order.Nodup ∧ ∀ address, dag.IsDelivered address ↔
      address ∈ order := by
  let slots := (List.range (dag.maxRound + 1)).flatMap fun round =>
    (List.range dag.n).map (DagAddress.mk round)
  refine ⟨(slots.filter fun address => (dag.lookup address).any (·.delivered)).dedup,
    nodup_dedup _, fun address => ?_⟩
  rw [mem_dedup, mem_filter, IsDelivered]
  cases found : dag.lookup address with
  | none => simp
  | some entry =>
    have inside : address ∈ slots := mem_flatMap.mpr ⟨address.round,
      mem_range.mpr (Nat.lt_succ_of_le (lookup_inside found).2), List.mem_map.mpr
        ⟨address.creator, mem_range.mpr (closed.slot address entry found).2, rfl⟩⟩
    simp [inside]

/-- What `deliverFrom` delivers when nothing is assumed about earlier marks. -/
structure DeliversOpen (dag : Dag P) (address : DagAddress) (after : Dag P)
    (order : List DagAddress) : Prop where
  same : dag.SameVertices after
  mem : ∀ other, other ∈ order ↔ OpenPath dag.Parent dag.IsDelivered address other
  marks : ∀ other, after.IsDelivered other ↔ dag.IsDelivered other ∨ other ∈ order
  nodup : order.Nodup

theorem deliverFrom_open (closed : dag.CausallyClosed) {order : List DagAddress}
    (run : dag.deliverFrom fuel address 0 = .ok (after, order)) :
    DeliversOpen dag address after order := by
  obtain ⟨before, distinct, delivered⟩ := exists_delivered closed
  have marks : dag.DeliveredIs before := by
    intro other entry found
    rw [← delivered, IsDelivered, found]
    simp
  have delivery := deliverFrom_delivered marks run
  have all := search_nodup delivery.search distinct
  have visited := search_mem delivery.search
  rw [nodup_append'] at all
  obtain ⟨_, fresh, disjoint⟩ := all
  have isDelivered : dag.IsDelivered = (· ∈ before) := by
    funext other
    exact propext (delivered other)
  refine ⟨delivery.same, fun other => ?_, fun other => ?_, fresh⟩
  · have := visited other
    rw [mem_append] at this
    simp only [mem_singleton, exists_eq_left] at this
    rw [isDelivered]
    constructor
    · intro member
      exact (this.mp (.inr member)).resolve_left (disjoint · member)
    · intro path
      exact (this.mpr (.inr path)).resolve_left path.finish_fresh
  rw [delivered, ← mem_append]
  constructor
  · rintro ⟨entry, found, isMarked⟩
    exact (delivery.marks other entry found).mp isMarked
  intro member
  have known : (after.lookup other).isSome := by
    rcases delivery.known other member with older | known
    · obtain ⟨entry, found, _⟩ := (delivered other).mpr older
      rw [delivery.same.isSome, found]
      rfl
    · exact known
  obtain ⟨entry, found⟩ := isSome_iff_exists.mp known
  exact ⟨entry, found, (delivery.marks other entry found).mpr member⟩

inductive Interleaved (start : Dag P) : Dag P → List DagAddress → Prop
  | start : Interleaved start start []
  | newRound {dag : Dag P} {done : List DagAddress} (before : Interleaved start dag done) :
      Interleaved start dag.newRound done
  | insert {dag after : Dag P} {done : List DagAddress} {vertex : Vertex P}
      (before : Interleaved start dag done)
      (parents : ∀ edge ∈ vertex.edges, (dag.lookup ⟨vertex.round - 1, edge⟩).isSome)
      (run : dag.insert vertex = .ok after) : Interleaved start after done
  | hasPath {dag after : Dag P} {done : List DagAddress} {fuel : Nat}
      {source target : DagAddress} {connected : Bool} (before : Interleaved start dag done)
      (run : dag.hasPath fuel source target = .ok (after, connected)) :
      Interleaved start after done
  | deliverFrom {dag after : Dag P} {done order : List DagAddress} {fuel : Nat}
      {address : DagAddress} (before : Interleaved start dag done)
      (run : dag.deliverFrom fuel address 0 = .ok (after, order)) :
      Interleaved start after (done ++ order)

inductive Call (P : Platform)
  | newRound
  | insert (vertex : Vertex P)
  | hasPath (source target : DagAddress)
  | deliverFrom (address : DagAddress)

def Call.perform (fuel : Nat) (state : Dag P × List DagAddress) :
    Call P → Option (Dag P × List DagAddress)
  | .newRound => some (state.1.newRound, state.2)
  | .insert vertex =>
    if vertex.edges.iter.all fun edge => (state.1.lookup ⟨vertex.round - 1, edge⟩).isSome then
      (state.1.insert vertex).toOption.map fun dag => (dag, state.2)
    else none
  | .hasPath source target =>
    (state.1.hasPath fuel source target).toOption.map fun result => (result.1, state.2)
  | .deliverFrom address =>
    (state.1.deliverFrom fuel address 0).toOption.map fun result =>
      (result.1, state.2 ++ result.2)

theorem Interleaved.perform {state next : Dag P × List DagAddress} {call : Call P}
    (before : Interleaved start state.1 state.2) (performed : call.perform fuel state = some next) :
    Interleaved start next.1 next.2 := by
  cases call with
  | newRound =>
    cases performed
    exact before.newRound
  | insert vertex =>
    simp only [Call.perform] at performed
    split at performed
    · next parents =>
      obtain ⟨after, run, rfl⟩ := map_eq_some_iff.mp performed
      refine before.insert (fun edge member => ?_) (toOption_eq_some.mp run)
      exact List.all_eq_true.mp parents edge member
    · cases performed
  | hasPath source target =>
    obtain ⟨⟨after, connected⟩, run, rfl⟩ := map_eq_some_iff.mp performed
    exact before.hasPath (toOption_eq_some.mp run)
  | deliverFrom address =>
    obtain ⟨⟨after, order⟩, run, rfl⟩ := map_eq_some_iff.mp performed
    exact before.deliverFrom (toOption_eq_some.mp run)

theorem Interleaved.performAll {calls : List (Call P)} {state last : Dag P × List DagAddress}
    (before : Interleaved start state.1 state.2)
    (performed : calls.foldlM (Call.perform fuel) state = some last) :
    Interleaved start last.1 last.2 := by
  induction calls generalizing state last with
  | nil =>
    cases performed
    exact before
  | cons call rest ih =>
    rw [foldlM_cons, bind_eq_bind] at performed
    obtain ⟨next, first, later⟩ := bind_eq_some_iff.mp performed
    exact ih (before.perform first) later

theorem Interleaved.causallyClosed {done : List DagAddress} (closed : start.CausallyClosed)
    (run : Interleaved start dag done) : dag.CausallyClosed := by
  induction run with
  | start => exact closed
  | newRound _ ih => exact (sameVertices_newRound _).wellFormed ih
  | insert _ parents run ih => exact ih.insert parents run
  | hasPath _ run ih => exact (hasPath_same run).wellFormed ih
  | deliverFrom _ run ih => exact (deliverFrom_open ih run).same.wellFormed ih

/-- `has_path` returns, and it says whether the target is reachable exactly if it keeps a set of its
own, or there is no path, or there is one without a mark of an earlier search. -/
theorem hasPath_reachable_iff {start dag : Dag P} {done : List DagAddress}
    (closed : start.CausallyClosed) (run : Interleaved start dag done) {fuel : Nat}
    {source target : DagAddress} (hasSource : (dag.lookup source).isSome)
    (hasTarget : (dag.lookup target).isSome) (lower : target.round < source.round)
    (enough : dag.reserve ≤ fuel) :
    ∃ after connected, dag.hasPath fuel source target = .ok (after, connected) ∧
      ((connected = true ↔ dag.Reachable source target) ↔
        (source.round ≤ dag.exploredFrom ∨ ¬ dag.Reachable source target ∨
          OpenPath dag.Parent dag.Explored source target)) := by
  have closedNow := run.causallyClosed closed
  have returns : Returns (fun _ => False) _ (dag.hasPath fuel source target) :=
    hasPath_returns closedNow hasSource hasTarget lower fun _ => enough
  obtain ⟨⟨after, connected⟩, called, _⟩ := returns.result fun _ => id
  refine ⟨after, connected, called, ?_⟩
  have answer := hasPath_answer closedNow called
  constructor
  · intro exact
    by_cases path : dag.Reachable source target
    · by_cases above : dag.exploredFrom < source.round
      · exact .inr (.inr ((answer.mp (exact.mpr path)).2 above))
      · exact .inl (not_lt.mp above)
    · exact .inr (.inl path)
  intro condition
  rw [answer, and_iff_left_iff_imp]
  intro path above
  rcases condition with notAbove | noPath | isOpen
  · exact absurd above (Nat.not_lt.mpr notAbove)
  · exact absurd path noPath
  · exact isOpen

end Dag

namespace Plain

/-- A vertex without transactions and with any signature: the graph reads neither. -/
def bare (round creator : Nat) (edges : List Nat) : Vertex platform :=
  ⟨⟨round, creator⟩, edges.foldl .insert .empty, [], (0, 0, (0, 0, [], [])), 0⟩

def chain : List (Dag.Call platform) :=
  [.insert (bare 1 0 []), .newRound, .insert (bare 2 0 [0]), .newRound, .insert (bare 3 0 [0]),
    .hasPath ⟨2, 0⟩ ⟨1, 0⟩]

theorem performed (calls : List (Dag.Call platform)) (n : Nat)
    (test : Dag platform × List DagAddress → Bool)
    (passed : (calls.foldlM (Dag.Call.perform 20) (Dag.new n, [])).any test = true) :
    ∃ dag done, Dag.Interleaved (Dag.new n) dag done ∧ test (dag, done) = true := by
  cases built : calls.foldlM (Dag.Call.perform 20) (Dag.new n, []) with
  | none =>
    rw [built] at passed
    cases passed
  | some last =>
    rw [built] at passed
    exact ⟨last.1, last.2, Dag.Interleaved.performAll .start built, passed⟩

/-- The second vertex is above the first, but not every search finds that out. -/
theorem hasPath_reachable_chain :
    ∃ (dag : Dag platform) (done : List DagAddress), Dag.Interleaved (Dag.new 1) dag done ∧
      ∃ after connected, dag.hasPath 20 ⟨2, 0⟩ ⟨1, 0⟩ = .ok (after, connected) ∧
        ((connected = true ↔ dag.Reachable ⟨2, 0⟩ ⟨1, 0⟩) ↔
          (2 ≤ dag.exploredFrom ∨ ¬ dag.Reachable ⟨2, 0⟩ ⟨1, 0⟩ ∨
            OpenPath dag.Parent dag.Explored ⟨2, 0⟩ ⟨1, 0⟩)) := by
  obtain ⟨dag, done, run, holds⟩ := performed chain 1
    (fun state => (state.1.lookup ⟨2, 0⟩).isSome && (state.1.lookup ⟨1, 0⟩).isSome &&
      decide (state.1.reserve ≤ 20)) (by decide)
  simp only [Bool.and_eq_true, decide_eq_true_eq] at holds
  exact ⟨dag, done, run, Dag.hasPath_reachable_iff (Dag.wellFormed_new 1 0) run holds.1.1
    holds.1.2 (by decide) holds.2⟩

/-- After a search has found the first vertex from the second, a search from the third does not. -/
theorem hasPath_misses_chain :
    ∃ (dag after : Dag platform) (done : List DagAddress),
      (Dag.new 1 : Dag platform).CausallyClosed ∧
      Dag.Interleaved (Dag.new 1) dag done ∧ dag.Reachable ⟨3, 0⟩ ⟨1, 0⟩ ∧
      dag.hasPath 20 ⟨3, 0⟩ ⟨1, 0⟩ = .ok (after, false) := by
  obtain ⟨dag, done, run, holds⟩ := performed chain 1
    (fun state => decide (state.1.successors ⟨3, 0⟩ = some [⟨2, 0⟩]) &&
      decide (state.1.successors ⟨2, 0⟩ = some [⟨1, 0⟩]) &&
      decide ((state.1.hasPath 20 ⟨3, 0⟩ ⟨1, 0⟩).toOption.map (·.2) = some false)) (by decide)
  simp only [Bool.and_eq_true, decide_eq_true_eq] at holds
  obtain ⟨⟨upper, lower⟩, answer⟩ := holds
  obtain ⟨⟨after, connected⟩, called, isFalse⟩ := map_eq_some_iff.mp answer
  dsimp only at isFalse
  subst isFalse
  refine ⟨dag, after, done, Dag.wellFormed_new 1 0, run, ?_, toOption_eq_some.mp called⟩
  exact Relation.ReflTransGen.head ⟨_, upper, mem_singleton.mpr rfl⟩
    (Relation.ReflTransGen.single ⟨_, lower, mem_singleton.mpr rfl⟩)

end Plain

end Abcperf.Nxbft
