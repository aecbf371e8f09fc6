import Abcperf.Lib.Marks
import Abcperf.Nxbft.Graph

/-! `has_path` decides reachability. The search that marks vertices in the graph goes along the
paths without a mark, so it relies on marks of earlier searches being irrelevant for it: all of them
are in rounds below the target. -/

namespace Abcperf.Nxbft

open Lib Lib.Outcome Relation.ReflTransGen List

variable {P : Platform}

namespace Dag

def Parent (dag : Dag P) (address parent : DagAddress) : Prop :=
  ∃ below, dag.successors address = some below ∧ parent ∈ below

def Reachable (dag : Dag P) : DagAddress → DagAddress → Prop := Relation.ReflTransGen dag.Parent

theorem parent_iff {dag : Dag P} {address parent : DagAddress} {entry : VertexWithMeta P}
    (found : dag.lookup address = some entry) : dag.Parent address parent ↔
      ∃ edge ∈ entry.vertex.edges.iter, parent = ⟨address.round - 1, edge⟩ := by
  simp only [Parent, successors_some found, Option.some.injEq, exists_eq_left', mem_map]
  exact exists_congr fun _ => and_congr_right fun _ => eq_comm

theorem reachable_iff {dag : Dag P} {quorum : Nat} (wellFormed : dag.WellFormed quorum)
    {source target : DagAddress} :
    dag.Reachable source target ↔ (dag.graph wellFormed).Reaches source target := by
  have edges : dag.Parent = (dag.graph wellFormed).Edge := by
    funext address parent
    exact propext (graph_edge wellFormed).symm
  rw [Reachable, edges]
  rfl

theorem SameVertices.parent {before after : Dag P} (same : before.SameVertices after) :
    after.Parent = before.Parent := by
  funext address parent
  rw [Parent, Parent, same.successors]

def Explored (dag : Dag P) (address : DagAddress) : Prop :=
  ∃ entry, dag.lookup address = some entry ∧ entry.pathExplored = true

theorem mem_enqueue (target neighbor other : DagAddress) (queue : List DagAddress) :
    other ∈ enqueue target queue neighbor ↔ other = neighbor ∨ other ∈ queue := by
  unfold enqueue
  split
  · simp
  · simp [or_comm]

theorem inplaceNeighbors_mem (dag : Dag P) (target address : DagAddress) :
    ∀ (edges : List Nat) (queue result : List DagAddress),
      dag.inplaceNeighbors target address edges queue = .ok result →
      ∀ other, other ∈ result ↔ other ∈ queue ∨
        ((∃ edge ∈ edges, other = ⟨address.round - 1, edge⟩) ∧ ¬ dag.Explored other) := by
  intro edges
  induction edges with
  | nil =>
    intro queue result run other
    simp only [inplaceNeighbors, foldlM_nil, pure_ok] at run
    simp [run]
  | cons edge rest ih =>
    intro queue result run other
    simp only [inplaceNeighbors, foldlM_cons, bind_ok] at run
    obtain ⟨middle, ⟨slot, known, entry, found, push⟩, later⟩ := run
    obtain ⟨inRange, lookup⟩ := getWithMeta_ok.mp known
    rw [unwrap_ok] at found
    subst lookup
    have step := ih middle result later other
    by_cases marked : entry.pathExplored = true
    · simp only [marked, if_true, pure_ok] at push
      subst push
      have explored : dag.Explored ⟨address.round - 1, edge⟩ := ⟨entry, found, marked⟩
      rw [step, exists_mem_cons_iff]
      grind
    have unexplored : ¬ dag.Explored ⟨address.round - 1, edge⟩ := by
      rintro ⟨entry', found', marked'⟩
      cases found.symm.trans found'
      exact marked marked'
    simp only [marked, Bool.false_eq_true, if_false, bind_ok] at push
    obtain ⟨present, presentOk, push⟩ := push
    obtain ⟨_, rfl⟩ := knows_ok.mp presentOk
    simp only [found, Option.isSome_some, not_true_eq_false, if_false, pure_ok] at push
    subst push
    rw [step, mem_enqueue, exists_mem_cons_iff]
    grind

variable {address target source : DagAddress} {entry : VertexWithMeta P} {dag after : Dag P}
  {queue : List DagAddress} {quorum fuel : Nat} {connected : Bool}

theorem explored_modify (dag : Dag P) (found : dag.lookup address = some entry)
    (other : DagAddress) :
    (dag.modify address .pathExplore).Explored other ↔ other = address ∨ dag.Explored other := by
  unfold Explored
  rw [lookup_modify dag (lookup_inside found).1]
  by_cases same : other = address
  · subst same
    simp [found, VertexWithMeta.pathExplore]
  · simp [same]

/-- What the path search leaves behind: new explored marks, and an answer that skips old ones. -/
structure Searched (target : DagAddress) (dag : Dag P) (queue : List DagAddress)
    (after : Dag P) (found : Bool) : Prop where
  same : dag.SameVertices after
  exploredFrom : after.exploredFrom = dag.exploredFrom
  delivered : ∀ address, (after.lookup address).map (·.delivered) =
    (dag.lookup address).map (·.delivered)
  reached : ∀ address, after.Explored address →
    dag.Explored address ∨ ∃ start ∈ queue, dag.Reachable start address
  answer : (target ∈ queue → ¬ dag.Explored target) →
    (found = true ↔ ∃ start ∈ queue, OpenPath dag.Parent dag.Explored start target)

theorem searched_skip {found : Bool} (explored : dag.Explored address)
    (rest : Searched target dag queue after found) :
    Searched target dag (address :: queue) after found where
  same := rest.same
  exploredFrom := rest.exploredFrom
  delivered := rest.delivered
  reached := by
    intro other isExplored
    rcases rest.reached other isExplored with old | ⟨start, member, path⟩
    · exact .inl old
    · exact .inr ⟨start, mem_cons_of_mem _ member, path⟩
  answer := by
    intro unmarked
    rw [OpenPath.skip explored]
    exact rest.answer fun waits => unmarked (mem_cons_of_mem _ waits)

theorem searched_expand {pending : List DagAddress} {found : Bool}
    (known : dag.lookup address = some entry) (notTarget : address ≠ target)
    (fresh : ¬ dag.Explored address) (pushed : ∀ other, other ∈ pending ↔
      other ∈ queue ∨ (dag.Parent address other ∧ ¬ dag.Explored other))
    (rest : Searched target (dag.modify address .pathExplore) pending after found) :
    Searched target dag (address :: queue) after found := by
  have low := (lookup_inside known).1
  have marked := explored_modify dag known
  have same : dag.SameVertices (dag.modify address .pathExplore) :=
    sameVertices_modify dag low (fun entry => ⟨rfl, rfl⟩)
  refine ⟨same.trans rest.same, rest.exploredFrom, ?_, ?_, ?_⟩
  · intro other
    rw [rest.delivered, lookup_modify dag low]
    by_cases isAddress : other = address
    · subst isAddress
      simp [known, VertexWithMeta.pathExplore]
    · rw [if_neg isAddress]
  · intro other isExplored
    rcases rest.reached other isExplored with old | ⟨start, member, path⟩
    · rcases (marked other).mp old with rfl | older
      · exact .inr ⟨other, mem_cons_self, refl⟩
      · exact .inl older
    rw [Reachable, same.parent] at path
    rcases (pushed start).mp member with old | ⟨isParent, _⟩
    · exact .inr ⟨start, mem_cons_of_mem _ old, path⟩
    · exact .inr ⟨address, mem_cons_self, head isParent path⟩
  intro unmarked
  rw [OpenPath.expand fresh marked pushed, or_iff_right (Ne.symm notTarget), ← same.parent]
  refine rest.answer ?_
  -- the target is not the vertex that was marked, and a target that waits had no mark
  intro waits
  rw [marked]
  rintro (isAddress | explored)
  · exact notTarget isAddress.symm
  rcases (pushed target).mp waits with older | ⟨_, isFresh⟩
  · exact unmarked (mem_cons_of_mem _ older) explored
  · exact isFresh explored

theorem bestFirstSearchInplace_searched (target : DagAddress) (fuel : Nat) (dag : Dag P)
    (queue : List DagAddress) (after : Dag P) (found : Bool)
    (run : bestFirstSearchInplace target fuel dag queue = .ok (after, found)) :
    Searched target dag queue after found := by
  induction fuel generalizing dag queue after found with
  | zero => simp [bestFirstSearchInplace] at run
  | succ fuel ih =>
    cases queue with
    | nil =>
      simp only [bestFirstSearchInplace, pair_ok] at run
      obtain ⟨rfl, rfl⟩ := run
      exact ⟨SameVertices.refl dag, rfl, fun _ => rfl, fun _ explored => .inl explored,
        fun _ => by simp⟩
    | cons address queue =>
      simp only [bestFirstSearchInplace] at run
      by_cases isTarget : address = target
      · rw [if_pos isTarget, pair_ok] at run
        obtain ⟨rfl, rfl⟩ := run
        subst isTarget
        refine ⟨SameVertices.refl dag, rfl, fun _ => rfl, fun _ explored => .inl explored, ?_⟩
        intro unmarked
        refine iff_of_true rfl ⟨address, mem_cons_self, ?_⟩
        exact .refl (unmarked mem_cons_self)
      rw [if_neg isTarget, bind_ok] at run
      obtain ⟨slot, slotOk, run⟩ := run
      obtain ⟨_, rfl⟩ := getWithMeta_ok.mp slotOk
      obtain ⟨entry, known, run⟩ := bind_ok.mp run
      rw [unwrap_ok] at known
      by_cases marked : entry.pathExplored = true
      · rw [if_pos marked] at run
        exact searched_skip ⟨entry, known, marked⟩ (ih dag queue after found run)
      rw [if_neg marked, bind_ok] at run
      obtain ⟨pending, pushed, run⟩ := run
      have fresh : ¬ dag.Explored address := by
        rintro ⟨_, known', marked'⟩
        cases known.symm.trans known'
        exact marked marked'
      refine searched_expand known isTarget fresh (fun other => ?_) (ih _ pending after found run)
      rw [parent_iff known]
      exact inplaceNeighbors_mem dag target address _ queue pending pushed other

theorem openPath_of_reachable (wellFormed : dag.WellFormed quorum)
    (below : ∀ address, dag.Explored address → address.round < target.round)
    (path : dag.Reachable source target) : OpenPath dag.Parent dag.Explored source target := by
  have unmarked : OpenPath dag.Parent (fun _ => False) source target :=
    (OpenPath.iff_of_closed fun _ _ isMarked _ => isMarked).mpr ⟨path, id⟩
  refine unmarked.transfer (fun vertex => target.round ≤ vertex.round) ?_
    (fun _ _ _ _ isEdge => isEdge) ?_
  · intro vertex rest
    exact RoundDag.reaches_round ((reachable_iff wellFormed).mp rest)
  intro vertex above explored
  have := below vertex explored
  omega

def Met (target : DagAddress) (dag : Dag P) (queue seen : List DagAddress) : Prop :=
  ∀ address ∈ seen, address ∈ queue ∨ (address ≠ target ∧
    ∀ below, dag.successors address = some below → ∀ parent ∈ below, parent ∈ seen)

theorem expensiveNeighbors_mem (dag : Dag P) (target address : DagAddress) (edges : List Nat)
    (queue seen queue' seen' : List DagAddress)
    (known : ∀ edge ∈ edges, (dag.lookup ⟨address.round - 1, edge⟩).isSome)
    (run : dag.expensiveNeighbors target address edges (queue, seen) = .ok (queue', seen')) :
    (∀ other, other ∈ seen' ↔ other ∈ seen ∨
      ∃ edge ∈ edges, other = ⟨address.round - 1, edge⟩) ∧
    (∀ other, other ∈ queue' ↔ other ∈ queue ∨ (other ∈ seen' ∧ other ∉ seen)) := by
  induction edges generalizing queue seen queue' seen' with
  | nil =>
    simp only [expensiveNeighbors, foldlM_nil, pair_ok] at run
    obtain ⟨rfl, rfl⟩ := run
    simp
  | cons edge rest ih =>
    simp only [expensiveNeighbors, foldlM_cons, bind_ok, Prod.exists] at run
    obtain ⟨middle, middleSeen, push, later⟩ := run
    have restKnown : ∀ edge ∈ rest, (dag.lookup ⟨address.round - 1, edge⟩).isSome :=
      fun edge member => known edge (mem_cons_of_mem _ member)
    obtain ⟨seenIff, queueIff⟩ := ih middle middleSeen queue' seen' restKnown later
    by_cases met : (⟨address.round - 1, edge⟩ : DagAddress) ∈ seen
    · simp only [met, if_true, pair_ok] at push
      obtain ⟨rfl, rfl⟩ := push
      refine ⟨?_, queueIff⟩
      intro other
      rw [seenIff, exists_mem_cons_iff]
      grind
    simp only [met, if_false, bind_ok] at push
    obtain ⟨present, presentOk, push⟩ := push
    obtain ⟨_, rfl⟩ := knows_ok.mp presentOk
    have isKnown := known edge mem_cons_self
    simp only [isKnown, not_true_eq_false, if_false, pair_ok] at push
    obtain ⟨rfl, rfl⟩ := push
    have seenIff' : ∀ other, other ∈ seen' ↔ other ∈ seen ∨ ∃ edge' ∈ edge :: rest,
        other = ⟨address.round - 1, edge'⟩ := by
      intro other
      rw [seenIff, mem_cons, exists_mem_cons_iff]
      tauto
    refine ⟨seenIff', ?_⟩
    intro other
    -- the edge itself is met now and was not met before
    have isNew := (seenIff' _).mpr (.inr ⟨edge, mem_cons_self, rfl⟩)
    rw [queueIff, mem_enqueue, mem_cons, not_or]
    grind

theorem bestFirstSearchExpensive_spec (wellFormed : dag.WellFormed quorum) (target : DagAddress)
    (fuel : Nat) (queue seen : List DagAddress) (found : Bool)
    (run : dag.bestFirstSearchExpensive target fuel (queue, seen) = .ok found) :
    (found = true → ∃ start ∈ queue, (dag.graph wellFormed).Reaches start target) ∧
    (found = false → Met target dag queue seen → ∀ start ∈ seen,
      ¬ (dag.graph wellFormed).Reaches start target) := by
  induction fuel generalizing queue seen found with
  | zero => simp [bestFirstSearchExpensive] at run
  | succ fuel ih =>
    cases queue with
    | nil =>
      simp only [bestFirstSearchExpensive, pure_ok] at run
      subst run
      refine ⟨fun impossible => (by cases impossible), fun _ met start member path => ?_⟩
      -- nothing waits, so what has been met is closed under parents and misses the target
      have closed : target ∈ seen := by
        induction path using head_induction_on with
        | refl => exact member
        | head edge _ next =>
          obtain ⟨below, known, isParent⟩ := (graph_edge wellFormed).mp edge
          rcases met _ member with waiting | ⟨_, parents⟩
          · cases waiting
          · exact next (parents below known _ isParent)
      rcases met target closed with waiting | ⟨different, _⟩
      · cases waiting
      · exact different rfl
    | cons address queue =>
      simp only [bestFirstSearchExpensive] at run
      by_cases isTarget : address = target
      · rw [if_pos isTarget, pure_ok] at run
        subst run
        exact ⟨fun _ => ⟨address, mem_cons_self, isTarget ▸ refl⟩,
          fun impossible => by cases impossible⟩
      rw [if_neg isTarget, bind_ok] at run
      obtain ⟨slot, slotOk, run⟩ := run
      obtain ⟨_, rfl⟩ := get_ok.mp slotOk
      obtain ⟨vertex, vertexOk, run⟩ := bind_ok.mp run
      obtain ⟨entry, known, rfl⟩ := Option.map_eq_some_iff.mp (unwrap_ok.mp vertexOk)
      obtain ⟨⟨queue', seen'⟩, pushed, run⟩ := bind_ok.mp run
      obtain ⟨seenIff, queueIff⟩ := expensiveNeighbors_mem dag target address _ queue seen
        queue' seen' (fun edge member => wellFormed.closed address entry known edge member)
        pushed
      have below := successors_some known
      obtain ⟨sound, complete⟩ := ih queue' seen' found run
      constructor
      · intro isFound
        obtain ⟨start, member, path⟩ := sound isFound
        rcases (queueIff start).mp member with old | ⟨new, fresh⟩
        · exact ⟨start, mem_cons_of_mem _ old, path⟩
        rcases (seenIff start).mp new with seenBefore | ⟨edge, isEdge, rfl⟩
        · exact absurd seenBefore fresh
        · refine ⟨address, mem_cons_self, head ?_ path⟩
          exact (graph_edge wellFormed).mpr ⟨_, below, mem_map_of_mem isEdge⟩
      intro notFound met start member
      refine complete notFound ?_ start ((seenIff start).mpr (.inl member))
      intro other otherSeen
      by_cases old : other ∈ seen
      · rcases met other old with waiting | ⟨different, parents⟩
        · rcases mem_cons.mp waiting with rfl | later
          · refine .inr ⟨isTarget, ?_⟩
            intro parents parentsKnown parent isParent
            cases below.symm.trans parentsKnown
            obtain ⟨edge, isEdge, rfl⟩ := mem_map.mp isParent
            exact (seenIff _).mpr (.inr ⟨edge, isEdge, rfl⟩)
          · exact .inl ((queueIff other).mpr (.inl later))
        refine .inr ⟨different, ?_⟩
        intro below' known' parent isParent
        exact (seenIff parent).mpr (.inl (parents below' known' parent isParent))
      · exact .inl ((queueIff other).mpr (.inr ⟨otherSeen, old⟩))

theorem hasPath_cases (run : dag.hasPath fuel source target = .ok (after, connected)) :
    target.round < source.round ∧
    ((dag.exploredFrom < source.round ∧ bestFirstSearchInplace target fuel
          { dag with exploredFrom := source.round } [source] = .ok (after, connected)) ∨
        (source.round ≤ dag.exploredFrom ∧ after = dag ∧
          dag.bestFirstSearchExpensive target fuel ([source], [source]) = .ok connected)) := by
  simp only [hasPath, bind_ok, assert_ok, exists_and_left, exists_const] at run
  obtain ⟨_, _, _, _, _, _, lower, run⟩ := run
  refine ⟨lower, ?_⟩
  split at run
  · next above => exact .inl ⟨above, run⟩
  rename_i notAbove
  simp only [bind_ok, pair_ok, exists_eq_right_right] at run
  exact .inr ⟨not_lt.mp notAbove, run.2.symm, run.1⟩

theorem hasPath_same (run : dag.hasPath fuel source target = .ok (after, connected)) :
    dag.SameVertices after := by
  have started : dag.SameVertices { dag with exploredFrom := source.round } :=
    ⟨rfl, rfl, fun _ => rfl⟩
  obtain ⟨_, ⟨_, search⟩ | ⟨_, rfl, _⟩⟩ := hasPath_cases run
  · exact started.trans (bestFirstSearchInplace_searched target fuel _ _ _ _ search).same
  · exact .refl _

/-- What `has_path` answers: from a round above every earlier start it sees the open paths only. -/
theorem hasPath_answer (wellFormed : dag.WellFormed quorum)
    (run : dag.hasPath fuel source target = .ok (after, connected)) :
    connected = true ↔ dag.Reachable source target ∧
      (dag.exploredFrom < source.round → OpenPath dag.Parent dag.Explored source target) := by
  obtain ⟨lower, ⟨above, search⟩ | ⟨notAbove, _, search⟩⟩ := hasPath_cases run
  · have different : target ∉ [source] := by
      intro same
      rw [mem_singleton.mp same] at lower
      exact absurd lower (lt_irrefl _)
    rw [(bestFirstSearchInplace_searched target fuel _ _ _ _ search).answer
      fun same => absurd same different]
    constructor
    · rintro ⟨start, isStart, path⟩
      rw [mem_singleton.mp isStart] at path
      exact ⟨path.reaches, fun _ => path⟩
    · rintro ⟨_, path⟩
      exact ⟨source, mem_singleton.mpr rfl, path above⟩
  obtain ⟨sound, complete⟩ :=
    bestFirstSearchExpensive_spec wellFormed target fuel [source] [source] connected search
  rw [reachable_iff wellFormed]
  constructor
  · intro isConnected
    obtain ⟨start, isStart, path⟩ := sound isConnected
    rw [mem_singleton.mp isStart] at path
    exact ⟨path, fun above => absurd above (Nat.not_lt.mpr notAbove)⟩
  rintro ⟨path, _⟩
  by_contra notConnected
  exact complete (Bool.eq_false_of_not_eq_true notConnected) (fun _ member => .inl member)
    source (mem_singleton.mpr rfl) path

/-- The marks of path searches are in rounds up to the highest start of a search in place. -/
def ExploredBelow (dag : Dag P) : Prop :=
  ∀ address, dag.Explored address → address.round ≤ dag.exploredFrom

/-- The answer of `hasPath` where no old mark can hide the target. -/
structure PathChecked {quorum : Nat} (dag : Dag P) (wellFormed : dag.WellFormed quorum)
    (source target : DagAddress) (after : Dag P) (connected : Bool) : Prop where
  same : dag.SameVertices after
  delivered : ∀ address, (after.lookup address).map (·.delivered) =
    (dag.lookup address).map (·.delivered)
  exploredBelow : after.ExploredBelow
  exploredFrom : after.exploredFrom = max dag.exploredFrom source.round
  answer : connected = true ↔ (dag.graph wellFormed).Reaches source target

theorem hasPath_checked (wellFormed : dag.WellFormed quorum) (marks : dag.ExploredBelow)
    (harmless : dag.exploredFrom < source.round → dag.exploredFrom < target.round)
    (run : dag.hasPath fuel source target = .ok (after, connected)) :
    PathChecked dag wellFormed source target after connected := by
  have answer : connected = true ↔ (dag.graph wellFormed).Reaches source target := by
    rw [hasPath_answer wellFormed run, ← reachable_iff wellFormed, and_iff_left_iff_imp]
    intro path above
    exact openPath_of_reachable wellFormed
      (fun address explored => lt_of_le_of_lt (marks address explored) (harmless above)) path
  obtain ⟨_, ⟨above, search⟩ | ⟨notAbove, rfl, _⟩⟩ := hasPath_cases run
  · have searched := bestFirstSearchInplace_searched target fuel _ [source] after connected search
    refine ⟨hasPath_same run, searched.delivered, ?_, ?_, answer⟩
    · intro address explored
      rw [searched.exploredFrom]
      rcases searched.reached address explored with old | ⟨start, isStart, path⟩
      · have := marks address old
        show address.round ≤ source.round
        omega
      · rw [mem_singleton.mp isStart] at path
        exact RoundDag.reaches_round ((reachable_iff wellFormed).mp path)
    rw [searched.exploredFrom]
    show source.round = _
    omega
  · exact ⟨.refl _, fun _ => rfl, marks, by omega, answer⟩

end Dag

end Abcperf.Nxbft
