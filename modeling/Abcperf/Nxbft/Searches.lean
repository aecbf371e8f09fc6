import Mathlib.Data.Finset.Prod
import Abcperf.Lib.Totality
import Abcperf.Nxbft.Waves

/-! The operations of a well-formed graph return. A search takes at most one iteration for each edge
of the graph, because it expands no vertex twice; what it leaves are marks, which change neither the
vertices nor how many a round has. -/

namespace Abcperf.Nxbft

open Lib Lib.Outcome List Option

variable {P : Platform}

namespace Dag

variable {excused : Panic → Prop} {quorum : Nat} {dag : Dag P}

def Counted (dag : Dag P) : Prop :=
  ∀ round slot, dag.roundAt round = some slot → slot.validVerticeCount ≤
    ((Finset.range dag.n).filter fun creator => (slot.vertices creator).isSome).card

theorem counted_new (n : Nat) : (new n : Dag P).Counted := by
  intro round slot found
  obtain ⟨index, -, isSlot⟩ := bind_eq_some_iff.mp found
  have member := mem_of_getElem? isSlot
  simp only [new, newRound, nil_append, mem_singleton] at member
  subst member
  exact Nat.zero_le _

theorem Counted.newRound (counted : dag.Counted) : dag.newRound.Counted := by
  intro round slot found
  have sized := dag.sized
  by_cases inside : dag.offset ≤ round ∧ round ≤ dag.maxRound
  · refine counted round slot ?_
    rw [roundAt_of_inside dag.newRound inside.1 (by simp [Dag.newRound]; omega)] at found
    simp only [Dag.newRound] at found
    rwa [List.getElem?_append_left (by omega), ← roundAt_of_inside dag inside.1 inside.2] at found
  obtain ⟨index, isIndex, isSlot⟩ := bind_eq_some_iff.mp found
  have isSome : (dag.newRound.roundToIndex round).isSome := by rw [isIndex]; rfl
  have range := (roundToIndex_isSome dag.newRound round).mp isSome
  -- the round that was opened is empty
  simp only [Dag.newRound] at range isSlot
  rw [roundToIndex, if_neg (by simp [Dag.newRound]; omega), some.injEq] at isIndex
  subst isIndex
  simp only [Dag.newRound] at isSlot
  rw [List.getElem?_append_right (by omega),
    show round - dag.offset - dag.rounds.length = 0 by omega] at isSlot
  simp only [List.getElem?_cons_zero, some.injEq] at isSlot
  subst isSlot
  exact Nat.zero_le _

variable {address : DagAddress} {entry : VertexWithMeta P} {queue seen : List DagAddress}

theorem Counted.modify (counted : dag.Counted) (low : dag.offset ≤ address.round)
    (change : VertexWithMeta P → VertexWithMeta P) : (dag.modify address change).Counted := by
  intro round slot found
  rw [Dag.modify, roundAt_modifyRound dag low] at found
  split at found
  · obtain ⟨older, isOlder, rfl⟩ := map_eq_some_iff.mp found
    have before := counted _ older isOlder
    have same : ∀ creator, ((older.modify address.creator change).vertices creator).isSome =
        (older.vertices creator).isSome := by
      intro creator
      by_cases isCreator : creator = address.creator
      · subst isCreator
        simp [DagRound.modify]
      · simp [DagRound.modify, isCreator]
    simp only [same]
    exact before
  · exact counted round slot found

theorem Counted.place (counted : dag.Counted) (low : dag.offset ≤ entry.vertex.round)
    (inRange : entry.vertex.creator < dag.n) (fresh : dag.lookup entry.vertex.address = none) :
    (dag.modifyRound entry.vertex.round (·.insert entry)).Counted := by
  intro round slot found
  rw [roundAt_modifyRound dag low] at found
  split at found
  · obtain ⟨older, isOlder, rfl⟩ := map_eq_some_iff.mp found
    have before := counted _ older isOlder
    have free : older.vertices entry.vertex.creator = none := by
      have isFree := fresh
      rw [lookup] at isFree
      change (dag.roundAt entry.vertex.round).bind _ = none at isFree
      rw [isOlder, bind_some] at isFree
      exact isFree
    have grown : ((Finset.range dag.n).filter fun creator =>
          ((older.insert entry).vertices creator).isSome) =
        Insert.insert entry.vertex.creator
          ((Finset.range dag.n).filter fun creator => (older.vertices creator).isSome) := by
      ext creator
      simp only [Finset.mem_filter, Finset.mem_insert, Finset.mem_range]
      by_cases isCreator : creator = entry.vertex.creator
      · subst isCreator
        simp [DagRound.insert, inRange]
      · simp [DagRound.insert, isCreator]
    change older.validVerticeCount + 1 ≤ ((Finset.range dag.n).filter _).card
    rw [grown, Finset.card_insert_of_notMem (by simp [free])]
    omega
  · exact counted round slot found

theorem Counted.other (counted : dag.Counted) {round : Nat}
    (enough : 2 ≤ dag.getRoundValidCount round) (me : Nat) :
    ∃ creator, creator ≠ me ∧ (dag.lookup ⟨round, creator⟩).isSome := by
  unfold getRoundValidCount at enough
  split at enough
  · next slot found =>
    have large := le_trans enough (counted round slot found)
    obtain ⟨creator, member, isOther⟩ := Finset.exists_mem_ne (Nat.lt_of_succ_le large) me
    refine ⟨creator, isOther, ?_⟩
    rw [lookup, found]
    exact (Finset.mem_filter.mp member).2
  · omega

structure Remarked (before after : Dag P) : Prop where
  same : before.SameVertices after
  maxRound : after.maxRound = before.maxRound
  counted : before.Counted → after.Counted

theorem Remarked.refl (dag : Dag P) : dag.Remarked dag := ⟨.refl dag, rfl, id⟩

theorem Remarked.trans {first second third : Dag P} (left : first.Remarked second)
    (right : second.Remarked third) : first.Remarked third :=
  ⟨left.same.trans right.same, right.maxRound.trans left.maxRound,
    fun counted => right.counted (left.counted counted)⟩

theorem remarked_modify (dag : Dag P) (low : dag.offset ≤ address.round)
    (change : VertexWithMeta P → VertexWithMeta P)
    (keeps : ∀ entry, (change entry).vertex = entry.vertex ∧
      (change entry).reaches = entry.reaches) :
    dag.Remarked (dag.modify address change) :=
  ⟨sameVertices_modify dag low keeps, rfl, fun counted => counted.modify low change⟩

def grid (dag : Dag P) : Finset (Nat × Nat) :=
  Finset.range (dag.maxRound + 1) ×ˢ Finset.range dag.n

theorem mem_grid (wellFormed : dag.WellFormed quorum) (known : (dag.lookup address).isSome) :
    (address.round, address.creator) ∈ dag.grid := by
  obtain ⟨entry, found⟩ := isSome_iff_exists.mp known
  have high := (lookup_inside found).2
  have inRange := (wellFormed.slot address entry found).2
  simp only [grid, Finset.mem_product, Finset.mem_range]
  omega

def pending (mark : VertexWithMeta P → Bool) (dag : Dag P) : Nat :=
  (dag.grid.filter fun slot => (dag.lookup ⟨slot.1, slot.2⟩).any fun entry => !mark entry).card

def reserve (dag : Dag P) : Nat := dag.n * dag.grid.card + 2

theorem pending_le (mark : VertexWithMeta P → Bool) (dag : Dag P) :
    dag.pending mark ≤ dag.grid.card := Finset.card_filter_le _ _

section

variable (wellFormed : dag.WellFormed quorum)

include wellFormed

theorem pending_modify (mark : VertexWithMeta P → Bool)
    (change : VertexWithMeta P → VertexWithMeta P) (marks : ∀ entry, mark (change entry) = true)
    (found : dag.lookup address = some entry) (unmarked : mark entry = false) :
    (dag.modify address change).pending mark < dag.pending mark := by
  have lookups := lookup_modify dag (lookup_inside found).1 change
  apply Finset.card_lt_card
  refine ⟨?_, ?_⟩
  · intro slot member
    rw [Finset.mem_filter] at member ⊢
    refine ⟨member.1, ?_⟩
    have open' := member.2
    rw [lookups] at open'
    split at open'
    · simp [found, marks] at open'
    · exact open'
  intro within
  have before : (address.round, address.creator) ∈ dag.grid.filter fun slot =>
      (dag.lookup ⟨slot.1, slot.2⟩).any fun entry => !mark entry := by
    rw [Finset.mem_filter]
    refine ⟨mem_grid wellFormed (by rw [found]; rfl), ?_⟩
    show (dag.lookup address).any _ = true
    simp [found, unmarked]
  have after := (Finset.mem_filter.mp (within before)).2
  rw [lookups, if_pos rfl, found] at after
  simp [marks] at after

theorem edges_le (found : dag.lookup address = some entry) :
    entry.vertex.edges.iter.length ≤ dag.n := by
  have within : entry.vertex.edges.toFinset ⊆ Finset.range dag.n := by
    intro edge member
    rw [IdSet.mem_toFinset] at member
    obtain ⟨parent, isParent⟩ :=
      isSome_iff_exists.mp (wellFormed.closed address entry found edge member)
    exact Finset.mem_range.mpr (wellFormed.slot _ parent isParent).2
  have bounded := Finset.card_le_card within
  rwa [IdSet.card_toFinset, Finset.card_range] at bounded

theorem inRange_of_known (known : (dag.lookup address).isSome) : address.creator < dag.n := by
  obtain ⟨entry, found⟩ := isSome_iff_exists.mp known
  exact (wellFormed.slot address entry found).2

theorem read_returns (found : dag.lookup address = some entry) {β : Type}
    {next : VertexWithMeta P → Outcome β} {after : β → Prop}
    (later : Returns excused after (next entry)) :
    Returns excused after (dag.getWithMeta address >>= fun slot => unwrap slot >>= next) :=
  .step (getWithMeta_ok.mpr ⟨(wellFormed.slot address entry found).2, found⟩)
    (.step (unwrap_ok.mpr rfl) later)

theorem get_returns (found : dag.lookup address = some entry) {β : Type}
    {next : Vertex P → Outcome β} {after : β → Prop}
    (later : Returns excused after (next entry.vertex)) :
    Returns excused after (dag.get address >>= fun slot => unwrap slot >>= next) :=
  .step (get_ok.mpr ⟨(wellFormed.slot address entry found).2, by rw [found]; rfl⟩)
    (.step (unwrap_ok.mpr rfl) later)

theorem reachesOf_returns {vertex : Vertex P}
    (parents : ∀ edge ∈ vertex.edges, (dag.lookup ⟨vertex.round - 1, edge⟩).isSome) :
    Returns excused (fun _ => True) (dag.reachesOf vertex) := by
  unfold reachesOf
  split
  · refine Returns.foldlM trivial fun reaches edge member _ => ?_
    obtain ⟨parent, found⟩ := isSome_iff_exists.mp (parents edge member)
    exact get_returns wellFormed found trivial
  split
  · refine Returns.foldlM trivial fun reaches edge member _ => ?_
    obtain ⟨parent, found⟩ := isSome_iff_exists.mp (parents edge member)
    exact read_returns wellFormed found trivial
  · exact trivial

theorem insert_returns (counted : dag.Counted) {vertex : Vertex P}
    (fresh : dag.lookup vertex.address = none) (inRange : vertex.creator < dag.n)
    (low : dag.offset ≤ vertex.round) (high : vertex.round ≤ dag.maxRound)
    (parents : ∀ edge ∈ vertex.edges, (dag.lookup ⟨vertex.round - 1, edge⟩).isSome) :
    Returns excused (fun after => dag.Inserted vertex after ∧ after.maxRound = dag.maxRound ∧
      after.Counted) (dag.insert vertex) := by
  have inside : (dag.roundToIndex vertex.round).isSome :=
    (roundToIndex_isSome dag _).mpr ⟨low, high⟩
  have unknown : dag.knows vertex.address = .ok false := knows_ok.mpr ⟨inRange, by rw [fresh]; rfl⟩
  unfold insert
  refine .step unknown (.asserted (by simp) (.asserted inside ?_))
  cases isReached : dag.reachesOf vertex with
  | error panic =>
    have returns : Returns excused _ (dag.reachesOf vertex) := reachesOf_returns wellFormed parents
    rw [isReached] at returns
    exact returns
  | ok reaches =>
    refine ⟨insert_inserted ?_, rfl, counted.place low inRange fresh⟩
    simp [insert, unknown, inside, isReached]

theorem pushNeighbors_returns (found : dag.lookup address = some entry) {stack : List DagAddress}
    (known : ∀ other ∈ stack, (dag.lookup other).isSome) (maxDepth : Nat) :
    Returns excused (fun pushed => pushed.length ≤ dag.n + stack.length ∧
        ∀ other ∈ pushed, (dag.lookup other).isSome)
      (dag.pushNeighbors maxDepth address entry.vertex.edges.iter stack) := by
  have pushes : Returns excused (fun pushed =>
        pushed.length ≤ entry.vertex.edges.iter.length + stack.length ∧
          ∀ other ∈ pushed, (dag.lookup other).isSome)
      (dag.pushNeighbors maxDepth address entry.vertex.edges.iter stack) := by
    refine Returns.foldlM_counted (fun count (pushed : List DagAddress) =>
      pushed.length ≤ count + stack.length ∧ ∀ other ∈ pushed, (dag.lookup other).isSome)
      ⟨by omega, known⟩ ?_
    rintro count pushed edge member ⟨short, known⟩
    have isParent := wellFormed.closed address entry found edge member
    obtain ⟨parent, isFound⟩ := isSome_iff_exists.mp isParent
    dsimp only
    split
    · exact ⟨by omega, known⟩
    refine read_returns wellFormed isFound ?_
    split
    · exact ⟨by omega, known⟩
    refine .step (knows_ok.mpr ⟨inRange_of_known wellFormed isParent, rfl⟩) ?_
    rw [if_neg (by simp [isParent])]
    refine ⟨by rw [length_cons]; omega, fun other isOther => ?_⟩
    rcases mem_cons.mp isOther with rfl | older
    · exact isParent
    · exact known other older
  refine pushes.imp fun pushed done => ⟨?_, done.2⟩
  have bounded := edges_le wellFormed found
  have := done.1
  omega

end

theorem deliverLoop_returns (maxDepth : Nat) (fuel : Nat) {dag : Dag P}
    {stack delivered : List DagAddress} (wellFormed : dag.WellFormed quorum)
    (known : ∀ address ∈ stack, (dag.lookup address).isSome)
    (done : ∀ address ∈ delivered, (dag.lookup address).isSome)
    (enough : ¬ excused .fuel → stack.length + dag.n * dag.pending (·.delivered) < fuel) :
    Returns excused
      (fun result => dag.Remarked result.1 ∧ ∀ address ∈ result.2, (dag.lookup address).isSome)
      (deliverLoop maxDepth fuel dag stack delivered) := by
  induction fuel generalizing dag stack delivered with
  | zero => exact .fuel (by_contra fun long => absurd (enough long) (Nat.not_lt_zero _))
  | succ fuel ih =>
    cases stack with
    | nil => exact .pure ⟨.refl dag, done⟩
    | cons address stack =>
      obtain ⟨entry, found⟩ :=
        isSome_iff_exists.mp (known address mem_cons_self)
      have rest : ∀ other ∈ stack, (dag.lookup other).isSome :=
        fun other member => known other (mem_cons_of_mem _ member)
      unfold deliverLoop
      refine read_returns wellFormed found ?_
      split
      · refine ih wellFormed rest done fun long => ?_
        have := enough long
        rw [length_cons] at this
        omega
      rename_i fresh
      refine (pushNeighbors_returns wellFormed found rest maxDepth).bind ?_
      rintro pushed ⟨few, stacked⟩
      have remarked := remarked_modify dag (lookup_inside found).1 VertexWithMeta.deliver
          fun _ => ⟨rfl, rfl⟩
      have fewer := pending_modify wellFormed (·.delivered) VertexWithMeta.deliver
          (fun _ => rfl) found (by simpa using fresh)
      refine (ih (remarked.same.wellFormed wellFormed) ?_ ?_ fun long => ?_).imp ?_
      · intro other member
        rw [remarked.same.isSome]
        exact stacked other member
      · intro other member
        rw [remarked.same.isSome]
        rcases mem_append.mp member with old | isLast
        · exact done other old
        · rw [mem_singleton.mp isLast, found]
          rfl
      · have spent := Nat.mul_le_mul_left dag.n fewer
        have before := enough long
        rw [length_cons] at before
        rw [Nat.mul_succ] at spent
        change _ + dag.n * _ < _
        omega
      rintro result ⟨later, all⟩
      refine ⟨remarked.trans later, fun other member => ?_⟩
      rw [← remarked.same.isSome]
      exact all other member

theorem deliverFrom_returns {fuel maxDepth : Nat} (wellFormed : dag.WellFormed quorum)
    (known : (dag.lookup address).isSome) (deep : maxDepth ≤ address.round)
    (enough : ¬ excused .fuel → dag.reserve ≤ fuel) :
    Returns excused (fun result => dag.Remarked result.1 ∧
      ∀ address ∈ result.2, (dag.lookup address).isSome)
        (dag.deliverFrom fuel address maxDepth) := by
  obtain ⟨entry, found⟩ := isSome_iff_exists.mp known
  unfold deliverFrom
  refine .step (knows_ok.mpr ⟨inRange_of_known wellFormed known, rfl⟩) (.asserted known
    (.asserted deep (read_returns wellFormed found ?_)))
  split
  · exact ⟨.refl dag, nofun⟩
  refine deliverLoop_returns maxDepth fuel wellFormed ?_ nofun fun long => ?_
  · intro other member
    exact mem_singleton.mp member ▸ known
  have bounded := Nat.mul_le_mul_left dag.n (dag.pending_le (·.delivered))
  have := enough long
  rw [reserve] at this
  simp only [length_singleton]
  omega

theorem length_enqueue (target neighbor : DagAddress) (queue : List DagAddress) :
    (enqueue target queue neighbor).length = queue.length + 1 := by
  unfold enqueue
  split <;> simp

theorem inplaceNeighbors_returns (wellFormed : dag.WellFormed quorum) (target : DagAddress)
    (found : dag.lookup address = some entry) (known : ∀ other ∈ queue, (dag.lookup other).isSome) :
    Returns excused (fun queued => queued.length ≤ dag.n + queue.length ∧
        ∀ other ∈ queued, (dag.lookup other).isSome)
      (dag.inplaceNeighbors target address entry.vertex.edges.iter queue) := by
  have queues : Returns excused (fun queued =>
        queued.length ≤ entry.vertex.edges.iter.length + queue.length ∧
          ∀ other ∈ queued, (dag.lookup other).isSome)
      (dag.inplaceNeighbors target address entry.vertex.edges.iter queue) := by
    refine Returns.foldlM_counted (fun count (queued : List DagAddress) =>
      queued.length ≤ count + queue.length ∧ ∀ other ∈ queued, (dag.lookup other).isSome)
      ⟨by omega, known⟩ ?_
    rintro count queued edge member ⟨short, known⟩
    have isParent := wellFormed.closed address entry found edge member
    obtain ⟨parent, isFound⟩ := isSome_iff_exists.mp isParent
    refine read_returns wellFormed isFound ?_
    split
    · exact ⟨by omega, known⟩
    refine .step (knows_ok.mpr ⟨inRange_of_known wellFormed isParent, rfl⟩) ?_
    rw [if_neg (by simp [isParent])]
    refine ⟨by rw [length_enqueue]; omega, fun other isOther => ?_⟩
    rcases (mem_enqueue _ _ _ _).mp isOther with rfl | older
    · exact isParent
    · exact known other older
  refine queues.imp fun queued done => ⟨?_, done.2⟩
  have bounded := edges_le wellFormed found
  have := done.1
  omega

theorem bestFirstSearchInplace_returns (target : DagAddress) (fuel : Nat) {dag : Dag P}
    {queue : List DagAddress} (wellFormed : dag.WellFormed quorum)
    (known : ∀ address ∈ queue, (dag.lookup address).isSome)
    (enough : ¬ excused .fuel → queue.length + dag.n * dag.pending (·.pathExplored) < fuel) :
    Returns excused (fun result => dag.Remarked result.1)
    (bestFirstSearchInplace target fuel dag queue) := by
  induction fuel generalizing dag queue with
  | zero => exact .fuel (by_contra fun long => absurd (enough long) (Nat.not_lt_zero _))
  | succ fuel ih =>
    cases queue with
    | nil => exact .pure (.refl dag)
    | cons address queue =>
      obtain ⟨entry, found⟩ :=
        isSome_iff_exists.mp (known address mem_cons_self)
      have rest : ∀ other ∈ queue, (dag.lookup other).isSome :=
        fun other member => known other (mem_cons_of_mem _ member)
      unfold bestFirstSearchInplace
      split
      · exact .refl dag
      refine read_returns wellFormed found ?_
      split
      · refine ih wellFormed rest fun long => ?_
        have := enough long
        rw [length_cons] at this
        omega
      rename_i fresh
      refine (inplaceNeighbors_returns wellFormed target found rest).bind ?_
      rintro queued ⟨few, isQueued⟩
      have remarked := remarked_modify dag (lookup_inside found).1 VertexWithMeta.pathExplore
        fun _ => ⟨rfl, rfl⟩
      have fewer := pending_modify wellFormed (·.pathExplored) VertexWithMeta.pathExplore
        (fun _ => rfl) found (by simpa using fresh)
      refine (ih (remarked.same.wellFormed wellFormed) ?_ fun long => ?_).imp
        fun _ later => remarked.trans later
      · intro other member
        rw [remarked.same.isSome]
        exact isQueued other member
      have spent := Nat.mul_le_mul_left dag.n fewer
      have before := enough long
      rw [length_cons] at before
      rw [Nat.mul_succ] at spent
      change _ + dag.n * _ < _
      omega

def unseen (dag : Dag P) (seen : List DagAddress) : Nat :=
  (dag.grid.filter fun slot => (⟨slot.1, slot.2⟩ : DagAddress) ∉ seen).card

section

variable (wellFormed : dag.WellFormed quorum)

include wellFormed

theorem unseen_cons (known : (dag.lookup address).isSome) (fresh : address ∉ seen) :
    dag.unseen (address :: seen) < dag.unseen seen := by
  apply Finset.card_lt_card
  refine ⟨?_, ?_⟩
  · intro slot member
    rw [Finset.mem_filter] at member ⊢
    exact ⟨member.1, fun isSeen => member.2 (mem_cons_of_mem _ isSeen)⟩
  intro within
  have before : (address.round, address.creator) ∈ dag.grid.filter fun slot =>
      (⟨slot.1, slot.2⟩ : DagAddress) ∉ seen :=
    Finset.mem_filter.mpr ⟨mem_grid wellFormed known, fresh⟩
  exact (Finset.mem_filter.mp (within before)).2 mem_cons_self

theorem expensiveNeighbors_returns (target : DagAddress) (found : dag.lookup address = some entry)
    (known : ∀ other ∈ queue, (dag.lookup other).isSome) :
    Returns excused (fun next =>
      next.1.length + dag.unseen next.2 ≤ queue.length + dag.unseen seen ∧
        ∀ other ∈ next.1, (dag.lookup other).isSome)
      (dag.expensiveNeighbors target address entry.vertex.edges.iter (queue, seen)) := by
  refine Returns.foldlM ⟨le_rfl, known⟩ ?_
  rintro ⟨queued, met⟩ edge member ⟨few, known⟩
  have isParent := wellFormed.closed address entry found edge member
  dsimp only at few known ⊢
  split
  · exact ⟨few, known⟩
  rename_i fresh
  refine .step (knows_ok.mpr ⟨inRange_of_known wellFormed isParent, rfl⟩) ?_
  rw [if_neg (by simp [isParent])]
  have fewer := unseen_cons wellFormed isParent fresh
  refine ⟨?_, fun other isOther => ?_⟩
  · show (enqueue _ _ _).length + _ ≤ _
    rw [length_enqueue]
    show _ + dag.unseen (_ :: met) ≤ _
    omega
  rcases (mem_enqueue _ _ _ _).mp isOther with rfl | older
  · exact isParent
  · exact known other older

theorem bestFirstSearchExpensive_returns (target : DagAddress) (fuel : Nat)
    {queue seen : List DagAddress} (known : ∀ address ∈ queue, (dag.lookup address).isSome)
    (enough : ¬ excused .fuel → queue.length + dag.unseen seen < fuel) :
    Returns excused (fun _ => True)
    (dag.bestFirstSearchExpensive target fuel (queue, seen)) := by
  induction fuel generalizing queue seen with
  | zero => exact .fuel (by_contra fun long => absurd (enough long) (Nat.not_lt_zero _))
  | succ fuel ih =>
    cases queue with
    | nil => exact .pure trivial
    | cons address queue =>
      obtain ⟨entry, found⟩ :=
        isSome_iff_exists.mp (known address mem_cons_self)
      unfold bestFirstSearchExpensive
      split
      · exact trivial
      refine get_returns wellFormed found ?_
      refine (expensiveNeighbors_returns wellFormed target found
        fun other member => known other (mem_cons_of_mem _ member)).bind ?_
      rintro ⟨queued, met⟩ ⟨few, isQueued⟩
      refine ih isQueued fun long => ?_
      have := enough long
      rw [length_cons] at this
      dsimp only at few
      omega

theorem hasPath_returns {fuel : Nat} {source target : DagAddress}
    (hasSource : (dag.lookup source).isSome) (hasTarget : (dag.lookup target).isSome)
    (below : target.round < source.round) (enough : ¬ excused .fuel → dag.reserve ≤ fuel) :
    Returns excused (fun result => dag.Remarked result.1) (dag.hasPath fuel source target) := by
  have positive : 0 < dag.n :=
    Nat.lt_of_le_of_lt (Nat.zero_le _) (inRange_of_known wellFormed hasSource)
  have queued : ∀ other ∈ [source], (dag.lookup other).isSome :=
    fun other member => mem_singleton.mp member ▸ hasSource
  unfold hasPath
  refine .step (knows_ok.mpr ⟨inRange_of_known wellFormed hasSource, rfl⟩) (.asserted hasSource
    (.step (knows_ok.mpr ⟨inRange_of_known wellFormed hasTarget, rfl⟩) (.asserted hasTarget
      (.asserted below ?_))))
  split
  · -- the search starts from the graph with a new `explored_from`, whose slots are the same
    have started : dag.Remarked { dag with exploredFrom := source.round } :=
      ⟨⟨rfl, rfl, fun _ => rfl⟩, rfl, id⟩
    refine (bestFirstSearchInplace_returns target fuel (started.same.wellFormed wellFormed) queued
      fun long => ?_).imp fun _ later => started.trans later
    have bounded := Nat.mul_le_mul_left dag.n (dag.pending_le (·.pathExplored))
    have := enough long
    rw [reserve] at this
    change 1 + dag.n * dag.pending (·.pathExplored) < fuel
    omega
  refine (bestFirstSearchExpensive_returns wellFormed target fuel queued fun long => ?_).bind
    fun found _ => .pure (.refl dag)
  have few : dag.unseen [source] ≤ dag.grid.card := Finset.card_filter_le _ _
  have bounded := Nat.le_mul_of_pos_left dag.grid.card positive
  have := enough long
  rw [reserve] at this
  simp only [length_singleton]
  omega

end

end Dag

end Abcperf.Nxbft
