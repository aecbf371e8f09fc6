import Abcperf.Lib.Logs
import Abcperf.Damysus.Faithful

/-! What a replica executes. It looks for the part of a committed chain that it has not executed and
executes it from its lower end; what it has executed is therefore a committed chain at all times. -/

namespace Abcperf.Damysus

open Lib Lib.Outcome List Option

variable {P : Platform}

namespace Replica

variable {store : Blockstore P} {replica : Replica P} {history : Output P}

theorem above_of_justified (root : (store.get 0).map Block.notExecuted = some Block.genesis)
    {slot : Nat} {block : Block P} {accumulator : SignedCommitment P}
    (found : store.get slot = some block) (justified : block.justification = .quorum accumulator) :
    0 < slot := by
  refine Nat.pos_of_ne_zero fun atRoot => ?_
  rw [atRoot] at found
  rw [found, map_some, some.injEq] at root
  have isGenesis : block.justification = .genesis := congrArg Block.justification root
  rw [justified] at isGenesis
  cases isGenesis

/-- The views that the first loop of `try_execute_from` collects, earliest first. -/
inductive Pending (store : Blockstore P) : Nat → List Nat → Prop
  | stop {view : Nat} {block : Block P} (found : store.get view = some block)
      (done : block.executed = true ∨ block.isGenesis = true) : Pending store view []
  | step {view : Nat} {block : Block P} {accumulator : SignedCommitment P} {views : List Nat}
      (found : store.get view = some block) (unmarked : block.executed = false)
      (justified : block.justification = .quorum accumulator)
      (below : Pending store accumulator.getBlockView views) : Pending store view (views ++ [view])

theorem collectToExecute_pending {fuel view : Nat} {collected result : List Nat}
    (run : collectToExecute store fuel view collected = .ok (some result)) :
    ∃ views, Pending store view
    views ∧ result = views ++ collected := by
  induction fuel generalizing view collected result with
  | zero => simp [collectToExecute] at run
  | succ fuel ih =>
    simp only [collectToExecute] at run
    split at run
    · simp at run
    rename_i block found
    split at run
    · next marked =>
      simp only [pure_ok, some.injEq] at run
      exact ⟨[], .stop found (.inl marked), run.symm⟩
    rename_i unmarked
    split at run
    · next isGenesis =>
      simp only [pure_ok, some.injEq] at run
      exact ⟨[], .stop found (.inr isGenesis), run.symm⟩
    simp only [bind_ok, unwrap_ok] at run
    obtain ⟨accumulator, isAccumulator, run⟩ := run
    have justified := Justification.getCommitment_eq_some.mp isAccumulator
    obtain ⟨views, pending, rfl⟩ := ih run
    exact ⟨views ++ [view], .step found (by simpa using unmarked) justified pending, by simp⟩

/-- The collected views are not executed and lead from an executed block, or from genesis, up to the
block that was looked for. -/
theorem Pending.continues {facts : Facts P} {n : Nat} {view : Nat} {views : List Nat}
    (pending : Pending store view views)
    (root : (store.get 0).map Block.notExecuted = some Block.genesis)
    (slots : ∀ slot block, store.get slot = some block → 0 < slot →
      block.view = slot ∧ ∃ id, facts.proposal id block.notExecuted) (valid : facts.Valid n) :
    (∃ stop, (stop = 0 ∨ ∃ block, store.get stop = some block ∧ block.executed = true) ∧
      ∀ below, (facts.chain n).Chain stop below → (facts.chain n).Chain view (below ++ views)) ∧
    ∀ slot ∈ views, 0 < slot ∧ ∃ block, store.get slot = some block ∧ block.executed = false := by
  induction pending with
  | @stop view block found done =>
    refine ⟨⟨view, ?_, fun below isChain => by rwa [append_nil]⟩, by simp⟩
    rcases done with marked | isGenesis
    · exact .inr ⟨block, found, marked⟩
    refine .inl (Nat.eq_zero_of_not_pos fun above => ?_)
    obtain ⟨-, id, isProposal⟩ := slots view block found above
    obtain ⟨accumulator, -, isQuorum, -⟩ := (valid.proposed id _ isProposal).justified
    change block.justification = _ at isQuorum
    simp [Block.isGenesis, isQuorum, Justification.isGenesis,
      Justification.getCommitment] at isGenesis
  | @step view block accumulator views found unmarked justified below ih =>
    obtain ⟨⟨stop, reached, continues⟩, fresh⟩ := ih
    have above := above_of_justified root found justified
    obtain ⟨atView, id, isProposal⟩ := slots view block found above
    have link : (facts.chain n).justified view accumulator.getBlockView :=
      ⟨block.notExecuted, ⟨id, accumulator, isProposal, justified, rfl⟩, atView⟩
    refine ⟨⟨stop, reached, fun below isChain => ?_⟩, ?_⟩
    · rw [← append_assoc]
      exact .step (continues below isChain) link
    exact forall_mem_concat fresh ⟨above, block, found, unmarked⟩

@[simp] theorem executeTransactions_blockstore (txs : List P.Tx) (replica : Replica P) :
    (txs.foldl executeTransaction replica).blockstore = replica.blockstore := by
  induction txs generalizing replica with
  | nil => rfl
  | cons tx rest ih =>
    rw [foldl_cons, ih]
    unfold executeTransaction
    split <;> rfl

@[simp] theorem executeTransactions_executedBlocks (txs : List P.Tx) (replica : Replica P) :
    (txs.foldl executeTransaction replica).executedBlocks = replica.executedBlocks := by
  induction txs generalizing replica with
  | nil => rfl
  | cons tx rest ih =>
    rw [foldl_cons, ih]
    unfold executeTransaction
    split <;> rfl

theorem executeBlock_ok {next : Replica P} {view : Nat}
    (run : replica.executeBlock view = .ok next) :
    ∃ block, replica.blockstore.get view = some block ∧
      next.blockstore = replica.blockstore.execute view ∧
      next.executedBlocks = replica.executedBlocks ++ [block] := by
  simp only [executeBlock, bind_ok, unwrap_ok, pure_ok] at run
  obtain ⟨block, found, rfl⟩ := run
  exact ⟨block, found, by simp, by simp⟩

/-- Executing views that are not executed yet marks their blocks and appends them. -/
theorem executeAll_ok {views : List Nat} {replica next : Replica P}
    (run : views.foldlM executeBlock replica = .ok next) (distinct : views.Nodup)
    (unmarked : ∀ view ∈ views, ∃ block, replica.blockstore.get view = some block ∧
      block.executed = false)
    (slots : ∀ view block, replica.blockstore.get view = some block → block.view = view) :
    ∃ blocks, blocks.map Block.view = views ∧
      next.executedBlocks = replica.executedBlocks ++ blocks ∧
      (∀ block ∈ blocks, block.executed = false ∧
        replica.blockstore.get block.view = some block) ∧
      ∀ view, next.blockstore.get view =
        if view ∈ views then (replica.blockstore.get view).map Block.execute
        else replica.blockstore.get view := by
  induction views generalizing replica next with
  | nil =>
    simp only [foldlM_nil, pure_ok] at run
    subst run
    exact ⟨[], rfl, (append_nil _).symm, by simp, by simp⟩
  | cons view rest ih =>
    obtain ⟨notAgain, distinctRest⟩ := nodup_cons.mp distinct
    simp only [foldlM_cons, bind_ok] at run
    obtain ⟨middle, first, later⟩ := run
    obtain ⟨block, found, store, executed⟩ := executeBlock_ok first
    have others : ∀ other, other ≠ view →
        middle.blockstore.get other = replica.blockstore.get other := by
      intro other different
      rw [store, Blockstore.get_execute, if_neg different]
    have unmarkedRest : ∀ other ∈ rest, ∃ block,
        middle.blockstore.get other = some block ∧ block.executed = false := by
      intro other member
      rw [others other fun same => notAgain (same ▸ member)]
      exact unmarked other (mem_cons_of_mem _ member)
    have slotsMiddle : ∀ other block, middle.blockstore.get other = some block →
        block.view = other := by
      intro other stored isStored
      by_cases same : other = view
      · subst same
        rw [store, Blockstore.get_execute, if_pos rfl, found, map_some, some.injEq] at isStored
        subst isStored
        exact slots other block found
      · rw [others other same] at isStored
        exact slots other stored isStored
    obtain ⟨blocks, isViews, executedRest, stored, storeRest⟩ :=
      ih later distinctRest unmarkedRest slotsMiddle
    obtain ⟨same, isSame, notMarked⟩ := unmarked view mem_cons_self
    rw [found, some.injEq] at isSame
    subst isSame
    have atView := slots view block found
    refine ⟨block :: blocks, by rw [map_cons, isViews, atView], ?_, ?_, ?_⟩
    · rw [executedRest, executed, append_assoc, singleton_append]
    · intro other member
      rcases mem_cons.mp member with rfl | inRest
      · exact ⟨notMarked, atView ▸ found⟩
      obtain ⟨otherUnmarked, isStored⟩ := stored other inRest
      have inViews : other.view ∈ rest := isViews ▸ List.mem_map_of_mem inRest
      rw [others _ fun same => notAgain (same ▸ inViews)] at isStored
      exact ⟨otherUnmarked, isStored⟩
    intro other
    rw [storeRest]
    by_cases same : other = view
    · subst same
      rw [if_neg notAgain, if_pos mem_cons_self, store, Blockstore.get_execute,
        if_pos rfl]
    · rw [others other same]
      simp [same]

def delivered (history : Output P) (replica : Replica P) : List P.Tx :=
  history.delivery ++ replica.output.output.delivery

/-- The executed blocks are the marked ones and form a committed chain, and for every client the
delivered requests are in order. -/
structure Executing (facts : Facts P) (n : Nat) (history : Output P) (replica : Replica P) :
    Prop where
  created : ∀ block ∈ replica.executedBlocks, ∃ id, facts.proposal id block
  stored : ∀ block ∈ replica.executedBlocks, replica.blockstore.get block.view ≠ none
  marked : ∀ view block, replica.blockstore.get view = some block →
    (block.executed = true ↔ view ∈ replica.executedBlocks.map Block.view)
  committed : replica.executedBlocks = [] ∨ ∃ top, (facts.chain n).Committed top ∧
    (facts.chain n).Chain top (replica.executedBlocks.map Block.view)
  newest : Newest P.clientId P.requestId (replica.delivered history)
    replica.executedTransactions

theorem executeTransaction_newest (tx : P.Tx)
    (newest : Newest P.clientId P.requestId (replica.delivered history)
      replica.executedTransactions) :
    Newest P.clientId P.requestId ((replica.executeTransaction tx).delivered history)
      (replica.executeTransaction tx).executedTransactions := by
  unfold executeTransaction
  split
  · exact newest
  rename_i fresh
  have isFresh : ∀ id, replica.executedTransactions (P.clientId tx) = some id →
      id < P.requestId tx := by
    intro id isLast
    simp only [isLast, any_some, decide_eq_true_eq, Nat.not_le] at fresh
    exact fresh
  have snoc := newest.snoc isFresh
  simpa [delivered, UnreflectedOutput.appendDelivery, append_assoc] using snoc

theorem executeTransactions_newest (txs : List P.Tx)
    (newest : Newest P.clientId P.requestId (replica.delivered history)
      replica.executedTransactions) :
    Newest P.clientId P.requestId ((txs.foldl executeTransaction replica).delivered history)
      (txs.foldl executeTransaction replica).executedTransactions := by
  induction txs generalizing replica with
  | nil => exact newest
  | cons tx rest ih => exact ih (executeTransaction_newest tx newest)

theorem executeAll_newest {views : List Nat} {next : Replica P}
    (newest : Newest P.clientId P.requestId (replica.delivered history)
      replica.executedTransactions) (run : views.foldlM executeBlock replica = .ok next) :
    Newest P.clientId P.requestId (next.delivered history) next.executedTransactions := by
  refine foldlM_keeps (fun replica : Replica P => Newest P.clientId P.requestId
    (replica.delivered history) replica.executedTransactions) executeBlock views replica next ?_
    newest run
  intro current view after _ before step
  simp only [executeBlock, bind_ok, unwrap_ok, pure_ok] at step
  obtain ⟨block, -, rfl⟩ := step
  exact executeTransactions_newest _ before

section Executing

variable {others : Facts P} {n view : Nat} {proposed : List (Block P)} {history : Output P}
  {inHand : Option (Block P)} {ahead : Nat} {replica next : Replica P}
  {block : Block P} {accumulator : SignedCommitment P}

/-- Three blocks in a row, each the parent of the next: the lowest one is committed. -/
theorem chain_committed {facts : Facts P} (valid : facts.Valid n) [CollisionFree P]
    {justification : Block P} {grand : SignedCommitment P} {id id' : Nat} {hash : P.BlockHash}
    (isBlock : facts.proposal id block) (isJustification : facts.proposal id' justification)
    (justified : block.justification = .quorum accumulator)
    (atView : justification.view = accumulator.getBlockView)
    (grandJustified : justification.justification = .quorum grand)
    (parent : block.parent = some justification.hashValue)
    (grandParent : justification.parent = some hash) (names : facts.Names grand.getBlockView hash) :
    (facts.chain n).Committed grand.getBlockView := by
  have lawful := valid.lawful
  obtain ⟨other, votes, isQuorum, quorate, -⟩ := (valid.proposed id block isBlock).justified
  rw [justified, Justification.quorum.injEq] at isQuorum
  subst isQuorum
  obtain ⟨other, grandVotes, isQuorum, grandQuorate, -⟩ :=
    (valid.proposed id' justification isJustification).justified
  rw [grandJustified, Justification.quorum.injEq] at isQuorum
  subst isQuorum
  have sameHash : justification.hashValue = accumulator.getBlockHash :=
    valid.names_hash isJustification (atView ▸ valid.accumulator_names quorate)
  have follows : facts.Follows block accumulator.getBlockView :=
    ⟨id, accumulator, isBlock, justified, rfl, by rw [parent, sameHash]⟩
  have above : justification.view ≠ 0 := (valid.above isJustification).ne'
  have certified : (facts.chain n).Certified justification.view justification.view := by
    have link : (facts.chain n).justified block.view justification.view := by
      rw [atView]
      exact ⟨block, follows.justified, rfl⟩
    exact lawful.direct_certified ⟨block, _, follows, rfl⟩ link above
  refine ⟨justification.view, ⟨justification, ⟨id', grand, isJustification, grandJustified, rfl⟩,
    rfl⟩, ⟨justification, grand.getBlockView, ?_, rfl⟩, certified⟩
  refine ⟨id', grand, isJustification, grandJustified, rfl, ?_⟩
  -- the parent is what the accumulator names, because a view has one block
  rw [grandParent, valid.names_unique names (valid.accumulator_names grandQuorate)]

/-- Executing the views that `try_execute_from` has collected for a committed block continues the
chain of what was executed. -/
theorem Executing.executeAll (executing : Executing (others.join replica) n history replica)
    (sourced : Sourced (others.base view proposed) history inHand ahead replica)
    (valid : (others.join replica).Valid n) [CollisionFree P] {top : Nat} {views : List Nat}
    (committed : ((others.join replica).chain n).Committed top)
    (pending : Pending replica.blockstore top views)
    (run : views.foldlM executeBlock replica = .ok next) :
    Executing (others.join replica) n history next := by
  have lawful := valid.lawful
  have slots : ∀ slot block, replica.blockstore.get slot = some block → block.view = slot :=
    fun slot block found => (sourced.slots slot block found).1
  obtain ⟨⟨stop, reached, continues⟩, unmarked⟩ := pending.continues sourced.root
    (fun slot block found above => sourced.slot_proposal found above) valid
  have fresh : ∀ other ∈ views, other ∉ replica.executedBlocks.map Block.view := by
    intro other member executed
    obtain ⟨-, block, found, isUnmarked⟩ := unmarked other member
    rw [(executing.marked other block found).mpr executed] at isUnmarked
    cases isUnmarked
  have reachedExecuted : stop = 0 ∨ stop ∈ replica.executedBlocks.map Block.view :=
    reached.imp_right fun ⟨block, found, isMarked⟩ =>
      (executing.marked stop block found).mp isMarked
  have before : replica.executedBlocks.map Block.view = [] ∨ ∃ top,
      ((others.join replica).chain n).Committed top ∧
        ((others.join replica).chain n).Chain top (replica.executedBlocks.map Block.view) :=
    executing.committed.imp_left fun empty => by rw [empty, map_nil]
  rcases lawful.extend before committed reachedExecuted continues fresh with nothing | isChain
  · subst nothing
    simp only [foldlM_nil, pure_ok] at run
    exact run ▸ executing
  have distinct : views.Nodup := by
    have ascending := (lawful.chain_ascending isChain).1
    exact (pairwise_append.mp ascending).2.1.imp ne_of_lt
  obtain ⟨blocks, isViews, executed, stored, store⟩ :=
    executeAll_ok run distinct (fun slot member => (unmarked slot member).2) slots
  have inViews : ∀ block ∈ blocks, block.view ∈ views :=
    fun block member => isViews ▸ List.mem_map_of_mem member
  have sameViews : next.executedBlocks.map Block.view =
      replica.executedBlocks.map Block.view ++ views := by
    rw [executed, map_append, isViews]
  refine ⟨?_, ?_, ?_, .inr ⟨top, committed, sameViews ▸ isChain⟩,
    executeAll_newest executing.newest run⟩
  · intro block member
    rw [executed] at member
    rcases mem_append.mp member with earlier | isNew
    · exact executing.created block earlier
    obtain ⟨isUnmarked, found⟩ := stored block isNew
    have above := (unmarked block.view (inViews block isNew)).1
    obtain ⟨-, id, isProposal⟩ := sourced.slot_proposal found above
    rw [Block.notExecuted_eq isUnmarked] at isProposal
    exact ⟨id, isProposal⟩
  · intro block member
    have isStored : replica.blockstore.get block.view ≠ none := by
      rw [executed] at member
      rcases mem_append.mp member with earlier | isNew
      · exact executing.stored block earlier
      · rw [(stored block isNew).2]
        exact some_ne_none block
    rw [store]
    split
    · simpa using isStored
    · exact isStored
  intro slot block found
  rw [sameViews, mem_append]
  rw [store] at found
  split at found
  · next isView =>
    obtain ⟨unmarkedBlock, -, rfl⟩ := map_eq_some_iff.mp found
    exact ⟨fun _ => .inr isView, fun _ => rfl⟩
  rename_i notView
  rw [executing.marked slot block found]
  exact ⟨.inl, fun either => either.resolve_right notView⟩

theorem Executing.later {before after : Facts P} (executing : Executing before n history replica)
    (grows : before.Grows after) :
    Executing after n history replica where
  created := fun block member =>
    (executing.created block member).imp fun _ isProposal => grows.proposal isProposal
  stored := executing.stored
  marked := executing.marked
  committed := executing.committed.imp_right fun ⟨top, committed, isChain⟩ =>
    ⟨top, grows.committed committed, grows.chain isChain⟩
  newest := executing.newest

/-- The part of `add_and_prepare_block` that executes, for a block that somebody has created. -/
theorem Executing.executeChain (executing : Executing (others.join replica) n history replica)
    (sourced : Sourced (others.base view proposed) history inHand ahead replica)
    (valid : (others.join replica).Valid n) [CollisionFree P] {env : Env P} {id : Nat}
    (isProposal : (others.join replica).proposal id block)
    (justified : block.justification = .quorum accumulator)
    (run : replica.executeChain env block accumulator = .ok next) :
    Executing (others.join next) n history next := by
  rcases executeChain_cases run with rfl | ⟨justification, grand, grandBlock, toExecute, found,
    grandJustified, grandFound, parent, grandParent, collects, executed⟩
  · exact executing
  obtain ⟨views, pending, isViews⟩ := collectToExecute_pending collects
  rw [append_nil] at isViews
  subst isViews
  have above := above_of_justified sourced.root found grandJustified
  obtain ⟨atView, id', isJustification⟩ := sourced.slot_proposal found above
  have committed := chain_committed valid isProposal isJustification justified atView
    grandJustified parent grandParent (sourced.slot_names grandFound)
  rw [(sourced.slots _ _ grandFound).1] at pending
  have after := executing.executeAll sourced valid committed pending executed
  exact after.later (Facts.join_grows others (executeAll_executed executed).grows)

/-- A block is stored in a slot that was empty, so nothing executed is overwritten. -/
theorem Executing.insertBlock {facts : Facts P} (executing : Executing facts n history replica)
    (run : replica.insertBlock block.notExecuted = .ok next) : Executing facts n history next := by
  obtain ⟨blockstore, inserted, rfl⟩ := insertBlock_ok run
  obtain ⟨free, slots⟩ := Blockstore.insert_ok inserted
  have notExecuted : block.view ∉ replica.executedBlocks.map Block.view := by
    intro executed
    obtain ⟨other, member, sameView⟩ := List.mem_map.mp executed
    exact executing.stored other member (sameView ▸ free)
  refine { executing with stored := ?_, marked := ?_ }
  · intro other member
    rw [slots]
    split
    · exact some_ne_none _
    · exact executing.stored other member
  intro slot other found
  rw [slots] at found
  split at found
  · next atView =>
    cases found
    rw [atView]
    exact ⟨fun impossible => (by cases impossible), fun executed => absurd executed notExecuted⟩
  · exact executing.marked slot other found

end Executing

end Replica

end Abcperf.Damysus
