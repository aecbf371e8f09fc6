import Abcperf.Damysus.Calls
import Abcperf.Damysus.Replica

/-! How the handlers of a replica are made of smaller steps. An invariant that every step keeps is
one of the handlers; in between a block may be in hand, the vote for it may be given while it is not
stored yet, and the view may be over but not left. -/

namespace Abcperf.Damysus

open Lib Lib.Outcome List Option

variable {P : Platform}

namespace Replica

structure Grows (before after : Replica P) : Prop where
  n : after.n = before.n
  me : after.me = before.me
  log : before.enclave.log <+: after.enclave.log
  proposed : before.proposed <+: after.proposed

namespace Grows

theorem refl (replica : Replica P) : replica.Grows replica :=
  ⟨rfl, rfl, prefix_rfl, prefix_rfl⟩

theorem trans {first second third : Replica P} (left : first.Grows second)
    (right : second.Grows third) : first.Grows third :=
  ⟨right.n.trans left.n, right.me.trans left.me, left.log.trans right.log,
    left.proposed.trans right.proposed⟩

theorem of_eq {before after : Replica P} (n : after.n = before.n) (me : after.me = before.me)
    (log : after.enclave.log = before.enclave.log) (proposed : after.proposed = before.proposed) :
    before.Grows after :=
  ⟨n, me, log ▸ prefix_rfl, proposed ▸ prefix_rfl⟩

end Grows

variable {replica next : Replica P} {env : Env P} {block : Block P}
  {accumulator prepare : SignedCommitment P}

def Alike (before after : Blockstore P) : Prop :=
  ∀ slot, (after.get slot).map Block.notExecuted = (before.get slot).map Block.notExecuted

section

variable {before after : Blockstore P} (alike : Alike before after)

include alike

theorem Alike.none {slot : Nat} : after.get slot = none ↔ before.get slot = none := by
  rw [← map_eq_none_iff (f := Block.notExecuted), alike slot, map_eq_none_iff]

theorem Alike.some {slot : Nat} (found : after.get slot = some block) :
    ∃ earlier, before.get slot = some earlier ∧ earlier.notExecuted = block.notExecuted := by
  have same := alike slot
  rw [found, map_some, eq_comm, map_eq_some_iff] at same
  exact same

theorem Alike.symm : Alike after before := fun slot => (alike slot).symm

end

/-- Executing marks blocks of the store, keeps a record of them and delivers transactions. -/
inductive Executed (before : Replica P) : Replica P → Prop
  | intro {blockstore : Blockstore P} {executedBlocks : List (Block P)} {delivery : List P.Tx}
      (alike : Alike before.blockstore blockstore)
      (stored : ∀ block ∈ executedBlocks, block ∈ before.executedBlocks ∨
        ∃ slot earlier, before.blockstore.get slot = some earlier ∧
          earlier.notExecuted = block.notExecuted)
      (executedTransactions : Nat → Option Nat) :
      Executed before { before with
        blockstore
        executedTransactions
        executedBlocks
        output := { before.output with output := { before.output.output with delivery } } }

namespace Executed

theorem refl (replica : Replica P) : replica.Executed replica :=
  .intro (fun _ => rfl) (fun _ => .inl) replica.executedTransactions

theorem alike (executed : replica.Executed next) : Alike replica.blockstore next.blockstore := by
  cases executed with
  | intro alike stored executedTransactions => exact alike

theorem trans {first second third : Replica P} (left : first.Executed second)
    (right : second.Executed third) : first.Executed third := by
  cases left with
  | intro alike stored executedTransactions =>
    cases right with
    | intro alikeToo storedToo executedTransactionsToo =>
      refine .intro (fun slot => (alikeToo slot).trans (alike slot)) ?_ executedTransactionsToo
      intro block member
      rcases storedToo block member with earlier | ⟨slot, middle, found, same⟩
      · exact stored block earlier
      · obtain ⟨earlier, foundEarlier, sameEarlier⟩ := alike.some found
        exact .inr ⟨slot, earlier, foundEarlier, sameEarlier.trans same⟩

theorem grows (executed : replica.Executed next) : replica.Grows next := by
  cases executed with
  | intro alike stored executedTransactions => exact Grows.of_eq rfl rfl rfl rfl

end Executed

theorem executeTransactions_executed (txs : List P.Tx) (replica : Replica P) :
    replica.Executed (txs.foldl executeTransaction replica) := by
  induction txs generalizing replica with
  | nil => exact .refl replica
  | cons tx rest ih =>
    have first : replica.Executed (replica.executeTransaction tx) := by
      unfold executeTransaction
      split
      · exact .refl replica
      · exact .intro (fun _ => rfl) (fun _ => .inl) _
    exact first.trans (ih _)

theorem executing_executed {slot : Nat} (found : replica.blockstore.get slot = some block) :
    replica.Executed (block.transactions.foldl executeTransaction { replica with
      blockstore := replica.blockstore.execute slot
      executedBlocks := replica.executedBlocks ++ [block] }) := by
  have marked : replica.Executed { replica with
      blockstore := replica.blockstore.execute slot
      executedBlocks := replica.executedBlocks ++ [block] } := by
    refine .intro (fun other => ?_) (fun other member => ?_) _
    · simp only [Blockstore.get_execute]
      split
      · cases replica.blockstore.get other <;> rfl
      · rfl
    refine (mem_append.mp member).imp_right fun isBlock => ?_
    rw [mem_singleton.mp isBlock]
    exact ⟨slot, block, found, rfl⟩
  exact marked.trans (executeTransactions_executed _ _)

theorem executeAll_executed {views : List Nat}
    (run : views.foldlM executeBlock replica = .ok next) : replica.Executed next := by
  refine foldlM_keeps replica.Executed executeBlock views replica next ?_ (.refl replica) run
  intro current slot after _ grown step
  simp only [executeBlock, bind_ok, unwrap_ok, pure_ok] at step
  obtain ⟨block, found, rfl⟩ := step
  exact grown.trans (executing_executed found)

theorem executeChain_cases (run : replica.executeChain env block accumulator = .ok next) :
    next = replica ∨ ∃ justificationBlock grandJustification grandJustificationBlock toExecute,
      replica.blockstore.get accumulator.getBlockView = some justificationBlock ∧
      justificationBlock.justification = .quorum grandJustification ∧
      replica.blockstore.get grandJustification.getBlockView = some grandJustificationBlock ∧
      block.parent = some justificationBlock.hashValue ∧
      justificationBlock.parent = some grandJustificationBlock.hashValue ∧
      collectToExecute replica.blockstore env.fuel grandJustificationBlock.view [] =
        .ok (some toExecute) ∧
      toExecute.foldlM executeBlock replica = .ok next := by
  unfold executeChain at run
  split at run
  · exact .inl (pure_ok.mp run).symm
  rename_i justificationBlock found
  split at run
  · exact .inl (pure_ok.mp run).symm
  rename_i grandJustification isQuorum
  split at run
  · exact .inl (pure_ok.mp run).symm
  rename_i grandJustificationBlock foundGrand
  split at run
  · next parents =>
    simp only [Block.hasParent, decide_eq_true_eq] at parents
    simp only [tryExecuteFrom, bind_ok] at run
    obtain ⟨collected, collects, run⟩ := run
    cases collected with
    | none => exact .inl (pure_ok.mp run).symm
    | some toExecute =>
      exact .inr ⟨justificationBlock, grandJustification,
        grandJustificationBlock, toExecute, found, isQuorum, foundGrand,
        parents.1, parents.2, collects, run⟩
  · exact .inl (pure_ok.mp run).symm

theorem executeChain_executed (run : replica.executeChain env block accumulator = .ok next) :
    replica.Executed next := by
  rcases executeChain_cases run with rfl | ⟨_, _, _, toExecute, _, _, _, _, _, _, executed⟩
  · exact .refl _
  · exact executeAll_executed executed

theorem requestBlock_grows (replica : Replica P) (view : Nat) (hash : P.BlockHash) :
    replica.Grows (replica.requestBlock view hash) := by
  unfold requestBlock
  split
  · exact Grows.refl replica
  · exact Grows.of_eq rfl rfl rfl rfl

/-- Looking for the blocks below a new one sends at most a request for each of them. -/
theorem requestParent_cases (run : replica.requestParent block = .ok next) :
    next = replica ∨ ∃ view hash, next = replica.requestBlock view hash := by
  unfold requestParent at run
  split at run
  · exact .inl (pure_ok.mp run).symm
  rename_i hash _
  obtain ⟨view, -, run⟩ := bind_ok.mp run
  split at run
  · exact .inr ⟨view, hash, (pure_ok.mp run).symm⟩
  · exact .inl (pure_ok.mp run).symm

theorem requestJustification_cases (replica : Replica P) (accumulator : SignedCommitment P) :
    replica.requestJustification accumulator = replica ∨
      ∃ view hash, replica.requestJustification accumulator = replica.requestBlock view hash := by
  unfold requestJustification
  split
  · exact .inr ⟨_, _, rfl⟩
  · exact .inl rfl

theorem insertBlock_ok (run : replica.insertBlock block = .ok next) :
    ∃ blockstore, replica.blockstore.insert block = .ok blockstore ∧
      next = { replica with blockstore } := by
  simp only [insertBlock, bind_ok, pure_ok] at run
  obtain ⟨blockstore, inserted, rfl⟩ := run
  exact ⟨blockstore, inserted, rfl⟩

theorem insertBlock_grows (run : replica.insertBlock block = .ok next) : replica.Grows next := by
  obtain ⟨blockstore, -, rfl⟩ := insertBlock_ok run
  exact Grows.of_eq rfl rfl rfl rfl

theorem prepareBlock_ok (run : replica.prepareBlock block accumulator = .ok (next, prepare)) :
    ∃ enclave, next = { replica with enclave } ∧
      replica.enclave.call (.prepare block.view block.hashValue block.justification block.parent
        accumulator.getBlockHash) = .ok (enclave, .ok prepare) := by
  simp only [prepareBlock, bind_ok, expect_ok, pure_ok, Prod.exists, Prod.mk.injEq] at run
  obtain ⟨enclave, result, called, signed, rfl, rfl, rfl⟩ := run
  exact ⟨enclave, rfl, called⟩

theorem prepareBlock_grows (run : replica.prepareBlock block accumulator = .ok (next, prepare)) :
    replica.Grows next ∧ ∃ record ∈ next.enclave.log, record.result = prepare := by
  obtain ⟨enclave, rfl, called⟩ := prepareBlock_ok run
  obtain ⟨log, -⟩ := Enclave.call_ok called
  have logged : ∃ record ∈ enclave.log, record.result = prepare := by
    rw [log]
    exact ⟨_, mem_append_right _ (mem_singleton_self _), rfl⟩
  exact ⟨⟨rfl, rfl, log ▸ prefix_append _ _, prefix_rfl⟩, logged⟩

theorem accumulate_ok (run : replica.accumulate env = .ok (next, accumulator)) :
    ∃ enclave, next = { replica with
        callTryCreateBlock := false, commitments := env.sort replica.commitments, enclave } ∧
      replica.enclave.call (.accumulate (env.sort replica.commitments)) =
        .ok (enclave, .ok accumulator) := by
  simp only [accumulate, bind_ok, expect_ok, pure_ok, Prod.exists, Prod.mk.injEq] at run
  obtain ⟨enclave, result, called, signed, rfl, rfl, rfl⟩ := run
  exact ⟨enclave, rfl, called⟩

theorem accumulate_collected (run : replica.accumulate env = .ok (next, accumulator)) :
    replica.commitments ≠ [] := by
  obtain ⟨enclave, -, called⟩ := accumulate_ok run
  intro none
  have sorted : env.sort replica.commitments = [] :=
    List.Perm.eq_nil (none ▸ (env.sorts replica.commitments).1)
  exact (Enclave.call_ok called).2.accumulation.1 sorted

theorem mem_unicast {pending : UnreflectedOutput P} {receiver : Nat}
    {message peerMessage : PeerMessage P}
    (member : peerMessage ∈ (pending.unicast receiver message).reflectionMessages) :
    peerMessage ∈ pending.reflectionMessages ∨ peerMessage = message := by
  unfold UnreflectedOutput.unicast at member
  split at member
  · simpa using member
  · exact .inl member

theorem enterNextView_ok {timeout : Bool} (run : replica.enterNextView env timeout = .ok next) :
    ∃ viewTimeout lastRoundFinishedAt, next = { replica with
      viewTimeout
      view := replica.view + 1
      commitmentSenders := IdSet.empty
      commitments := []
      lastRoundFinishedAt
      output := replica.output.cancelBlockTimeout.setViewTimeout viewTimeout } := by
  simp only [enterNextView, bind_ok, pure_ok] at run
  obtain ⟨viewTimeout, -, rfl⟩ := run
  exact ⟨viewTimeout, _, rfl⟩

theorem enterNextView_grows {timeout : Bool} (run : replica.enterNextView env timeout = .ok next) :
    replica.Grows next := by
  obtain ⟨viewTimeout, lastRoundFinishedAt, rfl⟩ := enterNextView_ok run
  exact Grows.of_eq rfl rfl rfl rfl

theorem buildBlock_ok (run : replica.buildBlock accumulator = .ok block) :
    ∃ view, replica.view = view + 1 ∧ block = .new replica.me replica.view (.quorum accumulator)
      ((replica.blockstore.get view).map Block.hashValue)
      replica.pendingClientRequests.copyFront := by
  simp only [buildBlock, bind_ok, unwrap_ok, pure_ok] at run
  obtain ⟨view, isPredecessor, rfl⟩ := run
  refine ⟨view, ?_, rfl⟩
  cases h : replica.view with
  | zero => simp [h, View.getPredecessor] at isPredecessor
  | succ before =>
    simp only [h, View.getPredecessor, some.injEq] at isPredecessor
    omega

/-- The steps between two views. `Inv` holds whenever the replica waits for something, `Pre` when a
block is in hand, `Voted` when the vote for it is given, and `Mid` when the view is over. `Offered`
holds of a commitment in hand, and `Leaving` when the replica gives up its view. -/
structure StepRule (env : Env P) (Inv : Replica P → Prop) (Pre Voted : Replica P → Block P → Prop)
    (Mid : Replica P → Prop) (Offered : Replica P → SignedCommitment P → Prop)
    (Leaving : Replica P → Prop) : Prop where
  request : ∀ {replica block view hash}, Pre replica block →
    Pre (replica.requestBlock view hash) block
  late : ∀ {replica next block accumulator}, Pre replica block → replica.view ≠ block.view →
    block.justification = .quorum accumulator →
    replica.insertBlock block.notExecuted = .ok next → Inv next
  vote : ∀ {replica next block accumulator prepare}, Pre replica block →
    replica.view = block.view → block.justification = .quorum accumulator →
    replica.prepareBlock block.notExecuted accumulator = .ok (next, prepare) →
    Voted (next.unicast (View.getViewLeader prepare.usableView next.n)
      (.commitment prepare)) block
  execute : ∀ {replica next block accumulator}, Voted replica block →
    block.justification = .quorum accumulator →
    replica.executeChain env block.notExecuted accumulator = .ok next → Voted next block
  store : ∀ {replica next block}, Voted replica block →
    replica.insertBlock block.notExecuted = .ok next → Mid next
  enter : ∀ {replica next timeout}, Mid replica → replica.enterNextView env timeout = .ok next →
    Inv next
  popBlock : ∀ {replica block rest}, Inv replica → replica.storedBlocks = block :: rest →
    block.view = replica.view → Pre { replica with storedBlocks := rest } block
  popCommitment : ∀ {replica commitment rest}, Inv replica →
    replica.storedCommitments = commitment :: rest →
    Inv { replica with storedCommitments := rest } ∧
      Offered { replica with storedCommitments := rest } commitment
  collect : ∀ {replica commitment}, Inv replica → Offered replica commitment →
    commitment.usableView = replica.view → replica.isViewLeadByMe replica.view = true →
    replica.commitmentSenders.contains commitment.getCreator = false →
    Inv (replica.collectCommitment commitment)
  await : ∀ {replica timeout}, Inv replica → replica.quorum ≤ replica.commitments.length →
    Inv { replica with
    callTryCreateBlock := true, output := replica.output.setBlockTimeout timeout }
  propose : ∀ {replica next accumulator block}, Inv replica →
    replica.accumulate env = .ok (next, accumulator) →
    next.filterPending.buildBlock accumulator = .ok block →
    Pre { next.filterPending with proposed := next.filterPending.proposed ++ [block] } block
  announce : ∀ {replica block prepare}, Inv replica → block ∈ replica.proposed →
    (∃ record ∈ replica.enclave.log, record.result = prepare) →
    Inv (replica.broadcast (.newBlock block prepare))
  reSign : ∀ {replica enclave newView}, Inv replica → Leaving replica →
    replica.enclave.call .reSignLastPrepared = .ok (enclave, .ok newView) →
    Mid ({ replica with enclave }.unicast
      (View.getViewLeader newView.usableView replica.n) (.commitment newView))

section Traversal

variable {env : Env P} {Inv : Replica P → Prop} {Pre Voted : Replica P → Block P → Prop}
  {Mid : Replica P → Prop} {Offered : Replica P → SignedCommitment P → Prop}
  {Leaving : Replica P → Prop}

def Leaves (Mid Inv : Replica P → Prop) (transition : Replica P → Bool → Outcome (Replica P)) :
    Prop :=
  ∀ {replica timeout next}, Mid replica → transition replica timeout = .ok next →
    Inv next ∧ replica.Grows next

variable {transition : Replica P → Bool → Outcome (Replica P)} {replica next : Replica P}

section

variable (rule : StepRule env Inv Pre Voted Mid Offered Leaving)
  (leaves : Leaves Mid Inv transition)

include rule leaves

theorem addAndPrepareBlock_keeps {block : Block P} {prepare : Option (SignedCommitment P)}
    (before : Pre replica block)
    (run : replica.addAndPrepareBlock transition env block = .ok (next, prepare)) :
    Inv next ∧ replica.Grows next ∧
      ∀ signed, prepare = some signed → ∃ record ∈ next.enclave.log, record.result = signed := by
  simp only [addAndPrepareBlock, bind_ok, unwrap_ok] at run
  obtain ⟨accumulator, isAccumulator, requested, requestedOk, run⟩ := run
  have isQuorum := Justification.getCommitment_eq_some.mp isAccumulator
  have asked : Pre requested block ∧ replica.Grows requested := by
    rcases requestParent_cases requestedOk with rfl | ⟨view, hash, rfl⟩
    · exact ⟨before, Grows.refl _⟩
    · exact ⟨rule.request before, requestBlock_grows _ _ _⟩
  have askedTwice : Pre (requested.requestJustification accumulator) block ∧
      replica.Grows (requested.requestJustification accumulator) := by
    rcases requestJustification_cases requested accumulator with same | ⟨view, hash, same⟩
    · rw [same]
      exact asked
    · rw [same]
      exact ⟨rule.request asked.1, asked.2.trans (requestBlock_grows _ _ _)⟩
  obtain ⟨ready, grown⟩ := askedTwice
  split at run
  · next late =>
    simp only [bind_ok, pair_ok] at run
    obtain ⟨stored, storedOk, rfl, rfl⟩ := run
    refine ⟨rule.late ready late isQuorum storedOk, grown.trans (insertBlock_grows storedOk), ?_⟩
    simp
  rename_i inView
  simp only [bind_ok, pure_ok, Prod.exists, Prod.mk.injEq] at run
  obtain ⟨voted, signed, votedOk, executed, executedOk, stored, storedOk, left, leftOk, rfl,
    rfl⟩ := run
  have votes := rule.vote ready (not_not.mp inView) isQuorum votedOk
  have executes := rule.execute votes isQuorum executedOk
  obtain ⟨rests, grownLast⟩ := leaves (rule.store executes storedOk) leftOk
  obtain ⟨grownVote, record, logged, isResult⟩ := prepareBlock_grows votedOk
  have grownSent : voted.Grows (voted.unicast
      (View.getViewLeader signed.usableView voted.n) (.commitment signed)) :=
    Grows.of_eq rfl rfl rfl rfl
  have grownAfter := grownSent.trans ((Executed.grows <| executeChain_executed executedOk).trans
    ((insertBlock_grows storedOk).trans grownLast))
  refine ⟨rests, grown.trans (grownVote.trans grownAfter), ?_⟩
  intro other isSigned
  cases isSigned
  exact ⟨record, grownAfter.log.subset logged, isResult⟩

theorem createBlock_keeps (before : Inv replica)
    (run : replica.createBlock transition env = .ok next) : Inv next ∧ replica.Grows next := by
  simp only [createBlock, bind_ok, pure_ok, Prod.exists, unwrap_ok] at run
  obtain ⟨accumulated, accumulator, accumulatedOk, block, built, added, prepare, addedOk, signed,
    isSigned, -, -, rfl⟩ := run
  have ready := rule.propose before accumulatedOk built
  obtain ⟨rests, grown, logged⟩ := addAndPrepareBlock_keeps rule leaves ready addedOk
  obtain ⟨enclave, rfl, called⟩ := accumulate_ok accumulatedOk
  obtain ⟨log, -⟩ := Enclave.call_ok called
  refine ⟨rule.announce rests (grown.proposed.subset ?_) (logged signed isSigned), ?_⟩
  · exact mem_append_right _ (mem_singleton_self _)
  have grownFirst : replica.Grows { replica with
      callTryCreateBlock := false, commitments := env.sort replica.commitments, enclave } :=
    ⟨rfl, rfl, by rw [log]; exact prefix_append _ _, prefix_rfl⟩
  refine grownFirst.trans (Grows.trans ?_ (grown.trans (Grows.of_eq rfl rfl rfl rfl)))
  exact ⟨rfl, rfl, prefix_rfl, prefix_append _ _⟩

theorem applyCommitment_keeps {commitment : SignedCommitment P} (before : Inv replica)
    (offered : Offered replica commitment) (usable : commitment.usableView = replica.view)
    (leads : replica.isViewLeadByMe replica.view = true)
    (run : replica.applyCommitment transition env commitment = .ok next) :
    Inv next ∧ replica.Grows next := by
  have unchanged : ∀ {other}, (pure replica : Outcome (Replica P)) = .ok other →
      Inv other ∧ replica.Grows other := by
    intro other same
    rw [← pure_ok.mp same]
    exact ⟨before, Grows.refl replica⟩
  have grown : replica.Grows (replica.collectCommitment commitment) := Grows.of_eq rfl rfl rfl rfl
  unfold applyCommitment at run
  split at run
  · exact unchanged run
  rename_i fresh
  have collected := rule.collect before offered usable leads (Bool.eq_false_of_not_eq_true fresh)
  split at run
  · exact unchanged run
  split at run
  · rw [← pure_ok.mp run]
    exact ⟨collected, grown⟩
  rename_i many
  simp only [proposeOrWait, bind_ok] at run
  obtain ⟨propose, -, run⟩ := run
  split at run
  · obtain ⟨rests, grownMore⟩ := createBlock_keeps rule leaves collected run
    exact ⟨rests, grown.trans grownMore⟩
  · rw [← pure_ok.mp run]
    exact ⟨rule.await collected (not_lt.mp many), grown.trans (Grows.of_eq rfl rfl rfl rfl)⟩

theorem applyStored_keeps (fuel : Nat) {replica next : Replica P} (before : Inv replica)
    (run : applyStored transition env fuel replica = .ok next) : Inv next ∧ replica.Grows next := by
  induction fuel generalizing replica next with
  | zero => simp [applyStored] at run
  | succ fuel ih =>
    simp only [applyStored] at run
    split at run
    · rw [← pure_ok.mp run]
      exact ⟨before, Grows.refl replica⟩
    rename_i commitment rest isHead
    obtain ⟨popped, offered⟩ := rule.popCommitment before isHead
    have grown : replica.Grows { replica with storedCommitments := rest } :=
      Grows.of_eq rfl rfl rfl rfl
    split at run
    · obtain ⟨rests, grownMore⟩ := ih popped run
      exact ⟨rests, grown.trans grownMore⟩
    rename_i current
    split at run
    · rw [← pure_ok.mp run]
      exact ⟨before, Grows.refl replica⟩
    rename_i notAhead
    simp only [not_or, not_not] at current
    have usable : commitment.usableView = replica.view := by omega
    obtain ⟨applied, appliedOk, run⟩ := bind_ok.mp run
    obtain ⟨middle, grownMiddle⟩ := applyCommitment_keeps rule leaves popped offered
      usable (usable ▸ current.2) appliedOk
    obtain ⟨rests, grownMore⟩ := ih middle run
    exact ⟨rests, grown.trans (grownMiddle.trans grownMore)⟩

theorem prepareStored_keeps (before : Inv replica)
    (run : replica.prepareStored transition env = .ok next) : Inv next ∧ replica.Grows next := by
  unfold prepareStored at run
  split at run
  · rw [← pure_ok.mp run]
    exact ⟨before, Grows.refl replica⟩
  rename_i block rest isHead
  split at run
  · next inView =>
    simp only [bind_ok, pure_ok, Prod.exists] at run
    obtain ⟨added, prepare, addedOk, rfl⟩ := run
    obtain ⟨rests, grown, -⟩ := addAndPrepareBlock_keeps rule leaves
      (rule.popBlock before isHead inView) addedOk
    have popped : replica.Grows { replica with storedBlocks := rest } :=
      Grows.of_eq rfl rfl rfl rfl
    exact ⟨rests, popped.trans grown⟩
  · rw [← pure_ok.mp run]
    exact ⟨before, Grows.refl replica⟩

end

theorem roundTransition_keeps (rule : StepRule env Inv Pre Voted Mid Offered Leaving) :
    ∀ fuel : Nat, Leaves Mid Inv (roundTransition env fuel) := by
  intro fuel
  induction fuel with
  | zero =>
    intro replica timeout next _ run
    simp [roundTransition] at run
  | succ fuel ih =>
    intro replica timeout next before run
    simp only [roundTransition, bind_ok] at run
    obtain ⟨entered, enteredOk, prepared, preparedOk, applied⟩ := run
    have atRest := rule.enter before enteredOk
    obtain ⟨middle, grownMiddle⟩ := prepareStored_keeps rule ih atRest preparedOk
    obtain ⟨rests, grown⟩ := applyStored_keeps rule ih fuel middle applied
    exact ⟨rests, (enterNextView_grows enteredOk).trans (grownMiddle.trans grown)⟩

theorem newView_keeps (rule : StepRule env Inv Pre Voted Mid Offered Leaving) (before : Inv replica)
    (leaving : Leaving replica) (run : replica.newView env = .ok next) :
    Inv next ∧ replica.Grows next := by
  simp only [newView, bind_ok, expect_ok, Prod.exists] at run
  obtain ⟨enclave, result, called, signed, rfl, run⟩ := run
  obtain ⟨rests, grown⟩ := roundTransition_keeps rule env.fuel
    (rule.reSign before leaving called) run
  refine ⟨rests, Grows.trans ?_ grown⟩
  obtain ⟨log, -⟩ := Enclave.call_ok called
  exact ⟨rfl, rfl, by rw [unicast, log]; exact prefix_append _ _, prefix_rfl⟩

end Traversal

end Replica

end Abcperf.Damysus
