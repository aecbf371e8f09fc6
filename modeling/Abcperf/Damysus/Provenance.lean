import Abcperf.Damysus.Dispatch
import Abcperf.Damysus.NonEquivocation

/-! Where the blocks of a replica come from. Every block that a replica stores, keeps for later or
hands on is one it was given or one it has created itself, and it has created a block only in a view
that it leads and voted for it there. -/

namespace Abcperf.Damysus

open Heaps EnclaveAutomata Enclave List Option

variable {P : Platform}

def VotedFor (log : List (Record P)) (block : Block P) : Prop :=
  ∃ record ∈ log, record.result.isUsig = true ∧ record.result.isPrepare = true ∧
    record.result.getView = block.view ∧ record.result.getBlockHash = block.hashValue

theorem VotedFor.later {before after : List (Record P)} {block : Block P}
    (voted : VotedFor before block) (grows : before <+: after) : VotedFor after block := by
  obtain ⟨record, member, facts⟩ := voted
  exact ⟨record, grows.subset member, facts⟩

def Message.block : Message P → Option (Block P)
  | .newBlock block _ => some block
  | .requestedBlock block => some block
  | _ => none

def sentBy (output : Output P) : List (PeerMessage P) :=
  output.broadcasts ++ output.unicasts.map Prod.snd

@[simp] theorem mem_sentBy_join (first second : Output P) (message : PeerMessage P) :
    message ∈ sentBy (first.join second) ↔ message ∈ sentBy first ∨ message ∈ sentBy second := by
  simp only [sentBy, Output.join, map_append, mem_append]
  tauto

/-- What is given from outside while a call is made: the blocks that are known without the replica,
and the view and the blocks it had created when the call began. -/
structure Base (P : Platform) where
  known : Block P → Prop
  view : Nat
  proposed : List (Block P)

namespace Replica

/-- Everything the replica has sent, also to itself, and also what has not been taken yet. -/
def sent (history : Output P) (replica : Replica P) : List (PeerMessage P) :=
  sentBy history ++ sentBy replica.output.output ++ replica.output.reflectionMessages

@[simp] theorem mem_sent_broadcast (history : Output P) (replica : Replica P)
    (message : Message P) (other : PeerMessage P) :
    other ∈ (replica.broadcast message).sent history ↔
      other ∈ replica.sent history ∨ other = ⟨replica.me, message⟩ := by
  simp only [sent, broadcast, UnreflectedOutput.broadcast, sentBy, mem_append, mem_singleton]
  tauto

@[simp] theorem mem_sent_unicast (history : Output P) (replica : Replica P) (receiver : Nat)
    (message : Message P) (other : PeerMessage P) :
    other ∈ (replica.unicast receiver message).sent history ↔
      other ∈ replica.sent history ∨ other = ⟨replica.me, message⟩ := by
  simp only [sent, unicast, UnreflectedOutput.unicast]
  split
  · simp only [mem_append, mem_singleton]
    tauto
  · simp only [sentBy, map_append, map_singleton, mem_append, mem_singleton]
    tauto

def Known (base : Base P) (replica : Replica P) (block : Block P) : Prop :=
  base.known block.notExecuted ∨ block.notExecuted ∈ replica.proposed

def Fetched (base : Base P) (replica : Replica P) (block : Block P) : Prop :=
  block.justification = .genesis ∨ replica.Known base block

variable {base : Base P} {replica : Replica P} {history : Output P}

theorem Known.later {before after : Replica P} {block : Block P} (known : before.Known base block)
    (grows : before.Grows after) : after.Known base block :=
  known.imp id fun member => grows.proposed.subset member

theorem Fetched.later {before after : Replica P} {block : Block P}
    (fetched : before.Fetched base block) (grows : before.Grows after) : after.Fetched base block :=
  fetched.imp id fun known => known.later grows

structure Own (n me : Nat) (block : Block P) : Prop where
  creator : block.creator = me
  leads : View.getViewLeader block.view n = me
  positive : 0 < block.view
  unhashed : block.precomputedHash = none
  unexecuted : block.executed = false

/-- `inHand` may be a block that the replica has created and not voted for yet; `ahead` is one
between the vote in a view and leaving it. -/
structure Sourced (base : Base P) (history : Output P) (inHand : Option (Block P)) (ahead : Nat)
    (replica : Replica P) : Prop where
  traced : replica.enclave.Traced replica.me
  inStep : replica.enclave.automata.view = replica.view + ahead
  later : base.view ≤ replica.view
  own : ∀ block ∈ replica.proposed, Own replica.n replica.me block
  voted : ∀ block ∈ replica.proposed, inHand = some block ∨ VotedFor replica.enclave.log block
  based : ∀ block ∈ replica.proposed, ∃ record ∈ replica.enclave.log,
    record.result.isAccumulator = true ∧ block.justification = .quorum record.result
  ascending : replica.proposed.Pairwise fun first second => first.view < second.view
  new : ∀ block ∈ replica.proposed, block ∈ base.proposed ∨ base.view ≤ block.view
  root : (replica.blockstore.get 0).map Block.notExecuted = some Block.genesis
  slots : ∀ view block, replica.blockstore.get view = some block → block.view = view ∧
    (0 < view → replica.Known base block)
  stored : ∀ block ∈ replica.storedBlocks, replica.Known base block
  leads : replica.commitments ≠ [] → replica.isViewLeadByMe replica.view = true
  sent : ∀ message ∈ replica.sent history, ∀ block, message.message.block = some block →
    replica.Fetched base block

namespace Sourced

variable {base : Base P} {history : Output P} {inHand : Option (Block P)} {ahead : Nat}
  {replica next : Replica P}

section

variable (sourced : Sourced base history inHand ahead replica)

include sourced

theorem broadcast (message : Message P)
    (carries : ∀ block, message.block = some block → replica.Fetched base block) :
    Sourced base history inHand ahead (replica.broadcast message) := by
  refine { sourced with sent := fun other member => ?_ }
  rcases (mem_sent_broadcast history replica message other).mp member with earlier | rfl
  · exact sourced.sent other earlier
  · exact carries

theorem unicast (receiver : Nat) (message : Message P)
    (carries : ∀ block, message.block = some block → replica.Fetched base block) :
    Sourced base history inHand ahead (replica.unicast receiver message) := by
  refine { sourced with sent := fun other member => ?_ }
  rcases (mem_sent_unicast history replica receiver message other).mp member with earlier | rfl
  · exact sourced.sent other earlier
  · exact carries

theorem requestBlock (view : Nat) (hash : P.BlockHash) :
    Sourced base history inHand ahead (replica.requestBlock view hash) := by
  unfold Replica.requestBlock
  split
  · exact sourced
  have booked : Sourced base history inHand ahead { replica with
      requestedBlocks := Function.update replica.requestedBlocks view (some hash) } :=
    { sourced with }
  exact booked.broadcast _ (by simp [Message.block])

end

variable {signed accumulator : SignedCommitment P} {env : Env P}

theorem called (sourced : Sourced base history inHand ahead replica) {request : EnclaveCall P}
    {enclave : Enclave P} {after : Nat}
    (call : replica.enclave.call request = .ok (enclave, .ok signed))
    (inStep : enclave.automata.view = replica.view + after) :
    Sourced base history inHand after { replica with enclave } := by
  obtain ⟨log, -⟩ := call_ok call
  have grows : replica.enclave.log <+: enclave.log := log ▸ prefix_append _ _
  refine { sourced with
    traced := call_traced sourced.traced call
    inStep := inStep
    voted := fun block member => (sourced.voted block member).imp id fun voted => voted.later grows
    based := fun block member => ?_ }
  obtain ⟨record, logged, isBase⟩ := sourced.based block member
  exact ⟨record, grows.subset logged, isBase⟩

theorem votes (sourced : Sourced base history inHand 0 replica) {request : EnclaveCall P}
    {enclave : Enclave P} (call : replica.enclave.call request = .ok (enclave, .ok signed))
    (isVote : ∀ commitments, request ≠ .accumulate commitments) :
    Sourced base history inHand 1 { replica with enclave } := by
  obtain ⟨-, signs⟩ := call_ok call
  have inStep := sourced.inStep
  have moved := (signs.vote (signs.usig isVote)).2
  exact sourced.called call (by omega)

theorem settled (sourced : Sourced base history inHand ahead replica)
    (voted : ∀ block ∈ replica.proposed, VotedFor replica.enclave.log block) :
    Sourced base history none ahead replica :=
  { sourced with voted := fun block member => .inr (voted block member) }

theorem carrying (sourced : Sourced base history none ahead replica) (block : Block P) :
    Sourced base history (some block) ahead replica := by
  refine { sourced with voted := fun other member => ?_ }
  rcases sourced.voted other member with impossible | voted
  · cases impossible
  · exact .inr voted

theorem insertBlock (sourced : Sourced base history inHand ahead replica) {block : Block P}
    (known : replica.Known base block) (run : replica.insertBlock block.notExecuted = .ok next) :
    Sourced base history inHand ahead next := by
  obtain ⟨blockstore, inserted, rfl⟩ := insertBlock_ok run
  obtain ⟨free, slots⟩ := Blockstore.insert_ok inserted
  have root : block.notExecuted.view ≠ 0 := by
    intro atRoot
    rw [atRoot] at free
    simpa [free] using sourced.root
  refine { sourced with root := ?_, slots := ?_ }
  · rw [slots, if_neg (Ne.symm root)]
    exact sourced.root
  intro view other found
  rw [slots] at found
  split at found
  · next atView =>
    cases found
    exact ⟨atView.symm, fun _ => known⟩
  · exact sourced.slots view other found

theorem execute (sourced : Sourced base history inHand ahead replica)
    (executed : replica.Executed next) : Sourced base history inHand ahead next := by
  cases executed with
  | intro alike stored executedTransactions =>
    refine { sourced with root := (alike 0).trans sourced.root, slots := ?_ }
    intro view block found
    obtain ⟨earlier, foundEarlier, same⟩ := alike.some found
    obtain ⟨atView, known⟩ := sourced.slots view earlier foundEarlier
    have sameView : earlier.notExecuted.view = block.notExecuted.view := congrArg Block.view same
    unfold Known at known ⊢
    rw [same] at known
    exact ⟨sameView.symm.trans atView, known⟩

theorem enterNextView (sourced : Sourced base history none 1 replica) {timeout : Bool}
    (run : replica.enterNextView env timeout = .ok next) : Sourced base history none 0 next := by
  obtain ⟨viewTimeout, lastRoundFinishedAt, rfl⟩ := enterNextView_ok run
  exact { sourced with
    later := Nat.le_succ_of_le sourced.later
    leads := fun collected => absurd rfl collected }

/-- What the replica has created before, it has voted for in an earlier view. -/
theorem below (sourced : Sourced base history none 0 replica) {block : Block P}
    (created : block ∈ replica.proposed) : block.view < replica.view := by
  rcases sourced.voted block created with impossible | ⟨record, logged, usig, -, inView, -⟩
  · cases impossible
  have := sourced.traced.below record logged
  have := sourced.inStep
  omega

theorem created_unique (sourced : Sourced base history inHand ahead replica) {left right : Block P}
    (isLeft : left ∈ replica.proposed) (isRight : right ∈ replica.proposed)
    (sameView : left.view = right.view) : left = right := by
  have distinct : (replica.proposed.map Block.view).Nodup :=
    pairwise_map.mpr (sourced.ascending.imp ne_of_lt)
  exact inj_on_of_nodup_map distinct isLeft isRight sameView

theorem created (sourced : Sourced base history none 0 replica) {block : Block P}
    (own : Own replica.n replica.me block) (inView : block.view = replica.view)
    (based : ∃ record ∈ replica.enclave.log,
      record.result.isAccumulator = true ∧ block.justification = .quorum record.result) :
    Sourced base history (some block) 0 { replica with proposed := replica.proposed ++
      [block] } := by
  have known : ∀ other, replica.Known base other →
      Known base { replica with proposed := replica.proposed ++ [block] } other :=
    fun other isKnown => isKnown.imp id fun member => mem_append_left _ member
  refine { sourced with
    own := forall_mem_append.mpr ⟨sourced.own, forall_mem_singleton.mpr own⟩
    voted := forall_mem_append.mpr ⟨fun other member => .inr ?_,
      forall_mem_singleton.mpr (.inl rfl)⟩
    based := forall_mem_append.mpr ⟨sourced.based, forall_mem_singleton.mpr based⟩
    ascending := pairwise_append.mpr
      ⟨sourced.ascending, pairwise_singleton _ _, fun other member new isNew => ?_⟩
    new := forall_mem_append.mpr ⟨sourced.new,
      forall_mem_singleton.mpr (.inr (inView ▸ sourced.later))⟩
    slots := fun slot other found => ⟨(sourced.slots slot other found).1, fun above =>
      known other ((sourced.slots slot other found).2 above)⟩
    stored := fun other member => known other (sourced.stored other member)
    sent := fun message member other carries =>
      (sourced.sent message member other carries).imp id (known other) }
  · exact (sourced.voted other member).resolve_left nofun
  · rw [mem_singleton.mp isNew, inView]
    exact sourced.below member

/-- A new block is created in a view that the replica leads, on commitments it has collected. -/
theorem propose (sourced : Sourced base history none 0 replica) {block : Block P}
    (accumulated : replica.accumulate env = .ok (next, accumulator))
    (built : next.filterPending.buildBlock accumulator = .ok block) :
    Sourced base history (some block) 0
      { next.filterPending with proposed := next.filterPending.proposed ++ [block] } ∧
      block.view = replica.view := by
  have isLead := sourced.leads (accumulate_collected accumulated)
  obtain ⟨enclave, rfl, call⟩ := Replica.accumulate_ok accumulated
  obtain ⟨log, signs⟩ := call_ok call
  obtain ⟨view, follows, rfl⟩ := buildBlock_ok built
  obtain ⟨-, after, accumulates, -⟩ := signs.accumulation
  have atView : enclave.automata.view = replica.view + 0 := by
    rw [after]
    exact sourced.inStep
  have signed := sourced.called call atView
  have leading : Sourced base history none 0 ({ replica with
      callTryCreateBlock := false
      commitments := env.sort replica.commitments
      enclave } : Replica P).filterPending := { signed with leads := fun _ => isLead }
  refine ⟨leading.created ?_ rfl ?_, rfl⟩
  · exact ⟨rfl, of_decide_eq_true isLead,
      Nat.lt_of_lt_of_eq (Nat.succ_pos view) follows.symm, rfl, rfl⟩
  · exact ⟨⟨_, accumulator⟩, log ▸ mem_append_right _ (mem_singleton_self _), accumulates, rfl⟩

theorem prepareBlock (sourced : Sourced base history inHand 0 replica) {block : Block P}
    {prepare : SignedCommitment P}
    (run : replica.prepareBlock block accumulator = .ok (next, prepare)) :
    Sourced base history inHand 1 next ∧ VotedFor next.enclave.log block ∧
      next.proposed = replica.proposed := by
  obtain ⟨enclave, rfl, call⟩ := prepareBlock_ok run
  obtain ⟨log, signs⟩ := call_ok call
  obtain ⟨other, -, checks, -, made⟩ := signs.preparation
  refine ⟨sourced.votes call nofun, ?_, rfl⟩
  refine ⟨⟨_, prepare⟩, by rw [log]; exact mem_append_right _ (mem_singleton_self _),
    ?_, ?_, ?_, ?_⟩
  · simp [SignedCommitment.isUsig, made, commitment]
  · simp [SignedCommitment.isPrepare, made, commitment]
  · simp [SignedCommitment.getView, made, commitment, checks.inView]
  · simp [SignedCommitment.getBlockHash, SignedCommitment.isPrepare, made, commitment]

end Sourced

/-- The invariant with `block` in hand: if the replica has created it, then in this view, or it has
voted for it already. -/
structure Holding (base : Base P) (history : Output P) (replica : Replica P) (block : Block P) :
    Prop where
  sourced : Sourced base history (some block.notExecuted) 0 replica
  fetched : replica.Fetched base block
  current : block.notExecuted ∈ replica.proposed → VotedFor replica.enclave.log block ∨
    block.view = replica.view

theorem Fetched.known {block : Block P} (fetched : replica.Fetched base block)
    {accumulator : SignedCommitment P} (justified : block.justification = .quorum accumulator) :
    replica.Known base block := by
  rcases fetched with isGenesis | known
  · rw [justified] at isGenesis
    cases isGenesis
  · exact known

theorem Holding.settled {block : Block P} {ahead : Nat}
    (sourced : Sourced base history (some block.notExecuted) ahead replica)
    (voted : block.notExecuted ∈ replica.proposed → VotedFor replica.enclave.log block) :
    Sourced base history none ahead replica := by
  refine sourced.settled fun other created => ?_
  rcases sourced.voted other created with isBlock | isVoted
  · cases isBlock
    exact voted created
  · exact isVoted

theorem Holds.fetched {block : Block P} (holds : replica.Holds block)
    (sourced : Sourced base history none 0 replica) : replica.Fetched base block := by
  rcases holds with ⟨view, found⟩ | stored
  · obtain ⟨atView, known⟩ := sourced.slots view block found
    rcases Nat.eq_zero_or_pos view with rfl | above
    · have root := sourced.root
      rw [found, map_some, some.injEq] at root
      have justified := congrArg Block.justification root
      exact .inl justified
    · exact .inr (known above)
  · exact .inr (sourced.stored block stored)

theorem sourced_steps (env : Env P) (base : Base P) (history : Output P) :
    StepRule env (Sourced base history none 0) (Holding base history)
      (fun replica block => Sourced base history none 1 replica ∧ replica.Known base block)
      (Sourced base history none 1) (fun _ _ => True) (fun _ => True) where
  request := by
    intro replica block view hash ⟨sourced, fetched, current⟩
    have grown := requestBlock_grows replica view hash
    refine ⟨sourced.requestBlock view hash, fetched.later grown, ?_⟩
    unfold requestBlock
    split
    · exact current
    · exact current
  late := by
    intro replica next block accumulator ⟨sourced, fetched, current⟩ late justified run
    have settled := Holding.settled sourced fun created =>
      (current created).resolve_right fun inView => late inView.symm
    exact settled.insertBlock (fetched.known justified) run
  vote := by
    intro replica next block accumulator prepare ⟨sourced, fetched, current⟩ inView justified run
    obtain ⟨voted, isVoted, sameProposed⟩ := sourced.prepareBlock run
    refine ⟨(Holding.settled voted fun _ => isVoted).unicast _ _ (by simp [Message.block]), ?_⟩
    exact (fetched.known justified).later
      ((prepareBlock_grows run).1.trans (Grows.of_eq rfl rfl rfl rfl))
  execute := by
    intro replica next block accumulator ⟨sourced, known⟩ _ run
    have executed := executeChain_executed run
    exact ⟨sourced.execute executed, known.later executed.grows⟩
  store := fun ⟨sourced, known⟩ run => sourced.insertBlock known run
  enter := fun sourced run => sourced.enterNextView run
  popBlock := by
    intro replica block rest sourced isHead inView
    have known := sourced.stored block (isHead ▸ mem_cons_self)
    have popped : Sourced base history none 0 { replica with storedBlocks := rest } :=
      { sourced with
        stored := fun other member =>
          sourced.stored other (isHead ▸ mem_cons_of_mem _ member) }
    exact ⟨popped.carrying _, .inr known, fun _ => .inr inView⟩
  popCommitment := fun sourced _ => ⟨{ sourced with }, trivial⟩
  collect := by
    intro replica commitment sourced _ _ leads _
    exact { sourced with leads := fun _ => leads }
  await := fun sourced _ => { sourced with }
  propose := by
    intro replica next accumulator block sourced accumulated built
    obtain ⟨held, inView⟩ := sourced.propose accumulated built
    have created : block ∈ next.filterPending.proposed ++ [block] :=
      mem_append_right _ (mem_singleton_self _)
    have same := Block.notExecuted_eq (held.own block created).unexecuted
    obtain ⟨enclave, rfl, -⟩ := Replica.accumulate_ok accumulated
    refine ⟨by rw [same]; exact held, .inr (.inr ?_), fun _ => .inr inView⟩
    rw [same]
    exact created
  announce := by
    intro replica block prepare sourced created _
    refine sourced.broadcast _ fun other carries => ?_
    cases carries
    refine .inr (.inr ?_)
    rw [Block.notExecuted_eq (sourced.own block created).unexecuted]
    exact created
  reSign := by
    intro replica enclave newView sourced _ call
    exact (sourced.votes call nofun).unicast _ _ (by simp [Message.block])

theorem sourced_handlers (env : Env P) (base : Base P) (history : Output P) :
    HandlerRule env (Sourced base history none 0) (Holding base history)
      (fun replica block => Sourced base history none 1 replica ∧ replica.Known base block)
      (Sourced base history none 1) (fun _ _ => True) (Fetched base) (fun _ => True) where
  steps := sourced_steps env base history
  fetchedLater := fun grows fetched => fetched.later grows
  inHand := by
    intro replica block sourced fetched
    refine ⟨sourced.carrying _, fetched, fun created => .inl ?_⟩
    rcases sourced.voted _ created with impossible | voted
    · cases impossible
    · exact voted
  keepBlock := by
    intro replica block accumulator sourced fetched justified _
    refine { sourced with stored := fun other member => ?_ }
    rcases (mem_insert _ _ _ _).mp member with rfl | earlier
    · exact fetched.known justified
    · exact sourced.stored other earlier
  keepCommitment := fun sourced _ => { sourced with }
  handOn := by
    intro replica block receiver sourced source
    refine sourced.unicast _ _ fun other carries => ?_
    cases carries
    exact source.elim id fun holds => holds.fetched sourced
  book := fun sourced => { sourced with }
  meet := by
    intro replica sender key enclave sourced added
    have traced := addPeer_traced sourced.traced added
    obtain ⟨trusted, rfl⟩ := addPeer_ok added
    exact ⟨{ sourced with traced }, fun _ => trivial⟩
  ready := fun sourced => { sourced with }
  queue := fun sourced => { sourced with }
  greet := fun sourced => sourced.broadcast _ (by simp [Message.block])

theorem mem_sent_emptied {message : PeerMessage P}
    (member : message ∈ replica.emptied.sent (history.join replica.taken)) :
    message ∈ replica.sent history := by
  simp only [sent, emptied, UnreflectedOutput.new, append_nil, mem_append,
    mem_sentBy_join] at member ⊢
  rcases member with (earlier | taken) | impossible
  · exact .inl (.inl earlier)
  · exact .inl (.inr taken)
  · simp [sentBy, Output.empty] at impossible

/-- What has been taken was sent before, and what a replica sends to itself it has sent. -/
theorem sourced_calls (env : Env P) (base : Base P) :
    CallRule env (fun history => Sourced base history none 0) (Holding base)
      (fun history replica block => Sourced base history none 1 replica ∧ replica.Known base block)
      (fun history => Sourced base history none 1) (fun _ _ => True) (Fetched base)
    (fun _ => True) where
  handlers := sourced_handlers env base
  offeredLater := fun _ _ => trivial
  take := by
    intro history replica sourced
    refine ⟨{ sourced with
      sent := fun message member => sourced.sent message (mem_sent_emptied member) }, ?_⟩
    intro message member
    have sent := sourced.sent message (mem_append_right _ member)
    obtain ⟨sender, message⟩ := message
    cases message with
    | newBlock block prepare => exact sent block rfl
    | requestedBlock block => exact sent block rfl
    | _ => trivial

theorem initial_sourced (base : Base P) (config : Config P) (atStart : base.view = 0) :
    Sourced base Output.empty none 0 (initial config) := by
  refine ⟨new_traced _ _ _ _, rfl, ?_, ?_, ?_, ?_, ?_, ?_, ?_, ?_, ?_, ?_, ?_⟩
  · simp [atStart]
  all_goals simp [initial, sent, sentBy, UnreflectedOutput.new, Output.empty, Block.genesis,
    Block.notExecuted]

/-- Between two calls more may become known, and the next call begins where the last one ended. -/
theorem Sourced.rebase {other : Base P} (sourced : Sourced base history none 0 replica)
    (known : ∀ block, replica.Known base block → replica.Known other block)
    (view : other.view = replica.view) (proposed : other.proposed = replica.proposed) :
    Sourced other history none 0 replica :=
  { sourced with
    later := view.le
    new := fun _ created => .inl (proposed ▸ created)
    slots := fun slot block found =>
      ⟨(sourced.slots slot block found).1, fun above =>
        known block ((sourced.slots slot block found).2 above)⟩
    stored := fun block member => known block (sourced.stored block member)
    sent := fun message member block carries =>
      (sourced.sent message member block carries).imp id (known block) }

end Replica

end Abcperf.Damysus
