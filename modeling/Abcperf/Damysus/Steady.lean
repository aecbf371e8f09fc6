import Abcperf.Damysus.Agreement
import Abcperf.Damysus.Harmless

/-! What a replica among honest ones keeps to while it waits. A leader that has a quorum and waits
for requests does not leave its view before it has proposed: it ignores timeouts of its own views,
nobody else proposes in them, and it does not enter a view before it knows all keys. -/

namespace Abcperf.Damysus

open Lib Lib.Outcome Heaps SignedCommitment List

variable {P : Platform}

theorem EnclaveAutomata.Signs.coherent {automata next : EnclaveAutomata P} {request : EnclaveCall P}
    {result : SignedCommitment P} (signs : automata.Signs request next result)
    (usig : result.isUsig = true) (prepares : result.isPrepare = true) :
    result.getBlockView = result.getView := by
  cases signs with
  | accumulated nonempty follows within accumulates creator inView isAccumulator =>
    exact absurd usig (result.not_usig isAccumulator)
  | prepared checks made =>
    simp [getBlockView, getView, prepares, made, commitment]
  | reSigned made =>
    have inView : automata.view = automata.lastPreparedBlockView := by
      by_contra apart
      simp [isPrepare, made, commitment, apart] at prepares
    simp [getBlockView, getView, prepares, made, commitment, inView]

def Enclave.Coherent (enclave : Enclave P) : Prop :=
  ∀ record ∈ enclave.log, record.result.isUsig = true → record.result.isPrepare = true →
    record.result.getBlockView = record.result.getView

theorem Enclave.Coherent.call {enclave next : Enclave P} {request : EnclaveCall P}
    {result : EnclaveResult P (SignedCommitment P)} (coherent : enclave.Coherent)
    (called : enclave.call request = .ok (next, result)) : next.Coherent := by
  obtain ⟨_, ⟨sameLog, _⟩ | ⟨signed, _, grown, signs⟩⟩ := Enclave.call_cases called
  · unfold Coherent
    rw [sameLog]
    exact coherent
  intro record logged
  rw [grown, mem_append, mem_singleton] at logged
  rcases logged with earlier | rfl
  · exact coherent record earlier
  · exact signs.coherent

def Block.Rooted (block : Block P) : Prop := block.justification = .genesis → block.view = 0

theorem Block.rooted_of_quorum {block : Block P} {accumulator : SignedCommitment P}
    (justified : block.justification = .quorum accumulator) : block.Rooted := by
  intro isGenesis
  rw [justified] at isGenesis
  cases isGenesis

namespace Replica

/-- What a replica among honest ones has sent, collected and waits for. -/
structure Steady (history : Output P) (replica : Replica P) : Prop where
  quorum : 0 < replica.quorum
  registered : replica.enclave.automata.Registered
  coherent : replica.enclave.Coherent
  authored : ∀ message ∈ replica.sent history, message.sender = replica.me
  announced : ∀ message ∈ replica.sent history, ∀ block prepare,
    message.message = .newBlock block prepare → block ∈ replica.proposed
  rooted : ∀ message ∈ replica.sent history, ∀ block, message.message.block = some block →
    block.Rooted
  awaited : replica.callTryCreateBlock = true → replica.quorum ≤ replica.commitments.length
  first : replica.view = 0 → replica.commitments = []
  settled : replica.peersAdded < replica.n → replica.view = 0

structure Leaving (replica : Replica P) : Prop where
  idle : replica.callTryCreateBlock = false
  complete : replica.n ≤ replica.peersAdded

namespace Steady

variable {history : Output P} {replica next : Replica P}

section

variable (steady : replica.Steady history)

include steady

theorem sends {message : Message P}
    (announces : ∀ block prepare, message = .newBlock block prepare → block ∈ replica.proposed)
    (roots : ∀ block, message.block = some block → block.Rooted) {output : UnreflectedOutput P}
    (sent : ∀ other, other ∈ ({ replica with output } : Replica P).sent history ↔
        other ∈ replica.sent history ∨ other = ⟨replica.me, message⟩) :
    ({ replica with output } : Replica P).Steady history := by
  refine { steady with authored := fun other member => ?_, announced := fun other member => ?_,
                       rooted := fun other member => ?_ }
  · rcases (sent other).mp member with earlier | rfl
    · exact steady.authored other earlier
    · rfl
  · rcases (sent other).mp member with earlier | rfl
    · exact steady.announced other earlier
    · exact announces
  rcases (sent other).mp member with earlier | rfl
  · exact steady.rooted other earlier
  · exact roots

theorem broadcast (message : Message P)
    (announces : ∀ block prepare, message = .newBlock block prepare → block ∈ replica.proposed)
    (roots : ∀ block, message.block = some block → block.Rooted) :
    (replica.broadcast message).Steady history :=
  steady.sends announces roots (mem_sent_broadcast history replica message)

theorem unicast (receiver : Nat) (message : Message P)
    (announces : ∀ block prepare, message = .newBlock block prepare → block ∈ replica.proposed)
    (roots : ∀ block, message.block = some block → block.Rooted) :
    (replica.unicast receiver message).Steady history :=
  steady.sends announces roots (mem_sent_unicast history replica receiver message)

theorem requestBlock (view : Nat) (hash : P.BlockHash) :
    (replica.requestBlock view hash).Steady history := by
  unfold Replica.requestBlock
  split
  · exact steady
  have booked : ∀ requestedBlocks, ({ replica with requestedBlocks } : Replica P).Steady history :=
    fun requestedBlocks => { steady with }
  exact (booked _).broadcast _ (by simp) (by simp [Message.block])

end

theorem call (steady : replica.Steady history) {request : EnclaveCall P} {enclave : Enclave P}
    {result : EnclaveResult P (SignedCommitment P)}
    (called : replica.enclave.call request = .ok (enclave, result)) :
    ({ replica with enclave } : Replica P).Steady history := by
  have continues := (Enclave.call_performs called).continues
  exact { steady with
    registered := by
      unfold EnclaveAutomata.Registered
      rw [continues.trusted, continues.me]
      exact steady.registered
    coherent := steady.coherent.call called }

theorem execute (steady : replica.Steady history) (leaving : replica.Leaving)
    (executed : replica.Executed next) : next.Steady history ∧ next.Leaving := by
  cases executed with
  | intro alike stored executedTransactions => exact ⟨{ steady with }, { leaving with }⟩

theorem taken (steady : replica.Steady history) :
    replica.emptied.Steady (history.join replica.taken) := by
  refine { steady with authored := ?_, announced := ?_, rooted := ?_ }
  · exact fun message member => steady.authored message (mem_sent_emptied member)
  · exact fun message member => steady.announced message (mem_sent_emptied member)
  · exact fun message member => steady.rooted message (mem_sent_emptied member)

theorem idle (steady : replica.Steady history) (none : replica.commitments = []) :
    replica.callTryCreateBlock = false := by
  cases waits : replica.callTryCreateBlock with
  | false => rfl
  | true =>
    have many := steady.awaited waits
    have := steady.quorum
    rw [none, length_nil] at many
    omega

end Steady

section Rules

variable (env : Env P) {others : Facts P} {n view : Nat} {proposed : List (Block P)}

variable {history : Output P} {replica : Replica P} {block : Block P}

/-- Nobody but the replica itself proposes in a view that it leads, and it has left the view of a
block for which it has voted. -/
theorem idle_in_hand (sourced : Sourced (others.base view proposed) history none 0 replica)
    (faithful : Faithful others n history replica) (steady : replica.Steady history)
    (known : replica.Known (others.base view proposed) block) (inView : block.view = replica.view) :
    replica.callTryCreateBlock = false := by
  by_cases none : replica.commitments = []
  · exact steady.idle none
  have leads : View.getViewLeader replica.view replica.n = replica.me := by
    simpa [isViewLeadByMe] using sourced.leads none
  obtain ⟨id, isProposal⟩ := known.proposal
  have creator : View.getViewLeader block.view n = id :=
    (faithful.valid.proposed id _ isProposal).leads
  have mine : id = replica.me := by rw [← creator, ← leads, inView, faithful.size]
  subst mine
  rcases isProposal with theirs | ⟨_, created⟩
  · exact absurd theirs (faithful.foreign.proposal _)
  rcases sourced.voted _ created with impossible | ⟨record, logged, usig, _, atView, _⟩
  · cases impossible
  have below := sourced.traced.below record logged
  have inStep := sourced.inStep
  have atView : record.result.getView = block.view := atView
  omega

theorem known_rooted (faithful : Faithful others n history replica)
    (known : replica.Known (others.base view proposed) block) : block.Rooted := by
  obtain ⟨id, isProposal⟩ := known.proposal
  obtain ⟨accumulator, _, justified, _⟩ := (faithful.valid.proposed id _ isProposal).justified
  have rooted : block.notExecuted.Rooted := Block.rooted_of_quorum justified
  exact rooted

theorem held_rooted (sourced : Sourced (others.base view proposed) history none 0 replica)
    (faithful : Faithful others n history replica) (holds : replica.Holds block) :
    block.Rooted := by
  rcases holds with ⟨slot, found⟩ | stored
  · obtain ⟨atSlot, known⟩ := sourced.slots slot block found
    rcases Nat.eq_zero_or_pos slot with rfl | above
    · exact fun _ => atSlot
    · exact known_rooted faithful (known above)
  · exact known_rooted faithful (sourced.stored block stored)

variable (others n view proposed)

abbrev Waits (history : Output P) (replica : Replica P) : Prop :=
  Following others n view proposed 0 history replica ∧ replica.Steady history

abbrev Takes (history : Output P) (replica : Replica P) (block : Block P) : Prop :=
  Receiving others n view proposed history replica block ∧ replica.Steady history ∧
    ∀ accumulator, block.justification = .quorum accumulator → replica.view = block.view →
      replica.callTryCreateBlock = false

abbrev Votes (history : Output P) (replica : Replica P) (block : Block P) : Prop :=
  Voting others n view proposed history replica block ∧ replica.Steady history ∧ replica.Leaving

abbrev LeavesView (history : Output P) (replica : Replica P) : Prop :=
  Following others n view proposed 1 history replica ∧ replica.Steady history ∧ replica.Leaving

variable [CollisionFree P]

theorem steady_steps (history : Output P) :
    StepRule env (Waits others n view proposed history) (Takes others n view proposed history)
      (Votes others n view proposed history) (LeavesView others n view proposed history)
      (fun replica commitment => (others.join replica).Signed commitment) Leaving where
  request := by
    rintro replica block slot hash ⟨held, steady, idle⟩
    refine ⟨(conforms_steps env ..).request held, steady.requestBlock _ _, ?_⟩
    unfold requestBlock
    split
    · exact idle
    · exact idle
  late := by
    rintro replica next block accumulator ⟨held, steady, _⟩ late justified run
    refine ⟨(conforms_steps env ..).late held late justified run, ?_⟩
    obtain ⟨blockstore, -, rfl⟩ := insertBlock_ok run
    exact { steady with }
  vote := by
    rintro replica next block accumulator prepare ⟨held, steady, idle⟩ inView justified run
    refine ⟨(conforms_steps env ..).vote held inView justified run, ?_⟩
    obtain ⟨enclave, rfl, called⟩ := prepareBlock_ok run
    -- the accumulator is from the view before, so this is not the first view
    obtain ⟨other, -, checks, -, -⟩ := (Enclave.call_ok called).2.preparation
    have usable := checks.usable
    have inStep : replica.enclave.automata.view = replica.view := held.1.sourced.inStep
    have complete : replica.n ≤ replica.peersAdded := by
      by_contra missing
      have := steady.settled (not_le.mp missing)
      omega
    exact ⟨(steady.call called).unicast _ _ (by simp) (by simp [Message.block]),
      ⟨idle accumulator justified inView, complete⟩⟩
  execute := by
    rintro replica next block accumulator ⟨held, steady, leaving⟩ justified run
    exact ⟨(conforms_steps env ..).execute held justified run,
      steady.execute leaving (executeChain_executed run)⟩
  store := by
    rintro replica next block ⟨held, steady, leaving⟩ run
    refine ⟨(conforms_steps env ..).store held run, ?_⟩
    obtain ⟨blockstore, -, rfl⟩ := insertBlock_ok run
    exact ⟨{ steady with }, { leaving with }⟩
  enter := by
    rintro replica next timeout ⟨held, steady, leaving⟩ run
    refine ⟨(conforms_steps env ..).enter held run, ?_⟩
    obtain ⟨viewTimeout, lastRoundFinishedAt, rfl⟩ := enterNextView_ok run
    exact { steady with
      awaited := fun waits => by
        have idle := leaving.idle
        change replica.callTryCreateBlock = true at waits
        rw [idle] at waits
        cases waits
      first := fun _ => rfl
      settled := fun missing => absurd leaving.complete (Nat.not_le_of_lt missing) }
  popBlock := by
    rintro replica block rest ⟨held, steady⟩ isHead inView
    have idle := idle_in_hand held.1 held.2.faithful steady
      (held.1.stored block (isHead ▸ mem_cons_self)) inView
    exact ⟨(conforms_steps env ..).popBlock held isHead inView, { steady with }, fun _ _ _ => idle⟩
  popCommitment := by
    rintro replica commitment rest ⟨held, steady⟩ isHead
    obtain ⟨popped, offered⟩ :=
      (conforms_steps env ..).popCommitment held isHead
    exact ⟨⟨popped, { steady with }⟩, offered⟩
  collect := by
    rintro replica commitment ⟨held, steady⟩ offered usable leads fresh
    refine ⟨(conforms_steps env ..).collect held offered usable leads fresh, ?_⟩
    have usable : commitment.getView + 1 = replica.view := usable
    refine { steady with awaited := fun waits => ?_, first := fun start => ?_ }
    · have many := steady.awaited waits
      simp only [collectCommitment, length_append, length_singleton]
      omega
    · change replica.view = 0 at start
      omega
  await := by
    rintro replica timeout ⟨held, steady⟩ many
    exact ⟨(conforms_steps env ..).await held many, { steady with awaited := fun _ => many }⟩
  propose := by
    rintro replica next accumulator block ⟨held, steady⟩ accumulated built
    refine ⟨(conforms_steps env ..).propose held accumulated built, ?_⟩
    obtain ⟨enclave, rfl, called⟩ := Replica.accumulate_ok accumulated
    have called := steady.call called
    refine ⟨{ called with
      announced := fun message member block prepare isNew => ?_
      awaited := fun waits => ?_
      first := fun start => ?_ }, fun _ _ _ => rfl⟩
    · exact mem_append_left _ (steady.announced message member block prepare isNew)
    · cases waits
    have sorted := (env.sorts replica.commitments).1
    rw [steady.first start] at sorted
    change env.sort replica.commitments = []
    rw [steady.first start]
    exact sorted.eq_nil
  announce := by
    rintro replica block prepare ⟨held, steady⟩ created logged
    obtain ⟨accumulator, _, justified, _⟩ :=
      (held.2.faithful.valid.proposed replica.me block (.inr ⟨rfl, created⟩)).justified
    refine ⟨(conforms_steps env ..).announce held created logged, steady.broadcast _ ?_ ?_⟩
    · rintro _ _ ⟨rfl, rfl⟩
      exact created
    · rintro _ ⟨rfl⟩
      exact Block.rooted_of_quorum justified
  reSign := by
    rintro replica enclave newView ⟨held, steady⟩ leaving called
    exact ⟨(conforms_steps env ..).reSign held trivial called,
      (steady.call called).unicast _ _ (by simp) (by simp [Message.block]), { leaving with }⟩

theorem steady_handlers [P.Dependable] (history : Output P) :
    HandlerRule env (Waits others n view proposed history) (Takes others n view proposed history)
      (Votes others n view proposed history) (LeavesView others n view proposed history)
      (fun replica commitment => (others.join replica).Signed commitment)
      (fun replica block => replica.Fetched (others.base view proposed) block ∧
        block.Rooted) Leaving where
  steps := steady_steps env others n view proposed history
  fetchedLater := fun grows fetched => ⟨fetched.1.later grows, fetched.2⟩
  inHand := by
    rintro replica block ⟨held, steady⟩ fetched
    refine ⟨(conforms_handlers env ..).inHand held fetched.1,
      steady, fun accumulator justified inView => ?_⟩
    exact idle_in_hand held.1 held.2.faithful steady (fetched.1.known justified) inView.symm
  keepBlock := fun ⟨held, steady⟩ fetched justified ahead =>
    ⟨(conforms_handlers env ..).keepBlock held fetched.1 justified ahead, { steady with }⟩
  keepCommitment := fun ⟨held, steady⟩ offered =>
    ⟨(conforms_handlers env ..).keepCommitment held offered, { steady with }⟩
  handOn := by
    rintro replica block receiver ⟨held, steady⟩ source
    refine ⟨(conforms_handlers env ..).handOn held
      (source.imp_left And.left), steady.unicast _ _ (by simp) ?_⟩
    rintro _ ⟨rfl⟩
    exact source.elim And.right (held_rooted held.1 held.2.faithful)
  book := fun ⟨held, steady⟩ =>
    ⟨(conforms_handlers env ..).book held, { steady with }⟩
  meet := by
    rintro replica sender key enclave ⟨held, steady⟩ added
    have coherent : enclave.Coherent := by
      obtain ⟨trusted, rfl⟩ := Enclave.addPeer_ok added
      exact steady.coherent
    refine ⟨⟨((conforms_handlers env ..).meet held added).1, { steady with
        registered := addPeer_registered added steady.registered
        coherent
        settled := fun missing => steady.settled (Nat.lt_of_succ_lt missing) }⟩, fun all => ?_⟩
    -- with the last key the replica is still in the first view
    have start : replica.view = 0 := steady.settled (by omega)
    exact ⟨steady.idle (steady.first start), all.ge⟩
  ready := fun ⟨held, steady⟩ =>
    ⟨(conforms_handlers env ..).ready held, { steady with }⟩
  queue := fun ⟨held, steady⟩ =>
    ⟨(conforms_handlers env ..).queue held, { steady with }⟩
  greet := fun ⟨held, steady⟩ =>
    ⟨(conforms_handlers env ..).greet held, steady.broadcast _ (by simp) (by simp [Message.block])⟩

theorem steady_calls [P.Dependable] :
    CallRule env (Waits others n view proposed) (Takes others n view proposed)
      (Votes others n view proposed) (LeavesView others n view proposed)
      (fun replica commitment => (others.join replica).Signed commitment)
      (fun replica block => replica.Fetched (others.base view proposed) block ∧
        block.Rooted) Leaving where
  handlers := steady_handlers env others n view proposed
  offeredLater := fun grows signed => signed.later (Facts.join_grows others grows)
  take := by
    rintro history replica ⟨held, steady⟩
    obtain ⟨kept, admitted⟩ := (conforms_calls env ..).take held
    refine ⟨⟨kept, steady.taken⟩, fun message member => ?_⟩
    have fetched := admitted message member
    have rooted := steady.rooted message (mem_append_right _ member)
    obtain ⟨sender, message⟩ := message
    cases message with
    | newBlock block prepare => exact ⟨fetched, rooted block rfl⟩
    | requestedBlock block => exact ⟨fetched, rooted block rfl⟩
    | _ => exact fetched

end Rules

end Replica

end Abcperf.Damysus
