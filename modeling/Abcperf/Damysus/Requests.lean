import Abcperf.Damysus.Dispatch
import Abcperf.Damysus.Execution
import Abcperf.Damysus.Harmless

/-! The requests for blocks. A request that a replica has sent stays open until the block is stored
as long as no other block arrives for its view. A request that a replica has received is answered
when the block comes in as a new one, but not when it comes as the answer to a request of its
own. -/

namespace Abcperf.Damysus

open Lib Lib.Outcome Heaps Symbolic Function Player Option

variable {P : Platform}

namespace Replica

def Stores (replica : Replica P) (view : Nat) (hash : P.BlockHash) : Prop :=
  ∃ block, replica.blockstore.get view = some block ∧ block.hashValue = hash

/-- A block that arrives for a view with an open request is the requested one, and it can be stored
at once. -/
def Matches (replica : Replica P) (peerMessage : PeerMessage P) : Prop :=
  match peerMessage.message with
  | .newBlock block prepare => replica.acceptable block prepare = .ok true →
      ∀ hash, replica.requestedBlocks block.view = some hash →
        block.hashValue = hash ∧ block.view ≤ replica.view
  | .requestedBlock block => ∀ hash, replica.requestedBlocks block.view = some hash →
      block.hashValue = hash
  | _ => True

/-- No request is open for a block that arrives as an answer, and no replica is asked for a block
that it is still to make. -/
def Settles (replica : Replica P) (peerMessage : PeerMessage P) : Prop :=
  match peerMessage.message with
  | .requestedBlock block => replica.requestedBlocks block.view = some block.hashValue →
      replica.openBlockRequests block.view = none
  | .blockRequest view => replica.view ≤ view → replica.isViewLeadByMe view = false
  | _ => True

/-- The books of a replica. The requests that are `watched` are open or served, possibly by the
block in hand. If the books are `strict`, requests of others are open only for blocks that the
replica does not have. -/
structure Books (watched : Nat → P.BlockHash → Prop) (strict : Prop) (hand : Option (Block P))
    (replica : Replica P) : Prop where
  outputMe : replica.output.me = replica.me
  waiting : ∀ view ids, replica.openBlockRequests view = some ids → replica.me ∉ ids
  echoes : ∀ peerMessage ∈ replica.output.reflectionMessages,
    ∃ vote, peerMessage.message = .commitment vote
  leads : replica.commitments ≠ [] → replica.isViewLeadByMe replica.view = true
  kept : ∀ view hash, watched view hash → replica.requestedBlocks view = some hash ∨
    replica.Stores view hash ∨ ∃ block, hand = some block ∧ block.view = view ∧
      block.hashValue = hash
  missing : strict → ∀ view ids, replica.openBlockRequests view = some ids →
    replica.blockstore.get view = none
  unstored : strict → ∀ view ids, replica.openBlockRequests view = some ids →
    (∀ block ∈ replica.storedBlocks, block.view ≠ view) ∧
      ∀ block, hand = some block → block.view ≠ view
  unmade : strict → ∀ view ids, replica.openBlockRequests view = some ids →
    replica.view ≤ view → replica.isViewLeadByMe view = false

namespace Books

variable {watched : Nat → P.BlockHash → Prop} {strict : Prop} {hand : Option (Block P)}
  {replica next : Replica P} {block : Block P} {env : Env P}

theorem request (books : Books watched strict hand replica) (view : Nat) (hash : P.BlockHash) :
    Books watched strict hand (replica.requestBlock view hash) := by
  unfold requestBlock
  split
  · exact books
  rename_i unasked
  refine { books with kept := fun other otherHash isWatched => ?_ }
  refine (books.kept other otherHash isWatched).imp_left fun asked => ?_
  have different : other ≠ view := by
    rintro rfl
    simp [asked] at unasked
  exact (update_of_ne different _ _).trans asked

theorem insert (books : Books watched strict (some block) replica)
    (run : replica.insertBlock block.notExecuted = .ok next) : Books watched strict none next := by
  obtain ⟨blockstore, inserted, rfl⟩ := insertBlock_ok run
  obtain ⟨free, slots⟩ := Blockstore.insert_ok inserted
  refine { books with
    kept := fun view hash isWatched => ?_
    missing := fun isStrict view ids isOpen => ?_
    unstored := fun isStrict view ids isOpen =>
      ⟨(books.unstored isStrict view ids isOpen).1, fun _ none => nomatch none⟩ }
  · rcases books.kept view hash isWatched with
      asked | ⟨stored, found, same⟩ | ⟨other, isHand, rfl, rfl⟩
    · exact .inl asked
    · refine .inr (.inl ⟨stored, ?_, same⟩)
      rw [slots, if_neg (by rintro rfl; exact absurd (free.symm.trans found) nofun), found]
    · cases isHand
      exact .inr (.inl ⟨block.notExecuted, (slots _).trans (if_pos rfl), rfl⟩)
  · have other := (books.unstored isStrict view ids isOpen).2 block rfl
    exact (slots view).trans ((if_neg (Ne.symm other)).trans
      (books.missing isStrict view ids isOpen))

theorem sendVote (books : Books watched strict hand replica) (receiver : Nat)
    (vote : SignedCommitment P) :
    Books watched strict hand (replica.unicast receiver (.commitment vote)) := by
  refine { books with
    outputMe := (unicast_output_me _ _ _).trans books.outputMe
    echoes := fun peerMessage member => ?_ }
  rcases mem_unicast member with earlier | rfl
  · exact books.echoes peerMessage earlier
  · exact ⟨vote, rfl⟩

theorem execute (books : Books watched strict hand replica) (executed : replica.Executed next) :
    Books watched strict hand next := by
  cases executed with
  | intro alike stored executedTransactions =>
    refine { books with
      kept := fun view hash isWatched => ?_
      missing := fun isStrict view ids isOpen =>
        alike.none.mpr (books.missing isStrict view ids isOpen) }
    refine (books.kept view hash isWatched).imp_right (Or.imp_left ?_)
    rintro ⟨stored, found, same⟩
    obtain ⟨later, foundLater, alikeLater⟩ := alike.symm.some found
    have sameHash : later.notExecuted.hashValue = stored.notExecuted.hashValue :=
      congrArg Block.hashValue alikeLater
    exact ⟨later, foundLater, sameHash.trans same⟩

theorem propose {accumulator : SignedCommitment P} (books : Books watched strict none replica)
    (accumulates : replica.accumulate env = .ok (next, accumulator))
    (builds : next.filterPending.buildBlock accumulator = .ok block) :
    Books watched strict (some block)
      { next.filterPending with proposed := next.filterPending.proposed ++ [block] } := by
  have leads := books.leads (accumulate_collected accumulates)
  obtain ⟨enclave, rfl, -⟩ := accumulate_ok accumulates
  have inView : block.view = replica.view := by
    obtain ⟨view, -, rfl⟩ := buildBlock_ok builds
    rfl
  refine { books with
    leads := fun _ => leads
    kept := fun view hash isWatched => ?_
    unstored := fun isStrict view ids isOpen =>
      ⟨(books.unstored isStrict view ids isOpen).1, ?_⟩ }
  · rcases books.kept view hash isWatched with asked | stored | ⟨_, none, _⟩
    · exact .inl asked
    · exact .inr (.inl stored)
    · cases none
  rintro made isMade rfl
  cases isMade
  have unmade := books.unmade isStrict _ ids isOpen (Nat.le_of_eq inView.symm)
  rw [inView, leads] at unmade
  cases unmade

theorem rule (watched : Nat → P.BlockHash → Prop) (strict : Prop) (env : Env P) :
    VoteRule env (Books watched strict none) (fun replica block => Books watched strict (some block)
      replica) (fun replica block => Books watched strict (some block) replica)
      (Books watched strict none) (fun _ _ => True) (fun _ => True) where
  steps := {
    request := fun books => books.request _ _
    late := fun books _ _ run => books.insert run
    vote := by
      intro replica next block accumulator prepare books _ _ run
      obtain ⟨enclave, rfl, -⟩ := prepareBlock_ok run
      have signed : Books watched strict (some block) { replica with enclave } := { books with }
      exact signed.sendVote _ _
    execute := fun books _ run => books.execute (executeChain_executed run)
    store := fun books run => books.insert run
    enter := by
      intro replica next timeout books run
      obtain ⟨viewTimeout, lastRoundFinishedAt, rfl⟩ := enterNextView_ok run
      exact { books with
        leads := fun nonempty => absurd rfl nonempty
        unmade := fun isStrict view ids isOpen later =>
          books.unmade isStrict view ids isOpen (Nat.le_of_succ_le later) }
    popBlock := by
      intro replica block rest books isHead inView
      refine { books with
        kept := fun view hash isWatched => ?_
        unstored := fun isStrict view ids isOpen => ?_ }
      · rcases books.kept view hash isWatched with asked | stored | ⟨_, none, _⟩
        · exact .inl asked
        · exact .inr (.inl stored)
        · cases none
      have others := (books.unstored isStrict view ids isOpen).1
      rw [isHead] at others
      refine ⟨fun other member => others other (List.mem_cons_of_mem _ member), ?_⟩
      rintro other ⟨⟩
      exact others block (List.mem_cons_self)
    popCommitment := fun books _ => ⟨{ books with }, trivial⟩
    collect := fun books _ _ leads _ => { books with leads := fun _ => leads }
    await := fun books _ => { books with }
    propose := fun books accumulates builds => books.propose accumulates builds
    announce := fun books _ _ => { books with }
    reSign := by
      intro replica enclave newView books _ _
      have signed : Books watched strict none { replica with enclave } := { books with }
      exact signed.sendVote _ _ }
  keepCommitment := fun books _ => { books with }
  meet := fun books _ => ⟨{ books with }, fun _ => trivial⟩
  ready := fun books => { books with }
  queue := fun books => { books with }
  greet := fun books => { books with }

section

variable (books : Books watched strict none replica)

include books

theorem answer (block : Block P) : Books watched strict none (replica.answerOpenRequests block) ∧
      (replica.answerOpenRequests block).openBlockRequests block.view = none ∧
      (replica.answerOpenRequests block).requestedBlocks = replica.requestedBlocks := by
  obtain ⟨output, answers, unechoed⟩ := answerOpenRequests_eq books.outputMe books.waiting block
  have still : ∀ {view ids}, update replica.openBlockRequests block.view none view =
      some ids → replica.openBlockRequests view = some ids := by
    intro view ids isOpen
    rw [update_apply] at isOpen
    split at isOpen
    · cases isOpen
    · exact isOpen
  rw [answers]
  exact ⟨{
    outputMe := unechoed.1.trans books.outputMe
    waiting := fun view ids isOpen => books.waiting view ids (still isOpen)
    echoes := fun peerMessage member => books.echoes peerMessage (unechoed.2 ▸ member)
    leads := books.leads
    kept := books.kept
    missing := fun isStrict view ids isOpen => books.missing isStrict view ids (still isOpen)
    unstored := fun isStrict view ids isOpen => books.unstored isStrict view ids (still isOpen)
    unmade := fun isStrict view ids isOpen => books.unmade isStrict view ids (still isOpen) },
    update_self .., rfl⟩

theorem forget {view : Nat} {hand : Option (Block P)}
    (fits : ∀ hash, watched view hash → replica.requestedBlocks view = some hash →
      ∃ block, hand = some block ∧ block.view = view ∧ block.hashValue = hash)
    (closed : strict → ∀ block, hand = some block → replica.openBlockRequests block.view = none) :
    Books watched strict hand (replica.forgetRequest view) := by
  refine { books with
    kept := fun other hash isWatched => ?_
    unstored := fun isStrict other ids isOpen =>
      ⟨(books.unstored isStrict other ids isOpen).1, ?_⟩ }
  · rcases books.kept other hash isWatched with asked | stored | ⟨_, none, _⟩
    · by_cases same : other = view
      · subst same
        exact .inr (.inr (fits hash isWatched asked))
      · exact .inl ((update_of_ne same _ _).trans asked)
    · exact .inr (.inl stored)
    · cases none
  · rintro block isHand rfl
    exact nomatch (closed isStrict block isHand).symm.trans isOpen

theorem storeLater (closed : replica.openBlockRequests block.view = none) :
    Books watched strict none (replica.storeBlock block) := by
  unfold storeBlock
  split
  · exact books
  refine { books with
    unstored := fun isStrict view ids isOpen =>
      ⟨fun other member => ?_, (books.unstored isStrict view ids isOpen).2⟩ }
  rcases (mem_insert _ _ _ _).mp member with rfl | earlier
  · rintro rfl
    have isOpen : replica.openBlockRequests other.view = some ids := isOpen
    rw [closed] at isOpen
    cases isOpen
  · exact (books.unstored isStrict view ids isOpen).1 other earlier

theorem dispatch {peerMessage : PeerMessage P} (other : peerMessage.sender ≠ replica.me)
    (fits : ∀ view hash, watched view hash → replica.Matches peerMessage)
    (settles : strict → replica.Settles peerMessage)
    (run : replica.dispatch env peerMessage = .ok next) : Books watched strict none next := by
  have rules := rule watched strict env
  have leaves : Leaves (Books watched strict none) (Books watched strict none)
    (roundTransition env env.fuel) := roundTransition_keeps rules.steps env.fuel
  obtain ⟨sender, message⟩ := peerMessage
  cases message with
  | newBlock block prepare =>
    obtain ⟨answered, closed, sameRequests⟩ := books.answer block
    rcases processBlock_cases run with rfl | ⟨accepted, ⟨ahead, rfl⟩ | ⟨-, signed, addedOk⟩⟩
    · exact books
    · refine storeLater (answered.forget (fun hash isWatched asked => ?_) nofun) closed
      -- a block that has to wait is not one that was requested
      have fit := fits _ _ isWatched accepted hash (sameRequests ▸ asked)
      omega
    refine (addAndPrepareBlock_keeps rules.steps leaves (answered.forget ?_ ?_) addedOk).1
    · intro hash isWatched asked
      exact ⟨block, rfl, rfl, (fits _ _ isWatched accepted hash (sameRequests ▸ asked)).1⟩
    · rintro - _ ⟨⟩
      exact closed
  | commitment commitment =>
    exact (processCommitment_keeps rules books (fun _ _ => trivial) run).1
  | handshake key => exact (processHandshake_keeps rules books run).1
  | blockRequest view =>
    rw [← pure_ok.mp run]
    rcases processBlockRequest_cases replica sender view with
      ⟨block, answers⟩ | ⟨missing, unstored, noted⟩
    · have sent : Unechoed replica.output
          (replica.output.unicast sender ⟨replica.me, .requestedBlock block⟩) :=
        unicast_unechoed (by rw [books.outputMe]; exact other) _
      rw [answers]
      exact { books with
        outputMe := sent.1.trans books.outputMe
        echoes := fun peerMessage member => books.echoes peerMessage (sent.2 ▸ member) }
    have noting : ∀ {property : Nat → Prop}, property view →
        (∀ slot ids, replica.openBlockRequests slot = some ids → property slot) →
        ∀ slot ids, update replica.openBlockRequests view (some
          (((replica.openBlockRequests view).getD IdSet.empty).insert sender)) slot = some ids →
        property slot := by
      intro property atView elsewhere slot ids isOpen
      rw [update_apply] at isOpen
      split at isOpen
      · next same => exact same ▸ atView
      · exact elsewhere slot ids isOpen
    rw [noted]
    exact { books with
      waiting := fun slot ids isOpen => waiting_insert other books.waiting isOpen
      missing := fun isStrict => noting missing (books.missing isStrict)
      unstored := fun isStrict =>
        noting ⟨unstored, fun _ none => nomatch none⟩ (books.unstored isStrict)
      unmade := fun isStrict => noting (settles isStrict) (books.unmade isStrict) }
  | requestedBlock block =>
    rcases processRequestedBlock_cases run with ⟨-, rfl⟩ | ⟨hash, asked, different, rfl⟩ |
      ⟨asked, added, signed, addedOk, stored⟩
    · exact books
    · refine books.forget (fun watchedHash isWatched _ => ?_) nofun
      exact absurd (fits _ _ isWatched hash asked) (Ne.symm different)
    refine (prepareStored_keeps rules.steps leaves (addAndPrepareBlock_keeps rules.steps leaves
      (books.forget ?_ ?_) addedOk).1 stored).1
    · intro hash isWatched isAsked
      exact ⟨block, rfl, rfl, fits _ _ isWatched hash isAsked⟩
    · rintro isStrict _ ⟨⟩
      exact settles isStrict asked

end

theorem reflects (watched : Nat → P.BlockHash → Prop) (strict : Prop) (env : Env P) :
    Reflector.Rule (machine env) (fun _ => Books watched strict none) Grows
      (fun _ peerMessage => ∃ vote, peerMessage.message = .commitment vote) where
  refl := Grows.refl
  trans := Grows.trans
  dispatch := by
    rintro history replica ⟨sender, message⟩ next books ⟨vote, rfl⟩ run
    exact processCommitment_keeps (rule watched strict env) books (fun _ _ => trivial) run
  take := fun books => ⟨{ books with
    outputMe := rfl
    echoes := fun _ member => nomatch member }, Grows.of_eq rfl rfl rfl rfl, books.echoes⟩
  admitted := fun _ admitted => admitted

end Books

end Replica

/-- A delivered message names another replica as its sender, and the receiver's requests and those
it has received fit to it. -/
def Event.Fits (fit : Replica P → PeerMessage P → Prop) (world : World P) : Event P → Prop
  | .deliver _ receiver _ message => message.sender ≠ (world.replicas receiver).me ∧
      fit (world.replicas receiver) message
  | _ => True

theorem Event.handle_books {watched : Nat → P.BlockHash → Prop} {strict : Prop}
    {fit : Replica P → PeerMessage P → Prop} {world : World P} {event : Event P}
    {next : Replica P} {output : Output P} (fits : ∀ {replica message}, fit replica message →
      (∀ view hash, watched view hash → replica.Matches message) ∧
        (strict → replica.Settles message)) (allowed : event.Fits fit world)
    (before : (world.replicas event.place).Books watched strict none)
    (run : event.handle (world.replicas event.place) = .ok (next, output)) :
    next.Books watched strict none := by
  cases event with
  | deliver source receiver env message =>
    exact @Reflector.process_after _ _ _ _ _ _ _ (Replica.Books.reflects watched strict env)
      env.fuel output _ _ _ _
      (before.dispatch allowed.1 (fits allowed.2).1 (fits allowed.2).2) run
  | _ =>
    exact Event.handle_holds (Replica.Books.rule watched strict)
      (Replica.Books.reflects watched strict) before (by rintro _ _ _ _ ⟨⟩) run

theorem Replica.initial_books (strict : Prop) (config : Config P) :
    (Replica.initial config).Books (fun _ _ => False) strict none where
  outputMe := rfl
  waiting := fun _ _ isOpen => nomatch isOpen
  echoes := fun _ member => nomatch member
  leads := fun nonempty => absurd rfl nonempty
  kept := fun _ _ isWatched => isWatched.elim
  missing := fun _ _ _ isOpen => nomatch isOpen
  unstored := fun _ _ _ isOpen => nomatch isOpen
  unmade := fun _ _ _ isOpen => nomatch isOpen

namespace Symbolic

instance (replica : Replica platform) : DecidablePred replica.Matches := fun message => by
  unfold Replica.Matches
  split <;> infer_instance

instance (replica : Replica platform) : DecidablePred replica.Settles := fun message => by
  unfold Replica.Settles
  split <;> infer_instance

instance (fit : Replica platform → PeerMessage platform → Prop)
    [∀ replica, DecidablePred (fit replica)] (world : World platform) :
    DecidablePred (Event.Fits fit world) := fun event => by
  unfold Event.Fits
  split <;> infer_instance

/-- Replica 1 proposes on votes of host 0 and of replica 2 for a block that it does not have, and
requests that block. -/
def asking : List (Move platform) :=
  joining ++ twoBlocks.take 3 ++
    [.inject 0 2 ⟨0, .newBlock (firstBlock []) firstPrepare⟩,
      .inject 0 1 ⟨0, .commitment firstPrepare⟩, .direct 2 1 1, .viewTimeout 1]

/-- Not the block of view 1 that host 0 has made: it has no parent. -/
def forgedAnswer : Block platform := .new 0 1 (.quorum firstAccumulator) none []

def four : Setup platform where
  n := 4
  correct := Finset.range 4
  config := config 4
  trusted id := (⟨id, IdSet.empty⟩ : Trusted)
  inRange := fun _ => Finset.mem_range.mp
  named := fun _ _ => ⟨rfl, rfl⟩

theorem four_initial : (start 4).Initial four :=
  ⟨fun _ _ => ⟨rfl, rfl⟩, fun _ => rfl⟩

/-- Replicas 0 and 1 have the first block. The second one makes replica 2 ask for it, and the
request reaches replica 3, which does not have it either. -/
def asksAround : List (Move platform) :=
  [.init 0, .init 1, .init 2, .init 3, .relay 1 0 0, .relay 2 0 0, .relay 3 0 0, .relay 0 1 0,
    .relay 2 1 0, .relay 3 1 0, .relay 0 2 0, .relay 1 2 0, .relay 3 2 0, .relay 0 3 0,
    .relay 1 3 0,
    .relay 2 3 0, .direct 1 0 0, .direct 2 0 0, .relay 0 1 1, .direct 0 1 0, .viewTimeout 2,
    .viewTimeout 3, .direct 2 1 1, .relay 1 2 1, .relay 2 3 1]

/-- Then the second block makes replica 3 ask, and replica 0 answers. -/
def answersLate : List (Move platform) := asksAround ++ [.relay 1 3 1, .relay 3 0 1, .direct 0 3 1]

end Symbolic

/-- In a run in which every block that arrives for a view with an open request is the requested one,
a request stays open until that block is stored. -/
theorem requests_stay_open {setup : Setup P} {world later : World P}
    (run : Run setup (Event.Fits Replica.Matches) world) {id : Nat} (correct : id ∈ setup.correct)
    {view : Nat} {hash : P.BlockHash} (asked : (world.replicas id).requestedBlocks view = some hash)
    (onward : Relation.ReflTransGen (fun before after =>
      ∃ event, Event.Fits Replica.Matches before event ∧
        Step setup before event after) world later) :
    (later.replicas id).requestedBlocks view = some hash ∨
      (later.replicas id).Stores view hash := by
  have books : (world.replicas id).Books (fun _ _ => False) False none := by
    refine run.correct_holds (Replica.initial_books False) ?_ id correct
    intro world event next output allowed before handled
    exact Event.handle_books (fun fit => ⟨fun _ _ _ => fit, nofun⟩) allowed before handled
  let watched : Nat → P.BlockHash → Prop := fun slot digest => slot = view ∧ digest = hash
  have watchedBooks : (later.replicas id).Books watched False none := by
    induction onward with
    | refl =>
      refine { books with kept := ?_ }
      rintro _ _ ⟨rfl, rfl⟩
      exact .inl asked
    | @tail middle last _ step ih =>
      obtain ⟨event, allowed, step⟩ := step
      refine Step.holds (p := fun replica _ => replica.Books watched False none) ?_ ih step
      rintro after output rfl - handled
      exact Event.handle_books (fun fit => ⟨fun _ _ _ => fit, nofun⟩) allowed ih handled
  rcases watchedBooks.kept view hash ⟨rfl, rfl⟩ with stays | stored | ⟨_, none, _⟩
  · exact .inl stays
  · exact .inr stored
  · cases none

/-- Replica 1 waits for the first block, also once its view has timed out, and then host 0 sends it.
-/
theorem requests_stay_open_answered : ∃ world middle later,
    Run Symbolic.trio (Event.Fits Replica.Matches) world ∧
      (world.replicas 1).requestedBlocks 1 = some (Symbolic.firstBlock []).hashValue ∧
      Step Symbolic.trio world (.viewTimeout 1 Symbolic.env) middle ∧
      Step Symbolic.trio middle
        (.deliver 0 1 Symbolic.env ⟨0, .requestedBlock (Symbolic.firstBlock [])⟩) later ∧
      (later.replicas 1).requestedBlocks 1 = none ∧
      (later.replicas 1).Stores 1 (Symbolic.firstBlock []).hashValue := by
  let answer : Event platform := .deliver 0 1 env ⟨0, .requestedBlock (firstBlock [])⟩
  obtain ⟨world, run, asked, middle, isMiddle, me, still, later, isLater, closed⟩ : ∃ world,
      Run trio (Event.Fits Replica.Matches) world ∧
      (world.replicas 1).requestedBlocks 1 = some (firstBlock []).hashValue ∧
      ∃ middle, happen trio world (.viewTimeout 1 env) = some middle ∧
        (middle.replicas 1).me = 1 ∧
        (middle.replicas 1).requestedBlocks 1 = some (firstBlock []).hashValue ∧
        ∃ later, happen trio middle answer = some later ∧
          (later.replicas 1).requestedBlocks 1 = none :=
    (Player.mk trio env).play_run (fun _ _ => of_decide_eq_true) trio_initial asking
      (by decide +kernel)
  have times : Step trio world (.viewTimeout 1 env) middle := happen_step trivial isMiddle
  have answers : Step trio middle answer later := happen_step
    ⟨by decide, ⟨0, .requestedBlock (firstBlock [])⟩, rfl, fun correct =>
      absurd correct (by decide)⟩
    isLater
  have fits : Event.Fits Replica.Matches middle answer :=
    ⟨by simp [me], fun hash isAsked => some.inj (still.symm.trans isAsked)⟩
  have stays := requests_stay_open run (by decide) asked
    (.tail (.single ⟨.viewTimeout 1 env, trivial, times⟩) ⟨answer, fits, answers⟩)
  refine ⟨world, middle, later, run, asked, times, answers, closed, stays.resolve_left ?_⟩
  rw [closed]
  nofun

/-- An answer with another hash makes a replica forget what it has asked for. -/
theorem forged_answer_ends_request : ∃ world next,
    Run Symbolic.trio (fun _ _ => True) world ∧ 1 ∈ Symbolic.trio.correct ∧
      (world.replicas 1).requestedBlocks 1 = some (Symbolic.firstBlock []).hashValue ∧
      Symbolic.forgedAnswer.hashValue ≠ (Symbolic.firstBlock []).hashValue ∧
      Step Symbolic.trio world
        (.deliver 0 1 Symbolic.env ⟨0, .requestedBlock Symbolic.forgedAnswer⟩) next ∧
      (next.replicas 1).requestedBlocks 1 = none ∧ (next.replicas 1).blockstore.get 1 = none := by
  obtain ⟨world, run, asked, next, isNext, closed, missing⟩ : ∃ world,
      Run trio (fun _ _ => True) world ∧
      (world.replicas 1).requestedBlocks 1 = some (firstBlock []).hashValue ∧
      ∃ next, happen trio world (.deliver 0 1 env ⟨0, .requestedBlock forgedAnswer⟩) = some next ∧
        (next.replicas 1).requestedBlocks 1 = none ∧ (next.replicas 1).blockstore.get 1 = none :=
    (Player.mk trio env).play_run (fun _ _ (_ : true = true) => trivial) trio_initial asking
      (by decide +kernel)
  refine ⟨world, next, run, by decide, asked, by decide, happen_step ?_ isNext, closed, missing⟩
  exact ⟨by decide, ⟨0, .requestedBlock forgedAnswer⟩, rfl,
    fun correct => absurd correct (by decide)⟩

/-- In a run in which no request is open for a block that arrives as an answer, the open requests of
a replica are for blocks that it does not have. -/
theorem open_requests_are_for_missing_blocks {setup : Setup P} {world : World P}
    (run : Run setup (Event.Fits Replica.Settles) world) {id : Nat} (correct : id ∈ setup.correct)
    {view : Nat} {ids : IdSet} (isOpen : (world.replicas id).openBlockRequests view = some ids) :
    (world.replicas id).blockstore.get view = none ∧
      ∀ block ∈ (world.replicas id).storedBlocks, block.view ≠ view := by
  have books : (world.replicas id).Books (fun _ _ => False) True none := by
    refine run.correct_holds (Replica.initial_books True) ?_ id correct
    intro world event next output allowed before handled
    exact Event.handle_books (fun fit => ⟨nofun, fun _ => fit⟩) allowed before handled
  exact ⟨books.missing trivial view ids isOpen, (books.unstored trivial view ids isOpen).1⟩

/-- Replica 3 has noted a request and has no block for it. -/
theorem open_requests_are_for_missing_blocks_first : ∃ world ids,
    Run Symbolic.four (Event.Fits Replica.Settles) world ∧
      (world.replicas 3).openBlockRequests 1 = some ids ∧
      (world.replicas 3).blockstore.get 1 = none ∧
      ∀ block ∈ (world.replicas 3).storedBlocks, block.view ≠ 1 := by
  obtain ⟨world, run, isOpen⟩ : ∃ world, Run four (Event.Fits Replica.Settles) world ∧
      ((world.replicas 3).openBlockRequests 1).isSome :=
    (Player.mk four env).play_run (fun _ _ => of_decide_eq_true) four_initial asksAround
      (by decide +kernel)
  obtain ⟨ids, isOpen⟩ := isSome_iff_exists.mp isOpen
  exact ⟨world, ids, run, isOpen, open_requests_are_for_missing_blocks run (by decide) isOpen⟩

/-- All four replicas are honest; replica 3 gets the first block as an answer, and the request of
replica 2 for it stays open. -/
theorem request_left_unanswered : ∃ world ids, Run Symbolic.four (fun _ _ => True) world ∧
      Symbolic.four.correct = Finset.range Symbolic.four.n ∧
      (world.replicas 3).openBlockRequests 1 = some ids ∧ 2 ∈ ids ∧
      ((world.replicas 3).blockstore.get 1).isSome := by
  obtain ⟨world, run, ids, isOpen, member, stored⟩ : ∃ world, Run four (fun _ _ => True) world ∧
      ∃ ids, (world.replicas 3).openBlockRequests 1 = some ids ∧ ids.contains 2 = true ∧
        ((world.replicas 3).blockstore.get 1).isSome :=
    (Player.mk four env).play_run (fun _ _ (_ : true = true) => trivial) four_initial answersLate
      (by decide +kernel)
  exact ⟨world, ids, run, rfl, isOpen, (IdSet.contains_iff _ _).mp member, stored⟩

end Abcperf.Damysus
