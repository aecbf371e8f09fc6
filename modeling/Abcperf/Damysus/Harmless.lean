import Abcperf.Damysus.Progress

/-! Peer messages that do not harm a replica: their unsigned fields fit to the signed ones, and no
two of them are about different blocks of one view. A call with such a message returns, and the
other calls leave a replica orderly if they return. -/

namespace Abcperf.Damysus

open Lib Lib.Outcome Heaps Function List

variable {P : Platform}

/-- The views that are read before the signatures have a successor. -/
def Message.Bounded : Message P → Prop
  | .commitment vote => vote.getView ≠ View.last
  | .newBlock block _ => ∀ accumulator ∈ block.justification.getCommitment,
      accumulator.getView ≠ View.last
  | .handshake _ | .blockRequest _ | .requestedBlock _ => True

namespace Replica

def Checkable (replica : Replica P) (signed : SignedCommitment P) : Prop :=
  (replica.enclave.verifyUntrusted signed).isOk = true

theorem Checkable.answer {replica : Replica P} {signed : SignedCommitment P}
    (checkable : replica.Checkable signed) :
    ∃ answer, replica.enclave.verifyUntrusted signed = .ok answer := by
  unfold Checkable at checkable
  cases checked : replica.enclave.verifyUntrusted signed with
  | error panic => simp [checked, Except.isOk, Except.toBool] at checkable
  | ok answer => exact ⟨answer, rfl⟩

def welcomes (replica : Replica P) (sender : Nat) (key : P.PublicKey) : Bool :=
  match replica.enclave.addPeer sender key with
  | .ok _ | .error .doubleKeyReceived => true
  | .error _ => false

def Harmless (replica : Replica P) (peerMessage : PeerMessage P) : Prop :=
  match peerMessage.message with
  | .handshake key => replica.welcomes peerMessage.sender key = true
  | .blockRequest _ => True
  | .commitment vote => replica.Checkable vote ∧
      (replica.enclave.automata.Accepts vote → vote.isUsig = true →
        vote.getPreparedBlockView ≤ vote.getView ∧
        (vote.isPrepare = true → vote.getBlockView = vote.getView) ∧ replica.Undisputed vote)
  | .newBlock block prepare =>
    (block.view < replica.view → ∀ existing ∈ replica.blockstore.get block.view,
      existing.hashValue = block.hashValue) ∧
    ∀ accumulator ∈ block.justification.getCommitment,
      replica.Checkable accumulator ∧ replica.Checkable prepare ∧
      (replica.enclave.automata.Accepts accumulator →
        accumulator.getBlockView < block.view ∧ replica.Undivided block)
  | .requestedBlock block =>
    replica.requestedBlocks block.view = some block.hashValue →
      ∃ accumulator ∈ block.justification.getCommitment,
        accumulator.getBlockView < block.view ∧ replica.Undivided block

/-- The views that the replica can get to with what it has stored and collected come before the last
one. -/
def Early (replica : Replica P) : Prop := replica.view + replica.weight + 4 ≤ View.last

instance (replica : Replica P) : Decidable replica.Early :=
  inferInstanceAs (Decidable (_ ≤ _))

def Affords (short : Prop) (env : Env P) (replica : Replica P) : Prop :=
  ¬ short → replica.view + replica.weight + 1 < env.budget

structure Took (lax : Prop) (before after : Replica P) : Prop where
  sane : after.Sane lax 1
  grown : before.Extends after
  spent : after.view + after.weight ≤ before.view + before.weight + 1

theorem Handled.took {more : Nat} {before after : Replica P}
    (handled : before.Handled lax more after) (low : more ≤ 1) : before.Took lax after :=
  ⟨handled.sane, handled.grown, by have := handled.spent; omega⟩

section
variable {short lax : Prop} {env : Env P}
  {replica next : Replica P} {vote prepare : SignedCommitment P} {sender peer : Nat}
  {block : Block P} {enclave : Enclave P} {key : P.PublicKey} {output : Output P}

theorem storeCommitment_took (sane : replica.Sane lax 1)
    (votable : replica.enclave.automata.Votable vote) (undisputed : replica.Undisputed vote) :
    replica.Took lax (replica.storeCommitment vote) := by
  unfold storeCommitment
  split
  · exact (Handled.refl sane 0).took (by omega)
  have memVotes : ∀ {other : SignedCommitment P}, other ∈ replica.commitments ++
      insert SignedCommitment.before vote replica.storedCommitments →
      other = vote ∨ other ∈ replica.votes := by
    intro other member
    simp only [mem_append, mem_insert, votes] at member ⊢
    tauto
  refine ⟨{ sane with
    kept := ?_
    undisputed := ?_
    echoes := sane.heard { Extends.refl _ with } rfl },
    { Extends.refl replica with }, ?_⟩
  · intro other member
    rcases (mem_insert _ _ _ _).mp member with rfl | before
    · exact votable
    · exact sane.kept other before
  · intro left isLeft leftPrepares free right isRight rightPrepares sameView
    rcases memVotes isLeft with rfl | leftBefore
    · rcases memVotes isRight with rfl | rightBefore
      · rfl
      · exact undisputed leftPrepares free right rightBefore rightPrepares sameView
    rcases memVotes isRight with rfl | rightBefore
    · exact (undisputed rightPrepares (by rw [sameView]; exact free) left leftBefore
        leftPrepares sameView.symm).symm
    · exact sane.undisputed left leftBefore leftPrepares free right rightBefore rightPrepares
        sameView
  simp only [weight, load, Heaps.insert, orderedInsert_length]
  change replica.view + (_ + replica.foreign.length) ≤ _
  omega

theorem checkView_returns (bounded : ¬ short → vote.getView ≠ View.last) :
    Returns (Stops short lax) (fun _ => True) vote.checkView := by
  unfold SignedCommitment.checkView
  split
  · next last =>
    show short
    by_contra long
    exact bounded long last.2
  · exact .pure trivial

theorem processCommitment_returns [P.Dependable] (sane : replica.Sane lax 1)
    (bounded : ¬ short → vote.getView ≠ View.last) (checkable : replica.Checkable vote)
    (harmless : replica.enclave.automata.Accepts vote → vote.isUsig = true →
      vote.getPreparedBlockView ≤ vote.getView ∧
        (vote.isPrepare = true → vote.getBlockView = vote.getView) ∧ replica.Undisputed vote)
    (enough : replica.Affords short env) : Returns (Stops short lax)
    (fun next => replica.Took lax next ∧
      (vote.getCreator = replica.me → vote.getView < replica.view → replica.Handled lax 0 next))
      (replica.processCommitment env sender vote) := by
  have unchanged : replica.Took lax replica ∧ (vote.getCreator = replica.me →
      vote.getView < replica.view → replica.Handled lax 0 replica) :=
    ⟨(Handled.refl sane 0).took (by omega), fun _ _ => .refl sane 0⟩
  unfold processCommitment
  split
  · exact .pure unchanged
  refine (checkView_returns bounded).bind fun _ _ => ?_
  split
  · exact .pure unchanged
  rename_i notOutdated
  obtain ⟨answer, checked⟩ := checkable.answer
  refine Returns.step checked ?_
  cases answer with
  | false => exact .pure unchanged
  | true =>
    simp only [Bool.not_true, Bool.false_eq_true, if_false]
    split
    · exact .pure unchanged
    split
    · exact .pure unchanged
    rename_i isUsig
    have isUsig : vote.isUsig = true := by simpa using isUsig
    obtain ⟨prepared, inView, undisputed⟩ := harmless checked isUsig
    have votable : replica.enclave.automata.Votable vote :=
      ⟨isUsig, checked, prepared, inView⟩
    have usable : vote.usableView = vote.getView + 1 := rfl
    split
    · next ahead =>
      exact .pure ⟨storeCommitment_took sane votable undisputed,
        fun _ earlier => by omega⟩
    rename_i now
    have offered : replica.Offered vote :=
      ⟨votable, SignedCommitment.usableView_eq notOutdated now, undisputed⟩
    obtain ⟨fuelled, -⟩ := env.budget_le
    have weighs : replica.load ≤ replica.weight := Nat.le_add_right _ _
    by_cases own : vote.getCreator = replica.me
    · refine (applyCommitment_returns (roundTransition_transits env.fuel) sane offered
        (by rw [if_pos own]) fun long => ?_).imp fun next handled =>
          ⟨handled.took (by omega), fun _ _ => handled⟩
      have budget := enough long
      omega
    refine (applyCommitment_returns (roundTransition_transits env.fuel) sane offered
      (by rw [if_neg own]) fun long => ?_).imp fun next handled =>
        ⟨handled.took (by omega), fun same => absurd same own⟩
    have budget := enough long
    omega

theorem unicast_unechoed {pending : UnreflectedOutput P} {receiver : Nat}
    (other : receiver ≠ pending.me) (message : PeerMessage P) :
    Unechoed pending (pending.unicast receiver message) := by
  unfold UnreflectedOutput.unicast
  rw [if_neg other]
  exact ⟨rfl, rfl⟩

/-- Answering the open requests for a block closes them and sends nothing to the replica itself. -/
theorem answerOpenRequests_eq (outputMe : replica.output.me = replica.me)
    (waiting : ∀ view ids, replica.openBlockRequests view = some ids → replica.me ∉ ids)
    (block : Block P) : ∃ output, replica.answerOpenRequests block = { replica with
        openBlockRequests := update replica.openBlockRequests block.view none, output } ∧
      Unechoed replica.output output := by
  unfold answerOpenRequests
  split
  · next closed =>
    refine ⟨replica.output, ?_, rfl, rfl⟩
    rw [← closed, update_eq_self]
  rename_i ids found
  have others : ∀ receiver ∈ ids.iter, receiver ≠ replica.me := by
    rintro receiver member rfl
    exact waiting _ ids found ((IdSet.mem_iter _ _).mp member)
  generalize ids.iter = receivers at others
  have answered : ∀ output, output.me = replica.me →
      ∃ result, receivers.foldl (fun replica receiver =>
        replica.unicast receiver (.requestedBlock block)) ({ replica with
          openBlockRequests := update replica.openBlockRequests block.view none,
          output } : Replica P) = { replica with
            openBlockRequests := update replica.openBlockRequests block.view none,
            output := result } ∧ Unechoed output result := by
    induction receivers with
    | nil => exact fun output _ => ⟨output, rfl, rfl, rfl⟩
    | cons receiver rest ih =>
      intro output isMe
      have sent : Unechoed output (output.unicast receiver ⟨replica.me, .requestedBlock block⟩) :=
        unicast_unechoed (by rw [isMe]; exact others receiver mem_cons_self) _
      obtain ⟨result, folded, same⟩ := ih
        (fun other member => others other (mem_cons_of_mem _ member))
        (output.unicast receiver ⟨replica.me, .requestedBlock block⟩) (sent.1.trans isMe)
      exact ⟨result, folded, same.1.trans sent.1, same.2.trans sent.2⟩
  exact answered replica.output outputMe

theorem accepted_handled (sane : replica.Sane lax 1) (block : Block P) :
    replica.Handled lax 0 ((replica.answerOpenRequests block).forgetRequest block.view) ∧
      ((replica.answerOpenRequests block).forgetRequest block.view).enclave = replica.enclave ∧
      ((replica.answerOpenRequests block).forgetRequest block.view).view = replica.view ∧
      ((replica.answerOpenRequests block).forgetRequest block.view).blockstore =
      replica.blockstore ∧
      ((replica.answerOpenRequests block).forgetRequest block.view).commitments =
      replica.commitments ∧
      ((replica.answerOpenRequests block).forgetRequest block.view).requestedBlocks block.view =
      none := by
  obtain ⟨output, answers, unechoed⟩ := answerOpenRequests_eq sane.outputMe sane.waiting block
  rw [answers]
  refine ⟨⟨{ sane with
    outputMe := unechoed.1.trans sane.outputMe
    waiting := ?_
    requested := ?_
    echoes := sane.heard { Extends.refl _ with } unechoed.2 }, { Extends.refl replica with },
    le_rfl, le_rfl,
    fun _ => unechoed.2⟩, rfl, rfl, rfl, rfl, ?_⟩
  · intro view hash found
    simp only [forgetRequest, update_apply] at found
    split at found
    · cases found
    · exact sane.requested view hash found
  · intro view ids isOpen
    simp only [forgetRequest, update_apply] at isOpen
    split at isOpen
    · cases isOpen
    · exact sane.waiting view ids isOpen
  · simp [forgetRequest]

theorem storeBlock_took (sane : replica.Sane lax 1) {accumulator : SignedCommitment P}
    (justifies : replica.enclave.automata.Justifies accumulator block)
    (ahead : replica.view < block.view) : replica.Took lax (replica.storeBlock block) := by
  unfold storeBlock
  split
  · exact (Handled.refl sane 0).took (by omega)
  rename_i unknown
  have fresh := (not_knows_iff _ _ _).mp (Bool.eq_false_iff.mpr unknown)
  refine ⟨{ sane with
    stored := ?_
    ordered := ?_
    echoes := sane.heard { Extends.refl _ with } rfl },
    { Extends.refl replica with }, ?_⟩
  · intro other member
    rcases (mem_insert _ _ _ _).mp member with rfl | before
    · exact ⟨ahead, accumulator, justifies⟩
    · exact sane.stored other before
  · exact insert_increasing sane.ordered fresh
  simp only [weight, load, Heaps.insert, orderedInsert_length]
  change replica.view + (_ + replica.foreign.length) ≤ _
  omega

theorem alreadyKnown_ok
    (harmless : block.view < replica.view → ∀ existing ∈ replica.blockstore.get block.view,
      existing.hashValue = block.hashValue) :
    ∃ known, replica.alreadyKnown block = .ok known ∧ (known = false →
      block.view < replica.view → replica.blockstore.get block.view = none) := by
  unfold alreadyKnown
  split
  · next earlier =>
    cases found : replica.blockstore.get block.view with
    | none => exact ⟨false, rfl, fun _ _ => rfl⟩
    | some existing =>
      have same := harmless earlier existing found
      simp only [ne_eq, same, not_true_eq_false, if_false]
      exact ⟨true, rfl, by simp⟩
  · next notEarlier => exact ⟨false, rfl, fun _ earlier => absurd earlier notEarlier⟩

/-- The checks on a new block come to a result; if they succeed, the block is justified. -/
theorem acceptable_returns (bounded : ¬ short → ∀ accumulator ∈ block.justification.getCommitment,
      accumulator.getView ≠ View.last)
    (checkable : ∀ accumulator ∈ block.justification.getCommitment,
      replica.Checkable accumulator ∧ replica.Checkable prepare) :
    Returns (Stops short lax) (fun accepted => accepted = true →
      ∃ accumulator, block.justification = .quorum accumulator ∧
        accumulator.isAccumulator = true ∧ accumulator.getView + 1 = block.view ∧
        replica.enclave.automata.Accepts accumulator) (replica.acceptable block prepare) := by
  have refused {result : Prop} : false = true → result := fun impossible => by cases impossible
  unfold acceptable
  cases isQuorum : block.justification with
  | genesis => exact .pure refused
  | quorum accumulator =>
    obtain ⟨first, second⟩ := checkable accumulator (by rw [isQuorum]; rfl)
    obtain ⟨answer, checked⟩ := first.answer
    obtain ⟨vote, voteChecked⟩ := second.answer
    simp only [Justification.getCommitment]
    split
    · exact .pure refused
    rename_i accumulates
    refine (checkView_returns fun long => bounded long accumulator (by rw [isQuorum]; rfl)).bind
      fun _ _ => ?_
    split
    · exact .pure refused
    rw [checked, voteChecked]
    have accumulates : accumulator.isAccumulator = true := by simpa using accumulates
    cases answer with
    | false => exact .pure refused
    | true =>
      simp only [bind, Except.bind, Bool.not_true, Bool.false_eq_true, if_false]
      split
      · exact .pure refused
      rename_i usable
      have holds : ∃ other, Justification.quorum accumulator = .quorum other ∧
          other.isAccumulator = true ∧ other.getView + 1 = block.view ∧
          replica.enclave.automata.Accepts other :=
        ⟨accumulator, rfl, accumulates, not_not.mp usable, checked⟩
      repeat' split
      all_goals exact .pure fun _ => holds

theorem processBlock_returns [P.Dependable] (sane : replica.Sane lax 1)
    (known : block.view < replica.view → ∀ existing ∈ replica.blockstore.get block.view,
      existing.hashValue = block.hashValue)
    (harmless : ∀ accumulator ∈ block.justification.getCommitment,
      replica.Checkable accumulator ∧ replica.Checkable prepare ∧
      (replica.enclave.automata.Accepts accumulator →
        accumulator.getBlockView < block.view ∧ replica.Undivided block))
    (bounded : ¬ short → ∀ accumulator ∈ block.justification.getCommitment,
      accumulator.getView ≠ View.last)
    (enough : replica.Affords short env) :
    Returns (Stops short lax) (replica.Took lax) (replica.processBlock env block prepare) := by
  have unchanged : replica.Took lax replica := (Handled.refl sane 0).took (by omega)
  obtain ⟨isKnown, knows, missing⟩ := alreadyKnown_ok known
  unfold processBlock
  refine Returns.step knows ?_
  cases isKnown with
  | true => exact .pure unchanged
  | false =>
    simp only [Bool.false_eq_true, if_false]
    refine (acceptable_returns bounded fun accumulator member =>
      ⟨(harmless accumulator member).1, (harmless accumulator member).2.1⟩).bind
        fun accepted justified => ?_
    cases accepted with
    | false => exact .pure unchanged
    | true =>
      obtain ⟨accumulator, isQuorum, accumulates, usable, verified⟩ := justified rfl
      obtain ⟨below, undivided⟩ := (harmless accumulator (by rw [isQuorum]; rfl)).2.2 verified
      obtain ⟨handled, sameEnclave, sameView, sameStore, sameVotes, unrequested⟩ :=
        accepted_handled sane block
      have weighs : replica.load ≤ replica.weight := Nat.le_add_right _ _
      obtain ⟨fuelled, -⟩ := env.budget_le
      have spent := handled.spent
      have lighter := handled.lighter
      simp only [Bool.not_true, Bool.false_eq_true, if_false]
      generalize (replica.answerOpenRequests block).forgetRequest block.view = ready at *
      have justifies : ready.enclave.automata.Justifies accumulator block := by
        rw [sameEnclave]
        exact ⟨isQuorum, accumulates, usable, verified, below⟩
      split
      · next ahead =>
        have stored := storeBlock_took handled.sane justifies ahead
        exact .pure ⟨stored.sane, handled.grown.trans stored.grown, by have := stored.spent; omega⟩
      rename_i notAhead
      by_cases current : ready.view = block.view
      · have prepares : Returns (Stops short lax) _
            (ready.addAndPrepareBlock (roundTransition env env.fuel) env block) :=
          addAndPrepareBlock_current (roundTransition_transits env.fuel) handled.sane
            justifies current fun long => by
              have budget := enough long
              omega
        refine prepares.bind ?_
        rintro ⟨next, vote⟩ ⟨saneNext, grown, -, -, spentNext, -⟩
        change next.view + next.weight ≤ _ at spentNext
        have took : replica.Took lax next :=
          ⟨saneNext, handled.grown.trans grown, by omega⟩
        exact .pure took
      have stores : Returns (Stops short lax) _
          (ready.addAndPrepareBlock (roundTransition env env.fuel) env block) :=
        addAndPrepareBlock_earlier handled.sane isQuorum below (by omega)
          unrequested (by rw [sameStore]; exact missing rfl (by omega))
          (by intro vote member; rw [sameVotes] at member; exact undivided vote member)
      refine stores.bind ?_
      rintro ⟨next, vote⟩ ⟨saneNext, grown, viewNext, weightNext, -⟩
      change next.view = _ at viewNext
      change next.weight = _ at weightNext
      have took : replica.Took lax next :=
        ⟨saneNext, handled.grown.trans grown, by omega⟩
      exact .pure took

theorem addPeer_key {next : Enclave P} (added : enclave.addPeer peer key = .ok next) :
    P.addPeer enclave.automata.trusted peer key = .ok next.automata.trusted := by
  simp only [Enclave.addPeer] at added
  cases found : P.addPeer enclave.automata.trusted peer key with
  | error error => simp [found, Except.map] at added
  | ok trusted =>
    simp only [found, Except.map, Except.ok.injEq] at added
    rw [← added]

theorem addPeer_registered [dependable : P.Dependable] {next : Enclave P}
    (added : enclave.addPeer peer key = .ok next) (registered : enclave.automata.Registered) :
    next.automata.Registered := by
  have addedKey := addPeer_key added
  obtain ⟨trusted, rfl⟩ := Enclave.addPeer_ok added
  intro count hash signature made
  rw [dependable.signer addedKey] at made
  exact dependable.remembers addedKey (registered count hash signature made)

theorem addPeer_orderly [dependable : P.Dependable] {slack : Nat}
    (orderly : replica.Orderly lax slack) (added : replica.enclave.addPeer peer key = .ok enclave)
    (peersAdded : Nat) : ({ replica with enclave, peersAdded } : Replica P).Orderly lax slack ∧
      replica.Extends { replica with enclave, peersAdded } := by
  have addedKey := addPeer_key added
  obtain ⟨trusted, rfl⟩ := Enclave.addPeer_ok added
  have accepts : ∀ signed, replica.enclave.automata.Accepts signed →
      ({ replica.enclave.automata with trusted } : EnclaveAutomata P).Accepts signed :=
    fun _ accepted => dependable.remembers addedKey accepted
  have grown : replica.Extends { replica with
      peersAdded, enclave := { replica.enclave with
        automata := { replica.enclave.automata with trusted } } } :=
    { Extends.refl replica with accepts := accepts }
  refine ⟨{ orderly with
    stored := fun block member => ⟨(orderly.stored block member).1,
      (orderly.stored block member).2.imp fun accumulator justifies =>
        { justifies with accepted := accepts accumulator justifies.accepted }⟩
    kept := fun vote member => votable_later (orderly.kept vote member) (accepts vote)
    collected := fun vote member => ⟨votable_later (orderly.collected vote member).1 (accepts vote),
      (orderly.collected vote member).2⟩
    echoes := orderly.heard grown rfl }, grown⟩

theorem addPeer_handled [P.Dependable] (sane : replica.Sane lax 1)
    (added : replica.enclave.addPeer peer key = .ok enclave) :
    replica.Handled lax 0 { replica with enclave, peersAdded := replica.peersAdded + 1 } := by
  obtain ⟨orderly, grown⟩ := addPeer_orderly sane.toOrderly added (replica.peersAdded + 1)
  exact ⟨{ orderly with registered := addPeer_registered added sane.registered }, grown,
    le_rfl, le_rfl, fun _ => rfl⟩

theorem processHandshake_returns [P.Dependable] (sane : replica.Sane lax 1)
    (harmless : replica.welcomes sender key = true) (enough : replica.Affords short env) :
    Returns (Stops short lax) (replica.Took lax) (replica.processHandshake env sender key) := by
  have unchanged : replica.Took lax replica := (Handled.refl sane 0).took (by omega)
  unfold processHandshake
  unfold welcomes at harmless
  cases added : replica.enclave.addPeer sender key with
  | error error =>
    rw [added] at harmless
    cases error with
    | doubleKeyReceived => exact .pure unchanged
    | _ => cases harmless
  | ok enclave =>
    have joins := addPeer_handled sane added
    simp only
    split
    · have weighs : replica.load ≤ replica.weight := Nat.le_add_right _ _
      refine (newView_returns joins.sane fun long => ?_).bind ?_
      · have budget := enough long
        change replica.view + replica.load + 1 < _
        omega
      rintro next ⟨saneNext, grown, spent⟩
      change _ ≤ replica.view + 1 + replica.load at spent
      refine .pure ⟨{ saneNext with echoes := saneNext.heard { Extends.refl _ with } rfl },
        { joins.grown.trans grown with }, ?_⟩
      change next.view + next.weight ≤ _
      omega
    · exact .pure (joins.took (by omega))

theorem processBlockRequest_cases (replica : Replica P) (sender blockView : Nat) :
    (∃ block, replica.processBlockRequest sender blockView =
        replica.unicast sender (.requestedBlock block)) ∨ replica.blockstore.get blockView = none ∧
        (∀ block ∈ replica.storedBlocks, block.view ≠ blockView) ∧
        replica.processBlockRequest sender blockView = { replica with
          openBlockRequests := update replica.openBlockRequests blockView
            (some (((replica.openBlockRequests blockView).getD IdSet.empty).insert sender)) } := by
  unfold processBlockRequest
  split
  · exact .inl ⟨_, rfl⟩
  rename_i missing
  split
  · exact .inl ⟨_, rfl⟩
  rename_i unknown
  refine .inr ⟨missing, ?_, rfl⟩
  simpa using unknown

/-- The replica itself does not wait, also once the request of another one is noted. -/
theorem waiting_insert (other : sender ≠ replica.me) {blockView view : Nat} {ids : IdSet}
    (waiting : ∀ view ids, replica.openBlockRequests view = some ids → replica.me ∉ ids)
    (found : update replica.openBlockRequests blockView
      (some (((replica.openBlockRequests blockView).getD IdSet.empty).insert sender)) view =
        some ids) : replica.me ∉ ids := by
  rw [update_apply] at found
  split at found
  · cases found
    rw [IdSet.mem_insert, not_or]
    refine ⟨Ne.symm other, ?_⟩
    cases isOpen : replica.openBlockRequests blockView with
    | none => simp
    | some ids => exact waiting blockView ids isOpen
  · exact waiting view ids found

theorem processBlockRequest_handled (sane : replica.Sane lax 1) (other : sender ≠ replica.me)
    (blockView : Nat) : replica.Handled lax 0 (replica.processBlockRequest sender blockView) := by
  rcases processBlockRequest_cases replica sender blockView with ⟨block, answers⟩ | ⟨-, -, noted⟩
  · have sent : Unechoed replica.output
        (replica.output.unicast sender ⟨replica.me, .requestedBlock block⟩) :=
      unicast_unechoed (by rw [sane.outputMe]; exact other) _
    have grown : replica.Extends (replica.unicast sender (.requestedBlock block)) :=
      { Extends.refl replica with }
    rw [answers]
    exact ⟨{ sane with
      outputMe := sent.1.trans sane.outputMe
      echoes := sane.heard grown sent.2 }, grown, le_rfl, le_rfl, fun _ => sent.2⟩
  rw [noted]
  refine ⟨{ sane with
    waiting := fun view ids found => waiting_insert other sane.waiting found
    echoes := sane.heard { Extends.refl _ with } rfl },
    { Extends.refl replica with }, le_rfl, le_rfl, fun _ => rfl⟩

theorem processRequestedBlock_returns [P.Dependable] (sane : replica.Sane lax 1)
    (harmless : replica.requestedBlocks block.view = some block.hashValue →
      ∃ accumulator ∈ block.justification.getCommitment,
        accumulator.getBlockView < block.view ∧ replica.Undivided block)
    (enough : replica.Affords short env) :
    Returns (Stops short lax) (replica.Took lax) (replica.processRequestedBlock env block) := by
  unfold processRequestedBlock
  cases found : replica.requestedBlocks block.view with
  | none => exact .pure ((Handled.refl sane 0).took (by omega))
  | some hash =>
    obtain ⟨earlier, missing⟩ := sane.requested block.view hash found
    have forgets : replica.Handled lax 0 (replica.forgetRequest block.view) := by
      refine ⟨{ sane with
        requested := ?_
        echoes := sane.heard { Extends.refl _ with } rfl },
        { Extends.refl replica with }, le_rfl, le_rfl, fun _ => rfl⟩
      intro view other isRequested
      simp only [forgetRequest, update_apply] at isRequested
      split at isRequested
      · cases isRequested
      · exact sane.requested view other isRequested
    simp only
    split
    · exact .pure (forgets.took (by omega))
    rename_i same
    have same := not_not.mp same
    rw [same] at found
    obtain ⟨accumulator, member, below, undivided⟩ := harmless found
    have isQuorum := Justification.getCommitment_eq_some.mp member
    refine Returns.asserted (Option.isNone_iff_eq_none.mpr missing) ?_
    have stores : Returns (Stops short lax) _ ((replica.forgetRequest block.view).addAndPrepareBlock
        (roundTransition env env.fuel) env block) :=
      addAndPrepareBlock_earlier forgets.sane isQuorum below earlier
        (by simp [forgetRequest]) missing undivided
    refine stores.bind ?_
    rintro ⟨next, vote⟩ ⟨saneNext, grown, viewNext, weightNext, -⟩
    change next.view = replica.view at viewNext
    change next.weight = replica.weight at weightNext
    change (replica.forgetRequest block.view).Extends next at grown
    change next.Sane lax 1 at saneNext
    have weighs : next.load ≤ next.weight := Nat.le_add_right _ _
    obtain ⟨fuelled, -⟩ := env.budget_le
    have entering : next.Sane lax 0 := { saneNext with stored := fun other member =>
      ⟨by have := (saneNext.stored other member).1; omega, (saneNext.stored other member).2⟩ }
    refine (prepareStored_returns (roundTransition_transits env.fuel)
      entering fun long => ?_).imp fun last handled => ?_
    · have budget := enough long
      omega
    · have spent := handled.spent
      exact ⟨handled.sane, (forgets.grown.trans grown).trans handled.grown, by omega⟩

theorem dispatch_returns [P.Dependable] (sane : replica.Sane lax 1) {peerMessage : PeerMessage P}
    (harmless : replica.Harmless peerMessage) (bounded : ¬ short → peerMessage.message.Bounded)
    (other : peerMessage.sender ≠ replica.me) (enough : replica.Affords short env) :
    Returns (Stops short lax) (replica.Took lax) (replica.dispatch env peerMessage) := by
  obtain ⟨sender, message⟩ := peerMessage
  cases message with
  | newBlock block prepare =>
    exact processBlock_returns sane harmless.1 harmless.2 bounded enough
  | commitment vote =>
    exact (processCommitment_returns sane bounded harmless.1 harmless.2 enough).imp
      fun _ both => both.1
  | handshake key => exact processHandshake_returns sane harmless enough
  | blockRequest view => exact .pure ((processBlockRequest_handled sane other view).took (by omega))
  | requestedBlock block => exact processRequestedBlock_returns sane harmless enough

theorem Handled.affords {before after : Replica P} (handled : before.Handled lax 0 after)
    (affords : before.Affords short env) : after.Affords short env := by
  intro long
  have budget := affords long
  have spent := handled.spent
  omega

theorem machine_total [P.Dependable] :
    (machine env).Total (Stops short lax)
    (fun replica => replica.Sane lax 1 ∧ replica.Affords short env)
      Extends (fun replica peerMessage => ∃ vote, replica.Echo peerMessage vote) weight where
  trans := Extends.trans
  dispatch := by
    rintro replica peerMessage ⟨sane, affords⟩ quiet ⟨vote, echo⟩
    obtain ⟨sender, message⟩ := peerMessage
    have isVote : message = .commitment vote := echo.isVote
    subst isVote
    have accepted : replica.enclave.verifyUntrusted vote = .ok true := echo.votable.accepted
    have checkable : replica.Checkable vote := by simp [Checkable, accepted, Except.isOk,
        Except.toBool]
    have undisputed : replica.Undisputed vote := by
      intro isPrepare free
      obtain ⟨block, found, -⟩ := echo.holds isPrepare
      rw [free] at found
      cases found
    have bounded : ¬ short → vote.getView ≠ View.last := by
      intro long
      have budget := affords long
      have early := env.budget_le.2
      have earlier := echo.earlier
      omega
    refine (processCommitment_returns sane bounded checkable
      (fun _ _ => ⟨echo.votable.prepared, echo.votable.inView, undisputed⟩) affords).imp ?_
    rintro next ⟨-, own⟩
    have handled := own echo.creator echo.earlier
    have spent := handled.spent
    have later := handled.grown.view
    refine ⟨⟨handled.sane, handled.affords affords⟩, handled.grown, by omega, ?_⟩
    -- a vote is only sent when a view is left, and that lowers the weight
    by_cases same : next.view = replica.view
    · exact .inl ((handled.quiet same).trans quiet)
    · exact .inr (by omega)
  take := by
    rintro replica ⟨sane, affords⟩
    have grown : replica.Extends { replica with output := .new replica.me } :=
      { Extends.refl replica with }
    refine ⟨⟨{ sane with
      outputMe := rfl
      echoes := fun peerMessage member => by cases member }, affords⟩, rfl, grown, rfl, ?_⟩
    intro peerMessage member
    exact (sane.echoes peerMessage member).imp fun _ echo => echo.later grown
  admitted := fun grown admitted => admitted.imp fun _ echo => echo.later grown

structure Resting (lax : Prop) (replica : Replica P) : Prop
    extends Orderly lax 1 replica where
  quiet : replica.output.reflectionMessages = []

def GoesOn (short lax : Prop) (before : Replica P) (call : Outcome (Replica P × Output P)) : Prop :=
  Returns (Stops short lax) (fun result => result.1.Resting lax ∧ before.Extends result.1) call

theorem GoesOn.since {before : Replica P} {call : Outcome (Replica P × Output P)}
    (goesOn : replica.GoesOn short lax call) (grown : before.Extends replica) :
    before.GoesOn short lax call :=
  goesOn.imp fun _ ⟨resting, grownToo⟩ => ⟨resting, grown.trans grownToo⟩

theorem reflectWith_returns [P.Dependable] (sane : replica.Sane lax 1) {fuel : Nat}
    (enough : ¬ short → replica.weight < fuel ∧ replica.view + replica.weight + 1 < env.budget) :
    replica.GoesOn short lax ((machine env).reflectWith ((machine env).process fuel) replica) := by
  have affords : replica.Affords short env := fun long => (enough long).2
  refine ((machine_total).reflect_returns fuel ⟨sane, affords⟩
    fun long => (enough long).1).imp ?_
  rintro ⟨next, output⟩ ⟨⟨saneNext, -⟩, quiet, grown⟩
  exact ⟨{ saneNext with quiet := quiet }, grown⟩

theorem processPeerMessage_returns [P.Dependable] (sane : replica.Sane lax 1)
    {peerMessage : PeerMessage P} (harmless : replica.Harmless peerMessage)
    (bounded : ¬ short → peerMessage.message.Bounded) (other : peerMessage.sender ≠ replica.me)
    (enough : ¬ short → replica.view + replica.weight + 3 < env.budget) :
    replica.GoesOn short lax (replica.processPeerMessage env peerMessage) := by
  unfold processPeerMessage
  obtain ⟨fuelled, -⟩ := env.budget_le
  generalize hasFuel : env.fuel = fuel
  cases fuel with
  | zero =>
    refine .fuel ?_
    by_contra long
    have := enough long
    omega
  | succ fuel =>
    refine (dispatch_returns sane harmless bounded other fun long => ?_).bind ?_
    · have := enough long
      omega
    intro next took
    refine (reflectWith_returns took.sane fun long => ?_).since took.grown
    have := enough long
    have := took.spent
    omega

theorem createBlock_quorate {transition : Replica P → Bool → Outcome (Replica P)}
    (orderly : replica.Orderly lax 1) (run : replica.createBlock transition env = .ok next) :
    replica.quorum ≤ replica.commitments.length := by
  simp only [createBlock, bind_ok, Prod.exists] at run
  obtain ⟨accumulated, accumulator, accumulates, -⟩ := run
  obtain ⟨enclave, -, called⟩ := accumulate_ok accumulates
  obtain ⟨-, -, -, view, considered, -, -, within, accumulated⟩ :=
    (Enclave.call_ok called).2.accumulation
  have fewer : considered.map SignedCommitment.getCreator ⊆
      replica.commitments.map SignedCommitment.getCreator := by
    intro creator member
    obtain ⟨vote, isConsidered, rfl⟩ := mem_map.mp member
    have passed := mem_reverse.mp (within.subset isConsidered)
    exact mem_map_of_mem ((env.sorts replica.commitments).1.mem_iff.mp passed)
  have short := (accumulated.distinct.subperm fewer).length_le
  have enough := accumulated.enough
  rw [orderly.enclaveQuorum] at enough
  simp only [length_map] at short
  omega

section

variable [P.Dependable]

theorem Sane.reflect_rests (sane : replica.Sane lax 1)
    (run : replica.reflect env = .ok (next, output)) : next.Resting lax ∧ replica.Extends next := by
  have returns : Returns (Stops True lax) _ (replica.reflect env) :=
    reflectWith_returns sane fun long => absurd trivial long
  exact returns.value run

theorem createBlock_rests {created : Replica P} (sane : replica.Sane lax 1)
    (creates : replica.createBlock (roundTransition env env.fuel) env = .ok created)
    (run : created.reflect env = .ok (next, output)) : next.Resting lax ∧ replica.Extends next := by
  have returns : Returns (Stops True lax) _
      (replica.createBlock (roundTransition env env.fuel) env) :=
    createBlock_returns (roundTransition_transits env.fuel) sane
      (createBlock_quorate sane.toOrderly creates) fun long => absurd trivial long
  obtain ⟨saneNext, grown, -⟩ := returns.value creates
  obtain ⟨resting, grownToo⟩ := saneNext.reflect_rests run
  exact ⟨resting, grown.trans grownToo⟩

theorem initHandshake_rests (resting : replica.Resting lax)
    (run : replica.initHandshake env = .ok (next, output)) :
    next.Resting lax ∧ replica.Extends next := by
  simp only [initHandshake, bind_ok, expect_ok] at run
  obtain ⟨key, -, enclave, added, run⟩ := run
  obtain ⟨orderly, grown⟩ := addPeer_orderly resting.toOrderly added (replica.peersAdded + 1)
  have quiet : (machine env).Quiet (({ replica with
      enclave, peersAdded := replica.peersAdded + 1 } : Replica P).broadcast (.handshake key)) :=
    resting.quiet
  rw [reflect, Reflector.reflect_quiet quiet] at run
  cases run
  exact ⟨{ orderly with
    outputMe := rfl
    echoes := fun peerMessage member => by cases member
    quiet := rfl }, { grown with }⟩

theorem receiveClientRequest_rests (sane : replica.Sane lax 1) {request : P.Tx}
    (run : replica.receiveClientRequest env request = .ok (next, output)) :
    next.Resting lax ∧ replica.Extends next := by
  have inserted : ({ replica with
      pendingClientRequests := replica.pendingClientRequests.insert request } :
      Replica P).Sane lax 1 :=
    { sane with echoes := sane.heard { Extends.refl _ with } rfl }
  simp only [receiveClientRequest] at run
  split at run
  · obtain ⟨full, -, run⟩ := bind_ok.mp run
    split at run
    · obtain ⟨created, creates, reflects⟩ := bind_ok.mp run
      obtain ⟨resting, grown⟩ := createBlock_rests inserted creates reflects
      exact ⟨resting, { grown with }⟩
    · obtain ⟨resting, grown⟩ := inserted.reflect_rests run
      exact ⟨resting, { grown with }⟩
  · obtain ⟨resting, grown⟩ := inserted.reflect_rests run
    exact ⟨resting, { grown with }⟩

theorem handleBlockTimeout_rests (sane : replica.Sane lax 1)
    (run : replica.handleBlockTimeout env = .ok (next, output)) :
    next.Resting lax ∧ replica.Extends next := by
  simp only [handleBlockTimeout] at run
  split at run
  · obtain ⟨created, creates, reflects⟩ := bind_ok.mp run
    exact createBlock_rests sane creates reflects
  · exact sane.reflect_rests run

theorem handleViewTimeout_rests (sane : replica.Sane lax 1)
    (run : replica.handleViewTimeout env = .ok (next, output)) :
    next.Resting lax ∧ replica.Extends next := by
  simp only [handleViewTimeout] at run
  split at run
  · exact sane.reflect_rests run
  obtain ⟨moved, moves, reflects⟩ := bind_ok.mp run
  have returns : Returns (Stops True lax) _ (replica.newView env) :=
    newView_returns sane fun long => absurd trivial long
  obtain ⟨saneNext, grown, -⟩ := returns.value moves
  obtain ⟨resting, grownToo⟩ := saneNext.reflect_rests reflects
  exact ⟨resting, grown.trans grownToo⟩

end

end

theorem initial_resting {config : Config P} (peers : 2 ≤ config.n)
    (sized : ¬ lax → 0 < config.minimumBlockSize)
    (timed : config.initialViewTimeout ≤ durationMax) :
    (initial config).Resting lax where
  quorum := by change 2 ≤ config.n / 2 + 1; omega
  enclaveQuorum := rfl
  enclaveMe := rfl
  outputMe := rfl
  synced := rfl
  locked := .inr ⟨rfl, rfl, rfl⟩
  batch := sized
  patient := le_rfl
  bounded := timed
  tidy := by
    refine ⟨⟨Block.genesis, by simp [initial], rfl⟩, ?_, ?_⟩
    · intro slot block found
      simp only [initial, Blockstore.get_initial] at found
      split at found
      · next first =>
        cases found
        exact ⟨first.symm, fun accumulator isQuorum => by cases isQuorum⟩
      · cases found
    · intro slot _ positive
      simp [initial, ne_of_gt positive]
  requested := fun view hash found => by cases found
  waiting := fun view ids found => by cases found
  stored := fun block member => by cases member
  ordered := List.Pairwise.nil
  kept := fun vote member => by cases member
  collected := fun vote member => by cases member
  distinct := nodup_nil
  senders := fun vote member => by cases member
  undivided := fun slot block found vote member => by cases member
  undisputed := fun vote member => by cases member
  echoes := fun peerMessage member => by cases member
  quiet := rfl

end Replica

end Abcperf.Damysus
