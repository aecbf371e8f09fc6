import Abcperf.Lib.Totality
import Abcperf.Damysus.Acceptance
import Abcperf.Damysus.Handlers

/-! The state of a replica on which no handler stops: every block below the view that it needs is
stored or asked for, the votes it has collected can be accumulated, and the blocks that wait can be
prepared. -/

namespace Abcperf.Damysus

open Lib Lib.Outcome List Option

variable {P : Platform}

/-- How a call may stop: it runs out of iterations or of views, or it fails the assertion that
blocks have a minimum size. -/
def Stops (short lax : Prop) : Panic → Prop
  | .fuel | .overflow => short
  | .assertion => lax
  | _ => False

theorem not_stops (panic : Panic) : ¬ Stops False False panic := by
  cases panic <;> exact id

/-- The lock is on a block of an earlier view. Only in the first view it may be on the genesis
block, which then counts as prepared. -/
def EnclaveAutomata.Locked (automata : EnclaveAutomata P) : Prop :=
  automata.lastPreparedBlockView < automata.view ∨
    (automata.view = 0 ∧ automata.lastPreparedBlockView = 0 ∧
      automata.lastPreparedBlockHash = P.genesis)

/-- Each block is in the slot of its view, is justified by an earlier one, and no block is of the
current view or a later one. -/
structure Blockstore.Tidy (store : Blockstore P) (view : Nat) : Prop where
  root : ∃ block, store.get 0 = some block ∧ block.hashValue = P.genesis
  slots : ∀ slot block, store.get slot = some block → block.view = slot ∧
    ∀ accumulator, block.justification = .quorum accumulator → accumulator.getBlockView < slot
  free : ∀ slot, view ≤ slot → 0 < slot → store.get slot = none

structure EnclaveAutomata.Justifies (automata : EnclaveAutomata P)
    (accumulator : SignedCommitment P) (block : Block P) : Prop where
  isQuorum : block.justification = .quorum accumulator
  accumulates : accumulator.isAccumulator = true
  usable : accumulator.getView + 1 = block.view
  accepted : automata.Accepts accumulator
  earlier : accumulator.getBlockView < block.view

namespace Replica

def votes (replica : Replica P) : List (SignedCommitment P) :=
  replica.commitments ++ replica.storedCommitments

/-- As long as the block of its view is missing, the vote agrees with the others about it. -/
def Undisputed (replica : Replica P) (vote : SignedCommitment P) : Prop :=
  vote.isPrepare = true → replica.blockstore.get vote.getView = none →
    ∀ other ∈ replica.votes, other.isPrepare = true → other.getView = vote.getView →
      other.getBlockHash = vote.getBlockHash

def Undivided (replica : Replica P) (block : Block P) : Prop :=
  ∀ vote ∈ replica.commitments, vote.isPrepare = true → vote.getView = block.view →
    block.hashValue = vote.getBlockHash

/-- The own vote that a replica sends to itself and has still to handle. -/
structure Echo (replica : Replica P) (peerMessage : PeerMessage P) (vote : SignedCommitment P) :
    Prop where
  sender : peerMessage.sender = replica.me
  isVote : peerMessage.message = .commitment vote
  creator : vote.getCreator = replica.me
  votable : replica.enclave.automata.Votable vote
  earlier : vote.getView < replica.view
  holds : vote.isPrepare = true →
    ∃ block, replica.blockstore.get vote.getView = some block ∧
      block.hashValue = vote.getBlockHash

/-- `slack` is 0 while a view is entered, when a block of this view may still be stored, and 1
afterwards. If it is `lax`, blocks need not have a minimum size. -/
structure Orderly (lax : Prop) (slack : Nat) (replica : Replica P) : Prop where
  quorum : 2 ≤ replica.quorum
  enclaveQuorum : replica.enclave.automata.quorum = replica.quorum
  enclaveMe : replica.enclave.automata.me = replica.me
  outputMe : replica.output.me = replica.me
  synced : replica.enclave.automata.view = replica.view
  locked : replica.enclave.automata.Locked
  batch : ¬ lax → 0 < replica.minimumBlockSize
  patient : replica.initialViewTimeout ≤ replica.viewTimeout
  bounded : replica.initialViewTimeout ≤ durationMax
  tidy : replica.blockstore.Tidy replica.view
  requested : ∀ view hash, replica.requestedBlocks view = some hash →
    view < replica.view ∧ replica.blockstore.get view = none
  waiting : ∀ view ids, replica.openBlockRequests view = some ids → replica.me ∉ ids
  stored : ∀ block ∈ replica.storedBlocks, replica.view + slack ≤ block.view ∧
    ∃ accumulator, replica.enclave.automata.Justifies accumulator block
  ordered : replica.storedBlocks.Pairwise fun left right => left.view < right.view
  kept : ∀ vote ∈ replica.storedCommitments, replica.enclave.automata.Votable vote
  collected : ∀ vote ∈ replica.commitments,
    replica.enclave.automata.Votable vote ∧ vote.getView + 1 = replica.view
  distinct : (replica.commitments.map SignedCommitment.getCreator).Nodup
  senders : ∀ vote ∈ replica.commitments, vote.getCreator ∈ replica.commitmentSenders
  undivided : ∀ slot block, replica.blockstore.get slot = some block → replica.Undivided block
  undisputed : ∀ vote ∈ replica.votes, replica.Undisputed vote
  echoes : ∀ peerMessage ∈ replica.output.reflectionMessages,
    ∃ vote, replica.Echo peerMessage vote

/-- An orderly replica whose own key is registered, as `init_handshake` does. -/
structure Sane (lax : Prop) (slack : Nat) (replica : Replica P) : Prop
    extends Orderly lax slack replica where
  registered : replica.enclave.automata.Registered

structure Extends (before after : Replica P) : Prop where
  me : after.me = before.me
  view : before.view ≤ after.view
  accepts : ∀ signed, before.enclave.automata.Accepts signed →
    after.enclave.automata.Accepts signed
  slots : ∀ slot block, before.blockstore.get slot = some block →
    ∃ later, after.blockstore.get slot = some later ∧ later.hashValue = block.hashValue

theorem Extends.refl (replica : Replica P) : replica.Extends replica :=
  ⟨rfl, le_rfl, fun _ => id, fun _ block found => ⟨block, found, rfl⟩⟩

variable {first second third before after replica : Replica P} {vote : SignedCommitment P}
  {slot bound : Nat} {block : Block P} {short lax : Prop}

theorem Extends.trans (left : first.Extends second) (right : second.Extends third) :
    first.Extends third := by
  refine ⟨right.me.trans left.me, left.view.trans right.view,
    fun signed accepted => right.accepts signed (left.accepts signed accepted), ?_⟩
  intro slot block found
  obtain ⟨middle, foundMiddle, sameMiddle⟩ := left.slots slot block found
  obtain ⟨last, foundLast, sameLast⟩ := right.slots slot middle foundMiddle
  exact ⟨last, foundLast, sameLast.trans sameMiddle⟩

theorem votable_later {before after : EnclaveAutomata P} (votable : before.Votable vote)
    (accepts : before.Accepts vote → after.Accepts vote) : after.Votable vote :=
  ⟨votable.usig, accepts votable.accepted, votable.prepared, votable.inView⟩

theorem Echo.later {peerMessage : PeerMessage P} (echo : before.Echo peerMessage vote)
    (grown : before.Extends after) : after.Echo peerMessage vote where
  sender := echo.sender.trans grown.me.symm
  isVote := echo.isVote
  creator := echo.creator.trans grown.me.symm
  votable := votable_later echo.votable (grown.accepts vote)
  earlier := echo.earlier.trans_le grown.view
  holds := by
    intro isPrepare
    obtain ⟨block, found, same⟩ := echo.holds isPrepare
    obtain ⟨later, foundLater, sameLater⟩ := grown.slots _ block found
    exact ⟨later, foundLater, sameLater.trans same⟩

theorem Orderly.heard {slack : Nat} (orderly : before.Orderly lax slack)
    (grown : before.Extends after)
    (same : after.output.reflectionMessages = before.output.reflectionMessages) :
    ∀ peerMessage ∈ after.output.reflectionMessages, ∃ vote, after.Echo peerMessage vote := by
  intro peerMessage member
  rw [same] at member
  exact (orderly.echoes peerMessage member).imp fun _ echo => echo.later grown

def Unechoed (before after : UnreflectedOutput P) : Prop :=
  after.me = before.me ∧ after.reflectionMessages = before.reflectionMessages

theorem executeBlock_returns (held : (replica.blockstore.get slot).isSome) :
    Returns (Stops short lax) replica.Executed (replica.executeBlock slot) := by
  obtain ⟨block, found⟩ := isSome_iff_exists.mp held
  exact Returns.step (unwrap_ok.mpr found) (.pure (executing_executed found))

theorem collectToExecute_returns {store : Blockstore P} {view : Nat} (tidy : store.Tidy view)
    (fuel : Nat) {slot : Nat} {toExecute : List Nat} (enough : ¬ short → slot < fuel)
    (held : ∀ other ∈ toExecute, (store.get other).isSome) :
    Returns (Stops short lax)
      (fun found => ∀ slots, found = some slots → ∀ other ∈ slots, (store.get other).isSome)
      (collectToExecute store fuel slot toExecute) := by
  induction fuel generalizing slot toExecute with
  | zero =>
    refine .fuel ?_
    by_contra long
    exact absurd (enough long) (Nat.not_lt_zero _)
  | succ fuel ih =>
    unfold collectToExecute
    split
    · exact .pure (by simp)
    rename_i block found
    split
    · exact .pure fun _ same => by cases same; exact held
    split
    · exact .pure fun _ same => by cases same; exact held
    rename_i notGenesis
    cases isQuorum : block.justification with
    | genesis => simp [Block.isGenesis, Justification.isGenesis, isQuorum,
        Justification.getCommitment] at notGenesis
    | quorum accumulator =>
      have earlier := (tidy.slots slot block found).2 accumulator isQuorum
      refine Returns.step (unwrap_ok.mpr rfl) ?_
      refine ih (fun long => by have := enough long; omega) ?_
      intro other member
      rcases mem_cons.mp member with rfl | before
      · exact isSome_iff_exists.mpr ⟨block, found⟩
      · exact held other before

theorem executeAll_returns {slots : List Nat}
    (held : ∀ slot ∈ slots, (replica.blockstore.get slot).isSome) :
    Returns (Stops short lax) replica.Executed (slots.foldlM executeBlock replica) := by
  refine Returns.foldlM (.refl replica) fun current slot member executed => ?_
  have stillHeld : (current.blockstore.get slot).isSome := by
    rw [isSome_iff_ne_none, ne_eq, executed.alike.none, ← ne_eq, ← isSome_iff_ne_none]
    exact held slot member
  exact (executeBlock_returns stillHeld).imp fun _ more => executed.trans more

theorem executeChain_returns {env : Env P} (tidy : replica.blockstore.Tidy replica.view)
    (enough : ¬ short → replica.view < env.fuel) (block : Block P)
    (accumulator : SignedCommitment P) :
    Returns (Stops short lax) replica.Executed (replica.executeChain env block accumulator) := by
  unfold executeChain
  split
  · exact .pure (.refl replica)
  split
  · exact .pure (.refl replica)
  split
  · exact .pure (.refl replica)
  rename_i grandJustificationBlock found
  split
  · have inSlot := (tidy.slots _ grandJustificationBlock found).1
    have low : grandJustificationBlock.view ≤ replica.view := by
      by_contra high
      have none := tidy.free grandJustificationBlock.view (by omega) (by omega)
      rw [inSlot, found] at none
      cases none
    refine (collectToExecute_returns tidy env.fuel
      (fun long => low.trans_lt (enough long)) (by simp)).bind ?_
    rintro (_ | slots) held
    · exact .pure (.refl replica)
    · exact executeAll_returns (held slots rfl)
  · exact .pure (.refl replica)

inductive Asked (bound : Nat) (before : Replica P) : Replica P → Prop
  | intro {requestedBlocks : Nat → Option P.BlockHash} {output : UnreflectedOutput P}
      (requested : ∀ view hash, requestedBlocks view = some hash →
        before.requestedBlocks view = some hash ∨
          (view < bound ∧ before.blockstore.get view = none))
      (unechoed : Unechoed before.output output) :
      Asked bound before { before with requestedBlocks, output }

theorem Asked.refl (bound : Nat) (replica : Replica P) : replica.Asked bound replica :=
  .intro (fun _ _ => .inl) ⟨rfl, rfl⟩

theorem Asked.trans (left : first.Asked bound second) (right : second.Asked bound third) :
    first.Asked bound third := by
  cases left with
  | intro requested unechoed =>
    cases right with
    | intro requestedToo unechoedToo =>
      refine .intro (fun view hash found => ?_)
        ⟨unechoedToo.1.trans unechoed.1, unechoedToo.2.trans unechoed.2⟩
      exact (requestedToo view hash found).elim (requested view hash) .inr

theorem requestBlock_asked {view : Nat} (earlier : view < bound)
    (missing : replica.blockstore.get view = none) (hash : P.BlockHash) :
    replica.Asked bound (replica.requestBlock view hash) := by
  unfold requestBlock
  split
  · exact .refl bound replica
  refine .intro (fun other value found => ?_) ⟨rfl, rfl⟩
  simp only [Function.update_apply] at found
  split at found
  · next same => exact .inr ⟨same ▸ earlier, same ▸ missing⟩
  · exact .inl found

theorem requestParent_returns (positive : 0 < block.view) :
    Returns (Stops short lax) (replica.Asked block.view) (replica.requestParent block) := by
  unfold requestParent
  split
  · exact .pure (.refl _ replica)
  rename_i hash _
  have isPredecessor : View.getPredecessor block.view = some (block.view - 1) := by
    cases view : block.view with
    | zero => omega
    | succ before => rfl
  refine Returns.step (unwrap_ok.mpr isPredecessor) ?_
  split
  · next missing =>
    exact .pure (requestBlock_asked (by omega) (isNone_iff_eq_none.mp missing) hash)
  · exact .pure (.refl _ replica)

theorem requestJustification_asked {accumulator : SignedCommitment P}
    (earlier : accumulator.getBlockView < bound) :
    replica.Asked bound (replica.requestJustification accumulator) := by
  unfold requestJustification
  split
  · next missing => exact requestBlock_asked earlier (isNone_iff_eq_none.mp missing) _
  · exact .refl bound replica

theorem Asked.keeps {slack : Nat} (orderly : before.Orderly lax slack) (low : bound ≤ before.view)
    (asked : before.Asked bound after) : after.Orderly lax slack := by
  cases asked with
  | intro requested unechoed =>
    exact { orderly with
      outputMe := unechoed.1.trans orderly.outputMe
      requested := fun view hash found => (requested view hash found).elim
        (orderly.requested view hash) (And.imp_left fun earlier => earlier.trans_le low)
      echoes := orderly.heard { Extends.refl _ with } unechoed.2 }

theorem Asked.grown (asked : before.Asked bound after) : before.Extends after := by
  cases asked with
  | intro requested unechoed => exact { Extends.refl before with }

theorem insertBlock_returns (missing : replica.blockstore.get block.view = none) :
    Returns (Stops short lax) (fun next => ∃ blockstore, next = { replica with blockstore } ∧
      ∀ slot, blockstore.get slot =
        if slot = block.view then some block else replica.blockstore.get slot)
      (replica.insertBlock block) := by
  obtain ⟨blockstore, inserted⟩ : ∃ next, replica.blockstore.insert block = .ok next := by
    unfold Blockstore.insert
    simp only
    split
    · exact ⟨_, rfl⟩
    · simp only [Blockstore.padded_join, missing, bind_ok, assert_ok]
      exact ⟨_, (), trivial, rfl⟩
  refine Returns.step inserted (.pure ⟨blockstore, rfl, ?_⟩)
  exact (Blockstore.insert_ok inserted).2

theorem insertBlock_keeps {slack : Nat} (orderly : replica.Orderly lax slack)
    (earlier : block.view < replica.view)
    (justified : ∀ accumulator, block.justification = .quorum accumulator →
      accumulator.getBlockView < block.view)
    (unrequested : replica.requestedBlocks block.view = none)
    (missing : replica.blockstore.get block.view = none) (undivided : replica.Undivided block)
    {blockstore : Blockstore P} (inserted : ∀ slot, blockstore.get slot =
      if slot = block.view then some block else replica.blockstore.get slot) :
    ({ replica with blockstore } : Replica P).Orderly lax slack ∧
      replica.Extends { replica with blockstore } := by
  have stays : ∀ {slot : Nat} {held : Block P}, replica.blockstore.get slot = some held →
      blockstore.get slot = some held := by
    intro slot held found
    rw [inserted, if_neg ?_]
    · exact found
    rintro rfl
    rw [missing] at found
    cases found
  have before : ∀ {slot : Nat}, blockstore.get slot = none →
      replica.blockstore.get slot = none := by
    intro slot free
    cases found : replica.blockstore.get slot with
    | none => rfl
    | some held =>
      rw [stays found] at free
      cases free
  have grown : replica.Extends { replica with blockstore } := { Extends.refl replica with
    slots := fun slot held found => ⟨held, stays found, rfl⟩ }
  refine ⟨{ orderly with
    tidy := ⟨?_, ?_, ?_⟩
    requested := ?_
    undivided := ?_
    undisputed := fun vote member isPrepare free =>
      orderly.undisputed vote member isPrepare (before free)
    echoes := orderly.heard grown rfl }, grown⟩
  · obtain ⟨root, found, isGenesis⟩ := orderly.tidy.root
    exact ⟨root, stays found, isGenesis⟩
  · intro slot held found
    rw [inserted] at found
    split at found
    · next same =>
      cases found
      exact ⟨same.symm, same ▸ justified⟩
    · exact orderly.tidy.slots slot held found
  · intro slot later nonzero
    rw [inserted, if_neg (by have : replica.view ≤ slot := later; omega)]
    exact orderly.tidy.free slot later nonzero
  · intro view hash found
    obtain ⟨below, free⟩ := orderly.requested view hash found
    refine ⟨below, ?_⟩
    have other : view ≠ block.view := by
      rintro rfl
      rw [unrequested] at found
      cases found
    exact (inserted view).trans ((if_neg other).trans free)
  intro slot held found
  have found : blockstore.get slot = some held := found
  rw [inserted] at found
  split at found
  · cases found
    exact undivided
  · exact orderly.undivided slot held found

def advanced (replica : Replica P) : Replica P :=
  { replica with
    view := replica.view + 1
    commitmentSenders := IdSet.empty
    commitments := [] }

structure Voted (before after : EnclaveAutomata P) : Prop where
  trusted : after.trusted = before.trusted
  me : after.me = before.me
  quorum : after.quorum = before.quorum
  view : after.view = before.view + 1
  locked : after.lastPreparedBlockView ≤ before.view

theorem Voted.accepts {before after : EnclaveAutomata P} (voted : Voted before after)
    (signed : SignedCommitment P) : after.Accepts signed ↔ before.Accepts signed := by
  unfold EnclaveAutomata.Accepts
  rw [voted.trusted]

/-- A replica that has voted in its view and has stored the block it voted for, if any, can enter
the next view. -/
theorem advanced_sane (sane : replica.Sane lax 1) {enclave : Enclave P}
    (voted : Voted replica.enclave.automata enclave.automata) {blockstore : Blockstore P}
    (tidy : blockstore.Tidy (replica.view + 1))
    (before : ∀ {slot}, slot ≠ replica.view → replica.blockstore.get slot = none →
      blockstore.get slot = none) (stays : ∀ {slot held}, replica.blockstore.get slot = some held →
      ∃ later, blockstore.get slot = some later ∧ later.hashValue = held.hashValue)
    {output : UnreflectedOutput P} (outputMe : output.me = replica.output.me)
    (executedTransactions : Nat → Option Nat) (executedBlocks : List (Block P))
    (echoes : ∀ peerMessage ∈ output.reflectionMessages,
      peerMessage ∈ replica.output.reflectionMessages ∨ ∃ vote, ({ replica with
        view := replica.view + 1, enclave, blockstore } : Replica P).Echo peerMessage vote) :
    ({ replica with enclave, blockstore, output, executedTransactions, executedBlocks } :
        Replica P).advanced.Sane lax 0 ∧ replica.Extends { replica with
      enclave, blockstore, output, executedTransactions, executedBlocks } := by
  have sameVotable : ∀ {vote : SignedCommitment P}, replica.enclave.automata.Votable vote →
      enclave.automata.Votable vote := fun votable =>
    votable_later votable (voted.accepts _).mpr
  have grown : replica.Extends { replica with
      enclave, blockstore, output, executedTransactions, executedBlocks } :=
    ⟨rfl, le_rfl, fun signed => (voted.accepts signed).mpr, fun _ _ => stays⟩
  refine ⟨{ sane with
    enclaveQuorum := voted.quorum.trans sane.enclaveQuorum
    enclaveMe := voted.me.trans sane.enclaveMe
    outputMe := outputMe.trans sane.outputMe
    synced := voted.view.trans (congrArg (· + 1) sane.synced)
    locked := .inl ?_
    tidy := tidy
    requested := ?_
    stored := ?_
    kept := fun vote member => sameVotable (sane.kept vote member)
    collected := fun vote member => by cases member
    distinct := nodup_nil
    senders := fun vote member => by cases member
    undivided := fun slot block found vote member => by cases member
    undisputed := ?_
    echoes := ?_
    registered := ?_ }, grown⟩
  · have low := voted.locked
    have view := voted.view
    change enclave.automata.lastPreparedBlockView < enclave.automata.view
    omega
  · intro view hash found
    obtain ⟨below, free⟩ := sane.requested view hash found
    exact ⟨Nat.lt_succ_of_lt below, before (ne_of_lt below) free⟩
  · intro block member
    obtain ⟨later, accumulator, justifies⟩ := sane.stored block member
    exact ⟨later, accumulator, { justifies with
      accepted := (voted.accepts accumulator).mpr justifies.accepted }⟩
  · intro vote member isPrepare free other isOther
    have free : blockstore.get vote.getView = none := free
    refine sane.undisputed vote (mem_append_right _ member) isPrepare ?_ other
      (mem_append_right _ isOther)
    cases found : replica.blockstore.get vote.getView with
    | none => rfl
    | some held =>
      obtain ⟨later, foundLater, -⟩ := stays found
      rw [free] at foundLater
      cases foundLater
  · intro peerMessage member
    rcases echoes peerMessage member with earlier | ⟨vote, echo⟩
    · obtain ⟨vote, echo⟩ := sane.echoes peerMessage earlier
      have later := echo.later grown
      exact ⟨vote, { later with earlier := Nat.lt_succ_of_lt later.earlier }⟩
    · exact ⟨vote, { echo with }⟩
  intro count hash signature made
  have made : P.sign enclave.automata.trusted count hash = .ok signature := made
  change P.verifyUntrusted enclave.automata.trusted enclave.automata.me hash signature = .ok true
  rw [voted.trusted] at made ⊢
  rw [voted.me]
  exact sane.registered count hash signature made

end Replica

end Abcperf.Damysus
