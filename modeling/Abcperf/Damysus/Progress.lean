import Abcperf.Damysus.Orderly

/-! Handlers that return. In an orderly state every call of the enclave succeeds and no assertion
fails, so a handler can only go on for too long. It does not: a view that is left within a call was
left because of a block or a vote that had been stored, and both are used up. -/

namespace Abcperf.Damysus

open Lib Lib.Outcome Heaps Returns List EnclaveAutomata
open SignedCommitment hiding commitment

variable {P : Platform}

namespace EnclaveAutomata

theorem lockedOn_quorum (automata : EnclaveAutomata P) (accumulator : SignedCommitment P)
    (parent : Option P.BlockHash) :
    (automata.lockedOn accumulator parent).quorum = automata.quorum := by
  unfold lockedOn
  split <;> rfl

variable {automata : EnclaveAutomata P}

theorem Locked.low (locked : automata.Locked) : automata.lastPreparedBlockView ≤ automata.view := by
  rcases locked with lower | ⟨first, genesis, -⟩
  · exact lower.le
  · omega

theorem lockedOn_low (locked : automata.Locked) {accumulator : SignedCommitment P}
    (earlier : accumulator.getBlockView < automata.view) (parent : Option P.BlockHash) :
    (automata.lockedOn accumulator parent).lastPreparedBlockView ≤ automata.view := by
  unfold lockedOn
  split
  · exact earlier.le
  · exact locked.low

end EnclaveAutomata

/-- How many views a call may go on for: one for each iteration, and none after the last view. -/
def Env.budget (env : Env P) : Nat := min env.fuel View.last

theorem Env.budget_le (env : Env P) : env.budget ≤ env.fuel ∧ env.budget ≤ View.last :=
  ⟨Nat.min_le_left _ _, Nat.min_le_right _ _⟩

namespace Replica

/-- `enclave` is the replica's after it has given `vote` in the replica's view. -/
structure Casts (replica : Replica P) (enclave : Enclave P) (vote : SignedCommitment P) :
    Prop where
  voted : Voted replica.enclave.automata enclave.automata
  votable : enclave.automata.Votable vote
  creator : vote.getCreator = replica.me
  inView : vote.getView = replica.view

theorem prepareBlock_returns [dependable : P.Dependable] {short lax : Prop} {replica : Replica P}
    (sane : replica.Sane lax 1) {block : Block P} {accumulator : SignedCommitment P}
    (justifies : replica.enclave.automata.Justifies accumulator block)
    (current : replica.view = block.view) (enough : ¬ short → replica.view ≤ View.last) :
    Returns (Stops short lax) (fun result => ∃ enclave, result.1 = { replica with enclave } ∧
      replica.Casts enclave result.2 ∧ result.2.isPrepare = true ∧
      result.2.getBlockHash = block.hashValue) (replica.prepareBlock block accumulator) := by
  have synced := sane.synced
  have earlier := justifies.earlier
  have verified := dependable.trusts justifies.accepted
  by_cases bounded : accumulator.getView = View.last
  · have overflow : replica.enclave.call (.prepare block.view block.hashValue block.justification
        block.parent accumulator.getBlockHash) = .error .overflow := by
      rw [justifies.isQuorum, Enclave.call, perform,
        checkJustification_last bounded justifies.accumulates verified]
      rfl
    rw [prepareBlock, overflow]
    show short
    by_contra long
    have := enough long
    have := justifies.usable
    omega
  have checks : replica.enclave.automata.Preparable block.view accumulator
      accumulator.getBlockHash := by
    refine ⟨bounded, ?_, by omega, rfl, justifies.accumulates, verified⟩
    have := justifies.usable
    omega
  obtain ⟨vote, made, accepted⟩ :=
    prepare_signed checks block.hashValue block.parent
  have checked := @checkJustification_bounded _ replica.enclave.automata _ bounded
  obtain ⟨_, isQuorum, -, -, content⟩ := prepare_ok checked made
  cases isQuorum
  have called : replica.enclave.call (.prepare block.view block.hashValue block.justification
      block.parent accumulator.getBlockHash) = .ok
      (⟨(replica.enclave.automata.lockedOn accumulator block.parent).voted, replica.enclave.log ++
        [⟨.prepare block.view block.hashValue block.justification block.parent
          accumulator.getBlockHash, vote⟩]⟩, .ok vote) := by
    rw [justifies.isQuorum]
    simp only [Enclave.call, perform, checked, made]
    rfl
  have below : accumulator.getBlockView < replica.enclave.automata.view := by omega
  have locked := lockedOn_low sane.locked below block.parent
  have inView : vote.getView = replica.enclave.automata.view := by
    simp [getView, content, commitment]
  unfold prepareBlock
  refine step called (.pure ⟨_, rfl, ⟨⟨?_, ?_, ?_, ?_, locked⟩, ⟨?_, ?_, ?_, ?_⟩, ?_, ?_⟩, ?_, ?_⟩)
  · exact lockedOn_trusted _ _ _
  · exact lockedOn_me _ _ _
  · exact lockedOn_quorum _ _ _
  · exact congrArg (· + 1) (lockedOn_view _ _ _)
  · simp [isUsig, content, commitment]
  · have accepts := accepted sane.registered
    unfold EnclaveAutomata.Accepts at accepts ⊢
    rwa [← lockedOn_trusted replica.enclave.automata accumulator block.parent]
      at accepts
  · rw [inView]
    simpa [getPreparedBlockView, content, commitment] using locked
  · intro _
    rw [inView]
    simp [getBlockView, isPrepare, content, commitment]
  · rw [← sane.enclaveMe]
    simp [getCreator, content, commitment]
  · exact inView.trans synced
  · simp [isPrepare, content, commitment]
  · simp [getBlockHash, isPrepare, content, commitment]

theorem reSign_casts [P.Dependable] {replica : Replica P} (sane : replica.Sane lax 1) :
    ∃ enclave vote, replica.enclave.call .reSignLastPrepared = .ok (enclave, .ok vote) ∧
      replica.Casts enclave vote ∧ (vote.isPrepare = true →
        ∃ block, replica.blockstore.get vote.getView = some block ∧
          block.hashValue = vote.getBlockHash) := by
  obtain ⟨vote, made, accepted⟩ := createUsig_signed
    replica.enclave.automata replica.enclave.automata.lastPreparedBlockHash
    replica.enclave.automata.lastPreparedBlockView
  obtain ⟨-, content⟩ := createUsig_ok made
  have low := sane.locked.low
  have inView : vote.getView = replica.enclave.automata.view := by
    simp [getView, content, commitment]
  have prepares : vote.isPrepare = true →
      replica.enclave.automata.view = replica.enclave.automata.lastPreparedBlockView := by
    intro prepares
    by_contra different
    simp [isPrepare, content, commitment, different] at prepares
  refine ⟨⟨replica.enclave.automata.voted, replica.enclave.log ++ [⟨.reSignLastPrepared, vote⟩]⟩,
    vote, ?_,
    ⟨⟨rfl, rfl, rfl, rfl, low⟩, ⟨?_, accepted sane.registered, ?_, ?_⟩, ?_,
      inView.trans sane.synced⟩,
    ?_⟩
  · simp only [Enclave.call, perform, reSignLastPrepared, made]
    rfl
  · simp [isUsig, content, commitment]
  · rw [inView]
    simpa [getPreparedBlockView, content, commitment] using low
  · intro isPrepare
    rw [inView, prepares isPrepare]
    simp [getBlockView, isPrepare, content, commitment]
  · rw [← sane.enclaveMe]
    simp [getCreator, content, commitment]
  intro isPrepare
  have same := prepares isPrepare
  rcases sane.locked with lower | ⟨first, -, isGenesis⟩
  · omega
  obtain ⟨root, found, rootHash⟩ := sane.tidy.root
  refine ⟨root, by rw [inView, first]; exact found, ?_⟩
  rw [rootHash, ← isGenesis]
  simp [getBlockHash, isPrepare, content, commitment]

@[simp] theorem unicast_output_me (pending : UnreflectedOutput P) (receiver : Nat)
    (message : PeerMessage P) : (pending.unicast receiver message).me = pending.me := by
  unfold UnreflectedOutput.unicast
  split <;> rfl

def load (replica : Replica P) : Nat :=
  replica.storedBlocks.length + replica.storedCommitments.length

def foreign (replica : Replica P) : List (SignedCommitment P) :=
  replica.commitments.filter fun vote => vote.getCreator ≠ replica.me

def weight (replica : Replica P) : Nat := replica.load + replica.foreign.length

/-- What a transition to the next view does if it may take `limit` further ones. -/
def Transits (short lax : Prop) (env : Env P) (limit : Nat)
    (transition : Replica P → Bool → Outcome (Replica P)) : Prop :=
  ∀ (replica : Replica P) (timeout : Bool), replica.advanced.Sane lax 0 →
    (¬ short → replica.load + 1 < limit ∧ replica.view + replica.load + 1 < env.budget) →
    Returns (Stops short lax)
      (fun next => next.Sane lax 1 ∧ replica.Extends next ∧ replica.view < next.view ∧
      next.load ≤ replica.load ∧ next.view + next.weight ≤ replica.view + 1 + replica.load)
      (transition replica timeout)

section
variable {short lax : Prop} {env : Env P} {limit : Nat}
  {transition : Replica P → Bool → Outcome (Replica P)}

theorem Asked.sane {bound slack : Nat} {before after : Replica P} (sane : before.Sane lax slack)
    (low : bound ≤ before.view) (asked : before.Asked bound after) : after.Sane lax slack := by
  have orderly := asked.keeps sane.toOrderly low
  cases asked with
  | intro requested unechoed => exact { orderly with registered := sane.registered }

variable {replica : Replica P} {vote accumulator : SignedCommitment P} {block : Block P}
  {rest : List (SignedCommitment P)}

theorem voted_advanced (sane : replica.Sane lax 1) {enclave : Enclave P}
    (casts : replica.Casts enclave vote) (current : replica.view = block.view)
    (names : vote.getBlockHash = block.hashValue)
    (earlier : ∀ accumulator, block.justification = .quorum accumulator →
      accumulator.getBlockView < block.view) (receiver : Nat) {executed : Replica P}
    (executes : (({ replica with enclave } : Replica P).unicast receiver
      (.commitment vote)).Executed executed) {blockstore : Blockstore P}
    (inserted : ∀ slot, blockstore.get slot =
      if slot = block.view then some block else executed.blockstore.get slot)
    (missing : replica.blockstore.get block.view = none) :
    ({ executed with blockstore } : Replica P).advanced.Sane lax 0 ∧
      replica.Extends { executed with blockstore } := by
  have alike : Alike replica.blockstore executed.blockstore := executes.alike
  have atBlock : blockstore.get block.view = some block := by rw [inserted, if_pos rfl]
  have stays : ∀ {slot : Nat} {held : Block P}, replica.blockstore.get slot = some held →
      ∃ later, blockstore.get slot = some later ∧ later.hashValue = held.hashValue := by
    intro slot held found
    obtain ⟨later, foundLater, same⟩ := alike.symm.some found
    refine ⟨later, ?_, by simpa using congrArg Block.hashValue same⟩
    rw [inserted, if_neg ?_]
    · exact foundLater
    rintro rfl
    rw [missing] at found
    cases found
  have tidy : blockstore.Tidy (replica.view + 1) := by
    refine ⟨?_, ?_, ?_⟩
    · obtain ⟨root, found, isGenesis⟩ := sane.tidy.root
      obtain ⟨later, foundLater, same⟩ := stays found
      exact ⟨later, foundLater, same.trans isGenesis⟩
    · intro slot held found
      rw [inserted] at found
      split at found
      · next same =>
        cases found
        exact ⟨same.symm, same ▸ earlier⟩
      obtain ⟨before, foundBefore, same⟩ := alike.some found
      obtain ⟨inSlot, justified⟩ := sane.tidy.slots slot before foundBefore
      have sameView := congrArg Block.view same
      have sameJustification := congrArg Block.justification same
      exact ⟨sameView.symm.trans inSlot, fun accumulator isQuorum =>
        justified accumulator (sameJustification.trans isQuorum)⟩
    intro slot later positive
    rw [inserted, if_neg (by omega), alike.none]
    exact sane.tidy.free slot (by omega) positive
  cases executes with
  | intro alike stored executedTransactions =>
    refine advanced_sane sane casts.voted tidy ?_ stays ?_ executedTransactions _ ?_
    · intro slot other free
      rw [inserted, if_neg (by omega)]
      exact alike.none.mpr free
    · exact unicast_output_me _ _ _
    intro peerMessage member
    rcases mem_unicast member with before | rfl
    · exact .inl before
    refine .inr ⟨vote, rfl, rfl, casts.creator, casts.votable, ?_, fun _ => ?_⟩
    · change vote.getView < replica.view + 1
      rw [casts.inView]
      exact Nat.lt_succ_self _
    refine ⟨block, ?_, names.symm⟩
    change blockstore.get vote.getView = some block
    rw [casts.inView, current]
    exact atBlock

theorem requests_ok (below : accumulator.getBlockView < block.view) :
    ∃ first, replica.requestParent block = .ok first ∧
      replica.Asked block.view (first.requestJustification accumulator) := by
  have returns : Returns (Stops False False) (replica.Asked block.view)
      (replica.requestParent block) := requestParent_returns (by omega)
  obtain ⟨first, run, asked⟩ := returns.result not_stops
  exact ⟨first, run, asked.trans (requestJustification_asked below)⟩

theorem addAndPrepareBlock_current [P.Dependable]
    (transits : Transits short lax env limit transition) (sane : replica.Sane lax 1)
    (justifies : replica.enclave.automata.Justifies accumulator block)
    (current : replica.view = block.view)
    (enough : ¬ short → replica.load + 1 < limit ∧ replica.view + replica.load + 1 < env.budget) :
    Returns (Stops short lax) (fun result => result.1.Sane lax 1 ∧ replica.Extends result.1 ∧
      replica.view < result.1.view ∧ result.1.load ≤ replica.load ∧
      result.1.view + result.1.weight ≤ replica.view + 1 + replica.load ∧
      ∃ vote, result.2 = some vote ∧ vote.isUsig = true)
      (replica.addAndPrepareBlock transition env block) := by
  have below : accumulator.getBlockView < block.notExecuted.view := justifies.earlier
  obtain ⟨first, requested, asked⟩ := requests_ok below
  unfold addAndPrepareBlock
  refine step (unwrap_ok.mpr (by rw [Block.notExecuted, justifies.isQuorum]; rfl)) ?_
  refine step requested ?_
  generalize first.requestJustification accumulator = second at asked
  have saneSecond := asked.sane sane current.ge
  have grown := asked.grown
  have sameView : second.view = replica.view := by cases asked; rfl
  have sameLoad : second.load = replica.load := by cases asked; rfl
  have justifiesToo : second.enclave.automata.Justifies accumulator block.notExecuted := by
    cases asked
    exact { justifies with }
  have currentToo : second.view = block.notExecuted.view := sameView.trans current
  rw [if_neg (not_not.mpr currentToo)]
  obtain ⟨fuelled, early⟩ := env.budget_le
  refine (prepareBlock_returns saneSecond justifiesToo currentToo fun long => ?_).bind ?_
  · have := enough long
    omega
  rintro ⟨-, vote⟩ ⟨enclave, rfl, casts, isPrepare, names⟩
  refine (executeChain_returns ?_ ?_ block.notExecuted accumulator).bind fun executed executes => ?_
  · exact saneSecond.tidy
  · intro long
    have := enough long
    change second.view < env.fuel
    omega
  have missing : second.blockstore.get block.notExecuted.view = none :=
    saneSecond.tidy.free _ (by omega) (by omega)
  refine (insertBlock_returns (executes.alike.none.mpr missing)).bind ?_
  rintro - ⟨blockstore, rfl, inserted⟩
  obtain ⟨advancedSane, grownToo⟩ := voted_advanced saneSecond casts currentToo names
    (fun other isQuorum => by
      rw [Block.notExecuted, justifies.isQuorum] at isQuorum
      cases isQuorum
      exact below) _ executes inserted missing
  have viewAfter : executed.view = replica.view := by
    cases executes
    exact sameView
  have loadAfter : ({ executed with blockstore } : Replica P).load = replica.load := by
    cases executes
    exact sameLoad
  refine (transits _ false advancedSane ?_).bind ?_
  · intro long
    rw [loadAfter]
    change _ ∧ executed.view + replica.load + 1 < _
    rw [viewAfter]
    exact enough long
  rintro next ⟨saneNext, grownNext, later, lighter, spent⟩
  rw [loadAfter] at lighter spent
  change executed.view < _ at later
  change _ ≤ executed.view + 1 + _ at spent
  rw [viewAfter] at later spent
  exact .pure ⟨saneNext, (grown.trans grownToo).trans grownNext, later, lighter, spent, vote, rfl,
    casts.votable.usig⟩

theorem addAndPrepareBlock_earlier (sane : replica.Sane lax 1)
    (isQuorum : block.justification = .quorum accumulator)
    (below : accumulator.getBlockView < block.view) (earlier : block.view < replica.view)
    (unrequested : replica.requestedBlocks block.view = none)
    (missing : replica.blockstore.get block.view = none) (undivided : replica.Undivided block) :
    Returns (Stops short lax) (fun result => result.1.Sane lax 1 ∧ replica.Extends result.1 ∧
      result.1.view = replica.view ∧ result.1.weight = replica.weight ∧
      result.1.output.reflectionMessages = replica.output.reflectionMessages)
      (replica.addAndPrepareBlock transition env block) := by
  have lower : accumulator.getBlockView < block.notExecuted.view := below
  obtain ⟨first, run, asked⟩ := requests_ok lower
  unfold addAndPrepareBlock
  refine step (unwrap_ok.mpr (by rw [Block.notExecuted, isQuorum]; rfl)) ?_
  refine step run ?_
  generalize first.requestJustification accumulator = second at asked
  have saneSecond := asked.sane sane earlier.le
  have grown := asked.grown
  have same : second.view = replica.view ∧ second.weight = replica.weight ∧
      second.output.reflectionMessages = replica.output.reflectionMessages ∧
      second.blockstore.get block.notExecuted.view = none ∧
      second.Undivided block.notExecuted := by
    cases asked with
    | intro requested unechoed => exact ⟨rfl, rfl, unechoed.2, missing, undivided⟩
  obtain ⟨sameView, sameWeight, quiet, missingToo, undividedToo⟩ := same
  have unrequestedToo : second.requestedBlocks block.notExecuted.view = none := by
    cases asked with
    | intro requested unechoed =>
      by_contra found
      obtain ⟨hash, found⟩ := Option.ne_none_iff_exists'.mp found
      -- only earlier views were asked for
      rcases requested _ hash found with before | ⟨lower, -⟩
      · rw [show block.notExecuted.view = block.view from rfl, unrequested] at before
        cases before
      · exact absurd lower (lt_irrefl _)
  have notCurrent : second.view ≠ block.notExecuted.view := by
    rw [sameView]
    exact ne_of_gt earlier
  rw [if_pos notCurrent]
  refine (insertBlock_returns missingToo).bind ?_
  rintro - ⟨blockstore, rfl, inserted⟩
  obtain ⟨orderly, grownToo⟩ :=
    insertBlock_keeps saneSecond.toOrderly (by rw [sameView]; exact earlier)
    (fun other isOther => by
      rw [Block.notExecuted, isQuorum] at isOther
      cases isOther
      exact below)
    unrequestedToo missingToo undividedToo inserted
  exact .pure ⟨{ orderly with registered := saneSecond.registered }, grown.trans grownToo, sameView,
    sameWeight, quiet⟩

theorem Sane.collected_votes (sane : replica.Sane lax 1) {votes : List (SignedCommitment P)}
    (perm : votes.Perm replica.commitments) : replica.enclave.automata.Collected votes := by
  refine ⟨?_, ?_, ?_⟩
  · intro vote member
    obtain ⟨votable, inView⟩ := sane.collected vote (perm.mem_iff.mp member)
    exact ⟨votable, inView.trans sane.synced.symm⟩
  · exact (perm.map _).nodup_iff.mpr sane.distinct
  intro left isLeft right isRight leftPrepares rightPrepares
  have isLeft := perm.mem_iff.mp isLeft
  have isRight := perm.mem_iff.mp isRight
  have sameView : right.getView = left.getView := by
    have := (sane.collected left isLeft).2
    have := (sane.collected right isRight).2
    omega
  cases found : replica.blockstore.get left.getView with
  | none =>
    exact (sane.undisputed left (mem_append_left _ isLeft) leftPrepares found right
      (mem_append_left _ isRight) rightPrepares sameView).symm
  | some block =>
    have inSlot := (sane.tidy.slots _ block found).1
    have undivided := sane.undivided _ block found
    rw [← undivided left isLeft leftPrepares inSlot.symm,
      ← undivided right isRight rightPrepares (sameView.trans inSlot.symm)]

/-- Collecting the votes in another order and signing an accumulator of them changes nothing. -/
theorem Sane.accumulated {replica : Replica P} (sane : replica.Sane lax 1)
    {commitments : List (SignedCommitment P)} (perm : commitments.Perm replica.commitments)
    {enclave : Enclave P} (isSigned : enclave.automata = replica.enclave.automata.signed)
    (callTryCreateBlock : Bool) (pendingClientRequests : PendingClientRequests P.Tx)
    (proposed : List (Block P)) : ({ replica with
      commitments, enclave, callTryCreateBlock, pendingClientRequests, proposed } :
        Replica P).Sane lax 1 ∧ replica.Extends { replica with
      commitments, enclave, callTryCreateBlock, pendingClientRequests, proposed } := by
  cases enclave with
  | mk automata log =>
    cases isSigned
    have grown : replica.Extends { replica with
        commitments, callTryCreateBlock, pendingClientRequests, proposed
        enclave := ⟨replica.enclave.automata.signed, log⟩ } := { Extends.refl replica with }
    have sameVotes : ∀ vote, vote ∈ commitments ++ replica.storedCommitments ↔
        vote ∈ replica.votes := by
      intro vote
      simp only [votes, mem_append, perm.mem_iff]
    refine ⟨{ sane with
      kept := fun vote member => votable_later (sane.kept vote member) id
      collected := fun vote member =>
        have counted := sane.collected vote (perm.mem_iff.mp member)
        ⟨votable_later counted.1 id, counted.2⟩
      stored := fun block member => (sane.stored block member).imp_right
        (Exists.imp fun _ justifies => { justifies with })
      distinct := (perm.map _).nodup_iff.mpr sane.distinct
      senders := fun vote member => sane.senders vote (perm.mem_iff.mp member)
      undivided := fun slot block found vote member =>
        sane.undivided slot block found vote (perm.mem_iff.mp member)
      undisputed := fun vote member isPrepare free other isOther =>
        sane.undisputed vote ((sameVotes vote).mp member) isPrepare free other
          ((sameVotes other).mp isOther)
      echoes := sane.heard grown rfl
      registered := sane.registered }, grown⟩

theorem accumulate_returns [P.Dependable] (sane : replica.Sane lax 1)
    (enough : replica.quorum ≤ replica.commitments.length) :
    Returns (Stops short lax) (fun result => ∃ enclave, result.1 = { replica with
        callTryCreateBlock := false, commitments := env.sort replica.commitments, enclave } ∧
      enclave.automata = replica.enclave.automata.signed ∧
      result.2.isAccumulator = true ∧ result.2.getView + 1 = replica.view ∧
      replica.enclave.automata.Accepts result.2 ∧ result.2.getBlockView < replica.view)
      (replica.accumulate env) := by
  obtain ⟨perm, sorted⟩ := env.sorts replica.commitments
  have collected := sane.collected_votes perm
  have many := sane.quorum
  have length := perm.length_eq
  have nonempty : env.sort replica.commitments ≠ [] := by
    intro none
    rw [none, length_nil] at length
    omega
  obtain ⟨accumulator, made, accepted⟩ := accumulate_signed collected
    sorted (by rw [length, sane.enclaveQuorum]; exact enough) nonempty
  obtain ⟨view, considered, -, follows, within, accumulated, -, -, inView, isAccumulator⟩ :=
    EnclaveAutomata.accumulate_ok made
  have synced := sane.synced
  have called : replica.enclave.call (.accumulate (env.sort replica.commitments)) = .ok
      (⟨replica.enclave.automata.signed, replica.enclave.log ++
        [⟨.accumulate (env.sort replica.commitments), accumulator⟩]⟩, .ok accumulator) := by
    simp only [Enclave.call, perform, made]
    rfl
  refine step called (.pure ⟨_, rfl, rfl, isAccumulator, ?_, accepted sane.registered, ?_⟩)
  · change accumulator.getView + 1 = replica.view
    omega
  change accumulator.getBlockView < replica.view
  rcases accumulated.names with ⟨atView, -⟩ | ⟨highest, member, names, -, -⟩
  · omega
  have votable := collected.votable highest (mem_reverse.mp (within.subset member))
  have := votable.1.prepared
  have := votable.2
  omega

theorem Sane.broadcast {slack : Nat} (sane : replica.Sane lax slack) (message : Message P) :
    (replica.broadcast message).Sane lax slack :=
  { sane with echoes := sane.heard { Extends.refl _ with } rfl }

theorem foreign_pos (sane : replica.Sane lax 1)
    (enough : replica.quorum ≤ replica.commitments.length) :
    0 < replica.foreign.length := by
  have many := sane.quorum
  have distinct := sane.distinct
  unfold foreign
  rw [length_pos_iff_exists_mem]
  cases votes : replica.commitments with
  | nil => simp [votes] at enough; omega
  | cons first rest =>
    cases rest with
    | nil => simp [votes] at enough; omega
    | cons second rest =>
      rw [votes] at distinct
      simp only [map_cons, nodup_cons, mem_cons, not_or] at distinct
      by_cases own : first.getCreator = replica.me
      · exact ⟨second, by simp [← own, Ne.symm distinct.1.1]⟩
      · exact ⟨first, by simp [own]⟩

theorem buildBlock_builds (replica : Replica P) (accumulator : SignedCommitment P)
    (positive : 0 < replica.view) :
    ∃ block, replica.buildBlock accumulator = .ok block ∧ block.view = replica.view ∧
      block.justification = .quorum accumulator := by
  have isPredecessor : View.getPredecessor replica.view = some (replica.view - 1) := by
    cases view : replica.view with
    | zero => omega
    | succ before => rfl
  simp only [buildBlock, isPredecessor]
  exact ⟨_, rfl, rfl, rfl⟩

theorem createBlock_returns [P.Dependable] (transits : Transits short lax env limit transition)
    (sane : replica.Sane lax 1) (quorate : replica.quorum ≤ replica.commitments.length)
    (enough : ¬ short → replica.load + 1 < limit ∧ replica.view + replica.weight < env.budget) :
    Returns (Stops short lax)
    (fun next => next.Sane lax 1 ∧ replica.Extends next ∧ replica.view < next.view ∧
      next.load ≤ replica.load ∧ next.view + next.weight ≤ replica.view + replica.weight)
      (replica.createBlock transition env) := by
  have someForeign := foreign_pos sane quorate
  have weighs : replica.weight = replica.load + replica.foreign.length := rfl
  refine (accumulate_returns sane quorate).bind ?_
  rintro ⟨accumulated, accumulator⟩ ⟨enclave, isAccumulated, isSigned, isAccumulator, usable,
    accepted, below⟩
  have isAccumulated : accumulated = _ := isAccumulated
  have sameView : accumulated.filterPending.view = replica.view := by rw [isAccumulated]; rfl
  obtain ⟨block, built, inView, isQuorum⟩ := buildBlock_builds accumulated.filterPending
    accumulator (by omega)
  refine step built ?_
  have ready : ({ accumulated.filterPending with
      proposed := accumulated.filterPending.proposed ++ [block] } : Replica P).Sane lax 1 ∧
      replica.Extends { accumulated.filterPending with
        proposed := accumulated.filterPending.proposed ++ [block] } := by
    rw [isAccumulated]
    exact sane.accumulated (env.sorts replica.commitments).1 isSigned _ _ _
  have same : ({ accumulated.filterPending with
      proposed := accumulated.filterPending.proposed ++ [block] } : Replica P).load = replica.load ∧
      accumulated.filterPending.enclave.automata.trusted = replica.enclave.automata.trusted := by
    rw [isAccumulated]
    refine ⟨rfl, ?_⟩
    change enclave.automata.trusted = _
    rw [isSigned]
    rfl
  obtain ⟨saneNow, grown⟩ := ready
  obtain ⟨sameLoad, sameTrusted⟩ := same
  have justifies : accumulated.filterPending.enclave.automata.Justifies accumulator block := by
    refine ⟨isQuorum, isAccumulator, by rw [inView, sameView]; exact usable, ?_,
      by rw [inView, sameView]; exact below⟩
    unfold EnclaveAutomata.Accepts
    rw [sameTrusted]
    exact accepted
  refine (addAndPrepareBlock_current transits saneNow justifies inView.symm ?_).bind ?_
  · intro long
    have budget := enough long
    rw [sameLoad]
    change _ ∧ accumulated.filterPending.view + _ + 1 < _
    omega
  rintro ⟨next, prepare⟩ ⟨saneNext, grownNext, later, lighter, spent, vote, rfl, isUsig⟩
  refine step rfl (asserted isUsig (.pure ⟨saneNext.broadcast _,
    { grown.trans grownNext with }, ?_, lighter.trans sameLoad.le, ?_⟩))
  · change replica.view < next.view
    change accumulated.filterPending.view < next.view at later
    omega
  change next.view + next.weight ≤ _
  change next.view + next.weight ≤ accumulated.filterPending.view + 1 + _ at spent
  omega

structure Offered (replica : Replica P) (vote : SignedCommitment P) : Prop where
  votable : replica.enclave.automata.Votable vote
  inView : vote.getView + 1 = replica.view
  undisputed : replica.Undisputed vote

theorem not_diverges (agrees : ¬ replica.diverges vote = true)
    (found : replica.blockstore.get vote.getBlockView = some block) :
    block.hashValue = vote.getBlockHash := by
  by_contra different
  exact agrees (by simp [diverges, found, Ne.symm different])

theorem collectCommitment_sane (sane : replica.Sane lax 1) (offered : replica.Offered vote)
    (fresh : vote.getCreator ∉ replica.commitmentSenders)
    (agrees : ¬ replica.diverges vote = true) : (replica.collectCommitment vote).Sane lax 1 := by
  have memVotes : ∀ {other : SignedCommitment P},
      other ∈ replica.commitments ++ [vote] ++ replica.storedCommitments →
      other = vote ∨ other ∈ replica.votes := by
    intro other member
    simp only [mem_append, mem_singleton, votes] at member ⊢
    tauto
  refine { sane with
    collected := ?_
    distinct := ?_
    senders := ?_
    undivided := ?_
    undisputed := ?_
    echoes := sane.heard { Extends.refl _ with } rfl }
  · exact forall_mem_concat sane.collected ⟨offered.votable, offered.inView⟩
  · change ((replica.commitments ++ [vote]).map getCreator).Nodup
    rw [map_append, nodup_append]
    refine ⟨sane.distinct, nodup_singleton _, ?_⟩
    intro creator earlier other new same
    obtain ⟨before, isBefore, rfl⟩ := mem_map.mp earlier
    rw [map_singleton, mem_singleton] at new
    have known := sane.senders before isBefore
    rw [same, new] at known
    exact fresh known
  · refine forall_mem_concat (fun other earlier => ?_) ((IdSet.mem_insert ..).mpr (.inl rfl))
    exact (IdSet.mem_insert ..).mpr (.inr (sane.senders other earlier))
  · intro slot block found other member isPrepare inView
    rcases mem_append.mp member with earlier | new
    · exact sane.undivided slot block found other earlier isPrepare inView
    rw [mem_singleton.mp new] at isPrepare inView ⊢
    refine not_diverges agrees ?_
    rw [offered.votable.inView isPrepare, inView, (sane.tidy.slots slot block found).1]
    exact found
  intro left isLeft leftPrepares free right isRight rightPrepares sameView
  rcases memVotes isLeft with rfl | leftBefore
  · rcases memVotes isRight with rfl | rightBefore
    · rfl
    · exact offered.undisputed leftPrepares free right rightBefore rightPrepares sameView
  rcases memVotes isRight with rfl | rightBefore
  · exact (offered.undisputed rightPrepares (by rw [sameView]; exact free) left leftBefore
      leftPrepares sameView.symm).symm
  · exact sane.undisputed left leftBefore leftPrepares free right rightBefore rightPrepares
      sameView

theorem collectCommitment_weight (replica : Replica P) (vote : SignedCommitment P) :
    (replica.collectCommitment vote).weight =
      replica.weight + (if vote.getCreator = replica.me then 0 else 1) := by
  have foreigners : (replica.collectCommitment vote).foreign =
      replica.foreign ++ [vote].filter fun vote => vote.getCreator ≠ replica.me :=
    filter_append _ _
  have sameLoad : (replica.collectCommitment vote).load = replica.load := rfl
  unfold weight
  rw [foreigners, sameLoad, length_append]
  by_cases own : vote.getCreator = replica.me
  · simp [own]
  · simp [own]
    omega

/-- What a handler of an orderly replica leaves behind if it may add `more` to the weight. -/
structure Handled (lax : Prop) (more : Nat) (before after : Replica P) : Prop where
  sane : after.Sane lax 1
  grown : before.Extends after
  lighter : after.load ≤ before.load
  spent : after.view + after.weight ≤ before.view + before.weight + more
  quiet : after.view = before.view →
    after.output.reflectionMessages = before.output.reflectionMessages

theorem Handled.refl (sane : replica.Sane lax 1) (more : Nat) : replica.Handled lax more replica :=
  ⟨sane, .refl replica, le_rfl, Nat.le_add_right _ _, fun _ => rfl⟩

theorem Handled.trans {more : Nat} {first second third : Replica P}
    (left : first.Handled lax more second) (right : second.Handled lax 0 third) :
    first.Handled lax more third := by
  have leftSpent := left.spent
  have rightSpent := right.spent
  have leftView := left.grown.view
  have rightView := right.grown.view
  refine ⟨right.sane, left.grown.trans right.grown, right.lighter.trans left.lighter, by omega,
    fun same => ?_⟩
  rw [right.quiet (by omega), left.quiet (by omega)]

theorem fullBlockOrAtLeast_returns (pending : PendingClientRequests P.Tx) {minimum : Nat}
    (batch : ¬ lax → 0 < minimum) :
    Returns (Stops short lax) (fun _ => True) (pending.fullBlockOrAtLeast minimum) := by
  refine .excused_assertion batch ?_
  cases pending.blocks.getLast? with
  | none => exact .pure trivial
  | some last => exact .pure trivial

theorem proposeOrWait_returns [P.Dependable] (transits : Transits short lax env limit transition)
    (sane : replica.Sane lax 1) (quorate : replica.quorum ≤ replica.commitments.length)
    (enough : ¬ short → replica.load + 1 < limit ∧ replica.view + replica.weight < env.budget) :
    Returns (Stops short lax) (replica.Handled lax 0) (replica.proposeOrWait transition env) := by
  have decides : Returns (Stops short lax) (fun _ => True) (replica.proposesNow env) := by
    unfold proposesNow
    split
    · exact .pure trivial
    · exact fullBlockOrAtLeast_returns _ sane.batch
  refine decides.bind fun now _ => ?_
  cases now with
  | true =>
    refine (createBlock_returns transits sane quorate enough).imp ?_
    rintro next ⟨saneNext, grown, later, lighter, spent⟩
    exact ⟨saneNext, grown, lighter, spent, fun same => absurd same (ne_of_gt later)⟩
  | false =>
    refine .pure ⟨{ sane with echoes := sane.heard { Extends.refl _ with } rfl },
      { Extends.refl replica with }, le_rfl, le_rfl, fun _ => rfl⟩

theorem applyCommitment_returns [P.Dependable]
    (transits : Transits short lax env limit transition) (sane : replica.Sane lax 1)
    (offered : replica.Offered vote) {more : Nat}
    (adds : (if vote.getCreator = replica.me then 0 else 1) ≤ more)
    (enough : ¬ short → replica.load + 1 < limit ∧
      replica.view + replica.weight + more < env.budget) :
    Returns (Stops short lax) (replica.Handled lax more)
    (replica.applyCommitment transition env vote) := by
  unfold applyCommitment
  split
  · exact .pure (.refl sane more)
  rename_i unknown
  split
  · exact .pure (.refl sane more)
  rename_i agrees
  have fresh : vote.getCreator ∉ replica.commitmentSenders :=
    fun known => unknown ((IdSet.contains_iff _ _).mpr known)
  have weighs := collectCommitment_weight replica vote
  have collects : replica.Handled lax more (replica.collectCommitment vote) := by
    refine ⟨collectCommitment_sane sane offered fresh agrees,
      { Extends.refl replica with }, le_rfl, ?_, fun _ => rfl⟩
    change replica.view + _ ≤ _
    omega
  split
  · exact .pure collects
  rename_i many
  refine (proposeOrWait_returns transits collects.sane
    (not_lt.mp many) fun long => ?_).imp fun _ proposed =>
      collects.trans proposed
  have budget := enough long
  change replica.load + 1 < limit ∧ replica.view + _ < _
  omega

theorem popVote_handled (sane : replica.Sane lax 1)
    (stored : replica.storedCommitments = vote :: rest) :
    replica.Handled lax 0 { replica with storedCommitments := rest } ∧
      ({ replica with storedCommitments := rest } : Replica P).weight + 1 = replica.weight ∧
      ({ replica with storedCommitments := rest } : Replica P).load + 1 = replica.load := by
  have fewer : ∀ {other : SignedCommitment P}, other ∈ replica.commitments ++ rest →
      other ∈ replica.votes := by
    intro other member
    simp only [votes, stored, mem_append, mem_cons] at member ⊢
    tauto
  have loads : ({ replica with storedCommitments := rest } : Replica P).load + 1 =
      replica.load := by
    simp only [load, stored, length_cons]
    omega
  have weighs : ({ replica with storedCommitments := rest } : Replica P).weight + 1 =
      replica.weight := by
    simp only [weight]
    change _ + replica.foreign.length + 1 = _
    omega
  refine ⟨⟨{ sane with
    kept := fun other member => sane.kept other (stored ▸ mem_cons_of_mem _ member)
    undisputed := fun left isLeft leftPrepares free right isRight =>
      sane.undisputed left (fewer isLeft) leftPrepares free right (fewer isRight)
    echoes := sane.heard { Extends.refl _ with } rfl },
    { Extends.refl replica with }, by omega, ?_, fun _ => rfl⟩, weighs, loads⟩
  change replica.view + _ ≤ _
  omega

theorem popVote_offered (sane : replica.Sane lax 1)
    (stored : replica.storedCommitments = vote :: rest) (inView : vote.getView + 1 = replica.view) :
    ({ replica with storedCommitments := rest } : Replica P).Offered vote := by
  have isStored : vote ∈ replica.storedCommitments := stored ▸ mem_cons_self
  refine ⟨sane.kept vote isStored, inView, fun isPrepare free other isOther => ?_⟩
  refine sane.undisputed vote (mem_append_right _ isStored) isPrepare free other ?_
  simp only [votes, stored, mem_append, mem_cons] at isOther ⊢
  tauto

theorem applyStored_returns [P.Dependable] (transits : Transits short lax env limit transition)
    (fuel : Nat) {replica : Replica P} (sane : replica.Sane lax 1)
    (enough : ¬ short → replica.load < fuel ∧ replica.load < limit ∧
      replica.view + replica.weight < env.budget) :
    Returns (Stops short lax) (replica.Handled lax 0)
      (replica.applyStored transition env fuel) := by
  induction fuel generalizing replica with
  | zero =>
    refine .fuel ?_
    by_contra long
    exact absurd (enough long).1 (Nat.not_lt_zero _)
  | succ fuel ih =>
    unfold applyStored
    cases stored : replica.storedCommitments with
    | nil => exact .pure (.refl sane 0)
    | cons vote rest =>
      obtain ⟨pops, lighter, loads⟩ := popVote_handled sane stored
      have spent := pops.spent
      simp only
      split
      · refine (ih pops.sane fun long => ?_).imp fun _ handled => pops.trans handled
        have budget := enough long
        omega
      rename_i due
      split
      · exact .pure (.refl sane 0)
      rename_i notLater
      rw [not_or] at due
      have usable : vote.usableView = vote.getView + 1 := rfl
      have offered := popVote_offered sane stored (by omega)
      have applies : Returns (Stops short lax)
          (fun next => replica.Handled lax 0 next ∧ next.load < replica.load)
          (({ replica with storedCommitments := rest } : Replica P).applyCommitment
            transition env vote) := by
        have applied := applyCommitment_returns transits pops.sane offered
          (show (if _ then 0 else 1) ≤ 1 by split <;> omega)
          (fun long => by
            have budget := enough long
            change _ ∧ replica.view + _ + 1 < _
            omega)
        refine applied.imp fun next handled => ?_
        have spentNext := handled.spent
        have lighterNext := handled.lighter
        change _ ≤ replica.view + _ + 1 at spentNext
        exact ⟨⟨handled.sane, pops.grown.trans handled.grown,
          handled.lighter.trans pops.lighter, by omega, handled.quiet⟩, by omega⟩
      refine applies.bind fun next both => ?_
      obtain ⟨applied, lighterNext⟩ := both
      refine (ih applied.sane fun long => ?_).imp fun _ handled =>
        applied.trans handled
      have budget := enough long
      have spentNext := applied.spent
      omega

theorem prepareStored_returns [P.Dependable] (transits : Transits short lax env limit transition)
    (sane : replica.Sane lax 0)
    (enough : ¬ short → replica.load < limit ∧ replica.view + replica.weight < env.budget) :
    Returns (Stops short lax) (replica.Handled lax 0) (replica.prepareStored transition env) := by
  unfold prepareStored
  cases stored : replica.storedBlocks with
  | nil =>
    refine .pure (.refl { sane with stored := ?_ } 0)
    intro block member
    rw [stored] at member
    cases member
  | cons block rest =>
    have ordered := sane.ordered
    rw [stored, pairwise_cons] at ordered
    obtain ⟨notEarlier, accumulator, justifies⟩ :=
      sane.stored block (stored ▸ mem_cons_self)
    have justified : ∀ other ∈ rest, ∃ accumulator,
        replica.enclave.automata.Justifies accumulator other := fun other member =>
      (sane.stored other (stored ▸ mem_cons_of_mem _ member)).2
    simp only
    split
    · next current =>
      have popped : ({ replica with storedBlocks := rest } : Replica P).Sane lax 1 :=
        { sane with
          stored := fun other member => ⟨by
            have later := ordered.1 other member
            change replica.view + 1 ≤ other.view
            omega, justified other member⟩
          ordered := ordered.2
          echoes := sane.heard { Extends.refl _ with } rfl }
      have loads : ({ replica with storedBlocks := rest } : Replica P).load + 1 = replica.load := by
        simp only [load, stored, length_cons]
        omega
      have weighs : replica.load ≤ replica.weight := Nat.le_add_right _ _
      have prepares : Returns (Stops short lax) _ _ := addAndPrepareBlock_current transits popped
        justifies current.symm fun long => by
          have budget := enough long
          change _ ∧ replica.view + _ + 1 < _
          omega
      refine prepares.bind ?_
      rintro ⟨next, vote⟩ ⟨saneNext, grown, later, lighter, spent, -⟩
      change replica.view < next.view at later
      change next.view + next.weight ≤ replica.view + 1 + _ at spent
      change next.load ≤ _ at lighter
      have handled : replica.Handled lax 0 next := ⟨saneNext, { grown with }, by omega, by omega,
        fun same => absurd same (ne_of_gt later)⟩
      exact .pure handled
    rename_i other
    refine .pure (.refl { sane with stored := fun waiting member => ?_ } 0)
    rw [stored] at member
    rcases mem_cons.mp member with rfl | later
    · exact ⟨by omega, accumulator, justifies⟩
    · have := ordered.1 waiting later
      exact ⟨by omega, justified waiting later⟩

theorem enterNextView_returns (sane : replica.advanced.Sane lax 0) (timeout : Bool) :
    Returns (Stops short lax) (fun next => next.Sane lax 0 ∧ replica.Extends next ∧
      next.view = replica.view + 1 ∧ next.load = replica.load ∧ next.weight = replica.load)
      (replica.enterNextView env timeout) := by
  have patient : replica.initialViewTimeout ≤ replica.viewTimeout := sane.patient
  have bounded : replica.initialViewTimeout ≤ durationMax := sane.bounded
  obtain ⟨viewTimeout, timed, longEnough⟩ : ∃ viewTimeout,
      replica.nextViewTimeout timeout = .ok viewTimeout ∧
      replica.initialViewTimeout ≤ viewTimeout := by
    unfold nextViewTimeout
    cases timeout with
    | true => exact ⟨_, rfl, by omega⟩
    | false =>
      rw [if_neg Bool.false_ne_true, if_neg (Nat.not_lt.mpr patient)]
      exact ⟨_, rfl, Nat.le_max_left _ _⟩
  refine step timed (.pure ⟨{ sane with
    patient := longEnough
    echoes := sane.heard { Extends.refl _ with } rfl },
    { Extends.refl replica with view := Nat.le_succ _ }, rfl, rfl, rfl⟩)

theorem roundTransition_transits [P.Dependable] :
    ∀ fuel, Transits (P := P) short lax env fuel (roundTransition env fuel) := by
  intro fuel
  induction fuel with
  | zero =>
    intro replica timeout _ enough
    refine .fuel ?_
    by_contra long
    exact absurd (enough long).1 (Nat.not_lt_zero _)
  | succ fuel ih =>
    intro replica timeout sane enough
    refine (enterNextView_returns sane timeout).bind ?_
    rintro entered ⟨saneEntered, grown, view, sameLoad, weighs⟩
    refine (prepareStored_returns ih saneEntered fun long => ?_).bind ?_
    · have budget := enough long
      omega
    intro prepared handled
    have lighter := handled.lighter
    have spent := handled.spent
    refine (applyStored_returns ih fuel handled.sane fun long => ?_).imp ?_
    · have budget := enough long
      omega
    intro next applied
    have both := handled.trans applied
    have spentAll := both.spent
    have lighterAll := both.lighter
    have later := both.grown.view
    exact ⟨both.sane, grown.trans both.grown, by omega, by omega, by omega⟩

theorem newView_returns [P.Dependable] (sane : replica.Sane lax 1)
    (enough : ¬ short → replica.view + replica.load + 1 < env.budget) :
    Returns (Stops short lax) (fun next => next.Sane lax 1 ∧ replica.Extends next ∧
      next.view + next.weight ≤ replica.view + 1 + replica.load) (replica.newView env) := by
  obtain ⟨enclave, vote, called, casts, holds⟩ := reSign_casts sane
  refine step called ?_
  have tidy : replica.blockstore.Tidy (replica.view + 1) :=
    { sane.tidy with free := fun slot later => sane.tidy.free slot (by omega) }
  have advances : (({ replica with enclave } : Replica P).unicast
        (View.getViewLeader vote.usableView replica.n) (.commitment vote)).advanced.Sane lax 0 ∧
      replica.Extends (({ replica with enclave } : Replica P).unicast
        (View.getViewLeader vote.usableView replica.n) (.commitment vote)) := by
    refine advanced_sane sane casts.voted tidy (fun _ => id) (fun found => ⟨_, found, rfl⟩)
      (unicast_output_me _ _ _) replica.executedTransactions replica.executedBlocks ?_
    intro peerMessage member
    rcases mem_unicast member with before | rfl
    · exact .inl before
    refine .inr ⟨vote, rfl, rfl, casts.creator, casts.votable, ?_, holds⟩
    change vote.getView < replica.view + 1
    rw [casts.inView]
    exact Nat.lt_succ_self _
  refine (roundTransition_transits env.fuel _ true advances.1 fun long => ?_).imp ?_
  · have budget := enough long
    have fuelled := env.budget_le.1
    change replica.load + 1 < _ ∧ replica.view + replica.load + 1 < _
    omega
  · rintro next ⟨saneNext, grown, later, lighter, spent⟩
    exact ⟨saneNext, advances.2.trans grown, spent⟩

end

end Replica

end Abcperf.Damysus
