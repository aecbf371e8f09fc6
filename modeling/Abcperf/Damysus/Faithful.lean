import Abcperf.Damysus.Facts
import Abcperf.Damysus.Provenance

/-! Replicas that follow the protocol keep the facts sound. While one replica works, what the others
have done is fixed; what it adds itself are votes for blocks that somebody has created, blocks on
accumulators of votes that somebody has cast, and nothing else. -/

namespace Abcperf.Damysus

open Lib Lib.Outcome Heaps EnclaveAutomata Enclave List Option
open SignedCommitment hiding commitment

variable {P : Platform}

namespace Facts

def join (others : Facts P) (replica : Replica P) : Facts P where
  proposal id block := others.proposal id block ∨ (id = replica.me ∧ block ∈ replica.proposed)
  issued id record := others.issued id record ∨ (id = replica.me ∧ record ∈ replica.enclave.log)

structure Foreign (others : Facts P) (me : Nat) : Prop where
  proposal : ∀ block, ¬ others.proposal me block
  issued : ∀ record, ¬ others.issued me record

/-- What a call starts from when the blocks of the others are those in `others`. -/
def base (others : Facts P) (view : Nat) (proposed : List (Block P)) : Base P where
  known block := ∃ id, others.proposal id block
  view := view
  proposed := proposed

theorem join_grows (others : Facts P) {before after : Replica P} (grows : before.Grows after) :
    (others.join before).Grows (others.join after) where
  proposal := by
    intro id block isProposal
    exact isProposal.imp_right fun own => ⟨own.1.trans grows.me.symm, grows.proposed.subset own.2⟩
  issued := by
    intro id record issued
    exact issued.imp_right fun own => ⟨own.1.trans grows.me.symm, grows.log.subset own.2⟩

section

variable {others : Facts P} {n : Nat} {replica : Replica P} (valid : (others.join replica).Valid n)
  (foreign : others.Foreign replica.me)

include valid foreign

/-- The enclave of the replica signs one more commitment. If it is a vote, it is the latest one, and
the lock it names is above what the earlier votes demand. -/
theorem Valid.record {enclave : Enclave P} {record : Record P} (inRange : replica.me < n)
    (log : enclave.log = replica.enclave.log ++ [record])
    (latest : record.result.isUsig = true → ∀ earlier ∈ replica.enclave.log,
      earlier.result.isUsig = true → earlier.result.getView < record.result.getView)
    (vote : record.result.isUsig = true → (others.join { replica with enclave }).Vote record)
    (keeps : record.result.isUsig = true → ∀ first ∈ enclave.log, first.result.isUsig = true →
      Locks first.call → first.result.getView ≤ record.result.getPreparedBlockView + 1) :
    (others.join { replica with enclave }).Valid n := by
  have grown : replica.Grows { replica with enclave } :=
    ⟨rfl, rfl, by rw [log]; exact prefix_append _ _, prefix_rfl⟩
  have grows := join_grows others grown
  have cases : ∀ id other, (others.join { replica with enclave }).issued id other →
      (others.join replica).issued id other ∨ (id = replica.me ∧ other = record) := by
    rintro id other (theirs | ⟨mine, logged⟩)
    · exact .inl (.inl theirs)
    change other ∈ enclave.log at logged
    rw [log] at logged
    rcases mem_append.mp logged with earlier | isNew
    · exact .inl (.inr ⟨mine, earlier⟩)
    · exact .inr ⟨mine, mem_singleton.mp isNew⟩
  have own : ∀ other, (others.join { replica with enclave }).issued replica.me other →
      other ∈ enclave.log := by
    rintro other (theirs | ⟨-, logged⟩)
    · exact absurd theirs (foreign.issued other)
    · exact logged
  refine ⟨?_, valid.unique, ?_, ?_, ?_⟩
  · intro id block isProposal
    exact (valid.proposed id block isProposal).later grows
  · intro id other issued
    rcases cases id other issued with earlier | ⟨rfl, -⟩
    · exact valid.inRange id other earlier
    · exact inRange
  · intro id other issued usig
    rcases cases id other issued with earlier | ⟨-, rfl⟩
    · exact (valid.votes id other earlier usig).later grows
    · exact vote usig
  intro id first second isFirst isSecond firstUsig secondUsig locks order
  rcases cases id second isSecond with secondEarlier | ⟨rfl, rfl⟩
  · rcases cases id first isFirst with firstEarlier | ⟨rfl, rfl⟩
    · exact valid.keeps id first second firstEarlier secondEarlier firstUsig secondUsig locks
        order
    -- a vote that is not the new one is before it
    rcases secondEarlier with theirs | ⟨-, logged⟩
    · exact absurd theirs (foreign.issued second)
    · have := latest firstUsig second logged secondUsig
      omega
  · exact keeps secondUsig first (own first isFirst) firstUsig locks

/-- The replica creates one more block, in a view in which it has not created one. -/
theorem Valid.propose {block : Block P}
    (fresh : ∀ earlier ∈ replica.proposed, earlier.view ≠ block.view)
    (proposed : (others.join replica).Proposed n replica.me block) :
    (others.join { replica with proposed := replica.proposed ++ [block] }).Valid n := by
  have grown : replica.Grows { replica with proposed := replica.proposed ++ [block] } :=
    ⟨rfl, rfl, prefix_rfl, prefix_append _ _⟩
  have grows := join_grows others grown
  have cases : ∀ id other,
      (others.join { replica with proposed := replica.proposed ++ [block] }).proposal id other →
      (others.join replica).proposal id other ∨ (id = replica.me ∧ other = block) := by
    rintro id other (theirs | ⟨mine, created⟩)
    · exact .inl (.inl theirs)
    rcases mem_append.mp created with earlier | isNew
    · exact .inl (.inr ⟨mine, earlier⟩)
    · exact .inr ⟨mine, mem_singleton.mp isNew⟩
  have apart : ∀ other, (others.join replica).proposal replica.me other →
      other.view ≠ block.view := by
    rintro other (theirs | ⟨-, created⟩)
    · exact absurd theirs (foreign.proposal other)
    · exact fresh other created
  refine ⟨?_, ?_, valid.inRange, ?_, valid.keeps⟩
  · intro id other isProposal
    rcases cases id other isProposal with earlier | ⟨rfl, rfl⟩
    · exact (valid.proposed id other earlier).later grows
    · exact proposed.later grows
  · intro id left right isLeft isRight sameView
    rcases cases id left isLeft with leftEarlier | ⟨rfl, rfl⟩
    · rcases cases id right isRight with rightEarlier | ⟨rfl, rfl⟩
      · exact valid.unique id left right leftEarlier rightEarlier sameView
      · exact absurd sameView (apart left leftEarlier)
    rcases cases _ right isRight with rightEarlier | ⟨-, rfl⟩
    · exact absurd sameView.symm (apart right rightEarlier)
    · rfl
  · intro id record issued usig
    exact (valid.votes id record issued usig).later grows

end

end Facts

/-- What the enclave of a replica that follows the protocol is locked on, and what it demands of its
next vote. -/
structure Enclave.Guarded (facts : Facts P) (n : Nat) (enclave : Enclave P) : Prop where
  quorum : enclave.automata.quorum = n / 2 + 1
  lock : facts.Names enclave.automata.lastPreparedBlockView enclave.automata.lastPreparedBlockHash
  origin : enclave.automata.lastPreparedBlockView = 0 ∨ ∃ block,
    facts.Follows block enclave.automata.lastPreparedBlockView ∧
      block.view < enclave.automata.view
  keeps : ∀ record ∈ enclave.log, record.result.isUsig = true → Facts.Locks record.call →
    record.result.getView ≤ enclave.automata.lastPreparedBlockView + 1

namespace Enclave

theorem Guarded.later {before after : Facts P} {n : Nat} {enclave : Enclave P}
    (guarded : enclave.Guarded before n) (grows : before.Grows after) :
    enclave.Guarded after n where
  quorum := guarded.quorum
  lock := guarded.lock.later grows
  origin := Facts.origin_later guarded.origin grows fun _ earlier => earlier
  keeps := guarded.keeps

/-- The lock with which the enclave leaves `prepare` for `block`. -/
structure Relocked (facts : Facts P) (enclave : Enclave P) (block : Block P)
    (locked : EnclaveAutomata P) : Prop where
  lock : facts.Names locked.lastPreparedBlockView locked.lastPreparedBlockHash
  origin : locked.lastPreparedBlockView = 0 ∨ ∃ other,
    facts.Follows other locked.lastPreparedBlockView ∧ other.view ≤ enclave.automata.view
  keeps : ∀ record ∈ enclave.log, record.result.isUsig = true → Facts.Locks record.call →
    record.result.getView ≤ locked.lastPreparedBlockView + 1
  current : ∀ hash, Facts.Locks (.prepare block.view block.hashValue block.justification
    block.parent hash) → block.view ≤ locked.lastPreparedBlockView + 1

theorem Guarded.relocked {facts : Facts P} {n me id : Nat} {enclave : Enclave P} {block : Block P}
    {accumulator : SignedCommitment P} (guarded : enclave.Guarded facts n) (valid : facts.Valid n)
    [CollisionFree P] (traced : enclave.Traced me) (isProposal : facts.proposal id block)
    (isQuorum : block.justification = .quorum accumulator)
    (inView : enclave.automata.view = block.view) :
    Relocked facts enclave block (enclave.automata.lockedOn accumulator block.parent) := by
  by_cases direct : block.parent = some accumulator.getBlockHash
  · have follows : facts.Follows block accumulator.getBlockView :=
      ⟨id, accumulator, isProposal, isQuorum, rfl, direct⟩
    have below := valid.follows_view follows
    have view : (enclave.automata.lockedOn accumulator block.parent).lastPreparedBlockView =
        accumulator.getBlockView := by simp [lockedOn, direct]
    have hash : (enclave.automata.lockedOn accumulator block.parent).lastPreparedBlockHash =
        accumulator.getBlockHash := by simp [lockedOn, direct]
    obtain ⟨other, votes, isQuorum', quorate, -⟩ := (valid.proposed id block isProposal).justified
    rw [isQuorum, Justification.quorum.injEq] at isQuorum'
    subst isQuorum'
    refine ⟨?_, .inr ⟨block, ?_, inView.ge⟩, ?_, ?_⟩
    · rw [view, hash]
      exact valid.accumulator_names quorate
    · rw [view]
      exact follows
    · intro record logged usig _
      have := traced.below record logged
      omega
    · intro _ _
      omega
  have same : enclave.automata.lockedOn accumulator block.parent = enclave.automata := by
    simp [lockedOn, direct]
  rw [same]
  refine ⟨guarded.lock, ?_, guarded.keeps, ?_⟩
  · exact Facts.origin_later guarded.origin (.refl facts) fun _ earlier => earlier.le
  rintro hash ⟨view, blockHash, other, otherHash, isCall⟩
  rw [isQuorum] at isCall
  obtain ⟨-, -, sameQuorum, isParent, -⟩ := EnclaveCall.prepare.inj isCall
  rw [← Justification.quorum.inj sameQuorum] at isParent
  exact absurd isParent direct

end Enclave

namespace Replica

section Signing

variable {others : Facts P} {n : Nat} {replica : Replica P} {enclave : Enclave P}
  {signed : SignedCommitment P} {request : EnclaveCall P}

theorem call_grows (call : replica.enclave.call request = .ok (enclave, .ok signed)) :
    replica.Grows { replica with enclave } := by
  obtain ⟨log, -⟩ := call_ok call
  exact ⟨rfl, rfl, by rw [log]; exact prefix_append _ _, prefix_rfl⟩

section

variable (traced : replica.enclave.Traced replica.me)
  (call : replica.enclave.call request = .ok (enclave, .ok signed))

include traced call

theorem call_signed : (others.join { replica with enclave }).Signed signed := by
  obtain ⟨log, signs⟩ := call_ok call
  refine ⟨⟨request, signed⟩, .inr ⟨signs.creator.trans traced.me, ?_⟩, rfl⟩
  change _ ∈ enclave.log
  rw [log]
  exact mem_append_right _ (mem_singleton_self _)

theorem call_latest (usig : signed.isUsig = true) : ∀ earlier ∈ replica.enclave.log,
      earlier.result.isUsig = true → earlier.result.getView < signed.getView := by
  obtain ⟨-, signs⟩ := call_ok call
  intro earlier logged earlierUsig
  have := traced.below earlier logged
  have := (signs.vote usig).1
  omega

end

section

variable (valid : (others.join replica).Valid n) [CollisionFree P]
  (foreign : others.Foreign replica.me) (inRange : replica.me < n)
  (traced : replica.enclave.Traced replica.me)
  (guarded : replica.enclave.Guarded (others.join replica) n)

include valid foreign inRange traced guarded

theorem prepare_valid {id : Nat} {block : Block P} {hash : P.BlockHash}
    (isProposal : (others.join replica).proposal id block)
    (call : replica.enclave.call (.prepare block.view block.hashValue block.justification
      block.parent hash) = .ok (enclave, .ok signed)) :
    (others.join { replica with enclave }).Valid n ∧
      enclave.Guarded (others.join { replica with enclave }) n := by
  obtain ⟨log, signs⟩ := call_ok call
  have latest := call_latest traced call
  have grows := Facts.join_grows others (call_grows call)
  obtain ⟨accumulator, isQuorum, checks, after, made⟩ := signs.preparation
  have relocked := guarded.relocked valid traced isProposal isQuorum checks.inView
  have inView : signed.getView = block.view := by
    simp [getView, made, commitment, checks.inView]
  have isPrepare : signed.isPrepare = true := by
    simp [isPrepare, made, commitment]
  have blockView : signed.getBlockView = block.view := by
    simp [getBlockView, isPrepare, made, commitment, checks.inView]
  have blockHash : signed.getBlockHash = block.hashValue := by
    simp [getBlockHash, isPrepare, made, commitment]
  have lockView : signed.getPreparedBlockView = enclave.automata.lastPreparedBlockView := by
    simp [getPreparedBlockView, made, commitment, after, voted]
  have lockHash : signed.getPreparedBlockHash = enclave.automata.lastPreparedBlockHash := by
    simp [getPreparedBlockHash, made, commitment, after, voted]
  have lock : enclave.automata.lastPreparedBlockView =
      (replica.enclave.automata.lockedOn accumulator block.parent).lastPreparedBlockView := by
    rw [after, voted]
  have lockedHash : enclave.automata.lastPreparedBlockHash =
      (replica.enclave.automata.lockedOn accumulator block.parent).lastPreparedBlockHash := by
    rw [after, voted]
  have names : (others.join { replica with enclave }).Names
      enclave.automata.lastPreparedBlockView enclave.automata.lastPreparedBlockHash := by
    rw [lock, lockedHash]
    exact relocked.lock.later grows
  have origin : enclave.automata.lastPreparedBlockView = 0 ∨ ∃ other,
      (others.join { replica with enclave }).Follows other
        enclave.automata.lastPreparedBlockView ∧ other.view ≤ block.view := by
    rw [lock, ← checks.inView]
    exact Facts.origin_later relocked.origin grows fun _ notLater => notLater
  have keeps : ∀ first ∈ enclave.log, first.result.isUsig = true → Facts.Locks first.call →
      first.result.getView ≤ enclave.automata.lastPreparedBlockView + 1 := by
    intro first logged usig locks
    rw [log] at logged
    rw [lock]
    rcases mem_append.mp logged with earlier | isNew
    · exact relocked.keeps first earlier usig locks
    · rw [mem_singleton.mp isNew] at locks ⊢
      exact inView.trans_le (relocked.current hash locks)
  constructor
  · refine valid.record foreign inRange log latest ?_ ?_
    · intro _
      refine ⟨?_, ?_, ?_, ?_⟩
      · rw [blockView, blockHash]
        exact .inr ⟨id, block, grows.proposal isProposal, rfl, rfl⟩
      · rw [lockView, lockHash]
        exact names
      · intro _ _
        exact ⟨id, block, hash, grows.proposal isProposal, inView.symm, rfl⟩
      · rw [lockView, inView]
        exact origin
    intro _
    rw [lockView]
    exact keeps
  refine ⟨?_, names, ?_, keeps⟩
  · rw [(call_cases call).1.quorum]
    exact guarded.quorum
  have moved : enclave.automata.view = block.view + 1 := by
    rw [after, voted, lockedOn_view, checks.inView]
  exact Facts.origin_later origin (.refl _) fun other notLater => by omega

/-- A vote for the block that was prepared last is not for the view it is cast in, except in the
first one. -/
theorem reSign_valid (call : replica.enclave.call .reSignLastPrepared = .ok (enclave, .ok signed)) :
    (others.join { replica with enclave }).Valid n ∧
      enclave.Guarded (others.join { replica with enclave }) n := by
  obtain ⟨log, signs⟩ := call_ok call
  have latest := call_latest traced call
  have grows := Facts.join_grows others (call_grows call)
  obtain ⟨after, made⟩ := signs.reSigning
  have lock : enclave.automata.lastPreparedBlockView =
      replica.enclave.automata.lastPreparedBlockView := by rw [after, voted]
  have guardedLater := guarded.later grows
  have inView : signed.getView = replica.enclave.automata.view := by
    simp [getView, made, commitment]
  have blockView : signed.getBlockView = replica.enclave.automata.lastPreparedBlockView := by
    simp [getBlockView, made, commitment]
  have blockHash : signed.getBlockHash = replica.enclave.automata.lastPreparedBlockHash := by
    simp [getBlockHash, made, commitment]
  have lockView : signed.getPreparedBlockView = replica.enclave.automata.lastPreparedBlockView := by
    simp [getPreparedBlockView, made, commitment]
  have lockHash : signed.getPreparedBlockHash = replica.enclave.automata.lastPreparedBlockHash := by
    simp [getPreparedBlockHash, made, commitment]
  have keeps : ∀ first ∈ enclave.log, first.result.isUsig = true → Facts.Locks first.call →
      first.result.getView ≤ replica.enclave.automata.lastPreparedBlockView + 1 := by
    intro first logged usig locks
    rw [log] at logged
    rcases mem_append.mp logged with earlier | isNew
    · exact guarded.keeps first earlier usig locks
    rw [mem_singleton.mp isNew] at locks
    obtain ⟨_, _, _, _, isCall⟩ := locks
    cases isCall
  constructor
  · refine valid.record foreign inRange log latest ?_ ?_
    · intro _
      refine ⟨?_, ?_, ?_, ?_⟩
      · rw [blockView, blockHash]
        exact guardedLater.lock
      · rw [lockView, lockHash]
        exact guardedLater.lock
      · intro prepares above
        have current : replica.enclave.automata.view =
            replica.enclave.automata.lastPreparedBlockView := by
          simpa [isPrepare, made, commitment] using prepares
        rw [inView] at above
        rcases guarded.origin with atRoot | ⟨block, follows, earlier⟩
        · omega
        · have := valid.follows_view follows
          omega
      · rw [lockView, inView]
        exact Facts.origin_later guardedLater.origin (.refl _) fun _ earlier => earlier.le
    intro _
    rw [lockView]
    exact keeps
  have moved : enclave.automata.view = replica.enclave.automata.view + 1 := by
    rw [after, voted]
  refine ⟨?_, ?_, ?_, ?_⟩
  · rw [after]
    exact guarded.quorum
  · rw [after]
    exact guardedLater.lock
  · rw [lock]
    exact Facts.origin_later guardedLater.origin (.refl _) fun block earlier => by omega
  · rw [lock]
    exact keeps

end

/-- An accumulator stands for the commitments it was made from, and is not a vote. -/
theorem accumulate_valid {commitments : List (SignedCommitment P)}
    (valid : (others.join replica).Valid n) (foreign : others.Foreign replica.me)
    (inRange : replica.me < n) (guarded : replica.enclave.Guarded (others.join replica) n)
    (collected : ∀ commitment ∈ commitments, (others.join replica).Signed commitment)
    (call : replica.enclave.call (.accumulate commitments) = .ok (enclave, .ok signed)) :
    (others.join { replica with enclave }).Valid n ∧
      enclave.Guarded (others.join { replica with enclave }) n ∧
      (∃ votes, (others.join { replica with enclave }).Quorate n signed votes) ∧
      signed.getView + 1 = replica.enclave.automata.view := by
  obtain ⟨log, signs⟩ := call_ok call
  have grows := Facts.join_grows others (call_grows call)
  obtain ⟨-, after, isAccumulator, view, considered, follows, inView, within, accumulated⟩ :=
    signs.accumulation
  have notVote : signed.isUsig ≠ true := signed.not_usig isAccumulator
  refine ⟨?_, ?_, ⟨considered, ?_⟩, by omega⟩
  · exact valid.record foreign inRange log (fun usig => absurd usig notVote)
      (fun usig => absurd usig notVote) (fun usig => absurd usig notVote)
  · have guardedLater := guarded.later grows
    refine ⟨?_, ?_, ?_, ?_⟩
    · rw [after]
      exact guarded.quorum
    · rw [after]
      exact guardedLater.lock
    · rw [after]
      exact guardedLater.origin
    intro record logged usig locks
    rw [log] at logged
    rw [after]
    rcases mem_append.mp logged with earlier | isNew
    · exact guarded.keeps record earlier usig locks
    · rw [mem_singleton.mp isNew] at usig
      exact absurd usig notVote
  refine ⟨?_, ?_, accumulated.distinct, ?_, ?_⟩
  · intro vote member
    exact (collected vote (mem_reverse.mp (within.subset member))).later grows
  · intro vote member
    obtain ⟨usig, sameView, -⟩ := accumulated.counts vote member
    exact ⟨usig, sameView.trans inView.symm⟩
  · rw [← guarded.quorum]
    exact accumulated.enough
  · rw [inView]
    exact accumulated.names

end Signing

/-- A replica among others that all follow the protocol: the facts are sound, and every commitment
it has or has sent was signed by its creator. -/
structure Faithful (others : Facts P) (n : Nat) (history : Output P) (replica : Replica P) :
    Prop where
  size : replica.n = n
  inRange : replica.me < n
  foreign : others.Foreign replica.me
  valid : (others.join replica).Valid n
  guarded : replica.enclave.Guarded (others.join replica) n
  collected : ∀ commitment ∈ replica.commitments, (others.join replica).Signed commitment
  stored : ∀ commitment ∈ replica.storedCommitments, (others.join replica).Signed commitment
  sent : ∀ message ∈ replica.sent history, ∀ commitment,
    message.message = .commitment commitment → (others.join replica).Signed commitment

namespace Faithful

variable {others : Facts P} {n : Nat} {history : Output P} {replica next : Replica P}
  {signed : SignedCommitment P}

section

variable (faithful : Faithful others n history replica)

include faithful

theorem broadcast (message : Message P) (carries : ∀ commitment, message = .commitment commitment →
      (others.join replica).Signed commitment) :
    Faithful others n history (replica.broadcast message) := by
  refine { faithful with sent := fun other member => ?_ }
  rcases (mem_sent_broadcast history replica message other).mp member with earlier | rfl
  · exact faithful.sent other earlier
  · exact carries

theorem unicast (receiver : Nat) (message : Message P)
    (carries : ∀ commitment, message = .commitment commitment →
      (others.join replica).Signed commitment) :
    Faithful others n history (replica.unicast receiver message) := by
  refine { faithful with sent := fun other member => ?_ }
  rcases (mem_sent_unicast history replica receiver message other).mp member with earlier | rfl
  · exact faithful.sent other earlier
  · exact carries

theorem requestBlock (view : Nat) (hash : P.BlockHash) :
    Faithful others n history (replica.requestBlock view hash) := by
  unfold Replica.requestBlock
  split
  · exact faithful
  have booked : Faithful others n history { replica with
      requestedBlocks := Function.update replica.requestedBlocks view (some hash) } :=
    { faithful with }
  exact booked.broadcast _ (by simp)

theorem called {request : EnclaveCall P} {enclave : Enclave P}
    (call : replica.enclave.call request = .ok (enclave, .ok signed))
    (valid : (others.join {replica with enclave }).Valid n)
    (guarded : enclave.Guarded (others.join {replica with enclave }) n) :
    Faithful others n history { replica with enclave } := by
  have grows := Facts.join_grows others (call_grows call)
  exact { faithful with
    valid
    guarded
    collected := fun commitment member => (faithful.collected commitment member).later grows
    stored := fun commitment member => (faithful.stored commitment member).later grows
    sent := fun message member commitment carries =>
      (faithful.sent message member commitment carries).later grows }

theorem prepareBlock [CollisionFree P] (traced : replica.enclave.Traced replica.me) {id : Nat}
    {block : Block P} {accumulator prepare : SignedCommitment P}
    (isProposal : (others.join replica).proposal id block)
    (run : replica.prepareBlock block accumulator = .ok (next, prepare)) :
    Faithful others n history next ∧ (others.join next).Signed prepare := by
  obtain ⟨enclave, rfl, call⟩ := prepareBlock_ok run
  obtain ⟨valid, guarded⟩ := prepare_valid faithful.valid faithful.foreign faithful.inRange
    traced faithful.guarded isProposal call
  exact ⟨faithful.called call valid guarded, call_signed traced call⟩

theorem reSign [CollisionFree P] (traced : replica.enclave.Traced replica.me) {enclave : Enclave P}
    (call : replica.enclave.call .reSignLastPrepared = .ok (enclave, .ok signed)) :
    Faithful others n history { replica with enclave } ∧
      (others.join { replica with enclave }).Signed signed := by
  obtain ⟨valid, guarded⟩ := reSign_valid faithful.valid faithful.foreign faithful.inRange
    traced faithful.guarded call
  exact ⟨faithful.called call valid guarded, call_signed traced call⟩

theorem created {block : Block P} (fresh : ∀ earlier ∈ replica.proposed, earlier.view ≠ block.view)
    (proposed : (others.join replica).Proposed n replica.me block) :
    Faithful others n history { replica with proposed := replica.proposed ++ [block] } := by
  have grown : replica.Grows { replica with proposed := replica.proposed ++ [block] } :=
    ⟨rfl, rfl, prefix_rfl, prefix_append _ _⟩
  have grows := Facts.join_grows others grown
  exact { faithful with
    valid := faithful.valid.propose faithful.foreign fresh proposed
    guarded := faithful.guarded.later grows
    collected := fun commitment member => (faithful.collected commitment member).later grows
    stored := fun commitment member => (faithful.stored commitment member).later grows
    sent := fun message member commitment carries =>
      (faithful.sent message member commitment carries).later grows }

theorem execute (executed : replica.Executed next) : Faithful others n history next := by
  cases executed with
  | intro alike stored executedTransactions => exact { faithful with }

end

end Faithful

theorem Known.proposal {others : Facts P} {view : Nat} {proposed : List (Block P)}
    {replica : Replica P} {block : Block P}
    (known : replica.Known (others.base view proposed) block) :
    ∃ id, (others.join replica).proposal id block.notExecuted := by
  rcases known with ⟨id, theirs⟩ | created
  · exact ⟨id, .inl theirs⟩
  · exact ⟨replica.me, .inr ⟨rfl, created⟩⟩

section Stored

variable {others : Facts P} {view : Nat} {proposed : List (Block P)} {history : Output P}
  {inHand : Option (Block P)} {ahead : Nat} {replica : Replica P}
  {block : Block P}

section

variable (sourced : Sourced (others.base view proposed) history inHand ahead replica) {slot : Nat}
  (found : replica.blockstore.get slot = some block)

include sourced found

theorem Sourced.slot_proposal (above : 0 < slot) :
    block.view = slot ∧ ∃ id, (others.join replica).proposal id block.notExecuted := by
  obtain ⟨atSlot, known⟩ := sourced.slots slot block found
  exact ⟨atSlot, (known above).proposal⟩

theorem Sourced.slot_names : (others.join replica).Names slot block.hashValue := by
  rcases Nat.eq_zero_or_pos slot with rfl | above
  · have root := sourced.root
    rw [found, map_some, some.injEq] at root
    have sameHash := congrArg Block.hashValue root
    exact .inl ⟨rfl, sameHash⟩
  · obtain ⟨atSlot, id, isProposal⟩ := sourced.slot_proposal found above
    exact .inr ⟨id, block.notExecuted, isProposal, atSlot, rfl⟩

end

/-- The new block stands on votes that the replica has collected and on a block that it stores. -/
theorem Faithful.propose {n : Nat} (faithful : Faithful others n history replica)
    (sourced : Sourced (others.base view proposed) history none 0 replica) {env : Env P}
    {next : Replica P} {accumulator : SignedCommitment P}
    (accumulated : replica.accumulate env = .ok (next, accumulator))
    (built : next.filterPending.buildBlock accumulator = .ok block) : Faithful others n history
      { next.filterPending with proposed := next.filterPending.proposed ++ [block] } := by
  obtain ⟨held, inView⟩ := sourced.propose accumulated built
  obtain ⟨enclave, rfl, call⟩ := Replica.accumulate_ok accumulated
  have sorted := (env.sorts replica.commitments).1
  have collected : ∀ commitment ∈ env.sort replica.commitments,
      (others.join replica).Signed commitment :=
    fun commitment member => faithful.collected commitment (sorted.mem_iff.mp member)
  obtain ⟨valid, guarded, ⟨votes, quorate⟩, usable⟩ := accumulate_valid faithful.valid
    faithful.foreign faithful.inRange faithful.guarded collected call
  have signed := faithful.called call valid guarded
  obtain ⟨below, follows, rfl⟩ := buildBlock_ok built
  have created := held.own _ (mem_append_right _ (mem_singleton_self _))
  have isNew : (others.join { replica with enclave }).Proposed n replica.me
      (.new replica.me replica.view (.quorum accumulator)
        ((replica.blockstore.get below).map Block.hashValue)
        replica.filterPending.pendingClientRequests.copyFront) := by
    refine ⟨?_, rfl, rfl, ⟨accumulator, votes, rfl, quorate, ?_⟩, ?_⟩
    · rw [← faithful.size]
      exact created.leads
    · have inStep := sourced.inStep
      change accumulator.getView + 1 = replica.view
      omega
    intro hash isParent
    obtain ⟨parent, found, rfl⟩ := map_eq_some_iff.mp isParent
    exact ⟨below, follows.symm,
      (sourced.slot_names found).later (Facts.join_grows others (call_grows call))⟩
  have fresh : ∀ earlier ∈ replica.proposed, earlier.view ≠ replica.view :=
    fun earlier member => (sourced.below member).ne
  have proposes := signed.created fresh isNew
  exact { proposes with
    collected := fun commitment member =>
      proposes.collected commitment (sorted.mem_iff.mp member) }

end Stored

end Replica

end Abcperf.Damysus
