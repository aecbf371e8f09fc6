import Abcperf.Damysus.Calls
import Abcperf.Damysus.Symbolic
import Abcperf.Lib.Majority
import Abcperf.Lib.ThreeChain

/-! What replicas that follow the protocol have done together: the blocks they have created and what
their enclaves have signed. Blocks and votes refer to each other only by view and hash; where these
references are sound, the votes are those of chained voting. -/

namespace Abcperf.Damysus

open Lib List

variable {P : Platform}

/-- The blocks proposed and the commitments issued so far, by replica. -/
@[ext] structure Facts (P : Platform) where
  proposal : Nat → Block P → Prop
  issued : Nat → Record P → Prop

namespace Facts

structure Grows (before after : Facts P) : Prop where
  proposal : ∀ {id block}, before.proposal id block → after.proposal id block
  issued : ∀ {id record}, before.issued id record → after.issued id record

theorem Grows.refl (facts : Facts P) : facts.Grows facts := ⟨id, id⟩

def Names (facts : Facts P) (view : Nat) (hash : P.BlockHash) : Prop :=
  (view = 0 ∧ hash = P.genesis) ∨
    ∃ id block, facts.proposal id block ∧ block.view = view ∧ block.hashValue = hash

def Signed (facts : Facts P) (signed : SignedCommitment P) : Prop :=
  ∃ record, facts.issued signed.getCreator record ∧ record.result = signed

def Justified (facts : Facts P) (block : Block P) (view : Nat) : Prop :=
  ∃ id accumulator, facts.proposal id block ∧ block.justification = .quorum accumulator ∧
    accumulator.getBlockView = view

def Follows (facts : Facts P) (block : Block P) (view : Nat) : Prop :=
  ∃ id accumulator, facts.proposal id block ∧ block.justification = .quorum accumulator ∧
    accumulator.getBlockView = view ∧ block.parent = some accumulator.getBlockHash

/-- The accumulator stands for `votes`, a majority of one view. -/
structure Quorate (facts : Facts P) (n : Nat) (accumulator : SignedCommitment P)
    (votes : List (SignedCommitment P)) : Prop where
  signed : ∀ vote ∈ votes, facts.Signed vote
  usig : ∀ vote ∈ votes, vote.isUsig = true ∧ vote.getView = accumulator.getView
  distinct : (votes.map SignedCommitment.getCreator).Nodup
  enough : n / 2 + 1 ≤ votes.length
  names : (accumulator.getBlockView = accumulator.getView ∧ ∀ vote ∈ votes,
      vote.isPrepare = true ∧ vote.getBlockView = accumulator.getView ∧
        vote.getBlockHash = accumulator.getBlockHash) ∨
    ∃ highest ∈ votes, accumulator.getBlockView = highest.getPreparedBlockView ∧
      accumulator.getBlockHash = highest.getPreparedBlockHash ∧
      ∀ vote ∈ votes, vote.getPreparedBlockView ≤ highest.getPreparedBlockView

structure Proposed (facts : Facts P) (n id : Nat) (block : Block P) : Prop where
  leads : View.getViewLeader block.view n = id
  unhashed : block.precomputedHash = none
  unexecuted : block.executed = false
  justified : ∃ accumulator votes, block.justification = .quorum accumulator ∧
    facts.Quorate n accumulator votes ∧ accumulator.getView + 1 = block.view
  parent : ∀ hash, block.parent = some hash →
    ∃ view, view + 1 = block.view ∧ facts.Names view hash

structure Vote (facts : Facts P) (record : Record P) : Prop where
  named : facts.Names record.result.getBlockView record.result.getBlockHash
  lock : facts.Names record.result.getPreparedBlockView record.result.getPreparedBlockHash
  prepares : record.result.isPrepare = true → 0 < record.result.getView →
    ∃ id block hash, facts.proposal id block ∧ block.view = record.result.getView ∧
      record.call = .prepare block.view block.hashValue block.justification block.parent hash
  origin : record.result.getPreparedBlockView = 0 ∨ ∃ block,
    facts.Follows block record.result.getPreparedBlockView ∧ block.view ≤ record.result.getView

def Locks (call : EnclaveCall P) : Prop :=
  ∃ view hash accumulator other, call =
    .prepare view hash (.quorum accumulator) (some accumulator.getBlockHash) other

/-- What the protocol keeps true of all proposals and votes; agreement follows from it alone. -/
structure Valid (facts : Facts P) (n : Nat) : Prop where
  proposed : ∀ id block, facts.proposal id block → facts.Proposed n id block
  unique : ∀ id left right, facts.proposal id left → facts.proposal id right →
    left.view = right.view → left = right
  inRange : ∀ id record, facts.issued id record → id < n
  votes : ∀ id record, facts.issued id record → record.result.isUsig = true → facts.Vote record
  keeps : ∀ id first second, facts.issued id first → facts.issued id second →
    first.result.isUsig = true → second.result.isUsig = true → Locks first.call →
    first.result.getView ≤ second.result.getView →
    first.result.getView ≤ second.result.getPreparedBlockView + 1

section Growing

variable {before after : Facts P}
  {view : Nat} {block : Block P}

theorem Names.later {hash : P.BlockHash} (names : before.Names view hash)
    (grows : before.Grows after) : after.Names view hash := by
  rcases names with genesis | ⟨id, block, isProposal, rest⟩
  · exact .inl genesis
  · exact .inr ⟨id, block, grows.proposal isProposal, rest⟩

theorem Signed.later {signed : SignedCommitment P} (isSigned : before.Signed signed)
    (grows : before.Grows after) : after.Signed signed := by
  obtain ⟨record, issued, result⟩ := isSigned
  exact ⟨record, grows.issued issued, result⟩

theorem Justified.later (justified : before.Justified block view) (grows : before.Grows after) :
    after.Justified block view := by
  obtain ⟨id, accumulator, isProposal, rest⟩ := justified
  exact ⟨id, accumulator, grows.proposal isProposal, rest⟩

theorem Follows.later (follows : before.Follows block view) (grows : before.Grows after) :
    after.Follows block view := by
  obtain ⟨id, accumulator, isProposal, rest⟩ := follows
  exact ⟨id, accumulator, grows.proposal isProposal, rest⟩

theorem origin_later {said less : Block P → Prop}
    (origin : view = 0 ∨ ∃ block, before.Follows block view ∧ said block)
    (grows : before.Grows after) (weaker : ∀ block, said block → less block) :
    view = 0 ∨ ∃ block, after.Follows block view ∧ less block := by
  rcases origin with atRoot | ⟨block, follows, holds⟩
  · exact .inl atRoot
  · exact .inr ⟨block, follows.later grows, weaker block holds⟩

theorem Quorate.later {n : Nat} {accumulator : SignedCommitment P}
    {votes : List (SignedCommitment P)} (quorate : before.Quorate n accumulator votes)
    (grows : before.Grows after) : after.Quorate n accumulator votes :=
  { quorate with signed := fun vote member => (quorate.signed vote member).later grows }

theorem Proposed.later {n id : Nat} (proposed : before.Proposed n id block)
    (grows : before.Grows after) : after.Proposed n id block := by
  obtain ⟨leads, unhashed, unexecuted, ⟨accumulator, votes, isQuorum, quorate, usable⟩, parent⟩ :=
    proposed
  refine ⟨leads, unhashed, unexecuted, ⟨accumulator, votes, isQuorum, quorate.later grows, usable⟩,
    ?_⟩
  intro hash isParent
  obtain ⟨view, below, names⟩ := parent hash isParent
  exact ⟨view, below, names.later grows⟩

theorem Vote.later {record : Record P} (vote : before.Vote record) (grows : before.Grows after) :
    after.Vote record := by
  refine ⟨vote.named.later grows, vote.lock.later grows, ?_, ?_⟩
  · intro isPrepare above
    obtain ⟨id, block, hash, isProposal, rest⟩ := vote.prepares isPrepare above
    exact ⟨id, block, hash, grows.proposal isProposal, rest⟩
  · exact origin_later vote.origin grows fun _ notLater => notLater

end Growing

section Voting

variable {facts : Facts P} {n : Nat}
  {block : Block P}

section

variable (valid : facts.Valid n)

include valid

theorem Valid.above {id : Nat} (isProposal : facts.proposal id block) : 0 < block.view := by
  obtain ⟨accumulator, votes, -, -, usable⟩ := (valid.proposed id block isProposal).justified
  omega

theorem Valid.hash_view [hashes : CollisionFree P] {id id' : Nat} {left right : Block P}
    (isLeft : facts.proposal id left) (isRight : facts.proposal id' right)
    (sameHash : left.hashValue = right.hashValue) : left.view = right.view := by
  have leftUnhashed := (valid.proposed id left isLeft).unhashed
  have rightUnhashed := (valid.proposed id' right isRight).unhashed
  simp only [Block.hashValue, leftUnhashed, rightUnhashed, Option.getD_none] at sameHash
  exact (hashes.block _ _ _ _ _ _ _ _ sameHash).2.1

theorem Valid.hash_ne_genesis [hashes : CollisionFree P] {id : Nat}
    (isProposal : facts.proposal id block) : block.hashValue ≠ P.genesis := by
  have unhashed := (valid.proposed id block isProposal).unhashed
  simp only [Block.hashValue, unhashed, Option.getD_none]
  exact hashes.genesis _ _ _ _

theorem Valid.names_view [CollisionFree P] {left right : Nat} {hash : P.BlockHash}
    (isLeft : facts.Names left hash) (isRight : facts.Names right hash) : left = right := by
  rcases isLeft with ⟨rfl, isGenesis⟩ | ⟨id, block, isProposal, rfl, isHash⟩
  · rcases isRight with ⟨rfl, -⟩ | ⟨id', block', isProposal', -, isHash'⟩
    · rfl
    · exact absurd (isHash'.trans isGenesis) (valid.hash_ne_genesis isProposal')
  rcases isRight with ⟨-, isGenesis⟩ | ⟨id', block', isProposal', rfl, isHash'⟩
  · exact absurd (isHash.trans isGenesis) (valid.hash_ne_genesis isProposal)
  · exact valid.hash_view isProposal isProposal' (isHash.trans isHash'.symm)

/-- There is one block per view: its leader creates at most one. -/
theorem Valid.proposal_unique {id id' : Nat} {left right : Block P}
    (isLeft : facts.proposal id left) (isRight : facts.proposal id' right)
    (sameView : left.view = right.view) : left = right := by
  have sameId : id = id' := by
    rw [← (valid.proposed id left isLeft).leads, ← (valid.proposed id' right isRight).leads,
      sameView]
  subst sameId
  exact valid.unique id left right isLeft isRight sameView

theorem Valid.names_hash {id : Nat} (isProposal : facts.proposal id block) {hash : P.BlockHash}
    (names : facts.Names block.view hash) : block.hashValue = hash := by
  rcases names with ⟨atRoot, -⟩ | ⟨id', other, isOther, sameView, isHash⟩
  · have := valid.above isProposal
    omega
  · rw [valid.proposal_unique isProposal isOther sameView.symm]
    exact isHash

theorem Valid.names_unique {view : Nat} {left right : P.BlockHash} (isLeft : facts.Names view left)
    (isRight : facts.Names view right) : left = right := by
  rcases isLeft with ⟨atRoot, leftGenesis⟩ | ⟨id, block, isProposal, rfl, rfl⟩
  · rcases isRight with ⟨-, rightGenesis⟩ | ⟨id', block', isProposal', atView, -⟩
    · exact leftGenesis.trans rightGenesis.symm
    · have := valid.above isProposal'
      omega
  · exact valid.names_hash isProposal isRight

theorem Valid.accumulator_names {accumulator : SignedCommitment P}
    {votes : List (SignedCommitment P)} (quorate : facts.Quorate n accumulator votes) :
    facts.Names accumulator.getBlockView accumulator.getBlockHash := by
  have vote : ∀ signed ∈ votes, ∃ record, facts.Vote record ∧ record.result = signed := by
    intro signed member
    obtain ⟨record, issued, rfl⟩ := quorate.signed signed member
    exact ⟨record, valid.votes _ record issued (quorate.usig _ member).1, rfl⟩
  rcases quorate.names with ⟨current, all⟩ | ⟨highest, member, sameView, sameHash, -⟩
  · have nonempty : 0 < votes.length := lt_of_lt_of_le (Nat.succ_pos _) quorate.enough
    obtain ⟨signed, member⟩ := exists_mem_of_length_pos nonempty
    obtain ⟨record, isVote, rfl⟩ := vote signed member
    obtain ⟨-, inView, isHash⟩ := all _ member
    rw [current, ← inView, ← isHash]
    exact isVote.named
  obtain ⟨record, isVote, rfl⟩ := vote highest member
  rw [sameView, sameHash]
  exact isVote.lock

theorem Valid.follows_view [CollisionFree P] {view : Nat} (follows : facts.Follows block view) :
    view + 1 = block.view := by
  obtain ⟨id, accumulator, isProposal, isQuorum, rfl, isParent⟩ := follows
  have proposed := valid.proposed id block isProposal
  obtain ⟨other, votes, isQuorum', quorate, -⟩ := proposed.justified
  rw [isQuorum, Justification.quorum.injEq] at isQuorum'
  subst isQuorum'
  obtain ⟨below, isBelow, names⟩ := proposed.parent _ isParent
  have same := valid.names_view (valid.accumulator_names quorate) names
  omega

end

end Voting

def chain (facts : Facts P) (n : Nat) : ThreeChain Nat Nat where
  genesis := 0
  view := id
  justified view below := ∃ block, facts.Justified block below ∧ block.view = view
  direct view := ∃ block below, facts.Follows block below ∧ block.view = view
  prepared id view block := block = view ∧ ∃ record, facts.issued id record ∧
    record.result.isUsig = true ∧ record.result.isPrepare = true ∧ record.result.getView = view
  locked id view block := ∃ record, facts.issued id record ∧ record.result.isUsig = true ∧
    record.result.getView = view ∧ record.result.getPreparedBlockView = block
  quorum votes := votes ⊆ Finset.range n ∧ n / 2 + 1 ≤ votes.card

section Lawful

variable {facts : Facts P} {n : Nat}
  {accumulator : SignedCommitment P} {votes : List (SignedCommitment P)} {view : Nat}

theorem Valid.quorate_quorum (valid : facts.Valid n) (quorate : facts.Quorate n accumulator votes) :
    (facts.chain n).quorum (votes.map SignedCommitment.getCreator).toFinset := by
  constructor
  · intro creator member
    obtain ⟨vote, isVote, rfl⟩ := mem_map.mp (List.mem_toFinset.mp member)
    obtain ⟨record, issued, -⟩ := quorate.signed vote isVote
    exact Finset.mem_range.mpr (valid.inRange _ record issued)
  · rw [toFinset_card_of_nodup quorate.distinct, length_map]
    exact quorate.enough

theorem Valid.named (valid : facts.Valid n) (quorate : facts.Quorate n accumulator votes) :
    (facts.chain n).Certified accumulator.getView accumulator.getBlockView ∨
      (facts.chain n).Highest accumulator.getView accumulator.getBlockView := by
  have isQuorum := valid.quorate_quorum quorate
  have member : ∀ id ∈ (votes.map SignedCommitment.getCreator).toFinset,
      ∃ vote ∈ votes, vote.getCreator = id := by
    intro id isCreator
    exact mem_map.mp (List.mem_toFinset.mp isCreator)
  have locked : ∀ vote ∈ votes, (facts.chain n).locked vote.getCreator accumulator.getView
      vote.getPreparedBlockView := by
    intro vote isVote
    obtain ⟨record, issued, rfl⟩ := quorate.signed vote isVote
    obtain ⟨usig, inView⟩ := quorate.usig _ isVote
    exact ⟨record, issued, usig, inView, rfl⟩
  rcases quorate.names with ⟨current, all⟩ | ⟨highest, isHighest, sameView, -, above⟩
  · refine .inl ⟨_, isQuorum, ?_⟩
    intro id isCreator
    obtain ⟨vote, isVote, rfl⟩ := member id isCreator
    obtain ⟨record, issued, rfl⟩ := quorate.signed vote isVote
    obtain ⟨usig, inView⟩ := quorate.usig _ isVote
    exact ⟨current, record, issued, usig, (all _ isVote).1, inView⟩
  refine .inr ⟨_, isQuorum, ⟨highest.getCreator, ?_, ?_⟩, ?_⟩
  · exact List.mem_toFinset.mpr (mem_map.mpr ⟨highest, isHighest, rfl⟩)
  · rw [sameView]
    exact locked highest isHighest
  intro id isCreator
  obtain ⟨vote, isVote, rfl⟩ := member id isCreator
  refine ⟨vote.getPreparedBlockView, locked vote isVote, ?_⟩
  rw [sameView]
  exact above vote isVote

theorem Follows.justified {block : Block P} (follows : facts.Follows block view) :
    facts.Justified block view := by
  obtain ⟨id, accumulator, isProposal, isQuorum, sameView, -⟩ := follows
  exact ⟨id, accumulator, isProposal, isQuorum, sameView⟩

theorem Valid.justified_unique (valid : facts.Valid n) {left right : Block P} {below below' : Nat}
    (isLeft : facts.Justified left below) (isRight : facts.Justified right below')
    (sameView : left.view = right.view) : left = right ∧ below = below' := by
  obtain ⟨id, accumulator, isProposal, isQuorum, rfl⟩ := isLeft
  obtain ⟨id', accumulator', isProposal', isQuorum', rfl⟩ := isRight
  have same := valid.proposal_unique isProposal isProposal' sameView
  subst same
  rw [isQuorum, Justification.quorum.injEq] at isQuorum'
  exact ⟨rfl, congrArg SignedCommitment.getBlockView isQuorum'⟩

theorem Follows.locks {block : Block P} {below : Nat} (follows : facts.Follows block below)
    (hash : P.BlockHash) :
    Locks (.prepare block.view block.hashValue block.justification block.parent hash) := by
  obtain ⟨id, accumulator, -, isQuorum, -, isParent⟩ := follows
  exact ⟨block.view, block.hashValue, accumulator, hash, by rw [isQuorum, isParent]⟩

/-- Replicas that follow the protocol vote as chained voting demands. -/
theorem Valid.lawful (valid : facts.Valid n) [CollisionFree P] : (facts.chain n).Lawful where
  root := Iff.rfl
  intersecting := by
    intro left right ⟨leftIn, leftEnough⟩ ⟨rightIn, rightEnough⟩
    exact Majority.meets ⟨leftIn, leftEnough⟩ ⟨rightIn, rightEnough⟩ (by omega)
  prepared_view := fun prepared => prepared.1
  prepared_unique := fun left right => left.1.trans right.1.symm
  prepared_justified := by
    intro id view block ⟨isView, record, issued, usig, isPrepare, inView⟩ above
    subst isView
    obtain ⟨creator, proposal, hash, isProposal, atView, -⟩ :=
      (valid.votes id record issued usig).prepares isPrepare (by omega)
    obtain ⟨accumulator, votes, isQuorum, -, -⟩ :=
      (valid.proposed creator proposal isProposal).justified
    exact ⟨accumulator.getBlockView, proposal, ⟨creator, accumulator, isProposal, isQuorum, rfl⟩,
      atView.trans inView⟩
  justified_unique := by
    rintro block left right ⟨leftBlock, isLeft, rfl⟩ ⟨rightBlock, isRight, sameView⟩
    exact (valid.justified_unique isLeft isRight sameView.symm).2
  justified_view := by
    rintro block below ⟨proposal, ⟨id, accumulator, isProposal, -⟩, rfl⟩
    exact valid.above isProposal
  named := by
    rintro block below view ⟨proposal, ⟨id, accumulator, isProposal, isQuorum, rfl⟩, rfl⟩ next
    obtain ⟨other, votes, isQuorum', quorate, usable⟩ :=
      (valid.proposed id proposal isProposal).justified
    rw [isQuorum, Justification.quorum.injEq] at isQuorum'
    subst isQuorum'
    have inView : accumulator.getView = view := Nat.succ_injective (usable.trans next)
    rw [← inView]
    exact valid.named quorate
  direct_view := by
    rintro block below ⟨proposal, below', follows, rfl⟩ ⟨other, justified, sameView⟩
    have same := (valid.justified_unique follows.justified justified sameView.symm).2
    subst same
    exact valid.follows_view follows
  origin := by
    rintro id view block ⟨record, issued, usig, rfl, rfl⟩
    rcases (valid.votes id record issued usig).origin with atRoot | ⟨proposal, follows, before⟩
    · exact .inl atRoot
    · exact .inr ⟨proposal.view, before, ⟨proposal, _, follows, rfl⟩,
        ⟨proposal, follows.justified, rfl⟩⟩
  keeps := by
    rintro id view block successor earlier ⟨second, isSecond, secondUsig, rfl, rfl⟩
      ⟨rfl, first, isFirst, firstUsig, isPrepare, rfl⟩ order ⟨proposal, below, follows, atView⟩
    have vote := valid.votes id first isFirst firstUsig
    have above : 0 < first.result.getView := by
      obtain ⟨creator, accumulator, isProposal, -⟩ := follows
      have := valid.above isProposal
      omega
    obtain ⟨creator, prepared, hash, isPrepared, sameView, isCall⟩ := vote.prepares isPrepare above
    have locks : Locks first.call := by
      obtain ⟨creator', accumulator, isProposal, rest⟩ := follows
      have same := valid.proposal_unique isPrepared isProposal (sameView.trans atView.symm)
      subst same
      rw [isCall]
      exact Follows.locks ⟨creator', accumulator, isProposal, rest⟩ hash
    exact valid.keeps id first second isFirst isSecond firstUsig secondUsig locks order

/-! What is committed stays committed. -/

theorem Grows.committed {before after : Facts P} (grows : before.Grows after)
    (committed : (before.chain n).Committed view) : (after.chain n).Committed view := by
  obtain ⟨successor, ⟨block, justified, atView⟩, ⟨block', below, follows, atView'⟩,
    votes, isQuorum, prepared⟩ := committed
  refine ⟨successor, ⟨block, justified.later grows, atView⟩,
    ⟨block', below, follows.later grows, atView'⟩, votes, isQuorum, ?_⟩
  intro id isVote
  obtain ⟨isView, record, issued, rest⟩ := prepared id isVote
  exact ⟨isView, record, grows.issued issued, rest⟩

theorem Grows.chain {before after : Facts P} (grows : before.Grows after) {views : List Nat}
    (isChain : (before.chain n).Chain view views) : (after.chain n).Chain view views := by
  induction isChain with
  | root => exact .root
  | step _ link ih =>
    obtain ⟨block, justified, atView⟩ := link
    exact .step ih ⟨block, justified.later grows, atView⟩

end Lawful

end Facts

end Abcperf.Damysus
