import Abcperf.Damysus.Execution
import Abcperf.Damysus.Provenance

/-! Transactions of one block at two replicas. The hash of a block does not cover its transactions,
and a replica neither asks who voted for a block it is handed nor, for a block it has requested,
whether anybody did. Agreement needs both from the environment. -/

namespace Abcperf.Damysus

open Lib Lib.Outcome Symbolic Function List Option

variable {P : Platform}

namespace World

/-- A block above genesis that a correct replica stores, keeps for later, has created or has
sent. -/
def Circulates (setup : Setup P) (world : World P) (block : Block P) : Prop :=
  ∃ id ∈ setup.correct,
    (∃ view, 0 < view ∧ (world.replicas id).blockstore.get view = some block) ∨
    block ∈ (world.replicas id).storedBlocks ∨ block ∈ (world.replicas id).proposed ∨
    (block.justification ≠ .genesis ∧ ∃ message ∈ (world.replicas id).sent (world.history id),
      message.message.block = some block)

def LeaderPrepared (setup : Setup P) (world : World P) (block : Block P) : Prop :=
  VotedFor (world.enclave setup (View.getViewLeader block.view setup.n)).log block

/-- A block that is handed to a replica was prepared by the leader of its view, and carries the
transactions of every block with its hash that is around. -/
def Bound (setup : Setup P) (world : World P) : Event P → Prop
  | .deliver _ _ _ message => ∀ block, message.message.block = some block →
      block.justification ≠ .genesis → world.LeaderPrepared setup block ∧
        ∀ other, world.Circulates setup other → other.hashValue = block.hashValue →
          other.transactions = block.transactions
  | _ => True

structure Sound (setup : Setup P) (world : World P) : Prop where
  named : ∀ id ∈ setup.correct, (world.replicas id).me = id ∧ (world.replicas id).n = setup.n
  traced : ∀ id, (world.enclave setup id).Traced id
  sourced : ∀ id ∈ setup.correct, Replica.Sourced
    ⟨fun block => ∃ other, world.Circulates setup other ∧ other.notExecuted = block,
      (world.replicas id).view, (world.replicas id).proposed⟩
    (world.history id) none 0 (world.replicas id)
  prepared : ∀ block, world.Circulates setup block →
    block.precomputedHash = none ∧ world.LeaderPrepared setup block
  same : ∀ left right, world.Circulates setup left → world.Circulates setup right →
    left.hashValue = right.hashValue → left.transactions = right.transactions

variable {setup : Setup P} {block : Block P} {world : World P} {event : Event P}

theorem enclave_correct {id : Nat} (correct : id ∈ setup.correct) (world : World P) :
    world.enclave setup id = (world.replicas id).enclave := if_pos correct

theorem enclave_acted {id : Nat} (correct : id ∈ setup.correct) (world : World P)
    (replica : Replica P) (output : Output P) (other : Nat) :
    (world.acted id replica output).enclave setup other =
      if other = id then replica.enclave else world.enclave setup other := by
  by_cases same : other = id
  · subst same
    rw [enclave_correct correct, if_pos rfl]
    simp [acted]
  · rw [if_neg same]
    simp [enclave, acted, update_of_ne same]

theorem enclave_called {id : Nat} (foreign : id ∉ setup.correct) (world : World P)
    (enclave : Enclave P) (other : Nat) : (world.called id enclave).enclave setup other =
      if other = id then enclave else world.enclave setup other := by
  by_cases same : other = id
  · subst same
    simp [World.enclave, called, foreign]
  · simp [World.enclave, called, same]

theorem logs_grow {next : World P} (step : Step setup world event next) (id : Nat) :
    (world.enclave setup id).log <+: (next.enclave setup id).log := by
  cases step with
  | act correct possible run =>
    rw [enclave_acted correct]
    split
    · next same =>
      rw [same, enclave_correct correct]
      exact (Event.handle_grows run).log
    · exact prefix_rfl
  | addPeer foreign run =>
    obtain ⟨trusted, rfl⟩ := Enclave.addPeer_ok run
    rw [enclave_called foreign]
    split
    · next same => rw [same, World.enclave, if_neg foreign]
    · exact prefix_rfl
  | call foreign run =>
    rw [enclave_called foreign]
    split
    · next same =>
      rw [same, World.enclave, if_neg foreign]
      obtain ⟨-, ⟨sameLog, -⟩ | ⟨signed, -, grown, -⟩⟩ := Enclave.call_cases run
      · rw [sameLog]
      · rw [grown]
        exact prefix_append _ _
    · exact prefix_rfl

theorem LeaderPrepared.later {before after : World P} (prepared : before.LeaderPrepared setup block)
    (grows : ∀ id, (before.enclave setup id).log <+: (after.enclave setup id).log) :
    after.LeaderPrepared setup block :=
  VotedFor.later prepared (grows _)

theorem circulating {id : Nat} (correct : id ∈ setup.correct) {base : Base P}
    (sourced : Replica.Sourced base (world.history id) none 0 (world.replicas id)) : Replica.Sourced
      ⟨fun block => ∃ other, world.Circulates setup other ∧ other.notExecuted = block,
        (world.replicas id).view, (world.replicas id).proposed⟩
      (world.history id) none 0 (world.replicas id) where
  traced := sourced.traced
  inStep := sourced.inStep
  later := le_refl _
  own := sourced.own
  voted := sourced.voted
  ascending := sourced.ascending
  new := fun _ created => .inl created
  root := sourced.root
  slots := fun view block found => ⟨(sourced.slots view block found).1, fun above =>
    .inl ⟨block, ⟨id, correct, .inl ⟨view, above, found⟩⟩, rfl⟩⟩
  stored := fun block member => .inl ⟨block, ⟨id, correct, .inr (.inl member)⟩, rfl⟩
  based := sourced.based
  leads := sourced.leads
  sent := by
    intro message member block carries
    by_cases isGenesis : block.justification = .genesis
    · exact .inl isGenesis
    · exact .inr (.inl ⟨block, ⟨id, correct,
        .inr (.inr (.inr ⟨isGenesis, message, member, carries⟩))⟩, rfl⟩)

def handed : Event P → Option (Block P)
  | .deliver _ _ _ message => message.message.block
  | _ => none

def Earlier (setup : Setup P) (world : World P) (event : Event P) (block : Block P) : Prop :=
  (∃ other, world.Circulates setup other ∧ other.notExecuted = block) ∨
    ∃ other, handed event = some other ∧ other.justification ≠ .genesis ∧
      other.notExecuted = block

theorem transmitted_unhashed {message : Message P}
    (carries : message.transmitted.block = some block) : block.precomputedHash = none := by
  cases message with
  | newBlock sent prepare =>
    cases carries
    rfl
  | requestedBlock sent =>
    cases carries
    rfl
  | commitment | handshake | blockRequest => cases carries

theorem Sound.earlier_prepared (sound : world.Sound setup) (possible : event.Possible setup world)
    (bound : world.Bound setup event) (earlier : world.Earlier setup event block) :
    block.precomputedHash = none ∧ world.LeaderPrepared setup block := by
  rcases earlier with ⟨other, circulates, rfl⟩ | ⟨other, isHanded, justified, rfl⟩
  · exact sound.prepared other circulates
  cases event with
  | deliver source receiver env message =>
    obtain ⟨-, sent, rfl, -⟩ := possible
    have unhashed : other.precomputedHash = none := transmitted_unhashed isHanded
    exact ⟨unhashed, (bound other isHanded justified).1⟩
  | _ => cases isHanded

theorem Sound.earlier_same (sound : world.Sound setup) (bound : world.Bound setup event)
    {left right : Block P} (isLeft : world.Earlier setup event left)
    (isRight : world.Earlier setup event right) (sameHash : left.hashValue = right.hashValue) :
    left.transactions = right.transactions := by
  have fromHanded : ∀ block other : Block P, handed event = some block →
      block.justification ≠ .genesis → world.Circulates setup other →
      other.hashValue = block.hashValue → other.transactions = block.transactions := by
    intro block other isHanded justified circulates same
    cases event with
    | deliver source receiver env message =>
      exact (bound block isHanded justified).2 other circulates same
    | _ => cases isHanded
  rcases isLeft with ⟨left, leftCirculates, rfl⟩ | ⟨left, leftHanded, leftJustified, rfl⟩
  · rcases isRight with ⟨right, rightCirculates, rfl⟩ | ⟨right, rightHanded, rightJustified, rfl⟩
    · exact sound.same left right leftCirculates rightCirculates sameHash
    · exact fromHanded right left rightHanded rightJustified leftCirculates sameHash
  rcases isRight with ⟨right, rightCirculates, rfl⟩ | ⟨right, rightHanded, -, rfl⟩
  · exact (fromHanded left right leftHanded leftJustified rightCirculates sameHash.symm).symm
  · rw [leftHanded, some.injEq] at rightHanded
    rw [rightHanded]

def base (setup : Setup P) (world : World P) (event : Event P) : Base P where
  known := world.Earlier setup event
  view := (world.replicas event.place).view
  proposed := (world.replicas event.place).proposed

theorem Sound.handle (sound : world.Sound setup) (correct : event.place ∈ setup.correct)
    {replica : Replica P} {output : Output P}
    (run : event.handle (world.replicas event.place) = .ok (replica, output)) :
    Replica.Sourced (world.base setup event) ((world.history event.place).join output) none 0
      replica ∧ (world.replicas event.place).Grows replica := by
  have started : Replica.Sourced (world.base setup event) (world.history event.place) none 0
      (world.replicas event.place) :=
    (sound.sourced _ correct).rebase (fun block known => known.imp .inl id) rfl rfl
  refine Event.handle_keeps (fun env => Replica.sourced_calls env _) started ?_ run
  cases event with
  | deliver source receiver env message =>
    obtain ⟨sender, content⟩ := message
    have fetched : ∀ block, content.block = some block → (world.replicas receiver).Fetched
          (world.base setup (.deliver source receiver env ⟨sender, content⟩)) block := by
      intro block carries
      by_cases isGenesis : block.justification = .genesis
      · exact .inl isGenesis
      · exact .inr (.inl (.inr ⟨block, carries, isGenesis, rfl⟩))
    cases content with
    | newBlock block prepare => exact fetched block rfl
    | requestedBlock block => exact fetched block rfl
    | _ => trivial
  | viewTimeout id env => exact fun _ => trivial
  | _ => trivial

/-- What circulates after a call was around before it, or was created during it. -/
theorem Circulates.acted_cases {replica : Replica P} {output : Output P}
    (circulates : (world.acted event.place replica output).Circulates setup block)
    (sourced : Replica.Sourced (world.base setup event)
      ((world.history event.place).join output) none 0 replica) :
    replica.Known (world.base setup event) block := by
  obtain ⟨id, correct, carries⟩ := circulates
  by_cases same : id = event.place
  · subst same
    simp only [acted, update_self] at carries
    rcases carries with ⟨view, above, found⟩ | stored | created | ⟨justified, message,
      sent, isBlock⟩
    · exact (sourced.slots view block found).2 above
    · exact sourced.stored block stored
    · have unmarked := Block.notExecuted_eq (sourced.own block created).unexecuted
      exact .inr (by rw [unmarked]; exact created)
    rcases sourced.sent message sent block isBlock with isGenesis | known
    · exact absurd isGenesis justified
    · exact known
  · simp only [acted, update_of_ne same] at carries
    exact .inl (.inl ⟨block, ⟨id, correct, carries⟩, rfl⟩)

section Acting

variable {setup : Setup P} {world : World P} {event : Event P} {replica : Replica P}
  {output : Output P}

theorem known_cases (correct : event.place ∈ setup.correct)
    (sourced : Replica.Sourced (world.base setup event)
      ((world.history event.place).join output) none 0 replica)
    {block : Block P} (known : replica.Known (world.base setup event) block) :
    world.Earlier setup event block.notExecuted ∨ (block.notExecuted ∈ replica.proposed ∧
      (world.replicas event.place).view ≤ block.view) := by
  rcases known with earlier | created
  · exact .inl earlier
  rcases sourced.new _ created with before | later
  · exact .inl (.inl ⟨_, ⟨event.place, correct, .inr (.inr (.inl before))⟩, rfl⟩)
  · exact .inr ⟨created, later⟩

section

variable (sound : world.Sound setup) [hashes : CollisionFree P]
  (correct : event.place ∈ setup.correct) (possible : event.Possible setup world)
  (bound : world.Bound setup event)

include sound correct possible bound

section

variable
  (sourced : Replica.Sourced (world.base setup event) ((world.history event.place).join output)
    none 0 replica)
  (grows : (world.replicas event.place).Grows replica)

include sourced grows

/-- Nobody has a block with the hash of a new one: the leader had not voted in its view. -/
theorem Sound.created_fresh (created other : Block P) (isCreated : created ∈ replica.proposed)
    (later : (world.replicas event.place).view ≤ created.view)
    (earlier : world.Earlier setup event other) : created.hashValue ≠ other.hashValue := by
  intro sameHash
  obtain ⟨unhashed, prepared⟩ := sound.earlier_prepared possible bound earlier
  obtain ⟨-, leads, -, createdUnhashed, -⟩ := sourced.own created isCreated
  obtain ⟨sameMe, sameN⟩ := sound.named _ correct
  have sameView : created.view = other.view := by
    simp only [Block.hashValue, unhashed, createdUnhashed, getD_none] at sameHash
    exact (hashes.block _ _ _ _ _ _ _ _ sameHash).2.1
  have leader : View.getViewLeader other.view setup.n = event.place := by
    rw [← sameView, ← sameN, ← grows.n, leads, grows.me, sameMe]
  rw [LeaderPrepared, leader, enclave_correct correct] at prepared
  obtain ⟨record, logged, usig, -, inView, -⟩ := prepared
  have started := sound.sourced _ correct
  have below := started.traced.below record logged
  have inStep := started.inStep
  omega

theorem Sound.acted_same {left right : Block P}
    (isLeft : (world.acted event.place replica output).Circulates setup left)
    (isRight : (world.acted event.place replica output).Circulates setup right)
    (sameHash : left.hashValue = right.hashValue) : left.transactions = right.transactions := by
  have fresh := sound.created_fresh correct possible bound sourced grows
  have leftCases := known_cases correct sourced (isLeft.acted_cases sourced)
  have rightCases := known_cases correct sourced (isRight.acted_cases sourced)
  have unmarked : left.notExecuted.hashValue = right.notExecuted.hashValue := sameHash
  suffices left.notExecuted.transactions = right.notExecuted.transactions from this
  rcases leftCases with leftEarlier | ⟨leftCreated, leftLater⟩
  · rcases rightCases with rightEarlier | ⟨rightCreated, rightLater⟩
    · exact sound.earlier_same bound leftEarlier rightEarlier unmarked
    · exact absurd unmarked.symm (fresh _ _ rightCreated rightLater leftEarlier)
  rcases rightCases with rightEarlier | ⟨rightCreated, rightLater⟩
  · exact absurd unmarked (fresh _ _ leftCreated leftLater rightEarlier)
  have leftUnhashed := (sourced.own _ leftCreated).unhashed
  have rightUnhashed := (sourced.own _ rightCreated).unhashed
  simp only [Block.hashValue, leftUnhashed, rightUnhashed, getD_none] at unmarked
  have sameView := (hashes.block _ _ _ _ _ _ _ _ unmarked).2.1
  rw [sourced.created_unique leftCreated rightCreated sameView]

end

theorem Sound.acted (run : event.handle (world.replicas event.place) = .ok (replica, output)) :
    (world.acted event.place replica output).Sound setup := by
  obtain ⟨sourced, grows⟩ := sound.handle correct run
  obtain ⟨sameMe, sameN⟩ := sound.named _ correct
  have logs := logs_grow (.act correct possible run)
  refine ⟨?_, ?_, ?_, ?_, fun left right isLeft isRight =>
    sound.acted_same correct possible bound sourced grows isLeft isRight⟩
  · intro id isCorrect
    by_cases same : id = event.place
    · subst same
      simp only [World.acted, update_self]
      exact ⟨grows.me.trans sameMe, grows.n.trans sameN⟩
    · simp only [World.acted, update_of_ne same]
      exact sound.named id isCorrect
  · intro id
    rw [enclave_acted correct]
    split
    · next same =>
      have traced := sourced.traced
      rw [grows.me, sameMe] at traced
      exact same ▸ traced
    · exact sound.traced id
  · intro id isCorrect
    by_cases same : id = event.place
    · subst same
      have atRest : Replica.Sourced (world.base setup event)
          ((world.acted event.place replica output).history event.place) none 0
          ((world.acted event.place replica output).replicas event.place) := by
        simpa [World.acted] using sourced
      exact circulating isCorrect atRest
    have unmoved := sound.sourced id isCorrect
    have sameReplica : (world.acted event.place replica output).replicas id =
      world.replicas id := update_of_ne same _ _
    have sameHistory : (world.acted event.place replica output).history id =
      world.history id := update_of_ne same _ _
    rw [← sameReplica, ← sameHistory] at unmoved
    exact circulating isCorrect unmoved
  intro block circulates
  rcases known_cases correct sourced (circulates.acted_cases sourced) with
    earlier | ⟨created, -⟩
  · obtain ⟨unhashed, prepared⟩ := sound.earlier_prepared possible bound earlier
    exact ⟨unhashed, prepared.later logs⟩
  have own := sourced.own _ created
  refine ⟨own.unhashed, ?_⟩
  have leader : View.getViewLeader block.view setup.n = event.place := by
    rw [← sameN, ← grows.n, ← sameMe, ← grows.me]
    exact own.leads
  rw [LeaderPrepared, leader, enclave_acted correct, if_pos rfl]
  rcases sourced.voted _ created with impossible | voted
  · cases impossible
  · exact voted

end

end Acting

/-- A host that is not correct uses its enclave; no correct replica is touched. -/
theorem Sound.called (sound : world.Sound setup) {id : Nat} (foreign : id ∉ setup.correct)
    {enclave : Enclave P} (traced : enclave.Traced id)
    (step : Step setup world event (world.called id enclave)) :
    (world.called id enclave).Sound setup := by
  refine ⟨sound.named, ?_, sound.sourced, ?_, sound.same⟩
  · intro other
    rw [enclave_called foreign]
    split
    · next same => exact same ▸ traced
    · exact sound.traced other
  intro block circulates
  obtain ⟨unhashed, prepared⟩ := sound.prepared block circulates
  exact ⟨unhashed, prepared.later (logs_grow step)⟩

theorem step_sound {next : World P} [CollisionFree P] (sound : world.Sound setup)
    (bound : world.Bound setup event) (step : Step setup world event next) : next.Sound setup := by
  cases step with
  | act correct possible run => exact sound.acted correct possible bound run
  | @addPeer id peer key enclave foreign run =>
    have traced := sound.traced id
    rw [World.enclave, if_neg foreign] at traced
    exact sound.called foreign (Enclave.addPeer_traced traced run) (.addPeer foreign run)
  | @call id request enclave result foreign run =>
    have traced := sound.traced id
    rw [World.enclave, if_neg foreign] at traced
    exact sound.called foreign (Enclave.call_traced traced run) (.call foreign run)

theorem initial_sound (initial : world.Initial setup) : world.Sound setup := by
  have started := fun id (correct : id ∈ setup.correct) => initial.started correct
  have quiet : ∀ block, ¬ world.Circulates setup block := by
    rintro block ⟨id, correct, carries⟩
    obtain ⟨isInitial, noOutput⟩ := started id correct
    rw [isInitial, noOutput] at carries
    rcases carries with ⟨view, above, found⟩ | stored | created | ⟨-, message, sent, -⟩
    · simp [Replica.initial, Nat.pos_iff_ne_zero.mp above] at found
    · simp [Replica.initial] at stored
    · simp [Replica.initial] at created
    · simp [Replica.initial, Replica.sent, sentBy, UnreflectedOutput.new, Output.empty] at sent
  have named : ∀ id ∈ setup.correct, (world.replicas id).me = id ∧
      (world.replicas id).n = setup.n := by
    intro id correct
    rw [(started id correct).1]
    exact setup.named id correct
  have sourced : ∀ id ∈ setup.correct, Replica.Sourced ⟨fun _ => False, 0, []⟩
      (world.history id) none 0 (world.replicas id) := by
    intro id correct
    rw [(started id correct).1, (started id correct).2]
    exact Replica.initial_sourced _ _ rfl
  refine ⟨named, ?_, fun id correct => circulating correct (sourced id correct), ?_, ?_⟩
  · intro id
    unfold World.enclave
    split
    · next correct =>
      have traced := (sourced id correct).traced
      rw [(named id correct).1] at traced
      exact traced
    · rw [initial.2]
      exact Enclave.new_traced _ _ _ _
  · exact fun block circulates => absurd circulates (quiet block)
  · exact fun left _ circulates => absurd circulates (quiet left)

theorem run_sound [CollisionFree P] (run : Run setup (World.Bound setup) world) :
    world.Sound setup := by
  induction run with
  | start initial => exact initial_sound initial
  | step _ bound step ih => exact step_sound ih bound step

/-- Two blocks of one view that circulate have the hash that its leader has voted for. -/
theorem Sound.agree (sound : world.Sound setup) {left right : Block P}
    (isLeft : world.Circulates setup left) (isRight : world.Circulates setup right)
    (sameView : left.view = right.view) : left.transactions = right.transactions := by
  obtain ⟨leftRecord, leftLogged, leftUsig, -, leftView, leftHash⟩ := (sound.prepared _ isLeft).2
  obtain ⟨rightRecord, rightLogged, rightUsig, -, rightView, rightHash⟩ :=
    (sound.prepared _ isRight).2
  rw [← sameView] at rightLogged
  have sameRecord := (sound.traced _).vote_unique leftLogged rightLogged leftUsig rightUsig
    (leftView.trans (sameView.trans rightView.symm))
  refine sound.same left right isLeft isRight ?_
  rw [← leftHash, ← rightHash, sameRecord]

end World

/-- As long as blocks are handed over as their leaders have prepared them, two correct replicas that
have executed the block of a view have the same transactions in it. -/
theorem executed_transactions_agree {setup : Setup P} {world : World P} (hashes : CollisionFree P)
    (run : Run setup (World.Bound setup) world) {left right view : Nat}
    (isLeft : left ∈ setup.correct) (isRight : right ∈ setup.correct)
    {leftBlock rightBlock : Block P}
    (leftExecuted : (world.replicas left).blockstore.get view = some leftBlock ∧
      leftBlock.executed = true)
    (rightExecuted : (world.replicas right).blockstore.get view = some rightBlock ∧
      rightBlock.executed = true) : leftBlock.transactions = rightBlock.transactions := by
  have sound := World.run_sound run
  obtain ⟨leftStored, -⟩ := leftExecuted
  obtain ⟨rightStored, -⟩ := rightExecuted
  have leftSourced := sound.sourced left isLeft
  have rightSourced := sound.sourced right isRight
  rcases Nat.eq_zero_or_pos view with rfl | above
  · -- both are the genesis block
    have leftRoot := leftSourced.root
    have rightRoot := rightSourced.root
    rw [leftStored, ← rightRoot, rightStored, map_some, map_some, some.injEq] at leftRoot
    have sameTransactions := congrArg Block.transactions leftRoot
    exact sameTransactions
  refine sound.agree ⟨left, isLeft, .inl ⟨view, above, leftStored⟩⟩
    ⟨right, isRight, .inl ⟨view, above, rightStored⟩⟩ ?_
  rw [(leftSourced.slots _ _ leftStored).1, (rightSourced.slots _ _ rightStored).1]

def Event.commitments : Event P → List (SignedCommitment P)
  | .deliver _ _ _ ⟨_, .newBlock block prepare⟩ =>
    prepare :: block.justification.getCommitment.toList
  | .deliver _ _ _ ⟨_, .requestedBlock block⟩ => block.justification.getCommitment.toList
  | .deliver _ _ _ ⟨_, .commitment commitment⟩ => [commitment]
  | .call _ (.accumulate commitments) => commitments
  | .call _ (.prepare _ _ justification _ _) => justification.getCommitment.toList
  | _ => []

namespace World

def Authentic (setup : Setup P) (world : World P) (event : Event P) : Prop :=
  ∀ signed ∈ event.commitments,
    ∃ record ∈ (world.enclave setup signed.getCreator).log, record.result = signed

instance [DecidableEq P.Signature] (setup : Setup P) (world : World P) (event : Event P) :
    Decidable (world.Authentic setup event) :=
  inferInstanceAs (Decidable (∀ signed ∈ event.commitments,
    ∃ record ∈ (world.enclave setup signed.getCreator).log, record.result = signed))

def blocksOf (world : World P) (id : Nat) : List (Block P) :=
  (world.replicas id).blockstore.blocks.tail.filterMap (fun slot => slot) ++
    (world.replicas id).storedBlocks ++ (world.replicas id).proposed ++
    ((world.replicas id).sent (world.history id)).filterMap (fun message => message.message.block)

theorem Circulates.mem_blocksOf {setup : Setup P} {world : World P} {block : Block P}
    (circulates : world.Circulates setup block) :
    ∃ id ∈ setup.correct, block ∈ world.blocksOf id := by
  obtain ⟨id, correct, carries⟩ := circulates
  refine ⟨id, correct, ?_⟩
  simp only [blocksOf, mem_append, mem_filterMap]
  rcases carries with ⟨view, above, found⟩ | stored | created | ⟨-, sent⟩
  · refine .inl (.inl (.inl ⟨some block, ?_, rfl⟩))
    obtain ⟨before, rfl⟩ := Nat.exists_eq_succ_of_ne_zero (Nat.pos_iff_ne_zero.mp above)
    have atSlot : (world.replicas id).blockstore.blocks.tail[before]? = some (some block) := by
      rw [List.getElem?_tail]
      exact join_eq_some_iff.mp found
    exact mem_of_getElem? atSlot
  · exact .inl (.inl (.inr stored))
  · exact .inl (.inr created)
  · exact .inr sent

instance (setup : Setup P) (world : World P) (block : Block P) :
    Decidable (world.LeaderPrepared setup block) :=
  inferInstanceAs (Decidable (∃ record ∈
    (world.enclave setup (View.getViewLeader block.view setup.n)).log,
      record.result.isUsig = true ∧ record.result.isPrepare = true ∧
      record.result.getView = block.view ∧ record.result.getBlockHash = block.hashValue))

/-- `Bound` in a form that can be computed. -/
def Checked (setup : Setup P) (world : World P) (event : Event P) : Prop :=
  ∀ block ∈ handed event, block.isGenesis = true ∨ world.LeaderPrepared setup block ∧
    ∀ id ∈ setup.correct, ∀ other ∈ world.blocksOf id, other.hashValue = block.hashValue →
      other.transactions = block.transactions

instance [DecidableEq P.Tx] (setup : Setup P) (world : World P) (event : Event P) :
    Decidable (world.Checked setup event) :=
  inferInstanceAs (Decidable (∀ block ∈ handed event, block.isGenesis = true ∨ _ ∧
    ∀ id ∈ setup.correct, ∀ other ∈ world.blocksOf id, _ = _ → _ = _))

theorem Checked.bound {setup : Setup P} {world : World P} {event : Event P}
    (checked : world.Checked setup event) : world.Bound setup event := by
  cases event with
  | deliver source receiver env message =>
    intro block carries justified
    rcases checked block carries with isGenesis | ⟨prepared, same⟩
    · cases justification : block.justification with
      | genesis => exact absurd justification justified
      | quorum accumulator =>
        simp [Block.isGenesis, justification, Justification.isGenesis,
          Justification.getCommitment] at isGenesis
    refine ⟨prepared, fun other circulates sameHash => ?_⟩
    obtain ⟨id, correct, member⟩ := circulates.mem_blocksOf
    exact same id correct other member sameHash
  | _ => trivial

end World

/-- Two correct replicas execute the first block with the request it carries. -/
theorem executed_transactions_agree_steady : ∃ world leftBlock rightBlock,
    Run Symbolic.pair (World.Bound Symbolic.pair) world ∧
      (world.replicas 0).blockstore.get 1 = some leftBlock ∧
      (world.replicas 1).blockstore.get 1 = some rightBlock ∧
      leftBlock.transactions = rightBlock.transactions := by
  obtain ⟨world, run, leftBlock, isLeft, leftDone, rightBlock, isRight, rightDone⟩ :
      ∃ world, Run pair (World.Bound pair) world ∧
        ∃ left, (world.replicas 0).blockstore.get 1 = some left ∧ left.executed = true ∧
        ∃ right, (world.replicas 1).blockstore.get 1 = some right ∧ right.executed = true :=
    (Player.mk pair env).play_run
      (fun world event checked => (of_decide_eq_true checked : world.Checked pair event).bound)
      pair_initial steady (by decide +kernel)
  exact ⟨world, leftBlock, rightBlock, run, isLeft, isRight, executed_transactions_agree
    collisionFree run (by decide) (by decide) ⟨isLeft, leftDone⟩ ⟨isRight, rightDone⟩⟩

/-- Although every commitment is one that an enclave has returned, a leader hands out one block hash
with two lists of transactions, and both lists are executed. -/
theorem split_block_executed : CollisionFree Symbolic.platform ∧
    ∃ world leftBlock rightBlock, Run Symbolic.trio (World.Authentic Symbolic.trio) world ∧
      1 ∈ Symbolic.trio.correct ∧ 2 ∈ Symbolic.trio.correct ∧
      Symbolic.trio.n - Symbolic.trio.correct.card ≤
        Symbolic.trio.n - (Symbolic.trio.n / 2 + 1) ∧
      ((world.replicas 1).blockstore.get 1 = some leftBlock ∧ leftBlock.executed = true) ∧
      ((world.replicas 2).blockstore.get 1 = some rightBlock ∧ rightBlock.executed = true) ∧
      leftBlock.transactions ≠ rightBlock.transactions := by
  obtain ⟨world, run, leftBlock, isLeft, leftDone, rightBlock, isRight, rightDone, differ⟩ :
      ∃ world, Run trio (World.Authentic trio) world ∧
        ∃ left, (world.replicas 1).blockstore.get 1 = some left ∧ left.executed = true ∧
        ∃ right, (world.replicas 2).blockstore.get 1 = some right ∧ right.executed = true ∧
          left.transactions ≠ right.transactions :=
    (Player.mk trio env).play_run (fun _ _ => of_decide_eq_true) trio_initial split
      (by decide +kernel)
  exact ⟨collisionFree, world, leftBlock, rightBlock, run, by decide, by decide, by decide,
    ⟨isLeft, leftDone⟩, ⟨isRight, rightDone⟩, differ⟩

end Abcperf.Damysus
