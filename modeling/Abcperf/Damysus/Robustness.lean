import Abcperf.Damysus.Dispatch
import Abcperf.Damysus.Execution
import Abcperf.Damysus.Harmless

/-! No peer message makes a replica stop in runs whose messages are harmless. A vote that a host has
altered in a field that is not signed makes it panic. -/

namespace Abcperf.Damysus

open Lib.Outcome Replica Option

variable {P : Platform}

/-- There are peers, blocks have a minimum size, and the timeout is a `Duration`. -/
structure Setup.Sensible (setup : Setup P) : Prop where
  peers : 2 ≤ setup.n
  sized : ∀ id ∈ setup.correct, 0 < (setup.config id).minimumBlockSize
  timed : ∀ id ∈ setup.correct, (setup.config id).initialViewTimeout ≤ durationMax

namespace World

/-- The message names another replica as its sender, the receiver is initialised, and the message
does not harm it. -/
structure HarmlessTo (setup : Setup P) (world : World P) (receiver : Nat)
    (message : PeerMessage P) : Prop where
  inRange : message.sender < setup.n
  other : message.sender ≠ receiver
  registered : (world.replicas receiver).enclave.automata.Registered
  bounded : message.message.Bounded
  harmless : (world.replicas receiver).Harmless message

def Harmless (setup : Setup P) (world : World P) : Event P → Prop
  | .deliver _ receiver _ message => world.HarmlessTo setup receiver message
  | .request id _ _ | .blockTimeout id _ | .viewTimeout id _ =>
    (world.replicas id).enclave.automata.Registered
  | .init _ _ | .addPeer _ _ _ | .call _ _ => True

def Rests (lax : Prop) (setup : Setup P) (world : World P) : Prop :=
  ∀ id ∈ setup.correct, (world.replicas id).Resting lax ∧ (world.replicas id).me = id

variable {setup : Setup P} {world : World P} {lax : Prop}

theorem Rests.sane (rests : world.Rests lax setup) {id : Nat} (correct : id ∈ setup.correct)
    (registered : (world.replicas id).enclave.automata.Registered) :
    (world.replicas id).Sane lax 1 :=
  { (rests id correct).1 with registered }

theorem step_rests [P.Dependable] {next : World P} {event : Event P} (rests : world.Rests lax setup)
    (harmless : world.Harmless setup event) (step : Step setup world event next) :
    next.Rests lax setup := by
  intro id correct
  refine Step.holds (p := fun replica _ => replica.Resting lax ∧ replica.me = id) ?_
    (rests id correct) step
  rintro replica output rfl - run
  obtain ⟨resting, me⟩ := rests _ correct
  have handled : replica.Resting lax ∧ (world.replicas event.place).Extends replica := by
    cases event with
    | init id env => exact initHandshake_rests resting run
    | deliver source receiver env message =>
      have returns : Returns (Stops True lax) _
          ((world.replicas receiver).processPeerMessage env message) :=
        processPeerMessage_returns (rests.sane correct harmless.registered) harmless.harmless
          (fun _ => harmless.bounded) (by rw [me]; exact harmless.other) fun long =>
          absurd trivial long
      exact returns.value run
    | request id env tx => exact receiveClientRequest_rests (rests.sane correct harmless) run
    | blockTimeout id env => exact handleBlockTimeout_rests (rests.sane correct harmless) run
    | viewTimeout id env => exact handleViewTimeout_rests (rests.sane correct harmless) run
    | addPeer | call => cases run
  exact ⟨handled.1, handled.2.me.trans me⟩

theorem initial_rests (peers : 2 ≤ setup.n)
    (sized : ¬ lax → ∀ id ∈ setup.correct, 0 < (setup.config id).minimumBlockSize)
    (timed : ∀ id ∈ setup.correct, (setup.config id).initialViewTimeout ≤ durationMax)
    (initial : world.Initial setup) : world.Rests lax setup := by
  intro id correct
  obtain ⟨isMe, isN⟩ := setup.named id correct
  rw [(initial.started correct).1]
  exact ⟨initial_resting (by rw [isN]; exact peers)
    (fun strict => sized strict id correct) (timed id correct), isMe⟩

theorem run_rests [P.Dependable] (sensible : setup.Sensible)
    (run : Run setup (World.Harmless setup) world) : world.Rests False setup := by
  induction run with
  | start initial =>
    exact initial_rests sensible.peers (fun _ => sensible.sized) sensible.timed initial
  | step before harmless step ih => exact step_rests ih harmless step

end World

/-- In a run in which every peer message was harmless when it arrived, a further such message is
processed, with the messages that the receiver thereby sends to itself, and the call returns, unless
the receiver gets to the last 64-bit view. -/
theorem harmless_messages_return (dependable : P.Dependable) {setup : Setup P} {world : World P}
    (sensible : setup.Sensible) (run : Run setup (World.Harmless setup) world) {receiver : Nat}
    (correct : receiver ∈ setup.correct) {message : PeerMessage P}
    (harmless : world.HarmlessTo setup receiver message) (early : (world.replicas receiver).Early)
    (source : Nat) :
    ∃ bound, ∀ env : Env P, bound ≤ env.fuel → ∃ replica output,
      handlePeerMessage env (world.replicas receiver) source message = .ok (replica, output) := by
  have rests := World.run_rests sensible run
  obtain ⟨resting, me⟩ := rests receiver correct
  refine ⟨(world.replicas receiver).view + (world.replicas receiver).weight + 4,
    fun env enough => ?_⟩
  have returns : Returns (Stops False False) _
      ((world.replicas receiver).processPeerMessage env message) :=
    processPeerMessage_returns (rests.sane correct harmless.registered)
      harmless.harmless (fun _ => harmless.bounded) (by rw [me]; exact harmless.other) fun _ => by
        rw [Env.budget, Nat.lt_min]
        unfold Early at early
        omega
  obtain ⟨⟨replica, output⟩, returned, -⟩ := returns.result not_stops
  exact ⟨replica, output, returned⟩

instance (message : Message P) : Decidable message.Bounded :=
  match message with
  | .commitment vote => inferInstanceAs (Decidable (vote.getView ≠ View.last))
  | .newBlock block _ => inferInstanceAs (Decidable (∀ accumulator ∈
      block.justification.getCommitment, accumulator.getView ≠ View.last))
  | .handshake _ | .blockRequest _ | .requestedBlock _ => inferInstanceAs (Decidable True)

namespace Replica

instance (replica : Replica P) (signed : SignedCommitment P) :
    Decidable (replica.enclave.automata.Accepts signed) :=
  inferInstanceAs (Decidable (_ = Except.ok true))

instance (replica : Replica P) (vote : SignedCommitment P) :
    Decidable (replica.Undisputed vote) :=
  inferInstanceAs (Decidable (_ → _ → ∀ other ∈ replica.votes, _))

instance (replica : Replica P) (block : Block P) : Decidable (replica.Undivided block) :=
  inferInstanceAs (Decidable (∀ vote ∈ replica.commitments, _))

instance (replica : Replica P) (signed : SignedCommitment P) :
    Decidable (replica.Checkable signed) :=
  inferInstanceAs (Decidable (_ = true))

instance (replica : Replica P) (peerMessage : PeerMessage P) :
    Decidable (replica.Harmless peerMessage) :=
  match peerMessage with
  | ⟨sender, .handshake key⟩ =>
    inferInstanceAs (Decidable (replica.welcomes sender key = true))
  | ⟨_, .blockRequest _⟩ => inferInstanceAs (Decidable True)
  | ⟨_, .commitment vote⟩ =>
    inferInstanceAs (Decidable (replica.Checkable vote ∧
      (replica.enclave.automata.Accepts vote → vote.isUsig = true →
        vote.getPreparedBlockView ≤ vote.getView ∧
        (vote.isPrepare = true → vote.getBlockView = vote.getView) ∧ replica.Undisputed vote)))
  | ⟨_, .newBlock block prepare⟩ =>
    inferInstanceAs (Decidable ((block.view < replica.view →
        ∀ existing ∈ replica.blockstore.get block.view, existing.hashValue = block.hashValue) ∧
      ∀ accumulator ∈ block.justification.getCommitment,
        replica.Checkable accumulator ∧ replica.Checkable prepare ∧
        (replica.enclave.automata.Accepts accumulator →
          accumulator.getBlockView < block.view ∧ replica.Undivided block)))
  | ⟨_, .requestedBlock block⟩ =>
    inferInstanceAs (Decidable (replica.requestedBlocks block.view = some block.hashValue →
      ∃ accumulator ∈ block.justification.getCommitment,
        accumulator.getBlockView < block.view ∧ replica.Undivided block))

end Replica

namespace Symbolic

theorem dependable : platform.Dependable where
  signs := fun trusted _ hash => ⟨⟨trusted.me, hash⟩, rfl⟩
  trusts := by
    intro trusted creator hash signature accepted
    simpa [platform] using accepted
  remembers := by
    intro trusted next id key creator hash signature added accepted
    simp only [platform] at added accepted ⊢
    split at added
    · cases added
    split at added
    · cases added
    cases added
    simp only [Trusted.accepts, Except.ok.injEq, Bool.and_eq_true, IdSet.contains_iff,
      IdSet.mem_insert] at accepted ⊢
    exact ⟨.inr accepted.1, accepted.2⟩
  signer := by
    intro trusted next id key added
    simp only [platform] at added
    split at added
    · cases added
    split at added
    · cases added
    · cases added
      rfl

def registers (automata : EnclaveAutomata platform) : Bool :=
  let trusted : Trusted := automata.trusted
  trusted.peers.contains automata.me && trusted.me = automata.me

theorem registers_sound {automata : EnclaveAutomata platform} (known : registers automata = true) :
    automata.Registered := by
  intro count hash signature made
  simp only [registers, Bool.and_eq_true, decide_eq_true_eq] at known
  cases made
  simp only [platform, Trusted.accepts, known, Bool.true_and, decide_true]

/-- A replica whose blocks have at least one request, unless it waits for too long. -/
def sizedConfig (n id : Nat) : Config platform := { config n id with minimumBlockSize := 1 }

def sizedStart (n : Nat) : World platform :=
  { start n with replicas := fun id => .initial (sizedConfig n id) }

def sizedPair : Setup platform := { pair with
  config := sizedConfig 2
  named := fun _ _ => ⟨rfl, rfl⟩ }

theorem sizedPair_sensible : sizedPair.Sensible :=
  ⟨Nat.le_refl 2, fun _ _ => Nat.one_pos, fun _ _ => by change 1 ≤ durationMax; decide⟩

theorem sizedPair_initial : (sizedStart 2).Initial sizedPair :=
  ⟨fun _ _ => ⟨rfl, rfl⟩, fun _ => rfl⟩

def isHarmless (setup : Setup platform) (world : World platform) : Event platform → Bool
  | .deliver _ receiver _ message => message.sender < setup.n ∧ message.sender ≠ receiver ∧
      registers (world.replicas receiver).enclave.automata = true ∧ message.message.Bounded ∧
      (world.replicas receiver).Harmless message
  | .request id _ _ | .blockTimeout id _ | .viewTimeout id _ =>
    registers (world.replicas id).enclave.automata
  | .init _ _ | .addPeer _ _ _ | .call _ _ => true

theorem isHarmless_sound {setup : Setup platform} (world : World platform) (event : Event platform)
    (harmless : isHarmless setup world event = true) :
    world.Harmless setup event := by
  cases event with
  | deliver source receiver env message =>
    obtain ⟨inRange, other, registered, bounded, harmless⟩ := of_decide_eq_true harmless
    exact ⟨inRange, other, registers_sound registered, bounded, harmless⟩
  | request | blockTimeout | viewTimeout => exact registers_sound harmless
  | init | addPeer | call => trivial

/-- Replicas 0 and 1 of three are correct; replica 0 leads the first views. -/
def duo : Setup platform where
  n := 3
  correct := Finset.range 2
  config := sizedConfig 3
  trusted id := (⟨id, IdSet.empty⟩ : Trusted)
  inRange := fun _ correct => Nat.lt_succ_of_lt (Finset.mem_range.mp correct)
  named := fun _ _ => ⟨rfl, rfl⟩

theorem duo_sensible : duo.Sensible :=
  ⟨by decide, fun _ _ => Nat.one_pos, fun _ _ => by change 1 ≤ durationMax; decide⟩

theorem duo_initial : (sizedStart 3).Initial duo :=
  ⟨fun _ _ => ⟨rfl, rfl⟩, fun _ => rfl⟩

/-- All three replicas have joined at replica 0, and the enclave of host 2 has given its first vote,
for the genesis block. -/
def voting : List (Move platform) :=
  [.init 0, .init 1, .relay 1 0 0, .inject 2 0 ⟨2, .handshake (2 : Nat)⟩,
    .call 2 .reSignLastPrepared]

/-- The vote with the view of the block changed from 0 to 5, which is not signed. -/
def shiftedVote : SignedCommitment platform := signedCommitment 2 0 5 Hash.genesis .prepare .usig

end Symbolic

open Symbolic

/-- A replica creates a block, and the other one can process it. -/
theorem harmless_messages_return_block : ∃ world message,
    Run sizedPair (World.Harmless sizedPair) world ∧
      message ∈ (world.history 0).broadcasts ∧ ∃ bound, ∀ env, bound ≤ env.fuel → ∃ replica output,
        handlePeerMessage env (world.replicas 1) 0 message = .ok (replica, output) := by
  obtain ⟨world, run, message, sent, harmless, early⟩ : ∃ world,
      Run sizedPair (World.Harmless sizedPair) world ∧
      ∃ message ∈ (world.history 0).broadcasts[1]?,
        isHarmless sizedPair world (.deliver 0 1 env message) = true ∧
        (world.replicas 1).Early :=
    (Player.mk sizedPair env).play_run isHarmless_sound sizedPair_initial (steady.take 6)
      (by decide +kernel)
  have correct : 1 ∈ sizedPair.correct := by decide
  exact ⟨world, message, run, List.mem_of_getElem? sent,
    harmless_messages_return dependable sizedPair_sensible run correct
      (isHarmless_sound world _ harmless) early 0⟩

/-- A vote that its enclave has signed, with an unsigned field altered, makes the leader that it is
sent to panic in `create_block`. -/
theorem shifted_vote_panics : platform.Dependable ∧ duo.Sensible ∧
    ∃ world record, Run duo (fun _ _ => True) world ∧ 0 ∈ duo.correct ∧
      record ∈ (world.enclaves 2).log ∧ record.result.hashValue = shiftedVote.hashValue ∧
      record.result.signature = shiftedVote.signature ∧
      (Event.deliver 2 0 env ⟨2, .commitment shiftedVote⟩).Possible duo world ∧
      handlePeerMessage env (world.replicas 0) 2 ⟨2, .commitment shiftedVote⟩ =
        .error .unwrap := by
  obtain ⟨world, run, panics, record, member, sameHash, sameSignature⟩ : ∃ world,
      Run duo (fun _ _ => True) world ∧
      handlePeerMessage env (world.replicas 0) 2 ⟨2, .commitment shiftedVote⟩ = .error .unwrap ∧
      ∃ record ∈ (world.enclaves 2).log, record.result.hashValue = shiftedVote.hashValue ∧
        record.result.signature = shiftedVote.signature :=
    (Player.mk duo env).play_run (fun _ _ (_ : true = true) => trivial) duo_initial voting
      (by decide +kernel)
  exact ⟨dependable, duo_sensible, world, record, run, by decide, member, sameHash,
    sameSignature, ⟨by decide, ⟨2, .commitment shiftedVote⟩, rfl,
      fun correct => absurd correct (by decide)⟩, panics⟩

end Abcperf.Damysus
