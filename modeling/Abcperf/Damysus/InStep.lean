import Abcperf.Damysus.Honest

/-! Host and enclave stay in step when all replicas are honest. A single replica never leaves view
0. `full_block_or_at_least` asserts that the minimum block size is not 0, so a replica with the size
0 may stop there, where one with the size 1 does not. -/

namespace Abcperf.Damysus

open Lib Lib.Outcome Symbolic

variable {P : Platform}

namespace Replica

/-- The replica between two calls: the enclave is in its view and nothing old is stored. -/
structure InStep (replica : Replica P) : Prop where
  view : replica.enclave.automata.view = replica.view
  collected : ∀ vote ∈ replica.commitments, vote.isUsig = true ∧ vote.getView + 1 = replica.view
  distinct : (replica.commitments.map SignedCommitment.getCreator).Nodup
  stored : ∀ block ∈ replica.storedBlocks, replica.view < block.view
  apart : ∀ block ∈ replica.storedBlocks, replica.requestedBlocks block.view = none
  patient : replica.initialViewTimeout ≤ replica.viewTimeout

def sized (replica : Replica P) : Replica P :=
  { replica with minimumBlockSize := max 1 replica.minimumBlockSize }

def KeepsBlocks (before after : Replica P) : Prop :=
  ∀ slot block, before.blockstore.get slot = some block →
    ∃ later, after.blockstore.get slot = some later ∧ later.hashValue = block.hashValue

variable {replica : Replica P}

theorem KeepsBlocks.of_eq {next : Replica P} (same : next.blockstore = replica.blockstore) :
    replica.KeepsBlocks next := by
  intro slot block found
  exact ⟨block, same ▸ found, rfl⟩

theorem Resting.inStep {lax : Prop} (resting : replica.Resting lax) : replica.InStep where
  view := resting.synced
  collected := fun vote member =>
    ⟨(resting.collected vote member).1.usig, (resting.collected vote member).2⟩
  distinct := resting.distinct
  stored := fun block member => (resting.stored block member).1
  apart := by
    intro block member
    cases requested : replica.requestedBlocks block.view with
    | none => rfl
    | some hash =>
      have below := (resting.requested _ hash requested).1
      have above := (resting.stored block member).1
      omega
  patient := resting.patient

end Replica

/-- How a call of an honest replica ends. `Blockstore::insert` asserts that the view has no block,
and the host expects the enclave to accumulate, to prepare and to sign, so a call that returns has
made no such call in vain. -/
inductive Event.Ends (event : Event P) (replica : Replica P) : Prop
  | returns {next : Replica P} {output : Output P} (run : event.handle replica = .ok (next, output))
      (inStep : next.InStep) (kept : replica.KeepsBlocks next)
  | unknownKey {panic : Panic} (stops : event.lookups replica = .error panic)
      (failed : event.handle replica = .error panic)
  | unsized {next : Replica P} {output : Output P} (zero : replica.minimumBlockSize = 0)
      (failed : event.handle replica = .error .assertion)
      (run : event.handle replica.sized = .ok (next, output))

/-- As long as no honest replica gets to the last view, none sends a commitment of it. -/
theorem World.Composed.bounded {setup : Setup P} {world : World P} (composed : world.Composed setup)
    (all : setup.correct = Finset.range setup.n) {event : Event P}
    (correct : event.place ∈ setup.correct) (possible : event.Possible setup world)
    (scheduled : world.Scheduled setup event)
    (early : ∀ id ∈ setup.correct, (world.replicas id).Early) : event.Bounded := by
  have low : ∀ id ∈ setup.correct, (world.replicas id).view ≤ View.last := by
    intro id isCorrect
    have := early id isCorrect
    unfold Replica.Early at this
    omega
  cases event with
  | deliver source receiver env message =>
    obtain ⟨-, honest⟩ := composed.honest all correct scheduled.1 possible
    obtain ⟨sender, content⟩ := message
    cases content with
    | commitment vote =>
      obtain ⟨record, ⟨isCorrect, logged⟩, rfl⟩ := honest
      have sourced := composed.agreeing.sourced _ isCorrect
      have below := sourced.traced.below record logged
      have inStep := sourced.inStep
      have := low _ isCorrect
      change record.result.getView ≠ View.last
      omega
    | newBlock block prepare =>
      obtain ⟨id, isCorrect, created⟩ := honest
      intro accumulator member
      obtain ⟨other, -, isQuorum, -, usable⟩ := ((composed.agreeing.valid isCorrect).proposed id
        block.notExecuted ⟨isCorrect, created⟩).justified
      have isOther : block.justification = .quorum other := isQuorum
      rw [isOther] at member
      cases member
      have below := (composed.agreeing.sourced id isCorrect).below created
      have := low id isCorrect
      omega
    | handshake | blockRequest | requestedBlock => trivial
  | init | request | blockTimeout | viewTimeout | addPeer | call => trivial

theorem World.Composed.ends {setup : Setup P} {world : World P} (composed : world.Composed setup)
    [P.Dependable] [CollisionFree P] (all : setup.correct = Finset.range setup.n) {event : Event P}
    (correct : event.place ∈ setup.correct) (possible : event.Possible setup world)
    (scheduled : world.Scheduled setup event)
    (early : ∀ id ∈ setup.correct, (world.replicas id).Early)
    (enough : (world.replicas event.place).view + (world.replicas event.place).weight + 4 ≤
      event.fuel) : event.Ends (world.replicas event.place) := by
  have resting := (composed.rests _ correct).1
  have bounded := composed.bounded all correct possible scheduled early
  by_cases legible : event.Legible (world.replicas event.place)
  · have returns {lax : Prop} (size : Nat) (sized : ¬ lax → 0 < size) :
        Returns (Stops False lax) _ _ := composed.returns all correct possible
      scheduled legible (fun _ => ⟨bounded, early _ correct, enough⟩) size sized
    have ends := returns (world.replicas event.place).minimumBlockSize Nat.pos_of_ne_zero
    cases run : event.handle (world.replicas event.place) with
    | ok result =>
      obtain ⟨restingNext, grown⟩ := ends.value run
      exact .returns run restingNext.inStep grown.slots
    | error panic =>
      have stops := ends.stopped run
      obtain ⟨⟨next, output⟩, sizedRun, -⟩ := (returns (max 1
        (world.replicas event.place).minimumBlockSize) fun _ => by omega).result not_stops
      cases panic with
      | assertion => exact .unsized stops run sizedRun
      | _ => exact stops.elim
  rcases Event.handle_illegible resting.quiet legible
    (composed.consistent all correct possible scheduled) with
    ignored | ⟨panic, stops, failed⟩ | ⟨none, _⟩
  · exact .returns ignored resting.taken.1.inStep (.of_eq rfl)
  · exact .unknownKey (stops bounded) failed
  · omega

structure Replica.Solo (replica : Replica P) : Prop where
  view : replica.view = 0
  enclave : replica.enclave.automata.view = 0
  commitments : replica.commitments = []
  stored : replica.storedBlocks = []
  idle : replica.callTryCreateBlock = false
  patient : replica.viewTimeout = replica.initialViewTimeout
  quiet : replica.output.reflectionMessages = []

namespace Replica

variable {replica : Replica P}

theorem Solo.inStep (solo : replica.Solo) : replica.InStep where
  view := solo.enclave.trans solo.view.symm
  collected := by simp [solo.commitments]
  distinct := by simp [solo.commitments]
  stored := by simp [solo.stored]
  apart := by simp [solo.stored]
  patient := solo.patient.ge

theorem Solo.reflect (solo : replica.Solo) (env : Env P) :
    replica.reflect env = .ok ({ replica with output := .new replica.me }, replica.taken) := by
  have quiet : (machine env).Quiet replica := solo.quiet
  exact Reflector.reflect_quiet quiet env.fuel

theorem Solo.taken (solo : replica.Solo) :
    ({ replica with output := .new replica.me } : Replica P).Solo := { solo with quiet := rfl }

end Replica

theorem Replica.Solo.handle {replica : Replica P} (solo : replica.Solo) {event : Event P}
    (undelivered : ∀ source receiver env message, event ≠ .deliver source receiver env message)
    (untimed : ∀ id env, event ≠ .viewTimeout id env) :
    (∃ next output, event.handle replica = .ok (next, output) ∧ next.Solo ∧
      replica.KeepsBlocks next) ∨
    ∃ panic, event.lookups replica = .error panic ∧ event.handle replica = .error panic := by
  have kept : ∀ {next : Replica P}, next.blockstore = replica.blockstore →
    replica.KeepsBlocks next := .of_eq
  cases event with
  | init id env =>
    by_cases legible : (Event.init id env).Legible replica
    · left
      obtain ⟨key, enclave, isKey, added⟩ := legible
      have sameView : enclave.automata.view = replica.enclave.automata.view := by
        obtain ⟨trusted, rfl⟩ := Enclave.addPeer_ok added
        rfl
      exact ⟨_, _, Replica.initHandshake_runs solo.quiet isKey added env,
        { solo with enclave := sameView.trans solo.enclave, quiet := rfl }, kept rfl⟩
    · exact .inr (Replica.initHandshake_illegible legible)
  | deliver source receiver env message =>
    exact absurd rfl (undelivered source receiver env message)
  | request id env tx =>
    have queued : ({ replica with
        pendingClientRequests := replica.pendingClientRequests.insert tx } : Replica P).Solo :=
      { solo with }
    have waits : replica.receiveClientRequest env tx = ({ replica with
        pendingClientRequests := replica.pendingClientRequests.insert tx } :
        Replica P).reflect env := by
      simp [Replica.receiveClientRequest, solo.idle]
    exact .inl ⟨_, _, waits.trans (queued.reflect env), queued.taken, kept rfl⟩
  | blockTimeout id env =>
    have waits : replica.handleBlockTimeout env = replica.reflect env := by
      simp [Replica.handleBlockTimeout, solo.idle]
    exact .inl ⟨_, _, waits.trans (solo.reflect env), solo.taken, kept rfl⟩
  | viewTimeout id env => exact absurd rfl (untimed id env)
  | addPeer id peer key => exact .inr ⟨.unreachable, rfl, rfl⟩
  | call id request => exact .inr ⟨.unreachable, rfl, rfl⟩

namespace World

variable {setup : Setup P} {world : World P}

theorem solo_event (single : setup.n < 2) {event : Event P} (correct : event.place ∈ setup.correct)
    (possible : event.Possible setup world) (scheduled : world.Scheduled setup event)
    (solo : (world.replicas event.place).Solo) :
    (∀ source receiver env message, event ≠ .deliver source receiver env message) ∧
      ∀ id env, event ≠ .viewTimeout id env := by
  have inRange := setup.inRange _ correct
  constructor
  · rintro source receiver env message rfl
    have other : source ≠ receiver := possible.1
    have sourceInRange : source < setup.n := scheduled.1
    have receiverInRange : receiver < setup.n := inRange
    omega
  rintro id env rfl
  have started : 0 < (world.replicas id).view := scheduled.2
  rw [show (world.replicas id).view = 0 from solo.view] at started
  exact lt_irrefl 0 started

theorem run_solo (single : setup.n < 2) (run : Run setup (World.Scheduled setup) world) :
    ∀ id ∈ setup.correct, (world.replicas id).Solo := by
  induction run with
  | start initial =>
    intro id correct
    rw [(initial.started correct).1]
    exact ⟨rfl, rfl, rfl, rfl, rfl, rfl, rfl⟩
  | @step world next event before scheduled step ih =>
    intro id correct
    refine Step.holds (p := fun replica _ => replica.Solo) ?_ (ih id correct) step
    rintro after output rfl possible run
    have solo := ih _ correct
    obtain ⟨undelivered, untimed⟩ := solo_event single correct possible scheduled solo
    rcases solo.handle undelivered untimed with ⟨next, _, ran, soloNext, _⟩ | ⟨_, _, failed⟩
    · rw [run] at ran
      obtain ⟨rfl, rfl⟩ := Prod.mk.inj (Except.ok.inj ran)
      exact soloNext
    · rw [run] at failed
      cases failed

end World

/-- In every run of honest replicas every replica is in step with its enclave, and the next call,
with whatever delays, reordering, duplication, loss and timeouts, leaves it so and fails in no call
of the enclave or the block store, as long as the views are 64-bit. -/
theorem host_and_enclave_in_step (dependable : P.Dependable) (registers : P.Registers)
    (hashes : CollisionFree P) {setup : Setup P}
    (timed : ∀ id ∈ setup.correct, (setup.config id).initialViewTimeout ≤ durationMax)
    (all : setup.correct = Finset.range setup.n) {world : World P}
    (run : Run setup (World.Scheduled setup) world) :
    ∀ id ∈ setup.correct, (world.replicas id).InStep ∧
      ∃ bound, ∀ event : Event P, event.place = id → event.Possible setup world →
        world.Scheduled setup event → (∀ other ∈ setup.correct, (world.replicas other).Early) →
        bound ≤ event.fuel → event.Ends (world.replicas id) := by
  intro id correct
  rcases Nat.lt_or_ge setup.n 2 with single | several
  · have solo := World.run_solo single run id correct
    refine ⟨solo.inStep, 0, ?_⟩
    rintro event rfl possible scheduled - -
    obtain ⟨undelivered, untimed⟩ := World.solo_event single correct possible scheduled solo
    rcases solo.handle undelivered untimed with
      ⟨next, output, ran, soloNext, kept⟩ | ⟨panic, stops, failed⟩
    · exact .returns ran soloNext.inStep kept
    · exact .unknownKey stops failed
  have composed := World.run_composed registers several timed all run
  refine ⟨(composed.rests id correct).1.inStep,
    (world.replicas id).view + (world.replicas id).weight + 4, ?_⟩
  rintro event rfl possible scheduled early enough
  exact composed.ends all correct possible scheduled early enough

namespace Symbolic

theorem registering : platform.Registers := by
  intro trusted next id key isKey added count hash signature signed
  simp only [platform] at isKey added signed ⊢
  split at added
  · cases added
  rename_i same
  split at added
  · cases added
  cases added
  cases isKey
  cases signed
  have isMe : id = trusted.me := not_not.mp same
  simp [Trusted.accepts, isMe, IdSet.contains_iff, IdSet.mem_insert]

def hasStarted (world : World platform) (id : Nat) : Bool :=
  (world.history id).broadcasts.any fun sent =>
    match sent with
    | ⟨sender, .handshake _⟩ => sender = id
    | _ => false

theorem hasStarted_iff (world : World platform) (id : Nat) :
    hasStarted world id = true ↔ world.Started id := by
  simp only [hasStarted, World.Started, List.any_eq_true]
  constructor
  · rintro ⟨⟨sender, message⟩, member, isHandshake⟩
    cases message with
    | handshake key => exact ⟨key, of_decide_eq_true isHandshake ▸ member⟩
    | _ => cases isHandshake
  · rintro ⟨key, member⟩
    exact ⟨_, member, decide_eq_true rfl⟩

instance (world : World platform) : DecidablePred world.Started :=
  fun id => decidable_of_iff _ (hasStarted_iff world id)

instance (setup : Setup platform) (world : World platform) : DecidablePred (world.Scheduled setup)
  | .init id _ => inferInstanceAs (Decidable (¬ world.Started id))
  | .deliver source receiver _ _ =>
    inferInstanceAs (Decidable (source < setup.n ∧ world.Started receiver))
  | .request id _ _ | .blockTimeout id _ => inferInstanceAs (Decidable (world.Started id))
  | .viewTimeout id _ =>
    inferInstanceAs (Decidable (world.Started id ∧ 0 < (world.replicas id).view))
  | .addPeer _ _ _ | .call _ _ => inferInstanceAs (Decidable True)

end Symbolic

/-- Two replicas that have created three blocks, and whatever comes next. -/
theorem host_and_enclave_in_step_blocks : ∃ world,
    Run Symbolic.pair (World.Scheduled Symbolic.pair) world ∧ (world.replicas 0).view = 4 ∧
      (world.replicas 0).InStep ∧ ∃ bound, ∀ event : Event Symbolic.platform, event.place = 0 →
        event.Possible Symbolic.pair world → world.Scheduled Symbolic.pair event →
        bound ≤ event.fuel → event.Ends (world.replicas 0) := by
  obtain ⟨world, run, inView, early⟩ : ∃ world, Run pair (World.Scheduled pair) world ∧
      (world.replicas 0).view = 4 ∧ ∀ id ∈ pair.correct, (world.replicas id).Early :=
    (Player.mk pair env).play_run (fun _ _ => of_decide_eq_true) pair_initial steady
      (by decide +kernel)
  obtain ⟨inStep, bound, ends⟩ := host_and_enclave_in_step dependable registering
    collisionFree (fun _ _ => by change 1 ≤ durationMax; decide) rfl run 0 (by decide)
  exact ⟨world, run, inView, inStep, bound, fun event place possible scheduled =>
    ends event place possible scheduled early⟩

end Abcperf.Damysus
