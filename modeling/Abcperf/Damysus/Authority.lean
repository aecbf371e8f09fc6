import Abcperf.Damysus.Transactions

/-! Who has made the blocks of a replica. A replica asks neither whether the leader of a view has
created a block of that view nor whose enclave has accumulated the votes below it, and of a block
that it has requested it checks nothing but the hash. What it creates itself is in order. -/

namespace Abcperf.Damysus

open Lib Lib.Outcome Heaps Symbolic Option

variable {P : Platform}

def EnclaveCall.Prepares (call : EnclaveCall P) (block : Block P) : Prop :=
  ∃ named, call = .prepare block.view block.hashValue block.justification block.parent named

namespace Replica

def Files (replica : Replica P) (block : Block P) : Prop :=
  ∃ slot stored, replica.blockstore.get slot = some stored ∧
    stored.notExecuted = block.notExecuted

/-- `inHand` is prepared and about to be stored. -/
structure Filed (inHand : Option (Block P)) (replica : Replica P) : Prop where
  executed : ∀ block ∈ replica.executedBlocks, replica.Files block
  prepared : ∀ record ∈ replica.enclave.log, ∀ view hash justification parent named,
    record.call = .prepare view hash justification parent named →
    ∃ block, record.call.Prepares block ∧ (replica.Files block ∨ inHand = some block)

namespace Filed

variable {inHand : Option (Block P)} {replica next : Replica P} {block : Block P} {env : Env P}

/-- The enclave signs something; if it prepares a block, then the one in hand. -/
theorem called {request : EnclaveCall P} {enclave : Enclave P} {signed : SignedCommitment P}
    (filed : Filed none replica) (call : replica.enclave.call request = .ok (enclave, .ok signed))
    (prepares : ∀ view hash justification parent named,
      request = .prepare view hash justification parent named →
        ∃ block, request.Prepares block ∧ inHand = some block) :
    Filed inHand { replica with enclave } := by
  obtain ⟨log, -⟩ := Enclave.call_ok call
  refine { filed with
    prepared := fun record logged view hash justification parent named isCall => ?_ }
  have earlierOrNew : record ∈ replica.enclave.log ∨ record = ⟨request, signed⟩ := by
    simpa [log] using logged
  rcases earlierOrNew with earlier | rfl
  · obtain ⟨block, isPrepared, files | none⟩ :=
      filed.prepared record earlier view hash justification parent named isCall
    · exact ⟨block, isPrepared, .inl files⟩
    · cases none
  · obtain ⟨block, isPrepared, isHand⟩ := prepares view hash justification parent named isCall
    exact ⟨block, isPrepared, .inr isHand⟩

theorem insertBlock (filed : Filed inHand replica)
    (isHand : ∀ other, inHand = some other → other = block.notExecuted)
    (run : replica.insertBlock block.notExecuted = .ok next) :
    Filed none next := by
  obtain ⟨blockstore, inserted, rfl⟩ := insertBlock_ok run
  obtain ⟨free, slots⟩ := Blockstore.insert_ok inserted
  have kept (other : Block P) (files : replica.Files other) :
      Files { replica with blockstore } other := by
    obtain ⟨slot, stored, found, same⟩ := files
    refine ⟨slot, stored, ?_, same⟩
    rw [slots, if_neg (by rintro rfl; exact absurd (free.symm.trans found) nofun)]
    exact found
  refine ⟨fun other member => kept other (filed.executed other member),
    fun record logged view hash justification parent named isCall => ?_⟩
  obtain ⟨other, prepares, files | hand⟩ :=
    filed.prepared record logged view hash justification parent named isCall
  · exact ⟨other, prepares, .inl (kept other files)⟩
  refine ⟨other, prepares, .inl ⟨block.view, block.notExecuted, ?_, ?_⟩⟩
  · exact (slots _).trans (if_pos rfl)
  · rw [isHand other hand]

theorem execute (filed : Filed inHand replica) (executed : replica.Executed next) :
    Filed inHand next := by
  have alike := executed.alike
  have kept (other : Block P) (files : replica.Files other) : next.Files other := by
    obtain ⟨slot, stored, found, same⟩ := files
    obtain ⟨later, foundLater, sameLater⟩ := alike.symm.some found
    exact ⟨slot, later, foundLater, sameLater.trans same⟩
  cases executed with
  | intro alike stored executedTransactions =>
    refine ⟨fun other member => ?_,
      fun record logged view hash justification parent named isCall => ?_⟩
    · rcases stored other member with earlier | files
      · exact kept other (filed.executed other earlier)
      · exact kept other files
    obtain ⟨other, prepares, files⟩ :=
      filed.prepared record logged view hash justification parent named isCall
    exact ⟨other, prepares, files.imp_left (kept other)⟩

theorem handlers (env : Env P) : HandlerRule env (Filed none) (fun replica _ => Filed none replica)
      (fun replica block => Filed (some block.notExecuted) replica) (Filed none) (fun _ _ => True)
      (fun _ _ => True) (fun _ => True) where
  steps := {
    request := by
      intro replica block view hash filed
      unfold requestBlock
      split
      · exact filed
      · exact { filed with }
    late := fun filed _ _ run => filed.insertBlock nofun run
    vote := by
      intro replica next block accumulator prepare filed _ _ run
      obtain ⟨enclave, rfl, call⟩ := prepareBlock_ok run
      have voted : Filed (some block.notExecuted) { replica with enclave } :=
        filed.called call fun _ _ _ _ _ _ => ⟨block.notExecuted, ⟨_, rfl⟩, rfl⟩
      exact { voted with }
    execute := fun filed _ run => filed.execute (executeChain_executed run)
    store := fun filed run => filed.insertBlock (fun _ same => (some.inj same).symm) run
    enter := by
      intro replica next timeout filed run
      obtain ⟨viewTimeout, lastRoundFinishedAt, rfl⟩ := enterNextView_ok run
      exact { filed with }
    popBlock := fun filed _ _ => { filed with }
    popCommitment := fun filed _ => ⟨{ filed with }, trivial⟩
    collect := fun filed _ _ _ _ => { filed with }
    await := fun filed _ => { filed with }
    propose := by
      intro replica next accumulator block filed accumulates builds
      obtain ⟨enclave, rfl, call⟩ := accumulate_ok accumulates
      have signed : Filed none { replica with enclave } := filed.called call nofun
      exact { signed with }
    announce := fun filed _ _ => { filed with }
    reSign := by
      intro replica enclave newView filed _ call
      have signed : Filed none { replica with enclave } := filed.called call nofun
      exact { signed with } }
  keepCommitment := fun filed _ => { filed with }
  meet := by
    intro replica sender key enclave filed added
    obtain ⟨trusted, rfl⟩ := Enclave.addPeer_ok added
    exact ⟨{ filed with }, fun _ => trivial⟩
  ready := fun filed => { filed with }
  queue := fun filed => { filed with }
  greet := fun filed => { filed with }
  fetchedLater := fun _ _ => trivial
  inHand := fun filed _ => filed
  keepBlock := fun filed _ _ _ => { filed with }
  handOn := fun filed _ => { filed with }
  book := fun filed => { filed with }

end Filed

end Replica

theorem Run.filed {setup : Setup P} {allowed : World P → Event P → Prop} {world : World P}
    (run : Run setup allowed world) {id : Nat} (correct : id ∈ setup.correct) :
    (world.replicas id).Filed none := by
  refine run.correct_holds (fun config => ⟨nofun, nofun⟩) ?_ id correct
  intro world event next output _ before handled
  exact Event.handle_holds (fun env => (Replica.Filed.handlers env).toVoteRule)
    (fun env => (Replica.Filed.handlers env).reflects (fun _ => Replica.passes_any _)
      fun filed => { filed with })
    before (fun _ _ _ _ _ => trivial) handled

/-- The leader of its view has created the block, on an accumulator that its enclave has `made`. -/
def Block.LedBy (n : Nat) (made : Nat → SignedCommitment P → Prop) (block : Block P) : Prop :=
  block.creator = View.getViewLeader block.view n ∧
    ∃ accumulator, block.justification = .quorum accumulator ∧ accumulator.isAccumulator = true ∧
      made (View.getViewLeader block.view n) accumulator

namespace World

def Returned (setup : Setup P) (world : World P) (id : Nat) (signed : SignedCommitment P) : Prop :=
  ∃ record ∈ (world.enclave setup id).log, record.result = signed

/-- The block names the leader of its view, and its accumulator is one of that leader that is as the
enclave has returned it. -/
def NamesLeader (setup : Setup P) (world : World P) (block : Block P) : Prop :=
  ∀ accumulator ∈ block.justification.getCommitment,
    block.creator = View.getViewLeader block.view setup.n ∧ accumulator.isAccumulator = true ∧
      accumulator.getCreator = View.getViewLeader block.view setup.n ∧
      world.Returned setup accumulator.getCreator accumulator

def Led (setup : Setup P) (world : World P) : Event P → Prop
  | .deliver _ receiver _ message =>
    (world.replicas receiver).Passes (fun _ => world.NamesLeader setup) (fun _ _ => True) message
  | _ => True

variable {setup : Setup P} {world : World P} {event : Event P}

instance [DecidableEq P.Signature] (block : Block P) : Decidable (world.NamesLeader setup block) :=
  inferInstanceAs (Decidable (∀ accumulator ∈ block.justification.getCommitment,
    block.creator = View.getViewLeader block.view setup.n ∧ accumulator.isAccumulator = true ∧
      accumulator.getCreator = View.getViewLeader block.view setup.n ∧
      ∃ record ∈ (world.enclave setup accumulator.getCreator).log, record.result = accumulator))

theorem led_of_handed [DecidableEq P.Signature]
    (names : (handed event).all (fun block => world.NamesLeader setup block) = true) :
    world.Led setup event := by
  cases event with
  | deliver source receiver env message =>
    obtain ⟨sender, message⟩ := message
    cases message with
    | newBlock block prepare => exact fun _ => of_decide_eq_true names
    | requestedBlock block => exact fun _ => of_decide_eq_true names
    | commitment vote => exact fun _ _ => trivial
    | _ => trivial
  | _ => trivial

def ledBase (setup : Setup P) (world : World P) (id : Nat) : Base P where
  known := Block.LedBy setup.n (world.Returned setup)
  view := (world.replicas id).view
  proposed := (world.replicas id).proposed

theorem NamesLeader.fetched {block : Block P} (names : world.NamesLeader setup block) (id : Nat)
    (replica : Replica P) : replica.Fetched (world.ledBase setup id) block := by
  cases justified : block.justification with
  | genesis => exact .inl justified
  | quorum accumulator =>
    obtain ⟨creator, accumulates, leader, returned⟩ := names accumulator (by rw [justified]; rfl)
    exact .inr (.inl ⟨creator, accumulator, justified, accumulates, leader ▸ returned⟩)

theorem Led.handle (led : world.Led setup event) {next : Replica P} {history output : Output P}
    (before : Replica.Sourced (world.ledBase setup event.place) history none 0
      (world.replicas event.place))
    (run : event.handle (world.replicas event.place) = .ok (next, output)) :
    Replica.Sourced (world.ledBase setup event.place) (history.join output) none 0 next := by
  have rule (env : Env P) := Replica.sourced_calls env (world.ledBase setup event.place)
  cases event with
  | deliver source receiver env message =>
    have passes : (world.replicas receiver).Passes (Replica.Fetched (world.ledBase setup receiver))
        (fun _ _ => True) message := by
      obtain ⟨sender, message⟩ := message
      cases message with
      | newBlock block prepare => exact fun accepted => (led accepted).fetched receiver _
      | requestedBlock block => exact fun asked => (led asked).fetched receiver _
      | commitment vote => exact fun _ _ => trivial
      | _ => trivial
    exact Reflector.process_after (rule env).reflects (fun dispatched =>
      (Replica.dispatch_keeps ((rule env).handlers history) before passes dispatched).1) run
  | viewTimeout id env =>
    refine (Event.handle_keeps rule before ?_ run).1
    exact fun _ => trivial
  | _ =>
    refine (Event.handle_keeps rule before ?_ run).1
    trivial

structure Ruled (setup : Setup P) (world : World P) (id : Nat) : Prop where
  me : (world.replicas id).me = id
  n : (world.replicas id).n = setup.n
  sourced : Replica.Sourced (world.ledBase setup id) (world.history id) none 0 (world.replicas id)

theorem step_ruled {next : World P} {id : Nat} (led : world.Led setup event)
    (ruled : world.Ruled setup id) (step : Step setup world event next) : next.Ruled setup id := by
  obtain ⟨me, n, sourced⟩ := Step.holds (p := fun replica history => replica.me = id ∧
    replica.n = setup.n ∧ Replica.Sourced (world.ledBase setup id) history none 0 replica)
    (by
      rintro after output rfl - run
      have grows := Event.handle_grows run
      exact ⟨grows.me.trans ruled.me, grows.n.trans ruled.n, led.handle ruled.sourced run⟩)
    ⟨ruled.me, ruled.n, ruled.sourced⟩ step
  refine ⟨me, n, sourced.rebase (fun block => Or.imp_left ?_) rfl rfl⟩
  rintro ⟨creator, accumulator, justified, accumulates, record, logged, isResult⟩
  exact ⟨creator, accumulator, justified, accumulates, record,
    (logs_grow step _).subset logged, isResult⟩

theorem run_ruled (run : Run setup (World.Led setup) world) {id : Nat}
    (correct : id ∈ setup.correct) : world.Ruled setup id := by
  induction run with
  | start initial =>
    obtain ⟨created, noOutput⟩ := initial.started correct
    refine ⟨created ▸ (setup.named id correct).1, created ▸ (setup.named id correct).2, ?_⟩
    rw [noOutput, created]
    refine Replica.initial_sourced _ _ ?_
    rw [ledBase, created]
    rfl
  | step _ led step ih => exact step_ruled led ih step

/-- A replica creates blocks in the views that it leads, on accumulators of its own enclave. -/
theorem Ruled.led {id : Nat} (correct : id ∈ setup.correct) (ruled : world.Ruled setup id)
    {block : Block P} (known : (world.replicas id).Known (world.ledBase setup id) block) :
    block.LedBy setup.n (world.Returned setup) := by
  rcases known with led | created
  · exact led
  have own := ruled.sourced.own _ created
  obtain ⟨record, logged, accumulates, justified⟩ := ruled.sourced.based _ created
  have leads : View.getViewLeader block.view (world.replicas id).n = (world.replicas id).me :=
    own.leads
  rw [ruled.n, ruled.me] at leads
  refine ⟨own.creator.trans (ruled.me.trans leads.symm), record.result, justified, accumulates,
    record, ?_, rfl⟩
  rw [leads, enclave_correct correct]
  exact logged

theorem Ruled.files {id : Nat} (correct : id ∈ setup.correct) (ruled : world.Ruled setup id)
    {block : Block P} (files : (world.replicas id).Files block) (above : 0 < block.view) :
    block.LedBy setup.n (world.Returned setup) := by
  obtain ⟨slot, stored, found, same⟩ := files
  obtain ⟨atView, known⟩ := ruled.sourced.slots slot stored found
  have sameView : block.notExecuted.view = stored.notExecuted.view := congrArg Block.view same.symm
  have led := ruled.led correct (known (above.trans_eq (sameView.trans atView)))
  have ofStored : stored.notExecuted.LedBy setup.n (world.Returned setup) := led
  rw [same] at ofStored
  exact ofStored

end World

namespace Symbolic

/-- Hosts 0 and 1 of five are not correct, and host 0 leads the first views. -/
def five : Setup platform where
  n := 5
  correct := {2, 3, 4}
  config := config 5
  trusted id := (⟨id, IdSet.empty⟩ : Trusted)
  inRange := by decide
  named := fun _ _ => ⟨rfl, rfl⟩

theorem five_initial : (start 5).Initial five :=
  ⟨fun _ _ => ⟨rfl, rfl⟩, fun _ => rfl⟩

def usurpedAccumulator : SignedCommitment platform :=
  signedCommitment 1 0 0 Hash.genesis .prepare .accumulator

def usurpedBlock : Block platform :=
  .new 1 1 (.quorum usurpedAccumulator) (some Hash.genesis) []

/-- The enclave of host 1 accumulates the votes that host 0 and replica 2 have for the leader of
view 1, which is host 0, and replica 2 is handed the block of host 1. -/
def usurping : List (Move platform) :=
  [.init 2, .init 3, .init 4, .relay 3 2 0, .relay 4 2 0, .inject 0 2 ⟨0, .handshake (0 : Nat)⟩,
    .inject 1 2 ⟨1, .handshake (1 : Nat)⟩, .addPeer 1 0 (0 : Nat), .addPeer 1 1 (1 : Nat),
    .addPeer 1 2 (2 : Nat), .call 0 .reSignLastPrepared, .call 1 .reSignLastPrepared,
    .call 1 (.accumulate ([0, 1, 2].map fun id =>
      signedCommitment id 0 0 Hash.genesis .prepare .usig)),
    .call 1 (.prepare 1 usurpedBlock.hashValue (.quorum usurpedAccumulator) (some Hash.genesis)
      Hash.genesis),
    .inject 1 2 ⟨1, .newBlock usurpedBlock
      (signedCommitment 1 1 1 usurpedBlock.hashValue .prepare .usig)⟩]

end Symbolic

/-- As long as the blocks that pass the checks name the leader of their view and carry one of its
accumulators, every block of a later view that a correct replica stores, keeps for later, executes
or prepares was created by the leader of its view, on an accumulator that its enclave has made. -/
theorem blocks_have_leader {setup : Setup P} {world : World P}
    (run : Run setup (World.Led setup) world) {id : Nat} (correct : id ∈ setup.correct) :
    (∀ block, (world.replicas id).Holds block ∨ block ∈ (world.replicas id).executedBlocks →
      0 < block.view → block.LedBy setup.n (world.Returned setup)) ∧
    ∀ record ∈ (world.replicas id).enclave.log, ∀ view hash justification parent named,
      record.call = .prepare view hash justification parent named → 0 < view →
      ∃ block, record.call.Prepares block ∧ block.LedBy setup.n (world.Returned setup) := by
  have ruled := World.run_ruled run correct
  have filed := run.filed correct
  refine ⟨fun block held above => ?_,
    fun record logged view hash justification parent named isCall above => ?_⟩
  · rcases held with (⟨slot, found⟩ | stored) | executed
    · exact ruled.files correct ⟨slot, block, found, rfl⟩ above
    · exact ruled.led correct (ruled.sourced.stored block stored)
    · exact ruled.files correct (filed.executed block executed) above
  obtain ⟨block, ⟨other, prepares⟩, files | none⟩ :=
    filed.prepared record logged view hash justification parent named isCall
  · obtain ⟨rfl, -⟩ := EnclaveCall.prepare.inj (isCall.symm.trans prepares)
    exact ⟨block, ⟨other, prepares⟩, ruled.files correct files above⟩
  · cases none

/-- Two correct replicas, the first of which creates a block that both store. -/
theorem blocks_have_leader_first :
    ∃ world block, Run Symbolic.pair (World.Led Symbolic.pair) world ∧
      (world.replicas 1).blockstore.get 1 = some block ∧
      block.LedBy 2 (world.Returned Symbolic.pair) := by
  obtain ⟨world, run, block, stored, inView⟩ : ∃ world, Run pair (World.Led pair) world ∧
      ∃ block, (world.replicas 1).blockstore.get 1 = some block ∧ block.view = 1 :=
    (Player.mk pair env).play_run (fun _ _ => World.led_of_handed) pair_initial steady
      (by decide +kernel)
  exact ⟨world, block, run, stored, (blocks_have_leader run (by decide)).1 block
    (.inl (.inl ⟨1, stored⟩)) (by omega)⟩

/-- With every commitment as an enclave has returned it, and with fewer than half of the hosts not
correct, a correct replica stores a block of view 1 that host 1 has created on an accumulator of its
own enclave, while host 0 leads that view. -/
theorem usurped_block_stored : ∃ world, Run Symbolic.five (World.Authentic Symbolic.five) world ∧
    2 ∈ Symbolic.five.correct ∧
    Symbolic.five.n - Symbolic.five.correct.card ≤ Symbolic.five.n - (Symbolic.five.n / 2 + 1) ∧
    ∃ block, (world.replicas 2).blockstore.get 1 = some block ∧ 0 < block.view ∧
      block.creator = 1 ∧ View.getViewLeader block.view Symbolic.five.n = 0 ∧
      ¬ block.LedBy Symbolic.five.n (world.Returned Symbolic.five) := by
  obtain ⟨world, run, block, stored, inView, creator⟩ : ∃ world,
      Run five (World.Authentic five) world ∧
      ∃ block, (world.replicas 2).blockstore.get 1 = some block ∧ block.view = 1 ∧
        block.creator = 1 :=
    (Player.mk five env).play_run (fun _ _ => of_decide_eq_true) five_initial usurping
      (by decide +kernel)
  refine ⟨world, run, by decide, by decide, block, stored, by omega, creator,
    by rw [inView]; rfl, ?_⟩
  rintro ⟨byLeader, -⟩
  rw [creator, inView] at byLeader
  cases byLeader

end Abcperf.Damysus
