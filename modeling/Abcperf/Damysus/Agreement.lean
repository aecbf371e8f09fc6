import Mathlib.Data.List.Chain
import Abcperf.Damysus.Execution
import Abcperf.Damysus.Ordering

/-! Agreement of replicas that follow the protocol. Every call of a replica keeps the facts sound
and continues what it has executed along a committed chain; the chains of all replicas are then
prefixes of one another, in every schedule. -/

namespace Abcperf.Damysus

open Lib Lib.Outcome Heaps Symbolic Function Block List Option

variable {P : Platform}

namespace Replica

/-- A replica that follows the protocol among others that do, and what it has executed. -/
structure Conforms (others : Facts P) (n : Nat) (history : Output P) (replica : Replica P) :
    Prop where
  faithful : Faithful others n history replica
  executing : Executing (others.join replica) n history replica

namespace Conforms

variable {others : Facts P} {n : Nat} {history : Output P} {replica next : Replica P}

section

variable (conforms : Conforms others n history replica)

include conforms

theorem broadcast (message : Message P) (carries : ∀ commitment, message = .commitment commitment →
      (others.join replica).Signed commitment) :
    Conforms others n history (replica.broadcast message) :=
  ⟨conforms.faithful.broadcast message carries, { conforms.executing with }⟩

theorem unicast (receiver : Nat) (message : Message P)
    (carries : ∀ commitment, message = .commitment commitment →
      (others.join replica).Signed commitment) :
    Conforms others n history (replica.unicast receiver message) := by
  refine ⟨conforms.faithful.unicast receiver message carries,
    { conforms.executing with newest := ?_ }⟩
  have sameDelivered : (replica.unicast receiver message).delivered history =
      replica.delivered history := by
    unfold delivered Replica.unicast UnreflectedOutput.unicast
    split <;> rfl
  rw [sameDelivered]
  exact conforms.executing.newest

theorem requestBlock (view : Nat) (hash : P.BlockHash) :
    Conforms others n history (replica.requestBlock view hash) := by
  refine ⟨conforms.faithful.requestBlock view hash, ?_⟩
  unfold Replica.requestBlock
  split
  · exact conforms.executing
  · exact { conforms.executing with }

theorem insertBlock {block : Block P} (run : replica.insertBlock block.notExecuted = .ok next) :
    Conforms others n history next := by
  have after := conforms.executing.insertBlock run
  obtain ⟨blockstore, -, rfl⟩ := insertBlock_ok run
  exact ⟨{ conforms.faithful with }, after⟩

theorem of_call {request : EnclaveCall P} {enclave : Enclave P} {signed : SignedCommitment P}
    (call : replica.enclave.call request = .ok (enclave, .ok signed))
    (faithful : Faithful others n history { replica with enclave }) :
    Conforms others n history { replica with enclave } := by
  refine ⟨faithful, ?_⟩
  have later := conforms.executing.later (Facts.join_grows others (call_grows call))
  exact { later with }

end

end Conforms

section Rules

variable (env : Env P) [CollisionFree P] (others : Facts P) (n view : Nat)
  (proposed : List (Block P))

abbrev Following (ahead : Nat) (history : Output P) (replica : Replica P) : Prop :=
  Sourced (others.base view proposed) history none ahead replica ∧ Conforms others n history replica

abbrev Receiving (history : Output P) (replica : Replica P) (block : Block P) : Prop :=
  Holding (others.base view proposed) history replica block ∧ Conforms others n history replica

abbrev Voting (history : Output P) (replica : Replica P) (block : Block P) : Prop :=
  (Sourced (others.base view proposed) history none 1 replica ∧
    replica.Known (others.base view proposed) block) ∧ Conforms others n history replica

theorem conforms_steps (history : Output P) : StepRule env
      (Following others n view proposed 0 history) (Receiving others n view proposed history)
      (Voting others n view proposed history) (Following others n view proposed 1 history)
      (fun replica commitment => (others.join replica).Signed commitment) (fun _ => True) where
  request := fun ⟨held, conforms⟩ =>
    ⟨(sourced_steps env _ history).request held, conforms.requestBlock _ _⟩
  late := fun ⟨held, conforms⟩ late justified run =>
    ⟨(sourced_steps env _ history).late held late justified run, conforms.insertBlock run⟩
  vote := by
    intro replica next block accumulator prepare ⟨held, conforms⟩ inView justified run
    obtain ⟨id, isProposal⟩ := (held.fetched.known justified).proposal
    obtain ⟨faithful, signed⟩ :=
      conforms.faithful.prepareBlock held.sourced.traced isProposal run
    refine ⟨(sourced_steps env _ history).vote held inView justified run, ?_⟩
    obtain ⟨enclave, rfl, call⟩ := prepareBlock_ok run
    refine (conforms.of_call call faithful).unicast _ _ fun commitment carries => ?_
    cases carries
    exact signed
  execute := by
    intro replica next block accumulator ⟨⟨sourced, known⟩, conforms⟩ justified run
    obtain ⟨id, isProposal⟩ := known.proposal
    refine ⟨(sourced_steps env _ history).execute ⟨sourced, known⟩ justified run, ?_, ?_⟩
    · exact conforms.faithful.execute (executeChain_executed run)
    · exact conforms.executing.executeChain sourced conforms.faithful.valid isProposal justified run
  store := fun ⟨voted, conforms⟩ run =>
    ⟨(sourced_steps env _ history).store voted run, conforms.insertBlock run⟩
  enter := by
    intro replica next timeout ⟨sourced, conforms⟩ run
    refine ⟨sourced.enterNextView run, ?_⟩
    obtain ⟨viewTimeout, lastRoundFinishedAt, rfl⟩ := enterNextView_ok run
    exact ⟨{ conforms.faithful with collected := by simp }, { conforms.executing with }⟩
  popBlock := fun ⟨sourced, conforms⟩ isHead inView =>
    ⟨(sourced_steps env _ history).popBlock sourced isHead inView,
      { conforms.faithful with }, { conforms.executing with }⟩
  popCommitment := by
    intro replica commitment rest ⟨sourced, conforms⟩ isHead
    have member : ∀ other ∈ commitment :: rest, (others.join replica).Signed other :=
      fun other inStore => conforms.faithful.stored other (isHead ▸ inStore)
    refine ⟨⟨((sourced_steps env _ history).popCommitment sourced isHead).1,
      { conforms.faithful with stored := fun other inRest => ?_ }, { conforms.executing with }⟩, ?_⟩
    · exact member other (mem_cons_of_mem _ inRest)
    · exact member commitment mem_cons_self
  collect := by
    intro replica commitment ⟨sourced, conforms⟩ signed usable leads fresh
    refine ⟨(sourced_steps env _ history).collect sourced trivial usable leads fresh,
      { conforms.faithful with collected := forall_mem_concat conforms.faithful.collected signed },
      { conforms.executing with }⟩
  await := fun ⟨sourced, conforms⟩ many =>
    ⟨(sourced_steps env _ history).await sourced many, { conforms.faithful with },
      { conforms.executing with }⟩
  propose := by
    intro replica next accumulator block ⟨sourced, conforms⟩ accumulated built
    refine ⟨(sourced_steps env _ history).propose sourced accumulated built,
      conforms.faithful.propose sourced accumulated built, ?_⟩
    obtain ⟨enclave, rfl, call⟩ := Replica.accumulate_ok accumulated
    have grown : replica.Grows { replica with
        enclave, proposed := replica.proposed ++ [block] } :=
      (call_grows call).trans ⟨rfl, rfl, prefix_rfl, prefix_append _ _⟩
    have later := conforms.executing.later (Facts.join_grows others grown)
    exact { later with }
  announce := fun ⟨sourced, conforms⟩ created logged =>
    ⟨(sourced_steps env _ history).announce sourced created logged, conforms.broadcast _ (by simp)⟩
  reSign := by
    intro replica enclave newView ⟨sourced, conforms⟩ _ call
    obtain ⟨faithful, signed⟩ := conforms.faithful.reSign sourced.traced call
    refine ⟨(sourced_steps env _ history).reSign sourced trivial call, ?_⟩
    refine (conforms.of_call call faithful).unicast _ _ fun commitment carries => ?_
    cases carries
    exact signed

theorem conforms_handlers (history : Output P) : HandlerRule env
      (Following others n view proposed 0 history) (Receiving others n view proposed history)
      (Voting others n view proposed history) (Following others n view proposed 1 history)
      (fun replica commitment => (others.join replica).Signed commitment)
      (Fetched (others.base view proposed)) (fun _ => True) where
  steps := conforms_steps env others n view proposed history
  fetchedLater := fun grows fetched => fetched.later grows
  inHand := fun ⟨sourced, conforms⟩ fetched =>
    ⟨(sourced_handlers env _ history).inHand sourced fetched, conforms⟩
  keepBlock := fun ⟨sourced, conforms⟩ fetched justified ahead =>
    ⟨(sourced_handlers env _ history).keepBlock sourced fetched justified ahead,
      { conforms.faithful with }, { conforms.executing with }⟩
  keepCommitment := by
    intro replica commitment ⟨sourced, conforms⟩ signed
    refine ⟨(sourced_handlers env _ history).keepCommitment sourced trivial,
      { conforms.faithful with stored := fun other member => ?_ }, { conforms.executing with }⟩
    rcases (mem_insert _ _ _ _).mp member with rfl | earlier
    · exact signed
    · exact conforms.faithful.stored other earlier
  handOn := fun ⟨sourced, conforms⟩ source =>
    ⟨(sourced_handlers env _ history).handOn sourced source, conforms.unicast _ _ (by simp)⟩
  book := fun ⟨sourced, conforms⟩ =>
    ⟨(sourced_handlers env _ history).book sourced, { conforms.faithful with },
      { conforms.executing with }⟩
  meet := by
    intro replica sender key enclave ⟨sourced, conforms⟩ added
    refine ⟨⟨((sourced_handlers env _ history).meet sourced added).1, ?_⟩, fun _ => trivial⟩
    obtain ⟨trusted, rfl⟩ := Enclave.addPeer_ok added
    have guarded := conforms.faithful.guarded
    exact ⟨{ conforms.faithful with
      guarded := ⟨guarded.quorum, guarded.lock, guarded.origin, guarded.keeps⟩ },
      { conforms.executing with }⟩
  ready := fun ⟨sourced, conforms⟩ =>
    ⟨(sourced_handlers env _ history).ready sourced, { conforms.faithful with },
      { conforms.executing with }⟩
  queue := fun ⟨sourced, conforms⟩ =>
    ⟨(sourced_handlers env _ history).queue sourced, { conforms.faithful with },
      { conforms.executing with }⟩
  greet := fun ⟨sourced, conforms⟩ =>
    ⟨(sourced_handlers env _ history).greet sourced, conforms.broadcast _ (by simp)⟩

theorem conforms_calls : CallRule env
      (Following others n view proposed 0) (Receiving others n view proposed)
      (Voting others n view proposed) (Following others n view proposed 1)
      (fun replica commitment => (others.join replica).Signed commitment)
      (Fetched (others.base view proposed)) (fun _ => True) where
  handlers := conforms_handlers env others n view proposed
  offeredLater := fun grows signed => signed.later (Facts.join_grows others grows)
  take := by
    intro history replica ⟨sourced, conforms⟩
    obtain ⟨rests, admitted⟩ := (sourced_calls env _).take sourced
    refine ⟨⟨rests, { conforms.faithful with
        sent := fun message member =>
          conforms.faithful.sent message (mem_sent_emptied member) },
      { conforms.executing with newest := ?_ }⟩, ?_⟩
    · simpa [delivered, emptied, taken, Output.join, UnreflectedOutput.new, Output.empty]
        using conforms.executing.newest
    intro message member
    have signed := conforms.faithful.sent message (mem_append_right _ member)
    have fetched := admitted message member
    obtain ⟨sender, message⟩ := message
    cases message with
    | commitment commitment => exact signed commitment rfl
    | _ => exact fetched

end Rules

theorem Conforms.rebase {others further : Facts P} {n : Nat} {history : Output P}
    {replica : Replica P} (conforms : Conforms others n history replica)
    (grows : (others.join replica).Grows (further.join replica))
    (foreign : further.Foreign replica.me) (valid : (further.join replica).Valid n) :
    Conforms further n history replica := by
  obtain ⟨faithful, executing⟩ := conforms
  exact ⟨{
    size := faithful.size
    inRange := faithful.inRange
    foreign
    valid
    guarded := faithful.guarded.later grows
    collected := fun commitment member => (faithful.collected commitment member).later grows
    stored := fun commitment member => (faithful.stored commitment member).later grows
    sent := fun message member commitment carries =>
      (faithful.sent message member commitment carries).later grows },
    executing.later grows⟩

end Replica

def Event.FromReplica (n : Nat) : Event P → Prop
  | .deliver source _ _ _ => source < n
  | _ => True

instance (n : Nat) (event : Event P) : Decidable (event.FromReplica n) :=
  match event with
  | .deliver source _ _ _ => inferInstanceAs (Decidable (source < n))
  | .init _ _ | .request _ _ _ | .blockTimeout _ _ | .viewTimeout _ _ | .addPeer _ _ _
  | .call _ _ => inferInstanceAs (Decidable True)

namespace World

def facts (setup : Setup P) (world : World P) : Facts P where
  proposal id block := id ∈ setup.correct ∧ block ∈ (world.replicas id).proposed
  issued id record := id ∈ setup.correct ∧ record ∈ (world.replicas id).enclave.log

def others (setup : Setup P) (world : World P) (me : Nat) : Facts P where
  proposal id block := id ≠ me ∧ (world.facts setup).proposal id block
  issued id record := id ≠ me ∧ (world.facts setup).issued id record

theorem others_foreign (setup : Setup P) (world : World P) (me : Nat) :
    (world.others setup me).Foreign me where
  proposal := fun _ isProposal => isProposal.1 rfl
  issued := fun _ issued => issued.1 rfl

variable {setup : Setup P} {world : World P}

/-- Whatever `id` is replaced by, the others are the same, and with it they are all. -/
theorem others_join (world : World P) {id : Nat} (correct : id ∈ setup.correct)
    {replica : Replica P} (me : replica.me = id) (output : Output P) :
    (world.others setup id).join replica = (world.acted id replica output).facts setup := by
  have cases {α : Type} (field : Replica P → List α) (other : Nat) (entry : α) :
      ((other ≠ id ∧ other ∈ setup.correct ∧ entry ∈ field (world.replicas other)) ∨
        (other = replica.me ∧ entry ∈ field replica)) ↔ other ∈ setup.correct ∧
          entry ∈ field ((world.acted id replica output).replicas other) := by
    rw [me]
    by_cases mine : other = id
    · subst mine
      simp [acted, correct]
    · simp [acted, mine]
  ext other entry
  · exact cases (·.proposed) other entry
  · exact cases (·.enclave.log) other entry

theorem others_self {id : Nat} (correct : id ∈ setup.correct) (me : (world.replicas id).me = id) :
    (world.others setup id).join (world.replicas id) = world.facts setup := by
  have unchanged : (world.acted id (world.replicas id) Output.empty).replicas = world.replicas :=
    update_eq_self id world.replicas
  rw [others_join world correct me Output.empty]
  simp only [facts, unchanged]

theorem others_acted {id : Nat} {replica : Replica P} {output : Output P} :
    (world.acted id replica output).others setup id = world.others setup id := by
  ext other entry
  all_goals
    refine and_congr_right fun different => ?_
    simp only [facts, acted, update_of_ne different]

/-- Every correct replica only relies on what the whole network has proposed and signed. -/
structure Agreeing (setup : Setup P) (world : World P) : Prop where
  named : ∀ id ∈ setup.correct, (world.replicas id).me = id
  sourced : ∀ id ∈ setup.correct, Replica.Sourced
    ((world.others setup id).base (world.replicas id).view (world.replicas id).proposed)
    (world.history id) none 0 (world.replicas id)
  conforms : ∀ id ∈ setup.correct, Replica.Conforms (world.others setup id) setup.n
    (world.history id) (world.replicas id)

section Acting

variable {setup : Setup P} {world : World P}

theorem Agreeing.valid (agreeing : world.Agreeing setup) {id : Nat} (correct : id ∈ setup.correct) :
    (world.facts setup).Valid setup.n := by
  rw [← others_self correct (agreeing.named id correct)]
  exact (agreeing.conforms id correct).faithful.valid

theorem known_of_proposal {me id : Nat} {block : Block P} {view : Nat} {proposed : List (Block P)}
    (isProposal : (world.facts setup).proposal id block.notExecuted) :
    (world.replicas me).Known ((world.others setup me).base view proposed) block := by
  by_cases mine : id = me
  · subst mine
    exact .inr isProposal.2
  · exact .inl ⟨id, mine, isProposal⟩

/-- What a correct replica has sent can be delivered: its blocks somebody has created, and its
commitments somebody has signed. -/
theorem Agreeing.admitted (agreeing : world.Agreeing setup) {event : Event P}
    (correct : event.place ∈ setup.correct) (possible : event.Possible setup world)
    (all : setup.correct = Finset.range setup.n) (fromReplica : event.FromReplica setup.n) :
    event.Admitted (Replica.Fetched ((world.others setup event.place).base
        (world.replicas event.place).view (world.replicas event.place).proposed))
      (fun replica commitment => ((world.others setup event.place).join replica).Signed commitment)
      (fun _ => True) (world.replicas event.place) := by
  cases event with
  | deliver source receiver env message =>
    obtain ⟨different, ⟨sender, content⟩, rfl, isSent⟩ := possible
    change receiver ∈ setup.correct at correct
    have sourceCorrect : source ∈ setup.correct := by
      rw [all]
      exact Finset.mem_range.mpr fromReplica
    have sent : (⟨sender, content⟩ : PeerMessage P) ∈
        (world.replicas source).sent (world.history source) := by
      refine mem_append_left _ (mem_append_left _ (mem_append.mpr ?_))
      exact (isSent sourceCorrect).imp_right fun member => List.mem_map.mpr ⟨_, member, rfl⟩
    have created : ∀ block, content.block = some block → (world.replicas receiver).Fetched
        ((world.others setup receiver).base (world.replicas receiver).view
          (world.replicas receiver).proposed) block.transmitted := by
      intro block carries
      rcases (agreeing.sourced source sourceCorrect).sent _ sent block carries with
        isGenesis | known
      · exact .inl isGenesis
      obtain ⟨id, isProposal⟩ := known.proposal
      rw [others_self sourceCorrect (agreeing.named source sourceCorrect)] at isProposal
      have unhashed : block.precomputedHash = none :=
        ((agreeing.valid sourceCorrect).proposed id _ isProposal).unhashed
      have same : block.transmitted.notExecuted = block.notExecuted := by
        rw [transmitted, notExecuted, notExecuted, unhashed]
      exact .inr (known_of_proposal (same ▸ isProposal))
    have signed : ∀ commitment, content = .commitment commitment →
        ((world.others setup receiver).join (world.replicas receiver)).Signed commitment := by
      intro commitment carries
      rw [others_self correct (agreeing.named receiver correct),
        ← others_self sourceCorrect (agreeing.named source sourceCorrect)]
      exact (agreeing.conforms source sourceCorrect).faithful.sent _ sent commitment carries
    cases content with
    | newBlock block prepare => exact created block rfl
    | requestedBlock block => exact created block rfl
    | commitment commitment => exact signed commitment rfl
    | _ => trivial
  | viewTimeout id env => exact fun _ => trivial
  | _ => trivial

theorem Agreeing.acted (agreeing : world.Agreeing setup) [CollisionFree P]
    (all : setup.correct = Finset.range setup.n) {event : Event P}
    (correct : event.place ∈ setup.correct) (possible : event.Possible setup world)
    (fromReplica : event.FromReplica setup.n) {replica : Replica P} {output : Output P}
    (run : event.handle (world.replicas event.place) = .ok (replica, output)) :
    (world.acted event.place replica output).Agreeing setup := by
  have admitted := agreeing.admitted correct possible all fromReplica
  obtain ⟨⟨sourced, conforms⟩, grown⟩ := Event.handle_keeps
    (fun env => Replica.conforms_calls env (world.others setup event.place) setup.n
      (world.replicas event.place).view (world.replicas event.place).proposed)
    ⟨agreeing.sourced _ correct, agreeing.conforms _ correct⟩ admitted run
  have me : replica.me = event.place := grown.me.trans (agreeing.named _ correct)
  have joined := others_join world correct me output
  have valid : ((world.acted event.place replica output).facts setup).Valid setup.n := by
    rw [← joined]
    exact conforms.faithful.valid
  have grows : (world.facts setup).Grows
      ((world.acted event.place replica output).facts setup) := by
    rw [← joined, ← others_self correct (agreeing.named _ correct)]
    exact Facts.join_grows _ grown
  have same : (world.acted event.place replica output).replicas event.place = replica :=
    update_self ..
  have sameHistory : (world.acted event.place replica output).history event.place =
    (world.history event.place).join output := update_self ..
  have rest : ∀ id, id ≠ event.place →
      (world.acted event.place replica output).replicas id = world.replicas id ∧
      (world.acted event.place replica output).history id = world.history id :=
    fun id different => ⟨update_of_ne different .., update_of_ne different ..⟩
  have named : ∀ id ∈ setup.correct,
      ((world.acted event.place replica output).replicas id).me = id := by
    intro id isCorrect
    by_cases mine : id = event.place
    · rw [mine, same, me]
    · rw [(rest id mine).1]
      exact agreeing.named id isCorrect
  refine ⟨named, ?_, ?_⟩
  · intro id isCorrect
    by_cases mine : id = event.place
    · subst mine
      rw [others_acted, same, sameHistory]
      exact sourced.rebase (fun _ known => known) rfl rfl
    rw [(rest id mine).1, (rest id mine).2]
    refine (agreeing.sourced id isCorrect).rebase (fun block known => ?_) rfl rfl
    obtain ⟨creator, isProposal⟩ := known.proposal
    rw [others_self isCorrect (agreeing.named id isCorrect)] at isProposal
    have later : ((world.acted event.place replica output).replicas id).Known
        (((world.acted event.place replica output).others setup id).base
          (world.replicas id).view (world.replicas id).proposed) block :=
      known_of_proposal (grows.proposal isProposal)
    rw [(rest id mine).1] at later
    exact later
  intro id isCorrect
  by_cases mine : id = event.place
  · subst mine
    rw [others_acted, same, sameHistory]
    exact conforms
  have joinedOther := others_self isCorrect (named id isCorrect)
  rw [(rest id mine).1] at joinedOther
  rw [(rest id mine).1, (rest id mine).2]
  refine (agreeing.conforms id isCorrect).rebase ?_ ?_ ?_
  · rw [joinedOther, others_self isCorrect (agreeing.named id isCorrect)]
    exact grows
  · rw [agreeing.named id isCorrect]
    exact others_foreign setup _ id
  · rw [joinedOther]
    exact valid

end Acting

theorem step_agreeing {next : World P} {event : Event P} [CollisionFree P]
    (all : setup.correct = Finset.range setup.n) (agreeing : world.Agreeing setup)
    (fromReplica : event.FromReplica setup.n) (step : Step setup world event next) :
    next.Agreeing setup := by
  cases step with
  | act correct possible run => exact agreeing.acted all correct possible fromReplica run
  | addPeer foreign run => exact ⟨agreeing.named, agreeing.sourced, agreeing.conforms⟩
  | call foreign run => exact ⟨agreeing.named, agreeing.sourced, agreeing.conforms⟩

theorem initial_agreeing (initial : world.Initial setup) : world.Agreeing setup := by
  have started := fun id (correct : id ∈ setup.correct) => initial.started correct
  have named : ∀ id ∈ setup.correct, (world.replicas id).me = id := by
    intro id correct
    rw [(started id correct).1]
    exact (setup.named id correct).1
  have noProposal : ∀ id block, ¬ (world.facts setup).proposal id block := by
    rintro id block ⟨correct, created⟩
    rw [(started id correct).1] at created
    cases created
  have noRecord : ∀ id record, ¬ (world.facts setup).issued id record := by
    rintro id record ⟨correct, logged⟩
    rw [(started id correct).1] at logged
    cases logged
  have valid : (world.facts setup).Valid setup.n :=
    ⟨fun id block isProposal => absurd isProposal (noProposal id block),
      fun id block _ isProposal => absurd isProposal (noProposal id block),
      fun id record issued => absurd issued (noRecord id record),
      fun id record issued => absurd issued (noRecord id record),
      fun id record _ issued => absurd issued (noRecord id record)⟩
  refine ⟨named, ?_, ?_⟩
  · intro id correct
    rw [(started id correct).1, (started id correct).2]
    exact Replica.initial_sourced _ _ rfl
  intro id correct
  have joined := others_self correct (named id correct)
  have inRange : id < setup.n := setup.inRange id correct
  obtain ⟨sameMe, sameN⟩ := setup.named id correct
  have foreign := others_foreign setup world id
  rw [← joined] at valid
  rw [(started id correct).1] at valid
  rw [(started id correct).1, (started id correct).2]
  refine ⟨⟨sameN, ?_, ?_, valid, ⟨?_, .inl ⟨rfl, rfl⟩, .inl rfl, ?_⟩, ?_, ?_, ?_⟩,
    ⟨?_, ?_, ?_, .inl rfl, Newest.nil _⟩⟩
  · change (setup.config id).me < setup.n
    rw [sameMe]
    exact inRange
  · change (world.others setup id).Foreign (setup.config id).me
    rw [sameMe]
    exact foreign
  · change (setup.config id).n / 2 + 1 = setup.n / 2 + 1
    rw [sameN]
  all_goals simp [Replica.initial, Enclave.new, Replica.sent, sentBy, UnreflectedOutput.new,
    Output.empty, genesis]

theorem run_agreeing [CollisionFree P] (all : setup.correct = Finset.range setup.n)
    (run : Run setup (fun _ event => event.FromReplica setup.n) world) : world.Agreeing setup := by
  induction run with
  | start initial => exact initial_agreeing initial
  | step _ fromReplica step ih => exact step_agreeing all ih fromReplica step

end World

/-- The votes behind `block` name the block below it. -/
def Block.Justifies (below block : Block P) : Prop :=
  ∃ accumulator, block.justification = .quorum accumulator ∧
    accumulator.getBlockView = below.view ∧ accumulator.getBlockHash = below.hashValue

/-- A chain of views is one of blocks, each of which is justified by the one before it. -/
theorem Facts.chain_justifies {facts : Facts P} {n : Nat} (valid : facts.Valid n) {top : Nat}
    {views : List Nat} (isChain : (facts.chain n).Chain top views) :
    ∀ blocks : List (Block P), blocks.map view = views →
      (∀ block ∈ blocks, ∃ id, facts.proposal id block) →
      (genesis :: blocks).IsChain Block.Justifies ∧ ∀ last ∈ (genesis :: blocks).getLast?,
        last.view = top ∧
          facts.Names last.view last.hashValue := by
  induction isChain with
  | root =>
    intro blocks isViews _
    rw [map_eq_nil_iff.mp isViews]
    refine ⟨isChain_singleton _, ?_⟩
    rintro last isLast
    cases isLast
    exact ⟨rfl, .inl ⟨rfl, rfl⟩⟩
  | @step view below views before link ih =>
    intro blocks isViews created
    obtain ⟨front, rest, rfl, isFront, isRest⟩ := map_eq_append_iff.mp isViews
    obtain ⟨block, rfl, atView⟩ := map_eq_singleton_iff.mp isRest
    obtain ⟨chained, endsBelow⟩ := ih front isFront fun other member =>
      created other (mem_append_left _ member)
    obtain ⟨id, isProposal⟩ := created block (by simp)
    obtain ⟨other, ⟨id', accumulator, isOther, justified, sameBelow⟩, otherView⟩ := link
    have same := valid.proposal_unique isOther isProposal (otherView.trans atView.symm)
    subst same
    obtain ⟨accumulator', votes, isQuorum, quorate, -⟩ :=
      (valid.proposed id other isProposal).justified
    rw [justified, Justification.quorum.injEq] at isQuorum
    subst isQuorum
    constructor
    · rw [← cons_append]
      refine chained.append (isChain_singleton _) ?_
      intro last isLast next isNext
      cases isNext
      obtain ⟨endView, names⟩ := endsBelow last isLast
      refine ⟨accumulator, justified, sameBelow.trans endView.symm, ?_⟩
      refine valid.names_unique (valid.accumulator_names quorate) ?_
      rw [sameBelow, ← endView]
      exact names
    intro last isLast
    rw [← cons_append, List.getLast?_append, List.getLast?_singleton, some_or] at isLast
    cases isLast
    exact ⟨atView, .inr ⟨id, other, isProposal, rfl, rfl⟩⟩

/-- Whatever the network and the timers do, replicas that all follow the protocol execute prefixes
of one sequence of blocks, each block once and after everything it is justified by, and deliver the
requests of a client in order. -/
theorem executed_blocks_agree {setup : Setup P} {world : World P} (hashes : CollisionFree P)
    (all : setup.correct = Finset.range setup.n)
    (run : Run setup (fun _ event => event.FromReplica setup.n) world) :
    (∀ left < setup.n, ∀ right < setup.n,
      PrefixComparable (world.replicas left).executedBlocks (world.replicas right).executedBlocks) ∧
    ∀ id < setup.n, (world.replicas id).executedBlocks.Nodup ∧
      (Block.genesis :: (world.replicas id).executedBlocks).IsChain Block.Justifies ∧
      (world.history id).delivery.Pairwise fun earlier later =>
        P.clientId earlier = P.clientId later → P.requestId earlier < P.requestId later := by
  have agreeing := World.run_agreeing all run
  have isCorrect : ∀ id < setup.n, id ∈ setup.correct := by
    intro id inRange
    rw [all]
    exact Finset.mem_range.mpr inRange
  have executing : ∀ id < setup.n, Replica.Executing (world.facts setup) setup.n
      (world.history id) (world.replicas id) := by
    intro id inRange
    have correct := isCorrect id inRange
    rw [← World.others_self correct (agreeing.named id correct)]
    exact (agreeing.conforms id correct).executing
  constructor
  · intro left leftRange right rightRange
    have valid := agreeing.valid (isCorrect left leftRange)
    have lawful := valid.lawful
    obtain ⟨leftCreated, -, -, leftCommitted, -⟩ := executing left leftRange
    obtain ⟨rightCreated, -, -, rightCommitted, -⟩ := executing right rightRange
    have sameBlock : ∀ block other : Block P, (∃ id, (world.facts setup).proposal id block) →
        (∃ id, (world.facts setup).proposal id other) → block.view = other.view →
        block = other := by
      rintro block other ⟨id, isBlock⟩ ⟨id', isOther⟩ sameView
      exact valid.proposal_unique isBlock isOther sameView
    rcases leftCommitted with leftNone | ⟨leftTop, leftCommitted, leftChain⟩
    · rw [leftNone]
      exact .inl nil_prefix
    rcases rightCommitted with rightNone | ⟨rightTop, rightCommitted, rightChain⟩
    · rw [rightNone]
      exact .inr nil_prefix
    refine (lawful.committed_prefix leftCommitted rightCommitted leftChain rightChain).imp ?_ ?_
    · exact prefix_of_map fun block isBlock other isOther =>
        sameBlock block other (leftCreated block isBlock) (rightCreated other isOther)
    · exact prefix_of_map fun block isBlock other isOther =>
        sameBlock block other (rightCreated block isBlock) (leftCreated other isOther)
  intro id inRange
  have valid := agreeing.valid (isCorrect id inRange)
  obtain ⟨created, -, -, committed, newest⟩ := executing id inRange
  have delivered := (pairwise_append.mp newest.ascending).1
  rcases committed with nothing | ⟨top, -, isChain⟩
  · rw [nothing]
    exact ⟨nodup_nil, isChain_singleton _, delivered⟩
  have ascending := ((valid.lawful).chain_ascending isChain).1
  have distinct : ((world.replicas id).executedBlocks.map view).Nodup :=
    ascending.imp ne_of_lt
  exact ⟨List.Nodup.of_map _ distinct, (Facts.chain_justifies valid isChain _ rfl created).1,
    delivered⟩

/-- Both of two replicas have executed the first block. -/
theorem executed_blocks_agree_steady : ∃ world, Run Symbolic.pair
      (fun _ event => event.FromReplica Symbolic.pair.n) world ∧
    (world.replicas 0).executedBlocks.length = 1 ∧ (world.replicas 1).executedBlocks.length = 1 ∧
    PrefixComparable (world.replicas 0).executedBlocks (world.replicas 1).executedBlocks := by
  obtain ⟨world, run, left, right⟩ : ∃ world,
      Run pair (fun _ event => event.FromReplica pair.n) world ∧
      (world.replicas 0).executedBlocks.length = 1 ∧
      (world.replicas 1).executedBlocks.length = 1 :=
    (Player.mk pair env).play_run (fun _ _ => of_decide_eq_true) pair_initial steady
      (by decide +kernel)
  exact ⟨world, run, left, right,
    (executed_blocks_agree collisionFree rfl run).1 0 (by decide) 1 (by decide)⟩

end Abcperf.Damysus
