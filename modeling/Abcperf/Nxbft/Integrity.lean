import Abcperf.Nxbft.Safety
import Abcperf.Nxbft.Seeds
import Abcperf.Nxbft.Validity

/-! What a correct replica delivers: the history of the leaders it has committed, all of it and each
vertex once, and no transaction that nobody has submitted. -/

namespace Abcperf.Nxbft

open Lib Lib.DepthFirst Replica List Option

variable {P : Platform} {setup : Setup P} {world : World P} {id : Nat}

/-- The committed leaders determine what is delivered, and nothing below one is left out. -/
theorem leader_histories_delivered (secure : Secure P) (run : Run setup Event.EchoNamesSource world)
    (correct : id ∈ setup.correct) :
    (orderOf (world.history id)).Nodup ∧
      (∀ address, address ∈ orderOf (world.history id) ↔
        ∃ leader ∈ leadersOf (world.history id), (world.replicas id).dag.Reachable leader address) ∧
      ∀ address entry, (world.replicas id).dag.lookup address = some entry →
        (entry.delivered = true ↔ address ∈ orderOf (world.history id)) := by
  have coherent := World.run_coherent run
  have ordered := (coherent.healthy id correct).working.sound.graph.ledger.ordered
  rw [coherent.facts correct] at ordered
  obtain ⟨distinct, mem⟩ := linear_mem ordered.linear
  exact ⟨distinct, mem, ordered.marks⟩

theorem leader_histories_delivered_faithful : ∃ world, Run Plain.setup Event.EchoNamesSource world ∧
    (world.history 0).delivery = [(7, 1)] ∧ (orderOf (world.history 0)).Nodup := by
  obtain ⟨world, run, -, -, -, delivered⟩ := Plain.faithful_run
  exact ⟨world, run, delivered,
    (leader_histories_delivered Plain.secure run (by decide)).1⟩

/-- No assumption on the seeds is needed: the handshakes see to it that they are the same. The order
of the vertices needs none on the hash of the transactions either. -/
theorem total_order (secure : Secure P) (sealing : P.Sealing)
    (run : Run setup Event.EchoNamesSource world) {left right : Nat} (isLeft : left ∈ setup.correct)
    (isRight : right ∈ setup.correct) :
    PrefixComparable (leadersOf (world.history left)) (leadersOf (world.history right)) ∧
      PrefixComparable (orderOf (world.history left)) (orderOf (world.history right)) ∧
      (P.BindsTransactions →
        PrefixComparable (world.history left).delivery (world.history right).delivery) := by
  have coherent := World.run_coherent run
  have shared : world.SharedSeed setup :=
    fun _ isLeft _ isRight => World.seeds_agree sealing run isLeft isRight
  rcases le_total (world.replicas left).decidedWave (world.replicas right).decidedWave with le | ge
  · obtain ⟨leaders, orders, deliveries⟩ := World.ledgers_nested coherent shared isLeft isRight le
    exact ⟨.inl leaders, .inl orders, fun binds => .inl (deliveries binds)⟩
  · obtain ⟨leaders, orders, deliveries⟩ := World.ledgers_nested coherent shared isRight isLeft ge
    exact ⟨.inr leaders, .inr orders, fun binds => .inr (deliveries binds)⟩

theorem total_order_faithful : ∃ world, Run Plain.setup Event.EchoNamesSource world ∧
    (world.history 0).delivery = [(7, 1)] ∧
    PrefixComparable (orderOf (world.history 0)) (orderOf (world.history 1)) ∧
    PrefixComparable (world.history 0).delivery (world.history 1).delivery := by
  obtain ⟨world, run, -, -, -, delivered⟩ := Plain.faithful_run
  obtain ⟨-, orders, deliveries⟩ :=
    @total_order _ _ world Plain.secure Plain.sealing run 0 1 (by decide) (by decide)
  exact ⟨world, run, delivered, orders, deliveries Plain.binds⟩

theorem Run.mono {allowed permitted : Event P → Prop}
    (weaker : ∀ event, allowed event → permitted event) (run : Run setup allowed world) :
    Run setup permitted world := by
  induction run with
  | start initial => exact .start initial
  | step _ ok step ih => exact .step ih (weaker _ ok) step

theorem Run.following {submitted : Nat → P.Tx → Prop}
    (run : Run setup (fun event => event.EchoNamesSource ∧
      ∀ host env tx, event = .request host env tx → submitted host tx) world) :
    world.Following setup submitted := by
  induction run with
  | start initial => exact World.initial_following initial
  | step _ ok step ih => exact World.step_following ih ok.2 step

theorem delivered_in_vertex [Secure P] (coherent : world.Coherent setup False)
    (correct : id ∈ setup.correct) {tx : P.Tx} (delivered : tx ∈ (world.history id).delivery) :
    ∃ address ∈ orderOf (world.history id), ∃ entry,
      (world.replicas id).dag.lookup address = some entry ∧ tx ∈ entry.vertex.transactions := by
  have ordered := (coherent.healthy id correct).working.sound.graph.ledger.ordered
  rw [coherent.facts correct] at ordered
  have replayed : (world.history id).delivery =
      (replay ((orderOf (world.history id)).flatMap (world.replicas id).dag.transactionsAt)).1 :=
    congrArg Prod.fst ordered.replayed
  obtain ⟨address, isOrdered, isAt⟩ := mem_flatMap.mp (replay_subset _ tx (replayed ▸ delivered))
  obtain ⟨entry, found⟩ := isSome_iff_exists.mp (ordered.known address isOrdered)
  simp only [Dag.transactionsAt, found, map_some, getD_some] at isAt
  exact ⟨address, isOrdered, entry, found, isAt⟩

/-- A transaction that is delivered was submitted to a correct replica, or the enclave of another
host has signed the vertex it is in. -/
theorem delivered_submitted (secure : Secure P) (binds : P.BindsTransactions)
    {submitted : Nat → P.Tx → Prop}
    (run : Run setup (fun event => event.EchoNamesSource ∧
      ∀ host env tx, event = .request host env tx → submitted host tx) world)
    (correct : id ∈ setup.correct) {tx : P.Tx} (delivered : tx ∈ (world.history id).delivery) :
    ∃ address ∈ orderOf (world.history id), ∃ entry,
      (world.replicas id).dag.lookup address = some entry ∧ tx ∈ entry.vertex.transactions ∧
      ((∃ signer ∈ setup.correct, submitted signer tx) ∨
        ∃ key, (entry.vertex.counter, entry.vertex.hash) ∈ world.issued key) := by
  have coherent := World.run_coherent (run.mono fun _ ok => ok.1)
  have healthy := coherent.healthy id correct
  obtain ⟨address, isOrdered, entry, found, isAt⟩ := delivered_in_vertex coherent correct delivered
  refine ⟨address, isOrdered, entry, found, isAt, ?_⟩
  have named := (healthy.working.sound.graph.ledger.wellFormed.slot address entry found).1
  obtain ⟨log, logs⟩ := healthy.working.logs
  have wins := (logs.held entry.vertex).mp (.inr ⟨entry, named ▸ found, rfl⟩)
  obtain ⟨index, isLogged⟩ := List.getElem?_of_mem wins.mem.1
  obtain ⟨-, -, verified⟩ := logs.entry _ index _ isLogged
  obtain ⟨-, key, -, -, issued⟩ := World.verified_issued coherent correct verified
  rcases issued with ⟨signer, isCorrect, -, signed, member, -, sameHash⟩ | foreign
  · refine .inl ⟨signer, isCorrect, ?_⟩
    exact (run.following signer isCorrect).signed signed (mem_signedBy_append.mpr (.inl member)) tx
      (binds signed entry.vertex sameHash ▸ isAt)
  · exact .inr ⟨key, foreign⟩

namespace Plain

/-- Host 1 is asked for the request (7, 1), and nobody is asked for another one. -/
def Requested (host : Nat) (tx : Nat × Nat) : Prop := host = 1 ∧ tx = (7, 1)

def onlyRequested (event : Event platform) : Bool :=
  event.echoNamesSource && match event with
    | .request host _ tx => host == 1 && tx == (7, 1)
    | _ => true

theorem onlyRequested_sound (event : Event platform) (holds : onlyRequested event = true) :
    event.EchoNamesSource ∧
      ∀ host env tx, event = .request host env tx → Requested host tx := by
  obtain ⟨names, only⟩ := Bool.and_eq_true_iff.mp holds
  refine ⟨Event.echoNamesSource_sound names, ?_⟩
  rintro host env tx rfl
  simpa [Requested] using only

end Plain

theorem delivered_submitted_faithful : ∃ world, Run Plain.setup (fun event =>
      event.EchoNamesSource ∧
        ∀ host env tx, event = .request host env tx → Plain.Requested host tx) world ∧
    (world.history 0).delivery = [(7, 1)] ∧
    ∃ address ∈ orderOf (world.history 0), ∃ entry,
      (world.replicas 0).dag.lookup address = some entry ∧ (7, 1) ∈ entry.vertex.transactions ∧
      ((∃ signer ∈ Plain.setup.correct, Plain.Requested signer (7, 1)) ∨
        ∃ key, (entry.vertex.counter, entry.vertex.hash) ∈ world.issued key) := by
  obtain ⟨world, run, delivered⟩ : ∃ world, Run _ _ world ∧
      (world.history 0).delivery = [(7, 1)] :=
    Plain.player.play_run Plain.onlyRequested_sound Plain.start_initial Plain.faithful
      (by decide +kernel)
  exact ⟨world, run, delivered, delivered_submitted Plain.secure Plain.binds run (by decide)
    (by rw [delivered]; exact mem_singleton_self _)⟩

end Abcperf.Nxbft
