import Abcperf.Nxbft.Recovery
import Abcperf.Nxbft.Execution

/-! NxBFT replicas that crash and restart. Hosts that are not correct send what they like; a correct
host may lose all its state at any time after it was asked to take a backup, and then runs a new
enclave on its last backup. What it did before stays in the log. -/

namespace Abcperf.Nxbft

open Lib Lib.Outcome Function List Option

variable {R : RecoveryPlatform}

inductive Stimulus (P : Platform)
  | init
  | message (source : Nat) (message : AnyMessage P)
  | request (tx : P.Tx)
  | timeout

def RecoverableReplica.respond (env : Env) (replica : RecoverableReplica R.toPlatform) :
    Stimulus R.toPlatform →
      Outcome (RecoverableReplica R.toPlatform × RecoveryOutput R.toPlatform)
  | .init => replica.initHandshake env
  -- The wrapper drops the sender that the transport names, for recovery messages too.
  | .message _ message => replica.processPeerMessage env message
  | .request tx => replica.receiveClientRequest env tx
  | .timeout => replica.processVertexTimeout env

/-- A backup is taken after each call whose output asks for one. -/
def RecoverableReplica.saves (replica : RecoverableReplica R.toPlatform)
    (output : RecoveryOutput R.toPlatform) (last : Option (Backup R.toPlatform)) :
    Outcome (Option (Backup R.toPlatform)) := do
  if output.base.backupEnclave then
    return some (← replica.backupEnclave)
  return last

theorem RecoverableReplica.saves_cases {replica : RecoverableReplica R} {output : RecoveryOutput R}
    {last backup : Option (Backup R)} (run : replica.saves output last = .ok backup) :
    backup = last ∨ ∃ taken, replica.backupEnclave = .ok taken ∧ backup = some taken := by
  unfold saves at run
  split at run
  · simp only [bind_ok, pure_ok] at run
    obtain ⟨taken, isTaken, rfl⟩ := run
    exact .inr ⟨taken, isTaken, rfl⟩
  · exact .inl (pure_ok.mp run).symm

/-- `launched` are the trusted instances that restarts have created. -/
structure RecoveryWorld (P : Platform) where
  replicas : Nat → RecoverableReplica P
  history : Nat → RecoveryOutput P
  backups : Nat → Option (Backup P)
  launched : List P.Key

inductive RecoveryEvent (P : Platform)
  | act (id : Nat) (env : Env) (stimulus : Stimulus P)
  | restart (id : Nat) (env : Env) (key : P.Key) (now : Nat)

namespace RecoveryWorld

variable {P : Platform}

def CanSend (setup : Setup P) (world : RecoveryWorld P) (source receiver : Nat) :
    AnyMessage P → Prop
  | .protocol message => source ∈ setup.correct →
      message ∈ (world.history source).base.broadcasts ∨
        (receiver, message) ∈ (world.history source).base.unicasts
  | .recovery message => source ∈ setup.correct → message ∈ (world.history source).broadcasts

def Arrives (setup : Setup P) (world : RecoveryWorld P) (id : Nat) : Stimulus P → Prop
  | .message source message => source ≠ id ∧ world.CanSend setup source id message
  | _ => True

def acted (world : RecoveryWorld P) (id : Nat) (replica : RecoverableReplica P)
    (output : RecoveryOutput P) (backup : Option (Backup P)) : RecoveryWorld P :=
  { world with
    replicas := Function.update world.replicas id replica
    history := Function.update world.history id ((world.history id).append output)
    backups := Function.update world.backups id backup }

section acted

variable (world : RecoveryWorld P) (id : Nat) (replica : RecoverableReplica P)
  (output : RecoveryOutput P) (backup : Option (Backup P)) {other : Nat}

@[simp] theorem acted_replicas_self :
    (world.acted id replica output backup).replicas id = replica := update_self ..

@[simp] theorem acted_history_self :
    (world.acted id replica output backup).history id = (world.history id).append output :=
  update_self ..

@[simp] theorem acted_backups_self :
    (world.acted id replica output backup).backups id = backup := update_self ..

theorem acted_replicas_other (different : other ≠ id) :
    (world.acted id replica output backup).replicas other = world.replicas other :=
  update_of_ne different ..

theorem acted_history_other (different : other ≠ id) :
    (world.acted id replica output backup).history other = world.history other :=
  update_of_ne different ..

theorem acted_backups_other (different : other ≠ id) :
    (world.acted id replica output backup).backups other = world.backups other :=
  update_of_ne different ..

end acted

/-- A restarted replica goes on with the log of its earlier lives. -/
def restarted (world : RecoveryWorld P) (id : Nat) (key : P.Key) (replica : RecoverableReplica P)
    (output : RecoveryOutput P) (backup : Option (Backup P)) : RecoveryWorld P :=
  { world.acted id { replica with log := (world.replicas id).log ++ replica.log } output backup with
    launched := key :: world.launched }

def Initial (setup : Setup P) (world : RecoveryWorld P) : Prop :=
  (∀ id ∈ setup.correct,
    (∃ base, Replica.new (setup.config id) = .ok base ∧
      world.replicas id = RecoverableReplica.ofReplica base) ∧
    world.history id = RecoveryOutput.empty ∧ world.backups id = none) ∧
  world.launched = []

def Unused (setup : Setup P) (world : RecoveryWorld P) (key : P.Key) : Prop :=
  key ∉ world.launched ∧ ∀ id ∈ setup.correct, (setup.config id).enclave ≠ key

end RecoveryWorld

inductive RecoveryStep (setup : Setup R.toPlatform) :
    RecoveryWorld R.toPlatform → RecoveryEvent R.toPlatform → RecoveryWorld R.toPlatform → Prop
  | act {world : RecoveryWorld R.toPlatform} {id : Nat} {env : Env}
      {stimulus : Stimulus R.toPlatform} {replica : RecoverableReplica R.toPlatform}
      {output : RecoveryOutput R.toPlatform} {backup : Option (Backup R.toPlatform)}
      (correct : id ∈ setup.correct) (arrives : world.Arrives setup id stimulus)
      (run : (world.replicas id).respond env stimulus = .ok (replica, output))
      (saved : replica.saves output (world.backups id) = .ok backup) :
      RecoveryStep setup world (.act id env stimulus) (world.acted id replica output backup)
  | restart {world : RecoveryWorld R.toPlatform} {id : Nat} {env : Env} {key : R.Key} {now : Nat}
      {last : Backup R.toPlatform} {replica : RecoverableReplica R.toPlatform}
      {output : RecoveryOutput R.toPlatform} {backup : Option (Backup R.toPlatform)}
      (correct : id ∈ setup.correct) (held : world.backups id = some last)
      (unused : world.Unused setup key)
      (run : RecoverableReplica.initRecovery env key now last = .ok (replica, output))
      (saved : replica.saves output (some last) = .ok backup) :
      RecoveryStep setup world (.restart id env key now)
        (world.restarted id key replica output backup)

inductive RecoveryRun (setup : Setup R.toPlatform)
    (allowed : RecoveryWorld R.toPlatform → RecoveryEvent R.toPlatform → Prop) :
    RecoveryWorld R.toPlatform → Prop
  | start {world : RecoveryWorld R.toPlatform} (initial : world.Initial setup) :
      RecoveryRun setup allowed world
  | step {world next : RecoveryWorld R.toPlatform} {event : RecoveryEvent R.toPlatform}
      (before : RecoveryRun setup allowed world) (ok : allowed world event)
      (step : RecoveryStep setup world event next) : RecoveryRun setup allowed next

/-- `relay`, `direct` and `recover` deliver what a correct host has broadcast, sent to the receiver
or broadcast about a recovery; `inject` is any message of a host that is not correct. -/
inductive RecoveryMove (P : Platform)
  | init (id : Nat)
  | request (id : Nat) (tx : P.Tx)
  | timeout (id : Nat)
  | relay (source receiver index : Nat)
  | direct (source receiver index : Nat)
  | recover (source receiver index : Nat)
  | inject (source receiver : Nat) (message : AnyMessage P)
  | restart (id : Nat) (key : P.Key)

structure RecoveryPlayer (P : Platform) where
  setup : Setup P
  env : Env

namespace RecoveryPlayer

variable (player : RecoveryPlayer R.toPlatform)

def act (world : RecoveryWorld R.toPlatform) (id : Nat) (stimulus : Stimulus R.toPlatform) :
    Option (RecoveryEvent R.toPlatform × RecoveryWorld R.toPlatform) := do
  guard (id ∈ player.setup.correct)
  let (replica, output) ← ((world.replicas id).respond player.env stimulus).toOption
  let backup ← (replica.saves output (world.backups id)).toOption
  some (.act id player.env stimulus, world.acted id replica output backup)

def deliver (world : RecoveryWorld R.toPlatform) (source receiver : Nat)
    (message : AnyMessage R.toPlatform) :
    Option (RecoveryEvent R.toPlatform × RecoveryWorld R.toPlatform) := do
  guard (source ≠ receiver)
  player.act world receiver (.message source message)

def restart (world : RecoveryWorld R.toPlatform) (id : Nat) (key : R.Key) :
    Option (RecoveryEvent R.toPlatform × RecoveryWorld R.toPlatform) := do
  guard (id ∈ player.setup.correct ∧ key ∉ world.launched ∧
    ∀ id ∈ player.setup.correct, (player.setup.config id).enclave ≠ key)
  let last ← world.backups id
  let (replica, output) ← (RecoverableReplica.initRecovery player.env key 0 last).toOption
  let backup ← (replica.saves output (some last)).toOption
  some (.restart id player.env key 0, world.restarted id key replica output backup)

def move (world : RecoveryWorld R.toPlatform) : RecoveryMove R.toPlatform →
      Option (RecoveryEvent R.toPlatform × RecoveryWorld R.toPlatform)
  | .init id => player.act world id .init
  | .request id tx => player.act world id (.request tx)
  | .timeout id => player.act world id .timeout
  | .relay source receiver index => do
    let message ← (world.history source).base.broadcasts[index]?
    player.deliver world source receiver (.protocol message)
  | .direct source receiver index => do
    let sent ← (world.history source).base.unicasts[index]?
    guard (sent.1 = receiver)
    player.deliver world source receiver (.protocol sent.2)
  | .recover source receiver index => do
    let message ← (world.history source).broadcasts[index]?
    player.deliver world source receiver (.recovery message)
  | .inject source receiver message => do
    guard (source ∉ player.setup.correct)
    player.deliver world source receiver message
  | .restart id key => player.restart world id key

variable {player : RecoveryPlayer R} {world next : RecoveryWorld R}
  {event : RecoveryEvent R}

theorem act_step {id : Nat} {stimulus : Stimulus R}
    (run : player.act world id stimulus = some (event, next))
    (arrives : world.Arrives player.setup id stimulus) :
    RecoveryStep player.setup world event next := by
  simp only [act, bind_eq_bind, bind_eq_some_iff, guard_eq_some', toOption_eq_some, Prod.exists,
    exists_const] at run
  obtain ⟨correct, replica, output, responded, backup, saved, same⟩ := run
  cases same
  exact .act correct arrives responded saved

variable {message : AnyMessage R}

theorem deliver_step {source receiver : Nat}
    (run : player.deliver world source receiver message = some (event, next))
    (sent : world.CanSend player.setup source receiver message) :
    RecoveryStep player.setup world event next := by
  simp only [deliver, bind_eq_bind, bind_eq_some_iff, guard_eq_some', exists_const] at run
  exact act_step run.2 ⟨run.1, sent⟩

theorem restart_step {id : Nat} {key : R.Key}
    (run : player.restart world id key = some (event, next)) :
    RecoveryStep player.setup world event next := by
  simp only [restart, bind_eq_bind, bind_eq_some_iff, guard_eq_some', toOption_eq_some,
    Prod.exists, exists_const] at run
  obtain ⟨⟨correct, unused⟩, last, held, replica, output, recovered, backup, saved, same⟩ := run
  cases same
  exact .restart correct held unused recovered saved

theorem move_step {move : RecoveryMove R} (run : player.move world move = some (event, next)) :
    RecoveryStep player.setup world event next := by
  cases move with
  | init id => exact act_step run trivial
  | request id tx => exact act_step run trivial
  | timeout id => exact act_step run trivial
  | relay source receiver index =>
    obtain ⟨message, found, run⟩ := bind_eq_some_iff.mp run
    exact deliver_step run fun _ => .inl (mem_of_getElem? found)
  | direct source receiver index =>
    simp only [RecoveryPlayer.move, bind_eq_bind, bind_eq_some_iff, guard_eq_some',
      exists_const] at run
    obtain ⟨sent, found, rfl, run⟩ := run
    exact deliver_step run fun _ => .inr (mem_of_getElem? found)
  | recover source receiver index =>
    obtain ⟨message, found, run⟩ := bind_eq_some_iff.mp run
    exact deliver_step run fun _ => mem_of_getElem? found
  | inject source receiver message =>
    simp only [RecoveryPlayer.move, bind_eq_bind, bind_eq_some_iff, guard_eq_some',
      exists_const] at run
    refine deliver_step run.2 ?_
    cases message <;> exact fun correct => absurd correct run.1
  | restart id key => exact restart_step run

def play (player : RecoveryPlayer R.toPlatform)
    (test : RecoveryWorld R.toPlatform → RecoveryEvent R.toPlatform → Bool)
    (world : RecoveryWorld R.toPlatform) (moves : List (RecoveryMove R.toPlatform)) :
    Option (RecoveryWorld R.toPlatform) :=
  moves.foldlM (fun world move => do
    let (event, next) ← player.move world move
    guard (test world event)
    some next) world

theorem play_run (player : RecoveryPlayer R.toPlatform)
    {allowed : RecoveryWorld R → RecoveryEvent R → Prop}
    {test : RecoveryWorld R → RecoveryEvent R → Bool}
    (sound : ∀ world event, test world event = true → allowed world event)
    (initial : world.Initial player.setup) (moves : List (RecoveryMove R))
    {ends : RecoveryWorld R → Prop} [DecidablePred ends]
    (played : (player.play test world moves).any (decide <| ends ·) = true) :
    ∃ last, RecoveryRun player.setup allowed last ∧ ends last := by
  refine foldlM_reaches ?_ (.start initial) played
  intro world move next run moved
  simp only [bind_eq_bind, bind_eq_some_iff, guard_eq_some', Prod.exists, exists_const] at moved
  obtain ⟨event, _, moved, isAllowed, same⟩ := moved
  cases same
  exact .step run (sound world event isAllowed) (move_step moved)

end RecoveryPlayer

namespace Plain

instance : DecidableEq Hash :=
  inferInstanceAs (DecidableEq (Nat × Nat × List (Nat × Nat) × List Nat))

/-- Every attestation is accepted, as the enclaves of the source do. -/
abbrev recoverable : RecoveryPlatform where
  toPlatform := platform
  txEq := inferInstanceAs (DecidableEq (Nat × Nat))
  signatureEq := inferInstanceAs (DecidableEq (Nat × Nat × Hash))
  verifyAttestation _ _ := .ok true

def recoveryPlayer (setup : Setup platform) : RecoveryPlayer platform :=
  ⟨setup, ⟨fun round reading => 10 * round + reading, false, 200⟩⟩

def recoveryStart (setup : Setup platform) : RecoveryWorld platform where
  replicas id := .ofReplica (.initial (setup.config id))
  history _ := .empty
  backups _ := none
  launched := []

theorem recoveryStart_initial {setup : Setup platform} (created : ∀ id ∈ setup.correct,
      Replica.new (setup.config id) = .ok (.initial (setup.config id))) :
    (recoveryStart setup).Initial setup :=
  ⟨fun id correct => ⟨⟨_, created id correct, rfl⟩, rfl, rfl⟩, rfl⟩

theorem full_initial : (recoveryStart fullSetup).Initial fullSetup := by
  refine recoveryStart_initial fun id correct => ?_
  have isId : id < 3 := mem_range.mp correct
  have cases : id = 0 ∨ id = 1 ∨ id = 2 := by omega
  rcases cases with rfl | rfl | rfl <;> rfl

theorem pair_initial : (recoveryStart setup).Initial setup := by
  refine recoveryStart_initial fun id correct => ?_
  have isId : id = 0 ∨ id = 1 := by simpa [setup] using correct
  rcases isId with rfl | rfl <;> rfl

def spread (index : Nat) : List (RecoveryMove platform) :=
  [.relay 0 1 index, .relay 0 2 index, .relay 1 0 index, .relay 1 2 index, .relay 2 0 index,
    .relay 2 1 index]

def handshake : List (RecoveryMove platform) :=
  List.flatten [[.init 0, .init 1, .init 2], spread 0, spread 1, spread 2, spread 3,
    [.direct 0 2 0, .direct 0 1 1, .direct 1 0 0, .direct 1 2 1, .direct 2 1 0, .direct 2 0 1],
    spread 4]

def fromCorrect (setup : Setup platform) (_ : RecoveryWorld platform) :
    RecoveryEvent platform → Bool
  | .act _ _ (.message source _) => decide (source ∈ setup.correct)
  | _ => true

end Plain

end Abcperf.Nxbft
