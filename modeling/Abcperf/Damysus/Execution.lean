import Abcperf.Damysus.Network
import Abcperf.Damysus.Symbolic

/-! Schedules that can be executed. A move is turned into the event that it stands for in a world,
and playing a list of moves computes a world that a run reaches. -/

namespace Abcperf.Damysus

open Lib.Outcome List Option

variable {P : Platform}

/-- `relay` and `direct` deliver what a correct host has broadcast or sent to the receiver, `inject`
is any message of a host that is not correct. -/
inductive Move (P : Platform)
  | init (id : Nat)
  | relay (source receiver index : Nat)
  | direct (source receiver index : Nat)
  | inject (source receiver : Nat) (message : PeerMessage P)
  | request (id : Nat) (tx : P.Tx)
  | blockTimeout (id : Nat)
  | viewTimeout (id : Nat)
  | addPeer (id peer : Nat) (key : P.PublicKey)
  | call (id : Nat) (request : EnclaveCall P)

structure Player (P : Platform) where
  setup : Setup P
  env : Env P

namespace Player

def arrival (player : Player P) (source receiver : Nat) (sent : PeerMessage P) :
    Option (Event P) :=
  if source = receiver then none
  else some (.deliver source receiver player.env sent.transmitted)

def event (player : Player P) (world : World P) : Move P → Option (Event P)
  | .init id => some (.init id player.env)
  | .relay source receiver index =>
    ((world.history source).broadcasts[index]?).bind (player.arrival source receiver)
  | .direct source receiver index =>
    ((world.history source).unicasts[index]?).bind fun sent =>
      if sent.1 = receiver then player.arrival source receiver sent.2 else none
  | .inject source receiver message =>
    if source ∈ player.setup.correct then none else player.arrival source receiver message
  | .request id tx => some (.request id player.env tx)
  | .blockTimeout id => some (.blockTimeout id player.env)
  | .viewTimeout id => some (.viewTimeout id player.env)
  | .addPeer id peer key => some (.addPeer id peer key)
  | .call id request => some (.call id request)

variable {player : Player P} {world : World P}

theorem arrival_possible {source receiver : Nat} {sent : PeerMessage P} {event : Event P}
    (canSend : source ∈ player.setup.correct → sent ∈ (world.history source).broadcasts ∨
      (receiver, sent) ∈ (world.history source).unicasts)
    (arrives : player.arrival source receiver sent = some event) :
    event.Possible player.setup world := by
  unfold arrival at arrives
  split at arrives
  · cases arrives
  rename_i other
  cases arrives
  exact ⟨other, sent, rfl, canSend⟩

theorem event_possible {move : Move P} {event : Event P}
    (isEvent : player.event world move = some event) : event.Possible player.setup world := by
  cases move with
  | relay source receiver index =>
    obtain ⟨sent, found, arrives⟩ := bind_eq_some_iff.mp isEvent
    exact arrival_possible (fun _ => .inl (mem_of_getElem? found)) arrives
  | direct source receiver index =>
    obtain ⟨⟨target, sent⟩, found, arrives⟩ := bind_eq_some_iff.mp isEvent
    simp only at arrives
    split at arrives
    · next same =>
      subst same
      exact arrival_possible (fun _ => .inr (mem_of_getElem? found)) arrives
    · cases arrives
  | inject source receiver message =>
    simp only [Player.event] at isEvent
    split at isEvent
    · cases isEvent
    · next foreign => exact arrival_possible (fun correct => absurd correct foreign) isEvent
  | init | request | blockTimeout | viewTimeout | addPeer | call =>
    cases isEvent
    trivial

def happen (setup : Setup P) (world : World P) : Event P → Option (World P)
  | .addPeer id peer key => do
    guard (id ∉ setup.correct)
    let enclave ← ((world.enclaves id).addPeer peer key).toOption
    some (world.called id enclave)
  | .call id request => do
    guard (id ∉ setup.correct)
    let (enclave, _) ← ((world.enclaves id).call request).toOption
    some (world.called id enclave)
  | event => do
    guard (event.place ∈ setup.correct)
    let (replica, output) ← (event.handle (world.replicas event.place)).toOption
    some (world.acted event.place replica output)

theorem happen_step {setup : Setup P} {next : World P} {event : Event P}
    (possible : event.Possible setup world) (happens : happen setup world event = some next) :
    Step setup world event next := by
  unfold happen at happens
  split at happens
  all_goals
    simp only [bind_eq_bind, bind_eq_some_iff, guard_eq_some', toOption_eq_some, Prod.exists,
      exists_const] at happens
  · obtain ⟨foreign, enclave, run, same⟩ := happens
    cases same
    exact .addPeer foreign run
  · obtain ⟨foreign, enclave, _, run, same⟩ := happens
    cases same
    exact .call foreign run
  · obtain ⟨correct, replica, output, run, same⟩ := happens
    cases same
    exact .act correct possible run

def play (player : Player P) (allowed : World P → Event P → Bool) (world : World P)
    (moves : List (Move P)) : Option (World P) :=
  moves.foldlM (fun world move => do
    let event ← player.event world move
    guard (allowed world event)
    happen player.setup world event) world

theorem play_run (player : Player P) {allowed : World P → Event P → Bool}
    {permitted : World P → Event P → Prop}
    (sound : ∀ world event, allowed world event = true → permitted world event)
    (initial : world.Initial player.setup) (moves : List (Move P)) {ends : World P → Prop}
    [DecidablePred ends]
    (played : (player.play allowed world moves).any (decide <| ends ·) = true) :
    ∃ last, Run player.setup permitted last ∧ ends last := by
  refine foldlM_reaches ?_ (.start initial) played
  intro world move next run moved
  simp only [bind_eq_bind, bind_eq_some_iff, guard_eq_some', exists_const] at moved
  obtain ⟨event, isEvent, isAllowed, happens⟩ := moved
  exact .step run (sound world event isAllowed) (happen_step (event_possible isEvent) happens)

end Player

namespace Symbolic

def byPrepared (left right : SignedCommitment platform) : Prop :=
  left.getPreparedBlockView ≤ right.getPreparedBlockView

instance : DecidableRel byPrepared := fun left right =>
  inferInstanceAs (Decidable (left.getPreparedBlockView ≤ right.getPreparedBlockView))

instance : Std.Total byPrepared := ⟨fun left right =>
  Nat.le_total left.getPreparedBlockView right.getPreparedBlockView⟩

instance : IsTrans (SignedCommitment platform) byPrepared := ⟨fun _ _ _ => le_trans⟩

def env : Env platform where
  clock view _ reading := 10 * view + reading
  sort commitments := commitments.insertionSort byPrepared
  sorts commitments := ⟨perm_insertionSort byPrepared commitments,
    pairwise_insertionSort byPrepared commitments⟩
  fuel := 30

def config (n id : Nat) : Config platform := ⟨id, n, 0, 1, 0, 1, (⟨id, IdSet.empty⟩ : Trusted), 0⟩

def start (n : Nat) : World platform where
  replicas id := .initial (config n id)
  history _ := Output.empty
  enclaves id := .new id n (n / 2 + 1) (⟨id, IdSet.empty⟩ : Trusted)

def pair : Setup platform where
  n := 2
  correct := Finset.range 2
  config := config 2
  trusted id := (⟨id, IdSet.empty⟩ : Trusted)
  inRange := fun _ => Finset.mem_range.mp
  named := fun _ _ => ⟨rfl, rfl⟩

theorem pair_initial : (start 2).Initial pair :=
  ⟨fun _ _ => ⟨rfl, rfl⟩, fun _ => rfl⟩

/-- Three blocks, the first with a request of client 7; the third one makes both replicas execute
it. -/
def steady : List (Move platform) :=
  [.init 0, .init 1, .request 0 (⟨7, 1⟩ : Transaction), .relay 1 0 0, .relay 0 1 0, .direct 1 0 0,
    .relay 0 1 1, .direct 0 1 0, .relay 1 0 1, .direct 0 1 1, .relay 1 0 2]

/-- Replicas 1 and 2 of three are correct; host 0 leads the first views. -/
def trio : Setup platform where
  n := 3
  correct := {1, 2}
  config := config 3
  trusted id := (⟨id, IdSet.empty⟩ : Trusted)
  inRange := by
    intro id correct
    simp only [Finset.mem_insert, Finset.mem_singleton] at correct
    omega
  named := fun _ _ => ⟨rfl, rfl⟩

theorem trio_initial : (start 3).Initial trio :=
  ⟨fun _ _ => ⟨rfl, rfl⟩, fun _ => rfl⟩

def signedCommitment (creator view blockView : Nat) (blockHash : Hash) (phase : CommitmentPhase)
    (type : CommitmentType) : SignedCommitment platform :=
  ⟨⟨creator, view, 0, Hash.genesis, blockView, blockHash, phase, type⟩,
    (⟨creator, ⟨creator, view, 0, phase, type⟩⟩ : Signature)⟩

def firstAccumulator : SignedCommitment platform :=
  signedCommitment 0 0 0 Hash.genesis .prepare .accumulator

def firstBlock (transactions : List Transaction) : Block platform :=
  .new 0 1 (.quorum firstAccumulator) (some Hash.genesis) transactions

def firstPrepare : SignedCommitment platform :=
  signedCommitment 0 1 1 (firstBlock []).hashValue .prepare .usig

def joining : List (Move platform) :=
  [.init 1, .init 2, .relay 2 1 0, .inject 0 1 ⟨0, .handshake (0 : Nat)⟩, .relay 1 2 0,
    .inject 0 2 ⟨0, .handshake (0 : Nat)⟩, .addPeer 0 0 (0 : Nat), .addPeer 0 1 (1 : Nat),
    .addPeer 0 2 (2 : Nat)]

/-- Host 0 has its enclave prepare one block and hands out two. -/
def twoBlocks : List (Move platform) :=
  [.call 0 .reSignLastPrepared,
    .call 0 (.accumulate [signedCommitment 1 0 0 Hash.genesis .prepare .usig,
      signedCommitment 2 0 0 Hash.genesis .prepare .usig]),
    .call 0 (.prepare 1 (firstBlock []).hashValue (.quorum firstAccumulator) (some Hash.genesis)
      Hash.genesis),
    .inject 0 1 ⟨0, .newBlock (firstBlock [⟨7, 1⟩]) firstPrepare⟩,
    .inject 0 2 ⟨0, .newBlock (firstBlock [⟨7, 2⟩]) firstPrepare⟩]

def twoSuccessors : List (Move platform) :=
  [.direct 2 1 1, .relay 1 2 1, .direct 2 1 2, .relay 1 2 2]

def split : List (Move platform) := List.flatten [joining, twoBlocks, twoSuccessors]

end Symbolic

end Abcperf.Damysus
