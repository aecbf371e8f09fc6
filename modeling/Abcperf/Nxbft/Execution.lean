import Abcperf.Nxbft.Network

/-! Schedules that can be executed. A move says what happens next; playing a list of moves computes
the world it leads to, and that world is one a run reaches. -/

namespace Abcperf.Nxbft

open Lib Lib.Outcome List Option

variable {P : Platform}

/-- `relay` and `direct` deliver what a correct host has broadcast or sent to the receiver, `inject`
is any message of a host that is not correct. -/
inductive Move (P : Platform)
  | init (id : Nat)
  | relay (source receiver index : Nat)
  | direct (source receiver index : Nat)
  | inject (source receiver : Nat) (message : PeerMessage P)
  | request (id : Nat) (tx : P.Tx)
  | timeout (id : Nat)
  | launch (key : P.Key)
  | call (key : P.Key) (request : EnclaveCall P)

def Event.echoNamesSource : Event P → Bool
  | .deliver source _ _ ⟨sender, .helloEcho _ _⟩ => sender == source
  | _ => true

theorem Event.echoNamesSource_sound {event : Event P} (holds : event.echoNamesSource = true) :
    event.EchoNamesSource := by
  unfold echoNamesSource at holds
  split at holds
  · exact eq_of_beq holds
  rename_i other
  unfold EchoNamesSource
  split
  · exact absurd rfl (other _ _ _ _ _ _)
  · trivial

structure Player (P : Platform) where
  setup : Setup P
  env : Env
  genuine : World P → PeerMessage P → Bool
  sound : ∀ world message, genuine world message = true → world.Unforgeable setup message

namespace Player

/-- A correct replica handles an event. -/
def act (player : Player P) (world : World P) (id : Nat) (event : Event P)
    (handle : Replica P → Outcome (Replica P × Output P)) : Option (Event P × World P) := do
  guard (id ∈ player.setup.correct)
  let (replica, output) ← (handle (world.replicas id)).toOption
  some (event, world.acted id replica output)

def deliver (player : Player P) (world : World P) (source receiver : Nat)
    (message : PeerMessage P) : Option (Event P × World P) := do
  guard (source ≠ receiver ∧ player.genuine world message)
  player.act world receiver (.deliver source receiver player.env message) fun replica =>
    handlePeerMessage player.env replica source message

def move (player : Player P) (world : World P) : Move P → Option (Event P × World P)
  | .init id => player.act world id (.init id player.env) (·.initHandshake player.env)
  | .relay source receiver index => do
    player.deliver world source receiver (← (world.history source).broadcasts[index]?)
  | .direct source receiver index => do
    let sent ← (world.history source).unicasts[index]?
    guard (sent.1 = receiver)
    player.deliver world source receiver sent.2
  | .inject source receiver message => do
    guard (source ∉ player.setup.correct)
    player.deliver world source receiver message
  | .request id tx =>
    player.act world id (.request id player.env tx) (·.receiveClientRequest player.env tx)
  | .timeout id => player.act world id (.timeout id player.env) (·.processVertexTimeout player.env)
  | .launch key => do
    guard ((∀ id ∈ player.setup.correct, (player.setup.config id).enclave ≠ key) ∧
      world.enclaves key = none)
    some (.launch key, { world with
      enclaves := Function.update world.enclaves key (some (.new player.setup.n key)) })
  | .call key request => do
    let before ← world.enclaves key
    let (after, signed) ← (request.run before).toOption
    some (.call key request, { world with
      enclaves := Function.update world.enclaves key (some after)
      issued := Function.update world.issued key (world.issued key ++ signed) })

variable {player : Player P} {world next : World P} {event : Event P}

theorem act_some {id : Nat} {happened : Event P}
    {handle : Replica P → Outcome (Replica P × Output P)}
    (run : player.act world id happened handle = some (event, next)) :
    event = happened ∧ id ∈ player.setup.correct ∧ ∃ replica output,
      handle (world.replicas id) = .ok (replica, output) ∧
      next = world.acted id replica output := by
  simp only [act, bind_eq_bind, bind_eq_some_iff, guard_eq_some', toOption_eq_some, Prod.exists,
    exists_const] at run
  obtain ⟨correct, replica, output, handled, same⟩ := run
  cases same
  exact ⟨rfl, correct, replica, output, handled, rfl⟩

theorem deliver_step {source receiver : Nat} {message : PeerMessage P}
    (sent : world.CanSend player.setup source receiver message)
    (run : player.deliver world source receiver message = some (event, next)) :
    Step player.setup world event next := by
  simp only [deliver, bind_eq_bind, bind_eq_some_iff, guard_eq_some', exists_const] at run
  obtain ⟨⟨other, genuine⟩, run⟩ := run
  obtain ⟨rfl, correct, replica, output, handled, rfl⟩ := act_some run
  exact .deliver correct other sent (player.sound world message genuine) handled

theorem move_step {move : Move P} (run : player.move world move = some (event, next)) :
    Step player.setup world event next := by
  cases move with
  | init id =>
    obtain ⟨rfl, correct, replica, output, handled, rfl⟩ := act_some run
    exact .init correct handled
  | request id tx =>
    rw [Player.move] at run
    obtain ⟨rfl, correct, replica, output, handled, rfl⟩ := act_some run
    exact .request correct handled
  | timeout id =>
    rw [Player.move] at run
    obtain ⟨rfl, correct, replica, output, handled, rfl⟩ := act_some run
    exact .timeout correct handled
  | relay source receiver index =>
    obtain ⟨message, found, run⟩ := bind_eq_some_iff.mp run
    exact deliver_step (fun _ => .inl (mem_of_getElem? found)) run
  | direct source receiver index =>
    simp only [Player.move, bind_eq_bind, bind_eq_some_iff, guard_eq_some', exists_const] at run
    obtain ⟨⟨target, message⟩, found, rfl, run⟩ := run
    exact deliver_step (fun _ => .inr (mem_of_getElem? found)) run
  | inject source receiver message =>
    simp only [Player.move, bind_eq_bind, bind_eq_some_iff, guard_eq_some', exists_const] at run
    exact deliver_step (fun correct => absurd correct run.1) run.2
  | launch key =>
    simp only [Player.move, bind_eq_bind, bind_eq_some_iff, guard_eq_some', exists_const] at run
    obtain ⟨⟨unused, idle⟩, same⟩ := run
    cases same
    exact .launch unused idle
  | call key request =>
    simp only [Player.move, bind_eq_bind, bind_eq_some_iff, toOption_eq_some, Prod.exists] at run
    obtain ⟨before, running, after, signed, handled, same⟩ := run
    cases same
    exact .call running handled

def play (player : Player P) (allowed : Event P → Bool) (world : World P) (moves : List (Move P)) :
    Option (World P) :=
  moves.foldlM (fun world move => do
    let (event, next) ← player.move world move
    guard (allowed event)
    some next) world

theorem play_run (player : Player P) {allowed : Event P → Bool} {permitted : Event P → Prop}
    (sound : ∀ event, allowed event = true → permitted event)
    (initial : world.Initial player.setup) (moves : List (Move P)) {ends : World P → Prop}
    [DecidablePred ends]
    (played : (player.play allowed world moves).any (decide <| ends ·) = true) :
    ∃ last, Run player.setup permitted last ∧ ends last := by
  refine foldlM_reaches ?_ (.start initial) played
  intro world move next run moved
  simp only [bind_eq_bind, bind_eq_some_iff, guard_eq_some', Prod.exists, exists_const] at moved
  obtain ⟨event, _, moved, isAllowed, same⟩ := moved
  cases same
  exact .step run (sound event isAllowed) (move_step moved)

end Player

namespace Plain

/-- The ranges with their values, the newest first. -/
abbrev Ranges (Value : Type) :=
  { ranges : List (Nat × Nat × Value) // ∀ range ∈ ranges, range.1 ≤ range.2.1 }

namespace Ranges

variable {Value : Type} {map : Ranges Value} {key last : Nat}

def get (map : Ranges Value) (key : Nat) : Option Value :=
  (map.1.find? fun range => range.1 ≤ key && key ≤ range.2.1).map (·.2.2)

theorem get_none : map.get key = none ↔ ∀ range ∈ map.1, ¬ (range.1 ≤ key ∧ key ≤ range.2.1) := by
  simp [get]

def insert (map : Ranges Value) (first last : Nat) (value : Value) : Outcome (Ranges Value) :=
  if low : first ≤ last then
    .ok ⟨(first, last, value) :: map.1, forall_mem_cons.mpr ⟨low, map.2⟩⟩
  else .error .assertion

def lastRangeEnd (map : Ranges Value) : Option Nat := (map.1.map (·.2.1)).max?

theorem lastRangeEnd_none (isEnd : map.lastRangeEnd = none) (key : Nat) : map.get key = none := by
  rw [lastRangeEnd, max?_eq_none_iff, map_eq_nil_iff] at isEnd
  rw [get, isEnd]
  rfl

theorem lastRangeEnd_some (isEnd : map.lastRangeEnd = some last) :
    (map.get last).isSome ∧ ∀ key, last < key → map.get key = none := by
  obtain ⟨member, greatest⟩ := max?_eq_some_iff.mp isEnd
  obtain ⟨range, isRange, rfl⟩ := mem_map.mp member
  refine ⟨?_, fun key beyond => get_none.mpr fun other isOther => ?_⟩
  · rw [← Option.ne_none_iff_isSome, ne_eq, get_none]
    exact fun outside => outside range isRange ⟨map.2 range isRange, le_rfl⟩
  · have := greatest _ (mem_map_of_mem isOther)
    omega

end Ranges

def ranges (Value : Type) : RangeInclusiveMap Value where
  Map := Ranges Value
  new := ⟨[], nofun⟩
  insert := Ranges.insert
  get := Ranges.get
  lastRangeEnd := Ranges.lastRangeEnd
  get_new _ := rfl
  insert_returns map first last value := by
    unfold Ranges.insert
    split <;> simp [*]
  get_insert map first last value next inserted key := by
    unfold Ranges.insert at inserted
    split at inserted
    · cases inserted
      by_cases inside : first ≤ key ∧ key ≤ last <;> simp [Ranges.get, inside]
    · cases inserted
  lastRangeEnd_none _ := Ranges.lastRangeEnd_none
  lastRangeEnd_some _ _ := Ranges.lastRangeEnd_some

abbrev Hash := Nat × Nat × List (Nat × Nat) × List Nat

/-- Nothing is hidden here: a hash is what was hashed, a signature names its key and what it signs,
and every coin falls on replica 1. -/
abbrev platform : Platform where
  Tx := Nat × Nat
  clientId := Prod.fst
  requestId := Prod.snd
  TransactionsHash := List (Nat × Nat)
  Hash := Hash
  transactionsHash := id
  vertexHash round creator txs edges := (round, creator, txs, edges)
  Key := Nat
  Attestation := Nat
  Error := Unit
  Handshake := Nat × Nat × BitVec 256
  Signature := Nat × Nat × Hash
  ranges := ranges Nat
  attestationEq := inferInstance
  keyEq := inferInstance
  genSeedShare key := .ok (BitVec.ofNat 256 (4 * key + 1))
  sealSeedShare key attestation share := .ok (key, attestation, share)
  unsealSeedShare key handshake attestation :=
    if handshake.1 = attestation ∧ handshake.2.1 = key ∧
        handshake.2.2 = BitVec.ofNat 256 (4 * handshake.1 + 1) then .ok handshake.2.2
    else .error ()
  sign key hash counter := .ok (key, counter, hash)
  verify attestation counter hash signature := .ok (signature == (attestation, counter, hash))
  attestationCertificate := .ok
  Rng := Unit
  fromSeed _ := ()
  sample _ _ := (1, ())

theorem secure : Secure platform where
  distinct := by
    intro left right attestation isLeft isRight
    exact Except.ok.inj (isLeft.trans isRight.symm)
  collisionFree := by
    intro left right same
    obtain ⟨round, creator, transactions, edges⟩ := by
      simpa only [Vertex.hash, SignableVertex.toHash, Vertex.signable, SignableVertex.new,
        Prod.mk.injEq, id_eq] using same
    exact ⟨congrArg₂ DagAddress.mk round creator, IdSet.ext_ids edges⟩
  exclusive := by
    intro key hash counter signature attestation signed verified
    cases signed
    have same := eq_of_beq (Except.ok.inj verified)
    exact congrArg Except.ok (congrArg Prod.fst same)

theorem binds : platform.BindsTransactions := by
  intro left right same
  simp only [Vertex.hash, SignableVertex.toHash, Vertex.signable, SignableVertex.new,
    Prod.mk.injEq, id_eq] at same
  exact same.2.2.1

/-- Replicas 0 and 1 of three are correct, and the enclave of a replica has its id as key. -/
def setup : Setup platform where
  n := 3
  correct := {0, 1}
  config id := ⟨id, 3, 0, 1, 1, id, 0⟩
  named := fun _ _ => ⟨rfl, rfl⟩
  ownKey := fun _ _ _ _ same => same

def fullSetup : Setup platform where
  n := 3
  correct := Finset.range 3
  config id := ⟨id, 3, 0, 1, 1, id, 0⟩
  named := fun _ _ => ⟨rfl, rfl⟩
  ownKey := fun _ _ _ _ same => same

/-- The vertex of a message was signed by the enclave that its signature names. -/
def genuineAmong (correct : Finset Nat) (world : World platform) (message : PeerMessage platform) :
    Bool :=
  match message.message.vertex with
  | none => true
  | some vertex =>
    !(vertex.signature.2.1 == vertex.counter && vertex.signature.2.2 == vertex.hash) ||
      (world.issued vertex.signature.1).contains (vertex.counter, vertex.hash) ||
      (decide (vertex.signature.1 ∈ correct) &&
        (signedBy (world.history vertex.signature.1)).any fun other =>
          other.counter == vertex.counter && other.hash == vertex.hash)

theorem genuineAmong_sound {setup : Setup platform} (keys : ∀ id, (setup.config id).enclave = id)
    (world : World platform) (message : PeerMessage platform)
    (isGenuine : genuineAmong setup.correct world message = true) :
    world.Unforgeable setup message := by
  intro vertex carries attestation verified
  have same := eq_of_beq (Except.ok.inj verified)
  simp only [genuineAmong, carries, same, beq_self_eq_true, Bool.and_self, Bool.not_true,
    Bool.false_or, Bool.or_eq_true, contains_iff_mem, Bool.and_eq_true, decide_eq_true_eq,
    List.any_eq_true, beq_iff_eq] at isGenuine
  refine ⟨attestation, rfl, ?_⟩
  rcases isGenuine with issued | ⟨correct, other, member, counter, hash⟩
  · exact .inr issued
  · exact .inl ⟨attestation, correct, keys attestation, other, member, counter, hash⟩

def player : Player platform where
  setup := setup
  env := ⟨fun round reading => 10 * round + reading, false, 200⟩
  genuine := genuineAmong setup.correct
  sound := genuineAmong_sound fun _ => rfl

def start : World platform where
  replicas id := .initial (setup.config id)
  history _ := Output.empty
  enclaves _ := none
  issued _ := []

theorem start_initial : start.Initial setup := by
  refine ⟨?_, fun _ => ⟨rfl, rfl⟩⟩
  intro id correct
  have isId : id = 0 ∨ id = 1 := by simpa [setup] using correct
  rcases isId with rfl | rfl <;> exact ⟨rfl, rfl⟩

def share (sender receiver : Nat) : Nat × Nat × BitVec 256 :=
  (sender, receiver, BitVec.ofNat 256 (4 * sender + 1))

/-- What host 2 does with its enclave: it exchanges shares with the two others. -/
def enclaveTwo : List (Move platform) :=
  [.launch 2, .call 2 .init, .call 2 (.initPeerHandshake 0 0), .call 2 (.initPeerHandshake 1 1),
    .call 2 (.initPeerHandshake 2 2), .call 2 (.completePeerHandshake 0 (share 0 2)),
    .call 2 (.completePeerHandshake 1 (share 1 2)), .call 2 (.completePeerHandshake 2 (share 2 2))]

def faithfulHandshake : List (Move platform) :=
  [.relay 1 0 0, .inject 2 0 ⟨2, .hello 2⟩, .relay 0 1 0, .inject 2 1 ⟨2, .hello 2⟩,
    .relay 1 0 1, .relay 1 0 2, .relay 1 0 3, .inject 2 0 ⟨2, .helloEcho 0 0⟩,
    .inject 2 0 ⟨2, .helloEcho 1 1⟩, .inject 2 0 ⟨2, .helloEcho 2 2⟩,
    .relay 0 1 1, .relay 0 1 2, .relay 0 1 3, .inject 2 1 ⟨2, .helloEcho 0 0⟩,
    .inject 2 1 ⟨2, .helloEcho 1 1⟩, .inject 2 1 ⟨2, .helloEcho 2 2⟩,
    .direct 1 0 0, .inject 2 0 ⟨2, .helloReply (share 2 0)⟩,
    .direct 0 1 0, .inject 2 1 ⟨2, .helloReply (share 2 1)⟩]

def allReady : List (Move platform) :=
  [.relay 1 0 4, .inject 2 0 ⟨2, .ready⟩, .relay 0 1 4, .inject 2 1 ⟨2, .ready⟩]

def faithfulRounds : List (Move platform) :=
  [.request 1 (7, 1), .timeout 0, .relay 0 1 5, .relay 1 0 5, .relay 0 1 6, .relay 1 0 6,
    .relay 0 1 7, .relay 1 0 7, .relay 0 1 8, .relay 1 0 8]

/-- Host 2 takes part in the handshake and then stays silent. -/
def faithful : List (Move platform) :=
  List.flatten [[.init 0, .init 1], enclaveTwo, faithfulHandshake, allReady, faithfulRounds]

/-- A vertex that names replica 1 as its creator and is signed by enclave 2. -/
def spoofedVertex (round counter : Nat) (edges : IdSet) (txs : List (Nat × Nat)) :
    Vertex platform :=
  ⟨⟨round, 1⟩, edges, txs, (2, counter, (round, 1, txs, edges.iter)), counter⟩

def spoofVertex (round counter : Nat) (edges : IdSet) (txs : List (Nat × Nat)) :
    List (Move platform) :=
  [.call 2 (.sign (spoofedVertex round counter edges txs).hash),
    .inject 2 0 ⟨1, .signed ⟨spoofedVertex round counter edges txs⟩⟩]

/-- To replica 0, host 2 presents its own enclave as that of replica 1 and the enclave of replica 1
as its own, and it echoes both in the name of the others. -/
def spoofedHandshake : List (Move platform) :=
  [.inject 2 0 ⟨1, .hello 2⟩, .inject 2 0 ⟨2, .hello 1⟩,
    .inject 2 0 ⟨1, .helloEcho 0 0⟩, .inject 2 0 ⟨2, .helloEcho 0 0⟩,
    .inject 2 0 ⟨1, .helloEcho 1 2⟩, .inject 2 0 ⟨2, .helloEcho 1 2⟩,
    .inject 2 0 ⟨1, .helloEcho 2 1⟩, .inject 2 0 ⟨2, .helloEcho 2 1⟩,
    .inject 2 0 ⟨1, .helloReply (share 2 0)⟩, .inject 2 0 ⟨2, .helloReply (share 1 0)⟩]

/-- Replica 1 sees every enclave under its right id. -/
def rightHandshake : List (Move platform) :=
  [.relay 0 1 0, .inject 2 1 ⟨2, .hello 2⟩, .relay 0 1 1, .inject 2 1 ⟨2, .helloEcho 0 0⟩,
    .inject 2 1 ⟨0, .helloEcho 1 1⟩, .inject 2 1 ⟨2, .helloEcho 1 1⟩,
    .inject 2 1 ⟨0, .helloEcho 2 2⟩, .inject 2 1 ⟨2, .helloEcho 2 2⟩,
    .inject 2 1 ⟨0, .helloReply (share 0 1)⟩, .inject 2 1 ⟨2, .helloReply (share 2 1)⟩]

/-- Replica 0 builds its graph on vertices of enclave 2, replica 1 on its own. -/
def spoofedRounds : List (Move platform) :=
  let both := (IdSet.empty.insert 0).insert 1
  List.flatten [[.request 1 (7, 2), .timeout 0], spoofVertex 1 0 IdSet.empty [(7, 1)],
    spoofVertex 2 1 both [], spoofVertex 3 2 both [], spoofVertex 4 3 both [],
    [.relay 0 1 5, .relay 0 1 6, .relay 0 1 7, .relay 0 1 8]]

def spoofed : List (Move platform) :=
  List.flatten [[.init 0, .init 1], enclaveTwo, spoofedHandshake, rightHandshake, allReady,
    spoofedRounds]

end Plain

end Abcperf.Nxbft
