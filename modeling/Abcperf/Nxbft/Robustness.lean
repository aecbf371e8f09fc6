import Abcperf.Nxbft.Rounds
import Abcperf.Nxbft.Validity

/-! No peer message makes a started replica stop in runs whose vertices and requests are proper. A
signed vertex of round 0, or a request for a vertex of an unknown replica, makes it panic: nothing
checks them before the graph does. -/

namespace Abcperf.Nxbft

open Lib Lib.Outcome Plain Replica List Option

variable {P : Platform}

def Platform.Generates (P : Platform) : Prop := ∀ key, ∃ share, P.genSeedShare key = .ok share

structure Setup.Sensible (setup : Setup P) : Prop where
  generates : P.Generates
  samples : ∀ rng, (P.sample setup.n rng).1 < setup.n
  sized : ∀ id ∈ setup.correct, 0 < (setup.config id).minVertexSize

namespace Replica

def machine (env : Env) : Reflector (Replica P) (Output P) (PeerMessage P) where
  dispatch := dispatch env
  take replica :=
    ({ replica with output := .new replica.me }, replica.output.output,
      replica.output.reflectionMessages)
  join := Output.append
  join_assoc := Output.append_assoc

theorem processPeerMessage_machine (env : Env) : ∀ (fuel : Nat) (replica : Replica P)
    (message : PeerMessage P),
    processPeerMessage env fuel replica message = (machine env).process fuel replica message := by
  intro fuel
  induction fuel with
  | zero => exact fun _ _ => rfl
  | succ fuel ih =>
    intro replica message
    have same : processPeerMessage env fuel = (machine (P := P) env).process fuel := by
      funext state pending
      exact ih state pending
    rw [processPeerMessage, Reflector.process, same]
    rfl

theorem reflect_machine (env : Env) (replica : Replica P) :
    replica.reflect env = (machine env).reflect env.fuel replica := by
  have same : processPeerMessage env env.fuel = (machine (P := P) env).process env.fuel := by
    funext state pending
    exact processPeerMessage_machine env env.fuel state pending
  rw [reflect, same]
  rfl

variable {excused : Panic → Prop} {top ceiling n : Nat} {env : Env} {replica : Replica P}

theorem machine_ranked (samples : ∀ rng, (P.sample n rng).1 < n)
    (affords : Affords excused top ceiling n env.fuel) : (machine (P := P) env).Ranked excused
      (fun replica => Fit top ceiling replica ∧ replica.enclave.seedShare.isSome ∧ replica.n = n)
      (fun before after => after.n = before.n ∧ after.me = before.me ∧ before.round ≤ after.round)
      (fun replica message => replica.Takes top ceiling message)
      (fun replica message => rank top replica.round message.message) where
  trans := fun left right =>
    ⟨right.1.trans left.1, right.2.1.trans left.2.1, le_trans left.2.2 right.2.2⟩
  dispatch := by
    rintro replica message ⟨fit, started, rfl⟩ quiet admitted
    refine (dispatch_returns samples fit started affords admitted).imp ?_
    rintro next ⟨fitNext, goes⟩
    refine ⟨⟨fitNext, goes.share started, goes.n⟩, ⟨goes.n, goes.me, goes.round⟩, ?_⟩
    intro pending member
    rcases goes.sent pending member with old | ⟨isAdmitted, low⟩
    · change replica.output.reflectionMessages = [] at quiet
      rw [quiet] at old
      cases old
    · exact ⟨isAdmitted.of_same goes.n.symm goes.me.symm, low⟩
  take := by
    rintro replica ⟨fit, started, size⟩
    exact ⟨⟨{ fit with outputMe := rfl, buffers := { fit.buffers with } }, started, size⟩, rfl, rfl,
      rfl, le_rfl⟩
  later := by
    rintro before after message ⟨sameN, sameMe, grown⟩ admitted
    exact ⟨admitted.of_same sameN.symm sameMe.symm, rank_anti grown _⟩

structure Rests (top ceiling : Nat) (replica : Replica P) :
    Prop extends Fit top ceiling replica where
  quiet : replica.output.reflectionMessages = []

theorem processPeerMessage_returns (samples : ∀ rng, (P.sample replica.n rng).1 < replica.n)
    (rests : Rests top ceiling replica) (started : replica.enclave.seedShare.isSome)
    (affords : Affords excused top ceiling replica.n env.fuel) {message : PeerMessage P}
    (admitted : replica.Takes top ceiling message) :
    Returns excused (fun result => Rests top ceiling result.1 ∧
      result.1.enclave.seedShare.isSome ∧ result.1.n = replica.n)
      (replica.processPeerMessage env env.fuel message) := by
  rw [processPeerMessage_machine]
  refine ((machine_ranked samples affords).process_returns env.fuel
    ⟨rests.toFit, started, rfl⟩ rests.quiet admitted fun long => ?_).imp ?_
  · have := affords long
    have bounded : rank top replica.round message.message ≤ top + 3 := by
      cases message.message <;> simp only [rank] <;> omega
    omega
  · rintro ⟨next, output⟩ ⟨⟨fit, share, size⟩, quiet, -⟩
    exact ⟨{ fit with quiet }, share, size⟩

variable {next : Replica P} {output : Output P}

theorem reflect_rests (samples : ∀ rng, (P.sample replica.n rng).1 < replica.n)
    (fit : Fit top ceiling replica) (started : replica.enclave.seedShare.isSome)
    (sent : ∀ message ∈ replica.output.reflectionMessages, replica.Takes top ceiling message)
    (run : replica.reflect env = .ok (next, output)) :
    Rests top ceiling next ∧ next.enclave.seedShare.isSome ∧ next.n = replica.n := by
  rw [reflect_machine] at run
  have returns : Returns (fun _ => True) _ ((machine env).reflect env.fuel replica) :=
    (machine_ranked samples fun long => absurd trivial long).reflect_returns env.fuel
      ⟨fit, started, rfl⟩ fun message member =>
        ⟨(sent message member).of_same rfl rfl, fun long => absurd trivial long⟩
  obtain ⟨⟨fitNext, share, size⟩, quiet, -⟩ := returns.value run
  exact ⟨{ fitNext with quiet }, share, size⟩

theorem reflect_idle (fit : Fit top ceiling replica)
    (quiet : replica.output.reflectionMessages = [])
    (run : replica.reflect env = .ok (next, output)) :
    Rests top ceiling next ∧ next.enclave = replica.enclave ∧ next.n = replica.n := by
  simp only [reflect, reflectWith, quiet, foldlM_nil, pair_ok] at run
  obtain ⟨rfl, rfl⟩ := run
  exact ⟨{ fit with outputMe := rfl, quiet := rfl, buffers := { fit.buffers with } }, rfl, rfl⟩

theorem Fit.widen (fit : Fit top ceiling replica) {top' ceiling' : Nat} (higher : top ≤ top')
    (larger : ceiling ≤ ceiling')
    (room : replica.enclave.c + (top' + 2 - replica.round) ≤ ceiling') :
    Fit top' ceiling' replica :=
  { fit with
    low := le_trans fit.low (Nat.succ_le_succ higher)
    known := fun address known foreign => le_trans (fit.known address known foreign) higher
    room := room
    waiting := fun creator message member => by
      obtain ⟨welcome, low, inRange⟩ := fit.waiting creator message member
      exact ⟨⟨welcome.1, fun foreign => le_trans (welcome.2 foreign) higher⟩,
        lt_of_lt_of_le low larger, inRange⟩
    buffers := {
      each := fun vertex member => by
        obtain ⟨welcome, rest⟩ := fit.buffers.each vertex member
        exact ⟨⟨welcome.1, fun foreign => le_trans (welcome.2 foreign) higher⟩, rest⟩
      distinct := fit.buffers.distinct } }

theorem Rests.admitting (rests : Rests top ceiling replica) {message : PeerMessage P}
    (proper : message.message.Proper replica.n) :
    ∃ top ceiling, Rests top ceiling replica ∧ replica.Takes top ceiling message := by
  obtain ⟨sender, content⟩ := message
  cases content with
  | signed wrapped =>
    refine ⟨max top wrapped.payload.round, max ceiling (max (wrapped.counter + 1)
      (replica.enclave.c + (max top wrapped.payload.round + 2))), { rests.toFit.widen
        (Nat.le_max_left ..) (Nat.le_max_left ..) (by omega) with quiet :=
          rests.quiet }, proper, ?_⟩
    intro other isOther
    cases isOther
    exact ⟨by omega, fun _ => Nat.le_max_right ..⟩
  | hello _ | helloEcho _ _ | helloReply _ | ready | vertexRequest _ =>
    exact ⟨top, ceiling, rests, proper, fun other isOther => by cases isOther⟩

def RestsAgain (before after : Replica P) : Prop :=
  (∃ top ceiling, Rests top ceiling after) ∧ after.n = before.n ∧
    (before.enclave.seedShare.isSome → after.enclave.seedShare.isSome)

section

variable (samples : ∀ rng, (P.sample replica.n rng).1 < replica.n)
  (rests : Rests top ceiling replica)

include samples rests

theorem createVertex_rests (ready : replica.ready = true) {allowed : Bool} {created : Replica P}
    (creates : replica.createVertex env allowed = .ok created)
    (run : created.reflect env = .ok (next, output)) : RestsAgain replica next := by
  -- the counter that is used up may be above what was bounded so far
  have wide := rests.toFit.widen le_rfl
      (Nat.le_max_left ceiling (replica.enclave.c + 1 + (top + 2)))
    (by have := rests.toFit.room; omega)
  have returns : Returns (fun _ => True) _ (replica.createVertex env allowed) :=
    createVertex_returns wide (by omega) allowed
  obtain ⟨fit, goes, -⟩ := returns.value creates
  obtain ⟨restsNext, share, size⟩ := reflect_rests (by rw [goes.n]; exact samples) fit
    (goes.share (rests.started ready)) (fun message member => by
      rcases goes.sent message member with old | ⟨isTaken, -⟩
      · rw [rests.quiet] at old
        cases old
      · exact isTaken.of_same goes.n.symm goes.me.symm) run
  exact ⟨⟨_, _, restsNext⟩, size.trans goes.n, fun _ => share⟩

theorem receiveClientRequest_rests {tx : P.Tx}
    (run : replica.receiveClientRequest env tx = .ok (next, output)) : RestsAgain replica next := by
  have stored : Rests top ceiling { replica with
      pendingClientRequests := replica.pendingClientRequests.insert tx } :=
    { rests with buffers := { rests.buffers with } }
  simp only [receiveClientRequest] at run
  split at run
  · next due =>
    obtain ⟨created, creates, run⟩ := bind_ok.mp run
    simp only [Bool.and_eq_true] at due
    have again := createVertex_rests (by exact samples) stored due.1.1 creates run
    exact again
  · obtain ⟨restsNext, same, size⟩ := reflect_idle stored.toFit stored.quiet run
    exact ⟨⟨_, _, restsNext⟩, size, fun started => same ▸ started⟩

theorem processVertexTimeout_rests (run : replica.processVertexTimeout env = .ok (next, output)) :
    RestsAgain replica next := by
  simp only [processVertexTimeout] at run
  split at run
  · next due =>
    obtain ⟨created, creates, run⟩ := bind_ok.mp run
    simp only [Bool.and_eq_true] at due
    exact createVertex_rests samples rests due.1.1 creates run
  · obtain ⟨restsNext, same, size⟩ := reflect_idle rests.toFit rests.quiet run
    exact ⟨⟨_, _, restsNext⟩, size, fun started => same ▸ started⟩

end

theorem initHandshake_rests (generates : P.Generates)
    (samples : ∀ rng, (P.sample replica.n rng).1 < replica.n) (rests : Rests top ceiling replica)
    (run : replica.initHandshake env = .ok (next, output)) :
    RestsAgain replica next ∧ next.enclave.seedShare.isSome := by
  simp only [initHandshake, bind_ok, assert_ok, exists_and_left, Prod.exists] at run
  obtain ⟨unready, -, enclave, result, initialised, run⟩ := run
  obtain ⟨share, isShare⟩ := generates replica.enclave.enclave
  -- the share is there, since generating it succeeds
  have isInit : enclave = { replica.enclave with seedShare := some share } ∧ result = .ok () := by
    simp only [EnclaveAutomata.init, bind_ok, assert_ok, exists_and_left, isShare, pure_ok,
      Prod.mk.injEq] at initialised
    obtain ⟨-, isEnclave, -, isResult⟩ := initialised
    exact ⟨isEnclave.symm, isResult.symm⟩
  obtain ⟨drawn, sound⟩ := rests.enclave
  have later := EnclaveAutomata.init_sound sound initialised
  obtain ⟨rfl, rfl⟩ := isInit
  have fit : Fit top ceiling { replica with
      enclave := { replica.enclave with seedShare := some share } } :=
    { rests.toFit with
      enclave := ⟨drawn, later⟩
      started := fun _ => rfl
      buffers := { rests.buffers with } }
  dsimp only at run
  split at run
  · obtain ⟨restsNext, same, size⟩ := reflect_idle (fit.stateMessage _) rests.quiet run
    have isSome : next.enclave.seedShare.isSome := by
      rw [same]
      rfl
    exact ⟨⟨⟨_, _, restsNext⟩, size, fun _ => isSome⟩, isSome⟩
  rename_i attestation _
  have greets : Fit top ceiling ({ replica with
      enclave := { replica.enclave with seedShare := some share } }.broadcast
        (.hello attestation)) := { fit with buffers := { fit.buffers with } }
  obtain ⟨restsNext, isSome, size⟩ := reflect_rests (by exact samples) greets rfl
    (forall_mem_concat (by rw [rests.quiet]; nofun) (takes_plain trivial rfl)) run
  exact ⟨⟨⟨_, _, restsNext⟩, size, fun _ => isSome⟩, isSome⟩

theorem new_rests {config : Config P} (sized : 0 < config.minVertexSize)
    (run : new config = .ok replica) : Rests 0 2 replica := by
  simp only [new, bind_ok, assert_ok, exists_and_left, pure_ok] at run
  obtain ⟨enough, inRange, -, -, -, -, -, -, rfl⟩ := run
  exact {
    enough := enough
    quorum := rfl
    inRange := inRange
    outputMe := rfl
    sized := sized
    dagN := rfl
    graph := Dag.wellFormed_new _ _
    counted := Dag.counted_new _
    level := rfl
    positive := Nat.one_pos
    low := le_rfl
    known := fun address known => by simp [initial] at known
    enclave := ⟨[], EnclaveAutomata.new_sound enough _⟩
    started := fun ready => by cases ready
    coins := fun wave later due => by
      have first : 4 * wave < 4 := due
      have undecided : 0 < wave := later
      omega
    room := Nat.le_succ 1
    waiting := fun creator message member => by cases member
    counters := fun creator => nodup_nil
    requests := fun address waiting isWaiting => by cases isWaiting
    buffers := ⟨fun vertex member => (by cases member), nodup_nil⟩
    quiet := rfl }

end Replica

/-- A vertex that reaches a replica has a round with a predecessor and edges to replicas, a request
names a replica, and messages reach a replica after it has begun the handshake. -/
def Tame (setup : Setup P) (events : List (Event P)) : Event P → Prop
  | .deliver _ receiver _ message =>
    message.message.Proper setup.n ∧ ∃ env, Event.init receiver env ∈ events
  | _ => True

namespace World

structure Sturdy (setup : Setup P) (events : List (Event P)) (world : World P) (id : Nat) :
    Prop where
  rests : ∃ top ceiling, (world.replicas id).Rests top ceiling
  size : (world.replicas id).n = setup.n
  started : (∃ env, Event.init id env ∈ events) → (world.replicas id).enclave.seedShare.isSome

variable {setup : Setup P} {events : List (Event P)} {world next : World P}

theorem Sturdy.acted {event : Event P} {id : Nat} (sturdy : world.Sturdy setup events id)
    {other : Nat} {replica : Replica P} {output : Output P}
    (again : other = id → (world.replicas id).RestsAgain replica ∧
      ((∃ env, event = .init id env) → replica.enclave.seedShare.isSome))
    (isPlace : ∀ env, event = .init id env → other = id) :
    (world.acted other replica output).Sturdy setup (events ++ [event]) id := by
  by_cases same : other = id
  · obtain ⟨⟨rests, size, share⟩, fresh⟩ := again same
    subst same
    have isReplica : (world.acted other replica output).replicas other = replica :=
      Function.update_self ..
    refine ⟨by rw [isReplica]; exact rests, by rw [isReplica, size, sturdy.size], ?_⟩
    rintro ⟨env, member⟩
    rw [isReplica]
    rcases mem_append.mp member with old | isLast
    · exact share (sturdy.started ⟨env, old⟩)
    · exact fresh ⟨env, (mem_singleton.mp isLast).symm⟩
  have isReplica : (world.acted other replica output).replicas id = world.replicas id :=
    Function.update_of_ne (Ne.symm same) ..
  refine ⟨by rw [isReplica]; exact sturdy.rests, by rw [isReplica]; exact sturdy.size, ?_⟩
  rintro ⟨env, member⟩
  rw [isReplica]
  rcases mem_append.mp member with old | isLast
  · exact sturdy.started ⟨env, old⟩
  · exact absurd (isPlace env (mem_singleton.mp isLast).symm) same

theorem step_sturdy (sensible : setup.Sensible) {event : Event P} {id : Nat}
    (sturdy : world.Sturdy setup events id) (tame : Tame setup events event)
    (step : Step setup world event next) : next.Sturdy setup (events ++ [event]) id := by
  have samples : ∀ rng, (P.sample (world.replicas id).n rng).1 < (world.replicas id).n := by
    rw [sturdy.size]
    exact sensible.samples
  obtain ⟨top, ceiling, rests⟩ := sturdy.rests
  cases step with
  | init correct run =>
    refine sturdy.acted (fun same => ?_) fun env isInit => by cases isInit; rfl
    subst same
    obtain ⟨again, share⟩ := initHandshake_rests sensible.generates samples rests run
    exact ⟨again, fun _ => share⟩
  | @deliver source receiver env message _ _ correct other sent unforgeable run =>
    refine sturdy.acted (fun same => ⟨?_, ?_⟩) fun env isInit => by cases isInit
    · subst same
      obtain ⟨top, ceiling, rests, taken⟩ := rests.admitting (by rw [sturdy.size]; exact tame.1)
      have returns : Returns (fun _ => True) _
          (handlePeerMessage env (world.replicas receiver) source message) :=
        processPeerMessage_returns samples rests (sturdy.started tame.2)
          (fun long => absurd trivial long) taken
      obtain ⟨restsNext, share, size⟩ := returns.value run
      exact ⟨⟨_, _, restsNext⟩, size, fun _ => share⟩
    · rintro ⟨env, isInit⟩
      cases isInit
  | request correct run =>
    refine sturdy.acted (fun same => ⟨?_, ?_⟩) fun env isInit => by cases isInit
    · subst same
      exact receiveClientRequest_rests samples rests run
    · rintro ⟨env, isInit⟩
      cases isInit
  | timeout correct run =>
    refine sturdy.acted (fun same => ⟨?_, ?_⟩) fun env isInit => by cases isInit
    · subst same
      exact processVertexTimeout_rests samples rests run
    · rintro ⟨env, isInit⟩
      cases isInit
  | launch _ _ | call _ _ =>
    refine ⟨sturdy.rests, sturdy.size, ?_⟩
    rintro ⟨env, member⟩
    rcases mem_append.mp member with old | isLast
    · exact sturdy.started ⟨env, old⟩
    · cases mem_singleton.mp isLast

theorem trace_sturdy (sensible : setup.Sensible)
    (trace : Trace setup (fun _ => Tame setup) events world) {id : Nat}
    (correct : id ∈ setup.correct) : world.Sturdy setup events id := by
  induction trace with
  | start initial =>
    have isNew := (initial.1 id correct).1
    refine ⟨⟨_, _, new_rests (sensible.sized id correct) isNew⟩, ?_, ?_⟩
    · simp only [new, bind_ok, assert_ok, exists_and_left, pure_ok] at isNew
      obtain ⟨-, -, -, -, -, -, -, -, isReplica⟩ := isNew
      rw [← isReplica]
      exact (setup.named id correct).2
    · rintro ⟨env, member⟩
      cases member
  | step _ ok step ih => exact step_sturdy sensible ih ok step

end World

namespace Plain

theorem sensible : setup.Sensible where
  generates := fun _ => ⟨_, rfl⟩
  samples := fun _ => (by decide : 1 < 3)
  sized := fun _ _ => Nat.one_pos

def begins (receiver : Nat) : Event platform → Bool
  | .init id _ => id == receiver
  | _ => false

instance (events : List (Event platform)) (receiver : Nat) :
    Decidable (∃ env, Event.init receiver env ∈ events) :=
  decidable_of_iff (∃ event ∈ events, begins receiver event = true) (by
    constructor
    · rintro ⟨event, member, isInit⟩
      unfold begins at isInit
      split at isInit
      · next id env => exact ⟨env, eq_of_beq isInit ▸ member⟩
      · cases isInit
    · rintro ⟨env, member⟩
      exact ⟨_, member, beq_self_eq_true receiver⟩)

instance (n : Nat) (vertex : Vertex platform) : Decidable (vertex.Proper n) :=
  inferInstanceAs (Decidable (_ ∧ ∀ edge ∈ vertex.edges.iter, _))

instance (n : Nat) (message : Message platform) : Decidable (message.Proper n) := by
  unfold Message.Proper
  split <;> infer_instance

instance (setup : Setup platform) (events : List (Event platform)) (event : Event platform) :
    Decidable (Tame setup events event) := by
  unfold Tame
  split <;> infer_instance

def vertexOfTwo (round : Nat) : Vertex platform :=
  ⟨⟨round, 2⟩, IdSet.empty, [], (2, 0, (round, 2, [], [])), 0⟩

/-- Host 2 takes part in the handshake, all become ready, and its enclave signs a vertex. -/
def signsVertex (round : Nat) : List (Move platform) :=
  List.flatten [[.init 0, .init 1], enclaveTwo, faithfulHandshake, allReady,
    [.call 2 (.sign (vertexOfTwo round).hash)]]

end Plain

end Abcperf.Nxbft
