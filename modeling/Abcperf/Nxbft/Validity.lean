import Abcperf.Nxbft.Agreement
import Abcperf.Nxbft.Effects
import Abcperf.Nxbft.Execution

/-! Whether a transaction that was ordered is delivered. A replica remembers the largest request id
it has delivered of each client and drops what is not larger, while it delivers the vertices below a
leader from the newest on. A smaller request is dropped for good when a larger one of its client is
in a newer vertex, unless it had been delivered before the larger one was submitted. -/

namespace Abcperf.Nxbft

open Lib Lib.Outcome Replica Plain List Option

variable {P : Platform}

def Platform.SameRequest (P : Platform) (left right : P.Tx) : Prop :=
  P.clientId left = P.clientId right ∧ P.requestId left = P.requestId right

/-- Nothing is handed out that was not ordered. -/
theorem replay_subset (txs : List P.Tx) : ∀ tx ∈ (replay txs).1, tx ∈ txs := by
  suffices all : ∀ (more : List P.Tx) (state : List P.Tx × (Nat → Option Nat)),
      ∀ tx ∈ (more.foldl replayStep state).1, tx ∈ state.1 ∨ tx ∈ more by
    intro tx member
    exact (all txs ([], fun _ => none) tx member).resolve_left not_mem_nil
  intro more
  induction more with
  | nil => exact fun state tx member => .inl member
  | cons head rest ih =>
    intro state tx member
    rcases ih (replayStep state head) tx member with handed | later
    · unfold replayStep at handed
      split at handed
      · split at handed
        · exact .inl handed
        rcases mem_append.mp handed with old | fresh
        · exact .inl old
        · exact .inr (mem_singleton.mp fresh ▸ mem_cons_self)
      rcases mem_append.mp handed with old | fresh
      · exact .inl old
      · exact .inr (mem_singleton.mp fresh ▸ mem_cons_self)
    · exact .inr (mem_cons_of_mem _ later)

def Remembered (state : List P.Tx × (Nat → Option Nat)) : Prop :=
  ∀ client last, state.2 client = some last →
    ∃ handed ∈ state.1, P.clientId handed = client ∧ P.requestId handed = last

theorem replayStep_covers {state : List P.Tx × (Nat → Option Nat)} (remembered : Remembered state)
    (tx : P.Tx) : Remembered (replayStep state tx) ∧
      ∃ handed ∈ (replayStep state tx).1, P.clientId handed = P.clientId tx ∧
        P.requestId tx ≤ P.requestId handed := by
  have fresh : Remembered (state.1 ++ [tx],
        Function.update state.2 (P.clientId tx) (some (P.requestId tx))) ∧
      ∃ handed ∈ state.1 ++ [tx], P.clientId handed = P.clientId tx ∧
        P.requestId tx ≤ P.requestId handed := by
    refine ⟨?_, tx, mem_append_right _ (mem_singleton.mpr rfl), rfl, le_rfl⟩
    intro client last isLast
    by_cases same : client = P.clientId tx
    · subst same
      simp only [Function.update_self, some.injEq] at isLast
      exact ⟨tx, mem_append_right _ (mem_singleton.mpr rfl), rfl, isLast⟩
    simp only [Function.update_of_ne same] at isLast
    obtain ⟨handed, member, isHanded⟩ := remembered client last isLast
    exact ⟨handed, mem_append_left _ member, isHanded⟩
  unfold replayStep
  split
  · next last isLast =>
    split
    · next old =>
      obtain ⟨handed, member, isClient, isId⟩ := remembered _ last isLast
      exact ⟨remembered, handed, member, isClient, isId ▸ old⟩
    · exact fresh
  · exact fresh

/-- Of every ordered transaction, one of its client with no smaller id is handed out. -/
theorem replay_covers (txs : List P.Tx) : ∀ tx ∈ txs, ∃ handed ∈ (replay txs).1,
    P.clientId handed = P.clientId tx ∧ P.requestId tx ≤ P.requestId handed := by
  suffices all : ∀ (more : List P.Tx) (state : List P.Tx × (Nat → Option Nat)),
      Remembered state → ∀ tx ∈ more, ∃ handed ∈ (more.foldl replayStep state).1,
        P.clientId handed = P.clientId tx ∧ P.requestId tx ≤ P.requestId handed from
    all txs ([], fun _ => none) fun client last isLast => by cases isLast
  intro more
  induction more with
  | nil =>
    intro state _ tx member
    cases member
  | cons head rest ih =>
    intro state remembered tx member
    obtain ⟨later, handed, isHanded, covers⟩ := replayStep_covers remembered head
    rcases mem_cons.mp member with rfl | inRest
    · have grows := foldl_replayStep_prefix rest (replayStep state tx)
      exact ⟨handed, grows.subset isHanded, covers⟩
    · exact ih _ later tx inRest

def Event.submission : Event P → Option P.Tx
  | .request _ _ tx => some tx
  | _ => none

/-- A run with the events it consists of. What is allowed may depend on the world and on what
happened before. -/
inductive Trace (setup : Setup P) (allowed : World P → List (Event P) → Event P → Prop) :
    List (Event P) → World P → Prop
  | start {world : World P} (initial : world.Initial setup) : Trace setup allowed [] world
  | step {events : List (Event P)} {world next : World P} {event : Event P}
      (before : Trace setup allowed events world) (ok : allowed world events event)
      (step : Step setup world event next) : Trace setup allowed (events ++ [event]) next

def submissions (events : List (Event P)) : List P.Tx := events.filterMap Event.submission

namespace World

def Delivered (setup : Setup P) (world : World P) (tx : P.Tx) : Prop :=
  ∀ id ∈ setup.correct, ∃ handed ∈ (world.history id).delivery, P.SameRequest handed tx

end World

def InOrder (events : List (Event P)) (event : Event P) : Prop :=
  ∀ tx, event.submission = some tx → ∀ earlier ∈ submissions events,
    P.clientId earlier = P.clientId tx → P.requestId earlier ≤ P.requestId tx

/-- A client waits for its earlier requests before it submits the next one. -/
def Patient (setup : Setup P) (world : World P) (events : List (Event P)) (event : Event P) :
    Prop :=
  ∀ tx, event.submission = some tx → ∀ earlier ∈ submissions events,
    P.clientId earlier = P.clientId tx → P.requestId earlier < P.requestId tx →
    world.Delivered setup earlier

namespace World

variable {setup : Setup P}
  {world next : World P} {event : Event P} {submitted : Nat → P.Tx → Prop}
  {events : List (Event P)}

theorem step_delivery (step : Step setup world event next) (id : Nat) :
    (world.history id).delivery <+: (next.history id).delivery := by
  have grows : ∀ other replica output,
      (world.history id).delivery <+: ((world.acted other replica output).history id).delivery := by
    intro other replica output
    by_cases same : id = other
    · subst same
      simp only [acted, Function.update_self]
      exact prefix_append _ _
    · simp only [acted, Function.update_of_ne same]
      exact prefix_rfl
  cases step with
  | init _ _ => exact grows _ _ _
  | deliver _ _ _ _ _ => exact grows _ _ _
  | request _ _ => exact grows _ _ _
  | timeout _ _ => exact grows _ _ _
  | launch _ _ => exact prefix_rfl
  | call _ _ => exact prefix_rfl

theorem Delivered.step {world next : World P} {event : Event P} {tx : P.Tx}
    (delivered : world.Delivered setup tx) (step : Step setup world event next) :
    next.Delivered setup tx := by
  intro id correct
  obtain ⟨handed, member, same⟩ := delivered id correct
  exact ⟨handed, (step_delivery step id).subset member, same⟩

theorem delivered_named (following : world.Following setup submitted)
    (among : event.FromCorrect setup) (step : Step setup world event next) :
    event.EchoNamesSource := by
  cases step with
  | @deliver source receiver env message _ _ correct _ sent _ _ =>
    obtain ⟨sender, body⟩ := message
    have isSender : sender = source := by
      refine (following source among).named ⟨sender, body⟩ (mem_sent_append.mpr (.inl ?_))
      rw [Output.sent, mem_append, List.mem_map]
      rcases sent among with broadcast | unicast
      · exact .inl broadcast
      · exact .inr ⟨_, unicast, rfl⟩
    cases body with
    | helloEcho creator attestation => exact isSender
    | hello _ | helloReply _ | ready | signed _ | vertexRequest _ => trivial
  | init _ _ | request _ _ | timeout _ _ => trivial
  | launch _ _ | call _ _ => exact among.elim

structure Orderly (setup : Setup P) (events : List (Event P)) (world : World P) : Prop where
  coherent : world.Coherent setup True
  following : world.Following setup fun _ tx => tx ∈ submissions events
  waited : ∀ early ∈ submissions events, ∀ late ∈ submissions events,
    P.clientId early = P.clientId late → P.requestId early < P.requestId late →
    world.Delivered setup early

theorem Following.mono {submitted' : Nat → P.Tx → Prop}
    (following : world.Following setup submitted)
    (more : ∀ id tx, submitted id tx → submitted' id tx) : world.Following setup submitted' := by
  intro id correct
  have follows := following id correct
  exact ⟨follows.enclave, fun tx waiting => more id tx (follows.waiting tx waiting),
    fun vertex member tx isTx => more id tx (follows.signed vertex member tx isTx), follows.isMe,
    follows.named⟩

theorem mem_submissions_snoc {tx : P.Tx} :
    tx ∈ submissions (events ++ [event]) ↔ tx ∈ submissions events ∨
    event.submission = some tx := by
  simp [submissions]

theorem step_orderly [Secure P] (orderly : world.Orderly setup events)
    (among : event.FromCorrect setup) (ordered : InOrder events event)
    (patient : Patient setup world events event) (step : Step setup world event next) :
    next.Orderly setup (events ++ [event]) where
  coherent := step_coherent orderly.coherent (fun _ => among)
    (delivered_named orderly.following among step) step
  following := by
    refine step_following (orderly.following.mono fun _ tx member =>
      mem_submissions_snoc.mpr (.inl member)) ?_ step
    rintro id env tx rfl
    exact mem_submissions_snoc.mpr (.inr rfl)
  waited := by
    intro early isEarly late isLate sameClient less
    refine Delivered.step ?_ step
    rcases mem_submissions_snoc.mp isEarly with oldEarly | newEarly
    · rcases mem_submissions_snoc.mp isLate with oldLate | newLate
      · exact orderly.waited early oldEarly late oldLate sameClient less
      · exact patient late newLate early oldEarly sameClient less
    rcases mem_submissions_snoc.mp isLate with oldLate | newLate
    · have := ordered early newEarly late oldLate sameClient.symm
      omega
    · cases newEarly.symm.trans newLate
      omega

theorem trace_orderly [Secure P]
    (trace : Trace setup (fun world events event => event.FromCorrect setup ∧
      InOrder events event ∧ Patient setup world events event) events world) :
    world.Orderly setup events := by
  induction trace with
  | start initial =>
    refine ⟨initial_coherent initial, initial_following initial, ?_⟩
    intro early member
    cases member
  | step _ ok step ih => exact step_orderly ih ok.1 ok.2.1 ok.2.2 step

/-- What a vertex of the graph carries was submitted. -/
theorem Orderly.graph_submitted (orderly : world.Orderly setup events) {id : Nat}
    (correct : id ∈ setup.correct) {vertex : Vertex P} (held : (world.replicas id).Held vertex) :
    ∀ tx ∈ vertex.transactions, tx ∈ submissions events := by
  have healthy := orderly.coherent.healthy id correct
  obtain ⟨log, logs⟩ := healthy.working.logs
  obtain ⟨index, found⟩ := List.getElem?_of_mem ((logs.held vertex).mp held).mem.1
  obtain ⟨_, _, _, _, logged⟩ := logs.entry _ index vertex found
  rw [orderly.coherent.facts correct] at logged
  -- a vertex is known as its creator has made it, whoever has passed it on
  obtain ⟨signer, isCorrect, member⟩ : ∃ signer ∈ setup.correct,
      vertex ∈ signedBy (world.history signer) := by
    rcases logged with ⟨-, known⟩ | ⟨-, own⟩
    · exact known trivial
    · exact ⟨id, correct, own⟩
  exact (orderly.following signer isCorrect).signed vertex (mem_signedBy_append.mpr (.inl member))

end World

/-- In every run of correct replicas whose clients wait for their earlier requests, everything that
was ordered has been delivered. -/
theorem ordered_transactions_delivered (secure : Secure P) {setup : Setup P}
    {events : List (Event P)} {world : World P}
    (trace : Trace setup (fun world events event => event.FromCorrect setup ∧
      InOrder events event ∧ Patient setup world events event) events world)
    {id : Nat} (correct : id ∈ setup.correct) {address : DagAddress}
    (ordered : address ∈ orderOf (world.history id)) :
    ∃ vertex, ((world.replicas id).dag.lookup address).map (·.vertex) = some vertex ∧
      ∀ tx ∈ vertex.transactions, ∃ handed ∈ (world.history id).delivery,
        P.SameRequest handed tx := by
  have orderly := World.trace_orderly trace
  have ledger := (orderly.coherent.healthy id correct).working.sound.graph.ledger
  rw [orderly.coherent.facts correct] at ledger
  have submitted : ∀ other ∈ orderOf (world.history id),
      ∀ tx ∈ (world.replicas id).dag.transactionsAt other, tx ∈ submissions events := by
    intro other isOther tx isTx
    obtain ⟨entry, isEntry⟩ := isSome_iff_exists.mp (ledger.ordered.known other isOther)
    simp only [Dag.transactionsAt, isEntry, map_some, getD_some] at isTx
    have named := (ledger.wellFormed.slot other entry isEntry).1
    exact orderly.graph_submitted correct (.inr ⟨entry, named ▸ isEntry, rfl⟩) tx isTx
  obtain ⟨entry, isEntry⟩ := isSome_iff_exists.mp (ledger.ordered.known address ordered)
  refine ⟨entry.vertex, by rw [isEntry]; rfl, fun tx isTx => ?_⟩
  have isAt : tx ∈ (world.replicas id).dag.transactionsAt address := by
    simpa only [Dag.transactionsAt, isEntry, map_some, getD_some] using isTx
  have delivery : (world.history id).delivery =
      (replay ((orderOf (world.history id)).flatMap (world.replicas id).dag.transactionsAt)).1 :=
    congrArg Prod.fst ledger.ordered.replayed
  -- something of the client with no smaller id was handed out; a larger id means that the client
  -- had waited for this one
  obtain ⟨handed, isHanded, sameClient, notSmaller⟩ :=
    replay_covers _ tx (mem_flatMap.mpr ⟨address, ordered, isAt⟩)
  obtain ⟨other, isOther, isSource⟩ := mem_flatMap.mp (replay_subset _ handed isHanded)
  rcases Nat.eq_or_lt_of_le notSmaller with same | less
  · exact ⟨handed, delivery ▸ isHanded, sameClient, same.symm⟩
  · exact orderly.waited tx (submitted address ordered tx isAt) handed
      (submitted other isOther handed isSource) sameClient.symm less id correct

namespace Player

def record (player : Player P) (allowed : World P → List (Event P) → Event P → Prop)
    [∀ world events event, Decidable (allowed world events event)] (world : World P)
    (moves : List (Move P)) : Option (List (Event P) × World P) :=
  moves.foldlM (fun (events, world) move => do
    let (event, next) ← player.move world move
    guard (allowed world events event)
    some (events ++ [event], next)) ([], world)

theorem record_trace (player : Player P) {allowed : World P → List (Event P) → Event P → Prop}
    [∀ world events event, Decidable (allowed world events event)] {world : World P}
    (initial : world.Initial player.setup) (moves : List (Move P))
    {ends : List (Event P) → World P → Prop} [∀ events, DecidablePred (ends events)]
    (played : (player.record allowed world moves).any (fun last => ends last.1 last.2) = true) :
    ∃ events last, Trace player.setup allowed events last ∧ ends events last := by
  suffices reached : ∃ last : List (Event P) × World P,
      Trace player.setup allowed last.1 last.2 ∧ ends last.1 last.2 from
    reached.elim fun last reached => ⟨last.1, last.2, reached⟩
  refine foldlM_reaches ?_ (.start initial) played
  rintro ⟨events, world⟩ move ⟨_, next⟩ trace moved
  simp only [bind_eq_bind, bind_eq_some_iff, guard_eq_some', Prod.exists, exists_const] at moved
  obtain ⟨event, _, moved, isAllowed, same⟩ := moved
  cases same
  exact .step trace isAllowed (move_step moved)

end Player

instance (setup : Setup P) : DecidablePred (Event.FromCorrect setup) := fun event => by
  unfold Event.FromCorrect
  split <;> infer_instance

instance (events : List (Event P)) (event : Event P) : Decidable (InOrder events event) :=
  inferInstanceAs (Decidable (∀ tx, event.submission = some tx →
    ∀ earlier ∈ submissions events, _ = _ → _ ≤ _))

instance (setup : Setup P) (world : World P) (events : List (Event P)) (event : Event P) :
    Decidable (Patient setup world events event) :=
  inferInstanceAs (Decidable (∀ tx, event.submission = some tx →
    ∀ earlier ∈ submissions events, _ = _ → _ < _ →
      ∀ id ∈ setup.correct, ∃ handed ∈ (world.history id).delivery, _ = _ ∧ _ = _))

namespace Plain

def fullPlayer : Player platform where
  setup := fullSetup
  env := ⟨fun round reading => 10 * round + reading, false, 200⟩
  genuine := genuineAmong fullSetup.correct
  sound := genuineAmong_sound fun _ => rfl

def fullStart : World platform where
  replicas id := .initial (fullSetup.config id)
  history _ := Output.empty
  enclaves _ := none
  issued _ := []

theorem fullStart_initial : fullStart.Initial fullSetup := by
  refine ⟨?_, fun _ => ⟨rfl, rfl⟩⟩
  intro id correct
  have inRange : id < 3 := Finset.mem_range.mp correct
  have isId : id = 0 ∨ id = 1 ∨ id = 2 := by omega
  rcases isId with rfl | rfl | rfl <;> exact ⟨rfl, rfl⟩

/-- What each replica has broadcast with the given indices reaches the two others. -/
def toOthers (indices : List Nat) : List (Move platform) :=
  [(0, 1), (0, 2), (1, 0), (1, 2), (2, 0), (2, 1)].flatMap fun hosts =>
    indices.map (Move.relay hosts.1 hosts.2)

def fullHandshake : List (Move platform) :=
  List.flatten [[.init 0, .init 1, .init 2], toOthers [0], toOthers [1, 2, 3],
    [.direct 0 2 0, .direct 0 1 1, .direct 1 2 0, .direct 1 0 1, .direct 2 1 0, .direct 2 0 1],
    toOthers [4]]

/-- Replicas 0 and 1 exchange the vertices of the given rounds; those of replica 2 are slow. -/
def exchange (rounds : List Nat) : List (Move platform) :=
  rounds.flatMap fun round => [.relay 0 1 (4 + round), .relay 1 0 (4 + round)]

/-- All three exchange the vertices of four rounds, after which each has delivered the first request
of the client; then it submits its second one. -/
def patientRun : List (Move platform) :=
  List.flatten [fullHandshake, [.timeout 0, .request 1 (7, 1), .timeout 2],
    [1, 2, 3, 4].flatMap fun round => toOthers [4 + round],
    [.request 1 (7, 2)], exchange [5, 6, 7, 8, 9, 10, 11, 12]]

/-- Two requests of one client at a time, which replica 1 puts into two vertices of one wave. -/
def hastyRun : List (Move platform) :=
  List.flatten [fullHandshake, [.timeout 0, .timeout 1, .request 1 (7, 1), .request 1 (7, 2)],
    exchange [1, 2, 3, 4, 5, 6, 7, 8]]

end Plain

/-- Of a client that waits for its first request, the second one is delivered as well. -/
theorem ordered_transactions_delivered_patient : ∃ events world,
    Trace Plain.fullSetup (fun world events event => event.FromCorrect Plain.fullSetup ∧
      InOrder events event ∧ Patient Plain.fullSetup world events event) events world ∧
    (world.history 0).delivery = [(7, 1), (7, 2)] ∧ ⟨6, 1⟩ ∈ orderOf (world.history 0) ∧
    ∃ vertex, ((world.replicas 0).dag.lookup ⟨6, 1⟩).map (·.vertex) = some vertex ∧
      ∀ tx ∈ vertex.transactions,
        ∃ handed ∈ (world.history 0).delivery, Plain.platform.SameRequest handed tx := by
  obtain ⟨events, world, trace, delivered, isOrdered⟩ : ∃ events world,
      Trace fullSetup (fun world events event => event.FromCorrect fullSetup ∧
        InOrder events event ∧ Patient fullSetup world events event) events world ∧
      (world.history 0).delivery = [(7, 1), (7, 2)] ∧
      (⟨6, 1⟩ : DagAddress) ∈ orderOf (world.history 0) :=
    fullPlayer.record_trace fullStart_initial patientRun (by decide +kernel)
  exact ⟨events, world, trace, delivered, isOrdered,
    ordered_transactions_delivered secure trace (by decide) isOrdered⟩

/-- A client that submits two requests at a time loses the first: its vertex is in the order, and
no replica will deliver it any more. -/
theorem hasty_request_lost : Secure Plain.platform ∧ ∃ events world,
    Trace Plain.fullSetup (fun _ events event => event.FromCorrect Plain.fullSetup ∧
      InOrder events event) events world ∧
    0 ∈ Plain.fullSetup.correct ∧ ⟨2, 1⟩ ∈ orderOf (world.history 0) ∧
    ∃ tx ∈ (world.replicas 0).dag.transactionsAt ⟨2, 1⟩,
      ¬ ∃ handed ∈ (world.history 0).delivery, Plain.platform.SameRequest handed tx := by
  refine ⟨secure, ?_⟩
  obtain ⟨events, world, trace, delivery, isOrdered, carries⟩ : ∃ events world,
      Trace fullSetup (fun _ events event => event.FromCorrect fullSetup ∧ InOrder events event)
        events world ∧
      (world.history 0).delivery = [(7, 2)] ∧
      (⟨2, 1⟩ : DagAddress) ∈ orderOf (world.history 0) ∧
      (7, 1) ∈ (world.replicas 0).dag.transactionsAt ⟨2, 1⟩ :=
    fullPlayer.record_trace fullStart_initial hastyRun (by decide +kernel)
  refine ⟨events, world, trace, by decide, isOrdered, (7, 1), carries, ?_⟩
  rintro ⟨handed, member, _, sameId⟩
  rw [delivery, mem_singleton] at member
  subst member
  cases sameId

end Abcperf.Nxbft
