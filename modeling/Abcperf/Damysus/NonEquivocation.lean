import Mathlib.Data.List.Pairwise
import Abcperf.Damysus.Calls
import Abcperf.Damysus.Symbolic

/-! One vote per view. Whatever a host asks of its enclave, the votes in the log of the enclave have
increasing views. A verifier, however, does not see the log: it sees commitments that hosts present,
and the signature on a commitment does not cover the block it names. -/

namespace Abcperf.Damysus

open Lib.Outcome Symbolic Enclave List Function

variable {P : Platform}

namespace Enclave

/-- The log of an enclave: at most one vote for a view, and none for a view to come. -/
structure Traced (id : Nat) (enclave : Enclave P) : Prop where
  me : enclave.automata.me = id
  creator : ∀ record ∈ enclave.log, record.result.getCreator = id
  below : ∀ record ∈ enclave.log, record.result.getView < enclave.automata.view
  ascending : enclave.log.Pairwise fun earlier later => earlier.result.isUsig = true →
    later.result.isUsig = true → earlier.result.getView < later.result.getView
  accumulators : ∀ record ∈ enclave.log, record.result.isAccumulator = true →
    ∃ commitments, record.call = .accumulate commitments

theorem new_traced (id n quorum : Nat) (trusted : P.Trusted) :
    Traced id (new id n quorum trusted) := by
  constructor <;> simp [new, EnclaveAutomata.new]

variable {enclave : Enclave P}

theorem call_traced {id : Nat} {next : Enclave P} {request : EnclaveCall P}
    {result : EnclaveResult P (SignedCommitment P)} (before : Traced id enclave)
    (run : enclave.call request = .ok (next, result)) : Traced id next := by
  obtain ⟨continues, ⟨sameLog, -⟩ | ⟨signed, -, grown, signs⟩⟩ := call_cases run
  · refine ⟨continues.me ▸ before.me, ?_, ?_, ?_, ?_⟩
    · exact sameLog ▸ before.creator
    · intro record member
      have := before.below record (sameLog ▸ member)
      have := continues.view
      omega
    · exact sameLog ▸ before.ascending
    · exact sameLog ▸ before.accumulators
  -- the new record is above all earlier votes, because those are below the view it is made in
  have cases : ∀ record ∈ next.log, record ∈ enclave.log ∨ record = ⟨request, signed⟩ := by
    intro record member
    rw [grown] at member
    simpa using member
  refine ⟨continues.me ▸ before.me, ?_, ?_, ?_, ?_⟩
  · intro record member
    rcases cases record member with earlier | rfl
    · exact before.creator record earlier
    · exact signs.creator.trans before.me
  · intro record member
    rcases cases record member with earlier | rfl
    · have := before.below record earlier
      have := continues.view
      omega
    · exact signs.below
  · rw [grown, pairwise_append]
    refine ⟨before.ascending, pairwise_singleton _ _, ?_⟩
    intro earlier member later isNew earlierUsig laterUsig
    rw [mem_singleton] at isNew
    subst isNew
    have := before.below earlier member
    have inView := (signs.vote laterUsig).1
    change earlier.result.getView < signed.getView
    omega
  intro record member accumulates
  rcases cases record member with earlier | rfl
  · exact before.accumulators record earlier accumulates
  · exact signs.accumulator accumulates

theorem addPeer_traced {id peer : Nat} {next : Enclave P} {key : P.PublicKey}
    (before : Traced id enclave) (run : enclave.addPeer peer key = .ok next) : Traced id next := by
  obtain ⟨trusted, rfl⟩ := addPeer_ok run
  exact ⟨before.me, before.creator, before.below, before.ascending, before.accumulators⟩

/-- An enclave votes once per view. -/
theorem Traced.vote_unique {id : Nat} (traced : Traced id enclave) {left right : Record P}
    (isLeft : left ∈ enclave.log) (isRight : right ∈ enclave.log)
    (leftUsig : left.result.isUsig = true) (rightUsig : right.result.isUsig = true)
    (sameView : left.result.getView = right.result.getView) : left = right := by
  by_contra different
  have apart : enclave.log.Pairwise fun first second => first.result.isUsig = true →
      second.result.isUsig = true → first.result.getView ≠ second.result.getView :=
    traced.ascending.imp fun less first second => ne_of_lt (less first second)
  have : Std.Symm fun first second : Record P => first.result.isUsig = true →
      second.result.isUsig = true → first.result.getView ≠ second.result.getView :=
    ⟨fun _ _ distinct first second => (distinct second first).symm⟩
  exact apart.forall isLeft isRight different leftUsig rightUsig sameView

end Enclave

structure Session (P : Platform) where
  enclaves : Nat → Enclave P
  accepted : List (SignedCommitment P)

structure SessionSetup (P : Platform) where
  n : Nat
  quorum : Nat
  trusted : Nat → P.Trusted

inductive SessionEvent (P : Platform)
  | addPeer (id peer : Nat) (key : P.PublicKey)
  | call (id : Nat) (request : EnclaveCall P)
  | present (verifier : Nat) (signed : SignedCommitment P)

namespace Session

def Initial (setup : SessionSetup P) (session : Session P) : Prop :=
  (∀ id, session.enclaves id = .new id setup.n setup.quorum (setup.trusted id)) ∧
    session.accepted = []

/-- A signature that verifies was made by the enclave of the creator, for the same hash. -/
inductive Step : Session P → SessionEvent P → Session P → Prop
  | addPeer {session : Session P} {id peer : Nat} {key : P.PublicKey} {enclave : Enclave P}
      (run : (session.enclaves id).addPeer peer key = .ok enclave) :
      Step session (.addPeer id peer key)
        { session with enclaves := update session.enclaves id enclave }
  | call {session : Session P} {id : Nat} {request : EnclaveCall P} {enclave : Enclave P}
      {result : EnclaveResult P (SignedCommitment P)}
      (run : (session.enclaves id).call request = .ok (enclave, result)) :
      Step session (.call id request)
        { session with enclaves := update session.enclaves id enclave }
  | present {session : Session P} {verifier : Nat} {signed : SignedCommitment P}
      (verified : (session.enclaves verifier).automata.verify signed = .ok true)
      (unforgeable : ∃ record ∈ (session.enclaves signed.getCreator).log,
        record.result.hashValue = signed.hashValue) :
      Step session (.present verifier signed)
        { session with accepted := session.accepted ++ [signed] }

inductive Run (setup : SessionSetup P) (allowed : Session P → SessionEvent P → Prop) :
    Session P → Prop
  | start {session : Session P} (initial : session.Initial setup) : Run setup allowed session
  | step {session next : Session P} {event : SessionEvent P} (before : Run setup allowed session)
      (ok : allowed session event) (step : Step session event next) : Run setup allowed next

/-- All accepted votes of one creator for one view name one block, and an accepted accumulator
names the block that its creator's enclave has accumulated for that view. -/
def NonEquivocating (session : Session P) : Prop :=
  (∀ left ∈ session.accepted, ∀ right ∈ session.accepted, left.isUsig = true →
    right.isUsig = true → left.getCreator = right.getCreator → left.getView = right.getView →
    left.getBlockView = right.getBlockView ∧ left.getBlockHash = right.getBlockHash) ∧
  ∀ signed ∈ session.accepted, signed.isAccumulator = true →
    ∃ record ∈ (session.enclaves signed.getCreator).log,
      (∃ commitments, record.call = .accumulate commitments) ∧
        record.result.getView = signed.getView ∧
        record.result.getBlockView = signed.getBlockView ∧
        record.result.getBlockHash = signed.getBlockHash

def Returned (session : Session P) (signed : SignedCommitment P) : Prop :=
  ∃ id, ∃ record ∈ (session.enclaves id).log, record.result = signed

def Unaltered (session : Session P) : SessionEvent P → Prop
  | .present _ signed => session.Returned signed
  | _ => True

structure Sound (session : Session P) : Prop where
  traced : ∀ id, (session.enclaves id).Traced id
  returned : ∀ signed ∈ session.accepted,
    ∃ record ∈ (session.enclaves signed.getCreator).log, record.result = signed

def acted (session : Session P) (id : Nat) (enclave : Enclave P) : Session P :=
  { session with enclaves := update session.enclaves id enclave }

variable {session : Session P}

theorem Sound.update (sound : session.Sound) {id : Nat} {enclave : Enclave P}
    (traced : enclave.Traced id)
    (grows : ∀ record ∈ (session.enclaves id).log, record ∈ enclave.log) :
    Sound { session with enclaves := update session.enclaves id enclave } := by
  constructor
  · intro other
    by_cases same : other = id
    · subst same
      simpa using traced
    · simpa [update_of_ne same] using sound.traced other
  intro signed member
  obtain ⟨record, logged, returned⟩ := sound.returned signed member
  refine ⟨record, ?_, returned⟩
  by_cases same : signed.getCreator = id
  · subst same
    simpa using grows record logged
  · simpa [update_of_ne same] using logged

theorem step_sound {next : Session P} {event : SessionEvent P} (sound : session.Sound)
    (unaltered : session.Unaltered event) (step : Step session event next) : next.Sound := by
  cases step with
  | addPeer run =>
    refine sound.update (addPeer_traced (sound.traced _) run) ?_
    obtain ⟨trusted, rfl⟩ := addPeer_ok run
    exact fun record member => member
  | call run =>
    refine sound.update (call_traced (sound.traced _) run) ?_
    obtain ⟨-, ⟨sameLog, -⟩ | ⟨signed, -, grown, -⟩⟩ := call_cases run
    · exact fun record member => sameLog ▸ member
    intro record member
    rw [grown]
    exact mem_append_left _ member
  | present verified unforgeable =>
    refine ⟨sound.traced, forall_mem_concat sound.returned ?_⟩
    obtain ⟨id, record, logged, rfl⟩ := unaltered
    rw [(sound.traced id).creator record logged]
    exact ⟨record, logged, rfl⟩

theorem run_sound {setup : SessionSetup P} (run : Run setup Unaltered session) : session.Sound := by
  induction run with
  | start initial =>
    obtain ⟨enclaves, accepted⟩ := initial
    refine ⟨fun id => enclaves id ▸ new_traced _ _ _ _, ?_⟩
    simp [accepted]
  | step _ unaltered step ih => exact step_sound ih unaltered step

theorem Sound.nonEquivocating (sound : session.Sound) : session.NonEquivocating := by
  constructor
  · intro left isLeft right isRight leftUsig rightUsig sameCreator sameView
    obtain ⟨leftRecord, leftLogged, rfl⟩ := sound.returned left isLeft
    obtain ⟨rightRecord, rightLogged, rfl⟩ := sound.returned right isRight
    rw [← sameCreator] at rightLogged
    have same := (sound.traced _).vote_unique leftLogged rightLogged leftUsig rightUsig sameView
    rw [same]
    exact ⟨rfl, rfl⟩
  intro signed member accumulates
  obtain ⟨record, logged, rfl⟩ := sound.returned signed member
  exact ⟨record, logged, (sound.traced _).accumulators record logged accumulates, rfl, rfl, rfl⟩

end Session

/-- As long as commitments are presented as they were returned, no two votes of one creator for
one view name different blocks, and an accumulator names what was accumulated. -/
theorem unaltered_commitments_agree {setup : SessionSetup P} {session : Session P}
    (run : Session.Run setup Session.Unaltered session) : session.NonEquivocating :=
  (Session.run_sound run).nonEquivocating

namespace Symbolic

def sessionSetup : SessionSetup platform := ⟨3, 2, fun id => ⟨id, IdSet.empty⟩⟩

def sessionStart : Session platform :=
  ⟨fun id => .new id 3 2 (⟨id, IdSet.empty⟩ : Trusted), []⟩

inductive Asked
  | reSign
  | accumulate (votes : List (Nat × Nat))
  | prepare (block : Hash) (accumulator : Nat × Nat)

/-- What a host does. Commitments are named by an enclave and a place in its log. -/
inductive Deed
  | addPeer (id peer : Nat)
  | call (id : Nat) (asked : Asked)
  | present (verifier : Nat) (place : Nat × Nat)

def logged (session : Session platform) (place : Nat × Nat) : Option (SignedCommitment platform) :=
  ((session.enclaves place.1).log[place.2]?).map Record.result

def request (session : Session platform) (id : Nat) : Asked → Option (EnclaveCall platform)
  | .reSign => some .reSignLastPrepared
  | .accumulate votes => some (.accumulate (votes.filterMap (logged session)))
  | .prepare block accumulator => (logged session accumulator).map fun signed =>
    .prepare (session.enclaves id).automata.view block (.quorum signed)
      (some signed.getBlockHash) signed.getBlockHash

def Deed.event (session : Session platform) : Deed → Option (SessionEvent platform)
  | .addPeer id peer => some (.addPeer id peer (peer : Nat))
  | .call id asked => do
    guard (id < 3)
    some (.call id (← request session id asked))
  | .present verifier place => (logged session place).map (.present verifier)

def perform (session : Session platform) : SessionEvent platform → Option (Session platform)
  | .addPeer id peer key => do
    some (session.acted id (← ((session.enclaves id).addPeer peer key).toOption))
  | .call id request => do
    some (session.acted id (← ((session.enclaves id).call request).toOption).1)
  | .present verifier signed => do
    guard (((session.enclaves verifier).automata.verify signed).toOption = some true ∧
      ∃ record ∈ (session.enclaves signed.getCreator).log,
        record.result.hashValue = signed.hashValue)
    some { session with accepted := session.accepted ++ [signed] }

def play (deeds : List Deed) : Option (Session platform) :=
  deeds.foldlM (fun session deed => do perform session (← deed.event session)) sessionStart

variable {session next : Session platform} {event : SessionEvent platform}

theorem logged_returned {place : Nat × Nat} {signed : SignedCommitment platform}
    (found : logged session place = some signed) : session.Returned signed := by
  obtain ⟨record, isRecord, same⟩ := Option.map_eq_some_iff.mp found
  exact ⟨place.1, record, mem_of_getElem? isRecord, same⟩

theorem Deed.event_unaltered (deed : Deed) (session : Session platform)
    (event : SessionEvent platform) (made : deed.event session = some event) :
    session.Unaltered event := by
  cases deed with
  | addPeer id peer =>
    cases made
    trivial
  | call id asked =>
    simp only [Deed.event, Option.bind_eq_bind, Option.bind_eq_some_iff] at made
    obtain ⟨_, _, call, -, same⟩ := made
    cases same
    trivial
  | present verifier place =>
    obtain ⟨signed, found, rfl⟩ := Option.map_eq_some_iff.mp made
    exact logged_returned found

theorem perform_step (done : perform session event = some next) :
    Session.Step session event next := by
  cases event
  all_goals
    simp only [perform, Option.bind_eq_bind, Option.bind_eq_some_iff, Option.guard_eq_some',
      toOption_eq_some, exists_const] at done
  · obtain ⟨enclave, run, same⟩ := done
    cases same
    exact .addPeer run
  · obtain ⟨⟨enclave, result⟩, run, same⟩ := done
    cases same
    exact .call run
  · obtain ⟨⟨verified, unforgeable⟩, same⟩ := done
    cases same
    exact .present verified unforgeable

theorem play_run {allowed : Session platform → SessionEvent platform → Prop}
    (permits : ∀ deed session event, Deed.event session deed = some event → allowed session event)
    (deeds : List Deed) {ends : Session platform → Prop} [DecidablePred ends]
    (played : (play deeds).any (decide <| ends ·) = true) :
    ∃ last, Session.Run sessionSetup allowed last ∧ ends last := by
  refine foldlM_reaches ?_ (.start ⟨fun _ => rfl, rfl⟩) played
  intro session deed next run moved
  obtain ⟨event, made, done⟩ := Option.bind_eq_some_iff.mp moved
  exact .step run (permits deed session event made) (perform_step done)

/-- All enclaves prepare a block in view 1. -/
def preparing : List Deed :=
  [.addPeer 0 0, .addPeer 0 1, .addPeer 0 2, .addPeer 1 0, .addPeer 1 1, .addPeer 1 2,
   .addPeer 2 0, .addPeer 2 1, .addPeer 2 2, .call 0 .reSign, .call 1 .reSign, .call 2 .reSign,
   .call 0 (.accumulate [(0, 0), (1, 0)]), .call 0 (.prepare (.orphan 0 1 none) (0, 1)),
   .call 1 (.prepare (.orphan 0 1 none) (0, 1)), .call 2 (.prepare (.orphan 0 1 none) (0, 1))]

def altered (vote : SignedCommitment platform) : SignedCommitment platform :=
  { vote with commitment := { vote.commitment with blockHash := Hash.orphan 0 0 none } }

def presenting : List Deed :=
  [.present 1 (0, 0), .present 0 (1, 0), .present 2 (0, 0), .present 2 (0, 1), .present 1 (0, 2),
   .present 0 (2, 1)]

end Symbolic

/-- Votes of three replicas for two views and the accumulator between them are presented as they
were returned, the vote of replica 0 for view 0 to two verifiers. -/
theorem unaltered_commitments_agree_presenting : ∃ session : Session Symbolic.platform,
    Session.Run Symbolic.sessionSetup Session.Unaltered session ∧
      session.accepted.map (fun signed => (signed.getCreator, signed.getView,
        signed.isAccumulator)) =
        [(0, 0, false), (1, 0, false), (0, 0, false), (0, 0, true), (0, 1, false),
          (2, 1, false)] ∧ session.NonEquivocating := by
  obtain ⟨session, run, accepted⟩ : ∃ session : Session platform,
      Session.Run sessionSetup Session.Unaltered session ∧
      session.accepted.map (fun signed => (signed.getCreator, signed.getView,
        signed.isAccumulator)) =
        [(0, 0, false), (1, 0, false), (0, 0, false), (0, 0, true), (0, 1, false),
          (2, 1, false)] :=
    play_run Deed.event_unaltered (preparing ++ presenting) (by decide +kernel)
  exact ⟨session, run, accepted, unaltered_commitments_agree run⟩

/-- Without that, a host changes the block in a vote of its enclave and both versions verify. -/
theorem altered_commitment_verifies :
    CollisionFree Symbolic.platform ∧ ∃ session : Session Symbolic.platform,
      Session.Run Symbolic.sessionSetup (fun _ _ => True) session ∧ ¬ session.NonEquivocating := by
  refine ⟨collisionFree, ?_⟩
  obtain ⟨session, run, vote, -, next, done, left, isLeft, right, isRight, leftUsig, rightUsig,
      sameCreator, sameView, differs⟩ : ∃ session : Session platform,
      Session.Run sessionSetup (fun _ _ => True) session ∧
      ∃ vote ∈ logged session (0, 0),
      ∃ next, perform session (.present 0 (altered vote)) = some next ∧
      ∃ left ∈ next.accepted, ∃ right ∈ next.accepted, left.isUsig = true ∧
        right.isUsig = true ∧ left.getCreator = right.getCreator ∧
        left.getView = right.getView ∧ left.getBlockHash ≠ right.getBlockHash :=
    play_run (fun _ _ _ _ => trivial) [.addPeer 0 0, .call 0 .reSign, .present 0 (0, 0)]
      (by decide +kernel)
  refine ⟨next, run.step trivial (perform_step done), fun agrees => ?_⟩
  have same := agrees.1 left isLeft right isRight leftUsig rightUsig sameCreator sameView
  exact differs same.2

end Abcperf.Damysus
