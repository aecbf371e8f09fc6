import Abcperf.Damysus.Robustness
import Abcperf.Damysus.Steady

/-! Runs in which all replicas are honest. What honest replicas send never harms another one, so a
replica can always go on, whatever is delayed, reordered, lost or repeated and whenever a timer
fires. -/

namespace Abcperf.Damysus

open Lib Lib.Outcome Heaps Justification Replica List

variable {P : Platform}

def Platform.Registers (P : Platform) : Prop :=
  ∀ trusted next id key, P.getPublicKey trusted = .ok key → P.addPeer trusted id key = .ok next →
    ∀ count hash signature, P.sign next count hash = .ok signature →
      P.verifyUntrusted next id hash signature = .ok true

namespace Facts

variable {facts : Facts P} {n : Nat}

theorem Valid.vote_bound (valid : facts.Valid n) [CollisionFree P] {vote : SignedCommitment P}
    (isSigned : facts.Signed vote) (usig : vote.isUsig = true) :
    vote.getPreparedBlockView ≤ vote.getView := by
  obtain ⟨record, issued, rfl⟩ := isSigned
  rcases (valid.votes _ record issued usig).origin with start | ⟨block, follows, notLater⟩
  · omega
  · have := valid.follows_view follows
    omega

theorem Valid.justification_below (valid : facts.Valid n) [CollisionFree P] {id : Nat}
    {block : Block P} (isProposal : facts.proposal id block) {accumulator : SignedCommitment P}
    (isQuorum : block.justification = .quorum accumulator) :
    accumulator.getBlockView < block.view := by
  obtain ⟨other, votes, isQuorum', quorate, usable⟩ :=
    (valid.proposed id block isProposal).justified
  rw [isQuorum, quorum.injEq] at isQuorum'
  subst isQuorum'
  rcases quorate.names with ⟨current, _⟩ | ⟨highest, member, same, _⟩
  · omega
  have bound := valid.vote_bound (quorate.signed highest member) (quorate.usig highest member).1
  have := (quorate.usig highest member).2
  omega

end Facts

namespace Replica

def Legible (replica : Replica P) (peerMessage : PeerMessage P) : Prop :=
  match peerMessage.message with
  | .handshake key => replica.welcomes peerMessage.sender key = true
  | .commitment vote => replica.Checkable vote
  | .newBlock block prepare => ∀ accumulator ∈ block.justification.getCommitment,
      replica.Checkable accumulator ∧ replica.Checkable prepare
  | .blockRequest _ | .requestedBlock _ => True

variable {replica : Replica P}

theorem checkable_of_ok {signed : SignedCommitment P} {answer : Bool}
    (checked : replica.enclave.verifyUntrusted signed = .ok answer) : replica.Checkable signed := by
  simp [Checkable, checked, Except.isOk, Except.toBool]

theorem acceptable_legible {block : Block P} {prepare : SignedCommitment P}
    (run : replica.acceptable block prepare = .ok true) :
    ∀ accumulator ∈ block.justification.getCommitment,
      replica.Checkable accumulator ∧ replica.Checkable prepare := by
  intro accumulator member
  unfold acceptable at run
  rw [Option.mem_def.mp member] at run
  simp only at run
  split at run
  · cases pure_ok.mp run
  obtain ⟨_, _, run⟩ := bind_ok.mp run
  split at run
  · cases pure_ok.mp run
  obtain ⟨accepted, checked, run⟩ := bind_ok.mp run
  refine ⟨checkable_of_ok checked, ?_⟩
  repeat' split at run
  all_goals first
    | exact checkable_of_ok run
    | cases pure_ok.mp run

def lookups (replica : Replica P) (peerMessage : PeerMessage P) : Outcome Unit :=
  match peerMessage.message with
  | .handshake key =>
    if replica.welcomes peerMessage.sender key then return () else throw .unwrap
  | .commitment vote => do
      let _ ← replica.enclave.verifyUntrusted vote
  | .newBlock block prepare => do
      let _ ← replica.acceptable block prepare
  | .blockRequest _ | .requestedBlock _ => return ()

theorem processHandshake_unread {env : Env P} {sender : Nat} {key : P.PublicKey}
    (refused : replica.welcomes sender key = false) :
    replica.processHandshake env sender key = .error .unwrap := by
  unfold processHandshake
  unfold welcomes at refused
  cases added : replica.enclave.addPeer sender key with
  | ok enclave => simp [added] at refused
  | error reason =>
    cases reason with
    | doubleKeyReceived => simp [added] at refused
    | _ => rfl

/-- A handler of a message that cannot be read does nothing, or it stops where it looks up keys. -/
theorem dispatch_illegible {env : Env P} {peerMessage : PeerMessage P}
    (illegible : ¬ replica.Legible peerMessage)
    (consistent : ∀ block prepare, peerMessage.message = .newBlock block prepare →
      ∃ known, replica.alreadyKnown block = .ok known) :
    replica.dispatch env peerMessage = .ok replica ∨
      ∃ panic, (peerMessage.message.Bounded → replica.lookups peerMessage = .error panic) ∧
        replica.dispatch env peerMessage = .error panic := by
  obtain ⟨sender, message⟩ := peerMessage
  cases message with
  | newBlock block prepare =>
    obtain ⟨known, isKnown⟩ := consistent block prepare rfl
    simp only [dispatch, processBlock, lookups, isKnown]
    cases known with
    | true => exact .inl rfl
    | false =>
      cases accepts : replica.acceptable block prepare with
      | error panic => exact .inr ⟨panic, fun _ => rfl, rfl⟩
      | ok accepted =>
        cases accepted with
        | true => exact absurd (acceptable_legible accepts) illegible
        | false => exact .inl rfl
  | commitment vote =>
    simp only [dispatch, processCommitment, lookups]
    split
    · exact .inl rfl
    cases views : vote.checkView with
    | error panic =>
      refine .inr ⟨panic, fun bounded => ?_, rfl⟩
      rw [SignedCommitment.checkView_ok bounded] at views
      cases views
    | ok _ =>
      simp only [bind, Except.bind]
      split
      · exact .inl rfl
      cases checked : replica.enclave.verifyUntrusted vote with
      | error panic => exact .inr ⟨panic, fun _ => rfl, rfl⟩
      | ok answer => exact absurd (checkable_of_ok checked) illegible
  | handshake key =>
    have refused : replica.welcomes sender key = false := Bool.eq_false_iff.mpr illegible
    simp only [dispatch, lookups, refused]
    exact .inr ⟨.unwrap, fun _ => rfl, processHandshake_unread refused⟩
  | blockRequest view => exact absurd trivial illegible
  | requestedBlock block => exact absurd trivial illegible

/-- Everything the replica holds was proposed or signed by someone. -/
structure Grounded (facts : Facts P) (replica : Replica P) : Prop where
  votes : ∀ vote ∈ replica.votes, facts.Signed vote ∧ vote.isUsig = true
  coherent : ∀ vote, facts.Signed vote → vote.isUsig = true → vote.isPrepare = true →
    vote.getBlockView = vote.getView
  slots : ∀ slot block, replica.blockstore.get slot = some block → block.view = slot ∧
    (0 < slot → ∃ id, facts.proposal id block.notExecuted)
  requested : ∀ view hash, replica.requestedBlocks view = some hash → view ≠ 0

namespace Grounded

variable {facts : Facts P} {n : Nat} {replica : Replica P}
  {vote : SignedCommitment P}

section

variable (grounded : replica.Grounded facts) (valid : facts.Valid n)

include grounded valid

theorem names (isSigned : facts.Signed vote) (usig : vote.isUsig = true)
    (prepares : vote.isPrepare = true) : facts.Names vote.getView vote.getBlockHash := by
  have inView := grounded.coherent vote isSigned usig prepares
  obtain ⟨record, issued, rfl⟩ := isSigned
  have named := (valid.votes _ record issued usig).named
  rwa [inView] at named

theorem commitment [CollisionFree P] (isSigned : facts.Signed vote) (usig : vote.isUsig = true) :
    vote.getPreparedBlockView ≤ vote.getView ∧
      (vote.isPrepare = true → vote.getBlockView = vote.getView) ∧ replica.Undisputed vote := by
  refine ⟨valid.vote_bound isSigned usig, grounded.coherent vote isSigned usig, ?_⟩
  intro prepares _ other member otherPrepares sameView
  obtain ⟨otherSigned, otherUsig⟩ := grounded.votes other member
  have left := grounded.names valid otherSigned otherUsig otherPrepares
  rw [sameView] at left
  exact valid.names_unique left (grounded.names valid isSigned usig prepares)

theorem undivided {id : Nat} {block : Block P} (isProposal : facts.proposal id block.notExecuted) :
    replica.Undivided block := by
  intro vote member prepares inView
  obtain ⟨isSigned, usig⟩ := grounded.votes vote (mem_append_left _ member)
  have named := grounded.names valid isSigned usig prepares
  rw [inView] at named
  exact valid.names_hash isProposal named

theorem known {id : Nat} {block existing : Block P}
    (isProposal : facts.proposal id block.notExecuted)
    (found : replica.blockstore.get block.view = some existing) :
    existing.hashValue = block.hashValue := by
  obtain ⟨atSlot, created⟩ := grounded.slots _ existing found
  have above : 0 < block.notExecuted.view := valid.above isProposal
  obtain ⟨other, isOther⟩ := created above
  have same := valid.proposal_unique isOther isProposal atSlot
  have sameHash := congrArg Block.hashValue same
  rwa [Block.hashValue_notExecuted, Block.hashValue_notExecuted] at sameHash

end

end Grounded

def Honest (facts : Facts P) : Message P → Prop
  | .commitment vote => facts.Signed vote
  | .newBlock block _ => ∃ id, facts.proposal id block.notExecuted
  | .requestedBlock block => block.Rooted ∧
      (block.justification = .genesis ∨ ∃ id, facts.proposal id block.notExecuted)
  | .handshake _ | .blockRequest _ => True

theorem Grounded.harmless {facts : Facts P} {n : Nat} (grounded : replica.Grounded facts)
    (valid : facts.Valid n) [CollisionFree P] {peerMessage : PeerMessage P}
    (legible : replica.Legible peerMessage) (honest : Honest facts peerMessage.message) :
    replica.Harmless peerMessage := by
  have below : ∀ {id : Nat} {block : Block P}, facts.proposal id block.notExecuted →
      ∀ accumulator ∈ block.justification.getCommitment,
        accumulator.getBlockView < block.view ∧ replica.Undivided block := by
    intro id block isProposal accumulator member
    have isQuorum := getCommitment_eq_some.mp member
    exact ⟨valid.justification_below isProposal isQuorum, grounded.undivided valid isProposal⟩
  obtain ⟨sender, message⟩ := peerMessage
  cases message with
  | handshake key => exact legible
  | blockRequest view => trivial
  | commitment vote =>
    exact ⟨legible, fun _ usig => grounded.commitment valid honest usig⟩
  | newBlock block prepare =>
    obtain ⟨id, isProposal⟩ := honest
    refine ⟨fun _ existing found => grounded.known valid isProposal (Option.mem_def.mp found), ?_⟩
    intro accumulator member
    obtain ⟨checkable, checkableToo⟩ := legible accumulator member
    exact ⟨checkable, checkableToo, fun _ => below isProposal accumulator member⟩
  | requestedBlock block =>
    intro found
    obtain ⟨rooted, isGenesis | ⟨id, isProposal⟩⟩ := honest
    · exact absurd (rooted isGenesis) (grounded.requested _ _ found)
    obtain ⟨accumulator, _, isQuorum, _⟩ := (valid.proposed id _ isProposal).justified
    have member : accumulator ∈ block.justification.getCommitment :=
      getCommitment_eq_some.mpr isQuorum
    exact ⟨accumulator, member, below isProposal accumulator member⟩

end Replica

namespace Replica

section Returning

variable {short lax : Prop} {env : Env P}
  {replica : Replica P}

section

variable [P.Dependable] (sane : replica.Sane lax 1)

include sane

theorem reflect_returns (enough : replica.Affords short env) :
    replica.GoesOn short lax (replica.reflect env) :=
  reflectWith_returns sane fun long =>
    ⟨by have := enough long; have := env.budget_le.1; omega, enough long⟩

theorem createBlock_reflect_returns (quorate : replica.quorum ≤ replica.commitments.length)
    (enough : ¬ short → replica.view + replica.weight + 2 < env.budget) :
    replica.GoesOn short lax (replica.createBlock (roundTransition env env.fuel) env >>=
      fun created => created.reflect env) := by
  have weighs : replica.load ≤ replica.weight := Nat.le_add_right _ _
  obtain ⟨fuelled, -⟩ := env.budget_le
  refine .bind (createBlock_returns (roundTransition_transits env.fuel) sane quorate
    fun long => ?_) ?_
  · have := enough long
    omega
  rintro created ⟨saneCreated, grown, _, _, spent⟩
  refine (reflect_returns saneCreated fun long => ?_).since grown
  have := enough long
  omega

section

variable
  (awaited : replica.callTryCreateBlock = true → replica.quorum ≤ replica.commitments.length)
  (enough : ¬ short → replica.view + replica.weight + 2 < env.budget)

include awaited enough

theorem receiveClientRequest_returns (tx : P.Tx) :
    replica.GoesOn short lax (replica.receiveClientRequest env tx) := by
  have grown : replica.Extends { replica with
      pendingClientRequests := replica.pendingClientRequests.insert tx } :=
    { Extends.refl replica with }
  have inserted : ({ replica with
      pendingClientRequests := replica.pendingClientRequests.insert tx } : Replica P).Sane lax 1 :=
    { sane with echoes := sane.heard { Extends.refl _ with } rfl }
  have waits : replica.GoesOn short lax
      (({ replica with pendingClientRequests := replica.pendingClientRequests.insert tx } :
        Replica P).reflect env) := by
    refine (reflect_returns inserted fun long => ?_).since grown
    have budget := enough long
    change replica.view + replica.weight + 1 < _
    omega
  simp only [receiveClientRequest]
  split
  · next flagged =>
    refine (fullBlockOrAtLeast_returns _ sane.batch).bind fun full _ => ?_
    split
    · exact (createBlock_reflect_returns inserted (awaited flagged) fun long =>
        enough long).since grown
    · exact waits
  · exact waits

theorem handleBlockTimeout_returns : replica.GoesOn short lax (replica.handleBlockTimeout env) := by
  unfold handleBlockTimeout
  split
  · next flagged => exact createBlock_reflect_returns sane (awaited flagged) enough
  · exact reflect_returns sane fun long => by have := enough long; omega

end

theorem handleViewTimeout_returns
    (enough : ¬ short → replica.view + replica.weight + 2 < env.budget) :
    replica.GoesOn short lax (replica.handleViewTimeout env) := by
  have weighs : replica.load ≤ replica.weight := Nat.le_add_right _ _
  unfold handleViewTimeout
  split
  · exact reflect_returns sane fun long => by have := enough long; omega
  refine (newView_returns sane fun long => ?_).bind ?_
  · have := enough long
    omega
  rintro moved ⟨saneMoved, grown, spent⟩
  refine (reflect_returns saneMoved fun long => ?_).since grown
  have := enough long
  omega

end

/-- If a message cannot be read, nothing happens or the call stops where it looks up keys. -/
theorem processPeerMessage_illegible (silent : replica.output.reflectionMessages = [])
    {peerMessage : PeerMessage P} (illegible : ¬ replica.Legible peerMessage)
    (consistent : ∀ block prepare, peerMessage.message = .newBlock block prepare →
      ∃ known, replica.alreadyKnown block = .ok known) :
    replica.processPeerMessage env peerMessage =
        .ok ({ replica with output := .new replica.me }, replica.taken) ∨
      (∃ panic, (peerMessage.message.Bounded → replica.lookups peerMessage = .error panic) ∧
        replica.processPeerMessage env peerMessage = .error panic) ∨
      (env.fuel = 0 ∧ replica.processPeerMessage env peerMessage = .error .fuel) := by
  have dispatched : replica.dispatch env peerMessage = .ok replica ∨ _ :=
    dispatch_illegible illegible consistent
  have quiet : (machine env).Quiet replica := silent
  unfold processPeerMessage
  cases env.fuel with
  | zero => exact .inr (.inr ⟨rfl, rfl⟩)
  | succ fuel =>
    rcases dispatched with ignored | ⟨panic, stops, failed⟩
    · left
      change (replica.dispatch env peerMessage >>= _) = _
      rw [ignored]
      exact Reflector.reflect_quiet quiet fuel
    refine .inr (.inl ⟨panic, stops, ?_⟩)
    change (replica.dispatch env peerMessage >>= _) = _
    rw [failed]
    rfl

def resized (replica : Replica P) (minimumBlockSize : Nat) : Replica P :=
  { replica with minimumBlockSize }

theorem Resting.resized (resting : replica.Resting True) {size : Nat} (sized : ¬ lax → 0 < size) :
    (replica.resized size).Resting lax :=
  { resting with
    batch := sized
    echoes := fun peerMessage member => nomatch (resting.quiet ▸ member : peerMessage ∈ []) }

theorem Resting.taken (resting : replica.Resting lax) :
    ({ replica with output := .new replica.me } : Replica P).Resting lax ∧
      replica.Extends { replica with output := .new replica.me } := by
  refine ⟨{ resting with
    outputMe := rfl
    echoes := fun peerMessage member => by cases member
    quiet := rfl }, { Extends.refl replica with }⟩

end Returning

theorem initial_steady (config : Config P) {enclave : Enclave P}
    (registered : enclave.automata.Registered) (logless : enclave.log = []) (peersAdded : Nat) :
    ({ initial config with enclave, peersAdded } : Replica P).Steady Output.empty where
  quorum := Nat.succ_pos _
  registered
  coherent := fun record logged => by
    change record ∈ enclave.log at logged
    rw [logless] at logged
    cases logged
  authored := fun message member => by cases member
  announced := fun message member => by cases member
  rooted := fun message member => by cases member
  awaited := fun waits => by cases waits
  first := fun _ => rfl
  settled := fun _ => rfl

def joining (replica : Replica P) (enclave : Enclave P) (key : P.PublicKey) : Replica P :=
  ({ replica with enclave, peersAdded := replica.peersAdded + 1 } : Replica P).broadcast
    (.handshake key)

theorem initHandshake_runs {replica : Replica P} (silent : replica.output.reflectionMessages = [])
    {key : P.PublicKey} {enclave : Enclave P} (isKey : replica.enclave.getPublicKey = .ok key)
    (added : replica.enclave.addPeer replica.me key = .ok enclave) (env : Env P) :
    replica.initHandshake env = .ok ({ replica.joining enclave key with output := .new replica.me },
      (replica.joining enclave key).taken) := by
  have quiet : (machine env).Quiet (replica.joining enclave key) := silent
  simp only [initHandshake, bind_ok, expect_ok]
  exact ⟨key, isKey, enclave, added, Reflector.reflect_quiet quiet env.fuel⟩

theorem initHandshake_steady (registers : P.Registers) {config : Config P} {env : Env P}
    {next : Replica P} {output : Output P}
    (run : (initial config).initHandshake env = .ok (next, output)) :
    next.Steady (Output.empty.join output) ∧ ∃ key, (⟨config.me, .handshake key⟩ : PeerMessage P) ∈
        (Output.empty.join output).broadcasts := by
  simp only [initHandshake, bind_ok, expect_ok] at run
  obtain ⟨key, isKey, enclave, added, run⟩ := run
  have addedKey := addPeer_key added
  have enclaveOk := Enclave.addPeer_ok added
  have registered : enclave.automata.Registered := by
    obtain ⟨trusted, rfl⟩ := enclaveOk
    exact registers _ _ _ _ isKey addedKey
  have logless : enclave.log = [] := by
    obtain ⟨trusted, rfl⟩ := enclaveOk
    rfl
  have quiet : (machine env).Quiet (({ initial config with
      enclave, peersAdded := (initial config).peersAdded + 1 } : Replica P).broadcast
        (.handshake key)) := rfl
  rw [reflect, Reflector.reflect_quiet quiet] at run
  obtain ⟨rfl, rfl⟩ := Prod.mk.inj (Except.ok.inj run)
  have joins := initial_steady config registered logless ((initial config).peersAdded + 1)
  refine ⟨(joins.broadcast (.handshake key) (by simp) (by simp [Message.block])).taken, key, ?_⟩
  exact mem_cons_self

end Replica

def Event.fuel : Event P → Nat
  | .init _ env | .deliver _ _ env _ | .request _ env _ | .blockTimeout _ env
  | .viewTimeout _ env => env.fuel
  | .addPeer _ _ _ | .call _ _ => 0

def Event.lookups (replica : Replica P) : Event P → Outcome Unit
  | .init _ _ => do
      let key ← expect replica.enclave.getPublicKey
      let _ ← expect (replica.enclave.addPeer replica.me key)
  | .deliver _ _ _ message => replica.lookups message
  | .request _ _ _ | .blockTimeout _ _ | .viewTimeout _ _ => return ()
  | .addPeer _ _ _ | .call _ _ => throw .unreachable

def Event.Bounded : Event P → Prop
  | .deliver _ _ _ message => message.message.Bounded
  | _ => True

def Event.Legible (replica : Replica P) : Event P → Prop
  | .init _ _ => ∃ key enclave, replica.enclave.getPublicKey = .ok key ∧
      replica.enclave.addPeer replica.me key = .ok enclave
  | .deliver _ _ _ message => replica.Legible message
  | .request _ _ _ | .blockTimeout _ _ | .viewTimeout _ _ => True
  | .addPeer _ _ _ | .call _ _ => False

theorem Replica.initHandshake_illegible {replica : Replica P} {id : Nat} {env : Env P}
    (illegible : ¬ (Event.init id env).Legible replica) :
    ∃ panic, (Event.init id env).lookups replica = .error panic ∧
      replica.initHandshake env = .error panic := by
  unfold Event.lookups initHandshake
  cases isKey : replica.enclave.getPublicKey with
  | error reason => exact ⟨.unwrap, rfl, rfl⟩
  | ok key =>
    have refused : expect (replica.enclave.addPeer replica.me key) = .error .unwrap := by
      cases added : replica.enclave.addPeer replica.me key with
      | error reason => rfl
      | ok enclave => exact absurd ⟨key, enclave, isKey, added⟩ illegible
    refine ⟨.unwrap, ?_, ?_⟩
    · change (expect (replica.enclave.addPeer replica.me key) >>= fun _ => _) = _
      rw [refused]
      rfl
    change (expect (replica.enclave.addPeer replica.me key) >>= fun _ => _) = _
    rw [refused]
    rfl

/-- An event whose input cannot be read changes nothing or stops where keys are looked up. -/
theorem Event.handle_illegible {event : Event P} {replica : Replica P}
    (silent : replica.output.reflectionMessages = []) (illegible : ¬ event.Legible replica)
    (consistent : ∀ source receiver env sender block prepare,
      event = .deliver source receiver env ⟨sender, .newBlock block prepare⟩ →
        ∃ known, replica.alreadyKnown block = .ok known) :
    event.handle replica = .ok ({ replica with output := .new replica.me }, replica.taken) ∨
      (∃ panic, (event.Bounded → event.lookups replica = .error panic) ∧
        event.handle replica = .error panic) ∨
      (event.fuel = 0 ∧ event.handle replica = .error .fuel) := by
  cases event with
  | init id env =>
    obtain ⟨panic, stops, failed⟩ := initHandshake_illegible illegible
    exact .inr (.inl ⟨panic, fun _ => stops, failed⟩)
  | deliver source receiver env message =>
    refine processPeerMessage_illegible silent illegible ?_
    rintro block prepare isBlock
    obtain ⟨sender, content⟩ := message
    subst isBlock
    exact consistent source receiver env sender block prepare rfl
  | request id env tx => exact absurd trivial illegible
  | blockTimeout id env => exact absurd trivial illegible
  | viewTimeout id env => exact absurd trivial illegible
  | addPeer id peer key => exact .inr (.inl ⟨.unreachable, fun _ => rfl, rfl⟩)
  | call id request => exact .inr (.inl ⟨.unreachable, fun _ => rfl, rfl⟩)

namespace World

def Started (world : World P) (id : Nat) : Prop :=
  ∃ key, (⟨id, .handshake key⟩ : PeerMessage P) ∈ (world.history id).broadcasts

/-- How replicas are used. A replica is initialised once and before anything else, messages come
from replicas, and a view timer, which is set when a view is entered, runs in no earlier view. -/
def Scheduled (setup : Setup P) (world : World P) : Event P → Prop
  | .init id _ => ¬ world.Started id
  | .deliver source receiver _ _ => source < setup.n ∧ world.Started receiver
  | .request id _ _ | .blockTimeout id _ => world.Started id
  | .viewTimeout id _ => world.Started id ∧ 0 < (world.replicas id).view
  | .addPeer _ _ _ | .call _ _ => True

structure Composed (setup : Setup P) (world : World P) : Prop where
  agreeing : world.Agreeing setup
  rests : world.Rests True setup
  used : ∀ id ∈ setup.correct,
    (world.Started id ∧ (world.replicas id).Steady (world.history id)) ∨
      (world.replicas id = .initial (setup.config id) ∧ world.history id = Output.empty)

section Honest

variable {setup : Setup P} {world : World P}

section

variable (composed : world.Composed setup)

include composed

theorem Composed.steady {id : Nat} (correct : id ∈ setup.correct) (started : world.Started id) :
    (world.replicas id).Steady (world.history id) := by
  rcases composed.used id correct with ⟨_, steady⟩ | ⟨_, empty⟩
  · exact steady
  obtain ⟨key, member⟩ := started
  rw [empty] at member
  cases member

theorem Composed.coherent {vote : SignedCommitment P} (isSigned : (world.facts setup).Signed vote)
    (usig : vote.isUsig = true) (prepares : vote.isPrepare = true) :
    vote.getBlockView = vote.getView := by
  obtain ⟨record, ⟨correct, logged⟩, rfl⟩ := isSigned
  rcases composed.used _ correct with ⟨_, steady⟩ | ⟨isInitial, _⟩
  · exact steady.coherent record logged usig prepares
  · rw [isInitial] at logged
    cases logged

theorem Composed.grounded {id : Nat} (correct : id ∈ setup.correct) :
    (world.replicas id).Grounded (world.facts setup) := by
  have joined := others_self correct (composed.agreeing.named id correct)
  have faithful := (composed.agreeing.conforms id correct).faithful
  have resting := (composed.rests id correct).1
  refine ⟨?_, fun vote => composed.coherent, ?_, ?_⟩
  · intro vote member
    rcases mem_append.mp member with collected | kept
    · exact ⟨joined ▸ faithful.collected vote collected, (resting.collected vote collected).1.usig⟩
    · exact ⟨joined ▸ faithful.stored vote kept, (resting.kept vote kept).usig⟩
  · intro slot block found
    obtain ⟨atSlot, known⟩ := (composed.agreeing.sourced id correct).slots slot block found
    refine ⟨atSlot, fun above => ?_⟩
    rw [← joined]
    exact (known above).proposal
  rintro view hash isRequested rfl
  obtain ⟨block, root, _⟩ := resting.tidy.root
  rw [(resting.requested 0 hash isRequested).2] at root
  cases root

theorem Composed.honest (all : setup.correct = Finset.range setup.n) {source receiver : Nat}
    {env : Env P} {message : PeerMessage P} (correct : receiver ∈ setup.correct)
    (inRange : source < setup.n)
    (possible : (Event.deliver source receiver env message).Possible setup world) :
    message.sender = source ∧ Replica.Honest (world.facts setup) message.message := by
  have sourceCorrect : source ∈ setup.correct := all ▸ Finset.mem_range.mpr inRange
  have place : (Event.deliver source receiver env message).place ∈ setup.correct := correct
  have admitted := composed.agreeing.admitted place possible all inRange
  have joined := others_self correct (composed.agreeing.named receiver correct)
  obtain ⟨_, sent, rfl, isSent⟩ := possible
  have wasSent := isSent sourceCorrect
  have steady : (world.replicas source).Steady (world.history source) := by
    rcases composed.used source sourceCorrect with ⟨_, steady⟩ | ⟨_, empty⟩
    · exact steady
    · rw [empty] at wasSent
      rcases wasSent with member | member <;> cases member
  have member : sent ∈ (world.replicas source).sent (world.history source) := by
    refine mem_append_left _ (mem_append_left _ (mem_append.mpr ?_))
    exact wasSent.imp_right fun unicast => mem_map.mpr ⟨_, unicast, rfl⟩
  refine ⟨(steady.authored sent member).trans (composed.agreeing.named source sourceCorrect), ?_⟩
  have proposed : ∀ block : Block P, (world.replicas receiver).Known
      ((world.others setup receiver).base (world.replicas receiver).view
        (world.replicas receiver).proposed) block →
      ∃ id, (world.facts setup).proposal id block.notExecuted := by
    intro block known
    rw [← joined]
    exact known.proposal
  obtain ⟨sender, content⟩ := sent
  cases content with
  | commitment vote =>
    change (world.facts setup).Signed vote
    rw [← joined]
    exact admitted
  | newBlock block prepare =>
    have created := steady.announced _ member block prepare rfl
    obtain ⟨accumulator, _, justified, _⟩ := ((composed.agreeing.valid sourceCorrect).proposed
      source block ⟨sourceCorrect, created⟩).justified
    exact proposed _ (Replica.Fetched.known admitted justified)
  | requestedBlock block =>
    refine ⟨steady.rooted _ member block rfl, ?_⟩
    exact admitted.imp_right (proposed _)
  | handshake key => trivial
  | blockRequest view => trivial

end

variable {event : Event P} {replica : Replica P} {output : Output P}

theorem Composed.consistent (composed : world.Composed setup)
    (all : setup.correct = Finset.range setup.n) (correct : event.place ∈ setup.correct)
    (possible : event.Possible setup world) (scheduled : world.Scheduled setup event) :
    ∀ source receiver env sender block prepare,
      event = .deliver source receiver env ⟨sender, .newBlock block prepare⟩ →
        ∃ known, (world.replicas event.place).alreadyKnown block = .ok known := by
  rintro source receiver env sender block prepare rfl
  obtain ⟨_, creator, isProposal⟩ := composed.honest all correct scheduled.1 possible
  change ∃ known, (world.replicas receiver).alreadyKnown block = .ok known
  unfold alreadyKnown
  split
  · cases found : (world.replicas receiver).blockstore.get block.view with
    | none => exact ⟨false, rfl⟩
    | some existing =>
      have same := (composed.grounded correct).known (composed.agreeing.valid correct) isProposal
        found
      exact ⟨true, if_neg (not_not.mpr same)⟩
  · exact ⟨false, rfl⟩

section

variable (composed : world.Composed setup) [P.Dependable] [CollisionFree P]
  (all : setup.correct = Finset.range setup.n) (correct : event.place ∈ setup.correct)
  (possible : event.Possible setup world) (scheduled : world.Scheduled setup event)

include composed all correct possible scheduled

/-- A call that can be made and whose input can be read returns, and the replica can go on. The
minimum block size of the replica matters only for the assertion. -/
theorem Composed.returns (legible : event.Legible (world.replicas event.place)) {short lax : Prop}
    (enough : ¬ short → event.Bounded ∧ (world.replicas event.place).Early ∧
      (world.replicas event.place).view + (world.replicas event.place).weight + 4 ≤ event.fuel)
    (size : Nat) (sized : ¬ lax → 0 < size) :
    ((world.replicas event.place).resized size).GoesOn short lax
      (event.handle ((world.replicas event.place).resized size)) := by
  have me := (composed.rests _ correct).2
  have resting := (composed.rests _ correct).1.resized sized
  have sane : world.Started event.place → ((world.replicas event.place).resized size).Sane lax 1 :=
    fun started => { resting with registered := (composed.steady correct started).registered }
  have affords : ¬ short → (world.replicas event.place).view +
      (world.replicas event.place).weight + 3 < min event.fuel View.last := by
    intro long
    obtain ⟨-, early, fuelled⟩ := enough long
    unfold Early at early
    omega
  have fuelled : ¬ short → (world.replicas event.place).view +
      (world.replicas event.place).weight + 2 < min event.fuel View.last :=
    fun long => Nat.lt_of_succ_lt (affords long)
  cases event with
  | init id env =>
    obtain ⟨key, enclave, isKey, added⟩ := legible
    have run := initHandshake_runs resting.quiet isKey added env
    exact .of_ok run (initHandshake_rests resting run)
  | deliver source receiver env message =>
    obtain ⟨authored, honest⟩ := composed.honest all correct scheduled.1 possible
    have harmless := (composed.grounded correct).harmless (composed.agreeing.valid correct)
        legible honest
    refine processPeerMessage_returns (sane scheduled.2) harmless (fun long => (enough long).1) ?_
      affords
    rw [authored]
    exact fun same => possible.1 (same.trans me)
  | request id env tx =>
    exact receiveClientRequest_returns (sane scheduled)
      (composed.steady correct scheduled).awaited fuelled tx
  | blockTimeout id env =>
    exact handleBlockTimeout_returns (sane scheduled)
      (composed.steady correct scheduled).awaited fuelled
  | viewTimeout id env =>
    exact handleViewTimeout_returns (sane scheduled.1) fuelled
  | addPeer id peer key => exact legible.elim
  | call id request => exact legible.elim

theorem Composed.resting (run : event.handle (world.replicas event.place) = .ok (replica, output)) :
    replica.Resting True ∧ (world.replicas event.place).Extends replica := by
  by_cases legible : event.Legible (world.replicas event.place)
  · have returns : Returns (Stops True True) _ _ := composed.returns all correct
      possible scheduled legible (fun long => absurd trivial long)
      (world.replicas event.place).minimumBlockSize fun strict => absurd trivial strict
    obtain ⟨resting, grown⟩ := returns.value run
    exact ⟨resting, { grown with }⟩
  have resting := (composed.rests _ correct).1
  rcases Event.handle_illegible resting.quiet legible
    (composed.consistent all correct possible scheduled) with
    ignored | ⟨panic, _, failed⟩ | ⟨_, failed⟩
  · rw [run] at ignored
    obtain ⟨rfl, rfl⟩ := Prod.mk.inj (Except.ok.inj ignored)
    exact resting.taken
  · rw [run] at failed
    cases failed
  · rw [run] at failed
    cases failed

end

theorem Composed.keeps (composed : world.Composed setup) [P.Dependable] [CollisionFree P]
    (all : setup.correct = Finset.range setup.n) (correct : event.place ∈ setup.correct)
    (possible : event.Possible setup world) (scheduled : world.Scheduled setup event)
    (started : world.Started event.place)
    (run : event.handle (world.replicas event.place) = .ok (replica, output)) :
    replica.Steady ((world.history event.place).join output) := by
  have steady := composed.steady correct started
  have sourced := composed.agreeing.sourced _ correct
  have kept := Event.handle_keeps (fun env => steady_calls env
    (world.others setup event.place) setup.n (world.replicas event.place).view
    (world.replicas event.place).proposed)
    ⟨⟨sourced, composed.agreeing.conforms _ correct⟩, steady⟩ ?_ run
  · exact kept.1.2
  cases event with
  | deliver source receiver env message =>
    have admitted := composed.agreeing.admitted correct possible all scheduled.1
    obtain ⟨_, honest⟩ := composed.honest all correct scheduled.1 possible
    have rooted : ∀ {block : Block P}, (∃ id, (world.facts setup).proposal id
        block.notExecuted) → block.Rooted := by
      rintro block ⟨id, isProposal⟩
      obtain ⟨accumulator, _, justified, _⟩ :=
        ((composed.agreeing.valid correct).proposed id _ isProposal).justified
      have notGenesis : block.notExecuted.Rooted := Block.rooted_of_quorum justified
      exact notGenesis
    obtain ⟨sender, content⟩ := message
    cases content with
    | newBlock block prepare => exact ⟨admitted, rooted honest⟩
    | requestedBlock block => exact ⟨admitted, honest.1⟩
    | commitment vote => exact admitted
    | _ => trivial
  | viewTimeout id env =>
    intro follows
    have none : (world.replicas id).commitments = [] := by
      by_contra some
      exact Bool.false_ne_true (follows.symm.trans (sourced.leads some))
    refine ⟨steady.idle none, ?_⟩
    by_contra missing
    exact absurd (steady.settled (not_le.mp missing)) (ne_of_gt scheduled.2)
  | _ => trivial

theorem Scheduled.fromReplica (scheduled : world.Scheduled setup event) :
    event.FromReplica setup.n := by
  cases event with
  | deliver source receiver env message => exact scheduled.1
  | _ => trivial

theorem Composed.acted (composed : world.Composed setup) [P.Dependable] (registers : P.Registers)
    [CollisionFree P] (all : setup.correct = Finset.range setup.n)
    (correct : event.place ∈ setup.correct) (possible : event.Possible setup world)
    (scheduled : world.Scheduled setup event)
    (run : event.handle (world.replicas event.place) = .ok (replica, output)) :
    (world.acted event.place replica output).Composed setup := by
  obtain ⟨resting, grown⟩ := composed.resting all correct possible scheduled run
  have after : (world.acted event.place replica output).replicas event.place = replica :=
    Function.update_self ..
  have wrote : (world.acted event.place replica output).history event.place =
    (world.history event.place).join output := Function.update_self ..
  have rest : ∀ id, id ≠ event.place →
      (world.acted event.place replica output).replicas id = world.replicas id ∧
      (world.acted event.place replica output).history id = world.history id :=
    fun id different => ⟨Function.update_of_ne different .., Function.update_of_ne different ..⟩
  refine ⟨composed.agreeing.acted all correct possible scheduled.fromReplica run, ?_, ?_⟩
  · intro id isCorrect
    by_cases mine : id = event.place
    · subst mine
      rw [after]
      exact ⟨resting, grown.me.trans (composed.rests _ correct).2⟩
    · rw [(rest id mine).1]
      exact composed.rests id isCorrect
  intro id isCorrect
  by_cases mine : id = event.place
  · subst mine
    -- the first event of a replica is its initialisation, and there is only one
    refine .inl ?_
    unfold Started
    rw [after, wrote]
    rcases composed.used _ correct with ⟨started, _⟩ | ⟨isInitial, empty⟩
    · refine ⟨?_, composed.keeps all correct possible scheduled started run⟩
      obtain ⟨key, member⟩ := started
      exact ⟨key, mem_append_left _ member⟩
    have fresh : ¬ world.Started event.place := by
      rintro ⟨key, member⟩
      rw [empty] at member
      cases member
    cases event with
    | init id env =>
      rw [isInitial] at run
      obtain ⟨steady, key, member⟩ := initHandshake_steady registers run
      rw [(setup.named _ correct).1] at member
      exact ⟨⟨key, empty ▸ member⟩, empty ▸ steady⟩
    | deliver source receiver env message => exact absurd scheduled.2 fresh
    | request id env tx => exact absurd scheduled fresh
    | blockTimeout id env => exact absurd scheduled fresh
    | viewTimeout id env => exact absurd scheduled.1 fresh
    | addPeer id peer key => cases run
    | call id request => cases run
  unfold Started
  rw [(rest id mine).1, (rest id mine).2]
  exact composed.used id isCorrect

end Honest

theorem run_composed [P.Dependable] (registers : P.Registers) [CollisionFree P] {setup : Setup P}
    (peers : 2 ≤ setup.n)
    (timed : ∀ id ∈ setup.correct, (setup.config id).initialViewTimeout ≤ durationMax)
    (all : setup.correct = Finset.range setup.n) {world : World P}
    (run : Run setup (World.Scheduled setup) world) : world.Composed setup := by
  induction run with
  | @start world initial =>
    have rests : world.Rests True setup :=
      initial_rests peers (fun strict => absurd trivial strict) timed initial
    exact ⟨initial_agreeing initial, rests, fun _ correct => .inr (initial.started correct)⟩
  | step before scheduled step ih =>
    cases step with
    | act correct possible run =>
      exact ih.acted registers all correct possible scheduled run
    | addPeer foreign run =>
      exact ⟨⟨ih.agreeing.named, ih.agreeing.sourced, ih.agreeing.conforms⟩, ih.rests, ih.used⟩
    | call foreign run =>
      exact ⟨⟨ih.agreeing.named, ih.agreeing.sourced, ih.agreeing.conforms⟩, ih.rests, ih.used⟩

end World

end Abcperf.Damysus
