import Abcperf.Nxbft.Steps
import Abcperf.Nxbft.RecoveryNetwork

/-! Who can start a recovery. A replica acts on a request for the id that sent it, but on a proposal
or a commit for any id that it names, and the transport's sender is dropped. So the enclave that a
correct replica is bound to changes only on its own request as long as the other hosts name correct
replicas only in recoveries that those have asked for. -/

namespace Abcperf.Nxbft

open Lib Lib.Outcome Plain Replica Relation.ReflTransGen List

def RecoveryPeerMessage.subject {P : Platform} (message : RecoveryPeerMessage P) :
    Nat × P.Attestation :=
  match message.message with
  | .recoveryRequest attestation => (message.sender, attestation)
  | .recoveryProposal proposal => (proposal.forId, proposal.forAttestation)
  | .recoveryCommit commit => (commit.forId, commit.forAttestation)

def Effect.subject {P : Platform} : Effect P → Option (Nat × P.Attestation)
  | .requested _ => none
  | .marked id attestation => some (id, attestation)
  | .dropped id attestation => some (id, attestation)
  | .counted _ commit _ => some (commit.forId, commit.forAttestation)
  | .replaced commit _ => some (commit.forId, commit.forAttestation)

variable {R : RecoveryPlatform}

namespace RecoverableReplica

def face (replica : RecoverableReplica R.toPlatform) :=
  (replica.base.me, replica.pending, replica.log)

def standing (replica : RecoverableReplica R.toPlatform) :=
  (replica.face, replica.base.n, replica.base.quorum, replica.recoveryCommits)

def opened (replica : RecoverableReplica R.toPlatform) (attestation : R.Attestation) :
    RecoverableReplica R.toPlatform :=
  { replica with
    recoveryCommits := Function.update replica.recoveryCommits attestation (some fun _ => none) }

/-- What the handling of a recovery message about `subject` does to the state of the recovery. -/
inductive Deed (subject : Nat × R.Attestation) (before after : RecoverableReplica R.toPlatform) :
    Prop
  | quiet (rest : after.standing = before.standing)
  | request (attestation : R.Attestation)
    (rest : after.standing = (before.request attestation).standing)
  | broadcast {message : RecoveryMessage R.toPlatform}
      (about : RecoveryPeerMessage.subject ⟨before.base.me, message⟩ = subject)
      (rest : after.standing = (before.broadcast message).standing)
  | record {effect : Effect R.toPlatform} (about : effect.subject = some subject)
      (other : ∀ commit maxRound, .replaced commit maxRound ≠ effect)
      (rest : after.standing = (before.record effect).standing)
  | opened (attestation : R.Attestation)
    (rest : after.standing = (before.opened attestation).standing)

abbrev Deeds (subject : Nat × R.Attestation) :
    RecoverableReplica R.toPlatform → RecoverableReplica R.toPlatform → Prop :=
  Relation.ReflTransGen (Deed subject)

variable {subject : Nat × R.Attestation} {env : Env} {attestation : R.Attestation} {sender : Nat}
  {before after replica next : RecoverableReplica R} {proposal : RecoveryProposal R}
  {commit : RecoveryCommit R} {backup : Backup R}

theorem repeatRequest_deeds (run : replica.repeatRequest = .ok next) :
    Deeds subject replica next := by
  unfold repeatRequest at run
  split at run
  · split at run
    · exact pure_ok.mp run ▸ single (.request _ rfl)
    · cases run
  · exact pure_ok.mp run ▸ refl

theorem dropBuffered_deed {id : Nat} (run : replica.dropBuffered id attestation = .ok next) :
    Deed (id, attestation) replica next := by
  simp only [dropBuffered, bind_ok, pure_ok] at run
  obtain ⟨_, _, rfl⟩ := run
  exact .record rfl (fun _ _ same => by cases same) rfl

theorem beginRecovery_deeds (run : replica.beginRecovery sender attestation = .ok next) :
    Deeds (sender, attestation) replica next := by
  simp only [beginRecovery, bind_ok] at run
  obtain ⟨asked, isAsked, _, _, _, _, _, _, dropped, isDropped, row, _, run⟩ := run
  have entered : Deeds (sender, attestation) replica dropped := by
    refine (repeatRequest_deeds isAsked).trans (head (.opened attestation rfl) (head ?_
      (single (dropBuffered_deed isDropped))))
    exact .record rfl (fun _ _ same => by cases same) rfl
  cases row with
  | error error => exact pure_ok.mp run ▸ entered.tail (.quiet rfl)
  | ok messages => exact pure_ok.mp run ▸ entered.tail (.broadcast rfl rfl)

theorem processRecoveryRequest_deeds
    (run : replica.processRecoveryRequest sender attestation = .ok next) :
    Deeds (sender, attestation) replica next := by
  unfold processRecoveryRequest at run
  split at run
  · exact pure_ok.mp run ▸ refl
  split at run
  · exact pure_ok.mp run ▸ single (.quiet rfl)
  dsimp only at run
  split at run
  · exact pure_ok.mp run ▸ single (.quiet rfl)
  · exact pure_ok.mp run ▸ single (.quiet rfl)
  · refine head ?_ (beginRecovery_deeds run)
    exact .quiet rfl

theorem relayed_deeds {forId : Nat}
    {process : RecoverableReplica R → Outcome (RecoverableReplica R)}
    (run : replica.relayed forId attestation process = .ok next) :
    ∃ asked, Deeds (forId, attestation) replica asked ∧
      (next = asked ∨ process asked = .ok next) := by
  simp only [relayed, bind_ok] at run
  obtain ⟨asked, isAsked, run⟩ := run
  have first := processRecoveryRequest_deeds isAsked
  split at run
  · exact ⟨next, pure_ok.mp run ▸ first, .inl rfl⟩
  split at run
  · exact ⟨next, pure_ok.mp run ▸ first, .inl rfl⟩
  · exact ⟨next, pure_ok.mp run ▸ first.tail (.quiet rfl), .inl rfl⟩
  · exact ⟨asked, first, .inr run⟩

theorem keepLongest_standing (replica : RecoverableReplica R) (attestation : R.Attestation)
    (messages : List (SignedMessage R)) :
    (replica.keepLongest attestation messages).standing = replica.standing := by
  unfold keepLongest
  split
  · split <;> rfl
  · rfl

theorem acceptProposal_deeds {senders : IdSet}
    (run : replica.acceptProposal proposal senders = .ok next) :
    Deeds (proposal.forId, proposal.forAttestation) replica next := by
  simp only [acceptProposal] at run
  refine head (.quiet (keepLongest_standing replica proposal.forAttestation proposal.messages)) ?_
  split at run
  · simp only [bind_ok, pure_ok] at run
    obtain ⟨_, _, rfl⟩ := run
    exact refl
  simp only [commitLongest, bind_ok, pure_ok] at run
  obtain ⟨messages, _, rfl⟩ := run
  exact single (.broadcast rfl rfl)

theorem collectProposal_deeds (run : replica.collectProposal env sender proposal = .ok next) :
    Deeds (proposal.forId, proposal.forAttestation) replica next := by
  simp only [collectProposal, bind_ok] at run
  obtain ⟨senders, _, run⟩ := run
  split at run
  · exact pure_ok.mp run ▸ refl
  obtain ⟨verified, _, run⟩ := bind_ok.mp run
  split at run
  · exact pure_ok.mp run ▸ single (.quiet rfl)
  · exact pure_ok.mp run ▸ single (.quiet rfl)
  obtain ⟨fits, _, run⟩ := bind_ok.mp run
  split at run
  · refine head ?_ (acceptProposal_deeds run)
    exact .quiet rfl
  · exact pure_ok.mp run ▸ single (.quiet rfl)

theorem restoreVertices_standing {checks : Bool} {forId round round' : Nat}
    {messages : List (SignedMessage R)}
    (run : messages.foldlM (restoreVertex checks forId) (replica, round) = .ok (next, round')) :
    next.standing = replica.standing := by
  refine foldlM_keeps (fun state : RecoverableReplica R × Nat =>
    state.1.standing = replica.standing) _ _ _ _ ?_ rfl run
  rintro ⟨current, _⟩ message ⟨after, _⟩ _ kept step
  simp only [restoreVertex, bind_ok, pair_ok] at step
  obtain ⟨_, _, known, _, _, _, rfl, _⟩ := step
  cases known <;> exact kept

theorem applied_standing {restartRound : Nat} {own : Prop} [Decidable own]
    (run : (if own then replica.rejoin restartRound >>= fun replica =>
      replica.finishRecovery env commit else replica.finishRecovery env commit) = .ok next) :
    next.standing = replica.standing := by
  have finished : ∀ {replica next : RecoverableReplica R},
      replica.finishRecovery env commit = .ok next → next.standing = replica.standing := by
    intro replica next run
    simp only [finishRecovery, bind_ok, pure_ok] at run
    obtain ⟨base, traversed, rfl⟩ := run
    have moves := (traverseVertexBuffer_path traversed).moves
    simp only [standing, face, moves.me, moves.n, moves.quorum]
  split at run
  · simp only [rejoin, bind_ok, pure_ok] at run
    obtain ⟨_, ⟨_, _, _, _, rfl⟩, run⟩ := run
    exact (finished run).trans rfl
  · exact finished run

theorem applyCommit_cases (run : replica.applyCommit env commit = .ok next) :
    ∃ dropped restored round,
      replica.dropBuffered commit.forId commit.forAttestation = .ok dropped ∧
      commit.messages.foldlM (restoreVertex env.overflowChecks commit.forId) (dropped, 0) =
        .ok (restored, round) ∧
      (next.standing = restored.standing ∨ next.standing = (restored.record
        (.replaced commit (restored.base.maxRounds commit.forId))).standing) := by
  simp only [applyCommit, bind_ok, Prod.exists] at run
  obtain ⟨dropped, isDropped, restored, round, isRestored, enclave, result, _, run⟩ := run
  refine ⟨dropped, restored, round, isDropped, isRestored, ?_⟩
  cases result with
  | error error => exact .inl (pure_ok.mp run ▸ rfl)
  | ok done => exact .inr ((applied_standing run).trans rfl)

def Justified (asked : Nat → R.Attestation → Prop) (me : Nat)
    (replica : RecoverableReplica R.toPlatform) (subject : Nat × R.Attestation) : Prop :=
  asked subject.1 subject.2 ∨ (subject.1 = me ∧ .requested subject.2 ∈ replica.log)

/-- All that was done to the replicas `correct` and sent about them is justified. -/
structure Bound (correct : Finset Nat) (asked : Nat → R.Attestation → Prop) (me : Nat)
    (history : RecoveryOutput R.toPlatform) (replica : RecoverableReplica R.toPlatform) : Prop where
  isMe : replica.base.me = me
  requested : ∀ attestation, .requested attestation ∈ replica.log → asked me attestation ∨
    ⟨me, .recoveryRequest attestation⟩ ∈ history.broadcasts ∨
      ⟨me, .recoveryRequest attestation⟩ ∈ replica.pending
  did : ∀ effect ∈ replica.log, ∀ subject, effect.subject = some subject → subject.1 ∈ correct →
    Justified asked me replica subject
  sent : ∀ message, message ∈ history.broadcasts ∨ message ∈ replica.pending →
    message.subject.1 ∈ correct → Justified asked me replica message.subject

variable {correct : Finset Nat} {asked : Nat → R.Attestation → Prop} {me : Nat}
  {history output : RecoveryOutput R}

theorem Justified.mono (justified : Justified asked me before subject)
    (kept : ∀ effect ∈ before.log, effect ∈ after.log) : Justified asked me after subject :=
  justified.imp_right fun own => ⟨own.1, kept _ own.2⟩

theorem Bound.congr (bound : Bound correct asked me history before)
    (same : after.face = before.face) : Bound correct asked me history after := by
  simp only [face, Prod.mk.injEq] at same
  obtain ⟨isMe, pending, log⟩ := same
  refine ⟨isMe.trans bound.isMe, ?_, ?_, ?_⟩
  · rw [log, pending]
    exact bound.requested
  · rw [log]
    exact fun effect member subject isSubject isCorrect =>
      (bound.did effect member subject isSubject isCorrect).mono fun _ => log ▸ id
  rw [pending]
  exact fun message member isCorrect =>
    (bound.sent message member isCorrect).mono fun _ => log ▸ id

/-- The invariant while a message about `subject` is processed in the state `start`. -/
structure Tied (correct : Finset Nat) (asked : Nat → R.Attestation → Prop) (me : Nat)
    (history : RecoveryOutput R.toPlatform) (subject : Nat × R.Attestation)
    (start replica : RecoverableReplica R.toPlatform) : Prop where
  bound : Bound correct asked me history replica
  justified : subject.1 ∈ correct → Justified asked me replica subject
  kept : ∀ effect ∈ start.log, effect ∈ replica.log

section

variable {start : RecoverableReplica R} (tied : Tied correct asked me history subject start before)

include tied

theorem Tied.later (bound : Bound correct asked me history after)
    (grown : ∀ effect ∈ before.log, effect ∈ after.log) :
    Tied correct asked me history subject start after :=
  ⟨bound, fun isCorrect => (tied.justified isCorrect).mono grown,
    fun effect member => grown effect (tied.kept effect member)⟩

theorem Tied.congr (same : after.face = before.face) :
    Tied correct asked me history subject start after := by
  have log : after.log = before.log := congrArg (·.2.2) same
  exact tied.later (tied.bound.congr same) fun _ member => log ▸ member

theorem Tied.record {effect : Effect R} (about : effect.subject = some subject) :
    Tied correct asked me history subject start (before.record effect) := by
  have grown : ∀ effect' ∈ before.log, effect' ∈ (before.record effect).log :=
    fun _ => mem_append_left _
  refine tied.later ⟨tied.bound.isMe, ?_, ?_, ?_⟩ grown
  · intro attestation member
    rcases mem_append.mp member with old | fresh
    · exact tied.bound.requested attestation old
    · rw [← mem_singleton.mp fresh] at about
      cases about
  · refine forall_mem_concat (fun other old subject isSubject isCorrect =>
      (tied.bound.did other old subject isSubject isCorrect).mono grown) ?_
    intro subject isSubject isCorrect
    rw [about, Option.some.injEq] at isSubject
    subst isSubject
    exact (tied.justified isCorrect).mono grown
  · exact fun message member isCorrect => (tied.bound.sent message member isCorrect).mono grown

theorem Tied.request (attestation : R.Attestation) :
    Tied correct asked me history subject start (before.request attestation) := by
  have grown : ∀ effect ∈ before.log, effect ∈ (before.request attestation).log :=
    fun _ => mem_append_left _
  have asks : .requested attestation ∈ (before.request attestation).log :=
    mem_append_right _ (mem_singleton.mpr rfl)
  have sends : ⟨before.base.me, .recoveryRequest attestation⟩ ∈
      (before.request attestation).pending :=
    mem_append_right _ (mem_singleton.mpr rfl)
  refine tied.later ⟨tied.bound.isMe, ?_, ?_, ?_⟩ grown
  · intro other member
    rcases mem_append.mp member with old | fresh
    · exact (tied.bound.requested other old).imp_right (Or.imp_right (mem_append_left _))
    · cases mem_singleton.mp fresh
      exact .inr (.inr (tied.bound.isMe ▸ sends))
  · exact forall_mem_concat (fun effect old subject isSubject isCorrect =>
      (tied.bound.did effect old subject isSubject isCorrect).mono grown) nofun
  rintro message (returned | pending) isCorrect
  · exact (tied.bound.sent message (.inl returned) isCorrect).mono grown
  rcases mem_append.mp pending with old | fresh
  · exact (tied.bound.sent message (.inr old) isCorrect).mono grown
  · rw [mem_singleton.mp fresh]
    exact .inr ⟨tied.bound.isMe, asks⟩

theorem Tied.broadcast {message : RecoveryMessage R}
    (about : RecoveryPeerMessage.subject ⟨before.base.me, message⟩ = subject) :
    Tied correct asked me history subject start (before.broadcast message) := by
  refine tied.later ⟨tied.bound.isMe, ?_, tied.bound.did, ?_⟩ fun _ => id
  · exact fun attestation member => (tied.bound.requested attestation member).imp_right
      (Or.imp_right (mem_append_left _))
  rintro message (returned | pending) isCorrect
  · exact tied.bound.sent message (.inl returned) isCorrect
  rcases mem_append.mp pending with old | fresh
  · exact tied.bound.sent message (.inr old) isCorrect
  · rw [mem_singleton.mp fresh, about] at isCorrect ⊢
    exact tied.justified isCorrect

theorem Tied.deed (deed : Deed subject before after) :
    Tied correct asked me history subject start after := by
  cases deed with
  | quiet rest => exact tied.congr (congrArg Prod.fst rest)
  | request attestation rest => exact (tied.request attestation).congr (congrArg Prod.fst rest)
  | broadcast about rest => exact (tied.broadcast about).congr (congrArg Prod.fst rest)
  | record about other rest => exact (tied.record about).congr (congrArg Prod.fst rest)
  | opened attestation rest => exact tied.congr ((congrArg Prod.fst rest).trans rfl)

omit tied in
theorem Tied.deeds (deeds : Deeds subject before after)
    (tied : Tied correct asked me history subject start before) :
    Tied correct asked me history subject start after := by
  induction deeds with
  | refl => exact tied
  | tail _ deed ih => exact ih.deed deed

end

theorem collectCommit_tied {start : RecoverableReplica R}
    (tied : Tied correct asked me history (commit.forId, commit.forAttestation) start replica)
    (run : replica.collectCommit env sender commit = .ok next) :
    Tied correct asked me history (commit.forId, commit.forAttestation) start next := by
  simp only [collectCommit, bind_ok] at run
  obtain ⟨commits, _, run⟩ := run
  have counted : Tied _ _ _ _ _ _ (replica.record
    (.counted sender commit (replica.base.maxRounds commit.forId))) := tied.record rfl
  split at run
  · exact pure_ok.mp run ▸ tied
  split at run
  · exact pure_ok.mp run ▸ counted.congr rfl
  split at run
  · exact pure_ok.mp run ▸ counted.congr rfl
  rename_i agreed _
  simp only [bind_ok, assert_ok] at run
  obtain ⟨_, sameId, _, sameAttestation, run⟩ := run
  obtain ⟨dropped, restored, round, isDropped, isRestored, ending⟩ := applyCommit_cases run
  have installed : Tied correct asked me history (commit.forId, commit.forAttestation) start
      restored := by
    rw [sameId, sameAttestation] at isDropped
    refine Tied.congr (Tied.deed (counted.congr ?_) (dropBuffered_deed isDropped))
      (congrArg Prod.fst (restoreVertices_standing isRestored))
    rfl
  rcases ending with same | same
  · exact installed.congr (congrArg Prod.fst same)
  · refine (installed.record ?_).congr (congrArg Prod.fst same)
    rw [Effect.subject, sameId, sameAttestation]

theorem dispatch_tied {message : RecoveryPeerMessage R}
    (bound : Bound correct asked me history replica)
    (justified : message.subject.1 ∈ correct → Justified asked me replica message.subject)
    (run : replica.dispatch env (.recovery message) = .ok next) :
    Tied correct asked me history message.subject replica next := by
  have tied : Tied correct asked me history message.subject replica replica :=
    ⟨bound, justified, fun _ => id⟩
  simp only [dispatch] at run
  split at run
  · exact pure_ok.mp run ▸ tied.congr rfl
  obtain ⟨sender, content⟩ := message
  cases content with
  | recoveryRequest attestation => exact tied.deeds (processRecoveryRequest_deeds run)
  | recoveryProposal proposal =>
    obtain ⟨asked, deeds, rfl | run⟩ := relayed_deeds run
    · exact tied.deeds deeds
    · exact (tied.deeds deeds).deeds (collectProposal_deeds run)
  | recoveryCommit commit =>
    obtain ⟨asked, deeds, rfl | run⟩ := relayed_deeds run
    · exact tied.deeds deeds
    · exact collectCommit_tied (tied.deeds deeds) run

theorem Bound.recalled {past : List (Effect R)} (bound : Bound correct asked me history replica)
    (requested : ∀ attestation, .requested attestation ∈ past → asked me attestation)
    (did : ∀ effect ∈ past, ∀ subject, effect.subject = some subject → subject.1 ∈ correct →
      asked subject.1 subject.2) :
    Bound correct asked me history { replica with log := past ++ replica.log } where
  isMe := bound.isMe
  requested := by
    intro attestation member
    rcases mem_append.mp member with old | new
    · exact .inl (requested attestation old)
    · exact bound.requested attestation new
  did := by
    intro effect member subject isSubject isCorrect
    rcases mem_append.mp member with old | new
    · exact .inl (did effect old subject isSubject isCorrect)
    · exact (bound.did effect new subject isSubject isCorrect).mono
        fun _ => mem_append_right _
  sent := fun message member isCorrect =>
    (bound.sent message member isCorrect).mono fun _ => mem_append_right _

def Admissible (correct : Finset Nat) (asked : Nat → R.Attestation → Prop) (me : Nat)
    (replica : RecoverableReplica R.toPlatform) : AnyMessage R.toPlatform → Prop
  | .protocol _ => True
  | .recovery message => message.subject.1 ∈ correct → Justified asked me replica message.subject

theorem machine_bound (env : Env) : (machine env).Rule (Bound correct asked me)
      (fun before after => ∀ effect ∈ before.log, effect ∈ after.log)
      (Admissible (R := R) correct asked me) where
  refl := fun _ _ member => member
  trans := fun first second effect member => second effect (first effect member)
  dispatch := by
    intro history state message next bound admitted run
    cases message with
    | protocol message =>
      -- The protocol neither sends recovery messages nor writes the log.
      simp only [machine, dispatch, bind_ok, pure_ok] at run
      obtain ⟨base, handled, rfl⟩ := run
      exact ⟨{ bound with isMe := (dispatch_path handled).moves.me.trans bound.isMe },
        fun _ member => member⟩
    | recovery message =>
      have tied := dispatch_tied bound admitted run
      exact ⟨tied.bound, tied.kept⟩
  take := by
    intro history state bound
    refine ⟨⟨bound.isMe, ?_, bound.did, ?_⟩, fun _ member => member, ?_⟩
    · intro attestation member
      refine (bound.requested attestation member).imp_right fun sent => .inl ?_
      exact mem_append.mpr sent
    · intro message member
      rcases member with returned | pending
      · exact bound.sent message (mem_append.mp returned)
      · cases pending
    intro message member
    rcases mem_append.mp member with own | protocol
    · obtain ⟨content, isPending, rfl⟩ := mem_map.mp own
      exact bound.sent content (.inr isPending)
    · obtain ⟨content, _, rfl⟩ := mem_map.mp protocol
      trivial
  admitted := by
    intro before after message grown admitted
    cases message with
    | protocol message => trivial
    | recovery message => exact fun isCorrect => (admitted isCorrect).mono grown

theorem take_settled (state : RecoverableReplica R) : (take state).1.pending = [] := rfl

theorem processPeerMessage_settled {message : AnyMessage R}
    (run : replica.processPeerMessage env message = .ok (next, output)) : next.pending = [] :=
  Reflector.process_settles (fun state : RecoverableReplica R => state.pending = [])
    take_settled env.fuel run

section

variable {now : Nat}
  (past : ∀ message ∈ history.broadcasts, message.subject.1 ∈ correct →
    asked message.subject.1 message.subject.2)

include past

theorem restored_bound {enclave : EnclaveAutomata R} :
    Bound correct asked backup.me history ((restored backup enclave now).request attestation) where
  isMe := rfl
  requested := by
    intro other member
    cases mem_singleton.mp member
    exact .inr (.inr (mem_singleton.mpr rfl))
  did := by
    intro effect member subject isSubject
    rw [mem_singleton.mp member] at isSubject
    cases isSubject
  sent := by
    intro message member isCorrect
    rcases member with returned | pending
    · exact .inl (past message returned isCorrect)
    · rw [mem_singleton.mp pending]
      exact .inr ⟨rfl, mem_singleton.mpr rfl⟩

theorem initRecovery_bound {key : R.Key}
    (run : initRecovery env key now backup = .ok (next, output)) :
    Bound correct asked backup.me (history.append output) next ∧ next.pending = [] := by
  simp only [initRecovery, bind_ok, Prod.exists] at run
  obtain ⟨enclave, result, _, run⟩ := run
  cases result with
  | error error => cases run
  | ok done =>
    dsimp only at run
    split at run
    · cases run
    exact ⟨(Reflector.reflect_keeps (machine_bound env) (restored_bound past) run).1,
      Reflector.reflect_settles (fun state : RecoverableReplica R =>
        state.pending = []) take_settled run⟩

end

end RecoverableReplica

namespace RecoveryWorld

open RecoverableReplica

def Requested (world : RecoveryWorld R.toPlatform) (id : Nat) (attestation : R.Attestation) :
    Prop :=
  ⟨id, .recoveryRequest attestation⟩ ∈ (world.history id).broadcasts

/-- A message of a host that is not correct names a correct replica only with an attestation which
that replica has broadcast a request for. -/
def NamesRequested (setup : Setup R.toPlatform) (world : RecoveryWorld R.toPlatform) :
    RecoveryEvent R.toPlatform → Prop
  | .act _ _ (.message source (.recovery message)) => source ∉ setup.correct →
      message.subject.1 ∈ setup.correct → world.Requested message.subject.1 message.subject.2
  | _ => True

/-- About correct replicas, this one has only recorded and sent what they asked for. -/
structure Faithful (setup : Setup R.toPlatform) (world : RecoveryWorld R.toPlatform) (id : Nat) :
    Prop where
  isMe : (world.replicas id).base.me = id
  settled : (world.replicas id).pending = []
  saved : ∀ backup, world.backups id = some backup → backup.me = id
  requested : ∀ attestation, .requested attestation ∈ (world.replicas id).log →
    world.Requested id attestation
  did : ∀ effect ∈ (world.replicas id).log, ∀ subject, effect.subject = some subject →
    subject.1 ∈ setup.correct → world.Requested subject.1 subject.2
  sent : ∀ message ∈ (world.history id).broadcasts, message.subject.1 ∈ setup.correct →
    world.Requested message.subject.1 message.subject.2

variable {setup : Setup R} {world : RecoveryWorld R} {id : Nat}
  {replica : RecoverableReplica R} {output : RecoveryOutput R}
  {backup : Option (Backup R)}

theorem requested_acted {other : Nat} {attestation : R.Attestation}
    (requested : world.Requested other attestation) :
    (world.acted id replica output backup).Requested other attestation := by
  unfold Requested at *
  by_cases same : other = id
  · subst same
    rw [acted_history_self]
    exact mem_append_left _ requested
  · rw [acted_history_other _ _ _ _ _ same]
    exact requested

theorem saves_me {last : Option (Backup R)} (isMe : replica.base.me = id)
    (before : ∀ backup, last = some backup → backup.me = id)
    (saved : replica.saves output last = .ok backup) :
    ∀ taken, backup = some taken → taken.me = id := by
  intro taken isTaken
  rcases saves_cases saved with rfl | ⟨exported, isExported, rfl⟩
  · exact before taken isTaken
  · cases isTaken
    exact (backupEnclave_ok isExported).2.2.trans isMe

theorem Faithful.acted_other {other : Nat} (faithful : world.Faithful setup other)
    (different : other ≠ id) : (world.acted id replica output backup).Faithful setup other where
  isMe := by rw [acted_replicas_other _ _ _ _ _ different]; exact faithful.isMe
  settled := by rw [acted_replicas_other _ _ _ _ _ different]; exact faithful.settled
  saved := by rw [acted_backups_other _ _ _ _ _ different]; exact faithful.saved
  requested := by
    rw [acted_replicas_other _ _ _ _ _ different]
    exact fun attestation member => requested_acted (faithful.requested attestation member)
  did := by
    rw [acted_replicas_other _ _ _ _ _ different]
    exact fun effect member subject isSubject isCorrect =>
      requested_acted (faithful.did effect member subject isSubject isCorrect)
  sent := by
    rw [acted_history_other _ _ _ _ _ different]
    exact fun message member isCorrect => requested_acted (faithful.sent message member isCorrect)

section

variable (bound : Bound setup.correct world.Requested id ((world.history id).append output) replica)
  (settled : replica.pending = [])

include bound settled

theorem justified_requested (subject : Nat × R.Attestation)
    (justified : Justified world.Requested id replica subject) :
    (world.acted id replica output backup).Requested subject.1 subject.2 := by
  rcases justified with old | ⟨own, logged⟩
  · exact requested_acted old
  rcases bound.requested _ logged with old | sent | pending
  · rw [own]
    exact requested_acted old
  · rw [own, Requested, acted_history_self]
    exact sent
  · rw [settled] at pending
    cases pending

theorem Bound.faithful (saved : ∀ taken, backup = some taken → taken.me = id) :
    (world.acted id replica output backup).Faithful setup id where
  isMe := by rw [acted_replicas_self]; exact bound.isMe
  settled := by rw [acted_replicas_self]; exact settled
  saved := by rw [acted_backups_self]; exact saved
  requested := by
    rw [acted_replicas_self]
    exact fun attestation member =>
      justified_requested bound settled (id, attestation) (.inr ⟨rfl, member⟩)
  did := by
    rw [acted_replicas_self]
    exact fun effect member subject isSubject isCorrect =>
      justified_requested bound settled subject
        (bound.did effect member subject isSubject isCorrect)
  sent := by
    rw [acted_history_self]
    exact fun message member isCorrect =>
      justified_requested bound settled message.subject (bound.sent message (.inl member) isCorrect)

end

theorem Faithful.bound (faithful : world.Faithful setup id) :
    Bound setup.correct world.Requested id (world.history id) (world.replicas id) where
  isMe := faithful.isMe
  requested := fun attestation member => .inl (faithful.requested attestation member)
  did := fun effect member subject isSubject isCorrect =>
    .inl (faithful.did effect member subject isSubject isCorrect)
  sent := by
    intro message member isCorrect
    rcases member with returned | pending
    · exact .inl (faithful.sent message returned isCorrect)
    · rw [faithful.settled] at pending
      cases pending

/-- A call that is no recovery message changes nothing of what the invariant is about. -/
theorem Bound.lift (call : Replica R → Outcome (Replica R × Output R)) {correct : Finset Nat}
    {asked : Nat → R.Attestation → Prop} {history : RecoveryOutput R}
    {before : RecoverableReplica R} (bound : Bound correct asked id history before)
    (moves : ∀ {next output}, call before.base = .ok (next, output) → before.base.Moves next)
    (settled : before.pending = [])
    (run : RecoverableReplica.lift call before = .ok (replica, output)) :
    Bound correct asked id (history.append output) replica ∧ replica.pending = [] := by
  simp only [RecoverableReplica.lift, bind_ok, Prod.exists, pair_ok] at run
  obtain ⟨base, sent, called, rfl, rfl⟩ := run
  have same : (history.append ⟨sent, []⟩).broadcasts = history.broadcasts := append_nil _
  refine ⟨⟨(moves called).me.trans bound.isMe, ?_, bound.did, ?_⟩, settled⟩
  · rw [same]
    exact bound.requested
  · rw [same]
    exact bound.sent

theorem respond_bound {env : Env} {stimulus : Stimulus R}
    (others : ∀ other ∈ setup.correct, world.Faithful setup other) (correct : id ∈ setup.correct)
    (arrives : world.Arrives setup id stimulus)
    (named : world.NamesRequested setup (.act id env stimulus))
    (run : (world.replicas id).respond env stimulus = .ok (replica, output)) :
    Bound setup.correct world.Requested id ((world.history id).append output) replica ∧
      replica.pending = [] := by
  have faithful := others id correct
  cases stimulus with
  | init =>
    exact Bound.lift (·.initHandshake env) faithful.bound initHandshake_moves faithful.settled run
  | request tx =>
    exact Bound.lift (·.receiveClientRequest env tx) faithful.bound
      receiveClientRequest_moves faithful.settled run
  | timeout =>
    exact Bound.lift (·.processVertexTimeout env) faithful.bound
      processVertexTimeout_moves faithful.settled run
  | message source message =>
    refine ⟨(Reflector.process_keeps (machine_bound env) env.fuel faithful.bound ?_ run).1,
      processPeerMessage_settled run⟩
    cases message with
    | protocol message => trivial
    | recovery message =>
      intro isCorrect
      by_cases isSource : source ∈ setup.correct
      · exact .inl ((others source isSource).sent message (arrives.2 isSource) isCorrect)
      · exact .inl (named isSource isCorrect)

theorem step_faithful {next : RecoveryWorld R} {event : RecoveryEvent R}
    (faithful : ∀ id ∈ setup.correct, world.Faithful setup id)
    (named : world.NamesRequested setup event) (step : RecoveryStep setup world event next) :
    ∀ id ∈ setup.correct, next.Faithful setup id := by
  intro other isOther
  cases step with
  | act correct arrives run saved =>
    rename_i id env stimulus replica output backup
    by_cases same : other = id
    · subst same
      obtain ⟨bound, settled⟩ := respond_bound faithful correct arrives named run
      exact Bound.faithful bound settled (saves_me bound.isMe (faithful other correct).saved saved)
    · exact (faithful other isOther).acted_other same
  | restart correct held unused run saved =>
    rename_i id env key now last replica output backup
    have known := faithful id correct
    obtain ⟨bound, settled⟩ := initRecovery_bound known.sent run
    rw [known.saved last held] at bound
    have recalled := bound.recalled known.requested known.did
    have moved : (world.acted id { replica with
        log := (world.replicas id).log ++ replica.log } output backup).Faithful setup other := by
      by_cases same : other = id
      · subst same
        exact Bound.faithful recalled settled (saves_me bound.isMe (fun taken isTaken => by
          cases isTaken
          exact known.saved last held) saved)
      · exact (faithful other isOther).acted_other same
    exact { moved with }

theorem initial_faithful (initial : world.Initial setup) :
    ∀ id ∈ setup.correct, world.Faithful setup id := by
  intro id correct
  obtain ⟨⟨base, created, isReplica⟩, noHistory, noBackup⟩ := initial.1 id correct
  simp only [new, bind_ok, assert_ok, pure_ok] at created
  obtain ⟨_, _, _, _, _, _, _, _, rfl⟩ := created
  refine ⟨?_, ?_, ?_, ?_, ?_, ?_⟩
  · rw [isReplica]
    exact (setup.named id correct).1
  · rw [isReplica]
    rfl
  · intro backup held
    rw [noBackup] at held
    cases held
  · intro attestation member
    rw [isReplica] at member
    cases member
  · intro effect member
    rw [isReplica] at member
    cases member
  intro message member
  rw [noHistory] at member
  cases member

theorem run_faithful (run : RecoveryRun setup (NamesRequested setup) world) :
    ∀ id ∈ setup.correct, world.Faithful setup id := by
  induction run with
  | start initial => exact initial_faithful initial
  | step _ named step ih => exact step_faithful ih named step

end RecoveryWorld

/-- Whatever a correct replica does to another correct replica in a recovery, be it to mark it, to
drop its vertices or to replace its attestation, that replica has asked for the recovery. -/
theorem recovery_only_on_request {setup : Setup R.toPlatform} {world : RecoveryWorld R.toPlatform}
    (run : RecoveryRun setup (RecoveryWorld.NamesRequested setup) world) {id other : Nat}
    (isCorrect : id ∈ setup.correct) (isOther : other ∈ setup.correct) {attestation : R.Attestation}
    {effect : Effect R.toPlatform} (done : effect ∈ (world.replicas id).log)
    (about : effect.subject = some (other, attestation)) : world.Requested other attestation :=
  (RecoveryWorld.run_faithful run id isCorrect).did effect done _ about isOther

namespace Plain

theorem fromCorrect_named {setup : Setup platform} (world : RecoveryWorld platform)
    (event : RecoveryEvent platform) (passed : fromCorrect setup world event = true) :
    RecoveryWorld.NamesRequested (R := recoverable) setup world event := by
  unfold RecoveryWorld.NamesRequested
  split
  · exact fun incorrect => absurd (of_decide_eq_true passed) incorrect
  · trivial

def marks (log : List (Effect platform)) (id attestation : Nat) : Bool :=
  log.any fun effect =>
    match effect with
    | .marked marked given => marked == id && given == attestation
    | _ => false

theorem marks_sound {log : List (Effect platform)} {id attestation : Nat}
    (holds : marks log id attestation = true) : .marked id attestation ∈ log := by
  obtain ⟨effect, member, found⟩ := any_eq_true.mp holds
  split at found
  · simp only [Bool.and_eq_true, beq_iff_eq] at found
    obtain ⟨rfl, rfl⟩ := found
    exact member
  · cases found

/-- Replica 2 restarts, and its request reaches replica 0. -/
def requestedRecovery : List (RecoveryMove platform) :=
  handshake ++ [.restart 2 5, .recover 2 0 0]

/-- Host 2 proposes its own enclave to replica 0 as the one that replica 1 recovers with. -/
def imposedRecovery : List (RecoveryMove platform) :=
  [.init 0, .init 1, .inject 2 0 (.recovery ⟨2, .recoveryProposal ⟨1, 2, []⟩⟩)]

end Plain

/-- Replica 0 marks the restarted replica 2, which has asked for that. -/
theorem recovery_only_on_request_restarted :
    ∃ world, RecoveryRun (R := Plain.recoverable) Plain.fullSetup
        (RecoveryWorld.NamesRequested Plain.fullSetup) world ∧
      .marked 2 5 ∈ (world.replicas 0).log ∧
      RecoveryWorld.Requested (R := Plain.recoverable) world 2 (5 : Nat) := by
  obtain ⟨world, run, marked⟩ : ∃ world, RecoveryRun (R := recoverable) _
      (RecoveryWorld.NamesRequested fullSetup) world ∧ marks (world.replicas 0).log 2 5 = true :=
    (recoveryPlayer fullSetup).play_run fromCorrect_named full_initial requestedRecovery
      (by decide +kernel)
  have done := marks_sound marked
  exact ⟨world, run, done, recovery_only_on_request run (by decide) (by decide) done rfl⟩

/-- With one of three hosts not correct, a correct replica marks another correct replica as
recovering with the enclave of that host, for which nobody has asked. -/
theorem imposed_recovery : ∃ world,
    RecoveryRun (R := Plain.recoverable) Plain.setup (fun _ _ => True) world ∧
      0 ∈ Plain.setup.correct ∧ 1 ∈ Plain.setup.correct ∧
      3 - Plain.setup.correct.card ≤ 3 - (3 / 2 + 1) ∧
      Plain.recoverable.attestationCertificate (2 : Nat) = .ok (2 : Nat) ∧
      (∀ id ∈ Plain.setup.correct, (Plain.setup.config id).enclave ≠ (2 : Nat)) ∧
      (world.replicas 0).base.currentlyRecovering.contains 1 = true ∧
      .marked 1 2 ∈ (world.replicas 0).log ∧
      ¬ RecoveryWorld.Requested (R := Plain.recoverable) world 1 (2 : Nat) := by
  obtain ⟨world, run, recovering, marked, silent⟩ : ∃ world, RecoveryRun (R := recoverable) setup
      (fun _ _ => True) world ∧ (world.replicas 0).base.currentlyRecovering.contains 1 = true ∧
      marks (world.replicas 0).log 1 2 = true ∧ (world.history 1).broadcasts.length = 0 :=
    (recoveryPlayer setup).play_run (R := recoverable) (fun _ _ (_ : true = true) => trivial)
      pair_initial imposedRecovery (by decide +kernel)
  refine ⟨world, run, by decide, by decide, by decide, rfl, by decide, recovering,
    marks_sound marked, ?_⟩
  intro requested
  have none := eq_nil_of_length_eq_zero silent
  rw [RecoveryWorld.Requested, none] at requested
  cases requested

end Abcperf.Nxbft
