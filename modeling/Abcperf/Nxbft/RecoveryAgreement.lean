import Abcperf.Nxbft.Identity

/-! Agreement on recoveries. A row is installed once a quorum of equal commits is there, and two
quorums share a sender. That settles the row as long as nobody sends two different commits for one
recovery. The round up to which the old attestation stays valid is not part of a commit: it is the
newest round in which the replica itself has seen a vertex, and the row settles it only where it
reaches that far. -/

namespace Abcperf.Nxbft

open Lib Lib.Outcome Plain Function List Option

variable {R : RecoveryPlatform}

def newestRound {P : Platform} (messages : List (SignedMessage P)) : Nat :=
  messages.foldl (fun newest message => max newest message.payload.round) 0

theorem foldl_newest {P : Platform} (messages : List (SignedMessage P)) (start : Nat) :
    messages.foldl (fun newest message => max newest message.payload.round) start =
      max start (newestRound messages) := by
  unfold newestRound
  induction messages generalizing start with
  | nil => simp
  | cons message rest ih =>
    rw [foldl_cons, foldl_cons, ih (max start _), ih (max 0 _)]
    omega

theorem newestRound_cons {P : Platform} (message : SignedMessage P)
    (rest : List (SignedMessage P)) :
    newestRound (message :: rest) = max message.payload.round (newestRound rest) := by
  rw [newestRound, foldl_cons, foldl_newest, Nat.zero_max]

namespace RecoverableReplica

def sendersOf (n : Nat) (commits : Nat → Option (RecoveryCommit R.toPlatform))
    (commit : RecoveryCommit R.toPlatform) : Finset Nat :=
  (Finset.range n).filter fun sender => commits sender = some commit

theorem count_filterMap (commits : Nat → Option (RecoveryCommit R)) (commit : RecoveryCommit R)
    (ids : List Nat) : (ids.filterMap commits).count commit =
      (ids.filter fun sender => commits sender = some commit).length := by
  induction ids with
  | nil => rfl
  | cons id rest ih =>
    cases stored : commits id with
    | none => simp [stored, ih]
    | some other =>
      by_cases same : other = commit
      · subst same
        simp [stored, ih]
      · simp [stored, ih, same]

theorem count_storedCommits (n : Nat) (commits : Nat → Option (RecoveryCommit R))
    (commit : RecoveryCommit R) :
    (storedCommits n commits).count commit = (sendersOf n commits commit).card := by
  rw [storedCommits, count_filterMap, sendersOf]
  rfl

theorem length_filterMap_update (commits : Nat → Option (RecoveryCommit R)) (sender : Nat)
    (commit : RecoveryCommit R) : ∀ ids : List Nat, ids.Nodup →
      (ids.filterMap (update commits sender (some commit))).length ≤
        (ids.filterMap commits).length + 1 := by
  intro ids nodup
  induction ids with
  | nil => simp
  | cons id rest ih =>
    obtain ⟨fresh, nodup⟩ := nodup_cons.mp nodup
    by_cases same : id = sender
    · subst same
      -- The sender does not occur again, so the rest is as it was.
      have kept : rest.filterMap (update commits id (some commit)) = rest.filterMap commits := by
        refine filterMap_congr fun other member => ?_
        have different : other ≠ id := by
          rintro rfl
          exact fresh member
        exact update_of_ne different ..
      cases held : commits id with
      | none => simp [kept, held]
      | some _ => simp [kept, held]
    have later := ih nodup
    rw [filterMap_cons, update_of_ne same, filterMap_cons]
    split
    · exact later
    · simpa using later

theorem length_storedCommits_update (n : Nat) (commits : Nat → Option (RecoveryCommit R))
    (sender : Nat) (commit : RecoveryCommit R) :
    (storedCommits n (update commits sender (some commit))).length ≤
    (storedCommits n commits).length + 1 :=
  length_filterMap_update commits sender commit _ nodup_range

variable {n quorum sender forId : Nat} {commit : RecoveryCommit R}
  {before after : RecoverableReplica R} {attestation : R.Attestation}
  {output : RecoveryOutput R}

/-- When the stored commits have just reached a quorum, the one that a quorum has sent is the one
that came last. -/
theorem quorumCommit_last {commits : Nat → Option (RecoveryCommit R)}
    {agreed : RecoveryCommit R} (inRange : sender < n)
    (few : (storedCommits n commits).length < quorum) (found : quorumCommit quorum
      (storedCommits n (update commits sender (some commit))) = some agreed) :
    agreed = commit ∧ quorum ≤ (sendersOf n (update commits sender (some commit)) commit).card := by
  have enough : quorum ≤ (storedCommits n (update commits sender (some commit))).count agreed := by
    unfold quorumCommit at found
    simpa using List.find?_some found
  have bound := length_storedCommits_update n commits sender commit
  have all : (storedCommits n (update commits sender (some commit))).count agreed =
      (storedCommits n (update commits sender (some commit))).length :=
    le_antisymm count_le_length (by omega)
  have member : commit ∈ storedCommits n (update commits sender (some commit)) :=
    mem_filterMap.mpr ⟨sender, mem_range.mpr inRange, update_self ..⟩
  have same := count_eq_length.mp all commit member
  rw [same] at enough
  exact ⟨same, count_storedCommits n _ commit ▸ enough⟩

/-- A quorum of senders below `n` has sent the commit, and it was counted when `round` was the
newest round above the row. -/
def Backed (n quorum : Nat) (log : List (Effect R.toPlatform))
    (commit : RecoveryCommit R.toPlatform) (maxRound : Nat) : Prop :=
  (∃ senders ⊆ Finset.range n, quorum ≤ senders.card ∧
    ∀ sender ∈ senders, ∃ round, .counted sender commit round ∈ log) ∧
  ∃ sender round, .counted sender commit round ∈ log ∧
    maxRound = max round (newestRound commit.messages)

theorem Backed.mono {maxRound : Nat} {log more : List (Effect R)}
    (backed : Backed n quorum log commit maxRound) (kept : ∀ effect ∈ log, effect ∈ more) :
    Backed n quorum more commit maxRound := by
  obtain ⟨⟨senders, below, enough, each⟩, sender, round, counted, isRound⟩ := backed
  refine ⟨⟨senders, below, enough, fun sender member => ?_⟩, sender, round, kept _ counted, isRound⟩
  obtain ⟨round, counted⟩ := each sender member
  exact ⟨round, kept _ counted⟩

/-- The commits that are stored were counted, and they are fewer than a quorum; every replacement
has a quorum of counted commits behind it. -/
structure Tallied (n quorum : Nat) (replica : RecoverableReplica R.toPlatform) : Prop where
  isN : replica.base.n = n
  isQuorum : replica.base.quorum = quorum
  few : ∀ attestation commits, replica.recoveryCommits attestation = some commits →
    (storedCommits n commits).length < quorum
  stored : ∀ attestation commits, replica.recoveryCommits attestation = some commits →
    ∀ sender commit, commits sender = some commit →
      ∃ round, .counted sender commit round ∈ replica.log
  replaced : ∀ commit maxRound, .replaced commit maxRound ∈ replica.log →
    Backed n quorum replica.log commit maxRound

variable {n quorum : Nat} {env : Env} {replica next : RecoverableReplica R}

theorem Tallied.congr (tallied : Tallied n quorum before)
    (same : after.standing = before.standing) : Tallied n quorum after := by
  simp only [standing, face, Prod.mk.injEq] at same
  obtain ⟨⟨_, _, log⟩, isN, isQuorum, commits⟩ := same
  refine ⟨isN.trans tallied.isN, isQuorum.trans tallied.isQuorum, ?_, ?_, ?_⟩
  · rw [commits]
    exact tallied.few
  · rw [commits, log]
    exact tallied.stored
  · rw [log]
    exact tallied.replaced

theorem Tallied.record {effect : Effect R} (tallied : Tallied n quorum replica)
    (backed : ∀ commit maxRound, .replaced commit maxRound = effect →
      Backed n quorum replica.log commit maxRound) : Tallied n quorum (replica.record effect) where
  isN := tallied.isN
  isQuorum := tallied.isQuorum
  few := tallied.few
  stored := by
    intro attestation commits isCommits sender commit isCommit
    obtain ⟨round, counted⟩ := tallied.stored attestation commits isCommits sender commit isCommit
    exact ⟨round, mem_append_left _ counted⟩
  replaced := by
    intro commit maxRound member
    refine Backed.mono ?_ fun _ => mem_append_left _
    rcases mem_append.mp member with old | fresh
    · exact tallied.replaced commit maxRound old
    · exact backed commit maxRound (mem_singleton.mp fresh)

theorem storedCommits_none (n : Nat) :
    storedCommits n (fun _ => none : Nat → Option (RecoveryCommit R)) = [] := by
  simp [storedCommits]

theorem Tallied.opened (tallied : Tallied n quorum replica) (positive : 0 < quorum)
    (attestation : R.Attestation) : Tallied n quorum (replica.opened attestation) := by
  have cases : ∀ other commits, update replica.recoveryCommits attestation
      (some fun _ => none) other = some commits →
      commits = (fun _ => none) ∨ replica.recoveryCommits other = some commits := by
    intro other commits isCommits
    by_cases same : other = attestation
    · subst same
      rw [update_self] at isCommits
      exact .inl (some.inj isCommits).symm
    · rw [update_of_ne same] at isCommits
      exact .inr isCommits
  refine ⟨tallied.isN, tallied.isQuorum, ?_, ?_, tallied.replaced⟩
  · intro other commits isCommits
    rcases cases other commits isCommits with rfl | old
    · rw [storedCommits_none]
      exact positive
    · exact tallied.few other commits old
  intro other commits isCommits sender commit isCommit
  rcases cases other commits isCommits with rfl | old
  · cases isCommit
  · exact tallied.stored other commits old sender commit isCommit

theorem Tallied.deeds {subject : Nat × R.Attestation} (deeds : Deeds subject before after)
    (positive : 0 < quorum) (tallied : Tallied n quorum before) : Tallied n quorum after := by
  induction deeds with
  | refl => exact tallied
  | tail _ deed ih =>
    cases deed with
    | quiet rest => exact ih.congr rest
    | request attestation rest =>
      have asked : Tallied n quorum (RecoverableReplica.record _ (.requested attestation)) :=
        ih.record fun _ _ same => by cases same
      refine Tallied.congr ?_ rest
      exact { asked with }
    | broadcast about rest =>
      refine Tallied.congr ?_ rest
      exact { ih with }
    | record about other rest =>
      exact (ih.record fun commit maxRound same => absurd same (other commit maxRound)).congr rest
    | opened attestation rest => exact (ih.opened positive attestation).congr rest

theorem restoreVertices_maxRound {checks : Bool} (messages : List (SignedMessage R))
    {replica next : RecoverableReplica R} {round round' : Nat}
    (run : messages.foldlM (restoreVertex checks forId) (replica, round) = .ok (next, round')) :
    next.base.maxRounds forId =
      max (replica.base.maxRounds forId) (newestRound messages) := by
  induction messages generalizing replica next round round' with
  | nil =>
    obtain ⟨rfl, _⟩ := pair_ok.mp run
    simp [newestRound]
  | cons message rest ih =>
    simp only [foldlM_cons, bind_ok, Prod.exists] at run
    obtain ⟨middle, _, step, run⟩ := run
    simp only [restoreVertex, bind_ok, assert_ok, pair_ok] at step
    obtain ⟨_, isCreator, known, _, _, _, isMiddle, _⟩ := step
    have first : middle.base.maxRounds forId =
        max (replica.base.maxRounds forId) message.payload.round := by
      rw [← isMiddle]
      show update _ message.payload.creator _ forId = _
      rw [isCreator, update_self]
      cases known <;> rfl
    rw [ih run, first, Nat.max_assoc, newestRound_cons]

/-- `backed` is what counting the commit has established. -/
theorem applyCommit_tallied (positive : 0 < quorum) (tallied : Tallied n quorum replica)
    (backed : Backed n quorum replica.log commit
      (max (replica.base.maxRounds commit.forId) (newestRound commit.messages)))
    (run : replica.applyCommit env commit = .ok next) : Tallied n quorum next := by
  obtain ⟨dropped, restored, round, isDropped, isRestored, ending⟩ := applyCommit_cases run
  have standing := restoreVertices_standing isRestored
  have installed : Tallied n quorum restored :=
    (tallied.deeds (.single (dropBuffered_deed isDropped)) positive).congr standing
  rcases ending with same | same
  · exact installed.congr same
  refine (installed.record ?_).congr same
  intro other maxRound replaced
  cases replaced
  have log : restored.log = dropped.log := congrArg (·.1.2.2) standing
  rw [restoreVertices_maxRound _ isRestored, log]
  simp only [dropBuffered, bind_ok, pure_ok] at isDropped
  obtain ⟨_, _, rfl⟩ := isDropped
  exact backed.mono fun _ => mem_append_left _

theorem collectCommit_tallied (positive : 0 < quorum) (inRange : sender < n)
    (tallied : Tallied n quorum replica)
    (run : replica.collectCommit env sender commit = .ok next) : Tallied n quorum next := by
  simp only [collectCommit, bind_ok, unwrap_ok] at run
  obtain ⟨commits, isCommits, run⟩ := run
  split at run
  · exact pure_ok.mp run ▸ tallied
  have noted : Tallied n quorum (replica.record
      (.counted sender commit (replica.base.maxRounds commit.forId))) :=
    tallied.record fun _ _ same => by cases same
  have last : .counted sender commit (replica.base.maxRounds commit.forId) ∈ (replica.record
      (.counted sender commit (replica.base.maxRounds commit.forId))).log :=
    mem_append_right _ (mem_singleton.mpr rfl)
  -- Every commit that is stored now was counted, the last one included.
  have counted : ∀ other given, update commits sender (some commit) other = some given →
      ∃ round, .counted other given round ∈ (replica.record
        (.counted sender commit (replica.base.maxRounds commit.forId))).log := by
    intro other given isGiven
    by_cases same : other = sender
    · subst same
      rw [update_self] at isGiven
      cases isGiven
      exact ⟨_, last⟩
    · rw [update_of_ne same] at isGiven
      exact noted.stored commit.forAttestation commits isCommits other given isGiven
  have sizes : (replica.record
      (.counted sender commit (replica.base.maxRounds commit.forId))).base.n = n := tallied.isN
  split at run
  · next short =>
    rw [← pure_ok.mp run]
    refine ⟨noted.isN, noted.isQuorum, ?_, ?_, noted.replaced⟩
    · intro attestation stored isStored
      by_cases same : attestation = commit.forAttestation
      · subst same
        simp only [update_self, some.injEq] at isStored
        subst isStored
        have short := short
        rw [noted.isN, noted.isQuorum] at short
        exact short
      · simp only [update_of_ne same] at isStored
        exact noted.few attestation stored isStored
    intro attestation stored isStored other given isGiven
    by_cases same : attestation = commit.forAttestation
    · subst same
      simp only [update_self, some.injEq] at isStored
      subst isStored
      exact counted other given isGiven
    · simp only [update_of_ne same] at isStored
      exact noted.stored attestation stored isStored other given isGiven
  have drained := noted.opened positive commit.forAttestation
  split at run
  · exact pure_ok.mp run ▸ drained
  rename_i agreed found
  simp only [bind_ok, assert_ok] at run
  obtain ⟨_, _, _, _, run⟩ := run
  have found := found
  rw [noted.isN, noted.isQuorum] at found
  obtain ⟨rfl, enough⟩ := quorumCommit_last inRange
    (tallied.few commit.forAttestation commits isCommits) found
  refine applyCommit_tallied positive drained ⟨⟨_, Finset.filter_subset _ _, enough, ?_⟩,
    sender, _, last, rfl⟩ run
  intro other member
  exact counted other agreed (Finset.mem_filter.mp member).2

theorem Tallied.moved {base : Replica R} (tallied : Tallied n quorum replica)
    (moves : replica.base.Moves base) : Tallied n quorum { replica with base } :=
  { tallied with
    isN := moves.n.trans tallied.isN
    isQuorum := moves.quorum.trans tallied.isQuorum }

theorem dispatch_tallied {message : AnyMessage R} (positive : 0 < quorum)
    (tallied : Tallied n quorum replica) (run : replica.dispatch env message = .ok next) :
    Tallied n quorum next := by
  cases message with
  | protocol message =>
    simp only [dispatch, bind_ok, pure_ok] at run
    obtain ⟨base, handled, rfl⟩ := run
    exact tallied.moved (Replica.dispatch_path handled).moves
  | recovery message =>
    simp only [dispatch] at run
    split at run
    · exact pure_ok.mp run ▸ tallied.congr rfl
    rename_i inRange
    rw [tallied.isN, Nat.not_le] at inRange
    obtain ⟨sender, content⟩ := message
    cases content with
    | recoveryRequest attestation =>
      exact tallied.deeds (processRecoveryRequest_deeds run) positive
    | recoveryProposal proposal =>
      obtain ⟨asked, deeds, rfl | run⟩ := relayed_deeds run
      · exact tallied.deeds deeds positive
      · exact (tallied.deeds deeds positive).deeds (collectProposal_deeds run) positive
    | recoveryCommit commit =>
      obtain ⟨asked, deeds, rfl | run⟩ := relayed_deeds run
      · exact tallied.deeds deeds positive
      · exact collectCommit_tallied positive inRange (tallied.deeds deeds positive) run

theorem take_tallied (tallied : Tallied n quorum replica) : Tallied n quorum (take replica).1 :=
  { tallied with }

theorem lift_tallied (call : Replica R → Outcome (Replica R × Output R))
    (tallied : Tallied n quorum replica)
    (moves : ∀ {next output}, call replica.base = .ok (next, output) → replica.base.Moves next)
    (run : lift call replica = .ok (next, output)) : Tallied n quorum next := by
  simp only [lift, bind_ok, Prod.exists, pair_ok] at run
  obtain ⟨base, sent, called, rfl, rfl⟩ := run
  exact tallied.moved (moves called)

theorem respond_tallied {stimulus : Stimulus R} (positive : 0 < quorum)
    (tallied : Tallied n quorum replica) (run : replica.respond env stimulus = .ok (next, output)) :
    Tallied n quorum next := by
  cases stimulus with
  | init => exact lift_tallied _ tallied Replica.initHandshake_moves run
  | request tx =>
    exact lift_tallied (·.receiveClientRequest env tx) tallied
      Replica.receiveClientRequest_moves run
  | timeout => exact lift_tallied _ tallied Replica.processVertexTimeout_moves run
  | message source message =>
    exact Reflector.process_preserves (dispatch_tallied positive) take_tallied tallied run

theorem initRecovery_tallied {key : R.Key} {now : Nat} {backup : Backup R} (positive : 0 < quorum)
    (isN : backup.n = n) (isQuorum : backup.quorum = quorum)
    (run : initRecovery env key now backup = .ok (next, output)) : Tallied n quorum next := by
  simp only [initRecovery, bind_ok, Prod.exists] at run
  obtain ⟨enclave, result, _, run⟩ := run
  cases result with
  | error error => cases run
  | ok done =>
    dsimp only at run
    split at run
    · cases run
    rename_i attestation _
    have fresh : Tallied n quorum ((restored backup enclave now).request attestation) := by
      refine ⟨isN, isQuorum, fun _ _ none => ?_, fun _ _ none => ?_, fun _ _ member => ?_⟩
      · cases none
      · cases none
      · cases mem_singleton.mp member
    exact Reflector.reflect_preserves (dispatch_tallied positive) take_tallied fresh run

end RecoverableReplica

namespace RecoveryWorld

open RecoverableReplica

structure Accounted (setup : Setup R.toPlatform) (world : RecoveryWorld R.toPlatform) (id : Nat) :
    Prop where
  tallied : Tallied setup.n (setup.n / 2 + 1) (world.replicas id)
  saved : ∀ backup, world.backups id = some backup →
    backup.n = setup.n ∧ backup.quorum = setup.n / 2 + 1

variable {setup : Setup R} {world next : RecoveryWorld R}
  {replica : RecoverableReplica R} {output : RecoveryOutput R}
  {backup : Option (Backup R)}

theorem saves_accounted {last : Option (Backup R)}
    (tallied : Tallied setup.n (setup.n / 2 + 1) replica)
    (before : ∀ taken, last = some taken → taken.n = setup.n ∧ taken.quorum = setup.n / 2 + 1)
    (saved : replica.saves output last = .ok backup) :
    ∀ taken, backup = some taken → taken.n = setup.n ∧ taken.quorum = setup.n / 2 + 1 := by
  intro taken isTaken
  rcases saves_cases saved with rfl | ⟨exported, isExported, rfl⟩
  · exact before taken isTaken
  cases isTaken
  obtain ⟨isN, isQuorum, _⟩ := backupEnclave_ok isExported
  exact ⟨isN.trans tallied.isN, isQuorum.trans tallied.isQuorum⟩

theorem acted_accounted {id other : Nat} (accounted : world.Accounted setup other)
    (tallied : Tallied setup.n (setup.n / 2 + 1) replica)
    (saved : ∀ taken, backup = some taken → taken.n = setup.n ∧ taken.quorum = setup.n / 2 + 1) :
    (world.acted id replica output backup).Accounted setup other := by
  by_cases same : other = id
  · subst same
    exact ⟨by rw [acted_replicas_self]; exact tallied, by rw [acted_backups_self]; exact saved⟩
  · exact ⟨by rw [acted_replicas_other _ _ _ _ _ same]; exact accounted.tallied,
      by rw [acted_backups_other _ _ _ _ _ same]; exact accounted.saved⟩

theorem step_accounted {event : RecoveryEvent R}
    (accounted : ∀ id ∈ setup.correct, world.Accounted setup id)
    (step : RecoveryStep setup world event next) :
    ∀ id ∈ setup.correct, next.Accounted setup id := by
  intro other isOther
  have positive : 0 < setup.n / 2 + 1 := Nat.succ_pos _
  cases step with
  | act correct arrives run saved =>
    rename_i id env stimulus replica output backup
    have before := accounted id correct
    have tallied := respond_tallied positive before.tallied run
    exact acted_accounted (accounted other isOther) tallied
      (saves_accounted tallied before.saved saved)
  | restart correct held unused run saved =>
    rename_i id env key now last replica output backup
    have before := accounted id correct
    obtain ⟨isN, isQuorum⟩ := before.saved last held
    have tallied := initRecovery_tallied positive isN isQuorum run
    -- What was replaced in an earlier life is backed by the log of that life.
    have recalled : Tallied setup.n (setup.n / 2 + 1)
        { replica with log := (world.replicas id).log ++ replica.log } := by
      refine ⟨tallied.isN, tallied.isQuorum, tallied.few, ?_, ?_⟩
      · intro attestation commits isCommits sender commit isCommit
        obtain ⟨round, counted⟩ :=
          tallied.stored attestation commits isCommits sender commit isCommit
        exact ⟨round, mem_append_right _ counted⟩
      intro commit maxRound member
      rcases mem_append.mp member with old | fresh
      · exact (before.tallied.replaced commit maxRound old).mono
          fun _ => mem_append_left _
      · exact (tallied.replaced commit maxRound fresh).mono fun _ => mem_append_right _
    have moved : (world.acted id { replica with
        log := (world.replicas id).log ++ replica.log } output backup).Accounted setup other :=
      acted_accounted (accounted other isOther) recalled
        (saves_accounted tallied (fun taken isTaken => by
          cases isTaken
          exact ⟨isN, isQuorum⟩) saved)
    exact ⟨moved.tallied, moved.saved⟩

theorem run_accounted {allowed : RecoveryWorld R → RecoveryEvent R → Prop}
    (run : RecoveryRun setup allowed world) : ∀ id ∈ setup.correct, world.Accounted setup id := by
  induction run with
  | start initial =>
    intro id correct
    obtain ⟨⟨base, created, isReplica⟩, _, noBackup⟩ := initial.1 id correct
    simp only [Replica.new, bind_ok, assert_ok, pure_ok] at created
    obtain ⟨_, _, _, _, _, _, _, _, rfl⟩ := created
    refine ⟨?_, fun backup held => by rw [noBackup] at held; cases held⟩
    have isN := (setup.named id correct).2
    rw [isReplica]
    refine ⟨isN, congrArg (· / 2 + 1) isN, ?_, ?_, ?_⟩
    · intro attestation commits none
      cases none
    · intro attestation commits none
      cases none
    · intro commit maxRound member
      cases member
  | step _ _ step ih => exact step_accounted ih step

/-- No two commits that correct replicas have counted for one recovery differ if they come in the
name of the same replica. -/
def CommitsAgree (setup : Setup R.toPlatform) (world : RecoveryWorld R.toPlatform) : Prop :=
  ∀ left ∈ setup.correct, ∀ right ∈ setup.correct, ∀ sender commit commit' round round',
    .counted sender commit round ∈ (world.replicas left).log →
    .counted sender commit' round' ∈ (world.replicas right).log →
    commit.forAttestation = commit'.forAttestation → commit = commit'

/-- A correct replica counts a commit only once its row reaches to the newest vertex that the
replica has seen of the one that recovers. -/
def RowsReach (setup : Setup R.toPlatform) (world : RecoveryWorld R.toPlatform) : Prop :=
  ∀ id ∈ setup.correct, ∀ sender commit round,
    .counted sender commit round ∈ (world.replicas id).log → round ≤ newestRound commit.messages

end RecoveryWorld

/-- Correct replicas that complete a recovery install the same row and keep the old attestation up
to the same round. -/
theorem recoveries_agree {setup : Setup R.toPlatform} {world : RecoveryWorld R.toPlatform}
    {allowed : RecoveryWorld R.toPlatform → RecoveryEvent R.toPlatform → Prop}
    (run : RecoveryRun setup allowed world) (agree : world.CommitsAgree setup)
    (reach : world.RowsReach setup) {left right : Nat} (isLeft : left ∈ setup.correct)
    (isRight : right ∈ setup.correct) {commit commit' : RecoveryCommit R.toPlatform}
    {maxRound maxRound' : Nat} (atLeft : .replaced commit maxRound ∈ (world.replicas left).log)
    (atRight : .replaced commit' maxRound' ∈ (world.replicas right).log)
    (sameRecovery : commit.forAttestation = commit'.forAttestation) :
    commit.messages = commit'.messages ∧ maxRound = maxRound' := by
  have accounted := RecoveryWorld.run_accounted run
  obtain ⟨⟨senders, below, enough, each⟩, sender, round, counted, isRound⟩ :=
    (accounted left isLeft).tallied.replaced commit maxRound atLeft
  obtain ⟨⟨senders', below', enough', each'⟩, sender', round', counted', isRound'⟩ :=
    (accounted right isRight).tallied.replaced commit' maxRound' atRight
  -- Two majorities share a sender, and its two commits are one.
  obtain ⟨both, inLeft, inRight⟩ :=
    Majority.meets ⟨below, enough⟩ ⟨below', enough'⟩ (by omega)
  obtain ⟨_, first⟩ := each both inLeft
  obtain ⟨_, second⟩ := each' both inRight
  have same := agree left isLeft right isRight both commit commit' _ _ first second sameRecovery
  subst same
  refine ⟨rfl, ?_⟩
  have low := reach left isLeft sender commit round counted
  have low' := reach right isRight sender' commit round' counted'
  rw [isRound, isRound', Nat.max_eq_right low, Nat.max_eq_right low']

namespace Plain

instance : DecidableEq (RecoveryCommit platform) := instDecidableEqRecoveryCommit (R := recoverable)

def countedIn (log : List (Effect platform)) :
    List (Nat × RecoveryCommit platform × Nat) :=
  log.filterMap fun effect =>
    match effect with
    | .counted sender commit round => some (sender, commit, round)
    | _ => none

variable {log : List (Effect platform)} {commit : RecoveryCommit platform}

theorem mem_countedIn {sender round : Nat} (member : .counted sender commit round ∈ log) :
    (sender, commit, round) ∈ countedIn log :=
  mem_filterMap.mpr ⟨_, member, rfl⟩

def replacement (log : List (Effect platform)) :
    Option (RecoveryCommit platform × Nat) :=
  log.findSome? fun effect =>
    match effect with
    | .replaced commit maxRound => some (commit, maxRound)
    | _ => none

theorem replacement_sound {maxRound : Nat} (found : replacement log = some (commit, maxRound)) :
    .replaced commit maxRound ∈ log := by
  obtain ⟨effect, member, isEffect⟩ := exists_of_findSome?_eq_some found
  split at isEffect
  · cases isEffect
    exact member
  · cases isEffect

def Orderly (world : RecoveryWorld platform) : Prop :=
  ∀ left ∈ fullSetup.correct, ∀ first ∈ countedIn (world.replicas left).log,
    first.2.2 ≤ newestRound first.2.1.messages ∧
    ∀ right ∈ fullSetup.correct, ∀ second ∈ countedIn (world.replicas right).log,
      first.1 = second.1 → (first.2.1.forAttestation : Nat) = second.2.1.forAttestation →
        first.2.1 = second.2.1

instance (world : RecoveryWorld platform) : Decidable (Orderly world) :=
  inferInstanceAs (Decidable (∀ left ∈ fullSetup.correct, ∀ first ∈ _, _ ≤ _ ∧
    ∀ right ∈ fullSetup.correct, ∀ second ∈ _, _ = _ → _ = _ → _ = _))

theorem Orderly.sound {world : RecoveryWorld platform} (orderly : Orderly world) :
    RecoveryWorld.CommitsAgree (R := recoverable) fullSetup world ∧
      RecoveryWorld.RowsReach (R := recoverable) fullSetup world := by
  refine ⟨?_, fun id isId sender commit round counted =>
    (orderly id isId _ (mem_countedIn counted)).1⟩
  intro left isLeft right isRight sender commit commit' round round' first second same
  exact (orderly left isLeft _ (mem_countedIn first)).2 right isRight _ (mem_countedIn second)
    rfl same

/-- Replica 2 creates two vertices; the first one reaches the two others. -/
def earlyVertices : List (RecoveryMove platform) :=
  [.timeout 1, .timeout 2, .relay 1 2 5, .relay 2 0 5, .relay 2 1 5]

/-- Replica 2 restarts, and the two others complete its recovery. -/
def recoverTwo : List (RecoveryMove platform) :=
  [.restart 2 5, .recover 2 0 0, .recover 2 1 0, .recover 2 0 2, .recover 2 1 2, .recover 0 1 0,
    .recover 1 0 0, .recover 0 1 1, .recover 1 0 1]

end Plain

/-- Replicas 0 and 1 complete the recovery of replica 2 with the vertex that both of them know. -/
theorem recoveries_agree_restarted : ∃ world commit commit' maxRound maxRound',
    RecoveryRun (R := Plain.recoverable) Plain.fullSetup (fun _ _ => True) world ∧
      .replaced commit maxRound ∈ (world.replicas 0).log ∧
      .replaced commit' maxRound' ∈ (world.replicas 1).log ∧
      commit.forAttestation = commit'.forAttestation ∧
      commit.messages = commit'.messages ∧ maxRound = maxRound' := by
  obtain ⟨world, run, orderly, left, right⟩ : ∃ world,
      RecoveryRun (R := recoverable) fullSetup (fun _ _ => True) world ∧ Orderly world ∧
      ((replacement (world.replicas 0).log).map (·.1.forAttestation) : Option Nat) = some 5 ∧
      ((replacement (world.replicas 1).log).map (·.1.forAttestation) : Option Nat) = some 5 :=
    (recoveryPlayer fullSetup).play_run (R := recoverable) (fun _ _ (_ : true = true) => trivial)
      full_initial (List.flatten [handshake, earlyVertices, recoverTwo]) (by decide +kernel)
  obtain ⟨⟨commit, maxRound⟩, isLeft, leftFor⟩ := map_eq_some_iff.mp left
  obtain ⟨⟨commit', maxRound'⟩, isRight, rightFor⟩ := map_eq_some_iff.mp right
  obtain ⟨agree, reach⟩ := orderly.sound
  have atLeft := replacement_sound isLeft
  have atRight := replacement_sound isRight
  have same := leftFor.trans rightFor.symm
  exact ⟨world, commit, commit', maxRound, maxRound', run, atLeft, atRight, same,
    recoveries_agree run agree reach (by decide) (by decide) atLeft atRight same⟩

/-- All three replicas are correct. Replica 0 has buffered a second vertex of replica 2, which is in
no row; it keeps the old attestation for that round, while replica 1 does not. -/
theorem buffered_vertex_splits_recovery : ∃ world commit commit' maxRound maxRound',
    RecoveryRun (R := Plain.recoverable) Plain.fullSetup (fun _ _ => True) world ∧
      0 ∈ Plain.fullSetup.correct ∧ 1 ∈ Plain.fullSetup.correct ∧ 2 ∈ Plain.fullSetup.correct ∧
      .replaced commit maxRound ∈ (world.replicas 0).log ∧
      .replaced commit' maxRound' ∈ (world.replicas 1).log ∧
      commit.forAttestation = commit'.forAttestation ∧ maxRound = 2 ∧ maxRound' = 1 := by
  obtain ⟨world, run, left, right⟩ : ∃ world,
      RecoveryRun (R := recoverable) fullSetup (fun _ _ => True) world ∧
      ((replacement (world.replicas 0).log).map fun done =>
        ((done.1.forAttestation : Nat), done.2)) = some (5, 2) ∧
      ((replacement (world.replicas 1).log).map fun done =>
        ((done.1.forAttestation : Nat), done.2)) = some (5, 1) :=
    (recoveryPlayer fullSetup).play_run (R := recoverable) (fun _ _ (_ : true = true) => trivial)
      full_initial (List.flatten [handshake, earlyVertices, [.relay 2 0 6], recoverTwo])
      (by decide +kernel)
  obtain ⟨⟨commit, maxRound⟩, isLeft, leftFor⟩ := map_eq_some_iff.mp left
  obtain ⟨⟨commit', maxRound'⟩, isRight, rightFor⟩ := map_eq_some_iff.mp right
  simp only [Prod.mk.injEq] at leftFor rightFor
  exact ⟨world, commit, commit', maxRound, maxRound', run, by decide, by decide, by decide,
    replacement_sound isLeft, replacement_sound isRight, leftFor.1.trans rightFor.1.symm,
    leftFor.2, rightFor.2⟩

end Abcperf.Nxbft
