import Abcperf.Nxbft.Counters

/-! The handshake. A replica echoes one attestation per peer at most, and its enclave attests a
peer only after every replica has echoed the same attestation for it. -/

namespace Abcperf.Nxbft

open Lib Lib.Outcome EnclaveAutomata Function IdSet List

variable {P : Platform}

namespace Replica

variable {issued : P.Attestation → Vertex P → Prop}
  {heard : Nat → Nat → P.Attestation → Prop}

/-- `sender` has echoed `attestation` for `creator`: what the replica itself has echoed is in its
outputs, and `heard` says what the others have. -/
def Echoed (heard : Nat → Nat → P.Attestation → Prop) (history : Output P) (me sender creator : Nat)
    (attestation : P.Attestation) : Prop :=
  (sender = me → (creator, attestation) ∈ echoesOf history) ∧
    (sender ≠ me → heard sender creator attestation)

/-- One attestation is echoed per creator, and one that all have echoed is adopted. -/
structure HandshakeInv (heard : Nat → Nat → P.Attestation → Prop) (history : Output P)
    (replica : Replica P) : Prop where
  echoed : ∀ creator attestation, (creator, attestation) ∈ echoesOf (replica.total history) →
    creator ∈ replica.helloSet
  unique : ∀ creator left right, (creator, left) ∈ echoesOf (replica.total history) →
    (creator, right) ∈ echoesOf (replica.total history) → left = right
  reflected : ∀ message ∈ replica.output.reflectionMessages, ∀ echo,
    message.message.echo = some echo →
    message.sender = replica.me ∧ echo ∈ echoesOf (replica.total history)
  collected : ∀ creator attestation echos,
    replica.helloMap creator = some (attestation, echos) → ∀ sender ∈ echos,
      sender < replica.n ∧
        Echoed heard (replica.total history) replica.me sender creator attestation
  attested : ∀ creator attestation,
    EnclaveAutomata.attestationOf (replica.enclave.peers creator) = some attestation →
    ∃ echos, replica.helloMap creator = some (attestation, echos) ∧ replica.n ≤ echos.len

variable {history : Output P} {before after replica next : Replica P} {enclave : EnclaveAutomata P}
  {config : Config P} {sender creator : Nat} {attestation : P.Attestation} {echos : IdSet}

theorem HandshakeKept.handshake (kept : HandshakeKept before after)
    (inv : HandshakeInv heard history before) : HandshakeInv heard history after := by
  have echoes : ∀ echo, echo ∈ echoesOf (after.total history) ↔
      echo ∈ echoesOf (before.total history) := by
    intro echo
    rw [total, total, mem_echoesOf_append, mem_echoesOf_append, kept.echoes]
  refine ⟨?_, ?_, ?_, ?_, ?_⟩
  · intro creator attestation echoed
    rw [kept.helloSet]
    exact inv.echoed creator attestation ((echoes _).mp echoed)
  · intro creator left right isLeft isRight
    exact inv.unique creator left right ((echoes _).mp isLeft) ((echoes _).mp isRight)
  · intro message member echo isEcho
    have old := kept.reflectedEchoes message member (by rw [isEcho]; exact Option.some_ne_none _)
    rw [kept.me, echoes]
    exact inv.reflected message old echo isEcho
  · intro creator attestation echos found sender member
    rw [kept.helloMap] at found
    obtain ⟨inRange, own, others⟩ := inv.collected creator attestation echos found sender member
    rw [kept.n, kept.me]
    exact ⟨inRange, fun isMe => (echoes _).mpr (own isMe), others⟩
  · rw [kept.helloMap, kept.n, kept.peers]
    exact inv.attested

/-- A handshake call of the enclave. Before the enclave is ready no coin was tossed, so the seed
may still change. -/
theorem enclave_working (working : Working issued history replica)
    (step : EnclaveAutomata.HandshakeStep replica.enclave enclave) :
    Working issued history { replica with enclave } := by
  have inv := working.sound.graph
  have seed : enclave.seed = replica.enclave.seed ∨ (replica.decidedWave = 0 ∧
      ∀ wave, replica.pendingWaveCoins wave = none) := by
    rcases step.rng with ⟨_, same⟩ | ⟨unready, _⟩
    · exact .inl same
    · exact .inr (inv.unready unready).2
  obtain ⟨log, logs⟩ := working.logs
  have peers : ∀ peer attestation,
      replica.enclave.peers peer = .handshakeComplete attestation P.ranges.new →
      enclave.peers peer = .handshakeComplete attestation P.ranges.new :=
    fun peer attestation => step.kept peer attestation _
  refine ⟨⟨{ inv with
    ledger := { inv.ledger with committed := ?_, coins := ?_ }
    enclaveN := step.n.trans inv.enclaveN, enclaveQuorum := step.quorum.trans inv.enclaveQuorum
    noOld := ?_, unready := ?_, tosses := ?_, counters := ?_, signatures := ?_, buffered := ?_
    held := ?_ }, ?_⟩, working.settled, log,
    logs.mono peers step.enclave rfl rfl (fun _ => Iff.rfl) (fun _ member => member)⟩
  · rcases seed with same | ⟨zero, _⟩
    · show Committed replica.dag inv.ledger.wellFormed (leaderAt P replica.n enclave.seed) _ _
      rw [same]
      exact inv.ledger.committed
    have committed := inv.ledger.committed
    show Committed replica.dag inv.ledger.wellFormed _ replica.decidedWave _
    rw [zero] at committed ⊢
    exact committed_zero committed
  · intro wave tossed found
    rcases seed with same | ⟨_, vacant⟩
    · show tossed = coin P replica.n enclave.seed wave
      rw [same]
      exact inv.ledger.coins wave tossed found
    · cases (vacant wave).symm.trans found
  · intro peer attestation old complete
    rcases step.completed peer attestation old complete with before | fresh
    · exact inv.noOld peer attestation old before
    · exact fresh
  · intro unready
    have before : replica.enclave.rng = none := by
      rcases step.rng with ⟨same, _⟩ | ⟨before, _⟩
      · exact same.symm.trans unready
      · exact before
    exact ⟨step.nextToss.trans (inv.unready before).1, (inv.unready before).2⟩
  · intro rng isRng
    rcases step.rng with ⟨sameRng, sameSeed⟩ | ⟨before, unready | fresh⟩
    · obtain ⟨count, atToss, isState⟩ := inv.tosses rng (sameRng.symm.trans isRng)
      exact ⟨count, step.nextToss.trans atToss, sameSeed.symm ▸ isState⟩
    · cases unready.symm.trans isRng
    · refine ⟨0, step.nextToss.trans (inv.unready before).1, ?_⟩
      exact (Option.some.inj (fresh.symm.trans isRng)).symm
  · intro vertex member
    exact step.c.symm ▸ inv.counters vertex member
  · intro vertex member
    show P.sign enclave.enclave _ _ = _
    rw [step.enclave]
    exact inv.signatures vertex member
  · intro creator message member
    obtain ⟨named, verified, authentic⟩ := inv.buffered creator message member
    refine ⟨named, ?_, step.enclave.symm ▸ authentic⟩
    exact verified.mono (fun attestation => peers _ attestation) step.enclave
      (fun _ isSigned => isSigned)
  · intro vertex isHeld
    obtain ⟨valid, authentic⟩ := inv.held vertex isHeld
    exact ⟨valid, step.enclave.symm ▸ authentic⟩
  · intro message member vertex carries
    exact step.enclave.symm ▸ working.sound.told message member vertex carries

theorem hello_working (helloSet : IdSet) (helloMap : Nat → Option (P.Attestation × IdSet))
    (working : Working issued history replica) :
    Working issued history { replica with helloSet, helloMap } := by
  have inv := working.sound.graph
  obtain ⟨log, logs⟩ := working.logs
  exact ⟨⟨{ inv with ledger := { inv.ledger with } }, working.sound.told⟩, working.settled, log,
    { logs with }⟩

theorem broadcast_working (message : Message P) (noVertex : message.vertex = none)
    (working : Working issued history replica) :
    Working issued history (replica.broadcast message) := by
  have facts : factsOf (total history (replica.broadcast message)) =
      factsOf (replica.total history) := by
    apply factsOf_total
    simp [factsOf, broadcast, UnreflectedOutput.broadcast, leadersOf, orderOf, signedBy, noVertex]
  obtain ⟨log, logs⟩ := working.logs
  refine ⟨⟨?_, ?_⟩, working.settled, log, ?_⟩
  · have sameCore : (replica.broadcast message).core = replica.core := rfl
    rw [facts, ← graphInv_core, sameCore, graphInv_core]
    exact working.sound.graph
  · intro reflected member vertex carries
    rw [facts]
    simp only [told, broadcast, UnreflectedOutput.broadcast, mem_append, mem_singleton] at member
    rcases member with (old | rfl) | old
    · exact working.sound.told reflected (mem_append_left _ old) vertex carries
    · cases noVertex.symm.trans carries
    · exact working.sound.told reflected (mem_append_right _ old) vertex carries
  · rw [facts]
    exact { logs with }

structure Own (config : Config P) (replica : Replica P) : Prop where
  me : replica.me = config.me
  n : replica.n = config.n
  key : replica.enclave.enclave = config.enclave

structure Healthy (issued : P.Attestation → Vertex P → Prop)
    (heard : Nat → Nat → P.Attestation → Prop) (config : Config P) (history : Output P)
    (replica : Replica P) : Prop where
  working : Working issued history replica
  handshake : HandshakeInv heard history replica
  own : Own config replica

theorem HandshakeKept.own (kept : HandshakeKept before after) (own : Own config before) :
    Own config after :=
  ⟨kept.me.trans own.me, kept.n.trans own.n, kept.key.trans own.key⟩

variable {config : Config P}

theorem Quiet.healthy (quiet : Quiet before after)
    (healthy : Healthy issued heard config history before) :
    Healthy issued heard config history after :=
  ⟨quiet.working healthy.working, quiet.kept.toHandshakeKept.handshake healthy.handshake,
    quiet.kept.toHandshakeKept.own healthy.own⟩

theorem enclave_healthy (healthy : Healthy issued heard config history replica)
    (step : EnclaveAutomata.HandshakeStep replica.enclave enclave)
    (same : ∀ peer, attestationOf (enclave.peers peer) =
      attestationOf (replica.enclave.peers peer)) :
    Healthy issued heard config history { replica with enclave } := by
  have inv := healthy.handshake
  exact ⟨enclave_working healthy.working step,
    { inv with attested := fun creator attestation found =>
        inv.attested creator attestation ((same creator).symm.trans found) },
    { healthy.own with key := step.enclave.trans healthy.own.key }⟩

theorem mem_echoesOf_broadcast (replica : Replica P) (message : Message P)
    (echo : Nat × P.Attestation) : echo ∈ echoesOf (replica.broadcast message).output.output ↔
      echo ∈ echoesOf replica.output.output ∨ message.echo = some echo := by
  simp only [broadcast, UnreflectedOutput.broadcast, echoesOf, filterMap_append,
    mem_append, mem_filterMap, mem_singleton, exists_eq_left]
  exact or_right_comm

section

variable (healthy : Healthy issued heard config history replica)

include healthy

theorem processHello_healthy :
    Healthy issued heard config history (replica.processHello sender attestation) := by
  have inv := healthy.handshake
  unfold processHello
  split
  · exact (quiet_stateMessage replica _ rfl rfl).healthy healthy
  rename_i unknown
  rw [contains_iff] at unknown
  refine (quiet_stateMessage _ _ rfl rfl).healthy ⟨hello_working _ _
    (broadcast_working (.helloEcho sender attestation) rfl healthy.working), ?_,
    { healthy.own with }⟩
  have echoes : ∀ echo, echo ∈ echoesOf (total history
      (replica.broadcast (.helloEcho sender attestation))) ↔
      echo ∈ echoesOf (replica.total history) ∨ echo = (sender, attestation) := by
    intro echo
    rw [total, total, mem_echoesOf_append, mem_echoesOf_append, mem_echoesOf_broadcast,
      or_assoc, Message.echo, Option.some.injEq, eq_comm]
  refine ⟨?_, ?_, ?_, ?_, ?_⟩
  · intro creator given echoed
    rcases (echoes _).mp echoed with old | new
    · exact (mem_insert ..).mpr (.inr (inv.echoed creator given old))
    · cases new
      exact (mem_insert ..).mpr (.inl rfl)
  · -- a second echo for the sender would have put it into `helloSet`
    intro creator left right isLeft isRight
    rcases (echoes _).mp isLeft with oldLeft | newLeft <;>
      rcases (echoes _).mp isRight with oldRight | newRight
    · exact inv.unique creator left right oldLeft oldRight
    · cases newRight
      exact absurd (inv.echoed sender left oldLeft) unknown
    · cases newLeft
      exact absurd (inv.echoed sender right oldRight) unknown
    cases newLeft
    cases newRight
    rfl
  · intro message member echo isEcho
    simp only [broadcast, UnreflectedOutput.broadcast, mem_append, mem_singleton] at member
    rcases member with old | rfl
    · obtain ⟨isMe, known⟩ := inv.reflected message old echo isEcho
      exact ⟨isMe, (echoes echo).mpr (.inl known)⟩
    · cases isEcho
      exact ⟨rfl, (echoes _).mpr (.inr rfl)⟩
  · intro creator given echos found other member
    have before : ∀ echos, replica.helloMap creator = some (given, echos) →
        ∀ other ∈ echos, other < replica.n ∧ Echoed heard (total history
          (replica.broadcast (.helloEcho sender attestation))) replica.me other creator
            given := by
      intro echos found other member
      obtain ⟨inRange, own, others⟩ := inv.collected creator given echos found other member
      exact ⟨inRange, fun isMe => (echoes _).mpr (.inl (own isMe)), others⟩
    by_cases isSender : creator = sender
    · subst isSender
      simp only [update_self, Option.some.injEq] at found
      cases known : replica.helloMap creator with
      | none =>
        simp only [broadcast, known, Option.getD_none, Prod.mk.injEq] at found
        rw [← found.2] at member
        exact absurd member (not_mem_empty other)
      | some stored =>
        simp only [broadcast, known, Option.getD_some] at found
        exact before echos (known.trans (congrArg some found)) other member
    · simp only [update_of_ne isSender] at found
      exact before echos found other member
  intro creator given attested
  obtain ⟨echos, found, enough⟩ := inv.attested creator given attested
  refine ⟨echos, ?_, enough⟩
  by_cases isSender : creator = sender
  · subst isSender
    simp [broadcast, found]
  · simp only [update_of_ne isSender]
    exact found

theorem processHelloReply_healthy {handshake : P.Handshake}
    (run : replica.processHelloReply sender handshake = .ok next) :
    Healthy issued heard config history next := by
  simp only [processHelloReply, bind_ok, Prod.exists] at run
  obtain ⟨enclave, result, completed, run⟩ := run
  obtain ⟨step, same⟩ := completePeerHandshake_step completed
  have stepped := enclave_healthy healthy step same
  cases result with
  | duplicateReply | invalidHandshakeEncryption | enclaveError error =>
    exact pure_ok.mp run ▸ (quiet_stateMessage _ _ rfl rfl).healthy stepped
  | missingAttestation =>
    obtain rfl := pure_ok.mp run
    refine (quiet_stateMessage _ _ rfl rfl).healthy ?_
    refine Quiet.healthy ?_ stepped
    exact quiet_fields _ _ rfl rfl
  | ok =>
    have received := (quiet_stateMessage { replica with enclave } (.receivedHelloReply sender)
      rfl rfl).healthy stepped
    have counted : Healthy issued heard config history
        { { replica with enclave }.stateMessage (.receivedHelloReply sender) with
          helloReplyCount := replica.helloReplyCount + 1 } := by
      refine Quiet.healthy ?_ received
      exact quiet_fields _ _ rfl rfl
    simp only at run
    split at run
    · exact pure_ok.mp run ▸ (quiet_broadcast _ _ rfl rfl).healthy counted
    · exact pure_ok.mp run ▸ counted

theorem attest_healthy (step : EnclaveAutomata.HandshakeStep replica.enclave enclave)
    (attested : enclave = replica.enclave ∨
      enclave.peers = update replica.enclave.peers creator (.attested attestation))
    (collected : replica.helloMap creator = some (attestation, echos))
    (enough : replica.n ≤ echos.len) :
    Healthy issued heard config history { replica with enclave } := by
  rcases attested with rfl | peers
  · exact healthy
  have inv := healthy.handshake
  refine ⟨enclave_working healthy.working step, { inv with attested := ?_ },
    { healthy.own with key := step.enclave.trans healthy.own.key }⟩
  intro peer given found
  simp only [peers] at found
  by_cases isCreator : peer = creator
  · subst isCreator
    rw [update_self] at found
    cases found
    exact ⟨echos, collected, enough⟩
  · rw [update_of_ne isCreator] at found
    exact inv.attested peer given found

theorem startHandshake_healthy (collected : replica.helloMap creator = some (attestation, echos))
    (enough : replica.n ≤ echos.len)
    (run : replica.startHandshake sender creator attestation = .ok next) :
    Healthy issued heard config history next := by
  simp only [startHandshake, bind_ok, Prod.exists] at run
  obtain ⟨enclave, result, started, run⟩ := run
  obtain ⟨step, attested⟩ := initPeerHandshake_step started
  have stepped := attest_healthy healthy step attested collected enough
  cases result with
  | duplicateHello | invalidAttestation | enclaveError error =>
    exact pure_ok.mp run ▸ (quiet_stateMessage _ _ rfl rfl).healthy stepped
  | ok handshake =>
    have replied := ((quiet_stateMessage { replica with enclave }
      (.receivedHelloEcho sender creator) rfl rfl).trans (quiet_unicast _ creator
        (.helloReply handshake) rfl (fun _ carries => by cases carries))).healthy stepped
    simp only at run
    split at run
    · exact pure_ok.mp run ▸ replied
    refine processHelloReply_healthy ((quiet_stateMessage _ _ rfl rfl).healthy ?_) run
    refine Quiet.healthy ?_ replied
    exact quiet_fields _ _ rfl rfl

/-- The echo of a replica is added to the ones collected for the same attestation. -/
theorem collect_healthy
    (stored : (replica.helloMap creator).getD (attestation, empty) = (attestation, echos))
    {collected : IdSet} (larger : echos.len ≤ collected.len)
    (members : ∀ other ∈ collected, other ∈ echos ∨ (other < replica.n ∧
      Echoed heard (replica.total history) replica.me other creator attestation)) :
    Healthy issued heard config history { replica with
      helloMap := update replica.helloMap creator (some (attestation, collected)) } := by
  have inv := healthy.handshake
  refine ⟨hello_working _ _ healthy.working, { inv with collected := ?_, attested := ?_ },
    { healthy.own with }⟩
  · intro peer given echos' found other member
    by_cases isCreator : peer = creator
    · subst isCreator
      simp only [update_self, Option.some.injEq, Prod.mk.injEq] at found
      obtain ⟨rfl, rfl⟩ := found
      rcases members other member with old | new
      · cases known : replica.helloMap peer with
        | none =>
          simp only [known, Option.getD_none, Prod.mk.injEq, true_and] at stored
          exact absurd (stored ▸ old) (not_mem_empty other)
        | some pair =>
          simp only [known, Option.getD_some] at stored
          exact inv.collected peer attestation echos (known.trans (congrArg some stored)) other old
      · exact new
    · simp only [update_of_ne isCreator] at found
      exact inv.collected peer given echos' found other member
  intro peer given attested
  obtain ⟨echos', found, enough⟩ := inv.attested peer given attested
  by_cases isCreator : peer = creator
  · subst isCreator
    simp only [found, Option.getD_some, Prod.mk.injEq] at stored
    obtain ⟨rfl, rfl⟩ := stored
    exact ⟨collected, by simp, le_trans enough larger⟩
  · exact ⟨echos', by simp [isCreator, found], enough⟩

theorem processHelloEcho_healthy (inRange : sender < replica.n)
    (echoed : Echoed heard (replica.total history) replica.me sender creator attestation)
    (run : replica.processHelloEcho sender creator attestation = .ok next) :
    Healthy issued heard config history next := by
  unfold processHelloEcho at run
  split at run
  · exact pure_ok.mp run ▸ (quiet_stateMessage _ _ rfl rfl).healthy healthy
  rcases lookup : (replica.helloMap creator).getD (attestation, empty) with ⟨stored, echos⟩
  simp only [lookup] at run
  have untouched : Healthy issued heard config history { replica with
      helloMap := update replica.helloMap creator (some (stored, echos)) } := by
    cases known : replica.helloMap creator with
    | none =>
      rw [known, Option.getD_none, Prod.mk.injEq] at lookup
      obtain ⟨rfl, rfl⟩ := lookup
      exact collect_healthy healthy (by rw [known]; rfl) le_rfl fun _ => .inl
    | some pair =>
      rw [known, Option.getD_some] at lookup
      have same : update replica.helloMap creator (some (stored, echos)) = replica.helloMap := by
        rw [← lookup, ← known, update_eq_self]
      rw [same]
      exact healthy
  split at run
  · exact pure_ok.mp run ▸ (quiet_stateMessage _ _ rfl rfl).healthy untouched
  rename_i sameAttestation
  rw [not_not] at sameAttestation
  subst sameAttestation
  split at run
  · exact pure_ok.mp run ▸ (quiet_stateMessage _ _ rfl rfl).healthy untouched
  have members : ∀ other ∈ echos.insert sender, other ∈ echos ∨ (other < replica.n ∧
      Echoed heard (replica.total history) replica.me other creator stored) := by
    intro other member
    rcases (mem_insert ..).mp member with rfl | old
    · exact .inr ⟨inRange, echoed⟩
    · exact .inl old
  have collected :=
    collect_healthy healthy lookup (len_le_insert echos sender) members
  rw [update_idem] at run
  split at run
  · exact pure_ok.mp run ▸ collected
  · next enough =>
    exact startHandshake_healthy collected (by simp) (not_lt.mp enough) run

end

theorem processReady_quiet (replica : Replica P) (sender : Nat) :
    Quiet replica (replica.processReady sender) := by
  unfold processReady
  split
  · exact quiet_stateMessage replica _ rfl rfl
  simp only
  split
  · exact quiet_fields _ _ rfl rfl
  · refine Quiet.trans ?_ (quiet_stateMessage _ _ rfl rfl)
    exact ⟨rfl, rfl, rfl, fun _ => .inl, fun _ => .inl⟩

end Replica

end Abcperf.Nxbft
