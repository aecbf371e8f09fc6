import Abcperf.Lib.Outcome
import Abcperf.Nxbft.Vertex

/-! The enclave automata: the part of an NxBFT replica that runs inside the trusted environment. It
assigns every signature the next counter value, exchanges seed shares with the peers and tosses the
wave coins. A replica that was restarted recovers the coins and the peers from an export. -/

namespace Abcperf.Nxbft

open Lib Lib.Outcome Function

variable {P : Platform}

/-- The attestations a peer had in earlier ranges of rounds are looked up by round before its
current one. -/
inductive Peer (P : Platform)
  | none
  | attested (attestation : P.Attestation)
  | handshakeComplete (attestation : P.Attestation) (old : P.ranges.Map)

inductive EnclaveAutomataError (P : Platform)
  | invalidPeerId
  | notReady
  | notEnoughValidVertices
  | enclaveTrusted (error : P.Error)

inductive InitHandshakeResult (P : Platform)
  | ok (handshake : P.Handshake)
  | duplicateHello
  | invalidAttestation
  | enclaveError (error : EnclaveAutomataError P)

inductive HandshakeResult (P : Platform)
  | missingAttestation
  | duplicateReply
  | invalidHandshakeEncryption
  | ok
  | enclaveError (error : EnclaveAutomataError P)

structure EnclaveAutomata (P : Platform) where
  n : Nat
  quorum : Nat
  peersAdded : Nat
  c : Nat
  peers : Nat → Peer P
  seed : BitVec 256
  seedShare : Option (BitVec 256)
  rng : Option P.Rng
  nextToss : Nat
  enclave : P.Key

structure EnclaveAutomataExport (P : Platform) where
  seed : BitVec 256
  nextToss : Nat
  n : Nat
  peers : Nat → Peer P

namespace EnclaveAutomata

def new (n : Nat) (enclave : P.Key) : EnclaveAutomata P where
  n
  quorum := n / 2 + 1
  peersAdded := 0
  c := 0
  peers := fun _ => .none
  seed := 0
  seedShare := none
  rng := none
  nextToss := 4
  enclave

def isReady (automata : EnclaveAutomata P) : Bool := automata.rng.isSome

def init (automata : EnclaveAutomata P) :
    Outcome (EnclaveAutomata P × Except (EnclaveAutomataError P) Unit) := do
  assert (automata.seedShare = none)
  match P.genSeedShare automata.enclave with
  | .ok share => return ({ automata with seedShare := some share }, .ok ())
  | .error error => return (automata, .error (.enclaveTrusted error))

def initPeerHandshake (automata : EnclaveAutomata P) (peerId : Nat) (attestation : P.Attestation) :
    Outcome (EnclaveAutomata P × InitHandshakeResult P) := do
  let share ← unwrap automata.seedShare
  if automata.n ≤ peerId then
    return (automata, .enclaveError .invalidPeerId)
  match automata.peers peerId with
  | .none =>
    match P.sealSeedShare automata.enclave attestation share with
    | .ok sealed =>
      return ({ automata with
        peers := Function.update automata.peers peerId (.attested attestation) }, .ok sealed)
    | .error error => return (automata, .enclaveError (.enclaveTrusted error))
  | _ => return (automata, .duplicateHello)

def checkReady (automata : EnclaveAutomata P) : Outcome (EnclaveAutomata P) := do
  assert (automata.rng.isNone)
  if automata.peersAdded < automata.n then
    return automata
  return { automata with rng := some (P.fromSeed automata.seed) }

def completePeerHandshake (automata : EnclaveAutomata P) (peerId : Nat) (handshake : P.Handshake) :
    Outcome (EnclaveAutomata P × HandshakeResult P) := do
  if automata.n ≤ peerId then
    return (automata, .enclaveError .invalidPeerId)
  match automata.peers peerId with
  | .none => return (automata, .missingAttestation)
  | .handshakeComplete _ _ => return (automata, .duplicateReply)
  | .attested attestation =>
    match P.unsealSeedShare automata.enclave handshake attestation with
    | .error error => return (automata, .enclaveError (.enclaveTrusted error))
    | .ok share =>
      let automata ← checkReady { automata with
        seed := automata.seed ^^^ share
        peersAdded := automata.peersAdded + 1
        peers := Function.update automata.peers peerId
          (.handshakeComplete attestation P.ranges.new) }
      return (automata, .ok)

/-- The counter is used up also when the trusted part fails to sign. -/
def sign (automata : EnclaveAutomata P) (messageHash : P.Hash) :
    EnclaveAutomata P × Except (EnclaveAutomataError P) (P.Signature × Nat) :=
  if automata.isReady then
    let next := { automata with c := automata.c + 1 }
    match P.sign automata.enclave messageHash automata.c with
    | .ok signature => (next, .ok (signature, automata.c))
    | .error error => (next, .error (.enclaveTrusted error))
  else (automata, .error .notReady)

def attestationAt (current : P.Attestation) (old : P.ranges.Map) (round : Nat) : P.Attestation :=
  (P.ranges.get old round).getD current

@[simp]
theorem attestationAt_new (current : P.Attestation) (round : Nat) :
    attestationAt current P.ranges.new round = current := by
  rw [attestationAt, P.ranges.get_new, Option.getD_none]

def verify (automata : EnclaveAutomata P) (peerId counter : Nat) (message : SignableVertex P)
    (signature : P.Signature) : Outcome (Except (EnclaveAutomataError P) Bool) :=
  if automata.n ≤ peerId then .ok (.error .invalidPeerId)
  else if automata.isReady then
    match automata.peers peerId with
    | .handshakeComplete current old =>
      match P.verify (attestationAt current old message.address.round) counter message.toHash
          signature with
      | .ok valid => .ok (.ok valid)
      | .error error => .ok (.error (.enclaveTrusted error))
    | _ => .error .unreachable
  else .ok (.error .notReady)

def rand (automata : EnclaveAutomata P) : Outcome (EnclaveAutomata P × Nat) := do
  let rng ← unwrap automata.rng
  let (drawn, rng) := P.sample automata.n rng
  return ({ automata with nextToss := automata.nextToss + 4, rng := some rng }, drawn)

def exportState (automata : EnclaveAutomata P) :
    Except (EnclaveAutomataError P) (EnclaveAutomataExport P) :=
  if automata.isReady then
    .ok ⟨automata.seed, automata.nextToss, automata.n, automata.peers⟩
  else .error .notReady

/-- The loop of `recover`, which draws until the next toss is `target`. -/
def replay (target : Nat) : Nat → EnclaveAutomata P → Outcome (EnclaveAutomata P)
  | 0, _ => .error .fuel
  | fuel + 1, automata =>
    if automata.nextToss < target then do
      let (automata, _) ← automata.rand
      replay target fuel automata
    else return automata

def recover (automata : EnclaveAutomata P) (exported : EnclaveAutomataExport P) :
    Outcome (EnclaveAutomata P × Except (EnclaveAutomataError P) Unit) := do
  assert (automata.n = exported.n)
  let automata ← checkReady { automata with
    peers := exported.peers
    peersAdded := automata.n
    seed := exported.seed }
  let automata ← replay exported.nextToss (exported.nextToss + 1) automata
  assert (automata.nextToss = exported.nextToss)
  return (automata, .ok ())

/-- The attestation that was current so far stays valid up to `maxRound`. -/
def replacePeer (automata : EnclaveAutomata P) (peerId : Nat) (attestation : P.Attestation)
    (maxRound : Nat) :
    Outcome (EnclaveAutomata P × Except (EnclaveAutomataError P) Bool) :=
  if automata.isReady then
    match automata.peers peerId with
    | .handshakeComplete current old => do
        let start := (P.ranges.lastRangeEnd old).getD 0
        let old ← P.ranges.insert old start maxRound current
        return ({ automata with
          peers := Function.update automata.peers peerId (.handshakeComplete attestation old) },
          .ok true)
    | _ => .error .unreachable
  else return (automata, .ok false)

/-- The loop of `toss` over the proof: the number of valid vertices of the next coin round with
distinct creators, or the first error of a verification. -/
def countValid (automata : EnclaveAutomata P) :
    List (SignedVertex P) → List Nat → Nat → Outcome (Except (EnclaveAutomataError P) Nat)
  | [], _, valid => .ok (.ok valid)
  | vertex :: rest, seen, valid =>
    let creator := vertex.signable.address.creator
    if creator ∈ seen ∨ vertex.signable.address.round ≠ automata.nextToss then
      countValid automata rest seen valid
    else do
      match ← automata.verify creator vertex.counter vertex.signable vertex.signature with
      | .ok true => countValid automata rest (creator :: seen) (valid + 1)
      | .ok false => countValid automata rest seen valid
      | .error error => return .error error

def toss (automata : EnclaveAutomata P) (proof : List (SignedVertex P)) :
    Outcome (EnclaveAutomata P × Except (EnclaveAutomataError P) Nat) := do
  match ← automata.countValid proof [] 0 with
  | .error error => return (automata, .error error)
  | .ok valid =>
    if valid < automata.quorum then
      return (automata, .error .notEnoughValidVertices)
    else
      let (automata, drawn) ← automata.rand
      return (automata, .ok drawn)

variable {automata after : EnclaveAutomata P} {error : EnclaveAutomataError P} {peerId : Nat}
  {proof : List (SignedVertex P)} {result : Except (EnclaveAutomataError P) Unit}

theorem sign_ok {messageHash : P.Hash} {signature : P.Signature} {counter : Nat}
    (run : automata.sign messageHash = (after, .ok (signature, counter))) :
    after = { automata with c := automata.c + 1 } ∧ counter = automata.c ∧
      P.sign automata.enclave messageHash automata.c = .ok signature := by
  unfold sign at run
  split at run
  · split at run
    · next signed =>
      simp only [Prod.mk.injEq, Except.ok.injEq] at run
      obtain ⟨rfl, rfl, rfl⟩ := run
      exact ⟨rfl, rfl, signed⟩
    · simp at run
  · simp at run

theorem sign_error {messageHash : P.Hash}
    (run : automata.sign messageHash = (after, .error error)) :
    ∃ c, automata.c ≤ c ∧ after = { automata with c } := by
  unfold sign at run
  split at run
  · split at run
    · simp at run
    · simp only [Prod.mk.injEq, Except.error.injEq] at run
      exact ⟨automata.c + 1, Nat.le_succ _, run.1.symm⟩
  · simp only [Prod.mk.injEq, Except.error.injEq] at run
    exact ⟨automata.c, le_rfl, run.1.symm⟩

theorem verify_true {counter : Nat} {message : SignableVertex P} {signature : P.Signature}
    (run : automata.verify peerId counter message signature = .ok (.ok true)) :
    ∃ current old, automata.peers peerId = .handshakeComplete current old ∧
      P.verify (attestationAt current old message.address.round) counter message.toHash
        signature = .ok true := by
  unfold verify at run
  split at run
  · cases run
  split at run
  · split at run
    · next current old complete =>
      split at run
      · next valid verified =>
        simp only [Except.ok.injEq] at run
        exact ⟨current, old, complete, run ▸ verified⟩
      · cases run
    · cases run
  · cases run

theorem countValid_round (proof : List (SignedVertex P)) (seen : List Nat) (valid total : Nat)
    (run : automata.countValid proof seen valid = .ok (.ok total)) (more : valid < total) :
    ∃ vertex ∈ proof, vertex.signable.address.round = automata.nextToss := by
  induction proof generalizing seen valid total with
  | nil =>
    simp only [countValid, Except.ok.injEq] at run
    omega
  | cons vertex rest ih =>
    simp only [countValid] at run
    by_cases matching : vertex.signable.address.round = automata.nextToss
    · exact ⟨vertex, List.mem_cons_self, matching⟩
    rw [if_pos (.inr matching)] at run
    obtain ⟨other, member, atRound⟩ := ih seen valid total run more
    exact ⟨other, List.mem_cons_of_mem _ member, atRound⟩

theorem toss_ok {drawn : Nat} (positive : 0 < automata.quorum)
    (run : automata.toss proof = .ok (after, .ok drawn)) :
    ∃ rng, automata.rng = some rng ∧ drawn = (P.sample automata.n rng).1 ∧ after = { automata with
        nextToss := automata.nextToss + 4, rng := some (P.sample automata.n rng).2 } ∧
      ∃ vertex ∈ proof, vertex.signable.address.round = automata.nextToss := by
  simp only [toss, bind_ok] at run
  obtain ⟨counted, countedOk, run⟩ := run
  cases counted with
  | error error => simp at run
  | ok valid =>
    by_cases few : valid < automata.quorum
    · simp [few] at run
    simp only [few, if_false, rand, bind_ok, pure_ok, Prod.exists, Prod.mk.injEq,
      Except.ok.injEq] at run
    obtain ⟨after', drawn', ⟨rng, found, rfl, rfl⟩, rfl, rfl⟩ := run
    exact ⟨rng, unwrap_ok.mp found, rfl, rfl,
      countValid_round proof [] 0 valid countedOk (by omega)⟩

theorem toss_error (run : automata.toss proof = .ok (after, .error error)) : after = automata := by
  simp only [toss, bind_ok] at run
  obtain ⟨counted, _, run⟩ := run
  cases counted with
  | error error => exact (congrArg Prod.fst (pure_ok.mp run)).symm
  | ok valid =>
    by_cases few : valid < automata.quorum
    · simp only [few, if_true, pair_ok] at run
      exact run.1.symm
    · simp [few] at run

theorem init_cases (run : automata.init = .ok (after, result)) :
    ∃ seedShare, after = { automata with seedShare } := by
  simp only [init, bind_ok, assert_ok, exists_and_left] at run
  obtain ⟨_, _, run⟩ := run
  split at run
  · exact ⟨_, (pair_ok.mp run).1.symm⟩
  · exact ⟨automata.seedShare, (pair_ok.mp run).1.symm⟩

theorem sign_cases {hash : P.Hash} {result : Except (EnclaveAutomataError P) (P.Signature × Nat)}
    (run : automata.sign hash = (after, result)) : ∃ c, after = { automata with c } := by
  cases result with
  | ok signed => exact ⟨_, (sign_ok run).1⟩
  | error error =>
    obtain ⟨c, _, isAfter⟩ := sign_error run
    exact ⟨c, isAfter⟩

section

variable {result : Except (EnclaveAutomataError P) Nat}
  (run : automata.toss proof = .ok (after, result))

include run

theorem toss_cases : ∃ nextToss rng, after = { automata with nextToss, rng } := by
  cases result with
  | error error => exact ⟨automata.nextToss, automata.rng, toss_error run⟩
  | ok drawn =>
    simp only [toss, bind_ok] at run
    obtain ⟨counted, _, run⟩ := run
    cases counted with
    | error error => simp at run
    | ok valid =>
      by_cases few : valid < automata.quorum
      · simp [few] at run
      simp only [few, if_false, rand, bind_ok, pure_ok, Prod.exists, Prod.mk.injEq] at run
      obtain ⟨tossed, drawn, ⟨rng, _, rfl, rfl⟩, rfl, _⟩ := run
      exact ⟨_, _, rfl⟩

theorem toss_kept : after.c = automata.c ∧ after.enclave = automata.enclave := by
  obtain ⟨_, _, rfl⟩ := toss_cases run
  exact ⟨rfl, rfl⟩

end

theorem initPeerHandshake_cases {attestation : P.Attestation} {result : InitHandshakeResult P}
    (run : automata.initPeerHandshake peerId attestation = .ok (after, result)) :
    after = automata ∨ (automata.peers peerId = .none ∧ after = { automata with
      peers := update automata.peers peerId (.attested attestation) }) := by
  simp only [initPeerHandshake, bind_ok] at run
  obtain ⟨share, _, run⟩ := run
  split at run
  · rw [pair_ok] at run
    exact .inl run.1.symm
  split at run
  · next vacant =>
    split at run
    · rw [pair_ok] at run
      exact .inr ⟨vacant, run.1.symm⟩
    · rw [pair_ok] at run
      exact .inl run.1.symm
  · rw [pair_ok] at run
    exact .inl run.1.symm

theorem checkReady_ok : automata.checkReady = .ok after ↔ automata.rng = none ∧ after =
      if automata.peersAdded < automata.n then automata
      else { automata with rng := some (P.fromSeed automata.seed) } := by
  simp only [checkReady, bind_ok, assert_ok, Option.isNone_iff_eq_none, exists_const]
  refine and_congr_right fun _ => ?_
  split <;> rw [pure_ok, eq_comm]

/-- Either nothing changes, or the share of a peer that was attested is folded into the seed. -/
theorem completePeerHandshake_cases {handshake : P.Handshake} {result : HandshakeResult P}
    (run : automata.completePeerHandshake peerId handshake = .ok (after, result)) :
    after = automata ∨ ∃ attestation share, peerId < automata.n ∧
      automata.peers peerId = .attested attestation ∧
      P.unsealSeedShare automata.enclave handshake attestation = .ok share ∧
      checkReady { automata with
        seed := automata.seed ^^^ share
        peersAdded := automata.peersAdded + 1
        peers := update automata.peers peerId (.handshakeComplete attestation P.ranges.new) } =
          .ok after := by
  unfold completePeerHandshake at run
  split at run
  · rw [pair_ok] at run
    exact .inl run.1.symm
  rename_i inRange
  split at run
  · rw [pair_ok] at run
    exact .inl run.1.symm
  · rw [pair_ok] at run
    exact .inl run.1.symm
  rename_i attestation pending
  split at run
  · rw [pair_ok] at run
    exact .inl run.1.symm
  rename_i share unsealed
  simp only [bind_ok, pair_ok] at run
  obtain ⟨middle, checked, rfl, _⟩ := run
  exact .inr ⟨attestation, share, not_le.mp inRange, pending, unsealed, checked⟩

def attestationOf : Peer P → Option P.Attestation
  | .none => none
  | .attested attestation => some attestation
  | .handshakeComplete attestation _ => some attestation

/-- What a handshake call can change: completed peers stay, the seed is fixed once the enclave is
ready, and the counter does not move. -/
structure HandshakeStep (before after : EnclaveAutomata P) : Prop where
  n : after.n = before.n
  quorum : after.quorum = before.quorum
  c : after.c = before.c
  nextToss : after.nextToss = before.nextToss
  enclave : after.enclave = before.enclave
  kept : ∀ peer attestation old, before.peers peer = .handshakeComplete attestation old →
    after.peers peer = .handshakeComplete attestation old
  completed : ∀ peer attestation old, after.peers peer = .handshakeComplete attestation old →
    before.peers peer = .handshakeComplete attestation old ∨ old = P.ranges.new
  rng : (after.rng = before.rng ∧ after.seed = before.seed) ∨
    (before.rng = none ∧ (after.rng = none ∨ after.rng = some (P.fromSeed after.seed)))

theorem HandshakeStep.refl (automata : EnclaveAutomata P) : HandshakeStep automata automata :=
  ⟨rfl, rfl, rfl, rfl, rfl, fun _ _ _ held => held, fun _ _ _ held => .inl held,
    .inl ⟨rfl, rfl⟩⟩

theorem init_step (run : automata.init = .ok (after, result)) :
    HandshakeStep automata after ∧ after.peers = automata.peers := by
  obtain ⟨_, rfl⟩ := init_cases run
  exact ⟨⟨rfl, rfl, rfl, rfl, rfl, fun _ _ _ held => held, fun _ _ _ held => .inl held,
    .inl ⟨rfl, rfl⟩⟩, rfl⟩

/-- Either the peer had no attestation and now has the given one, or nothing changed. -/
theorem initPeerHandshake_step {attestation : P.Attestation} {result : InitHandshakeResult P}
    (run : automata.initPeerHandshake peerId attestation = .ok (after, result)) :
    HandshakeStep automata after ∧ (after = automata ∨
      after.peers = update automata.peers peerId (.attested attestation)) := by
  rcases initPeerHandshake_cases run with rfl | ⟨vacant, rfl⟩
  · exact ⟨HandshakeStep.refl after, .inl rfl⟩
  refine ⟨⟨rfl, rfl, rfl, rfl, rfl, ?_, ?_, .inl ⟨rfl, rfl⟩⟩, .inr rfl⟩
  · intro peer attestation' old held
    have different : peer ≠ peerId := by
      rintro rfl
      rw [vacant] at held
      cases held
    simpa [different] using held
  intro peer attestation' old held
  by_cases same : peer = peerId
  · subst same
    simp at held
  · simp only [ne_eq, same, not_false_eq_true, update_of_ne] at held
    exact .inl held

theorem completePeerHandshake_step {handshake : P.Handshake} {result : HandshakeResult P}
    (run : automata.completePeerHandshake peerId handshake = .ok (after, result)) :
    HandshakeStep automata after ∧
      ∀ peer, attestationOf (after.peers peer) = attestationOf (automata.peers peer) := by
  rcases completePeerHandshake_cases run with rfl | ⟨attestation, share, _, pending, _, checked⟩
  · exact ⟨HandshakeStep.refl after, fun _ => rfl⟩
  obtain ⟨unready, isAfter⟩ := checkReady_ok.mp checked
  have peers : after.peers = update automata.peers peerId
      (.handshakeComplete attestation P.ranges.new) := by
    rw [isAfter]
    split <;> rfl
  have fields : after.n = automata.n ∧ after.quorum = automata.quorum ∧
      after.c = automata.c ∧ after.nextToss = automata.nextToss ∧
      after.enclave = automata.enclave := by
    rw [isAfter]
    split <;> exact ⟨rfl, rfl, rfl, rfl, rfl⟩
  refine ⟨⟨fields.1, fields.2.1, fields.2.2.1, fields.2.2.2.1, fields.2.2.2.2, ?_, ?_,
    .inr ⟨unready, ?_⟩⟩, ?_⟩
  · intro peer attestation' old held
    have different : peer ≠ peerId := by
      rintro rfl
      rw [pending] at held
      cases held
    rw [peers, update_of_ne different]
    exact held
  · intro peer attestation' old held
    rw [peers] at held
    by_cases same : peer = peerId
    · subst same
      simp only [update_self, Peer.handshakeComplete.injEq] at held
      exact .inr held.2.symm
    · rw [update_of_ne same] at held
      exact .inl held
  · rw [isAfter]
    split
    · exact .inl unready
    · exact .inr rfl
  intro peer
  rw [peers]
  by_cases same : peer = peerId
  · subst same
    rw [update_self, pending]
    rfl
  · rw [update_of_ne same]

end EnclaveAutomata

end Abcperf.Nxbft
