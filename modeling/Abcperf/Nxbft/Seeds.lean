import Abcperf.Nxbft.Agreement
import Abcperf.Nxbft.Coin
import Abcperf.Nxbft.Effects

/-! The seeds that the handshakes build. An enclave folds the share of a peer into its seed once,
when the handshake with that peer completes, and the order in which the handshakes complete does
not matter. -/

namespace Abcperf.Nxbft

open Lib Lib.Outcome Plain Function World List Option

variable {P : Platform}

def Platform.HasShare (P : Platform) (attestation : P.Attestation) (share : BitVec 256) : Prop :=
  ∃ key, P.attestationCertificate key = .ok attestation ∧ P.genSeedShare key = .ok share

/-- Sealing delivers the share that the enclave on the other side has generated. -/
def Platform.Sealing (P : Platform) : Prop :=
  ∀ key handshake attestation share,
    P.unsealSeedShare key handshake attestation = .ok share → P.HasShare attestation share

theorem Platform.HasShare.unique [secure : Secure P] {attestation : P.Attestation}
    {left right : BitVec 256} (isLeft : P.HasShare attestation left)
    (isRight : P.HasShare attestation right) : left = right := by
  obtain ⟨key, certified, generated⟩ := isLeft
  obtain ⟨key', certified', generated'⟩ := isRight
  obtain rfl := secure.distinct key key' attestation certified certified'
  exact Except.ok.inj (generated.symm.trans generated')

def xorAll (shares : List (BitVec 256)) : BitVec 256 := shares.foldr (· ^^^ ·) 0

theorem xorAll_perm {left right : List (BitVec 256)} (perm : left.Perm right) :
    xorAll left = xorAll right := by
  have commutes : LeftCommutative fun (first rest : BitVec 256) => first ^^^ rest :=
    ⟨fun first second rest => by
      rw [← BitVec.xor_assoc, BitVec.xor_comm first, BitVec.xor_assoc]⟩
  exact perm.foldr_eq 0

namespace EnclaveAutomata

/-- The seed is made of one share for each of the peers in `order`, the peers that have completed
the handshake. -/
structure Folded (automata : EnclaveAutomata P) (order : List Nat) (share : Nat → BitVec 256) :
    Prop where
  nodup : order.Nodup
  inRange : ∀ peer ∈ order, peer < automata.n
  complete : ∀ peer, peer ∈ order ↔ (automata.peers peer).isComplete = true
  shares : ∀ peer ∈ order, ∀ attestation, attestationOf (automata.peers peer) = some attestation →
    P.HasShare attestation (share peer)
  seed : automata.seed = xorAll (order.map share)

variable {automata after : EnclaveAutomata P} {order : List Nat} {share : Nat → BitVec 256}
  {n : Nat}

theorem Folded.kept (folded : Folded automata order share) (n : after.n = automata.n)
    (seed : after.seed = automata.seed)
    (complete : ∀ peer, (after.peers peer).isComplete = (automata.peers peer).isComplete)
    (attestations : ∀ peer ∈ order,
      attestationOf (after.peers peer) = attestationOf (automata.peers peer)) :
    Folded after order share where
  nodup := folded.nodup
  inRange := fun peer member => n ▸ folded.inRange peer member
  complete := fun peer => by rw [folded.complete, complete]
  shares := fun peer member attestation isAttestation =>
    folded.shares peer member attestation (attestations peer member ▸ isAttestation)
  seed := seed.trans folded.seed

theorem initPeerHandshake_folded {peerId : Nat} {attestation : P.Attestation}
    {result : InitHandshakeResult P} (folded : Folded automata order share)
    (run : automata.initPeerHandshake peerId attestation = .ok (after, result)) :
    Folded after order share := by
  rcases initPeerHandshake_cases run with rfl | ⟨vacant, rfl⟩
  · exact folded
  refine folded.kept rfl rfl (update_isComplete (by rw [vacant]; rfl)) ?_
  intro peer member
  have different : peer ≠ peerId := by
    rintro rfl
    rw [folded.complete, vacant] at member
    cases member
  exact congrArg attestationOf (update_of_ne different _ _)

theorem completePeerHandshake_folded (sealing : P.Sealing) {peerId : Nat} {handshake : P.Handshake}
    {result : HandshakeResult P} (folded : Folded automata order share)
    (run : automata.completePeerHandshake peerId handshake = .ok (after, result)) :
    ∃ order share, Folded after order share := by
  rcases completePeerHandshake_cases run with rfl |
    ⟨attestation, fresh, inRange, pending, unsealed, checked⟩
  · exact ⟨order, share, folded⟩
  obtain ⟨_, isAfter⟩ := checkReady_ok.mp checked
  have peers : after.peers = update automata.peers peerId
      (.handshakeComplete attestation P.ranges.new) := by
    rw [isAfter]
    split <;> rfl
  have seed : after.seed = automata.seed ^^^ fresh := by
    rw [isAfter]
    split <;> rfl
  have size : after.n = automata.n := by
    rw [isAfter]
    split <;> rfl
  have absent : peerId ∉ order := by
    rw [folded.complete, pending]
    exact Bool.false_ne_true
  have others : ∀ peer ∈ order, update share peerId fresh peer = share peer :=
    fun peer member => update_of_ne (ne_of_mem_of_not_mem member absent) _ _
  refine ⟨peerId :: order, update share peerId fresh, nodup_cons.mpr ⟨absent, folded.nodup⟩,
    ?_, ?_, ?_, ?_⟩
  · intro peer member
    rcases mem_cons.mp member with rfl | old
    · exact size ▸ inRange
    · exact size ▸ folded.inRange peer old
  · intro peer
    rw [mem_cons, folded.complete, peers]
    by_cases same : peer = peerId
    · subst same
      simp [Peer.isComplete]
    · simp [same]
  · intro peer member attestation' isAttestation
    rw [peers] at isAttestation
    by_cases same : peer = peerId
    · subst same
      rw [update_self] at isAttestation ⊢
      exact some.inj isAttestation ▸ sealing _ _ _ _ unsealed
    · rw [update_of_ne same] at isAttestation ⊢
      exact folded.shares peer ((mem_cons.mp member).resolve_left same) _ isAttestation
  · rw [seed, folded.seed, map_cons, update_self, map_congr_left others, BitVec.xor_comm]
    rfl

theorem Evolves.folded (sealing : P.Sealing) {key : P.Key}
    (evolves : (new n key).Evolves automata) : ∃ order share, Folded automata order share := by
  induction evolves with
  | refl =>
    refine ⟨[], fun _ => 0, nodup_nil, ?_, fun peer => by simp [new, Peer.isComplete], ?_, rfl⟩
    · intro peer member
      cases member
    · intro peer member
      cases member
  | init _ run ih =>
    obtain ⟨order, share, folded⟩ := ih
    obtain ⟨_, rfl⟩ := init_cases run
    exact ⟨order, share, folded.kept rfl rfl (fun _ => rfl) fun _ _ => rfl⟩
  | initPeerHandshake _ run ih =>
    obtain ⟨order, share, folded⟩ := ih
    exact ⟨order, share, initPeerHandshake_folded folded run⟩
  | completePeerHandshake _ run ih =>
    obtain ⟨order, share, folded⟩ := ih
    exact completePeerHandshake_folded sealing folded run
  | sign _ run ih =>
    obtain ⟨order, share, folded⟩ := ih
    obtain ⟨_, rfl⟩ := sign_cases run
    exact ⟨order, share, folded.kept rfl rfl (fun _ => rfl) fun _ _ => rfl⟩
  | toss _ run ih =>
    obtain ⟨order, share, folded⟩ := ih
    obtain ⟨_, _, rfl⟩ := toss_cases run
    exact ⟨order, share, folded.kept rfl rfl (fun _ => rfl) fun _ _ => rfl⟩

theorem Evolves.reached (enough : 3 ≤ n) {key : P.Key} (evolves : (new n key).Evolves automata) :
    ∃ drawn, Reached n automata drawn := by
  induction evolves with
  | refl => exact ⟨[], .new enough key⟩
  | init _ run ih =>
    obtain ⟨drawn, reached⟩ := ih
    exact ⟨drawn, reached.init run⟩
  | initPeerHandshake _ run ih =>
    obtain ⟨drawn, reached⟩ := ih
    exact ⟨drawn, reached.initPeerHandshake run⟩
  | completePeerHandshake _ run ih =>
    obtain ⟨drawn, reached⟩ := ih
    exact ⟨drawn, reached.completePeerHandshake run⟩
  | sign _ run ih =>
    obtain ⟨drawn, reached⟩ := ih
    exact ⟨drawn, reached.sign run⟩
  | @toss _ _ _ result _ run ih =>
    obtain ⟨drawn, reached⟩ := ih
    cases result with
    | ok id => exact ⟨drawn ++ [id], reached.toss run⟩
    | error error => exact ⟨drawn, reached.tossError run⟩

theorem Folded.seed_ready {drawn : List Nat} (folded : Folded automata order share)
    (sound : Sound n automata drawn) (isReady : automata.isReady) :
    automata.seed = xorAll ((List.range n).map share) := by
  obtain ⟨rng, isRng⟩ := isSome_iff_exists.mp isReady
  have perm : order.Perm (List.range n) := by
    refine (perm_ext_iff_of_nodup folded.nodup nodup_range).mpr fun peer => ?_
    rw [mem_range]
    exact ⟨fun member => sound.size ▸ folded.inRange peer member,
      fun isPeer => (folded.complete peer).mpr ((sound.ready rng isRng).2 peer isPeer)⟩
  rw [folded.seed, xorAll_perm (perm.map share)]

end EnclaveAutomata

namespace World

variable {setup : Setup P} {world : World P}

theorem run_enough {allowed : Event P → Prop} (run : Run setup allowed world) {id : Nat}
    (correct : id ∈ setup.correct) : 3 ≤ setup.n := by
  induction run with
  | start initial =>
    have isNew := (initial.1 id correct).1
    simp only [Replica.new, bind_ok, assert_ok, exists_and_left] at isNew
    exact (setup.named id correct).2 ▸ isNew.1
  | step _ _ _ ih => exact ih

/-- The enclave of a correct replica that is ready has folded in the shares of all peers. -/
theorem run_seed (sealing : P.Sealing) {allowed : Event P → Prop} (run : Run setup allowed world)
    {id : Nat} (correct : id ∈ setup.correct) (isReady : (world.replicas id).enclave.isReady) :
    ∃ share, (∀ peer < setup.n, ∃ attestation, EnclaveAutomata.attestationOf
        ((world.replicas id).enclave.peers peer) = some attestation ∧
        P.HasShare attestation (share peer)) ∧
      (world.replicas id).enclave.seed = xorAll ((List.range setup.n).map share) := by
  have evolves := (run_following run id correct).enclave
  obtain ⟨order, share, folded⟩ := evolves.folded sealing
  obtain ⟨drawn, reached⟩ := evolves.reached (run_enough run correct)
  refine ⟨share, ?_, folded.seed_ready reached.sound isReady⟩
  intro peer isPeer
  obtain ⟨rng, isRng⟩ := isSome_iff_exists.mp isReady
  have complete := (reached.sound.ready rng isRng).2 peer isPeer
  have member := (folded.complete peer).mpr complete
  cases isEntry : (world.replicas id).enclave.peers peer with
  | handshakeComplete attestation old =>
    exact ⟨attestation, rfl, folded.shares peer member attestation (by rw [isEntry]; rfl)⟩
  | none => simp [isEntry, Peer.isComplete] at complete
  | attested attestation => simp [isEntry, Peer.isComplete] at complete

/-- Enclaves of correct replicas that are ready have folded in the same shares. -/
theorem seeds_agree [Secure P] (sealing : P.Sealing) (run : Run setup Event.EchoNamesSource world)
    {left right : Nat} (isLeft : left ∈ setup.correct) (isRight : right ∈ setup.correct)
    (leftReady : (world.replicas left).enclave.isReady)
    (rightReady : (world.replicas right).enclave.isReady) :
    (world.replicas left).enclave.seed = (world.replicas right).enclave.seed := by
  have coherent := run_coherent run
  obtain ⟨leftShare, leftShares, leftSeed⟩ := run_seed sealing run isLeft leftReady
  obtain ⟨rightShare, rightShares, rightSeed⟩ := run_seed sealing run isRight rightReady
  have same : ∀ peer ∈ List.range setup.n, leftShare peer = rightShare peer := by
    intro peer member
    obtain ⟨attestation, atLeft, hasLeft⟩ := leftShares peer (mem_range.mp member)
    obtain ⟨attestation', atRight, hasRight⟩ := rightShares peer (mem_range.mp member)
    obtain rfl := attestation_agree coherent isLeft isRight atLeft atRight
    exact hasLeft.unique hasRight
  rw [leftSeed, rightSeed, map_congr_left same]

end World

/-- Correct replicas agree on the attestation of every peer and, once they are ready, on the seed,
into which the share of each peer has gone once. -/
theorem handshakes_agree (secure : Secure P) (sealing : P.Sealing) {setup : Setup P}
    {world : World P} (run : Run setup Event.EchoNamesSource world) {left right : Nat}
    (isLeft : left ∈ setup.correct) (isRight : right ∈ setup.correct) :
    (∀ creator attestation attestation',
      EnclaveAutomata.attestationOf ((world.replicas left).enclave.peers creator) =
      some attestation →
      EnclaveAutomata.attestationOf ((world.replicas right).enclave.peers creator) =
        some attestation' → attestation = attestation') ∧
    (∃ order share, (world.replicas left).enclave.Folded order share) ∧
    ((world.replicas left).enclave.isReady → (world.replicas right).enclave.isReady →
      (world.replicas left).enclave.seed = (world.replicas right).enclave.seed ∧
      ∃ share, (∀ peer < setup.n, ∃ attestation, EnclaveAutomata.attestationOf
          ((world.replicas left).enclave.peers peer) = some attestation ∧
          P.HasShare attestation (share peer)) ∧
        (world.replicas left).enclave.seed = xorAll ((List.range setup.n).map share)) := by
  have coherent := run_coherent run
  obtain ⟨order, share, folded⟩ := (run_following run left isLeft).enclave.folded sealing
  exact ⟨fun creator attestation attestation' => attestation_agree coherent isLeft isRight,
    ⟨order, share, folded⟩, fun leftReady rightReady =>
      ⟨seeds_agree sealing run isLeft isRight leftReady rightReady,
        run_seed sealing run isLeft leftReady⟩⟩

namespace Plain

theorem sealing : platform.Sealing := by
  intro key handshake attestation share unsealed
  change (if _ then _ else _) = _ at unsealed
  split at unsealed
  · next isShare =>
    obtain ⟨rfl, _, isGenerated⟩ := isShare
    exact ⟨handshake.1, rfl, congrArg Except.ok (isGenerated.symm.trans (Except.ok.inj unsealed))⟩
  · cases unsealed

end Plain

/-- Two replicas that follow the protocol become ready with one seed. -/
theorem handshakes_agree_faithful : ∃ world, Run Plain.setup Event.EchoNamesSource world ∧
    (world.replicas 0).enclave.isReady = true ∧ (world.replicas 1).enclave.isReady = true ∧
    (world.replicas 0).enclave.seed = (world.replicas 1).enclave.seed := by
  obtain ⟨world, run, leftReady, rightReady⟩ : ∃ world, Run _ Event.EchoNamesSource world ∧
      (world.replicas 0).enclave.isReady = true ∧ (world.replicas 1).enclave.isReady = true :=
    player.play_run (fun _ => Event.echoNamesSource_sound) start_initial
      (List.flatten [[.init 0, .init 1], enclaveTwo, faithfulHandshake]) (by decide +kernel)
  obtain ⟨_, _, seeds⟩ := handshakes_agree secure sealing run
    (by decide : 0 ∈ setup.correct) (by decide : 1 ∈ setup.correct)
  exact ⟨world, run, leftReady, rightReady, (seeds leftReady rightReady).1⟩

/-- With echoes in the name of others, two correct replicas attest different enclaves as
replica 1. -/
theorem spoofed_echoes_attest_apart : Secure Plain.platform ∧ Plain.platform.Sealing ∧
    ∃ world, Run Plain.setup (fun _ => True) world ∧ 0 ∈ Plain.setup.correct ∧
      1 ∈ Plain.setup.correct ∧ ∃ left right : Plain.platform.Attestation,
        EnclaveAutomata.attestationOf ((world.replicas 0).enclave.peers 1) = some left ∧
        EnclaveAutomata.attestationOf ((world.replicas 1).enclave.peers 1) = some right ∧
        left ≠ right := by
  obtain ⟨world, run, left, right⟩ : ∃ world, Run _ _ world ∧
      (EnclaveAutomata.attestationOf ((world.replicas 0).enclave.peers 1) : Option Nat) = some 2 ∧
      (EnclaveAutomata.attestationOf ((world.replicas 1).enclave.peers 1) : Option Nat) = some 1 :=
    player.play_run (fun _ (_ : true = true) => trivial) start_initial
      (List.flatten [[.init 0, .init 1], enclaveTwo, spoofedHandshake, rightHandshake])
      (by decide +kernel)
  exact ⟨secure, sealing, world, run, by decide, by decide, 2, 1, left, right, by decide⟩

end Abcperf.Nxbft
