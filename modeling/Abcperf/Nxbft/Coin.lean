import Abcperf.Nxbft.Ledger
import Abcperf.Nxbft.Execution

/-! The wave coins of the enclaves. The generator of an enclave has advanced as often as its next
toss says, over every sequence of calls and also across an export and a recovery, so that enclaves
with one seed toss the same coins. -/

namespace Abcperf.Nxbft

open Lib Lib.Outcome Function List Option

variable {P : Platform}

/-- Verification answers yes or no: the trusted part does not fail on any input. -/
def Platform.Answers (P : Platform) : Prop :=
  ∀ attestation counter hash signature, ∃ valid,
    P.verify attestation counter hash signature = .ok valid

def Peer.isComplete : Peer P → Bool
  | .handshakeComplete _ _ => true
  | _ => false

namespace EnclaveAutomata

def Counts (automata : EnclaveAutomata P) (vertex : SignedVertex P) : Prop :=
  vertex.signable.address.round = automata.nextToss ∧
    automata.verify vertex.signable.address.creator vertex.counter vertex.signable
      vertex.signature = .ok (.ok true)

def tossAll : EnclaveAutomata P → List (List (SignedVertex P)) →
    Outcome (List (Except (EnclaveAutomataError P) Nat))
  | _, [] => return []
  | automata, proof :: rest => do
      let (automata, result) ← automata.toss proof
      let results ← automata.tossAll rest
      return result :: results

/-- The enclaves that calls reach, each with the results of its successful tosses. An enclave that
has recovered continues the tosses of the one that was exported. -/
inductive Reached (n : Nat) : EnclaveAutomata P → List Nat → Prop
  | new (enough : 3 ≤ n) (key : P.Key) : Reached n (new n key) []
  | init {automata after : EnclaveAutomata P} {drawn : List Nat}
      {result : Except (EnclaveAutomataError P) Unit} (before : Reached n automata drawn)
      (run : automata.init = .ok (after, result)) : Reached n after drawn
  | initPeerHandshake {automata after : EnclaveAutomata P} {drawn : List Nat} {peerId : Nat}
      {attestation : P.Attestation} {result : InitHandshakeResult P}
      (before : Reached n automata drawn)
      (run : automata.initPeerHandshake peerId attestation = .ok (after, result)) :
      Reached n after drawn
  | completePeerHandshake {automata after : EnclaveAutomata P} {drawn : List Nat} {peerId : Nat}
      {handshake : P.Handshake} {result : HandshakeResult P} (before : Reached n automata drawn)
      (run : automata.completePeerHandshake peerId handshake = .ok (after, result)) :
      Reached n after drawn
  | replacePeer {automata after : EnclaveAutomata P} {drawn : List Nat} {peerId maxRound : Nat}
      {attestation : P.Attestation} {result : Except (EnclaveAutomataError P) Bool}
      (before : Reached n automata drawn)
      (run : automata.replacePeer peerId attestation maxRound = .ok (after, result)) :
      Reached n after drawn
  | sign {automata after : EnclaveAutomata P} {drawn : List Nat} {hash : P.Hash}
      {result : Except (EnclaveAutomataError P) (P.Signature × Nat)}
      (before : Reached n automata drawn) (run : automata.sign hash = (after, result)) :
      Reached n after drawn
  | toss {automata after : EnclaveAutomata P} {drawn : List Nat} {proof : List (SignedVertex P)}
      {id : Nat} (before : Reached n automata drawn)
      (run : automata.toss proof = .ok (after, .ok id)) : Reached n after (drawn ++ [id])
  | tossError {automata after : EnclaveAutomata P} {drawn : List Nat}
      {proof : List (SignedVertex P)} {error : EnclaveAutomataError P}
      (before : Reached n automata drawn)
      (run : automata.toss proof = .ok (after, .error error)) : Reached n after drawn
  | recover {source target after : EnclaveAutomata P} {drawn drawn' : List Nat}
      {exported : EnclaveAutomataExport P} {result : Except (EnclaveAutomataError P) Unit}
      (left : Reached n source drawn) (right : Reached n target drawn')
      (isExport : source.exportState = .ok exported)
      (run : target.recover exported = .ok (after, result)) : Reached n after drawn

/-- What the calls maintain. While an enclave is not ready it counts the peers that have completed
the handshake; once it is ready all have, and the generator is at the position of the next toss. -/
structure Sound (n : Nat) (automata : EnclaveAutomata P) (drawn : List Nat) : Prop where
  enough : 3 ≤ n
  size : automata.n = n
  quorum : automata.quorum = n / 2 + 1
  position : automata.nextToss = 4 * (drawn.length + 1)
  coins : drawn = (List.range drawn.length).map fun toss => coin P n automata.seed (toss + 1)
  unready : automata.rng = none → drawn = [] ∧ automata.peersAdded =
    ((Finset.range n).filter fun peer => (automata.peers peer).isComplete).card
  ready : ∀ rng, automata.rng = some rng → rng = coinState n automata.seed drawn.length ∧
    ∀ peer < n, (automata.peers peer).isComplete = true

variable {n peerId : Nat} {automata after source target : EnclaveAutomata P}
  {drawn drawn' : List Nat} {result : Except (EnclaveAutomataError P) Unit}
  {proof : List (SignedVertex P)} {exported : EnclaveAutomataExport P}

theorem new_sound (enough : 3 ≤ n) (key : P.Key) : Sound n (new n key) [] where
  enough := enough
  size := rfl
  quorum := rfl
  position := rfl
  coins := rfl
  unready := fun _ => ⟨rfl, by simp [new, Peer.isComplete]⟩
  ready := fun _ isRng => by cases isRng

theorem Sound.kept (sound : Sound n automata drawn) (size : after.n = automata.n)
    (quorum : after.quorum = automata.quorum) (position : after.nextToss = automata.nextToss)
    (seed : after.seed = automata.seed) (rng : after.rng = automata.rng)
    (added : after.peersAdded = automata.peersAdded)
    (peers : ∀ peer, (after.peers peer).isComplete = (automata.peers peer).isComplete) :
    Sound n after drawn where
  enough := sound.enough
  size := size.trans sound.size
  quorum := quorum.trans sound.quorum
  position := position.trans sound.position
  coins := by
    rw [seed]
    exact sound.coins
  unready := by
    intro none
    simp only [added, peers]
    exact sound.unready (rng ▸ none)
  ready := by
    intro current isCurrent
    simp only [seed, peers]
    exact sound.ready current (rng ▸ isCurrent)

theorem init_sound (sound : Sound n automata drawn) (run : automata.init = .ok (after, result)) :
    Sound n after drawn := by
  obtain ⟨share, rfl⟩ := init_cases run
  exact sound.kept rfl rfl rfl rfl rfl rfl fun _ => rfl

theorem sign_sound {hash : P.Hash} {result : Except (EnclaveAutomataError P) (P.Signature × Nat)}
    (sound : Sound n automata drawn) (run : automata.sign hash = (after, result)) :
    Sound n after drawn := by
  obtain ⟨c, rfl⟩ := sign_cases run
  exact sound.kept rfl rfl rfl rfl rfl rfl fun _ => rfl

/-- Replacing the entry of a peer by one that is as complete changes no entry's completeness. -/
theorem update_isComplete {peers : Nat → Peer P} {entry : Peer P}
    (same : entry.isComplete = (peers peerId).isComplete) (peer : Nat) :
    (update peers peerId entry peer).isComplete = (peers peer).isComplete := by
  by_cases isPeer : peer = peerId
  · subst isPeer
    rw [update_self, same]
  · rw [update_of_ne isPeer]

theorem initPeerHandshake_sound {attestation : P.Attestation} {result : InitHandshakeResult P}
    (sound : Sound n automata drawn)
    (run : automata.initPeerHandshake peerId attestation = .ok (after, result)) :
    Sound n after drawn := by
  rcases initPeerHandshake_cases run with rfl | ⟨vacant, rfl⟩
  · exact sound
  · exact sound.kept rfl rfl rfl rfl rfl rfl (update_isComplete (by rw [vacant]; rfl))

theorem replacePeer_sound {maxRound : Nat} {attestation : P.Attestation}
    {result : Except (EnclaveAutomataError P) Bool} (sound : Sound n automata drawn)
    (run : automata.replacePeer peerId attestation maxRound = .ok (after, result)) :
    Sound n after drawn := by
  unfold replacePeer at run
  split at run
  · split at run
    · next current old complete =>
      simp only [bind_ok, pair_ok] at run
      obtain ⟨_, _, rfl, _⟩ := run
      exact sound.kept rfl rfl rfl rfl rfl rfl (update_isComplete (by rw [complete]; rfl))
    · cases run
  · rw [pair_ok] at run
    exact run.1 ▸ sound

theorem complete_card {peers : Nat → Peer P} {entry : Peer P} (inRange : peerId < n)
    (pending : (peers peerId).isComplete = false) (complete : entry.isComplete = true) :
    ((Finset.range n).filter fun peer => (update peers peerId entry peer).isComplete).card =
      ((Finset.range n).filter fun peer => (peers peer).isComplete).card + 1 := by
  have grown : ((Finset.range n).filter fun peer =>
        (update peers peerId entry peer).isComplete) =
      insert peerId ((Finset.range n).filter fun peer => (peers peer).isComplete) := by
    ext peer
    by_cases isPeer : peer = peerId
    · subst isPeer
      simp [inRange, complete]
    · simp [isPeer]
  rw [grown, Finset.card_insert_of_notMem (by simp [pending])]

theorem completePeerHandshake_sound {handshake : P.Handshake} {result : HandshakeResult P}
    (sound : Sound n automata drawn)
    (run : automata.completePeerHandshake peerId handshake = .ok (after, result)) :
    Sound n after drawn := by
  rcases completePeerHandshake_cases run with rfl |
    ⟨attestation, share, inRange, pending, _, checked⟩
  · exact sound
  obtain ⟨none, isAfter⟩ := checkReady_ok.mp checked
  obtain ⟨rfl, added⟩ := sound.unready none
  have counted : ((Finset.range n).filter fun peer => (update automata.peers
        peerId (.handshakeComplete attestation P.ranges.new) peer).isComplete).card =
      automata.peersAdded + 1 :=
    added ▸ complete_card (sound.size ▸ inRange) (by rw [pending]; rfl) rfl
  split at isAfter
  · subst isAfter
    exact ⟨sound.enough, sound.size, sound.quorum, sound.position, rfl,
      fun _ => ⟨rfl, counted.symm⟩, fun rng isRng => by cases none.symm.trans isRng⟩
  rename_i enough
  change ¬ automata.peersAdded + 1 < automata.n at enough
  subst isAfter
  have all := Finset.filter_card_eq (counted.trans (by
    have := Finset.card_filter_le (Finset.range n) fun peer =>
      (update automata.peers peerId (.handshakeComplete attestation P.ranges.new) peer).isComplete =
        true
    rw [Finset.card_range] at this ⊢
    have := sound.size
    omega))
  exact ⟨sound.enough, sound.size, sound.quorum, sound.position, rfl,
    fun isNone => by simp at isNone,
    fun rng isRng => ⟨(some.inj isRng).symm, fun peer isPeer =>
      all peer (Finset.mem_range.mpr isPeer)⟩⟩

theorem toss_sound {id : Nat} (sound : Sound n automata drawn)
    (run : automata.toss proof = .ok (after, .ok id)) : Sound n after (drawn ++ [id]) := by
  obtain ⟨rng, isRng, rfl, rfl, _⟩ := toss_ok (by rw [sound.quorum]; omega) run
  obtain ⟨rfl, complete⟩ := sound.ready rng isRng
  refine ⟨sound.enough, sound.size, sound.quorum, ?_, ?_, fun isNone => by simp at isNone, ?_⟩
  · simp only [sound.position, length_append, length_singleton]
    omega
  · rw [length_append, length_singleton, range_succ, map_append, ← sound.coins, sound.size]
    rfl
  intro next isNext
  refine ⟨?_, complete⟩
  rw [← some.inj isNext, length_append, sound.size]
  rfl

/-- The loop of `recover` brings the generator to the position of its target. -/
theorem replay_returns {seed : BitVec 256} {last : Nat} :
    ∀ (fuel draws : Nat) (automata : EnclaveAutomata P), automata.n = n →
      automata.rng = some (coinState n seed draws) → automata.nextToss = 4 * (draws + 1) →
      draws ≤ last → last < draws + fuel →
      replay (4 * (last + 1)) fuel automata = .ok { automata with
        nextToss := 4 * (last + 1), rng := some (coinState n seed last) } := by
  intro fuel
  induction fuel with
  | zero =>
    intro draws automata _ _ _ _ more
    omega
  | succ fuel ih =>
    intro draws automata size isRng position least more
    rw [replay]
    by_cases reached : draws = last
    · subst reached
      rw [if_neg (by omega), ← isRng, ← position]
      rfl
    have drawn : automata.rand = .ok ({ automata with
        nextToss := automata.nextToss + 4,
        rng := some (coinState n seed (draws + 1)) }, coin P n seed (draws + 1)) := by
      simp only [rand, isRng, unwrap, size]
      rfl
    rw [if_pos (by omega), drawn]
    exact ih (draws + 1) _ size rfl (by simp only [position]; omega) (by omega) (by omega)

def recovered (source target : EnclaveAutomata P) : EnclaveAutomata P :=
  { target with
    peers := source.peers
    peersAdded := target.n
    seed := source.seed
    nextToss := source.nextToss
    rng := source.rng }

theorem recover_returns (left : Sound n source drawn) (right : Sound n target drawn')
    (unready : target.rng = none) (isExport : source.exportState = .ok exported) :
    target.recover exported = .ok (recovered source target, .ok ()) := by
  unfold exportState at isExport
  split at isExport
  · next isReady =>
    cases isExport
    obtain ⟨rng, isRng⟩ := isSome_iff_exists.mp isReady
    obtain ⟨rfl, _⟩ := left.ready rng isRng
    obtain ⟨rfl, _⟩ := right.unready unready
    have size : target.n = source.n := right.size.trans left.size.symm
    have prepared : checkReady { target with
          peers := source.peers, peersAdded := target.n, seed := source.seed } =
        .ok { target with
          peers := source.peers, peersAdded := target.n, seed := source.seed,
          rng := some (P.fromSeed source.seed) } := by
      simp only [checkReady, unready, assert, isNone_none, if_true, lt_irrefl, if_false]
      rfl
    have replayed : replay source.nextToss (source.nextToss + 1) { target with
          peers := source.peers, peersAdded := target.n, seed := source.seed,
          rng := some (P.fromSeed source.seed) } = .ok (recovered source target) := by
      have loop := replay_returns (source.nextToss + 1) 0 { target with
          peers := source.peers, peersAdded := target.n, seed := source.seed,
          rng := some (P.fromSeed source.seed) } right.size rfl right.position
        (Nat.zero_le drawn.length) (by rw [left.position]; omega)
      rw [← left.position, ← isRng] at loop
      exact loop
    simp only [recover, bind_ok, assert_ok, pure_ok]
    exact ⟨(), size, _, prepared, _, replayed, (), rfl, rfl⟩
  · cases isExport

theorem recover_unready (run : target.recover exported = .ok (after, result)) :
    target.rng = none := by
  simp only [recover, checkReady, bind_ok, assert_ok, exists_and_left] at run
  obtain ⟨_, _, _, ⟨none, _⟩, _⟩ := run
  exact isNone_iff_eq_none.mp none

theorem recovered_sound (left : Sound n source drawn) (right : Sound n target drawn')
    (isReady : source.isReady) : Sound n (recovered source target) drawn where
  enough := left.enough
  size := right.size
  quorum := right.quorum
  position := left.position
  coins := left.coins
  unready := fun none => by simp_all [recovered, EnclaveAutomata.isReady]
  ready := left.ready

theorem exportState_ready (isExport : automata.exportState = .ok exported) : automata.isReady := by
  unfold exportState at isExport
  split at isExport
  · assumption
  · cases isExport

theorem Reached.sound (reached : Reached n automata drawn) : Sound n automata drawn := by
  induction reached with
  | new enough key => exact new_sound enough key
  | init _ run ih => exact init_sound ih run
  | initPeerHandshake _ run ih => exact initPeerHandshake_sound ih run
  | completePeerHandshake _ run ih => exact completePeerHandshake_sound ih run
  | replacePeer _ run ih => exact replacePeer_sound ih run
  | sign _ run ih => exact sign_sound ih run
  | toss _ run ih => exact toss_sound ih run
  | tossError _ run ih => exact toss_error run ▸ ih
  | recover _ _ isExport run left right =>
    rw [recover_returns left right (recover_unready run) isExport] at run
    obtain ⟨rfl, _⟩ := Prod.mk.inj (Except.ok.inj run)
    exact recovered_sound left right (exportState_ready isExport)

/-- The loop over a proof counts the distinct creators of the vertices that count. -/
theorem countValid_counts (proof : List (SignedVertex P)) (seen : List Nat) (nodup : seen.Nodup)
    (answered : ∀ vertex ∈ proof, ∃ valid, automata.verify vertex.signable.address.creator
      vertex.counter vertex.signable vertex.signature = .ok (.ok valid)) :
    ∃ final : List Nat, final.Nodup ∧
      automata.countValid proof seen seen.length = .ok (.ok final.length) ∧
      ∀ creator, creator ∈ final ↔ creator ∈ seen ∨
        ∃ vertex ∈ proof, vertex.signable.address.creator = creator ∧ automata.Counts vertex := by
  induction proof generalizing seen with
  | nil => exact ⟨seen, nodup, rfl, fun creator => by simp⟩
  | cons vertex rest ih =>
    have later := fun seen nodup => ih seen nodup fun other member =>
      answered other (mem_cons_of_mem _ member)
    obtain ⟨valid, isValid⟩ := answered vertex mem_cons_self
    rw [countValid]
    simp only [exists_mem_cons_iff]
    by_cases skipped : vertex.signable.address.creator ∈ seen ∨
        vertex.signable.address.round ≠ automata.nextToss
    · rw [if_pos skipped]
      obtain ⟨final, isNodup, counted, members⟩ := later seen nodup
      refine ⟨final, isNodup, counted, fun creator => (members creator).trans ?_⟩
      have known : vertex.signable.address.creator = creator ∧ automata.Counts vertex →
          creator ∈ seen := by
        rintro ⟨rfl, atRound, _⟩
        exact skipped.resolve_right (not_not.mpr atRound)
      tauto
    rw [if_neg skipped, isValid]
    push Not at skipped
    cases valid with
    | true =>
      have fresh : (vertex.signable.address.creator :: seen).Nodup :=
        nodup_cons.mpr ⟨skipped.1, nodup⟩
      obtain ⟨final, isNodup, counted, members⟩ := later _ fresh
      refine ⟨final, isNodup, counted, fun creator => (members creator).trans ?_⟩
      have counts : automata.Counts vertex := ⟨skipped.2, isValid⟩
      rw [mem_cons, eq_comm]
      tauto
    | false =>
      obtain ⟨final, isNodup, counted, members⟩ := later seen nodup
      refine ⟨final, isNodup, counted, fun creator => (members creator).trans ?_⟩
      have counts : ¬ automata.Counts vertex := by
        rintro ⟨_, verified⟩
        rw [isValid] at verified
        cases verified
      tauto

theorem Sound.verify_answers (answers : P.Answers) (sound : Sound n automata drawn)
    (isReady : automata.isReady) {vertex : SignedVertex P}
    (known : vertex.signable.address.creator < n) :
    ∃ valid, automata.verify vertex.signable.address.creator vertex.counter vertex.signable
      vertex.signature = .ok (.ok valid) := by
  obtain ⟨rng, isRng⟩ := isSome_iff_exists.mp isReady
  have complete := (sound.ready rng isRng).2 _ known
  rw [verify, if_neg (by rw [sound.size]; omega), if_pos isReady]
  cases isPeer : automata.peers vertex.signable.address.creator with
  | handshakeComplete current old =>
    obtain ⟨valid, isValid⟩ := answers
      (attestationAt current old vertex.signable.address.round) vertex.counter
      vertex.signable.toHash vertex.signature
    exact ⟨valid, by simp only [isValid]⟩
  | none => simp [isPeer, Peer.isComplete] at complete
  | attested attestation => simp [isPeer, Peer.isComplete] at complete

theorem not_ready_counts (unready : automata.isReady = false) {vertex : SignedVertex P} :
    ¬ automata.Counts vertex := by
  rintro ⟨_, verified⟩
  unfold verify at verified
  split at verified
  · cases verified
  · rw [unready, if_neg Bool.false_ne_true] at verified
    cases verified

theorem toss_counted {valid : Nat} {rng : P.Rng} (isRng : automata.rng = some rng)
    (counted : automata.countValid proof [] 0 = .ok (.ok valid)) :
    automata.toss proof = .ok (if valid < automata.quorum then
        (automata, .error .notEnoughValidVertices) else ({ automata with
        nextToss := automata.nextToss + 4, rng := some (P.sample automata.n rng).2 },
        .ok (P.sample automata.n rng).1)) := by
  simp only [toss, counted, rand, isRng, unwrap, bind, Except.bind]
  split <;> rfl

/-- An enclave succeeds in a toss exactly with a quorum of vertices that count. -/
theorem Sound.toss_succeeds_iff (answers : P.Answers) (sound : Sound n automata drawn)
    (known : ∀ vertex ∈ proof, vertex.signable.address.creator < n) :
    (∃ after id, automata.toss proof = .ok (after, .ok id)) ↔
      ∃ creators : Finset Nat, n / 2 + 1 ≤ creators.card ∧ ∀ creator ∈ creators,
        ∃ vertex ∈ proof, vertex.signable.address.creator = creator ∧ automata.Counts vertex := by
  cases isReady : automata.isReady with
  | false =>
    constructor
    · rintro ⟨after, id, run⟩
      obtain ⟨rng, isRng, _⟩ := toss_ok (by rw [sound.quorum]; omega) run
      simp [EnclaveAutomata.isReady, isRng] at isReady
    rintro ⟨creators, enough, members⟩
    obtain ⟨creator, member⟩ := Finset.card_pos.mp (by omega : 0 < creators.card)
    obtain ⟨vertex, _, _, counts⟩ := members creator member
    exact absurd counts (not_ready_counts isReady)
  | true =>
    obtain ⟨final, nodup, counted, members⟩ := countValid_counts proof [] nodup_nil
      fun vertex member => sound.verify_answers answers isReady (known vertex member)
    obtain ⟨rng, isRng⟩ := isSome_iff_exists.mp isReady
    have tossed : (∃ after id, automata.toss proof = .ok (after, .ok id)) ↔
        n / 2 + 1 ≤ final.length := by
      rw [toss_counted isRng counted, ← sound.quorum]
      by_cases few : final.length < automata.quorum
      · simp [few]
      · simp [few, not_lt.mp few]
    rw [tossed]
    constructor
    · intro enough
      refine ⟨final.toFinset, by rwa [toFinset_card_of_nodup nodup], ?_⟩
      intro creator member
      simpa using (members creator).mp (List.mem_toFinset.mp member)
    rintro ⟨creators, enough, counts⟩
    have included : creators ⊆ final.toFinset := by
      intro creator member
      exact List.mem_toFinset.mpr ((members creator).mpr (.inr (counts creator member)))
    have := Finset.card_le_card included
    rw [toFinset_card_of_nodup nodup] at this
    omega

/-- The enclave with all that a toss does not read taken from `target`. -/
def rehost (automata target : EnclaveAutomata P) : EnclaveAutomata P :=
  { target with
    n := automata.n
    quorum := automata.quorum
    peers := automata.peers
    nextToss := automata.nextToss
    rng := automata.rng }

theorem rehost_countValid : ∀ (proof : List (SignedVertex P)) (seen : List Nat) (valid : Nat),
      (automata.rehost target).countValid proof seen valid =
        automata.countValid proof seen valid := by
  have verified : (automata.rehost target).verify = automata.verify := rfl
  intro proof
  induction proof with
  | nil =>
    intro seen valid
    rfl
  | cons vertex rest ih =>
    intro seen valid
    simp only [countValid, verified, ih]
    rfl

theorem rehost_toss (proof : List (SignedVertex P)) : (automata.rehost target).toss proof =
      (automata.toss proof).map fun tossed => (tossed.1.rehost target, tossed.2) := by
  simp only [toss, rehost_countValid]
  cases automata.countValid proof [] 0 with
  | error panic => rfl
  | ok counted =>
    cases counted with
    | error error => rfl
    | ok valid =>
      by_cases few : valid < automata.quorum
      · have few' : valid < (automata.rehost target).quorum := few
        simp only [bind, Except.bind, few, few', if_true]
        rfl
      have few' : ¬ valid < (automata.rehost target).quorum := few
      simp only [bind, Except.bind, few, few', if_false, rand]
      have sameRng : (automata.rehost target).rng = automata.rng := rfl
      rw [sameRng]
      cases automata.rng <;> rfl

theorem rehost_tossAll : ∀ (proofs : List (List (SignedVertex P))) (automata : EnclaveAutomata P),
      (automata.rehost target).tossAll proofs = automata.tossAll proofs
  | [], _ => rfl
  | proof :: rest, automata => by
      simp only [tossAll, rehost_toss]
      cases automata.toss proof with
      | error panic => rfl
      | ok tossed =>
        simp only [Except.map, bind, Except.bind, rehost_tossAll rest]

theorem recovered_tossAll (left : Sound n source drawn) (right : Sound n target drawn')
    (proofs : List (List (SignedVertex P))) :
    (recovered source target).tossAll proofs = source.tossAll proofs := by
  have same : recovered source target =
      source.rehost { target with peersAdded := target.n, seed := source.seed } := by
    simp only [recovered, rehost, left.size, right.size, left.quorum, right.quorum]
  rw [same, rehost_tossAll]

/-- The coins of an enclave are those of its seed. -/
theorem Sound.coin_at {k id : Nat} (sound : Sound n automata drawn) (found : drawn[k]? = some id) :
    id = coin P n automata.seed (k + 1) := by
  have within : k < drawn.length := (List.getElem?_eq_some_iff.mp found).1
  rw [sound.coins, List.getElem?_map, List.getElem?_range within] at found
  exact (some.inj found).symm

/-- Whatever calls were made before: an enclave tosses a coin exactly with a quorum of valid
vertices of the coin's round, a toss that fails changes nothing, enclaves with one seed have tossed
the same coins, and an enclave that recovers an export goes on with the tosses of its source. -/
theorem coins_sound (answers : P.Answers) {n : Nat} (samples : ∀ rng, (P.sample n rng).1 < n)
    {automata : EnclaveAutomata P} {drawn : List Nat} (reached : Reached n automata drawn) :
    (∀ proof : List (SignedVertex P),
      (∀ vertex ∈ proof, vertex.signable.address.creator < n) →
      ((∃ after id, automata.toss proof = .ok (after, .ok id)) ↔
        ∃ creators : Finset Nat, automata.quorum ≤ creators.card ∧ ∀ creator ∈ creators,
          ∃ vertex ∈ proof, vertex.signable.address.creator = creator ∧
            automata.Counts vertex)) ∧
    (∀ proof after error, automata.toss proof = .ok (after, .error error) → after = automata) ∧
    (∀ (other : EnclaveAutomata P) drawn', Reached n other drawn' → other.seed = automata.seed →
      ∀ k id id' : Nat, drawn[k]? = some id → drawn'[k]? = some id' → id = id' ∧ id < n) ∧
    (∀ exported, automata.exportState = .ok exported →
      ∀ (target : EnclaveAutomata P) drawn', Reached n target drawn' → target.isReady = false →
      ∃ after, target.recover exported = .ok (after, .ok ()) ∧
        ∀ proofs, after.tossAll proofs = automata.tossAll proofs) := by
  have sound := reached.sound
  refine ⟨?_, fun proof after error => toss_error, ?_, ?_⟩
  · intro proof known
    rw [sound.quorum]
    exact sound.toss_succeeds_iff answers known
  · intro other drawn' isOther sameSeed k id id' found found'
    have isCoin := sound.coin_at found
    have isCoin' := isOther.sound.coin_at found'
    rw [sameSeed] at isCoin'
    exact ⟨isCoin.trans isCoin'.symm, isCoin ▸ samples _⟩
  intro exported isExport target drawn' isTarget unready
  have none : target.rng = none := by simpa [EnclaveAutomata.isReady] using unready
  exact ⟨recovered automata target, recover_returns sound isTarget.sound none isExport,
    recovered_tossAll sound isTarget.sound⟩

end EnclaveAutomata

namespace Plain

open EnclaveAutomata

theorem answers : platform.Answers := fun _ _ _ _ => ⟨_, rfl⟩

def coinVertex (round creator : Nat) : SignedVertex platform :=
  ⟨⟨⟨round, creator⟩, [], IdSet.empty⟩, (creator, 0, (round, creator, [], [])), 0⟩

theorem enclave_tosses : ∃ automata : EnclaveAutomata platform,
    Reached 3 automata [1] ∧ automata.isReady = true := by
  have start : Reached 3 (new 3 0 : EnclaveAutomata platform) [] := .new (Nat.le_refl 3) _
  have shared := start.init (show EnclaveAutomata.init (P := platform) _ = .ok (_, _) from rfl)
  have attestedZero := shared.initPeerHandshake
    (show initPeerHandshake (P := platform) _ 0 0 = .ok (_, _) from rfl)
  have attestedOne := attestedZero.initPeerHandshake
    (show initPeerHandshake (P := platform) _ 1 1 = .ok (_, _) from rfl)
  have attestedTwo := attestedOne.initPeerHandshake
    (show initPeerHandshake (P := platform) _ 2 2 = .ok (_, _) from rfl)
  have completeZero := attestedTwo.completePeerHandshake
    (show completePeerHandshake (P := platform) _ 0 (share 0 0) = .ok (_, _) from rfl)
  have completeOne := completeZero.completePeerHandshake
    (show completePeerHandshake (P := platform) _ 1 (share 1 0) = .ok (_, _) from rfl)
  have completeTwo := completeOne.completePeerHandshake
    (show completePeerHandshake (P := platform) _ 2 (share 2 0) = .ok (_, _) from rfl)
  have tossed := completeTwo.toss
    (show toss (P := platform) _ [coinVertex 4 0, coinVertex 4 0, coinVertex 4 2] =
      .ok (_, .ok _) from rfl)
  exact ⟨_, tossed, rfl⟩

end Plain

/-- An enclave that has tossed one coin, and another that goes on with its tosses. -/
theorem coins_sound_recovered : ∃ automata : EnclaveAutomata Plain.platform,
    EnclaveAutomata.Reached 3 automata [1] ∧ ∃ exported after,
      automata.exportState = .ok exported ∧
      (EnclaveAutomata.new 3 5 : EnclaveAutomata Plain.platform).recover exported =
        .ok (after, .ok ()) ∧
      ∀ proofs, after.tossAll proofs = automata.tossAll proofs := by
  obtain ⟨automata, reached, isReady⟩ := Plain.enclave_tosses
  obtain ⟨_, _, _, recovers⟩ := EnclaveAutomata.coins_sound Plain.answers (n := 3)
    (fun _ => (by decide : 1 < 3)) reached
  have isExport : automata.exportState =
      .ok ⟨automata.seed, automata.nextToss, automata.n, automata.peers⟩ := if_pos isReady
  obtain ⟨after, recovered, same⟩ := recovers _ isExport (.new 3 5) [] (.new (Nat.le_refl 3) _) rfl
  exact ⟨automata, reached, _, after, isExport, recovered, same⟩

end Abcperf.Nxbft
