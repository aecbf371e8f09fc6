import Abcperf.Nxbft.Execution

/-! The attestations an enclave keeps of one peer. Each replacement stores the attestation it
replaces with the rounds in which it was used, from the last round of the one before to `max_round`.
Both ends belong to the range, so a range that is stored later takes over the last round of the one
before it. -/

namespace Abcperf.Nxbft

open Lib Lib.Outcome List

variable {P : Platform}

/-- The attestation in use at a round, when each replacement brings in the next attestation after
the round with which it comes. -/
def attestationInUse (initial : P.Attestation) :
    List (P.Attestation × Nat) → Nat → P.Attestation
  | [], _ => initial
  | (next, maxRound) :: rest, round =>
    if round ≤ maxRound then initial else attestationInUse next rest round

namespace RangeInclusiveMap

variable {Value : Type} (ranges : RangeInclusiveMap Value) {map next : ranges.Map}

theorem get_beyond {key : Nat} (beyond : (ranges.lastRangeEnd map).getD 0 < key) :
    ranges.get map key = none := by
  cases isEnd : ranges.lastRangeEnd map with
  | none => exact ranges.lastRangeEnd_none map isEnd key
  | some last =>
    exact (ranges.lastRangeEnd_some map last isEnd).2 key (by simpa [isEnd] using beyond)

theorem lastRangeEnd_new : ranges.lastRangeEnd ranges.new = none := by
  cases isEnd : ranges.lastRangeEnd ranges.new with
  | none => rfl
  | some last =>
    have found := (ranges.lastRangeEnd_some _ _ isEnd).1
    rw [ranges.get_new] at found
    cases found

/-- A range that starts where the last one ends becomes the last one. -/
theorem lastRangeEnd_insert {start last : Nat} {value : Value}
    (isStart : (ranges.lastRangeEnd map).getD 0 = start)
    (inserted : ranges.insert map start last value = .ok next) :
    ranges.lastRangeEnd next = some last := by
  have low := (ranges.insert_returns map start last value).mp ⟨next, inserted⟩
  have found := ranges.get_insert _ _ _ _ _ inserted
  have atLast : ranges.get next last = some value := by rw [found, if_pos ⟨low, le_rfl⟩]
  cases isEnd : ranges.lastRangeEnd next with
  | none => cases (ranges.lastRangeEnd_none next isEnd last).symm.trans atLast
  | some greatest =>
    obtain ⟨present, none⟩ := ranges.lastRangeEnd_some next greatest isEnd
    have notLess : ¬ greatest < last := fun less => by cases (none last less).symm.trans atLast
    have notGreater : ¬ last < greatest := fun greater => by
      rw [found, if_neg (by omega), ranges.get_beyond (by omega)] at present
      cases present
    rw [show greatest = last by omega]

end RangeInclusiveMap

namespace EnclaveAutomata

def replaceAll (automata : EnclaveAutomata P) (peerId : Nat)
    (replacements : List (P.Attestation × Nat)) : Outcome (EnclaveAutomata P) :=
  replacements.foldlM (fun automata replacement => do
    let (automata, _) ← automata.replacePeer peerId replacement.1 replacement.2
    return automata) automata

/-- The attestation that the enclave finds for a round: a replacement that is followed by another
one hands its last round over. -/
def attestationFound (initial : P.Attestation) :
    List (P.Attestation × Nat) → Nat → P.Attestation
  | [], _ => initial
  | (next, maxRound) :: rest, round =>
    if round < maxRound ∨ (round = maxRound ∧ rest = []) then initial
    else attestationFound next rest round

/-- Later replacements leave the rounds below the last stored one alone. From there on, what is
found is given by the replacements. -/
theorem replaceAll_found (peerId : Nat) :
    ∀ (replacements : List (P.Attestation × Nat)) {automata : EnclaveAutomata P} {start : Nat}
      {current : P.Attestation} {old : P.ranges.Map}, automata.isReady →
      automata.peers peerId = .handshakeComplete current old →
      (P.ranges.lastRangeEnd old).getD 0 = start →
      (start :: replacements.map (·.2)).Pairwise (· ≤ ·) →
      ∃ after last stored, automata.replaceAll peerId replacements = .ok after ∧ after.isReady ∧
        after.n = automata.n ∧ after.peers peerId = .handshakeComplete last stored ∧
        (∀ round, round < start ∨ replacements = [] →
          P.ranges.get stored round = P.ranges.get old round) ∧
        ∀ round, start ≤ round → (replacements = [] → P.ranges.get old round = none) →
          attestationAt last stored round = attestationFound current replacements round := by
  intro replacements
  induction replacements with
  | nil =>
    intro automata start current old ready complete _ _
    refine ⟨automata, current, old, rfl, ready, rfl, complete, fun _ _ => rfl, ?_⟩
    intro round _ free
    rw [attestationAt, free rfl]
    rfl
  | cons replacement rest ih =>
    obtain ⟨next, maxRound⟩ := replacement
    intro automata start current old ready complete isStart rising
    rw [map_cons, pairwise_cons] at rising
    have low : start ≤ maxRound := rising.1 maxRound mem_cons_self
    obtain ⟨grown, inserted⟩ := (P.ranges.insert_returns old start maxRound current).mpr low
    have found := P.ranges.get_insert _ _ _ _ _ inserted
    let replaced : EnclaveAutomata P := { automata with
      peers := Function.update automata.peers peerId (.handshakeComplete next grown) }
    have called : automata.replacePeer peerId next maxRound = .ok (replaced, .ok true) := by
      rw [replacePeer, if_pos ready, complete]
      simp only [isStart, inserted]
      rfl
    have isEnd : (P.ranges.lastRangeEnd grown).getD 0 = maxRound := by
      rw [P.ranges.lastRangeEnd_insert isStart inserted, Option.getD_some]
    obtain ⟨after, last, stored, later, readyAfter, sameN, completeAfter, below, above⟩ :=
      ih (show replaced.isReady from ready) (Function.update_self ..) isEnd rising.2
    refine ⟨after, last, stored, ?_, readyAfter, sameN, completeAfter, ?_, ?_⟩
    · rw [replaceAll, foldlM_cons, called]
      exact later
    · rintro round (isBelow | impossible)
      · rw [below round (.inl (by omega)), found, if_neg (by omega)]
      · cases impossible
    intro round isAbove _
    rw [attestationFound]
    by_cases inFirst : round < maxRound ∨ (round = maxRound ∧ rest = [])
    · -- no later range has the round, and the first one has it
      have kept := below round (inFirst.imp id And.right)
      rw [if_pos inFirst, attestationAt, kept, found, if_pos (by omega), Option.getD_some]
    -- a later range has the last round of the first, or the round is above it
    rw [if_neg inFirst]
    refine above round (by omega) fun none => ?_
    have beyond : maxRound < round := by
      refine lt_of_le_of_ne (by omega) fun same => inFirst (.inr ⟨same.symm, none⟩)
    rw [found, if_neg (by omega), P.ranges.get_beyond (by omega)]

variable {round : Nat}

/-- `attestation` came in with the last replacement that hands over its last round `round`. -/
def HandedOver (replacements : List (P.Attestation × Nat)) (round : Nat)
    (attestation : P.Attestation) : Prop :=
  ∃ earlier later, replacements = earlier ++ (attestation, round) :: later ∧ later ≠ [] ∧
    ∀ replacement ∈ later.dropLast, replacement.2 ≠ round

theorem attestationFound_handedOver {attestation : P.Attestation} :
    ∀ {replacements : List (P.Attestation × Nat)} {initial : P.Attestation},
      (replacements.map (·.2)).Pairwise (· ≤ ·) → HandedOver replacements round attestation →
      attestationFound initial replacements round = attestation := by
  rintro replacements initial rising ⟨earlier, later, rfl, more, last⟩
  induction earlier generalizing initial with
  | nil =>
    rw [nil_append, map_cons, pairwise_cons] at rising
    rw [nil_append, attestationFound, if_neg (by simp [more])]
    cases later with
    | nil => exact absurd rfl more
    | cons second rest =>
      have low : round ≤ second.2 := rising.1 _ mem_cons_self
      rw [attestationFound, if_pos]
      by_cases isLast : rest = []
      · subst isLast
        simp
        omega
      have different := last second (by
        cases rest with
        | nil => exact absurd rfl isLast
        | cons third rest => exact mem_cons_self)
      exact .inl (by omega)
  | cons first earlier ih =>
    rw [cons_append, map_cons, pairwise_cons] at rising
    have low : first.2 ≤ round := rising.1 _ (by simp)
    rw [cons_append, attestationFound, if_neg ?_]
    · exact ih rising.2
    rintro (below | ⟨_, none⟩)
    · omega
    · simp at none

theorem attestationFound_cases :
    ∀ {replacements : List (P.Attestation × Nat)} (initial : P.Attestation),
      (replacements.map (·.2)).Pairwise (· ≤ ·) →
      (attestationFound initial replacements round = attestationInUse initial replacements round ∧
        ∀ replacement ∈ replacements.dropLast, replacement.2 ≠ round) ∨
      ∃ attestation, HandedOver replacements round attestation := by
  intro replacements
  induction replacements with
  | nil =>
    intro initial _
    exact .inl ⟨rfl, nofun⟩
  | cons first rest ih =>
    obtain ⟨next, maxRound⟩ := first
    intro initial rising
    rw [map_cons, pairwise_cons] at rising
    -- the members of a tail, for the rounds that no replacement hands over
    have members : ∀ replacement ∈ ((next, maxRound) :: rest).dropLast,
        replacement = (next, maxRound) ∨ replacement ∈ rest.dropLast := by
      intro replacement member
      cases rest with
      | nil => cases member
      | cons second rest => exact mem_cons.mp member
    simp only [attestationFound, attestationInUse]
    rcases Nat.lt_trichotomy round maxRound with below | isLast | above
    · rw [if_pos (.inl below), if_pos below.le]
      refine .inl ⟨rfl, fun replacement member => ?_⟩
      rcases members replacement member with rfl | later
      · exact below.ne'
      have low := rising.1 replacement.2 (mem_map_of_mem (mem_of_mem_dropLast later))
      simp only at low
      omega
    · subst isLast
      by_cases noMore : rest = []
      · subst noMore
        rw [if_pos (.inr ⟨rfl, rfl⟩), if_pos le_rfl]
        exact .inl ⟨rfl, nofun⟩
      rcases ih next rising.2 with ⟨_, none⟩ | ⟨attestation, handed⟩
      · exact .inr ⟨next, [], rest, rfl, noMore, none⟩
      · obtain ⟨earlier, later, rfl, more⟩ := handed
        exact .inr ⟨attestation, (next, round) :: earlier, later, rfl, more⟩
    rw [if_neg (by omega), if_neg (by omega)]
    rcases ih next rising.2 with ⟨same, none⟩ | ⟨attestation, handed⟩
    · refine .inl ⟨same, fun replacement member => ?_⟩
      rcases members replacement member with rfl | later
      · exact above.ne
      · exact none replacement later
    · obtain ⟨earlier, later, rfl, more⟩ := handed
      exact .inr ⟨attestation, (next, maxRound) :: earlier, later, rfl, more⟩

theorem attestationFound_iff {replacements : List (P.Attestation × Nat)} (initial : P.Attestation)
    (rising : (replacements.map (·.2)).Pairwise (· ≤ ·)) :
    attestationFound initial replacements round = attestationInUse initial replacements round ↔
      ∀ attestation, HandedOver replacements round attestation →
        attestation = attestationInUse initial replacements round := by
  constructor
  · intro same attestation handed
    exact (attestationFound_handedOver rising handed).symm.trans same
  intro condition
  rcases attestationFound_cases initial rising with ⟨same, _⟩ | ⟨attestation, handed⟩
  · exact same
  · exact (attestationFound_handedOver rising handed).trans (condition attestation handed)

/-- After any replacements with rising rounds, `verify` uses the attestation that was in use at the
round of the message exactly if no replacement that was followed by another one came with that
round, or the last such replacement brought in that attestation. -/
theorem verify_inUse_iff {automata : EnclaveAutomata P} {peerId : Nat} {initial : P.Attestation}
    (ready : automata.isReady) (inRange : peerId < automata.n)
    (complete : automata.peers peerId = .handshakeComplete initial P.ranges.new)
    {replacements : List (P.Attestation × Nat)}
    (rising : (replacements.map (·.2)).Pairwise (· ≤ ·)) :
    ∃ (after : EnclaveAutomata P) (used : Nat → P.Attestation),
      automata.replaceAll peerId replacements = .ok after ∧
      (∀ counter message signature, after.verify peerId counter message signature =
        .ok ((P.verify (used message.address.round) counter message.toHash signature).mapError
          .enclaveTrusted)) ∧ ∀ round, used round = attestationInUse initial replacements round ↔
        ∀ attestation, HandedOver replacements round attestation →
          attestation = attestationInUse initial replacements round := by
  have risingFrom : (0 :: replacements.map (·.2)).Pairwise (· ≤ ·) :=
    pairwise_cons.mpr ⟨fun _ _ => Nat.zero_le _, rising⟩
  obtain ⟨after, last, stored, replaced, readyAfter, sameN, completeAfter, _, found⟩ :=
    replaceAll_found peerId replacements ready complete
      (by rw [P.ranges.lastRangeEnd_new, Option.getD_none]) risingFrom
  refine ⟨after, attestationFound initial replacements, replaced, ?_,
    fun round => attestationFound_iff initial rising⟩
  intro counter message signature
  rw [← found _ (Nat.zero_le _) fun _ => P.ranges.get_new _, verify, if_neg (by omega),
    if_pos readyAfter, completeAfter]
  dsimp only
  split
  · next valid verified => rw [verified]; rfl
  · next error failed => rw [failed]; rfl

end EnclaveAutomata

namespace Plain

/-- An enclave that has completed the handshake with every peer; the attestation of a peer is its
number. -/
def readyEnclave : EnclaveAutomata platform :=
  { EnclaveAutomata.new (P := platform) 3 (0 : Nat) with
    peers := fun peer => .handshakeComplete peer platform.ranges.new
    rng := some () }

/-- Between two replacements the first new attestation is used. -/
theorem verify_inUse_between : ∃ (after : EnclaveAutomata platform) (used : Nat → Nat),
      readyEnclave.replaceAll 2 [(5, 4), (6, 8)] = .ok after ∧
      (∀ counter message signature, after.verify 2 counter message signature =
        .ok ((platform.verify (used message.address.round) counter message.toHash
          signature).mapError .enclaveTrusted)) ∧
      ((used 5 = attestationInUse (P := platform) 2 [(5, 4), (6, 8)] 5) ↔
        ∀ attestation, EnclaveAutomata.HandedOver (P := platform) [(5, 4), (6, 8)] 5 attestation →
          attestation = attestationInUse (P := platform) 2 [(5, 4), (6, 8)] 5) := by
  obtain ⟨after, used, replaced, verifies, exact⟩ :=
    EnclaveAutomata.verify_inUse_iff (show readyEnclave.isReady from rfl)
      (show 2 < readyEnclave.n by decide)
        (show readyEnclave.peers 2 = .handshakeComplete 2 platform.ranges.new from rfl)
      (show (([(5, 4), (6, 8)] : List (Nat × Nat)).map (·.2)).Pairwise (· ≤ ·) by decide)
  exact ⟨after, used, replaced, verifies, exact 5⟩

def lastOfInitial : SignableVertex platform := SignableVertex.new ⟨4, 2⟩ IdSet.empty []

/-- What the initial enclave has signed in the last round of its attestation is accepted no more
after the second replacement. -/
theorem verify_handed_over : ∃ after : EnclaveAutomata platform,
      readyEnclave.replaceAll 2 [(5, 4), (6, 8)] = .ok after ∧
      attestationInUse (P := platform) 2 [(5, 4), (6, 8)] 4 = (2 : Nat) ∧
      platform.verify (2 : Nat) 3 lastOfInitial.toHash (2, 3, lastOfInitial.toHash) = .ok true ∧
      after.verify 2 3 lastOfInitial (2, 3, lastOfInitial.toHash) = .ok (.ok false) :=
  ⟨_, rfl, rfl, rfl, rfl⟩

end Plain

end Abcperf.Nxbft
