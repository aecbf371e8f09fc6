import Mathlib.Data.List.TakeWhile
import Abcperf.Damysus.Calls

/-! When an enclave does what it is asked to. Votes that agree on the block they prepare can be
accumulated, and a block that is justified by a verified accumulator can be prepared. -/

namespace Abcperf.Damysus

open Lib.Outcome List SignedCommitment

variable {P : Platform}

/-- What a host relies on: signing does not fail, the trusted side accepts what the host's own check
accepts, and a key that is added later changes neither what was accepted nor how is signed. The
`NoopEnclave` is such a platform. The host of `DamysusTEE` has the replica's own key before its
enclave has it, so there `trusts` and `remembers` hold only once `init_handshake` has added the key.
-/
structure Platform.Dependable (P : Platform) : Prop where
  signs : ∀ trusted count hash, ∃ signature, P.sign trusted count hash = .ok signature
  trusts : ∀ {trusted creator hash signature},
    P.verifyUntrusted trusted creator hash signature = .ok true →
    P.verify trusted creator hash signature = .ok true
  remembers : ∀ {trusted next id key creator hash signature}, P.addPeer trusted id key = .ok next →
    P.verifyUntrusted trusted creator hash signature = .ok true →
    P.verifyUntrusted next creator hash signature = .ok true
  signer : ∀ {trusted next id key}, P.addPeer trusted id key = .ok next →
    P.sign next = P.sign trusted

attribute [class] Platform.Dependable

namespace EnclaveAutomata

def Accepts (automata : EnclaveAutomata P) (signed : SignedCommitment P) : Prop :=
  P.verifyUntrusted automata.trusted signed.getCreator signed.hashValue signed.signature = .ok true

def Registered (automata : EnclaveAutomata P) : Prop :=
  ∀ count hash signature, P.sign automata.trusted count hash = .ok signature →
    P.verifyUntrusted automata.trusted automata.me hash signature = .ok true

/-- A vote that the handler of commitments may collect. -/
structure Votable (automata : EnclaveAutomata P) (signed : SignedCommitment P) : Prop where
  usig : signed.isUsig = true
  accepted : automata.Accepts signed
  prepared : signed.getPreparedBlockView ≤ signed.getView
  inView : signed.isPrepare = true → signed.getBlockView = signed.getView

theorem createCommitment_signed [dependable : P.Dependable] (automata : EnclaveAutomata P)
    (view blockView : Nat) (blockHash : P.BlockHash) (commitmentType : CommitmentType)
    (isPrepare : Bool) :
    ∃ signed, automata.createCommitment view blockView blockHash commitmentType isPrepare =
      (automata.signed, .ok signed) ∧ (automata.Registered → automata.Accepts signed) := by
  obtain ⟨signature, made⟩ := dependable.signs automata.trusted automata.signatures
    (automata.commitment view blockView blockHash commitmentType isPrepare).hashValue
  refine ⟨⟨automata.commitment view blockView blockHash commitmentType isPrepare, signature⟩, ?_,
    ?_⟩
  · simp [createCommitment, made, Except.map, EnclaveAutomata.signed]
  · intro registered
    exact registered _ _ _ made

theorem createUsig_signed [P.Dependable] (automata : EnclaveAutomata P) (blockHash : P.BlockHash)
    (blockView : Nat) :
    ∃ signed, automata.createUsig blockHash blockView = (automata.voted, .ok signed) ∧
      (automata.Registered → automata.Accepts signed) := by
  obtain ⟨signed, made, accepted⟩ := createCommitment_signed automata automata.view
    blockView blockHash .usig (automata.view = blockView)
  exact ⟨signed, by simp only [createUsig, made]; rfl, accepted⟩

theorem lockedOn_trusted (automata : EnclaveAutomata P) (accumulator : SignedCommitment P)
    (parent : Option P.BlockHash) :
    (automata.lockedOn accumulator parent).trusted = automata.trusted := by
  unfold lockedOn
  split <;> rfl

variable {automata : EnclaveAutomata P} {view : Nat} {last : SignedCommitment P}
  {votes : List (SignedCommitment P)}

theorem lockedOn_registered (registered : automata.Registered) (accumulator : SignedCommitment P)
    (parent : Option P.BlockHash) : (automata.lockedOn accumulator parent).Registered := by
  unfold Registered
  rw [lockedOn_trusted, lockedOn_me]
  exact registered

theorem prepare_signed [P.Dependable] {blockView : Nat} {accumulator : SignedCommitment P}
    {justificationBlockHash : P.BlockHash}
    (checks : automata.Preparable blockView accumulator justificationBlockHash)
    (blockHash : P.BlockHash) (blockParent : Option P.BlockHash) :
    ∃ signed, automata.prepare blockView blockHash (.quorum accumulator) blockParent
        justificationBlockHash = ((automata.lockedOn accumulator blockParent).voted, .ok signed) ∧
      (automata.Registered → automata.Accepts signed) := by
  obtain ⟨signed, made, accepted⟩ := createUsig_signed
    (automata.lockedOn accumulator blockParent) blockHash automata.view
  have isVerified : automata.verifyAccumulator accumulator = .ok true := by
    simp [verifyAccumulator, checks.accumulates, checks.verified]
  have usable : accumulator.getViewUsableFor = automata.view :=
    (View.getSuccessor_eq checks.bounded).trans checks.usable
  refine ⟨signed, ?_, fun registered => ?_⟩
  · rw [← made]
    obtain rfl := checks.names
    simp only [prepare, Justification.getCommitment, usable, checks.inView, ne_eq,
      not_true_eq_false, if_false, isVerified]
    by_cases direct : blockParent = some accumulator.getBlockHash
    · simp [lockedOn, direct, ← checks.inView]
    · simp [lockedOn, direct, ← checks.inView]
  have accepts := accepted (lockedOn_registered registered accumulator blockParent)
  unfold Accepts at accepts ⊢
  rwa [lockedOn_trusted] at accepts

theorem consider_ok {signed : SignedCommitment P} {state : Accumulation P}
    {done : List (SignedCommitment P)} (considered : automata.Considered view last done state)
    (counts : automata.Counts view signed) (fresh : signed.getCreator ∉ done.map getCreator)
    (lower : signed.getPreparedBlockView ≤ last.getPreparedBlockView)
    (agrees : state.isPrepare = true → signed.isPrepare = true →
      state.blockView = signed.getBlockView ∧ state.blockHash = signed.getBlockHash) :
    ∃ next, automata.consider view last state signed = .ok next := by
  have notSeen : ¬ state.seen.contains signed.getCreator = true := by
    rw [IdSet.contains_iff, considered.seen]
    exact fresh
  have verified : automata.verifyUsig signed = .ok true := by
    simp [verifyUsig, counts.usig, counts.verified]
  have still : (state.observe last signed).isPrepare = true →
      signed.isPrepare = true ∧ state.isPrepare = true ∧ state.observe last signed = state := by
    unfold Accumulation.observe
    split
    · next isPrepare => exact fun stays => ⟨isPrepare, stays, rfl⟩
    · intro stays
      cases stays
  refine ⟨{ state.observe last signed with
    seen := (state.observe last signed).seen.insert signed.getCreator
    valid := (state.observe last signed).valid + 1 }, ?_⟩
  simp only [consider, bind_ok, ensure_ok, exists_const]
  refine ⟨by simpa using notSeen, lower, counts.inView.symm, ?_, ?_, true, verified, rfl, rfl⟩
  · intro stays
    obtain ⟨isPrepare, before, same⟩ := still stays
    rw [same]
    exact (agrees before isPrepare).1
  intro stays
  obtain ⟨isPrepare, before, same⟩ := still stays
  rw [same]
  exact (agrees before isPrepare).2

/-- How the phase of the loop comes about: up to the first commitment that prepares none it stays
with the block of `last`. -/
structure Tracked (last : SignedCommitment P) (done : List (SignedCommitment P))
    (state : Accumulation P) : Prop where
  phase : state.isPrepare = true ↔ ∀ signed ∈ done, signed.isPrepare = true
  anchored : state.isPrepare = true → state.blockView = last.getBlockView ∧
    state.blockHash = last.getBlockHash
  leading : ∀ front, front <+: done → (∀ signed ∈ front, signed.isPrepare = true) →
    ∀ signed ∈ front, signed.getBlockView = last.getBlockView ∧
      signed.getBlockHash = last.getBlockHash

theorem tracked_nil (last : SignedCommitment P) :
    Tracked last [] ⟨true, 0, IdSet.empty, last.getBlockView, last.getBlockHash⟩ :=
  ⟨by simp, fun _ => ⟨rfl, rfl⟩, by simp⟩

theorem consider_tracked {signed : SignedCommitment P} {done : List (SignedCommitment P)}
    {state next : Accumulation P} (before : Tracked last done state)
    (run : automata.consider view last state signed = .ok next) :
    Tracked last (done ++ [signed]) next := by
  simp only [consider, bind_ok, ensure_ok, pure_ok, exists_const] at run
  obtain ⟨-, -, -, sameView, sameHash, -, -, -, rfl⟩ := run
  have phase : (state.observe last signed).isPrepare = true ↔
      ∀ other ∈ done ++ [signed], other.isPrepare = true := by
    rw [forall_mem_append, ← before.phase, forall_mem_singleton]
    unfold Accumulation.observe
    split <;> simp_all
  have anchored : (state.observe last signed).isPrepare = true →
      (state.observe last signed).blockView = last.getBlockView ∧
        (state.observe last signed).blockHash = last.getBlockHash := by
    unfold Accumulation.observe
    split
    · exact before.anchored
    · simp
  refine ⟨phase, anchored, fun front isPrefix all => ?_⟩
  rcases prefix_concat_iff.mp isPrefix with rfl | earlier
  · have stays := phase.mpr all
    refine forall_mem_concat (before.leading done prefix_rfl (forall_mem_append.mp all).1) ?_
    rw [← sameView stays, ← sameHash stays]
    exact anchored stays
  · exact before.leading front earlier all

/-- The loop goes on as long as the commitments that come before any that prepares no block are for
the block of `last`. -/
theorem considerAll_runs (counts : ∀ signed ∈ votes, automata.Counts view signed)
    (distinct : (votes.map getCreator).Nodup)
    (highest : ∀ signed ∈ votes, signed.getPreparedBlockView ≤ last.getPreparedBlockView)
    (leading : ∀ signed ∈ votes.takeWhile SignedCommitment.isPrepare,
      signed.getBlockView = last.getBlockView ∧ signed.getBlockHash = last.getBlockHash)
    {rest done : List (SignedCommitment P)} {state : Accumulation P} (split : done ++ rest = votes)
    (considered : automata.Considered view last done state) (tracked : Tracked last done state) :
    ∃ result, automata.considerAll view last state rest = .ok result ∧
      (automata.quorum ≤ result.valid ∨ result.valid = votes.length) := by
  induction rest generalizing done state with
  | nil =>
    refine ⟨state, rfl, .inr ?_⟩
    rw [considered.valid, ← split, append_nil]
  | cons signed rest ih =>
    have member : signed ∈ votes := split ▸ mem_append_right _ mem_cons_self
    have fresh : signed.getCreator ∉ done.map getCreator := by
      rw [← split, map_append, nodup_append] at distinct
      exact fun earlier => distinct.2.2 _ earlier _ mem_cons_self rfl
    have agrees : state.isPrepare = true → signed.isPrepare = true →
        state.blockView = signed.getBlockView ∧ state.blockHash = signed.getBlockHash := by
      intro stays isPrepare
      obtain ⟨sameView, sameHash⟩ := tracked.anchored stays
      have isLeading : signed ∈ votes.takeWhile SignedCommitment.isPrepare := by
        rw [← split, takeWhile_append_of_pos (tracked.phase.mp stays),
          takeWhile_cons_of_pos isPrepare]
        exact mem_append_right _ mem_cons_self
      obtain ⟨itsView, itsHash⟩ := leading signed isLeading
      exact ⟨sameView.trans itsView.symm, sameHash.trans itsHash.symm⟩
    obtain ⟨next, considers⟩ := consider_ok considered (counts signed member) fresh
      (highest signed member) agrees
    simp only [considerAll, considers]
    by_cases enough : automata.quorum ≤ next.valid
    · exact ⟨next, by simp [enough, bind, Except.bind, pure, Except.pure], .inl enough⟩
    obtain ⟨result, run, reached⟩ := ih (by simpa using split)
      (consider_considered considered considers) (consider_tracked tracked considers)
    exact ⟨result, by simpa [enough, bind, Except.bind] using run, reached⟩

/-- Votes for an accumulator of `view`, the one with the latest prepared block first. -/
structure Ballot (automata : EnclaveAutomata P) (view : Nat) (last : SignedCommitment P)
    (votes : List (SignedCommitment P)) : Prop where
  first : votes.head? = some last
  counts : ∀ signed ∈ votes, automata.Counts view signed
  distinct : (votes.map getCreator).Nodup
  highest : ∀ signed ∈ votes, signed.getPreparedBlockView ≤ last.getPreparedBlockView
  agree : last.isPrepare = true → ∀ signed ∈ votes, signed.isPrepare = true →
    last.getBlockView = signed.getBlockView ∧ last.getBlockHash = signed.getBlockHash

theorem Ballot.leading (ballot : automata.Ballot view last votes) :
    ∀ signed ∈ votes.takeWhile SignedCommitment.isPrepare,
      signed.getBlockView = last.getBlockView ∧ signed.getBlockHash = last.getBlockHash := by
  intro signed member
  have isPrepare := mem_takeWhile_imp member
  obtain ⟨tail, rfl⟩ : ∃ tail, votes = last :: tail := by
    cases votes with
    | nil => cases ballot.first
    | cons head tail => exact ⟨tail, by rw [Option.some.inj ballot.first]⟩
  have prepares : last.isPrepare = true := by
    by_contra other
    rw [takeWhile_cons_of_neg other] at member
    cases member
  obtain ⟨sameView, sameHash⟩ :=
    ballot.agree prepares signed ((takeWhile_sublist _).subset member) isPrepare
  exact ⟨sameView.symm, sameHash.symm⟩

structure Collected (automata : EnclaveAutomata P) (votes : List (SignedCommitment P)) : Prop where
  votable : ∀ signed ∈ votes, automata.Votable signed ∧ signed.getView + 1 = automata.view
  distinct : (votes.map getCreator).Nodup
  agree : ∀ left ∈ votes, ∀ right ∈ votes, left.isPrepare = true → right.isPrepare = true →
    left.getBlockHash = right.getBlockHash

theorem le_getLast {votes : List (SignedCommitment P)} {last : SignedCommitment P}
    (sorted : votes.Pairwise fun left right =>
      left.getPreparedBlockView ≤ right.getPreparedBlockView)
        (isLast : votes.getLast? = some last) :
    ∀ signed ∈ votes, signed.getPreparedBlockView ≤ last.getPreparedBlockView := by
  obtain ⟨before, rfl⟩ := List.getLast?_eq_some_iff.mp isLast
  exact forall_mem_concat (fun signed earlier =>
    (pairwise_append.mp sorted).2.2 signed earlier last (mem_singleton_self _)) le_rfl

theorem Collected.ballot [dependable : P.Dependable] (collected : automata.Collected votes)
    (follows : automata.view = view + 1) (sorted : votes.Pairwise fun left right =>
      left.getPreparedBlockView ≤ right.getPreparedBlockView)
    (isLast : votes.getLast? = some last) : automata.Ballot view last votes.reverse := by
  have inView : ∀ signed ∈ votes, signed.getView = view := by
    intro signed member
    have := (collected.votable signed member).2
    omega
  have lastMember : last ∈ votes := mem_of_getLast? isLast
  refine ⟨by rw [List.head?_reverse, isLast], ?_, ?_,
    fun signed member => le_getLast sorted isLast signed (mem_reverse.mp member), ?_⟩
  · intro signed member
    have member := mem_reverse.mp member
    obtain ⟨votable, -⟩ := collected.votable signed member
    exact ⟨votable.usig, inView signed member, dependable.trusts votable.accepted⟩
  · rw [map_reverse, nodup_reverse]
    exact collected.distinct
  intro lastPrepares signed member isPrepare
  have member := mem_reverse.mp member
  refine ⟨?_, collected.agree last lastMember signed member lastPrepares isPrepare⟩
  rw [(collected.votable last lastMember).1.inView lastPrepares,
    (collected.votable signed member).1.inView isPrepare, inView last lastMember,
    inView signed member]

theorem accumulate_signed [P.Dependable] (collected : automata.Collected votes)
    (sorted : votes.Pairwise fun left right =>
      left.getPreparedBlockView ≤ right.getPreparedBlockView)
    (enough : automata.quorum ≤ votes.length) (nonempty : votes ≠ []) :
    ∃ signed, automata.accumulate votes = .ok (automata.signed, .ok signed) ∧
      (automata.Registered → automata.Accepts signed) := by
  obtain ⟨last, isLast⟩ : ∃ last, votes.getLast? = some last := by
    cases found : votes.getLast? with
    | none => exact absurd (List.getLast?_eq_none_iff.mp found) nonempty
    | some last => exact ⟨last, rfl⟩
  have lastMember : last ∈ votes := mem_of_getLast? isLast
  have follows : automata.view = last.getView + 1 := (collected.votable last lastMember).2.symm
  have ballot := collected.ballot follows sorted isLast
  have started := considered_nil automata last.getView last.getBlockView last last.getBlockHash
  obtain ⟨state, considers, reached⟩ :=
    considerAll_runs ballot.counts ballot.distinct ballot.highest
    ballot.leading (nil_append _) started (tracked_nil last)
  obtain ⟨seen, within, someSeen, considered⟩ := considerAll_considered started considers
  have reachedQuorum : automata.quorum ≤ state.valid := by
    rw [length_reverse] at reached
    omega
  have named : state.isPrepare = true → last.getView = state.blockView := by
    intro stays
    obtain ⟨signed, isSeen⟩ := exists_mem_of_ne_nil _ (someSeen (by simpa using nonempty))
    obtain ⟨isPrepare, sameView, -⟩ := considered.prepares stays signed (mem_append_right _ isSeen)
    have member : signed ∈ votes := mem_reverse.mp (within.subset isSeen)
    have inView := (collected.votable signed member).1.inView isPrepare
    have := (collected.votable signed member).2
    omega
  obtain ⟨signed, made, accepted⟩ := createCommitment_signed automata last.getView
    state.blockView state.blockHash .accumulator state.isPrepare
  exact ⟨signed, accumulate_iff.mpr ⟨last.getView, last, state, follows, isLast, considers,
    reachedQuorum, named, made⟩, accepted⟩

end EnclaveAutomata

end Abcperf.Damysus
