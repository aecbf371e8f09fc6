import Abcperf.Damysus.Enclave

/-! What the calls of an enclave return: the votes of `prepare` and `re_sign_last_prepared`, of
which there is one per view, and the accumulators, which stand for a quorum of votes. -/

namespace Abcperf.Damysus

open Lib.Outcome SignedCommitment List

variable {P : Platform}

namespace EnclaveAutomata

def signed (automata : EnclaveAutomata P) : EnclaveAutomata P :=
  { automata with signatures := automata.signatures + 1 }

def voted (automata : EnclaveAutomata P) : EnclaveAutomata P :=
  { automata with signatures := automata.signatures + 1, view := automata.view + 1 }

/-- The automata with the block locked that `accumulator` names, if it is the parent. -/
def lockedOn (automata : EnclaveAutomata P) (accumulator : SignedCommitment P)
    (parent : Option P.BlockHash) : EnclaveAutomata P :=
  if parent = some accumulator.getBlockHash then
    { automata with
      lastPreparedBlockHash := accumulator.getBlockHash
      lastPreparedBlockView := accumulator.getBlockView }
  else automata

@[simp] theorem lockedOn_view (automata : EnclaveAutomata P) (accumulator : SignedCommitment P)
    (parent : Option P.BlockHash) :
    (automata.lockedOn accumulator parent).view = automata.view := by
  unfold lockedOn
  split <;> rfl

@[simp] theorem lockedOn_me (automata : EnclaveAutomata P) (accumulator : SignedCommitment P)
    (parent : Option P.BlockHash) : (automata.lockedOn accumulator parent).me = automata.me := by
  unfold lockedOn
  split <;> rfl

variable {automata next : EnclaveAutomata P} {view blockView : Nat} {blockHash : P.BlockHash}
  {last result : SignedCommitment P} {commitments : List (SignedCommitment P)}
  {request : EnclaveCall P}

theorem createCommitment_ok {commitmentType : CommitmentType} {isPrepare : Bool}
    {signed : SignedCommitment P}
    (run : automata.createCommitment view blockView blockHash commitmentType isPrepare =
      (next, .ok signed)) : next = automata.signed ∧ signed.commitment =
        automata.commitment view blockView blockHash commitmentType isPrepare := by
  simp only [createCommitment, Prod.mk.injEq] at run
  obtain ⟨rfl, made⟩ := run
  refine ⟨rfl, ?_⟩
  cases signature : P.sign automata.trusted automata.signatures
      (automata.commitment view blockView blockHash commitmentType isPrepare).hashValue with
  | error error => simp [signature, Except.map] at made
  | ok value =>
    simp only [signature, Except.map, Except.ok.injEq] at made
    rw [← made]

theorem createUsig_ok {signed : SignedCommitment P}
    (run : automata.createUsig blockHash blockView = (next, .ok signed)) : next = automata.voted ∧
      signed.commitment = automata.commitment automata.view blockView blockHash .usig
        (automata.view = blockView) := by
  have second : (automata.createCommitment automata.view blockView blockHash .usig
      (automata.view = blockView)).2 = .ok signed := congrArg Prod.snd run
  exact ⟨(congrArg Prod.fst run).symm, (createCommitment_ok (Prod.ext rfl second)).2⟩

/-- The checks of `prepare`. -/
structure Preparable (automata : EnclaveAutomata P) (blockView : Nat)
    (accumulator : SignedCommitment P) (justificationBlockHash : P.BlockHash) : Prop where
  bounded : accumulator.getView ≠ View.last
  usable : accumulator.getView + 1 = automata.view
  inView : automata.view = blockView
  names : accumulator.getBlockHash = justificationBlockHash
  accumulates : accumulator.isAccumulator = true
  verified : automata.verify accumulator = .ok true

theorem checkJustification_ok {accumulator : SignedCommitment P}
    (checked : automata.checkJustification (.quorum accumulator) = .ok ())
    (verified : automata.verifyAccumulator accumulator = .ok true) :
    accumulator.getView ≠ View.last := by
  intro last
  simp [checkJustification, verified, last, bind_ok] at checked

theorem checkJustification_last {accumulator : SignedCommitment P}
    (last : accumulator.getView = View.last) (accumulates : accumulator.isAccumulator = true)
    (verified : automata.verify accumulator = .ok true) :
    automata.checkJustification (.quorum accumulator) = .error .overflow := by
  have isVerified : automata.verifyAccumulator accumulator = .ok true := by
    simp [verifyAccumulator, accumulates, verified]
  cases checks : P.overflowChecks with
  | false =>
    simp only [checkJustification, SignedCommitment.checkView, checks, isVerified, last]
    rfl
  | true =>
    simp only [checkJustification, SignedCommitment.checkView, checks, last]
    rfl

theorem checkJustification_bounded {accumulator : SignedCommitment P}
    (bounded : accumulator.getView ≠ View.last) :
    automata.checkJustification (.quorum accumulator) = .ok () := by
  rw [checkJustification, SignedCommitment.checkView_ok bounded]
  cases automata.verifyAccumulator accumulator with
  | error error => rfl
  | ok valid =>
    cases valid with
    | false => rfl
    | true => exact if_neg bounded

theorem prepare_cases (automata : EnclaveAutomata P) (blockView : Nat) (blockHash : P.BlockHash)
    {blockJustification : Justification P} (blockParent : Option P.BlockHash)
    (justificationBlockHash : P.BlockHash)
    (checked : automata.checkJustification blockJustification = .ok ()) :
    (∃ error, automata.prepare blockView blockHash blockJustification blockParent
      justificationBlockHash = (automata, .error error)) ∨
    ∃ accumulator, blockJustification = .quorum accumulator ∧
      automata.Preparable blockView accumulator justificationBlockHash ∧
      automata.prepare blockView blockHash blockJustification blockParent justificationBlockHash =
        (automata.lockedOn accumulator blockParent).createUsig blockHash automata.view := by
  cases blockJustification with
  | genesis => exact .inl ⟨_, rfl⟩
  | quorum accumulator =>
    simp only [prepare, Justification.getCommitment]
    split
    · exact .inl ⟨_, rfl⟩
    rename_i usable
    split
    · exact .inl ⟨_, rfl⟩
    rename_i inView
    split
    · exact .inl ⟨_, rfl⟩
    rename_i names
    cases verified : automata.verifyAccumulator accumulator with
    | error error => exact .inl ⟨_, rfl⟩
    | ok valid =>
      cases valid with
      | false => exact .inl ⟨_, rfl⟩
      | true =>
        refine .inr ⟨accumulator, rfl, ?_, ?_⟩
        · have isAccumulator : accumulator.isAccumulator = true := by
            by_contra other
            simp [verifyAccumulator, other] at verified
          have bounded := checkJustification_ok checked verified
          refine ⟨bounded, ?_, not_not.mp inView, not_not.mp names, isAccumulator, ?_⟩
          · rw [← not_not.mp usable]
            exact (View.getSuccessor_eq bounded).symm
          simpa [verifyAccumulator, isAccumulator] using verified
        have same := not_not.mp names
        subst same
        by_cases direct : blockParent = some accumulator.getBlockHash
        · simp [lockedOn, direct]
        · simp [lockedOn, direct]

theorem prepare_ok {blockJustification : Justification P} {blockParent : Option P.BlockHash}
    {justificationBlockHash : P.BlockHash} {signed : SignedCommitment P}
    (checked : automata.checkJustification blockJustification = .ok ())
    (run : automata.prepare blockView blockHash blockJustification blockParent
      justificationBlockHash = (next, .ok signed)) :
    ∃ accumulator, blockJustification = .quorum accumulator ∧
      automata.Preparable blockView accumulator justificationBlockHash ∧
      next = (automata.lockedOn accumulator blockParent).voted ∧
      signed.commitment = (automata.lockedOn accumulator blockParent).commitment automata.view
        automata.view blockHash .usig true := by
  rcases prepare_cases automata blockView blockHash blockParent justificationBlockHash checked with
    ⟨error, failed⟩ | ⟨accumulator, isQuorum, checks, votes⟩
  · simp [failed] at run
  rw [votes] at run
  obtain ⟨after, made⟩ := createUsig_ok run
  refine ⟨accumulator, isQuorum, checks, after, ?_⟩
  rw [made, lockedOn_view]
  simp

theorem reSignLastPrepared_ok {signed : SignedCommitment P}
    (run : automata.reSignLastPrepared = (next, .ok signed)) : next = automata.voted ∧
      signed.commitment = automata.commitment automata.view automata.lastPreparedBlockView
        automata.lastPreparedBlockHash .usig (automata.view = automata.lastPreparedBlockView) :=
  createUsig_ok run

structure Counts (automata : EnclaveAutomata P) (view : Nat) (signed : SignedCommitment P) :
    Prop where
  usig : signed.isUsig = true
  inView : signed.getView = view
  verified : automata.verify signed = .ok true

/-- The state of the loop of `accumulate` after the commitments in `done`. -/
structure Considered (automata : EnclaveAutomata P) (view : Nat) (last : SignedCommitment P)
    (done : List (SignedCommitment P)) (state : Accumulation P) : Prop where
  counts : ∀ signed ∈ done, automata.Counts view signed
  highest : ∀ signed ∈ done, signed.getPreparedBlockView ≤ last.getPreparedBlockView
  distinct : (done.map SignedCommitment.getCreator).Nodup
  seen : ∀ id, id ∈ state.seen ↔ id ∈ done.map SignedCommitment.getCreator
  valid : state.valid = done.length
  prepares : state.isPrepare = true → ∀ signed ∈ done, signed.isPrepare = true ∧
    signed.getBlockView = state.blockView ∧ signed.getBlockHash = state.blockHash
  falls : state.isPrepare = false → state.blockView = last.getPreparedBlockView ∧
    state.blockHash = last.getPreparedBlockHash

theorem considered_nil (automata : EnclaveAutomata P) (view blockView : Nat)
    (last : SignedCommitment P) (blockHash : P.BlockHash) :
    automata.Considered view last [] ⟨true, 0, IdSet.empty, blockView, blockHash⟩ where
  counts := by simp
  highest := by simp
  distinct := by simp
  seen := by simp
  valid := rfl
  prepares := by simp
  falls := by simp

theorem consider_considered {signed : SignedCommitment P} {done : List (SignedCommitment P)}
    {state next : Accumulation P} (before : automata.Considered view last done state)
    (run : automata.consider view last state signed = .ok next) :
    automata.Considered view last (done ++ [signed]) next := by
  simp only [consider, bind_ok, ensure_ok, pure_ok, exists_const] at run
  obtain ⟨fresh, lower, inView, sameView, sameHash, valid, checked, isValid, rfl⟩ := run
  have usig : signed.isUsig = true := by
    by_contra other
    simp only [verifyUsig, if_neg other, Except.ok.injEq] at checked
    simp [← checked] at isValid
  have verified : automata.verify signed = .ok true := by
    simp only [verifyUsig, if_pos usig] at checked
    rw [checked, isValid]
  have notDone : signed.getCreator ∉ done.map getCreator := by
    rw [← before.seen]
    simpa using fresh
  have counted : automata.Counts view signed := ⟨usig, inView.symm, verified⟩
  have observedSeen : (state.observe last signed).seen = state.seen := by
    unfold Accumulation.observe
    split <;> rfl
  have observedValid : (state.observe last signed).valid = state.valid := by
    unfold Accumulation.observe
    split <;> rfl
  refine ⟨?_, ?_, ?_, ?_, ?_, ?_, ?_⟩
  · exact forall_mem_concat before.counts counted
  · exact forall_mem_concat before.highest lower
  · rw [map_append, nodup_append]
    refine ⟨before.distinct, by simp, ?_⟩
    intro id earlier other new same
    rw [map_singleton, mem_singleton] at new
    exact notDone (new ▸ same ▸ earlier)
  · intro id
    simp only [IdSet.mem_insert, observedSeen, before.seen, map_append, map_singleton,
      mem_append, mem_singleton]
    exact or_comm
  · simp [observedValid, before.valid]
  · intro stillPrepare
    have isPrepare : signed.isPrepare = true := by
      by_contra other
      simp [Accumulation.observe, other] at stillPrepare
    have unchanged : state.observe last signed = state := by simp [Accumulation.observe, isPrepare]
    simp only [unchanged] at stillPrepare sameView sameHash ⊢
    exact forall_mem_concat (before.prepares stillPrepare)
      ⟨isPrepare, (sameView stillPrepare).symm, (sameHash stillPrepare).symm⟩
  intro fallen
  by_cases isPrepare : signed.isPrepare = true
  · have unchanged : state.observe last signed = state := by
      simp [Accumulation.observe, isPrepare]
    simp only [unchanged] at fallen ⊢
    exact before.falls fallen
  · simp [Accumulation.observe, isPrepare]

/-- What each iteration of the loop keeps holds of all that it has looked at. -/
theorem considerAll_keeps (Inv : List (SignedCommitment P) → Accumulation P → Prop)
    (looks : ∀ {done state signed next}, Inv done state →
      automata.consider view last state signed = .ok next → Inv (done ++ [signed]) next)
    {rest done : List (SignedCommitment P)} {state result : Accumulation P}
    (before : Inv done state) (run : automata.considerAll view last state rest = .ok result) :
    ∃ more, more <+: rest ∧ (rest ≠ [] → more ≠ []) ∧ Inv (done ++ more) result := by
  induction rest generalizing done state result with
  | nil =>
    simp only [considerAll, pure_ok] at run
    subst run
    exact ⟨[], nil_prefix, by simp, by simpa using before⟩
  | cons signed rest ih =>
    simp only [considerAll, bind_ok] at run
    obtain ⟨middle, considered, continues⟩ := run
    have after := looks before considered
    split at continues
    · cases pure_ok.mp continues
      exact ⟨[signed], by simp, by simp, after⟩
    obtain ⟨more, isPrefix, -, result⟩ := ih after continues
    refine ⟨signed :: more, ?_, by simp, by simpa using result⟩
    exact cons_prefix_cons.mpr ⟨rfl, isPrefix⟩

theorem considerAll_considered {rest done : List (SignedCommitment P)}
    {state result : Accumulation P} (before : automata.Considered view last done state)
    (run : automata.considerAll view last state rest = .ok result) :
    ∃ more, more <+: rest ∧ (rest ≠ [] → more ≠ []) ∧
      automata.Considered view last (done ++ more) result :=
  considerAll_keeps (automata.Considered view last) consider_considered before run

theorem accumulate_iff : automata.accumulate commitments = .ok (next, .ok result) ↔
    ∃ view last state, automata.view = view + 1 ∧ commitments.getLast? = some last ∧
      automata.considerAll view last ⟨true, 0, IdSet.empty, last.getBlockView, last.getBlockHash⟩
        commitments.reverse = .ok state ∧
      automata.quorum ≤ state.valid ∧ (state.isPrepare = true → view = state.blockView) ∧
      automata.createCommitment view state.blockView state.blockHash .accumulator state.isPrepare =
        (next, .ok result) := by
  constructor
  · intro run
    simp only [accumulate, bind_ok, unwrap_ok] at run
    obtain ⟨view, isPredecessor, run⟩ := run
    have follows : automata.view = view + 1 := by
      cases h : automata.view with
      | zero => simp [h, View.getPredecessor] at isPredecessor
      | succ before =>
        simp only [h, View.getPredecessor, Option.some.injEq] at isPredecessor
        omega
    split at run
    · simp at run
    rename_i last isLast
    split at run
    · simp at run
    rename_i state looped
    split at run
    · simp at run
    rename_i enough
    split at run
    · simp at run
    rename_i agrees
    exact ⟨view, last, state, follows, isLast, looped, not_lt.mp enough,
      fun isPrepare => not_not.mp fun other => agrees ⟨isPrepare, other⟩,
      pure_ok.mp run⟩
  rintro ⟨view, last, state, follows, isLast, looped, enough, agrees, made⟩
  have named : ¬ (state.isPrepare = true ∧ view ≠ state.blockView) := fun misnamed =>
    misnamed.2 (agrees misnamed.1)
  simp only [accumulate, bind_ok, unwrap_ok]
  refine ⟨view, by rw [follows]; rfl, ?_⟩
  simp only [isLast, looped, if_neg (Nat.not_lt.mpr enough), if_neg named, made]
  rfl

/-- An accumulator of `view` stands for a quorum of votes: all for the block it names, or one of
them with the block as its last prepared one and none with a later one. -/
structure Accumulated (automata : EnclaveAutomata P) (view : Nat)
    (considered : List (SignedCommitment P)) (result : SignedCommitment P) : Prop where
  counts : ∀ signed ∈ considered, automata.Counts view signed
  distinct : (considered.map SignedCommitment.getCreator).Nodup
  enough : automata.quorum ≤ considered.length
  names : (result.getBlockView = view ∧ ∀ signed ∈ considered, signed.isPrepare = true ∧
      signed.getBlockView = view ∧ signed.getBlockHash = result.getBlockHash) ∨
    ∃ highest ∈ considered, result.getBlockView = highest.getPreparedBlockView ∧
      result.getBlockHash = highest.getPreparedBlockHash ∧
      ∀ signed ∈ considered, signed.getPreparedBlockView ≤ highest.getPreparedBlockView

theorem accumulate_ok (run : automata.accumulate commitments = .ok (next, .ok result)) :
    ∃ view considered, commitments ≠ [] ∧ automata.view = view + 1 ∧
      considered <+: commitments.reverse ∧
      automata.Accumulated view considered result ∧ next = automata.signed ∧
      result.getCreator = automata.me ∧ result.getView = view ∧ result.isAccumulator = true := by
  obtain ⟨view, last, state, follows, isLast, looped, enough, agrees, signs⟩ :=
    accumulate_iff.mp run
  obtain ⟨considered, isPrefix, started, all⟩ :=
    considerAll_considered (considered_nil automata view _ last _) looped
  rw [nil_append] at all
  obtain ⟨after, made⟩ := createCommitment_ok signs
  have accumulates : result.isAccumulator = true := by
    simp [isAccumulator, made, commitment]
  have blockView : result.getBlockView = state.blockView := by
    simp [getBlockView, accumulates, made, commitment]
  have blockHash : result.getBlockHash = state.blockHash := by
    simp [getBlockHash, accumulates, made, commitment]
  have nonempty : commitments ≠ [] := by
    rintro rfl
    cases isLast
  refine ⟨view, considered, nonempty, follows, isPrefix, ⟨all.counts, all.distinct,
    by have := all.valid; omega, ?_⟩, after, ?_, ?_, accumulates⟩
  · cases isPrepare : state.isPrepare with
    | true =>
      have here := agrees isPrepare
      refine .inl ⟨by rw [blockView, here], ?_⟩
      intro signed member
      obtain ⟨prepares, sameView, sameHash⟩ := all.prepares isPrepare signed member
      exact ⟨prepares, by rw [sameView, here], by rw [sameHash, blockHash]⟩
    | false =>
      obtain ⟨fallsView, fallsHash⟩ := all.falls isPrepare
      refine .inr ⟨last, ?_, by rw [blockView, fallsView], by rw [blockHash, fallsHash],
        all.highest⟩
      obtain ⟨front, rfl⟩ := List.getLast?_eq_some_iff.mp isLast
      obtain ⟨head, tail, rfl⟩ := exists_cons_of_ne_nil (started (by simp))
      have sameHead : head = last := by
        rw [reverse_append, reverse_singleton, singleton_append] at isPrefix
        exact (cons_prefix_cons.mp isPrefix).1
      rw [← sameHead]
      exact mem_cons_self
  · simp [getCreator, made, commitment]
  · simp [getView, made, commitment]

/-- A call that returned a commitment: what it checked, what it signed and what it left behind. -/
inductive Signs (automata : EnclaveAutomata P) :
    EnclaveCall P → EnclaveAutomata P → SignedCommitment P → Prop
  | accumulated {commitments considered : List (SignedCommitment P)} {view : Nat}
      {result : SignedCommitment P} (nonempty : commitments ≠ [])
      (follows : automata.view = view + 1)
      (within : considered <+: commitments.reverse)
      (accumulates : automata.Accumulated view considered result)
      (creator : result.getCreator = automata.me) (inView : result.getView = view)
      (isAccumulator : result.isAccumulator = true) :
      Signs automata (.accumulate commitments) automata.signed result
  | prepared {blockView : Nat} {blockHash justificationBlockHash : P.BlockHash}
      {accumulator result : SignedCommitment P} {parent : Option P.BlockHash}
      (checks : automata.Preparable blockView accumulator justificationBlockHash)
      (made : result.commitment = (automata.lockedOn accumulator parent).commitment automata.view
        automata.view blockHash .usig true) :
      Signs automata (.prepare blockView blockHash (.quorum accumulator) parent
        justificationBlockHash) (automata.lockedOn accumulator parent).voted result
  | reSigned {result : SignedCommitment P}
      (made : result.commitment = automata.commitment automata.view
        automata.lastPreparedBlockView automata.lastPreparedBlockHash .usig
        (automata.view = automata.lastPreparedBlockView)) :
      Signs automata .reSignLastPrepared automata.voted result

theorem perform_signs (run : automata.perform request = .ok (next, .ok result)) :
    automata.Signs request next result := by
  cases request with
  | accumulate commitments =>
    obtain ⟨view, considered, nonempty, follows, within, accumulates, rfl, creator, inView,
      isAccumulator⟩ := accumulate_ok run
    exact .accumulated nonempty follows within accumulates creator inView isAccumulator
  | prepare blockView blockHash blockJustification blockParent justificationBlockHash =>
    simp only [perform, bind_ok, pure_ok] at run
    obtain ⟨_, checked, run⟩ := run
    obtain ⟨accumulator, rfl, checks, rfl, made⟩ := prepare_ok checked run
    exact .prepared checks made
  | reSignLastPrepared =>
    simp only [perform, pure_ok] at run
    obtain ⟨rfl, made⟩ := reSignLastPrepared_ok run
    exact .reSigned made

structure Continues (before after : EnclaveAutomata P) : Prop where
  trusted : after.trusted = before.trusted
  me : after.me = before.me
  quorum : after.quorum = before.quorum
  view : before.view ≤ after.view

theorem Continues.refl (automata : EnclaveAutomata P) : automata.Continues automata :=
  ⟨rfl, rfl, rfl, le_refl _⟩

theorem signed_continues (automata : EnclaveAutomata P) : automata.Continues automata.signed :=
  ⟨rfl, rfl, rfl, le_refl _⟩

theorem voted_continues (automata : EnclaveAutomata P) : automata.Continues automata.voted :=
  ⟨rfl, rfl, rfl, Nat.le_succ _⟩

theorem lockedOn_voted_continues (automata : EnclaveAutomata P) (accumulator : SignedCommitment P)
    (parent : Option P.BlockHash) :
    automata.Continues (automata.lockedOn accumulator parent).voted := by
  unfold lockedOn
  split
  · exact ⟨rfl, rfl, rfl, Nat.le_succ _⟩
  · exact voted_continues automata

/-- What a call can do to the state of the enclave. -/
inductive Performs (automata : EnclaveAutomata P) : EnclaveCall P → EnclaveAutomata P → Prop
  | nothing {request : EnclaveCall P} : Performs automata request automata
  | accumulated {commitments : List (SignedCommitment P)} :
      Performs automata (.accumulate commitments) automata.signed
  | prepared {blockView : Nat} {blockHash justificationBlockHash : P.BlockHash}
      {accumulator : SignedCommitment P} {parent : Option P.BlockHash}
      (checks : automata.Preparable blockView accumulator justificationBlockHash) :
      Performs automata (.prepare blockView blockHash (.quorum accumulator) parent
        justificationBlockHash) (automata.lockedOn accumulator parent).voted
  | reSigned : Performs automata .reSignLastPrepared automata.voted

theorem accumulate_performs {result : EnclaveResult P (SignedCommitment P)}
    (run : automata.accumulate commitments = .ok (next, result)) :
    automata.Performs (.accumulate commitments) next := by
  simp only [accumulate, bind_ok, unwrap_ok] at run
  obtain ⟨view, -, run⟩ := run
  split at run
  · simp only [pair_ok] at run
    exact run.1 ▸ .nothing
  split at run
  · simp only [pair_ok] at run
    exact run.1 ▸ .nothing
  split at run
  · simp only [pair_ok] at run
    exact run.1 ▸ .nothing
  split at run
  · simp only [pair_ok] at run
    exact run.1 ▸ .nothing
  simp only [pure_ok] at run
  have after : next = automata.signed := (congrArg Prod.fst run).symm
  exact after ▸ .accumulated

theorem perform_performs {result : EnclaveResult P (SignedCommitment P)}
    (run : automata.perform request = .ok (next, result)) : automata.Performs request next := by
  cases request with
  | accumulate commitments => exact accumulate_performs run
  | prepare blockView blockHash blockJustification blockParent justificationBlockHash =>
    simp only [perform, bind_ok, pure_ok] at run
    obtain ⟨_, checked, run⟩ := run
    rcases prepare_cases automata blockView blockHash blockParent justificationBlockHash
      checked with ⟨error, failed⟩ | ⟨accumulator, rfl, checks, votes⟩
    · have after : next = automata := by
        rw [failed] at run
        exact (congrArg Prod.fst run).symm
      exact after ▸ .nothing
    have after : next = (automata.lockedOn accumulator blockParent).voted := by
      rw [votes] at run
      exact (congrArg Prod.fst run).symm
    exact after ▸ .prepared checks
  | reSignLastPrepared =>
    simp only [perform, pure_ok] at run
    have after : next = automata.voted := (congrArg Prod.fst run).symm
    exact after ▸ .reSigned

theorem Performs.continues (performs : automata.Performs request next) :
    automata.Continues next := by
  cases performs with
  | nothing => exact Continues.refl automata
  | accumulated => exact signed_continues automata
  | prepared checks => exact lockedOn_voted_continues automata _ _
  | reSigned => exact voted_continues automata

theorem Signs.vote (signs : automata.Signs request next result) (usig : result.isUsig = true) :
    result.getView = automata.view ∧ next.view = automata.view + 1 := by
  cases signs with
  | accumulated nonempty follows within accumulates creator inView isAccumulator =>
    exact absurd usig (result.not_usig isAccumulator)
  | prepared checks made => simp [getView, made, commitment, voted]
  | reSigned made => simp [getView, made, commitment, voted]

theorem Signs.below (signs : automata.Signs request next result) : result.getView < next.view := by
  cases signs with
  | accumulated nonempty follows within accumulates creator inView isAccumulator =>
    change result.getView < automata.view
    omega
  | prepared checks made => simp [getView, made, commitment, voted]
  | reSigned made => simp [getView, made, commitment, voted]

theorem Signs.usig (signs : automata.Signs request next result)
    (votes : ∀ commitments, request ≠ .accumulate commitments) : result.isUsig = true := by
  cases signs with
  | accumulated nonempty follows within accumulates creator inView isAccumulator =>
    exact absurd rfl (votes _)
  | prepared checks made => simp [isUsig, made, commitment]
  | reSigned made => simp [isUsig, made, commitment]

theorem Signs.creator (signs : automata.Signs request next result) :
    result.getCreator = automata.me := by
  cases signs with
  | accumulated nonempty follows within accumulates creator inView isAccumulator => exact creator
  | prepared checks made => simp [getCreator, made, commitment]
  | reSigned made => simp [getCreator, made, commitment]

theorem Signs.accumulation (signs : automata.Signs (.accumulate commitments) next result) :
    commitments ≠ [] ∧ next = automata.signed ∧ result.isAccumulator = true ∧
      ∃ view considered, automata.view = view + 1 ∧ result.getView = view ∧
        considered <+: commitments.reverse ∧ automata.Accumulated view considered result := by
  cases signs with
  | accumulated nonempty follows within accumulates creator inView isAccumulator =>
    exact ⟨nonempty, rfl, isAccumulator, _, _, follows, inView, within, accumulates⟩

theorem Signs.preparation {justificationBlockHash : P.BlockHash} {justification : Justification P}
    {parent : Option P.BlockHash}
      (signs : automata.Signs (.prepare blockView blockHash justification parent
      justificationBlockHash) next result) : ∃ accumulator, justification = .quorum accumulator ∧
      automata.Preparable blockView accumulator justificationBlockHash ∧
      next = (automata.lockedOn accumulator parent).voted ∧
      result.commitment = (automata.lockedOn accumulator parent).commitment automata.view
        automata.view blockHash .usig true := by
  cases signs with
  | prepared checks made => exact ⟨_, rfl, checks, rfl, made⟩

theorem Signs.reSigning (signs : automata.Signs .reSignLastPrepared next result) :
    next = automata.voted ∧ result.commitment = automata.commitment automata.view
      automata.lastPreparedBlockView automata.lastPreparedBlockHash .usig
      (automata.view = automata.lastPreparedBlockView) := by
  cases signs with
  | reSigned made => exact ⟨rfl, made⟩

theorem Signs.accumulator (signs : automata.Signs request next result)
    (accumulates : result.isAccumulator = true) :
    ∃ commitments, request = .accumulate commitments := by
  cases signs with
  | accumulated nonempty follows within accumulates creator inView isAccumulator => exact ⟨_, rfl⟩
  | prepared checks made =>
    simp [isAccumulator, made, commitment] at accumulates
  | reSigned made => simp [isAccumulator, made, commitment] at accumulates

end EnclaveAutomata

namespace Enclave

variable {enclave next : Enclave P} {request : EnclaveCall P}
  {result : EnclaveResult P (SignedCommitment P)}

theorem call_performs (run : enclave.call request = .ok (next, result)) :
    enclave.automata.Performs request next.automata := by
  simp only [call, bind_ok, Prod.exists] at run
  obtain ⟨automata, outcome, performed, run⟩ := run
  cases outcome with
  | error error =>
    simp only [pair_ok] at run
    exact run.1 ▸ EnclaveAutomata.perform_performs performed
  | ok signed =>
    simp only [pair_ok] at run
    exact run.1 ▸ EnclaveAutomata.perform_performs performed

theorem call_cases (run : enclave.call request = .ok (next, result)) :
    enclave.automata.Continues next.automata ∧
    ((next.log = enclave.log ∧ ∃ error, result = .error error) ∨
        ∃ signed, result = .ok signed ∧ next.log = enclave.log ++ [⟨request, signed⟩] ∧
          enclave.automata.Signs request next.automata signed) := by
  have continues := (call_performs run).continues
  simp only [call, bind_ok, Prod.exists] at run
  obtain ⟨automata, outcome, performed, run⟩ := run
  cases outcome with
  | error error =>
    obtain ⟨rfl, rfl⟩ := pair_ok.mp run
    exact ⟨continues, .inl ⟨rfl, error, rfl⟩⟩
  | ok signed =>
    obtain ⟨rfl, rfl⟩ := pair_ok.mp run
    exact ⟨continues, .inr ⟨signed, rfl, rfl, EnclaveAutomata.perform_signs performed⟩⟩

theorem call_ok {signed : SignedCommitment P}
    (run : enclave.call request = .ok (next, .ok signed)) :
    next.log = enclave.log ++ [⟨request, signed⟩] ∧
      enclave.automata.Signs request next.automata signed := by
  obtain ⟨-, ⟨-, error, failed⟩ | ⟨other, same, grown, signs⟩⟩ := call_cases run
  · cases failed
  · cases same
    exact ⟨grown, signs⟩

theorem call_votes {signed : SignedCommitment P}
    (run : enclave.call request = .ok (next, .ok signed))
    (votes : ∀ commitments, request ≠ .accumulate commitments) :
    next.automata.view = enclave.automata.view + 1 ∧
      next.automata.trusted = enclave.automata.trusted ∧
      next.automata.quorum = enclave.automata.quorum := by
  have continues := (call_performs run).continues
  have signs := (call_ok run).2
  exact ⟨(signs.vote (signs.usig votes)).2, continues.trusted, continues.quorum⟩

theorem addPeer_ok {id : Nat} {key : P.PublicKey} (run : enclave.addPeer id key = .ok next) :
    ∃ trusted, next = { enclave with automata := { enclave.automata with trusted } } := by
  simp only [addPeer] at run
  cases added : P.addPeer enclave.automata.trusted id key with
  | error error => simp [added, Except.map] at run
  | ok trusted =>
    simp only [added, Except.map, Except.ok.injEq] at run
    exact ⟨trusted, run.symm⟩

end Enclave

end Abcperf.Damysus
