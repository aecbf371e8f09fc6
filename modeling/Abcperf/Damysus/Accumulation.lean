import Abcperf.Damysus.Robustness

/-! What an accumulator stands for, and when a leader gets one for the commitments it has collected.
The hash of a commitment leaves out which block it is about, so the check of the signature does not
tell whether the commitments are about one block. -/

namespace Abcperf.Damysus

open Lib Lib.Outcome Symbolic SignedCommitment List Option

variable {P : Platform}

namespace EnclaveAutomata

/-- The commitments that `accumulate` looks at: the last quorum many, the last one first. -/
def considered (automata : EnclaveAutomata P) (commitments : List (SignedCommitment P)) :
    List (SignedCommitment P) :=
  commitments.reverse.take (max 1 automata.quorum)

variable {automata next : EnclaveAutomata P} {view : Nat} {last result : SignedCommitment P}
  {commitments votes : List (SignedCommitment P)}

theorem consider_valid {signed : SignedCommitment P} {state after : Accumulation P}
    (run : automata.consider view last state signed = .ok after) :
    after.valid = state.valid + 1 := by
  simp only [consider, bind_ok, ensure_ok, pure_ok, exists_const] at run
  obtain ⟨-, -, -, -, -, -, -, -, rfl⟩ := run
  unfold Accumulation.observe
  split <;> rfl

theorem considerAll_take (rest : List (SignedCommitment P)) : ∀ state : Accumulation P,
    automata.considerAll view last state rest =
      automata.considerAll view last state (rest.take (max 1 (automata.quorum - state.valid))) := by
  induction rest with
  | nil => simp
  | cons signed rest ih =>
    intro state
    obtain ⟨more, isMore⟩ : ∃ more, max 1 (automata.quorum - state.valid) = more + 1 :=
      ⟨max 1 (automata.quorum - state.valid) - 1, by omega⟩
    rw [isMore, take_succ_cons]
    simp only [considerAll]
    cases considers : automata.consider view last state signed with
    | error error => rfl
    | ok after =>
      have counted := consider_valid considers
      simp only [bind, Except.bind]
      split
      · rfl
      rename_i short
      have left : max 1 (automata.quorum - after.valid) = more := by omega
      rw [ih after, left]

theorem head?_considered (automata : EnclaveAutomata P) (commitments : List (SignedCommitment P)) :
    (automata.considered commitments).head? = commitments.getLast? := by
  rw [considered, List.head?_take, if_neg (by omega), List.head?_reverse]

theorem accumulate_considered (automata : EnclaveAutomata P)
    (commitments : List (SignedCommitment P)) : automata.accumulate commitments =
      automata.accumulate (automata.considered commitments).reverse := by
  unfold accumulate
  rw [List.getLast?_reverse, head?_considered, reverse_reverse, considered]
  cases commitments.getLast? with
  | none => rfl
  | some last =>
    simp only
    congr 1
    funext view
    rw [considerAll_take commitments.reverse]
    rfl

theorem considered_ne_nil (nonempty : commitments ≠ []) : automata.considered commitments ≠ [] := by
  intro none
  rcases take_eq_nil_iff.mp none with zero | empty
  · omega
  · exact nonempty (reverse_eq_nil_iff.mp empty)

/-- A quorum is found only after a look at all of them. -/
theorem considerAll_whole {state : Accumulation P} (nonempty : commitments ≠ [])
    (looped : automata.considerAll view last ⟨true, 0, IdSet.empty, last.getBlockView,
      last.getBlockHash⟩
      (automata.considered commitments) = .ok state) (enough : automata.quorum ≤ state.valid) :
    automata.Considered view last (automata.considered commitments) state ∧
      Tracked last (automata.considered commitments) state := by
  obtain ⟨more, isPrefix, started, all, tracked⟩ := considerAll_keeps
    (fun done state => automata.Considered view last done state ∧ Tracked last done state)
    (fun before considers => ⟨consider_considered before.1 considers,
      consider_tracked before.2 considers⟩)
    ⟨considered_nil automata view _ last _, tracked_nil last⟩ looped
  rw [nil_append] at all tracked
  have whole : more = automata.considered commitments := by
    refine isPrefix.eq_of_length_le ?_
    have := length_pos_iff.mpr (started (considered_ne_nil nonempty))
    have := length_take_le (max 1 automata.quorum) commitments.reverse
    have := all.valid
    unfold considered
    omega
  exact whole ▸ ⟨all, tracked⟩

/-- A call that succeeds has looked at all of the last commitments, and at no other. -/
theorem accumulate_looks (run : automata.accumulate commitments = .ok (next, .ok result)) :
    ∃ view last state, automata.view = view + 1 ∧
      (automata.considered commitments).head? = some last ∧
      automata.Considered view last (automata.considered commitments) state ∧
      Tracked last (automata.considered commitments) state ∧ automata.quorum ≤ state.valid ∧
      (state.isPrepare = true → view = state.blockView) ∧
      result.commitment = automata.commitment view state.blockView state.blockHash .accumulator
        state.isPrepare := by
  have nonempty : commitments ≠ [] := by
    rintro rfl
    obtain ⟨_, _, _, _, none, _⟩ := accumulate_iff.mp run
    cases none
  rw [accumulate_considered] at run
  obtain ⟨view, last, state, follows, isLast, looped, enough, agrees, signs⟩ :=
    accumulate_iff.mp run
  rw [List.getLast?_reverse] at isLast
  rw [reverse_reverse] at looped
  obtain ⟨all, tracked⟩ := considerAll_whole nonempty looped enough
  exact ⟨view, last, state, follows, isLast, all, tracked, enough, agrees,
    (createCommitment_ok signs).2⟩

/-- What an accumulator of this enclave says about the commitments it was made from. -/
structure Stands (automata : EnclaveAutomata P) (commitments : List (SignedCommitment P))
    (result : SignedCommitment P) : Prop where
  follows : automata.view = result.getView + 1
  enough : automata.quorum ≤ (automata.considered commitments).length
  counts : ∀ signed ∈ automata.considered commitments, automata.Counts result.getView signed
  distinct : ((automata.considered commitments).map SignedCommitment.getCreator).Nodup
  common : (∀ signed ∈ automata.considered commitments, signed.isPrepare = true) →
    result.getBlockView = result.getView ∧
      ∀ signed ∈ automata.considered commitments, signed.getBlockView = result.getView ∧
        signed.getBlockHash = result.getBlockHash
  highest : (∃ signed ∈ automata.considered commitments, signed.isPrepare = false) →
    ∃ signed ∈ automata.considered commitments,
      result.getBlockView = signed.getPreparedBlockView ∧
      result.getBlockHash = signed.getPreparedBlockHash ∧
      ∀ other ∈ automata.considered commitments,
        other.getPreparedBlockView ≤ signed.getPreparedBlockView

theorem accumulate_stands (run : automata.accumulate commitments = .ok (next, .ok result)) :
    automata.Stands commitments result := by
  obtain ⟨view, last, state, follows, isLast, all, tracked, enough, agrees, made⟩ :=
    accumulate_looks run
  have accumulates : result.isAccumulator = true := by
    simp [isAccumulator, made, commitment]
  have inView : result.getView = view := by simp [getView, made, commitment]
  have blockView : result.getBlockView = state.blockView := by
    simp [getBlockView, accumulates, made, commitment]
  have blockHash : result.getBlockHash = state.blockHash := by
    simp [getBlockHash, accumulates, made, commitment]
  subst inView
  refine ⟨follows, all.valid ▸ enough, all.counts, all.distinct, fun prepares => ?_, ?_⟩
  · have stays := tracked.phase.mpr prepares
    rw [blockView, blockHash, ← agrees stays]
    refine ⟨rfl, fun signed member => ?_⟩
    obtain ⟨-, sameView, sameHash⟩ := all.prepares stays signed member
    exact ⟨sameView.trans (agrees stays).symm, sameHash⟩
  rintro ⟨other, member, prepares⟩
  have fallen : state.isPrepare = false := by
    by_contra stays
    have := tracked.phase.mp (Bool.eq_true_of_not_eq_false stays) other member
    rw [prepares] at this
    cases this
  obtain ⟨fallsView, fallsHash⟩ := all.falls fallen
  exact ⟨last, mem_of_head? isLast, blockView.trans fallsView,
    blockHash.trans fallsHash, all.highest⟩

/-- The commitments up to the first one that prepares no block are about one block, and it is of the
view itself if all of them are. -/
def Concordant (view : Nat) (votes : List (SignedCommitment P)) : Prop :=
  (∀ left ∈ votes.takeWhile SignedCommitment.isPrepare,
    ∀ right ∈ votes.takeWhile SignedCommitment.isPrepare,
      left.getBlockView = right.getBlockView ∧ left.getBlockHash = right.getBlockHash) ∧
  ((∀ vote ∈ votes, vote.isPrepare = true) → ∀ vote ∈ votes, vote.getBlockView = view)

theorem accumulate_iff_concordant [P.Dependable] (follows : automata.view = view + 1)
    (counts : ∀ vote ∈ commitments, automata.Counts view vote)
    (distinct : (commitments.map getCreator).Nodup) (sorted : commitments.Pairwise fun left right =>
      left.getPreparedBlockView ≤ right.getPreparedBlockView)
    (enough : automata.quorum ≤ commitments.length) (nonempty : commitments ≠ []) :
    (∃ next result, automata.accumulate commitments = .ok (next, .ok result)) ↔
      Concordant view (automata.considered commitments) := by
  constructor
  · rintro ⟨next, result, run⟩
    obtain ⟨other, last, state, sameView, -, all, tracked, -, agrees, -⟩ := accumulate_looks run
    obtain rfl : other = view := by omega
    have leading := (tracked.leading _ <| takeWhile_prefix _) fun _ => mem_takeWhile_imp
    refine ⟨fun left isLeft right isRight => ?_, fun prepares vote member => ?_⟩
    · obtain ⟨leftView, leftHash⟩ := leading left isLeft
      obtain ⟨rightView, rightHash⟩ := leading right isRight
      exact ⟨leftView.trans rightView.symm, leftHash.trans rightHash.symm⟩
    · have stays := tracked.phase.mpr prepares
      exact (all.prepares stays vote member).2.1.trans (agrees stays).symm
  rintro ⟨agree, here⟩
  have within : ∀ vote ∈ automata.considered commitments, vote ∈ commitments := fun vote member =>
    mem_reverse.mp (mem_of_mem_take member)
  obtain ⟨last, tail, isCons⟩ := exists_cons_of_ne_nil (considered_ne_nil nonempty)
  have isLast : commitments.getLast? = some last := by
    rw [← head?_considered automata, isCons]
    rfl
  have leading : ∀ vote ∈ (automata.considered commitments).takeWhile isPrepare,
      vote.getBlockView = last.getBlockView ∧ vote.getBlockHash = last.getBlockHash := by
    intro vote member
    refine agree vote member last ?_
    rw [isCons] at member ⊢
    cases prepares : last.isPrepare with
    | false => simp [prepares] at member
    | true => simp [prepares]
  have distinctSeen : ((automata.considered commitments).map getCreator).Nodup := by
    have sublist := (take_sublist (max 1 automata.quorum) commitments.reverse).map
      getCreator
    rw [map_reverse] at sublist
    exact (nodup_reverse.mpr distinct).sublist sublist
  obtain ⟨state, looped, reached⟩ := considerAll_runs
    (fun vote member => counts vote (within vote member)) distinctSeen
    (fun vote member => le_getLast sorted isLast vote (within vote member)) leading
    (nil_append _) (considered_nil automata view _ last _) (tracked_nil last)
  have enoughSeen : automata.quorum ≤ state.valid := by
    have : (automata.considered commitments).length =
        min (max 1 automata.quorum) commitments.length := by
      rw [considered, length_take, length_reverse]
    omega
  obtain ⟨all, tracked⟩ := considerAll_whole nonempty looped enoughSeen
  obtain ⟨signed, made, -⟩ := createCommitment_signed automata view
    state.blockView state.blockHash .accumulator state.isPrepare
  refine ⟨automata.signed, signed, ?_⟩
  rw [accumulate_considered]
  refine accumulate_iff.mpr ⟨view, last, state, follows, ?_, ?_, enoughSeen, ?_, made⟩
  · rw [List.getLast?_reverse, head?_considered, isLast]
  · rw [reverse_reverse]
    exact looped
  intro stays
  have first : last ∈ automata.considered commitments := isCons ▸ mem_cons_self
  rw [← here (tracked.phase.mp stays) last first]
  exact (all.prepares stays last first).2.1

end EnclaveAutomata

namespace Replica

def Checked (replica : Replica P) (vote : SignedCommitment P) : Prop :=
  vote.isUsig = true ∧ replica.enclave.automata.Accepts vote

/-- What holds of the collected votes whenever `create_block` may be called. -/
structure Gathers (replica : Replica P) : Prop where
  positive : 0 < replica.quorum
  quorum : replica.enclave.automata.quorum = replica.quorum
  synced : replica.enclave.automata.view = replica.view
  kept : ∀ vote ∈ replica.storedCommitments, replica.Checked vote
  collected : ∀ vote ∈ replica.commitments, replica.Checked vote ∧ vote.getView + 1 = replica.view
  distinct : (replica.commitments.map SignedCommitment.getCreator).Nodup
  senders : ∀ vote ∈ replica.commitments, vote.getCreator ∈ replica.commitmentSenders

structure Departs (replica : Replica P) : Prop where
  positive : 0 < replica.quorum
  quorum : replica.enclave.automata.quorum = replica.quorum
  ahead : replica.enclave.automata.view = replica.view + 1
  kept : ∀ vote ∈ replica.storedCommitments, replica.Checked vote

variable {replica next : Replica P} {enclave : Enclave P}

theorem Gathers.departs (gathers : replica.Gathers) {request : EnclaveCall P}
    {vote : SignedCommitment P} (called : replica.enclave.call request = .ok (enclave, .ok vote))
    (votes : ∀ commitments, request ≠ .accumulate commitments) :
    ({ replica with enclave } : Replica P).Departs := by
  obtain ⟨view, trusted, quorum⟩ := Enclave.call_votes called votes
  refine ⟨gathers.positive, quorum.trans gathers.quorum,
    view.trans (congrArg (· + 1) gathers.synced), ?_⟩
  intro other member
  obtain ⟨usig, accepted⟩ := gathers.kept other member
  refine ⟨usig, ?_⟩
  unfold EnclaveAutomata.Accepts at accepted ⊢
  rw [trusted]
  exact accepted

theorem Gathers.sorted (gathers : replica.Gathers) {commitments : List (SignedCommitment P)}
    (perm : commitments.Perm replica.commitments)
    (quorum : enclave.automata.quorum = replica.enclave.automata.quorum)
    (view : enclave.automata.view = replica.enclave.automata.view)
    (accepts : ∀ vote, replica.enclave.automata.Accepts vote → enclave.automata.Accepts vote) :
    ({ replica with enclave, commitments } : Replica P).Gathers where
  positive := gathers.positive
  quorum := quorum.trans gathers.quorum
  synced := view.trans gathers.synced
  kept := fun vote member => (gathers.kept vote member).imp_right (accepts vote)
  collected := fun vote member =>
    (gathers.collected vote (perm.mem_iff.mp member)).imp_left (And.imp_right (accepts vote))
  distinct := (perm.map _).nodup_iff.mpr gathers.distinct
  senders := fun vote member => gathers.senders vote (perm.mem_iff.mp member)

theorem gathers_steps (env : Env P) :
    StepRule env Gathers (fun replica _ => Gathers replica) (fun replica _ => Departs replica)
      Departs Checked (fun _ => True) where
  request := by
    intro replica block view hash gathers
    unfold requestBlock
    split
    · exact gathers
    · exact { gathers with }
  late := by
    intro replica next block accumulator gathers _ _ run
    obtain ⟨blockstore, -, rfl⟩ := insertBlock_ok run
    exact { gathers with }
  vote := by
    intro replica next block accumulator prepare gathers _ _ run
    obtain ⟨enclave, rfl, called⟩ := prepareBlock_ok run
    exact { gathers.departs called (by simp) with }
  execute := by
    intro replica next block accumulator departs _ run
    cases executeChain_executed run with
    | intro alike stored executedTransactions => exact { departs with }
  store := by
    intro replica next block departs run
    obtain ⟨blockstore, -, rfl⟩ := insertBlock_ok run
    exact { departs with }
  enter := by
    intro replica next timeout departs run
    obtain ⟨viewTimeout, lastRoundFinishedAt, rfl⟩ := enterNextView_ok run
    exact ⟨departs.positive, departs.quorum, departs.ahead, departs.kept, by simp,
      nodup_nil, by simp⟩
  popBlock := fun gathers _ _ => { gathers with }
  popCommitment := by
    intro replica commitment rest gathers isHead
    refine ⟨{ gathers with kept := fun vote member => ?_ }, ?_⟩
    · exact gathers.kept vote (isHead ▸ mem_cons_of_mem _ member)
    · exact gathers.kept commitment (isHead ▸ mem_cons_self)
  collect := by
    intro replica commitment gathers checked usable _ fresh
    have new : ∀ vote ∈ replica.commitments, vote.getCreator ≠ commitment.getCreator := by
      intro vote isVote same
      have sent := (IdSet.contains_iff _ _).mpr (same ▸ gathers.senders vote isVote)
      rw [fresh] at sent
      cases sent
    refine { gathers with collected := ?_, distinct := ?_, senders := ?_ }
    · exact forall_mem_append.mpr ⟨gathers.collected, by simpa using ⟨checked, usable⟩⟩
    · rw [collectCommitment, map_append, nodup_append]
      exact ⟨gathers.distinct, by simp, by simpa using new⟩
    simp only [collectCommitment, mem_append, mem_singleton, IdSet.mem_insert]
    rintro vote (earlier | rfl)
    · exact .inr (gathers.senders vote earlier)
    · exact .inl rfl
  await := fun gathers _ => { gathers with }
  propose := by
    intro replica next accumulator block gathers accumulated _
    obtain ⟨enclave, rfl, called⟩ := accumulate_ok accumulated
    have continues := (Enclave.call_performs called).continues
    obtain ⟨-, after, -⟩ := (Enclave.call_ok called).2.accumulation
    have sorted := gathers.sorted (env.sorts replica.commitments).1 continues.quorum
      (by rw [after]; rfl) fun vote accepted => by
        unfold EnclaveAutomata.Accepts at accepted ⊢
        rw [continues.trusted]
        exact accepted
    exact { sorted with }
  announce := fun gathers _ _ => { gathers with }
  reSign := fun gathers _ called => { gathers.departs called (by simp) with }

theorem gathers_handlers (env : Env P) [dependable : P.Dependable] :
    HandlerRule env Gathers (fun replica _ => Gathers replica) (fun replica _ => Departs replica)
      Departs Checked (fun _ _ => True) (fun _ => True) where
  steps := gathers_steps env
  keepCommitment := by
    intro replica commitment gathers checked
    refine { gathers with kept := fun vote member => ?_ }
    rcases (Heaps.mem_insert _ _ _ _).mp member with rfl | earlier
    · exact checked
    · exact gathers.kept vote earlier
  meet := by
    intro replica sender key enclave gathers added
    have addedKey := addPeer_key added
    obtain ⟨trusted, rfl⟩ := Enclave.addPeer_ok added
    have met : ({ replica with enclave := { replica.enclave with
        automata := { replica.enclave.automata with trusted } } } : Replica P).Gathers :=
      gathers.sorted (List.Perm.refl _) rfl rfl fun _ => dependable.remembers addedKey
    exact ⟨{ met with }, fun _ => trivial⟩
  ready := fun gathers => { gathers with }
  queue := fun gathers => { gathers with }
  greet := fun gathers => { gathers with }
  fetchedLater := fun _ _ => trivial
  inHand := fun gathers _ => gathers
  keepBlock := fun gathers _ _ _ => { gathers with }
  handOn := by
    intro replica block receiver gathers _
    exact { gathers with }
  book := fun gathers => { gathers with }

theorem gathers_reflects (env : Env P) [P.Dependable] :
    Reflector.Rule (machine env) (fun _ : Output P => Gathers) Grows (fun _ _ => True) := by
  refine (gathers_handlers env).reflects ?_ fun gathers => { gathers with }
  rintro replica gathers ⟨sender, message⟩
  cases message with
  | commitment commitment => exact fun accepted usig => ⟨usig, accepted⟩
  | newBlock | requestedBlock => exact fun _ => trivial
  | handshake | blockRequest => trivial

theorem Gathers.accumulate_iff (gathers : replica.Gathers) [dependable : P.Dependable] (env : Env P)
    (enough : replica.quorum ≤ replica.commitments.length) :
    (∃ next result, replica.enclave.automata.accumulate (env.sort replica.commitments) =
      .ok (next, .ok result)) ↔ EnclaveAutomata.Concordant (replica.view - 1)
      (replica.enclave.automata.considered (env.sort replica.commitments)) := by
  obtain ⟨perm, sorted⟩ := env.sorts replica.commitments
  have many : 0 < (env.sort replica.commitments).length :=
    perm.length_eq ▸ gathers.positive.trans_le enough
  have collected : ∀ vote ∈ env.sort replica.commitments,
      replica.Checked vote ∧ vote.getView + 1 = replica.view := fun vote member =>
    gathers.collected vote (perm.mem_iff.mp member)
  obtain ⟨first, isFirst⟩ := exists_mem_of_length_pos many
  have started := (collected first isFirst).2
  refine EnclaveAutomata.accumulate_iff_concordant (by rw [gathers.synced]; omega)
    (fun vote member => ?_) ((perm.map _).nodup_iff.mpr gathers.distinct) sorted
    (by rw [gathers.quorum, perm.length_eq]; exact enough) (ne_nil_of_length_pos many)
  obtain ⟨⟨usig, accepted⟩, inView⟩ := collected vote member
  exact ⟨usig, by omega, dependable.trusts accepted⟩

end Replica

theorem run_gathers [P.Dependable] {setup : Setup P} {allowed : World P → Event P → Prop}
    {world : World P} (run : Run setup allowed world) :
    ∀ id ∈ setup.correct, (world.replicas id).Gathers := by
  refine run.correct_holds (fun config => ?_) fun {world event next output} _ gathers handled => ?_
  · exact ⟨Nat.succ_pos _, rfl, rfl, forall_mem_nil _, forall_mem_nil _, nodup_nil,
      forall_mem_nil _⟩
  · exact Event.handle_holds (fun env => (Replica.gathers_handlers env).toVoteRule)
      (fun env => Replica.gathers_reflects env) gathers (fun _ _ _ _ _ => trivial) handled

namespace Symbolic

instance (view : Nat) (votes : List (SignedCommitment P)) :
    Decidable (EnclaveAutomata.Concordant view votes) :=
  inferInstanceAs (Decidable (_ ∧ (_ → _)))

def patientConfig (n id : Nat) : Config platform := { sizedConfig n id with blockTimeout := 1000 }

def patientDuo : Setup platform := { duo with
  config := patientConfig 3
  named := fun _ _ => ⟨rfl, rfl⟩ }

def patientStart : World platform :=
  { start 3 with replicas := fun id => .initial (patientConfig 3 id) }

theorem patient_initial : patientStart.Initial patientDuo :=
  ⟨fun _ _ => ⟨rfl, rfl⟩, fun _ => rfl⟩

/-- The vote of host 2 reaches replica 0. -/
def gathered (vote : SignedCommitment platform) : List (Move platform) :=
  voting ++ [.inject 2 0 ⟨2, .commitment vote⟩]

end Symbolic

end Abcperf.Damysus
