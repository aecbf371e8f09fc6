import Abcperf.Minbft.MessageLogs

/-! When a MinBFT replica accepts a `Prepare`: once more than `t` replicas have sent a `Prepare`
with its counter or a `Commit` to one and all that were proposed before are accepted. -/

namespace Abcperf.Minbft.CollectorCommits

open Lib Lib.Outcome List

variable {C : Carriers} {t : Nat} {config : Config} {arrived : List (ViewPeerMessage C)}
  {accepted : List (Prepare C)} {collector : CollectorCommits C}

/-- The messages that a replica collects in one view, and what it accepts. It ignores messages about
what it has accepted. -/
inductive Collects (config : Config) :
    List (ViewPeerMessage C) → CollectorCommits C → List (Prepare C) → Prop
  | new : Collects config [] .new []
  | collect {arrived : List (ViewPeerMessage C)} {collector next : CollectorCommits C}
      {accepted acceptable : List (Prepare C)} {message : ViewPeerMessage C}
      (before : Collects config arrived collector accepted)
      (above : ∀ prepare ∈ accepted, prepare.counter < message.proposal.counter)
      (run : collector.collect message config = .ok (next, acceptable)) :
      Collects config (arrived ++ [message]) next (accepted ++ acceptable)

def Supports (arrived : List (ViewPeerMessage C)) (counter origin : Nat) : Prop :=
  ∃ message ∈ arrived, message.proposal.counter = counter ∧ message.origin = origin

/-- More than `t` replicas have sent a `Prepare` with this counter or a `Commit` to one. -/
def Supported (t : Nat) (arrived : List (ViewPeerMessage C)) (counter : Nat) : Prop :=
  ∃ origins : Finset Nat, t < origins.card ∧ ∀ origin ∈ origins, Supports arrived counter origin

/-- The collector counts the replicas that support each `Prepare` it still holds. -/
structure Backed (t : Nat) (arrived : List (ViewPeerMessage C)) (accepted : List (Prepare C))
    (collector : CollectorCommits C) : Prop where
  ascending : accepted.Pairwise (·.counter < ·.counter)
  supported : ∀ prepare ∈ accepted, (∃ message ∈ arrived, message.proposal = prepare) ∧
    Supported t arrived prepare.counter
  pending : ∀ counter prepare, collector.prepare.get counter = some prepare →
    prepare.counter = counter ∧ (∃ message ∈ arrived, message.proposal = prepare) ∧
      (∀ earlier ∈ accepted, earlier.counter < counter) ∧
      ∃ origins, collector.recvCommits.get counter = some origins ∧
        ∀ origin, origin ∈ origins ↔ Supports arrived counter origin
  paired : ∀ counter, collector.prepare.get counter = none →
    collector.recvCommits.get counter = none
  kept : ∀ message ∈ arrived, (∃ prepare ∈ accepted, prepare.counter = message.proposal.counter) ∨
    collector.prepare.get message.proposal.counter ≠ none

/-- The `Prepare`s wait in the order of their counters. -/
theorem first_lowest {counter other : Nat} {prepare value : Prepare C}
    {rest : List (Nat × Prepare C)}
    (isFirst : collector.prepare.entries = (counter, prepare) :: rest)
    (isOther : collector.prepare.get other = some value) : other = counter ∨ counter < other := by
  have increasing := collector.prepare.increasing
  rw [isFirst, pairwise_cons] at increasing
  rcases mem_cons.mp (isFirst ▸ IdMap.mem_of_get isOther) with same | later
  · exact .inl (congrArg Prod.fst same)
  · exact .inr (increasing.1 _ later)

theorem Backed.accept (backed : Backed t arrived accepted collector) {counter : Nat}
    {prepare : Prepare C} {rest : List (Nat × Prepare C)}
    (isFirst : collector.prepare.entries = (counter, prepare) :: rest) {origins : IdSet}
    (isOrigins : collector.recvCommits.get counter = some origins) (enough : t < origins.len) :
    Backed t arrived (accepted ++ [prepare])
      ⟨collector.recvCommits.remove counter, collector.prepare.remove counter⟩ := by
  obtain ⟨ascending, supported, pending, paired, kept⟩ := backed
  obtain ⟨rfl, isProposal, above, _, sameOrigins, supports⟩ :=
    pending counter prepare (IdMap.get_of_mem (isFirst ▸ mem_cons_self))
  cases isOrigins.symm.trans sameOrigins
  refine ⟨?_, ?_, fun other value isOther => ?_, fun other => ?_, fun message member => ?_⟩
  · exact pairwise_append.mpr ⟨ascending, pairwise_singleton _ _, by simpa using above⟩
  · refine forall_mem_concat supported ⟨isProposal, origins.toFinset, ?_, fun origin member => ?_⟩
    · rwa [IdSet.card_toFinset]
    · exact (supports origin).mp ((IdSet.mem_toFinset _ _).mp member)
  · rw [IdMap.get_remove] at isOther ⊢
    split at isOther
    · cases isOther
    next different =>
    obtain ⟨isCounter, isProposal, earlier, support⟩ := pending other value isOther
    have lower := (first_lowest isFirst isOther).resolve_left different
    exact ⟨isCounter, isProposal,
      forall_mem_concat earlier lower, by simpa [different] using support⟩
  · have := paired other
    simp only [IdMap.get_remove]
    grind
  · have := kept message member
    rw [IdMap.get_remove]
    grind

theorem takeAcceptable_ok (fuel : Nat) (enough : collector.prepare.len ≤ fuel)
    (backed : Backed t arrived accepted collector) :
    ∃ next acceptable, takeAcceptable t fuel collector = .ok (next, acceptable) ∧
      Backed t arrived (accepted ++ acceptable) next ∧
      ∀ counter prepare, next.prepare.entries.head? = some (counter, prepare) →
        ¬ Supported t arrived counter := by
  induction fuel generalizing collector accepted with
  | zero =>
    refine ⟨collector, [], rfl, by simpa using backed, fun counter prepare isHead => ?_⟩
    rw [length_eq_zero_iff.mp (Nat.le_zero.mp enough)] at isHead
    cases isHead
  | succ fuel ih =>
    unfold takeAcceptable
    split
    · next isEmpty => exact ⟨collector, [], rfl, by simpa using backed, by simp [isEmpty]⟩
    next counter prepare rest isFirst =>
    have found := IdMap.get_of_mem (isFirst ▸ mem_cons_self)
    obtain ⟨-, -, -, origins, isOrigins, supports⟩ := backed.pending counter prepare found
    simp only [isOrigins, unwrap]
    by_cases few : origins.len ≤ t
    · refine ⟨collector, [], by simp [bind, Except.bind, few], by simpa using backed, ?_⟩
      rintro _ _ isHead ⟨supporters, many, support⟩
      rw [isFirst] at isHead
      cases isHead
      have subset : supporters ⊆ origins.toFinset := fun origin member =>
        (IdSet.mem_toFinset _ _).mpr ((supports origin).mpr (support origin member))
      have := Finset.card_le_card subset
      rw [IdSet.card_toFinset] at this
      omega
    have fewer : (collector.prepare.remove counter).len ≤ fuel := by
      have kept := congrArg length (collector.prepare.keys_remove counter)
      rw [length_erase_of_mem (IdMap.mem_keys.mpr ⟨_, found⟩)] at kept
      simp only [IdMap.keys, length_map] at kept
      unfold IdMap.len at enough ⊢
      omega
    obtain ⟨next, acceptable, run, after, blocked⟩ :=
      @ih _ ⟨_, collector.prepare.remove counter⟩ fewer
        (backed.accept isFirst isOrigins (not_le.mp few))
    refine ⟨next, prepare :: acceptable, ?_, by simpa using after, blocked⟩
    simp [bind, Except.bind, few, run, pure, Except.pure]

theorem Backed.collect (backed : Backed t arrived accepted collector) {message : ViewPeerMessage C}
    (above : ∀ prepare ∈ accepted, prepare.counter < message.proposal.counter) :
    Backed t (arrived ++ [message]) accepted
      ⟨collector.recvCommits.insert message.proposal.counter
        (((collector.recvCommits.get message.proposal.counter).getD .empty).insert message.origin),
      collector.prepare.insert message.proposal.counter message.proposal⟩ := by
  obtain ⟨ascending, supported, pending, paired, kept⟩ := backed
  have more (counter origin : Nat) : Supports (arrived ++ [message]) counter origin ↔
      Supports arrived counter origin ∨ message.proposal.counter = counter ∧
      message.origin = origin := by
    simp [Supports, or_and_right, exists_or]
  have recorded (origin : Nat) : origin ∈ (collector.recvCommits.get
      message.proposal.counter).getD .empty ↔ Supports arrived message.proposal.counter origin := by
    cases isPending : collector.prepare.get message.proposal.counter with
    | some prepare =>
      obtain ⟨-, -, -, origins, isOrigins, supports⟩ := pending _ prepare isPending
      rw [isOrigins, Option.getD_some, supports]
    | none =>
      rw [paired _ isPending]
      refine iff_of_false (IdSet.not_mem_empty origin) ?_
      rintro ⟨earlier, member, isCounter, -⟩
      rcases kept earlier member with ⟨prepare, isAccepted, same⟩ | known
      · exact absurd (above prepare isAccepted) (by omega)
      · exact known (isCounter ▸ isPending)
  refine ⟨ascending, fun prepare member => ?_, fun counter prepare => ?_, ?_, ?_⟩
  · obtain ⟨⟨proposal, isProposal, rfl⟩, origins, many, support⟩ := supported prepare member
    exact ⟨⟨proposal, mem_append_left _ isProposal, rfl⟩, origins, many, fun origin member =>
      (more _ _).mpr (.inl (support origin member))⟩
  · simp only [IdMap.get_insert, more]
    split
    · next same =>
      rintro ⟨⟩
      refine ⟨same.symm, ⟨message, by simp⟩, same ▸ above, _, rfl, fun origin => ?_⟩
      rw [IdSet.mem_insert, recorded, same]
      grind
    · intro isPending
      obtain ⟨isCounter, ⟨proposal, isProposal, rfl⟩, earlier, origins, isOrigins, supports⟩ :=
        pending counter prepare isPending
      refine ⟨isCounter, ⟨proposal, mem_append_left _ isProposal, rfl⟩, earlier, origins, isOrigins,
        fun origin => ?_⟩
      rw [supports]
      grind
  · simp only [IdMap.get_insert]
    grind
  · simp only [IdMap.get_insert, mem_append, mem_singleton]
    grind

theorem Collects.backed (run : Collects config arrived collector accepted) :
    Backed config.t arrived accepted collector ∧
      ∀ counter prepare, collector.prepare.entries.head? = some (counter, prepare) →
        ¬ Supported config.t arrived counter := by
  induction run with
  | new => exact ⟨⟨.nil, nofun, nofun, fun _ _ => rfl, nofun⟩, nofun⟩
  | collect before above run ih =>
    obtain ⟨next, acceptable, isNext, after⟩ := takeAcceptable_ok _ le_rfl (ih.1.collect above)
    cases isNext.symm.trans run
    exact after

/-- A replica accepts `Prepare`s in the order of their counters and each at most once, none without
the support of more than `t` replicas for its counter, and with that as soon as all before it are
accepted. Where a counter stands for one `Prepare`, the support is for the `Prepare` itself.
Collecting a message never panics. -/
theorem prepares_accepted_in_order {config : Config} {arrived : List (ViewPeerMessage C)}
    {collector : CollectorCommits C} {accepted : List (Prepare C)}
    (run : Collects config arrived collector accepted) :
    accepted.Pairwise (·.counter < ·.counter) ∧
      (∀ prepare ∈ accepted, (∃ message ∈ arrived, message.proposal = prepare) ∧
        Supported config.t arrived prepare.counter) ∧
      ((∀ left ∈ arrived, ∀ right ∈ arrived, left.proposal.counter = right.proposal.counter →
          left.proposal = right.proposal) → ∀ prepare ∈ accepted, ∃ origins : Finset Nat,
        config.t < origins.card ∧ ∀ origin ∈ origins,
          ∃ message ∈ arrived, message.proposal = prepare ∧ message.origin = origin) ∧
      (∀ message ∈ arrived, Supported config.t arrived message.proposal.counter →
        (∀ earlier ∈ arrived, earlier.proposal.counter < message.proposal.counter →
          ∃ prepare ∈ accepted, prepare.counter = earlier.proposal.counter) →
        ∃ prepare ∈ accepted, prepare.counter = message.proposal.counter) ∧
      ∀ message, (∀ prepare ∈ accepted, prepare.counter < message.proposal.counter) →
        ∃ result, collector.collect message config = .ok result := by
  obtain ⟨backed, blocked⟩ := run.backed
  refine ⟨backed.ascending, backed.supported, fun one prepare member => ?_,
    fun message member supported lower => ?_, fun message above => ?_⟩
  · obtain ⟨⟨proposal, isProposal, rfl⟩, origins, many, support⟩ := backed.supported prepare member
    refine ⟨origins, many, fun origin isOrigin => ?_⟩
    obtain ⟨message, arrives, sameCounter, isSender⟩ := support origin isOrigin
    exact ⟨message, arrives, one message arrives proposal isProposal sameCounter, isSender⟩
  · -- were it waiting, the first one that waits would have to be it, and not have the support
    refine (backed.kept message member).resolve_right fun waits => ?_
    obtain ⟨prepare, isPending⟩ := Option.ne_none_iff_exists'.mp waits
    obtain ⟨⟨first, value⟩, rest, isFirst⟩ :=
      exists_cons_of_ne_nil (ne_nil_of_mem (IdMap.mem_of_get isPending))
    obtain ⟨rfl, ⟨proposal, isProposal, rfl⟩, above, -⟩ :=
      backed.pending first value (IdMap.get_of_mem (isFirst ▸ mem_cons_self))
    rcases first_lowest isFirst isPending with same | later
    · exact blocked _ _ (by rw [isFirst]; rfl) (same ▸ supported)
    · obtain ⟨earlier, isAccepted, same⟩ := lower proposal isProposal later
      exact absurd (above earlier isAccepted) (by omega)
  · obtain ⟨next, acceptable, isNext, -⟩ := takeAcceptable_ok _ le_rfl (backed.collect above)
    exact ⟨_, isNext⟩

/-- Replica 1 commits to the `Prepare` of replica 0. -/
theorem prepare_of_two_accepted : ∃ arrived collector, ∃ prepare : Prepare Plain.carriers,
    Collects Plain.trio arrived collector [prepare] ∧ ∃ origins : Finset Nat, 1 < origins.card ∧
      ∀ origin ∈ origins, ∃ message ∈ arrived,
        message.proposal = prepare ∧ message.origin = origin := by
  let prepare : Prepare Plain.carriers := ⟨⟨0, 0, []⟩, (⟨0, 0, []⟩ : Plain.Signature)⟩
  let commit : Commit Plain.carriers := ⟨⟨1, prepare⟩, (⟨1, 0, []⟩ : Plain.Signature)⟩
  have run := @Collects.collect _ Plain.trio _ _ _ _ _ (.commit commit)
    (@Collects.collect _ _ _ _ _ _ _ (.prepare prepare) .new nofun rfl) nofun rfl
  have one : ∀ message ∈ [ViewPeerMessage.prepare prepare, .commit commit],
      message.proposal = prepare := by
    simp [ViewPeerMessage.proposal, commit]
  refine ⟨_, _, prepare, run, (prepares_accepted_in_order run).2.2.1 ?_ prepare mem_cons_self⟩
  exact fun left isLeft right isRight _ => (one left isLeft).trans (one right isRight).symm

end Abcperf.Minbft.CollectorCommits
