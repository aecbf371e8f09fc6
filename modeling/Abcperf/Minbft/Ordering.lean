import Abcperf.Minbft.MessageLogs

/-! The order enforcer of one origin. What it yields is in the order of the counters, without a hole
unless a recovered counter skips some, and what can be yielded does not stay in the buffer. A view
change drops as many messages as it skips counters, which need not be the messages it skips. -/

namespace Abcperf.Minbft

open Lib Lib.Outcome List

variable {C : Carriers} {env : Env} {heap : List (UsigMessage C)}

theorem topPosition_lowest {position : Nat} (isTop : topPosition env heap = some position) :
    ∃ head, heap[position]? = some head ∧ (head :: heap.eraseIdx position).Perm heap ∧
      ∀ message ∈ heap, head.counter ≤ message.counter := by
  unfold topPosition at isTop
  split at isTop
  · cases isTop
  rename_i lowest isLowest
  obtain ⟨-, least⟩ := List.min?_eq_some_iff.mp isLowest
  have found := (mem_filter.mp (mem_of_getElem? isTop)).2
  obtain ⟨head, isHead, low⟩ := (Option.any_eq_true _ _).mp found
  obtain ⟨inRange, atPosition⟩ := List.getElem?_eq_some_iff.mp isHead
  refine ⟨head, isHead, atPosition ▸ getElem_cons_eraseIdx_perm inRange, ?_⟩
  intro message member
  rw [of_decide_eq_true low]
  exact least _ (mem_map_of_mem member)

theorem topPosition_none (isTop : topPosition env heap = none) : heap = [] := by
  unfold topPosition at isTop
  split at isTop
  · next empty => simpa using List.min?_eq_none_iff.mp empty
  rename_i lowest isLowest
  obtain ⟨member, -⟩ := List.min?_eq_some_iff.mp isLowest
  obtain ⟨message, isMember, low⟩ := mem_map.mp member
  obtain ⟨index, isIndex⟩ := List.getElem?_of_mem isMember
  have listed : index ∈ (List.range heap.length).filter fun index =>
      (heap[index]?).any fun message => message.counter = lowest := by
    refine mem_filter.mpr ⟨mem_range.mpr ?_, by simp [isIndex, low]⟩
    exact (List.getElem?_eq_some_iff.mp isIndex).1
  have past := List.getElem?_eq_none_iff.mp isTop
  exact absurd (Nat.mod_lt _ (length_pos_of_mem listed)) (Nat.not_lt.mpr past)

inductive Arrival (C : Carriers)
  | pushed (message : UsigMessage C)
  | recovered (counter : Nat)

/-- The enforcer, what it has yielded, and the counters that recovered counters have passed over. -/
structure Passage (C : Carriers) where
  enforcer : UsigMsgOrderEnforcer C
  yielded : List (UsigMessage C)
  skipped : List Nat

namespace Passage

def arrive (passage : Passage C) (arrival : Env × Arrival C) : Outcome (Passage C) :=
  match arrival.2 with
  | .pushed message => do
    let (enforcer, messages) ← passage.enforcer.pushToHandle arrival.1 message
    return { passage with enforcer, yielded := passage.yielded ++ messages }
  | .recovered counter => do
    let next := passage.enforcer.nextCount
    let (enforcer, messages) ← passage.enforcer.updateAfterRecoveredCounter arrival.1 counter
    return ⟨enforcer, passage.yielded ++ messages,
      passage.skipped ++ List.range' next (counter - next)⟩

def after (arrivals : List (Env × Arrival C)) : Outcome (Passage C) :=
  arrivals.foldlM arrive ⟨.new, [], []⟩

end Passage

def Pushed (arrivals : List (Env × Arrival C)) (message : UsigMessage C) : Prop :=
  ∃ env, (env, .pushed message) ∈ arrivals

/-- No message that is pushed has the last counter of all. -/
def Bounded (arrivals : List (Env × Arrival C)) : Prop :=
  ∀ message, Pushed arrivals message → message.counter + 1 < word

/-- Exactly the counters below `next` were yielded or skipped, and what was pushed and has another
counter is in the heap. -/
structure Orderly (arrivals : List (Env × Arrival C)) (next : Nat)
    (heap yielded : List (UsigMessage C)) (skipped : List Nat) : Prop where
  increasing : yielded.Pairwise (·.counter < ·.counter)
  done : ∀ counter, counter ∈ yielded.map (·.counter) ∨ counter ∈ skipped ↔ counter < next
  kept : ∀ message, Pushed arrivals message → message.counter < next ∨ message ∈ heap
  known : ∀ message, message ∈ yielded ∨ message ∈ heap → Pushed arrivals message

namespace Orderly

variable {arrivals : List (Env × Arrival C)} {next : Nat} {yielded : List (UsigMessage C)}
  {skipped : List Nat} {message : UsigMessage C}

section

variable (orderly : Orderly arrivals next heap yielded skipped)

include orderly

theorem discard {fewer : List (UsigMessage C)} (fewerOf : ∀ message ∈ fewer, message ∈ heap)
    (low : ∀ message ∈ heap, message.counter < next ∨ message ∈ fewer) :
    Orderly arrivals next fewer yielded skipped :=
  { orderly with
    kept := fun message pushed => (orderly.kept message pushed).elim .inl (low message)
    known := fun message held => orderly.known message (held.imp_right (fewerOf message)) }

theorem drop {fewer : List (UsigMessage C)}
    (members : ∀ other, other ∈ heap ↔ other = message ∨ other ∈ fewer)
    (low : message.counter < next) : Orderly arrivals next fewer yielded skipped :=
  orderly.discard (fun other held => (members other).mpr (.inr held)) fun other held =>
    ((members other).mp held).imp_left fun same : other = message => same ▸ low

theorem yields (member : message ∈ heap) (isNext : message.counter = next) :
    Orderly arrivals (next + 1) heap (yielded ++ [message]) skipped where
  increasing := by
    refine pairwise_append.mpr ⟨orderly.increasing, pairwise_singleton _ _, ?_⟩
    intro early isEarly late isLate
    rw [mem_singleton.mp isLate, isNext]
    exact (orderly.done _).mp (.inl (mem_map_of_mem isEarly))
  done := by
    intro counter
    have := orderly.done counter
    simp only [map_append, mem_append, map_singleton, mem_singleton, isNext]
    grind
  kept := fun other pushed => (orderly.kept other pushed).imp_left Nat.lt_succ_of_lt
  known := by
    rintro other (isYielded | held)
    · rcases mem_append.mp isYielded with before | new
      · exact orderly.known other (.inl before)
      · exact orderly.known other (.inr (mem_singleton.mp new ▸ member))
    · exact orderly.known other (.inr held)

theorem push (env : Env) (message : UsigMessage C) :
    Orderly (arrivals ++ [(env, .pushed message)]) next (heap ++ [message]) yielded skipped where
  increasing := orderly.increasing
  done := orderly.done
  kept := by
    rintro other ⟨env, member⟩
    rcases mem_append.mp member with before | new
    · exact (orderly.kept other ⟨env, before⟩).imp_right (mem_append_left _)
    · cases mem_singleton.mp new
      exact .inr (mem_append_right _ (mem_singleton.mpr rfl))
  known := by
    intro other held
    rw [mem_append, mem_singleton, ← or_assoc] at held
    rcases held with before | rfl
    · obtain ⟨env, member⟩ := orderly.known other before
      exact ⟨env, mem_append_left _ member⟩
    · exact ⟨env, mem_append_right _ (mem_singleton.mpr rfl)⟩

theorem skip (env : Env) (counter : Nat) :
    Orderly (arrivals ++ [(env, .recovered counter)]) (max next counter) heap yielded
      (skipped ++ List.range' next (counter - next)) where
  increasing := orderly.increasing
  done := by
    intro other
    have := orderly.done other
    simp only [mem_append, mem_range'_1]
    grind
  kept := by
    rintro message ⟨env, member⟩
    have before : Pushed arrivals message := ⟨env, by simpa using member⟩
    exact (orderly.kept message before).imp_left fun low => by omega
  known := fun message held => by
    obtain ⟨env, member⟩ := orderly.known message held
    exact ⟨env, mem_append_left _ member⟩

end

end Orderly

namespace UsigMsgOrderEnforcer

variable {arrivals : List (Env × Arrival C)} {skipped : List Nat}

def Settled (arrivals : List (Env × Arrival C)) (passage : Passage C) : Prop :=
  Orderly arrivals passage.enforcer.nextCount passage.enforcer.unprocessed passage.yielded
    passage.skipped ∧
  ∀ message ∈ passage.enforcer.unprocessed, passage.enforcer.nextCount < message.counter

theorem yieldToBeProcessed_settles (below : Bounded arrivals) (env : Env) (fuel : Nat)
    (enforcer : UsigMsgOrderEnforcer C) (yielded : List (UsigMessage C))
    (enough : enforcer.unprocessed.length ≤ fuel)
    (orderly : Orderly arrivals enforcer.nextCount enforcer.unprocessed yielded skipped) :
    ∃ last messages, yieldToBeProcessed env fuel enforcer = .ok (last, messages) ∧
      Settled arrivals ⟨last, yielded ++ messages, skipped⟩ := by
  induction fuel generalizing enforcer yielded with
  | zero =>
    have empty := length_eq_zero_iff.mp (Nat.le_zero.mp enough)
    exact ⟨enforcer, [], rfl, by simpa [Settled, empty] using orderly⟩
  | succ fuel ih =>
    unfold yieldToBeProcessed
    split
    · next isTop =>
      exact ⟨enforcer, [], rfl, by simpa [Settled, topPosition_none isTop] using orderly⟩
    rename_i position isTop
    obtain ⟨head, isHead, perm, least⟩ := topPosition_lowest isTop
    have fewer := perm.length_eq
    rw [length_cons] at fewer
    have members : ∀ message, message ∈ enforcer.unprocessed ↔
        message = head ∨ message ∈ enforcer.unprocessed.eraseIdx position := by
      intro message
      rw [← perm.mem_iff, mem_cons]
    have held := (members head).mpr (.inl rfl)
    rw [isHead]
    simp only
    split
    · next low => exact ih _ yielded (by simp only; omega) (orderly.drop members low)
    split
    · next isNext =>
      have fits : enforcer.nextCount + 1 < word :=
        isNext ▸ below head (orderly.known head (.inr held))
      have yields := orderly.yields held isNext
      obtain ⟨last, messages, run, later⟩ := ih { enforcer with
        unprocessed := enforcer.unprocessed.eraseIdx position
        nextCount := enforcer.nextCount + 1 } (yielded ++ [head]) (by simp only; omega)
        (yields.drop members (Nat.lt_succ_of_le isNext.le))
      refine ⟨last, head :: messages, ?_, by rwa [append_assoc] at later⟩
      exact bind_ok.mpr ⟨_, addWord_fits fits, bind_ok.mpr ⟨_, run, rfl⟩⟩
    refine ⟨enforcer, [], rfl, by simpa using orderly, fun message held => ?_⟩
    have := least message held
    change enforcer.nextCount < _
    omega

theorem record_eq (enforcer : UsigMsgOrderEnforcer C) (message : UsigMessage C) :
    ∃ pendingNewViews, enforcer.record message = { enforcer with pendingNewViews } := by
  cases message <;> exact ⟨_, rfl⟩

theorem Settled.arrive {passage : Passage C} {arrival : Env × Arrival C}
    (settled : Settled arrivals passage) (below : Bounded (arrivals ++ [arrival])) :
    ∃ next, passage.arrive arrival = .ok next ∧ Settled (arrivals ++ [arrival]) next := by
  obtain ⟨enforcer, yielded, skipped⟩ := passage
  obtain ⟨orderly, waiting⟩ := settled
  obtain ⟨env, message | counter⟩ := arrival
  · obtain ⟨pendingNewViews, isRecord⟩ := enforcer.record_eq message
    have pushed := orderly.push env message
    have members : ∀ other, other ∈ enforcer.unprocessed ++ [message] ↔
        other = message ∨ other ∈ enforcer.unprocessed := by simp [or_comm]
    simp only [Passage.arrive, pushToHandle, isRecord]
    split
    · next low => exact ⟨_, rfl, by simpa using pushed.drop members low, waiting⟩
    split
    · next isNext =>
      have fits : enforcer.nextCount + 1 < word :=
        isNext ▸ below message ⟨env, mem_append_right _ (mem_singleton.mpr rfl)⟩
      have yields := pushed.yields ((members message).mpr (.inl rfl)) isNext
      obtain ⟨last, messages, run, later⟩ := yieldToBeProcessed_settles below env _
        ⟨enforcer.nextCount + 1, enforcer.unprocessed, pendingNewViews⟩ (yielded ++ [message])
        le_rfl (yields.drop members (Nat.lt_succ_of_le isNext.le))
      refine ⟨⟨last, yielded ++ message :: messages, skipped⟩, ?_, by rwa [append_assoc] at later⟩
      refine bind_ok.mpr ⟨(last, message :: messages), ?_, rfl⟩
      exact bind_ok.mpr ⟨_, addWord_fits fits, bind_ok.mpr ⟨_, run, rfl⟩⟩
    refine ⟨_, rfl, by simpa using pushed, fun other held => ?_⟩
    rcases (members other).mp held with rfl | before
    · change enforcer.nextCount < _
      omega
    · exact waiting other before
  have late : ∀ message ∈ enforcer.unprocessed, message.counter < max enforcer.nextCount counter ∨
      message ∈ enforcer.unprocessed.filter (counter ≤ ·.counter) := by
    intro message held
    by_cases low : counter ≤ message.counter
    · exact .inr (mem_filter.mpr ⟨held, decide_eq_true low⟩)
    · exact .inl (by omega)
  obtain ⟨last, messages, run, settled⟩ := yieldToBeProcessed_settles below env _
    ⟨max enforcer.nextCount counter, _, enforcer.pendingNewViews⟩ yielded le_rfl
    ((orderly.skip env counter).discard (fun _ held => (mem_filter.mp held).1) late)
  refine ⟨_, ?_, settled⟩
  simp only [Passage.arrive, updateAfterRecoveredCounter, run]
  rfl

theorem after_settled {arrivals : List (Env × Arrival C)} (below : Bounded arrivals) :
    ∃ passage, Passage.after arrivals = .ok passage ∧ Settled arrivals passage := by
  induction arrivals using List.reverseRecOn with
  | nil =>
    refine ⟨_, rfl, ⟨.nil, fun _ => ?_, fun _ pushed => ?_, fun _ held => ?_⟩, fun _ held => ?_⟩
    · simp [new]
    · cases pushed.choose_spec
    · rcases held with held | held <;> cases held
    · cases held
  | append_singleton arrivals arrival ih =>
    obtain ⟨passage, run, settled⟩ := ih fun message ⟨env, member⟩ =>
      below message ⟨env, mem_append_left _ member⟩
    obtain ⟨next, arrives, later⟩ := settled.arrive below
    refine ⟨next, ?_, later⟩
    unfold Passage.after at run ⊢
    rw [foldlM_append]
    exact bind_ok.mpr ⟨passage, run, bind_ok.mpr ⟨next, arrives, rfl⟩⟩

end UsigMsgOrderEnforcer

/-- Whatever arrives at the order enforcer, in any order and any number of times, it yields messages
that were pushed in the order of their counters, each at most once. The earlier counters were
yielded before or skipped by a recovered counter, and once that is so, a message that was pushed is
not held back. -/
theorem enforcer_yields_in_order {arrivals : List (Env × Arrival C)} (below : Bounded arrivals) :
    ∃ passage, Passage.after arrivals = .ok passage ∧
      passage.yielded.Pairwise (·.counter < ·.counter) ∧
      (∀ earlier message later, passage.yielded = earlier ++ message :: later →
        (∃ env, (env, .pushed message) ∈ arrivals) ∧ ∀ counter < message.counter,
          counter ∈ earlier.map (·.counter) ∨ counter ∈ passage.skipped) ∧
      ∀ env message, (env, .pushed message) ∈ arrivals → (∀ counter < message.counter,
          counter ∈ passage.yielded.map (·.counter) ∨ counter ∈ passage.skipped) →
        message.counter ∈ passage.yielded.map (·.counter) ∨ message.counter ∈ passage.skipped := by
  obtain ⟨passage, run, ⟨increasing, done, kept, known⟩, waiting⟩ :=
    UsigMsgOrderEnforcer.after_settled below
  refine ⟨passage, run, increasing, ?_, ?_⟩
  · intro earlier message later isSplit
    have member : message ∈ passage.yielded := by rw [isSplit]; simp
    refine ⟨known message (.inl member), fun counter low => ?_⟩
    have isDone := (done message.counter).mp (.inl (mem_map_of_mem member))
    refine ((done counter).mpr (by omega)).imp_left fun isYielded => ?_
    -- what comes after the message has a later counter
    rw [isSplit, pairwise_append, pairwise_cons] at increasing
    obtain ⟨other, isOther, rfl⟩ := mem_map.mp isYielded
    rw [isSplit, mem_append, mem_cons] at isOther
    rcases isOther with early | rfl | late
    · exact mem_map_of_mem early
    · omega
    · have := increasing.2.1.1 other late
      omega
  intro env message member below
  have reached : message.counter ≤ passage.enforcer.nextCount := by
    by_contra far
    exact absurd ((done _).mp (below _ (not_le.mp far))) (lt_irrefl _)
  rcases kept message ⟨env, member⟩ with low | held
  · exact (done _).mpr low
  · have := waiting message held
    omega

namespace Plain

def push (env : Env) (counter : Nat) : Env × Arrival platform :=
  (env, .pushed (.view (.prepare (proposed 0 0 counter))))

/-- Messages arrive late and twice, and a recovered counter passes over two of them. -/
def jumping : List (Env × Arrival platform) :=
  [push Plain.env 1, push Plain.env 0, push Plain.env 0, push Plain.env 5,
    (Plain.env, .recovered 4), push Plain.env 4]

end Plain

theorem enforcer_yields_in_order_jumping : ∃ passage, Passage.after Plain.jumping = .ok passage ∧
    passage.yielded.map (·.counter) = [0, 1, 4, 5] ∧ passage.skipped = [2, 3] ∧
    passage.yielded.Pairwise (·.counter < ·.counter) := by
  have below : Bounded Plain.jumping := by
    rintro message ⟨env, member⟩
    simp only [Plain.jumping, Plain.push, mem_cons, Prod.mk.injEq, Arrival.pushed.injEq,
      reduceCtorEq, and_false, false_or, not_mem_nil, or_false] at member
    rcases member with ⟨-, rfl⟩ | ⟨-, rfl⟩ | ⟨-, rfl⟩ | ⟨-, rfl⟩ | ⟨-, rfl⟩
    all_goals decide
  obtain ⟨passage, run, increasing, -⟩ := enforcer_yields_in_order below
  obtain ⟨other, isOther, counters, skipped⟩ : ∃ other, Passage.after Plain.jumping = .ok other ∧
      other.yielded.map (·.counter) = [0, 1, 4, 5] ∧ other.skipped = [2, 3] := ⟨_, rfl, rfl, rfl⟩
  obtain rfl := Except.ok.inj (run.symm.trans isOther)
  exact ⟨passage, run, counters, skipped, increasing⟩

/-- Without overflow checks a message with the last counter makes the enforcer start again. -/
theorem last_counter_starts_again : ∃ unchecked passage, unchecked.overflowChecks = false ∧
    Passage.after [(unchecked, .recovered (word - 1)), Plain.push unchecked (word - 1),
      Plain.push unchecked 0] = .ok passage ∧
    passage.yielded.map (·.counter) = [word - 1, 0] ∧
    ¬ passage.yielded.Pairwise (·.counter < ·.counter) := by
  refine ⟨{ Plain.env with overflowChecks := false }, _, rfl, rfl, rfl, fun increasing => ?_⟩
  exact absurd (rel_of_pairwise_cons increasing mem_cons_self) (Nat.not_lt_zero _)

namespace UsigMsgOrderEnforcer

theorem pop_lowest (env : Env) (enforcer : UsigMsgOrderEnforcer C)
    (nonempty : enforcer.unprocessed ≠ []) :
    ∃ head, (head :: (enforcer.pop env).unprocessed).Perm enforcer.unprocessed ∧
      ∀ message ∈ enforcer.unprocessed, head.counter ≤ message.counter := by
  unfold pop
  split
  · next isTop => exact absurd (topPosition_none isTop) nonempty
  rename_i position isTop
  obtain ⟨head, -, perm, least⟩ := topPosition_lowest isTop
  exact ⟨head, perm, least⟩

variable (env) (enforcer : UsigMsgOrderEnforcer C)

@[simp] theorem pop_nextCount : (enforcer.pop env).nextCount = enforcer.nextCount := by
  unfold pop
  split <;> rfl

theorem pop_length :
    (enforcer.pop env).unprocessed.length = enforcer.unprocessed.length - 1 := by
  by_cases empty : enforcer.unprocessed = []
  · simp [pop, topPosition, empty]
  obtain ⟨head, perm, -⟩ := pop_lowest env enforcer empty
  rw [← perm.length_eq, length_cons, Nat.add_sub_cancel]

/-- As long as there are messages up to `counter`, such a message is popped. -/
theorem pop_low {counter : Nat} (some : 0 < enforcer.unprocessed.countP (·.counter ≤ counter)) :
    ((enforcer.pop env).unprocessed.filter (counter < ·.counter)).Perm
        (enforcer.unprocessed.filter (counter < ·.counter)) ∧
      (enforcer.pop env).unprocessed.countP (·.counter ≤ counter) + 1 =
        enforcer.unprocessed.countP (·.counter ≤ counter) := by
  obtain ⟨message, member, low⟩ := countP_pos_iff.mp some
  obtain ⟨head, popped, least⟩ := pop_lowest env enforcer (ne_nil_of_mem member)
  have isLow : head.counter ≤ counter := (least message member).trans (of_decide_eq_true low)
  have later := popped.filter (counter < ·.counter)
  have lower := popped.countP_eq (·.counter ≤ counter)
  rw [filter_cons_of_neg (by simpa using isLow)] at later
  rw [countP_cons_of_pos (by simpa using isLow)] at lower
  exact ⟨later, lower⟩

/-- What skipping the next counters up to `counter` leaves in the buffer. -/
theorem skipCounters_ok {counter : Nat} (fits : counter + 1 < word) (skipped : Nat)
    (isSkipped : counter + 1 - enforcer.nextCount = skipped) :
    ∃ after, skipCounters env counter skipped enforcer = .ok after ∧
      after.nextCount = max enforcer.nextCount (counter + 1) ∧
      after.unprocessed.length = enforcer.unprocessed.length - skipped ∧
      (skipped = enforcer.unprocessed.countP (·.counter ≤ counter) →
        after.unprocessed.Perm (enforcer.unprocessed.filter (counter < ·.counter))) := by
  induction skipped generalizing enforcer with
  | zero =>
    refine ⟨enforcer, ?_, by omega, rfl, fun none => ?_⟩
    · rw [skipCounters, if_neg (by omega)]
      rfl
    rw [filter_eq_self.mpr]
    intro message member
    simpa using countP_eq_zero.mp none.symm message member
  | succ skipped ih =>
    obtain ⟨after, run, next, length, drops⟩ :=
      ih (pop env { enforcer with nextCount := enforcer.nextCount + 1 }) (by simp; omega)
    rw [pop_length] at length
    simp only [pop_nextCount] at next
    refine ⟨after, ?_, by omega, by simp only at length; omega, fun enough => ?_⟩
    · rw [skipCounters, if_pos (by omega)]
      exact bind_ok.mpr ⟨_, addWord_fits (by omega), run⟩
    obtain ⟨perm, fewer⟩ := pop_low env { enforcer with nextCount := enforcer.nextCount + 1 }
      (show 0 < enforcer.unprocessed.countP (·.counter ≤ counter) by omega)
    exact (drops (by simp only at fewer; omega)).trans perm

theorem skipCounters_last {counter : Nat} (last : word ≤ counter + 1) (fuel : Nat)
    (fits : enforcer.nextCount < word) (after : UsigMsgOrderEnforcer C) :
    skipCounters env counter fuel enforcer ≠ .ok after := by
  intro run
  induction fuel generalizing enforcer with
  | zero =>
    rw [skipCounters, if_pos (by omega)] at run
    cases run
  | succ fuel ih =>
    rw [skipCounters, if_pos (by omega)] at run
    obtain ⟨nextCount, added, run⟩ := bind_ok.mp run
    exact ih (pop env { enforcer with nextCount }) (by simpa using addWord_lt added) run

/-- A view change moves the next expected counter as it should and drops exactly the messages up to
the accepted one if and only if there is a counter after that one, and there are as many of these
messages as there are counters to skip or the whole buffer consists of them. -/
theorem update_in_new_view_drops_iff (env : Env) (enforcer : UsigMsgOrderEnforcer C) (counter : Nat)
    (fits : enforcer.nextCount < word) :
    (∃ after, enforcer.updateInNewView env counter = .ok after ∧
      after.nextCount = max enforcer.nextCount (counter + 1) ∧
      after.unprocessed.Perm (enforcer.unprocessed.filter (counter < ·.counter))) ↔
      counter + 1 < word ∧ min (counter + 1 - enforcer.nextCount) enforcer.unprocessed.length =
        enforcer.unprocessed.countP (·.counter ≤ counter) := by
  have total : enforcer.unprocessed.countP (·.counter ≤ counter) +
      (enforcer.unprocessed.filter (counter < ·.counter)).length = enforcer.unprocessed.length := by
    rw [← countP_eq_length_filter, length_eq_countP_add_countP (·.counter ≤ counter)]
    simp
  by_cases last : counter + 1 < word
  · obtain ⟨after, run, next, length, drops⟩ := skipCounters_ok env enforcer last _ rfl
    have sameAfter : ∀ other, enforcer.updateInNewView env counter = .ok other → after = other :=
      fun other isOther => Except.ok.inj (run.symm.trans isOther)
    constructor
    · rintro ⟨other, isOther, -, perm⟩
      obtain rfl := sameAfter other isOther
      have := perm.length_eq
      exact ⟨last, by omega⟩
    rintro ⟨-, enough⟩
    refine ⟨after, run, next, ?_⟩
    rcases le_total enforcer.unprocessed.length (counter + 1 - enforcer.nextCount) with all | few
    · -- the whole buffer is dropped, and nothing in it is above the accepted counter
      rw [length_eq_zero_iff.mp (show after.unprocessed.length = 0 by omega),
        length_eq_zero_iff.mp (show (enforcer.unprocessed.filter _).length = 0 by omega)]
    · exact drops (by omega)
  constructor
  · rintro ⟨after, run, -⟩
    exact absurd run (skipCounters_last env enforcer (by omega) _ fits after)
  · exact fun ⟨fits, _⟩ => absurd fits last

end UsigMsgOrderEnforcer

/-- The replica waits for counter 1 and holds the messages 5, 2 and 1. The first two are dropped. -/
theorem update_in_new_view_drops_two : ∃ after,
    UsigMsgOrderEnforcer.updateInNewView Plain.env (⟨1, [.view (.prepare (Plain.proposed 0 0 5)),
      .view (.prepare (Plain.proposed 0 0 2)), .view (.prepare (Plain.proposed 0 0 1))], .empty⟩ :
      UsigMsgOrderEnforcer Plain.platform) 2 = .ok after ∧ after.nextCount = 3 ∧
    after.unprocessed.Perm [.view (.prepare (Plain.proposed 0 0 5))] :=
  (UsigMsgOrderEnforcer.update_in_new_view_drops_iff Plain.env _ 2 (by decide)).mpr
    ⟨by decide, by decide⟩

/-- The replica waits for counter 1 and holds the messages 3 and 5. Message 5, which comes after the
accepted `Prepare` with counter 3, is dropped. -/
theorem later_message_dropped : ∃ enforcer after : UsigMsgOrderEnforcer Plain.platform,
    enforcer = ⟨1, [.view (.prepare (Plain.proposed 0 0 3)),
      .view (.prepare (Plain.proposed 0 0 5))],
      .empty⟩ ∧ .view (.prepare (Plain.proposed 0 0 5)) ∈ enforcer.unprocessed ∧
    enforcer.updateInNewView Plain.env 3 = .ok after ∧ after.nextCount = 4 ∧
    after.unprocessed = [] :=
  ⟨_, _, rfl, by simp, rfl, rfl, rfl⟩

end Abcperf.Minbft
