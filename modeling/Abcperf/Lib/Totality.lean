import Abcperf.Lib.Reflection

/-! Calls that return. The rules take a computation apart forwards: each step returns something with
a property from which the next one returns. A call stops only in ways that are `excused`, such as
running out of iterations. -/

namespace Abcperf.Lib

open List

namespace Outcome

variable {α β : Type} {excused : Panic → Prop}

/-- The call returns a value with the property `post`, unless it stops in a way that is excused. -/
def Returns (excused : Panic → Prop) (post : α → Prop) : Outcome α → Prop
  | .ok value => post value
  | .error panic => excused panic

namespace Returns

variable {post weaker : α → Prop}
  {outcome : Outcome α} {Item : Type}

theorem of_ok {value : α} (run : outcome = .ok value) (holds : post value) :
    Returns excused post outcome := by
  rw [run]
  exact holds

theorem pure {value : α} (holds : post value) :
    Returns excused post (Pure.pure value : Outcome α) := holds

theorem fuel (isExcused : excused .fuel) : Returns excused post (throw .fuel : Outcome α) :=
  isExcused

theorem imp (returns : Returns excused post outcome)
    (implies : ∀ value, post value → weaker value) :
    Returns excused weaker outcome := by
  cases outcome with
  | error panic => exact returns
  | ok value => exact implies value returns

theorem bind {first : Outcome α} {next : α → Outcome β} {after : β → Prop}
    (returns : Returns excused post first)
    (later : ∀ value, post value → Returns excused after (next value)) :
    Returns excused after (first >>= next) := by
  cases first with
  | error panic => exact returns
  | ok value => exact later value returns

theorem step {first : Outcome α} {next : α → Outcome β} {after : β → Prop} {value : α}
    (run : first = .ok value) (later : Returns excused after (next value)) :
    Returns excused after (first >>= next) := by
  rw [run]
  exact later

theorem asserted {condition : Prop} [Decidable condition] {next : Unit → Outcome β}
    {after : β → Prop} (holds : condition) (later : Returns excused after (next ())) :
    Returns excused after (assert condition >>= next) :=
  step (assert_ok.mpr holds) later

theorem excused_assertion {condition : Prop} [Decidable condition] {next : Unit → Outcome β}
    {after : β → Prop} (excuse : ¬ excused .assertion → condition)
    (later : Returns excused after (next ())) :
    Returns excused after (assert condition >>= next) := by
  by_cases holds : condition
  · exact asserted holds later
  have isExcused : excused .assertion := not_not.mp (mt excuse holds)
  rw [assert, if_neg holds]
  exact isExcused

theorem value (returns : Returns excused post outcome) {value : α} (run : outcome = .ok value) :
    post value := by
  rw [run] at returns
  exact returns

theorem stopped (returns : Returns excused post outcome) {panic : Panic}
    (run : outcome = .error panic) : excused panic := by
  rw [run] at returns
  exact returns

theorem meets (returns : Returns excused weaker outcome)
    (holds : ∀ value, outcome = .ok value → weaker value → post value) :
    Returns excused post outcome := by
  cases outcome with
  | error panic => exact returns
  | ok value => exact holds value rfl returns

theorem result (returns : Returns excused post outcome) (none : ∀ panic, ¬ excused panic) :
    ∃ value, outcome = .ok value ∧ post value := by
  cases outcome with
  | error panic => exact absurd returns (none panic)
  | ok value => exact ⟨value, rfl, returns⟩

/-- A loop returns if each of its iterations does, and keeps a property that may depend on how many
iterations there were. -/
theorem foldlM_counted {State : Type} {step : State → Item → Outcome State} {items : List Item}
    (keeps : Nat → State → Prop) {start : State} (holds : keeps 0 start)
    (each : ∀ count state item, item ∈ items → keeps count state →
      Returns excused (keeps (count + 1)) (step state item)) :
    Returns excused (keeps items.length) (items.foldlM step start) := by
  induction items generalizing keeps start with
  | nil => exact holds
  | cons item rest ih =>
    rw [foldlM_cons]
    refine bind (each 0 start item mem_cons_self holds) fun state kept => ?_
    exact ih (fun count => keeps (count + 1)) kept fun count state item member =>
      each (count + 1) state item (mem_cons_of_mem _ member)

theorem foldlM {State : Type} {keeps : State → Prop} {step : State → Item → Outcome State}
    {items : List Item} {start : State} (holds : keeps start)
    (each : ∀ state item, item ∈ items → keeps state → Returns excused keeps (step state item)) :
    Returns excused keeps (items.foldlM step start) :=
  foldlM_counted (fun _ => keeps) holds fun _ => each

theorem mapM {Result : Type} {post : Result → Prop} {step : Item → Outcome Result}
    {items : List Item} (each : ∀ item ∈ items, Returns excused post (step item)) :
    Returns excused (fun results => ∀ result ∈ results, post result) (items.mapM step) := by
  induction items with
  | nil =>
    intro result member
    cases member
  | cons item rest ih =>
    rw [mapM_cons]
    refine bind (each item mem_cons_self) fun result holds => ?_
    refine bind (ih fun other member => each other (mem_cons_of_mem _ member)) ?_
    intro results all
    exact pure fun other member => (mem_cons.mp member).elim (fun same => same ▸ holds) (all other)

end Returns

end Outcome

namespace Reflector

open Outcome

variable {State Output Message : Type} {machine : Reflector State Output Message}
    {excused : Panic → Prop}
  {sane : State → Prop} {grows : State → State → Prop} {admits : State → Message → Prop}
  {cost : State → Nat}

def Quiet (machine : Reflector State Output Message) (state : State) : Prop :=
  (machine.take state).2.2 = []

variable {state : State}

theorem reflect_quiet (quiet : machine.Quiet state) (fuel : Nat) :
    machine.reflect fuel state = .ok ((machine.take state).1, (machine.take state).2.1) := by
  unfold Quiet at quiet
  simp only [reflect, reflectWith, quiet, foldlM_nil]
  rfl

/-- Why a call comes to an end: what a handler leaves for the machine itself ranks below the message
it has handled, and no rank rises while the state grows. -/
structure Ranked (machine : Reflector State Output Message) (excused : Panic → Prop)
    (sane : State → Prop)
    (grows : State → State → Prop) (admits : State → Message → Prop)
    (rank : State → Message → Nat) : Prop where
  trans : ∀ {first second third}, grows first second → grows second third → grows first third
  dispatch : ∀ {state message}, sane state → machine.Quiet state → admits state message →
    Returns excused (fun next => sane next ∧ grows state next ∧
      ∀ pending ∈ (machine.take next).2.2, admits (machine.take next).1 pending ∧
        rank (machine.take next).1 pending < rank state message) (machine.dispatch state message)
  take : ∀ {state}, sane state → sane (machine.take state).1 ∧
    machine.Quiet (machine.take state).1 ∧ grows state (machine.take state).1
  later : ∀ {before after message}, grows before after → admits before message →
    admits after message ∧ rank after message ≤ rank before message

variable {rank : State → Message → Nat}

section

variable (ranked : Ranked machine excused sane grows admits rank)

include ranked

theorem Ranked.reflectWith_returns {process : State → Message → Outcome (State × Output)}
    (holds : sane state) {bound : Nat}
    (pending : ∀ message ∈ (machine.take state).2.2, admits (machine.take state).1 message ∧
        (¬ excused .fuel → rank (machine.take state).1 message < bound))
    (each : ∀ {current message}, sane current → machine.Quiet current → admits current message →
      (¬ excused .fuel → rank current message < bound) →
      Returns excused (fun result => sane result.1 ∧ machine.Quiet result.1 ∧
        grows current result.1) (process current message)) :
    Returns excused (fun result => sane result.1 ∧ machine.Quiet result.1 ∧ grows state result.1)
      (machine.reflectWith process state) := by
  obtain ⟨taken, quiet, grown⟩ := ranked.take holds
  -- the messages that are still to come stay admitted and keep their rank below the bound
  let loop : State × Output → Prop := fun current =>
    (sane current.1 ∧ machine.Quiet current.1 ∧ grows state current.1) ∧
      ∀ message ∈ (machine.take state).2.2, admits current.1 message ∧
        (¬ excused .fuel → rank current.1 message < bound)
  have looped : Returns excused loop (machine.reflectWith process state) := by
    refine Returns.foldlM ⟨⟨taken, quiet, grown⟩, pending⟩ ?_
    rintro ⟨current, collected⟩ message member ⟨⟨kept, isQuiet, grew⟩, admitted⟩
    obtain ⟨isAdmitted, below⟩ := admitted message member
    refine (each kept isQuiet isAdmitted below).bind ?_
    rintro ⟨next, output⟩ ⟨keptNext, quietNext, grewNext⟩
    refine ⟨⟨keptNext, quietNext, ranked.trans grew grewNext⟩, fun other isOther => ?_⟩
    obtain ⟨otherAdmitted, otherBelow⟩ := admitted other isOther
    obtain ⟨stillAdmitted, notRisen⟩ := ranked.later grewNext otherAdmitted
    exact ⟨stillAdmitted, fun long => Nat.lt_of_le_of_lt notRisen (otherBelow long)⟩
  exact looped.imp fun _ done => done.1

theorem Ranked.process_returns (fuel : Nat) {state : State} {message : Message} (holds : sane state)
    (quiet : machine.Quiet state) (admitted : admits state message)
    (enough : ¬ excused .fuel → rank state message < fuel) :
    Returns excused (fun result => sane result.1 ∧ machine.Quiet result.1 ∧ grows state result.1)
      (machine.process fuel state message) := by
  induction fuel generalizing state message with
  | zero =>
    refine Returns.fuel ?_
    by_contra long
    exact absurd (enough long) (Nat.not_lt_zero _)
  | succ fuel ih =>
    refine (ranked.dispatch holds quiet admitted).bind ?_
    rintro handled ⟨kept, grew, pending⟩
    refine (ranked.reflectWith_returns kept ?_ ih).imp ?_
    · intro reflected member
      obtain ⟨isAdmitted, below⟩ := pending reflected member
      refine ⟨isAdmitted, fun long => ?_⟩
      have := enough long
      omega
    · rintro ⟨next, output⟩ ⟨keptNext, quietNext, grewNext⟩
      exact ⟨keptNext, quietNext, ranked.trans grew grewNext⟩

theorem Ranked.reflect_returns (fuel : Nat) (holds : sane state)
    (pending : ∀ message ∈ (machine.take state).2.2, admits (machine.take state).1 message ∧
        (¬ excused .fuel → rank (machine.take state).1 message < fuel)) :
    Returns excused (fun result => sane result.1 ∧ machine.Quiet result.1 ∧ grows state result.1)
      (machine.reflect fuel state) :=
  ranked.reflectWith_returns holds pending (ranked.process_returns fuel)

end

/-- The ranks may come from a cost of the state alone: a handler that leaves messages for the
machine itself lowers the cost. -/
structure Total (machine : Reflector State Output Message) (excused : Panic → Prop)
    (sane : State → Prop)
    (grows : State → State → Prop) (admits : State → Message → Prop) (cost : State → Nat) :
    Prop where
  trans : ∀ {first second third}, grows first second → grows second third → grows first third
  dispatch : ∀ {state message}, sane state → machine.Quiet state → admits state message →
    Returns excused (fun next => sane next ∧ grows state next ∧ cost next ≤ cost state ∧
      (machine.Quiet next ∨ cost next < cost state)) (machine.dispatch state message)
  take : ∀ {state}, sane state → sane (machine.take state).1 ∧
    machine.Quiet (machine.take state).1 ∧ grows state (machine.take state).1 ∧
    cost (machine.take state).1 = cost state ∧
    ∀ message ∈ (machine.take state).2.2, admits (machine.take state).1 message
  admitted : ∀ {before after message}, grows before after → admits before message →
    admits after message

theorem Total.ranked (total : Total machine excused sane grows admits cost) :
    Ranked machine excused sane (fun before after => grows before after ∧ cost after ≤ cost before)
      admits (fun state _ => cost state) where
  trans := fun left right =>
    ⟨total.trans left.1 right.1, Nat.le_trans right.2 left.2⟩
  dispatch := by
    intro state message holds quiet admitted
    refine (total.dispatch holds quiet admitted).imp ?_
    rintro next ⟨kept, grew, lower, done⟩
    obtain ⟨_, _, _, same, reflected⟩ := total.take kept
    refine ⟨kept, ⟨grew, lower⟩, fun pending member => ⟨reflected pending member, ?_⟩⟩
    rcases done with isQuiet | cheaper
    · rw [isQuiet] at member
      cases member
    · rw [same]
      exact cheaper
  take := by
    intro state holds
    obtain ⟨taken, quiet, grown, same, _⟩ := total.take holds
    exact ⟨taken, quiet, grown, Nat.le_of_eq same⟩
  later := fun grew admitted => ⟨total.admitted grew.1 admitted, grew.2⟩

/-- Messages of the machine to itself are processed within as many levels as their cost. -/
theorem Total.reflect_returns (total : Total machine excused sane grows admits cost) (fuel : Nat)
    (holds : sane state) (enough : ¬ excused .fuel → cost state < fuel) :
    Returns excused (fun result => sane result.1 ∧ machine.Quiet result.1 ∧ grows state result.1)
      (machine.reflect fuel state) := by
  obtain ⟨_, _, _, same, reflected⟩ := total.take holds
  refine (total.ranked.reflect_returns fuel holds fun message member =>
    ⟨reflected message member, fun long => ?_⟩).imp fun _ done => ⟨done.1, done.2.1, done.2.2.1⟩
  rw [same]
  exact enough long

end Reflector

end Abcperf.Lib
