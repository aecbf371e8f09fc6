import Abcperf.Lib.Outcome

/-! Machines that send messages to themselves. A handler leaves its outputs in the state; before a
call returns, the messages among them that are addressed to the machine itself are processed, with
whatever they cause in turn, and the outputs are joined. -/

namespace Abcperf.Lib

structure Reflector (State Output Message : Type) where
  dispatch : State → Message → Outcome State
  take : State → State × Output × List Message
  join : Output → Output → Output
  join_assoc : ∀ first second third,
    join (join first second) third = join first (join second third)

namespace Reflector

open Outcome

variable {State Output Message : Type}

def reflectWith (machine : Reflector State Output Message)
    (process : State → Message → Outcome (State × Output)) (state : State) :
    Outcome (State × Output) :=
  let taken := machine.take state
  taken.2.2.foldlM (fun current message => do
    let (state, output) ← process current.1 message
    return (state, machine.join current.2 output)) (taken.1, taken.2.1)

/-- A message from outside or from the machine itself. The fuel bounds how deep messages to the
machine itself nest. -/
def process (machine : Reflector State Output Message) :
    Nat → State → Message → Outcome (State × Output)
  | 0, _, _ => throw .fuel
  | fuel + 1, state, message => do
      let state ← machine.dispatch state message
      machine.reflectWith (machine.process fuel) state

def reflect (machine : Reflector State Output Message) (fuel : Nat) (state : State) :
    Outcome (State × Output) :=
  machine.reflectWith (machine.process fuel) state

variable {machine : Reflector State Output Message} {state next : State} {output : Output}
  {fuel : Nat}

section

variable (settled : State → Prop) (taken : ∀ state, settled (machine.take state).1)

include settled taken

theorem reflectWith_settles {process : State → Message → Outcome (State × Output)}
    (each : ∀ {state message next output}, process state message = .ok (next, output) →
      settled next) (run : machine.reflectWith process state = .ok (next, output)) :
    settled next := by
  refine foldlM_keeps (fun current : State × Output => settled current.1) _ _ _ _ ?_
    (taken state) run
  rintro ⟨current, collected⟩ message ⟨after, joined⟩ _ _ step
  simp only [bind_ok, pair_ok, Prod.exists] at step
  obtain ⟨processed, more, processedOk, rfl, rfl⟩ := step
  exact each processedOk

theorem process_settles (fuel : Nat) {state : State} {message : Message} {next : State}
    {output : Output} (run : machine.process fuel state message = .ok (next, output)) :
    settled next := by
  induction fuel generalizing state message next output with
  | zero => simp [process] at run
  | succ fuel ih =>
    simp only [process, bind_ok] at run
    obtain ⟨handled, _, reflected⟩ := run
    exact reflectWith_settles settled taken ih reflected

theorem reflect_settles (run : machine.reflect fuel state = .ok (next, output)) : settled next :=
  reflectWith_settles settled taken (process_settles settled taken fuel) run

end

/-- What makes a property of the handlers one of the calls. `keeps` may speak of everything that
was output before; handlers keep it for messages that are admitted, taking the output keeps it, and
a message stays admitted while the state grows. -/
structure Rule (machine : Reflector State Output Message) (keeps : Output → State → Prop)
    (grows : State → State → Prop) (admits : State → Message → Prop) : Prop where
  refl : ∀ state, grows state state
  trans : ∀ {first second third}, grows first second → grows second third → grows first third
  dispatch : ∀ {history state message next}, keeps history state → admits state message →
    machine.dispatch state message = .ok next → keeps history next ∧ grows state next
  take : ∀ {history state}, keeps history state →
    keeps (machine.join history (machine.take state).2.1) (machine.take state).1 ∧
      grows state (machine.take state).1 ∧
      ∀ message ∈ (machine.take state).2.2, admits (machine.take state).1 message
  admitted : ∀ {before after message}, grows before after → admits before message →
    admits after message

variable {machine : Reflector State Output Message} {keeps : Output → State → Prop}
  {grows : State → State → Prop} {admits : State → Message → Prop}

theorem reflectWith_keeps (rule : Rule machine keeps grows admits)
    {process : State → Message → Outcome (State × Output)}
    (each : ∀ {history state message next output}, keeps history state → admits state message →
      process state message = .ok (next, output) →
      keeps (machine.join history output) next ∧ grows state next)
    {history : Output} {state next : State} {output : Output} (holds : keeps history state)
    (run : machine.reflectWith process state = .ok (next, output)) :
    keeps (machine.join history output) next ∧ grows state next := by
  obtain ⟨taken, grown, reflected⟩ := rule.take holds
  let loop : State × Output → Prop := fun current =>
    keeps (machine.join history current.2) current.1 ∧ grows state current.1 ∧
      ∀ message ∈ (machine.take state).2.2, admits current.1 message
  have atEnd : loop (next, output) := by
    refine foldlM_keeps loop _ _ _ _ ?_ ⟨taken, grown, reflected⟩ run
    rintro ⟨current, collected⟩ message ⟨after, joined⟩ member ⟨kept, grewTo, admitted⟩ step
    simp only [bind_ok, pair_ok, Prod.exists] at step
    obtain ⟨processed, more, processedOk, rfl, rfl⟩ := step
    obtain ⟨keptNext, grewNext⟩ := each kept (admitted message member) processedOk
    rw [machine.join_assoc] at keptNext
    exact ⟨keptNext, rule.trans grewTo grewNext,
      fun other isOther => rule.admitted grewNext (admitted other isOther)⟩
  exact ⟨atEnd.1, atEnd.2.1⟩

theorem process_keeps (rule : Rule machine keeps grows admits) (fuel : Nat) {history : Output}
    {state : State} {message : Message} {next : State} {output : Output}
    (holds : keeps history state) (admitted : admits state message)
    (run : machine.process fuel state message = .ok (next, output)) :
    keeps (machine.join history output) next ∧ grows state next := by
  induction fuel generalizing history state message next output with
  | zero => simp [process] at run
  | succ fuel ih =>
    simp only [process, bind_ok] at run
    obtain ⟨handled, dispatched, reflected⟩ := run
    obtain ⟨kept, grew⟩ := rule.dispatch holds admitted dispatched
    obtain ⟨keptAll, grewAll⟩ := reflectWith_keeps rule ih kept reflected
    exact ⟨keptAll, rule.trans grew grewAll⟩

theorem reflect_keeps (rule : Rule machine keeps grows admits) {fuel : Nat} {history : Output}
    {state next : State} {output : Output} (holds : keeps history state)
    (run : machine.reflect fuel state = .ok (next, output)) :
    keeps (machine.join history output) next ∧ grows state next :=
  reflectWith_keeps rule (process_keeps rule fuel) holds run

theorem process_after (rule : Rule machine keeps grows admits) {fuel : Nat} {history : Output}
    {state next : State} {message : Message} {output : Output}
    (first : ∀ {handled}, machine.dispatch state message = .ok handled → keeps history handled)
    (run : machine.process fuel state message = .ok (next, output)) :
    keeps (machine.join history output) next := by
  cases fuel with
  | zero => simp [process] at run
  | succ fuel =>
    simp only [process, bind_ok] at run
    obtain ⟨handled, dispatched, reflected⟩ := run
    exact (reflectWith_keeps rule (process_keeps rule fuel) (first dispatched) reflected).1

section

variable {holds : State → Prop} (rule : Rule machine (fun _ => holds) grows admits)
  (kept : holds state)

include rule kept

theorem process_holds {message : Message} (admitted : admits state message)
    (run : machine.process fuel state message = .ok (next, output)) :
    holds next ∧ grows state next :=
  @process_keeps _ _ _ _ _ _ _ rule fuel output state message next output kept admitted run

theorem reflect_holds (run : machine.reflect fuel state = .ok (next, output)) : holds next :=
  (@reflect_keeps _ _ _ _ _ _ _ rule fuel output _ _ _ kept run).1

end

section state

variable {holds : State → Prop}
  (dispatched : ∀ {state message next}, holds state → machine.dispatch state message = .ok next →
    holds next)
  (taken : ∀ {state}, holds state → holds (machine.take state).1)

include dispatched taken

theorem rule_state : Rule machine (fun _ => holds) (fun _ _ => True) (fun _ _ => True) where
  refl := fun _ => trivial
  trans := fun _ _ => trivial
  dispatch := fun kept _ run => ⟨dispatched kept run, trivial⟩
  take := fun kept => ⟨taken kept, trivial, fun _ _ => trivial⟩
  admitted := fun _ _ => trivial

theorem process_preserves {fuel : Nat} {state next : State} {message : Message} {output : Output}
    (kept : holds state) (run : machine.process fuel state message = .ok (next, output)) :
    holds next :=
  (process_holds (rule_state dispatched taken) kept trivial run).1

theorem reflect_preserves {fuel : Nat} {state next : State} {output : Output} (kept : holds state)
    (run : machine.reflect fuel state = .ok (next, output)) : holds next :=
  reflect_holds (rule_state dispatched taken) kept run

end state

end Reflector

end Abcperf.Lib
