import Mathlib.Algebra.Group.Nat.Even
import Abcperf.Lib.Outcome

/-! How the web server of a replica brings a client's requests and the responses to them together.
Either of the two may come first, and both may come again or be skipped. When the response that
waits for its request comes again, the server drops both, and the next repetition waits again. So
the request finds a response only after an even number of repetitions. -/

namespace Abcperf.Webserver

open Lib Lib.Outcome List

inductive InnerClientHandlerState (Channel Resp : Type)
  | neither
  | channel (channel : Channel)
  | response (payload : Resp)

structure ClientHandlerState (Channel Resp : Type) where
  id : Nat
  inner : InnerClientHandlerState Channel Resp

inductive Event (Channel Resp : Type)
  | request (id : Nat) (channel : Channel)
  | response (id : Nat) (payload : Resp)

/-- Whether a request is to be forwarded to the consensus, and what is sent on which channel. -/
structure Reaction (Channel Resp : Type) where
  forwards : Bool
  sent : Option (Channel × Resp)

variable {Channel Resp : Type}

def Event.id : Event Channel Resp → Nat
  | .request id _ => id
  | .response id _ => id

def Event.isResponse (id : Nat) : Event Channel Resp → Bool
  | .request _ _ => false
  | .response other _ => other = id

def Event.Precedes (id : Nat) : Event Channel Resp → Prop
  | .request other _ => other < id
  | .response other _ => other ≤ id

namespace ClientHandlerState

variable (state : ClientHandlerState Channel Resp)

def default : ClientHandlerState Channel Resp := ⟨0, .neither⟩

/-- Request ids have 64 bits. -/
def nextId : Outcome (ClientHandlerState Channel Resp) :=
  if state.id + 1 < Nat.pow 2 64 then return { state with id := state.id + 1 } else throw .unwrap

def request (id : Nat) (channel : Channel) :
    Outcome (ClientHandlerState Channel Resp × Reaction Channel Resp) :=
  if id < state.id then return (state, ⟨false, none⟩)
  else if state.id < id then return (⟨id, .channel channel⟩, ⟨true, none⟩)
  else match state.inner with
    | .neither => return ({ state with inner := .channel channel }, ⟨true, none⟩)
    | .channel _ => return ({ state with inner := .channel channel }, ⟨false, none⟩)
    | .response payload => do
        let state ← nextId { state with inner := .neither }
        return (state, ⟨false, some (channel, payload)⟩)

/-- The inner state is taken out before it is looked at, and a second response does not put the
first one back. -/
def response (id : Nat) (payload : Resp) :
    Outcome (ClientHandlerState Channel Resp × Reaction Channel Resp) :=
  if id < state.id then return (state, ⟨false, none⟩)
  else if state.id < id then return (⟨id, .response payload⟩, ⟨false, none⟩)
  else match state.inner with
    | .neither => return ({ state with inner := .response payload }, ⟨false, none⟩)
    | .channel channel => do
        let state ← nextId { state with inner := .neither }
        return (state, ⟨false, some (channel, payload)⟩)
    | .response _ => return ({ state with inner := .neither }, ⟨false, none⟩)

def handle : Event Channel Resp → Outcome (ClientHandlerState Channel Resp × Reaction Channel Resp)
  | .request id channel => state.request id channel
  | .response id payload => state.response id payload

/-- The events of one client and the ids that were forwarded, the latest first. -/
inductive Run : List (Event Channel Resp) → List Nat → ClientHandlerState Channel Resp → Prop
  | start : Run [] [] default
  | step {events : List (Event Channel Resp)} {forwarded : List Nat} {event : Event Channel Resp}
      {reaction : Reaction Channel Resp} {state next : ClientHandlerState Channel Resp}
      (before : Run events forwarded state) (handles : state.handle event = .ok (next, reaction)) :
      Run (event :: events) (if reaction.forwards then event.id :: forwarded else forwarded) next

variable {state next : ClientHandlerState Channel Resp} {event : Event Channel Resp}
  {reaction : Reaction Channel Resp} {events : List (Event Channel Resp)} {forwarded : List Nat}

@[simp] theorem nextId_ok :
    state.nextId = .ok next ↔ state.id + 1 < Nat.pow 2 64 ∧
    { state with id := state.id + 1 } = next := by
  unfold nextId
  split <;> simp [*]

/-- What waits has arrived, and an id that was forwarded is in the past or still has its channel. -/
structure Consistent (events : List (Event Channel Resp)) (forwarded : List Nat)
    (state : ClientHandlerState Channel Resp) : Prop where
  registered : ∀ channel, state.inner = .channel channel → .request state.id channel ∈ events
  arrived : ∀ payload, state.inner = .response payload → .response state.id payload ∈ events
  below : ∀ id ∈ forwarded, id < state.id ∨ id = state.id ∧ ∃ channel,
    state.inner = .channel channel
  once : forwarded.Nodup

theorem Consistent.step (consistent : Consistent events forwarded state)
    (run : state.handle event = .ok (next, reaction)) :
    Consistent (event :: events) (if reaction.forwards then event.id :: forwarded else forwarded)
      next ∧ state.id ≤ next.id ∧ ∀ channel payload, reaction.sent = some (channel, payload) →
        ∃ id, .request id channel ∈ event :: events ∧ .response id payload ∈ event :: events := by
  obtain ⟨registered, arrived, below, once⟩ := consistent
  obtain ⟨current, inner⟩ := state
  cases event with
  | request id channel =>
    cases inner <;> simp only [handle, request] at run <;> (repeat' split at run) <;>
      simp only [bind_ok, nextId_ok, pair_ok] at run <;>
      refine ⟨⟨?_, ?_, ?_, ?_⟩, ?_, ?_⟩ <;> grind [Event.id]
  | response id payload =>
    cases inner <;> simp only [handle, response] at run <;> (repeat' split at run) <;>
      simp only [bind_ok, nextId_ok, pair_ok] at run <;>
      refine ⟨⟨?_, ?_, ?_, ?_⟩, ?_, ?_⟩ <;> grind [Event.id]

theorem Run.consistent (run : Run events forwarded state) : Consistent events forwarded state := by
  induction run with
  | start =>
    refine ⟨?_, ?_, ?_, nodup_nil⟩
    · intro _ waits
      cases waits
    · intro _ waits
      cases waits
    · intro _ member
      cases member
  | step _ handles ih => exact (ih.step handles).1

def handleAll (state : ClientHandlerState Channel Resp) (events : List (Event Channel Resp)) :
    Outcome (ClientHandlerState Channel Resp) :=
  events.foldlM (fun state event => Prod.fst <$> state.handle event) state

/-- What the current id has after its response has come again `repeats` times. -/
def Awaits (id repeats : Nat) (state : ClientHandlerState Channel Resp) : Prop :=
  state.id = id ∧
    if Even repeats then ∃ payload, state.inner = .response payload else state.inner = .neither

variable {repeats id : Nat} {channel : Channel}

/-- A response to the current id that comes again takes away or puts back what waits. -/
theorem Awaits.step (awaits : state.Awaits id repeats) (precedes : event.Precedes id)
    (run : state.handle event = .ok (next, reaction)) :
    next.Awaits id (repeats + if event.isResponse id then 1 else 0) := by
  obtain ⟨current, inner⟩ := state
  cases event with
  | request other channel =>
    obtain ⟨rfl, _⟩ := awaits
    simp only [handle, request, if_pos (show other < current from precedes)] at run
    cases pure_ok.mp run
    exact ⟨rfl, ‹_›⟩
  | response other payload =>
    cases inner <;> simp only [handle, response] at run <;> (repeat' split at run) <;>
      simp only [bind_ok, nextId_ok, pair_ok] at run <;>
      grind [Awaits, Event.Precedes, Event.isResponse, Nat.even_add_one]

theorem Awaits.all (precede : ∀ event ∈ events, event.Precedes id)
    (awaits : state.Awaits id repeats) (run : state.handleAll events = .ok next) :
    next.Awaits id (repeats + events.countP (·.isResponse id)) := by
  induction events generalizing state repeats with
  | nil =>
    cases pure_ok.mp run
    exact awaits
  | cons event rest ih =>
    simp only [handleAll, foldlM_cons, bind_ok, map_ok, Prod.exists] at run
    obtain ⟨_, ⟨middle, reaction, handles, rfl⟩, later⟩ := run
    have awaitsNext := awaits.step (precede event mem_cons_self) handles
    have awaitsLast := ih (fun other member => precede other (mem_cons_of_mem _ member))
        awaitsNext later
    rwa [countP_cons, Nat.add_comm (List.countP _ _), ← Nat.add_assoc]

theorem Awaits.request (awaits : state.Awaits id repeats)
    (run : state.handle (.request id channel) = .ok (next, reaction)) :
    reaction.sent.isSome = true ↔ Even repeats := by
  obtain ⟨current, inner⟩ := state
  obtain ⟨rfl, waits⟩ := awaits
  simp only [handle, ClientHandlerState.request, lt_irrefl, if_false] at run
  split at waits
  · next even =>
    obtain ⟨payload, rfl⟩ := waits
    simp only [bind_ok, pair_ok] at run
    obtain ⟨_, _, _, rfl⟩ := run
    simp [even]
  rename_i odd
  subst waits
  cases pure_ok.mp run
  simp [odd]

end ClientHandlerState

open ClientHandlerState

/-- Payloads go only where a request for their id was registered, no id is forwarded twice and the
current id never falls. A response that waits for its request is handed to it if and only if it has
come again an even number of times in between. -/
theorem responses_routed {events : List (Event Channel Resp)} {forwarded : List Nat}
    {state : ClientHandlerState Channel Resp} (run : Run events forwarded state) : forwarded.Nodup ∧
    (∀ event next reaction, state.handle event = .ok (next, reaction) → state.id ≤ next.id ∧
      ∀ channel payload, reaction.sent = some (channel, payload) →
        ∃ id, .request id channel ∈ event :: events ∧ .response id payload ∈ event :: events) ∧
    ∀ payload, state.inner = .response payload → ∀ between waiting channel next reaction,
      (∀ event ∈ between, event.Precedes state.id) → state.handleAll between = .ok waiting →
      waiting.handle (.request state.id channel) = .ok (next, reaction) →
      (reaction.sent.isSome = true ↔ Even (between.countP (·.isResponse state.id))) := by
  have consistent := run.consistent
  refine ⟨consistent.once, fun _ _ _ handles => (consistent.step handles).2, ?_⟩
  intro payload held between waiting channel next reaction precede handled asked
  have awaits : state.Awaits state.id 0 := ⟨rfl, payload, held⟩
  have awaitsThen := awaits.all precede handled
  rw [awaitsThen.request asked, Nat.zero_add]

theorem first_response : Run [.response 0 7] [] (⟨0, .response 7⟩ : ClientHandlerState Unit Nat) :=
  @Run.step _ _ _ _ _ ⟨false, none⟩ _ _ .start rfl

/-- Before the request comes, the response to it does so twice more, between messages about an
earlier id. -/
theorem response_handed_over : ∃ waiting next reaction,
    Run [.response 1 7] [] (⟨1, .response 7⟩ : ClientHandlerState Unit Nat) ∧
      handleAll (⟨1, .response 7⟩ : ClientHandlerState Unit Nat)
        [.response 1 8, .request 0 (), .response 0 5, .response 1 9] = .ok waiting ∧
      waiting.handle (.request 1 ()) = .ok (next, reaction) ∧ reaction.sent.isSome = true := by
  have run : Run [.response 1 7] [] (⟨1, .response 7⟩ : ClientHandlerState Unit Nat) :=
    @Run.step _ _ _ _ _ ⟨false, none⟩ _ _ .start rfl
  exact ⟨_, _, _, run, rfl, rfl, ((responses_routed run).2.2 7 rfl
    [.response 1 8, .request 0 (), .response 0 5, .response 1 9] _ () _ _
    (by simp [Event.Precedes]) rfl rfl).mpr (by decide)⟩

/-- The response comes a second time, and then the request does not get it. -/
theorem repeated_response_lost : ∃ waiting next reaction,
    Run [.response 0 7] [] (⟨0, .response 7⟩ : ClientHandlerState Unit Nat) ∧
      handleAll (⟨0, .response 7⟩ : ClientHandlerState Unit Nat) [.response 0 7] = .ok waiting ∧
      waiting.handle (.request 0 ()) = .ok (next, reaction) ∧ reaction.sent = none :=
  ⟨_, _, _, first_response, rfl, rfl, rfl⟩

end Abcperf.Webserver
