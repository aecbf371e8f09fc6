import Abcperf.Minbft.Execution

/-! Which requests of its clients a replica takes up when they arrive, and which it executes. Both
are decided by bounds for each client that only grow. -/

namespace Abcperf.Minbft

open Lib Lib.Outcome List

variable {P : Platform}

structure Encounter (P : Platform) where
  executes : Bool
  request : ClientRequest P

namespace ClientState

def meet (state : ClientState P) (encounter : Encounter P) : Option (ClientState P) :=
  if encounter.executes then state.updateUponRequestCompletion encounter.request.id
  else state.updateUponRequestReceival encounter.request.id encounter.request

def bound (state : ClientState P) (executes : Bool) : Nat :=
  max (state.lastAcceptedReq.elim 0 (· + 1))
    (if executes then 0 else state.currentlyProcessingReq.elim 0 (·.1 + 1))

/-- A request moves the bounds up to its id, but the one for executions only if it is executed. -/
theorem meet_bound (state : ClientState P) (encounter : Encounter P) :
    ((state.meet encounter).isSome = true ↔ state.bound encounter.executes ≤ encounter.request.id) ∧
      ∀ executes, ((state.meet encounter).getD state).bound executes =
        if executes → encounter.executes then max (state.bound executes) (encounter.request.id + 1)
        else state.bound executes := by
  obtain ⟨atExecution, request⟩ := encounter
  obtain ⟨last, processing⟩ := state
  constructor
  · cases atExecution <;> cases last <;> cases processing <;>
      grind [meet, bound, updateUponRequestCompletion, updateUponRequestReceival, isAtMost]
  intro executes
  cases atExecution <;> cases executes <;> cases last <;> cases processing <;>
    simp [meet, bound, updateUponRequestCompletion, updateUponRequestReceival, isAtMost,
      Option.filter] <;> grind

end ClientState

theorem clientState_insert {C : Carriers} (clients : IdMap (ClientState C)) (client other : Nat)
    (entry : ClientState C) : clientState (clients.insert client entry) other =
      if other = client then entry else clientState clients other := by
  unfold clientState
  rw [IdMap.get_insert]
  split <;> rfl

theorem processClientReq_meets {processor next : RequestProcessor P} {env : Env}
    {request : ClientRequest P} {primary : Bool} {duration : Nat} {timeout : Option TimeoutRequest}
    {controller : ControllerOutput P}
    (run : processor.processClientReq env request primary duration =
      .ok (next, timeout, controller)) :
    let state := clientState processor.clientsState request.client
    timeout.isSome = (state.meet ⟨false, request⟩).isSome ∧ next.clientsState =
      processor.clientsState.insert request.client ((state.meet ⟨false, request⟩).getD state) := by
  simp only [RequestProcessor.processClientReq] at run
  change _ = (ClientState.updateUponRequestReceival _ _ _).isSome ∧
    _ = processor.clientsState.insert _ ((ClientState.updateUponRequestReceival _ _ _).getD _)
  split at run
  · next ignored =>
    cases pure_ok.mp run
    rw [ignored]
    exact ⟨rfl, rfl⟩
  rename_i entry takes
  rw [takes]
  cases primary with
  | false =>
    cases pure_ok.mp run
    exact ⟨rfl, rfl⟩
  | true =>
    simp only [if_true, bind_ok, pure_ok] at run
    obtain ⟨batched, -, isNext⟩ := run
    cases isNext
    exact ⟨rfl, rfl⟩

theorem acceptRequest_meets (acceptance : Acceptance P) (request : ClientRequest P)
    (duration : Nat) :
    let state := clientState acceptance.processor.clientsState request.client
    (acceptance.acceptRequest request duration).2.1 = (state.meet ⟨true, request⟩).isSome ∧
      (acceptance.acceptRequest request duration).1.processor.clientsState =
        acceptance.processor.clientsState.insert request.client
          ((state.meet ⟨true, request⟩).getD state) := by
  change _ = (ClientState.updateUponRequestCompletion _ request.id).isSome ∧
    _ = IdMap.insert _ _ ((ClientState.updateUponRequestCompletion _ request.id).getD _)
  cases isNext : ClientState.updateUponRequestCompletion
      (clientState acceptance.processor.clientsState request.client) request.id <;>
    (simp only [Acceptance.acceptRequest, isNext]; exact ⟨rfl, rfl⟩)

namespace RequestProcessor

def bound (processor : RequestProcessor P) (client : Nat) (executes : Bool) : Nat :=
  (clientState processor.clientsState client).bound executes

/-- A request arrives or is executed; the flag says if the replica takes it up or executes it. -/
inductive Handles (processor : RequestProcessor P) : Encounter P → Bool → RequestProcessor P → Prop
  | arrival {env : Env} {request : ClientRequest P} {primary : Bool} {duration : Nat}
      {next : RequestProcessor P} {timeout : Option TimeoutRequest}
        {controller : ControllerOutput P}
      (run : processor.processClientReq env request primary duration =
        .ok (next, timeout, controller)) :
      Handles processor ⟨false, request⟩ timeout.isSome next
  | execution (acceptance : Acceptance P) (request : ClientRequest P) (duration : Nat)
      (processes : acceptance.processor = processor) :
      Handles processor ⟨true, request⟩ (acceptance.acceptRequest request duration).2.1
        (acceptance.acceptRequest request duration).1.processor

/-- One request after the other. In between the replica may do what does not concern its clients. -/
inductive HandlesAll : RequestProcessor P → List (Encounter P × Bool) → Prop
  | nil (processor : RequestProcessor P) : HandlesAll processor []
  | cons {processor middle next : RequestProcessor P} {encounter : Encounter P} {flag : Bool}
      {rest : List (Encounter P × Bool)} (same : middle.clientsState = processor.clientsState)
      (handles : middle.Handles encounter flag next) (others : HandlesAll next rest) :
      HandlesAll processor ((encounter, flag) :: rest)

theorem Handles.bound {processor middle next : RequestProcessor P} {encounter : Encounter P}
    {flag : Bool} (same : middle.clientsState = processor.clientsState)
    (handles : middle.Handles encounter flag next) :
    (flag = true ↔ processor.bound encounter.request.client encounter.executes ≤
        encounter.request.id) ∧ ∀ client executes, next.bound client executes =
        if client = encounter.request.client ∧ (executes → encounter.executes) then
          max (processor.bound client executes) (encounter.request.id + 1)
        else processor.bound client executes := by
  have met : flag = ((clientState processor.clientsState encounter.request.client).meet
        encounter).isSome ∧ next.clientsState = processor.clientsState.insert
          encounter.request.client (((clientState processor.clientsState
            encounter.request.client).meet encounter).getD
              (clientState processor.clientsState encounter.request.client)) := by
    rw [← same]
    cases handles with
    | arrival run => exact processClientReq_meets run
    | execution acceptance request duration processes =>
      subst processes
      exact acceptRequest_meets acceptance request duration
  obtain ⟨isMet, bounds⟩ :=
    (clientState processor.clientsState encounter.request.client).meet_bound encounter
  refine ⟨met.1 ▸ isMet, fun client executes => ?_⟩
  simp only [RequestProcessor.bound, met.2, clientState_insert]
  by_cases ofClient : client = encounter.request.client
  · simp only [ofClient, if_true, true_and, bounds]
  · simp only [ofClient, if_false, false_and]

end RequestProcessor

namespace Plain

def idle : Acceptance platform := ⟨.new (.trivial (.new 0 none)), .empty, .new, .new true⟩

def ordered (requestId : Nat) : Encounter platform := ⟨true, ⟨1, .client requestId (5 : Nat)⟩⟩

theorem ordered_handled (acceptance : Acceptance platform) (requestId : Nat) :
    acceptance.processor.HandlesAll [(ordered requestId,
      (acceptance.acceptRequest (ordered requestId).request 0).2.1)] :=
  .cons rfl (.execution acceptance (ordered requestId).request 0 rfl) (.nil _)

end Plain

/-- After a prefix of a run, the bounds are above the ids of the requests that were met. -/
theorem RequestProcessor.HandlesAll.later {processor : RequestProcessor P}
    {earlier later : List (Encounter P × Bool)} (run : processor.HandlesAll (earlier ++ later)) :
    ∃ middle : RequestProcessor P, middle.HandlesAll later ∧ ∀ client executes id,
      middle.bound client executes ≤ id ↔ processor.bound client executes ≤ id ∧
        ∀ entry ∈ earlier, entry.1.request.client = client → (executes → entry.1.executes) →
          entry.1.request.id < id := by
  induction earlier generalizing processor with
  | nil => exact ⟨processor, run, by simp⟩
  | cons entry earlier ih =>
    cases run with
    | @cons _ _ next encounter flag _ same handles others =>
      obtain ⟨middle, rest, bounds⟩ := ih others
      refine ⟨middle, rest, fun client executes id => ?_⟩
      rw [bounds, (handles.bound same).2, forall_mem_cons]
      split <;> grind

/-- A request is executed if and only if no request of the client with this id or a greater one was
to be executed before, and it is taken up if and only if none has arrived or was to be executed. -/
theorem admitted_iff_newest {processor : RequestProcessor P}
    {earlier later : List (Encounter P × Bool)} {encounter : Encounter P} {flag : Bool}
    (fresh : processor.clientsState = .empty)
    (run : processor.HandlesAll (earlier ++ (encounter, flag) :: later)) :
    flag = true ↔ ∀ entry ∈ earlier, entry.1.request.client = encounter.request.client →
      (encounter.executes → entry.1.executes) → entry.1.request.id < encounter.request.id := by
  obtain ⟨middle, rest, bounds⟩ := run.later
  cases rest with
  | cons same handles _ =>
    rw [(handles.bound same).1, bounds, and_iff_right]
    simp [RequestProcessor.bound, clientState, fresh, ClientState.bound, ClientState.new]

/-- The request 1 of client 1 is executed, and then the request 0 is not. -/
theorem older_request_skipped : ∃ earlier : List (Encounter Plain.platform × Bool),
    Plain.idle.processor.HandlesAll (earlier ++ [(Plain.ordered 0, false)]) ∧
      ∃ entry ∈ earlier, (Plain.ordered 0).request.id ≤ entry.1.request.id := by
  have run : Plain.idle.processor.HandlesAll
      ([(Plain.ordered 1, true)] ++ [(Plain.ordered 0, false)]) :=
    .cons rfl (.execution Plain.idle _ 0 rfl) (Plain.ordered_handled _ 0)
  have skipped := (admitted_iff_newest rfl run).not.mp nofun
  push Not at skipped
  obtain ⟨entry, isEarlier, -, -, older⟩ := skipped
  exact ⟨_, run, entry, isEarlier, older⟩

end Abcperf.Minbft
