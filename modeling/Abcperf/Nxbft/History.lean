import Abcperf.Nxbft.Network

/-! What the invariants read from the outputs of a replica, and how an invariant of the handlers
becomes one of the calls, which also process what the replica sends to itself. -/

namespace Abcperf.Nxbft

open Lib Lib.Outcome Output

variable {P : Platform}

def Message.echo : Message P → Option (Nat × P.Attestation)
  | .helloEcho creator attestation => some (creator, attestation)
  | _ => none

def StateMessage.leaders : StateMessage P → List DagAddress
  | .decided _ leaders _ => leaders
  | _ => []

def StateMessage.order : StateMessage P → List DagAddress
  | .decided _ _ order => order
  | _ => []

def echoesOf (output : Output P) : List (Nat × P.Attestation) :=
  output.broadcasts.filterMap (·.message.echo) ++ output.unicasts.filterMap (·.2.message.echo)

def leadersOf (output : Output P) : List DagAddress :=
  output.stateMessages.flatMap StateMessage.leaders

def orderOf (output : Output P) : List DagAddress :=
  output.stateMessages.flatMap StateMessage.order

section

variable (first second : Output P)

include first second

@[simp] theorem mem_echoesOf_append (echo : Nat × P.Attestation) :
    echo ∈ echoesOf (first.append second) ↔ echo ∈ echoesOf first ∨ echo ∈ echoesOf second := by
  simp only [echoesOf, append, List.filterMap_append, List.mem_append]
  tauto

@[simp] theorem signedBy_append :
    signedBy (first.append second) = signedBy first ++ signedBy second := by
  simp [signedBy, append]

@[simp] theorem leadersOf_append :
    leadersOf (first.append second) = leadersOf first ++ leadersOf second := by
  simp [leadersOf, append]

@[simp] theorem orderOf_append :
    orderOf (first.append second) = orderOf first ++ orderOf second := by
  simp [orderOf, append]

@[simp] theorem delivery_append :
    (first.append second).delivery = first.delivery ++ second.delivery := rfl

end

@[simp] theorem echoesOf_empty : echoesOf (empty : Output P) = [] := rfl

@[simp] theorem signedBy_empty : signedBy (empty : Output P) = [] := rfl

@[simp] theorem leadersOf_empty : leadersOf (empty : Output P) = [] := rfl

@[simp] theorem orderOf_empty : orderOf (empty : Output P) = [] := rfl

namespace Replica

/-- Everything a replica has handed out, including what the current call has not returned yet. -/
def total (history : Output P) (replica : Replica P) : Output P :=
  history.append replica.output.output

structure Facts (P : Platform) where
  signed : List (Vertex P)
  leaders : List DagAddress
  order : List DagAddress
  delivery : List P.Tx

def factsOf (output : Output P) : Facts P :=
  ⟨signedBy output, leadersOf output, orderOf output, output.delivery⟩

def taken (replica : Replica P) : Replica P := { replica with output := .new replica.me }

/-- What makes a property of the handlers one of the calls: handlers keep it, it does not matter
whether output is pending or already returned, and what the replica sends to itself is admitted. -/
structure Reflects (env : Env) (keeps : Output P → Replica P → Prop)
    (admits : Output P → PeerMessage P → Prop) : Prop where
  dispatch : ∀ history replica message next, keeps history replica → admits history message →
    replica.dispatch env message = .ok next → keeps history next
  take : ∀ history replica, keeps history replica →
    keeps (total history replica) replica.taken ∧
      ∀ message ∈ replica.output.reflectionMessages, admits (total history replica) message
  later : ∀ history output message, admits history message →
    admits (history.append output) message

section

variable {env : Env} {keeps : Output P → Replica P → Prop}
  {admits : Output P → PeerMessage P → Prop} (rule : Reflects env keeps admits)

include rule

theorem reflectWith_keeps {process : Replica P → PeerMessage P → Outcome (Replica P × Output P)}
    (each : ∀ history replica message next output, keeps history replica →
      admits history message → process replica message = .ok (next, output) →
      keeps (history.append output) next) {history : Output P} {replica next : Replica P}
    {output : Output P} (holds : keeps history replica)
    (run : replica.reflectWith process = .ok (next, output)) :
    keeps (history.append output) next := by
  obtain ⟨start, reflected⟩ := rule.take history replica holds
  let loop : Replica P × Output P → Prop := fun state =>
    keeps (history.append state.2) state.1 ∧
      ∀ message ∈ replica.output.reflectionMessages, admits (history.append state.2) message
  have atStart : loop (replica.taken, replica.output.output) := ⟨start, reflected⟩
  have kept : loop (next, output) := by
    refine foldlM_keeps loop _ _ _ _ ?_ atStart run
    rintro ⟨current, collected⟩ message ⟨after, joined⟩ member ⟨currentKeeps, admitted⟩ step
    simp only [bind_ok, pair_ok, Prod.exists] at step
    obtain ⟨after', more, processed, rfl, rfl⟩ := step
    have stepKeeps := each _ current message _ more currentKeeps (admitted message member) processed
    rw [append_assoc] at stepKeeps
    refine ⟨stepKeeps, ?_⟩
    intro other isOther
    have := rule.later _ more other (admitted other isOther)
    rwa [append_assoc] at this
  exact kept.1

theorem processPeerMessage_keeps (fuel : Nat) (history : Output P) (replica : Replica P)
    (message : PeerMessage P) (next : Replica P) (output : Output P) (holds : keeps history replica)
    (admitted : admits history message)
    (run : replica.processPeerMessage env fuel message = .ok (next, output)) :
    keeps (history.append output) next := by
  induction fuel generalizing history replica message next output with
  | zero => simp [processPeerMessage] at run
  | succ fuel ih =>
    simp only [processPeerMessage, bind_ok] at run
    obtain ⟨handled, dispatched, reflected⟩ := run
    exact reflectWith_keeps rule ih
      (rule.dispatch history replica message handled holds admitted dispatched) reflected

end

theorem reflect_keeps {env : Env} {keeps : Output P → Replica P → Prop}
    {admits : Output P → PeerMessage P → Prop} (rule : Reflects env keeps admits)
    {history : Output P} {replica next : Replica P} {output : Output P}
    (holds : keeps history replica) (run : replica.reflect env = .ok (next, output)) :
    keeps (history.append output) next :=
  reflectWith_keeps rule (processPeerMessage_keeps rule env.fuel) holds run

end Replica

end Abcperf.Nxbft
